import ServerLynx.Correlation

/-!
# The events of one connection

In every run the events that are pushed about one connection are an `OPEN`, `READ`s and a `CLOSE`, in this order: of the
first and the last there is one at most, and a connection that was not announced is told of by its `CLOSE` only.  A
client id is used again by the connections that get its link; a TCP handle is not.
-/

namespace ServerLynx

open Threads

/-- The events of a connection so far. -/
inductive ConnWord : List EventType → Prop
  | nil : ConnWord []
  | unannounced : ConnWord [.clientClose]
  | opened (reads : Nat) : ConnWord (.clientOpen :: List.replicate reads .clientRead)
  | closed (reads : Nat) : ConnWord (.clientOpen :: (List.replicate reads .clientRead ++ [.clientClose]))

/-- The types of the events pushed about the connection of the handle `h`, in order. -/
def connEvents (pushed : List Pushed) (h : Nat) : List EventType :=
  (pushed.filter fun p => decide (p.conn = h)).map fun p => p.evt.type

variable {n : Nat} {E : Premises} {io l : Io} {h i : Nat} {w : List EventType} {pushed : List Pushed} {p : Pushed}
  {can : Io → (o : Op) → o.Res → Prop}

namespace ConnWord

theorem open_first (hw : ConnWord w) (hno : .clientOpen ∉ w) (hc : .clientClose ∉ w) :
    ConnWord (w ++ [.clientOpen]) := by
  cases hw with
  | nil => exact .opened 0
  | unannounced => simp at hc
  | opened reads => simp at hno
  | closed reads => simp at hno

theorem read (hw : ConnWord w) (ho : .clientOpen ∈ w) (hc : .clientClose ∉ w) : ConnWord (w ++ [.clientRead]) := by
  cases hw with
  | nil => simp at ho
  | unannounced => simp at hc
  | opened reads =>
    rw [List.cons_append, ← List.replicate_succ']
    exact .opened (reads + 1)
  | closed reads => simp at hc

theorem close (hw : ConnWord w) (hc : .clientClose ∉ w) : ConnWord (w ++ [.clientClose]) := by
  cases hw with
  | nil => exact .unannounced
  | unannounced => simp at hc
  | opened reads => exact .closed reads
  | closed reads => simp at hc

end ConnWord

theorem connEvents_append_self (pushed : List Pushed) (p : Pushed) :
    connEvents (pushed ++ [p]) p.conn = connEvents pushed p.conn ++ [p.evt.type] := by
  simp [connEvents]

theorem connEvents_append_ne (hne : p.conn ≠ h) : connEvents (pushed ++ [p]) h = connEvents pushed h := by
  simp [connEvents, hne]

theorem mem_connEvents {t : EventType} : t ∈ connEvents pushed h ↔ ∃ p ∈ pushed, p.conn = h ∧ p.evt.type = t := by
  simp [connEvents, and_assoc]

/-! ### A callback pushes one event at most -/

/-- From `io` to `l` no event was pushed, and the loop of `on_check_cb` was neither entered nor left. -/
structure Still (io l : Io) : Prop where
  pushed : l.pushed = io.pushed
  inCheck : l.inCheck = io.inCheck

instance : IsPreorder Io Still where
  refl _ := ⟨rfl, rfl⟩
  trans _ _ _ h h' := ⟨h'.pushed.trans h.pushed, h'.inCheck.trans h.inCheck⟩

section PushesLast

variable {α β : Type} {P : Op → Prop}

/-- The code pushes one event at most, and performs no operation after that. -/
structure PushesLast (m : IoM α) : Prop where
  path : ∀ l, m.path (fun _ _ _ => True) (fun l' _ => Still l l')
    (fun l' _ => l'.inCheck = l.inCheck ∧ (l'.pushed = l.pushed ∨ ∃ p, l'.pushed = l.pushed ++ [p])) l

theorem PushesLast.of_still {m : IoM α} (hm : m.Within P Still) : PushesLast m :=
  ⟨fun l => Code.path_mono (fun _ _ h => h.2) (fun _ _ h => ⟨h.inCheck, .inl h.pushed⟩) (hm.path l)⟩

theorem PushesLast.bind {m : IoM α} {f : α → IoM β} (hm : m.Within P Still) (hf : ∀ a, PushesLast (f a)) :
    PushesLast (m >>= f) := by
  refine ⟨fun l => ?_⟩
  rw [Code.path_bind]
  refine Code.path_mono (fun _ _ h => h.2) (fun l₁ a h₁ => ?_) (hm.path l)
  refine Code.path_mono (fun _ _ h => trans_of Still h₁ h) (fun l₂ _ h₂ => ?_) ((hf a).path l₁)
  rw [← h₁.pushed, ← h₁.inCheck]
  exact h₂

theorem PushesLast.ite {c : Prop} [Decidable c] {m m' : IoM α} (hm : PushesLast m) (hm' : PushesLast m') :
    PushesLast (if c then m else m') := by
  split
  · exact hm
  · exact hm'

/-- The push is the last operation where what follows performs none. -/
theorem PushesLast.push {e c : Nat} {evt : Event} {f : Bool → IoM α}
    (hf : ∀ b, (f b).Within (fun _ => False) Still) : PushesLast (readyPush e evt c >>= f) := by
  refine ⟨fun l => ?_⟩
  simp only [readyPush, Code.path_bind, Code.path_op, Code.path_modify, Code.path_pure]
  refine ⟨refl_of Still l, fun b _ => ?_⟩
  refine Code.path_mono (fun _ _ h => h.1.elim) (fun l' _ h' => ⟨h'.inCheck, ?_⟩) ((hf b).path _)
  cases b with
  | false => exact .inl h'.pushed
  | true => exact .inr ⟨_, h'.pushed⟩

/-! ### Code that pushes nothing -/

private theorem modify_still {f : Io → Io} (hf : ∀ io, Still io (f io)) : (modify f : IoM Unit).Within P Still :=
  .modify hf

private theorem perform_still (o : Op) : (perform o : IoM o.Res).Within (fun _ => True) Still := .op trivial

private theorem getLink_still (i : Nat) : (getLink i).Within P Still := .bind .get fun _ => .pure _

private theorem closeLink_still (i : Nat) : (closeLink i).Within P Still := by
  refine modify_still fun io => ?_
  split <;> exact ⟨rfl, rfl⟩

private theorem openLink_still : openLink.Within P Still := by
  refine .bind .get fun io => ?_
  cases io.linkList.svlLinkListOpen with
  | none => exact .pure _
  | some x => exact .bind (modify_still fun _ => ⟨rfl, rfl⟩) fun _ => .pure _

private theorem onRecvCbCleanup_still (handle i : Nat) (ret : ErrorCode) (close : Bool) :
    (onRecvCbCleanup handle i ret close).Within P Still :=
  .bind (modify_still fun _ => ⟨rfl, rfl⟩) fun _ => .ite (.bind .get fun _ => .ite
    (.bind (modify_still fun _ => ⟨rfl, rfl⟩) fun _ => modify_still fun _ => ⟨rfl, rfl⟩) (.pure _)) (.pure _)

private theorem linkEndpoints_still (i : Nat) (out : ConnectedOut) : (linkEndpoints i out).Within P Still :=
  .ite (.pure _) <| .ite (.pure _) <| .bind (modify_still fun _ => ⟨rfl, rfl⟩) fun _ => .ite (.pure _) <|
    .ite (.pure _) <| .bind (modify_still fun _ => ⟨rfl, rfl⟩) fun _ => .pure _

private theorem onInboundConnectionCbCleanup_still (h : Nat) (link : Option Nat) (init : Bool) :
    (onInboundConnectionCbCleanup h link init).Within P Still := by
  cases link with
  | none => exact .ite (modify_still fun _ => ⟨rfl, rfl⟩) (.pure _)
  | some i => exact .bind (modify_still fun _ => ⟨rfl, rfl⟩) fun _ => modify_still fun _ => ⟨rfl, rfl⟩

private theorem onOutboundConnectionCbCleanup_still (q : Nat) (locals : Option (Nat × Nat)) :
    (onOutboundConnectionCbCleanup q locals).Within P Still := by
  refine .bind (modify_still fun _ => ⟨rfl, rfl⟩) fun _ => ?_
  split
  · exact .bind (modify_still fun _ => ⟨rfl, rfl⟩) fun _ => modify_still fun _ => ⟨rfl, rfl⟩
  · exact modify_still fun _ => ⟨rfl, rfl⟩

private theorem recvSpace_still (i : Nat) : (do
    let some b := (← getLink i).readBuffer | return none
    let len ← perform (.bufferRemaining b)
    return some (b, len) : IoM (Option (Nat × Nat))).Within (fun _ => True) Still := by
  refine .bind (getLink_still i) fun link => ?_
  split
  · exact .bind (perform_still _) fun _ => .pure _
  · exact .pure _

private theorem onRecvAllocCb_still (handle : Nat) : (onRecvAllocCb handle).Within (fun _ => True) Still := by
  refine .bind .get fun io => ?_
  split
  case h_2 => exact .bind (modify_still fun _ => ⟨rfl, rfl⟩) fun _ => .pure _
  refine .bind (getLink_still _) fun link => .ite (.bind (perform_still _) fun r => ?_) (recvSpace_still _)
  split
  · exact .bind (modify_still fun _ => ⟨rfl, rfl⟩) fun _ => recvSpace_still _
  · exact .pure _

/-! ### The callbacks that push -/

private theorem onRecvCb_pushes (handle : Nat) (nread : Int) : PushesLast (onRecvCb handle nread) := by
  have hcleanup : ∀ i ret close, PushesLast (onRecvCbCleanup handle i ret close) :=
    fun i ret close => .of_still (P := fun _ => True) (onRecvCbCleanup_still handle i ret close)
  refine .bind (P := fun _ => True) .get fun io => ?_
  split
  case h_2 => exact .of_still (P := fun _ => True) (modify_still fun _ => ⟨rfl, rfl⟩)
  refine .ite (hcleanup _ _ _) (.ite (hcleanup _ _ _) (.bind (P := fun _ => True) (getLink_still _) fun link => ?_))
  split
  case h_2 => exact .of_still (P := fun _ => True) (modify_still fun _ => ⟨rfl, rfl⟩)
  refine .bind (perform_still _) fun added => .ite (hcleanup _ _ _) (.bind (perform_still _) fun r => ?_)
  split
  case h_2 => exact hcleanup _ _ _
  refine .bind (P := fun _ => True) (modify_still fun _ => ⟨rfl, rfl⟩) fun _ =>
    .bind (P := fun _ => True) (getLink_still _) fun link => .bind (perform_still _) fun span => .push fun pushed => ?_
  exact .ite (onRecvCbCleanup_still ..) (modify_still fun _ => ⟨rfl, rfl⟩)

private theorem uvRead_pushes (handle : Nat) (out : ReadOut) : PushesLast (uvRead handle out) := by
  refine .bind (onRecvAllocCb_still handle) fun r => ?_
  split
  case h_2 => exact onRecvCb_pushes _ _
  refine .ite (onRecvCb_pushes _ _) ?_
  cases out with
  | error err => exact onRecvCb_pushes _ _
  | empty => exact onRecvCb_pushes _ _
  | data bytes =>
    exact .bind (perform_still _) fun _ => .bind (P := fun _ => True) (modify_still fun _ => ⟨rfl, rfl⟩)
      fun _ => onRecvCb_pushes _ _

private theorem onCloseLinkCb_pushes (handle : Nat) : PushesLast (onCloseLinkCb handle) := by
  refine .bind (P := fun _ => True) .get fun io => ?_
  split
  case h_2 => exact .of_still (P := fun _ => True) (modify_still fun _ => ⟨rfl, rfl⟩)
  refine .bind (P := fun _ => True) (modify_still fun _ => ⟨rfl, rfl⟩) fun _ => .bind (P := fun _ => True) ?_ fun _ =>
    .bind (perform_still _) fun r => ?_
  · refine .bind (getLink_still _) fun link => ?_
    split
    · exact .bind (perform_still _) fun _ => modify_still fun _ => ⟨rfl, rfl⟩
    · exact .pure _
  split
  case h_2 => exact .of_still (P := fun _ => True) (modify_still fun _ => ⟨rfl, rfl⟩)
  refine .bind (P := fun _ => True) (modify_still fun _ => ⟨rfl, rfl⟩) fun _ =>
    .bind (P := fun _ => True) (getLink_still _) fun link => .push fun pushed => ?_
  exact .bind (closeLink_still _) fun _ => modify_still fun _ => ⟨rfl, rfl⟩

private theorem uvFinishClose_pushes (handle : Nat) : PushesLast (uvFinishClose handle) := by
  refine .bind (P := fun _ => True) (modify_still fun _ => ⟨rfl, rfl⟩) fun _ =>
    .bind (P := fun _ => True) .get fun io => ?_
  split
  · exact onCloseLinkCb_pushes handle
  · exact .of_still (P := fun _ => True) (modify_still fun _ => ⟨rfl, rfl⟩)
  · exact .of_still (P := fun _ => True) (.pure _)

private theorem announce_pushes {cleanup : IoM Unit} {rest : IoM Unit} {i c : Nat} {fields : Link → Event → Event}
    (hc : cleanup.Within (fun _ => False) Still) (hr : rest.Within (fun _ => False) Still) :
    PushesLast (do
      let some (e, openEvt) ← perform (.eventFreePop .clientOpen) | cleanup
      modify fun io => { io with hand := some e }
      let link ← getLink i
      let pushed ← readyPush e (fields link openEvt) c
      if !pushed then return ← cleanup
      rest) := by
  refine .bind (perform_still _) fun r => ?_
  split
  case h_2 => exact .of_still hc
  refine .bind (P := fun _ => True) (modify_still fun _ => ⟨rfl, rfl⟩) fun _ =>
    .bind (P := fun _ => True) (getLink_still _) fun link => .push fun pushed => ?_
  exact .ite hc hr

private theorem onInboundConnectionCb_pushes (status : Int) (out : InboundOut) :
    PushesLast (onInboundConnectionCb status out) := by
  have hcleanup : ∀ h link init, PushesLast (onInboundConnectionCbCleanup h link init) :=
    fun h link init => .of_still (P := fun _ => True) (onInboundConnectionCbCleanup_still h link init)
  refine .ite (.of_still (P := fun _ => True) (.pure _)) (.bind (P := fun _ => True) ?_ fun r => ?_)
  · exact .ite (.pure _) (.bind .get fun _ => .bind (modify_still fun _ => ⟨rfl, rfl⟩) fun _ => .pure _)
  split
  case h_2 => exact .of_still (P := fun _ => True) (.pure _)
  refine .ite (hcleanup _ _ _) (.bind (P := fun _ => True) (modify_still fun _ => ⟨rfl, rfl⟩) fun _ =>
    .ite (hcleanup _ _ _) (.bind (P := fun _ => True) openLink_still fun r => ?_))
  split
  case h_2 => exact hcleanup _ _ _
  refine .bind (P := fun _ => True) (modify_still fun _ => ⟨rfl, rfl⟩) fun _ => .bind (P := fun _ => True)
    (modify_still fun _ => ⟨rfl, rfl⟩) fun _ => .bind (P := fun _ => True) (linkEndpoints_still _ _) fun ok =>
    .ite (hcleanup _ _ _) (announce_pushes ?_ ?_)
  · exact onInboundConnectionCbCleanup_still ..
  · exact .ite (onInboundConnectionCbCleanup_still ..) (modify_still fun _ => ⟨rfl, rfl⟩)

private theorem onOutboundConnectionCb_pushes (q : Nat) (status : Int) (out : ConnectedOut) :
    PushesLast (onOutboundConnectionCb q status out) := by
  have hundef : PushesLast undefinedBehaviour := .of_still (P := fun _ => True) (modify_still fun _ => ⟨rfl, rfl⟩)
  have hcleanup : ∀ locals, PushesLast (onOutboundConnectionCbCleanup q locals) :=
    fun locals => .of_still (P := fun _ => True) (onOutboundConnectionCbCleanup_still q locals)
  refine .bind (P := fun _ => True) .get fun io => ?_
  cases hd : (io.connectReqs q).data with
  | none => simpa only [hd] using hundef
  | some i =>
    simp only [hd]
    refine .ite (hcleanup _) (.bind (P := fun _ => True) (getLink_still _) fun link => ?_)
    split
    case h_2 => exact hundef
    refine .ite hundef (.bind (P := fun _ => True) (linkEndpoints_still _ _) fun ok => .ite (hcleanup _)
      (announce_pushes ?_ ?_))
    · exact onOutboundConnectionCbCleanup_still ..
    · exact .bind (modify_still fun _ => ⟨rfl, rfl⟩) fun _ => .ite (onOutboundConnectionCbCleanup_still ..)
        (modify_still fun _ => ⟨rfl, rfl⟩)

/-- The callbacks on connections push one event at most, and last. -/
theorem IoRun.pushes_last {d : IoRun} (hk : d.kind = .event) : PushesLast d.code := by
  cases d with
  | inbound status out => exact onInboundConnectionCb_pushes status out
  | outbound q status out =>
    refine .bind (P := fun _ => True) (modify_still fun io => ?_) fun _ => onOutboundConnectionCb_pushes q status out
    unfold onHandle
    split <;> exact ⟨rfl, rfl⟩
  | read handle out => exact uvRead_pushes handle out
  | close handle => exact uvFinishClose_pushes handle
  | send q =>
    refine .of_still (P := fun _ => True) (.bind (modify_still fun _ => ⟨rfl, rfl⟩) fun _ => .bind .get fun io => ?_)
    split
    · refine modify_still fun io => ?_
      split <;> exact ⟨rfl, rfl⟩
    · exact modify_still fun _ => ⟨rfl, rfl⟩
  | _ => simp [IoRun.kind] at hk

end PushesLast

/-! ### The invariant -/

/-- The events of each connection come in order, and a connection whose `CLOSE` was pushed has given its link up. -/
structure ConnsInTurn (io : Io) : Prop where
  words : ∀ h, ConnWord (connEvents io.pushed h)
  ended : ∀ p ∈ io.pushed, p.evt.type = .clientClose → ∀ i, ¬ (io.handles p.conn).Holds i

/-- The connections whose `CLOSE` is among the events of `pushed` have given their links up. -/
structure Ended (pushed : List Pushed) (io : Io) : Prop where
  lt : ∀ p ∈ pushed, p.conn < io.handleCount
  ended : ∀ p ∈ pushed, p.evt.type = .clientClose → ∀ i, ¬ (io.handles p.conn).Holds i

namespace Ended

/-- Handles that are not new hold no link that they did not hold. -/
theorem fewer (he : Ended pushed io) (hc : io.handleCount ≤ l.handleCount)
    (hh : ∀ h < io.handleCount, ∀ i, (l.handles h).Holds i → ∃ j, (io.handles h).Holds j) : Ended pushed l where
  lt p hp := Nat.lt_of_lt_of_le (he.lt p hp) hc
  ended p hp ht i hi := by
    obtain ⟨j, hj⟩ := hh p.conn (he.lt p hp) i hi
    exact he.ended p hp ht j hj

theorem setHandle (he : Ended pushed io) {f : Handle → Handle} (hl : l.handles = (io.setHandle h f).handles)
    (hc : l.handleCount = io.handleCount) (hf : ∀ i, (f (io.handles h)).Holds i → ∃ j, (io.handles h).Holds j) :
    Ended pushed l := by
  refine he.fewer (Nat.le_of_eq hc.symm) fun h' _ i hi => ?_
  rw [hl] at hi
  by_cases hne : h' = h
  · subst hne
    rw [Io.setHandle_handles_self] at hi
    exact hf i hi
  · rw [show (io.setHandle h f).handles h' = io.handles h' from Function.update_of_ne hne _ _] at hi
    exact ⟨i, hi⟩

end Ended

private theorem ended_runs : KeptByRuns n E (Ended pushed) := by
  -- a handle is made
  have hmade : ∀ {io l : Io} {x : Handle}, Ended pushed io → l.handleCount = io.handleCount + 1 →
      l.handles = Function.update io.handles io.handleCount x → Ended pushed l := by
    intro io l x he hc hx
    refine he.fewer (hc ▸ Nat.le_succ _) fun h hlt i hi => ⟨i, ?_⟩
    rwa [hx, Function.update_of_ne (Nat.ne_of_lt hlt)] at hi
  -- the connection of a handle that holds a link changes
  have hconn : ∀ {io l : Io} {h i : Nat}, Ended pushed io → (io.handles h).Holds i → l.handleCount = io.handleCount →
      (∀ h', h' ≠ h → l.handles h' = io.handles h') → Ended pushed l := by
    intro io l h i he hh hc hl
    refine he.fewer (Nat.le_of_eq hc.symm) fun h' _ j hj => ?_
    by_cases hne : h' = h
    · exact ⟨i, hne ▸ hh⟩
    · exact ⟨j, hl h' hne ▸ hj⟩
  have hstray : ∀ {io l : Io} {cmd : Option Cmd}, Ended pushed io → MadeStray cmd io l → Ended pushed l := by
    intro io l cmd he hl
    obtain ⟨x, -, -, hx⟩ := hl.handles
    exact hmade he hl.count hx
  exact {
    same := fun he hs => he.fewer (Nat.le_of_eq hs.count.symm) fun h _ i hi => ⟨i, hs.handles ▸ hi⟩
    conn := fun he hh hl => hconn he hh hl.count hl.handles
    closed := by
      intro io l h i he hh _ hl
      obtain ⟨l', list, log, refused, hl', -, rfl⟩ := hl
      exact hconn he hh hl'.count fun h' hne => (Function.update_of_ne hne _ _).trans (hl'.handles h' hne)
    stray := fun _ he hl => hstray he hl
    madeStray := fun _ he hl => hstray he hl
    attach := fun _ he _ => hmade he rfl rfl
    dialled := fun _ he _ hl => hmade he hl.count hl.handles
    finish := fun he _ => he.setHandle rfl rfl fun i hi => ⟨i, hi⟩
    release := fun he _ => he.setHandle rfl rfl fun i hi => absurd hi.2 (by simp)
    connected := fun q h he => he.setHandle (h := h) (f := fun x => { x with connecting := false }) rfl rfl
      fun i hi => ⟨i, hi⟩
    closedBy := fun cmd he hh => hconn he hh rfl fun h' hne => by
      simp [Io.closedBy, Io.uvClose, Io.setHandle, Io.setLink, Function.update_of_ne hne]
    service := fun he hm => he.fewer hm.conns.count fun h _ i hi => ⟨i, hm.holds h i hi⟩ }

theorem ConnsInTurn.ended_all (hj : ConnsInTurn io) (hcor : Correlation False io) : Ended io.pushed io :=
  ⟨fun p hp => (hcor.events p hp).lt, hj.ended⟩

/-- No event was pushed. -/
theorem ConnsInTurn.same (hj : ConnsInTurn io) (hp : l.pushed = io.pushed) (he : Ended io.pushed l) : ConnsInTurn l :=
  ⟨hp ▸ hj.words, hp ▸ he.ended⟩

/-- An event of the connection `p.conn` was pushed that is next in its word. -/
theorem ConnsInTurn.push (hj : ConnsInTurn io) (hp : l.pushed = io.pushed ++ [p]) (he : Ended io.pushed l)
    (hw : ConnWord (connEvents io.pushed p.conn ++ [p.evt.type]))
    (hc : p.evt.type = .clientClose → ∀ i, ¬ (l.handles p.conn).Holds i) : ConnsInTurn l where
  words h := by
    rw [hp]
    by_cases hne : p.conn = h
    · subst hne
      rw [connEvents_append_self]
      exact hw
    · rw [connEvents_append_ne hne]
      exact hj.words h
  ended q hq ht := by
    rw [hp] at hq
    rcases List.mem_append.1 hq with hq | hq
    · exact he.ended q hq ht
    · obtain rfl := List.mem_singleton.1 hq
      exact hc ht

/-- The connection of a handle that holds a link has not been closed. -/
theorem ConnsInTurn.not_closed (hj : ConnsInTurn io) (hh : (io.handles h).Holds i) :
    .clientClose ∉ connEvents io.pushed h := by
  rw [mem_connEvents]
  rintro ⟨p, hp, rfl, ht⟩
  exact hj.ended p hp ht i hh

/-- The event that was pushed, if one was, is next in the word of its connection. -/
def NextInTurn (io l : Io) : Prop :=
  ∀ p, l.pushed = io.pushed ++ [p] → ConnWord (connEvents io.pushed p.conn ++ [p.evt.type]) ∧
    (p.evt.type = .clientClose → ∀ i, ¬ (l.handles p.conn).Holds i)

theorem nextInTurn_of_same (hs : l.pushed = io.pushed) : NextInTurn io l := by
  intro p hp
  have hlen := congrArg List.length (hp.symm.trans hs)
  simp at hlen

/-- What a frame says of the events it allows, it says of the one that was pushed. -/
theorem OnConn.of_pushed {Q : Pushed → Prop} {io₀ : Io} (hl : OnConn Q h i io₀ l) (h₀ : io₀.pushed = io.pushed)
    (hp : l.pushed = io.pushed ++ [p]) : p.conn = h ∧ Q p := by
  obtain ⟨ps, hps, hQ⟩ := hl.pushed
  rw [h₀, hp] at hps
  exact hQ p (List.append_cancel_left hps ▸ List.mem_singleton.2 rfl)

/-- What a callback pushes is next in the word of its connection. -/
private theorem IoRun.next_inTurn (hcan : Promised can E) (hi : IoInv n E io) (hs : Settled io)
    (hcor : Correlation False io) (hj : ConnsInTurn io) {d : IoRun} (hk : d.kind = .event) {sh : Shared}
    (hr : d.ready sh io = true) : d.code.path can (fun _ _ => True) (fun l _ => NextInTurn io l) io := by
  cases d with
  | inbound status out =>
    refine Code.path_mono (fun _ _ _ => trivial) (fun l _ h => h) (onInboundConnectionCb_path
      (R := NextInTurn io) (Q := fun p => p.evt.type = .clientOpen) (nextInTurn_of_same rfl)
      (fun l hl _ => nextInTurn_of_same hl.pushed) (fun i list ho l hl p hp => ?_)
      (fun _ _ _ _ _ _ _ _ ht _ => ht) status)
    obtain ⟨hconn, ht⟩ := hl.of_pushed rfl hp
    -- the handle is new
    have hnil : connEvents io.pushed io.handleCount = [] := by
      rw [List.eq_nil_iff_forall_not_mem]
      intro t hm
      obtain ⟨q, hq, hc, -⟩ := mem_connEvents.1 hm
      exact absurd ((hcor.events q hq).lt) (by omega)
    rw [hconn, hnil, ht]
    exact ⟨.opened 0, by simp⟩
  | outbound q status out =>
    simp only [IoRun.ready, Bool.and_eq_true, decide_eq_true_eq] at hr
    obtain ⟨h, i, hd, hh, -, -, -, hb⟩ := hi.connected hs hr.1.1 hr.2
    have hnew := hi.pendingNew q h hr.2 hh
    have hhold : (io.handles h).Holds i := by
      obtain ⟨-, j, h', hd', hh', hold, -⟩ := hi.slots.pending q hr.2
      obtain rfl : h' = h := Option.some.inj (hh'.symm.trans hh)
      exact Option.some.inj (hd'.symm.trans hd) ▸ hold
    simp only [IoRun.code, Code.path_bind, Code.path_modify]
    have hh' : ((io.setConnectReq q fun r => { r with pending := false }).connectReqs q).handle = some h := by
      simpa [Io.setConnectReq] using hh
    simp only [onHandle, hh']
    refine Code.path_mono (fun _ _ _ => trivial) (fun l _ hl p hp => ?_)
      (onOutboundConnectionCb_onConn (h := h) (i := i) (Q := fun p => p.evt.type = .clientOpen) ?_ ?_
        (fun evt ht _ => ht) status out)
    · obtain ⟨rfl, ht⟩ := hl.of_pushed rfl hp
      rw [ht]
      exact ⟨(hj.words _).open_first (fun hm => hnew (mem_connEvents.1 hm)) (hj.not_closed hhold), by simp⟩
    · simpa [Io.setConnectReq, Io.setHandle] using hd
    · simpa [Io.setHandle] using hh'
  | read handle out =>
    simp only [IoRun.ready, Bool.and_eq_true, decide_eq_true_eq] at hr
    obtain ⟨i, hb, -⟩ := hi.reading hs hr.1.1 hr.2
    refine Code.path_mono (fun _ _ _ => trivial) (fun l _ hl p hp => ?_)
      (uvRead_onConn (Q := fun p => p.evt.type = .clientRead) hcan (fun evt ht => ht) hb.holds.data out)
    obtain ⟨rfl, ht⟩ := hl.of_pushed rfl hp
    rw [ht]
    obtain ⟨q, hq, hc, ht'⟩ := hi.readOpened _ hr.2
    exact ⟨(hj.words _).read (mem_connEvents.2 ⟨q, hq, hc, ht'⟩) (hj.not_closed hb.holds), by simp⟩
  | close handle =>
    simp only [IoRun.ready, Bool.and_eq_true, decide_eq_true_eq, Bool.not_eq_true'] at hr
    obtain ⟨cb, hcb⟩ := Option.isSome_iff_exists.1 hr.2.1
    simp only [IoRun.code, uvFinishClose, Code.path_bind, Code.path_modify, Code.path_get, Io.setHandle_handles_self,
      hcb]
    cases cb with
    | null => exact nextInTurn_of_same rfl
    | handle => exact nextInTurn_of_same rfl
    | link =>
      obtain ⟨i, hcl⟩ := hi.closing hs hr.1.1 hcb hr.2.2
      refine Code.path_mono (fun _ _ _ => trivial) (fun l _ hl p hp => ?_)
        (onCloseLinkCb_onConn (Q := fun p => p.evt.type = .clientClose) hcan hcl.holds.data fun evt ht _ => ht)
      obtain ⟨l', list, log, refused, hl', -, rfl⟩ := hl
      obtain ⟨rfl, ht⟩ := hl'.of_pushed rfl hp
      rw [ht]
      obtain ⟨j, hh⟩ := hi.slots.link_cb _ hcb hr.2.2
      refine ⟨(hj.words _).close (hj.not_closed hh), fun _ i hi => ?_⟩
      rw [Io.releaseHandle, Io.setHandle_handles_self] at hi
      exact absurd hi.2 (by simp)
  | send q =>
    simp only [IoRun.code, onSendCb, pushSendReq, undefinedBehaviour, Code.path_bind, Code.path_modify, Code.path_get]
    split
    · simp only [Code.path_modify]
      split <;> exact nextInTurn_of_same rfl
    · exact nextInTurn_of_same rfl
  | _ => simp [IoRun.kind] at hk

/-- What the IO thread is given to run keeps the events of the connections in order. -/
private theorem IoRun.keeps_inTurn (hcan : Promised can E) (hi : IoInv n E io) (hs : Settled io)
    (hcor : Correlation False io) (hj : ConnsInTurn io) {d : IoRun} {sh : Shared} (hr : d.ready sh io = true) :
    KeepsConns can ConnsInTurn d.code io := by
  have hended : KeepsConns can (Ended io.pushed) d.code io :=
    IoRun.keeps_conns ended_runs hcan hi hs (hj.ended_all hcor) hr
  by_cases hk : d.kind = .event
  · have hlast := Prog.path_anti (c := can) (fun _ _ _ _ => trivial) ((IoRun.pushes_last hk).path io)
    refine Code.path_mono (fun l _ h => hj.same h.1.pushed h.2.1) (fun l _ h => ?_) (Prog.path_and hlast
      (Prog.path_and hended (IoRun.next_inTurn hcan hi hs hcor hj hk hr)))
    obtain ⟨⟨-, hpush⟩, he, hnext⟩ := h
    rcases hpush with hsame | ⟨p, hp⟩
    · exact hj.same hsame he
    · exact hj.push hp he (hnext p hp).1 (hnext p hp).2
  · have hquiet := Prog.path_anti (c := can) (fun _ _ _ _ => trivial) (d.keepsTo.path io)
    exact Code.path_mono (fun l _ h => hj.same (h.1.2.event hk).2 h.2) (fun l _ h => hj.same (h.1.event hk).2 h.2)
      (Prog.path_and hquiet hended)

/-! ### Over whole runs -/

theorem connsInTurn {cond : ServiceCond} {c : ServiceConfig} (hc : ReachWhen cond n c) :
    ConnsInTurn c.fst.view.loc := by
  have hE : Premises.In ⟨False, False, False⟩ cond := ⟨False.elim, False.elim, False.elim, False.elim⟩
  refine Machine.Reach.invariant₁ (I := fun v => ConnsInTurn v.loc)
    (K := fun _ v _ => (IoInv n ⟨False, False, False⟩ v.loc ∧ (v.next = none → Settled v.loc)) ∧
      Correlation False v.loc)
    (fun c hc => ⟨ioInv hE hc, correlation False.elim hc⟩) ?_ ?_ hc
  · exact ⟨fun h => by simpa [Io.setup, connEvents] using ConnWord.nil, by simp [Io.setup]⟩
  · rintro d io ⟨sh, v, ⟨⟨hi, hs⟩, hcor⟩, hr, -⟩ hj
    exact IoRun.keeps_inTurn (hE.promised _) hi (hs rfl) hcor hj hr

/-- In every run the events of each connection are in order: one `OPEN` at most, then `READ`s, and one `CLOSE` at most,
after which nothing comes. -/
theorem connections_in_turn {c : ServiceConfig} (hc : Reach n c) (h : Nat) :
    ConnWord (connEvents c.fst.view.loc.pushed h) := (connsInTurn hc).words h

/-- A connection was opened, had two reads and was closed. -/
theorem connections_in_turn_closed : ∃ c, Reach 1 c ∧
    connEvents c.fst.view.loc.pushed 5 = [.clientOpen, .clientRead, .clientRead, .clientClose] ∧
    ConnWord (connEvents c.fst.view.loc.pushed 5) := by
  obtain ⟨c, hc, hw⟩ := exists_reachWhen .any 1
    (.flatten [startUp, [.run₁ (.inbound 0 {}), .op₁, .op₁], .run₁ (.read 5 (.data [1])) :: .replicate 7 .op₁,
      .run₁ (.read 5 (.data [2])) :: .replicate 7 .op₁,
      [.run₁ (.read 5 (.error 0)), .op₁, .op₁, .run₁ (.close 5), .op₁, .op₁, .op₁]])
    (fun c => connEvents c.fst.view.loc.pushed 5 = [.clientOpen, .clientRead, .clientRead, .clientClose])
    (by decide +kernel)
  exact ⟨c, hc, hw, connections_in_turn hc 5⟩

end ServerLynx
