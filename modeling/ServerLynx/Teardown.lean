import ServerLynx.ConnectionProtocol
import ServerLynx.Registered

/-!
# Waiting for the peers

Once `on_timer_cb` has torn the loop down, nothing is left in it but the connections: no connection is accepted, no
command is handled and no signal is seen any more.  A connection that is up is then in the hands of its peer alone.  As
long as libuv reports nothing about it, it stays as it is, `uv_run` does not return, and a stop that waits for the IO
thread waits on.
-/

namespace ServerLynx

open Threads

variable {n : Nat} {E : Premises} {io l : Io} {h i : Nat} {can : Io → (o : Op) → o.Res → Prop} {Q : Pushed → Prop}

/-! ### Callbacks on one connection -/

/-- The handle of the connection that the callback is about. -/
def IoRun.conn (io : Io) : IoRun → Option Nat
  | .read h _ | .close h => some h
  | .outbound q _ _ => (io.connectReqs q).handle
  | _ => none

/-- What libuv itself has changed when it calls the callback. -/
def IoRun.entry (io : Io) : IoRun → Io
  | .outbound q _ _ => onHandle (fun io => (io.connectReqs q).handle)
      (fun io h => io.setHandle h fun x => { x with connecting := false })
      (io.setConnectReq q fun r => { r with pending := false })
  | .close h => io.setHandle h fun x => { x with closed := true }
  | .send q => { io with writes := io.writes.erase q }
  | _ => io

/-- From `io` to `l` no handle changed but that of `x`, and that one neither came back from closing nor was closed. -/
structure OnlyConn (x : Option Nat) (io l : Io) : Prop extends SameLoop io l where
  count : l.handleCount = io.handleCount
  others : ∀ h, some h ≠ x → l.handles h = io.handles h
  closing : ∀ h, (io.handles h).closing ≠ none → (l.handles h).closing ≠ none
  closed : ∀ h, (l.handles h).closed = (io.handles h).closed
  writes : l.writes = io.writes

namespace OnlyConn

theorem of_handles (hs : SameLoop io l) (hc : l.handleCount = io.handleCount) (hh : l.handles = io.handles)
    (hw : l.writes = io.writes) {x : Option Nat} : OnlyConn x io l :=
  ⟨hs, hc, fun _ _ => by rw [hh], fun _ hc => by rwa [hh], fun _ => by rw [hh], hw⟩

/-- The handle of `x` changes. -/
theorem change (hs : SameLoop io l) (hc : l.handleCount = io.handleCount)
    (hh : ∀ h', h' ≠ h → l.handles h' = io.handles h') (hw : l.writes = io.writes)
    (hx : ((io.handles h).closing ≠ none → (l.handles h).closing ≠ none) ∧
      (l.handles h).closed = (io.handles h).closed) : OnlyConn (some h) io l := by
  refine ⟨hs, hc, fun h' hne => hh h' fun he => hne (congrArg some he), fun h' => ?_, fun h' => ?_, hw⟩
  · by_cases he : h' = h
    · exact he ▸ hx.1
    · exact fun hcl => hh h' he ▸ hcl
  · by_cases he : h' = h
    · exact he ▸ hx.2
    · rw [hh h' he]

end OnlyConn

theorem OnConn.onlyConn (hl : OnConn Q h i io l) : OnlyConn (some h) io l :=
  .change hl.toSameLoop hl.count hl.handles hl.sends.writes ⟨hl.handle.closing, hl.handle.closed⟩

theorem ClosedConn.onlyConn (hl : ClosedConn Q h i io l) : OnlyConn (some h) io l := by
  obtain ⟨l', list, log, refused, hl', -, rfl⟩ := hl
  refine .change ⟨hl'.loop, hl'.isInit, hl'.uvLoop, hl'.blocks, hl'.ptrs, hl'.phase⟩ hl'.count (fun h' hne => ?_)
    hl'.sends.writes ?_
  · exact (Function.update_of_ne hne _ _).trans (hl'.handles h' hne)
  · rw [Io.releaseHandle, Io.setHandle_handles_self]
    exact ⟨hl'.handle.closing, hl'.handle.closed⟩

/-- The callbacks on connections that there are change no other connection, and nothing of the loop itself. -/
theorem IoRun.onlyConn (hcan : Promised can E) (hi : IoInv n E io) (hs : Settled io) {d : IoRun} (hk : d.kind = .event)
    (hin : ∀ status out, d ≠ .inbound status out) {sh : Shared} (hr : d.ready sh io = true) :
    d.code.path can (fun l _ => OnlyConn (d.conn io) (d.entry io) l) (fun l _ => OnlyConn (d.conn io) (d.entry io) l)
      io := by
  cases d with
  | inbound status out => exact absurd rfl (hin status out)
  | outbound q status out =>
    simp only [IoRun.ready, Bool.and_eq_true, decide_eq_true_eq] at hr
    obtain ⟨h, i, hd, hh, -⟩ := hi.connected hs hr.1.1 hr.2
    have hh' : ((io.setConnectReq q fun r => { r with pending := false }).connectReqs q).handle = some h := by
      simpa [Io.setConnectReq] using hh
    simp only [IoRun.code, IoRun.conn, IoRun.entry, Code.path_bind, Code.path_modify, onHandle, hh', hh]
    refine Code.path_mono (fun l _ hl => hl.onlyConn) (fun l _ hl => hl.onlyConn)
      (onOutboundConnectionCb_onConn (h := h) (i := i) (Q := fun _ => True) ?_ ?_ (fun _ _ _ => trivial) status out)
    · simpa [Io.setConnectReq, Io.setHandle] using hd
    · simpa [Io.setHandle] using hh'
  | read handle out =>
    simp only [IoRun.ready, Bool.and_eq_true, decide_eq_true_eq] at hr
    obtain ⟨i, hb, -⟩ := hi.reading hs hr.1.1 hr.2
    exact Code.path_mono (fun l _ hl => hl.onlyConn) (fun l _ hl => hl.onlyConn)
      (uvRead_onConn (Q := fun _ => True) hcan (fun _ _ => trivial) hb.holds.data out)
  | close handle =>
    simp only [IoRun.ready, Bool.and_eq_true, decide_eq_true_eq, Bool.not_eq_true'] at hr
    obtain ⟨cb, hcb⟩ := Option.isSome_iff_exists.1 hr.2.1
    simp only [IoRun.code, IoRun.conn, IoRun.entry, uvFinishClose, Code.path_bind, Code.path_modify, Code.path_get,
      Io.setHandle_handles_self, hcb]
    cases cb with
    | null => exact .of_handles (.refl _) rfl rfl rfl
    | handle =>
      simp only [onCloseHandleCb, Code.path_modify]
      refine .change ⟨rfl, rfl, rfl, rfl, rfl, .inl rfl⟩ rfl (fun h' hne => Function.update_of_ne hne _ _) rfl ?_
      simp only [Io.releaseHandle, Io.setHandle_handles_self]
      exact ⟨fun hc => hc, trivial⟩
    | link =>
      obtain ⟨i, hcl⟩ := hi.closing hs hr.1.1 hcb hr.2.2
      exact Code.path_mono (fun l _ hl => hl.onlyConn) (fun l _ hl => hl.onlyConn)
        (onCloseLinkCb_onConn (Q := fun _ => True) hcan hcl.holds.data fun _ _ _ => trivial)
  | send q =>
    have hsame : ∀ {l : Io}, SameLoop (IoRun.entry io (.send q)) l → l.handleCount = io.handleCount →
        l.handles = io.handles → l.writes = io.writes.erase q → OnlyConn none (IoRun.entry io (.send q)) l :=
      fun hl hc hh hw => .of_handles hl hc hh hw
    simp only [IoRun.code, IoRun.conn, onSendCb, pushSendReq, undefinedBehaviour, Code.path_bind, Code.path_modify,
      Code.path_get]
    split
    · simp only [Code.path_modify]
      split <;> exact hsame ⟨rfl, rfl, rfl, rfl, rfl, .inl rfl⟩ rfl rfl rfl
    · exact hsame ⟨rfl, rfl, rfl, rfl, rfl, .inr rfl⟩ rfl rfl rfl
  | _ => simp [IoRun.kind] at hk

/-- What libuv itself changes is nothing but the handle of the connection and the requests. -/
theorem IoRun.entry_handles (d : IoRun) (io : Io) : SameLoop io (d.entry io) ∧
    (∀ h, some h ≠ d.conn io → (d.entry io).handles h = io.handles h) ∧
      ∀ h, ((d.entry io).handles h).closing = (io.handles h).closing := by
  cases d with
  | outbound q status out =>
    have hreq : ((io.setConnectReq q fun r => { r with pending := false }).connectReqs q).handle =
      (io.connectReqs q).handle := by simp [Io.setConnectReq]
    simp only [IoRun.entry, IoRun.conn, onHandle, hreq]
    cases hh : (io.connectReqs q).handle with
    | none => exact ⟨⟨rfl, rfl, rfl, rfl, rfl, .inl rfl⟩, fun _ _ => rfl, fun _ => rfl⟩
    | some h =>
      refine ⟨⟨rfl, rfl, rfl, rfl, rfl, .inl rfl⟩, fun h' hne => Function.update_of_ne (by simpa using hne) _ _,
        fun h' => ?_⟩
      by_cases he : h' = h
      · simp [he, Io.setHandle, Io.setConnectReq]
      · exact congrArg Handle.closing (Function.update_of_ne he _ _)
  | close h =>
    refine ⟨⟨rfl, rfl, rfl, rfl, rfl, .inl rfl⟩,
      fun h' hne => Function.update_of_ne (by simpa [IoRun.conn] using hne) _ _, fun h' => ?_⟩
    by_cases he : h' = h
    · simp [IoRun.entry, he, Io.setHandle]
    · exact congrArg Handle.closing (Function.update_of_ne he _ _)
  | _ => exact ⟨⟨rfl, rfl, rfl, rfl, rfl, .inl rfl⟩, fun _ _ => rfl, fun _ => rfl⟩

/-! ### After the teardown -/

/-- The handles of the loop itself are closing, and no command is being handled. -/
structure TornDown (io : Io) : Prop where
  inCheck : io.inCheck = false
  closing : LoopClosing io

namespace TornDown

theorem not_started (ht : TornDown io) {p : Option Nat} (hm : p ∈ io.loopPtrs) : isStarted io p = false := by
  cases p with
  | none => rfl
  | some h => simp [isStarted, ht.closing h hm]

/-- What is left to run: callbacks on connections that there are, and the return of `uv_run`. -/
theorem ready (ht : TornDown io) (hp : io.phase ≠ .off) {d : IoRun} {sh : Shared} (hr : d.ready sh io = true) :
    d = .uvRunReturn ∨ d.kind = .event ∧ ∀ status out, d ≠ .inbound status out := by
  have htcp : isStarted io io.tcpHandle = false := ht.not_started (by simp [Io.loopPtrs])
  have htimer : isStarted io io.uvAcceptTimer = false := ht.not_started (by simp [Io.loopPtrs])
  have hcheck : isStarted io io.uvCheck = false := ht.not_started (by simp [Io.loopPtrs])
  have hsignal : isStarted io io.uvSignal = false := ht.not_started (by simp [Io.loopPtrs])
  cases d with
  | thread out => simp [IoRun.ready, hp] at hr
  | check out => simp [IoRun.ready, ht.inCheck, hcheck] at hr
  | inbound status out => simp [IoRun.ready, htcp] at hr
  | timer => simp [IoRun.ready, htimer] at hr
  | signal isSigint => simp [IoRun.ready, hsignal] at hr
  | uvRunReturn => exact .inl rfl
  | _ => exact .inr ⟨rfl, by simp⟩

/-- A callback changes one connection at most. -/
theorem onlyConn (ht : TornDown io) {d : IoRun} (h₁ : l.inCheck = io.inCheck)
    (hl : OnlyConn (d.conn io) (d.entry io) l) : TornDown l where
  inCheck := h₁.trans ht.inCheck
  closing h hm := by
    have hm' : some h ∈ io.loopPtrs := by
      rw [← (d.entry_handles io).1.ptrs, ← hl.ptrs]
      exact hm
    refine Option.isSome_iff_ne_none.2 (hl.closing h ?_)
    rw [(d.entry_handles io).2.2]
    exact Option.isSome_iff_ne_none.1 (ht.closing h hm')

/-- The loop stays torn down while its callbacks run. -/
theorem keeps (ht : TornDown io) (hcan : Promised can E) (hi : IoInv n E io) (hs : Settled io) {d : IoRun}
    (hk : d.kind = .event) (hin : ∀ status out, d ≠ .inbound status out) {sh : Shared} (hr : d.ready sh io = true) :
    d.code.path can (fun l _ => TornDown l ∧ OnlyConn (d.conn io) (d.entry io) l)
      (fun l _ => TornDown l ∧ OnlyConn (d.conn io) (d.entry io) l) io := by
  have hlast := Prog.path_anti (c := can) (fun _ _ _ _ => trivial) ((IoRun.pushes_last hk).path io)
  exact Code.path_mono (fun l _ h => ⟨ht.onlyConn h.1.inCheck h.2, h.2⟩) (fun l _ h => ⟨ht.onlyConn h.1.1 h.2, h.2⟩)
    (Prog.path_and hlast (IoRun.onlyConn hcan hi hs hk hin hr))

end TornDown

/-! ### A peer that stays silent -/

/-- The runs in which libuv reports nothing about the connection of `h`, and no connect fails. -/
def silent (h : Nat) : ServiceCond where
  run₁ d _ v _ := decide (d.conn v.loc ≠ some h) && match d with
    | .outbound _ status _ => decide (0 ≤ status)
    | _ => true

/-- In the loop that was torn down, the connection of `h` is up and as it was in `x`. -/
structure HeldUp (n h : Nat) (x : Handle) (v : View Io Op) : Prop where
  inv : IoInv n ⟨False, False, True⟩ v.loc
  settled : v.next = none → Settled v.loc
  phase : v.loc.phase ≠ .off
  torn : TornDown v.loc
  handle : v.loc.handles h = x

/-- While nothing is reported about the connection it stays up, and `uv_run` goes on. -/
theorem silent_heldUp {x : Handle} {c c' : ServiceConfig} (hx : x.Holds i) (hidle : c.fst.view.next = none)
    (hc : HeldUp n h x c.fst.view) (hc' : service.Reach (silent h) c c') : HeldUp n h x c'.fst.view := by
  have hE : Premises.In ⟨False, False, True⟩ (silent h) := by
    refine ⟨False.elim, False.elim, False.elim, fun _ req status out sh l v hr => ?_⟩
    simp only [silent, Bool.and_eq_true, decide_eq_true_eq] at hr
    exact hr.2
  refine Machine.path_view (Machine.Reach.path₁ (K := fun _ _ _ => True) (I := HeldUp n h x) (fun _ _ => trivial) ?_ ?_
    hc')
  · cases hp : c.fst with
    | ret l a =>
      rw [hp] at hc
      exact hc
    | act l o k => simp [hp] at hidle
  rintro d io ⟨sh, v, -, hr, hsil⟩ hu
  have hs := hu.settled rfl
  have hne : some h ≠ d.conn io := by
    simp only [silent, Bool.and_eq_true, decide_eq_true_eq] at hsil
    exact hsil.1.symm
  have hhold : (io.handles h).Holds i := hu.handle ▸ hx
  obtain rfl | ⟨hk, hin⟩ := hu.torn.ready hu.phase hr
  · -- `uv_run` does not return while the connection is up
    simp only [service, IoRun.ready, Bool.and_eq_true, decide_eq_true_eq, Bool.not_eq_true'] at hr
    exact absurd hhold ((hu.inv.returned hs hr.1.1 hr.2).none h i)
  have hkeeps := IoRun.code_keeps (hE.promised fun _ _ _ => True) hu.inv hs hr fun hn req status out hd =>
    hE.noFail hn req status out sh ⟨io, none⟩ v (hd ▸ hsil)
  have hmove : ∀ {l}, OnlyConn (d.conn io) (d.entry io) l → l.phase ≠ .off ∧ l.handles h = x := by
    intro l hl
    obtain ⟨hsame, hothers, -⟩ := d.entry_handles io
    refine ⟨?_, (hl.others h hne).trans ((hothers h hne).trans hu.handle)⟩
    rcases hl.phase with he | he
    · rcases hsame.phase with he' | he'
      · exact he ▸ he' ▸ hu.phase
      · simp [he, he']
    · simp [he]
  refine Code.path_mono (fun l _ hl => ?_) (fun l _ hl => ?_)
    (Prog.path_and hkeeps (hu.torn.keeps (hE.promised fun _ _ _ => True) hu.inv hs hk hin hr))
  · exact ⟨hl.1, by simp, (hmove hl.2.2).1, hl.2.1, (hmove hl.2.2).2⟩
  · exact ⟨hl.1.1, fun _ => hl.1.2, (hmove hl.2.2).1, hl.2.1, (hmove hl.2.2).2⟩

theorem HeldUp.running {x : Handle} {v : View Io Op} (hu : HeldUp n h x v) : v.loc.phase = .running := by
  have hdef := hu.inv.defined trivial
  cases hp : v.loc.phase with
  | off => exact absurd hp hu.phase
  | running => rfl
  | undefined => exact absurd hp hdef

/-- A stop that waits for the IO thread, while the loop is torn down and a connection is up: as long as libuv reports
nothing about that connection, it stays up, `uv_run` does not return and the stop waits on. -/
theorem stop_waits {c c' : ServiceConfig} (hc : Reach n c) (hidle : c.fst.view.next = none)
    (hrun : c.fst.view.loc.phase = .running) (ht : TornDown c.fst.view.loc)
    (hh : (c.fst.view.loc.handles h).Holds i) (hj : c.snd.view.next = some (.threadJoin 0))
    (hc' : service.Reach (silent h) c c') :
    c'.fst.view.loc.handles h = c.fst.view.loc.handles h ∧ c'.fst.view.loc.phase = .running ∧ c'.snd = c.snd ∧
      service.step c' .op₂ = none := by
  obtain ⟨hi, hs⟩ := ioInv (E := ⟨False, False, False⟩) ⟨False.elim, False.elim, False.elim, False.elim⟩ hc
  have hu : HeldUp n h (c.fst.view.loc.handles h) c.fst.view :=
    ⟨{ hi with
      covered := False.elim
      inTurn := False.elim
      defined := fun _ => by simp [hrun] }, hs, by simp [hrun], ht, rfl⟩
  have hblocked : ∀ {c'}, service.Reach (silent h) c c' → c'.snd = c.snd → service.step c' .op₂ = none := by
    intro c' hc' hsame
    have hr : ReachWhen .any n c' := hc.trans hc'.to_any
    have hl := lifecycle (P := False) (Q := False) ⟨False.elim, False.elim⟩ hr
    have hthread := hl.running (.inr (silent_heldUp hh hidle hu hc').running)
    cases hp : c.snd with
    | ret l a => simp [hp] at hj
    | act l o k =>
      obtain rfl : o = .threadJoin 0 := by simpa [hp] using hj
      simp [Machine.step, hsame.trans hp, service, Op.exec, hthread]
  have hsnd : c'.snd = c.snd := by
    induction hc' with
    | init => rfl
    | @step c₁ c₂ a hc₁ _ hstep ih =>
      by_cases hrun₂ : ∃ call, a = .run₂ call
      · -- the main thread is not idle
        obtain ⟨call, rfl⟩ := hrun₂
        obtain ⟨l, hp, -⟩ := Machine.step_run₂ hstep
        rw [ih] at hp
        simp [hp] at hj
      rcases Machine.step_snd hstep (not_exists.1 hrun₂) with ⟨-, hsame⟩ | ⟨rfl, -⟩
      · exact hsame.trans ih
      · rw [hblocked hc₁ ih] at hstep
        exact absurd hstep (by simp)
  have hu' := silent_heldUp hh hidle hu hc'
  exact ⟨hu'.handle, hu'.running, hsnd, hblocked hc' hsnd⟩

/-- Of two clients one goes and the other one stays: the first is closed, and the stop waits for the second. -/
theorem stop_waits_one_of_two : ∃ c c', Reach 2 c ∧ (c'.fst.view.loc.link 0).state = .closed ∧
    service.Reach (silent 5) c c' ∧
    (c'.fst.view.loc.handles 5 = c.fst.view.loc.handles 5 ∧ c'.fst.view.loc.phase = .running ∧ c'.snd = c.snd ∧
      service.step c' .op₂ = none) := by
  let torn (c : ServiceConfig) : Prop := (c.fst.view.next = none ∧ c.fst.view.loc.phase = .running ∧
    c.fst.view.loc.inCheck = false ∧ (c.fst.view.loc.handles 5).Holds 1 ∧
      c.snd.view.next = some (.threadJoin 0)) ∧
    c.fst.view.loc.loopPtrs.all (fun p => p.all fun h => (c.fst.view.loc.handles h).isClosing) = true
  obtain ⟨c, hc, ⟨⟨hidle, hrun, hcheck, hh, hj⟩, hptrs⟩, hgo⟩ := exists_reachWhen .any 2
    (.append startUp [.run₁ (.inbound 0 {}), .op₁, .op₁, .run₁ (.inbound 0 {}), .op₁, .op₁, .run₂ (.stop 0), .op₂,
      .op₂, .run₁ .timer, .op₁])
    (fun c => torn c ∧ (service.runWhen (silent 5) c [.run₁ (.close 0), .run₁ (.read 6 (.error 0)), .op₁, .op₁,
      .run₁ (.close 6), .op₁, .op₁, .op₁, .run₁ (.close 1)]).any
      (fun c => decide ((c.fst.view.loc.link 0).state = .closed)) = true) (by decide +kernel)
  obtain ⟨c', hc', hlink⟩ := Machine.Reach.exists_of_runWhen hgo
  have ht : TornDown c.fst.view.loc := by
    refine ⟨hcheck, fun h hm => ?_⟩
    simpa using List.all_eq_true.1 hptrs (some h) hm
  exact ⟨c, c', hc, of_decide_eq_true hlink, hc', stop_waits hc hidle hrun ht hh hj hc'⟩

end ServerLynx
