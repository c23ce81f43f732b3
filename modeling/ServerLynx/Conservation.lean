import ServerLynx.Ownership

/-!
# Events and read buffers over whole runs

`Ownership` in every interleaving of the IO thread with a main thread that follows each acquire by one release.  Each
callback and each call is a sequence of hand-overs; the operations of the other thread that come in between keep what
the sequence relies on, because it holds of the thread's own events and buffers.
-/

namespace ServerLynx

open Threads

/-! ### The invariant -/

/-- The read buffer that an operation writes to. -/
def Op.written : Op → Option Nat
  | .bufferStore b _ | .bufferAddLength b _ => some b
  | _ => none

/-- The event that an operation pushes to the ready list. -/
def Op.readied : Op → Option Nat
  | .eventReadyPush e _ => some e
  | _ => none

/-- Between two calls the main thread has no event in its hands, and it has a batch only until it has released it. -/
structure Main.Idle (m : Main) : Prop where
  hand : m.hand = none
  cursor : m.owed = true → m.cursor = 0
  batch : m.owed = false → m.batch = []

/-- Between two calls the main thread is idle; the read buffer that it is about to give back is that of the next event
of its batch. -/
structure MainTurn (sh : Shared) (w : View Main Op) : Prop where
  idle : w.next = none → w.loc.Idle
  releasing : ∀ b, w.next = some (.poolReadPush b) →
    ∃ e es, w.loc.batch = e :: es ∧ (sh.events e).readBuffer = some b

/-- Between two callbacks the IO thread has no event in its hands; it writes to read buffers of links only, and the
event that it pushes is the one in its hands. -/
structure IoTurn (n : Nat) (v : View Io Op) : Prop where
  idle : v.next = none → v.loc.hand = none
  writing : ∀ o b, v.next = some o → o.written = some b → b ∈ v.loc.linkBuffers n
  pushing : ∀ o e, v.next = some o → o.readied = some e → v.loc.hand = some e

/-- The invariant of events and read buffers. -/
structure Ownership (n : Nat) (sh : Shared) (v : View Io Op) (w : View Main Op) : Prop
    extends Ownership.Base n sh v.loc w.loc where
  io : IoTurn n v
  main : MainTurn sh w

variable {n : Nat} {sh sh' : Shared} {io l : Io} {m m' : Main} {v : View Io Op} {w : View Main Op}

/-- The events of the batch stay as they are. -/
theorem MainTurn.of_events (hm : MainTurn sh w) (h : ∀ e ∈ w.loc.batch, sh'.events e = sh.events e) :
    MainTurn sh' w where
  idle := hm.idle
  releasing b hb := by
    obtain ⟨e, es, he, hr⟩ := hm.releasing b hb
    exact ⟨e, es, he, by rw [h e (by simp [he])]; exact hr⟩

/-- A code of the main thread that has no event in its hands and does not concern events. -/
theorem MainTurn.of_frame (hm : MainTurn sh w) (h : sh'.events = sh.events) : MainTurn sh' w :=
  hm.of_events fun _ _ => congrFun h _

/-! ### The IO thread -/

section IoThread

variable {K C : Shared → View Io Op → View Main Op → Prop} {S : Shared → View Main Op → Prop}

/-- Every event and every buffer has its holder while the IO thread, in the private state `l`, is between two
operations. -/
structure IoOwns (n : Nat) (l : Io) (sh : Shared) (w : View Main Op) : Prop where
  base : Ownership.Base n sh l w.loc
  main : MainTurn sh w

theorem IoOwns.same (h : IoOwns n io sh w) (hs : SameBuffers io l) : IoOwns n l sh w := ⟨h.base.of_io hs, h.main⟩

/-- Before an operation that writes to no read buffer and pushes no event. -/
theorem IoOwns.before (h : IoOwns n l sh w) {o : Op} (ho : o.written = none ∧ o.readied = none) :
    Ownership n sh ⟨l, some o⟩ w :=
  ⟨h.base, ⟨by simp, fun o' b h' hb => by simp [← Option.some.inj h', ho.1] at hb,
    fun o' e h' he => by simp [← Option.some.inj h', ho.2] at he⟩, h.main⟩

/-- Before the event in the hands of the IO thread is pushed. -/
theorem IoOwns.beforePush (h : IoOwns n l sh w) {e : Nat} {evt : Event} (hl : l.hand = some e) :
    Ownership n sh ⟨l, some (.eventReadyPush e evt)⟩ w := by
  refine ⟨h.base, ⟨by simp, fun o' b h' hb => by simp [← Option.some.inj h', Op.written] at hb, fun o' e' h' he =>
    ?_⟩, h.main⟩
  obtain rfl := Option.some.inj h'
  exact hl.trans he

theorem IoOwns.ended (h : IoOwns n l sh w) (hl : l.hand = none) : Ownership n sh ⟨l, none⟩ w :=
  ⟨h.base, ⟨fun _ => hl, by simp, by simp⟩, h.main⟩

private abbrev OwnsAfterIo (K C : Shared → View Io Op → View Main Op → Prop) (n : Nat) (l : Io) (o : Op) (r : o.Res) :
    Shared → View Main Op → Prop := After Op.exec K (Ownership n) C l o r

private theorem owns_after {o : Op} (ho : o.moves = false) {r : o.Res} (h : OwnsAfterIo K C n l o r sh w) :
    IoOwns n l sh w := by
  obtain ⟨sh₀, -, hj, -, he⟩ := h
  have hf := Op.exec_moveFrame ho he
  exact ⟨hj.toBase.of_frame hf, hj.main.of_frame hf.events⟩

private theorem owns_after_pop_none {type : EventType} (h : OwnsAfterIo K C n l (.eventFreePop type) none sh w) :
    IoOwns n l sh w := by
  obtain ⟨sh₀, -, hj, -, he⟩ := h
  obtain rfl : sh = sh₀ := by
    simp only [Op.exec] at he
    split at he <;> simp at he
    exact he.symm
  exact ⟨hj.toBase, hj.main⟩

/-- After a pop from the event free list the event is in the hands of the IO thread, and it has its type. -/
private theorem owns_after_pop {type : EventType} {e : Nat} {evt : Event} (hl : l.hand = none)
    (h : OwnsAfterIo K C n l (.eventFreePop type) (some (e, evt)) sh w) :
    IoOwns n { l with hand := some e } sh w ∧ evt.type = type := by
  obtain ⟨sh₀, -, hj, -, he⟩ := h
  simp only [Op.exec] at he
  split at he
  · simp at he
  · rename_i e' es hf
    simp only [Option.some.injEq, Prod.mk.injEq] at he
    obtain ⟨⟨rfl, rfl⟩, rfl⟩ := he
    refine ⟨⟨hj.toBase.popEvent (l := { l with hand := some e' }) hf hl rfl rfl _,
      hj.main.of_events fun x hx => Function.update_of_ne ?_ _ _⟩, rfl⟩
    have hn := hj.toBase.nodup
    rw [hf] at hn
    rintro rfl
    simp only [List.cons_append, List.nodup_cons, List.mem_append, not_or] at hn
    exact hn.1.1.2 hx

/-- The push of an event succeeds, and the link has given its read buffer to the event, if it has one. -/
private theorem owns_after_push {e : Nat} {evt : Event} {pushed : Bool} {y : Io} (hl : l.hand = some e)
    (hy : y.hand = none) (hs : (l.linkBuffers n).Perm (evt.readBuffer.toList ++ y.linkBuffers n))
    (h : OwnsAfterIo K C n l (.eventReadyPush e evt) pushed sh w) : IoOwns n y sh w ∧ pushed = true := by
  obtain ⟨sh₀, -, hj, -, he⟩ := h
  simp only [Op.exec, hj.toBase.readyRoom hl, if_true, Option.some.injEq, Prod.mk.injEq] at he
  obtain ⟨rfl, rfl⟩ := he
  refine ⟨⟨hj.toBase.pushEvent hl hy hs, hj.main.of_events fun x hx => Function.update_of_ne ?_ _ _⟩, rfl⟩
  have hn := hj.toBase.nodup
  simp only [hl] at hn
  rintro rfl
  exact (List.nodup_append.1 hn).2.2 x (List.mem_append_right _ hx) x (by simp) rfl

private theorem owns_after_pool_pop {i b : Nat} (hi : i < n) (hb : (l.link i).readBuffer = none)
    (h : OwnsAfterIo K C n l .poolReadPop (some b) sh w) :
    IoOwns n (l.setLink i fun link => { link with readBuffer := some b }) sh w := by
  obtain ⟨sh₀, -, hj, -, he⟩ := h
  simp only [Op.exec] at he
  split at he
  · simp at he
  · rename_i b' bs hp
    simp only [Option.some.injEq, Prod.mk.injEq] at he
    obtain ⟨rfl, rfl⟩ := he
    exact ⟨hj.toBase.popBuffer (l := l.setLink i fun link => { link with readBuffer := some b' }) hp rfl
      (linkBuffers_give hi hb _ rfl) _, hj.main.of_frame rfl⟩

private theorem owns_after_pool_pop_none (h : OwnsAfterIo K C n l .poolReadPop none sh w) : IoOwns n l sh w := by
  obtain ⟨sh₀, -, hj, -, he⟩ := h
  obtain rfl : sh = sh₀ := by
    simp only [Op.exec] at he
    split at he <;> simp at he
    exact he.symm
  exact ⟨hj.toBase, hj.main⟩

private theorem owns_after_pool_push {i b : Nat} {pushed : Bool} (hi : i < n) (hb : (l.link i).readBuffer = some b)
    (h : OwnsAfterIo K C n l (.poolReadPush b) pushed sh w) :
    IoOwns n (l.setLink i fun link => { link with readBuffer := none }) sh w := by
  obtain ⟨sh₀, -, hj, -, he⟩ := h
  have hs := linkBuffers_take hi hb (fun link => { link with readBuffer := none }) rfl
  simp only [Op.exec, hj.toBase.poolRoom hs, if_true, Option.some.injEq, Prod.mk.injEq] at he
  obtain ⟨-, rfl⟩ := he
  exact ⟨hj.toBase.pushBuffer rfl hs, hj.main.of_frame rfl⟩

/-! ### Steps without an operation -/

private abbrev KeepsBuffers {α : Type} (m : IoM α) : Prop := m.Within (fun _ => False) SameBuffers

abbrev IoKeepsOwned (K C : Shared → View Io Op → View Main Op → Prop) (n : Nat)
    (S : Shared → View Main Op → Prop)
    (m : IoM Unit) (l : Io) : Prop := m.wp Op.exec K (Ownership n) C S (Post K (Ownership n)) l

private theorem KeepsBuffers.wp {α : Type} {m : IoM α} (hm : KeepsBuffers m)
    (hS : ∀ sh w, S sh w → IoOwns n l sh w) {Q : (Shared → View Main Op → Prop) → Io → α → Prop}
    (hQ : ∀ l' a, SameBuffers l l' → (∀ sh w, S sh w → IoOwns n l' sh w) → Q S l' a) :
    m.wp Op.exec K (Ownership n) C S Q l := by
  refine Prog.wp_mono ?_ (Prog.wp_of_silent (Prog.path_mono (fun _ _ h => h.1) (fun _ _ h => h) (hm.path l)) S)
  rintro _ l' a ⟨rfl, hs⟩
  exact hQ l' a hs fun sh w h => (hS sh w h).same hs

private theorem KeepsBuffers.ends {m : IoM Unit} (hm : KeepsBuffers m) (hS : ∀ sh w, S sh w → IoOwns n l sh w)
    (hl : l.hand = none) : IoKeepsOwned K C n S m l :=
  hm.wp hS fun _ _ hs hS' sh w h _ => (hS' sh w h).ended (hs.hand.trans hl)

theorem sameBuffers_setLink (io : Io) (i : Nat) {f : Link → Link}
    (hf : (f (io.link i)).readBuffer = (io.link i).readBuffer) : SameBuffers io (io.setLink i f) := by
  refine ⟨rfl, fun j => ?_⟩
  by_cases hj : j = i
  · subst hj
    rw [Io.setLink_link_self, hf]
  · simp [Io.setLink, Io.link, Function.update_of_ne hj]

private theorem modifyLink_buffers (i : Nat) {f : Link → Link} (hf : ∀ x, (f x).readBuffer = x.readBuffer) :
    KeepsBuffers (modifyLink i f) := .modify fun io => sameBuffers_setLink io i (hf _)

private theorem modify_buffers {f : Io → Io} (h : ∀ io, (f io).hand = io.hand ∧ (f io).linkList = io.linkList) :
    KeepsBuffers (modify f) := by
  refine .modify fun io => ⟨(h io).1, fun i => ?_⟩
  simp only [Io.link, (h io).2]

private theorem undefinedBehaviour_buffers : KeepsBuffers undefinedBehaviour := modify_buffers fun _ => ⟨rfl, rfl⟩

private theorem onCloseHandleCb_buffers (handle : Nat) : KeepsBuffers (onCloseHandleCb handle) :=
  modify_buffers fun _ => ⟨rfl, rfl⟩

private theorem onRecvCbCleanup_buffers (handle i : Nat) (ret : ErrorCode) (closeLink : Bool) :
    KeepsBuffers (onRecvCbCleanup handle i ret closeLink) := by
  refine .bind (modifyLink_buffers i fun _ => rfl) fun _ => .ite (.bind .get fun _ => .ite ?_ (.pure _)) (.pure _)
  exact .bind (modifyLink_buffers i fun _ => rfl) fun _ => modify_buffers fun _ => ⟨rfl, rfl⟩

private theorem closeLink_buffers (i : Nat) : KeepsBuffers (closeLink i) := by
  refine .modify fun io => ?_
  cases hc : io.linkList.svlLinkListClose i with
  | none => exact ⟨rfl, fun _ => rfl⟩
  | some list =>
    obtain ⟨-, rfl⟩ := LinkList.svlLinkListClose_eq_some.1 hc
    exact ⟨rfl, fun _ => rfl⟩

/-- A link that is handed out has no read buffer. -/
private theorem openLink_buffers {c : Io → (o : Op) → o.Res → Prop}
    (hfree : ∀ i ∈ l.linkList.clientListFree.items, (l.link i).readBuffer = none) :
    openLink.path c (fun _ _ => False)
      (fun l' x => SameBuffers l l' ∧ ∀ i, x = some i → (l'.link i).readBuffer = none) l := by
  simp only [openLink, Code.path_bind, Code.path_get]
  cases ho : l.linkList.svlLinkListOpen with
  | none => exact ⟨refl_of SameBuffers l, by simp⟩
  | some x =>
    obtain ⟨i, list⟩ := x
    obtain ⟨hitems, -, -, hmap⟩ := LinkList.svlLinkListOpen_eq_some.1 ho
    have hsame : ∀ j, (list.clientMap j).readBuffer = (l.link j).readBuffer := by
      intro j
      by_cases hj : j = i
      · subst hj
        simp [Io.link, hmap]
      · simp [Io.link, hmap, Function.update_of_ne hj]
    refine ⟨⟨rfl, hsame⟩, fun j hj => ?_⟩
    obtain rfl := Option.some.inj hj
    exact (hsame i).trans (hfree i (by simp [hitems]))

private theorem pushSendReq_buffers (r : Nat) : KeepsBuffers (pushSendReq r) := by
  refine modify_buffers fun io => ?_
  split <;> exact ⟨rfl, rfl⟩

private theorem linkEndpoints_buffers (i : Nat) (out : ConnectedOut) : KeepsBuffers (linkEndpoints i out) :=
  .ite (.pure _) <| .ite (.pure _) <| .bind (modifyLink_buffers i fun _ => rfl) fun _ => .ite (.pure _) <|
    .ite (.pure _) <| .bind (modifyLink_buffers i fun _ => rfl) fun _ => .pure _

private theorem onInboundConnectionCbCleanup_buffers (h : Nat) (link : Option Nat) (init : Bool) :
    KeepsBuffers (onInboundConnectionCbCleanup h link init) := by
  cases link with
  | none => exact .ite (modify_buffers fun _ => ⟨rfl, rfl⟩) (.pure _)
  | some i => exact .bind (modifyLink_buffers i fun _ => rfl) fun _ => modify_buffers fun _ => ⟨rfl, rfl⟩

private theorem onOutboundConnectionCbCleanup_buffers (q : Nat) (locals : Option (Nat × Nat)) :
    KeepsBuffers (onOutboundConnectionCbCleanup q locals) := by
  refine .bind (modify_buffers fun _ => ⟨rfl, rfl⟩) fun _ => ?_
  split
  · exact .bind (modifyLink_buffers _ fun _ => rfl) fun _ => modify_buffers fun _ => ⟨rfl, rfl⟩
  · exact undefinedBehaviour_buffers

/-! ### Callbacks -/

private theorem mem_linkBuffers {i b : Nat} (hi : i < n) (hb : (l.link i).readBuffer = some b) : b ∈ l.linkBuffers n :=
  List.mem_filterMap.2 ⟨i, List.mem_range.2 hi, hb⟩

private theorem IoOwns.beforeWrite (h : IoOwns n l sh w) {i b : Nat} {o : Op} (ho : o.written = some b) (hi : i < n)
    (hb : (l.link i).readBuffer = some b) : Ownership n sh ⟨l, some o⟩ w := by
  refine ⟨h.base, ⟨by simp, fun o' b' h' hb' => ?_, fun o' e h' he => ?_⟩, h.main⟩
  · obtain rfl := Option.some.inj h'
    obtain rfl : b = b' := Option.some.inj (ho.symm.trans hb')
    exact mem_linkBuffers hi hb
  · obtain rfl := Option.some.inj h'
    cases o <;> simp_all [Op.written, Op.readied]

private theorem onRecvCb_owns {handle i : Nat} (nread : Int) (hS : ∀ sh w, S sh w → IoOwns n l sh w)
    (hl : l.hand = none) (hd : (l.handles handle).data = some i) (hi : i < n) :
    IoKeepsOwned K C n S (onRecvCb handle nread) l := by
  have hcleanup : ∀ {S : Shared → View Main Op → Prop} {l : Io} ret close, (∀ sh w, S sh w → IoOwns n l sh w) →
      l.hand = none → IoKeepsOwned K C n S (onRecvCbCleanup handle i ret close) l :=
    fun ret close hS hl => (onRecvCbCleanup_buffers handle i ret close).ends hS hl
  simp only [IoKeepsOwned, onRecvCb, getLink, Code.wp_bind, Code.wp_get, Code.wp_pure, hd, Code.wp_ite]
  refine ⟨fun _ => hcleanup _ _ hS hl, fun _ => ⟨fun _ => hcleanup _ _ hS hl, fun _ => ?_⟩⟩
  cases hb : (l.link i).readBuffer with
  | none => exact undefinedBehaviour_buffers.ends hS hl
  | some b =>
    simp only [Code.wp_bind, Code.wp_op, Code.wp_ite]
    refine ⟨fun sh w h _ => (hS sh w h).beforeWrite rfl hi hb, fun added _ => ⟨fun _ => ?_, fun _ => ?_⟩⟩
    · exact hcleanup _ _ (fun sh w h => owns_after rfl h) hl
    refine ⟨fun sh w h _ => (owns_after rfl h).before ⟨rfl, rfl⟩, ?_⟩
    rintro (_ | ⟨e, evt⟩) ⟨sh₁, w₁, hpop₁⟩
    · exact hcleanup _ _ (fun sh w h => owns_after_pop_none h) hl
    have htype := (owns_after_pop hl hpop₁).2
    simp only [Code.wp_bind, Code.wp_modify, Code.wp_get, Code.wp_pure, Code.wp_op]
    refine ⟨fun sh w h _ => (owns_after_pop hl h).1.before ⟨rfl, rfl⟩, fun span _ => ?_⟩
    obtain ⟨rpos, len⟩ := span
    simp only [readyPush, modifyLink, Code.wp_bind, Code.wp_op, Code.wp_modify, Code.wp_pure, Code.wp_ite]
    -- the push moves the buffer from the link to the event
    have hcarries : ∀ id, ({ evt with clientId := id, priv := some b, buffer := .readBuf b rpos, len := len } :
        Event).readBuffer = some b := fun id => by simp [Event.readBuffer, htype]
    have hgive : (Io.linkBuffers { l with hand := some e } n).Perm (b ::
        (l.setLink i fun link => { link with readBuffer := none }).linkBuffers n) := linkBuffers_take hi hb _ rfl
    refine ⟨fun sh w h _ => (owns_after rfl h).beforePush rfl, fun pushed hpush => ?_⟩
    obtain ⟨sh₂, w₂, hpush₂⟩ := hpush
    have hpushed := (owns_after_push (y := l.setLink i fun link => { link with readBuffer := none }) rfl hl
      (by rw [hcarries]; exact hgive) hpush₂).2
    refine ⟨fun hno => by simp [hpushed] at hno, fun _ sh w h _ => ?_⟩
    refine (owns_after_push rfl rfl ?_ h).1.ended rfl
    rw [hcarries]
    exact hgive

/-- A buffer that the alloc callback returns is the read buffer of the link. -/
private theorem onRecvAllocCb_owns {handle i : Nat}
    {Q : (Shared → View Main Op → Prop) → Io → Option (Nat × Nat) → Prop}
    (hS : ∀ sh w, S sh w → IoOwns n l sh w) (hl : l.hand = none) (hd : (l.handles handle).data = some i) (hi : i < n)
    (hQ : ∀ (S : Shared → View Main Op → Prop) (l' : Io) r, (∀ sh w, S sh w → IoOwns n l' sh w) → l'.hand = none →
      l'.handles = l.handles → (∀ b len, r = some (b, len) → (l'.link i).readBuffer = some b) → Q S l' r) :
    (onRecvAllocCb handle).wp Op.exec K (Ownership n) C S Q l := by
  simp only [onRecvAllocCb, getLink, modifyLink, Code.wp_bind, Code.wp_get, Code.wp_pure, hd, Code.wp_ite, Code.wp_op]
  refine ⟨fun hnone => ⟨fun sh w h _ => (hS sh w h).before ⟨rfl, rfl⟩, ?_⟩, fun hsome => ?_⟩
  · rintro (_ | b) -
    · exact hQ _ _ _ (fun sh w h => owns_after_pool_pop_none h) hl rfl (by simp)
    simp only [Code.wp_bind, Code.wp_modify, Code.wp_get, Code.wp_pure, Io.setLink_link_self, Code.wp_op]
    have howns := fun sh w (h : OwnsAfterIo K C n l .poolReadPop (some b) sh w) => owns_after_pool_pop hi hnone h
    refine ⟨fun sh w h _ => (howns sh w h).before ⟨rfl, rfl⟩, fun len _ => ?_⟩
    refine hQ _ _ _ (fun sh w h => owns_after rfl h) hl rfl fun b' len' he => ?_
    rw [Io.setLink_link_self]
    exact congrArg some (Prod.mk.inj (Option.some.inj he)).1
  · cases hb : (l.link i).readBuffer with
    | none => exact absurd hb hsome
    | some b =>
      simp only [Code.wp_bind, Code.wp_op, Code.wp_pure]
      refine ⟨fun sh w h _ => (hS sh w h).before ⟨rfl, rfl⟩, fun len _ => ?_⟩
      refine hQ _ _ _ (fun sh w h => owns_after rfl h) hl rfl fun b' len' he => ?_
      rw [hb]
      exact congrArg some (Prod.mk.inj (Option.some.inj he)).1

private theorem uvRead_owns {handle i : Nat} (out : ReadOut) (hS : ∀ sh w, S sh w → IoOwns n l sh w)
    (hl : l.hand = none) (hd : (l.handles handle).data = some i) (hi : i < n) :
    IoKeepsOwned K C n S (uvRead handle out) l := by
  simp only [IoKeepsOwned, uvRead, Code.wp_bind]
  refine onRecvAllocCb_owns hS hl hd hi fun S l' r hS' hl' hh hb => ?_
  have hd' : (l'.handles handle).data = some i := by rw [hh]; exact hd
  rcases r with _ | ⟨b, len⟩
  · exact onRecvCb_owns _ hS' hl' hd' hi
  simp only [uvReadInto, Code.wp_ite]
  refine ⟨fun _ => onRecvCb_owns _ hS' hl' hd' hi, fun _ => ?_⟩
  cases out with
  | error err => exact onRecvCb_owns _ hS' hl' hd' hi
  | empty => exact onRecvCb_owns _ hS' hl' hd' hi
  | data bytes =>
    simp only [Code.wp_bind, Code.wp_op, Code.wp_modify]
    refine ⟨fun sh w h _ => (hS' sh w h).beforeWrite rfl hi (hb b len rfl), fun _ _ => ?_⟩
    exact onRecvCb_owns _ (fun sh w h => (owns_after rfl h).same ⟨rfl, fun _ => rfl⟩) hl' hd' hi

private theorem releaseReadBuffer_owns {i : Nat} {Q : (Shared → View Main Op → Prop) → Io → Unit → Prop}
    (hS : ∀ sh w, S sh w → IoOwns n l sh w) (hi : i < n)
    (hQ : ∀ (S : Shared → View Main Op → Prop) (l' : Io), (∀ sh w, S sh w → IoOwns n l' sh w) → l'.hand = l.hand →
      Q S l' ()) : (releaseReadBuffer i).wp Op.exec K (Ownership n) C S Q l := by
  simp only [releaseReadBuffer, getLink, modifyLink, Code.wp_bind, Code.wp_get, Code.wp_pure]
  cases hb : (l.link i).readBuffer with
  | none => exact hQ S l hS rfl
  | some b =>
    simp only [Code.wp_bind, Code.wp_op, Code.wp_modify]
    exact ⟨fun sh w h _ => (hS sh w h).before ⟨rfl, rfl⟩, fun _ _ =>
      hQ _ _ (fun sh w h => owns_after_pool_push hi hb h) rfl⟩

private theorem readyPush_owns {e conn : Nat} {evt : Event} {Q : (Shared → View Main Op → Prop) → Io → Bool → Prop}
    (he : evt.readBuffer = none) (hS : ∀ sh w, S sh w → IoOwns n l sh w) (hl : l.hand = some e)
    (hQ : ∀ (S : Shared → View Main Op → Prop) (l' : Io), (∀ sh w, S sh w → IoOwns n l' sh w) → l'.hand = none →
      Q S l' true) : (readyPush e evt conn).wp Op.exec K (Ownership n) C S Q l := by
  simp only [readyPush, Code.wp_bind, Code.wp_op, Code.wp_modify, Code.wp_pure]
  refine ⟨fun sh w h _ => (hS sh w h).beforePush hl, fun pushed hpush => ?_⟩
  obtain ⟨sh₂, w₂, hpush₂⟩ := hpush
  have hsame : (l.linkBuffers n).Perm (evt.readBuffer.toList ++ l.linkBuffers n) := by simp [he]
  obtain rfl : pushed = true := (owns_after_push (y := { l with hand := none }) hl rfl hsame hpush₂).2
  exact hQ _ _ (fun sh w h => (owns_after_push (y := { l with
    hand := none, pushed := l.pushed ++ [⟨evt, conn⟩] }) hl rfl hsame h).1) rfl

private theorem onCloseLinkCb_owns {handle i : Nat} (hS : ∀ sh w, S sh w → IoOwns n l sh w) (hl : l.hand = none)
    (hd : (l.handles handle).data = some i) (hi : i < n) : IoKeepsOwned K C n S (onCloseLinkCb handle) l := by
  simp only [IoKeepsOwned, onCloseLinkCb, getLink, Code.wp_bind, Code.wp_get, hd]
  refine (modifyLink_buffers i (f := fun link => { link with state := .closed }) fun _ => rfl).wp hS
    fun l₁ _ hs₁ hS₁ => ?_
  refine releaseReadBuffer_owns hS₁ hi fun S l₂ hS₂ hl₂ => ?_
  have hnone : l₂.hand = none := hl₂.trans (hs₁.hand.trans hl)
  simp only [Code.wp_op]
  refine ⟨fun sh w h _ => (hS₂ sh w h).before ⟨rfl, rfl⟩, ?_⟩
  rintro (_ | ⟨e, evtClose⟩) ⟨sh₃, w₃, hpop₃⟩
  · exact (onCloseHandleCb_buffers handle).ends (fun sh w h => owns_after_pop_none h) hnone
  have htype := (owns_after_pop hnone hpop₃).2
  simp only [Code.wp_bind, Code.wp_modify, Code.wp_get, Code.wp_pure]
  refine readyPush_owns (by simp [Event.readBuffer, htype]) (fun sh w h => (owns_after_pop hnone h).1) rfl
    fun S l₄ hS₄ hl₄ => ?_
  refine (closeLink_buffers i).wp hS₄ fun l₅ _ hs₅ hS₅ => ?_
  exact (onCloseHandleCb_buffers handle).ends hS₅ (hs₅.hand.trans hl₄)

private theorem uvFinishClose_owns {handle : Nat} (hS : ∀ sh w, S sh w → IoOwns n l sh w) (hl : l.hand = none)
    (hd : (l.handles handle).closing = some .link → ∃ i < n, (l.handles handle).data = some i) :
    IoKeepsOwned K C n S (uvFinishClose handle) l := by
  simp only [IoKeepsOwned, uvFinishClose, Code.wp_bind, Code.wp_modify, Code.wp_get, Io.setHandle_handles_self]
  have hS₁ : ∀ sh w, S sh w → IoOwns n (l.setHandle handle fun h => { h with closed := true }) sh w :=
    fun sh w h => (hS sh w h).same ⟨rfl, fun _ => rfl⟩
  split
  · rename_i hc
    obtain ⟨i, hi, hdata⟩ := hd hc
    exact onCloseLinkCb_owns hS₁ hl (by simpa using hdata) hi
  · exact (onCloseHandleCb_buffers handle).ends hS₁ hl
  · exact fun sh w h _ => (hS₁ sh w h).ended hl

private theorem announce_owns {cleanup rest : IoM Unit} {i c : Nat} {fields : Link → Event → Event}
    (hf : ∀ link evt, (fields link evt).readBuffer = none) (hc : KeepsBuffers cleanup) (hr : KeepsBuffers rest)
    (hS : ∀ sh w, S sh w → IoOwns n l sh w) (hl : l.hand = none) :
    IoKeepsOwned K C n S (do
      let some (e, openEvt) ← perform (.eventFreePop .clientOpen) | cleanup
      modify fun io => { io with hand := some e }
      let link ← getLink i
      let pushed ← readyPush e (fields link openEvt) c
      if !pushed then return ← cleanup
      rest) l := by
  simp only [IoKeepsOwned, Code.wp_bind, Code.wp_op]
  refine ⟨fun sh w h _ => (hS sh w h).before ⟨rfl, rfl⟩, ?_⟩
  rintro (_ | ⟨e, evt⟩) -
  · exact hc.ends (fun sh w h => owns_after_pop_none h) hl
  simp only [getLink, Code.wp_bind, Code.wp_modify, Code.wp_get, Code.wp_pure, Code.wp_ite]
  refine readyPush_owns (hf _ _) (fun sh w h => (owns_after_pop hl h).1) rfl fun S l₁ hS₁ hl₁ => ?_
  exact ⟨fun hno => by simp at hno, fun _ => hr.ends hS₁ hl₁⟩

private theorem modifyLink_free {c : Io → (o : Op) → o.Res → Prop} {i : Nat} (hi : (l.link i).readBuffer = none)
    {f : Link → Link} (hf : ∀ x, (f x).readBuffer = none) :
    (modifyLink i f).path c (fun _ _ => False) (fun l' _ => SameBuffers l l') l :=
  sameBuffers_setLink l i (by rw [hi, hf])

private theorem wp_silent {α : Type} {m : IoM α} {can : Io → (o : Op) → o.Res → Prop} {P : Io → α → Prop}
    (hm : m.path can (fun _ _ => False) P l) {Q : (Shared → View Main Op → Prop) → Io → α → Prop}
    (hQ : ∀ l' a, P l' a → Q S l' a) : m.wp Op.exec K (Ownership n) C S Q l := by
  refine Prog.wp_mono ?_ (Prog.wp_of_silent hm S)
  rintro _ l' a ⟨rfl, h⟩
  exact hQ l' a h

private theorem onInboundConnectionCb_owns (status : Int) (out : InboundOut) (hS : ∀ sh w, S sh w → IoOwns n l sh w)
    (hl : l.hand = none) (hfree : ∀ i ∈ l.linkList.clientListFree.items, (l.link i).readBuffer = none) :
    IoKeepsOwned K C n S (onInboundConnectionCb status out) l := by
  have hcleanup : ∀ {l' : Io} h link init, SameBuffers l l' →
      IoKeepsOwned K C n S (onInboundConnectionCbCleanup h link init) l' := fun h link init hs =>
    (onInboundConnectionCbCleanup_buffers h link init).ends (fun sh w h => (hS sh w h).same hs) (hs.hand.trans hl)
  simp only [IoKeepsOwned, onInboundConnectionCb, acquireClientHandle, Code.wp_ite, Code.wp_bind, Code.wp_get,
    Code.wp_modify, Code.wp_pure]
  refine ⟨fun _ sh w h _ => (hS sh w h).ended hl, fun _ => ⟨fun _ sh w h _ => (hS sh w h).ended hl, fun _ => ?_⟩⟩
  have hsame : SameBuffers l (l.acquireHandle .tcpClient) := ⟨rfl, fun _ => rfl⟩
  refine ⟨fun _ => hcleanup _ _ _ hsame, fun _ => ⟨fun _ => hcleanup _ _ _ ⟨rfl, fun _ => rfl⟩, fun _ => ?_⟩⟩
  have hopen := openLink_buffers (c := fun _ _ _ => True)
    (l := (l.acquireHandle .tcpClient).uvInit l.handleCount) hfree
  refine wp_silent hopen ?_
  rintro l₁ (_ | i) ⟨hs₁, hi⟩
  · exact hcleanup _ _ _ ⟨hs₁.hand, hs₁.buffers⟩
  simp only [Code.wp_bind, Code.wp_modify]
  have hi₁ : ((l₁.setHandle l.handleCount fun h => { h with data := some i }).link i).readBuffer = none := hi i rfl
  refine wp_silent (modifyLink_free (c := fun _ _ _ => True) hi₁ ?_) fun l₂ _ hs₂ => ?_
  · exact fun _ => rfl
  have hs : SameBuffers l l₂ := ⟨hs₂.hand.trans hs₁.hand, fun j => (hs₂.buffers j).trans (hs₁.buffers j)⟩
  refine (linkEndpoints_buffers i out.toConnectedOut).wp (fun sh w h => (hS sh w h).same hs) fun l₃ ok hs₃ hS₃ => ?_
  rw [Code.wp_ite]
  refine ⟨fun _ => hcleanup _ _ _ (trans_of SameBuffers hs hs₃), fun _ => ?_⟩
  refine announce_owns (i := i) (c := l.handleCount) (fun _ _ => by simp [Event.readBuffer]) ?_ ?_ hS₃
    (hs₃.hand.trans (hs.hand.trans hl))
  · exact onInboundConnectionCbCleanup_buffers ..
  · exact .ite (onInboundConnectionCbCleanup_buffers ..) (modify_buffers fun _ => ⟨rfl, rfl⟩)

private theorem onOutboundConnectionCb_owns (q : Nat) (status : Int) (out : ConnectedOut)
    (hS : ∀ sh w, S sh w → IoOwns n l sh w) (hl : l.hand = none) :
    IoKeepsOwned K C n S (onOutboundConnectionCb q status out) l := by
  have hcleanup : ∀ {S : Shared → View Main Op → Prop} {l : Io} locals, (∀ sh w, S sh w → IoOwns n l sh w) →
      l.hand = none → IoKeepsOwned K C n S (onOutboundConnectionCbCleanup q locals) l :=
    fun locals hS hl => (onOutboundConnectionCbCleanup_buffers q locals).ends hS hl
  simp only [IoKeepsOwned, onOutboundConnectionCb, Code.wp_bind, Code.wp_get]
  rcases (l.connectReqs q).data with _ | i
  · exact undefinedBehaviour_buffers.ends hS hl
  simp only [getLink, Code.wp_bind, Code.wp_get, Code.wp_pure, Code.wp_ite]
  refine ⟨fun _ => hcleanup _ hS hl, fun _ => ?_⟩
  rcases (l.link i).priv with _ | clientHandle
  · exact undefinedBehaviour_buffers.ends hS hl
  simp only [Code.wp_bind, Code.wp_ite]
  refine ⟨fun _ => undefinedBehaviour_buffers.ends hS hl, fun _ => ?_⟩
  refine (linkEndpoints_buffers i out).wp hS fun l₁ ok hs₁ hS₁ => ?_
  have hl₁ := hs₁.hand.trans hl
  refine ⟨fun _ => hcleanup _ hS₁ hl₁, fun _ => ?_⟩
  refine announce_owns (i := i) (c := clientHandle) (fun _ _ => by simp [Event.readBuffer]) ?_ ?_ hS₁ hl₁
  · exact onOutboundConnectionCbCleanup_buffers ..
  · exact .bind (modifyLink_buffers i fun _ => rfl) fun _ =>
      .ite (onOutboundConnectionCbCleanup_buffers ..) (modify_buffers fun _ => ⟨rfl, rfl⟩)

private theorem handleCmdOpenCleanup_buffers (h q i : Option Nat) : KeepsBuffers (handleCmdOpenCleanup h q i) :=
  handleCmdOpenCleanup_within (fun _ => modify_buffers fun _ => ⟨rfl, rfl⟩) closeLink_buffers
    (fun _ => modify_buffers fun _ => ⟨rfl, rfl⟩) h q i

private theorem handleCmdOpen_buffers (cmd : Cmd) (out : CmdOut)
    (hfree : ∀ i ∈ l.linkList.clientListFree.items, (l.link i).readBuffer = none) :
    (handleCmdOpen cmd out).path (fun _ _ _ => True) (fun _ _ => True) (fun l' _ => SameBuffers l l') l := by
  have hcleanup : ∀ {l' : Io} h q i, SameBuffers l l' →
      (handleCmdOpenCleanup h q i).path (fun _ _ _ => True) (fun _ _ => True) (fun l' _ => SameBuffers l l') l' :=
    fun h q i hs => Code.path_mono (fun _ _ _ => trivial) (fun _ _ h => h)
      ((handleCmdOpenCleanup_buffers h q i).path_from hs)
  simp only [handleCmdOpen, acquireClientHandle, acquireConnectReq, Code.path_bind, Code.path_ite, Code.path_get,
    Code.path_modify, Code.path_pure]
  refine ⟨fun _ => hcleanup _ _ _ (refl_of SameBuffers l), fun _ => ?_⟩
  refine ⟨fun _ => hcleanup _ _ _ ⟨rfl, fun _ => rfl⟩, fun _ => ⟨fun _ => hcleanup _ _ _ ⟨rfl, fun _ => rfl⟩,
    fun _ => ?_⟩⟩
  have hopen := openLink_buffers (c := fun _ _ _ => True)
    (l := ((l.acquireHandle .tcpClient).uvInit l.handleCount).acquireConnectReq) hfree
  refine Code.path_mono (fun _ _ h => h.elim) ?_ hopen
  rintro l₁ (_ | i) ⟨hs₁, hi⟩
  · exact hcleanup _ _ _ ⟨hs₁.hand, hs₁.buffers⟩
  simp only [modifyLink, Code.path_bind, Code.path_modify, Code.path_ite]
  have hs₂ := sameBuffers_setLink l₁ i (f := fun link => { link with
    priv := some l.handleCount, readState := .header, state := .new, errorCode := .zero
    readBuffer := none, cmdOpenId := cmd.id }) (hi i rfl).symm
  have hs : ∀ {l' : Io}, SameBuffers _ l' → SameBuffers l l' := fun h =>
    ⟨(h.hand.trans hs₂.hand).trans hs₁.hand, fun j => ((h.buffers j).trans (hs₂.buffers j)).trans (hs₁.buffers j)⟩
  exact ⟨fun _ => hcleanup _ _ _ (hs ⟨rfl, fun _ => rfl⟩), fun _ => hs ⟨rfl, fun _ => rfl⟩⟩

private theorem handleCmdClose_buffers (cmd : Cmd) : KeepsBuffers (handleCmdClose cmd) := by
  refine .bind .get fun io => ?_
  split
  · exact .bind (modifyLink_buffers _ fun _ => rfl) fun _ => .bind (modify_buffers fun _ => ⟨rfl, rfl⟩) fun _ => .pure _
  · exact .pure _

private theorem handleCmdSend_buffers (cmd : Cmd) (out : CmdOut) : KeepsBuffers (handleCmdSend cmd out) := by
  refine .bind .get fun io => ?_
  split
  case h_2 => exact .pure _
  refine .bind .get fun io => ?_
  split
  case h_2 => exact .pure _
  exact .bind (modify_buffers fun _ => ⟨rfl, rfl⟩) fun _ => .ite (.bind (pushSendReq_buffers _) fun _ => .pure _)
    (.bind (modify_buffers fun _ => ⟨rfl, rfl⟩) fun _ => .pure _)

/-- Handling a command leaves the read buffers with their links. -/
private theorem handleCmd_buffers (cmd : Cmd) (out : CmdOut)
    (hfree : ∀ i ∈ l.linkList.clientListFree.items, (l.link i).readBuffer = none) :
    (handleCmd cmd out).path (fun _ _ _ => True) (fun _ _ => True) (fun l' _ => SameBuffers l l') l := by
  unfold handleCmd
  cases cmd.type with
  | clientOpen =>
    rw [Code.path_bind]
    exact handleCmdOpen_buffers cmd out hfree
  | clientClose => exact Code.path_mono (fun _ _ _ => trivial) (fun _ _ h => h) ((handleCmdClose_buffers cmd).path l)
  | clientSend => exact Code.path_mono (fun _ _ _ => trivial) (fun _ _ h => h) ((handleCmdSend_buffers cmd out).path l)

private theorem onCheckCb_owns (out : CmdOut) (hS : ∀ sh w, S sh w → IoOwns n l sh w) (hl : l.hand = none)
    (hfree : ∀ i ∈ l.linkList.clientListFree.items, (l.link i).readBuffer = none) :
    IoKeepsOwned K C n S (onCheckCb out) l := by
  simp only [IoKeepsOwned, onCheckCb, Code.wp_bind, Code.wp_op]
  refine ⟨fun sh w h _ => (hS sh w h).before ⟨rfl, rfl⟩, ?_⟩
  rintro (_ | cmd) -
  · exact fun sh w h _ => ((owns_after rfl h).same (l := { l with inCheck := false }) ⟨rfl, fun _ => rfl⟩).ended hl
  simp only [Code.wp_bind, Code.wp_get]
  have hpath := Prog.path_and ((handleCmd_onLinks cmd out).path l) (handleCmd_buffers cmd out hfree)
  refine wp_silent (Prog.path_mono (fun _ _ h => h.1.1) (fun _ _ h => h.2) hpath) fun l' acted hs => ?_
  simp only [Code.wp_modify, Code.wp_op]
  have hs' : ∀ {l'' : Io}, SameBuffers l' l'' → SameBuffers l l'' := trans_of SameBuffers hs
  refine ⟨fun sh w h _ => ((owns_after rfl h).same (l := { l' with
    inCheck := true, cmd := some cmd
    handled := l'.handled ++ [⟨cmd, linkIsOpen l cmd.clientId, acted⟩] }) (hs' ⟨rfl, fun _ => rfl⟩)).before ⟨rfl, rfl⟩,
    fun _ _ sh w h _ => ?_⟩
  exact ((owns_after rfl h).same (l := { l' with
    inCheck := true, cmd := none
    handled := l'.handled ++ [⟨cmd, linkIsOpen l cmd.clientId, acted⟩] }) ⟨rfl, fun _ => rfl⟩).ended (hs.hand.trans hl)

/-- What concerns neither commands nor events leaves every holder alone. -/
private theorem service_owns {d : IoRun} (hd : d.kind = .service) (hS : ∀ sh w, S sh w → IoOwns n l sh w)
    (hl : l.hand = none) : IoKeepsOwned K C n S d.code l := by
  have hsame : ∀ l', d.kind.Frame l l' → SameBuffers l l' := by
    intro l' h
    refine ⟨(h.event (by simp [hd])).1, fun i => ?_⟩
    simp only [Io.link, h.links hd]
  have hop : ∀ {o : Op}, o.kind = d.kind → (o.written = none ∧ o.readied = none) ∧ o.moves = false := by
    intro o ho
    cases o <;> simp_all [Op.kind, Op.written, Op.readied, Op.moves]
  refine Prog.wp_mono ?_ (Prog.wp_of_path (R := IoOwns n l) ?_ ?_ (d.keepsTo.path l) hS)
  · rintro S l' _ ⟨hS, hf⟩ sh w h -
    exact ((hS sh w h).same (hsame l' hf)).ended ((hsame l' hf).hand.trans hl)
  · rintro sh l' o w ⟨⟨ho, -⟩, hf⟩ - h
    exact (h.same (hsame l' hf)).before (hop ho).1
  · rintro sh sh' l' o r w ⟨⟨ho, -⟩, hf⟩ - hj he
    have hs := hsame l' hf
    have hm := Op.exec_moveFrame (hop ho).2 he
    exact ⟨(hj.toBase.of_frame hm).of_io ⟨hs.hand.symm, fun i => (hs.buffers i).symm⟩, hj.main.of_frame hm.events⟩

/-- Everything the IO thread is given to run keeps the owners, where it may be given. -/
theorem IoRun.owns {d : IoRun} {sh₀ : Shared} (hi : IoInv n ⟨False, False, False⟩ l)
    (hr : d.ready sh₀ l = true) (hS : ∀ sh w, S sh w → IoOwns n l sh w) (hl : l.hand = none) :
    IoKeepsOwned K C n S d.code l := by
  have hfree := hi.slots.free_buffer
  cases d with
  | thread out => exact service_owns rfl hS hl
  | timer => exact service_owns rfl hS hl
  | signal isSigint => exact service_owns rfl hS hl
  | uvRunReturn => exact service_owns rfl hS hl
  | check out => exact onCheckCb_owns out hS hl hfree
  | inbound status out => exact onInboundConnectionCb_owns status out hS hl hfree
  | outbound req status out =>
    simp only [IoKeepsOwned, IoRun.code, Code.wp_bind, Code.wp_modify]
    have hs : SameBuffers l (onHandle (fun io => (io.connectReqs req).handle)
        (fun io h => io.setHandle h fun x => { x with connecting := false })
        (l.setConnectReq req fun q => { q with pending := false })) := by
      unfold onHandle
      split <;> exact ⟨rfl, fun _ => rfl⟩
    exact onOutboundConnectionCb_owns req status out (fun sh w h => (hS sh w h).same hs) (hs.hand.trans hl)
  | read handle out =>
    simp only [IoRun.ready, Bool.and_eq_true, decide_eq_true_eq] at hr
    obtain ⟨i, hh, -⟩ := hi.slots.reading handle hr.2
    exact uvRead_owns out hS hl hh.data (hi.slots.holds handle i hh).1
  | close handle =>
    simp only [IoRun.ready, Bool.and_eq_true, decide_eq_true_eq, Bool.not_eq_true'] at hr
    refine uvFinishClose_owns hS hl fun hc => ?_
    obtain ⟨i, hh⟩ := hi.slots.link_cb handle hc hr.2.2
    exact ⟨i, (hi.slots.holds handle i hh).1, hh.data⟩
  | send req =>
    have hkeeps : KeepsBuffers (IoRun.send req).code := by
      refine .bind (modify_buffers fun _ => ⟨rfl, rfl⟩) fun _ => .bind .get fun io => ?_
      split
      · exact pushSendReq_buffers _
      · exact undefinedBehaviour_buffers
    exact hkeeps.ends hS hl

end IoThread

/-! ### The main thread -/

section MainThread

variable {K C : Shared → View Main Op → View Io Op → Prop} {S : Shared → View Io Op → Prop} {v : View Io Op}

/-- Every event and every buffer has its holder while the main thread, in the private state `m`, is between two
operations. -/
structure MainOwns (n : Nat) (m : Main) (sh : Shared) (v : View Io Op) : Prop where
  base : Ownership.Base n sh v.loc m
  io : IoTurn n v

private abbrev MainOwnership (n : Nat) (sh : Shared) (w : View Main Op) (v : View Io Op) : Prop := Ownership n sh v w

private abbrev OwnsAfterMain (K C : Shared → View Main Op → View Io Op → Prop) (n : Nat) (m : Main) (o : Op)
    (r : o.Res) :
    Shared → View Io Op → Prop := After Op.exec K (MainOwnership n) C m o r

private abbrev MainKeepsOwned (K C : Shared → View Main Op → View Io Op → Prop) (n : Nat)
    (S : Shared → View Io Op → Prop)
    (code : MainM Unit) (m : Main) : Prop := code.wp Op.exec K (MainOwnership n) C S (Post K (MainOwnership n)) m

theorem MainOwns.before (h : MainOwns n m sh v) {o : Op} (ho : ∀ b, o ≠ .poolReadPush b) :
    Ownership n sh v ⟨m, some o⟩ :=
  ⟨h.base, h.io, ⟨by simp, fun b hb => absurd (Option.some.inj hb) (ho b)⟩⟩

theorem MainOwns.ended (h : MainOwns n m sh v) (hm : m.Idle) : Ownership n sh v ⟨m, none⟩ :=
  ⟨h.base, h.io, ⟨fun _ => hm, by simp⟩⟩

private theorem mainOwns_after {o : Op} (ho : o.moves = false) {r : o.Res} (h : OwnsAfterMain K C n m o r sh v) :
    MainOwns n m sh v := by
  obtain ⟨sh₀, -, hj, -, he⟩ := h
  exact ⟨hj.toBase.of_frame (Op.exec_moveFrame ho he), hj.io⟩

theorem batch_step {e : Nat} {es : List Nat} (hm : m.batch = e :: es) :
    Main.batch { m with cursor := m.cursor + 1, hand := some e } = es := by
  have h : (m.eventUpdates.take m.eventUpdatesCount).drop (m.cursor + 1) = m.batch.tail := by
    rw [Main.batch, List.tail_drop]
  rw [hm] at h
  exact h

private theorem mainOwns_after_load {e : Nat} {evt : Event} (h : OwnsAfterMain K C n m (.eventLoad e) evt sh v) :
    MainOwns n m sh v ∧ evt = sh.events e := by
  refine ⟨mainOwns_after rfl h, ?_⟩
  obtain ⟨sh₀, -, -, -, he⟩ := h
  simp only [Op.exec, Option.some.injEq, Prod.mk.injEq] at he
  rw [← he.1, he.2]

/-- The event in the hands of the main thread goes back to the free list. -/
private theorem mainOwns_after_free {e : Nat} {pushed : Bool} (hh : m.hand = some e)
    (h : OwnsAfterMain K C n m (.eventFreePush e) pushed sh v) : MainOwns n { m with hand := none } sh v := by
  obtain ⟨sh₀, -, hj, -, he⟩ := h
  simp only [Op.exec, hj.toBase.freeRoom hh, if_true, Option.some.injEq, Prod.mk.injEq] at he
  obtain ⟨-, rfl⟩ := he
  exact ⟨hj.toBase.freeEvent (y := { m with hand := none }) hh ⟨rfl, rfl⟩ rfl, hj.io⟩

/-- The read buffer of the next event of the batch goes back to the pool. -/
private theorem mainOwns_after_pool {e b : Nat} {es : List Nat} {pushed : Bool} (hm : m.batch = e :: es)
    (hh : m.hand = none) (h : OwnsAfterMain K C n m (.poolReadPush b) pushed sh v) :
    MainOwns n { m with cursor := m.cursor + 1, hand := some e } sh v := by
  obtain ⟨sh₀, -, hj, -, he⟩ := h
  obtain ⟨e', es', hm', hb⟩ := hj.main.releasing b rfl
  obtain ⟨rfl, rfl⟩ := List.cons.inj (hm.symm.trans hm')
  simp only [Op.exec, hj.toBase.poolRoom_of_batch hm hb, if_true, Option.some.injEq, Prod.mk.injEq] at he
  obtain ⟨-, rfl⟩ := he
  exact ⟨hj.toBase.takeReadEvent (y := { m with cursor := m.cursor + 1, hand := some e }) hm hh hb
    ⟨batch_step hm, rfl⟩ (Nat.le_refl _), hj.io⟩

private theorem releaseLoop_owns {es : List Nat} {Q : (Shared → View Io Op → Prop) → Main → Unit → Prop}
    (hm : m.batch = es) (hh : m.hand = none) (hS : ∀ sh v, S sh v → MainOwns n m sh v)
    (hQ : ∀ (S : Shared → View Io Op → Prop) (m' : Main), (∀ sh v, S sh v → MainOwns n m' sh v) → m'.hand = none →
      m'.batch = [] → Q S m' ()) : (releaseLoop es).wp Op.exec K (MainOwnership n) C S Q m := by
  induction es generalizing m S with
  | nil => exact hQ S m hS hh hm
  | cons e es ih =>
    -- the event itself, once its read buffer is out of its hands
    have hrest : ∀ {S : Shared → View Io Op → Prop},
        (∀ sh v, S sh v → MainOwns n { m with cursor := m.cursor + 1, hand := some e } sh v) →
        Code.wp Op.exec K (MainOwnership n) C (do
          modify fun m => { m with cursor := m.cursor + 1, hand := some e }
          let _ ← perform (.eventFreePush e)
          modify fun m => { m with hand := none }
          releaseLoop es) S Q m := by
      intro S hS
      simp only [Code.wp_bind, Code.wp_modify, Code.wp_op]
      refine ⟨fun sh v h _ => (hS sh v h).before (by simp), fun pushed _ => ?_⟩
      exact ih (batch_step hm) rfl fun sh v h => mainOwns_after_free (m := { m with
        cursor := m.cursor + 1, hand := some e }) rfl h
    simp only [releaseLoop, Code.wp_bind, Code.wp_op, Code.wp_ite] at hrest ⊢
    refine ⟨fun sh v h _ => (hS sh v h).before (by simp), fun evt _ => ⟨fun ht => ?_, fun ht => ?_⟩⟩
    · cases hp : evt.priv with
      | none =>
        refine hrest fun sh v h => ?_
        obtain ⟨hown, rfl⟩ := mainOwns_after_load h
        exact ⟨hown.base.takeEvent hm hh (by simp [Event.readBuffer, hp]) ⟨batch_step hm, rfl⟩ (Nat.le_refl _), hown.io⟩
      | some b =>
        simp only [Code.wp_bind, Code.wp_op]
        refine ⟨fun sh v h _ => ?_, fun pushed _ => hrest fun sh v h => mainOwns_after_pool hm hh h⟩
        obtain ⟨hown, rfl⟩ := mainOwns_after_load h
        refine ⟨hown.base, hown.io, ⟨by simp, fun b' hb => ⟨e, es, hm, ?_⟩⟩⟩
        obtain rfl : b = b' := by simpa using hb
        simp [Event.readBuffer, ht, hp]
    · refine hrest fun sh v h => ?_
      obtain ⟨hown, rfl⟩ := mainOwns_after_load h
      exact ⟨hown.base.takeEvent hm hh (by simp [Event.readBuffer, ht]) ⟨batch_step hm, rfl⟩ (Nat.le_refl _), hown.io⟩

/-- No more events are ready than there are. -/
theorem Ownership.Base.ready_le (hb : Ownership.Base n sh io m) : sh.eventReady.length ≤ sh.bufferCount := by
  have hlen := hb.events.length_eq
  simp only [List.length_append, List.length_range] at hlen
  omega

/-- All events that are ready become the batch. -/
private theorem mainOwns_after_acquire {r : Option (List Nat)} (hm : m.batch = []) (hc : m.cursor = 0)
    (h : OwnsAfterMain K C n m .eventReadyPopAll r sh v) : match r with
    | none => MainOwns n m sh v
    | some es => MainOwns n { m with
        eventUpdates := es ++ m.eventUpdates.drop es.length, eventUpdatesCount := es.length } sh v := by
  obtain ⟨sh₀, -, hj, -, he⟩ := h
  have hle := hj.toBase.ready_le
  simp only [Op.exec] at he
  split at he
  · simp only [Option.some.injEq, Prod.mk.injEq] at he
    obtain ⟨rfl, rfl⟩ := he
    exact ⟨hj.toBase, hj.io⟩
  · simp only [Option.some.injEq, Prod.mk.injEq, List.take_of_length_le hle, List.drop_of_length_le hle] at he
    obtain ⟨rfl, rfl⟩ := he
    refine ⟨hj.toBase.acquire (y := { m with
      eventUpdates := sh₀.eventReady ++ m.eventUpdates.drop sh₀.eventReady.length
      eventUpdatesCount := sh₀.eventReady.length }) ⟨?_, rfl⟩ (by simp [hm]), hj.io⟩
    rw [hm, List.append_nil]
    simp [Main.batch, hc]

/-- An acquire comes after the release of the acquire before, a release after an acquire. -/
def MainCall.inTurn (m : Main) : MainCall → Bool
  | .eventsAcquire => !m.owed
  | .eventsRelease => m.owed
  | _ => true

private theorem endCall_owns {call : MainCall} {r : Bool × Nat} (hS : ∀ sh v, S sh v → MainOwns n m sh v)
    (hm : m.Idle) : MainKeepsOwned K C n S (endCall call r) m :=
  fun sh v h _ => MainOwns.ended (m := { m with
      call := none, returned := some ⟨call, r.1, r.2⟩
      succeeded := if r.1 && call.isCmd then m.succeeded ++ [⟨call, r.1, r.2⟩] else m.succeeded })
    ⟨(hS sh v h).base.of_main ⟨rfl, rfl⟩ (hS sh v h).base.room, (hS sh v h).io⟩ ⟨hm.hand, hm.cursor, hm.batch⟩

/-- Every call keeps the owners, where acquires and releases take turns. -/
private theorem MainCall.owns (call : MainCall) (hturn : call.inTurn m = true) (hm : m.Idle)
    (hS : ∀ sh v, S sh v → MainOwns n m sh v) : MainKeepsOwned K C n S call.code m := by
  have hS' : ∀ sh v, S sh v → MainOwns n { m with call := some call, returned := none } sh v :=
    fun sh v h => ⟨(hS sh v h).base.of_main ⟨rfl, rfl⟩ (hS sh v h).base.room, (hS sh v h).io⟩
  change MainKeepsOwned K C n S (call.run >>= endCall call) { m with call := some call, returned := none }
  generalize hm' : ({ m with call := some call, returned := none } : Main) = m' at hS' ⊢
  have hidle : m'.Idle := hm' ▸ ⟨hm.hand, hm.cursor, hm.batch⟩
  have hturn' : call.inTurn m' = true := hm' ▸ hturn
  clear hm' hS hm hturn
  by_cases hk : call.kind = .event
  · cases call with
    | eventsAcquire =>
      have howed : m'.owed = false := by simpa [MainCall.inTurn] using hturn'
      have hbatch := hidle.batch howed
      simp only [MainKeepsOwned, MainCall.run, svlServiceEventsAcquire, Code.wp_bind, Code.wp_modify, Code.wp_op]
      have hS₁ : ∀ sh v, S sh v → MainOwns n { m' with eventUpdatesCount := 0, cursor := 0, owed := true } sh v :=
        fun sh v h => ⟨(hS' sh v h).base.of_main ⟨by rw [hbatch]; simp [Main.batch], rfl⟩ (Nat.zero_le _),
          (hS' sh v h).io⟩
      refine ⟨fun sh v h _ => (hS₁ sh v h).before (by simp), ?_⟩
      rintro (_ | es) -
      · exact endCall_owns (C := C) (fun sh v h => mainOwns_after_acquire rfl rfl h) ⟨hidle.hand, fun _ => rfl, by simp⟩
      · exact endCall_owns (C := C) (fun sh v h => mainOwns_after_acquire rfl rfl h) ⟨hidle.hand, fun _ => rfl, by simp⟩
    | eventsRelease =>
      have hcursor := hidle.cursor hturn'
      simp only [MainKeepsOwned, MainCall.run, svlServiceEventsRelease, Code.wp_bind, Code.wp_modify, Code.wp_get]
      have hS₁ : ∀ sh v, S sh v → MainOwns n { m' with cursor := 0 } sh v :=
        fun sh v h => ⟨(hS' sh v h).base.of_main ⟨by simp [Main.batch, hcursor], rfl⟩ (hS' sh v h).base.room,
          (hS' sh v h).io⟩
      refine releaseLoop_owns (m := { m' with cursor := 0 }) rfl hidle.hand hS₁ fun S m₁ hS₂ hh hb => ?_
      exact endCall_owns (C := C) (fun sh v h => ⟨(hS₂ sh v h).base.of_main ⟨rfl, rfl⟩ (hS₂ sh v h).base.room,
        (hS₂ sh v h).io⟩)
        ⟨hh, by simp, fun _ => hb⟩
    | _ => simp [MainCall.kind] at hk
  · -- the call does not concern events
    have hop : ∀ {o : Op}, o.kind = call.kind ∨ o = .stateLoad → o.moves = false := by
      rintro o (ho | rfl)
      · cases o <;> first | rfl | exact absurd ho.symm hk
      · rfl
    have hsame : ∀ {l : Main}, MainFrame call.kind m' l → l.batch = m'.batch ∧ l.hand = m'.hand ∧ l.owed = m'.owed ∧
        l.cursor = m'.cursor ∧ l.eventUpdatesCount = m'.eventUpdatesCount := by
      intro l hl
      obtain ⟨h₁, h₂, h₃, h₄, h₅⟩ := hl.event hk
      exact ⟨by rw [Main.batch, Main.batch, h₁, h₂, h₃], h₄, h₅, h₃, h₂⟩
    have hown : ∀ {l : Main} {sh v}, MainFrame call.kind m' l → MainOwns n m' sh v → MainOwns n l sh v :=
      fun hl h => ⟨h.base.of_main ⟨(hsame hl).1, (hsame hl).2.1⟩ (by rw [(hsame hl).2.2.2.2]; exact h.base.room), h.io⟩
    rw [MainKeepsOwned, Code.wp_bind]
    refine Prog.wp_mono ?_ (Prog.wp_of_path (R := MainOwns n m') ?_ ?_ (call.keepsTo.path _) hS')
    · rintro S l r ⟨hS, hl⟩
      obtain ⟨hb, hh, ho, hc, -⟩ := hsame hl
      exact endCall_owns (C := C) (fun sh v h => hown hl (hS sh v h))
        ⟨hh.trans hidle.hand, by rw [ho, hc]; exact hidle.cursor, by rw [ho, hb]; exact hidle.batch⟩
    · rintro sh l o v ⟨⟨ho, -⟩, hl⟩ - h
      refine (hown hl h).before ?_
      rintro b rfl
      exact absurd (hop ho) (by simp [Op.moves])
    · rintro sh sh' l o r v ⟨⟨ho, -⟩, hl⟩ - hj he
      obtain ⟨hb, hh, -, -, hc⟩ := hsame hl
      exact ⟨(hj.toBase.of_frame (Op.exec_moveFrame (hop ho) he)).of_main ⟨hb.symm, hh.symm⟩
        (by rw [← hc, (Op.exec_moveFrame (hop ho) he).count]; exact hj.toBase.room), hj.io⟩

end MainThread

/-! ### Over whole runs -/

/-- The runs in which the main thread follows each acquire by exactly one release before the next acquire. -/
def acquireThenRelease : ServiceCond where
  run₂ call _ _ w := call.inTurn w.loc

/-- The invariant of events and read buffers in every state that such a run reaches. -/
theorem ownership {c : ServiceConfig} (h : ReachWhen acquireThenRelease n c) :
    Ownership n c.sh c.fst.view c.snd.view := by
  refine Machine.Reach.invariant (K := fun _ v _ => IoInv n ⟨False, False, False⟩ v.loc)
    (fun c hc => (ioInv ⟨False.elim, False.elim, False.elim, False.elim⟩ hc).1) ?_ ?_ ?_ h
  · refine ⟨⟨?_, ?_, Nat.zero_le _, by simp [Shared.setup]⟩, ⟨fun _ => rfl, by simp, by simp⟩,
      ⟨fun _ => ⟨rfl, by simp, fun _ => rfl⟩, by simp⟩⟩
    · simp [Shared.setup, Io.setup, Main.batch]
    · have hnone : ∀ i, ((Io.setup n).link i).readBuffer = none := by
        intro i
        simp only [Io.setup, Io.link]
        split <;> rfl
      simp [Shared.setup, Shared.carried, Io.linkBuffers, hnone, Main.batch]
  · rintro d io ⟨sh₀, w₀, hi, hj, hr, -⟩
    exact IoRun.owns hi hr (fun sh w h => ⟨h.2.1.toBase, h.2.1.main⟩) (hj.io.idle rfl)
  · rintro call m ⟨sh₀, v₀, -, hj, -, hturn⟩
    exact MainCall.owns call hturn (hj.main.idle rfl) fun sh v h => ⟨h.2.1.toBase, h.2.1.io⟩

/-! ### What a step leaves alone -/

/-- Only a pop from the free list and a push to the ready list change an event. -/
theorem Op.exec_events {o : Op} {r : o.Res} (h : o.exec sh = some (r, sh')) {e : Nat} (hf : e ∉ sh.eventFree)
    (hp : o.readied ≠ some e) : sh'.events e = sh.events e := by
  cases o <;> simp only [Op.exec] at h
  case eventFreePop type =>
    split at h <;> obtain ⟨-, rfl⟩ := Prod.mk.inj (Option.some.inj h)
    · rfl
    · rename_i hfree
      have hne : e ≠ _ := fun he => hf (by rw [hfree, he]; exact List.mem_cons_self ..)
      exact Function.update_of_ne hne _ _
  case eventReadyPush e' evt =>
    have hne : e ≠ e' := fun he => hp (he ▸ rfl)
    split at h <;> obtain ⟨-, rfl⟩ := Prod.mk.inj (Option.some.inj h) <;> exact Function.update_of_ne hne _ _
  all_goals
    first
    | (obtain ⟨-, rfl⟩ := Prod.mk.inj (Option.some.inj h); rfl)
    | (split at h <;> first
        | (obtain ⟨-, rfl⟩ := Prod.mk.inj (Option.some.inj h); rfl)
        | (split at h <;> first
            | (obtain ⟨-, rfl⟩ := Prod.mk.inj (Option.some.inj h); rfl)
            | simp at h))

/-- Only a pop from the pool and a read into a buffer change a buffer. -/
theorem Op.exec_buffers {o : Op} {r : o.Res} (h : o.exec sh = some (r, sh')) {b : Nat} (hf : b ∉ sh.poolRead)
    (hw : o.written ≠ some b) : sh'.buffers b = sh.buffers b := by
  cases o <;> simp only [Op.exec] at h
  case poolReadPop =>
    split at h <;> obtain ⟨-, rfl⟩ := Prod.mk.inj (Option.some.inj h)
    · rfl
    · rename_i hpool
      have hne : b ≠ _ := fun he => hf (by rw [hpool, he]; exact List.mem_cons_self ..)
      exact Function.update_of_ne hne _ _
  case bufferStore b' bytes =>
    have hne : b ≠ b' := fun he => hw (he ▸ rfl)
    obtain ⟨-, rfl⟩ := Prod.mk.inj (Option.some.inj h)
    exact Function.update_of_ne hne _ _
  case bufferAddLength b' k =>
    have hne : b ≠ b' := fun he => hw (he ▸ rfl)
    split at h <;> obtain ⟨-, rfl⟩ := Prod.mk.inj (Option.some.inj h)
    · rfl
    · exact Function.update_of_ne hne _ _
  all_goals
    first
    | (obtain ⟨-, rfl⟩ := Prod.mk.inj (Option.some.inj h); rfl)
    | (split at h <;> first
        | (obtain ⟨-, rfl⟩ := Prod.mk.inj (Option.some.inj h); rfl)
        | (split at h <;> first
            | (obtain ⟨-, rfl⟩ := Prod.mk.inj (Option.some.inj h); rfl)
            | simp at h))

variable {c c' : ServiceConfig}

/-- The events that are ready, and those that are acquired and not released. -/
def heldEvents (c : ServiceConfig) : List Nat := c.sh.eventReady ++ c.snd.view.loc.batch

/-- From `c` to `c'` the event `e` and the bytes of its read buffer stay as they are. -/
def BytesKept (e : Nat) (c c' : ServiceConfig) : Prop :=
  c'.sh.events e = c.sh.events e ∧ ∀ b, (c.sh.events e).readBuffer = some b → c'.sh.buffers b = c.sh.buffers b

/-- Along the steps, as long as they are possible, the event `e` is held before each of them. -/
def heldAlong (e : Nat) : ServiceConfig → List (Act IoRun MainCall) → Bool
  | _, [] => true
  | c, a :: as => decide (e ∈ heldEvents c) && (service.step c a).all fun c' => heldAlong e c' as

/-- One operation leaves a held event and its bytes alone. -/
theorem exec_bytesKept {o : Op} {r : o.Res} (ho : Ownership n sh v w) (he : o.exec sh = some (r, sh')) {e : Nat}
    (hheld : e ∈ sh.eventReady ++ w.loc.batch) (hpush : ∀ e', o.readied = some e' → v.loc.hand = some e')
    (hwrite : ∀ b, o.written = some b → b ∈ v.loc.linkBuffers n) :
    sh'.events e = sh.events e ∧ ∀ b, (sh.events e).readBuffer = some b → sh'.buffers b = sh.buffers b := by
  have hnd := ho.toBase.nodup
  refine ⟨Op.exec_events he ?_ ?_, fun b hb => Op.exec_buffers he ?_ ?_⟩
  · intro hf
    rw [List.append_assoc sh.eventFree, List.append_assoc sh.eventFree] at hnd
    exact (List.nodup_append.1 hnd).2.2 e hf e (by simp only [List.mem_append] at hheld ⊢; tauto) rfl
  · intro hr
    have hhand := hpush e hr
    refine (List.nodup_append.1 hnd).2.2 e ?_ e (by simp [hhand]) rfl
    simp only [List.mem_append] at hheld ⊢
    tauto
  all_goals
    have hnb := ho.toBase.buffers.nodup_iff.2 List.nodup_range
    have hcb : b ∈ sh.carried (sh.eventReady ++ w.loc.batch) := List.mem_filterMap.2 ⟨e, hheld, hb⟩
    have hdis := (List.nodup_append.1 hnb).2.2
  · exact fun hf => hdis b (List.mem_append_left _ hf) b hcb rfl
  · exact fun hw => hdis b (List.mem_append_right _ (hwrite b hw)) b hcb rfl

/-- One step leaves a held event and its bytes alone. -/
private theorem step_bytesKept (hc : ReachWhen acquireThenRelease n c) {a : Act IoRun MainCall}
    (hs : service.step c a = some c') {e : Nat} (he : e ∈ heldEvents c) : BytesKept e c c' := by
  have ho := ownership hc
  have hmain := (next_by hc).2
  cases a with
  | run₁ d =>
    obtain ⟨l, -, -, rfl⟩ := Machine.step_run₁ hs
    exact ⟨rfl, fun _ _ => rfl⟩
  | run₂ d =>
    obtain ⟨l, -, -, rfl⟩ := Machine.step_run₂ hs
    exact ⟨rfl, fun _ _ => rfl⟩
  | op₁ =>
    cases hp : c.fst with
    | ret l x => simp [Machine.step, hp] at hs
    | act l o k =>
      obtain ⟨r, sh', hx, rfl⟩ := Machine.step_op₁ hp hs
      rw [hp] at ho
      exact exec_bytesKept ho hx he (ho.io.pushing o · rfl) (ho.io.writing o · rfl)
  | op₂ =>
    cases hp : c.snd with
    | ret l x => simp [Machine.step, hp] at hs
    | act l o k =>
      obtain ⟨r, sh', hx, rfl⟩ := Machine.step_op₂ hp hs
      rw [hp] at hmain
      have hby := hmain o rfl
      refine exec_bytesKept ho hx he ?_ ?_ <;> cases o <;> simp_all [Op.byMain, Op.readied, Op.written]

/-- Events and read buffers are conserved and owned by one holder each, and the bytes of a `READ` event stay as they
are until it is released. -/
theorem events_conserved (hc : ReachWhen acquireThenRelease n c) :
    Ownership.Base n c.sh c.fst.view.loc c.snd.view.loc ∧
      ∀ e as c', service.runWhen acquireThenRelease c as = some c' → heldAlong e c as = true → BytesKept e c c' := by
  refine ⟨(ownership hc).toBase, fun e as => ?_⟩
  induction as generalizing c with
  | nil =>
    rintro c' hr -
    cases hr
    exact ⟨rfl, fun _ _ => rfl⟩
  | cons a as ih =>
    intro c' hr hh
    obtain ⟨ha, hr⟩ := Option.ite_none_right_eq_some.1 hr
    obtain ⟨c₁, h₁, hr⟩ := Option.bind_eq_some_iff.1 hr
    simp only [heldAlong, Bool.and_eq_true, decide_eq_true_eq] at hh
    have hk₁ := step_bytesKept hc h₁ hh.1
    have hk := ih (hc.step a ha h₁) c' hr (by simpa [h₁] using hh.2)
    exact ⟨hk.1.trans hk₁.1, fun b hb => (hk.2 b (by rw [hk₁.1]; exact hb)).trans (hk₁.2 b hb)⟩

/-- The main thread has acquired the `OPEN` and the `READ` event of a client, whose next bytes then go to another read
buffer. -/
theorem events_conserved_acquired : ∃ c c', ReachWhen acquireThenRelease 1 c ∧
    (c.sh.events 1).readBuffer = some 0 ∧ c.sh.eventReady = [] ∧ c.snd.view.loc.batch = [0, 1] ∧
    Ownership.Base 1 c.sh c.fst.view.loc c.snd.view.loc ∧
    service.runWhen acquireThenRelease c ((.run₁ (.read 5 (.data [7, 8])) : Act IoRun MainCall) ::
      List.replicate 7 .op₁) = some c' ∧ c'.sh.eventReady = [2] ∧ BytesKept 1 c c' := by
  obtain ⟨c, hc, ⟨hb, hr, hm⟩, hheld, hf⟩ := exists_reachWhen acquireThenRelease 1
    (.flatten [startUp, [.run₁ (.inbound 0 {}), .op₁, .op₁, .run₁ (.read 5 (.data [1, 2, 3]))], .replicate 7 .op₁,
      [.run₂ .eventsAcquire, .op₂]])
    (fun c => ((c.sh.events 1).readBuffer = some 0 ∧ c.sh.eventReady = [] ∧ c.snd.view.loc.batch = [0, 1]) ∧
      heldAlong 1 c ((.run₁ (.read 5 (.data [7, 8])) : Act IoRun MainCall) :: List.replicate 7 .op₁) = true ∧
      (service.runWhen acquireThenRelease c ((.run₁ (.read 5 (.data [7, 8])) : Act IoRun MainCall) ::
        List.replicate 7 .op₁)).any (fun c' => decide (c'.sh.eventReady = [2])) = true)
    (by decide +kernel)
  obtain ⟨c', hrun, hready⟩ := (Option.any_eq_true _ _).1 hf
  obtain ⟨hbase, hkept⟩ := events_conserved hc
  exact ⟨c, c', hc, hb, hr, hm, hbase, hrun, of_decide_eq_true hready, hkept 1 _ c' hrun hheld⟩

end ServerLynx
