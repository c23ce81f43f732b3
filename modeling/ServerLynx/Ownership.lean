import ServerLynx.IoRun
import ServerLynx.Kinds

/-!
# Who holds an event and who holds a read buffer

Each event is in the free list, in the ready list, in the batch that the main thread has acquired, or in the hands of
one thread.  Each read buffer is in the pool, with one link, or with one `READ` event that is ready or acquired.
`Ownership.Base` says so by permutations, and each lemma about it is one hand-over: what a push, a pop, an acquire or
a release moves from one holder to another.
-/

namespace ServerLynx

/-! ### The holders -/

/-- The read buffer that an event carries: only `READ` events carry one. -/
def Event.readBuffer (evt : Event) : Option Nat := if evt.type = .clientRead then evt.priv else none

/-- The read buffers that the events of a list carry. -/
def Shared.carried (sh : Shared) (es : List Nat) : List Nat := es.filterMap fun e => (sh.events e).readBuffer

/-- The read buffers of the links. -/
def Io.linkBuffers (io : Io) (n : Nat) : List Nat := (List.range n).filterMap fun i => (io.link i).readBuffer

/-- The acquired events that have not been released. -/
def Main.batch (m : Main) : List Nat := (m.eventUpdates.take m.eventUpdatesCount).drop m.cursor

/-- Every event and every read buffer has one holder, an acquired batch is not larger than the pool, and no push was
refused. -/
structure Ownership.Base (n : Nat) (sh : Shared) (io : Io) (m : Main) : Prop where
  events : (sh.eventFree ++ sh.eventReady ++ m.batch ++ (io.hand.toList ++ m.hand.toList)).Perm
    (List.range sh.bufferCount)
  buffers : (sh.poolRead ++ io.linkBuffers n ++ sh.carried (sh.eventReady ++ m.batch)).Perm
    (List.range sh.bufferCount)
  room : m.eventUpdatesCount ≤ sh.bufferCount
  refused : .eventFree ∉ sh.refused ∧ .eventReady ∉ sh.refused ∧ .poolRead ∉ sh.refused

/-- The operations that hand an event or a read buffer over. -/
def Op.moves : Op → Bool
  | .eventFreePop _ | .eventReadyPush _ _ | .eventReadyPopAll | .eventFreePush _ | .poolReadPop | .poolReadPush _ =>
    true
  | _ => false

/-- The event lists and the pool of read buffers are the same, and they have refused nothing new. -/
structure MoveFrame (sh sh' : Shared) : Prop where
  count : sh'.bufferCount = sh.bufferCount
  events : sh'.events = sh.events
  free : sh'.eventFree = sh.eventFree
  ready : sh'.eventReady = sh.eventReady
  pool : sh'.poolRead = sh.poolRead
  refused : ∀ x ∈ sh'.refused, x = .eventFree ∨ x = .eventReady ∨ x = .poolRead → x ∈ sh.refused

variable {n : Nat} {sh sh' : Shared} {io l : Io} {m m' : Main}

/-- The other operations leave the holders as they are. -/
theorem Op.exec_moveFrame {o : Op} (ho : o.moves = false) {r : o.Res} (h : o.exec sh = some (r, sh')) :
    MoveFrame sh sh' := by
  cases o <;> simp only [Op.moves, Bool.true_eq_false] at ho <;> simp only [Op.exec] at h
  all_goals
    first
    | (obtain ⟨-, rfl⟩ := Prod.mk.inj (Option.some.inj h); exact ⟨rfl, rfl, rfl, rfl, rfl, fun _ hx _ => hx⟩)
    | (split at h <;> first
        | (obtain ⟨-, rfl⟩ := Prod.mk.inj (Option.some.inj h)
           refine ⟨rfl, rfl, rfl, rfl, rfl, fun x hx ho => ?_⟩
           simp only [List.mem_cons] at hx
           rcases hx with rfl | hx
           · simp at ho
           · exact hx)
        | (obtain ⟨-, rfl⟩ := Prod.mk.inj (Option.some.inj h); exact ⟨rfl, rfl, rfl, rfl, rfl, fun _ hx _ => hx⟩)
        | (split at h <;> first
            | (obtain ⟨-, rfl⟩ := Prod.mk.inj (Option.some.inj h); exact ⟨rfl, rfl, rfl, rfl, rfl, fun _ hx _ => hx⟩)
            | simp at h))

/-! ### Read buffers of links -/

/-- Between `io` and `l` no event was taken, and no link got or lost a read buffer. -/
structure SameBuffers (io l : Io) : Prop where
  hand : l.hand = io.hand
  buffers : ∀ i, (l.link i).readBuffer = (io.link i).readBuffer

instance : IsPreorder Io SameBuffers where
  refl _ := ⟨rfl, fun _ => rfl⟩
  trans _ _ _ h h' := ⟨h'.hand.trans h.hand, fun i => (h'.buffers i).trans (h.buffers i)⟩

theorem SameBuffers.linkBuffers (h : SameBuffers io l) : l.linkBuffers n = io.linkBuffers n := by
  simp only [Io.linkBuffers, h.buffers]

private theorem linkBuffers_perm {i : Nat} (hi : i < n) (io : Io) : (io.linkBuffers n).Perm
    ((io.link i).readBuffer.toList ++ ((List.range n).erase i).filterMap fun j => (io.link j).readBuffer) := by
  have h := (List.perm_cons_erase (List.mem_range.2 hi)).filterMap fun j => (io.link j).readBuffer
  refine h.trans (List.Perm.of_eq ?_)
  cases hb : (io.link i).readBuffer <;> simp [hb]

/-- The link `i` exchanges its read buffer. -/
theorem linkBuffers_exchange {i : Nat} (hi : i < n) (h : ∀ j, j ≠ i → (l.link j).readBuffer = (io.link j).readBuffer) :
    ((io.link i).readBuffer.toList ++ l.linkBuffers n).Perm ((l.link i).readBuffer.toList ++ io.linkBuffers n) := by
  have hrest : (((List.range n).erase i).filterMap fun j => (l.link j).readBuffer) =
      ((List.range n).erase i).filterMap fun j => (io.link j).readBuffer := by
    refine List.filterMap_congr fun j hj => h j ?_
    rintro rfl
    exact List.nodup_range.not_mem_erase hj
  have hl := linkBuffers_perm hi l
  have hio := linkBuffers_perm hi io
  rw [hrest] at hl
  grind

theorem setLink_buffers_ne {i : Nat} (io : Io) (f : Link → Link) (j : Nat) (hj : j ≠ i) :
    ((io.setLink i f).link j).readBuffer = (io.link j).readBuffer := by
  simp [Io.setLink, Io.link, Function.update_of_ne hj]

/-- The link `i`, which had no read buffer, gets `b`. -/
theorem linkBuffers_give {i b : Nat} (hi : i < n) (hb : (io.link i).readBuffer = none) (f : Link → Link)
    (hf : (f (io.link i)).readBuffer = some b) : ((io.setLink i f).linkBuffers n).Perm (b :: io.linkBuffers n) := by
  have h := linkBuffers_exchange hi (setLink_buffers_ne io f)
  simpa [hb, hf] using h

/-- The link `i` gives its read buffer away. -/
theorem linkBuffers_take {i b : Nat} (hi : i < n) (hb : (io.link i).readBuffer = some b) (f : Link → Link)
    (hf : (f (io.link i)).readBuffer = none) : (io.linkBuffers n).Perm (b :: (io.setLink i f).linkBuffers n) := by
  have h := linkBuffers_exchange hi (setLink_buffers_ne io f)
  have h' : (b :: (io.setLink i f).linkBuffers n).Perm (io.linkBuffers n) := by simpa [hb, hf] using h
  exact h'.symm

/-! ### Hand-overs -/

namespace Ownership.Base

theorem of_frame (hb : Base n sh io m) (h : MoveFrame sh sh') : Base n sh' io m where
  events := by rw [h.free, h.ready, h.count]; exact hb.events
  buffers := by
    simp only [Shared.carried, h.events, h.ready, h.count, h.pool]
    exact hb.buffers
  room := by rw [h.count]; exact hb.room
  refused := ⟨fun hm => hb.refused.1 (h.refused _ hm (.inl rfl)),
    fun hm => hb.refused.2.1 (h.refused _ hm (.inr (.inl rfl))),
    fun hm => hb.refused.2.2 (h.refused _ hm (.inr (.inr rfl)))⟩

theorem of_io (hb : Base n sh io m) (h : SameBuffers io l) : Base n sh l m where
  events := by rw [h.hand]; exact hb.events
  buffers := by rw [h.linkBuffers]; exact hb.buffers
  room := hb.room
  refused := hb.refused

theorem of_main (hb : Base n sh io m) (h : m'.batch = m.batch ∧ m'.hand = m.hand)
    (hc : m'.eventUpdatesCount ≤ sh.bufferCount) : Base n sh io m' where
  events := by rw [h.1, h.2]; exact hb.events
  buffers := by rw [h.1]; exact hb.buffers
  room := hc
  refused := hb.refused

/-- No event has two holders. -/
theorem nodup (hb : Base n sh io m) :
    (sh.eventFree ++ sh.eventReady ++ m.batch ++ (io.hand.toList ++ m.hand.toList)).Nodup :=
  hb.events.nodup_iff.2 List.nodup_range

/-- An event that is neither ready nor acquired may be rewritten. -/
theorem carried_update {e : Nat} {evt : Event} (he : e ∉ sh.eventReady ++ m.batch) :
    Shared.carried { sh with events := Function.update sh.events e evt } (sh.eventReady ++ m.batch) =
      sh.carried (sh.eventReady ++ m.batch) := by
  refine List.filterMap_congr fun e' he' => ?_
  have hne : e' ≠ e := fun h => he (h ▸ he')
  simp [Function.update_of_ne hne]

/-- The IO thread takes an event from the free list. -/
theorem popEvent (hb : Base n sh io m) {e : Nat} {es : List Nat} (hf : sh.eventFree = e :: es) (hh : io.hand = none)
    (hl : l.hand = some e) (hs : l.linkBuffers n = io.linkBuffers n) (evt : Event) :
    Base n { sh with eventFree := es, events := Function.update sh.events e evt } l m := by
  have he : e ∉ sh.eventReady ++ m.batch := by
    have hn := hb.nodup
    rw [hf] at hn
    simp only [List.cons_append, List.nodup_cons, List.mem_append, not_or] at hn
    simpa using ⟨hn.1.1.1.2, hn.1.1.2⟩
  refine ⟨?_, ?_, hb.room, hb.refused⟩
  · have h := hb.events
    rw [hf, hh] at h
    rw [hl]
    grind
  · rw [hs]
    exact (carried_update he).symm ▸ hb.buffers

/-- There is room in the ready list for an event in the hands of the IO thread. -/
theorem readyRoom (hb : Base n sh io m) {e : Nat} (hh : io.hand = some e) : sh.eventReady.length < sh.bufferCount := by
  have hlen := hb.events.length_eq
  rw [hh] at hlen
  simp only [List.length_append, List.length_range, Option.toList_some, List.length_cons] at hlen
  omega

/-- The IO thread pushes the event in its hands, with the read buffer that the link gives to it, if any. -/
theorem pushEvent (hb : Base n sh io m) {e : Nat} (hh : io.hand = some e) {evt : Event} (hl : l.hand = none)
    (hs : (io.linkBuffers n).Perm (evt.readBuffer.toList ++ l.linkBuffers n)) {readied : List Readied} :
    Base n { sh with
      events := Function.update sh.events e evt, eventReady := sh.eventReady ++ [e], readied := readied } l m := by
  have he : e ∉ sh.eventReady ++ m.batch := by
    have hn := hb.nodup
    rw [hh] at hn
    have hd := (List.nodup_append.1 hn).2.2
    intro hm
    exact hd e (by simp only [List.mem_append] at hm ⊢; tauto) e (by simp) rfl
  refine ⟨?_, ?_, hb.room, hb.refused⟩
  · have h := hb.events
    rw [hh] at h
    rw [hl]
    grind
  · have h := hb.buffers
    have hc : Shared.carried { sh with events := Function.update sh.events e evt } (sh.eventReady ++ m.batch) =
        sh.carried (sh.eventReady ++ m.batch) := carried_update he
    rw [← hc] at h
    have hnew : Shared.carried { sh with events := Function.update sh.events e evt } [e] = evt.readBuffer.toList := by
      cases hb : evt.readBuffer <;> simp [Shared.carried, hb]
    simp only [Shared.carried, List.filterMap_append] at h hnew ⊢
    grind

/-- A link gets a read buffer from the pool. -/
theorem popBuffer (hb : Base n sh io m) {b : Nat} {bs : List Nat} (hp : sh.poolRead = b :: bs) (hl : l.hand = io.hand)
    (hs : (l.linkBuffers n).Perm (b :: io.linkBuffers n)) (bufs : Nat → Buffer) :
    Base n { sh with poolRead := bs, buffers := bufs } l m := by
  refine ⟨by rw [hl]; exact hb.events, ?_, hb.room, hb.refused⟩
  have h := hb.buffers
  rw [hp] at h
  change (bs ++ l.linkBuffers n ++ sh.carried (sh.eventReady ++ m.batch)).Perm (List.range sh.bufferCount)
  grind

/-- There is room in the pool for the read buffer of a link. -/
theorem poolRoom (hb : Base n sh io m) {b : Nat} {bs : List Nat} (hs : (io.linkBuffers n).Perm (b :: bs)) :
    sh.poolRead.length < sh.bufferCount := by
  have hlen := hb.buffers.length_eq
  have hlen' := hs.length_eq
  simp only [List.length_append, List.length_range, List.length_cons] at hlen hlen'
  omega

/-- A link gives its read buffer back to the pool. -/
theorem pushBuffer (hb : Base n sh io m) {b : Nat} (hl : l.hand = io.hand)
    (hs : (io.linkBuffers n).Perm (b :: l.linkBuffers n)) : Base n { sh with poolRead := sh.poolRead ++ [b] } l m := by
  refine ⟨by rw [hl]; exact hb.events, ?_, hb.room, hb.refused⟩
  have h := hb.buffers
  change (sh.poolRead ++ [b] ++ l.linkBuffers n ++ sh.carried (sh.eventReady ++ m.batch)).Perm
    (List.range sh.bufferCount)
  grind

/-- The main thread acquires all ready events, before those that it may have still. -/
theorem acquire {y : Main} (hb : Base n sh io m) (h : y.batch = sh.eventReady ++ m.batch ∧ y.hand = m.hand)
    (hc : y.eventUpdatesCount = sh.eventReady.length + m.batch.length) {acquired : Nat} :
    Base n { sh with eventReady := [], acquired := acquired } io y := by
  have hlen := hb.events.length_eq
  simp only [List.length_append, List.length_range] at hlen
  refine ⟨?_, ?_, ?_, hb.refused⟩
  · rw [h.1, h.2]
    simpa using hb.events
  · rw [h.1]
    simpa [Shared.carried] using hb.buffers
  · change y.eventUpdatesCount ≤ sh.bufferCount
    omega

/-- The main thread takes the next event of its batch in its hands; the event carries no read buffer. -/
theorem takeEvent (hb : Base n sh io m) {e : Nat} {es : List Nat} (hm : m.batch = e :: es) (hh : m.hand = none)
    (he : (sh.events e).readBuffer = none) (h : m'.batch = es ∧ m'.hand = some e)
    (hc : m'.eventUpdatesCount ≤ m.eventUpdatesCount) : Base n sh io m' := by
  refine ⟨?_, ?_, Nat.le_trans hc hb.room, hb.refused⟩
  · have hev := hb.events
    rw [hm, hh] at hev
    rw [h.1, h.2]
    grind
  · have hbuf := hb.buffers
    rw [hm] at hbuf
    rw [h.1]
    simpa [Shared.carried, he] using hbuf

/-- There is room in the pool for the read buffer of an acquired event. -/
theorem poolRoom_of_batch (hb : Base n sh io m) {e b : Nat} {es : List Nat} (hm : m.batch = e :: es)
    (he : (sh.events e).readBuffer = some b) : sh.poolRead.length < sh.bufferCount := by
  have hlen := hb.buffers.length_eq
  rw [hm] at hlen
  simp only [Shared.carried, List.filterMap_append, List.filterMap_cons, he, List.length_append, List.length_range,
    List.length_cons] at hlen
  omega

/-- The main thread takes the next event of its batch in its hands and gives its read buffer back. -/
theorem takeReadEvent {y : Main} (hb : Base n sh io m) {e b : Nat} {es : List Nat} (hm : m.batch = e :: es)
    (hh : m.hand = none) (he : (sh.events e).readBuffer = some b) (h : y.batch = es ∧ y.hand = some e)
    (hc : y.eventUpdatesCount ≤ m.eventUpdatesCount) :
    Base n { sh with poolRead := sh.poolRead ++ [b] } io y := by
  refine ⟨?_, ?_, Nat.le_trans hc hb.room, hb.refused⟩
  · have hev := hb.events
    rw [hm, hh] at hev
    rw [h.1, h.2]
    grind
  · have hbuf := hb.buffers
    rw [hm] at hbuf
    rw [h.1]
    simp only [Shared.carried, List.filterMap_append, List.filterMap_cons, he] at hbuf ⊢
    grind

/-- There is room in the free list for the event in the hands of the main thread. -/
theorem freeRoom (hb : Base n sh io m) {e : Nat} (hh : m.hand = some e) : sh.eventFree.length < sh.bufferCount := by
  have hlen := hb.events.length_eq
  rw [hh] at hlen
  simp only [List.length_append, List.length_range, Option.toList_some, List.length_cons] at hlen
  omega

/-- The main thread gives the event in its hands back. -/
theorem freeEvent {y : Main} (hb : Base n sh io m) {e : Nat} (hh : m.hand = some e)
    (h : y.batch = m.batch ∧ y.hand = none) (hc : y.eventUpdatesCount = m.eventUpdatesCount) :
    Base n { sh with eventFree := sh.eventFree ++ [e] } io y := by
  refine ⟨?_, by rw [h.1]; exact hb.buffers, by rw [hc]; exact hb.room, hb.refused⟩
  have hev := hb.events
  rw [hh] at hev
  rw [h.1, h.2]
  grind

end Ownership.Base

end ServerLynx
