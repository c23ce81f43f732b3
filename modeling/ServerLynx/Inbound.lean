import ServerLynx.ConnectionProtocol
import ServerLynx.EventDelivery

/-!
# From the socket to the main thread

What libuv has received on a connection reaches the main thread in its `READ` events: in order, without a gap and
without a byte twice, and all of it by the time the main thread acquires the `CLOSE` event.  This takes a main thread
that follows each acquire by one release, and no connection that closes while its read buffer has unread bytes.
-/

namespace ServerLynx

open Threads

/-- The bytes of the `READ` events about the connection `h` that the main thread has acquired. -/
def acquiredBytes (c : ServiceConfig) (h : Nat) : List UInt8 :=
  readBytes (c.sh.readied.take c.sh.acquired) (c.fst.view.loc.pushed.take c.sh.acquired) h

/-- The runs in which the main thread follows each acquire by one release and the pool gets no read buffer back from a
link with unread bytes. -/
def wholeReads : ServiceCond where
  op₁ sh v _ := match v.next with
    | some (.poolReadPush b) => decide ((sh.buffers b).readLength = 0)
    | _ => true
  run₂ call _ _ w := call.inTurn w.loc

variable {n : Nat} {E : Premises} {io l : Io} {h i b : Nat} {c : ServiceConfig} {cond : ServiceCond}

/-! ### Read buffers of links -/

/-- Handles hold links of the list only, and the records behind the list have no read buffer. -/
structure LinksBounded (n : Nat) (io : Io) : Prop where
  lt : ∀ h i, (io.handles h).Holds i → i < n
  outside : ∀ j, n ≤ j → (io.link j).readBuffer = none

namespace LinksBounded

/-- Handles hold no link that none held, and the records behind the list stay. -/
theorem fewer (hb : LinksBounded n io) (hh : ∀ h i, (l.handles h).Holds i → i < n ∨ ∃ h', (io.handles h').Holds i)
    (hl : ∀ j, n ≤ j → (l.link j).readBuffer = (io.link j).readBuffer) : LinksBounded n l where
  lt h i hi := (hh h i hi).elim id fun ⟨h', hi'⟩ => hb.lt h' i hi'
  outside j hj := (hl j hj).trans (hb.outside j hj)

/-- The connection of the handle `h` and the link `i` changes. -/
theorem onConn {Q : Pushed → Prop} (hb : LinksBounded n io) (hh : (io.handles h).Holds i) (hl : OnConn Q h i io l) :
    LinksBounded n l := by
  refine hb.fewer (fun h' j hj => .inr ?_) fun j hj => ?_
  · by_cases hne : h' = h
    · subst hne
      obtain rfl : j = i := Option.some.inj (hj.data.symm.trans (hl.handle.data.trans hh.data))
      exact ⟨h', hh⟩
    · exact ⟨h', hl.handles h' hne ▸ hj⟩
  · have hlt := hb.lt h i hh
    rw [hl.links j (by omega)]

/-- A handle is made. -/
theorem made (hb : LinksBounded n io) {x : Handle} (hx : l.handles = Function.update io.handles io.handleCount x)
    (hlt : ∀ i, x.Holds i → i < n) (hl : ∀ j, n ≤ j → l.link j = io.link j) : LinksBounded n l := by
  refine hb.fewer (fun h i hi => ?_) fun j hj => by rw [hl j hj]
  by_cases hne : h = io.handleCount
  · subst hne
    rw [hx, Function.update_self] at hi
    exact .inl (hlt i hi)
  · rw [hx, Function.update_of_ne hne] at hi
    exact .inr ⟨h, hi⟩

theorem setHandle (hb : LinksBounded n io) {f : Handle → Handle} (hl : l.handles = (io.setHandle h f).handles)
    (hk : l.linkList.clientMap = io.linkList.clientMap)
    (hf : ∀ i, (f (io.handles h)).Holds i → (io.handles h).Holds i) : LinksBounded n l := by
  refine hb.fewer (fun h' i hi => .inr ?_) fun j _ => by rw [Io.link, hk, Io.link]
  rw [hl] at hi
  by_cases hne : h' = h
  · subst hne
    rw [Io.setHandle_handles_self] at hi
    exact ⟨h', hf i hi⟩
  · rw [show (io.setHandle h f).handles h' = io.handles h' from Function.update_of_ne hne _ _] at hi
    exact ⟨h', hi⟩

end LinksBounded

private theorem linksBounded_runs : KeptByRuns n E (LinksBounded n) := by
  have hfree : ∀ {io : Io} {i : Nat} {list : LinkList}, IoInv n E io →
      io.linkList.svlLinkListOpen = some (i, list) → i < n := by
    intro io i list hi ho
    exact hi.slots.free_lt i (by simp [(LinkList.svlLinkListOpen_eq_some.1 ho).1])
  have hstray : ∀ {io l : Io} {cmd : Option Cmd}, IoInv n E io → LinksBounded n io → MadeStray cmd io l →
      LinksBounded n l := by
    intro io l cmd hi hb hl
    obtain ⟨x, hx, -, hh⟩ := hl.handles
    refine hb.made hh (fun i hold => ?_) fun j hj => hl.links j fun hm => ?_
    · obtain ⟨⟨-, -, hinit, hc⟩, -⟩ := hold
      rw [hx.closing hinit] at hc
      simp at hc
    · have := hi.slots.free_lt j hm
      omega
  exact {
    same := fun hb hs => hb.fewer (fun h i hi => .inr ⟨h, hs.handles ▸ hi⟩) fun j _ => by
      rw [Io.link, hs.links, Io.link]
    conn := fun hb hh hl => hb.onConn hh hl
    closed := by
      intro io l h i hb hh _ hl
      obtain ⟨l', list, log, refused, hl', hmap, rfl⟩ := hl
      exact (hb.onConn hh hl').setHandle (h := h) (f := fun x => { x with released := x.released + 1 }) rfl hmap
        fun i hi => absurd hi.2 (by simp)
    stray := fun hi hb hl => hstray hi hb hl
    madeStray := fun hi hb hl => hstray hi hb hl
    attach := by
      intro io i list hi hb ho
      refine hb.made (x := { kind := .tcpClient, loop := io.loop, isInit := true, data := some i }) rfl
        (fun j hj => ?_) fun j hj => ?_
      · obtain rfl : i = j := Option.some.inj hj.data
        exact hfree hi ho
      · have := hfree hi ho
        exact Io.attach_link_ne ho (by omega) _ _
    dialled := by
      intro io l cmd i list hi hb ho hl
      refine hb.made hl.handles (fun j hj => ?_) fun j hj => ?_
      · obtain rfl : i = j := Option.some.inj hj.data
        exact hfree hi ho
      · have := hfree hi ho
        exact hl.links j (by omega)
    finish := fun hb _ => hb.setHandle rfl rfl fun _ hi => hi
    release := fun hb _ => hb.setHandle rfl rfl fun i hi => absurd hi.2 (by simp)
    connected := fun q h hb => hb.setHandle (h := h) (f := fun x => { x with connecting := false }) rfl rfl
      fun _ hi => hi
    closedBy := by
      intro io i h cmd hb hh
      have hlt := hb.lt h i hh
      refine hb.fewer (fun h' j hj => .inr ?_) fun j hj => ?_
      · by_cases hne : h' = h
        · subst hne
          have hd : ((io.closedBy cmd i h').handles h').data = some i := by
            simp [Io.closedBy, Io.uvClose, Io.setHandle, Io.setLink, hh.data]
          exact ⟨h', Option.some.inj (hd.symm.trans hj.data) ▸ hh⟩
        · refine ⟨h', ?_⟩
          rwa [show (io.closedBy cmd i h).handles h' = io.handles h' by
            simp [Io.closedBy, Io.uvClose, Io.setHandle, Io.setLink, Function.update_of_ne hne]] at hj
      · have hne : j ≠ i := by omega
        simp [Io.closedBy, Io.uvClose, Io.setHandle, Io.setLink, Io.link, Function.update_of_ne hne]
    service := fun hb hm => hb.fewer (fun h i hi => .inr ⟨h, hm.holds h i hi⟩) fun j _ => by
      rw [Io.link, hm.links, Io.link] }

theorem links_bounded (hc : ReachWhen cond n c) : LinksBounded n c.fst.view.loc := by
  refine linksBounded_runs.reach ⟨fun h i hi => absurd hi.1 (Handle.not_given_of_data rfl i), fun j _ => ?_⟩ hc
  simp only [Io.setup, Io.link]
  split <;> rfl

/-- The read buffer of a connection is one of those of the links. -/
theorem heldBuffer_mem (hc : ReachWhen cond n c) (hb : c.fst.view.loc.heldBuffer h = some b) :
    b ∈ c.fst.view.loc.linkBuffers n := by
  obtain ⟨i, -, hi⟩ := Option.bind_eq_some_iff.1 hb
  obtain ⟨-, hbuf⟩ := Option.ite_none_right_eq_some.1 hi
  have hlt : i < n := by
    by_contra hge
    rw [(links_bounded hc).outside i (Nat.le_of_not_lt hge)] at hbuf
    simp at hbuf
  exact List.mem_filterMap.2 ⟨i, List.mem_range.2 hlt, hbuf⟩

/-! ### The premises -/

theorem wholeReads_acquire (hc : ReachWhen wholeReads n c) : ReachWhen acquireThenRelease n c :=
  hc.weaken fun _ a _ ha => by cases a <;> first | exact ha | rfl

/-- In such a run the pool hands out no read buffer that a link holds. -/
theorem wholeReads_received (hc : ReachWhen wholeReads n c) : ReachWhen readsPushedBeforeClose n c := by
  refine hc.weaken fun c a hr ha => ?_
  cases a with
  | op₁ =>
    have ha' : wholeReads.op₁ c.sh c.fst.view c.snd.view = true := ha
    show readsPushedBeforeClose.op₁ c.sh c.fst.view c.snd.view = true
    simp only [wholeReads, readsPushedBeforeClose] at ha' ⊢
    split
    · cases hp : c.sh.poolRead with
      | nil => rfl
      | cons b bs =>
        simp only [List.head?_cons, Option.all_some, decide_eq_true_eq]
        intro h _ hh
        have hnd := (ownership (wholeReads_acquire hr)).buffers.nodup_iff.2 List.nodup_range
        rw [hp, List.append_assoc, List.cons_append, List.nodup_cons] at hnd
        exact hnd.1 (List.mem_append_right _ (List.mem_append_left _ (heldBuffer_mem hr hh)))
    · rename_i b hnext
      simpa [hnext] using ha'
    · rfl
  | _ => rfl

/-! ### Whole runs -/

/-- Nothing follows the `CLOSE` of a connection. -/
theorem ConnWord.nil_of_closed {u w : List EventType} (hw : ConnWord (u ++ w)) (hu : .clientClose ∈ u) : w = [] := by
  have hlast : ∀ {x : List EventType}, .clientClose ∉ x → u ++ w = x ++ [.clientClose] → w = [] := by
    intro x hx he
    rcases List.eq_nil_or_concat w with rfl | ⟨w', t, rfl⟩
    · rfl
    · rw [List.concat_eq_append, ← List.append_assoc] at he
      exact absurd (List.mem_append_left w' hu) ((List.append_inj_left' he rfl).symm ▸ hx)
  have hmem : .clientClose ∈ u ++ w := List.mem_append_left w hu
  generalize hv : u ++ w = v at hw hmem
  cases hw with
  | nil => simp at hmem
  | unannounced => exact hlast (x := []) (by simp) hv
  | opened reads => simp at hmem
  | closed reads => exact hlast (x := .clientOpen :: List.replicate reads .clientRead) (by simp) hv

/-- Where no event is about the connection `h`, none has bytes of it. -/
theorem readBytes_of_connEvents {readied : List Readied} {pushed : List Pushed} (hn : connEvents pushed h = []) :
    readBytes readied pushed h = [] := by
  have hnone : (readied.zip pushed).filter (fun x => decide (x.2.conn = h) && decide (x.2.evt.type = .clientRead)) =
      [] := by
    rw [List.filter_eq_nil_iff]
    rintro ⟨r, p⟩ hm
    have hne : p.conn ≠ h := by
      intro he
      have := mem_connEvents.2 ⟨p, (List.of_mem_zip hm).2, he, rfl⟩
      simp [hn] at this
    simp [hne]
  simp [readBytes, hnone]

/-- What the main thread has acquired of a connection is the first part of what libuv received on it, and all of it once
the `CLOSE` of the connection is acquired. -/
theorem inbound_bytes (hc : ReachWhen wholeReads n c) (h : Nat) :
    acquiredBytes c h <+: c.fst.view.loc.received h ∧
      (.clientClose ∈ connEvents (c.fst.view.loc.pushed.take c.sh.acquired) h →
        acquiredBytes c h = c.fst.view.loc.received h) := by
  have hr := received (wholeReads_received hc)
  have hlen := (in_sync hc).length_eq
  have hsplit : readBytes c.sh.readied c.fst.view.loc.pushed h = acquiredBytes c h ++
      readBytes (c.sh.readied.drop c.sh.acquired) (c.fst.view.loc.pushed.drop c.sh.acquired) h := by
    rw [acquiredBytes, ← readBytes_append (by simp [hlen]), List.take_append_drop, List.take_append_drop]
  have hbytes := hr.bytes h
  rw [hsplit] at hbytes
  refine ⟨hbytes ▸ List.append_assoc .. ▸ List.prefix_append _ _, fun hclosed => ?_⟩
  -- nothing follows the `CLOSE`, and the link has no read buffer from then on
  have hword := (connsInTurn hc).words h
  rw [← List.take_append_drop c.sh.acquired c.fst.view.loc.pushed, connEvents, List.filter_append, List.map_append]
    at hword
  have hrest : readBytes (c.sh.readied.drop c.sh.acquired) (c.fst.view.loc.pushed.drop c.sh.acquired) h = [] :=
    readBytes_of_connEvents (hword.nil_of_closed hclosed)
  obtain ⟨p, hp, rfl, ht⟩ := mem_connEvents.1 hclosed
  have hheld := hr.closed p (List.mem_of_mem_take hp) ht
  rw [hbytes, hrest, hheld]
  simp

/-- A client sends five bytes and closes; the main thread releases the first three before it acquires the rest. -/
theorem inbound_bytes_closed : ∃ c, ReachWhen wholeReads 1 c ∧
    .clientClose ∈ connEvents (c.fst.view.loc.pushed.take c.sh.acquired) 5 ∧ acquiredBytes c 5 = [1, 2, 3, 7, 8] ∧
    acquiredBytes c 5 = c.fst.view.loc.received 5 := by
  obtain ⟨c, hc, hclosed, hbytes⟩ := exists_reachWhen wholeReads 1
    (.flatten [startUp, [.run₁ (.inbound 0 {}), .op₁, .op₁], .run₁ (.read 5 (.data [1, 2, 3])) :: .replicate 7 .op₁,
      [.run₂ .eventsAcquire, .op₂], .run₂ .eventsRelease :: .replicate 5 .op₂,
      .run₁ (.read 5 (.data [7, 8])) :: .replicate 7 .op₁,
      [.run₁ (.read 5 (.error 0)), .op₁, .op₁, .run₁ (.close 5), .op₁, .op₁, .op₁, .run₂ .eventsAcquire, .op₂]])
    (fun c => .clientClose ∈ connEvents (c.fst.view.loc.pushed.take c.sh.acquired) 5 ∧
      acquiredBytes c 5 = [1, 2, 3, 7, 8]) (by decide +kernel)
  exact ⟨c, hc, hclosed, hbytes, (inbound_bytes hc 5).2 hclosed⟩

end ServerLynx
