import ServerLynx.IoThread

/-!
# Links and their handles

A client handle *holds* the link it was given until its close callback has released it, or until a failed connect
has given the link back.  `Slots` relates the four structures that this involves: the free list, the link records,
the handles and the connect requests; `linkTurn` replays the calls on the link list.  The lemmas of this module say
what each update that a callback makes does to `Slots`; the callbacks themselves are in the next module.
-/

namespace ServerLynx

/-! ### Holding a link -/

/-- The handle was given the link `i`, and it closes by way of `on_close_link_cb` before it is released. -/
def Handle.Given (x : Handle) (i : Nat) : Prop :=
  x.kind = .tcpClient ∧ x.data = some i ∧ x.isInit = true ∧
    (x.closing = some .link ∨ x.closing = none ∧ x.released = 0)

/-- The handle was given the link `i` and has not been released since. -/
def Handle.Holds (x : Handle) (i : Nat) : Prop := x.Given i ∧ x.released = 0

instance (x : Handle) (i : Nat) : Decidable (x.Given i) := inferInstanceAs (Decidable (_ ∧ _ ∧ _ ∧ _))

instance (x : Handle) (i : Nat) : Decidable (x.Holds i) := inferInstanceAs (Decidable (_ ∧ _))

/-- libuv still owes a callback to the handle, in the loop `loop`. -/
def Handle.Live (x : Handle) (loop : Nat) : Prop :=
  x.closed = false ∧ x.loop = loop ∧ (x.isActive = true ∨ x.isClosing = true)

/-- One call on the link list, seen from the link `i`: whether `i` is taken, or `none` after a call out of turn. -/
def LinkOp.turn (i : Nat) : Option Bool → LinkOp → Option Bool
  | none, _ => none
  | some taken, .opened j => if j ≠ i then some taken else if taken then none else some true
  | some taken, .closed j => if j ≠ i then some taken else if taken then some false else none

/-- Whether the link `i` is taken after the calls of `log`; `none` if it was handed out while taken, or given back
while free. -/
def linkTurn (log : List LinkOp) (i : Nat) : Option Bool := log.foldl (LinkOp.turn i) (some false)

theorem linkTurn_append (log : List LinkOp) (op : LinkOp) (i : Nat) :
    linkTurn (log ++ [op]) i = LinkOp.turn i (linkTurn log i) op := by
  simp [linkTurn, List.foldl_append]

theorem Handle.Holds.data {x : Handle} {i : Nat} (h : x.Holds i) : x.data = some i := h.1.2.1

theorem Handle.Holds.inj {x : Handle} {i j : Nat} (h : x.Holds i) (h' : x.Holds j) : i = j :=
  Option.some.inj (h.data.symm.trans h'.data)

theorem Handle.not_given_of_data {x : Handle} (h : x.data = none) (i : Nat) : ¬ x.Given i :=
  fun hg => absurd hg.2.1 (by simp [h])

theorem Handle.not_given_of_kind {x : Handle} (h : x.kind ≠ .tcpClient) (i : Nat) : ¬ x.Given i :=
  fun hg => h hg.1

/-- `n` links, with their handles and connect requests. -/
structure Slots (n : Nat) (list : LinkList) (handles : Nat → Handle) (count : Nat) (reqs : Nat → ConnectReq)
    (log : List LinkOp) : Prop where
  max : list.clientsMax = n
  cap : list.clientListFree.cap = n
  ids : ∀ i < n, (list.clientMap i).id = i
  nodup : list.clientListFree.items.Nodup
  free_lt : ∀ i ∈ list.clientListFree.items, i < n
  free_buffer : ∀ i ∈ list.clientListFree.items, (list.clientMap i).readBuffer = none
  turns : ∀ i < n, linkTurn log i = some (decide (i ∉ list.clientListFree.items))
  fresh : ∀ h, count ≤ h → handles h = {}
  holds : ∀ h i, (handles h).Holds i →
    i < n ∧ i ∉ list.clientListFree.items ∧ (list.clientMap i).priv = some h
  opened : ∀ i < n, (list.clientMap i).state = .opened →
    ∃ h, (list.clientMap i).priv = some h ∧ (handles h).Holds i ∧ (handles h).closing = none
  reading : ∀ h, (handles h).reading = true → ∃ i, (handles h).Holds i ∧ (handles h).closing = none
  pending : ∀ q, (reqs q).pending = true → (reqs q).released = 0 ∧
    ∃ i h, (reqs q).data = some i ∧ (reqs q).handle = some h ∧ (handles h).Holds i ∧
      (handles h).closing = none ∧ (handles h).connecting = true ∧ (list.clientMap i).state = .new
  pending_inj : ∀ q q', (reqs q).pending = true → (reqs q').pending = true →
    (reqs q).data = (reqs q').data → q = q'
  link_cb : ∀ h, (handles h).closing = some .link → (handles h).closed = false → ∃ i, (handles h).Holds i
  closes : ∀ h, (handles h).closes = if (handles h).closing = none then 0 else 1

/-- `Slots` of the private state of the IO thread. -/
abbrev Io.Slots (io : Io) (n : Nat) : Prop :=
  ServerLynx.Slots n io.linkList io.handles io.handleCount io.connectReqs io.linkLog

namespace Slots

variable {n : Nat} {list : LinkList} {handles : Nat → Handle} {count : Nat} {reqs : Nat → ConnectReq}
  {log : List LinkOp}

/-! ### What `Slots` says about one link -/

/-- Two handles never hold the same link. -/
theorem holder_unique (hs : Slots n list handles count reqs log) {h h' i : Nat} (hh : (handles h).Holds i)
    (hh' : (handles h').Holds i) : h = h' :=
  Option.some.inj ((hs.holds h i hh).2.2.symm.trans (hs.holds h' i hh').2.2)

theorem lt_count (hs : Slots n list handles count reqs log) {h i : Nat} (hh : (handles h).Holds i) : h < count := by
  by_contra hlt
  rw [hs.fresh h (Nat.le_of_not_lt hlt)] at hh
  exact Handle.not_given_of_data rfl i hh.1

theorem lt_count_of_closing (hs : Slots n list handles count reqs log) {h : Nat} {cb : CloseCb}
    (hc : (handles h).closing = some cb) : h < count := by
  by_contra hlt
  rw [hs.fresh h (Nat.le_of_not_lt hlt)] at hc
  exact absurd hc (by simp)

/-- The link of a handle that is closing is not open. -/
theorem not_opened (hs : Slots n list handles count reqs log) {h i : Nat} (hh : (handles h).Holds i)
    (hc : (handles h).closing ≠ none) : (list.clientMap i).state ≠ .opened := by
  intro ho
  obtain ⟨h', -, hh', hc'⟩ := hs.opened i (hs.holds h i hh).1 ho
  exact hc (hs.holder_unique hh hh' ▸ hc')

/-- A link in the free list has no holder. -/
theorem not_holds_of_free (hs : Slots n list handles count reqs log) {i : Nat}
    (hi : i ∈ list.clientListFree.items) (h : Nat) : ¬ (handles h).Holds i :=
  fun hh => (hs.holds h i hh).2.1 hi

/-! ### Updates of one handle -/

/-- The record of one handle changes.  The new record holds no link that the old one did not hold; where the link
is open, or a connect is pending on it, the handle still holds it and is not closing. -/
theorem setHandle (hs : Slots n list handles count reqs log) {h count' : Nat} {x : Handle}
    (hx : ∀ i, x.Holds i → (handles h).Holds i)
    (ho : ∀ i, (handles h).Holds i → (list.clientMap i).state = .opened → (handles h).closing = none →
      x.Holds i ∧ x.closing = none)
    (hp : ∀ q i, (reqs q).pending = true → (reqs q).handle = some h → (handles h).Holds i →
      (list.clientMap i).state = .new → (handles h).closing = none → (handles h).connecting = true →
      x.Holds i ∧ x.closing = none ∧ x.connecting = true)
    (hr : x.reading = true → ∃ i, x.Holds i ∧ x.closing = none)
    (hcb : x.closing = some .link → x.closed = false → ∃ i, x.Holds i)
    (hc : x.closes = if x.closing = none then 0 else 1) (hlt : h < count') (hle : count ≤ count') :
    Slots n list (Function.update handles h x) count' reqs log := by
  refine { hs with fresh := ?_, holds := ?_, opened := ?_, reading := ?_, pending := ?_, link_cb := ?_, closes := ?_ }
  · intro h' hh'
    rw [Function.update_of_ne (by omega)]
    exact hs.fresh h' (by omega)
  · intro h' i hh'
    rcases eq_or_ne h' h with rfl | hne
    · rw [Function.update_self] at hh'
      exact hs.holds h' i (hx i hh')
    · rw [Function.update_of_ne hne] at hh'
      exact hs.holds h' i hh'
  · intro i hi hst
    obtain ⟨h', hpr, hh', hn⟩ := hs.opened i hi hst
    refine ⟨h', hpr, ?_⟩
    rcases eq_or_ne h' h with rfl | hne
    · rw [Function.update_self]
      exact ho i hh' hst hn
    · rw [Function.update_of_ne hne]
      exact ⟨hh', hn⟩
  · intro h' hh'
    rcases eq_or_ne h' h with rfl | hne
    · rw [Function.update_self] at hh' ⊢
      exact hr hh'
    · rw [Function.update_of_ne hne] at hh' ⊢
      exact hs.reading h' hh'
  · intro q hq
    obtain ⟨h₀, i, h', hd, hh, hh', hn, hcon, hst⟩ := hs.pending q hq
    refine ⟨h₀, i, h', hd, hh, ?_⟩
    rcases eq_or_ne h' h with rfl | hne
    · rw [Function.update_self]
      obtain ⟨h₁, h₂, h₃⟩ := hp q i hq hh hh' hst hn hcon
      exact ⟨h₁, h₂, h₃, hst⟩
    · rw [Function.update_of_ne hne]
      exact ⟨hh', hn, hcon, hst⟩
  · intro h' hl hcl
    rcases eq_or_ne h' h with rfl | hne
    · rw [Function.update_self] at hl hcl ⊢
      exact hcb hl hcl
    · rw [Function.update_of_ne hne] at hl hcl ⊢
      exact hs.link_cb h' hl hcl
  · intro h'
    rcases eq_or_ne h' h with rfl | hne
    · rw [Function.update_self]
      exact hc
    · rw [Function.update_of_ne hne]
      exact hs.closes h'

/-- A handle that holds no link is replaced by one that holds none. -/
theorem setIdle (hs : Slots n list handles count reqs log) {h count' : Nat} {x : Handle}
    (ho : ∀ i, ¬ (handles h).Holds i) (hx : ∀ i, ¬ x.Holds i) (hr : x.reading = false)
    (hcb : x.closing = some .link → x.closed = true) (hc : x.closes = if x.closing = none then 0 else 1)
    (hlt : h < count') (hle : count ≤ count') :
    Slots n list (Function.update handles h x) count' reqs log :=
  hs.setHandle (fun i hi => absurd hi (hx i)) (fun i hi => absurd hi (ho i)) (fun _ i _ _ hi => absurd hi (ho i))
    (fun h => absurd h (by simp [hr])) (fun h h' => absurd (hcb h) (by simp [h'])) hc hlt hle

/-- A handle is replaced by one that holds the same link, with `closing` as it was. -/
theorem setSame (hs : Slots n list handles count reqs log) {h : Nat} {x : Handle} (hlt : h < count)
    (hx : ∀ i, x.Holds i ↔ (handles h).Holds i) (hcl : x.closing = (handles h).closing)
    (hcs : x.closes = (handles h).closes) (hr : x.reading = true → ∃ i, x.Holds i ∧ x.closing = none)
    (hd : x.closed = false → (handles h).closed = false)
    (hp : ∀ q, (reqs q).pending = true → (reqs q).handle = some h → x.connecting = true) :
    Slots n list (Function.update handles h x) count reqs log := by
  refine hs.setHandle (fun i => (hx i).1) ?_ ?_ hr ?_ ?_ hlt (Nat.le_refl _)
  · intro i hi _ hn
    exact ⟨(hx i).2 hi, hcl.trans hn⟩
  · intro q i hq hh hi _ hn _
    exact ⟨(hx i).2 hi, hcl.trans hn, hp q hq hh⟩
  · intro hl hc
    obtain ⟨i, hi⟩ := hs.link_cb h (hcl ▸ hl) (hd hc)
    exact ⟨i, (hx i).2 hi⟩
  · rw [hcs, hcl]
    exact hs.closes h

/-- The holder of a link starts to close, once the state of the link is `SVL_LINK_CLOSING`. -/
theorem setClosing (hs : Slots n list handles count reqs log) {h i : Nat} (hh : (handles h).Holds i)
    (hn : (handles h).closing = none) (hst : (list.clientMap i).state = .closing) :
    Slots n list (Function.update handles h { handles h with
      started := false, reading := false, closing := some .link, closes := (handles h).closes + 1 })
      count reqs log := by
  have hold : ∀ j, ({ handles h with started := false, reading := false, closing := some .link
                                     closes := (handles h).closes + 1 } : Handle).Holds j ↔
      (handles h).Holds j := by
    intro j
    simp [Handle.Holds, Handle.Given, hn, hh.2]
  refine hs.setHandle (fun j => (hold j).1) ?_ ?_ (by simp) (fun _ _ => ⟨i, (hold i).2 hh⟩) ?_ (hs.lt_count hh)
    (Nat.le_refl _)
  · intro j hj ho
    rw [← hh.inj hj, hst] at ho
    exact absurd ho (by simp)
  · intro q j _ _ hj ho
    rw [← hh.inj hj, hst] at ho
    exact absurd ho (by simp)
  · simp [hs.closes h, hn]

/-- The holder of a link gives it up; the link is not open and no connect is pending for it. -/
theorem unhold (hs : Slots n list handles count reqs log) {h i : Nat} {x : Handle} (hh : (handles h).Holds i)
    (hx : ∀ j, ¬ x.Holds j) (hst : (list.clientMap i).state ≠ .opened)
    (hp : ∀ q, (reqs q).pending = true → (reqs q).handle ≠ some h) (hr : x.reading = false)
    (hcb : x.closing = some .link → x.closed = true) (hc : x.closes = if x.closing = none then 0 else 1) :
    Slots n list (Function.update handles h x) count reqs log := by
  refine hs.setHandle (fun j hj => absurd hj (hx j)) ?_ ?_ (fun h => absurd h (by simp [hr]))
    (fun h h' => absurd (hcb h) (by simp [h'])) hc (hs.lt_count hh) (Nat.le_refl _)
  · intro j hj ho
    exact absurd (hh.inj hj ▸ ho) hst
  · intro q j hq hh'
    exact absurd hh' (hp q hq)

/-- Where no handle holds a link, all handles may change as long as none holds one afterwards. -/
theorem setHandles (hs : Slots n list handles count reqs log) {handles' : Nat → Handle}
    (ho : ∀ h i, ¬ (handles h).Holds i) (hx : ∀ h i, ¬ (handles' h).Holds i)
    (hf : ∀ h, count ≤ h → handles' h = {}) (hr : ∀ h, (handles' h).reading = false)
    (hcb : ∀ h, (handles' h).closing = some .link → (handles' h).closed = true)
    (hc : ∀ h, (handles' h).closes = if (handles' h).closing = none then 0 else 1) :
    Slots n list handles' count reqs log := by
  refine { hs with fresh := hf, holds := ?_, opened := ?_, reading := ?_, pending := ?_, link_cb := ?_, closes := hc }
  · intro h i hh
    exact absurd hh (hx h i)
  · intro i hi hst
    obtain ⟨h, -, hh, -⟩ := hs.opened i hi hst
    exact absurd hh (ho h i)
  · intro h hr'
    exact absurd hr' (by simp [hr h])
  · intro q hq
    obtain ⟨-, i, h, -, -, hh, -⟩ := hs.pending q hq
    exact absurd hh (ho h i)
  · intro h hl hcl
    exact absurd (hcb h hl) (by simp [hcl])

/-! ### Updates of the link records -/

/-- One link record changes, but neither its id nor its `priv`; if it becomes `SVL_LINK_OPEN`, its handle is not
closing, and if a connect is pending for it, it stays `SVL_LINK_NEW`. -/
theorem setLink (hs : Slots n list handles count reqs log) {i : Nat} {l : Link}
    (hid : l.id = (list.clientMap i).id) (hpriv : l.priv = (list.clientMap i).priv)
    (hbuf : i ∈ list.clientListFree.items → l.readBuffer = none)
    (ho : l.state = .opened → ∃ h, (list.clientMap i).priv = some h ∧ (handles h).Holds i ∧
      (handles h).closing = none)
    (hp : ∀ q, (reqs q).pending = true → (reqs q).data = some i → l.state = .new) :
    Slots n { list with clientMap := Function.update list.clientMap i l } handles count reqs log := by
  refine { hs with ids := ?_, free_buffer := ?_, holds := ?_, opened := ?_, pending := ?_ }
  · intro j hj
    dsimp only
    rcases eq_or_ne j i with rfl | hne
    · rw [Function.update_self, hid, hs.ids j hj]
    · rw [Function.update_of_ne hne]
      exact hs.ids j hj
  · intro j hj
    dsimp only
    rcases eq_or_ne j i with rfl | hne
    · rw [Function.update_self]
      exact hbuf hj
    · rw [Function.update_of_ne hne]
      exact hs.free_buffer j hj
  · intro h j hh
    dsimp only
    rcases eq_or_ne j i with rfl | hne
    · rw [Function.update_self, hpriv]
      exact hs.holds h j hh
    · rw [Function.update_of_ne hne]
      exact hs.holds h j hh
  · intro j hj hst
    dsimp only at hst ⊢
    rcases eq_or_ne j i with rfl | hne
    · rw [Function.update_self] at hst ⊢
      rw [hpriv]
      exact ho hst
    · rw [Function.update_of_ne hne] at hst ⊢
      exact hs.opened j hj hst
  · intro q hq
    obtain ⟨h₀, j, h, hd, hh, hh', hn, hc, hst⟩ := hs.pending q hq
    refine ⟨h₀, j, h, hd, hh, hh', hn, hc, ?_⟩
    dsimp only
    rcases eq_or_ne j i with rfl | hne
    · rw [Function.update_self]
      exact hp q hq hd
    · rw [Function.update_of_ne hne]
      exact hst

/-! ### Taking a link and giving it back -/

/-- `svl_link_list_open` hands out a link that nobody holds. -/
theorem openLink (hs : Slots n list handles count reqs log) {i : Nat} {list' : LinkList}
    (h : list.svlLinkListOpen = some (i, list')) :
    Slots n list' handles count reqs (log ++ [.opened i]) ∧ i < n ∧ i ∉ list'.clientListFree.items ∧
      (∀ h, ¬ (handles h).Holds i) ∧ (list'.clientMap i).readBuffer = none := by
  obtain ⟨hfree, hcap, hmax, hmap⟩ := LinkList.svlLinkListOpen_eq_some.1 h
  have hi : i ∈ list.clientListFree.items := by simp [hfree]
  have hnot := hs.not_holds_of_free hi
  have hnodup := hs.nodup
  rw [hfree, List.nodup_cons] at hnodup
  have hsub : ∀ j ∈ list'.clientListFree.items, j ∈ list.clientListFree.items := by
    intro j hj
    simp [hfree, hj]
  have hsame : ∀ j, (list'.clientMap j).id = (list.clientMap j).id ∧
      (list'.clientMap j).priv = (list.clientMap j).priv ∧
      (list'.clientMap j).state = (list.clientMap j).state ∧
      (list'.clientMap j).readBuffer = (list.clientMap j).readBuffer := by
    intro j
    rw [hmap]
    rcases eq_or_ne j i with rfl | hne
    · simp
    · simp [Function.update_of_ne hne]
  refine ⟨?_, hs.free_lt i hi, hnodup.1, hnot, (hsame i).2.2.2.trans (hs.free_buffer i hi)⟩
  refine { hs with max := hmax.trans hs.max, cap := hcap.trans hs.cap, ids := ?_, nodup := hnodup.2, free_lt := ?_,
                   free_buffer := ?_, turns := ?_, holds := ?_, opened := ?_, pending := ?_ }
  · intro j hj
    exact (hsame j).1.trans (hs.ids j hj)
  · intro j hj
    exact hs.free_lt j (hsub j hj)
  · intro j hj
    exact (hsame j).2.2.2.trans (hs.free_buffer j (hsub j hj))
  · intro j hj
    rw [linkTurn_append, hs.turns j hj]
    rcases eq_or_ne i j with rfl | hne
    · simp [LinkOp.turn, hi, hnodup.1]
    · have : j ∈ list.clientListFree.items ↔ j ∈ list'.clientListFree.items := by simp [hfree, hne.symm]
      simp [LinkOp.turn, hne, this]
  · intro h' j hh
    obtain ⟨h₁, h₂, h₃⟩ := hs.holds h' j hh
    exact ⟨h₁, fun hj => h₂ (hsub j hj), (hsame j).2.1.trans h₃⟩
  · intro j hj hst
    rw [(hsame j).2.2.1] at hst
    rw [(hsame j).2.1]
    exact hs.opened j hj hst
  · intro q hq
    obtain ⟨h₀, j, h', hd, hh, hh', hn, hc, hst⟩ := hs.pending q hq
    exact ⟨h₀, j, h', hd, hh, hh', hn, hc, (hsame j).2.2.1.trans hst⟩

/-- A link that nobody holds goes back to the free list, which has room for it. -/
theorem closeLink (hs : Slots n list handles count reqs log) {i : Nat} (hi : i < n)
    (hfree : i ∉ list.clientListFree.items) (hno : ∀ h, ¬ (handles h).Holds i)
    (hbuf : (list.clientMap i).readBuffer = none) :
    ∃ list', list.svlLinkListClose i = some list' ∧ list'.clientMap = list.clientMap ∧
      list'.clientListFree.items = i :: list.clientListFree.items ∧
      Slots n list' handles count reqs (log ++ [.closed i]) := by
  have hroom : list.clientListFree.items.length < list.clientListFree.cap := by
    have hsub : (i :: list.clientListFree.items) ⊆ List.range n := by
      intro j hj
      rcases List.mem_cons.1 hj with rfl | hj
      · exact List.mem_range.2 hi
      · exact List.mem_range.2 (hs.free_lt j hj)
    have := (List.nodup_cons.2 ⟨hfree, hs.nodup⟩).length_le_of_subset hsub
    simp only [List.length_cons, List.length_range] at this
    rw [hs.cap]
    omega
  refine ⟨_, LinkList.svlLinkListClose_eq_some.2 ⟨hroom, rfl⟩, rfl, rfl, ?_⟩
  refine { hs with nodup := List.nodup_cons.2 ⟨hfree, hs.nodup⟩, free_lt := ?_, free_buffer := ?_, turns := ?_,
                   holds := ?_ }
  · intro j hj
    rcases List.mem_cons.1 hj with rfl | hj
    · exact hi
    · exact hs.free_lt j hj
  · intro j hj
    rcases List.mem_cons.1 hj with rfl | hj
    · exact hbuf
    · exact hs.free_buffer j hj
  · intro j hj
    rw [linkTurn_append, hs.turns j hj]
    rcases eq_or_ne i j with rfl | hne
    · simp [LinkOp.turn, hfree]
    · simp [LinkOp.turn, hne, hne.symm]
  · intro h j hh
    obtain ⟨h₁, h₂, h₃⟩ := hs.holds h j hh
    refine ⟨h₁, ?_, h₃⟩
    intro hj
    rcases List.mem_cons.1 hj with rfl | hj
    · exact hno h hh
    · exact h₂ hj

/-- A new client handle and a link that was just handed out are tied to each other. -/
theorem attach (hs : Slots n list handles count reqs log) {h i : Nat} {x : Handle} {l : Link}
    (hi : i < n) (hfree : i ∉ list.clientListFree.items) (hno : ∀ h, ¬ (handles h).Holds i) (hlt : h < count)
    (ho : ∀ j, ¬ (handles h).Holds j) (hx : x.Holds i) (hn : x.closing = none) (hr : x.reading = false)
    (hc : x.closes = 0) (hid : l.id = (list.clientMap i).id) (hpriv : l.priv = some h) :
    Slots n { list with clientMap := Function.update list.clientMap i l } (Function.update handles h x) count reqs
      log := by
  have hne : ∀ h' j, (handles h').Holds j → h' ≠ h ∧ j ≠ i := fun h' j hh =>
    ⟨fun e => ho j (e ▸ hh), fun e => hno h' (e ▸ hh)⟩
  refine { hs with ids := ?_, free_buffer := ?_, fresh := ?_, holds := ?_, opened := ?_, reading := ?_, pending := ?_
                   link_cb := ?_, closes := ?_ }
  · intro j hj
    dsimp only
    rcases eq_or_ne j i with rfl | hne
    · rw [Function.update_self, hid, hs.ids j hj]
    · rw [Function.update_of_ne hne]
      exact hs.ids j hj
  · intro j hj
    have hne : j ≠ i := by
      rintro rfl
      exact hfree hj
    dsimp only
    rw [Function.update_of_ne hne]
    exact hs.free_buffer j hj
  · intro h' hh'
    rw [Function.update_of_ne (by omega)]
    exact hs.fresh h' hh'
  · intro h' j hh'
    dsimp only
    rcases eq_or_ne h' h with rfl | hne'
    · rw [Function.update_self] at hh'
      rw [← hx.inj hh', Function.update_self]
      exact ⟨hi, hfree, hpriv⟩
    · rw [Function.update_of_ne hne'] at hh'
      rw [Function.update_of_ne (hne h' j hh').2]
      exact hs.holds h' j hh'
  · intro j hj hst
    dsimp only at hst ⊢
    rcases eq_or_ne j i with rfl | hji
    · rw [Function.update_self]
      exact ⟨h, hpriv, by rw [Function.update_self]; exact ⟨hx, hn⟩⟩
    · rw [Function.update_of_ne hji] at hst ⊢
      obtain ⟨h', hp, hh', hn'⟩ := hs.opened j hj hst
      exact ⟨h', hp, by rw [Function.update_of_ne (hne h' j hh').1]; exact ⟨hh', hn'⟩⟩
  · intro h' hh'
    rcases eq_or_ne h' h with rfl | hne'
    · rw [Function.update_self, hr] at hh'
      exact absurd hh' (by simp)
    · rw [Function.update_of_ne hne'] at hh' ⊢
      exact hs.reading h' hh'
  · intro q hq
    obtain ⟨h₀, j, h', hd, hh, hh', hrest⟩ := hs.pending q hq
    refine ⟨h₀, j, h', hd, hh, ?_⟩
    dsimp only
    rw [Function.update_of_ne (hne h' j hh').1, Function.update_of_ne (hne h' j hh').2]
    exact ⟨hh', hrest⟩
  · intro h' hl hcl
    rcases eq_or_ne h' h with rfl | hne'
    · rw [Function.update_self] at hl
      exact absurd hl (by simp [hn])
    · rw [Function.update_of_ne hne'] at hl hcl ⊢
      exact hs.link_cb h' hl hcl
  · intro h'
    rcases eq_or_ne h' h with rfl | hne'
    · rw [Function.update_self]
      simp [hc, hn]
    · rw [Function.update_of_ne hne']
      exact hs.closes h'

/-! ### Updates of the connect requests -/

/-- The connect requests change, but those that are pending were pending and are as they were. -/
theorem setReqs (hs : Slots n list handles count reqs log) {reqs' : Nat → ConnectReq}
    (h : ∀ q, (reqs' q).pending = true → reqs' q = reqs q) : Slots n list handles count reqs' log := by
  refine { hs with pending := ?_, pending_inj := ?_ }
  · intro q hq
    have he := h q hq
    rw [he] at hq ⊢
    exact hs.pending q hq
  · intro q q' hq hq' hd
    have he := h q hq
    have he' := h q' hq'
    rw [he] at hq hd
    rw [he'] at hq' hd
    exact hs.pending_inj q q' hq hq' hd

/-- `uv_tcp_connect` for a link that is `SVL_LINK_NEW` and its holder. -/
theorem connect (hs : Slots n list handles count reqs log) {q h i : Nat} (hd : (reqs q).data = some i)
    (hrel : (reqs q).released = 0) (hh : (handles h).Holds i) (hn : (handles h).closing = none)
    (hst : (list.clientMap i).state = .new) (hno : ∀ q', (reqs q').pending = true → (reqs q').data ≠ some i) :
    Slots n list (Function.update handles h { handles h with connecting := true }) count
      (Function.update reqs q { reqs q with handle := some h, pending := true }) log := by
  have hs' : Slots n list (Function.update handles h { handles h with connecting := true }) count reqs log := by
    refine hs.setSame (hs.lt_count hh) (fun _ => Iff.rfl) rfl rfl (hs.reading h) (fun h => h) ?_
    intro _ _ _
    rfl
  refine { hs' with pending := ?_, pending_inj := ?_ }
  · intro q' hq'
    rcases eq_or_ne q' q with rfl | hne
    · rw [Function.update_self] at hq' ⊢
      exact ⟨hrel, i, h, hd, rfl, by rw [Function.update_self]; exact ⟨hh, hn, rfl, hst⟩⟩
    · rw [Function.update_of_ne hne] at hq' ⊢
      exact hs'.pending q' hq'
  · intro q₁ q₂ h₁ h₂ hd'
    by_cases e₁ : q₁ = q <;> by_cases e₂ : q₂ = q
    · rw [e₁, e₂]
    · subst e₁
      rw [Function.update_of_ne e₂] at h₂ hd'
      rw [Function.update_self] at hd'
      exact absurd (hd'.symm.trans hd) (hno q₂ h₂)
    · subst e₂
      rw [Function.update_of_ne e₁] at h₁ hd'
      rw [Function.update_self] at hd'
      exact absurd (hd'.trans hd) (hno q₁ h₁)
    · rw [Function.update_of_ne e₁] at h₁ hd'
      rw [Function.update_of_ne e₂] at h₂ hd'
      exact hs.pending_inj q₁ q₂ h₁ h₂ hd'

end Slots

end ServerLynx
