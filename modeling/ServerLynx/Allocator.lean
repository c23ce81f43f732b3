import Mathlib.Data.List.Perm.Basic
import ServerLynx.LinkList

/-!
# The link list as an allocator

Any sequence of `svl_link_list_open`, `svl_link_list_get`, `svl_link_list_reset` and of `svl_link_list_close` for links
that are open.  The free list and the links that are open are together all links of the array, each once, and the id
of a link is its place.
-/

namespace ServerLynx

namespace LinkList

variable {n i : Nat} {list list' : LinkList} {opened : List Nat}

/-- A list of `n` links after some calls since its set-up, and the links that are open since the last set-up or reset.
A call that fails and `svl_link_list_get` leave the list as it is. -/
inductive Calls (n : Nat) : LinkList → List Nat → Prop
  | setup {acquire : Bool} {listSetup : Int} {list : LinkList} :
      svlLinkListSetup acquire listSetup n = some list → Calls n list []
  | opens {list list' : LinkList} {opened : List Nat} {i : Nat} :
      Calls n list opened → list.svlLinkListOpen = some (i, list') → Calls n list' (i :: opened)
  | closes {list list' : LinkList} {opened : List Nat} {i : Nat} :
      Calls n list opened → i ∈ opened → list.svlLinkListClose i = some list' → Calls n list' (opened.erase i)
  | resets {list list' : LinkList} {opened : List Nat} :
      Calls n list opened → list.svlLinkListReset = some list' → Calls n list' []

/-- The list that a set-up for `n` links leaves. -/
def fresh (n : Nat) : LinkList where
  clientMap := fun i => if i < n then { id := i } else {}
  clientsMax := n
  clientListFree := ⟨n, (List.range n).reverse⟩

/-- Each link is free or open, and no link is both or twice; the ids are the places. -/
structure AllocInv (n : Nat) (list : LinkList) (opened : List Nat) : Prop where
  max : list.clientsMax = n
  cap : list.clientListFree.cap = n
  perm : (list.clientListFree.items ++ opened).Perm (List.range n)
  ids : ∀ i < n, (list.clientMap i).id = i
  outside : ∀ i, n ≤ i → list.clientMap i = {}

theorem svlLinkListSetup_eq_some {acquire : Bool} {listSetup : Int} :
    svlLinkListSetup acquire listSetup n = some list ↔ acquire = true ∧ listSetup = 0 ∧ list = fresh n := by
  by_cases ha : acquire = true
  · by_cases hl : listSetup = 0
    · subst ha hl
      rw [svlLinkListSetup_eq]
      simp [fresh, eq_comm]
    · simp [svlLinkListSetup, ha, hl]
  · simp [svlLinkListSetup, ha]

namespace AllocInv

theorem fresh (n : Nat) : AllocInv n (fresh n) [] where
  max := rfl
  cap := rfl
  perm := by simp [LinkList.fresh]
  ids i hi := by simp [LinkList.fresh, hi]
  outside i hi := by simp [LinkList.fresh, Nat.not_lt.2 hi]

theorem nodup (h : AllocInv n list opened) : (list.clientListFree.items ++ opened).Nodup :=
  h.perm.nodup_iff.2 List.nodup_range

theorem length_eq (h : AllocInv n list opened) : list.clientListFree.items.length + opened.length = n := by
  simpa using h.perm.length_eq

theorem opens (h : AllocInv n list opened) (ho : list.svlLinkListOpen = some (i, list')) :
    AllocInv n list' (i :: opened) := by
  obtain ⟨hitems, hcap, hmax, hmap⟩ := svlLinkListOpen_eq_some.1 ho
  have hperm := h.perm
  rw [hitems] at hperm
  have hi : i < n := List.mem_range.1 (hperm.mem_iff.1 (List.mem_cons_self ..))
  refine ⟨hmax.trans h.max, hcap.trans h.cap, List.perm_middle.trans hperm, fun j hj => ?_, fun j hj => ?_⟩
  · rw [hmap]
    rcases eq_or_ne j i with rfl | hne
    · rw [Function.update_self]
      exact h.ids j hj
    · rw [Function.update_of_ne hne]
      exact h.ids j hj
  · rw [hmap, Function.update_of_ne (by omega)]
    exact h.outside j hj

theorem closes (h : AllocInv n list opened) (hi : i ∈ opened) :
    ∃ list', list.svlLinkListClose i = some list' ∧ AllocInv n list' (opened.erase i) := by
  have hroom : list.clientListFree.items.length < list.clientListFree.cap := by
    have hlen := h.length_eq
    have hpos := List.length_pos_of_mem hi
    rw [h.cap]
    omega
  refine ⟨_, svlLinkListClose_eq_some.2 ⟨hroom, rfl⟩, h.max, h.cap, ?_, h.ids, h.outside⟩
  exact List.perm_middle.symm.trans (((List.perm_cons_erase hi).symm.append_left _).trans h.perm)

theorem resets (h : AllocInv n list opened) : list.svlLinkListReset = some (LinkList.fresh n) := by
  unfold svlLinkListReset
  rw [h.max]
  refine (fill_eq _ ?_ ?_).trans ?_
  · rfl
  · exact Nat.le_of_eq h.cap.symm
  simp only [ListPtr.clear, h.cap, LinkList.fresh, Option.some.injEq, LinkList.mk.injEq, and_true]
  funext i
  by_cases hi : i < n
  · simp [hi]
  · simp [hi, h.outside i (by omega)]

end AllocInv

theorem Calls.inv (h : Calls n list opened) : AllocInv n list opened := by
  induction h with
  | setup h =>
    obtain ⟨-, -, rfl⟩ := svlLinkListSetup_eq_some.1 h
    exact .fresh n
  | opens _ ho ih => exact ih.opens ho
  | closes _ hi hc ih =>
    obtain ⟨list'', hc', h'⟩ := ih.closes hi
    cases hc.symm.trans hc'
    exact h'
  | resets _ hr ih =>
    cases hr.symm.trans ih.resets
    exact .fresh n

/-- What the calls on a list do, of whose `n` links those in `opened` are open. -/
structure Allocates (n : Nat) (list : LinkList) (opened : List Nat) : Prop where
  open_iff : list.svlLinkListOpen ≠ none ↔ opened.length < n
  opens : ∀ i list', list.svlLinkListOpen = some (i, list') → i < n ∧ i ∉ opened ∧
    (list'.clientMap i).cmdOpenId = cmdInvalid ∧ (list'.clientMap i).cmdCloseId = cmdInvalid
  closes : ∀ i ∈ opened, list.svlLinkListClose i ≠ none
  get_iff : ∀ clientId, list.svlLinkListGet clientId ≠ none ↔ clientId < n
  gets : ∀ clientId i, list.svlLinkListGet clientId = some i → i < n ∧ (list.clientMap i).id = clientId
  distinct : opened.Nodup ∧ ∀ i j, i < n → j < n → (list.clientMap i).id = (list.clientMap j).id → i = j
  resets : ∀ acquire listSetup list₀, svlLinkListSetup acquire listSetup n = some list₀ →
    list.svlLinkListReset = some list₀

/-- After any calls: an open succeeds as long as a link is not open, and hands out such a link with no command; a close
never fails; a link is found by its id; and a reset leaves the list that the set-up left. -/
theorem calls_allocate (h : Calls n list opened) : Allocates n list opened := by
  have hinv := h.inv
  have hlen := hinv.length_eq
  have hnodup := hinv.nodup
  refine ⟨?_, fun i list' ho => ?_, fun i hi => ?_, fun clientId => ?_, fun clientId i hg => ?_,
    ⟨(List.nodup_append.1 hnodup).2.1, fun i j hi hj hid => ?_⟩, fun acquire listSetup list₀ h₀ => ?_⟩
  · rw [Ne, svlLinkListOpen_eq_none, ← List.length_eq_zero_iff]
    omega
  · obtain ⟨hitems, -, -, hmap⟩ := svlLinkListOpen_eq_some.1 ho
    have hmem : i ∈ list.clientListFree.items := by
      rw [hitems]
      exact List.mem_cons_self ..
    have hi : i < n := List.mem_range.1 (hinv.perm.mem_iff.1 (List.mem_append_left _ hmem))
    refine ⟨hi, fun hopen => (List.nodup_append.1 hnodup).2.2 i hmem i hopen rfl, ?_⟩
    rw [hmap, Function.update_self]
    exact ⟨rfl, rfl⟩
  · obtain ⟨list', hc, -⟩ := hinv.closes hi
    simp [hc]
  · simp [svlLinkListGet, hinv.max]
  · simp only [svlLinkListGet, hinv.max] at hg
    split at hg
    · simp at hg
    · obtain rfl := Option.some.inj hg
      exact ⟨by omega, hinv.ids _ (by omega)⟩
  · rw [← hinv.ids i hi, hid, hinv.ids j hj]
  · obtain ⟨-, -, rfl⟩ := svlLinkListSetup_eq_some.1 h₀
    exact hinv.resets

/-- Two links: both are opened, and the one that was opened first is closed again. -/
theorem calls_allocate_two : ∃ list, Calls 2 list [0] ∧ Allocates 2 list [0] := by
  have h₀ : Calls 2 (fresh 2) [] := .setup (svlLinkListSetup_eq_some.2 ⟨rfl, rfl, rfl⟩)
  have h₁ : Calls 2 _ [1] := h₀.opens rfl
  have h₂ : Calls 2 _ [0, 1] := h₁.opens rfl
  have h₃ : Calls 2 _ ([0, 1].erase 1) := h₂.closes (by decide) rfl
  exact ⟨_, h₃, calls_allocate h₃⟩

end LinkList

end ServerLynx
