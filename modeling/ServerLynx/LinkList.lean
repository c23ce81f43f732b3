import ServerLynx.Data

/-!
# The link list (`link.c`)

The array of links and the stack of the free ones.  A link is handed out by `svlLinkListOpen` and comes back by
`svlLinkListClose`; `svlLinkListGet` finds a link by its id, which is its place in the array.
-/

namespace ServerLynx

/-- `svl_link_list_t` -/
structure LinkList where
  clientMap : Nat → Link
  clientsMax : Nat
  clientListFree : ListPtr

namespace LinkList

/-- The loop over the links below `n`: each gets its id and goes to the free list. -/
def fill (list : LinkList) : Nat → Option LinkList
  | 0 => some list
  | n + 1 => do
    let list ← fill list n
    let free ← list.clientListFree.pushBack n
    some { list with
      clientMap := Function.update list.clientMap n { list.clientMap n with id := n }
      clientListFree := free }

/-- `svl_link_list_setup`, by the outcome of its allocation and of `tn_list_ptr_setup` -/
def svlLinkListSetup (acquire : Bool) (listSetup : Int) (clientsMax : Nat) : Option LinkList := do
  if !acquire then none
  if listSetup ≠ 0 then none
  let list ← fill ⟨fun _ => {}, 0, .setup clientsMax⟩ clientsMax
  some { list with clientsMax := clientsMax }

/-- `svl_link_list_open` -/
def svlLinkListOpen (list : LinkList) : Option (Nat × LinkList) := do
  let (i, free) ← list.clientListFree.popBack
  some (i, { list with
    clientMap := Function.update list.clientMap i
      { list.clientMap i with cmdOpenId := cmdInvalid, cmdCloseId := cmdInvalid }
    clientListFree := free })

/-- `svl_link_list_close` -/
def svlLinkListClose (list : LinkList) (i : Nat) : Option LinkList := do
  let free ← list.clientListFree.pushBack i
  some { list with clientListFree := free }

/-- `svl_link_list_reset`; it clears the list by `memset` and fills it again. -/
def svlLinkListReset (list : LinkList) : Option LinkList :=
  fill { list with
    clientMap := fun i => if i < list.clientsMax then {} else list.clientMap i
    clientListFree := list.clientListFree.clear } list.clientsMax

/-- `svl_link_list_get` -/
def svlLinkListGet (list : LinkList) (clientId : Nat) : Option Nat :=
  if clientId ≥ list.clientsMax then none else some clientId

theorem svlLinkListOpen_eq_some {list list' : LinkList} {i : Nat} :
    list.svlLinkListOpen = some (i, list') ↔
      list.clientListFree.items = i :: list'.clientListFree.items ∧
      list'.clientListFree.cap = list.clientListFree.cap ∧ list'.clientsMax = list.clientsMax ∧
      list'.clientMap = Function.update list.clientMap i
        { list.clientMap i with cmdOpenId := cmdInvalid, cmdCloseId := cmdInvalid } := by
  simp only [svlLinkListOpen, Option.bind_eq_bind, Option.bind_eq_some_iff, Prod.exists, Option.some.injEq,
    Prod.mk.injEq]
  constructor
  · rintro ⟨_, free, h, rfl, rfl⟩
    obtain ⟨h₁, h₂⟩ := ListPtr.popBack_eq_some.1 h
    exact ⟨h₁, h₂, rfl, rfl⟩
  · rintro ⟨h₁, h₂, h₃, h₄⟩
    refine ⟨i, list'.clientListFree, ListPtr.popBack_eq_some.2 ⟨h₁, h₂⟩, rfl, ?_⟩
    cases list'
    simp_all

theorem svlLinkListOpen_eq_none {list : LinkList} :
    list.svlLinkListOpen = none ↔ list.clientListFree.items = [] := by
  rw [← ListPtr.popBack_eq_none]
  cases h : list.clientListFree.popBack <;> simp [svlLinkListOpen, h]

theorem svlLinkListClose_eq_some {list list' : LinkList} {i : Nat} :
    list.svlLinkListClose i = some list' ↔ list.clientListFree.items.length < list.clientListFree.cap ∧
      list' = { list with
        clientListFree := { list.clientListFree with items := i :: list.clientListFree.items } } := by
  simp only [svlLinkListClose, Option.bind_eq_bind, Option.bind_eq_some_iff, ListPtr.pushBack_eq_some,
    Option.some.injEq]
  constructor
  · rintro ⟨_, ⟨h, rfl⟩, rfl⟩
    exact ⟨h, rfl⟩
  · rintro ⟨h, rfl⟩
    exact ⟨_, ⟨h, rfl⟩, rfl⟩

/-- What the loop of the set-up builds: the ids are the places, and the free list holds them in order, the last
one on top. -/
theorem fill_eq (list : LinkList) (h : list.clientListFree.items = []) {n : Nat}
    (hn : n ≤ list.clientListFree.cap) :
    fill list n = some { list with
      clientMap := fun i => if i < n then { list.clientMap i with id := i } else list.clientMap i
      clientListFree := ⟨list.clientListFree.cap, (List.range n).reverse⟩ } := by
  induction n with
  | zero =>
    obtain ⟨map, max, cap, items⟩ := list
    simp_all [fill]
  | succ n ih =>
    simp only [fill, ih (by omega), Option.bind_eq_bind, Option.bind_some]
    have hp : (ListPtr.mk list.clientListFree.cap (List.range n).reverse).pushBack n =
        some ⟨list.clientListFree.cap, (List.range (n + 1)).reverse⟩ := by
      rw [ListPtr.pushBack_eq_some]
      exact ⟨by rw [List.length_reverse, List.length_range]; exact hn, by simp [List.range_succ]⟩
    simp only [hp, Option.bind_some, Option.some.injEq, LinkList.mk.injEq, and_true]
    funext i
    rcases Nat.lt_trichotomy i n with hi | rfl | hi
    · rw [Function.update_of_ne (by omega)]
      simp [hi, show i < n + 1 by omega]
    · simp
    · rw [Function.update_of_ne (by omega)]
      simp [show ¬ i < n by omega, show ¬ i < n + 1 by omega]

/-- A set-up that succeeds leaves every link free. -/
theorem svlLinkListSetup_eq (n : Nat) :
    svlLinkListSetup true 0 n = some
      { clientMap := fun i => if i < n then { id := i } else {}
        clientsMax := n
        clientListFree := ⟨n, (List.range n).reverse⟩ } := by
  simp only [svlLinkListSetup, Bool.not_true, Bool.false_eq_true, ↓reduceIte, ne_eq, not_true_eq_false,
    Option.bind_eq_bind]
  rw [fill_eq ⟨fun _ => {}, 0, .setup n⟩ rfl (Nat.le_refl n)]
  rfl

end LinkList

end ServerLynx
