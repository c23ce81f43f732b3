import ServerLynx.Ledger

/-!
# Set-up of a service (`svl_service_setup`, `svl_service_cleanup`, `svl_link_list_setup`)

What the set-up acquires and where it points to, in a ledger.  The sub-structures of the library below (buffer pools,
lists and queues) are acquired by their own set-up as a whole, or not at all if that fails.
-/

namespace ServerLynx

/-- What points to something acquired: `*service_ptr` and the fields of the service, the last but three those that
are acquired by a set-up of their own. -/
inductive Place
  | servicePtr | priv | clientMap | clientListFree | poolRead | poolWrite | cmds | events
  | eventUpdates | writeReqs | writeReqsFree | writeReqsReady
  deriving DecidableEq

/-- The fields of `svl_service_t` -/
def serviceFields : List Place :=
  [.priv, .clientMap, .clientListFree, .poolRead, .poolWrite, .cmds, .events, .eventUpdates, .writeReqs,
    .writeReqsFree, .writeReqsReady]

/-- The outcomes of the calls of `svl_service_setup` and of those of `svl_link_list_setup`; the pushes of the loops by
their index. -/
structure SetupOut where
  priv : Bool := true
  clientMap : Bool := true
  clientListFree : Bool := true
  clientPush : Nat → Bool := fun _ => true
  poolRead : Bool := true
  poolWrite : Bool := true
  cmds : Bool := true
  events : Bool := true
  eventUpdates : Bool := true
  writeReqs : Bool := true
  writeReqsFree : Bool := true
  writeReqsReady : Bool := true
  writeReqPush : Nat → Bool := fun _ => true

/-- `memset` of all fields -/
def clearFields (s : Ledger Place) : Ledger Place := s.forgetAll serviceFields

def linkListLines (out : SetupOut) (clientsMax : Nat) : List (Ledger.Line Place) :=
  [⟨out.clientMap, some .clientMap⟩, ⟨out.clientListFree, some .clientListFree⟩] ++
    (List.range clientsMax).map fun i => ⟨out.clientPush i, none⟩

/-- `svl_link_list_setup` -/
def svlLinkListSetup (out : SetupOut) (clientsMax : Nat) (s : Ledger Place) : Bool × Ledger Place :=
  let s := (s.forget .clientMap).forget .clientListFree
  let (ok, s) := Ledger.runLines (linkListLines out clientsMax) s
  if ok then (true, s) else (false, (s.release .clientListFree).release .clientMap)

def setupLines (out : SetupOut) (bufferCount : Nat) : List (Ledger.Line Place) :=
  [⟨out.poolRead, some .poolRead⟩, ⟨out.poolWrite, some .poolWrite⟩, ⟨out.cmds, some .cmds⟩,
    ⟨out.events, some .events⟩, ⟨out.eventUpdates, some .eventUpdates⟩, ⟨out.writeReqs, some .writeReqs⟩,
    ⟨out.writeReqsFree, some .writeReqsFree⟩, ⟨out.writeReqsReady, some .writeReqsReady⟩] ++
    (List.range bufferCount).map fun i => ⟨out.writeReqPush i, none⟩

/-- The label `cleanup` of `svl_service_setup` -/
def setupCleanup (s : Ledger Place) : Ledger Place := s.releaseAll [.eventUpdates, .writeReqs, .priv]

/-- `svl_service_setup` -/
def svlServiceSetup (out : SetupOut) (maxClients : Nat) (s : Ledger Place) : Bool × Ledger Place :=
  let s := clearFields s
  if !out.priv then (false, s.forget .priv) else
  let (ok, s) := svlLinkListSetup out maxClients (s.acquire .priv)
  if !ok then (false, setupCleanup s) else
  let (ok, s) := Ledger.runLines (setupLines out (maxClients * 4 % 2 ^ 64)) s
  if ok then (true, s) else (false, setupCleanup s)

/-- `svl_service_cleanup` -/
def svlServiceCleanup (s : Ledger Place) : Ledger Place :=
  if s.held .priv = none then s
  else s.releaseAll [.clientListFree, .clientMap, .poolRead, .poolWrite, .cmds, .events, .writeReqsFree,
    .writeReqsReady, .eventUpdates, .writeReqs, .priv]

/-! ### The outcomes -/

/-- `svl_link_list_setup` succeeds. -/
def SetupOut.SetsUpLinkList (out : SetupOut) (clientsMax : Nat) : Prop :=
  out.clientMap = true ∧ out.clientListFree = true ∧ ∀ i < clientsMax, out.clientPush i = true

/-- All calls after `svl_link_list_setup` succeed. -/
def SetupOut.SetsUpLists (out : SetupOut) (bufferCount : Nat) : Prop :=
  out.poolRead = true ∧ out.poolWrite = true ∧ out.cmds = true ∧ out.events = true ∧ out.eventUpdates = true ∧
    out.writeReqs = true ∧ out.writeReqsFree = true ∧ out.writeReqsReady = true ∧
    ∀ i < bufferCount, out.writeReqPush i = true

/-- All calls succeed. -/
def SetupOut.Succeeds (out : SetupOut) (maxClients : Nat) : Prop :=
  out.priv = true ∧ out.SetsUpLinkList maxClients ∧ out.SetsUpLists (maxClients * 4 % 2 ^ 64)

section Setup

variable {out : SetupOut} {n : Nat} {s : Ledger Place}

theorem clearFields_held (s : Ledger Place) (p : Place) :
    (clearFields s).held p = if p = .servicePtr then s.held .servicePtr else none := by
  rw [clearFields, Ledger.forgetAll_held]
  cases p <;> simp [serviceFields]

private theorem places_linkListLines : Ledger.places (linkListLines out n) = [.clientMap, .clientListFree] := by
  simp [linkListLines, Ledger.places]

private theorem places_setupLines : Ledger.places (setupLines out n) =
    [.poolRead, .poolWrite, .cmds, .events, .eventUpdates, .writeReqs, .writeReqsFree, .writeReqsReady] := by
  simp [setupLines, Ledger.places]

private theorem linkListLines_all : (linkListLines out n).all (·.ok) = true ↔ out.SetsUpLinkList n := by
  simp [linkListLines, SetupOut.SetsUpLinkList]

private theorem setupLines_all : (setupLines out n).all (·.ok) = true ↔ out.SetsUpLists n := by
  simp [setupLines, SetupOut.SetsUpLists]

/-- `svl_link_list_setup` succeeds exactly if all its calls do. -/
theorem svlLinkListSetup_fst : (svlLinkListSetup out n s).1 = true ↔ out.SetsUpLinkList n := by
  rw [← linkListLines_all, ← Ledger.runLines_fst _ ((s.forget .clientMap).forget .clientListFree), svlLinkListSetup]
  generalize Ledger.runLines (linkListLines out n) _ = x
  obtain ⟨ok, s'⟩ := x
  cases ok <;> simp

/-- `svl_link_list_setup` touches its own two fields only. -/
theorem svlLinkListSetup_held {p : Place} (h₁ : p ≠ .clientMap) (h₂ : p ≠ .clientListFree) :
    (svlLinkListSetup out n s).2.held p = s.held p := by
  have hrun := Ledger.runLines_held (linkListLines out n) (q := p) (by simp [places_linkListLines, h₁, h₂])
    ((s.forget .clientMap).forget .clientListFree)
  simp only [Ledger.forget_held, Function.update_of_ne h₁, Function.update_of_ne h₂] at hrun
  rw [svlLinkListSetup]
  generalize Ledger.runLines (linkListLines out n) _ = x at hrun
  obtain ⟨ok, s'⟩ := x
  cases ok with
  | true => exact hrun
  | false =>
    simp only [Bool.false_eq_true, if_false, Ledger.release_held, Function.update_of_ne h₁, Function.update_of_ne h₂]
    exact hrun

/-- A link list that is set up holds its map. -/
theorem svlLinkListSetup_map (hok : out.SetsUpLinkList n) :
    ∃ b, s.count ≤ b ∧ (svlLinkListSetup out n s).2.held .clientMap = some b := by
  have hall := linkListLines_all.2 hok
  obtain ⟨b, hb, hheld⟩ := Ledger.runLines_held_of_mem (p := .clientMap) hall (by simp [places_linkListLines])
    (by simp [places_linkListLines]) ((s.forget .clientMap).forget .clientListFree)
  have hrun := Ledger.runLines_fst (linkListLines out n) ((s.forget .clientMap).forget .clientListFree)
  rw [hall] at hrun
  refine ⟨b, hb, ?_⟩
  rw [svlLinkListSetup]
  generalize Ledger.runLines (linkListLines out n) _ = x at hheld hrun
  obtain ⟨ok, s'⟩ := x
  obtain rfl : ok = true := hrun
  exact hheld

/-- `svl_link_list_setup` loses nothing. -/
theorem svlLinkListSetup_kept {k : Nat} (hk : s.Kept k) (h₁ : s.held .clientMap = none)
    (h₂ : s.held .clientListFree = none) : (svlLinkListSetup out n s).2.Kept k := by
  have hk' : ((s.forget .clientMap).forget .clientListFree).Kept k := by
    refine (hk.forget h₁).forget ?_
    rw [Ledger.forget_held, Function.update_of_ne (by simp)]
    exact h₂
  have hrun := hk'.runLines (linkListLines out n) (by simp [places_linkListLines]) (by
    simp [places_linkListLines, Ledger.forget_held])
  rw [svlLinkListSetup]
  generalize Ledger.runLines (linkListLines out n) _ = x at hrun
  obtain ⟨ok, s'⟩ := x
  cases ok with
  | true => exact hrun
  | false => exact (hrun.release _).release _

/-- A link list whose set-up fails holds nothing. -/
theorem svlLinkListSetup_held_of_fail (hfail : ¬ out.SetsUpLinkList n) :
    (svlLinkListSetup out n s).2.held .clientMap = none ∧ (svlLinkListSetup out n s).2.held .clientListFree = none := by
  have hfst := @svlLinkListSetup_fst out n s
  rw [svlLinkListSetup] at hfst ⊢
  generalize Ledger.runLines (linkListLines out n) _ = x at hfst
  obtain ⟨ok, s'⟩ := x
  cases ok with
  | true => exact absurd (hfst.1 rfl) hfail
  | false => exact ⟨by simp [Ledger.release_held], by simp [Ledger.release_held]⟩

/-! ### Failed set-ups -/

/-- From `s` to `s'`, whatever was acquired has been released exactly once. -/
def Undone (s s' : Ledger Place) : Prop := ∀ b, s.count ≤ b → b < s'.count → s'.released b = 1

/-- `svl_service_setup` succeeds exactly if all its calls do. -/
theorem svlServiceSetup_fst : (svlServiceSetup out n s).1 = true ↔ out.Succeeds n := by
  rw [svlServiceSetup, SetupOut.Succeeds]
  cases hpriv : out.priv with
  | false => simp
  | true =>
    have hlist := @svlLinkListSetup_fst out n ((clearFields s).acquire .priv)
    simp only [Bool.not_true, Bool.false_eq_true, if_false, true_and]
    generalize svlLinkListSetup _ _ _ = x at hlist
    obtain ⟨ok, s₁⟩ := x
    dsimp only at hlist ⊢
    rw [← hlist, ← setupLines_all, ← Ledger.runLines_fst _ s₁]
    cases ok with
    | false => simp
    | true =>
      generalize Ledger.runLines (setupLines out _) _ = y
      obtain ⟨ok, s₂⟩ := y
      cases ok <;> simp

private theorem acquirePriv_held (s : Ledger Place) (p : Place) (hp : p ≠ .priv) :
    ((clearFields s).acquire .priv).held p = if p = .servicePtr then s.held .servicePtr else none := by
  rw [Ledger.acquire_held, Function.update_of_ne hp, clearFields_held]

private theorem linkList_kept : (svlLinkListSetup out n ((clearFields s).acquire .priv)).2.Kept s.count := by
  have hk := (clearFields s).kept_count
  rw [clearFields, Ledger.forgetAll_count] at hk
  exact svlLinkListSetup_kept (hk.acquire (clearFields_held s .priv)) (acquirePriv_held s _ (by simp))
    (acquirePriv_held s _ (by simp))

/-- A set-up that fails with the link list, or before it, undoes itself. -/
private theorem undone_of_linkList (hlist : ¬ out.SetsUpLinkList n) :
    Undone s (setupCleanup (svlLinkListSetup out n ((clearFields s).acquire .priv)).2) := by
  obtain ⟨hmap, hfree⟩ := svlLinkListSetup_held_of_fail (s := (clearFields s).acquire .priv) hlist
  have hk₃ : (setupCleanup (svlLinkListSetup out n ((clearFields s).acquire .priv)).2).Kept s.count :=
    linkList_kept.releaseAll _
  refine fun b hb hlt => hk₃.released (fun p b hb hp => ?_) hb hlt
  rw [setupCleanup, Ledger.releaseAll_held] at hp
  by_cases h₁ : p = .clientMap
  · simp [h₁, hmap] at hp
  · by_cases h₂ : p = .clientListFree
    · simp [h₂, hfree] at hp
    · by_cases h₃ : p = .priv
      · simp [h₃] at hp
      · by_cases hptr : p = .servicePtr
        · rw [if_neg (by simp [hptr]), svlLinkListSetup_held h₁ h₂, acquirePriv_held s p h₃, if_pos hptr] at hp
          exact absurd (s.lt hp) (Nat.not_lt.2 hb)
        · rw [svlLinkListSetup_held h₁ h₂, acquirePriv_held s p h₃, if_neg hptr, ite_self] at hp
          cases hp

/-- A set-up that fails behind the link list does not release its map. -/
private theorem not_undone_of_linkList (hlist : out.SetsUpLinkList n) :
    ¬ Undone s (setupCleanup (Ledger.runLines (setupLines out (n * 4 % 2 ^ 64))
      (svlLinkListSetup out n ((clearFields s).acquire .priv)).2).2) := by
  obtain ⟨b, hb, hmap⟩ := svlLinkListSetup_map (s := (clearFields s).acquire .priv) hlist
  have hheld : (setupCleanup (Ledger.runLines (setupLines out (n * 4 % 2 ^ 64))
      (svlLinkListSetup out n ((clearFields s).acquire .priv)).2).2).held .clientMap = some b := by
    rw [setupCleanup, Ledger.releaseAll_held, if_neg (by simp), Ledger.runLines_held _ (by simp [places_setupLines]),
      hmap]
  intro h
  have hcount : (clearFields s).count = s.count := s.forgetAll_count _
  have hone := h b (by
    rw [Ledger.acquire_count, hcount] at hb
    exact Nat.le_of_succ_le hb) (Ledger.lt _ hheld)
  rw [Ledger.unreleased _ hheld] at hone
  cases hone

/-- A set-up that fails has released all it acquired exactly if it failed with `priv` or with the link list. -/
theorem svlServiceSetup_undone_iff (hfail : (svlServiceSetup out n s).1 = false) :
    Undone s (svlServiceSetup out n s).2 ↔ out.priv = false ∨ ¬ out.SetsUpLinkList n := by
  rw [svlServiceSetup] at hfail ⊢
  cases hpriv : out.priv with
  | false =>
    simp only [Bool.not_false, if_true, true_or, iff_true]
    intro b hb hlt
    rw [Ledger.forget_count, clearFields, Ledger.forgetAll_count] at hlt
    exact absurd hlt (Nat.not_lt.2 hb)
  | true =>
    have hfst := @svlLinkListSetup_fst out n ((clearFields s).acquire .priv)
    have hundone := @undone_of_linkList out n s
    have hnot := @not_undone_of_linkList out n s
    simp only [hpriv, Bool.not_true, Bool.false_eq_true, if_false, false_or, reduceCtorEq] at hfail ⊢
    generalize svlLinkListSetup out n ((clearFields s).acquire .priv) = x at hfst hundone hnot hfail ⊢
    obtain ⟨ok, s₂⟩ := x
    dsimp only at hfst hundone hnot hfail ⊢
    cases ok with
    | false =>
      have hlist : ¬ out.SetsUpLinkList n := fun h => absurd (hfst.2 h) (by simp)
      exact iff_of_true (hundone hlist) hlist
    | true =>
      have hlist := hfst.1 rfl
      simp only [Bool.not_true, Bool.false_eq_true, if_false] at hfail ⊢
      generalize Ledger.runLines (setupLines out (n * 4 % 2 ^ 64)) s₂ = y at hnot hfail ⊢
      obtain ⟨ok, s₃⟩ := y
      cases ok with
      | true => cases hfail
      | false => exact iff_of_false (hnot hlist) (not_not.2 hlist)

/-- A set-up leaves `*service_ptr` alone. -/
theorem svlServiceSetup_servicePtr :
    (svlServiceSetup out n s).2.held .servicePtr = s.held .servicePtr := by
  have hlist : (svlLinkListSetup out n ((clearFields s).acquire .priv)).2.held .servicePtr = s.held .servicePtr := by
    rw [svlLinkListSetup_held (by simp) (by simp), acquirePriv_held s _ (by simp), if_pos rfl]
  have hclean : ∀ s' : Ledger Place, (setupCleanup s').held .servicePtr = s'.held .servicePtr := by
    intro s'
    rw [setupCleanup, Ledger.releaseAll_held, if_neg (by simp)]
  rw [svlServiceSetup]
  split
  · rw [Ledger.forget_held, Function.update_of_ne (by simp), clearFields_held, if_pos rfl]
  · generalize svlLinkListSetup out n ((clearFields s).acquire .priv) = x at hlist ⊢
    obtain ⟨ok, s₂⟩ := x
    cases ok with
    | false => exact (hclean s₂).trans hlist
    | true =>
      have hrun := Ledger.runLines_held (setupLines out (n * 4 % 2 ^ 64)) (q := .servicePtr)
        (by simp [places_setupLines]) s₂
      simp only [Bool.not_true, Bool.false_eq_true, if_false]
      generalize Ledger.runLines (setupLines out (n * 4 % 2 ^ 64)) s₂ = y at hrun ⊢
      obtain ⟨ok, s₃⟩ := y
      cases ok with
      | true => exact hrun.trans hlist
      | false => exact (hclean s₃).trans (hrun.trans hlist)

/-- A set-up that succeeds has gone through all its lines. -/
theorem svlServiceSetup_eq (hok : out.Succeeds n) : (svlServiceSetup out n s).2 =
    (Ledger.runLines (setupLines out (n * 4 % 2 ^ 64))
    (svlLinkListSetup out n ((clearFields s).acquire .priv)).2).2 := by
  have hfst : (svlServiceSetup out n s).1 = true := svlServiceSetup_fst.2 hok
  rw [svlServiceSetup] at hfst ⊢
  simp only [hok.1, Bool.not_true, Bool.false_eq_true, if_false] at hfst ⊢
  generalize svlLinkListSetup out n ((clearFields s).acquire .priv) = x at hfst ⊢
  obtain ⟨ok, s₂⟩ := x
  cases ok with
  | false => cases hfst
  | true =>
    simp only [Bool.not_true, Bool.false_eq_true, if_false] at hfst ⊢
    generalize Ledger.runLines (setupLines out (n * 4 % 2 ^ 64)) s₂ = y at hfst ⊢
    obtain ⟨ok, s₃⟩ := y
    cases ok with
    | false => cases hfst
    | true => rfl

/-- A set-up that succeeds fills `priv`. -/
theorem svlServiceSetup_priv (hok : out.Succeeds n) : (svlServiceSetup out n s).2.held .priv = some s.count := by
  rw [svlServiceSetup_eq hok, Ledger.runLines_held _ (by simp [places_setupLines]),
    svlLinkListSetup_held (by simp) (by simp), Ledger.acquire_held, Function.update_self, clearFields,
    Ledger.forgetAll_count]

/-- What a set-up that succeeded acquired is released by `svl_service_cleanup`. -/
theorem svlServiceCleanup_undone (hok : out.Succeeds n) :
    Undone s (svlServiceCleanup (svlServiceSetup out n s).2) := by
  have hpriv := svlServiceSetup_priv (s := s) hok
  have hk : (svlServiceSetup out n s).2.Kept s.count := by
    rw [svlServiceSetup_eq hok]
    refine linkList_kept.runLines _ (by simp [places_setupLines]) fun p hp => ?_
    rw [places_setupLines] at hp
    have hne : ∀ q ∈ [Place.servicePtr, .priv, .clientMap, .clientListFree], p ≠ q := by
      rintro q hq rfl
      revert hp hq
      cases p <;> simp
    simp only [List.forall_mem_cons] at hne
    rw [svlLinkListSetup_held hne.2.2.1 hne.2.2.2.1, acquirePriv_held s p hne.2.1, if_neg hne.1]
  rw [svlServiceCleanup, if_neg (by simp [hpriv])]
  refine fun b hb hlt => (hk.releaseAll _).released (fun p b hb hp => ?_) hb hlt
  rw [Ledger.releaseAll_held] at hp
  cases p with
  | servicePtr =>
    rw [if_neg (by simp), svlServiceSetup_servicePtr] at hp
    exact absurd (s.lt hp) (Nat.not_lt.2 hb)
  | _ => simp at hp

/-- The list of links cannot be acquired, and everything is released. -/
theorem svlServiceSetup_undone_linkList :
    Undone .empty (svlServiceSetup { clientListFree := false } 1 .empty).2 :=
  (svlServiceSetup_undone_iff (by decide)).2 (.inr fun h => absurd h.2.1 (by simp))

/-- The pool of read buffers cannot be acquired, and the link list stays. -/
theorem svlServiceSetup_not_undone : (svlServiceSetup { poolRead := false } 1 .empty).1 = false ∧
    ¬ Undone .empty (svlServiceSetup { poolRead := false } 1 .empty).2 :=
  ⟨by decide, fun h => absurd (h 1 (by decide) (by decide)) (by decide)⟩

end Setup

end ServerLynx
