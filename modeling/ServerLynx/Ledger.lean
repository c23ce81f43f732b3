import Mathlib.Data.List.Nodup
import Mathlib.Algebra.Group.Nat.Defs
import Mathlib.Logic.Function.Basic

/-!
# Ledgers

Blocks are acquired one after the other and numbered in that order; places (variables, fields) point to blocks.  A
ledger keeps, for each place, the block it points to and, for each block, how often it has been released.  A release
goes through a place and empties it, so a block is released at most once; a block is lost when nothing points to it
any more and it has not been released.
-/

structure Ledger (P : Type) where
  count : Nat
  released : Nat → Nat
  held : P → Option Nat
  lt : ∀ {p b}, held p = some b → b < count
  inj : ∀ {p q b}, held p = some b → held q = some b → p = q
  unreleased : ∀ {p b}, held p = some b → released b = 0
  fresh : ∀ {b}, count ≤ b → released b = 0

namespace Ledger

variable {P : Type} [DecidableEq P]

/-- Nothing is acquired yet. -/
def empty : Ledger P where
  count := 0
  released := fun _ => 0
  held := fun _ => none
  lt := by simp
  inj := by simp
  unreleased := by simp
  fresh := by simp

/-- The place `p` points to a new block. -/
def acquire (s : Ledger P) (p : P) : Ledger P where
  count := s.count + 1
  released := s.released
  held := Function.update s.held p (some s.count)
  lt {q b} h := by
    by_cases hq : q = p
    · subst hq
      rw [Function.update_self] at h
      obtain rfl := Option.some.inj h
      exact Nat.lt_succ_self _
    · rw [Function.update_of_ne hq] at h
      exact Nat.lt_succ_of_lt (s.lt h)
  inj {q q' b} h h' := by
    have hne : ∀ {r : P}, r ≠ p → Function.update s.held p (some s.count) r ≠ some s.count := by
      intro r hr hb
      rw [Function.update_of_ne hr] at hb
      exact absurd (s.lt hb) (Nat.lt_irrefl _)
    by_cases hq : q = p
    · by_cases hq' : q' = p
      · exact hq.trans hq'.symm
      · subst hq
        rw [Function.update_self] at h
        exact absurd (h'.trans h.symm) (hne hq')
    · by_cases hq' : q' = p
      · subst hq'
        rw [Function.update_self] at h'
        exact absurd (h.trans h'.symm) (hne hq)
      · rw [Function.update_of_ne hq] at h
        rw [Function.update_of_ne hq'] at h'
        exact s.inj h h'
  unreleased {q b} h := by
    by_cases hq : q = p
    · subst hq
      rw [Function.update_self] at h
      obtain rfl := Option.some.inj h
      exact s.fresh (Nat.le_refl _)
    · rw [Function.update_of_ne hq] at h
      exact s.unreleased h
  fresh h := s.fresh (Nat.le_of_succ_le h)

/-- The place `p` is overwritten and points to nothing. -/
def forget (s : Ledger P) (p : P) : Ledger P where
  count := s.count
  released := s.released
  held := Function.update s.held p none
  lt {q b} h := by
    by_cases hq : q = p
    · simp [hq] at h
    · exact s.lt (by rwa [Function.update_of_ne hq] at h)
  inj {q q' b} h h' := by
    by_cases hq : q = p
    · simp [hq] at h
    · by_cases hq' : q' = p
      · simp [hq'] at h'
      · rw [Function.update_of_ne hq] at h
        rw [Function.update_of_ne hq'] at h'
        exact s.inj h h'
  unreleased {q b} h := by
    by_cases hq : q = p
    · simp [hq] at h
    · exact s.unreleased (by rwa [Function.update_of_ne hq] at h)
  fresh := s.fresh

/-- What the place `p` points to is released, and `p` points to nothing. -/
def release (s : Ledger P) (p : P) : Ledger P where
  count := s.count
  released := fun b => if (s.held p = some b) then s.released b + 1 else s.released b
  held := Function.update s.held p none
  lt := (s.forget p).lt
  inj := (s.forget p).inj
  unreleased {q b} h := by
    by_cases hq : q = p
    · simp [hq] at h
    · rw [Function.update_of_ne hq] at h
      rw [if_neg fun hb => hq (s.inj h hb)]
      exact s.unreleased h
  fresh {b} h := by
    rw [if_neg fun hb => absurd (s.lt hb) (Nat.not_lt.2 h)]
    exact s.fresh h

@[simp] theorem acquire_count (s : Ledger P) (p : P) : (s.acquire p).count = s.count + 1 := rfl
@[simp] theorem forget_count (s : Ledger P) (p : P) : (s.forget p).count = s.count := rfl
@[simp] theorem release_count (s : Ledger P) (p : P) : (s.release p).count = s.count := rfl

theorem acquire_held (s : Ledger P) (p : P) : (s.acquire p).held = Function.update s.held p (some s.count) := rfl
theorem forget_held (s : Ledger P) (p : P) : (s.forget p).held = Function.update s.held p none := rfl
theorem release_held (s : Ledger P) (p : P) : (s.release p).held = Function.update s.held p none := rfl

variable {s : Ledger P} {p q : P} {b k : Nat}

theorem release_released_of_held (h : s.held p = some b) : (s.release p).released b = 1 := by
  simp only [release, if_pos h, s.unreleased h]

theorem release_released_of_ne (h : s.held p ≠ some b) : (s.release p).released b = s.released b := if_neg h

/-! ### Lost blocks -/

/-- The block `b` has been acquired and not released, and nothing points to it. -/
structure Lost (s : Ledger P) (b : Nat) : Prop where
  lt : b < s.count
  unreleased : s.released b = 0
  none : ∀ p, s.held p ≠ some b

private theorem held_of_update_none {f : P → Option Nat} (h : Function.update f p Option.none q = some b) :
    f q = some b := by
  by_cases he : q = p
  · simp [he] at h
  · rwa [Function.update_of_ne he] at h

theorem Lost.forget (h : s.Lost b) (p : P) : (s.forget p).Lost b :=
  ⟨h.lt, h.unreleased, fun q hq => h.none q (held_of_update_none hq)⟩

theorem Lost.release (h : s.Lost b) (p : P) : (s.release p).Lost b := by
  refine ⟨h.lt, ?_, fun q hq => h.none q (held_of_update_none hq)⟩
  rw [release_released_of_ne (h.none p)]
  exact h.unreleased

/-- A place that is overwritten loses the block it points to. -/
theorem lost_of_forget (h : s.held p = some b) : (s.forget p).Lost b := by
  refine ⟨s.lt h, s.unreleased h, fun q hq => ?_⟩
  have he : q = p := s.inj (held_of_update_none hq) h
  subst he
  simp [forget_held] at hq

/-- The places `ps` are overwritten. -/
def forgetAll (s : Ledger P) (ps : List P) : Ledger P := ps.foldl forget s

theorem forgetAll_count (s : Ledger P) (ps : List P) : (s.forgetAll ps).count = s.count := by
  induction ps generalizing s with
  | nil => rfl
  | cons p ps ih => exact ih (s.forget p)

theorem forgetAll_held (s : Ledger P) (ps : List P) (q : P) :
    (s.forgetAll ps).held q = if q ∈ ps then none else s.held q := by
  induction ps generalizing s with
  | nil => rfl
  | cons p ps ih =>
    refine (ih (s.forget p)).trans ?_
    by_cases hq : q ∈ ps
    · simp [hq]
    · by_cases he : q = p
      · simp [he, forget_held]
      · simp [hq, he, forget_held, Function.update_of_ne]

theorem Lost.forgetAll (h : s.Lost b) (ps : List P) : (s.forgetAll ps).Lost b := by
  induction ps generalizing s with
  | nil => exact h
  | cons p ps ih => exact ih (h.forget p)

/-- Of the places that are overwritten, each loses the block it points to. -/
theorem lost_of_forgetAll {ps : List P} (hp : p ∈ ps) (h : s.held p = some b) : (s.forgetAll ps).Lost b := by
  induction ps generalizing s with
  | nil => cases hp
  | cons q ps ih =>
    by_cases he : p = q
    · subst he
      exact (lost_of_forget h).forgetAll ps
    · exact ih ((List.mem_cons.1 hp).resolve_left he) ((Function.update_of_ne he _ _).trans h)

/-! ### Blocks that are accounted for -/

/-- Each block from the number `k` on has been released once, or something points to it. -/
def Kept (s : Ledger P) (k : Nat) : Prop := ∀ b, k ≤ b → b < s.count → s.released b = 1 ∨ ∃ p, s.held p = some b

omit [DecidableEq P] in
theorem kept_count (s : Ledger P) : s.Kept s.count := fun _ h hlt => absurd hlt (Nat.not_lt.2 h)

theorem Kept.acquire (h : s.Kept k) (hp : s.held p = none) : (s.acquire p).Kept k := by
  intro b hk hb
  by_cases he : b = s.count
  · subst he
    exact .inr ⟨p, Function.update_self ..⟩
  · refine (h b hk (Nat.lt_of_le_of_ne (Nat.le_of_lt_succ hb) he)).imp id ?_
    rintro ⟨q, hq⟩
    have hne : q ≠ p := by
      rintro rfl
      exact absurd (hq.symm.trans hp) (by simp)
    exact ⟨q, (Function.update_of_ne hne _ _).trans hq⟩

theorem Kept.forget (h : s.Kept k) (hp : s.held p = none) : (s.forget p).Kept k := by
  intro b hk hb
  refine (h b hk hb).imp id ?_
  rintro ⟨q, hq⟩
  have hne : q ≠ p := by
    rintro rfl
    exact absurd (hq.symm.trans hp) (by simp)
  exact ⟨q, (Function.update_of_ne hne _ _).trans hq⟩

theorem Kept.release (h : s.Kept k) (p : P) : (s.release p).Kept k := by
  intro b hk hb
  by_cases hp : s.held p = some b
  · exact .inl (release_released_of_held hp)
  · refine (h b hk hb).imp (fun h₁ => (release_released_of_ne hp).trans h₁) ?_
    rintro ⟨q, hq⟩
    have hne : q ≠ p := by
      rintro rfl
      exact hp hq
    exact ⟨q, (Function.update_of_ne hne _ _).trans hq⟩

/-- The places `ps` are released, one after the other. -/
def releaseAll (s : Ledger P) (ps : List P) : Ledger P := ps.foldl release s

theorem releaseAll_held (s : Ledger P) (ps : List P) (q : P) :
    (s.releaseAll ps).held q = if q ∈ ps then none else s.held q := by
  induction ps generalizing s with
  | nil => rfl
  | cons p ps ih =>
    refine (ih (s.release p)).trans ?_
    by_cases hq : q ∈ ps
    · simp [hq]
    · by_cases he : q = p
      · simp [he, release_held]
      · simp [hq, he, release_held, Function.update_of_ne]

theorem Kept.releaseAll (h : s.Kept k) (ps : List P) : (s.releaseAll ps).Kept k := by
  induction ps generalizing s with
  | nil => exact h
  | cons p ps ih => exact ih (h.release p)

omit [DecidableEq P] in
/-- Where nothing points to them any more, the blocks from the number `k` on have been released once. -/
theorem Kept.released (h : s.Kept k) (hnone : ∀ p b, k ≤ b → s.held p ≠ some b) (hb : k ≤ b) (hlt : b < s.count) :
    s.released b = 1 :=
  (h b hb hlt).resolve_right fun ⟨p, hp⟩ => hnone p b hb hp

/-! ### Lines that may fail -/

/-- A line that may fail, and fills a place if it succeeds and has one. -/
structure Line (P : Type) where
  ok : Bool
  place : Option P := none

/-- The lines up to the first that fails: whether none does, and the ledger. -/
def runLines : List (Line P) → Ledger P → Bool × Ledger P
  | [], s => (true, s)
  | ⟨ok, none⟩ :: ls, s => if ok then runLines ls s else (false, s)
  | ⟨ok, some p⟩ :: ls, s => if ok then runLines ls (s.acquire p) else (false, s.forget p)

/-- The places of the lines -/
def places (ls : List (Line P)) : List P := ls.filterMap (·.place)

theorem runLines_fst (ls : List (Line P)) (s : Ledger P) : (runLines ls s).1 = ls.all (·.ok) := by
  induction ls generalizing s with
  | nil => rfl
  | cons l ls ih =>
    obtain ⟨ok, place⟩ := l
    cases place <;> cases ok <;> simp [runLines, ih]

/-- Lines leave every other place alone. -/
theorem runLines_held (ls : List (Line P)) (hq : q ∉ places ls) (s : Ledger P) :
    (runLines ls s).2.held q = s.held q := by
  induction ls generalizing s with
  | nil => rfl
  | cons l ls ih =>
    obtain ⟨ok, place⟩ := l
    cases place with
    | none =>
      have hq' : q ∉ places ls := hq
      cases ok
      · rfl
      · exact ih hq' s
    | some p =>
      obtain ⟨hne, hq'⟩ : q ≠ p ∧ q ∉ places ls := by simpa [places] using hq
      cases ok
      · exact Function.update_of_ne hne _ _
      · exact (ih hq' _).trans (Function.update_of_ne hne _ _)

/-- Lines with places of their own that are empty lose nothing. -/
theorem Kept.runLines (h : s.Kept k) (ls : List (Line P)) (hnodup : (places ls).Nodup)
    (hnone : ∀ p ∈ places ls, s.held p = Option.none) : (runLines ls s).2.Kept k := by
  induction ls generalizing s with
  | nil => exact h
  | cons l ls ih =>
    obtain ⟨ok, place⟩ := l
    cases place with
    | none =>
      cases ok
      · exact h
      · exact ih h hnodup hnone
    | some p =>
      have hp : s.held p = Option.none := hnone p (by simp [places])
      obtain ⟨hmem, hnodup'⟩ : p ∉ places ls ∧ (places ls).Nodup := by simpa [places] using hnodup
      cases ok
      · exact h.forget hp
      · refine ih (h.acquire hp) hnodup' fun q hq => ?_
        have hne : q ≠ p := by
          rintro rfl
          exact hmem hq
        rw [acquire_held, Function.update_of_ne hne]
        exact hnone q (List.mem_cons_of_mem p hq)

/-- Where all lines succeed, each place is filled. -/
theorem runLines_held_of_mem {ls : List (Line P)} (hok : ls.all (·.ok)) (hnodup : (places ls).Nodup)
    (hp : p ∈ places ls) (s : Ledger P) : ∃ b, s.count ≤ b ∧ (runLines ls s).2.held p = some b := by
  induction ls generalizing s with
  | nil => simp [places] at hp
  | cons l ls ih =>
    obtain ⟨ok, place⟩ := l
    obtain ⟨rfl, hok'⟩ : ok = true ∧ ls.all (·.ok) = true := by simpa using hok
    cases place with
    | none => exact ih hok' hnodup hp s
    | some q =>
      obtain ⟨hmem, hnodup'⟩ : q ∉ places ls ∧ (places ls).Nodup := by simpa [places] using hnodup
      by_cases he : p = q
      · subst he
        exact ⟨s.count, Nat.le_refl _, (runLines_held _ hmem _).trans (Function.update_self ..)⟩
      · have hp' : p ∈ places ls := by simpa [places, he] using hp
        obtain ⟨b, hb, hheld⟩ := ih hok' hnodup' hp' (s.acquire q)
        exact ⟨b, Nat.le_of_succ_le hb, hheld⟩

end Ledger
