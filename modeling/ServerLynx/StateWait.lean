import Mathlib.Data.Nat.Find
import ServerLynx.PluginRun

/-!
# The bounded wait (`service_state_wait`)

The wait alone, for whatever its loads of the state see: the load before the loop is the load 0, and each sleep is
followed by one more load.  The time that was waited is kept in an `int`, and an addition to it that overflows is
undefined behaviour.
-/

namespace ServerLynx

open Threads

/-- How a wait ends: after so many sleeps, and with which result; `none` if `total_wait_ms` overflows. -/
structure WaitEnd where
  sleeps : Nat
  returned : Option Bool
  deriving DecidableEq

section

variable (observed : Nat → ServiceState) (desired : ServiceState)

/-- The `while` of `service_state_wait`, after `sleeps` sleeps. -/
def boundedWaitLoop (waitMs : BitVec 32) (sleeps totalWaitMs : Nat) (state : ServiceState) : WaitEnd :=
  if state = desired then ⟨sleeps, some true⟩
  else
    let state := observed (sleeps + 1)
    if intMax < totalWaitMs + 50 then ⟨sleeps + 1, none⟩
    else if waitMs.toInt ≤ (totalWaitMs + 50 : Nat) then ⟨sleeps + 1, some false⟩
    else boundedWaitLoop waitMs (sleeps + 1) (totalWaitMs + 50) state
  termination_by intMax - totalWaitMs

/-- `service_state_wait` -/
def boundedWait (waitMs : BitVec 32) : WaitEnd := boundedWaitLoop observed desired waitMs 0 0 (observed 0)

/-- `ceil(wait_ms / 50)` -/
def maxSleeps (waitMs : BitVec 32) : Nat := (waitMs.toNat + 49) / 50

/-- The wait ends after at most `ceil(wait_ms / 50)` sleeps, and it returns `TN_SUCCESS` if and only if one of its
loads saw the desired state. -/
def ReportsWhatItSaw (waitMs : BitVec 32) : Prop :=
  let wait := boundedWait observed desired waitMs
  wait.sleeps ≤ maxSleeps waitMs ∧
    ∃ ok, wait.returned = some ok ∧ (ok = true ↔ ∃ k ≤ wait.sleeps, observed k = desired)

variable {observed desired} {waitMs : BitVec 32} {sleeps : Nat}

private theorem waitMs_pos (h : 0 < waitMs.toInt) : waitMs.toInt = waitMs.toNat ∧ 0 < waitMs.toNat ∧
    waitMs.toNat ≤ intMax := by
  have hlt := waitMs.isLt
  rw [BitVec.toInt_eq_toNat_cond] at h ⊢
  unfold intMax
  split at h
  · exact ⟨by rw [if_pos (by assumption)], by omega, by omega⟩
  · omega

private theorem boundedWaitLoop_turn (hw : waitMs.toInt = waitMs.toNat) (hne : observed sleeps ≠ desired) :
    boundedWaitLoop observed desired waitMs sleeps (50 * sleeps) (observed sleeps) =
      if intMax < 50 * (sleeps + 1) then ⟨sleeps + 1, none⟩
      else if waitMs.toNat ≤ 50 * (sleeps + 1) then ⟨sleeps + 1, some false⟩
      else boundedWaitLoop observed desired waitMs (sleeps + 1) (50 * (sleeps + 1)) (observed (sleeps + 1)) := by
  rw [boundedWaitLoop, if_neg hne]
  simp only [hw, Int.ofNat_le, Nat.mul_add, Nat.mul_one]

/-- The desired state is seen by a load that is followed by a comparison. -/
theorem boundedWaitLoop_of_seen {left : Nat} (hw : waitMs.toInt = waitMs.toNat) (hmax : waitMs.toNat ≤ intMax)
    (hne : ∀ j < sleeps + left, observed j ≠ desired) (hseen : observed (sleeps + left) = desired)
    (hlt : sleeps + left < maxSleeps waitMs) :
    boundedWaitLoop observed desired waitMs sleeps (50 * sleeps) (observed sleeps) = ⟨sleeps + left, some true⟩ := by
  unfold maxSleeps at hlt
  induction left generalizing sleeps with
  | zero =>
    rw [boundedWaitLoop]
    exact if_pos hseen
  | succ left ih =>
    have hnext : sleeps + (left + 1) = sleeps + 1 + left := by omega
    rw [hnext] at hne hseen hlt ⊢
    rw [boundedWaitLoop_turn hw (hne sleeps (by omega)), if_neg (by omega), if_neg (by omega)]
    exact ih hne hseen hlt

/-- No load that is followed by a comparison sees the desired state. -/
theorem boundedWaitLoop_of_unseen {left : Nat} (hw : waitMs.toInt = waitMs.toNat) (hmax : waitMs.toNat ≤ intMax)
    (hne : ∀ j < maxSleeps waitMs, observed j ≠ desired) (hlast : sleeps + left + 1 = maxSleeps waitMs) :
    boundedWaitLoop observed desired waitMs sleeps (50 * sleeps) (observed sleeps) =
      ⟨maxSleeps waitMs, if waitMs.toNat ≤ intMax / 50 * 50 then some false else none⟩ := by
  have hlast' := hlast
  unfold maxSleeps at hlast'
  induction left generalizing sleeps with
  | zero =>
    rw [boundedWaitLoop_turn hw (hne sleeps (by omega)), ← hlast]
    by_cases h : waitMs.toNat ≤ intMax / 50 * 50
    · rw [if_neg (by omega), if_pos (by omega), if_pos h]
    · rw [if_pos (by omega), if_neg h]
  | succ left ih =>
    rw [boundedWaitLoop_turn hw (hne sleeps (by omega)), if_neg (by omega), if_neg (by omega)]
    exact ih (by omega) (by omega)

/-- The wait reports what it saw if and only if a load before the last one saw the desired state, or the last one did
not and `total_wait_ms` does not overflow. -/
theorem boundedWait_reports_iff (observed : Nat → ServiceState) (desired : ServiceState) (waitMs : BitVec 32)
    (hpos : 0 < waitMs.toInt) :
    ReportsWhatItSaw observed desired waitMs ↔
      (∃ k < maxSleeps waitMs, observed k = desired) ∨
        waitMs.toInt ≤ 2147483600 ∧ observed (maxSleeps waitMs) ≠ desired := by
  obtain ⟨hw, hpos', hmax⟩ := waitMs_pos hpos
  have hmult : intMax / 50 * 50 = 2147483600 := by decide
  have hsome : 0 < maxSleeps waitMs := by
    unfold maxSleeps
    omega
  by_cases hseen : ∃ k < maxSleeps waitMs, observed k = desired
  · obtain ⟨hlt, hk⟩ := Nat.find_spec hseen
    have hne : ∀ j < Nat.find hseen, observed j ≠ desired :=
      fun j hj heq => Nat.find_min hseen hj ⟨Nat.lt_trans hj hlt, heq⟩
    have hwait : boundedWait observed desired waitMs = ⟨Nat.find hseen, some true⟩ := by
      have h := @boundedWaitLoop_of_seen observed desired waitMs 0 (Nat.find hseen) hw hmax
      rw [Nat.zero_add] at h
      exact h hne hk hlt
    simp only [ReportsWhatItSaw, hwait, hseen, true_or, iff_true]
    exact ⟨Nat.le_of_lt hlt, true, rfl, fun _ => ⟨_, Nat.le_refl _, hk⟩, fun _ => rfl⟩
  · push Not at hseen
    have hwait := @boundedWaitLoop_of_unseen observed desired waitMs 0 (maxSleeps waitMs - 1) hw hmax hseen (by omega)
    have hnone : ¬ ∃ k < maxSleeps waitMs, observed k = desired := fun ⟨k, hk, heq⟩ => hseen k hk heq
    have hlast : (∃ k ≤ maxSleeps waitMs, observed k = desired) ↔ observed (maxSleeps waitMs) = desired := by
      constructor
      · rintro ⟨k, hle, heq⟩
        rcases Nat.lt_or_eq_of_le hle with hlt | rfl
        · exact absurd heq (hseen k hlt)
        · exact heq
      · exact fun h => ⟨_, Nat.le_refl _, h⟩
    have hint : waitMs.toInt ≤ 2147483600 ↔ waitMs.toNat ≤ intMax / 50 * 50 := by omega
    simp only [ReportsWhatItSaw, boundedWait, hwait, hlast, hnone, hint, false_or]
    by_cases h : waitMs.toNat ≤ intMax / 50 * 50
    · simp [h]
    · simp [h]

/-- The state becomes `SVL_SERVICE_STOPPED` during the ninth sleep of a wait of 500 ms, and the wait returns
`TN_SUCCESS`. -/
theorem boundedWait_reports_ninth :
    boundedWait (fun k => if k < 9 then .stopping else .stopped) .stopped 500#32 = ⟨9, some true⟩ ∧
      ReportsWhatItSaw (fun k => if k < 9 then .stopping else .stopped) .stopped 500#32 :=
  ⟨@boundedWaitLoop_of_seen _ _ _ 0 9 (by decide) (by decide) (by decide) (by decide) (by decide),
    (boundedWait_reports_iff _ .stopped 500#32 (by decide)).2 (.inl ⟨9, by decide, by decide⟩)⟩

/-- The state becomes `SVL_SERVICE_STOPPED` during the tenth sleep of a wait of 500 ms: the load after it sees that, and
the wait returns `TN_ERROR`. -/
theorem boundedWait_misses_last :
    ¬ ReportsWhatItSaw (fun k => if k < 10 then .stopping else .stopped) .stopped 500#32 := by
  have hwait : boundedWait (fun k => if k < 10 then .stopping else .stopped) .stopped 500#32 = ⟨10, some false⟩ :=
    @boundedWaitLoop_of_unseen _ _ _ 0 9 (by decide) (by decide) (by decide) (by decide)
  rintro ⟨-, ok, hok, hiff⟩
  rw [hwait] at hok hiff
  obtain rfl : false = ok := by simpa using hok
  exact absurd (hiff.2 ⟨10, Nat.le_refl _, rfl⟩) (by decide)

/-! ### The wait in the runs of the plugin -/

private theorem stateWaitLoop_answered (answer : Nat → (o : Op) → o.Res) (desired : ServiceState) {left : Nat} (a : App)
    (hw : waitMs.toInt = waitMs.toNat) (hmax : waitMs.toNat ≤ intMax / 50 * 50)
    (hlast : sleeps + left + 1 = maxSleeps waitMs) :
    (boundedWaitLoop (fun k => answer k .stateLoad) desired waitMs sleeps (50 * sleeps)
        (answer sleeps .stateLoad)).returned =
      some ((stateWaitLoop desired left (answer sleeps .stateLoad) a).answered answer (sleeps + 1)).2 := by
  have hlast' := hlast
  unfold maxSleeps at hlast'
  induction left generalizing sleeps a with
  | zero =>
    by_cases h : answer sleeps .stateLoad = desired
    · rw [boundedWaitLoop, if_pos h]
      simp only [stateWaitLoop, h, if_true]
      rfl
    · rw [boundedWaitLoop_turn hw h, if_neg (by omega), if_pos (by omega)]
      simp only [stateWaitLoop, h, if_false]
      rfl
  | succ left ih =>
    by_cases h : answer sleeps .stateLoad = desired
    · rw [boundedWaitLoop, if_pos h]
      simp only [stateWaitLoop, h, if_true]
      rfl
    · rw [boundedWaitLoop_turn hw h, if_neg (by omega), if_neg (by omega),
        ih { a with stage := .wait desired (left + 1) } (by omega) (by omega)]
      simp only [stateWaitLoop, h, if_false]
      rfl

/-- The wait that the runs of the plugin contain returns what the wait alone returns, where its loads see the same. -/
theorem serviceStateWait_answered (answer : Nat → (o : Op) → o.Res) (desired : ServiceState) (a : App)
    (hpos : 0 < waitMs.toInt) (hmax : waitMs.toInt ≤ 2147483600) :
    (boundedWait (fun k => answer k .stateLoad) desired waitMs).returned =
      some ((serviceStateWait desired waitMs.toNat a).answered answer 0).2 := by
  obtain ⟨hw, hpos', -⟩ := waitMs_pos hpos
  have hmult : intMax / 50 * 50 = 2147483600 := by decide
  have hlast : 0 + (waitMs.toNat - 1) / 50 + 1 = maxSleeps waitMs := by
    unfold maxSleeps
    omega
  exact stateWaitLoop_answered answer desired { a with stage := .wait desired (waitMs.toNat / 50) } hw (by omega) hlast

end

end ServerLynx
