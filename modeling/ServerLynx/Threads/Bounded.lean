import ServerLynx.Threads.Machine

/-!
# Code that comes to its end

How many operations the code of a thread performs at most, and how many steps of a thread there are at most in a run in
which each of them makes a rank smaller.
-/

namespace Threads

variable {Op : Type} {Res : Op → Type} {L α β : Type} {j k : Nat}

/-- At most `k` operations are left. -/
def Prog.AtMost : Nat → Prog Op Res L α → Prop
  | _, .ret _ _ => True
  | 0, .act _ _ _ => False
  | k + 1, .act _ _ f => ∀ r, (f r).AtMost k

theorem Prog.AtMost.mono {p : Prog Op Res L α} (h : p.AtMost j) (hle : j ≤ k) : p.AtMost k := by
  induction p generalizing j k with
  | ret l a => cases k <;> trivial
  | act l o f ih =>
    cases j with
    | zero => exact h.elim
    | succ j =>
      obtain ⟨k, rfl⟩ := Nat.exists_eq_add_of_le' (Nat.le_trans (Nat.le_add_left 1 j) hle)
      exact fun r => ih r (h r) (by omega)

theorem Prog.AtMost.bind {p : Prog Op Res L α} {f : L → α → Prog Op Res L β} (hp : p.AtMost j)
    (hf : ∀ l a, (f l a).AtMost k) : (p.bind f).AtMost (j + k) := by
  induction p generalizing j with
  | ret l a => exact (hf l a).mono (Nat.le_add_left k j)
  | act l o g ih =>
    cases j with
    | zero => exact hp.elim
    | succ j =>
      rw [Nat.succ_add]
      exact fun r => ih r (hp r)

/-- The code performs at most `k` operations. -/
def Code.AtMost (k : Nat) (m : Code Op Res L α) : Prop := ∀ l, (m l).AtMost k

namespace Code.AtMost

theorem mono {m : Code Op Res L α} (h : m.AtMost j) (hle : j ≤ k) : m.AtMost k := fun l => (h l).mono hle

theorem pure (a : α) : (pure a : Code Op Res L α).AtMost k := fun _ => by cases k <;> trivial

theorem get : (get : Code Op Res L L).AtMost 0 := fun _ => trivial

theorem modify {f : L → L} : (modify f : Code Op Res L PUnit).AtMost k := fun _ => by cases k <;> trivial

theorem op (o : Op) : (Code.op o : Code Op Res L (Res o)).AtMost 1 := fun _ _ => trivial

theorem bind {m : Code Op Res L α} {f : α → Code Op Res L β} (hm : m.AtMost j) (hf : ∀ a, (f a).AtMost k) :
    (m >>= f).AtMost (j + k) := fun l => (hm l).bind fun l a => hf a l

/-- Code that performs no operation goes first. -/
theorem after_silent {m : Code Op Res L α} {f : α → Code Op Res L β} (hm : m.AtMost 0) (hf : ∀ a, (f a).AtMost k) :
    (m >>= f).AtMost k := (hm.bind hf).mono (by omega)

/-- Code that performs one operation at most goes first. -/
theorem after_op {m : Code Op Res L α} {f : α → Code Op Res L β} (hm : m.AtMost 1) (hf : ∀ a, (f a).AtMost k) :
    (m >>= f).AtMost (k + 1) := (hm.bind hf).mono (by omega)

end Code.AtMost

/-! ### Steps of the first thread -/

variable {Sh L₁ D₁ L₂ D₂ : Type}

/-- The step is one of the first thread. -/
def Act.isFst : Act D₁ D₂ → Bool
  | .op₁ | .run₁ _ => true
  | .op₂ | .run₂ _ => false

/-- A step of the second thread leaves the first one as it is. -/
theorem Machine.step_fst {M : Machine Op Res Sh L₁ D₁ L₂ D₂} {c c' : Config Op Res Sh L₁ L₂} {a : Act D₁ D₂}
    (h : M.step c a = some c') (ha : a.isFst = false) : c'.fst = c.fst := by
  cases a with
  | op₁ => simp [Act.isFst] at ha
  | run₁ d => simp [Act.isFst] at ha
  | op₂ =>
    cases hc : c.snd with
    | ret l x => simp [step, hc] at h
    | act l o k =>
      obtain ⟨r, sh', -, rfl⟩ := step_op₂ hc h
      rfl
  | run₂ d =>
    obtain ⟨l, -, -, rfl⟩ := step_run₂ h
    rfl

/-- Where each step of the first thread makes a rank smaller and no other makes it greater, a run from the rank `k`
has at most `k` of them. -/
theorem Machine.countP_le_of_rank {M : Machine Op Res Sh L₁ D₁ L₂ D₂} {cond : Cond Op Sh L₁ D₁ L₂ D₂}
    {I : Nat → Config Op Res Sh L₁ L₂ → Prop} (hstep : ∀ {k c c' a}, I k c → cond.allows c a → M.step c a = some c' →
      ∃ k', I k' c' ∧ k' + (if a.isFst then 1 else 0) ≤ k) {as : List (Act D₁ D₂)} {c c' : Config Op Res Sh L₁ L₂}
    (h : I k c) (hr : M.runWhen cond c as = some c') : ∃ k', I k' c' ∧ k' + as.countP Act.isFst ≤ k := by
  induction as generalizing c k with
  | nil =>
    cases hr
    exact ⟨k, h, Nat.le_refl k⟩
  | cons a as ih =>
    obtain ⟨ha, hr⟩ := Option.ite_none_right_eq_some.1 hr
    obtain ⟨c₁, h₁, h₂⟩ := Option.bind_eq_some_iff.1 hr
    obtain ⟨k₁, hk₁, hle₁⟩ := hstep h ha h₁
    obtain ⟨k₂, hk₂, hle₂⟩ := ih hk₁ h₂
    refine ⟨k₂, hk₂, ?_⟩
    rw [List.countP_cons]
    omega

end Threads
