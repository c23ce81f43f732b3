import ServerLynx.Threads.Code

/-!
# Two threads: runs and invariants

A machine of two threads that share a structure.  A thread whose code has ended is idle; an idle thread may be given
new code (`run₁ d`, `run₂ d`), provided the machine is ready for it.  Every other step performs the next atomic
operation of one thread, so the runs of the machine are all the interleavings of the operations of the two threads.

`Reach` is the set of states reached by the runs all of whose steps meet a condition; `Reach.invariant` is the
rule by which every invariant is proved: each code, run alone against an arbitrary other thread, keeps it.
-/

namespace Threads

variable {Op : Type} {Res : Op → Type} {Sh L₁ D₁ L₂ D₂ : Type}

/-- The operations of the shared structure, and the code the two threads may be given when they are idle.  An
operation that yields `none` is blocked. -/
structure Machine (Op : Type) (Res : Op → Type) (Sh L₁ D₁ L₂ D₂ : Type) where
  exec : (o : Op) → Sh → Option (Res o × Sh)
  code₁ : D₁ → Code Op Res L₁ Unit
  ready₁ : D₁ → Sh → L₁ → Bool
  code₂ : D₂ → Code Op Res L₂ Unit
  ready₂ : D₂ → Sh → L₂ → Bool

structure Config (Op : Type) (Res : Op → Type) (Sh L₁ L₂ : Type) where
  sh : Sh
  fst : Prog Op Res L₁ Unit
  snd : Prog Op Res L₂ Unit

/-- Both threads idle. -/
def Config.idle (sh : Sh) (l₁ : L₁) (l₂ : L₂) : Config Op Res Sh L₁ L₂ := ⟨sh, .ret l₁ (), .ret l₂ ()⟩

/-- The steps of a machine. -/
inductive Act (D₁ D₂ : Type) : Type
  | op₁ | op₂
  | run₁ (d : D₁)
  | run₂ (d : D₂)

/-- A condition on the steps of a run, by what is visible before the step. -/
structure Cond (Op Sh L₁ D₁ L₂ D₂ : Type) where
  op₁ : Sh → View L₁ Op → View L₂ Op → Bool := fun _ _ _ => true
  op₂ : Sh → View L₁ Op → View L₂ Op → Bool := fun _ _ _ => true
  run₁ : D₁ → Sh → View L₁ Op → View L₂ Op → Bool := fun _ _ _ _ => true
  run₂ : D₂ → Sh → View L₁ Op → View L₂ Op → Bool := fun _ _ _ _ => true

/-- No condition. -/
def Cond.any : Cond Op Sh L₁ D₁ L₂ D₂ := {}

def Cond.allows (cond : Cond Op Sh L₁ D₁ L₂ D₂) (c : Config Op Res Sh L₁ L₂) : Act D₁ D₂ → Bool
  | .op₁ => cond.op₁ c.sh c.fst.view c.snd.view
  | .op₂ => cond.op₂ c.sh c.fst.view c.snd.view
  | .run₁ d => cond.run₁ d c.sh c.fst.view c.snd.view
  | .run₂ d => cond.run₂ d c.sh c.fst.view c.snd.view

theorem Cond.any_allows (c : Config Op Res Sh L₁ L₂) (a : Act D₁ D₂) : Cond.any.allows c a := by
  cases a <;> rfl

namespace Machine

variable (M : Machine Op Res Sh L₁ D₁ L₂ D₂)

/-- One step of one thread, or `none` where the step is not possible. -/
def step (c : Config Op Res Sh L₁ L₂) : Act D₁ D₂ → Option (Config Op Res Sh L₁ L₂)
  | .op₁ => match c.fst with
    | .ret _ _ => none
    | .act _ o k => (M.exec o c.sh).map fun x => { c with sh := x.2, fst := k x.1 }
  | .op₂ => match c.snd with
    | .ret _ _ => none
    | .act _ o k => (M.exec o c.sh).map fun x => { c with sh := x.2, snd := k x.1 }
  | .run₁ d => match c.fst with
    | .ret l _ => if M.ready₁ d c.sh l then some { c with fst := M.code₁ d l } else none
    | .act _ _ _ => none
  | .run₂ d => match c.snd with
    | .ret l _ => if M.ready₂ d c.sh l then some { c with snd := M.code₂ d l } else none
    | .act _ _ _ => none

/-- The steps of a list, one after the other. -/
def run : Config Op Res Sh L₁ L₂ → List (Act D₁ D₂) → Option (Config Op Res Sh L₁ L₂)
  | c, [] => some c
  | c, a :: as => (M.step c a).bind fun c' => run c' as

/-- The steps of a list, as long as each of them meets `cond`. -/
def runWhen (cond : Cond Op Sh L₁ D₁ L₂ D₂) :
    Config Op Res Sh L₁ L₂ → List (Act D₁ D₂) → Option (Config Op Res Sh L₁ L₂)
  | c, [] => some c
  | c, a :: as => if cond.allows c a then (M.step c a).bind fun c' => runWhen cond c' as else none

/-- The states reached from `c₀` by steps that meet `cond`. -/
inductive Reach (cond : Cond Op Sh L₁ D₁ L₂ D₂) (c₀ : Config Op Res Sh L₁ L₂) :
    Config Op Res Sh L₁ L₂ → Prop
  | init : Reach cond c₀ c₀
  | step {c c' : Config Op Res Sh L₁ L₂} (a : Act D₁ D₂) : Reach cond c₀ c → cond.allows c a →
      M.step c a = some c' → Reach cond c₀ c'

variable {M} {cond : Cond Op Sh L₁ D₁ L₂ D₂} {c₀ c c' : Config Op Res Sh L₁ L₂}

/-- A run that can be computed ends in a reachable state. -/
theorem Reach.of_runWhen {as : List (Act D₁ D₂)} (h : M.Reach cond c₀ c) (hr : M.runWhen cond c as = some c') :
    M.Reach cond c₀ c' := by
  induction as generalizing c with
  | nil => cases hr; exact h
  | cons a as ih =>
    obtain ⟨ha, hr⟩ := Option.ite_none_right_eq_some.1 hr
    obtain ⟨c₁, h₁, h₂⟩ := Option.bind_eq_some_iff.1 hr
    exact ih (h.step a ha h₁) h₂

/-- A computed run reaches a state with the property that its end is computed to have. -/
theorem Reach.exists_of_runWhen {as : List (Act D₁ D₂)} {P : Config Op Res Sh L₁ L₂ → Bool}
    (h : (M.runWhen cond c₀ as).any P = true) : ∃ c, M.Reach cond c₀ c ∧ P c = true := by
  obtain ⟨hs, hP⟩ := (Option.any_eq_true_iff_get _ _).1 h
  exact ⟨_, .of_runWhen .init (Option.some_get hs).symm, hP⟩

theorem Reach.trans (h : M.Reach cond c₀ c) (h' : M.Reach cond c c') : M.Reach cond c₀ c' := by
  induction h' with
  | init => exact h
  | step a _ ha hs ih => exact .step a ih ha hs

theorem Reach.to_any (h : M.Reach cond c₀ c) : M.Reach .any c₀ c := by
  induction h with
  | init => exact .init
  | step a _ _ hs ih => exact ih.step a (Cond.any_allows _ a) hs

/-- Steps that meet `cond` in the states that they reach meet a condition that follows from it there. -/
theorem Reach.weaken {cond' : Cond Op Sh L₁ D₁ L₂ D₂} (h : M.Reach cond c₀ c)
    (hc : ∀ c a, M.Reach cond c₀ c → cond.allows c a → cond'.allows c a) : M.Reach cond' c₀ c := by
  induction h with
  | init => exact .init
  | step a hr ha hs ih => exact ih.step a (hc _ a hr ha) hs

theorem step_op₁ {l : L₁} {o : Op} {k : Res o → Prog Op Res L₁ Unit} (hc : c.fst = .act l o k)
    (h : M.step c .op₁ = some c') :
    ∃ r sh', M.exec o c.sh = some (r, sh') ∧ c' = { c with sh := sh', fst := k r } := by
  simp only [step, hc, Option.map_eq_some_iff, Prod.exists] at h
  obtain ⟨r, sh', h, rfl⟩ := h
  exact ⟨r, sh', h, rfl⟩

theorem step_op₂ {l : L₂} {o : Op} {k : Res o → Prog Op Res L₂ Unit} (hc : c.snd = .act l o k)
    (h : M.step c .op₂ = some c') :
    ∃ r sh', M.exec o c.sh = some (r, sh') ∧ c' = { c with sh := sh', snd := k r } := by
  simp only [step, hc, Option.map_eq_some_iff, Prod.exists] at h
  obtain ⟨r, sh', h, rfl⟩ := h
  exact ⟨r, sh', h, rfl⟩

theorem step_run₁ {d : D₁} (h : M.step c (.run₁ d) = some c') :
    ∃ l, c.fst = .ret l () ∧ M.ready₁ d c.sh l = true ∧ c' = { c with fst := M.code₁ d l } := by
  unfold step at h
  cases hc : c.fst with
  | act l o k => simp [hc] at h
  | ret l a =>
    simp only [hc, Option.ite_none_right_eq_some, Option.some.injEq] at h
    exact ⟨l, rfl, h.1, h.2.symm⟩

theorem step_run₂ {d : D₂} (h : M.step c (.run₂ d) = some c') :
    ∃ l, c.snd = .ret l () ∧ M.ready₂ d c.sh l = true ∧ c' = { c with snd := M.code₂ d l } := by
  unfold step at h
  cases hc : c.snd with
  | act l o k => simp [hc] at h
  | ret l a =>
    simp only [hc, Option.ite_none_right_eq_some, Option.some.injEq] at h
    exact ⟨l, rfl, h.1, h.2.symm⟩

/-- A thread that is not given new code stays as it is, or performs its next operation. -/
theorem step_snd {a : Act D₁ D₂} (h : M.step c a = some c') (ha : ∀ d, a ≠ .run₂ d) :
    (a ≠ .op₂ ∧ c'.snd = c.snd) ∨ (a = .op₂ ∧ ∃ l o k r, c.snd = .act l o k ∧ M.exec o c.sh = some (r, c'.sh) ∧
      c'.snd = k r) := by
  cases a with
  | run₂ d => exact absurd rfl (ha d)
  | run₁ d =>
    obtain ⟨l, -, -, rfl⟩ := step_run₁ h
    exact .inl ⟨by simp, rfl⟩
  | op₁ =>
    cases hc : c.fst with
    | ret l x => simp [step, hc] at h
    | act l o k =>
      obtain ⟨r, sh', -, rfl⟩ := step_op₁ hc h
      exact .inl ⟨by simp, rfl⟩
  | op₂ =>
    cases hc : c.snd with
    | ret l x => simp [step, hc] at h
    | act l o k =>
      obtain ⟨r, sh', he, rfl⟩ := step_op₂ hc h
      exact .inr ⟨rfl, l, o, k, r, rfl, he, rfl⟩

end Machine

/-! ### What is left of a code -/

/-- What may be left of a program after some of its operations. -/
inductive Prog.Rest {L α : Type} (p : Prog Op Res L α) : Prog Op Res L α → Prop
  | refl : Rest p p
  | act {l : L} {o : Op} {k : Res o → Prog Op Res L α} (r : Res o) : Rest p (.act l o k) → Rest p (k r)

/-- What a path says of a program it says of what is left of it. -/
theorem Prog.Rest.path {L α : Type} {p q : Prog Op Res L α} {I : L → Op → Prop} {Q : L → α → Prop} (h : p.Rest q)
    (hp : p.path (fun _ _ _ => True) I Q) : q.path (fun _ _ _ => True) I Q := by
  induction h with
  | refl => exact hp
  | act r _ ih => exact ih.2 r trivial

/-- All of a program is left of it, or some of what follows its first operation. -/
theorem Prog.Rest.head {L α : Type} {p q : Prog Op Res L α} (h : p.Rest q) :
    q = p ∨ ∃ l o k r, p = .act l o k ∧ (k r).Rest q := by
  induction h with
  | refl => exact .inl rfl
  | @act l o k r _ ih =>
    rcases ih with rfl | ⟨l₀, o₀, k₀, r₀, hp, hrest⟩
    · exact .inr ⟨l, o, k, r, rfl, .refl⟩
    · exact .inr ⟨l₀, o₀, k₀, r₀, hp, .act r hrest⟩

/-- In a run from the idle state, the second thread is idle from the start on, or in one of its codes. -/
theorem Machine.Reach.rest₂ {M : Machine Op Res Sh L₁ D₁ L₂ D₂} {cond : Cond Op Sh L₁ D₁ L₂ D₂} {sh : Sh} {l₁ : L₁}
    {l₂ : L₂} {c : Config Op Res Sh L₁ L₂} (h : M.Reach cond (.idle sh l₁ l₂) c) :
    c.snd = .ret l₂ () ∨ ∃ d l, (M.code₂ d l).Rest c.snd := by
  induction h with
  | init => exact .inl rfl
  | @step c c' a _ _ hs ih =>
    by_cases hrun : ∃ d, a = .run₂ d
    · obtain ⟨d, rfl⟩ := hrun
      obtain ⟨l, -, -, rfl⟩ := step_run₂ hs
      exact .inr ⟨d, l, .refl⟩
    · rcases step_snd hs (not_exists.1 hrun) with ⟨-, hsame⟩ | ⟨-, l, o, k, r, hc, -, hc'⟩
      · exact hsame ▸ ih
      · rcases ih with h | ⟨d, l', h⟩
        · exact absurd (hc.symm.trans h) (by simp)
        · exact .inr ⟨d, l', hc' ▸ .act r (hc ▸ h)⟩

/-! ### The invariant rule -/

section Rule

variable {L V : Type} (exec : (o : Op) → Sh → Option (Res o × Sh)) (K J C : Sh → View L Op → V → Prop)

/-- The code of a thread ends in states where `J` holds. -/
def Post (S : Sh → V → Prop) (l : L) (_ : Unit) : Prop :=
  ∀ sh v, S sh v → K sh ⟨l, none⟩ v → J sh ⟨l, none⟩ v

/-- What is left of the code of a thread keeps `J`. -/
private def Prog.Safe : Prog Op Res L Unit → Prop
  | .ret _ _ => True
  | .act l o k => ∀ r, (∃ sh v, After exec K J C l o r sh v) →
      (k r).wp exec K J C (After exec K J C l o r) (Post K J)

variable {exec K J C}

private theorem Prog.wp.safe {p : Prog Op Res L Unit} {S : Sh → V → Prop}
    (h : p.wp exec K J C S (Post K J)) :
    (∀ sh v, S sh v → K sh p.view v → J sh p.view v) ∧ p.Safe exec K J C := by
  cases p with
  | ret l a => exact ⟨h, trivial⟩
  | act l o k => exact ⟨h.1, h.2⟩

end Rule

namespace Machine

variable (M : Machine Op Res Sh L₁ D₁ L₂ D₂) (cond : Cond Op Sh L₁ D₁ L₂ D₂)
  (K J : Sh → View L₁ Op → View L₂ Op → Prop)

/-- The states in which the first thread may be given the code `d`. -/
def Start₁ (d : D₁) (l : L₁) (sh : Sh) (v : View L₂ Op) : Prop :=
  K sh ⟨l, none⟩ v ∧ J sh ⟨l, none⟩ v ∧ M.ready₁ d sh l = true ∧ cond.run₁ d sh ⟨l, none⟩ v

def Start₂ (d : D₂) (l : L₂) (sh : Sh) (v : View L₁ Op) : Prop :=
  K sh v ⟨l, none⟩ ∧ J sh v ⟨l, none⟩ ∧ M.ready₂ d sh l = true ∧ cond.run₂ d sh v ⟨l, none⟩

/-- The code `d` of the first thread keeps `J` wherever it may be given. -/
def Keeps₁ (d : D₁) : Prop :=
  ∀ l, (∃ sh v, M.Start₁ cond K J d l sh v) →
    (M.code₁ d).wp M.exec K J (fun sh v w => cond.op₁ sh v w) (M.Start₁ cond K J d l) (Post K J) l

def Keeps₂ (d : D₂) : Prop :=
  ∀ l, (∃ sh v, M.Start₂ cond K J d l sh v) →
    (M.code₂ d).wp M.exec (fun sh v w => K sh w v) (fun sh v w => J sh w v) (fun sh v w => cond.op₂ sh w v)
      (M.Start₂ cond K J d l) (Post (fun sh v w => K sh w v) fun sh v w => J sh w v) l

variable {M cond K J}

/-- The invariant rule: if `J` holds at first and each code keeps it, given the invariant `K` that is already
established, then `J` holds in every state that is reached. -/
theorem Reach.invariant {sh₀ : Sh} {l₁ : L₁} {l₂ : L₂} {c : Config Op Res Sh L₁ L₂}
    (hK : ∀ c, M.Reach cond (.idle sh₀ l₁ l₂) c → K c.sh c.fst.view c.snd.view)
    (h₀ : J sh₀ ⟨l₁, none⟩ ⟨l₂, none⟩) (h₁ : ∀ d, M.Keeps₁ cond K J d) (h₂ : ∀ d, M.Keeps₂ cond K J d)
    (h : M.Reach cond (.idle sh₀ l₁ l₂) c) : J c.sh c.fst.view c.snd.view := by
  suffices H : J c.sh c.fst.view c.snd.view ∧ c.fst.Safe M.exec K J (fun sh v w => cond.op₁ sh v w) ∧
      c.snd.Safe M.exec (fun sh v w => K sh w v) (fun sh v w => J sh w v) fun sh v w => cond.op₂ sh w v from H.1
  induction h with
  | init => exact ⟨h₀, trivial, trivial⟩
  | @step c c' a hc ha hs ih =>
    obtain ⟨hJ, hf, hg⟩ := ih
    have hKc := hK c hc
    have hKc' := hK c' (hc.step a ha hs)
    cases a with
    | op₁ =>
      cases hp : c.fst with
      | ret l x => simp [Machine.step, hp] at hs
      | act l o k =>
        obtain ⟨r, sh', he, rfl⟩ := step_op₁ hp hs
        rw [hp] at hf hJ hKc
        have ha' : cond.op₁ c.sh c.fst.view c.snd.view := ha
        rw [hp] at ha'
        have hafter : After M.exec K J (fun sh v w => cond.op₁ sh v w) l o r sh' c.snd.view := ⟨c.sh, hKc, hJ, ha', he⟩
        have := Prog.wp.safe (hf r ⟨_, _, hafter⟩)
        exact ⟨this.1 _ _ hafter hKc', this.2, hg⟩
    | op₂ =>
      cases hp : c.snd with
      | ret l x => simp [Machine.step, hp] at hs
      | act l o k =>
        obtain ⟨r, sh', he, rfl⟩ := step_op₂ hp hs
        rw [hp] at hg hJ hKc
        have ha' : cond.op₂ c.sh c.fst.view c.snd.view := ha
        rw [hp] at ha'
        have hafter : After M.exec (fun sh v w => K sh w v) (fun sh v w => J sh w v) (fun sh v w => cond.op₂ sh w v)
            l o r sh' c.fst.view := ⟨c.sh, hKc, hJ, ha', he⟩
        have := Prog.wp.safe (hg r ⟨_, _, hafter⟩)
        exact ⟨this.1 _ _ hafter hKc', hf, this.2⟩
    | run₁ d =>
      obtain ⟨l, hp, hr, rfl⟩ := step_run₁ hs
      rw [hp] at hJ hKc
      have ha' : cond.run₁ d c.sh c.fst.view c.snd.view := ha
      rw [hp] at ha'
      have hst : M.Start₁ cond K J d l c.sh c.snd.view := ⟨hKc, hJ, hr, ha'⟩
      have := Prog.wp.safe (h₁ d l ⟨_, _, hst⟩)
      exact ⟨this.1 _ _ hst hKc', this.2, hg⟩
    | run₂ d =>
      obtain ⟨l, hp, hr, rfl⟩ := step_run₂ hs
      rw [hp] at hJ hKc
      have ha' : cond.run₂ d c.sh c.fst.view c.snd.view := ha
      rw [hp] at ha'
      have hst : M.Start₂ cond K J d l c.sh c.fst.view := ⟨hKc, hJ, hr, ha'⟩
      have := Prog.wp.safe (h₂ d l ⟨_, _, hst⟩)
      exact ⟨this.1 _ _ hst hKc', hf, this.2⟩

/-! ### Invariants of the first thread alone -/

section Alone

variable (M : Machine Op Res Sh L₁ D₁ L₂ D₂) (cond : Cond Op Sh L₁ D₁ L₂ D₂)
  (K : Sh → View L₁ Op → View L₂ Op → Prop)

/-- The results that an operation of the first thread may have, given the established invariant `K`. -/
def Can₁ (l : L₁) (o : Op) (r : Res o) : Prop :=
  ∃ sh v sh', K sh ⟨l, some o⟩ v ∧ cond.op₁ sh ⟨l, some o⟩ v ∧ M.exec o sh = some (r, sh')

/-- The first thread may be given the code `d` when its private state is `l`. -/
def MayRun₁ (d : D₁) (l : L₁) : Prop :=
  ∃ sh v, K sh ⟨l, none⟩ v ∧ M.ready₁ d sh l = true ∧ cond.run₁ d sh ⟨l, none⟩ v

variable {M cond K}

/-- What holds of the first thread along a path holds after each of its operations. -/
theorem path_step {I : L₁ → Op → Prop} {Q : L₁ → Unit → Prop} {c c' : Config Op Res Sh L₁ L₂} {a : Act D₁ D₂}
    (hK : K c.sh c.fst.view c.snd.view) (ha : cond.allows c a) (hr : ∀ d, a ≠ .run₁ d)
    (h : c.fst.path (M.Can₁ cond K) I Q) (hs : M.step c a = some c') : c'.fst.path (M.Can₁ cond K) I Q := by
  cases a with
  | op₁ =>
    cases hp : c.fst with
    | ret l x => simp [Machine.step, hp] at hs
    | act l o k =>
      obtain ⟨r, sh', he, rfl⟩ := step_op₁ hp hs
      rw [hp] at h hK
      have ha' : cond.op₁ c.sh c.fst.view c.snd.view := ha
      rw [hp] at ha'
      exact h.2 r ⟨c.sh, _, sh', hK, ha', he⟩
  | op₂ =>
    cases hp : c.snd with
    | ret l x => simp [Machine.step, hp] at hs
    | act l o k =>
      obtain ⟨r, sh', he, rfl⟩ := step_op₂ hp hs
      exact h
  | run₁ d => exact absurd rfl (hr d)
  | run₂ d =>
    obtain ⟨l, hp, hr, rfl⟩ := step_run₂ hs
    exact h

/-- The first thread goes on along its path, as long as it is not given new code. -/
theorem path_run {I : L₁ → Op → Prop} {Q : L₁ → Unit → Prop} {c c' : Config Op Res Sh L₁ L₂} {as : List (Act D₁ D₂)}
    (h : c.fst.path (M.Can₁ .any fun _ _ _ => True) I Q) (hr : M.run c as = some c')
    (has : ∀ a ∈ as, ∀ d, a ≠ .run₁ d) : c'.fst.path (M.Can₁ .any fun _ _ _ => True) I Q := by
  induction as generalizing c with
  | nil => cases hr; exact h
  | cons a as ih =>
    obtain ⟨c₁, h₁, h₂⟩ := Option.bind_eq_some_iff.1 hr
    have ha := has a (List.mem_cons_self ..)
    exact ih (path_step trivial (Cond.any_allows c a) ha h h₁) h₂ fun a' hm => has a' (List.mem_cons_of_mem _ hm)

/-- From any state in which the first thread is on a path: it stays on such paths if each code is one. -/
theorem Reach.path₁ {c₀ c : Config Op Res Sh L₁ L₂} {I : View L₁ Op → Prop}
    (hK : ∀ c, M.Reach cond c₀ c → K c.sh c.fst.view c.snd.view)
    (h₀ : c₀.fst.path (M.Can₁ cond K) (fun l o => I ⟨l, some o⟩) fun l _ => I ⟨l, none⟩)
    (hI : ∀ d l, M.MayRun₁ cond K d l → I ⟨l, none⟩ →
      (M.code₁ d).path (M.Can₁ cond K) (fun l o => I ⟨l, some o⟩) (fun l _ => I ⟨l, none⟩) l)
    (h : M.Reach cond c₀ c) : c.fst.path (M.Can₁ cond K) (fun l o => I ⟨l, some o⟩) fun l _ => I ⟨l, none⟩ := by
  induction h with
  | init => exact h₀
  | @step c c' a hc ha hs ih =>
    cases a with
    | run₁ d =>
      obtain ⟨l, hp, hr, rfl⟩ := step_run₁ hs
      have hKc := hK c hc
      have ha' : cond.run₁ d c.sh c.fst.view c.snd.view := ha
      rw [hp] at ih hKc ha'
      exact hI d l ⟨_, _, hKc, hr, ha'⟩ ih
    | op₁ => exact path_step (hK c hc) ha (by simp) ih hs
    | op₂ => exact path_step (hK c hc) ha (by simp) ih hs
    | run₂ d => exact path_step (hK c hc) ha (by simp) ih hs

/-- On a path, what it says of the thread holds. -/
theorem path_view {can : L₁ → (o : Op) → Res o → Prop} {I : View L₁ Op → Prop} {p : Prog Op Res L₁ Unit}
    (h : p.path can (fun l o => I ⟨l, some o⟩) fun l _ => I ⟨l, none⟩) : I p.view := by
  cases p with
  | ret l x => exact h
  | act l o k => exact h.1

/-- An invariant of the private state of the first thread holds if each code keeps it. -/
theorem Reach.invariant₁ {sh₀ : Sh} {l₁ : L₁} {l₂ : L₂} {c : Config Op Res Sh L₁ L₂} {I : View L₁ Op → Prop}
    (hK : ∀ c, M.Reach cond (.idle sh₀ l₁ l₂) c → K c.sh c.fst.view c.snd.view) (h₀ : I ⟨l₁, none⟩)
    (hI : ∀ d l, M.MayRun₁ cond K d l → I ⟨l, none⟩ →
      (M.code₁ d).path (M.Can₁ cond K) (fun l o => I ⟨l, some o⟩) (fun l _ => I ⟨l, none⟩) l)
    (h : M.Reach cond (.idle sh₀ l₁ l₂) c) : I c.fst.view :=
  path_view (Reach.path₁ hK h₀ hI h)

end Alone

/-- What a thread is about to perform is one of the operations that its codes keep to. -/
theorem Reach.within {P₁ P₂ : Op → Prop} {R₁ : D₁ → L₁ → L₁ → Prop} {R₂ : D₂ → L₂ → L₂ → Prop} {sh₀ : Sh} {l₁ : L₁}
    {l₂ : L₂} {c : Config Op Res Sh L₁ L₂} (h₁ : ∀ d, (M.code₁ d).Within P₁ (R₁ d))
    (h₂ : ∀ d, (M.code₂ d).Within P₂ (R₂ d))
    (h : M.Reach cond (.idle sh₀ l₁ l₂) c) :
    (∀ o, c.fst.view.next = some o → P₁ o) ∧ (∀ o, c.snd.view.next = some o → P₂ o) := by
  suffices H : c.fst.path (fun _ _ _ => True) (fun _ o => P₁ o) (fun _ _ => True) ∧
      c.snd.path (fun _ _ _ => True) (fun _ o => P₂ o) fun _ _ => True by
    refine ⟨fun o ho => ?_, fun o ho => ?_⟩
    · cases hp : c.fst with
      | ret l x => simp [hp] at ho
      | act l o' k =>
        rw [hp] at H ho
        exact Option.some.inj ho ▸ H.1.1
    · cases hp : c.snd with
      | ret l x => simp [hp] at ho
      | act l o' k =>
        rw [hp] at H ho
        exact Option.some.inj ho ▸ H.2.1
  induction h with
  | init => exact ⟨trivial, trivial⟩
  | @step c c' a _ _ hs ih =>
    cases a with
    | op₁ =>
      cases hp : c.fst with
      | ret l x => simp [Machine.step, hp] at hs
      | act l o k =>
        obtain ⟨r, sh', -, rfl⟩ := step_op₁ hp hs
        rw [hp] at ih
        exact ⟨ih.1.2 r trivial, ih.2⟩
    | op₂ =>
      cases hp : c.snd with
      | ret l x => simp [Machine.step, hp] at hs
      | act l o k =>
        obtain ⟨r, sh', -, rfl⟩ := step_op₂ hp hs
        rw [hp] at ih
        exact ⟨ih.1, ih.2.2 r trivial⟩
    | run₁ d =>
      obtain ⟨l, -, -, rfl⟩ := step_run₁ hs
      exact ⟨Prog.path_mono (fun _ _ h => h.1) (fun _ _ _ => trivial) ((h₁ d).path l), ih.2⟩
    | run₂ d =>
      obtain ⟨l, -, -, rfl⟩ := step_run₂ hs
      exact ⟨ih.1, Prog.path_mono (fun _ _ h => h.1) (fun _ _ _ => trivial) ((h₂ d).path l)⟩

end Machine

end Threads
