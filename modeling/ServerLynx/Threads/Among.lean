import ServerLynx.Threads.Machine

/-!
# Code that comes to its end among the steps of another thread

Total correctness for the code of one thread.  Between two of its operations the other thread may change the shared
structure, along a relation `R`; none of the operations blocks, and at the end the postcondition holds.  `Among₁` are
the runs of a machine in which the second thread keeps to such a relation.
-/

namespace Threads

variable {Op : Type} {Res : Op → Type} {Sh L α β : Type}

section Ends

variable (exec : (o : Op) → Sh → Option (Res o × Sh)) (R : Sh → Sh → Prop) (I : L → Op → Prop)

/-- The code comes to its end and `Q` holds there, where other steps change the shared structure only along `R`; `I`
holds of each operation on the way. -/
def Prog.ends : Prog Op Res L α → (Sh → L → α → Prop) → Sh → Prop
  | .ret l a, Q, sh => Q sh l a
  | .act l o k, Q, sh => I l o ∧ ∀ sh', R sh sh' → ∃ r sh'', exec o sh' = some (r, sh'') ∧ (k r).ends Q sh''

def Code.ends (m : Code Op Res L α) (Q : Sh → L → α → Prop) (l : L) (sh : Sh) : Prop := (m l).ends exec R I Q sh

variable {exec R I} {sh sh' : Sh}

theorem Prog.ends_bind (p : Prog Op Res L α) (f : L → α → Prog Op Res L β) {Q : Sh → L → β → Prop} :
    (p.bind f).ends exec R I Q sh ↔ p.ends exec R I (fun sh l a => (f l a).ends exec R I Q sh) sh := by
  induction p generalizing sh with
  | ret l a => rfl
  | act l o k ih => simp only [Prog.bind, Prog.ends, ih]

/-- Steps of the other thread do no harm to code that comes to its end among them. -/
theorem Prog.ends.among {p : Prog Op Res L α} {Q : Sh → L → α → Prop} (htrans : ∀ {x y z}, R x y → R y z → R x z)
    (hQ : ∀ sh sh' l a, R sh sh' → Q sh l a → Q sh' l a) (h : p.ends exec R I Q sh) (hR : R sh sh') :
    p.ends exec R I Q sh' := by
  cases p with
  | ret l a => exact hQ _ _ _ _ hR h
  | act l o k => exact ⟨h.1, fun sh'' hR' => h.2 sh'' (htrans hR hR')⟩

namespace Code

variable {Q : Sh → L → β → Prop} {l : L}

@[simp] theorem ends_pure (b : β) : ends exec R I (pure b : Code Op Res L β) Q l sh ↔ Q sh l b := Iff.rfl

@[simp] theorem ends_bind (m : Code Op Res L α) (f : α → Code Op Res L β) :
    ends exec R I (m >>= f) Q l sh ↔ ends exec R I m (fun sh l a => ends exec R I (f a) Q l sh) l sh :=
  Prog.ends_bind (m l) fun l a => f a l

@[simp] theorem ends_get {Q : Sh → L → L → Prop} :
    ends exec R I (get : Code Op Res L L) Q l sh ↔ Q sh l l := Iff.rfl

@[simp] theorem ends_set {l' : L} {Q : Sh → L → PUnit → Prop} :
    ends exec R I (set l' : Code Op Res L PUnit) Q l sh ↔ Q sh l' () := Iff.rfl

@[simp] theorem ends_modify {f : L → L} {Q : Sh → L → PUnit → Prop} :
    ends exec R I (modify f : Code Op Res L PUnit) Q l sh ↔ Q sh (f l) () := Iff.rfl

@[simp] theorem ends_op {o : Op} {Q : Sh → L → Res o → Prop} : ends exec R I (op o : Code Op Res L (Res o)) Q l sh ↔
    I l o ∧ ∀ sh', R sh sh' → ∃ r sh'', exec o sh' = some (r, sh'') ∧ Q sh'' l r := Iff.rfl

@[simp] theorem ends_ite {c : Prop} [Decidable c] (m m' : Code Op Res L β) :
    ends exec R I (if c then m else m') Q l sh ↔
      (c → ends exec R I m Q l sh) ∧ (¬c → ends exec R I m' Q l sh) := by
  by_cases h : c <;> simp [h]

end Code

end Ends

namespace Machine

variable {L₁ D₁ L₂ D₂ : Type} (M : Machine Op Res Sh L₁ D₁ L₂ D₂) (R : Sh → Sh → Prop)

/-- The states reached from `c` by operations of the first thread, and steps of the second that change the shared
structure along `R` only.  The first thread is given nothing new to run. -/
inductive Among₁ (c : Config Op Res Sh L₁ L₂) : Config Op Res Sh L₁ L₂ → Prop
  | refl : Among₁ c c
  | own {c' c'' : Config Op Res Sh L₁ L₂} : Among₁ c c' → M.step c' .op₁ = some c'' → Among₁ c c''
  | other {c' c'' : Config Op Res Sh L₁ L₂} {a : Act D₁ D₂} : Among₁ c c' → a = .op₂ ∨ (∃ d, a = .run₂ d) →
      M.step c' a = some c'' → R c'.sh c''.sh → Among₁ c c''

variable {M R} {I : L₁ → Op → Prop} {Q : Sh → L₁ → Unit → Prop} {c c' : Config Op Res Sh L₁ L₂}

/-- Where the first thread has come to its end in such a run, its postcondition holds. -/
theorem Among₁.ends (htrans : ∀ {x y z}, R x y → R y z → R x z) (hrefl : ∀ x, R x x)
    (hQ : ∀ sh sh' l a, R sh sh' → Q sh l a → Q sh' l a) (h : c.fst.ends M.exec R I Q c.sh) (hc : M.Among₁ R c c') :
    c'.fst.ends M.exec R I Q c'.sh := by
  induction hc with
  | refl => exact h
  | @own c' c'' _ hs ih =>
    cases hp : c'.fst with
    | ret l x => simp [Machine.step, hp] at hs
    | act l o k =>
      obtain ⟨r, sh', he, rfl⟩ := step_op₁ hp hs
      rw [hp] at ih
      obtain ⟨r', sh'', he', hk⟩ := ih.2 _ (hrefl _)
      obtain ⟨rfl, rfl⟩ := Prod.mk.inj (Option.some.inj (he.symm.trans he'))
      exact hk
  | @other c' c'' a _ ha hs hR ih =>
    have hsame : c''.fst = c'.fst := by
      rcases ha with rfl | ⟨d, rfl⟩
      · cases hp : c'.snd with
        | ret l x => simp [Machine.step, hp] at hs
        | act l o k =>
          obtain ⟨r, sh', -, rfl⟩ := step_op₂ hp hs
          rfl
      · obtain ⟨l, -, -, rfl⟩ := step_run₂ hs
        rfl
    rw [hsame]
    exact ih.among htrans hQ hR

end Machine

end Threads
