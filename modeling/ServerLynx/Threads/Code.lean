import Mathlib.Logic.Function.Basic

/-!
# Threads that share a structure through atomic operations

The code of a thread with a private state `L`: a tree whose inner nodes are atomic operations on a structure that
it shares with another thread, and whose leaves are ends of the code.  A node carries the private state the thread
has when it reaches the operation, so the state of a thread between two operations is visible: what is computed
between two operations touches the private state only, and is part of the step of the first one.

`Prog.wp` is a weakest precondition for one thread under interference.  It is stated for an invariant `J` on the
shared structure, the thread itself and the other thread, and it asks that `J` holds whenever the thread is about
to perform an operation; the states in which the thread may find itself are passed along as a predicate `S`.
`Prog.path` is the simpler notion for what concerns the private state of one thread only.
-/

namespace Threads

/-- The code of a thread, from its private state on. -/
inductive Prog (Op : Type) (Res : Op → Type) (L α : Type) : Type
  | ret (l : L) (a : α)
  | act (l : L) (o : Op) (k : Res o → Prog Op Res L α)

/-- What is visible of a thread: its private state and the operation it is about to perform. -/
structure View (L Op : Type) where
  loc : L
  next : Option Op

/-- Code with a result, as a function of the private state it starts from. -/
def Code (Op : Type) (Res : Op → Type) (L α : Type) : Type := L → Prog Op Res L α

variable {Op : Type} {Res : Op → Type} {L α β : Type}

namespace Prog

def bind : Prog Op Res L α → (L → α → Prog Op Res L β) → Prog Op Res L β
  | .ret l a, f => f l a
  | .act l o k, f => .act l o fun r => (k r).bind f

def loc : Prog Op Res L α → L
  | .ret l _ => l
  | .act l _ _ => l

def next : Prog Op Res L α → Option Op
  | .ret _ _ => none
  | .act _ o _ => some o

/-- The result of code that has ended. -/
def result : Prog Op Res L α → Option α
  | .ret _ a => some a
  | .act _ _ _ => none

def view (p : Prog Op Res L α) : View L Op := ⟨p.loc, p.next⟩

/-- The private state and the result at the end, where the operation number `n` and those after it have the results
that `answer` gives. -/
def answered (answer : Nat → (o : Op) → Res o) : Prog Op Res L α → Nat → L × α
  | .ret l a, _ => (l, a)
  | .act _ o k, n => (k (answer n o)).answered answer (n + 1)

@[simp] theorem view_ret (l : L) (a : α) : (ret l a : Prog Op Res L α).view = ⟨l, none⟩ := rfl

@[simp] theorem view_act (l : L) (o : Op) (k : Res o → Prog Op Res L α) :
    (act l o k).view = ⟨l, some o⟩ := rfl

end Prog

namespace Code

instance : Monad (Code Op Res L) where
  pure a := fun l => .ret l a
  bind m f := fun l => (m l).bind fun l a => f a l

instance : MonadStateOf L (Code Op Res L) where
  get := fun l => .ret l l
  set l := fun _ => .ret l ()
  modifyGet f := fun l => .ret (f l).2 (f l).1

/-- Perform one atomic operation on the shared structure. -/
def op (o : Op) : Code Op Res L (Res o) := fun l => .act l o fun r => .ret l r

end Code

/-! ### Weakest preconditions under interference -/

section Wp

variable {Sh V : Type} (exec : (o : Op) → Sh → Option (Res o × Sh))
  (K J C : Sh → View L Op → V → Prop)

/-- The states of the shared structure and of the other thread in which a thread may be right after it performed
`o` with result `r`: before the operation `K`, `J` and the condition `C` on operations held. -/
def After (l : L) (o : Op) (r : Res o) (sh' : Sh) (v : V) : Prop :=
  ∃ sh, K sh ⟨l, some o⟩ v ∧ J sh ⟨l, some o⟩ v ∧ C sh ⟨l, some o⟩ v ∧ exec o sh = some (r, sh')

/-- From the states `S`, the thread establishes `J` before each of its operations, and `Q` at its end.  Only results
that an operation can have need to be considered. -/
def Prog.wp : Prog Op Res L α → (Sh → V → Prop) → ((Sh → V → Prop) → L → α → Prop) → Prop
  | .ret l a, S, Q => Q S l a
  | .act l o k, S, Q => (∀ sh v, S sh v → K sh ⟨l, some o⟩ v → J sh ⟨l, some o⟩ v) ∧
      ∀ r, (∃ sh v, After exec K J C l o r sh v) → (k r).wp (After exec K J C l o r) Q

def Code.wp (m : Code Op Res L α) (S : Sh → V → Prop) (Q : (Sh → V → Prop) → L → α → Prop) (l : L) : Prop :=
  (m l).wp exec K J C S Q

variable {exec K J C} {S : Sh → V → Prop}

theorem Prog.wp_bind (p : Prog Op Res L α) (f : L → α → Prog Op Res L β)
    {Q : (Sh → V → Prop) → L → β → Prop} :
    (p.bind f).wp exec K J C S Q ↔ p.wp exec K J C S fun S l a => (f l a).wp exec K J C S Q := by
  induction p generalizing S with
  | ret l a => rfl
  | act l o k ih =>
    simp only [Prog.bind, Prog.wp]
    exact and_congr_right fun _ => forall_congr' fun r => imp_congr_right fun _ => ih r

theorem Prog.wp_mono {p : Prog Op Res L α} {Q Q' : (Sh → V → Prop) → L → α → Prop}
    (hQ : ∀ S l a, Q S l a → Q' S l a) (h : p.wp exec K J C S Q) : p.wp exec K J C S Q' := by
  induction p generalizing S with
  | ret l a => exact hQ _ _ _ h
  | act l o k ih => exact ⟨h.1, fun r hr => ih r (h.2 r hr)⟩

namespace Code

variable {Q : (Sh → V → Prop) → L → β → Prop} {l : L}

@[simp] theorem wp_pure (b : β) : wp exec K J C (pure b : Code Op Res L β) S Q l ↔ Q S l b := Iff.rfl

@[simp] theorem wp_bind (m : Code Op Res L α) (f : α → Code Op Res L β) :
    wp exec K J C (m >>= f) S Q l ↔ wp exec K J C m S (fun S l a => wp exec K J C (f a) S Q l) l :=
  Prog.wp_bind (m l) fun l a => f a l

@[simp] theorem wp_get {Q : (Sh → V → Prop) → L → L → Prop} :
    wp exec K J C (get : Code Op Res L L) S Q l ↔ Q S l l := Iff.rfl

@[simp] theorem wp_set {l' : L} {Q : (Sh → V → Prop) → L → PUnit → Prop} :
    wp exec K J C (set l' : Code Op Res L PUnit) S Q l ↔ Q S l' () := Iff.rfl

@[simp] theorem wp_modify {f : L → L} {Q : (Sh → V → Prop) → L → PUnit → Prop} :
    wp exec K J C (modify f : Code Op Res L PUnit) S Q l ↔ Q S (f l) () := Iff.rfl

@[simp] theorem wp_op {o : Op} {Q : (Sh → V → Prop) → L → Res o → Prop} :
    wp exec K J C (op o : Code Op Res L (Res o)) S Q l ↔
      (∀ sh v, S sh v → K sh ⟨l, some o⟩ v → J sh ⟨l, some o⟩ v) ∧
        ∀ r, (∃ sh v, After exec K J C l o r sh v) → Q (After exec K J C l o r) l r := Iff.rfl

@[simp] theorem wp_ite {c : Prop} [Decidable c] (m m' : Code Op Res L β) :
    wp exec K J C (if c then m else m') S Q l ↔
      (c → wp exec K J C m S Q l) ∧ (¬c → wp exec K J C m' S Q l) := by
  by_cases h : c <;> simp [h]

theorem wp_mono {m : Code Op Res L β} {Q' : (Sh → V → Prop) → L → β → Prop}
    (hQ : ∀ S l b, Q S l b → Q' S l b) (h : wp exec K J C m S Q l) : wp exec K J C m S Q' l :=
  Prog.wp_mono hQ h

end Code

end Wp

/-! ### What a thread keeps on its own -/

section Path

variable (can : L → (o : Op) → Res o → Prop) (I : L → Op → Prop)

/-- A property of one thread alone: `I` holds whenever the thread is about to perform an operation and `Q` holds
at its end, when an operation performed in the private state `l` can only give the results `can l` allows. -/
def Prog.path : Prog Op Res L α → (L → α → Prop) → Prop
  | .ret l a, Q => Q l a
  | .act l o k, Q => I l o ∧ ∀ r, can l o r → (k r).path Q

def Code.path (m : Code Op Res L α) (Q : L → α → Prop) (l : L) : Prop := (m l).path can I Q

variable {can I}

theorem Prog.path_bind (p : Prog Op Res L α) (f : L → α → Prog Op Res L β) {Q : L → β → Prop} :
    (p.bind f).path can I Q ↔ p.path can I fun l a => (f l a).path can I Q := by
  induction p with
  | ret l a => rfl
  | act l o k ih =>
    simp only [Prog.bind, Prog.path]
    exact and_congr_right fun _ => forall_congr' fun r => imp_congr_right fun _ => ih r

theorem Prog.path_mono {p : Prog Op Res L α} {I' : L → Op → Prop} {Q Q' : L → α → Prop}
    (hI : ∀ l o, I l o → I' l o) (hQ : ∀ l a, Q l a → Q' l a) (h : p.path can I Q) : p.path can I' Q' := by
  induction p with
  | ret l a => exact hQ _ _ h
  | act l o k ih => exact ⟨hI _ _ h.1, fun r hr => ih r (h.2 r hr)⟩

/-- A path also holds where operations can give fewer results. -/
theorem Prog.path_anti {p : Prog Op Res L α} {c : L → (o : Op) → Res o → Prop} {Q : L → α → Prop}
    (hcan : ∀ l o r, c l o r → can l o r) (h : p.path can I Q) : p.path c I Q := by
  induction p with
  | ret l a => exact h
  | act l o k ih => exact ⟨h.1, fun r hr => ih r (h.2 r (hcan l o r hr))⟩

theorem Prog.path_and {p : Prog Op Res L α} {I' : L → Op → Prop} {Q Q' : L → α → Prop} (h : p.path can I Q)
    (h' : p.path can I' Q') : p.path can (fun l o => I l o ∧ I' l o) fun l a => Q l a ∧ Q' l a := by
  induction p with
  | ret l a => exact ⟨h, h'⟩
  | act l o k ih => exact ⟨⟨h.1, h'.1⟩, fun r hr => ih r (h.2 r hr) (h'.2 r hr)⟩

theorem Prog.path_trivial (p : Prog Op Res L α) : p.path can (fun _ _ => True) fun _ _ => True := by
  induction p with
  | ret l a => trivial
  | act l o k ih => exact ⟨trivial, fun r _ => ih r⟩

theorem Prog.path.result {p : Prog Op Res L α} {Q : L → α → Prop} {a : α} (h : p.path can I Q)
    (hr : p.result = some a) : Q p.loc a := by
  cases p with
  | ret l b => exact Option.some.inj hr ▸ h
  | act l o k => simp [Prog.result] at hr

/-- What holds of the private state all along a path holds at its start. -/
theorem Prog.path.loc {p : Prog Op Res L α} {P : L → Prop} (h : p.path can (fun l _ => P l) fun l _ => P l) :
    P p.view.loc := by
  cases p with
  | ret l a => exact h
  | act l o k => exact h.1

/-- Where a path has ended, its postcondition holds. -/
theorem Prog.path.ended {p : Prog Op Res L Unit} {Q : L → Unit → Prop} (h : p.path can I Q)
    (hn : p.view.next = none) : Q p.view.loc () := by
  cases p with
  | ret l a => exact h
  | act l o k => simp at hn

namespace Code

variable {Q : L → β → Prop} {l : L}

@[simp] theorem path_pure (b : β) : path can I (pure b : Code Op Res L β) Q l ↔ Q l b := Iff.rfl

@[simp] theorem path_bind (m : Code Op Res L α) (f : α → Code Op Res L β) :
    path can I (m >>= f) Q l ↔ path can I m (fun l a => path can I (f a) Q l) l :=
  Prog.path_bind (m l) fun l a => f a l

@[simp] theorem path_get {Q : L → L → Prop} :
    path can I (get : Code Op Res L L) Q l ↔ Q l l := Iff.rfl

@[simp] theorem path_set {l' : L} {Q : L → PUnit → Prop} :
    path can I (set l' : Code Op Res L PUnit) Q l ↔ Q l' () := Iff.rfl

@[simp] theorem path_modify {f : L → L} {Q : L → PUnit → Prop} :
    path can I (modify f : Code Op Res L PUnit) Q l ↔ Q (f l) () := Iff.rfl

@[simp] theorem path_op {o : Op} {Q : L → Res o → Prop} :
    path can I (op o : Code Op Res L (Res o)) Q l ↔ I l o ∧ ∀ r, can l o r → Q l r := Iff.rfl

@[simp] theorem path_ite {c : Prop} [Decidable c] (m m' : Code Op Res L β) :
    path can I (if c then m else m') Q l ↔ (c → path can I m Q l) ∧ (¬c → path can I m' Q l) := by
  by_cases h : c <;> simp [h]

theorem path_mono {m : Code Op Res L β} {I' : L → Op → Prop} {Q' : L → β → Prop} (hI : ∀ l o, I l o → I' l o)
    (hQ : ∀ l b, Q l b → Q' l b) (h : path can I m Q l) : path can I' m Q' l :=
  Prog.path_mono hI hQ h

end Code

end Path

/-! ### Code that stays within bounds -/

section Within

variable {P : Op → Prop} {R : L → L → Prop}

/-- The code performs only operations in `P`, and changes its private state only along `R`. -/
structure Code.Within (P : Op → Prop) (R : L → L → Prop) (m : Code Op Res L α) : Prop where
  path : ∀ l, m.path (fun _ _ _ => True) (fun l' o => P o ∧ R l l') (fun l' _ => R l l') l

namespace Code.Within

theorem modify {f : L → L} (hf : ∀ l, R l (f l)) : (modify f : Code Op Res L PUnit).Within P R := ⟨hf⟩

theorem ite {c : Prop} [Decidable c] {m m' : Code Op Res L α} (hm : m.Within P R) (hm' : m'.Within P R) :
    (if c then m else m').Within P R := by
  split
  · exact hm
  · exact hm'

theorem mono {P' : Op → Prop} {R' : L → L → Prop} {m : Code Op Res L α} (hP : ∀ o, P o → P' o)
    (hR : ∀ l l', R l l' → R' l l') (hm : m.Within P R) : m.Within P' R' :=
  ⟨fun l => path_mono (fun _ _ h => ⟨hP _ h.1, hR _ _ h.2⟩) (fun _ _ h => hR _ _ h) (hm.path l)⟩

variable [IsPreorder L R]

theorem pure (a : α) : (pure a : Code Op Res L α).Within P R := ⟨fun l => refl_of R l⟩

theorem get : (get : Code Op Res L L).Within P R := ⟨fun l => refl_of R l⟩

theorem op {o : Op} (ho : P o) : (Code.op o : Code Op Res L (Res o)).Within P R :=
  ⟨fun l => ⟨⟨ho, refl_of R l⟩, fun _ _ => refl_of R l⟩⟩

/-- The private state may already have changed along `R`. -/
theorem path_from {m : Code Op Res L α} (hm : m.Within P R) {l₀ l : L} (h : R l₀ l) :
    m.path (fun _ _ _ => True) (fun l' o => P o ∧ R l₀ l') (fun l' _ => R l₀ l') l :=
  path_mono (fun _ _ h' => ⟨h'.1, trans_of R h h'.2⟩) (fun _ _ h' => trans_of R h h') (hm.path l)

theorem bind {m : Code Op Res L α} {f : α → Code Op Res L β} (hm : m.Within P R) (hf : ∀ a, (f a).Within P R) :
    (m >>= f).Within P R := by
  refine ⟨fun l => ?_⟩
  rw [path_bind]
  exact path_mono (fun _ _ h => h) (fun l₁ a h₁ => (hf a).path_from h₁) (hm.path l)

end Code.Within

end Within

/-! ### From one thread alone to both -/

section WpOfPath

variable {Sh V : Type} {exec : (o : Op) → Sh → Option (Res o × Sh)} {K J C : Sh → View L Op → V → Prop}
  {I : L → Op → Prop} {Q : L → α → Prop} {R : Sh → V → Prop}

/-- Where the invariant `J` says `R` of everything but the private state, and each operation that meets the condition
keeps `R`, a path keeps `J`. -/
theorem Prog.wp_of_path_when (hto : ∀ {sh l o v}, I l o → K sh ⟨l, some o⟩ v → R sh v → J sh ⟨l, some o⟩ v)
    (hstep : ∀ {sh sh' l o r v}, I l o → K sh ⟨l, some o⟩ v → J sh ⟨l, some o⟩ v → C sh ⟨l, some o⟩ v →
      exec o sh = some (r, sh') → R sh' v) {p : Prog Op Res L α} (hp : p.path (fun _ _ _ => True) I Q)
    {S : Sh → V → Prop} (hS : ∀ sh v, S sh v → R sh v) :
    p.wp exec K J C S fun S l a => (∀ sh v, S sh v → R sh v) ∧ Q l a := by
  induction p generalizing S with
  | ret l a => exact ⟨hS, hp⟩
  | act l o k ih =>
    refine ⟨fun sh v hs hk => hto hp.1 hk (hS sh v hs), fun r _ => ih r (hp.2 r trivial) ?_⟩
    rintro sh' v ⟨sh, hK, hJ, hC, he⟩
    exact hstep hp.1 hK hJ hC he

/-- The same, where each operation on the way keeps `R`. -/
theorem Prog.wp_of_path (hto : ∀ {sh l o v}, I l o → K sh ⟨l, some o⟩ v → R sh v → J sh ⟨l, some o⟩ v)
    (hstep : ∀ {sh sh' l o r v}, I l o → K sh ⟨l, some o⟩ v → J sh ⟨l, some o⟩ v → exec o sh = some (r, sh') →
      R sh' v) {p : Prog Op Res L α} (hp : p.path (fun _ _ _ => True) I Q) {S : Sh → V → Prop}
    (hS : ∀ sh v, S sh v → R sh v) :
    p.wp exec K J C S fun S l a => (∀ sh v, S sh v → R sh v) ∧ Q l a :=
  Prog.wp_of_path_when hto (fun hi hk hj _ he => hstep hi hk hj he) hp hS

/-- Code that performs no operation leaves everything but the private state as it is. -/
theorem Prog.wp_of_silent {c : L → (o : Op) → Res o → Prop} {p : Prog Op Res L α}
    (hp : p.path c (fun _ _ => False) Q) (S : Sh → V → Prop) :
    p.wp exec K J C S fun S' l a => S' = S ∧ Q l a := by
  cases p with
  | ret l a => exact ⟨rfl, hp⟩
  | act l o k => exact hp.1.elim

end WpOfPath

/-! ### Simulation -/

section Simulation

variable {Sh V W : Type} {exec : (o : Op) → Sh → Option (Res o × Sh)}

/-- `J` of some structure and other thread that stand for the given ones. -/
def Simulated (R : Sh → W → Sh → V → Prop) (J : Sh → View L Op → V → Prop) (sh : Sh) (l : View L Op) (w : W) : Prop :=
  ∃ sh' v, R sh w sh' v ∧ J sh' l v

/-- Where the operations keep what stands for what, a code that keeps `J` keeps `Simulated R J`. -/
theorem Prog.wp_simulated {R : Sh → W → Sh → V → Prop} {K J : Sh → View L Op → V → Prop}
    {K' C' : Sh → View L Op → W → Prop}
    (hexec : ∀ {o r sh sh₁ w sh' v}, R sh w sh' v → exec o sh = some (r, sh₁) →
      ∃ sh₁', exec o sh' = some (r, sh₁') ∧ R sh₁ w sh₁' v)
    (hK : ∀ {sh l w sh' v}, R sh w sh' v → K' sh l w → K sh' l v)
    {p : Prog Op Res L α} {S : Sh → V → Prop} {S' : Sh → W → Prop} {Q : (Sh → V → Prop) → L → α → Prop}
    {Q' : (Sh → W → Prop) → L → α → Prop} (hS : ∀ sh w, S' sh w → ∃ sh' v, R sh w sh' v ∧ S sh' v)
    (hQ : ∀ {S S' l a}, (∀ sh w, S' sh w → ∃ sh' v, R sh w sh' v ∧ S sh' v) → Q S l a → Q' S' l a)
    (h : p.wp exec K J (fun _ _ _ => True) S Q) : p.wp exec K' (Simulated R J) C' S' Q' := by
  induction p generalizing S S' with
  | ret l a => exact hQ hS h
  | act l o k ih =>
    constructor
    · intro sh w hs hk
      obtain ⟨sh', v, hr, hs'⟩ := hS sh w hs
      exact ⟨sh', v, hr, h.1 sh' v hs' (hK hr hk)⟩
    · intro r hr
      -- what stands for a state before the operation stands for one after it
      have hafter : ∀ sh₁ w, After exec K' (Simulated R J) C' l o r sh₁ w →
          ∃ sh₁' v, R sh₁ w sh₁' v ∧ After exec K J (fun _ _ _ => True) l o r sh₁' v := by
        rintro sh₁ w ⟨sh, hk, ⟨sh', v, hr, hj⟩, -, he⟩
        obtain ⟨sh₁', he', hr'⟩ := hexec hr he
        exact ⟨sh₁', v, hr', sh', hK hr hk, hj, trivial, he'⟩
      obtain ⟨sh₁, w, hw⟩ := hr
      obtain ⟨sh₁', v, -, hv⟩ := hafter sh₁ w hw
      exact ih r hafter (h.2 r ⟨sh₁', v, hv⟩)

end Simulation

end Threads
