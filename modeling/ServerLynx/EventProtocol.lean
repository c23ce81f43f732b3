import ServerLynx.Loop

/-!
# The event protocol of a client

The events of one client id are meant to read `(OPEN READ* CLOSE)*`.  `EventType.turn` is the two-state automaton of
this language, `announced` runs it over the events that were pushed about one client id, and
`sessions_of_announced` says that the automaton accepts prefixes of the language only.
-/

namespace ServerLynx

/-- The words `(OPEN READ* CLOSE)*`. -/
inductive Sessions : List EventType → Prop
  | nil : Sessions []
  | session (reads : Nat) {w : List EventType} : Sessions w →
      Sessions (.clientOpen :: (List.replicate reads .clientRead ++ .clientClose :: w))

/-- One event: whether the client is announced as open after it, or `none` if the event is out of turn. -/
def EventType.turn : Option Bool → EventType → Option Bool
  | some false, .clientOpen => some true
  | some true, .clientRead => some true
  | some true, .clientClose => some false
  | _, _ => none

private theorem foldl_turn_none (w : List EventType) : w.foldl EventType.turn none = none := by
  induction w with
  | nil => rfl
  | cons t w ih => cases t <;> exact ih

/-- What the automaton accepts can be completed: from the closed state to a word of the language, and from the open
state to the rest of a session and a word of the language.  Nothing is missing where it ends in the closed state. -/
private theorem foldl_turn_complete {w : List EventType} {b b' : Bool}
    (h : w.foldl EventType.turn (some b) = some b') :
    ∃ tail, (b' = false → tail = []) ∧ if b = false then Sessions (w ++ tail)
      else ∃ reads rest, w ++ tail = List.replicate reads .clientRead ++ .clientClose :: rest ∧ Sessions rest := by
  induction w generalizing b with
  | nil =>
    obtain rfl : b = b' := by simpa using h
    cases b with
    | false => exact ⟨[], fun _ => rfl, by simpa using Sessions.nil⟩
    | true => exact ⟨[.clientClose], by simp, by simpa using ⟨0, [], rfl, Sessions.nil⟩⟩
  | cons t w ih =>
    rw [List.foldl_cons] at h
    cases b <;> cases t <;> simp only [EventType.turn, foldl_turn_none, reduceCtorEq] at h
    · obtain ⟨tail, hnil, htail⟩ := ih h
      simp only [Bool.true_eq_false, if_false] at htail
      obtain ⟨reads, rest, he, hr⟩ := htail
      refine ⟨tail, hnil, ?_⟩
      rw [if_pos rfl, List.cons_append, he]
      exact .session reads hr
    · obtain ⟨tail, hnil, htail⟩ := ih h
      rw [if_pos rfl] at htail
      exact ⟨tail, hnil, by simpa using ⟨0, w ++ tail, rfl, htail⟩⟩
    · obtain ⟨tail, hnil, htail⟩ := ih h
      simp only [Bool.true_eq_false, if_false] at htail
      obtain ⟨reads, rest, he, hr⟩ := htail
      refine ⟨tail, hnil, ?_⟩
      simp only [Bool.true_eq_false, if_false, List.cons_append, he]
      exact ⟨reads + 1, rest, by rw [List.replicate_succ, List.cons_append], hr⟩

/-- The types of the events pushed about the client id `i`, in order. -/
def eventsOf (pushed : List Pushed) (i : Nat) : List EventType :=
  (pushed.filter fun p => decide (p.evt.clientId = i)).map fun p => p.evt.type

/-- Whether the client id `i` is announced as open; `none` if an event came out of turn. -/
def announced (pushed : List Pushed) (i : Nat) : Option Bool :=
  (eventsOf pushed i).foldl EventType.turn (some false)

/-- An `OPEN` of the connection of the handle `h` was pushed. -/
def WasOpened (pushed : List Pushed) (h : Nat) : Prop :=
  ∃ p ∈ pushed, p.conn = h ∧ p.evt.type = .clientOpen

instance (pushed : List Pushed) (h : Nat) : Decidable (WasOpened pushed h) :=
  inferInstanceAs (Decidable (∃ p ∈ pushed, _))

theorem announced_append_self (pushed : List Pushed) (p : Pushed) :
    announced (pushed ++ [p]) p.evt.clientId = EventType.turn (announced pushed p.evt.clientId) p.evt.type := by
  simp [announced, eventsOf, List.foldl_append]

theorem announced_append_ne {pushed : List Pushed} {p : Pushed} {i : Nat} (h : p.evt.clientId ≠ i) :
    announced (pushed ++ [p]) i = announced pushed i := by
  simp [announced, eventsOf, h]

theorem wasOpened_append {pushed : List Pushed} {p : Pushed} {h : Nat} :
    WasOpened (pushed ++ [p]) h ↔ WasOpened pushed h ∨ (p.conn = h ∧ p.evt.type = .clientOpen) := by
  simp [WasOpened, or_and_right, exists_or]

/-- As long as no event comes out of turn, the events of a client id begin a word of the language; they are one when
the client is not announced. -/
theorem sessions_of_announced {pushed : List Pushed} {i : Nat} {b : Bool} (h : announced pushed i = some b) :
    ∃ tail, (b = false → tail = []) ∧ Sessions (eventsOf pushed i ++ tail) := by
  obtain ⟨tail, hnil, htail⟩ := foldl_turn_complete h
  exact ⟨tail, hnil, by simpa using htail⟩

end ServerLynx
