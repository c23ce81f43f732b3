import Mathlib.Data.List.Infix
import Mathlib.Logic.Relation

/-!
# Mailboxes

Messages are posted one after the other.  The reader collects all that are waiting at once, when it has put away those
that it collected before, and then puts the messages away in order.  What the reader has collected so far is what was
posted, up to the messages that are waiting, and what it has before it is the end of that.
-/

/-- The messages that are waiting and those before the reader; `posted` and `collected` are the history. -/
structure Mailbox (α : Type*) where
  waiting : List α := []
  batch : List α := []
  posted : List α := []
  collected : List α := []

namespace Mailbox

variable {α : Type*}

inductive Step : Mailbox α → Mailbox α → Prop
  | post (s : Mailbox α) (a : α) : Step s { s with waiting := s.waiting ++ [a], posted := s.posted ++ [a] }
  | collect {s : Mailbox α} : s.batch = [] →
      Step s { s with waiting := [], batch := s.waiting, collected := s.collected ++ s.waiting }
  | putAway {s : Mailbox α} {a : α} {as : List α} : s.batch = a :: as → Step s { s with batch := as }

variable {s t : Mailbox α}

/-- The mailbox comes about from the empty one. -/
def Reachable (s : Mailbox α) : Prop := Relation.ReflTransGen Step {} s

theorem Reachable.init : Reachable ({} : Mailbox α) := .refl

theorem Reachable.step (h : s.Reachable) (hs : Step s t) : t.Reachable := .tail h hs

/-- No message is lost, none comes twice, and all come in order. -/
theorem Reachable.posted_eq (h : s.Reachable) : s.posted = s.collected ++ s.waiting := by
  induction h with
  | refl => rfl
  | tail _ hs ih =>
    cases hs with
    | post a => simp [ih]
    | collect _ => simpa using ih
    | putAway _ => exact ih

/-- The reader has before it the last messages that it collected. -/
theorem Reachable.batch_suffix (h : s.Reachable) : s.batch <:+ s.collected := by
  induction h with
  | refl => exact List.suffix_rfl
  | tail _ hs ih =>
    cases hs with
    | post a => exact ih
    | collect _ => exact List.suffix_append _ _
    | putAway hb => exact (hb ▸ List.suffix_cons _ _ : _ <:+ _).trans ih

end Mailbox
