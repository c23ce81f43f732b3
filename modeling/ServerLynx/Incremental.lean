import Mathlib.Tactic.Common

/-!
# Incremental decoders

A decoder takes its input from the front of what has arrived.  A step that is possible stays possible, with the same
outcome, when more input arrives behind it; so it does not matter in which pieces the input comes: a caller that
decodes as far as it can after every piece gets what it would get from the whole.
-/

namespace Incremental

/-- A step yields an output or none, the next state and the input it left.  `size` bounds the steps that are
possible without further input. -/
structure Decoder (σ α β : Type) where
  step : σ → List α → Option (Option β × σ × List α)
  size : σ → List α → Nat
  step_more {s s' : σ} {u u' : List α} {o : Option β} (v : List α) :
    step s u = some (o, s', u') → step s (u ++ v) = some (o, s', u' ++ v)
  step_size {s s' : σ} {u u' : List α} {o : Option β} :
    step s u = some (o, s', u') → size s' u' < size s u

namespace Decoder

variable {σ α β : Type} (d : Decoder σ α β)

/-- All the steps that are possible: the outputs, the state and the input left over. -/
def drain (s : σ) (u : List α) : List β × σ × List α :=
  match _h : d.step s u with
  | none => ([], s, u)
  | some (o, s', u') =>
    let t := drain s' u'
    (o.toList ++ t.1, t.2)
termination_by d.size s u
decreasing_by exact d.step_size _h

/-- The pieces one after the other, each of them decoded as far as possible. -/
def feed : σ → List α → List (List α) → List β × σ × List α
  | s, u, [] => ([], s, u)
  | s, u, v :: vs =>
    let t := d.drain s (u ++ v)
    let t' := feed t.2.1 t.2.2 vs
    (t.1 ++ t'.1, t'.2)

variable {d} {s s' : σ} {u u' : List α} {o : Option β}

theorem drain_of_none (h : d.step s u = none) : d.drain s u = ([], s, u) := by
  rw [drain]
  split
  · rfl
  · rename_i h'
    rw [h] at h'
    cases h'

theorem drain_of_some (h : d.step s u = some (o, s', u')) :
    d.drain s u = (o.toList ++ (d.drain s' u').1, (d.drain s' u').2) := by
  rw [drain]
  split
  · rename_i h'
    rw [h] at h'
    cases h'
  · rename_i h'
    rw [h] at h'
    cases h'
    rfl

/-- After all possible steps none is possible. -/
theorem step_drain (s : σ) (u : List α) : d.step (d.drain s u).2.1 (d.drain s u).2.2 = none := by
  induction hn : d.size s u using Nat.strongRecOn generalizing s u with
  | _ n ih =>
    cases h : d.step s u with
    | none => rw [drain_of_none h]; exact h
    | some x =>
      obtain ⟨o, s', u'⟩ := x
      rw [drain_of_some h]
      exact ih _ (hn ▸ d.step_size h) s' u' rfl

/-- Input that arrives later may as well have been there from the start. -/
theorem drain_append (s : σ) (u v : List α) : d.drain s (u ++ v) =
    ((d.drain s u).1 ++ (d.drain (d.drain s u).2.1 ((d.drain s u).2.2 ++ v)).1,
      (d.drain (d.drain s u).2.1 ((d.drain s u).2.2 ++ v)).2) := by
  induction hn : d.size s u using Nat.strongRecOn generalizing s u with
  | _ n ih =>
    cases h : d.step s u with
    | none => rw [drain_of_none h, List.nil_append]
    | some x =>
      obtain ⟨o, s', u'⟩ := x
      rw [drain_of_some h, drain_of_some (d.step_more v h), ih _ (hn ▸ d.step_size h) s' u' rfl,
        List.append_assoc]

/-- The pieces do not matter, only the input they make up. -/
theorem feed_eq (h : d.step s u = none) (vs : List (List α)) : d.feed s u vs = d.drain s (u ++ vs.flatten) := by
  induction vs generalizing s u with
  | nil => rw [feed, List.flatten_nil, List.append_nil, drain_of_none h]
  | cons v vs ih =>
    have hrest := ih (step_drain (d := d) s (u ++ v))
    have hwhole := drain_append (d := d) s (u ++ v) vs.flatten
    rw [feed, hrest, List.flatten_cons, ← List.append_assoc, hwhole]

end Decoder

end Incremental
