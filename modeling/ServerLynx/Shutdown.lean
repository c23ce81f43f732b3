import ServerLynx.Lifecycle

/-!
# Shutdown

What `on_timer_cb` leaves of the loop once it has seen that the service is no longer `STARTED`.  It names the five
handles of the loop itself; the TCP handles of the links are not among them, so they are all closing afterwards
exactly if they were before.
-/

namespace ServerLynx

open Threads

variable {n : Nat} {c c' : ServiceConfig} {io : Io}

/-- A handle that is registered in the loop: one of the loop's own, or the TCP handle of a link in use. -/
def Io.Registered (io : Io) (h : Nat) : Prop := some h ∈ io.loopPtrs ∨ ∃ i, (io.handles h).Holds i

/-- Every handle registered in the loop is closing or closed. -/
def AllClosing (io : Io) : Prop := ∀ h, io.Registered h → (io.handles h).isClosing = true

/-- No link is open or connecting: the TCP handle of every link in use is closing already. -/
def NoLinkUp (io : Io) : Prop := ∀ h i, (io.handles h).Holds i → (io.handles h).isClosing = true

/-- A handle of the loop itself is no client handle, so it holds no link. -/
private theorem not_loopPtr_of_holds {E : Premises} (hi : IoInv n E io) {h i : Nat} (hh : (io.handles h).Holds i) :
    some h ∉ io.loopPtrs :=
  fun hm => (hi.loop h hm).2 hh.1.1

/-- `on_timer_cb` in a reachable state, when it loads a state other than `STARTED`: every registered handle is closing
afterwards if and only if no link was up before. -/
theorem shutdown_closes_all_iff (hc : Reach n c) (hio : c.fst = onTimerCb io) (hst : c.sh.state ≠ .started)
    (hs : service.step c .op₁ = some c') : AllClosing c'.fst.view.loc ↔ NoLinkUp io := by
  have hE : Premises.In ⟨False, False, False⟩ .any := ⟨False.elim, False.elim, False.elim, False.elim⟩
  have hi := (ioInv hE hc).1
  rw [show c.fst.view.loc = io by rw [hio]; rfl] at hi
  have hi' := (ioInv hE (hc.step .op₁ (Cond.any_allows _ _) hs)).1
  have ht := onTimerCb_closes hio hst hs
  constructor
  · intro hall h i hh
    have hsame := ht.others (not_loopPtr_of_holds hi hh)
    have hclosing := hall h (.inr ⟨i, by rwa [hsame]⟩)
    rwa [hsame] at hclosing
  · rintro hno h (hm | ⟨i, hh⟩)
    · exact ht.loopClosing h hm
    · have hsame := ht.others (ht.ptrs ▸ not_loopPtr_of_holds hi' hh)
      rw [hsame] at hh ⊢
      exact hno h i hh

/-- Stop asks while the handle of the only client is closing, and the timer closes all other handles. -/
theorem shutdown_closes_all_with_closing : ∃ c io c', Reach 1 c ∧ c.fst = onTimerCb io ∧ c.sh.state ≠ .started ∧
    service.step c .op₁ = some c' ∧ ((c'.fst.view.loc.handles 5).Holds 0 ∧ (c'.fst.view.loc.handles 5).closed = false) ∧
    AllClosing c'.fst.view.loc := by
  obtain ⟨c₀, hc₀, hst, hup, ht⟩ := exists_reachWhen .any 1
    (.flatten [startUp, [.run₁ (.inbound 0 {}), .op₁, .op₁, .run₁ (.read 5 (.error 0)), .op₁, .op₁],
      [.run₂ (.stop 0), .op₂, .op₂]])
    (fun c => c.sh.state ≠ .started ∧ (∀ h < c.fst.view.loc.handleCount,
        (c.fst.view.loc.handles h).data = none ∨ (c.fst.view.loc.handles h).isClosing = true) ∧
      ((service.step c (.run₁ .timer)).bind fun c => service.step c .op₁).any
      (fun c => decide ((c.fst.view.loc.handles 5).Holds 0 ∧ (c.fst.view.loc.handles 5).closed = false)) = true)
    (by decide +kernel)
  obtain ⟨c', hc', hclosing⟩ := (Option.any_eq_true _ _).1 ht
  obtain ⟨c, hc, hs⟩ := Option.bind_eq_some_iff.1 hc'
  have hi := (ioInv (E := ⟨False, False, False⟩) ⟨False.elim, False.elim, False.elim, False.elim⟩ hc₀).1
  obtain ⟨io, hio, -, rfl⟩ := Machine.step_run₁ hc
  rw [hio] at hup hi
  have hreach := hc₀.step _ (Cond.any_allows _ _) hc
  have hno : NoLinkUp io := fun h i hh => (hup h (hi.slots.lt_count hh)).resolve_left (by simp [hh.data])
  exact ⟨_, io, c', hreach, rfl, hst, hs, of_decide_eq_true hclosing,
    (shutdown_closes_all_iff hreach rfl hst hs).2 hno⟩

/-- A client is connected when stop asks: the timer has torn the loop down and the TCP handle of its link is reading
on, so that `uv_run` does not return and stop waits. -/
theorem shutdown_leaves_client : ∃ c io c', Reach 1 c ∧ c.fst = onTimerCb io ∧ c.sh.state ≠ .started ∧
    service.step c .op₁ = some c' ∧ ¬ AllClosing c'.fst.view.loc := by
  obtain ⟨c₀, hc₀, hst, ht⟩ := exists_reachWhen .any 1
    (.flatten [startUp, [.run₁ (.inbound 0 {}), .op₁, .op₁, .run₂ (.stop 0), .op₂, .op₂]])
    (fun c => c.sh.state ≠ .started ∧ ((service.step c (.run₁ .timer)).bind fun c => service.step c .op₁).any
      (fun c => decide ((c.fst.view.loc.handles 5).Holds 0 ∧ (c.fst.view.loc.handles 5).isClosing = false)) = true)
    (by decide +kernel)
  obtain ⟨c', hc', hopen⟩ := (Option.any_eq_true _ _).1 ht
  obtain ⟨c, hc, hs⟩ := Option.bind_eq_some_iff.1 hc'
  obtain ⟨io, -, -, rfl⟩ := Machine.step_run₁ hc
  obtain ⟨hholds, hclosing⟩ := of_decide_eq_true hopen
  refine ⟨_, io, c', hc₀.step _ (Cond.any_allows _ _) hc, rfl, hst, hs, fun hall => ?_⟩
  have := hall 5 (.inr ⟨0, hholds⟩)
  rw [hclosing] at this
  exact absurd this (by simp)

end ServerLynx
