import ServerLynx.IoThread
import ServerLynx.Service
import ServerLynx.Threads.Machine

/-!
# The service

The main thread and the IO thread on their shared state: the machine whose runs the theorems are about.
-/

namespace ServerLynx

open Threads

/-- The service: the IO thread first, the main thread second. -/
def service : Machine Op Op.Res Shared Io IoRun Main MainCall where
  exec := Op.exec
  code₁ := IoRun.code
  ready₁ := IoRun.ready
  code₂ := MainCall.code
  ready₂ := fun _ _ _ => true

abbrev ServiceConfig := Config Op Op.Res Shared Io Main

abbrev ServiceCond := Cond Op Shared Io IoRun Main MainCall

/-- The service after `svl_service_setup` for `maxClients` clients. -/
def ServiceConfig.setup (maxClients : Nat) : ServiceConfig := .idle (.setup maxClients) (.setup maxClients) {}

/-- `c` is reached in a run, from the set-up on, all of whose steps meet `cond`. -/
abbrev ReachWhen (cond : ServiceCond) (maxClients : Nat) (c : ServiceConfig) : Prop :=
  service.Reach cond (ServiceConfig.setup maxClients) c

/-- `c` is reached in some run. -/
abbrev Reach (maxClients : Nat) (c : ServiceConfig) : Prop := ReachWhen .any maxClients c

/-- A run that can be computed, to a state that has the property `P`. -/
theorem exists_reachWhen (cond : ServiceCond) (n : Nat) (as : List (Act IoRun MainCall)) (P : ServiceConfig → Prop)
    [DecidablePred P] (h : (service.runWhen cond (ServiceConfig.setup n) as).any (fun c => decide (P c)) = true) :
    ∃ c, ReachWhen cond n c ∧ P c := by
  obtain ⟨c, hc, hP⟩ := Machine.Reach.exists_of_runWhen h
  exact ⟨c, hc, of_decide_eq_true hP⟩

/-- Steps that bring the service up with a listener. -/
def startUp : List (Act IoRun MainCall) :=
  [.run₂ (.listen ⟨.inet, 0⟩), .op₂, .op₂, .run₂ (.start 0), .op₂, .op₂, .op₂, .run₁ (.thread {}), .op₁, .op₁, .op₁]

end ServerLynx
