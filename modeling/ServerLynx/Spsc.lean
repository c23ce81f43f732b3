import ServerLynx.Kinds

/-!
# Which thread pushes and which thread pops

The lists that the two threads share without a lock are safe if one thread makes all pushes to a list and one thread
makes all pops from it.  Here the pushes and pops of a run are written down with the thread that makes them.  Only
`on_close_link_cb` breaks the rule: it pushes a read buffer to `pool_read`, which is the main thread's part.
-/

namespace ServerLynx

open Threads

/-! ### The accesses of a run -/

inductive ThreadName
  | io | main
  deriving DecidableEq

inductive AccessKind
  | push | pop
  deriving DecidableEq

/-- The list that an operation accesses, and whether it pushes or pops. -/
def Op.access : Op → Option (ListName × AccessKind)
  | .cmdFreePop _ _ => some (.cmdFree, .pop)
  | .cmdFreePush _ => some (.cmdFree, .push)
  | .cmdReadyPush _ => some (.cmdReady, .push)
  | .cmdReadyPop => some (.cmdReady, .pop)
  | .eventFreePop _ => some (.eventFree, .pop)
  | .eventFreePush _ => some (.eventFree, .push)
  | .eventReadyPush _ _ => some (.eventReady, .push)
  | .eventReadyPopAll => some (.eventReady, .pop)
  | .poolReadPop => some (.poolRead, .pop)
  | .poolReadPush _ => some (.poolRead, .push)
  | _ => none

/-- A push or a pop, with the thread that makes it. -/
structure Access where
  thread : ThreadName
  list : ListName
  kind : AccessKind
  deriving DecidableEq

/-- The access of a thread that is about to perform the operation `next`. -/
def Access.of (thread : ThreadName) (next : Option Op) : Option Access :=
  (next.bind Op.access).map fun x => ⟨thread, x.1, x.2⟩

/-- The access that a step makes, if it makes one. -/
def stepAccess (c : ServiceConfig) : Act IoRun MainCall → Option Access
  | .op₁ => Access.of .io c.fst.view.next
  | .op₂ => Access.of .main c.snd.view.next
  | .run₁ _ | .run₂ _ => none

/-- The accesses of the steps of a run, in order. -/
def accesses : ServiceConfig → List (Act IoRun MainCall) → List Access
  | _, [] => []
  | c, a :: as => (stepAccess c a).toList ++ match service.step c a with
    | none => []
    | some c' => accesses c' as

/-- One thread makes all pushes to a list, and one thread makes all pops from it. -/
def Spsc (log : List Access) : Prop :=
  ∀ list kind, ∃ thread, ∀ x ∈ log, x.list = list → x.kind = kind → x.thread = thread

/-! ### The discipline -/

/-- The thread whose part an access is. -/
def accessOwner : ListName → AccessKind → ThreadName
  | .cmdFree, .pop | .cmdReady, .push | .eventFree, .push | .eventReady, .pop | .poolRead, .push => .main
  | .cmdFree, .push | .cmdReady, .pop | .eventFree, .pop | .eventReady, .push | .poolRead, .pop => .io

/-- The runs in which `on_close_link_cb` never finds a read buffer in the link that it closes. -/
def closedWithoutBuffer : ServiceCond where
  op₁ _ v _ := match v.next with
    | some (.poolReadPush _) => false
    | _ => true

variable {n : Nat} {c c' : ServiceConfig}

theorem stepAccess_owner (hc : ReachWhen closedWithoutBuffer n c) {a : Act IoRun MainCall}
    (ha : closedWithoutBuffer.allows c a = true) {x : Access} (hx : stepAccess c a = some x) :
    x.thread = accessOwner x.list x.kind := by
  obtain ⟨hio, hmain⟩ := next_by hc
  cases a with
  | run₁ d => exact absurd hx (by simp [stepAccess])
  | run₂ call => exact absurd hx (by simp [stepAccess])
  | op₁ =>
    obtain ⟨y, hy, rfl⟩ := Option.map_eq_some_iff.1 hx
    obtain ⟨o, ho, hoy⟩ := Option.bind_eq_some_iff.1 hy
    have hby := hio o ho
    have hno : closedWithoutBuffer.op₁ c.sh c.fst.view c.snd.view = true := ha
    simp only [closedWithoutBuffer, ho] at hno
    cases o <;> simp [Op.byIo] at hby <;> simp [Op.access] at hoy <;> first | (subst hoy; rfl) | simp at hno
  | op₂ =>
    obtain ⟨y, hy, rfl⟩ := Option.map_eq_some_iff.1 hx
    obtain ⟨o, ho, hoy⟩ := Option.bind_eq_some_iff.1 hy
    have hby := hmain o ho
    cases o <;> simp [Op.byMain] at hby <;> simp [Op.access] at hoy <;> (subst hoy; rfl)

theorem accesses_owner {as : List (Act IoRun MainCall)} (hc : ReachWhen closedWithoutBuffer n c)
    (hr : service.runWhen closedWithoutBuffer c as = some c') :
    ∀ x ∈ accesses c as, x.thread = accessOwner x.list x.kind := by
  induction as generalizing c with
  | nil =>
    intro x hx
    exact absurd hx (by simp [accesses])
  | cons a as ih =>
    obtain ⟨ha, hr⟩ := Option.ite_none_right_eq_some.1 hr
    obtain ⟨c₁, h₁, hr⟩ := Option.bind_eq_some_iff.1 hr
    intro x hx
    simp only [accesses, h₁, List.mem_append, Option.mem_toList] at hx
    rcases hx with hx | hx
    · exact stepAccess_owner hc ha hx
    · exact ih (hc.step a ha h₁) hr x hx

theorem spsc_discipline {as : List (Act IoRun MainCall)}
    (hr : service.runWhen closedWithoutBuffer (ServiceConfig.setup n) as = some c) :
    Spsc (accesses (ServiceConfig.setup n) as) := by
  intro list kind
  refine ⟨accessOwner list kind, fun x hx hl hk => ?_⟩
  rw [← hl, ← hk]
  exact accesses_owner .init hr x hx

/-- A client connects and sends; its events are acquired and released. -/
private def oneMessage : List (Act IoRun MainCall) :=
  startUp ++ [.run₁ (.inbound 0 {}), .op₁, .op₁, .run₁ (.read 5 (.data [1, 2, 3]))] ++ List.replicate 7 .op₁ ++
    [.run₂ .eventsAcquire, .op₂, .run₂ .eventsRelease] ++ List.replicate 5 .op₂

theorem spsc_discipline_released : ⟨.main, .poolRead, .push⟩ ∈ accesses (ServiceConfig.setup 1) oneMessage ∧
    Spsc (accesses (ServiceConfig.setup 1) oneMessage) := by
  have hrun : (service.runWhen closedWithoutBuffer (ServiceConfig.setup 1) oneMessage).isSome = true := by
    decide +kernel
  obtain ⟨c, hc⟩ := Option.isSome_iff_exists.1 hrun
  exact ⟨by decide +kernel, spsc_discipline hc⟩

/-- The client then disconnects: its close callback pushes the read buffer, which was taken for the end of the stream,
to the pool that the main thread has pushed to. -/
theorem spsc_broken_by_close : (service.run (ServiceConfig.setup 1) (oneMessage ++
      [.run₁ (.read 5 (.error 4094)), .op₁, .op₁, .run₁ (.close 5), .op₁])).isSome = true ∧
    ¬ Spsc (accesses (ServiceConfig.setup 1) (oneMessage ++
      [.run₁ (.read 5 (.error 4094)), .op₁, .op₁, .run₁ (.close 5), .op₁])) := by
  refine ⟨by decide +kernel, fun hspsc => ?_⟩
  obtain ⟨thread, h⟩ := hspsc .poolRead .push
  have hmain := h ⟨.main, .poolRead, .push⟩ (by decide +kernel) rfl rfl
  have hio := h ⟨.io, .poolRead, .push⟩ (by decide +kernel) rfl rfl
  exact absurd (hmain.trans hio.symm) (by simp)

end ServerLynx
