import ServerLynx.Lifecycle
import ServerLynx.Threads.Among

/-!
# The plugin and the IO thread

`service_state_wait`, `service_stop`, `servlynx_start`, `servlynx_stop` and `servlynx_cleanup`.

A run is the life of one service, from the `servlynx_setup` that set it up on: the calls of the application on it,
in any order, interleaved with the IO thread.  After `servlynx_cleanup` the pointer is NULL, and a `servlynx_setup`
begins the life of another service.
-/

namespace ServerLynx

open Threads

/-- The calls, with the outcomes that their source leaves open. -/
inductive ServlynxCall
  | setup
  | start (endpoint : Option Endpoint) (launch : Int)
  | stop (join : Int)
  | cleanup (join : Int)
  deriving DecidableEq

/-- Where `service_stop` is: before its switch, in `service_state_wait` with so many sleeps still to come, or in
`svl_service_stop`. -/
inductive StopStage
  | switch
  | wait (desired : ServiceState) (left : Nat)
  | stop
  deriving DecidableEq

/-- The private state of the application's thread: whether `*service_ptr` is set, the call it is in, and what the last
call returned. -/
structure App where
  ptr : Bool := true
  call : Option ServlynxCall := none
  stage : StopStage := .switch
  returned : Option (ServlynxCall × Bool) := none

abbrev AppM := Code Op Op.Res App

/-! ### The calls -/

/-- The loop of `service_state_wait`, where `left` more sleeps may follow the next one. -/
def stateWaitLoop (desired : ServiceState) : Nat → ServiceState → AppM Bool
  | 0, state => do
    if state = desired then return true
    modify fun a => { a with stage := .wait desired 0 }
    let _ ← perform .stateLoad
    return false
  | left + 1, state => do
    if state = desired then return true
    modify fun a => { a with stage := .wait desired (left + 1) }
    let state ← perform .stateLoad
    stateWaitLoop desired left state

/-- `service_state_wait`: it sleeps for 50 ms at a time, until the sleeps amount to `waitMs`. -/
def serviceStateWait (desired : ServiceState) (waitMs : Nat) : AppM Bool := do
  modify fun a => { a with stage := .wait desired (waitMs / 50) }
  let state ← perform .stateLoad
  stateWaitLoop desired ((waitMs - 1) / 50) state

/-- `service_stop` from the case `SVL_SERVICE_STARTED` of its switch on -/
def serviceStopStarted (join : Int) : AppM Bool := do
  modify fun a => { a with stage := .stop }
  if !(← svlServiceStop join) then return false
  serviceStateWait .stopped 500

/-- `service_stop` -/
def serviceStop (join : Int) : AppM Bool := do
  modify fun a => { a with stage := .switch }
  let state ← perform .stateLoad
  match state with
  | .starting =>
    if !(← serviceStateWait .started 500) then return false
    serviceStopStarted join
  | .started => serviceStopStarted join
  | .new | .stopping | .stopped => serviceStateWait .stopped 500
  | .error | .invalid => return false

/-- `servlynx_start` -/
def servlynxStart (endpoint : Option Endpoint) (launch : Int) : AppM Bool := do
  if let some ep := endpoint then
    if !(← svlServiceListen ep) then return false
  svlServiceStart launch

/-- A call; `servlynx_setup` finds the pointer set, and the others return at once if it is NULL. -/
def ServlynxCall.run (c : ServlynxCall) : AppM Bool := do
  let a ← get
  if !a.ptr then return c matches .cleanup _
  match c with
  | .setup => return true
  | .start endpoint launch => servlynxStart endpoint launch
  | .stop join => serviceStop join
  | .cleanup join =>
    let _ ← serviceStop join
    modify fun a => { a with ptr := false }
    return true

def ServlynxCall.code (c : ServlynxCall) : AppM Unit := do
  modify fun a => { a with call := some c, returned := none }
  let success ← c.run
  modify fun a => { a with call := none, returned := some (c, success) }

/-! ### Its runs -/

/-- The plugin's service: the IO thread first, the thread of the application second. -/
def plugin : Machine Op Op.Res Shared Io IoRun App ServlynxCall where
  exec := Op.exec
  code₁ := IoRun.code
  ready₁ := IoRun.ready
  code₂ := ServlynxCall.code
  ready₂ := fun c _ a => c != .setup || a.ptr

abbrev PluginConfig := Config Op Op.Res Shared Io App

abbrev PluginCond := Cond Op Shared Io IoRun App ServlynxCall

/-- `c` is reached in a run, from the set-up of the service on, all of whose steps meet `cond`. -/
abbrev PluginReach (cond : PluginCond) (maxClients : Nat) (c : PluginConfig) : Prop :=
  plugin.Reach cond (.idle (.setup maxClients) (.setup maxClients) {}) c

/-! ### The invariant -/

/-- The thread is in `servlynx_cleanup`. -/
def App.InCleanup (a : App) : Prop := ∃ join, a.call = some (.cleanup join)

/-- The thread is past the point where it has stopped the service, or found nothing to stop, before it releases it. -/
def App.Past (a : App) : Prop := a.ptr = false ∨ a.InCleanup ∧ ∃ left, a.stage = .wait .stopped left

/-- The invariant as far as the application's thread does not matter.  `P` is the premise that launches and joins
succeed. -/
structure PluginInv.Base (P : Prop) (sh : Shared) (v : View Io Op) : Prop where
  running : v.next ≠ none ∨ v.loc.phase = .running → sh.thread = .running
  known : sh.state = .new ∨ sh.state = .stopped → sh.NoThread
  idle : P → sh.NoThread → sh.state = .new ∨ sh.state = .stopped

/-- The invariant of the plugin's runs.  `Q` is the premise that `service_stop`, called by `servlynx_cleanup`, does not
give up where the service may still run. -/
structure PluginInv (P Q : Prop) (sh : Shared) (v : View Io Op) (w : View App Op) : Prop where
  running : v.next ≠ none ∨ v.loc.phase = .running → sh.thread = .running
  known : sh.state = .new ∨ sh.state = .stopped → sh.NoThread
  idle : P → sh.NoThread → (sh.state = .new ∨ sh.state = .stopped) ∨ (∃ status, w.next = some (.threadLaunch status)) ∨
    w.next = some (.stateStore .stopped)
  alone : ∀ o, w.next = some o → o.needsNoThread = true → sh.NoThread
  launch : ∀ status, w.next = some (.threadLaunch status) → sh.state = .starting
  stopping : P → w.next = some (.stateStore .stopping) ∨ (∃ status, w.next = some (.threadJoin status)) → ¬ sh.NoThread
  freed : Q → w.loc.Past → sh.NoThread

section Invariant

variable {P Q : Prop} {sh sh' : Shared} {v : View Io Op} {w : View App Op}

private structure PluginWorking (Q : Prop) (sh : Shared) (w : View App Op) : Prop where
  thread : sh.thread = .running
  state : ¬ (sh.state = .new ∨ sh.state = .stopped)
  alone : ∀ o, w.next = some o → o.needsNoThread = false
  past : Q → ¬ w.loc.Past

private theorem PluginInv.working (hj : PluginInv P Q sh v w) (hr : sh.thread = .running) : PluginWorking Q sh w where
  thread := hr
  state h := not_noThread hr (hj.known h)
  alone o ho := by
    rw [Bool.eq_false_iff]
    exact fun hn => not_noThread hr (hj.alone o ho hn)
  past hQ h := not_noThread hr (hj.freed hQ h)

private theorem PluginWorking.inv (hw : PluginWorking Q sh w) : PluginInv P Q sh v w where
  running _ := hw.thread
  known h := absurd h hw.state
  idle _ h := absurd h (not_noThread hw.thread)
  alone o ho hn := absurd hn (by rw [hw.alone o ho]; simp)
  launch _ ho := absurd (hw.alone _ ho) (by simp [Op.needsNoThread])
  stopping _ _ := not_noThread hw.thread
  freed hQ h := absurd h (hw.past hQ)

private theorem pluginInv_ioRules : IoRules (PluginInv P Q) (PluginWorking Q) where
  before hw _ := hw.inv
  work hj := hj.working (hj.running (.inl (by simp)))
  rest hw := hw.inv
  quiet hw h := ⟨h.2.1.trans hw.thread, by rw [h.1]; exact hw.state, hw.alone, hw.past⟩
  store {sh sh' w l st} hst hj he := by
    have hw := hj.working (hj.running (.inl (by simp)))
    simp only [Op.exec, Option.some.injEq, Prod.mk.injEq, true_and] at he
    subst he
    exact ⟨hw.thread, not_or.2 ⟨hst.1, hst.2.1⟩, hw.alone, hw.past⟩
  started hj _ := (hj.working (hj.running (.inl (by simp)))).inv
  ended {sh w l} hw hp := by
    have hno : ¬ ({ sh with thread := .ended } : Shared).NoThread := by simp [Shared.NoThread]
    refine ⟨?_, fun h => absurd h hw.state, fun _ h => absurd h hno, fun o ho hn => ?_, fun _ ho => ?_,
      fun _ _ => hno, fun hQ h => absurd h (hw.past hQ)⟩
    · rintro (h | h)
      · exact absurd rfl h
      · exact absurd h hp
    · rw [hw.alone o ho] at hn
      cases hn
    · exact absurd (hw.alone _ ho) (by simp [Op.needsNoThread])

/-! ### The application's thread -/

section App

variable {C : Shared → View App Op → View Io Op → Prop} {S : Shared → View Io Op → Prop} {a : App}

/-- What the two premises ask of the condition on the operations of the application's thread. -/
structure PluginInv.Premises (P Q : Prop) (C : Shared → View App Op → View Io Op → Prop) : Prop where
  launch : P → ∀ sh a v status, C sh ⟨a, some (.threadLaunch status)⟩ v → status = 0
  join : P → ∀ sh a v status, C sh ⟨a, some (.threadJoin status)⟩ v → status = 0
  switch : Q → ∀ sh a v, a.InCleanup → a.stage = .switch ∨ a.stage = .stop → C sh ⟨a, some .stateLoad⟩ v →
    sh.state ≠ .stopping ∧ sh.state ≠ .error ∧ sh.state ≠ .invalid
  wait : Q → ∀ sh a v, a.InCleanup → a.stage = .wait .started 1 → C sh ⟨a, some .stateLoad⟩ v → sh.state = .started
  stopJoin : Q → ∀ sh a v status, a.InCleanup → a.stage = .stop → C sh ⟨a, some (.threadJoin status)⟩ v → status = 0

private abbrev AfterApp (P Q : Prop) (C : Shared → View App Op → View Io Op → Prop) (a : App) (o : Op) (r : o.Res) :
    Shared → View Io Op → Prop :=
  After Op.exec (fun _ _ _ => True) (fun sh w v => PluginInv P Q sh v w) C a o r

private abbrev AppKeeps (P Q : Prop) (C : Shared → View App Op → View Io Op → Prop) (S : Shared → View Io Op → Prop)
    (code : AppM Bool) (a : App) (R : (Shared → View Io Op → Prop) → App → Bool → Prop) : Prop :=
  code.wp Op.exec (fun _ _ _ => True) (fun sh w v => PluginInv P Q sh v w) C S R a

private structure Rests (P Q : Prop) (a : App) (sh : Shared) (v : View Io Op) : Prop extends PluginInv.Base P sh v where
  past : Q → a.Past → sh.NoThread

private theorem changesState_of_needsNoThread {o : Op} (h : o.needsNoThread = true) : o.changesState = true := by
  cases o <;> simp_all [Op.needsNoThread, Op.changesState]

private theorem Rests.before (hr : Rests P Q a sh v) {o : Op} (ho : o.changesState = false) :
    PluginInv P Q sh v ⟨a, some o⟩ where
  running := hr.running
  known := hr.known
  idle hP hno := .inl (hr.idle hP hno)
  alone o' ho' hn := by
    obtain rfl : o = o' := Option.some.inj ho'
    exact absurd (ho.symm.trans (changesState_of_needsNoThread hn)) (by simp)
  launch status h := by
    rw [Option.some.inj h] at ho
    cases ho
  stopping _ h := by
    rcases h with h | ⟨status, h⟩
    · rw [Option.some.inj h] at ho
      cases ho
    · rw [Option.some.inj h] at ho
      cases ho
  freed := hr.past

private theorem rests_after {o : Op} (ho : o.changesState = false) {r : o.Res} (h : AfterApp P Q C a o r sh v) :
    Rests P Q a sh v := by
  obtain ⟨sh₀, -, hj, -, he⟩ := h
  obtain ⟨hst, hth, -, -⟩ := Op.exec_state ho he
  have hno : sh.NoThread ↔ sh₀.NoThread := by rw [Shared.NoThread, Shared.NoThread, hth]
  refine ⟨⟨fun h => hth.trans (hj.running h), ?_, fun hP h => ?_⟩, fun hQ h => hno.2 (hj.freed hQ h)⟩
  · rw [hst, hno]
    exact hj.known
  · rw [hst]
    refine (hj.idle hP (hno.1 h)).resolve_right ?_
    rintro (⟨status, h⟩ | h)
    · rw [Option.some.inj h] at ho
      cases ho
    · rw [Option.some.inj h] at ho
      cases ho

private theorem loaded {state : ServiceState} (h : AfterApp P Q C a .stateLoad state sh v) :
    sh.state = state ∧ C sh ⟨a, some .stateLoad⟩ v := by
  obtain ⟨sh₀, -, -, hc, he⟩ := h
  simp only [Op.exec, Option.some.injEq, Prod.mk.injEq] at he
  obtain ⟨hst, rfl⟩ := he
  exact ⟨hst, hc⟩

private theorem listen_wp (hS : ∀ sh v, S sh v → Rests P Q a sh v) (ep : Endpoint) :
    AppKeeps P Q C S (svlServiceListen ep) a fun S a' _ => a' = a ∧ ∀ sh v, S sh v → Rests P Q a sh v := by
  simp only [AppKeeps, svlServiceListen, Code.wp_bind, Code.wp_op, Code.wp_ite, Code.wp_pure]
  refine ⟨fun sh v h _ => (hS sh v h).before rfl, fun state _ => ⟨fun _ => ⟨trivial, fun sh v h => rests_after rfl h⟩,
    fun _ => ⟨fun sh v h _ => (rests_after rfl h).before rfl, fun _ _ => ⟨trivial, fun sh v h => rests_after rfl h⟩⟩⟩⟩

private theorem start_wp (hC : PluginInv.Premises P Q C) (hS : ∀ sh v, S sh v → Rests P Q a sh v)
    (hpast : ¬ a.Past) (launch : Int) :
    AppKeeps P Q C S (svlServiceStart launch) a fun S a' _ => a' = a ∧ ∀ sh v, S sh v → Rests P Q a sh v := by
  simp only [AppKeeps, svlServiceStart, Code.wp_bind, Code.wp_op]
  refine ⟨fun sh v h _ => (hS sh v h).before rfl, fun state _ => ?_⟩
  have hlaunch : state = .new ∨ state = .stopped → AppKeeps P Q C (AfterApp P Q C a .stateLoad state) (do
      perform (.stateStore .starting)
      let status ← perform (.threadLaunch launch)
      return decide (status = 0)) a fun S a' _ => a' = a ∧ ∀ sh v, S sh v → Rests P Q a sh v := by
    intro hst
    simp only [AppKeeps, Code.wp_bind, Code.wp_op, Code.wp_pure]
    refine ⟨fun sh v h _ => ?_, fun _ _ => ⟨?_, fun status _ => ⟨trivial, ?_⟩⟩⟩
    · -- no thread is running in a service that is `NEW` or `STOPPED`
      obtain ⟨rfl, -⟩ := loaded h
      have hr := rests_after rfl h
      exact ⟨hr.running, hr.known, fun hP hno => .inl (hr.idle hP hno), fun _ _ _ => hr.known hst, by simp, by simp,
        fun _ h => absurd h hpast⟩
    · rintro sh v ⟨sh₀, -, hj, -, he⟩ -
      have hno : sh₀.NoThread := hj.alone _ rfl rfl
      simp only [Op.exec, Option.some.injEq, Prod.mk.injEq, true_and] at he
      subst he
      exact ⟨hj.running, by simp, fun _ _ => .inr (.inl ⟨launch, rfl⟩), fun _ _ _ => hno, fun _ _ => rfl, by simp,
        fun _ h => absurd h hpast⟩
    · rintro sh v ⟨sh₀, -, hj, hc, he⟩
      have hstarting := hj.launch _ rfl
      simp only [Op.exec] at he
      split at he
      · obtain ⟨-, rfl⟩ := Prod.mk.inj (Option.some.inj he)
        exact ⟨⟨fun _ => rfl, by simp [hstarting], fun _ h => absurd h (not_noThread rfl)⟩, fun _ h => absurd h hpast⟩
      · rename_i hne
        obtain ⟨-, rfl⟩ := Prod.mk.inj (Option.some.inj he)
        exact ⟨⟨hj.running, hj.known, fun hP => absurd (hC.launch hP _ _ _ _ hc) hne⟩, fun _ h => absurd h hpast⟩
  cases state with
  | starting | started | stopping | error | invalid => exact ⟨rfl, fun sh v h => rests_after rfl h⟩
  | new | stopped => exact hlaunch (by simp)

/-- Where `tn_thread_join` succeeds, no IO thread is running. -/
private theorem joined {join status : Int} (h : AfterApp P Q C a (.threadJoin join) status sh v) :
    (v.next ≠ none ∨ v.loc.phase = .running → sh.thread = .running) ∧ (status = 0 → sh.NoThread) ∧
      (status ≠ 0 → (sh.state = .new ∨ sh.state = .stopped → sh.NoThread) ∧ join ≠ 0 ∧
        C sh ⟨a, some (.threadJoin join)⟩ v) := by
  obtain ⟨sh₀, -, hj, hc, he⟩ := h
  simp only [Op.exec] at he
  split at he
  · split at he
    · simp at he
    · rename_i hended
      obtain ⟨rfl, rfl⟩ := Prod.mk.inj (Option.some.inj he)
      refine ⟨fun hr => ?_, fun _ => .inr rfl, by simp⟩
      exact absurd (hended.symm.trans (hj.running hr)) (by simp)
    · rename_i hnone
      obtain ⟨rfl, rfl⟩ := Prod.mk.inj (Option.some.inj he)
      exact ⟨hj.running, fun _ => .inl hnone, by simp⟩
    · rename_i hjoined
      obtain ⟨rfl, rfl⟩ := Prod.mk.inj (Option.some.inj he)
      exact ⟨hj.running, fun _ => .inr hjoined, by simp⟩
  · rename_i hne
    obtain ⟨rfl, rfl⟩ := Prod.mk.inj (Option.some.inj he)
    exact ⟨hj.running, fun h => absurd h hne, fun _ => ⟨hj.known, hne, hc⟩⟩

/-- `NEW` and `STOPPED` are the only states in which a clean-up may find that there is nothing to stop, and then no IO
thread is running. -/
private theorem PluginInv.Base.noThread (hb : PluginInv.Base P sh v)
    (hno : sh.state ≠ .stopping ∧ sh.state ≠ .error ∧ sh.state ≠ .invalid)
    (hst : sh.state ≠ .starting ∧ sh.state ≠ .started) : sh.NoThread := by
  refine hb.known ?_
  cases h : sh.state <;> simp_all

private theorem stop_wp (hC : PluginInv.Premises P Q C) (hS : ∀ sh v, S sh v → Rests P Q a sh v) (hptr : a.ptr = true)
    (hstage : a.stage = .stop) (join : Int) :
    AppKeeps P Q C S (svlServiceStop join) a fun S a' _ => a' = a ∧ ∀ sh v, S sh v →
      PluginInv.Base P sh v ∧ (Q → a.InCleanup → sh.NoThread) := by
  have hpast : ¬ a.Past := by
    rintro (h | ⟨-, left, h⟩)
    · exact absurd (hptr.symm.trans h) (by simp)
    · exact absurd (hstage.symm.trans h) (by simp)
  simp only [AppKeeps, svlServiceStop, Code.wp_bind, Code.wp_op]
  refine ⟨fun sh v h _ => (hS sh v h).before rfl, fun state _ => ?_⟩
  have hquiet : state ≠ .starting ∧ state ≠ .started → ∀ sh v, AfterApp P Q C a .stateLoad state sh v →
      PluginInv.Base P sh v ∧ (Q → a.InCleanup → sh.NoThread) := by
    intro hst sh v h
    obtain ⟨rfl, hc⟩ := loaded h
    have hb := (rests_after rfl h).toBase
    exact ⟨hb, fun hQ ha => hb.noThread (hC.switch hQ _ _ _ ha (.inr hstage) hc) hst⟩
  have hjoin : state ≠ .new ∧ state ≠ .stopped → AppKeeps P Q C (AfterApp P Q C a .stateLoad state) (do
      perform (.stateStore .stopping)
      let status ← perform (.threadJoin join)
      if status ≠ 0 then
        perform (.stateStore .error)
        return false
      perform (.stateStore .stopped)
      return true) a fun S a' _ => a' = a ∧ ∀ sh v, S sh v →
        PluginInv.Base P sh v ∧ (Q → a.InCleanup → sh.NoThread) := by
    intro hst
    simp only [AppKeeps, Code.wp_bind, Code.wp_op, Code.wp_ite, Code.wp_pure]
    refine ⟨fun sh v h _ => ?_, fun _ _ => ⟨?_, ?_⟩⟩
    · obtain ⟨rfl, -⟩ := loaded h
      have hr := rests_after rfl h
      refine ⟨hr.running, hr.known, fun hP hno => .inl (hr.idle hP hno), by simp [Op.needsNoThread], by simp,
        fun hP _ hno => ?_, fun _ h => absurd h hpast⟩
      exact not_or.2 hst (hr.idle hP hno)
    · rintro sh v ⟨sh₀, -, hj, -, he⟩ -
      simp only [Op.exec, Option.some.injEq, Prod.mk.injEq, true_and] at he
      subst he
      have hno : P → ¬ sh₀.NoThread := fun hP => hj.stopping hP (.inl rfl)
      exact ⟨hj.running, by simp, fun hP h => absurd h (hno hP), by simp [Op.needsNoThread], by simp,
        fun hP _ => hno hP, fun _ h => absurd h hpast⟩
    · rintro status ⟨sh₁, v₁, h₁⟩
      refine ⟨fun hne => ?_, fun hz => ?_⟩
      · -- a join that fails
        obtain ⟨-, hj₁, hc₁⟩ := (joined h₁).2.2 hne
        have hP : ¬ P := fun hP => hj₁ (hC.join hP _ _ _ _ hc₁)
        have hQ : Q → ¬ a.InCleanup := fun hQ ha => hj₁ (hC.stopJoin hQ _ _ _ _ ha hstage hc₁)
        refine ⟨fun sh v h _ => ?_, fun _ _ => ⟨trivial, ?_⟩⟩
        · obtain ⟨hrun, -, hfail⟩ := joined h
          exact ⟨hrun, (hfail hne).1, fun h => absurd h hP, by simp [Op.needsNoThread], by simp, fun h => absurd h hP,
            fun _ h => absurd h hpast⟩
        · rintro sh v ⟨sh₀, -, hj, -, he⟩
          simp only [Op.exec, Option.some.injEq, Prod.mk.injEq, true_and] at he
          subst he
          exact ⟨⟨hj.running, by simp, fun h => absurd h hP⟩, fun hq ha => absurd ha (hQ hq)⟩
      · obtain rfl : status = 0 := not_not.1 hz
        refine ⟨fun sh v h _ => ?_, fun _ _ => ⟨trivial, ?_⟩⟩
        · obtain ⟨hrun, hno, -⟩ := joined h
          exact ⟨hrun, fun _ => hno rfl, fun _ _ => .inr (.inr rfl), fun _ _ _ => hno rfl, by simp, by simp,
            fun _ h => absurd h hpast⟩
        · rintro sh v ⟨sh₀, -, hj, -, he⟩
          have hno : sh₀.NoThread := hj.alone _ rfl rfl
          simp only [Op.exec, Option.some.injEq, Prod.mk.injEq, true_and] at he
          subst he
          exact ⟨⟨hj.running, fun _ => hno, fun _ _ => .inr rfl⟩, fun _ _ => hno⟩
  cases state with
  | new | stopping | stopped | error | invalid => exact ⟨rfl, hquiet (by simp)⟩
  | starting | started => exact hjoin (by simp)

private structure Waits (P Q : Prop) (desired : ServiceState) (a : App) (sh : Shared) (v : View Io Op) : Prop
    extends PluginInv.Base P sh v where
  stopped : Q → a.InCleanup → desired = .stopped → sh.NoThread

private theorem Waits.before {desired : ServiceState} (hw : Waits P Q desired a sh v) (hptr : a.ptr = true)
    (left : Nat) : PluginInv P Q sh v ⟨{ a with stage := .wait desired left }, some .stateLoad⟩ := by
  refine Rests.before ⟨hw.toBase, fun hQ hp => ?_⟩ rfl
  rcases hp with hp | ⟨ha, left', hst⟩
  · exact absurd (hptr.symm.trans hp) (by simp)
  · exact hw.stopped hQ ha (StopStage.wait.inj hst).1

private theorem waits_after {desired : ServiceState} {left : Nat} {state : ServiceState}
    (h : AfterApp P Q C { a with stage := .wait desired left } .stateLoad state sh v) : Waits P Q desired a sh v where
  toBase := (rests_after rfl h).toBase
  stopped hQ ha hst := (rests_after rfl h).past hQ (.inr ⟨ha, left, by rw [hst]⟩)

/-- At the end of the wait, a service that is in clean-up is stopped if the wait was for that.  It is not in vain if it
was for `STARTED`: the last load that counts finds that state. -/
private theorem waitLoop_wp (hC : PluginInv.Premises P Q C) {desired : ServiceState} (left : Nat)
    (state : ServiceState) (hptr : a.ptr = true) (hd : desired = .started ∨ desired = .stopped)
    (hlast : Q → a.InCleanup → desired = .started → left = 0 → state = .started)
    (hS : ∀ sh v, S sh v → Waits P Q desired a sh v) :
    AppKeeps P Q C S (stateWaitLoop desired left state) a fun S a' ok => a'.ptr = true ∧ a'.call = a.call ∧
      ∀ sh v, S sh v → PluginInv.Base P sh v ∧ (Q → a.InCleanup → desired = .stopped ∨ ok = false → sh.NoThread) := by
  induction left generalizing S a state with
  | zero =>
    simp only [AppKeeps, stateWaitLoop, Code.wp_bind, Code.wp_ite, Code.wp_pure, Code.wp_modify, Code.wp_op]
    refine ⟨fun _ => ⟨hptr, trivial, fun sh v h => ⟨(hS sh v h).toBase, fun hQ ha hst => ?_⟩⟩, fun hne =>
      ⟨fun sh v h _ => (hS sh v h).before hptr 0, fun state _ => ⟨hptr, trivial, fun sh v h => ?_⟩⟩⟩
    · exact (hS sh v h).stopped hQ ha (hst.resolve_right (by simp))
    · refine ⟨(waits_after h).toBase, fun hQ ha _ => ?_⟩
      rcases hd with rfl | rfl
      · exact absurd (hlast hQ ha rfl rfl) hne
      · exact (waits_after h).stopped hQ ha rfl
  | succ left ih =>
    simp only [AppKeeps, stateWaitLoop, Code.wp_bind, Code.wp_ite, Code.wp_pure, Code.wp_modify, Code.wp_op]
    refine ⟨fun _ => ⟨hptr, trivial, fun sh v h => ⟨(hS sh v h).toBase, fun hQ ha hst => ?_⟩⟩, fun _ =>
      ⟨fun sh v h _ => (hS sh v h).before hptr (left + 1), ?_⟩⟩
    · exact (hS sh v h).stopped hQ ha (hst.resolve_right (by simp))
    · rintro state ⟨sh₁, v₁, h₁⟩
      refine ih state hptr ?_ fun sh v h => ⟨(waits_after h).toBase, (waits_after h).stopped⟩
      rintro hQ ha rfl rfl
      obtain ⟨rfl, hc⟩ := loaded h₁
      exact hC.wait hQ _ _ _ ha rfl hc

private theorem stateWait_wp (hC : PluginInv.Premises P Q C) {desired : ServiceState}
    (hptr : a.ptr = true) (hd : desired = .started ∨ desired = .stopped)
    (hS : ∀ sh v, S sh v → Waits P Q desired a sh v) :
    AppKeeps P Q C S (serviceStateWait desired 500) a fun S a' ok => a'.ptr = true ∧ a'.call = a.call ∧
      ∀ sh v, S sh v → PluginInv.Base P sh v ∧ (Q → a.InCleanup → desired = .stopped ∨ ok = false → sh.NoThread) := by
  simp only [AppKeeps, serviceStateWait, Code.wp_bind, Code.wp_modify, Code.wp_op]
  refine ⟨fun sh v h _ => (hS sh v h).before hptr _, fun state _ => ?_⟩
  exact waitLoop_wp (a := { a with stage := .wait desired 10 }) hC _ state hptr hd (by simp) fun sh v h =>
    ⟨(waits_after h).toBase, (waits_after h).stopped⟩

/-- A service that is in clean-up is stopped when `service_stop` ends. -/
private def StopEnds (P Q : Prop) (a : App) (S : Shared → View Io Op → Prop) (a' : App) (_ : Bool) : Prop :=
  a'.ptr = true ∧ a'.call = a.call ∧ ∀ sh v, S sh v → PluginInv.Base P sh v ∧ (Q → a.InCleanup → sh.NoThread)

private theorem wait_stopEnds (hC : PluginInv.Premises P Q C) (hptr : a.ptr = true)
    (hS : ∀ sh v, S sh v → PluginInv.Base P sh v ∧ (Q → a.InCleanup → sh.NoThread)) :
    AppKeeps P Q C S (serviceStateWait .stopped 500) a (StopEnds P Q a) := by
  refine Code.wp_mono (fun S a' ok h => ⟨h.1, h.2.1, fun sh v hs => ?_⟩)
    (stateWait_wp hC hptr (.inr rfl) fun sh v h => ⟨(hS sh v h).1, fun hQ ha _ => (hS sh v h).2 hQ ha⟩)
  exact ⟨(h.2.2 sh v hs).1, fun hQ ha => (h.2.2 sh v hs).2 hQ ha (.inl rfl)⟩

private theorem stopStarted_wp (hC : PluginInv.Premises P Q C) (hptr : a.ptr = true)
    (hS : ∀ sh v, S sh v → PluginInv.Base P sh v) (join : Int) :
    AppKeeps P Q C S (serviceStopStarted join) a (StopEnds P Q a) := by
  simp only [AppKeeps, serviceStopStarted, Code.wp_bind, Code.wp_modify]
  refine Code.wp_mono (fun S a' ok h => ?_)
    (stop_wp (a := { a with stage := .stop }) hC (fun sh v h => ⟨hS sh v h, fun _ hp => ?_⟩) hptr rfl join)
  · obtain ⟨rfl, h⟩ := h
    rw [Code.wp_ite]
    exact ⟨fun _ => ⟨hptr, rfl, h⟩, fun _ => wait_stopEnds (a := { a with stage := .stop }) hC hptr h⟩
  · rcases hp with hp | ⟨-, left, hp⟩
    · exact absurd (hptr.symm.trans hp) (by simp)
    · cases hp

private theorem serviceStop_wp (hC : PluginInv.Premises P Q C) (hptr : a.ptr = true)
    (hS : ∀ sh v, S sh v → PluginInv.Base P sh v) (join : Int) :
    AppKeeps P Q C S (serviceStop join) a (StopEnds P Q a) := by
  simp only [AppKeeps, serviceStop, Code.wp_bind, Code.wp_modify, Code.wp_op]
  generalize ha' : ({ a with stage := .switch } : App) = a'
  have hptr' : a'.ptr = true := by
    rw [← ha']
    exact hptr
  have hcall : a'.call = a.call := by rw [← ha']
  have hstage : a'.stage = .switch := by rw [← ha']
  have hpast : ¬ a'.Past := by
    rintro (h | ⟨-, left, h⟩)
    · exact absurd (hptr'.symm.trans h) (by simp)
    · exact absurd (hstage.symm.trans h) (by simp)
  have hends : ∀ S a'' ok, StopEnds P Q a' S a'' ok → StopEnds P Q a S a'' ok := by
    rintro S a'' ok ⟨h₁, h₂, h₃⟩
    refine ⟨h₁, h₂.trans hcall, fun sh v h => ⟨(h₃ sh v h).1, fun hQ hc => (h₃ sh v h).2 hQ ?_⟩⟩
    rwa [App.InCleanup, hcall]
  refine ⟨fun sh v h _ => Rests.before ⟨hS sh v h, fun _ h => absurd h hpast⟩ rfl, fun state _ => ?_⟩
  -- where the switch leads to no stop, there is nothing to stop, or else the condition is not met
  have hquiet : state ≠ .starting ∧ state ≠ .started → ∀ sh v, AfterApp P Q C a' .stateLoad state sh v →
      PluginInv.Base P sh v ∧ (Q → a'.InCleanup → sh.NoThread) := by
    intro hst sh v h
    obtain ⟨rfl, hc⟩ := loaded h
    have hb := (rests_after rfl h).toBase
    exact ⟨hb, fun hQ ha => hb.noThread (hC.switch hQ _ _ _ ha (.inl hstage) hc) hst⟩
  have hbase : ∀ sh v, AfterApp P Q C a' .stateLoad state sh v → PluginInv.Base P sh v :=
    fun sh v h => (rests_after rfl h).toBase
  cases state with
  | starting =>
    rw [Code.wp_bind]
    refine Code.wp_mono (fun S l ok h => ?_) (stateWait_wp hC hptr' (.inl rfl) fun sh v h =>
      ⟨hbase sh v h, by simp⟩)
    obtain ⟨hl, hlc, h⟩ := h
    rw [Code.wp_ite]
    refine ⟨fun hok => ?_, fun _ => ?_⟩
    · refine hends _ _ false ⟨hl, hlc, fun sh v hs => ⟨(h sh v hs).1, fun hQ hc => (h sh v hs).2 hQ hc (.inr ?_)⟩⟩
      simpa using hok
    · refine Code.wp_mono (fun S a'' ok h => ?_) (stopStarted_wp hC hl (fun sh v hs => (h sh v hs).1) join)
      obtain ⟨h₁, h₂, h₃⟩ := h
      refine hends _ _ ok ⟨h₁, h₂.trans hlc, fun sh v hs => ⟨(h₃ sh v hs).1, fun hQ hc => (h₃ sh v hs).2 hQ ?_⟩⟩
      rwa [App.InCleanup, hlc]
  | started => exact Code.wp_mono hends (stopStarted_wp hC hptr' hbase join)
  | new | stopping | stopped => exact Code.wp_mono hends (wait_stopEnds hC hptr' (hquiet (by simp)))
  | error | invalid => exact hends _ _ false ⟨hptr', rfl, hquiet (by simp)⟩

private theorem servlynxStart_wp (hC : PluginInv.Premises P Q C) (hS : ∀ sh v, S sh v → Rests P Q a sh v)
    (hpast : ¬ a.Past) (endpoint : Option Endpoint) (launch : Int) :
    AppKeeps P Q C S (servlynxStart endpoint launch) a fun S a' _ => a' = a ∧ ∀ sh v, S sh v → Rests P Q a sh v := by
  cases endpoint with
  | none => exact start_wp hC hS hpast launch
  | some ep =>
    simp only [AppKeeps, servlynxStart, Code.wp_bind]
    refine Code.wp_mono (fun S a' ok h => ?_) (listen_wp hS ep)
    obtain ⟨rfl, h⟩ := h
    rw [Code.wp_ite]
    exact ⟨fun _ => ⟨rfl, h⟩, fun _ => start_wp hC h hpast launch⟩

private theorem ServlynxCall.keeps (hC : PluginInv.Premises P Q C) (call : ServlynxCall)
    (hS : ∀ sh v, S sh v → Rests P Q a sh v) :
    call.code.wp Op.exec (fun _ _ _ => True) (fun sh w v => PluginInv P Q sh v w) C S
      (Post (fun _ _ _ => True) fun sh w v => PluginInv P Q sh v w) a := by
  have hrun : AppKeeps P Q C S call.run { a with call := some call, returned := none } fun S l _ =>
      ∀ sh v, S sh v → PluginInv.Base P sh v ∧ (Q → l.ptr = false → sh.NoThread) := by
    have hstay : ∀ {S : Shared → View Io Op → Prop}, a.ptr = true → (∀ sh v, S sh v → PluginInv.Base P sh v) →
        ∀ sh v, S sh v → PluginInv.Base P sh v ∧ (Q → a.ptr = false → sh.NoThread) :=
      fun hp h sh v hs => ⟨h sh v hs, fun _ hf => absurd (hp.symm.trans hf) (by simp)⟩
    simp only [AppKeeps, ServlynxCall.run, Code.wp_bind, Code.wp_get, Code.wp_ite, Code.wp_pure]
    refine ⟨fun hptr sh v h => ⟨(hS sh v h).toBase, fun hQ _ => (hS sh v h).past hQ (.inl ?_)⟩, fun hptr => ?_⟩
    · simpa using hptr
    have hptr : a.ptr = true := by simpa using hptr
    have hbase : ∀ sh v, S sh v → PluginInv.Base P sh v := fun sh v h => (hS sh v h).toBase
    cases call with
    | setup => exact hstay hptr hbase
    | start endpoint launch =>
      have hpast : ¬ ({ a with call := some (.start endpoint launch), returned := none } : App).Past := by
        rintro (h | ⟨⟨join, h⟩, -⟩)
        · exact absurd (hptr.symm.trans h) (by simp)
        · simp at h
      refine Code.wp_mono (fun S l ok h => ?_) (servlynxStart_wp hC
        (fun sh v h => ⟨hbase sh v h, fun _ h => absurd h hpast⟩) hpast endpoint launch)
      obtain ⟨rfl, h⟩ := h
      exact hstay hptr fun sh v hs => (h sh v hs).toBase
    | stop join =>
      refine Code.wp_mono (fun S l ok h => ?_)
        (serviceStop_wp (a := { a with call := some (.stop join), returned := none }) hC hptr hbase join)
      exact fun sh v hs => ⟨(h.2.2 sh v hs).1, fun _ hf => absurd (h.1.symm.trans hf) (by simp)⟩
    | cleanup join =>
      rw [Code.wp_bind]
      refine Code.wp_mono (fun S l ok h => ?_)
        (serviceStop_wp (a := { a with call := some (.cleanup join), returned := none }) hC hptr hbase join)
      simp only [Code.wp_bind, Code.wp_modify, Code.wp_pure]
      exact fun sh v hs => ⟨(h.2.2 sh v hs).1, fun hQ _ => (h.2.2 sh v hs).2 hQ ⟨join, rfl⟩⟩
  simp only [ServlynxCall.code, Code.wp_bind, Code.wp_modify]
  refine Code.wp_mono (fun S l ok h => ?_) hrun
  rintro sh v hs -
  obtain ⟨hb, hf⟩ := h sh v hs
  refine ⟨hb.running, hb.known, fun hP hno => .inl (hb.idle hP hno), by simp, by simp, by simp, fun hQ hk => ?_⟩
  rcases hk with h | ⟨⟨join, h⟩, -⟩
  · exact hf hQ h
  · simp at h

end App

end Invariant

/-! ### Over whole runs -/

variable {P Q : Prop} {n : Nat} {c : PluginConfig} {cond : PluginCond}

/-- The invariant in every state that a run reaches. -/
theorem pluginInv (hC : PluginInv.Premises P Q fun sh w v => cond.op₂ sh v w = true) (h : PluginReach cond n c) :
    PluginInv P Q c.sh c.fst.view c.snd.view := by
  refine Machine.Reach.invariant (K := fun _ _ _ => True) (fun _ _ => trivial) ?_ ?_ ?_ h
  · exact ⟨by simp [Io.setup], fun _ => .inl rfl, fun _ _ => .inl (.inl rfl), by simp, by simp, by simp,
      fun _ _ => .inl rfl⟩
  · rintro d io ⟨sh₀, w₀, -, -, hr₀, -⟩
    refine pluginInv_ioRules.keeps d ?_ ?_
    · rintro sh w ⟨-, hj, hr, -⟩
      rcases IoRun.ready_phase hr with ⟨-, ht⟩ | ⟨hp, -⟩
      · exact hj.working ht
      · exact hj.working (hj.running (.inr hp))
    · rintro out rfl
      have hr : (IoRun.thread out).ready sh₀ io = true := hr₀
      rcases IoRun.ready_phase hr with ⟨hp, -⟩ | ⟨-, hne⟩
      · simp [hp]
      · exact absurd rfl (hne out)
  · rintro call a -
    refine ServlynxCall.keeps hC call ?_
    rintro sh v ⟨-, hj, -, -⟩
    refine ⟨⟨hj.running, hj.known, fun hP hno => ?_⟩, hj.freed⟩
    simpa using hj.idle hP hno

private theorem exists_pluginReach (cond : PluginCond) (n : Nat) (as : List (Act IoRun ServlynxCall))
    (R : PluginConfig → Prop) [DecidablePred R]
    (h : (plugin.runWhen cond (.idle (.setup n) (.setup n) {}) as).any (fun c => decide (R c)) = true) :
    ∃ c, PluginReach cond n c ∧ R c := by
  obtain ⟨c, hc, hR⟩ := Machine.Reach.exists_of_runWhen h
  exact ⟨c, hc, of_decide_eq_true hR⟩

private def pluginUp : List (Act IoRun ServlynxCall) :=
  [.run₂ (.start none 0), .op₂, .op₂, .op₂, .run₁ (.thread {}), .op₁, .op₁, .op₁]

/-- The timer of the IO thread finds the service stopping, and the thread comes to its end. -/
private def pluginDown : List (Act IoRun ServlynxCall) :=
  [.run₁ .timer, .op₁, .run₁ (.close 1), .run₁ (.close 2), .run₁ (.close 3), .run₁ (.close 4), .run₁ .uvRunReturn, .op₁]

/-! ### The two stop functions -/

/-- The runs in which every launch and every join succeeds. -/
def launchesAndJoins : PluginCond where
  op₂ _ _ w := match w.next with
    | some (.threadLaunch status) | some (.threadJoin status) => decide (status = 0)
    | _ => true

/-- The code comes to its end without blocking, returns `TN_SUCCESS` and leaves the service as it is. -/
def SucceedsQuietly {L : Type} (code : Code Op Op.Res L Bool) (l : L) (sh : Shared) : Prop :=
  code.ends Op.exec (fun sh sh' => sh' = sh) (fun _ _ => True) (fun sh' _ ok => ok = true ∧ sh' = sh) l sh

/-- A wait ends quietly where the service is in the desired state, and only there. -/
private theorem stateWaitLoop_ends {sh sh₀ : Shared} (desired : ServiceState) (left : Nat) (a : App) (h : sh = sh₀) :
    (stateWaitLoop desired left sh.state).ends Op.exec (fun sh sh' => sh' = sh) (fun _ _ => True)
      (fun sh' _ ok => ok = true ∧ sh' = sh₀) a sh ↔ sh.state = desired := by
  subst h
  induction left generalizing a with
  | zero => by_cases h : sh.state = desired <;> simp [stateWaitLoop, perform, Op.exec, h]
  | succ left ih =>
    by_cases h : sh.state = desired
    · simp [stateWaitLoop, h]
    · simp only [stateWaitLoop, perform, Code.ends_bind, Code.ends_ite, Code.ends_modify, Code.ends_op, h]
      simp only [false_implies, not_false_eq_true, true_implies, true_and, iff_false]
      intro hends
      obtain ⟨r, sh'', he, hk⟩ := hends _ rfl
      simp only [Op.exec, Option.some.injEq, Prod.mk.injEq] at he
      obtain ⟨rfl, rfl⟩ := he
      exact h ((ih _).1 hk)

private theorem serviceStateWait_ends (desired : ServiceState) (waitMs : Nat) (a : App) (sh : Shared) :
    SucceedsQuietly (serviceStateWait desired waitMs) a sh ↔ sh.state = desired := by
  rw [← stateWaitLoop_ends desired ((waitMs - 1) / 50) { a with stage := .wait desired (waitMs / 50) } rfl]
  simp [SucceedsQuietly, serviceStateWait, perform, Op.exec]

private theorem svlServiceStop_quiet {L : Type} {l : L} {sh : Shared} (h : sh.state = .new ∨ sh.state = .stopped)
    (join : Int) : SucceedsQuietly (svlServiceStop join) l sh := by
  rcases h with h | h <;> simp [SucceedsQuietly, svlServiceStop, perform, Op.exec, h]

private theorem servlynxStop_quiet {a : App} {sh : Shared} (hptr : a.ptr = true)
    (h : sh.state = .new ∨ sh.state = .stopped) (join : Int) :
    SucceedsQuietly (ServlynxCall.run (.stop join)) a sh ↔ sh.state = .stopped := by
  have hwait := serviceStateWait_ends .stopped 500 { a with stage := .switch } sh
  rw [← hwait]
  rcases h with h | h <;> simp [SucceedsQuietly, ServlynxCall.run, serviceStop, perform, Op.exec, hptr, h]

/-- Between two calls of a run in which all launches and joins succeed, where no IO thread is running: it cannot take
a step, `svl_service_stop` changes nothing and returns `TN_SUCCESS`, and `servlynx_stop` does the same where the
service was stopped, but not where it is still `NEW`. -/
theorem servlynxStop_agrees_iff (hc : PluginReach launchesAndJoins n c) (hidle : c.snd.view.next = none)
    (hptr : c.snd.view.loc.ptr = true) (hno : c.sh.NoThread) (join : Int) :
    (∀ s, s = .op₁ ∨ (∃ d, s = .run₁ d) → plugin.step c s = none) ∧
      SucceedsQuietly (svlServiceStop join) c.snd.view.loc c.sh ∧
      (SucceedsQuietly (ServlynxCall.run (.stop join)) c.snd.view.loc c.sh ↔ c.sh.state = .stopped) := by
  have hj := pluginInv (P := True) (Q := False) ⟨fun _ _ _ _ _ h => by simpa [launchesAndJoins] using h,
    fun _ _ _ _ _ h => by simpa [launchesAndJoins] using h, False.elim, False.elim, False.elim⟩ hc
  have hst : c.sh.state = .new ∨ c.sh.state = .stopped := by simpa [hidle] using hj.idle trivial hno
  have hnot := mt hj.running fun hr => not_noThread hr hno
  refine ⟨?_, svlServiceStop_quiet hst join, servlynxStop_quiet hptr hst join⟩
  rintro s (rfl | ⟨d, rfl⟩)
  · cases hp : c.fst with
    | ret l x => simp [Machine.step, hp]
    | act l o k => exact absurd (.inl (by simp [hp, Prog.view, Prog.next])) hnot
  · cases hs : plugin.step c (.run₁ d) with
    | none => rfl
    | some c' =>
      obtain ⟨io, hp, hr, -⟩ := Machine.step_run₁ hs
      rcases IoRun.ready_phase hr with ⟨-, ht⟩ | ⟨hrun, -⟩
      · exact absurd hno (not_noThread ht)
      · exact absurd (.inr (by rw [hp]; exact hrun)) hnot

/-- A service is started and stopped; stopping it again changes nothing. -/
theorem servlynxStop_agrees_stopped : ∃ c, PluginReach launchesAndJoins 1 c ∧ (c.snd.view.next = none ∧
    c.snd.view.loc.ptr = true ∧ c.sh.thread = .joined ∧ c.sh.state = .stopped) ∧
    SucceedsQuietly (ServlynxCall.run (.stop 0)) c.snd.view.loc c.sh := by
  obtain ⟨c, hc, hidle, hptr, hth, hst⟩ := exists_pluginReach launchesAndJoins 1
    (.flatten [pluginUp, [.run₂ (.stop 0), .op₂, .op₂, .op₂], pluginDown, [.op₂, .op₂, .op₂]])
    (fun c => c.snd.view.next = none ∧ c.snd.view.loc.ptr = true ∧ c.sh.thread = .joined ∧ c.sh.state = .stopped)
    (by decide +kernel)
  exact ⟨c, hc, ⟨hidle, hptr, hth, hst⟩, (servlynxStop_agrees_iff hc hidle hptr (.inr hth) 0).2.2.2 hst⟩

/-- A service that was set up and not started: `svl_service_stop` succeeds, `servlynx_stop` waits in vain and fails. -/
theorem servlynxStop_disagrees : SucceedsQuietly (svlServiceStop 0) ({} : App) (Shared.setup 1) ∧
    ∃ c, PluginReach launchesAndJoins 1 c ∧ c.snd.view.loc.returned = some (.stop 0, false) ∧ c.sh.state = .new :=
  ⟨svlServiceStop_quiet (.inl rfl) 0, exists_pluginReach launchesAndJoins 1
    (.run₂ (.stop 0) :: List.replicate 12 .op₂)
    (fun c => c.snd.view.loc.returned = some (.stop 0, false) ∧ c.sh.state = .new) (by decide +kernel)⟩

/-! ### The release of the service -/

/-- The runs in which, inside `servlynx_cleanup`, neither of the two switches finds `STOPPING`, `ERROR` or `INVALID`, a
wait for `STARTED` finds that state at its last load that counts, if not before, and `tn_thread_join` succeeds. -/
def releasesSafely : PluginCond where
  op₂ sh _ w := match w.loc.call, w.loc.stage, w.next with
    | some (.cleanup _), .switch, some .stateLoad | some (.cleanup _), .stop, some .stateLoad =>
      decide (sh.state ≠ .stopping ∧ sh.state ≠ .error ∧ sh.state ≠ .invalid)
    | some (.cleanup _), .wait .started 1, some .stateLoad => decide (sh.state = .started)
    | some (.cleanup _), .stop, some (.threadJoin status) => decide (status = 0)
    | _, _, _ => true

/-- Once `servlynx_cleanup` has released the service, its IO thread was never launched, or was joined. -/
theorem servlynxCleanup_no_thread (hc : PluginReach releasesSafely n c) (hp : c.snd.view.loc.ptr = false) :
    c.sh.NoThread := by
  have hj := pluginInv (P := False) (Q := True) ⟨False.elim, False.elim, ?_, ?_, ?_⟩ hc
  · exact hj.freed trivial (.inl hp)
  · rintro - sh a v ⟨join, ha⟩ (hst | hst) h
    · simpa [releasesSafely, ha, hst] using h
    · simpa [releasesSafely, ha, hst] using h
  · rintro - sh a v ⟨join, ha⟩ hst h
    simpa [releasesSafely, ha, hst] using h
  · rintro - sh a v status ⟨join, ha⟩ hst h
    simpa [releasesSafely, ha, hst] using h

/-- A service is started, and cleaned up while it is up. -/
theorem servlynxCleanup_no_thread_joined : ∃ c, PluginReach releasesSafely 1 c ∧
    (c.snd.view.loc.ptr = false ∧ c.sh.thread = .joined) ∧ c.sh.NoThread := by
  obtain ⟨c, hc, hp, hth⟩ := exists_pluginReach releasesSafely 1
    (.flatten [pluginUp, [.run₂ (.cleanup 0), .op₂, .op₂, .op₂], pluginDown, [.op₂, .op₂, .op₂]])
    (fun c => c.snd.view.loc.ptr = false ∧ c.sh.thread = .joined) (by decide +kernel)
  exact ⟨c, hc, ⟨hp, hth⟩, servlynxCleanup_no_thread hc hp⟩

/-- SIGINT stores `STOPPING`; `service_stop` waits for `STOPPED` in vain, and the service is released while its thread
runs. -/
theorem servlynxCleanup_frees_running : ∃ c, PluginReach .any 1 c ∧
    c.snd.view.loc.returned = some (.cleanup 0, true) ∧ c.snd.view.loc.ptr = false ∧ c.sh.thread = .running ∧
    c.fst.view.loc.phase = .running :=
  exists_pluginReach .any 1
    (.flatten [pluginUp, [.run₁ (.signal true), .op₁, .op₁, .run₂ (.cleanup 0)], .replicate 12 .op₂])
    (fun c => c.snd.view.loc.returned = some (.cleanup 0, true) ∧ c.snd.view.loc.ptr = false ∧
      c.sh.thread = .running ∧ c.fst.view.loc.phase = .running) (by decide +kernel)

end ServerLynx
