import ServerLynx.Lifecycle

/-!
# The launch of the IO thread (`svl_service_start`)

`svl_service_start` stores `STARTING` before it launches the IO thread, and leaves it there if the launch fails.  In
the runs in which each launch succeeds, start is all or nothing, and stop only joins a thread that was launched.
-/

namespace ServerLynx

open Threads

/-- The IO thread was launched, and not joined since. -/
def Shared.Launched (sh : Shared) : Prop := sh.thread = .running ∨ sh.thread = .ended

/-- The runs in which `tn_thread_launch` succeeds. -/
def launchSucceeds : ServiceCond where
  op₂ _ _ w := match w.next with
    | some (.threadLaunch status) => decide (status = 0)
    | _ => true

/-- What start promises in the state `c` of a run whose steps meet `cond`. -/
structure AllOrNothing (cond : ServiceCond) (c : ServiceConfig) : Prop where
  /-- The step by which start returns `TN_ERROR` is its first one, and changes nothing. -/
  fails : ∀ launch id c', c.snd.view.loc.call = some (.start launch) → cond.allows c .op₂ →
    service.step c .op₂ = some c' → c'.snd.view.loc.returned = some ⟨.start launch, false, id⟩ →
    (∃ m, c.snd = (MainCall.start launch).code m) ∧ c'.sh = c.sh
  succeeds : ∀ launch id, c.snd.view.loc.returned = some ⟨.start launch, true, id⟩ → c.sh.Launched
  joins : ∀ join, c.snd.view.next = some (.threadJoin join) → c.sh.Launched

/-! ### The invariant -/

/-- The invariant as far as the main thread does not matter. -/
structure Launches.Base (sh : Shared) (v : View Io Op) : Prop where
  running : v.next ≠ none ∨ v.loc.phase = .running → sh.thread = .running
  up : sh.state = .starting ∨ sh.state = .started → sh.Launched

/-- Where the state is `STARTING` or `STARTED`, the IO thread was launched, except in the middle of start and before the
last store of stop; and what is joined was launched. -/
structure Launches (sh : Shared) (v : View Io Op) (w : View Main Op) : Prop where
  running : v.next ≠ none ∨ v.loc.phase = .running → sh.thread = .running
  up : sh.state = .starting ∨ sh.state = .started → sh.Launched ∨ (∃ status, w.next = some (.threadLaunch status)) ∨
    w.next = some (.stateStore .stopped)
  stops : ∀ join, w.loc.call = some (.stop join) → w.next = some (.stateStore .stopping) → sh.Launched
  joins : ∀ join, w.next = some (.threadJoin join) → sh.Launched
  succeeds : ∀ launch id, w.loc.returned = some ⟨.start launch, true, id⟩ → sh.Launched

variable {sh sh' : Shared} {v : View Io Op} {w : View Main Op} {C : Shared → View Main Op → View Io Op → Prop}
  {S : Shared → View Io Op → Prop} {m : Main}

private theorem Launches.of_running (hr : sh.thread = .running) : Launches sh v w :=
  ⟨fun _ => hr, fun _ => .inl (.inl hr), fun _ _ _ => .inl hr, fun _ _ => .inl hr, fun _ _ _ => .inl hr⟩

private theorem launches_ioRules : IoRules Launches fun sh _ => sh.thread = .running where
  before hr _ := .of_running hr
  work hj := hj.running (.inl (by simp))
  rest hr := .of_running hr
  quiet hr h := h.2.1.trans hr
  store _ hj he := by
    have hr := hj.running (.inl (by simp))
    simp only [Op.exec, Option.some.injEq, Prod.mk.injEq, true_and] at he
    subst he
    exact hr
  started hj _ := .of_running (hj.running (.inl (by simp)))
  ended _ hp := by
    refine ⟨?_, fun _ => .inl (.inr rfl), fun _ _ _ => .inr rfl, fun _ _ => .inr rfl, fun _ _ _ => .inr rfl⟩
    rintro (h | h)
    · exact absurd rfl h
    · exact absurd h hp

/-! ### The main thread -/

private abbrev AfterCall (C : Shared → View Main Op → View Io Op → Prop) (m : Main) (o : Op) (r : o.Res) :
    Shared → View Io Op → Prop :=
  After Op.exec (fun _ _ _ => True) (fun sh w v => Launches sh v w) C m o r

/-- A start that succeeds leaves the thread launched. -/
private structure EndsLaunched (call : MainCall) (S : Shared → View Io Op → Prop) (success : Bool) : Prop where
  base : ∀ sh v, S sh v → Launches.Base sh v
  start : (∃ launch, call = .start launch) → success = true → ∀ sh v, S sh v → sh.Launched

private abbrev CallKeeps (C : Shared → View Main Op → View Io Op → Prop) (S : Shared → View Io Op → Prop)
    (call : MainCall) (code : MainM Bool) (m : Main) : Prop :=
  code.wp Op.exec (fun _ _ _ => True) (fun sh w v => Launches sh v w) C S (fun S _ ok => EndsLaunched call S ok) m

private theorem Launches.Base.before (hb : Launches.Base sh v) (hret : m.returned = none) {o : Op}
    (ho : o.changesState = false) : Launches sh v ⟨m, some o⟩ where
  running := hb.running
  up h := .inl (hb.up h)
  stops join _ h := by
    rw [Option.some.inj h] at ho
    cases ho
  joins join h := by
    rw [Option.some.inj h] at ho
    cases ho
  succeeds launch id h := absurd (hret.symm.trans h) (by simp)

private theorem base_after {o : Op} (ho : o.changesState = false) {r : o.Res} (h : AfterCall C m o r sh v) :
    Launches.Base sh v := by
  obtain ⟨sh₀, -, hj, -, he⟩ := h
  obtain ⟨hst, hth, -, -⟩ := Op.exec_state ho he
  refine ⟨fun h => hth.trans (hj.running h), fun h => ?_⟩
  rw [hst] at h
  rw [Shared.Launched, hth]
  refine (hj.up h).resolve_right ?_
  rintro (⟨status, h⟩ | h)
  · rw [Option.some.inj h] at ho
    cases ho
  · rw [Option.some.inj h] at ho
    cases ho

private theorem state_after_load {state : ServiceState} (h : AfterCall C m .stateLoad state sh v) :
    sh.state = state := by
  obtain ⟨sh₀, -, -, -, he⟩ := h
  simp only [Op.exec, Option.some.injEq, Prod.mk.injEq] at he
  obtain ⟨hst, rfl⟩ := he
  exact hst

private theorem quiet_keeps {α : Type} {code : MainM α}
    (hcode : code.Within (fun o => o.changesState = false) fun m l => l.returned = m.returned)
    (hS : ∀ sh v, S sh v → Launches.Base sh v) (hret : m.returned = none) :
    code.wp Op.exec (fun _ _ _ => True) (fun sh w v => Launches sh v w) C S
      (fun S _ _ => ∀ sh v, S sh v → Launches.Base sh v) m := by
  refine Prog.wp_mono (fun S l r h => h.1) (Prog.wp_of_path ?_ ?_ (hcode.path m) hS)
  · rintro sh l o v ⟨ho, hl⟩ - hb
    exact hb.before (hl.trans hret) ho
  · rintro sh sh' l o r v ⟨ho, -⟩ - hj he
    exact base_after (C := fun _ _ _ => True) ho ⟨_, trivial, hj, trivial, he⟩

private theorem startKeeps (hC : ∀ sh m v status, C sh ⟨m, some (.threadLaunch status)⟩ v → status = 0) (launch : Int)
    (hS : ∀ sh v, S sh v → Launches.Base sh v) (hret : m.returned = none) :
    CallKeeps C S (.start launch) (svlServiceStart launch) m := by
  simp only [CallKeeps, svlServiceStart, Code.wp_bind, Code.wp_op]
  refine ⟨fun sh v h _ => (hS sh v h).before hret rfl, fun state _ => ?_⟩
  have hload : ∀ sh v, AfterCall C m .stateLoad state sh v → Launches.Base sh v := fun sh v h => base_after rfl h
  have hlaunch : CallKeeps C (AfterCall C m .stateLoad state) (.start launch) (do
      perform (.stateStore .starting)
      let status ← perform (.threadLaunch launch)
      return decide (status = 0)) m := by
    simp only [CallKeeps, Code.wp_bind, Code.wp_op, Code.wp_pure]
    refine ⟨fun sh v h _ => ?_, fun _ _ => ⟨?_, fun status _ => ?_⟩⟩
    · have hb := hload sh v h
      exact ⟨hb.running, fun h => .inl (hb.up h), by simp, by simp, by simp [hret]⟩
    · rintro sh v ⟨sh₀, -, hj, -, he⟩ -
      simp only [Op.exec, Option.some.injEq, Prod.mk.injEq, true_and] at he
      subst he
      exact ⟨hj.running, fun _ => .inr (.inl ⟨launch, rfl⟩), by simp, by simp, by simp [hret]⟩
    · have hrun : ∀ sh v, AfterCall C m (.threadLaunch launch) status sh v → sh.thread = .running := by
        rintro sh v ⟨sh₀, -, -, hc, he⟩
        simp only [Op.exec, hC _ _ _ _ hc, if_true] at he
        obtain ⟨-, rfl⟩ := Prod.mk.inj (Option.some.inj he)
        rfl
      exact ⟨fun sh v h => ⟨fun _ => hrun sh v h, fun _ => .inl (hrun sh v h)⟩, fun _ _ sh v h => .inl (hrun sh v h)⟩
  cases state with
  | stopping | error | invalid => exact ⟨hload, by simp⟩
  | starting => exact ⟨hload, fun _ _ sh v h => (hload sh v h).up (.inl (state_after_load h))⟩
  | started => exact ⟨hload, fun _ _ sh v h => (hload sh v h).up (.inr (state_after_load h))⟩
  | new | stopped => exact hlaunch

private theorem stopKeeps (join : Int) (hS : ∀ sh v, S sh v → Launches.Base sh v) (hcall : m.call = some (.stop join))
    (hret : m.returned = none) : CallKeeps C S (.stop join) (svlServiceStop join) m := by
  simp only [CallKeeps, svlServiceStop, Code.wp_bind, Code.wp_op]
  refine ⟨fun sh v h _ => (hS sh v h).before hret rfl, fun state _ => ?_⟩
  have hload : ∀ sh v, AfterCall C m .stateLoad state sh v → Launches.Base sh v := fun sh v h => base_after rfl h
  have hjoin : state = .starting ∨ state = .started → CallKeeps C (AfterCall C m .stateLoad state) (.stop join) (do
      perform (.stateStore .stopping)
      let status ← perform (.threadJoin join)
      if status ≠ 0 then
        perform (.stateStore .error)
        return false
      perform (.stateStore .stopped)
      return true) m := by
    intro hst
    simp only [CallKeeps, Code.wp_bind, Code.wp_op, Code.wp_ite, Code.wp_pure]
    refine ⟨fun sh v h _ => ?_, fun _ _ => ⟨?_, fun status _ => ⟨fun hne => ⟨?_, fun _ _ => ⟨?_, by simp⟩⟩,
      fun hz => ⟨?_, fun _ _ => ⟨?_, by simp⟩⟩⟩⟩⟩
    · have hb := hload sh v h
      have hl := hb.up (state_after_load h ▸ hst)
      exact ⟨hb.running, fun _ => .inl hl, fun _ _ _ => hl, by simp, by simp [hret]⟩
    · rintro sh v ⟨sh₀, -, hj, -, he⟩ -
      simp only [Op.exec, Option.some.injEq, Prod.mk.injEq, true_and] at he
      subst he
      have hl : sh₀.Launched := hj.stops join hcall rfl
      exact ⟨hj.running, fun _ => .inl hl, fun _ _ _ => hl, fun _ _ => hl, by simp [hret]⟩
    · -- a join that fails changes nothing
      rintro sh v ⟨sh₀, -, hj, -, he⟩ -
      have hl : sh₀.Launched := hj.joins join rfl
      have hsame : sh = sh₀ := by
        simp only [Op.exec] at he
        split at he
        · split at he <;> simp_all
        · exact (Prod.mk.inj (Option.some.inj he)).2.symm
      subst hsame
      exact ⟨hj.running, fun _ => .inl hl, by simp, by simp, by simp [hret]⟩
    · rintro sh v ⟨sh₀, -, hj, -, he⟩
      simp only [Op.exec, Option.some.injEq, Prod.mk.injEq, true_and] at he
      subst he
      exact ⟨hj.running, by simp⟩
    · rintro sh v ⟨sh₀, -, hj, -, he⟩ -
      refine ⟨fun hr => ?_, fun _ => .inr (.inr rfl), by simp, by simp, by simp [hret]⟩
      have hth := hj.running hr
      simp only [Op.exec, hth] at he
      split at he
      · cases he
      · obtain ⟨-, rfl⟩ := Prod.mk.inj (Option.some.inj he)
        exact hth
    · rintro sh v ⟨sh₀, -, hj, -, he⟩
      simp only [Op.exec, Option.some.injEq, Prod.mk.injEq, true_and] at he
      subst he
      exact ⟨hj.running, by simp⟩
  cases state with
  | new | stopping | stopped | error | invalid => exact ⟨hload, by simp⟩
  | starting => exact hjoin (.inl rfl)
  | started => exact hjoin (.inr rfl)

private theorem stopSignalKeeps (hS : ∀ sh v, S sh v → Launches.Base sh v) (hcall : m.call = some .stopSignal)
    (hret : m.returned = none) : CallKeeps C S .stopSignal svlServiceStopSignal m := by
  simp only [CallKeeps, svlServiceStopSignal, Code.wp_bind, Code.wp_op, Code.wp_ite, Code.wp_pure]
  refine ⟨fun sh v h _ => (hS sh v h).before hret rfl, fun state _ =>
    ⟨fun _ => ⟨fun sh v h => base_after rfl h, by simp⟩, fun _ => ⟨fun sh v h _ => ?_, fun _ _ => ⟨?_, by simp⟩⟩⟩⟩
  · have hb : Launches.Base sh v := base_after rfl h
    exact ⟨hb.running, fun h => .inl (hb.up h), by simp [hcall], by simp, by simp [hret]⟩
  · rintro sh v ⟨sh₀, -, hj, -, he⟩
    simp only [Op.exec, Option.some.injEq, Prod.mk.injEq, true_and] at he
    subst he
    exact ⟨hj.running, by simp⟩

private theorem quietKeeps {call : MainCall} (hk : call.kind ≠ .service ∨ ∃ endpoint, call = .listen endpoint)
    (hS : ∀ sh v, S sh v → Launches.Base sh v) (hret : m.returned = none) :
    call.run.wp Op.exec (fun _ _ _ => True) (fun sh w v => Launches sh v w) C S
      (fun S _ r => EndsLaunched call S r.1) m := by
  have hcode : call.run.Within (fun o => o.changesState = false) fun m l => l.returned = m.returned := by
    rcases hk with hk | ⟨endpoint, rfl⟩
    · refine call.keepsTo.mono (fun o ho => ?_) fun _ _ h => h.call.2.1
      obtain ⟨ho | rfl, -⟩ := ho
      · cases o <;> simp_all [Op.kind, Op.changesState]
      · rfl
    · refine ⟨fun m => ?_⟩
      simp only [MainCall.run, svlServiceListen, Code.path_bind, Code.path_op, Code.path_ite, Code.path_pure]
      exact ⟨⟨rfl, trivial⟩, fun _ _ => ⟨fun _ => trivial, fun _ => ⟨⟨rfl, trivial⟩, fun _ _ => trivial⟩⟩⟩
  refine Code.wp_mono (fun S l r h => ⟨h, ?_⟩) (quiet_keeps hcode hS hret)
  rintro ⟨launch, rfl⟩
  exact absurd hk (by simp [MainCall.kind])

private theorem MainCall.keepsLaunches (hC : ∀ sh m v status, C sh ⟨m, some (.threadLaunch status)⟩ v → status = 0)
    (call : MainCall) (hS : ∀ sh v, S sh v → Launches.Base sh v) :
    call.code.wp Op.exec (fun _ _ _ => True) (fun sh w v => Launches sh v w) C S
      (Post (fun _ _ _ => True) fun sh w v => Launches sh v w) m := by
  have hrun : call.run.wp Op.exec (fun _ _ _ => True) (fun sh w v => Launches sh v w) C S
      (fun S _ r => EndsLaunched call S r.1) { m with call := some call, returned := none } := by
    cases call with
    | start launch => exact (Code.wp_bind ..).2 (startKeeps hC launch hS rfl)
    | stop join => exact (Code.wp_bind ..).2 (stopKeeps join hS rfl rfl)
    | stopSignal => exact (Code.wp_bind ..).2 (stopSignalKeeps hS rfl rfl)
    | listen endpoint => exact quietKeeps (.inr ⟨endpoint, rfl⟩) hS rfl
    | eventsAcquire | eventsRelease => exact quietKeeps (.inl (by simp [MainCall.kind])) hS rfl
    | cmdOpen endpoint id => exact quietKeeps (.inl (by simp [MainCall.kind])) hS rfl
    | cmdClose clientId id => exact quietKeeps (.inl (by simp [MainCall.kind])) hS rfl
    | cmdSend clientId msg msglen id => exact quietKeeps (.inl (by simp [MainCall.kind])) hS rfl
  simp only [MainCall.code, Code.wp_bind, Code.wp_modify]
  refine Code.wp_mono (fun S l r h => ?_) hrun
  rintro sh v hs -
  have hb := h.base sh v hs
  refine ⟨hb.running, fun hst => .inl (hb.up hst), by simp, by simp, fun launch id hr => ?_⟩
  simp only [Option.some.injEq, Returned.mk.injEq] at hr
  exact h.start ⟨launch, hr.1⟩ hr.2.1 sh v hs

/-! ### Over whole runs -/

variable {n : Nat} {c : ServiceConfig} {cond : ServiceCond}

private theorem launches (hC : ∀ sh m v status, cond.op₂ sh v ⟨m, some (.threadLaunch status)⟩ = true → status = 0)
    (h : ReachWhen cond n c) : Launches c.sh c.fst.view c.snd.view := by
  refine Machine.Reach.invariant (K := fun _ _ _ => True) (fun _ _ => trivial) ?_ ?_ ?_ h
  · exact ⟨by simp [Io.setup], by simp [Shared.setup], by simp, by simp, by simp⟩
  · rintro d io ⟨sh₀, w₀, -, -, hr₀, -⟩
    refine launches_ioRules.keeps d ?_ ?_
    · rintro sh w ⟨-, hj, hr, -⟩
      rcases IoRun.ready_phase hr with ⟨-, ht⟩ | ⟨hp, -⟩
      · exact ht
      · exact hj.running (.inr hp)
    · rintro out rfl
      have hr : (IoRun.thread out).ready sh₀ io = true := hr₀
      rcases IoRun.ready_phase hr with ⟨hp, -⟩ | ⟨-, hne⟩
      · simp [hp]
      · exact absurd rfl (hne out)
  · rintro call m -
    refine MainCall.keepsLaunches hC call ?_
    rintro sh v ⟨-, hj, -, -⟩
    exact ⟨hj.running, fun hst => by simpa using hj.up hst⟩

/-! ### A start that fails -/

private def inCall (call : MainCall) (m : Main) : Main := { m with call := some call, returned := none }

private def endStart (launch : Int) (m : Main) (ok : Bool) : Prog Op Op.Res Main Unit :=
  endCall (.start launch) (ok, 0) (inCall (.start launch) m)

private theorem endStart_returned (launch : Int) (m : Main) (ok : Bool) :
    (endStart launch m ok).view.loc.returned = some ⟨.start launch, ok, 0⟩ := rfl

private def launchStart (launch : Int) (m : Main) : Prog Op Op.Res Main Unit :=
  .act (inCall (.start launch) m) (.threadLaunch launch) fun status => endStart launch m (decide (status = 0))

/-- What is left of a start is all of it, its last two operations, the launch, or nothing. -/
private theorem start_rest {launch : Int} {m : Main} {q : Prog Op Op.Res Main Unit}
    (h : ((MainCall.start launch).code m).Rest q) : q = (MainCall.start launch).code m ∨
      q = .act (inCall (.start launch) m) (.stateStore .starting) (fun _ => launchStart launch m) ∨
      q = launchStart launch m ∨ ∃ ok, q = endStart launch m ok := by
  induction h with
  | refl => exact .inl rfl
  | act r h ih =>
    rcases ih with ih | ih | ih | ⟨ok, ih⟩
    · cases ih
      cases r with
      | starting | started => exact .inr (.inr (.inr ⟨true, rfl⟩))
      | stopping | error | invalid => exact .inr (.inr (.inr ⟨false, rfl⟩))
      | new | stopped => exact .inr (.inl rfl)
    · cases ih
      exact .inr (.inr (.inl rfl))
    · cases ih
      exact .inr (.inr (.inr ⟨_, rfl⟩))
    · cases ih

/-- As long as a call has operations to perform, the private state names it. -/
private theorem call_path (call : MainCall) (m : Main) :
    (call.code m).path (fun _ _ _ => True) (fun l _ => l.call = some call) fun _ _ => True := by
  have hrun : call.run.path (fun _ _ _ => True) (fun l _ => l.call = some call) (fun _ _ => True) (inCall call m) :=
    Prog.path_mono (fun _ _ h => h.2.call.1) (fun _ _ _ => trivial) (call.keepsTo.path (inCall call m))
  exact (Code.path_bind ..).2 ((Code.path_modify ..).2 ((Code.path_bind ..).2 hrun))

/-- In the runs in which each launch succeeds, start is all or nothing, and stop joins no thread that was not
launched. -/
theorem svlServiceStart_all_or_nothing (hc : ReachWhen launchSucceeds n c) : AllOrNothing launchSucceeds c := by
  have hj := launches (fun _ _ _ _ h => by simpa [launchSucceeds] using h) hc
  refine ⟨?_, hj.succeeds, hj.joins⟩
  intro launch id c' hcall ha hs hret
  cases hp : c.snd with
  | ret l x => simp [Machine.step, hp] at hs
  | act l o k =>
    obtain ⟨r, sh', he, rfl⟩ := Machine.step_op₂ hp hs
    have hrest : ∃ m, ((MainCall.start launch).code m).Rest (.act l o k) := by
      rcases hc.rest₂ with h | ⟨call, m, h⟩
      · exact absurd (hp.symm.trans h) (by simp)
      · rw [hp] at h hcall
        obtain rfl : call = .start launch := Option.some.inj ((h.path (call_path call m)).1.symm.trans hcall)
        exact ⟨m, h⟩
    obtain ⟨m, hrest⟩ := hrest
    rcases start_rest hrest with h | h | h | ⟨ok, h⟩
    · refine ⟨⟨m, h⟩, ?_⟩
      cases h
      exact (Prod.mk.inj (Option.some.inj he)).2.symm
    · cases h
      simp [launchStart, inCall] at hret
    · -- the launch succeeds, and so does start
      have hlaunch : launch = 0 := by
        cases h
        have ha' : launchSucceeds.op₂ c.sh c.fst.view c.snd.view = true := ha
        simpa [launchSucceeds, hp] using ha'
      cases h
      simp only [service, Op.exec, hlaunch, if_true] at he
      obtain ⟨rfl, -⟩ := Prod.mk.inj (Option.some.inj he)
      exact absurd ((endStart_returned ..).symm.trans hret) (by simp)
    · cases h

/-- A service is started; the start promises what it should, and stop joins its thread. -/
theorem svlServiceStart_all_or_nothing_joins : ∃ c, ReachWhen launchSucceeds 1 c ∧
    c.snd.view.next = some (.threadJoin 0) ∧ c.sh.thread = .running ∧ AllOrNothing launchSucceeds c := by
  obtain ⟨c, hc, hn, ht⟩ := exists_reachWhen launchSucceeds 1 (.flatten [startUp, [.run₂ (.stop 0), .op₂, .op₂]])
    (fun c => c.snd.view.next = some (.threadJoin 0) ∧ c.sh.thread = .running) (by decide +kernel)
  exact ⟨c, hc, hn, ht, svlServiceStart_all_or_nothing hc⟩

/-- A launch fails: start returns `TN_ERROR` and leaves `STARTING`, and stop is about to join a thread that was never
launched. -/
theorem svlServiceStart_not_all_or_nothing :
    (∃ c, Reach 1 c ∧ c.snd.view.loc.returned = some ⟨.start 1, false, 0⟩ ∧ c.sh.state = .starting) ∧
      ∃ c, Reach 1 c ∧ c.snd.view.next = some (.threadJoin 0) ∧ c.sh.thread = .none ∧ ¬ AllOrNothing .any c := by
  refine ⟨exists_reachWhen .any 1 [.run₂ (.start 1), .op₂, .op₂, .op₂]
    (fun c => c.snd.view.loc.returned = some ⟨.start 1, false, 0⟩ ∧ c.sh.state = .starting) (by decide +kernel), ?_⟩
  obtain ⟨c, hc, hn, ht⟩ := exists_reachWhen .any 1
    [.run₂ (.start 1), .op₂, .op₂, .op₂, .run₂ (.stop 0), .op₂, .op₂]
    (fun c => c.snd.view.next = some (.threadJoin 0) ∧ c.sh.thread = .none) (by decide +kernel)
  refine ⟨c, hc, hn, ht, fun h => ?_⟩
  rcases h.joins 0 hn with h | h <;> exact absurd (ht.symm.trans h) (by simp)

end ServerLynx
