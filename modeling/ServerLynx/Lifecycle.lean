import ServerLynx.IoRun
import ServerLynx.Kinds

/-!
# Start and stop

The state word and the thread of the service under `svl_service_start`, `svl_service_stop`, the stop signal and the
IO thread.  `Lifecycle` is the invariant; two parts of it depend on conditions on the run, which the code does not
enforce: that stop does not find the state `STOPPING`, and that no stop request comes between the check for
`STARTING` and the store of `STARTED` in the IO thread.
-/

namespace ServerLynx

open Threads

/-! ### The invariant -/

/-- A store or launch of a call that is sure that no IO thread is running. -/
def Op.needsNoThread : Op → Bool
  | .stateStore .starting | .stateStore .stopped | .threadLaunch _ => true
  | _ => false

/-- No IO thread is running: none was launched since the last one was joined. -/
def Shared.NoThread (sh : Shared) : Prop := sh.thread = .none ∨ sh.thread = .joined

/-- The call that the main thread has ended last is a stop that returned `TN_SUCCESS`. -/
def Main.Stopped (m : Main) : Prop := ∃ join id, m.returned = some ⟨.stop join, true, id⟩

/-- The invariant of start and stop, as far as the main thread does not matter.  `Q` is the premise that no stop
request comes during the last step of the start-up. -/
structure Lifecycle.Base (Q : Prop) (sh : Shared) (v : View Io Op) : Prop where
  running : v.next ≠ none ∨ v.loc.phase = .running → sh.thread = .running
  idle : sh.state = .new ∨ sh.state = .stopped → sh.NoThread
  overlap : sh.overlap = false
  starting : sh.state = .starting → sh.stopAsked = false
  started : Q → v.next = some (.stateStore .started) → sh.stopAsked = false
  kept : Q → sh.stopAsked = true → sh.state ≠ .started

/-- The invariant of start and stop.  `P` is the premise that stop does not find `STOPPING`. -/
structure Lifecycle (P Q : Prop) (sh : Shared) (v : View Io Op) (w : View Main Op) : Prop
    extends Lifecycle.Base Q sh v where
  alone : ∀ o, w.next = some o → o.needsNoThread = true → sh.NoThread
  launch : ∀ status, w.next = some (.threadLaunch status) → sh.state = .starting
  stopped : P → w.loc.Stopped → sh.state = .new ∨ sh.state = .stopped

/-- What holds while the IO thread runs, whatever it is about to do. -/
structure Working (P Q : Prop) (sh : Shared) (w : View Main Op) : Prop where
  thread : sh.thread = .running
  state : sh.state ≠ .new ∧ sh.state ≠ .stopped
  alone : ∀ o, w.next = some o → o.needsNoThread = false
  overlap : sh.overlap = false
  stopped : P → ¬ w.loc.Stopped
  starting : sh.state = .starting → sh.stopAsked = false
  kept : Q → sh.stopAsked = true → sh.state ≠ .started

variable {P Q : Prop} {sh sh' : Shared} {v : View Io Op} {w : View Main Op}

/-- A running thread is no thread that is known to have ended. -/
theorem not_noThread (h : sh.thread = .running) : ¬ sh.NoThread := by
  rintro (hn | hn) <;> exact absurd (h.symm.trans hn) (by simp)

theorem Lifecycle.working (hj : Lifecycle P Q sh v w) (hr : sh.thread = .running) : Working P Q sh w where
  thread := hr
  state := by
    have hno : ¬ (sh.state = .new ∨ sh.state = .stopped) := fun h => not_noThread hr (hj.idle h)
    exact not_or.1 hno
  alone o ho := by
    rw [Bool.eq_false_iff]
    exact fun hn => not_noThread hr (hj.alone o ho hn)
  overlap := hj.overlap
  stopped hP hs := not_noThread hr (hj.idle (hj.stopped hP hs))
  starting := hj.starting
  kept := hj.kept

theorem Working.lifecycle (hw : Working P Q sh w) (hv : Q → v.next = some (.stateStore .started) →
    sh.stopAsked = false) :
    Lifecycle P Q sh v w where
  running _ := hw.thread
  idle h := absurd h (not_or.2 hw.state)
  alone o ho hn := absurd hn (by rw [hw.alone o ho]; simp)
  launch status ho := absurd (hw.alone _ ho) (by simp [Op.needsNoThread])
  overlap := hw.overlap
  stopped hP hs := absurd hs (hw.stopped hP)
  starting := hw.starting
  started := hv
  kept := hw.kept

/-- The operations that change the state word or the thread. -/
def Op.changesState : Op → Bool
  | .stateStore _ | .threadLaunch _ | .threadJoin _ | .threadEnd => true
  | _ => false

/-- Every other operation leaves the state word, the thread and the stop request alone. -/
theorem Op.exec_state {o : Op} (ho : o.changesState = false) {r : o.Res} (h : o.exec sh = some (r, sh')) :
    sh'.state = sh.state ∧ sh'.thread = sh.thread ∧ sh'.stopAsked = sh.stopAsked ∧ sh'.overlap = sh.overlap := by
  cases o <;> simp only [Op.changesState, Bool.true_eq_false] at ho
  all_goals
    simp only [Op.exec] at h
    first
    | (split at h <;> simp only [Option.some.injEq, Prod.mk.injEq] at h <;> obtain ⟨-, rfl⟩ := h <;>
        exact ⟨rfl, rfl, rfl, rfl⟩)
    | (simp only [Option.some.injEq, Prod.mk.injEq] at h; obtain ⟨-, rfl⟩ := h; exact ⟨rfl, rfl, rfl, rfl⟩)

private theorem Working.of_eq (hw : Working P Q sh w) (h : sh'.state = sh.state ∧ sh'.thread = sh.thread ∧
    sh'.stopAsked = sh.stopAsked ∧ sh'.overlap = sh.overlap) : Working P Q sh' w := by
  obtain ⟨h₁, h₂, h₃, h₄⟩ := h
  refine ⟨h₂.trans hw.thread, ?_, hw.alone, h₄.trans hw.overlap, hw.stopped, ?_, ?_⟩
  · rw [h₁]
    exact hw.state
  · rw [h₁, h₃]
    exact hw.starting
  · rw [h₁, h₃]
    exact hw.kept

/-! ### The IO thread -/

section Io

variable {L : Type} {J : Shared → View Io Op → View L Op → Prop} {W : Shared → View L Op → Prop}
  {C : Shared → View Io Op → View L Op → Prop} {S : Shared → View L Op → Prop} {io l : Io}

/-- What an invariant `J` of the service, whatever its main thread, must keep for the IO thread to keep it.  `W` is what
holds while the IO thread runs. -/
structure IoRules (J : Shared → View Io Op → View L Op → Prop) (W : Shared → View L Op → Prop) : Prop where
  before : ∀ {sh w l o}, W sh w → o ≠ .stateStore .started → J sh ⟨l, some o⟩ w
  work : ∀ {sh w l o}, J sh ⟨l, some o⟩ w → W sh w
  rest : ∀ {sh w l}, W sh w → J sh ⟨l, none⟩ w
  quiet : ∀ {sh sh' w}, W sh w → sh'.state = sh.state ∧ sh'.thread = sh.thread ∧ sh'.stopAsked = sh.stopAsked ∧
    sh'.overlap = sh.overlap → W sh' w
  store : ∀ {sh sh' w l st}, st ≠ .new ∧ st ≠ .stopped ∧ st ≠ .starting → J sh ⟨l, some (.stateStore st)⟩ w →
    Op.exec (.stateStore st) sh = some ((), sh') → W sh' w
  started : ∀ {sh w l}, J sh ⟨l, some .stateLoad⟩ w → sh.state = .starting → J sh ⟨l, some (.stateStore .started)⟩ w
  ended : ∀ {sh w l}, W sh w → l.phase ≠ .running → J { sh with thread := .ended } ⟨l, none⟩ w

private abbrev AfterIo (J : Shared → View Io Op → View L Op → Prop) (C : Shared → View Io Op → View L Op → Prop)
    (l : Io) (o : Op) (r : o.Res) : Shared → View L Op → Prop :=
  After Op.exec (fun _ _ _ => True) J C l o r

private abbrev IoKeeps (J : Shared → View Io Op → View L Op → Prop) (C : Shared → View Io Op → View L Op → Prop)
    (S : Shared → View L Op → Prop) (m : IoM Unit) (io : Io) : Prop :=
  m.wp Op.exec (fun _ _ _ => True) J C S (Post (fun _ _ _ => True) J) io

namespace IoRules

/-- After an operation that changes neither the state word nor the thread, the IO thread still runs. -/
private theorem after (hJ : IoRules J W) {o : Op} (ho : o.changesState = false) {r : o.Res} {sh : Shared}
    {w : View L Op} (h : AfterIo J C l o r sh w) : W sh w := by
  obtain ⟨sh₀, -, hj, -, he⟩ := h
  exact hJ.quiet (hJ.work hj) (Op.exec_state ho he)

/-- After the IO thread stored a state that is neither `NEW`, `STARTING` nor `STOPPED`, it still runs. -/
private theorem after_store (hJ : IoRules J W) {st : ServiceState} (hst : st ≠ .new ∧ st ≠ .stopped ∧ st ≠ .starting)
    {sh : Shared} {w : View L Op} (h : AfterIo J C l (.stateStore st) () sh w) : W sh w := by
  obtain ⟨sh₀, -, hj, -, he⟩ := h
  exact hJ.store hst hj he

private theorem post (hJ : IoRules J W) (hS : ∀ sh w, S sh w → W sh w) : Post (fun _ _ _ => True) J S io () :=
  fun sh w hs _ => hJ.rest (hS sh w hs)

/-- Before any operation but the store of `STARTED`, the invariant follows from the IO thread's being at work. -/
private theorem before_op (hJ : IoRules J W) (hS : ∀ sh w, S sh w → W sh w) {o : Op} (ho : o ≠ .stateStore .started) :
    ∀ sh w, S sh w → True → J sh ⟨io, some o⟩ w :=
  fun sh w hs _ => hJ.before (hS sh w hs) ho

private theorem keeps_of_kind (hJ : IoRules J W) {m : IoM Unit} {k : OpKind} (hk : k ≠ .service) (hm : KeepsTo k m)
    (hS : ∀ sh w, S sh w → W sh w) : IoKeeps J C S m io := by
  have hstate : ∀ {o : Op}, o.kind = k → o.changesState = false := by
    rintro o rfl
    cases o <;> simp_all [Op.kind, Op.changesState]
  refine Prog.wp_mono (fun S l a h => hJ.post h.1) (Prog.wp_of_path ?_ ?_ (hm.path io) hS)
  · rintro sh l o w ⟨⟨ho, -⟩, -⟩ - hw
    refine hJ.before hw ?_
    rintro rfl
    exact absurd ho.symm hk
  · rintro sh sh' l o r w ⟨⟨ho, -⟩, -⟩ - hj he
    exact hJ.quiet (hJ.work hj) (Op.exec_state (hstate ho) he)

private theorem cleanup (hJ : IoRules J W) (hS : ∀ sh w, S sh w → W sh w) (hp : io.phase ≠ .running)
    (ret : Int) : IoKeeps J C S (ioThreadCleanup ret) io := by
  -- the end of the thread
  have hend : ∀ S : Shared → View L Op → Prop, (∀ sh w, S sh w → W sh w) →
      IoKeeps J C S (do modify releaseAll; perform .threadEnd) io := by
    intro S hS
    simp only [IoKeeps, Code.wp_bind, Code.wp_modify, Code.wp_op]
    refine ⟨hJ.before_op hS (by simp), fun _ _ => ?_⟩
    rintro sh w ⟨sh₀, -, hj, -, he⟩ -
    simp only [Op.exec, Option.some.injEq, Prod.mk.injEq, true_and] at he
    subst he
    exact hJ.ended (hJ.work hj) fun h => hp ((releaseAll_loopFrame io).phase.symm.trans h)
  simp only [IoKeeps, ioThreadCleanup, Code.wp_ite]
  refine ⟨fun _ => ?_, fun _ => hend S hS⟩
  rw [Code.wp_bind, Code.wp_op]
  exact ⟨hJ.before_op hS (by simp), fun _ _ => hend _ fun sh w h => hJ.after_store (by simp) h⟩

/-- A call of `uv_loop_close` performs no operation and leaves `uv_run` where it is. -/
private theorem closeLoop_wp {exec : (o : Op) → Shared → Option (o.Res × Shared)}
    {K J C : Shared → View Io Op → View L Op → Prop} {S : Shared → View L Op → Prop}
    {R : (Shared → View L Op → Prop) → Io → Int → Prop} (h : ∀ l ret, l.phase = io.phase → R S l ret) :
    closeLoop.wp exec K J C S R io := by
  simp only [closeLoop, Code.wp_bind, Code.wp_get]
  split
  · exact h _ _ rfl
  · exact h _ _ rfl

private theorem close (hJ : IoRules J W) (hS : ∀ sh w, S sh w → W sh w) (hp : io.phase ≠ .running) :
    IoKeeps J C S ioThreadClose io := by
  simp only [IoKeeps, ioThreadClose, Code.wp_bind, Code.wp_ite, Code.wp_modify]
  refine closeLoop_wp fun l ret hl => ⟨fun _ => ?_, fun _ => hJ.cleanup hS (hl ▸ hp) _⟩
  refine closeLoop_wp fun l' ret' hl' => ?_
  have hp' : l'.phase ≠ .running := by
    rw [hl']
    exact hl ▸ hp
  exact ⟨fun _ => hJ.cleanup hS hp' _, fun _ => hJ.cleanup hS hp' _⟩

private theorem startEnd (hJ : IoRules J W) (hS : ∀ sh w, S sh w → W sh w) (hp : io.phase ≠ .running) :
    IoKeeps J C S (do
      let state ← perform .stateLoad
      if state = .starting then
        perform (.stateStore .started)
        modify fun io => { io with phase := .running }
      else
        ioThreadClose) io := by
  simp only [IoKeeps, Code.wp_bind, Code.wp_op, Code.wp_ite, Code.wp_modify]
  refine ⟨hJ.before_op hS (by simp), fun state _ => ⟨?_, fun _ => ?_⟩⟩
  · rintro rfl
    refine ⟨?_, fun _ _ => ?_⟩
    · rintro sh w ⟨sh₀, -, hj, -, he⟩ -
      simp only [Op.exec, Option.some.injEq, Prod.mk.injEq] at he
      obtain ⟨hst, rfl⟩ := he
      exact hJ.started hj hst
    · exact hJ.post fun sh w h => hJ.after_store (by simp) h
  · exact hJ.close (fun sh w h => hJ.after rfl h) hp

private theorem svlServiceIoThread (hJ : IoRules J W) (hS : ∀ sh w, S sh w → W sh w) (hp : io.phase ≠ .running)
    (out : StartOut) : IoKeeps J C S (svlServiceIoThread out) io := by
  simp only [IoKeeps, ServerLynx.svlServiceIoThread]
  rw [Code.wp_bind, Code.wp_modify, Code.wp_bind, Code.wp_get, Code.wp_bind, Code.wp_get]
  generalize hio : ({ io with
    loop := io.loop + 1, loopIsInit := false, uvLoop := none, tcpHandle := none, uvAcceptTimer := none
    uvPrep := none, uvCheck := none } : Io) = io₀
  have hp₀ : io₀.phase ≠ .running := by
    rw [← hio]
    exact hp
  have hstart := startLines_loopFrame out io₀.bufferCount uvEnomem io₀
  generalize Guarded.runAll (startLines out io₀.bufferCount) uvEnomem io₀ = x at hstart ⊢
  obtain ⟨ok, ret, io₁⟩ := x
  have hp₁ : io₁.phase ≠ .running := fun h => hp₀ (hstart.phase.symm.trans h)
  rw [Code.wp_bind, Code.wp_set, Code.wp_ite]
  refine ⟨fun _ => hJ.cleanup hS hp₁ ret, fun _ => ?_⟩
  rw [Code.wp_bind, Code.wp_op]
  refine ⟨hJ.before_op hS (by simp), fun hostListen _ => ?_⟩
  have hS₁ : ∀ sh w, AfterIo J C io₁ .hostListenLoad hostListen sh w → W sh w := fun sh w h => hJ.after rfl h
  dsimp only
  rw [Code.wp_ite]
  constructor
  · intro _
    rw [Code.wp_bind, Code.wp_get]
    have hlisten := listenLines_loopFrame out ret io₁
    generalize Guarded.runAll (listenLines out) ret io₁ = x at hlisten ⊢
    obtain ⟨ok, ret, io₂⟩ := x
    have hp₂ : io₂.phase ≠ .running := fun h => hp₁ (hlisten.phase.symm.trans h)
    rw [Code.wp_bind, Code.wp_set, Code.wp_ite]
    exact ⟨fun _ => hJ.cleanup hS₁ hp₂ ret, fun _ => hJ.startEnd hS₁ hp₂⟩
  · intro _
    rw [Code.wp_bind, Code.wp_modify]
    exact hJ.startEnd hS₁ hp₁

/-- What the IO thread runs keeps the invariant, once the thread is launched. -/
theorem keeps (hJ : IoRules J W) (d : IoRun) (hS : ∀ sh w, S sh w → W sh w)
    (hp : ∀ out, d = .thread out → io.phase ≠ .running) :
    d.code.wp Op.exec (fun _ _ _ => True) J C S (Post (fun _ _ _ => True) J) io := by
  cases d with
  | thread out => exact hJ.svlServiceIoThread hS (hp out rfl) out
  | timer =>
    simp only [IoRun.code, onTimerCb, safeCloseUvHandle, Code.wp_bind, Code.wp_op, Code.wp_ite, Code.wp_get,
      Code.wp_modify, Code.wp_pure]
    exact ⟨hJ.before_op hS (by simp), fun _ _ => ⟨fun _ => hJ.post fun sh w h => hJ.after rfl h,
      fun _ => hJ.post fun sh w h => hJ.after rfl h⟩⟩
  | signal isSigint =>
    simp only [IoRun.code, onSigintCb, svlServiceStopSignal, Code.wp_bind, Code.wp_modify, Code.wp_ite,
      Code.wp_pure, Code.wp_op]
    refine ⟨fun _ => hJ.post hS, fun _ => ⟨hJ.before_op hS (by simp), fun state _ => ⟨fun _ => ?_, fun _ => ?_⟩⟩⟩
    · exact hJ.post fun sh w h => hJ.after rfl h
    · refine ⟨hJ.before_op (fun sh w h => hJ.after rfl h) (by simp), fun _ _ => ?_⟩
      exact hJ.post fun sh w h => hJ.after_store (by simp) h
  | uvRunReturn =>
    simp only [IoRun.code, Code.wp_bind, Code.wp_modify]
    exact hJ.close hS (by simp)
  | inbound status out => exact hJ.keeps_of_kind (by simp [IoRun.kind]) (IoRun.keepsTo (.inbound status out)) hS
  | outbound req status out =>
    exact hJ.keeps_of_kind (by simp [IoRun.kind]) (IoRun.keepsTo (.outbound req status out)) hS
  | read handle out => exact hJ.keeps_of_kind (by simp [IoRun.kind]) (IoRun.keepsTo (.read handle out)) hS
  | close handle => exact hJ.keeps_of_kind (by simp [IoRun.kind]) (IoRun.keepsTo (.close handle)) hS
  | send req => exact hJ.keeps_of_kind (by simp [IoRun.kind]) (IoRun.keepsTo (.send req)) hS
  | check out => exact hJ.keeps_of_kind (by simp [IoRun.kind]) (IoRun.keepsTo (.check out)) hS

end IoRules

end Io

private theorem lifecycle_ioRules : IoRules (Lifecycle P Q) (Working P Q) where
  before hw ho := hw.lifecycle fun _ h => absurd (Option.some.inj h) ho
  work hj := hj.working (hj.running (.inl (by simp)))
  rest hw := hw.lifecycle (by simp)
  quiet hw h := hw.of_eq h
  store {sh sh' w l st} hst hj he := by
    have hw := hj.working (hj.running (.inl (by simp)))
    simp only [Op.exec, Option.some.injEq, Prod.mk.injEq, true_and] at he
    subst he
    refine ⟨hw.thread, ⟨hst.1, hst.2.1⟩, hw.alone, hw.overlap, hw.stopped, fun h => absurd h hst.2.2, ?_⟩
    rintro hQ ha rfl
    exact absurd (hj.started hQ rfl) (by simpa using ha)
  -- the state word was `STARTING` when it was loaded, so there was no stop request
  started hj hst := (hj.working (hj.running (.inl (by simp)))).lifecycle fun _ _ => hj.starting hst
  ended {sh w l} hw hp := by
    refine ⟨⟨?_, fun h => absurd h (not_or.2 hw.state), hw.overlap, hw.starting, by simp, hw.kept⟩, ?_, ?_,
      fun hP h => absurd h (hw.stopped hP)⟩
    · rintro (h | h)
      · exact absurd rfl h
      · exact absurd h hp
    · intro o ho hn
      exact absurd hn (by rw [hw.alone o ho]; simp)
    · intro status ho
      exact absurd (hw.alone _ ho) (by simp [Op.needsNoThread])

/-! ### The main thread -/

section MainThread

variable {C : Shared → View Main Op → View Io Op → Prop} {S : Shared → View Io Op → Prop} {m : Main}

/-- What the two premises ask of the condition on the operations of the main thread. -/
structure Lifecycle.Premises (P Q : Prop) (C : Shared → View Main Op → View Io Op → Prop) : Prop where
  stop : P → ∀ sh m v join, m.call = some (.stop join) → C sh ⟨m, some .stateLoad⟩ v → sh.state ≠ .stopping
  request : Q → ∀ sh m v, C sh ⟨m, some (.stateStore .stopping)⟩ v → v.next ≠ some (.stateStore .started)

private abbrev AfterMain (P Q : Prop) (C : Shared → View Main Op → View Io Op → Prop) (m : Main) (o : Op) (r : o.Res) :
    Shared → View Io Op → Prop :=
  After Op.exec (fun _ _ _ => True) (fun sh w v => Lifecycle P Q sh v w) C m o r

/-- A stop that succeeds leaves the state `NEW` or `STOPPED`. -/
private structure EndsWell (P Q : Prop) (call : MainCall) (S : Shared → View Io Op → Prop) (success : Bool) :
    Prop where
  base : ∀ sh v, S sh v → Lifecycle.Base Q sh v
  stop : P → (∃ join, call = .stop join) → success = true → ∀ sh v, S sh v → sh.state = .new ∨ sh.state = .stopped

private abbrev MainKeeps (P Q : Prop) (C : Shared → View Main Op → View Io Op → Prop) (S : Shared → View Io Op → Prop)
    (call : MainCall) (code : MainM Bool) (m : Main) : Prop :=
  code.wp Op.exec (fun _ _ _ => True) (fun sh w v => Lifecycle P Q sh v w) C S
    (fun S _ success => EndsWell P Q call S success) m

private theorem Lifecycle.Base.of_eq (hb : Lifecycle.Base Q sh v) (h : sh'.state = sh.state ∧ sh'.thread = sh.thread ∧
    sh'.stopAsked = sh.stopAsked ∧ sh'.overlap = sh.overlap) : Lifecycle.Base Q sh' v := by
  obtain ⟨h₁, h₂, h₃, h₄⟩ := h
  obtain ⟨hb₁, hb₂, hb₃, hb₄, hb₅, hb₆⟩ := hb
  refine ⟨by rwa [h₂], ?_, h₄.trans hb₃, by rwa [h₁, h₃], by rwa [h₃], by rwa [h₁, h₃]⟩
  intro h
  rw [h₁] at h
  simpa [Shared.NoThread, h₂] using hb₂ h

private theorem Lifecycle.Base.before (hb : Lifecycle.Base Q sh v) (hret : m.returned = none) {o : Op}
    (ho : o.needsNoThread = false) : Lifecycle P Q sh v ⟨m, some o⟩ where
  toBase := hb
  alone o' ho' hn := absurd hn (by rw [← Option.some.inj ho', ho]; simp)
  launch status ho' := absurd ho (by rw [Option.some.inj ho']; simp [Op.needsNoThread])
  stopped _ h := by
    obtain ⟨_, _, h⟩ := h
    exact absurd (hret.symm.trans h) (by simp)

private theorem quiet_lifecycle {call : MainCall} (hk : call.kind ≠ .service)
    (hS : ∀ sh v, S sh v → Lifecycle.Base Q sh v) (hret : m.returned = none) :
    call.run.wp Op.exec (fun _ _ _ => True) (fun sh w v => Lifecycle P Q sh v w) C S
      (fun S _ r => EndsWell P Q call S r.1) m := by
  have hquiet : ∀ {o : Op}, o.kind = call.kind ∨ o = .stateLoad → o.changesState = false ∧ o.needsNoThread = false := by
    intro o ho
    rcases ho with ho | rfl
    · cases o <;> simp_all [Op.kind, Op.changesState, Op.needsNoThread]
    · exact ⟨rfl, rfl⟩
  refine Prog.wp_mono (fun S l r h => ⟨h.1, ?_⟩) (Prog.wp_of_path ?_ ?_ (call.keepsTo.path m) hS)
  · rintro - ⟨join, rfl⟩
    exact absurd rfl hk
  · rintro sh l o v ⟨⟨ho, -⟩, hf⟩ - hb
    exact hb.before (hf.call.2.1.trans hret) (hquiet ho).2
  · rintro sh sh' l o r v ⟨⟨ho, -⟩, -⟩ - hj he
    exact hj.toBase.of_eq (Op.exec_state (hquiet ho).1 he)

private theorem after_load {state : ServiceState} (h : AfterMain P Q C m .stateLoad state sh v) :
    sh.state = state ∧ C sh ⟨m, some .stateLoad⟩ v ∧ Lifecycle P Q sh v ⟨m, some .stateLoad⟩ := by
  obtain ⟨sh₀, -, hj, hc, he⟩ := h
  simp only [Op.exec, Option.some.injEq, Prod.mk.injEq] at he
  obtain ⟨hst, rfl⟩ := he
  exact ⟨hst, hc, hj⟩

private theorem base_after_store {st : ServiceState} (hst : st ≠ .new ∧ st ≠ .stopped ∧ st ≠ .started)
    (hask : Q → st = .stopping → v.next ≠ some (.stateStore .started))
    (h : AfterMain P Q C m (.stateStore st) () sh v) : Lifecycle.Base Q sh v ∧ sh.state = st := by
  obtain ⟨sh₀, -, hj, -, he⟩ := h
  simp only [Op.exec, Option.some.injEq, Prod.mk.injEq, true_and] at he
  subst he
  refine ⟨⟨hj.running, fun h => absurd h (not_or.2 ⟨hst.1, hst.2.1⟩), hj.overlap, ?_, ?_, fun _ _ => hst.2.2⟩, rfl⟩
  · rintro rfl
    rfl
  · intro hQ hv
    have hs := hj.started hQ hv
    cases st <;> simp_all

private theorem not_stopped (hret : m.returned = none) : ¬ m.Stopped := by
  rintro ⟨_, _, h⟩
  exact absurd (hret.symm.trans h) (by simp)

private theorem start_lifecycle (launch : Int) (hS : ∀ sh v, S sh v → Lifecycle.Base Q sh v)
    (hret : m.returned = none) :
    MainKeeps P Q C S (.start launch) (svlServiceStart launch) m := by
  simp only [MainKeeps, svlServiceStart, Code.wp_bind, Code.wp_op]
  refine ⟨fun sh v hs _ => (hS sh v hs).before hret rfl, fun state _ => ?_⟩
  have hdone : ∀ {S : Shared → View Io Op → Prop} (r : Bool), (∀ sh v, S sh v → Lifecycle.Base Q sh v) →
      EndsWell P Q (.start launch) S r := fun r h => ⟨h, by simp⟩
  have hload : ∀ sh v, AfterMain P Q C m .stateLoad state sh v → Lifecycle.Base Q sh v :=
    fun sh v h => (after_load h).2.2.toBase
  have hno := not_stopped hret
  have hlaunch : state = .new ∨ state = .stopped → MainKeeps P Q C (AfterMain P Q C m .stateLoad state) (.start launch)
      (do perform (.stateStore .starting)
          let status ← perform (.threadLaunch launch)
          return decide (status = 0)) m := by
    intro hst
    simp only [MainKeeps, Code.wp_bind, Code.wp_op, Code.wp_pure]
    refine ⟨?_, fun _ _ => ⟨?_, fun status _ => hdone _ ?_⟩⟩
    · rintro sh v h -
      obtain ⟨rfl, -, hj⟩ := after_load h
      exact ⟨hj.toBase, fun _ _ _ => hj.idle hst, by simp, fun _ h => absurd h hno⟩
    · rintro sh v h -
      obtain ⟨hb, hs⟩ := base_after_store (by simp) (by simp) h
      obtain ⟨sh₀, -, hj, -, he⟩ := h
      simp only [Op.exec, Option.some.injEq, Prod.mk.injEq, true_and] at he
      subst he
      exact ⟨hb, fun _ _ _ => hj.alone _ rfl rfl, fun _ _ => hs, fun _ h => absurd h hno⟩
    · rintro sh v ⟨sh₀, -, hj, -, he⟩
      have hs := hj.launch _ rfl
      have halone := hj.alone _ rfl rfl
      simp only [Op.exec] at he
      split at he
      · simp only [Option.some.injEq, Prod.mk.injEq] at he
        obtain ⟨-, rfl⟩ := he
        refine ⟨fun _ => rfl, fun h => absurd h (by simp [hs]), ?_, hj.starting, hj.started, hj.kept⟩
        rcases halone with h | h <;> simp [hj.overlap, h]
      · simp only [Option.some.injEq, Prod.mk.injEq] at he
        obtain ⟨-, rfl⟩ := he
        exact hj.toBase
  cases state with
  | starting | started | stopping | error | invalid => exact hdone _ hload
  | new => exact hlaunch (.inl rfl)
  | stopped => exact hlaunch (.inr rfl)

/-- Where `tn_thread_join` succeeds, no IO thread is running. -/
private theorem after_join {join status : Int} (h : AfterMain P Q C m (.threadJoin join) status sh v) :
    Lifecycle.Base Q sh v ∧ (status = 0 → sh.NoThread) := by
  obtain ⟨sh₀, -, hj, -, he⟩ := h
  simp only [Op.exec] at he
  split at he
  · split at he
    · simp at he
    · -- the thread has ended, and is joined
      rename_i hended
      simp only [Option.some.injEq, Prod.mk.injEq] at he
      obtain ⟨-, rfl⟩ := he
      refine ⟨⟨fun hr => ?_, fun _ => .inr rfl, hj.overlap, hj.starting, hj.started, hj.kept⟩, fun _ => .inr rfl⟩
      exact absurd (hended.symm.trans (hj.running hr)) (by simp)
    · rename_i hnone
      simp only [Option.some.injEq, Prod.mk.injEq] at he
      obtain ⟨-, rfl⟩ := he
      exact ⟨hj.toBase, fun _ => .inl hnone⟩
    · rename_i hjoined
      simp only [Option.some.injEq, Prod.mk.injEq] at he
      obtain ⟨-, rfl⟩ := he
      exact ⟨hj.toBase, fun _ => .inr hjoined⟩
  · rename_i hne
    simp only [Option.some.injEq, Prod.mk.injEq] at he
    obtain ⟨rfl, rfl⟩ := he
    exact ⟨hj.toBase, fun h => absurd h hne⟩

private theorem stop_lifecycle (hC : Lifecycle.Premises P Q C) (join : Int)
    (hS : ∀ sh v, S sh v → Lifecycle.Base Q sh v) (hcall : m.call = some (.stop join)) (hret : m.returned = none) :
    MainKeeps P Q C S (.stop join) (svlServiceStop join) m := by
  simp only [MainKeeps, svlServiceStop, Code.wp_bind, Code.wp_op]
  refine ⟨fun sh v hs _ => (hS sh v hs).before hret rfl, fun state _ => ?_⟩
  have hload : ∀ sh v, AfterMain P Q C m .stateLoad state sh v → Lifecycle.Base Q sh v :=
    fun sh v h => (after_load h).2.2.toBase
  have hno := not_stopped hret
  have hjoin : MainKeeps P Q C (AfterMain P Q C m .stateLoad state) (.stop join) (do
      perform (.stateStore .stopping)
      let status ← perform (.threadJoin join)
      if status ≠ 0 then
        perform (.stateStore .error)
        return false
      perform (.stateStore .stopped)
      return true) m := by
    simp only [MainKeeps, Code.wp_bind, Code.wp_op, Code.wp_ite, Code.wp_pure]
    refine ⟨fun sh v h _ => (hload sh v h).before hret rfl,
      fun _ _ => ⟨?_, fun status _ => ⟨fun hst => ?_, fun hst => ?_⟩⟩⟩
    · rintro sh v h -
      obtain ⟨sh₀, -, hj, hc, he⟩ := id h
      exact (base_after_store (by simp) (fun hQ _ => hC.request hQ _ _ _ hc) h).1.before hret rfl
    · refine ⟨fun sh v h _ => (after_join h).1.before hret rfl, fun _ _ => ?_⟩
      exact ⟨fun sh v h => (base_after_store (by simp) (by simp) h).1, by simp⟩
    · obtain rfl : status = 0 := not_not.1 hst
      refine ⟨?_, fun _ _ => ?_⟩
      · rintro sh v h -
        obtain ⟨hb, hnone⟩ := after_join h
        exact ⟨hb, fun _ _ _ => hnone rfl, by simp, fun _ h => absurd h hno⟩
      · have hend : ∀ sh v, AfterMain P Q C m (.stateStore .stopped) () sh v →
            Lifecycle.Base Q sh v ∧ sh.state = .stopped := by
          rintro sh v ⟨sh₀, -, hj, -, he⟩
          have hnone := hj.alone _ rfl rfl
          simp only [Op.exec, Option.some.injEq, Prod.mk.injEq, true_and] at he
          subst he
          exact ⟨⟨hj.running, fun _ => hnone, hj.overlap, by simp, hj.started, by simp⟩, rfl⟩
        exact ⟨fun sh v h => (hend sh v h).1, fun _ _ _ sh v h => .inr (hend sh v h).2⟩
  cases state with
  | starting | started => exact hjoin
  | error | invalid => exact ⟨hload, by simp⟩
  | new => exact ⟨hload, fun _ _ _ sh v h => .inl (after_load h).1⟩
  | stopped => exact ⟨hload, fun _ _ _ sh v h => .inr (after_load h).1⟩
  | stopping =>
    refine ⟨hload, fun hP _ _ sh v h => ?_⟩
    obtain ⟨hst, hc, -⟩ := after_load h
    exact absurd hst (hC.stop hP _ _ _ _ hcall hc)

private theorem stopSignal_lifecycle (hC : Lifecycle.Premises P Q C) (hS : ∀ sh v, S sh v → Lifecycle.Base Q sh v)
    (hret : m.returned = none) : MainKeeps P Q C S .stopSignal svlServiceStopSignal m := by
  simp only [MainKeeps, svlServiceStopSignal, Code.wp_bind, Code.wp_op, Code.wp_ite, Code.wp_pure]
  refine ⟨fun sh v hs _ => (hS sh v hs).before hret rfl, fun state _ => ⟨fun _ => ?_, fun _ => ⟨?_, fun _ _ => ?_⟩⟩⟩
  · exact ⟨fun sh v h => (after_load h).2.2.toBase, by simp⟩
  · exact fun sh v h _ => (after_load h).2.2.toBase.before hret rfl
  · refine ⟨fun sh v h => ?_, by simp⟩
    obtain ⟨sh₀, -, hj, hc, he⟩ := id h
    exact (base_after_store (by simp) (fun hQ _ => hC.request hQ _ _ _ hc) h).1

private theorem listen_lifecycle (endpoint : Endpoint) (hS : ∀ sh v, S sh v → Lifecycle.Base Q sh v)
    (hret : m.returned = none) : MainKeeps P Q C S (.listen endpoint) (svlServiceListen endpoint) m := by
  simp only [MainKeeps, svlServiceListen, Code.wp_bind, Code.wp_op, Code.wp_ite, Code.wp_pure]
  refine ⟨fun sh v hs _ => (hS sh v hs).before hret rfl, fun state _ => ⟨fun _ => ?_, fun _ => ⟨?_, fun _ _ => ?_⟩⟩⟩
  · exact ⟨fun sh v h => (after_load h).2.2.toBase, by simp⟩
  · exact fun sh v h _ => (after_load h).2.2.toBase.before hret rfl
  · refine ⟨fun sh v h => ?_, by simp⟩
    obtain ⟨sh₀, -, hj, -, he⟩ := h
    exact hj.toBase.of_eq (Op.exec_state rfl he)

private theorem MainCall.lifecycle (hC : Lifecycle.Premises P Q C) (call : MainCall)
    (hS : ∀ sh v, S sh v → Lifecycle.Base Q sh v) :
    call.code.wp Op.exec (fun _ _ _ => True) (fun sh w v => Lifecycle P Q sh v w) C S
      (Post (fun _ _ _ => True) fun sh w v => Lifecycle P Q sh v w) m := by
  have hrun : call.run.wp Op.exec (fun _ _ _ => True) (fun sh w v => Lifecycle P Q sh v w) C S
      (fun S _ r => EndsWell P Q call S r.1)
      { m with call := some call, returned := none } := by
    cases call with
    | listen endpoint => exact (Code.wp_bind ..).2 (listen_lifecycle endpoint hS rfl)
    | start launch => exact (Code.wp_bind ..).2 (start_lifecycle launch hS rfl)
    | stop join => exact (Code.wp_bind ..).2 (stop_lifecycle hC join hS rfl rfl)
    | stopSignal => exact (Code.wp_bind ..).2 (stopSignal_lifecycle hC hS rfl)
    | eventsAcquire => exact quiet_lifecycle (by simp [MainCall.kind]) hS rfl
    | eventsRelease => exact quiet_lifecycle (by simp [MainCall.kind]) hS rfl
    | cmdOpen endpoint id => exact quiet_lifecycle (by simp [MainCall.kind]) hS rfl
    | cmdClose clientId id => exact quiet_lifecycle (by simp [MainCall.kind]) hS rfl
    | cmdSend clientId msg msglen id => exact quiet_lifecycle (by simp [MainCall.kind]) hS rfl
  simp only [MainCall.code, Code.wp_bind, Code.wp_modify]
  refine Code.wp_mono (fun S l r h => ?_) hrun
  rintro sh v hs -
  refine ⟨h.base sh v hs, by simp, by simp, ?_⟩
  rintro hP ⟨join, id, he⟩
  simp only [Option.some.injEq, Returned.mk.injEq] at he
  exact h.stop hP ⟨join, he.1⟩ he.2.1 sh v hs

end MainThread

/-! ### Over whole runs -/

variable {n : Nat} {c : ServiceConfig} {cond : ServiceCond}

/-- The IO thread is given code when it was launched, or inside `uv_run`. -/
theorem IoRun.ready_phase {d : IoRun} {io : Io} (h : d.ready sh io = true) :
    (io.phase = .off ∧ sh.thread = .running) ∨ (io.phase = .running ∧ ∀ out, d ≠ .thread out) := by
  cases d <;> simp_all [IoRun.ready]

/-- The invariant of start and stop in every state that a run reaches. -/
theorem lifecycle (hC : Lifecycle.Premises P Q fun sh w v => cond.op₂ sh v w = true) (h : ReachWhen cond n c) :
    Lifecycle P Q c.sh c.fst.view c.snd.view := by
  refine Machine.Reach.invariant (K := fun _ _ _ => True) (fun _ _ => trivial) ?_ ?_ ?_ h
  · exact ⟨⟨by simp [Io.setup], fun _ => .inl rfl, rfl, by simp [Shared.setup], by simp, by simp [Shared.setup]⟩,
      by simp, by simp, fun _ _ => .inl rfl⟩
  · rintro d io ⟨sh₀, w₀, -, -, hr₀, -⟩
    refine lifecycle_ioRules.keeps d ?_ ?_
    · rintro sh w ⟨-, hj, hr, -⟩
      rcases IoRun.ready_phase hr with ⟨-, ht⟩ | ⟨hp, -⟩
      · exact hj.working ht
      · exact hj.working (hj.running (.inr hp))
    · rintro out rfl
      have hr : (IoRun.thread out).ready sh₀ io = true := hr₀
      rcases IoRun.ready_phase hr with ⟨hp, -⟩ | ⟨-, hne⟩
      · simp [hp]
      · exact absurd rfl (hne out)
  · rintro call m -
    refine MainCall.lifecycle hC call ?_
    rintro sh v ⟨-, hj, -, -⟩
    exact hj.toBase

/-! ### Stop -/

/-- The runs in which `svl_service_stop` does not find the state `STOPPING`. -/
def stopNotStopping : ServiceCond where
  op₂ sh _ w := match w.loc.call, w.next with
    | some (.stop _), some .stateLoad => decide (sh.state ≠ .stopping)
    | _, _ => true

/-- Where the last call is a stop that returned `TN_SUCCESS`, no IO thread is running, none can be given code, and
the state is `NEW` or `STOPPED`. -/
structure ReallyStopped (sh : Shared) (v : View Io Op) : Prop where
  thread : sh.thread = .none ∨ sh.thread = .joined
  idle : v.next = none ∧ v.loc.phase ≠ .running
  overlap : sh.overlap = false
  state : sh.state = .new ∨ sh.state = .stopped

theorem stop_really_stopped (hc : ReachWhen stopNotStopping n c) {join : Int} {id : Nat}
    (hr : c.snd.view.loc.returned = some ⟨.stop join, true, id⟩) : ReallyStopped c.sh c.fst.view := by
  have hj := lifecycle (P := True) (Q := False)
    ⟨fun _ sh m v join hcall h => by simpa [stopNotStopping, hcall] using h, False.elim⟩ hc
  have hst := hj.stopped trivial ⟨join, id, hr⟩
  have hno := hj.idle hst
  refine ⟨hno, ?_, hj.overlap, hst⟩
  have hnot : ¬ (c.fst.view.next ≠ none ∨ c.fst.view.loc.phase = .running) :=
    fun h => not_noThread (hj.running h) hno
  exact ⟨not_not.1 fun h => hnot (.inl h), fun h => hnot (.inr h)⟩

/-- Stop waits for the IO thread, whose timer sees the request and closes the loop. -/
private def stopRun : List (Act IoRun MainCall) :=
  .flatten [startUp, [.run₂ (.stop 0), .op₂, .op₂, .run₁ .timer, .op₁],
    [.run₁ (.close 0), .run₁ (.close 1), .run₁ (.close 2), .run₁ (.close 3), .run₁ (.close 4)],
    [.run₁ .uvRunReturn, .op₁, .op₂, .op₂]]

theorem stop_really_stopped_joined : ∃ c, ReachWhen stopNotStopping 1 c ∧
    (c.snd.view.loc.returned = some ⟨.stop 0, true, 0⟩ ∧ c.sh.thread = .joined) ∧ ReallyStopped c.sh c.fst.view := by
  obtain ⟨c, hc, hP⟩ := exists_reachWhen stopNotStopping 1 stopRun
    (fun c => c.snd.view.loc.returned = some ⟨.stop 0, true, 0⟩ ∧ c.sh.thread = .joined) (by decide +kernel)
  exact ⟨c, hc, hP, stop_really_stopped hc hP.1⟩

/-- A stop after the stop signal returns `TN_SUCCESS` at once, and the IO thread goes on. -/
theorem stop_after_signal_not_stopped : ∃ c, Reach 1 c ∧
    c.snd.view.loc.returned = some ⟨.stop 0, true, 0⟩ ∧ c.sh.thread = .running ∧ ¬ ReallyStopped c.sh c.fst.view := by
  obtain ⟨c, hc, hr, ht⟩ := exists_reachWhen .any 1
    (.flatten [startUp, [.run₂ .stopSignal, .op₂, .op₂, .run₂ (.stop 0), .op₂]])
    (fun c => c.snd.view.loc.returned = some ⟨.stop 0, true, 0⟩ ∧ c.sh.thread = .running) (by decide +kernel)
  exact ⟨c, hc, hr, ht, fun h => not_noThread ht h.thread⟩

/-! ### Stop requests -/

/-- The runs in which no stop request comes between the check for `STARTING` and the store of `STARTED`. -/
def noRequestDuringStarted : ServiceCond where
  op₂ _ v w := match w.next, v.next with
    | some (.stateStore .stopping), some (.stateStore .started) => false
    | _, _ => true

/-- The loop is being torn down: each of its handles is closing. -/
def LoopClosing (io : Io) : Prop := ∀ h, some h ∈ io.loopPtrs → (io.handles h).isClosing = true

/-- From `io` to `l` the handles `ps` were closed, those that were not closing yet, and nothing else changed. -/
structure Closes (ps : List (Option Nat)) (io l : Io) : Prop where
  rest : l = { io with handles := l.handles }
  closing : ∀ h, some h ∈ ps → (l.handles h).isClosing = true
  handle : ∀ h, l.handles h = io.handles h ∨
    some h ∈ ps ∧ (io.handles h).closing = none ∧ l.handles h = (io.uvClose h .null).handles h

namespace Closes

variable {ps : List (Option Nat)} {io l : Io}

theorem ptrs (hc : Closes ps io l) : l.loopPtrs = io.loopPtrs := by
  rw [hc.rest]
  rfl

theorem others (hc : Closes ps io l) {h : Nat} (hm : some h ∉ ps) : l.handles h = io.handles h :=
  (hc.handle h).resolve_right fun hr => hm hr.1

theorem loopClosing (hc : Closes io.loopPtrs io l) : LoopClosing l :=
  fun h hm => hc.closing h (hc.ptrs ▸ hm)

/-- Where a handle is not closing yet, it has not changed. -/
theorem unchanged (hc : Closes ps io l) {h : Nat} (hn : (l.handles h).isClosing = false) :
    l.handles h = io.handles h := by
  refine (hc.handle h).resolve_right ?_
  rintro ⟨-, -, he⟩
  rw [he] at hn
  simp [Io.uvClose, Handle.isClosing] at hn

/-- Handles of the loop hold no links. -/
theorem holds {n : Nat} {E : Premises} (hi : IoInv n E io) (hc : Closes io.loopPtrs io l) {h i : Nat}
    (hh : (l.handles h).Holds i) : (io.handles h).Holds i := by
  rcases hc.handle h with he | ⟨hm, -, he⟩
  · rwa [he] at hh
  · have hk := hh.1.1
    rw [he] at hk
    exact absurd (by simpa [Io.uvClose] using hk) (hi.loop h hm).2

/-- One more handle is closed. -/
theorem cons (hc : Closes ps io l) {x : Nat} (hx : (l.handles x).isClosing = false) :
    Closes (some x :: ps) io (l.uvClose x .null) := by
  have hself : ((l.uvClose x .null).handles x).isClosing = true := by simp [Io.uvClose, Handle.isClosing]
  have hne : ∀ y, y ≠ x → (l.uvClose x .null).handles y = l.handles y := fun y hy => Function.update_of_ne hy _ _
  have hsame := hc.unchanged hx
  refine ⟨?_, fun y hy => ?_, fun y => ?_⟩
  · have hrest : l.uvClose x .null = { l with handles := (l.uvClose x .null).handles } := rfl
    rw [hrest, hc.rest]
  · by_cases hyx : y = x
    · exact hyx ▸ hself
    · rw [hne y hyx]
      exact hc.closing y ((List.mem_cons.1 hy).resolve_left fun h => hyx (Option.some.inj h))
  · by_cases hyx : y = x
    · subst hyx
      refine .inr ⟨List.mem_cons_self .., ?_, by simp [Io.uvClose, hsame]⟩
      rw [← hsame]
      simpa [Handle.isClosing] using hx
    · rw [hne y hyx]
      exact (hc.handle y).imp_right fun h => ⟨List.mem_cons_of_mem _ h.1, h.2⟩

end Closes

private theorem safeCloseUvHandle_closes {can : Io → (o : Op) → o.Res → Prop} {I : Io → Op → Prop}
    {Q : Io → Unit → Prop} {ps : List (Option Nat)} {p : Option Nat} {io l : Io} (h : Closes ps io l)
    (hQ : ∀ l', Closes (p :: ps) io l' → Q l' ()) : (safeCloseUvHandle p).path can I Q l := by
  refine hQ _ ?_
  cases p with
  | none =>
    exact ⟨h.rest, fun y hy => h.closing y (by simpa using hy), fun y => (h.handle y).imp_right fun hr =>
      ⟨List.mem_cons_of_mem _ hr.1, hr.2⟩⟩
  | some x =>
    by_cases hx : (l.handles x).isClosing = true
    · simp only [hx, if_true]
      refine ⟨h.rest, fun y hy => ?_, fun y => (h.handle y).imp_right fun hr => ⟨List.mem_cons_of_mem _ hr.1, hr.2⟩⟩
      rcases List.mem_cons.1 hy with hy | hy
      · cases hy
        exact hx
      · exact h.closing y hy
    · simp only [hx, Bool.false_eq_true, if_false]
      exact h.cons (by simpa using hx)

/-- The clean-up of `on_timer_cb` closes the handles of the loop. -/
private theorem closeLoopHandles_path {c : Io → (o : Op) → o.Res → Prop} {I : Io → Op → Prop}
    {Q : Io → Unit → Prop} {io : Io} (hQ : ∀ l, Closes io.loopPtrs io l → Q l ()) :
    Code.path c I (do
      safeCloseUvHandle io.tcpHandle
      safeCloseUvHandle io.uvAcceptTimer
      safeCloseUvHandle io.uvPrep
      safeCloseUvHandle io.uvCheck
      safeCloseUvHandle io.uvSignal) Q io := by
  simp only [Code.path_bind]
  have h₀ : Closes [] io io := ⟨rfl, by simp, fun _ => .inl rfl⟩
  refine safeCloseUvHandle_closes h₀ fun l₁ h₁ => ?_
  refine safeCloseUvHandle_closes h₁ fun l₂ h₂ => ?_
  refine safeCloseUvHandle_closes h₂ fun l₃ h₃ => ?_
  refine safeCloseUvHandle_closes h₃ fun l₄ h₄ => ?_
  refine safeCloseUvHandle_closes h₄ fun l₅ h₅ => hQ l₅ ?_
  have hptrs : ∀ h, some h ∈ [io.uvSignal, io.uvCheck, io.uvPrep, io.uvAcceptTimer, io.tcpHandle] ↔
      some h ∈ io.loopPtrs := by
    intro h
    simp only [Io.loopPtrs, List.mem_cons, List.not_mem_nil, or_false]
    tauto
  exact ⟨h₅.rest, fun h hm => h₅.closing h ((hptrs h).2 hm), fun h => (h₅.handle h).imp_right fun hr =>
    ⟨(hptrs h).1 hr.1, hr.2⟩⟩

/-- `on_timer_cb` closes the handles of the loop, or leaves everything as it is when it loads `STARTED`. -/
theorem onTimerCb_path {can : Io → (o : Op) → o.Res → Prop} {I : Io → Op → Prop} {Q : Io → Unit → Prop} {io : Io}
    (hI : I io .stateLoad) (hup : Q io ()) (hdown : ∀ l, Closes io.loopPtrs io l → Q l ()) :
    onTimerCb.path can I Q io := by
  simp only [onTimerCb, Code.path_bind, Code.path_op, Code.path_ite, Code.path_get, Code.path_pure]
  refine ⟨hI, fun state _ => ⟨fun _ => ?_, fun _ => hup⟩⟩
  simpa only [Code.path_bind] using closeLoopHandles_path (c := can) (I := I) hdown

/-- Once `on_timer_cb` has loaded a state other than `STARTED`, it closes every handle of the loop, and no other. -/
theorem onTimerCb_closes {io : Io} {c c' : ServiceConfig} (hc : c.fst = onTimerCb io)
    (hst : c.sh.state ≠ .started) (hs : service.step c .op₁ = some c') :
    Closes io.loopPtrs io c'.fst.view.loc := by
  obtain ⟨state, sh', he, rfl⟩ := Machine.step_op₁ hc hs
  have he' : state = c.sh.state := (Prod.mk.inj (Option.some.inj he)).1.symm
  subst he'
  refine Prog.path.loc (P := Closes io.loopPtrs io) (?_ : Prog.path (fun _ _ _ => True) _ _ _)
  change Code.path _ _ (if c.sh.state ≠ .started then _ else _) _ io
  rw [if_pos hst]
  exact closeLoopHandles_path fun l hl => hl

/-- A stop request is kept: until the next start the state is not `STARTED` again, so that `on_timer_cb` tears the
loop down. -/
theorem stop_request_kept (hc : ReachWhen noRequestDuringStarted n c) (ha : c.sh.stopAsked = true) :
    c.sh.state ≠ .started ∧ ∀ io c', c.fst = onTimerCb io → service.step c .op₁ = some c' →
      LoopClosing c'.fst.view.loc := by
  have hj := lifecycle (P := False) (Q := True)
    ⟨False.elim, fun _ sh m v h hv => by simp [noRequestDuringStarted, hv] at h⟩ hc
  have hst := hj.kept trivial ha
  exact ⟨hst, fun io c' hio hs => (onTimerCb_closes hio hst hs).loopClosing⟩

/-- Stop asks while the service is up, and the timer tears the loop down. -/
theorem stop_request_kept_timer : ∃ c io c', ReachWhen noRequestDuringStarted 1 c ∧ c.sh.stopAsked = true ∧
    c.fst = onTimerCb io ∧ service.step c .op₁ = some c' ∧ c.sh.state ≠ .started ∧ LoopClosing c'.fst.view.loc := by
  obtain ⟨c₀, hc₀, ha, ht⟩ := exists_reachWhen noRequestDuringStarted 1
    (.flatten [startUp, [.run₂ (.stop 0), .op₂, .op₂]])
    (fun c => c.sh.stopAsked = true ∧
      ((service.step c (.run₁ .timer)).bind fun c => service.step c .op₁).isSome = true) (by decide +kernel)
  obtain ⟨c', hc'⟩ := Option.isSome_iff_exists.1 ht
  obtain ⟨c, hc, hs⟩ := Option.bind_eq_some_iff.1 hc'
  obtain ⟨io, -, -, rfl⟩ := Machine.step_run₁ hc
  have hkept := stop_request_kept (hc₀.step _ rfl hc) ha
  exact ⟨_, io, c', hc₀.step _ rfl hc, ha, rfl, hs, hkept.1, hkept.2 io c' rfl hs⟩

/-- The IO thread has seen `STARTING`, stop stores `STOPPING`, the IO thread stores `STARTED`: the timer leaves the
loop running, and stop waits for it. -/
theorem stop_request_lost : ∃ c, Reach 1 c ∧ c.sh.stopAsked = true ∧ c.sh.state = .started ∧
    c.snd.view.next = some (.threadJoin 0) ∧ c.fst.view.next = none ∧
    isStarted c.fst.view.loc c.fst.view.loc.uvAcceptTimer = true :=
  exists_reachWhen .any 1 (.flatten [startUp.dropLast, [.run₂ (.stop 0), .op₂, .op₂, .op₁, .run₁ .timer, .op₁]])
    (fun c => c.sh.stopAsked = true ∧ c.sh.state = .started ∧ c.snd.view.next = some (.threadJoin 0) ∧
      c.fst.view.next = none ∧ isStarted c.fst.view.loc c.fst.view.loc.uvAcceptTimer = true) (by decide +kernel)

end ServerLynx
