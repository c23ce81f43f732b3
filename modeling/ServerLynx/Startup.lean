import ServerLynx.IoRun
import ServerLynx.System
import ServerLynx.Threads.Among

/-!
# Failures of the start-up

All the exits of the start-up of `svl_service_io_thread` share one label, which reports a failure by the state
`SVL_SERVICE_ERROR` if `ret` is not 0.  `ret` is `UV_ENOMEM` before the first libuv call and the result of the last
call after it, so it is 0 exactly where `tn_endpoint_string_get` fails, the only line behind a libuv call that does not
assign to it.
-/

namespace ServerLynx

open Threads

/-! ### What a line leaves in `ret` -/

namespace Guarded

/-- The line assigns its result to `ret`, and fails if that is not 0. -/
def Tells (g : Guarded) : Prop := ∃ status, g.ret = some status ∧ (g.fails = true ↔ status ≠ 0)

theorem runAll_fst (gs : List Guarded) (ret : Int) (io : Io) : (runAll gs ret io).1 = gs.all fun g => !g.fails := by
  induction gs generalizing ret io with
  | nil => rfl
  | cons g gs ih =>
    rw [runAll, List.all_cons]
    cases hg : g.fails with
    | true => rfl
    | false => exact ih _ _

/-- Lines that do not assign to `ret` leave it alone. -/
theorem runAll_silent {gs : List Guarded} (h : ∀ g ∈ gs, g.ret = none) (ret : Int) (io : Io) :
    (runAll gs ret io).2.1 = ret := by
  induction gs generalizing ret io with
  | nil => rfl
  | cons g gs ih =>
    rw [runAll, h g (List.mem_cons_self ..), Option.getD_none]
    split
    · rfl
    · exact ih (fun g' hg' => h g' (List.mem_cons_of_mem _ hg')) _ _

/-- Lines that assign their result to `ret` leave something other than 0 there if one of them fails, and 0 if not. -/
theorem runAll_tells {gs : List Guarded} (h : ∀ g ∈ gs, g.Tells) (ret : Int) (io : Io) :
    ((runAll gs ret io).1 = false → (runAll gs ret io).2.1 ≠ 0) ∧
      ((runAll gs ret io).1 = true → gs ≠ [] → (runAll gs ret io).2.1 = 0) := by
  induction gs generalizing ret io with
  | nil => exact ⟨by simp [runAll], fun _ hne => absurd rfl hne⟩
  | cons g gs ih =>
    obtain ⟨status, hret, hfails⟩ := h g (List.mem_cons_self ..)
    have hrest := ih fun g' hg' => h g' (List.mem_cons_of_mem _ hg')
    rw [runAll, hret, Option.getD_some]
    by_cases hg : g.fails = true
    · rw [if_pos hg]
      exact ⟨fun _ => hfails.1 hg, by simp⟩
    · rw [if_neg hg]
      have hzero : status = 0 := by
        by_contra hne
        exact hg (hfails.2 hne)
      refine ⟨(hrest status (g.onOk io)).1, fun hok _ => ?_⟩
      cases gs with
      | nil => exact hzero
      | cons g' gs => exact (hrest status (g.onOk io)).2 hok (by simp)

theorem call_tells (status : Int) (onOk : Io → Io) : (call status onOk).Tells := ⟨status, rfl, by simp [call]⟩

end Guarded

/-! ### The outcomes of a start-up -/

/-- The outcomes of the acquisitions -/
def StartOut.acquired (out : StartOut) : List Bool :=
  [out.uvLoop, out.tcpHandle, out.uvAcceptTimer, out.uvPrep, out.uvCheck, out.uvSignal, out.sendReq]

/-- The results of the calls that every start-up makes -/
def StartOut.called (out : StartOut) : List Int :=
  [out.listSetup, out.pushBack, out.loopInit, out.timerInit, out.timerStart, out.prepareInit, out.prepareStart,
    out.checkInit, out.checkStart, out.signalInit, out.signalStart]

/-- The results of the libuv calls for the listener -/
def StartOut.listened (out : StartOut) : List Int := [out.tcpInit, out.tcpNodelay, out.tcpBind, out.listen]

/-- The endpoint has an address to listen on. -/
def Endpoint.Listens (ep : Endpoint) : Prop := ep.family = .inet ∨ ep.family = .inet6

instance (ep : Endpoint) : Decidable ep.Listens := inferInstanceAs (Decidable (_ ∨ _))

/-- Everything up to the listener succeeds. -/
def StartOut.SetsUp (out : StartOut) : Prop := (∀ ok ∈ out.acquired, ok = true) ∧ ∀ status ∈ out.called, status = 0

/-- Every step of the start-up for a service with the endpoint `ep` succeeds. -/
def StartOut.Succeeds (out : StartOut) (ep : Endpoint) : Prop :=
  out.SetsUp ∧ (ep.Listens → (∀ status ∈ out.listened, status = 0) ∧ out.stringGet = 0)

/-- Of the steps for a service with the endpoint `ep`, `tn_endpoint_string_get` fails and no other does. -/
def StartOut.OnlyStringGetFails (out : StartOut) (ep : Endpoint) : Prop :=
  ep.Listens ∧ out.SetsUp ∧ (∀ status ∈ out.listened, status = 0) ∧ out.stringGet ≠ 0

variable {out : StartOut} {count : Nat} {io : Io}

/-- The lines before the listener succeed if all their outcomes do; if not, `ret` tells. -/
theorem startLines_tells (out : StartOut) (count : Nat) (io : Io) :
    ((Guarded.runAll (startLines out count) uvEnomem io).1 = true ↔ out.SetsUp) ∧
    ((Guarded.runAll (startLines out count) uvEnomem io).1 = false →
      (Guarded.runAll (startLines out count) uvEnomem io).2.1 ≠ 0) := by
  refine ⟨?_, fun hfail => ?_⟩
  · rw [Guarded.runAll_fst]
    simp [startLines, Guarded.acquire, Guarded.quiet, Guarded.call, fillSendReqs_eq, StartOut.SetsUp,
      StartOut.acquired, StartOut.called]
    tauto
  · have hsilent : ∀ g ∈ (startLines out count).take 9, g.ret = none := by
      simp [startLines, Guarded.acquire, Guarded.quiet]
    have htells : ∀ g ∈ (startLines out count).drop 9, g.Tells := by
      simp [startLines, Guarded.call_tells]
    rw [← List.take_append_drop 9 (startLines out count), Guarded.runAll_append] at hfail ⊢
    split
    · rename_i hok
      rw [if_pos hok] at hfail
      exact (Guarded.runAll_tells htells _ _).1 hfail
    · rw [Guarded.runAll_silent hsilent]
      decide

/-- The lines of the listener succeed if all their outcomes do; if not, `ret` tells unless only the last one fails. -/
theorem listenLines_tells (out : StartOut) (ret : Int) (io : Io) :
    ((Guarded.runAll (listenLines out) ret io).1 = true ↔
      (∀ status ∈ out.listened, status = 0) ∧ out.stringGet = 0) ∧
    ((Guarded.runAll (listenLines out) ret io).1 = false →
      ((Guarded.runAll (listenLines out) ret io).2.1 = 0 ↔ ∀ status ∈ out.listened, status = 0)) := by
  have hsplit : listenLines out = (listenLines out).take 4 ++ [.quiet out.stringGet id] := rfl
  have htells : ∀ g ∈ (listenLines out).take 4, g.Tells := by
    simp [listenLines, Guarded.call_tells]
  have hall : (Guarded.runAll ((listenLines out).take 4) ret io).1 = true ↔ ∀ status ∈ out.listened, status = 0 := by
    rw [Guarded.runAll_fst]
    simp [listenLines, Guarded.call, StartOut.listened]
  refine ⟨?_, fun hfail => ?_⟩
  · rw [Guarded.runAll_fst]
    simp [listenLines, Guarded.call, Guarded.quiet, StartOut.listened]
    tauto
  · obtain ⟨hne, hzero⟩ := Guarded.runAll_tells htells ret io
    rw [hsplit, Guarded.runAll_append] at hfail ⊢
    split
    · rename_i hok
      rw [if_pos hok] at hfail
      rw [Guarded.runAll_silent (by simp [Guarded.quiet]), hzero hok (by simp [listenLines])]
      exact iff_of_true rfl (hall.1 hok)
    · rename_i hno
      rw [← hall]
      simp [hno, hne (by simpa using hno)]

/-! ### The state at the end -/

/-- Nobody else stores the state or joins the thread, nor stores an endpoint while the service is starting. -/
structure NoStop (sh sh' : Shared) : Prop where
  state : sh'.state = sh.state
  thread : sh'.thread = sh.thread
  hostListen : sh.state = .starting → sh'.hostListen = sh.hostListen

theorem NoStop.refl (sh : Shared) : NoStop sh sh := ⟨rfl, rfl, fun _ => rfl⟩

theorem NoStop.trans {x y z : Shared} (h : NoStop x y) (h' : NoStop y z) : NoStop x z :=
  ⟨h'.state.trans h.state, h'.thread.trans h.thread,
    fun hx => (h'.hostListen (h.state.trans hx)).trans (h.hostListen hx)⟩

/-- Among steps that leave the state alone, the thread ends with the state `SVL_SERVICE_ERROR` if a step of its
start-up fails; if none does it comes to `uv_run` without storing that. -/
def StartReported (out : StartOut) (io : Io) (sh : Shared) : Prop :=
  (svlServiceIoThread out).ends Op.exec NoStop (fun _ o => out.Succeeds sh.hostListen → o ≠ .stateStore .error)
    (fun sh' l _ => (out.Succeeds sh.hostListen → sh'.state = .started ∧ l.phase = .running) ∧
      (¬ out.Succeeds sh.hostListen → sh'.state = .error ∧ sh'.thread = .ended)) io sh

section Ends

variable {I : Io → Op → Prop} {Q : Shared → Io → Unit → Prop} {sh : Shared}

theorem ioThreadCleanup_ends {ret : Int} (hret : ret ≠ 0) (hI : ∀ l o, I l o)
    (hQ : ∀ sh' l', sh'.state = .error → sh'.thread = .ended → Q sh' l' ()) :
    (ioThreadCleanup ret).ends Op.exec NoStop I Q io sh := by
  simp only [ioThreadCleanup, Code.ends_bind, Code.ends_ite, Code.ends_modify, Code.ends_op]
  refine ⟨fun _ => ⟨hI _ _, fun sh₁ _ => ⟨(), _, rfl, hI _ _, fun sh₂ h₂ => ⟨(), _, rfl, ?_⟩⟩⟩,
    fun h => absurd hret h⟩
  exact hQ _ _ h₂.state rfl

end Ends

private theorem startEnd_ends {ep : Endpoint} {out : StartOut} (hs : out.Succeeds ep) {sh : Shared}
    (hst : sh.state = .starting) (io : Io) :
    Code.ends Op.exec NoStop (fun _ o => out.Succeeds ep → o ≠ .stateStore .error) (do
      let state ← perform .stateLoad
      if state = .starting then
        perform (.stateStore .started)
        modify fun io => { io with phase := .running }
      else
        ioThreadClose) (fun sh' l _ => (out.Succeeds ep → sh'.state = .started ∧ l.phase = .running) ∧
        (¬ out.Succeeds ep → sh'.state = .error ∧ sh'.thread = .ended)) io sh := by
  simp only [Code.ends_bind, Code.ends_modify, Code.ends_ite, Code.ends_op]
  refine ⟨by simp, fun sh₁ h₁ => ⟨sh₁.state, sh₁, rfl, fun _ => ⟨by simp, fun sh₂ _ => ?_⟩, fun hne => ?_⟩⟩
  · exact ⟨(), _, rfl, fun _ => ⟨rfl, trivial⟩, fun h => absurd hs h⟩
  · exact absurd (h₁.state.trans hst) hne

/-- Unless only `tn_endpoint_string_get` fails, the state tells how the start-up went. -/
theorem startReported {sh : Shared} (hst : sh.state = .starting) {out : StartOut}
    (honly : ¬ out.OnlyStringGetFails sh.hostListen) (io : Io) : StartReported out io sh := by
  -- what is left once a line has failed and told so
  have hfailed : ¬ out.Succeeds sh.hostListen → ∀ {ret : Int}, ret ≠ 0 → ∀ {io₁ : Io} {sh₁ : Shared},
      (ioThreadCleanup ret).ends Op.exec NoStop (fun _ o => out.Succeeds sh.hostListen → o ≠ .stateStore .error)
        (fun sh' l _ => (out.Succeeds sh.hostListen → sh'.state = .started ∧ l.phase = .running) ∧
          (¬ out.Succeeds sh.hostListen → sh'.state = .error ∧ sh'.thread = .ended)) io₁ sh₁ :=
    fun hno ret hret => ioThreadCleanup_ends hret (fun _ _ h => absurd h hno)
      fun sh' l' hs ht => ⟨fun h => absurd h hno, fun _ => ⟨hs, ht⟩⟩
  have hend := fun (hs : out.Succeeds sh.hostListen) {sh₁ : Shared} (h₁ : sh₁.state = .starting) io₁ =>
    startEnd_ends hs h₁ io₁
  simp only [StartReported, svlServiceIoThread, Code.ends_bind, Code.ends_modify, Code.ends_get, Code.ends_set,
    Code.ends_ite, Code.ends_op] at hend ⊢
  generalize { io with
      loop := io.loop + 1, loopIsInit := false, uvLoop := none, tcpHandle := none, uvAcceptTimer := none
      uvPrep := none, uvCheck := none } = io₀
  obtain ⟨hok, hret⟩ := startLines_tells out io.bufferCount io₀
  generalize Guarded.runAll (startLines out io.bufferCount) uvEnomem io₀ = x at hok hret ⊢
  obtain ⟨ok, ret, io₁⟩ := x
  dsimp only at hok hret ⊢
  cases ok with
  | false => exact ⟨fun _ => hfailed (fun h => by simpa using hok.2 h.1) (hret rfl), by simp⟩
  | true =>
    have hset : out.SetsUp := hok.1 rfl
    refine ⟨by simp, fun _ => ⟨by simp, fun sh₁ h₁ => ⟨sh₁.hostListen, sh₁, rfl, ?_⟩⟩⟩
    have hst₁ : sh₁.state = .starting := h₁.state.trans hst
    rw [h₁.hostListen hst]
    by_cases hl : sh.hostListen.Listens
    · refine ⟨fun _ => ?_, fun h => absurd hl h⟩
      obtain ⟨hok₂, hret₂⟩ := listenLines_tells out ret io₁
      generalize Guarded.runAll (listenLines out) ret io₁ = y at hok₂ hret₂ ⊢
      obtain ⟨ok₂, ret₂, io₂⟩ := y
      dsimp only at hok₂ hret₂ ⊢
      cases ok₂ with
      | true => exact ⟨by simp, fun _ => hend ⟨hset, fun _ => hok₂.1 rfl⟩ hst₁ io₂⟩
      | false =>
        have hno : ¬ out.Succeeds sh.hostListen := fun h => by simpa using hok₂.2 (h.2 hl)
        refine ⟨fun _ => hfailed hno fun hz => ?_, by simp⟩
        have hlisten := (hret₂ rfl).1 hz
        exact honly ⟨hl, hset, hlisten, fun h => by simpa using hok₂.2 ⟨hlisten, h⟩⟩
    · exact ⟨fun h => absurd h hl, fun _ => hend ⟨hset, fun h => absurd h hl⟩ hst₁ _⟩

/-- In a run of the service in which nobody stops it, the thread that was given the start-up to run ends with the state
that tells how it went, unless only `tn_endpoint_string_get` fails. -/
theorem start_reported_run {c c' : ServiceConfig} {out : StartOut} {io l : Io} (hst : c.sh.state = .starting)
    (honly : ¬ out.OnlyStringGetFails c.sh.hostListen) (hc : c.fst = svlServiceIoThread out io)
    (ha : service.Among₁ NoStop c c') (hend : c'.fst = .ret l ()) :
    (out.Succeeds c.sh.hostListen → c'.sh.state = .started ∧ l.phase = .running) ∧
      (¬ out.Succeeds c.sh.hostListen → c'.sh.state = .error ∧ c'.sh.thread = .ended) := by
  have h : c.fst.ends Op.exec NoStop (fun _ o => out.Succeeds c.sh.hostListen → o ≠ .stateStore .error)
      (fun sh' l _ => (out.Succeeds c.sh.hostListen → sh'.state = .started ∧ l.phase = .running) ∧
        (¬ out.Succeeds c.sh.hostListen → sh'.state = .error ∧ sh'.thread = .ended)) c.sh := by
    rw [hc]
    exact startReported hst honly io
  have h' := Machine.Among₁.ends (R := NoStop) NoStop.trans NoStop.refl (fun sh sh' l a hR hQ => ?_) h ha
  · rw [hend] at h'
    exact h'
  · exact ⟨fun hs => ⟨hR.state.trans (hQ.1 hs).1, (hQ.1 hs).2⟩,
      fun hno => ⟨hR.state.trans (hQ.2 hno).1, hR.thread.trans (hQ.2 hno).2⟩⟩

end ServerLynx
