import ServerLynx.Connections
import ServerLynx.Startup

/-!
# Invariants of the loop

A property of the private state that is kept by each move of the start-up, of the clean-up and of the close of the loop
(`KeptByLoop`) holds all along `svl_service_io_thread`, before and after `uv_run`.
-/

namespace ServerLynx

open Threads

/-- The pointers of `priv` that the clean-up releases -/
def Io.freedPtrs (io : Io) : List (Option Nat) := [io.tcpHandle, io.uvAcceptTimer, io.uvPrep, io.uvCheck]

/-- The pointers of `priv` to the handles of the loop are assigned. -/
def Io.setPtrs (io : Io) (p₁ p₂ p₃ p₄ p₅ : Option Nat) : Io :=
  { io with tcpHandle := p₁, uvAcceptTimer := p₂, uvPrep := p₃, uvCheck := p₄, uvSignal := p₅ }

/-- From `io` to `l` neither the handles nor the pointers to them changed. -/
structure SameHandles (io l : Io) : Prop where
  count : l.handleCount = io.handleCount
  handles : l.handles = io.handles
  ptrs : l.loopPtrs = io.loopPtrs

/-- The moves of the start-up, of the clean-up and of the close of the loop keep `J`. -/
structure KeptByLoop (J : Io → Prop) : Prop where
  same : ∀ {io l}, J io → SameHandles io l → J l
  drop : ∀ {io p₁ p₂ p₃ p₄ p₅}, J io → (∀ p ∈ [p₁, p₂, p₃, p₄], p = none ∨ p ∈ io.freedPtrs) →
    p₅ = none ∨ p₅ = io.uvSignal → J (io.setPtrs p₁ p₂ p₃ p₄ p₅)
  acquire : ∀ {io p₁ p₂ p₃ p₄ p₅} kind, kind ≠ .tcpClient → J io →
    (∀ p ∈ [p₁, p₂, p₃, p₄], p = some io.handleCount ∨ p ∈ io.freedPtrs) →
    p₅ = some io.handleCount ∨ p₅ = io.uvSignal → J ((io.acquireHandle kind).setPtrs p₁ p₂ p₃ p₄ p₅)
  init : ∀ {io h}, J io → some h ∈ io.loopPtrs → J (io.uvInit h)
  start : ∀ {io h}, J io → some h ∈ io.loopPtrs → J (io.uvStart h)
  release : ∀ {io h}, J io → some h ∈ io.freedPtrs → J (io.releaseHandle h)
  walk : ∀ {io}, J io → J (uvWalk io)

section KeptByLoop

variable {can : Io → (o : Op) → o.Res → Prop} {J : Io → Prop} {io l : Io}

theorem Io.freedPtrs_subset {p : Option Nat} (h : p ∈ io.freedPtrs) : p ∈ io.loopPtrs := by
  simp only [freedPtrs, loopPtrs, List.mem_cons, List.not_mem_nil, or_false] at h ⊢
  tauto

namespace KeptByLoop

private theorem onHandle {p : Io → Option Nat} {f : Io → Nat → Io} (h₀ : J io) (hf : ∀ h, p io = some h → J (f io h)) :
    J (ServerLynx.onHandle p f io) := by
  unfold ServerLynx.onHandle
  split
  · exact h₀
  · exact hf _ ‹_›

theorem releaseAll (hJ : KeptByLoop J) (h₀ : J io) : J (releaseAll io) := by
  have hrelease : ∀ {l : Io} {p : Io → Option Nat}, J l → p l ∈ l.freedPtrs →
      J (ServerLynx.onHandle p Io.releaseHandle l) :=
    fun hl hp => onHandle hl fun _ he => hJ.release hl (he ▸ hp)
  have hblock : ∀ {l : Io} (p : Io → Option Nat), J l → J (ServerLynx.onHandle p Io.releaseBlock l) :=
    fun p hl => onHandle hl fun _ _ => hJ.same hl ⟨rfl, rfl, rfl⟩
  have h₁ := hrelease (p := (·.uvCheck)) h₀ (by simp [Io.freedPtrs])
  have h₂ := hrelease (p := (·.uvPrep)) h₁ (by simp [Io.freedPtrs])
  have h₃ := hrelease (p := (·.uvAcceptTimer)) h₂ (by simp [Io.freedPtrs])
  have h₄ := hrelease (p := (·.tcpHandle)) h₃ (by simp [Io.freedPtrs])
  have h₅ := hblock (·.sendReq) (hblock (·.uvLoop) h₄)
  have h₆ : J (Io.setPtrs _ none none none none _) := hJ.drop h₅ (by simp) (.inr rfl)
  exact hJ.same h₆ ⟨rfl, rfl, rfl⟩

theorem ioThreadCleanup (hJ : KeptByLoop J) (h₀ : J io) (ret : Int) : KeepsConns can J (ioThreadCleanup ret) io := by
  simp only [KeepsConns, ServerLynx.ioThreadCleanup, Code.path_bind, Code.path_ite, Code.path_op, Code.path_modify]
  have hr := hJ.releaseAll h₀
  exact ⟨fun _ => ⟨h₀, fun _ _ => ⟨hr, fun _ _ => hr⟩⟩, fun _ => ⟨hr, fun _ _ => hr⟩⟩

theorem ioThreadClose (hJ : KeptByLoop J) (h₀ : J io) : KeepsConns can J ioThreadClose io := by
  have hinit : ∀ {l : Io}, J l → J { l with loopIsInit := false } := fun hl => hJ.same hl ⟨rfl, rfl, rfl⟩
  simp only [KeepsConns, ServerLynx.ioThreadClose, Code.path_bind, Code.path_ite, Code.path_modify]
  refine closeLoop_path (fun _ => ⟨by simp, fun _ => hJ.ioThreadCleanup (hinit h₀) 0⟩) fun hne => ⟨fun _ => ?_,
    fun h => absurd hne h⟩
  refine closeLoop_path (fun _ => ⟨by simp, fun _ => hJ.ioThreadCleanup (hinit (hJ.walk h₀)) 0⟩) fun hne => ?_
  exact ⟨fun _ => hJ.ioThreadCleanup (hJ.walk h₀) _, fun h => absurd hne h⟩

/-! ### Start-up -/

theorem startLines (hJ : KeptByLoop J) (out : StartOut) (count : Nat) :
    ∀ g ∈ startLines out count, ∀ io, J io → J (g.onFail io) ∧ J (g.onOk io) := by
  intro g hg io h₀
  have hsame : ∀ {l : Io}, l.handleCount = io.handleCount → l.handles = io.handles → l.loopPtrs = io.loopPtrs → J l :=
    fun hc hh hp => hJ.same h₀ ⟨hc, hh, hp⟩
  have hinit : ∀ {p : Io → Option Nat}, p io ∈ io.loopPtrs → J (ServerLynx.onHandle p Io.uvInit io) :=
    fun hp => onHandle h₀ fun _ he => hJ.init h₀ (he ▸ hp)
  have hstart : ∀ {p : Io → Option Nat}, p io ∈ io.loopPtrs → J (ServerLynx.onHandle p Io.uvStart io) :=
    fun hp => onHandle h₀ fun _ he => hJ.start h₀ (he ▸ hp)
  simp only [ServerLynx.startLines, List.mem_cons, List.not_mem_nil, or_false] at hg
  rcases hg with rfl | rfl | rfl | rfl | rfl | rfl | rfl | rfl | rfl | rfl | rfl | rfl | rfl | rfl | rfl | rfl | rfl
    | rfl
  all_goals simp only [Guarded.acquire, Guarded.quiet, Guarded.call, id]
  · exact ⟨hsame rfl rfl rfl, hsame rfl rfl rfl⟩
  · exact ⟨hJ.drop h₀ (by simp [Io.freedPtrs]) (.inr rfl),
      hJ.acquire .tcpListen (by simp) h₀ (by simp [allocHandle, Io.acquireHandle, Io.freedPtrs]) (.inr rfl)⟩
  · exact ⟨hJ.drop h₀ (by simp [Io.freedPtrs]) (.inr rfl),
      hJ.acquire .timer (by simp) h₀ (by simp [allocHandle, Io.acquireHandle, Io.freedPtrs]) (.inr rfl)⟩
  · exact ⟨hJ.drop h₀ (by simp [Io.freedPtrs]) (.inr rfl),
      hJ.acquire .prepare (by simp) h₀ (by simp [allocHandle, Io.acquireHandle, Io.freedPtrs]) (.inr rfl)⟩
  · exact ⟨hJ.drop h₀ (by simp [Io.freedPtrs]) (.inr rfl),
      hJ.acquire .check (by simp) h₀ (by simp [allocHandle, Io.acquireHandle, Io.freedPtrs]) (.inr rfl)⟩
  · exact ⟨hJ.drop h₀ (by simp [Io.freedPtrs]) (.inl rfl),
      hJ.acquire .signal (by simp) h₀ (by simp [allocHandle, Io.acquireHandle, Io.freedPtrs]) (.inl rfl)⟩
  · exact ⟨hsame rfl rfl rfl, hsame rfl rfl rfl⟩
  · exact ⟨h₀, hsame rfl rfl rfl⟩
  · exact ⟨h₀, hsame rfl rfl rfl⟩
  · exact ⟨h₀, hsame rfl rfl rfl⟩
  · exact ⟨h₀, hinit (by simp [Io.loopPtrs])⟩
  · exact ⟨h₀, hstart (by simp [Io.loopPtrs])⟩
  · exact ⟨h₀, hinit (by simp [Io.loopPtrs])⟩
  · exact ⟨h₀, hstart (by simp [Io.loopPtrs])⟩
  · exact ⟨h₀, hinit (by simp [Io.loopPtrs])⟩
  · exact ⟨h₀, hstart (by simp [Io.loopPtrs])⟩
  · exact ⟨h₀, hinit (by simp [Io.loopPtrs])⟩
  · exact ⟨h₀, hstart (by simp [Io.loopPtrs])⟩

theorem listenLines (hJ : KeptByLoop J) (out : StartOut) :
    ∀ g ∈ listenLines out, ∀ io, J io → J (g.onFail io) ∧ J (g.onOk io) := by
  intro g hg io h₀
  simp only [ServerLynx.listenLines, List.mem_cons, List.not_mem_nil, or_false] at hg
  rcases hg with rfl | rfl | rfl | rfl | rfl
  · exact ⟨h₀, onHandle h₀ fun _ he => hJ.init h₀ (by simp [Io.loopPtrs, ← he])⟩
  · exact ⟨h₀, h₀⟩
  · exact ⟨h₀, h₀⟩
  · exact ⟨h₀, onHandle h₀ fun _ he => hJ.start h₀ (by simp [Io.loopPtrs, ← he])⟩
  · exact ⟨h₀, h₀⟩

/-- The start-up, from where its first lines have come to an end. -/
theorem startEnd (hJ : KeptByLoop J) {ok : Bool} {ret : Int} (h₀ : J io) (out : StartOut) :
    KeepsConns can J (do
      set io
      if !ok then return ← ServerLynx.ioThreadCleanup ret
      let hostListen ← perform .hostListenLoad
      if hostListen.family = .inet ∨ hostListen.family = .inet6 then
        let (ok, ret, io) := Guarded.runAll (ServerLynx.listenLines out) ret (← get)
        set io
        if !ok then return ← ServerLynx.ioThreadCleanup ret
      else
        modify fun io => { io with tcpHandle := none }
      let state ← perform .stateLoad
      if state = .starting then
        perform (.stateStore .started)
        modify fun io => { io with phase := .running }
      else
        ServerLynx.ioThreadClose) l := by
  have hend : ∀ l : Io, J l → KeepsConns can J (do
      let state ← perform .stateLoad
      if state = .starting then
        perform (.stateStore .started)
        modify fun io => { io with phase := .running }
      else
        ServerLynx.ioThreadClose) l := by
    intro l hl
    simp only [KeepsConns, Code.path_bind, Code.path_ite, Code.path_op, Code.path_modify]
    exact ⟨hl, fun _ _ => ⟨fun _ => ⟨hl, fun _ _ => hJ.same hl ⟨rfl, rfl, rfl⟩⟩, fun _ => hJ.ioThreadClose hl⟩⟩
  simp only [KeepsConns, Code.path_bind, Code.path_ite, Code.path_op, Code.path_modify] at hend
  simp only [KeepsConns, Code.path_bind, Code.path_set, Code.path_get, Code.path_ite, Code.path_op, Code.path_modify]
  refine ⟨fun _ => hJ.ioThreadCleanup h₀ ret, fun _ => ⟨h₀, fun _ _ => ⟨fun _ => ?_, fun _ => hend _ ?_⟩⟩⟩
  · have hs := Guarded.runAll_induct (hJ.listenLines out) ret h₀
    exact ⟨fun _ => hJ.ioThreadCleanup hs _, fun _ => hend _ hs⟩
  · exact hJ.drop h₀ (by simp [Io.freedPtrs]) (.inr rfl)

theorem svlServiceIoThread (hJ : KeptByLoop J) (h₀ : J io) (out : StartOut) :
    KeepsConns can J (svlServiceIoThread out) io := by
  simp only [KeepsConns, ServerLynx.svlServiceIoThread, Code.path_bind, Code.path_get, Code.path_modify]
  have hdrop : J (io.setPtrs none none none none io.uvSignal) := hJ.drop h₀ (by simp) (.inr rfl)
  have hs : J { io with
      loop := io.loop + 1, loopIsInit := false, uvLoop := none, tcpHandle := none, uvAcceptTimer := none
      uvPrep := none, uvCheck := none } := hJ.same hdrop ⟨rfl, rfl, rfl⟩
  exact hJ.startEnd (l := io) (Guarded.runAll_induct (hJ.startLines out io.bufferCount) uvEnomem hs) out

end KeptByLoop

end KeptByLoop

end ServerLynx
