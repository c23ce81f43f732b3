import ServerLynx.LoopKept

/-!
# Memory that a start-up acquires

A start-up acquires the blocks of the loop, of the listener, of four more handles and of the requests, and the clean-up
at the end releases what the pointers of `priv` point to, except for the signal handle.  So a thread that acquired its
signal handle has lost it for good, and one that failed before has released everything.
-/

namespace ServerLynx

open Threads

/-- The thread has released each block and each handle it acquired exactly once, and `send_req_list` is cleaned up. -/
structure Io.Released (io : Io) : Prop where
  handles : ∀ h < io.handleCount, (io.handles h).kind ≠ .tcpClient → (io.handles h).released = 1
  blocks : ∀ b < io.blockCount, (io.blocks b).released = 1
  list : io.sendReqList = .setup 0

/-- The acquisitions up to that of the signal handle all succeed. -/
def StartOut.AcquiresSignal (out : StartOut) : Prop := ∀ ok ∈ out.acquired.take 6, ok = true

instance (out : StartOut) : Decidable out.AcquiresSignal := inferInstanceAs (Decidable (∀ _ ∈ _, _))

/-! ### A signal handle is never released -/

/-- The signal handle `h` has not been released, and the clean-up does not reach it. -/
structure SignalKept (h : Nat) (io : Io) : Prop where
  lt : h < io.handleCount
  kind : (io.handles h).kind = .signal
  released : (io.handles h).released = 0
  nullCb : (io.handles h).closing = none ∨ (io.handles h).closing = some .null
  ptrs : ∀ p ∈ [io.tcpHandle, io.uvAcceptTimer, io.uvPrep, io.uvCheck], p ≠ some h

section SignalKept

variable {n : Nat} {E : Premises} {can : Io → (o : Op) → o.Res → Prop} {h : Nat} {io l : Io}

theorem SignalKept.not_released (hs : SignalKept h io) : ¬ io.Released := by
  intro hr
  have hone := hr.handles h hs.lt (by rw [hs.kind]; simp)
  rw [hs.released] at hone
  cases hone

/-- The handle itself does not change. -/
theorem SignalKept.of_eq (hs : SignalKept h io) (hle : io.handleCount ≤ l.handleCount)
    (hh : l.handles h = io.handles h) (hp : l.loopPtrs = io.loopPtrs) : SignalKept h l := by
  simp only [Io.loopPtrs, List.cons.injEq] at hp
  obtain ⟨h₁, h₂, h₃, h₄, -⟩ := hp
  refine ⟨Nat.lt_of_lt_of_le hs.lt hle, ?_, ?_, ?_, ?_⟩
  · rw [hh]
    exact hs.kind
  · rw [hh]
    exact hs.released
  · rw [hh]
    exact hs.nullCb
  · rw [h₁, h₂, h₃, h₄]
    exact hs.ptrs

/-- A handle changes that is not released and closes without a callback, if at all. -/
theorem SignalKept.setHandle (hs : SignalKept h io) (h' : Nat) {f : Handle → Handle} (hf : ∀ x, (f x).kind = x.kind ∧
    (f x).released = x.released ∧ ((f x).closing = x.closing ∨ (f x).closing = some .null)) :
    SignalKept h (io.setHandle h' f) := by
  by_cases he : h = h'
  · subst he
    refine ⟨hs.lt, ?_, ?_, ?_, hs.ptrs⟩
    · rw [Io.setHandle_handles_self, (hf _).1]
      exact hs.kind
    · rw [Io.setHandle_handles_self, (hf _).2.1]
      exact hs.released
    · rw [Io.setHandle_handles_self]
      rcases (hf (io.handles h)).2.2 with hc | hc
      · rw [hc]
        exact hs.nullCb
      · exact .inr hc
  · exact hs.of_eq (Nat.le_refl _) (Function.update_of_ne he _ _) rfl

/-- A client handle is another handle. -/
theorem SignalKept.ne_client (hs : SignalKept h io) {h' i : Nat} (hh : (io.handles h').Holds i) : h ≠ h' := by
  rintro rfl
  exact absurd (hh.1.1.symm.trans hs.kind) (by simp)

/-- A handle that closes with a callback is another handle. -/
theorem SignalKept.ne_closing (hs : SignalKept h io) {h' : Nat} (hc : (io.handles h').closing = some .handle) :
    h ≠ h' := by
  rintro rfl
  rcases hs.nullCb with hn | hn
  · exact absurd (hc.symm.trans hn) (by simp)
  · exact absurd (hc.symm.trans hn) (by simp)

/-- A handle that is tied to no connection is another handle. -/
theorem SignalKept.stray (hs : SignalKept h io) {cmd : Option Cmd} (hl : MadeStray cmd io l) : SignalKept h l := by
  obtain ⟨x, -, -, hx⟩ := hl.handles
  exact hs.of_eq (by rw [hl.count]; omega) (by rw [hx, Function.update_of_ne (Nat.ne_of_lt hs.lt)]) hl.ptrs

theorem signalKept_conns : KeptByConns n E (fun _ => True) (SignalKept h) where
  same hs hl := hs.of_eq (Nat.le_of_eq hl.count.symm) (by rw [hl.handles]) hl.ptrs
  conn hs hh hl := hs.of_eq (Nat.le_of_eq hl.count.symm) (hl.handles _ (hs.ne_client hh)) hl.ptrs
  closed {io l h' i} hs hh _ hl := by
    obtain ⟨l', list, log, refused, hl', -, rfl⟩ := hl
    refine hs.of_eq (Nat.le_of_eq hl'.count.symm) ?_ hl'.ptrs
    have hne := hs.ne_client hh
    simp only [Io.releaseHandle, Io.setHandle, Function.update_of_ne hne]
    exact hl'.handles _ hne
  stray _ hs hl := hs.stray hl
  attach {io i list} _ hs _ :=
    hs.of_eq (Nat.le_succ _) (Function.update_of_ne (Nat.ne_of_lt hs.lt) _ _) rfl
  finish hs _ := hs.setHandle _ fun _ => ⟨rfl, rfl, .inl rfl⟩
  release {io h'} hs hc :=
    hs.of_eq (Nat.le_refl _) (Function.update_of_ne (hs.ne_closing hc) _ _) rfl

/-! ### The code of the thread -/

/-- The pointers of `priv` change, but those that the clean-up releases do not point to the handle. -/
theorem SignalKept.setPtrs (hs : SignalKept h io) {p₁ p₂ p₃ p₄ p₅ : Option Nat}
    (hp : ∀ p ∈ [p₁, p₂, p₃, p₄], p ≠ some h) : SignalKept h (io.setPtrs p₁ p₂ p₃ p₄ p₅) :=
  ⟨hs.lt, hs.kind, hs.released, hs.nullCb, hp⟩

theorem signalKept_loop : KeptByLoop (SignalKept h) where
  same hs hl := hs.of_eq (Nat.le_of_eq hl.count.symm) (by rw [hl.handles]) hl.ptrs
  drop hs hp _ := by
    refine hs.setPtrs fun p hm => ?_
    rcases hp p hm with rfl | hm
    · simp
    · exact hs.ptrs p hm
  acquire {io p₁ p₂ p₃ p₄ p₅} kind _ hs hp _ := by
    have hne : (io.acquireHandle kind).handles h = io.handles h := Function.update_of_ne (Nat.ne_of_lt hs.lt) _ _
    refine ⟨Nat.lt_succ_of_lt hs.lt, ?_, ?_, ?_, fun p hm => ?_⟩
    · simpa only [Io.setPtrs, hne] using hs.kind
    · simpa only [Io.setPtrs, hne] using hs.released
    · simpa only [Io.setPtrs, hne] using hs.nullCb
    · rcases hp p hm with rfl | hm
      · exact fun he => absurd (Option.some.inj he) (Nat.ne_of_gt hs.lt)
      · exact hs.ptrs p hm
  init hs _ := hs.setHandle _ fun _ => ⟨rfl, rfl, .inl rfl⟩
  start hs _ := hs.setHandle _ fun _ => ⟨rfl, rfl, .inl rfl⟩
  release {io h'} hs hm := by
    have hne : h ≠ h' := by
      rintro rfl
      exact hs.ptrs _ hm rfl
    exact hs.of_eq (Nat.le_refl _) (Function.update_of_ne hne _ _) rfl
  walk {io} hs := by
    have hx : (uvWalk io).handles h = io.handles h ∨ (uvWalk io).handles h = (io.uvClose h .null).handles h := by
      simp only [uvWalk]
      split
      · exact .inr rfl
      · exact .inl rfl
    rcases hx with hx | hx
    · exact hs.of_eq (Nat.le_refl _) hx rfl
    · have hc : SignalKept h (io.uvClose h .null) := hs.setHandle h fun _ => ⟨rfl, rfl, .inr rfl⟩
      exact hc.of_eq (Nat.le_refl _) hx rfl

/-- `SignalKept` holds all along the code. -/
abbrev KeepsSignal (can : Io → (o : Op) → o.Res → Prop) (h : Nat) (m : IoM Unit) (io : Io) : Prop :=
  KeepsConns can (SignalKept h) m io

/-- A thread that has acquired its signal handle does not release it. -/
theorem thread_acquiresSignal {out : StartOut} (hout : out.AcquiresSignal) :
    KeepsSignal can (io.handleCount + 4) (svlServiceIoThread out) io := by
  simp only [KeepsSignal, svlServiceIoThread, Code.path_bind, Code.path_get, Code.path_modify]
  obtain ⟨h₁, h₂, h₃, h₄, h₅, h₆⟩ : out.uvLoop = true ∧ out.tcpHandle = true ∧ out.uvAcceptTimer = true ∧
      out.uvPrep = true ∧ out.uvCheck = true ∧ out.uvSignal = true := by
    simpa [StartOut.AcquiresSignal, StartOut.acquired] using hout
  have hsix : ∀ io₀ : Io, io₀.handleCount = io.handleCount → SignalKept (io.handleCount + 4)
      (Guarded.runAll (startLines out io.bufferCount) uvEnomem io₀).2.2 := by
    intro io₀ hcount
    have hok := Guarded.runAll_ok (g := (startLines out io.bufferCount).take 6) (by
      simp [startLines, Guarded.acquire, h₁, h₂, h₃, h₄, h₅, h₆]) uvEnomem io₀
    rw [← List.take_append_drop 6 (startLines out io.bufferCount), Guarded.runAll_append, if_pos hok]
    refine Guarded.runAll_induct (fun g hg => signalKept_loop.startLines out _ g (List.mem_of_mem_drop hg)) _ ?_
    have heq := Guarded.runAll_eq_true (Prod.ext hok rfl :
      Guarded.runAll ((startLines out io.bufferCount).take 6) uvEnomem io₀ = (true, _, _))
    rw [heq]
    simp only [startLines, List.take, List.foldl, Guarded.acquire, allocBlock, allocHandle, Io.acquireBlock,
      Io.acquireHandle]
    refine ⟨?_, ?_, ?_, ?_, ?_⟩
    all_goals simp [hcount]
  have hstart := hsix { io with
      loop := io.loop + 1, loopIsInit := false, uvLoop := none, tcpHandle := none, uvAcceptTimer := none
      uvPrep := none, uvCheck := none } rfl
  exact signalKept_loop.startEnd (l := io) hstart out

end SignalKept

/-! ### Whole runs -/

section Runs

variable {n : Nat} {E : Premises} {can : Io → (o : Op) → o.Res → Prop} {io : Io} {h : Nat} {c : ServiceConfig}

/-- What the IO thread is given to run does not release the signal handle of an earlier start-up. -/
private theorem IoRun.code_keepsSignal (hcan : Promised can E) (hi : IoInv n E io) (hs : Settled io)
    (hk : SignalKept h io) {d : IoRun} {sh : Shared} (hr : d.ready sh io = true) : KeepsSignal can h d.code io := by
  cases d with
  | thread out => exact signalKept_loop.svlServiceIoThread hk out
  | check out =>
    refine onCheckCb_conns signalKept_conns.toKeptByUse hi hk (fun cmd _ _ _ => ⟨hk, fun l hl _ => ?_⟩)
      (fun cmd i list l _ hl => ?_) ?_
    · exact hk.stray hl
    · refine hk.of_eq (Nat.le_trans (Nat.le_succ _) (Nat.le_of_eq hl.count.symm)) ?_ hl.ptrs
      rw [hl.handles, Function.update_of_ne (Nat.ne_of_lt hk.lt)]
    · intro cmd i h' hh _
      have hne := hk.ne_client hh
      refine hk.of_eq (Nat.le_refl _) ?_ rfl
      simp [Io.closedBy, Io.uvClose, Io.setHandle, Io.setLink, Function.update_of_ne hne]
  | inbound status out =>
    exact onInboundConnectionCb_conns signalKept_conns.toKeptByUse hi hk (fun l hl _ => hk.stray hl)
      (fun _ _ _ _ _ _ _ => trivial) status
  | outbound req status out =>
    simp only [IoRun.ready, Bool.and_eq_true, decide_eq_true_eq] at hr
    refine onOutboundConnectionCb_conns signalKept_conns.toKeptByUse hi hs hr.1.1 hr.2 (fun h' hh => ?_) status out
    exact (hk.of_eq (l := io.setConnectReq req fun r => { r with pending := false })
      (Nat.le_refl _) rfl rfl).setHandle h'
      fun _ => ⟨rfl, rfl, .inl rfl⟩
  | read handle out =>
    simp only [IoRun.ready, Bool.and_eq_true, decide_eq_true_eq] at hr
    exact uvRead_conns signalKept_conns.toKeptByUse hcan hi hs hr.1.1 hk hr.2 out
  | close handle =>
    simp only [IoRun.ready, Bool.and_eq_true, decide_eq_true_eq, Bool.not_eq_true'] at hr
    exact uvFinishClose_conns signalKept_conns hcan hi hs hr.1.1 hk hr.2.1 hr.2.2
  | send req => exact send_conns (n := n) (E := E) signalKept_conns.toKeptByUse hk req
  | timer =>
    refine onTimerCb_path hk hk fun l hl => ?_
    rcases hl.handle h with he | ⟨-, -, he⟩
    · exact hk.of_eq (Nat.le_of_eq (by rw [hl.rest])) he hl.ptrs
    · have hc : SignalKept h (io.uvClose h .null) := hk.setHandle h fun _ => ⟨rfl, rfl, .inr rfl⟩
      exact hc.of_eq (Nat.le_of_eq (by rw [hl.rest]; rfl)) he hl.ptrs
  | signal isSigint =>
    simp only [KeepsSignal, IoRun.code, onSigintCb, svlServiceStopSignal, Code.path_bind, Code.path_modify,
      Code.path_ite, Code.path_op, Code.path_pure]
    have hk' : SignalKept h (onHandle (·.uvSignal) (fun io h => io.setHandle h fun x =>
      { x with started := false }) io) := by
      unfold onHandle
      split
      · exact hk
      · exact hk.setHandle _ fun _ => ⟨rfl, rfl, .inl rfl⟩
    exact ⟨fun _ => hk', fun _ => ⟨hk', fun _ _ => ⟨fun _ => hk', fun _ => ⟨hk', fun _ _ => hk'⟩⟩⟩⟩
  | uvRunReturn =>
    simp only [KeepsSignal, IoRun.code, Code.path_bind, Code.path_modify]
    exact signalKept_loop.ioThreadClose (hk.of_eq (Nat.le_refl _) rfl rfl)

/-- No start-up comes to acquire its signal handle. -/
def noSignalHandle : ServiceCond where
  run₁ d _ _ _ := match d with
    | .thread out => !decide out.AcquiresSignal
    | _ => true

/-- Each block and each handle of the thread has been released or is pointed to once, and not both. -/
structure Held (io : Io) : Prop where
  off : io.phase = .off
  handles : ∀ h < io.handleCount, (io.handles h).kind ≠ .tcpClient →
    (io.handles h).released + [io.tcpHandle, io.uvAcceptTimer, io.uvPrep, io.uvCheck].count (some h) = 1
  blocks : ∀ b < io.blockCount, (io.blocks b).released + [io.uvLoop, io.sendReq].count (some b) = 1
  lt : ∀ h, io.handleCount ≤ h → [io.tcpHandle, io.uvAcceptTimer, io.uvPrep, io.uvCheck].count (some h) = 0
  blockLt : ∀ b, io.blockCount ≤ b → [io.uvLoop, io.sendReq].count (some b) = 0

private theorem count_point (xs ys : List (Option Nat)) (b c : Nat) : (xs ++ some c :: ys).count (some b) =
    (xs ++ none :: ys).count (some b) + if c = b then 1 else 0 := by
  simp only [List.count_append, List.count_cons, beq_iff_eq, Option.some.injEq, reduceCtorEq, if_false]
  omega

private theorem Held.acquire (hd : Held io) (kind : HandleKind) (xs ys : List (Option Nat))
    {p₁ p₂ p₃ p₄ p₅ : Option Nat} (hold : [io.tcpHandle, io.uvAcceptTimer, io.uvPrep, io.uvCheck] = xs ++ none :: ys)
    (hnew : [p₁, p₂, p₃, p₄] = xs ++ some io.handleCount :: ys) :
    Held { io.acquireHandle kind with
      tcpHandle := p₁, uvAcceptTimer := p₂, uvPrep := p₃, uvCheck := p₄, uvSignal := p₅ } := by
  have hlt := hd.lt
  have hone := hd.handles
  rw [hold] at hlt hone
  refine ⟨hd.off, fun h hle hk => ?_, hd.blocks, fun h hle => ?_, hd.blockLt⟩
  · rw [hnew, count_point]
    by_cases he : h = io.handleCount
    · subst he
      simp only [Io.acquireHandle, Function.update_self, hlt _ (Nat.le_refl _), if_true]
    · simp only [Io.acquireHandle, Function.update_of_ne he, if_neg (Ne.symm he), Nat.add_zero] at hk ⊢
      exact hone h (Nat.lt_of_le_of_ne (Nat.le_of_lt_succ hle) he) hk
  · have hgt : io.handleCount < h := hle
    rw [hnew, count_point, hlt h (Nat.le_of_lt hgt), if_neg (Nat.ne_of_lt hgt)]

private theorem Held.acquireBlock (hd : Held io) (hl : io.uvLoop = none) :
    Held { io.acquireBlock .uvLoop with uvLoop := some io.blockCount } := by
  have hlt := hd.blockLt
  have hone := hd.blocks
  rw [hl] at hlt hone
  refine ⟨hd.off, hd.handles, fun b hle => ?_, hd.lt, fun b hle => ?_⟩
  · refine (congrArg (_ + ·) (count_point [] [io.sendReq] b io.blockCount)).trans ?_
    by_cases he : b = io.blockCount
    · subst he
      simp only [Io.acquireBlock, Function.update_self, List.nil_append, hlt _ (Nat.le_refl _), if_true]
    · simp only [Io.acquireBlock, Function.update_of_ne he, List.nil_append, if_neg (Ne.symm he), Nat.add_zero]
      exact hone b (Nat.lt_of_le_of_ne (Nat.le_of_lt_succ hle) he)
  · have hgt : io.blockCount < b := hle
    refine (count_point [] [io.sendReq] b io.blockCount).trans ?_
    rw [List.nil_append, hlt b (Nat.le_of_lt hgt), if_neg (Nat.ne_of_lt hgt)]

private theorem onHandle_releaseHandle (p : Io → Option Nat) (io : Io) : onHandle p Io.releaseHandle io =
    { io with handles := fun h =>
        if (p io = some h) then { io.handles h with released := (io.handles h).released + 1 } else io.handles h } := by
  cases hp : p io with
  | none => simp [onHandle, hp]
  | some h =>
    simp only [onHandle, hp, Io.releaseHandle, Io.setHandle, Option.some.injEq]
    congr 1
    funext h'
    by_cases he : h' = h
    · subst he
      simp
    · simp [he, Ne.symm he]

private theorem onHandle_releaseBlock (p : Io → Option Nat) (io : Io) : onHandle p Io.releaseBlock io =
    { io with blocks := fun b =>
        if (p io = some b) then { io.blocks b with released := (io.blocks b).released + 1 } else io.blocks b } := by
  cases hp : p io with
  | none => simp [onHandle, hp]
  | some b =>
    simp only [onHandle, hp, Io.releaseBlock, Option.some.injEq]
    congr 1
    funext b'
    by_cases he : b' = b
    · subst he
      simp
    · simp [he, Ne.symm he]

/-- The clean-up releases the listener, the timer, prepare and check. -/
theorem releaseAll_handles (io : Io) (h : Nat) : ((releaseAll io).handles h).kind = (io.handles h).kind ∧
    ((releaseAll io).handles h).released = (io.handles h).released +
      [io.tcpHandle, io.uvAcceptTimer, io.uvPrep, io.uvCheck].count (some h) := by
  simp only [releaseAll, onHandle_releaseHandle, onHandle_releaseBlock, List.count_cons, List.count_nil, beq_iff_eq]
  by_cases h₁ : io.uvCheck = some h <;> by_cases h₂ : io.uvPrep = some h <;> by_cases h₃ : io.uvAcceptTimer = some h <;>
    by_cases h₄ : io.tcpHandle = some h <;> simp [h₁, h₂, h₃, h₄]

theorem releaseAll_blocks (io : Io) (b : Nat) : ((releaseAll io).blocks b).released = (io.blocks b).released +
    [io.uvLoop, io.sendReq].count (some b) := by
  simp only [releaseAll, onHandle_releaseHandle, onHandle_releaseBlock, List.count_cons, List.count_nil, beq_iff_eq]
  by_cases h₁ : io.uvLoop = some b <;> by_cases h₂ : io.sendReq = some b <;> simp [h₁, h₂]

/-- Between two start-ups that fail before the signal handle -/
structure NothingHeld (io : Io) : Prop where
  off : io.phase = .off
  released : io.Released
  sendReq : io.sendReq = none

private theorem Held.released (hd : Held io) : NothingHeld (releaseAll io) := by
  have heq : (releaseAll io).handleCount = io.handleCount ∧ (releaseAll io).blockCount = io.blockCount ∧
      (releaseAll io).phase = io.phase := by
    simp [releaseAll, onHandle_releaseHandle, onHandle_releaseBlock]
  refine ⟨heq.2.2.trans hd.off, ⟨fun h hlt hk => ?_, fun b hlt => ?_, rfl⟩, rfl⟩
  · rw [(releaseAll_handles io h).1] at hk
    rw [(releaseAll_handles io h).2]
    exact hd.handles h (heq.1 ▸ hlt) hk
  · rw [releaseAll_blocks]
    exact hd.blocks b (heq.2.1 ▸ hlt)

/-- A start-up that fails before its signal handle releases what it has acquired. -/
private theorem thread_released (hn : NothingHeld io) {out : StartOut} (hout : ¬ out.AcquiresSignal) :
    (svlServiceIoThread out).path can (fun _ _ => True) (fun l _ => NothingHeld l) io := by
  have hclean : ∀ l : Io, Held l → (ioThreadCleanup uvEnomem).path can (fun _ _ => True)
    (fun l _ => NothingHeld l) l := by
    intro l hl
    simp only [ioThreadCleanup, Code.path_bind, Code.path_ite, Code.path_op, Code.path_modify]
    exact ⟨fun _ => ⟨trivial, fun _ _ => ⟨trivial, fun _ _ => hl.released⟩⟩,
      fun _ => ⟨trivial, fun _ _ => hl.released⟩⟩
  obtain ⟨hoff, ⟨hh, hb, -⟩, hsend⟩ := hn
  have hcases : out.uvLoop = false ∨ out.uvLoop = true ∧ (out.tcpHandle = false ∨ out.tcpHandle = true ∧
      (out.uvAcceptTimer = false ∨ out.uvAcceptTimer = true ∧ (out.uvPrep = false ∨ out.uvPrep = true ∧
      (out.uvCheck = false ∨ out.uvCheck = true ∧ out.uvSignal = false)))) := by
    simp only [StartOut.AcquiresSignal, StartOut.acquired, List.take, List.forall_mem_cons, List.not_mem_nil,
      false_implies, implies_true, and_true] at hout
    simp only [← Bool.not_eq_true]
    tauto
  -- what the thread holds after each acquisition
  let io₀ : Io := { io with
    loop := io.loop + 1, loopIsInit := false, uvLoop := none, tcpHandle := none, uvAcceptTimer := none
    uvPrep := none, uvCheck := none }
  have d₀ : Held io₀ := ⟨hoff, by simpa [io₀] using hh, by simpa [io₀, hsend] using hb, by simp [io₀],
    by simp [io₀, hsend]⟩
  let io₁ : Io := { io₀.acquireBlock .uvLoop with uvLoop := some io₀.blockCount }
  have d₁ : Held io₁ := d₀.acquireBlock rfl
  let io₂ : Io := { io₁.acquireHandle .tcpListen with tcpHandle := some io₁.handleCount }
  have d₂ : Held io₂ := d₁.acquire .tcpListen [] _ rfl rfl
  let io₃ : Io := { io₂.acquireHandle .timer with uvAcceptTimer := some io₂.handleCount }
  have d₃ : Held io₃ := d₂.acquire .timer [_] _ rfl rfl
  let io₄ : Io := { io₃.acquireHandle .prepare with uvPrep := some io₃.handleCount }
  have d₄ : Held io₄ := d₃.acquire .prepare [_, _] _ rfl rfl
  let io₅ : Io := { io₄.acquireHandle .check with uvCheck := some io₄.handleCount }
  have d₅ : Held io₅ := d₄.acquire .check [_, _, _] _ rfl rfl
  have d₆ : Held { io₅ with uvSignal := none } := ⟨d₅.off, d₅.handles, d₅.blocks, d₅.lt, d₅.blockLt⟩
  simp only [svlServiceIoThread, Code.path_bind, Code.path_get, Code.path_modify, Code.path_set, Code.path_ite]
  clear hoff hsend
  rcases hcases with h₁ | ⟨h₁, h₂ | ⟨h₂, h₃ | ⟨h₃, h₄ | ⟨h₄, h₅ | ⟨h₅, h₆⟩⟩⟩⟩⟩
  all_goals
    simp only [startLines, Guarded.runAll, Guarded.acquire, *, Bool.not_false, Bool.not_true,
      Bool.false_eq_true, if_true, if_false, Option.getD_none]
  · exact ⟨fun _ => hclean _ d₀, by simp⟩
  · exact ⟨fun _ => hclean _ d₁, by simp⟩
  · exact ⟨fun _ => hclean _ d₂, by simp⟩
  · exact ⟨fun _ => hclean _ d₃, by simp⟩
  · exact ⟨fun _ => hclean _ d₄, by simp⟩
  · exact ⟨fun _ => hclean _ d₆, by simp⟩

private theorem nothingHeld_setup (n : Nat) : NothingHeld (.setup n) :=
  ⟨rfl, ⟨fun _ h => absurd h (by simp [Io.setup]), fun _ h => absurd h (by simp [Io.setup]), rfl⟩, rfl⟩

/-- In a run none of whose start-ups comes to its signal handle, the thread has released all whenever it rests. -/
theorem released_of_noSignalHandle (h : ReachWhen noSignalHandle n c) (hrest : c.fst.view.next = none) :
    c.fst.view.loc.Released := by
  have hI : c.fst.view.next = none → NothingHeld c.fst.view.loc := by
    refine Machine.Reach.invariant₁ (I := fun v => v.next = none → NothingHeld v.loc) (K := fun _ _ _ => True)
      (fun _ _ => trivial) (fun _ => nothingHeld_setup n) ?_ h
    rintro d l ⟨sh, v, -, hr, hc⟩ hn
    have hn := hn rfl
    have hoff : l.phase ≠ .running := by
      rw [hn.off]
      simp
    cases d with
    | thread out =>
      have hout : ¬ out.AcquiresSignal := by simpa [noSignalHandle] using hc
      exact Prog.path_mono (fun _ _ _ h => absurd h (by simp)) (fun _ _ h _ => h) (thread_released hn hout)
    | _ =>
      simp only [service, IoRun.ready, Bool.and_eq_true, decide_eq_true_eq] at hr
      exact absurd (by tauto) hoff
  exact (hI hrest).released

/-- Once a start-up has acquired its signal handle, the thread never has released everything again. -/
theorem not_released_of_acquiresSignal {c₁ c₂ : ServiceConfig} {out : StartOut} (hc : Reach n c)
    (hs : service.step c (.run₁ (.thread out)) = some c₁) (hout : out.AcquiresSignal)
    (h : service.Reach .any c₁ c₂) : ¬ c₂.fst.view.loc.Released := by
  have hE : Premises.In ⟨False, False, False⟩ .any := ⟨False.elim, False.elim, False.elim, False.elim⟩
  have hK : ∀ c', service.Reach .any c₁ c' → IoInv n ⟨False, False, False⟩ c'.fst.view.loc ∧
      (c'.fst.view.next = none → Settled c'.fst.view.loc) :=
    fun c' hc' => ioInv hE ((Machine.Reach.step _ hc (Cond.any_allows _ _) hs).trans hc')
  obtain ⟨l, -, -, rfl⟩ := Machine.step_run₁ hs
  have hstart : KeepsSignal (service.Can₁ .any fun _ v _ => IoInv n ⟨False, False, False⟩ v.loc ∧
      (v.next = none → Settled v.loc)) (l.handleCount + 4) (svlServiceIoThread out) l := thread_acquiresSignal hout
  have hpath := Machine.Reach.path₁ (M := service) (I := fun v => SignalKept (l.handleCount + 4) v.loc)
    (K := fun _ v _ => IoInv n ⟨False, False, False⟩ v.loc ∧ (v.next = none → Settled v.loc)) hK hstart ?_ h
  · exact (Machine.path_view (I := fun v => SignalKept (l.handleCount + 4) v.loc) hpath).not_released
  · rintro d l' ⟨sh, v, ⟨hi, hset⟩, hr, -⟩ hk
    exact IoRun.code_keepsSignal (hE.promised _) hi (hset rfl) hk hr

/-- The thread releases everything it acquires as long as no start-up comes to its signal handle, and never again once
one has. -/
theorem thread_released_iff : (∀ c, ReachWhen noSignalHandle n c → c.fst.view.next = none → c.fst.view.loc.Released) ∧
    ∀ c out c₁ c₂, Reach n c → service.step c (.run₁ (.thread out)) = some c₁ → out.AcquiresSignal →
      service.Reach .any c₁ c₂ → ¬ c₂.fst.view.loc.Released :=
  ⟨fun _ h hrest => released_of_noSignalHandle h hrest,
    fun _ _ _ _ hc hs hout h => not_released_of_acquiresSignal hc hs hout h⟩

/-- The check handle cannot be acquired: the loop and three handles are released. -/
theorem thread_released_check : ∃ c, ReachWhen noSignalHandle 1 c ∧ c.sh.thread = .ended ∧
    c.fst.view.loc.handleCount = 3 ∧ c.fst.view.loc.Released := by
  obtain ⟨c, hc, hrest, hended, hcount⟩ := exists_reachWhen noSignalHandle 1
    [.run₂ (.start 0), .op₂, .op₂, .op₂, .run₁ (.thread { uvCheck := false }), .op₁, .op₁]
    (fun c => c.fst.view.next = none ∧ c.sh.thread = .ended ∧ c.fst.view.loc.handleCount = 3) (by decide +kernel)
  exact ⟨c, hc, hended, hcount, thread_released_iff.1 c hc hrest⟩

/-- A service is started and stopped, and the thread has ended: the signal handle is still there. -/
theorem signal_not_released : ∃ c, Reach 1 c ∧ c.fst.view.next = none ∧ c.sh.thread = .ended ∧
    (c.fst.view.loc.handles 4).kind = .signal ∧ (c.fst.view.loc.handles 4).released = 0 ∧
    ¬ c.fst.view.loc.Released := by
  obtain ⟨c, hc, hrest, hended, hlt, hk, hr⟩ := exists_reachWhen .any 1
    (.flatten [startUp, [.run₂ (.stop 0), .op₂, .op₂, .run₁ .timer, .op₁],
      [.run₁ (.close 0), .run₁ (.close 1), .run₁ (.close 2), .run₁ (.close 3), .run₁ (.close 4)],
      [.run₁ .uvRunReturn, .op₁]])
    (fun c => c.fst.view.next = none ∧ c.sh.thread = .ended ∧ 4 < c.fst.view.loc.handleCount ∧
      (c.fst.view.loc.handles 4).kind = .signal ∧ (c.fst.view.loc.handles 4).released = 0)
    (by decide +kernel)
  refine ⟨c, hc, hrest, hended, hk, hr, fun hrel => ?_⟩
  have hone := hrel.handles 4 hlt (by rw [hk]; simp)
  rw [hr] at hone
  cases hone

end Runs

end ServerLynx
