import ServerLynx.Connections
import ServerLynx.Shutdown

/-!
# What is in the loop

Inside `uv_run`, a handle that libuv has in its loop and that is not closing is one of the five that `priv` points to
or the TCP handle of a link in use.  So nothing is left in the loop that neither `on_timer_cb` nor the callbacks of a
connection can close.
-/

namespace ServerLynx

open Threads

variable {n : Nat} {E : Premises} {io l : Io} {h i : Nat} {can : Io → (o : Op) → o.Res → Prop} {Q : Pushed → Prop}

/-- Each handle of the loop that is not closing is registered. -/
structure NoOrphan (io : Io) : Prop where
  past : ∀ h, (io.handles h).loop ≤ io.loop
  registered : io.phase = .running → ∀ h, (io.handles h).isInit = true → (io.handles h).loop = io.loop →
    (io.handles h).closing = none → io.Registered h

/-! ### The moves -/

/-- The handle `y`, which was `x`, is in the loop only if `x` was, and has the link that `x` had. -/
structure Handle.InPlace (x y : Handle) : Prop where
  loop : y.loop = x.loop
  isInit : y.isInit = true → x.isInit = true
  closing : y.closing = none → x.closing = none
  holds : y.closing = none → ∀ i, x.Holds i → y.Holds i

theorem Handle.InPlace.refl (x : Handle) : x.InPlace x := ⟨rfl, fun h => h, fun h => h, fun _ _ h => h⟩

/-- The handle keeps all that matters to the loop. -/
theorem Handle.InPlace.of_eq {x y : Handle} (hk : y.kind = x.kind) (hl : y.loop = x.loop) (hd : y.data = x.data)
    (hi : y.isInit = x.isInit) (hc : y.closing = x.closing) (hr : y.released = x.released) : x.InPlace y :=
  ⟨hl, fun h => hi ▸ h, fun h => hc ▸ h, fun _ i => by
    simp only [Handle.Holds, Handle.Given, hk, hd, hi, hc, hr]
    exact id⟩

theorem Handle.Evolves.inPlace {x y : Handle} (he : x.Evolves y) : x.InPlace y where
  loop := he.loop
  isInit h := he.isInit ▸ h
  closing hy := by
    by_contra hx
    exact he.closing hx hy
  holds _ i hh := ⟨he.given i hh.1, he.released.trans hh.2⟩

namespace NoOrphan

/-- The loop is as it was, and each handle is in place, or new and closing or with a link. -/
theorem frame (hn : NoOrphan io) (hs : SameLoop io l)
    (hh : ∀ h, (io.handles h).InPlace (l.handles h) ∨ (l.handles h).loop ≤ io.loop ∧
      ((l.handles h).isInit = true → (l.handles h).closing = none → l.Registered h)) : NoOrphan l where
  past h := by
    rw [hs.loop]
    rcases hh h with hp | hp
    · exact hp.loop ▸ hn.past h
    · exact hp.1
  registered hrun h hinit hl hcl := by
    have hrun' : io.phase = .running := by
      rcases hs.phase with he | he
      · exact he ▸ hrun
      · exact absurd (he.symm.trans hrun) (by simp)
    rcases hh h with hp | hp
    · refine (hn.registered hrun' h (hp.isInit hinit) ?_ (hp.closing hcl)).imp (fun hm => hs.ptrs ▸ hm) ?_
      · rw [← hp.loop, hl, hs.loop]
      · exact fun ⟨i, hi⟩ => ⟨i, hp.holds hcl i hi⟩
    · exact hp.2 hinit hcl

/-- One handle changes. -/
theorem change (hn : NoOrphan io) (hs : SameLoop io l) (h : Nat) (hh : ∀ h', h' ≠ h → l.handles h' = io.handles h')
    (hx : (io.handles h).InPlace (l.handles h) ∨ (l.handles h).loop ≤ io.loop ∧
      ((l.handles h).isInit = true → (l.handles h).closing = none → l.Registered h)) : NoOrphan l := by
  refine hn.frame hs fun h' => ?_
  by_cases he : h' = h
  · exact he ▸ hx
  · exact .inl (hh h' he ▸ .refl _)

/-- A handle is made. -/
theorem made (hn : NoOrphan io) (hs : SameLoop io l) {x : Handle}
    (hh : l.handles = Function.update io.handles io.handleCount x) (hl : x.loop = io.loop)
    (hx : x.isInit = true → x.closing = none → ∃ i, x.Holds i) : NoOrphan l := by
  refine hn.change hs io.handleCount (fun h' hne => by rw [hh, Function.update_of_ne hne]) (.inr ?_)
  rw [Io.Registered, hh, Function.update_self]
  exact ⟨Nat.le_of_eq hl, fun hi hc => .inr (hx hi hc)⟩

theorem onConn (hn : NoOrphan io) (hl : OnConn Q h i io l) : NoOrphan l :=
  hn.change hl.toSameLoop h hl.handles (.inl hl.handle.inPlace)

theorem stray (hn : NoOrphan io) {cmd : Option Cmd} (hl : MadeStray cmd io l) : NoOrphan l := by
  obtain ⟨x, hx, -, hh⟩ := hl.handles
  exact hn.made hl.toSameLoop hh hx.loop fun hi hc => absurd ((hx.closing hi).symm.trans hc) (by simp)

/-- The handles of the loop are closed. -/
theorem closes (hn : NoOrphan io) (hc : Closes io.loopPtrs io l) : NoOrphan l := by
  refine hn.frame ?_ fun h => ?_
  · rw [hc.rest]
    exact ⟨rfl, rfl, rfl, rfl, rfl, .inl rfl⟩
  · rcases hc.handle h with he | ⟨-, -, he⟩
    · exact .inl (he ▸ .refl _)
    · refine .inr (he ▸ ⟨?_, fun _ hcl => absurd hcl (by simp [Io.uvClose])⟩)
      simpa [Io.uvClose] using hn.past h

theorem attached (hn : NoOrphan io) {l : Io} {cmd : Option Cmd} (hs : SameLoop io l) {c : Bool}
    (hh : l.handles = Function.update io.handles io.handleCount
      { kind := .tcpClient, loop := io.loop, isInit := true, data := some i, connecting := c, openCmd := cmd }) :
    NoOrphan l := hn.made hs hh rfl fun _ _ => ⟨i, ⟨rfl, rfl, rfl, .inr ⟨rfl, rfl⟩⟩, rfl⟩

end NoOrphan

/-! ### The callbacks -/

private theorem noOrphan_conns : KeptByConns n E (fun _ => True) NoOrphan where
  same hn hs := hn.frame hs.toSameLoop fun h => .inl (hs.handles ▸ .refl _)
  conn hn _ hl := hn.onConn hl
  closed {io l h i} hn hh hc hl := by
    obtain ⟨l', list, log, refused, hl', -, rfl⟩ := hl
    refine (hn.onConn hl').change ⟨rfl, rfl, rfl, rfl, rfl, .inl rfl⟩ h
      (fun h' hne => Function.update_of_ne hne _ _) (.inr ?_)
    rw [Io.releaseHandle, Io.setHandle_handles_self]
    exact ⟨(hn.onConn hl').past h, fun _ hcl => absurd hcl (hl'.handle.closing hc)⟩
  stray _ hn hl := hn.stray hl
  attach _ hn _ := hn.attached ⟨rfl, rfl, rfl, rfl, rfl, .inl rfl⟩ rfl
  finish {io h} hn _ := hn.change ⟨rfl, rfl, rfl, rfl, rfl, .inl rfl⟩ h (fun h' hne => Function.update_of_ne hne _ _)
    (.inl (by rw [Io.setHandle_handles_self]; exact .of_eq rfl rfl rfl rfl rfl rfl))
  release {io h} hn hc := by
    refine hn.change ⟨rfl, rfl, rfl, rfl, rfl, .inl rfl⟩ h (fun h' hne => Function.update_of_ne hne _ _) (.inr ?_)
    rw [Io.releaseHandle, Io.setHandle_handles_self]
    exact ⟨hn.past h, fun _ hcl => absurd (hc.symm.trans hcl) (by simp)⟩

private abbrev KeepsRegistered (can : Io → (o : Op) → o.Res → Prop) (m : IoM Unit) (io : Io) : Prop :=
  KeepsConns can NoOrphan m io

private theorem check_noOrphan (hi : IoInv n E io) (hn : NoOrphan io) (out : CmdOut) :
    KeepsRegistered can (onCheckCb out) io := by
  refine onCheckCb_conns noOrphan_conns.toKeptByUse hi hn (fun _ _ _ _ => ⟨hn, fun l hl _ => hn.stray hl⟩)
    (fun _ _ _ _ _ hl => hn.attached hl.toSameLoop hl.handles) fun cmd i h _ _ => ?_
  refine hn.change ⟨rfl, rfl, rfl, rfl, rfl, .inl rfl⟩ h (fun h' hne => ?_) (.inr ?_)
  · simp [Io.closedBy, Io.uvClose, Io.setHandle, Io.setLink, Function.update_of_ne hne]
  · exact ⟨by simpa [Io.closedBy, Io.uvClose, Io.setLink] using hn.past h, by simp [Io.closedBy, Io.uvClose]⟩

private theorem signal_noOrphan (hn : NoOrphan io) (isSigint : Bool) :
    KeepsRegistered can (IoRun.signal isSigint).code io := by
  simp only [KeepsRegistered, KeepsConns, IoRun.code, onSigintCb, svlServiceStopSignal, onHandle, Code.path_bind,
    Code.path_modify, Code.path_ite, Code.path_op, Code.path_pure]
  have hn' : NoOrphan (onHandle (·.uvSignal) (fun io h => io.setHandle h fun x => { x with started := false }) io) := by
    simp only [onHandle]
    cases io.uvSignal with
    | none => exact hn
    | some h =>
      refine hn.change ⟨rfl, rfl, rfl, rfl, rfl, .inl rfl⟩ h (fun h' hne => Function.update_of_ne hne _ _) (.inl ?_)
      rw [Io.setHandle_handles_self]
      exact .of_eq rfl rfl rfl rfl rfl rfl
  exact ⟨fun _ => hn', fun _ => ⟨hn', fun _ _ => ⟨fun _ => hn', fun _ => ⟨hn', fun _ _ => hn'⟩⟩⟩⟩

/-! ### Start-up and clean-up -/

/-- Outside `uv_run` nothing is asked of the handles. -/
structure Resting (io : Io) : Prop where
  off : io.phase = .off
  past : ∀ h, (io.handles h).loop ≤ io.loop

/-- The handles of the loop so far are known to `priv`. -/
def Pointed (ptrs : List (Option Nat)) (io : Io) : Prop :=
  ∀ h, (io.handles h).isInit = true → (io.handles h).loop = io.loop → some h ∈ ptrs

namespace Resting

theorem noOrphan (hr : Resting io) : NoOrphan io := ⟨hr.past, fun hrun => absurd (hr.off.symm.trans hrun) (by simp)⟩

theorem same (hr : Resting io) (hp : l.phase = io.phase) (hl : l.loop = io.loop) (hh : l.handles = io.handles) :
    Resting l := ⟨hp.trans hr.off, fun h => by rw [hh, hl]; exact hr.past h⟩

theorem acquired (hr : Resting io) (kind : HandleKind) : Resting (io.acquireHandle kind) := by
  refine ⟨hr.off, fun h => ?_⟩
  simp only [Io.acquireHandle]
  by_cases he : h = io.handleCount
  · simp [he]
  · rw [Function.update_of_ne he]
    exact hr.past h

theorem onHandle (hr : Resting io) (p : Io → Option Nat) {f : Handle → Handle} (hf : ∀ x, (f x).loop = x.loop) :
    Resting (ServerLynx.onHandle p (fun io h => io.setHandle h f) io) := by
  unfold ServerLynx.onHandle
  split
  · exact hr
  · rename_i h _
    refine ⟨hr.off, fun h' => ?_⟩
    by_cases he : h' = h
    · subst he
      rw [Io.setHandle_handles_self, hf]
      exact hr.past h'
    · rw [show (io.setHandle h f).handles h' = io.handles h' from Function.update_of_ne he _ _]
      exact hr.past h'

theorem startLines (out : StartOut) (count : Nat) :
    ∀ g ∈ startLines out count, ∀ io, Resting io → Resting (g.onFail io) ∧ Resting (g.onOk io) := by
  intro g hg io hr
  have hsame : ∀ {l : Io}, l.phase = io.phase → l.loop = io.loop → l.handles = io.handles → Resting l := hr.same
  have hnew : ∀ {l : Io} (kind : HandleKind), l.phase = io.phase → l.loop = io.loop →
      l.handles = (io.acquireHandle kind).handles → Resting l := fun kind h₁ h₂ h₃ => (hr.acquired kind).same h₁ h₂ h₃
  simp only [ServerLynx.startLines, List.mem_cons, List.not_mem_nil, or_false] at hg
  rcases hg with rfl | rfl | rfl | rfl | rfl | rfl | rfl | rfl | rfl | rfl | rfl | rfl | rfl | rfl | rfl | rfl | rfl |
    rfl
  all_goals simp only [Guarded.acquire, Guarded.call, Guarded.quiet, id]
  · exact ⟨hsame rfl rfl rfl, hsame rfl rfl rfl⟩
  · exact ⟨hsame rfl rfl rfl, hnew .tcpListen rfl rfl rfl⟩
  · exact ⟨hsame rfl rfl rfl, hnew .timer rfl rfl rfl⟩
  · exact ⟨hsame rfl rfl rfl, hnew .prepare rfl rfl rfl⟩
  · exact ⟨hsame rfl rfl rfl, hnew .check rfl rfl rfl⟩
  · exact ⟨hsame rfl rfl rfl, hnew .signal rfl rfl rfl⟩
  · exact ⟨hsame rfl rfl rfl, hsame rfl rfl rfl⟩
  · exact ⟨hr, hsame rfl rfl rfl⟩
  · exact ⟨hr, hsame rfl rfl rfl⟩
  · exact ⟨hr, hsame rfl rfl rfl⟩
  all_goals exact ⟨hr, hr.onHandle _ fun _ => rfl⟩

theorem listenLines (out : StartOut) :
    ∀ g ∈ listenLines out, ∀ io, Resting io → Resting (g.onFail io) ∧ Resting (g.onOk io) := by
  intro g hg io hr
  simp only [ServerLynx.listenLines, List.mem_cons, List.not_mem_nil, or_false] at hg
  rcases hg with rfl | rfl | rfl | rfl | rfl
  · exact ⟨hr, hr.onHandle _ fun _ => rfl⟩
  · exact ⟨hr, hr⟩
  · exact ⟨hr, hr⟩
  · exact ⟨hr, hr.onHandle _ fun _ => rfl⟩
  · exact ⟨hr, hr⟩

theorem releaseAll (hr : Resting io) : Resting (releaseAll io) := by
  have hblock : ∀ {io : Io}, Resting io → ∀ p : Io → Option Nat,
      Resting (ServerLynx.onHandle p Io.releaseBlock io) := by
    intro io hr p
    unfold ServerLynx.onHandle
    split
    · exact hr
    · exact hr.same rfl rfl rfl
  have hhandle : ∀ {io : Io}, Resting io → ∀ p : Io → Option Nat,
      Resting (ServerLynx.onHandle p Io.releaseHandle io) := fun hr p => hr.onHandle p fun _ => rfl
  have h₁ := hhandle (hhandle (hhandle (hhandle hr (·.uvCheck)) (·.uvPrep)) (·.uvAcceptTimer)) (·.tcpHandle)
  exact (hblock (hblock h₁ (·.uvLoop)) (·.sendReq)).same rfl rfl rfl

theorem walk (hr : Resting io) : Resting (uvWalk io) := by
  refine ⟨hr.off, fun h => ?_⟩
  simp only [uvWalk]
  split
  · simpa [Io.uvClose] using hr.past h
  · exact hr.past h

theorem ioThreadCleanup (hr : Resting io) (ret : Int) : KeepsRegistered can (ioThreadCleanup ret) io := by
  have hr' := hr.releaseAll.noOrphan
  simp only [ServerLynx.ioThreadCleanup, Code.path_bind, Code.path_ite, Code.path_op, Code.path_modify]
  exact ⟨fun _ => ⟨hr.noOrphan, fun _ _ => ⟨hr', fun _ _ => hr'⟩⟩, fun _ => ⟨hr', fun _ _ => hr'⟩⟩

theorem ioThreadClose (hr : Resting io) : KeepsRegistered can ioThreadClose io := by
  have hinit : ∀ {l : Io}, Resting l → Resting { l with loopIsInit := false } := fun hl => hl.same rfl rfl rfl
  simp only [ServerLynx.ioThreadClose, Code.path_bind, Code.path_ite, Code.path_modify]
  refine closeLoop_path (fun _ => ⟨by simp, fun _ => (hinit hr).ioThreadCleanup 0⟩) fun hne => ⟨fun _ => ?_,
    fun h => absurd hne h⟩
  exact closeLoop_path (fun _ => ⟨by simp, fun _ => (hinit hr.walk).ioThreadCleanup 0⟩) fun hne =>
    ⟨fun _ => hr.walk.ioThreadCleanup _, fun h => absurd hne h⟩

end Resting

/-- Once the lines before the listener have succeeded, the handles in the new loop are those of the timer, of prepare,
of check and of the signal. -/
private theorem startLines_pointed {out : StartOut} {count : Nat} {ret ret' : Int} {io' : Io}
    (hold : ∀ h, (io.handles h).loop ≠ io.loop)
    (hrun : Guarded.runAll (startLines out count) ret io = (true, ret', io')) :
    Pointed [io'.uvAcceptTimer, io'.uvPrep, io'.uvCheck, io'.uvSignal] io' := by
  rw [Guarded.runAll_eq_true hrun]
  simp only [startLines, Guarded.acquire, Guarded.call, Guarded.quiet, allocBlock, allocHandle, ServerLynx.onHandle,
    Io.acquireBlock, Io.acquireHandle, Io.uvInit, Io.uvStart, Io.setHandle, List.foldl]
  intro h hinit hl
  by_contra hm
  simp only [List.mem_cons, Option.some.injEq, List.not_mem_nil, or_false, not_or] at hm
  obtain ⟨h₁, h₂, h₃, h₄⟩ := hm
  by_cases h₀ : h = io.handleCount
  · simp [h₀, Nat.add_assoc] at hinit
  · simp [Function.update_apply, h₀, h₁, h₂, h₃, h₄] at hl
    exact hold h hl

private theorem listenLines_pointed (out : StartOut) : ∀ g ∈ listenLines out, ∀ io, Pointed io.loopPtrs io →
    Pointed (g.onFail io).loopPtrs (g.onFail io) ∧ Pointed (g.onOk io).loopPtrs (g.onOk io) := by
  intro g hg io hp
  have hset : ∀ {f : Handle → Handle}, (∀ x, (f x).loop = x.loop) →
      Pointed (onHandle (·.tcpHandle) (fun io h => io.setHandle h f) io).loopPtrs
        (onHandle (·.tcpHandle) (fun io h => io.setHandle h f) io) := by
    intro f hf h hinit hl
    cases ht : io.tcpHandle with
    | none =>
      simp only [onHandle, ht] at hinit hl ⊢
      exact hp h hinit hl
    | some t =>
      simp only [onHandle, ht] at hinit hl ⊢
      by_cases he : h = t
      · simp [he, Io.loopPtrs, Io.setHandle, ht]
      · rw [show (io.setHandle t f).handles h = io.handles h from Function.update_of_ne he _ _] at hinit hl
        exact hp h hinit hl
  simp only [listenLines, List.mem_cons, List.not_mem_nil, or_false] at hg
  rcases hg with rfl | rfl | rfl | rfl | rfl
  · exact ⟨hp, hset fun _ => rfl⟩
  · exact ⟨hp, hp⟩
  · exact ⟨hp, hp⟩
  · exact ⟨hp, hset fun _ => rfl⟩
  · exact ⟨hp, hp⟩

private theorem startEnd_noOrphan (hr : Resting io) (hp : Pointed io.loopPtrs io) : KeepsRegistered can (do
      let state ← perform .stateLoad
      if state = .starting then
        perform (.stateStore .started)
        modify fun io => { io with phase := .running }
      else
        ioThreadClose) io := by
  simp only [KeepsRegistered, KeepsConns, Code.path_bind, Code.path_ite, Code.path_op, Code.path_modify]
  refine ⟨hr.noOrphan, fun _ _ => ⟨fun _ => ⟨hr.noOrphan, fun _ _ => ?_⟩, fun _ => hr.ioThreadClose⟩⟩
  exact ⟨hr.past, fun _ h hinit hl _ => .inl (hp h hinit hl)⟩

private theorem thread_noOrphan (hn : NoOrphan io) (hoff : io.phase = .off) (out : StartOut) :
    KeepsRegistered can (svlServiceIoThread out) io := by
  simp only [KeepsRegistered, KeepsConns, svlServiceIoThread, Code.path_bind, Code.path_get, Code.path_modify]
  have hr : Resting { io with
      loop := io.loop + 1, loopIsInit := false, uvLoop := none, tcpHandle := none, uvAcceptTimer := none
      uvPrep := none, uvCheck := none } := ⟨hoff, fun h => Nat.le_succ_of_le (hn.past h)⟩
  have hold : ∀ h, (io.handles h).loop ≠ io.loop + 1 := fun h => Nat.ne_of_lt (Nat.lt_succ_of_le (hn.past h))
  have hr₁ := Guarded.runAll_induct (Resting.startLines out io.bufferCount) uvEnomem hr
  rcases hrun : Guarded.runAll (startLines out io.bufferCount) uvEnomem { io with
      loop := io.loop + 1, loopIsInit := false, uvLoop := none, tcpHandle := none, uvAcceptTimer := none
      uvPrep := none, uvCheck := none } with ⟨ok, ret, io₁⟩
  rw [hrun] at hr₁
  have hend := @startEnd_noOrphan
  simp only [KeepsRegistered, KeepsConns, Code.path_bind, Code.path_ite, Code.path_op, Code.path_modify] at hend
  simp only [Code.path_bind, Code.path_set, Code.path_get, Code.path_ite, Code.path_op, Code.path_modify]
  refine ⟨fun _ => hr₁.ioThreadCleanup ret, fun hok => ⟨hr₁.noOrphan, fun _ _ => ?_⟩⟩
  obtain rfl : ok = true := by simpa using hok
  have hp := startLines_pointed hold hrun
  refine ⟨fun _ => ?_, fun _ => hend (hr₁.same rfl rfl rfl) fun h hinit hl => .tail _ (hp h hinit hl)⟩
  have hr₂ := Guarded.runAll_induct (Resting.listenLines out) ret hr₁
  have hp₂ := Guarded.runAll_induct (P := fun io => Pointed io.loopPtrs io) (listenLines_pointed out) ret
    fun h hinit hl => .tail _ (hp h hinit hl)
  exact ⟨fun _ => hr₂.ioThreadCleanup _, fun _ => hend hr₂ hp₂⟩

/-! ### Over whole runs -/

private theorem IoRun.keeps_noOrphan (hcan : Promised can E) (hi : IoInv n E io) (hs : Settled io) (hn : NoOrphan io)
    {d : IoRun} {sh : Shared} (hr : d.ready sh io = true) : KeepsRegistered can d.code io := by
  cases d with
  | thread out =>
    simp only [IoRun.ready, Bool.and_eq_true, decide_eq_true_eq] at hr
    exact thread_noOrphan hn hr.1 out
  | check out => exact check_noOrphan hi hn out
  | inbound status out =>
    exact onInboundConnectionCb_conns noOrphan_conns.toKeptByUse hi hn (fun l hl _ => hn.stray hl)
      (fun _ _ _ _ _ _ _ => trivial) status
  | outbound req status out =>
    simp only [IoRun.ready, Bool.and_eq_true, decide_eq_true_eq] at hr
    refine onOutboundConnectionCb_conns noOrphan_conns.toKeptByUse hi hs hr.1.1 hr.2 (fun h _ => ?_) status out
    refine hn.change ⟨rfl, rfl, rfl, rfl, rfl, .inl rfl⟩ h (fun h' hne => Function.update_of_ne hne _ _) (.inl ?_)
    rw [Io.connected, Io.setHandle_handles_self]
    exact .of_eq rfl rfl rfl rfl rfl rfl
  | read handle out =>
    simp only [IoRun.ready, Bool.and_eq_true, decide_eq_true_eq] at hr
    exact uvRead_conns noOrphan_conns.toKeptByUse hcan hi hs hr.1.1 hn hr.2 out
  | close handle =>
    simp only [IoRun.ready, Bool.and_eq_true, decide_eq_true_eq, Bool.not_eq_true'] at hr
    exact uvFinishClose_conns noOrphan_conns hcan hi hs hr.1.1 hn hr.2.1 hr.2.2
  | send req => exact send_conns (n := n) (E := E) noOrphan_conns.toKeptByUse hn req
  | timer => exact onTimerCb_path hn hn fun l hl => hn.closes hl
  | signal isSigint => exact signal_noOrphan hn isSigint
  | uvRunReturn =>
    have hr' : Resting { io with phase := .off } := ⟨rfl, hn.past⟩
    simp only [KeepsRegistered, KeepsConns, IoRun.code, Code.path_bind, Code.path_modify]
    exact hr'.ioThreadClose

theorem noOrphan {cond : ServiceCond} {c : ServiceConfig} (hc : ReachWhen cond n c) : NoOrphan c.fst.view.loc := by
  have hE : Premises.In ⟨False, False, False⟩ cond := ⟨False.elim, False.elim, False.elim, False.elim⟩
  refine Machine.Reach.invariant₁ (I := fun v => NoOrphan v.loc)
    (K := fun _ v _ => IoInv n ⟨False, False, False⟩ v.loc ∧ (v.next = none → Settled v.loc))
    (fun c hc => ioInv hE hc) ⟨fun _ => Nat.le_refl _, fun hp => absurd hp (by simp [Io.setup])⟩ ?_ hc
  rintro d io ⟨sh, v, ⟨hi, hs⟩, hr, -⟩ hn
  exact IoRun.keeps_noOrphan (hE.promised _) hi (hs rfl) hn hr

/-- In every run, whatever fails on the way: each handle that is in the loop inside `uv_run` is closing, or it is one of
those that `on_timer_cb` closes, or the TCP handle of a link in use.  None is lost. -/
theorem handles_registered {c : ServiceConfig} (hc : Reach n c) (hrun : c.fst.view.loc.phase = .running)
    (hin : c.fst.view.loc.InLoop h = true) :
    (c.fst.view.loc.handles h).isClosing = true ∨ c.fst.view.loc.Registered h := by
  simp only [Io.InLoop, Bool.and_eq_true, decide_eq_true_eq] at hin
  cases hcl : (c.fst.view.loc.handles h).closing with
  | some cb => exact .inl (by simp [Handle.isClosing, hcl])
  | none => exact .inr ((noOrphan hc).registered hrun h hin.1.1 hin.2 hcl)

/-- A client whose address cannot be read is turned away, and the next one is let in. -/
theorem handles_registered_second : ∃ c, Reach 2 c ∧ (c.fst.view.loc.handles 5).closing = some .link ∧
    ((c.fst.view.loc.handles 6).isClosing = true ∨ c.fst.view.loc.Registered 6) := by
  obtain ⟨c, hc, hcl, hrun, hin⟩ := exists_reachWhen .any 2
    (.append startUp [.run₁ (.inbound 0 { getpeername := -1 }), .run₁ (.inbound 0 {}), .op₁, .op₁])
    (fun c => (c.fst.view.loc.handles 5).closing = some .link ∧ c.fst.view.loc.phase = .running ∧
      c.fst.view.loc.InLoop 6 = true) (by decide +kernel)
  exact ⟨c, hc, hcl, handles_registered hc hrun hin⟩

end ServerLynx
