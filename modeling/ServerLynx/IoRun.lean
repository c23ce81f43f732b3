import ServerLynx.IoPaths

/-!
# Start-up, clean-up and the invariant over whole runs

Outside `uv_run` no handle holds a link (`Quiet`): the start-up only makes the handles of the loop, and `uv_run`
returns when nothing in the loop is active or closing, which every holder of a link is.  With the callbacks of the
previous module this gives the invariant in every reachable state.
-/

namespace ServerLynx

open Threads

variable {n : Nat} {E : Premises} {can : Io → (o : Op) → o.Res → Prop} {io : Io}

/-! ### Outside `uv_run` -/

/-- Outside `uv_run`: no handle holds a link. -/
structure Quiet (n : Nat) (E : Premises) (io : Io) : Prop where
  inv : IoInv n E io
  none : ∀ h i, ¬ (io.handles h).Holds i
  off : io.phase = .off

namespace Quiet

theorem settled (hq : Quiet n E io) : Settled io where
  running hp := absurd (hq.off.symm.trans hp) (by simp)
  off _ := hq.none

/-- The pointers of `priv` to the handles of the loop are assigned. -/
theorem setPtrs (hq : Quiet n E io) (p₁ p₂ p₃ p₄ p₅ : Option Nat)
    (h : LoopHandles [p₁, p₂, p₃, p₄, p₅] io.handles io.handleCount) :
    Quiet n E { io with
      tcpHandle := p₁, uvAcceptTimer := p₂, uvPrep := p₃, uvCheck := p₄, uvSignal := p₅ } :=
  ⟨{ hq.inv with loop := h }, hq.none, hq.off⟩

/-- `TN_MEM_ACQUIRE` of a handle of the loop keeps the thread quiet. -/
theorem acquired (hq : Quiet n E io) (kind : HandleKind) (hk : kind ≠ .tcpClient) :
    Quiet n E (io.acquireHandle kind) ∧ LoopHandles (some io.handleCount :: io.loopPtrs)
      (io.acquireHandle kind).handles (io.acquireHandle kind).handleCount := by
  refine ⟨⟨hq.inv.acquireHandle kind, ?_, hq.off⟩, ?_⟩
  swap
  · refine (hq.inv.acquireHandle kind).loop.of_mem fun h hm => ?_
    rcases List.mem_cons.1 hm with hh | hm
    · obtain rfl := Option.some.inj hh
      exact .inr ⟨Nat.lt_succ_self _, by simpa [Io.acquireHandle] using hk⟩
    · exact .inl hm
  intro h i hh
  simp only [Io.acquireHandle] at hh
  rcases eq_or_ne h io.handleCount with rfl | hne
  · rw [Function.update_self] at hh
    exact Handle.not_given_of_data rfl i hh.1
  · rw [Function.update_of_ne hne] at hh
    exact hq.none h i hh

/-- The send list changes. -/
theorem setSendReqList (hq : Quiet n E io) (list : ListPtr) : Quiet n E { io with sendReqList := list } :=
  ⟨{ hq.inv with
      sends := ⟨hq.inv.sends.refused, fun hp => absurd (hq.off.symm.trans hp) (by simp), hq.inv.sends.off,
        hq.inv.sends.links⟩ }, hq.none, hq.off⟩

/-- The pointers of `priv` become NULL, all but `uv_signal`. -/
theorem clear (hq : Quiet n E io) : Quiet n E { io with
    uvCheck := Option.none, uvPrep := Option.none, uvAcceptTimer := Option.none, tcpHandle := Option.none
    uvLoop := Option.none, sendReq := Option.none, sendReqList := .setup 0 } := by
  have hq' := (hq.setSendReqList (.setup 0)).setPtrs Option.none Option.none Option.none Option.none io.uvSignal
    (hq.inv.loop.of_mem fun h hm => .inl (by simp at hm; simp [Io.loopPtrs, hm]))
  exact ⟨{ hq'.inv with count := hq'.inv.count }, hq'.none, hq'.off⟩

/-- A call on a handle of the loop keeps the thread quiet. -/
theorem onHandle (hq : Quiet n E io) {p : Io → Option Nat} (hp : p io ∈ io.loopPtrs) {f : Handle → Handle}
    (hf : ∀ x, (f x).kind = x.kind ∧ (f x).reading = x.reading ∧ (f x).closing = x.closing ∧
      (f x).closed = x.closed ∧ (f x).closes = x.closes) :
    Quiet n E (ServerLynx.onHandle p (fun io h => io.setHandle h f) io) := by
  unfold ServerLynx.onHandle
  cases hh : p io with
  | none => exact hq
  | some h =>
    rw [hh] at hp
    obtain ⟨hkind, hr, hcl, hcd, hcs⟩ := hf (io.handles h)
    obtain ⟨hr', hcb'⟩ := hq.inv.loopHandle hp
    have hk := setLoopHandle_keeps hq.inv hp (f := f) hkind (hr.trans hr') (by rw [hcl, hcd]; exact hcb')
      (by rw [hcs, hcl]; exact hq.inv.slots.closes h)
    exact ⟨hk.1, (hk.2 hq.settled).off hq.off, hq.off⟩

/-- `uv_walk` closes the handles of a loop without connections. -/
theorem walk (hq : Quiet n E io) : Quiet n E (uvWalk io) := by
  have hself : ∀ h, (io.uvClose h .null).handles h = { io.handles h with
      started := false, reading := false, closing := some .null, closes := (io.handles h).closes + 1 } := by
    intro h
    simp [Io.uvClose]
  -- each handle is as it was, or was not closing and is closed with the callback NULL
  have hcase : ∀ h, ((uvWalk io).handles h = io.handles h) ∨ (h < io.handleCount ∧
      (io.handles h).closing = Option.none ∧ (uvWalk io).handles h = { io.handles h with
        started := false, reading := false, closing := some .null, closes := (io.handles h).closes + 1 }) := by
    intro h
    simp only [uvWalk]
    split
    · rename_i hc
      refine .inr ⟨hc.1, by simpa [Handle.isClosing] using hc.2.2, hself h⟩
    · exact .inl rfl
  have hread : ∀ h, (io.handles h).reading = false := by
    intro h
    rw [Bool.eq_false_iff]
    intro hr
    obtain ⟨i, hh, -⟩ := hq.inv.slots.reading h hr
    exact hq.none h i hh
  have hnone : ∀ h i, ¬ ((uvWalk io).handles h).Holds i := by
    intro h i hh
    rcases hcase h with he | ⟨-, -, he⟩
    · exact hq.none h i (he ▸ hh)
    · rw [he] at hh
      simp [Handle.Holds, Handle.Given] at hh
  refine ⟨{ hq.inv with
    slots := hq.inv.slots.setHandles hq.none hnone ?_ ?_ ?_ ?_
    loop := ?_, given := ?_, readOpened := ?_, covered := ?_, inTurn := ?_ }, hnone, hq.off⟩
  · intro h hle
    rcases hcase h with he | ⟨hlt, -⟩
    · exact he.trans (hq.inv.slots.fresh h hle)
    · omega
  · intro h
    rcases hcase h with he | ⟨-, -, he⟩
    · rw [he, hread h]
    · rw [he]
  · intro h
    rcases hcase h with he | ⟨-, -, he⟩
    · rw [he]
      intro hl
      rw [← Bool.not_eq_false]
      intro hd
      obtain ⟨i, hh⟩ := hq.inv.slots.link_cb h hl hd
      exact hq.none h i hh
    · rw [he]
      intro hl
      simp at hl
  · intro h
    rcases hcase h with he | ⟨-, hn, he⟩
    · rw [he]
      exact hq.inv.slots.closes h
    · rw [he]
      simp [hq.inv.slots.closes h, hn]
  · intro h hm
    obtain ⟨hlt, hk⟩ := hq.inv.loop h hm
    refine ⟨hlt, ?_⟩
    rcases hcase h with he | ⟨-, -, he⟩
    · rwa [he]
    · rwa [he]
  · intro p hp ht
    have hg := hq.inv.given p hp ht
    rcases hcase p.conn with he | ⟨-, hn, -⟩
    · rwa [he]
    · obtain ⟨h₁, h₂, h₃, hl | ⟨-, hrel⟩⟩ := hg
      · exact absurd (hn.symm.trans hl) (by simp)
      · exact absurd ⟨⟨h₁, h₂, h₃, .inr ⟨hn, hrel⟩⟩, hrel⟩ (hq.none p.conn _)
  · intro h hr
    rcases hcase h with he | ⟨-, -, he⟩
    · rw [he, hread h] at hr
      exact absurd hr (by simp)
    · rw [he] at hr
      exact absurd hr (by simp)
  · intro hE i hi
    rcases hq.inv.covered hE i hi with h₁ | ⟨h, hh⟩
    · exact .inl h₁
    · exact absurd hh (hq.none h i)
  · intro hE i hi
    obtain ⟨b, h₁, h₂, -⟩ := hq.inv.inTurn hE i hi
    exact ⟨b, h₁, h₂, fun h hh => absurd hh (hnone h i)⟩

end Quiet

/-! ### Start-up -/

theorem fillSendReqs_eq (cap : Nat) {m : Nat} (hm : m ≤ cap) :
    fillSendReqs (.setup cap) m = some ⟨cap, (List.range m).reverse⟩ := by
  induction m with
  | zero => rfl
  | succ m ih =>
    simp only [fillSendReqs, ih (by omega), Option.bind_eq_bind, Option.bind_some]
    rw [ListPtr.pushBack_eq_some]
    exact ⟨by simp only [List.length_reverse, List.length_range]; omega, by simp [List.range_succ]⟩

theorem startLines_keeps (out : StartOut) (count : Nat) :
    ∀ g ∈ startLines out count, ∀ io, Quiet n E io → Quiet n E (g.onFail io) ∧ Quiet n E (g.onOk io) := by
  intro g hg io hq
  have hnull : ∀ {p₁ p₂ p₃ p₄ p₅ : Option Nat}, (∀ h, some h ∈ [p₁, p₂, p₃, p₄, p₅] → some h ∈ io.loopPtrs) →
      Quiet n E { io with tcpHandle := p₁, uvAcceptTimer := p₂, uvPrep := p₃, uvCheck := p₄, uvSignal := p₅ } :=
    fun h => hq.setPtrs _ _ _ _ _ (hq.inv.loop.of_mem fun h' hm => .inl (h h' hm))
  have hnew : ∀ (kind : HandleKind) {p₁ p₂ p₃ p₄ p₅ : Option Nat}, kind ≠ .tcpClient →
      (∀ h, some h ∈ [p₁, p₂, p₃, p₄, p₅] → some h ∈ some io.handleCount :: io.loopPtrs) →
      Quiet n E { io.acquireHandle kind with
        tcpHandle := p₁, uvAcceptTimer := p₂, uvPrep := p₃, uvCheck := p₄, uvSignal := p₅ } := by
    intro kind p₁ p₂ p₃ p₄ p₅ hk h
    obtain ⟨hq', hl⟩ := hq.acquired kind hk
    exact hq'.setPtrs _ _ _ _ _ (hl.of_mem fun h' hm => .inl (h h' hm))
  simp only [startLines, List.mem_cons, List.not_mem_nil, or_false] at hg
  rcases hg with rfl | rfl | rfl | rfl | rfl | rfl | rfl | rfl | rfl | rfl | rfl | rfl | rfl | rfl | rfl | rfl | rfl |
    rfl
  all_goals simp only [Guarded.acquire, Guarded.call, Guarded.quiet]
  -- the seven `TN_MEM_ACQUIRE`
  · exact ⟨⟨{ hq.inv with count := hq.inv.count }, hq.none, hq.off⟩,
      ⟨{ hq.inv with count := hq.inv.count }, hq.none, hq.off⟩⟩
  · exact ⟨hnull (by grind [Io.loopPtrs]),
      hnew .tcpListen (by simp) (by grind [Io.loopPtrs, allocHandle, Io.acquireHandle])⟩
  · exact ⟨hnull (by grind [Io.loopPtrs]),
      hnew .timer (by simp) (by grind [Io.loopPtrs, allocHandle, Io.acquireHandle])⟩
  · exact ⟨hnull (by grind [Io.loopPtrs]),
      hnew .prepare (by simp) (by grind [Io.loopPtrs, allocHandle, Io.acquireHandle])⟩
  · exact ⟨hnull (by grind [Io.loopPtrs]),
      hnew .check (by simp) (by grind [Io.loopPtrs, allocHandle, Io.acquireHandle])⟩
  · exact ⟨hnull fun h hm => by simp [Io.loopPtrs] at hm ⊢; tauto,
      hnew .signal (by simp) fun h hm => by
        simp [Io.loopPtrs, allocHandle, Io.acquireHandle] at hm ⊢; tauto⟩
  · exact ⟨⟨{ hq.inv with count := hq.inv.count }, hq.none, hq.off⟩,
      ⟨{ hq.inv with count := hq.inv.count }, hq.none, hq.off⟩⟩
  -- `send_req_list` and the loop
  · exact ⟨hq, hq.setSendReqList _⟩
  · exact ⟨hq, hq.setSendReqList _⟩
  · exact ⟨hq, ⟨{ hq.inv with count := hq.inv.count }, hq.none, hq.off⟩⟩
  -- the handles of the loop
  all_goals exact ⟨hq, hq.onHandle (by simp [Io.loopPtrs]) fun _ => ⟨rfl, rfl, rfl, rfl, rfl⟩⟩

theorem onHandle_sendReqList (p : Io → Option Nat) {f : Io → Nat → Io}
    (hf : ∀ io h, (f io h).sendReqList = io.sendReqList)
    (io : Io) : (onHandle p f io).sendReqList = io.sendReqList := by
  unfold onHandle
  split
  · rfl
  · exact hf ..

theorem listenLines_keeps (out : StartOut) (list : ListPtr) :
    ∀ g ∈ listenLines out, ∀ io, Quiet n E io ∧ io.sendReqList = list →
      (Quiet n E (g.onFail io) ∧ (g.onFail io).sendReqList = list) ∧
      Quiet n E (g.onOk io) ∧ (g.onOk io).sendReqList = list := by
  rintro g hg io ⟨hq, hl⟩
  have hsame : ∀ f : Handle → Handle,
      (onHandle (·.tcpHandle) (fun io h => io.setHandle h f) io).sendReqList = list :=
    fun f => (onHandle_sendReqList (f := fun io h => io.setHandle h f) _ (fun _ _ => rfl) io).trans hl
  simp only [listenLines, List.mem_cons, List.not_mem_nil, or_false] at hg
  rcases hg with rfl | rfl | rfl | rfl | rfl
  · exact ⟨⟨hq, hl⟩, hq.onHandle (by simp [Io.loopPtrs]) fun _ => ⟨rfl, rfl, rfl, rfl, rfl⟩, hsame _⟩
  · exact ⟨⟨hq, hl⟩, hq, hl⟩
  · exact ⟨⟨hq, hl⟩, hq, hl⟩
  · exact ⟨⟨hq, hl⟩, hq.onHandle (by simp [Io.loopPtrs]) fun _ => ⟨rfl, rfl, rfl, rfl, rfl⟩, hsame _⟩
  · exact ⟨⟨hq, hl⟩, hq, hl⟩

/-- Once the start-up has come through, all write requests are in `send_req_list`. -/
theorem startLines_sendReqList {out : StartOut} {count : Nat} {ret ret' : Int} {io io' : Io}
    (h : Guarded.runAll (startLines out count) ret io = (true, ret', io')) :
    io'.sendReqList = ⟨count, (List.range count).reverse⟩ := by
  have hinit : ∀ p io, (onHandle p Io.uvInit io).sendReqList = io.sendReqList :=
    fun p => onHandle_sendReqList p fun _ _ => rfl
  have hstart : ∀ p io, (onHandle p Io.uvStart io).sendReqList = io.sendReqList :=
    fun p => onHandle_sendReqList p fun _ _ => rfl
  rw [Guarded.runAll_eq_true h]
  simp [startLines, Guarded.acquire, Guarded.call, Guarded.quiet, hinit, hstart, fillSendReqs_eq]

/-! ### Clean-up -/

theorem releaseAll_keeps (hq : Quiet n E io) : Quiet n E (releaseAll io) := by
  have hrel : ∀ {io : Io}, Quiet n E io → ∀ {p : Io → Option Nat}, p io ∈ io.loopPtrs →
      Quiet n E (onHandle p Io.releaseHandle io) :=
    fun hq _ hp => hq.onHandle hp fun _ => ⟨rfl, rfl, rfl, rfl, rfl⟩
  have hblock : ∀ {io : Io}, Quiet n E io → ∀ p : Io → Option Nat, Quiet n E (onHandle p Io.releaseBlock io) := by
    intro io hq p
    unfold onHandle
    split
    · exact hq
    · exact ⟨{ hq.inv with count := hq.inv.count }, hq.none, hq.off⟩
  have h₁ := hrel hq (p := (·.uvCheck)) (by simp [Io.loopPtrs])
  have h₂ := hrel h₁ (p := (·.uvPrep)) (by simp [Io.loopPtrs])
  have h₃ := hrel h₂ (p := (·.uvAcceptTimer)) (by simp [Io.loopPtrs])
  have h₄ := hrel h₃ (p := (·.tcpHandle)) (by simp [Io.loopPtrs])
  exact (hblock (hblock h₄ (·.uvLoop)) (·.sendReq)).clear

/-- Outside `uv_run`, up to the end of the code or to the entry into `uv_run` -/
abbrev StaysQuiet (can : Io → (o : Op) → o.Res → Prop) (n : Nat) (E : Premises) (m : IoM Unit) (io : Io) : Prop :=
  m.path can (fun l _ => Quiet n E l) (fun l _ => IoInv n E l ∧ Settled l ∧ ∀ h i, ¬ (l.handles h).Holds i) io

theorem ioThreadCleanup_quiet (hq : Quiet n E io) (ret : Int) : StaysQuiet can n E (ioThreadCleanup ret) io := by
  have hq' := releaseAll_keeps hq
  simp only [StaysQuiet, ioThreadCleanup, Code.path_bind, Code.path_ite, Code.path_op, Code.path_modify]
  exact ⟨fun _ => ⟨hq, fun _ _ => ⟨hq', fun _ _ => ⟨hq'.inv, hq'.settled, hq'.none⟩⟩⟩,
    fun _ => ⟨hq', fun _ _ => ⟨hq'.inv, hq'.settled, hq'.none⟩⟩⟩

/-- A call of `uv_loop_close` performs no operation, whether it returns 0 or not. -/
theorem closeLoop_path {I : Io → Op → Prop} {Q : Io → Int → Prop}
    (hok : io.uvLoopClose = 0 → Q { io with loopIsInit := false } 0)
    (hfail : io.uvLoopClose ≠ 0 → Q io io.uvLoopClose) : closeLoop.path can I Q io := by
  simp only [closeLoop, Code.path_bind, Code.path_get]
  split
  · rename_i h
    exact h ▸ hok h
  · rename_i h
    exact hfail h

theorem ioThreadClose_quiet (hq : Quiet n E io) : StaysQuiet can n E ioThreadClose io := by
  have hclosed : ∀ {io : Io}, Quiet n E io → Quiet n E { io with loopIsInit := false } :=
    fun hq => ⟨{ hq.inv with count := hq.inv.count }, hq.none, hq.off⟩
  simp only [StaysQuiet, ioThreadClose, Code.path_bind, Code.path_ite, Code.path_modify]
  refine closeLoop_path (fun _ => ⟨by simp, fun _ => ioThreadCleanup_quiet (hclosed hq) _⟩) fun hne =>
    ⟨fun _ => ?_, fun h => absurd h (by simpa using hne)⟩
  exact closeLoop_path (fun _ => ⟨by simp, fun _ => ioThreadCleanup_quiet (hclosed hq.walk) _⟩) fun _ =>
    ⟨fun _ => ioThreadCleanup_quiet hq.walk _, fun _ => ioThreadCleanup_quiet hq.walk _⟩

/-- Inside `uv_run` at last: all write requests are in `send_req_list`. -/
theorem Quiet.enter (hq : Quiet n E io) (hl : io.sendReqList = ⟨io.bufferCount, (List.range io.bufferCount).reverse⟩) :
    IoInv n E { io with phase := .running } ∧ Settled { io with phase := .running } ∧
      ∀ h i, ¬ (io.handles h).Holds i := by
  have hw := hq.inv.sends.off hq.off
  refine ⟨{ hq.inv with sends := ⟨hq.inv.sends.refused, fun _ => ?_, by simp, hq.inv.sends.links⟩, defined := by simp },
    ⟨fun _ h i hh => absurd hh (hq.none h i), by simp⟩, hq.none⟩
  rw [hl, hw, List.append_nil]
  exact ⟨rfl, List.reverse_perm _⟩

theorem svlServiceIoThread_quiet (hi : IoInv n E io) (hs : Settled io) (hoff : io.phase = .off) (out : StartOut) :
    StaysQuiet can n E (svlServiceIoThread out) io := by
  have hq : Quiet n E io := ⟨hi, hs.off hoff, hoff⟩
  have hq₀ : Quiet n E { io with
      loop := io.loop + 1, loopIsInit := false, uvLoop := none, tcpHandle := none, uvAcceptTimer := none
      uvPrep := none, uvCheck := none } := by
    have hq' := hq.setPtrs none none none none io.uvSignal
      (hq.inv.loop.of_mem fun h hm => .inl (by simp at hm; simp [Io.loopPtrs, hm]))
    exact ⟨{ hq'.inv with count := hq'.inv.count }, hq'.none, hq'.off⟩
  simp only [StaysQuiet, svlServiceIoThread, Code.path_bind, Code.path_get, Code.path_modify]
  generalize { io with
      loop := io.loop + 1, loopIsInit := false, uvLoop := none, tcpHandle := none, uvAcceptTimer := none
      uvPrep := none, uvCheck := none } = io₀ at hq₀ ⊢
  have hstart := Guarded.runAll_induct (startLines_keeps (n := n) (E := E) out io.bufferCount) uvEnomem hq₀
  rcases hrun : Guarded.runAll (startLines out io.bufferCount) uvEnomem io₀ with ⟨ok, ret, io₁⟩
  rw [hrun] at hstart
  dsimp only at hstart
  simp only [Code.path_bind, Code.path_set, Code.path_ite, Code.path_op]
  refine ⟨fun _ => ioThreadCleanup_quiet hstart ret, fun hok => ⟨hstart, fun hostListen _ => ?_⟩⟩
  obtain rfl : ok = true := by simpa using hok
  have hl₁ := startLines_sendReqList hrun
  -- the end of the start-up, with a listener or without one
  have hend : ∀ io₂ : Io, Quiet n E io₂ → io₂.sendReqList = ⟨io.bufferCount, (List.range io.bufferCount).reverse⟩ →
      ((do let state ← perform .stateLoad
           if state = .starting then
             perform (.stateStore .started)
             modify fun io => { io with phase := .running }
           else
             ioThreadClose) : IoM Unit).path can (fun l _ => Quiet n E l)
        (fun l _ => IoInv n E l ∧ Settled l ∧ ∀ h i, ¬ (l.handles h).Holds i) io₂ := by
    intro io₂ hq₂ hl₂
    simp only [Code.path_bind, Code.path_ite, Code.path_op, Code.path_modify]
    refine ⟨hq₂, fun state _ => ⟨fun _ => ⟨hq₂, fun _ _ => ?_⟩, fun _ => ioThreadClose_quiet hq₂⟩⟩
    refine hq₂.enter (hl₂.trans ?_)
    rw [hi.count, hq₂.inv.count]
  simp only [Code.path_bind, Code.path_ite, Code.path_op, Code.path_modify] at hend
  refine ⟨fun _ => ?_, fun _ => ?_⟩
  · have hlisten := Guarded.runAll_induct (listenLines_keeps (n := n) (E := E) out _) ret ⟨hstart, hl₁⟩
    simp only [Code.path_get]
    generalize Guarded.runAll (listenLines out) ret io₁ = x at hlisten ⊢
    exact ⟨fun _ => ioThreadCleanup_quiet hlisten.1 _, fun _ => hend _ hlisten.1 hlisten.2⟩
  · simp only [Code.path_modify]
    have hq₂ := hstart.setPtrs none io₁.uvAcceptTimer io₁.uvPrep io₁.uvCheck io₁.uvSignal
      (hstart.inv.loop.of_mem fun h hm => .inl (by simp at hm; simp [Io.loopPtrs, hm]))
    exact hend _ hq₂ hl₁

/-- When `uv_run` returns no handle holds a link: such a handle is active or closing. -/
theorem IoInv.returned (hi : IoInv n E io) (hs : Settled io) (hp : io.phase = .running)
    (ha : io.uvLoopAlive = false) : Quiet n E { io with phase := .off } := by
  simp only [Io.uvLoopAlive, Bool.or_eq_false_iff, List.any_eq_false, List.mem_range, Bool.and_eq_true,
    Bool.or_eq_true, Bool.not_eq_false', List.isEmpty_iff] at ha
  obtain ⟨⟨hh, hw⟩, -⟩ := ha
  have hnone : ∀ h i, ¬ (io.handles h).Holds i := by
    intro h i hhold
    obtain ⟨hcl, hl, hlive⟩ := hs.running hp h i hhold
    refine hh h (hi.slots.lt_count hhold) ⟨?_, hlive⟩
    simp [Io.InLoop, hhold.1.2.2.1, hcl, hl]
  exact ⟨{ hi with
    sends := ⟨hi.sends.refused, by simp, fun _ => hw, hi.sends.links⟩
    defined := fun _ => by simp }, hnone, rfl⟩

/-! ### Whole runs -/

/-- What the IO thread is given to run keeps the invariant, where it may be given. -/
theorem IoRun.code_keeps (hcan : Promised can E) (hi : IoInv n E io) (hs : Settled io) {d : IoRun} {sh : Shared}
    (hr : d.ready sh io = true)
    (hE : E.noFail → ∀ req status out, d = .outbound req status out → 0 ≤ status) :
    KeepsInv can n E d.code io := by
  cases d with
  | thread out =>
    simp only [IoRun.ready, Bool.and_eq_true, decide_eq_true_eq] at hr
    exact Code.path_mono (fun _ _ hq => hq.inv) (fun _ _ h => ⟨h.1, h.2.1⟩) (svlServiceIoThread_quiet hi hs hr.1 out)
  | check out =>
    simp only [IoRun.ready, Bool.and_eq_true, decide_eq_true_eq] at hr
    exact onCheckCb_keeps hi hs hr.1 out
  | inbound status out =>
    simp only [IoRun.ready, Bool.and_eq_true, decide_eq_true_eq] at hr
    exact onInboundConnectionCb_keeps hi hs hr.1.1 status out
  | outbound req status out =>
    simp only [IoRun.ready, Bool.and_eq_true, decide_eq_true_eq] at hr
    obtain ⟨h, i, hd, hh, -, -, hno, hb⟩ := hi.connected hs hr.1.1 hr.2
    simp only [KeepsInv, IoRun.code, Code.path_bind, Code.path_modify]
    have hh' : ((io.setConnectReq req fun q => { q with pending := false }).connectReqs req).handle = some h := by
      simpa [Io.setConnectReq] using hh
    simp only [onHandle, hh']
    exact onOutboundConnectionCb_keeps hb (by simpa [Io.setConnectReq, Io.setHandle] using hd)
      (by simpa [Io.setHandle] using hh') (by simp [Io.setConnectReq, Io.setHandle]) hno status
      (fun hE' => hE hE' req status out rfl) out
  | read handle out =>
    simp only [IoRun.ready, Bool.and_eq_true, decide_eq_true_eq] at hr
    exact uvRead_keeps hcan hi hs hr.1.1 hr.2 out
  | close handle =>
    simp only [IoRun.ready, Bool.and_eq_true, decide_eq_true_eq, Bool.not_eq_true'] at hr
    exact uvFinishClose_keeps hcan hi hs hr.1.1 hr.2.1 hr.2.2
  | send req =>
    simp only [IoRun.ready, Bool.and_eq_true, decide_eq_true_eq] at hr
    exact onSendCb_keeps hi hs hr.1.1 hr.2
  | timer => exact onTimerCb_keeps hi hs
  | signal isSigint =>
    simp only [KeepsInv, IoRun.code, Code.path_bind, Code.path_modify, onHandle]
    cases hsig : io.uvSignal with
    | none => exact onSigintCb_keeps hi hs isSigint
    | some h =>
      have hm : some h ∈ io.loopPtrs := by simp [Io.loopPtrs, hsig]
      obtain ⟨hread, hcb⟩ := hi.loopHandle hm
      have hk := setLoopHandle_keeps hi hm (f := fun x => { x with started := false }) rfl hread hcb
        (hi.slots.closes h)
      exact onSigintCb_keeps hk.1 (hk.2 hs) isSigint
  | uvRunReturn =>
    simp only [IoRun.ready, Bool.and_eq_true, decide_eq_true_eq, Bool.not_eq_true'] at hr
    simp only [KeepsInv, IoRun.code, Code.path_bind, Code.path_modify]
    exact Code.path_mono (fun _ _ hq => hq.inv) (fun _ _ h => ⟨h.1, h.2.1⟩)
      (ioThreadClose_quiet (hi.returned hs hr.1.1 hr.2))

/-- The conditions on a run under which the premises hold in it. -/
structure Premises.In (E : Premises) (cond : ServiceCond) : Prop where
  closePop : E.noLeak → ∀ sh l v, cond.op₁ sh ⟨l, some (.eventFreePop .clientClose)⟩ v → sh.eventFree ≠ []
  room : E.inTurn → ∀ sh l e evt v, cond.op₁ sh ⟨l, some (.eventReadyPush e evt)⟩ v →
    sh.eventReady.length < sh.bufferCount
  opened : E.inTurn → ∀ sh l v, cond.op₁ sh ⟨l, some (.eventFreePop .clientClose)⟩ v → sh.eventFree ≠ [] →
    ∀ h < l.handleCount, (l.handles h).InCloseCb → WasOpened l.pushed h
  noFail : E.noFail → ∀ req status out sh l v, cond.run₁ (.outbound req status out) sh l v → 0 ≤ status

theorem Premises.In.promised {cond : ServiceCond} (hE : E.In cond) (K : Shared → View Io Op → View Main Op → Prop) :
    Promised (service.Can₁ cond K) E where
  popType := by
    rintro l t e evt ⟨sh, v, sh', -, -, he⟩
    simp only [service, Op.exec] at he
    split at he
    · simp at he
    · simp only [Option.some.injEq, Prod.mk.injEq] at he
      rw [← he.1.2]
  closePop := by
    rintro hl l ⟨sh, v, sh', -, hc, he⟩
    have hne := hE.closePop hl sh l v hc
    simp only [service, Op.exec] at he
    split at he
    · contradiction
    · simp at he
  room := by
    rintro ht l e evt ⟨sh, v, sh', -, hc, he⟩
    have hlt := hE.room ht sh l e evt v hc
    simp [service, Op.exec, hlt] at he
  opened := by
    rintro ht l x ⟨sh, v, sh', -, hc, he⟩
    refine hE.opened ht sh l v hc fun hnil => ?_
    simp only [service, Op.exec] at he
    split at he
    · simp at he
    · simp_all

/-- The invariant of the IO thread, in every state that a run reaches; between two callbacks the handles that hold
links wait for one. -/
theorem ioInv {cond : ServiceCond} (hE : E.In cond) {c : ServiceConfig} (h : ReachWhen cond n c) :
    IoInv n E c.fst.view.loc ∧ (c.fst.view.next = none → Settled c.fst.view.loc) := by
  have h₀ := ioInv_setup n E
  refine Machine.Reach.invariant₁ (K := fun _ _ _ => True)
    (I := fun v => IoInv n E v.loc ∧ (v.next = none → Settled v.loc)) (fun _ _ => trivial) ⟨h₀.1, fun _ => h₀.2⟩ ?_ h
  rintro d l ⟨sh, v, -, hr, hc⟩ ⟨hi, hs⟩
  have hk := IoRun.code_keeps (hE.promised fun _ _ _ => True) hi (hs rfl) hr fun hn req status out hd =>
    hE.noFail hn req status out sh ⟨l, none⟩ v (hd ▸ hc)
  exact Code.path_mono (fun _ _ h => ⟨h, by simp⟩) (fun _ _ h => ⟨h.1, fun _ => h.2⟩) hk

end ServerLynx
