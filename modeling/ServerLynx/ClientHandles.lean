import ServerLynx.LoopKept

/-!
# The life of a client handle

A client handle is acquired by `on_inbound_connection_cb` and by `handle_cmd_open`.  Once `uv_tcp_init` has succeeded on
it, it is closed at most once and released by its close callback; and as long as it is not released, libuv owes it a
callback.  Where `uv_tcp_init` fails, the one callback never releases it and the other closes it all the same.
-/

namespace ServerLynx

open Threads

/-- `h` is the block of a client handle. -/
def Io.IsClient (io : Io) (h : Nat) : Prop := h < io.handleCount ∧ (io.handles h).kind = .tcpClient

/-- Each client handle is closed at most once, and only after it was initialised; it is released at most once, and only
after libuv has closed it.  Between two callbacks each is initialised, those that libuv has closed are released, and
those that are not released are live in the loop, which runs. -/
structure TcpLifeCycle (v : View Io Op) : Prop where
  closed : ∀ h, v.loc.IsClient h → (v.loc.handles h).closes ≤ 1 ∧
    ((v.loc.handles h).closes = 1 → (v.loc.handles h).isInit = true)
  released : ∀ h, v.loc.IsClient h → (v.loc.handles h).released ≤ 1 ∧
    ((v.loc.handles h).released = 1 → (v.loc.handles h).closed = true ∧ (v.loc.handles h).closes = 1)
  rest : v.next = none → ∀ h, v.loc.IsClient h → (v.loc.handles h).isInit = true ∧
    ((v.loc.handles h).closed = true → (v.loc.handles h).released = 1)
  live : v.next = none → ∀ h, v.loc.IsClient h → (v.loc.handles h).released = 0 →
    v.loc.phase = .running ∧ (v.loc.handles h).Live v.loc.loop

/-! ### The invariant -/

/-- A client handle, in a thread with the loop `loop` that is up or not. -/
structure Handle.Kept (loop : Nat) (up : Prop) (x : Handle) : Prop where
  isInit : x.isInit = true
  once : x.released ≤ 1
  released : x.released = 1 → x.closed = true
  closed : x.closed = true → x.closing ≠ none
  notNull : x.closing ≠ some .null
  tied : x.closing = none → ∃ i, x.Holds i
  up : x.closed = false → x.loop = loop ∧ up

/-- Every client handle is kept. -/
def ClientsKept (io : Io) : Prop := ∀ h, io.IsClient h → (io.handles h).Kept io.loop (io.phase ≠ .off)

/-- Those that libuv has closed are released. -/
def ClientsFreed (io : Io) : Prop := ∀ h, io.IsClient h → (io.handles h).closed = true → (io.handles h).released = 1

/-- The loop is up, its client handles are kept, and those that libuv has closed are released. -/
structure Serving (io : Io) : Prop where
  up : io.phase ≠ .off
  kept : ClientsKept io
  freed : ClientsFreed io

section Invariant

variable {n : Nat} {E : Premises} {can : Io → (o : Op) → o.Res → Prop} {io l : Io} {h : Nat} {x : Handle}
  {u : Prop}

theorem Handle.Kept.mono {loop loop' : Nat} {u' : Prop} (hk : x.Kept loop u)
    (h : x.closed = false → loop' = loop ∧ (u → u')) : x.Kept loop' u' where
  isInit := hk.isInit
  once := hk.once
  released := hk.released
  closed := hk.closed
  notNull := hk.notNull
  tied := hk.tied
  up hc := ⟨(hk.up hc).1.trans (h hc).1.symm, (h hc).2 (hk.up hc).2⟩

/-- A handle that libuv has not closed has not been released. -/
theorem Handle.Kept.not_released {loop : Nat} (hk : x.Kept loop u) (hc : x.closed = false) : x.released = 0 := by
  have hne : x.released ≠ 1 := by
    intro hr
    exact absurd ((hk.released hr).symm.trans hc) (by simp)
  have := hk.once
  omega

/-- A new handle is kept as long as it has a link until it is closing. -/
theorem Handle.Kept.fresh {loop : Nat} (hup : u) (hl : x.loop = loop) (hinit : x.isInit = true)
    (hc : x.closed = false) (hr : x.released = 0) (hnull : x.closing ≠ some .null)
    (ht : x.closing = none → ∃ i, x.Holds i) : x.Kept loop u where
  isInit := hinit
  once := by omega
  released h := absurd (hr.symm.trans h) (by simp)
  closed h := absurd (hc.symm.trans h) (by simp)
  notNull := hnull
  tied := ht
  up _ := ⟨hl, hup⟩

/-- A callback on its connection changes a handle that has a link. -/
theorem Handle.Kept.evolve {loop i : Nat} {y : Handle} (hk : x.Kept loop u) (hh : x.Holds i) (he : x.Evolves y) :
    y.Kept loop u := by
  have hgiven := he.given i hh.1
  have hrel : y.released = 0 := he.released.trans hh.2
  refine ⟨he.isInit.trans hk.isInit, by omega, by omega, fun hcl => ?_, ?_, fun _ => ⟨i, hgiven, hrel⟩, fun hcl => ?_⟩
  · exact he.closing (hk.closed (he.closed.symm.trans hcl))
  · rcases hgiven.2.2.2 with hn | ⟨hn, -⟩ <;> simp [hn]
  · have hup := hk.up (he.closed.symm.trans hcl)
    exact ⟨he.loop.trans hup.1, hup.2⟩

theorem SameLoop.up (hs : SameLoop io l) (hup : io.phase ≠ .off) : l.phase ≠ .off := by
  rcases hs.phase with hp | hp
  · rwa [hp]
  · rw [hp]
    simp

namespace Serving

/-- The client handle `h` changes, or is made. -/
theorem change (hs : Serving io) (hl : SameLoop io l) (h : Nat)
    (hold : ∀ h', h' ≠ h → l.IsClient h' → io.IsClient h' ∧ l.handles h' = io.handles h')
    (hnew : l.IsClient h → (l.handles h).Kept io.loop True ∧
    ((l.handles h).closed = true → (l.handles h).released = 1)) :
    Serving l where
  up := hl.up hs.up
  kept h' hc := by
    by_cases he : h' = h
    · subst he
      exact (hnew hc).1.mono fun _ => ⟨hl.loop, fun _ => hl.up hs.up⟩
    · obtain ⟨hc', heq⟩ := hold h' he hc
      rw [heq]
      exact (hs.kept h' hc').mono fun _ => ⟨hl.loop, fun _ => hl.up hs.up⟩
  freed h' hc := by
    by_cases he : h' = h
    · exact he ▸ (hnew (he ▸ hc)).2
    · obtain ⟨hc', heq⟩ := hold h' he hc
      rw [heq]
      exact hs.freed h' hc'

/-- No client handle changes. -/
theorem of_same (hs : Serving io) (hl : SameLoop io l)
    (hold : ∀ h, l.IsClient h → io.IsClient h ∧ l.handles h = io.handles h) : Serving l :=
  hs.change hl l.handleCount (fun h' _ => hold h') fun hc => absurd hc.1 (Nat.lt_irrefl _)

/-- A client handle with a link changes as a callback on its connection may change it. -/
theorem evolve (hs : Serving io) {i : Nat} (hh : (io.handles h).Holds i) (hc : io.IsClient h) {y : Handle}
    (he : (io.handles h).Evolves y) : y.Kept io.loop True ∧ (y.closed = true → y.released = 1) := by
  refine ⟨((hs.kept h hc).evolve hh he).mono fun _ => ⟨rfl, fun _ => trivial⟩, fun hcl => ?_⟩
  exact he.released.trans (hs.freed h hc (he.closed.symm.trans hcl))

/-- A handle without a link that was initialised is served like the others. -/
theorem stray (hs : Serving io) {cmd : Option Cmd} (hl : MadeStray cmd io l)
    (hinit : (l.handles io.handleCount).isInit = true) : Serving l := by
  obtain ⟨x, hx, -, hh⟩ := hl.handles
  refine hs.change hl.toSameLoop io.handleCount (fun h' hne hc => ?_) fun _ => ?_
  · obtain ⟨hlt, hk⟩ := hc
    have heq : l.handles h' = io.handles h' := by rw [hh, Function.update_of_ne hne]
    exact ⟨⟨by have := hl.count; omega, heq ▸ hk⟩, heq⟩
  · rw [hh, Function.update_self] at hinit ⊢
    have hcl := hx.closing hinit
    refine ⟨.fresh trivial hx.loop hinit hx.closed hx.released (by simp [hcl]) (by simp [hcl]), fun hc => ?_⟩
    exact absurd (hx.closed.symm.trans hc) (by simp)

end Serving

theorem serving_use : KeptByUse n E (fun _ => True) Serving where
  same {io l} hs hl := by
    refine hs.of_same hl.toSameLoop fun h' hc => ?_
    rw [Io.IsClient, hl.count, hl.handles] at hc
    exact ⟨hc, by rw [hl.handles]⟩
  conn {io l h i} hs hh hl := by
    refine hs.change hl.toSameLoop h (fun h' hne hc => ?_) fun hc => ?_
    · rw [Io.IsClient, hl.count, hl.handles h' hne] at hc
      exact ⟨hc, hl.handles h' hne⟩
    · exact hs.evolve hh ⟨hl.count ▸ hc.1, hh.1.1⟩ hl.handle
  attach {io i list} _ hs _ := by
    refine hs.change ⟨rfl, rfl, rfl, rfl, rfl, .inl rfl⟩ io.handleCount (fun h' hne hc => ?_) fun _ => ?_
    · obtain ⟨hlt, hk⟩ := hc
      have heq : (io.attach i list none (Link.accept io.handleCount)).handles h' = io.handles h' :=
        Io.attach_handles_ne hne
      have hlt' : h' < io.handleCount + 1 := hlt
      exact ⟨⟨by omega, heq ▸ hk⟩, heq⟩
    · rw [Io.attach_handles_self]
      exact ⟨.fresh trivial rfl rfl rfl rfl (by simp) fun _ => ⟨i, ⟨rfl, rfl, rfl, .inr ⟨rfl, rfl⟩⟩, rfl⟩, by simp⟩

/-! ### Commands -/

private theorem Serving.dialled (hs : Serving io) {cmd : Cmd} {i : Nat} (hl : Dialled io cmd i l) : Serving l := by
  refine hs.change hl.toSameLoop io.handleCount (fun h' hne hc => ?_) fun _ => ?_
  · obtain ⟨hlt, hk⟩ := hc
    have heq : l.handles h' = io.handles h' := by rw [hl.handles, Function.update_of_ne hne]
    exact ⟨⟨by have := hl.count; omega, heq ▸ hk⟩, heq⟩
  · rw [hl.handles, Function.update_self]
    exact ⟨.fresh trivial rfl rfl rfl rfl (by simp) fun _ => ⟨i, ⟨rfl, rfl, rfl, .inr ⟨rfl, rfl⟩⟩, rfl⟩, by simp⟩

private theorem Serving.closedBy (hs : Serving io) {cmd : Cmd} {i : Nat} (hh : (io.handles h).Holds i)
    (hn : (io.handles h).closing = none) : Serving (io.closedBy cmd i h) := by
  have hself : (io.closedBy cmd i h).handles h = { io.handles h with
      started := false, reading := false, closing := some .link, closes := (io.handles h).closes + 1
      closeCmd := some cmd } := by simp [Io.closedBy, Io.uvClose, Io.setHandle, Io.setLink]
  refine hs.change ⟨rfl, rfl, rfl, rfl, rfl, .inl rfl⟩ h (fun h' hne hc => ?_) fun hc => ?_
  · have heq : (io.closedBy cmd i h).handles h' = io.handles h' := by
      simp [Io.closedBy, Io.uvClose, Io.setHandle, Io.setLink, Function.update_of_ne hne]
    rw [Io.IsClient, heq] at hc
    exact ⟨hc, heq⟩
  · have hk := hs.kept h ⟨hc.1, hh.1.1⟩
    have hopen : (io.handles h).closed = false := by
      rw [Bool.eq_false_iff]
      exact fun hcl => hk.closed hcl hn
    rw [hself]
    refine ⟨.fresh trivial (hk.up hopen).1 hk.isInit hopen hh.2 (by simp) (by simp), fun hcl => ?_⟩
    exact absurd (hopen.symm.trans hcl) (by simp)

private theorem Serving.connected (hs : Serving io) {req : Nat} : Serving (io.connected req h) := by
  refine hs.change ⟨rfl, rfl, rfl, rfl, rfl, .inl rfl⟩ h (fun h' hne hc => ?_) fun hc => ?_
  · have heq : (io.connected req h).handles h' = io.handles h' := Function.update_of_ne hne _ _
    rw [Io.IsClient, heq] at hc
    exact ⟨hc, heq⟩
  · have hself : (io.connected req h).handles h = { io.handles h with connecting := false } :=
      Io.setHandle_handles_self ..
    rw [Io.IsClient, hself] at hc
    rw [hself]
    have hk := hs.kept h hc
    exact ⟨⟨hk.isInit, hk.once, hk.released, hk.closed, hk.notNull, hk.tied, fun hcl => ⟨(hk.up hcl).1, trivial⟩⟩,
      hs.freed h hc⟩

/-! ### The close callbacks -/

private theorem Serving.finish (hs : Serving io) (hc : (io.handles h).closing ≠ none) :
    ClientsKept (io.setHandle h fun x => { x with closed := true }) := by
  intro h' hc'
  by_cases he : h' = h
  · subst he
    rw [Io.IsClient, Io.setHandle_handles_self] at hc'
    have hk := hs.kept h' hc'
    rw [Io.setHandle_handles_self]
    exact ⟨hk.isInit, hk.once, fun _ => rfl, fun _ => hc, hk.notNull, fun hn => absurd hn hc, by simp⟩
  · have heq : (io.setHandle h fun x => { x with closed := true }).handles h' = io.handles h' :=
      Function.update_of_ne he _ _
    rw [Io.IsClient, heq] at hc'
    rw [heq]
    exact hs.kept h' hc'

private theorem ClientsKept.onConn {Q : Pushed → Prop} {i : Nat} (hk : ClientsKept io) (hup : io.phase ≠ .off)
    (hh : (io.handles h).Holds i) (hl : OnConn Q h i io l) : ClientsKept l := by
  intro h' hc
  have hto : ∀ {x : Handle}, x.Kept io.loop (io.phase ≠ .off) → x.Kept l.loop (l.phase ≠ .off) :=
    fun hx => hx.mono fun _ => ⟨hl.loop, fun _ => hl.toSameLoop.up hup⟩
  by_cases he : h' = h
  · subst he
    exact hto ((hk h' ⟨hl.count ▸ hc.1, hh.1.1⟩).evolve hh hl.handle)
  · rw [Io.IsClient, hl.count, hl.handles h' he] at hc
    rw [hl.handles h' he]
    exact hto (hk h' hc)

/-- All along a close callback the client handles are kept; at its end the handle is released. -/
abbrev ServesClose (can : Io → (o : Op) → o.Res → Prop) (m : IoM Unit) (io : Io) : Prop :=
  m.path can (fun l _ => ClientsKept l) (fun l _ => Serving l) io

private theorem Serving.releases (hs : Serving io) (hl : SameLoop io l) (hcount : l.handleCount = io.handleCount)
    (hothers : ∀ h', h' ≠ h → l.handles h' = io.handles h') (hkind : (l.handles h).kind = (io.handles h).kind)
    (hinit : (l.handles h).isInit = (io.handles h).isInit) (hcl : (l.handles h).closed = true)
    (hopen : (io.handles h).closed = false) (hrel : (l.handles h).released = (io.handles h).released + 1)
    (hclosing : (l.handles h).closing ≠ none) (hnull : (l.handles h).closing ≠ some .null) : Serving l := by
  refine hs.change hl h (fun h' hne hc => ?_) fun hc => ?_
  · rw [Io.IsClient, hcount, hothers h' hne] at hc
    exact ⟨hc, hothers h' hne⟩
  · rw [Io.IsClient, hcount, hkind] at hc
    have hk := hs.kept h hc
    have hone : (l.handles h).released = 1 := by rw [hrel, hk.not_released hopen]
    refine ⟨⟨hinit.trans hk.isInit, Nat.le_of_eq hone, fun _ => hcl, fun _ => hclosing, hnull,
      fun hn => absurd hn hclosing, fun hc' => ?_⟩, fun _ => hone⟩
    exact absurd (hcl.symm.trans hc') (by simp)

private theorem uvFinishClose_serves (hcan : Promised can E) (hi : IoInv n E io) (hset : Settled io)
    (hp : io.phase = .running) (hs : Serving io) (hc : (io.handles h).isClosing = true)
    (hd : (io.handles h).closed = false) : ServesClose can (uvFinishClose h) io := by
  obtain ⟨cb, hcb⟩ := Option.isSome_iff_exists.1 hc
  have hfin := hs.finish (h := h) (by simp [hcb])
  simp only [ServesClose, uvFinishClose, Code.path_bind, Code.path_modify, Code.path_get, Io.setHandle_handles_self,
    hcb]
  cases cb with
  | null =>
    -- a handle of the loop
    refine hs.change ⟨rfl, rfl, rfl, rfl, rfl, .inl rfl⟩ h (fun h' hne hc => ?_) fun hc => ?_
    · have heq : (io.setHandle h fun x => { x with closed := true }).handles h' = io.handles h' :=
        Function.update_of_ne hne _ _
      rw [Io.IsClient, heq] at hc
      exact ⟨hc, heq⟩
    · rw [Io.IsClient, Io.setHandle_handles_self] at hc
      exact absurd hcb (hs.kept h hc).notNull
  | handle =>
    simp only [onCloseHandleCb, Code.path_modify]
    refine hs.releases (h := h) ⟨rfl, rfl, rfl, rfl, rfl, .inl rfl⟩ rfl (fun h' hne => ?_) ?_ ?_ ?_ hd ?_ ?_ ?_
    · simp [Io.releaseHandle, Io.setHandle, Function.update_of_ne hne]
    all_goals simp [Io.releaseHandle, Io.setHandle, hcb]
  | link =>
    obtain ⟨i, hcl⟩ := hi.closing hset hp hcb hd
    refine Code.path_mono (fun l _ hl => ?_) (fun l _ hl => ?_)
      (onCloseLinkCb_onConn (Q := fun _ => True) hcan hcl.holds.data fun _ _ _ => trivial)
    · exact hfin.onConn hs.up hcl.holds hl
    · obtain ⟨l', list, log, refused, hl', -, rfl⟩ := hl
      have hself := hl'.handle
      rw [Io.setHandle_handles_self] at hself
      have hloop : SameLoop io l' := ⟨hl'.loop, hl'.isInit, hl'.uvLoop, hl'.blocks, hl'.ptrs, hl'.phase⟩
      have hgiven := hl'.handle.given i hcl.holds.1
      refine hs.releases (h := h) ⟨hloop.loop, hloop.isInit, hloop.uvLoop, hloop.blocks, hloop.ptrs, hloop.phase⟩
        hl'.count (fun h' hne => ?_) ?_ ?_ ?_ hd ?_ ?_ ?_
      · have heq := hl'.handles h' hne
        simp only [Io.setHandle, Function.update_of_ne hne] at heq
        simpa [Io.releaseHandle, Io.setHandle, Function.update_of_ne hne] using heq
      · simpa [Io.releaseHandle, Io.setHandle] using hself.kind
      · simpa [Io.releaseHandle, Io.setHandle] using hself.isInit
      · simpa [Io.releaseHandle, Io.setHandle] using hself.closed
      · simpa [Io.releaseHandle, Io.setHandle] using hself.released
      · simpa [Io.releaseHandle, Io.setHandle] using hself.closing (by simp [hcb])
      · rcases hgiven.2.2.2 with hn | ⟨hn, -⟩ <;> simp [Io.releaseHandle, Io.setHandle, hn]

/-! ### Start-up, clean-up, signals and the timer -/

/-- From `io` to `l` no client handle was made or changed. -/
structure SameClients (io l : Io) : Prop where
  old : ∀ h, l.IsClient h → io.IsClient h ∧ l.handles h = io.handles h
  ptrs : LoopHandles l.loopPtrs l.handles l.handleCount

/-- A handle of the loop changes. -/
theorem SameClients.setHandle {io₀ : Io} (hs : SameClients io₀ io) (hm : some h ∈ io.loopPtrs) {f : Handle → Handle}
    (hf : ∀ x, (f x).kind = x.kind) : SameClients io₀ (io.setHandle h f) := by
  refine ⟨fun h' hc => ?_, hs.ptrs.update (fun _ => hf _) (Nat.le_refl _)⟩
  have hne : h' ≠ h := by
    rintro rfl
    rw [Io.IsClient, Io.setHandle_handles_self, hf] at hc
    exact (hs.ptrs h' hm).2 hc.2
  have heq : (io.setHandle h f).handles h' = io.handles h' := Function.update_of_ne hne _ _
  rw [Io.IsClient, heq] at hc
  rw [heq]
  exact hs.old h' hc

private theorem mem_loopPtrs_drop {p₁ p₂ p₃ p₄ p₅ : Option Nat} {P : Option Nat → Prop}
    (hp : ∀ p ∈ [p₁, p₂, p₃, p₄], P p ∨ p ∈ io.freedPtrs) (h₅ : P p₅ ∨ p₅ = io.uvSignal) :
    ∀ p ∈ (l.setPtrs p₁ p₂ p₃ p₄ p₅).loopPtrs, P p ∨ p ∈ io.loopPtrs := by
  intro p hm
  simp only [Io.loopPtrs, Io.setPtrs, List.mem_cons, List.not_mem_nil, or_false] at hm
  have hfour : p ∈ [p₁, p₂, p₃, p₄] → P p ∨ p ∈ io.loopPtrs := fun h => (hp p h).imp_right Io.freedPtrs_subset
  rcases hm with rfl | rfl | rfl | rfl | rfl
  · exact hfour (by simp)
  · exact hfour (by simp)
  · exact hfour (by simp)
  · exact hfour (by simp)
  · exact h₅.imp_right fun h => by simp [Io.loopPtrs, h]

theorem sameClients_loop {io₀ : Io} (hclosed : ∀ h, io₀.IsClient h → (io₀.handles h).closed = true) :
    KeptByLoop (SameClients io₀) where
  same {io l} hs hl := by
    refine ⟨fun h hc => ?_, ?_⟩
    · rw [Io.IsClient, hl.count, hl.handles] at hc
      rw [hl.handles]
      exact hs.old h hc
    · rw [hl.ptrs, hl.count, hl.handles]
      exact hs.ptrs
  drop {io p₁ p₂ p₃ p₄ p₅} hs hp h₅ := by
    refine ⟨hs.old, hs.ptrs.of_mem fun h hm => .inl ?_⟩
    exact (mem_loopPtrs_drop hp h₅ _ hm).resolve_left (by simp)
  acquire {io p₁ p₂ p₃ p₄ p₅} kind hkind hs hp h₅ := by
    have hself : ((io.acquireHandle kind).setPtrs p₁ p₂ p₃ p₄ p₅).handles io.handleCount =
        { kind := kind, loop := io.loop } := Function.update_self ..
    have hne : ∀ h, h ≠ io.handleCount →
        ((io.acquireHandle kind).setPtrs p₁ p₂ p₃ p₄ p₅).handles h = io.handles h :=
      fun h hne => Function.update_of_ne hne _ _
    refine ⟨fun h hc => ?_, fun h hm => ?_⟩
    · obtain ⟨hlt, hk⟩ := hc
      have hlt' : h < io.handleCount + 1 := hlt
      have hold : h ≠ io.handleCount := by
        rintro rfl
        rw [hself] at hk
        exact hkind hk
      rw [hne h hold] at hk ⊢
      exact hs.old h ⟨by omega, hk⟩
    · rcases mem_loopPtrs_drop hp h₅ _ hm with he | hm
      · obtain rfl := Option.some.inj he
        exact ⟨Nat.lt_succ_self _, by rw [hself]; exact hkind⟩
      · obtain ⟨hlt, hk⟩ := hs.ptrs h hm
        exact ⟨Nat.lt_succ_of_lt hlt, by rw [hne h (Nat.ne_of_lt hlt)]; exact hk⟩
  init hs hm := hs.setHandle hm fun _ => rfl
  start hs hm := hs.setHandle hm fun _ => rfl
  release hs hm := hs.setHandle (Io.freedPtrs_subset hm) fun _ => rfl
  walk {io} hs := by
    have hkind : ∀ h, ((uvWalk io).handles h).kind = (io.handles h).kind := by
      intro h
      simp only [uvWalk]
      split
      · simp [Io.uvClose]
      · rfl
    refine ⟨fun h hc => ?_, fun h hm => ?_⟩
    · rw [Io.IsClient, hkind] at hc
      obtain ⟨hold, heq⟩ := hs.old h hc
      have hcl : (io.handles h).closed = true := heq ▸ hclosed h hold
      have hwalk : (uvWalk io).handles h = io.handles h := by simp [uvWalk, Io.InLoop, hcl]
      exact ⟨hold, hwalk.trans heq⟩
    · rw [hkind]
      exact hs.ptrs h hm

/-- Where all clients were closed, and none was made or changed, they are kept and released. -/
private theorem SameClients.kept (hs : SameClients io l) (hk : ClientsKept io) (hf : ClientsFreed io)
    (hclosed : ∀ h, io.IsClient h → (io.handles h).closed = true) : ClientsKept l ∧ ClientsFreed l := by
  refine ⟨fun h hc => ?_, fun h hc => ?_⟩
  · obtain ⟨hold, heq⟩ := hs.old h hc
    rw [heq]
    exact (hk h hold).mono fun ho => absurd ((hclosed h hold).symm.trans ho) (by simp)
  · obtain ⟨hold, heq⟩ := hs.old h hc
    rw [heq]
    exact hf h hold

/-! ### The code of the thread -/

/-- The client handles are kept all along the code; at its end those that libuv has closed are released. -/
abbrev KeepsClients (can : Io → (o : Op) → o.Res → Prop) (m : IoM Unit) (io : Io) : Prop :=
  m.path can (fun l _ => ClientsKept l) (fun l _ => ClientsKept l ∧ ClientsFreed l) io

private theorem keepsClients_of_serving {m : IoM Unit} (hm : KeepsConns can Serving m io) : KeepsClients can m io :=
  Code.path_mono (fun _ _ h => h.kept) (fun _ _ h => ⟨h.kept, h.freed⟩) hm

private theorem keepsClients_of_same {m : IoM Unit} (hk : ClientsKept io) (hf : ClientsFreed io)
    (hclosed : ∀ h, io.IsClient h → (io.handles h).closed = true) (hm : KeepsConns can (SameClients io) m io) :
    KeepsClients can m io :=
  Code.path_mono (fun _ _ h => (h.kept hk hf hclosed).1) (fun _ _ h => h.kept hk hf hclosed) hm

private theorem timer_serves (hi : IoInv n E io) (hs : Serving io) : KeepsConns can Serving onTimerCb io := by
  refine onTimerCb_path hs hs fun l hl => ?_
  have hrest : l = { io with handles := l.handles } := hl.rest
  refine hs.of_same ?_ fun h hc => ?_
  · rw [hrest]
    exact ⟨rfl, rfl, rfl, rfl, rfl, .inl rfl⟩
  · have hcount : l.handleCount = io.handleCount := by rw [hrest]
    have hkind : (l.handles h).kind = (io.handles h).kind := by
      rcases hl.handle h with he | ⟨-, -, he⟩ <;> rw [he]
      simp [Io.uvClose]
    have hold : io.IsClient h := by rwa [Io.IsClient, hcount, hkind] at hc
    exact ⟨hold, hl.others fun hm => (hi.loop h hm).2 hold.2⟩

private theorem signal_serves (hi : IoInv n E io) (hs : Serving io) (isSigint : Bool) :
    KeepsConns can Serving (IoRun.signal isSigint).code io := by
  have hs' : Serving (onHandle (·.uvSignal) (fun io h => io.setHandle h fun x => { x with started := false }) io) := by
    unfold onHandle
    split
    · exact hs
    · rename_i h he
      have hsame : SameClients io io := ⟨fun _ hc => ⟨hc, rfl⟩, hi.loop⟩
      have hm : some h ∈ io.loopPtrs := by simp [Io.loopPtrs, ← he]
      exact hs.of_same ⟨rfl, rfl, rfl, rfl, rfl, .inl rfl⟩
        (hsame.setHandle hm (f := fun x => { x with started := false }) fun _ => rfl).old
  simp only [KeepsConns, IoRun.code, onSigintCb, svlServiceStopSignal, Code.path_bind, Code.path_modify, Code.path_ite,
    Code.path_op, Code.path_pure]
  exact ⟨fun _ => hs', fun _ => ⟨hs', fun _ _ => ⟨fun _ => hs', fun _ => ⟨hs', fun _ _ => hs'⟩⟩⟩⟩

/-- When `uv_run` returns, libuv has closed every client handle. -/
private theorem clients_closed (hset : Settled io) (hp : io.phase = .running)
    (hk : ClientsKept io) (ha : io.uvLoopAlive = false) : ∀ h, io.IsClient h → (io.handles h).closed = true := by
  intro h hc
  have hx := hk h hc
  by_contra hopen
  rw [Bool.not_eq_true] at hopen
  have hlive : (io.handles h).Live io.loop := by
    cases hcl : (io.handles h).closing with
    | some cb => exact ⟨hopen, (hx.up hopen).1, .inr (by simp [Handle.isClosing, hcl])⟩
    | none =>
      obtain ⟨i, hh⟩ := hx.tied hcl
      exact hset.running hp h i hh
  simp only [Io.uvLoopAlive, Bool.or_eq_false_iff, List.any_eq_false, List.mem_range, Bool.and_eq_true,
    Bool.or_eq_true] at ha
  exact ha.1.1 h hc.1 ⟨by simp [Io.InLoop, hx.isInit, hopen, hlive.2.1], hlive.2.2⟩

/-- What the IO thread is given to run keeps the client handles, where `uv_tcp_init` succeeds. -/
private theorem IoRun.code_keepsClients (hcan : Promised can E) (hi : IoInv n E io) (hset : Settled io)
    (hk : ClientsKept io) (hf : ClientsFreed io) {d : IoRun} {sh : Shared} (hr : d.ready sh io = true)
    (hin : ∀ status out, d = .inbound status out → out.tcpInit = 0) (hcheck : ∀ out, d = .check out → out.tcpInit = 0) :
    KeepsClients can d.code io := by
  have hserve : io.phase = .running → Serving io := fun hp => ⟨by simp [hp], hk, hf⟩
  have hsame : SameClients io io := ⟨fun _ hc => ⟨hc, rfl⟩, hi.loop⟩
  cases d with
  | thread out =>
    simp only [IoRun.ready, Bool.and_eq_true, decide_eq_true_eq] at hr
    have hclosed : ∀ h, io.IsClient h → (io.handles h).closed = true := by
      intro h hc
      by_contra hopen
      exact (hk h hc).up (by simpa using hopen) |>.2 hr.1
    exact keepsClients_of_same hk hf hclosed ((sameClients_loop hclosed).svlServiceIoThread hsame out)
  | check out =>
    simp only [IoRun.ready, Bool.and_eq_true, decide_eq_true_eq] at hr
    have hs := hserve hr.1
    refine keepsClients_of_serving (onCheckCb_conns (serving_use (n := n) (E := E)) hi hs (fun cmd _ _ _ =>
      ⟨hs, fun l hl hinit => ?_⟩) ?_ ?_)
    · exact hs.stray hl (hinit (hcheck out rfl))
    · exact fun cmd i list l _ hl => hs.dialled hl
    · exact fun cmd i h hh hn => hs.closedBy hh hn
  | inbound status out =>
    simp only [IoRun.ready, Bool.and_eq_true, decide_eq_true_eq] at hr
    have hs := hserve hr.1.1
    exact keepsClients_of_serving (onInboundConnectionCb_conns (serving_use (n := n) (E := E)) hi hs
      (fun l hl hinit => hs.stray hl (hinit (hin status out rfl))) (fun _ _ _ _ _ _ _ => trivial) status)
  | outbound req status out =>
    simp only [IoRun.ready, Bool.and_eq_true, decide_eq_true_eq] at hr
    exact keepsClients_of_serving (onOutboundConnectionCb_conns serving_use hi hset hr.1.1 hr.2
      (fun h _ => (hserve hr.1.1).connected) status out)
  | read handle out =>
    simp only [IoRun.ready, Bool.and_eq_true, decide_eq_true_eq] at hr
    exact keepsClients_of_serving (uvRead_conns serving_use hcan hi hset hr.1.1 (hserve hr.1.1) hr.2 out)
  | close handle =>
    simp only [IoRun.ready, Bool.and_eq_true, decide_eq_true_eq, Bool.not_eq_true'] at hr
    exact Code.path_mono (fun _ _ h => h) (fun _ _ h => ⟨h.kept, h.freed⟩)
      (uvFinishClose_serves hcan hi hset hr.1.1 (hserve hr.1.1) hr.2.1 hr.2.2)
  | send req =>
    simp only [IoRun.ready, Bool.and_eq_true, decide_eq_true_eq] at hr
    exact keepsClients_of_serving (send_conns (serving_use (n := n) (E := E)) (hserve hr.1.1) req)
  | timer =>
    simp only [IoRun.ready, Bool.and_eq_true, decide_eq_true_eq] at hr
    exact keepsClients_of_serving (timer_serves hi (hserve hr.1.1))
  | signal isSigint =>
    simp only [IoRun.ready, Bool.and_eq_true, decide_eq_true_eq] at hr
    exact keepsClients_of_serving (signal_serves hi (hserve hr.1.1) isSigint)
  | uvRunReturn =>
    simp only [IoRun.ready, Bool.and_eq_true, decide_eq_true_eq, Bool.not_eq_true'] at hr
    have hclosed := clients_closed hset hr.1.1 hk hr.2
    simp only [KeepsClients, IoRun.code, Code.path_bind, Code.path_modify]
    have hs₀ : SameClients { io with phase := .off } { io with phase := .off } := ⟨fun _ hc => ⟨hc, rfl⟩, hi.loop⟩
    have hkeep : KeptByLoop (SameClients { io with phase := .off }) := sameClients_loop hclosed
    refine keepsClients_of_same (fun h hc => ?_) hf hclosed (hkeep.ioThreadClose hs₀)
    exact (hk h hc).mono fun ho => absurd ((hclosed h hc).symm.trans ho) (by simp)

end Invariant

/-! ### Over whole runs -/

/-- The runs in which `uv_tcp_init` succeeds on each client handle, and no connect completes with a negative status. -/
def tcpInitSucceeds : ServiceCond where
  run₁ d _ _ _ := match d with
    | .inbound _ out => decide (out.tcpInit = 0)
    | .check out => decide (out.tcpInit = 0)
    | .outbound _ status _ => decide (0 ≤ status)
    | _ => true

variable {n : Nat} {c : ServiceConfig}

theorem tcp_life_cycle (hc : ReachWhen tcpInitSucceeds n c) : TcpLifeCycle c.fst.view := by
  have hE : Premises.In ⟨False, False, True⟩ tcpInitSucceeds :=
    ⟨False.elim, False.elim, False.elim, fun _ req status out sh l v h => by simpa [tcpInitSucceeds] using h⟩
  obtain ⟨hi, hset⟩ := ioInv hE hc
  have hclients : ClientsKept c.fst.view.loc ∧ (c.fst.view.next = none → ClientsFreed c.fst.view.loc) := by
    refine Machine.Reach.invariant₁ (I := fun v => ClientsKept v.loc ∧ (v.next = none → ClientsFreed v.loc))
      (K := fun _ v _ => IoInv n ⟨False, False, True⟩ v.loc ∧ (v.next = none → Settled v.loc))
      (fun c hc => ioInv hE hc) ?_ ?_ hc
    · have hno : ∀ h, ¬ (Io.setup n).IsClient h := fun h hc => absurd hc.1 (Nat.not_lt_zero _)
      exact ⟨fun h hc => absurd hc (hno h), fun _ h hc => absurd hc (hno h)⟩
    · rintro d l ⟨sh, v, ⟨hi, hset⟩, hr, hcond⟩ ⟨hk, hf⟩
      refine Code.path_mono (fun _ _ h => ⟨h, by simp⟩) (fun _ _ h => ⟨h.1, fun _ => h.2⟩)
        (IoRun.code_keepsClients (hE.promised _) hi (hset rfl) hk (hf rfl) hr ?_ ?_)
      · rintro status out rfl
        simpa [tcpInitSucceeds] using hcond
      · rintro out rfl
        simpa [tcpInitSucceeds] using hcond
  obtain ⟨hk, hf⟩ := hclients
  have hcloses : ∀ h, (c.fst.view.loc.handles h).closes = if (c.fst.view.loc.handles h).closing = none then 0 else 1 :=
    hi.slots.closes
  refine ⟨fun h hc => ⟨?_, fun _ => (hk h hc).isInit⟩, fun h hc => ⟨(hk h hc).once, fun hr => ?_⟩,
    fun hrest h hc => ⟨(hk h hc).isInit, hf hrest h hc⟩, fun hrest h hc hr => ?_⟩
  · rw [hcloses]
    split <;> omega
  · have hcl := (hk h hc).released hr
    exact ⟨hcl, by rw [hcloses, if_neg ((hk h hc).closed hcl)]⟩
  · have hopen : (c.fst.view.loc.handles h).closed = false := by
      rw [Bool.eq_false_iff]
      intro hcl
      exact absurd (hr.symm.trans (hf hrest h hc hcl)) (by simp)
    obtain ⟨hloop, hup⟩ := (hk h hc).up hopen
    have hp : c.fst.view.loc.phase = .running := by
      have hdef := hi.defined trivial
      cases hph : c.fst.view.loc.phase with
      | off => exact absurd hph hup
      | running => rfl
      | undefined => exact absurd hph hdef
    refine ⟨hp, ?_⟩
    cases hcl : (c.fst.view.loc.handles h).closing with
    | some cb => exact ⟨hopen, hloop, .inr (by simp [Handle.isClosing, hcl])⟩
    | none =>
      obtain ⟨i, hh⟩ := (hk h hc).tied hcl
      exact (hset hrest).running hp h i hh

/-- A client is accepted, its read fails, and it is closed: its handle is released. -/
theorem tcp_life_cycle_released : ∃ c, ReachWhen tcpInitSucceeds 1 c ∧ (c.fst.view.next = none ∧
    c.fst.view.loc.handleCount = 6 ∧ (c.fst.view.loc.handles 5).kind = .tcpClient ∧
    (c.fst.view.loc.handles 5).released = 1) ∧ TcpLifeCycle c.fst.view := by
  obtain ⟨c, hc, hP⟩ := exists_reachWhen tcpInitSucceeds 1
    (.flatten [startUp, [.run₁ (.inbound 0 {}), .op₁, .op₁],
      [.run₁ (.read 5 (.error 0)), .op₁, .op₁, .run₁ (.close 5), .op₁, .op₁, .op₁]])
    (fun c => c.fst.view.next = none ∧ c.fst.view.loc.handleCount = 6 ∧
      (c.fst.view.loc.handles 5).kind = .tcpClient ∧ (c.fst.view.loc.handles 5).released = 1) (by decide +kernel)
  exact ⟨c, hc, hP, tcp_life_cycle hc⟩

/-- `uv_tcp_init` fails: the handle of an accepted connection is never released, not even when the thread has ended, and
that of a connect is closed although it was never initialised. -/
theorem tcp_life_cycle_fails :
    (∃ c, Reach 1 c ∧ c.sh.thread = .ended ∧ c.fst.view.next = none ∧ c.fst.view.loc.IsClient 5 ∧
      (c.fst.view.loc.handles 5).released = 0 ∧ ¬ TcpLifeCycle c.fst.view) ∧
    ∃ c, Reach 1 c ∧ c.fst.view.loc.IsClient 5 ∧ (c.fst.view.loc.handles 5).closes = 1 ∧
      (c.fst.view.loc.handles 5).isInit = false ∧ ¬ TcpLifeCycle c.fst.view := by
  constructor
  · obtain ⟨c, hc, hended, hrest, hcount, hkind, hrel, hp⟩ := exists_reachWhen .any 1
      (.flatten [startUp, [.run₁ (.inbound 0 { tcpInit := -1 }), .run₂ (.stop 0), .op₂, .op₂, .run₁ .timer, .op₁],
        [.run₁ (.close 0), .run₁ (.close 1), .run₁ (.close 2), .run₁ (.close 3), .run₁ (.close 4)],
        [.run₁ .uvRunReturn, .op₁]])
      (fun c => c.sh.thread = .ended ∧ c.fst.view.next = none ∧ c.fst.view.loc.handleCount = 6 ∧
        (c.fst.view.loc.handles 5).kind = .tcpClient ∧ (c.fst.view.loc.handles 5).released = 0 ∧
        c.fst.view.loc.phase = .off) (by decide +kernel)
    have hclient : c.fst.view.loc.IsClient 5 := ⟨by omega, hkind⟩
    exact ⟨c, hc, hended, hrest, hclient, hrel, fun h => absurd ((h.live hrest 5 hclient hrel).1.symm.trans hp)
      (by simp)⟩
  · obtain ⟨c, hc, hcount, hkind, hcloses, hinit⟩ := exists_reachWhen .any 1
      (.flatten [startUp, [.run₂ (.cmdOpen ⟨.inet, 1⟩ 1), .op₂, .op₂, .op₂],
        [.run₁ (.check { tcpInit := -1 }), .op₁, .op₁]])
      (fun c => c.fst.view.loc.handleCount = 6 ∧ (c.fst.view.loc.handles 5).kind = .tcpClient ∧
        (c.fst.view.loc.handles 5).closes = 1 ∧ (c.fst.view.loc.handles 5).isInit = false) (by decide +kernel)
    have hclient : c.fst.view.loc.IsClient 5 := ⟨by omega, hkind⟩
    exact ⟨c, hc, hclient, hcloses, hinit, fun h => absurd (((h.closed 5 hclient).2 hcloses).symm.trans hinit)
      (by simp)⟩

end ServerLynx
