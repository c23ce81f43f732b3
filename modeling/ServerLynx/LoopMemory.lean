import ServerLynx.Connections

/-!
# The memory of the loop

`svl_service_io_thread` has three ways to its label `cleanup`: the end of `uv_run`, a stop that is seen before
`uv_run`, and a failed call of the start-up.  Only on the first of them does `uv_loop_close` find a loop whose handles
are all closed.  `Anchored` is the invariant of the runs that take no other way: it says which handles the loop has
and why `uv_run` does not return before each of them is closed.
-/

namespace ServerLynx

open Threads

/-- The handles whose memory `svl_service_io_thread` releases at its end. -/
def HandleKind.ofThread : HandleKind → Bool
  | .tcpListen | .timer | .prepare | .check => true
  | .tcpClient | .signal => false

/-- As long as the loop is initialised, neither its memory nor that of the thread's handles in it was released. -/
def LoopMemoryKept (io : Io) : Prop := io.loopIsInit = true →
  (∃ b, io.uvLoop = some b ∧ (io.blocks b).released = 0) ∧
    ∀ h, (io.handles h).kind.ofThread = true → (io.handles h).loop = io.loop → (io.handles h).released = 0

/-- The results of the calls that the start-up makes once the loop is initialised. -/
def StartOut.afterLoopInit (out : StartOut) : List Int :=
  [out.timerInit, out.timerStart, out.prepareInit, out.prepareStart, out.checkInit, out.checkStart, out.signalInit,
    out.signalStart, out.tcpInit, out.tcpNodelay, out.tcpBind, out.listen, out.stringGet]

/-- The runs in which the start-up fails before it has a loop or not at all, and finds the state `STARTING` at its
end; the result of a call that is not made counts as 0. -/
def startsCleanly : ServiceCond where
  run₁ d _ _ _ := match d with
    | .thread out => decide (out.loopInit ≠ 0) || out.afterLoopInit.all fun status => decide (status = 0)
    | _ => true
  op₁ sh v _ := match v.next with
    | some .stateLoad => decide (v.loc.phase ≠ .off) || decide (sh.state = .starting)
    | _ => true

/-! ### The invariant -/

/-- The handles of the thread and of the connections, in any state of the thread. -/
structure LoopBase (io : Io) : Prop where
  past : ∀ h, (io.handles h).loop ≤ io.loop
  ptrs : ∀ h, some h ∈ io.loopPtrs → (io.handles h).kind ≠ .tcpClient
  signal : ∀ h, io.uvSignal = some h → (io.handles h).kind = .signal
  nullCb : ∀ h, (io.handles h).kind ≠ .tcpClient →
    (io.handles h).closing = none ∨ (io.handles h).closing = some .null
  client : ∀ h, (io.handles h).kind = .tcpClient → (io.handles h).isInit = true → (io.handles h).closing = none →
    ∃ i, (io.handles h).Holds i

/-- The memory of the loop and of every handle in it that is no client handle. -/
structure LoopMemory (io : Io) : Prop where
  block : ∃ b, io.uvLoop = some b ∧ (io.blocks b).released = 0
  handles : ∀ h, (io.handles h).kind ≠ .tcpClient → (io.handles h).loop = io.loop → (io.handles h).released = 0

/-- The handle keeps `uv_run` from returning until it is closed. -/
structure Handle.Runs (x : Handle) : Prop where
  started : x.started = true
  closing : x.closing = none
  closed : x.closed = false

/-- Inside `uv_run`: `priv` has every handle of the loop that is no client handle, and the timer runs until all of them
are being closed. -/
structure LoopUp (io : Io) : Prop where
  registered : ∀ h, (io.handles h).kind ≠ .tcpClient → (io.handles h).isInit = true → (io.handles h).loop = io.loop →
    some h ∈ io.loopPtrs
  timer : ∃ t, io.uvAcceptTimer = some t ∧ (io.handles t).kind = .timer ∧ (io.handles t).isInit = true ∧
    (io.handles t).loop = io.loop ∧ ((io.handles t).Runs ∨ LoopClosing io)

structure Anchored (io : Io) : Prop extends LoopBase io where
  memory : io.loopIsInit = true → LoopMemory io
  up : io.phase = .running → LoopUp io

theorem Anchored.kept {io : Io} (ha : Anchored io) : LoopMemoryKept io := by
  intro hinit
  obtain ⟨hblock, hhandles⟩ := ha.memory hinit
  refine ⟨hblock, fun h hk hl => hhandles h ?_ hl⟩
  intro hclient
  rw [hclient] at hk
  simp [HandleKind.ofThread] at hk

theorem anchored_setup (n : Nat) : Anchored (.setup n) where
  past _ := Nat.le_refl _
  ptrs h hm := by simp [Io.setup, Io.loopPtrs] at hm
  signal h hs := by simp [Io.setup] at hs
  nullCb h _ := .inl rfl
  client h _ hi := by simp [Io.setup] at hi
  memory h := by simp [Io.setup] at h
  up h := by simp [Io.setup] at h

section Frame

variable {Q : Pushed → Prop} {h i : Nat} {io l : Io}

private theorem SameLoop.pointers (hs : SameLoop io l) :
    l.tcpHandle = io.tcpHandle ∧ l.uvAcceptTimer = io.uvAcceptTimer ∧ l.uvSignal = io.uvSignal := by
  have := hs.ptrs
  simp only [Io.loopPtrs, List.cons.injEq] at this
  exact ⟨this.1, this.2.1, this.2.2.2.2.1⟩

private structure Handle.Stays (x y : Handle) : Prop where
  kind : y.kind = x.kind
  loop : y.loop = x.loop
  isInit : y.isInit = x.isInit
  released : y.released = x.released
  closing : y.closing = x.closing ∨ y.closing = some .null

/-- The loop stays as it is.  A client handle that changes is closing then, holds a link or is not initialised, and
the timer runs on unless all handles of the thread are being closed. -/
private theorem Anchored.frame (ha : Anchored io) (hs : SameLoop io l)
    (hother : ∀ h, (io.handles h).kind ≠ .tcpClient → (io.handles h).Stays (l.handles h))
    (hclient : ∀ h, (io.handles h).kind = .tcpClient → (l.handles h).kind = .tcpClient ∧ (l.handles h).loop ≤ io.loop ∧
      ((l.handles h).isInit = true → (l.handles h).closing = none → ∃ i, (l.handles h).Holds i))
    (hrun : ∀ t, (io.handles t).kind = .timer → (io.handles t).Runs → (l.handles t).Runs ∨ LoopClosing l) :
    Anchored l := by
  have hback : ∀ h, (l.handles h).kind ≠ .tcpClient → (io.handles h).kind ≠ .tcpClient :=
    fun h hk hc => hk (hclient h hc).1
  obtain ⟨-, htimer, hsignal⟩ := hs.pointers
  refine { past := fun h => ?_, ptrs := fun h hm => ?_, signal := fun h he => ?_, nullCb := fun h hk => ?_,
           client := fun h hk => ?_, memory := fun hinit => ⟨?_, fun h hk hl => ?_⟩, up := fun hp => ⟨?_, ?_⟩ }
  · rw [hs.loop]
    by_cases hk : (io.handles h).kind = .tcpClient
    · exact (hclient h hk).2.1
    · rw [(hother h hk).loop]
      exact ha.past h
  · have hk := ha.ptrs h (hs.ptrs ▸ hm)
    rwa [(hother h hk).kind]
  · have hk := ha.signal h (hsignal ▸ he)
    rwa [(hother h (by rw [hk]; simp)).kind]
  · rcases (hother h (hback h hk)).closing with he | he
    · rw [he]
      exact ha.nullCb h (hback h hk)
    · exact .inr he
  · by_cases hc : (io.handles h).kind = .tcpClient
    · exact (hclient h hc).2.2
    · rw [(hother h hc).kind] at hk
      exact absurd hk hc
  · rw [hs.uvLoop, hs.blocks]
    exact (ha.memory (hs.isInit ▸ hinit)).block
  · have hst := hother h (hback h hk)
    rw [hst.released]
    exact (ha.memory (hs.isInit ▸ hinit)).handles h (hback h hk) (hst.loop.symm.trans (hl.trans hs.loop))
  all_goals have hup := ha.up (hs.phase.elim (fun he => he ▸ hp) fun he => absurd (hp.symm.trans he) (by simp))
  · intro h hk hinit hl
    have hst := hother h (hback h hk)
    rw [hs.ptrs]
    exact hup.registered h (hback h hk) (hst.isInit ▸ hinit) (hst.loop.symm.trans (hl.trans hs.loop))
  · obtain ⟨t, ht, hk, hinit, hl, hr⟩ := hup.timer
    have hst := hother t (by rw [hk]; simp)
    refine ⟨t, htimer ▸ ht, hst.kind.trans hk, hst.isInit.trans hinit, (hst.loop.trans hl).trans hs.loop.symm, ?_⟩
    refine hr.elim (hrun t hk) fun hcl => .inr fun h hm => ?_
    rw [hs.ptrs] at hm
    rcases (hother h (ha.ptrs h hm)).closing with he | he
    · simpa only [Handle.isClosing, he] using hcl h hm
    · simp [Handle.isClosing, he]

private theorem Handle.Stays.of_eq {x y : Handle} (he : y = x) : x.Stays y := he ▸ ⟨rfl, rfl, rfl, rfl, .inl rfl⟩

/-- No handle changes. -/
theorem Anchored.of_handles (ha : Anchored io) (hs : SameLoop io l) (hh : l.handles = io.handles) : Anchored l :=
  ha.frame hs (fun h _ => .of_eq (by rw [hh])) (fun h hk => by
    rw [hh]
    exact ⟨hk, ha.past h, ha.client h hk⟩) fun t _ hr => by
    rw [hh]
    exact .inl hr

/-- One handle of the thread changes. -/
theorem Anchored.setOther (ha : Anchored io) {f : Handle → Handle} (hk : (io.handles h).kind ≠ .tcpClient)
    (hst : (io.handles h).Stays (f (io.handles h)))
    (hrun : (io.handles h).kind = .timer → (io.handles h).Runs → (f (io.handles h)).Runs) :
    Anchored (io.setHandle h f) := by
  have hne : ∀ h', h' ≠ h → (io.setHandle h f).handles h' = io.handles h' := fun h' hne => Function.update_of_ne hne _ _
  refine ha.frame ⟨rfl, rfl, rfl, rfl, rfl, .inl rfl⟩ (fun h' _ => ?_) (fun h' hk' => ?_) fun t hkt hr => .inl ?_
  · by_cases he : h' = h
    · subst he
      rwa [Io.setHandle_handles_self]
    · exact .of_eq (hne h' he)
  · rw [hne h' fun he => hk (he ▸ hk')]
    exact ⟨hk', ha.past h', ha.client h' hk'⟩
  · by_cases he : t = h
    · subst he
      rw [Io.setHandle_handles_self]
      exact hrun hkt hr
    · rwa [hne t he]

/-- The handles of the thread are closed. -/
theorem Anchored.closes (ha : Anchored io) (hc : Closes io.loopPtrs io l) : Anchored l := by
  have hsame : SameLoop io l := by
    rw [hc.rest]
    exact ⟨rfl, rfl, rfl, rfl, rfl, .inl rfl⟩
  refine ha.frame hsame (fun h _ => ?_) (fun h hk => ?_) fun _ _ _ => .inr hc.loopClosing
  · rcases hc.handle h with he | ⟨-, -, he⟩
    · exact .of_eq he
    · rw [he]
      exact ⟨by simp [Io.uvClose], by simp [Io.uvClose], by simp [Io.uvClose], by simp [Io.uvClose],
        .inr (by simp [Io.uvClose])⟩
  · rw [hc.others fun hm => ha.ptrs h hm hk]
    exact ⟨hk, ha.past h, ha.client h hk⟩

/-- One client handle changes. -/
theorem Anchored.setClient (ha : Anchored io) (hs : SameLoop io l) {x : Handle} (hk : (io.handles h).kind = .tcpClient)
    (hh : l.handles = Function.update io.handles h x) (hx : x.kind = .tcpClient ∧ x.loop ≤ io.loop)
    (hold : x.isInit = true → x.closing = none → ∃ i, x.Holds i) : Anchored l := by
  have hsame : ∀ h', (io.handles h').kind ≠ .tcpClient → l.handles h' = io.handles h' := by
    intro h' hk'
    have hne : h' ≠ h := by
      rintro rfl
      exact hk' hk
    rw [hh, Function.update_of_ne hne]
  refine ha.frame hs (fun h' hk' => .of_eq (hsame h' hk')) (fun h' hk' => ?_) fun t hkt hr => .inl ?_
  · rw [hh]
    by_cases hne : h' = h
    · subst hne
      rw [Function.update_self]
      exact ⟨hx.1, hx.2, hold⟩
    · rw [Function.update_of_ne hne]
      exact ⟨hk', ha.past h', ha.client h' hk'⟩
  · rwa [hsame t (by rw [hkt]; simp)]

theorem Anchored.onConn (ha : Anchored io) (hk : (io.handles h).kind = .tcpClient) (hl : OnConn Q h i io l) :
    Anchored l := by
  have hupdate : l.handles = Function.update io.handles h (l.handles h) := by
    funext h'
    by_cases hne : h' = h
    · subst hne
      rw [Function.update_self]
    · rw [Function.update_of_ne hne, hl.handles h' hne]
  have hev := hl.handle
  refine ha.setClient hl.toSameLoop hk hupdate ⟨hev.kind.trans hk, hev.loop ▸ ha.past h⟩ fun hinit hcl => ?_
  have hcl' : (io.handles h).closing = none := by
    by_contra hne
    exact hev.closing hne hcl
  obtain ⟨i, ⟨-, hd, hinit', -⟩, hr⟩ := ha.client h hk (hev.isInit ▸ hinit) hcl'
  have hr' := hev.released.trans hr
  exact ⟨i, ⟨hev.kind.trans hk, hev.data.trans hd, hinit, .inr ⟨hcl, hr'⟩⟩, hr'⟩

theorem Anchored.closedConn (ha : Anchored io) (hk : (io.handles h).kind = .tcpClient)
    (hc : (io.handles h).closing ≠ none) (hl : ClosedConn Q h i io l) : Anchored l := by
  obtain ⟨l', list, log, refused, hl', -, rfl⟩ := hl
  have hev := hl'.handle
  refine (ha.onConn hk hl').setClient (x := { l'.handles h with released := (l'.handles h).released + 1 })
    ⟨rfl, rfl, rfl, rfl, rfl, .inl rfl⟩ (hev.kind.trans hk) rfl ⟨hev.kind.trans hk, ?_⟩ fun _ hcl => ?_
  · exact (ha.onConn hk hl').past h
  · exact absurd hcl (hev.closing hc)

end Frame

/-! ### The callbacks -/

section Callbacks

variable {n : Nat} {E : Premises} {can : Io → (o : Op) → o.Res → Prop} {io : Io}

/-- The code keeps the memory of the loop, from `io` on. -/
abbrev KeepsLoop (can : Io → (o : Op) → o.Res → Prop) (m : IoM Unit) (io : Io) : Prop :=
  m.path can (fun l _ => Anchored l) (fun l _ => Anchored l) io

private theorem Anchored.stray (hi : IoInv n E io) (ha : Anchored io) {cmd : Option Cmd} {l : Io}
    (hl : MadeStray cmd io l) : Anchored l := by
  obtain ⟨x, hx, -, hh⟩ := hl.handles
  refine ha.setClient (x := x) hl.toSameLoop ?_ hh ⟨hx.kind, Nat.le_of_eq hx.loop⟩ fun hinit hcl => ?_
  · rw [hi.slots.fresh _ (Nat.le_refl _)]
  · exact absurd ((hx.closing hinit).symm.trans hcl) (by simp)

private theorem Anchored.setIdle (ha : Anchored io) {l : Io} (hs : SameLoop io l) {h : Nat} {x : Handle}
    (hk : (io.handles h).kind = .tcpClient) (hh : l.handles = Function.update io.handles h x)
    (hx : x.kind = (io.handles h).kind ∧ x.loop = (io.handles h).loop ∧ x.isInit = (io.handles h).isInit)
    (hold : (x.closing = none → (io.handles h).closing = none) ∧
      ∀ i, x.closing = none → (io.handles h).Holds i → x.Holds i) : Anchored l := by
  refine ha.setClient hs hk hh ⟨hx.1.trans hk, hx.2.1 ▸ ha.past h⟩ fun hinit hn => ?_
  obtain ⟨i, hi⟩ := ha.client h hk (hx.2.2 ▸ hinit) (hold.1 hn)
  exact ⟨i, hold.2 i hn hi⟩

private theorem anchored_conns : KeptByConns n E (fun _ => True) Anchored where
  same ha hs := ha.of_handles hs.toSameLoop hs.handles
  conn ha hh hl := ha.onConn hh.1.1 hl
  closed ha hh hc hl := ha.closedConn hh.1.1 hc hl
  stray hi ha hl := ha.stray hi hl
  attach {io i list} hi ha _ := by
    refine ha.setClient ⟨rfl, rfl, rfl, rfl, rfl, .inl rfl⟩ (h := io.handleCount) ?_ rfl ⟨rfl, Nat.le_refl _⟩
      fun _ _ => ⟨i, ⟨rfl, rfl, rfl, .inr ⟨rfl, rfl⟩⟩, rfl⟩
    rw [hi.slots.fresh _ (Nat.le_refl _)]
  finish {io h} ha hc := by
    by_cases hk : (io.handles h).kind = .tcpClient
    · exact ha.setIdle ⟨rfl, rfl, rfl, rfl, rfl, .inl rfl⟩ hk rfl ⟨rfl, rfl, rfl⟩ ⟨fun hn => hn, fun _ _ hh => hh⟩
    · exact ha.setOther hk ⟨rfl, rfl, rfl, rfl, .inl rfl⟩ fun _ hr => absurd hr.closing hc
  release {io h} ha hc := by
    have hk : (io.handles h).kind = .tcpClient := by
      by_contra hk
      rcases ha.nullCb h hk with hn | hn
      · exact absurd (hc.symm.trans hn) (by simp)
      · exact absurd (hc.symm.trans hn) (by simp)
    refine ha.setIdle ⟨rfl, rfl, rfl, rfl, rfl, .inl rfl⟩ hk rfl ⟨rfl, rfl, rfl⟩ ⟨fun hn => hn, fun _ hn _ => ?_⟩
    exact absurd (hc.symm.trans hn) (by simp)

private theorem check_anchored (hi : IoInv n E io) (ha : Anchored io) (out : CmdOut) :
    KeepsLoop can (onCheckCb out) io := by
  refine onCheckCb_conns anchored_conns.toKeptByUse hi ha (fun cmd _ _ _ => ⟨ha, fun l hl _ => ha.stray hi hl⟩) ?_ ?_
  · intro cmd i list l _ hl
    refine ha.setClient hl.toSameLoop ?_ hl.handles ⟨rfl, Nat.le_refl _⟩ fun _ _ => ?_
    · rw [hi.slots.fresh _ (Nat.le_refl _)]
    · exact ⟨i, ⟨rfl, rfl, rfl, .inr ⟨rfl, rfl⟩⟩, rfl⟩
  · intro cmd i h hh hn
    have hk := hh.1.1
    refine ha.setClient (x := { io.handles h with
      started := false, reading := false, closing := some .link, closes := (io.handles h).closes + 1
      closeCmd := some cmd }) ⟨rfl, rfl, rfl, rfl, rfl, .inl rfl⟩ hk ?_ ⟨hk, ha.past h⟩ fun _ hn => ?_
    · simp [Io.closedBy, Io.uvClose, Io.setHandle, Io.setLink]
    · exact absurd hn (by simp)

private theorem signal_anchored (ha : Anchored io) (isSigint : Bool) :
    KeepsLoop can (IoRun.signal isSigint).code io := by
  simp only [KeepsLoop, IoRun.code, onSigintCb, svlServiceStopSignal, onHandle, Code.path_bind, Code.path_modify,
    Code.path_ite, Code.path_op, Code.path_pure]
  have ha' : Anchored (onHandle (·.uvSignal) (fun io h => io.setHandle h fun x => { x with started := false }) io) := by
    simp only [onHandle]
    cases hsig : io.uvSignal with
    | none => exact ha
    | some h =>
      have hk := ha.signal h hsig
      exact ha.setOther (by rw [hk]; simp) ⟨rfl, rfl, rfl, rfl, .inl rfl⟩ fun hk' => absurd (hk.symm.trans hk')
        (by simp)
  exact ⟨fun _ => ha', fun _ => ⟨ha', fun _ _ => ⟨fun _ => ha', fun _ => ⟨ha', fun _ _ => ha'⟩⟩⟩⟩

end Callbacks

/-! ### The end of the thread -/

section Close

variable {n : Nat} {E : Premises} {can : Io → (o : Op) → o.Res → Prop} {io : Io}

/-- Outside `uv_run`, with no loop, `LoopBase` is all there is to keep. -/
private theorem LoopBase.anchored (hb : LoopBase io) (hinit : io.loopIsInit = false) (hoff : io.phase = .off) :
    Anchored io :=
  { hb with
    memory := fun h => absurd h (by simp [hinit])
    up := fun h => absurd (hoff.symm.trans h) (by simp) }

private theorem LoopBase.setOther (hb : LoopBase io) {h : Nat} {f : Handle → Handle}
    (hk : (io.handles h).kind ≠ .tcpClient)
    (hf : ∀ x, (f x).kind = x.kind ∧ (f x).loop = x.loop ∧ (f x).closing = x.closing) :
    LoopBase (io.setHandle h f) := by
  have hcase : ∀ h', (io.setHandle h f).handles h' = io.handles h' ∨
      h' = h ∧ (io.setHandle h f).handles h' = f (io.handles h') := by
    intro h'
    by_cases he : h' = h
    · exact .inr ⟨he, by rw [he, Io.setHandle_handles_self]⟩
    · exact .inl (Function.update_of_ne he _ _)
  have hsame : ∀ h', ((io.setHandle h f).handles h').kind = (io.handles h').kind ∧
      ((io.setHandle h f).handles h').loop = (io.handles h').loop ∧
      ((io.setHandle h f).handles h').closing = (io.handles h').closing := by
    intro h'
    rcases hcase h' with he | ⟨-, he⟩
    · rw [he]
      exact ⟨rfl, rfl, rfl⟩
    · rw [he]
      exact hf _
  refine ⟨fun h' => ?_, fun h' hm => ?_, fun h' hs => ?_, fun h' hk' => ?_, fun h' hk' => ?_⟩
  · rw [(hsame h').2.1]
    exact hb.past h'
  · rw [(hsame h').1]
    exact hb.ptrs h' hm
  · rw [(hsame h').1]
    exact hb.signal h' hs
  · rw [(hsame h').2.2]
    exact hb.nullCb h' ((hsame h').1 ▸ hk')
  · rcases hcase h' with he | ⟨rfl, -⟩
    · rw [he] at hk' ⊢
      exact hb.client h' hk'
    · exact absurd ((hsame h').1 ▸ hk') hk

private theorem LoopBase.onHandle (hb : LoopBase io) {p : Io → Option Nat} (hp : p io ∈ io.loopPtrs)
    {f : Handle → Handle} (hf : ∀ x, (f x).kind = x.kind ∧ (f x).loop = x.loop ∧ (f x).closing = x.closing) :
    LoopBase (ServerLynx.onHandle p (fun io h => io.setHandle h f) io) := by
  unfold ServerLynx.onHandle
  cases hh : p io with
  | none => exact hb
  | some h => exact hb.setOther (hb.ptrs h (hh ▸ hp)) hf

private theorem releaseAll_loopBase (hb : LoopBase io) : LoopBase (releaseAll io) := by
  have hrel : ∀ {io : Io}, LoopBase io → ∀ {p : Io → Option Nat}, p io ∈ io.loopPtrs →
      LoopBase (onHandle p Io.releaseHandle io) := fun hb _ hp => hb.onHandle hp fun _ => ⟨rfl, rfl, rfl⟩
  have hblock : ∀ {io : Io}, LoopBase io → ∀ p : Io → Option Nat, LoopBase (onHandle p Io.releaseBlock io) := by
    intro io hb p
    unfold onHandle
    split
    · exact hb
    · exact ⟨hb.past, hb.ptrs, hb.signal, hb.nullCb, hb.client⟩
  have h₁ := hrel hb (p := (·.uvCheck)) (by simp [Io.loopPtrs])
  have h₂ := hrel h₁ (p := (·.uvPrep)) (by simp [Io.loopPtrs])
  have h₃ := hrel h₂ (p := (·.uvAcceptTimer)) (by simp [Io.loopPtrs])
  have h₄ := hrel h₃ (p := (·.tcpHandle)) (by simp [Io.loopPtrs])
  have h₅ := hblock (hblock h₄ (·.uvLoop)) (·.sendReq)
  refine { h₅ with ptrs := fun h hm => ?_ }
  change some h ∈ [none, none, none, none, _] at hm
  refine h₅.ptrs h ?_
  simp only [Io.loopPtrs, List.mem_cons, reduceCtorEq, List.not_mem_nil, or_false, false_or] at hm ⊢
  exact .inr (.inr (.inr (.inr hm)))

theorem onHandle_off (p : Io → Option Nat) {f : Io → Nat → Io}
    (hf : ∀ io h, (f io h).loopIsInit = io.loopIsInit ∧ (f io h).phase = io.phase) (io : Io) :
    (onHandle p f io).loopIsInit = io.loopIsInit ∧ (onHandle p f io).phase = io.phase := by
  unfold onHandle
  split
  · exact ⟨rfl, rfl⟩
  · exact hf ..

private theorem releaseAll_off (io : Io) :
    (releaseAll io).loopIsInit = io.loopIsInit ∧ (releaseAll io).phase = io.phase := by
  have hh : ∀ p io, (onHandle p Io.releaseHandle io).loopIsInit = io.loopIsInit ∧
      (onHandle p Io.releaseHandle io).phase = io.phase := fun p => onHandle_off p fun _ _ => ⟨rfl, rfl⟩
  have hb : ∀ p io, (onHandle p Io.releaseBlock io).loopIsInit = io.loopIsInit ∧
      (onHandle p Io.releaseBlock io).phase = io.phase := fun p => onHandle_off p fun _ _ => ⟨rfl, rfl⟩
  simp only [releaseAll, hh, hb, and_self]

private theorem cleanup_anchored (hb : LoopBase io) (hinit : io.loopIsInit = false) (hoff : io.phase = .off)
    (ret : Int) : KeepsLoop can (ioThreadCleanup ret) io := by
  have ha := hb.anchored hinit hoff
  have ha' := (releaseAll_loopBase hb).anchored ((releaseAll_off io).1.trans hinit) ((releaseAll_off io).2.trans hoff)
  simp only [KeepsLoop, ioThreadCleanup, Code.path_bind, Code.path_ite, Code.path_op, Code.path_modify]
  exact ⟨fun _ => ⟨ha, fun _ _ => ⟨ha', fun _ _ => ha'⟩⟩, fun _ => ⟨ha', fun _ _ => ha'⟩⟩

/-- When `uv_run` returns, the loop has no handle left: one that is not closed is active or closing. -/
private theorem Anchored.returned (hi : IoInv n E io) (hs : Settled io) (hp : io.phase = .running) (ha : Anchored io)
    (halive : io.uvLoopAlive = false) : io.uvLoopClose = 0 := by
  simp only [Io.uvLoopAlive, Bool.or_eq_false_iff, List.any_eq_false, List.mem_range, Bool.and_eq_true,
    Bool.or_eq_true, not_and, not_or] at halive
  have hidle := halive.1.1
  have hup := ha.up hp
  -- the timer is closed, so every handle of the thread is being closed
  have hclosing : LoopClosing io := by
    obtain ⟨t, ht, hk, hinit, hl, hr | hc⟩ := hup.timer
    · have hlt := (hi.loop t (by simp [Io.loopPtrs, ht])).1
      refine absurd ?_ (hidle t hlt (by simp [Io.InLoop, hinit, hl, hr.closed])).1
      simp [Handle.isActive, hr.started]
    · exact hc
  have hnone : ∀ h < io.handleCount, io.InLoop h = false := by
    intro h hlt
    by_contra hin
    have hin := Bool.of_not_eq_false hin
    obtain ⟨hact, hcl⟩ := hidle h hlt hin
    simp only [Io.InLoop, Bool.and_eq_true, Bool.not_eq_true', decide_eq_true_eq] at hin
    by_cases hk : (io.handles h).kind = .tcpClient
    · obtain ⟨i, hh⟩ := ha.client h hk hin.1.1 (by simpa [Handle.isClosing] using hcl)
      exact (hs.running hp h i hh).2.2.elim hact hcl
    · exact hcl (hclosing h (hup.registered h hk hin.1.1 hin.2))
  have : (List.range io.handleCount).any io.InLoop = false := by
    rw [List.any_eq_false]
    intro h hm
    simp [hnone h (List.mem_range.1 hm)]
  simp [Io.uvLoopClose, this]

private theorem return_anchored (hi : IoInv n E io) (hs : Settled io) (hp : io.phase = .running) (ha : Anchored io)
    (halive : io.uvLoopAlive = false) : KeepsLoop can IoRun.uvRunReturn.code io := by
  have hret := ha.returned hi hs hp halive
  have hclose : ({ io with phase := .off } : Io).uvLoopClose = 0 := hret
  simp only [KeepsLoop, IoRun.code, ioThreadClose, Code.path_bind, Code.path_modify, Code.path_ite]
  have hb : LoopBase { io with phase := .off, loopIsInit := false } :=
    ⟨ha.past, ha.ptrs, ha.signal, ha.nullCb, ha.client⟩
  exact closeLoop_path (fun _ => ⟨by simp, fun _ => cleanup_anchored hb rfl rfl 0⟩) fun hne => absurd hclose hne

end Close

/-! ### Start-up -/

section Start

variable {n : Nat} {E : Premises} {can : Io → (o : Op) → o.Res → Prop} {io : Io}

/-- During the start-up the handles of the thread in the new loop are neither closing nor released, and those that are
initialised are known to `priv`; before the loop is there, none is initialised. -/
private structure Starting (loopIsInit : Bool) (io : Io) : Prop extends LoopBase io where
  off : io.phase = .off
  init : loopIsInit = false → io.loopIsInit = false
  fresh : ∀ h, io.handleCount ≤ h → io.handles h = {}
  idle : ∀ h, (io.handles h).kind ≠ .tcpClient → (io.handles h).loop = io.loop →
    (io.handles h).closing = none ∧ (io.handles h).released = 0
  registered : ∀ h, (io.handles h).kind ≠ .tcpClient → (io.handles h).isInit = true → (io.handles h).loop = io.loop →
    loopIsInit = true ∧ some h ∈ io.loopPtrs

private structure Started (io : Io) : Prop extends Starting true io where
  block : ∃ b, io.uvLoop = some b ∧ (io.blocks b).released = 0
  timer : ∃ t, io.uvAcceptTimer = some t ∧ (io.handles t).kind = .timer ∧ (io.handles t).isInit = true ∧
    (io.handles t).loop = io.loop ∧ (io.handles t).Runs

private theorem Started.anchored (hs : Started io) : Anchored io :=
  { hs.toLoopBase with
    memory := fun _ => ⟨hs.block, fun h hk hl => (hs.idle h hk hl).2⟩
    up := fun h => absurd (hs.off.symm.trans h) (by simp) }

private theorem Started.enter (hs : Started io) : Anchored { io with phase := .running } := by
  refine { (⟨hs.past, hs.ptrs, hs.signal, hs.nullCb, hs.client⟩ : LoopBase { io with phase := .running }) with
    memory := fun _ => ⟨hs.block, fun h hk hl => (hs.idle h hk hl).2⟩
    up := fun _ => ⟨fun h hk hi hl => (hs.registered h hk hi hl).2, ?_⟩ }
  obtain ⟨t, ht, hk, hi, hl, hr⟩ := hs.timer
  exact ⟨t, ht, hk, hi, hl, .inl hr⟩

private theorem Starting.acquired (hs : Starting false io) {k : HandleKind} (hk : k ≠ .tcpClient)
    {p₁ p₂ p₃ p₄ p₅ : Option Nat}
    (hm : ∀ h, some h ∈ [p₁, p₂, p₃, p₄, p₅] → h = io.handleCount ∨ some h ∈ io.loopPtrs)
    (hsig : ∀ h, p₅ = some h → h = io.handleCount ∧ k = .signal ∨ io.uvSignal = some h) :
    Starting false { io.acquireHandle k with
      tcpHandle := p₁, uvAcceptTimer := p₂, uvPrep := p₃, uvCheck := p₄, uvSignal := p₅ } := by
  have hself : (io.acquireHandle k).handles io.handleCount = { kind := k, loop := io.loop } :=
    Function.update_self ..
  have hne : ∀ h, h ≠ io.handleCount → (io.acquireHandle k).handles h = io.handles h :=
    fun h hne => Function.update_of_ne hne _ _
  refine ⟨⟨fun h => ?_, fun h hp => ?_, fun h hp => ?_, fun h hk' => ?_, fun h hk' hi hc => ?_⟩, hs.off, hs.init,
    fun h hle => ?_, fun h hk' hl => ?_, fun h hk' hi hl => ?_⟩
  all_goals dsimp only at *
  · by_cases he : h = io.handleCount
    · rw [he, hself]
      exact Nat.le_refl _
    · rw [hne h he]
      exact hs.past h
  · by_cases he : h = io.handleCount
    · rw [he, hself]
      exact hk
    · rw [hne h he]
      exact hs.ptrs h ((hm h hp).resolve_left he)
  · rcases hsig h hp with ⟨rfl, hkind⟩ | hold
    · rw [hself]
      exact hkind
    · have he : h ≠ io.handleCount := by
        rintro rfl
        have := hs.signal _ hold
        rw [hs.fresh _ (Nat.le_refl _)] at this
        simp at this
      rw [hne h he]
      exact hs.signal h hold
  · by_cases he : h = io.handleCount
    · rw [he, hself]
      exact .inl rfl
    · rw [hne h he] at hk' ⊢
      exact hs.nullCb h hk'
  · by_cases he : h = io.handleCount
    · rw [he, hself] at hk'
      exact absurd hk' hk
    · rw [hne h he] at hk' hi hc ⊢
      exact hs.client h hk' hi hc
  · have hle' : io.handleCount + 1 ≤ h := hle
    rw [hne h (by omega)]
    exact hs.fresh h (by omega)
  · by_cases he : h = io.handleCount
    · rw [he, hself]
      exact ⟨rfl, rfl⟩
    · rw [hne h he] at hk' hl ⊢
      exact hs.idle h hk' hl
  · by_cases he : h = io.handleCount
    · rw [he, hself] at hi
      simp at hi
    · rw [hne h he] at hk' hi hl
      exact absurd (hs.registered h hk' hi hl).1 (by simp)

private theorem Starting.onHandle (hs : Starting true io) {p : Io → Option Nat} (hp : p io ∈ io.loopPtrs)
    {f : Handle → Handle} (hf : ∀ x, (f x).kind = x.kind ∧ (f x).loop = x.loop ∧ (f x).closing = x.closing ∧
      (f x).released = x.released) :
    Starting true (ServerLynx.onHandle p (fun io h => io.setHandle h f) io) := by
  have hb := hs.toLoopBase.onHandle hp fun x => ⟨(hf x).1, (hf x).2.1, (hf x).2.2.1⟩
  unfold ServerLynx.onHandle at hb ⊢
  cases hh : p io with
  | none => exact hs
  | some h =>
    rw [hh] at hb hp
    have hself : (io.setHandle h f).handles h = f (io.handles h) := Io.setHandle_handles_self ..
    have hne : ∀ h', h' ≠ h → (io.setHandle h f).handles h' = io.handles h' :=
      fun h' hne => Function.update_of_ne hne _ _
    refine { hb with off := hs.off, init := by simp, fresh := fun h' hle => ?_, idle := fun h' hk hl => ?_,
                     registered := fun h' hk hi hl => ?_ }
    · by_cases he : h' = h
      · subst he
        have := hs.ptrs h' hp
        rw [hs.fresh h' hle] at this
        simp at this
      · exact (hne h' he).trans (hs.fresh h' hle)
    · by_cases he : h' = h
      · subst he
        dsimp only at hk hl ⊢
        rw [hself, (hf _).1] at hk
        rw [hself, (hf _).2.1] at hl
        rw [hself, (hf _).2.2.1, (hf _).2.2.2]
        exact hs.idle h' hk hl
      · dsimp only at hk hl ⊢
        rw [hne h' he] at hk hl ⊢
        exact hs.idle h' hk hl
    · by_cases he : h' = h
      · exact ⟨rfl, he ▸ hp⟩
      · dsimp only at hk hi hl
        rw [hne h' he] at hk hi hl
        exact hs.registered h' hk hi hl

/-- Nothing changes that the start-up of the loop depends on. -/
private theorem Starting.of_eq {b : Bool} (hs : Starting b io) {l : Io} (hh : l.handles = io.handles)
    (hc : l.handleCount = io.handleCount) (hl : l.loop = io.loop) (hp : l.loopPtrs = io.loopPtrs)
    (hsig : l.uvSignal = io.uvSignal) (hoff : l.phase = io.phase) (hi : b = false → l.loopIsInit = io.loopIsInit) :
    Starting b l := by
  refine ⟨⟨?_, ?_, ?_, ?_, ?_⟩, hoff.trans hs.off, fun hb => (hi hb).trans (hs.init hb), ?_, ?_, ?_⟩
  · rw [hh, hl]
    exact hs.past
  · rw [hh, hp]
    exact hs.ptrs
  · rw [hh, hsig]
    exact hs.signal
  · rw [hh]
    exact hs.nullCb
  · rw [hh]
    exact hs.client
  · rw [hh, hc]
    exact hs.fresh
  · rw [hh, hl]
    exact hs.idle
  · rw [hh, hl, hp]
    exact hs.registered

/-- Pointers of `priv` become NULL before the loop is there. -/
private theorem Starting.drop (hs : Starting false io) {p₁ p₂ p₃ p₄ p₅ : Option Nat}
    (hm : ∀ h, some h ∈ [p₁, p₂, p₃, p₄, p₅] → some h ∈ io.loopPtrs) (hsig : ∀ h, p₅ = some h → io.uvSignal = some h) :
    Starting false { io with
      tcpHandle := p₁, uvAcceptTimer := p₂, uvPrep := p₃, uvCheck := p₄, uvSignal := p₅ } :=
  ⟨⟨hs.past, fun h hp => hs.ptrs h (hm h hp), fun h hp => hs.signal h (hsig h hp), hs.nullCb, hs.client⟩, hs.off,
    hs.init, hs.fresh, hs.idle, fun h hk hi hl => absurd (hs.registered h hk hi hl).1 (by simp)⟩

private theorem acquireLines_starting (out : StartOut) (count : Nat) :
    ∀ g ∈ (startLines out count).take 9, ∀ io, Starting false io →
      Starting false (g.onFail io) ∧ Starting false (g.onOk io) := by
  intro g hg io hs
  simp only [startLines, List.take, List.mem_cons, List.not_mem_nil, or_false] at hg
  rcases hg with rfl | rfl | rfl | rfl | rfl | rfl | rfl | rfl | rfl
  all_goals simp only [Guarded.acquire, Guarded.quiet]
  · exact ⟨hs.of_eq rfl rfl rfl rfl rfl rfl fun _ => rfl, hs.of_eq rfl rfl rfl rfl rfl rfl fun _ => rfl⟩
  · exact ⟨hs.drop (by grind [Io.loopPtrs]) (by simp), hs.acquired (k := .tcpListen) (by simp)
      (by grind [Io.loopPtrs, allocHandle, Io.acquireHandle]) fun _ h => .inr h⟩
  · exact ⟨hs.drop (by grind [Io.loopPtrs]) (by simp), hs.acquired (k := .timer) (by simp)
      (by grind [Io.loopPtrs, allocHandle, Io.acquireHandle]) fun _ h => .inr h⟩
  · exact ⟨hs.drop (by grind [Io.loopPtrs]) (by simp), hs.acquired (k := .prepare) (by simp)
      (by grind [Io.loopPtrs, allocHandle, Io.acquireHandle]) fun _ h => .inr h⟩
  · exact ⟨hs.drop (by grind [Io.loopPtrs]) (by simp), hs.acquired (k := .check) (by simp)
      (by grind [Io.loopPtrs, allocHandle, Io.acquireHandle]) fun _ h => .inr h⟩
  · exact ⟨hs.drop (fun h hm => by simp [Io.loopPtrs] at hm ⊢; tauto) (by simp), hs.acquired (k := .signal) (by simp)
      (by grind [Io.loopPtrs, allocHandle, Io.acquireHandle]) fun _ h => .inl ⟨(Option.some.inj h).symm, rfl⟩⟩
  all_goals exact ⟨hs.of_eq rfl rfl rfl rfl rfl rfl fun _ => rfl, hs.of_eq rfl rfl rfl rfl rfl rfl fun _ => rfl⟩

private theorem loopLines_starting (out : StartOut) (count : Nat) :
    ∀ g ∈ (startLines out count).drop 9, ∀ io, Starting true io →
      Starting true (g.onFail io) ∧ Starting true (g.onOk io) := by
  intro g hg io hs
  simp only [startLines, List.drop, List.mem_cons, List.not_mem_nil, or_false] at hg
  rcases hg with rfl | rfl | rfl | rfl | rfl | rfl | rfl | rfl | rfl
  · exact ⟨hs, hs.of_eq rfl rfl rfl rfl rfl rfl (by simp)⟩
  all_goals exact ⟨hs, hs.onHandle (by simp [Io.loopPtrs]) fun _ => ⟨rfl, rfl, rfl, rfl⟩⟩

private theorem startLines_eq {out : StartOut} {count : Nat} {ret ret' : Int} {io' : Io}
    (hrun : Guarded.runAll (startLines out count) ret io = (true, ret', io')) :
    (∃ b, io'.uvLoop = some b ∧ (io'.blocks b).released = 0) ∧
      (∃ t, io'.uvAcceptTimer = some t ∧ (io'.handles t).kind = .timer ∧ (io'.handles t).isInit = true ∧
        (io'.handles t).loop = io'.loop ∧ (io'.handles t).Runs) ∧
      ∀ h, io'.tcpHandle = some h → (io'.handles h).isInit = false := by
  rw [Guarded.runAll_eq_true hrun]
  simp only [startLines, Guarded.acquire, Guarded.call, Guarded.quiet, allocBlock, allocHandle, onHandle,
    Io.acquireBlock, Io.acquireHandle, Io.uvInit, Io.uvStart, Io.setHandle, List.foldl]
  refine ⟨⟨io.blockCount, rfl, ?_⟩, ⟨io.handleCount + 1, rfl, ?_⟩, ?_⟩
  · simp
  · simp [Function.update_apply]
    exact ⟨rfl, rfl, rfl⟩
  · simp [Function.update_apply, Nat.add_assoc]

/-- The start-up comes to an end without a loop, or with the loop and its timer, and the listener not initialised. -/
private theorem startLines_started {out : StartOut} (hclean : out.loopInit = 0 → ∀ status ∈ out.afterLoopInit,
    status = 0) (count : Nat) (ret : Int) (hs : Starting false io) {ok : Bool} {ret' : Int} {io' : Io}
    (hrun : Guarded.runAll (startLines out count) ret io = (ok, ret', io')) :
    (ok = false → Starting false io') ∧
      (ok = true → out.loopInit = 0 ∧ Started io' ∧ ∀ h, io'.tcpHandle = some h → (io'.handles h).isInit = false) := by
  have h₁ := Guarded.runAll_induct (acquireLines_starting out count) ret hs
  have hrun' := hrun
  rw [← List.take_append_drop 9 (startLines out count), Guarded.runAll_append] at hrun'
  generalize Guarded.runAll ((startLines out count).take 9) ret io = x at h₁ hrun'
  obtain ⟨ok₁, ret₁, io₁⟩ := x
  dsimp only at h₁ hrun'
  cases ok₁ with
  | false =>
    simp only [Bool.false_eq_true, if_false, Prod.mk.injEq] at hrun'
    obtain ⟨rfl, -, rfl⟩ := hrun'
    exact ⟨fun _ => h₁, by simp⟩
  | true =>
    simp only [if_true] at hrun'
    by_cases hinit : out.loopInit = 0
    · have hok := Guarded.runAll_ok (g := (startLines out count).drop 9) (fun g hg => ?_) ret₁ io₁
      swap
      · have hall := hclean hinit
        simp only [StartOut.afterLoopInit, List.mem_cons, List.not_mem_nil, or_false] at hall
        simp only [startLines, List.drop, List.mem_cons, List.not_mem_nil, or_false] at hg
        rcases hg with rfl | rfl | rfl | rfl | rfl | rfl | rfl | rfl | rfl <;>
          simp [Guarded.call, hinit, hall]
      rw [hrun'] at hok
      dsimp only at hok
      subst hok
      refine ⟨by simp, fun _ => ?_⟩
      have h₂ : Starting true io' := by
        have := Guarded.runAll_induct (loopLines_starting out count) ret₁ (P := Starting true)
          { h₁ with init := by simp, registered := fun h hk hi hl => absurd (h₁.registered h hk hi hl).1 (by simp) }
        rwa [hrun'] at this
      obtain ⟨hblock, htimer, htcp⟩ := startLines_eq hrun
      exact ⟨hinit, ⟨h₂, hblock, htimer⟩, htcp⟩
    · have hcons : (startLines out count).drop 9 = .call out.loopInit (fun io => { io with loopIsInit := true }) ::
          (startLines out count).drop 10 := rfl
      simp only [hcons, Guarded.runAll, Guarded.call, hinit, ne_eq, not_false_eq_true, decide_true, if_true, id,
        Prod.mk.injEq] at hrun'
      obtain ⟨rfl, -, rfl⟩ := hrun'
      exact ⟨fun _ => h₁, by simp⟩

private theorem Started.onHandle (hs : Started io) {p : Io → Option Nat} (hp : p io ∈ io.loopPtrs) {f : Handle → Handle}
    (hf : ∀ x, (f x).kind = x.kind ∧ (f x).loop = x.loop ∧ (f x).closing = x.closing ∧ (f x).released = x.released)
    (hr : ∀ x, (x.isInit = true → (f x).isInit = true) ∧ (x.Runs → (f x).Runs)) :
    Started (ServerLynx.onHandle p (fun io h => io.setHandle h f) io) := by
  have hs' := hs.toStarting.onHandle hp hf
  unfold ServerLynx.onHandle at hs' ⊢
  cases hh : p io with
  | none => exact hs
  | some h =>
    rw [hh] at hs'
    obtain ⟨t, ht, hk, hi, hl, hrun⟩ := hs.timer
    refine ⟨hs', hs.block, t, ht, ?_⟩
    dsimp only
    by_cases he : t = h
    · subst he
      rw [Io.setHandle_handles_self]
      exact ⟨(hf _).1.trans hk, (hr _).1 hi, (hf _).2.1.trans hl, (hr _).2 hrun⟩
    · have hne : (io.setHandle h f).handles t = io.handles t := Function.update_of_ne he _ _
      rw [hne]
      exact ⟨hk, hi, hl, hrun⟩

private theorem listenLines_started (out : StartOut) :
    ∀ g ∈ listenLines out, ∀ io, Started io → Started (g.onFail io) ∧ Started (g.onOk io) := by
  intro g hg io hs
  simp only [listenLines, List.mem_cons, List.not_mem_nil, or_false] at hg
  rcases hg with rfl | rfl | rfl | rfl | rfl
  · exact ⟨hs, hs.onHandle (by simp [Io.loopPtrs]) (fun _ => ⟨rfl, rfl, rfl, rfl⟩)
      fun _ => ⟨fun _ => rfl, fun h => ⟨h.started, h.closing, h.closed⟩⟩⟩
  · exact ⟨hs, hs⟩
  · exact ⟨hs, hs⟩
  · exact ⟨hs, hs.onHandle (by simp [Io.loopPtrs]) (fun _ => ⟨rfl, rfl, rfl, rfl⟩)
      fun _ => ⟨fun h => h, fun h => ⟨rfl, h.closing, h.closed⟩⟩⟩
  · exact ⟨hs, hs⟩

private theorem Started.noListener (hs : Started io) (htcp : ∀ h, io.tcpHandle = some h →
    (io.handles h).isInit = false) :
    Started { io with tcpHandle := none } := by
  have hptrs : ∀ h, some h ∈ [none, io.uvAcceptTimer, io.uvPrep, io.uvCheck, io.uvSignal] → some h ∈ io.loopPtrs := by
    intro h hm
    simp only [Io.loopPtrs, List.mem_cons, reduceCtorEq, false_or] at hm ⊢
    exact .inr hm
  refine { off := hs.off, init := by simp, fresh := hs.fresh, idle := hs.idle, block := hs.block, timer := hs.timer
           past := hs.past, ptrs := fun h hm => hs.ptrs h (hptrs h hm), signal := hs.signal, nullCb := hs.nullCb
           client := hs.client, registered := fun h hk hi hl => ?_ }
  have hm := (hs.registered h hk hi hl).2
  simp only [Io.loopPtrs, List.mem_cons, List.not_mem_nil, or_false] at hm ⊢
  rcases hm with hm | hm
  · rw [htcp h hm.symm] at hi
    exact absurd hi (by simp)
  · exact ⟨trivial, .inr hm⟩

private theorem thread_anchored (hi : IoInv n E io) (ha : Anchored io) (hoff : io.phase = .off)
    (hstart : ∀ l st, l.phase = .off → can l .stateLoad st → st = .starting) {out : StartOut}
    (hclean : out.loopInit = 0 → ∀ status ∈ out.afterLoopInit, status = 0) :
    KeepsLoop can (svlServiceIoThread out) io := by
  -- the new loop has no handle of the thread yet
  have hs₀ : Starting false { io with
      loop := io.loop + 1, loopIsInit := false, uvLoop := none, tcpHandle := none, uvAcceptTimer := none
      uvPrep := none, uvCheck := none } := by
    have hold : ∀ h, (io.handles h).loop ≠ io.loop + 1 := fun h => Nat.ne_of_lt (Nat.lt_succ_of_le (ha.past h))
    refine ⟨⟨fun h => Nat.le_succ_of_le (ha.past h), fun h hm => ha.ptrs h ?_, ha.signal, ha.nullCb, ha.client⟩, hoff,
      fun _ => rfl, hi.slots.fresh, fun h _ hl => absurd hl (hold h), fun h _ _ hl => absurd hl (hold h)⟩
    simp [Io.loopPtrs] at hm ⊢
    simp [hm]
  simp only [KeepsLoop, svlServiceIoThread, Code.path_bind, Code.path_get, Code.path_modify]
  generalize { io with
      loop := io.loop + 1, loopIsInit := false, uvLoop := none, tcpHandle := none, uvAcceptTimer := none
      uvPrep := none, uvCheck := none } = io₀ at hs₀ ⊢
  rcases hrun : Guarded.runAll (startLines out io.bufferCount) uvEnomem io₀ with ⟨ok, ret, io₁⟩
  obtain ⟨hfail, hok⟩ := startLines_started hclean _ _ hs₀ hrun
  have hfailed : ∀ {io : Io}, Starting false io → ∀ ret, KeepsLoop can (ioThreadCleanup ret) io :=
    fun hs ret => cleanup_anchored hs.toLoopBase (hs.init rfl) hs.off ret
  -- the end of the start-up, with a listener or without one
  have hend : ∀ io₂ : Io, Started io₂ → KeepsLoop can (do
      let state ← perform .stateLoad
      if state = .starting then
        perform (.stateStore .started)
        modify fun io => { io with phase := .running }
      else
        ioThreadClose) io₂ := by
    intro io₂ hs₂
    simp only [KeepsLoop, Code.path_bind, Code.path_ite, Code.path_op, Code.path_modify]
    refine ⟨hs₂.anchored, fun state hst => ⟨fun _ => ⟨hs₂.anchored, fun _ _ => hs₂.enter⟩, fun hne => ?_⟩⟩
    exact absurd (hstart io₂ state hs₂.off hst) hne
  simp only [KeepsLoop, Code.path_bind, Code.path_ite, Code.path_op, Code.path_modify] at hend
  simp only [Code.path_bind, Code.path_set, Code.path_ite, Code.path_op]
  refine ⟨fun hno => hfailed (hfail (by simpa using hno)) ret, fun hyes => ?_⟩
  obtain ⟨hinit, hs₁, htcp⟩ := hok (by simpa using hyes)
  refine ⟨hs₁.anchored, fun hostListen _ => ⟨fun _ => ?_, fun _ => ?_⟩⟩
  · have hs₂ := Guarded.runAll_induct (listenLines_started out) ret hs₁
    have hlisten := Guarded.runAll_ok (g := listenLines out) (fun g hg => ?_) ret io₁
    · simp only [Code.path_get]
      generalize Guarded.runAll (listenLines out) ret io₁ = x at hs₂ hlisten ⊢
      exact ⟨fun hno => absurd hlisten (by simpa using hno), fun _ => hend _ hs₂⟩
    · have hall := hclean hinit
      simp only [StartOut.afterLoopInit, List.mem_cons, List.not_mem_nil, or_false] at hall
      simp only [listenLines, List.mem_cons, List.not_mem_nil, or_false] at hg
      rcases hg with rfl | rfl | rfl | rfl | rfl <;> simp [Guarded.call, Guarded.quiet, hall]
  · simp only [Code.path_modify]
    exact hend _ (hs₁.noListener htcp)

end Start

/-! ### Whole runs -/

section Runs

variable {n : Nat} {E : Premises} {can : Io → (o : Op) → o.Res → Prop} {io : Io} {c : ServiceConfig}

/-- What the IO thread is given to run keeps the memory of the loop, where the start-up runs cleanly. -/
private theorem IoRun.code_anchored (hcan : Promised can E) (hi : IoInv n E io) (hs : Settled io) (ha : Anchored io)
    (hstart : ∀ l st, l.phase = .off → can l .stateLoad st → st = .starting) {d : IoRun} {sh : Shared}
    (hr : d.ready sh io = true)
    (hclean : ∀ out, d = .thread out → out.loopInit = 0 → ∀ status ∈ out.afterLoopInit, status = 0) :
    KeepsLoop can d.code io := by
  cases d with
  | thread out =>
    simp only [IoRun.ready, Bool.and_eq_true, decide_eq_true_eq] at hr
    exact thread_anchored hi ha hr.1 hstart (hclean out rfl)
  | check out => exact check_anchored hi ha out
  | inbound status out =>
    exact onInboundConnectionCb_conns anchored_conns.toKeptByUse hi ha (fun l hl _ => ha.stray hi hl)
      (fun _ _ _ _ _ _ _ => trivial) status
  | outbound req status out =>
    simp only [IoRun.ready, Bool.and_eq_true, decide_eq_true_eq] at hr
    refine onOutboundConnectionCb_conns anchored_conns.toKeptByUse hi hs hr.1.1 hr.2 (fun h hh => ?_) status out
    obtain ⟨-, i, h', -, hh', hhold, -⟩ := hi.slots.pending req hr.2
    obtain rfl : h' = h := Option.some.inj (hh'.symm.trans hh)
    exact ha.setIdle ⟨rfl, rfl, rfl, rfl, rfl, .inl rfl⟩ hhold.1.1 rfl ⟨rfl, rfl, rfl⟩ ⟨fun hn => hn, fun _ _ hh => hh⟩
  | read handle out =>
    simp only [IoRun.ready, Bool.and_eq_true, decide_eq_true_eq] at hr
    exact uvRead_conns anchored_conns.toKeptByUse hcan hi hs hr.1.1 ha hr.2 out
  | close handle =>
    simp only [IoRun.ready, Bool.and_eq_true, decide_eq_true_eq, Bool.not_eq_true'] at hr
    exact uvFinishClose_conns anchored_conns hcan hi hs hr.1.1 ha hr.2.1 hr.2.2
  | send req => exact send_conns (n := n) (E := E) anchored_conns.toKeptByUse ha req
  | timer => exact onTimerCb_path ha ha fun l hl => ha.closes hl
  | signal isSigint => exact signal_anchored ha isSigint
  | uvRunReturn =>
    simp only [IoRun.ready, Bool.and_eq_true, decide_eq_true_eq, Bool.not_eq_true'] at hr
    exact return_anchored hi hs hr.1.1 ha hr.2

/-- In every run whose start-ups run cleanly, the memory of the loop is released only after `uv_loop_close` on it has
returned 0. -/
theorem loop_memory_kept (h : ReachWhen startsCleanly n c) : LoopMemoryKept c.fst.view.loc := by
  have hE : Premises.In ⟨False, False, False⟩ startsCleanly := ⟨False.elim, False.elim, False.elim, False.elim⟩
  have hK := fun c (hc : ReachWhen startsCleanly n c) => ioInv hE hc
  refine Anchored.kept (Machine.Reach.invariant₁ (I := fun v => Anchored v.loc)
    (K := fun _ v _ => IoInv n ⟨False, False, False⟩ v.loc ∧ (v.next = none → Settled v.loc)) hK
    (anchored_setup n) ?_ h)
  rintro d l ⟨sh, v, ⟨hi, hs⟩, hr, hc⟩ ha
  refine IoRun.code_anchored (hE.promised _) hi (hs rfl) ha ?_ hr ?_
  · rintro l' st hoff ⟨sh', v', _, -, hc', he⟩
    have hst : st = sh'.state := (Prod.mk.inj (Option.some.inj he)).1.symm
    simp only [startsCleanly, hoff, ne_eq, not_true_eq_false, decide_false, Bool.false_or, decide_eq_true_eq] at hc'
    exact hst.trans hc'
  · rintro out rfl hinit
    simpa [startsCleanly, hinit] using hc

/-- A service is started and stopped: the memory of its listener is released, and the loop is closed by then. -/
theorem loop_memory_kept_stopped : ∃ c, ReachWhen startsCleanly 1 c ∧
    (c.fst.view.loc.handles 0).kind = .tcpListen ∧ (c.fst.view.loc.handles 0).released = 1 ∧
    LoopMemoryKept c.fst.view.loc := by
  obtain ⟨c, hc, hk, hr⟩ := exists_reachWhen startsCleanly 1
    (.flatten [startUp, [.run₂ (.stop 0), .op₂, .op₂, .run₁ .timer, .op₁],
      [.run₁ (.close 0), .run₁ (.close 1), .run₁ (.close 2), .run₁ (.close 3), .run₁ (.close 4)],
      [.run₁ .uvRunReturn]])
    (fun c => (c.fst.view.loc.handles 0).kind = .tcpListen ∧ (c.fst.view.loc.handles 0).released = 1)
    (by decide +kernel)
  exact ⟨c, hc, hk, hr, loop_memory_kept hc⟩

/-- Stop comes before the IO thread looks at the state: `uv_loop_close` fails twice, since `uv_run` is not called again
to finish what `uv_walk` has closed, and the memory of the loop is released nevertheless. -/
theorem loop_memory_released : ∃ c, Reach 1 c ∧ ¬ LoopMemoryKept c.fst.view.loc := by
  obtain ⟨c, hc, hi, hl⟩ := exists_reachWhen .any 1
    [.run₂ (.start 0), .op₂, .op₂, .op₂, .run₂ (.stop 0), .op₂, .op₂, .run₁ (.thread {}), .op₁, .op₁, .op₁]
    (fun c => c.fst.view.loc.loopIsInit = true ∧ c.fst.view.loc.uvLoop = none) (by decide +kernel)
  refine ⟨c, hc, fun hkept => ?_⟩
  obtain ⟨⟨b, hb, -⟩, -⟩ := hkept hi
  exact absurd (hb.symm.trans hl) (by simp)

end Runs

end ServerLynx
