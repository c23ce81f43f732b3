import ServerLynx.Frames
import ServerLynx.Lifecycle

/-!
# Invariants of the connections

A property of the private state that is kept by each move that a callback makes with a connection (`KeptByConns`) is
kept by the callbacks.  What the start-up, the clean-up, the timer and the signal do to connections is one move
for all of them (`ServiceMove`); starting and giving up a connect are moves of their own, since properties may depend
on their outcome.
-/

namespace ServerLynx

open Threads

/-! ### The moves -/

/-- From `io` to `l` nothing changed that concerns the connections. -/
structure SameConns (io l : Io) : Prop extends SameLoop io l where
  count : l.handleCount = io.handleCount
  handles : l.handles = io.handles
  reqs : l.connectReqs = io.connectReqs
  reqCount : l.connectReqCount = io.connectReqCount
  links : l.linkList.clientMap = io.linkList.clientMap
  pushed : l.pushed = io.pushed

/-- What the callbacks on the connection of the handle `h` and the link `i` may push, where the ids of the events they
pop for an accepted connection satisfy `stale`. -/
def Pushable (stale : Nat → Prop) (io : Io) (h i : Nat) (p : Pushed) : Prop :=
  match p.evt.type with
  | .clientRead => True
  | .clientClose => p.evt.cmdId = (io.link i).cmdCloseId ∧ (io.handles h).closing ≠ none
  | .clientOpen => p.evt.cmdId = (io.link i).cmdOpenId ∨ (io.handles h).openCmd = none ∧ stale p.evt.cmdId

/-- The private state once a connect is no longer pending. -/
def Io.connected (io : Io) (q h : Nat) : Io :=
  (io.setConnectReq q fun r => { r with pending := false }).setHandle h fun x => { x with connecting := false }

/-- The private state once the command `cmd` has closed the connection of the handle `h` and the link `i`. -/
def Io.closedBy (io : Io) (cmd : Cmd) (i h : Nat) : Io :=
  ((io.setLink i fun link => { link with cmdCloseId := cmd.id, state := .closing }).uvClose h .link).setHandle h
    fun x => { x with closeCmd := some cmd }

/-- The moves of the callbacks that accept a connection or use one keep `J`. -/
structure KeptByUse (n : Nat) (E : Premises) (stale : Nat → Prop) (J : Io → Prop) : Prop where
  same : ∀ {io l}, J io → SameConns io l → J l
  conn : ∀ {io l h i}, J io → (io.handles h).Holds i → OnConn (Pushable stale io h i) h i io l → J l
  attach : ∀ {io i list}, IoInv n E io → J io → io.linkList.svlLinkListOpen = some (i, list) →
    J (io.attach i list none (Link.accept io.handleCount))

/-- So do those of the callbacks that end a connection. -/
structure KeptByConns (n : Nat) (E : Premises) (stale : Nat → Prop) (J : Io → Prop) : Prop
    extends KeptByUse n E stale J where
  closed : ∀ {io l h i}, J io → (io.handles h).Holds i → (io.handles h).closing ≠ none →
    ClosedConn (Pushable stale io h i) h i io l → J l
  stray : ∀ {io l}, IoInv n E io → J io → MadeStray none io l → J l
  finish : ∀ {io h}, J io → (io.handles h).closing ≠ none → J (io.setHandle h fun x => { x with closed := true })
  release : ∀ {io h}, J io → (io.handles h).closing = some .handle → J (io.releaseHandle h)

/-- From `io` to `l` only handles of the loop changed, or connections ended that nobody waits for. -/
structure ServiceMove (io l : Io) : Prop where
  conns : ConnsKept io l
  links : l.linkList = io.linkList
  pushed : l.pushed = io.pushed
  handled : l.handled = io.handled
  holds : ∀ h i, (l.handles h).Holds i → (io.handles h).Holds i

section Callbacks

variable {n : Nat} {E : Premises} {can : Io → (o : Op) → o.Res → Prop} {stale : Nat → Prop} {J : Io → Prop} {io : Io}

/-- `J` holds all along the code. -/
abbrev KeepsConns (can : Io → (o : Op) → o.Res → Prop) (J : Io → Prop) (m : IoM Unit) (io : Io) : Prop :=
  m.path can (fun l _ => J l) (fun l _ => J l) io

/-! ### Callbacks on connections -/

theorem onInboundConnectionCb_conns {out : InboundOut} (hJ : KeptByUse n E stale J) (hi : IoInv n E io) (h₀ : J io)
    (hstray : ∀ l, MadeStray none io l → (out.tcpInit = 0 → (l.handles io.handleCount).isInit = true) → J l)
    (hstale : ∀ i list (g : Link → Endpoint) e popped, io.linkList.svlLinkListOpen = some (i, list) →
      can ((io.attach i list none (Link.accept io.handleCount)).setLink i fun link =>
      { link with endpointRemote := g link })
        (.eventFreePop .clientOpen) (some (e, popped)) → stale popped.cmdId) (status : Int) :
    KeepsConns can J (onInboundConnectionCb status out) io := by
  refine onInboundConnectionCb_path
    (Q := fun p => p.evt.type = .clientOpen ∧ stale p.evt.cmdId) h₀ hstray ?_ ?_ status
  · intro i list ho l hl
    refine hJ.conn (hJ.attach hi h₀ ho) (h := io.handleCount) (i := i) ?_ (hl.mono fun p hp => ?_)
    · rw [Io.attach_handles_self]
      exact ⟨⟨rfl, rfl, rfl, .inr ⟨rfl, rfl⟩⟩, rfl⟩
    · simp only [Pushable, hp.1, Io.attach_handles_self]
      exact .inr ⟨trivial, hp.2⟩
  · intro i list g e popped evt ho hcan ht hid
    exact ⟨ht, hid ▸ hstale i list g e popped ho hcan⟩

theorem onOutboundConnectionCb_conns (hJ : KeptByUse n E stale J) (hi : IoInv n E io) (hs : Settled io)
    (hp : io.phase = .running) {req : Nat} (hr : (io.connectReqs req).pending = true)
    (h₀ : ∀ h, (io.connectReqs req).handle = some h → J (io.connected req h)) (status : Int) (out : ConnectedOut) :
    KeepsConns can J (IoRun.outbound req status out).code io := by
  obtain ⟨h, i, hd, hh, -, -, -, hb⟩ := hi.connected hs hp hr
  simp only [KeepsConns, IoRun.code, Code.path_bind, Code.path_modify]
  have hh' : ((io.setConnectReq req fun q => { q with pending := false }).connectReqs req).handle = some h := by
    simpa [Io.setConnectReq] using hh
  simp only [onHandle, hh']
  have hconn : ∀ l, OnConn (Pushable stale (io.connected req h) h i) h i (io.connected req h) l → J l :=
    fun l hl => hJ.conn (h₀ h hh) hb.holds hl
  refine Code.path_mono (fun l _ hl => hconn l hl) (fun l _ hl => hconn l hl)
    (onOutboundConnectionCb_onConn (h := h) (i := i) ?_ ?_ (fun evt ht hid => ?_) status out)
  · simpa [Io.connected, Io.setConnectReq, Io.setHandle] using hd
  · simpa [Io.connected, Io.setHandle] using hh'
  · simp only [Pushable, ht]
    exact .inl hid

theorem uvRead_conns (hJ : KeptByUse n E stale J) (hcan : Promised can E) (hi : IoInv n E io) (hs : Settled io)
    (hp : io.phase = .running) (h₀ : J io) {h : Nat} (hr : (io.handles h).reading = true) (out : ReadOut) :
    KeepsConns can J (uvRead h out) io := by
  obtain ⟨i, hb, -⟩ := hi.reading hs hp hr
  have hconn : ∀ l, OnConn (Pushable stale io h i) h i io l → J l := fun l hl => hJ.conn h₀ hb.holds hl
  refine Code.path_mono (fun l _ hl => hconn l hl) (fun l _ hl => hconn l hl)
    (uvRead_onConn hcan (fun evt ht => ?_) hb.holds.data out)
  simp only [Pushable, ht]

theorem uvFinishClose_conns (hJ : KeptByConns n E stale J) (hcan : Promised can E) (hi : IoInv n E io)
    (hs : Settled io) (hp : io.phase = .running) (h₀ : J io) {h : Nat} (hc : (io.handles h).isClosing = true)
    (hd : (io.handles h).closed = false) : KeepsConns can J (uvFinishClose h) io := by
  obtain ⟨cb, hcb⟩ := Option.isSome_iff_exists.1 hc
  simp only [KeepsConns, uvFinishClose, Code.path_bind, Code.path_modify, Code.path_get, Io.setHandle_handles_self, hcb]
  have hfin : J (io.setHandle h fun x => { x with closed := true }) := hJ.finish h₀ (by simp [hcb])
  cases cb with
  | null => exact hfin
  | handle =>
    simp only [onCloseHandleCb, Code.path_modify]
    exact hJ.release hfin (by simpa using hcb)
  | link =>
    obtain ⟨i, hcl⟩ := hi.closing hs hp hcb hd
    refine Code.path_mono (fun l _ hl => hJ.conn hfin hcl.holds hl)
      (fun l _ hl => hJ.closed hfin hcl.holds (by simp [hcb]) hl)
      (onCloseLinkCb_onConn hcan hcl.holds.data fun evt ht hid => ?_)
    simp only [Pushable, ht]
    exact ⟨hid, by simp [hcb]⟩

theorem send_conns (hJ : KeptByUse n E stale J) (h₀ : J io) (req : Nat) :
    KeepsConns can J (IoRun.send req).code io := by
  simp only [KeepsConns, IoRun.code, onSendCb, pushSendReq, undefinedBehaviour, Code.path_bind, Code.path_modify,
    Code.path_get]
  split
  · simp only [Code.path_modify]
    split <;> exact hJ.same h₀ ⟨⟨rfl, rfl, rfl, rfl, rfl, .inl rfl⟩, rfl, rfl, rfl, rfl, rfl, rfl⟩
  · exact hJ.same h₀ ⟨⟨rfl, rfl, rfl, rfl, rfl, .inr rfl⟩, rfl, rfl, rfl, rfl, rfl, rfl⟩

/-! ### Commands -/

theorem handleCmd_conns (hJ : KeptByUse n E stale J) (hi : IoInv n E io) (h₀ : J io) {cmd : Cmd} {out : CmdOut}
    (hfail : cmd.type = .clientOpen → ¬ out.Dials io → J io ∧ ∀ l, MadeStray (some cmd) io l →
      (out.tcpInit = 0 → (l.handles io.handleCount).isInit = true) → J l)
    (hdial : cmd.type = .clientOpen → ∀ i list l, io.linkList.svlLinkListOpen = some (i, list) →
      Dialled io cmd i l → J l)
    (hclose : ∀ i h, (io.handles h).Holds i → (io.handles h).closing = none → J (io.closedBy cmd i h)) :
    (handleCmd cmd out).path can (fun l _ => J l) (fun l _ => J l) io := by
  unfold handleCmd
  cases ht : cmd.type with
  | clientOpen =>
    simp only [Code.path_bind, Code.path_pure]
    exact handleCmdOpen_path (fun hno => (hfail ht hno).1) (fun hno => (hfail ht hno).2) (hdial ht)
  | clientClose =>
    simp only [handleCmdClose, Code.path_bind, Code.path_get]
    cases hu : usableLink io cmd.clientId with
    | none => exact h₀
    | some x =>
      obtain ⟨i, h⟩ := x
      simp only [modifyLink, Code.path_bind, Code.path_modify, Code.path_pure]
      obtain ⟨-, -, -, -, hh, hn⟩ := usableLink_eq_some hi.slots hu
      exact hclose i h hh hn
  | clientSend =>
    simp only [handleCmdSend, pushSendReq, Code.path_bind, Code.path_get]
    cases usableLink io cmd.clientId with
    | none => exact h₀
    | some x =>
      simp only [Code.path_bind, Code.path_get]
      cases io.sendReqList.popBack with
      | none => exact h₀
      | some y =>
        simp only [Code.path_bind, Code.path_modify, Code.path_pure, Code.path_ite]
        have hsame : ∀ {l : Io}, SameConns io l → J l := fun hl => hJ.same h₀ hl
        refine ⟨fun _ => ?_, fun _ => hsame ⟨⟨rfl, rfl, rfl, rfl, rfl, .inl rfl⟩, rfl, rfl, rfl, rfl, rfl, rfl⟩⟩
        split <;> exact hsame ⟨⟨rfl, rfl, rfl, rfl, rfl, .inl rfl⟩, rfl, rfl, rfl, rfl, rfl, rfl⟩

theorem onCheckCb_conns (hJ : KeptByUse n E stale J) (hi : IoInv n E io) (h₀ : J io) {out : CmdOut}
    (hfail : ∀ cmd : Cmd, can io .cmdReadyPop (some cmd) → cmd.type = .clientOpen → ¬ out.Dials io →
      J io ∧ ∀ l, MadeStray (some cmd) io l → (out.tcpInit = 0 → (l.handles io.handleCount).isInit = true) → J l)
    (hdial : ∀ (cmd : Cmd) i list l, io.linkList.svlLinkListOpen = some (i, list) → Dialled io cmd i l → J l)
    (hclose : ∀ cmd i h, (io.handles h).Holds i → (io.handles h).closing = none → J (io.closedBy cmd i h)) :
    KeepsConns can J (onCheckCb out) io := by
  simp only [KeepsConns, onCheckCb, Code.path_bind, Code.path_op]
  refine ⟨h₀, ?_⟩
  rintro (_ | cmd) hr
  · exact hJ.same h₀ ⟨⟨rfl, rfl, rfl, rfl, rfl, .inl rfl⟩, rfl, rfl, rfl, rfl, rfl, rfl⟩
  simp only [Code.path_bind, Code.path_get]
  refine Code.path_mono (fun _ _ h => h) (fun l acted hl => ?_)
    (handleCmd_conns hJ hi h₀ (hfail cmd hr) (fun _ => hdial cmd) (hclose cmd))
  simp only [Code.path_modify, Code.path_op]
  exact ⟨hJ.same hl ⟨⟨rfl, rfl, rfl, rfl, rfl, .inl rfl⟩, rfl, rfl, rfl, rfl, rfl, rfl⟩,
    fun _ _ => hJ.same hl ⟨⟨rfl, rfl, rfl, rfl, rfl, .inl rfl⟩, rfl, rfl, rfl, rfl, rfl, rfl⟩⟩

/-! ### Start-up, clean-up, signals and the timer -/

private theorem serviceMove_of_frame {l : Io} (hf : OpKind.service.Frame io l)
    (hh : ∀ h i, (l.handles h).Holds i → (io.handles h).Holds i) : ServiceMove io l where
  conns := hf.conns rfl
  links := hf.links rfl
  pushed := (hf.event (by simp)).2
  handled := (hf.command (by simp)).1
  holds := hh

/-- All along the start-up, the clean-up, the timer and the signal callback, connections only end. -/
theorem IoRun.serviceMove {d : IoRun} {sh : Shared} (hi : IoInv n E io) (hs : Settled io) (hr : d.ready sh io = true)
    (hd : d.kind = .service) : KeepsConns can (ServiceMove io) d.code io := by
  have hframe : d.code.path can (fun l _ => OpKind.service.Frame io l) (fun l _ => OpKind.service.Frame io l) io :=
    Prog.path_anti (fun _ _ _ _ => trivial) (Code.path_mono (fun _ _ h => h.2) (fun _ _ h => h)
    (hd ▸ d.keepsTo.path io))
  have hquiet : ∀ {m : IoM Unit}, m.path can (fun l _ => OpKind.service.Frame io l)
    (fun l _ => OpKind.service.Frame io l) io →
      StaysQuiet can n E m io → KeepsConns can (ServiceMove io) m io := by
    intro m hm hq
    refine Prog.path_mono (fun l _ h => ?_) (fun l _ h => ?_) (Prog.path_and hm hq)
    · exact serviceMove_of_frame h.1 fun h' i hh => absurd hh (h.2.none h' i)
    · exact serviceMove_of_frame h.1 fun h' i hh => absurd hh (h.2.2.2 h' i)
  have hloop : ∀ {m : IoM Unit}, m.path can (fun l _ => OpKind.service.Frame io l)
    (fun l _ => OpKind.service.Frame io l) io →
      KeepsConns can (fun l => ∀ h i, (l.handles h).Holds i → (io.handles h).Holds i) m io →
      KeepsConns can (ServiceMove io) m io :=
    fun hm hh => Prog.path_mono (fun l _ h => serviceMove_of_frame h.1 h.2) (fun l _ h => serviceMove_of_frame h.1 h.2)
      (Prog.path_and hm hh)
  cases d with
  | thread out =>
    simp only [IoRun.ready, Bool.and_eq_true, decide_eq_true_eq] at hr
    exact hquiet hframe (svlServiceIoThread_quiet hi hs hr.1 out)
  | timer => exact hloop hframe (onTimerCb_path (fun _ _ h => h) (fun _ _ h => h) fun l hl h i => hl.holds hi)
  | signal isSigint =>
    refine hloop hframe ?_
    simp only [KeepsConns, IoRun.code, onSigintCb, svlServiceStopSignal, onHandle, Code.path_bind, Code.path_modify,
      Code.path_ite, Code.path_op, Code.path_pure]
    have hsame : ∀ h i, ((onHandle (·.uvSignal) (fun io h => io.setHandle h fun x => { x with started := false })
        io).handles h).Holds i → (io.handles h).Holds i := by
      intro h i
      simp only [onHandle]
      cases io.uvSignal with
      | none => exact fun hh => hh
      | some x =>
        by_cases he : h = x
        · subst he
          dsimp only
          rw [Io.setHandle_handles_self]
          exact fun hh => hh
        · have hne : (io.setHandle x fun y => { y with started := false }).handles h = io.handles h :=
            Function.update_of_ne he _ _
          dsimp only
          rw [hne]
          exact fun hh => hh
    exact ⟨fun _ => hsame, fun _ => ⟨hsame, fun _ _ => ⟨fun _ => hsame, fun _ => ⟨hsame, fun _ _ => hsame⟩⟩⟩⟩
  | uvRunReturn =>
    simp only [IoRun.ready, Bool.and_eq_true, decide_eq_true_eq, Bool.not_eq_true'] at hr
    refine hquiet hframe ?_
    simp only [StaysQuiet, IoRun.code, Code.path_bind, Code.path_modify]
    exact ioThreadClose_quiet (hi.returned hs hr.1.1 hr.2)
  | check out => simp [IoRun.kind] at hd
  | inbound status out => simp [IoRun.kind] at hd
  | outbound req status out => simp [IoRun.kind] at hd
  | read handle out => simp [IoRun.kind] at hd
  | close handle => simp [IoRun.kind] at hd
  | send req => simp [IoRun.kind] at hd

/-! ### All that the IO thread runs -/

/-- Every move with a connection keeps `J`. -/
structure KeptByRuns (n : Nat) (E : Premises) (J : Io → Prop) : Prop extends KeptByConns n E (fun _ => True) J where
  service : ∀ {io l}, J io → ServiceMove io l → J l
  connected : ∀ {io} (q h : Nat), J io → J (io.connected q h)
  madeStray : ∀ {io l cmd}, IoInv n E io → J io → MadeStray cmd io l → J l
  dialled : ∀ {io l cmd i list}, IoInv n E io → J io → io.linkList.svlLinkListOpen = some (i, list) →
    Dialled io cmd i l → J l
  closedBy : ∀ {io i h} (cmd : Cmd), J io → (io.handles h).Holds i → J (io.closedBy cmd i h)

theorem IoRun.keeps_conns (hJ : KeptByRuns n E J) (hcan : Promised can E) (hi : IoInv n E io) (hs : Settled io)
    (h₀ : J io) {d : IoRun} {sh : Shared} (hr : d.ready sh io = true) : KeepsConns can J d.code io := by
  by_cases hd : d.kind = .service
  · exact Code.path_mono (fun l _ hl => hJ.service h₀ hl) (fun l _ hl => hJ.service h₀ hl)
      (IoRun.serviceMove hi hs hr hd)
  cases d with
  | thread out => exact absurd rfl hd
  | timer => exact absurd rfl hd
  | signal isSigint => exact absurd rfl hd
  | uvRunReturn => exact absurd rfl hd
  | inbound status out =>
    exact onInboundConnectionCb_conns hJ.toKeptByUse hi h₀ (fun l hl _ => hJ.madeStray hi h₀ hl)
      (fun _ _ _ _ _ _ _ => trivial) status
  | outbound q status out =>
    simp only [IoRun.ready, Bool.and_eq_true, decide_eq_true_eq] at hr
    exact onOutboundConnectionCb_conns hJ.toKeptByUse hi hs hr.1.1 hr.2 (fun h _ => hJ.connected q h h₀) status out
  | read handle out =>
    simp only [IoRun.ready, Bool.and_eq_true, decide_eq_true_eq] at hr
    exact uvRead_conns hJ.toKeptByUse hcan hi hs hr.1.1 h₀ hr.2 out
  | close handle =>
    simp only [IoRun.ready, Bool.and_eq_true, decide_eq_true_eq, Bool.not_eq_true'] at hr
    exact uvFinishClose_conns hJ.toKeptByConns hcan hi hs hr.1.1 h₀ hr.2.1 hr.2.2
  | send q => exact send_conns hJ.toKeptByUse h₀ q
  | check out =>
    exact onCheckCb_conns hJ.toKeptByUse hi h₀ (fun cmd _ _ _ => ⟨h₀, fun l hl _ => hJ.madeStray hi h₀ hl⟩)
      (fun cmd i list l ho hl => hJ.dialled hi h₀ ho hl) fun cmd i h hh _ => hJ.closedBy cmd h₀ hh

end Callbacks

/-- What every move with a connection keeps holds in every run. -/
theorem KeptByRuns.reach {n : Nat} {J : Io → Prop} (hJ : KeptByRuns n ⟨False, False, False⟩ J)
    (h₀ : J (.setup n)) {cond : ServiceCond} {c : ServiceConfig} (hc : ReachWhen cond n c) : J c.fst.view.loc := by
  have hE : Premises.In ⟨False, False, False⟩ cond := ⟨False.elim, False.elim, False.elim, False.elim⟩
  refine Machine.Reach.invariant₁ (I := fun v => J v.loc)
    (K := fun _ v _ => IoInv n ⟨False, False, False⟩ v.loc ∧ (v.next = none → Settled v.loc))
    (fun c hc => ioInv hE hc) h₀ ?_ hc
  rintro d io ⟨sh, v, ⟨hi, hs⟩, hr, -⟩ hj
  exact IoRun.keeps_conns hJ (hE.promised _) hi (hs rfl) hj hr

end ServerLynx
