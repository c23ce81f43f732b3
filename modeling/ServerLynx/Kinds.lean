import ServerLynx.System

/-!
# What each callback and each call touches

The operations fall into three kinds: those on the state word, the listening endpoint and the thread itself, those
on the command lists, and those on the event lists and the read buffers.  Everything that the IO thread runs performs
operations of one kind only, and leaves the private fields of the other two kinds alone; the same holds of the calls
of the main thread, which also load the state word.
-/

namespace ServerLynx

open Threads

inductive OpKind
  | service | command | event
  deriving DecidableEq

def Op.kind : Op → OpKind
  | .stateLoad | .stateStore _ | .hostListenLoad | .hostListenStore _ | .threadLaunch _ | .threadJoin _
  | .threadEnd => .service
  | .cmdFreePop _ _ | .cmdReadyPush _ | .cmdReadyPop | .cmdFreePush _ | .writeReqsFreePeek => .command
  | .eventFreePop _ | .eventReadyPush _ _ | .eventReadyPopAll | .eventFreePush _ | .eventLoad _ | .poolReadPop
  | .poolReadPush _ | .bufferRemaining _ | .bufferStore _ _ | .bufferAddLength _ _ | .bufferReadSpan _ => .event

def IoRun.kind : IoRun → OpKind
  | .thread _ | .timer | .signal _ | .uvRunReturn => .service
  | .check _ => .command
  | .inbound _ _ | .outbound _ _ _ | .read _ _ | .close _ | .send _ => .event

/-- The operations that the code of the IO thread performs. -/
def Op.byIo : Op → Bool
  | .stateLoad | .stateStore _ | .hostListenLoad | .threadEnd | .cmdReadyPop | .cmdFreePush _ | .eventFreePop _
  | .eventReadyPush _ _ | .poolReadPop | .poolReadPush _ | .bufferRemaining _ | .bufferStore _ _
  | .bufferAddLength _ _ | .bufferReadSpan _ => true
  | _ => false

/-- The operations that the calls of the main thread perform. -/
def Op.byMain : Op → Bool
  | .stateLoad | .stateStore _ | .hostListenStore _ | .threadLaunch _ | .threadJoin _ | .cmdFreePop _ _
  | .cmdReadyPush _ | .writeReqsFreePeek | .eventReadyPopAll | .eventFreePush _ | .eventLoad _ | .poolReadPush _ => true
  | _ => false

/-- A handle whose commands and whose link stay, and that does not come back from closing. -/
structure Handle.SameCmds (x y : Handle) : Prop where
  openCmd : y.openCmd = x.openCmd
  closeCmd : y.closeCmd = x.closeCmd
  data : y.data = x.data
  closing : x.closing ≠ none → y.closing ≠ none

/-- From `io` to `l` no request and nothing received or written changed; handles may have been made, initialised,
started, closed or released. -/
structure ConnsKept (io l : Io) : Prop where
  count : io.handleCount ≤ l.handleCount
  handles : ∀ h < io.handleCount, (io.handles h).SameCmds (l.handles h)
  data : ∀ h i, (l.handles h).data = some i → (io.handles h).data = some i
  reqs : l.connectReqs = io.connectReqs ∧ l.connectReqCount = io.connectReqCount
  received : l.received = io.received
  writes : l.writes = io.writes ∧ l.sendReqs = io.sendReqs

instance : IsPreorder Io ConnsKept where
  refl _ := ⟨Nat.le_refl _, fun _ _ => ⟨rfl, rfl, rfl, fun h => h⟩, fun _ _ h => h, ⟨rfl, rfl⟩, rfl, rfl, rfl⟩
  trans _ _ _ h h' := by
    refine ⟨Nat.le_trans h.count h'.count, fun x hx => ?_, fun x i hx => h.data x i (h'.data x i hx),
      ⟨h'.reqs.1.trans h.reqs.1, h'.reqs.2.trans h.reqs.2⟩, h'.received.trans h.received,
      h'.writes.1.trans h.writes.1, h'.writes.2.trans h.writes.2⟩
    have h₁ := h.handles x hx
    have h₂ := h'.handles x (Nat.lt_of_lt_of_le hx h.count)
    exact ⟨h₂.openCmd.trans h₁.openCmd, h₂.closeCmd.trans h₁.closeCmd, h₂.data.trans h₁.data, fun hc =>
      h₂.closing (h₁.closing hc)⟩

/-- Nothing changed that `ConnsKept` is about. -/
theorem ConnsKept.same {io l : Io} (hc : l.handleCount = io.handleCount) (hh : l.handles = io.handles)
    (hr : l.connectReqs = io.connectReqs ∧ l.connectReqCount = io.connectReqCount) (hd : l.received = io.received)
    (hw : l.writes = io.writes ∧ l.sendReqs = io.sendReqs) : ConnsKept io l :=
  ⟨Nat.le_of_eq hc.symm, fun _ _ => hh ▸ ⟨rfl, rfl, rfl, fun h => h⟩, fun _ _ hd => hh ▸ hd, hr, hd, hw⟩

/-- From `io` to `l` only private fields of the kind `k` changed; the links belong to commands and events. -/
structure OpKind.Frame (k : OpKind) (io l : Io) : Prop where
  command : k ≠ .command → l.handled = io.handled ∧ l.cmd = io.cmd
  event : k ≠ .event → l.hand = io.hand ∧ l.pushed = io.pushed
  links : k = .service → l.linkList = io.linkList
  conns : k = .service → ConnsKept io l

instance (k : OpKind) : IsPreorder Io k.Frame where
  refl io := ⟨fun _ => ⟨rfl, rfl⟩, fun _ => ⟨rfl, rfl⟩, fun _ => rfl, fun _ => refl_of ConnsKept io⟩
  trans _ _ _ h h' := ⟨fun hk => ⟨(h'.command hk).1.trans (h.command hk).1, (h'.command hk).2.trans (h.command hk).2⟩,
    fun hk => ⟨(h'.event hk).1.trans (h.event hk).1, (h'.event hk).2.trans (h.event hk).2⟩,
    fun hk => (h'.links hk).trans (h.links hk), fun hk => trans_of ConnsKept (h.conns hk) (h'.conns hk)⟩

/-- The code performs operations of the IO thread, all of the kind `k`, and changes private fields of that kind. -/
abbrev KeepsTo {α : Type} (k : OpKind) (m : IoM α) : Prop := m.Within (fun o => o.kind = k ∧ o.byIo = true) k.Frame

/-- From `io` to `l` only links, handles and requests changed. -/
structure LinksFrame (io l : Io) : Prop where
  phase : l.phase = io.phase
  command : l.handled = io.handled ∧ l.cmd = io.cmd
  event : l.hand = io.hand ∧ l.pushed = io.pushed

instance : IsPreorder Io LinksFrame where
  refl _ := ⟨rfl, ⟨rfl, rfl⟩, ⟨rfl, rfl⟩⟩
  trans _ _ _ h h' := ⟨h'.phase.trans h.phase, ⟨h'.command.1.trans h.command.1, h'.command.2.trans h.command.2⟩,
    ⟨h'.event.1.trans h.event.1, h'.event.2.trans h.event.2⟩⟩

/-- The code performs no operation, and changes only links, handles and requests. -/
abbrev OnLinks {α : Type} (m : IoM α) : Prop := m.Within (fun _ => False) LinksFrame

/-- The label `cleanup` of `handle_cmd_open` stays within the bounds of what it does to the handle, the link and the
request that it is given. -/
theorem handleCmdOpenCleanup_within {P : Op → Prop} {R : Io → Io → Prop} [IsPreorder Io R]
    (hclose : ∀ h, (modify fun io => io.uvClose h .handle : IoM Unit).Within P R)
    (hlink : ∀ i, (closeLink i).Within P R)
    (hreq : ∀ q, (modify fun io => io.releaseConnectReq q : IoM Unit).Within P R) (h q i : Option Nat) :
    (handleCmdOpenCleanup h q i).Within P R := by
  have hh : (handleCmdOpenCleanup h none none).Within P R := by
    cases h with
    | none => exact .pure _
    | some h => exact hclose h
  have hi : (handleCmdOpenCleanup h none i).Within P R := by
    cases i with
    | none => exact hh
    | some i => exact .bind (hlink i) fun _ => hh
  cases q with
  | none => exact hi
  | some q => exact .bind (hreq q) fun _ => hi

/-! ### Steps that several callbacks share -/

section Common

theorem OnLinks.keepsTo {α : Type} {k : OpKind} {m : IoM α} (h : OnLinks m) (hk : k ≠ .service) : KeepsTo k m :=
  Code.Within.mono (fun _ => False.elim)
    (fun _ _ h => ⟨fun _ => h.command, fun _ => h.event, fun hs => absurd hs hk, fun hs => absurd hs hk⟩) h

private theorem modify_onLinks {f : Io → Io} (h : ∀ io, LinksFrame io (f io)) : OnLinks (modify f) := .modify h

private theorem modifyLink_onLinks (i : Nat) (f : Link → Link) : OnLinks (modifyLink i f) :=
  modify_onLinks fun _ => ⟨rfl, ⟨rfl, rfl⟩, ⟨rfl, rfl⟩⟩

private theorem getLink_keepsTo {k : OpKind} (i : Nat) : KeepsTo k (getLink i) := .bind .get fun _ => .pure _

private theorem acquireClientHandle_onLinks (ok : Bool) : OnLinks (acquireClientHandle ok) := by
  refine .ite (.pure _) (.bind .get fun io => .bind ?_ fun _ => .pure _)
  exact modify_onLinks fun _ => ⟨rfl, ⟨rfl, rfl⟩, ⟨rfl, rfl⟩⟩

private theorem openLink_onLinks : OnLinks openLink := by
  refine .bind .get fun io => ?_
  split
  · exact .pure _
  · exact .bind (modify_onLinks fun _ => ⟨rfl, ⟨rfl, rfl⟩, ⟨rfl, rfl⟩⟩) fun _ => .pure _

private theorem closeLink_onLinks (i : Nat) : OnLinks (closeLink i) := by
  refine modify_onLinks fun io => ?_
  split <;> exact ⟨rfl, ⟨rfl, rfl⟩, ⟨rfl, rfl⟩⟩

private theorem pushSendReq_onLinks (r : Nat) : OnLinks (pushSendReq r) := by
  refine modify_onLinks fun io => ?_
  split <;> exact ⟨rfl, ⟨rfl, rfl⟩, ⟨rfl, rfl⟩⟩

end Common

/-! ### Callbacks on events -/

section Event

private theorem ev : OpKind.event ≠ .service := by simp

private theorem modify_event {f : Io → Io} (h : ∀ io, (f io).handled = io.handled) (hc : ∀ io, (f io).cmd = io.cmd) :
    KeepsTo .event (modify f) := .modify fun io => ⟨fun _ => ⟨h io, hc io⟩, by simp, by simp, by simp⟩

private theorem undefinedBehaviour_keepsTo : KeepsTo .event undefinedBehaviour :=
  modify_event (fun _ => rfl) fun _ => rfl

private theorem readyPush_keepsTo (e : Nat) (evt : Event) (conn : Nat) : KeepsTo .event (readyPush e evt conn) :=
  .bind (.op ⟨rfl, rfl⟩) fun _ => .bind (modify_event (fun _ => rfl) fun _ => rfl) fun _ => .pure _

private theorem onSendCb_keepsTo (req : Nat) : KeepsTo .event (onSendCb req) := by
  refine .bind .get fun io => ?_
  split
  case h_2 => exact undefinedBehaviour_keepsTo
  exact (pushSendReq_onLinks _).keepsTo ev

private theorem onRecvCbCleanup_keepsTo (handle i : Nat) (ret : ErrorCode) (closeLink : Bool) :
    KeepsTo .event (onRecvCbCleanup handle i ret closeLink) := by
  refine .bind ((modifyLink_onLinks ..).keepsTo ev) fun _ => .ite (.bind .get fun _ => .ite ?_ (.pure _)) (.pure _)
  exact .bind ((modifyLink_onLinks ..).keepsTo ev) fun _ => modify_event (fun _ => rfl) fun _ => rfl

private theorem onRecvCb_keepsTo (handle : Nat) (nread : Int) : KeepsTo .event (onRecvCb handle nread) := by
  refine .bind .get fun io => ?_
  split
  case h_2 => exact undefinedBehaviour_keepsTo
  refine .ite (onRecvCbCleanup_keepsTo ..)
    (.ite (onRecvCbCleanup_keepsTo ..) (.bind (getLink_keepsTo _) fun link => ?_))
  split
  case h_2 => exact undefinedBehaviour_keepsTo
  refine .bind (.op ⟨rfl, rfl⟩) fun added => .ite (onRecvCbCleanup_keepsTo ..) (.bind (.op ⟨rfl, rfl⟩) fun x => ?_)
  split
  case h_2 => exact onRecvCbCleanup_keepsTo ..
  refine .bind (modify_event (fun _ => rfl) fun _ => rfl) fun _ => .bind (getLink_keepsTo _) fun link =>
    .bind (.op ⟨rfl, rfl⟩) fun span => .bind (readyPush_keepsTo ..) fun pushed => .ite (onRecvCbCleanup_keepsTo ..) ?_
  exact (modifyLink_onLinks ..).keepsTo ev

private theorem recvSpace_keepsTo (i : Nat) : KeepsTo .event (do
    let some b := (← getLink i).readBuffer | return none
    let len ← perform (.bufferRemaining b)
    return some (b, len)) := by
  refine .bind (getLink_keepsTo _) fun link => ?_
  split
  · exact .bind (.op ⟨rfl, rfl⟩) fun len => .pure _
  · exact .pure _

private theorem onRecvAllocCb_keepsTo (handle : Nat) : KeepsTo .event (onRecvAllocCb handle) := by
  refine .bind .get fun io => ?_
  split
  case h_2 => exact .bind undefinedBehaviour_keepsTo fun _ => .pure _
  refine .bind (getLink_keepsTo _) fun link => .ite (.bind (.op ⟨rfl, rfl⟩) fun x => ?_) (recvSpace_keepsTo _)
  split
  case h_2 => exact .pure _
  exact .bind ((modifyLink_onLinks ..).keepsTo ev) fun _ => recvSpace_keepsTo _

private theorem uvRead_keepsTo (handle : Nat) (out : ReadOut) : KeepsTo .event (uvRead handle out) := by
  refine .bind (onRecvAllocCb_keepsTo _) fun x => ?_
  split
  case h_2 => exact onRecvCb_keepsTo ..
  refine .ite (onRecvCb_keepsTo ..) ?_
  cases out with
  | error err => exact onRecvCb_keepsTo ..
  | empty => exact onRecvCb_keepsTo ..
  | data bytes =>
    exact .bind (.op ⟨rfl, rfl⟩) fun _ => .bind (modify_event (fun _ => rfl) fun _ => rfl) fun _ => onRecvCb_keepsTo ..

private theorem onCloseHandleCb_keepsTo (handle : Nat) : KeepsTo .event (onCloseHandleCb handle) :=
  modify_event (fun _ => rfl) fun _ => rfl

private theorem onCloseLinkCb_keepsTo (handle : Nat) : KeepsTo .event (onCloseLinkCb handle) := by
  have hrelease : ∀ i, KeepsTo .event (releaseReadBuffer i) := by
    intro i
    refine .bind (getLink_keepsTo _) fun link => ?_
    split
    · exact .bind (.op ⟨rfl, rfl⟩) fun _ => (modifyLink_onLinks ..).keepsTo ev
    · exact .pure _
  refine .bind .get fun io => ?_
  split
  case h_2 => exact undefinedBehaviour_keepsTo
  refine .bind ((modifyLink_onLinks ..).keepsTo ev) fun _ => .bind (hrelease _) fun _ => .bind (.op ⟨rfl, rfl⟩)
    fun x => ?_
  split
  case h_2 => exact onCloseHandleCb_keepsTo _
  exact .bind (modify_event (fun _ => rfl) fun _ => rfl) fun _ => .bind (getLink_keepsTo _) fun link =>
    .bind (readyPush_keepsTo ..) fun _ => .bind ((closeLink_onLinks _).keepsTo ev) fun _ => onCloseHandleCb_keepsTo _

private theorem uvFinishClose_keepsTo (handle : Nat) : KeepsTo .event (uvFinishClose handle) := by
  refine .bind (modify_event (fun _ => rfl) fun _ => rfl) fun _ => .bind .get fun io => ?_
  split
  · exact onCloseLinkCb_keepsTo _
  · exact onCloseHandleCb_keepsTo _
  · exact .pure _

private theorem linkEndpoints_keepsTo (i : Nat) (out : ConnectedOut) : KeepsTo .event (linkEndpoints i out) :=
  .ite (.pure _) <| .ite (.pure _) <| .bind ((modifyLink_onLinks ..).keepsTo ev) fun _ => .ite (.pure _) <|
  .ite (.pure _) <|
    .bind ((modifyLink_onLinks ..).keepsTo ev) fun _ => .pure _

private theorem onInboundConnectionCb_keepsTo (status : Int) (out : InboundOut) :
    KeepsTo .event (onInboundConnectionCb status out) := by
  have hcleanup : ∀ h link init, KeepsTo .event (onInboundConnectionCbCleanup h link init) := by
    intro h link init
    cases link with
    | none => exact .ite (modify_event (fun _ => rfl) fun _ => rfl) (.pure _)
    | some i => exact .bind ((modifyLink_onLinks ..).keepsTo ev) fun _ => modify_event (fun _ => rfl) fun _ => rfl
  refine .ite (.pure _) (.bind ((acquireClientHandle_onLinks _).keepsTo ev) fun x => ?_)
  split
  case h_2 => exact .pure _
  refine .ite (hcleanup ..) (.bind (modify_event (fun _ => rfl) fun _ => rfl) fun _ => .ite (hcleanup ..) ?_)
  refine .bind (openLink_onLinks.keepsTo ev) fun x => ?_
  split
  case h_2 => exact hcleanup ..
  refine .bind (modify_event (fun _ => rfl) fun _ => rfl) fun _ => .bind ((modifyLink_onLinks ..).keepsTo ev) fun _ =>
    .bind (linkEndpoints_keepsTo ..) fun ok => .ite (hcleanup ..) (.bind (.op ⟨rfl, rfl⟩) fun x => ?_)
  split
  case h_2 => exact hcleanup ..
  refine .bind (modify_event (fun _ => rfl) fun _ => rfl) fun _ => .bind (getLink_keepsTo _) fun link =>
    .bind (readyPush_keepsTo ..) fun pushed => .ite (hcleanup ..) (.ite (hcleanup ..) ?_)
  exact modify_event (fun _ => rfl) fun _ => rfl

private theorem onOutboundConnectionCb_keepsTo (q : Nat) (status : Int) (out : ConnectedOut) :
    KeepsTo .event (onOutboundConnectionCb q status out) := by
  have hcleanup : ∀ locals, KeepsTo .event (onOutboundConnectionCbCleanup q locals) := by
    intro locals
    refine .bind (modify_event (fun _ => rfl) fun _ => rfl) fun _ => ?_
    split
    · exact .bind ((modifyLink_onLinks ..).keepsTo ev) fun _ => modify_event (fun _ => rfl) fun _ => rfl
    · exact undefinedBehaviour_keepsTo
  refine .bind .get fun io => ?_
  dsimp only
  split
  case h_2 => exact undefinedBehaviour_keepsTo
  refine .ite (hcleanup _) (.bind (getLink_keepsTo _) fun link => ?_)
  split
  case h_2 => exact undefinedBehaviour_keepsTo
  refine .ite undefinedBehaviour_keepsTo (.bind (linkEndpoints_keepsTo ..) fun ok => .ite (hcleanup _) ?_)
  refine .bind (.op ⟨rfl, rfl⟩) fun x => ?_
  split
  case h_2 => exact hcleanup _
  refine .bind (modify_event (fun _ => rfl) fun _ => rfl) fun _ => .bind (getLink_keepsTo _) fun link =>
    .bind (readyPush_keepsTo ..) fun pushed => .ite (hcleanup _) ?_
  exact .bind ((modifyLink_onLinks ..).keepsTo ev) fun _ => .ite (hcleanup _) (modify_event (fun _ => rfl) fun _ => rfl)

end Event

/-! ### Callbacks on commands -/

section Command

private theorem handleCmdOpen_onLinks (cmd : Cmd) (out : CmdOut) : OnLinks (handleCmdOpen cmd out) := by
  have hcleanup : ∀ h q i, OnLinks (handleCmdOpenCleanup h q i) :=
    handleCmdOpenCleanup_within (fun _ => modify_onLinks fun _ => ⟨rfl, ⟨rfl, rfl⟩, ⟨rfl, rfl⟩⟩) closeLink_onLinks
      fun _ => modify_onLinks fun _ => ⟨rfl, ⟨rfl, rfl⟩, ⟨rfl, rfl⟩⟩
  refine .bind (acquireClientHandle_onLinks _) fun x => ?_
  split
  case h_2 => exact hcleanup ..
  refine .ite (hcleanup ..) (.bind (modify_onLinks fun _ => ⟨rfl, ⟨rfl, rfl⟩, ⟨rfl, rfl⟩⟩) fun _ => ?_)
  refine .bind (.ite (.pure _) (.bind .get fun _ => .bind (modify_onLinks fun _ => ⟨rfl, ⟨rfl, rfl⟩, ⟨rfl, rfl⟩⟩)
    fun _ => .pure _)) fun x => ?_
  split
  case h_2 => exact hcleanup ..
  refine .bind (openLink_onLinks) fun x => ?_
  split
  case h_2 => exact hcleanup ..
  refine .bind (modifyLink_onLinks ..) fun _ => .bind (modify_onLinks fun _ => ⟨rfl, ⟨rfl, rfl⟩, ⟨rfl, rfl⟩⟩)
    fun _ => ?_
  exact .ite (hcleanup ..) (modify_onLinks fun _ => ⟨rfl, ⟨rfl, rfl⟩, ⟨rfl, rfl⟩⟩)

/-- Handling a command performs no operation, and changes only links, handles and requests. -/
theorem handleCmd_onLinks (cmd : Cmd) (out : CmdOut) : OnLinks (handleCmd cmd out) := by
  unfold handleCmd
  cases cmd.type with
  | clientOpen => exact .bind (handleCmdOpen_onLinks cmd out) fun _ => .pure _
  | clientClose =>
    refine .bind .get fun io => ?_
    split
    case h_2 => exact .pure _
    exact .bind (modifyLink_onLinks ..) fun _ => .bind (modify_onLinks fun _ => ⟨rfl, ⟨rfl, rfl⟩, ⟨rfl, rfl⟩⟩)
      fun _ => .pure _
  | clientSend =>
    refine .bind .get fun io => ?_
    split
    case h_2 => exact .pure _
    refine .bind .get fun io => ?_
    split
    case h_2 => exact .pure _
    exact .bind (modify_onLinks fun _ => ⟨rfl, ⟨rfl, rfl⟩, ⟨rfl, rfl⟩⟩) fun _ =>
      .ite (.bind (pushSendReq_onLinks _) fun _ => .pure _)
        (.bind (modify_onLinks fun _ => ⟨rfl, ⟨rfl, rfl⟩, ⟨rfl, rfl⟩⟩) fun _ => .pure _)

private theorem onCheckCb_keepsTo (out : CmdOut) : KeepsTo .command (onCheckCb out) := by
  have hmodify : ∀ f : Io → Io, (∀ io, (f io).hand = io.hand ∧ (f io).pushed = io.pushed) →
      KeepsTo .command (modify f) := fun f h => .modify fun io => ⟨by simp, fun _ => h io, by simp, by simp⟩
  refine .bind (.op ⟨rfl, rfl⟩) fun x => ?_
  split
  case h_2 => exact hmodify _ fun _ => ⟨rfl, rfl⟩
  exact .bind .get fun io => .bind ((handleCmd_onLinks ..).keepsTo (by simp)) fun _ =>
    .bind (hmodify _ fun _ => ⟨rfl, rfl⟩) fun _ => .bind (.op ⟨rfl, rfl⟩) fun _ => hmodify _ fun _ => ⟨rfl, rfl⟩

end Command

/-! ### Start-up, clean-up, signals and the timer -/

section Service

/-- From `io` to `l` only the loop changed: its handles, its memory and the pointers of `svl_service_priv_t`. -/
structure LoopFrame (io l : Io) : Prop where
  phase : l.phase = io.phase
  command : l.handled = io.handled ∧ l.cmd = io.cmd
  event : l.hand = io.hand ∧ l.pushed = io.pushed
  links : l.linkList = io.linkList
  conns : ConnsKept io l

instance : IsPreorder Io LoopFrame where
  refl io := ⟨rfl, ⟨rfl, rfl⟩, ⟨rfl, rfl⟩, rfl, refl_of ConnsKept io⟩
  trans _ _ _ h h' := ⟨h'.phase.trans h.phase, ⟨h'.command.1.trans h.command.1, h'.command.2.trans h.command.2⟩,
    ⟨h'.event.1.trans h.event.1, h'.event.2.trans h.event.2⟩, h'.links.trans h.links,
    trans_of ConnsKept h.conns h'.conns⟩

private theorem service_frame {io l : Io} (h : l.handled = io.handled ∧ l.cmd = io.cmd)
    (h' : l.hand = io.hand ∧ l.pushed = io.pushed) (hl : l.linkList = io.linkList) (hc : ConnsKept io l) :
    OpKind.service.Frame io l :=
  ⟨fun _ => h, fun _ => h', fun _ => hl, fun _ => hc⟩

theorem LoopFrame.frame {io l : Io} (h : LoopFrame io l) : OpKind.service.Frame io l :=
  service_frame h.command h.event h.links h.conns

private theorem onHandle_loopFrame (p : Io → Option Nat) {f : Io → Nat → Io} (hf : ∀ io h, LoopFrame io (f io h))
    (io : Io) : LoopFrame io (onHandle p f io) := by
  unfold onHandle
  split
  · exact refl_of LoopFrame io
  · exact hf ..

private theorem setHandle_loopFrame (io : Io) (h : Nat) {f : Handle → Handle} (hf : ∀ x : Handle, x.SameCmds (f x)) :
    LoopFrame io (io.setHandle h f) := by
  have hsame : ∀ h', (io.handles h').SameCmds ((io.setHandle h f).handles h') := by
    intro h'
    by_cases he : h' = h
    · subst he
      rw [Io.setHandle_handles_self]
      exact hf _
    · have hne : (io.setHandle h f).handles h' = io.handles h' := Function.update_of_ne he _ _
      rw [hne]
      exact ⟨rfl, rfl, rfl, fun h => h⟩
  exact ⟨rfl, ⟨rfl, rfl⟩, ⟨rfl, rfl⟩, rfl, Nat.le_refl _, fun h' _ => hsame h', fun h' i hd => (hsame h').data ▸ hd,
    ⟨rfl, rfl⟩, rfl, rfl, rfl⟩

theorem releaseAll_loopFrame (io : Io) : LoopFrame io (releaseAll io) := by
  have hh : ∀ p io, LoopFrame io (onHandle p Io.releaseHandle io) :=
    fun p io => onHandle_loopFrame p (f := Io.releaseHandle)
      (fun io h => setHandle_loopFrame io h fun _ => ⟨rfl, rfl, rfl, fun h => h⟩) io
  have hb : ∀ p io, LoopFrame io (onHandle p Io.releaseBlock io) :=
    fun p io => onHandle_loopFrame p (f := Io.releaseBlock)
      (fun _ _ => ⟨rfl, ⟨rfl, rfl⟩, ⟨rfl, rfl⟩, rfl, .same rfl rfl ⟨rfl, rfl⟩ rfl ⟨rfl, rfl⟩⟩) io
  have htrans := fun {a b c} => trans_of (a := a) (b := b) (c := c) LoopFrame
  exact htrans (htrans (htrans (htrans (htrans (htrans (hh _ _) (hh _ _)) (hh _ _)) (hh _ _)) (hb _ _)) (hb _ _))
    ⟨rfl, ⟨rfl, rfl⟩, ⟨rfl, rfl⟩, rfl, .same rfl rfl ⟨rfl, rfl⟩ rfl ⟨rfl, rfl⟩⟩

theorem uvWalk_loopFrame (io : Io) : LoopFrame io (uvWalk io) := by
  have hsame : ∀ h, (io.handles h).SameCmds ((uvWalk io).handles h) := by
    intro h
    simp only [uvWalk]
    split
    · exact ⟨by simp [Io.uvClose], by simp [Io.uvClose], by simp [Io.uvClose], fun _ => by simp [Io.uvClose]⟩
    · exact ⟨rfl, rfl, rfl, fun h => h⟩
  exact ⟨rfl, ⟨rfl, rfl⟩, ⟨rfl, rfl⟩, rfl, Nat.le_refl _, fun h _ => hsame h, fun h i hd => (hsame h).data ▸ hd,
    ⟨rfl, rfl⟩, rfl, rfl, rfl⟩

private theorem runAll_loopFrame {gs : List Guarded}
    (h : ∀ g ∈ gs, ∀ io, LoopFrame io (g.onFail io) ∧ LoopFrame io (g.onOk io)) (ret : Int) (io : Io) :
    LoopFrame io (Guarded.runAll gs ret io).2.2 :=
  Guarded.runAll_induct (P := LoopFrame io)
    (fun g hg l hl => ⟨trans_of _ hl (h g hg l).1, trans_of _ hl (h g hg l).2⟩) ret (refl_of _ io)

private theorem uvInit_loopFrame (p : Io → Option Nat) (io : Io) : LoopFrame io (onHandle p Io.uvInit io) :=
  onHandle_loopFrame p (f := Io.uvInit) (fun io h => setHandle_loopFrame io h fun _ => ⟨rfl, rfl, rfl, fun h => h⟩) io

private theorem uvStart_loopFrame (p : Io → Option Nat) (io : Io) : LoopFrame io (onHandle p Io.uvStart io) :=
  onHandle_loopFrame p (f := Io.uvStart) (fun io h => setHandle_loopFrame io h fun _ => ⟨rfl, rfl, rfl, fun h => h⟩) io

theorem startLines_loopFrame (out : StartOut) (count : Nat) (ret : Int) (io : Io) :
    LoopFrame io (Guarded.runAll (startLines out count) ret io).2.2 := by
  refine runAll_loopFrame (fun g hg io => ?_) ret io
  have hrest : ∀ {l : Io}, l.phase = io.phase → l.handled = io.handled ∧ l.cmd = io.cmd →
      l.hand = io.hand ∧ l.pushed = io.pushed → l.linkList = io.linkList → l.handleCount = io.handleCount →
      l.handles = io.handles → l.connectReqs = io.connectReqs ∧ l.connectReqCount = io.connectReqCount →
      l.received = io.received →
      l.writes = io.writes ∧ l.sendReqs = io.sendReqs → LoopFrame io l :=
    fun h₁ h₂ h₃ h₄ h₅ h₆ h₇ h₈ h₉ => ⟨h₁, h₂, h₃, h₄, .same h₅ h₆ h₇ h₈ h₉⟩
  have hacquired : ∀ kind, ConnsKept io (io.acquireHandle kind) := by
    refine fun kind => ⟨Nat.le_succ _, fun h hlt => ?_, fun h i hd => ?_, ⟨rfl, rfl⟩, rfl, rfl, rfl⟩
    · have hne : (io.acquireHandle kind).handles h = io.handles h := Function.update_of_ne (Nat.ne_of_lt hlt) _ _
      rw [hne]
      exact ⟨rfl, rfl, rfl, fun h => h⟩
    · by_cases he : h = io.handleCount
      · subst he
        simp [Io.acquireHandle] at hd
      · rwa [show (io.acquireHandle kind).handles h = io.handles h from Function.update_of_ne he _ _] at hd
  have hnew : ∀ (kind : HandleKind) {l : Io}, l = { io.acquireHandle kind with
      tcpHandle := l.tcpHandle, uvAcceptTimer := l.uvAcceptTimer, uvPrep := l.uvPrep, uvCheck := l.uvCheck
      uvSignal := l.uvSignal } → LoopFrame io l := by
    intro kind l hl
    obtain ⟨hc, hh, hd, h₁, h₂, h₃, h₄⟩ := hacquired kind
    rw [hl]
    exact ⟨rfl, ⟨rfl, rfl⟩, ⟨rfl, rfl⟩, rfl, hc, hh, hd, h₁, h₂, h₃, h₄⟩
  simp only [startLines, List.mem_cons, List.not_mem_nil, or_false] at hg
  rcases hg with rfl | rfl | rfl | rfl | rfl | rfl | rfl | rfl | rfl | rfl | rfl | rfl | rfl | rfl | rfl | rfl | rfl |
    rfl
  -- the memory, `send_req_list` and the loop
  · exact ⟨hrest rfl ⟨rfl, rfl⟩ ⟨rfl, rfl⟩ rfl rfl rfl ⟨rfl, rfl⟩ rfl ⟨rfl, rfl⟩,
      hrest rfl ⟨rfl, rfl⟩ ⟨rfl, rfl⟩ rfl rfl rfl ⟨rfl, rfl⟩ rfl ⟨rfl, rfl⟩⟩
  · exact ⟨hrest rfl ⟨rfl, rfl⟩ ⟨rfl, rfl⟩ rfl rfl rfl ⟨rfl, rfl⟩ rfl ⟨rfl, rfl⟩, hnew .tcpListen rfl⟩
  · exact ⟨hrest rfl ⟨rfl, rfl⟩ ⟨rfl, rfl⟩ rfl rfl rfl ⟨rfl, rfl⟩ rfl ⟨rfl, rfl⟩, hnew .timer rfl⟩
  · exact ⟨hrest rfl ⟨rfl, rfl⟩ ⟨rfl, rfl⟩ rfl rfl rfl ⟨rfl, rfl⟩ rfl ⟨rfl, rfl⟩, hnew .prepare rfl⟩
  · exact ⟨hrest rfl ⟨rfl, rfl⟩ ⟨rfl, rfl⟩ rfl rfl rfl ⟨rfl, rfl⟩ rfl ⟨rfl, rfl⟩, hnew .check rfl⟩
  · exact ⟨hrest rfl ⟨rfl, rfl⟩ ⟨rfl, rfl⟩ rfl rfl rfl ⟨rfl, rfl⟩ rfl ⟨rfl, rfl⟩, hnew .signal rfl⟩
  iterate 4 exact ⟨hrest rfl ⟨rfl, rfl⟩ ⟨rfl, rfl⟩ rfl rfl rfl ⟨rfl, rfl⟩ rfl ⟨rfl, rfl⟩,
    hrest rfl ⟨rfl, rfl⟩ ⟨rfl, rfl⟩ rfl rfl rfl ⟨rfl, rfl⟩ rfl ⟨rfl, rfl⟩⟩
  -- the handles of the loop
  · exact ⟨refl_of LoopFrame io, uvInit_loopFrame _ io⟩
  · exact ⟨refl_of LoopFrame io, uvStart_loopFrame _ io⟩
  · exact ⟨refl_of LoopFrame io, uvInit_loopFrame _ io⟩
  · exact ⟨refl_of LoopFrame io, uvStart_loopFrame _ io⟩
  · exact ⟨refl_of LoopFrame io, uvInit_loopFrame _ io⟩
  · exact ⟨refl_of LoopFrame io, uvStart_loopFrame _ io⟩
  · exact ⟨refl_of LoopFrame io, uvInit_loopFrame _ io⟩
  · exact ⟨refl_of LoopFrame io, uvStart_loopFrame _ io⟩

theorem listenLines_loopFrame (out : StartOut) (ret : Int) (io : Io) :
    LoopFrame io (Guarded.runAll (listenLines out) ret io).2.2 := by
  have hrefl : ∀ io, LoopFrame io io := refl_of LoopFrame
  refine runAll_loopFrame (fun g hg io => ?_) ret io
  simp only [listenLines, List.mem_cons, List.not_mem_nil, or_false] at hg
  rcases hg with rfl | rfl | rfl | rfl | rfl
  · exact ⟨hrefl io, uvInit_loopFrame _ io⟩
  · exact ⟨hrefl io, hrefl io⟩
  · exact ⟨hrefl io, hrefl io⟩
  · exact ⟨hrefl io, uvStart_loopFrame _ io⟩
  · exact ⟨hrefl io, hrefl io⟩

private theorem ioThreadCleanup_keepsTo (ret : Int) : KeepsTo .service (ioThreadCleanup ret) := by
  have h : KeepsTo .service (do modify releaseAll; perform .threadEnd) :=
    .bind (.modify fun io => (releaseAll_loopFrame io).frame) fun _ => .op ⟨rfl, rfl⟩
  exact .ite (.bind (.op ⟨rfl, rfl⟩) fun _ => h) h

private theorem closeLoop_keepsTo : KeepsTo .service closeLoop :=
  .bind .get fun _ => .ite (.bind (.modify fun _ => service_frame ⟨rfl, rfl⟩ ⟨rfl, rfl⟩ rfl
  (.same rfl rfl ⟨rfl, rfl⟩ rfl ⟨rfl, rfl⟩)) fun _ => .pure _) (.pure _)

private theorem ioThreadClose_keepsTo : KeepsTo .service ioThreadClose := by
  refine .bind closeLoop_keepsTo fun ret => .ite ?_ (ioThreadCleanup_keepsTo _)
  refine .bind (.modify fun io => (uvWalk_loopFrame io).frame) fun _ => .bind closeLoop_keepsTo fun ret => ?_
  exact .ite (ioThreadCleanup_keepsTo _) (ioThreadCleanup_keepsTo _)

private theorem svlServiceIoThread_keepsTo (out : StartOut) : KeepsTo .service (svlServiceIoThread out) := by
  have hend : KeepsTo .service (do
      let state ← perform .stateLoad
      if state = .starting then
        perform (.stateStore .started)
        modify fun io => { io with phase := .running }
      else
        ioThreadClose) :=
    .bind (.op ⟨rfl, rfl⟩) fun _ => .ite (.bind (.op ⟨rfl, rfl⟩) fun _ => .modify fun io => service_frame ⟨rfl, rfl⟩
    ⟨rfl, rfl⟩ rfl (.same rfl rfl ⟨rfl, rfl⟩ rfl ⟨rfl, rfl⟩))
      ioThreadClose_keepsTo
  refine .bind (.modify fun io => service_frame ⟨rfl, rfl⟩ ⟨rfl, rfl⟩ rfl (.same rfl rfl ⟨rfl, rfl⟩ rfl ⟨rfl, rfl⟩))
    fun _ => ⟨fun io => ?_⟩
  rw [Code.path_bind, Code.path_get, Code.path_bind, Code.path_get]
  have hstart := startLines_loopFrame out io.bufferCount uvEnomem io
  generalize Guarded.runAll (startLines out io.bufferCount) uvEnomem io = x at hstart ⊢
  obtain ⟨ok, ret, io₁⟩ := x
  rw [Code.path_bind, Code.path_set]
  refine Code.Within.path_from ?_ hstart.frame
  refine .ite (ioThreadCleanup_keepsTo _) (.bind (.op ⟨rfl, rfl⟩) fun hostListen => .ite ⟨fun io => ?_⟩ ?_)
  · rw [Code.path_bind, Code.path_get]
    have hlisten := listenLines_loopFrame out ret io
    generalize Guarded.runAll (listenLines out) ret io = x at hlisten ⊢
    obtain ⟨ok, ret, io₂⟩ := x
    rw [Code.path_bind, Code.path_set]
    refine Code.Within.path_from ?_ hlisten.frame
    exact .ite (ioThreadCleanup_keepsTo _) hend
  · exact .bind (.modify fun io => service_frame ⟨rfl, rfl⟩ ⟨rfl, rfl⟩ rfl (.same rfl rfl ⟨rfl, rfl⟩ rfl ⟨rfl, rfl⟩))
      fun _ => hend

end Service

/-- Everything that the IO thread runs keeps to one kind of operations and of private fields. -/
theorem IoRun.keepsTo (d : IoRun) : KeepsTo d.kind d.code := by
  cases d with
  | thread out => exact svlServiceIoThread_keepsTo out
  | inbound status out => exact onInboundConnectionCb_keepsTo ..
  | outbound req status out =>
    exact .bind (modify_event (fun io => by simp only [onHandle]; split <;> rfl)
      fun io => by simp only [onHandle]; split <;> rfl) fun _ => onOutboundConnectionCb_keepsTo ..
  | read handle out => exact uvRead_keepsTo ..
  | close handle => exact uvFinishClose_keepsTo _
  | send req => exact .bind (modify_event (fun _ => rfl) fun _ => rfl) fun _ => onSendCb_keepsTo _
  | check out => exact onCheckCb_keepsTo out
  | timer =>
    have hclose : ∀ p, KeepsTo .service (safeCloseUvHandle p) := by
      intro p
      refine .modify fun io => ?_
      split
      · exact refl_of OpKind.service.Frame io
      · split
        · exact refl_of OpKind.service.Frame io
        · exact (setHandle_loopFrame io _ (f := fun x =>
            { x with started := false, reading := false, closing := some .null, closes := x.closes + 1 })
            fun _ => ⟨rfl, rfl, rfl, fun _ => by simp⟩).frame
    exact .bind (.op ⟨rfl, rfl⟩) fun _ => .ite (.bind .get fun _ => .bind (hclose _) fun _ => .bind (hclose _) fun _ =>
      .bind (hclose _) fun _ => .bind (hclose _) fun _ => hclose _) (.pure _)
  | signal isSigint =>
    refine .bind (.modify fun io => (onHandle_loopFrame _ (fun io h =>
      setHandle_loopFrame io h (f := fun x => { x with started := false }) fun _ =>
      ⟨rfl, rfl, rfl, fun h => h⟩) io).frame) fun _ => .ite (.pure _) ?_
    exact .bind (.bind (.op ⟨rfl, rfl⟩) fun _ => .ite (.pure _) (.bind (.op ⟨rfl, rfl⟩) fun _ => .pure _)) fun _ =>
      .pure _
  | uvRunReturn =>
    exact .bind (.modify fun io => service_frame ⟨rfl, rfl⟩ ⟨rfl, rfl⟩ rfl (.same rfl rfl ⟨rfl, rfl⟩ rfl ⟨rfl, rfl⟩))
      fun _ => ioThreadClose_keepsTo

/-! ### The calls of the main thread -/

/-- What a call does after `run`, which returned `r`. -/
def endCall (call : MainCall) (r : Bool × Nat) : MainM Unit := modify fun m => { m with
  call := none, returned := some ⟨call, r.1, r.2⟩
  succeeded := if r.1 && call.isCmd then m.succeeded ++ [⟨call, r.1, r.2⟩] else m.succeeded }

def MainCall.kind : MainCall → OpKind
  | .listen _ | .start _ | .stop _ | .stopSignal => .service
  | .cmdOpen _ _ | .cmdClose _ _ | .cmdSend _ _ _ _ => .command
  | .eventsAcquire | .eventsRelease => .event

/-- From `m` to `l` only private fields of the main thread of the kind `k` changed. -/
structure MainFrame (k : OpKind) (m l : Main) : Prop where
  call : l.call = m.call ∧ l.returned = m.returned ∧ l.succeeded = m.succeeded
  command : k ≠ .command → l.cmd = m.cmd
  event : k ≠ .event → l.eventUpdates = m.eventUpdates ∧ l.eventUpdatesCount = m.eventUpdatesCount ∧
    l.cursor = m.cursor ∧ l.hand = m.hand ∧ l.owed = m.owed

instance (k : OpKind) : IsPreorder Main (MainFrame k) where
  refl _ := ⟨⟨rfl, rfl, rfl⟩, fun _ => rfl, fun _ => ⟨rfl, rfl, rfl, rfl, rfl⟩⟩
  trans _ _ _ h h' := by
    refine ⟨⟨h'.call.1.trans h.call.1, h'.call.2.1.trans h.call.2.1, h'.call.2.2.trans h.call.2.2⟩,
      fun hk => (h'.command hk).trans (h.command hk), fun hk => ?_⟩
    obtain ⟨h₁, h₂, h₃, h₄, h₅⟩ := h.event hk
    obtain ⟨h₁', h₂', h₃', h₄', h₅'⟩ := h'.event hk
    exact ⟨h₁'.trans h₁, h₂'.trans h₂, h₃'.trans h₃, h₄'.trans h₄, h₅'.trans h₅⟩

/-- The code performs operations of the main thread, of the kind `k` or loads of the state word, and changes private
fields of that kind. -/
abbrev MainKeepsTo {α : Type} (k : OpKind) (m : MainM α) : Prop :=
  m.Within (fun o => (o.kind = k ∨ o = .stateLoad) ∧ o.byMain = true) (MainFrame k)

section MainThread

private theorem modify_mainEvent {f : Main → Main} (h : ∀ m, ((f m).call = m.call ∧ (f m).returned = m.returned ∧
    (f m).succeeded = m.succeeded) ∧ (f m).cmd = m.cmd) : MainKeepsTo .event (modify f) :=
  .modify fun m => ⟨(h m).1, fun _ => (h m).2, by simp⟩

private theorem releaseLoop_keepsTo (es : List Nat) : MainKeepsTo .event (releaseLoop es) := by
  induction es with
  | nil => exact .pure _
  | cons e es ih =>
    have hpush : MainKeepsTo .event (do
        modify fun m => { m with cursor := m.cursor + 1, hand := some e }
        let _ ← perform (.eventFreePush e)
        modify fun m => { m with hand := none }
        releaseLoop es) :=
      .bind (modify_mainEvent fun _ => ⟨⟨rfl, rfl, rfl⟩, rfl⟩) fun _ => .bind (.op ⟨.inl rfl, rfl⟩) fun _ =>
        .bind (modify_mainEvent fun _ => ⟨⟨rfl, rfl, rfl⟩, rfl⟩) fun _ => ih
    refine .bind (.op ⟨.inl rfl, rfl⟩) fun evt => .ite ?_ hpush
    split
    · exact .bind (.op ⟨.inl rfl, rfl⟩) fun _ => hpush
    · exact hpush

private theorem queueCmd_keepsTo (type : CmdType) (id : Nat) (fields : Cmd → Cmd) :
    MainKeepsTo .command (queueCmd type id fields) := by
  have hmodify : ∀ c, MainKeepsTo .command (modify fun m => { m with cmd := c }) :=
    fun c => .modify fun m => ⟨⟨rfl, rfl, rfl⟩, by simp, fun _ => ⟨rfl, rfl, rfl, rfl, rfl⟩⟩
  refine .bind (.op ⟨.inl rfl, rfl⟩) fun x => ?_
  split
  case h_2 => exact .pure _
  exact .bind (hmodify _) fun _ => .bind (.op ⟨.inl rfl, rfl⟩) fun _ => .ite (.pure _)
    (.bind (hmodify _) fun _ => .pure _)

/-- Every call of the main thread keeps to one kind of operations and of private fields. -/
theorem MainCall.keepsTo (call : MainCall) : MainKeepsTo call.kind call.run := by
  cases call with
  | listen endpoint =>
    exact .bind (.bind (.op ⟨.inr rfl, rfl⟩) fun _ => .ite (.pure _) (.bind (.op ⟨.inl rfl, rfl⟩) fun _ => .pure _))
      fun _ => .pure _
  | start launch =>
    refine .bind (.bind (.op ⟨.inr rfl, rfl⟩) fun state => ?_) fun _ => .pure _
    cases state <;> first
      | exact .pure _
      | exact .bind (.op ⟨.inl rfl, rfl⟩) fun _ => .bind (.op ⟨.inl rfl, rfl⟩) fun _ => .pure _
  | stop join =>
    have hstop : MainKeepsTo .service (do
        perform (.stateStore .stopping)
        let status ← perform (.threadJoin join)
        if status ≠ 0 then
          perform (.stateStore .error)
          return false
        perform (.stateStore .stopped)
        return true) :=
      .bind (.op ⟨.inl rfl, rfl⟩) fun _ => .bind (.op ⟨.inl rfl, rfl⟩) fun _ =>
        .ite (.bind (.op ⟨.inl rfl, rfl⟩) fun _ => .pure _) (.bind (.op ⟨.inl rfl, rfl⟩) fun _ => .pure _)
    refine .bind (.bind (.op ⟨.inr rfl, rfl⟩) fun state => ?_) fun _ => .pure _
    cases state <;> first | exact .pure _ | exact hstop
  | stopSignal =>
    exact .bind (.bind (.op ⟨.inr rfl, rfl⟩) fun _ => .ite (.pure _) (.bind (.op ⟨.inl rfl, rfl⟩) fun _ => .pure _))
      fun _ => .pure _
  | eventsAcquire =>
    refine .bind (.bind (modify_mainEvent fun _ => ⟨⟨rfl, rfl, rfl⟩, rfl⟩) fun _ => .bind (.op ⟨.inl rfl, rfl⟩)
      fun x => ?_)
      fun _ => .pure _
    split
    · exact .bind (modify_mainEvent fun _ => ⟨⟨rfl, rfl, rfl⟩, rfl⟩) fun _ => .pure _
    · exact .pure _
  | eventsRelease =>
    exact .bind (.bind (modify_mainEvent fun _ => ⟨⟨rfl, rfl, rfl⟩, rfl⟩) fun _ => .bind .get fun _ =>
      .bind (releaseLoop_keepsTo _) fun _ => .bind (modify_mainEvent fun _ => ⟨⟨rfl, rfl, rfl⟩, rfl⟩) fun _ =>
      .pure _) fun _ => .pure _
  | cmdOpen endpoint id => exact .bind (.op ⟨.inr rfl, rfl⟩) fun _ => .ite (.pure _) (queueCmd_keepsTo ..)
  | cmdClose clientId id => exact .bind (.op ⟨.inr rfl, rfl⟩) fun _ => .ite (.pure _) (queueCmd_keepsTo ..)
  | cmdSend clientId msg msglen id =>
    refine .bind (.op ⟨.inr rfl, rfl⟩) fun _ => .ite (.pure _) (.bind (.op ⟨.inl rfl, rfl⟩) fun x => ?_)
    split
    · exact queueCmd_keepsTo ..
    · exact .pure _

end MainThread

/-- The calls perform operations of the main thread only. -/
theorem MainCall.byMain (call : MainCall) : call.code.Within (fun o => o.byMain = true) fun _ _ => True := by
  have htrue : IsPreorder Main fun _ _ => True := { refl _ := trivial, trans _ _ _ _ _ := trivial }
  have hrun : call.run.Within (fun o => o.byMain = true) fun _ _ => True :=
    call.keepsTo.mono (fun _ h => h.2) fun _ _ _ => trivial
  exact .bind (.modify fun _ => trivial) fun _ => .bind hrun fun _ => .modify fun _ => trivial

/-- Each thread performs its own operations only. -/
theorem next_by {n : Nat} {cond : ServiceCond} {c : ServiceConfig} (h : ReachWhen cond n c) :
    (∀ o, c.fst.view.next = some o → o.byIo = true) ∧ ∀ o, c.snd.view.next = some o → o.byMain = true :=
  Machine.Reach.within (fun d => d.keepsTo.mono (fun _ h => h.2) fun _ _ h => h) MainCall.byMain h

end ServerLynx
