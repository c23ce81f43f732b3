import ServerLynx.Correlation

/-!
# What the callbacks do with received bytes

The bytes received on a connection are in the read buffer of its link until a `READ` event takes them over.  Only the
read callbacks and the close callback change that: all other code keeps the bytes received, the read buffers of the
connections, and pushes no event but `OPEN` (`SameReads`).  And whatever pushes an event notes it, so that the pushed
events of the IO thread are those of the ready list (`InSync`).
-/

namespace ServerLynx

open Threads

/-! ### Read buffers of connections -/

/-- The read buffer of the link that belongs to the handle `h`. -/
def Io.heldBuffer (io : Io) (h : Nat) : Option Nat :=
  (io.handles h).data.bind fun i => if (io.link i).priv = some h then (io.link i).readBuffer else none

/-- From `io` to `l` no bytes were received, no connection got or lost a read buffer, and only `OPEN` events were
pushed. -/
structure SameReads (io l : Io) : Prop where
  received : l.received = io.received
  held : ∀ h, l.heldBuffer h = io.heldBuffer h
  pushed : ∃ ps, l.pushed = io.pushed ++ ps ∧ ∀ p ∈ ps, p.evt.type = .clientOpen

instance : IsPreorder Io SameReads where
  refl _ := ⟨rfl, fun _ => rfl, [], by simp, by simp⟩
  trans _ _ _ h h' := by
    obtain ⟨ps, hps, hp⟩ := h.pushed
    obtain ⟨qs, hqs, hq⟩ := h'.pushed
    refine ⟨h'.received.trans h.received, fun x => (h'.held x).trans (h.held x), ps ++ qs, ?_, fun p hm => ?_⟩
    · rw [hqs, hps, List.append_assoc]
    · exact (List.mem_append.1 hm).elim (hp p) (hq p)

/-- The operations that leave the read buffers alone and push no event but `OPEN`. -/
def Op.sparesReads : Op → Bool
  | .poolReadPop | .poolReadPush _ | .bufferStore _ _ | .bufferAddLength _ _ => false
  | .eventReadyPush _ evt => decide (evt.type = .clientOpen)
  | _ => true

variable {n : Nat} {E : Premises} {io l : Io} {h i : Nat}

theorem heldBuffer_of_data (hd : (io.handles h).data = some i) (hp : (io.link i).priv = some h) :
    io.heldBuffer h = (io.link i).readBuffer := by
  simp [Io.heldBuffer, hd, hp]

/-- The link of the handle `h` gets or loses its read buffer. -/
theorem heldBuffer_setLink (hd : (io.handles h).data = some i) (hp : (io.link i).priv = some h) {f : Link → Link}
    (hf : (f (io.link i)).priv = (io.link i).priv) (h' : Nat) :
    (io.setLink i f).heldBuffer h' = if h' = h then (f (io.link i)).readBuffer else io.heldBuffer h' := by
  by_cases he : h' = h
  · subst he
    have hset : (io.setLink i f).heldBuffer h' = ((io.setLink i f).link i).readBuffer :=
      heldBuffer_of_data hd (by rw [Io.setLink_link_self, hf, hp])
    rw [if_pos rfl, hset, Io.setLink_link_self]
  · rw [if_neg he]
    show ((io.handles h').data.bind fun j => _) = (io.handles h').data.bind fun j => _
    congr 1
    funext j
    by_cases hj : j = i
    · subst hj
      have hne : some h ≠ some h' := fun hh => he (Option.some.inj hh).symm
      rw [Io.setLink_link_self, hf, hp, if_neg hne, if_neg hne]
    · rw [show (io.setLink i f).link j = io.link j by simp [Io.setLink, Io.link, Function.update_of_ne hj]]

/-- Nothing changed that concerns the received bytes. -/
theorem SameReads.of_eq (hr : l.received = io.received) (hd : ∀ h, (l.handles h).data = (io.handles h).data)
    (hl : ∀ i, (l.link i).priv = (io.link i).priv ∧ (l.link i).readBuffer = (io.link i).readBuffer)
    (hp : l.pushed = io.pushed) : SameReads io l := by
  refine ⟨hr, fun h => ?_, [], by simp [hp], by simp⟩
  simp only [Io.heldBuffer, hd, hl]

/-- A handle without a link is tied to a link that has no read buffer. -/
theorem SameReads.tie (hd : (io.handles h).data = none) (hb : (io.link i).readBuffer = none)
    (hh : ∀ h', h' ≠ h → (l.handles h').data = (io.handles h').data) (hx : (l.handles h).data = some i)
    (hl : ∀ j, j ≠ i → l.link j = io.link j) (hb' : (l.link i).readBuffer = none) (hr : l.received = io.received)
    (hp : l.pushed = io.pushed) : SameReads io l := by
  refine ⟨hr, fun h' => ?_, [], by simp [hp], by simp⟩
  by_cases he : h' = h
  · subst he
    simp [Io.heldBuffer, hd, hx, hb']
  · simp only [Io.heldBuffer, hh h' he]
    cases (io.handles h').data with
    | none => rfl
    | some j =>
      by_cases hj : j = i
      · subst hj
        simp [hb, hb']
      · simp [hl j hj]

/-- A handle is made. -/
theorem SameReads.made (hi : io.Slots n) (kind : HandleKind) : SameReads io (io.acquireHandle kind) := by
  refine .of_eq rfl (fun h => ?_) (fun _ => ⟨rfl, rfl⟩) rfl
  by_cases he : h = io.handleCount
  · subst he
    simp [Io.acquireHandle, hi.fresh _ (Nat.le_refl _)]
  · simp [Io.acquireHandle, Function.update_of_ne he]

/-! ### Code that leaves the reads alone -/

/-- The code pushes no event but `OPEN`, and changes neither read buffers nor the bytes received. -/
abbrev KeepsReads {α : Type} (m : IoM α) : Prop := m.Within (fun o => o.sparesReads = true) SameReads

private theorem modify_reads {f : Io → Io} (hr : ∀ io, (f io).received = io.received)
    (hd : ∀ io h, ((f io).handles h).data = (io.handles h).data)
    (hl : ∀ io, (f io).linkList.clientMap = io.linkList.clientMap) (hp : ∀ io, (f io).pushed = io.pushed) :
    KeepsReads (modify f) :=
  .modify fun io => .of_eq (hr io) (hd io) (fun i => by simp only [Io.link, hl, and_self]) (hp io)

private theorem setHandle_data {f : Handle → Handle} (hf : ∀ x, (f x).data = x.data) (io : Io) (h h' : Nat) :
    ((io.setHandle h f).handles h').data = (io.handles h').data := by
  by_cases he : h' = h
  · subst he
    rw [Io.setHandle_handles_self, hf]
  · rw [show (io.setHandle h f).handles h' = io.handles h' from Function.update_of_ne he _ _]

private theorem setHandle_reads (p : Io → Nat) {f : Handle → Handle} (hf : ∀ x, (f x).data = x.data) :
    KeepsReads (modify fun io => io.setHandle (p io) f) :=
  modify_reads (fun _ => rfl) (fun io => setHandle_data hf io (p io)) (fun _ => rfl) fun _ => rfl

private theorem setLink_reads (io : Io) (i : Nat) {f : Link → Link}
    (hf : (f (io.link i)).priv = (io.link i).priv ∧ (f (io.link i)).readBuffer = (io.link i).readBuffer) :
    SameReads io (io.setLink i f) := by
  refine .of_eq rfl (fun _ => rfl) (fun j => ?_) rfl
  by_cases hj : j = i
  · subst hj
    rw [Io.setLink_link_self]
    exact hf
  · rw [show (io.setLink i f).link j = io.link j by simp [Io.setLink, Io.link, Function.update_of_ne hj]]
    exact ⟨rfl, rfl⟩

private theorem modifyLink_reads (i : Nat) {f : Link → Link}
    (hf : ∀ x, (f x).priv = x.priv ∧ (f x).readBuffer = x.readBuffer) : KeepsReads (modifyLink i f) :=
  .modify fun io => setLink_reads io i (hf _)

private theorem same_reads {f : Io → Io} (hr : ∀ io, (f io).received = io.received ∧ (f io).pushed = io.pushed)
    (hd : ∀ io, (f io).handles = io.handles) (hl : ∀ io, (f io).linkList.clientMap = io.linkList.clientMap) :
    KeepsReads (modify f) :=
  modify_reads (fun io => (hr io).1) (fun io _ => by rw [hd]) hl fun io => (hr io).2

theorem undefinedBehaviour_reads : KeepsReads undefinedBehaviour :=
  same_reads (fun _ => ⟨rfl, rfl⟩) (fun _ => rfl) fun _ => rfl

theorem onCloseHandleCb_reads (handle : Nat) : KeepsReads (onCloseHandleCb handle) :=
  setHandle_reads (fun _ => handle) fun _ => rfl

theorem closeLink_reads (i : Nat) : KeepsReads (closeLink i) := by
  refine .modify fun io => ?_
  cases hc : io.linkList.svlLinkListClose i with
  | none => exact .of_eq rfl (fun _ => rfl) (fun _ => ⟨rfl, rfl⟩) rfl
  | some list =>
    obtain ⟨-, rfl⟩ := LinkList.svlLinkListClose_eq_some.1 hc
    exact .of_eq rfl (fun _ => rfl) (fun _ => ⟨rfl, rfl⟩) rfl

theorem onRecvCbCleanup_reads (handle i : Nat) (ret : ErrorCode) (close : Bool) :
    KeepsReads (onRecvCbCleanup handle i ret close) := by
  refine .bind (modifyLink_reads i fun _ => ⟨rfl, rfl⟩) fun _ => .ite (.bind .get fun _ => .ite ?_ (.pure _)) (.pure _)
  exact .bind (modifyLink_reads i fun _ => ⟨rfl, rfl⟩) fun _ => setHandle_reads (fun _ => handle) fun _ => rfl

private theorem pushSendReq_reads (r : Nat) : KeepsReads (pushSendReq r) :=
  same_reads (fun io => by split <;> exact ⟨rfl, rfl⟩) (fun io => by split <;> rfl) fun io => by split <;> rfl

theorem send_reads (req : Nat) : KeepsReads (IoRun.send req).code := by
  refine .bind (same_reads (fun _ => ⟨rfl, rfl⟩) (fun _ => rfl) fun _ => rfl) fun _ => .bind .get fun io => ?_
  split
  · exact pushSendReq_reads _
  · exact undefinedBehaviour_reads

/-! ### Accepting and connecting -/

private theorem linkEndpoints_reads (i : Nat) (out : ConnectedOut) : KeepsReads (linkEndpoints i out) :=
  .ite (.pure _) <| .ite (.pure _) <| .bind (modifyLink_reads i fun _ => ⟨rfl, rfl⟩) fun _ => .ite (.pure _) <|
    .ite (.pure _) <| .bind (modifyLink_reads i fun _ => ⟨rfl, rfl⟩) fun _ => .pure _

private theorem readyPush_reads (e conn : Nat) {evt : Event} (ht : evt.type = .clientOpen) :
    KeepsReads (readyPush e evt conn) := by
  refine .bind (.op (by simp [Op.sparesReads, ht])) fun pushed => .bind (.modify fun io => ⟨rfl, fun _ => rfl, ?_⟩)
    fun _ => .pure _
  cases pushed with
  | false => exact ⟨[], by simp, by simp⟩
  | true => exact ⟨_, rfl, by simpa using ht⟩

private theorem announce_reads {cleanup rest : IoM Unit} {i conn : Nat} {fields : Link → Event → Event}
    (hf : ∀ link evt, (fields link evt).type = .clientOpen) (hc : KeepsReads cleanup) (hr : KeepsReads rest) :
    KeepsReads (do
      let some (e, openEvt) ← perform (.eventFreePop .clientOpen) | cleanup
      modify fun io => { io with hand := some e }
      let link ← getLink i
      let pushed ← readyPush e (fields link openEvt) conn
      if !pushed then return ← cleanup
      rest) := by
  refine .bind (.op rfl) fun x => ?_
  split
  case h_2 => exact hc
  refine .bind (same_reads (fun _ => ⟨rfl, rfl⟩) (fun _ => rfl) fun _ => rfl) fun _ => ?_
  refine .bind (.bind .get fun _ => .pure _) fun link => .bind (readyPush_reads _ _ (hf _ _)) fun pushed => ?_
  exact .ite hc hr

private theorem uvReadStart_reads (p : Io → Nat) : KeepsReads (modify fun io => io.uvReadStart (p io)) :=
  setHandle_reads p fun _ => rfl

private theorem uvClose_reads (p : Io → Nat) (cb : CloseCb) : KeepsReads (modify fun io => io.uvClose (p io) cb) :=
  setHandle_reads p fun _ => rfl

private theorem onInboundConnectionCbCleanup_reads (h : Nat) (link : Option Nat) (init : Bool) :
    KeepsReads (onInboundConnectionCbCleanup h link init) := by
  cases link with
  | none => exact .ite (uvClose_reads (fun _ => h) _) (.pure _)
  | some i => exact .bind (modifyLink_reads i fun _ => ⟨rfl, rfl⟩) fun _ => uvClose_reads (fun _ => h) _

/-- All along the code, the received bytes are where they were in `io`. -/
abbrev StaysReads {α : Type} (io : Io) (m : IoM α) (l : Io) : Prop :=
  m.path (fun _ _ _ => True) (fun l o => o.sparesReads = true ∧ SameReads io l) (fun l _ => SameReads io l) l

private theorem openLink_eq_some (hs : io.Slots n) {list : LinkList}
    (ho : io.linkList.svlLinkListOpen = some (i, list)) : (io.link i).readBuffer = none ∧
      ∀ j, (list.clientMap j).priv = (io.link j).priv ∧ (list.clientMap j).readBuffer = (io.link j).readBuffer := by
  obtain ⟨hitems, -, -, hmap⟩ := LinkList.svlLinkListOpen_eq_some.1 ho
  refine ⟨hs.free_buffer i (by simp [hitems]), fun j => ?_⟩
  by_cases hj : j = i
  · subst hj
    simp [Io.link, hmap]
  · simp [Io.link, hmap, Function.update_of_ne hj]

private theorem uvInit_same (io : Io) (h : Nat) : SameReads io (io.uvInit h) :=
  .of_eq rfl (setHandle_data (f := fun x => { x with isInit := true }) (fun _ => rfl) io h) (fun _ => ⟨rfl, rfl⟩) rfl

theorem onInboundConnectionCb_reads (hs : io.Slots n) (status : Int) (out : InboundOut) :
    StaysReads io (onInboundConnectionCb status out) io := by
  have hrefl := refl_of SameReads io
  have hmade := SameReads.made hs .tcpClient
  have hinit : SameReads io ((io.acquireHandle .tcpClient).uvInit io.handleCount) :=
    trans_of SameReads hmade (uvInit_same _ _)
  have hcleanup : ∀ {l : Io} h link init, SameReads io l → StaysReads io (onInboundConnectionCbCleanup h link init) l :=
    fun h link init hl => (onInboundConnectionCbCleanup_reads h link init).path_from hl
  simp only [StaysReads, onInboundConnectionCb, acquireClientHandle, openLink, Code.path_ite, Code.path_bind,
    Code.path_get, Code.path_pure, Code.path_modify]
  refine ⟨fun _ => hrefl, fun _ => ⟨fun _ => hrefl, fun _ => ⟨fun _ => hcleanup _ _ _ hmade, fun _ =>
    ⟨fun _ => hcleanup _ _ _ hinit, fun _ => ?_⟩⟩⟩⟩
  cases hopen : ((io.acquireHandle .tcpClient).uvInit io.handleCount).linkList.svlLinkListOpen with
  | none => exact hcleanup _ _ _ hinit
  | some x =>
    obtain ⟨i, list⟩ := x
    have hopen' : io.linkList.svlLinkListOpen = some (i, list) := hopen
    simp only [modifyLink, Code.path_bind, Code.path_modify, Code.path_pure]
    -- the link that the handle is tied to was free
    obtain ⟨hb, -⟩ := openLink_eq_some hs hopen'
    obtain ⟨-, -, -, hmap⟩ := LinkList.svlLinkListOpen_eq_some.1 hopen'
    have htied : SameReads io (io.attach i list none (Link.accept io.handleCount)) := by
      refine .tie (h := io.handleCount) (by rw [hs.fresh _ (Nat.le_refl _)]) hb (fun h' hne => ?_) ?_
        (fun j hne => Io.attach_link_ne hopen' hne _ _) ?_ rfl rfl
      · rw [Io.attach_handles_ne hne]
      · rw [Io.attach_handles_self]
      · rw [Io.attach_link_self hopen']
        rfl
    have he : ((({ (io.acquireHandle .tcpClient).uvInit io.handleCount with
        linkList := list, linkLog := io.linkLog ++ [.opened i] } : Io).setHandle io.handleCount fun h => { h with
          data := some i }).setLink i fun link => { link with
        priv := some io.handleCount, readState := .header, state := .opened, errorCode := .zero, readBuffer := none
        lastMsgId := 0 }) = io.attach i list none (Link.accept io.handleCount) := by
      simp [Io.attach, Link.accept, Io.acquireHandle, Io.uvInit, Io.setHandle, Io.setLink]
    have he' : ((io.acquireHandle .tcpClient).uvInit io.handleCount).linkLog = io.linkLog := rfl
    rw [he', he]
    refine Code.path_mono (fun _ _ h => h) (fun l ok hl => ?_) ((linkEndpoints_reads i _).path_from htied)
    refine Code.Within.path_from (.ite (onInboundConnectionCbCleanup_reads ..) ?_) hl
    refine announce_reads (fun _ _ => rfl) (onInboundConnectionCbCleanup_reads ..) ?_
    exact .ite (onInboundConnectionCbCleanup_reads ..) (uvReadStart_reads fun _ => io.handleCount)

private theorem releaseConnectReq_reads (q : Nat) : KeepsReads (modify fun io => io.releaseConnectReq q) :=
  same_reads (fun _ => ⟨rfl, rfl⟩) (fun _ => rfl) fun _ => rfl

private theorem onOutboundConnectionCbCleanup_reads (q : Nat) (locals : Option (Nat × Nat)) :
    KeepsReads (onOutboundConnectionCbCleanup q locals) := by
  refine .bind (releaseConnectReq_reads q) fun _ => ?_
  split
  · exact .bind (modifyLink_reads _ fun _ => ⟨rfl, rfl⟩) fun _ => uvClose_reads (fun _ => _) _
  · exact undefinedBehaviour_reads

theorem outbound_reads (req : Nat) (status : Int) (out : ConnectedOut) :
    KeepsReads (IoRun.outbound req status out).code := by
  have hdone : KeepsReads (modify fun io => onHandle (fun io => (io.connectReqs req).handle)
      (fun io h => io.setHandle h fun x => { x with connecting := false })
      (io.setConnectReq req fun q => { q with pending := false })) := by
    refine .modify fun io => ?_
    unfold onHandle
    split
    · exact .of_eq rfl (fun _ => rfl) (fun _ => ⟨rfl, rfl⟩) rfl
    · exact .of_eq rfl (setHandle_data (f := fun x => { x with connecting := false }) (fun _ => rfl) _ _)
        (fun _ => ⟨rfl, rfl⟩) rfl
  refine .bind hdone fun _ => .bind .get fun io => ?_
  dsimp only
  split
  case h_2 => exact undefinedBehaviour_reads
  refine .ite (onOutboundConnectionCbCleanup_reads ..) (.bind (.bind .get fun _ => .pure _) fun link => ?_)
  split
  case h_2 => exact undefinedBehaviour_reads
  refine .ite undefinedBehaviour_reads (.bind (linkEndpoints_reads ..) fun ok =>
    .ite (onOutboundConnectionCbCleanup_reads ..) ?_)
  refine announce_reads (fun _ _ => rfl) (onOutboundConnectionCbCleanup_reads ..) ?_
  refine .bind (modifyLink_reads _ fun _ => ⟨rfl, rfl⟩) fun _ => .ite (onOutboundConnectionCbCleanup_reads ..) ?_
  exact .modify fun io => .of_eq rfl (setHandle_data (f := fun x => { x with reading := true }) (fun _ => rfl) io _)
    (fun _ => ⟨rfl, rfl⟩) rfl

/-! ### Commands -/

private theorem handleCmdOpenCleanup_reads (h q i : Option Nat) : KeepsReads (handleCmdOpenCleanup h q i) :=
  handleCmdOpenCleanup_within (fun h => uvClose_reads (fun _ => h) _) closeLink_reads releaseConnectReq_reads h q i

private theorem handleCmdOpen_reads (hs : io.Slots n) (cmd : Cmd) (out : CmdOut) :
    StaysReads io (handleCmdOpen cmd out) io := by
  have hmade := SameReads.made hs .tcpClient
  have hinit : SameReads io ((io.acquireHandle .tcpClient).uvInit io.handleCount) :=
    trans_of SameReads hmade (uvInit_same _ _)
  have hreq : SameReads io ((io.acquireHandle .tcpClient).uvInit io.handleCount).acquireConnectReq :=
    ⟨hinit.received, hinit.held, hinit.pushed⟩
  have hcleanup : ∀ {l : Io} h q i, SameReads io l → StaysReads io (handleCmdOpenCleanup h q i) l :=
    fun h q i hl => (handleCmdOpenCleanup_reads h q i).path_from hl
  simp only [StaysReads, handleCmdOpen, acquireClientHandle, acquireConnectReq, openLink, Code.path_ite, Code.path_bind,
    Code.path_get, Code.path_pure, Code.path_modify]
  refine ⟨fun _ => hcleanup _ _ _ (refl_of SameReads io), fun _ => ⟨fun _ => hcleanup _ _ _ hmade, fun _ =>
    ⟨fun _ => hcleanup _ _ _ hinit, fun _ => ?_⟩⟩⟩
  cases hopen : ((io.acquireHandle .tcpClient).uvInit io.handleCount).acquireConnectReq.linkList.svlLinkListOpen with
  | none => exact hcleanup _ _ _ hreq
  | some x =>
    obtain ⟨i, list⟩ := x
    have hopen' : io.linkList.svlLinkListOpen = some (i, list) := hopen
    simp only [modifyLink, Code.path_bind, Code.path_modify, Code.path_pure, Code.path_ite]
    -- the link that the handle is tied to was free
    obtain ⟨hb, -⟩ := openLink_eq_some hs hopen'
    have htied : SameReads io { io.attach i list (some cmd) (Link.dial io.handleCount cmd.id) with
        connectReqs := Function.update io.connectReqs io.connectReqCount { data := some i }
        connectReqCount := io.connectReqCount + 1 } := by
      refine .tie (h := io.handleCount) (by rw [hs.fresh _ (Nat.le_refl _)]) hb (fun h' hne => ?_) ?_
        (fun j hne => Io.attach_link_ne hopen' hne (some cmd) (Link.dial io.handleCount cmd.id)) ?_ rfl rfl
      · exact congrArg Handle.data (Function.update_of_ne hne _ _)
      · exact congrArg Handle.data (Function.update_self io.handleCount _ io.handles)
      · exact congrArg Link.readBuffer (Io.attach_link_self hopen' (some cmd) (Link.dial io.handleCount cmd.id))
    have he : ((({ ((io.acquireHandle .tcpClient).uvInit io.handleCount).acquireConnectReq with
          linkList := list, linkLog := io.linkLog ++ [.opened i] } : Io).setLink i fun link => { link with
        priv := some io.handleCount, readState := .header, state := .new, errorCode := .zero, readBuffer := none
        cmdOpenId := cmd.id }).setConnectReq io.connectReqCount fun q => { q with data := some i }).setHandle
        io.handleCount (fun h => { h with data := some i, openCmd := some cmd }) =
        { io.attach i list (some cmd) (Link.dial io.handleCount cmd.id) with
          connectReqs := Function.update io.connectReqs io.connectReqCount { data := some i }
          connectReqCount := io.connectReqCount + 1 } := by
      simp [Io.attach, Link.dial, Io.acquireHandle, Io.acquireConnectReq, Io.uvInit, Io.setHandle, Io.setLink,
        Io.setConnectReq]
    have hlog : ((io.acquireHandle .tcpClient).uvInit io.handleCount).acquireConnectReq.linkLog = io.linkLog := rfl
    have hcount : ((io.acquireHandle .tcpClient).uvInit io.handleCount).connectReqCount = io.connectReqCount := rfl
    rw [hlog, hcount, he]
    refine ⟨fun _ => hcleanup _ _ _ htied, fun _ => trans_of SameReads htied ?_⟩
    exact .of_eq rfl (setHandle_data (f := fun x => { x with connecting := true }) (fun _ => rfl) _ _)
      (fun _ => ⟨rfl, rfl⟩) rfl

private theorem handleCmdClose_reads (cmd : Cmd) : KeepsReads (handleCmdClose cmd) := by
  refine .bind .get fun io => ?_
  split
  case h_2 => exact .pure _
  refine .bind (modifyLink_reads _ fun _ => ⟨rfl, rfl⟩) fun _ => .bind (.modify fun io => ?_) fun _ => .pure _
  refine .of_eq rfl (fun h' => ?_) (fun _ => ⟨rfl, rfl⟩) rfl
  exact (setHandle_data (f := fun x => { x with closeCmd := some cmd }) (fun _ => rfl) (io.uvClose _ .link) _ h').trans
    (setHandle_data (f := fun x => { x with
      started := false, reading := false, closing := some .link, closes := x.closes + 1 }) (fun _ => rfl) io _ h')

private theorem handleCmdSend_reads (cmd : Cmd) (out : CmdOut) : KeepsReads (handleCmdSend cmd out) := by
  refine .bind .get fun io => ?_
  split
  case h_2 => exact .pure _
  refine .bind .get fun io => ?_
  split
  case h_2 => exact .pure _
  refine .bind (same_reads (fun _ => ⟨rfl, rfl⟩) (fun _ => rfl) fun _ => rfl) fun _ => .ite ?_ ?_
  · exact .bind (pushSendReq_reads _) fun _ => .pure _
  · exact .bind (same_reads (fun _ => ⟨rfl, rfl⟩) (fun _ => rfl) fun _ => rfl) fun _ => .pure _

theorem onCheckCb_reads (hs : io.Slots n) (out : CmdOut) : StaysReads io (onCheckCb out) io := by
  have hcmd : ∀ cmd, StaysReads io (handleCmd cmd out) io := by
    intro cmd
    simp only [StaysReads, handleCmd]
    cases cmd.type with
    | clientOpen =>
      rw [Code.path_bind]
      exact handleCmdOpen_reads hs cmd out
    | clientClose => exact (handleCmdClose_reads cmd).path io
    | clientSend => exact (handleCmdSend_reads cmd out).path io
  simp only [StaysReads, onCheckCb, Code.path_bind, Code.path_op]
  refine ⟨⟨rfl, refl_of SameReads io⟩, ?_⟩
  rintro (_ | cmd) -
  · exact .of_eq rfl (fun _ => rfl) (fun _ => ⟨rfl, rfl⟩) rfl
  simp only [Code.path_bind, Code.path_get]
  refine Code.path_mono (fun _ _ h => h) (fun l acted hl => ?_) (hcmd cmd)
  simp only [Code.path_modify, Code.path_op]
  have hl' : ∀ {l' : Io}, SameReads l l' → SameReads io l' := trans_of SameReads hl
  exact ⟨⟨rfl, hl' (.of_eq rfl (fun _ => rfl) (fun _ => ⟨rfl, rfl⟩) rfl)⟩,
    fun _ _ => hl' (.of_eq rfl (fun _ => rfl) (fun _ => ⟨rfl, rfl⟩) rfl)⟩

/-! ### Start-up, clean-up, signals and the timer -/

theorem IoRun.service_reads {d : IoRun} (hd : d.kind = .service) (hs : io.Slots n) : StaysReads io d.code io := by
  have hsame : ∀ l, d.kind.Frame io l → SameReads io l := by
    intro l hf
    have hc := hf.conns hd
    refine .of_eq hc.received (fun h => ?_) (fun i => by simp only [Io.link, hf.links hd, and_self])
      (hf.event (by simp [hd])).2
    by_cases hlt : h < io.handleCount
    · exact (hc.handles h hlt).data
    · have hnone : (io.handles h).data = none := by rw [hs.fresh h (Nat.le_of_not_lt hlt)]
      rw [hnone, Option.eq_none_iff_forall_ne_some]
      intro i hd'
      exact absurd (hnone.symm.trans (hc.data h i hd')) (by simp)
  refine Code.path_mono (fun l o h => ⟨?_, hsame l h.2⟩) (fun l _ h => hsame l h) (d.keepsTo.path io)
  have hk : o.kind = .service := h.1.1.trans hd
  cases o <;> simp_all [Op.kind, Op.sparesReads]

/-- All that the IO thread is given to run, but reads and closes, leaves the received bytes where they are. -/
theorem IoRun.stays_reads {d : IoRun} (hs : io.Slots n) (hr : ∀ handle out, d ≠ .read handle out)
    (hc : ∀ handle, d ≠ .close handle) : StaysReads io d.code io := by
  cases d with
  | inbound status out => exact onInboundConnectionCb_reads hs status out
  | outbound req status out => exact (outbound_reads req status out).path io
  | read handle out => exact absurd rfl (hr handle out)
  | close handle => exact absurd rfl (hc handle)
  | send req => exact (send_reads req).path io
  | check out => exact onCheckCb_reads hs out
  | thread out => exact service_reads rfl hs
  | timer => exact service_reads rfl hs
  | signal isSigint => exact service_reads rfl hs
  | uvRunReturn => exact service_reads rfl hs

/-! ### Pushed events and the ready list -/

/-- The events pushed by the IO thread are those of the ready list, in order. -/
def InSync (sh : Shared) (io : Io) : Prop := sh.readied.map (·.evt) = io.pushed.map (·.evt)

variable {sh sh' : Shared}

/-- Only a push to the ready list changes the history of that list. -/
theorem Op.exec_readied {o : Op} (ho : ∀ e evt, o ≠ .eventReadyPush e evt) {r : o.Res}
    (h : o.exec sh = some (r, sh')) : sh'.readied = sh.readied := by
  cases o <;> simp only [Op.exec] at h
  case eventReadyPush e evt => exact absurd rfl (ho e evt)
  all_goals
    first
    | (obtain ⟨-, rfl⟩ := Prod.mk.inj (Option.some.inj h); rfl)
    | (split at h <;> first
        | (obtain ⟨-, rfl⟩ := Prod.mk.inj (Option.some.inj h); rfl)
        | (split at h <;> first
            | (obtain ⟨-, rfl⟩ := Prod.mk.inj (Option.some.inj h); rfl)
            | simp at h))

/-- The code notes every event that it pushes. -/
structure KeepsSync {α : Type} (m : IoM α) : Prop where
  wp : ∀ {K C : Shared → View Io Op → View Main Op → Prop} {S : Shared → View Main Op → Prop} {l : Io},
    (∀ sh w, S sh w → InSync sh l) → m.wp Op.exec K (fun sh v _ => InSync sh v.loc) C S
      (fun S l _ => ∀ sh w, S sh w → InSync sh l) l

namespace KeepsSync

variable {α β : Type}

theorem pure (a : α) : KeepsSync (pure a : IoM α) := ⟨fun h => h⟩

theorem get : KeepsSync (get : IoM Io) := ⟨fun h => h⟩

theorem modify {f : Io → Io} (hf : ∀ io, (f io).pushed = io.pushed) : KeepsSync (modify f : IoM Unit) :=
  ⟨fun h sh w hs => by rw [InSync, hf]; exact h sh w hs⟩

theorem op {o : Op} (ho : ∀ e evt, o ≠ .eventReadyPush e evt) : KeepsSync (perform o : IoM o.Res) := by
  refine ⟨fun h => ⟨fun sh w hs _ => h sh w hs, fun r _ sh' w hs => ?_⟩⟩
  obtain ⟨sh, -, hj, -, he⟩ := hs
  rw [InSync, Op.exec_readied ho he]
  exact hj

theorem ite {c : Prop} [Decidable c] {m m' : IoM α} (hm : KeepsSync m) (hm' : KeepsSync m') :
    KeepsSync (if c then m else m') := by
  by_cases h : c
  · simpa [h] using hm
  · simpa [h] using hm'

theorem bind {m : IoM α} {f : α → IoM β} (hm : KeepsSync m) (hf : ∀ a, KeepsSync (f a)) : KeepsSync (m >>= f) := by
  refine ⟨fun h => ?_⟩
  rw [Code.wp_bind]
  exact Code.wp_mono (fun _ _ a hs => (hf a).wp hs) (hm.wp h)

end KeepsSync

private theorem readyPush_sync (e : Nat) (evt : Event) (conn : Nat) : KeepsSync (readyPush e evt conn) := by
  refine ⟨fun {K C S l} h => ?_⟩
  simp only [readyPush, Code.wp_bind, Code.wp_op, Code.wp_modify, Code.wp_pure]
  refine ⟨fun sh w hs _ => h sh w hs, fun pushed _ => ?_⟩
  rintro sh' w ⟨sh, -, hj, -, he⟩
  simp only [Op.exec] at he
  split at he
  · obtain ⟨rfl, rfl⟩ := Prod.mk.inj (Option.some.inj he)
    simpa [InSync] using hj
  · obtain ⟨rfl, rfl⟩ := Prod.mk.inj (Option.some.inj he)
    simpa [InSync] using hj

private theorem getLink_sync (i : Nat) : KeepsSync (getLink i) := .bind .get fun _ => .pure _

private theorem modifyLink_sync (i : Nat) (f : Link → Link) : KeepsSync (modifyLink i f) := .modify fun _ => rfl

private theorem undefinedBehaviour_sync : KeepsSync undefinedBehaviour := .modify fun _ => rfl

private theorem pushSendReq_sync (r : Nat) : KeepsSync (pushSendReq r) := .modify fun io => by split <;> rfl

private theorem onRecvCbCleanup_sync (handle i : Nat) (ret : ErrorCode) (close : Bool) :
    KeepsSync (onRecvCbCleanup handle i ret close) := by
  refine .bind (modifyLink_sync ..) fun _ => .ite (.bind .get fun _ => .ite ?_ (.pure _)) (.pure _)
  exact .bind (modifyLink_sync ..) fun _ => .modify fun _ => rfl

private theorem onRecvCb_sync (handle : Nat) (nread : Int) : KeepsSync (onRecvCb handle nread) := by
  refine .bind .get fun io => ?_
  split
  case h_2 => exact undefinedBehaviour_sync
  refine .ite (onRecvCbCleanup_sync ..) (.ite (onRecvCbCleanup_sync ..) (.bind (getLink_sync _) fun link => ?_))
  split
  case h_2 => exact undefinedBehaviour_sync
  refine .bind (.op (by simp)) fun added => .ite (onRecvCbCleanup_sync ..) (.bind (.op (by simp)) fun x => ?_)
  split
  case h_2 => exact onRecvCbCleanup_sync ..
  refine .bind (.modify fun _ => rfl) fun _ => .bind (getLink_sync _) fun link => .bind (.op (by simp)) fun span => ?_
  exact .bind (readyPush_sync ..) fun pushed => .ite (onRecvCbCleanup_sync ..) (modifyLink_sync ..)

private theorem recvSpace_sync (i : Nat) : KeepsSync (do
    let some b := (← getLink i).readBuffer | return none
    let len ← perform (.bufferRemaining b)
    return some (b, len)) := by
  refine .bind (getLink_sync _) fun link => ?_
  split
  · exact .bind (.op (by simp)) fun len => .pure _
  · exact .pure _

private theorem uvRead_sync (handle : Nat) (out : ReadOut) : KeepsSync (uvRead handle out) := by
  have halloc : KeepsSync (onRecvAllocCb handle) := by
    refine .bind .get fun io => ?_
    split
    case h_2 => exact .bind undefinedBehaviour_sync fun _ => .pure _
    refine .bind (getLink_sync _) fun link => .ite (.bind (.op (by simp)) fun x => ?_) (recvSpace_sync _)
    split
    case h_2 => exact .pure _
    exact .bind (modifyLink_sync ..) fun _ => recvSpace_sync _
  refine .bind halloc fun x => ?_
  split
  case h_2 => exact onRecvCb_sync ..
  refine .ite (onRecvCb_sync ..) ?_
  cases out with
  | error err => exact onRecvCb_sync ..
  | empty => exact onRecvCb_sync ..
  | data bytes => exact .bind (.op (by simp)) fun _ => .bind (.modify fun _ => rfl) fun _ => onRecvCb_sync ..

private theorem uvFinishClose_sync (handle : Nat) : KeepsSync (uvFinishClose handle) := by
  have hfree : KeepsSync (onCloseHandleCb handle) := .modify fun _ => rfl
  have hrelease : ∀ i, KeepsSync (releaseReadBuffer i) := by
    refine fun i => .bind (getLink_sync _) fun link => ?_
    split
    · exact .bind (.op (by simp)) fun _ => modifyLink_sync ..
    · exact .pure _
  have hlink : KeepsSync (onCloseLinkCb handle) := by
    refine .bind .get fun io => ?_
    split
    case h_2 => exact undefinedBehaviour_sync
    refine .bind (modifyLink_sync ..) fun _ => .bind (hrelease _) fun _ => .bind (.op (by simp)) fun x => ?_
    split
    case h_2 => exact hfree
    refine .bind (.modify fun _ => rfl) fun _ => .bind (getLink_sync _) fun link => .bind (readyPush_sync ..)
      fun _ => ?_
    exact .bind (.modify fun io => by split <;> rfl) fun _ => hfree
  refine .bind (.modify fun _ => rfl) fun _ => .bind .get fun io => ?_
  split
  · exact hlink
  · exact hfree
  · exact .pure _

private theorem linkEndpoints_sync (i : Nat) (out : ConnectedOut) : KeepsSync (linkEndpoints i out) :=
  .ite (.pure _) <| .ite (.pure _) <| .bind (modifyLink_sync ..) fun _ => .ite (.pure _) <|
    .ite (.pure _) <| .bind (modifyLink_sync ..) fun _ => .pure _

private theorem onInboundConnectionCb_sync (status : Int) (out : InboundOut) :
    KeepsSync (onInboundConnectionCb status out) := by
  have hcleanup : ∀ h link init, KeepsSync (onInboundConnectionCbCleanup h link init) := by
    rintro h (_ | i) init
    · exact .ite (.modify fun _ => rfl) (.pure _)
    · exact .bind (modifyLink_sync ..) fun _ => .modify fun _ => rfl
  have hopen : KeepsSync openLink := by
    refine .bind .get fun io => ?_
    split
    · exact .pure _
    · exact .bind (.modify fun _ => rfl) fun _ => .pure _
  have hacquire : KeepsSync (acquireClientHandle out.acquire) :=
    .ite (.pure _) (.bind .get fun _ => .bind (.modify fun _ => rfl) fun _ => .pure _)
  refine .ite (.pure _) (.bind hacquire fun x => ?_)
  split
  case h_2 => exact .pure _
  refine .ite (hcleanup ..) (.bind (.modify fun _ => rfl) fun _ => .ite (hcleanup ..) (.bind hopen fun x => ?_))
  split
  case h_2 => exact hcleanup ..
  refine .bind (.modify fun _ => rfl) fun _ => .bind (modifyLink_sync ..) fun _ => .bind (linkEndpoints_sync ..)
    fun ok => ?_
  refine .ite (hcleanup ..) (.bind (.op (by simp)) fun x => ?_)
  split
  case h_2 => exact hcleanup ..
  refine .bind (.modify fun _ => rfl) fun _ => .bind (getLink_sync _) fun link => .bind (readyPush_sync ..) fun _ => ?_
  exact .ite (hcleanup ..) (.ite (hcleanup ..) (.modify fun _ => rfl))

private theorem onOutboundConnectionCb_sync (q : Nat) (status : Int) (out : ConnectedOut) :
    KeepsSync (onOutboundConnectionCb q status out) := by
  have hcleanup : ∀ locals, KeepsSync (onOutboundConnectionCbCleanup q locals) := by
    refine fun locals => .bind (.modify fun _ => rfl) fun _ => ?_
    split
    · exact .bind (modifyLink_sync ..) fun _ => .modify fun _ => rfl
    · exact undefinedBehaviour_sync
  refine .bind .get fun io => ?_
  dsimp only
  split
  case h_2 => exact undefinedBehaviour_sync
  refine .ite (hcleanup _) (.bind (getLink_sync _) fun link => ?_)
  split
  case h_2 => exact undefinedBehaviour_sync
  refine .ite undefinedBehaviour_sync (.bind (linkEndpoints_sync ..) fun ok => .ite (hcleanup _) ?_)
  refine .bind (.op (by simp)) fun x => ?_
  split
  case h_2 => exact hcleanup _
  refine .bind (.modify fun _ => rfl) fun _ => .bind (getLink_sync _) fun link => .bind (readyPush_sync ..) fun _ => ?_
  exact .ite (hcleanup _) (.bind (modifyLink_sync ..) fun _ => .ite (hcleanup _) (.modify fun _ => rfl))

private theorem keepsSync_of_kind {d : IoRun} (hd : d.kind ≠ .event) : KeepsSync d.code := by
  refine ⟨fun {K C S l} hS => ?_⟩
  have hpush : ∀ {o : Op}, o.kind = d.kind → ∀ e evt, o ≠ .eventReadyPush e evt := by
    rintro o ho e evt rfl
    exact hd ho.symm
  refine Prog.wp_mono ?_ (Prog.wp_of_path (fun h _ hj => ?_) (fun h _ hj he => ?_) (d.keepsTo.path l) hS)
  · intro S l' _ hl sh w hs
    rw [InSync, (hl.2.event hd).2]
    exact hl.1 sh w hs
  · rw [InSync, (h.2.event hd).2]
    exact hj
  · rw [InSync, Op.exec_readied (hpush h.1.1) he, ← (h.2.event hd).2]
    exact hj

theorem IoRun.keepsSync (d : IoRun) : KeepsSync d.code := by
  cases d with
  | inbound status out => exact onInboundConnectionCb_sync status out
  | outbound req status out =>
    exact .bind (.modify fun io => by simp only [onHandle]; split <;> rfl) fun _ => onOutboundConnectionCb_sync ..
  | read handle out => exact uvRead_sync handle out
  | close handle => exact uvFinishClose_sync handle
  | send req =>
    refine .bind (.modify fun _ => rfl) fun _ => .bind .get fun io => ?_
    split
    · exact pushSendReq_sync _
    · exact undefinedBehaviour_sync
  | check out => exact keepsSync_of_kind (by simp [IoRun.kind])
  | thread out => exact keepsSync_of_kind (by simp [IoRun.kind])
  | timer => exact keepsSync_of_kind (by simp [IoRun.kind])
  | signal isSigint => exact keepsSync_of_kind (by simp [IoRun.kind])
  | uvRunReturn => exact keepsSync_of_kind (by simp [IoRun.kind])

/-- What holds of the shared state and the IO thread, and is kept by the operations of the main thread, is kept by its
calls. -/
theorem MainCall.keeps {cond : ServiceCond} {K : Shared → View Io Op → View Main Op → Prop}
    {J : Shared → View Io Op → Prop} (call : MainCall) (hJ : ∀ {sh sh' : Shared} {o : Op} {r : o.Res} {v : View Io Op},
      o.byMain = true → J sh v → o.exec sh = some (r, sh') → J sh' v) :
    service.Keeps₂ cond K (fun sh v _ => J sh v) call := by
  rintro m -
  have hpath : (call.code m).path (fun _ _ _ => True) (fun _ o => o.byMain = true ∧ True) fun _ _ => True :=
    call.byMain.path m
  have hS : ∀ sh v, service.Start₂ cond K (fun sh v _ => J sh v) call m sh v → J sh v := fun sh v h => h.2.1
  refine Prog.wp_mono ?_ (Prog.wp_of_path ?_ ?_ hpath hS)
  · exact fun S l _ h sh v hs _ => h.1 sh v hs
  · exact fun _ _ hj => hj
  · exact fun ho _ hj he => hJ ho.1 hj he

/-- In every state that a run reaches, the events pushed by the IO thread are those of the ready list. -/
theorem in_sync {cond : ServiceCond} {c : ServiceConfig} (h : ReachWhen cond n c) : InSync c.sh c.fst.view.loc := by
  have h₀ : InSync (.setup n) (.setup n) := rfl
  refine Machine.Reach.invariant (K := fun _ _ _ => True) (J := fun sh v _ => InSync sh v.loc)
    (fun _ _ => trivial) h₀ ?_ ?_ h
  · rintro d io -
    exact Code.wp_mono (fun _ _ _ hs sh w h _ => hs sh w h) (d.keepsSync.wp fun sh w h => h.2.1)
  · refine fun call => call.keeps (J := fun sh v => InSync sh v.loc) fun {sh sh' o r v} ho hj he => ?_
    rw [InSync, Op.exec_readied (by rintro e evt rfl; simp [Op.byMain] at ho) he]
    exact hj

end ServerLynx
