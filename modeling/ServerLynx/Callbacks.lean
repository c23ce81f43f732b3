import ServerLynx.Loop

/-!
# The callbacks of the IO thread (`service_internal.c`)

Each callback is code of the IO thread.  The results of libuv calls, of `TN_MEM_ACQUIRE` and of the endpoint
conversions come in as an argument, since nothing in the service determines them; 0 is success, as everywhere in
libuv.  A `goto cleanup` is a call of the clean-up with the locals it reads.  The texts that are only logged are
left out.
-/

namespace ServerLynx

open Threads (Code)

/-- What follows the use of an unassigned variable or a failed assertion. -/
def undefinedBehaviour : IoM Unit := modify fun io => { io with phase := .undefined }

def getLink (i : Nat) : IoM Link := do return (← get).link i

def modifyLink (i : Nat) (f : Link → Link) : IoM Unit := modify fun io => io.setLink i f

/-- `svl_link_list_close` on the link list of the service; a push that fails is only logged. -/
def closeLink (i : Nat) : IoM Unit := modify fun io =>
  match io.linkList.svlLinkListClose i with
  | some list => { io with linkList := list, linkLog := io.linkLog ++ [.closed i] }
  | none => { io with refused := io.refused + 1, linkLog := io.linkLog ++ [.closed i] }

/-- `svl_link_list_open` on the link list of the service -/
def openLink : IoM (Option Nat) := do
  match (← get).linkList.svlLinkListOpen with
  | none => return none
  | some (i, list) =>
    modify fun io => { io with linkList := list, linkLog := io.linkLog ++ [.opened i] }
    return some i

/-- `TN_MEM_ACQUIRE` for a client handle or a connect request -/
def acquireClientHandle (ok : Bool) : IoM (Option Nat) := do
  if !ok then return none
  let h := (← get).handleCount
  modify fun io => io.acquireHandle .tcpClient
  return some h

def acquireConnectReq (ok : Bool) : IoM (Option Nat) := do
  if !ok then return none
  let q := (← get).connectReqCount
  modify fun io => io.acquireConnectReq
  return some q

/-- `tn_event_list_ready_push` of the event in the hands of the callback, about the connection `conn` -/
def readyPush (e : Nat) (evt : Event) (conn : Nat) : IoM Bool := do
  let pushed ← perform (.eventReadyPush e evt)
  modify fun io => { io with
    hand := none, pushed := if pushed then io.pushed ++ [⟨evt, conn⟩] else io.pushed }
  return pushed

/-- `tn_list_ptr_push_back` on `send_req_list` -/
def pushSendReq (r : Nat) : IoM Unit := modify fun io =>
  match io.sendReqList.pushBack r with
  | some list => { io with sendReqList := list }
  | none => { io with refused := io.refused + 1 }

/-! ### Signals and state -/

/-- `svl_service_stop_signal`, for either thread -/
def svlServiceStopSignal {L : Type} : Code Op Op.Res L Bool := do
  let state ← perform .stateLoad
  if state = .stopping ∨ state = .stopped ∨ state = .error then return false
  let _ ← perform (.stateStore .stopping)
  return true

def onSigintCb (isSigint : Bool) : IoM Unit := do
  if !isSigint then return
  let _ ← svlServiceStopSignal
  return

def safeCloseUvHandle (handle : Option Nat) : IoM Unit := modify fun io =>
  match handle with
  | none => io
  | some h => if (io.handles h).isClosing then io else io.uvClose h .null

def onTimerCb : IoM Unit := do
  let state ← perform .stateLoad
  if state ≠ .started then
    let io ← get
    safeCloseUvHandle io.tcpHandle
    safeCloseUvHandle io.uvAcceptTimer
    safeCloseUvHandle io.uvPrep
    safeCloseUvHandle io.uvCheck
    safeCloseUvHandle io.uvSignal

/-! ### Closing -/

def onCloseHandleCb (handle : Nat) : IoM Unit := modify fun io => io.releaseHandle handle

/-- The read buffer of a link, if it has one, goes back to the pool. -/
def releaseReadBuffer (i : Nat) : IoM Unit := do
  let some b := (← getLink i).readBuffer | return
  let _ ← perform (.poolReadPush b)
  modifyLink i fun link => { link with readBuffer := none }

def onCloseLinkCb (handle : Nat) : IoM Unit := do
  let some i := ((← get).handles handle).data | undefinedBehaviour
  modifyLink i fun link => { link with state := .closed }
  releaseReadBuffer i
  let some (e, evtClose) ← perform (.eventFreePop .clientClose) | onCloseHandleCb handle
  modify fun io => { io with hand := some e }
  let link ← getLink i
  let _ ← readyPush e { evtClose with clientId := link.id, errorCode := 0, cmdId := link.cmdCloseId } handle
  closeLink i
  onCloseHandleCb handle

/-! ### Sending and receiving -/

/-- `on_send_cb`; the status is only logged and counted. -/
def onSendCb (req : Nat) : IoM Unit := do
  let some _ := ((← get).sendReqs req).svlLink | undefinedBehaviour
  pushSendReq req

/-- The buffer and the room in it that libuv may read into, or none. -/
def onRecvAllocCb (handle : Nat) : IoM (Option (Nat × Nat)) := do
  let some i := ((← get).handles handle).data | undefinedBehaviour; return none
  if (← getLink i).readBuffer = none then
    let some b ← perform .poolReadPop | return none
    modifyLink i fun link => { link with readBuffer := some b }
  let some b := (← getLink i).readBuffer | return none
  let len ← perform (.bufferRemaining b)
  return some (b, len)

/-- The label `cleanup` of `on_recv_cb` -/
def onRecvCbCleanup (handle i : Nat) (ret : ErrorCode) (closeLink : Bool) : IoM Unit := do
  modifyLink i fun link => { link with errorCode := ret }
  if closeLink then
    if !((← get).handles handle).isClosing then
      modifyLink i fun link => { link with state := .closing }
      modify fun io => io.uvClose handle .link

def onRecvCb (handle : Nat) (nread : Int) : IoM Unit := do
  let some i := ((← get).handles handle).data | undefinedBehaviour
  if nread < 0 then return ← onRecvCbCleanup handle i (.uv nread) true
  if nread = 0 then return ← onRecvCbCleanup handle i .recvError false
  let some b := (← getLink i).readBuffer | undefinedBehaviour
  let added ← perform (.bufferAddLength b nread.toNat)
  if !added then return ← onRecvCbCleanup handle i .recvEbuf false
  let some (e, evt) ← perform (.eventFreePop .clientRead) | onRecvCbCleanup handle i .recvEvtPop false
  modify fun io => { io with hand := some e }
  let link ← getLink i
  let (rpos, len) ← perform (.bufferReadSpan b)
  let pushed ← readyPush e
    { evt with clientId := link.id, priv := some b, buffer := .readBuf b rpos, len := len } handle
  if !pushed then return ← onRecvCbCleanup handle i .recvEvtPush false
  modifyLink i fun link => { link with readBuffer := none }

/-- What a read from the socket gives: an error or the end of the stream (`-(err + 1)`), nothing, or bytes. -/
inductive ReadOut
  | error (err : Nat)
  | empty
  | data (bytes : List UInt8)

/-- libuv reads into a buffer with room for `len` bytes and calls the read callback. -/
def uvReadInto (handle b len : Nat) (out : ReadOut) : IoM Unit := do
  if len = 0 then return ← onRecvCb handle uvEnobufs
  match out with
  | .error err => onRecvCb handle (-(err + 1 : Nat))
  | .empty => onRecvCb handle 0
  | .data bytes =>
    let _ ← perform (.bufferStore b (bytes.take len))
    modify fun io => { io with
      received := Function.update io.received handle (io.received handle ++ bytes.take len) }
    onRecvCb handle (bytes.take len).length

/-- One read of libuv: the alloc callback, the read itself, the read callback. -/
def uvRead (handle : Nat) (out : ReadOut) : IoM Unit := do
  let some (b, len) ← onRecvAllocCb handle | onRecvCb handle uvEnobufs
  uvReadInto handle b len out

/-! ### Accepting and connecting -/

/-- The results of the calls that accept and connect make on a client handle that is connected. -/
structure ConnectedOut where
  getpeername : Int := 0
  peer : Endpoint := {}
  convertPeer : Int := 0
  getsockname : Int := 0
  sock : Endpoint := {}
  convertSock : Int := 0
  readStart : Int := 0

structure InboundOut extends ConnectedOut where
  acquire : Bool := true
  tcpInit : Int := 0
  accept : Int := 0

/-- The four address calls, the same in both callbacks: both addresses go to `endpoint_remote`. -/
def linkEndpoints (i : Nat) (out : ConnectedOut) : IoM Bool := do
  if out.getpeername ≠ 0 then return false
  if out.convertPeer ≠ 0 then return false
  modifyLink i fun link => { link with endpointRemote := out.peer }
  if out.getsockname ≠ 0 then return false
  if out.convertSock ≠ 0 then return false
  modifyLink i fun link => { link with endpointRemote := out.sock }
  return true

/-- The label `cleanup` of `on_inbound_connection_cb` once the client handle is there -/
def onInboundConnectionCbCleanup (clientHandle : Nat) (link : Option Nat) (handleIsInit : Bool) : IoM Unit := do
  match link with
  | some i =>
    modifyLink i fun link => { link with state := .closing }
    modify fun io => io.uvClose clientHandle .link
  | none => if handleIsInit then modify fun io => io.uvClose clientHandle .handle

def onInboundConnectionCb (status : Int) (out : InboundOut) : IoM Unit := do
  if status < 0 then return
  let some clientHandle ← acquireClientHandle out.acquire | return
  if out.tcpInit ≠ 0 then return ← onInboundConnectionCbCleanup clientHandle none false
  modify fun io => io.uvInit clientHandle
  if out.accept ≠ 0 then return ← onInboundConnectionCbCleanup clientHandle none true
  let some i ← openLink | onInboundConnectionCbCleanup clientHandle none true
  modify fun io => io.setHandle clientHandle fun h => { h with data := some i }
  modifyLink i fun link => { link with
    priv := some clientHandle, readState := .header, state := .opened, errorCode := .zero
    readBuffer := none, lastMsgId := 0 }
  if !(← linkEndpoints i out.toConnectedOut) then
    return ← onInboundConnectionCbCleanup clientHandle (some i) true
  let some (e, openEvt) ← perform (.eventFreePop .clientOpen)
    | onInboundConnectionCbCleanup clientHandle (some i) true
  modify fun io => { io with hand := some e }
  let link ← getLink i
  let pushed ← readyPush e
    { openEvt with type := .clientOpen, clientId := link.id, host := link.endpointRemote } clientHandle
  if !pushed then return ← onInboundConnectionCbCleanup clientHandle (some i) true
  if out.readStart ≠ 0 then return ← onInboundConnectionCbCleanup clientHandle (some i) true
  modify fun io => io.uvReadStart clientHandle

/-- The label `cleanup` of `on_outbound_connection_cb`, with the locals that are assigned by then -/
def onOutboundConnectionCbCleanup (connectReq : Nat) (locals : Option (Nat × Nat)) : IoM Unit := do
  modify fun io => io.releaseConnectReq connectReq
  let some (i, clientHandle) := locals | undefinedBehaviour
  modifyLink i fun link => { link with state := .closing }
  modify fun io => io.uvClose clientHandle .link

def onOutboundConnectionCb (connectReq : Nat) (status : Int) (out : ConnectedOut) : IoM Unit := do
  let req := (← get).connectReqs connectReq
  let some i := req.data | undefinedBehaviour
  if status < 0 then return ← onOutboundConnectionCbCleanup connectReq none
  let some clientHandle := (← getLink i).priv | undefinedBehaviour
  if some clientHandle ≠ req.handle then return ← undefinedBehaviour
  if !(← linkEndpoints i out) then
    return ← onOutboundConnectionCbCleanup connectReq (some (i, clientHandle))
  let some (e, openEvt) ← perform (.eventFreePop .clientOpen)
    | onOutboundConnectionCbCleanup connectReq (some (i, clientHandle))
  modify fun io => { io with hand := some e }
  let link ← getLink i
  let pushed ← readyPush e { openEvt with
    type := .clientOpen, clientId := link.id, host := link.endpointRemote, cmdId := link.cmdOpenId } clientHandle
  if !pushed then return ← onOutboundConnectionCbCleanup connectReq (some (i, clientHandle))
  modifyLink i fun link => { link with state := .opened }
  if out.readStart ≠ 0 then return ← onOutboundConnectionCbCleanup connectReq (some (i, clientHandle))
  modify fun io => (io.uvReadStart clientHandle).releaseConnectReq connectReq

/-! ### Commands -/

/-- The results of the calls made while one command is handled. -/
structure CmdOut where
  acquireHandle : Bool := true
  tcpInit : Int := 0
  acquireReq : Bool := true
  tcpConnect : Int := 0
  write : Int := 0

/-- The label `cleanup` of `handle_cmd_open` -/
def handleCmdOpenCleanup (clientHandle connectReq link : Option Nat) : IoM Unit := do
  if let some q := connectReq then modify fun io => io.releaseConnectReq q
  if let some i := link then closeLink i
  if let some h := clientHandle then modify fun io => io.uvClose h .handle

def handleCmdOpen (cmdOpen : Cmd) (out : CmdOut) : IoM Unit := do
  let some clientHandle ← acquireClientHandle out.acquireHandle | handleCmdOpenCleanup none none none
  if out.tcpInit ≠ 0 then return ← handleCmdOpenCleanup (some clientHandle) none none
  modify fun io => io.uvInit clientHandle
  let some connectReq ← acquireConnectReq out.acquireReq
    | handleCmdOpenCleanup (some clientHandle) none none
  let some i ← openLink | handleCmdOpenCleanup (some clientHandle) (some connectReq) none
  modifyLink i fun link => { link with
    priv := some clientHandle, readState := .header, state := .new, errorCode := .zero
    readBuffer := none, cmdOpenId := cmdOpen.id }
  modify fun io => (io.setConnectReq connectReq fun q => { q with data := some i }).setHandle clientHandle
    fun h => { h with data := some i, openCmd := some cmdOpen }
  if out.tcpConnect ≠ 0 then
    return ← handleCmdOpenCleanup (some clientHandle) (some connectReq) (some i)
  modify fun io => io.uvTcpConnect connectReq clientHandle

/-- The link of a client id, if it has a handle, is open and is not closing. -/
def usableLink (io : Io) (clientId : Nat) : Option (Nat × Nat) := do
  let i ← io.linkList.svlLinkListGet clientId
  let h ← (io.link i).priv
  if (io.link i).state ≠ .opened ∨ (io.handles h).isClosing then none else some (i, h)

/-- `handle_cmd_close`; the result is the handle that was closed. -/
def handleCmdClose (cmdClose : Cmd) : IoM (Option Nat) := do
  let some (i, h) := usableLink (← get) cmdClose.clientId | return none
  modifyLink i fun link => { link with cmdCloseId := cmdClose.id, state := .closing }
  modify fun io => (io.uvClose h .link).setHandle h fun x => { x with closeCmd := some cmdClose }
  return some h

/-- `handle_cmd_send`; the result is the handle that `uv_write` was called on. -/
def handleCmdSend (cmdSend : Cmd) (out : CmdOut) : IoM (Option Nat) := do
  let some (i, h) := usableLink (← get) cmdSend.clientId | return none
  let some (r, list) := (← get).sendReqList.popBack | return none
  modify fun io => { io with
    sendReqList := list
    sendReqs := Function.update io.sendReqs r
      { base := cmdSend.buffer, len := cmdSend.len % 2 ^ 32, svlLink := some i, cmdId := cmdSend.id
        cmdNo := io.handled.length } }
  if out.write ≠ 0 then
    pushSendReq r
  else
    modify fun io => { io with writes := r :: io.writes }
  return some h

/-- Whether the link that a command names is `SVL_LINK_OPEN`. -/
def linkIsOpen (io : Io) (clientId : Nat) : Bool :=
  match io.linkList.svlLinkListGet clientId with
  | none => false
  | some i => decide ((io.link i).state = .opened)

/-- The `switch` of `on_check_cb`; the result is the handle that a close or a send acted on. -/
def handleCmd (cmdBase : Cmd) (out : CmdOut) : IoM (Option Nat) :=
  match cmdBase.type with
  | .clientOpen => do handleCmdOpen cmdBase out; return none
  | .clientClose => handleCmdClose cmdBase
  | .clientSend => handleCmdSend cmdBase out

/-- One turn of the loop of `on_check_cb`; the loop goes on as long as a command was popped. -/
def onCheckCb (out : CmdOut) : IoM Unit := do
  let some cmdBase ← perform .cmdReadyPop | modify fun io => { io with inCheck := false }
  let linkOpen := linkIsOpen (← get) cmdBase.clientId
  let acted ← handleCmd cmdBase out
  modify fun io => { io with
    inCheck := true, cmd := some cmdBase, handled := io.handled ++ [⟨cmdBase, linkOpen, acted⟩] }
  let _ ← perform (.cmdFreePush cmdBase)
  modify fun io => { io with cmd := none }

end ServerLynx
