import ServerLynx.LinkList
import ServerLynx.Shared
import ServerLynx.Threads.Code

/-!
# The private state of the IO thread

The link list, the libuv handles with their loop, the pending requests and the pointers of `svl_service_priv_t`.
Only the IO thread touches them.  libuv itself is described by what its calls do to a handle; whether a call
succeeds is up to the environment and comes in as an argument of the callbacks.
-/

namespace ServerLynx

open Threads (Code)

inductive HandleKind
  | tcpClient | tcpListen | timer | prepare | check | signal
  deriving DecidableEq

/-- The close callbacks that are passed to `uv_close`: NULL, `on_close_handle_cb`, `on_close_link_cb`. -/
inductive CloseCb
  | null | handle | link
  deriving DecidableEq

/-- A libuv handle, in the memory block that was acquired for it.  `data` is the link of a client handle; `closes`
counts the calls of `uv_close` and `released` those of `TN_MEM_RELEASE`.  `openCmd` and `closeCmd` are history
variables: the command that a client handle was made for, and the command that closed it. -/
structure Handle where
  kind : HandleKind := .tcpClient
  loop : Nat := 0
  data : Option Nat := none
  isInit : Bool := false
  started : Bool := false
  connecting : Bool := false
  reading : Bool := false
  closing : Option CloseCb := none
  closed : Bool := false
  closes : Nat := 0
  released : Nat := 0
  openCmd : Option Cmd := none
  closeCmd : Option Cmd := none
  deriving DecidableEq

namespace Handle

def isClosing (h : Handle) : Bool := h.closing.isSome

def isActive (h : Handle) : Bool := h.started || h.connecting || h.reading

end Handle

/-- A `uv_connect_t`, in the block that `handle_cmd_open` acquired for it. -/
structure ConnectReq where
  data : Option Nat := none
  handle : Option Nat := none
  pending : Bool := false
  released : Nat := 0
  deriving DecidableEq

/-- A block that is neither a handle nor a request: the loop and the array `send_req`. -/
inductive BlockKind
  | uvLoop | sendReq
  deriving DecidableEq

structure Block where
  kind : BlockKind := .uvLoop
  released : Nat := 0
  deriving DecidableEq

/-- `off` before `svl_service_io_thread` and after it, `running` inside `uv_run`; `undefined` once the thread has
used a value it never assigned or has failed an assertion: from there on nothing is known of it. -/
inductive IoPhase
  | off | running | undefined
  deriving DecidableEq

/-- A command that `on_check_cb` handled: whether its link was open then, and the handle it wrote to or closed. -/
structure Handled where
  cmd : Cmd
  linkOpen : Bool
  acted : Option Nat
  deriving DecidableEq

/-- A call of `svl_link_list_open` that succeeded, or a call of `svl_link_list_close`. -/
inductive LinkOp
  | opened (i : Nat)
  | closed (i : Nat)
  deriving DecidableEq

/-- An event as it was pushed to the ready list, with the TCP handle of its connection. -/
structure Pushed where
  evt : Event
  conn : Nat
  deriving DecidableEq

structure Io where
  bufferCount : Nat
  phase : IoPhase := .off
  linkList : LinkList
  handles : Nat → Handle := fun _ => {}
  handleCount : Nat := 0
  connectReqs : Nat → ConnectReq := fun _ => {}
  connectReqCount : Nat := 0
  blocks : Nat → Block := fun _ => {}
  blockCount : Nat := 0
  /-- the loop of this run of the thread, and whether `uv_loop_init` succeeded on it and `uv_loop_close` has not -/
  loop : Nat := 0
  loopIsInit : Bool := false
  /-- `svl_service_priv_t` -/
  uvLoop : Option Nat := none
  tcpHandle : Option Nat := none
  uvAcceptTimer : Option Nat := none
  uvPrep : Option Nat := none
  uvCheck : Option Nat := none
  uvSignal : Option Nat := none
  sendReq : Option Nat := none
  sendReqList : ListPtr := ⟨0, []⟩
  sendReqs : Nat → WriteReq := fun _ => {}
  /-- the write requests that libuv holds -/
  writes : List Nat := []
  /-- inside the loop of `on_check_cb` -/
  inCheck : Bool := false
  /-- the event and the command object that the running callback has taken from their lists -/
  hand : Option Nat := none
  cmd : Option Cmd := none
  /-- history: the events pushed to the ready list, the bytes received on each TCP handle, the commands handled so far,
  the calls on the link list, and how many pushes `client_list_free` and `send_req_list` refused -/
  pushed : List Pushed := []
  received : Nat → List UInt8 := fun _ => []
  handled : List Handled := []
  linkLog : List LinkOp := []
  refused : Nat := 0

/-- The private state after `svl_service_setup` for `n` clients. -/
def Io.setup (n : Nat) : Io where
  bufferCount := n * 4 % 2 ^ 64
  linkList := {
    clientMap := fun i => if i < n then { id := i } else {}
    clientsMax := n
    clientListFree := ⟨n, (List.range n).reverse⟩ }

abbrev IoM := Code Op Op.Res Io

namespace Io

def link (io : Io) (i : Nat) : Link := io.linkList.clientMap i

def setLink (io : Io) (i : Nat) (f : Link → Link) : Io :=
  { io with linkList := { io.linkList with
      clientMap := Function.update io.linkList.clientMap i (f (io.linkList.clientMap i)) } }

def setHandle (io : Io) (h : Nat) (f : Handle → Handle) : Io :=
  { io with handles := Function.update io.handles h (f (io.handles h)) }

def setConnectReq (io : Io) (q : Nat) (f : ConnectReq → ConnectReq) : Io :=
  { io with connectReqs := Function.update io.connectReqs q (f (io.connectReqs q)) }

/-- `TN_MEM_ACQUIRE` of a block for a handle: a block never used before. -/
def acquireHandle (io : Io) (kind : HandleKind) : Io :=
  { io with
    handles := Function.update io.handles io.handleCount { kind := kind, loop := io.loop }
    handleCount := io.handleCount + 1 }

def acquireConnectReq (io : Io) : Io :=
  { io with
    connectReqs := Function.update io.connectReqs io.connectReqCount {}
    connectReqCount := io.connectReqCount + 1 }

def acquireBlock (io : Io) (kind : BlockKind) : Io :=
  { io with
    blocks := Function.update io.blocks io.blockCount { kind := kind }
    blockCount := io.blockCount + 1 }

/-- `TN_MEM_RELEASE` of a handle's block -/
def releaseHandle (io : Io) (h : Nat) : Io := io.setHandle h fun x => { x with released := x.released + 1 }

def releaseConnectReq (io : Io) (q : Nat) : Io :=
  io.setConnectReq q fun x => { x with released := x.released + 1 }

def releaseBlock (io : Io) (b : Nat) : Io :=
  { io with
    blocks := Function.update io.blocks b { io.blocks b with released := (io.blocks b).released + 1 } }

theorem setLink_setLink (io : Io) (i : Nat) (f g : Link → Link) :
    (io.setLink i f).setLink i g = io.setLink i fun link => g (f link) := by
  simp [setLink]

@[simp] theorem setLink_link_self (io : Io) (i : Nat) (f : Link → Link) : (io.setLink i f).link i = f (io.link i) := by
  simp [setLink, link]

@[simp] theorem setHandle_handles_self (io : Io) (h : Nat) (f : Handle → Handle) :
    (io.setHandle h f).handles h = f (io.handles h) := by
  simp [setHandle]

/-! ### libuv -/

/-- `uv_timer_init`, `uv_tcp_init` and the like, when they succeed -/
def uvInit (io : Io) (h : Nat) : Io := io.setHandle h fun x => { x with isInit := true }

/-- `uv_timer_start`, `uv_listen` and the like, when they succeed -/
def uvStart (io : Io) (h : Nat) : Io := io.setHandle h fun x => { x with started := true }

/-- `uv_read_start`, when it succeeds -/
def uvReadStart (io : Io) (h : Nat) : Io := io.setHandle h fun x => { x with reading := true }

/-- `uv_tcp_connect`, when it succeeds -/
def uvTcpConnect (io : Io) (q h : Nat) : Io :=
  (io.setConnectReq q fun x => { x with handle := some h, pending := true }).setHandle h
    fun x => { x with connecting := true }

/-- `uv_close`: the handle stops, its callback is due. -/
def uvClose (io : Io) (h : Nat) (cb : CloseCb) : Io :=
  io.setHandle h fun x =>
    { x with started := false, reading := false, closing := some cb, closes := x.closes + 1 }

/-- The handle `h` is in the loop of this run. -/
def InLoop (io : Io) (h : Nat) : Bool :=
  (io.handles h).isInit && !(io.handles h).closed && decide ((io.handles h).loop = io.loop)

/-- `uv_loop_close` -/
def uvLoopClose (io : Io) : Int :=
  if (List.range io.handleCount).any io.InLoop then uvEbusy else 0

/-- Whether `uv_run` goes on: some handle is active or closing, or some request is pending. -/
def uvLoopAlive (io : Io) : Bool :=
  ((List.range io.handleCount).any fun h =>
    io.InLoop h && ((io.handles h).isActive || (io.handles h).isClosing)) ||
  !io.writes.isEmpty || (List.range io.connectReqCount).any fun q => (io.connectReqs q).pending

end Io

end ServerLynx
