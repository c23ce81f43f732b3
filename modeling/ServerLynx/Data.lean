import Mathlib.Algebra.Group.Nat.Defs
import Mathlib.Logic.Function.Basic

/-!
# Records of the service

The enumerations and records that the service, its links and its two threads exchange.  A pointer into one of the
fixed arrays (links, events, read buffers, write requests) is the index of its target, a NULL pointer is `none`,
and an array is a function on indices, whose bounds are checked where the source checks them.
-/

namespace ServerLynx

/-! ### Codes -/

/-- `svl_service_state_t` -/
inductive ServiceState
  | new | starting | started | stopping | stopped | error | invalid
  deriving DecidableEq

/-- `svl_link_state_t` -/
inductive LinkState
  | new | opened | closing | closed | error | invalid
  deriving DecidableEq

/-- `svl_link_read_state_t` -/
inductive LinkReadState
  | none | header | payload | error | invalid
  deriving DecidableEq

inductive EventType
  | clientOpen | clientClose | clientRead
  deriving DecidableEq

inductive CmdType
  | clientOpen | clientClose | clientSend
  deriving DecidableEq

/-- What is stored in `link->error_code`: nothing yet, a libuv error, or one of the `TN_RECV_*` codes. -/
inductive ErrorCode
  | zero
  | uv (err : Int)
  | recvError | recvEbuf | recvEvtPop | recvEvtPush
  deriving DecidableEq

/-- `TN_CMD_INVALID`, the id of no command -/
def cmdInvalid : Nat := 2 ^ 64 - 1

/-- `SVL_SERVICE_MAX_RECV`, the capacity of a read buffer -/
def serviceMaxRecv : Nat := 65535

/-- `SIZE_MAX` and `UINT64_MAX` -/
def sizeMax : Nat := 2 ^ 64 - 1

/-- `INT_MAX` -/
def intMax : Nat := 2 ^ 31 - 1

def uvEnomem : Int := -12
def uvEbusy : Int := -16
def uvEnobufs : Int := -105

inductive AddrFamily
  | unspec | inet | inet6
  deriving DecidableEq

/-- `tn_endpoint_t`: a socket address, of which the service only looks at the family. -/
structure Endpoint where
  family : AddrFamily := .unspec
  addr : Nat := 0
  deriving DecidableEq

/-! ### Links, events, commands and requests -/

/-- `svl_link_t` -/
structure Link where
  priv : Option Nat := none
  id : Nat := 0
  readBuffer : Option Nat := none
  endpointLocal : Endpoint := {}
  endpointRemote : Endpoint := {}
  errorCode : ErrorCode := .zero
  state : LinkState := .new
  readState : LinkReadState := .none
  nextPayloadLen : Nat := 0
  lastMsgId : Nat := 0
  cmdOpenId : Nat := 0
  cmdCloseId : Nat := 0
  deriving DecidableEq

/-- The address of a message: memory of the application, or a place in a read buffer. -/
inductive MsgPtr
  | app (p : Nat)
  | readBuf (b off : Nat)
  deriving DecidableEq

/-- An event object, with the fields of all its types. -/
structure Event where
  type : EventType := .clientOpen
  clientId : Nat := 0
  cmdId : Nat := 0
  host : Endpoint := {}
  errorCode : Nat := 0
  priv : Option Nat := none
  buffer : MsgPtr := .app 0
  len : Nat := 0
  deriving DecidableEq

/-- A command object (`obj` is its place in the pool), with the fields of all its types. -/
structure Cmd where
  obj : Nat
  id : Nat := 0
  type : CmdType := .clientOpen
  endpoint : Endpoint := {}
  clientId : Nat := 0
  buffer : MsgPtr := .app 0
  len : Nat := 0
  priv : Option Nat := none
  deriving DecidableEq

/-- `svl_service_write_req_t` of the IO thread's array `send_req` -/
structure WriteReq where
  base : MsgPtr := .app 0
  len : Nat := 0
  svlLink : Option Nat := none
  cmdId : Nat := 0
  /-- history: the number of the command, among those that were handled -/
  cmdNo : Nat := 0
  deriving DecidableEq

/-! ### Read buffers -/

/-- `tn_buffer_t`: the bytes written so far, the read and the write position. -/
structure Buffer where
  mem : List UInt8 := []
  rpos : Nat := 0
  wpos : Nat := 0
  deriving DecidableEq

namespace Buffer

def remaining (b : Buffer) : Nat := serviceMaxRecv - b.wpos

def readLength (b : Buffer) : Nat := b.wpos - b.rpos

/-- Bytes stored at the write position, as `read(2)` does: positions do not change. -/
def store (b : Buffer) (bytes : List UInt8) : Buffer :=
  { b with mem := b.mem.take b.wpos ++ bytes ++ b.mem.drop (b.wpos + bytes.length) }

/-- `tn_buffer_add_length` -/
def addLength (b : Buffer) (n : Nat) : Option Buffer :=
  if b.wpos + n ≤ serviceMaxRecv then some { b with wpos := b.wpos + n } else none

/-- The `len` bytes from the place `off` on. -/
def slice (b : Buffer) (off len : Nat) : List UInt8 := (b.mem.drop off).take len

/-- A buffer as the pool hands it out: empty, the old bytes still in its memory. -/
def reset (b : Buffer) : Buffer := { b with rpos := 0, wpos := 0 }

end Buffer

/-! ### Bounded lists -/

/-- `tn_list_ptr_t`: a bounded list, its back first. -/
structure ListPtr where
  cap : Nat
  items : List Nat
  deriving DecidableEq

namespace ListPtr

def setup (cap : Nat) : ListPtr := ⟨cap, []⟩

def pushBack (l : ListPtr) (x : Nat) : Option ListPtr :=
  if l.items.length < l.cap then some { l with items := x :: l.items } else none

def popBack (l : ListPtr) : Option (Nat × ListPtr) :=
  match l.items with
  | [] => none
  | x :: xs => some (x, { l with items := xs })

def clear (l : ListPtr) : ListPtr := { l with items := [] }

theorem pushBack_eq_some {l l' : ListPtr} {x : Nat} :
    l.pushBack x = some l' ↔ l.items.length < l.cap ∧ l' = { l with items := x :: l.items } := by
  unfold pushBack
  split
  · rename_i h
    simp [h, eq_comm]
  · rename_i h
    simp [h]

theorem popBack_eq_some {l l' : ListPtr} {x : Nat} :
    l.popBack = some (x, l') ↔ l.items = x :: l'.items ∧ l'.cap = l.cap := by
  obtain ⟨cap, items⟩ := l
  obtain ⟨cap', items'⟩ := l'
  cases items with
  | nil => simp [popBack]
  | cons y ys =>
    simp only [popBack, Option.some.injEq, Prod.mk.injEq, ListPtr.mk.injEq, List.cons.injEq]
    exact ⟨fun h => ⟨⟨h.1, h.2.2⟩, h.2.1.symm⟩, fun h => ⟨h.1.1, h.2.symm, h.1.2⟩⟩

theorem popBack_eq_none {l : ListPtr} : l.popBack = none ↔ l.items = [] := by
  cases h : l.items <;> simp [popBack, h]

end ListPtr

end ServerLynx
