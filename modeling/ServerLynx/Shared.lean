import ServerLynx.Data
import ServerLynx.Threads.Code

/-!
# What the two threads share

The state word, the command lists, the event lists, the pool of read buffers and the memory these lists hold
pointers to.  Each access of the main thread or of the IO thread to one of them is one atomic operation; the lists
are bounded FIFO queues, whose push fails when they are full and whose pop fails when they are empty.

The fields after `buffers` are history variables: operations write them and nothing reads them.
-/

namespace ServerLynx

open Threads (Code)

/-- The IO thread as the main thread knows it. -/
inductive ThreadStatus
  | none | running | ended | joined
  deriving DecidableEq

/-- The lists that may refuse a push. -/
inductive ListName
  | cmdFree | cmdReady | eventFree | eventReady | poolRead
  deriving DecidableEq

/-- A command that a `svl_service_cmd_*` call queued, with the number of events the main thread had acquired and the
bytes that the message of the command had. -/
structure Accepted where
  cmd : Cmd
  acquired : Nat
  message : List UInt8
  deriving DecidableEq

/-- An event as it was pushed to the ready list, with the bytes it pointed to. -/
structure Readied where
  evt : Event
  bytes : List UInt8
  deriving DecidableEq

structure Shared where
  bufferCount : Nat
  state : ServiceState
  hostListen : Endpoint
  thread : ThreadStatus
  cmdFree : List Cmd
  cmdReady : List Cmd
  writeReqsFree : List Nat
  events : Nat → Event
  eventFree : List Nat
  eventReady : List Nat
  poolRead : List Nat
  buffers : Nat → Buffer
  acquired : Nat
  accepted : List Accepted
  readied : List Readied
  refused : List ListName
  stopAsked : Bool
  overlap : Bool

/-- The shared state after `svl_service_setup` for `n` clients. -/
def Shared.setup (n : Nat) : Shared :=
  let count := n * 4 % 2 ^ 64
  { bufferCount := count
    state := .new
    hostListen := {}
    thread := .none
    cmdFree := (List.range count).map fun i => { obj := i }
    cmdReady := []
    writeReqsFree := List.range count
    events := fun _ => {}
    eventFree := List.range count
    eventReady := []
    poolRead := List.range count
    buffers := fun _ => {}
    acquired := 0
    accepted := []
    readied := []
    refused := []
    stopAsked := false
    overlap := false }

/-- The bytes of a message in a read buffer; the memory of the application is not modelled. -/
def Shared.message (sh : Shared) : MsgPtr → Nat → List UInt8
  | .app _, _ => []
  | .readBuf b off, len => (sh.buffers b).slice off len

/-! ### Operations -/

/-- The atomic operations.  Where the outcome is not determined by the shared state it is an argument: the status of
`tn_thread_launch` and `tn_thread_join`, and the id that a popped command object gets. -/
inductive Op
  | stateLoad
  | stateStore (state : ServiceState)
  | hostListenLoad
  | hostListenStore (endpoint : Endpoint)
  | threadLaunch (status : Int)
  | threadJoin (status : Int)
  | threadEnd
  | cmdFreePop (type : CmdType) (id : Nat)
  | cmdReadyPush (cmd : Cmd)
  | cmdReadyPop
  | cmdFreePush (cmd : Cmd)
  | writeReqsFreePeek
  | eventFreePop (type : EventType)
  | eventReadyPush (e : Nat) (evt : Event)
  | eventReadyPopAll
  | eventFreePush (e : Nat)
  | eventLoad (e : Nat)
  | poolReadPop
  | poolReadPush (b : Nat)
  | bufferRemaining (b : Nat)
  | bufferStore (b : Nat) (bytes : List UInt8)
  | bufferAddLength (b n : Nat)
  | bufferReadSpan (b : Nat)
  deriving DecidableEq

/-- What an operation returns.  A pop that fails returns `none`, a push that fails `false`. -/
abbrev Op.Res : Op → Type
  | .stateLoad => ServiceState
  | .hostListenLoad => Endpoint
  | .threadLaunch _ | .threadJoin _ => Int
  | .cmdFreePop _ _ | .cmdReadyPop => Option Cmd
  | .cmdReadyPush _ | .cmdFreePush _ => Bool
  | .writeReqsFreePeek | .poolReadPop => Option Nat
  | .eventFreePop _ => Option (Nat × Event)
  | .eventReadyPush _ _ | .eventFreePush _ | .poolReadPush _ | .bufferAddLength _ _ => Bool
  | .eventReadyPopAll => Option (List Nat)
  | .eventLoad _ => Event
  | .bufferRemaining _ => Nat
  | .bufferReadSpan _ => Nat × Nat
  | .stateStore _ | .hostListenStore _ | .threadEnd | .bufferStore _ _ => Unit

/-- Code that performs one operation, for a thread with any private state. -/
abbrev perform {L : Type} (o : Op) : Code Op Op.Res L o.Res := Code.op o

/-- One operation on the shared state; `none` where it blocks. -/
def Op.exec : (o : Op) → Shared → Option (o.Res × Shared)
  | .stateLoad, s => some (s.state, s)
  | .stateStore st, s => some ((), { s with
      state := st
      stopAsked := match st with
        | .stopping => true
        | .starting => false
        | _ => s.stopAsked })
  | .hostListenLoad, s => some (s.hostListen, s)
  | .hostListenStore ep, s => some ((), { s with hostListen := ep })
  | .threadLaunch status, s =>
    if status = 0 then
      some (0, { s with
        thread := .running
        overlap := s.overlap || decide (s.thread = .running) || decide (s.thread = .ended) })
    else some (status, s)
  | .threadJoin status, s =>
    if status = 0 then
      match s.thread with
      | .running => none
      | .ended => some (0, { s with thread := .joined })
      | .none | .joined => some (0, s)
    else some (status, s)
  | .threadEnd, s => some ((), { s with thread := .ended })
  | .cmdFreePop type id, s => match s.cmdFree with
    | [] => some (none, s)
    | c :: cs => some (some { c with type := type, id := id }, { s with cmdFree := cs })
  | .cmdReadyPush c, s =>
    if s.cmdReady.length < s.bufferCount then
      some (true, { s with
        cmdReady := s.cmdReady ++ [c]
        accepted := s.accepted ++ [⟨c, s.acquired, s.message c.buffer c.len⟩] })
    else some (false, { s with refused := .cmdReady :: s.refused })
  | .cmdReadyPop, s => match s.cmdReady with
    | [] => some (none, s)
    | c :: cs => some (some c, { s with cmdReady := cs })
  | .cmdFreePush c, s =>
    if s.cmdFree.length < s.bufferCount then some (true, { s with cmdFree := s.cmdFree ++ [c] })
    else some (false, { s with refused := .cmdFree :: s.refused })
  | .writeReqsFreePeek, s => some (s.writeReqsFree.head?, s)
  | .eventFreePop type, s => match s.eventFree with
    | [] => some (none, s)
    | e :: es =>
      let evt := { s.events e with type := type }
      some (some (e, evt), { s with eventFree := es, events := Function.update s.events e evt })
  | .eventReadyPush e evt, s =>
    if s.eventReady.length < s.bufferCount then
      some (true, { s with
        events := Function.update s.events e evt
        eventReady := s.eventReady ++ [e]
        readied := s.readied ++ [⟨evt, s.message evt.buffer evt.len⟩] })
    else some (false, { s with
      events := Function.update s.events e evt
      refused := .eventReady :: s.refused })
  | .eventReadyPopAll, s => match s.eventReady with
    | [] => some (none, s)
    | es => some (some (es.take s.bufferCount), { s with
        eventReady := es.drop s.bufferCount
        acquired := s.acquired + (es.take s.bufferCount).length })
  | .eventFreePush e, s =>
    if s.eventFree.length < s.bufferCount then some (true, { s with eventFree := s.eventFree ++ [e] })
    else some (false, { s with refused := .eventFree :: s.refused })
  | .eventLoad e, s => some (s.events e, s)
  | .poolReadPop, s => match s.poolRead with
    | [] => some (none, s)
    | b :: bs => some (some b, { s with
        poolRead := bs
        buffers := Function.update s.buffers b (s.buffers b).reset })
  | .poolReadPush b, s =>
    if s.poolRead.length < s.bufferCount then some (true, { s with poolRead := s.poolRead ++ [b] })
    else some (false, { s with refused := .poolRead :: s.refused })
  | .bufferRemaining b, s => some ((s.buffers b).remaining, s)
  | .bufferStore b bytes, s =>
    some ((), { s with buffers := Function.update s.buffers b ((s.buffers b).store bytes) })
  | .bufferAddLength b n, s => match (s.buffers b).addLength n with
    | none => some (false, s)
    | some buf => some (true, { s with buffers := Function.update s.buffers b buf })
  | .bufferReadSpan b, s => some (((s.buffers b).rpos, (s.buffers b).readLength), s)

end ServerLynx
