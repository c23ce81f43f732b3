import ServerLynx.Callbacks

/-!
# The service as the main thread uses it (`service.c`)

The calls of the main thread after `svl_service_setup`.  A call runs to its end before the next one starts; what it
returned stays visible until then.
-/

namespace ServerLynx

open Threads (Code)

/-- The calls, each with the outcomes that its source leaves open: the status of `tn_thread_launch` or
`tn_thread_join`, and the id of the command object that is popped. -/
inductive MainCall
  | listen (endpoint : Endpoint)
  | start (launch : Int)
  | stop (join : Int)
  | stopSignal
  | eventsAcquire
  | eventsRelease
  | cmdOpen (endpoint : Endpoint) (id : Nat)
  | cmdClose (clientId id : Nat)
  | cmdSend (clientId : Nat) (msg : MsgPtr) (msglen id : Nat)
  deriving DecidableEq

/-- The `svl_service_cmd_*` calls. -/
def MainCall.isCmd : MainCall → Bool
  | .cmdOpen _ _ | .cmdClose _ _ | .cmdSend _ _ _ _ => true
  | _ => false

/-- What a call returned: `TN_SUCCESS` or not, and `*cmd_id`. -/
structure Returned where
  call : MainCall
  success : Bool
  cmdId : Nat := 0
  deriving DecidableEq

/-- The private state of the main thread.  `cursor` is the index that `svl_service_events_release` has reached,
`hand` and `cmd` are the event and the command object it has taken from their lists, and `owed` tells that an
acquire has not been followed by a release yet.  `succeeded` is a history variable: the `svl_service_cmd_*` calls
that returned `TN_SUCCESS`. -/
structure Main where
  eventUpdates : List Nat := []
  eventUpdatesCount : Nat := 0
  cursor : Nat := 0
  hand : Option Nat := none
  cmd : Option Cmd := none
  owed : Bool := false
  call : Option MainCall := none
  returned : Option Returned := none
  succeeded : List Returned := []

abbrev MainM := Code Op Op.Res Main

/-! ### Start and stop -/

def svlServiceListen {L : Type} (endpoint : Endpoint) : Code Op Op.Res L Bool := do
  let state ← perform .stateLoad
  if state ≠ .new ∧ state ≠ .stopped ∧ state ≠ .error then return false
  perform (.hostListenStore endpoint)
  return true

def svlServiceStart {L : Type} (launch : Int) : Code Op Op.Res L Bool := do
  let state ← perform .stateLoad
  match state with
  | .starting | .started => return true
  | .new | .stopped =>
    perform (.stateStore .starting)
    let status ← perform (.threadLaunch launch)
    return decide (status = 0)
  | .stopping | .error | .invalid => return false

def svlServiceStop {L : Type} (join : Int) : Code Op Op.Res L Bool := do
  let state ← perform .stateLoad
  match state with
  | .new | .stopping | .stopped => return true
  | .starting | .started =>
    perform (.stateStore .stopping)
    let status ← perform (.threadJoin join)
    if status ≠ 0 then
      perform (.stateStore .error)
      return false
    perform (.stateStore .stopped)
    return true
  | .error | .invalid => return false

/-! ### Events -/

def svlServiceEventsAcquire : MainM Bool := do
  modify fun m => { m with eventUpdatesCount := 0, cursor := 0, owed := true }
  let some es ← perform .eventReadyPopAll | return false
  modify fun m => { m with
    eventUpdates := es ++ m.eventUpdates.drop es.length, eventUpdatesCount := es.length }
  return true

/-- The loop of `svl_service_events_release` over the acquired events. -/
def releaseLoop : List Nat → MainM Unit
  | [] => return
  | e :: es => do
    let evt ← perform (.eventLoad e)
    if evt.type = .clientRead then
      if let some b := evt.priv then
        let _ ← perform (.poolReadPush b)
    modify fun m => { m with cursor := m.cursor + 1, hand := some e }
    let _ ← perform (.eventFreePush e)
    modify fun m => { m with hand := none }
    releaseLoop es

def svlServiceEventsRelease : MainM Bool := do
  modify fun m => { m with cursor := 0 }
  let m ← get
  releaseLoop (m.eventUpdates.take m.eventUpdatesCount)
  modify fun m => { m with owed := false }
  return true

/-! ### Commands -/

/-- The three `svl_service_cmd_*` calls after their checks: pop an object, fill it in, queue it.  The result is
whether the call succeeds, and `*cmd_id`. -/
def queueCmd (type : CmdType) (id : Nat) (fields : Cmd → Cmd) : MainM (Bool × Nat) := do
  let some c ← perform (.cmdFreePop type id) | return (false, cmdInvalid)
  let c := fields c
  modify fun m => { m with cmd := some c }
  let pushed ← perform (.cmdReadyPush c)
  if !pushed then return (false, c.id)
  modify fun m => { m with cmd := none }
  return (true, c.id)

def svlServiceCmdOpen (endpoint : Endpoint) (id : Nat) : MainM (Bool × Nat) := do
  let state ← perform .stateLoad
  if state ≠ .started then return (false, cmdInvalid)
  queueCmd .clientOpen id fun c => { c with endpoint := endpoint }

def svlServiceCmdClose (clientId id : Nat) : MainM (Bool × Nat) := do
  let state ← perform .stateLoad
  if state ≠ .started then return (false, cmdInvalid)
  queueCmd .clientClose id fun c => { c with clientId := clientId }

def svlServiceCmdSend (clientId : Nat) (msg : MsgPtr) (msglen id : Nat) : MainM (Bool × Nat) := do
  let state ← perform .stateLoad
  if state ≠ .started then return (false, cmdInvalid)
  let some sendReq ← perform .writeReqsFreePeek | return (false, cmdInvalid)
  queueCmd .clientSend id fun c =>
    { c with clientId := clientId, buffer := msg, len := msglen, priv := some sendReq }

/-! ### The main thread -/

def MainCall.run : MainCall → MainM (Bool × Nat)
  | .listen endpoint => do return (← svlServiceListen endpoint, 0)
  | .start launch => do return (← svlServiceStart launch, 0)
  | .stop join => do return (← svlServiceStop join, 0)
  | .stopSignal => do return (← svlServiceStopSignal, 0)
  | .eventsAcquire => do return (← svlServiceEventsAcquire, 0)
  | .eventsRelease => do return (← svlServiceEventsRelease, 0)
  | .cmdOpen endpoint id => svlServiceCmdOpen endpoint id
  | .cmdClose clientId id => svlServiceCmdClose clientId id
  | .cmdSend clientId msg msglen id => svlServiceCmdSend clientId msg msglen id

def MainCall.code (call : MainCall) : MainM Unit := do
  modify fun m => { m with call := some call, returned := none }
  let (success, cmdId) ← call.run
  modify fun m => { m with
    call := none, returned := some ⟨call, success, cmdId⟩
    succeeded := if success && call.isCmd then m.succeeded ++ [⟨call, success, cmdId⟩] else m.succeeded }

end ServerLynx
