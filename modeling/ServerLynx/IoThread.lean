import ServerLynx.Callbacks

/-!
# The IO thread (`svl_service_io_thread`)

Start-up is a list of guarded lines, each of which may fail and then leads to the label `cleanup` with the value
that `ret` has by then.  Inside `uv_run` the thread is idle in this model: libuv gives it one callback after the
other, until no handle of the loop is alive.
-/

namespace ServerLynx

/-- One line `TN_GUARD_CLEANUP(...)` of the start-up: the value it assigns to `ret`, if it does, whether it fails,
and what it does to the private state when it fails and when it does not. -/
structure Guarded where
  ret : Option Int := none
  fails : Bool
  onFail : Io → Io := id
  onOk : Io → Io

namespace Guarded

/-- `TN_GUARD_NULL_CLEANUP(p = TN_MEM_ACQUIRE(...))`, where `set` assigns to `p` -/
def acquire (ok : Bool) (set : Option Nat → Io → Io) (alloc : Io → Nat × Io) : Guarded where
  fails := !ok
  onFail := set none
  onOk io := set (some (alloc io).1) (alloc io).2

/-- `TN_GUARD_CLEANUP(ret = f(...))` -/
def call (status : Int) (onOk : Io → Io) : Guarded where
  ret := some status
  fails := decide (status ≠ 0)
  onOk := onOk

/-- `TN_GUARD_CLEANUP(f(...))`, which leaves `ret` alone -/
def quiet (status : Int) (onOk : Io → Io) : Guarded where
  fails := decide (status ≠ 0)
  onOk := onOk

/-- The lines one after the other: whether all succeeded, `ret`, and the private state. -/
def runAll : List Guarded → Int → Io → Bool × Int × Io
  | [], ret, io => (true, ret, io)
  | g :: gs, ret, io =>
    if g.fails then (false, g.ret.getD ret, g.onFail io) else runAll gs (g.ret.getD ret) (g.onOk io)

/-- A property of the private state that every line keeps holds at the end. -/
theorem runAll_induct {P : Io → Prop} {gs : List Guarded} (h : ∀ g ∈ gs, ∀ io, P io → P (g.onFail io) ∧ P (g.onOk io))
    (ret : Int) {io : Io} (h₀ : P io) : P (runAll gs ret io).2.2 := by
  induction gs generalizing ret io with
  | nil => exact h₀
  | cons g gs ih =>
    have hg := h g (List.mem_cons_self ..) io h₀
    unfold runAll
    split
    · exact hg.1
    · exact ih (fun g' hg' => h g' (List.mem_cons_of_mem _ hg')) _ hg.2

/-- Where all lines succeed, each has had its effect. -/
theorem runAll_eq_true {gs : List Guarded} {ret ret' : Int} {io io' : Io} (h : runAll gs ret io = (true, ret', io')) :
    io' = gs.foldl (fun io g => g.onOk io) io := by
  induction gs generalizing ret io with
  | nil => exact (Prod.mk.inj (Prod.mk.inj h).2).2.symm
  | cons g gs ih =>
    unfold runAll at h
    split at h
    · exact absurd (Prod.mk.inj h).1 (by simp)
    · exact ih h

/-- The lines `gs'` come after the lines `gs` unless one of these fails. -/
theorem runAll_append (gs gs' : List Guarded) (ret : Int) (io : Io) :
    runAll (gs ++ gs') ret io =
      if (runAll gs ret io).1 then runAll gs' (runAll gs ret io).2.1 (runAll gs ret io).2.2 else runAll gs ret io := by
  induction gs generalizing ret io with
  | nil => simp [runAll]
  | cons g gs ih =>
    by_cases hg : g.fails = true
    · simp [runAll, hg]
    · simp only [List.cons_append, runAll, hg, Bool.false_eq_true, if_false]
      exact ih ..

/-- Lines that do not fail come to their end. -/
theorem runAll_ok {g : List Guarded} (h : ∀ x ∈ g, x.fails = false) (ret : Int) (io : Io) :
    (runAll g ret io).1 = true := by
  induction g generalizing ret io with
  | nil => rfl
  | cons g gs ih =>
    simp only [runAll, h g (List.mem_cons_self ..), Bool.false_eq_true, if_false]
    exact ih (fun g' hg' => h g' (List.mem_cons_of_mem _ hg')) _ _

end Guarded

/-- The outcomes of the calls made during start-up, in the order of the source. -/
structure StartOut where
  uvLoop : Bool := true
  tcpHandle : Bool := true
  uvAcceptTimer : Bool := true
  uvPrep : Bool := true
  uvCheck : Bool := true
  uvSignal : Bool := true
  sendReq : Bool := true
  listSetup : Int := 0
  pushBack : Int := 0
  loopInit : Int := 0
  timerInit : Int := 0
  timerStart : Int := 0
  prepareInit : Int := 0
  prepareStart : Int := 0
  checkInit : Int := 0
  checkStart : Int := 0
  signalInit : Int := 0
  signalStart : Int := 0
  tcpInit : Int := 0
  tcpNodelay : Int := 0
  tcpBind : Int := 0
  listen : Int := 0
  stringGet : Int := 0

def allocHandle (kind : HandleKind) (io : Io) : Nat × Io := (io.handleCount, io.acquireHandle kind)

def allocBlock (kind : BlockKind) (io : Io) : Nat × Io := (io.blockCount, io.acquireBlock kind)

/-- `f` on the handle that a pointer of `priv` points to -/
def onHandle (p : Io → Option Nat) (f : Io → Nat → Io) (io : Io) : Io :=
  match p io with
  | none => io
  | some h => f io h

/-- The loop over `send_req`: the requests below `n`, in order. -/
def fillSendReqs (list : ListPtr) : Nat → Option ListPtr
  | 0 => some list
  | n + 1 => do (← fillSendReqs list n).pushBack n

/-- The start-up up to the signal handle. -/
def startLines (out : StartOut) (bufferCount : Nat) : List Guarded :=
  let list := fillSendReqs (.setup bufferCount) bufferCount
  [ .acquire out.uvLoop (fun p io => { io with uvLoop := p }) (allocBlock .uvLoop),
    .acquire out.tcpHandle (fun p io => { io with tcpHandle := p }) (allocHandle .tcpListen),
    .acquire out.uvAcceptTimer (fun p io => { io with uvAcceptTimer := p }) (allocHandle .timer),
    .acquire out.uvPrep (fun p io => { io with uvPrep := p }) (allocHandle .prepare),
    .acquire out.uvCheck (fun p io => { io with uvCheck := p }) (allocHandle .check),
    .acquire out.uvSignal (fun p io => { io with uvSignal := p }) (allocHandle .signal),
    .acquire out.sendReq (fun p io => { io with sendReq := p }) (allocBlock .sendReq),
    .quiet out.listSetup fun io => { io with sendReqList := .setup bufferCount },
    .quiet (if list.isSome then out.pushBack else 1) fun io => { io with sendReqList := list.getD io.sendReqList },
    .call out.loopInit fun io => { io with loopIsInit := true },
    .call out.timerInit (onHandle (·.uvAcceptTimer) Io.uvInit),
    .call out.timerStart (onHandle (·.uvAcceptTimer) Io.uvStart),
    .call out.prepareInit (onHandle (·.uvPrep) Io.uvInit),
    .call out.prepareStart (onHandle (·.uvPrep) Io.uvStart),
    .call out.checkInit (onHandle (·.uvCheck) Io.uvInit),
    .call out.checkStart (onHandle (·.uvCheck) Io.uvStart),
    .call out.signalInit (onHandle (·.uvSignal) Io.uvInit),
    .call out.signalStart (onHandle (·.uvSignal) Io.uvStart) ]

/-- The start-up of the listener. -/
def listenLines (out : StartOut) : List Guarded :=
  [ .call out.tcpInit (onHandle (·.tcpHandle) Io.uvInit),
    .call out.tcpNodelay id,
    .call out.tcpBind id,
    .call out.listen (onHandle (·.tcpHandle) Io.uvStart),
    .quiet out.stringGet id ]

/-- `TN_MEM_RELEASE` of what a pointer of `priv` points to: nothing for NULL, and the pointer becomes NULL. -/
def releaseAll (io : Io) : Io :=
  let io := onHandle (·.uvCheck) Io.releaseHandle io
  let io := onHandle (·.uvPrep) Io.releaseHandle io
  let io := onHandle (·.uvAcceptTimer) Io.releaseHandle io
  let io := onHandle (·.tcpHandle) Io.releaseHandle io
  let io := onHandle (·.uvLoop) Io.releaseBlock io
  let io := onHandle (·.sendReq) Io.releaseBlock io
  { io with
    uvCheck := none, uvPrep := none, uvAcceptTimer := none, tcpHandle := none, uvLoop := none
    sendReq := none, sendReqList := .setup 0 }

/-- The label `cleanup` of `svl_service_io_thread` -/
def ioThreadCleanup (ret : Int) : IoM Unit := do
  if ret ≠ 0 then
    perform (.stateStore .error)
  modify releaseAll
  perform .threadEnd

/-- `uv_walk` with `on_walk_cb` -/
def uvWalk (io : Io) : Io :=
  { io with handles := fun h =>
      if h < io.handleCount ∧ io.InLoop h ∧ !(io.handles h).isClosing then (io.uvClose h .null).handles h
      else io.handles h }

/-- A call of `uv_loop_close`; the loop is no longer initialised once it has returned 0. -/
def closeLoop : IoM Int := do
  let ret := (← get).uvLoopClose
  if ret = 0 then
    modify fun io => { io with loopIsInit := false }
  return ret

/-- What follows `uv_run`. -/
def ioThreadClose : IoM Unit := do
  if (← closeLoop) ≠ 0 then
    modify uvWalk
    let ret ← closeLoop
    if ret ≠ 0 then return ← ioThreadCleanup ret
  ioThreadCleanup 0

/-- `svl_service_io_thread`, up to `uv_run` if it gets there -/
def svlServiceIoThread (out : StartOut) : IoM Unit := do
  modify fun io => { io with
    loop := io.loop + 1, loopIsInit := false, uvLoop := none, tcpHandle := none, uvAcceptTimer := none
    uvPrep := none, uvCheck := none }
  let (ok, ret, io) := Guarded.runAll (startLines out (← get).bufferCount) uvEnomem (← get)
  set io
  if !ok then return ← ioThreadCleanup ret
  let hostListen ← perform .hostListenLoad
  if hostListen.family = .inet ∨ hostListen.family = .inet6 then
    let (ok, ret, io) := Guarded.runAll (listenLines out) ret (← get)
    set io
    if !ok then return ← ioThreadCleanup ret
  else
    modify fun io => { io with tcpHandle := none }
  let state ← perform .stateLoad
  if state = .starting then
    perform (.stateStore .started)
    modify fun io => { io with phase := .running }
  else
    ioThreadClose

/-! ### What libuv and the main thread may give the IO thread to run -/

inductive IoRun
  | thread (out : StartOut)
  | inbound (status : Int) (out : InboundOut)
  | outbound (req : Nat) (status : Int) (out : ConnectedOut)
  | read (handle : Nat) (out : ReadOut)
  | close (handle : Nat)
  | send (req : Nat)
  | check (out : CmdOut)
  | timer
  | signal (isSigint : Bool)
  | uvRunReturn

/-- libuv's part of a close: the handle is closed, and its callback runs. -/
def uvFinishClose (handle : Nat) : IoM Unit := do
  modify fun io => io.setHandle handle fun h => { h with closed := true }
  match ((← get).handles handle).closing with
  | some .link => onCloseLinkCb handle
  | some .handle => onCloseHandleCb handle
  | _ => return

def IoRun.code : IoRun → IoM Unit
  | .thread out => svlServiceIoThread out
  | .inbound status out => onInboundConnectionCb status out
  | .outbound req status out => do
    modify fun io => onHandle (fun io => (io.connectReqs req).handle)
      (fun io h => io.setHandle h fun x => { x with connecting := false })
      (io.setConnectReq req fun q => { q with pending := false })
    onOutboundConnectionCb req status out
  | .read handle out => uvRead handle out
  | .close handle => uvFinishClose handle
  | .send req => do
    modify fun io => { io with writes := io.writes.erase req }
    onSendCb req
  | .check out => onCheckCb out
  | .timer => onTimerCb
  | .signal isSigint => do
    modify (onHandle (·.uvSignal) fun io h => io.setHandle h fun x => { x with started := false })
    onSigintCb isSigint
  | .uvRunReturn => do
    modify fun io => { io with phase := .off }
    ioThreadClose

/-- The handle that a pointer of `priv` points to is started and not closing. -/
def isStarted (io : Io) (p : Option Nat) : Bool :=
  match p with
  | none => false
  | some h => (io.handles h).started && !(io.handles h).isClosing

/-- When the IO thread may be given something to run: `svl_service_io_thread` once it is launched, a callback
inside `uv_run` while what it belongs to is active, and inside the loop of `on_check_cb` only its next turn. -/
def IoRun.ready (r : IoRun) (sh : Shared) (io : Io) : Bool :=
  match r with
  | .thread _ => decide (io.phase = .off) && decide (sh.thread = .running)
  | .check _ => decide (io.phase = .running) && (io.inCheck || isStarted io io.uvCheck)
  | r => decide (io.phase = .running) && !io.inCheck && match r with
    | .inbound _ _ => isStarted io io.tcpHandle
    | .outbound req _ _ => (io.connectReqs req).pending
    | .read handle _ => (io.handles handle).reading
    | .close handle => (io.handles handle).isClosing && !(io.handles handle).closed
    | .send req => decide (req ∈ io.writes)
    | .timer => isStarted io io.uvAcceptTimer
    | .signal _ => isStarted io io.uvSignal
    | .uvRunReturn => !io.uvLoopAlive
    | _ => false

end ServerLynx
