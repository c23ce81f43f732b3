import ServerLynx.Protocol

/-!
# The end of an outbound connect

A connect that `handle_cmd_open` submitted is completed by `on_outbound_connection_cb`, with whatever status.  Once
the status is not negative, every failure leads to the same clean-up of the link and the handle that the request
stores.  A negative status leads there too, but before the locals are assigned that the clean-up uses.
-/

namespace ServerLynx

open Threads

variable {n : Nat} {c c' : ServiceConfig}

/-- All calls on the connected handle succeed. -/
def ConnectedOut.Ok (out : ConnectedOut) : Prop :=
  out.getpeername = 0 ∧ out.convertPeer = 0 ∧ out.getsockname = 0 ∧ out.convertSock = 0 ∧ out.readStart = 0

/-- From `io` to `io'` the connect request `q`, for the link `i` and the handle `h`, was completed: it is released
once, nothing but that link and that handle changed, and either nothing failed, the `OPEN` was pushed and the
connection is read from, or the link is closing and `uv_close` was called once on the handle. -/
structure ConnectHandled (q i h : Nat) (out : ConnectedOut) (io io' : Io) : Prop where
  data : (io.connectReqs q).data = some i
  handle : (io.connectReqs q).handle = some h
  defined : io'.phase ≠ .undefined
  released : (io'.connectReqs q).released = 1
  requests : ∀ q', q' ≠ q → io'.connectReqs q' = io.connectReqs q'
  links : ∀ j, j ≠ i → io'.link j = io.link j
  handles : ∀ h', h' ≠ h → io'.handles h' = io.handles h'
  outcome :
    (out.Ok ∧ (∃ evt, evt.type = .clientOpen ∧ evt.clientId = i ∧ io'.pushed = io.pushed ++ [⟨evt, h⟩]) ∧
      (io'.link i).state = .opened ∧ (io'.handles h).reading = true ∧ (io'.handles h).closes = 0) ∨
    ((io'.link i).state = .closing ∧ (io'.handles h).closing = some .link ∧ (io'.handles h).closes = 1)

/-! ### The callback -/

section Callback

variable {can : Io → (o : Op) → o.Res → Prop} {q i h : Nat} {io l : Io}

/-- While the callback runs, the request is not released, the handle is not closed, and nothing else has changed. -/
private structure Completing (q i h : Nat) (io l : Io) : Prop where
  data : (io.connectReqs q).data = some i
  handle : (io.connectReqs q).handle = some h
  running : l.phase = .running
  released : (l.connectReqs q).released = 0
  closes : (l.handles h).closes = 0
  requests : ∀ q', q' ≠ q → l.connectReqs q' = io.connectReqs q'
  links : ∀ j, j ≠ i → l.link j = io.link j
  handles : ∀ h', h' ≠ h → l.handles h' = io.handles h'

private theorem Completing.setLink (hm : Completing q i h io l) (f : Link → Link) :
    Completing q i h io (l.setLink i f) := by
  refine { hm with links := fun j hne => ?_ }
  have : (l.setLink i f).link j = l.link j := by simp [Io.setLink, Io.link, Function.update_of_ne hne]
  rw [this, hm.links j hne]

private theorem Completing.setEvents (hm : Completing q i h io l) (hand : Option Nat) (pushed : List Pushed) :
    Completing q i h io { l with hand := hand, pushed := pushed } :=
  { hm with data := hm.data }

private theorem Completing.cleanup (hm : Completing q i h io l) (out : ConnectedOut) :
    (onOutboundConnectionCbCleanup q (some (i, h))).path can (fun _ _ => True)
      (fun l _ => ConnectHandled q i h out io l) l := by
  simp only [onOutboundConnectionCbCleanup, modifyLink, Code.path_bind, Code.path_modify]
  refine ⟨hm.data, hm.handle, ?_, ?_, ?_, ?_, ?_, .inr ⟨?_, ?_, ?_⟩⟩
  · simp [Io.uvClose, Io.setHandle, Io.setLink, Io.releaseConnectReq, Io.setConnectReq, hm.running]
  · simp [Io.uvClose, Io.setHandle, Io.setLink, Io.releaseConnectReq, Io.setConnectReq, hm.released]
  · intro q' hne
    simpa [Io.uvClose, Io.setHandle, Io.setLink, Io.releaseConnectReq, Io.setConnectReq, hne] using hm.requests q' hne
  · intro j hne
    simpa [Io.uvClose, Io.setHandle, Io.setLink, Io.releaseConnectReq, Io.setConnectReq, Io.link, hne]
      using hm.links j hne
  · intro h' hne
    simpa [Io.uvClose, Io.setHandle, Io.setLink, Io.releaseConnectReq, Io.setConnectReq, hne] using hm.handles h' hne
  · simp [Io.uvClose, Io.setHandle, Io.setLink, Io.link]
  · simp [Io.uvClose]
  · simp [Io.uvClose, Io.setLink, Io.releaseConnectReq, Io.setConnectReq, hm.closes]

private theorem Completing.finish (hm : Completing q i h io l) {out : ConnectedOut} (hout : out.Ok) (evt : Event)
    (ht : evt.type = .clientOpen) (hc : evt.clientId = i) (hp : l.pushed = io.pushed ++ [⟨evt, h⟩]) (f : Link → Link)
    (hf : (f (l.link i)).state = .opened) :
    ConnectHandled q i h out io (((l.setLink i f).uvReadStart h).releaseConnectReq q) := by
  refine ⟨hm.data, hm.handle, ?_, ?_, ?_, ?_, ?_, .inl ⟨hout, ⟨evt, ht, hc, hp⟩, ?_, ?_, ?_⟩⟩
  · simp [Io.uvReadStart, Io.setHandle, Io.setLink, Io.releaseConnectReq, Io.setConnectReq, hm.running]
  · simp [Io.uvReadStart, Io.setHandle, Io.setLink, Io.releaseConnectReq, Io.setConnectReq, hm.released]
  · intro q' hne
    simpa [Io.uvReadStart, Io.setHandle, Io.setLink, Io.releaseConnectReq, Io.setConnectReq, hne]
      using hm.requests q' hne
  · intro j hne
    simpa [Io.uvReadStart, Io.setHandle, Io.setLink, Io.releaseConnectReq, Io.setConnectReq, Io.link, hne]
      using hm.links j hne
  · intro h' hne
    simpa [Io.uvReadStart, Io.setHandle, Io.setLink, Io.releaseConnectReq, Io.setConnectReq, hne]
      using hm.handles h' hne
  · simpa [Io.uvReadStart, Io.setHandle, Io.setLink, Io.releaseConnectReq, Io.setConnectReq, Io.link] using hf
  · simp [Io.uvReadStart, Io.releaseConnectReq, Io.setConnectReq]
  · simp [Io.uvReadStart, Io.setLink, Io.releaseConnectReq, Io.setConnectReq, hm.closes]

private theorem onOutboundConnectionCb_handled (hm : Completing q i h io l) (hd : (l.connectReqs q).data = some i)
    (hh : (l.connectReqs q).handle = some h) (hp : (l.link i).priv = some h) (hid : (l.link i).id = i)
    (hpush : l.pushed = io.pushed) {status : Int} (hs : 0 ≤ status) (out : ConnectedOut) :
    (onOutboundConnectionCb q status out).path can (fun _ _ => True)
      (fun l _ => ConnectHandled q i h out io l) l := by
  simp only [onOutboundConnectionCb, getLink, Code.path_bind, Code.path_get, Code.path_pure, hd, hh, hp, Code.path_ite]
  refine ⟨fun hneg => absurd hs (by omega), fun _ => ⟨fun hne => absurd rfl hne, fun _ => ?_⟩⟩
  refine linkEndpoints_path _ fun f ok hok => ?_
  have hm₁ := hm.setLink fun link => { link with endpointRemote := f link }
  refine ⟨fun _ => hm₁.cleanup out, fun hok' => ?_⟩
  simp only [Code.path_op]
  refine ⟨trivial, ?_⟩
  rintro (_ | ⟨e, evt⟩) -
  · exact hm₁.cleanup out
  simp only [readyPush, modifyLink, Code.path_bind, Code.path_modify, Code.path_get, Code.path_pure, Code.path_op,
    Code.path_ite]
  let link₁ := (l.setLink i fun link => { link with endpointRemote := f link }).link i
  have hid₁ : link₁.id = i := by simpa [link₁] using hid
  refine ⟨trivial, fun pushed _ => ⟨fun hpushed => ?_, fun hpushed => ?_⟩⟩
  · exact (hm₁.setEvents none _).cleanup out
  · obtain rfl : pushed = true := by simpa using hpushed
    refine ⟨fun _ => ((hm₁.setEvents none _).setLink _).cleanup out, fun hread => ?_⟩
    obtain ⟨h₁, h₂, h₃, h₄⟩ := hok (by simpa using hok')
    exact (hm₁.setEvents none _).finish ⟨h₁, h₂, h₃, h₄, not_not.1 hread⟩ { evt with
      type := .clientOpen, clientId := link₁.id, host := link₁.endpointRemote, cmdId := link₁.cmdOpenId }
      rfl hid₁ (congrArg (fun s => s ++ [_]) hpush) (fun link => { link with state := .opened }) rfl

end Callback

/-! ### Over whole runs -/

/-- From `io` to `io'` the connect request `q` was completed as it should, for the link and the handle it stores. -/
def ConnectCleanedUp (q : Nat) (out : ConnectedOut) (io io' : Io) : Prop := ∃ i h, ConnectHandled q i h out io io'

theorem connect_cleaned_up_iff (hc : Reach n c) {q : Nat} {status : Int} {out : ConnectedOut}
    {as : List (Act IoRun MainCall)} (hr : service.run c (.run₁ (.outbound q status out) :: as) = some c')
    (has : ∀ a ∈ as, ∀ d, a ≠ .run₁ d) (hend : c'.fst.view.next = none) :
    ConnectCleanedUp q out c.fst.view.loc c'.fst.view.loc ↔ 0 ≤ status := by
  obtain ⟨c₁, hs, hr⟩ := Option.bind_eq_some_iff.1 hr
  obtain ⟨io, hio, hready, rfl⟩ := Machine.step_run₁ hs
  obtain ⟨hi, hset⟩ := ioInv (E := ⟨False, False, False⟩) ⟨False.elim, False.elim, False.elim, False.elim⟩ hc
  simp only [hio, Prog.view_ret] at hi hset ⊢
  simp only [service, IoRun.ready, Bool.and_eq_true, decide_eq_true_eq] at hready
  obtain ⟨h, i, hd, hh, hrel, hnew, -, hb⟩ := hi.connected (hset trivial) hready.1.1 hready.2
  -- libuv's part of the completion
  let io₁ := (io.setConnectReq q fun r => { r with pending := false }).setHandle h fun x =>
    { x with connecting := false }
  have hh₁ : ((io.setConnectReq q fun r => { r with pending := false }).connectReqs q).handle = some h := by
    simpa [Io.setConnectReq] using hh
  have hcode : (IoRun.outbound q status out).code io = onOutboundConnectionCb q status out io₁ := by
    change onOutboundConnectionCb q status out (onHandle _ _ _) = _
    simp only [onHandle, hh₁, io₁]
  have hreq : io₁.connectReqs q = { io.connectReqs q with pending := false } := by
    simp [io₁, Io.setHandle, Io.setConnectReq]
  have hcloses : (io.handles h).closes = 0 := by
    have hn : (io.handles h).closing = none := by simpa [io₁, Io.setHandle, Io.setConnectReq] using hb.closing
    simpa [hn] using hi.slots.closes h
  have hm : Completing q i h io io₁ := by
    refine ⟨hd, hh, hready.1.1, by rw [hreq]; exact hrel, ?_, ?_, fun j _ => rfl, ?_⟩
    · simpa [io₁, Io.setConnectReq] using hcloses
    · intro q' hne
      simp [io₁, Io.setHandle, Io.setConnectReq, Function.update_of_ne hne]
    · intro h' hne
      simp [io₁, Io.setHandle, Io.setConnectReq, Function.update_of_ne hne]
  constructor
  · rintro ⟨_, _, hdone⟩
    by_contra hneg
    -- with a negative status the clean-up uses unassigned locals
    have hpath : (onOutboundConnectionCb q status out).path (service.Can₁ .any fun _ _ _ => True) (fun _ _ => True)
        (fun l _ => l.phase = .undefined) io₁ := by
      simp only [onOutboundConnectionCb, hreq, hd, Code.path_bind, Code.path_get, Code.path_ite]
      refine ⟨fun _ => ?_, fun hpos => absurd hneg (by omega)⟩
      simp [onOutboundConnectionCbCleanup, undefinedBehaviour]
    rw [Code.path, ← hcode] at hpath
    exact hdone.defined ((Machine.path_run hpath hr has).ended hend)
  · intro hpos
    have hpath : (onOutboundConnectionCb q status out).path (service.Can₁ .any fun _ _ _ => True) (fun _ _ => True)
        (fun l _ => ConnectHandled q i h out io l) io₁ := onOutboundConnectionCb_handled hm (by rw [hreq]; exact hd)
        (by rw [hreq]; exact hh) hb.link.2.2 hb.link_id rfl hpos out
    rw [Code.path, ← hcode] at hpath
    exact ⟨i, h, (Machine.path_run hpath hr has).ended hend⟩

/-- The main thread asks for a connection, and `on_check_cb` submits it with the connect request 0. -/
private def connectRun : List (Act IoRun MainCall) :=
  .flatten [startUp, [.run₂ (.cmdOpen ⟨.inet, 1⟩ 1), .op₂, .op₂, .op₂, .run₁ (.check {}), .op₁, .op₁],
    [.run₁ (.check {}), .op₁]]

theorem connect_cleaned_up_sock_fails : ∃ c c', Reach 1 c ∧
    service.run c [.run₁ (.outbound 0 0 { getsockname := -107 })] = some c' ∧
    ConnectCleanedUp 0 { getsockname := -107 } c.fst.view.loc c'.fst.view.loc := by
  obtain ⟨c, hc, hP⟩ := exists_reachWhen .any 1 connectRun
    (fun c => (service.run c [.run₁ (.outbound 0 0 { getsockname := -107 })]).any
      (fun c' => decide (c'.fst.view.next = none)) = true) (by decide +kernel)
  obtain ⟨c', hr, hend⟩ := Option.any_eq_true _ _ |>.1 hP
  exact ⟨c, c', hc, hr, (connect_cleaned_up_iff hc hr (by simp) (of_decide_eq_true hend)).2 (by decide)⟩

/-- The peer refuses the connection: the clean-up reads `link` before anything was assigned to it. -/
theorem connect_refused_not_cleaned_up : ∃ c c', Reach 1 c ∧
    service.run c [.run₁ (.outbound 0 (-111) {})] = some c' ∧ c'.fst.view.next = none ∧
    ¬ ConnectCleanedUp 0 {} c.fst.view.loc c'.fst.view.loc := by
  obtain ⟨c, hc, hP⟩ := exists_reachWhen .any 1 connectRun
    (fun c => (service.run c [.run₁ (.outbound 0 (-111) {})]).any
      (fun c' => decide (c'.fst.view.next = none ∧ c'.fst.view.loc.phase = .undefined)) = true) (by decide +kernel)
  obtain ⟨c', hr, hend⟩ := Option.any_eq_true _ _ |>.1 hP
  obtain ⟨hn, hu⟩ := of_decide_eq_true hend
  exact ⟨c, c', hc, hr, hn, fun ⟨_, _, hdone⟩ => hdone.defined hu⟩

end ServerLynx
