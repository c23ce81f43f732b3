import ServerLynx.IoInvariant
import ServerLynx.System

/-!
# The callbacks keep the invariant

Each callback, from a state between two callbacks, keeps `IoInv` at each of its operations and ends between two
callbacks again.  What the results of the operations promise is the argument `Promised`; the two conditions under
which links are not lost and events come in turn enter there and nowhere else.
-/

namespace ServerLynx

open Threads

/-- The handle is in the hands of `on_close_link_cb`. -/
def Handle.InCloseCb (x : Handle) : Prop := x.closed = true ∧ x.closing = some .link ∧ x.released = 0

instance (x : Handle) : Decidable x.InCloseCb := inferInstanceAs (Decidable (_ ∧ _ ∧ _))

/-- What the operations of the IO thread promise: a popped event has its type, and the premises hold of them. -/
structure Promised (can : Io → (o : Op) → o.Res → Prop) (E : Premises) : Prop where
  popType : ∀ l t e evt, can l (.eventFreePop t) (some (e, evt)) → evt.type = t
  closePop : E.noLeak → ∀ l, ¬ can l (.eventFreePop .clientClose) none
  room : E.inTurn → ∀ l e evt, ¬ can l (.eventReadyPush e evt) false
  opened : E.inTurn → ∀ l x, can l (.eventFreePop .clientClose) (some x) →
    ∀ h < l.handleCount, (l.handles h).InCloseCb → WasOpened l.pushed h

variable {n : Nat} {E : Premises} {can : Io → (o : Op) → o.Res → Prop} {io : Io}

/-- The code keeps the invariant from `io` on. -/
abbrev KeepsInv (can : Io → (o : Op) → o.Res → Prop) (n : Nat) (E : Premises) (m : IoM Unit) (io : Io) :
    Prop :=
  m.path can (fun l _ => IoInv n E l) (fun l _ => IoInv n E l ∧ Settled l) io

theorem onSendCb_keeps (hi : IoInv n E io) (hs : Settled io) (hp : io.phase = .running) {r : Nat}
    (hr : r ∈ io.writes) :
    KeepsInv can n E (onSendCb r) { io with writes := io.writes.erase r } := by
  obtain ⟨list, hpush, hsends⟩ := hi.sends.done hp hr
  have hl := hi.sends.links r hr
  obtain ⟨i, hl⟩ := Option.ne_none_iff_exists'.1 hl
  simp only [KeepsInv, onSendCb, pushSendReq, Code.path_bind, Code.path_get, hl, Code.path_modify, hpush]
  exact ⟨{ hi with sends := hsends }, hs.running, hs.off⟩

/-! ### Sending and receiving -/

theorem onRecvCbCleanup_keeps {h i : Nat} (hb : Busy n E io h i) (ha : (io.handles h).isActive = true)
    (ret : ErrorCode) (closeLink : Bool) : KeepsInv can n E (onRecvCbCleanup h i ret closeLink) io := by
  simp only [KeepsInv, onRecvCbCleanup, modifyLink, Code.path_bind, Code.path_modify, Code.path_ite, Code.path_get,
    Code.path_pure]
  have hb' := hb.setLink (f := fun link => { link with errorCode := ret }) rfl rfl
  refine ⟨fun _ => ⟨fun _ => ?_, fun _ => ?_⟩, fun _ => ?_⟩
  · exact (hb'.setLink rfl rfl).close (by simp [Io.link, Io.setLink])
  · exact ⟨hb'.inv, hb'.settled ha⟩
  · exact ⟨hb'.inv, hb'.settled ha⟩

theorem onRecvCb_keeps (hcan : Promised can E) {h i : Nat} (hb : Busy n E io h i)
    (ha : (io.handles h).isActive = true) (hop : WasOpened io.pushed h) {nread : Int}
    (hbuf : 0 < nread → (io.link i).readBuffer ≠ none) : KeepsInv can n E (onRecvCb h nread) io := by
  simp only [KeepsInv, onRecvCb, hb.holds.data, Code.path_bind, Code.path_get, Code.path_ite]
  refine ⟨fun _ => onRecvCbCleanup_keeps hb ha _ _, fun _ => ⟨fun _ => onRecvCbCleanup_keeps hb ha _ _, fun _ => ?_⟩⟩
  obtain ⟨b, hb'⟩ := Option.ne_none_iff_exists'.1 (hbuf (by omega))
  simp only [getLink, Code.path_bind, Code.path_get, Code.path_pure, hb', Code.path_op, Code.path_ite]
  refine ⟨hb.inv, fun added _ => ⟨fun _ => onRecvCbCleanup_keeps hb ha _ _, fun _ => ⟨hb.inv, ?_⟩⟩⟩
  rintro (_ | ⟨e, evt⟩) hr
  · exact onRecvCbCleanup_keeps hb ha _ _
  have ht : evt.type = .clientRead := hcan.popType _ _ _ _ hr
  have hb₁ := hb.setHand (some e)
  simp only [Code.path_bind, Code.path_modify, Code.path_get, Code.path_pure, Code.path_op]
  refine ⟨hb₁.inv, fun span _ => ?_⟩
  simp only [readyPush, Code.path_bind, Code.path_modify, Code.path_pure, Code.path_op, Code.path_ite]
  refine ⟨hb₁.inv, fun pushed _ => ⟨fun hpushed => ?_, fun hpushed => ?_⟩⟩
  · obtain rfl : pushed = false := by simpa using hpushed
    exact onRecvCbCleanup_keeps (hb₁.setHand none) ha _ _
  · obtain rfl : pushed = true := by simpa using hpushed
    have hb₂ := hb₁.pushRead { evt with
      clientId := (io.link i).id, priv := some b, buffer := .readBuf b span.1, len := span.2 } ht hb.link_id hop
    have hb₃ := hb₂.setLink (f := fun link => { link with readBuffer := none }) rfl rfl
    exact ⟨hb₃.inv, hb₃.settled ha⟩

theorem uvReadInto_keeps (hcan : Promised can E) {h i b : Nat} (hb : Busy n E io h i)
    (ha : (io.handles h).isActive = true) (hop : WasOpened io.pushed h) (hbuf : (io.link i).readBuffer = some b)
    (len : Nat) (out : ReadOut) : KeepsInv can n E (uvReadInto h b len out) io := by
  have hbuf' : ∀ nread : Int, 0 < nread → (io.link i).readBuffer ≠ none := fun _ _ => by simp [hbuf]
  simp only [KeepsInv, uvReadInto, Code.path_ite]
  refine ⟨fun _ => onRecvCb_keeps hcan hb ha hop (hbuf' _), fun _ => ?_⟩
  cases out with
  | error err => exact onRecvCb_keeps hcan hb ha hop (hbuf' _)
  | empty => exact onRecvCb_keeps hcan hb ha hop (hbuf' _)
  | data bytes =>
    simp only [Code.path_bind, Code.path_op, Code.path_modify]
    have hb' := hb.setReceived (Function.update io.received h (io.received h ++ bytes.take len))
    exact ⟨hb.inv, fun _ _ => onRecvCb_keeps hcan hb' ha hop (hbuf' _)⟩

theorem uvRead_keeps (hcan : Promised can E) (hi : IoInv n E io) (hs : Settled io) (hp : io.phase = .running)
    {h : Nat} (hr : (io.handles h).reading = true) (out : ReadOut) : KeepsInv can n E (uvRead h out) io := by
  obtain ⟨i, hb, hop⟩ := hi.reading hs hp hr
  have ha : (io.handles h).isActive = true := by simp [Handle.isActive, hr]
  simp only [KeepsInv, uvRead, onRecvAllocCb, getLink, modifyLink, hb.holds.data, Code.path_bind, Code.path_get,
    Code.path_pure, Code.path_ite]
  refine ⟨fun hnone => ?_, fun hsome => ?_⟩
  · simp only [Code.path_op]
    refine ⟨hb.inv, ?_⟩
    rintro (_ | b) -
    · exact onRecvCb_keeps hcan hb ha hop (by simp [uvEnobufs])
    · have hb' := hb.setLink (f := fun link => { link with readBuffer := some b }) rfl rfl
      simp only [Code.path_bind, Code.path_modify, Code.path_get, Code.path_pure, Code.path_op,
        Io.setLink_link_self]
      exact ⟨hb'.inv, fun len _ => uvReadInto_keeps hcan hb' ha hop (by simp) len out⟩
  · obtain ⟨b, hbuf⟩ := Option.ne_none_iff_exists'.1 hsome
    simp only [hbuf, Code.path_bind, Code.path_op, Code.path_pure]
    exact ⟨hb.inv, fun len _ => uvReadInto_keeps hcan hb ha hop hbuf len out⟩

/-! ### Closing -/

/-- A handle that is closing, but not by way of `on_close_link_cb`, was given no link. -/
private theorem not_given_of_closing {x : Handle} {cb : CloseCb} (hc : x.closing = some cb) (hcb : cb ≠ .link)
    (i : Nat) : ¬ x.Given i := by
  rintro ⟨-, -, -, hl | ⟨hn, -⟩⟩
  · exact hcb (Option.some.inj (hc.symm.trans hl))
  · exact absurd (hc.symm.trans hn) (by simp)

theorem onCloseHandleCb_keeps (hi : IoInv n E io) (hs : Settled io) {h : Nat}
    (hc : (io.handles h).closing = some .handle) (hr : (io.handles h).reading = false) :
    KeepsInv can n E (onCloseHandleCb h) io := by
  simp only [KeepsInv, onCloseHandleCb, Code.path_modify]
  have hlt := hi.slots.lt_count_of_closing hc
  have hx := not_given_of_closing (x := { io.handles h with released := (io.handles h).released + 1 }) hc (by simp)
  refine ⟨hi.setUngiven (not_given_of_closing hc (by simp)) hx hr (by simp [hc]) (hi.slots.closes h)
    (fun _ => rfl) hlt (Nat.le_refl _), ?_⟩
  exact hs.setUnheld fun i hh => hx i hh.1

/-- After `releaseReadBuffer` the link has no read buffer. -/
theorem releaseReadBuffer_path {Q : Io → Unit → Prop} {h i : Nat} (hc : Closing n E io h i)
    (hQ : ∀ io', Closing n E io' h i → (io'.link i).readBuffer = none → Q io' ()) :
    (releaseReadBuffer i).path can (fun l _ => IoInv n E l) Q io := by
  simp only [releaseReadBuffer, getLink, modifyLink, Code.path_bind, Code.path_get, Code.path_pure]
  cases hbuf : (io.link i).readBuffer with
  | none =>
    exact hQ _ hc hbuf
  | some b =>
    simp only [Code.path_bind, Code.path_op, Code.path_modify]
    exact ⟨hc.inv, fun _ _ => hQ _ (hc.setLink rfl rfl hc.not_opened) (by simp)⟩

theorem onCloseLinkCb_keeps (hcan : Promised can E) {h i : Nat} (hc : Closing n E io h i) :
    KeepsInv can n E (onCloseLinkCb h) io := by
  simp only [KeepsInv, onCloseLinkCb, hc.holds.data, modifyLink, Code.path_bind, Code.path_get, Code.path_modify]
  refine releaseReadBuffer_path (hc.setLink rfl rfl (by simp)) fun io hc hbuf => ?_
  simp only [Code.path_op]
  refine ⟨hc.inv, ?_⟩
  rintro (_ | ⟨e, evt⟩) hr
  · simp only [onCloseHandleCb, Code.path_modify]
    exact hc.leak fun hE => hcan.closePop hE _ hr
  · have hc₁ := hc.setHand (some e)
    have ht : evt.type = .clientClose := hcan.popType _ _ _ _ hr
    simp only [getLink, readyPush, closeLink, onCloseHandleCb, Code.path_bind, Code.path_op, Code.path_modify,
      Code.path_get, Code.path_pure]
    refine ⟨hc₁.inv, fun pushed hpushed => ?_⟩
    have hturn : E.inTurn → pushed = true ∧ WasOpened io.pushed h := by
      intro hE
      refine ⟨?_, hcan.opened hE _ _ hr h (hc.inv.slots.lt_count hc.holds) ⟨hc.closed, hc.closing, hc.holds.2⟩⟩
      cases pushed with
      | false => exact absurd hpushed (hcan.room hE _ _ _)
      | true => rfl
    obtain ⟨list, hl, hfin⟩ := hc₁.finish hbuf { evt with
      clientId := (io.link i).id, errorCode := 0, cmdId := (io.link i).cmdCloseId } ht hc.link_id pushed hturn
    simp only [hl]
    exact hfin

/-- libuv finishes a close and calls the callback that is due. -/
theorem uvFinishClose_keeps (hcan : Promised can E) (hi : IoInv n E io) (hs : Settled io) (hp : io.phase = .running)
    {h : Nat} (hc : (io.handles h).isClosing = true) (hd : (io.handles h).closed = false) :
    KeepsInv can n E (uvFinishClose h) io := by
  obtain ⟨cb, hcb⟩ := Option.isSome_iff_exists.1 hc
  have hlt := hi.slots.lt_count_of_closing hcb
  have hr : (io.handles h).reading = false := by
    rw [Bool.eq_false_iff]
    intro hr
    obtain ⟨-, -, hn⟩ := hi.slots.reading h hr
    exact absurd (hcb.symm.trans hn) (by simp)
  simp only [KeepsInv, uvFinishClose, Code.path_bind, Code.path_modify, Code.path_get, Io.setHandle_handles_self, hcb]
  have key : cb ≠ .link → IoInv n E (io.setHandle h fun x => { x with closed := true }) ∧
      Settled (io.setHandle h fun x => { x with closed := true }) := by
    intro hne
    have hx := not_given_of_closing (x := { io.handles h with closed := true }) hcb hne
    exact ⟨hi.setUngiven (not_given_of_closing hcb hne) hx hr (fun _ => rfl) (hi.slots.closes h) (fun _ => rfl) hlt
      (Nat.le_refl _), hs.setUnheld fun i hh => hx i hh.1⟩
  cases cb with
  | null => exact key (by simp)
  | handle =>
    obtain ⟨hi', hs'⟩ := key (by simp)
    exact onCloseHandleCb_keeps hi' hs' (by simpa using hcb) (by simpa using hr)
  | link =>
    obtain ⟨i, hcl⟩ := hi.closing hs hp hcb hd
    exact onCloseLinkCb_keeps hcan hcl

/-! ### Accepting and connecting -/

/-- The address calls only write `endpoint_remote` of the link; where they do not fail, all their results are 0. -/
theorem linkEndpoints_path {I : Io → Op → Prop} {Q : Io → Bool → Prop} {i : Nat} (out : ConnectedOut)
    (hQ : ∀ (f : Link → Endpoint) (ok : Bool), (ok = true → out.getpeername = 0 ∧ out.convertPeer = 0 ∧
      out.getsockname = 0 ∧ out.convertSock = 0) →
      Q (io.setLink i fun link => { link with endpointRemote := f link }) ok) :
    (linkEndpoints i out).path can I Q io := by
  have hself : Q io false := by
    have := hQ (fun link => link.endpointRemote) false (by simp)
    simpa [Io.setLink] using this
  simp only [linkEndpoints, modifyLink, Code.path_bind, Code.path_ite, Code.path_modify, Code.path_pure,
    Io.setLink_setLink, ne_eq]
  refine ⟨fun _ => hself, fun h₁ => ⟨fun _ => hself, fun h₂ => ⟨fun _ => ?_, fun h₃ => ⟨fun _ => ?_, fun h₄ => ?_⟩⟩⟩⟩
  · exact hQ (fun _ => out.peer) false (by simp)
  · exact hQ (fun _ => out.peer) false (by simp)
  · exact hQ (fun _ => out.sock) true fun _ => ⟨not_not.1 h₁, not_not.1 h₂, not_not.1 h₃, not_not.1 h₄⟩

/-- Setting up failed after the link was taken: the connection is closed. -/
theorem Busy.cleanup {h i : Nat} (hb : Busy n E io h i) :
    IoInv n E ((io.setLink i fun link => { link with state := .closing }).uvClose h .link) ∧
      Settled ((io.setLink i fun link => { link with state := .closing }).uvClose h .link) :=
  (hb.setLink rfl rfl).close (by simp)

theorem onInboundConnectionCbCleanup_keeps {h i : Nat} (hb : Busy n E io h i) (init : Bool) :
    KeepsInv can n E (onInboundConnectionCbCleanup h (some i) init) io := by
  simp only [KeepsInv, onInboundConnectionCbCleanup, modifyLink, Code.path_bind, Code.path_modify]
  exact hb.cleanup

theorem onInboundConnectionCbCleanup_none_keeps {h : Nat} {init : Bool} (hf : Fresh n E io h init) :
    KeepsInv can n E (onInboundConnectionCbCleanup h none init) io := by
  simp only [KeepsInv, onInboundConnectionCbCleanup, Code.path_ite, Code.path_modify, Code.path_pure]
  exact ⟨fun _ => hf.abandon, fun _ => ⟨hf.inv, hf.settled⟩⟩

theorem onInboundConnectionCb_keeps (hi : IoInv n E io) (hs : Settled io)
    (hp : io.phase = .running) (status : Int) (out : InboundOut) :
    KeepsInv can n E (onInboundConnectionCb status out) io := by
  simp only [KeepsInv, onInboundConnectionCb, acquireClientHandle, openLink, Code.path_ite, Code.path_bind,
    Code.path_get, Code.path_pure, Code.path_modify]
  refine ⟨fun _ => ⟨hi, hs⟩, fun _ => ⟨fun _ => ⟨hi, hs⟩, fun _ => ?_⟩⟩
  have hf := hi.fresh hs hp
  generalize io.handleCount = h at hf ⊢
  generalize io.acquireHandle .tcpClient = io at hf ⊢
  refine ⟨fun _ => onInboundConnectionCbCleanup_none_keeps hf, fun _ => ?_⟩
  have hf₁ := hf.uvInit
  refine ⟨fun _ => onInboundConnectionCbCleanup_none_keeps hf₁, fun _ => ?_⟩
  cases hopen : (io.uvInit h).linkList.svlLinkListOpen with
  | none => exact onInboundConnectionCbCleanup_none_keeps hf₁
  | some x =>
    obtain ⟨i, list⟩ := x
    simp only [modifyLink, Code.path_bind, Code.path_modify, Code.path_pure]
    have hno := hf₁.inv.not_wasOpened hf₁.not_given
    have hb := hf₁.attach hopen (l := { list.clientMap i with
      priv := some h, readState := .header, state := .opened, errorCode := .zero, readBuffer := none
      lastMsgId := 0 }) rfl rfl ((io.uvInit h).handles h).openCmd
    refine linkEndpoints_path _ fun f ok _ => ?_
    have hb₁ := hb.setLink (f := fun link => { link with endpointRemote := f link }) rfl rfl
    simp only [Code.path_ite]
    refine ⟨fun _ => onInboundConnectionCbCleanup_keeps hb₁ true, fun _ => ?_⟩
    simp only [Code.path_bind, Code.path_op]
    refine ⟨hb₁.inv, ?_⟩
    rintro (_ | ⟨e, evt⟩) -
    · exact onInboundConnectionCbCleanup_keeps hb₁ true
    · have hb₂ := hb₁.setHand (some e)
      simp only [readyPush, getLink, Code.path_bind, Code.path_modify, Code.path_get, Code.path_pure, Code.path_op,
        Code.path_ite]
      refine ⟨hb₂.inv, fun pushed _ => ⟨fun hpushed => ?_, fun hpushed => ?_⟩⟩
      · obtain rfl : pushed = false := by simpa using hpushed
        exact onInboundConnectionCbCleanup_keeps (hb₂.setHand none) true
      · obtain rfl : pushed = true := by simpa using hpushed
        refine ⟨fun _ => onInboundConnectionCbCleanup_keeps (hb₂.pushOpen _ rfl hb₁.link_id hno) true, fun _ => ?_⟩
        exact (hb₂.pushOpen _ rfl hb₁.link_id hno).readStart (wasOpened_append.2 (.inr ⟨rfl, rfl⟩))

/-- The use of an unassigned variable; it does not happen where the premise excludes it. -/
theorem undefinedBehaviour_keeps (hi : IoInv n E io) (hno : ¬ E.noFail) :
    KeepsInv can n E undefinedBehaviour io := by
  simp only [KeepsInv, undefinedBehaviour, Code.path_modify]
  refine ⟨{ hi with
    sends := ⟨hi.sends.refused, by simp, by simp, hi.sends.links⟩
    defined := fun hE => absurd hE hno }, by simp, by simp⟩

/-- The clean-up of `on_outbound_connection_cb` keeps the invariant where its locals are assigned. -/
theorem onOutboundConnectionCbCleanup_keeps {q h i : Nat} (hb : Busy n E io h i)
    (hq : (io.connectReqs q).pending = false) :
    KeepsInv can n E (onOutboundConnectionCbCleanup q (some (i, h))) io := by
  simp only [KeepsInv, onOutboundConnectionCbCleanup, modifyLink, Code.path_bind, Code.path_modify]
  exact (hb.releaseReq hq).cleanup

theorem onOutboundConnectionCb_keeps {q h i : Nat} (hb : Busy n E io h i)
    (hd : (io.connectReqs q).data = some i) (hh : (io.connectReqs q).handle = some h)
    (hq : (io.connectReqs q).pending = false) (hno : ¬ WasOpened io.pushed h) (status : Int)
    (hE : E.noFail → 0 ≤ status) (out : ConnectedOut) :
    KeepsInv can n E (onOutboundConnectionCb q status out) io := by
  simp only [KeepsInv, onOutboundConnectionCb, getLink, Code.path_bind, Code.path_get, Code.path_pure, hd, hh,
    Code.path_ite, hb.link.2.2]
  refine ⟨fun hneg => ?_, fun _ => ⟨fun hne => absurd rfl hne, fun _ => ?_⟩⟩
  · simp only [onOutboundConnectionCbCleanup, Code.path_bind, Code.path_modify]
    exact undefinedBehaviour_keeps (hb.releaseReq hq).inv fun h => absurd (hE h) (by omega)
  refine linkEndpoints_path _ fun f ok _ => ?_
  have hb₁ := hb.setLink (f := fun link => { link with endpointRemote := f link }) rfl rfl
  refine ⟨fun _ => onOutboundConnectionCbCleanup_keeps hb₁ hq, fun _ => ?_⟩
  simp only [Code.path_op]
  refine ⟨hb₁.inv, ?_⟩
  rintro (_ | ⟨e, evt⟩) -
  · exact onOutboundConnectionCbCleanup_keeps hb₁ hq
  · have hb₂ := hb₁.setHand (some e)
    simp only [readyPush, modifyLink, Code.path_bind, Code.path_modify, Code.path_get, Code.path_pure, Code.path_op,
      Code.path_ite]
    refine ⟨hb₂.inv, fun pushed _ => ⟨fun hpushed => ?_, fun hpushed => ?_⟩⟩
    · obtain rfl : pushed = false := by simpa using hpushed
      exact onOutboundConnectionCbCleanup_keeps (hb₂.setHand none) hq
    · obtain rfl : pushed = true := by simpa using hpushed
      have hb₃ := (hb₂.pushOpen { evt with
        type := .clientOpen, clientId := ((io.setLink i fun link => { link with endpointRemote := f link }).link i).id
        host := ((io.setLink i fun link => { link with endpointRemote := f link }).link i).endpointRemote
        cmdId := ((io.setLink i fun link => { link with endpointRemote := f link }).link i).cmdOpenId }
        rfl hb₁.link_id hno).setLink (f := fun link => { link with state := .opened }) rfl rfl
      refine ⟨fun _ => onOutboundConnectionCbCleanup_keeps hb₃ hq, fun _ => ?_⟩
      exact (hb₃.releaseReq hq).readStart (wasOpened_append.2 (.inr ⟨rfl, rfl⟩))

/-! ### Commands -/

theorem handleCmdOpenCleanup_keeps {h : Nat} {init : Bool} (hf : Fresh n E io h init) :
    KeepsInv can n E (handleCmdOpenCleanup (some h) none none) io := by
  simp only [KeepsInv, handleCmdOpenCleanup, Code.path_modify]
  exact hf.abandon

theorem handleCmdOpenCleanup_req_keeps {q h : Nat} {init : Bool} (hf : Fresh n E io h init)
    (hq : (io.connectReqs q).pending = false) :
    KeepsInv can n E (handleCmdOpenCleanup (some h) (some q) none) io := by
  simp only [KeepsInv, handleCmdOpenCleanup, Code.path_bind, Code.path_modify]
  exact (hf.setConnectReq hq).abandon

theorem handleCmdOpenCleanup_link_keeps {q h i : Nat} (hb : Busy n E io h i)
    (hq : (io.connectReqs q).pending = false) (hbuf : (io.link i).readBuffer = none)
    (hst : (io.link i).state = .new) (hno : ¬ WasOpened io.pushed h) :
    KeepsInv can n E (handleCmdOpenCleanup (some h) (some q) (some i)) io := by
  obtain ⟨list, hl, hfin⟩ := (hb.releaseReq hq).giveBack hbuf hst hno
  have hl' : (io.releaseConnectReq q).linkList.svlLinkListClose i = some list := hl
  simp only [KeepsInv, handleCmdOpenCleanup, closeLink, Code.path_bind, Code.path_modify, hl']
  exact hfin

theorem handleCmdOpen_keeps (hi : IoInv n E io) (hs : Settled io) (hp : io.phase = .running) (cmd : Cmd)
    (out : CmdOut) : KeepsInv can n E (handleCmdOpen cmd out) io := by
  simp only [KeepsInv, handleCmdOpen, acquireClientHandle, acquireConnectReq, openLink, Code.path_ite, Code.path_bind,
    Code.path_get, Code.path_pure, Code.path_modify]
  have hf := hi.fresh hs hp
  refine ⟨fun _ => ⟨hi, hs⟩, fun _ => ⟨fun _ => handleCmdOpenCleanup_keeps hf, fun _ => ?_⟩⟩
  have hf₁ := hf.uvInit
  refine ⟨fun _ => handleCmdOpenCleanup_keeps hf₁, fun _ => ?_⟩
  generalize io.handleCount = h at hf₁ ⊢
  generalize (io.acquireHandle .tcpClient).uvInit h = io at hf₁ ⊢
  have hf₂ := hf₁.acquireConnectReq
  have hq : io.acquireConnectReq.connectReqs io.connectReqCount = {} := by simp [Io.acquireConnectReq]
  generalize io.connectReqCount = q at hq ⊢
  generalize io.acquireConnectReq = io at hf₂ hq ⊢
  cases hopen : io.linkList.svlLinkListOpen with
  | none =>
    have hk : KeepsInv can n E (handleCmdOpenCleanup (some h) (some q) none) io :=
      handleCmdOpenCleanup_req_keeps hf₂ (congrArg ConnectReq.pending hq)
    exact hk
  | some x =>
    obtain ⟨i, list⟩ := x
    simp only [modifyLink, Code.path_bind, Code.path_modify, Code.path_pure, Code.path_ite]
    have hf₃ := hf₂.setConnectReq (q := q) (f := fun r => { r with data := some i }) (by rw [hq])
    have hno := hf₃.inv.not_wasOpened hf₃.not_given
    have hb := hf₃.attach hopen (l := { list.clientMap i with
      priv := some h, readState := .header, state := .new, errorCode := .zero, readBuffer := none
      cmdOpenId := cmd.id }) rfl rfl (some cmd)
    have hq' : (io.setConnectReq q fun r => { r with data := some i }).connectReqs q = { data := some i } := by
      simp [Io.setConnectReq, hq]
    have hst : ∀ list' : LinkList, list'.clientMap = Function.update list.clientMap i { list.clientMap i with
        priv := some h, readState := .header, state := .new, errorCode := .zero, readBuffer := none
        cmdOpenId := cmd.id } →
        (list'.clientMap i).readBuffer = none ∧ (list'.clientMap i).state = .new := by
      intro list' hl
      simp [hl]
    refine ⟨fun _ => ?_, fun _ => ?_⟩
    · exact handleCmdOpenCleanup_link_keeps hb (congrArg ConnectReq.pending hq') (hst _ rfl).1 (hst _ rfl).2 hno
    · exact hb.connect (congrArg ConnectReq.data hq') (congrArg ConnectReq.released hq') (hst _ rfl).2 hno

/-- A link that a command may use is open, and its handle holds it and is not closing. -/
theorem usableLink_eq_some (hs : io.Slots n) {clientId i h : Nat} (hu : usableLink io clientId = some (i, h)) :
    i = clientId ∧ i < n ∧ (io.link i).state = .opened ∧ (io.link i).priv = some h ∧ (io.handles h).Holds i ∧
      (io.handles h).closing = none := by
  simp only [usableLink, LinkList.svlLinkListGet, Option.bind_eq_bind, Option.bind_eq_some_iff,
    Option.ite_none_left_eq_some, Option.some.injEq, Prod.mk.injEq, not_or, not_not] at hu
  obtain ⟨_, ⟨hlt, rfl⟩, h', hpriv, ⟨hst, -⟩, rfl, rfl⟩ := hu
  have hin : clientId < n := by
    have := hs.max
    omega
  obtain ⟨h'', hpriv', hh, hn⟩ := hs.opened clientId hin hst
  obtain rfl : h' = h'' := Option.some.inj (hpriv.symm.trans hpriv')
  exact ⟨rfl, hin, hst, hpriv, hh, hn⟩

theorem IoInv.usable (hi : IoInv n E io) (hs : Settled io) (hp : io.phase = .running) {clientId i h : Nat}
    (hu : usableLink io clientId = some (i, h)) : Busy n E io h i := by
  obtain ⟨rfl, -, hst, -, hh, hn⟩ := usableLink_eq_some hi.slots hu
  obtain ⟨hcl, hl, -⟩ := hs.running hp h i hh
  refine ⟨hi, hp, hh, hn, hcl, hl, ?_, fun h' j _ hh' => hs.running hp h' j hh'⟩
  intro q hq hqh
  obtain ⟨-, j, h', -, hqh', hh', -, -, hnew⟩ := hi.slots.pending q hq
  obtain rfl : h' = h := Option.some.inj (hqh'.symm.trans hqh)
  rw [hh'.inj hh] at hnew
  exact absurd (hst.symm.trans hnew) (by simp)

theorem handleCmdClose_keeps (hi : IoInv n E io) (hs : Settled io) (hp : io.phase = .running) (cmd : Cmd) :
    (handleCmdClose cmd).path can (fun l _ => IoInv n E l) (fun l _ => IoInv n E l ∧ Settled l) io := by
  simp only [handleCmdClose, Code.path_bind, Code.path_get]
  cases hu : usableLink io cmd.clientId with
  | none => exact ⟨hi, hs⟩
  | some x =>
    obtain ⟨i, h⟩ := x
    simp only [modifyLink, Code.path_bind, Code.path_modify, Code.path_pure]
    have hb := (hi.usable hs hp hu).setLink
      (f := fun link => { link with cmdCloseId := cmd.id, state := .closing }) rfl rfl
    have hc := hb.close (by simp)
    exact hc.1.setCloseCmd hc.2 (hb.inv.slots.lt_count hb.holds) _

theorem handleCmdSend_keeps (hi : IoInv n E io) (hs : Settled io) (hp : io.phase = .running) (cmd : Cmd)
    (out : CmdOut) :
    (handleCmdSend cmd out).path can (fun l _ => IoInv n E l) (fun l _ => IoInv n E l ∧ Settled l) io := by
  simp only [handleCmdSend, Code.path_bind, Code.path_get]
  cases hu : usableLink io cmd.clientId with
  | none => exact ⟨hi, hs⟩
  | some x =>
    obtain ⟨i, h⟩ := x
    simp only [Code.path_bind, Code.path_get]
    cases hl : io.sendReqList.popBack with
    | none => exact ⟨hi, hs⟩
    | some y =>
      obtain ⟨r, list⟩ := y
      simp only [pushSendReq, Code.path_bind, Code.path_modify, Code.path_pure, Code.path_ite]
      have hw : ({ base := cmd.buffer, len := cmd.len % 2 ^ 32, svlLink := some i, cmdId := cmd.id
                   cmdNo := io.handled.length } : WriteReq).svlLink ≠ none := by simp
      refine ⟨fun _ => ?_, fun _ => ?_⟩
      · obtain ⟨list', hpush, hsends⟩ := hi.sends.putBack hp hl hw
        simp only [hpush]
        exact ⟨{ hi with sends := hsends }, hs.running, hs.off⟩
      · exact ⟨{ hi with sends := hi.sends.take hp hl hw }, hs.running, hs.off⟩

theorem handleCmd_keeps (hi : IoInv n E io) (hs : Settled io) (hp : io.phase = .running) (cmd : Cmd)
    (out : CmdOut) :
    (handleCmd cmd out).path can (fun l _ => IoInv n E l) (fun l _ => IoInv n E l ∧ Settled l) io := by
  unfold handleCmd
  cases cmd.type with
  | clientOpen =>
    simp only [Code.path_bind, Code.path_pure]
    exact handleCmdOpen_keeps hi hs hp cmd out
  | clientClose => exact handleCmdClose_keeps hi hs hp cmd
  | clientSend => exact handleCmdSend_keeps hi hs hp cmd out

theorem onCheckCb_keeps (hi : IoInv n E io) (hs : Settled io) (hp : io.phase = .running) (out : CmdOut) :
    KeepsInv can n E (onCheckCb out) io := by
  simp only [KeepsInv, onCheckCb, Code.path_bind, Code.path_op]
  refine ⟨hi, ?_⟩
  rintro (_ | cmd) -
  · exact ⟨{ hi with count := hi.count }, hs.running, hs.off⟩
  simp only [Code.path_bind, Code.path_get]
  refine Code.path_mono (fun _ _ h => h) ?_ (handleCmd_keeps hi hs hp cmd out)
  rintro l acted ⟨hi', hs'⟩
  simp only [Code.path_modify, Code.path_op]
  exact ⟨{ hi' with count := hi'.count }, fun _ _ => ⟨{ hi' with count := hi'.count }, hs'.running, hs'.off⟩⟩

/-! ### Signals and the timer -/

/-- A handle of the loop changes and stays one. -/
theorem setLoopHandle_keeps (hi : IoInv n E io) {h : Nat} (hm : some h ∈ io.loopPtrs) {f : Handle → Handle}
    (hk : (f (io.handles h)).kind = (io.handles h).kind) (hr : (f (io.handles h)).reading = false)
    (hcb : (f (io.handles h)).closing = some .link → (f (io.handles h)).closed = true)
    (hc : (f (io.handles h)).closes = if (f (io.handles h)).closing = none then 0 else 1) :
    IoInv n E (io.setHandle h f) ∧ (Settled io → Settled (io.setHandle h f)) := by
  obtain ⟨hlt, hkind⟩ := hi.loop h hm
  have hx : ∀ i, ¬ (f (io.handles h)).Given i := Handle.not_given_of_kind (by rwa [hk])
  exact ⟨hi.setUngiven (Handle.not_given_of_kind hkind) hx hr hcb hc (fun _ => hk) hlt (Nat.le_refl _),
    fun hs => hs.setUnheld fun i hh => hx i hh.1⟩

/-- A handle of the loop is not read from and not closed by way of `on_close_link_cb`. -/
theorem IoInv.loopHandle (hi : IoInv n E io) {h : Nat} (hm : some h ∈ io.loopPtrs) :
    (io.handles h).reading = false ∧ ((io.handles h).closing = some .link → (io.handles h).closed = true) := by
  have hkind := (hi.loop h hm).2
  constructor
  · rw [Bool.eq_false_iff]
    intro hr
    obtain ⟨i, hh, -⟩ := hi.slots.reading h hr
    exact Handle.not_given_of_kind hkind i hh.1
  · intro hl
    rw [← Bool.not_eq_false]
    intro hd
    obtain ⟨i, hh⟩ := hi.slots.link_cb h hl hd
    exact Handle.not_given_of_kind hkind i hh.1

theorem safeCloseUvHandle_path {I : Io → Op → Prop} {Q : Io → Unit → Prop} {p : Option Nat} (hi : IoInv n E io)
    (hs : Settled io) (hm : p ∈ io.loopPtrs)
    (hQ : ∀ l, IoInv n E l → Settled l → l.loopPtrs = io.loopPtrs → Q l ()) :
    (safeCloseUvHandle p).path can I Q io := by
  simp only [safeCloseUvHandle, Code.path_modify]
  cases p with
  | none => exact hQ _ hi hs rfl
  | some h =>
    dsimp only
    split
    · exact hQ _ hi hs rfl
    · rename_i hc
      have hn : (io.handles h).closing = none := by simpa [Handle.isClosing] using hc
      have hk := setLoopHandle_keeps hi hm (f := fun x =>
        { x with started := false, reading := false, closing := some .null, closes := x.closes + 1 })
        rfl rfl (by simp) (by simp [hi.slots.closes h, hn])
      exact hQ _ hk.1 (hk.2 hs) rfl

theorem onTimerCb_keeps (hi : IoInv n E io) (hs : Settled io) : KeepsInv can n E onTimerCb io := by
  simp only [KeepsInv, onTimerCb, Code.path_bind, Code.path_op, Code.path_ite, Code.path_get, Code.path_pure]
  refine ⟨hi, fun state _ => ⟨fun _ => ?_, fun _ => ⟨hi, hs⟩⟩⟩
  refine safeCloseUvHandle_path hi hs (by simp [Io.loopPtrs]) fun l₁ hi hs h₁ => ?_
  refine safeCloseUvHandle_path hi hs (by rw [h₁]; simp [Io.loopPtrs]) fun l₂ hi hs h₂ => ?_
  refine safeCloseUvHandle_path hi hs (by rw [h₂, h₁]; simp [Io.loopPtrs]) fun l₃ hi hs h₃ => ?_
  refine safeCloseUvHandle_path hi hs (by rw [h₃, h₂, h₁]; simp [Io.loopPtrs]) fun l₄ hi hs h₄ => ?_
  exact safeCloseUvHandle_path hi hs (by rw [h₄, h₃, h₂, h₁]; simp [Io.loopPtrs]) fun l₅ hi hs _ => ⟨hi, hs⟩

theorem onSigintCb_keeps (hi : IoInv n E io) (hs : Settled io) (isSigint : Bool) :
    KeepsInv can n E (onSigintCb isSigint) io := by
  simp only [KeepsInv, onSigintCb, svlServiceStopSignal, Code.path_bind, Code.path_op, Code.path_ite, Code.path_pure]
  exact ⟨fun _ => ⟨hi, hs⟩, fun _ => ⟨hi, fun _ _ => ⟨fun _ => ⟨hi, hs⟩, fun _ => ⟨hi, fun _ _ => ⟨hi, hs⟩⟩⟩⟩⟩

end ServerLynx
