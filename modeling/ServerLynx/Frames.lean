import ServerLynx.IoRun

/-!
# What a callback changes of a connection

A callback about the connection of the handle `h` and the link `i` leaves the other handles and links, the loop and
the commands alone, and of `h` and `i` it only changes what `OnConn` does not list.  The lemmas say so of each part of
the callbacks; invariants that do not depend on what may change are carried along these frames.
-/

namespace ServerLynx

open Threads

/-! ### The frame -/

/-- A handle that is still the same connection: what a callback about it does not change. -/
structure Handle.Evolves (x y : Handle) : Prop where
  kind : y.kind = x.kind
  loop : y.loop = x.loop
  data : y.data = x.data
  isInit : y.isInit = x.isInit
  closed : y.closed = x.closed
  released : y.released = x.released
  openCmd : y.openCmd = x.openCmd
  closeCmd : y.closeCmd = x.closeCmd
  closing : x.closing ≠ none → y.closing ≠ none
  given : ∀ i, x.Given i → y.Given i

/-- The ids of a link. -/
structure Link.SameIds (x y : Link) : Prop where
  id : y.id = x.id
  cmdOpenId : y.cmdOpenId = x.cmdOpenId
  cmdCloseId : y.cmdCloseId = x.cmdCloseId

/-- From `io` to `l` the loop of the thread is as it was: its memory and the pointers to its handles. -/
structure SameLoop (io l : Io) : Prop where
  loop : l.loop = io.loop
  isInit : l.loopIsInit = io.loopIsInit
  uvLoop : l.uvLoop = io.uvLoop
  blocks : l.blocks = io.blocks
  ptrs : l.loopPtrs = io.loopPtrs
  phase : l.phase = io.phase ∨ l.phase = .undefined

/-- From `io` to `l` no connect request was made, and no write request changed hands. -/
structure SameSends (io l : Io) : Prop where
  reqCount : l.connectReqCount = io.connectReqCount
  writes : l.writes = io.writes
  sendReqs : l.sendReqs = io.sendReqs

/-- From `io` to `l` only the connection of the handle `h` and the link `i` changed, and the events that were pushed,
all of them about `h`, satisfy `Q`. -/
structure OnConn (Q : Pushed → Prop) (h i : Nat) (io l : Io) : Prop extends SameLoop io l where
  count : l.handleCount = io.handleCount
  handles : ∀ h', h' ≠ h → l.handles h' = io.handles h'
  handle : (io.handles h).Evolves (l.handles h)
  reqs : ∀ q, (l.connectReqs q).handle = (io.connectReqs q).handle ∧
    (l.connectReqs q).pending = (io.connectReqs q).pending
  sends : SameSends io l
  links : ∀ j, j ≠ i → l.link j = io.link j
  link : (io.link i).SameIds (l.link i)
  handled : l.handled = io.handled
  pushed : ∃ ps, l.pushed = io.pushed ++ ps ∧ ∀ p ∈ ps, p.conn = h ∧ Q p

theorem Handle.Evolves.refl (x : Handle) : x.Evolves x :=
  ⟨rfl, rfl, rfl, rfl, rfl, rfl, rfl, rfl, fun h => h, fun _ h => h⟩

theorem Handle.Evolves.trans {x y z : Handle} (h : x.Evolves y) (h' : y.Evolves z) : x.Evolves z where
  kind := h'.kind.trans h.kind
  loop := h'.loop.trans h.loop
  data := h'.data.trans h.data
  isInit := h'.isInit.trans h.isInit
  closed := h'.closed.trans h.closed
  released := h'.released.trans h.released
  openCmd := h'.openCmd.trans h.openCmd
  closeCmd := h'.closeCmd.trans h.closeCmd
  closing hc := h'.closing (h.closing hc)
  given i hg := h'.given i (h.given i hg)

theorem Link.SameIds.refl (x : Link) : x.SameIds x := ⟨rfl, rfl, rfl⟩

theorem Link.SameIds.trans {x y z : Link} (h : x.SameIds y) (h' : y.SameIds z) : x.SameIds z :=
  ⟨h'.id.trans h.id, h'.cmdOpenId.trans h.cmdOpenId, h'.cmdCloseId.trans h.cmdCloseId⟩

theorem SameLoop.refl (io : Io) : SameLoop io io := ⟨rfl, rfl, rfl, rfl, rfl, .inl rfl⟩

theorem SameLoop.trans {io l m : Io} (h : SameLoop io l) (h' : SameLoop l m) : SameLoop io m where
  loop := h'.loop.trans h.loop
  isInit := h'.isInit.trans h.isInit
  uvLoop := h'.uvLoop.trans h.uvLoop
  blocks := h'.blocks.trans h.blocks
  ptrs := h'.ptrs.trans h.ptrs
  phase := by
    rcases h'.phase with hp | hp
    · rw [hp]
      exact h.phase
    · exact .inr hp

theorem SameSends.refl (io : Io) : SameSends io io := ⟨rfl, rfl, rfl⟩

theorem SameSends.trans {io l m : Io} (h : SameSends io l) (h' : SameSends l m) : SameSends io m :=
  ⟨h'.reqCount.trans h.reqCount, h'.writes.trans h.writes, h'.sendReqs.trans h.sendReqs⟩

variable {Q : Pushed → Prop} {h i : Nat} {io l : Io}

theorem OnConn.refl (io : Io) : OnConn Q h i io io where
  toSameLoop := .refl io
  count := rfl
  handles _ _ := rfl
  handle := .refl _
  reqs _ := ⟨rfl, rfl⟩
  sends := .refl io
  links _ _ := rfl
  link := .refl _
  handled := rfl
  pushed := ⟨[], by simp, by simp⟩

theorem OnConn.trans {m : Io} (hl : OnConn Q h i io l) (hm : OnConn Q h i l m) : OnConn Q h i io m where
  toSameLoop := hl.toSameLoop.trans hm.toSameLoop
  count := hm.count.trans hl.count
  handles h' hne := (hm.handles h' hne).trans (hl.handles h' hne)
  handle := hl.handle.trans hm.handle
  reqs q := ⟨(hm.reqs q).1.trans (hl.reqs q).1, (hm.reqs q).2.trans (hl.reqs q).2⟩
  sends := hl.sends.trans hm.sends
  links j hne := (hm.links j hne).trans (hl.links j hne)
  link := hl.link.trans hm.link
  handled := hm.handled.trans hl.handled
  pushed := by
    obtain ⟨ps, hps, hQ⟩ := hl.pushed
    obtain ⟨qs, hqs, hQ'⟩ := hm.pushed
    refine ⟨ps ++ qs, by rw [hqs, hps, List.append_assoc], fun p hp => ?_⟩
    exact (List.mem_append.1 hp).elim (hQ p) (hQ' p)

/-- What the frame says of the events may be weakened. -/
theorem OnConn.mono {Q' : Pushed → Prop} (hl : OnConn Q h i io l) (hQ : ∀ p, Q p → Q' p) : OnConn Q' h i io l :=
  { hl with
    pushed := by
      obtain ⟨ps, hps, hp⟩ := hl.pushed
      exact ⟨ps, hps, fun p hm => ⟨(hp p hm).1, hQ p (hp p hm).2⟩⟩ }

/-! ### Steps of a callback -/

theorem OnConn.setLink (hl : OnConn Q h i io l) {f : Link → Link} (hf : ∀ x : Link, x.SameIds (f x)) :
    OnConn Q h i io (l.setLink i f) := by
  have step : OnConn Q h i l (l.setLink i f) := { OnConn.refl (Q := Q) (h := h) (i := i) l with
    toSameLoop := ⟨rfl, rfl, rfl, rfl, rfl, .inl rfl⟩
    sends := ⟨rfl, rfl, rfl⟩
    links := fun j hne => by simp [Io.setLink, Io.link, Function.update_of_ne hne]
    link := by
      rw [Io.setLink_link_self]
      exact hf _ }
  exact hl.trans step

theorem OnConn.setHandle (hl : OnConn Q h i io l) {f : Handle → Handle} (hf : ∀ x : Handle, x.Evolves (f x)) :
    OnConn Q h i io (l.setHandle h f) := by
  have step : OnConn Q h i l (l.setHandle h f) := { OnConn.refl (Q := Q) (h := h) (i := i) l with
    toSameLoop := ⟨rfl, rfl, rfl, rfl, rfl, .inl rfl⟩
    sends := ⟨rfl, rfl, rfl⟩
    handles := fun h' hne => Function.update_of_ne hne _ _
    handle := by
      rw [Io.setHandle_handles_self]
      exact hf _ }
  exact hl.trans step

theorem OnConn.uvClose (hl : OnConn Q h i io l) : OnConn Q h i io (l.uvClose h .link) :=
  hl.setHandle fun _ => ⟨rfl, rfl, rfl, rfl, rfl, rfl, rfl, rfl, by simp, fun _ hg =>
  ⟨hg.1, hg.2.1, hg.2.2.1, .inl rfl⟩⟩

theorem OnConn.uvReadStart (hl : OnConn Q h i io l) : OnConn Q h i io (l.uvReadStart h) :=
  hl.setHandle fun _ => ⟨rfl, rfl, rfl, rfl, rfl, rfl, rfl, rfl, fun h => h, fun _ hg => hg⟩

/-- A connect request changes, but neither its handle nor whether it is pending. -/
theorem OnConn.setConnectReq (hl : OnConn Q h i io l) {q : Nat} {f : ConnectReq → ConnectReq}
    (hf : ∀ x : ConnectReq, (f x).handle = x.handle ∧ (f x).pending = x.pending) :
    OnConn Q h i io (l.setConnectReq q f) := by
  have step : OnConn Q h i l (l.setConnectReq q f) := { OnConn.refl (Q := Q) (h := h) (i := i) l with
    toSameLoop := ⟨rfl, rfl, rfl, rfl, rfl, .inl rfl⟩
    sends := ⟨rfl, rfl, rfl⟩
    reqs := fun q' => by
      by_cases hq : q' = q
      · subst hq
        simp [Io.setConnectReq, hf]
      · simp [Io.setConnectReq, Function.update_of_ne hq] }
  exact hl.trans step

theorem OnConn.releaseConnectReq (hl : OnConn Q h i io l) (q : Nat) : OnConn Q h i io (l.releaseConnectReq q) :=
  hl.setConnectReq fun _ => ⟨rfl, rfl⟩

/-- Nothing changes that the frame is about. -/
theorem OnConn.of_eq (hl : OnConn Q h i io l) {l' : Io} (he : SameLoop l l') (hh : l'.handles = l.handles)
    (hc : l'.handleCount = l.handleCount) (hr : l'.connectReqs = l.connectReqs) (hk : l'.linkList = l.linkList)
    (hd : l'.handled = l.handled) (hp : l'.pushed = l.pushed) (hs : SameSends l l') : OnConn Q h i io l' := by
  have step : OnConn Q h i l l' := {
    toSameLoop := he
    count := hc
    handles := fun _ _ => by rw [hh]
    handle := hh ▸ .refl _
    reqs := fun _ => by rw [hr]; exact ⟨rfl, rfl⟩
    sends := hs
    links := fun _ _ => by simp only [Io.link, hk]
    link := by
      simp only [Io.link, hk]
      exact .refl _
    handled := hd
    pushed := ⟨[], by rw [hp, List.append_nil], by simp⟩ }
  exact hl.trans step

/-- `tn_event_list_ready_push` changes nothing else, whether it succeeds or not. -/
theorem OnConn.push (hl : OnConn Q h i io l) {e : Event} (hQ : Q ⟨e, h⟩) (pushed : Bool) :
    OnConn Q h i io { l with hand := none, pushed := if pushed then l.pushed ++ [⟨e, h⟩] else l.pushed } := by
  cases pushed with
  | false => exact hl.of_eq ⟨rfl, rfl, rfl, rfl, rfl, .inl rfl⟩ rfl rfl rfl rfl rfl rfl ⟨rfl, rfl, rfl⟩
  | true =>
    have step : OnConn Q h i l { l with hand := none, pushed := l.pushed ++ [⟨e, h⟩] } := {
      toSameLoop := ⟨rfl, rfl, rfl, rfl, rfl, .inl rfl⟩
      sends := ⟨rfl, rfl, rfl⟩
      count := rfl
      handles := fun _ _ => rfl
      handle := .refl _
      reqs := fun _ => ⟨rfl, rfl⟩
      links := fun _ _ => rfl
      link := .refl _
      handled := rfl
      pushed := ⟨_, rfl, fun p hp => by rw [List.mem_singleton.1 hp]; exact ⟨rfl, hQ⟩⟩ }
    exact hl.trans step

/-- A callback that gives the connection up starts to close it. -/
theorem OnConn.giveUp (hl : OnConn Q h i io l) :
    OnConn Q h i io ((l.setLink i fun link => { link with state := .closing }).uvClose h .link) := by
  refine .uvClose ?_
  exact hl.setLink fun _ => ⟨rfl, rfl, rfl⟩

/-! ### Parts of the callbacks -/

section Parts

variable {n : Nat} {E : Premises} {can : Io → (o : Op) → o.Res → Prop}

/-- All along the code, the frame holds from `io` on. -/
abbrev StaysOnConn {α : Type} (can : Io → (o : Op) → o.Res → Prop) (Q : Pushed → Prop) (h i : Nat) (io : Io)
    (m : IoM α) (l : Io) : Prop :=
  m.path can (fun l' _ => OnConn Q h i io l') (fun l' _ => OnConn Q h i io l') l

theorem onRecvCbCleanup_onConn (ret : ErrorCode) (closeLink : Bool) (hl : OnConn Q h i io l) :
    StaysOnConn can Q h i io (onRecvCbCleanup h i ret closeLink) l := by
  simp only [StaysOnConn, onRecvCbCleanup, modifyLink, Code.path_bind, Code.path_modify, Code.path_ite, Code.path_get,
    Code.path_pure]
  have hl' := hl.setLink (f := fun link => { link with errorCode := ret }) fun _ => ⟨rfl, rfl, rfl⟩
  exact ⟨fun _ => ⟨fun _ => hl'.giveUp, fun _ => hl'⟩, fun _ => hl'⟩

theorem onRecvCb_onConn (hcan : Promised can E) (hQ : ∀ evt : Event, evt.type = .clientRead → Q ⟨evt, h⟩)
    (hd : (l.handles h).data = some i) (nread : Int) (hl : OnConn Q h i io l) :
    StaysOnConn can Q h i io (onRecvCb h nread) l := by
  simp only [StaysOnConn, onRecvCb, getLink, Code.path_bind, Code.path_get, Code.path_pure, hd, Code.path_ite]
  refine ⟨fun _ => onRecvCbCleanup_onConn _ _ hl, fun _ => ⟨fun _ => onRecvCbCleanup_onConn _ _ hl, fun _ => ?_⟩⟩
  cases hb : (l.link i).readBuffer with
  | none => exact hl.of_eq ⟨rfl, rfl, rfl, rfl, rfl, .inr rfl⟩ rfl rfl rfl rfl rfl rfl ⟨rfl, rfl, rfl⟩
  | some b =>
    simp only [Code.path_bind, Code.path_op, Code.path_ite]
    refine ⟨hl, fun added _ => ⟨fun _ => onRecvCbCleanup_onConn _ _ hl, fun _ => ⟨hl, ?_⟩⟩⟩
    rintro (_ | ⟨e, evt⟩) hr
    · exact onRecvCbCleanup_onConn _ _ hl
    have ht := hcan.popType _ _ _ _ hr
    have hl₁ : OnConn Q h i io { l with hand := some e } :=
      hl.of_eq ⟨rfl, rfl, rfl, rfl, rfl, .inl rfl⟩ rfl rfl rfl rfl rfl rfl ⟨rfl, rfl, rfl⟩
    simp only [readyPush, modifyLink, Code.path_bind, Code.path_modify, Code.path_get, Code.path_pure, Code.path_op,
      Code.path_ite]
    refine ⟨hl₁, fun span _ => ⟨hl₁, fun pushed _ => ?_⟩⟩
    have hl₂ := hl₁.push (e := { evt with
      clientId := (l.link i).id, priv := some b, buffer := .readBuf b span.1, len := span.2 }) (hQ _ ht) pushed
    exact ⟨fun _ => onRecvCbCleanup_onConn _ _ hl₂, fun _ => hl₂.setLink fun _ => ⟨rfl, rfl, rfl⟩⟩

theorem uvRead_onConn (hcan : Promised can E) (hQ : ∀ evt : Event, evt.type = .clientRead → Q ⟨evt, h⟩)
    (hd : (io.handles h).data = some i) (out : ReadOut) : StaysOnConn can Q h i io (uvRead h out) io := by
  -- the data of the handle stays
  have hrecv : ∀ {l : Io} nread, OnConn Q h i io l → StaysOnConn can Q h i io (onRecvCb h nread) l :=
    fun nread hl => onRecvCb_onConn hcan hQ (hl.handle.data.trans hd) nread hl
  have hinto : ∀ {l : Io} b len, OnConn Q h i io l → StaysOnConn can Q h i io (uvReadInto h b len out) l := by
    intro l b len hl
    simp only [StaysOnConn, uvReadInto, Code.path_ite]
    refine ⟨fun _ => hrecv _ hl, fun _ => ?_⟩
    cases out with
    | error err => exact hrecv _ hl
    | empty => exact hrecv _ hl
    | data bytes =>
      simp only [Code.path_bind, Code.path_op, Code.path_modify]
      refine ⟨hl, fun _ _ => hrecv _ ?_⟩
      exact hl.of_eq ⟨rfl, rfl, rfl, rfl, rfl, .inl rfl⟩ rfl rfl rfl rfl rfl rfl ⟨rfl, rfl, rfl⟩
  have hl := OnConn.refl (Q := Q) (h := h) (i := i) io
  simp only [StaysOnConn, uvRead, onRecvAllocCb, getLink, modifyLink, Code.path_bind, Code.path_get, Code.path_pure, hd,
    Code.path_ite, Code.path_op]
  refine ⟨fun _ => ⟨hl, ?_⟩, fun hsome => ?_⟩
  · rintro (_ | b) -
    · exact hrecv _ hl
    have hl₁ := hl.setLink (f := fun link => { link with readBuffer := some b }) fun _ => ⟨rfl, rfl, rfl⟩
    simp only [Code.path_bind, Code.path_modify, Code.path_get, Code.path_pure, Io.setLink_link_self, Code.path_op]
    exact ⟨hl₁, fun len _ => hinto b len hl₁⟩
  · cases hb : (io.link i).readBuffer with
    | none => exact absurd hb hsome
    | some b =>
      simp only [Code.path_bind, Code.path_op, Code.path_pure]
      exact ⟨hl, fun len _ => hinto b len hl⟩

theorem onOutboundConnectionCb_onConn {q : Nat} (hd : (io.connectReqs q).data = some i)
    (hh : (io.connectReqs q).handle = some h)
    (hQ : ∀ evt : Event, evt.type = .clientOpen → evt.cmdId = (io.link i).cmdOpenId → Q ⟨evt, h⟩) (status : Int)
    (out : ConnectedOut) : StaysOnConn can Q h i io (onOutboundConnectionCb q status out) io := by
  have hl := OnConn.refl (Q := Q) (h := h) (i := i) io
  have hundef : ∀ {l : Io}, OnConn Q h i io l → OnConn Q h i io { l with phase := .undefined } :=
    fun hl => hl.of_eq ⟨rfl, rfl, rfl, rfl, rfl, .inr rfl⟩ rfl rfl rfl rfl rfl rfl ⟨rfl, rfl, rfl⟩
  have hcleanup : ∀ {l : Io}, OnConn Q h i io l →
      StaysOnConn can Q h i io (onOutboundConnectionCbCleanup q (some (i, h))) l := by
    intro l hl
    simp only [StaysOnConn, onOutboundConnectionCbCleanup, modifyLink, Code.path_bind, Code.path_modify]
    exact (hl.releaseConnectReq q).giveUp
  simp only [StaysOnConn, onOutboundConnectionCb, getLink, Code.path_bind, Code.path_get, Code.path_pure, hd, hh,
    Code.path_ite]
  refine ⟨fun _ => ?_, fun _ => ?_⟩
  · simp only [onOutboundConnectionCbCleanup, Code.path_bind, Code.path_modify]
    exact hundef (hl.releaseConnectReq q)
  cases hpriv : (io.link i).priv with
  | none => exact hundef hl
  | some h' =>
    simp only [Code.path_ite, Code.path_bind]
    refine ⟨fun _ => hundef hl, fun heq => ?_⟩
    obtain rfl : h' = h := Option.some.inj (not_not.1 heq)
    refine linkEndpoints_path _ fun f ok _ => ?_
    have hl₁ := hl.setLink (f := fun link => { link with endpointRemote := f link }) fun _ => ⟨rfl, rfl, rfl⟩
    refine ⟨fun _ => hcleanup hl₁, fun _ => ?_⟩
    simp only [Code.path_op]
    refine ⟨hl₁, ?_⟩
    rintro (_ | ⟨e, evt⟩) -
    · exact hcleanup hl₁
    have hl₂ : OnConn Q h' i io
        { io.setLink i fun link => { link with endpointRemote := f link } with hand := some e } :=
      hl₁.of_eq ⟨rfl, rfl, rfl, rfl, rfl, .inl rfl⟩ rfl rfl rfl rfl rfl rfl ⟨rfl, rfl, rfl⟩
    simp only [readyPush, modifyLink, Code.path_bind, Code.path_modify, Code.path_get, Code.path_pure, Code.path_op,
      Code.path_ite]
    refine ⟨hl₂, fun pushed _ => ?_⟩
    have hl₃ := hl₂.push (e := { evt with
      type := .clientOpen, clientId := ((io.setLink i fun link => { link with endpointRemote := f link }).link i).id
      host := ((io.setLink i fun link => { link with endpointRemote := f link }).link i).endpointRemote
      cmdId := ((io.setLink i fun link => { link with endpointRemote := f link }).link i).cmdOpenId })
      (hQ _ rfl hl₁.link.cmdOpenId) pushed
    have hl₄ := hl₃.setLink (f := fun link => { link with state := .opened }) fun _ => ⟨rfl, rfl, rfl⟩
    exact ⟨fun _ => hcleanup hl₃, fun _ => ⟨fun _ => hcleanup hl₄,
      fun _ => hl₄.uvReadStart.releaseConnectReq q⟩⟩

/-- `svl_link_list_close` changes the free list, the history and the count of refused pushes. -/
theorem closeLink_path {I : Io → Op → Prop} {R : Io → Unit → Prop}
    (hR : ∀ list log refused, list.clientMap = l.linkList.clientMap →
      R { l with linkList := list, linkLog := log, refused := refused } ()) : (closeLink i).path can I R l := by
  simp only [closeLink, Code.path_modify]
  split
  · rename_i list hc
    obtain ⟨-, rfl⟩ := LinkList.svlLinkListClose_eq_some.1 hc
    exact hR _ _ _ rfl
  · exact hR _ _ _ rfl

/-- At the end of `on_close_link_cb` the link may be back in the free list, and the handle is released. -/
def ClosedConn (Q : Pushed → Prop) (h i : Nat) (io l : Io) : Prop :=
  ∃ l' list log refused, OnConn Q h i io l' ∧ list.clientMap = l'.linkList.clientMap ∧
    l = ({ l' with linkList := list, linkLog := log, refused := refused } : Io).releaseHandle h

private theorem closeEvent_onConn (hcan : Promised can E) (hl : OnConn Q h i io l)
    (hQ : ∀ evt : Event, evt.type = .clientClose → evt.cmdId = (io.link i).cmdCloseId → Q ⟨evt, h⟩) :
    Code.path can (fun l _ => OnConn Q h i io l) (do
      let some (e, evtClose) ← perform (.eventFreePop .clientClose) | onCloseHandleCb h
      modify fun io => { io with hand := some e }
      let link ← getLink i
      let _ ← readyPush e { evtClose with clientId := link.id, errorCode := 0, cmdId := link.cmdCloseId } h
      closeLink i
      onCloseHandleCb h) (fun l _ => ClosedConn Q h i io l) l := by
  simp only [Code.path_bind, Code.path_op]
  refine ⟨hl, ?_⟩
  rintro (_ | ⟨e, evt⟩) hr
  · exact ⟨l, l.linkList, l.linkLog, l.refused, hl, rfl, rfl⟩
  have ht := hcan.popType _ _ _ _ hr
  have hl₁ : OnConn Q h i io { l with hand := some e } :=
    hl.of_eq ⟨rfl, rfl, rfl, rfl, rfl, .inl rfl⟩ rfl rfl rfl rfl rfl rfl ⟨rfl, rfl, rfl⟩
  simp only [getLink, readyPush, onCloseHandleCb, Code.path_bind, Code.path_op, Code.path_modify, Code.path_get,
    Code.path_pure]
  refine ⟨hl₁, fun pushed _ => closeLink_path fun list log refused hmap => ?_⟩
  have hl₂ := hl₁.push (e := { evt with
    clientId := (l.link i).id, errorCode := 0, cmdId := (l.link i).cmdCloseId }) (hQ _ ht hl.link.cmdCloseId) pushed
  exact ⟨_, list, log, refused, hl₂, hmap, rfl⟩

theorem onCloseLinkCb_onConn (hcan : Promised can E) (hd : (io.handles h).data = some i)
    (hQ : ∀ evt : Event, evt.type = .clientClose → evt.cmdId = (io.link i).cmdCloseId → Q ⟨evt, h⟩) :
    (onCloseLinkCb h).path can (fun l _ => OnConn Q h i io l) (fun l _ => ClosedConn Q h i io l) io := by
  have hl := (OnConn.refl (Q := Q) (h := h) (i := i) io).setLink (f := fun link => { link with state := .closed })
    fun _ => ⟨rfl, rfl, rfl⟩
  simp only [onCloseLinkCb, releaseReadBuffer, getLink, modifyLink, Code.path_bind, Code.path_get, Code.path_modify,
    Code.path_pure, hd]
  cases hb : ((io.setLink i fun link => { link with state := .closed }).link i).readBuffer with
  | none => exact closeEvent_onConn hcan hl hQ
  | some b =>
    simp only [Code.path_bind, Code.path_op, Code.path_modify]
    exact ⟨hl, fun _ _ => closeEvent_onConn hcan (hl.setLink fun _ => ⟨rfl, rfl, rfl⟩) hQ⟩

end Parts

/-! ### New connections -/

section New

variable {n : Nat} {E : Premises} {can : Io → (o : Op) → o.Res → Prop} {R : Io → Prop} {cmdOpen : Cmd}

/-- A client handle that was made and got no link that it keeps: it was not initialised, or it is closing. -/
structure Handle.Stray (x : Handle) (loop : Nat) : Prop where
  kind : x.kind = .tcpClient
  loop : x.loop = loop
  closing : x.isInit = true → x.closing = some .handle
  closed : x.closed = false
  released : x.released = 0

/-- From `io` to `l` at most one connect request was made, and it was not used. -/
structure SpareReq (io l : Io) : Prop where
  count : io.connectReqCount ≤ l.connectReqCount
  reqs : ∀ q, l.connectReqs q = io.connectReqs q ∨ q < l.connectReqCount ∧ io.connectReqCount ≤ q ∧
    (l.connectReqs q).pending = false

theorem SpareReq.same {io l : Io} (hr : l.connectReqs = io.connectReqs) (hc : l.connectReqCount = io.connectReqCount) :
    SpareReq io l := ⟨Nat.le_of_eq hc.symm, fun _ => .inl (by rw [hr])⟩

theorem SpareReq.made {io l : Io} {r : ConnectReq}
    (hr : l.connectReqs = Function.update io.connectReqs io.connectReqCount r)
    (hp : r.pending = false) (hc : l.connectReqCount = io.connectReqCount + 1) : SpareReq io l := by
  refine ⟨by omega, fun q => ?_⟩
  by_cases hq : q = io.connectReqCount
  · subst hq
    refine .inr ⟨by omega, Nat.le_refl _, ?_⟩
    rwa [hr, Function.update_self]
  · exact .inl (by rw [hr, Function.update_of_ne hq])

/-- From `io` to `l` a stray handle was made, for the command `cmd` if there was one. -/
structure MadeStray (cmd : Option Cmd) (io l : Io) : Prop extends SameLoop io l where
  handles : ∃ x : Handle, x.Stray io.loop ∧ (x.openCmd = none ∨ x.openCmd = cmd) ∧
    l.handles = Function.update io.handles io.handleCount x
  count : l.handleCount = io.handleCount + 1
  reqs : SpareReq io l
  sends : l.writes = io.writes ∧ l.sendReqs = io.sendReqs
  links : ∀ j, j ∉ io.linkList.clientListFree.items → l.link j = io.link j
  handled : l.handled = io.handled
  pushed : l.pushed = io.pushed

/-- A new handle is tied to the link `i`, taken from the free list, whose record becomes `f` of what it was. -/
def Io.attach (io : Io) (i : Nat) (list : LinkList) (cmd : Option Cmd) (f : Link → Link) : Io := { io with
  linkList := { list with clientMap := Function.update list.clientMap i (f (list.clientMap i)) }
  handles := Function.update io.handles io.handleCount
    { kind := .tcpClient, loop := io.loop, isInit := true, data := some i, openCmd := cmd }
  handleCount := io.handleCount + 1
  linkLog := io.linkLog ++ [.opened i] }

/-- The link of an accepted connection -/
def Link.accept (h : Nat) (link : Link) : Link := { link with
  priv := some h, readState := .header, state := .opened, errorCode := .zero, readBuffer := none, lastMsgId := 0 }

/-- The link of a connection that is being opened -/
def Link.dial (h id : Nat) (link : Link) : Link := { link with
  priv := some h, readState := .header, state := .new, errorCode := .zero, readBuffer := none, cmdOpenId := id }

variable {list : LinkList} {cmd : Option Cmd} {f : Link → Link}

@[simp] theorem Io.attach_handles_self : (io.attach i list cmd f).handles io.handleCount =
    { kind := .tcpClient, loop := io.loop, isInit := true, data := some i, openCmd := cmd } := Function.update_self ..

theorem Io.attach_handles_ne (hne : h ≠ io.handleCount) : (io.attach i list cmd f).handles h = io.handles h :=
  Function.update_of_ne hne _ _

theorem Io.attach_link_self (ho : io.linkList.svlLinkListOpen = some (i, list)) (cmd : Option Cmd) (f : Link → Link) :
    (io.attach i list cmd f).link i = f { io.link i with cmdOpenId := cmdInvalid, cmdCloseId := cmdInvalid } := by
  have hmap := (LinkList.svlLinkListOpen_eq_some.1 ho).2.2.2
  simp [Io.attach, Io.link, hmap]

theorem Io.attach_link_ne (ho : io.linkList.svlLinkListOpen = some (i, list)) {j : Nat} (hne : j ≠ i)
    (cmd : Option Cmd) (f : Link → Link) : (io.attach i list cmd f).link j = io.link j := by
  have hmap := (LinkList.svlLinkListOpen_eq_some.1 ho).2.2.2
  simp [Io.attach, Io.link, hmap, Function.update_of_ne hne]

/-- A new connection is accepted: it stays stray, or it is tied to a link and then a connection like any other. -/
theorem onInboundConnectionCb_path {out : InboundOut} (h₀ : R io)
    (hstray : ∀ l, MadeStray none io l → (out.tcpInit = 0 → (l.handles io.handleCount).isInit = true) → R l)
    (hconn : ∀ i list, io.linkList.svlLinkListOpen = some (i, list) → ∀ l,
      OnConn Q io.handleCount i (io.attach i list none (Link.accept io.handleCount)) l → R l)
    (hQ : ∀ i list (g : Link → Endpoint) e popped evt, io.linkList.svlLinkListOpen = some (i, list) →
      can ((io.attach i list none (Link.accept io.handleCount)).setLink i fun link =>
      { link with endpointRemote := g link })
        (.eventFreePop .clientOpen) (some (e, popped)) → evt.type = .clientOpen → evt.cmdId = popped.cmdId →
      Q ⟨evt, io.handleCount⟩) (status : Int) :
    (onInboundConnectionCb status out).path can (fun l _ => R l) (fun l _ => R l) io := by
  have hnew : ∀ x : Handle, x.Stray io.loop → x.openCmd = none → (out.tcpInit = 0 → x.isInit = true) → R { io with
      handles := Function.update io.handles io.handleCount x, handleCount := io.handleCount + 1 } :=
    fun x hx hcmd hinit => hstray _ ⟨⟨rfl, rfl, rfl, rfl, rfl, .inl rfl⟩, ⟨x, hx, .inl hcmd, rfl⟩, rfl, .same rfl rfl,
      ⟨rfl, rfl⟩, fun _ _ => rfl, rfl, rfl⟩ (by simpa using hinit)
  have hstray' : ∀ l : Io, l = (io.acquireHandle .tcpClient).uvInit io.handleCount →
    R (l.uvClose io.handleCount .handle) := by
    rintro _ rfl
    simpa [Io.uvClose, Io.uvInit, Io.setHandle, Io.acquireHandle] using
      hnew { kind := .tcpClient, loop := io.loop, isInit := true, closing := some .handle, closes := 1 }
        ⟨rfl, rfl, by simp, rfl, rfl⟩ rfl fun _ => rfl
  simp only [onInboundConnectionCb, acquireClientHandle, openLink, Code.path_ite, Code.path_bind, Code.path_get,
    Code.path_pure, Code.path_modify]
  refine ⟨fun _ => h₀, fun _ =>
    ⟨fun _ => h₀, fun _ => ⟨fun hinit => ?_, fun _ => ⟨fun _ => hstray' _ rfl, fun _ => ?_⟩⟩⟩⟩
  · exact hnew _ ⟨rfl, rfl, by simp, rfl, rfl⟩ rfl fun h => absurd h hinit
  cases hopen : ((io.acquireHandle .tcpClient).uvInit io.handleCount).linkList.svlLinkListOpen with
  | none => exact hstray' _ rfl
  | some x =>
    obtain ⟨i, list⟩ := x
    have hopen' : io.linkList.svlLinkListOpen = some (i, list) := hopen
    simp only [modifyLink, Code.path_bind, Code.path_modify, Code.path_pure]
    refine linkEndpoints_path _ fun g ok _ => ?_
    set l₀ := io.attach i list none (Link.accept io.handleCount) with hl₀
    have he : ((({ (io.acquireHandle .tcpClient).uvInit io.handleCount with
        linkList := list, linkLog := io.linkLog ++ [.opened i] } : Io).setHandle io.handleCount fun h => { h with
          data := some i }).setLink i fun link => { link with
        priv := some io.handleCount, readState := .header, state := .opened, errorCode := .zero, readBuffer := none
        lastMsgId := 0 }) = l₀ := by
      simp [hl₀, Io.attach, Link.accept, Io.acquireHandle, Io.uvInit, Io.setHandle, Io.setLink]
    have he' : ((io.acquireHandle .tcpClient).uvInit io.handleCount).linkLog = io.linkLog := rfl
    rw [he', he]
    have hin : ∀ {l : Io}, OnConn Q io.handleCount i l₀ l → R l := fun hl => hconn i list hopen' _ hl
    have hcleanup : ∀ {l : Io}, OnConn Q io.handleCount i l₀ l →
        (onInboundConnectionCbCleanup io.handleCount (some i) true).path can (fun l _ => R l) (fun l _ => R l) l :=
      fun hl => hin hl.giveUp
    have hl₁ := (OnConn.refl (Q := Q) (h := io.handleCount) (i := i) l₀).setLink
      (f := fun link => { link with endpointRemote := g link }) fun _ => ⟨rfl, rfl, rfl⟩
    simp only [Code.path_ite, Code.path_bind, Code.path_op]
    refine ⟨fun _ => hcleanup hl₁, fun _ => ⟨hin hl₁, ?_⟩⟩
    rintro (_ | ⟨e, evt⟩) hr
    · exact hcleanup hl₁
    have hl₂ : OnConn Q io.handleCount i l₀
        { l₀.setLink i fun link => { link with endpointRemote := g link } with hand := some e } :=
      hl₁.of_eq ⟨rfl, rfl, rfl, rfl, rfl, .inl rfl⟩ rfl rfl rfl rfl rfl rfl ⟨rfl, rfl, rfl⟩
    simp only [readyPush, getLink, Code.path_bind, Code.path_modify, Code.path_get, Code.path_pure, Code.path_op,
      Code.path_ite]
    refine ⟨hin hl₂, fun pushed _ => ?_⟩
    have hl₃ := hl₂.push (e := { evt with
      type := .clientOpen, clientId := ((l₀.setLink i fun link => { link with endpointRemote := g link }).link i).id
      host := ((l₀.setLink i fun link => { link with endpointRemote := g link }).link i).endpointRemote })
      (hQ i list g e evt _ hopen' hr rfl rfl) pushed
    exact ⟨fun _ => hcleanup hl₃, fun _ => ⟨fun _ => hcleanup hl₃, fun _ => hin hl₃.uvReadStart⟩⟩

/-- From `io` to `l` a connect was started for the command `cmd`, on a new handle, a new request and the link `i`. -/
structure Dialled (io : Io) (cmd : Cmd) (i : Nat) (l : Io) : Prop extends SameLoop io l where
  handles : l.handles = Function.update io.handles io.handleCount
    { kind := .tcpClient, loop := io.loop, isInit := true, data := some i, connecting := true, openCmd := some cmd }
  count : l.handleCount = io.handleCount + 1
  reqs : ∀ q, q ≠ io.connectReqCount → l.connectReqs q = io.connectReqs q
  req : l.connectReqs io.connectReqCount = { data := some i, handle := some io.handleCount, pending := true }
  reqCount : l.connectReqCount = io.connectReqCount + 1
  sends : l.writes = io.writes ∧ l.sendReqs = io.sendReqs
  links : ∀ j, j ≠ i → l.link j = io.link j
  link : (l.link i).cmdOpenId = cmd.id ∧ (l.link i).cmdCloseId = cmdInvalid
  handled : l.handled = io.handled
  pushed : l.pushed = io.pushed

/-- The calls that start a connect all succeed, and there is a free link. -/
def CmdOut.Dials (out : CmdOut) (io : Io) : Prop :=
  out.acquireHandle = true ∧ out.tcpInit = 0 ∧ out.acquireReq = true ∧ out.tcpConnect = 0 ∧
    io.linkList.clientListFree.items ≠ []

/-- `handle_cmd_open`: a connect is started, or else nothing is made or a stray handle is. -/
theorem handleCmdOpen_path {I : Io → Op → Prop} {out : CmdOut} (h₀ : ¬ out.Dials io → R io)
    (hstray : ¬ out.Dials io → ∀ l, MadeStray (some cmdOpen) io l →
      (out.tcpInit = 0 → (l.handles io.handleCount).isInit = true) → R l)
    (hdial : ∀ i list l, io.linkList.svlLinkListOpen = some (i, list) → Dialled io cmdOpen i l → R l) :
    (handleCmdOpen cmdOpen out).path can I (fun l _ => R l) io := by
  have hnew : ∀ {l : Io} {x : Handle}, ¬ out.Dials io → x.Stray io.loop →
      x.openCmd = none ∨ x.openCmd = some cmdOpen → (out.tcpInit = 0 → x.isInit = true) → SameLoop io l →
      l.handles = Function.update io.handles io.handleCount x → l.handleCount = io.handleCount + 1 →
      SpareReq io l → l.writes = io.writes ∧ l.sendReqs = io.sendReqs →
      (∀ j, j ∉ io.linkList.clientListFree.items → l.link j = io.link j) → l.handled = io.handled →
      l.pushed = io.pushed → R l :=
    fun hno hx hcmd hinit hs hh hc hr hw hk hd hp => hstray hno _ ⟨hs, ⟨_, hx, hcmd, hh⟩, hc, hr, hw, hk, hd, hp⟩
      (by rw [hh, Function.update_self]; exact hinit)
  have hloop : ∀ {l : Io}, l.loop = io.loop → l.loopIsInit = io.loopIsInit → l.uvLoop = io.uvLoop →
      l.blocks = io.blocks → l.loopPtrs = io.loopPtrs → l.phase = io.phase → SameLoop io l :=
    fun h₁ h₂ h₃ h₄ h₅ h₆ => ⟨h₁, h₂, h₃, h₄, h₅, .inl h₆⟩
  simp only [handleCmdOpen, acquireClientHandle, acquireConnectReq, openLink, Code.path_ite, Code.path_bind,
    Code.path_get, Code.path_pure, Code.path_modify]
  refine ⟨fun hacq => h₀ fun hd => by simp [hd.1] at hacq, fun _ => ⟨fun hinit => ?_, fun _ => ⟨fun hreq => ?_,
    fun _ => ?_⟩⟩⟩
  · simp only [handleCmdOpenCleanup, Code.path_modify]
    refine hnew (x := { kind := .tcpClient, loop := io.loop, closing := some .handle, closes := 1 })
      (fun hd => hinit hd.2.1) ⟨rfl, rfl, by simp, rfl, rfl⟩ (.inl rfl) (fun h => absurd h hinit)
      (hloop rfl rfl rfl rfl rfl rfl) ?_ rfl (.same rfl rfl) ⟨rfl, rfl⟩ (fun _ _ => rfl) rfl rfl
    simp [Io.uvClose, Io.setHandle, Io.acquireHandle]
  · simp only [handleCmdOpenCleanup]
    refine hnew (x := { kind := .tcpClient, loop := io.loop, isInit := true, closing := some .handle, closes := 1 })
      (fun hd => by simp [hd.2.2.1] at hreq) ⟨rfl, rfl, by simp, rfl, rfl⟩ (.inl rfl) (fun _ => rfl)
      (hloop rfl rfl rfl rfl rfl rfl) ?_ rfl (.same rfl rfl) ⟨rfl, rfl⟩ (fun _ _ => rfl) rfl rfl
    simp [Io.uvClose, Io.uvInit, Io.setHandle, Io.acquireHandle]
  cases hopen : ((io.acquireHandle .tcpClient).uvInit io.handleCount).acquireConnectReq.linkList.svlLinkListOpen with
  | none =>
    refine hnew (x := { kind := .tcpClient, loop := io.loop, isInit := true, closing := some .handle, closes := 1 })
      (fun hd => hd.2.2.2.2 (LinkList.svlLinkListOpen_eq_none.1 hopen)) ⟨rfl, rfl, by simp, rfl, rfl⟩ (.inl rfl)
      (fun _ => rfl) (hloop rfl rfl rfl rfl rfl rfl) ?_ rfl (.made (r := { released := 1 }) ?_ rfl rfl) ⟨rfl, rfl⟩
      (fun _ _ => rfl) rfl rfl
    all_goals simp [Io.uvClose, Io.releaseConnectReq, Io.setConnectReq, Io.uvInit, Io.setHandle, Io.acquireHandle,
      Io.acquireConnectReq]
  | some x =>
    obtain ⟨i, list⟩ := x
    have hopen' : io.linkList.svlLinkListOpen = some (i, list) := hopen
    obtain ⟨hitems, -, -, hmap⟩ := LinkList.svlLinkListOpen_eq_some.1 hopen'
    set l₀ : Io := { io.attach i list (some cmdOpen) (Link.dial io.handleCount cmdOpen.id) with
      connectReqs := Function.update io.connectReqs io.connectReqCount { data := some i }
      connectReqCount := io.connectReqCount + 1 } with hl₀
    have he : ((({ ((io.acquireHandle .tcpClient).uvInit io.handleCount).acquireConnectReq with
          linkList := list, linkLog := io.linkLog ++ [.opened i] } : Io).setLink i fun link => { link with
        priv := some io.handleCount, readState := .header, state := .new, errorCode := .zero, readBuffer := none
        cmdOpenId := cmdOpen.id }).setConnectReq io.connectReqCount fun q => { q with data := some i }).setHandle
        io.handleCount (fun h => { h with data := some i, openCmd := some cmdOpen }) = l₀ := by
      simp [hl₀, Io.attach, Link.dial, Io.acquireHandle, Io.acquireConnectReq, Io.uvInit, Io.setHandle, Io.setLink,
        Io.setConnectReq]
    have hlog : ((io.acquireHandle .tcpClient).uvInit io.handleCount).acquireConnectReq.linkLog = io.linkLog := rfl
    have hcount : ((io.acquireHandle .tcpClient).uvInit io.handleCount).connectReqCount = io.connectReqCount := rfl
    simp only [modifyLink, Code.path_bind, Code.path_modify, Code.path_pure, Code.path_ite]
    rw [hlog, hcount, he]
    have hlinks : ∀ j, j ≠ i → l₀.link j = io.link j := fun j hne =>
      Io.attach_link_ne hopen' hne (some cmdOpen) (Link.dial io.handleCount cmdOpen.id)
    have hlink : (l₀.link i).cmdOpenId = cmdOpen.id ∧ (l₀.link i).cmdCloseId = cmdInvalid := by
      have := Io.attach_link_self hopen' (some cmdOpen) (Link.dial io.handleCount cmdOpen.id)
      exact ⟨congrArg Link.cmdOpenId this, congrArg Link.cmdCloseId this⟩
    have hreqs : l₀.connectReqs = Function.update io.connectReqs io.connectReqCount { data := some i } := rfl
    have hsame : SameLoop io l₀ := hloop rfl rfl rfl rfl rfl rfl
    have hhandles : l₀.handles = Function.update io.handles io.handleCount
        { kind := .tcpClient, loop := io.loop, isInit := true, data := some i, openCmd := some cmdOpen } := rfl
    have hcounts : l₀.handleCount = io.handleCount + 1 ∧ l₀.connectReqCount = io.connectReqCount + 1 := ⟨rfl, rfl⟩
    have hrest : (l₀.writes = io.writes ∧ l₀.sendReqs = io.sendReqs) ∧ l₀.handled = io.handled ∧
      l₀.pushed = io.pushed :=
      ⟨⟨rfl, rfl⟩, rfl, rfl⟩
    clear_value l₀
    refine ⟨fun hconn => ?_, fun _ => hdial i list _ hopen' ⟨?_, ?_, hcounts.1, fun q hq => ?_, ?_, hcounts.2, hrest.1,
      hlinks, hlink, hrest.2.1, hrest.2.2⟩⟩
    · simp only [handleCmdOpenCleanup, Code.path_bind, Code.path_modify]
      refine closeLink_path fun list' log refused hmap' => ?_
      refine hnew (x := { kind := .tcpClient, loop := io.loop, data := some i, isInit := true, openCmd := some cmdOpen
                          closing := some .handle, closes := 1 })
        (fun hd => hconn hd.2.2.2.1) ⟨rfl, rfl, by simp, rfl, rfl⟩ (.inr rfl) (fun _ => rfl)
        ⟨hsame.loop, hsame.isInit, hsame.uvLoop, hsame.blocks, hsame.ptrs, hsame.phase⟩ ?_ hcounts.1
        (.made (r := { data := some i, released := 1 }) ?_ rfl hcounts.2) hrest.1 (fun j hj => ?_) hrest.2.1 hrest.2.2
      · simp [Io.uvClose, Io.setHandle, Io.releaseConnectReq, Io.setConnectReq, hhandles]
      · simp [Io.uvClose, Io.setHandle, Io.releaseConnectReq, Io.setConnectReq, hreqs]
      · have hne : j ≠ i := by
          rintro rfl
          exact hj (by simp [hitems])
        rw [← hlinks j hne]
        exact congrFun hmap' j
    · exact ⟨hsame.loop, hsame.isInit, hsame.uvLoop, hsame.blocks, hsame.ptrs, hsame.phase⟩
    · simp [Io.uvTcpConnect, Io.setHandle, Io.setConnectReq, hhandles]
    · simp [Io.uvTcpConnect, Io.setHandle, Io.setConnectReq, Function.update_of_ne hq, hreqs]
    · simp [Io.uvTcpConnect, Io.setHandle, Io.setConnectReq, hreqs]

end New

end ServerLynx
