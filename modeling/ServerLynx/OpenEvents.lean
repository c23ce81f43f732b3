import ServerLynx.IoPaths

/-!
# The addresses that an `OPEN` event tells

`on_inbound_connection_cb` and `on_outbound_connection_cb` ask libuv for the address of the peer and for the local one,
and convert the answers into the link before they push the `OPEN` event.
-/

namespace ServerLynx

open Threads

variable {io : Io} {i : Nat} {out : ConnectedOut} {d : IoRun} {p : Prog Op Op.Res Io Unit} {e : Nat} {evt : Event}

/-- The callback accepts a connection on the link `i` or completes a connect on it, and libuv answers with `out`. -/
def IoRun.Connects (d : IoRun) (io : Io) (out : ConnectedOut) (i : Nat) : Prop :=
  match d with
  | .inbound _ out' => out'.toConnectedOut = out ∧ ∃ list, io.linkList.svlLinkListOpen = some (i, list)
  | .outbound req _ out' => out' = out ∧ (io.connectReqs req).data = some i
  | _ => False

/-- The event and the link tell the address of the peer, and the link tells the local one. -/
structure NamesPeer (link : Link) (evt : Event) (out : ConnectedOut) : Prop where
  host : evt.host = out.peer
  endpointRemote : link.endpointRemote = out.peer
  endpointLocal : link.endpointLocal = out.sock

/-- What the code pushes names the local address, and the `endpoint_local` of the link is as it was. -/
def NamesLocal (io : Io) (i : Nat) (out : ConnectedOut) (l : Io) (o : Op) : Prop :=
  ∀ e evt, o = .eventReadyPush e evt → evt.host = out.sock ∧ (l.link i).endpointRemote = out.sock ∧
    (l.link i).endpointLocal = (io.link i).endpointLocal

/-- The address calls fail, or leave the local address in `endpoint_remote`. -/
private theorem linkEndpoints_sock {can : Io → (o : Op) → o.Res → Prop} {I : Io → Op → Prop} {Q : Io → Bool → Prop}
    {l : Io} (out : ConnectedOut) (hfail : ∀ l', Q l' false)
    (hok : Q (l.setLink i fun link => { link with endpointRemote := out.sock }) true) :
    (linkEndpoints i out).path can I Q l := by
  simp only [linkEndpoints, modifyLink, Code.path_bind, Code.path_ite, Code.path_modify, Code.path_pure,
    Io.setLink_setLink]
  exact ⟨fun _ => hfail _, fun _ => ⟨fun _ => hfail _, fun _ => ⟨fun _ => hfail _, fun _ => ⟨fun _ => hfail _,
    fun _ => hok⟩⟩⟩⟩

private theorem pushOpen_names {l : Io} {h : Nat} {f : Event → Link → Event} {cleanup : IoM Unit} {k : Bool → IoM Unit}
    (hlocal : (l.link i).endpointLocal = (io.link i).endpointLocal) (hremote : (l.link i).endpointRemote = out.sock)
    (hhost : ∀ evt link, (f evt link).host = link.endpointRemote)
    (hcleanup : ∀ l, cleanup.path (fun _ _ _ => True) (NamesLocal io i out) (fun _ _ => True) l)
    (hk : ∀ pushed l, (k pushed).path (fun _ _ _ => True) (NamesLocal io i out) (fun _ _ => True) l) :
    Code.path (fun _ _ _ => True) (NamesLocal io i out) (do
      let some (e, openEvt) ← perform (.eventFreePop .clientOpen) | cleanup
      modify fun io => { io with hand := some e }
      let link ← getLink i
      let pushed ← readyPush e (f openEvt link) h
      k pushed) (fun _ _ => True) l := by
  simp only [Code.path_bind, Code.path_op]
  refine ⟨by simp [NamesLocal], ?_⟩
  rintro (_ | ⟨e, evt⟩) -
  · exact hcleanup _
  simp only [Code.path_bind, Code.path_modify, getLink, Code.path_get, Code.path_pure, readyPush, Code.path_op]
  refine ⟨fun e' evt' heq => ?_, fun pushed _ => hk pushed _⟩
  obtain ⟨rfl, rfl⟩ := Op.eventReadyPush.inj heq
  exact ⟨(hhost ..).trans hremote, hremote, hlocal⟩

private theorem onInboundConnectionCb_names {list : LinkList} (ho : io.linkList.svlLinkListOpen = some (i, list))
    (status : Int) (out : InboundOut) :
    (onInboundConnectionCb status out).path (fun _ _ _ => True) (NamesLocal io i out.toConnectedOut) (fun _ _ => True)
      io := by
  have hcleanup : ∀ h link init l, (onInboundConnectionCbCleanup h link init).path (fun _ _ _ => True)
      (NamesLocal io i out.toConnectedOut) (fun _ _ => True) l := by
    intro h link init l
    cases link <;> cases init <;> exact trivial
  simp only [onInboundConnectionCb, acquireClientHandle, openLink, Code.path_ite, Code.path_bind, Code.path_get,
    Code.path_pure, Code.path_modify]
  refine ⟨fun _ => trivial, fun _ => ⟨fun _ => trivial, fun _ => ⟨fun _ => hcleanup .., fun _ => ⟨fun _ => hcleanup ..,
    fun _ => ?_⟩⟩⟩⟩
  have ho' : ((io.acquireHandle .tcpClient).uvInit io.handleCount).linkList.svlLinkListOpen = some (i, list) := ho
  rw [ho']
  simp only [modifyLink, Code.path_bind, Code.path_modify, Code.path_pure]
  refine linkEndpoints_sock _ (fun _ => ?_) ?_
  · simp only [Bool.not_false, if_true]
    exact hcleanup ..
  simp only [Bool.not_true, Bool.false_eq_true, if_false]
  have hmap := (LinkList.svlLinkListOpen_eq_some.1 ho).2.2.2
  refine pushOpen_names ?_ ?_ (fun _ _ => rfl) (hcleanup _ _ _) fun pushed l => ?_
  · simp [Io.link, Io.setLink, Io.setHandle, hmap]
  · simp [Io.setLink_link_self]
  · simp only [Code.path_ite, Code.path_modify]
    exact ⟨fun _ => hcleanup .., fun _ => ⟨fun _ => hcleanup .., fun _ => trivial⟩⟩

private theorem onOutboundConnectionCb_names {req : Nat} (hd : (io.connectReqs req).data = some i) (status : Int)
    (out : ConnectedOut) :
    (onOutboundConnectionCb req status out).path (fun _ _ _ => True) (NamesLocal io i out) (fun _ _ => True) io := by
  have hcleanup : ∀ q locals l, (onOutboundConnectionCbCleanup q locals).path (fun _ _ _ => True) (NamesLocal io i out)
      (fun _ _ => True) l := by
    intro q locals l
    cases locals <;> exact trivial
  simp only [onOutboundConnectionCb, Code.path_bind, Code.path_get, hd, Code.path_ite, getLink, Code.path_pure]
  refine ⟨fun _ => hcleanup .., fun _ => ?_⟩
  cases (io.link i).priv with
  | none => exact trivial
  | some h =>
    rw [Code.path_ite]
    refine ⟨fun _ => trivial, fun _ => ?_⟩
    rw [Code.path_bind]
    refine linkEndpoints_sock _ (fun _ => ?_) ?_
    · simp only [Bool.not_false, if_true]
      exact hcleanup ..
    simp only [Bool.not_true, Bool.false_eq_true, if_false]
    refine pushOpen_names ?_ ?_ (fun _ _ => rfl) (hcleanup _ _) fun pushed l => ?_
    · simp [Io.setLink_link_self]
    · simp [Io.setLink_link_self]
    · simp only [Code.path_ite, Code.path_bind, modifyLink, Code.path_modify]
      exact ⟨fun _ => hcleanup .., fun _ => ⟨fun _ => hcleanup .., fun _ => trivial⟩⟩

/-- Each `OPEN` event that is pushed names the peer, as its link does, and the link the local address, if and only if
both addresses are the same and the link holds that one as its local address already. -/
theorem open_names_peer_iff (hd : d.Connects io out i) (hp : (d.code io).Rest p)
    (hpush : p.view.next = some (.eventReadyPush e evt)) :
    NamesPeer (p.view.loc.link i) evt out ↔ out.peer = out.sock ∧ (io.link i).endpointLocal = out.sock := by
  have hpath : (d.code io).path (fun _ _ _ => True) (NamesLocal io i out) (fun _ _ => True) := by
    cases d with
    | inbound status out' =>
      obtain ⟨rfl, list, ho⟩ := hd
      exact onInboundConnectionCb_names ho status out'
    | outbound req status out' =>
      obtain ⟨rfl, hd⟩ := hd
      -- that the request is done changes no link
      have hsame : ∀ l : Io, l = onHandle (fun io => (io.connectReqs req).handle)
          (fun io h => io.setHandle h fun x => { x with connecting := false })
          (io.setConnectReq req fun q => { q with pending := false }) →
          l.link i = io.link i ∧ (l.connectReqs req).data = some i := by
        rintro _ rfl
        unfold onHandle
        split <;> exact ⟨rfl, by simpa [Io.setConnectReq, Io.setHandle] using hd⟩
      obtain ⟨hlink, hdata⟩ := hsame _ rfl
      refine Code.path_mono (fun l o h => ?_) (fun _ _ h => h) (onOutboundConnectionCb_names hdata status out')
      simpa only [NamesLocal, hlink] using h
    | _ => exact hd.elim
  have hrest := hp.path hpath
  cases p with
  | ret l a => simp at hpush
  | act l o k =>
    obtain rfl : o = .eventReadyPush e evt := by simpa using hpush
    obtain ⟨hhost, hremote, hlocal⟩ := hrest.1 e evt rfl
    constructor
    · rintro ⟨h₁, -, h₃⟩
      exact ⟨h₁.symm.trans hhost, hlocal.symm.trans h₃⟩
    · rintro ⟨h₁, h₂⟩
      exact ⟨hhost.trans h₁.symm, hremote.trans h₁.symm, hlocal.trans h₂⟩

private theorem exists_push {out : InboundOut} {host : Endpoint}
    (h : (service.runWhen .any (ServiceConfig.setup 1) startUp).any (fun c => decide
      ((∃ x ∈ c.fst.view.loc.linkList.svlLinkListOpen, (c.fst.view.loc.link x.1).endpointLocal = {}) ∧
        ((service.step c (.run₁ (.inbound 0 out))).bind fun c => service.step c .op₁).any (fun c' =>
          match c'.fst.view.next with
          | some (.eventReadyPush _ evt) => decide (evt.host = host)
          | _ => false) = true)) = true) :
    ∃ c io i e evt, Reach 1 c ∧ IoRun.Connects (.inbound 0 out) io out.toConnectedOut i ∧
      ((IoRun.inbound 0 out).code io).Rest c.fst ∧ c.fst.view.next = some (.eventReadyPush e evt) ∧
      evt.host = host ∧ (io.link i).endpointLocal = {} := by
  obtain ⟨c₀, hc₀, ⟨⟨i, list⟩, ho, hlocal⟩, hs⟩ := exists_reachWhen .any 1 startUp
    (fun c => (∃ x ∈ c.fst.view.loc.linkList.svlLinkListOpen, (c.fst.view.loc.link x.1).endpointLocal = {}) ∧
      ((service.step c (.run₁ (.inbound 0 out))).bind fun c => service.step c .op₁).any (fun c' =>
        match c'.fst.view.next with
        | some (.eventReadyPush _ evt) => decide (evt.host = host)
        | _ => false) = true) h
  obtain ⟨c, hc, hP⟩ := (Option.any_eq_true _ _).1 hs
  obtain ⟨c₁, hc₁, hs⟩ := Option.bind_eq_some_iff.1 hc
  obtain ⟨io, hio, -, rfl⟩ := Machine.step_run₁ hc₁
  have hreach : Reach 1 c := (hc₀.step _ rfl hc₁).step .op₁ rfl hs
  rw [hio] at ho hlocal
  have hrest : ((IoRun.inbound 0 out).code io).Rest c.fst := by
    cases hp : (IoRun.inbound 0 out).code io with
    | ret l a => simp [Machine.step, service, hp] at hs
    | act l o k =>
      obtain ⟨r, sh', -, rfl⟩ := Machine.step_op₁ hp hs
      exact .act r .refl
  split at hP
  · rename_i e evt hnext
    exact ⟨c, io, i, e, evt, hreach, ⟨rfl, list, ho⟩, hrest, hnext, of_decide_eq_true hP, hlocal⟩
  · simp at hP

/-- A connection from an unspecified address to itself is named right. -/
theorem open_names_peer_unspecified : ∃ c io i e evt, Reach 1 c ∧ IoRun.Connects (.inbound 0 {}) io {} i ∧
    ((IoRun.inbound 0 {}).code io).Rest c.fst ∧ c.fst.view.next = some (.eventReadyPush e evt) ∧
    NamesPeer (c.fst.view.loc.link i) evt {} := by
  obtain ⟨c, io, i, e, evt, hc, hd, hrest, hpush, -, hlocal⟩ := @exists_push {} {} (by decide +kernel)
  exact ⟨c, io, i, e, evt, hc, hd, hrest, hpush, (open_names_peer_iff hd hrest hpush).2 ⟨rfl, hlocal⟩⟩

/-- A client of the listener at the address 1 that connects from the address 2 -/
def otherPeer : InboundOut := { peer := ⟨.inet, 2⟩, sock := ⟨.inet, 1⟩ }

/-- The client is accepted, and the `OPEN` event tells the address of the listener. -/
theorem open_names_listener : ∃ c io i e evt, Reach 1 c ∧
    IoRun.Connects (.inbound 0 otherPeer) io otherPeer.toConnectedOut i ∧
    ((IoRun.inbound 0 otherPeer).code io).Rest c.fst ∧ c.fst.view.next = some (.eventReadyPush e evt) ∧
    ¬ NamesPeer (c.fst.view.loc.link i) evt otherPeer.toConnectedOut := by
  obtain ⟨c, io, i, e, evt, hc, hd, hrest, hpush, hhost, -⟩ := @exists_push otherPeer ⟨.inet, 1⟩ (by decide +kernel)
  refine ⟨c, io, i, e, evt, hc, hd, hrest, hpush, fun h => ?_⟩
  exact absurd (hhost.symm.trans h.host) (by decide)

end ServerLynx
