import ServerLynx.Connections
import ServerLynx.Commands

/-!
# The writes in flight

A write request goes from `send_req_list` to `uv_write` and comes back with `on_send_cb`, in an order that libuv
chooses.  In every run each request that libuv holds is that of one `svl_service_cmd_send` call which returned
`TN_SUCCESS`: it points to the message of that call and is tied to the link of its client.  No two requests are those
of one call, and none that libuv holds is filled in again.
-/

namespace ServerLynx

open Threads

variable {n : Nat} {E : Premises} {io l : Io} {can : Io → (o : Op) → o.Res → Prop}

/-- The request `w` is that of the command `y`. -/
structure WriteReq.Carries (w : WriteReq) (y : Handled) : Prop where
  type : y.cmd.type = .clientSend
  acted : y.acted ≠ none
  base : w.base = y.cmd.buffer
  len : w.len = y.cmd.len % 2 ^ 32
  svlLink : w.svlLink = some y.cmd.clientId
  cmdId : w.cmdId = y.cmd.id

/-- The requests that libuv holds are those of commands that were handled, the last one first. -/
structure InFlight (io : Io) : Prop where
  carries : ∀ r ∈ io.writes, ∃ y, io.handled[(io.sendReqs r).cmdNo]? = some y ∧ (io.sendReqs r).Carries y
  order : (io.writes.map fun r => (io.sendReqs r).cmdNo).Pairwise (· > ·)

/-! ### The moves -/

/-- From `io` to `l` no command was handled, and libuv holds the same requests, as they were. -/
structure SameWrites (io l : Io) : Prop where
  writes : l.writes = io.writes
  reqs : ∀ r ∈ io.writes, l.sendReqs r = io.sendReqs r
  handled : l.handled = io.handled

/-- The request `r` is filled in for `cmd`, the next command to be handled, and given to libuv. -/
structure Written (io l : Io) (cmd : Cmd) (r : Nat) : Prop where
  notHeld : r ∉ io.writes
  writes : l.writes = r :: io.writes
  reqs : ∀ r' ∈ io.writes, l.sendReqs r' = io.sendReqs r'
  cmdNo : (l.sendReqs r).cmdNo = io.handled.length
  handled : l.handled = io.handled

namespace InFlight

theorem map_cmdNo (hr : ∀ r ∈ io.writes, l.sendReqs r = io.sendReqs r) :
    (io.writes.map fun r => (l.sendReqs r).cmdNo) = io.writes.map fun r => (io.sendReqs r).cmdNo :=
  List.map_congr_left fun r hm => congrArg _ (hr r hm)

theorem same (hf : InFlight io) (hl : SameWrites io l) : InFlight l where
  carries r hr := by
    rw [hl.writes] at hr
    rw [hl.reqs r hr, hl.handled]
    exact hf.carries r hr
  order := by
    rw [hl.writes, map_cmdNo hl.reqs]
    exact hf.order

/-- libuv gives a request back. -/
theorem erase (hf : InFlight io) (r : Nat) : InFlight { io with writes := io.writes.erase r } where
  carries r' hr' := hf.carries r' (List.mem_of_mem_erase hr')
  order := hf.order.sublist ((List.erase_sublist ..).map _)

/-- The number of a request that libuv holds is below that of the next command. -/
theorem cmdNo_lt (hf : InFlight io) {r : Nat} (hr : r ∈ io.writes) : (io.sendReqs r).cmdNo < io.handled.length := by
  obtain ⟨y, hy, -⟩ := hf.carries r hr
  exact (List.getElem?_eq_some_iff.1 hy).1

/-- A command is handled that wrote nothing. -/
theorem append (hf : InFlight io) {y : Handled} (hw : l.writes = io.writes) (hs : l.sendReqs = io.sendReqs)
    (hl : l.handled = io.handled ++ [y]) : InFlight l where
  carries r hr := by
    rw [hw] at hr
    obtain ⟨y', hy', hc⟩ := hf.carries r hr
    refine ⟨y', ?_, hs ▸ hc⟩
    rw [hs, hl, List.getElem?_append_left (hf.cmdNo_lt hr)]
    exact hy'
  order := by
    rw [hw, hs]
    exact hf.order

/-- A command is handled whose request libuv holds from now on. -/
theorem written (hf : InFlight io) {cmd : Cmd} {r : Nat} (hw : Written io l cmd r) {y : Handled}
    (hc : (l.sendReqs r).Carries y) : InFlight { l with handled := l.handled ++ [y] } where
  carries r' hr' := by
    rw [hw.handled]
    rcases List.mem_cons.1 (hw.writes ▸ hr') with rfl | hr'
    · refine ⟨y, ?_, hc⟩
      rw [hw.cmdNo, List.getElem?_append_right (Nat.le_refl _)]
      simp
    · obtain ⟨y', hy', hc'⟩ := hf.carries r' hr'
      rw [hw.reqs r' hr']
      refine ⟨y', ?_, hc'⟩
      rw [List.getElem?_append_left (hf.cmdNo_lt hr')]
      exact hy'
  order := by
    rw [hw.writes, List.map_cons, map_cmdNo hw.reqs, hw.cmdNo, List.pairwise_cons]
    refine ⟨fun k hk => ?_, hf.order⟩
    obtain ⟨r', hr', rfl⟩ := List.mem_map.1 hk
    exact hf.cmdNo_lt hr'

end InFlight

theorem sameWrites_refl (io : Io) : SameWrites io io := ⟨rfl, fun _ _ => rfl, rfl⟩

/-- The writes are the same where libuv's requests are. -/
theorem sameWrites_of_eq (hw : l.writes = io.writes) (hs : l.sendReqs = io.sendReqs) (hd : l.handled = io.handled) :
    SameWrites io l := ⟨hw, fun _ _ => by rw [hs], hd⟩

/-! ### Commands -/

/-- What the command `cmd` does to the requests: nothing, or one is filled in for it and given to libuv. -/
def WritesFor (io : Io) (cmd : Cmd) (l : Io) (acted : Option Nat) : Prop :=
  SameWrites io l ∨ ∃ r, Written io l cmd r ∧ ∀ b, (l.sendReqs r).Carries ⟨cmd, b, acted⟩

/-- `handle_cmd_send` takes a request that libuv does not hold. -/
private theorem handleCmdSend_writes {I : Io → Op → Prop} (hi : IoInv n E io) (hp : io.phase = .running) {cmd : Cmd}
    (ht : cmd.type = .clientSend) (out : CmdOut) :
    (handleCmdSend cmd out).path can I (fun l acted => WritesFor io cmd l acted) io := by
  simp only [handleCmdSend, pushSendReq, Code.path_bind, Code.path_get]
  cases hu : usableLink io cmd.clientId with
  | none => exact .inl (sameWrites_refl io)
  | some x =>
    obtain ⟨i, h⟩ := x
    obtain ⟨rfl, -⟩ := usableLink_eq_some hi.slots hu
    simp only [Code.path_bind, Code.path_get]
    cases hpop : io.sendReqList.popBack with
    | none => exact .inl (sameWrites_refl io)
    | some y =>
      obtain ⟨r, list⟩ := y
      have hnot : r ∉ io.writes := by
        have hnd : (io.sendReqList.items ++ io.writes).Nodup :=
          (hi.sends.running hp).2.nodup_iff.2 List.nodup_range
        rw [(ListPtr.popBack_eq_some.1 hpop).1] at hnd
        exact fun hr => List.disjoint_of_nodup_append hnd (List.mem_cons_self ..) hr
      have hne : ∀ r' ∈ io.writes, ∀ w, Function.update io.sendReqs r w r' = io.sendReqs r' :=
        fun r' hr' w => Function.update_of_ne (ne_of_mem_of_not_mem hr' hnot) _ _
      simp only [Code.path_bind, Code.path_modify, Code.path_pure, Code.path_ite]
      refine ⟨fun _ => .inl ?_, fun _ => .inr ⟨r, ⟨hnot, rfl, fun r' hr' => hne r' hr' _, ?_, rfl⟩, fun _ => ?_⟩⟩
      · split <;> exact ⟨rfl, fun r' hr' => hne r' hr' _, rfl⟩
      · simp
      · constructor <;> simp [ht]

private theorem handleCmd_writes {I : Io → Op → Prop} (hi : IoInv n E io) (hp : io.phase = .running) (cmd : Cmd)
    (out : CmdOut) :
    (handleCmd cmd out).path can I (fun l acted => WritesFor io cmd l acted) io := by
  unfold handleCmd
  cases ht : cmd.type with
  | clientOpen =>
    simp only [Code.path_bind, Code.path_pure]
    exact Code.path_mono (fun _ _ h => h) (fun _ _ h => .inl h) (handleCmdOpen_path (R := SameWrites io)
      (fun _ => sameWrites_refl io) (fun _ l hl _ => sameWrites_of_eq hl.sends.1 hl.sends.2 hl.handled)
      fun _ _ l _ hl => sameWrites_of_eq hl.sends.1 hl.sends.2 hl.handled)
  | clientClose =>
    simp only [handleCmdClose, modifyLink, Code.path_bind, Code.path_get]
    cases usableLink io cmd.clientId with
    | none => exact .inl (sameWrites_refl io)
    | some x =>
      simp only [Code.path_bind, Code.path_modify, Code.path_pure]
      exact .inl (sameWrites_of_eq rfl rfl rfl)
  | clientSend => exact handleCmdSend_writes hi hp ht out

private theorem onCheckCb_inFlight (hi : IoInv n E io) (hp : io.phase = .running) (hf : InFlight io) (out : CmdOut) :
    KeepsConns can InFlight (onCheckCb out) io := by
  simp only [KeepsConns, onCheckCb, Code.path_bind, Code.path_op]
  refine ⟨hf, ?_⟩
  rintro (_ | cmd) -
  · exact hf.same (sameWrites_of_eq rfl rfl rfl)
  simp only [Code.path_bind, Code.path_get]
  refine Code.path_mono (fun l _ h => h) (fun l acted hl => ?_) (handleCmd_writes hi hp cmd out)
  have hnew : InFlight { l with
      inCheck := true, cmd := some cmd, handled := l.handled ++ [⟨cmd, linkIsOpen io cmd.clientId, acted⟩] } := by
    rcases hl with hl | ⟨r, hw, hc⟩
    · have hf' : InFlight { l with inCheck := true, cmd := some cmd } := hf.same ⟨hl.writes, hl.reqs, hl.handled⟩
      exact hf'.append rfl rfl rfl
    · exact (hf.written hw (hc _)).same ⟨rfl, fun _ _ => rfl, rfl⟩
  simp only [Code.path_modify, Code.path_op]
  exact ⟨hnew, fun _ _ => hnew.same (sameWrites_of_eq rfl rfl rfl)⟩

/-! ### The other callbacks -/

/-- What the IO thread is given to run keeps the requests in order. -/
private theorem IoRun.keeps_inFlight (hcan : Promised can E) (hi : IoInv n E io) (hs : Settled io) (hf : InFlight io)
    {d : IoRun} {sh : Shared} (hr : d.ready sh io = true) : KeepsConns can InFlight d.code io := by
  by_cases hd : d.kind = .service
  · have hmove : ∀ l, ServiceMove io l → InFlight l :=
      fun l hl => hf.same (sameWrites_of_eq hl.conns.writes.1 hl.conns.writes.2 hl.handled)
    exact Code.path_mono (fun l _ hl => hmove l hl) (fun l _ hl => hmove l hl) (IoRun.serviceMove hi hs hr hd)
  -- on a connection that there is
  have hconn : ∀ {Q : Pushed → Prop} {h i : Nat} (io₀ : Io) {l : Io}, SameWrites io io₀ → OnConn Q h i io₀ l →
      InFlight l := fun _ _ h₀ hl => (hf.same h₀).same (sameWrites_of_eq hl.sends.writes hl.sends.sendReqs hl.handled)
  cases d with
  | thread out => exact absurd rfl hd
  | timer => exact absurd rfl hd
  | signal isSigint => exact absurd rfl hd
  | uvRunReturn => exact absurd rfl hd
  | inbound status out =>
    exact onInboundConnectionCb_path (Q := fun _ => True) hf
      (fun l hl _ => hf.same (sameWrites_of_eq hl.sends.1 hl.sends.2 hl.handled))
      (fun i list _ l hl => hconn (io.attach i list none (Link.accept io.handleCount))
        (sameWrites_of_eq rfl rfl rfl) hl) (fun _ _ _ _ _ _ _ _ _ _ => trivial) status
  | outbound q status out =>
    simp only [IoRun.ready, Bool.and_eq_true, decide_eq_true_eq] at hr
    obtain ⟨h, i, hd, hh, -⟩ := hi.connected hs hr.1.1 hr.2
    have hh' : ((io.setConnectReq q fun r => { r with pending := false }).connectReqs q).handle = some h := by
      simpa [Io.setConnectReq] using hh
    simp only [KeepsConns, IoRun.code, Code.path_bind, Code.path_modify, onHandle, hh']
    have hkeep : ∀ l, OnConn (fun _ => True) h i (io.connected q h) l → InFlight l :=
      fun l hl => hconn (io.connected q h) (sameWrites_of_eq rfl rfl rfl) hl
    refine Code.path_mono (fun l _ hl => hkeep l hl) (fun l _ hl => hkeep l hl)
      (onOutboundConnectionCb_onConn (h := h) (i := i) ?_ ?_ (fun _ _ _ => trivial) status out)
    · simpa [Io.connected, Io.setConnectReq, Io.setHandle] using hd
    · simpa [Io.connected, Io.setHandle] using hh'
  | read handle out =>
    simp only [IoRun.ready, Bool.and_eq_true, decide_eq_true_eq] at hr
    obtain ⟨i, hb, -⟩ := hi.reading hs hr.1.1 hr.2
    have hkeep : ∀ l, OnConn (fun _ => True) handle i io l → InFlight l := fun l hl => hconn io (sameWrites_refl io) hl
    exact Code.path_mono (fun l _ hl => hkeep l hl) (fun l _ hl => hkeep l hl)
      (uvRead_onConn hcan (fun _ _ => trivial) hb.holds.data out)
  | close handle =>
    simp only [IoRun.ready, Bool.and_eq_true, decide_eq_true_eq, Bool.not_eq_true'] at hr
    obtain ⟨cb, hcb⟩ := Option.isSome_iff_exists.1 hr.2.1
    simp only [KeepsConns, IoRun.code, uvFinishClose, Code.path_bind, Code.path_modify, Code.path_get,
      Io.setHandle_handles_self, hcb]
    have hfin : SameWrites io (io.setHandle handle fun x => { x with closed := true }) := sameWrites_of_eq rfl rfl rfl
    cases cb with
    | null => exact hf.same hfin
    | handle => exact hf.same (sameWrites_of_eq rfl rfl rfl)
    | link =>
      obtain ⟨i, hcl⟩ := hi.closing hs hr.1.1 hcb hr.2.2
      refine Code.path_mono (fun l _ hl => hconn _ hfin hl) (fun l _ hl => ?_)
        (onCloseLinkCb_onConn (Q := fun _ => True) hcan hcl.holds.data fun _ _ _ => trivial)
      obtain ⟨l', list, log, refused, hl', -, rfl⟩ := hl
      exact (hconn _ hfin hl').same (sameWrites_of_eq rfl rfl rfl)
  | send q =>
    have hback := hf.erase q
    simp only [KeepsConns, IoRun.code, onSendCb, pushSendReq, undefinedBehaviour, Code.path_bind, Code.path_modify,
      Code.path_get]
    split
    · simp only [Code.path_modify]
      split <;> exact hback.same (sameWrites_of_eq rfl rfl rfl)
    · exact hback.same (sameWrites_of_eq rfl rfl rfl)
  | check out =>
    simp only [IoRun.ready, Bool.and_eq_true, decide_eq_true_eq] at hr
    exact onCheckCb_inFlight hi hr.1 hf out

/-! ### Over whole runs -/

theorem inFlight {cond : ServiceCond} {c : ServiceConfig} (hc : ReachWhen cond n c) : InFlight c.fst.view.loc := by
  have hE : Premises.In ⟨False, False, False⟩ cond := ⟨False.elim, False.elim, False.elim, False.elim⟩
  refine Machine.Reach.invariant₁ (I := fun v => InFlight v.loc)
    (K := fun _ v _ => IoInv n ⟨False, False, False⟩ v.loc ∧ (v.next = none → Settled v.loc))
    (fun c hc => ioInv hE hc) ⟨by simp [Io.setup], by simp [Io.setup]⟩ ?_ hc
  rintro d io ⟨sh, v, ⟨hi, hs⟩, hr, -⟩ hf
  exact IoRun.keeps_inFlight (hE.promised _) hi (hs rfl) hf hr

/-- The request `w` is that of a call of `svl_service_cmd_send` which succeeded, the one of its number among the calls
that did. -/
def WriteReq.IsCall (w : WriteReq) (succeeded : List Returned) : Prop :=
  ∃ r clientId msglen id, succeeded[w.cmdNo]? = some r ∧ r.call = .cmdSend clientId w.base msglen id ∧
    r.cmdId = w.cmdId ∧ w.len = msglen % 2 ^ 32 ∧ w.svlLink = some clientId

/-- A command of the type `TN_CMD_CLIENT_SEND` was issued by `svl_service_cmd_send`. -/
theorem Issued.cmdSend {r : Returned} {c : Cmd} (h : Issued r c) (ht : c.type = .clientSend) :
    ∃ id, r.call = .cmdSend c.clientId c.buffer c.len id ∧ r.cmdId = c.id := by
  obtain ⟨hid, h⟩ := h
  cases hcall : r.call with
  | cmdSend clientId msg msglen id =>
    simp only [hcall] at h
    obtain ⟨-, rfl, rfl, rfl⟩ := h
    exact ⟨id, rfl, hid.symm⟩
  | _ => simp_all

/-- In every run the requests that libuv holds are those of different calls of `svl_service_cmd_send` that succeeded, in
the order of the calls, and each carries the message and the client of its call. -/
theorem writes_in_flight {c : ServiceConfig} (hc : Reach n c) :
    (c.fst.view.loc.writes.map fun r => (c.fst.view.loc.sendReqs r).cmdNo).Pairwise (· > ·) ∧
      ∀ r ∈ c.fst.view.loc.writes, (c.fst.view.loc.sendReqs r).IsCall c.snd.view.loc.succeeded := by
  have hf := inFlight hc
  have hj := (commands hc).toBase
  refine ⟨hf.order, fun r hr => ?_⟩
  obtain ⟨y, hy, hcar⟩ := hf.carries r hr
  -- the command that was handled is the one that was accepted under this number
  have hacc : (c.sh.accepted.map (·.cmd))[(c.fst.view.loc.sendReqs r).cmdNo]? = some y.cmd := by
    rw [hj.handled, List.getElem?_append_left (by simpa using hf.cmdNo_lt hr), List.getElem?_map, hy]
    rfl
  obtain ⟨hlt, hget⟩ := List.getElem?_eq_some_iff.1 hacc
  have hlt' := hj.issued.length_eq ▸ hlt
  have hiss := List.Forall₂.get hj.issued hlt' hlt
  simp only [List.get_eq_getElem, hget] at hiss
  obtain ⟨id, hcall, hid⟩ := hiss.cmdSend hcar.type
  exact ⟨_, y.cmd.clientId, y.cmd.len, id, List.getElem?_eq_getElem hlt', hcar.base ▸ hcall, hid.trans hcar.cmdId.symm,
    hcar.len, hcar.svlLink⟩

/-- Of three writes the second one is completed first: libuv holds the requests of the third call and the first. -/
theorem writes_in_flight_two : ∃ c, Reach 1 c ∧
    (c.fst.view.loc.writes.map fun r => (c.fst.view.loc.sendReqs r).cmdNo) = [2, 0] ∧
    ((c.fst.view.loc.writes.map fun r => (c.fst.view.loc.sendReqs r).cmdNo).Pairwise (· > ·) ∧
      ∀ r ∈ c.fst.view.loc.writes, (c.fst.view.loc.sendReqs r).IsCall c.snd.view.loc.succeeded) := by
  let sendOnce (id : Nat) : List (Act IoRun MainCall) :=
    [.run₂ (.cmdSend 0 (.app 0) 8 id), .op₂, .op₂, .op₂, .op₂, .run₁ (.check {}), .op₁, .op₁, .run₁ (.check {}), .op₁]
  obtain ⟨c, hc, hw⟩ := exists_reachWhen .any 1
    (.flatten [startUp, [.run₁ (.inbound 0 {}), .op₁, .op₁], sendOnce 1, sendOnce 2, sendOnce 3, [.run₁ (.send 2)]])
    (fun c => (c.fst.view.loc.writes.map fun r => (c.fst.view.loc.sendReqs r).cmdNo) = [2, 0])
    (by decide +kernel)
  exact ⟨c, hc, hw, writes_in_flight hc⟩

end ServerLynx
