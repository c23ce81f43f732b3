import ServerLynx.Delivery

/-!
# The length that `uv_write` is given

`svl_service_cmd_send` takes the length of the message as a `size_t` and stores it in the command; `handle_cmd_send`
passes it to `uv_buf_init`, whose parameter is an `unsigned int` of 32 bits.
-/

namespace ServerLynx

open Threads

variable {n : Nat} {c c' : ServiceConfig} {io : Io} {msg : MsgPtr} {msglen : Nat}

/-- On the way from `c` to `c'`, `on_check_cb` takes the command of a call of `svl_service_cmd_send` that returned
`TN_SUCCESS`, and `handle_cmd_send` hands it to `uv_write`. -/
structure Submits (c c' : ServiceConfig) (io : Io) (msg : MsgPtr) (msglen : Nat) : Prop where
  code : ∃ out, c.fst = onCheckCb out io
  step : service.step c .op₁ = some c'
  accepted : ∃ clientId id cmdId, c.snd.view.loc.succeeded[io.handled.length]? =
    some ⟨.cmdSend clientId msg msglen id, true, cmdId⟩
  submitted : ∃ y, c'.fst.view.loc.handled = io.handled ++ [y] ∧ y.acted ≠ none

/-- The request that `handle_cmd_send` took from `send_req_list` has the whole message in its `uv_buf`. -/
def CoversMessage (io io' : Io) (msg : MsgPtr) (msglen : Nat) : Prop :=
  ∃ r list, io.sendReqList.popBack = some (r, list) ∧ (io'.sendReqs r).base = msg ∧ (io'.sendReqs r).len = msglen

/-- `handle_cmd_send` puts this into the request that it hands to `uv_write`. -/
private theorem handleCmd_request (can : Io → (o : Op) → o.Res → Prop) (io : Io) {cmd : Cmd} (out : CmdOut)
    (ht : cmd.type = .clientSend) :
    (handleCmd cmd out).path can (fun _ _ => True) (fun l acted => acted ≠ none →
      ∃ r list, io.sendReqList.popBack = some (r, list) ∧ (l.sendReqs r).base = cmd.buffer ∧
        (l.sendReqs r).len = cmd.len % 2 ^ 32) io := by
  simp only [handleCmd, ht, handleCmdSend, Code.path_bind, Code.path_get]
  cases usableLink io cmd.clientId with
  | none => exact fun h => absurd rfl h
  | some x =>
    obtain ⟨i, h⟩ := x
    simp only [Code.path_bind, Code.path_get]
    cases hp : io.sendReqList.popBack with
    | none => exact fun h => absurd rfl h
    | some x =>
      obtain ⟨r, list⟩ := x
      simp only [Code.path_bind, Code.path_modify, Code.path_ite, pushSendReq, Code.path_pure]
      -- a failed `uv_write` puts the request back, but leaves what is in it
      refine ⟨fun _ _ => ⟨r, list, rfl, ?_⟩, fun _ _ => ⟨r, list, rfl, ?_⟩⟩
      · split <;> simp
      · simp

/-- The `uv_buf` of a send has the length of the message if and only if the length fits in 32 bits. -/
theorem send_covers_message_iff (hc : Reach n c) (h : Submits c c' io msg msglen) :
    CoversMessage io c'.fst.view.loc msg msglen ↔ msglen < 2 ^ 32 := by
  obtain ⟨⟨out, hio⟩, hs, ⟨clientId, id, cmdId, hcall⟩, y, hy, hacted⟩ := h
  have hissued := (commands hc).issued
  -- the command that is taken is the one that the call queued
  obtain ⟨x, hx, hid, ht, hclient, hbuffer, hlen⟩ : ∃ x, c.sh.accepted[io.handled.length]? = some x ∧
      Issued ⟨.cmdSend clientId msg msglen id, true, cmdId⟩ x.cmd := by
    obtain ⟨hk, hget⟩ := List.getElem?_eq_some_iff.1 hcall
    have hlen := hissued.length_eq
    rw [List.length_map] at hlen
    have hat := hissued.get hk (by rw [List.length_map]; omega)
    simp only [List.get_eq_getElem, List.getElem_map, hget] at hat
    exact ⟨_, List.getElem?_eq_getElem (by omega), hat⟩
  obtain ⟨l, acted, hl, hhandled, hc'⟩ := onCheckCb_takes hc hio hs hx (handleCmd_request _ io out ht)
  have hsub : acted ≠ none := by
    rw [hc'] at hy
    simp only [hhandled] at hy
    obtain rfl := List.singleton_inj.1 (List.append_cancel_left hy)
    exact hacted
  obtain ⟨r, list, hp, hbase, hl'⟩ := hl hsub
  rw [hc']
  constructor
  · rintro ⟨r', list', hp', -, hlen'⟩
    obtain ⟨rfl, -⟩ := Prod.mk.inj (Option.some.inj (hp.symm.trans hp'))
    have hmod : msglen % 2 ^ 32 = msglen := (congrArg (· % 2 ^ 32) hlen).symm.trans (hl'.symm.trans hlen')
    rw [← hmod]
    exact Nat.mod_lt _ (by decide)
  · intro hlt
    exact ⟨r, list, hp, hbase.trans hbuffer, hl'.trans (by rw [hlen, Nat.mod_eq_of_lt hlt])⟩

/-- A client connects, and a message of `msglen` bytes to it is queued. -/
private def queueMessage (msglen : Nat) : List (Act IoRun MainCall) :=
  .flatten [startUp, [.run₁ (.inbound 0 {}), .op₁, .op₁, .run₂ (.cmdSend 0 (.app 0) msglen 1), .op₂, .op₂, .op₂, .op₂]]

private theorem exists_submits {msglen len : Nat}
    (h : (service.runWhen .any (ServiceConfig.setup 1) (queueMessage msglen)).any (fun c => decide
      (c.snd.view.loc.succeeded[c.fst.view.loc.handled.length]? = some ⟨.cmdSend 0 (.app 0) msglen 1, true, 1⟩ ∧
        ((service.step c (.run₁ (.check {}))).bind fun c => service.step c .op₁).any (fun c' => decide
          ((∃ y ∈ c'.fst.view.loc.handled, c'.fst.view.loc.handled = c.fst.view.loc.handled ++ [y] ∧ y.acted ≠ none) ∧
            ∀ x ∈ c.fst.view.loc.sendReqList.popBack, (c'.fst.view.loc.sendReqs x.1).len = len)) = true)) = true) :
    ∃ c c' io, Reach 1 c ∧ Submits c c' io (.app 0) msglen ∧
      ∀ x ∈ io.sendReqList.popBack, (c'.fst.view.loc.sendReqs x.1).len = len := by
  obtain ⟨c₀, hc₀, hcall, hs⟩ := exists_reachWhen .any 1 (queueMessage msglen)
    (fun c => c.snd.view.loc.succeeded[c.fst.view.loc.handled.length]? = some ⟨.cmdSend 0 (.app 0) msglen 1, true, 1⟩ ∧
      ((service.step c (.run₁ (.check {}))).bind fun c => service.step c .op₁).any (fun c' => decide
        ((∃ y ∈ c'.fst.view.loc.handled, c'.fst.view.loc.handled = c.fst.view.loc.handled ++ [y] ∧ y.acted ≠ none) ∧
          ∀ x ∈ c.fst.view.loc.sendReqList.popBack, (c'.fst.view.loc.sendReqs x.1).len = len)) = true) h
  obtain ⟨c', hc', hP⟩ := (Option.any_eq_true _ _).1 hs
  obtain ⟨c, hc, hs⟩ := Option.bind_eq_some_iff.1 hc'
  obtain ⟨io, hio, -, rfl⟩ := Machine.step_run₁ hc
  rw [hio] at hcall hP
  obtain ⟨⟨y, -, hy, hacted⟩, hlen⟩ := of_decide_eq_true hP
  exact ⟨_, c', io, hc₀.step _ rfl hc, ⟨⟨{}, rfl⟩, hs, ⟨0, 1, 1, hcall⟩, y, hy, hacted⟩, hlen⟩

/-- A message of 8 bytes is sent. -/
theorem send_covers_message_short : ∃ c c' io, Reach 1 c ∧ Submits c c' io (.app 0) 8 ∧
    CoversMessage io c'.fst.view.loc (.app 0) 8 := by
  obtain ⟨c, c', io, hc, hsub, -⟩ := @exists_submits 8 8 (by decide +kernel)
  exact ⟨c, c', io, hc, hsub, (send_covers_message_iff hc hsub).2 (by decide)⟩

/-- A message of 4 GiB is accepted, and `uv_write` is given a buffer of length 0. -/
theorem send_covers_nothing : ∃ c c' io, Reach 1 c ∧ Submits c c' io (.app 0) (2 ^ 32) ∧
    ¬ CoversMessage io c'.fst.view.loc (.app 0) (2 ^ 32) := by
  obtain ⟨c, c', io, hc, hsub, hlen⟩ := @exists_submits (2 ^ 32) 0 (by decide +kernel)
  refine ⟨c, c', io, hc, hsub, ?_⟩
  rintro ⟨r, list, hp, -, hr⟩
  exact absurd (hr.symm.trans (hlen (r, list) hp)) (by decide)

end ServerLynx
