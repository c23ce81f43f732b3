import ServerLynx.Commands

/-!
# Accepted sends over whole runs

`svl_service_cmd_send` looks whether a write request is free in a list that nothing ever takes a request from, so it
does not notice how many writes libuv has not completed yet.  A send whose link is open is handed to `uv_write` as
long as fewer writes than there are requests are pending when `on_check_cb` takes the command.
-/

namespace ServerLynx

open Threads

variable {n : Nat} {io : Io} {c : ServiceConfig}

/-- Each send that was handled while its link was open was handed to `uv_write`. -/
def SendsWritten (io : Io) : Prop :=
  ∀ y ∈ io.handled, y.cmd.type = .clientSend → y.linkOpen = true → y.acted ≠ none

/-- The runs in which a write request is left in `send_req_list` whenever `on_check_cb` takes a send for a link that is
open: libuv holds fewer writes than there are requests. -/
def requestLeft : ServiceCond where
  op₁ sh v _ := match v.next, sh.cmdReady with
    | some .cmdReadyPop, cmd :: _ => decide (cmd.type ≠ .clientSend) || !linkIsOpen v.loc cmd.clientId ||
        decide (v.loc.writes.length < v.loc.bufferCount)
    | _, _ => true

/-- An open link leads to its handle. -/
private theorem usableLink_of_open (hs : io.Slots n) {clientId : Nat} (ho : linkIsOpen io clientId = true) :
    ∃ i h, usableLink io clientId = some (i, h) := by
  by_cases hlt : clientId ≥ io.linkList.clientsMax
  · simp [linkIsOpen, LinkList.svlLinkListGet, hlt] at ho
  have hst : (io.link clientId).state = .opened := by
    simpa [linkIsOpen, LinkList.svlLinkListGet, hlt] using ho
  have hin : clientId < n := by
    have := hs.max
    omega
  obtain ⟨h, hp, -, hn⟩ := hs.opened clientId hin hst
  have hp' : (io.link clientId).priv = some h := hp
  have hn' : (io.handles h).isClosing = false := by simp [Handle.isClosing, hn]
  exact ⟨clientId, h, by simp [usableLink, LinkList.svlLinkListGet, hlt, hp', hst, hn']⟩

/-- A send for an open link is handed to `uv_write` if a write request is left. -/
private theorem handleCmd_send {can : Io → (o : Op) → o.Res → Prop} (hs : io.Slots n) {cmd : Cmd} {out : CmdOut}
    (ht : cmd.type = .clientSend) (ho : linkIsOpen io cmd.clientId = true) (hl : io.sendReqList.items ≠ []) :
    (handleCmd cmd out).path can (fun _ _ => True) (fun _ acted => acted ≠ none) io := by
  obtain ⟨i, h, hu⟩ := usableLink_of_open hs ho
  cases hp : io.sendReqList.popBack with
  | none => exact absurd (ListPtr.popBack_eq_none.1 hp) hl
  | some x =>
    obtain ⟨r, list⟩ := x
    simp [handleCmd, ht, handleCmdSend, hu, hp, pushSendReq]

/-- The write requests that libuv does not hold are in `send_req_list`. -/
private theorem requests_left {E : Premises} (hi : IoInv n E io) (hp : io.phase = .running)
    (hw : io.writes.length < io.bufferCount) : io.sendReqList.items ≠ [] := by
  intro hnil
  have hlen := (hi.sends.running hp).2.length_eq
  simp only [hnil, List.nil_append, List.length_range] at hlen
  omega

theorem sends_written (hc : ReachWhen requestLeft n c) : SendsWritten c.fst.view.loc := by
  let K : Shared → View Io Op → View Main Op → Prop := fun _ v _ => IoInv n ⟨False, False, False⟩ v.loc
  have hK : ∀ c, ReachWhen requestLeft n c → K c.sh c.fst.view c.snd.view := fun c hc =>
    (ioInv ⟨False.elim, False.elim, False.elim, False.elim⟩ hc).1
  refine Machine.Reach.invariant₁ (K := K) (I := fun v => SendsWritten v.loc) hK ?_ ?_ hc
  · exact fun y hy => absurd hy (by simp [Io.setup])
  rintro d io ⟨sh, w, hi, hr, -⟩ hs
  by_cases hd : d.kind = .command
  · cases d with
    | check out =>
      have hp : io.phase = .running := by
        simp only [service, IoRun.ready, Bool.and_eq_true, decide_eq_true_eq] at hr
        exact hr.1
      change Code.path _ _ (onCheckCb out) _ io
      simp only [onCheckCb, Code.path_bind, Code.path_op]
      refine ⟨hs, ?_⟩
      rintro (_ | cmd) ⟨sh₀, w₀, sh', hi₀, hleft, he⟩
      · exact hs
      have hwritten : cmd.type = .clientSend → linkIsOpen io cmd.clientId = true →
          io.writes.length < io.bufferCount := by
        intro ht ho
        simp only [service, Op.exec] at he
        split at he
        · simp at he
        · rename_i cmd' cmds hready
          obtain rfl : cmd' = cmd := by
            simp only [Option.some.injEq, Prod.mk.injEq] at he
            exact he.1
          simpa [requestLeft, hready, ht, ho] using hleft
      simp only [Code.path_bind, Code.path_get]
      have hacted : (handleCmd cmd out).path (service.Can₁ requestLeft K) (fun _ _ => True)
          (fun _ acted => cmd.type = .clientSend → linkIsOpen io cmd.clientId = true → acted ≠ none) io := by
        by_cases ht : cmd.type = .clientSend ∧ linkIsOpen io cmd.clientId = true
        · have hpath : (handleCmd cmd out).path (service.Can₁ requestLeft K) (fun _ _ => True)
              (fun _ acted => acted ≠ none) io :=
            handleCmd_send hi.slots ht.1 ht.2 (requests_left hi hp (hwritten ht.1 ht.2))
          exact Prog.path_mono (fun _ _ h => h) (fun _ _ h _ _ => h) hpath
        · exact Prog.path_mono (fun _ _ h => h) (fun _ _ _ ht' ho => absurd ⟨ht', ho⟩ ht) (Prog.path_trivial _)
      have hsame := Prog.path_anti (c := service.Can₁ requestLeft K) (fun _ _ _ _ => trivial)
        ((handleCmd_onLinks cmd out).path io)
      refine Code.path_mono (fun _ _ h => h.2.1.elim) ?_ (Prog.path_and hacted hsame)
      rintro l acted ⟨ha, hl⟩
      simp only [Code.path_modify, Code.path_op]
      have hnew : SendsWritten { l with
          inCheck := true, cmd := some cmd
          handled := l.handled ++ [⟨cmd, linkIsOpen io cmd.clientId, acted⟩] } := by
        intro y hy ht ho
        rcases List.mem_append.1 hy with hy | hy
        · rw [hl.command.1] at hy
          exact hs y hy ht ho
        · obtain rfl := List.mem_singleton.1 hy
          exact ha ht ho
      exact ⟨hnew, fun _ _ => hnew⟩
    | _ => simp [IoRun.kind] at hd
  · have hframe : ∀ l : Io, d.kind.Frame io l → SendsWritten l := by
      intro l hl y hy
      rw [(hl.command hd).1] at hy
      exact hs y hy
    exact Prog.path_anti (fun _ _ _ _ => trivial)
      (Prog.path_mono (fun l _ h => hframe l h.2) (fun l _ h => hframe l h) (d.keepsTo.path io))

/-- A message to the client 0 is sent, and `on_check_cb` handles it. -/
private def sendOnce (id : Nat) : List (Act IoRun MainCall) :=
  [.run₂ (.cmdSend 0 (.app 0) 8 id), .op₂, .op₂, .op₂, .op₂, .run₁ (.check {}), .op₁, .op₁]

theorem sends_written_once : ∃ c, ReachWhen requestLeft 1 c ∧
    c.fst.view.loc.handled.map (fun y => (y.cmd.id, y.linkOpen, y.acted)) = [(1, true, some 5)] ∧
    SendsWritten c.fst.view.loc := by
  obtain ⟨c, hc, hP⟩ := exists_reachWhen requestLeft 1
    (.flatten [startUp, [.run₁ (.inbound 0 {}), .op₁, .op₁], sendOnce 1])
    (fun c => c.fst.view.loc.handled.map (fun y => (y.cmd.id, y.linkOpen, y.acted)) = [(1, true, some 5)])
    (by decide +kernel)
  exact ⟨c, hc, hP, sends_written hc⟩

/-- The peer does not read, so four writes stay with libuv: the fifth send is accepted, and then dropped. -/
theorem fifth_send_dropped : ∃ c, Reach 1 c ∧
    ⟨.cmdSend 0 (.app 0) 8 5, true, 5⟩ ∈ c.snd.view.loc.succeeded ∧ ¬ SendsWritten c.fst.view.loc := by
  obtain ⟨c, hc, hs, hd⟩ := exists_reachWhen .any 1
    (.flatten [startUp, [.run₁ (.inbound 0 {}), .op₁, .op₁], sendOnce 1, sendOnce 2, sendOnce 3, sendOnce 4,
      sendOnce 5]) (fun c => ⟨.cmdSend 0 (.app 0) 8 5, true, 5⟩ ∈ c.snd.view.loc.succeeded ∧
      ∃ y ∈ c.fst.view.loc.handled, y.cmd.id = 5 ∧ y.cmd.type = .clientSend ∧ y.linkOpen = true ∧ y.acted = none)
    (by decide +kernel)
  obtain ⟨y, hy, -, ht, ho, ha⟩ := hd
  exact ⟨c, hc, hs, fun hw => hw y hy ht ho ha⟩

end ServerLynx
