import ServerLynx.Correlation

/-!
# What becomes of an open command

The main thread knows a connection that it opens by the id of its command only, so each attempt has to end with an
event that has this id.  The only such event is the `OPEN` of `on_outbound_connection_cb`: an attempt that ends before
it is pushed goes unreported.
-/

namespace ServerLynx

open Threads

/-- A connect on the handle `h` has not completed. -/
def Io.Connecting (io : Io) (h : Nat) : Prop :=
  ∃ q, (io.connectReqs q).pending = true ∧ (io.connectReqs q).handle = some h

/-- The attempt to open a connection for the command `cmd` goes on: its connect is pending, or it has a link. -/
def Io.Attempting (io : Io) (cmd : Cmd) : Prop :=
  ∃ h < io.handleCount, (io.handles h).openCmd = some cmd ∧ (io.Connecting h ∨ ∃ i, (io.handles h).Holds i)

/-- Some event with the id of the command was pushed. -/
def Io.Reported (io : Io) (cmd : Cmd) : Prop := ∃ p ∈ io.pushed, p.evt.cmdId = cmd.id

/-- The command that was handled as number `k` -/
def Io.handledCmd (io : Io) (k : Nat) : Option Cmd := io.handled[k]?.map (·.cmd)

/-- The connection that is about to be announced was opened by the command `cmd`. -/
def Io.Announces (io : Io) (cmd : Cmd) : Prop :=
  ∃ h < io.handleCount, io.Unannounced h ∧ (io.handles h).openCmd = some cmd

instance (io : Io) (cmd : Cmd) : Decidable (io.Announces cmd) := inferInstanceAs (Decidable (∃ h < io.handleCount, _))

/-- The calls that start a connect succeed. -/
def CmdOut.Connects (out : CmdOut) : Prop :=
  out.acquireHandle = true ∧ out.tcpInit = 0 ∧ out.acquireReq = true ∧ out.tcpConnect = 0

instance (out : CmdOut) : Decidable out.Connects := inferInstanceAs (Decidable (_ ∧ _ ∧ _ ∧ _))

/-- The calls for the addresses of a connection succeed. -/
def ConnectedOut.HasAddresses (out : ConnectedOut) : Prop :=
  out.getpeername = 0 ∧ out.convertPeer = 0 ∧ out.getsockname = 0 ∧ out.convertSock = 0

instance (out : ConnectedOut) : Decidable out.HasAddresses := inferInstanceAs (Decidable (_ ∧ _ ∧ _ ∧ _))

/-- The runs in which the attempt for the command `cmd`, handled as number `k`, gets to its `OPEN` event: there is a
free link for it, the calls on the way succeed, the peer accepts, and an event is free. -/
def opensConnection (k : Nat) (cmd : Cmd) : ServiceCond where
  run₁ d _ v _ := match d with
    | .check out => decide (v.loc.handled.length = k → out.Connects)
    | .outbound req status out => decide ((∃ h ∈ (v.loc.connectReqs req).handle, (v.loc.handles h).openCmd = some cmd) →
        0 ≤ status ∧ out.HasAddresses)
    | _ => true
  op₁ sh v _ := match v.next with
    | some .cmdReadyPop =>
      decide (v.loc.handled.length = k → sh.cmdReady ≠ [] → v.loc.linkList.clientListFree.items ≠ [])
    | some (.eventFreePop .clientOpen) => decide (v.loc.Announces cmd → sh.eventFree ≠ [])
    | some (.eventReadyPush _ evt) =>
      decide (evt.type = .clientOpen → v.loc.Announces cmd → sh.eventReady.length < sh.bufferCount)
    | _ => true

/-! ### The invariant -/

/-- Each pending request was made, and an attempt that is over has been announced. -/
structure Tried (P : Prop) (cmd : Cmd) (io : Io) : Prop where
  reqs : ∀ q, (io.connectReqs q).pending = true → q < io.connectReqCount
  tried : P → ∃ h < io.handleCount, (io.handles h).openCmd = some cmd ∧ (io.Connecting h ∨ WasOpened io.pushed h)

variable {n k : Nat} {E : Premises} {P : Prop} {cmd : Cmd} {io l : Io} {c : ServiceConfig}

theorem WasOpened.append {pushed ps : List Pushed} {h : Nat} (ho : WasOpened pushed h) :
    WasOpened (pushed ++ ps) h := by
  obtain ⟨p, hp, hc, ht⟩ := ho
  exact ⟨p, List.mem_append_left _ hp, hc, ht⟩

theorem Io.Connecting.keep {h : Nat} (hc : io.Connecting h) (hr : ∀ q, (io.connectReqs q).pending = true →
    (l.connectReqs q).handle = (io.connectReqs q).handle ∧ (l.connectReqs q).pending = true) : l.Connecting h := by
  obtain ⟨q, hq, hh⟩ := hc
  obtain ⟨hh', hq'⟩ := hr q hq
  exact ⟨q, hq', hh'.trans hh⟩

/-- The handles that were made keep their commands, and the requests that are pending stay so. -/
theorem Tried.keep (ht : Tried P cmd io) (hc : io.handleCount ≤ l.handleCount)
    (hs : ∀ h < io.handleCount, (l.handles h).openCmd = (io.handles h).openCmd)
    (hr : ∀ q, (io.connectReqs q).pending = true →
      (l.connectReqs q).handle = (io.connectReqs q).handle ∧ (l.connectReqs q).pending = true)
    (hq : ∀ q, (l.connectReqs q).pending = true → q < l.connectReqCount) (hp : ∃ ps, l.pushed = io.pushed ++ ps) :
    Tried P cmd l where
  reqs := hq
  tried hP := by
    obtain ⟨h, hlt, ho, hw⟩ := ht.tried hP
    obtain ⟨ps, hps⟩ := hp
    refine ⟨h, Nat.lt_of_lt_of_le hlt hc, (hs h hlt).trans ho, hw.imp (fun hc => hc.keep hr) fun hw => ?_⟩
    rw [hps]
    exact hw.append

/-- Besides, no request changes. -/
theorem Tried.sameReqs (ht : Tried P cmd io) (hc : io.handleCount ≤ l.handleCount)
    (hs : ∀ h < io.handleCount, (l.handles h).openCmd = (io.handles h).openCmd)
    (hr : l.connectReqs = io.connectReqs ∧ l.connectReqCount = io.connectReqCount)
    (hp : ∃ ps, l.pushed = io.pushed ++ ps) : Tried P cmd l := by
  refine ht.keep hc hs (fun q hq => ?_) (fun q hq => ?_) hp
  · rw [hr.1]
    exact ⟨rfl, hq⟩
  · rw [hr.1] at hq
    rw [hr.2]
    exact ht.reqs q hq

theorem Tried.setHandle (ht : Tried P cmd io) (h : Nat) {f : Handle → Handle} (hf : ∀ x, (f x).openCmd = x.openCmd) :
    Tried P cmd (io.setHandle h f) := by
  refine ht.sameReqs (Nat.le_refl _) (fun h' _ => ?_) ⟨rfl, rfl⟩ ⟨[], by simp [Io.setHandle]⟩
  by_cases he : h' = h
  · subst he
    rw [Io.setHandle_handles_self]
    exact hf _
  · exact congrArg Handle.openCmd (Function.update_of_ne he _ _)

theorem Tried.onConn {Q : Pushed → Prop} {h i : Nat} (ht : Tried P cmd io) (hl : OnConn Q h i io l) :
    Tried P cmd l := by
  have hpushed : ∃ ps, l.pushed = io.pushed ++ ps := by
    obtain ⟨ps, hps, -⟩ := hl.pushed
    exact ⟨ps, hps⟩
  refine ht.keep (Nat.le_of_eq hl.count.symm) (fun h' _ => ?_) (fun q hq => ?_) (fun q hq => ?_) hpushed
  · by_cases he : h' = h
    · exact he ▸ hl.handle.openCmd
    · rw [hl.handles h' he]
  · exact ⟨(hl.reqs q).1, (hl.reqs q).2.trans hq⟩
  · rw [(hl.reqs q).2] at hq
    rw [hl.sends.reqCount]
    exact ht.reqs q hq

theorem Tried.stray {cmd' : Option Cmd} (ht : Tried P cmd io) (hl : MadeStray cmd' io l) : Tried P cmd l := by
  obtain ⟨x, -, -, hh⟩ := hl.handles
  refine ht.keep (hl.count ▸ Nat.le_succ _) (fun h hlt => ?_) (fun q hq => ?_) (fun q hq => ?_)
    ⟨[], by rw [hl.pushed, List.append_nil]⟩
  · rw [hh, Function.update_of_ne (Nat.ne_of_lt hlt)]
  · rcases hl.reqs.reqs q with he | ⟨-, hle, -⟩
    · exact ⟨by rw [he], by rw [he, hq]⟩
    · exact absurd (ht.reqs q hq) (Nat.not_lt.2 hle)
  · rcases hl.reqs.reqs q with he | ⟨hlt, -, -⟩
    · exact Nat.lt_of_lt_of_le (ht.reqs q (he ▸ hq)) hl.reqs.count
    · exact hlt

/-- A connect is started for some command: if it is `cmd`, then `cmd` has been tried. -/
theorem Tried.dialled {cmd' : Cmd} {i : Nat} (ht : Tried P cmd io) (hl : Dialled io cmd' i l) :
    Tried (P ∨ cmd' = cmd) cmd l := by
  have hreq : ∀ q, (l.connectReqs q).pending = true → q < l.connectReqCount := by
    intro q hq
    rw [hl.reqCount]
    by_cases he : q = io.connectReqCount
    · exact he ▸ Nat.lt_succ_self _
    · rw [hl.reqs q he] at hq
      exact Nat.lt_succ_of_lt (ht.reqs q hq)
  have hold : Tried P cmd l := by
    refine ht.keep (hl.count ▸ Nat.le_succ _) (fun h hlt => ?_) (fun q hq => ?_) hreq
      ⟨[], by rw [hl.pushed, List.append_nil]⟩
    · rw [hl.handles, Function.update_of_ne (Nat.ne_of_lt hlt)]
    · rw [hl.reqs q (Nat.ne_of_lt (ht.reqs q hq))]
      exact ⟨rfl, hq⟩
  refine ⟨hreq, fun hP => ?_⟩
  rcases hP with hP | rfl
  · exact hold.tried hP
  · refine ⟨io.handleCount, hl.count ▸ Nat.lt_succ_self _, ?_, .inl ⟨io.connectReqCount, ?_, ?_⟩⟩
    · rw [hl.handles, Function.update_self]
    · rw [hl.req]
    · rw [hl.req]

private theorem tried_conns : KeptByConns n E (fun _ => True) (Tried P cmd) where
  same ht hs := ht.sameReqs (Nat.le_of_eq hs.count.symm) (fun h _ => by rw [hs.handles]) ⟨hs.reqs, hs.reqCount⟩
    ⟨[], by rw [hs.pushed, List.append_nil]⟩
  conn ht _ hl := ht.onConn hl
  closed ht _ _ hl := by
    obtain ⟨l', list, log, refused, hl', -, rfl⟩ := hl
    refine Tried.setHandle ?_ _ fun _ => rfl
    exact (ht.onConn hl').sameReqs (Nat.le_refl _) (fun _ _ => rfl) ⟨rfl, rfl⟩ ⟨[], (List.append_nil _).symm⟩
  stray _ ht hl := ht.stray hl
  attach _ ht _ := by
    refine ht.sameReqs (Nat.le_succ _) (fun h hlt => ?_) ⟨rfl, rfl⟩ ⟨[], (List.append_nil _).symm⟩
    rw [Io.attach_handles_ne (Nat.ne_of_lt hlt)]
  finish ht _ := ht.setHandle _ fun _ => rfl
  release ht _ := ht.setHandle _ fun _ => rfl

theorem Tried.mono {P' : Prop} (ht : Tried P cmd io) (hP : P' → P) : Tried P' cmd io :=
  ⟨ht.reqs, fun h => ht.tried (hP h)⟩

/-! ### The callbacks -/

variable {can : Io → (o : Op) → o.Res → Prop}

/-- Handling a command leaves the commands before it as they are; the attempt for the command `cmd`, the one with
number `k`, is begun. -/
private theorem onCheckCb_tried (hi : IoInv n E io) (ho : cmd.type = .clientOpen) {out : CmdOut}
    (hout : io.handled.length = k → out.Connects)
    (hfree : ∀ c, can io .cmdReadyPop (some c) → io.handled.length = k → io.linkList.clientListFree.items ≠ [])
    (ht : Tried (io.handledCmd k = some cmd) cmd io) :
    KeepsConns can (fun l => Tried (l.handledCmd k = some cmd) cmd l) (onCheckCb out) io := by
  simp only [KeepsConns, onCheckCb, Code.path_bind, Code.path_op]
  refine ⟨ht, ?_⟩
  rintro (_ | c) hr
  · exact ht.sameReqs (Nat.le_refl _) (fun _ _ => rfl) ⟨rfl, rfl⟩ ⟨[], (List.append_nil _).symm⟩
  have htried : (handleCmd c out).path can (fun _ _ => True)
      (fun l _ => Tried (io.handledCmd k = some cmd ∨ io.handled.length = k ∧ c = cmd) cmd l) io := by
    by_cases hnew : io.handled.length = k ∧ c = cmd
    · obtain ⟨hk, rfl⟩ := hnew
      have hdials : out.Dials io := by
        obtain ⟨h₁, h₂, h₃, h₄⟩ := hout hk
        exact ⟨h₁, h₂, h₃, h₄, hfree c hr hk⟩
      simp only [handleCmd, ho, Code.path_bind, Code.path_pure]
      exact handleCmdOpen_path (fun hno => absurd hdials hno) (fun hno => absurd hdials hno) fun i list l _ hl =>
        (ht.dialled hl).mono (Or.imp_right fun _ => rfl)
    · have hmono : ∀ {l : Io}, Tried (io.handledCmd k = some cmd) cmd l →
          Tried (io.handledCmd k = some cmd ∨ io.handled.length = k ∧ c = cmd) cmd l :=
        fun h => h.mono fun hP => hP.resolve_right hnew
      refine Code.path_mono (fun _ _ _ => trivial) (fun l _ hl => hmono hl)
        (handleCmd_conns tried_conns.toKeptByUse hi ht ?_ ?_ ?_)
      · exact fun _ _ => ⟨ht, fun l hl _ => ht.stray hl⟩
      · exact fun _ i list l _ hl => (ht.dialled hl).mono .inl
      · intro i h _ _
        refine ht.sameReqs (Nat.le_refl _) (fun h' _ => ?_) ⟨rfl, rfl⟩ ⟨[], (List.append_nil _).symm⟩
        by_cases he : h' = h
        · subst he
          simp [Io.closedBy, Io.uvClose, Io.setHandle, Io.setLink]
        · simp [Io.closedBy, Io.uvClose, Io.setHandle, Io.setLink, Function.update_of_ne he]
  have hlinks := Prog.path_anti (c := can) (fun _ _ _ _ => trivial) ((handleCmd_onLinks c out).path io)
  simp only [Code.path_bind, Code.path_get]
  refine Code.path_mono (fun _ _ h => h.2.1.elim) (fun l acted hl => ?_) (Prog.path_and htried hlinks)
  simp only [Code.path_modify, Code.path_op]
  have hend : ∀ cmd' : Option Cmd, Tried (Io.handledCmd { l with
        inCheck := true, cmd := cmd', handled := l.handled ++ [⟨c, linkIsOpen io c.clientId, acted⟩] } k = some cmd) cmd
      { l with inCheck := true, cmd := cmd', handled := l.handled ++ [⟨c, linkIsOpen io c.clientId, acted⟩] } := by
    intro cmd'
    refine Tried.sameReqs (?_ : Tried _ _ l) (Nat.le_refl _) (fun _ _ => rfl) ⟨rfl, rfl⟩ ⟨[], (List.append_nil _).symm⟩
    refine hl.1.mono fun hk => ?_
    simp only [Io.handledCmd, hl.2.command.1] at hk ⊢
    by_cases hlt : k < io.handled.length
    · rw [List.getElem?_append_left hlt] at hk
      exact .inl hk
    · rw [List.getElem?_append_right (Nat.le_of_not_lt hlt)] at hk
      by_cases he : k = io.handled.length
      · simp only [he, Nat.sub_self, List.getElem?_cons_zero, Option.map_some, Option.some.injEq] at hk
        exact .inr ⟨he.symm, hk⟩
      · rw [List.getElem?_eq_none (by simp only [List.length_singleton]; omega)] at hk
        exact absurd hk (by simp)
  exact ⟨hend _, fun _ _ => hend _⟩

private theorem linkEndpoints_ok {I : Io → Op → Prop} {Q : Io → Bool → Prop} {i : Nat} {out : ConnectedOut}
    (ho : out.HasAddresses)
    (hQ : ∀ f : Link → Endpoint, Q (io.setLink i fun link => { link with endpointRemote := f link }) true) :
    (linkEndpoints i out).path can I Q io := by
  obtain ⟨h₁, h₂, h₃, h₄⟩ := ho
  simp only [linkEndpoints, modifyLink, h₁, h₂, h₃, h₄, ne_eq, not_true_eq_false, if_false, Code.path_bind,
    Code.path_modify, Code.path_pure, Io.setLink_setLink]
  exact hQ fun _ => out.sock

/-- Where the calls on the way succeed and an event is free, a connect that completes is announced. -/
theorem onOutboundConnectionCb_announces {q h i : Nat} (hd : (io.connectReqs q).data = some i)
    (hh : (io.connectReqs q).handle = some h) (hpriv : (io.link i).priv = some h) {status : Int} (hs : 0 ≤ status)
    {out : ConnectedOut} (hout : out.HasAddresses)
    (hpop : ∀ l, l.handles = io.handles ∧ l.handleCount = io.handleCount ∧ l.pushed = io.pushed →
      ¬ can l (.eventFreePop .clientOpen) none)
    (hpush : ∀ l e evt, l.handles = io.handles ∧ l.handleCount = io.handleCount ∧ l.pushed = io.pushed →
      evt.type = .clientOpen → ¬ can l (.eventReadyPush e evt) false) :
    (onOutboundConnectionCb q status out).path can (fun _ _ => True) (fun l _ => WasOpened l.pushed h) io := by
  have hcleanup : ∀ l : Io, WasOpened l.pushed h → (onOutboundConnectionCbCleanup q (some (i, h))).path can
      (fun _ _ => True) (fun l _ => WasOpened l.pushed h) l := by
    intro l hl
    simp only [onOutboundConnectionCbCleanup, modifyLink, Code.path_bind, Code.path_modify]
    exact hl
  simp only [onOutboundConnectionCb, getLink, Code.path_bind, Code.path_get, Code.path_pure, hd, hh, hpriv,
    Code.path_ite]
  refine ⟨fun hneg => absurd hneg (Int.not_lt.2 hs), fun _ => ⟨fun hne => absurd rfl hne, fun _ => ?_⟩⟩
  refine linkEndpoints_ok hout fun f => ?_
  simp only [Code.path_op]
  refine ⟨by simp, fun _ => ⟨trivial, ?_⟩⟩
  rintro (_ | ⟨e, evt⟩) hr
  · exact absurd hr (hpop _ ⟨rfl, rfl, rfl⟩)
  simp only [readyPush, modifyLink, Code.path_bind, Code.path_modify, Code.path_get, Code.path_pure, Code.path_op,
    Code.path_ite]
  refine ⟨trivial, fun pushed hr' => ?_⟩
  cases pushed with
  | false => exact absurd hr' (hpush _ _ _ ⟨rfl, rfl, rfl⟩ rfl)
  | true =>
    have hopened : ∀ evt : Event, evt.type = .clientOpen → WasOpened (io.pushed ++ [⟨evt, h⟩]) h :=
      fun evt ht => wasOpened_append.2 (.inr ⟨rfl, ht⟩)
    exact ⟨by simp, fun _ => ⟨fun _ => hcleanup _ (hopened _ rfl), fun _ => hopened _ rfl⟩⟩

/-- The attempt goes on or has been announced. -/
def Io.Tracked (io : Io) (cmd : Cmd) : Prop :=
  io.Attempting cmd ∨ ∃ h < io.handleCount, (io.handles h).openCmd = some cmd ∧ WasOpened io.pushed h

theorem Tried.tracked (ht : Tried P cmd io) (hP : P) : io.Tracked cmd := by
  obtain ⟨h, hlt, ho, hc | hw⟩ := ht.tried hP
  · exact .inl ⟨h, hlt, ho, .inl hc⟩
  · exact .inr ⟨h, hlt, ho, hw⟩

/-- A connect completes: the attempt it belongs to is tracked all along, and announced at the end. -/
private theorem outbound_tried (hi : IoInv n E io) (hs : Settled io) (hp : io.phase = .running) {q : Nat}
    (hq : (io.connectReqs q).pending = true) (ht : Tried P cmd io) {status : Int} {out : ConnectedOut}
    (hout : (∃ h ∈ (io.connectReqs q).handle, (io.handles h).openCmd = some cmd) → 0 ≤ status ∧ out.HasAddresses)
    (hpop : ∀ l : Io, l.Announces cmd → ¬ can l (.eventFreePop .clientOpen) none)
    (hpush : ∀ (l : Io) e evt, l.Announces cmd → evt.type = .clientOpen → ¬ can l (.eventReadyPush e evt) false) :
    (IoRun.outbound q status out).code.path can (fun l _ => P → l.Tracked cmd) (fun l _ => Tried P cmd l) io := by
  obtain ⟨h, i, hd, hh, -, -, hno, hb⟩ := hi.connected hs hp hq
  change Busy n E (io.connected q h) h i at hb
  have hcmd : ((io.connected q h).handles h).openCmd = (io.handles h).openCmd := by
    simp [Io.connected, Io.setConnectReq]
  have hreqs : ∀ q', ((io.connected q h).connectReqs q').pending = true → q' < io.connectReqCount := by
    intro q' hq'
    by_cases he : q' = q
    · subst he
      exact ht.reqs q' hq
    · rw [show (io.connected q h).connectReqs q' = io.connectReqs q' from Function.update_of_ne he _ _] at hq'
      exact ht.reqs q' hq'
  by_cases ho : (io.handles h).openCmd = some cmd
  · obtain ⟨hstatus, haddr⟩ := hout ⟨h, hh, ho⟩
    have hlt := hb.inv.slots.lt_count hb.holds
    have hann : ∀ l : Io, l.handles = (io.connected q h).handles ∧ l.handleCount = (io.connected q h).handleCount ∧
        l.pushed = (io.connected q h).pushed → l.Announces cmd := by
      rintro l ⟨hhs, hc, hpushed⟩
      refine ⟨h, hc ▸ hlt, ?_, by rw [hhs, hcmd, ho]⟩
      rw [Io.Unannounced, hhs, hpushed]
      exact ⟨by rw [hb.holds.data]; simp, hb.closing, by simp [Io.connected, Io.setConnectReq], hno⟩
    simp only [IoRun.code, Code.path_bind, Code.path_modify]
    have hstate : onHandle (fun io => (io.connectReqs q).handle)
        (fun io h => io.setHandle h fun x => { x with connecting := false })
        (io.setConnectReq q fun r => { r with pending := false }) = io.connected q h := by
      have hh' : ((io.setConnectReq q fun r => { r with pending := false }).connectReqs q).handle = some h := by
        simpa [Io.setConnectReq] using hh
      simp only [onHandle, hh', Io.connected]
    have hdata : ((io.connected q h).connectReqs q).data = some i := by
      simpa [Io.connected, Io.setConnectReq, Io.setHandle] using hd
    have hhandle : ((io.connected q h).connectReqs q).handle = some h := by
      simpa [Io.connected, Io.setConnectReq, Io.setHandle] using hh
    rw [hstate]
    have hconn : StaysOnConn can (fun _ => True) h i (io.connected q h) (onOutboundConnectionCb q status out)
        (io.connected q h) := onOutboundConnectionCb_onConn hdata hhandle (fun _ _ _ => trivial) status out
    have hend := onOutboundConnectionCb_announces hdata hhandle hb.link.2.2 hstatus haddr
      (fun l hl => hpop l (hann l hl)) fun l e evt hl => hpush l e evt (hann l hl)
    refine Code.path_mono (fun l _ hl _ => .inl ?_) (fun l _ hl => ⟨fun q' hq' => ?_, fun _ => ?_⟩)
      (Prog.path_and hconn hend)
    · refine ⟨h, hl.1.count ▸ hlt, by rw [hl.1.handle.openCmd, hcmd, ho], .inr ⟨i, ?_⟩⟩
      exact ⟨hl.1.handle.given i hb.holds.1, hl.1.handle.released.trans hb.holds.2⟩
    · rw [(hl.1.reqs q').2] at hq'
      rw [hl.1.sends.reqCount]
      exact hreqs q' hq'
    · exact ⟨h, hl.1.count ▸ hlt, by rw [hl.1.handle.openCmd, hcmd, ho], .inr hl.2⟩
  · refine Code.path_mono (fun l _ hl hP => hl.tracked hP) (fun l _ hl => hl)
      (onOutboundConnectionCb_conns tried_conns.toKeptByUse hi hs hp hq (fun h' hh' => ?_) status out)
    obtain rfl : h' = h := Option.some.inj (hh'.symm.trans hh)
    suffices hset : Tried P cmd (io.setConnectReq q fun r => { r with pending := false }) from
      hset.setHandle h' fun _ => rfl
    refine ⟨hreqs, fun hP => ?_⟩
    -- the connect that completes belongs to another attempt
    obtain ⟨h₀, hlt, ho₀, hw⟩ := ht.tried hP
    refine ⟨h₀, hlt, ho₀, hw.imp_left ?_⟩
    rintro ⟨q₀, hq₀, hh₀⟩
    have hne : q₀ ≠ q := by
      rintro rfl
      exact ho (Option.some.inj (hh.symm.trans hh₀) ▸ ho₀)
    have he : (io.setConnectReq q fun r => { r with pending := false }).connectReqs q₀ = io.connectReqs q₀ :=
      Function.update_of_ne hne _ _
    exact ⟨q₀, by rw [he]; exact hq₀, by rw [he]; exact hh₀⟩

/-! ### Whole runs -/

section Conditions

variable {K : Shared → View Io Op → View Main Op → Prop}

private theorem opensConnection_free {c : Cmd} (hk : io.handled.length = k)
    (h : service.Can₁ (opensConnection k cmd) K io .cmdReadyPop (some c)) : io.linkList.clientListFree.items ≠ [] := by
  obtain ⟨sh, v, sh', -, hc, he⟩ := h
  simp only [opensConnection, decide_eq_true_eq] at hc
  refine hc hk fun hnil => ?_
  simp [service, Op.exec, hnil] at he

private theorem opensConnection_pop (ha : io.Announces cmd) :
    ¬ service.Can₁ (opensConnection k cmd) K io (.eventFreePop .clientOpen) none := by
  rintro ⟨sh, v, sh', -, hc, he⟩
  simp only [opensConnection, decide_eq_true_eq] at hc
  simp only [service, Op.exec] at he
  split at he
  · rename_i hnil
    exact hc ha hnil
  · simp at he

private theorem opensConnection_push {e : Nat} {evt : Event} (ha : io.Announces cmd) (ht : evt.type = .clientOpen) :
    ¬ service.Can₁ (opensConnection k cmd) K io (.eventReadyPush e evt) false := by
  rintro ⟨sh, v, sh', -, hc, he⟩
  simp only [opensConnection, decide_eq_true_eq] at hc
  simp [service, Op.exec, hc ht ha] at he

end Conditions

/-- What holds of the attempt for the command `cmd`, the one with number `k`, between two callbacks and at each
operation. -/
structure Attempt (k : Nat) (cmd : Cmd) (v : View Io Op) : Prop where
  rest : v.next = none → Tried (v.loc.handledCmd k = some cmd) cmd v.loc
  tracked : v.loc.handledCmd k = some cmd → v.loc.Tracked cmd

private theorem Tried.attempt {o : Option Op} (ht : Tried (io.handledCmd k = some cmd) cmd io) :
    Attempt k cmd ⟨io, o⟩ :=
  ⟨fun _ => ht, fun hk => ht.tracked hk⟩

private theorem IoRun.code_tried (hcan : Promised can E) (hi : IoInv n E io) (hs : Settled io) (ht : Tried P cmd io)
    {d : IoRun} {sh : Shared} (hr : d.ready sh io = true) (hd : d.kind ≠ .command)
    (ho : ∀ q status out, d ≠ .outbound q status out) :
    KeepsConns can (Tried P cmd) d.code io := by
  by_cases hservice : d.kind = .service
  · have hmove : ∀ {l : Io}, ServiceMove io l → Tried P cmd l := fun hm =>
      ht.sameReqs hm.conns.count (fun h hlt => (hm.conns.handles h hlt).openCmd) hm.conns.reqs
        ⟨[], by rw [hm.pushed, List.append_nil]⟩
    exact Code.path_mono (fun l _ hm => hmove hm) (fun l _ hm => hmove hm) (IoRun.serviceMove hi hs hr hservice)
  cases d with
  | thread out => exact absurd rfl hservice
  | timer => exact absurd rfl hservice
  | signal isSigint => exact absurd rfl hservice
  | uvRunReturn => exact absurd rfl hservice
  | check out => exact absurd rfl hd
  | outbound q status out => exact absurd rfl (ho q status out)
  | inbound status out =>
    exact onInboundConnectionCb_conns tried_conns.toKeptByUse hi ht (fun l hl _ => tried_conns.stray hi ht hl)
      (fun _ _ _ _ _ _ _ => trivial) status
  | read handle out =>
    simp only [IoRun.ready, Bool.and_eq_true, decide_eq_true_eq] at hr
    exact uvRead_conns tried_conns.toKeptByUse hcan hi hs hr.1.1 ht hr.2 out
  | close handle =>
    simp only [IoRun.ready, Bool.and_eq_true, decide_eq_true_eq, Bool.not_eq_true'] at hr
    exact uvFinishClose_conns tried_conns hcan hi hs hr.1.1 ht hr.2.1 hr.2.2
  | send req => exact send_conns (n := n) (E := E) tried_conns.toKeptByUse ht req

theorem attempt (ho : cmd.type = .clientOpen) (h : ReachWhen (opensConnection k cmd) n c) :
    Attempt k cmd c.fst.view := by
  have hE : Premises.In ⟨False, False, False⟩ (opensConnection k cmd) :=
    ⟨False.elim, False.elim, False.elim, False.elim⟩
  have hK := fun c (hc : ReachWhen (opensConnection k cmd) n c) => ioInv hE hc
  refine Machine.Reach.invariant₁
    (K := fun _ v _ => IoInv n ⟨False, False, False⟩ v.loc ∧ (v.next = none → Settled v.loc)) hK
    ⟨fun _ => ⟨by simp [Io.setup], by simp [Io.setup, Io.handledCmd]⟩, by simp [Io.setup, Io.handledCmd]⟩ ?_ h
  rintro d io ⟨sh, v, ⟨hi, hs⟩, hr, hc⟩ hat
  have ht := hat.rest rfl
  by_cases hcmd : d.kind = .command
  · cases d with
    | check out =>
      have hout : io.handled.length = k → out.Connects := by
        simpa only [opensConnection, decide_eq_true_eq] using hc
      exact Code.path_mono (fun l _ hl => hl.attempt) (fun l _ hl => hl.attempt)
        (onCheckCb_tried hi ho hout (fun c hcan hk => opensConnection_free hk hcan) ht)
    | _ => simp [IoRun.kind] at hcmd
  -- no other code handles a command
  have hsame : ∀ {l : Io}, d.kind.Frame io l → l.handledCmd k = io.handledCmd k := by
    intro l hl
    rw [Io.handledCmd, Io.handledCmd, (hl.command hcmd).1]
  have hframe := Prog.path_anti (c := service.Can₁ (opensConnection k cmd)
    fun _ v _ => IoInv n ⟨False, False, False⟩ v.loc ∧ (v.next = none → Settled v.loc)) (fun _ _ _ _ => trivial)
      (d.keepsTo.path io)
  by_cases hout : ∃ q status out, d = .outbound q status out
  · obtain ⟨q, status, out, rfl⟩ := hout
    simp only [service, IoRun.ready, Bool.and_eq_true, decide_eq_true_eq] at hr
    have hcalls : (∃ h ∈ (io.connectReqs q).handle, (io.handles h).openCmd = some cmd) → 0 ≤ status ∧
      out.HasAddresses := by
      simpa only [opensConnection, decide_eq_true_eq] using hc
    refine Code.path_mono (fun l _ hl => ⟨by simp, fun hk => hl.1 (hsame hl.2.2 ▸ hk)⟩)
      (fun l _ hl => Tried.attempt (hl.1.mono fun hk => hsame hl.2 ▸ hk))
      (Prog.path_and (outbound_tried hi (hs rfl) hr.1.1 hr.2 ht hcalls ?_ ?_) hframe)
    · exact fun l hl => opensConnection_pop hl
    · exact fun l e evt hl ht => opensConnection_push hl ht
  · refine Code.path_mono (fun l _ hl => ?_) (fun l _ hl => ?_) (Prog.path_and
      (IoRun.code_tried (hE.promised _) hi (hs rfl) ht hr hcmd fun q status out he => hout ⟨q, status, out, he⟩) hframe)
    · exact Tried.attempt (hl.1.mono fun hk => hsame hl.2.2 ▸ hk)
    · exact Tried.attempt (hl.1.mono fun hk => hsame hl.2 ▸ hk)

/-- In every run in which the attempt for an open command gets to its event, some event with the id of the command was
pushed once the attempt is over. -/
theorem open_reported (h : ReachWhen (opensConnection k cmd) n c) (ho : cmd.type = .clientOpen)
    (hk : c.fst.view.loc.handledCmd k = some cmd) : c.fst.view.loc.Attempting cmd ∨ c.fst.view.loc.Reported cmd := by
  refine ((attempt ho h).tracked hk).imp_right ?_
  rintro ⟨x, -, hx, p, hp, rfl, ht⟩
  have hids := (correlation (P := False) False.elim h).events p hp
  refine ⟨p, hp, (hids.opens ht (.inr (by simp [hx]))).trans ?_⟩
  rw [hx]
  rfl

/-- The connection of the command `7` is opened, and closed by the peer. -/
theorem open_reported_closed : ∃ c cmd, ReachWhen (opensConnection 0 cmd) 1 c ∧
    ⟨.cmdOpen {} 7, true, 7⟩ ∈ c.snd.view.loc.succeeded ∧ c.fst.view.loc.handledCmd 0 = some cmd ∧ cmd.id = 7 ∧
    (c.fst.view.loc.Attempting cmd ∨ c.fst.view.loc.Reported cmd) := by
  obtain ⟨c, hc, hs, hk⟩ := exists_reachWhen (opensConnection 0 { obj := 0, id := 7 }) 1
    (.flatten [dialled, [.run₁ (.read 5 (.error 0)), .op₁, .op₁, .run₁ (.close 5), .op₁, .op₁, .op₁]])
    (fun c => ⟨.cmdOpen {} 7, true, 7⟩ ∈ c.snd.view.loc.succeeded ∧
      c.fst.view.loc.handledCmd 0 = some { obj := 0, id := 7 }) (by decide +kernel)
  exact ⟨c, _, hc, hs, hk, rfl, open_reported hc rfl hk⟩

/-- The only link is in use when the command `7` is handled: the attempt is over, an event is free, and nothing is
reported. -/
theorem open_vanishes : ∃ c cmd, Reach 1 c ∧ ⟨.cmdOpen {} 7, true, 7⟩ ∈ c.snd.view.loc.succeeded ∧
    c.fst.view.loc.handledCmd 0 = some cmd ∧ cmd.type = .clientOpen ∧ cmd.id = 7 ∧ c.sh.eventFree ≠ [] ∧
    ¬ c.fst.view.loc.Attempting cmd ∧ ¬ c.fst.view.loc.Reported cmd := by
  obtain ⟨c, hc, hs, hk, hfree, hno, hnone⟩ := exists_reachWhen .any 1
    (.flatten [startUp, [.run₁ (.inbound 0 {}), .op₁, .op₁],
      [.run₂ (.cmdOpen {} 7), .op₂, .op₂, .op₂, .run₁ (.check {}), .op₁, .op₁]])
    (fun c => ⟨.cmdOpen {} 7, true, 7⟩ ∈ c.snd.view.loc.succeeded ∧
      c.fst.view.loc.handledCmd 0 = some { obj := 0, id := 7 } ∧ c.sh.eventFree ≠ [] ∧
      (∀ h < c.fst.view.loc.handleCount, (c.fst.view.loc.handles h).openCmd = none) ∧
      ∀ p ∈ c.fst.view.loc.pushed, p.evt.cmdId ≠ 7) (by decide +kernel)
  refine ⟨c, _, hc, hs, hk, rfl, rfl, hfree, ?_, ?_⟩
  · rintro ⟨h, hlt, ho, -⟩
    exact absurd ((hno h hlt).symm.trans ho) (by simp)
  · rintro ⟨p, hp, hid⟩
    exact hnone p hp hid

end ServerLynx
