import ServerLynx.IoRun

/-!
# The link slots over whole runs

What the invariant of the IO thread says about the links in every reachable state: the free list and the links in
use exclude each other, and a link that is open leads to a live handle of its own.  No link is lost as long as
`on_close_link_cb` finds a free event; when the event pool is empty at that moment, the link never comes back.
-/

namespace ServerLynx

open Threads

variable {n : Nat} {c : ServiceConfig}

/-- A connect that completes does so with a status that is not negative. -/
def IoRun.statusOk : IoRun → Bool
  | .outbound _ status _ => decide (0 ≤ status)
  | _ => true

/-- The runs in which no connect fails. -/
def noFailedConnect : ServiceCond where
  run₁ d _ _ _ := d.statusOk

/-! ### Exclusivity -/

/-- What a command acts on is the handle of the link it names, and a command may use that link. -/
theorem handleCmd_acted (can : Io → (o : Op) → o.Res → Prop) (io : Io) (cmd : Cmd) (out : CmdOut) :
    (handleCmd cmd out).path can (fun _ _ => True)
      (fun _ acted => ∀ h, acted = some h → ∃ i, usableLink io cmd.clientId = some (i, h)) io := by
  have hsend : (handleCmdSend cmd out).path can (fun _ _ => True)
      (fun _ acted => ∀ h, acted = some h → ∃ i, usableLink io cmd.clientId = some (i, h)) io := by
    simp only [handleCmdSend, Code.path_bind, Code.path_get]
    rcases usableLink io cmd.clientId with _ | ⟨i, h⟩
    · simp
    simp only [Code.path_bind, Code.path_get]
    rcases io.sendReqList.popBack with _ | ⟨r, list⟩
    · simp
    · simp [pushSendReq]
  have hclose : (handleCmdClose cmd).path can (fun _ _ => True)
      (fun _ acted => ∀ h, acted = some h → ∃ i, usableLink io cmd.clientId = some (i, h)) io := by
    simp only [handleCmdClose, Code.path_bind, Code.path_get]
    rcases usableLink io cmd.clientId with _ | ⟨i, h⟩
    · simp
    · simp [modifyLink]
  unfold handleCmd
  cases cmd.type with
  | clientOpen =>
    simp only [Code.path_bind, Code.path_pure]
    exact Prog.path_mono (fun _ _ h => h) (fun _ _ _ _ h => by simp at h) (Prog.path_trivial _)
  | clientClose => exact hclose
  | clientSend => exact hsend

/-- The handle is an initialised TCP handle that is neither closing nor released, and its link is `i`. -/
def Handle.Usable (x : Handle) (i : Nat) : Prop :=
  x.kind = .tcpClient ∧ x.isInit = true ∧ x.closing = none ∧ x.released = 0 ∧ x.data = some i

/-- Link exclusivity and handle validity.  The callbacks never used a variable before its assignment; no link is
in the free list twice; the calls of `svl_link_list_open` and `svl_link_list_close` take turns on each link; each
link has its number as id; and an open link, as well as every link that a close or a send acts on, has a handle
that may be used. -/
structure LinksExclusive (n : Nat) (io : Io) : Prop where
  defined : io.phase ≠ .undefined
  nodup : io.linkList.clientListFree.items.Nodup
  turns : ∀ i < n, linkTurn io.linkLog i = some (decide (i ∉ io.linkList.clientListFree.items))
  ids : ∀ i < n, (io.link i).id = i
  opened : ∀ i < n, (io.link i).state = .opened → ∃ h, (io.link i).priv = some h ∧ (io.handles h).Usable i
  acted : ∀ cmd out h, (handleCmd cmd out io).result = some (some h) →
    cmd.clientId < n ∧ (io.link cmd.clientId).priv = some h ∧ (io.handles h).Usable cmd.clientId

theorem links_exclusive (hc : ReachWhen noFailedConnect n c) : LinksExclusive n c.fst.view.loc := by
  have hi := (ioInv (E := ⟨False, False, True⟩)
    ⟨False.elim, False.elim, False.elim, fun _ _ _ _ _ _ _ h => by simpa [noFailedConnect, IoRun.statusOk] using h⟩
    hc).1
  have husable : ∀ {h i}, (c.fst.view.loc.handles h).Holds i → (c.fst.view.loc.handles h).closing = none →
      (c.fst.view.loc.handles h).Usable i := fun hh hn => ⟨hh.1.1, hh.1.2.2.1, hn, hh.2, hh.data⟩
  refine ⟨hi.defined trivial, hi.slots.nodup, hi.slots.turns, hi.slots.ids, ?_, ?_⟩
  · intro i hlt ho
    obtain ⟨h, hp, hh, hn⟩ := hi.slots.opened i hlt ho
    exact ⟨h, hp, husable hh hn⟩
  · intro cmd out h hr
    obtain ⟨i, hu⟩ := (handleCmd_acted (fun _ _ _ => True) _ cmd out).result hr h rfl
    obtain ⟨rfl, hlt, -, hp, hh, hn⟩ := usableLink_eq_some hi.slots hu
    exact ⟨hlt, hp, husable hh hn⟩

/-- A client was accepted: its link is open, and a close command for it would act on its handle. -/
theorem links_exclusive_accepted : ∃ c, ReachWhen noFailedConnect 1 c ∧
    ((c.fst.view.loc.link 0).state = .opened ∧
      (handleCmd { obj := 0, type := .clientClose } {} c.fst.view.loc).result = some (some 5)) ∧
    LinksExclusive 1 c.fst.view.loc := by
  obtain ⟨c, hc, hP⟩ := exists_reachWhen noFailedConnect 1 (.flatten [startUp, [.run₁ (.inbound 0 {}), .op₁, .op₁]])
    (fun c => (c.fst.view.loc.link 0).state = .opened ∧
      (handleCmd { obj := 0, type := .clientClose } {} c.fst.view.loc).result = some (some 5)) (by decide +kernel)
  exact ⟨c, hc, hP, links_exclusive hc⟩

/-! ### Leaks -/

/-- No link is lost: each is in the free list, or is the link of a TCP handle whose close callback has not run. -/
def LinksCovered (n : Nat) (io : Io) : Prop :=
  ∀ i < n, i ∈ io.linkList.clientListFree.items ∨ ∃ h, (io.link i).priv = some h ∧
    (io.handles h).kind = .tcpClient ∧ (io.handles h).data = some i ∧ (io.handles h).released = 0

/-- The runs in which no connect fails and `on_close_link_cb` always finds a free event. -/
def closeFindsEvent : ServiceCond where
  op₁ sh v _ := match v.next with
    | some (.eventFreePop .clientClose) => !sh.eventFree.isEmpty
    | _ => true
  run₁ d _ _ _ := d.statusOk

theorem links_covered (hc : ReachWhen closeFindsEvent n c) : LinksCovered n c.fst.view.loc := by
  have hi := (ioInv (E := ⟨True, False, True⟩)
    ⟨fun _ _ _ _ h => by simpa [closeFindsEvent] using h, False.elim, False.elim,
      fun _ _ _ _ _ _ _ h => by simpa [closeFindsEvent, IoRun.statusOk] using h⟩ hc).1
  intro i hlt
  refine (hi.covered trivial i hlt).imp_right ?_
  rintro ⟨h, hh⟩
  exact ⟨h, (hi.slots.holds h i hh).2.2, hh.1.1, hh.data, hh.2⟩

/-- A client reads one message and closes the connection: its link is free again. -/
def readAndClose : List (Act IoRun MainCall) :=
  [.run₁ (.inbound 0 {}), .op₁, .op₁,
    .run₁ (.read 5 (.data [1])), .op₁, .op₁, .op₁, .op₁, .op₁, .op₁, .op₁,
    .run₁ (.read 5 (.error 0)), .op₁, .op₁, .run₁ (.close 5), .op₁, .op₁, .op₁]

theorem links_covered_closed : ∃ c, ReachWhen closeFindsEvent 1 c ∧
    ((c.fst.view.loc.handles 5).released = 1 ∧ c.fst.view.loc.linkList.clientListFree.items = [0]) ∧
    LinksCovered 1 c.fst.view.loc := by
  obtain ⟨c, hc, hP⟩ := exists_reachWhen closeFindsEvent 1 (.flatten [startUp, readAndClose])
    (fun c => (c.fst.view.loc.handles 5).released = 1 ∧ c.fst.view.loc.linkList.clientListFree.items = [0])
    (by decide +kernel)
  exact ⟨c, hc, hP, links_covered hc⟩

/-- Three reads use up the four events of a service for one client; then its close callback finds none. -/
private def leakRun : List (Act IoRun MainCall) :=
  let read : List (Act IoRun MainCall) :=
    [.run₁ (.read 5 (.data [1])), .op₁, .op₁, .op₁, .op₁, .op₁, .op₁, .op₁]
  .flatten [[.run₁ (.inbound 0 {}), .op₁, .op₁], read, read, read,
    [.run₁ (.read 5 (.error 0)), .op₁, .op₁, .run₁ (.close 5), .op₁, .op₁]]

/-- The link is lost: it is not free, and its handle is released. -/
theorem links_leaked : ∃ c, ReachWhen noFailedConnect 1 c ∧ c.fst.view.loc.phase = .running ∧
    ¬ LinksCovered 1 c.fst.view.loc := by
  obtain ⟨c, hc, hp, hfree, hpriv, hrel⟩ := exists_reachWhen noFailedConnect 1 (.flatten [startUp, leakRun])
    (fun c => c.fst.view.loc.phase = .running ∧ c.fst.view.loc.linkList.clientListFree.items = [] ∧
      (c.fst.view.loc.link 0).priv = some 5 ∧ (c.fst.view.loc.handles 5).released = 1) (by decide +kernel)
  refine ⟨c, hc, hp, fun hcov => ?_⟩
  rcases hcov 0 Nat.zero_lt_one with hm | ⟨h, hh, -, -, hr⟩
  · simp [hfree] at hm
  · obtain rfl : 5 = h := Option.some.inj (hpriv.symm.trans hh)
    omega

end ServerLynx
