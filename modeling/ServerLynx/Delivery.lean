import ServerLynx.Commands
import ServerLynx.Links

/-!
# The connection that a command reaches

A close or send names a client id, which is the number of a link, and a link is handed out again once its connection
is closed.  When `on_check_cb` takes such a command, it acts on the connection that holds the link by then.  That is
the connection whose `OPEN` event told the id to the main thread, unless the close callback of that connection has
released its handle already; there is nothing in the code that tells the two apart.
-/

namespace ServerLynx

open Threads

variable {n : Nat} {c c' : ServiceConfig} {io : Io}

/-- The main thread learnt the client id of the command from the `OPEN` event `p` of a connection, and had not acquired
a `CLOSE` event of that connection when it issued the command. -/
structure IssuedFor (io : Io) (x : Accepted) (p : Pushed) : Prop where
  learnt : p ∈ io.pushed.take x.acquired
  opened : p.evt.type = .clientOpen
  clientId : p.evt.clientId = x.cmd.clientId
  type : x.cmd.type = .clientClose ∨ x.cmd.type = .clientSend
  notClosed : ∀ p' ∈ io.pushed.take x.acquired, p'.conn = p.conn → p'.evt.type ≠ .clientClose

/-- The next command in the ready list was issued for the connection of `p`, and `on_check_cb` handles it on the way
from `c` to `c'`. -/
structure Handles (c c' : ServiceConfig) (io : Io) (x : Accepted) (p : Pushed) : Prop where
  code : ∃ out, c.fst = onCheckCb out io
  step : service.step c .op₁ = some c'
  next : c.sh.accepted[io.handled.length]? = some x
  issued : IssuedFor io x p

/-- The command was handled, and it was rejected or acted on the connection of `p`. -/
def ReachedOrRejected (io io' : Io) (x : Accepted) (p : Pushed) : Prop :=
  ∃ y, io'.handled = io.handled ++ [y] ∧ y.cmd = x.cmd ∧ ∀ h, y.acted = some h → h = p.conn

/-- `on_check_cb` takes the command after those that were handled, handles it and is about to give it back. -/
theorem onCheckCb_takes {out : CmdOut} {x : Accepted} {P : Io → Option Nat → Prop} (hc : Reach n c)
    (hio : c.fst = onCheckCb out io) (hs : service.step c .op₁ = some c')
    (hx : c.sh.accepted[io.handled.length]? = some x)
    (hP : (handleCmd x.cmd out).path (fun _ _ _ => True) (fun _ _ => True) P io) :
    ∃ l acted, P l acted ∧ l.handled = io.handled ∧ c'.fst.view.loc = { l with
      inCheck := true, cmd := some x.cmd
      handled := l.handled ++ [⟨x.cmd, linkIsOpen io x.cmd.clientId, acted⟩] } := by
  have hj := commands hc
  rw [hio] at hj
  -- the command in front of the ready list is the one after those that were handled
  obtain ⟨cs, hready⟩ : ∃ cs, c.sh.cmdReady = x.cmd :: cs := by
    have hloc : (onCheckCb out io).view.loc = io := rfl
    have hacc := congrArg (fun l => l[io.handled.length]?) hj.handled
    simp only [hloc, List.getElem?_map, hx, Option.map_some] at hacc
    rw [List.getElem?_append_right (by simp)] at hacc
    simp only [List.length_map, Nat.sub_self] at hacc
    cases hr : c.sh.cmdReady with
    | nil => simp [hr] at hacc
    | cons cmd cs => exact ⟨cs, by simpa [hr, eq_comm] using hacc⟩
  obtain ⟨r, sh', he, rfl⟩ := Machine.step_op₁ hio hs
  obtain rfl : some x.cmd = r := by
    change Op.exec .cmdReadyPop c.sh = some (r, sh') at he
    simp only [Op.exec, hready, Option.some.injEq, Prod.mk.injEq] at he
    exact he.1
  let Good : Io → Prop := fun io' => ∃ l acted, P l acted ∧ l.handled = io.handled ∧ io' = { l with
    inCheck := true, cmd := some x.cmd
    handled := l.handled ++ [⟨x.cmd, linkIsOpen io x.cmd.clientId, acted⟩] }
  -- only the way to the next operation matters, so no result of it is looked at
  refine Prog.path.loc (P := Good) (?_ : Prog.path (fun _ _ _ => False) _ _ _)
  change Code.path (fun _ _ _ => False) (fun l _ => Good l) (do
    let linkOpen := linkIsOpen (← get) x.cmd.clientId
    let acted ← handleCmd x.cmd out
    modify fun io => { io with
      inCheck := true, cmd := some x.cmd, handled := io.handled ++ [⟨x.cmd, linkOpen, acted⟩] }
    let _ ← perform (.cmdFreePush x.cmd)
    modify fun io => { io with cmd := none }) (fun l _ => Good l) io
  simp only [Code.path_bind, Code.path_get]
  refine Code.path_mono (fun _ _ h => h.1.1.elim) ?_
    (Prog.path_anti (fun _ _ _ h => h.elim) (Prog.path_and ((handleCmd_onLinks x.cmd out).path io) hP))
  rintro l acted ⟨hl, hp⟩
  simp only [Code.path_modify, Code.path_op]
  exact ⟨⟨l, acted, hp, hl.command.1, rfl⟩, fun _ h => h.elim⟩

private theorem onCheckCb_handled {out : CmdOut} {x : Accepted} (hc : Reach n c) (hio : c.fst = onCheckCb out io)
    (hs : service.step c .op₁ = some c') (hx : c.sh.accepted[io.handled.length]? = some x) :
    ∃ y, c'.fst.view.loc.handled = io.handled ++ [y] ∧ y.cmd = x.cmd ∧
      ∀ h, y.acted = some h → ∃ i, usableLink io x.cmd.clientId = some (i, h) := by
  obtain ⟨l, acted, ha, hl, hc'⟩ := onCheckCb_takes hc hio hs hx (handleCmd_acted _ io x.cmd out)
  exact ⟨_, by rw [hc', hl], rfl, ha⟩

/-- Until the connection that a command was issued for is released, the command reaches it or is rejected.  Whatever
a command acts on holds the link that it names. -/
theorem commands_reach_connection (hc : Reach n c) {x : Accepted} {p : Pushed} (h : Handles c c' io x p) :
    ((io.handles p.conn).released = 0 → ReachedOrRejected io c'.fst.view.loc x p) ∧
      ∀ y h, c'.fst.view.loc.handled = io.handled ++ [y] → y.acted = some h → (io.handles h).Holds x.cmd.clientId := by
  obtain ⟨⟨out, hio⟩, hs, hx, hp⟩ := h
  obtain ⟨y, hy, hcmd, hacted⟩ := onCheckCb_handled hc hio hs hx
  have hi := (ioInv (E := ⟨False, False, False⟩) ⟨False.elim, False.elim, False.elim, False.elim⟩ hc).1
  rw [hio] at hi
  have hholds : ∀ h, y.acted = some h → (io.handles h).Holds x.cmd.clientId := by
    intro h hh
    obtain ⟨i, hu⟩ := hacted h hh
    obtain ⟨rfl, -, -, -, hholds, -⟩ := usableLink_eq_some hi.slots hu
    exact hholds
  refine ⟨fun hrel => ⟨y, hy, hcmd, fun h hh => ?_⟩, fun y' h hy' hh => ?_⟩
  · -- the connection of the `OPEN` event holds the link as well
    have hgiven := hi.given p (List.mem_of_mem_take hp.learnt) hp.opened
    rw [hp.clientId] at hgiven
    exact hi.slots.holder_unique (hholds h hh) ⟨hgiven, hrel⟩
  · obtain rfl : y = y' := by simpa using hy.symm.trans hy'
    exact hholds h hh

instance (io : Io) (x : Accepted) (p : Pushed) : Decidable (IssuedFor io x p) :=
  decidable_of_iff
    (p ∈ io.pushed.take x.acquired ∧ p.evt.type = .clientOpen ∧ p.evt.clientId = x.cmd.clientId ∧
      (x.cmd.type = .clientClose ∨ x.cmd.type = .clientSend) ∧
      ∀ p' ∈ io.pushed.take x.acquired, p'.conn = p.conn → p'.evt.type ≠ .clientClose)
    ⟨fun ⟨h₁, h₂, h₃, h₄, h₅⟩ => ⟨h₁, h₂, h₃, h₄, h₅⟩, fun ⟨h₁, h₂, h₃, h₄, h₅⟩ => ⟨h₁, h₂, h₃, h₄, h₅⟩⟩

/-- A computed run up to the point where `on_check_cb` is called to handle a command. -/
private theorem exists_handles {s : List (Act IoRun MainCall)} {P : Io → Io → Pushed → Prop}
    [∀ io io' p, Decidable (P io io' p)]
    (h : (service.runWhen .any (ServiceConfig.setup 1) s).any (fun c => decide
      (∃ x ∈ c.sh.accepted, ∃ p ∈ c.fst.view.loc.pushed, c.sh.accepted[c.fst.view.loc.handled.length]? = some x ∧
        IssuedFor c.fst.view.loc x p ∧ ((service.step c (.run₁ (.check {}))).bind fun c => service.step c .op₁).any
          (fun c' => decide (P c.fst.view.loc c'.fst.view.loc p)) = true)) = true) :
    ∃ c c' io x p, Reach 1 c ∧ Handles c c' io x p ∧ P io c'.fst.view.loc p := by
  obtain ⟨c₀, hc₀, x, -, p, -, hx, hp, hs⟩ := exists_reachWhen .any 1 s
    (fun c => ∃ x ∈ c.sh.accepted, ∃ p ∈ c.fst.view.loc.pushed,
      c.sh.accepted[c.fst.view.loc.handled.length]? = some x ∧ IssuedFor c.fst.view.loc x p ∧
        ((service.step c (.run₁ (.check {}))).bind fun c => service.step c .op₁).any
          (fun c' => decide (P c.fst.view.loc c'.fst.view.loc p)) = true) h
  obtain ⟨c', hc', hP⟩ := (Option.any_eq_true _ _).1 hs
  obtain ⟨c, hc, hs⟩ := Option.bind_eq_some_iff.1 hc'
  obtain ⟨io, hio, -, rfl⟩ := Machine.step_run₁ hc
  rw [hio] at hx hp hP
  exact ⟨_, c', io, x, p, hc₀.step _ rfl hc, ⟨⟨{}, rfl⟩, hs, hx, hp⟩, of_decide_eq_true hP⟩

/-- A client connects, and the main thread learns its id. -/
private def learn : List (Act IoRun MainCall) :=
  .flatten [startUp, [.run₁ (.inbound 0 {}), .op₁, .op₁, .run₂ .eventsAcquire, .op₂]]

theorem commands_reach_connection_close : ∃ c c' io x p, Reach 1 c ∧ Handles c c' io x p ∧
    (io.handles p.conn).released = 0 ∧ ReachedOrRejected io c'.fst.view.loc x p := by
  obtain ⟨c, c', io, x, p, hc, hh, hrel⟩ := exists_handles (P := fun io _ p => (io.handles p.conn).released = 0)
    (s := .flatten [learn, [.run₂ (.cmdClose 0 1), .op₂, .op₂, .op₂]]) (by decide +kernel)
  exact ⟨c, c', io, x, p, hc, hh, hrel, (commands_reach_connection hc hh).1 hrel⟩

/-- The client is gone when the main thread closes it, and another one has got its link: that one is closed. -/
theorem command_reaches_other_connection : ∃ c c' io x p, Reach 1 c ∧ Handles c c' io x p ∧
    ¬ ReachedOrRejected io c'.fst.view.loc x p := by
  obtain ⟨c, c', io, x, p, hc, hh, hacted, hconn⟩ := exists_handles
    (P := fun _ io' p => io'.handled.getLast?.bind (·.acted) = some 6 ∧ p.conn = 5)
    (s := .flatten [learn, [.run₂ (.cmdClose 0 1), .op₂, .op₂, .op₂, .run₁ (.read 5 (.error 3)), .op₁, .op₁,
      .run₁ (.close 5), .op₁, .op₁, .op₁, .run₁ (.inbound 0 {}), .op₁, .op₁]]) (by decide +kernel)
  refine ⟨c, c', io, x, p, hc, hh, fun ⟨y, hy, _, hreach⟩ => ?_⟩
  rw [hy, List.getLast?_concat] at hacted
  exact absurd (hreach 6 hacted) (by simp [hconn])

end ServerLynx
