import ServerLynx.Connections

/-!
# Commands and the events they lead to

The id of a command travels from the command to the link and from the link to a recycled event object.  `Correlated`
says that it arrives: an `OPEN` or `CLOSE` event has the id of the command that opened or closed its connection, and
`TN_CMD_INVALID` if no command did.  `on_inbound_connection_cb` does not write the id of its `OPEN` event, so that this
part depends on what the event object held before.
-/

namespace ServerLynx

open Threads

/-- The id of the command behind a connection, `TN_CMD_INVALID` if there is none. -/
def cmdIdOf : Option Cmd → Nat
  | none => cmdInvalid
  | some c => c.id

/-- The ids of the links in use and of all `OPEN` and `CLOSE` events are those of the commands that opened or closed
the connections. -/
structure Correlated (io : Io) : Prop where
  links : ∀ h i, (io.handles h).Holds i →
    (io.link i).cmdOpenId = cmdIdOf (io.handles h).openCmd ∧ (io.link i).cmdCloseId = cmdIdOf (io.handles h).closeCmd
  opens : ∀ p ∈ io.pushed, p.evt.type = .clientOpen → p.evt.cmdId = cmdIdOf (io.handles p.conn).openCmd
  closes : ∀ p ∈ io.pushed, p.evt.type = .clientClose → p.evt.cmdId = cmdIdOf (io.handles p.conn).closeCmd

/-- The connection of the handle `h` is up and has not been announced: a callback is about to do so. -/
def Io.Unannounced (io : Io) (h : Nat) : Prop :=
  (io.handles h).data ≠ none ∧ (io.handles h).closing = none ∧ (io.handles h).connecting = false ∧
    ¬ WasOpened io.pushed h

instance (io : Io) (h : Nat) : Decidable (io.Unannounced h) := inferInstanceAs (Decidable (_ ∧ _ ∧ _ ∧ _))

/-- The runs in which the event that is popped to announce an accepted connection holds no id of a command. -/
def acceptsWithCleanEvents : ServiceCond where
  op₁ sh v _ := match v.next with
    | some (.eventFreePop .clientOpen) =>
      decide (∀ h < v.loc.handleCount, v.loc.Unannounced h → (v.loc.handles h).openCmd = none →
        ∀ e ∈ sh.eventFree.head?, (sh.events e).cmdId = cmdInvalid)
    | _ => true

/-! ### The invariant -/

/-- The event has the id of the command behind it; an event about an accepted connection has it under the premise
`P`. -/
structure EventIds (P : Prop) (io : Io) (p : Pushed) : Prop where
  lt : p.conn < io.handleCount
  opens : p.evt.type = .clientOpen → P ∨ (io.handles p.conn).openCmd ≠ none →
    p.evt.cmdId = cmdIdOf (io.handles p.conn).openCmd
  closes : p.evt.type = .clientClose →
    (io.handles p.conn).closing ≠ none ∧ p.evt.cmdId = cmdIdOf (io.handles p.conn).closeCmd

/-- The link has the ids of the commands behind the connection of the handle `h`. -/
structure LinkIds (io : Io) (h i : Nat) : Prop where
  lt : h < io.handleCount
  openId : (io.link i).cmdOpenId = cmdIdOf (io.handles h).openCmd
  closeId : (io.link i).cmdCloseId = cmdIdOf (io.handles h).closeCmd

structure Correlation (P : Prop) (io : Io) : Prop where
  links : ∀ h i, (io.handles h).Holds i → LinkIds io h i
  events : ∀ p ∈ io.pushed, EventIds P io p

variable {n : Nat} {E : Premises} {P : Prop} {io l : Io}

theorem Correlation.correlated (hP : P) (hc : Correlation P io) : Correlated io where
  links h i hh := ⟨(hc.links h i hh).openId, (hc.links h i hh).closeId⟩
  opens p hp ht := (hc.events p hp).opens ht (.inl hP)
  closes p hp ht := ((hc.events p hp).closes ht).2

theorem correlation_setup (n : Nat) (P : Prop) : Correlation P (.setup n) where
  links h i hh := absurd hh.1 (Handle.not_given_of_data rfl i)
  events p hp := by simp [Io.setup] at hp

/-- What an event says stays true while the commands of its connection stay. -/
theorem EventIds.keep {p : Pushed} (he : EventIds P io p) (hc : io.handleCount ≤ l.handleCount)
    (hs : (io.handles p.conn).SameCmds (l.handles p.conn)) : EventIds P l p where
  lt := Nat.lt_of_lt_of_le he.lt hc
  opens := by
    rw [hs.openCmd]
    exact he.opens
  closes ht := by
    rw [hs.closeCmd]
    exact ⟨hs.closing (he.closes ht).1, (he.closes ht).2⟩

theorem LinkIds.keep {h i : Nat} (hl : LinkIds io h i) (hc : io.handleCount ≤ l.handleCount)
    (hs : (io.handles h).SameCmds (l.handles h)) (hk : (io.link i).SameIds (l.link i)) : LinkIds l h i where
  lt := Nat.lt_of_lt_of_le hl.lt hc
  openId := by
    rw [hk.cmdOpenId, hs.openCmd]
    exact hl.openId
  closeId := by
    rw [hk.cmdCloseId, hs.closeCmd]
    exact hl.closeId

/-- Nothing is pushed, and the commands of the handles stay. -/
theorem Correlation.frame (hcor : Correlation P io) (hc : io.handleCount ≤ l.handleCount)
    (hs : ∀ h < io.handleCount, (io.handles h).SameCmds (l.handles h)) (hp : l.pushed = io.pushed)
    (hlinks : ∀ h i, (l.handles h).Holds i → LinkIds l h i) : Correlation P l where
  links := hlinks
  events p hm := by
    rw [hp] at hm
    exact (hcor.events p hm).keep hc (hs _ (hcor.events p hm).lt)

/-- Besides, no handle holds a link that it did not hold, and the ids of these links stay. -/
theorem Correlation.fewer (hcor : Correlation P io) (hc : io.handleCount ≤ l.handleCount)
    (hs : ∀ h < io.handleCount, (io.handles h).SameCmds (l.handles h)) (hp : l.pushed = io.pushed)
    (hh : ∀ h i, (l.handles h).Holds i → (io.handles h).Holds i ∧ (io.link i).SameIds (l.link i)) :
    Correlation P l := by
  refine hcor.frame hc hs hp fun h i hhold => ?_
  obtain ⟨hold, hids⟩ := hh h i hhold
  have hl := hcor.links h i hold
  exact hl.keep hc (hs h hl.lt) hids

/-- One handle changes, but neither its commands nor the link it holds. -/
theorem Correlation.setHandle (hcor : Correlation P io) {h : Nat} {f : Handle → Handle}
    (hf : (io.handles h).SameCmds (f (io.handles h))) (hh : ∀ i, (f (io.handles h)).Holds i → (io.handles h).Holds i)
    (hl : l.handles = Function.update io.handles h (f (io.handles h))) (hc : l.handleCount = io.handleCount)
    (hk : l.linkList.clientMap = io.linkList.clientMap) (hp : l.pushed = io.pushed) : Correlation P l := by
  have hcase : ∀ h', l.handles h' = io.handles h' ∨ h' = h ∧ l.handles h' = f (io.handles h') := by
    intro h'
    rw [hl]
    by_cases he : h' = h
    · exact .inr ⟨he, by rw [he, Function.update_self]⟩
    · exact .inl (Function.update_of_ne he _ _)
  refine hcor.fewer (Nat.le_of_eq hc.symm) (fun h' _ => ?_) hp fun h' i hhold => ⟨?_, ?_⟩
  · rcases hcase h' with he | ⟨rfl, he⟩
    · rw [he]
      exact ⟨rfl, rfl, rfl, fun h => h⟩
    · rw [he]
      exact hf
  · rcases hcase h' with he | ⟨rfl, he⟩
    · exact he ▸ hhold
    · exact hh i (he ▸ hhold)
  · rw [show l.link i = io.link i from congrFun hk i]
    exact .refl _

/-- A handle is made for a connection, and its link has the ids of its commands. -/
theorem Correlation.made (hi : IoInv n E io) (hcor : Correlation P io) {i : Nat} {list : LinkList} {x : Handle}
    (ho : io.linkList.svlLinkListOpen = some (i, list)) (hx : x.data = some i)
    (hh : l.handles = Function.update io.handles io.handleCount x) (hc : l.handleCount = io.handleCount + 1)
    (hother : ∀ j, j ≠ i → l.link j = io.link j) (hself : LinkIds l io.handleCount i) (hp : l.pushed = io.pushed) :
    Correlation P l := by
  have hne : ∀ h, h ≠ io.handleCount → l.handles h = io.handles h := fun h hne => by
    rw [hh, Function.update_of_ne hne]
  refine hcor.frame (by omega) (fun h hlt => ?_) hp fun h j hhold => ?_
  · rw [hne h (Nat.ne_of_lt hlt)]
    exact ⟨rfl, rfl, rfl, fun h => h⟩
  · by_cases he : h = io.handleCount
    · subst he
      have hd := hhold.data
      rw [hh, Function.update_self, hx] at hd
      exact Option.some.inj hd ▸ hself
    · rw [hne h he] at hhold
      -- the link that was free has no holder
      have hj : j ≠ i := by
        rintro rfl
        exact hi.slots.not_holds_of_free (by simp [(LinkList.svlLinkListOpen_eq_some.1 ho).1]) h hhold
      refine (hcor.links h j hhold).keep (by omega) ?_ ?_
      · rw [hne h he]
        exact ⟨rfl, rfl, rfl, fun h => h⟩
      · rw [hother j hj]
        exact .refl _

/-! ### The callbacks -/

private theorem evolves_sameCmds {x y : Handle} (hev : x.Evolves y) : x.SameCmds y :=
  ⟨hev.openCmd, hev.closeCmd, hev.data, hev.closing⟩

private theorem Correlation.onConn {stale : Nat → Prop} (hstale : ∀ id, stale id → P → id = cmdInvalid)
    (hcor : Correlation P io) {h i : Nat} (hhold : (io.handles h).Holds i)
    (hl : OnConn (Pushable stale io h i) h i io l) : Correlation P l := by
  have hcmds : ∀ h', (io.handles h').SameCmds (l.handles h') := by
    intro h'
    by_cases he : h' = h
    · exact he ▸ evolves_sameCmds hl.handle
    · rw [hl.handles h' he]
      exact ⟨rfl, rfl, rfl, fun h => h⟩
  have hids : ∀ j, (io.link j).SameIds (l.link j) := by
    intro j
    by_cases he : j = i
    · exact he ▸ hl.link
    · rw [hl.links j he]
      exact .refl _
  have hold := hcor.links h i hhold
  constructor
  · intro h' j hh'
    have hold' : (io.handles h').Holds j ∨ h' = h ∧ j = i := by
      by_cases he : h' = h
      · subst he
        have hd := hl.handle.data ▸ hh'.data
        exact .inr ⟨rfl, Option.some.inj (hd.symm.trans hhold.data)⟩
      · exact .inl (hl.handles h' he ▸ hh')
    have hlink : LinkIds io h' j := by
      rcases hold' with hold' | ⟨rfl, rfl⟩
      · exact hcor.links h' j hold'
      · exact hold
    exact hlink.keep (Nat.le_of_eq hl.count.symm) (hcmds h') (hids j)
  · obtain ⟨ps, hps, hnew⟩ := hl.pushed
    intro p hm
    rw [hps] at hm
    rcases List.mem_append.1 hm with hm | hm
    · exact (hcor.events p hm).keep (Nat.le_of_eq hl.count.symm) (hcmds _)
    · obtain ⟨hconn, hp⟩ := hnew p hm
      have he : EventIds P io p := by
        rw [← hconn] at hold hp
        refine ⟨hold.lt, fun ht hcond => ?_, fun ht => ?_⟩
        · simp only [Pushable, ht] at hp
          rcases hp with hp | ⟨hno, hst⟩
          · exact hp.trans hold.openId
          · rw [hstale _ hst (hcond.resolve_right (not_not.2 hno)), hno]
            rfl
        · simp only [Pushable, ht] at hp
          exact ⟨hp.2, hp.1.trans hold.closeId⟩
      exact he.keep (Nat.le_of_eq hl.count.symm) (hcmds _)

private theorem Correlation.stray (hi : IoInv n E io) (hcor : Correlation P io) {cmd : Option Cmd}
    (hl : MadeStray cmd io l) : Correlation P l := by
  obtain ⟨x, hx, -, hh⟩ := hl.handles
  have hne : ∀ h, h ≠ io.handleCount → l.handles h = io.handles h := fun h hne => by
    rw [hh, Function.update_of_ne hne]
  refine hcor.fewer (hl.count ▸ Nat.le_succ _) (fun h hlt => ?_) hl.pushed fun h i hhold => ?_
  · rw [hne h (Nat.ne_of_lt hlt)]
    exact ⟨rfl, rfl, rfl, fun h => h⟩
  · by_cases he : h = io.handleCount
    · subst he
      rw [hh, Function.update_self] at hhold
      obtain ⟨⟨-, -, hinit, hc⟩, -⟩ := hhold
      rw [hx.closing hinit] at hc
      simp at hc
    · rw [hne h he] at hhold
      rw [hl.links i (hi.slots.holds h i hhold).2.1]
      exact ⟨hhold, .refl _⟩

private theorem correlation_conns {stale : Nat → Prop} (hstale : ∀ id, stale id → P → id = cmdInvalid) :
    KeptByConns n E stale (Correlation P) where
  same {io l} hcor hs := by
    refine hcor.fewer (Nat.le_of_eq hs.count.symm) (fun h _ => ?_) hs.pushed fun h i hh => ?_
    · rw [hs.handles]
      exact ⟨rfl, rfl, rfl, fun h => h⟩
    · rw [hs.handles] at hh
      rw [show l.link i = io.link i from congrFun hs.links i]
      exact ⟨hh, .refl _⟩
  conn hcor hh hl := hcor.onConn hstale hh hl
  closed hcor hh _ hl := by
    obtain ⟨l', list, log, refused, hl', hmap, rfl⟩ := hl
    refine (hcor.onConn hstale hh hl').setHandle (f := fun x => { x with released := x.released + 1 })
      ⟨rfl, rfl, rfl, fun h => h⟩ (fun i hh' => absurd hh'.2 (by simp)) rfl rfl hmap rfl
  stray hi hcor hl := hcor.stray hi hl
  attach {io i list} hi hcor ho := by
    refine hcor.made hi ho (x := { kind := .tcpClient, loop := io.loop, isInit := true, data := some i }) rfl rfl rfl
      (fun j hne => Io.attach_link_ne ho hne none _) ⟨Nat.lt_succ_self _, ?_, ?_⟩ rfl
    · rw [Io.attach_link_self ho, Io.attach_handles_self]
      rfl
    · rw [Io.attach_link_self ho, Io.attach_handles_self]
      rfl
  finish hcor _ := hcor.setHandle (f := fun x => { x with closed := true }) ⟨rfl, rfl, rfl, fun h => h⟩
    (fun _ hh => hh) rfl rfl
    rfl rfl
  release hcor _ := hcor.setHandle (f := fun x => { x with released := x.released + 1 }) ⟨rfl, rfl, rfl, fun h => h⟩
    (fun i hh => absurd hh.2 (by simp)) rfl rfl rfl rfl

private theorem Correlation.closedBy (hi : IoInv n E io) (hcor : Correlation P io) (cmd : Cmd) {h i : Nat}
    (hhold : (io.handles h).Holds i) (hn : (io.handles h).closing = none) : Correlation P (io.closedBy cmd i h) := by
  have hself : ((io.closedBy cmd i h).handles h).openCmd = (io.handles h).openCmd ∧
      ((io.closedBy cmd i h).handles h).closeCmd = some cmd ∧ ((io.closedBy cmd i h).handles h).data = some i := by
    simp [Io.closedBy, Io.uvClose, Io.setHandle, Io.setLink, hhold.data]
  have hne : ∀ h', h' ≠ h → (io.closedBy cmd i h).handles h' = io.handles h' := fun h' he => by
    simp [Io.closedBy, Io.uvClose, Io.setHandle, Io.setLink, Function.update_of_ne he]
  have hlink : ((io.closedBy cmd i h).link i).cmdOpenId = (io.link i).cmdOpenId ∧
      ((io.closedBy cmd i h).link i).cmdCloseId = cmd.id := by
    simp [Io.closedBy, Io.uvClose, Io.setHandle, Io.setLink, Io.link]
  have hlinks : ∀ j, j ≠ i → (io.closedBy cmd i h).link j = io.link j := fun j he => by
    simp [Io.closedBy, Io.uvClose, Io.setHandle, Io.setLink, Io.link, Function.update_of_ne he]
  have hold := hcor.links h i hhold
  constructor
  · intro h' j hh'
    by_cases he : h' = h
    · subst he
      obtain rfl : j = i := Option.some.inj (hh'.data.symm.trans hself.2.2)
      refine ⟨hold.lt, ?_, ?_⟩
      · rw [hlink.1, hself.1]
        exact hold.openId
      · rw [hlink.2, hself.2.1]
        rfl
    · rw [hne h' he] at hh'
      have hj : j ≠ i := by
        rintro rfl
        exact he (hi.slots.holder_unique hh' hhold)
      refine (hcor.links h' j hh').keep (Nat.le_refl _) ?_ ?_
      · rw [hne h' he]
        exact ⟨rfl, rfl, rfl, fun h => h⟩
      · rw [hlinks j hj]
        exact .refl _
  · intro p hm
    have hp := hcor.events p hm
    by_cases he : p.conn = h
    · refine ⟨hp.lt, fun ht => ?_, fun ht => ?_⟩
      · rw [he, hself.1, ← he]
        exact hp.opens ht
      · exact absurd (he ▸ hn) (hp.closes ht).1
    · exact hp.keep (Nat.le_refl _) (by rw [hne _ he]; exact ⟨rfl, rfl, rfl, fun h => h⟩)

variable {can : Io → (o : Op) → o.Res → Prop}

/-- What the IO thread is given to run keeps the ids, where the premise `P` is that an event popped for an accepted
connection holds no id. -/
theorem IoRun.code_correlation (hcan : Promised can E) (hi : IoInv n E io) (hs : Settled io) (hcor : Correlation P io)
    (hclean : ∀ i list (g : Link → Endpoint) e popped, io.linkList.svlLinkListOpen = some (i, list) →
      can ((io.attach i list none (Link.accept io.handleCount)).setLink i fun link =>
      { link with endpointRemote := g link })
        (.eventFreePop .clientOpen) (some (e, popped)) → P → popped.cmdId = cmdInvalid) {d : IoRun} {sh : Shared}
    (hr : d.ready sh io = true) : KeepsConns can (Correlation P) d.code io := by
  have hJ : KeptByConns n E (fun id => P → id = cmdInvalid) (Correlation P) := correlation_conns fun _ h => h
  by_cases hd : d.kind = .service
  · refine Code.path_mono (fun l _ hm => ?_) (fun l _ hm => ?_) (IoRun.serviceMove hi hs hr hd)
    all_goals
      refine hcor.fewer hm.conns.count hm.conns.handles hm.pushed fun h i hh => ⟨hm.holds h i hh, ?_⟩
      rw [Io.link, Io.link, hm.links]
      exact .refl _
  cases d with
  | thread out => exact absurd rfl hd
  | timer => exact absurd rfl hd
  | signal isSigint => exact absurd rfl hd
  | uvRunReturn => exact absurd rfl hd
  | inbound status out =>
    exact onInboundConnectionCb_conns hJ.toKeptByUse hi hcor (fun l hl _ => hJ.stray hi hcor hl) hclean status
  | outbound req status out =>
    simp only [IoRun.ready, Bool.and_eq_true, decide_eq_true_eq] at hr
    refine onOutboundConnectionCb_conns hJ.toKeptByUse hi hs hr.1.1 hr.2 (fun h _ => ?_) status out
    exact hcor.setHandle (f := fun x => { x with connecting := false }) ⟨rfl, rfl, rfl, fun h => h⟩
      (fun _ hh => hh) rfl rfl rfl
      rfl
  | read handle out =>
    simp only [IoRun.ready, Bool.and_eq_true, decide_eq_true_eq] at hr
    exact uvRead_conns hJ.toKeptByUse hcan hi hs hr.1.1 hcor hr.2 out
  | close handle =>
    simp only [IoRun.ready, Bool.and_eq_true, decide_eq_true_eq, Bool.not_eq_true'] at hr
    exact uvFinishClose_conns hJ hcan hi hs hr.1.1 hcor hr.2.1 hr.2.2
  | send req => exact send_conns hJ.toKeptByUse hcor req
  | check out =>
    refine onCheckCb_conns hJ.toKeptByUse hi hcor (fun cmd _ _ _ => ⟨hcor, fun l hl _ => hcor.stray hi hl⟩) ?_
      fun cmd i h hh hn => hcor.closedBy hi cmd hh hn
    intro cmd i list l ho hl
    refine hcor.made hi ho rfl hl.handles hl.count hl.links ⟨hl.count ▸ Nat.lt_succ_self _, ?_, ?_⟩ hl.pushed
    · rw [hl.link.1, hl.handles, Function.update_self]
      rfl
    · rw [hl.link.2, hl.handles, Function.update_self]
      rfl

/-! ### Whole runs -/

variable {c : ServiceConfig}

/-- The ids of commands in every state that a run reaches. -/
theorem correlation {cond : ServiceCond} (hP : P → ∀ sh io v, cond.op₁ sh ⟨io, some (.eventFreePop .clientOpen)⟩ v →
      ∀ h < io.handleCount, io.Unannounced h → (io.handles h).openCmd = none →
        ∀ e ∈ sh.eventFree.head?, (sh.events e).cmdId = cmdInvalid) (h : ReachWhen cond n c) :
    Correlation P c.fst.view.loc := by
  have hE : Premises.In ⟨False, False, False⟩ cond := ⟨False.elim, False.elim, False.elim, False.elim⟩
  have hK := fun c (hc : ReachWhen cond n c) => ioInv hE hc
  refine Machine.Reach.invariant₁ (I := fun v => Correlation P v.loc)
    (K := fun _ v _ => IoInv n ⟨False, False, False⟩ v.loc ∧ (v.next = none → Settled v.loc)) hK
    (correlation_setup n P) ?_ h
  rintro d io ⟨sh, v, ⟨hi, hs⟩, hr, -⟩ hcor
  refine IoRun.code_correlation (hE.promised _) hi (hs rfl) hcor ?_ hr
  rintro i list g e popped ho ⟨sh, v, sh', -, hc, he⟩ hP'
  have hno : ¬ WasOpened io.pushed io.handleCount := by
    refine hi.not_wasOpened fun j => ?_
    rw [hi.slots.fresh _ (Nat.le_refl _)]
    exact Handle.not_given_of_data rfl j
  have hclean := hP hP' sh _ v hc io.handleCount (Nat.lt_succ_self _)
    (by simpa [Io.Unannounced, Io.setLink, Io.attach] using hno) (by simp [Io.setLink, Io.attach])
  simp only [service, Op.exec] at he
  split at he
  · simp at he
  · rename_i e' es hfree
    simp only [Option.some.injEq, Prod.mk.injEq] at he
    obtain ⟨⟨rfl, rfl⟩, -⟩ := he
    exact hclean e' (by simp [hfree])

/-- In every run in which the events popped for accepted connections hold no id of a command, all events have the ids
of the commands that opened or closed their connections. -/
theorem commands_correlated (h : ReachWhen acceptsWithCleanEvents n c) : Correlated c.fst.view.loc :=
  (correlation (P := True) (fun _ sh io v hc => by simpa [acceptsWithCleanEvents] using hc) h).correlated trivial

/-- Steps that open a connection by the command `7`. -/
def dialled : List (Act IoRun MainCall) :=
  .flatten [startUp, [.run₂ (.cmdOpen {} 7), .op₂, .op₂, .op₂, .run₁ (.check {}), .op₁, .op₁, .run₁ (.check {}), .op₁,
    .run₁ (.outbound 0 0 {}), .op₁, .op₁]]

/-- Steps after which the event at the head of the free list has the id `TN_CMD_INVALID`, from the end of the first
connection, which was opened by the command `7`.  The second one was opened by `8` and closed by `9`. -/
private def closedByPeer : List (Act IoRun MainCall) :=
  .flatten [dialled, [.run₁ (.read 5 (.error 0)), .op₁, .op₁, .run₁ (.close 5), .op₁, .op₁, .op₁],
    [.run₂ .eventsAcquire, .op₂, .run₂ .eventsRelease, .op₂, .op₂, .op₂, .op₂],
    [.run₂ (.cmdOpen {} 8), .op₂, .op₂, .op₂, .run₁ (.check {}), .op₁, .op₁, .run₁ (.check {}), .op₁,
      .run₁ (.outbound 1 0 {}), .op₁, .op₁],
    .run₁ (.read 6 (.data [1])) :: .replicate 7 .op₁,
    [.run₂ (.cmdClose 0 9), .op₂, .op₂, .op₂, .run₁ (.check {}), .op₁, .op₁, .run₁ (.check {}), .op₁,
      .run₁ (.close 6), .op₁, .op₁]]

/-- After two connections that the main thread opened, a client connects. -/
theorem commands_correlated_closed : ∃ c, ReachWhen acceptsWithCleanEvents 1 c ∧
    (c.fst.view.loc.pushed.map fun p => (p.conn, p.evt.type)) = [(5, .clientOpen), (5, .clientClose), (6, .clientOpen),
      (6, .clientRead), (6, .clientClose), (7, .clientOpen)] ∧
    (∃ p ∈ c.fst.view.loc.pushed, p.conn = 6 ∧ p.evt.type = .clientClose ∧ p.evt.cmdId = 9) ∧
    (∃ p ∈ c.fst.view.loc.pushed, p.conn = 7 ∧ p.evt.cmdId = cmdInvalid) ∧ Correlated c.fst.view.loc := by
  obtain ⟨c, hc, hp, hclose, haccept⟩ := exists_reachWhen acceptsWithCleanEvents 1
    (.flatten [closedByPeer, [.run₁ (.inbound 0 {}), .op₁, .op₁]])
    (fun c => (c.fst.view.loc.pushed.map fun p => (p.conn, p.evt.type)) = [(5, .clientOpen), (5, .clientClose),
        (6, .clientOpen), (6, .clientRead), (6, .clientClose), (7, .clientOpen)] ∧
      (∃ p ∈ c.fst.view.loc.pushed, p.conn = 6 ∧ p.evt.type = .clientClose ∧ p.evt.cmdId = 9) ∧
      ∃ p ∈ c.fst.view.loc.pushed, p.conn = 7 ∧ p.evt.cmdId = cmdInvalid)
    (by decide +kernel)
  exact ⟨c, hc, hp, hclose, haccept, commands_correlated hc⟩

/-- The event that announced the connection of the command `7` is used again for a client that connects: its `OPEN`
has the id `7` as well. -/
theorem accept_keeps_old_id : ∃ c, Reach 1 c ∧ ¬ Correlated c.fst.view.loc := by
  obtain ⟨c, hc, p, hp, ht, hid, hno⟩ := exists_reachWhen .any 1
    (.flatten [dialled, [.run₁ (.read 5 (.error 0)), .op₁, .op₁, .run₁ (.close 5), .op₁, .op₁, .op₁],
      [.run₂ .eventsAcquire, .op₂, .run₂ .eventsRelease, .op₂, .op₂, .op₂, .op₂],
      [.run₁ (.inbound 0 {}), .op₁, .op₁, .run₁ (.read 6 (.error 0)), .op₁, .op₁, .run₁ (.close 6), .op₁, .op₁, .op₁],
      [.run₂ .eventsAcquire, .op₂, .run₂ .eventsRelease, .op₂, .op₂, .op₂, .op₂],
      [.run₁ (.inbound 0 {}), .op₁, .op₁]])
    (fun c => ∃ p ∈ c.fst.view.loc.pushed, p.evt.type = .clientOpen ∧ p.evt.cmdId = 7 ∧
      (c.fst.view.loc.handles p.conn).openCmd = none) (by decide +kernel)
  refine ⟨c, hc, fun hcor => ?_⟩
  have := hcor.opens p hp ht
  rw [hid, hno] at this
  exact absurd this (by decide)

end ServerLynx
