import ServerLynx.IoRun
import ServerLynx.Kinds

/-!
# Commands over whole runs

The path of a command object: from the free list to the hands of the main thread, to the ready list, to the hands of
the IO thread and back.  `Commands` is the invariant over all interleavings; from it follow the order in which
commands are handled, that no push to either list ever fails, and what a `svl_service_cmd_*` call that fails leaves
behind.
-/

namespace ServerLynx

open Threads

/-! ### The invariant -/

/-- The command is the one that the call asked for, under the id that the call returned. -/
def Issued (r : Returned) (c : Cmd) : Prop :=
  c.id = r.cmdId ∧ match r.call with
    | .cmdOpen endpoint _ => c.type = .clientOpen ∧ c.endpoint = endpoint
    | .cmdClose clientId _ => c.type = .clientClose ∧ c.clientId = clientId
    | .cmdSend clientId msg msglen _ =>
      c.type = .clientSend ∧ c.clientId = clientId ∧ c.buffer = msg ∧ c.len = msglen
    | _ => False

/-- The commands that were handled or are waiting are those that calls returned `TN_SUCCESS` for, in order; each
object is in one list or in the hands of one thread; and no push was refused. -/
structure Commands.Base (n : Nat) (sh : Shared) (io : Io) (m : Main) : Prop where
  count : sh.bufferCount = n * 4 % 2 ^ 64
  handled : sh.accepted.map (·.cmd) = io.handled.map (·.cmd) ++ sh.cmdReady
  issued : List.Forall₂ Issued m.succeeded (sh.accepted.map (·.cmd))
  objects : ((sh.cmdFree ++ sh.cmdReady ++ (io.cmd.toList ++ m.cmd.toList)).map (·.obj)).Perm
    (List.range sh.bufferCount)
  refused : .cmdFree ∉ sh.refused ∧ .cmdReady ∉ sh.refused

/-- The invariant of the commands: an object in the hands of a thread is about to be pushed. -/
structure Commands (n : Nat) (sh : Shared) (v : View Io Op) (w : View Main Op) : Prop
    extends Commands.Base n sh v.loc w.loc where
  ioHand : v.loc.cmd = none ∨ ∃ c, v.next = some (.cmdFreePush c)
  mainHand : w.loc.cmd = none ∨ ∃ c, w.next = some (.cmdReadyPush c)

/-- The command lists are the same, and nothing new was refused by them. -/
structure CmdFrame (sh sh' : Shared) : Prop where
  count : sh'.bufferCount = sh.bufferCount
  free : sh'.cmdFree = sh.cmdFree
  ready : sh'.cmdReady = sh.cmdReady
  accepted : sh'.accepted = sh.accepted
  refused : ∀ x ∈ sh'.refused, x = .cmdFree ∨ x = .cmdReady → x ∈ sh.refused

variable {n : Nat} {sh sh' : Shared} {io l : Io} {m m' : Main}

/-- The operations of the other kinds leave the command lists alone. -/
theorem Op.exec_cmdFrame {o : Op} (ho : o.kind ≠ .command) {r : o.Res} (h : o.exec sh = some (r, sh')) :
    CmdFrame sh sh' := by
  cases o <;> simp only [Op.kind, ne_eq, not_true_eq_false, reduceCtorEq, not_false_eq_true] at ho <;>
    simp only [Op.exec] at h
  all_goals
    first
    | (obtain ⟨-, rfl⟩ := Prod.mk.inj (Option.some.inj h); exact ⟨rfl, rfl, rfl, rfl, fun _ hx _ => hx⟩)
    | (split at h <;> first
        | (obtain ⟨-, rfl⟩ := Prod.mk.inj (Option.some.inj h)
           refine ⟨rfl, rfl, rfl, rfl, fun x hx ho => ?_⟩
           simp only [List.mem_cons] at hx
           rcases hx with rfl | hx
           · simp at ho
           · exact hx)
        | (obtain ⟨-, rfl⟩ := Prod.mk.inj (Option.some.inj h); exact ⟨rfl, rfl, rfl, rfl, fun _ hx _ => hx⟩)
        | (split at h <;> first
            | (obtain ⟨-, rfl⟩ := Prod.mk.inj (Option.some.inj h); exact ⟨rfl, rfl, rfl, rfl, fun _ hx _ => hx⟩)
            | simp at h))

namespace Commands.Base

theorem of_frame (hb : Base n sh io m) (h : CmdFrame sh sh') : Base n sh' io m where
  count := h.count.trans hb.count
  handled := by rw [h.accepted, h.ready]; exact hb.handled
  issued := by rw [h.accepted]; exact hb.issued
  objects := by rw [h.free, h.ready, h.count]; exact hb.objects
  refused := ⟨fun hm => hb.refused.1 (h.refused _ hm (.inl rfl)), fun hm => hb.refused.2 (h.refused _ hm (.inr rfl))⟩

theorem of_io (hb : Base n sh io m) (h : l.handled = io.handled ∧ l.cmd = io.cmd) : Base n sh l m where
  count := hb.count
  handled := by rw [h.1]; exact hb.handled
  issued := hb.issued
  objects := by rw [h.2]; exact hb.objects
  refused := hb.refused

theorem of_main (hb : Base n sh io m) (h : m'.succeeded = m.succeeded ∧ m'.cmd = m.cmd) : Base n sh io m' where
  count := hb.count
  handled := hb.handled
  issued := by rw [h.1]; exact hb.issued
  objects := by rw [h.2]; exact hb.objects
  refused := hb.refused

/-- `on_check_cb` takes the next command. -/
theorem pop (hb : Base n sh io m) (hi : io.cmd = none) {c : Cmd} {cs : List Cmd} (hr : sh.cmdReady = c :: cs)
    {y : Handled} (hy : y.cmd = c) (hl : l.handled = io.handled ++ [y]) (hc : l.cmd = some c) :
    Base n { sh with cmdReady := cs } l m where
  count := hb.count
  handled := by
    rw [hb.handled, hr, hl, List.map_append, List.append_assoc]
    simp [hy]
  issued := hb.issued
  objects := by
    refine List.Perm.trans ?_ hb.objects
    rw [hr, hc, hi]
    refine List.Perm.map _ ?_
    simp only [Option.toList_some, Option.toList_none, List.nil_append, List.append_assoc, List.singleton_append]
    exact List.Perm.append_left _ List.perm_middle
  refused := hb.refused

/-- `on_check_cb` gives the object back; there is room for it. -/
theorem free (hb : Base n sh io m) {c : Cmd} (hi : io.cmd = some c) (hl : l.handled = io.handled ∧ l.cmd = none) :
    sh.cmdFree.length < sh.bufferCount ∧ Base n { sh with cmdFree := sh.cmdFree ++ [c] } l m := by
  refine ⟨?_, hb.count, by rw [hl.1]; exact hb.handled, hb.issued, ?_, hb.refused⟩
  · have hlen := hb.objects.length_eq
    rw [hi] at hlen
    simp only [List.length_map, List.length_append, List.length_range, Option.toList_some, List.length_cons] at hlen
    omega
  · refine List.Perm.trans ?_ hb.objects
    rw [hi, hl.2]
    refine List.Perm.map _ ?_
    simp only [Option.toList_some, Option.toList_none, List.nil_append, List.append_assoc, List.singleton_append]
    exact List.Perm.append_left _ List.perm_middle.symm

/-- A `svl_service_cmd_*` call takes an object and fills it in. -/
theorem take (hb : Base n sh io m) (hm : m.cmd = none) {c c' : Cmd} {cs : List Cmd} (hf : sh.cmdFree = c :: cs)
    (hc : c'.obj = c.obj) (h : m'.succeeded = m.succeeded ∧ m'.cmd = some c') :
    Base n { sh with cmdFree := cs } io m' where
  count := hb.count
  handled := hb.handled
  issued := by rw [h.1]; exact hb.issued
  objects := by
    refine List.Perm.trans ?_ hb.objects
    rw [h.2, hm, hf]
    simp only [List.map_append, List.map_cons, Option.toList_some, Option.toList_none, List.append_nil, hc,
      List.map_nil, List.cons_append, ← List.append_assoc]
    exact List.perm_append_singleton ..
  refused := hb.refused

/-- There is room in the ready list for an object that the main thread has taken. -/
theorem room (hb : Base n sh io m) {c : Cmd} (hm : m.cmd = some c) : sh.cmdReady.length < sh.bufferCount := by
  have hlen := hb.objects.length_eq
  rw [hm] at hlen
  simp only [List.length_map, List.length_append, List.length_range, Option.toList_some, List.length_cons] at hlen
  omega

/-- The call queues the object and returns `TN_SUCCESS`. -/
theorem queue (hb : Base n sh io m) {c : Cmd} (hm : m.cmd = some c) {y : Main} {r : Returned} (hr : Issued r c)
    (h : y.succeeded = m.succeeded ++ [r] ∧ y.cmd = none) {acquired : Nat} {message : List UInt8} :
    Base n { sh with
      cmdReady := sh.cmdReady ++ [c], accepted := sh.accepted ++ [⟨c, acquired, message⟩] } io y where
  count := hb.count
  handled := by
    simp only [List.map_append, hb.handled, List.append_assoc]
    rfl
  issued := by
    rw [h.1, List.map_append]
    exact List.rel_append hb.issued (List.Forall₂.cons hr .nil)
  objects := by
    refine List.Perm.trans ?_ hb.objects
    rw [hm, h.2]
    refine List.Perm.map _ ?_
    simp only [Option.toList_some, Option.toList_none, List.append_nil, List.append_assoc, List.singleton_append]
    refine List.Perm.append_left _ (List.Perm.append_left _ ?_)
    exact (List.perm_append_singleton c io.cmd.toList).symm
  refused := hb.refused

end Commands.Base

/-! ### The IO thread -/

section IoThread

variable {C : Shared → View Io Op → View Main Op → Prop} {S : Shared → View Main Op → Prop}

private structure Apart (n : Nat) (io : Io) (sh : Shared) (w : View Main Op) : Prop where
  base : Commands.Base n sh io w.loc
  mainHand : w.loc.cmd = none ∨ ∃ c, w.next = some (.cmdReadyPush c)

private theorem apart_commands {d : IoRun} (hd : d.kind ≠ .command) (hi : io.cmd = none)
    (hS : ∀ sh w, S sh w → Apart n io sh w) :
    d.code.wp Op.exec (fun _ _ _ => True) (Commands n) C S (Post (fun _ _ _ => True) (Commands n)) io := by
  refine Prog.wp_mono ?_ (Prog.wp_of_path (R := Apart n io) ?_ ?_ (d.keepsTo.path io) hS)
  · intro S l _ h sh w hs _
    have hw := h.1 sh w hs
    exact ⟨hw.base.of_io (h.2.command hd), .inl ((h.2.command hd).2.trans hi), hw.mainHand⟩
  · intro sh l o w hI _ hw
    exact ⟨hw.base.of_io (hI.2.command hd), .inl ((hI.2.command hd).2.trans hi), hw.mainHand⟩
  · intro sh sh' l o r w hI _ hj he
    have hframe := Op.exec_cmdFrame (by rw [hI.1.1]; exact hd) he
    have hio := hI.2.command hd
    exact ⟨(hj.toBase.of_frame hframe).of_io ⟨hio.1.symm, hio.2.symm⟩, hj.mainHand⟩

private theorem onCheckCb_commands (out : CmdOut) (hi : io.cmd = none) (hS : ∀ sh w, S sh w → Apart n io sh w) :
    (onCheckCb out).wp Op.exec (fun _ _ _ => True) (Commands n) C S (Post (fun _ _ _ => True) (Commands n)) io := by
  simp only [onCheckCb, Code.wp_bind, Code.wp_op]
  refine ⟨fun sh w hs _ => ⟨(hS sh w hs).base, .inl hi, (hS sh w hs).mainHand⟩, ?_⟩
  rintro (_ | cmd) -
  · rintro sh w ⟨sh₀, -, hj, -, he⟩ -
    obtain rfl : sh = sh₀ := by
      simp only [Op.exec] at he
      split at he <;> simp at he
      exact he.symm
    exact ⟨hj.toBase.of_io ⟨rfl, rfl⟩, .inl hi, hj.mainHand⟩
  simp only [Code.wp_bind, Code.wp_get]
  refine Code.wp_mono ?_ (Prog.wp_of_silent (c := fun _ _ _ => True) (Q := fun l _ => LinksFrame io l) ?_ _)
  · rintro _ l acted ⟨rfl, hl⟩
    simp only [Code.wp_modify, Code.wp_op]
    have hpopped : ∀ sh w, After Op.exec (fun _ _ _ => True) (Commands n) C io .cmdReadyPop (some cmd) sh w →
        Commands n sh ⟨{ l with
          inCheck := true, cmd := some cmd
          handled := l.handled ++ [⟨cmd, linkIsOpen io cmd.clientId, acted⟩] }, some (.cmdFreePush cmd)⟩ w := by
      rintro sh w ⟨sh₀, -, hj, -, he⟩
      simp only [Op.exec] at he
      split at he
      · simp at he
      · rename_i c cs hr
        simp only [Option.some.injEq, Prod.mk.injEq] at he
        obtain ⟨rfl, rfl⟩ := he
        exact ⟨hj.toBase.pop hi hr rfl (by rw [hl.command.1]) rfl, .inr ⟨_, rfl⟩, hj.mainHand⟩
    refine ⟨fun sh w hs _ => hpopped sh w hs, ?_⟩
    rintro r - sh w ⟨sh₀, -, hj, -, he⟩ -
    obtain ⟨hroom, hfree⟩ := hj.toBase.free (c := cmd) (l := { l with
      inCheck := true, cmd := none
      handled := l.handled ++ [⟨cmd, linkIsOpen io cmd.clientId, acted⟩] }) rfl ⟨rfl, rfl⟩
    simp only [Op.exec, hroom, if_true, Option.some.injEq, Prod.mk.injEq] at he
    obtain ⟨-, rfl⟩ := he
    exact ⟨hfree, .inl rfl, hj.mainHand⟩
  · exact Prog.path_mono (fun _ _ h => h.1) (fun _ _ h => h) ((handleCmd_onLinks cmd out).path io)

end IoThread

/-! ### The main thread -/

section MainThread

variable {C : Shared → View Main Op → View Io Op → Prop} {S : Shared → View Io Op → Prop}

private abbrev MainCommands (n : Nat) (sh : Shared) (w : View Main Op) (v : View Io Op) : Prop := Commands n sh v w

private structure MainApart (n : Nat) (m : Main) (sh : Shared) (v : View Io Op) : Prop where
  base : Commands.Base n sh v.loc m
  ioHand : v.loc.cmd = none ∨ ∃ c, v.next = some (.cmdFreePush c)

private theorem MainApart.commands {o : Option Op} {v : View Io Op} (ha : MainApart n m sh v) (hm : m.cmd = none)
    (h : m'.succeeded = m.succeeded ∧ m'.cmd = m.cmd) : Commands n sh v ⟨m', o⟩ :=
  ⟨ha.base.of_main h, ha.ioHand, .inl (h.2.trans hm)⟩

private theorem MainApart.ended {call : MainCall} {success : Bool} {cmdId : Nat}
    (hS : ∀ sh v, S sh v → MainApart n m sh v) (hm : m.cmd = none) (hl : m'.succeeded = m.succeeded ∧ m'.cmd = m.cmd)
    (hcall : success = true → call.isCmd = false) :
    Post (fun _ _ _ => True) (MainCommands n) S { m' with
      call := none, returned := some ⟨call, success, cmdId⟩
      succeeded := if success && call.isCmd then m'.succeeded ++ [⟨call, success, cmdId⟩] else m'.succeeded } () := by
  intro sh v hs _
  have hno : (success && call.isCmd) = false := by
    cases success with
    | false => rfl
    | true => simp [hcall rfl]
  exact (hS sh v hs).commands hm ⟨by simp [hno, hl.1], hl.2⟩

private theorem MainApart.load {o : Op} {r : o.Res} (ho : o = .stateLoad ∨ o = .writeReqsFreePeek) :
    ∀ sh v, After Op.exec (fun _ _ _ => True) (MainCommands n) C m o r sh v → MainApart n m sh v := by
  rintro sh v ⟨sh₀, -, hj, -, he⟩
  obtain rfl : sh = sh₀ := by
    rcases ho with rfl | rfl <;> exact (Prod.mk.inj (Option.some.inj he)).2.symm
  exact ⟨hj.toBase, hj.ioHand⟩

private theorem queueCmd_commands {call : MainCall} (hcall : call.isCmd = true) {type : CmdType} {id : Nat}
    {fields : Cmd → Cmd} (hobj : ∀ c, (fields c).obj = c.obj)
    (hissued : ∀ c : Cmd, c.type = type → Issued ⟨call, true, (fields c).id⟩ (fields c))
    (hm : m.cmd = none) (hS : ∀ sh v, S sh v → MainApart n m sh v) :
    (queueCmd type id fields >>= endCall call).wp Op.exec (fun _ _ _ => True) (MainCommands n) C S
      (Post (fun _ _ _ => True) (MainCommands n)) m := by
  simp only [queueCmd, Code.wp_bind, Code.wp_op]
  refine ⟨fun sh v hs _ => (hS sh v hs).commands hm ⟨rfl, rfl⟩, ?_⟩
  rintro (_ | c) ⟨sh₁, v₁, sh₂, -, -, -, he₁⟩
  · -- no object is free
    refine MainApart.ended (m := m) ?_ hm ⟨rfl, rfl⟩ (by simp)
    rintro sh v ⟨sh₀, -, hj, -, he⟩
    obtain rfl : sh = sh₀ := by
      simp only [Op.exec] at he
      split at he <;> simp at he
      exact he.symm
    exact ⟨hj.toBase, hj.ioHand⟩
  -- the object has the type and the id that it was taken for
  obtain ⟨c₁, rfl⟩ : ∃ c₁ : Cmd, { c₁ with type := type, id := id } = c := by
    simp only [Op.exec] at he₁
    split at he₁
    · simp at he₁
    · simp only [Option.some.injEq, Prod.mk.injEq] at he₁
      exact ⟨_, he₁.1⟩
  simp only [Code.wp_bind, Code.wp_modify, Code.wp_op, Code.wp_ite, Code.wp_pure, Bool.not_eq_true']
  have hi := hissued { c₁ with type := type, id := id } rfl
  refine ⟨?_, fun pushed _ => ⟨fun hno => ?_, fun hyes => ?_⟩⟩
  · rintro sh v ⟨sh₀, -, hj, -, he⟩ -
    simp only [Op.exec] at he
    split at he
    · simp at he
    · rename_i c₀ cs hf
      simp only [Option.some.injEq, Prod.mk.injEq] at he
      obtain ⟨hc, rfl⟩ := he
      have hobj₀ : (fields { c₁ with type := type, id := id }).obj = c₀.obj := by rw [hobj, ← hc]
      exact ⟨hj.toBase.take hm hf hobj₀ ⟨rfl, rfl⟩, hj.ioHand, .inr ⟨_, rfl⟩⟩
  · -- the push is not refused
    rintro sh v ⟨sh₀, -, hj, -, he⟩ -
    simp only [Op.exec, hj.toBase.room rfl, if_true, Option.some.injEq, Prod.mk.injEq] at he
    simp [← he.1] at hno
  · rintro sh v ⟨sh₀, -, hj, -, he⟩ -
    simp only [Op.exec, hj.toBase.room rfl, if_true, Option.some.injEq, Prod.mk.injEq] at he
    obtain ⟨-, rfl⟩ := he
    refine ⟨?_, hj.ioHand, .inl rfl⟩
    exact (hj.toBase.queue (y := { m with cmd := none, succeeded := m.succeeded ++ [⟨call, true, _⟩] }) rfl hi
      ⟨rfl, rfl⟩).of_main ⟨by simp [hcall], rfl⟩

private theorem MainCall.commands (call : MainCall) (hm : m.cmd = none) (hS : ∀ sh v, S sh v → MainApart n m sh v) :
    call.code.wp Op.exec (fun _ _ _ => True) (MainCommands n) C S (Post (fun _ _ _ => True) (MainCommands n)) m := by
  have hS' : ∀ sh v, S sh v → MainApart n { m with call := some call, returned := none } sh v :=
    fun sh v hs => ⟨(hS sh v hs).base.of_main ⟨rfl, rfl⟩, (hS sh v hs).ioHand⟩
  change Code.wp _ _ _ _ (call.run >>= endCall call) _ _ { m with call := some call, returned := none }
  have hload : ∀ {r : Op.Res .stateLoad} sh v, After Op.exec (fun _ _ _ => True) (MainCommands n) C
      { m with call := some call, returned := none } .stateLoad r sh v →
      MainApart n { m with call := some call, returned := none } sh v := MainApart.load (.inl rfl)
  by_cases hcall : call.kind = .command
  · cases call with
    | cmdOpen endpoint id =>
      simp only [MainCall.run, svlServiceCmdOpen, Code.wp_bind, Code.wp_op, Code.wp_ite, Code.wp_pure]
      refine ⟨fun sh v hs _ => (hS' sh v hs).commands hm ⟨rfl, rfl⟩, fun state _ => ⟨fun _ => ?_, fun _ => ?_⟩⟩
      · exact MainApart.ended hload hm ⟨rfl, rfl⟩ (by simp)
      · exact (Code.wp_bind ..).1 (queueCmd_commands rfl (fun _ => rfl) (fun _ ht => ⟨rfl, ht, rfl⟩) hm hload)
    | cmdClose clientId id =>
      simp only [MainCall.run, svlServiceCmdClose, Code.wp_bind, Code.wp_op, Code.wp_ite, Code.wp_pure]
      refine ⟨fun sh v hs _ => (hS' sh v hs).commands hm ⟨rfl, rfl⟩, fun state _ => ⟨fun _ => ?_, fun _ => ?_⟩⟩
      · exact MainApart.ended hload hm ⟨rfl, rfl⟩ (by simp)
      · exact (Code.wp_bind ..).1 (queueCmd_commands rfl (fun _ => rfl) (fun _ ht => ⟨rfl, ht, rfl⟩) hm hload)
    | cmdSend clientId msg msglen id =>
      simp only [MainCall.run, svlServiceCmdSend, Code.wp_bind, Code.wp_op, Code.wp_ite, Code.wp_pure]
      refine ⟨fun sh v hs _ => (hS' sh v hs).commands hm ⟨rfl, rfl⟩, fun state _ => ⟨fun _ => ?_, fun _ => ?_⟩⟩
      · exact MainApart.ended hload hm ⟨rfl, rfl⟩ (by simp)
      refine ⟨fun sh v hs _ => (hload sh v hs).commands hm ⟨rfl, rfl⟩, ?_⟩
      rintro (_ | sendReq) -
      · exact MainApart.ended (MainApart.load (.inr rfl)) hm ⟨rfl, rfl⟩ (by simp)
      · exact (Code.wp_bind ..).1 (queueCmd_commands rfl (fun _ => rfl) (fun _ ht => ⟨rfl, ht, rfl, rfl, rfl⟩) hm
          (MainApart.load (.inr rfl)))
    | _ => simp [MainCall.kind] at hcall
  · have hkind : ∀ {o : Op}, o.kind = call.kind ∨ o = .stateLoad → o.kind ≠ .command := by
      rintro o (ho | rfl)
      · rwa [ho]
      · simp [Op.kind]
    rw [Code.wp_bind]
    refine Prog.wp_mono ?_ (Prog.wp_of_path (R := MainApart n { m with call := some call, returned := none }) ?_ ?_
      (call.keepsTo.path _) hS')
    · rintro S l r ⟨hS, hl⟩
      exact MainApart.ended hS hm ⟨hl.call.2.2, hl.command hcall⟩ fun _ => by cases call <;> simp_all [MainCall.kind,
        MainCall.isCmd]
    · intro sh l o v hI _ ha
      exact ha.commands hm ⟨hI.2.call.2.2, hI.2.command hcall⟩
    · intro sh sh' l o r v hI _ hj he
      have hframe := Op.exec_cmdFrame (hkind hI.1.1) he
      exact ⟨(hj.toBase.of_frame hframe).of_main ⟨hI.2.call.2.2.symm, (hI.2.command hcall).symm⟩, hj.ioHand⟩

end MainThread

/-! ### Over whole runs -/

variable {c c' : ServiceConfig}

/-- The invariant of the commands in every state that a run reaches. -/
theorem commands (h : Reach n c) : Commands n c.sh c.fst.view c.snd.view := by
  refine Machine.Reach.invariant (K := fun _ _ _ => True) (fun _ _ => trivial) ?_ ?_ ?_ h
  · refine ⟨⟨rfl, rfl, .nil, ?_, by simp [Shared.setup]⟩, .inl rfl, .inl rfl⟩
    simp [Shared.setup, Io.setup, Function.comp_def]
  · rintro d io ⟨sh₀, w₀, -, hj₀, -⟩
    have hi : io.cmd = none := hj₀.ioHand.resolve_right (by simp)
    by_cases hd : d.kind = .command
    · cases d with
      | check out =>
        exact onCheckCb_commands out hi fun sh w hs => ⟨hs.2.1.toBase, hs.2.1.mainHand⟩
      | _ => simp [IoRun.kind] at hd
    · exact apart_commands hd hi fun sh w hs => ⟨hs.2.1.toBase, hs.2.1.mainHand⟩
  · rintro call m ⟨sh₀, v₀, -, hj₀, -⟩
    have hm : m.cmd = none := hj₀.mainHand.resolve_right (by simp)
    exact MainCall.commands call hm fun sh v hs => ⟨hs.2.1.toBase, hs.2.1.ioHand⟩

/-! ### Calls that fail -/

/-- What is left of a call that has taken an object: it queues the object and returns `TN_SUCCESS`. -/
inductive Taken : Prog Op Op.Res Main Unit → Prop
  | push {m : Main} {c : Cmd} {k : Bool → Prog Op Op.Res Main Unit} :
      m.returned = none → m.cmd = some c → Taken (k true) → Taken (.act m (.cmdReadyPush c) k)
  | ended {m : Main} {r : Returned} : m.returned = some r → r.success = true → Taken (.ret m ())

/-- What is left of a call that has not taken an object: it may take one, or it fails with `TN_CMD_INVALID`. -/
inductive Untaken : Prog Op Op.Res Main Unit → Prop
  | load {m : Main} {o : Op} {k : o.Res → Prog Op Op.Res Main Unit} :
      m.returned = none → o = .stateLoad ∨ o = .writeReqsFreePeek → (∀ r, Untaken (k r)) → Untaken (.act m o k)
  | pop {m : Main} {type : CmdType} {id : Nat} {k : Option Cmd → Prog Op Op.Res Main Unit} :
      m.returned = none → (∀ c, Taken (k (some c))) → Untaken (k none) → Untaken (.act m (.cmdFreePop type id) k)
  | ended {m : Main} {r : Returned} :
      m.returned = some r → r.success = false → r.cmdId = cmdInvalid → Untaken (.ret m ())

theorem Taken.success {p : Prog Op Op.Res Main Unit} (h : Taken p) {r : Returned} (hr : p.view.loc.returned = some r) :
    r.success = true := by
  cases h with
  | push hm => simp [hm] at hr
  | ended hm hs =>
    cases Option.some.inj (hm.symm.trans hr)
    exact hs

theorem Untaken.cmdId {p : Prog Op Op.Res Main Unit} (h : Untaken p) {r : Returned}
    (hr : p.view.loc.returned = some r) :
    r.cmdId = cmdInvalid := by
  cases h with
  | load hm => simp [hm] at hr
  | pop hm => simp [hm] at hr
  | ended hm _ hid =>
    cases Option.some.inj (hm.symm.trans hr)
    exact hid

private theorem queueCmd_untaken (call : MainCall) (type : CmdType) (id : Nat) (fields : Cmd → Cmd) {m : Main}
    (hm : m.returned = none) : Untaken ((queueCmd type id fields >>= endCall call) m) :=
  .pop hm (fun _ => .push hm rfl (.ended rfl rfl)) (.ended rfl rfl rfl)

private theorem checked_untaken (call : MainCall) {f : MainM (Bool × Nat)} {m : Main}
    (hf : Untaken ((f >>= endCall call) m)) (state : ServiceState) :
    Untaken (((if state ≠ .started then pure (false, cmdInvalid) else f) >>= endCall call) m) := by
  split
  · exact .ended rfl rfl rfl
  · exact hf

/-- A `svl_service_cmd_*` call has taken nothing at first. -/
theorem MainCall.untaken {call : MainCall} (h : call.isCmd = true) (m : Main) : Untaken (call.code m) := by
  cases call with
  | cmdOpen endpoint id => exact .load rfl (.inl rfl) (checked_untaken _ (queueCmd_untaken _ _ _ _ rfl))
  | cmdClose clientId id => exact .load rfl (.inl rfl) (checked_untaken _ (queueCmd_untaken _ _ _ _ rfl))
  | cmdSend clientId msg msglen id =>
    refine .load rfl (.inl rfl) (checked_untaken _ (.load rfl (.inr rfl) ?_))
    rintro (_ | sendReq)
    · exact .ended rfl rfl rfl
    · exact queueCmd_untaken _ _ _ _ rfl
  | _ => simp [MainCall.isCmd] at h

/-- Along the steps, the operations of the main thread leave both command lists as they are. -/
def LeavesCommands : ServiceConfig → List (Act IoRun MainCall) → Prop
  | _, [] => True
  | c, a :: as => ∀ c', service.step c a = some c' →
      (a = .op₂ → c'.sh.cmdFree = c.sh.cmdFree ∧ c'.sh.cmdReady = c.sh.cmdReady) ∧ LeavesCommands c' as

/-- One step of a call that has not taken an object: it leaves the lists alone, or takes one. -/
private theorem Untaken.step {a : Act IoRun MainCall} (hu : Untaken c.snd) (hs : service.step c a = some c')
    (ha : ∀ call, a ≠ .run₂ call) :
    (Untaken c'.snd ∧ (a = .op₂ → c'.sh.cmdFree = c.sh.cmdFree ∧ c'.sh.cmdReady = c.sh.cmdReady)) ∨ Taken c'.snd := by
  rcases Machine.step_snd hs ha with ⟨hne, hc'⟩ | ⟨rfl, m, o, k, r, hc, he, hc'⟩
  · rw [hc']
    exact .inl ⟨hu, fun h => absurd h hne⟩
  rw [hc] at hu
  rw [hc']
  cases hu with
  | load _ ho hk =>
    refine .inl ⟨hk r, fun _ => ?_⟩
    have hsh : c'.sh = c.sh := by
      rcases ho with rfl | rfl <;> exact (Prod.mk.inj (Option.some.inj he)).2.symm
    exact ⟨congrArg _ hsh, congrArg _ hsh⟩
  | @pop _ type id _ _ hsome hnone =>
    have he' : Op.exec (.cmdFreePop type id) c.sh = some (r, c'.sh) := he
    cases r with
    | some cmd => exact .inr (hsome cmd)
    | none =>
      have hsh : c'.sh = c.sh := by
        simp only [Op.exec] at he'
        split at he' <;> simp at he'
        exact he'.symm
      exact .inl ⟨hnone, fun _ => ⟨congrArg _ hsh, congrArg _ hsh⟩⟩

/-- A call that has taken an object goes on to `TN_SUCCESS`. -/
private theorem Taken.step {a : Act IoRun MainCall} (ht : Taken c.snd) (hc : Reach n c)
    (hs : service.step c a = some c') (ha : ∀ call, a ≠ .run₂ call) : Taken c'.snd := by
  rcases Machine.step_snd hs ha with ⟨-, hc'⟩ | ⟨rfl, m, o, k, r, hp, he, hc'⟩
  · rw [hc']
    exact ht
  have hj := commands hc
  rw [hp] at ht hj
  rw [hc']
  cases ht with
  | @push _ cmd _ _ hm hk =>
    have he' : Op.exec (.cmdReadyPush cmd) c.sh = some (r, c'.sh) := he
    simp only [Op.exec, hj.toBase.room hm, if_true, Option.some.injEq, Prod.mk.injEq] at he'
    rw [← he'.1]
    exact hk

private theorem Taken.run {as : List (Act IoRun MainCall)} (ht : Taken c.snd) (hc : Reach n c)
    (hr : service.run c as = some c') (has : ∀ a ∈ as, ∀ call, a ≠ .run₂ call) : Taken c'.snd := by
  induction as generalizing c with
  | nil =>
    cases hr
    exact ht
  | cons a as ih =>
    obtain ⟨c₁, h₁, hr⟩ := Option.bind_eq_some_iff.1 hr
    have ha := has a (List.mem_cons_self ..)
    exact ih (ht.step hc h₁ ha) (hc.step a (Cond.any_allows c a) h₁) hr fun a' h => has a' (List.mem_cons_of_mem _ h)

private theorem Untaken.run {as : List (Act IoRun MainCall)} (hu : Untaken c.snd) (hc : Reach n c)
    (hr : service.run c as = some c') (has : ∀ a ∈ as, ∀ call, a ≠ .run₂ call) :
    (Untaken c'.snd ∧ LeavesCommands c as) ∨ Taken c'.snd := by
  induction as generalizing c with
  | nil =>
    cases hr
    exact .inl ⟨hu, trivial⟩
  | cons a as ih =>
    obtain ⟨c₁, h₁, hr⟩ := Option.bind_eq_some_iff.1 hr
    have ha := has a (List.mem_cons_self ..)
    have has' : ∀ a' ∈ as, ∀ call, a' ≠ .run₂ call := fun a' h => has a' (List.mem_cons_of_mem _ h)
    have hc₁ : Reach n c₁ := hc.step a (Cond.any_allows c a) h₁
    rcases hu.step h₁ ha with ⟨hu₁, hsame⟩ | ht₁
    · refine (ih hu₁ hc₁ hr has').imp_left fun ⟨hu', hl⟩ => ⟨hu', fun c₂ h₂ => ?_⟩
      obtain rfl : c₁ = c₂ := Option.some.inj (h₁.symm.trans h₂)
      exact ⟨hsame, hl⟩
    · exact .inr (ht₁.run hc₁ hr has')

/-- Commands are handled in order and exactly once, and nothing is lost from their pools.  The commands handled,
followed by those in the ready list, are those that calls returned `TN_SUCCESS` for; each object is in one list or in
the hands of one thread; each write request is in `send_req_list` or with libuv; and no push was refused. -/
structure CommandsInOrder (n : Nat) (sh : Shared) (io : Io) (m : Main) : Prop where
  count : sh.bufferCount = n * 4 % 2 ^ 64
  handled : List.Forall₂ Issued m.succeeded (io.handled.map (·.cmd) ++ sh.cmdReady)
  objects : ((sh.cmdFree ++ sh.cmdReady ++ (io.cmd.toList ++ m.cmd.toList)).map (·.obj)).Perm
    (List.range sh.bufferCount)
  requests : io.phase = .running → (io.sendReqList.items ++ io.writes).Perm (List.range sh.bufferCount)
  refused : .cmdFree ∉ sh.refused ∧ .cmdReady ∉ sh.refused ∧ io.refused = 0

/-- A call that fails leaves both command lists as they are, and its `*cmd_id` is `TN_CMD_INVALID`. -/
def FailsCleanly (c : ServiceConfig) : Prop :=
  ∀ call as c' id, call.isCmd = true → service.run c (.run₂ call :: as) = some c' →
    (∀ a ∈ as, ∀ call', a ≠ .run₂ call') → c'.snd.view.loc.returned = some ⟨call, false, id⟩ →
    id = cmdInvalid ∧ LeavesCommands c (.run₂ call :: as)

theorem commands_in_order (hc : Reach n c) :
    CommandsInOrder n c.sh c.fst.view.loc c.snd.view.loc ∧ FailsCleanly c := by
  have hj := commands hc
  have hi := (ioInv (E := ⟨False, False, False⟩) ⟨False.elim, False.elim, False.elim, False.elim⟩ hc).1
  refine ⟨⟨hj.count, hj.handled ▸ hj.issued, hj.objects, fun hp => ?_, hj.refused.1, hj.refused.2, hi.sends.refused⟩,
    ?_⟩
  · rw [hj.count, ← hi.count]
    exact (hi.sends.running hp).2
  · intro call as c' id hcall hr has hret
    obtain ⟨c₁, h₁, hr'⟩ := Option.bind_eq_some_iff.1 hr
    obtain ⟨m, hm, -, rfl⟩ := Machine.step_run₂ h₁
    rcases (MainCall.untaken hcall m).run (hc.step _ (Cond.any_allows c _) h₁) hr' has with ⟨hu, hl⟩ | ht
    · refine ⟨hu.cmdId hret, fun c₂ h₂ => ?_⟩
      obtain rfl := Option.some.inj (h₁.symm.trans h₂)
      exact ⟨by simp, hl⟩
    · exact absurd (ht.success hret) (by simp)

/-- One of four commands is handled and its object still in the hands of the IO thread: a fifth call fails. -/
theorem commands_in_order_fifth : ∃ c c', Reach 1 c ∧
    (c.fst.view.loc.handled.length = 1 ∧ c.sh.cmdReady.length = 3 ∧ c.sh.cmdFree = []) ∧
    CommandsInOrder 1 c.sh c.fst.view.loc c.snd.view.loc ∧
    service.run c [.run₂ (.cmdClose 0 5), .op₂, .op₂] = some c' ∧
    c'.snd.view.loc.returned = some ⟨.cmdClose 0 5, false, cmdInvalid⟩ ∧
    LeavesCommands c [.run₂ (.cmdClose 0 5), .op₂, .op₂] := by
  obtain ⟨c, hc, hP, hf⟩ := exists_reachWhen .any 1
    (.flatten [startUp, [.run₂ (.cmdOpen ⟨.inet, 1⟩ 1), .op₂, .op₂, .op₂, .run₂ (.cmdClose 0 2), .op₂, .op₂, .op₂],
      [.run₂ (.cmdClose 0 3), .op₂, .op₂, .op₂, .run₂ (.cmdSend 0 (.app 0) 8 4), .op₂, .op₂, .op₂, .op₂],
      [.run₁ (.check {}), .op₁]])
    (fun c => (c.fst.view.loc.handled.length = 1 ∧ c.sh.cmdReady.length = 3 ∧ c.sh.cmdFree = []) ∧
      (service.run c [.run₂ (.cmdClose 0 5), .op₂, .op₂]).any
        (fun c' => decide (c'.snd.view.loc.returned = some ⟨.cmdClose 0 5, false, cmdInvalid⟩)) = true)
    (by decide +kernel)
  obtain ⟨c', hr, hret⟩ := (Option.any_eq_true _ _).1 hf
  obtain ⟨horder, hfail⟩ := commands_in_order hc
  exact ⟨c, c', hc, hP, horder, hr, of_decide_eq_true hret,
    (hfail _ _ c' _ rfl hr (by simp) (of_decide_eq_true hret)).2⟩

end ServerLynx
