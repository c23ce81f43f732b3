import ServerLynx.Conservation
import ServerLynx.Mailbox
import ServerLynx.ReadEvents

/-!
# Events as the main thread finds them

An event object is filled in by the IO thread, read by the main thread and then used again.  In the runs that follow
each acquire by one release, the objects and the two event lists stand for a mailbox, in which events are values: what
the main thread finds in an acquired object is what the IO thread pushed.
-/

namespace ServerLynx

open Threads

/-- What is to be seen of an event: only a `READ` event points to bytes. -/
def Readied.seen (r : Readied) : Readied := if r.evt.type = .clientRead then r else { r with bytes := [] }

/-- What is found in the event object `e`. -/
def Shared.delivery (sh : Shared) (e : Nat) : Readied :=
  (⟨sh.events e, sh.message (sh.events e).buffer (sh.events e).len⟩ : Readied).seen

/-- The ready list and a batch of event objects stand for a mailbox. -/
structure Mirrors (box : Mailbox Readied) (sh : Shared) (batch : List Nat) : Prop where
  posted : box.posted = sh.readied.map Readied.seen
  collected : box.collected.length = sh.acquired
  waiting : box.waiting = sh.eventReady.map sh.delivery
  batch : box.batch = batch.map sh.delivery

/-- The event objects stand for a mailbox that comes about from the empty one. -/
def Delivers (sh : Shared) (batch : List Nat) : Prop := ∃ box : Mailbox Readied, box.Reachable ∧ Mirrors box sh batch

variable {n : Nat} {sh sh' : Shared} {io l : Io} {m : Main} {v : View Io Op} {w : View Main Op} {o : Op}

/-- The objects that are ready or in the batch tell what they told. -/
theorem Mirrors.same {box : Mailbox Readied} {es : List Nat} (hs : Mirrors box sh es) (hr : sh'.readied = sh.readied)
    (ha : sh'.acquired = sh.acquired) (hq : sh'.eventReady = sh.eventReady)
    (hd : ∀ e ∈ sh.eventReady ++ es, sh'.delivery e = sh.delivery e) : Mirrors box sh' es where
  posted := by rw [hr]; exact hs.posted
  collected := by rw [ha]; exact hs.collected
  waiting := by
    rw [hq, hs.waiting]
    exact List.map_congr_left fun e he => (hd e (List.mem_append_left _ he)).symm
  batch := by
    rw [hs.batch]
    exact List.map_congr_left fun e he => (hd e (List.mem_append_right _ he)).symm

/-! ### What an event tells -/

theorem Readied.seen_evt (r : Readied) : r.seen.evt = r.evt := by
  unfold Readied.seen
  split <;> rfl

theorem Shared.delivery_evt (sh : Shared) (e : Nat) : (sh.delivery e).evt = sh.events e := Readied.seen_evt _

/-- An object tells the same as long as it stays as it is and the bytes that a `READ` event points to do. -/
theorem delivery_congr {e : Nat} (he : sh'.events e = sh.events e)
    (hb : (sh.events e).type = .clientRead → ∃ b off, (sh.events e).buffer = .readBuf b off ∧
      sh'.buffers b = sh.buffers b) : sh'.delivery e = sh.delivery e := by
  unfold Shared.delivery Readied.seen
  rw [he]
  dsimp only
  split
  · rename_i ht
    obtain ⟨b, off, hp, hsame⟩ := hb ht
    simp only [hp, Shared.message, hsame]
  · rfl

variable {box : Mailbox Readied} {es : List Nat} {e : Nat}

/-- What is ready or in the batch was pushed. -/
theorem Mirrors.pushed (hbox : box.Reachable) (hs : Mirrors box sh es) (he : e ∈ sh.eventReady ++ es) :
    ∃ r ∈ sh.readied, r.seen = sh.delivery e := by
  have hmem : sh.delivery e ∈ box.posted := by
    rw [hbox.posted_eq]
    rcases List.mem_append.1 he with he | he
    · exact List.mem_append_right _ (hs.waiting ▸ List.mem_map_of_mem he)
    · exact List.mem_append_left _ (hbox.batch_suffix.subset (hs.batch ▸ List.mem_map_of_mem he))
  rw [hs.posted] at hmem
  exact List.mem_map.1 hmem

/-- A `READ` event that is ready or in the batch points to the start of the read buffer that it carries. -/
theorem Mirrors.points (hbox : box.Reachable) (hs : Mirrors box sh es)
    (hf : ∀ r ∈ sh.readied, r.evt.type = .clientRead → r.TellsBytes) (he : e ∈ sh.eventReady ++ es)
    (ht : (sh.events e).type = .clientRead) :
    ∃ b, (sh.events e).readBuffer = some b ∧ (sh.events e).buffer = .readBuf b 0 := by
  obtain ⟨r, hr, hseen⟩ := hs.pushed hbox he
  have hevt : r.evt = sh.events e := by rw [← Readied.seen_evt, hseen, Shared.delivery_evt]
  obtain ⟨b, hpriv, hbuf⟩ := (hf r hr (hevt ▸ ht)).buffer
  exact ⟨b, by rw [← hevt, Event.readBuffer, hpriv, if_pos (hevt ▸ ht)], hevt ▸ hbuf⟩

/-! ### The IO thread -/

section IoThread

/-- What an operation of either thread leaves alone: an object that is ready or in the batch, and its bytes. -/
theorem Mirrors.kept (hbox : box.Reachable) (hs : Mirrors box sh w.loc.batch)
    (hf : ∀ r ∈ sh.readied, r.evt.type = .clientRead → r.TellsBytes) (ho : Ownership n sh v w) {r : o.Res}
    (hpush : ∀ e', o.readied = some e' → v.loc.hand = some e')
    (hwrite : ∀ b, o.written = some b → b ∈ v.loc.linkBuffers n) (hx : o.exec sh = some (r, sh'))
    (he : e ∈ sh.eventReady ++ w.loc.batch) : sh'.delivery e = sh.delivery e := by
  obtain ⟨hsame, hbytes⟩ := exec_bytesKept ho hx he hpush hwrite
  refine delivery_congr hsame fun ht => ?_
  obtain ⟨b, hb, hbuf⟩ := hs.points hbox hf he ht
  exact ⟨b, 0, hbuf, hbytes b hb⟩

/-- The lists of events that the main thread acquires from change by a push and by an acquire only. -/
theorem Op.exec_ready {r : o.Res} (hp : ∀ e evt, o ≠ .eventReadyPush e evt) (ha : o ≠ .eventReadyPopAll)
    (he : o.exec sh = some (r, sh')) :
    sh'.readied = sh.readied ∧ sh'.acquired = sh.acquired ∧ sh'.eventReady = sh.eventReady := by
  refine ⟨Op.exec_readied hp he, ?_⟩
  cases o <;> simp only [Op.exec] at he
  case eventReadyPush e evt => exact absurd rfl (hp e evt)
  case eventReadyPopAll => exact absurd rfl ha
  all_goals
    first
    | (obtain ⟨-, rfl⟩ := Prod.mk.inj (Option.some.inj he); exact ⟨rfl, rfl⟩)
    | (split at he <;> first
        | (obtain ⟨-, rfl⟩ := Prod.mk.inj (Option.some.inj he); exact ⟨rfl, rfl⟩)
        | (split at he <;> first
            | (obtain ⟨-, rfl⟩ := Prod.mk.inj (Option.some.inj he); exact ⟨rfl, rfl⟩)
            | simp at he))

/-- A push to the ready list posts what it puts in the event object. -/
theorem Mirrors.push {evt : Event} (hs : Mirrors box sh es) (hne : e ∉ sh.eventReady ++ es)
    (hroom : sh.eventReady.length < sh.bufferCount) {r : Bool}
    (he : (Op.eventReadyPush e evt).exec sh = some (r, sh')) :
    Mirrors { box with
      waiting := box.waiting ++ [(⟨evt, sh.message evt.buffer evt.len⟩ : Readied).seen]
      posted := box.posted ++ [(⟨evt, sh.message evt.buffer evt.len⟩ : Readied).seen] } sh' es := by
  simp only [Op.exec, hroom, if_true, Option.some.injEq, Prod.mk.injEq] at he
  obtain ⟨-, rfl⟩ := he
  have hother : ∀ e' ∈ sh.eventReady ++ es, Shared.delivery { sh with
      events := Function.update sh.events e evt, eventReady := sh.eventReady ++ [e]
      readied := sh.readied ++ [⟨evt, sh.message evt.buffer evt.len⟩] } e' = sh.delivery e' := by
    intro e' he'
    have hne' : e' ≠ e := fun h => hne (h ▸ he')
    unfold Shared.delivery
    simp only [Function.update_of_ne hne']
    rfl
  refine ⟨by simp [hs.posted], hs.collected, ?_, ?_⟩
  · rw [hs.waiting, List.map_append, List.map_congr_left fun e' he' => hother e' (List.mem_append_left _ he')]
    simp only [Shared.delivery, List.map_cons, List.map_nil, Function.update_self]
    rfl
  · rw [hs.batch, List.map_congr_left fun e' he' => hother e' (List.mem_append_right _ he')]

/-- Every operation of the IO thread posts an event or leaves the mailbox alone. -/
theorem Delivers.exec_io (hd : Delivers sh w.loc.batch) (ho : Ownership n sh ⟨l, some o⟩ w)
    (hf : ∀ r ∈ sh.readied, r.evt.type = .clientRead → r.TellsBytes) (hby : o.byIo = true) {r : o.Res}
    (he : o.exec sh = some (r, sh')) : Delivers sh' w.loc.batch := by
  obtain ⟨box, hbox, hs⟩ := hd
  by_cases hp : ∃ e evt, o = .eventReadyPush e evt
  · obtain ⟨e, evt, rfl⟩ := hp
    have hhand : l.hand = some e := ho.io.pushing _ e rfl rfl
    have hne : e ∉ sh.eventReady ++ w.loc.batch := by
      have hnd := ho.toBase.nodup
      simp only [hhand] at hnd
      intro hm
      refine (List.nodup_append.1 hnd).2.2 e ?_ e (by simp) rfl
      simp only [List.mem_append] at hm ⊢
      tauto
    exact ⟨_, hbox.step (.post _ _), hs.push hne (ho.toBase.readyRoom hhand) he⟩
  · have ha : o ≠ .eventReadyPopAll := by
      rintro rfl
      simp [Op.byIo] at hby
    obtain ⟨hr, hacq, hq⟩ := Op.exec_ready (fun e evt h => hp ⟨e, evt, h⟩) ha he
    exact ⟨box, hbox, hs.same hr hacq hq fun e hm =>
      hs.kept hbox hf ho (ho.io.pushing o · rfl) (ho.io.writing o · rfl) he hm⟩

end IoThread

/-! ### The main thread -/

section MainThread

variable {S : Shared → View Io Op → Prop}

private abbrev KnownEvents (n : Nat) (sh : Shared) (v : View Io Op) (w : View Main Op) : Prop :=
  Ownership n sh v w ∧ ReadsFit sh v

private abbrev MainKnowsEvents (n : Nat) (sh : Shared) (w : View Main Op) (v : View Io Op) : Prop :=
  KnownEvents n sh v w

private abbrev MainDelivers (sh : Shared) (w : View Main Op) (_ : View Io Op) : Prop := Delivers sh w.loc.batch

private abbrev MainInTurn (sh : Shared) (w : View Main Op) (v : View Io Op) : Prop :=
  acquireThenRelease.op₂ sh v w = true

private abbrev KeepsDelivery (n : Nat) (S : Shared → View Io Op → Prop) (code : MainM Unit) (m : Main) : Prop :=
  code.wp Op.exec (MainKnowsEvents n) MainDelivers MainInTurn S (Post (MainKnowsEvents n) MainDelivers) m

private abbrev DeliversAfter (n : Nat) (m : Main) (o : Op) (r : o.Res) : Shared → View Io Op → Prop :=
  After Op.exec (MainKnowsEvents n) MainDelivers MainInTurn m o r

/-- The other operations of the main thread leave the mailbox alone. -/
theorem Delivers.exec_main (hd : Delivers sh es) (hby : o.byMain = true) (ha : o ≠ .eventReadyPopAll) {r : o.Res}
    (he : o.exec sh = some (r, sh')) : Delivers sh' es := by
  obtain ⟨box, hbox, hs⟩ := hd
  have hp : ∀ e evt, o ≠ .eventReadyPush e evt := by
    rintro e evt rfl
    simp [Op.byMain] at hby
  obtain ⟨hr, hacq, hq⟩ := Op.exec_ready hp ha he
  have hbuf := (Op.exec_byMain hby he).1
  have hevents : sh'.events = sh.events := by
    by_cases hm : o.moves = true
    · cases o <;> simp only [Op.byMain, Op.moves, Bool.false_eq_true] at hby hm <;> simp only [Op.exec] at he
      case eventReadyPopAll => exact absurd rfl ha
      all_goals split at he <;> obtain ⟨-, rfl⟩ := Prod.mk.inj (Option.some.inj he) <;> rfl
    · exact (Op.exec_moveFrame (by simpa using hm) he).events
  refine ⟨box, hbox, hs.same hr hacq hq fun e _ => ?_⟩
  simp only [Shared.delivery, Shared.message, hevents, hbuf]

private theorem delivers_after_acquire {r : Option (List Nat)} (hm : m.batch = [])
    (h : DeliversAfter n m .eventReadyPopAll r sh v) : Delivers sh (r.getD []) := by
  obtain ⟨sh₀, ⟨ho, -⟩, hd, -, he⟩ := h
  have hle := ho.toBase.ready_le
  obtain ⟨box, hbox, hs⟩ : Delivers sh₀ [] := hm ▸ hd
  simp only [Op.exec] at he
  split at he
  · obtain ⟨rfl, rfl⟩ := Prod.mk.inj (Option.some.inj he)
    exact ⟨box, hbox, hs⟩
  · simp only [Option.some.injEq, Prod.mk.injEq, List.take_of_length_le hle, List.drop_of_length_le hle] at he
    obtain ⟨rfl, rfl⟩ := he
    exact ⟨_, hbox.step (.collect hs.batch), hs.posted, by simp [hs.collected, hs.waiting], rfl, hs.waiting⟩

/-- The next event of the batch is put away. -/
theorem Delivers.putAway (hd : Delivers sh (e :: es)) : Delivers sh es := by
  obtain ⟨box, hbox, hs⟩ := hd
  exact ⟨_, hbox.step (.putAway hs.batch), hs.posted, hs.collected, hs.waiting, rfl⟩

private theorem releaseLoop_delivers {Q : (Shared → View Io Op → Prop) → Main → Unit → Prop} (hm : m.batch = es)
    (hS : ∀ sh v, S sh v → Delivers sh es)
    (hQ : ∀ (S : Shared → View Io Op → Prop) (m' : Main), (∀ sh v, S sh v → Delivers sh m'.batch) → Q S m' ()) :
    (releaseLoop es).wp Op.exec (MainKnowsEvents n) MainDelivers MainInTurn S Q m := by
  induction es generalizing m S with
  | nil => exact hQ S m fun sh v h => hm.symm ▸ hS sh v h
  | cons e es ih =>
    -- the event itself, once its read buffer is out of its hands
    have hrest : ∀ {S : Shared → View Io Op → Prop}, (∀ sh v, S sh v → Delivers sh (e :: es)) →
        Code.wp Op.exec (MainKnowsEvents n) MainDelivers MainInTurn (do
          modify fun m => { m with cursor := m.cursor + 1, hand := some e }
          let _ ← perform (.eventFreePush e)
          modify fun m => { m with hand := none }
          releaseLoop es) S Q m := by
      intro S hS
      have hb := batch_step hm
      simp only [Code.wp_bind, Code.wp_modify, Code.wp_op]
      refine ⟨fun sh v h _ => (congrArg (Delivers sh) hb).mpr (hS sh v h).putAway, fun pushed _ => ih hb ?_⟩
      rintro sh v ⟨sh₀, -, hd, -, he⟩
      exact (hb ▸ hd : Delivers sh₀ es).exec_main rfl (by simp) he
    simp only [releaseLoop, Code.wp_bind, Code.wp_op, Code.wp_ite] at hrest ⊢
    have hload : ∀ {o : Op} {r : o.Res}, o.byMain = true → o ≠ .eventReadyPopAll → ∀ sh v,
        DeliversAfter n m o r sh v → Delivers sh (e :: es) := by
      rintro o r hby ha sh v ⟨sh₀, -, hd, -, he⟩
      exact (hm ▸ hd : Delivers sh₀ (e :: es)).exec_main hby ha he
    have hbefore : ∀ {sh}, Delivers sh (e :: es) → Delivers sh m.batch := fun hd => hm.symm ▸ hd
    refine ⟨fun sh v h _ => hbefore (hS sh v h), fun evt _ => ⟨fun _ => ?_, fun _ => hrest (hload rfl (by simp))⟩⟩
    cases evt.priv with
    | none => exact hrest (hload rfl (by simp))
    | some b =>
      simp only [Code.wp_bind, Code.wp_op]
      exact ⟨fun sh v h _ => hbefore (hload rfl (by simp) sh v h), fun pushed _ => hrest (hload rfl (by simp))⟩

/-- Every call collects what is ready, puts its batch away, or leaves the mailbox alone. -/
private theorem MainCall.delivers (call : MainCall) (hturn : call.inTurn m = true) (hm : m.Idle)
    (hS : ∀ sh v, S sh v → Delivers sh m.batch) : KeepsDelivery n S call.code m := by
  have hend : ∀ {S : Shared → View Io Op → Prop} {m : Main} (r : Bool × Nat),
      (∀ sh v, S sh v → Delivers sh m.batch) → KeepsDelivery n S (endCall call r) m := fun r hS sh v h _ => hS sh v h
  change KeepsDelivery n S (call.run >>= endCall call) { m with call := some call, returned := none }
  generalize hm' : ({ m with call := some call, returned := none } : Main) = m' at *
  have hS' : ∀ sh v, S sh v → Delivers sh m'.batch := hm' ▸ hS
  by_cases hk : call.kind = .event
  · cases call with
    | eventsAcquire =>
      have hbatch : m'.batch = [] := hm' ▸ hm.batch (by simpa [MainCall.inTurn] using hturn)
      simp only [KeepsDelivery, MainCall.run, svlServiceEventsAcquire, Code.wp_bind, Code.wp_modify, Code.wp_op]
      refine ⟨fun sh v h _ => (hbatch ▸ hS' sh v h : Delivers sh []), ?_⟩
      rintro (_ | es) -
      · exact hend _ fun sh v h => delivers_after_acquire rfl h
      · refine hend _ fun sh v h => ?_
        simpa [Main.batch] using delivers_after_acquire rfl h
    | eventsRelease =>
      have hcursor : m'.cursor = 0 := hm' ▸ hm.cursor hturn
      simp only [KeepsDelivery, MainCall.run, svlServiceEventsRelease, Code.wp_bind, Code.wp_modify, Code.wp_get]
      refine releaseLoop_delivers rfl (fun sh v h => ?_) fun S m₁ hS₁ => hend _ hS₁
      simpa [Main.batch, hcursor] using hS' sh v h
    | _ => simp [MainCall.kind] at hk
  · -- the call does not concern events
    have hop : ∀ {o : Op}, o.kind = call.kind ∨ o = .stateLoad → o ≠ .eventReadyPopAll := by
      rintro o ho rfl
      rcases ho with ho | ho
      · exact hk ho.symm
      · simp at ho
    have hbatch : ∀ {l : Main}, MainFrame call.kind m' l → l.batch = m'.batch := by
      intro l hl
      obtain ⟨h₁, h₂, h₃, -⟩ := hl.event hk
      rw [Main.batch, Main.batch, h₁, h₂, h₃]
    rw [KeepsDelivery, Code.wp_bind]
    refine Prog.wp_mono ?_ (Prog.wp_of_path (R := fun sh _ => Delivers sh m'.batch) ?_ ?_ (call.keepsTo.path _) hS')
    · rintro S l r ⟨hS, hl⟩
      exact hend _ fun sh v h => (hbatch hl).symm ▸ hS sh v h
    · rintro sh l o v ⟨-, hl⟩ - hd
      exact (congrArg (Delivers sh) (hbatch hl)).mpr hd
    · rintro sh sh' l o r v ⟨⟨ho, hby⟩, hl⟩ - hd he
      exact (hbatch hl ▸ hd : Delivers sh m'.batch).exec_main hby (hop ho) he

end MainThread

/-! ### Over whole runs -/

theorem delivers {c : ServiceConfig} (hc : ReachWhen acquireThenRelease n c) : Delivers c.sh c.snd.view.loc.batch := by
  refine Machine.Reach.invariant (K := KnownEvents n) (J := fun sh _ w => Delivers sh w.loc.batch)
    (fun c hc => ⟨ownership hc, readsFit hc.to_any⟩) ?_ ?_ ?_ hc
  · exact ⟨{}, .init, rfl, rfl, rfl, rfl⟩
  · rintro d l -
    have hpath : (d.code l).path (fun _ _ _ => True) (fun _ o => o.byIo = true) fun _ _ => True :=
      Code.path_mono (fun _ _ h => h.1.2) (fun _ _ _ => trivial) (d.keepsTo.path l)
    refine Prog.wp_mono (fun S l' _ h sh w hs _ => h.1 sh w hs)
      (Prog.wp_of_path (R := fun sh w => Delivers sh w.loc.batch) (fun _ _ hd => hd) ?_ hpath fun sh w h => h.2.1)
    intro sh sh' l' o r w hby hK hd he
    exact hd.exec_io hK.1 hK.2.readied hby he
  · rintro call m ⟨sh₀, v₀, ⟨ho, -⟩, -, -, hturn⟩
    exact MainCall.delivers call hturn (ho.main.idle rfl) fun sh v h => h.2.1

/-! ### Right after an acquire -/

private theorem releaseLoop_takesNone (es : List Nat) :
    (releaseLoop es).Within (fun o => o ≠ .eventReadyPopAll) fun _ _ => True := by
  have htrue : IsPreorder Main fun _ _ => True := { refl _ := trivial, trans _ _ _ _ _ := trivial }
  induction es with
  | nil => exact .pure _
  | cons e es ih =>
    refine .bind (.op (by simp)) fun evt => ?_
    have hrest : Code.Within (fun o => o ≠ .eventReadyPopAll) (fun _ _ => True) (do
        modify fun m : Main => { m with cursor := m.cursor + 1, hand := some e }
        let _ ← perform (.eventFreePush e)
        modify fun m => { m with hand := none }
        releaseLoop es) :=
      .bind (.modify fun _ => trivial) fun _ => .bind (.op (by simp)) fun _ =>
        .bind (.modify fun _ => trivial) fun _ => ih
    refine .ite ?_ hrest
    split
    · exact .bind (.op (by simp)) fun _ => hrest
    · exact hrest

private theorem MainCall.takesNone {call : MainCall} (hcall : call ≠ .eventsAcquire) :
    call.code.Within (fun o => o ≠ .eventReadyPopAll) fun _ _ => True := by
  have htrue : IsPreorder Main fun _ _ => True := { refl _ := trivial, trans _ _ _ _ _ := trivial }
  refine .bind (.modify fun _ => trivial) fun _ => .bind ?_ fun _ => .modify fun _ => trivial
  by_cases hr : call = .eventsRelease
  · subst hr
    exact .bind (.bind (.modify fun _ => trivial) fun _ => .bind .get fun _ => .bind (releaseLoop_takesNone _) fun _ =>
      .bind (.modify fun _ => trivial) fun _ => .pure _) fun _ => .pure _
  · have hk : call.kind ≠ .event := by cases call <;> simp_all [MainCall.kind]
    refine call.keepsTo.mono ?_ fun _ _ _ => trivial
    rintro o ⟨ho, -⟩ rfl
    exact absurd (ho.resolve_right (by simp)).symm hk

/-- An acquire is one operation, and what it takes is the batch at the end of the call. -/
private theorem acquire_code (m : Main) : ∃ l k, MainCall.eventsAcquire.code m = .act l .eventReadyPopAll k ∧
    ∀ r, (k r).next = none ∧ (k r).loc.batch = r.getD [] := by
  refine ⟨_, _, rfl, ?_⟩
  rintro (_ | es)
  · exact ⟨rfl, rfl⟩
  · refine ⟨rfl, ?_⟩
    show ((es ++ m.eventUpdates.drop es.length).take es.length).drop 0 = es
    simp

/-- Right after an acquire the batch is what was ready. -/
private theorem acquire_batch {cond : ServiceCond} {c c' : ServiceConfig} (hc : ReachWhen cond n c)
    (hn : c.snd.view.next = some .eventReadyPopAll) (hs : service.step c .op₂ = some c')
    (hle : c.sh.eventReady.length ≤ c.sh.bufferCount) :
    c'.snd.view.loc.batch = c.sh.eventReady ∧ c'.sh.events = c.sh.events ∧ c'.sh.buffers = c.sh.buffers := by
  cases hp : c.snd with
  | ret l x => simp [hp] at hn
  | act l o k =>
    obtain rfl : o = .eventReadyPopAll := by simpa [hp] using hn
    obtain ⟨r, sh', he, rfl⟩ := Machine.step_op₂ hp hs
    rcases Machine.Reach.rest₂ hc with hret | ⟨d, l₀, hrest⟩
    · exact absurd (hp.symm.trans hret) (by simp)
    rw [hp] at hrest
    obtain rfl : d = .eventsAcquire := by
      by_contra hd
      exact (hrest.path ((MainCall.takesNone hd).path l₀)).1.1 rfl
    obtain ⟨l₁, k₁, hcode, hk⟩ := acquire_code l₀
    have hbatch : (k r).loc.batch = r.getD [] := by
      rcases hrest.head with heq | ⟨l₂, o₂, k₂, r₂, hact, hrest⟩
      · cases heq.trans hcode
        exact (hk r).2
      · -- nothing follows the operation but the end of the call
        cases hact.symm.trans hcode
        have hend := (hk r₂).1
        cases hk₂ : k₁ r₂ with
        | act l₃ o₃ k₃ => simp [hk₂, Prog.next] at hend
        | ret l₃ x =>
          rw [hk₂] at hrest
          rcases hrest.head with h | ⟨_, _, _, _, h, -⟩
          · cases h
          · cases h
    simp only [service, Op.exec] at he
    split at he
    · rename_i hready
      obtain ⟨rfl, rfl⟩ := Prod.mk.inj (Option.some.inj he)
      exact ⟨by rw [hready]; exact hbatch, rfl, rfl⟩
    · simp only [Option.some.injEq, Prod.mk.injEq, List.take_of_length_le hle] at he
      obtain ⟨rfl, rfl⟩ := he
      exact ⟨hbatch, rfl, rfl⟩

/-- In every run that follows each acquire by one release, the event objects and the event lists stand for a mailbox:
what the main thread finds in the objects it has acquired and not released is the last part of what it has acquired, and
what it has acquired is what was pushed, in order and without loss, up to what is ready.  Right after an acquire the
batch is all that was pushed since the acquire before. -/
theorem events_delivered {c : ServiceConfig} (hc : ReachWhen acquireThenRelease n c) :
    (c.snd.view.loc.batch.map c.sh.delivery <:+ (c.sh.readied.take c.sh.acquired).map Readied.seen) ∧
      c.sh.eventReady.map c.sh.delivery = (c.sh.readied.drop c.sh.acquired).map Readied.seen ∧
      (c.snd.view.next = some .eventReadyPopAll → ∀ c', service.step c .op₂ = some c' →
        c'.snd.view.loc.batch.map c'.sh.delivery = (c.sh.readied.drop c.sh.acquired).map Readied.seen) := by
  obtain ⟨box, hbox, hs⟩ := delivers hc
  have heq := hbox.posted_eq
  rw [hs.posted] at heq
  have hcollected : (c.sh.readied.take c.sh.acquired).map Readied.seen = box.collected := by
    rw [List.map_take, heq, ← hs.collected, List.take_left]
  have hwaiting : (c.sh.readied.drop c.sh.acquired).map Readied.seen = box.waiting := by
    rw [List.map_drop, heq, ← hs.collected, List.drop_left]
  rw [hcollected, hwaiting, ← hs.batch, ← hs.waiting]
  refine ⟨hbox.batch_suffix, rfl, fun hn c' hstep => ?_⟩
  obtain ⟨hbatch, hevents, hbuffers⟩ := acquire_batch hc hn hstep (ownership hc).toBase.ready_le
  rw [hbatch, hs.waiting]
  refine List.map_congr_left fun e _ => ?_
  simp only [Shared.delivery, Shared.message, hevents, hbuffers]

/-- Steps in which a batch of two events is released and three more events are pushed. -/
private def threeMore : List (Act IoRun MainCall) :=
  .flatten [startUp, [.run₁ (.inbound 0 {}), .op₁, .op₁], .run₁ (.read 5 (.data [1, 2, 3])) :: .replicate 7 .op₁,
    [.run₂ .eventsAcquire, .op₂], .run₂ .eventsRelease :: .replicate 5 .op₂,
    .run₁ (.read 5 (.data [7])) :: .replicate 7 .op₁, .run₁ (.read 5 (.data [8])) :: .replicate 7 .op₁,
    .run₁ (.read 5 (.data [9])) :: .replicate 7 .op₁]

/-- The second acquire takes three events.  Then the last event of the batch is in the object of the first event of the
first batch, and an object of the first batch is ready again. -/
theorem events_delivered_twice : (∃ c c', ReachWhen acquireThenRelease 1 c ∧ service.step c .op₂ = some c' ∧
      c'.snd.view.loc.batch = [2, 3, 0] ∧
      c'.snd.view.loc.batch.map c'.sh.delivery = (c.sh.readied.drop c.sh.acquired).map Readied.seen) ∧
    ∃ c, ReachWhen acquireThenRelease 1 c ∧ c.snd.view.loc.batch = [2, 3, 0] ∧
      (c.sh.delivery 0).bytes = [9] ∧ c.sh.eventReady = [1] ∧ (c.sh.delivery 1).bytes = [10] ∧ c.sh.acquired = 5 ∧
      (c.snd.view.loc.batch.map c.sh.delivery <:+ (c.sh.readied.take c.sh.acquired).map Readied.seen) ∧
      c.sh.eventReady.map c.sh.delivery = (c.sh.readied.drop c.sh.acquired).map Readied.seen := by
  constructor
  · obtain ⟨c, hc, hn, hstep⟩ := exists_reachWhen acquireThenRelease 1 (.flatten [threeMore, [.run₂ .eventsAcquire]])
      (fun c => c.snd.view.next = some .eventReadyPopAll ∧
        (service.step c .op₂).any (fun c' => decide (c'.snd.view.loc.batch = [2, 3, 0])) = true) (by decide +kernel)
    obtain ⟨c', hstep, hbatch⟩ := (Option.any_eq_true _ _).1 hstep
    exact ⟨c, c', hc, hstep, of_decide_eq_true hbatch, (events_delivered hc).2.2 hn c' hstep⟩
  · obtain ⟨c, hc, hbatch, hbytes, hready, hnext, hacq⟩ := exists_reachWhen acquireThenRelease 1
      (.flatten [threeMore, [.run₂ .eventsAcquire, .op₂], .run₁ (.read 5 (.data [10])) :: .replicate 7 .op₁])
      (fun c => c.snd.view.loc.batch = [2, 3, 0] ∧ (c.sh.delivery 0).bytes = [9] ∧ c.sh.eventReady = [1] ∧
        (c.sh.delivery 1).bytes = [10] ∧ c.sh.acquired = 5) (by decide +kernel)
    obtain ⟨hsuffix, hwaiting, -⟩ := events_delivered hc
    exact ⟨c, hc, hbatch, hbytes, hready, hnext, hacq, hsuffix, hwaiting⟩

end ServerLynx
