import ServerLynx.Conservation
import ServerLynx.Threads.Among

/-!
# Releasing twice (`svl_service_events_release`)

`svl_service_events_release` does not reset the count of the acquired events, so a second call pushes the same events
and read buffers again.  The pushes do no harm where the lists are full when the second call starts and the IO thread
takes nothing out of them meanwhile.  An acquire with no release after it drops the events of the acquire before: in the
invariant of this module they stay with the main thread for good.
-/

namespace ServerLynx

open Threads

/-! ### The condition and what it gives -/

/-- The acquired events that no release has pushed yet. -/
def Main.unreleased (m : Main) : List Nat := if m.owed then m.batch else []

/-- The event that the first release after an acquire has in its hands. -/
def Main.releasing (m : Main) : Option Nat := if m.owed then m.hand else none

/-- A push to a list that is full. -/
def Shared.refuses (sh : Shared) : Op → Bool
  | .eventFreePush _ => decide (sh.bufferCount ≤ sh.eventFree.length)
  | .poolReadPush _ => decide (sh.bufferCount ≤ sh.poolRead.length)
  | _ => true

/-- The runs in which each push of a release with no acquire since the release before finds its list full. -/
def refusedTheSecondTime : ServiceCond where
  op₂ sh _ w := w.loc.owed || w.next.all sh.refuses

/-- No event and no read buffer is in two places. -/
structure NoneTwice (n : Nat) (sh : Shared) (io : Io) (m : Main) : Prop where
  events : (sh.eventFree ++ sh.eventReady ++ m.unreleased ++ (io.hand.toList ++ m.releasing.toList)).Nodup
  buffers : (sh.poolRead ++ io.linkBuffers n ++ sh.carried (sh.eventReady ++ m.unreleased)).Nodup

variable {n : Nat} {sh sh' : Shared} {io : Io} {m m' : Main} {v : View Io Op} {w w' : View Main Op}

/-! ### What stands for a state -/

/-- The operations do not read what was refused. -/
theorem Op.exec_refused {o : Op} {r : o.Res} (h : o.exec sh = some (r, sh')) (refused : List ListName) :
    ∃ refused', o.exec { sh with refused := refused } = some (r, { sh' with refused := refused' }) := by
  cases o <;> simp only [Op.exec] at h ⊢
  case threadJoin status =>
    by_cases hc : status = 0 <;> simp only [hc, if_true, if_false] at h ⊢
    · cases ht : sh.thread <;> simp only [ht, Option.some.injEq, Prod.mk.injEq, reduceCtorEq] at h
      all_goals
        obtain ⟨rfl, rfl⟩ := h
        exact ⟨refused, by simp [ht]⟩
    · obtain ⟨rfl, rfl⟩ := Prod.mk.inj (Option.some.inj h)
      exact ⟨_, rfl⟩
  all_goals
    first
    | (obtain ⟨rfl, rfl⟩ := Prod.mk.inj (Option.some.inj h); exact ⟨_, rfl⟩)
    | (split at h <;> (obtain ⟨rfl, rfl⟩ := Prod.mk.inj (Option.some.inj h); exact ⟨_, rfl⟩))
    | (split at h <;> rename_i hc <;> simp only [hc, if_true, if_false] <;>
        (obtain ⟨rfl, rfl⟩ := Prod.mk.inj (Option.some.inj h); exact ⟨_, rfl⟩))

/-- A main thread that holds the acquired events `es`, and `hand`. -/
def Main.holding (es : List Nat) (hand : Option Nat) : Main :=
  { eventUpdates := es, eventUpdatesCount := es.length, hand := hand, owed := true }

@[simp] theorem Main.holding_batch (es : List Nat) (hand : Option Nat) : (Main.holding es hand).batch = es := by
  simp [Main.holding, Main.batch]

/-- `sh'` and `w'` stand for `sh` and `w`: no push was refused, the main thread also holds the events that were dropped,
and a release that is not the first one is not seen. -/
structure Stands (sh : Shared) (w : View Main Op) (sh' : Shared) (w' : View Main Op) : Prop where
  shared : ∃ refused, sh' = { sh with refused := refused }
  loc : ∃ dropped, w'.loc = .holding (w.loc.unreleased ++ dropped) w.loc.releasing
  next : w'.next = if w.loc.owed then w.next else some .stateLoad
  idle : w.next = none → w.loc.hand = none ∧ (w.loc.owed = true → w.loc.cursor = 0)

/-- `Ownership` of what stands for a state. -/
abbrev Standing (n : Nat) : Shared → View Io Op → View Main Op → Prop := Simulated Stands (Ownership n)

/-- The pushes that were refused are forgotten. -/
private theorem Ownership.Base.forget {refused : List ListName}
    (h : Ownership.Base n { sh with refused := refused } io m) : Ownership.Base n { sh with refused := [] } io m :=
  h.of_frame ⟨rfl, rfl, rfl, rfl, rfl, by simp⟩

/-! ### The main thread -/

section MainThread

variable {K : Shared → View Main Op → View Io Op → Prop} {S : Shared → View Io Op → Prop} {v : View Io Op}

/-- Every event and every buffer has its holder, those that were dropped the main thread, while the main thread, in the
private state `m`, is between two operations. -/
structure MainHolds (n : Nat) (m : Main) (sh : Shared) (v : View Io Op) : Prop where
  base : ∃ dropped, Ownership.Base n { sh with refused := [] } v.loc (.holding (m.unreleased ++ dropped) m.releasing)
  io : IoTurn n v

theorem MainHolds.same (h : MainHolds n m sh v) (hm : m'.unreleased = m.unreleased ∧ m'.releasing = m.releasing) :
    MainHolds n m' sh v := by
  obtain ⟨dropped, hb⟩ := h.base
  exact ⟨⟨dropped, by rw [hm.1, hm.2]; exact hb⟩, h.io⟩

/-- Before an operation that gives back no read buffer, in the first release. -/
theorem MainHolds.before (h : MainHolds n m sh v) {o : Op} (ho : m.owed = true → ∀ b, o ≠ .poolReadPush b) :
    Standing n sh v ⟨m, some o⟩ := by
  obtain ⟨dropped, hb⟩ := h.base
  refine ⟨_, ⟨.holding (m.unreleased ++ dropped) m.releasing, if m.owed then some o else some .stateLoad⟩,
    ⟨⟨_, rfl⟩, ⟨dropped, rfl⟩, rfl, by simp⟩, hb, h.io, ⟨?_, ?_⟩⟩
  · intro hn
    split at hn <;> simp at hn
  · intro b hn
    split at hn
    · exact absurd (Option.some.inj hn) (ho ‹_› b)
    · simp at hn

/-- Before the read buffer of the next event of the batch is given back. -/
theorem MainHolds.beforePool (h : MainHolds n m sh v) {e b : Nat} {es : List Nat}
    (hm : m.owed = true → m.batch = e :: es) (he : (sh.events e).readBuffer = some b) :
    Standing n sh v ⟨m, some (.poolReadPush b)⟩ := by
  obtain ⟨dropped, hb⟩ := h.base
  refine ⟨_, ⟨.holding (m.unreleased ++ dropped) m.releasing,
    if m.owed then some (.poolReadPush b) else some .stateLoad⟩,
    ⟨⟨_, rfl⟩, ⟨dropped, rfl⟩, rfl, by simp⟩, hb, h.io, ⟨?_, ?_⟩⟩
  · intro hn
    split at hn <;> simp at hn
  · intro b' hn
    split at hn
    · rename_i ho
      obtain rfl : b = b' := by simpa using hn
      exact ⟨e, es ++ dropped, by simp [Main.unreleased, ho, hm ho], he⟩
    · simp at hn

theorem MainHolds.ended (h : MainHolds n m sh v) (hh : m.hand = none) (hc : m.owed = true → m.cursor = 0) :
    Standing n sh v ⟨m, none⟩ := by
  obtain ⟨dropped, hb⟩ := h.base
  refine ⟨_, ⟨.holding (m.unreleased ++ dropped) m.releasing, if m.owed then none else some .stateLoad⟩,
    ⟨⟨_, rfl⟩, ⟨dropped, rfl⟩, rfl, fun _ => ⟨hh, hc⟩⟩, hb, h.io, ⟨fun _ => ⟨?_, fun _ => rfl, ?_⟩, ?_⟩⟩
  · simp [Main.holding, Main.releasing, hh]
  · simp [Main.holding]
  · intro b hn
    split at hn <;> simp at hn

/-- The main thread holds what the state that stands for its own says. -/
theorem Standing.holds (h : Standing n sh v w) : MainHolds n w.loc sh v := by
  obtain ⟨sh', w', ⟨⟨refused, rfl⟩, ⟨dropped, hl⟩, -, -⟩, hj⟩ := h
  exact ⟨⟨dropped, hl ▸ hj.toBase.forget⟩, hj.io⟩

private abbrev MainStanding (n : Nat) (sh : Shared) (w : View Main Op) (v : View Io Op) : Prop := Standing n sh v w

private abbrev SecondRefused (sh : Shared) (w : View Main Op) (v : View Io Op) : Prop :=
  refusedTheSecondTime.op₂ sh v w = true

private abbrev HoldsAfter (K : Shared → View Main Op → View Io Op → Prop) (n : Nat) (m : Main) (o : Op) (r : o.Res) :
    Shared → View Io Op → Prop := After Op.exec K (MainStanding n) SecondRefused m o r

private abbrev MainKeepsStanding (K : Shared → View Main Op → View Io Op → Prop) (n : Nat)
    (S : Shared → View Io Op → Prop) (code : MainM Unit) (m : Main) : Prop :=
  code.wp Op.exec K (MainStanding n) SecondRefused S (Post K (MainStanding n)) m

private theorem holds_after {o : Op} (ho : o.moves = false) {r : o.Res} (h : HoldsAfter K n m o r sh v) :
    MainHolds n m sh v := by
  obtain ⟨sh₀, -, hj, -, he⟩ := h
  obtain ⟨⟨dropped, hb⟩, hio⟩ := hj.holds
  obtain ⟨refused, he'⟩ := Op.exec_refused he []
  exact ⟨⟨dropped, (hb.of_frame (Op.exec_moveFrame ho he')).forget⟩, hio⟩

private theorem holds_after_load {e : Nat} {evt : Event} (h : HoldsAfter K n m (.eventLoad e) evt sh v) :
    MainHolds n m sh v ∧ evt = sh.events e := by
  refine ⟨holds_after rfl h, ?_⟩
  obtain ⟨sh₀, -, -, -, he⟩ := h
  simp only [Op.exec, Option.some.injEq, Prod.mk.injEq] at he
  rw [← he.1, he.2]

private theorem unreleased_take {e : Nat} {es : List Nat} (ho : m.owed = true) (hm : m.batch = e :: es) :
    Main.unreleased { m with cursor := m.cursor + 1, hand := some e } = es ∧ m.unreleased = e :: es := by
  simp only [Main.unreleased, ho, if_true]
  exact ⟨batch_step hm, hm⟩

private theorem holds_take {e : Nat} {es : List Nat} (h : MainHolds n m sh v) (hm : m.owed = true → m.batch = e :: es)
    (hh : m.hand = none) (he : (sh.events e).readBuffer = none) :
    MainHolds n { m with cursor := m.cursor + 1, hand := some e } sh v := by
  by_cases ho : m.owed = true
  · obtain ⟨dropped, hb⟩ := h.base
    obtain ⟨hnew, hold⟩ := unreleased_take ho (hm ho)
    have hbatch : (Main.holding (m.unreleased ++ dropped) m.releasing).batch = e :: (es ++ dropped) := by simp [hold]
    exact ⟨⟨dropped, hb.takeEvent hbatch (by simp [Main.holding, Main.releasing, hh]) he
      ⟨by rw [hnew, Main.holding_batch], by simp [Main.holding, Main.releasing, ho]⟩ (by
        simp [Main.holding, hnew, hold])⟩, h.io⟩
  · exact h.same ⟨by simp [Main.unreleased, ho], by simp [Main.releasing, ho]⟩

/-- The read buffer of the next event of the batch is given back and the event is taken; in a later release the pool is
full. -/
private theorem holds_after_pool {e b : Nat} {es : List Nat} {pushed : Bool} (hm : m.owed = true → m.batch = e :: es)
    (hh : m.hand = none) (h : HoldsAfter K n m (.poolReadPush b) pushed sh v) :
    MainHolds n { m with cursor := m.cursor + 1, hand := some e } sh v := by
  obtain ⟨sh₀, -, hj, hc, he⟩ := h
  by_cases ho : m.owed = true
  · obtain ⟨sh', w', ⟨⟨refused, rfl⟩, ⟨dropped, hl⟩, hnext, -⟩, hj⟩ := hj
    obtain ⟨hnew, hold⟩ := unreleased_take ho (hm ho)
    replace hl : w'.loc = .holding (e :: es ++ dropped) none := by
      rw [hl]
      simp [hold, Main.releasing, hh]
    -- the read buffer is that of the event
    obtain ⟨e', es', hes, hbuf⟩ := hj.main.releasing b (by rw [hnext, if_pos ho])
    rw [hl, Main.holding_batch] at hes
    obtain rfl : e = e' := (List.cons.inj hes).1
    have hb := hl ▸ hj.toBase.forget
    have hroom := hb.poolRoom_of_batch (Main.holding_batch ..) hbuf
    simp only [Op.exec, hroom, if_true, Option.some.injEq, Prod.mk.injEq] at he
    obtain ⟨-, rfl⟩ := he
    have hbatch : (Main.holding (e :: es ++ dropped) none).batch = e :: (es ++ dropped) := Main.holding_batch ..
    exact ⟨⟨dropped, hb.takeReadEvent hbatch rfl hbuf
      ⟨by rw [hnew, Main.holding_batch], by simp [Main.holding, Main.releasing, ho]⟩ (by
        simp [Main.holding, hnew])⟩, hj.io⟩
  · have hfull : ¬ sh₀.poolRead.length < sh₀.bufferCount := by
      simpa [SecondRefused, refusedTheSecondTime, ho, Shared.refuses] using hc
    simp only [Op.exec, hfull, if_false, Option.some.injEq, Prod.mk.injEq] at he
    obtain ⟨-, rfl⟩ := he
    exact MainHolds.same ⟨hj.holds.base, hj.holds.io⟩ ⟨by simp [Main.unreleased, ho], by simp [Main.releasing, ho]⟩

/-- The event in the hands of the main thread is given back; in a later release the free list is full. -/
private theorem holds_after_free {e : Nat} {pushed : Bool} (hh : m.hand = some e)
    (h : HoldsAfter K n m (.eventFreePush e) pushed sh v) : MainHolds n { m with hand := none } sh v := by
  obtain ⟨sh₀, -, hj, hc, he⟩ := h
  obtain ⟨⟨dropped, hb⟩, hio⟩ := hj.holds
  by_cases ho : m.owed = true
  · have hhand : (Main.holding (m.unreleased ++ dropped) m.releasing).hand = some e := by
      simp [Main.holding, Main.releasing, ho, hh]
    have hroom := hb.freeRoom hhand
    simp only [Op.exec, hroom, if_true, Option.some.injEq, Prod.mk.injEq] at he
    obtain ⟨-, rfl⟩ := he
    exact ⟨⟨dropped, hb.freeEvent hhand ⟨by rw [Main.holding_batch, Main.holding_batch]; rfl,
      by simp [Main.holding, Main.releasing]⟩ rfl⟩, hio⟩
  · have hfull : ¬ sh₀.eventFree.length < sh₀.bufferCount := by
      simpa [SecondRefused, refusedTheSecondTime, ho, Shared.refuses] using hc
    simp only [Op.exec, hfull, if_false, Option.some.injEq, Prod.mk.injEq] at he
    obtain ⟨-, rfl⟩ := he
    exact MainHolds.same ⟨⟨dropped, hb⟩, hio⟩ ⟨by simp [Main.unreleased, ho], by simp [Main.releasing, ho]⟩

/-- The loop of a release: at its end the main thread holds no acquired event that is not released. -/
private theorem releaseLoop_holds {es : List Nat} {Q : (Shared → View Io Op → Prop) → Main → Unit → Prop}
    (hm : m.owed = true → m.batch = es) (hh : m.hand = none) (hS : ∀ sh v, S sh v → MainHolds n m sh v)
    (hQ : ∀ (S : Shared → View Io Op → Prop) (m' : Main), (∀ sh v, S sh v → MainHolds n m' sh v) → m'.hand = none →
      (m'.owed = true → m'.batch = []) → Q S m' ()) :
    (releaseLoop es).wp Op.exec K (MainStanding n) SecondRefused S Q m := by
  induction es generalizing m S with
  | nil => exact hQ S m hS hh hm
  | cons e es ih =>
    -- the event itself, once its read buffer is out of its hands
    have hrest : ∀ {S : Shared → View Io Op → Prop},
        (∀ sh v, S sh v → MainHolds n { m with cursor := m.cursor + 1, hand := some e } sh v) →
        Code.wp Op.exec K (MainStanding n) SecondRefused (do
          modify fun m => { m with cursor := m.cursor + 1, hand := some e }
          let _ ← perform (.eventFreePush e)
          modify fun m => { m with hand := none }
          releaseLoop es) S Q m := by
      intro S hS
      simp only [Code.wp_bind, Code.wp_modify, Code.wp_op]
      refine ⟨fun sh v h _ => (hS sh v h).before (by simp), fun pushed _ => ?_⟩
      refine ih (fun ho => batch_step (hm ho)) rfl fun sh v h => ?_
      exact holds_after_free (m := { m with cursor := m.cursor + 1, hand := some e }) rfl h
    simp only [releaseLoop, Code.wp_bind, Code.wp_op, Code.wp_ite] at hrest ⊢
    refine ⟨fun sh v h _ => (hS sh v h).before (by simp), fun evt _ => ⟨fun ht => ?_, fun ht => ?_⟩⟩
    · cases hp : evt.priv with
      | none =>
        refine hrest fun sh v h => ?_
        obtain ⟨hholds, rfl⟩ := holds_after_load h
        exact holds_take hholds hm hh (by simp [Event.readBuffer, hp])
      | some b =>
        simp only [Code.wp_bind, Code.wp_op]
        refine ⟨fun sh v h _ => ?_, fun pushed _ => hrest fun sh v h => holds_after_pool hm hh h⟩
        obtain ⟨hholds, rfl⟩ := holds_after_load h
        exact hholds.beforePool hm (by simp [Event.readBuffer, ht, hp])
    · refine hrest fun sh v h => ?_
      obtain ⟨hholds, rfl⟩ := holds_after_load h
      exact holds_take hholds hm hh (by simp [Event.readBuffer, ht])

private theorem MainHolds.drop (h : MainHolds n m sh v) (hm : m'.unreleased = [] ∧ m'.releasing = m.releasing) :
    MainHolds n m' sh v := by
  obtain ⟨dropped, hb⟩ := h.base
  exact ⟨⟨m.unreleased ++ dropped, by rw [hm.1, hm.2]; exact hb⟩, h.io⟩

private theorem holds_after_acquire {r : Option (List Nat)} (ho : m.owed = true) (hb : m.batch = []) (hc : m.cursor = 0)
    (hh : m.hand = none) (h : HoldsAfter K n m .eventReadyPopAll r sh v) : match r with
    | none => MainHolds n m sh v
    | some es => MainHolds n { m with
        eventUpdates := es ++ m.eventUpdates.drop es.length, eventUpdatesCount := es.length } sh v := by
  obtain ⟨sh₀, -, hj, -, he⟩ := h
  obtain ⟨⟨dropped, hbase⟩, hio⟩ := hj.holds
  have hle := hbase.ready_le
  simp only [Op.exec] at he
  split at he
  · simp only [Option.some.injEq, Prod.mk.injEq] at he
    obtain ⟨rfl, rfl⟩ := he
    exact ⟨⟨dropped, hbase⟩, hio⟩
  · simp only [Option.some.injEq, Prod.mk.injEq, List.take_of_length_le hle, List.drop_of_length_le hle] at he
    obtain ⟨rfl, rfl⟩ := he
    have hold : m.unreleased = [] := by simp [Main.unreleased, hb]
    have hnew : Main.unreleased { m with
        eventUpdates := sh₀.eventReady ++ m.eventUpdates.drop sh₀.eventReady.length
        eventUpdatesCount := sh₀.eventReady.length } = sh₀.eventReady := by
      simp [Main.unreleased, Main.batch, ho, hc]
    refine ⟨⟨dropped, hbase.acquire ⟨?_, ?_⟩ ?_⟩, hio⟩
    · rw [Main.holding_batch, Main.holding_batch, hnew, hold, List.nil_append]
    · simp [Main.holding, Main.releasing, hh]
    · rw [Main.holding_batch, hold, List.nil_append]
      simp only [Main.holding, hnew, List.length_append]

private theorem endCall_holds {call : MainCall} {r : Bool × Nat} (hS : ∀ sh v, S sh v → MainHolds n m sh v)
    (hh : m.hand = none) (hc : m.owed = true → m.cursor = 0) : MainKeepsStanding K n S (endCall call r) m :=
  fun sh v h _ => MainHolds.ended (m := { m with
      call := none, returned := some ⟨call, r.1, r.2⟩
      succeeded := if r.1 && call.isCmd then m.succeeded ++ [⟨call, r.1, r.2⟩] else m.succeeded })
    ((hS sh v h).same ⟨rfl, rfl⟩) hh hc

/-- Every call keeps the owners, where a second release finds the lists full. -/
private theorem MainCall.standing (call : MainCall) (hh : m.hand = none) (hc : m.owed = true → m.cursor = 0)
    (hS : ∀ sh v, S sh v → MainHolds n m sh v) : MainKeepsStanding K n S call.code m := by
  have hS' : ∀ sh v, S sh v → MainHolds n { m with call := some call, returned := none } sh v :=
    fun sh v h => (hS sh v h).same ⟨rfl, rfl⟩
  change MainKeepsStanding K n S (call.run >>= endCall call) { m with call := some call, returned := none }
  generalize hm' : ({ m with call := some call, returned := none } : Main) = m' at hS' ⊢
  replace hh : m'.hand = none := hm' ▸ hh
  replace hc : m'.owed = true → m'.cursor = 0 := hm' ▸ hc
  clear hm' hS
  by_cases hk : call.kind = .event
  · cases call with
    | eventsAcquire =>
      simp only [MainKeepsStanding, MainCall.run, svlServiceEventsAcquire, Code.wp_bind, Code.wp_modify, Code.wp_op]
      have hS₁ : ∀ sh v, S sh v → MainHolds n { m' with eventUpdatesCount := 0, cursor := 0, owed := true } sh v :=
        fun sh v h => (hS' sh v h).drop ⟨by simp [Main.unreleased, Main.batch], by simp [Main.releasing, hh]⟩
      refine ⟨fun sh v h _ => (hS₁ sh v h).before (by simp), ?_⟩
      rintro (_ | es) -
      all_goals
        refine endCall_holds (fun sh v h => ?_) hh fun _ => rfl
        exact holds_after_acquire (m := { m' with eventUpdatesCount := 0, cursor := 0, owed := true }) rfl rfl rfl hh h
    | eventsRelease =>
      simp only [MainKeepsStanding, MainCall.run, svlServiceEventsRelease, Code.wp_bind, Code.wp_modify, Code.wp_get]
      have hS₁ : ∀ sh v, S sh v → MainHolds n { m' with cursor := 0 } sh v := by
        intro sh v h
        refine (hS' sh v h).same ⟨?_, rfl⟩
        by_cases ho : m'.owed = true
        · simp [Main.unreleased, Main.batch, hc ho]
        · simp [Main.unreleased, ho]
      refine releaseLoop_holds (m := { m' with cursor := 0 }) (fun _ => rfl) hh hS₁ fun S m₁ hS₂ hh₁ hb => ?_
      refine endCall_holds (fun sh v h => (hS₂ sh v h).same ⟨?_, ?_⟩) hh₁ (by simp)
      · by_cases ho : m₁.owed = true
        · simp [Main.unreleased, ho, hb ho]
        · simp [Main.unreleased, ho]
      · simp [Main.releasing, hh₁]
    | _ => simp [MainCall.kind] at hk
  · -- the call does not concern events
    have hop : ∀ {o : Op}, o.kind = call.kind ∨ o = .stateLoad → o.moves = false := by
      rintro o (ho | rfl)
      · cases o <;> first | rfl | exact absurd ho.symm hk
      · rfl
    have hsame : ∀ {l : Main}, MainFrame call.kind m' l → (l.unreleased = m'.unreleased ∧ l.releasing = m'.releasing) ∧
        l.hand = m'.hand ∧ l.owed = m'.owed ∧ l.cursor = m'.cursor := by
      intro l hl
      obtain ⟨h₁, h₂, h₃, h₄, h₅⟩ := hl.event hk
      refine ⟨⟨?_, ?_⟩, h₄, h₅, h₃⟩
      · simp only [Main.unreleased, Main.batch, h₁, h₂, h₃, h₅]
      · simp only [Main.releasing, h₄, h₅]
    rw [MainKeepsStanding, Code.wp_bind]
    refine Prog.wp_mono ?_ (Prog.wp_of_path (R := MainHolds n m') ?_ ?_ (call.keepsTo.path _) hS')
    · rintro S l r ⟨hS, hl⟩
      obtain ⟨hu, hh', ho, hc'⟩ := hsame hl
      exact endCall_holds (fun sh v h => (hS sh v h).same hu) (hh'.trans hh) (by rw [ho, hc']; exact hc)
    · rintro sh l o v ⟨⟨ho, -⟩, hl⟩ - h
      refine (h.same (hsame hl).1).before ?_
      rintro - b rfl
      exact absurd (hop ho) (by simp [Op.moves])
    · rintro sh sh' l o r v ⟨⟨ho, -⟩, hl⟩ hk hj he
      obtain ⟨hu, -⟩ := hsame hl
      obtain ⟨⟨dropped, hb⟩, hio⟩ := hj.holds
      obtain ⟨refused, he'⟩ := Op.exec_refused he []
      exact MainHolds.same ⟨⟨dropped, (hb.of_frame (Op.exec_moveFrame (hop ho) he')).forget⟩, hio⟩
        ⟨hu.1.symm, hu.2.symm⟩

end MainThread

/-! ### Over whole runs -/

/-- `Standing` in every state that a run with refused second releases reaches. -/
theorem standing {c : ServiceConfig} (h : ReachWhen refusedTheSecondTime n c) :
    Standing n c.sh c.fst.view c.snd.view := by
  refine Machine.Reach.invariant (K := fun _ v _ => IoInv n ⟨False, False, False⟩ v.loc)
    (fun c hc => (ioInv ⟨False.elim, False.elim, False.elim, False.elim⟩ hc).1) ?_ ?_ ?_ h
  · have h₀ := ownership (n := n) Machine.Reach.init
    have hb : Ownership.Base n (Shared.setup n) (Io.setup n) (.holding [] none) :=
      h₀.toBase.of_main ⟨rfl, rfl⟩ (Nat.zero_le _)
    exact MainHolds.ended (m := {}) ⟨⟨[], hb⟩, h₀.io⟩ rfl (by simp)
  · rintro d io ⟨sh₀, w₀, hi, ⟨sh', w', -, hj⟩, hr, -⟩
    refine Prog.wp_simulated (K := fun _ v _ => IoInv n ⟨False, False, False⟩ v.loc) ?_ (fun _ hi => hi) ?_ ?_
      (IoRun.owns (S := fun sh w => IoOwns n io sh w) hi hr (fun _ _ h => h) (hj.io.idle rfl))
    · rintro o r sh sh₁ w _ w' ⟨⟨refused, rfl⟩, hloc, hnext, hidle⟩ he
      obtain ⟨refused', he'⟩ := Op.exec_refused he refused
      exact ⟨_, he', ⟨_, rfl⟩, hloc, hnext, hidle⟩
    · rintro sh w ⟨-, ⟨sh', w', hst, hj⟩, -⟩
      exact ⟨sh', w', hst, hj.toBase, hj.main⟩
    · rintro S S' l _ hS hQ sh w hs hk
      obtain ⟨sh', w', hst, hs'⟩ := hS sh w hs
      exact ⟨sh', w', hst, hQ sh' w' hs' hk⟩
  · rintro call m ⟨sh₀, v₀, -, ⟨sh', w', hst, -⟩, -, -⟩
    exact MainCall.standing call (hst.idle rfl).1 (hst.idle rfl).2 fun sh v h => h.2.1.holds

theorem Standing.noneTwice (h : Standing n sh v w) : NoneTwice n sh v.loc w.loc := by
  obtain ⟨dropped, hb⟩ := h.holds.base
  have hevents := hb.nodup
  have hbuffers := hb.buffers.nodup_iff.2 List.nodup_range
  rw [Main.holding_batch] at hevents hbuffers
  have hsub : (w.loc.unreleased).Sublist (w.loc.unreleased ++ dropped) := List.sublist_append_left ..
  refine ⟨hevents.sublist ?_, hbuffers.sublist ?_⟩
  · exact ((List.Sublist.refl _).append hsub).append (List.Sublist.refl _)
  · exact (List.Sublist.refl _).append (((List.Sublist.refl _).append hsub).filterMap _)

/-! ### After a release -/

private structure SameOwed (m l : Main) : Prop where
  owed : l.owed = m.owed

private instance : IsPreorder Main SameOwed where
  refl _ := ⟨rfl⟩
  trans _ _ _ h h' := ⟨h'.owed.trans h.owed⟩

private theorem releaseLoop_owed (es : List Nat) : (releaseLoop es).Within (fun _ => True) SameOwed := by
  induction es with
  | nil => exact .pure _
  | cons e es ih =>
    refine .bind (.op trivial) fun evt => ?_
    have hrest : Code.Within (fun _ => True) SameOwed (do
        modify fun m : Main => { m with cursor := m.cursor + 1, hand := some e }
        let _ ← perform (.eventFreePush e)
        modify fun m => { m with hand := none }
        releaseLoop es) :=
      .bind (.modify fun _ => ⟨rfl⟩) fun _ => .bind (.op trivial) fun _ => .bind (.modify fun _ => ⟨rfl⟩) fun _ => ih
    refine .ite ?_ hrest
    split
    · exact .bind (.op trivial) fun _ => hrest
    · exact hrest

/-- A call that is not an acquire leaves it open whether a release is owed, or settles it. -/
private theorem MainCall.owed_path {call : MainCall} (hcall : call ≠ .eventsAcquire) (m : Main) :
    call.code.path (fun _ _ _ => True) (fun l _ => l.owed = m.owed) (fun l _ => m.owed = false → l.owed = false) m := by
  change (call.run >>= endCall call).path _ _ _ { m with call := some call, returned := none }
  rw [Code.path_bind]
  by_cases hr : call = .eventsRelease
  · subst hr
    simp only [MainCall.run, svlServiceEventsRelease, Code.path_bind, Code.path_modify, Code.path_get]
    exact Code.path_mono (fun _ _ h => h.2.owed) (fun _ _ _ _ => rfl) ((releaseLoop_owed _).path _)
  · have hk : call.kind ≠ .event := by cases call <;> simp_all [MainCall.kind]
    refine Code.path_mono (fun _ _ h => (h.2.event hk).2.2.2.2) (fun l _ h ho => ?_) (call.keepsTo.path _)
    exact (h.event hk).2.2.2.2.trans ho

private theorem MainCall.acquire_path (m : Main) :
    MainCall.eventsAcquire.code.path (fun _ _ _ => True) (fun l _ => l.owed = true) (fun _ _ => True) m := by
  refine ⟨rfl, ?_⟩
  rintro (_ | es) - <;> trivial

variable {c c' : ServiceConfig}

/-- Where no release is owed, none is owed until the next acquire. -/
private theorem step_owed {cond : ServiceCond} (hc : ReachWhen cond n c) {a : Act IoRun MainCall}
    (ha : a ≠ .run₂ .eventsAcquire) (ho : c.snd.view.loc.owed = false) (hs : service.step c a = some c') :
    c'.snd.view.loc.owed = false := by
  by_cases hrun : ∃ d, a = .run₂ d
  · obtain ⟨d, rfl⟩ := hrun
    obtain ⟨l, hl, -, rfl⟩ := Machine.step_run₂ hs
    rw [hl] at ho
    have hd : d ≠ .eventsAcquire := fun hd => ha (hd ▸ rfl)
    exact Prog.path.loc (P := fun l => l.owed = false)
      (Prog.path_mono (fun _ _ h => h.trans ho) (fun _ _ h => h ho) (MainCall.owed_path hd l))
  rcases Machine.step_snd hs (not_exists.1 hrun) with ⟨-, hsame⟩ | ⟨-, l, o, k, r, hp, -, hp'⟩
  · rw [hsame]
    exact ho
  rw [hp] at ho
  rw [hp']
  rcases Machine.Reach.rest₂ hc with hret | ⟨d, l₀, hrest⟩
  · rw [hp] at hret
    simp at hret
  rw [hp] at hrest
  by_cases hd : d = .eventsAcquire
  · subst hd
    have howed := (hrest.path (MainCall.acquire_path l₀)).1
    exact absurd (ho.symm.trans howed) (by simp)
  · have hpath := hrest.path (MainCall.owed_path hd l₀)
    have ho₀ : l₀.owed = false := hpath.1.symm.trans ho
    exact Prog.path.loc (P := fun l => l.owed = false)
      (Prog.path_mono (fun _ _ h => h.trans ho₀) (fun _ _ h => h ho₀) (hpath.2 r trivial))

/-- The read buffers that the IO thread gives back to the pool along the steps, as long as they are possible. -/
def returnedByIo : ServiceConfig → List (Act IoRun MainCall) → List Nat
  | _, [] => []
  | c, a :: as => match a, service.step c a with
    | _, none => []
    | .op₁, some c' => c'.sh.poolRead.drop c.sh.poolRead.length ++ returnedByIo c' as
    | _, some c' => returnedByIo c' as

/-- The operations of the IO thread pop from the free list, and pop from the pool or push to it. -/
private theorem exec_byIo {o : Op} {r : o.Res} (ho : o.byIo = true) (h : o.exec sh = some (r, sh')) :
    sh'.eventFree <:+ sh.eventFree ∧
      sh'.poolRead <:+ sh.poolRead ++ sh'.poolRead.drop sh.poolRead.length := by
  cases hm : o.moves with
  | false =>
    have hf := Op.exec_moveFrame hm h
    rw [hf.free, hf.pool]
    exact ⟨List.suffix_refl _, by simp⟩
  | true =>
    cases o <;> simp only [Op.moves, Op.byIo, Bool.false_eq_true] at hm ho <;> simp only [Op.exec] at h
    case poolReadPop =>
      cases hp : sh.poolRead with
      | nil =>
        simp only [hp, Option.some.injEq, Prod.mk.injEq] at h
        obtain ⟨-, rfl⟩ := h
        simp [hp]
      | cons b bs =>
        simp only [hp, Option.some.injEq, Prod.mk.injEq] at h
        obtain ⟨-, rfl⟩ := h
        have hnone : bs.drop (bs.length + 1) = [] := List.drop_eq_nil_of_le (by omega)
        simp [hnone, List.suffix_cons]
    all_goals split at h <;> obtain ⟨-, rfl⟩ := Prod.mk.inj (Option.some.inj h) <;> simp_all

/-- A step of the main thread after a release leaves the free list and the pool alone, where pushes are refused. -/
private theorem exec_refuses {o : Op} {r : o.Res} (ho : o.byMain = true) (hr : sh.refuses o = true)
    (h : o.exec sh = some (r, sh')) : sh'.eventFree = sh.eventFree ∧ sh'.poolRead = sh.poolRead := by
  cases hm : o.moves with
  | false => exact ⟨(Op.exec_moveFrame hm h).free, (Op.exec_moveFrame hm h).pool⟩
  | true =>
    cases o <;> simp only [Op.moves, Op.byMain, Bool.false_eq_true] at hm ho <;>
      simp only [Op.exec, Shared.refuses, decide_eq_true_eq] at h hr
    case eventReadyPopAll => split at h <;> obtain ⟨-, rfl⟩ := Prod.mk.inj (Option.some.inj h) <;> exact ⟨rfl, rfl⟩
    all_goals
      rw [if_neg (Nat.not_lt.2 hr)] at h
      obtain ⟨-, rfl⟩ := Prod.mk.inj (Option.some.inj h)
      exact ⟨rfl, rfl⟩

/-- From the end of a release to the next acquire, only the IO thread changes the free list and the pool. -/
private theorem run_lists (hc : ReachWhen refusedTheSecondTime n c) (ho : c.snd.view.loc.owed = false)
    {as : List (Act IoRun MainCall)} (has : ∀ a ∈ as, a ≠ .run₂ .eventsAcquire)
    (hr : service.runWhen refusedTheSecondTime c as = some c') :
    c'.sh.eventFree <:+ c.sh.eventFree ∧ c'.sh.poolRead <:+ c.sh.poolRead ++ returnedByIo c as := by
  induction as generalizing c with
  | nil =>
    obtain rfl := Option.some.inj hr
    simp [returnedByIo]
  | cons a as ih =>
    obtain ⟨ha, hr⟩ := Option.ite_none_right_eq_some.1 hr
    obtain ⟨c₁, h₁, hr⟩ := Option.bind_eq_some_iff.1 hr
    have ho₁ := step_owed hc (has a (List.mem_cons_self ..)) ho h₁
    obtain ⟨hfree, hpool⟩ := ih (hc.step a ha h₁) ho₁ (fun a' hm => has a' (List.mem_cons_of_mem _ hm)) hr
    have hby := next_by hc
    cases a with
    | run₁ d =>
      obtain ⟨l, -, -, rfl⟩ := Machine.step_run₁ h₁
      simpa [returnedByIo, h₁] using And.intro hfree hpool
    | run₂ d =>
      obtain ⟨l, -, -, rfl⟩ := Machine.step_run₂ h₁
      simpa [returnedByIo, h₁] using And.intro hfree hpool
    | op₁ =>
      cases hp : c.fst with
      | ret l x => simp [Machine.step, hp] at h₁
      | act l o k =>
        obtain ⟨r, sh', hx, rfl⟩ := Machine.step_op₁ hp h₁
        obtain ⟨hfree₁, hpool₁⟩ := exec_byIo (hby.1 o (by rw [hp]; rfl)) hx
        simp only [returnedByIo, h₁]
        refine ⟨hfree.trans hfree₁, hpool.trans ?_⟩
        rw [← List.append_assoc]
        exact List.suffix_append_self_iff.2 hpool₁
    | op₂ =>
      cases hp : c.snd with
      | ret l x => simp [Machine.step, hp] at h₁
      | act l o k =>
        obtain ⟨r, sh', hx, rfl⟩ := Machine.step_op₂ hp h₁
        rw [hp] at ho
        have howed : l.owed = false := ho
        have hrefuses : c.sh.refuses o = true := by
          simpa [Cond.allows, refusedTheSecondTime, howed, hp] using ha
        obtain ⟨hfree₁, hpool₁⟩ := exec_refuses (hby.2 o (by rw [hp]; rfl)) hrefuses hx
        simp only [returnedByIo, h₁]
        rw [← hfree₁, ← hpool₁]
        exact ⟨hfree, hpool⟩

/-! ### A second release that starts with full lists -/

/-- The main thread is in a release with no acquire since the release before. -/
def Main.again (m : Main) : Bool := !m.owed && decide (m.call = some .eventsRelease)

/-- None of the events is a `READ` event that has its read buffer. -/
def Shared.noneRead (sh : Shared) (es : List Nat) : Bool := es.all fun e => (sh.events e).readBuffer.isNone

/-- The free list is full, unless there are no events to give back, and the pool is, unless none of them is a `READ`
event. -/
def Shared.fullFor (sh : Shared) (es : List Nat) : Bool :=
  (es.isEmpty || decide (sh.bufferCount ≤ sh.eventFree.length)) &&
    (sh.noneRead es || decide (sh.bufferCount ≤ sh.poolRead.length))

/-- The runs in which a release with no acquire since the release before finds the lists full when it is called, and the
IO thread pops from neither of them as long as the call has something to push to it. -/
def fullWhenReleasedAgain : ServiceCond where
  run₂ call sh _ w := match call with
    | .eventsRelease => w.loc.owed || sh.fullFor (w.loc.eventUpdates.take w.loc.eventUpdatesCount)
    | _ => true
  op₁ sh v w := !w.loc.again || match v.next with
    | some (.eventFreePop _) => w.loc.hand.isNone && w.loc.batch.isEmpty
    | some .poolReadPop => sh.noneRead w.loc.batch
    | _ => true

/-- The lists are full to which a release, in the private state `m`, has something to push. -/
structure Main.Full (m : Main) (sh : Shared) : Prop where
  free : m.hand ≠ none ∨ m.batch ≠ [] → sh.bufferCount ≤ sh.eventFree.length
  pool : sh.noneRead m.batch = false → sh.bufferCount ≤ sh.poolRead.length

/-- In a second release the lists are full, and what is about to be pushed is still to be pushed. -/
structure ReleasesFull (sh : Shared) (w : View Main Op) : Prop where
  full : w.loc.again = true → w.loc.Full sh
  free : ∀ e, w.next = some (.eventFreePush e) → w.loc.call = some .eventsRelease ∧ w.loc.hand ≠ none
  pool : ∀ b, w.next = some (.poolReadPush b) → w.loc.call = some .eventsRelease ∧
    (w.loc.again = true → sh.noneRead w.loc.batch = false)

/-- Where the lists are full, the pushes of a second release are refused. -/
theorem ReleasesFull.refuses (h : ReleasesFull sh w) : refusedTheSecondTime.op₂ sh v w = true := by
  by_cases ho : w.loc.owed = true
  · simp [refusedTheSecondTime, ho]
  have hagain : w.loc.call = some .eventsRelease → w.loc.again = true := by
    intro hcall
    simp [Main.again, hcall, Bool.eq_false_iff.2 ho]
  have hnext : ∀ o, w.next = some o → sh.refuses o = true := by
    intro o hn
    cases o with
    | eventFreePush e =>
      obtain ⟨hcall, hh⟩ := h.free e hn
      simpa [Shared.refuses] using (h.full (hagain hcall)).free (.inl hh)
    | poolReadPush b =>
      obtain ⟨hcall, hread⟩ := h.pool b hn
      simpa [Shared.refuses] using (h.full (hagain hcall)).pool (hread (hagain hcall))
    | _ => rfl
  cases hn : w.next with
  | none => simp [refusedTheSecondTime, hn]
  | some o => simp [refusedTheSecondTime, hn, hnext o hn]

/-- The IO thread keeps the lists full, and leaves the events alone that a second release is still to give back. -/
private theorem full_byIo {o : Op} {r : o.Res} {l : Io} (hj : Standing n sh ⟨l, some o⟩ w)
    (hf : w.loc.again = true → w.loc.Full sh) (hc : fullWhenReleasedAgain.op₁ sh ⟨l, some o⟩ w = true)
    (hby : o.byIo = true) (he : o.exec sh = some (r, sh')) (ha : w.loc.again = true) :
    w.loc.Full sh' ∧ (w.loc.batch ≠ [] → sh'.events = sh.events) := by
  have hfull := hf ha
  cases hm : o.moves with
  | false =>
    have hframe := Op.exec_moveFrame hm he
    refine ⟨⟨?_, ?_⟩, fun _ => hframe.events⟩
    · rw [hframe.count, hframe.free]
      exact hfull.free
    · rw [hframe.count, hframe.pool, Shared.noneRead, hframe.events]
      exact hfull.pool
  | true =>
    cases o with
    | eventFreePop type =>
      obtain ⟨hh, hb⟩ : w.loc.hand = none ∧ w.loc.batch = [] := by simpa [fullWhenReleasedAgain, ha] using hc
      exact ⟨⟨by simp [hh, hb], by simp [hb, Shared.noneRead]⟩, by simp [hb]⟩
    | eventReadyPush e evt =>
      -- the event is not in the free list, so this release has given back its last one
      obtain ⟨⟨dropped, hbase⟩, hio⟩ := hj.holds
      have hhand : l.hand = some e := hio.pushing _ e rfl rfl
      have hlen := hbase.events.length_eq
      rw [hhand] at hlen
      simp only [List.length_append, List.length_range, Option.toList_some, List.length_cons] at hlen
      have hnot : ¬ (w.loc.hand ≠ none ∨ w.loc.batch ≠ []) := fun h => by have := hfull.free h; omega
      simp only [ne_eq, not_or, not_not] at hnot
      exact ⟨⟨by simp [hnot], by simp [hnot, Shared.noneRead]⟩, by simp [hnot]⟩
    | poolReadPop =>
      have hnone : sh.noneRead w.loc.batch = true := by simpa [fullWhenReleasedAgain, ha] using hc
      simp only [Op.exec] at he
      split at he <;> obtain ⟨-, rfl⟩ := Prod.mk.inj (Option.some.inj he)
      · exact ⟨hfull, fun _ => rfl⟩
      · exact ⟨⟨hfull.free, fun h => absurd (hnone.symm.trans h) (by simp)⟩, fun _ => rfl⟩
    | poolReadPush b =>
      simp only [Op.exec] at he
      split at he <;> obtain ⟨-, rfl⟩ := Prod.mk.inj (Option.some.inj he)
      · refine ⟨⟨hfull.free, fun h => ?_⟩, fun _ => rfl⟩
        exact Nat.le_trans (hfull.pool h) (by simp)
      · exact ⟨⟨hfull.free, hfull.pool⟩, fun _ => rfl⟩
    | _ => simp [Op.moves, Op.byIo] at hm hby

section MainFull

variable {S : Shared → View Io Op → Prop} {K : Shared → View Main Op → View Io Op → Prop}

private abbrev FullAfter (K : Shared → View Main Op → View Io Op → Prop) (m : Main) (o : Op) (r : o.Res) :
    Shared → View Io Op → Prop :=
  After Op.exec K (fun sh w _ => ReleasesFull sh w) SecondRefused m o r

private abbrev KeepsFull (K : Shared → View Main Op → View Io Op → Prop) (S : Shared → View Io Op → Prop)
    (code : MainM Unit) (m : Main) : Prop :=
  code.wp Op.exec K (fun sh w _ => ReleasesFull sh w) SecondRefused S (Post K fun sh w _ => ReleasesFull sh w) m

private theorem exec_events {o : Op} {r : o.Res} (ho : o.byMain = true) (h : o.exec sh = some (r, sh')) :
    sh'.events = sh.events ∧ sh'.bufferCount = sh.bufferCount := by
  cases hm : o.moves with
  | false => exact ⟨(Op.exec_moveFrame hm h).events, (Op.exec_moveFrame hm h).count⟩
  | true =>
    cases o <;> simp only [Op.moves, Op.byMain, Bool.false_eq_true] at hm ho <;> simp only [Op.exec] at h
    all_goals split at h <;> obtain ⟨-, rfl⟩ := Prod.mk.inj (Option.some.inj h) <;> exact ⟨rfl, rfl⟩

/-- Whatever a second release does, the lists stay as full as they are. -/
private theorem full_after {o : Op} {r : o.Res} (ho : o.byMain = true) (h : FullAfter K m o r sh v)
    (ha : m.again = true) : m.Full sh := by
  obtain ⟨sh₀, -, hj, hc, he⟩ := h
  have howed : m.owed = false := by
    simp only [Main.again, Bool.and_eq_true, Bool.not_eq_true'] at ha
    exact ha.1
  have hr : sh₀.refuses o = true := by simpa [SecondRefused, refusedTheSecondTime, howed] using hc
  obtain ⟨hfree, hpool⟩ := exec_refuses ho hr he
  obtain ⟨hevents, hcount⟩ := exec_events ho he
  have hfull := hj.full ha
  refine ⟨?_, ?_⟩
  · rw [hcount, hfree]
    exact hfull.free
  · rw [hcount, hpool, Shared.noneRead, hevents]
    exact hfull.pool

private theorem endCall_full {call : MainCall} {r : Bool × Nat} : KeepsFull K S (endCall call r) m :=
  fun _ _ _ _ => ⟨by simp [Main.again], by simp, by simp⟩

/-- The loop of a release keeps the lists full, if it is a second one. -/
private theorem releaseLoop_full {es : List Nat} {Q : (Shared → View Io Op → Prop) → Main → Unit → Prop}
    (hcall : m.call = some .eventsRelease) (hb : m.batch = es) (hh : m.hand = none)
    (hS : ∀ sh v, S sh v → m.again = true → m.Full sh) (hQ : ∀ S m', Q S m' ()) :
    (releaseLoop es).wp Op.exec K (fun sh w _ => ReleasesFull sh w) SecondRefused S Q m := by
  induction es generalizing m S with
  | nil => exact hQ S m
  | cons e es ih =>
    have hnext := batch_step hb
    -- the event itself, once its read buffer was given back
    have hrest : ∀ {S : Shared → View Io Op → Prop}, (∀ sh v, S sh v → m.again = true → m.Full sh) →
        Code.wp Op.exec K (fun sh w _ => ReleasesFull sh w) SecondRefused (do
          modify fun m => { m with cursor := m.cursor + 1, hand := some e }
          let _ ← perform (.eventFreePush e)
          modify fun m => { m with hand := none }
          releaseLoop es) S Q m := by
      intro S hS
      simp only [Code.wp_bind, Code.wp_modify, Code.wp_op]
      refine ⟨fun sh v h _ => ⟨fun ha => ?_, by simp [hcall], by simp⟩, fun pushed _ => ?_⟩
      · have hfull := hS sh v h ha
        refine ⟨fun _ => hfull.free (.inr (by simp [hb])), fun hread => hfull.pool ?_⟩
        rw [hnext] at hread
        simp only [hb, Shared.noneRead, List.all_cons, Bool.and_eq_false_iff]
        exact .inr hread
      · refine ih hcall hnext rfl fun sh v h ha => ?_
        have hfull := full_after (m := { m with cursor := m.cursor + 1, hand := some e }) rfl h ha
        exact ⟨fun _ => hfull.free (.inl (by simp)), hfull.pool⟩
    simp only [releaseLoop, Code.wp_bind, Code.wp_op, Code.wp_ite] at hrest ⊢
    refine ⟨fun sh v h _ => ⟨hS sh v h, by simp, by simp⟩, fun evt _ => ⟨fun ht => ?_, fun ht => ?_⟩⟩
    · cases hp : evt.priv with
      | none => exact hrest fun sh v h ha => full_after rfl h ha
      | some b =>
        simp only [Code.wp_bind, Code.wp_op]
        refine ⟨fun sh v h _ => ⟨full_after rfl h, by simp, fun b' hn => ⟨hcall, fun _ => ?_⟩⟩,
          fun pushed _ => hrest fun sh v h ha => full_after rfl h ha⟩
        obtain ⟨sh₀, -, -, -, he⟩ := h
        simp only [Op.exec, Option.some.injEq, Prod.mk.injEq] at he
        obtain ⟨rfl, rfl⟩ := he
        simp [hb, Shared.noneRead, Event.readBuffer, ht, hp]
    · exact hrest fun sh v h ha => full_after rfl h ha

private theorem MainCall.keepsFull (call : MainCall) (hh : m.hand = none) (hS : call = .eventsRelease →
    ∀ sh v, S sh v → m.owed = false → Shared.fullFor sh (m.eventUpdates.take m.eventUpdatesCount) = true) :
    KeepsFull K S call.code m := by
  change KeepsFull K S (call.run >>= endCall call) { m with call := some call, returned := none }
  rw [KeepsFull, Code.wp_bind]
  by_cases hr : call = .eventsRelease
  · subst hr
    simp only [MainCall.run, svlServiceEventsRelease, Code.wp_bind, Code.wp_modify, Code.wp_get]
    refine releaseLoop_full (m := { m with call := some .eventsRelease, returned := none, cursor := 0 }) rfl rfl hh
      (fun sh v h ha => ?_) fun S m' => endCall_full
    have howed : m.owed = false := by simpa [Main.again] using ha
    have hfull := hS rfl sh v h howed
    simp only [Shared.fullFor, Bool.and_eq_true, Bool.or_eq_true, List.isEmpty_iff, decide_eq_true_eq] at hfull
    refine ⟨fun hne => hfull.1.resolve_left fun hnil => ?_, fun hread => hfull.2.resolve_left fun hnone => ?_⟩
    · simp [hh, Main.batch, hnil] at hne
    · simp [Main.batch, hnone] at hread
  -- no other call gives anything back
  by_cases ha : call = .eventsAcquire
  · subst ha
    simp only [MainCall.run, svlServiceEventsAcquire, Code.wp_bind, Code.wp_modify, Code.wp_op]
    refine ⟨fun _ _ _ _ => ⟨by simp [Main.again], by simp, by simp⟩, ?_⟩
    rintro (_ | es) -
    · exact endCall_full
    · exact endCall_full
  · have hk : call.kind ≠ .event := by cases call <;> simp_all [MainCall.kind]
    refine Prog.wp_mono (fun S l r _ => endCall_full)
      (Prog.wp_of_path (R := fun _ _ => True) ?_ (fun _ _ _ _ => trivial) (call.keepsTo.path _) fun _ _ _ => trivial)
    rintro sh l o v ⟨⟨ho, -⟩, hl⟩ - -
    have hcall : l.call = some call := hl.call.1
    refine ⟨by simp [Main.again, hcall, hr], ?_, ?_⟩
    · intro e hn
      obtain rfl : o = .eventFreePush e := Option.some.inj hn
      exact absurd (ho.resolve_right (by simp)).symm hk
    · intro b hn
      obtain rfl : o = .poolReadPush b := Option.some.inj hn
      exact absurd (ho.resolve_right (by simp)).symm hk

end MainFull

private abbrev fullAndRefused : ServiceCond := { fullWhenReleasedAgain with op₂ := refusedTheSecondTime.op₂ }

private theorem allows_of_fullAndRefused {a : Act IoRun MainCall} (ha : fullAndRefused.allows c a = true) :
    refusedTheSecondTime.allows c a = true := by
  cases a with
  | op₂ => exact ha
  | _ => rfl

/-- Where the lists are full when a second release is called, they stay so as long as it has something to push. -/
private theorem releasesFull (h : ReachWhen fullAndRefused n c) : ReleasesFull c.sh c.snd.view := by
  refine Machine.Reach.invariant (K := Standing n) (J := fun sh _ w => ReleasesFull sh w)
    (fun c hc => standing (hc.weaken fun _ _ _ => allows_of_fullAndRefused)) ?_ ?_ ?_ h
  · exact ⟨by simp [Main.again], by simp, by simp⟩
  · rintro d io -
    have hpath : (d.code io).path (fun _ _ _ => True) (fun _ o => o.byIo = true) fun _ _ => True :=
      Code.path_mono (fun _ _ h => h.1.2) (fun _ _ _ => trivial) (d.keepsTo.path io)
    refine Prog.wp_mono (fun S l' _ h sh w hs _ => h.1 sh w hs)
      (Prog.wp_of_path_when (R := fun sh w => ReleasesFull sh w) (fun _ _ hd => hd) ?_ hpath fun sh w h => h.2.1)
    intro sh sh' l o r w hby hK hj hc he
    have hfull := full_byIo hK hj.full hc hby he
    refine ⟨fun ha => (hfull ha).1, hj.free, fun b hn => ⟨(hj.pool b hn).1, fun ha => ?_⟩⟩
    have hread := (hj.pool b hn).2 ha
    have hne : w.loc.batch ≠ [] := fun h => by simp [h, Shared.noneRead] at hread
    rw [Shared.noneRead, (hfull ha).2 hne]
    exact hread
  · rintro call m ⟨sh₀, v₀, hs, -⟩
    refine MainCall.keepsFull call ?_ ?_
    · obtain ⟨sh', w', hst, -⟩ := hs
      exact (hst.idle rfl).1
    · rintro rfl sh v ⟨-, -, -, hcond⟩ ho
      simpa [fullWhenReleasedAgain, ho] using hcond

private theorem allows_refused (h : ReachWhen fullAndRefused n c) {a : Act IoRun MainCall}
    (ha : fullWhenReleasedAgain.allows c a = true) : fullAndRefused.allows c a = true := by
  cases a with
  | op₂ => exact (releasesFull h).refuses (v := c.fst.view)
  | _ => exact ha

/-- The condition on when a second release is called gives the one on its pushes. -/
private theorem reach_refused (h : ReachWhen fullWhenReleasedAgain n c) : ReachWhen fullAndRefused n c := by
  induction h with
  | init => exact .init
  | @step c c' a _ ha hs ih => exact ih.step a (allows_refused ih ha) hs

private theorem run_refused (hc : ReachWhen fullWhenReleasedAgain n c) {as : List (Act IoRun MainCall)}
    (hr : service.runWhen fullWhenReleasedAgain c as = some c') :
    service.runWhen refusedTheSecondTime c as = some c' := by
  induction as generalizing c with
  | nil => exact hr
  | cons a as ih =>
    obtain ⟨ha, hr⟩ := Option.ite_none_right_eq_some.1 hr
    obtain ⟨c₁, hs, hr⟩ := Option.bind_eq_some_iff.1 hr
    have hrefused := allows_of_fullAndRefused (allows_refused (reach_refused hc) ha)
    simp only [Machine.runWhen, hrefused, if_true, hs, Option.bind_some]
    exact ih (hc.step a ha hs) hr

/-! ### The second release on its own -/

private def SameLists (sh₀ sh : Shared) : Prop := sh.eventFree = sh₀.eventFree ∧ sh.poolRead = sh₀.poolRead

private abbrev Leaves (sh₀ : Shared) (code : MainM Unit) (m : Main) (sh : Shared) : Prop :=
  code.ends Op.exec (fun sh sh' => sh' = sh) (fun _ _ => True) (fun sh' _ _ => SameLists sh₀ sh') m sh

private theorem leaves_load {sh₀ : Shared} {e : Nat} {code : Event → MainM Unit} :
    Leaves sh₀ (do
      let evt ← perform (.eventLoad e)
      code evt) m sh ↔ Leaves sh₀ (code (sh.events e)) m sh := by
  simp [Leaves, perform, Op.exec]

private theorem leaves_poolPush {sh₀ : Shared} {b : Nat} {code : MainM Unit} :
    Leaves sh₀ (do
      let _ ← perform (.poolReadPush b)
      code) m sh ↔
    Leaves sh₀ code m (if sh.poolRead.length < sh.bufferCount then { sh with poolRead := sh.poolRead ++ [b] }
      else { sh with refused := .poolRead :: sh.refused }) := by
  simp only [Leaves, perform, Code.ends_bind, Code.ends_op, true_and, forall_eq, Op.exec]
  split <;> simp

private theorem leaves_freePush {sh₀ : Shared} {e : Nat} {code : MainM Unit} :
    Leaves sh₀ (do
      modify fun m => { m with cursor := m.cursor + 1, hand := some e }
      let _ ← perform (.eventFreePush e)
      modify fun m => { m with hand := none }
      code) m sh ↔
    Leaves sh₀ code { m with cursor := m.cursor + 1, hand := none } (if sh.eventFree.length < sh.bufferCount then
      { sh with eventFree := sh.eventFree ++ [e] } else { sh with refused := .eventFree :: sh.refused }) := by
  simp only [Leaves, perform, Code.ends_bind, Code.ends_modify, Code.ends_op, true_and, forall_eq, Op.exec]
  split <;> simp

/-- A release of the events `es` that no step of the IO thread interrupts leaves the two lists as they are just where
they are full for these events. -/
private theorem releaseLoop_leaves {s : Shared} (es : List Nat) (hfree : s.eventFree <+: sh.eventFree)
    (hpool : s.poolRead <+: sh.poolRead) :
    Leaves s (releaseLoop es) m sh ↔ SameLists s sh ∧ sh.fullFor es = true := by
  induction es generalizing m sh with
  | nil => simp [Leaves, releaseLoop, Shared.fullFor, Shared.noneRead]
  | cons e es ih =>
    have hpush : ∀ {m : Main} {sh : Shared}, s.eventFree <+: sh.eventFree → s.poolRead <+: sh.poolRead →
        (Leaves s (do
          modify fun m => { m with cursor := m.cursor + 1, hand := some e }
          let _ ← perform (.eventFreePush e)
          modify fun m => { m with hand := none }
          releaseLoop es) m sh ↔ SameLists s sh ∧ sh.bufferCount ≤ sh.eventFree.length ∧
            (sh.noneRead es = true ∨ sh.bufferCount ≤ sh.poolRead.length)) := by
      intro m sh hfree hpool
      rw [leaves_freePush]
      split
      · rename_i hroom
        refine Iff.trans (ih (hfree.trans (List.prefix_append ..)) hpool) ⟨fun h => ?_, fun h => ?_⟩
        · -- the event is seen at the end of the list
          have hlen := hfree.length_le
          rw [← h.1.1, List.length_append, List.length_singleton] at hlen
          omega
        · exact absurd hroom (Nat.not_lt.2 h.2.1)
      · rename_i hfull
        refine Iff.trans (ih hfree hpool) ?_
        simp [SameLists, Shared.fullFor, Shared.noneRead, Nat.not_lt.1 hfull]
    rw [releaseLoop, leaves_load]
    by_cases ht : (sh.events e).type = .clientRead
    · rw [if_pos ht]
      cases hp : (sh.events e).priv with
      | none =>
        refine (hpush hfree hpool).trans ?_
        simp [Shared.fullFor, Shared.noneRead, Event.readBuffer, hp]
      | some b =>
        dsimp only
        rw [leaves_poolPush]
        split
        · rename_i hroom
          refine Iff.trans (hpush hfree (hpool.trans (List.prefix_append ..))) ⟨fun h => ?_, fun h => ?_⟩
          · have hlen := hpool.length_le
            rw [← h.1.2, List.length_append, List.length_singleton] at hlen
            omega
          · simp [Shared.fullFor, Shared.noneRead, Event.readBuffer, ht, hp, Nat.not_le.2 hroom] at h
        · rename_i hfull
          refine Iff.trans (hpush hfree hpool) ?_
          simp [SameLists, Shared.fullFor, Shared.noneRead, Event.readBuffer, ht, hp, Nat.not_lt.1 hfull]
    · rw [if_neg ht]
      refine (hpush hfree hpool).trans ?_
      simp [Shared.fullFor, Shared.noneRead, Event.readBuffer, ht]

/-- Where the lists are full when a release is called that follows another one, no event and no read buffer is in two
places, and from the end of a release to the next acquire the free list and the pool change by the pops of the IO thread
and by the read buffers that it gives back.  Where they are not full, a second release that no step of the IO thread
interrupts changes them. -/
theorem release_twice (hc : ReachWhen fullWhenReleasedAgain n c) :
    NoneTwice n c.sh c.fst.view.loc c.snd.view.loc ∧
      (c.snd.view.loc.owed = false → ∀ as c', (∀ a ∈ as, a ≠ .run₂ .eventsAcquire) →
        service.runWhen fullWhenReleasedAgain c as = some c' →
          c'.sh.eventFree <:+ c.sh.eventFree ∧ c'.sh.poolRead <:+ c.sh.poolRead ++ returnedByIo c as) ∧
      (c.snd.view.loc.owed = false →
        (MainCall.eventsRelease.code.ends Op.exec (fun sh sh' => sh' = sh) (fun _ _ => True)
            (fun sh' _ _ => sh'.eventFree = c.sh.eventFree ∧ sh'.poolRead = c.sh.poolRead) c.snd.view.loc c.sh ↔
          fullWhenReleasedAgain.allows c (.run₂ .eventsRelease) = true)) := by
  have hrefused := (reach_refused hc).weaken fun _ _ _ => allows_of_fullAndRefused
  refine ⟨(standing hrefused).noneTwice, fun ho _ _ has hr => run_lists hrefused ho has (run_refused hc hr),
    fun ho => ?_⟩
  have hleaves := releaseLoop_leaves (s := c.sh) (m := { c.snd.view.loc with
    call := some .eventsRelease, returned := none, cursor := 0, owed := false })
    (c.snd.view.loc.eventUpdates.take c.snd.view.loc.eventUpdatesCount) (List.prefix_refl c.sh.eventFree)
    (List.prefix_refl c.sh.poolRead)
  simp only [MainCall.code, MainCall.run, svlServiceEventsRelease, Code.ends_bind, Code.ends_modify, Code.ends_get,
    Code.ends_pure, Cond.allows, fullWhenReleasedAgain, ho, Bool.false_or]
  exact hleaves.trans (and_iff_right ⟨rfl, rfl⟩)

/-- Steps that release the `OPEN` event of a client. -/
def releaseOpen : List (Act IoRun MainCall) :=
  .flatten [startUp, [.run₁ (.inbound 0 {}), .op₁, .op₁, .run₂ .eventsAcquire, .op₂, .run₂ .eventsRelease, .op₂, .op₂]]

/-- Steps that release the `OPEN` event of a client and its first `READ` event. -/
private def releaseRead : List (Act IoRun MainCall) :=
  .flatten [startUp, [.run₁ (.inbound 0 {}), .op₁, .op₁, .run₁ (.read 5 (.data [1, 2, 3]))], .replicate 7 .op₁,
    [.run₂ .eventsAcquire, .op₂, .run₂ .eventsRelease], .replicate 5 .op₂]

/-- The two events are released a second time, and then the IO thread takes one of them for the next `READ` event. -/
private def releaseReadAgain : List (Act IoRun MainCall) :=
  .flatten [.run₂ .eventsRelease :: .replicate 5 .op₂, .run₁ (.read 5 (.data [4])) :: .replicate 7 .op₁]

/-- Both lists are full again when the `OPEN` event and the `READ` event are released a second time. -/
theorem release_twice_idle : ∃ c c', ReachWhen fullWhenReleasedAgain 1 c ∧ c.snd.view.loc.owed = false ∧
    (c.sh.eventFree = [2, 3, 0, 1] ∧ c.sh.poolRead = [1, 2, 3, 0]) ∧
    service.runWhen fullWhenReleasedAgain c releaseReadAgain = some c' ∧
    NoneTwice 1 c.sh c.fst.view.loc c.snd.view.loc ∧ c'.sh.eventFree <:+ [2, 3, 0, 1] := by
  obtain ⟨c, hc, ⟨ho, hfree, hpool⟩, hrun⟩ := exists_reachWhen fullWhenReleasedAgain 1 releaseRead
    (fun c => (c.snd.view.loc.owed = false ∧ c.sh.eventFree = [2, 3, 0, 1] ∧ c.sh.poolRead = [1, 2, 3, 0]) ∧
      (service.runWhen fullWhenReleasedAgain c releaseReadAgain).isSome = true)
    (by decide +kernel)
  obtain ⟨c', hrun⟩ := Option.isSome_iff_exists.1 hrun
  obtain ⟨htwice, hlists, -⟩ := release_twice hc
  refine ⟨c, c', hc, ho, ⟨hfree, hpool⟩, hrun, htwice, hfree ▸ (hlists ho _ c' ?_ hrun).1⟩
  simp [releaseReadAgain]

/-- The IO thread has taken one event since the release: the second release of the `OPEN` event pushes it once more. -/
theorem release_twice_reused : ∃ c c', Reach 1 c ∧ c.snd.view.loc.owed = false ∧ c.sh.eventFree = [2, 3, 0] ∧
    service.run c ([.run₂ .eventsRelease, .op₂, .op₂] : List (Act IoRun MainCall)) = some c' ∧
    c'.sh.eventFree = [2, 3, 0, 0] ∧ ¬ NoneTwice 1 c'.sh c'.fst.view.loc c'.snd.view.loc := by
  obtain ⟨c, hc, ⟨ho, hfree⟩, hrun⟩ := exists_reachWhen .any 1
    (.flatten [releaseOpen, [.run₁ (.read 5 (.data [1, 2, 3]))], .replicate 7 .op₁])
    (fun c => (c.snd.view.loc.owed = false ∧ c.sh.eventFree = [2, 3, 0]) ∧
      (service.run c ([.run₂ .eventsRelease, .op₂, .op₂] : List (Act IoRun MainCall))).any (fun c' =>
        decide (c'.sh.eventFree = [2, 3, 0, 0])) = true)
    (by decide +kernel)
  obtain ⟨c', hrun, hfree'⟩ := (Option.any_eq_true _ _).1 hrun
  replace hfree' := of_decide_eq_true hfree'
  refine ⟨c, c', hc, ho, hfree, hrun, hfree', fun htwice => ?_⟩
  have hnd := htwice.events
  rw [hfree'] at hnd
  simp at hnd

end ServerLynx
