import ServerLynx.Slots
import ServerLynx.EventProtocol
import Mathlib.Data.List.Nodup

/-!
# The invariant of the IO thread

`IoInv` is what holds of the private state of the IO thread whenever it is about to perform an operation, and
between two callbacks; `Settled` is what holds between two callbacks only.  Three parts of `IoInv` hold in the runs
that meet a condition of `Premises` and carry it as a hypothesis: that no link is lost (`covered`), that events come
in turn (`inTurn`), and that the thread never uses a value it has not assigned (`defined`).

While a callback is setting up or using a connection the state is `Busy`, while it closes one it is `Closing`.  The
lemmas about these two are the moves that the callbacks are made of.
-/

namespace ServerLynx

/-! ### The parts of the invariant -/

/-- The pointers of `svl_service_priv_t` to the handles of the loop itself. -/
def Io.loopPtrs (io : Io) : List (Option Nat) :=
  [io.tcpHandle, io.uvAcceptTimer, io.uvPrep, io.uvCheck, io.uvSignal]

/-- The handles of the loop are no client handles. -/
def LoopHandles (ptrs : List (Option Nat)) (handles : Nat → Handle) (count : Nat) : Prop :=
  ∀ h, some h ∈ ptrs → h < count ∧ (handles h).kind ≠ .tcpClient

/-- The write requests: inside `uv_run` each of the `count` requests is in `send_req_list` or with libuv. -/
structure Sends (count : Nat) (phase : IoPhase) (list : ListPtr) (writes : List Nat) (sendReqs : Nat → WriteReq)
    (refused : Nat) : Prop where
  refused : refused = 0
  running : phase = .running → list.cap = count ∧ (list.items ++ writes).Perm (List.range count)
  off : phase = .off → writes = []
  links : ∀ r ∈ writes, (sendReqs r).svlLink ≠ none

/-- No event came out of turn; a free link is not announced, and a link that a handle holds is announced if the
`OPEN` of that handle was pushed. -/
def InTurn (n : Nat) (list : LinkList) (handles : Nat → Handle) (pushed : List Pushed) : Prop :=
  ∀ i < n, ∃ b, announced pushed i = some b ∧ (i ∈ list.clientListFree.items → b = false) ∧
    ∀ h, (handles h).Holds i → (b = true ↔ WasOpened pushed h)

theorem LoopHandles.of_mem {ptrs ptrs' : List (Option Nat)} {handles : Nat → Handle} {count : Nat}
    (hl : LoopHandles ptrs handles count)
    (h : ∀ h, some h ∈ ptrs' → some h ∈ ptrs ∨ (h < count ∧ (handles h).kind ≠ .tcpClient)) :
    LoopHandles ptrs' handles count :=
  fun h' hm => (h h' hm).elim (hl h') id

/-- Conditions on a run that parts of the invariant depend on: `on_close_link_cb` always finds an event; only announced
connections get a `CLOSE` event, and pushed events find room; no connect completes with a negative status. -/
structure Premises where
  noLeak : Prop
  inTurn : Prop
  noFail : Prop

structure IoInv (n : Nat) (E : Premises) (io : Io) : Prop where
  count : io.bufferCount = n * 4 % 2 ^ 64
  slots : io.Slots n
  loop : LoopHandles io.loopPtrs io.handles io.handleCount
  sends : Sends io.bufferCount io.phase io.sendReqList io.writes io.sendReqs io.refused
  given : ∀ p ∈ io.pushed, p.evt.type = .clientOpen → (io.handles p.conn).Given p.evt.clientId
  readOpened : ∀ h, (io.handles h).reading = true → WasOpened io.pushed h
  pendingNew : ∀ q h, (io.connectReqs q).pending = true → (io.connectReqs q).handle = some h →
    ¬ WasOpened io.pushed h
  covered : E.noLeak → ∀ i < n, i ∈ io.linkList.clientListFree.items ∨ ∃ h, (io.handles h).Holds i
  inTurn : E.inTurn → InTurn n io.linkList io.handles io.pushed
  defined : E.noFail → io.phase ≠ .undefined

/-- Between two callbacks, a handle that holds a link waits for a callback; outside `uv_run` there is none. -/
structure Settled (io : Io) : Prop where
  running : io.phase = .running → ∀ h i, (io.handles h).Holds i → (io.handles h).Live io.loop
  off : io.phase = .off → ∀ h i, ¬ (io.handles h).Holds i

theorem LoopHandles.update {ptrs : List (Option Nat)} {handles : Nat → Handle} {count count' h : Nat} {x : Handle}
    (hl : LoopHandles ptrs handles count) (hx : h < count → x.kind = (handles h).kind) (hc : count ≤ count') :
    LoopHandles ptrs (Function.update handles h x) count' := by
  intro h' hm
  obtain ⟨hlt, hk⟩ := hl h' hm
  refine ⟨by omega, ?_⟩
  rcases eq_or_ne h' h with rfl | hne
  · rwa [Function.update_self, hx hlt]
  · rwa [Function.update_of_ne hne]

namespace Sends

variable {count r : Nat} {phase : IoPhase} {list list' : ListPtr} {writes : List Nat} {sendReqs : Nat → WriteReq}
  {refused : Nat}

/-- There is room in `send_req_list` for a request that is with libuv or was just taken from the list. -/
private theorem room {l : List Nat} (h : (list.items ++ r :: l).Perm (List.range count)) (hc : list.cap = count) :
    ∃ list', list.pushBack r = some list' ∧ list'.items = r :: list.items ∧ list'.cap = count := by
  have hlen := h.length_eq
  simp only [List.length_append, List.length_cons, List.length_range] at hlen
  exact ⟨_, ListPtr.pushBack_eq_some.2 ⟨by omega, rfl⟩, rfl, hc⟩

/-- A request is taken from the list and given to libuv. -/
theorem take (hs : Sends count phase list writes sendReqs refused) (hp : phase = .running)
    (hl : list.popBack = some (r, list')) {w : WriteReq} (hw : w.svlLink ≠ none) :
    Sends count phase list' (r :: writes) (Function.update sendReqs r w) refused := by
  obtain ⟨hitems, hcap⟩ := ListPtr.popBack_eq_some.1 hl
  obtain ⟨hc, hperm⟩ := hs.running hp
  refine ⟨hs.refused, fun _ => ⟨hcap.trans hc, ?_⟩, fun ho => absurd (hp.symm.trans ho) (by simp), ?_⟩
  · rw [hitems] at hperm
    exact List.perm_middle.trans hperm
  · intro r' hr'
    rcases eq_or_ne r' r with rfl | hne
    · rwa [Function.update_self]
    · rw [Function.update_of_ne hne]
      exact hs.links r' ((List.mem_cons.1 hr').resolve_left hne)

/-- A request is taken from the list and put back at once. -/
theorem putBack (hs : Sends count phase list writes sendReqs refused) (hp : phase = .running)
    (hl : list.popBack = some (r, list')) {w : WriteReq} (hw : w.svlLink ≠ none) :
    ∃ list'', list'.pushBack r = some list'' ∧
      Sends count phase list'' writes (Function.update sendReqs r w) refused := by
  have ht := hs.take hp hl hw
  obtain ⟨hc, hperm⟩ := ht.running hp
  obtain ⟨list'', hpush, hitems, hcap⟩ := room hperm hc
  refine ⟨list'', hpush, hs.refused, fun _ => ⟨hcap, ?_⟩, hs.off, fun r' hr' => ht.links r' ?_⟩
  · rw [hitems]
    exact List.perm_middle.symm.trans hperm
  · exact List.mem_cons_of_mem _ hr'

/-- A request comes back from libuv. -/
theorem done (hs : Sends count phase list writes sendReqs refused) (hp : phase = .running) (hr : r ∈ writes) :
    ∃ list', list.pushBack r = some list' ∧ Sends count phase list' (writes.erase r) sendReqs refused := by
  obtain ⟨hc, hperm⟩ := hs.running hp
  have hperm' := (List.Perm.append_left list.items (List.perm_cons_erase hr)).symm.trans hperm
  obtain ⟨list', hpush, hitems, hcap⟩ := room hperm' hc
  refine ⟨list', hpush, hs.refused, fun _ => ⟨hcap, ?_⟩, fun ho => absurd (hp.symm.trans ho) (by simp), ?_⟩
  · rw [hitems]
    exact List.perm_middle.symm.trans hperm'
  · exact fun r' hr' => hs.links r' (List.mem_of_mem_erase hr')

end Sends

/-- The invariant holds at first. -/
theorem ioInv_setup (n : Nat) (E : Premises) : IoInv n E (.setup n) ∧ Settled (.setup n) := by
  have hno : ∀ h i, ¬ ((Io.setup n).handles h).Holds i := fun h i hh => Handle.not_given_of_data rfl i hh.1
  have hfree : ∀ i < n, i ∈ (Io.setup n).linkList.clientListFree.items := by
    intro i hi
    simpa [Io.setup] using hi
  refine ⟨⟨rfl, ?_, ?_, ?_, ?_, ?_, ?_, ?_, ?_, by simp [Io.setup]⟩, ⟨fun h => absurd h (by simp [Io.setup]),
    fun _ => hno⟩⟩
  · constructor
    · rfl
    · rfl
    · intro i hi
      simp [Io.setup, hi]
    · exact List.nodup_reverse.2 List.nodup_range
    · intro i hi
      simpa [Io.setup] using hi
    · intro i _
      simp only [Io.setup]
      split <;> rfl
    · intro i hi
      simp [linkTurn, Io.setup, hi]
    · intro _ _
      rfl
    · intro h i hh
      exact absurd hh (hno h i)
    · intro i hi hst
      simp [Io.setup, hi] at hst
    · intro h hr
      exact absurd hr (by simp [Io.setup])
    · intro q hq
      exact absurd hq (by simp [Io.setup])
    · intro q _ hq
      exact absurd hq (by simp [Io.setup])
    · intro h hc
      exact absurd hc (by simp [Io.setup])
    · intro h
      rfl
  · intro h hm
    simp [Io.loopPtrs, Io.setup] at hm
  · exact ⟨rfl, fun h => absurd h (by simp [Io.setup]), fun _ => rfl, fun r hr => absurd hr (by simp [Io.setup])⟩
  · intro p hp
    exact absurd hp (by simp [Io.setup])
  · intro h hr
    exact absurd hr (by simp [Io.setup])
  · intro q h hq
    exact absurd hq (by simp [Io.setup])
  · intro _ i hi
    exact .inl (hfree i hi)
  · intro _ i hi
    exact ⟨false, rfl, fun _ => rfl, fun h hh => absurd hh (hno h i)⟩

section Moves

variable {n : Nat} {E : Premises} {io : Io}

/-! ### Moves that involve no link -/

namespace IoInv

/-- No `OPEN` was pushed about a handle that was given no link. -/
theorem not_wasOpened (hi : IoInv n E io) {h : Nat} (ho : ∀ i, ¬ (io.handles h).Given i) :
    ¬ WasOpened io.pushed h := by
  rintro ⟨p, hp, rfl, ht⟩
  exact ho _ (hi.given p hp ht)

/-- A handle that was given no link is replaced by one that was given none. -/
theorem setUngiven (hi : IoInv n E io) {h count' : Nat} {x : Handle}
    (ho : ∀ i, ¬ (io.handles h).Given i) (hx : ∀ i, ¬ x.Given i) (hr : x.reading = false)
    (hcb : x.closing = some .link → x.closed = true) (hc : x.closes = if x.closing = none then 0 else 1)
    (hk : h < io.handleCount → x.kind = (io.handles h).kind) (hlt : h < count') (hle : io.handleCount ≤ count') :
    IoInv n E
      { io with handles := Function.update io.handles h x, handleCount := count' } := by
  have hold : ∀ h' i, (Function.update io.handles h x h').Holds i ↔ (io.handles h').Holds i := by
    intro h' i
    rcases eq_or_ne h' h with rfl | hne
    · rw [Function.update_self]
      exact ⟨fun hh => absurd hh.1 (hx i), fun hh => absurd hh.1 (ho i)⟩
    · rw [Function.update_of_ne hne]
  refine { hi with
    slots := hi.slots.setIdle (fun i hh => ho i hh.1) (fun i hh => hx i hh.1) hr hcb hc hlt hle
    loop := hi.loop.update hk hle
    given := ?_, readOpened := ?_, covered := ?_, inTurn := ?_ }
  · intro p hp ht
    have hg := hi.given p hp ht
    have hne : p.conn ≠ h := by
      rintro rfl
      exact ho _ hg
    rwa [← Function.update_of_ne hne x io.handles] at hg
  · intro h' hr'
    dsimp only at hr'
    rcases eq_or_ne h' h with rfl | hne
    · rw [Function.update_self, hr] at hr'
      exact absurd hr' (by simp)
    · rw [Function.update_of_ne hne] at hr'
      exact hi.readOpened h' hr'
  · intro hE i hin
    rcases hi.covered hE i hin with h₁ | ⟨h', hh⟩
    · exact .inl h₁
    · exact .inr ⟨h', (hold h' i).2 hh⟩
  · intro hE i hin
    obtain ⟨b, h₁, h₂, h₃⟩ := hi.inTurn hE i hin
    exact ⟨b, h₁, h₂, fun h' hh => h₃ h' ((hold h' i).1 hh)⟩

/-- `TN_MEM_ACQUIRE` of a handle keeps the invariant. -/
theorem acquireHandle (hi : IoInv n E io) (kind : HandleKind) :
    IoInv n E (io.acquireHandle kind) := by
  have hfresh := hi.slots.fresh io.handleCount (Nat.le_refl _)
  refine hi.setUngiven ?_ (Handle.not_given_of_data rfl) rfl ?_ rfl ?_ (Nat.lt_succ_self _) (Nat.le_succ _)
  · rw [hfresh]
    exact Handle.not_given_of_data rfl
  · simp
  · intro hlt
    exact absurd hlt (Nat.lt_irrefl _)

/-- The connect requests change, but those that are pending were pending and are as they were. -/
theorem setReqs (hi : IoInv n E io) {reqs : Nat → ConnectReq}
    (h : ∀ q, (reqs q).pending = true → reqs q = io.connectReqs q) :
    IoInv n E { io with connectReqs := reqs } := by
  refine { hi with slots := hi.slots.setReqs h, pendingNew := ?_ }
  intro q h' hq hh
  have he := h q hq
  dsimp only at hq hh
  rw [he] at hq hh
  exact hi.pendingNew q h' hq hh

/-- A handle is replaced by one that holds the same link. -/
theorem setHolder (hi : IoInv n E io) {h : Nat} {x : Handle}
    (hs : ServerLynx.Slots n io.linkList (Function.update io.handles h x) io.handleCount io.connectReqs io.linkLog)
    (hx : ∀ i, x.Holds i ↔ (io.handles h).Holds i) (hg : ∀ i, (io.handles h).Given i → x.Given i)
    (hk : x.kind = (io.handles h).kind) (hr : x.reading = true → WasOpened io.pushed h) :
    IoInv n E { io with handles := Function.update io.handles h x } := by
  have hold : ∀ h' i, (Function.update io.handles h x h').Holds i ↔ (io.handles h').Holds i := by
    intro h' i
    rcases eq_or_ne h' h with rfl | hne
    · rw [Function.update_self]
      exact hx i
    · rw [Function.update_of_ne hne]
  refine { hi with
    slots := hs
    loop := hi.loop.update (fun _ => hk) (Nat.le_refl _)
    given := ?_, readOpened := ?_, covered := ?_, inTurn := ?_ }
  · intro p hp ht
    dsimp only
    rcases eq_or_ne p.conn h with he | hne
    · rw [he, Function.update_self]
      exact hg _ (he ▸ hi.given p hp ht)
    · rw [Function.update_of_ne hne]
      exact hi.given p hp ht
  · intro h' hr'
    dsimp only at hr'
    rcases eq_or_ne h' h with rfl | hne
    · rw [Function.update_self] at hr'
      exact hr hr'
    · rw [Function.update_of_ne hne] at hr'
      exact hi.readOpened h' hr'
  · intro hE i hin
    rcases hi.covered hE i hin with h₁ | ⟨h', hh⟩
    · exact .inl h₁
    · exact .inr ⟨h', (hold h' i).2 hh⟩
  · intro hE i hin
    obtain ⟨b, h₁, h₂, h₃⟩ := hi.inTurn hE i hin
    exact ⟨b, h₁, h₂, fun h' hh => h₃ h' ((hold h' i).1 hh)⟩

/-- A handle changes in `started`, `closed` or `connecting` only. -/
theorem setSame (hi : IoInv n E io) {h : Nat} {x : Handle} (hlt : h < io.handleCount)
    (hx : ∀ i, x.Holds i ↔ (io.handles h).Holds i) (hg : ∀ i, (io.handles h).Given i → x.Given i)
    (hk : x.kind = (io.handles h).kind) (hcl : x.closing = (io.handles h).closing)
    (hcs : x.closes = (io.handles h).closes) (hr : x.reading = (io.handles h).reading)
    (hd : x.closed = false → (io.handles h).closed = false)
    (hp : ∀ q, (io.connectReqs q).pending = true → (io.connectReqs q).handle = some h → x.connecting = true) :
    IoInv n E { io with handles := Function.update io.handles h x } := by
  refine hi.setHolder (hi.slots.setSame hlt hx hcl hcs ?_ hd hp) hx hg hk fun h' => hi.readOpened h (hr ▸ h')
  intro hr'
  obtain ⟨i, hh, hn⟩ := hi.slots.reading h (hr ▸ hr')
  exact ⟨i, (hx i).2 hh, hcl.trans hn⟩

end IoInv

/-- The command that closed a connection is noted. -/
theorem IoInv.setCloseCmd (hi : IoInv n E io) (hs : Settled io) {h : Nat} (hlt : h < io.handleCount)
    (cmd : Option Cmd) : IoInv n E (io.setHandle h fun x => { x with closeCmd := cmd }) ∧
      Settled (io.setHandle h fun x => { x with closeCmd := cmd }) := by
  refine ⟨hi.setSame hlt (fun _ => Iff.rfl) (fun _ hg => hg) rfl rfl rfl rfl (fun hd => hd) ?_, ?_, ?_⟩
  · intro q hq hh
    obtain ⟨-, -, h', -, hh', -, -, hc, -⟩ := hi.slots.pending q hq
    obtain rfl : h' = h := Option.some.inj (hh'.symm.trans hh)
    exact hc
  · intro hp h' i hh
    simp only [Io.setHandle] at hh ⊢
    rcases eq_or_ne h' h with rfl | hne
    · rw [Function.update_self] at hh ⊢
      exact hs.running hp h' i hh
    · rw [Function.update_of_ne hne] at hh ⊢
      exact hs.running hp h' i hh
  · intro hp h' i hh
    simp only [Io.setHandle] at hh
    rcases eq_or_ne h' h with rfl | hne
    · rw [Function.update_self] at hh
      exact hs.off hp h' i hh
    · rw [Function.update_of_ne hne] at hh
      exact hs.off hp h' i hh

/-- A handle lets go of the link `i`, which may go back to the free list; what is pushed meanwhile is a `CLOSE`. -/
theorem IoInv.drop (hi : IoInv n E io) {h i : Nat} {x : Handle} {list : LinkList} {log : List LinkOp}
    {pushed : List Pushed} (hh : (io.handles h).Holds i)
    (hs : ServerLynx.Slots n list (Function.update io.handles h x) io.handleCount io.connectReqs log)
    (hx : ∀ j, ¬ x.Holds j) (hk : x.kind = (io.handles h).kind)
    (hg : WasOpened io.pushed h → ∀ j, (io.handles h).Given j → x.Given j) (hr : x.reading = false)
    (hfree : ∀ j ∈ io.linkList.clientListFree.items, j ∈ list.clientListFree.items)
    (hfree' : ∀ j ∈ list.clientListFree.items, j ∈ io.linkList.clientListFree.items ∨ j = i)
    (hleak : E.noLeak → i ∈ list.clientListFree.items)
    (hopen : ∀ p, p.evt.type = .clientOpen → (p ∈ pushed ↔ p ∈ io.pushed))
    (hturn : E.inTurn → ∃ b, announced pushed i = some b ∧ (i ∈ list.clientListFree.items → b = false))
    (hother : ∀ j, j ≠ i → announced pushed j = announced io.pushed j) :
    IoInv n E { io with
      linkList := list, handles := Function.update io.handles h x, linkLog := log, pushed := pushed } := by
  have hop : ∀ h', WasOpened pushed h' ↔ WasOpened io.pushed h' := by
    intro h'
    constructor
    · rintro ⟨p, hp, hc, ht⟩
      exact ⟨p, (hopen p ht).1 hp, hc, ht⟩
    · rintro ⟨p, hp, hc, ht⟩
      exact ⟨p, (hopen p ht).2 hp, hc, ht⟩
  have hold : ∀ h' j, (Function.update io.handles h x h').Holds j → h' ≠ h ∧ (io.handles h').Holds j := by
    intro h' j hh'
    rcases eq_or_ne h' h with rfl | hne
    · rw [Function.update_self] at hh'
      exact absurd hh' (hx j)
    · rw [Function.update_of_ne hne] at hh'
      exact ⟨hne, hh'⟩
  have hkeep : ∀ h' j, j ≠ i → (io.handles h').Holds j → (Function.update io.handles h x h').Holds j := by
    intro h' j hj hh'
    have hne : h' ≠ h := by
      rintro rfl
      exact hj (hh'.inj hh)
    rwa [Function.update_of_ne hne]
  refine { hi with
    slots := hs
    loop := hi.loop.update (fun _ => hk) (Nat.le_refl _)
    given := ?_, readOpened := ?_, pendingNew := ?_, covered := ?_, inTurn := ?_ }
  · intro p hp ht
    have hp' := (hopen p ht).1 hp
    dsimp only
    rcases eq_or_ne p.conn h with he | hne
    · rw [he, Function.update_self]
      exact hg ⟨p, hp', he, ht⟩ _ (he ▸ hi.given p hp' ht)
    · rw [Function.update_of_ne hne]
      exact hi.given p hp' ht
  · intro h' hr'
    dsimp only at hr'
    rcases eq_or_ne h' h with rfl | hne
    · rw [Function.update_self, hr] at hr'
      exact absurd hr' (by simp)
    · rw [Function.update_of_ne hne] at hr'
      exact (hop h').2 (hi.readOpened h' hr')
  · intro q h' hq hh' hop'
    exact hi.pendingNew q h' hq hh' ((hop h').1 hop')
  · intro hE j hj
    rcases eq_or_ne j i with rfl | hne
    · exact .inl (hleak hE)
    · rcases hi.covered hE j hj with h₁ | ⟨h', hh'⟩
      · exact .inl (hfree j h₁)
      · exact .inr ⟨h', hkeep h' j hne hh'⟩
  · intro hE j hj
    dsimp only
    rcases eq_or_ne j i with rfl | hne
    · obtain ⟨b, h₁, h₂⟩ := hturn hE
      refine ⟨b, h₁, h₂, fun h' hh' => ?_⟩
      obtain ⟨hne, hh'⟩ := hold h' j hh'
      exact absurd (hi.slots.holder_unique hh' hh) hne
    · obtain ⟨b, h₁, h₂, h₃⟩ := hi.inTurn hE j hj
      refine ⟨b, (hother j hne).trans h₁, ?_, ?_⟩
      · intro hf
        exact h₂ ((hfree' j hf).resolve_right hne)
      · intro h' hh'
        exact (h₃ h' (hold h' j hh').2).trans (hop h').symm

/-- A handle that holds no link is replaced by one that holds none. -/
theorem Settled.setUnheld (hs : Settled io) {h count' : Nat} {x : Handle} (hx : ∀ i, ¬ x.Holds i) :
    Settled { io with handles := Function.update io.handles h x, handleCount := count' } := by
  constructor
  · intro hp h' i hh
    dsimp only at hh ⊢
    rcases eq_or_ne h' h with rfl | hne
    · rw [Function.update_self] at hh
      exact absurd hh (hx i)
    · rw [Function.update_of_ne hne] at hh ⊢
      exact hs.running hp h' i hh
  · intro hp h' i hh
    dsimp only at hh
    rcases eq_or_ne h' h with rfl | hne
    · rw [Function.update_self] at hh
      exact hx i hh
    · rw [Function.update_of_ne hne] at hh
      exact hs.off hp h' i hh

/-! ### A callback at work on a connection -/

/-- Inside a callback: the handle `h` holds the link `i` and is not closing. -/
structure Busy (n : Nat) (E : Premises) (io : Io) (h i : Nat) : Prop where
  inv : IoInv n E io
  running : io.phase = .running
  holds : (io.handles h).Holds i
  closing : (io.handles h).closing = none
  closed : (io.handles h).closed = false
  loop : (io.handles h).loop = io.loop
  idle : ∀ q, (io.connectReqs q).pending = true → (io.connectReqs q).handle ≠ some h
  others : ∀ h' j, h' ≠ h → (io.handles h').Holds j → (io.handles h').Live io.loop

namespace Busy

variable {h i : Nat}

theorem link (hb : Busy n E io h i) :
    i < n ∧ i ∉ io.linkList.clientListFree.items ∧ (io.link i).priv = some h :=
  hb.inv.slots.holds h i hb.holds

/-- The events about the link carry its number. -/
theorem link_id (hb : Busy n E io h i) : (io.link i).id = i := hb.inv.slots.ids i hb.link.1

/-- Nobody waits for a connect on the link. -/
theorem no_request (hb : Busy n E io h i) {q : Nat} (hq : (io.connectReqs q).pending = true) :
    (io.connectReqs q).data ≠ some i := by
  intro hd
  obtain ⟨-, j, h', hj, hh, hh', -⟩ := hb.inv.slots.pending q hq
  obtain rfl : j = i := Option.some.inj (hj.symm.trans hd)
  exact hb.idle q hq (hb.inv.slots.holder_unique hh' hb.holds ▸ hh)

/-- The link record changes, but neither its id nor its `priv`. -/
theorem setLink (hb : Busy n E io h i) {f : Link → Link} (hid : (f (io.link i)).id = (io.link i).id)
    (hpriv : (f (io.link i)).priv = (io.link i).priv) : Busy n E (io.setLink i f) h i := by
  refine { hb with inv := { hb.inv with slots := hb.inv.slots.setLink hid hpriv ?_ ?_ ?_ } }
  · intro hf
    exact absurd hf hb.link.2.1
  · intro _
    exact ⟨h, hb.link.2.2, hb.holds, hb.closing⟩
  · intro q hq hd
    exact absurd hd (hb.no_request hq)

theorem setHand (hb : Busy n E io h i) (e : Option Nat) :
    Busy n E { io with hand := e } h i :=
  { hb with inv := { hb.inv with count := hb.inv.count } }

theorem setReceived (hb : Busy n E io h i) (received : Nat → List UInt8) :
    Busy n E { io with received := received } h i :=
  { hb with inv := { hb.inv with count := hb.inv.count } }

/-- A connect request that is not pending may be released. -/
theorem releaseReq (hb : Busy n E io h i) {q : Nat} (hq : (io.connectReqs q).pending = false) :
    Busy n E (io.releaseConnectReq q) h i := by
  have hsame : ∀ q', ((io.releaseConnectReq q).connectReqs q').pending = true →
      (io.releaseConnectReq q).connectReqs q' = io.connectReqs q' := by
    intro q' hq'
    rcases eq_or_ne q' q with rfl | hne
    · simp [Io.releaseConnectReq, Io.setConnectReq, hq] at hq'
    · simp [Io.releaseConnectReq, Io.setConnectReq, Function.update_of_ne hne]
  refine { hb with inv := hb.inv.setReqs hsame, idle := ?_ }
  intro q' hq'
  have he := hsame q' hq'
  rw [he] at hq' ⊢
  exact hb.idle q' hq'

/-- A callback that leaves the connection active may end. -/
theorem settled (hb : Busy n E io h i) (ha : (io.handles h).isActive = true) : Settled io where
  running _ h' j hh := by
    rcases eq_or_ne h' h with rfl | hne
    · exact ⟨hb.closed, hb.loop, .inl ha⟩
    · exact hb.others h' j hne hh
  off hp := absurd (hb.running.symm.trans hp) (by simp)

/-- The `OPEN` of the connection is pushed, the first about its handle. -/
theorem pushOpen (hb : Busy n E io h i) (evt : Event) (ht : evt.type = .clientOpen)
    (hc : evt.clientId = i) (hno : ¬ WasOpened io.pushed h) :
    Busy n E { io with hand := none, pushed := io.pushed ++ [⟨evt, h⟩] } h i := by
  refine { hb with inv := { hb.inv with given := ?_, readOpened := ?_, pendingNew := ?_, inTurn := ?_ } }
  · intro p hp hpt
    rcases List.mem_append.1 hp with hp | hp
    · exact hb.inv.given p hp hpt
    · rw [List.mem_singleton.1 hp]
      exact hc ▸ hb.holds.1
  · intro h' hr
    exact wasOpened_append.2 (.inl (hb.inv.readOpened h' hr))
  · intro q h' hq hh hop
    rcases wasOpened_append.1 hop with hop | ⟨rfl, -⟩
    · exact hb.inv.pendingNew q h' hq hh hop
    · exact hb.idle q hq hh
  · intro hE j hj
    obtain ⟨b, h₁, h₂, h₃⟩ := hb.inv.inTurn hE j hj
    dsimp only
    rcases eq_or_ne j i with rfl | hne
    · have hbf : b = false := by
        rw [Bool.eq_false_iff]
        exact fun hbt => hno ((h₃ h hb.holds).1 hbt)
      refine ⟨true, ?_, fun hf => absurd hf hb.link.2.1, ?_⟩
      · subst hc
        rw [announced_append_self, h₁, ht, hbf]
        rfl
      · intro h' hh
        rw [hb.inv.slots.holder_unique hh hb.holds, wasOpened_append]
        simp [ht]
    · refine ⟨b, by rw [announced_append_ne (by simpa [hc] using hne.symm), h₁], h₂, ?_⟩
      intro h' hh
      have hne' : h ≠ h' := by
        rintro rfl
        exact hne (hh.inj hb.holds)
      rw [h₃ h' hh, wasOpened_append]
      simp [hne']

/-- A `READ` of a connection whose `OPEN` was pushed. -/
theorem pushRead (hb : Busy n E io h i) (evt : Event) (ht : evt.type = .clientRead)
    (hc : evt.clientId = i) (hop : WasOpened io.pushed h) :
    Busy n E { io with hand := none, pushed := io.pushed ++ [⟨evt, h⟩] } h i := by
  have hsame : ∀ h', WasOpened (io.pushed ++ [⟨evt, h⟩]) h' ↔ WasOpened io.pushed h' := by
    intro h'
    rw [wasOpened_append]
    simp [ht]
  refine { hb with inv := { hb.inv with given := ?_, readOpened := ?_, pendingNew := ?_, inTurn := ?_ } }
  · intro p hp hpt
    rcases List.mem_append.1 hp with hp | hp
    · exact hb.inv.given p hp hpt
    · rw [List.mem_singleton.1 hp, ht] at hpt
      exact absurd hpt (by simp)
  · intro h' hr
    exact (hsame h').2 (hb.inv.readOpened h' hr)
  · intro q h' hq hh hop
    exact hb.inv.pendingNew q h' hq hh ((hsame h').1 hop)
  · intro hE j hj
    obtain ⟨b, h₁, h₂, h₃⟩ := hb.inv.inTurn hE j hj
    refine ⟨b, ?_, h₂, fun h' hh => (h₃ h' hh).trans (hsame h').symm⟩
    rcases eq_or_ne j i with rfl | hne
    · have hbt := (h₃ h hb.holds).2 hop
      subst hc
      rw [announced_append_self, h₁, ht, hbt]
      rfl
    · rw [announced_append_ne (by simpa [hc] using hne.symm), h₁]

/-- A callback that leaves the handle waiting for a callback may end. -/
theorem settle (hb : Busy n E io h i) {x : Handle} (hx : x.Live io.loop) :
    Settled { io with handles := Function.update io.handles h x } := by
  constructor
  · intro _ h' j hh
    dsimp only at hh ⊢
    rcases eq_or_ne h' h with rfl | hne
    · rwa [Function.update_self]
    · rw [Function.update_of_ne hne] at hh ⊢
      exact hb.others h' j hne hh
  · intro hp
    exact absurd (hb.running.symm.trans hp) (by simp)

/-- `uv_read_start` may be called on an announced connection. -/
theorem readStart (hb : Busy n E io h i) (hop : WasOpened io.pushed h) :
    IoInv n E (io.uvReadStart h) ∧ Settled (io.uvReadStart h) := by
  refine ⟨hb.inv.setHolder ?_ (fun _ => Iff.rfl) (fun _ hg => hg) rfl fun _ => hop, hb.settle ?_⟩
  · refine hb.inv.slots.setSame (hb.inv.slots.lt_count hb.holds) (fun _ => Iff.rfl) rfl rfl ?_ (fun h => h) ?_
    · exact fun _ => ⟨i, hb.holds, hb.closing⟩
    · exact fun q hq hh => absurd hh (hb.idle q hq)
  · exact ⟨hb.closed, hb.loop, .inl (by simp [Handle.isActive])⟩

/-- `uv_close` with `on_close_link_cb` may be called once the link is `SVL_LINK_CLOSING`. -/
theorem close (hb : Busy n E io h i) (hst : (io.link i).state = .closing) :
    IoInv n E (io.uvClose h .link) ∧ Settled (io.uvClose h .link) := by
  refine ⟨hb.inv.setHolder (hb.inv.slots.setClosing hb.holds hb.closing hst) ?_ ?_ rfl ?_, hb.settle ?_⟩
  · intro j
    simp [Handle.Holds, Handle.Given, hb.closing, hb.holds.2]
  · intro j hg
    exact ⟨hg.1, hg.2.1, hg.2.2.1, .inl rfl⟩
  · simp
  · exact ⟨hb.closed, hb.loop, .inr rfl⟩

/-- `uv_tcp_connect` for a link that is `SVL_LINK_NEW`, on a request that was just acquired. -/
theorem connect (hb : Busy n E io h i) {q : Nat} (hd : (io.connectReqs q).data = some i)
    (hrel : (io.connectReqs q).released = 0) (hst : (io.link i).state = .new) (hno : ¬ WasOpened io.pushed h) :
    IoInv n E (io.uvTcpConnect q h) ∧ Settled (io.uvTcpConnect q h) := by
  have hs := hb.inv.slots.connect hd hrel hb.holds hb.closing hst fun q' hq' => hb.no_request hq'
  have hi : IoInv n E { io with
      handles := Function.update io.handles h { io.handles h with connecting := true } } := by
    refine hb.inv.setSame (hb.inv.slots.lt_count hb.holds) (fun _ => Iff.rfl) (fun _ hg => hg) rfl rfl rfl rfl
      (fun hc => hc) ?_
    exact fun _ _ _ => rfl
  have hset : Settled { io with
      handles := Function.update io.handles h { io.handles h with connecting := true } } :=
    hb.settle ⟨hb.closed, hb.loop, .inl (by simp [Handle.isActive])⟩
  refine ⟨{ hi with slots := hs, pendingNew := ?_ }, hset.running, hset.off⟩
  intro q' h' hq' hh'
  rcases eq_or_ne q' q with rfl | hne
  · simp only [Io.uvTcpConnect, Io.setConnectReq, Io.setHandle, Function.update_self, Option.some.injEq] at hh'
    exact hh' ▸ hno
  · simp only [Io.uvTcpConnect, Io.setConnectReq, Io.setHandle, Function.update_of_ne hne] at hq' hh'
    exact hb.inv.pendingNew q' h' hq' hh'

/-- A failed connect gives its link back at once and closes its handle. -/
theorem giveBack (hb : Busy n E io h i) (hbuf : (io.link i).readBuffer = none)
    (hst : (io.link i).state = .new) (hno : ¬ WasOpened io.pushed h) :
    ∃ list, io.linkList.svlLinkListClose i = some list ∧
      IoInv n E
        (({ io with linkList := list, linkLog := io.linkLog ++ [.closed i] } : Io).uvClose h .handle) ∧
      Settled (({ io with linkList := list, linkLog := io.linkLog ++ [.closed i] } : Io).uvClose h .handle) := by
  have hx : ∀ j, ¬ ({ io.handles h with
      started := false, reading := false, closing := some .handle, closes := (io.handles h).closes + 1 } :
        Handle).Holds j := by
    intro j hh
    simp [Handle.Holds, Handle.Given] at hh
  have hs := hb.inv.slots.unhold hb.holds hx (by rw [← Io.link, hst]; simp) hb.idle rfl (by simp)
    (by simp [hb.inv.slots.closes h, hb.closing])
  have hnone : ∀ h', ¬ (Function.update io.handles h { io.handles h with
      started := false, reading := false, closing := some .handle, closes := (io.handles h).closes + 1 } h').Holds
        i := by
    intro h' hh'
    rcases eq_or_ne h' h with rfl | hne
    · rw [Function.update_self] at hh'
      exact hx i hh'
    · rw [Function.update_of_ne hne] at hh'
      exact hne (hb.inv.slots.holder_unique hh' hb.holds)
  obtain ⟨list, hl, -, hitems, hs'⟩ := hs.closeLink hb.link.1 hb.link.2.1 hnone hbuf
  refine ⟨list, hl, hb.inv.drop hb.holds hs' hx rfl ?_ rfl ?_ ?_ ?_ (fun _ _ => Iff.rfl) ?_ (fun _ _ => rfl), ?_⟩
  · exact fun hop => absurd hop hno
  · exact fun j hj => hitems ▸ List.mem_cons_of_mem _ hj
  · intro j hj
    rw [hitems] at hj
    exact (List.mem_cons.1 hj).symm
  · exact fun _ => hitems ▸ List.mem_cons_self
  · intro hE
    obtain ⟨b, h₁, -, h₃⟩ := hb.inv.inTurn hE i hb.link.1
    refine ⟨b, h₁, fun _ => ?_⟩
    rw [Bool.eq_false_iff]
    exact fun hbt => hno ((h₃ h hb.holds).1 hbt)
  · constructor
    · intro _ h' j hh'
      rcases eq_or_ne h' h with rfl | hne
      · simp only [Io.uvClose, Io.setHandle, Function.update_self] at hh'
        exact absurd hh' (hx j)
      · simp only [Io.uvClose, Io.setHandle, Function.update_of_ne hne] at hh' ⊢
        exact hb.others h' j hne hh'
    · intro hp
      exact absurd (hb.running.symm.trans hp) (by simp)

end Busy

/-! ### How a callback comes to work on a connection -/

/-- Inside a callback: the client handle `h` was just acquired, and maybe initialised. -/
structure Fresh (n : Nat) (E : Premises) (io : Io) (h : Nat) (init : Bool) : Prop where
  inv : IoInv n E io
  settled : Settled io
  running : io.phase = .running
  lt : h < io.handleCount
  handle : io.handles h = { kind := .tcpClient, loop := io.loop, isInit := init }

/-- `TN_MEM_ACQUIRE` of a client handle gives a fresh one. -/
theorem IoInv.fresh (hi : IoInv n E io) (hs : Settled io) (hp : io.phase = .running) :
    Fresh n E (io.acquireHandle .tcpClient) io.handleCount false where
  inv := hi.acquireHandle .tcpClient
  settled := hs.setUnheld fun i hh => Handle.not_given_of_data rfl i hh.1
  running := hp
  lt := Nat.lt_succ_self _
  handle := by simp [Io.acquireHandle]

namespace Fresh

variable {h i : Nat} {init : Bool}

theorem not_given (hf : Fresh n E io h init) (j : Nat) : ¬ (io.handles h).Given j := by
  rw [hf.handle]
  exact Handle.not_given_of_data rfl j

/-- `uv_tcp_init` initialises a fresh handle. -/
theorem uvInit (hf : Fresh n E io h init) : Fresh n E (io.uvInit h) h true where
  inv := by
    refine hf.inv.setUngiven hf.not_given ?_ ?_ ?_ ?_ (fun _ => rfl) hf.lt (Nat.le_refl _)
    · exact Handle.not_given_of_data (by rw [hf.handle])
    all_goals simp [hf.handle]
  settled := hf.settled.setUnheld fun i hh => Handle.not_given_of_data (by rw [hf.handle]) i hh.1
  running := hf.running
  lt := hf.lt
  handle := by simp [Io.uvInit, Io.setHandle, hf.handle]

/-- A connect request changes and is not pending. -/
theorem setConnectReq (hf : Fresh n E io h init) {q : Nat} {f : ConnectReq → ConnectReq}
    (hq : (f (io.connectReqs q)).pending = false) : Fresh n E (io.setConnectReq q f) h init where
  inv := by
    refine hf.inv.setReqs fun q' hq' => ?_
    rcases eq_or_ne q' q with rfl | hne
    · rw [Function.update_self, hq] at hq'
      exact absurd hq' (by simp)
    · exact Function.update_of_ne hne ..
  settled := ⟨hf.settled.running, hf.settled.off⟩
  running := hf.running
  lt := hf.lt
  handle := hf.handle

/-- `TN_MEM_ACQUIRE` of a connect request leaves the handle fresh. -/
theorem acquireConnectReq (hf : Fresh n E io h init) : Fresh n E io.acquireConnectReq h init :=
  have hf' := hf.setConnectReq (q := io.connectReqCount) (f := fun _ => {}) rfl
  ⟨{ hf'.inv with count := hf'.inv.count }, ⟨hf'.settled.running, hf'.settled.off⟩, hf'.running, hf'.lt, hf'.handle⟩

/-- A handle that got no link is closed. -/
theorem abandon (hf : Fresh n E io h init) :
    IoInv n E (io.uvClose h .handle) ∧ Settled (io.uvClose h .handle) := by
  have hx : ∀ j, ¬ ({ io.handles h with
      started := false, reading := false, closing := some .handle, closes := (io.handles h).closes + 1 } :
        Handle).Given j := Handle.not_given_of_data (by rw [hf.handle])
  refine ⟨hf.inv.setUngiven hf.not_given hx rfl (by simp) ?_ (fun _ => rfl) hf.lt (Nat.le_refl _), ?_⟩
  · simp [hf.handle]
  · exact hf.settled.setUnheld fun j hh => hx j hh.1

/-- An initialised handle is tied to a link that is handed out. -/
theorem attach (hf : Fresh n E io h true) {list : LinkList} (ho : io.linkList.svlLinkListOpen = some (i, list))
    {l : Link} (hid : l.id = (list.clientMap i).id) (hpriv : l.priv = some h) (cmd : Option Cmd) :
    Busy n E { io with
      linkList := { list with clientMap := Function.update list.clientMap i l }
      handles := Function.update io.handles h { io.handles h with data := some i, openCmd := cmd }
      linkLog := io.linkLog ++ [.opened i] } h i := by
  obtain ⟨hi, hs, hp, hlt, hh⟩ := hf
  have hu : ∀ j, ¬ (io.handles h).Given j := Fresh.not_given ⟨hi, hs, hp, hlt, hh⟩
  generalize hxe : ({ io.handles h with data := some i, openCmd := cmd } : Handle) = x
  have hx : x.Holds i := by simp [← hxe, hh, Handle.Holds, Handle.Given]
  have hcl : x.closing = none := by simp [← hxe, hh]
  have hr : x.reading = false := by simp [← hxe, hh]
  have hc : x.closes = 0 := by simp [← hxe, hh]
  have hd : x.closed = false := by simp [← hxe, hh]
  have hloop : x.loop = io.loop := by simp [← hxe, hh]
  have hk : x.kind = (io.handles h).kind := by simp [← hxe]
  obtain ⟨hs', hin, hfree, hno, -⟩ := hi.slots.openLink ho
  obtain ⟨hitems, -, -, -⟩ := LinkList.svlLinkListOpen_eq_some.1 ho
  have hu' : ∀ j, ¬ (io.handles h).Holds j := fun j hh => hu j hh.1
  have hsub : ∀ j, j ∈ io.linkList.clientListFree.items ↔ j = i ∨ j ∈ list.clientListFree.items := by
    intro j
    rw [hitems, List.mem_cons]
  have hself : (Function.update io.handles h x h) = x := Function.update_self ..
  have hne : ∀ h' j, (io.handles h').Holds j → h' ≠ h := fun h' j hh e => hu' j (e ▸ hh)
  refine ⟨{ hi with
    slots := hs'.attach hin hfree hno hlt hu' hx hcl hr hc hid hpriv
    loop := hi.loop.update (fun _ => hk) (Nat.le_refl _)
    given := ?_, readOpened := ?_, covered := ?_, inTurn := ?_ }, hp, ?_, ?_, ?_, ?_, ?_, ?_⟩
  · intro p hp' ht
    have hg := hi.given p hp' ht
    have hne : p.conn ≠ h := by
      rintro rfl
      exact hu _ hg
    rwa [← Function.update_of_ne hne x io.handles] at hg
  · intro h' hr'
    dsimp only at hr'
    rcases eq_or_ne h' h with rfl | hne
    · rw [Function.update_self, hr] at hr'
      exact absurd hr' (by simp)
    · rw [Function.update_of_ne hne] at hr'
      exact hi.readOpened h' hr'
  · intro hE j hj
    dsimp only
    rcases hi.covered hE j hj with h₁ | ⟨h', hh⟩
    · rcases (hsub j).1 h₁ with rfl | h₁
      · exact .inr ⟨h, by rwa [hself]⟩
      · exact .inl h₁
    · exact .inr ⟨h', by rwa [Function.update_of_ne (hne h' j hh)]⟩
  · intro hE j hj
    obtain ⟨b, h₁, h₂, h₃⟩ := hi.inTurn hE j hj
    refine ⟨b, h₁, fun hf => h₂ ((hsub j).2 (.inr hf)), ?_⟩
    intro h' hh
    dsimp only at hh
    rcases eq_or_ne h' h with rfl | hne'
    · rw [hself] at hh
      have hbf := h₂ ((hsub j).2 (.inl (hh.inj hx)))
      exact iff_of_false (by simp [hbf]) (hi.not_wasOpened hu)
    · rw [Function.update_of_ne hne'] at hh
      exact h₃ h' hh
  · rwa [← hself] at hx
  · rwa [← hself] at hcl
  · rwa [← hself] at hd
  · rwa [← hself] at hloop
  · intro q hq hh
    obtain ⟨-, j, h', -, hh', hh'', -⟩ := hi.slots.pending q hq
    exact hne h' j hh'' (Option.some.inj (hh'.symm.trans hh))
  · intro h' j hne' hh
    dsimp only at hh ⊢
    rw [Function.update_of_ne hne'] at hh ⊢
    exact hs.running hp h' j hh

end Fresh

/-- A handle that is being read from holds an announced link. -/
theorem IoInv.reading (hi : IoInv n E io) (hs : Settled io) (hp : io.phase = .running) {h : Nat}
    (hr : (io.handles h).reading = true) : ∃ i, Busy n E io h i ∧ WasOpened io.pushed h := by
  obtain ⟨i, hh, hn⟩ := hi.slots.reading h hr
  have hop := hi.readOpened h hr
  obtain ⟨hcl, hl, -⟩ := hs.running hp h i hh
  refine ⟨i, ⟨hi, hp, hh, hn, hcl, hl, ?_, fun h' j _ hh' => hs.running hp h' j hh'⟩, hop⟩
  intro q hq hh'
  exact hi.pendingNew q h hq hh' hop

/-- A connect that is due leads to the link and the handle that are stored in its request. -/
theorem IoInv.connected (hi : IoInv n E io) (hs : Settled io) (hp : io.phase = .running) {q : Nat}
    (hq : (io.connectReqs q).pending = true) :
    ∃ h i, (io.connectReqs q).data = some i ∧ (io.connectReqs q).handle = some h ∧
      (io.connectReqs q).released = 0 ∧ (io.link i).state = .new ∧ ¬ WasOpened io.pushed h ∧
      Busy n E
        ((io.setConnectReq q fun r => { r with pending := false }).setHandle h
          fun x => { x with connecting := false }) h i := by
  obtain ⟨hrel, i, h, hd, hhd, hh, hn, -, hst⟩ := hi.slots.pending q hq
  obtain ⟨hcl, hl, -⟩ := hs.running hp h i hh
  have hi' : IoInv n E (io.setConnectReq q fun r => { r with pending := false }) := by
    refine hi.setReqs ?_
    intro q' hq'
    rcases eq_or_ne q' q with rfl | hne
    · simp at hq'
    · rw [Function.update_of_ne hne]
  have hidle : ∀ q', ((io.setConnectReq q fun r => { r with pending := false }).connectReqs q').pending = true →
      ((io.setConnectReq q fun r => { r with pending := false }).connectReqs q').handle ≠ some h := by
    intro q' hq' hh'
    rcases eq_or_ne q' q with rfl | hne
    · simp [Io.setConnectReq] at hq'
    · simp only [Io.setConnectReq, Function.update_of_ne hne] at hq' hh'
      obtain ⟨-, i', h', hd', hhd', hh'', -⟩ := hi.slots.pending q' hq'
      obtain rfl : h' = h := Option.some.inj (hhd'.symm.trans hh')
      exact hne (hi.slots.pending_inj q' q hq' hq (by rw [hd, hd', hh''.inj hh]))
  refine ⟨h, i, hd, hhd, hrel, hst, hi.pendingNew q h hq hhd, ?_, hp, ?_, ?_, ?_, ?_, hidle, ?_⟩
  · refine hi'.setSame (hi.slots.lt_count hh) (fun _ => Iff.rfl) (fun _ hg => hg) rfl rfl rfl rfl (fun hc => hc) ?_
    exact fun q' hq' hh' => absurd hh' (hidle q' hq')
  · simpa [Io.setHandle, Handle.Holds, Handle.Given, Io.setConnectReq] using hh
  · simpa [Io.setHandle, Io.setConnectReq] using hn
  · simpa [Io.setHandle, Io.setConnectReq] using hcl
  · simpa [Io.setHandle, Io.setConnectReq] using hl
  · intro h' j hne hh'
    simp only [Io.setHandle, Io.setConnectReq, Function.update_of_ne hne] at hh' ⊢
    exact hs.running hp h' j hh'

/-! ### The close callback of a connection -/

/-- Inside `on_close_link_cb`: the handle `h` holds the link `i`. -/
structure Closing (n : Nat) (E : Premises) (io : Io) (h i : Nat) : Prop where
  inv : IoInv n E io
  running : io.phase = .running
  holds : (io.handles h).Holds i
  closing : (io.handles h).closing = some .link
  closed : (io.handles h).closed = true
  others : ∀ h' j, h' ≠ h → (io.handles h').Holds j → (io.handles h').Live io.loop

/-- A link whose handle is being closed comes to `on_close_link_cb`. -/
theorem IoInv.closing (hi : IoInv n E io) (hs : Settled io) (hp : io.phase = .running) {h : Nat}
    (hc : (io.handles h).closing = some .link) (hd : (io.handles h).closed = false) :
    ∃ i, Closing n E (io.setHandle h fun x => { x with closed := true }) h i := by
  obtain ⟨i, hh⟩ := hi.slots.link_cb h hc hd
  refine ⟨i, ?_, hp, ?_, ?_, ?_, ?_⟩
  · refine hi.setSame (hi.slots.lt_count hh) (fun _ => Iff.rfl) (fun _ hg => hg) rfl rfl rfl rfl (by simp) ?_
    intro q hq hh'
    obtain ⟨-, j, h', -, hh'', -, hn, -⟩ := hi.slots.pending q hq
    obtain rfl : h' = h := Option.some.inj (hh''.symm.trans hh')
    exact absurd (hc.symm.trans hn) (by simp)
  · simpa [Io.setHandle, Handle.Holds, Handle.Given] using hh
  · simpa [Io.setHandle] using hc
  · simp [Io.setHandle]
  · intro h' j hne hh'
    simp only [Io.setHandle, Function.update_of_ne hne] at hh' ⊢
    exact hs.running hp h' j hh'

namespace Closing

variable {h i : Nat}

theorem link (hc : Closing n E io h i) :
    i < n ∧ i ∉ io.linkList.clientListFree.items ∧ (io.link i).priv = some h :=
  hc.inv.slots.holds h i hc.holds

theorem link_id (hc : Closing n E io h i) : (io.link i).id = i := hc.inv.slots.ids i hc.link.1

theorem not_opened (hc : Closing n E io h i) : (io.link i).state ≠ .opened :=
  hc.inv.slots.not_opened hc.holds (by simp [hc.closing])

theorem no_request (hc : Closing n E io h i) {q : Nat} (hq : (io.connectReqs q).pending = true) :
    (io.connectReqs q).data ≠ some i ∧ (io.connectReqs q).handle ≠ some h := by
  obtain ⟨-, j, h', hd, hh, hh', hn, -⟩ := hc.inv.slots.pending q hq
  have hne : h' ≠ h := by
    rintro rfl
    exact absurd (hc.closing.symm.trans hn) (by simp)
  constructor
  · intro hd'
    obtain rfl : j = i := Option.some.inj (hd.symm.trans hd')
    exact hne (hc.inv.slots.holder_unique hh' hc.holds)
  · intro hh''
    exact hne (Option.some.inj (hh.symm.trans hh''))

/-- The link record changes, but neither its id nor its `priv`, and it is not opened. -/
theorem setLink (hc : Closing n E io h i) {f : Link → Link} (hid : (f (io.link i)).id = (io.link i).id)
    (hpriv : (f (io.link i)).priv = (io.link i).priv) (hst : (f (io.link i)).state ≠ .opened) :
    Closing n E (io.setLink i f) h i := by
  refine { hc with inv := { hc.inv with slots := hc.inv.slots.setLink hid hpriv ?_ ?_ ?_ } }
  · intro hf
    exact absurd hf hc.link.2.1
  · intro ho
    exact absurd ho hst
  · intro q hq hd
    exact absurd hd (hc.no_request hq).1

theorem setHand (hc : Closing n E io h i) (e : Option Nat) :
    Closing n E { io with hand := e } h i :=
  { hc with inv := { hc.inv with count := hc.inv.count } }

private theorem not_holds_released (x : Handle) (j : Nat) : ¬ ({ x with released := x.released + 1 } :
    Handle).Holds j :=
  fun hh => absurd hh.2 (Nat.succ_ne_zero _)

private theorem released_slots (hc : Closing n E io h i) :
    ServerLynx.Slots n io.linkList
      (Function.update io.handles h { io.handles h with released := (io.handles h).released + 1 })
      io.handleCount io.connectReqs io.linkLog := by
  have hr : (io.handles h).reading = false := by
    rw [Bool.eq_false_iff]
    intro hr
    obtain ⟨-, -, hn⟩ := hc.inv.slots.reading h hr
    exact absurd (hc.closing.symm.trans hn) (by simp)
  exact hc.inv.slots.unhold hc.holds (not_holds_released _) hc.not_opened (fun q hq => (hc.no_request hq).2) hr
    (fun _ => hc.closed) (hc.inv.slots.closes h)

private theorem released_settled (hc : Closing n E io h i) :
    Settled { io with
      handles := Function.update io.handles h { io.handles h with released := (io.handles h).released + 1 } } := by
  constructor
  · intro _ h' j hh'
    dsimp only at hh' ⊢
    rcases eq_or_ne h' h with rfl | hne
    · rw [Function.update_self] at hh'
      exact absurd hh' (not_holds_released _ j)
    · rw [Function.update_of_ne hne] at hh' ⊢
      exact hc.others h' j hne hh'
  · intro hp
    exact absurd (hc.running.symm.trans hp) (by simp)

/-- Without an event the callback releases the handle, and the link is lost. -/
theorem leak (hc : Closing n E io h i) (hl : ¬ E.noLeak) :
    IoInv n E (io.releaseHandle h) ∧ Settled (io.releaseHandle h) := by
  refine ⟨?_, hc.released_settled⟩
  refine hc.inv.drop hc.holds hc.released_slots (not_holds_released _) rfl
    (fun _ _ hg => ⟨hg.1, hg.2.1, hg.2.2.1, .inl hc.closing⟩) ?_ (fun _ hj => hj) (fun _ hj => .inl hj)
    (fun hE => absurd hE hl) (fun _ _ => Iff.rfl) ?_
    (fun _ _ => rfl)
  · rw [Bool.eq_false_iff]
    intro hr
    obtain ⟨-, -, hn⟩ := hc.inv.slots.reading h hr
    exact absurd (hc.closing.symm.trans hn) (by simp)
  · intro hE
    obtain ⟨b, h₁, h₂, -⟩ := hc.inv.inTurn hE i hc.link.1
    exact ⟨b, h₁, h₂⟩

/-- With an event the callback announces the close, gives the link back and releases the handle. -/
theorem finish (hc : Closing n E io h i) (hbuf : (io.link i).readBuffer = none) (evt : Event)
    (ht : evt.type = .clientClose) (hid : evt.clientId = i) (r : Bool)
    (hr : E.inTurn → r = true ∧ WasOpened io.pushed h) :
    ∃ list, io.linkList.svlLinkListClose i = some list ∧
      IoInv n E (({ io with
        hand := none, pushed := if r then io.pushed ++ [⟨evt, h⟩] else io.pushed, linkList := list
        linkLog := io.linkLog ++ [.closed i] } : Io).releaseHandle h) ∧
      Settled (({ io with
        hand := none, pushed := if r then io.pushed ++ [⟨evt, h⟩] else io.pushed, linkList := list
        linkLog := io.linkLog ++ [.closed i] } : Io).releaseHandle h) := by
  have hnone : ∀ h', ¬ (Function.update io.handles h
      { io.handles h with released := (io.handles h).released + 1 } h').Holds i := by
    intro h' hh'
    rcases eq_or_ne h' h with rfl | hne
    · rw [Function.update_self] at hh'
      exact not_holds_released _ i hh'
    · rw [Function.update_of_ne hne] at hh'
      exact hne (hc.inv.slots.holder_unique hh' hc.holds)
  obtain ⟨list, hl, -, hitems, hs⟩ := hc.released_slots.closeLink hc.link.1 hc.link.2.1 hnone hbuf
  have hset := hc.released_settled
  refine ⟨list, hl, ?_, hset.running, hset.off⟩
  have hi : IoInv n E { io with hand := none } := { hc.inv with count := hc.inv.count }
  refine hi.drop hc.holds hs (not_holds_released _) rfl
    (fun _ _ hg => ⟨hg.1, hg.2.1, hg.2.2.1, .inl hc.closing⟩) ?_ ?_ ?_ ?_ ?_ ?_ ?_
  · rw [Bool.eq_false_iff]
    intro hr
    obtain ⟨-, -, hn⟩ := hc.inv.slots.reading h hr
    exact absurd (hc.closing.symm.trans hn) (by simp)
  · exact fun j hj => hitems ▸ List.mem_cons_of_mem _ hj
  · intro j hj
    rw [hitems] at hj
    exact (List.mem_cons.1 hj).symm
  · exact fun _ => hitems ▸ List.mem_cons_self
  · intro p hpt
    cases r with
    | false => rfl
    | true =>
      simp only [if_true, List.mem_append, List.mem_singleton]
      constructor
      · rintro (hp | rfl)
        · exact hp
        · exact absurd (hpt.symm.trans ht) (by simp)
      · exact .inl
  · intro hE
    obtain ⟨rfl, hop⟩ := hr hE
    obtain ⟨b, h₁, -, h₃⟩ := hc.inv.inTurn hE i hc.link.1
    refine ⟨false, ?_, fun _ => rfl⟩
    subst hid
    rw [if_pos rfl, announced_append_self, h₁, ht, (h₃ h hc.holds).2 hop]
    rfl
  · intro j hj
    cases r with
    | false => rfl
    | true => exact announced_append_ne (by simpa [hid] using hj.symm)

end Closing

end Moves

end ServerLynx
