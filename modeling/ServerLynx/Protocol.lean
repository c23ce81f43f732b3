import ServerLynx.Links

/-!
# The event protocol over whole runs

The events pushed about each client id read `(OPEN READ* CLOSE)*`, as long as `on_close_link_cb` announces the close
only of connections whose `OPEN` was pushed.  It does not check this: a connection whose set-up fails after it got
its link is closed by way of the same callback, and then a `CLOSE` is pushed that no `OPEN` precedes.
-/

namespace ServerLynx

open Threads

variable {n : Nat} {c : ServiceConfig}

/-- The events of each client id begin a word of `(OPEN READ* CLOSE)*`, and those of a free link are such a word: an
`OPEN` that was pushed was followed by its `CLOSE`. -/
structure InProtocol (n : Nat) (io : Io) : Prop where
  sessions : ∀ i < n, ∃ tail, Sessions (eventsOf io.pushed i ++ tail)
  free : ∀ i ∈ io.linkList.clientListFree.items, Sessions (eventsOf io.pushed i)

/-- The runs in which no connect fails and the ready list holds every event that is pushed to it. -/
def readyHasRoom : ServiceCond where
  op₁ sh v _ := match v.next with
    | some (.eventReadyPush _ _) => decide (sh.eventReady.length < sh.bufferCount)
    | _ => true
  run₁ d _ _ _ := d.statusOk

/-- Of these, the runs in which `on_close_link_cb` gets an event only for a connection whose `OPEN` was pushed. -/
def closeAfterOpen : ServiceCond where
  op₁ sh v w := readyHasRoom.op₁ sh v w && match v.next with
    | some (.eventFreePop .clientClose) => sh.eventFree.isEmpty ||
        decide (∀ h < v.loc.handleCount, (v.loc.handles h).InCloseCb → WasOpened v.loc.pushed h)
    | _ => true
  run₁ := readyHasRoom.run₁

theorem in_protocol (hc : ReachWhen closeAfterOpen n c) : InProtocol n c.fst.view.loc := by
  have hi := (ioInv (E := ⟨False, True, True⟩)
    ⟨False.elim, fun _ sh l e evt v h => by simpa [closeAfterOpen, readyHasRoom] using h,
      fun _ sh l v h hne => by simpa [closeAfterOpen, readyHasRoom, hne] using h,
      fun _ _ _ _ _ _ _ h => by simpa [closeAfterOpen, readyHasRoom, IoRun.statusOk] using h⟩ hc).1
  constructor
  · intro i hlt
    obtain ⟨b, hb, -⟩ := hi.inTurn trivial i hlt
    obtain ⟨tail, -, hs⟩ := sessions_of_announced hb
    exact ⟨tail, hs⟩
  · intro i hm
    obtain ⟨b, hb, hfree, -⟩ := hi.inTurn trivial i (hi.slots.free_lt i hm)
    obtain ⟨tail, hnil, hs⟩ := sessions_of_announced hb
    rwa [hnil (hfree hm), List.append_nil] at hs

theorem in_protocol_closed : ∃ c, ReachWhen closeAfterOpen 1 c ∧
    eventsOf c.fst.view.loc.pushed 0 = [.clientOpen, .clientRead, .clientClose] ∧ InProtocol 1 c.fst.view.loc := by
  obtain ⟨c, hc, hP⟩ := exists_reachWhen closeAfterOpen 1 (.flatten [startUp, readAndClose])
    (fun c => eventsOf c.fst.view.loc.pushed 0 = [.clientOpen, .clientRead, .clientClose]) (by decide +kernel)
  exact ⟨c, hc, hP, in_protocol hc⟩

/-- The address of the peer cannot be read: the accepted connection is closed, and its `CLOSE` is the first event. -/
theorem not_in_protocol : ∃ c, ReachWhen readyHasRoom 1 c ∧ ¬ InProtocol 1 c.fst.view.loc := by
  obtain ⟨c, hc, hP⟩ := exists_reachWhen readyHasRoom 1
    (.flatten [startUp, [.run₁ (.inbound 0 { getpeername := 1 }), .run₁ (.close 5), .op₁, .op₁]])
    (fun c => eventsOf c.fst.view.loc.pushed 0 = [.clientClose]) (by decide +kernel)
  refine ⟨c, hc, fun hin => ?_⟩
  obtain ⟨tail, hs⟩ := hin.sessions 0 Nat.zero_lt_one
  rw [hP] at hs
  cases hs

end ServerLynx
