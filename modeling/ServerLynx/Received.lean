import ServerLynx.Framing
import ServerLynx.Reads

/-!
# Received bytes

The bytes that were received on a connection are those of the `READ` events pushed about it, followed by those that are
unread in the read buffer of its link.  So a `CLOSE` event comes after all of them, unless `on_close_link_cb` puts a
read buffer with unread bytes back into the pool, or the pool hands out a buffer that a link holds.
-/

namespace ServerLynx

open Threads

/-! ### The bytes of a connection -/

/-- The bytes of the `READ` events about the connection `h`, in the order of the ready list. -/
def readBytes (readied : List Readied) (pushed : List Pushed) (h : Nat) : List UInt8 :=
  ((readied.zip pushed).filter fun x => decide (x.2.conn = h) && decide (x.2.evt.type = .clientRead)).flatMap
    fun x => x.1.bytes

/-- The runs in which the pool hands out no read buffer that a link holds, and gets none back with unread bytes. -/
def readsPushedBeforeClose : ServiceCond where
  op₁ sh v _ := match v.next with
    | some .poolReadPop => sh.poolRead.head?.all fun b =>
        decide (∀ h < v.loc.handleCount, v.loc.heldBuffer h ≠ some b)
    | some (.poolReadPush b) => decide ((sh.buffers b).readLength = 0)
    | _ => true

/-- The read buffer `b`, with the bytes that are stored in it and about to be counted. -/
def Shared.counted (sh : Shared) (next : Option Op) (b : Nat) : Buffer :=
  match next with
  | some (.bufferAddLength b' k) =>
    if b' = b then { sh.buffers b with wpos := (sh.buffers b).wpos + k } else sh.buffers b
  | _ => sh.buffers b

/-- Each received byte is in a `READ` event or unread in the read buffer of its connection; no two connections have the
same read buffer, and a connection whose `CLOSE` was pushed has none. -/
structure Received (sh : Shared) (v : View Io Op) : Prop where
  bytes : ∀ h, v.loc.received h = readBytes sh.readied v.loc.pushed h ++
    ((v.loc.heldBuffer h).elim [] fun b => (sh.counted v.next b).unread)
  apart : ∀ h h' b, v.loc.heldBuffer h = some b → v.loc.heldBuffer h' = some b → h = h'
  valid : ∀ h b, v.loc.heldBuffer h = some b → (sh.counted v.next b).Valid
  storing : ∀ b bytes, v.next = some (.bufferStore b bytes) → (sh.buffers b).wpos + bytes.length ≤ serviceMaxRecv
  pushing : ∀ e evt b, v.next = some (.eventReadyPush e evt) → evt.priv = some b → evt.type = .clientRead →
    evt.buffer = .readBuf b (sh.buffers b).rpos ∧ evt.len = (sh.buffers b).readLength
  closed : ∀ p ∈ v.loc.pushed, p.evt.type = .clientClose → v.loc.heldBuffer p.conn = none

variable {n : Nat} {sh sh' : Shared} {io l : Io} {v : View Io Op} {w : View Main Op} {h i : Nat}
  {o : Op}

section ReadBytes

variable {readied rs : List Readied} {pushed ps : List Pushed}

theorem readBytes_append (hlen : readied.length = pushed.length) :
    readBytes (readied ++ rs) (pushed ++ ps) h = readBytes readied pushed h ++ readBytes rs ps h := by
  simp only [readBytes, List.zip_append hlen, List.filter_append, List.flatMap_append]

/-- Events that are no `READ` have no bytes. -/
theorem readBytes_eq_nil (hp : ∀ p ∈ ps, p.evt.type ≠ .clientRead) : readBytes rs ps h = [] := by
  have hnone : (rs.zip ps).filter (fun x => decide (x.2.conn = h) && decide (x.2.evt.type = .clientRead)) = [] := by
    rw [List.filter_eq_nil_iff]
    rintro ⟨r, p⟩ hm
    simp [hp p (List.of_mem_zip hm).2]
  simp [readBytes, hnone]

end ReadBytes

theorem counted_of_ne {next : Option Op} (hn : ∀ b k, next ≠ some (.bufferAddLength b k)) (b : Nat) :
    sh.counted next b = sh.buffers b := by
  unfold Shared.counted
  split
  · rename_i b' k
    exact absurd rfl (hn b' k)
  · rfl

/-- Before an operation that counts no bytes. -/
theorem Received.before (hr : Received sh ⟨l, none⟩) {o : Op} (hn : ∀ b k, o ≠ .bufferAddLength b k)
    (hs : ∀ b bytes, o = .bufferStore b bytes → (sh.buffers b).wpos + bytes.length ≤ serviceMaxRecv)
    (hp : ∀ e evt b, o = .eventReadyPush e evt → evt.priv = some b → evt.type = .clientRead →
      evt.buffer = .readBuf b (sh.buffers b).rpos ∧ evt.len = (sh.buffers b).readLength) :
    Received sh ⟨l, some o⟩ := by
  have hcounted : ∀ b, sh.counted (some o) b = sh.buffers b :=
    counted_of_ne fun b k he => hn b k (Option.some.inj he)
  refine ⟨fun h => ?_, hr.apart, fun h b hb => ?_, fun b bytes he => hs b bytes (Option.some.inj he),
    fun e evt b he => hp e evt b (Option.some.inj he), hr.closed⟩
  · simp only [hcounted]
    exact hr.bytes h
  · simp only [hcounted]
    exact hr.valid h b hb

/-- Before an operation that leaves the reads alone. -/
theorem Received.beforeSpare (hr : Received sh ⟨l, none⟩) {o : Op} (ho : o.sparesReads = true) :
    Received sh ⟨l, some o⟩ := by
  refine hr.before ?_ ?_ ?_
  · rintro b k rfl
    simp [Op.sparesReads] at ho
  · rintro b bytes rfl
    simp [Op.sparesReads] at ho
  · rintro e evt b rfl - ht
    simp [Op.sparesReads, ht] at ho

/-- The buffers are what they were about to be, and each connection has the bytes and the read buffer it had. -/
theorem Received.transfer (hr : Received sh v) (hb : ∀ b, sh'.buffers b = sh.counted v.next b)
    (hrec : l.received = v.loc.received) (hheld : ∀ h, l.heldBuffer h = v.loc.heldBuffer h)
    (hbytes : ∀ h, readBytes sh'.readied l.pushed h = readBytes sh.readied v.loc.pushed h)
    (hclosed : ∀ p ∈ l.pushed, p.evt.type = .clientClose → p ∈ v.loc.pushed) : Received sh' ⟨l, none⟩ := by
  refine ⟨fun h => ?_, fun h h' b hh hh' => ?_, fun h b hh => ?_, by simp, by simp, fun p hp ht => ?_⟩
  · rw [hrec, hr.bytes h, hbytes, hheld]
    simp only [Shared.counted, hb]
  · exact hr.apart h h' b (hheld h ▸ hh) (hheld h' ▸ hh')
  · rw [hheld] at hh
    simp only [Shared.counted, hb]
    exact hr.valid h b hh
  · rw [hheld]
    exact hr.closed p (hclosed p hp ht) ht

/-- Only the connection `h` changes. -/
theorem Received.change (hr : Received sh v) {next : Option Op}
    (hn : ∀ o, next = some o → ∃ b k, o = .bufferAddLength b k)
    (hother : ∀ h', h' ≠ h → l.received h' = v.loc.received h' ∧ l.heldBuffer h' = v.loc.heldBuffer h' ∧
      readBytes sh'.readied l.pushed h' = readBytes sh.readied v.loc.pushed h')
    (hbuf : ∀ h' b, h' ≠ h → v.loc.heldBuffer h' = some b →
      sh'.counted next b = sh.counted v.next b ∧ l.heldBuffer h ≠ some b)
    (hself : l.received h = readBytes sh'.readied l.pushed h ++
      (l.heldBuffer h).elim [] fun b => (sh'.counted next b).unread)
    (hvalid : ∀ b, l.heldBuffer h = some b → (sh'.counted next b).Valid)
    (hclosed : ∀ p ∈ l.pushed, p.evt.type = .clientClose → (p ∈ v.loc.pushed ∧ p.conn ≠ h) ∨
      l.heldBuffer p.conn = none) : Received sh' ⟨l, next⟩ := by
  refine ⟨fun h' => ?_, fun h₁ h₂ b hh₁ hh₂ => ?_, fun h' b hb => ?_, fun b bytes he => ?_, fun e evt b he => ?_,
    fun p hp ht => ?_⟩
  · by_cases hne : h' = h
    · exact hne ▸ hself
    · obtain ⟨hrec, hheld, hread⟩ := hother h' hne
      show l.received h' = readBytes sh'.readied l.pushed h' ++ _
      rw [hrec, hr.bytes h', hread]
      congr 1
      cases hb : v.loc.heldBuffer h' with
      | none => simp [hheld, hb]
      | some b => simp [hheld, hb, (hbuf h' b hne hb).1]
  · by_cases hne₁ : h₁ = h <;> by_cases hne₂ : h₂ = h
    · exact hne₁.trans hne₂.symm
    · subst hne₁
      exact absurd hh₁ (hbuf h₂ b hne₂ ((hother h₂ hne₂).2.1 ▸ hh₂)).2
    · subst hne₂
      exact absurd hh₂ (hbuf h₁ b hne₁ ((hother h₁ hne₁).2.1 ▸ hh₁)).2
    · exact hr.apart h₁ h₂ b ((hother h₁ hne₁).2.1 ▸ hh₁) ((hother h₂ hne₂).2.1 ▸ hh₂)
  · by_cases hne : h' = h
    · exact hvalid b (hne ▸ hb)
    · have hb' : v.loc.heldBuffer h' = some b := (hother h' hne).2.1 ▸ hb
      show (sh'.counted next b).Valid
      rw [(hbuf h' b hne hb').1]
      exact hr.valid h' b hb'
  · obtain ⟨b', k, hb⟩ := hn _ he
    simp at hb
  · obtain ⟨b', k, hb⟩ := hn _ he
    simp at hb
  · rcases hclosed p hp ht with ⟨hp, hne⟩ | hnone
    · exact (hother p.conn hne).2.1.trans (hr.closed p hp ht)
    · exact hnone

/-! ### Code that leaves the reads alone -/

/-- Everywhere that code which leaves the reads alone gets to from `io`, each byte is where it was. -/
def Spared (io : Io) (sh : Shared) : Prop := ∀ l, SameReads io l → InSync sh l → Received sh ⟨l, none⟩

/-- These operations change no read buffer, and push at most an event that is no `READ`. -/
theorem Op.exec_spares {o : Op} (ho : o.sparesReads = true) {r : o.Res} (he : o.exec sh = some (r, sh')) :
    sh'.buffers = sh.buffers ∧ ∃ rs, sh'.readied = sh.readied ++ rs := by
  cases o <;> simp only [Op.sparesReads, Bool.false_eq_true] at ho <;> simp only [Op.exec] at he
  case eventReadyPush e evt =>
    split at he <;> obtain ⟨-, rfl⟩ := Prod.mk.inj (Option.some.inj he)
    · exact ⟨rfl, _, rfl⟩
    · exact ⟨rfl, [], by simp⟩
  all_goals
    first
    | (obtain ⟨-, rfl⟩ := Prod.mk.inj (Option.some.inj he); exact ⟨rfl, [], by simp⟩)
    | (split at he <;> first
        | (obtain ⟨-, rfl⟩ := Prod.mk.inj (Option.some.inj he); exact ⟨rfl, [], by simp⟩)
        | (split at he <;> first
            | (obtain ⟨-, rfl⟩ := Prod.mk.inj (Option.some.inj he); exact ⟨rfl, [], by simp⟩)
            | simp at he))

theorem InSync.length_eq (hs : InSync sh io) : sh.readied.length = io.pushed.length := by
  simpa using congrArg List.length hs

theorem Received.spared (hr : Received sh ⟨io, none⟩) (hs : InSync sh io) : Spared io sh := by
  intro l hl hs'
  obtain ⟨ps, hps, -⟩ := hl.pushed
  have hlen := hs'.length_eq
  rw [hs.length_eq, hps, List.length_append] at hlen
  obtain rfl : ps = [] := List.length_eq_zero_iff.1 (by omega)
  rw [List.append_nil] at hps
  exact hr.transfer (fun _ => rfl) hl.received hl.held (fun _ => by rw [hps]) fun p hp _ => hps ▸ hp

theorem Received.spared_after (hr : Received sh ⟨l, some o⟩) (hs : InSync sh l) (hl : SameReads io l)
    {r : o.Res} (ho : o.sparesReads = true) (he : o.exec sh = some (r, sh')) : Spared io sh' := by
  rintro l' hl' -
  obtain ⟨hbuf, rs, hrs⟩ := Op.exec_spares ho he
  obtain ⟨ps, hps, hopens⟩ := hl.pushed
  obtain ⟨ps', hps', hopens'⟩ := hl'.pushed
  have hcounted : ∀ b, sh.counted (some o) b = sh.buffers b := by
    refine counted_of_ne fun b k hn => ?_
    obtain rfl := Option.some.inj hn
    simp [Op.sparesReads] at ho
  have hnone : ∀ {ps : List Pushed}, (∀ p ∈ ps, p.evt.type = .clientOpen) → ∀ p ∈ ps, p.evt.type ≠ .clientRead :=
    fun hp p hm ht => absurd ((hp p hm).symm.trans ht) (by simp)
  refine hr.transfer (fun b => by rw [hbuf, hcounted]) (hl'.received.trans hl.received.symm)
    (fun h => (hl'.held h).trans (hl.held h).symm) (fun h => ?_) fun p hp ht => ?_
  · -- the events pushed since `io` are no `READ`
    have hlen : (sh.readied.take io.pushed.length).length = io.pushed.length := by
      have hlen := hs.length_eq
      rw [hps, List.length_append] at hlen
      rw [List.length_take]
      omega
    have hsplit := List.take_append_drop io.pushed.length sh.readied
    rw [hrs, hps, hps', ← hsplit, List.append_assoc, readBytes_append hlen, readBytes_append hlen,
      readBytes_eq_nil (hnone hopens), readBytes_eq_nil (hnone hopens')]
  · rw [hps'] at hp
    rw [hps]
    rcases List.mem_append.1 hp with hp | hp
    · exact List.mem_append_left _ hp
    · exact absurd ((hopens' p hp).symm.trans ht) (by simp)

/-! ### The IO thread -/

section IoThread

variable {S : Shared → View Main Op → Prop}

/-- What is known of every state that a run reaches. -/
abbrev Known (n : Nat) (sh : Shared) (v : View Io Op) (_ : View Main Op) : Prop :=
  (IoInv n ⟨False, False, False⟩ v.loc ∧ (v.next = none → Settled v.loc)) ∧ Correlation False v.loc ∧ InSync sh v.loc

private abbrev KeepsReceived (n : Nat) (S : Shared → View Main Op → Prop) (m : IoM Unit) (l : Io) : Prop :=
  m.wp Op.exec (Known n) (fun sh v _ => Received sh v) (fun sh v w => readsPushedBeforeClose.op₁ sh v w = true) S
    (Post (Known n) fun sh v _ => Received sh v) l

private abbrev ReceivedAfter (n : Nat) (l : Io) (o : Op) (r : o.Res) : Shared → View Main Op → Prop :=
  After Op.exec (Known n) (fun sh v _ => Received sh v) (fun sh v w => readsPushedBeforeClose.op₁ sh v w = true) l o r

/-- Between two operations of the IO thread. -/
structure Receives (sh : Shared) (l : Io) : Prop where
  received : Received sh ⟨l, none⟩
  sync : InSync sh l

/-- Code that leaves the reads alone keeps `Received`. -/
private theorem spares_keeps {m : IoM Unit} (hm : StaysReads l m l) (hS : ∀ sh w, S sh w → Receives sh l) :
    KeepsReceived n S m l := by
  refine Prog.wp_mono ?_ (Prog.wp_of_path (R := fun sh _ => Spared l sh) ?_ ?_ hm
    fun sh w h => (hS sh w h).received.spared (hS sh w h).sync)
  · rintro S l' _ ⟨hS', hl⟩ sh w h ⟨-, -, hsync⟩
    exact hS' sh w h l' hl hsync
  · rintro sh l' o w ⟨ho, hl⟩ ⟨-, -, hsync⟩ hs
    exact (hs l' hl hsync).beforeSpare ho
  · rintro sh sh' l' o r w ⟨ho, hl⟩ ⟨-, -, hsync⟩ hr he
    exact hr.spared_after hsync hl ho he

private theorem receives_after {r : o.Res} (ho : o.sparesReads = true) (hp : ∀ e evt, o ≠ .eventReadyPush e evt)
    (h : ReceivedAfter n l o r sh w) : Receives sh l := by
  obtain ⟨sh₀, ⟨-, -, hsync⟩, hr, -, he⟩ := h
  have hsync' : InSync sh l := by
    rw [InSync, Op.exec_readied hp he]
    exact hsync
  exact ⟨hr.spared_after hsync (refl_of SameReads l) ho he l (refl_of SameReads l) hsync', hsync'⟩

/-- The connection `h` has the link `i`. -/
structure Linked (l : Io) (h i : Nat) : Prop where
  data : (l.handles h).data = some i
  priv : (l.link i).priv = some h

theorem Linked.held (hl : Linked l h i) : l.heldBuffer h = (l.link i).readBuffer := heldBuffer_of_data hl.data hl.priv

private theorem receives_after_pop {b : Nat} (hl : Linked l h i) (hb : (l.link i).readBuffer = none)
    (hopen : ∀ p ∈ l.pushed, p.evt.type = .clientClose → p.conn ≠ h)
    (ha : ReceivedAfter n l .poolReadPop (some b) sh w) :
    Receives sh (l.setLink i fun link => { link with readBuffer := some b }) := by
  obtain ⟨sh₀, ⟨⟨hi, -⟩, -, hsync⟩, hr, hc, he⟩ := ha
  have hheld := heldBuffer_setLink (f := fun link => { link with readBuffer := some b }) hl.data hl.priv rfl
  simp only [Op.exec] at he
  split at he
  · simp at he
  rename_i b' bs hpool
  simp only [Option.some.injEq, Prod.mk.injEq] at he
  obtain ⟨rfl, rfl⟩ := he
  -- no other connection has the buffer
  have hother : ∀ h', l.heldBuffer h' ≠ some b' := by
    intro h' hh
    by_cases hlt : h' < l.handleCount
    · simp only [readsPushedBeforeClose, hpool, List.head?_cons, Option.all_some, decide_eq_true_eq] at hc
      exact hc h' hlt hh
    · have hdata : (l.handles h').data = none := by rw [hi.slots.fresh h' (Nat.le_of_not_lt hlt)]
      simp [Io.heldBuffer, hdata] at hh
  refine ⟨hr.change (h := h) (by simp) (fun h' hne => ⟨rfl, ?_, rfl⟩) (fun h' b hne hb => ⟨?_, ?_⟩) ?_ ?_
    (fun p hp ht => .inl ⟨hp, hopen p hp ht⟩), hsync⟩
  · rw [hheld, if_neg hne]
  · have hne : b ≠ b' := fun he => hother h' (he ▸ hb)
    simp [Shared.counted, Function.update_of_ne hne]
  · rw [hheld, if_pos rfl]
    exact fun he => hother h' (Option.some.inj he ▸ hb)
  · have hbytes := hr.bytes h
    rw [hl.held, hb] at hbytes
    rw [hheld, if_pos rfl]
    show l.received h = readBytes sh₀.readied l.pushed h ++ _
    simpa [Shared.counted, Buffer.unread_reset] using hbytes
  · intro b hb
    rw [hheld, if_pos rfl] at hb
    obtain rfl := Option.some.inj hb
    simpa [Shared.counted] using Buffer.valid_reset _

private theorem receives_after_pop_none (ha : ReceivedAfter n l .poolReadPop none sh w) : Receives sh l := by
  obtain ⟨sh₀, ⟨-, -, hsync⟩, hr, -, he⟩ := ha
  obtain rfl : sh = sh₀ := by
    simp only [Op.exec] at he
    split at he <;> simp at he
    exact he.symm
  exact ⟨hr.transfer (fun _ => rfl) rfl (fun _ => rfl) (fun _ => rfl) fun p hp _ => hp, hsync⟩

private theorem receives_after_return {b : Nat} {pushed : Bool} (hl : Linked l h i)
    (hb : (l.link i).readBuffer = some b)
    (ha : ReceivedAfter n l (.poolReadPush b) pushed sh w) :
    Receives sh (l.setLink i fun link => { link with readBuffer := none }) := by
  obtain ⟨sh₀, ⟨-, -, hsync⟩, hr, hc, he⟩ := ha
  have hheld := heldBuffer_setLink (f := fun link => { link with readBuffer := none }) hl.data hl.priv rfl
  have hempty : (sh₀.buffers b).readLength = 0 := by simpa [readsPushedBeforeClose] using hc
  have hsame : sh.buffers = sh₀.buffers ∧ sh.readied = sh₀.readied := by
    simp only [Op.exec] at he
    split at he <;> obtain ⟨-, rfl⟩ := Prod.mk.inj (Option.some.inj he) <;> exact ⟨rfl, rfl⟩
  refine ⟨hr.change (h := h) (by simp) (fun h' hne => ⟨rfl, ?_, ?_⟩) (fun h' b hne hb => ⟨?_, ?_⟩) ?_ ?_
    (fun p hp _ => ?_), ?_⟩
  · rw [hheld, if_neg hne]
  · rw [hsame.2]
    rfl
  · simp [Shared.counted, hsame.1]
  · rw [hheld, if_pos rfl]
    simp
  · have hbytes := hr.bytes h
    rw [hl.held, hb] at hbytes
    rw [hheld, if_pos rfl, hsame.2]
    show l.received h = readBytes sh₀.readied l.pushed h ++ _
    simpa [Shared.counted, Buffer.unread_of_empty hempty] using hbytes
  · intro b hb
    rw [hheld, if_pos rfl] at hb
    simp at hb
  · by_cases hne : p.conn = h
    · exact .inr (by rw [hne, hheld, if_pos rfl])
    · exact .inl ⟨hp, hne⟩
  · rw [InSync, hsame.2]
    exact hsync

private theorem received_after_store {b : Nat} {bytes : List UInt8} (hl : Linked l h i)
    (hb : (l.link i).readBuffer = some b) (ha : ReceivedAfter n l (.bufferStore b bytes) () sh w) :
    Received sh ⟨{ l with received := Function.update l.received h (l.received h ++ bytes) },
      some (.bufferAddLength b bytes.length)⟩ := by
  obtain ⟨sh₀, -, hr, -, he⟩ := ha
  simp only [Op.exec, Option.some.injEq, Prod.mk.injEq, true_and] at he
  subst he
  have hheld : l.heldBuffer h = some b := hl.held.trans hb
  have hroom := hr.storing b bytes rfl
  have hvalid := hr.valid h b hheld
  have happend : (sh₀.buffers b).append bytes =
      some { (sh₀.buffers b).store bytes with wpos := (sh₀.buffers b).wpos + bytes.length } :=
    Buffer.append_eq_some.2 ⟨hroom, rfl⟩
  have hcounted : Shared.counted { sh₀ with
      buffers := Function.update sh₀.buffers b ((sh₀.buffers b).store bytes) }
      (some (.bufferAddLength b bytes.length)) b =
      { (sh₀.buffers b).store bytes with wpos := (sh₀.buffers b).wpos + bytes.length } := by
    simp [Shared.counted, Buffer.store]
  refine hr.change (h := h) (by simp) (fun h' hne => ⟨Function.update_of_ne hne _ _, rfl, rfl⟩)
    (fun h' b' hne hb' => ?_) ?_ ?_ fun p hp ht => .inl ⟨hp, fun hne => ?_⟩
  · have hne' : b' ≠ b := fun he => hne (hr.apart h' h b (he ▸ hb') hheld)
    refine ⟨by simp [Shared.counted, Function.update_of_ne hne', hne'.symm], fun hh => hne' ?_⟩
    exact Option.some.inj (hh.symm.trans hheld)
  · have hbytes := hr.bytes h
    rw [hheld] at hbytes
    have hheld' : Io.heldBuffer { l with received := Function.update l.received h (l.received h ++ bytes) } h =
        some b := hheld
    rw [hheld', Option.elim_some, hcounted, Buffer.unread_append hvalid happend]
    show Function.update l.received h (l.received h ++ bytes) h = readBytes sh₀.readied l.pushed h ++ _
    rw [Function.update_self, hbytes, List.append_assoc]
    rfl
  · intro b' hb'
    obtain rfl : b' = b := Option.some.inj (hb'.symm.trans hheld)
    rw [hcounted]
    exact hvalid.append happend
  · have hnone : l.heldBuffer p.conn = none := hr.closed p hp ht
    exact absurd (hnone.symm.trans (hne ▸ hheld)) (by simp)

private theorem receives_after_store_nil {b : Nat} (ha : ReceivedAfter n l (.bufferStore b []) () sh w) :
    Receives sh { l with received := Function.update l.received h (l.received h ++ []) } := by
  obtain ⟨sh₀, ⟨-, -, hsync⟩, hr, -, he⟩ := ha
  simp only [Op.exec, Option.some.injEq, Prod.mk.injEq, true_and] at he
  subst he
  have hstore : (sh₀.buffers b).store [] = sh₀.buffers b := by simp [Buffer.store]
  refine ⟨hr.transfer (fun b' => ?_) (by simp) (fun _ => rfl) (fun _ => rfl) fun p hp _ => hp, hsync⟩
  simp [Shared.counted, hstore]

private theorem receives_after_count {b k : Nat} {added : Bool} (hl : Linked l h i)
    (hb : (l.link i).readBuffer = some b)
    (ha : ReceivedAfter n l (.bufferAddLength b k) added sh w) : added = true ∧ Receives sh l := by
  obtain ⟨sh₀, ⟨-, -, hsync⟩, hr, -, he⟩ := ha
  have hvalid := hr.valid h b (hl.held.trans hb)
  have hadd : (sh₀.buffers b).addLength k = some { sh₀.buffers b with wpos := (sh₀.buffers b).wpos + k } := by
    have hroom := hvalid.room
    simp only [Shared.counted, if_true] at hroom
    simp [Buffer.addLength, hroom]
  simp only [Op.exec, hadd, Option.some.injEq, Prod.mk.injEq] at he
  obtain ⟨rfl, rfl⟩ := he
  refine ⟨rfl, hr.transfer (fun b' => ?_) rfl (fun _ => rfl) (fun _ => rfl) fun p hp _ => hp, hsync⟩
  by_cases hb' : b' = b
  · subst hb'
    simp [Shared.counted]
  · simp [Shared.counted, Function.update_of_ne hb', Ne.symm hb']

private theorem receives_after_refused {y : Io} {e : Nat} {evt : Event} (hrec : y.received = l.received)
    (hheld : ∀ h, y.heldBuffer h = l.heldBuffer h) (hp : y.pushed = l.pushed)
    (ha : ReceivedAfter n l (.eventReadyPush e evt) false sh w) : Receives sh y := by
  obtain ⟨sh₀, ⟨-, -, hsync⟩, hr, -, he⟩ := ha
  simp only [Op.exec] at he
  split at he <;> obtain ⟨hf, rfl⟩ := Prod.mk.inj (Option.some.inj he)
  · simp at hf
  · exact ⟨hr.transfer (fun _ => rfl) hrec hheld (fun _ => by rw [hp]) fun p hm _ => hp ▸ hm,
      by rw [InSync, hp]; exact hsync⟩

/-- A push about the connection `h` keeps the received bytes if it is that of a `READ` event with its bytes, or if
there are none. -/
private theorem receives_after_push {y : Io} {e : Nat} {evt : Event} (hrec : y.received = l.received)
    (hheld : ∀ h', y.heldBuffer h' = if h' = h then none else l.heldBuffer h')
    (hp : y.pushed = l.pushed ++ [⟨evt, h⟩])
    (hevt : evt.type = .clientRead ∧ (∃ b, evt.priv = some b ∧ l.heldBuffer h = some b) ∨
      evt.type ≠ .clientRead ∧ l.heldBuffer h = none)
    (ha : ReceivedAfter n l (.eventReadyPush e evt) true sh w) : Receives sh y := by
  obtain ⟨sh₀, ⟨-, -, hsync⟩, hr, -, he⟩ := ha
  simp only [Op.exec] at he
  split at he <;> obtain ⟨hf, rfl⟩ := Prod.mk.inj (Option.some.inj he)
  case isFalse => simp at hf
  have hread : ∀ h' r, readBytes (sh₀.readied ++ [r]) y.pushed h' = readBytes sh₀.readied l.pushed h' ++
      readBytes [r] [⟨evt, h⟩] h' := fun h' r => by rw [hp, readBytes_append hsync.length_eq]
  refine ⟨hr.change (h := h) (by simp) (fun h' hne => ⟨congrFun hrec h', by rw [hheld, if_neg hne], ?_⟩)
    (fun h' b hne hb => ⟨rfl, by rw [hheld, if_pos rfl]; simp⟩) ?_ (fun b hb => ?_) fun p hm ht => ?_, ?_⟩
  · show readBytes (sh₀.readied ++ _) y.pushed h' = _
    rw [hread]
    simp [readBytes, Ne.symm hne]
  · show y.received h = readBytes (sh₀.readied ++ _) y.pushed h ++ _
    have hbytes := hr.bytes h
    rw [hheld, if_pos rfl, hread, hrec]
    rcases hevt with ⟨ht, b, hb, hheldb⟩ | ⟨ht, hnone⟩
    · obtain ⟨hbuf, hlen⟩ := hr.pushing e evt b rfl hb ht
      rw [hheldb] at hbytes
      simpa [readBytes, ht, Shared.message, hbuf, hlen, Shared.counted, Buffer.unread] using hbytes
    · rw [hnone] at hbytes
      simpa [readBytes, ht] using hbytes
  · rw [hheld, if_pos rfl] at hb
    simp at hb
  · rw [hp] at hm
    rcases List.mem_append.1 hm with hm | hm
    · by_cases hne : p.conn = h
      · exact .inr (by rw [hne, hheld, if_pos rfl])
      · exact .inl ⟨hm, hne⟩
    · obtain rfl : p = ⟨evt, h⟩ := by simpa using hm
      exact .inr (by rw [hheld, if_pos rfl])
  · rw [InSync, hp]
    simpa [InSync] using hsync

theorem Receives.same (hr : Receives sh l) {y : Io} (hrec : y.received = l.received)
    (hheld : ∀ h, y.heldBuffer h = l.heldBuffer h) (hp : y.pushed = l.pushed) : Receives sh y where
  received := hr.received.transfer (fun _ => rfl) hrec hheld (fun _ => by rw [hp]) fun p hm _ => hp ▸ hm
  sync := by
    rw [InSync, hp]
    exact hr.sync

private theorem pop_type {t : EventType} {e : Nat} {evt : Event}
    (ha : ReceivedAfter n l (.eventFreePop t) (some (e, evt)) sh w) : evt.type = t := by
  obtain ⟨sh₀, -, -, -, he⟩ := ha
  simp only [Op.exec] at he
  split at he
  · simp at he
  · simp only [Option.some.injEq, Prod.mk.injEq] at he
    rw [← he.1.2]

private theorem readyPush_receives {e conn : Nat} {evt : Event}
    {Q : (Shared → View Main Op → Prop) → Io → Bool → Prop}
    (hS : ∀ sh w, S sh w → Received sh ⟨l, some (.eventReadyPush e evt)⟩)
    (hf : Q (ReceivedAfter n l (.eventReadyPush e evt) false) { l with hand := none } false)
    (ht : Q (ReceivedAfter n l (.eventReadyPush e evt) true)
      { l with hand := none, pushed := l.pushed ++ [⟨evt, conn⟩] } true) :
    (readyPush e evt conn).wp Op.exec (Known n) (fun sh v _ => Received sh v)
      (fun sh v w => readsPushedBeforeClose.op₁ sh v w = true) S Q l := by
  simp only [readyPush, Code.wp_bind, Code.wp_op, Code.wp_modify, Code.wp_pure]
  refine ⟨fun sh w h _ => hS sh w h, ?_⟩
  rintro (_ | _) -
  · exact hf
  · exact ht

private theorem span_after {b rpos len : Nat} (ha : ReceivedAfter n l (.bufferReadSpan b) (rpos, len) sh w) :
    (sh.buffers b).rpos = rpos ∧ len = (sh.buffers b).readLength := by
  obtain ⟨sh₀, -, -, -, he⟩ := ha
  simp only [Op.exec, Option.some.injEq, Prod.mk.injEq] at he
  obtain ⟨⟨rfl, rfl⟩, rfl⟩ := he
  exact ⟨rfl, rfl⟩

/-! ### Reads -/

private theorem onRecvCbCleanup_receives (handle i : Nat) (ret : ErrorCode) (close : Bool)
    (hS : ∀ sh w, S sh w → Receives sh l) : KeepsReceived n S (onRecvCbCleanup handle i ret close) l :=
  spares_keeps ((onRecvCbCleanup_reads handle i ret close).path l) hS

private theorem onRecvCb_empty {nread : Int} (hl : Linked l h i) (hn : nread ≤ 0)
    (hS : ∀ sh w, S sh w → Receives sh l) : KeepsReceived n S (onRecvCb h nread) l := by
  simp only [KeepsReceived, onRecvCb, Code.wp_bind, Code.wp_get, hl.data, Code.wp_ite]
  refine ⟨fun _ => onRecvCbCleanup_receives _ _ _ _ hS, fun _ => ⟨fun _ => onRecvCbCleanup_receives _ _ _ _ hS,
    fun _ => ?_⟩⟩
  omega

private theorem onRecvCb_counts {b k : Nat} (hl : Linked l h i) (hb : (l.link i).readBuffer = some b) (hk : 0 < k)
    (hS : ∀ sh w, S sh w → Received sh ⟨l, some (.bufferAddLength b k)⟩) : KeepsReceived n S (onRecvCb h k) l := by
  simp only [KeepsReceived, onRecvCb, getLink, Code.wp_bind, Code.wp_get, Code.wp_pure, hl.data, Code.wp_ite, hb,
    Code.wp_op, Int.toNat_natCast]
  refine ⟨fun _ => by omega, fun _ => ⟨fun _ => by omega, fun _ => ⟨fun sh w h _ => hS sh w h, ?_⟩⟩⟩
  rintro added ⟨sh₁, w₁, h₁⟩
  obtain rfl := (receives_after_count hl hb h₁).1
  have hcounted : ∀ sh w, ReceivedAfter n l (.bufferAddLength b k) true sh w → Receives sh l :=
    fun sh w h => (receives_after_count hl hb h).2
  refine ⟨fun hf => absurd hf (by simp), fun _ => ⟨fun sh w h _ => (hcounted sh w h).received.beforeSpare rfl, ?_⟩⟩
  rintro (_ | ⟨e, evt⟩) hpop
  · exact onRecvCbCleanup_receives _ _ _ _ fun sh w h => receives_after rfl (by simp) h
  obtain ⟨sh₂, w₂, h₂⟩ := hpop
  have ht : evt.type = .clientRead := pop_type h₂
  simp only [Code.wp_bind, Code.wp_modify, Code.wp_get, Code.wp_op, Code.wp_pure]
  have hpopped : ∀ sh w, ReceivedAfter n l (.eventFreePop .clientRead) (some (e, evt)) sh w →
      Receives sh { l with hand := some e } :=
    fun sh w h => (receives_after rfl (by simp) h).same rfl (fun _ => rfl) rfl
  refine ⟨fun sh w h _ => (hpopped sh w h).received.beforeSpare rfl, ?_⟩
  rintro ⟨rpos, len⟩ -
  have hl' : Linked { l with hand := some e } h i := ⟨hl.data, hl.priv⟩
  refine readyPush_receives (fun sh w h => ?_) ?_ ?_
  · have hspan := span_after h
    refine (receives_after rfl (by simp) h).received.before (by simp) (by simp) ?_
    rintro e' evt' b' he hb' -
    obtain ⟨-, rfl⟩ := Op.eventReadyPush.inj he
    obtain rfl : b = b' := Option.some.inj hb'
    exact ⟨by rw [← hspan.1], hspan.2⟩
  · simp only [Bool.not_false, if_true]
    refine onRecvCbCleanup_receives _ _ _ _ fun sh w h => ?_
    exact receives_after_refused (l := { l with hand := some e }) rfl (fun _ => rfl) rfl h
  · rintro sh w ha -
    refine Receives.received
      (receives_after_push (l := { l with hand := some e }) (h := h) rfl (fun h' => ?_) rfl ?_ ha)
    · exact heldBuffer_setLink (f := fun link => { link with readBuffer := none }) hl'.data hl'.priv rfl h'
    · exact .inl ⟨ht, b, rfl, hl'.held.trans hb⟩

theorem Linked.setLink (hl : Linked l h i) {f : Link → Link} (hf : (f (l.link i)).priv = (l.link i).priv) :
    Linked (l.setLink i f) h i where
  data := hl.data
  priv := by rw [Io.setLink_link_self, hf, hl.priv]

private theorem uvReadInto_receives {b len : Nat} (out : ReadOut) (hl : Linked l h i)
    (hb : (l.link i).readBuffer = some b)
    (hS : ∀ sh w, S sh w → Receives sh l ∧ len = (sh.buffers b).remaining) :
    KeepsReceived n S (uvReadInto h b len out) l := by
  have hS' : ∀ sh w, S sh w → Receives sh l := fun sh w h => (hS sh w h).1
  simp only [KeepsReceived, uvReadInto, Code.wp_ite]
  refine ⟨fun _ => onRecvCb_empty hl (by decide) hS', fun _ => ?_⟩
  cases out with
  | error err => exact onRecvCb_empty hl (by omega) hS'
  | empty => exact onRecvCb_empty hl (Int.le_refl 0) hS'
  | data bytes =>
    simp only [Code.wp_bind, Code.wp_op, Code.wp_modify]
    refine ⟨fun sh w h _ => ?_, fun _ _ => ?_⟩
    · obtain ⟨hr, hlen⟩ := hS sh w h
      refine hr.received.before (by simp) ?_ (by simp)
      intro b' bytes' he
      obtain ⟨rfl, rfl⟩ := Op.bufferStore.inj he
      have hroom := (hr.received.valid _ _ (hl.held.trans hb)).room
      have htake : (bytes.take len).length ≤ len := List.length_take_le ..
      simp only [Shared.counted] at hroom
      unfold Buffer.remaining at hlen
      omega
    · have hl' : Linked { l with received := Function.update l.received h (l.received h ++ bytes.take len) } h i :=
        ⟨hl.data, hl.priv⟩
      by_cases hempty : bytes.take len = []
      · rw [hempty] at hl' ⊢
        exact onRecvCb_empty hl' (Int.le_refl 0) fun sh w h => receives_after_store_nil h
      · exact onRecvCb_counts hl' hb (List.length_pos_iff.2 hempty) fun sh w h => received_after_store hl hb h

private theorem uvRead_receives (out : ReadOut) (hl : Linked l h i)
    (hopen : ∀ p ∈ l.pushed, p.evt.type = .clientClose → p.conn ≠ h) (hS : ∀ sh w, S sh w → Receives sh l) :
    KeepsReceived n S (uvRead h out) l := by
  -- from the room in the read buffer on
  have hinto : ∀ {S : Shared → View Main Op → Prop} {l : Io} {b len : Nat}, Linked l h i →
      (l.link i).readBuffer = some b → (∀ sh w, S sh w → Receives sh l) →
      KeepsReceived n (ReceivedAfter n l (.bufferRemaining b) len) (uvReadInto h b len out) l := by
    intro S l b len hl hb hS
    refine uvReadInto_receives out hl hb fun sh w h => ⟨receives_after rfl (by simp) h, ?_⟩
    obtain ⟨sh₀, -, -, -, he⟩ := h
    simp only [Op.exec, Option.some.injEq, Prod.mk.injEq] at he
    rw [← he.1, he.2]
  simp only [KeepsReceived, uvRead, onRecvAllocCb, getLink, modifyLink, Code.wp_bind, Code.wp_get, Code.wp_pure,
    hl.data]
  cases hb : (l.link i).readBuffer with
  | some b =>
    simp only [reduceCtorEq, if_false, Code.wp_bind, Code.wp_get, Code.wp_pure, hb, Code.wp_op]
    exact ⟨fun sh w h _ => (hS sh w h).received.beforeSpare rfl, fun len _ => hinto hl hb hS⟩
  | none =>
    simp only [if_true, Code.wp_bind, Code.wp_op]
    refine ⟨fun sh w h _ => (hS sh w h).received.before (by simp) (by simp) (by simp), ?_⟩
    rintro (_ | b) -
    · exact onRecvCb_empty hl (by decide) fun sh w h => receives_after_pop_none h
    · simp only [Code.wp_bind, Code.wp_modify, Code.wp_get, Code.wp_pure, Io.setLink_link_self, Code.wp_op]
      have hpopped := fun sh w (h : ReceivedAfter n l .poolReadPop (some b) sh w) => receives_after_pop hl hb hopen h
      refine ⟨fun sh w h _ => (hpopped sh w h).received.beforeSpare rfl, fun len _ => ?_⟩
      exact hinto (hl.setLink rfl) (by rw [Io.setLink_link_self]) hpopped

/-! ### Closes -/

private theorem releaseReadBuffer_receives {Q : (Shared → View Main Op → Prop) → Io → Unit → Prop} (hl : Linked l h i)
    (hS : ∀ sh w, S sh w → Receives sh l)
    (hQ : ∀ (S : Shared → View Main Op → Prop) (l' : Io), Linked l' h i → l'.heldBuffer h = none →
      (∀ sh w, S sh w → Receives sh l') → Q S l' ()) :
    (releaseReadBuffer i).wp Op.exec (Known n) (fun sh v _ => Received sh v)
      (fun sh v w => readsPushedBeforeClose.op₁ sh v w = true) S Q l := by
  simp only [releaseReadBuffer, getLink, modifyLink, Code.wp_bind, Code.wp_get, Code.wp_pure]
  cases hb : (l.link i).readBuffer with
  | none => exact hQ S l hl (hl.held.trans hb) hS
  | some b =>
    simp only [Code.wp_bind, Code.wp_op, Code.wp_modify]
    refine ⟨fun sh w h _ => (hS sh w h).received.before (by simp) (by simp) (by simp), fun _ _ => ?_⟩
    have hl' : Linked (l.setLink i fun link => { link with readBuffer := none }) h i := hl.setLink rfl
    refine hQ _ _ hl' ?_ fun sh w h => receives_after_return hl hb h
    rw [hl'.held, Io.setLink_link_self]

/-- `on_close_link_cb` keeps the received bytes, where the read buffer has no unread ones. -/
private theorem onCloseLinkCb_receives (hl : Linked l h i) (hS : ∀ sh w, S sh w → Receives sh l) :
    KeepsReceived n S (onCloseLinkCb h) l := by
  have hfree : ∀ {S : Shared → View Main Op → Prop} {l : Io}, (∀ sh w, S sh w → Receives sh l) →
      KeepsReceived n S (onCloseHandleCb h) l := fun hS => spares_keeps ((onCloseHandleCb_reads h).path _) hS
  simp only [KeepsReceived, onCloseLinkCb, getLink, modifyLink, Code.wp_bind, Code.wp_get, Code.wp_modify, hl.data]
  have hl₁ : Linked (l.setLink i fun link => { link with state := .closed }) h i := hl.setLink rfl
  have hS₁ : ∀ sh w, S sh w → Receives sh (l.setLink i fun link => { link with state := .closed }) := by
    refine fun sh w hs => (hS sh w hs).same rfl (fun h' => ?_) rfl
    rw [heldBuffer_setLink hl.data hl.priv rfl h', ← hl.held]
    split
    · rename_i he
      rw [he]
    · rfl
  refine releaseReadBuffer_receives hl₁ hS₁ fun S l₂ hl₂ hnone hS₂ => ?_
  simp only [Code.wp_op]
  refine ⟨fun sh w h _ => (hS₂ sh w h).received.beforeSpare rfl, ?_⟩
  rintro (_ | ⟨e, evtClose⟩) ⟨sh₃, w₃, h₃⟩
  · exact hfree fun sh w h => receives_after rfl (by simp) h
  have ht : evtClose.type = .clientClose := pop_type h₃
  simp only [Code.wp_bind, Code.wp_modify, Code.wp_get, Code.wp_pure]
  have hpopped : ∀ sh w, ReceivedAfter n l₂ (.eventFreePop .clientClose) (some (e, evtClose)) sh w →
      Receives sh { l₂ with hand := some e } :=
    fun sh w h => (receives_after rfl (by simp) h).same rfl (fun _ => rfl) rfl
  have hend : ∀ {S : Shared → View Main Op → Prop} {l : Io}, (∀ sh w, S sh w → Receives sh l) →
      KeepsReceived n S (do closeLink i; onCloseHandleCb h) l :=
    fun hS => spares_keeps ((Code.Within.bind (closeLink_reads i) fun _ => onCloseHandleCb_reads h).path _) hS
  refine readyPush_receives (fun sh w h => ?_) (hend fun sh w h => ?_) (hend fun sh w h => ?_)
  · refine (hpopped sh w h).received.before (by simp) (by simp) ?_
    rintro e' evt' b he - ht'
    obtain ⟨-, rfl⟩ := Op.eventReadyPush.inj he
    exact absurd (ht.symm.trans ht') (by simp)
  · exact receives_after_refused (l := { l₂ with hand := some e }) rfl (fun _ => rfl) rfl h
  · refine receives_after_push (l := { l₂ with hand := some e }) rfl (fun h' => ?_) rfl (.inr ⟨by simp [ht], hnone⟩) h
    show l₂.heldBuffer h' = if h' = _ then none else l₂.heldBuffer h'
    split
    · rename_i he
      rw [he, hnone]
    · rfl

private theorem uvFinishClose_receives (hl : (l.handles h).closing = some .link → ∃ i, Linked l h i)
    (hS : ∀ sh w, S sh w → Receives sh l) : KeepsReceived n S (uvFinishClose h) l := by
  have hS₁ : ∀ sh w, S sh w → Receives sh (l.setHandle h fun x => { x with closed := true }) := by
    refine fun sh w hs => (hS sh w hs).same rfl (fun h' => ?_) rfl
    have hdata : ((l.setHandle h fun x => { x with closed := true }).handles h').data = (l.handles h').data := by
      by_cases he : h' = h
      · subst he
        rw [Io.setHandle_handles_self]
      · rw [show (l.setHandle h _).handles h' = l.handles h' from Function.update_of_ne he _ _]
    simp only [Io.heldBuffer, hdata]
    rfl
  simp only [KeepsReceived, uvFinishClose, Code.wp_bind, Code.wp_modify, Code.wp_get, Io.setHandle_handles_self]
  split
  · rename_i hc
    obtain ⟨i, hi⟩ := hl hc
    exact onCloseLinkCb_receives ⟨by simpa using hi.data, hi.priv⟩ hS₁
  · exact spares_keeps ((onCloseHandleCb_reads h).path _) hS₁
  · exact fun sh w h _ => (hS₁ sh w h).received

/-- All that the IO thread is given to run keeps the received bytes. -/
private theorem IoRun.receives {d : IoRun} {sh₀ : Shared} (hi : IoInv n ⟨False, False, False⟩ l)
    (hcor : Correlation False l) (hr : d.ready sh₀ l = true) (hS : ∀ sh w, S sh w → Receives sh l) :
    KeepsReceived n S d.code l := by
  cases d with
  | read handle out =>
    simp only [IoRun.ready, Bool.and_eq_true, decide_eq_true_eq] at hr
    obtain ⟨i, hh, hopen⟩ := hi.slots.reading handle hr.2
    refine uvRead_receives out ⟨hh.data, (hi.slots.holds handle i hh).2.2⟩ (fun p hp ht he => ?_) hS
    exact ((hcor.events p hp).closes ht).1 (he ▸ hopen)
  | close handle =>
    simp only [IoRun.ready, Bool.and_eq_true, decide_eq_true_eq, Bool.not_eq_true'] at hr
    refine uvFinishClose_receives (fun hc => ?_) hS
    obtain ⟨i, hh⟩ := hi.slots.link_cb handle hc hr.2.2
    exact ⟨i, hh.data, (hi.slots.holds handle i hh).2.2⟩
  | _ => exact spares_keeps (IoRun.stays_reads hi.slots (by simp) (by simp)) hS

end IoThread

/-! ### Over whole runs -/

/-- The operations of the main thread change neither read buffers nor the history of the ready list. -/
theorem Op.exec_byMain {r : o.Res} (ho : o.byMain = true) (he : o.exec sh = some (r, sh')) :
    sh'.buffers = sh.buffers ∧ sh'.readied = sh.readied := by
  have hp : ∀ e evt, o ≠ .eventReadyPush e evt := by
    rintro e evt rfl
    simp [Op.byMain] at ho
  refine ⟨?_, Op.exec_readied hp he⟩
  cases o <;> simp only [Op.byMain, Bool.false_eq_true] at ho <;> simp only [Op.exec] at he
  all_goals
    first
    | (obtain ⟨-, rfl⟩ := Prod.mk.inj (Option.some.inj he); rfl)
    | (split at he <;> first
        | (obtain ⟨-, rfl⟩ := Prod.mk.inj (Option.some.inj he); rfl)
        | (split at he <;> first
            | (obtain ⟨-, rfl⟩ := Prod.mk.inj (Option.some.inj he); rfl)
            | simp at he))

theorem received {c : ServiceConfig} (hc : ReachWhen readsPushedBeforeClose n c) : Received c.sh c.fst.view := by
  have hE : Premises.In ⟨False, False, False⟩ readsPushedBeforeClose :=
    ⟨False.elim, False.elim, False.elim, False.elim⟩
  refine Machine.Reach.invariant (K := Known n) (J := fun sh v _ => Received sh v)
    (fun c hc => ⟨ioInv hE hc, correlation False.elim hc, in_sync hc⟩) ?_ ?_ ?_ hc
  · refine ⟨fun h => ?_, ?_, ?_, by simp, by simp, ?_⟩ <;> simp [Io.setup, Io.heldBuffer, readBytes]
  · rintro d io ⟨sh₀, w₀, ⟨⟨hi, -⟩, hcor, hsync⟩, -, hr, -⟩
    exact IoRun.receives hi hcor hr fun sh w h => ⟨h.2.1, h.1.2.2⟩
  · refine fun call => call.keeps (J := fun sh v => Received sh v) fun {sh sh' o r v} ho hr he => ?_
    obtain ⟨hbuf, hread⟩ := Op.exec_byMain ho he
    have hcounted : sh'.counted = sh.counted := by
      funext next b
      simp only [Shared.counted, hbuf]
    refine ⟨?_, hr.apart, ?_, ?_, ?_, hr.closed⟩
    · rw [hcounted, hread]
      exact hr.bytes
    · rw [hcounted]
      exact hr.valid
    · rw [hbuf]
      exact hr.storing
    · rw [hbuf]
      exact hr.pushing

/-- When the `CLOSE` event of a connection is pushed, and from then on, its `READ` events have each byte that was
received on it once and in order. -/
theorem no_byte_lost {c : ServiceConfig} (hc : ReachWhen readsPushedBeforeClose n c) {p : Pushed}
    (hp : p ∈ c.fst.view.loc.pushed) (ht : p.evt.type = .clientClose) :
    readBytes c.sh.readied c.fst.view.loc.pushed p.conn = c.fst.view.loc.received p.conn := by
  have hr := received hc
  rw [hr.bytes p.conn, hr.closed p hp ht, Option.elim_none, List.append_nil]

/-- Steps of a client from its `OPEN` event on: three reads take all events that are left, so that the fourth one finds
none, and then the main thread releases all four. -/
def readWithoutEvent : List (Act IoRun MainCall) :=
  .flatten [startUp, [.run₁ (.inbound 0 {}), .op₁, .op₁], .run₁ (.read 5 (.data [1])) :: .replicate 7 .op₁,
    .run₁ (.read 5 (.data [2])) :: .replicate 7 .op₁, .run₁ (.read 5 (.data [3])) :: .replicate 7 .op₁,
    .run₁ (.read 5 (.data [9])) :: .replicate 5 .op₁,
    .run₂ .eventsAcquire :: .op₂ :: .run₂ .eventsRelease :: .replicate 11 .op₂]

/-- The fifth read pushes the bytes of the fourth one before the connection closes. -/
theorem no_byte_lost_fifth : ∃ c, ReachWhen readsPushedBeforeClose 1 c ∧
    c.fst.view.loc.received 5 = [1, 2, 3, 9, 10] ∧
    readBytes c.sh.readied c.fst.view.loc.pushed 5 = c.fst.view.loc.received 5 := by
  obtain ⟨c, hc, hr, hclose⟩ := exists_reachWhen readsPushedBeforeClose 1
    (.flatten [readWithoutEvent, .run₁ (.read 5 (.data [10])) :: .replicate 6 .op₁,
      [.run₁ (.read 5 (.error 0)), .op₁, .op₁, .run₁ (.close 5), .op₁, .op₁, .op₁]])
    (fun c => c.fst.view.loc.received 5 = [1, 2, 3, 9, 10] ∧
      ∃ p ∈ c.fst.view.loc.pushed, p.conn = 5 ∧ p.evt.type = .clientClose) (by decide +kernel)
  obtain ⟨p, hp, hconn, ht⟩ := hclose
  exact ⟨c, hc, hr, hconn ▸ no_byte_lost hc hp ht⟩

/-- The connection closes right after the fourth read: its byte goes back to the pool with the read buffer. -/
theorem byte_lost : ∃ c, Reach 1 c ∧ WasOpened c.fst.view.loc.pushed 5 ∧
    (∃ p ∈ c.fst.view.loc.pushed, p.conn = 5 ∧ p.evt.type = .clientClose) ∧
    c.fst.view.loc.received 5 = [1, 2, 3, 9] ∧ readBytes c.sh.readied c.fst.view.loc.pushed 5 = [1, 2, 3] := by
  obtain ⟨c, hc, h⟩ := exists_reachWhen .any 1
    (.flatten [readWithoutEvent, [.run₁ (.read 5 (.error 0)), .op₁, .run₁ (.close 5), .op₁, .op₁, .op₁]])
    (fun c => WasOpened c.fst.view.loc.pushed 5 ∧
      (∃ p ∈ c.fst.view.loc.pushed, p.conn = 5 ∧ p.evt.type = .clientClose) ∧
      c.fst.view.loc.received 5 = [1, 2, 3, 9] ∧ readBytes c.sh.readied c.fst.view.loc.pushed 5 = [1, 2, 3])
    (by decide +kernel)
  exact ⟨c, hc, h⟩

end ServerLynx
