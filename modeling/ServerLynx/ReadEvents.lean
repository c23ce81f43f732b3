import ServerLynx.Received

/-!
# The bytes of a `READ` event

What libuv stores fits in the read buffer it was given, so that `tn_buffer_add_length` never fails in `on_recv_cb`; and
the span that a `READ` event names when it is pushed is that of all bytes in its read buffer.  Both hold in every run,
whatever the main thread does with the events and the read buffers it gives back: only the IO thread writes to a read
buffer.
-/

namespace ServerLynx

open Threads

/-- The event names exactly the unread bytes of the read buffer `b`, which nobody has begun to read. -/
structure Event.NamesBytes (evt : Event) (sh : Shared) (b : Nat) : Prop where
  priv : evt.priv = some b
  buffer : evt.buffer = .readBuf b (sh.buffers b).rpos
  len : evt.len = (sh.buffers b).readLength
  bytes : sh.message evt.buffer evt.len = (sh.buffers b).unread
  start : (sh.buffers b).rpos = 0

/-- The bytes that the event pointed to when it was pushed are as many as it says, at most as many as a read buffer
holds, and start where its read buffer starts. -/
structure Readied.TellsBytes (r : Readied) : Prop where
  buffer : ∃ b, r.evt.priv = some b ∧ r.evt.buffer = .readBuf b 0
  len : r.evt.len ≤ serviceMaxRecv
  bytes : r.bytes.length = r.evt.len

/-- A read buffer of which nobody has read with the calls of `link.c`. -/
structure Buffer.Filling (b : Buffer) : Prop extends Buffer.Valid b where
  start : b.rpos = 0

/-- The bytes fit that libuv is about to store, and those that are about to be counted were stored. -/
structure ReadsFit (sh : Shared) (v : View Io Op) : Prop where
  buffers : ∀ b, (sh.counted v.next b).Filling
  storing : ∀ b bytes, v.next = some (.bufferStore b bytes) → (sh.buffers b).wpos + bytes.length ≤ serviceMaxRecv
  counting : ∀ b k, v.next = some (.bufferAddLength b k) → ((sh.buffers b).addLength k).isSome = true
  pushing : ∀ e evt, v.next = some (.eventReadyPush e evt) → evt.type = .clientRead → ∃ b, evt.NamesBytes sh b
  readied : ∀ r ∈ sh.readied, r.evt.type = .clientRead → r.TellsBytes

/-- Between two operations of the IO thread. -/
structure Fitting (sh : Shared) : Prop where
  buffers : ∀ b, (sh.buffers b).Filling
  readied : ∀ r ∈ sh.readied, r.evt.type = .clientRead → r.TellsBytes

variable {n : Nat} {sh sh' : Shared} {io l : Io} {v : View Io Op} {w : View Main Op} {h i : Nat} {o : Op}

theorem Buffer.filling_reset (b : Buffer) : b.reset.Filling := ⟨b.valid_reset, rfl⟩

theorem Event.NamesBytes.tellsBytes {evt : Event} {b : Nat} (h : evt.NamesBytes sh b) (hb : (sh.buffers b).Filling) :
    (⟨evt, sh.message evt.buffer evt.len⟩ : Readied).TellsBytes where
  buffer := ⟨b, h.priv, h.start ▸ h.buffer⟩
  len := by
    have hroom := hb.room
    rw [h.len, Buffer.readLength]
    omega
  bytes := by rw [h.bytes, h.len, Buffer.length_unread hb.toValid]

theorem Fitting.ended (hf : Fitting sh) (l : Io) : ReadsFit sh ⟨l, none⟩ :=
  ⟨fun b => hf.buffers b, by simp, by simp, by simp, hf.readied⟩

/-- Before an operation that neither writes to a read buffer nor pushes a `READ` event. -/
theorem Fitting.before (hf : Fitting sh) (l : Io) (hs : ∀ b bytes, o ≠ .bufferStore b bytes)
    (hc : ∀ b k, o ≠ .bufferAddLength b k) (hp : ∀ e evt, o = .eventReadyPush e evt → evt.type ≠ .clientRead) :
    ReadsFit sh ⟨l, some o⟩ where
  buffers b := by
    rw [counted_of_ne fun b k he => hc b k (Option.some.inj he)]
    exact hf.buffers b
  storing b bytes he := absurd (Option.some.inj he) (hs b bytes)
  counting b k he := absurd (Option.some.inj he) (hc b k)
  pushing e evt he ht := absurd ht (hp e evt (Option.some.inj he))
  readied := hf.readied

theorem Fitting.beforeSpare (hf : Fitting sh) (l : Io) (ho : o.sparesReads = true) : ReadsFit sh ⟨l, some o⟩ := by
  refine hf.before l ?_ ?_ ?_
  · rintro b bytes rfl
    simp [Op.sparesReads] at ho
  · rintro b k rfl
    simp [Op.sparesReads] at ho
  · rintro e evt rfl ht
    simp [Op.sparesReads, ht] at ho

/-- An operation that neither counts bytes nor writes to a read buffer; what it pushes was told to be right. -/
theorem ReadsFit.step (hj : ReadsFit sh ⟨l, some o⟩) {r : o.Res} (hc : ∀ b k, o ≠ .bufferAddLength b k)
    (hb : ∀ b, sh'.buffers b = sh.buffers b ∨ (sh'.buffers b).Filling) (he : o.exec sh = some (r, sh')) :
    Fitting sh' where
  buffers b := by
    have hold := hj.buffers b
    rw [counted_of_ne fun b k he => hc b k (Option.some.inj he)] at hold
    exact (hb b).elim (fun h => h ▸ hold) id
  readied := by
    by_cases hp : ∃ e evt, o = .eventReadyPush e evt
    · obtain ⟨e, evt, rfl⟩ := hp
      simp only [Op.exec] at he
      split at he <;> obtain ⟨-, rfl⟩ := Prod.mk.inj (Option.some.inj he)
      · intro x hx ht
        rcases List.mem_append.1 hx with hx | hx
        · exact hj.readied x hx ht
        · obtain rfl := List.mem_singleton.1 hx
          obtain ⟨b, hnames⟩ := hj.pushing e evt rfl ht
          have hb := hj.buffers b
          rw [counted_of_ne (by simp)] at hb
          exact hnames.tellsBytes hb
      · exact hj.readied
    · rw [Op.exec_readied (fun e evt h => hp ⟨e, evt, h⟩) he]
      exact hj.readied

/-! ### The IO thread -/

section IoThread

variable {S : Shared → View Main Op → Prop}

private abbrev KnownIo (n : Nat) (_ : Shared) (v : View Io Op) (_ : View Main Op) : Prop :=
  IoInv n ⟨False, False, False⟩ v.loc ∧ (v.next = none → Settled v.loc)

private abbrev Always (sh : Shared) (v : View Io Op) (w : View Main Op) : Prop :=
  (Cond.any : ServiceCond).op₁ sh v w = true

private abbrev KeepsFit (n : Nat) (S : Shared → View Main Op → Prop) (m : IoM Unit) (l : Io) : Prop :=
  m.wp Op.exec (KnownIo n) (fun sh v _ => ReadsFit sh v) Always S (Post (KnownIo n) fun sh v _ => ReadsFit sh v) l

private abbrev FitAfter (n : Nat) (l : Io) (o : Op) (r : o.Res) : Shared → View Main Op → Prop :=
  After Op.exec (KnownIo n) (fun sh v _ => ReadsFit sh v) Always l o r

private theorem spares_fit {m : IoM Unit} (hm : StaysReads l m l) (hS : ∀ sh w, S sh w → Fitting sh) :
    KeepsFit n S m l := by
  refine Prog.wp_mono (fun S l' _ h sh w hs _ => (h.1 sh w hs).ended l') (Prog.wp_of_path (R := fun sh _ => Fitting sh)
    (fun ho _ hf => hf.beforeSpare _ ho.1) ?_ hm hS)
  intro sh sh' l' o r w ho _ hj he
  refine hj.step ?_ (fun b => .inl (congrFun (Op.exec_spares ho.1 he).1 b)) he
  rintro b k rfl
  simp [Op.sparesReads] at ho

private theorem fit_after {r : o.Res} (hc : ∀ b k, o ≠ .bufferAddLength b k)
    (hb : ∀ {sh sh' : Shared}, o.exec sh = some (r, sh') → sh'.buffers = sh.buffers) (h : FitAfter n l o r sh w) :
    Fitting sh := by
  obtain ⟨sh₀, -, hj, -, he⟩ := h
  exact hj.step hc (fun b => .inl (congrFun (hb he) b)) he

private theorem fit_after_spare {r : o.Res} (ho : o.sparesReads = true) (h : FitAfter n l o r sh w) : Fitting sh := by
  refine fit_after ?_ (fun he => (Op.exec_spares ho he).1) h
  rintro b k rfl
  simp [Op.sparesReads] at ho

/-- A read buffer that the pool hands out is empty. -/
private theorem fit_after_pool_pop {r : Option Nat} (h : FitAfter n l .poolReadPop r sh w) : Fitting sh := by
  obtain ⟨sh₀, -, hj, -, he⟩ := h
  refine hj.step (by simp) (fun b => ?_) he
  simp only [Op.exec] at he
  split at he <;> obtain ⟨-, rfl⟩ := Prod.mk.inj (Option.some.inj he)
  · exact .inl rfl
  · rename_i b' bs hpool
    by_cases hne : b = b'
    · subst hne
      exact .inr (by simpa using Buffer.filling_reset _)
    · exact .inl (Function.update_of_ne hne _ _)

private theorem fit_after_push {e : Nat} {evt : Event} {r : Bool} (h : FitAfter n l (.eventReadyPush e evt) r sh w) :
    Fitting sh := by
  refine fit_after (by simp) (fun he => ?_) h
  simp only [Op.exec] at he
  split at he <;> obtain ⟨-, rfl⟩ := Prod.mk.inj (Option.some.inj he) <;> rfl

private theorem fit_after_pool_push {b : Nat} {r : Bool} (h : FitAfter n l (.poolReadPush b) r sh w) : Fitting sh := by
  refine fit_after (by simp) (fun he => ?_) h
  simp only [Op.exec] at he
  split at he <;> obtain ⟨-, rfl⟩ := Prod.mk.inj (Option.some.inj he) <;> rfl

private theorem fit_after_store {b : Nat} {bytes : List UInt8} (h : FitAfter n l (.bufferStore b bytes) () sh w)
    (l' : Io) : ReadsFit sh ⟨l', some (.bufferAddLength b bytes.length)⟩ := by
  obtain ⟨sh₀, -, hj, -, he⟩ := h
  simp only [Op.exec, Option.some.injEq, Prod.mk.injEq, true_and] at he
  subst he
  have hold : (sh₀.buffers b).Filling := hj.buffers b
  have hroom := hj.storing b bytes rfl
  have happend : (sh₀.buffers b).append bytes =
      some { (sh₀.buffers b).store bytes with wpos := (sh₀.buffers b).wpos + bytes.length } :=
    Buffer.append_eq_some.2 ⟨hroom, rfl⟩
  refine ⟨fun b' => ?_, by simp, fun b' k he => ?_, by simp, hj.readied⟩
  · by_cases hne : b' = b
    · subst hne
      have hnew : Buffer.Filling { (sh₀.buffers b').store bytes with wpos := (sh₀.buffers b').wpos + bytes.length } :=
        ⟨hold.toValid.append happend, hold.start⟩
      simpa [Shared.counted, Buffer.store] using hnew
    · simpa [Shared.counted, Function.update_of_ne hne, Ne.symm hne] using (hj.buffers b' : (sh₀.buffers b').Filling)
  · obtain ⟨rfl, rfl⟩ := Op.bufferAddLength.inj (Option.some.inj he)
    simpa [Buffer.addLength, Buffer.store] using hroom

private theorem fit_after_count {b k : Nat} {r : Bool} (h : FitAfter n l (.bufferAddLength b k) r sh w) :
    r = true ∧ Fitting sh := by
  obtain ⟨sh₀, -, hj, -, he⟩ := h
  obtain ⟨buf, hbuf⟩ := Option.isSome_iff_exists.1 (hj.counting b k rfl)
  simp only [Op.exec, hbuf, Option.some.injEq, Prod.mk.injEq] at he
  obtain ⟨rfl, rfl⟩ := he
  refine ⟨rfl, fun b' => ?_, hj.readied⟩
  have hnew := hj.buffers b'
  by_cases hne : b' = b
  · subst hne
    obtain ⟨-, rfl⟩ := (Option.ite_some_none_eq_some).1 hbuf
    simpa [Shared.counted] using hnew
  · simpa [Shared.counted, Function.update_of_ne hne, Ne.symm hne] using hnew

private theorem onRecvCb_empty_fit {nread : Int} (hn : nread ≤ 0) (hd : (l.handles h).data = some i)
    (hS : ∀ sh w, S sh w → Fitting sh) : KeepsFit n S (onRecvCb h nread) l := by
  simp only [KeepsFit, onRecvCb, Code.wp_bind, Code.wp_get, hd, Code.wp_ite]
  refine ⟨fun _ => spares_fit ((onRecvCbCleanup_reads ..).path l) hS,
    fun _ => ⟨fun _ => spares_fit ((onRecvCbCleanup_reads ..).path l) hS, fun _ => ?_⟩⟩
  omega

private theorem onRecvCb_counts_fit {b k : Nat} (hd : (l.handles h).data = some i)
    (hb : (l.link i).readBuffer = some b) (hk : 0 < k)
    (hS : ∀ sh w, S sh w → ReadsFit sh ⟨l, some (.bufferAddLength b k)⟩) : KeepsFit n S (onRecvCb h k) l := by
  simp only [KeepsFit, onRecvCb, getLink, readyPush, modifyLink, Code.wp_bind, Code.wp_get, Code.wp_pure, hd,
    Code.wp_ite, hb, Code.wp_op, Int.toNat_natCast]
  refine ⟨fun _ => by omega, fun _ => ⟨fun _ => by omega, fun _ => ⟨fun sh w h _ => hS sh w h, ?_⟩⟩⟩
  rintro added ⟨sh₁, w₁, h₁⟩
  obtain rfl := (fit_after_count h₁).1
  refine ⟨fun hf => absurd hf (by simp), fun _ => ⟨fun sh w h _ => (fit_after_count h).2.beforeSpare _ rfl, ?_⟩⟩
  rintro (_ | ⟨e, evt⟩) -
  · exact spares_fit ((onRecvCbCleanup_reads ..).path l) fun sh w h => fit_after_spare rfl h
  simp only [Code.wp_bind, Code.wp_modify, Code.wp_get, Code.wp_pure, Code.wp_op, Code.wp_ite]
  refine ⟨fun sh w h _ => (fit_after_spare rfl h).beforeSpare _ rfl, ?_⟩
  rintro ⟨rpos, len⟩ -
  refine ⟨fun sh w h _ => ?_, fun pushed _ => ⟨fun _ => ?_, fun _ sh w h _ => (fit_after_push h).ended _⟩⟩
  · have hf : Fitting sh := fit_after_spare rfl h
    obtain ⟨sh₀, -, -, -, he⟩ := h
    simp only [Op.exec, Option.some.injEq, Prod.mk.injEq] at he
    obtain ⟨⟨rfl, rfl⟩, rfl⟩ := he
    refine ⟨fun b' => ?_, by simp, by simp, ?_, hf.readied⟩
    · rw [counted_of_ne (by simp)]
      exact hf.buffers b'
    · intro e' evt' he ht
      obtain ⟨-, rfl⟩ := Op.eventReadyPush.inj (Option.some.inj he)
      exact ⟨b, rfl, rfl, rfl, rfl, (hf.buffers b).start⟩
  · exact spares_fit ((onRecvCbCleanup_reads ..).path _) fun sh w h => fit_after_push h

/-- libuv reads into the read buffer of the connection, which has room for `len` bytes. -/
private theorem uvReadInto_fit {b len : Nat} (out : ReadOut) (hd : (l.handles h).data = some i)
    (hb : (l.link i).readBuffer = some b) (hS : ∀ sh w, S sh w → Fitting sh ∧ len = (sh.buffers b).remaining) :
    KeepsFit n S (uvReadInto h b len out) l := by
  have hS' : ∀ sh w, S sh w → Fitting sh := fun sh w h => (hS sh w h).1
  simp only [KeepsFit, uvReadInto, Code.wp_ite]
  refine ⟨fun _ => onRecvCb_empty_fit (by decide) hd hS', fun _ => ?_⟩
  cases out with
  | error err => exact onRecvCb_empty_fit (by omega) hd hS'
  | empty => exact onRecvCb_empty_fit (Int.le_refl 0) hd hS'
  | data bytes =>
    simp only [Code.wp_bind, Code.wp_op, Code.wp_modify]
    refine ⟨fun sh w h _ => ?_, fun _ _ => ?_⟩
    · obtain ⟨hf, hlen⟩ := hS sh w h
      refine ⟨fun b' => ?_, fun b' bytes' he => ?_, by simp, by simp, hf.readied⟩
      · rw [counted_of_ne (by simp)]
        exact hf.buffers b'
      · obtain ⟨rfl, rfl⟩ := Op.bufferStore.inj (Option.some.inj he)
        have hroom := (hf.buffers b).room
        have htake : (bytes.take len).length ≤ len := List.length_take_le ..
        unfold Buffer.remaining at hlen
        omega
    · by_cases hempty : bytes.take len = []
      · rw [hempty]
        refine onRecvCb_empty_fit (Int.le_refl 0) hd fun sh w h => ?_
        have hcount := fit_after_store h l
        refine ⟨fun b' => ?_, hcount.readied⟩
        have hnew := hcount.buffers b'
        simpa [Shared.counted] using hnew
      · exact onRecvCb_counts_fit hd hb (List.length_pos_iff.2 hempty) fun sh w h => fit_after_store h _

/-- A read of libuv keeps to the read buffer. -/
private theorem uvRead_fit (out : ReadOut) (hd : (l.handles h).data = some i) (hS : ∀ sh w, S sh w → Fitting sh) :
    KeepsFit n S (uvRead h out) l := by
  -- from the room in the read buffer on
  have hinto : ∀ {S : Shared → View Main Op → Prop} {l : Io} {b len : Nat}, (l.handles h).data = some i →
      (l.link i).readBuffer = some b →
      KeepsFit n (FitAfter n l (.bufferRemaining b) len) (uvReadInto h b len out) l := by
    intro S l b len hd hb
    refine uvReadInto_fit out hd hb fun sh w h => ⟨fit_after_spare rfl h, ?_⟩
    obtain ⟨sh₀, -, -, -, he⟩ := h
    simp only [Op.exec, Option.some.injEq, Prod.mk.injEq] at he
    rw [← he.1, he.2]
  simp only [KeepsFit, uvRead, onRecvAllocCb, getLink, modifyLink, Code.wp_bind, Code.wp_get, Code.wp_pure, hd]
  cases hb : (l.link i).readBuffer with
  | some b =>
    simp only [reduceCtorEq, if_false, Code.wp_bind, Code.wp_get, Code.wp_pure, hb, Code.wp_op]
    exact ⟨fun sh w h _ => (hS sh w h).beforeSpare _ rfl, fun len _ => hinto (S := S) hd hb⟩
  | none =>
    simp only [if_true, Code.wp_bind, Code.wp_op]
    refine ⟨fun sh w h _ => (hS sh w h).before _ (by simp) (by simp) (by simp), ?_⟩
    rintro (_ | b) -
    · exact onRecvCb_empty_fit (by decide) hd fun sh w h => fit_after_pool_pop h
    · simp only [Code.wp_bind, Code.wp_modify, Code.wp_get, Code.wp_pure, Io.setLink_link_self, Code.wp_op]
      refine ⟨fun sh w h _ => (fit_after_pool_pop h).beforeSpare _ rfl, fun len _ => ?_⟩
      exact hinto (S := S) hd (by rw [Io.setLink_link_self])

private theorem closeLink_fit (j h : Nat) (hS : ∀ sh w, S sh w → Fitting sh) :
    KeepsFit n S (do closeLink j; onCloseHandleCb h) l :=
  spares_fit ((Code.Within.bind (closeLink_reads j) fun _ => onCloseHandleCb_reads h).path _) hS

private theorem closePush_fit (e j h : Nat) {evt : Event} (ht : evt.type = .clientClose)
    (hS : ∀ sh w, S sh w → Fitting sh) : KeepsFit n S (do
      let _ ← readyPush e evt h
      closeLink j
      onCloseHandleCb h) l := by
  simp only [KeepsFit, readyPush, Code.wp_bind, Code.wp_op, Code.wp_modify, Code.wp_pure]
  refine ⟨fun sh w h _ => (hS sh w h).before _ (by simp) (by simp) ?_, fun pushed _ => ?_⟩
  · rintro e' evt' he ht'
    obtain ⟨-, rfl⟩ := Op.eventReadyPush.inj he
    exact absurd (ht.symm.trans ht') (by simp)
  · exact closeLink_fit j h fun sh w h => fit_after_push h

private theorem closeEvent_fit (h i : Nat) (hS : ∀ sh w, S sh w → Fitting sh) : KeepsFit n S (do
    let some (e, evtClose) ← perform (.eventFreePop .clientClose) | onCloseHandleCb h
    modify fun io => { io with hand := some e }
    let link ← getLink i
    let _ ← readyPush e { evtClose with clientId := link.id, errorCode := 0, cmdId := link.cmdCloseId } h
    closeLink i
    onCloseHandleCb h) l := by
  simp only [KeepsFit, Code.wp_bind, Code.wp_op]
  refine ⟨fun sh w h _ => (hS sh w h).beforeSpare _ rfl, ?_⟩
  rintro (_ | ⟨e, evtClose⟩) ⟨sh₁, w₁, sh₀, -, -, -, he⟩
  · exact spares_fit ((onCloseHandleCb_reads h).path l) fun sh w h => fit_after_spare rfl h
  have ht : evtClose.type = .clientClose := by
    simp only [Op.exec] at he
    split at he
    · simp at he
    · simp only [Option.some.injEq, Prod.mk.injEq] at he
      rw [← he.1.2]
  simp only [getLink, Code.wp_bind, Code.wp_modify, Code.wp_get, Code.wp_pure]
  exact closePush_fit e i h ht fun sh w h => fit_after_spare rfl h

/-- A close pushes no `READ` event. -/
private theorem uvFinishClose_fit (hc : (l.handles h).closing = some .link → (l.handles h).data = some i)
    (hS : ∀ sh w, S sh w → Fitting sh) : KeepsFit n S (uvFinishClose h) l := by
  simp only [KeepsFit, uvFinishClose, Code.wp_bind, Code.wp_modify, Code.wp_get, Io.setHandle_handles_self]
  split
  · rename_i hcb
    simp only [onCloseLinkCb, releaseReadBuffer, getLink, modifyLink, Code.wp_bind, Code.wp_get, Code.wp_modify,
      Code.wp_pure, Io.setHandle_handles_self, hc hcb]
    cases ((l.setHandle h fun x => { x with closed := true }).setLink i fun link => { link with
        state := .closed }).link i |>.readBuffer with
    | none => exact closeEvent_fit h i hS
    | some b =>
      simp only [Code.wp_bind, Code.wp_op, Code.wp_modify]
      refine ⟨fun sh w h _ => (hS sh w h).before _ (by simp) (by simp) (by simp), fun _ _ => ?_⟩
      exact closeEvent_fit h i fun sh w h => fit_after_pool_push h
  · exact spares_fit ((onCloseHandleCb_reads h).path _) hS
  · exact fun sh w hs _ => (hS sh w hs).ended _

private theorem IoRun.fit {d : IoRun} {sh₀ : Shared} (hi : IoInv n ⟨False, False, False⟩ l)
    (hr : d.ready sh₀ l = true) (hS : ∀ sh w, S sh w → Fitting sh) : KeepsFit n S d.code l := by
  cases d with
  | read handle out =>
    simp only [IoRun.ready, Bool.and_eq_true, decide_eq_true_eq] at hr
    obtain ⟨i, hh, -⟩ := hi.slots.reading handle hr.2
    exact uvRead_fit out hh.data hS
  | close handle =>
    simp only [IoRun.ready, Bool.and_eq_true, decide_eq_true_eq, Bool.not_eq_true'] at hr
    by_cases hc : (l.handles handle).closing = some .link
    · obtain ⟨i, hh⟩ := hi.slots.link_cb handle hc hr.2.2
      exact uvFinishClose_fit (fun _ => hh.data) hS
    · exact uvFinishClose_fit (i := 0) (fun h => absurd h hc) hS
  | _ => exact spares_fit (IoRun.stays_reads hi.slots (by simp) (by simp)) hS

end IoThread

/-! ### Over whole runs -/

theorem readsFit {c : ServiceConfig} (hc : Reach n c) : ReadsFit c.sh c.fst.view := by
  have hE : Premises.In ⟨False, False, False⟩ .any := ⟨False.elim, False.elim, False.elim, False.elim⟩
  refine Machine.Reach.invariant (K := KnownIo n) (J := fun sh v _ => ReadsFit sh v) (fun c hc => ioInv hE hc)
    ?_ ?_ ?_ hc
  · have hempty : ({} : Buffer).Filling := ⟨⟨Nat.le_refl 0, Nat.le_refl 0, Nat.zero_le _⟩, rfl⟩
    exact Fitting.ended ⟨fun _ => hempty, by simp [Shared.setup]⟩ _
  · rintro d io ⟨sh₀, w₀, ⟨hi, -⟩, -, hr, -⟩
    refine IoRun.fit hi hr fun sh w h => ?_
    have hj := h.2.1
    exact ⟨fun b => hj.buffers b, hj.readied⟩
  · refine fun call => call.keeps (J := fun sh v => ReadsFit sh v) fun {sh sh' o r v} ho hj he => ?_
    obtain ⟨hbuf, hread⟩ := Op.exec_byMain ho he
    have hcounted : sh'.counted = sh.counted := by
      funext next b
      simp only [Shared.counted, hbuf]
    have hmessage : sh'.message = sh.message := by
      funext p len
      cases p <;> simp only [Shared.message, hbuf]
    refine ⟨?_, ?_, ?_, ?_, ?_⟩
    · rw [hcounted]
      exact hj.buffers
    · rw [hbuf]
      exact hj.storing
    · rw [hbuf]
      exact hj.counting
    · intro e evt hn ht
      obtain ⟨b, h₁, h₂, h₃, h₄, h₅⟩ := hj.pushing e evt hn ht
      refine ⟨b, h₁, ?_, ?_, ?_, ?_⟩
      all_goals rw [hbuf]
      · exact h₂
      · exact h₃
      · rw [hmessage]
        exact h₄
      · exact h₅
    · rw [hread]
      exact hj.readied

/-- In every run, what libuv stores fits in the read buffer, the count of it succeeds, so that `TN_RECV_EBUF` never
occurs, and a `READ` event names exactly the bytes in its read buffer when it is pushed: these are the bytes that it was
pushed with, which are as many as it says. -/
theorem reads_fit {c : ServiceConfig} (hc : Reach n c) :
    (∀ b bytes, c.fst.view.next = some (.bufferStore b bytes) →
      (c.sh.buffers b).wpos + bytes.length ≤ serviceMaxRecv) ∧
    (∀ b k, c.fst.view.next = some (.bufferAddLength b k) → ((c.sh.buffers b).addLength k).isSome = true) ∧
    (∀ e evt, c.fst.view.next = some (.eventReadyPush e evt) → evt.type = .clientRead →
      ∃ b, evt.NamesBytes c.sh b) ∧
    ∀ r ∈ c.sh.readied, r.evt.type = .clientRead → r.TellsBytes :=
  have hf := readsFit hc
  ⟨hf.storing, hf.counting, hf.pushing, hf.readied⟩

private def readOfTwo : Event :=
  { type := .clientRead, clientId := 0, priv := some 1, buffer := .readBuf 1 0, len := 2 }

/-- A `READ` event of three bytes was pushed, and that of the two bytes 7 and 8 is about to be pushed. -/
theorem reads_fit_three : ∃ c, Reach 1 c ∧ (c.fst.view.next = some (.eventReadyPush 2 readOfTwo) ∧
      (c.sh.buffers 1).unread = [7, 8] ∧ ∃ b, readOfTwo.NamesBytes c.sh b) ∧
    ∃ r ∈ c.sh.readied, r.bytes = [1, 2, 3] ∧ r.evt.type = .clientRead ∧ r.TellsBytes := by
  obtain ⟨c, hc, hnext, hunread, r, hr, hb, ht⟩ := exists_reachWhen .any 1
    (.flatten [startUp, [.run₁ (.inbound 0 {}), .op₁, .op₁],
      .run₁ (.read 5 (.data [1, 2, 3])) :: .replicate 7 .op₁, .run₁ (.read 5 (.data [7, 8])) :: .replicate 6 .op₁])
    (fun c => c.fst.view.next = some (.eventReadyPush 2 readOfTwo) ∧ (c.sh.buffers 1).unread = [7, 8] ∧
      ∃ r ∈ c.sh.readied, r.bytes = [1, 2, 3] ∧ r.evt.type = .clientRead) (by decide +kernel)
  obtain ⟨-, -, hnames, htells⟩ := reads_fit hc
  exact ⟨c, hc, ⟨hnext, hunread, hnames 2 readOfTwo hnext rfl⟩, r, hr, hb, ht, htells r hr ht⟩

end ServerLynx
