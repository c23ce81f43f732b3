import ServerLynx.Data
import ServerLynx.Incremental

/-!
# Reading frames from a link (`link.c`)

`svl_link_read_header` and `svl_link_read_payload` take frames from the front of a link's read buffer: four bytes that
give a length, the highest byte first, and as many bytes of payload.  A caller that calls the one that `read_state`
names until a call fails gets the payloads that were sent, whatever pieces the bytes arrive in.
-/

namespace ServerLynx

open Incremental (Decoder)

/-! ### Numbers of four bytes -/

/-- The number that bytes make up, the highest byte first. -/
def ofBytes (bytes : List UInt8) : Nat := bytes.foldl (fun n b => n * 256 + b.toNat) 0

/-- The four bytes of a number below `2 ^ 32`, the highest byte first. -/
def be32 (n : Nat) : List UInt8 :=
  [.ofNat (n / 2 ^ 24), .ofNat (n / 2 ^ 16), .ofNat (n / 2 ^ 8), .ofNat n]

@[simp] theorem length_be32 (n : Nat) : (be32 n).length = 4 := rfl

theorem ofBytes_be32 {n : Nat} (h : n < 2 ^ 32) : ofBytes (be32 n) = n := by
  simp only [ofBytes, be32, List.foldl_cons, List.foldl_nil, UInt8.toNat_ofNat']
  omega

/-! ### Frames -/

/-- A payload as it is sent. -/
def encodeFrame (payload : List UInt8) : List UInt8 := be32 payload.length ++ payload

/-- The frames of a list of payloads, one after the other. -/
def encode (payloads : List (List UInt8)) : List UInt8 := payloads.flatMap encodeFrame

theorem length_le_encode {p : List UInt8} {payloads : List (List UInt8)} (h : p ∈ payloads) :
    p.length ≤ (encode payloads).length := by
  obtain ⟨ps, qs, rfl⟩ := List.append_of_mem h
  simp only [encode, List.flatMap_append, List.flatMap_cons, encodeFrame, List.length_append]
  omega

/-- What the frames are read by: four bytes while no length is known, and then as many as the length says. -/
def frameStep : Option Nat → List UInt8 → Option (Option (List UInt8) × Option Nat × List UInt8)
  | none, u => if 4 ≤ u.length then some (none, some (ofBytes (u.take 4)), u.drop 4) else none
  | some n, u => if n ≤ u.length then some (some (u.take n), none, u.drop n) else none

/-- The decoder of frames; its state is the length of the payload that comes next, once it is known. -/
def frames : Decoder (Option Nat) UInt8 (List UInt8) where
  step := frameStep
  size s u := 2 * u.length + if s.isSome then 1 else 0
  step_more := by
    rintro (_ | n) s' u u' o v h
    · simp only [frameStep, Option.ite_none_right_eq_some, Option.some.injEq, Prod.mk.injEq] at h ⊢
      obtain ⟨hle, rfl, rfl, rfl⟩ := h
      rw [List.take_append_of_le_length hle, List.drop_append_of_le_length hle, List.length_append]
      exact ⟨by omega, rfl, rfl, rfl⟩
    · simp only [frameStep, Option.ite_none_right_eq_some, Option.some.injEq, Prod.mk.injEq] at h ⊢
      obtain ⟨hle, rfl, rfl, rfl⟩ := h
      rw [List.take_append_of_le_length hle, List.drop_append_of_le_length hle, List.length_append]
      exact ⟨by omega, rfl, rfl, rfl⟩
  step_size := by
    rintro (_ | n) s' u u' o h
    · simp only [frameStep, Option.ite_none_right_eq_some, Option.some.injEq, Prod.mk.injEq] at h
      obtain ⟨hle, -, rfl, rfl⟩ := h
      show 2 * (u.drop 4).length + 1 < 2 * u.length + 0
      rw [List.length_drop]
      omega
    · simp only [frameStep, Option.ite_none_right_eq_some, Option.some.injEq, Prod.mk.injEq] at h
      obtain ⟨hle, -, rfl, rfl⟩ := h
      show 2 * (u.drop n).length + 0 < 2 * u.length + 1
      rw [List.length_drop]
      omega

theorem frames_step_nil : frames.step none [] = none := rfl

/-- Reading the frames gives the payloads and leaves nothing. -/
theorem drain_encode {payloads : List (List UInt8)} (h : ∀ p ∈ payloads, p.length < 2 ^ 32) :
    frames.drain none (encode payloads) = (payloads, none, []) := by
  induction payloads with
  | nil => exact Decoder.drain_of_none frames_step_nil
  | cons p ps ih =>
    have hlen : p.length < 2 ^ 32 := h p (List.mem_cons_self ..)
    have hps := ih fun q hq => h q (List.mem_cons_of_mem _ hq)
    have hheader : frames.step none (encode (p :: ps)) = some (none, some p.length, p ++ encode ps) := by
      have htake : (be32 p.length ++ (p ++ encode ps)).take 4 = be32 p.length := rfl
      have hdrop : (be32 p.length ++ (p ++ encode ps)).drop 4 = p ++ encode ps := rfl
      show frameStep none (encodeFrame p ++ encode ps) = _
      rw [encodeFrame, List.append_assoc, frameStep, if_pos (by simp), htake, hdrop, ofBytes_be32 hlen]
    have hpayload : frames.step (some p.length) (p ++ encode ps) = some (some p, none, encode ps) := by
      show frameStep (some p.length) (p ++ encode ps) = _
      rw [frameStep, if_pos (by simp), List.take_left, List.drop_left]
    rw [Decoder.drain_of_some hheader, Decoder.drain_of_some hpayload, hps]
    rfl

/-! ### A link and its read buffer -/

/-- `tn_buffer_span_t`: a place in a read buffer, or NULL, and a length -/
structure Span where
  ptr : Option Nat := none
  len : Nat := 0
  deriving DecidableEq

namespace Buffer

/-- The bytes that are written and not read yet. -/
def unread (b : Buffer) : List UInt8 := b.slice b.rpos b.readLength

/-- Both positions lie in the memory, and the buffer is not written beyond its capacity. -/
structure Valid (b : Buffer) : Prop where
  read : b.rpos ≤ b.wpos
  written : b.wpos ≤ b.mem.length
  room : b.wpos ≤ serviceMaxRecv

/-- Bytes that arrive behind those already there. -/
def append (b : Buffer) (bytes : List UInt8) : Option Buffer := (b.store bytes).addLength bytes.length

theorem length_unread {b : Buffer} (h : b.Valid) : b.unread.length = b.readLength := by
  have hr := h.read
  have hw := h.written
  simp only [unread, slice, readLength, List.length_take, List.length_drop]
  omega

theorem append_eq_some {b b' : Buffer} {bytes : List UInt8} : b.append bytes = some b' ↔
    b.wpos + bytes.length ≤ serviceMaxRecv ∧ b' = { b.store bytes with wpos := b.wpos + bytes.length } := by
  unfold append addLength
  rw [Option.ite_none_right_eq_some, Option.some.injEq]
  exact and_congr_right fun _ => eq_comm

variable {b b' : Buffer} {bytes : List UInt8}

theorem Valid.append (h : b.Valid) (ha : b.append bytes = some b') : b'.Valid := by
  obtain ⟨hroom, rfl⟩ := append_eq_some.1 ha
  have hr := h.read
  have hw := h.written
  refine ⟨?_, ?_, hroom⟩
  · show b.rpos ≤ b.wpos + bytes.length
    omega
  · simp only [store, List.length_append, List.length_take, List.length_drop]
    omega

theorem unread_append (h : b.Valid) (ha : b.append bytes = some b') : b'.unread = b.unread ++ bytes := by
  obtain ⟨-, rfl⟩ := append_eq_some.1 ha
  have hr := h.read
  have hw := h.written
  have hlen : (b.mem.take b.wpos).length = b.wpos := by rw [List.length_take]; omega
  have hold : (b.mem.take b.wpos).drop b.rpos = b.unread := by rw [List.drop_take]; rfl
  have hcut : b.wpos + bytes.length - b.rpos = (b.unread ++ bytes).length := by
    rw [List.length_append, length_unread h, readLength]
    omega
  show ((b.mem.take b.wpos ++ bytes ++ b.mem.drop (b.wpos + bytes.length)).drop b.rpos).take
    (b.wpos + bytes.length - b.rpos) = b.unread ++ bytes
  rw [List.append_assoc, List.drop_append_of_le_length (by omega), hold, ← List.append_assoc, hcut, List.take_left]

theorem unread_reset (b : Buffer) : b.reset.unread = [] := by
  simp [unread, slice, readLength, reset]

theorem valid_reset (b : Buffer) : b.reset.Valid := ⟨Nat.le_refl 0, Nat.zero_le _, Nat.zero_le _⟩

theorem unread_of_empty {b : Buffer} (h : b.readLength = 0) : b.unread = [] := by
  simp [unread, slice, h]

/-- What is left unread after `n` more bytes are read. -/
theorem unread_skip (n : Nat) : { b with rpos := b.rpos + n }.unread = b.unread.drop n := by
  simp only [unread, slice, readLength, List.drop_take, List.drop_drop]
  rw [Nat.sub_sub]

theorem slice_eq_take {n : Nat} (h : n ≤ b.readLength) : b.slice b.rpos n = b.unread.take n := by
  rw [unread, slice, slice, List.take_take, Nat.min_eq_left h]

theorem Valid.skip {n : Nat} (h : b.Valid) (hn : n ≤ b.readLength) : { b with rpos := b.rpos + n }.Valid := by
  have hr := h.read
  refine ⟨?_, h.written, h.room⟩
  show b.rpos + n ≤ b.wpos
  unfold readLength at hn
  omega

end Buffer

/-- The reads of tn on a buffer: whether a call succeeds, the number it reads, and the buffer after it. -/
structure TnBufferRead where
  readBe32 : Buffer → Bool × Nat × Buffer
  readSkip : Buffer → Nat → Bool × Buffer

/-- A read fails, and then consumes nothing, exactly where fewer bytes are unread than it asks for. -/
structure TnBufferRead.Lawful (tn : TnBufferRead) : Prop where
  be32_fails {b : Buffer} : b.readLength < 4 → (tn.readBe32 b).1 = false ∧ (tn.readBe32 b).2.2 = b
  be32_reads {b : Buffer} : 4 ≤ b.readLength →
    tn.readBe32 b = (true, ofBytes (b.slice b.rpos 4), { b with rpos := b.rpos + 4 })
  skip_fails {b : Buffer} {n : Nat} : b.readLength < n → tn.readSkip b n = (false, b)
  skip_reads {b : Buffer} {n : Nat} : n ≤ b.readLength → tn.readSkip b n = (true, { b with rpos := b.rpos + n })

/-- A link with its read buffer. -/
structure LinkRead where
  link : Link
  buffer : Buffer

section Reads

variable (tn : TnBufferRead)

/-- `svl_link_read_header`: whether it succeeds, and `*out_len` -/
def svlLinkReadHeader (r : LinkRead) : Bool × Nat × LinkRead :=
  match tn.readBe32 r.buffer with
  | (true, outLen, buffer) => (true, outLen, ⟨{ r.link with nextPayloadLen := outLen, readState := .payload }, buffer⟩)
  | (false, _, buffer) => (false, 0, ⟨r.link, buffer⟩)

/-- `svl_link_read_payload`: whether it succeeds, and `*out_span` -/
def svlLinkReadPayload (r : LinkRead) : Bool × Span × LinkRead :=
  let outSpan : Span := ⟨some r.buffer.rpos, r.link.nextPayloadLen⟩
  match tn.readSkip r.buffer outSpan.len with
  | (true, buffer) => (true, outSpan, ⟨{ r.link with readState := .header }, buffer⟩)
  | (false, buffer) => (false, {}, ⟨r.link, buffer⟩)

/-! ### The caller -/

/-- A payload as the caller gets it: the span, the bytes it spans, and how far the buffer was written then. -/
structure PayloadRead where
  span : Span
  bytes : List UInt8
  written : Nat
  deriving DecidableEq

/-- The span is not NULL, and lies inside what was written. -/
def PayloadRead.Inside (x : PayloadRead) : Prop := ∃ p, x.span.ptr = some p ∧ p + x.span.len ≤ x.written

/-- The bytes of a span in the read buffer of the link. -/
def LinkRead.bytes (r : LinkRead) (span : Span) : List UInt8 :=
  match span.ptr with
  | none => []
  | some p => r.buffer.slice p span.len

/-- The call that `read_state` names, and the payload if it returned one. -/
def readCall (r : LinkRead) : Bool × Option PayloadRead × LinkRead :=
  match r.link.readState with
  | .header =>
    let (ok, _, r') := svlLinkReadHeader tn r
    (ok, none, r')
  | .payload =>
    let (ok, span, r') := svlLinkReadPayload tn r
    (ok, if ok then some ⟨span, r'.bytes span, r'.buffer.wpos⟩ else none, r')
  | _ => (false, none, r)

/-- Calls until one fails; `none` where that takes more than `fuel` calls. -/
def readAll : Nat → LinkRead → Option (List PayloadRead × LinkRead)
  | 0, _ => none
  | fuel + 1, r => match readCall tn r with
    | (true, out, r') => (readAll fuel r').map fun t => (out.toList ++ t.1, t.2)
    | (false, _, r') => some ([], r')

/-- The chunks one after the other, with calls until one fails after each of them.  A chunk that does not fit in the
buffer is the end. -/
def readChunks (fuel : Nat) : LinkRead → List (List UInt8) → Option (List PayloadRead × LinkRead)
  | r, [] => some ([], r)
  | r, c :: cs => match r.buffer.append c with
    | none => some ([], r)
    | some buffer => do
      let t ← readAll tn fuel ⟨r.link, buffer⟩
      let t' ← readChunks fuel t.2 cs
      some (t.1 ++ t'.1, t'.2)

end Reads

/-! ### The calls follow the decoder -/

/-- The link stands before the bytes `u`, in the state `s` of the decoder. -/
structure LinkRead.At (r : LinkRead) (s : Option Nat) (u : List UInt8) : Prop where
  valid : r.buffer.Valid
  unread : r.buffer.unread = u
  state : match s with
    | none => r.link.readState = .header
    | some n => r.link.readState = .payload ∧ r.link.nextPayloadLen = n

section Decode

variable {tn : TnBufferRead} {r : LinkRead} {s s' : Option Nat} {u u' : List UInt8} {o : Option (List UInt8)}

theorem LinkRead.At.length (h : r.At s u) : u.length = r.buffer.readLength := by
  rw [← h.unread, Buffer.length_unread h.valid]

/-- Where the decoder cannot step, the call fails and changes nothing. -/
theorem readCall_of_none (htn : tn.Lawful) (h : r.At s u) (hs : frames.step s u = none) :
    readCall tn r = (false, none, r) := by
  have hlen := h.length
  cases s with
  | none =>
    have hshort : ¬ 4 ≤ u.length := fun hle => by simp [frames, frameStep, hle] at hs
    have hst : r.link.readState = .header := h.state
    obtain ⟨hfail, hsame⟩ := htn.be32_fails (b := r.buffer) (by omega)
    rcases hx : tn.readBe32 r.buffer with ⟨ok, outLen, buffer⟩
    rw [hx] at hfail hsame
    dsimp only at hfail hsame
    subst hfail hsame
    simp only [readCall, hst, svlLinkReadHeader, hx]
  | some n =>
    have hshort : ¬ n ≤ u.length := fun hle => by simp [frames, frameStep, hle] at hs
    obtain ⟨hst, hn⟩ : r.link.readState = .payload ∧ r.link.nextPayloadLen = n := h.state
    have hskip : tn.readSkip r.buffer n = (false, r.buffer) := htn.skip_fails (by omega)
    simp [readCall, hst, svlLinkReadPayload, hn, hskip]

/-- Where the decoder steps, the call succeeds, with the same payload. -/
theorem readCall_of_some (htn : tn.Lawful) (h : r.At s u) (hs : frames.step s u = some (o, s', u')) :
    ∃ out r', readCall tn r = (true, out, r') ∧ r'.At s' u' ∧ out.map (·.bytes) = o ∧
      (∀ x ∈ out, x.Inside) ∧ r'.buffer.wpos = r.buffer.wpos := by
  have hlen := h.length
  cases s with
  | none =>
    have hst : r.link.readState = .header := h.state
    obtain ⟨hle, hs⟩ := Option.ite_none_right_eq_some.1 (show frameStep none u = _ from hs)
    simp only [Option.some.injEq, Prod.mk.injEq] at hs
    obtain ⟨rfl, rfl, rfl⟩ := hs
    have hle' : 4 ≤ r.buffer.readLength := by omega
    have hread := htn.be32_reads hle'
    rw [Buffer.slice_eq_take hle', h.unread] at hread
    refine ⟨none, ⟨{ r.link with nextPayloadLen := ofBytes (u.take 4), readState := .payload },
      { r.buffer with rpos := r.buffer.rpos + 4 }⟩, ?_, ⟨h.valid.skip hle', ?_, rfl, rfl⟩, rfl, by simp, rfl⟩
    · simp only [readCall, hst, svlLinkReadHeader, hread]
    · rw [Buffer.unread_skip, h.unread]
  | some n =>
    obtain ⟨hst, hn⟩ : r.link.readState = .payload ∧ r.link.nextPayloadLen = n := h.state
    obtain ⟨hle, hs⟩ := Option.ite_none_right_eq_some.1 (show frameStep (some n) u = _ from hs)
    simp only [Option.some.injEq, Prod.mk.injEq] at hs
    obtain ⟨rfl, rfl, rfl⟩ := hs
    have hle' : n ≤ r.buffer.readLength := by omega
    have hskip : tn.readSkip r.buffer n = (true, { r.buffer with rpos := r.buffer.rpos + n }) := htn.skip_reads hle'
    refine ⟨some ⟨⟨some r.buffer.rpos, n⟩, r.buffer.slice r.buffer.rpos n, r.buffer.wpos⟩,
      ⟨{ r.link with readState := .header }, { r.buffer with rpos := r.buffer.rpos + n }⟩, ?_,
      ⟨h.valid.skip hle', ?_, rfl⟩, ?_, ?_, rfl⟩
    · simp only [readCall, hst, svlLinkReadPayload, hn, hskip]
      rfl
    · rw [Buffer.unread_skip, h.unread]
    · rw [Option.map_some, Buffer.slice_eq_take hle', h.unread]
    · rintro x ⟨⟩
      have hread := h.valid.read
      refine ⟨r.buffer.rpos, rfl, ?_⟩
      unfold Buffer.readLength at hle'
      dsimp only
      omega

/-- Calls until one fails get what the decoder gets. -/
theorem readAll_eq (htn : tn.Lawful) {fuel : Nat} (h : r.At s u) (hfuel : frames.size s u < fuel) :
    ∃ outs r', readAll tn fuel r = some (outs, r') ∧ r'.At (frames.drain s u).2.1 (frames.drain s u).2.2 ∧
      outs.map (·.bytes) = (frames.drain s u).1 ∧ (∀ x ∈ outs, x.Inside) ∧ r'.buffer.wpos = r.buffer.wpos := by
  induction fuel generalizing r s u with
  | zero => exact absurd hfuel (Nat.not_lt_zero _)
  | succ fuel ih =>
    cases hs : frames.step s u with
    | none =>
      rw [Decoder.drain_of_none hs]
      exact ⟨[], r, by rw [readAll, readCall_of_none htn h hs], h, rfl, by simp, rfl⟩
    | some x =>
      obtain ⟨o, s', u'⟩ := x
      obtain ⟨out, r₁, hcall, h₁, hout, hin, hw⟩ := readCall_of_some htn h hs
      have hsize := frames.step_size hs
      obtain ⟨outs, r', hall, h', houts, hins, hw'⟩ := ih h₁ (by omega)
      rw [Decoder.drain_of_some hs]
      refine ⟨out.toList ++ outs, r', ?_, h', ?_, ?_, hw'.trans hw⟩
      · rw [readAll, hcall]
        show (readAll tn fuel r₁).map _ = _
        rw [hall]
        rfl
      · rw [List.map_append, houts, ← hout]
        cases out <;> rfl
      · intro x hx
        rcases List.mem_append.1 hx with hx | hx
        · exact hin x (Option.mem_toList.1 hx)
        · exact hins x hx

theorem LinkRead.At.size_le (h : r.At s u) : frames.size s u ≤ 2 * serviceMaxRecv + 1 := by
  have hlen := h.length
  have hroom := h.valid.room
  have hone : (if s.isSome then 1 else 0) ≤ 1 := by split <;> omega
  show 2 * u.length + (if s.isSome then 1 else 0) ≤ 2 * serviceMaxRecv + 1
  unfold Buffer.readLength at hlen
  omega

/-- Chunks that fit are decoded as the whole is. -/
theorem readChunks_eq (htn : tn.Lawful) {fuel : Nat} (hfuel : 2 * serviceMaxRecv + 1 < fuel)
    {chunks : List (List UInt8)} (h : r.At s u) (hfit : r.buffer.wpos + chunks.flatten.length ≤ serviceMaxRecv) :
    ∃ outs r', readChunks tn fuel r chunks = some (outs, r') ∧
      r'.At (frames.feed s u chunks).2.1 (frames.feed s u chunks).2.2 ∧
      outs.map (·.bytes) = (frames.feed s u chunks).1 := by
  induction chunks generalizing r s u with
  | nil => exact ⟨[], r, rfl, h, rfl⟩
  | cons c cs ih =>
    rw [List.flatten_cons, List.length_append] at hfit
    obtain ⟨buffer, hb⟩ : ∃ buffer, r.buffer.append c = some buffer :=
      ⟨_, Buffer.append_eq_some.2 ⟨by omega, rfl⟩⟩
    have hat : LinkRead.At ⟨r.link, buffer⟩ s (u ++ c) :=
      ⟨h.valid.append hb, by rw [Buffer.unread_append h.valid hb, h.unread], h.state⟩
    obtain ⟨outs, r₁, hall, h₁, houts, -, hw⟩ := readAll_eq htn hat (Nat.lt_of_le_of_lt hat.size_le hfuel)
    have hwpos : buffer.wpos = r.buffer.wpos + c.length := by
      obtain ⟨-, rfl⟩ := Buffer.append_eq_some.1 hb
      rfl
    have hsame : r₁.buffer.wpos = buffer.wpos := hw
    obtain ⟨outs', r', hrest, h', houts'⟩ := ih h₁ (by omega)
    refine ⟨outs ++ outs', r', ?_, h', ?_⟩
    · simp only [readChunks, hb, hall, hrest, Option.bind_eq_bind, Option.bind_some]
    · rw [List.map_append, houts, houts']
      rfl

/-- Whatever the bytes and the state of the link, the calls end, and the spans lie inside what was written. -/
theorem readAll_inside (htn : tn.Lawful) {fuel : Nat} (hfuel : 2 * serviceMaxRecv + 1 < fuel)
    (h : r.buffer.Valid) :
    ∃ outs r', readAll tn fuel r = some (outs, r') ∧ r'.buffer.Valid ∧ ∀ x ∈ outs, x.Inside := by
  have hat : ∀ s, r.At s r.buffer.unread →
      ∃ outs r', readAll tn fuel r = some (outs, r') ∧ r'.buffer.Valid ∧ ∀ x ∈ outs, x.Inside := by
    intro s hs
    obtain ⟨outs, r', hall, h', -, hins, -⟩ := readAll_eq htn hs (Nat.lt_of_le_of_lt hs.size_le hfuel)
    exact ⟨outs, r', hall, h'.valid, hins⟩
  have hstop : readCall tn r = (false, none, r) →
      ∃ outs r', readAll tn fuel r = some (outs, r') ∧ r'.buffer.Valid ∧ ∀ x ∈ outs, x.Inside := by
    intro hcall
    obtain ⟨k, rfl⟩ : ∃ k, fuel = k + 1 := ⟨fuel - 1, by omega⟩
    exact ⟨[], r, by rw [readAll, hcall], h, by simp⟩
  cases hst : r.link.readState with
  | header => exact hat none ⟨h, rfl, hst⟩
  | payload => exact hat (some r.link.nextPayloadLen) ⟨h, rfl, hst, rfl⟩
  | none => exact hstop (by simp only [readCall, hst])
  | error => exact hstop (by simp only [readCall, hst])
  | invalid => exact hstop (by simp only [readCall, hst])

theorem readChunks_inside (htn : tn.Lawful) {fuel : Nat} (hfuel : 2 * serviceMaxRecv + 1 < fuel)
    (chunks : List (List UInt8)) (h : r.buffer.Valid) :
    ∃ outs r', readChunks tn fuel r chunks = some (outs, r') ∧ ∀ x ∈ outs, x.Inside := by
  induction chunks generalizing r with
  | nil => exact ⟨[], r, rfl, by simp⟩
  | cons c cs ih =>
    cases hb : r.buffer.append c with
    | none => exact ⟨[], r, by simp only [readChunks, hb], by simp⟩
    | some buffer =>
      obtain ⟨outs, r₁, hall, h₁, hins⟩ := readAll_inside htn hfuel (r := ⟨r.link, buffer⟩) (h.append hb)
      obtain ⟨outs', r', hrest, hins'⟩ := ih h₁
      refine ⟨outs ++ outs', r', ?_, ?_⟩
      · simp only [readChunks, hb, hall, hrest, Option.bind_eq_bind, Option.bind_some]
      · intro x hx
        rcases List.mem_append.1 hx with hx | hx
        · exact hins x hx
        · exact hins' x hx

/-! ### A call that fails -/

theorem svlLinkReadHeader_fails (htn : tn.Lawful) (h : (svlLinkReadHeader tn r).1 = false) :
    svlLinkReadHeader tn r = (false, 0, r) := by
  by_cases hlen : r.buffer.readLength < 4
  · obtain ⟨hfail, hsame⟩ := htn.be32_fails hlen
    rcases hx : tn.readBe32 r.buffer with ⟨ok, outLen, buffer⟩
    rw [hx] at hfail hsame
    dsimp only at hfail hsame
    subst hfail hsame
    simp only [svlLinkReadHeader, hx]
  · rw [svlLinkReadHeader, htn.be32_reads (by omega)] at h
    cases h

theorem svlLinkReadPayload_fails (htn : tn.Lawful) (h : (svlLinkReadPayload tn r).1 = false) :
    svlLinkReadPayload tn r = (false, {}, r) := by
  by_cases hlen : r.buffer.readLength < r.link.nextPayloadLen
  · simp only [svlLinkReadPayload, htn.skip_fails hlen]
  · simp only [svlLinkReadPayload, htn.skip_reads (Nat.le_of_not_lt hlen)] at h
    cases h

end Decode

/-- The bytes of a list of payloads, in whatever chunks they arrive, are read back as the same payloads.  A call that
fails leaves the link and the unread bytes as they were.  Whatever bytes arrive, each span lies inside what was
written by then. -/
theorem readChunks_encode {tn : TnBufferRead} (htn : tn.Lawful) {fuel : Nat} (hfuel : 2 * serviceMaxRecv + 1 < fuel) :
    (∀ (r : LinkRead) (payloads chunks : List (List UInt8)), r.buffer.Valid → r.link.readState = .header →
      r.buffer.readLength = 0 → (encode payloads).length ≤ r.buffer.remaining → chunks.flatten = encode payloads →
      ∃ outs r', readChunks tn fuel r chunks = some (outs, r') ∧ outs.map (·.bytes) = payloads ∧
        r'.link.readState = .header ∧ r'.buffer.unread = []) ∧
    (∀ r : LinkRead, ((svlLinkReadHeader tn r).1 = false → (svlLinkReadHeader tn r).2.2 = r) ∧
      ((svlLinkReadPayload tn r).1 = false → (svlLinkReadPayload tn r).2.2 = r)) ∧
    (∀ (r : LinkRead) (chunks : List (List UInt8)), r.buffer.Valid →
      ∃ outs r', readChunks tn fuel r chunks = some (outs, r') ∧ ∀ x ∈ outs, x.Inside) := by
  refine ⟨fun r payloads chunks hv hst hempty hfit hflat => ?_, fun r => ⟨fun h => ?_, fun h => ?_⟩,
    fun r chunks hv => readChunks_inside htn hfuel chunks hv⟩
  · have hunread : r.buffer.unread = [] :=
      List.eq_nil_of_length_eq_zero (by rw [Buffer.length_unread hv, hempty])
    have hroom := hv.room
    have hshort : ∀ p ∈ payloads, p.length < 2 ^ 32 := by
      intro p hp
      have hle := length_le_encode hp
      have hmax : serviceMaxRecv < 2 ^ 32 := by decide
      unfold Buffer.remaining at hfit
      omega
    obtain ⟨outs, r', hall, hat, houts⟩ := readChunks_eq htn hfuel (s := none) (u := [])
      ⟨hv, hunread, hst⟩ (by rw [hflat]; unfold Buffer.remaining at hfit; omega)
    rw [Decoder.feed_eq frames_step_nil, List.nil_append, hflat, drain_encode hshort] at hat houts
    exact ⟨outs, r', hall, houts, hat.state, hat.unread⟩
  · rw [svlLinkReadHeader_fails htn h]
  · rw [svlLinkReadPayload_fails htn h]

/-- Reads that fail exactly where they must. -/
def TnBufferRead.plain : TnBufferRead where
  readBe32 b :=
    if b.readLength < 4 then (false, 0, b)
    else (true, ofBytes (b.slice b.rpos 4), { b with rpos := b.rpos + 4 })
  readSkip b n := if b.readLength < n then (false, b) else (true, { b with rpos := b.rpos + n })

theorem TnBufferRead.plain_lawful : TnBufferRead.plain.Lawful where
  be32_fails h := by simp [plain, h]
  be32_reads h := by simp [plain, Nat.not_lt.2 h]
  skip_fails h := by simp [plain, h]
  skip_reads h := by simp [plain, Nat.not_lt.2 h]

/-- A payload of two bytes and an empty one; the first chunk ends inside a header, the second inside a payload. -/
theorem readChunks_encode_chunks : ∃ outs r', readChunks .plain (2 * serviceMaxRecv + 2)
      ⟨{ readState := .header }, {}⟩ [[0, 0], [0, 2, 7], [8, 0, 0, 0, 0]] = some (outs, r') ∧
    outs.map (·.bytes) = [[7, 8], []] ∧ r'.link.readState = .header ∧ r'.buffer.unread = [] :=
  (readChunks_encode TnBufferRead.plain_lawful (by decide)).1 ⟨{ readState := .header }, {}⟩ [[7, 8], []] _
    ⟨Nat.le_refl 0, Nat.le_refl 0, Nat.zero_le _⟩ rfl rfl (by decide) (by decide)

end ServerLynx
