import ServerLynx.Framing
import ServerLynx.Ownership

/-!
# Exchanging the read buffer of a link (`link.c`)

`svl_link_buffer_swap` gives a link a read buffer from the pool and copies the unread bytes over.  The bytes arrive,
but the buffer that the link had before is in nobody's hands afterwards, whether the copy succeeds or not.
-/

namespace ServerLynx

open scoped List

/-- What the swap uses of tn: a pop from the pool, which writes to its out pointer, and the copy of a buffer. -/
structure TnBufferSwap where
  popBack : Shared → Option Nat → Bool × Option Nat × Shared
  writeBuffer : Buffer → Buffer → Bool × Buffer

/-- A pop fails exactly on the empty pool, and leaves its out pointer then; else it hands out an empty buffer of the
pool.  A copy that fails leaves its destination, one that succeeds appends the unread bytes of its source. -/
structure TnBufferSwap.Lawful (tn : TnBufferSwap) : Prop where
  pop_fails {sh : Shared} {out : Option Nat} : sh.poolRead = [] → tn.popBack sh out = (false, out, sh)
  pop_gives {sh : Shared} {out : Option Nat} : sh.poolRead ≠ [] → ∃ b bs, sh.poolRead.Perm (b :: bs) ∧
    tn.popBack sh out = (true, some b,
      { sh with poolRead := bs, buffers := Function.update sh.buffers b (sh.buffers b).reset })
  write_fails {dst src : Buffer} : (tn.writeBuffer dst src).1 = false → (tn.writeBuffer dst src).2 = dst
  write_copies {dst src : Buffer} : dst.Valid → (tn.writeBuffer dst src).1 = true →
    (tn.writeBuffer dst src).2.unread = dst.unread ++ src.unread

/-- `svl_link_buffer_swap` on the link `i`, whose read buffer is `prevBuffer` -/
def svlLinkBufferSwap (tn : TnBufferSwap) (i prevBuffer : Nat) (sh : Shared) (io : Io) : Bool × Shared × Io :=
  match tn.popBack sh (some prevBuffer) with
  | (false, out, sh) => (false, sh, io.setLink i fun link => { link with readBuffer := out })
  | (true, out, sh) =>
    let io := io.setLink i fun link => { link with readBuffer := out }
    match (io.link i).readBuffer with
    | none => (true, sh, io)
    | some readBuffer =>
      if (sh.buffers prevBuffer).readLength = 0 then (true, sh, io)
      else
        let (ok, buf) := tn.writeBuffer (sh.buffers readBuffer) (sh.buffers prevBuffer)
        (ok, { sh with buffers := Function.update sh.buffers readBuffer buf }, io)

/-- Each read buffer is in the pool, with one link or with one `READ` event among `es`. -/
def BuffersOwned (n : Nat) (es : List Nat) (sh : Shared) (io : Io) : Prop :=
  (sh.poolRead ++ io.linkBuffers n ++ sh.carried es).Perm (List.range sh.bufferCount)

/-- What a swap of the read buffer `b` of the link `i` owes: the unread bytes are in the new buffer if it succeeds,
the link has its buffer and the bytes as before if it fails, and no buffer is lost. -/
structure SwapKeeps (n : Nat) (es : List Nat) (i b : Nat) (sh : Shared) (x : Bool × Shared × Io) : Prop where
  success : x.1 = true →
    ∃ b', (x.2.2.link i).readBuffer = some b' ∧ (x.2.1.buffers b').unread = (sh.buffers b).unread
  failure : x.1 = false →
    (x.2.2.link i).readBuffer = some b ∧ (x.2.1.buffers b).unread = (sh.buffers b).unread
  owned : BuffersOwned n es x.2.1 x.2.2

variable {tn : TnBufferSwap} {n : Nat} {es : List Nat} {i b : Nat} {sh : Shared} {io : Io}

/-- With an empty pool the swap fails and changes nothing. -/
theorem svlLinkBufferSwap_of_empty (htn : tn.Lawful) (hb : (io.link i).readBuffer = some b) (h : sh.poolRead = []) :
    svlLinkBufferSwap tn i b sh io = (false, sh, io) := by
  have hsame : io.setLink i (fun link => { link with readBuffer := some b }) = io := by
    have hlink : { io.link i with readBuffer := some b } = io.link i := by rw [← hb]
    simp only [Io.setLink]
    rw [show ({ io.linkList.clientMap i with readBuffer := some b } : Link) = io.linkList.clientMap i from hlink,
      Function.update_eq_self]
  rw [svlLinkBufferSwap, htn.pop_fails h]
  exact congrArg (fun x => (false, sh, x)) hsame

/-- From a pool that is not empty the link gets another buffer, and the one it had is in nobody's hands. -/
theorem svlLinkBufferSwap_drops (htn : tn.Lawful) (hi : i < n) (hb : (io.link i).readBuffer = some b)
    (h : sh.poolRead ≠ []) (howned : BuffersOwned n es sh io) :
    (b :: ((svlLinkBufferSwap tn i b sh io).2.1.poolRead ++ (svlLinkBufferSwap tn i b sh io).2.2.linkBuffers n ++
      (svlLinkBufferSwap tn i b sh io).2.1.carried es)).Perm (List.range sh.bufferCount) ∧
    (svlLinkBufferSwap tn i b sh io).2.1.bufferCount = sh.bufferCount := by
  obtain ⟨b', bs, hpool, hpop⟩ := @TnBufferSwap.Lawful.pop_gives tn htn sh (some b) h
  have hlinks : (b :: (io.setLink i fun link => { link with readBuffer := some b' }).linkBuffers n).Perm
      (b' :: io.linkBuffers n) := by
    have hx := linkBuffers_exchange hi (setLink_buffers_ne io fun link => { link with readBuffer := some b' })
    simpa [hb] using hx
  have hperm : (b :: (bs ++ (io.setLink i fun link => { link with readBuffer := some b' }).linkBuffers n ++
      sh.carried es)).Perm (List.range sh.bufferCount) :=
    calc
      b :: (bs ++ (io.setLink i fun link => { link with readBuffer := some b' }).linkBuffers n ++ sh.carried es)
      _ ~ bs ++ b :: (io.setLink i fun link => { link with readBuffer := some b' }).linkBuffers n ++ sh.carried es :=
        List.perm_middle.symm.append_right _
      _ ~ bs ++ b' :: io.linkBuffers n ++ sh.carried es := (hlinks.append_left bs).append_right _
      _ ~ b' :: bs ++ io.linkBuffers n ++ sh.carried es := List.perm_middle.append_right _
      _ ~ sh.poolRead ++ io.linkBuffers n ++ sh.carried es := (hpool.symm.append_right _).append_right _
      _ ~ List.range sh.bufferCount := howned
  simp only [svlLinkBufferSwap, hpop, Io.setLink_link_self]
  split
  · exact ⟨hperm, rfl⟩
  · exact ⟨hperm, rfl⟩

/-- A swap keeps the data and the buffers exactly where it finds the pool empty, and so fails. -/
theorem svlLinkBufferSwap_keeps_iff (htn : tn.Lawful) (hi : i < n) (hb : (io.link i).readBuffer = some b)
    (howned : BuffersOwned n es sh io) :
    SwapKeeps n es i b sh (svlLinkBufferSwap tn i b sh io) ↔ sh.poolRead = [] := by
  constructor
  · intro hk
    by_contra hne
    obtain ⟨hdrop, hcount⟩ := svlLinkBufferSwap_drops htn hi hb hne howned
    have hlen := hdrop.length_eq
    have hlen' := List.Perm.length_eq hk.owned
    rw [hcount] at hlen'
    simp only [List.length_cons, List.length_range] at hlen hlen'
    omega
  · intro hempty
    rw [svlLinkBufferSwap_of_empty htn hb hempty]
    exact ⟨fun h => (nomatch h), fun _ => ⟨hb, rfl⟩, howned⟩

/-- The unread bytes do arrive in the new buffer of a swap that succeeds. -/
theorem svlLinkBufferSwap_unread (htn : tn.Lawful) (hi : i < n) (hb : (io.link i).readBuffer = some b)
    (howned : BuffersOwned n es sh io) (hok : (svlLinkBufferSwap tn i b sh io).1 = true) :
    ∃ b', ((svlLinkBufferSwap tn i b sh io).2.2.link i).readBuffer = some b' ∧
      ((svlLinkBufferSwap tn i b sh io).2.1.buffers b').unread = (sh.buffers b).unread := by
  by_cases h : sh.poolRead = []
  · rw [svlLinkBufferSwap_of_empty htn hb h] at hok
    cases hok
  · obtain ⟨b', bs, hpool, hpop⟩ := @TnBufferSwap.Lawful.pop_gives tn htn sh (some b) h
    have hne : b ≠ b' := by
      rintro rfl
      have hnd := howned.nodup_iff.2 List.nodup_range
      have hin : b ∈ io.linkBuffers n := List.mem_filterMap.2 ⟨i, List.mem_range.2 hi, hb⟩
      rw [List.append_assoc] at hnd
      exact (List.nodup_append.1 hnd).2.2 b (hpool.mem_iff.2 (List.mem_cons_self ..)) b
        (List.mem_append_left _ hin) rfl
    have hprev : Function.update sh.buffers b' (sh.buffers b').reset b = sh.buffers b := Function.update_of_ne hne _ _
    simp only [svlLinkBufferSwap, hpop, Io.setLink_link_self, hprev, Function.update_self] at hok ⊢
    by_cases hlen : (sh.buffers b).readLength = 0
    · simp only [hlen, if_true, Io.setLink_link_self]
      exact ⟨b', rfl, by rw [Function.update_self, Buffer.unread_reset, Buffer.unread_of_empty hlen]⟩
    · simp only [hlen, if_false, Io.setLink_link_self] at hok ⊢
      refine ⟨b', rfl, ?_⟩
      rw [Function.update_self, htn.write_copies (Buffer.valid_reset _) hok, Buffer.unread_reset, List.nil_append]

/-- A pop that takes the back of the pool, and a copy that fails where the bytes do not fit. -/
def TnBufferSwap.plain : TnBufferSwap where
  popBack sh out :=
    match sh.poolRead.getLast? with
    | none => (false, out, sh)
    | some b => (true, some b, { sh with
        poolRead := sh.poolRead.dropLast, buffers := Function.update sh.buffers b (sh.buffers b).reset })
  writeBuffer dst src :=
    match dst.append src.unread with
    | none => (false, dst)
    | some buf => (true, buf)

theorem TnBufferSwap.plain_lawful : TnBufferSwap.plain.Lawful where
  pop_fails h := by simp [plain, h]
  pop_gives {sh out} h := by
    refine ⟨sh.poolRead.getLast h, sh.poolRead.dropLast, ?_, ?_⟩
    · have hperm : (sh.poolRead.dropLast ++ [sh.poolRead.getLast h]).Perm ([sh.poolRead.getLast h] ++
        sh.poolRead.dropLast) :=
        List.perm_append_comm
      rwa [List.dropLast_append_getLast h] at hperm
    · simp only [plain, List.getLast?_eq_some_getLast h]
  write_fails {dst src} h := by
    cases ha : dst.append src.unread with
    | none => simp [plain, ha]
    | some buf => simp [plain, ha] at h
  write_copies {dst src} hv h := by
    cases ha : dst.append src.unread with
    | none => simp [plain, ha] at h
    | some buf => simp [plain, ha, Buffer.unread_append hv ha]

/-- A link that holds the first of two read buffers, with the bytes 7 and 8 in it, the other in the pool or not. -/
def swapExample (pool : List Nat) : Shared × Io :=
  ({ Shared.setup 1 with
      bufferCount := 1 + pool.length, poolRead := pool
      buffers := fun b => if b = 0 then { mem := [7, 8], wpos := 2 } else {} },
    (Io.setup 1).setLink 0 fun link => { link with readBuffer := some 0 })

/-- With an empty pool nothing is lost. -/
theorem svlLinkBufferSwap_keeps_empty : SwapKeeps 1 [] 0 0 (swapExample []).1
    (svlLinkBufferSwap .plain 0 0 (swapExample []).1 (swapExample []).2) := by
  have howned : BuffersOwned 1 [] (swapExample []).1 (swapExample []).2 := by
    unfold BuffersOwned
    decide
  exact (svlLinkBufferSwap_keeps_iff TnBufferSwap.plain_lawful Nat.one_pos rfl howned).2 rfl

/-- With another buffer in the pool the swap succeeds, and the first buffer is in nobody's hands. -/
theorem svlLinkBufferSwap_loses :
    (svlLinkBufferSwap .plain 0 0 (swapExample [1]).1 (swapExample [1]).2).1 = true ∧
    ¬ SwapKeeps 1 [] 0 0 (swapExample [1]).1
      (svlLinkBufferSwap .plain 0 0 (swapExample [1]).1 (swapExample [1]).2) := by
  refine ⟨by decide, fun h => ?_⟩
  have hlen := List.Perm.length_eq h.owned
  exact absurd hlen (by decide)

end ServerLynx
