import ServerLynx.Util

/-!
# `Util.MemCpy` and `Util.MemCmp` of the Unity package (`Util.cs`)

Both go over their ranges in steps of 8 bytes and treat what remains by one or two narrower accesses, which may
overlap.  The copy is compared with a loop over single bytes, and the comparison with the equality of the bytes.
-/

namespace ServerLynx.Util

open Bytes

/-! ### `MemCpy` -/

/-- The wide loop of `MemCpy`: its first `k` turns, where `cursor` goes up by 8. -/
def memCpyLoop (pdst psrc : Int) (mem : Memory) : Nat → Memory
  | 0 => mem
  | k + 1 => copy8 id (pdst + (8 * k : Nat)) (psrc + (8 * k : Nat)) (memCpyLoop pdst psrc mem k)

/-- `MemCpy(byte*, int, byte*, int, int)` -/
def memCpy (mem : Memory) (dst : Int) (dstOffset : BitVec 32) (src : Int) (srcOffset byteLength : BitVec 32) : Memory :=
  let psrc := src + srcOffset.toInt
  let pdst := dst + dstOffset.toInt
  let longByteLength : BitVec 64 := byteLength.signExtend 64
  let longWriteLimit := longByteLength &&& ~~~7#64
  let mem := memCpyLoop pdst psrc mem (longWriteLimit.toNat / 8)
  copyRest id (longByteLength &&& 7#64).toNat (pdst + longWriteLimit.toNat) (psrc + longWriteLimit.toNat) mem

/-- The copy of `n` bytes, one after the other. -/
def copyBytes (pdst psrc : Int) (mem : Memory) : (n : Nat) → Memory
  | 0 => mem
  | n + 1 => copy1 id (pdst + n) (psrc + n) (copyBytes pdst psrc mem n)

/-- The ranges of `n` bytes from `p` and from `r` on have no byte in common. -/
def Apart (p r : Int) (n : Nat) : Prop := p + n ≤ r ∨ r + n ≤ p

section Copy

variable {mem mem' : Memory} {p r : Int} {n k : Nat}

private theorem steady_id (h : Apart p r n) (hk : k ≤ n) (hmem : Filled mem mem' p k fun i => mem (r + i)) :
    Steady id mem' (p + k) (n - k) (r + k) fun i => mem (r + (k + i : Nat)) := by
  intro mem'' hmem'' i hi
  unfold Apart at h
  have hkept : mem'' (r + k + i) = mem' (r + k + i) := hmem'' _ (by omega)
  have hplace : r + k + i = r + (k + i : Nat) := by omega
  rw [id, hkept, hmem.of_outside (by omega), hplace]

/-- One more copy, of `m` bytes, goes right after the bytes that were copied before. -/
private theorem copy_next {m : Nat} (h : Apart p r n) (hm : k + m ≤ n)
    (hmem : Filled mem mem' p k fun i => mem (r + i)) :
    Filled mem (store mem' (p + k) m (load mem' (r + k) m)) p (k + m) fun i => mem (r + i) := by
  refine hmem.append ?_ (Nat.le_refl k) (Nat.le_add_right k m)
  refine (Filled.copy mem' mem' (p + k) (r + k) m).congr fun i hi => ?_
  exact steady_id h (by omega) hmem mem' (fun _ _ => rfl) i (by omega)

theorem copyBytes_filled (h : Apart p r n) (hk : k ≤ n) :
    Filled mem (copyBytes p r mem k) p k fun i => mem (r + i) := by
  induction k with
  | zero => exact .refl mem p _
  | succ k ih => exact copy_next h hk (ih (by omega))

theorem memCpyLoop_filled (h : Apart p r n) (hk : 8 * k ≤ n) :
    Filled mem (memCpyLoop p r mem k) p (8 * k) fun i => mem (r + i) := by
  induction k with
  | zero => exact .refl mem p _
  | succ k ih => exact copy_next h hk (ih (by omega))

/-- The whole copy: the wide loop and the rest. -/
theorem memCpy_filled (mem : Memory) (dst src : Int) (dstOffset srcOffset : BitVec 32) {byteLength : BitVec 32}
    (hn : 0 ≤ byteLength.toInt) (h : Apart (dst + dstOffset.toInt) (src + srcOffset.toInt) byteLength.toNat) :
    Filled mem (memCpy mem dst dstOffset src srcOffset byteLength) (dst + dstOffset.toInt) byteLength.toNat
      fun i => mem (src + srcOffset.toInt + i) := by
  obtain ⟨hrest, hlimit⟩ := toNat_longByteLength hn
  have hturns : byteLength.toNat / 8 * 8 / 8 = byteLength.toNat / 8 := by omega
  simp only [memCpy, hrest, hlimit, hturns]
  generalize byteLength.toNat = n at h ⊢
  generalize dst + dstOffset.toInt = p at h ⊢
  generalize src + srcOffset.toInt = r at h ⊢
  have hloop : Filled mem (memCpyLoop p r mem (n / 8)) p (8 * (n / 8)) fun i => mem (r + i) :=
    memCpyLoop_filled h (by omega)
  have hsteady := steady_id h (by omega) hloop
  have hremain : n - 8 * (n / 8) = n % 8 := by omega
  rw [hremain] at hsteady
  have hcopy := hloop.append (copyRest_filled (Nat.mod_lt n (by decide)) hsteady) (Nat.le_refl _) (by omega)
  have hlen : 8 * (n / 8) + n % 8 = n := Nat.div_add_mod n 8
  rw [hlen] at hcopy
  rwa [Nat.mul_comm (n / 8) 8]

/-- Each byte of the destination gets the byte that the source had at its place, no other byte changes, and the memory
is the one that a loop over single bytes leaves. -/
theorem memCpy_copies (mem : Memory) (dst src : Int) (dstOffset srcOffset byteLength : BitVec 32)
    (hn : 0 ≤ byteLength.toInt) (h : Apart (dst + dstOffset.toInt) (src + srcOffset.toInt) byteLength.toNat) :
    (∀ i < byteLength.toNat, memCpy mem dst dstOffset src srcOffset byteLength (dst + dstOffset.toInt + i) =
      mem (src + srcOffset.toInt + i)) ∧
    (∀ q, q < dst + dstOffset.toInt ∨ dst + dstOffset.toInt + byteLength.toNat ≤ q →
      memCpy mem dst dstOffset src srcOffset byteLength q = mem q) ∧
    memCpy mem dst dstOffset src srcOffset byteLength =
      copyBytes (dst + dstOffset.toInt) (src + srcOffset.toInt) mem byteLength.toNat := by
  have hfilled := memCpy_filled mem dst src dstOffset srcOffset hn h
  obtain ⟨hin, hout⟩ := Filled.iff_places.1 hfilled
  exact ⟨hin, hout, hfilled.eq (copyBytes_filled h (Nat.le_refl _))⟩

/-- Fifteen bytes, to a range that ends where the source begins. -/
theorem memCpy_copies_adjacent :
    memCpy (fun a => BitVec.ofInt 8 a) 100 2#32 110 7#32 15#32 (100 + (2#32).toInt + (14 : Nat)) = 131#8 ∧
    memCpy (fun a => BitVec.ofInt 8 a) 100 2#32 110 7#32 15#32 =
      copyBytes (100 + (2#32).toInt) (110 + (7#32).toInt) (fun a => BitVec.ofInt 8 a) (15#32).toNat := by
  have h := memCpy_copies (fun a => BitVec.ofInt 8 a) 100 110 2#32 7#32 15#32 (by decide) (.inl (by decide))
  exact ⟨(h.1 14 (by decide)).trans (by decide), h.2.2⟩

end Copy

/-! ### The comparisons of 1 to 8 bytes -/

section Compare

variable (mem : Memory)

/-- `Cmp1` -/
def cmp1 (pdst psrc : Int) : Bool := load mem pdst 1 == load mem psrc 1

def cmp2 (pdst psrc : Int) : Bool := load mem pdst 2 == load mem psrc 2

def cmp4 (pdst psrc : Int) : Bool := load mem pdst 4 == load mem psrc 4

def cmp8 (pdst psrc : Int) : Bool := load mem pdst 8 == load mem psrc 8

def cmp3 (pdst psrc : Int) : Bool := cmp2 mem (pdst + 0) (psrc + 0) && cmp2 mem (pdst + 1) (psrc + 1)

def cmp5 (pdst psrc : Int) : Bool := cmp4 mem (pdst + 0) (psrc + 0) && cmp4 mem (pdst + 1) (psrc + 1)

def cmp6 (pdst psrc : Int) : Bool := cmp4 mem (pdst + 0) (psrc + 0) && cmp4 mem (pdst + 2) (psrc + 2)

def cmp7 (pdst psrc : Int) : Bool := cmp4 mem (pdst + 0) (psrc + 0) && cmp4 mem (pdst + 3) (psrc + 3)

/-- The `switch` over the bytes that remain after the wide loop; `false` is the early `return`. -/
def cmpRest (rest : Nat) (pdst psrc : Int) : Bool :=
  match rest with
  | 1 => cmp1 mem pdst psrc
  | 2 => cmp2 mem pdst psrc
  | 3 => cmp3 mem pdst psrc
  | 4 => cmp4 mem pdst psrc
  | 5 => cmp5 mem pdst psrc
  | 6 => cmp6 mem pdst psrc
  | 7 => cmp7 mem pdst psrc
  | _ => true

/-! ### `MemCmp` -/

/-- The wide loop of `MemCmp`: whether its first `k` turns went on. -/
def memCmpLoop (pdst psrc : Int) : Nat → Bool
  | 0 => true
  | k + 1 => memCmpLoop pdst psrc k && cmp8 mem (pdst + (8 * k : Nat)) (psrc + (8 * k : Nat))

/-- `MemCmp(byte*, int, byte*, int, int)` -/
def memCmp (dst : Int) (dstOffset : BitVec 32) (src : Int) (srcOffset byteLength : BitVec 32) : Bool :=
  let psrc := src + srcOffset.toInt
  let pdst := dst + dstOffset.toInt
  let longByteLength : BitVec 64 := byteLength.signExtend 64
  let longWriteLimit := longByteLength &&& ~~~7#64
  memCmpLoop mem pdst psrc (longWriteLimit.toNat / 8) &&
    cmpRest mem (longByteLength &&& 7#64).toNat (pdst + longWriteLimit.toNat) (psrc + longWriteLimit.toNat)

variable {mem} {p r : Int} {n k : Nat}

/-- The first `n` bytes from `p` and from `r` on are the same. -/
def SameBytes (mem : Memory) (p r : Int) (n : Nat) : Prop := ∀ i < n, mem (p + i) = mem (r + i)

private theorem cmp_iff : (load mem p n == load mem r n) = true ↔ SameBytes mem p r n := by
  rw [beq_iff_eq]
  exact load_eq_iff

private theorem sameBytes_append {m : Nat} (hk : k ≤ n) (hm : n ≤ k + m) :
    SameBytes mem p r n ∧ SameBytes mem (p + k) (r + k) m ↔ SameBytes mem p r (k + m) := by
  constructor
  · rintro ⟨hfirst, hsecond⟩ i hi
    by_cases hlt : i < n
    · exact hfirst i hlt
    · have h := hsecond (i - k) (by omega)
      rwa [show p + (k : Int) + (i - k : Nat) = p + i by omega,
        show r + (k : Int) + (i - k : Nat) = r + i by omega] at h
  · refine fun h => ⟨fun i hi => h i (by omega), fun i hi => ?_⟩
    have h := h (k + i) (by omega)
    rwa [show p + ((k + i : Nat) : Int) = p + k + i by omega,
      show r + ((k + i : Nat) : Int) = r + k + i by omega] at h

private theorem cmp_twice (hk : k ≤ n) :
    ((load mem (p + 0) n == load mem (r + 0) n) && (load mem (p + k) n == load mem (r + k) n)) = true ↔
      SameBytes mem p r (k + n) := by
  rw [Bool.and_eq_true, cmp_iff, cmp_iff, Int.add_zero, Int.add_zero]
  exact sameBytes_append hk (Nat.le_add_left n k)

theorem cmpRest_iff {rest : Nat} (h : rest < 8) : cmpRest mem rest p r = true ↔ SameBytes mem p r rest := by
  match rest, h with
  | 0, _ => exact ⟨fun _ i hi => absurd hi (Nat.not_lt_zero i), fun _ => rfl⟩
  | 1, _ => exact cmp_iff
  | 2, _ => exact cmp_iff
  | 3, _ => exact cmp_twice (n := 2) (k := 1) (by omega)
  | 4, _ => exact cmp_iff
  | 5, _ => exact cmp_twice (n := 4) (k := 1) (by omega)
  | 6, _ => exact cmp_twice (n := 4) (k := 2) (by omega)
  | 7, _ => exact cmp_twice (n := 4) (k := 3) (by omega)

theorem memCmpLoop_iff : memCmpLoop mem p r k = true ↔ SameBytes mem p r (8 * k) := by
  induction k with
  | zero => exact ⟨fun _ i hi => absurd hi (Nat.not_lt_zero i), fun _ => rfl⟩
  | succ k ih =>
    unfold memCmpLoop
    rw [Bool.and_eq_true, ih]
    exact (and_congr_right fun _ => cmp_iff).trans (sameBytes_append (Nat.le_refl _) (Nat.le_add_right _ 8))

/-- The wide loop and the rest compare all bytes. -/
theorem memCmp_iff (mem : Memory) (dst src : Int) (dstOffset srcOffset : BitVec 32) {byteLength : BitVec 32}
    (hn : 0 ≤ byteLength.toInt) :
    memCmp mem dst dstOffset src srcOffset byteLength = true ↔
      SameBytes mem (dst + dstOffset.toInt) (src + srcOffset.toInt) byteLength.toNat := by
  obtain ⟨hrest, hlimit⟩ := toNat_longByteLength hn
  have hturns : byteLength.toNat / 8 * 8 / 8 = byteLength.toNat / 8 := by omega
  have hlen : 8 * (byteLength.toNat / 8) + byteLength.toNat % 8 = byteLength.toNat := Nat.div_add_mod _ 8
  simp only [memCmp, hrest, hlimit, hturns]
  rw [Bool.and_eq_true, memCmpLoop_iff, cmpRest_iff (Nat.mod_lt _ (by decide)), Nat.mul_comm (byteLength.toNat / 8) 8,
    sameBytes_append (Nat.le_refl _) (Nat.le_add_right _ _), hlen]

/-- The result is `true` if and only if the ranges have the same bytes, and a memory with the same bytes in the two
ranges gives the same result. -/
theorem memCmp_decides (mem : Memory) (dst src : Int) (dstOffset srcOffset byteLength : BitVec 32)
    (hn : 0 ≤ byteLength.toInt) :
    (memCmp mem dst dstOffset src srcOffset byteLength = true ↔
      ∀ i < byteLength.toNat, mem (dst + dstOffset.toInt + i) = mem (src + srcOffset.toInt + i)) ∧
    ∀ mem' : Memory,
      (∀ i < byteLength.toNat, mem' (dst + dstOffset.toInt + i) = mem (dst + dstOffset.toInt + i) ∧
        mem' (src + srcOffset.toInt + i) = mem (src + srcOffset.toInt + i)) →
      memCmp mem' dst dstOffset src srcOffset byteLength = memCmp mem dst dstOffset src srcOffset byteLength := by
  refine ⟨memCmp_iff mem dst src dstOffset srcOffset hn, fun mem' hmem' => ?_⟩
  rw [Bool.eq_iff_iff, memCmp_iff mem' dst src dstOffset srcOffset hn, memCmp_iff mem dst src dstOffset srcOffset hn]
  refine forall_congr' fun i => forall_congr' fun hi => ?_
  rw [(hmem' i hi).1, (hmem' i hi).2]

/-- Eleven bytes that differ in the last one only. -/
theorem memCmp_decides_last :
    memCmp (fun a => if a = 110 then 1#8 else 0#8) 97 3#32 200 0#32 11#32 = false := by
  have h := (memCmp_decides (fun a => if a = 110 then 1#8 else 0#8) 97 200 3#32 0#32 11#32 (by decide)).1
  rw [Bool.eq_false_iff, Ne, h]
  intro hsame
  exact absurd (hsame 10 (by decide)) (by decide)

end Compare

end ServerLynx.Util
