import ServerLynx.Bytes

/-!
# `Util.MemSet` of the Unity package (`Util.cs`)

The fill with a 64-bit pattern and the overloads that widen a `byte`, a `short` or an `int` to such a pattern.  The
conversions are the unchecked ones of C#: a `byte` is widened by zeros, a `short` or an `int` by its sign.
-/

namespace ServerLynx.Util

open Bytes

/-! ### The copies of 1 to 8 bytes -/

variable (src : Memory → Memory)

/-- `Copy1`.  What `psrc` points into, in the current memory, is given by `src`: the same memory, or a local variable of
the caller. -/
def copy1 (pdst psrc : Int) (mem : Memory) : Memory := store mem pdst 1 (load (src mem) psrc 1)

def copy2 (pdst psrc : Int) (mem : Memory) : Memory := store mem pdst 2 (load (src mem) psrc 2)

def copy4 (pdst psrc : Int) (mem : Memory) : Memory := store mem pdst 4 (load (src mem) psrc 4)

def copy8 (pdst psrc : Int) (mem : Memory) : Memory := store mem pdst 8 (load (src mem) psrc 8)

def copy3 (pdst psrc : Int) (mem : Memory) : Memory :=
  copy2 src (pdst + 1) (psrc + 1) (copy2 src (pdst + 0) (psrc + 0) mem)

def copy5 (pdst psrc : Int) (mem : Memory) : Memory :=
  copy4 src (pdst + 1) (psrc + 1) (copy4 src (pdst + 0) (psrc + 0) mem)

def copy6 (pdst psrc : Int) (mem : Memory) : Memory :=
  copy4 src (pdst + 2) (psrc + 2) (copy4 src (pdst + 0) (psrc + 0) mem)

def copy7 (pdst psrc : Int) (mem : Memory) : Memory :=
  copy4 src (pdst + 3) (psrc + 3) (copy4 src (pdst + 0) (psrc + 0) mem)

/-- The `switch` over the bytes that remain after the wide loop. -/
def copyRest (rest : Nat) (pdst psrc : Int) (mem : Memory) : Memory :=
  match rest with
  | 1 => copy1 src pdst psrc mem
  | 2 => copy2 src pdst psrc mem
  | 3 => copy3 src pdst psrc mem
  | 4 => copy4 src pdst psrc mem
  | 5 => copy5 src pdst psrc mem
  | 6 => copy6 src pdst psrc mem
  | 7 => copy7 src pdst psrc mem
  | _ => mem

/-! ### `MemSet` -/

/-- A local variable of 64 bits, at the address 0 of its own. -/
def localVar (v : BitVec 64) : Memory := fun a => byte v a.toNat

/-- The wide loop of `MemSet`: its first `k` turns, where `cursor` goes up by 8. -/
def memSetLoop (pdst : Int) (ulongValue : BitVec 64) (mem : Memory) : Nat → Memory
  | 0 => mem
  | k + 1 => copy8 (fun _ => localVar ulongValue) (pdst + (8 * k : Nat)) 0 (memSetLoop pdst ulongValue mem k)

/-- `MemSet(byte*, int, ulong, int)` -/
def memSet (mem : Memory) (dst : Int) (dstOffset : BitVec 32) (ulongValue : BitVec 64) (byteLength : BitVec 32) :
    Memory :=
  let pdst := dst + dstOffset.toInt
  let longByteLength : BitVec 64 := byteLength.signExtend 64
  let longWriteLimit := longByteLength &&& ~~~7#64
  let mem := memSetLoop pdst ulongValue mem (longWriteLimit.toNat / 8)
  copyRest (fun _ => localVar ulongValue) (longByteLength &&& 7#64).toNat (pdst + longWriteLimit.toNat) 0 mem

/-- `MemSet(byte*, int, byte, int)` -/
def memSetByte (mem : Memory) (dst : Int) (dstOffset : BitVec 32) (byteValue : BitVec 8) (byteLength : BitVec 32) :
    Memory :=
  let ulval : BitVec 64 := byteValue.setWidth 64
  let ulongValue := ulval ||| ulval <<< 8 ||| ulval <<< 16 ||| ulval <<< 24 ||| ulval <<< 32 ||| ulval <<< 40 |||
    ulval <<< 48 ||| ulval <<< 56
  memSet mem dst dstOffset ulongValue byteLength

/-- `MemSet(byte*, int, short, int)` -/
def memSetShort (mem : Memory) (dst : Int) (dstOffset : BitVec 32) (shortValue : BitVec 16) (byteLength : BitVec 32) :
    Memory :=
  let ulval : BitVec 64 := shortValue.signExtend 64
  let ulongValue := ulval ||| ulval <<< 16 ||| ulval <<< 32 ||| ulval <<< 48
  memSet mem dst dstOffset ulongValue byteLength

/-- `MemSet(byte*, int, int, int)` -/
def memSetInt (mem : Memory) (dst : Int) (dstOffset : BitVec 32) (intValue : BitVec 32) (byteLength : BitVec 32) :
    Memory :=
  let ulval : BitVec 64 := intValue.signExtend 64
  let ulongValue := ulval ||| ulval <<< 32
  memSet mem dst dstOffset ulongValue byteLength

/-! ### The fill with a 64-bit pattern -/

section Fill

variable {src} {mem : Memory} {p r : Int} {f : Nat → BitVec 8}

/-- The bytes of the source from `r` on are `f 0`, `f 1`, and so on, whatever was written to the `n` places from `p` on
before they are read. -/
def Steady (src : Memory → Memory) (mem : Memory) (p : Int) (n : Nat) (r : Int) (f : Nat → BitVec 8) : Prop :=
  ∀ mem' : Memory, (∀ q, q < p ∨ p + n ≤ q → mem' q = mem q) → ∀ i < n, src mem' (r + i) = f i

/-- A source that does not change with the memory. -/
theorem steady_const (s mem : Memory) (p : Int) (n : Nat) (r : Int) :
    Steady (fun _ => s) mem p n r fun i => s (r + i) :=
  fun _ _ _ _ => rfl

/-- One copy copies all the bytes. -/
private theorem copy_once {n : Nat} (h : Steady src mem p n r f) :
    Filled mem (store mem p n (load (src mem) r n)) p n f :=
  (Filled.copy mem (src mem) p r n).congr fun i hi => h mem (fun _ _ => rfl) i hi

/-- Two copies, the second of which starts inside the first or right after it and goes on to the end, copy all bytes.
-/
private theorem copy_twice {n k : Nat} (hk : k ≤ n) (h : Steady src mem p (k + n) r f) {mem' : Memory}
    (hmem : mem' = store mem (p + 0) n (load (src mem) (r + 0) n)) :
    Filled mem (store mem' (p + k) n (load (src mem') (r + k) n)) p (k + n) f := by
  rw [Int.add_zero, Int.add_zero] at hmem
  have hfirst : Filled mem mem' p n f := by
    rw [hmem]
    exact (Filled.copy mem (src mem) p r n).congr fun i hi => h mem (fun _ _ => rfl) i (by omega)
  have hout : ∀ q, q < p ∨ p + (k + n : Nat) ≤ q → mem' q = mem q := fun q hq => hfirst.of_outside (by omega)
  refine hfirst.append (k := k) ?_ hk (Nat.le_add_left n k)
  refine (Filled.copy _ (src mem') (p + k) (r + k) n).congr fun i hi => ?_
  have hbyte := h mem' hout (k + i) (by omega)
  rwa [show r + ((k + i : Nat) : Int) = r + k + i by omega] at hbyte

/-- The copy of the remaining bytes. -/
theorem copyRest_filled {rest : Nat} (hlt : rest < 8) (h : Steady src mem p rest r f) :
    Filled mem (copyRest src rest p r mem) p rest f := by
  match rest, hlt with
  | 0, _ => exact .refl mem p f
  | 1, _ => exact copy_once h
  | 2, _ => exact copy_once h
  | 3, _ => exact copy_twice (n := 2) (k := 1) (by omega) h rfl
  | 4, _ => exact copy_once h
  | 5, _ => exact copy_twice (n := 4) (k := 1) (by omega) h rfl
  | 6, _ => exact copy_twice (n := 4) (k := 2) (by omega) h rfl
  | 7, _ => exact copy_twice (n := 4) (k := 3) (by omega) h rfl

/-- The wide loop fills with the bytes of the pattern, over and over again. -/
theorem memSetLoop_filled (v : BitVec 64) (mem : Memory) (p : Int) (k : Nat) :
    Filled mem (memSetLoop p v mem k) p (8 * k) fun i => byte v (i % 8) := by
  induction k with
  | zero => exact .refl mem p _
  | succ k ih =>
    refine ih.append (k := 8 * k) (m := 8) ?_ (Nat.le_refl _) (by omega)
    refine (Filled.copy _ (localVar v) (p + (8 * k : Nat)) 0 8).congr fun i hi => ?_
    have hmod : (8 * k + i) % 8 = i := by omega
    simp [localVar, hmod]

/-- `x & ~7` and `x & 7` are the multiple of 8 below `x` and what remains. -/
private theorem toNat_and_seven (x : BitVec 64) :
    (x &&& 7#64).toNat = x.toNat % 8 ∧ (x &&& ~~~7#64).toNat = x.toNat / 8 * 8 := by
  have hlow : (x &&& 7#64).toNat = x.toNat % 8 := by
    rw [BitVec.toNat_and]
    exact Nat.and_two_pow_sub_one_eq_mod x.toNat 3
  have hsum : (x &&& 7#64) + (x &&& ~~~7#64) = x := by
    rw [BitVec.add_eq_or_of_and_eq_zero]
    · ext i hi
      simp only [BitVec.getElem_or, BitVec.getElem_and, BitVec.getElem_not]
      cases x[i] <;> cases (7#64)[i] <;> rfl
    · ext i hi
      simp only [BitVec.getElem_and, BitVec.getElem_not, BitVec.getElem_zero]
      cases x[i] <;> cases (7#64)[i] <;> rfl
  refine ⟨hlow, ?_⟩
  have hadd := congrArg BitVec.toNat hsum
  rw [BitVec.toNat_add, hlow] at hadd
  have hle : (x &&& ~~~7#64).toNat ≤ x.toNat := by
    rw [BitVec.toNat_and]
    exact Nat.and_le_left
  have hlt := x.isLt
  omega

/-- A length that is not negative, as the code splits it into wide copies and a rest. -/
theorem toNat_longByteLength {n : BitVec 32} (hn : 0 ≤ n.toInt) :
    (n.signExtend 64 &&& 7#64).toNat = n.toNat % 8 ∧ (n.signExtend 64 &&& ~~~7#64).toNat = n.toNat / 8 * 8 := by
  have hlong : (n.signExtend 64).toNat = n.toNat := by
    have hmsb : n.msb = false := by
      rw [BitVec.msb_eq_toInt]
      simpa using hn
    rw [BitVec.signExtend_eq_setWidth_of_msb_false hmsb, BitVec.toNat_setWidth]
    have := n.isLt
    omega
  obtain ⟨hrest, hlimit⟩ := toNat_and_seven (n.signExtend 64)
  exact ⟨by rw [hrest, hlong], by rw [hlimit, hlong]⟩

/-- The fill with a 64-bit pattern: the pattern stays in phase through the wide loop and the rest. -/
theorem memSet_filled (mem : Memory) (dst : Int) (dstOffset : BitVec 32) (v : BitVec 64) {n : BitVec 32}
    (hn : 0 ≤ n.toInt) :
    Filled mem (memSet mem dst dstOffset v n) (dst + dstOffset.toInt) n.toNat fun i => byte v (i % 8) := by
  obtain ⟨hrest, hlimit⟩ := toNat_longByteLength hn
  have hturns : n.toNat / 8 * 8 / 8 = n.toNat / 8 := by omega
  simp only [memSet, hrest, hlimit, hturns]
  generalize dst + dstOffset.toInt = p
  have hloop := memSetLoop_filled v mem p (n.toNat / 8)
  have hlen : 8 * (n.toNat / 8) + n.toNat % 8 = n.toNat := by omega
  have hcopy : Filled (memSetLoop p v mem (n.toNat / 8)) (copyRest (fun _ => localVar v) (n.toNat % 8)
      (p + (n.toNat / 8 * 8 : Nat)) 0 (memSetLoop p v mem (n.toNat / 8))) (p + (8 * (n.toNat / 8) : Nat)) (n.toNat % 8)
      fun i => byte v ((8 * (n.toNat / 8) + i) % 8) := by
    rw [Nat.mul_comm]
    refine (copyRest_filled (by omega) (steady_const (localVar v) _ _ _ 0)).congr fun i hi => ?_
    have hmod : i % 8 = i := by omega
    simp [localVar, hmod]
  have h := hloop.append hcopy (Nat.le_refl _) (by omega)
  rwa [hlen] at h

/-- Each byte of the range gets the byte of the pattern at its place modulo 8, and no byte around the range changes. -/
theorem memSet_tiles (mem : Memory) (dst : Int) (dstOffset : BitVec 32) (ulongValue : BitVec 64)
    (byteLength : BitVec 32) (hn : 0 ≤ byteLength.toInt) :
    (∀ i < byteLength.toNat,
      memSet mem dst dstOffset ulongValue byteLength (dst + dstOffset.toInt + i) = byte ulongValue (i % 8)) ∧
    ∀ q, q < dst + dstOffset.toInt ∨ dst + dstOffset.toInt + byteLength.toNat ≤ q →
      memSet mem dst dstOffset ulongValue byteLength q = mem q :=
  Filled.iff_places.1 (memSet_filled mem dst dstOffset ulongValue hn)

/-- Eleven bytes: the last one, of an overlapping store, is the byte 2 of the pattern, and the next one is kept. -/
theorem memSet_tiles_eleven :
    memSet (fun _ => 0#8) 100 3#32 0x0807060504030201#64 11#32 (100 + (3#32).toInt + (10 : Nat)) = 3#8 ∧
    memSet (fun _ => 0#8) 100 3#32 0x0807060504030201#64 11#32 114 = 0#8 := by
  have h := memSet_tiles (fun _ => 0#8) 100 3#32 0x0807060504030201#64 11#32 (by decide)
  exact ⟨(h.1 10 (by decide)).trans (by decide), h.2 114 (by decide)⟩

end Fill

/-! ### The widened values -/

section Widen

/-- A value and its copies that are shifted by `w`, `2 * w` up to `t * w`, put together by `or`. -/
def tile (u : BitVec 64) (w : Nat) : Nat → BitVec 64
  | 0 => u
  | t + 1 => tile u w t ||| u <<< (w * (t + 1))

variable {u : BitVec 64} {w k : Nat}

private theorem getLsbD_tile_succ (u : BitVec 64) (w t : Nat) (hk : k < 64) :
    (tile u w (t + 1)).getLsbD k =
      ((tile u w t).getLsbD k || (decide (w * (t + 1) ≤ k) && u.getLsbD (k - w * (t + 1)))) := by
  rw [tile, BitVec.getLsbD_or, BitVec.getLsbD_shiftLeft]
  by_cases hlt : k < w * (t + 1)
  · have hle : ¬ w * (t + 1) ≤ k := by omega
    simp [hlt, hle]
  · have hle : w * (t + 1) ≤ k := by omega
    simp [hlt, hle, hk]

/-- A value of `w` bits that is widened by zeros is repeated. -/
theorem getLsbD_tile (hu : ∀ k, w ≤ k → u.getLsbD k = false) (t : Nat) (hk : k < 64) :
    (tile u w t).getLsbD k = (decide (k < w * (t + 1)) && u.getLsbD (k % w)) := by
  induction t with
  | zero =>
    by_cases hlt : k < w
    · simp [tile, hlt, Nat.mod_eq_of_lt hlt]
    · simp [tile, hlt, hu k (by omega)]
  | succ t ih =>
    have hnext : w * (t + 1 + 1) = w * (t + 1) + w := Nat.mul_succ w (t + 1)
    rw [getLsbD_tile_succ u w t hk, ih]
    by_cases hlt : k < w * (t + 1)
    · have hle : ¬ w * (t + 1) ≤ k := by omega
      simp [hlt, hle, show k < w * (t + 1 + 1) by omega]
    · obtain ⟨r, rfl⟩ : ∃ r, k = w * (t + 1) + r := ⟨k - w * (t + 1), by omega⟩
      by_cases hr : r < w
      · simp [hnext, hr, Nat.mod_eq_of_lt hr]
      · simp [hnext, hlt, hr, hu r (by omega)]

/-- A negative value is widened by ones, which hide the shifted copies. -/
theorem getLsbD_tile_neg (hu : ∀ k, w ≤ k → k < 64 → u.getLsbD k = true) (t : Nat) (hk : k < 64) :
    (tile u w t).getLsbD k = (decide (w ≤ k) || u.getLsbD k) := by
  induction t with
  | zero =>
    by_cases hlt : w ≤ k
    · simp [tile, hu k hlt hk]
    · simp [tile, hlt]
  | succ t ih =>
    rw [getLsbD_tile_succ u w t hk, ih]
    by_cases hlt : w ≤ k
    · simp [hlt]
    · have hle : ¬ w * (t + 1) ≤ k := fun hle => hlt (Nat.le_trans (Nat.le_mul_of_pos_right w (Nat.succ_pos t)) hle)
      simp [hlt, hle]

variable {m t i : Nat} {v : BitVec (8 * m)}

/-- The bytes of a pattern made from a value that was widened by zeros. -/
theorem byte_tile (hm : 0 < m) (ht : 64 ≤ 8 * m * (t + 1)) (hu : ∀ k, u.getLsbD k = v.getLsbD k) (hi : i < 8) :
    byte (tile u (8 * m) t) i = byte v (i % m) := by
  ext j hj
  have hk : 8 * i + j < 64 := by omega
  have hlow : 8 * (i % m) + j < 8 * m := by
    have := Nat.mod_lt i hm
    omega
  have hmod : (8 * i + j) % (8 * m) = 8 * (i % m) + j := by
    have hsplit : 8 * i + j = 8 * m * (i / m) + (8 * (i % m) + j) := by
      rw [Nat.mul_assoc, ← Nat.add_assoc, ← Nat.mul_add, Nat.div_add_mod]
    rw [hsplit, Nat.mul_add_mod, Nat.mod_eq_of_lt hlow]
  rw [← BitVec.getLsbD_eq_getElem, ← BitVec.getLsbD_eq_getElem, getLsbD_byte, getLsbD_byte,
    getLsbD_tile (fun k hle => (hu k).trans (BitVec.getLsbD_of_ge v k hle)) t hk, hmod, hu]
  simp [show 8 * i + j < 8 * m * (t + 1) by omega]

/-- A pattern made from a negative value has the bytes 255 behind those of the value. -/
theorem byte_tile_neg (hu : ∀ k < 64, u.getLsbD k = (decide (8 * m ≤ k) || v.getLsbD k)) (hi : i < 8) :
    byte (tile u (8 * m) t) i = if i < m then byte v i else 255#8 := by
  ext j hj
  have hk : 8 * i + j < 64 := by omega
  rw [← BitVec.getLsbD_eq_getElem, ← BitVec.getLsbD_eq_getElem, getLsbD_byte,
    getLsbD_tile_neg (fun k hle hlt => by rw [hu k hlt]; simp [hle]) t hk, hu _ hk]
  by_cases him : i < m
  · simp [him, show ¬ 8 * m ≤ 8 * i + j by omega, getLsbD_byte]
  · have hones : (255#8).getLsbD j = true := by
      have hall : ∀ j < 8, (255#8).getLsbD j = true := by decide
      exact hall j hj
    simp only [him, show 8 * m ≤ 8 * i + j by omega, hj, if_false, hones]
    simp

/-- A `short` or an `int` that is widened by its sign makes the pattern of its own bytes, for a fill of `n` bytes, if
and only if it is not negative or all of its bytes that come after the first `m` are 0xFF. -/
theorem tile_signExtend_iff (hm : m ∣ 8) (ht : 64 ≤ 8 * m * (t + 1)) (v : BitVec (8 * m)) (n : Nat) :
    (∀ i < n, byte (tile (v.signExtend 64) (8 * m) t) (i % 8) = byte v (i % m)) ↔
      0 ≤ v.toInt ∨ ∀ i, m ≤ i → i < 8 → i < n → byte v (i % m) = 255#8 := by
  have hpos : 0 < m := Nat.pos_of_dvd_of_pos hm (by decide)
  have hle : 8 * m ≤ 64 := by
    have := Nat.le_of_dvd (by decide) hm
    omega
  by_cases hmsb : v.msb = false
  · have hnonneg : 0 ≤ v.toInt := by
      rw [BitVec.msb_eq_toInt] at hmsb
      simpa using hmsb
    refine ⟨fun _ => .inl hnonneg, fun _ i _ => ?_⟩
    rw [byte_tile hpos ht _ (Nat.mod_lt i (by decide)), Nat.mod_mod_of_dvd i hm]
    intro k
    rw [BitVec.signExtend_eq_setWidth_of_msb_false hmsb, BitVec.getLsbD_setWidth]
    by_cases hk : k < 64
    · simp [hk]
    · simp [hk, BitVec.getLsbD_of_ge v k (by omega)]
  · have hmsb : v.msb = true := by simpa using hmsb
    have hneg : ¬ 0 ≤ v.toInt := by
      rw [BitVec.msb_eq_toInt] at hmsb
      simpa using hmsb
    have hbits : ∀ k < 64, (v.signExtend 64).getLsbD k = (decide (8 * m ≤ k) || v.getLsbD k) := by
      intro k hk
      rw [BitVec.getLsbD_signExtend, hmsb]
      by_cases hlt : k < 8 * m
      · simp [hk, hlt, Nat.not_le_of_lt hlt]
      · simp [hk, hlt, Nat.le_of_not_lt hlt]
    have hbyte : ∀ i, i < 8 → byte (tile (v.signExtend 64) (8 * m) t) i = if i < m then byte v i else 255#8 :=
      fun i hi => byte_tile_neg hbits hi
    constructor
    · intro h
      refine .inr fun i hmi hi hn => ?_
      have hb := h i hn
      rw [Nat.mod_eq_of_lt hi, hbyte i hi, if_neg (by omega)] at hb
      exact hb.symm
    · intro h i hn
      have hb := h.resolve_left hneg
      rw [hbyte _ (Nat.mod_lt i (by decide)), ← Nat.mod_mod_of_dvd i hm]
      split
      · rename_i hlt
        rw [Nat.mod_eq_of_lt hlt]
      · rename_i hge
        exact (hb (i % 8) (by omega) (Nat.mod_lt i (by decide)) (by omega)).symm

end Widen

/-! ### The overloads -/

/-- From `mem` to `mem'` the `n` bytes at `p` were filled with the bytes of `v`, over and over again. -/
def FilledWith {m : Nat} (v : BitVec (8 * m)) (mem mem' : Memory) (p : Int) (n : Nat) : Prop :=
  Filled mem mem' p n fun i => byte v (i % m)

/-- `v` is not negative, or each byte of it that a fill of `n` bytes puts at one of the places `m` to 7 is 0xFF. -/
def Widens {m : Nat} (v : BitVec (8 * m)) (n : Nat) : Prop :=
  0 ≤ v.toInt ∨ ∀ i, m ≤ i → i < 8 → i < n → byte v (i % m) = 255#8

private theorem filledWith_iff {m t : Nat} (hm : m ∣ 8) (ht : 64 ≤ 8 * m * (t + 1)) (v : BitVec (8 * m)) (mem : Memory)
    (dst : Int) (dstOffset : BitVec 32) {n : BitVec 32} (hn : 0 ≤ n.toInt) :
    FilledWith v mem (memSet mem dst dstOffset (tile (v.signExtend 64) (8 * m) t) n) (dst + dstOffset.toInt) n.toNat ↔
      Widens v n.toNat :=
  (memSet_filled mem dst dstOffset _ hn).unique.trans (tile_signExtend_iff hm ht v n.toNat)

/-- The typed overloads: a `byte` always fills with its value, a `short` or an `int` does if and only if it widens. -/
theorem memSet_overloads (mem : Memory) (dst : Int) (dstOffset n : BitVec 32) (hn : 0 ≤ n.toInt) :
    (∀ v : BitVec 8, FilledWith (m := 1) v mem (memSetByte mem dst dstOffset v n) (dst + dstOffset.toInt) n.toNat) ∧
    (∀ v : BitVec 16, FilledWith (m := 2) v mem (memSetShort mem dst dstOffset v n) (dst + dstOffset.toInt) n.toNat ↔
      Widens (m := 2) v n.toNat) ∧
    (∀ v : BitVec 32, FilledWith (m := 4) v mem (memSetInt mem dst dstOffset v n) (dst + dstOffset.toInt) n.toNat ↔
      Widens (m := 4) v n.toNat) := by
  refine ⟨fun v => ?_, fun v => ?_, fun v => ?_⟩
  · have h := memSet_filled mem dst dstOffset (tile (v.setWidth 64) 8 7) hn
    refine h.congr fun i _ => ?_
    rw [byte_tile (m := 1) (v := v) (by decide) (by decide) _ (Nat.mod_lt i (by decide)), Nat.mod_one, Nat.mod_one]
    intro k
    rw [BitVec.getLsbD_setWidth]
    by_cases hk : k < 64
    · simp [hk]
    · simp [hk, BitVec.getLsbD_of_ge v k (by omega)]
  · exact filledWith_iff (m := 2) (t := 3) (by decide) (by decide) v mem dst dstOffset hn
  · exact filledWith_iff (m := 4) (t := 1) (by decide) (by decide) v mem dst dstOffset hn

/-- A `short` that is not negative, over a wide store and three bytes more. -/
theorem memSet_overloads_short :
    FilledWith (m := 2) 0x1234#16 (fun _ => 0#8) (memSetShort (fun _ => 0#8) 100 3#32 0x1234#16 11#32) 103 11 :=
  ((memSet_overloads (fun _ => 0#8) 100 3#32 11#32 (by decide)).2.1 0x1234#16).2 (.inl (by decide))

/-- The `short` -2 in four bytes: the bytes are FE FF FF FF, not FE FF FE FF. -/
theorem memSetShort_negative :
    ¬ FilledWith (m := 2) (-2#16) (fun _ => 0#8) (memSetShort (fun _ => 0#8) 0 0#32 (-2#16) 4#32) 0 4 := by
  intro h
  have h₂ := h 2
  revert h₂
  decide +kernel

end ServerLynx.Util
