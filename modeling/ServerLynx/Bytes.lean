import Mathlib.Data.BitVec

/-!
# Bytes in memory

A memory gives the byte at each address, and a value of `n` bytes lies in it with its lowest byte first.  What a
program does with wider loads and stores is said here in terms of single bytes: `load` and `store` are inverse, and a
store of what was loaded copies `n` bytes.
-/

namespace Bytes

/-- The byte at each address. -/
abbrev Memory := Int → BitVec 8

/-- The byte `i` of a value, the lowest byte first. -/
def byte {w : Nat} (v : BitVec w) (i : Nat) : BitVec 8 := v.extractLsb' (8 * i) 8

theorem getLsbD_byte {w : Nat} (v : BitVec w) (i j : Nat) :
    (byte v i).getLsbD j = (decide (j < 8) && v.getLsbD (8 * i + j)) := by
  simp [byte]

section Operations

variable {w w' n i k : Nat}

theorem byte_eq_iff {v : BitVec w} {u : BitVec w'} :
    byte v i = byte u k ↔ ∀ j < 8, v.getLsbD (8 * i + j) = u.getLsbD (8 * k + j) := by
  constructor
  · intro h j hj
    have hbit := congrArg (fun b => b.getLsbD j) h
    simpa only [getLsbD_byte, hj, decide_true, Bool.true_and] using hbit
  · intro h
    ext j hj
    rw [← BitVec.getLsbD_eq_getElem, ← BitVec.getLsbD_eq_getElem, getLsbD_byte, getLsbD_byte, h j hj]

theorem byte_zero (w i : Nat) : byte (0#w) i = 0#8 := by
  simp [byte]

theorem byte_eq_zero {v : BitVec w} (h : ∀ j < 8, v.getLsbD (8 * i + j) = false) : byte v i = 0#8 := by
  rw [← byte_zero w i]
  refine byte_eq_iff.2 fun j hj => ?_
  rw [h j hj, BitVec.getLsbD_zero]

theorem byte_of_le (v : BitVec w) (h : w ≤ 8 * i) : byte v i = 0#8 :=
  byte_eq_zero fun _ _ => v.getLsbD_of_ge _ (by omega)

theorem byte_and (v u : BitVec w) (i : Nat) : byte (v &&& u) i = byte v i &&& byte u i := by
  ext j hj
  simp [← BitVec.getLsbD_eq_getElem, getLsbD_byte, hj]

theorem byte_or (v u : BitVec w) (i : Nat) : byte (v ||| u) i = byte v i ||| byte u i := by
  ext j hj
  simp [← BitVec.getLsbD_eq_getElem, getLsbD_byte, hj]

theorem byte_ushiftRight (v : BitVec w) (k i : Nat) : byte (v >>> (8 * k)) i = byte v (k + i) := by
  refine byte_eq_iff.2 fun j _ => ?_
  rw [BitVec.getLsbD_ushiftRight, show 8 * k + (8 * i + j) = 8 * (k + i) + j by omega]

theorem byte_shiftLeft (v : BitVec (8 * n)) (k : Nat) (hi : i < n) :
    byte (v <<< (8 * k)) i = if k ≤ i then byte v (i - k) else 0#8 := by
  split
  · rename_i hki
    refine byte_eq_iff.2 fun j hj => ?_
    have hge : ¬ 8 * i + j < 8 * k := by omega
    have hlt : 8 * i + j < 8 * n := by omega
    rw [BitVec.getLsbD_shiftLeft, show 8 * i + j - 8 * k = 8 * (i - k) + j by omega]
    simp [hge, hlt]
  · refine byte_eq_zero fun j hj => ?_
    have hlt : 8 * i + j < 8 * k := by omega
    simp [hlt]

theorem byte_setWidth (v : BitVec w) (hi : i < n) : byte (v.setWidth (8 * n)) i = byte v i := by
  refine byte_eq_iff.2 fun j hj => ?_
  have hlt : 8 * i + j < 8 * n := by omega
  simp [hlt]

/-- Values with the same bytes are equal. -/
theorem eq_of_byte {v u : BitVec (8 * n)} (h : ∀ i < n, byte v i = byte u i) : v = u := by
  ext k hk
  have hbit := byte_eq_iff.1 (h (k / 8) (by omega)) (k % 8) (Nat.mod_lt k (by decide))
  rw [Nat.div_add_mod] at hbit
  rwa [← BitVec.getLsbD_eq_getElem, ← BitVec.getLsbD_eq_getElem]

/-- There is no carry between values of which one has the byte 0 wherever the other has not. -/
theorem byte_add {v u : BitVec (8 * n)} (h : ∀ i < n, byte v i = 0#8 ∨ byte u i = 0#8) (i : Nat) :
    byte (v + u) i = byte v i ||| byte u i := by
  rw [← byte_or, BitVec.add_eq_or_of_and_eq_zero]
  refine eq_of_byte fun i hi => ?_
  rw [byte_and, byte_zero]
  rcases h i hi with h | h
  · rw [h, BitVec.zero_and]
  · rw [h, BitVec.and_zero]

/-- The bytes of `u` are those of `v` in reverse order. -/
def Reversed (v u : BitVec (8 * n)) : Prop := ∀ i < n, byte u i = byte v (n - 1 - i)

theorem Reversed.symm {v u : BitVec (8 * n)} (h : Reversed v u) : Reversed u v := by
  intro i hi
  have hback := h (n - 1 - i) (by omega)
  rw [hback, show n - 1 - (n - 1 - i) = i by omega]

theorem Reversed.unique {v u u' : BitVec (8 * n)} (h : Reversed v u) (h' : Reversed v u') : u = u' :=
  eq_of_byte fun i hi => (h i hi).trans (h' i hi).symm

end Operations

/-- The value of `n` bytes from the address `p` on. -/
def load (mem : Memory) (p : Int) : (n : Nat) → BitVec (8 * n)
  | 0 => 0#0
  | n + 1 => load mem (p + 1) n ++ mem p

/-- The memory after a value of `n` bytes was stored at the address `p`. -/
def store (mem : Memory) (p : Int) (n : Nat) (v : BitVec (8 * n)) : Memory :=
  fun q => if p ≤ q ∧ q < p + n then byte v (q - p).toNat else mem q

theorem byte_load (mem : Memory) (p : Int) {n i : Nat} (hi : i < n) : byte (load mem p n) i = mem (p + i) := by
  induction n generalizing p i with
  | zero => exact absurd hi (Nat.not_lt_zero i)
  | succ n ih =>
    cases i with
    | zero =>
      ext j hj
      rw [← BitVec.getLsbD_eq_getElem, getLsbD_byte, load, BitVec.getLsbD_append]
      simp [hj, BitVec.getLsbD_eq_getElem]
    | succ i =>
      have h := ih (p + 1) (Nat.lt_of_succ_lt_succ hi)
      have hp : p + 1 + (i : Int) = p + (i + 1 : Nat) := by omega
      rw [hp] at h
      rw [← h]
      ext j hj
      rw [← BitVec.getLsbD_eq_getElem, ← BitVec.getLsbD_eq_getElem, getLsbD_byte, getLsbD_byte, load,
        BitVec.getLsbD_append]
      have hle : ¬ 8 * (i + 1) + j < 8 := by omega
      have hsub : 8 * (i + 1) + j - 8 = 8 * i + j := by omega
      simp [hle, hsub]

/-- A store of what was loaded copies bytes. -/
theorem store_load (mem src : Memory) (p r : Int) (n : Nat) (q : Int) :
    store mem p n (load src r n) q = if p ≤ q ∧ q < p + n then src (r + (q - p)) else mem q := by
  unfold store
  split
  · rename_i hq
    rw [byte_load src r (by omega)]
    congr 1
    omega
  · rfl

/-- Two loads give the same value if and only if the bytes there agree. -/
theorem load_eq_iff {mem mem' : Memory} {p r : Int} {n : Nat} :
    load mem p n = load mem' r n ↔ ∀ i < n, mem (p + i) = mem' (r + i) := by
  constructor
  · intro h i hi
    rw [← byte_load mem p hi, h, byte_load mem' r hi]
  · intro h
    refine eq_of_byte fun i hi => ?_
    rw [byte_load mem p hi, byte_load mem' r hi, h i hi]

/-- From `mem` to `mem'` the `n` bytes at `p` became `f 0`, `f 1`, and so on, and no other byte changed. -/
def Filled (mem mem' : Memory) (p : Int) (n : Nat) (f : Nat → BitVec 8) : Prop :=
  ∀ q, mem' q = if p ≤ q ∧ q < p + n then f (q - p).toNat else mem q

namespace Filled

variable {mem mem' mem'' : Memory} {p : Int} {n k : Nat} {f g : Nat → BitVec 8}

theorem refl (mem : Memory) (p : Int) (f : Nat → BitVec 8) : Filled mem mem p 0 f := by
  intro q
  rw [if_neg (by omega)]

/-- The bytes at the places below `n` and what is around them. -/
theorem iff_places : Filled mem mem' p n f ↔
    (∀ i < n, mem' (p + i) = f i) ∧ ∀ q, q < p ∨ p + n ≤ q → mem' q = mem q := by
  constructor
  · intro h
    refine ⟨fun i hi => ?_, fun q hq => ?_⟩
    · rw [h, if_pos (by omega)]
      congr 1
      omega
    · rw [h, if_neg (by omega)]
  · rintro ⟨hin, hout⟩ q
    split
    · rename_i hq
      have hi := hin (q - p).toNat (by omega)
      rwa [show p + ((q - p).toNat : Int) = q by omega] at hi
    · exact hout q (by omega)

theorem congr (h : Filled mem mem' p n f) (hfg : ∀ i < n, f i = g i) : Filled mem mem' p n g := by
  rw [iff_places] at h ⊢
  exact ⟨fun i hi => (h.1 i hi).trans (hfg i hi), h.2⟩

theorem of_outside (h : Filled mem mem' p n f) {q : Int} (hq : q < p ∨ p + n ≤ q) : mem' q = mem q :=
  (iff_places.1 h).2 q hq

/-- A memory is determined by what was filled. -/
theorem eq (h : Filled mem mem' p n f) (h' : Filled mem mem'' p n f) : mem' = mem'' := by
  funext q
  rw [h q, h' q]

/-- Both fill the same places, so they do it with the same bytes. -/
theorem unique (h : Filled mem mem' p n f) : Filled mem mem' p n g ↔ ∀ i < n, f i = g i := by
  refine ⟨fun hg i hi => ?_, h.congr⟩
  exact ((iff_places.1 h).1 i hi).symm.trans ((iff_places.1 hg).1 i hi)

/-- A second fill that starts inside the first or right after it. -/
theorem append {m : Nat} (h : Filled mem mem' p n f) (h' : Filled mem' mem'' (p + k) m fun i => f (k + i))
    (hk : k ≤ n) (hm : n ≤ k + m) : Filled mem mem'' p (k + m) f := by
  intro q
  rw [h' q]
  split
  · rename_i hq
    have hin : p ≤ q ∧ q < p + (k + m : Nat) := by omega
    have hplace : k + (q - (p + k)).toNat = (q - p).toNat := by omega
    simp only [if_pos hin, hplace]
  · rename_i hq
    rw [h q]
    by_cases hq' : p ≤ q ∧ q < p + n
    · have hin : p ≤ q ∧ q < p + (k + m : Nat) := by omega
      rw [if_pos hq', if_pos hin]
    · have hout : ¬ (p ≤ q ∧ q < p + (k + m : Nat)) := by omega
      rw [if_neg hq', if_neg hout]

/-- A copy fills with the bytes of the source. -/
theorem copy (mem src : Memory) (p r : Int) (n : Nat) :
    Filled mem (store mem p n (load src r n)) p n fun i => src (r + i) := by
  intro q
  rw [store_load]
  split
  · congr 2
    omega
  · rfl

end Filled

end Bytes
