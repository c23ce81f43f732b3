import ServerLynx.Bytes

/-!
# `Util.HtoN` and `Util.NtoH` of the Unity package (`Util.cs`)

The conversions between the byte orders, for values of 16, 32 and 64 bits.  Each of them reverses the bytes of its
input; what follows from that for both directions and for the signed overloads is the same at each width.
-/

namespace ServerLynx.Util

open Bytes

/-! ### The overloads -/

/-- `HtoN(ushort)`.  In an expression a `ushort` is widened to an `int`. -/
def htoNUshort (input : UInt16) : UInt16 :=
  let input : Int32 := input.toUInt32.toInt32
  ((input >>> 8) + (input <<< 8)).toUInt32.toUInt16

def htoNShort (input : Int16) : Int16 := (htoNUshort input.toUInt16).toInt16

def ntoHUshort (input : UInt16) : UInt16 := htoNUshort input

def ntoHShort (input : Int16) : Int16 := (htoNUshort input.toUInt16).toInt16

/-- `HtoN(uint)` -/
def htoNUint (input : UInt32) : UInt32 :=
  let num1 := input &&& 0x00FF00FF
  let num2 := input &&& 0xFF00FF00
  (num1 >>> 8 ||| num1 <<< 24) + (num2 <<< 8 ||| num2 >>> 24)

def htoNInt (input : Int32) : Int32 := (htoNUint input.toUInt32).toInt32

def ntoHUint (input : UInt32) : UInt32 := htoNUint input

def ntoHInt (input : Int32) : Int32 := (htoNUint input.toUInt32).toInt32

/-- `HtoN(ulong)` -/
def htoNUlong (input : UInt64) : UInt64 :=
  ((htoNUint input.toUInt32).toUInt64 <<< 32) + (htoNUint (input >>> 32).toUInt32).toUInt64

def htoNLong (input : Int64) : Int64 := (htoNUlong input.toUInt64).toInt64

def ntoHUlong (input : UInt64) : UInt64 := htoNUlong input

def ntoHLong (input : Int64) : Int64 := (htoNUlong input.toUInt64).toInt64

/-! ### The bytes of the result -/

theorem htoNUshort_reversed (x : UInt16) : Reversed (n := 2) x.toBitVec (htoNUshort x).toBitVec := by
  have hbits : (htoNUshort x).toBitVec = x.toBitVec >>> 8 + x.toBitVec <<< 8 := by
    -- a widened `ushort` is not negative, so the shift to the right brings in zeros
    have hmsb : (x.toBitVec.setWidth 32).msb = false := by
      rw [BitVec.msb_setWidth]
      simp
    have hshift : ((x.toBitVec.setWidth 32) >>> 8).setWidth 16 = x.toBitVec >>> 8 := by
      ext k hk
      simp
      omega
    simp [htoNUshort, BitVec.sshiftRight_eq_of_msb_false hmsb, hshift]
  have hright : ∀ i, byte (x.toBitVec >>> 8) i = byte x.toBitVec (1 + i) := byte_ushiftRight x.toBitVec 1
  have hleft : ∀ i < 2, byte (x.toBitVec <<< 8) i = if 1 ≤ i then byte x.toBitVec (i - 1) else 0#8 :=
    fun i hi => byte_shiftLeft (n := 2) x.toBitVec 1 hi
  have hsum : ∀ i, byte (htoNUshort x).toBitVec i = byte (x.toBitVec >>> 8) i ||| byte (x.toBitVec <<< 8) i := by
    rw [hbits]
    refine byte_add (n := 2) fun i hi => ?_
    rw [hright, hleft i hi]
    by_cases h : 1 ≤ i
    · exact .inl (byte_of_le x.toBitVec (by omega))
    · rw [if_neg h]
      exact .inr rfl
  intro i hi
  rw [hsum, hright, hleft i hi]
  rcases show i = 0 ∨ i = 1 by omega with rfl | rfl
  · simp
  · have hover : byte x.toBitVec 2 = 0#8 := byte_of_le x.toBitVec (by decide)
    simp [hover]

private theorem byte_mask (x : BitVec 32) {i : Nat} (hi : i < 4) :
    byte (x &&& 0x00FF00FF#32) i = (if i % 2 = 0 then byte x i else 0#8) ∧
    byte (x &&& 0xFF00FF00#32) i = if i % 2 = 0 then 0#8 else byte x i := by
  have hones : ∀ b : BitVec 8, b &&& 255#8 = b := fun b => BitVec.and_allOnes
  have hmask : ∀ i < 4, byte 0x00FF00FF#32 i = (if i % 2 = 0 then 255#8 else 0#8) ∧
      byte 0xFF00FF00#32 i = if i % 2 = 0 then 0#8 else 255#8 := by decide
  rw [byte_and, byte_and, (hmask i hi).1, (hmask i hi).2]
  split
  · exact ⟨hones _, BitVec.and_zero⟩
  · exact ⟨BitVec.and_zero, hones _⟩

theorem htoNUint_reversed (x : UInt32) : Reversed (n := 4) x.toBitVec (htoNUint x).toBitVec := by
  have hbits : (htoNUint x).toBitVec =
      ((x.toBitVec &&& 0x00FF00FF#32) >>> 8 ||| (x.toBitVec &&& 0x00FF00FF#32) <<< 24) +
        ((x.toBitVec &&& 0xFF00FF00#32) <<< 8 ||| (x.toBitVec &&& 0xFF00FF00#32) >>> 24) := by
    simp [htoNUint]
  have hnum₁ : ∀ i < 4, byte (x.toBitVec &&& 0x00FF00FF#32) i = if i % 2 = 0 then byte x.toBitVec i else 0#8 :=
    fun i hi => (byte_mask x.toBitVec hi).1
  have hnum₂ : ∀ i < 4, byte (x.toBitVec &&& 0xFF00FF00#32) i = if i % 2 = 0 then 0#8 else byte x.toBitVec i :=
    fun i hi => (byte_mask x.toBitVec hi).2
  generalize x.toBitVec &&& 0x00FF00FF#32 = num1 at hbits hnum₁
  generalize x.toBitVec &&& 0xFF00FF00#32 = num2 at hbits hnum₂
  have hright : ∀ (num : BitVec 32) (k i : Nat), byte (num >>> (8 * k)) i = byte num (k + i) := byte_ushiftRight
  have hleft : ∀ (num : BitVec 32) (k i : Nat), i < 4 →
      byte (num <<< (8 * k)) i = if k ≤ i then byte num (i - k) else 0#8 :=
    fun num k i hi => byte_shiftLeft (n := 4) num k hi
  have hover : ∀ (num : BitVec 32) (i : Nat), 4 ≤ i → byte num i = 0#8 := fun num i hi => byte_of_le num (by omega)
  -- `num1` fills the odd places of the sum and `num2` the even ones
  have hfirst : ∀ i < 4, byte (num1 >>> 8 ||| num1 <<< 24) i =
      if i % 2 = 0 then 0#8 else byte x.toBitVec (3 - i) := by
    intro i hi
    rw [byte_or, hright num1 1, hleft num1 3 i hi]
    rcases show i = 0 ∨ i = 1 ∨ i = 2 ∨ i = 3 by omega with rfl | rfl | rfl | rfl <;> simp [hnum₁, hover]
  have hsecond : ∀ i < 4, byte (num2 <<< 8 ||| num2 >>> 24) i =
      if i % 2 = 0 then byte x.toBitVec (3 - i) else 0#8 := by
    intro i hi
    rw [byte_or, hright num2 3, hleft num2 1 i hi]
    rcases show i = 0 ∨ i = 1 ∨ i = 2 ∨ i = 3 by omega with rfl | rfl | rfl | rfl <;> simp [hnum₂, hover]
  intro i hi
  rw [hbits, byte_add (n := 4), hfirst i hi, hsecond i hi]
  · split
    · exact BitVec.zero_or
    · exact BitVec.or_zero
  · intro k hk
    rw [hfirst k hk, hsecond k hk]
    split
    · exact .inl rfl
    · exact .inr rfl

theorem htoNUlong_reversed (x : UInt64) : Reversed (n := 8) x.toBitVec (htoNUlong x).toBitVec := by
  have hlow := htoNUint_reversed x.toUInt32
  have hhigh := htoNUint_reversed (x >>> 32).toUInt32
  have hbits : (htoNUlong x).toBitVec = (htoNUint x.toUInt32).toBitVec.setWidth 64 <<< 32 +
      (htoNUint (x >>> 32).toUInt32).toBitVec.setWidth 64 := by
    simp [htoNUlong]
  have hbytes : ∀ i < 4, byte x.toUInt32.toBitVec i = byte x.toBitVec i ∧
      byte (x >>> 32).toUInt32.toBitVec i = byte x.toBitVec (4 + i) := by
    intro i hi
    have hshift : (x >>> 32).toUInt32.toBitVec = (x.toBitVec >>> 32).setWidth 32 := by simp
    rw [hshift, UInt64.toBitVec_toUInt32]
    have h₁ := byte_setWidth (n := 4) x.toBitVec hi
    have h₂ := byte_setWidth (n := 4) (x.toBitVec >>> 32) hi
    exact ⟨h₁, h₂.trans (byte_ushiftRight x.toBitVec 4 i)⟩
  generalize (htoNUint x.toUInt32).toBitVec = low at hbits hlow
  generalize (htoNUint (x >>> 32).toUInt32).toBitVec = high at hbits hhigh
  have hlowLeft : ∀ i < 8, byte (low.setWidth 64 <<< 32) i = if 4 ≤ i then byte low (i - 4) else 0#8 := by
    intro i hi
    have h := byte_shiftLeft (n := 8) (low.setWidth 64) 4 hi
    have hwide := byte_setWidth (n := 8) low (show i - 4 < 8 by omega)
    exact h.trans (by rw [hwide])
  have hhighRight : ∀ i < 8, byte (high.setWidth 64) i = if 4 ≤ i then 0#8 else byte high i := by
    intro i hi
    refine (byte_setWidth (n := 8) high hi).trans ?_
    split
    · exact byte_of_le high (by omega)
    · rfl
  intro i hi
  rw [hbits, byte_add (n := 8), hlowLeft i hi, hhighRight i hi]
  · split
    · rename_i h4
      rw [BitVec.or_zero, hlow (i - 4) (by omega), (hbytes _ (by omega)).1]
      congr 1
      omega
    · rename_i h4
      rw [BitVec.zero_or, hhigh i (by omega), (hbytes _ (by omega)).2]
      congr 1
      omega
  · intro k hk
    rw [hlowLeft k hk, hhighRight k hk]
    split
    · exact .inr rfl
    · exact .inl rfl

/-! ### What follows for both directions -/

/-- The overloads of `HtoN` and `NtoH` at one width: `U` is the unsigned type, whose values have the bytes that `bits`
gives, and `S` the signed type, whose bit patterns `cast` reads as unsigned. -/
structure ReversesBytes {U S : Type} {n : Nat} (bits : U → BitVec (8 * n)) (cast : S → U) (htoN ntoH : U → U)
    (htoNSigned ntoHSigned : S → S) : Prop where
  reversed : ∀ x, Reversed (bits x) (bits (htoN x)) ∧ Reversed (bits x) (bits (ntoH x))
  undone : ∀ x, ntoH (htoN x) = x ∧ htoN (ntoH x) = x ∧ htoN (htoN x) = x ∧ ntoH (ntoH x) = x
  injective : Function.Injective htoN ∧ Function.Injective ntoH
  signed : ∀ x, cast (htoNSigned x) = htoN (cast x) ∧ cast (ntoHSigned x) = ntoH (cast x)

/-- A conversion that reverses the bytes is its own inverse. -/
private theorem ReversesBytes.of_reversed {U S : Type} {n : Nat} {bits : U → BitVec (8 * n)} {cast : S → U}
    {htoN : U → U} {htoNSigned : S → S} (hbits : Function.Injective bits)
    (hrev : ∀ x, Reversed (bits x) (bits (htoN x))) (hsigned : ∀ x, cast (htoNSigned x) = htoN (cast x)) :
    ReversesBytes bits cast htoN htoN htoNSigned htoNSigned := by
  have htwice : ∀ x, htoN (htoN x) = x := fun x => hbits ((hrev (htoN x)).unique (hrev x).symm)
  have hinj : Function.Injective htoN := Function.LeftInverse.injective htwice
  exact ⟨fun x => ⟨hrev x, hrev x⟩, fun x => ⟨htwice x, htwice x, htwice x, htwice x⟩, ⟨hinj, hinj⟩,
    fun x => ⟨hsigned x, hsigned x⟩⟩

/-- At each width `HtoN` and `NtoH` reverse the bytes, undo each other and are injective, and their signed overloads
give the same bit patterns. -/
theorem htoN_reverses :
    ReversesBytes (n := 2) UInt16.toBitVec Int16.toUInt16 htoNUshort ntoHUshort htoNShort ntoHShort ∧
    ReversesBytes (n := 4) UInt32.toBitVec Int32.toUInt32 htoNUint ntoHUint htoNInt ntoHInt ∧
    ReversesBytes (n := 8) UInt64.toBitVec Int64.toUInt64 htoNUlong ntoHUlong htoNLong ntoHLong := by
  refine ⟨.of_reversed ?_ htoNUshort_reversed fun _ => rfl, .of_reversed ?_ htoNUint_reversed fun _ => rfl,
    .of_reversed ?_ htoNUlong_reversed fun _ => rfl⟩
  · exact fun x y h => UInt16.toBitVec_inj.1 h
  · exact fun x y h => UInt32.toBitVec_inj.1 h
  · exact fun x y h => UInt64.toBitVec_inj.1 h

example : htoNUlong 0x0102030405060708 = 0x0807060504030201 := by decide

end ServerLynx.Util
