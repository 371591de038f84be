import AegisDB.Foundations.Float32
import Mathlib.Tactic.Ring

/-!
# Double-precision floats by their bits

Like a single-precision float, a double is its encoding. It denotes
`significand * 2 ^ (scale - 1075)`, up to the sign. Two conversions are needed of it: the
truncation to an integer, and the rounding to single precision, to the nearest float and to the even
one of two that are as near.
-/

namespace AegisDB

variable {d : F64}

structure F64 where
  bits : UInt64
  deriving DecidableEq, Repr

namespace F64

def magnitude (d : F64) : ℕ := d.bits.toNat % 0x8000000000000000

def Negative (d : F64) : Prop := 0x8000000000000000 ≤ d.bits.toNat

instance (d : F64) : Decidable d.Negative := inferInstanceAs (Decidable (_ ≤ _))

def IsFinite (d : F64) : Prop := d.magnitude < 0x7FF0000000000000

instance (d : F64) : Decidable d.IsFinite := inferInstanceAs (Decidable (_ < _))

def IsNaN (d : F64) : Prop := 0x7FF0000000000000 < d.magnitude

instance (d : F64) : Decidable d.IsNaN := inferInstanceAs (Decidable (_ < _))

/-- The exponent field, with that of a subnormal number replaced by the one of the same unit. -/
def scale (d : F64) : ℕ := max (d.magnitude / 2 ^ 52) 1

/-- The fraction, with the hidden bit of a normal number. -/
def significand (d : F64) : ℕ :=
  if d.magnitude / 2 ^ 52 = 0 then d.magnitude else 2 ^ 52 + d.magnitude % 2 ^ 52

/-- The integer part of the absolute value. -/
def truncate (d : F64) : ℕ :=
  if 1075 ≤ d.scale then d.significand * 2 ^ (d.scale - 1075)
  else d.significand / 2 ^ (1075 - d.scale)

def LeNat (d : F64) (n : ℕ) : Prop := d.Negative ∨ d.significand * 2 ^ d.scale ≤ n * 2 ^ 1075

def NatLe (n : ℕ) (d : F64) : Prop :=
  ¬ (d.Negative ∧ d.magnitude ≠ 0) ∧ n * 2 ^ 1075 ≤ d.significand * 2 ^ d.scale

def IsWhole (d : F64) : Prop := d.LeNat d.truncate

/-- `m / 2 ^ k`, rounded to the nearest number and to the even one of two that are as near. -/
def roundShift (m k : ℕ) : ℕ :=
  let r := m / 2 ^ k
  if 2 ^ k < 2 * (m % 2 ^ k) ∨ 2 * (m % 2 ^ k) = 2 ^ k ∧ r % 2 = 1 then r + 1 else r

/-- The magnitude of the nearest single-precision float: 24 bits of the significand, fewer below the
normal range, and the infinity behind the largest float. -/
def roundMagnitude (d : F64) : ℕ :=
  if d.IsNaN then 0x7FC00000
  else
    let q := max (d.scale + 29) 926
    min 0x7F800000 ((q - 926) * 2 ^ 23 + roundShift d.significand (q - d.scale))

/-- The conversion `(float)d`. -/
def toF32 (d : F64) : F32 :=
  ⟨UInt32.ofNat (d.roundMagnitude + if d.Negative then 0x80000000 else 0)⟩

-- one half, one tenth, and the largest double
example : toF32 ⟨0x3FE0000000000000⟩ = ⟨0x3F000000⟩ := by decide
example : toF32 ⟨0x3FB999999999999A⟩ = ⟨0x3DCCCCCD⟩ := by decide
example : toF32 ⟨0x7FEFFFFFFFFFFFFF⟩ = ⟨0x7F800000⟩ := by decide

/-! ## Truncation -/

theorem truncate_mul_le (d : F64) : d.truncate * 2 ^ 1075 ≤ d.significand * 2 ^ d.scale := by
  unfold truncate
  split
  · rename_i h
    rw [mul_assoc, ← pow_add, Nat.sub_add_cancel h]
  · rename_i h
    calc d.significand / 2 ^ (1075 - d.scale) * 2 ^ 1075
        = d.significand / 2 ^ (1075 - d.scale) * 2 ^ (1075 - d.scale) * 2 ^ d.scale := by
          rw [mul_assoc, ← pow_add, Nat.sub_add_cancel (by omega)]
      _ ≤ d.significand * 2 ^ d.scale := Nat.mul_le_mul_right _ (Nat.div_mul_le_self _ _)

theorem IsWhole.leNat {n : ℕ} (hd : d.IsWhole) (h : d.truncate ≤ n) : d.LeNat n :=
  hd.imp_right fun hd => hd.trans (Nat.mul_le_mul_right _ h)

theorem significand_lt (d : F64) : d.significand < 2 ^ 53 := by
  unfold significand
  split <;> omega

theorem truncate_lt (h : d.magnitude < 0x43F0000000000000) : d.truncate < 2 ^ 64 := by
  have hsig := d.significand_lt
  have hscale : d.scale ≤ 1086 := by
    unfold scale
    omega
  unfold truncate
  split
  · calc d.significand * 2 ^ (d.scale - 1075)
        ≤ d.significand * 2 ^ 11 := by gcongr <;> omega
      _ < 2 ^ 64 := by omega
  · exact (Nat.div_le_self _ _).trans_lt (by omega)

theorem eq_infinity (hnan : ¬ d.IsNaN) (hfin : ¬ d.IsFinite) :
    d = ⟨0x7FF0000000000000⟩ ∨ d = ⟨0xFFF0000000000000⟩ := by
  obtain ⟨bits⟩ := d
  have hlt := bits.toNat_lt
  simp only [IsNaN, IsFinite, magnitude] at hnan hfin
  have hbits : bits.toNat = 0x7FF0000000000000 ∨ bits.toNat = 0xFFF0000000000000 := by omega
  exact hbits.imp (fun h => congrArg mk (UInt64.toNat_inj.1 h))
    fun h => congrArg mk (UInt64.toNat_inj.1 h)

/-- An infinite bound has the finite floats on the side of its sign. -/
theorem toF32_lt_iff_of_infinite {f : F32} (hnan : ¬ d.IsNaN) (hfin : ¬ d.IsFinite)
    (hf : f.IsFinite) : d.toF32.Lt f ↔ d.Negative := by
  have hkey : -0x7F800000 < f.key ∧ f.key < 0x7F800000 := by
    unfold F32.key
    unfold F32.IsFinite at hf
    split <;> omega
  have hnan' : ¬ f.IsNaN := by
    unfold F32.IsNaN
    unfold F32.IsFinite at hf
    omega
  rcases eq_infinity hnan hfin with rfl | rfl
  · have h32 : toF32 ⟨0x7FF0000000000000⟩ = ⟨0x7F800000⟩ := by decide
    have hpos : F32.key ⟨0x7F800000⟩ = 0x7F800000 := by decide
    rw [h32]
    refine iff_of_false (fun h => ?_) (by decide)
    have := h.2.2
    omega
  · have h32 : toF32 ⟨0xFFF0000000000000⟩ = ⟨0xFF800000⟩ := by decide
    have hneg : F32.key ⟨0xFF800000⟩ = -0x7F800000 := by decide
    rw [h32]
    exact iff_of_true ⟨by decide, hnan', by omega⟩ (by decide)

end F64

end AegisDB
