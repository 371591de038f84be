import Mathlib.Data.Int.Basic

/-!
# Single-precision floats by their bits

A float is its 32 bits, so that two floats are equal when they are equal bit for bit. The comparison
of two floats is that of their order keys: the low 31 bits grow with the absolute value, and the
sign bit negates. A NaN compares with nothing.
-/

namespace AegisDB

structure F32 where
  bits : UInt32
  deriving DecidableEq, Repr

namespace F32

def magnitude (f : F32) : ℕ := f.bits.toNat % 0x80000000

/-- The order key: the magnitude, negated under a sign bit. -/
def key (f : F32) : ℤ := if f.bits.toNat < 0x80000000 then f.magnitude else -f.magnitude

def IsFinite (f : F32) : Prop := f.magnitude < 0x7F800000

instance (f : F32) : Decidable f.IsFinite := inferInstanceAs (Decidable (_ < _))

def IsNaN (f : F32) : Prop := 0x7F800000 < f.magnitude

instance (f : F32) : Decidable f.IsNaN := inferInstanceAs (Decidable (_ < _))

/-- The comparison `a < b` of the source language: false as soon as one side is a NaN. -/
def Lt (a b : F32) : Prop := ¬ a.IsNaN ∧ ¬ b.IsNaN ∧ a.key < b.key

instance (a b : F32) : Decidable (a.Lt b) := inferInstanceAs (Decidable (_ ∧ _ ∧ _))

/-- The comparison `a <= b` of the source language. -/
def Le (a b : F32) : Prop := ¬ a.IsNaN ∧ ¬ b.IsNaN ∧ a.key ≤ b.key

instance (a b : F32) : Decidable (a.Le b) := inferInstanceAs (Decidable (_ ∧ _ ∧ _))

/-- `0.0F`. -/
def zero : F32 := ⟨0⟩

/-- `1.0F`. -/
def one : F32 := ⟨0x3F800000⟩

def InUnit (f : F32) : Prop := f.IsFinite ∧ ¬ f.Lt zero ∧ ¬ one.Lt f

instance (f : F32) : Decidable f.InUnit := inferInstanceAs (Decidable (_ ∧ _ ∧ _))

/-- `f`, or `d` where `f` is outside of the unit interval. -/
def orDefault (d f : F32) : F32 := if f.InUnit then f else d

theorem zero_inUnit : zero.InUnit := by decide

theorem one_inUnit : one.InUnit := by decide

theorem orDefault_of_inUnit {d f : F32} (h : f.InUnit) : orDefault d f = f := if_pos h

theorem orDefault_inUnit {d f : F32} (h : d.InUnit) : (orDefault d f).InUnit := by
  unfold orDefault
  split
  · assumption
  · exact h

end F32

end AegisDB
