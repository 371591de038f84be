import Mathlib.Data.List.Basic
import Mathlib.Tactic.Ring

/-!
# Byte strings and little-endian words

Byte strings are lists of bytes. A word of `n` bytes is written least significant byte first
(`leBytes`) and read back by `leNat`; the two are inverse to each other on values below `256 ^ n`
(`leNat_leBytes_of_lt`) and on strings of length `n` (`leBytes_leNat`).

`slice b off n` is the read of `n` bytes at offset `off`, which fails when the string is too short:
the bounded read of a file.
-/

namespace AegisDB

open List

variable {b : Bytes}

abbrev Bytes := List UInt8

namespace Bytes

/-! ## Little-endian words -/

/-- The `n` low bytes of `v`, least significant first. -/
def leBytes : ℕ → ℕ → Bytes
  | 0, _ => []
  | n + 1, v => UInt8.ofNat v :: leBytes n (v / 256)

/-- The number a little-endian byte string denotes. -/
def leNat : Bytes → ℕ
  | [] => 0
  | b :: bs => b.toNat + 256 * leNat bs

@[simp] theorem length_leBytes (n v : ℕ) : (leBytes n v).length = n := by
  induction n generalizing v with
  | zero => rfl
  | succ n ih => simp [leBytes, ih]

theorem leNat_leBytes (n v : ℕ) : leNat (leBytes n v) = v % 256 ^ n := by
  induction n generalizing v with
  | zero => simp [leBytes, leNat, Nat.mod_one]
  | succ n ih =>
    simp only [leBytes, leNat, ih, UInt8.toNat_ofNat']
    rw [show (256 : ℕ) ^ (n + 1) = 256 * 256 ^ n by ring, Nat.mod_mul]

theorem leNat_leBytes_of_lt {n v : ℕ} (h : v < 256 ^ n) : leNat (leBytes n v) = v := by
  rw [leNat_leBytes, Nat.mod_eq_of_lt h]

theorem leBytes_leNat (b : Bytes) : leBytes b.length (leNat b) = b := by
  induction b with
  | nil => rfl
  | cons x b ih =>
    have hx : x.toNat < 256 := x.toNat_lt
    have hmod : UInt8.ofNat (x.toNat + 256 * leNat b) = x := by
      apply UInt8.toNat_inj.mp
      rw [UInt8.toNat_ofNat']
      omega
    have hdiv : (x.toNat + 256 * leNat b) / 256 = leNat b := by omega
    simp only [length_cons, leNat, leBytes, hmod, hdiv, ih]

/-- The `n` bytes at offset `off`, when there are that many. -/
def slice (b : Bytes) (off n : ℕ) : Option Bytes :=
  if off + n ≤ b.length then some ((b.drop off).take n) else none

theorem slice_eq_some {off n : ℕ} (h : off + n ≤ b.length) :
    slice b off n = some ((b.drop off).take n) := if_pos h

theorem slice_eq_none {off n : ℕ} (h : b.length < off + n) :
    slice b off n = none := if_neg (by omega)

theorem slice_isSome {off n : ℕ} : (slice b off n).isSome ↔ off + n ≤ b.length := by
  unfold slice
  split <;> simp [*]

theorem length_of_slice {s : Bytes} {off n : ℕ} (h : slice b off n = some s) : s.length = n := by
  unfold slice at h
  split at h
  · cases h
    simp only [length_take, length_drop]
    omega
  · cases h

theorem le_of_slice {s : Bytes} {off n : ℕ} (h : slice b off n = some s) :
    off + n ≤ b.length := slice_isSome.1 (by simp [h])

/-- A read that fits in the first part of an append does not see the second. -/
theorem slice_append_left {c : Bytes} {off n : ℕ} (h : off + n ≤ b.length) :
    slice (b ++ c) off n = slice b off n := by
  rw [slice_eq_some h, slice_eq_some (by rw [length_append]; omega),
    drop_append_of_le_length (by omega), take_append_of_le_length]
  rw [length_drop]
  omega

/-- A read behind the first part of an append is a read of the second. -/
theorem slice_append_right (b c : Bytes) (off n : ℕ) :
    slice (b ++ c) (b.length + off) n = slice c off n := by
  unfold slice
  rw [length_append, drop_length_add_append]
  by_cases h : off + n ≤ c.length
  · rw [if_pos h, if_pos (by omega)]
  · rw [if_neg h, if_neg (by omega)]

/-- Reading the first `n` bytes of an append whose first part has that length. -/
theorem slice_zero_append {n : ℕ} (c : Bytes) (h : b.length = n) : slice (b ++ c) 0 n = some b := by
  rw [slice_append_left (by omega), slice_eq_some (by omega), drop_zero, ← h, take_length]

end Bytes

end AegisDB
