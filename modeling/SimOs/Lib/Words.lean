import Mathlib.Algebra.Group.Nat.Defs
import Mathlib.Algebra.Order.Ring.Int
import Mathlib.Tactic.Common
import Mathlib.Tactic.Positivity

/-!
# Fixed-width words

A word is read in two ways here.  As a number, a C integer is an integer kept in range by
wrapping, where signed values wrap in two's complement; the lemmas say when wrapping does
nothing.  As a record, a word has fields, runs of bits from `l` up to `h`.  A field is read
by masking and shifting down, and written by clearing it and merging a shifted value under
the same mask; the lemmas give the two operations their arithmetic meaning, and say which
bits a write leaves alone.

## Main definitions

* `CInt.uint`, `CInt.sint`: conversion to an unsigned and to a signed type of `w` bits.
* `BitField.mask`: the bits `l` to `h`.
* `BitField.get`, `BitField.set`: read and write under a mask.
* `BitField.toNat_get_mask`: reading is division and remainder.
* `BitField.toNat_get_set`: what is written is read back.
-/

/-! ## Numbers -/

namespace CInt

/-- Conversion to an unsigned type of `w` bits. -/
def uint (w : ℕ) (x : ℤ) : ℤ := x % 2 ^ w

/-- Conversion to a signed type of `w` bits. -/
def sint (w : ℕ) (x : ℤ) : ℤ := Int.bmod x (2 ^ w)

theorem uint_eq {w : ℕ} {x : ℤ} (h0 : 0 ≤ x) (hlt : x < 2 ^ w) : uint w x = x :=
  Int.emod_eq_of_lt h0 hlt

theorem sint_eq {w : ℕ} {x : ℤ} (hle : -2 ^ w ≤ x * 2) (hlt : x * 2 < 2 ^ w) :
    sint w x = x :=
  Int.bmod_eq_of_le_mul_two (by push_cast; exact hle) (by push_cast; exact hlt)

/-- The values of a signed type of `w + 1` bits. -/
theorem sint_range (w : ℕ) (x : ℤ) : -2 ^ w ≤ sint (w + 1) x ∧ sint (w + 1) x < 2 ^ w := by
  have hpos : (0 : ℤ) < 2 ^ w := by positivity
  have hpow : ((2 ^ (w + 1) : ℕ) : ℤ) = 2 * 2 ^ w := by
    push_cast
    rw [pow_succ, mul_comm]
  have hmod0 := Int.emod_nonneg x (show (2 * 2 ^ w : ℤ) ≠ 0 by omega)
  have hmod := Int.emod_lt_of_pos x (show (0 : ℤ) < 2 * 2 ^ w by omega)
  rw [sint, Int.bmod_def, hpow]
  split <;> omega

end CInt

/-! ## Fields -/

namespace BitField

variable {w : ℕ}

/-- The bits `l` to `h` of a word. -/
def mask (w h l : ℕ) : BitVec w :=
  (BitVec.allOnes w <<< l) &&& (BitVec.allOnes w >>> (w - h - 1))

/-- The field of `v` under the mask `m`, shifted down by `l`. -/
def get (v m : BitVec w) (l : ℕ) : BitVec w := (v &&& m) >>> l

/-- `v` with the field under `m` replaced by `x` shifted up by `l`. -/
def set (v x m : BitVec w) (l : ℕ) : BitVec w := (v &&& ~~~m) ||| ((x <<< l) &&& m)

/-- Testing one bit under its mask. -/
theorem and_twoPow_ne_zero {i : ℕ} (hi : i < w) (v : BitVec w) :
    v &&& BitVec.twoPow w i ≠ 0 ↔ v.getLsbD i = true := by
  have hne : BitVec.twoPow w i ≠ 0 := by
    intro hzero
    have hbit : (BitVec.twoPow w i).getLsbD i = (0 : BitVec w).getLsbD i := by rw [hzero]
    simp [hi] at hbit
  rw [BitVec.and_twoPow]
  cases v.getLsbD i with
  | true => simpa using hne
  | false => simp

theorem getLsbD_mask {h : ℕ} (hh : h < w) (l i : ℕ) :
    (mask w h l).getLsbD i = decide (l ≤ i ∧ i ≤ h) := by
  simp only [mask, BitVec.getLsbD_and, BitVec.getLsbD_shiftLeft, BitVec.getLsbD_ushiftRight,
    BitVec.getLsbD_allOnes]
  by_cases hl : l ≤ i <;> by_cases hi : i ≤ h <;> simp only [hl, hi] <;> simp <;> omega

theorem getLsbD_get (v m : BitVec w) (l i : ℕ) :
    (get v m l).getLsbD i = (v.getLsbD (l + i) && m.getLsbD (l + i)) := by
  simp only [get, BitVec.getLsbD_ushiftRight, BitVec.getLsbD_and]

/-- A write changes the bits under the mask only. -/
theorem getLsbD_set {v x m : BitVec w} {l i : ℕ} (hi : i < w) :
    (set v x m l).getLsbD i =
      if m.getLsbD i then decide (l ≤ i) && x.getLsbD (i - l) else v.getLsbD i := by
  simp only [set, BitVec.getLsbD_or, BitVec.getLsbD_and, BitVec.getLsbD_not,
    BitVec.getLsbD_shiftLeft]
  cases hm : m.getLsbD i with
  | true =>
      by_cases hl : l ≤ i
      · simp [hi, hl, Nat.not_lt.mpr hl]
      · simp [hi, hl, Nat.lt_of_not_le hl]
  | false => simp [hi]

/-- **Reading a field** is dividing and taking the remainder. -/
theorem toNat_get_mask {h l : ℕ} (hh : h < w) (v : BitVec w) :
    (get v (mask w h l) l).toNat = v.toNat / 2 ^ l % 2 ^ (h + 1 - l) := by
  apply Nat.eq_of_testBit_eq
  intro i
  rw [BitVec.testBit_toNat, getLsbD_get, getLsbD_mask hh, Nat.testBit_mod_two_pow,
    Nat.testBit_div_two_pow, BitVec.testBit_toNat, Nat.add_comm i l, Bool.and_comm]
  congr 1
  simp only [decide_eq_decide]
  omega

/-- **What is written is read back**, up to the width of the field. -/
theorem toNat_get_set {h l : ℕ} (hh : h < w) (hl : l ≤ h) (v x : BitVec w) :
    (get (set v x (mask w h l) l) (mask w h l) l).toNat = x.toNat % 2 ^ (h + 1 - l) := by
  apply Nat.eq_of_testBit_eq
  intro i
  rw [BitVec.testBit_toNat, getLsbD_get, Nat.testBit_mod_two_pow, BitVec.testBit_toNat]
  by_cases hi : l + i ≤ h
  · rw [getLsbD_set (by omega), getLsbD_mask hh]
    simp [hi, show i < h + 1 - l by omega]
  · rw [getLsbD_mask hh]
    simp [hi, show ¬ i < h + 1 - l by omega]

end BitField
