import Mathlib.Algebra.Ring.Nat
import Mathlib.Order.Basic

/-!
# Addresses as machine words

Arithmetic of `n`-bit addresses through their values: offsets that do not wrap, distances, and
masks of the low bits.

Results:
* `toNat_add_lt`, `toNat_add_ite`, `toNat_sub_ite`: offsets that stay in the address space, sums
  and distances.
* `toNat_and_mask`, `toNat_and_not_mask`: the masks of the low bits are remainder and rounding
  down.
* `and_twoPow_eq_zero`: a mask of one bit tests the bit.
* `setWidth_signExtend`: the low part of a sign extension.
-/

namespace LowriscLinux.Lib

variable {n : Nat}

theorem toNat_add_lt {a : BitVec n} {k : Nat} (h : a.toNat + k < 2 ^ n) :
    (a + BitVec.ofNat n k).toNat = a.toNat + k := by
  have hk : k < 2 ^ n := by omega
  rw [BitVec.toNat_add, BitVec.toNat_ofNat, Nat.mod_eq_of_lt hk, Nat.mod_eq_of_lt h]

theorem add_ofNat_add (a : BitVec n) (i j : Nat) :
    a + BitVec.ofNat n i + BitVec.ofNat n j = a + BitVec.ofNat n (i + j) := by
  rw [BitVec.ofNat_add, BitVec.add_assoc]

theorem toNat_add_ite (a b : BitVec n) :
    (a + b).toNat =
      if a.toNat + b.toNat < 2 ^ n then a.toNat + b.toNat else a.toNat + b.toNat - 2 ^ n := by
  have ha := a.isLt
  have hb := b.isLt
  rw [BitVec.toNat_add]
  split
  · rw [Nat.mod_eq_of_lt (by omega)]
  · rw [Nat.mod_eq_sub_mod (by omega), Nat.mod_eq_of_lt (by omega)]

/-- The distance between two addresses. -/
theorem toNat_sub_ite (a b : BitVec n) :
    (a - b).toNat =
      if b.toNat ≤ a.toNat then a.toNat - b.toNat else 2 ^ n + a.toNat - b.toNat := by
  have ha := a.isLt
  have hb := b.isLt
  rw [BitVec.toNat_sub]
  split
  · rw [show 2 ^ n - b.toNat + a.toNat = a.toNat - b.toNat + 2 ^ n by omega, Nat.add_mod_right,
      Nat.mod_eq_of_lt (by omega)]
  · rw [show 2 ^ n - b.toNat + a.toNat = 2 ^ n + a.toNat - b.toNat by omega,
      Nat.mod_eq_of_lt (by omega)]

theorem toNat_sub_ofNat (a : BitVec n) {k : Nat} (h : k < 2 ^ n) :
    (a - BitVec.ofNat n k).toNat =
      if k ≤ a.toNat then a.toNat - k else 2 ^ n + a.toNat - k := by
  rw [toNat_sub_ite, BitVec.toNat_ofNat, Nat.mod_eq_of_lt h]

/-- Two numbers with the same remainder differ by at least the divisor. -/
theorem add_le_of_mod_eq {a b s : Nat} (hmod : a % s = b % s) (h : a < b) : a + s ≤ b := by
  have hdvd : s ∣ b - a := Nat.dvd_of_mod_eq_zero (Nat.sub_mod_eq_zero_of_mod_eq hmod.symm)
  have hle : s ≤ b - a := Nat.le_of_dvd (by omega) hdvd
  omega

theorem toNat_and_mask (a : BitVec n) {k : Nat} (h : k ≤ n) :
    (a &&& BitVec.ofNat n (2 ^ k - 1)).toNat = a.toNat % 2 ^ k := by
  have hle : 2 ^ k ≤ 2 ^ n := Nat.pow_le_pow_right (by decide) h
  have hpos : 0 < 2 ^ k := Nat.two_pow_pos k
  rw [BitVec.toNat_and, BitVec.toNat_ofNat, Nat.mod_eq_of_lt (by omega),
    Nat.and_two_pow_sub_one_eq_mod]

/-- A word is its low bits and the others. -/
theorem toNat_and_not_mask (a : BitVec n) (k : Nat) :
    (a &&& ~~~BitVec.ofNat n (2 ^ k - 1)).toNat = a.toNat / 2 ^ k * 2 ^ k := by
  have hshift : a &&& ~~~BitVec.ofNat n (2 ^ k - 1) = (a >>> k) <<< k := by
    ext i hi
    have hbit : (BitVec.ofNat n (2 ^ k - 1))[i] = decide (i < k) := by
      rw [← BitVec.getLsbD_eq_getElem, BitVec.getLsbD_ofNat, Nat.testBit_two_pow_sub_one]
      simp [hi]
    by_cases hik : i < k
    · simp [hik, hbit]
    · have hki : k + (i - k) = i := by omega
      simp [hik, hbit, hki, BitVec.getLsbD_eq_getElem hi]
  have hle : a.toNat / 2 ^ k * 2 ^ k ≤ a.toNat := Nat.div_mul_le_self _ _
  rw [hshift, BitVec.toNat_shiftLeft, BitVec.toNat_ushiftRight, Nat.shiftLeft_eq,
    Nat.shiftRight_eq_div_pow, Nat.mod_eq_of_lt (Nat.lt_of_le_of_lt hle a.isLt)]

theorem lt_of_getLsbD {n i : Nat} {v : BitVec n} (h : v.getLsbD i = true) : i < n := by
  by_contra hge
  rw [BitVec.getLsbD_of_ge v i (by omega)] at h
  cases h

/-- A single-bit mask tests the bit. -/
theorem and_twoPow_eq_zero {n i : Nat} (hi : i < n) (v : BitVec n) :
    v &&& BitVec.twoPow n i = 0 ↔ v.getLsbD i = false := by
  rw [BitVec.and_twoPow]
  by_cases hb : v.getLsbD i
  · simp only [hb, if_true, Bool.true_eq_false, iff_false]
    intro h
    have hbit := congrArg (fun u => BitVec.getLsbD u i) h
    simp [hi] at hbit
  · simp [hb]

/-- The low part of a sign extension is the word. -/
theorem setWidth_signExtend {n m : Nat} (h : n ≤ m) (v : BitVec n) :
    (v.signExtend m).setWidth n = v := by
  ext i hi
  have hi' : i < m := by omega
  simp [BitVec.getElem_signExtend, hi, hi']

end LowriscLinux.Lib
