import Mathlib.Init

/-!
# Shifts of a word in two halves

A word of `2 n` bits is its high half before its low half. A shift by less than `n` shifts both halves
and carries bits from one into the other; a shift by more moves one half.

Results:
* `append_shiftLeft_of_lt`, `append_shiftLeft_of_le`: shifts to the left.
* `append_ushiftRight_of_lt`, `append_ushiftRight_of_le`: shifts to the right.
* `append_sshiftRight_of_lt`, `append_sshiftRight_of_le`: shifts to the right that keep the sign.
-/

namespace LowriscLinux.Lib

variable {n : Nat} (high low : BitVec n) {b : Nat}

theorem append_shiftLeft_of_lt (hb : b < n) :
    (high ++ low) <<< b = (high <<< b ||| low >>> (n - b)) ++ (low <<< b) := by
  refine BitVec.eq_of_getLsbD_eq fun i hi => ?_
  simp only [BitVec.getLsbD_shiftLeft, BitVec.getLsbD_append, BitVec.getLsbD_or,
    BitVec.getLsbD_ushiftRight]
  by_cases hlow : i < n
  · simp only [hlow, if_true]
    by_cases hbit : i < b
    · simp [hbit]
    · simp [hbit, hi, show i - b < n by omega]
  · simp only [hlow, if_false]
    by_cases hcarry : i - n < b
    · simp [hi, hcarry, show ¬ i < b by omega, show i - b < n by omega,
        show n - b + (i - n) = i - b by omega]
    · simp [hi, hcarry, show ¬ i < b by omega, show ¬ i - b < n by omega,
        show i - n < n by omega, show i - n - b = i - b - n by omega,
        BitVec.getLsbD_of_ge low (n - b + (i - n)) (by omega)]

theorem append_shiftLeft_of_le (hb : n ≤ b) :
    (high ++ low) <<< b = (low <<< (b - n)) ++ (0 : BitVec n) := by
  refine BitVec.eq_of_getLsbD_eq fun i hi => ?_
  simp only [BitVec.getLsbD_shiftLeft, BitVec.getLsbD_append]
  by_cases hlow : i < n
  · simp [hlow, show i < b by omega]
  · by_cases hbit : i < b
    · simp [hlow, hbit, show i - n < b - n by omega]
    · simp [hlow, hbit, hi, show ¬ i - n < b - n by omega, show i - b < n by omega,
        show i - n < n by omega, show i - n - (b - n) = i - b by omega]

theorem append_ushiftRight_of_lt (hb : b < n) :
    (high ++ low) >>> b = (high >>> b) ++ (low >>> b ||| high <<< (n - b)) := by
  refine BitVec.eq_of_getLsbD_eq fun i hi => ?_
  simp only [BitVec.getLsbD_shiftLeft, BitVec.getLsbD_append, BitVec.getLsbD_or,
    BitVec.getLsbD_ushiftRight]
  by_cases hlow : i < n
  · by_cases hcarry : b + i < n
    · simp [hlow, hcarry, show i < n - b by omega]
    · simp [hlow, hcarry, show ¬ i < n - b by omega, show i - (n - b) = b + i - n by omega,
        BitVec.getLsbD_of_ge low (b + i) (by omega)]
  · simp [hlow, show ¬ b + i < n by omega, show b + (i - n) = b + i - n by omega]

theorem append_ushiftRight_of_le (hb : n ≤ b) :
    (high ++ low) >>> b = (0 : BitVec n) ++ (high >>> (b - n)) := by
  refine BitVec.eq_of_getLsbD_eq fun i hi => ?_
  simp only [BitVec.getLsbD_append, BitVec.getLsbD_ushiftRight]
  by_cases hlow : i < n
  · simp [hlow, show ¬ b + i < n by omega, show b - n + i = b + i - n by omega]
  · simp [hlow, show ¬ b + i < n by omega, BitVec.getLsbD_of_ge high (b + i - n) (by omega)]

theorem append_sshiftRight_of_lt (hb : b < n) :
    (high ++ low).sshiftRight b = (high.sshiftRight b) ++ (low >>> b ||| high <<< (n - b)) := by
  have hmsb : (high ++ low).msb = high.msb := by
    rw [BitVec.msb_append, if_neg (by omega)]
  refine BitVec.eq_of_getLsbD_eq fun i hi => ?_
  simp only [BitVec.getLsbD_sshiftRight, BitVec.getLsbD_append, BitVec.getLsbD_or, hmsb,
    BitVec.getLsbD_ushiftRight, BitVec.getLsbD_shiftLeft]
  by_cases hlow : i < n
  · by_cases hcarry : b + i < n
    · simp [hlow, hcarry, show ¬ n + n ≤ i by omega, show b + i < n + n by omega,
        show i < n - b by omega]
    · simp [hlow, hcarry, show ¬ n + n ≤ i by omega, show b + i < n + n by omega,
        show ¬ i < n - b by omega, show i - (n - b) = b + i - n by omega,
        BitVec.getLsbD_of_ge low (b + i) (by omega)]
  · simp [hlow, show ¬ n + n ≤ i by omega, show ¬ n ≤ i - n by omega,
      show ¬ b + i < n by omega, show (b + i < n + n) = (b + (i - n) < n) by grind,
      show b + (i - n) = b + i - n by omega]

theorem append_sshiftRight_of_le (hpos : 0 < n) (hb : n ≤ b) :
    (high ++ low).sshiftRight b = (high.sshiftRight (n - 1)) ++ (high.sshiftRight (b - n)) := by
  have hmsb : (high ++ low).msb = high.msb := by
    rw [BitVec.msb_append, if_neg (by omega)]
  have hsign : high.msb = high.getLsbD (n - 1) := BitVec.msb_eq_getLsbD_last high
  refine BitVec.eq_of_getLsbD_eq fun i hi => ?_
  simp only [BitVec.getLsbD_sshiftRight, BitVec.getLsbD_append, hmsb]
  by_cases hlow : i < n
  · by_cases hover : b + i < n + n
    · simp [hlow, hover, show ¬ n + n ≤ i by omega, show ¬ n ≤ i by omega,
        show ¬ b + i < n by omega, show b - n + i = b + i - n by omega,
        show b + i - n < n by omega]
    · simp [hlow, hover, show ¬ n + n ≤ i by omega, show ¬ n ≤ i by omega,
        show ¬ b - n + i < n by omega]
  · by_cases hfirst : i = n
    · subst hfirst
      simp [show ¬ b + i < i + i by omega, show ¬ i + i ≤ i by omega, show i ≠ 0 by omega, ← hsign]
    · simp [hlow, show ¬ n + n ≤ i by omega, show ¬ b + i < n + n by omega,
        show ¬ n ≤ i - n by omega, show ¬ n - 1 + (i - n) < n by omega]

end LowriscLinux.Lib
