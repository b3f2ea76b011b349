import LowriscLinux.Kernel.PtRegs
import LowriscLinux.Lib.Memory
import LowriscLinux.Lib.ZeroByte
import Mathlib.Data.Nat.Size

/-!
# The word-at-a-time search for a zero byte

Model of the little-endian half of `arch/riscv/include/asm/word-at-a-time.h` (lines 9-41), with
which strings are copied from user space and compared a word at a time.

## What models what

* `Constants` and `wordAtATimeConstants`: lines 9-13.
* `hasZero`: lines 15-21, what it returns and what it leaves in `*bits`. `prepZeroMask`: lines
  23-27, which hands `bits` on.
* `createZeroMask`: lines 29-33, the bytes below the lowest mark. `findZero`: lines 35-38.
  `zeroBytemask`: line 41.
* `repeatByte` and `fls64`: `REPEAT_BYTE` and `fls64` are of generic headers that are not in the
  tree. The first one puts a byte into all bytes of a word, and the second one is the number of the
  highest bit, counted from 1, and 0 for 0.

`has_zero` gives the mask of `zeroMask` in the library (`Lib/ZeroByte.lean`), whose lowest mark
alone can be trusted, and the other helpers only look at that one.

Results:
* `hasZero_eq`, `createZeroMask_eq`: the two masks.
* `zero_search_exact`: the search finds the first zero byte and the bytes before it.
* `firstZero_loadWord_iff`: that byte, in memory.
-/

namespace LowriscLinux.Mm.WordAtATime

open Kernel Lib

variable {w : Xlen}

/-- `struct word_at_a_time`. -/
structure Constants (w : Xlen) where
  oneBits : Word w
  highBits : Word w

/-- `REPEAT_BYTE`. -/
def repeatByte (x : Word w) : Word w := ~~~0 / 0xff * x

/-- `WORD_AT_A_TIME_CONSTANTS`. -/
def wordAtATimeConstants : Constants w := ⟨repeatByte 0x01, repeatByte 0x80⟩

/-- `has_zero`: what it returns, and `*bits`. -/
def hasZero (val : Word w) (c : Constants w) : Word w × Word w :=
  let mask := ((val - c.oneBits) &&& ~~~val) &&& c.highBits
  (mask, mask)

/-- `prep_zero_mask`. -/
def prepZeroMask (_val bits : Word w) (_c : Constants w) : Word w := bits

/-- `create_zero_mask`. -/
def createZeroMask (bits : Word w) : Word w :=
  let bits := (bits - 1) &&& ~~~bits
  bits >>> 7

/-- `fls64`: one more than the position of the highest bit, and 0 for 0. -/
def fls64 (x : BitVec 64) : Nat := x.toNat.size

/-- `find_zero`. -/
def findZero (mask : Word w) : Word w := BitVec.ofNat _ (fls64 (mask.setWidth 64) >>> 3)

/-- `zero_bytemask`. -/
def zeroBytemask (mask : Word w) : Word w := mask

/-! ## The masks -/

theorem repeatByte_one : repeatByte (0x01 : Word w) = ofBytes (szreg w) fun _ => 1 := by
  cases w <;> decide

theorem repeatByte_high : repeatByte (0x80 : Word w) = ofBytes (szreg w) fun _ => 0x80 := by
  cases w <;> decide

theorem hasZero_eq (val : Word w) :
    hasZero val wordAtATimeConstants = (byteMask val, byteMask val) := by
  rw [hasZero, wordAtATimeConstants, repeatByte_one, repeatByte_high]
  rfl

/-- The mask is the bytes below the first zero byte. -/
theorem createZeroMask_eq {val : Word w} {k : Nat} (h : FirstZero val k) :
    createZeroMask (byteMask val) = BitVec.ofNat _ (2 ^ (8 * k) - 1) := by
  have hk := h.lt
  have hle : 2 ^ (8 * k + 7) < 2 ^ (8 * szreg w) := Nat.pow_lt_pow_right (by decide) (by omega)
  have hpow : 2 ^ (8 * k + 7) = 128 * 2 ^ (8 * k) := by rw [Nat.pow_add, Nat.mul_comm]
  have hpos := Nat.two_pow_pos (8 * k)
  have hbelow := belowLowest_eq (zeroMask_mod h)
  apply BitVec.eq_of_toNat_eq
  show (belowLowest (byteMask val) >>> 7).toNat = _
  rw [hbelow, BitVec.toNat_ushiftRight, BitVec.toNat_ofNat, BitVec.toNat_ofNat,
    Nat.shiftRight_eq_div_pow, Nat.mod_eq_of_lt (by omega), Nat.mod_eq_of_lt (by omega), hpow]
  omega

/-! ## The position -/

theorem fls64_ones {x : BitVec 64} {k : Nat} (h : x.toNat = 2 ^ k - 1) : fls64 x = k := by
  have hpos := Nat.two_pow_pos k
  have hle : fls64 x ≤ k := Nat.size_le.mpr (by omega)
  cases k with
  | zero => omega
  | succ k =>
    have hpow : 2 ^ (k + 1) = 2 * 2 ^ k := Nat.pow_succ'
    have hpos' := Nat.two_pow_pos k
    have hgt : ¬ fls64 x ≤ k := fun hk => by
      have hlt := Nat.size_le.mp hk
      omega
    omega

theorem findZero_ones {k : Nat} (hk : k < szreg w) :
    (findZero (BitVec.ofNat _ (2 ^ (8 * k) - 1) : Word w)).toNat = k := by
  have hle : 2 ^ (8 * k) ≤ 2 ^ (8 * szreg w) := Nat.pow_le_pow_right (by decide) (by omega)
  have hle64 : 2 ^ (8 * k) ≤ 2 ^ 64 :=
    Nat.pow_le_pow_right (by decide) (by cases w <;> simp only [szreg] at hk <;> omega)
  have hpos := Nat.two_pow_pos (8 * k)
  have hval : (BitVec.ofNat _ (2 ^ (8 * k) - 1) : Word w).toNat = 2 ^ (8 * k) - 1 := by
    rw [BitVec.toNat_ofNat, Nat.mod_eq_of_lt (by omega)]
  have hval64 : ((BitVec.ofNat _ (2 ^ (8 * k) - 1) : Word w).setWidth 64).toNat =
      2 ^ (8 * k) - 1 := by
    rw [BitVec.toNat_setWidth, hval, Nat.mod_eq_of_lt (by omega)]
  have hszreg : szreg w < 2 ^ (8 * szreg w) := by cases w <;> decide
  rw [findZero, fls64_ones hval64, BitVec.toNat_ofNat, Nat.shiftRight_eq_div_pow,
    Nat.mul_div_cancel_left k (by decide), Nat.mod_eq_of_lt (by omega)]

/-- **The search is exact**: `has_zero` tells whether there is a zero byte, and if so `find_zero`
is the index of the first one and `zero_bytemask` covers the bytes before it. -/
theorem zero_search_exact (val : Word w) :
    let c : Constants w := wordAtATimeConstants
    let mask := createZeroMask (prepZeroMask val (hasZero val c).2 c)
    ((hasZero val c).1 ≠ 0 ↔ ∃ i < szreg w, byteAt val i = 0) ∧
    ((hasZero val c).1 ≠ 0 →
      FirstZero val (findZero mask).toNat ∧
      ∀ i < szreg w,
        byteAt (zeroBytemask mask) i = if i < (findZero mask).toNat then 0xFF else 0) := by
  intro c mask
  have hiff : (hasZero val c).1 ≠ 0 ↔ ∃ i < szreg w, byteAt val i = 0 := by
    rw [hasZero_eq, ne_eq, zeroMask_eq_zero_iff]
    push Not
    rfl
  refine ⟨hiff, fun hne => ?_⟩
  obtain ⟨k, hk⟩ := exists_firstZero (hiff.mp hne)
  have hmask : mask = BitVec.ofNat _ (2 ^ (8 * k) - 1) := by
    show createZeroMask (hasZero val c).2 = _
    rw [hasZero_eq, createZeroMask_eq hk]
  rw [hmask, findZero_ones hk.lt]
  exact ⟨hk, fun i hi => byteAt_low_ones hi⟩

/-- A word whose second byte is zero and whose third one is marked too. -/
theorem zero_search_exact_borrow :
    let mask := createZeroMask (hasZero (0x41010041 : Word .rv32) wordAtATimeConstants).2
    FirstZero (0x41010041 : Word .rv32) (findZero mask).toNat ∧
      ∀ i < szreg .rv32,
        byteAt (zeroBytemask mask) i = if i < (findZero mask).toNat then 0xFF else 0 :=
  (zero_search_exact (0x41010041 : Word .rv32)).2 (by decide)

/-- The first zero byte of a word in memory is the end of a string that starts there. -/
theorem firstZero_loadWord_iff {n k : Nat} (mem : Memory n) (a : BitVec n) :
    FirstZero (loadWord (szreg w) mem a) k ↔
      k < szreg w ∧ mem (a + BitVec.ofNat n k) = 0 ∧
        ∀ j < k, mem (a + BitVec.ofNat n j) ≠ 0 := by
  constructor
  · rintro ⟨hk, hzero, hbefore⟩
    refine ⟨hk, byteAt_loadWord mem a hk ▸ hzero, fun j hj => ?_⟩
    exact byteAt_loadWord mem a (show j < szreg w by omega) ▸ hbefore j hj
  · rintro ⟨hk, hzero, hbefore⟩
    refine ⟨hk, (byteAt_loadWord mem a hk).trans hzero, fun j hj => ?_⟩
    rw [byteAt_loadWord mem a (by omega)]
    exact hbefore j hj

end LowriscLinux.Mm.WordAtATime
