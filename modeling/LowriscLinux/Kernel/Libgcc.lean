import LowriscLinux.Lib.CInt
import LowriscLinux.Lib.Halves

/-!
# 64-bit shifts on 32-bit machines

Model of `__ashldi3`, `__ashrdi3` and `__lshrdi3` (`arch/riscv/lib`), which the compiler calls for
the shifts of `long long`.

## What models what

* `DWstruct`: `struct DWstruct` of `libgcc.h`, lines 12-15: two words, the low one first on this
  little-endian machine. `DWstruct.ofLl` and `DWstruct.ll` are the two sides of `DWunion` (lines
  20-23).
* `shift`: a shift of C by an `int`, which gives `none` for a count that C does not define. One of a
  negative `int` to the right keeps the sign, as the compiler does.
* `ashldi3`: `ashldi3.c`, lines 5-27. `bm` is `32 - b`, and a count that is not positive shifts the
  low word out of its place (lines 16-18).
* `shrdi3`: the two shifts to the right, which differ in how the high word is shifted and in what is
  left of it (`ashrdi3.c`, lines 16-26, and `lshrdi3.c`, lines 16-25). `ashrdi3` and `lshrdi3` apply
  it.

`word_type` is an integer of any size here. The shifts of `long long` are defined for counts from 0
to 63, and `libgcc.h` declares three more functions that `arch/riscv/lib` does not define.

Results:
* **`shifts_exact`**: the functions are the 64-bit shifts where these are defined, and do nothing
  that C does not define there.
-/

namespace LowriscLinux.Kernel.Libgcc

open Lib

/-! ## The code -/

/-- `struct DWstruct` -/
structure DWstruct where
  low : BitVec 32
  high : BitVec 32

/-- `DWunion`, from and to `ll`. -/
def DWstruct.ofLl (ll : BitVec 64) : DWstruct := ⟨ll.extractLsb' 0 32, ll.extractLsb' 32 32⟩
def DWstruct.ll (s : DWstruct) : BitVec 64 := s.high ++ s.low

/-- A shift, where C defines it. -/
def shift (op : BitVec 32 → Nat → BitVec 32) (x : BitVec 32) (count : Int) : Option (BitVec 32) :=
  if Shifts count then some (op x count.toNat) else none

/-- `<<` and `>>` of an `unsigned int`. -/
def shl : BitVec 32 → Int → Option (BitVec 32) := shift (· <<< ·)
def shr : BitVec 32 → Int → Option (BitVec 32) := shift (· >>> ·)

/-- `__ashldi3` -/
def ashldi3 (u : BitVec 64) (b : Int) : Option (BitVec 64) :=
  if b = 0 then some u
  else
    let uu := DWstruct.ofLl u
    let bm := 32 - b
    if bm ≤ 0 then do
      let high ← shl uu.low (-bm)
      return DWstruct.ll ⟨0, high⟩
    else do
      let carries ← shr uu.low bm
      let low ← shl uu.low b
      let high ← shl uu.high b
      return DWstruct.ll ⟨low, high ||| carries⟩

/-- The shifts to the right: `op` is that of the high word, and `fill` what it leaves of it when it
shifts all of its bits out. -/
def shrdi3 (op : BitVec 32 → Nat → BitVec 32) (fill : BitVec 32 → BitVec 32) (u : BitVec 64)
    (b : Int) : Option (BitVec 64) :=
  if b = 0 then some u
  else
    let uu := DWstruct.ofLl u
    let bm := 32 - b
    if bm ≤ 0 then do
      let low ← shift op uu.high (-bm)
      return DWstruct.ll ⟨low, fill uu.high⟩
    else do
      let carries ← shl uu.high bm
      let high ← shift op uu.high b
      let low ← shr uu.low b
      return DWstruct.ll ⟨low ||| carries, high⟩

/-- `__ashrdi3` -/
def ashrdi3 : BitVec 64 → Int → Option (BitVec 64) := shrdi3 .sshiftRight (.sshiftRight · 31)

/-- `__lshrdi3` -/
def lshrdi3 : BitVec 64 → Int → Option (BitVec 64) := shrdi3 (· >>> ·) fun _ => 0

/-! ## Shifts -/

theorem ll_ofLl (u : BitVec 64) : (DWstruct.ofLl u).high ++ (DWstruct.ofLl u).low = u := by
  refine BitVec.eq_of_getLsbD_eq fun i hi => ?_
  rw [BitVec.getLsbD_append, DWstruct.ofLl, BitVec.getLsbD_extractLsb', BitVec.getLsbD_extractLsb']
  by_cases hlow : i < 32
  · simp [hlow]
  · simp [hlow, show i - 32 < 32 by omega, show 32 + (i - 32) = i by omega]

theorem shift_natCast (op : BitVec 32 → Nat → BitVec 32) (x : BitVec 32) {n : Nat} (h : n < 32) :
    shift op x n = some (op x n) := by
  rw [shift, if_pos ⟨Int.natCast_nonneg n, by omega⟩, Int.toNat_natCast]

theorem shift_of_not (op : BitVec 32 → Nat → BitVec 32) (x : BitVec 32) {count : Int}
    (h : count < 0 ∨ 32 ≤ count) : shift op x count = none := by
  rw [shift, if_neg]
  unfold Shifts
  omega

/-- The counts of the 64-bit shifts: none, less than a word, a word or more, and those that C does
not define. -/
theorem count_cases (b : Int) : b = 0 ∨ (∃ n : Nat, b = n ∧ 0 < n ∧ n < 32) ∨
    (∃ n : Nat, b = n ∧ 32 ≤ n ∧ n < 64) ∨ b < 0 ∨ 64 ≤ b := by
  rcases Int.lt_or_le b 0 with hneg | hpos
  · exact .inr (.inr (.inr (.inl hneg)))
  · obtain ⟨n, rfl⟩ := Int.eq_ofNat_of_zero_le hpos
    rcases Nat.eq_zero_or_pos n with rfl | hpos
    · exact .inl rfl
    rcases Nat.lt_or_ge n 32 with hlt | hge
    · exact .inr (.inl ⟨n, rfl, hpos, hlt⟩)
    rcases Nat.lt_or_ge n 64 with hlt | hge'
    · exact .inr (.inr (.inl ⟨n, rfl, hge, hlt⟩))
    · exact .inr (.inr (.inr (.inr (by omega))))

/-- A shift to the right that is made of those of the words. -/
theorem shrdi3_eq {op : BitVec 32 → Nat → BitVec 32} {fill : BitVec 32 → BitVec 32}
    {whole : BitVec 64 → Nat → BitVec 64} (hzero : ∀ u, whole u 0 = u)
    (hlt : ∀ (high low : BitVec 32) (b : Nat), b < 32 →
      whole (high ++ low) b = op high b ++ (low >>> b ||| high <<< (32 - b)))
    (hle : ∀ (high low : BitVec 32) (b : Nat), 32 ≤ b →
      whole (high ++ low) b = fill high ++ op high (b - 32))
    (u : BitVec 64) (b : Int) :
    shrdi3 op fill u b = if 0 ≤ b ∧ b < 64 then some (whole u b.toNat) else none := by
  rw [shrdi3]
  rcases count_cases b with rfl | ⟨n, rfl, hpos, hn⟩ | ⟨n, rfl, hge, hn⟩ | hundefined
  · rw [if_pos rfl, if_pos (by decide), Int.toNat_zero, hzero]
  · rw [if_neg (by omega), if_neg (by omega), if_pos (by omega), shl, shr,
      show (32 : Int) - n = ((32 - n : Nat) : Int) by omega, shift_natCast _ _ (by omega),
      shift_natCast _ _ hn, shift_natCast _ _ hn, Int.toNat_natCast]
    conv_rhs => rw [← ll_ofLl u, hlt _ _ _ hn]
    rfl
  · rw [if_neg (by omega), if_pos (by omega), if_pos (by omega),
      show -((32 : Int) - n) = ((n - 32 : Nat) : Int) by omega, shift_natCast _ _ (by omega),
      Int.toNat_natCast]
    conv_rhs => rw [← ll_ofLl u, hle _ _ _ hge]
    rfl
  · rw [if_neg (by omega), if_neg (by omega : ¬ (0 ≤ b ∧ b < 64))]
    by_cases hword : 32 - b ≤ 0
    · rw [if_pos hword, shift_of_not _ _ (by omega)]
      rfl
    · rw [if_neg hword, shl, shift_of_not _ _ (by omega)]
      rfl

theorem ashldi3_eq (u : BitVec 64) (b : Int) :
    ashldi3 u b = if 0 ≤ b ∧ b < 64 then some (u <<< b.toNat) else none := by
  rw [ashldi3]
  rcases count_cases b with rfl | ⟨n, rfl, hpos, hn⟩ | ⟨n, rfl, hge, hn⟩ | hundefined
  · rw [if_pos rfl, if_pos (by decide), Int.toNat_zero, BitVec.shiftLeft_zero]
  · rw [if_neg (by omega), if_neg (by omega), if_pos (by omega), shl, shr,
      show (32 : Int) - n = ((32 - n : Nat) : Int) by omega, shift_natCast _ _ (by omega),
      shift_natCast _ _ hn, shift_natCast _ _ hn, Int.toNat_natCast]
    conv_rhs => rw [← ll_ofLl u, append_shiftLeft_of_lt _ _ hn]
    rfl
  · rw [if_neg (by omega), if_pos (by omega), if_pos (by omega), shl,
      show -((32 : Int) - n) = ((n - 32 : Nat) : Int) by omega, shift_natCast _ _ (by omega),
      Int.toNat_natCast]
    conv_rhs => rw [← ll_ofLl u, append_shiftLeft_of_le _ _ hge]
    rfl
  · rw [if_neg (by omega), if_neg (by omega : ¬ (0 ≤ b ∧ b < 64))]
    by_cases hword : 32 - b ≤ 0
    · rw [if_pos hword, shl, shift_of_not _ _ (by omega)]
      rfl
    · rw [if_neg hword, shr, shift_of_not _ _ (by omega)]
      rfl

/-- **The functions are the 64-bit shifts** for every count that these are defined for; for every
other count, they shift a word by a count that C does not define. -/
theorem shifts_exact (u : BitVec 64) (b : Int) :
    ashldi3 u b = (if 0 ≤ b ∧ b < 64 then some (u <<< b.toNat) else none) ∧
    ashrdi3 u b = (if 0 ≤ b ∧ b < 64 then some (u.sshiftRight b.toNat) else none) ∧
    lshrdi3 u b = (if 0 ≤ b ∧ b < 64 then some (u >>> b.toNat) else none) := by
  refine ⟨ashldi3_eq u b, ?_, ?_⟩
  · exact shrdi3_eq (fun u => BitVec.sshiftRight_zero)
      (fun high low b hb => append_sshiftRight_of_lt high low hb)
      (fun high low b hb => append_sshiftRight_of_le high low (by decide) hb) u b
  · exact shrdi3_eq (fun u => BitVec.ushiftRight_zero u)
      (fun high low b hb => append_ushiftRight_of_lt high low hb)
      (fun high low b hb => append_ushiftRight_of_le high low hb) u b

end LowriscLinux.Kernel.Libgcc
