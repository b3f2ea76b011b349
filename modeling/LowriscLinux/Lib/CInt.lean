import LowriscLinux.Lib.Traced
import Mathlib.Algebra.Ring.Nat
import Mathlib.Data.Nat.Log

/-!
# 32-bit integers of C

The operations on `unsigned int` and `int` whose result C does not define for all operands, or for
which it is not the mathematical one. Each leaves itself in the trace (`Op`), and `Op.Exact` says
when its result is the mathematical one. Where C defines no result, it is a parameter
(`Undefined`), so that what is proved for all of them holds whatever the machine does.

A shift to the left is one of `unsigned int`: bits shifted out are lost. `ilog2` is the logarithm
that is made of `fls`, with `fls(0) = 0`.

Results:
* `ilog2_value_of_ne`: the logarithm is the floor of the real one, except for 0.
* `fls_le_iff`: `fls` is the number of bits.
* `shl_toNat`, `shr_toNat`: the shifts where they are defined.
-/

namespace LowriscLinux.Lib

/-- An operation with its operands. -/
inductive Op
  | ilog2 (n : BitVec 32)
  | shl (x : BitVec 32) (count : Int)
  | shr (x : BitVec 32) (count : Int)
  | div (x d : BitVec 32)
  deriving DecidableEq, Repr

/-- The count of a shift is one that C defines. -/
def Shifts (count : Int) : Prop := 0 ≤ count ∧ count < 32

instance (count : Int) : Decidable (Shifts count) := inferInstanceAs (Decidable (_ ∧ _))

/-- The result of the operation is the mathematical one. -/
def Op.Exact : Op → Prop
  | .ilog2 n => n ≠ 0
  | .shl x count => Shifts count ∧ x.toNat * 2 ^ count.toNat < 2 ^ 32
  | .shr _ count => Shifts count
  | .div _ d => d ≠ 0

/-- The operation does not shift by a negative count. -/
def Op.CountNonneg : Op → Prop
  | .ilog2 _ => True
  | .shl _ count => 0 ≤ count
  | .shr _ count => 0 ≤ count
  | .div _ _ => True

/-- C defines the result of the operation. -/
def Op.Defined : Op → Prop
  | .ilog2 _ => True
  | .shl _ count => Shifts count
  | .shr _ count => Shifts count
  | .div _ d => d ≠ 0

instance decidableDefined : DecidablePred Op.Defined
  | .ilog2 _ => .isTrue trivial
  | .shl _ count => inferInstanceAs (Decidable (Shifts count))
  | .shr _ count => inferInstanceAs (Decidable (Shifts count))
  | .div _ d => inferInstanceAs (Decidable (d ≠ 0))

/-- What a machine gives where C defines nothing. -/
structure Undefined where
  shl : BitVec 32 → Int → BitVec 32
  shr : BitVec 32 → Int → BitVec 32
  div : BitVec 32 → BitVec 32
  deriving Inhabited

/-- `fls(x)`: one more than the position of the highest bit, and 0 for 0. -/
def fls (x : BitVec 32) : Nat := if x = 0 then 0 else x.toNat.log2 + 1

/-- `ilog2(n)`. -/
def ilog2 (n : BitVec 32) : Traced Op Int := .tell (.ilog2 n) (fls n - 1)

section Operations

variable (u : Undefined)

/-- `x << count`. -/
def shl (x : BitVec 32) (count : Int) : Traced Op (BitVec 32) :=
  .tell (.shl x count) (if Shifts count then x <<< count.toNat else u.shl x count)

/-- `x >> count`. -/
def shr (x : BitVec 32) (count : Int) : Traced Op (BitVec 32) :=
  .tell (.shr x count) (if Shifts count then x >>> count.toNat else u.shr x count)

/-- `x / d`. -/
def div (x d : BitVec 32) : Traced Op (BitVec 32) :=
  .tell (.div x d) (if d = 0 then u.div x else x / d)

end Operations

/-! ## Traces -/

section Trace

variable {P : Op → Prop} {u : Undefined} {n x d : BitVec 32} {count : Int}

@[simp] theorem all_ilog2 : (ilog2 n).All P ↔ P (.ilog2 n) := Traced.all_tell _ _

@[simp] theorem all_shl : (shl u x count).All P ↔ P (.shl x count) := Traced.all_tell _ _

@[simp] theorem all_shr : (shr u x count).All P ↔ P (.shr x count) := Traced.all_tell _ _

@[simp] theorem all_div : (div u x d).All P ↔ P (.div x d) := Traced.all_tell _ _

end Trace

/-! ## Logarithms -/

section Log

variable {n : BitVec 32}

/-- `fls` is the number of bits. -/
theorem fls_le_iff {k : Nat} : fls n ≤ k ↔ n.toNat < 2 ^ k := by
  unfold fls
  split
  · next h => simp [h, Nat.two_pow_pos k]
  · next h =>
    have hne : n.toNat ≠ 0 := fun h0 => h (BitVec.eq_of_toNat_eq h0)
    rw [Nat.succ_le_iff, Nat.log2_lt hne]

@[simp] theorem ilog2_value (n : BitVec 32) : (ilog2 n).value = (fls n : Int) - 1 := rfl

theorem ilog2_value_of_ne (h : n ≠ 0) : (ilog2 n).value = n.toNat.log2 := by
  rw [ilog2_value, fls, if_neg h]
  omega

theorem ilog2_value_two_pow {k : Nat} (h : n.toNat = 2 ^ k) : (ilog2 n).value = k := by
  have hne : n ≠ 0 := by
    rintro rfl
    exact absurd h.symm (Nat.two_pow_pos k).ne'
  rw [ilog2_value_of_ne hne, h, Nat.log2_two_pow]

end Log

/-! ## Shifts -/

section Shift

variable {u : Undefined} {x : BitVec 32} {count : Int}

theorem shl_value (h : Shifts count) : (shl u x count).value = x <<< count.toNat := if_pos h

theorem shl_value_undefined (h : ¬ Shifts count) : (shl u x count).value = u.shl x count :=
  if_neg h

theorem shr_value (h : Shifts count) : (shr u x count).value = x >>> count.toNat := if_pos h

theorem shr_value_undefined (h : ¬ Shifts count) : (shr u x count).value = u.shr x count :=
  if_neg h

theorem shl_toNat (h : Shifts count) :
    (shl u x count).value.toNat = x.toNat * 2 ^ count.toNat % 2 ^ 32 := by
  rw [shl_value h, BitVec.toNat_shiftLeft, Nat.shiftLeft_eq]

theorem shr_toNat (h : Shifts count) :
    (shr u x count).value.toNat = x.toNat / 2 ^ count.toNat := by
  rw [shr_value h, BitVec.toNat_ushiftRight, Nat.shiftRight_eq_div_pow]

end Shift

end LowriscLinux.Lib
