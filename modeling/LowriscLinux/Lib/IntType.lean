import Mathlib.Data.BitVec

/-!
# Integer types of C

The integer types by width and signedness, on a machine with 32 bits in an `int`. A value of a type
is a word of its width; `val` is the number that it is. Two values are compared in the common type
of their types (the usual arithmetic conversions).

Results:
* `convert_val`: a conversion to a type of at most the width drops bits, and one to a wider type
  extends as the signedness says.
* `common_bits`: the width of the common type.
* `ceq_iff`: a comparison with an object of at least that width is one of words.
-/

namespace LowriscLinux.Lib

/-- The widths of integer types. -/
inductive Width
  | w8
  | w16
  | w32
  | w64
  deriving DecidableEq, Repr

def Width.bits : Width → Nat
  | w8 => 8
  | w16 => 16
  | w32 => 32
  | w64 => 64

/-- `sizeof`. -/
def Width.size : Width → Nat
  | w8 => 1
  | w16 => 2
  | w32 => 4
  | w64 => 8

structure IntType where
  width : Width
  signed : Bool
  deriving DecidableEq, Repr

namespace IntType

def bits (t : IntType) : Nat := t.width.bits

def size (t : IntType) : Nat := t.width.size

/-- The number that a value is. -/
def val (t : IntType) (v : BitVec t.bits) : Int := if t.signed then v.toInt else v.toNat

/-- The conversion of a number to a type. -/
def convert (t : IntType) (z : Int) : BitVec t.bits := BitVec.ofInt t.bits z

/-- The integer promotions: a type narrower than `int` becomes `int`. -/
def promote (t : IntType) : IntType := if t.bits < 32 then ⟨.w32, true⟩ else t

/-- The common type of the usual arithmetic conversions. -/
def common (t u : IntType) : IntType :=
  let t := t.promote
  let u := u.promote
  if t.bits < u.bits then u
  else if u.bits < t.bits then t
  else ⟨t.width, t.signed && u.signed⟩

/-- `v == v'`. -/
def ceq (t u : IntType) (v : BitVec t.bits) (v' : BitVec u.bits) : Bool :=
  (common t u).convert (t.val v) = (common t u).convert (u.val v')

variable {t u : IntType}

theorem bits_le (t : IntType) : t.bits ≤ 64 := by
  unfold bits
  cases t.width <;> decide

/-- **A conversion** extends as the signedness of the old type says. -/
theorem convert_val (n : Nat) (v : BitVec t.bits) :
    BitVec.ofInt n (t.val v) = if t.signed then v.signExtend n else v.setWidth n := by
  unfold val
  cases t.signed with
  | true => rfl
  | false =>
    rw [if_neg Bool.false_ne_true, if_neg Bool.false_ne_true, BitVec.ofInt_natCast,
      BitVec.ofNat_toNat]

/-- A conversion to a type of at most the width drops bits. -/
theorem convert_val_of_le {n : Nat} (h : n ≤ t.bits) (v : BitVec t.bits) :
    BitVec.ofInt n (t.val v) = v.setWidth n := by
  rw [convert_val]
  split
  · exact BitVec.signExtend_eq_setWidth_of_le v h
  · rfl

theorem convert_val_self (v : BitVec t.bits) : t.convert (t.val v) = v := by
  rw [convert, convert_val_of_le le_rfl, BitVec.setWidth_eq]

/-- **The width of the common type.** -/
theorem common_bits : (common t u).bits = max 32 (max t.bits u.bits) := by
  obtain ⟨tw, ts⟩ := t
  obtain ⟨uw, us⟩ := u
  cases tw <;> cases uw <;> rfl

theorem ceq_iff (v : BitVec t.bits) (v' : BitVec u.bits) : ceq t u v v' = true ↔
    BitVec.ofInt (max 32 (max t.bits u.bits)) (t.val v) =
      BitVec.ofInt (max 32 (max t.bits u.bits)) (u.val v') := by
  unfold ceq convert
  rw [decide_eq_true_iff, common_bits]

/-- With an object that is as wide as the common type, words are compared. -/
theorem ceq_iff_of_le (h32 : 32 ≤ t.bits) (hle : u.bits ≤ t.bits) (v : BitVec t.bits)
    (v' : BitVec u.bits) : ceq t u v v' = true ↔ v = t.convert (u.val v') := by
  have hmax : max 32 (max t.bits u.bits) = t.bits := by omega
  have hv : BitVec.ofInt t.bits (t.val v) = v := convert_val_self v
  rw [ceq_iff, hmax, hv]
  rfl

/-- With a value that is wider, the object is extended as its signedness says. -/
theorem ceq_iff_of_lt (h32 : 32 ≤ u.bits) (hlt : t.bits < u.bits) (v : BitVec t.bits)
    (v' : BitVec u.bits) :
    ceq t u v v' = true ↔ (if t.signed then v.signExtend u.bits else v.setWidth u.bits) = v' := by
  have hmax : max 32 (max t.bits u.bits) = u.bits := by omega
  have hv' : BitVec.ofInt u.bits (u.val v') = v' := convert_val_self v'
  rw [ceq_iff, hmax, hv', convert_val]

end IntType

end LowriscLinux.Lib
