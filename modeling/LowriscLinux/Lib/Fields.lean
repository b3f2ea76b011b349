import Mathlib.Data.Nat.Bitwise

/-!
# Words that are made of fields

Fields of bits that fill the low bits of a word (`Layout`), and what becomes of values that are
shifted to the offsets of their fields and merged without being cut to the lengths of these.

Results:
* `confined_iff`: no value spills into another's field, iff none has bits between the length of its
  own field and the top of the layout.
* `get_of_confined`: then the fields of the word have the low bits of the values.
* **`holds_high_bits_iff`**: without a spill, the fields have the *high* bits of the values, iff
  these are all of the bits that stay below the top.
-/

namespace LowriscLinux.Lib

/-- Fields that fill the bits below `top`, each bit being in one of them. -/
structure Layout (ι : Type) where
  offset : ι → Nat
  length : ι → Nat
  top : Nat
  ends_le : ∀ c, offset c + length c ≤ top
  unique : ∀ c d, ∀ p < top, offset c ≤ p → p < offset c + length c →
    offset d ≤ p → p < offset d + length d → c = d
  covered : ∀ p < top, ∃ c, offset c ≤ p ∧ p < offset c + length c

namespace Layout

variable {ι : Type} (L : Layout ι)

/-- A field of a word. -/
def get (c : ι) (v : Nat) : Nat := v / 2 ^ L.offset c % 2 ^ L.length c

/-- A value at the offset of its field. -/
def place (c : ι) (x : Nat) : Nat := x * 2 ^ L.offset c

/-- Below the top, the word has the bits of all values at their offsets. -/
def Merged (x : ι → Nat) (v : Nat) : Prop :=
  ∀ p < L.top, v.testBit p = true ↔ ∃ c, (L.place c (x c)).testBit p = true

/-- No value has bits in the field of another one. -/
def Confined (x : ι → Nat) : Prop := ∀ c d, c ≠ d → L.get d (L.place c (x c)) = 0

variable {L} {c d : ι} {x : ι → Nat} {v n : Nat}

theorem testBit_get {i : Nat} :
    (L.get c v).testBit i = (decide (i < L.length c) && v.testBit (L.offset c + i)) := by
  rw [get, Nat.testBit_mod_two_pow, Nat.testBit_div_two_pow, Nat.add_comm]

theorem testBit_place {y p : Nat} :
    (L.place c y).testBit p = (decide (L.offset c ≤ p) && y.testBit (p - L.offset c)) :=
  Nat.testBit_mul_two_pow y p (L.offset c)

/-- **No value spills** iff none has bits between the length of its field and the top. -/
theorem confined_iff :
    L.Confined x ↔ ∀ c i, L.length c ≤ i → L.offset c + i < L.top → (x c).testBit i = false := by
  constructor
  · intro h c i hlen htop
    obtain ⟨d, hle, hlt⟩ := L.covered _ htop
    have hne : c ≠ d := by
      rintro rfl
      omega
    have hbit : (L.get d (L.place c (x c))).testBit (L.offset c + i - L.offset d) = false := by
      rw [h c d hne, Nat.zero_testBit]
    rw [testBit_get, testBit_place, Nat.add_sub_of_le hle, Nat.add_sub_cancel_left,
      decide_eq_true (by omega), decide_eq_true (Nat.le_add_right _ _)] at hbit
    exact hbit
  · intro h c d hne
    refine Nat.eq_of_testBit_eq fun i => ?_
    rw [testBit_get, testBit_place, Nat.zero_testBit]
    by_contra hbit
    simp only [Bool.and_eq_true, decide_eq_true_eq, Bool.not_eq_false] at hbit
    obtain ⟨hi, hle, hbit⟩ := hbit
    have htop : L.offset d + i < L.top := by
      have hend := L.ends_le d
      omega
    have hout : L.offset c + L.length c ≤ L.offset d + i := by
      by_contra hin
      exact hne (L.unique c d _ htop hle (by omega) (Nat.le_add_right _ _) (by omega))
    rw [h c _ (by omega) (by omega)] at hbit
    exact nomatch hbit

/-- **The fields have the low bits of the values**, where none spills. -/
theorem get_of_confined (hconf : L.Confined x) (hv : L.Merged x v) :
    L.get c v = x c % 2 ^ L.length c := by
  refine Nat.eq_of_testBit_eq fun i => ?_
  rw [testBit_get, Nat.testBit_mod_two_pow]
  by_cases hi : i < L.length c
  · have htop : L.offset c + i < L.top := by
      have hend := L.ends_le c
      omega
    rw [decide_eq_true hi, Bool.true_and, Bool.true_and, Bool.eq_iff_iff, hv _ htop]
    constructor
    · rintro ⟨d, hd⟩
      obtain rfl : d = c := by
        by_contra hne
        have hbit : (L.get c (L.place d (x d))).testBit i = false := by
          rw [hconf d c hne, Nat.zero_testBit]
        rw [testBit_get, hd, decide_eq_true hi] at hbit
        exact nomatch hbit
      rw [testBit_place, Nat.add_sub_cancel_left, Bool.and_eq_true] at hd
      exact hd.2
    · intro hbit
      refine ⟨c, ?_⟩
      rw [testBit_place, Nat.add_sub_cancel_left, hbit, decide_eq_true (Nat.le_add_right _ _)]
      rfl
  · rw [decide_eq_false hi, Bool.false_and, Bool.false_and]

/-- No value spills iff what stays of it below the top fits its field. -/
theorem confined_iff_mod :
    L.Confined x ↔ ∀ c, x c % 2 ^ (L.top - L.offset c) = x c % 2 ^ L.length c := by
  rw [confined_iff]
  refine forall_congr' fun c => ?_
  have hend := L.ends_le c
  constructor
  · intro h
    refine Nat.eq_of_testBit_eq fun i => ?_
    rw [Nat.testBit_mod_two_pow, Nat.testBit_mod_two_pow]
    by_cases hi : i < L.length c
    · rw [decide_eq_true hi, decide_eq_true (by omega)]
    · rw [decide_eq_false hi, Bool.false_and]
      by_cases htop : i < L.top - L.offset c
      · rw [h i (by omega) (by omega), Bool.and_false]
      · rw [decide_eq_false htop, Bool.false_and]
  · intro h i hlen htop
    have hbit := congrArg (Nat.testBit · i) h
    simp only [Nat.testBit_mod_two_pow] at hbit
    rw [decide_eq_true (by omega), decide_eq_false (by omega), Bool.true_and,
      Bool.false_and] at hbit
    exact hbit

/-- **The fields have the high bits of values of `n` bits, and none spills**, iff the high bits of
each value are all of its bits that stay below the top. -/
theorem holds_high_bits_iff (hlen : ∀ c, L.length c ≤ n) (hx : ∀ c, x c < 2 ^ n)
    (hv : L.Merged x v) :
    ((∀ c, L.get c v = x c / 2 ^ (n - L.length c)) ∧ L.Confined x) ↔
      ∀ c, x c % 2 ^ (L.top - L.offset c) = x c / 2 ^ (n - L.length c) := by
  constructor
  · rintro ⟨hget, hconf⟩ c
    rw [confined_iff_mod.mp hconf c, ← get_of_confined hconf hv, hget c]
  · intro h
    have hconf : L.Confined x := by
      refine confined_iff_mod.mpr fun c => ?_
      have hend := L.ends_le c
      have hlt : x c / 2 ^ (n - L.length c) < 2 ^ L.length c := by
        rw [Nat.div_lt_iff_lt_mul (Nat.two_pow_pos _), ← pow_add, Nat.add_sub_of_le (hlen c)]
        exact hx c
      have hdvd : 2 ^ L.length c ∣ 2 ^ (L.top - L.offset c) := Nat.pow_dvd_pow 2 (by omega)
      rw [← Nat.mod_mod_of_dvd (x c) hdvd, h c, Nat.mod_eq_of_lt hlt]
    refine ⟨fun c => ?_, hconf⟩
    rw [get_of_confined hconf hv, ← confined_iff_mod.mp hconf c, h c]

end Layout

end LowriscLinux.Lib
