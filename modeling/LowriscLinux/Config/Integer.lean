import LowriscLinux.Config.Literal
import Mathlib.Data.BitVec

/-!
# The value of an integer literal

What the integers that `parse_u64` of `Config/Literal.lean` (`arch/riscv/drivers/config.c`, lines
91-150) reads denote. A literal has an optional sign, an optional `0x`, and digits of its base with
underscores in between; `magnitude` is the number that the digits stand for, without a bound.

## What models what

* `afterSign`, `literalBase`, `literalDigits`: what `parse_u64` takes off before it calls one of the
  two loops (lines 136-145). The value of a negative literal is that of its digits modulo 2^64 with
  the sign changed (line 147).
* `Takes`: the bytes that a loop goes over, digits of the base and underscores (lines 95-100 and
  120-125). `Reads` says that a loop reads exactly those up to the last digit that fits.
* `Carries`: the numbers whose last digit does not fit although their multiple of 10 does.

The guard of `parse_u64_dec` (line 121) undoes the multiplication by 10 and so sees when that wraps,
but not when adding the digit does: the numbers from 2^64 to 2^64 + 3 are a multiple of 10 below
2^64 and a digit. The guard of `parse_u64_hex` (line 96) has no such gap, as the low four bits are
free.

Results:
* `parseU64Hex_reads`: hexadecimal digits are read up to the last one that fits.
* `parseU64Dec_reads_iff`: decimal digits are, iff no prefix of them denotes one of these numbers.
* **`parseU64_exact_iff`**: `parse_u64` is exact iff the literal is hexadecimal or has no such
  prefix.
-/

namespace LowriscLinux.Config

/-! ## Literals -/

inductive Base
  | hex
  | dec
  deriving DecidableEq, Repr

namespace Base

def radix : Base → Nat
  | .hex => 16
  | .dec => 10

def isDigit : Base → UInt8 → Bool
  | .hex => isHex
  | .dec => isDec

def digit : Base → UInt8 → Nat
  | .hex => parseHex
  | .dec => parseDec

/-- A digit of the base, or an underscore. -/
def Takes (b : Base) (c : UInt8) : Prop := b.isDigit c = true ∨ c = underscore

instance (b : Base) (c : UInt8) : Decidable (b.Takes c) :=
  inferInstanceAs (Decidable (_ ∨ _))

/-- The number that `m` becomes by the digits that follow it; underscores are ignored. -/
def magnitude (b : Base) : Nat → Text → Nat
  | m, [] => m
  | m, c :: p =>
    if c.val = underscore then b.magnitude m p
    else b.magnitude (m * b.radix + b.digit c.val) p

end Base

/-- The text behind the sign of a literal. -/
def afterSign (str : Text) : Text := if deref str = dash then str.tail else str

/-- The base of a literal. -/
def literalBase (str : Text) : Base :=
  if deref (afterSign str) = 48 ∧ deref (afterSign str).tail = 120 then .hex else .dec

/-- The text behind the sign and the `0x` of a literal. -/
def literalDigits (str : Text) : Text :=
  match literalBase str with
  | .hex => (afterSign str).drop 2
  | .dec => afterSign str

/-- A scanner has read digits that follow `m` exactly: it has taken digits and underscores, what
they denote fits into 64 bits and is its result, and it stops only where no digit and no
underscore comes next or the number would not fit any more. -/
def Reads (b : Base) (m : Nat) (str : Text) (r : Text × BitVec 64) : Prop :=
  ∃ p, str = p ++ r.1 ∧ (∀ c ∈ p, b.Takes c.val) ∧ b.magnitude m p < 2 ^ 64 ∧
    r.2.toNat = b.magnitude m p ∧
    ∀ c t, r.1 = c :: t → c.val ≠ underscore ∧
      (b.isDigit c.val = true → 2 ^ 64 ≤ b.magnitude m p * b.radix + b.digit c.val)

/-- `parse_u64` is exact on a text: up to the sign, its result is the number that the digits it
has consumed denote. -/
def ParsesExactly (str : Text) : Prop :=
  ∃ r, Reads (literalBase str) 0 (literalDigits str) r ∧
    parseU64 str = (r.1, if deref str = dash then -r.2 else r.2)

/-- A prefix of the digits that follow `m` denotes one of the numbers whose last digit wraps. -/
def Carries (m : Nat) (str : Text) : Prop :=
  ∃ q t, str = q ++ t ∧ (∀ c ∈ q, Base.dec.Takes c.val) ∧
    2 ^ 64 ≤ Base.dec.magnitude m q ∧ Base.dec.magnitude m q < 2 ^ 64 + 4

/-! ## Magnitudes -/

section Magnitude

variable {b : Base} {m : Nat} {c : Byte} {p q str : Text} {r : Text × BitVec 64}

theorem isDigit_ne_underscore {c : UInt8} (h : b.isDigit c = true) : c ≠ underscore := by
  rintro rfl
  cases b <;> exact absurd h (by decide)

theorem digit_lt {c : UInt8} (h : b.isDigit c = true) : b.digit c < b.radix := by
  cases b with
  | hex =>
    simp only [Base.isDigit, isHex, Bool.or_eq_true, Bool.and_eq_true, decide_eq_true_eq,
      UInt8.le_iff_toNat_le] at h
    simp only [Base.digit, parseHex, Base.radix, UInt8.le_iff_toNat_le]
    simp at h ⊢
    split_ifs <;> omega
  | dec =>
    simp only [Base.isDigit, isDec, Bool.and_eq_true, decide_eq_true_eq,
      UInt8.le_iff_toNat_le] at h
    simp at h
    simp only [Base.digit, parseDec, Base.radix]
    omega

theorem magnitude_digit (h : b.isDigit c.val = true) :
    b.magnitude m (c :: p) = b.magnitude (m * b.radix + b.digit c.val) p :=
  if_neg (isDigit_ne_underscore h)

theorem magnitude_underscore (h : c.val = underscore) :
    b.magnitude m (c :: p) = b.magnitude m p := if_pos h

theorem le_magnitude : ∀ (p : Text) (m : Nat), m ≤ b.magnitude m p
  | [], m => Nat.le_refl m
  | c :: p, m => by
    have hradix : 0 < b.radix := by cases b <;> decide
    unfold Base.magnitude
    split
    · exact le_magnitude p m
    · calc m ≤ m * b.radix := Nat.le_mul_of_pos_right m hradix
        _ ≤ m * b.radix + b.digit c.val := Nat.le_add_right _ _
        _ ≤ _ := le_magnitude p _

/-! ## Reading -/

namespace Reads

theorem stop {res : BitVec 64} (hm : res.toNat = m)
    (h : ∀ c t, str = c :: t → c.val ≠ underscore ∧
      (b.isDigit c.val = true → 2 ^ 64 ≤ m * b.radix + b.digit c.val)) :
    Reads b m str (str, res) :=
  ⟨[], rfl, by simp, hm ▸ res.isLt, hm, h⟩

/-- A character that the scanner takes and that turns `m` into `m'`. -/
theorem cons {m' : Nat} (htake : b.Takes c.val)
    (hmag : ∀ p, b.magnitude m (c :: p) = b.magnitude m' p) (hr : Reads b m' str r) :
    Reads b m (c :: str) r := by
  obtain ⟨p, hp, htakes, hlt, hval, hstop⟩ := hr
  refine ⟨c :: p, by rw [hp, List.cons_append], ?_, ?_, ?_, ?_⟩
  · exact List.forall_mem_cons.mpr ⟨htake, htakes⟩
  · rwa [hmag p]
  · rwa [hmag p]
  · rwa [hmag p]

theorem digit (h : b.isDigit c.val = true) (hr : Reads b (m * b.radix + b.digit c.val) str r) :
    Reads b m (c :: str) r :=
  hr.cons (Or.inl h) fun _ => magnitude_digit h

theorem underscore (h : c.val = underscore) (hr : Reads b m str r) : Reads b m (c :: str) r :=
  hr.cons (Or.inr h) fun _ => magnitude_underscore h

end Reads

/-- `((res << 4) >> 4) != res` sees when the shift loses bits. -/
theorem shift_guard (res : BitVec 64) :
    (res <<< 4) >>> 4 ≠ res ↔ 2 ^ 64 ≤ res.toNat * 16 := by
  have hlt := res.isLt
  rw [Ne, ← BitVec.toNat_inj, BitVec.toNat_ushiftRight, BitVec.toNat_shiftLeft, Nat.shiftLeft_eq,
    Nat.shiftRight_eq_div_pow]
  omega

/-- `((res * 10) / 10) != res` sees when the multiplication wraps. -/
theorem times_guard (res : BitVec 64) : res * 10 / 10 ≠ res ↔ 2 ^ 64 ≤ res.toNat * 10 := by
  have hlt := res.isLt
  have hten : (10 : BitVec 64).toNat = 10 := rfl
  rw [Ne, ← BitVec.toNat_inj, BitVec.toNat_udiv, BitVec.toNat_mul, hten]
  omega

/-- **Hexadecimal digits are read exactly.** -/
theorem parseU64Hex_reads (str : Text) (res : BitVec 64) :
    Reads .hex res.toNat str (parseU64Hex str res) := by
  induction str generalizing res with
  | nil => exact .stop rfl (by simp)
  | cons c str ih =>
    unfold parseU64Hex
    by_cases hdigit : isHex c.val = true
    · have hlt : parseHex c.val < 16 := digit_lt (b := .hex) hdigit
      rw [if_pos hdigit]
      by_cases hbreak : (res <<< 4) >>> 4 ≠ res
      · rw [if_pos hbreak]
        refine .stop rfl ?_
        rintro _ _ ⟨⟩
        have hfull := (shift_guard res).mp hbreak
        exact ⟨isDigit_ne_underscore (b := .hex) hdigit,
          fun _ => hfull.trans (Nat.le_add_right _ _)⟩
      · rw [if_neg hbreak]
        have hroom := mt (shift_guard res).mpr hbreak
        have hnext : (res <<< 4 + BitVec.ofNat 64 (parseHex c.val)).toNat =
            res.toNat * 16 + parseHex c.val := by
          rw [BitVec.toNat_add, BitVec.toNat_shiftLeft, BitVec.toNat_ofNat, Nat.shiftLeft_eq]
          omega
        have hrest := ih (res <<< 4 + BitVec.ofNat 64 (parseHex c.val))
        rw [hnext] at hrest
        exact .digit hdigit hrest
    rw [if_neg hdigit]
    by_cases hunder : c.val = underscore
    · rw [if_neg (not_not.mpr hunder)]
      exact .underscore hunder (ih res)
    · rw [if_pos hunder]
      refine .stop rfl ?_
      rintro _ _ ⟨⟩
      exact ⟨hunder, fun h => absurd h hdigit⟩

/-! ## Decimal digits -/

theorem carries_nil (hm : m < 2 ^ 64) : ¬ Carries m [] := by
  rintro ⟨q, t, hq, -, hge, -⟩
  obtain ⟨rfl, -⟩ := List.append_eq_nil_iff.mp hq.symm
  exact absurd hge (Nat.not_le.mpr hm)

/-- A prefix that wraps is not empty, and wraps behind its first character too. -/
theorem carries_cons {m' : Nat} (hm : m < 2 ^ 64) (htake : Base.dec.Takes c.val)
    (hmag : ∀ p, Base.dec.magnitude m (c :: p) = Base.dec.magnitude m' p) :
    Carries m (c :: str) ↔ Carries m' str := by
  constructor
  · rintro ⟨q, t, hq, htakes, hge, hlt⟩
    cases q with
    | nil => exact absurd hge (Nat.not_le.mpr hm)
    | cons c' q =>
      obtain ⟨rfl, hrest⟩ := List.cons.inj hq
      rw [hmag q] at hge hlt
      exact ⟨q, t, hrest, fun c' hc' => htakes c' (List.mem_cons_of_mem _ hc'), hge, hlt⟩
  · rintro ⟨q, t, hq, htakes, hge, hlt⟩
    refine ⟨c :: q, t, by rw [hq, List.cons_append], ?_, ?_, ?_⟩
    · exact List.forall_mem_cons.mpr ⟨htake, htakes⟩
    · rwa [hmag q]
    · rwa [hmag q]

theorem carries_digit (hm : m < 2 ^ 64) (h : isDec c.val = true) :
    Carries m (c :: str) ↔ Carries (m * 10 + parseDec c.val) str :=
  carries_cons hm (Or.inl h) fun _ => magnitude_digit (b := .dec) h

theorem carries_underscore (hm : m < 2 ^ 64) (h : c.val = underscore) :
    Carries m (c :: str) ↔ Carries m str :=
  carries_cons hm (Or.inr h) fun _ => magnitude_underscore (b := .dec) h

/-- Digits are read exactly as long as no prefix of them wraps. -/
theorem parseU64Dec_reads (str : Text) (res : BitVec 64) (h : ¬ Carries res.toNat str) :
    Reads .dec res.toNat str (parseU64Dec str res) := by
  induction str generalizing res with
  | nil => exact .stop rfl (by simp)
  | cons c str ih =>
    have hres := res.isLt
    unfold parseU64Dec
    by_cases hdigit : isDec c.val = true
    · have hlt : parseDec c.val < 10 := digit_lt (b := .dec) hdigit
      rw [if_pos hdigit]
      by_cases hbreak : res * 10 / 10 ≠ res
      · rw [if_pos hbreak]
        refine .stop rfl ?_
        rintro _ _ ⟨⟩
        have hfull := (times_guard res).mp hbreak
        exact ⟨isDigit_ne_underscore (b := .dec) hdigit,
          fun _ => hfull.trans (Nat.le_add_right _ _)⟩
      · rw [if_neg hbreak]
        have hroom := mt (times_guard res).mpr hbreak
        rw [carries_digit hres hdigit] at h
        -- A number from 2^64 on would be one of those that wrap.
        have hfits : res.toNat * 10 + parseDec c.val < 2 ^ 64 := by
          by_contra hge
          refine h ⟨[], str, rfl, by simp, Nat.not_lt.mp hge, ?_⟩
          show res.toNat * 10 + parseDec c.val < 2 ^ 64 + 4
          omega
        have hnext : (res * 10 + BitVec.ofNat 64 (parseDec c.val)).toNat =
            res.toNat * 10 + parseDec c.val := by
          have hten : (10 : BitVec 64).toNat = 10 := rfl
          rw [BitVec.toNat_add, BitVec.toNat_mul, BitVec.toNat_ofNat, hten]
          omega
        rw [← hnext] at h
        have hrest := ih _ h
        rw [hnext] at hrest
        exact .digit hdigit hrest
    rw [if_neg hdigit]
    by_cases hunder : c.val = underscore
    · rw [if_neg (not_not.mpr hunder)]
      exact .underscore hunder (ih res (mt (carries_underscore hres hunder).mpr h))
    · rw [if_pos hunder]
      refine .stop rfl ?_
      rintro _ _ ⟨⟩
      exact ⟨hunder, fun h => absurd h hdigit⟩

theorem parseU64Dec_suffix (str : Text) (res : BitVec 64) : (parseU64Dec str res).1 <:+ str := by
  induction str generalizing res with
  | nil => exact List.suffix_refl _
  | cons c str ih =>
    unfold parseU64Dec
    split_ifs
    · exact List.suffix_refl _
    · exact (ih _).trans (List.suffix_cons c str)
    · exact List.suffix_refl _
    · exact (ih _).trans (List.suffix_cons c str)

/-- A scanner that goes on behind a character has consumed it. -/
theorem consumed_cons {rest : Text} (hp : c :: str = p ++ rest) (hsuffix : rest <:+ str) :
    ∃ p', p = c :: p' ∧ str = p' ++ rest := by
  cases p with
  | nil =>
    have hlen := hsuffix.length_le
    rw [← List.nil_append rest, ← hp, List.length_cons] at hlen
    omega
  | cons c' p' =>
    obtain ⟨rfl, hrest⟩ := List.cons.inj hp
    exact ⟨p', rfl, hrest⟩

/-- When a prefix wraps, the digits that are consumed denote 2^64 or more. -/
theorem Carries.consumed {n : BitVec 64} (h : Carries n.toNat str)
    (hp : str = p ++ (parseU64Dec str n).1) : 2 ^ 64 ≤ Base.dec.magnitude n.toNat p := by
  induction str generalizing n p with
  | nil => exact absurd h (carries_nil n.isLt)
  | cons c str ih =>
    have hres := n.isLt
    unfold parseU64Dec at hp
    by_cases hdigit : isDec c.val = true
    · rw [if_pos hdigit] at hp
      rw [carries_digit hres hdigit] at h
      by_cases hbreak : n * 10 / 10 ≠ n
      · -- A multiple of 10 from 2^64 on is beyond the numbers that wrap.
        have hfull := (times_guard n).mp hbreak
        obtain ⟨q, t, -, -, -, hlt⟩ := h
        have hle := le_magnitude (b := .dec) q (n.toNat * 10 + parseDec c.val)
        omega
      · rw [if_neg hbreak] at hp
        obtain ⟨p', rfl, hrest⟩ := consumed_cons hp (parseU64Dec_suffix _ _)
        rw [magnitude_digit (b := .dec) hdigit]
        rcases Nat.lt_or_ge (n.toNat * 10 + parseDec c.val) (2 ^ 64) with hfits | hwraps
        · have hnext : (n * 10 + BitVec.ofNat 64 (parseDec c.val)).toNat =
              n.toNat * 10 + parseDec c.val := by
            have hten : (10 : BitVec 64).toNat = 10 := rfl
            rw [BitVec.toNat_add, BitVec.toNat_mul, BitVec.toNat_ofNat, hten]
            omega
          rw [← hnext] at h
          have hge := ih h hrest
          rwa [hnext] at hge
        · exact hwraps.trans (le_magnitude (b := .dec) p' _)
    rw [if_neg hdigit] at hp
    by_cases hunder : c.val = underscore
    · rw [if_neg (not_not.mpr hunder)] at hp
      obtain ⟨p', rfl, hrest⟩ := consumed_cons hp (parseU64Dec_suffix _ _)
      rw [magnitude_underscore (b := .dec) hunder]
      exact ih ((carries_underscore hres hunder).mp h) hrest
    · obtain ⟨q, t, hq, htakes, hge, -⟩ := h
      cases q with
      | nil => exact absurd hge (Nat.not_le.mpr hres)
      | cons c' q =>
        obtain ⟨rfl, -⟩ := List.cons.inj hq
        rcases htakes c (List.mem_cons_self ..) with hdec | hunder'
        · exact absurd hdec hdigit
        · exact absurd hunder' hunder

/-- **Decimal digits are read exactly iff no prefix of them wraps.** -/
theorem parseU64Dec_reads_iff (str : Text) :
    Reads .dec 0 str (parseU64Dec str 0) ↔ ¬ Carries 0 str := by
  constructor
  · rintro ⟨p, hp, -, hlt, -⟩ h
    exact absurd (h.consumed (n := 0) hp) (Nat.not_le.mpr hlt)
  · exact parseU64Dec_reads str 0

end Magnitude

/-- The loop that `parse_u64` runs. -/
def scanDigits (b : Base) (str : Text) : Text × BitVec 64 :=
  match b with
  | .hex => parseU64Hex str 0
  | .dec => parseU64Dec str 0

theorem parseU64_eq_scan (str : Text) :
    parseU64 str = ((scanDigits (literalBase str) (literalDigits str)).1,
      if deref str = dash then -(scanDigits (literalBase str) (literalDigits str)).2
      else (scanDigits (literalBase str) (literalDigits str)).2) := by
  have hdigits : scanDigits (literalBase str) (literalDigits str) =
      if deref (afterSign str) = 48 ∧ deref (afterSign str).tail = 120
      then parseU64Hex ((afterSign str).drop 2) 0 else parseU64Dec (afterSign str) 0 := by
    unfold literalDigits literalBase
    split <;> rfl
  rw [hdigits]
  unfold parseU64 afterSign
  by_cases hneg : deref str = dash
  · simp [hneg]
  · simp [hneg]

theorem parsesExactly_iff_reads (str : Text) : ParsesExactly str ↔
    Reads (literalBase str) 0 (literalDigits str)
      (scanDigits (literalBase str) (literalDigits str)) := by
  unfold ParsesExactly
  rw [parseU64_eq_scan]
  constructor
  · rintro ⟨r, hr, heq⟩
    obtain ⟨hrest, hval⟩ := Prod.mk.inj heq
    have hsame : (scanDigits (literalBase str) (literalDigits str)).2 = r.2 := by
      split_ifs at hval
      · exact neg_injective hval
      · exact hval
    rwa [Prod.ext hrest hsame]
  · exact fun hr => ⟨_, hr, rfl⟩

/-- **`parse_u64` is exact iff the literal is hexadecimal or no prefix of its digits denotes a
number from 2^64 to 2^64 + 3.** -/
theorem parseU64_exact_iff (str : Text) :
    ParsesExactly str ↔ (literalBase str = .dec → ¬ Carries 0 (literalDigits str)) := by
  rw [parsesExactly_iff_reads]
  cases literalBase str with
  | hex =>
    simp only [reduceCtorEq, false_implies, iff_true]
    exact parseU64Hex_reads _ 0
  | dec =>
    rw [← parseU64Dec_reads_iff]
    exact ⟨fun h _ => h, fun h => h rfl⟩

/-- The decimal digits of 2^64. -/
def twoPow64 : Text := cstring
  [49, 56, 52, 52, 54, 55, 52, 52, 48, 55, 51, 55, 48, 57, 53, 53, 49, 54, 49, 54]

/-- 2^64 is consumed and read as 0. -/
theorem parseU64_twoPow64 : ¬ ParsesExactly twoPow64 ∧ parseU64 twoPow64 = ([], 0) := by
  refine ⟨fun h => ?_, by decide⟩
  have hreads : Reads .dec 0 twoPow64 (parseU64Dec twoPow64 0) := (parsesExactly_iff_reads _).mp h
  exact (parseU64Dec_reads_iff _).mp hreads
    ⟨twoPow64, [], by simp, by decide +kernel, by decide +kernel, by decide +kernel⟩

end LowriscLinux.Config
