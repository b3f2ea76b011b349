import LowriscLinux.Lib.Words
import LowriscLinux.Mm.Pte

/-!
# Swap entries

Model of the swap entries of `arch/riscv/include/asm/pgtable.h`, lines 270-295. A page that is
swapped out leaves in its page table entry the number of the swap area (`type`) and of the slot in
it (`offset`).

## What models what

* `swpTypeShift` to `swpOffsetShift`: lines 281-284. An entry has 2 bits that are 0 (the present bit
  and the lowest one of the type), 5 bits of `type` and the rest of `offset`.
* `swpType`, `swpOffset` and `swpEntry`: `__swp_type`, `__swp_offset` and `__swp_entry`, lines
  289-292. `SwpEntry` is `swp_entry_t` of the generic kernel.
* `pteToSwpEntry` and `swpEntryToPte`: lines 294 and 295, which keep the word.
* `Slot`: a slot of a swap area. The macros do not mask what they encode, so the fields are only
  kept apart by the bounds on the two numbers, which `Slot` has as fields. The number of swap areas
  is checked when the kernel is built (lines 286 and 287).

Results:
* `toNat_swpEntry`: an encoded slot, as a number.
* `Slot.equiv`: the slots are the entries whose two low bits are zero, through the code's encoder
  and decoder.
* `swap_entries_survive`: a slot survives the page table, is never taken for a mapping, and is taken
  for no entry only if both its numbers are 0.
-/

namespace LowriscLinux.Mm.Swap

open Kernel Lib

variable {w : Xlen}

/-! ## The macros -/

/-- `__SWP_TYPE_SHIFT`. -/
def swpTypeShift : Nat := 2

/-- `__SWP_TYPE_BITS`. -/
def swpTypeBits : Nat := 5

/-- `__SWP_TYPE_MASK`. -/
def swpTypeMask : Word w := 1 <<< swpTypeBits - 1

/-- `__SWP_OFFSET_SHIFT`. -/
def swpOffsetShift : Nat := swpTypeBits + swpTypeShift

/-- `swp_entry_t`. -/
structure SwpEntry (w : Xlen) where
  val : Word w
  deriving DecidableEq, Repr

/-- `__swp_type`. -/
def swpType (x : SwpEntry w) : Word w := x.val >>> swpTypeShift &&& swpTypeMask

/-- `__swp_offset`. -/
def swpOffset (x : SwpEntry w) : Word w := x.val >>> swpOffsetShift

/-- `__swp_entry`. -/
def swpEntry (type offset : Word w) : SwpEntry w :=
  ⟨type <<< swpTypeShift ||| offset <<< swpOffsetShift⟩

/-- `__pte_to_swp_entry`. -/
def pteToSwpEntry (pte : Word w) : SwpEntry w := ⟨pte⟩

/-- `__swp_entry_to_pte`. -/
def swpEntryToPte (x : SwpEntry w) : Word w := x.val

/-- A slot of a swap area: the numbers that the fields of an entry have room for. -/
structure Slot (w : Xlen) where
  type : Word w
  offset : Word w
  type_lt : type.toNat < 32
  offset_lt : offset.toNat < 2 ^ (8 * szreg w - 7)

namespace Slot

@[ext] theorem ext' {s t : Slot w} (htype : s.type = t.type) (hoffset : s.offset = t.offset) :
    s = t := by
  obtain ⟨type, offset, _, _⟩ := s
  obtain rfl : type = t.type := htype
  obtain rfl : offset = t.offset := hoffset
  rfl

/-- The page table entry of a page in the slot. -/
def pte (s : Slot w) : Word w := swpEntryToPte (swpEntry s.type s.offset)

end Slot

/-! ## The fields as numbers -/

theorem two_pow_xlen (w : Xlen) : 2 ^ (8 * szreg w) = 128 * 2 ^ (8 * szreg w - 7) := by
  have hle := le_xlen w
  rw [show 8 * szreg w = 7 + (8 * szreg w - 7) by omega, Nat.pow_add, Nat.add_sub_cancel_left]

theorem toNat_swpType (x : SwpEntry w) : (swpType x).toNat = x.val.toNat / 4 % 32 := by
  have hmask : (swpTypeMask : Word w) = BitVec.ofNat _ (2 ^ 5 - 1) := by cases w <;> rfl
  have hle := le_xlen w
  rw [swpType, hmask, toNat_and_mask _ (by omega), BitVec.toNat_ushiftRight,
    Nat.shiftRight_eq_div_pow]
  rfl

theorem toNat_swpOffset (x : SwpEntry w) : (swpOffset x).toNat = x.val.toNat / 128 := by
  rw [swpOffset, BitVec.toNat_ushiftRight, Nat.shiftRight_eq_div_pow]
  rfl

/-- The fields of a slot do not meet and lose no bit, so the encoding is a sum. -/
theorem toNat_swpEntry {type offset : Word w} (htype : type.toNat < 32)
    (hoffset : offset.toNat < 2 ^ (8 * szreg w - 7)) :
    (swpEntry type offset).val.toNat = 4 * type.toNat + 128 * offset.toNat := by
  have hpow := two_pow_xlen w
  have hpos := Nat.two_pow_pos (8 * szreg w - 7)
  have htypeShift : (type <<< swpTypeShift).toNat = 4 * type.toNat := by
    rw [BitVec.toNat_shiftLeft, Nat.shiftLeft_eq, swpTypeShift, Nat.mod_eq_of_lt (by omega)]
    omega
  have hoffsetShift : (offset <<< swpOffsetShift).toNat = offset.toNat <<< 7 := by
    rw [BitVec.toNat_shiftLeft, swpOffsetShift, swpTypeBits, swpTypeShift, Nat.mod_eq_of_lt]
    rw [Nat.shiftLeft_eq]
    omega
  rw [swpEntry, BitVec.toNat_or, htypeShift, hoffsetShift, Nat.or_comm,
    ← Nat.shiftLeft_add_eq_or_of_lt (by omega), Nat.shiftLeft_eq]
  omega

theorem Slot.toNat_pte (s : Slot w) : s.pte.toNat = 4 * s.type.toNat + 128 * s.offset.toNat :=
  toNat_swpEntry s.type_lt s.offset_lt

/-- What an entry decodes to is always a slot. -/
def slotOf (x : SwpEntry w) : Slot w where
  type := swpType x
  offset := swpOffset x
  type_lt := by
    rw [toNat_swpType]
    omega
  offset_lt := by
    have hlt := x.val.isLt
    have hpow := two_pow_xlen w
    rw [toNat_swpOffset]
    omega

/-! ## Encoding and decoding -/

theorem slotOf_pte (s : Slot w) : slotOf (pteToSwpEntry s.pte) = s := by
  have hval := s.toNat_pte
  have htype := s.type_lt
  refine Slot.ext' (BitVec.eq_of_toNat_eq ?_) (BitVec.eq_of_toNat_eq ?_)
  · show (swpType _).toNat = _
    rw [toNat_swpType, pteToSwpEntry, hval]
    omega
  · show (swpOffset _).toNat = _
    rw [toNat_swpOffset, pteToSwpEntry, hval]
    omega

theorem pte_slotOf {pte : Word w} (hlow : pte.toNat % 4 = 0) :
    (slotOf (pteToSwpEntry pte)).pte = pte := by
  apply BitVec.eq_of_toNat_eq
  rw [Slot.toNat_pte]
  show 4 * (swpType _).toNat + 128 * (swpOffset _).toNat = _
  rw [toNat_swpType, toNat_swpOffset, show (pteToSwpEntry pte).val = pte from rfl]
  omega

/-- The entries whose two low bits are zero are the slots. -/
def Slot.equiv (w : Xlen) : Slot w ≃ { pte : Word w // pte.toNat % 4 = 0 } where
  toFun s := ⟨s.pte, by rw [s.toNat_pte]; omega⟩
  invFun p := slotOf (pteToSwpEntry p.val)
  left_inv := slotOf_pte
  right_inv p := Subtype.ext (pte_slotOf p.property)

/-! ## The classes of an entry -/

theorem ptePresent_iff_odd {pte : Word w} : ptePresent pte ↔ pte.toNat % 2 = 1 := by
  rw [ptePresent_iff, BitVec.getLsbD, Nat.testBit_zero, decide_eq_true_eq]

theorem low_bits_iff {pte : Word w} :
    (pte.getLsbD 0 = false ∧ pte.getLsbD 1 = false) ↔ pte.toNat % 4 = 0 := by
  rw [BitVec.getLsbD, BitVec.getLsbD, Nat.testBit_zero, Nat.testBit_succ, Nat.testBit_zero,
    decide_eq_false_iff_not, decide_eq_false_iff_not]
  omega

theorem Slot.not_ptePresent (s : Slot w) : ¬ ptePresent s.pte := by
  rw [ptePresent_iff_odd, s.toNat_pte]
  omega

theorem Slot.pteNone_iff (s : Slot w) : pteNone s.pte ↔ s.type = 0 ∧ s.offset = 0 := by
  rw [pteNone, BitVec.toNat_eq, BitVec.toNat_eq, BitVec.toNat_eq, s.toNat_pte]
  simp only [BitVec.ofNat_eq_ofNat, BitVec.toNat_ofNat, Nat.zero_mod]
  omega

/-- Swap entries survive the page table: a slot is decoded from its entry, which is no mapping,
and no empty entry but for type 0 with offset 0; different slots have different entries; and an
entry with its two low bits zero is the encoding of what it decodes to. -/
theorem swap_entries_survive (w : Xlen) :
    (∀ type offset : Word w, type.toNat < 32 → offset.toNat < 2 ^ (8 * szreg w - 7) →
      let pte := swpEntryToPte (swpEntry type offset)
      swpType (pteToSwpEntry pte) = type ∧ swpOffset (pteToSwpEntry pte) = offset ∧
        ¬ ptePresent pte ∧ (pteNone pte ↔ type = 0 ∧ offset = 0)) ∧
    (∀ type offset type' offset' : Word w,
      type.toNat < 32 → offset.toNat < 2 ^ (8 * szreg w - 7) →
      type'.toNat < 32 → offset'.toNat < 2 ^ (8 * szreg w - 7) →
      swpEntryToPte (swpEntry type offset) = swpEntryToPte (swpEntry type' offset') →
        type = type' ∧ offset = offset') ∧
    ∀ pte : Word w, pte.getLsbD 0 = false → pte.getLsbD 1 = false →
      swpEntryToPte (swpEntry (swpType (pteToSwpEntry pte)) (swpOffset (pteToSwpEntry pte))) =
        pte := by
  refine ⟨?survives, ?distinct, ?onto⟩
  case survives =>
    intro type offset htype hoffset
    let s : Slot w := ⟨type, offset, htype, hoffset⟩
    have hs := slotOf_pte s
    exact ⟨congrArg Slot.type hs, congrArg Slot.offset hs, s.not_ptePresent, s.pteNone_iff⟩
  case distinct =>
    intro type offset type' offset' htype hoffset htype' hoffset' h
    let s : Slot w := ⟨type, offset, htype, hoffset⟩
    let t : Slot w := ⟨type', offset', htype', hoffset'⟩
    have hst : s = t := (Slot.equiv w).injective (Subtype.ext h)
    exact ⟨congrArg Slot.type hst, congrArg Slot.offset hst⟩
  case onto =>
    intro pte h0 h1
    exact pte_slotOf (low_bits_iff.mp ⟨h0, h1⟩)

/-- The last slot of the last swap area on RV32. -/
theorem swap_entries_survive_last :
    let pte : Word .rv32 := swpEntryToPte (swpEntry 31 0x1FFFFFF)
    swpType (pteToSwpEntry pte) = 31 ∧ swpOffset (pteToSwpEntry pte) = 0x1FFFFFF ∧
      ¬ ptePresent pte ∧ (pteNone pte ↔ (31 : Word .rv32) = 0 ∧ (0x1FFFFFF : Word .rv32) = 0) :=
  (swap_entries_survive .rv32).1 31 0x1FFFFFF (by decide) (by decide)

end LowriscLinux.Mm.Swap
