import LowriscLinux.Kernel.PtRegs
import LowriscLinux.Lib.Transition

/-!
# Page table entries

Model of the page table entries of `arch/riscv/include/asm/pgtable.h` and `pgtable-bits.h`: the bits
of an entry, the protections that the memory manager takes from tables, the functions that build an
entry and change it, and the three classes it tells apart.

## What models what

* `pagePresent` to `pageChgMask`: `pgtable-bits.h`, lines 14-35. `pageBase` to `pageSharedExec`:
  `pgtable.h`, lines 33-44. `pageWriteProt` is `PAGE_WRITE`, as `pageWrite` is the bit
  `_PAGE_WRITE`.
* `Prot` and `Prot.val`: the tables `__P000` to `__S111`, lines 51-68.
* `pfnPte` and `ptePfn`: lines 124-140. `ptePresent` and `pteNone`: lines 174-182.
* `pteWrprotect` to `pteMkspecial`: lines 217-254, but for `pte_mkyoung` and `pte_mkold`
  (`Mm/PteAttrs.lean`). `pteModify`: lines 257-260.
* `Change`: the changes of an entry, as the memory manager makes them in any order. `Mapping`: the
  entry of a mapped page at first.

An entry with the present bit is a mapping, the zero word is no entry, and every other word is read
as a swap entry (`__pte_to_swp_entry`, line 294).

`PAGE_NONE` is the protection with no bits (line 35), so an entry that it is given to loses the
present bit and keeps the rest. A frame number fits its field (`Pfn`).

Results:
* `Change.getLsbD_apply`: what a change of an entry does to each bit that it can touch.
* `ptePfn_changes`: the page frame number survives every sequence of changes.
* `mapped_iff`: a mapped page's entry is never in the class of the swap entries iff the last
  protection it was given is not `PAGE_NONE`, or nothing else is left in the word.
-/

namespace LowriscLinux.Mm

open Lib Kernel

variable {w : Xlen}

/-! ## The bits of an entry -/

/-- `_PAGE_PRESENT`. -/
def pagePresent : Word w := 1 <<< 0

/-- `_PAGE_TYPE`. -/
def pageType : Word w := 0xF <<< 1

/-- `_PAGE_WRITE`. -/
def pageWrite : Word w := 1 <<< 1

/-- `_PAGE_ACCESSED`. -/
def pageAccessed : Word w := 1 <<< 5

/-- `_PAGE_DIRTY`. -/
def pageDirty : Word w := 1 <<< 6

/-- `_PAGE_SOFT`. -/
def pageSoft : Word w := 1 <<< 7

/-- `_PAGE_SPECIAL`. -/
def pageSpecial : Word w := pageSoft

/-- `_PAGE_TYPE_USER_RO`, `_RW`, `_RX` and `_RWX`. -/
def pageTypeUserRo : Word w := 0x08
def pageTypeUserRw : Word w := 0x0A
def pageTypeUserRx : Word w := 0x04
def pageTypeUserRwx : Word w := 0x06

/-- `_PAGE_PFN_SHIFT`. -/
def pagePfnShift : Nat := 10

/-- `_PAGE_CHG_MASK`: the bits that `pte_modify` preserves. -/
def pageChgMask : Word w := ~~~(pagePresent ||| pageType)

/-- `_PAGE_BASE`. -/
def pageBase : Word w := pagePresent ||| pageAccessed

/-! ## The protections -/

def pageNone : Word w := 0
def pageRead : Word w := pageBase ||| pageTypeUserRo
def pageWriteProt : Word w := pageBase ||| pageTypeUserRw
def pageExec : Word w := pageBase ||| pageTypeUserRx
def pageWriteExec : Word w := pageBase ||| pageTypeUserRwx
def pageCopy : Word w := pageRead
def pageCopyExec : Word w := pageExec
def pageShared : Word w := pageWriteProt
def pageSharedExec : Word w := pageWriteExec

/-- An entry of the protection tables: `__Pxwr` (`MAP_PRIVATE`) or `__Sxwr` (`MAP_SHARED`). -/
inductive Prot
  | p (xwr : Fin 8)
  | s (xwr : Fin 8)
  deriving DecidableEq, Repr

/-- The bits of an entry of the tables. -/
def Prot.val : Prot → Word w
  | .p 0 => pageNone
  | .p 1 => pageRead
  | .p 2 => pageCopy
  | .p 3 => pageCopy
  | .p 4 => pageExec
  | .p 5 => pageExec
  | .p 6 => pageCopyExec
  | .p 7 => pageCopyExec
  | .s 0 => pageNone
  | .s 1 => pageRead
  | .s 2 => pageShared
  | .s 3 => pageShared
  | .s 4 => pageExec
  | .s 5 => pageExec
  | .s 6 => pageSharedExec
  | .s 7 => pageSharedExec

/-- The entry of the tables is not `PAGE_NONE`. -/
def Prot.accessible : Prot → Bool
  | .p xwr => xwr != 0
  | .s xwr => xwr != 0

/-- The entry of the tables allows writes at once: a private mapping never does. -/
def Prot.writable : Prot → Bool
  | .p _ => false
  | .s xwr => xwr.val.testBit 1

/-! ## Reading, building and changing an entry -/

/-- `pte_pfn`. -/
def ptePfn (pte : Word w) : Word w := pte >>> pagePfnShift

/-- `pfn_pte`, and `mk_pte` with the frame of its page. -/
def pfnPte (pfn prot : Word w) : Word w := pfn <<< pagePfnShift ||| prot

def ptePresent (pte : Word w) : Prop := pte &&& pagePresent ≠ 0

def pteNone (pte : Word w) : Prop := pte = 0

instance (pte : Word w) : Decidable (ptePresent pte) := inferInstanceAs (Decidable (_ ≠ _))

instance (pte : Word w) : Decidable (pteNone pte) := inferInstanceAs (Decidable (_ = _))

def pteModify (pte newprot : Word w) : Word w := pte &&& pageChgMask ||| newprot

def pteMkdirty (pte : Word w) : Word w := pte ||| pageDirty

def pteMkclean (pte : Word w) : Word w := pte &&& ~~~pageDirty

def pteWrprotect (pte : Word w) : Word w := pte &&& ~~~pageWrite

def pteMkwrite (pte : Word w) : Word w := pte ||| pageWrite

def pteMkspecial (pte : Word w) : Word w := pte ||| pageSpecial

/-- The changes of an entry. -/
inductive Change
  | modify (newprot : Prot)
  | mkdirty
  | mkclean
  | wrprotect
  | mkwrite
  | mkspecial
  deriving DecidableEq, Repr

def Change.apply (pte : Word w) : Change → Word w
  | modify newprot => pteModify pte newprot.val
  | mkdirty => pteMkdirty pte
  | mkclean => pteMkclean pte
  | wrprotect => pteWrprotect pte
  | mkwrite => pteMkwrite pte
  | mkspecial => pteMkspecial pte

/-- A page frame number: it fits the field of an entry. -/
structure Pfn (w : Xlen) where
  val : Word w
  fits : val.toNat < 2 ^ (8 * szreg w - pagePfnShift)

/-- A combination of the accessed, dirty and special bits. -/
structure Attrs where
  accessed : Bool
  dirty : Bool
  special : Bool
  deriving DecidableEq, Repr

def Attrs.bits (a : Attrs) : Word w :=
  (if a.accessed then pageAccessed else 0) ||| (if a.dirty then pageDirty else 0) |||
    (if a.special then pageSpecial else 0)

/-- The entry with the accessed, dirty and special bits of `a`. -/
def setAttrs (pte : Word w) (a : Attrs) : Word w :=
  pte &&& ~~~(pageAccessed ||| pageDirty ||| pageSpecial) ||| a.bits

/-- The entry of a mapped page at first: one built for a frame with a protection of the tables,
or any present one. -/
inductive Mapping (w : Xlen)
  | built (pfn : Pfn w) (prot : Prot) (attrs : Attrs)
  | present (pte : Word w) (h : ptePresent pte)

namespace Mapping

def pte : Mapping w → Word w
  | built pfn prot attrs => setAttrs (pfnPte pfn.val prot.val) attrs
  | present pte _ => pte

def pfn : Mapping w → Word w
  | built pfn _ _ => pfn.val
  | present pte _ => ptePfn pte

end Mapping

/-- The entry after a sequence of changes. -/
def changes (pte : Word w) (cs : List Change) : Word w := cs.foldl Change.apply pte

/-- The entry is of the frame, and in the class of the mappings or of the empty entries, so it is
not decoded as a swap entry. -/
def Mapped (pfn pte : Word w) : Prop := ptePfn pte = pfn ∧ (ptePresent pte ∨ pteNone pte)

instance (pfn pte : Word w) : Decidable (Mapped pfn pte) := inferInstanceAs (Decidable (_ ∧ _))

/-! ## What a change does to each bit -/

/-- The bits of an entry below the frame number, but for the type bits other than the write bit.
The last two have no use in the code. -/
inductive Flag
  | valid
  | write
  | accessed
  | dirty
  | special
  | reserved8
  | reserved9
  deriving DecidableEq, Repr

def Flag.pos : Flag → Nat
  | valid => 0
  | write => 1
  | accessed => 5
  | dirty => 6
  | special => 7
  | reserved8 => 8
  | reserved9 => 9

/-- What a change sets a field to. `pte_modify` keeps the accessed bit, so only a protection that
has it sets it. -/
def Change.sets : Flag → Change → Option Bool
  | .valid, modify newprot => some newprot.accessible
  | .write, modify newprot => some newprot.writable
  | .write, mkwrite => some true
  | .write, wrprotect => some false
  | .accessed, modify newprot => if newprot.accessible then some true else none
  | .dirty, mkdirty => some true
  | .dirty, mkclean => some false
  | .special, mkspecial => some true
  | _, _ => none

/-- The bits of the first entry. -/
def Mapping.flag : Mapping w → Flag → Bool
  | built _ prot _, .valid => prot.accessible
  | built _ prot _, .write => prot.writable
  | built _ _ attrs, .accessed => attrs.accessed
  | built _ _ attrs, .dirty => attrs.dirty
  | built _ _ attrs, .special => attrs.special
  | built _ _ _, .reserved8 => false
  | built _ _ _, .reserved9 => false
  | present pte _, f => pte.getLsbD f.pos

/-- A bit of the entry after the changes: the last value they set, or the first one. -/
def Mapping.last (m : Mapping w) (cs : List Change) (f : Flag) : Bool :=
  lastSet (Change.sets f) (m.flag f) cs

theorem xlen_gt (w : Xlen) {i : Nat} (h : i < 10) : i < 8 * szreg w := by
  have hle := le_xlen w
  omega

section Bits

variable {i : Nat}

theorem getLsbD_pageChgMask (h : i < 10) : (pageChgMask : Word w).getLsbD i = decide (5 ≤ i) := by
  have all : ∀ i < 10, (pageChgMask : Word w).getLsbD i = decide (5 ≤ i) := by cases w <;> decide
  exact all i h

theorem getLsbD_pageDirty (h : i < 10) : (pageDirty : Word w).getLsbD i = decide (i = 6) := by
  have all : ∀ i < 10, (pageDirty : Word w).getLsbD i = decide (i = 6) := by cases w <;> decide
  exact all i h

theorem getLsbD_pageWrite (h : i < 10) : (pageWrite : Word w).getLsbD i = decide (i = 1) := by
  have all : ∀ i < 10, (pageWrite : Word w).getLsbD i = decide (i = 1) := by cases w <;> decide
  exact all i h

theorem getLsbD_pageSpecial (h : i < 10) : (pageSpecial : Word w).getLsbD i = decide (i = 7) := by
  have all : ∀ i < 10, (pageSpecial : Word w).getLsbD i = decide (i = 7) := by cases w <;> decide
  exact all i h

theorem Prot.getLsbD_val_zero (p : Prot) : (p.val : Word w).getLsbD 0 = p.accessible := by
  cases w <;> rcases p with xwr | xwr <;> revert xwr <;> decide

theorem Prot.getLsbD_val_one (p : Prot) : (p.val : Word w).getLsbD 1 = p.writable := by
  cases w <;> rcases p with xwr | xwr <;> revert xwr <;> decide

/-- Above the type, a protection has at most the accessed bit. -/
theorem Prot.getLsbD_val_ge (p : Prot) (h5 : 5 ≤ i) (h : i < 10) :
    (p.val : Word w).getLsbD i = (decide (i = 5) && p.accessible) := by
  have all : ∀ i < 10, 5 ≤ i →
      (p.val : Word w).getLsbD i = (decide (i = 5) && p.accessible) := by
    cases w <;> rcases p with xwr | xwr <;> revert xwr <;> decide
  exact all i h h5

theorem Prot.val_of_not_accessible {p : Prot} (h : p.accessible = false) :
    (p.val : Word w) = 0 := by
  rcases p with xwr | xwr <;> simp only [accessible, bne_eq_false_iff_eq] at h <;> subst h <;> rfl

end Bits

theorem Flag.pos_lt (f : Flag) : f.pos < 10 := by cases f <;> decide

/-- Every bit below the frame number is a named one or a type bit. -/
theorem Flag.exists_pos : ∀ i < 10, ¬ (2 ≤ i ∧ i < 5) →
    ∃ f ∈ [valid, write, accessed, dirty, special, reserved8, reserved9], f.pos = i := by
  decide

/-- A bit below the frame number after a change, from the bit before it. -/
def Change.bitAfter (w : Xlen) (i : Nat) (b : Bool) : Change → Bool
  | modify newprot => (b && decide (5 ≤ i)) || (newprot.val : Word w).getLsbD i
  | mkdirty => b || decide (i = 6)
  | mkclean => b && !decide (i = 6)
  | wrprotect => b && !decide (i = 1)
  | mkwrite => b || decide (i = 1)
  | mkspecial => b || decide (i = 7)

theorem Change.getLsbD_apply {i : Nat} (h : i < 10) (pte : Word w) (c : Change) :
    (c.apply pte).getLsbD i = c.bitAfter w i (pte.getLsbD i) := by
  have hi := xlen_gt w h
  cases c with
  | modify newprot =>
    rw [apply, pteModify, BitVec.getLsbD_or, BitVec.getLsbD_and, getLsbD_pageChgMask h, bitAfter]
  | mkdirty => rw [apply, pteMkdirty, BitVec.getLsbD_or, getLsbD_pageDirty h, bitAfter]
  | mkclean =>
    rw [apply, pteMkclean, BitVec.getLsbD_and, BitVec.getLsbD_not, getLsbD_pageDirty h, bitAfter]
    simp [hi]
  | wrprotect =>
    rw [apply, pteWrprotect, BitVec.getLsbD_and, BitVec.getLsbD_not, getLsbD_pageWrite h, bitAfter]
    simp [hi]
  | mkwrite => rw [apply, pteMkwrite, BitVec.getLsbD_or, getLsbD_pageWrite h, bitAfter]
  | mkspecial => rw [apply, pteMkspecial, BitVec.getLsbD_or, getLsbD_pageSpecial h, bitAfter]

theorem ptePresent_iff {pte : Word w} : ptePresent pte ↔ pte.getLsbD 0 = true := by
  rw [ptePresent, pagePresent, ne_eq, not_iff_comm, Bool.not_eq_true]
  constructor
  · intro h0
    ext i hi
    by_cases hz : i = 0
    · subst hz
      simp [BitVec.getLsbD_eq_getElem hi ▸ h0]
    · simp [hz]
  · intro h
    have hbit := congrArg (fun v => BitVec.getLsbD v 0) h
    simpa [xlen_gt w (by decide : 0 < 10), -BitVec.getLsbD_eq_getElem] using hbit

/-- **A change sets the bits that `Change.sets` gives it, and keeps the others.** -/
theorem Change.getLsbD_pos_apply (f : Flag) (pte : Word w) (c : Change) :
    (c.apply pte).getLsbD f.pos = (c.sets f).getD (pte.getLsbD f.pos) := by
  rw [getLsbD_apply f.pos_lt]
  generalize pte.getLsbD f.pos = b
  cases c with
  | modify newprot =>
    rw [bitAfter]
    cases f with
    | valid => simp [Flag.pos, sets, Prot.getLsbD_val_zero, -BitVec.getLsbD_eq_getElem]
    | write => simp [Flag.pos, sets, Prot.getLsbD_val_one, -BitVec.getLsbD_eq_getElem]
    | accessed =>
      rw [Prot.getLsbD_val_ge newprot (by decide) (by decide)]
      cases h : newprot.accessible <;> simp [Flag.pos, sets, h]
    | dirty | special | reserved8 | reserved9 =>
      rw [Prot.getLsbD_val_ge newprot (by decide) (by decide)]
      simp [Flag.pos, sets]
  | mkdirty => cases f <;> simp [bitAfter, Flag.pos, sets]
  | mkclean => cases f <;> simp [bitAfter, Flag.pos, sets]
  | wrprotect => cases f <;> simp [bitAfter, Flag.pos, sets]
  | mkwrite => cases f <;> simp [bitAfter, Flag.pos, sets]
  | mkspecial => cases f <;> simp [bitAfter, Flag.pos, sets]

/-! ## Whole sequences -/

/-- The type is empty unless the entry is present. -/
def TypeOfPresent (pte : Word w) : Prop :=
  pte.getLsbD 0 = true ∨ ∀ i, 2 ≤ i → i < 5 → pte.getLsbD i = false

theorem Change.typeOfPresent_apply {pte : Word w} (h : TypeOfPresent pte) (c : Change) :
    TypeOfPresent (c.apply pte) := by
  unfold TypeOfPresent
  rw [getLsbD_apply (by decide)]
  cases c with
  | modify newprot =>
    by_cases hp : newprot.accessible = true
    · left
      rw [bitAfter, Prot.getLsbD_val_zero, hp, Bool.or_true]
    · right
      intro i h2 h5
      rw [getLsbD_apply (by omega), bitAfter,
        Prot.val_of_not_accessible (Bool.eq_false_iff.mpr hp)]
      simp [show ¬ 5 ≤ i by omega]
  | mkclean | wrprotect =>
    refine h.imp (fun h0 => by simp [bitAfter, h0]) fun htype i h2 h5 => ?_
    rw [getLsbD_apply (by omega), htype i h2 h5, bitAfter, Bool.false_and]
  | mkdirty | mkwrite | mkspecial =>
    refine h.imp (fun h0 => by simp [bitAfter, h0]) fun htype i h2 h5 => ?_
    rw [getLsbD_apply (by omega), htype i h2 h5, bitAfter, Bool.false_or, decide_eq_false_iff_not]
    omega

/-- The frame number is above all bits of a mask that it does not meet. -/
theorem ptePfn_or {c : Word w} (hc : ptePfn c = 0) (pte : Word w) :
    ptePfn (pte ||| c) = ptePfn pte := by
  unfold ptePfn at *
  rw [BitVec.ushiftRight_or_distrib, hc]
  simp

theorem ptePfn_and_not {c : Word w} (hc : ptePfn c = 0) (pte : Word w) :
    ptePfn (pte &&& ~~~c) = ptePfn pte := by
  unfold ptePfn at *
  ext i hi
  have hci : c.getLsbD (pagePfnShift + i) = false := by
    rw [← BitVec.getLsbD_ushiftRight, hc]
    simp
  simp only [BitVec.getElem_ushiftRight, BitVec.getLsbD_and, BitVec.getLsbD_not, hci,
    Bool.not_false, Bool.and_true]
  by_cases hlt : pagePfnShift + i < 8 * szreg w
  · simp [hlt]
  · simp [hlt, BitVec.getLsbD_of_ge _ _ (by omega : 8 * szreg w ≤ pagePfnShift + i)]

theorem Prot.ptePfn_val (p : Prot) : ptePfn (p.val : Word w) = 0 := by
  cases w <;> rcases p with xwr | xwr <;> revert xwr <;> decide

theorem Change.ptePfn_apply (pte : Word w) (c : Change) : ptePfn (c.apply pte) = ptePfn pte := by
  cases c with
  | modify newprot =>
    rw [apply, pteModify, ptePfn_or newprot.ptePfn_val, pageChgMask,
      ptePfn_and_not (by cases w <;> decide)]
  | mkdirty => exact ptePfn_or (by cases w <;> decide) pte
  | mkclean => exact ptePfn_and_not (by cases w <;> decide) pte
  | wrprotect => exact ptePfn_and_not (by cases w <;> decide) pte
  | mkwrite => exact ptePfn_or (by cases w <;> decide) pte
  | mkspecial => exact ptePfn_or (by cases w <;> decide) pte

/-- The page frame number survives every sequence of changes. -/
theorem ptePfn_changes (pte : Word w) (cs : List Change) :
    ptePfn (changes pte cs) = ptePfn pte :=
  foldl_kept Change.ptePfn_apply pte cs

theorem Attrs.ptePfn_bits (a : Attrs) : ptePfn (a.bits : Word w) = 0 := by
  rcases a with ⟨_ | _, _ | _, _ | _⟩ <;> cases w <;> decide

theorem ptePfn_setAttrs (pte : Word w) (a : Attrs) : ptePfn (setAttrs pte a) = ptePfn pte := by
  rw [setAttrs, ptePfn_or a.ptePfn_bits, ptePfn_and_not (by cases w <;> decide)]

theorem ptePfn_pfnPte (pfn : Pfn w) (p : Prot) : ptePfn (pfnPte pfn.val p.val) = pfn.val := by
  rw [pfnPte, ptePfn_or p.ptePfn_val]
  have hfits := pfn.fits
  apply BitVec.eq_of_toNat_eq
  have hsplit : 2 ^ (8 * szreg w) = 2 ^ (8 * szreg w - pagePfnShift) * 2 ^ pagePfnShift := by
    cases w <;> rfl
  have hlt : pfn.val.toNat * 2 ^ pagePfnShift < 2 ^ (8 * szreg w) := by
    rw [hsplit]
    exact Nat.mul_lt_mul_of_pos_right hfits (by decide)
  rw [ptePfn, BitVec.toNat_ushiftRight, BitVec.toNat_shiftLeft, Nat.shiftLeft_eq,
    Nat.mod_eq_of_lt hlt, Nat.shiftRight_eq_div_pow, Nat.mul_div_cancel _ (by decide)]

theorem Mapping.ptePfn_pte (m : Mapping w) : ptePfn m.pte = m.pfn := by
  cases m with
  | built pfn prot attrs => exact (ptePfn_setAttrs _ _).trans (ptePfn_pfnPte _ _)
  | present pte h => rfl

/-! ## The first entry -/

theorem getLsbD_pfnPte {i : Nat} (h : i < 10) (pfn prot : Word w) :
    (pfnPte pfn prot).getLsbD i = prot.getLsbD i := by
  rw [pfnPte, BitVec.getLsbD_or, BitVec.getLsbD_shiftLeft]
  simp [show i < pagePfnShift from h]

theorem Attrs.getLsbD_bits {i : Nat} (h : i < 10) (a : Attrs) :
    (a.bits : Word w).getLsbD i =
      ((decide (i = 5) && a.accessed) || (decide (i = 6) && a.dirty) ||
        (decide (i = 7) && a.special)) := by
  have all : ∀ i < 10, (a.bits : Word w).getLsbD i =
      ((decide (i = 5) && a.accessed) || (decide (i = 6) && a.dirty) ||
        (decide (i = 7) && a.special)) := by
    rcases a with ⟨_ | _, _ | _, _ | _⟩ <;> cases w <;> decide
  exact all i h

theorem getLsbD_setAttrs {i : Nat} (h : i < 10) (pte : Word w) (a : Attrs) :
    (setAttrs pte a).getLsbD i =
      ((pte.getLsbD i && !decide (5 ≤ i ∧ i < 8)) || (a.bits : Word w).getLsbD i) := by
  have mask : ∀ i < 10, (pageAccessed ||| pageDirty ||| pageSpecial : Word w).getLsbD i =
      decide (5 ≤ i ∧ i < 8) := by cases w <;> decide
  rw [setAttrs, BitVec.getLsbD_or, BitVec.getLsbD_and, BitVec.getLsbD_not, mask i h]
  simp [xlen_gt w h]

namespace Mapping

theorem getLsbD_built {i : Nat} (h : i < 10) (pfn : Pfn w) (prot : Prot) (a : Attrs) :
    (built pfn prot a).pte.getLsbD i =
      (((prot.val : Word w).getLsbD i && !decide (5 ≤ i ∧ i < 8)) ||
        (a.bits : Word w).getLsbD i) := by
  rw [pte, getLsbD_setAttrs h, getLsbD_pfnPte h]

theorem getLsbD_pte (m : Mapping w) (f : Flag) : m.pte.getLsbD f.pos = m.flag f := by
  cases m with
  | present pte h => cases f <;> rfl
  | built pfn prot a =>
    rw [getLsbD_built f.pos_lt, Attrs.getLsbD_bits f.pos_lt]
    cases f with
    | valid => simp [Flag.pos, flag, Prot.getLsbD_val_zero, -BitVec.getLsbD_eq_getElem]
    | write => simp [Flag.pos, flag, Prot.getLsbD_val_one, -BitVec.getLsbD_eq_getElem]
    | accessed | dirty | special => simp [Flag.pos, flag]
    | reserved8 | reserved9 =>
      rw [Prot.getLsbD_val_ge prot (by decide) (by decide)]
      simp [Flag.pos, flag]

theorem typeOfPresent_pte (m : Mapping w) : TypeOfPresent m.pte := by
  cases m with
  | present pte h => exact Or.inl (ptePresent_iff.mp h)
  | built pfn prot a =>
    unfold TypeOfPresent
    by_cases hp : prot.accessible = true
    · left
      rw [getLsbD_built (by decide), Prot.getLsbD_val_zero, hp]
      rfl
    · right
      intro i h2 h5
      rw [getLsbD_built (by omega), Attrs.getLsbD_bits (by omega),
        Prot.val_of_not_accessible (Bool.eq_false_iff.mpr hp)]
      simp [show i ≠ 5 by omega, show i ≠ 6 by omega, show i ≠ 7 by omega]

end Mapping

/-! ## The class of an entry -/

/-- A word is zero when its frame number and the bits below it are. -/
theorem pteNone_iff {pte : Word w} :
    pteNone pte ↔ ptePfn pte = 0 ∧ ∀ i < 10, pte.getLsbD i = false := by
  constructor
  · intro h
    have h : pte = 0 := h
    subst h
    exact ⟨by simp [ptePfn], by simp⟩
  · rintro ⟨hpfn, hlow⟩
    apply BitVec.eq_of_getLsbD_eq
    intro i _
    by_cases h : i < 10
    · rw [hlow i h]
      simp
    · have hbit := congrArg (fun v => BitVec.getLsbD v (i - 10)) hpfn
      rw [ptePfn, pagePfnShift] at hbit
      simpa [show 10 + (i - 10) = i by omega, -BitVec.getLsbD_eq_getElem] using hbit

/-- An entry that is not present is zero when its frame number and its named bits are. -/
theorem pteNone_iff_flags {pte : Word w} (htype : TypeOfPresent pte)
    (hvalid : pte.getLsbD 0 = false) :
    pteNone pte ↔ ptePfn pte = 0 ∧ ∀ f : Flag, pte.getLsbD f.pos = false := by
  rw [pteNone_iff]
  refine and_congr_right fun _ => ⟨fun h f => h f.pos f.pos_lt, fun h i hi => ?_⟩
  have htype : ∀ i, 2 ≤ i → i < 5 → pte.getLsbD i = false := by
    rcases htype with h0 | htype
    · rw [hvalid] at h0
      cases h0
    · exact htype
  by_cases hi2 : 2 ≤ i ∧ i < 5
  · exact htype i hi2.1 hi2.2
  · obtain ⟨f, -, hf⟩ := Flag.exists_pos i hi hi2
    exact hf ▸ h f

theorem getLsbD_changes (m : Mapping w) (cs : List Change) (f : Flag) :
    (changes m.pte cs).getLsbD f.pos = m.last cs f := by
  rw [Mapping.last, ← m.getLsbD_pte f]
  exact @field_foldl _ _ _ Change.apply (fun pte : Word w => pte.getLsbD f.pos) (Change.sets f)
    (Change.getLsbD_pos_apply f) m.pte cs

theorem typeOfPresent_changes (m : Mapping w) (cs : List Change) :
    TypeOfPresent (changes m.pte cs) := by
  unfold changes
  generalize hpte : m.pte = pte
  have h : TypeOfPresent pte := hpte ▸ m.typeOfPresent_pte
  clear hpte
  induction cs generalizing pte with
  | nil => exact h
  | cons c cs ih => exact ih _ (Change.typeOfPresent_apply h c)

/-- The last protection that the page was given is not `PAGE_NONE`, or nothing else is left in
the entry either. -/
def Distinct (m : Mapping w) (cs : List Change) : Prop :=
  m.last cs .valid = true ∨ m.pfn = 0 ∧ ∀ f, m.last cs f = false

/-- **A mapped page's entry is of the page's frame and no swap entry iff the last protection was
not `PAGE_NONE`, or the word is zero.** -/
theorem mapped_iff (m : Mapping w) (cs : List Change) :
    Mapped m.pfn (changes m.pte cs) ↔ Distinct m cs := by
  have hpfn : ptePfn (changes m.pte cs) = m.pfn := by rw [ptePfn_changes, m.ptePfn_pte]
  have hvalid := getLsbD_changes m cs .valid
  unfold Mapped Distinct
  rw [ptePresent_iff, ← hvalid, Flag.pos, and_iff_right hpfn]
  by_cases h0 : (changes m.pte cs).getLsbD 0 = true
  · exact iff_of_true (Or.inl h0) (Or.inl h0)
  · rw [or_iff_right h0, or_iff_right h0,
      pteNone_iff_flags (typeOfPresent_changes m cs) (Bool.eq_false_iff.mpr h0), hpfn]
    simp only [getLsbD_changes]

/-- Frame 1 mapped with `PROT_NONE`: the entry is read as a swap entry. -/
theorem not_mapped_pageNone :
    ¬ ∀ (pfn : Pfn .rv64) (prot : Prot), Mapped pfn.val (pfnPte pfn.val prot.val) :=
  fun h => absurd (h ⟨1, by decide⟩ (.p 0)) (by decide)

end LowriscLinux.Mm
