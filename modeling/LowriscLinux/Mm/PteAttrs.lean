import LowriscLinux.Mm.Pte

/-!
# The attributes of a page table entry

The functions of `arch/riscv/include/asm/pgtable.h` that read and change one attribute of an entry,
and sequences of changes. The bits and the functions that `Mm/Pte.lean` has are its own.

`pte_mkyoung` clears `_PAGE_ACCESSED` (lines 241-244) and `pte_mkold` sets it (lines 246-249), so an
entry is young after `pte_mkold`.

## What models what

* `pteWrite`, `pteDirty`, `pteYoung` and `pteSpecial`: lines 186-213.
* `pteMkyoung` and `pteMkold`: lines 241-249.
* `AttrOp`: the functions that change an attribute, lines 217-254. `AttrOp.apply` is the one of the
  source.
* `AttrOp.attr` and `AttrOp.named`: the attribute that the name of a function speaks of, and the
  value that it says. What is expected of a sequence (`AsNamed`) is made of these, and of the frame
  and the present bit, which stay.
* `AttrOp.sets` and `Attr.mask`: what the function does to the word. They differ from the name for
  `pte_mkyoung` and `pte_mkold` only.

Results:
* `AttrOp.query_apply`: a change writes its own attribute and no other.
* `query_attrOps`: along a sequence, an attribute has the last value written to it.
* **`asNamed_iff`**: a sequence does what the names of its functions say, iff `pte_mkyoung` and
  `pte_mkold` are not in it.
-/

namespace LowriscLinux.Mm

open Lib Kernel

variable {w : Xlen}

/-! ## The functions -/

def pteWrite (pte : Word w) : Prop := pte &&& pageWrite ≠ 0

def pteDirty (pte : Word w) : Prop := pte &&& pageDirty ≠ 0

def pteYoung (pte : Word w) : Prop := pte &&& pageAccessed ≠ 0

def pteSpecial (pte : Word w) : Prop := pte &&& pageSpecial ≠ 0

def pteMkyoung (pte : Word w) : Word w := pte &&& ~~~pageAccessed

def pteMkold (pte : Word w) : Word w := pte ||| pageAccessed

inductive Attr
  | dirty
  | young
  | write
  | special
  deriving DecidableEq, Repr

/-- What the code says of an attribute. -/
def Attr.Query : Attr → Word w → Prop
  | dirty => pteDirty
  | young => pteYoung
  | write => pteWrite
  | special => pteSpecial

instance : (a : Attr) → (pte : Word w) → Decidable (a.Query pte)
  | .dirty, _ => inferInstanceAs (Decidable (_ ≠ _))
  | .young, _ => inferInstanceAs (Decidable (_ ≠ _))
  | .write, _ => inferInstanceAs (Decidable (_ ≠ _))
  | .special, _ => inferInstanceAs (Decidable (_ ≠ _))

inductive AttrOp
  | mkdirty
  | mkclean
  | mkyoung
  | mkold
  | mkwrite
  | wrprotect
  | mkspecial
  deriving DecidableEq, Repr

namespace AttrOp

def apply (pte : Word w) : AttrOp → Word w
  | mkdirty => pteMkdirty pte
  | mkclean => pteMkclean pte
  | mkyoung => pteMkyoung pte
  | mkold => pteMkold pte
  | mkwrite => pteMkwrite pte
  | wrprotect => pteWrprotect pte
  | mkspecial => pteMkspecial pte

/-- The attribute in the name of the function. -/
def attr : AttrOp → Attr
  | mkdirty => .dirty
  | mkclean => .dirty
  | mkyoung => .young
  | mkold => .young
  | mkwrite => .write
  | wrprotect => .write
  | mkspecial => .special

/-- The value of the attribute in the name of the function. -/
def named : AttrOp → Bool
  | mkdirty => true
  | mkclean => false
  | mkyoung => true
  | mkold => false
  | mkwrite => true
  | wrprotect => false
  | mkspecial => true

/-- What the name of the function says that it does to an attribute. -/
def effect (a : Attr) (op : AttrOp) : Option Bool := if op.attr = a then some op.named else none

end AttrOp

/-- The entry after a sequence of functions. -/
def attrOps (pte : Word w) (ops : List AttrOp) : Word w := ops.foldl AttrOp.apply pte

/-- The sequence does what its names say and nothing else: each attribute is what the last
function about it says, and the frame and the present bit stay. -/
def AsNamed (pte : Word w) (ops : List AttrOp) : Prop :=
  (∀ a : Attr, a.Query (attrOps pte ops) ↔
    lastSet (AttrOp.effect a) (decide (a.Query pte)) ops = true) ∧
  ptePfn (attrOps pte ops) = ptePfn pte ∧ (ptePresent (attrOps pte ops) ↔ ptePresent pte)

/-! ## What a function does -/

/-- The bit of an attribute. -/
def Attr.pos : Attr → Nat
  | dirty => 6
  | young => 5
  | write => 1
  | special => 7

/-- The function sets the bit of its attribute; else it clears it. -/
def AttrOp.sets : AttrOp → Bool
  | mkyoung => false
  | mkold => true
  | op => op.named

theorem Attr.pos_lt (a : Attr) : a.pos < 8 * szreg w := xlen_gt w (by cases a <;> decide)

/-- The masks of the source. -/
def Attr.mask : Attr → Word w
  | dirty => pageDirty
  | young => pageAccessed
  | write => pageWrite
  | special => pageSpecial

theorem Attr.mask_eq (a : Attr) : (a.mask : Word w) = BitVec.twoPow _ a.pos := by
  cases w <;> cases a <;> decide

theorem Attr.query_iff {a : Attr} {pte : Word w} : a.Query pte ↔ pte.getLsbD a.pos = true := by
  have hmask : a.Query pte ↔ pte &&& a.mask ≠ 0 := by cases a <;> rfl
  have hpos : BitVec.twoPow (8 * szreg w) a.pos ≠ 0 := by
    intro h
    have hbit := congrArg (fun v => BitVec.getLsbD v a.pos) h
    simp [a.pos_lt] at hbit
  rw [hmask, a.mask_eq, BitVec.and_twoPow]
  split
  · next h => exact iff_of_true hpos h
  · next h => exact iff_of_false (not_not.mpr rfl) h

theorem AttrOp.apply_eq (pte : Word w) (op : AttrOp) :
    op.apply pte = if op.sets then pte ||| op.attr.mask else pte &&& ~~~op.attr.mask := by
  cases op <;> rfl

theorem AttrOp.getLsbD_apply (pte : Word w) (op : AttrOp) (i : Nat) :
    (op.apply pte).getLsbD i = if i = op.attr.pos then op.sets else pte.getLsbD i := by
  have hlt : op.attr.pos < 8 * szreg w := op.attr.pos_lt
  rw [apply_eq, Attr.mask_eq]
  split
  · next hsets =>
    rw [BitVec.getLsbD_or, BitVec.getLsbD_twoPow]
    split
    · next hi => simp [hi, hlt, hsets]
    · next hi => simp [Ne.symm hi]
  · next hsets =>
    rw [BitVec.getLsbD_and, BitVec.getLsbD_not, BitVec.getLsbD_twoPow]
    split
    · next hi => simp [hi, hlt, hsets]
    · next hi =>
      by_cases hw : i < 8 * szreg w
      · simp [hw, Ne.symm hi]
      · simp [hw, BitVec.getLsbD_of_ge _ _ (Nat.not_lt.mp hw)]

/-- What the function does to an attribute. -/
def AttrOp.writes (a : Attr) (op : AttrOp) : Option Bool :=
  if op.attr = a then some op.sets else none

theorem Attr.pos_inj {a b : Attr} : a.pos = b.pos ↔ b = a := by
  cases a <;> cases b <;> decide

/-- **A change writes its own attribute and no other.** -/
theorem AttrOp.query_apply (a : Attr) (pte : Word w) (op : AttrOp) :
    decide (a.Query (op.apply pte)) = (op.writes a).getD (decide (a.Query pte)) := by
  simp only [Attr.query_iff, Bool.decide_eq_true]
  rw [getLsbD_apply, writes]
  by_cases h : op.attr = a
  · rw [if_pos h, if_pos (Attr.pos_inj.mpr h), Option.getD_some]
  · rw [if_neg h, if_neg (mt Attr.pos_inj.mp h), Option.getD_none]

theorem query_attrOps (a : Attr) (pte : Word w) (ops : List AttrOp) :
    decide (a.Query (attrOps pte ops)) = lastSet (AttrOp.writes a) (decide (a.Query pte)) ops :=
  @field_foldl _ _ _ AttrOp.apply (fun pte : Word w => decide (a.Query pte)) (AttrOp.writes a)
    (AttrOp.query_apply a) pte ops

theorem Attr.ptePfn_mask (a : Attr) : ptePfn (a.mask : Word w) = 0 := by
  cases w <;> cases a <;> decide

theorem ptePfn_attrOps (pte : Word w) (ops : List AttrOp) :
    ptePfn (attrOps pte ops) = ptePfn pte := by
  refine foldl_kept (fun pte op => ?_) pte ops
  rw [AttrOp.apply_eq]
  split
  · exact ptePfn_or op.attr.ptePfn_mask pte
  · exact ptePfn_and_not op.attr.ptePfn_mask pte

theorem ptePresent_attrOps (pte : Word w) (ops : List AttrOp) :
    ptePresent (attrOps pte ops) ↔ ptePresent pte := by
  have hkept : (attrOps pte ops).getLsbD 0 = pte.getLsbD 0 := by
    refine @foldl_kept _ _ _ AttrOp.apply (fun pte : Word w => pte.getLsbD 0) (fun pte op => ?_)
      pte ops
    exact (AttrOp.getLsbD_apply pte op 0).trans (if_neg (by cases op <;> decide))
  rw [ptePresent_iff, ptePresent_iff, hkept]

/-! ## Names -/

theorem AttrOp.writes_eq_effect {a : Attr} (ha : a ≠ .young) : AttrOp.writes a = AttrOp.effect a := by
  funext op
  rw [writes, effect]
  by_cases h : op.attr = a
  · rw [if_pos h, if_pos h]
    cases op <;> first | rfl | exact absurd h.symm ha
  · rw [if_neg h, if_neg h]

/-- The functions about the accessed bit do the opposite of what they are called. -/
theorem AttrOp.writes_young (op : AttrOp) : op.writes .young = (op.effect .young).map not := by
  cases op <;> rfl

/-- **Exactly when a sequence does what its names say.** -/
theorem asNamed_iff (pte : Word w) (ops : List AttrOp) :
    AsNamed pte ops ↔ ∀ op ∈ ops, op ≠ .mkyoung ∧ op ≠ .mkold := by
  have hquery : ∀ a : Attr, (a.Query (attrOps pte ops) ↔
      lastSet (AttrOp.effect a) (decide (a.Query pte)) ops = true) ↔
      lastSet (AttrOp.writes a) (decide (a.Query pte)) ops =
        lastSet (AttrOp.effect a) (decide (a.Query pte)) ops := by
    intro a
    rw [← query_attrOps, Bool.eq_iff_iff (a := decide _), decide_eq_true_iff]
  have hyoung : ∀ op : AttrOp, op.effect .young = none ↔ op ≠ .mkyoung ∧ op ≠ .mkold := by
    intro op
    cases op <;> decide
  have hwrites : AttrOp.writes .young = fun op => (AttrOp.effect .young op).map not :=
    funext AttrOp.writes_young
  simp only [← hyoung]
  unfold AsNamed
  rw [and_iff_left ⟨ptePfn_attrOps pte ops, ptePresent_attrOps pte ops⟩]
  simp only [hquery]
  constructor
  · intro h
    have hlast := h .young
    rw [hwrites] at hlast
    exact lastSet_not_eq_iff.mp hlast
  · intro h a
    by_cases ha : a = .young
    · subst ha
      rw [hwrites]
      exact lastSet_not_eq_iff.mpr h
    · rw [AttrOp.writes_eq_effect ha]

/-- A page that is marked young is old. -/
theorem not_asNamed_mkyoung : ¬ AsNamed (0 : Word .rv64) [.mkyoung] :=
  fun h => absurd ((h.1 .young).mpr rfl) (by decide)

end LowriscLinux.Mm
