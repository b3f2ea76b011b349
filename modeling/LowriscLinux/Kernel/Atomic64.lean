import LowriscLinux.Lib.Reserved
import LowriscLinux.Lib.Words

/-!
# Conditional updates of 64-bit counters

Model of `atomic64_dec_if_positive`, `atomic64_add_unless` and `atomic64_inc_not_zero`
(`arch/riscv/include/asm/atomic64.h`, lines 186-238), with any other harts. The operands of an `asm`
statement are taken to be in different registers.

`atomic64_dec_if_positive` loads with `lr.d` and stores with `sc.w` (line 201), which writes the low
half only, and tests the sign of the value after it has been decremented (line 200). In
`atomic64_add_unless` the variable `rc` is initialised to 1 (line 220), but is an output of the
`asm` statement only (line 230): its register holds anything until a store-conditional writes it.

## What models what

* `decIfPositive` and `addUnless`: the two `asm` statements, lines 197-203 and 223-229, as
  instruction lists of the library's load-reserved loops (`Lib/Reserved.lean`), where the width of
  the store-conditional is an argument.
* `addUnlessResult`: `return !rc`, line 232, on the low bits of the register. `incNotZero`: line
  237.
* `Decremented` and `Truthful`: what the comments (lines 187-191 and 209-215) promise, for a run
  that is back. They speak of the counter as it was loaded last and of the stores of this function;
  what other harts store in between is part of the run.

Results:
* `decIfPositive_stored`: what is stored in the counter.
* **`decIfPositive_iff`**: the decrement does what it should iff it does not borrow from the upper
  half of a positive counter, and the counter is not the smallest one.
* **`addUnless_iff`**: the result is right iff the addition was made, or the register of `rc` was
  not 0.
-/

namespace LowriscLinux.Kernel

open Lib Lib.Reserved

/-! ## `atomic64_dec_if_positive` -/

/-- The `asm` statement of `atomic64_dec_if_positive`. -/
def decIfPositive : List (Instr 64) := loop 64 [.add (-1), .bltz] 32 none

/-- The last loaded counter was replaced by its predecessor in one store if it was positive, and was
left alone otherwise; the result is the predecessor. -/
structure Decremented (s : State 64 64) : Prop where
  positive : 0 < s.loaded.toInt → s.writes = [(s.loaded, s.loaded - 1)]
  otherwise : s.loaded.toInt ≤ 0 → s.writes = []
  result : s.value = s.loaded - 1

section Decrement

variable {v : BitVec 64}

theorem pass_decIfPositive (v : BitVec 64) :
    pass [.add (-1), .bltz] v = (v - 1, decide (0 ≤ (v - 1).toInt)) := by
  have hpred : v + -1 = v - 1 := (BitVec.sub_eq_add_neg v 1).symm
  simp only [Reserved.pass, Mid.leaves, Mid.value, hpred, Bool.false_eq_true, if_false,
    BitVec.msb_eq_toInt, decide_eq_true_eq]
  split_ifs with h
  · rw [decide_eq_false (by omega)]
  · rw [decide_eq_true (by omega)]

theorem toNat_sub_one (v : BitVec 64) :
    (v - 1).toNat = if 1 ≤ v.toNat then v.toNat - 1 else 2 ^ 64 + v.toNat - 1 :=
  toNat_sub_ofNat v (by decide)

/-- The predecessor is not negative for a positive counter and for the smallest one. -/
theorem toInt_sub_one_nonneg_iff : 0 ≤ (v - 1).toInt ↔ 0 < v.toInt ∨ v = BitVec.intMin 64 := by
  have hv := v.isLt
  have hsub := toNat_sub_one v
  have hmin : v = BitVec.intMin 64 ↔ v.toNat = 2 ^ 63 := BitVec.toNat_eq
  rw [hmin, BitVec.toInt_eq_toNat_cond, BitVec.toInt_eq_toNat_cond]
  split_ifs at hsub <;> split_ifs <;> omega

/-- **What is stored** is the predecessor unless that borrows from the upper half, which is left as
it was. -/
theorem decIfPositive_stored : storeLow 32 v (v - 1) = v - 1 ↔ v.setWidth 32 ≠ 0#32 := by
  have hv := v.isLt
  have hlow : v.setWidth 32 = 0#32 ↔ v.toNat % 2 ^ 32 = 0 := by
    rw [BitVec.toNat_eq, BitVec.toNat_setWidth]
    rfl
  have hsub := toNat_sub_one v
  rw [ne_eq, hlow, BitVec.toNat_eq, toNat_storeLow (by decide)]
  split_ifs at hsub <;> omega

/-- The decrement of a counter that the routine has loaded last. -/
theorem decremented_iff {status : BitVec 64} {s : State 64 64}
    (h : Outcome 64 [.add (-1), .bltz] 32 none status s) :
    Decremented s ↔
      s.loaded ≠ BitVec.intMin 64 ∧ (0 < s.loaded.toInt → s.loaded.setWidth 32 ≠ 0#32) := by
  have hload : (loadLow 64 s.loaded : BitVec 64) = s.loaded :=
    (loadLow_self s.loaded).trans (BitVec.signExtend_eq _)
  have hmin : ¬ 0 < (BitVec.intMin 64).toInt := by decide
  cases h with
  | left value writes _ =>
    rw [hload, pass_decIfPositive] at value
    obtain ⟨hvalue, htest⟩ := Prod.mk.inj value
    obtain ⟨hneg, hne⟩ := not_or.mp (mt toInt_sub_one_nonneg_iff.mpr (of_decide_eq_false htest))
    exact iff_of_true ⟨fun hpos => absurd hpos hneg, fun _ => writes, hvalue.symm⟩
      ⟨hne, fun hpos => absurd hpos hneg⟩
  | stored value writes _ =>
    rw [hload, pass_decIfPositive] at value
    obtain ⟨hvalue, htest⟩ := Prod.mk.inj value
    rw [Option.getD_none, ← hvalue] at writes
    constructor
    · rintro ⟨hpositive, hotherwise, -⟩
      rcases toInt_sub_one_nonneg_iff.mp (of_decide_eq_true htest) with hpos | heq
      · have hstored := writes.symm.trans (hpositive hpos)
        simp only [List.cons.injEq, Prod.mk.injEq, true_and, and_true] at hstored
        refine ⟨?_, fun _ => decIfPositive_stored.mp hstored⟩
        intro heq
        rw [heq] at hpos
        exact hmin hpos
      · -- The smallest counter is not positive, but is stored to.
        have hnone := hotherwise (by rw [heq]; decide)
        rw [writes] at hnone
        cases hnone
    · rintro ⟨hne, hborrow⟩
      have hpos := (toInt_sub_one_nonneg_iff.mp (of_decide_eq_true htest)).resolve_right hne
      refine ⟨fun _ => ?_, fun hle => absurd hpos (not_lt.mpr hle), hvalue.symm⟩
      rw [writes, decIfPositive_stored.mpr (hborrow hpos)]

end Decrement

/-- **The decrement does what it should iff it does not borrow from the upper half of a positive
counter, and the counter is not the smallest one**, after any number of failed stores. -/
theorem decIfPositive_iff {mem value status : BitVec 64} {run : List (Act 64 64 × State 64 64)}
    (hrun : IsRun (Step decIfPositive) (start mem value status) run)
    (hreturned : (lastState (start mem value status) run).Returned decIfPositive) :
    let s := lastState (start mem value status) run
    Decremented s ↔
      s.loaded ≠ BitVec.intMin 64 ∧ (0 < s.loaded.toInt → s.loaded.setWidth 32 ≠ 0#32) :=
  decremented_iff (loop_returned hrun hreturned)

/-- A counter of 5 that another hart sets to 7 before the first store. -/
theorem decIfPositive_seven :
    let run := trace (State.step decIfPositive) (start 5 0 0) [.instr 0, .instr 0, .instr 0,
      .other 7, .instr 1, .instr 0, .instr 0, .instr 0, .instr 0, .instr 0, .instr 0]
    run.length = 11 ∧ (lastState (start 5 0 0) run).loaded = 7 ∧
      Decremented (lastState (start 5 0 0) run) :=
  ⟨by decide, by decide, (decIfPositive_iff (isRun_trace _ _) (by decide)).mpr (by decide)⟩

/-- **A counter of 2^32 becomes 2^33 - 1.** -/
theorem not_decremented_borrow :
    let run := trace (State.step decIfPositive) (start 0x100000000 0 0)
      [.instr 0, .instr 0, .instr 0, .instr 0, .instr 0]
    IsRun (Step decIfPositive) (start 0x100000000 0 0) run ∧
      (lastState (start 0x100000000 0 0) run).Returned decIfPositive ∧
      (lastState (start 0x100000000 0 0) run).mem = 0x1ffffffff ∧
      ¬ Decremented (lastState (start 0x100000000 0 0) run) := by
  refine ⟨isRun_trace _ _, by decide, by decide, fun h => ?_⟩
  exact absurd (h.positive (by decide)) (by decide)

/-! ## `atomic64_add_unless` -/

/-- The `asm` statement of `atomic64_add_unless`. -/
def addUnless (a u : BitVec 64) : List (Instr 64) := loop 64 [.beq u, .add a] 64 none

/-- What `atomic64_add_unless` returns: `!rc`, where `rc` is an `int`. -/
def addUnlessResult (s : State 64 64) : Bool := s.status.setWidth 32 = 0#32

/-- `atomic64_inc_not_zero`. -/
def incNotZero : List (Instr 64) := addUnless 1 0

/-- The function returns true exactly when it has made the addition, which it has exactly when the
last loaded counter was not `u`, in one store over that counter. -/
structure Truthful (a u : BitVec 64) (s : State 64 64) : Prop where
  result : addUnlessResult s = true ↔ s.writes ≠ []
  made : s.writes ≠ [] ↔ s.loaded ≠ u
  stored : s.writes ≠ [] → s.writes = [(s.loaded, s.loaded + a)]

section AddUnless

variable {a u : BitVec 64}

theorem pass_addUnless (v : BitVec 64) :
    pass [.beq u, .add a] v = if v = u then (v, false) else (v + a, true) := by
  by_cases h : v = u
  · simp [Reserved.pass, Mid.leaves, Mid.value, h]
  · simp [Reserved.pass, Mid.leaves, Mid.value, h]

theorem truthful_iff {status : BitVec 64} {s : State 64 64}
    (h : Outcome 64 [.beq u, .add a] 64 none status s) :
    Truthful a u s ↔ s.loaded ≠ u ∨ (s.failed.headD status).setWidth 32 ≠ 0#32 := by
  have hload : (loadLow 64 s.loaded : BitVec 64) = s.loaded :=
    (loadLow_self s.loaded).trans (BitVec.signExtend_eq _)
  cases h with
  | left value writes leftover =>
    rw [hload, pass_addUnless] at value
    split_ifs at value with heq
    · have hresult : addUnlessResult s = true ↔ (s.failed.headD status).setWidth 32 = 0#32 := by
        rw [addUnlessResult, decide_eq_true_iff, leftover]
      have hno : s.writes ≠ [] ↔ False := iff_of_false (fun hne => hne writes) id
      constructor
      · intro ht
        have hfalse := ht.result
        rw [hresult, hno, iff_false] at hfalse
        exact Or.inr hfalse
      · intro hcond
        have hleft := hcond.resolve_left (fun hne => hne heq)
        refine ⟨?_, ?_, fun hne => absurd writes hne⟩
        · rw [hresult, hno]
          exact iff_false_intro hleft
        · rw [hno]
          exact (iff_false_intro (fun hne => hne heq)).symm
    · cases (Prod.mk.inj value).2
  | stored value writes zero =>
    rw [hload, pass_addUnless] at value
    split_ifs at value with heq
    · cases (Prod.mk.inj value).2
    · have hmade : s.writes ≠ [] := by simp [writes]
      refine iff_of_true ⟨iff_of_true ?_ hmade, iff_of_true hmade heq, fun _ => ?_⟩ (Or.inl heq)
      · simp [addUnlessResult, zero]
      · rw [writes, Option.getD_none, storeLow_self, ← (Prod.mk.inj value).1, BitVec.setWidth_eq]

end AddUnless

/-- **The result is right iff the addition was made, or the register of `rc` was not 0**: what the
last failed store has left in it, or, when none has failed, what it held at the start. -/
theorem addUnless_iff (mem value status : BitVec 64) (run : List (Act 64 64 × State 64 64)) :
    let s := lastState (start mem value status) run
    (∀ a u, IsRun (Step (addUnless a u)) (start mem value status) run →
      s.Returned (addUnless a u) →
        (Truthful a u s ↔ s.loaded ≠ u ∨ (s.failed.headD status).setWidth 32 ≠ 0#32)) ∧
      (IsRun (Step incNotZero) (start mem value status) run → s.Returned incNotZero →
        (Truthful 1 0 s ↔ s.loaded ≠ 0 ∨ (s.failed.headD status).setWidth 32 ≠ 0#32)) :=
  ⟨fun _ _ hrun hreturned => truthful_iff (loop_returned hrun hreturned),
    fun hrun hreturned => truthful_iff (loop_returned hrun hreturned)⟩

/-- A counter of 3 that another hart sets to 5 before the first store, with `u` 5. -/
theorem addUnless_five :
    let run := trace (State.step (addUnless 2 5)) (start 3 0 0) [.instr 0, .instr 0, .instr 0,
      .other 5, .instr 1, .instr 0, .instr 0, .instr 0]
    run.length = 8 ∧ addUnlessResult (lastState (start 3 0 0) run) = false ∧
      Truthful 2 5 (lastState (start 3 0 0) run) :=
  ⟨by decide, by decide,
    ((addUnless_iff 3 0 0 _).1 2 5 (isRun_trace _ _) (by decide)).mpr (.inr (by decide))⟩

/-- **`atomic64_inc_not_zero` returns true for a counter of zero**, which it leaves alone, when the
register of `rc` holds 0. -/
theorem not_truthful_zero :
    let run := trace (State.step incNotZero) (start 0 0 0) [.instr 0, .instr 0]
    IsRun (Step incNotZero) (start 0 0 0) run ∧
      (lastState (start 0 0 0) run).Returned incNotZero ∧
      addUnlessResult (lastState (start 0 0 0) run) = true ∧
      (lastState (start 0 0 0) run).writes = [] ∧
      ¬ Truthful 1 0 (lastState (start 0 0 0) run) := by
  refine ⟨isRun_trace _ _, by decide, by decide, by decide, fun h => ?_⟩
  exact h.result.mp (by decide) (by decide)

end LowriscLinux.Kernel
