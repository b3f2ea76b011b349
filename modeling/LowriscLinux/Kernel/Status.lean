import LowriscLinux.Kernel.PtRegs
import LowriscLinux.Lib.Words
import Mathlib.Logic.Function.Basic

/-!
# The status register

The bits of `sstatus` (`arch/riscv/include/asm/csr.h`, lines 7-28) that the trap code and the
context switch use, and what the hardware does to the register.

## What models what

* `trapStatus`: a trap keeps the mode in `SR_PS` and the interrupt enable in `SR_PIE`, and disables
  interrupts.
* `sretStatus`: `sret` takes the interrupt enable from `SR_PIE`, and leaves `SR_PIE` set and `SR_PS`
  clear.
* `csrStatus`: a write by software, which cannot set `SR_SD`: that bit says whether one of the two
  state fields is dirty. All other bits keep what is written.
* `fpStatus`: an instruction that writes a floating-point register makes the state dirty.
* `cleanStatus`: `__fstate_clean` (`asm/switch_to.h`, lines 11-14). It sets `SR_FS_CLEAN` with `|=`,
  so a state of `SR_FS_INITIAL` becomes dirty.
* `fsOff`, `fsDirty`, `fsInitial` and `hasSd`: the tests of `asm/switch_to.h` (lines 19, 28 and 40).

What the hardware does is that of the privileged architecture of the time, with `SR_PS` and
`SR_PUM`; other bits than these do not matter to the code.

Results:
* `getLsbD_trapStatus`, `getLsbD_sretStatus`: the bits after a trap and after `sret`.
* `fsOff_of_bits`, …: what each operation does to the floating-point state.
-/

namespace LowriscLinux.Kernel

open Lib

variable {w : Xlen}

/-! ## Status bits -/

theorem srIe_eq : (srIe : Word w) = BitVec.twoPow _ 1 := by cases w <;> rfl

theorem srPie_eq : (srPie : Word w) = BitVec.twoPow _ 5 := by cases w <;> rfl

theorem srPs_eq : (srPs : Word w) = BitVec.twoPow _ 8 := by cases w <;> rfl

theorem srPum_eq : (srPum : Word w) = BitVec.twoPow _ 18 := by cases w <;> rfl

theorem srFs_eq : (srFs : Word w) = BitVec.twoPow _ 13 ||| BitVec.twoPow _ 14 := by
  cases w <;> rfl

theorem and_srPs_eq_zero (v : Word w) : v &&& srPs = 0 ↔ v.getLsbD 8 = false := by
  rw [srPs_eq]
  exact and_twoPow_eq_zero (by have := le_xlen w; omega) v

theorem and_srIe_eq_zero (v : Word w) : v &&& srIe = 0 ↔ v.getLsbD 1 = false := by
  rw [srIe_eq]
  exact and_twoPow_eq_zero (by have := le_xlen w; omega) v

theorem and_srPie_eq_zero (v : Word w) : v &&& srPie = 0 ↔ v.getLsbD 5 = false := by
  rw [srPie_eq]
  exact and_twoPow_eq_zero (by have := le_xlen w; omega) v

/-- What the hardware makes of `sstatus` on a trap: the mode and the interrupt enable are kept in
`SR_PS` and `SR_PIE`, and interrupts are disabled. -/
def trapStatus (user : Bool) (v : Word w) : Word w :=
  (v &&& ~~~(srPs ||| srPie ||| srIe)) |||
    ((if user then 0 else srPs) ||| (if v &&& srIe = 0 then 0 else srPie))

/-- What `sret` makes of `sstatus`: the interrupt enable comes back from `SR_PIE`. -/
def sretStatus (v : Word w) : Word w :=
  (v &&& ~~~(srPs ||| srPie ||| srIe)) ||| (srPie ||| (if v &&& srPie = 0 then 0 else srIe))

theorem getLsbD_srPs (i : Nat) : (srPs : Word w).getLsbD i = decide (i = 8) := by
  have h32 := le_xlen w
  rw [srPs_eq, BitVec.getLsbD_twoPow]
  by_cases h : i = 8
  · simp [h]
    omega
  · simp [h, Ne.symm h]

theorem getLsbD_srPie (i : Nat) : (srPie : Word w).getLsbD i = decide (i = 5) := by
  have h32 := le_xlen w
  rw [srPie_eq, BitVec.getLsbD_twoPow]
  by_cases h : i = 5
  · simp [h]
    omega
  · simp [h, Ne.symm h]

theorem getLsbD_srIe (i : Nat) : (srIe : Word w).getLsbD i = decide (i = 1) := by
  have h32 := le_xlen w
  rw [srIe_eq, BitVec.getLsbD_twoPow]
  by_cases h : i = 1
  · simp [h]
    omega
  · simp [h, Ne.symm h]

/-- The bits of the status after a trap. -/
theorem getLsbD_trapStatus (user : Bool) (v : Word w) (i : Nat) :
    (trapStatus user v).getLsbD i =
      if i = 8 then !user else if i = 5 then v.getLsbD 1 else if i = 1 then false
      else v.getLsbD i := by
  have hin := @lt_of_getLsbD _ i v
  unfold trapStatus
  simp only [BitVec.getLsbD_or, and_srIe_eq_zero, BitVec.getLsbD_and, BitVec.getLsbD_not,
    getLsbD_srPs, getLsbD_srPie, getLsbD_srIe]
  cases user <;> cases v.getLsbD 1 <;> cases hv : v.getLsbD i <;>
    by_cases h8 : i = 8 <;> by_cases h5 : i = 5 <;> by_cases h1 : i = 1 <;>
      simp_all [getLsbD_srPs, getLsbD_srPie, -BitVec.getLsbD_eq_getElem]

/-- The bits of the status after `sret`. -/
theorem getLsbD_sretStatus (v : Word w) (i : Nat) :
    (sretStatus v).getLsbD i =
      if i = 8 then false else if i = 5 then true else if i = 1 then v.getLsbD 5
      else v.getLsbD i := by
  have hin := @lt_of_getLsbD _ i v
  unfold sretStatus
  simp only [BitVec.getLsbD_or, and_srPie_eq_zero, BitVec.getLsbD_and, BitVec.getLsbD_not,
    getLsbD_srPs, getLsbD_srPie, getLsbD_srIe]
  cases v.getLsbD 5 <;> cases hv : v.getLsbD i <;>
    by_cases h8 : i = 8 <;> by_cases h5 : i = 5 <;> by_cases h1 : i = 1 <;>
      simp_all [getLsbD_srIe, -BitVec.getLsbD_eq_getElem]

/-! ## The floating-point state -/

/-- `SR_FS_CLEAN`. -/
def srFsClean : Word w := 0x4000

/-- `SR_FS_DIRTY`. -/
def srFsDirty : Word w := 0x6000

/-- `SR_XS`, which is also `SR_XS_DIRTY`: the state of further extensions. -/
def srXs : Word w := 0x18000

/-- `SR_SD`. -/
def srSd : (w : Xlen) → Word w
  | .rv32 => 0x80000000#32
  | .rv64 => 0x8000000000000000#64

/-- `(status & SR_FS) == SR_FS_OFF` -/
def fsOff (v : Word w) : Bool := v &&& srFs = 0

/-- `(status & SR_FS) == SR_FS_DIRTY` -/
def fsDirty (v : Word w) : Bool := v &&& srFs = srFsDirty

/-- `(status & SR_FS) == SR_FS_INITIAL` -/
def fsInitial (v : Word w) : Bool := v &&& srFs = srFsInitial

/-- `status & SR_SD` -/
def hasSd (v : Word w) : Bool := v &&& srSd w ≠ 0

/-- What the register holds after software has written a word to it. -/
def csrStatus (v : Word w) : Word w :=
  if v &&& srFs = srFsDirty ∨ v &&& srXs = srXs then v ||| srSd w else v &&& ~~~srSd w

/-- What an instruction that writes a floating-point register makes of the status. -/
def fpStatus (v : Word w) : Word w := v ||| srFsDirty ||| srSd w

/-- `sstatus |= (sstatus & ~SR_FS) | SR_FS_CLEAN` -/
def cleanStatus (v : Word w) : Word w := v ||| ((v &&& ~~~srFs) ||| srFsClean)

theorem srFsClean_eq : (srFsClean : Word w) = BitVec.twoPow _ 14 := by cases w <;> rfl

theorem srSd_eq (w : Xlen) : srSd w = BitVec.twoPow _ (8 * szreg w - 1) := by cases w <;> rfl

theorem getLsbD_srFs (i : Nat) : (srFs : Word w).getLsbD i = decide (i = 13 ∨ i = 14) := by
  have h32 := le_xlen w
  rw [srFs_eq, BitVec.getLsbD_or, BitVec.getLsbD_twoPow, BitVec.getLsbD_twoPow]
  by_cases h : i = 13 ∨ i = 14
  · rcases h with rfl | rfl <;> simp <;> omega
  · simp only [not_or] at h
    simp [h, Ne.symm h.1, Ne.symm h.2]

/-- The state field is bits 13 and 14. -/
theorem and_srFs_eq_iff (u v : Word w) :
    u &&& srFs = v &&& srFs ↔ u.getLsbD 13 = v.getLsbD 13 ∧ u.getLsbD 14 = v.getLsbD 14 := by
  constructor
  · intro h
    have hbit : ∀ i, (u &&& srFs).getLsbD i = (v &&& srFs).getLsbD i := fun i => by rw [h]
    have h13 := hbit 13
    have h14 := hbit 14
    exact ⟨by simpa [getLsbD_srFs] using h13, by simpa [getLsbD_srFs] using h14⟩
  · rintro ⟨h13, h14⟩
    refine BitVec.eq_of_getLsbD_eq fun i _ => ?_
    simp only [BitVec.getLsbD_and, getLsbD_srFs]
    by_cases h : i = 13 ∨ i = 14
    · rcases h with rfl | rfl
      · rw [h13]
      · rw [h14]
    · simp [h]

theorem fsOff_eq (v : Word w) : fsOff v = (!v.getLsbD 13 && !v.getLsbD 14) := by
  have hzero : (0 : Word w) &&& srFs = 0 := BitVec.zero_and
  have h := and_srFs_eq_iff v 0
  rw [hzero] at h
  unfold fsOff
  cases h13 : v.getLsbD 13 <;> cases h14 : v.getLsbD 14 <;> simp_all

theorem fsDirty_eq (v : Word w) : fsDirty v = (v.getLsbD 13 && v.getLsbD 14) := by
  have hself : (srFs : Word w) &&& srFs = srFsDirty := by cases w <;> rfl
  have h := and_srFs_eq_iff v srFs
  rw [hself, getLsbD_srFs, getLsbD_srFs] at h
  unfold fsDirty
  cases h13 : v.getLsbD 13 <;> cases h14 : v.getLsbD 14 <;> simp_all

theorem fsInitial_eq (v : Word w) : fsInitial v = (v.getLsbD 13 && !v.getLsbD 14) := by
  have hself : (srFsInitial : Word w) &&& srFs = srFsInitial := by cases w <;> rfl
  have h13 : (srFsInitial : Word w).getLsbD 13 = true := by cases w <;> rfl
  have h14 : (srFsInitial : Word w).getLsbD 14 = false := by cases w <;> rfl
  have h := and_srFs_eq_iff v srFsInitial
  rw [hself, h13, h14] at h
  unfold fsInitial
  cases h13 : v.getLsbD 13 <;> cases h14 : v.getLsbD 14 <;> simp_all

theorem hasSd_eq (v : Word w) : hasSd v = v.getLsbD (8 * szreg w - 1) := by
  have h32 := le_xlen w
  have htest := and_twoPow_eq_zero (show 8 * szreg w - 1 < 8 * szreg w by omega) v
  rw [hasSd, srSd_eq]
  cases hb : v.getLsbD (8 * szreg w - 1) <;> simp_all

section Effect

/-- An operation that keeps bits 13 and 14 keeps the state field. -/
theorem fsOff_of_bits {u v : Word w} (h : ∀ i, i = 13 ∨ i = 14 → u.getLsbD i = v.getLsbD i) :
    fsOff u = fsOff v := by
  rw [fsOff_eq, fsOff_eq, h 13 (.inl rfl), h 14 (.inr rfl)]

theorem fsDirty_of_bits {u v : Word w} (h : ∀ i, i = 13 ∨ i = 14 → u.getLsbD i = v.getLsbD i) :
    fsDirty u = fsDirty v := by
  rw [fsDirty_eq, fsDirty_eq, h 13 (.inl rfl), h 14 (.inr rfl)]

theorem getLsbD_srSd (i : Nat) : (srSd w).getLsbD i = decide (i = 8 * szreg w - 1) := by
  have h32 := le_xlen w
  rw [srSd_eq, BitVec.getLsbD_twoPow]
  by_cases h : i = 8 * szreg w - 1
  · simp [h]
    omega
  · simp [h, Ne.symm h]

/-- A write by software only sets or clears `SR_SD` on its own. -/
theorem getLsbD_csrStatus {i : Nat} (hi : i < 31) (v : Word w) :
    (csrStatus v).getLsbD i = v.getLsbD i := by
  have h32 := le_xlen w
  have hlt : i < 8 * szreg w := by omega
  unfold csrStatus
  split
  · rw [BitVec.getLsbD_or, getLsbD_srSd]
    simp
    omega
  · rw [BitVec.getLsbD_and, BitVec.getLsbD_not, getLsbD_srSd]
    simp
    omega

@[simp] theorem fsOff_csrStatus (v : Word w) : fsOff (csrStatus v) = fsOff v :=
  fsOff_of_bits fun i hi => getLsbD_csrStatus (by omega) v

@[simp] theorem fsDirty_csrStatus (v : Word w) : fsDirty (csrStatus v) = fsDirty v :=
  fsDirty_of_bits fun i hi => getLsbD_csrStatus (by omega) v

/-- `SR_SD` comes back set for a dirty state. -/
theorem hasSd_csrStatus {v : Word w} (h : fsDirty v = true) : hasSd (csrStatus v) = true := by
  have hdirty : v &&& srFs = srFsDirty := by simpa [fsDirty] using h
  rw [hasSd_eq, csrStatus, if_pos (.inl hdirty), BitVec.getLsbD_or, getLsbD_srSd]
  simp

@[simp] theorem fsOff_trapStatus (user : Bool) (v : Word w) :
    fsOff (trapStatus user v) = fsOff v := by
  refine fsOff_of_bits fun i hi => ?_
  rw [getLsbD_trapStatus, if_neg (by omega), if_neg (by omega), if_neg (by omega)]

@[simp] theorem fsDirty_trapStatus (user : Bool) (v : Word w) :
    fsDirty (trapStatus user v) = fsDirty v := by
  refine fsDirty_of_bits fun i hi => ?_
  rw [getLsbD_trapStatus, if_neg (by omega), if_neg (by omega), if_neg (by omega)]

@[simp] theorem hasSd_trapStatus (user : Bool) (v : Word w) :
    hasSd (trapStatus user v) = hasSd v := by
  have h32 := le_xlen w
  rw [hasSd_eq, hasSd_eq, getLsbD_trapStatus, if_neg (by omega), if_neg (by omega),
    if_neg (by omega)]

@[simp] theorem fsOff_sretStatus (v : Word w) : fsOff (sretStatus v) = fsOff v := by
  refine fsOff_of_bits fun i hi => ?_
  rw [getLsbD_sretStatus, if_neg (by omega), if_neg (by omega), if_neg (by omega)]

@[simp] theorem fsDirty_sretStatus (v : Word w) : fsDirty (sretStatus v) = fsDirty v := by
  refine fsDirty_of_bits fun i hi => ?_
  rw [getLsbD_sretStatus, if_neg (by omega), if_neg (by omega), if_neg (by omega)]

@[simp] theorem hasSd_sretStatus (v : Word w) : hasSd (sretStatus v) = hasSd v := by
  have h32 := le_xlen w
  rw [hasSd_eq, hasSd_eq, getLsbD_sretStatus, if_neg (by omega), if_neg (by omega),
    if_neg (by omega)]

/-- `csrc sstatus, SR_FS` -/
@[simp] theorem fsOff_and_not_srFs (v : Word w) : fsOff (v &&& ~~~srFs) = true := by
  rw [fsOff_eq]
  simp [BitVec.getLsbD_and, BitVec.getLsbD_not, getLsbD_srFs]

@[simp] theorem fsOff_fpStatus (v : Word w) : fsOff (fpStatus v) = false := by
  rw [fsOff_eq, fpStatus, show (srFsDirty : Word w) = srFs by cases w <;> rfl]
  simp [BitVec.getLsbD_or, getLsbD_srFs]

theorem fsDirty_fpStatus (v : Word w) : fsDirty (fpStatus v) = true := by
  rw [fsDirty_eq, fpStatus, show (srFsDirty : Word w) = srFs by cases w <;> rfl]
  simp [BitVec.getLsbD_or, getLsbD_srFs]

theorem hasSd_fpStatus (v : Word w) : hasSd (fpStatus v) = true := by
  rw [hasSd_eq, fpStatus, BitVec.getLsbD_or, getLsbD_srSd]
  simp

/-- The bits of a status that has been marked clean: bit 14 is set, whatever bit 13 is. -/
theorem getLsbD_cleanStatus (v : Word w) (i : Nat) :
    (cleanStatus v).getLsbD i = (v.getLsbD i || decide (i = 14)) := by
  have h32 := le_xlen w
  have hin := @lt_of_getLsbD _ i v
  rw [cleanStatus, srFsClean_eq]
  simp only [BitVec.getLsbD_or, BitVec.getLsbD_and, BitVec.getLsbD_not, getLsbD_srFs,
    BitVec.getLsbD_twoPow]
  by_cases h : i = 14
  · subst h
    simp
    omega
  · cases hv : v.getLsbD i <;> simp [h, Ne.symm h]

@[simp] theorem fsOff_cleanStatus (v : Word w) : fsOff (cleanStatus v) = false := by
  rw [fsOff_eq, getLsbD_cleanStatus, getLsbD_cleanStatus]
  simp

/-- A state that was initial or dirty is dirty after it has been marked clean. -/
theorem fsDirty_cleanStatus (v : Word w) : fsDirty (cleanStatus v) = v.getLsbD 13 := by
  rw [fsDirty_eq, getLsbD_cleanStatus, getLsbD_cleanStatus]
  simp

theorem fsOff_of_fsDirty {v : Word w} (h : fsDirty v = true) : fsOff v = false := by
  rw [fsDirty_eq, Bool.and_eq_true] at h
  rw [fsOff_eq, h.1]
  rfl

end Effect

end LowriscLinux.Kernel
