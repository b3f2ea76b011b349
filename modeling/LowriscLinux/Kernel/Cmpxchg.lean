import LowriscLinux.Lib.IntType
import LowriscLinux.Lib.Reserved
import LowriscLinux.Lib.Words

/-!
# Compare and exchange

Model of `__cmpxchg` (`arch/riscv/include/asm/cmpxchg.h`, lines 37-76) on RV64, and of
`atomic_cmpxchg` (`arch/riscv/include/asm/atomic.h`, lines 187-190).

Its callers find out whether it has stored by comparing, in C, what it returns with what they passed
as `old` (lines 37-40). The routine decides by a branch that compares whole registers (lines 54 and
65).

## What models what

* `cmpxchg`: the two `asm` statements (lines 51-59 and 61-70) as loops of `Lib/Reserved.lean`: on 4
  bytes `lr.w`, which extends the sign of what it loads, and `sc.w`, on 8 bytes `lr.d` and `sc.d`.
  Another size is the `BUILD_BUG`.
* `atomicCmpxchg`: `cmpxchg` on the `int` of an `atomic_t`. The barriers of `__cmpxchg_mb` (lines
  78-85) do nothing here, as the harts take turns.
* `Operand`: `__old` and `__new` have the types that the caller gives (lines 45 and 46). An operand
  of a type is a register: its value is the low bits, and the compiler is free in the others. The
  operands of an `asm` statement are taken to be in different registers.
* `succeeds`: the comparison of a caller, by the rules of C for the types of the two sides
  (`IntType.ceq`).
* `Report` and `Reliable`: success is told exactly when the routine has stored, in every run with
  any stores of others in between.

Results:
* `reliable_iff_forall`: what every run does, as a condition on each content of the object.
* `atomicCmpxchg_reliable`: `atomic_cmpxchg` with operands that are extended like `int`.
* **`cmpxchg_reliable_iff`**: for all types and operands, the report is reliable iff the registers
  of the operands fit the object.
-/

namespace LowriscLinux.Kernel

open Lib Lib.Reserved

/-- `__cmpxchg(ptr, old, new, size)`, with the registers of the operands; `none` is the
`BUILD_BUG`. -/
def cmpxchg (size : Nat) (old new : BitVec 64) : Option (List (Instr 64)) :=
  match size with
  | 4 => some (loop 32 [.bne old] 32 (some new))
  | 8 => some (loop 64 [.bne old] 64 (some new))
  | _ => none

/-- `atomic_cmpxchg`, whose counter is an `int`. -/
def atomicCmpxchg (old new : BitVec 64) : Option (List (Instr 64)) := cmpxchg 4 old new

/-- An operand: its type and its register. -/
structure Operand where
  type : IntType
  reg : BitVec 64
  deriving DecidableEq, Repr

/-- The number that an operand is. -/
def Operand.val (o : Operand) : Int := o.type.val (o.reg.setWidth o.type.bits)

/-- The callers take the routine to have stored. -/
def succeeds (obj : IntType) (old : Operand) (ret : BitVec obj.bits) : Bool :=
  IntType.ceq obj old.type ret (old.reg.setWidth old.type.bits)

/-- The report of a routine that is back is right: on success the new value was stored once, over
the value that is returned, and otherwise nothing was stored. -/
def Report (obj : IntType) (old new : Operand) (s : State obj.bits 64) : Prop :=
  let ret : BitVec obj.bits := s.value.setWidth obj.bits
  if succeeds obj old ret then s.writes = [(ret, obj.convert new.val)] else s.writes = []

/-- The report is right in every run. -/
def Reliable (obj : IntType) (old new : Operand) (code : List (Instr 64)) : Prop :=
  ∀ (mem : BitVec obj.bits) (value status : BitVec 64) (run : List (Act obj.bits 64 × _)),
    IsRun (Step code) (start mem value status) run →
    (lastState (start mem value status) run).Returned code →
    Report obj old new (lastState (start mem value status) run)

/-- The registers of the operands fit the object. That of an `old` of at most its width is the sign
extension of `old` as a value of the object. An `old` that is wider than an unsigned object has bit
31 clear where the object's values are extended by zeros, and is none of them extended by ones. That
of `new` holds it as a value of the object, unless no content of the object would be replaced. -/
structure Fits (obj : IntType) (old new : Operand) : Prop where
  narrow : old.type.bits ≤ obj.bits → old.reg = (obj.convert old.val).signExtend 64
  wide : obj.bits < old.type.bits → obj.signed = false →
    ¬ (2 ^ 31 ≤ old.reg.toNat ∧ old.reg.toNat < 2 ^ 32) ∧ ¬ 2 ^ 64 - 2 ^ 31 ≤ old.reg.toNat
  new : (∃ m : BitVec obj.bits, m.signExtend 64 = old.reg) →
    new.reg.setWidth obj.bits = obj.convert new.val

/-! ## Runs -/

section Runs

variable {obj : IntType} {old new : Operand}

/-- Both sizes have the same loop. -/
theorem cmpxchg_eq (obj : IntType) {old new : BitVec 64} {code : List (Instr 64)}
    (hcode : cmpxchg obj.size old new = some code) :
    (obj.bits = 32 ∨ obj.bits = 64) ∧
      code = loop obj.bits [.bne old] obj.bits (some new) := by
  obtain ⟨width, signed⟩ := obj
  cases width with
  | w8 | w16 => cases hcode
  | w32 => exact ⟨.inl rfl, (Option.some.inj hcode).symm⟩
  | w64 => exact ⟨.inr rfl, (Option.some.inj hcode).symm⟩

/-- What the branch makes of a loaded value. -/
theorem pass_bne (old r : BitVec 64) : pass [.bne old] r = (r, decide (r = old)) := by
  by_cases h : r = old
  · simp [Reserved.pass, Mid.leaves, Mid.value, h]
  · simp [Reserved.pass, Mid.leaves, Mid.value, h]

/-- **What every run does**: for each content of the object the branch decides as the callers will,
and what is stored is the new value. -/
theorem reliable_iff_forall (h64 : obj.bits ≤ 64) :
    Reliable obj old new (loop obj.bits [.bne old.reg] obj.bits (some new.reg)) ↔
      ∀ m : BitVec obj.bits, (m.signExtend 64 = old.reg ↔ succeeds obj old m = true) ∧
        (m.signExtend 64 = old.reg → new.reg.setWidth obj.bits = obj.convert new.val) := by
  constructor
  · intro h m
    obtain ⟨run, hrun, hreturned, hloaded⟩ :=
      exists_returned obj.bits [.bne old.reg] obj.bits (some new.reg) m 0 0
    have hreport := h m 0 0 run hrun hreturned
    have houtcome := loop_returned hrun hreturned
    generalize lastState (start m 0 0) run = s at *
    have hret : ∀ {b}, (m.signExtend 64, decide (m.signExtend 64 = old.reg)) = (s.value, b) →
        s.value.setWidth obj.bits = m := by
      intro b hval
      rw [← (Prod.mk.inj hval).1, setWidth_signExtend h64]
    cases houtcome with
    | left value writes _ =>
      rw [hloaded, loadLow_self, pass_bne] at value
      have hne : m.signExtend 64 ≠ old.reg := of_decide_eq_false (Prod.mk.inj value).2
      rw [Report, hret value] at hreport
      refine ⟨iff_of_false hne fun hsucc => ?_, fun heq => absurd heq hne⟩
      rw [if_pos hsucc, writes] at hreport
      cases hreport
    | stored value writes _ =>
      rw [hloaded, loadLow_self, pass_bne] at value
      have heq : m.signExtend 64 = old.reg := of_decide_eq_true (Prod.mk.inj value).2
      rw [Report, hret value, writes, hloaded, storeLow_self] at hreport
      split_ifs at hreport with hsucc
      exact ⟨iff_of_true heq hsucc, fun _ => (Prod.mk.inj (List.cons.inj hreport).1).2⟩
  · intro h mem value status run hrun hreturned
    have houtcome := loop_returned hrun hreturned
    generalize lastState (start mem value status) run = s at *
    obtain ⟨hiff, hnew⟩ := h s.loaded
    cases houtcome with
    | left value writes _ =>
      rw [loadLow_self, pass_bne] at value
      obtain ⟨hval, hbranch⟩ := Prod.mk.inj value
      have hne := of_decide_eq_false hbranch
      rw [Report, ← hval, setWidth_signExtend h64, if_neg (mt hiff.mpr hne)]
      exact writes
    | stored value writes _ =>
      rw [loadLow_self, pass_bne] at value
      obtain ⟨hval, hbranch⟩ := Prod.mk.inj value
      have heq := of_decide_eq_true hbranch
      rw [Report, ← hval, setWidth_signExtend h64, if_pos (hiff.mp heq), writes, storeLow_self]
      exact congrArg (fun v => [(s.loaded, v)]) (hnew heq)

end Runs

/-! ## The comparisons -/

section Comparisons

variable {obj : IntType} {old new : Operand}

theorem toNat_signExtend32 (m : BitVec 32) : (m.signExtend 64).toNat =
    if 2 ^ 31 ≤ m.toNat then m.toNat + (2 ^ 64 - 2 ^ 32) else m.toNat := by
  have hm := m.isLt
  rw [BitVec.toNat_signExtend, BitVec.toNat_setWidth, Nat.mod_eq_of_lt (by omega),
    BitVec.msb_eq_decide]
  by_cases h : 2 ^ 31 ≤ m.toNat
  · rw [if_pos h, if_pos (decide_eq_true h)]
  · rw [if_neg h, if_neg (by simpa using h), Nat.add_zero]

/-- A value extended by its sign and by zeros is the same register, except for the registers that
one of the two extensions gives for a value with bit 31 set. -/
theorem forall_extend_iff (reg : BitVec 64) :
    (∀ m : BitVec 32, m.signExtend 64 = reg ↔ m.setWidth 64 = reg) ↔
      ¬ (2 ^ 31 ≤ reg.toNat ∧ reg.toNat < 2 ^ 32) ∧ ¬ 2 ^ 64 - 2 ^ 31 ≤ reg.toNat := by
  have hzero (m : BitVec 32) : (m.setWidth 64).toNat = m.toNat := by
    have hm := m.isLt
    rw [BitVec.toNat_setWidth, Nat.mod_eq_of_lt (by omega)]
  have hlow : (reg.setWidth 32).toNat = reg.toNat % 2 ^ 32 := BitVec.toNat_setWidth ..
  have hreg := reg.isLt
  constructor
  · intro h
    have hiff := h (reg.setWidth 32)
    have hsign := toNat_signExtend32 (reg.setWidth 32)
    have hext := hzero (reg.setWidth 32)
    rw [BitVec.toNat_eq, BitVec.toNat_eq] at hiff
    constructor
    · rintro ⟨hlo, hhi⟩
      rw [if_pos (by omega)] at hsign
      omega
    · intro hhi
      rw [if_pos (by omega)] at hsign
      omega
  · rintro ⟨hmid, hhigh⟩ m
    have hm := m.isLt
    have hsign := toNat_signExtend32 m
    have hext := hzero m
    rw [BitVec.toNat_eq, BitVec.toNat_eq]
    split_ifs at hsign <;> omega

/-- An `old` of at most the width of the object: the branch compares with one value only. -/
theorem forall_narrow_iff (h32 : 32 ≤ obj.bits) (h64 : obj.bits ≤ 64)
    (hle : old.type.bits ≤ obj.bits) :
    (∀ m : BitVec obj.bits, m.signExtend 64 = old.reg ↔ succeeds obj old m = true) ↔
      old.reg = (obj.convert old.val).signExtend 64 := by
  have hsucc : ∀ m : BitVec obj.bits, succeeds obj old m = true ↔ m = obj.convert old.val :=
    fun m => IntType.ceq_iff_of_le h32 hle m _
  constructor
  · intro h
    exact ((h _).mpr ((hsucc _).mpr rfl)).symm
  · intro h m
    rw [hsucc, h]
    constructor
    · intro heq
      rw [← setWidth_signExtend h64 m, heq, setWidth_signExtend h64]
    · intro heq
      rw [heq]

/-- An `old` that is wider than the object. -/
theorem forall_wide_iff (hobj : obj.bits = 32) (hlt : obj.bits < old.type.bits) :
    (∀ m : BitVec obj.bits, m.signExtend 64 = old.reg ↔ succeeds obj old m = true) ↔
      (obj.signed = false → ¬ (2 ^ 31 ≤ old.reg.toNat ∧ old.reg.toNat < 2 ^ 32) ∧
        ¬ 2 ^ 64 - 2 ^ 31 ≤ old.reg.toNat) := by
  obtain ⟨⟨oldWidth, oldSigned⟩, reg⟩ := old
  obtain ⟨objWidth, objSigned⟩ := obj
  have hold : oldWidth = .w64 := by
    rw [hobj] at hlt
    change 32 < oldWidth.bits at hlt
    cases oldWidth with
    | w64 => rfl
    | w8 | w16 | w32 => exact absurd hlt (by decide)
  subst hold
  have hsucc : ∀ m : BitVec (IntType.bits ⟨objWidth, objSigned⟩),
      (succeeds ⟨objWidth, objSigned⟩ ⟨⟨.w64, oldSigned⟩, reg⟩ m = true ↔
        (if objSigned then m.signExtend 64 else m.setWidth 64) = reg) := by
    intro m
    have h64 : 32 ≤ IntType.bits ⟨.w64, oldSigned⟩ := show 32 ≤ 64 by decide
    refine (IntType.ceq_iff_of_lt h64 hlt m _).trans ?_
    rw [show (BitVec.setWidth (IntType.bits ⟨.w64, oldSigned⟩) reg : BitVec 64) = reg from
      BitVec.setWidth_eq _]
    rfl
  simp only [hsucc]
  cases objSigned with
  | true => simp
  | false =>
    have hwidth : objWidth = .w32 := by
      change objWidth.bits = 32 at hobj
      cases objWidth with
      | w32 => rfl
      | w8 | w16 | w64 => exact absurd hobj (by decide)
    subst hwidth
    rw [forall_prop_of_true (show false = false from rfl)]
    exact forall_extend_iff reg

/-- The condition on each content of the object, as one on the registers. -/
theorem forall_iff_fits (hobj : obj.bits = 32 ∨ obj.bits = 64) :
    (∀ m : BitVec obj.bits, (m.signExtend 64 = old.reg ↔ succeeds obj old m = true) ∧
        (m.signExtend 64 = old.reg → new.reg.setWidth obj.bits = obj.convert new.val)) ↔
      Fits obj old new := by
  have hnew : (∀ m : BitVec obj.bits, m.signExtend 64 = old.reg →
      new.reg.setWidth obj.bits = obj.convert new.val) ↔
        ((∃ m : BitVec obj.bits, m.signExtend 64 = old.reg) →
          new.reg.setWidth obj.bits = obj.convert new.val) :=
    ⟨fun h ⟨m, hm⟩ => h m hm, fun h m hm => h ⟨m, hm⟩⟩
  rw [forall_and, hnew]
  by_cases hle : old.type.bits ≤ obj.bits
  · rw [forall_narrow_iff (by omega) (by omega) hle]
    exact ⟨fun h => ⟨fun _ => h.1, fun hlt => absurd hle (Nat.not_le.mpr hlt), h.2⟩,
      fun h => ⟨h.narrow hle, h.new⟩⟩
  · have hlt : obj.bits < old.type.bits := Nat.not_le.mp hle
    have h32 : obj.bits = 32 := by
      have h64 := old.type.bits_le
      omega
    rw [forall_wide_iff h32 hlt]
    exact ⟨fun h => ⟨fun h' => absurd h' hle, fun _ => h.1, h.2⟩, fun h => ⟨h.wide hlt, h.new⟩⟩

end Comparisons

/-- **The report of `cmpxchg` is reliable iff the registers of its operands fit the object**, for
all types of the object and the operands. -/
theorem cmpxchg_reliable_iff (obj : IntType) (old new : Operand) (code : List (Instr 64))
    (hcode : cmpxchg obj.size old.reg new.reg = some code) :
    Reliable obj old new code ↔ Fits obj old new := by
  obtain ⟨hobj, rfl⟩ := cmpxchg_eq obj hcode
  rw [reliable_iff_forall (by omega), forall_iff_fits hobj]

/-- `unsigned int` and `unsigned long`. -/
def uint : IntType := ⟨.w32, false⟩
def ulong : IntType := ⟨.w64, false⟩

/-- `atomic_cmpxchg` is reliable when its operands are extended as an `int` is in a register. -/
theorem atomicCmpxchg_reliable (old new : BitVec 64) (code : List (Instr 64))
    (hold : (old.setWidth 32).signExtend 64 = old)
    (hcode : atomicCmpxchg old new = some code) :
    Reliable ⟨.w32, true⟩ ⟨⟨.w32, true⟩, old⟩ ⟨⟨.w32, true⟩, new⟩ code := by
  have hval (v : BitVec (IntType.bits ⟨.w32, true⟩)) :
      IntType.convert ⟨.w32, true⟩ (IntType.val ⟨.w32, true⟩ v) = v := IntType.convert_val_self v
  obtain ⟨hobj, rfl⟩ := cmpxchg_eq ⟨.w32, true⟩ hcode
  rw [reliable_iff_forall (by decide), forall_iff_fits hobj]
  refine ⟨fun _ => ?_, fun h => absurd h (lt_irrefl _), fun _ => (hval _).symm⟩
  exact hold.symm.trans (congrArg (BitVec.signExtend 64) (hval _).symm)

/-- A counter of 32 bits with small values of its own type. -/
theorem cmpxchg_reliable_uint :
    Reliable uint ⟨uint, 1⟩ ⟨uint, 2⟩ (loop 32 [.bne 1] 32 (some 2)) :=
  (cmpxchg_reliable_iff uint ⟨uint, 1⟩ ⟨uint, 2⟩ _ rfl).mpr
    ⟨fun _ => by decide, fun h => absurd h (by decide), fun _ => by decide⟩

/-- **A success is reported without a store**: the object and `old` are both `0x80000000`, but `old`
is an `unsigned long`. -/
theorem not_reliable_ulong :
    ∃ code, cmpxchg uint.size 0x80000000 1 = some code ∧
      ¬ Reliable uint ⟨ulong, 0x80000000⟩ ⟨ulong, 1⟩ code := by
  refine ⟨_, rfl, fun h => ?_⟩
  let first : State uint.bits 64 := start 0x80000000 0 0
  let run := trace (State.step (loop 32 [.bne 0x80000000] 32 (some 1))) first [.instr 0, .instr 0]
  have hreport := h 0x80000000 0 0 run (isRun_trace _ _) (by decide)
  have hsucc :
      succeeds uint ⟨ulong, 0x80000000⟩ ((lastState first run).value.setWidth _) = true := by
    decide
  have hnone : (lastState first run).writes = [] := by decide
  rw [Report, if_pos hsucc, hnone] at hreport
  cases hreport

end LowriscLinux.Kernel
