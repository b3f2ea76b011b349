import LowriscLinux.Kernel.Fstate
import LowriscLinux.Kernel.Signal
import LowriscLinux.Lib.Memory
import LowriscLinux.Mm.MemAccess

/-!
# Emulated atomic operations

Model of the system call `sysriscv` (`arch/riscv/kernel/sys_riscv.c`, lines 27-70) on RV64, and of
the macros `__get_user` and `__put_user` (`arch/riscv/include/asm/uaccess.h`, lines 117-139,
214-236, 266-287 and 357-379) as it uses them.

Both commands use the same pointer to `unsigned int` (line 33), and `err` is an `unsigned int` (line
34) that the conditional expression of the result (lines 50 and 65) converts to `unsigned long`.

## What models what

* `State`: the status of the hart, its preemption count and user memory. `faulted` is bookkeeping.
* `getUser` and `putUser`: the macros, with the access between `__enable_user_access` and
  `__disable_user_access`. A pointer has the size of its object (`Size`), by which they choose the
  instruction. A load that faults gives 0 and `-EFAULT`, as the fixup does.
* `preemptDisable` and `preemptEnable`: of the generic kernel, as far as the count goes.
* `rawLocalIrqSave` and `rawLocalIrqRestore`: `arch/riscv/include/asm/irqflags.h`, lines 26-29 and
  44-47.
* `exchange`: a case of the switch behind its `access_ok` (lines 42-50 and 57-65), which is the same
  text twice. `sysriscv` has the two checks, which differ in their size.

`Faults` says which bytes of user memory fault (`Mm/UserAccess.lean`). In the critical section
interrupts are off and preemption is disabled, so nothing else runs on the hart in between; other
harts do not write the word, as on the machines without atomic instructions for which the call is.

Results:
* `accesses_load_fault`, `accesses_ne`, `accesses_store_fault`, `accesses_store`: the four ways
  through the critical section.
* `exchange_restored`: interrupts and preemption are as they were.
* **`sysriscv_exact_iff`**: without a fault each command is a compare-and-swap of its word iff the
  arguments and the word are values that 32 bits hold.
* **`sysriscv_reports_iff`**: faults are reported as errors iff no access faults.

Out of scope: the check for a pending reschedule of `preempt_enable`.
-/

namespace LowriscLinux.Kernel.SysRiscv

open Lib Mm
open Fp (csrs csrc)

/-- `sizeof(*ptr)`. -/
inductive Size
  | b
  | h
  | w
  | d
  deriving DecidableEq, Repr

def Size.bytes : Size → Nat
  | b => 1
  | h => 2
  | w => 4
  | d => 8

/-- The hart in the kernel and user memory. -/
structure State where
  sstatus : Word .rv64
  preemptCount : BitVec 32
  mem : Memory (8 * szreg .rv64)
  /-- An access to user memory has faulted. -/
  faulted : Bool

/-! ## User accesses -/

section Accesses

variable (f : Faults .rv64)

/-- `__get_user(x, ptr)`, for an `unsigned long x`: the error and `x`. The load extends the sign. -/
def getUser (size : Size) (ptr : Word .rv64) (s : State) : BitVec 32 × Word .rv64 × State :=
  let s := { s with sstatus := csrc s.sstatus srPum }
  let (err, x, s) :=
    if faultsAt f.load ptr size.bytes then (-14, 0, { s with faulted := true })
    else (0, (loadWord size.bytes s.mem ptr).signExtend _, s)
  (err, x, { s with sstatus := csrs s.sstatus srPum })

/-- `__put_user(x, ptr)`, for an `unsigned long x`: the error. -/
def putUser (size : Size) (x ptr : Word .rv64) (s : State) : BitVec 32 × State :=
  let s := { s with sstatus := csrc s.sstatus srPum }
  let (err, s) :=
    if faultsAt f.store ptr size.bytes then (-14, { s with faulted := true })
    else (0, { s with mem := storeWord s.mem ptr (x.setWidth (8 * size.bytes)) })
  (err, { s with sstatus := csrs s.sstatus srPum })

end Accesses

/-! ## The system call -/

def preemptDisable (s : State) : State := { s with preemptCount := s.preemptCount + 1 }

def preemptEnable (s : State) : State := { s with preemptCount := s.preemptCount - 1 }

/-- `raw_local_irq_save`: the flags. -/
def rawLocalIrqSave (s : State) : Word .rv64 × State :=
  (s.sstatus, { s with sstatus := csrc s.sstatus srIe })

/-- `raw_local_irq_restore`. -/
def rawLocalIrqRestore (flags : Word .rv64) (s : State) : State :=
  { s with sstatus := csrs s.sstatus (flags &&& srIe) }

/-- A case of `sysriscv` behind its `access_ok`, for a pointer to an object of a size. -/
def exchange (f : Faults .rv64) (size : Size) (ptr old new : Word .rv64) (s : State) :
    Word .rv64 × State :=
  let s := preemptDisable s
  let (flags, s) := rawLocalIrqSave s
  let (err, prev, s) := getUser f size ptr s
  let (err, s) := if err = 0 ∧ prev = old then putUser f size new ptr s else (err, s)
  let s := rawLocalIrqRestore flags s
  let s := preemptEnable s
  (if err ≠ 0 then err.setWidth _ else prev, s)

/-- `RISCV_ATOMIC_CMPXCHG`. -/
def riscvAtomicCmpxchg : Word .rv64 := 1

/-- `RISCV_ATOMIC_CMPXCHG64`. -/
def riscvAtomicCmpxchg64 : Word .rv64 := 2

/-- `sysriscv`. Its pointer is one to `unsigned int` in both cases. -/
def sysriscv (f : Faults .rv64) (fs cmd arg1 arg2 arg3 : Word .rv64) (s : State) :
    Word .rv64 × State :=
  if cmd = riscvAtomicCmpxchg then
    if !accessOk fs arg1 4 then (errno 14, s) else exchange f .w arg1 arg2 arg3 s
  else if cmd = riscvAtomicCmpxchg64 then
    if !accessOk fs arg1 8 then (errno 14, s) else exchange f .w arg1 arg2 arg3 s
  else (errno 22, s)

/-! ## What the commands should do -/

/-- A compare-and-swap of a word of `k` bytes, on the low parts of the arguments: the word is
returned, and replaced if it is the old one. -/
def Swaps (k : Nat) (ptr old new : Word .rv64) (s : State) (r : Word .rv64 × State) : Prop :=
  let word := loadWord k s.mem ptr
  r.1.setWidth (8 * k) = word ∧
    (old.setWidth (8 * k) = word → r.2.mem = storeWord s.mem ptr (new.setWidth (8 * k))) ∧
    (old.setWidth (8 * k) ≠ word → r.2.mem = s.mem)

/-- No byte of a word can fault, and it is in the reach of the task. -/
structure Resident (f : Faults .rv64) (fs ptr : Word .rv64) (k : Nat) : Prop where
  ok : accessOk fs ptr (BitVec.ofNat _ k) = true
  load : faultsAt f.load ptr k = false
  store : faultsAt f.store ptr k = false

/-- A value that 32 bits and their sign hold. -/
def Extended (v : Word .rv64) : Prop := (v.setWidth 32).signExtend _ = v

instance : DecidablePred Extended := fun v =>
  inferInstanceAs (Decidable ((v.setWidth 32).signExtend _ = v))

/-- The state of interrupts and preemption. -/
def Restored (s s' : State) : Prop :=
  s'.sstatus &&& srIe = s.sstatus &&& srIe ∧ s'.preemptCount = s.preemptCount

/-- An access that was refused or faulted is reported as `-EFAULT`, with memory unchanged, and
interrupts and preemption are restored. -/
structure Reports (refused : Prop) (s : State) (r : Word .rv64 × State) : Prop where
  error : refused ∨ r.2.faulted = true → r.1 = errno 14 ∧ r.2.mem = s.mem
  restored : Restored s r.2

/-! ## The critical section -/

section Exchange

variable {f : Faults .rv64} {size : Size} {ptr old new : Word .rv64} {s : State}

theorem and_srIe_eq_iff {w : Xlen} (u v : Word w) :
    u &&& srIe = v &&& srIe ↔ u.getLsbD 1 = v.getLsbD 1 := by
  constructor
  · intro h
    have hbit := congrArg (fun x => BitVec.getLsbD x 1) h
    simpa [getLsbD_srIe] using hbit
  · intro h
    rw [srIe_eq, BitVec.and_twoPow, BitVec.and_twoPow, h]

theorem getLsbD_csrs {w : Xlen} (v bits : Word w) :
    (csrs v bits).getLsbD 1 = (v.getLsbD 1 || bits.getLsbD 1) := by
  rw [csrs, getLsbD_csrStatus (by decide), BitVec.getLsbD_or]

theorem getLsbD_csrc {w : Xlen} (v bits : Word w) :
    (csrc v bits).getLsbD 1 = (v.getLsbD 1 && !bits.getLsbD 1) := by
  have hin := @lt_of_getLsbD _ 1 v
  have h32 := le_xlen w
  rw [csrc, getLsbD_csrStatus (by decide), BitVec.getLsbD_and, BitVec.getLsbD_not,
    decide_eq_true (by omega), Bool.true_and]

/-- The interrupt enable and the preemption count are kept. -/
def Kept (s s' : State) : Prop :=
  s'.sstatus.getLsbD 1 = s.sstatus.getLsbD 1 ∧ s'.preemptCount = s.preemptCount

/-- The access windows leave the interrupt enable alone. -/
theorem getLsbD_window {w : Xlen} (v : Word w) :
    (csrs (csrc v srPum) srPum).getLsbD 1 = v.getLsbD 1 := by
  have hpum : (srPum : Word w).getLsbD 1 = false := by cases w <;> rfl
  rw [getLsbD_csrs, getLsbD_csrc, hpum, Bool.not_false, Bool.and_true, Bool.or_false]

theorem getUser_kept (f : Faults .rv64) (size : Size) (ptr : Word .rv64) (s : State) :
    Kept s (getUser f size ptr s).2.2 := by
  unfold getUser
  split_ifs
  · exact ⟨getLsbD_window _, rfl⟩
  · exact ⟨getLsbD_window _, rfl⟩

theorem putUser_kept (f : Faults .rv64) (size : Size) (x ptr : Word .rv64) (s : State) :
    Kept s (putUser f size x ptr s).2 := by
  unfold putUser
  split_ifs
  · exact ⟨getLsbD_window _, rfl⟩
  · exact ⟨getLsbD_window _, rfl⟩

/-- The accesses of the critical section: the error, `prev`, and the state behind them. -/
def accesses (f : Faults .rv64) (size : Size) (ptr old new : Word .rv64) (s : State) :
    BitVec 32 × Word .rv64 × State :=
  let g := getUser f size ptr s
  if g.1 = 0 ∧ g.2.1 = old then
    let p := putUser f size new ptr g.2.2
    (p.1, g.2.1, p.2)
  else g

theorem accesses_kept (f : Faults .rv64) (size : Size) (ptr old new : Word .rv64) (s : State) :
    Kept s (accesses f size ptr old new s).2.2 := by
  have hget := getUser_kept f size ptr s
  simp only [accesses]
  split_ifs
  · have hput := putUser_kept f size new ptr (getUser f size ptr s).2.2
    exact ⟨hput.1.trans hget.1, hput.2.trans hget.2⟩
  · exact hget

/-- The critical section around its accesses. -/
theorem exchange_eq :
    exchange f size ptr old new s =
      let a := accesses f size ptr old new (rawLocalIrqSave (preemptDisable s)).2
      (if a.1 ≠ 0 then a.1.setWidth _ else a.2.1,
        preemptEnable (rawLocalIrqRestore s.sstatus a.2.2)) := by
  simp only [exchange, accesses]
  split_ifs <;> rfl

/-- **Interrupts and preemption are as they were**, on every way. -/
theorem exchange_restored : Restored s (exchange f size ptr old new s).2 := by
  obtain ⟨hbit, hcount⟩ := accesses_kept f size ptr old new (rawLocalIrqSave (preemptDisable s)).2
  rw [exchange_eq]
  constructor
  · have hsave : (rawLocalIrqSave (preemptDisable s)).2.sstatus.getLsbD 1 = false := by
      refine (getLsbD_csrc _ _).trans ?_
      simp [getLsbD_srIe]
    have hflags : (s.sstatus &&& srIe).getLsbD 1 = s.sstatus.getLsbD 1 := by
      simp [BitVec.getLsbD_and, getLsbD_srIe]
    rw [and_srIe_eq_iff]
    refine (getLsbD_csrs _ _).trans ?_
    rw [hbit, hsave, hflags, Bool.false_or]
  · refine (congrArg (· - 1) hcount).trans ?_
    exact BitVec.add_sub_cancel _ _

/-- What the accesses return with, and what they leave of memory. -/
structure Leaves (a : BitVec 32 × Word .rv64 × State) (err : BitVec 32) (prev : Word .rv64)
    (mem : Memory (8 * szreg .rv64)) (faulted : Bool) : Prop where
  err : a.1 = err
  prev : a.2.1 = prev
  mem : a.2.2.mem = mem
  faulted : a.2.2.faulted = faulted

/-- What the load leaves in `prev`. -/
def prevOf (size : Size) (mem : Memory (8 * szreg .rv64)) (ptr : Word .rv64) : Word .rv64 :=
  (loadWord size.bytes mem ptr).signExtend _

theorem accesses_load_fault (old new : Word .rv64) (s : State)
    (h : faultsAt f.load ptr size.bytes = true) :
    Leaves (accesses f size ptr old new s) (-14) 0 s.mem true := by
  constructor <;> simp [accesses, getUser, h]

theorem accesses_ne (new : Word .rv64) (s : State) (h : faultsAt f.load ptr size.bytes = false)
    (hne : prevOf size s.mem ptr ≠ old) :
    Leaves (accesses f size ptr old new s) 0 (prevOf size s.mem ptr) s.mem s.faulted := by
  unfold prevOf at *
  constructor <;> simp [accesses, getUser, h, hne]

theorem accesses_store_fault (new : Word .rv64) (s : State)
    (h : faultsAt f.load ptr size.bytes = false) (heq : prevOf size s.mem ptr = old)
    (hstore : faultsAt f.store ptr size.bytes = true) :
    Leaves (accesses f size ptr old new s) (-14) (prevOf size s.mem ptr) s.mem true := by
  unfold prevOf at *
  constructor <;> simp [accesses, getUser, putUser, h, heq, hstore]

theorem accesses_store (new : Word .rv64) (s : State)
    (h : faultsAt f.load ptr size.bytes = false) (heq : prevOf size s.mem ptr = old)
    (hstore : faultsAt f.store ptr size.bytes = false) :
    Leaves (accesses f size ptr old new s) 0 (prevOf size s.mem ptr)
      (storeWord s.mem ptr (new.setWidth (8 * size.bytes))) s.faulted := by
  unfold prevOf at *
  constructor <;> simp [accesses, getUser, putUser, h, heq, hstore]

end Exchange

/-! ## The commands -/

section Commands

variable {f : Faults .rv64} {fs ptr old new : Word .rv64} {s : State} {k : Nat}

/-- The range of a resident word. -/
theorem Resident.fit (h : Resident f fs ptr k) (hk : k ≤ 8) :
    ptr.toNat + k ≤ 2 ^ (8 * szreg .rv64) := by
  have hfit := accessOk_fit h.ok
  have hfs := fs.isLt
  have hsize : (BitVec.ofNat (8 * szreg .rv64) k).toNat = k := by
    rw [BitVec.toNat_ofNat]
    exact Nat.mod_eq_of_lt (Nat.lt_of_le_of_lt hk (by decide))
  omega

/-- A part of a range that does not fault does not fault. -/
theorem faultsAt_le {g : Word .rv64 → Bool} {j : Nat} (hj : j ≤ k) (h : faultsAt g ptr k = false) :
    faultsAt g ptr j = false := by
  rw [← Bool.not_eq_true, faultsAt_iff] at *
  rintro ⟨i, hi, hfault⟩
  exact h ⟨i, by omega, hfault⟩

/-- Without a fault the result is the word that was loaded, and what is stored depends on it. -/
theorem exchange_resident (old new : Word .rv64) (s : State) (h : Resident f fs ptr k)
    (hk : 4 ≤ k) :
    (exchange f .w ptr old new s).1 = prevOf .w s.mem ptr ∧
      (prevOf .w s.mem ptr = old →
        (exchange f .w ptr old new s).2.mem = storeWord s.mem ptr (new.setWidth (8 * 4))) ∧
      (prevOf .w s.mem ptr ≠ old → (exchange f .w ptr old new s).2.mem = s.mem) := by
  have hload := faultsAt_le hk h.load
  have hstore := faultsAt_le hk h.store
  rw [exchange_eq]
  set s₁ := (rawLocalIrqSave (preemptDisable s)).2
  by_cases heq : prevOf .w s.mem ptr = old
  · have hleaves := accesses_store new s₁ hload heq hstore
    refine ⟨?_, fun _ => hleaves.mem, fun hne => absurd heq hne⟩
    dsimp only
    rw [if_neg (by simp [hleaves.err]), hleaves.prev]
    rfl
  · have hleaves := accesses_ne new s₁ hload heq
    refine ⟨?_, fun heq' => absurd heq' heq, fun _ => hleaves.mem⟩
    dsimp only
    rw [if_neg (by simp [hleaves.err]), hleaves.prev]
    rfl

theorem setWidth_prevOf (mem : Memory (8 * szreg .rv64)) (ptr : Word .rv64) :
    (prevOf .w mem ptr).setWidth (8 * 4) = loadWord 4 mem ptr :=
  setWidth_signExtend (by decide) _

/-- **The command of 64 bits** is right iff the word is one that 32 bits hold and is not replaced by
one with another upper half. -/
theorem swaps_double_iff (h : Resident f fs ptr 8) :
    Swaps 8 ptr old new s (exchange f .w ptr old new s) ↔
      Extended (loadWord 8 s.mem ptr) ∧
        (old = loadWord 8 s.mem ptr → new >>> 32 = loadWord 8 s.mem ptr >>> 32) := by
  obtain ⟨hret, hstore, hkeep⟩ := exchange_resident old new s h (by decide)
  have hprev : prevOf .w s.mem ptr = ((loadWord 8 s.mem ptr).setWidth 32).signExtend 64 :=
    congrArg (BitVec.signExtend 64) (setWidth_loadWord (show 4 ≤ 8 by decide) s.mem ptr).symm
  have hsame (v : Word .rv64) : BitVec.setWidth (8 * 8) v = v := BitVec.setWidth_eq _
  have hhalf : storeWord s.mem ptr (new.setWidth (8 * 4)) = storeWord s.mem ptr new ↔
      new >>> 32 = loadWord 8 s.mem ptr >>> 32 :=
    storeWord_setWidth_iff (show 4 ≤ 8 by decide) (h.fit le_rfl) new
  have hext : Extended (loadWord 8 s.mem ptr) ↔ prevOf .w s.mem ptr = loadWord 8 s.mem ptr := by
    rw [hprev]
    exact Iff.rfl
  simp only [Swaps, hsame, hret, hext]
  refine and_congr_right fun hword => ?_
  by_cases heq : old = loadWord 8 s.mem ptr
  · have hmem := hstore (hword.trans heq.symm)
    rw [hmem]
    simp only [heq, ne_eq, not_true_eq_false, false_implies, and_true, true_implies]
    exact hhalf.trans ⟨fun hupper _ => hupper, fun hupper => hupper rfl⟩
  · have hmem := hkeep fun hold => heq (hold.symm.trans hword)
    exact iff_of_true ⟨fun h => absurd h heq, fun _ => hmem⟩ fun h => absurd h heq

/-- **The command of 32 bits** is right iff `old` is extended by its sign, or is not the word, or
the word is replaced by itself. -/
theorem swaps_word_iff (h : Resident f fs ptr 4) :
    Swaps 4 ptr old new s (exchange f .w ptr old new s) ↔
      Extended old ∨ old.setWidth (8 * 4) ≠ loadWord 4 s.mem ptr ∨
        new.setWidth (8 * 4) = loadWord 4 s.mem ptr := by
  obtain ⟨hret, hstore, hkeep⟩ := exchange_resident old new s h le_rfl
  have hself : storeWord s.mem ptr (new.setWidth (8 * 4)) = s.mem ↔
      new.setWidth (8 * 4) = loadWord 4 s.mem ptr := storeWord_eq_self_iff (h.fit (by decide)) _
  have hlow := setWidth_prevOf s.mem ptr
  simp only [Swaps, hret, hlow, true_and]
  by_cases heq : prevOf .w s.mem ptr = old
  · have hold : old.setWidth (8 * 4) = loadWord 4 s.mem ptr := by rw [← heq, hlow]
    have hext : Extended old :=
      (congrArg (BitVec.signExtend 64) hold).trans heq
    exact iff_of_true ⟨fun _ => hstore heq, fun hne => absurd hold hne⟩ (Or.inl hext)
  · rw [hkeep heq]
    by_cases hold : old.setWidth (8 * 4) = loadWord 4 s.mem ptr
    · have hext : ¬ Extended old := fun hext =>
        heq ((congrArg (BitVec.signExtend 64) hold).symm.trans hext)
      constructor
      · rintro ⟨hmem, -⟩
        exact Or.inr (Or.inr (hself.mp (hmem hold).symm))
      · intro hcond
        have hnew := (hcond.resolve_left hext).resolve_left fun hne => hne hold
        exact ⟨fun _ => (hself.mpr hnew).symm, fun hne => absurd hold hne⟩
    · exact iff_of_true ⟨fun h => absurd h hold, fun _ => rfl⟩ (Or.inr (Or.inl hold))

/-- **The critical section** reports its faults iff it has none. -/
theorem exchange_reports_iff {refused : Prop} (hs : s.faulted = false) (href : ¬ refused) :
    Reports refused s (exchange f .w ptr old new s) ↔
      faultsAt f.load ptr 4 = false ∧
        (prevOf .w s.mem ptr = old → faultsAt f.store ptr 4 = false) := by
  set s₁ := (rawLocalIrqSave (preemptDisable s)).2 with hs₁
  have hwrong : ((-14 : BitVec 32).setWidth (8 * szreg .rv64)) ≠ errno 14 := by decide
  -- A fault becomes an error of 32 bits that is extended by zeros.
  have hbad {prev mem} (hleaves : Leaves (accesses f .w ptr old new s₁) (-14) prev mem true) :
      ¬ Reports refused s (exchange f .w ptr old new s) := by
    intro hreports
    rw [exchange_eq, ← hs₁] at hreports
    have herror := (hreports.error (Or.inr hleaves.faulted)).1
    dsimp only at herror
    rw [if_pos (by rw [hleaves.err]; decide), hleaves.err] at herror
    exact hwrong herror
  have hgood (hfaulted : (accesses f .w ptr old new s₁).2.2.faulted = false) :
      Reports refused s (exchange f .w ptr old new s) := by
    refine ⟨fun hor => ?_, exchange_restored⟩
    rw [exchange_eq, ← hs₁] at hor
    rcases hor with href' | hfault
    · exact absurd href' href
    · exact absurd (hfaulted.symm.trans hfault) (by decide)
  cases hload : faultsAt f.load ptr 4 with
  | true => exact iff_of_false (hbad (accesses_load_fault old new s₁ hload)) (by simp)
  | false =>
    by_cases heq : prevOf .w s.mem ptr = old
    · cases hstore : faultsAt f.store ptr 4 with
      | true =>
        exact iff_of_false (hbad (accesses_store_fault new s₁ hload heq hstore)) (by simp [heq])
      | false =>
        have hleaves := accesses_store new s₁ hload heq hstore
        exact iff_of_true (hgood (hleaves.faulted.trans hs)) (by simp)
    · have hleaves := accesses_ne new s₁ hload heq
      exact iff_of_true (hgood (hleaves.faulted.trans hs)) (by simp [heq])

/-- A pointer that is refused is reported right. -/
theorem refused_reports (refused : Prop) : Reports refused s (errno 14, s) :=
  ⟨fun _ => ⟨rfl, rfl⟩, rfl, rfl⟩

end Commands

/-- **The commands are compare-and-swaps iff 32 bits hold what they work on**: the one of 64 bits
iff the word at the pointer is the sign extension of its lower half and is not to be replaced by
one with another upper half, the one of 32 bits iff `old` is the sign extension of its lower half,
or its lower half is not the word, or the word is to be replaced by itself. -/
theorem sysriscv_exact_iff (f : Faults .rv64) (fs ptr old new : Word .rv64) (s : State) :
    (Resident f fs ptr 8 →
      (Swaps 8 ptr old new s (sysriscv f fs riscvAtomicCmpxchg64 ptr old new s) ↔
        Extended (loadWord 8 s.mem ptr) ∧
          (old = loadWord 8 s.mem ptr → new >>> 32 = loadWord 8 s.mem ptr >>> 32))) ∧
      (Resident f fs ptr 4 →
        (Swaps 4 ptr old new s (sysriscv f fs riscvAtomicCmpxchg ptr old new s) ↔
          Extended old ∨ old.setWidth (8 * 4) ≠ loadWord 4 s.mem ptr ∨
            new.setWidth (8 * 4) = loadWord 4 s.mem ptr)) := by
  constructor
  · intro h
    have hok : accessOk fs ptr 8 = true := h.ok
    have hcmd : riscvAtomicCmpxchg64 ≠ riscvAtomicCmpxchg := by decide
    rw [sysriscv, if_neg hcmd, if_pos rfl, if_neg (by rw [hok]; decide)]
    exact swaps_double_iff h
  · intro h
    have hok : accessOk fs ptr 4 = true := h.ok
    rw [sysriscv, if_pos rfl, if_neg (by rw [hok]; decide)]
    exact swaps_word_iff h

/-- User memory in which no access faults. -/
def calm : Faults .rv64 := ⟨fun _ => false, fun _ => false⟩

/-- A task with one byte of user memory that is not 0, in the upper half of the word at `0x1000` or
at the end of its lower half. -/
def oneByte (addr : Word .rv64) (v : Byte) : State :=
  ⟨srIe, 0, fun a => if a = addr then v else 0, false⟩

theorem resident_calm {ptr : Word .rv64} {k : Nat}
    (h : accessOk 0x4000000000 ptr (BitVec.ofNat _ k) = true) :
    Resident calm 0x4000000000 ptr k := by
  have hno : ∀ ptr, faultsAt (fun _ : Word .rv64 => false) ptr k = false := by
    intro ptr
    rw [← Bool.not_eq_true, faultsAt_iff]
    rintro ⟨i, -, hi⟩
    cases hi
  exact ⟨h, hno ptr, hno ptr⟩

/-- A counter of 0 is set to 5 by both commands. -/
theorem sysriscv_exact_zero :
    let s := oneByte 0 0
    Swaps 8 0x1000 0 5 s (sysriscv calm 0x4000000000 riscvAtomicCmpxchg64 0x1000 0 5 s) ∧
      Swaps 4 0x1000 0 5 s (sysriscv calm 0x4000000000 riscvAtomicCmpxchg 0x1000 0 5 s) := by
  have hexact := sysriscv_exact_iff calm 0x4000000000 0x1000 0 5 (oneByte 0 0)
  have hload : loadWord 8 (oneByte 0 0).mem 0x1000 = 0 := by decide
  have hext : Extended (loadWord 8 (oneByte 0 0).mem 0x1000) := by
    rw [hload]
    exact (by decide : Extended 0)
  exact ⟨(hexact.1 (resident_calm (by decide))).mpr ⟨hext, fun _ => rfl⟩,
    (hexact.2 (resident_calm (by decide))).mpr (.inl (by decide))⟩

/-- **A word of 2^32 is taken for 0**, and a word of 2^31 is not found by a caller that passes it
without its sign. -/
theorem not_swaps_upper :
    ¬ Swaps 8 0x1000 0 5 (oneByte 0x1004 1)
        (sysriscv calm 0x4000000000 riscvAtomicCmpxchg64 0x1000 0 5 (oneByte 0x1004 1)) ∧
      ¬ Swaps 4 0x1000 0x80000000 5 (oneByte 0x1003 0x80)
        (sysriscv calm 0x4000000000 riscvAtomicCmpxchg 0x1000 0x80000000 5
          (oneByte 0x1003 0x80)) := by
  constructor
  · intro h
    have hword := ((swaps_double_iff (resident_calm (by decide))).mp h).1
    have hload : loadWord 8 (oneByte 0x1004 1).mem 0x1000 = 0x100000000 := by decide
    rw [hload] at hword
    exact (by decide : ¬ Extended 0x100000000) hword
  · intro h
    have hcond := (swaps_word_iff (resident_calm (by decide))).mp h
    exact absurd hcond (by decide)

/-- **Faults are reported as errors iff no access faults**: iff the pointer is refused, or neither
the load faults nor the store, which is only made when the loaded word is `old`. -/
theorem sysriscv_reports_iff (f : Faults .rv64) (fs ptr old new : Word .rv64) (s : State)
    (hs : s.faulted = false) :
    (Reports (accessOk fs ptr 4 = false) s (sysriscv f fs riscvAtomicCmpxchg ptr old new s) ↔
      accessOk fs ptr 4 = false ∨ faultsAt f.load ptr 4 = false ∧
        (prevOf .w s.mem ptr = old → faultsAt f.store ptr 4 = false)) ∧
      (Reports (accessOk fs ptr 8 = false) s (sysriscv f fs riscvAtomicCmpxchg64 ptr old new s) ↔
        accessOk fs ptr 8 = false ∨ faultsAt f.load ptr 4 = false ∧
          (prevOf .w s.mem ptr = old → faultsAt f.store ptr 4 = false)) := by
  have hcmd : riscvAtomicCmpxchg64 ≠ riscvAtomicCmpxchg := by decide
  have hfour : sysriscv f fs riscvAtomicCmpxchg ptr old new s =
      if !accessOk fs ptr 4 then (errno 14, s) else exchange f .w ptr old new s := if_pos rfl
  have height : sysriscv f fs riscvAtomicCmpxchg64 ptr old new s =
      if !accessOk fs ptr 8 then (errno 14, s) else exchange f .w ptr old new s := by
    rw [sysriscv, if_neg hcmd, if_pos rfl]
  have hboth (size : Word .rv64) : Reports (accessOk fs ptr size = false) s
      (if !accessOk fs ptr size then (errno 14, s) else exchange f .w ptr old new s) ↔
        accessOk fs ptr size = false ∨ faultsAt f.load ptr 4 = false ∧
          (prevOf .w s.mem ptr = old → faultsAt f.store ptr 4 = false) := by
    cases hok : accessOk fs ptr size with
    | false => exact iff_of_true (refused_reports _) (Or.inl rfl)
    | true => exact (exchange_reports_iff hs (by simp)).trans (by simp)
  rw [hfour, height]
  exact ⟨hboth 4, hboth 8⟩

/-- No access faults in calm memory. -/
theorem sysriscv_reports_calm :
    Reports (accessOk (0x4000000000 : Word .rv64) 0x1000 4 = false) (oneByte 0 0)
      (sysriscv calm 0x4000000000 riscvAtomicCmpxchg 0x1000 0 5 (oneByte 0 0)) :=
  (sysriscv_reports_iff calm 0x4000000000 0x1000 0 5 (oneByte 0 0) rfl).1.mpr
    (.inr ⟨by decide, fun _ => by decide⟩)

/-- **A fault of the load is reported as `0xfffffff2`.** -/
theorem not_reports_load :
    (sysriscv ⟨fun _ => true, fun _ => true⟩ 0x4000000000 riscvAtomicCmpxchg 0x1000 0 5
        (oneByte 0 0)).1 = 0xfffffff2 ∧
      ¬ Reports (accessOk (0x4000000000 : Word .rv64) 0x1000 4 = false) (oneByte 0 0)
        (sysriscv ⟨fun _ => true, fun _ => true⟩ 0x4000000000 riscvAtomicCmpxchg 0x1000 0 5
          (oneByte 0 0)) := by
  refine ⟨by decide, fun h => ?_⟩
  exact absurd (h.error (.inr (by decide))).1 (by decide)

end LowriscLinux.Kernel.SysRiscv
