import LowriscLinux.Kernel.Status
import LowriscLinux.Lib.Memory

/-!
# The machine below the trap code

The registers, the status registers and the memory that `arch/riscv/kernel/entry.S` works on, and
its instructions.

## What models what

* `Machine`: the registers and status registers of a hart (`Cpu`), memory as bytes, and the
  `task_struct`s. The frame of a trap is a `struct pt_regs` in that memory (`frameAt`).
* `TaskStruct`: what the code uses of a `task_struct`: `stack` (`TASK_THREAD_INFO`) and the integer
  registers of `thread` (`THREAD_RA` to `THREAD_S11`; `asm/processor.h`, lines 31-35). It is found
  by its address, and is no part of the memory of bytes.
* `Instr`: the instructions of `SAVE_ALL`, `RESTORE_ALL`, `handle_exception` and `__switch_to`
  (lines 10-299) but for the jumps. `la` is one instruction here; so is `auipc` with `addi` for `gp`
  (lines 126 and 127).
* `Machine.setCsr`: a write to a status register. `sstatus` has `SR_SD` from its two state fields
  (`csrStatus`), and the other registers keep what is written.

The instructions that move floating-point registers (lines 301-381) are in `Kernel/Fstate.lean`.
Loads and stores of registers do not fault: kernel stacks and `task_struct`s are mapped.

Results:
* `frameAt_get`: the words of a `struct pt_regs` in memory are what `REG_L` loads.
* `frameAt_store`: `REG_S` to a word of it changes that word only.
-/

namespace LowriscLinux.Kernel.Entry

open Lib

variable {w : Xlen}

/-! ## Frames -/

/-- The `struct pt_regs` at an address. -/
def frameAt (mem : Memory (8 * szreg w)) (base : Word w) : PtRegs w :=
  PtRegs.ofBytes fun i => mem (base + BitVec.ofNat _ i)

/-- The structure with one word changed. -/
def setSlot (regs : PtRegs w) (s : Slot) (v : Word w) : PtRegs w :=
  PtRegs.ofSlots (Function.update regs.get s v)

@[simp] theorem setSlot_get (regs : PtRegs w) (s : Slot) (v : Word w) :
    (setSlot regs s v).get = Function.update regs.get s v := PtRegs.get_ofSlots _

section Frames

variable {mem mem' : Memory (8 * szreg w)} {base : Word w}

theorem Slot.index_inj {s s' : Slot} (h : s.index = s'.index) : s = s' :=
  Option.some.inj ((Slot.layout_index s).symm.trans (h ▸ Slot.layout_index s'))

theorem offset_add_le (s : Slot) : s.offset w + szreg w ≤ ptSize w := by
  have h := s.index_lt
  unfold Slot.offset ptSize
  rw [← Nat.mul_succ]
  exact Nat.mul_le_mul_left _ h

/-- Different words do not overlap. -/
theorem offset_apart {s s' : Slot} (h : s ≠ s') :
    s.offset w + szreg w ≤ s'.offset w ∨ s'.offset w + szreg w ≤ s.offset w := by
  have hne : s.index ≠ s'.index := fun heq => h (Slot.index_inj heq)
  unfold Slot.offset
  rw [← Nat.mul_succ, ← Nat.mul_succ]
  rcases Nat.lt_or_gt_of_ne hne with hlt | hlt
  · exact Or.inl (Nat.mul_le_mul_left _ hlt)
  · exact Or.inr (Nat.mul_le_mul_left _ hlt)

theorem frameAt_get (mem : Memory (8 * szreg w)) (base : Word w) (s : Slot) :
    (frameAt mem base).get s = loadWord (szreg w) mem (base + BitVec.ofNat _ (s.offset w)) := by
  rw [frameAt, PtRegs.ofBytes, PtRegs.get_ofSlots, wordsOf, loadWord]
  refine congrArg (ofBytes (szreg w)) (funext fun i => ?_)
  rw [add_ofNat_add]
  rfl

/-- The address of a word, when the structure does not wrap. -/
theorem toNat_slot (hfit : base.toNat + ptSize w < 2 ^ (8 * szreg w)) (s : Slot) :
    (base + BitVec.ofNat _ (s.offset w)).toNat = base.toNat + s.offset w :=
  toNat_add_lt (by have := offset_add_le (w := w) s; omega)

theorem frameAt_congr (hfit : base.toNat + ptSize w < 2 ^ (8 * szreg w))
    (h : Agree mem mem' base.toNat (base.toNat + ptSize w)) :
    frameAt mem' base = frameAt mem base := by
  refine PtRegs.ext_get fun s => ?_
  have hle := offset_add_le (w := w) s
  have hval := toNat_slot hfit s
  rw [frameAt_get, frameAt_get]
  exact loadWord_congr (by omega) (h.mono (by omega) (by omega))

/-- `REG_S` to a word of the structure. -/
theorem frameAt_store (hfit : base.toNat + ptSize w < 2 ^ (8 * szreg w)) (s : Slot) (v : Word w) :
    frameAt (storeWord mem (base + BitVec.ofNat _ (s.offset w)) v) base
      = setSlot (frameAt mem base) s v := by
  refine PtRegs.ext_get fun s' => ?_
  have hle := offset_add_le (w := w) s
  have hle' := offset_add_le (w := w) s'
  have hval := toNat_slot hfit s
  have hval' := toNat_slot hfit s'
  rw [setSlot_get, frameAt_get]
  by_cases hs : s' = s
  · subst hs
    rw [Function.update_self]
    exact loadWord_storeWord (by omega) v
  · rw [Function.update_of_ne hs, frameAt_get]
    refine loadWord_storeWord_apart (by omega) (by omega) v ?_
    have happart := offset_apart (w := w) hs
    omega

theorem agree_frame (hfit : base.toNat + ptSize w < 2 ^ (8 * szreg w)) (s : Slot) (v : Word w)
    {lo hi : Nat} (h : hi ≤ base.toNat ∨ base.toNat + ptSize w ≤ lo) :
    Agree mem (storeWord mem (base + BitVec.ofNat _ (s.offset w)) v) lo hi := by
  have hle := offset_add_le (w := w) s
  have hval := toNat_slot hfit s
  exact agree_storeWord (by omega) v (by omega)

end Frames

/-! ## The machine -/

inductive Csr
  | sstatus
  | sepc
  | sbadaddr
  | scause
  | sscratch
  deriving DecidableEq, Repr

structure Cpu (w : Xlen) where
  x : Reg → Word w
  csr : Csr → Word w

/-- What the code uses of a `task_struct`. -/
structure TaskStruct (w : Xlen) where
  stack : Word w
  ra : Word w
  sp : Word w
  s : Fin 12 → Word w

structure Machine (w : Xlen) where
  cpu : Cpu w
  mem : Memory (8 * szreg w)
  task : Word w → TaskStruct w

namespace Machine

variable (m : Machine w)

def x (r : Reg) : Word w := m.cpu.x r

def csr (c : Csr) : Word w := m.cpu.csr c

def setX (r : Reg) (v : Word w) : Machine w :=
  { m with cpu := { m.cpu with x := Function.update m.cpu.x r v } }

/-- A write to a status register. In `sstatus`, `SR_SD` is the hardware's. -/
def setCsr (c : Csr) (v : Word w) : Machine w :=
  { m with cpu := { m.cpu with
      csr := Function.update m.cpu.csr c (if c = .sstatus then csrStatus v else v) } }

def setTask (t : Word w) (task : TaskStruct w) : Machine w :=
  { m with task := Function.update m.task t task }

variable {m}

@[simp] theorem setX_x (r r' : Reg) (v : Word w) :
    (m.setX r v).x r' = if r' = r then v else m.x r' := Function.update_apply ..

@[simp] theorem setX_csr (r : Reg) (v : Word w) : (m.setX r v).csr = m.csr := rfl
@[simp] theorem setX_mem (r : Reg) (v : Word w) : (m.setX r v).mem = m.mem := rfl
@[simp] theorem setX_task (r : Reg) (v : Word w) : (m.setX r v).task = m.task := rfl

@[simp] theorem setCsr_csr (c c' : Csr) (v : Word w) :
    (m.setCsr c v).csr c' = if c' = c then (if c = .sstatus then csrStatus v else v) else m.csr c' :=
  Function.update_apply ..

@[simp] theorem setCsr_x (c : Csr) (v : Word w) : (m.setCsr c v).x = m.x := rfl
@[simp] theorem setCsr_mem (c : Csr) (v : Word w) : (m.setCsr c v).mem = m.mem := rfl
@[simp] theorem setCsr_task (c : Csr) (v : Word w) : (m.setCsr c v).task = m.task := rfl

end Machine

/-! ## Instructions -/

/-- The labels of the code. -/
inductive Label
  | exception
  | trapUnknown
  | handleSyscall
  | checkSyscallNr
  | callSyscall
  | retFromSyscall
  | retFromException
  | resumeUserspace
  | restoreAll
  | workPending
  | workNotifysig
  | workResched
  | handleSyscallTraceEnter
  | handleSyscallTraceExit
  | retFromFork
  | retFromKernelThread
  deriving DecidableEq, Repr

/-- The symbols whose values the code loads. -/
inductive Sym
  /-- `_gp` -/
  | gp
  | label (l : Label)
  | excpVectTable
  | excpVectTableEnd
  | sysNiSyscall
  | sysCallTable
  /-- `__NR_syscalls` -/
  | nrSyscalls
  deriving DecidableEq, Repr

/-- The integer registers in `struct thread_struct`. -/
inductive ThreadReg
  | ra
  | sp
  | s (i : Fin 12)
  deriving DecidableEq, Repr

def TaskStruct.get (task : TaskStruct w) : ThreadReg → Word w
  | .ra => task.ra
  | .sp => task.sp
  | .s i => task.s i

def TaskStruct.set (task : TaskStruct w) (v : Word w) : ThreadReg → TaskStruct w
  | .ra => { task with ra := v }
  | .sp => { task with sp := v }
  | .s i => { task with s := Function.update task.s i v }

/-- The instructions of `entry.S`, without its jumps. -/
inductive Instr (w : Xlen)
  | li (rd : Reg) (imm : Word w)
  | la (rd : Reg) (sym : Sym)
  | mv (rd rs : Reg)
  | add (rd rs rs' : Reg)
  | addi (rd rs : Reg) (imm : Word w)
  | and (rd rs rs' : Reg)
  | andi (rd rs : Reg) (imm : Word w)
  | slli (rd rs : Reg) (shift : Nat)
  | srli (rd rs : Reg) (shift : Nat)
  /-- `REG_L rd, offset(rs)` -/
  | regL (rd : Reg) (offset : Nat) (rs : Reg)
  /-- `REG_S r, offset(rs)` -/
  | regS (r : Reg) (offset : Nat) (rs : Reg)
  /-- `REG_L rd, TASK_THREAD_INFO(rs)` -/
  | taskThreadInfo (rd rs : Reg)
  /-- `REG_L rd, THREAD_*(rs)` -/
  | threadL (rd : Reg) (field : ThreadReg) (rs : Reg)
  /-- `REG_S r, THREAD_*(rs)` -/
  | threadS (r : Reg) (field : ThreadReg) (rs : Reg)
  | csrr (rd : Reg) (csr : Csr)
  | csrw (csr : Csr) (rs : Reg)
  /-- `csrw csr, x0` -/
  | csrwx0 (csr : Csr)
  /-- `csrs csr, imm` -/
  | csrs (csr : Csr) (imm : Word w)
  /-- `csrc csr, imm` -/
  | csrc (csr : Csr) (imm : Word w)
  | csrrw (rd : Reg) (csr : Csr) (rs : Reg)
  | csrrc (rd : Reg) (csr : Csr) (rs : Reg)
  deriving DecidableEq

def Instr.exec (sym : Sym → Word w) (m : Machine w) : Instr w → Machine w
  | .li rd imm => m.setX rd imm
  | .la rd s => m.setX rd (sym s)
  | .mv rd rs => m.setX rd (m.x rs)
  | .add rd rs rs' => m.setX rd (m.x rs + m.x rs')
  | .addi rd rs imm => m.setX rd (m.x rs + imm)
  | .and rd rs rs' => m.setX rd (m.x rs &&& m.x rs')
  | .andi rd rs imm => m.setX rd (m.x rs &&& imm)
  | .slli rd rs shift => m.setX rd (m.x rs <<< shift)
  | .srli rd rs shift => m.setX rd (m.x rs >>> shift)
  | .regL rd offset rs => m.setX rd (loadWord (szreg w) m.mem (m.x rs + BitVec.ofNat _ offset))
  | .regS r offset rs => { m with mem := storeWord m.mem (m.x rs + BitVec.ofNat _ offset) (m.x r) }
  | .taskThreadInfo rd rs => m.setX rd (m.task (m.x rs)).stack
  | .threadL rd field rs => m.setX rd ((m.task (m.x rs)).get field)
  | .threadS r field rs => m.setTask (m.x rs) ((m.task (m.x rs)).set (m.x r) field)
  | .csrr rd csr => m.setX rd (m.csr csr)
  | .csrw csr rs => m.setCsr csr (m.x rs)
  | .csrwx0 csr => m.setCsr csr 0
  | .csrs csr imm => m.setCsr csr (m.csr csr ||| imm)
  | .csrc csr imm => m.setCsr csr (m.csr csr &&& ~~~imm)
  | .csrrw rd csr rs => (m.setCsr csr (m.x rs)).setX rd (m.csr csr)
  | .csrrc rd csr rs => (m.setCsr csr (m.csr csr &&& ~~~m.x rs)).setX rd (m.csr csr)

/-- Instructions one after the other. -/
def execAll (sym : Sym → Word w) (m : Machine w) (is : List (Instr w)) : Machine w :=
  is.foldl (Instr.exec sym) m

@[simp] theorem execAll_nil (sym : Sym → Word w) (m : Machine w) : execAll sym m [] = m := rfl

@[simp] theorem execAll_cons (sym : Sym → Word w) (m : Machine w) (i : Instr w)
    (is : List (Instr w)) : execAll sym m (i :: is) = execAll sym (i.exec sym m) is := rfl

theorem execAll_append (sym : Sym → Word w) (m : Machine w) (is is' : List (Instr w)) :
    execAll sym m (is ++ is') = execAll sym (execAll sym m is) is' := List.foldl_append

end LowriscLinux.Kernel.Entry
