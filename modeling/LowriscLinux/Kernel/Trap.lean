import LowriscLinux.Kernel.EntryFacts
import LowriscLinux.Lib.Transition

/-!
# Traps, tasks and returns

Model of a system that runs through `arch/riscv/kernel/entry.S`: harts in user mode, in the trap
code and in C code, and tasks with their kernel stacks.

## What models what

* `State.trap`: a trap. The hardware's part is `State.trapped`; then `SAVE_ALL` and
  `csrw sscratch, x0` (lines 114-118) run as one step. Traps are taken in user mode, in C code and
  between any two lines of the trap code.
* `Act.line`: the next line of `text`. `State.sret` is the return, with what `RESTORE_ALL` has
  loaded.
* `State.switch`: `__switch_to(current, next)` (lines 266-299), which the scheduler calls from C
  code with interrupts disabled, so it is a single step. The next task goes on at its `thread.ra`.
* `Clone.regs`, `Clone.task` and `State.clone`: `copy_thread` (`process.c`, lines 79-106), in a
  memory that has the child's stack and `thread_info`. A kernel thread starts in a trap whose frame
  is that of lines 88-90, and may only return from it after `start_thread` has made it a program's.
* `Act.cRet`: a C function returns to the line that its call or the register `ra` has named.
* `taskPtRegs`: `task_pt_regs` (`asm/processor.h`, lines 48 and 49).

Where it departs from the source:

* C code is not modelled: at each of its steps it may change all registers but `tp`, with `sp` on
  the free part of the stack, and all memory but the frames of the traps that are under way and what
  finds the tasks (`State.Kept`). A change to such a frame is a step of its own (`Act.writeFrame`),
  within `WriteOk`: `start_thread`, a tracer or a signal may set the registers of a program, and a
  fixup may change where kernel code goes on.
* The kernel stack does not overflow, and only programs make system calls.
* `levels` is bookkeeping: the traps that each task is in, innermost first. No step depends on more
  of it than which trap is the innermost one.
-/

namespace LowriscLinux.Kernel.Entry

open Lib

variable {w : Xlen}

structure Hart (w : Xlen) where
  cpu : Cpu w
  pc : Word w
  user : Bool
  /-- The task that runs, by its `task_struct`. -/
  cur : Word w

structure State (H : Type) (w : Xlen) where
  hart : H → Hart w
  mem : Memory (8 * szreg w)
  task : Word w → TaskStruct w
  /-- The tasks that there are. -/
  live : Word w → Bool
  levels : Word w → List (Level w)

/-- The address behind a kernel stack. -/
def stackTop (stack : Word w) : Word w := stack + BitVec.ofNat _ threadSize

/-- `task_pt_regs`, of the task with a stack. -/
def taskPtRegs (stack : Word w) : Word w := stackTop stack + -BitVec.ofNat _ (ptSize w)

/-- `alloc_thread_info`: a stack is aligned to its size, and not at the end of memory. -/
def StackOk (stack : Word w) : Prop :=
  stack.toNat % threadSize = 0 ∧ stack.toNat + threadSize < 2 ^ (8 * szreg w)

/-- The end of the stack that is free for C code: the innermost frame, or the end. -/
def limit (stack : Word w) : List (Level w) → Nat
  | [] => stack.toNat + threadSize
  | l :: _ => l.base.toNat

/-- The arguments of `copy_thread`, and the new `task_struct`. -/
structure Clone (w : Xlen) where
  /-- `p->flags & PF_KTHREAD` -/
  kthread : Bool
  usp : Word w
  arg : Word w
  /-- `clone_flags & CLONE_SETTLS` -/
  settls : Bool
  child : Word w
  stack : Word w

namespace Clone

variable (c : Clone w)

/-- `childregs` -/
def regs (parent : PtRegs w) (gp : Word w) : PtRegs w :=
  if c.kthread then
    { sepc := 0, x := fun r => if r = .gp then gp else 0, sstatus := srPs ||| srPie, sbadaddr := 0
      scause := 0 }
  else
    let regs := if c.usp = 0 then parent else parent.setX .sp c.usp
    let regs := if c.settls then regs.setX .tp (regs.x .a5) else regs
    regs.setX .a0 0

/-- `p`, with the context for `__switch_to`. -/
def task (image : Image w) (old : TaskStruct w) : TaskStruct w where
  stack := c.stack
  ra := image.sym (.label (if c.kthread then .retFromKernelThread else .retFromFork))
  sp := taskPtRegs c.stack
  s i :=
    if c.kthread ∧ i.val = 0 then c.usp else if c.kthread ∧ i.val = 1 then c.arg else old.s i

end Clone

namespace State

variable {H : Type} [DecidableEq H] (s : State H w) (h : H)

/-- What instructions on a hart work on. -/
def machine : Machine w := ⟨(s.hart h).cpu, s.mem, s.task⟩

/-- A step on a hart, with the levels of its task. -/
def put (m : Machine w) (pc : Word w) (user : Bool) (levels : List (Level w)) : State H w where
  hart := Function.update s.hart h { s.hart h with cpu := m.cpu, pc := pc, user := user }
  mem := m.mem
  task := m.task
  live := s.live
  levels := Function.update s.levels (s.hart h).cur levels

/-- The stack of the task that runs on a hart. -/
def stack : Word w := (s.task (s.hart h).cur).stack

/-- C code runs on a hart. -/
def InC (image : Image w) : Prop :=
  (s.hart h).user = false ∧ ¬image.InText (s.hart h).pc

/-- The hardware's part of a trap. -/
def trapped (scause sbadaddr : Word w) : Machine w :=
  let hart := s.hart h
  { s.machine h with
    cpu := { hart.cpu with
      csr := fun
        | .sstatus => trapStatus hart.user (hart.cpu.csr .sstatus)
        | .sepc => hart.pc
        | .sbadaddr => sbadaddr
        | .scause => scause
        | .sscratch => hart.cpu.csr .sscratch } }

/-- The registers that a trap interrupts. -/
def interrupted (scause sbadaddr : Word w) : PtRegs w :=
  let hart := s.hart h
  ⟨hart.pc, hart.cpu.x, trapStatus hart.user (hart.cpu.csr .sstatus), sbadaddr, scause⟩

/-- A trap, up to `csrw sscratch, x0`. -/
def trap (image : Image w) (scause sbadaddr : Word w) : State H w :=
  let m := (Instr.csrwx0 .sscratch).exec image.sym (saveAll image.sym (s.trapped h scause sbadaddr))
  s.put h m (image.addr 0) false
    ({ base := m.x .sp
       saved := s.interrupted h scause sbadaddr
       user := (s.hart h).user
       progress := .fresh
       wrote := false
       ret := 0 } :: s.levels (s.hart h).cur)

/-- `sret` -/
def sret (m : Machine w) (levels : List (Level w)) : State H w :=
  let sstatus := m.csr .sstatus
  s.put h
    { m with cpu := { m.cpu with csr := Function.update m.cpu.csr .sstatus (sretStatus sstatus) } }
    (m.csr .sepc) (sstatus &&& srPs = 0) levels

/-- C code, on its own or in another task's stead: the registers it leaves, and the memory. -/
def run (x : Reg → Word w) (sstatus pc : Word w) (mem : Memory (8 * szreg w))
    (task : Word w → TaskStruct w) : State H w :=
  s.put h ⟨⟨x, Function.update (s.hart h).cpu.csr .sstatus sstatus⟩, mem, task⟩ pc
    (s.hart h).user (s.levels (s.hart h).cur)

/-- `__switch_to(current, next)` -/
def switch (image : Image w) (next : Word w) : State H w :=
  let m := ((s.machine h).setX .a0 ((s.hart h).cpu.x .tp)).setX .a1 next
  let m' := execAll image.sym m switchTo
  { s with
    hart := Function.update s.hart h ⟨m'.cpu, m'.x .ra, false, next⟩
    mem := m'.mem
    task := m'.task }

/-- `copy_thread`, in memory that has the child's stack. -/
def clone (image : Image w) (c : Clone w) (regs : PtRegs w) (mem : Memory (8 * szreg w)) :
    State H w :=
  { s with
    mem := mem
    task := Function.update s.task c.child (c.task image (s.task c.child))
    live := Function.update s.live c.child true
    levels := Function.update s.levels c.child
      [{ base := taskPtRegs c.stack, saved := regs, user := true, progress := .fresh, wrote := true
         ret := 0 }] }

omit [DecidableEq H] in
/-- What code leaves alone that is not meant to change it: the frames of all traps under way,
`thread_info.task`, where the stacks are, and the context of tasks that wait. -/
structure Kept (mem : Memory (8 * szreg w)) (task : Word w → TaskStruct w) : Prop where
  frames : ∀ p, s.live p = true → ∀ l ∈ s.levels p,
    Agree s.mem mem l.base.toNat (l.base.toNat + ptSize w)
  info : ∀ p, s.live p = true →
    Agree s.mem mem (s.task p).stack.toNat ((s.task p).stack.toNat + szreg w)
  stack : ∀ p, s.live p = true → (task p).stack = (s.task p).stack
  waiting : ∀ p, s.live p = true → (∀ h, (s.hart h).cur ≠ p) → task p = s.task p

end State

/-- What happens on a hart. -/
inductive Act (H : Type) (w : Xlen)
  | trap (h : H) (scause sbadaddr : Word w)
  /-- The next line of the trap code. -/
  | line (h : H)
  /-- The program runs on. -/
  | user (h : H) (x : Reg → Word w) (sstatus pc : Word w) (mem : Memory (8 * szreg w))
  /-- C code runs on. -/
  | c (h : H) (x : Reg → Word w) (sstatus pc : Word w) (mem : Memory (8 * szreg w))
    (task : Word w → TaskStruct w)
  /-- A C function returns to the trap code. -/
  | cRet (h : H) (x : Reg → Word w) (sstatus : Word w)
  /-- C code writes to the frame of a trap. -/
  | writeFrame (h : H) (p : Word w) (k : Nat) (regs : PtRegs w) (mem : Memory (8 * szreg w))
  | switchTo (h : H) (next : Word w)
  | copyThread (h : H) (c : Clone w) (mem : Memory (8 * szreg w))
  /-- A task that does not run is gone. -/
  | freeTask (h : H) (p : Word w)

section Steps

variable {H : Type} [DecidableEq H]

/-- What a line leads to, in the task's innermost trap. -/
def LineStep (s : State H w) (h : H) (image : Image w) (line : Line w) (l : Level w)
    (rest : List (Level w)) (s' : State H w) : Machine w × Next w → Prop
  | (m, .line j) =>
    let l' := match line with
      | .instr i => l.note (s.machine h) i
      | _ => l
    s' = s.put h m (image.addr j) false (l' :: rest)
  | (m, .c pc ret) => ¬image.InText pc ∧ s' = s.put h m pc false ({ l with ret := ret } :: rest)
  | (m, .sret) => s' = s.sret h m rest

/-- A status to go to user mode with. Interrupts are enabled by `sret`, not before. -/
def UserStatus (v : Word w) : Prop := v &&& srPs = 0 ∧ v &&& srIe = 0

/-- What C code may make of the frame of a trap: of a program's, anything that leads back to user
mode; of the kernel's own, another address in C code to go on at. -/
def WriteOk (image : Image w) (l : Level w) (old regs : PtRegs w) : Prop :=
  if l.user then UserStatus regs.sstatus
  else regs = { old with sepc := regs.sepc } ∧ ¬image.InText old.sepc ∧ ¬image.InText regs.sepc

/-- The steps of the system. -/
def Step (image : Image w) (s : State H w) : Act H w → State H w → Prop
  | .trap h scause sbadaddr, s' =>
    -- the kernel stack does not overflow, and only programs make system calls
    ((s.hart h).user = false → scause ≠ excSyscall ∧
      (s.stack h).toNat + tiSize w + ptSize w ≤ ((s.hart h).cpu.x .sp).toNat) ∧
      s' = s.trap h image scause sbadaddr
  | .line h, s' =>
    (s.hart h).user = false ∧ ∃ i line l rest, (s.hart h).pc = image.addr i ∧
      text[i]? = some line ∧ s.levels (s.hart h).cur = l :: rest ∧
      LineStep s h image line l rest s' (line.exec image i (s.machine h))
  | .user h x sstatus pc mem, s' =>
    (s.hart h).user = true ∧ s.Kept mem s.task ∧ s' = s.run h x sstatus pc mem s.task
  | .c h x sstatus pc mem task, s' =>
    s.InC h image ∧ ¬image.InText pc ∧ x .tp = (s.hart h).cpu.x .tp ∧
      (s.stack h).toNat + tiSize w ≤ (x .sp).toNat ∧
      (x .sp).toNat ≤ limit (s.stack h) (s.levels (s.hart h).cur) ∧ s.Kept mem task ∧
      s' = s.run h x sstatus pc mem task
  | .cRet h x sstatus, s' =>
    s.InC h image ∧ x .tp = (s.hart h).cpu.x .tp ∧
      ∃ l ∈ (s.levels (s.hart h).cur).head?, x .sp = l.base ∧
        -- a kernel thread's function does not return before `start_thread`
        (l.ret = image.sym (.label .retFromException) → l.UserFrame s.mem) ∧
        s' = s.run h x sstatus l.ret s.mem s.task
  | .writeFrame h p k regs mem, s' =>
    s.InC h image ∧ s.live p = true ∧ ∃ l, (s.levels p)[k]? = some l ∧
      WriteOk image l (frameAt s.mem l.base) regs ∧ frameAt mem l.base = regs ∧
      (∀ lo hi, hi ≤ l.base.toNat ∨ l.base.toNat + ptSize w ≤ lo → Agree s.mem mem lo hi) ∧
      s' = { s with
        mem := mem
        levels := Function.update s.levels p ((s.levels p).set k { l with wrote := true }) }
  | .switchTo h next, s' =>
    s.InC h image ∧ ¬image.InText ((s.hart h).cpu.x .ra) ∧ s.live next = true ∧
      (∀ h', (s.hart h').cur ≠ next) ∧ s' = s.switch h image next
  | .copyThread h c mem, s' =>
    let parent := frameAt s.mem (taskPtRegs (s.stack h))
    let regs := c.regs parent ((s.hart h).cpu.x .gp)
    s.InC h image ∧ s.live c.child = false ∧ StackOk c.stack ∧
      (∀ p, s.live p = true → (s.task p).stack ≠ c.stack) ∧
      (c.kthread = false → UserStatus parent.sstatus) ∧
      frameAt mem (taskPtRegs c.stack) = regs ∧ loadWord (szreg w) mem c.stack = c.child ∧
      (∀ lo hi, hi ≤ c.stack.toNat ∨ c.stack.toNat + threadSize ≤ lo → Agree s.mem mem lo hi) ∧
      s' = s.clone image c regs mem
  | .freeTask h p, s' =>
    s.InC h image ∧ (∀ h', (s.hart h').cur ≠ p) ∧
      s' = { s with live := Function.update s.live p false }

end Steps

end LowriscLinux.Kernel.Entry
