import LowriscLinux.Kernel.SaveRestore
import LowriscLinux.Kernel.Syscall

/-!
# The trap code

`handle_exception`, `ret_from_fork` and `ret_from_kernel_thread` (`arch/riscv/kernel/entry.S`) from
the end of `SAVE_ALL` on, line by line (`text`).

## What models what

* `handleException`: lines 121-163, `traceTest` lines 165-168 and again 186-189, `checkSyscallNr`
  lines 169-184, `retFromException` lines 191-209, `workPending` lines 211-223, `handleSyscallTrace`
  lines 226-241, `retFromFork` lines 245-247 and `retFromKernelThread` lines 250-255. `text` has
  them in the order of the source, and `Label` its labels: the two that are both called `1` in
  `handle_exception` are `exception` and `trapUnknown`, and that of line 179 is `callSyscall`.
* `threadSize`, `threadMask` and `tiSize`: `asm/thread_info.h`, lines 10, 11 and 27-33.
  `tifSyscallTrace` to `tifWorkMask`: lines 79-85 there.
* `Image`: where the linker has put each line and each symbol. Different lines have different
  addresses, and a label has that of its line.
* `Line.exec`: one line. It leads to another line, into a C function that will return to an address
  (`Next.c`), or to `sret`.

Where it departs from the source:

* A trap may be taken between any two lines. `RESTORE_ALL` and `sret` (lines 208 and 209), and the
  write of `sscratch` before them (line 206), are one line (`Line.exit`): the source has interrupts
  disabled there, and these instructions do not fault.
* `SAVE_ALL` and `csrw sscratch, x0` (lines 114-118) belong to the trap itself (`Kernel/Trap.lean`).
* What C functions do is not modelled here. A `tail` leaves `ra` as it is, so the function returns
  to where that leads.
-/

namespace LowriscLinux.Kernel.Entry

open Lib

variable {w : Xlen}

/-! ## The text -/

/-- `THREAD_SIZE`, which is `PAGE_SIZE << THREAD_SIZE_ORDER`. -/
def threadSize : Nat := 2 ^ 13

/-- `~(THREAD_SIZE-1)` -/
def threadMask : Word w := ~~~BitVec.ofNat _ (threadSize - 1)

/-- `TI_FLAGS`; `TI_TASK` is 0. -/
def tiFlags (w : Xlen) : Nat := szreg w

/-- `sizeof(struct thread_info)` -/
def tiSize (w : Xlen) : Nat := 3 * szreg w + 8

/-- `_TIF_SYSCALL_TRACE` -/
def tifSyscallTrace : Word w := 0x1

/-- `_TIF_NEED_RESCHED` -/
def tifNeedResched : Word w := 0x8

/-- `_TIF_WORK_MASK` -/
def tifWorkMask : Word w := 0xe

/-- The C functions that the code calls by name. -/
inductive Fn
  | doIRQ
  | doTrapUnknown
  | doNotifyResume
  | schedule
  | scheduleTail
  | doSyscallTraceEnter
  | doSyscallTraceExit
  deriving DecidableEq, Repr

inductive Line (w : Xlen)
  | label (l : Label)
  | instr (i : Instr w)
  | bnez (r : Reg) (l : Label)
  | beq (r r' : Reg) (l : Label)
  /-- `bge r, zero, l` -/
  | bgez (r : Reg) (l : Label)
  | bgeu (r r' : Reg) (l : Label)
  | j (l : Label)
  | call (f : Fn)
  | tail (f : Fn)
  | jr (r : Reg)
  | jalr (r : Reg)
  /-- Instructions and `sret`, with no trap between them. -/
  | exit (is : List (Instr w))
  deriving DecidableEq

/-- The test of `_TIF_SYSCALL_TRACE`. -/
def traceTest (l : Label) : List (Line w) :=
  [.instr (.taskThreadInfo .t0 .tp), .instr (.regL .t0 (tiFlags w) .t0),
    .instr (.andi .t0 .t0 tifSyscallTrace), .bnez .t0 l]

/-- `handle_exception` after `SAVE_ALL` and `csrw sscratch, x0`. -/
def handleException : List (Line w) :=
  [.instr (.li .tp threadMask),
    .instr (.and .tp .tp .sp),
    .instr (.regL .tp 0 .tp),
    .instr (.la .gp .gp),
    .instr (.la .ra (.label .retFromException)),
    .bgez .s4 .exception,
    .instr (.slli .a0 .s4 1),
    .instr (.srli .a0 .a0 1),
    .instr (.mv .a1 .sp),
    .tail .doIRQ,
    .label .exception,
    .instr (.li .t0 excSyscall),
    .beq .s4 .t0 .handleSyscall,
    .instr (.slli .t0 .s4 (lgptr w)),
    .instr (.la .t1 .excpVectTable),
    .instr (.la .t2 .excpVectTableEnd),
    .instr (.mv .a0 .sp),
    .instr (.add .t0 .t1 .t0),
    .bgeu .t0 .t2 .trapUnknown,
    .instr (.regL .t0 0 .t0),
    .jr .t0,
    .label .trapUnknown,
    .tail .doTrapUnknown,
    .label .handleSyscall,
    .instr (.addi .s2 .s2 0x4),
    .instr (store .s2 .sepc),
    .instr (.csrs .sstatus srIe)]

def checkSyscallNr : List (Line w) :=
  [.label .checkSyscallNr,
    .instr (.la .t0 .nrSyscalls),
    .instr (.la .s0 .sysNiSyscall),
    .bgeu .a7 .t0 .callSyscall,
    .instr (.la .s0 .sysCallTable),
    .instr (.slli .t0 .a7 (lgptr w)),
    .instr (.add .s0 .s0 .t0),
    .instr (.regL .s0 0 .s0),
    .label .callSyscall,
    .jalr .s0,
    .label .retFromSyscall,
    .instr (store .a0 (.x .a0))]

def retFromException : List (Line w) :=
  [.label .retFromException,
    .instr (load .s0 .sstatus),
    .instr (.csrc .sstatus srIe),
    .instr (.andi .s0 .s0 srPs),
    .bnez .s0 .restoreAll,
    .label .resumeUserspace,
    .instr (.taskThreadInfo .s0 .tp),
    .instr (.regL .s0 (tiFlags w) .s0),
    .instr (.andi .s1 .s0 tifWorkMask),
    .bnez .s1 .workPending,
    .instr (.addi .s0 .sp (BitVec.ofNat _ (ptSize w))),
    -- `restore_all` follows
    .exit (.csrw .sscratch .s0 :: restoreAll),
    .label .restoreAll,
    .exit restoreAll]

def workPending : List (Line w) :=
  [.label .workPending,
    .instr (.la .ra (.label .retFromException)),
    .instr (.andi .s1 .s0 tifNeedResched),
    .bnez .s1 .workResched,
    .label .workNotifysig,
    .instr (.csrs .sstatus srIe),
    .instr (.mv .a0 .sp),
    .instr (.mv .a1 .s0),
    .tail .doNotifyResume,
    .label .workResched,
    .tail .schedule]

def handleSyscallTrace : List (Line w) :=
  [.label .handleSyscallTraceEnter,
    .instr (.mv .a0 .sp),
    .call .doSyscallTraceEnter,
    .instr (load .a0 (.x .a0)),
    .instr (load .a1 (.x .a1)),
    .instr (load .a2 (.x .a2)),
    .instr (load .a3 (.x .a3)),
    .instr (load .a4 (.x .a4)),
    .instr (load .a5 (.x .a5)),
    .instr (load .a6 (.x .a6)),
    .instr (load .a7 (.x .a7)),
    .j .checkSyscallNr,
    .label .handleSyscallTraceExit,
    .instr (.mv .a0 .sp),
    .call .doSyscallTraceExit,
    .j .retFromException]

def retFromFork : List (Line w) :=
  [.label .retFromFork,
    .instr (.la .ra (.label .retFromException)),
    .tail .scheduleTail]

def retFromKernelThread : List (Line w) :=
  [.label .retFromKernelThread,
    .call .scheduleTail,
    .instr (.la .ra (.label .retFromException)),
    .instr (.mv .a0 .s1),
    .jr .s0]

/-- The listing, in the order of the source. -/
def text : List (Line w) :=
  handleException ++ traceTest .handleSyscallTraceEnter ++ checkSyscallNr ++
    traceTest .handleSyscallTraceExit ++ retFromException ++ workPending ++ handleSyscallTrace ++
    retFromFork ++ retFromKernelThread

/-- The number of a label's line. -/
def Label.index (w : Xlen) (l : Label) : Nat := (text : List (Line w)).idxOf (.label l)

/-- Where the linker has put the code: the address of each line, and the values of symbols. -/
structure Image (w : Xlen) where
  addr : Nat → Word w
  sym : Sym → Word w
  fn : Fn → Word w
  addr_inj : ∀ i j, i < (text : List (Line w)).length → j < (text : List (Line w)).length →
    addr i = addr j → i = j
  sym_label : ∀ l, sym (.label l) = addr (l.index w)

/-- An address of the listing. -/
def Image.InText (image : Image w) (pc : Word w) : Prop :=
  ∃ i < (text : List (Line w)).length, pc = image.addr i

/-- Where a line leads. -/
inductive Next (w : Xlen)
  | line (i : Nat)
  /-- Into C code that will return to an address. -/
  | c (pc ret : Word w)
  | sret

def Line.exec (image : Image w) (i : Nat) (m : Machine w) : Line w → Machine w × Next w
  | .label _ => (m, .line (i + 1))
  | .instr ins => (ins.exec image.sym m, .line (i + 1))
  | .bnez r l => (m, .line (if m.x r ≠ 0 then l.index w else i + 1))
  | .beq r r' l => (m, .line (if m.x r = m.x r' then l.index w else i + 1))
  | .bgez r l => (m, .line (if 0 ≤ (m.x r).toInt then l.index w else i + 1))
  | .bgeu r r' l => (m, .line (if (m.x r').toNat ≤ (m.x r).toNat then l.index w else i + 1))
  | .j l => (m, .line (l.index w))
  | .call f => (m.setX .ra (image.addr (i + 1)), .c (image.fn f) (image.addr (i + 1)))
  | .tail f => (m, .c (image.fn f) (m.x .ra))
  | .jr r => (m, .c (m.x r) (m.x .ra))
  | .jalr r => (m.setX .ra (image.addr (i + 1)), .c (m.x r) (image.addr (i + 1)))
  | .exit is => (execAll image.sym m is, .sret)

end LowriscLinux.Kernel.Entry
