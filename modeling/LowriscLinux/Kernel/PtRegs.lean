import LowriscLinux.Lib.Bytes

/-!
# Saved registers

Model of `struct pt_regs` (`arch/riscv/include/asm/ptrace.h`, lines 9-46), the registers that a trap
saves on the kernel stack, for both register widths, and of its layout in memory. All modules of
`Kernel` and most of `Mm` and `Video` take the words of a register from here.

## What models what

* `Xlen` and `szreg`: `CONFIG_64BIT` and `SZREG` (`asm/asm.h`). `Word` is `unsigned long`.
* `PtRegs`: the structure. Its fields `ra` to `t6` are one function on the register names (`Reg`).
* `Slot` names the words of the structure and `Slot.layout` puts them in the order of the source.
  `Slot.offset` is the `PT_*` constant that the assembly uses for a word, and `ptSize` is `PT_SIZE`:
  all fields have the size of a register, so the structure has no padding.
* `Slot.User` and `userSize`: `struct user_regs_struct` (`uapi/asm/ptrace.h`, lines 13-46), which
  must form a prefix (line 11 there).
* `srIe` to `srFsInitial`, `excInstAccess` to `excSyscall`: the bits and causes of `asm/csr.h`
  (lines 7-16 and 34-39). `userMode` is `user_mode` (line 54).

Results:
* `PtRegs.ofBytes_bytes` / `PtRegs.bytes_ofBytes`: the structure and its `sizeof` bytes determine
  each other.
* `Slot.index_user`: the user registers (`struct user_regs_struct`) are the first 32 words.
-/

namespace LowriscLinux.Kernel

open Lib

/-- The base integer register width: without and with `CONFIG_64BIT`. -/
inductive Xlen
  | rv32
  | rv64
  deriving DecidableEq, Repr

/-- `SZREG`: the bytes of a register. -/
def szreg : Xlen → Nat
  | .rv32 => 4
  | .rv64 => 8

theorem szreg_pos (w : Xlen) : 0 < szreg w := by cases w <;> decide

theorem le_xlen (w : Xlen) : 32 ≤ 8 * szreg w := by cases w <;> decide

/-- `unsigned long`. -/
abbrev Word (w : Xlen) := BitVec (8 * szreg w)

/-- The integer registers `x1`, …, `x31` under their ABI names. -/
inductive Reg
  | ra | sp | gp | tp | t0 | t1 | t2 | s0 | s1 | a0 | a1 | a2 | a3 | a4 | a5 | a6 | a7
  | s2 | s3 | s4 | s5 | s6 | s7 | s8 | s9 | s10 | s11 | t3 | t4 | t5 | t6
  deriving DecidableEq, Repr

/-- `struct pt_regs`. The fields `ra` to `t6` are `x`. -/
@[ext]
structure PtRegs (w : Xlen) where
  sepc : Word w
  x : Reg → Word w
  sstatus : Word w
  sbadaddr : Word w
  scause : Word w

/-- The words of `struct pt_regs`. -/
inductive Slot
  | sepc
  | x (r : Reg)
  | sstatus
  | sbadaddr
  | scause
  deriving DecidableEq, Repr

/-- The words in the order of the structure. -/
def Slot.layout : List Slot :=
  [.sepc, .x .ra, .x .sp, .x .gp, .x .tp, .x .t0, .x .t1, .x .t2, .x .s0, .x .s1, .x .a0, .x .a1,
    .x .a2, .x .a3, .x .a4, .x .a5, .x .a6, .x .a7, .x .s2, .x .s3, .x .s4, .x .s5, .x .s6, .x .s7,
    .x .s8, .x .s9, .x .s10, .x .s11, .x .t3, .x .t4, .x .t5, .x .t6, .sstatus, .sbadaddr, .scause]

def Slot.index (s : Slot) : Nat := layout.idxOf s

theorem Slot.layout_index (s : Slot) : layout[s.index]? = some s := by
  rcases s with _ | r | _ | _ | _
  · rfl
  · cases r <;> rfl
  · rfl
  · rfl
  · rfl

theorem Slot.index_layout {k : Nat} {s : Slot} (h : layout[k]? = some s) : s.index = k := by
  have hk : k < 35 := (List.getElem?_eq_some_iff.mp h).1
  have all : ∀ k < 35, ∀ s ∈ layout[k]?, s.index = k := by decide
  exact all k hk s h

theorem Slot.index_lt (s : Slot) : s.index < 35 :=
  (List.getElem?_eq_some_iff.mp (layout_index s)).1

/-- The word is a user register: the exception program counter or an integer register. -/
def Slot.User : Slot → Prop
  | .sepc => True
  | .x _ => True
  | .sstatus => False
  | .sbadaddr => False
  | .scause => False

/-- **`struct user_regs_struct` is a prefix of `struct pt_regs`.** -/
theorem Slot.index_user (s : Slot) : s.User ↔ s.index < 32 := by
  rcases s with _ | r | _ | _ | _
  · exact iff_of_true trivial (by decide)
  · exact iff_of_true trivial (by cases r <;> decide)
  · exact iff_of_false id (by decide)
  · exact iff_of_false id (by decide)
  · exact iff_of_false id (by decide)

variable {w : Xlen}

/-- `PT_SEPC`, `PT_RA`, …: the offset of a word. -/
def Slot.offset (w : Xlen) (s : Slot) : Nat := szreg w * s.index

/-- `PT_SIZE`, which is `sizeof(struct pt_regs)`. -/
def ptSize (w : Xlen) : Nat := szreg w * 35

/-- `ELF_NGREG * sizeof(elf_greg_t)`: the bytes of the register set shown to a tracer. -/
def userSize (w : Xlen) : Nat := szreg w * 32

theorem userSize_le (w : Xlen) : userSize w ≤ ptSize w := Nat.mul_le_mul_left _ (by decide)

namespace PtRegs

def get (regs : PtRegs w) : Slot → Word w
  | .sepc => regs.sepc
  | .x r => regs.x r
  | .sstatus => regs.sstatus
  | .sbadaddr => regs.sbadaddr
  | .scause => regs.scause

def ofSlots (f : Slot → Word w) : PtRegs w :=
  ⟨f .sepc, fun r => f (.x r), f .sstatus, f .sbadaddr, f .scause⟩

@[simp] theorem get_ofSlots (f : Slot → Word w) : (ofSlots f).get = f := by
  funext s
  cases s <;> rfl

theorem ext_get {regs regs' : PtRegs w} (h : ∀ s, regs.get s = regs'.get s) : regs = regs' := by
  ext1
  · exact h .sepc
  · exact funext fun r => h (.x r)
  · exact h .sstatus
  · exact h .sbadaddr
  · exact h .scause

/-- The words of the structure, by position. -/
def words (regs : PtRegs w) (k : Nat) : Word w := (Slot.layout[k]?.map regs.get).getD 0

@[simp] theorem words_index (regs : PtRegs w) (s : Slot) : regs.words s.index = regs.get s := by
  simp [words, Slot.layout_index]

/-- The bytes of the structure. -/
def bytes (regs : PtRegs w) : Nat → Byte := bytesOf regs.words

/-- The structure that given bytes are. -/
def ofBytes (b : Nat → Byte) : PtRegs w := ofSlots fun s => wordsOf (szreg w) b s.index

theorem ofBytes_bytes (regs : PtRegs w) : ofBytes regs.bytes = regs := by
  refine ext_get fun s => ?_
  simp [ofBytes, bytes, wordsOf_bytesOf]

theorem bytes_ofBytes (b : Nat → Byte) {i : Nat} (hi : i < ptSize w) :
    (ofBytes b : PtRegs w).bytes i = b i := by
  have hk : i / szreg w < 35 := Nat.div_lt_of_lt_mul hi
  obtain ⟨s, hs⟩ : ∃ s, Slot.layout[i / szreg w]? = some s :=
    ⟨_, List.getElem?_eq_getElem hk⟩
  have hw : (ofBytes b : PtRegs w).words (i / szreg w) = wordsOf (szreg w) b (i / szreg w) := by
    rw [← Slot.index_layout hs, words_index]
    simp [ofBytes]
  calc (ofBytes b : PtRegs w).bytes i
      = byteAt (wordsOf (szreg w) b (i / szreg w)) (i % szreg w) := by rw [← hw]; rfl
    _ = b i := congrFun (bytesOf_wordsOf (szreg_pos w) b) i

/-- A word is as it was when its bytes are. -/
theorem get_ofBytes {regs : PtRegs w} {b : Nat → Byte} {s : Slot}
    (h : ∀ i, s.offset w ≤ i → i < s.offset w + szreg w → b i = regs.bytes i) :
    (ofBytes b).get s = regs.get s := by
  have hw : wordsOf (szreg w) b s.index = wordsOf (szreg w) regs.bytes s.index :=
    wordsOf_congr fun i hlo hhi => h i hlo (by simpa [Slot.offset, Nat.mul_succ] using hhi)
  simp only [ofBytes, get_ofSlots, hw, bytes, wordsOf_bytesOf, words_index]

end PtRegs

/-! ## Status and cause -/

/-- `SR_IE`: interrupts are enabled. -/
def srIe : Word w := 0x2

/-- `SR_PIE`: interrupts were enabled before the trap. -/
def srPie : Word w := 0x20

/-- `SR_PS`: the trap came from supervisor mode. -/
def srPs : Word w := 0x100

/-- `SR_PUM`: user memory is protected from supervisor mode. -/
def srPum : Word w := 0x40000

/-- `SR_FS`: the state of the floating-point unit. -/
def srFs : Word w := 0x6000

/-- `SR_FS_INITIAL`. -/
def srFsInitial : Word w := 0x2000

/-- `EXC_INST_ACCESS`. -/
def excInstAccess : Word w := 1

/-- `EXC_LOAD_ACCESS`. -/
def excLoadAccess : Word w := 5

/-- `EXC_STORE_ACCESS`. -/
def excStoreAccess : Word w := 7

/-- `EXC_SYSCALL`. -/
def excSyscall : Word w := 8

/-- `user_mode(regs)`: the trap came from user mode. -/
def userMode (regs : PtRegs w) : Bool := regs.sstatus &&& srPs = 0

end LowriscLinux.Kernel
