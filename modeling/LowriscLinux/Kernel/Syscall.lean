import LowriscLinux.Kernel.Signal

/-!
# System call dispatch

Model of `check_syscall_nr` (`arch/riscv/kernel/entry.S`, lines 169-180), of the table
`sys_call_table` that `arch/riscv/kernel/syscall_table.c` fills from the `__SYSCALL` lines of the
headers, and of the way to it for a traced task.

## What models what

* `Unistd`: what the headers give, with the lines of `asm-generic/unistd.h` as a parameter.
  `Unistd.lines` adds the one of `arch/riscv/include/uapi/asm/unistd.h` (lines 3-6).
* `Unistd.sysCallTable`: `syscall_table.c`, lines 6-10. Each line is an initialiser `[nr] = (call)`,
  so the last one of a number counts, and an entry that no line names is zero, as C leaves it.
* `Image`: a kernel in memory. Its fields say what the compiler and the linker see to: the table has
  room, an initialiser is inside of it, and no function is at address 0.
* `checkSyscallNr`: lines 171-180. The comparison (`bgeu`) is unsigned and on the whole register.
* `syscallSetNr` and `doSyscallTraceEnter`: `syscall_set_nr` (`arch/riscv/include/asm/syscall.h`,
  lines 39-44) and `do_syscall_trace_enter` (`arch/riscv/kernel/ptrace.c`, lines 106-111). What a
  tracer does with the registers is a parameter.
* `handleSyscallDispatch`: lines 157-169 and 226-237, where the registers are loaded again for a
  traced task.

The jump is where a dispatch ends. What the function there does is not modelled, nor are the
tracepoints of `do_syscall_trace_enter` (lines 113-116).

Results:
* `Unistd.sysCallTable_get`: the entry of a number is the function of its last line, or zero.
* `checkSyscallNr_loads`: the table is only read at its own entries.
* `handleSyscallDispatch_cancelled`: a call that the tracer cancels goes to `sys_ni_syscall`.
* **`landsOnCall_iff`**: dispatch lands on the function of the number, or on `sys_ni_syscall` if it
  has none, iff the number is beyond the table or has a line: at the gaps it goes to address 0.
-/

namespace LowriscLinux.Kernel

variable {w : Xlen}

/-! ## The table -/

/-- `LGPTR`. -/
def lgptr : Xlen → Nat
  | .rv32 => 2
  | .rv64 => 3

theorem two_pow_lgptr (w : Xlen) : 2 ^ lgptr w = szreg w := by cases w <;> rfl

/-- What `asm/unistd.h` gives the table: numbers and functions. -/
structure Unistd (w : Xlen) where
  /-- `__NR_syscalls`. -/
  nrSyscalls : Nat
  /-- The `__SYSCALL` lines of `asm-generic/unistd.h`. -/
  generic : List (Nat × Word w)
  /-- `__NR_arch_specific_syscall`. -/
  nrArchSpecificSyscall : Nat
  sysSysriscv : Word w
  /-- `__riscv_atomic` is defined. -/
  riscvAtomic : Bool

namespace Unistd

/-- The `__SYSCALL` lines of `uapi/asm/unistd.h`. -/
def lines (u : Unistd w) : List (Nat × Word w) :=
  u.generic ++ if u.riscvAtomic then [] else [(u.nrArchSpecificSyscall, u.sysSysriscv)]

/-- `sys_call_table`: each line is an initialiser `[nr] = (call)`. -/
def sysCallTable (u : Unistd w) : List (Word w) :=
  u.lines.foldl (fun table line => table.set line.1 line.2) (List.replicate u.nrSyscalls 0)

/-- The function registered for a number: the one of its last line. -/
def call? (u : Unistd w) (nr : Nat) : Option (Word w) := u.lines.reverse.lookup nr

end Unistd

/-- A kernel image: the headers it was built from, its addresses and its memory. -/
structure Image (w : Xlen) extends Unistd w where
  /-- The address of `sys_ni_syscall`. -/
  sysNiSyscall : Word w
  /-- The address of `sys_call_table`. -/
  table : Word w
  /-- The words of memory. -/
  mem : Word w → Word w
  nr_lt : nrSyscalls < 2 ^ 31
  /-- An initialiser beyond the table does not compile. -/
  lines_lt : ∀ line ∈ toUnistd.lines, line.1 < nrSyscalls
  /-- No function is at address 0. -/
  lines_ne : ∀ line ∈ toUnistd.lines, line.2 ≠ 0
  sysNi_ne : sysNiSyscall ≠ 0
  table_fits : table.toNat + szreg w * nrSyscalls ≤ 2 ^ (8 * szreg w)
  mem_table : ∀ nr, nr < nrSyscalls →
    toUnistd.sysCallTable[nr]? = some (mem (table + BitVec.ofNat _ (nr * szreg w)))

/-! ## Dispatch -/

/-- Where `check_syscall_nr` jumps, and the addresses it reads on the way. -/
structure Dispatch (w : Xlen) where
  target : Word w
  loads : List (Word w)

/-- `check_syscall_nr`, for the number in `a7`. -/
def checkSyscallNr (k : Image w) (a7 : Word w) : Dispatch w :=
  let t0 := BitVec.ofNat (8 * szreg w) k.nrSyscalls
  let s0 := k.sysNiSyscall
  -- `bgeu a7, t0, 1f`
  if t0 ≤ a7 then ⟨s0, []⟩
  else
    let s0 := k.table
    let t0 := a7 <<< lgptr w
    let s0 := s0 + t0
    ⟨k.mem s0, [s0]⟩

/-- `syscall_set_nr`. -/
def syscallSetNr (regs : PtRegs w) (sysno : BitVec 32) : PtRegs w :=
  regs.setX .a7 (sysno.signExtend _)

/-- What a tracer does at a system call entry. -/
structure Tracer (w : Xlen) where
  /-- `TIF_SYSCALL_TRACE` is still set in `do_syscall_trace_enter`. -/
  flag : Bool
  /-- `tracehook_report_syscall_entry`: the registers it leaves, and whether it cancels the
  call. -/
  reportSyscallEntry : PtRegs w → PtRegs w × Bool

def doSyscallTraceEnter (t : Tracer w) (regs : PtRegs w) : PtRegs w :=
  if t.flag then
    let (regs, cancel) := t.reportSyscallEntry regs
    if cancel then syscallSetNr regs (-1) else regs
  else regs

/-- `handle_syscall` up to the jump. The task is traced when `TIF_SYSCALL_TRACE` is set; then
`a0` to `a7` are loaded again from the saved registers. -/
def handleSyscallDispatch (k : Image w) (traced : Bool) (t : Tracer w) (regs : PtRegs w) :
    Dispatch w :=
  let saved := handleSyscall regs
  if traced then checkSyscallNr k ((doSyscallTraceEnter t saved).x .a7)
  else checkSyscallNr k (regs.x .a7)

/-- The number of the call: the one of the task, or the one its tracer leaves. -/
def callNumber (traced : Bool) (t : Tracer w) (regs : PtRegs w) : Word w :=
  if traced then (doSyscallTraceEnter t (handleSyscall regs)).x .a7 else regs.x .a7

/-- Control goes to the function of the number, or to `sys_ni_syscall` if it has none, and only
the table is read. -/
def LandsOnCall (k : Image w) (nr : Word w) (d : Dispatch w) : Prop :=
  d.target = (k.call? nr.toNat).getD k.sysNiSyscall ∧ d.target ≠ 0 ∧
    ∀ a ∈ d.loads, ∃ i < k.nrSyscalls, a = k.table + BitVec.ofNat _ (i * szreg w)

/-! ## The entries of the table -/

theorem Unistd.sysCallTable_get (u : Unistd w) {nr : Nat} (h : nr < u.nrSyscalls) :
    u.sysCallTable[nr]? = some ((u.call? nr).getD 0) := by
  unfold sysCallTable call?
  induction u.lines using List.reverseRecOn with
  | nil => simp [h]
  | append_singleton lines line ih =>
    rw [List.foldl_concat, List.reverse_concat, List.getElem?_set, List.lookup_cons]
    by_cases heq : line.1 = nr
    · subst heq
      obtain ⟨hlt, -⟩ := List.getElem?_eq_some_iff.mp ih
      rw [if_pos rfl, if_pos hlt, beq_self_eq_true]
      rfl
    · have hbeq : (nr == line.1) = false := beq_eq_false_iff_ne.mpr (Ne.symm heq)
      rw [if_neg heq, ih, hbeq]

theorem Unistd.call?_mem {u : Unistd w} {nr : Nat} {call : Word w} (h : u.call? nr = some call) :
    (nr, call) ∈ u.lines := by
  obtain ⟨before, after, heq, -⟩ := List.lookup_eq_some_iff.mp h
  have hmem : (nr, call) ∈ u.lines.reverse := by rw [heq]; simp
  exact List.mem_reverse.mp hmem

namespace Image

theorem call?_ne {k : Image w} {nr : Nat} {call : Word w} (h : k.call? nr = some call) :
    call ≠ 0 := k.lines_ne _ (Unistd.call?_mem h)

theorem call?_lt {k : Image w} {nr : Nat} {call : Word w} (h : k.call? nr = some call) :
    nr < k.nrSyscalls := k.lines_lt _ (Unistd.call?_mem h)

theorem nrSyscalls_le_iff (k : Image w) (a7 : Word w) :
    BitVec.ofNat (8 * szreg w) k.nrSyscalls ≤ a7 ↔ k.nrSyscalls ≤ a7.toNat := by
  have hbig : 2 ^ 31 ≤ 2 ^ (8 * szreg w) := by cases w <;> decide
  rw [BitVec.le_def, BitVec.toNat_ofNat, Nat.mod_eq_of_lt (k.nr_lt.trans_le hbig)]

end Image

theorem shiftLeft_lgptr (a : Word w) : a <<< lgptr w = BitVec.ofNat _ (a.toNat * szreg w) := by
  apply BitVec.eq_of_toNat_eq
  rw [BitVec.toNat_shiftLeft, Nat.shiftLeft_eq, two_pow_lgptr, BitVec.toNat_ofNat]

/-! ## Where dispatch lands -/

section Dispatch

variable (k : Image w) {a7 : Word w}

theorem checkSyscallNr_of_ge (h : k.nrSyscalls ≤ a7.toNat) :
    checkSyscallNr k a7 = ⟨k.sysNiSyscall, []⟩ :=
  if_pos ((k.nrSyscalls_le_iff a7).mpr h)

theorem checkSyscallNr_of_lt (h : a7.toNat < k.nrSyscalls) :
    checkSyscallNr k a7 =
      ⟨(k.call? a7.toNat).getD 0, [k.table + BitVec.ofNat _ (a7.toNat * szreg w)]⟩ := by
  have hload := k.mem_table _ h
  rw [Unistd.sysCallTable_get _ h, Option.some.injEq] at hload
  rw [checkSyscallNr, if_neg (mt (k.nrSyscalls_le_iff a7).mp (Nat.not_le.mpr h)),
    shiftLeft_lgptr, hload]

/-- Only entries of the table are read. -/
theorem checkSyscallNr_loads (a7 : Word w) :
    ∀ a ∈ (checkSyscallNr k a7).loads,
      ∃ i < k.nrSyscalls, a = k.table + BitVec.ofNat _ (i * szreg w) := by
  rcases Nat.lt_or_ge a7.toNat k.nrSyscalls with h | h
  · rw [checkSyscallNr_of_lt k h]
    intro a ha
    exact ⟨a7.toNat, h, List.mem_singleton.mp ha⟩
  · rw [checkSyscallNr_of_ge k h]
    simp

theorem checkSyscallNr_lands_iff (a7 : Word w) :
    LandsOnCall k a7 (checkSyscallNr k a7) ↔
      k.nrSyscalls ≤ a7.toNat ∨ (k.call? a7.toNat).isSome := by
  have hloads := checkSyscallNr_loads k a7
  rcases Nat.lt_or_ge a7.toNat k.nrSyscalls with h | h
  · rw [checkSyscallNr_of_lt k h] at hloads ⊢
    rw [or_iff_right (Nat.not_le.mpr h)]
    cases hcall : k.call? a7.toNat with
    | none =>
      refine iff_of_false ?_ (by simp)
      rintro ⟨-, hne, -⟩
      exact hne rfl
    | some call =>
      have hne := k.call?_ne hcall
      rw [hcall] at hloads
      exact iff_of_true ⟨by simp [hcall], hne, hloads⟩ rfl
  · rw [checkSyscallNr_of_ge k h] at hloads ⊢
    have hcall : k.call? a7.toNat = none := by
      rw [Option.eq_none_iff_forall_ne_some]
      intro call hcall
      exact absurd (k.call?_lt hcall) (Nat.not_lt.mpr h)
    exact iff_of_true ⟨by simp [hcall], k.sysNi_ne, hloads⟩ (Or.inl h)

variable (traced : Bool) (t : Tracer w) (regs : PtRegs w)

theorem handleSyscallDispatch_eq :
    handleSyscallDispatch k traced t regs = checkSyscallNr k (callNumber traced t regs) := by
  cases traced <;> rfl

/-- A call that the tracer cancels goes to `sys_ni_syscall`. -/
theorem handleSyscallDispatch_cancelled (hflag : t.flag = true)
    (hcancel : (t.reportSyscallEntry (handleSyscall regs)).2 = true) :
    handleSyscallDispatch k true t regs = ⟨k.sysNiSyscall, []⟩ := by
  have hnr : callNumber true t regs = (-1 : BitVec 32).signExtend _ := by
    simp [callNumber, doSyscallTraceEnter, syscallSetNr, hflag, hcancel]
  rw [handleSyscallDispatch_eq, hnr]
  apply checkSyscallNr_of_ge
  have hbig : 2 ^ 31 ≤ ((-1 : BitVec 32).signExtend (8 * szreg w)).toNat := by
    cases w <;> decide
  exact k.nr_lt.le.trans hbig

/-- **Dispatch lands on a system call iff the number is beyond the table or has a `__SYSCALL`
line.** -/
theorem landsOnCall_iff :
    LandsOnCall k (callNumber traced t regs) (handleSyscallDispatch k traced t regs) ↔
      k.nrSyscalls ≤ (callNumber traced t regs).toNat ∨
        (k.call? (callNumber traced t regs).toNat).isSome := by
  rw [handleSyscallDispatch_eq]
  exact checkSyscallNr_lands_iff k _

end Dispatch

/-- The image with the table of the headers at an address, and nothing else in memory. -/
def Image.ofUnistd (u : Unistd w) (sysNi table : Word w) (nr_lt : u.nrSyscalls < 2 ^ 31)
    (lines_lt : ∀ line ∈ u.lines, line.1 < u.nrSyscalls) (lines_ne : ∀ line ∈ u.lines, line.2 ≠ 0)
    (sysNi_ne : sysNi ≠ 0)
    (table_fits : table.toNat + szreg w * u.nrSyscalls ≤ 2 ^ (8 * szreg w)) : Image w where
  toUnistd := u
  sysNiSyscall := sysNi
  table := table
  mem a := (u.sysCallTable[(a - table).toNat / szreg w]?).getD 0
  nr_lt := nr_lt
  lines_lt := lines_lt
  lines_ne := lines_ne
  sysNi_ne := sysNi_ne
  table_fits := table_fits
  mem_table nr h := by
    have hlt : nr * szreg w < 2 ^ (8 * szreg w) := by
      have hle : szreg w * nr < szreg w * u.nrSyscalls := Nat.mul_lt_mul_of_pos_left h (szreg_pos w)
      rw [Nat.mul_comm]
      omega
    rw [BitVec.add_comm, BitVec.add_sub_cancel, BitVec.toNat_ofNat, Nat.mod_eq_of_lt hlt,
      Nat.mul_div_cancel _ (szreg_pos w), Unistd.sysCallTable_get u h]
    rfl

/-- A table of 288 numbers with lines for `read` and `write`, and the line of this architecture. -/
def readWriteImage : Image .rv64 :=
  .ofUnistd
    { nrSyscalls := 288
      generic := [(63, 0xffffffff80100000), (64, 0xffffffff80100100)]
      nrArchSpecificSyscall := 244
      sysSysriscv := 0xffffffff80000400
      riscvAtomic := false }
    0xffffffff80000200 0xffffffff80200000 (by decide) (by decide) (by decide) (by decide)
    (by decide)

/-- Number 245 has no line: dispatch jumps to address 0. -/
theorem not_landsOnCall_gap :
    ¬ ∀ a7 : Word .rv64, LandsOnCall readWriteImage a7 (checkSyscallNr readWriteImage a7) :=
  fun h => (h 245).2.1 (by decide)

end LowriscLinux.Kernel
