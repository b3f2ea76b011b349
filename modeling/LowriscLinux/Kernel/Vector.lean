import LowriscLinux.Kernel.Syscall

/-!
# Exception dispatch

Model of the jump of `handle_exception` in `arch/riscv/kernel/entry.S` to the handler of a trap
(lines 130-155), and of `excp_vect_table` (lines 386-397), the table of the handlers by cause.

## What models what

* `excpVectTable`: the table. The entry of `handle_syscall` is `PTR 0` (line 395). It has
  `do_trap_break` at number 9 (line 396), where `EXC_BREAKPOINT` is 3 (`asm/csr.h`, line 36).
* `handleExceptionJump`: from `bge s4, zero, 1f` on (line 132). An interrupt goes to `do_IRQ` with
  the cause without its top bit (lines 135-138), a system call to `handle_syscall` (lines 141 and
  142). Any other cause is scaled to an offset and added to the address of the table (lines
  145-149), and one unsigned comparison with the end of the table (line 151) decides whether the
  handler is loaded from there. Both the shift and the addition wrap.
* `Vectors`: the addresses that this uses, and the memory that the handler is loaded from.
* `handlerOf`: the handler that a cause is meant for, which is that of `asm/csr.h` (lines 34-39) and
  of the names of the handlers; all causes without a name there go to `do_trap_unknown`.
* `Dispatched`: the causes that come out right, by their number and the address of the table.

Results:
* `reaches_interrupt`: an interrupt reaches `do_IRQ` with its number.
* `reaches_entry_iff`: a cause that is scaled to an entry of the table reaches that entry.
* **`reaches_iff`**: a trap reaches its handler through the table, iff its cause is not 3 or 9 and,
  from 10 on, does not wrap to an address below the end of the table that is not an entry of
  `do_trap_unknown`.
-/

namespace LowriscLinux.Kernel

variable {w : Xlen}

/-- `EXC_INST_MISALIGNED`. -/
def excInstMisaligned : Word w := 0

/-- The cause of an illegal instruction, which `csr.h` has no name for. -/
def excInstIllegal : Word w := 2

/-- `EXC_BREAKPOINT`. -/
def excBreakpoint : Word w := 3

/-- Where `handle_exception` goes. -/
inductive Handler
  | doIRQ
  | handleSyscall
  | doTrapInsnMisaligned
  | doPageFault
  | doTrapInsnIllegal
  | doTrapUnknown
  | doTrapBreak
  deriving DecidableEq, Repr

/-- `excp_vect_table`. The entry of `handle_syscall` is `PTR 0`. -/
def excpVectTable : List (Option Handler) :=
  [some .doTrapInsnMisaligned, some .doPageFault, some .doTrapInsnIllegal, some .doTrapUnknown,
    some .doTrapUnknown, some .doPageFault, some .doTrapUnknown, some .doPageFault, none,
    some .doTrapBreak]

/-- The addresses of a kernel image that dispatch uses, and its memory. -/
structure Vectors (w : Xlen) where
  addr : Handler → Word w
  /-- The address of `excp_vect_table`. -/
  table : Word w
  /-- The words of memory. -/
  mem : Word w → Word w
  addr_inj : ∀ h h', addr h = addr h' → h = h'
  /-- No function is at address 0. -/
  addr_ne : ∀ h, addr h ≠ 0
  table_fits : table.toNat + szreg w * excpVectTable.length < 2 ^ (8 * szreg w)
  mem_table : ∀ i e, excpVectTable[i]? = some e →
    mem (table + BitVec.ofNat _ (i * szreg w)) = (e.map addr).getD 0

/-- `excp_vect_table_end`. -/
def Vectors.tableEnd (k : Vectors w) : Word w :=
  k.table + BitVec.ofNat _ (szreg w * excpVectTable.length)

/-- Where `handle_exception` jumps, with which arguments, and the addresses it has loaded the
handler from. -/
structure Jump (w : Xlen) where
  target : Word w
  a0 : Word w
  a1 : Word w
  loads : List (Word w)

/-- `handle_exception`, from `bge s4, zero, 1f` on. -/
def handleExceptionJump (k : Vectors w) (s4 sp a0 a1 : Word w) : Jump w :=
  if ¬ 0 ≤ s4.toInt then ⟨k.addr .doIRQ, (s4 <<< 1) >>> 1, sp, []⟩
  -- `beq s4, t0, handle_syscall`
  else if s4 = excSyscall then ⟨k.addr .handleSyscall, a0, a1, []⟩
  else
    let t0 := s4 <<< lgptr w
    let t1 := k.table
    let t2 := k.tableEnd
    let t0 := t1 + t0
    -- `bgeu t0, t2, 1f`
    if t2 ≤ t0 then ⟨k.addr .doTrapUnknown, sp, a1, []⟩
    else ⟨k.mem t0, sp, a1, [t0]⟩

/-- The handler that a cause is meant for. -/
def handlerOf (scause : Word w) : Handler :=
  if scause.msb then .doIRQ
  else if scause = excSyscall then .handleSyscall
  else if scause = excInstMisaligned then .doTrapInsnMisaligned
  else if scause = excInstAccess ∨ scause = excLoadAccess ∨ scause = excStoreAccess then
    .doPageFault
  else if scause = excBreakpoint then .doTrapBreak
  else if scause = excInstIllegal then .doTrapInsnIllegal
  else .doTrapUnknown

/-- The trap reaches its handler, an interrupt with its number, and the handler is loaded from the
table only. -/
def Reaches (k : Vectors w) (scause : Word w) (j : Jump w) : Prop :=
  j.target = k.addr (handlerOf scause) ∧
    (scause.msb = true → j.a0 = scause - BitVec.intMin _) ∧
    ∀ a ∈ j.loads, ∃ i < excpVectTable.length, a = k.table + BitVec.ofNat _ (i * szreg w)

/-- The causes that `handle_exception` dispatches right: interrupts, those below 9 but for 3, and
those from 10 on that end beyond the table or, after wrapping, at an entry of
`do_trap_unknown`. -/
def Dispatched (k : Vectors w) (scause : Word w) : Prop :=
  scause.msb = true ∨ scause.toNat ∈ [0, 1, 2, 4, 5, 6, 7, 8] ∨
    10 ≤ scause.toNat ∧ (k.tableEnd ≤ k.table + scause <<< lgptr w ∨
      ∃ i ∈ [3, 4, 6], scause <<< lgptr w = BitVec.ofNat _ (i * szreg w))

section Dispatch

variable {k : Vectors w} {s4 sp a0 a1 : Word w}

theorem toInt_nonneg_iff : 0 ≤ s4.toInt ↔ s4.msb = false := by
  rw [BitVec.msb_eq_toInt, decide_eq_false_iff_not, Int.not_lt]

/-- An interrupt reaches `do_IRQ` with its number. -/
theorem reaches_interrupt (h : s4.msb = true) :
    Reaches k s4 (handleExceptionJump k s4 sp a0 a1) := by
  have hneg : ¬ 0 ≤ s4.toInt := fun h0 => by simp [toInt_nonneg_iff.mp h0] at h
  have hshift : (s4 <<< 1) >>> 1 = s4 - BitVec.intMin _ := by
    rw [BitVec.msb_eq_decide, decide_eq_true_iff] at h
    have hlt := s4.isLt
    apply BitVec.eq_of_toNat_eq
    rw [BitVec.toNat_ushiftRight, BitVec.toNat_shiftLeft, BitVec.toNat_sub, BitVec.toNat_intMin,
      Nat.shiftLeft_eq, Nat.shiftRight_eq_div_pow]
    cases w <;> simp only [szreg] at * <;> omega
  rw [handleExceptionJump, if_pos hneg]
  refine ⟨?_, fun _ => hshift, by simp⟩
  rw [handlerOf, if_pos h]

theorem reaches_syscall (h : s4 = excSyscall) :
    Reaches k s4 (handleExceptionJump k s4 sp a0 a1) := by
  have hmsb : s4.msb = false := by
    subst h
    cases w <;> decide
  rw [handleExceptionJump, if_neg (not_not.mpr (toInt_nonneg_iff.mpr hmsb)), if_pos h]
  refine ⟨?_, fun hmsb' => by simp [hmsb] at hmsb', by simp⟩
  rw [handlerOf, hmsb, if_neg (by decide), if_pos h]

/-! ## The table -/

theorem Vectors.toNat_tableEnd (k : Vectors w) :
    k.tableEnd.toNat = k.table.toNat + szreg w * 10 := by
  have hfits := k.table_fits
  have hlen : excpVectTable.length = 10 := rfl
  rw [hlen] at hfits
  rw [tableEnd, hlen, BitVec.toNat_add, BitVec.toNat_ofNat,
    Nat.mod_eq_of_lt (by omega : szreg w * 10 < _), Nat.mod_eq_of_lt hfits]

theorem Vectors.toNat_entry (k : Vectors w) {i : Nat} (hi : i < 10) :
    (k.table + BitVec.ofNat _ (i * szreg w)).toNat = k.table.toNat + i * szreg w := by
  have hfits := k.table_fits
  have hlen : excpVectTable.length = 10 := rfl
  have hle : i * szreg w ≤ szreg w * 10 := by
    rw [Nat.mul_comm (szreg w)]
    exact Nat.mul_le_mul_right _ hi.le
  rw [hlen] at hfits
  rw [BitVec.toNat_add, BitVec.toNat_ofNat, Nat.mod_eq_of_lt (by omega : i * szreg w < _),
    Nat.mod_eq_of_lt (by omega)]

theorem Vectors.entry_lt_tableEnd (k : Vectors w) {i : Nat} (hi : i < 10) :
    ¬ k.tableEnd ≤ k.table + BitVec.ofNat _ (i * szreg w) := by
  have hlt : i * szreg w < szreg w * 10 := by
    rw [Nat.mul_comm (szreg w)]
    exact Nat.mul_lt_mul_of_pos_right hi (szreg_pos w)
  rw [BitVec.le_def, k.toNat_tableEnd, k.toNat_entry hi]
  omega

/-- An exception that is no system call and ends at an entry of the table goes there. -/
theorem handleExceptionJump_entry {i : Nat} (hmsb : s4.msb = false) (hcall : s4 ≠ excSyscall)
    (hi : i < 10) (hoff : s4 <<< lgptr w = BitVec.ofNat _ (i * szreg w)) :
    handleExceptionJump k s4 sp a0 a1 =
      ⟨k.mem (k.table + BitVec.ofNat _ (i * szreg w)), sp, a1,
        [k.table + BitVec.ofNat _ (i * szreg w)]⟩ := by
  unfold handleExceptionJump
  rw [if_neg (not_not.mpr (toInt_nonneg_iff.mpr hmsb)), if_neg hcall, hoff,
    if_neg (k.entry_lt_tableEnd hi)]

theorem reaches_entry_iff {i : Nat} (hmsb : s4.msb = false) (hcall : s4 ≠ excSyscall)
    (hi : i < 10) (hoff : s4 <<< lgptr w = BitVec.ofNat _ (i * szreg w)) :
    Reaches k s4 (handleExceptionJump k s4 sp a0 a1) ↔
      excpVectTable[i]? = some (some (handlerOf s4)) := by
  rw [handleExceptionJump_entry hmsb hcall hi hoff]
  have hentry : excpVectTable[i]? = some excpVectTable[i] := List.getElem?_eq_getElem hi
  have hmem := k.mem_table i _ hentry
  have hloads : ∀ a ∈ [k.table + BitVec.ofNat _ (i * szreg w)],
      ∃ i < excpVectTable.length, a = k.table + BitVec.ofNat _ (i * szreg w) :=
    fun a ha => ⟨i, hi, List.mem_singleton.mp ha⟩
  rw [hentry, Option.some.injEq]
  constructor
  · rintro ⟨htarget, -, -⟩
    rw [hmem] at htarget
    cases he : excpVectTable[i] with
    | none =>
      rw [he] at htarget
      exact absurd htarget.symm (k.addr_ne _)
    | some h =>
      rw [he] at htarget
      exact congrArg some (k.addr_inj _ _ htarget)
  · intro he
    refine ⟨?_, fun h => by simp [hmsb] at h, hloads⟩
    rw [hmem, he]
    rfl

/-- Beyond the end of the table the handler is `do_trap_unknown`, which is loaded from nowhere. -/
theorem handleExceptionJump_beyond (hmsb : s4.msb = false) (hcall : s4 ≠ excSyscall)
    (hend : k.tableEnd ≤ k.table + s4 <<< lgptr w) :
    handleExceptionJump k s4 sp a0 a1 = ⟨k.addr .doTrapUnknown, sp, a1, []⟩ := by
  unfold handleExceptionJump
  rw [if_neg (not_not.mpr (toInt_nonneg_iff.mpr hmsb)), if_neg hcall, if_pos hend]

/-- The handler that is loaded from no entry of the table is loaded from outside. -/
theorem not_reaches_outside (hmsb : s4.msb = false) (hcall : s4 ≠ excSyscall)
    (hend : ¬ k.tableEnd ≤ k.table + s4 <<< lgptr w)
    (hout : ∀ i < 10, s4 <<< lgptr w ≠ BitVec.ofNat _ (i * szreg w)) :
    ¬ Reaches k s4 (handleExceptionJump k s4 sp a0 a1) := by
  unfold handleExceptionJump
  rw [if_neg (not_not.mpr (toInt_nonneg_iff.mpr hmsb)), if_neg hcall, if_neg hend]
  rintro ⟨-, -, hloads⟩
  obtain ⟨i, hi, heq⟩ := hloads _ (List.mem_singleton.mpr rfl)
  exact hout i hi ((BitVec.add_right_inj k.table).mp heq)

/-! ## The causes -/

theorem toNat_excSyscall : (excSyscall : Word w).toNat = 8 := by cases w <;> decide

/-- Which of the small causes the table has at their number. -/
theorem excpVectTable_handlerOf : ∀ i < 10, i ≠ 8 →
    (excpVectTable[i]? = some (some (handlerOf (BitVec.ofNat (8 * szreg w) i))) ↔
      i ∈ [0, 1, 2, 4, 5, 6, 7]) := by
  cases w <;> decide

theorem handlerOf_large (hmsb : s4.msb = false) (h : 10 ≤ s4.toNat) :
    handlerOf s4 = .doTrapUnknown := by
  have hne : ∀ i < 10, s4 ≠ BitVec.ofNat _ i := by
    rintro i hi rfl
    have hle := Nat.mod_le i (2 ^ (8 * szreg w))
    rw [BitVec.toNat_ofNat] at h
    omega
  have hcauses : s4 ≠ excSyscall ∧ s4 ≠ excInstMisaligned ∧ s4 ≠ excInstAccess ∧
      s4 ≠ excLoadAccess ∧ s4 ≠ excStoreAccess ∧ s4 ≠ excBreakpoint ∧ s4 ≠ excInstIllegal :=
    ⟨hne 8 (by decide), hne 0 (by decide), hne 1 (by decide), hne 5 (by decide),
      hne 7 (by decide), hne 3 (by decide), hne 2 (by decide)⟩
  simp [handlerOf, hmsb, hcauses]

/-- **A trap reaches its handler iff dispatch is right for its cause.** -/
theorem reaches_iff (k : Vectors w) (scause sp a0 a1 : Word w) :
    Reaches k scause (handleExceptionJump k scause sp a0 a1) ↔ Dispatched k scause := by
  unfold Dispatched
  by_cases hmsb : scause.msb = true
  · exact iff_of_true (reaches_interrupt hmsb) (Or.inl hmsb)
  rw [or_iff_right hmsb]
  have hmsb : scause.msb = false := Bool.eq_false_iff.mpr hmsb
  by_cases hcall : scause = excSyscall
  · refine iff_of_true (reaches_syscall hcall) (Or.inl ?_)
    rw [hcall, toNat_excSyscall]
    decide
  rcases Nat.lt_or_ge scause.toNat 10 with hlt | hge
  · have hne : scause.toNat ≠ 8 := fun h =>
      hcall (BitVec.eq_of_toNat_eq (h.trans toNat_excSyscall.symm))
    have htable := excpVectTable_handlerOf (w := w) scause.toNat hlt hne
    rw [BitVec.ofNat_toNat, BitVec.setWidth_eq] at htable
    rw [reaches_entry_iff hmsb hcall hlt (shiftLeft_lgptr scause), htable,
      or_iff_left fun h => Nat.not_le.mpr hlt h.1]
    simp only [List.mem_cons, List.not_mem_nil, or_false]
    omega
  · have hsmall : scause.toNat ∉ [0, 1, 2, 4, 5, 6, 7, 8] := by
      simp only [List.mem_cons, List.not_mem_nil, or_false]
      omega
    rw [or_iff_right hsmall, and_iff_right hge]
    by_cases hend : k.tableEnd ≤ k.table + scause <<< lgptr w
    · rw [handleExceptionJump_beyond hmsb hcall hend]
      refine iff_of_true ⟨?_, fun h => by simp [hmsb] at h, by simp⟩ (Or.inl hend)
      rw [handlerOf_large hmsb hge]
    rw [or_iff_right hend]
    by_cases hout : ∀ i < 10, scause <<< lgptr w ≠ BitVec.ofNat _ (i * szreg w)
    · refine iff_of_false (not_reaches_outside hmsb hcall hend hout) ?_
      rintro ⟨i, hi, hoff⟩
      have all : ∀ i ∈ [3, 4, 6], i < 10 := by decide
      exact hout i (all i hi) hoff
    obtain ⟨i, hi, hoff⟩ : ∃ i < 10, scause <<< lgptr w = BitVec.ofNat _ (i * szreg w) :=
      by_contra fun hno => hout fun i hi hoff => hno ⟨i, hi, hoff⟩
    have htable : ∀ i < 10, (excpVectTable[i]? = some (some .doTrapUnknown) ↔ i ∈ [3, 4, 6]) := by
      decide
    have hinj : ∀ j < 10, BitVec.ofNat (8 * szreg w) (i * szreg w) =
        BitVec.ofNat _ (j * szreg w) → i = j := by
      intro j hj heq
      have htoNat := congrArg (fun v => (k.table + v).toNat) heq
      simp only [k.toNat_entry hi, k.toNat_entry hj] at htoNat
      exact Nat.eq_of_mul_eq_mul_right (szreg_pos w) (Nat.add_left_cancel htoNat)
    rw [reaches_entry_iff hmsb hcall hi hoff, handlerOf_large hmsb hge, htable i hi]
    constructor
    · exact fun h => ⟨i, h, hoff⟩
    · rintro ⟨j, hj, hoff'⟩
      have all : ∀ i ∈ [3, 4, 6], i < 10 := by decide
      exact hinj j (all j hj) (hoff.symm.trans hoff') ▸ hj

end Dispatch

/-! ## A breakpoint -/

/-- Handlers at multiples of 256. -/
def smallAddr : Handler → Word .rv64
  | .doIRQ => 0xffffffff80000100
  | .handleSyscall => 0xffffffff80000200
  | .doTrapInsnMisaligned => 0xffffffff80000300
  | .doPageFault => 0xffffffff80000400
  | .doTrapInsnIllegal => 0xffffffff80000500
  | .doTrapUnknown => 0xffffffff80000600
  | .doTrapBreak => 0xffffffff80000700

/-- The table at an address, and nothing else in memory. -/
def Vectors.ofTable (addr : Handler → Word w) (table : Word w)
    (addr_inj : ∀ h h', addr h = addr h' → h = h') (addr_ne : ∀ h, addr h ≠ 0)
    (table_fits : table.toNat + szreg w * excpVectTable.length < 2 ^ (8 * szreg w)) :
    Vectors w where
  addr := addr
  table := table
  mem a := ((excpVectTable[(a - table).toNat / szreg w]?).bind fun e => e.map addr).getD 0
  addr_inj := addr_inj
  addr_ne := addr_ne
  table_fits := table_fits
  mem_table i e h := by
    have hi : i < excpVectTable.length := (List.getElem?_eq_some_iff.mp h).1
    have hle : i * szreg w ≤ szreg w * excpVectTable.length := by
      rw [Nat.mul_comm (szreg w)]
      exact Nat.mul_le_mul_right _ hi.le
    rw [BitVec.add_comm, BitVec.add_sub_cancel, BitVec.toNat_ofNat, Nat.mod_eq_of_lt (by omega),
      Nat.mul_div_cancel _ (szreg_pos w), h, Option.bind_some]

def smallVectors : Vectors .rv64 :=
  .ofTable smallAddr 0xffffffff80001000 (fun h h' => by cases h <;> cases h' <;> decide)
    (fun h => by cases h <;> decide) (by decide)

/-- **`sbreak` reaches `do_trap_unknown`.** -/
theorem not_reaches_breakpoint :
    ¬ ∀ scause sp a0 a1, Reaches smallVectors scause
      (handleExceptionJump smallVectors scause sp a0 a1) :=
  fun h => absurd (h excBreakpoint 0 0 0).1 (by decide)

end LowriscLinux.Kernel
