import LowriscLinux.Kernel.PtRegs

/-!
# Register access by a tracer

Model of the register set of `arch/riscv/kernel/ptrace.c` (`riscv_gpr_get`, `riscv_gpr_set`), as
`ptrace` with `PTRACE_GETREGSET` and `PTRACE_SETREGSET` calls it through `riscv_user_regset` (lines
62-71).

## What models what

* `getregs` and `putregs`: lines 17-28, a structure assignment each. The model of `putregs` keeps
  its first argument, of which the code uses where the registers are.
* `riscvGprGet`: lines 30-41. `riscvGprSet`: lines 43-59. A copy that fails leaves the target as it
  is (lines 53-54).
* `stack`: the local variable `regs` of `riscv_gpr_set` (line 49) is not initialised, and
  `user_regset_copyin` writes only the range that is given. What the kernel stack holds in the other
  bytes is an argument of the model.
* `Copyin` and `Copyout`: `user_regset_copyin` and `user_regset_copyout` are code of the generic
  kernel and parameters here. `CopiesIn` and `CopiesOut` say what is relied on, that a successful
  copy moves exactly the range asked for. A buffer of the tracer is of any type, and `content` are
  its bytes.

Where it departs from the source:
* The two buffers `kbuf` and `ubuf`, one of which is null, are one. `regset` is not used by the
  code.
* `pos` and `count` are natural numbers. The generic kernel has checked them against the size of the
  register set, which is what a range of the property says.

Results:
* `riscvGprSet_bytes`: the bytes of the saved registers after a successful write. Outside of the
  range they are those of the kernel stack.
* `riscvGprGet_bytes`: a read returns the bytes of the saved registers.
* **`setWritesOnly_iff`**: a write changes the given range only iff the copy fails or the kernel
  stack already holds the target's registers in every other byte.
* `riscvGprSet_csrs`: even a write of all user registers replaces `sstatus`, `sbadaddr` and `scause`
  by what the kernel stack holds.
-/

namespace LowriscLinux.Kernel

open Lib

variable {w : Xlen} {Buf : Type}

/-- `user_regset_copyin(&pos, &count, &kbuf, &ubuf, data, start_pos, end_pos)`: the result and the
bytes at `data` after it. -/
abbrev Copyin (Buf : Type) :=
  (pos count : Nat) → (src : Buf) → (data : Nat → Byte) → (startPos endPos : Nat) →
    Int × (Nat → Byte)

/-- `user_regset_copyout(&pos, &count, &kbuf, &ubuf, data, start_pos, end_pos)`: the result and
the buffer after it. -/
abbrev Copyout (Buf : Type) :=
  (pos count : Nat) → (dst : Buf) → (data : Nat → Byte) → (startPos endPos : Nat) → Int × Buf

/-- A successful copy-in writes the range asked for and nothing else. -/
def CopiesIn (content : Buf → Nat → Byte) (copyin : Copyin Buf) : Prop :=
  ∀ pos count src data size, pos + count ≤ size → (copyin pos count src data 0 size).1 = 0 →
    (copyin pos count src data 0 size).2 = splice pos count (content src) data

/-- A successful copy-out hands out the range asked for. -/
def CopiesOut (content : Buf → Nat → Byte) (copyout : Copyout Buf) : Prop :=
  ∀ pos count dst data size, pos + count ≤ size → (copyout pos count dst data 0 size).1 = 0 →
    ∀ i < count, content (copyout pos count dst data 0 size).2 i = data (pos + i)

/-- `*uregs = *task_pt_regs(child)`, on the registers at `task_pt_regs(child)`. -/
def getregs (child : PtRegs w) : PtRegs w := child

/-- `*task_pt_regs(child) = *uregs`: the child's registers after it. -/
def putregs (_child uregs : PtRegs w) : PtRegs w := uregs

/-- `riscv_gpr_get`. -/
def riscvGprGet (copyout : Copyout Buf) (target : PtRegs w) (pos count : Nat) (buf : Buf) :
    Int × Buf :=
  let regs := getregs target
  copyout pos count buf regs.bytes 0 (ptSize w)

/-- `riscv_gpr_set`: the result and the target's registers after it. -/
def riscvGprSet (copyin : Copyin Buf) (target : PtRegs w) (pos count : Nat) (buf : Buf)
    (stack : PtRegs w) : Int × PtRegs w :=
  let (ret, regs) := copyin pos count buf stack.bytes 0 (ptSize w)
  if ret ≠ 0 then (ret, target) else (0, putregs target (PtRegs.ofBytes regs))

section Access

variable {content : Buf → Nat → Byte} {copyin : Copyin Buf} {copyout : Copyout Buf}
  {target stack : PtRegs w} {pos count : Nat} {buf : Buf}

/-- The copy-in of a write succeeds. -/
def copied (copyin : Copyin Buf) (pos count : Nat) (buf : Buf) (stack : PtRegs w) : Bool :=
  (copyin pos count buf stack.bytes 0 (ptSize w)).1 = 0

theorem riscvGprSet_failed (h : copied copyin pos count buf stack = false) :
    (riscvGprSet copyin target pos count buf stack).1 ≠ 0 ∧
      (riscvGprSet copyin target pos count buf stack).2 = target := by
  have hne : (copyin pos count buf stack.bytes 0 (ptSize w)).1 ≠ 0 := of_decide_eq_false h
  simp [riscvGprSet, hne]

theorem riscvGprSet_copied (h : copied copyin pos count buf stack) :
    riscvGprSet copyin target pos count buf stack =
      (0, PtRegs.ofBytes (copyin pos count buf stack.bytes 0 (ptSize w)).2) := by
  have hz : (copyin pos count buf stack.bytes 0 (ptSize w)).1 = 0 := of_decide_eq_true h
  simp [riscvGprSet, putregs, hz]

/-- **A write takes every byte outside of its range from the kernel stack.** -/
theorem riscvGprSet_bytes (hin : CopiesIn content copyin) (hr : pos + count ≤ userSize w)
    (h : copied copyin pos count buf stack) {i : Nat} (hi : i < ptSize w) :
    (riscvGprSet copyin target pos count buf stack).2.bytes i =
      splice pos count (content buf) stack.bytes i := by
  rw [riscvGprSet_copied h, PtRegs.bytes_ofBytes _ hi,
    hin pos count buf _ _ (hr.trans (userSize_le w)) (of_decide_eq_true h)]

/-- A read returns the bytes of the target's registers. -/
theorem riscvGprGet_bytes (hout : CopiesOut content copyout) (hr : pos + count ≤ userSize w)
    (h : (riscvGprGet copyout target pos count buf).1 = 0) {i : Nat} (hi : i < count) :
    content (riscvGprGet copyout target pos count buf).2 i = target.bytes (pos + i) :=
  hout pos count buf _ _ (hr.trans (userSize_le w)) h i hi

/-! ## What a write has to leave alone -/

/-- A write by a tracer changes what it was given and nothing else: the bytes of the range become
the given ones, all others stay, the supervisor registers among them, a failed copy changes
nothing, and reads that follow see this. -/
structure SetWritesOnly (content : Buf → Nat → Byte) (copyin : Copyin Buf) (copyout : Copyout Buf)
    (target : PtRegs w) (pos count : Nat) (buf : Buf) (stack : PtRegs w) : Prop where
  bytes : copied copyin pos count buf stack → ∀ i < ptSize w,
    (riscvGprSet copyin target pos count buf stack).2.bytes i =
      splice pos count (content buf) target.bytes i
  csrs : copied copyin pos count buf stack → ∀ s : Slot, ¬s.User →
    (riscvGprSet copyin target pos count buf stack).2.get s = target.get s
  failed : copied copyin pos count buf stack = false →
    (riscvGprSet copyin target pos count buf stack).2 = target
  reads : copied copyin pos count buf stack → ∀ pos' count' dst, pos' + count' ≤ userSize w →
    let target' := (riscvGprSet copyin target pos count buf stack).2
    (riscvGprGet copyout target' pos' count' dst).1 = 0 → ∀ i < count',
      content (riscvGprGet copyout target' pos' count' dst).2 i =
        splice pos count (content buf) target.bytes (pos' + i)

/-- A range of user registers does not reach a supervisor register. -/
theorem outside_csr {s : Slot} (hs : ¬s.User) (hr : pos + count ≤ userSize w) {i : Nat}
    (hi : s.offset w ≤ i) : ¬(pos ≤ i ∧ i < pos + count) := by
  have h32 : 32 ≤ s.index := by
    rw [Slot.index_user] at hs
    omega
  have : userSize w ≤ s.offset w := Nat.mul_le_mul_left _ h32
  omega

/-- When the bytes are as they should be, so is everything else. -/
theorem SetWritesOnly.of_bytes (hout : CopiesOut content copyout) (hr : pos + count ≤ userSize w)
    (h : copied copyin pos count buf stack → ∀ i < ptSize w,
      (riscvGprSet copyin target pos count buf stack).2.bytes i =
        splice pos count (content buf) target.bytes i) :
    SetWritesOnly content copyin copyout target pos count buf stack where
  bytes := h
  csrs hc s hs := by
    have hend : s.offset w + szreg w ≤ ptSize w := by
      have := Nat.mul_le_mul_left (szreg w) (Nat.succ_le_of_lt s.index_lt)
      simpa [Slot.offset, ptSize, Nat.mul_succ] using this
    rw [← PtRegs.ofBytes_bytes (riscvGprSet copyin target pos count buf stack).2]
    refine PtRegs.get_ofBytes fun i hlo hhi => ?_
    rw [h hc i (by omega), splice_outside (outside_csr hs hr hlo)]
  failed hc := (riscvGprSet_failed hc).2
  reads := by
    intro hc pos' count' dst hr' target' hz i hi
    have hlt : pos' + i < ptSize w := by have := userSize_le w; omega
    rw [riscvGprGet_bytes hout hr' hz hi, h hc _ hlt]

/-- **Exactly when a write is confined to its range.** The copy-in fails, or every byte of the
kernel stack outside of the range already is the target's. -/
theorem setWritesOnly_iff (hin : CopiesIn content copyin) (hout : CopiesOut content copyout)
    (target stack : PtRegs w) (pos count : Nat) (buf : Buf) (hr : pos + count ≤ userSize w) :
    SetWritesOnly content copyin copyout target pos count buf stack ↔
      copied copyin pos count buf stack = false ∨
        ∀ i < ptSize w, ¬(pos ≤ i ∧ i < pos + count) → stack.bytes i = target.bytes i := by
  constructor
  · intro h
    by_cases hc : copied copyin pos count buf stack
    · refine Or.inr fun i hi => ?_
      have hspliced := (riscvGprSet_bytes hin hr hc hi).symm.trans (h.bytes hc i hi)
      exact splice_eq_iff.mp hspliced
    · exact Or.inl (eq_false_of_ne_true hc)
  · rintro (hc | hsame)
    · exact .of_bytes hout hr fun hc' => absurd hc' (by simp [hc])
    · refine .of_bytes hout hr fun hc i hi => ?_
      rw [riscvGprSet_bytes hin hr hc hi]
      exact splice_eq_iff.mpr (hsame i hi)

/-- **The supervisor registers always come from the kernel stack**, even when all user registers
are written. -/
theorem riscvGprSet_csrs (hin : CopiesIn content copyin) (hr : pos + count ≤ userSize w)
    (h : copied copyin pos count buf stack) {s : Slot} (hs : ¬s.User) :
    (riscvGprSet copyin target pos count buf stack).2.get s = stack.get s := by
  rw [riscvGprSet_copied h, hin pos count buf _ _ (hr.trans (userSize_le w)) (of_decide_eq_true h)]
  exact PtRegs.get_ofBytes fun i hlo _ => splice_outside (outside_csr hs hr hlo)

end Access

/-! ## Copies to and from kernel memory -/

/-- `user_regset_copyin` from a buffer in kernel memory: `memcpy` of the range. -/
def memcpyIn : Copyin (Nat → Byte) := fun pos count kbuf data startPos endPos =>
  if count = 0 then (0, data)
  else if pos < endPos then
    (0, splice (pos - startPos) (min count (endPos - pos)) kbuf data)
  else (0, data)

/-- `user_regset_copyout` to a buffer in kernel memory. -/
def memcpyOut : Copyout (Nat → Byte) := fun pos count kbuf data startPos endPos =>
  if count = 0 then (0, kbuf)
  else if pos < endPos then
    (0, splice 0 (min count (endPos - pos)) (fun i => data (pos - startPos + i)) kbuf)
  else (0, kbuf)

theorem copiesIn_memcpyIn : CopiesIn (fun kbuf => kbuf) memcpyIn := by
  intro pos count kbuf data size hsize _
  unfold memcpyIn
  by_cases hc : count = 0
  · funext i
    simp [hc, splice]
  · have hp : pos < size := by omega
    have hm : min count (size - pos) = count := by omega
    simp [hc, hp, hm]

theorem copiesOut_memcpyOut : CopiesOut (fun kbuf => kbuf) memcpyOut := by
  intro pos count kbuf data size hsize _ i hi
  have hc : count ≠ 0 := by omega
  have hp : pos < size := by omega
  have hm : min count (size - pos) = count := by omega
  simp [memcpyOut, hc, hp, hm, splice, hi]

/-- Registers that are `v` throughout. -/
def PtRegs.fill (v : Word w) : PtRegs w := ⟨v, fun _ => v, v, v, v⟩

/-- A write over a kernel stack that happens to hold the target's registers is confined. -/
theorem setWritesOnly_same :
    CopiesIn (fun kbuf => kbuf) memcpyIn ∧ CopiesOut (fun kbuf => kbuf) memcpyOut ∧
      8 + 8 ≤ userSize .rv64 ∧
      SetWritesOnly (fun kbuf => kbuf) memcpyIn memcpyOut (PtRegs.fill 0 : PtRegs .rv64) 8 8
        (fun _ => 0x2a) (PtRegs.fill 0) :=
  ⟨copiesIn_memcpyIn, copiesOut_memcpyOut, by decide,
    (setWritesOnly_iff copiesIn_memcpyIn copiesOut_memcpyOut _ _ 8 8 _ (by decide)).mpr
      (Or.inr fun _ _ _ => rfl)⟩

/-- **A write of `pc` alone can leave the target in supervisor mode**: the kernel stack has the
bit `SR_PS` set where the copy of `sstatus` lies, and the write of the first register puts it
into the target's. -/
theorem not_setWritesOnly_stale :
    8 ≤ userSize .rv64 ∧ copied memcpyIn 0 8 (fun _ => 0) (PtRegs.fill 0x100 : PtRegs .rv64) ∧
      ¬SetWritesOnly (fun kbuf => kbuf) memcpyIn memcpyOut (PtRegs.fill 0 : PtRegs .rv64) 0 8
        (fun _ => 0) (PtRegs.fill 0x100) := by
  refine ⟨by decide, rfl, fun h => ?_⟩
  have hkept := h.csrs rfl .sstatus id
  rw [riscvGprSet_csrs copiesIn_memcpyIn (by decide) rfl id] at hkept
  exact absurd hkept (by decide)

end LowriscLinux.Kernel
