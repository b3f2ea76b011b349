import LowriscLinux.Kernel.Sigcontext
import LowriscLinux.Kernel.Signal

/-!
# Signal frames

Model of `arch/riscv/kernel/signal.c`, lines 19 to 155, with everything a signal frame holds: the
bytes of `sc_regs` and `sc_fpregs` and the signal mask. `Signal` has the same functions on the
integer registers alone.

## What models what

* `SigFrame`: `struct rt_sigframe` (lines 14 to 17) and the `struct sigcontext` in it. `siginfo`,
  `uc_flags`, `uc_link` and `uc_stack` are left out: nothing that comes back depends on them.
* `restoreSigcontext`: `restore_sigcontext` (lines 19 to 31). The integer registers are the first
  `sizeof(struct user_regs_struct)` bytes of `struct pt_regs` (`uapi/asm/ptrace.h`, lines 8 to 51),
  so the copy is one of bytes (`PtRegs.copyIn`). A read that fails may have copied any number of
  them (`FrameEnv.regsRead`, `FrameEnv.fpregsRead`).
* `sigreturn`: `rt_sigreturn` (lines 33 to 71), with its ways to `badframe`. The message of
  `badframe` and `restart_block.fn` are left out.
* `setupSigcontext`: `setup_sigcontext` (lines 73 to 84); the integer registers are copied before
  `fstate_save`, the floating-point ones after it.
* `setupFrame`: `setup_rt_frame` (lines 110 to 155), over `setupRtFrame` of `Signal`.
* `Proc`: a task in the kernel, with its `pt_regs`, `thread.fstate`, mask and the unit of its hart.
  `UserCtx` is the same task in user mode, `Proc.resume` the way there through `RESTORE_ALL`, and
  `UserCtx.ecall` the way back through `SAVE_ALL` and `handle_syscall` (`entry.S`, lines 157 to 161).

What `set_current_blocked` makes of a mask, and which accesses to user memory succeed, belong to the
generic kernel and are parameters (`FrameEnv`).

Results:
* `PtRegs.copyIn_user`, `PtRegs.copyIn_csr`: a copy of `sc_regs` over `pt_regs` loads the user
  registers and leaves the other words.
* `setFp_fstateRestore`: the restore of the unit changes `pt_regs` as in `Signal`.
* `sigreturn_privileged`: no frame reaches the privileged words.
* `setupFrame_spec`, `sigreturn_good`: what a frame holds, and what a return with a good one leaves.

The way from `rt_sigreturn` to user mode is in `ReturnPath`.
-/

namespace LowriscLinux.Kernel

open Lib Fp

variable {w : Xlen}

/-! ## Copies into `pt_regs` -/

namespace PtRegs

/-- The first bytes of the structure are overwritten, `n` of them but no more than
`sizeof(struct user_regs_struct)`. -/
def copyIn (regs : PtRegs w) (b : Nat → Byte) (n : Nat) : PtRegs w :=
  ofBytes (splice 0 (min n (userSize w)) b regs.bytes)

variable {regs old : PtRegs w} {b : Nat → Byte}

/-- A copy does not reach the words behind the user registers. -/
theorem copyIn_csr (n : Nat) {s : Slot} (hs : ¬ s.User) : (regs.copyIn b n).get s = regs.get s := by
  have hindex : 32 ≤ s.index := Nat.le_of_not_lt fun h => hs (s.index_user.mpr h)
  have hoffset : userSize w ≤ s.offset w := Nat.mul_le_mul_left _ hindex
  exact get_ofBytes fun i hlo _ => splice_outside (by omega)

/-- A whole copy of another structure's bytes loads its user registers. -/
theorem copyIn_user (hb : ∀ i < userSize w, b i = old.bytes i) {s : Slot} (hs : s.User) :
    (regs.copyIn b (userSize w)).get s = old.get s := by
  have hindex : s.index + 1 ≤ 32 := s.index_user.mp hs
  have hoffset : s.offset w + szreg w ≤ userSize w := Nat.mul_le_mul_left (szreg w) hindex
  refine get_ofBytes fun i _ hhi => ?_
  rw [splice_inside (by omega), Nat.sub_zero, hb i (by omega)]

theorem user_copyIn (hb : ∀ i < userSize w, b i = old.bytes i) :
    (regs.copyIn b (userSize w)).user = old.user := by
  ext1
  · exact copyIn_user hb (s := .sepc) trivial
  · exact funext fun r => copyIn_user hb (s := .x r) trivial

end PtRegs

/-! ## Masks and frames -/

/-- `sigmask(SIGKILL) | sigmask(SIGSTOP)` -/
def unblockable : BitVec 64 := 0x40100

/-- A mask of blocked signals, as a task has one. -/
@[ext]
structure SigMask where
  val : BitVec 64
  blockable : val &&& unblockable = 0

/-- What user memory holds in a `struct rt_sigframe`. -/
structure SigFrame where
  scRegs : Nat → Byte
  scFpregs : Nat → Byte
  ucSigmask : BitVec 64

/-- The generic kernel around the frames. -/
structure FrameEnv (w : Xlen) extends SigEnv w where
  setCurrentBlocked : BitVec 64 → SigMask
  /-- A mask that a task has had can be set again. -/
  keepsMask : ∀ set : SigMask, setCurrentBlocked set.val = set
  /-- The bytes of `sc_regs` and of `sc_fpregs` that are read where the frame cannot be read whole. -/
  regsRead : Word w → Nat
  fpregsRead : Word w → Nat

/-- The current task in the kernel. -/
structure Proc (w : Xlen) where
  hw : Fpu w
  regs : PtRegs w
  fstate : FpRegs
  blocked : SigMask

/-- The current task in user mode. -/
structure UserCtx (w : Xlen) where
  hw : Fpu w
  user : UserRegs w
  fstate : FpRegs
  blocked : SigMask

namespace Proc

variable (p : Proc w)

def thread : Thread w := ⟨p.fstate, p.regs.sstatus⟩

def setFp (r : Fpu w × Thread w) : Proc w :=
  { p with hw := r.1, fstate := r.2.fstate, regs := { p.regs with sstatus := r.2.sstatus } }

/-- `RESTORE_ALL` and `sret`. -/
def resume : UserCtx w where
  hw := (leave (p.hw, p.thread)).1
  user := p.regs.user
  fstate := p.fstate
  blocked := p.blocked

end Proc

/-- The system call of a task: the trap, `SAVE_ALL` and `handle_syscall`. -/
def UserCtx.ecall (u : UserCtx w) (sbadaddr : Word w) : Proc w :=
  let c := enter (u.hw, ⟨u.fstate, 0⟩)
  { hw := c.1
    regs := handleSyscall ⟨u.user.pc, u.user.x, c.2.sstatus, sbadaddr, excSyscall⟩
    fstate := u.fstate
    blocked := u.blocked }

/-! ## Delivery -/

/-- `setup_sigcontext`: the bytes of `sc_regs` and `sc_fpregs`, and the task after it. -/
def setupSigcontext (p : Proc w) : (Nat → Byte) × (Nat → Byte) × Proc w :=
  let p' := p.setFp (fstateSave p.hw p.thread)
  (p.regs.bytes, p'.fstate.bytes, p')

/-- A signal that is delivered: the task, where its frame is and what it holds. -/
structure Delivered (w : Xlen) where
  proc : Proc w
  frame : Word w
  contents : SigFrame

/-- `setup_rt_frame`, which fails with `none`. -/
def setupFrame (env : FrameEnv w) (ksig : Ksignal w) (set : SigMask) (p : Proc w) :
    Option (Delivered w) :=
  let (scRegs, scFpregs, p') := setupSigcontext p
  (setupRtFrame env.toSigEnv ksig p'.regs).map fun delivery =>
    { proc := { p' with regs := delivery.regs }
      frame := delivery.frame
      contents := ⟨scRegs, scFpregs, set.val⟩ }

/-! ## Return -/

/-- `restore_sigcontext`: whether it succeeds, and the task after it. -/
def restoreSigcontext (env : FrameEnv w) (frame : Word w) (sc : SigFrame) (p : Proc w) :
    Bool × Proc w :=
  let ok := env.readsContext frame
  let nregs := if ok then userSize w else env.regsRead frame
  let nfpregs := if ok then fpSize else env.fpregsRead frame
  let p := { p with
    regs := p.regs.copyIn sc.scRegs nregs
    fstate := .ofBytes (splice 0 nfpregs sc.scFpregs p.fstate.bytes) }
  if ok then (true, p.setFp (Fp.fstateRestore p.hw p.thread)) else (false, p)

/-- What `rt_sigreturn` comes back with. `badframe` is a forced `SIGSEGV`. -/
structure Returned (w : Xlen) where
  ret : Word w
  proc : Proc w
  badframe : Bool

/-- `rt_sigreturn`, where `frames` is what user memory holds at an address. -/
def sigreturn (env : FrameEnv w) (frames : Word w → SigFrame) (p : Proc w) : Returned w :=
  let frame := p.regs.x .sp
  if !env.accessOk frame then ⟨0, p, true⟩
  else if !env.readsMask frame then ⟨0, p, true⟩
  else
    let p := { p with blocked := env.setCurrentBlocked (frames frame).ucSigmask }
    let (ok, p) := restoreSigcontext env frame (frames frame) p
    if !ok then ⟨0, p, true⟩
    else if !env.readsAltstack frame then ⟨0, p, true⟩
    else ⟨p.regs.x .a0, p, false⟩

/-- The words of `pt_regs` that are not user registers are those of before, but for what
`fstate_restore` does to the status. -/
structure KeepsPrivileged (regs regs' : PtRegs w) : Prop where
  sbadaddr : regs'.sbadaddr = regs.sbadaddr
  scause : regs'.scause = regs.scause
  sstatus : regs'.sstatus = regs.sstatus ∨ regs'.sstatus = cleanStatus regs.sstatus

theorem KeepsPrivileged.refl (regs : PtRegs w) : KeepsPrivileged regs regs := ⟨rfl, rfl, .inl rfl⟩

section Facts

variable {env : FrameEnv w} {frames : Word w → SigFrame} {p : Proc w}

/-- The restore of the unit changes `pt_regs` as `fstate_restore` does. -/
theorem setFp_fstateRestore :
    (p.setFp (Fp.fstateRestore p.hw p.thread)).regs = Kernel.fstateRestore p.regs := by
  unfold Kernel.fstateRestore
  cases hoff : fsOff p.regs.sstatus with
  | true =>
    have hzero : p.regs.sstatus &&& srFs = 0 := by simpa [fsOff] using hoff
    rw [fstateRestore_of_off _ _ hoff, if_neg (not_not.mpr hzero)]
    rfl
  | false =>
    have hne : p.regs.sstatus &&& srFs ≠ 0 := by simpa [fsOff] using hoff
    rw [fstateRestore_of_on _ _ hoff, if_pos hne]
    show { p.regs with sstatus := cleanStatus p.regs.sstatus } = _
    rw [cleanStatus, srFsClean, BitVec.or_assoc]

theorem fstateRestore_privileged (regs : PtRegs w) :
    KeepsPrivileged regs (Kernel.fstateRestore regs) := by
  unfold Kernel.fstateRestore
  split_ifs
  · exact ⟨rfl, rfl, .inr (by rw [cleanStatus, srFsClean, BitVec.or_assoc])⟩
  · exact .refl regs

theorem restoreSigcontext_privileged (env : FrameEnv w) (frame : Word w) (sc : SigFrame)
    (p : Proc w) : KeepsPrivileged p.regs (restoreSigcontext env frame sc p).2.regs := by
  have hcopy : ∀ n, KeepsPrivileged p.regs (p.regs.copyIn sc.scRegs n) := fun n =>
    ⟨PtRegs.copyIn_csr (s := .sbadaddr) n id, PtRegs.copyIn_csr (s := .scause) n id,
      .inl (PtRegs.copyIn_csr (s := .sstatus) n id)⟩
  unfold restoreSigcontext
  dsimp only
  split_ifs
  · have hsame : (p.regs.copyIn sc.scRegs (userSize w)).sstatus = p.regs.sstatus :=
      PtRegs.copyIn_csr (s := .sstatus) _ id
    have hlast := fstateRestore_privileged (p.regs.copyIn sc.scRegs (userSize w))
    have hstatus := hlast.sstatus
    rw [hsame] at hstatus
    rw [setFp_fstateRestore]
    exact ⟨hlast.sbadaddr.trans (hcopy _).sbadaddr, hlast.scause.trans (hcopy _).scause, hstatus⟩
  · exact hcopy _

/-- **No frame reaches the privileged words**, neither one that is read whole nor one that is not. -/
theorem sigreturn_privileged (env : FrameEnv w) (frames : Word w → SigFrame) (p : Proc w) :
    KeepsPrivileged p.regs (sigreturn env frames p).proc.regs := by
  have hrestore := restoreSigcontext_privileged env (p.regs.x .sp) (frames (p.regs.x .sp))
    { p with blocked := env.setCurrentBlocked (frames (p.regs.x .sp)).ucSigmask }
  unfold sigreturn
  dsimp only
  split_ifs
  · exact .refl _
  · exact .refl _
  · exact hrestore
  · exact hrestore
  · exact hrestore

/-- What a delivery leaves: the unit as it was, and a frame with the registers of before. -/
theorem setupFrame_spec {ksig : Ksignal w} {set : SigMask} {d : Delivered w}
    (hsync : fsDirty p.regs.sstatus = false → p.fstate = p.hw.regs)
    (h : setupFrame env ksig set p = some d) :
    d.contents.scRegs = p.regs.bytes ∧ d.contents.scFpregs = p.hw.regs.bytes ∧
      d.contents.ucSigmask = set.val ∧ d.proc.hw.regs = p.hw.regs ∧
      fsOff d.proc.regs.sstatus = fsOff p.regs.sstatus := by
  unfold setupFrame at h
  obtain ⟨delivery, hsetup, rfl⟩ := Option.map_eq_some_iff.mp h
  have hstatus : delivery.regs.sstatus = (fstateSave p.hw p.thread).2.sstatus := by
    simp only [setupRtFrame] at hsetup
    split_ifs at hsetup
    cases hsetup
    rfl
  refine ⟨rfl, ?_, rfl, fstateSave_regs _ _, ?_⟩
  · exact congrArg FpRegs.bytes (fstateSave_fstate p.hw p.thread hsync)
  · show fsOff delivery.regs.sstatus = _
    rw [hstatus]
    exact fsOff_fstateSave _ _

theorem restoreSigcontext_fst (env : FrameEnv w) (frame : Word w) (sc : SigFrame) (p : Proc w) :
    (restoreSigcontext env frame sc p).1 = env.readsContext frame := by
  unfold restoreSigcontext
  dsimp only
  split_ifs with h
  · exact h.symm
  · exact (Bool.eq_false_iff.mpr h).symm

/-- A whole copy loads the registers of the frame. -/
theorem restoreSigcontext_ok {frame : Word w} (sc : SigFrame) (p : Proc w)
    (h : env.readsContext frame = true) :
    let p' := (restoreSigcontext env frame sc p).2
    p'.regs.user = (p.regs.copyIn sc.scRegs (userSize w)).user ∧
      p'.hw.regs = (if fsOff p.regs.sstatus then p.hw.regs else .ofBytes sc.scFpregs) ∧
      p'.fstate = .ofBytes sc.scFpregs ∧ fsOff p'.regs.sstatus = fsOff p.regs.sstatus ∧
      p'.blocked = p.blocked := by
  have hsame : (p.regs.copyIn sc.scRegs (userSize w)).sstatus = p.regs.sstatus :=
    PtRegs.copyIn_csr (s := .sstatus) _ id
  have hfstate : FpRegs.ofBytes (splice 0 fpSize sc.scFpregs p.fstate.bytes)
      = .ofBytes sc.scFpregs := by
    refine FpRegs.ofBytes_eq_iff.mpr fun i hi => ?_
    unfold fpBytes at hi
    exact splice_inside (by unfold fpSize; omega)
  unfold restoreSigcontext
  simp only [h, if_true]
  refine ⟨rfl, ?_, (fstateRestore_fstate _ _).trans hfstate, ?_, rfl⟩
  · refine (fstateRestore_regs_ite _ _).trans ?_
    show (if fsOff (p.regs.copyIn sc.scRegs (userSize w)).sstatus then _ else _) = _
    rw [hsame]
    exact congrArg (fun r => if fsOff p.regs.sstatus then p.hw.regs else r) hfstate
  · exact (fsOff_fstateRestore _ _).trans (congrArg fsOff hsame)

/-- What a return that finds a good frame leaves. -/
theorem sigreturn_good (hgood : (sigreturn env frames p).badframe = false) :
    let sc := frames (p.regs.x .sp)
    let back := sigreturn env frames p
    back.ret = back.proc.regs.x .a0 ∧
      back.proc.regs.user = (p.regs.copyIn sc.scRegs (userSize w)).user ∧
      back.proc.hw.regs = (if fsOff p.regs.sstatus then p.hw.regs else .ofBytes sc.scFpregs) ∧
      back.proc.fstate = .ofBytes sc.scFpregs ∧
      fsOff back.proc.regs.sstatus = fsOff p.regs.sstatus ∧
      back.proc.blocked = env.setCurrentBlocked sc.ucSigmask := by
  unfold sigreturn at hgood ⊢
  dsimp only at hgood ⊢
  rw [restoreSigcontext_fst] at hgood ⊢
  split_ifs at hgood with h1 h2 h3 h4
  rw [if_neg h1, if_neg h2, if_neg h3, if_neg h4]
  obtain ⟨huser, hregs, hfstate, hoff, hblocked⟩ := restoreSigcontext_ok (frames (p.regs.x .sp))
    { p with blocked := env.setCurrentBlocked (frames (p.regs.x .sp)).ucSigmask }
    (show env.readsContext (p.regs.x .sp) = true by simpa using h3)
  exact ⟨rfl, huser, hregs, hfstate, hoff, hblocked⟩

end Facts

end LowriscLinux.Kernel
