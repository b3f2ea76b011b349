import LowriscLinux.Kernel.PtRegs

/-!
# Signals and restarted system calls

Model of `arch/riscv/kernel/signal.c`, and of what `arch/riscv/kernel/entry.S` does to the saved
registers around a system call.

## What models what

* `handleSyscall`: `entry.S`, lines 160 and 161, which advance `sepc`. `retFromSyscall`: line 184,
  which stores the result in `a0`. `syscall` is a call that changes no saved register itself.
* `getSigframe`: `signal.c`, lines 86-107. `setupRtFrame`: lines 110-155. Any failing write to the
  frame fails the whole (line 128), so the writes are one answer, `SigEnv.writes`.
* `handleSignalRestart`: the switch of `handle_signal`, lines 163-181, with its fallthrough.
  `doSignalRestart`: that of `do_signal`, lines 200-213. `handleSignal` and `doSignal` are the two
  functions around them.
* `rtSigreturn`: lines 33-71, where `restore_sigcontext` reads the registers before it knows whether
  all of them can be read. `fstateRestore` is the effect of line 29 on the saved status.
* `SigEnv`: the generic kernel (`sigsp`, `on_sig_stack`, `access_ok`, the copies from and to user
  memory) and the layout of `struct rt_sigframe`. User memory is what `rt_sigreturn` reads at an
  address.
* `errno`, `erestartsys` and the like: the numbers of the generic headers.

Where it departs from the source:
* The system call is one that leaves the saved registers alone; `restart_block` and
  `set_current_blocked` have no effect on them.
* `get_signal` is a parameter: what it finds is an argument of `doSignal`.

Results:
* `doSignalRestart_of_code` / `handleSignalRestart_of_code`: the ways to restart move `sepc` back.
* `rtSigreturn_setupRtFrame`: a frame that the handler leaves alone brings back the registers it was
  made from.
* **`restarted_regs`**: at a restarted system call the user context is the original one, but for
  `a0`, which holds the error code that asked for the restart.
* **`sameCall_iff`**: a restarted call is the same call iff the first argument already was that
  code: `pt_regs` has no second copy of `a0`.

Out of scope: signal masks, alternate signal stacks (`Kernel/AltStack.lean`), the floating-point
registers (`Kernel/Sigcontext.lean`) and `siginfo`.
-/

namespace LowriscLinux.Kernel

variable {w : Xlen}

/-! ## Error codes -/

/-- `-n`, as a system call returns it. -/
def errno (n : Nat) : Word w := -BitVec.ofNat _ n

theorem errno_eq_iff {m n : Nat} (hm : m < 4096) (hn : n < 4096) :
    (errno m : Word w) = errno n ↔ m = n := by
  have hbig : 4096 < 2 ^ (8 * szreg w) := by cases w <;> decide
  simp only [errno, BitVec.neg_inj]
  constructor
  · intro h
    have hval := congrArg BitVec.toNat h
    simpa [Nat.mod_eq_of_lt (hm.trans hbig), Nat.mod_eq_of_lt (hn.trans hbig)] using hval
  · rintro rfl
    rfl

/-- `-EINTR`. -/
def eintr : Word w := errno 4

/-- `-ERESTARTSYS`. -/
def erestartsys : Word w := errno 512

/-- `-ERESTARTNOINTR`. -/
def erestartnointr : Word w := errno 513

/-- `-ERESTARTNOHAND`. -/
def erestartnohand : Word w := errno 514

/-- `-ERESTART_RESTARTBLOCK`. -/
def erestartRestartblock : Word w := errno 516

/-- The code asks for the system call to be run again. -/
def isRestart (code : Word w) : Bool :=
  code = erestartsys || code = erestartnointr || code = erestartnohand ||
    code = erestartRestartblock

/-- `__NR_restart_syscall`. -/
def nrRestartSyscall : Word w := 128

/-! ## Saved registers -/

/-- `regs->r = v`. -/
def PtRegs.setX (regs : PtRegs w) (r : Reg) (v : Word w) : PtRegs w :=
  { regs with x := fun r' => if r' = r then v else regs.x r' }

/-- `regs->sepc -= 0x4`. -/
def PtRegs.moveBack (regs : PtRegs w) : PtRegs w := { regs with sepc := regs.sepc - 0x4 }

@[simp] theorem PtRegs.setX_x (regs : PtRegs w) (r r' : Reg) (v : Word w) :
    (regs.setX r v).x r' = if r' = r then v else regs.x r' := rfl

@[simp] theorem PtRegs.setX_sepc (regs : PtRegs w) (r : Reg) (v : Word w) :
    (regs.setX r v).sepc = regs.sepc := rfl

@[simp] theorem PtRegs.setX_scause (regs : PtRegs w) (r : Reg) (v : Word w) :
    (regs.setX r v).scause = regs.scause := rfl

@[simp] theorem PtRegs.moveBack_x (regs : PtRegs w) : regs.moveBack.x = regs.x := rfl

@[simp] theorem PtRegs.moveBack_sepc (regs : PtRegs w) : regs.moveBack.sepc = regs.sepc - 0x4 := rfl

@[simp] theorem PtRegs.moveBack_scause (regs : PtRegs w) : regs.moveBack.scause = regs.scause := rfl

/-- `struct user_regs_struct`, what a signal frame holds of the registers. -/
@[ext]
structure UserRegs (w : Xlen) where
  pc : Word w
  x : Reg → Word w

def PtRegs.user (regs : PtRegs w) : UserRegs w := ⟨regs.sepc, regs.x⟩

def PtRegs.setUser (regs : PtRegs w) (user : UserRegs w) : PtRegs w :=
  { regs with sepc := user.pc, x := user.x }

/-- `handle_syscall`: `sepc` points behind the system call. -/
def handleSyscall (regs : PtRegs w) : PtRegs w := { regs with sepc := regs.sepc + 0x4 }

/-- `ret_from_syscall`: the result goes to `a0`. -/
def retFromSyscall (regs : PtRegs w) (ret : Word w) : PtRegs w := regs.setX .a0 ret

/-- A system call that changes no saved register itself. -/
def syscall (regs : PtRegs w) (ret : Word w) : PtRegs w := retFromSyscall (handleSyscall regs) ret

@[simp] theorem retFromSyscall_x (regs : PtRegs w) (ret : Word w) (r : Reg) :
    (retFromSyscall regs ret).x r = if r = .a0 then ret else regs.x r := rfl

@[simp] theorem retFromSyscall_sepc (regs : PtRegs w) (ret : Word w) :
    (retFromSyscall regs ret).sepc = regs.sepc := rfl

@[simp] theorem syscall_x (regs : PtRegs w) (ret : Word w) (r : Reg) :
    (syscall regs ret).x r = if r = .a0 then ret else regs.x r := rfl

@[simp] theorem syscall_sepc (regs : PtRegs w) (ret : Word w) :
    (syscall regs ret).sepc = regs.sepc + 0x4 := rfl

@[simp] theorem syscall_scause (regs : PtRegs w) (ret : Word w) :
    (syscall regs ret).scause = regs.scause := rfl

/-! ## Delivery -/

/-- What is used of a `struct ksignal`. -/
structure Ksignal (w : Xlen) where
  sig : Word w
  saHandler : Word w
  /-- `sa_flags & SA_RESTART` -/
  saRestart : Bool
  deriving DecidableEq

/-- The generic kernel and the state of user memory around the signal code. -/
structure SigEnv (w : Xlen) where
  onSigStack : Word w → Bool
  sigsp : Word w → Ksignal w → Word w
  /-- `sizeof(struct rt_sigframe)` -/
  frameSize : Word w
  /-- The offsets of `info` and `uc` in the frame. -/
  infoOffset : Word w
  ucOffset : Word w
  accessOk : Word w → Bool
  /-- Every write to the frame succeeds. -/
  writes : Word w → Bool
  /-- The signal mask of the frame is read. -/
  readsMask : Word w → Bool
  /-- The registers of the frame are read. -/
  readsContext : Word w → Bool
  /-- What a read that fails on the way leaves in the registers. -/
  partialRead : UserRegs w → UserRegs w
  /-- The alternate stack of the frame is read. -/
  readsAltstack : Word w → Bool
  /-- `VDSO_SYMBOL(current->mm->context.vdso, rt_sigreturn)` -/
  vdsoRtSigreturn : Word w

variable (env : SigEnv w)

/-- `get_sigframe`. -/
def getSigframe (ksig : Ksignal w) (regs : PtRegs w) : Word w :=
  let sp := regs.x .sp
  if env.onSigStack sp && !env.onSigStack (sp - env.frameSize) then -1
  else (env.sigsp sp ksig - env.frameSize) &&& ~~~0xf

/-- A signal that is delivered: the registers to enter the handler with, where the frame is and
what it holds. -/
structure Delivery (w : Xlen) where
  regs : PtRegs w
  frame : Word w
  scRegs : UserRegs w

/-- `setup_rt_frame`, which fails with `none`. -/
def setupRtFrame (ksig : Ksignal w) (regs : PtRegs w) : Option (Delivery w) :=
  let frame := getSigframe env ksig regs
  if !env.accessOk frame then none
  else if !env.writes frame then none
  else
    some
      { regs :=
          { ((((regs.setX .ra env.vdsoRtSigreturn).setX .sp frame).setX .a0 ksig.sig).setX .a1
              (frame + env.infoOffset)).setX .a2 (frame + env.ucOffset) with
            sepc := ksig.saHandler }
        frame := frame
        scRegs := regs.user }

/-- The restart switch of `handle_signal`. -/
def handleSignalRestart (ksig : Ksignal w) (regs : PtRegs w) : PtRegs w :=
  if regs.scause = excSyscall then
    if regs.x .a0 = erestartRestartblock ∨ regs.x .a0 = erestartnohand then regs.setX .a0 eintr
    else if regs.x .a0 = erestartsys ∧ !ksig.saRestart then regs.setX .a0 eintr
    else if regs.x .a0 = erestartsys ∨ regs.x .a0 = erestartnointr then regs.moveBack
    else regs
  else regs

/-- `handle_signal`: the registers after it, and the frame if there is one. -/
def handleSignal (ksig : Ksignal w) (regs : PtRegs w) : PtRegs w × Option (Delivery w) :=
  let regs := handleSignalRestart ksig regs
  match setupRtFrame env ksig regs with
  | none => (regs, none)
  | some delivery => (delivery.regs, some delivery)

/-- The restart switch of `do_signal`, when there is no signal to deliver. -/
def doSignalRestart (regs : PtRegs w) : PtRegs w :=
  if regs.scause = excSyscall then
    if regs.x .a0 = erestartnohand ∨ regs.x .a0 = erestartsys ∨ regs.x .a0 = erestartnointr then
      regs.moveBack
    else if regs.x .a0 = erestartRestartblock then (regs.setX .a7 nrRestartSyscall).moveBack
    else regs
  else regs

/-- `do_signal`, on what `get_signal` finds. -/
def doSignal (getSignal : Option (Ksignal w)) (regs : PtRegs w) : PtRegs w × Option (Delivery w) :=
  match getSignal with
  | some ksig => handleSignal env ksig regs
  | none => (doSignalRestart regs, none)

/-! ## Return -/

/-- `fstate_restore`: its effect on the saved status. -/
def fstateRestore (regs : PtRegs w) : PtRegs w :=
  if regs.sstatus &&& srFs ≠ 0 then
    { regs with sstatus := regs.sstatus ||| (regs.sstatus &&& ~~~srFs) ||| 0x4000 }
  else regs

/-- What `rt_sigreturn` comes back with. `badframe` is a forced `SIGSEGV`. -/
structure Sigreturn (w : Xlen) where
  ret : Word w
  regs : PtRegs w
  badframe : Bool

/-- `rt_sigreturn`, where `scRegs` are the registers that user memory holds in a frame at an
address. -/
def rtSigreturn (scRegs : Word w → UserRegs w) (regs : PtRegs w) : Sigreturn w :=
  let frame := regs.x .sp
  if !env.accessOk frame then ⟨0, regs, true⟩
  else if !env.readsMask frame then ⟨0, regs, true⟩
  else if !env.readsContext frame then ⟨0, regs.setUser (env.partialRead (scRegs frame)), true⟩
  else
    let regs := fstateRestore (regs.setUser (scRegs frame))
    if !env.readsAltstack frame then ⟨0, regs, true⟩
    else ⟨regs.x .a0, regs, false⟩

section Facts

variable {env} {ksig : Ksignal w} {regs : PtRegs w}

@[simp] theorem fstateRestore_x (regs : PtRegs w) : (fstateRestore regs).x = regs.x := by
  unfold fstateRestore
  split <;> rfl

@[simp] theorem fstateRestore_sepc (regs : PtRegs w) : (fstateRestore regs).sepc = regs.sepc := by
  unfold fstateRestore
  split <;> rfl

@[simp] theorem fstateRestore_scause (regs : PtRegs w) :
    (fstateRestore regs).scause = regs.scause := by
  unfold fstateRestore
  split <;> rfl

/-- A return that finds a good frame loads the registers that the frame holds. -/
theorem rtSigreturn_good {scRegs : Word w → UserRegs w}
    (hgood : (rtSigreturn env scRegs regs).badframe = false) :
    let back := rtSigreturn env scRegs regs
    let saved := scRegs (regs.x .sp)
    back.ret = saved.x .a0 ∧ back.regs.sepc = saved.pc ∧ back.regs.x = saved.x := by
  simp only [rtSigreturn] at hgood ⊢
  split_ifs at hgood ⊢
  simp [PtRegs.setUser]

theorem setupRtFrame_scRegs {delivery : Delivery w}
    (h : setupRtFrame env ksig regs = some delivery) : delivery.scRegs = regs.user := by
  simp only [setupRtFrame] at h
  split_ifs at h
  cases h
  rfl

/-- **A frame that the handler leaves alone brings back the registers it was made from.** -/
theorem rtSigreturn_setupRtFrame {delivery : Delivery w} {scRegs : Word w → UserRegs w}
    {regs' : PtRegs w} (hsetup : setupRtFrame env ksig regs = some delivery)
    (hkept : scRegs delivery.frame = delivery.scRegs) (hsp : regs'.x .sp = delivery.frame)
    (hgood : (rtSigreturn env scRegs regs').badframe = false) :
    let back := rtSigreturn env scRegs regs'
    back.ret = regs.x .a0 ∧ back.regs.sepc = regs.sepc ∧ back.regs.x = regs.x := by
  have hsaved : scRegs (regs'.x .sp) = regs.user := by
    rw [hsp, hkept, setupRtFrame_scRegs hsetup]
  have hback := rtSigreturn_good hgood
  rw [hsaved] at hback
  exact hback

end Facts

/-! ## The restarted call -/

theorem errno_ne : (erestartsys : Word w) ≠ erestartnohand ∧
    (erestartsys : Word w) ≠ erestartRestartblock ∧
    (erestartnointr : Word w) ≠ erestartnohand ∧
    (erestartnointr : Word w) ≠ erestartRestartblock ∧
    (erestartnointr : Word w) ≠ erestartsys := by
  simp [erestartsys, erestartnohand, erestartRestartblock, erestartnointr, errno_eq_iff]

/-- The ways to run a system call again, from the context `ctx` at its `ecall`, the code it returns
and the context in which the `ecall` is executed again. -/
inductive Restarted (env : SigEnv w) (ctx : PtRegs w) (code : Word w) : PtRegs w → Prop
  /-- `do_signal` finds no handler to run. -/
  | noHandler (hcode : code = erestartsys ∨ code = erestartnointr ∨ code = erestartnohand) :
      Restarted env ctx code (doSignal env none (syscall ctx code)).1
  /-- `handle_signal` runs a handler that leaves its frame alone and comes back by the system call
  `rt_sigreturn` from the context `regs`. -/
  | handler (hcode : code = erestartnointr ∨ code = erestartsys ∧ ksig.saRestart = true)
      (hsetup : (handleSignal env ksig (syscall ctx code)).2 = some delivery)
      (hkept : scRegs delivery.frame = delivery.scRegs) (hsp : regs.x .sp = delivery.frame)
      (hgood : (rtSigreturn env scRegs (handleSyscall regs)).badframe = false) :
      Restarted env ctx code
        (retFromSyscall (rtSigreturn env scRegs (handleSyscall regs)).regs
          (rtSigreturn env scRegs (handleSyscall regs)).ret)

/-- The registers that make up a system call: where it is, which it is and its arguments. -/
def SameCall (ctx ctx' : PtRegs w) : Prop :=
  ctx'.sepc = ctx.sepc ∧
    ∀ r ∈ [Reg.a7, Reg.a0, Reg.a1, Reg.a2, Reg.a3, Reg.a4, Reg.a5], ctx'.x r = ctx.x r

section Restart

variable {env} {ctx resumed : PtRegs w} {code : Word w}

theorem doSignalRestart_of_code (hctx : ctx.scause = excSyscall)
    (hcode : code = erestartsys ∨ code = erestartnointr ∨ code = erestartnohand) :
    doSignalRestart (syscall ctx code) = (syscall ctx code).moveBack := by
  have hcause : (syscall ctx code).scause = excSyscall := hctx
  have ha0 : (syscall ctx code).x .a0 = code := by simp
  unfold doSignalRestart
  rw [if_pos hcause, ha0, if_pos (by tauto)]

theorem handleSignalRestart_of_code {ksig : Ksignal w} (hctx : ctx.scause = excSyscall)
    (hcode : code = erestartnointr ∨ code = erestartsys ∧ ksig.saRestart = true) :
    handleSignalRestart ksig (syscall ctx code) = (syscall ctx code).moveBack := by
  have hcause : (syscall ctx code).scause = excSyscall := hctx
  have ha0 : (syscall ctx code).x .a0 = code := by simp
  obtain ⟨h1, h2, h3, h4, h5⟩ := @errno_ne w
  unfold handleSignalRestart
  rw [if_pos hcause, ha0]
  rcases hcode with rfl | ⟨rfl, hflag⟩
  · simp [h3, h4, h5]
  · simp [h1, h2, hflag]

/-- The `ecall` is executed again where it was, with all registers as they were but for `a0`. -/
theorem restarted_regs (hctx : ctx.scause = excSyscall) (h : Restarted env ctx code resumed) :
    resumed.sepc = ctx.sepc ∧ resumed.x = fun r => if r = .a0 then code else ctx.x r := by
  have hback : (syscall ctx code).moveBack.sepc = ctx.sepc := by simp
  cases h with
  | noHandler hcode =>
    simp only [doSignal, doSignalRestart_of_code hctx hcode]
    exact ⟨hback, rfl⟩
  | @handler ksig delivery scRegs regs hcode hsetup hkept hsp hgood =>
    simp only [handleSignal, handleSignalRestart_of_code hctx hcode] at hsetup
    split at hsetup
    · cases hsetup
    · next hframe =>
      cases hsetup
      have hsp' : (handleSyscall regs).x .sp = delivery.frame := hsp
      obtain ⟨hret, hsepc, hx⟩ := rtSigreturn_setupRtFrame hframe hkept hsp' hgood
      refine ⟨hsepc.trans hback, ?_⟩
      funext r
      by_cases hr : r = .a0
      · simp [hr, hret]
      · simp [hr, hx]

/-- **A restarted call is the same call iff its first argument already was the restart code.** -/
theorem sameCall_iff (hctx : ctx.scause = excSyscall) (h : Restarted env ctx code resumed) :
    SameCall ctx resumed ↔ ctx.x .a0 = code := by
  obtain ⟨hsepc, hx⟩ := restarted_regs hctx h
  constructor
  · rintro ⟨-, hsame⟩
    have ha0 := hsame .a0 (by decide)
    rw [hx] at ha0
    exact ha0.symm
  · intro ha0
    refine ⟨hsepc, fun r _ => ?_⟩
    rw [hx]
    by_cases hr : r = .a0
    · simp [hr, ha0]
    · simp [hr]

end Restart

/-- A user without an alternate stack whose memory can be read and written. -/
def plainEnv : SigEnv w where
  onSigStack _ := false
  sigsp sp _ := sp
  frameSize := 0x400
  infoOffset := 0
  ucOffset := 0x80
  accessOk _ := true
  writes _ := true
  readsMask _ := true
  readsContext _ := true
  partialRead user := user
  readsAltstack _ := true
  vdsoRtSigreturn := 0x2000

/-- A user at the `ecall` of `read(1, …)`. -/
def readCall : PtRegs .rv64 where
  sepc := 0x10000
  x r := if r = .a7 then 63 else if r = .a0 then 1 else if r = .sp then 0x8000 else 0
  sstatus := srPie
  sbadaddr := 0
  scause := excSyscall

/-- The interrupted `read(1, …)` when no handler runs. -/
theorem sameCall_read :
    SameCall readCall (doSignal plainEnv none (syscall readCall erestartsys)).1 ↔
      readCall.x .a0 = erestartsys :=
  sameCall_iff rfl (.noHandler (.inl rfl))

/-- **`read(1, …)` is restarted as `read(-ERESTARTSYS, …)`.** -/
theorem not_sameCall_read :
    Restarted plainEnv readCall erestartsys
        (doSignal plainEnv none (syscall readCall erestartsys)).1 ∧
      ¬SameCall readCall (doSignal plainEnv none (syscall readCall erestartsys)).1 := by
  have hagain : Restarted plainEnv readCall erestartsys
      (doSignal plainEnv none (syscall readCall erestartsys)).1 := .noHandler (.inl rfl)
  refine ⟨hagain, fun hsame => ?_⟩
  have ha0 := hsame.2 .a0 (by decide)
  rw [(restarted_regs rfl hagain).2] at ha0
  exact absurd ha0 (by decide)

end LowriscLinux.Kernel
