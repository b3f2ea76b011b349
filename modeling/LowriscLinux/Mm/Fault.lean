import LowriscLinux.Kernel.PtRegs
import LowriscLinux.Lib.Holding

/-!
# The page fault handler

Model of `do_page_fault` (`arch/riscv/mm/fault.c`), label by label, with what it calls in the
generic kernel as an environment.

## What models what

* `doPageFault`: lines 25-57, up to `retry`. `entryFlags` are those of lines 22 and 55.
* `retry`: lines 59-69. `goodArea`: lines 75-94, with `checkAccess` for the switch. `faultIn`: lines
  101-150, from the call of `handle_mm_fault` on.
* `badArea`: lines 156-162. `noContext`: lines 164-179. `outOfMemory` and `doSigbus`: lines 185-198.
  `unlockAnd` is what these exits have in common.
* `vmallocFault`: lines 200-249, with the entries of the reference page table as answers; what it
  copies is in `Mm/Vmalloc.lean`. Line 209 jumps to `bad_area`, which releases a lock that nobody
  has taken.
* `Attempt`: the answers of `find_vma`, `expand_stack`, `handle_mm_fault` and `fatal_signal_pending`
  in a round of the retry loop. `handle_mm_fault` drops `mmap_sem` itself when it answers
  `VM_FAULT_RETRY`, which it does only if `FAULT_FLAG_ALLOW_RETRY` was passed
  (`Attempt.retry_allowed`; the comments in lines 103-107 and 140-144).
* `Env`: the rounds, the exception table and what the handler asks about the task.

A run is the list of what the handler does, in order, and how it ends (`Run`). There is at most one
retry, as line 137 clears the flag that allows it. Faults of the same task while the handler runs
are not part of a run.

Results:
* `unlockAnd_locks`: each exit label that holds the lock releases it once.
* `goodArea_sound`: from a good area the handler comes back with the lock released, unless the
  answer of `handle_mm_fault` combines a retry with an error (`AnswersTwice`).
* `retry_last`: the round after a retry, where none is allowed any more, is always right.
* **`doPageFault_balanced_iff`**: the handler leaves `mmap_sem` balanced on return iff the fault is
  not a user's access to the vmalloc area and the first answer of `handle_mm_fault` does not make
  the handler release the lock a second time (`ReleasesTwice`).
* `doPageFault_user_vmalloc`: a user program that accesses an address of the vmalloc area makes the
  kernel release a lock that it has not taken.

Out of scope: the messages of the oops, and what `force_sig_info`, the OOM killer and the page table
updates do.
-/

namespace LowriscLinux.Mm

open Kernel Lib

variable {w : Xlen}

/-- `PAGE_OFFSET`. -/
def pageOffset : (w : Xlen) → Word w
  | .rv64 => 0xffffffff80000000#64
  | .rv32 => 0xc0000000#32

/-- `VMALLOC_START`. -/
def vmallocStart (w : Xlen) : Word w := pageOffset w - 0x8000000

/-- `VMALLOC_END`. -/
def vmallocEnd (w : Xlen) : Word w := pageOffset w - 1

/-- `addr >= VMALLOC_START && addr <= VMALLOC_END`. -/
def inVmalloc (addr : Word w) : Bool := vmallocStart w ≤ addr && addr ≤ vmallocEnd w

/-- The `FAULT_FLAG_*` bits that the handler passes. -/
structure FaultFlags where
  allowRetry : Bool
  killable : Bool
  user : Bool
  write : Bool
  tried : Bool
  deriving DecidableEq, Repr

/-- The `VM_FAULT_*` bits of an answer. `otherError` are the bits of `VM_FAULT_ERROR` besides
`VM_FAULT_OOM` and `VM_FAULT_SIGBUS`. -/
structure VmFault where
  oom : Bool
  sigbus : Bool
  otherError : Bool
  major : Bool
  retry : Bool
  deriving DecidableEq, Repr

/-- `fault & VM_FAULT_ERROR`. -/
def VmFault.error (fault : VmFault) : Bool := fault.oom || fault.sigbus || fault.otherError

/-- What the handler reads of a `struct vm_area_struct`. -/
structure Vma (w : Xlen) where
  vmStart : Word w
  growsdown : Bool
  exec : Bool
  read : Bool
  write : Bool
  deriving DecidableEq, Repr

/-- The answers of the memory manager in one round of the retry loop. -/
structure Attempt (w : Xlen) where
  findVma : Option (Vma w)
  /-- `expand_stack` fails. -/
  expandStack : Bool
  handleMmFault : FaultFlags → VmFault
  fatalSignalPending : Bool
  /-- A retry is asked for only where that is allowed. -/
  retry_allowed : ∀ flags, (handleMmFault flags).retry = true → flags.allowRetry = true

/-- The kernel around the handler. -/
structure Env (w : Xlen) where
  faulthandlerDisabled : Bool
  /-- `tsk->mm` is not `NULL`. -/
  mm : Bool
  attempt : Nat → Attempt w
  searchExceptionTables : Word w → Option (Word w)
  pgdPresent : Bool
  pudPresent : Bool
  pmdPresent : Bool
  ptePresent : Bool

inductive Signo
  | sigsegv
  | sigbus
  deriving DecidableEq, Repr

inductive SiCode
  | segvMaperr
  | segvAccerr
  | busAdrerr
  deriving DecidableEq, Repr

/-- What the handler does, as seen from outside. `lockDropped` is the release of `mmap_sem` inside
of `handle_mm_fault`. -/
inductive Event (w : Xlen)
  | localIrqEnable
  | perfPageFaults
  | downRead
  | upRead
  | handleMmFault (flags : FaultFlags)
  | lockDropped
  | majFlt
  | minFlt
  | doTrap (signo : Signo) (code : SiCode) (addr : Word w)
  | pagefaultOutOfMemory
  | setPgd
  | setPmd

/-- How the handler ends: it returns, with the registers it leaves, or the kernel stops in
`panic`, `BUG` or `do_exit`. -/
inductive Outcome (w : Xlen)
  | returned (regs : PtRegs w)
  | panicked (cause : Word w)
  | bug
  | exited

structure Run (w : Xlen) where
  events : List (Event w)
  outcome : Outcome w

/-- The event, then the rest of the run. -/
def emit (e : Event w) (rest : Run w) : Run w := { rest with events := e :: rest.events }

def halt (outcome : Outcome w) : Run w := ⟨[], outcome⟩

/-- The handler returns. -/
def Run.returns (run : Run w) : Bool :=
  match run.outcome with
  | .returned _ => true
  | .panicked _ => false
  | .bug => false
  | .exited => false

/-- What an event does to `mmap_sem`. -/
def Event.lockOp : Event w → Option LockOp
  | .downRead => some .acquire
  | .upRead => some .release
  | .lockDropped => some .release
  | _ => none

@[simp] theorem Event.lockOp_upRead : (upRead : Event w).lockOp = some .release := rfl

/-- The accounting of a fault: `maj_flt` or `min_flt`. -/
def Event.account (major : Bool) : Event w := if major then .majFlt else .minFlt

theorem Event.lockOp_account (major : Bool) : (account major : Event w).lockOp = none := by
  cases major <;> rfl

/-- What a run does to `mmap_sem`. -/
def Run.locks (run : Run w) : List LockOp := run.events.filterMap Event.lockOp

/-! ## The handler -/

section Handler

variable (env : Env w) (regs : PtRegs w)

/-- `fixup_exception`: the registers after it, if the table has an entry. -/
def fixupException : Option (PtRegs w) :=
  (env.searchExceptionTables regs.sepc).map fun fixup => { regs with sepc := fixup }

/-- `no_context:` -/
def noContext : Run w :=
  match fixupException env regs with
  | some regs' => halt (.returned regs')
  | none => halt .exited

/-- What the exits below have in common: drop the lock, then `onUser` for a fault of a user and
`no_context` for one of the kernel. -/
def unlockAnd (onUser : Event w) : Run w :=
  emit .upRead <|
    if userMode regs then emit onUser (halt (.returned regs)) else noContext env regs

/-- `bad_area:` -/
def badArea (code : SiCode) : Run w :=
  unlockAnd env regs (.doTrap .sigsegv code regs.sbadaddr)

/-- `out_of_memory:` -/
def outOfMemory : Run w := unlockAnd env regs .pagefaultOutOfMemory

/-- `do_sigbus:` -/
def doSigbus : Run w := unlockAnd env regs (.doTrap .sigbus .busAdrerr regs.sbadaddr)

/-- `vmalloc_fault:` -/
def vmallocFault (code : SiCode) : Run w :=
  if userMode regs then badArea env regs code
  else if !env.pgdPresent then noContext env regs
  else emit .setPgd <|
    if !env.pudPresent then noContext env regs
    else if !env.pmdPresent then noContext env regs
    else emit .setPmd <|
      if !env.ptePresent then noContext env regs
      else halt (.returned regs)

/-- What the access check at `good_area:` says. -/
inductive Access
  | granted (flags : FaultFlags)
  | denied
  | unhandled
  deriving DecidableEq

/-- `switch (cause)` -/
def checkAccess (vma : Vma w) (flags : FaultFlags) (cause : Word w) : Access :=
  if cause = excInstAccess then
    if !vma.exec then .denied else .granted flags
  else if cause = excLoadAccess then
    if !vma.read then .denied else .granted flags
  else if cause = excStoreAccess then
    if !vma.write then .denied else .granted { flags with write := true }
  else .unhandled

theorem checkAccess_allowRetry {vma : Vma w} {flags flags' : FaultFlags} {cause : Word w}
    (h : checkAccess vma flags cause = .granted flags') :
    flags'.allowRetry = flags.allowRetry := by
  unfold checkAccess at h
  split_ifs at h <;> cases h <;> rfl

mutual

/-- `retry:`, in round `n` of the loop. -/
def retry (n : Nat) (flags : FaultFlags) (code : SiCode) : Run w :=
  emit .downRead <|
    match (env.attempt n).findVma with
    | none => badArea env regs code
    | some vma =>
      if vma.vmStart ≤ regs.sbadaddr then goodArea n vma flags
      else if !vma.growsdown then badArea env regs code
      else if (env.attempt n).expandStack then badArea env regs code
      else goodArea n vma flags
termination_by (flags.allowRetry.toNat, 2)

/-- `good_area:` -/
def goodArea (n : Nat) (vma : Vma w) (flags : FaultFlags) : Run w :=
  match _h : checkAccess vma flags regs.scause with
  | .denied => badArea env regs .segvAccerr
  | .unhandled => halt (.panicked regs.scause)
  | .granted flags' => faultIn n flags'
termination_by (flags.allowRetry.toNat, 1)
decreasing_by
  rw [checkAccess_allowRetry (by assumption)]
  exact Prod.Lex.right _ (by decide)

/-- From the call of `handle_mm_fault` on. -/
def faultIn (n : Nat) (flags : FaultFlags) : Run w :=
  let fault := (env.attempt n).handleMmFault flags
  emit (.handleMmFault flags) <| (if fault.retry then emit .lockDropped else id) <|
    if fault.retry && (env.attempt n).fatalSignalPending then halt (.returned regs)
    else if fault.error then
      if fault.oom then outOfMemory env regs
      else if fault.sigbus then doSigbus env regs
      else halt .bug
    else if flags.allowRetry then
      emit (.account fault.major) <|
        if fault.retry then
          -- `code` keeps the value it has since `good_area`
          retry (n + 1) { flags with allowRetry := false, tried := true } .segvAccerr
        else emit .upRead (halt (.returned regs))
    else emit .upRead (halt (.returned regs))
termination_by (flags.allowRetry.toNat, 0)
decreasing_by
  have hallow : flags.allowRetry = true := by assumption
  exact Prod.Lex.left _ _ (by simp [hallow])

end

/-- The flags of the first round. -/
def entryFlags : FaultFlags :=
  { allowRetry := true, killable := true, user := userMode regs, write := false, tried := false }

/-- `do_page_fault`. -/
def doPageFault : Run w :=
  if inVmalloc regs.sbadaddr then vmallocFault env regs .segvMaperr
  else
    (if regs.sstatus &&& srPie ≠ 0 then emit .localIrqEnable else id) <|
      if env.faulthandlerDisabled || !env.mm then noContext env regs
      else emit .perfPageFaults <| retry env regs 0 (entryFlags regs) .segvMaperr

end Handler

/-! ## The lock along a run -/

section Locks

variable {env : Env w} {regs : PtRegs w}

@[simp] theorem locks_emit (e : Event w) (rest : Run w) :
    (emit e rest).locks = e.lockOp.toList ++ rest.locks := by
  unfold Run.locks emit
  cases h : e.lockOp <;> simp [h]

@[simp] theorem locks_halt (outcome : Outcome w) : (halt outcome).locks = [] := rfl

@[simp] theorem returns_halt (regs : PtRegs w) : (halt (.returned regs)).returns = true := rfl

@[simp] theorem returns_emit (e : Event w) (rest : Run w) : (emit e rest).returns = rest.returns :=
  rfl

/-- From here the handler comes back, by the trap of a user or the fixup of the kernel. -/
def survives (env : Env w) (regs : PtRegs w) : Bool :=
  userMode regs || (fixupException env regs).isSome

@[simp] theorem noContext_locks : (noContext env regs).locks = [] := by
  unfold noContext
  split <;> rfl

theorem noContext_returns : (noContext env regs).returns = (fixupException env regs).isSome := by
  unfold noContext
  split <;> simp_all [Run.returns, halt]

/-- **The exits release the lock once**, whoever holds it. -/
theorem unlockAnd_locks {onUser : Event w} (h : onUser.lockOp = none) :
    (unlockAnd env regs onUser).locks = [.release] := by
  unfold unlockAnd
  split <;> simp [h]

theorem unlockAnd_returns (onUser : Event w) :
    (unlockAnd env regs onUser).returns = survives env regs := by
  unfold unlockAnd survives
  rw [returns_emit]
  by_cases hu : userMode regs
  · simp [hu]
  · simp [hu, noContext_returns]

/-- From a state where `mmap_sem` is held or not, the run uses it well if it comes back at all. -/
def Sound (held : Bool) (run : Run w) : Prop :=
  run.returns → runLock held run.locks = some false

theorem sound_iff_balanced {run : Run w} : Sound false run ↔ (run.returns → Balanced run.locks) :=
  imp_congr_right fun _ => balanced_iff.symm

/-- An event that leaves the lock alone does not matter. -/
theorem sound_emit {held : Bool} {e : Event w} {rest : Run w} (he : e.lockOp = none) :
    Sound held (emit e rest) ↔ Sound held rest := by simp [Sound, he]

theorem sound_downRead {rest : Run w} : Sound false (emit .downRead rest) ↔ Sound true rest := by
  simp [Sound, Event.lockOp, runLock, hold]

theorem sound_lockDropped {rest : Run w} :
    Sound true (emit .lockDropped rest) ↔ Sound false rest := by
  simp [Sound, Event.lockOp, runLock, hold]

theorem sound_halt {outcome : Outcome w} : Sound false (halt outcome) := fun _ => rfl

theorem sound_upRead {outcome : Outcome w} : Sound true (emit .upRead (halt outcome)) :=
  fun _ => rfl

/-- A run that does not come back is no problem. -/
theorem sound_bug {held : Bool} : Sound held (halt .bug : Run w) := fun h => by cases h

theorem sound_noContext : Sound false (noContext env regs) := fun _ => by simp

/-- An exit is right where the lock is held. -/
theorem sound_unlockAnd {onUser : Event w} (h : onUser.lockOp = none) :
    Sound true (unlockAnd env regs onUser) := by
  intro _
  rw [unlockAnd_locks h]
  rfl

theorem sound_badArea (code : SiCode) : Sound true (badArea env regs code) := sound_unlockAnd rfl

/-- An exit is wrong where the lock is not held, unless the kernel ends there. -/
theorem sound_unlockAnd_free {onUser : Event w} (h : onUser.lockOp = none) :
    Sound false (unlockAnd env regs onUser) ↔ survives env regs = false := by
  simp [Sound, unlockAnd_locks h, unlockAnd_returns, runLock, hold]

theorem sound_badArea_free (code : SiCode) :
    Sound false (badArea env regs code) ↔ survives env regs = false := sound_unlockAnd_free rfl

theorem sound_outOfMemory_free :
    Sound false (outOfMemory env regs) ↔ survives env regs = false := sound_unlockAnd_free rfl

theorem sound_doSigbus_free :
    Sound false (doSigbus env regs) ↔ survives env regs = false := sound_unlockAnd_free rfl

theorem sound_vmallocFault (code : SiCode) :
    Sound false (vmallocFault env regs code) ↔ userMode regs = false := by
  unfold vmallocFault
  by_cases hu : userMode regs
  · simp [hu, sound_badArea_free, survives]
  · simp only [hu]
    refine iff_of_true ?_ trivial
    intro _
    simp only [Bool.false_eq_true, if_false]
    split_ifs <;> simp [Event.lockOp]

/-! ## One round -/

/-- The answer of round `n` makes the handler release the lock after `handle_mm_fault` has: it
combines a retry with an error, no signal ends the task, and the handler comes back. -/
def AnswersTwice (env : Env w) (regs : PtRegs w) (n : Nat) (flags : FaultFlags) : Prop :=
  let fault := (env.attempt n).handleMmFault flags
  fault.retry ∧ (env.attempt n).fatalSignalPending = false ∧ (fault.oom ∨ fault.sigbus) ∧
    survives env regs

theorem faultIn_sound {n : Nat} {flags : FaultFlags}
    (hagain : flags.allowRetry → ∀ flags' code, flags'.allowRetry = false →
      Sound false (retry env regs (n + 1) flags' code)) :
    Sound true (faultIn env regs n flags) ↔ ¬AnswersTwice env regs n flags := by
  rw [faultIn]
  unfold AnswersTwice
  generalize hfault : (env.attempt n).handleMmFault flags = fault
  simp only [sound_emit (e := .handleMmFault flags) rfl]
  by_cases hr : fault.retry
  · have hallow := (env.attempt n).retry_allowed flags (hfault ▸ hr)
    have hretry := hagain hallow { flags with allowRetry := false, tried := true } .segvAccerr rfl
    simp only [hr, hallow, if_true, Bool.true_and, true_and, sound_lockDropped]
    by_cases hs : (env.attempt n).fatalSignalPending
    · simp [hs, sound_halt]
    · simp only [hs, Bool.false_eq_true, if_false, true_and]
      by_cases ho : fault.oom
      · simp [VmFault.error, ho, sound_outOfMemory_free]
      · by_cases hb : fault.sigbus
        · simp [VmFault.error, ho, hb, sound_doSigbus_free]
        · simp only [ho, hb, Bool.false_eq_true, or_self, false_and, not_false_iff, iff_true,
            if_false]
          split_ifs
          · exact sound_bug
          · exact (sound_emit (Event.lockOp_account _)).mpr hretry
  · simp only [hr, Bool.false_eq_true, if_false, id, Bool.false_and, false_and, not_false_iff,
      iff_true]
    split_ifs
    · exact sound_unlockAnd rfl
    · exact sound_unlockAnd rfl
    · exact sound_bug
    · exact (sound_emit (Event.lockOp_account _)).mpr sound_upRead
    · exact sound_upRead

/-- The memory access lies in an area, after its growth where that is needed. -/
def InArea (attempt : Attempt w) (addr : Word w) (vma : Vma w) : Prop :=
  attempt.findVma = some vma ∧
    (vma.vmStart ≤ addr ∨ vma.growsdown = true ∧ attempt.expandStack = false)

theorem goodArea_sound {n : Nat} {vma : Vma w} {flags : FaultFlags}
    (hagain : flags.allowRetry → ∀ flags' code, flags'.allowRetry = false →
      Sound false (retry env regs (n + 1) flags' code)) :
    Sound true (goodArea env regs n vma flags) ↔
      ∀ flags', checkAccess vma flags regs.scause = .granted flags' →
        ¬AnswersTwice env regs n flags' := by
  rw [goodArea]
  split
  · next h => simp [h, sound_badArea]
  · next h => simp [h, Sound, Run.returns, halt]
  · next flags' h =>
    rw [faultIn_sound (checkAccess_allowRetry h ▸ hagain)]
    simp [h]

/-- Round `n` makes the handler release the lock twice. -/
def RoundTwice (env : Env w) (regs : PtRegs w) (n : Nat) (flags : FaultFlags) : Prop :=
  ∃ vma, InArea (env.attempt n) regs.sbadaddr vma ∧
    ∃ flags', checkAccess vma flags regs.scause = .granted flags' ∧ AnswersTwice env regs n flags'

theorem retry_sound {n : Nat} {flags : FaultFlags} {code : SiCode}
    (hagain : flags.allowRetry → ∀ flags' code, flags'.allowRetry = false →
      Sound false (retry env regs (n + 1) flags' code)) :
    Sound false (retry env regs n flags code) ↔ ¬RoundTwice env regs n flags := by
  rw [retry, sound_downRead]
  unfold RoundTwice InArea
  cases hv : (env.attempt n).findVma with
  | none => simp [sound_badArea]
  | some vma =>
    by_cases hlo : vma.vmStart ≤ regs.sbadaddr
    · simp [hlo, goodArea_sound hagain]
    · by_cases hg : vma.growsdown <;> by_cases he : (env.attempt n).expandStack <;>
        simp [hlo, hg, he, goodArea_sound hagain, sound_badArea]

/-- The last round leaves the lock as it should be. -/
theorem retry_last {n : Nat} {flags : FaultFlags} {code : SiCode}
    (hf : flags.allowRetry = false) : Sound false (retry env regs n flags code) := by
  refine (retry_sound fun h => absurd h (by simp [hf])).mpr ?_
  rintro ⟨vma, _, flags', hgranted, hretry, _⟩
  have hallow := (env.attempt n).retry_allowed flags' hretry
  rw [checkAccess_allowRetry hgranted, hf] at hallow
  cases hallow

/-! ## The whole handler -/

/-- The handler looks for the area of the faulting address. -/
def Reaches (env : Env w) (regs : PtRegs w) : Prop :=
  inVmalloc regs.sbadaddr = false ∧ env.faulthandlerDisabled = false ∧ env.mm = true

/-- The handler releases the lock after `handle_mm_fault` has. -/
def ReleasesTwice (env : Env w) (regs : PtRegs w) : Prop :=
  Reaches env regs ∧ RoundTwice env regs 0 (entryFlags regs)

theorem doPageFault_sound :
    Sound false (doPageFault env regs) ↔
      ¬(userMode regs ∧ inVmalloc regs.sbadaddr) ∧ ¬ReleasesTwice env regs := by
  unfold doPageFault ReleasesTwice Reaches
  have hround : Sound false (retry env regs 0 (entryFlags regs) .segvMaperr) ↔
      ¬RoundTwice env regs 0 (entryFlags regs) := retry_sound fun _ _ _ hf => retry_last hf
  by_cases hv : inVmalloc regs.sbadaddr
  · simp [hv, sound_vmallocFault]
  · have hirq : ∀ rest : Run w,
        Sound false ((if regs.sstatus &&& srPie ≠ 0 then emit .localIrqEnable else id) rest) ↔
          Sound false rest := by
      intro rest
      split
      · exact sound_emit rfl
      · exact Iff.rfl
    simp only [hv, Bool.false_eq_true, if_false, hirq, and_false, not_false_iff, true_and]
    by_cases hd : env.faulthandlerDisabled
    · simp [hd, sound_noContext]
    · by_cases hm : env.mm
      · simp [hd, hm, sound_emit (e := .perfPageFaults) rfl, hround]
      · simp [hm, sound_noContext]

/-- Every access of a user to the vmalloc area comes back with a release that nothing matches. -/
theorem doPageFault_user_vmalloc (hu : userMode regs) (hv : inVmalloc regs.sbadaddr) :
    (doPageFault env regs).returns ∧ (doPageFault env regs).locks = [.release] := by
  have hrun : doPageFault env regs = badArea env regs .segvMaperr := by
    simp [doPageFault, vmallocFault, hu, hv]
  rw [hrun]
  exact ⟨by simp [badArea, unlockAnd_returns, survives, hu], unlockAnd_locks rfl⟩

/-- **Exactly when the page fault handler leaves `mmap_sem` balanced.** -/
theorem doPageFault_balanced_iff (env : Env w) (regs : PtRegs w) :
    ((doPageFault env regs).returns → Balanced (doPageFault env regs).locks) ↔
      ¬(userMode regs ∧ inVmalloc regs.sbadaddr) ∧ ¬ReleasesTwice env regs := by
  rw [← sound_iff_balanced, doPageFault_sound]

end Locks

/-- A kernel where nothing is mapped. -/
def emptyEnv : Env w where
  faulthandlerDisabled := false
  mm := true
  attempt _ :=
    { findVma := none, expandStack := true, handleMmFault := fun _ => ⟨true, false, false, false, false⟩,
      fatalSignalPending := false, retry_allowed := fun _ h => by cases h }
  searchExceptionTables _ := none
  pgdPresent := false
  pudPresent := false
  pmdPresent := false
  ptePresent := false

/-- **A user's load from the first address of the vmalloc area unbalances `mmap_sem`.** -/
theorem not_doPageFault_balanced :
    let regs : PtRegs .rv64 := ⟨0, fun _ => 0, 0, vmallocStart .rv64, excLoadAccess⟩
    (doPageFault emptyEnv regs).returns ∧ ¬Balanced (doPageFault emptyEnv regs).locks := by
  intro regs
  obtain ⟨hreturns, hlocks⟩ := @doPageFault_user_vmalloc _ emptyEnv regs (by decide) (by decide)
  refine ⟨hreturns, fun h => ?_⟩
  rw [hlocks] at h
  exact absurd h.counts (by decide)

end LowriscLinux.Mm
