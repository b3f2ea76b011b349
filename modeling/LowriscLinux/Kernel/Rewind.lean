import LowriscLinux.Kernel.Signal
import LowriscLinux.Lib.Transition

/-!
# Restarting a system call over many signals

Runs of one task over system calls, traps, passes of `do_signal` (`arch/riscv/kernel/signal.c`,
lines 189-218) in the return loop of `arch/riscv/kernel/entry.S` (lines 191-221) and returns to user
mode, with the frames that signals leave on the user stack.

A pass takes what `get_signal` finds as a parameter, so a frame that cannot be set up and the forced
`SIGSEGV` after it are two passes, and a handler may be interrupted by any number of others.

## What models what

* `restartSwitch`: the switches of `handle_signal` (lines 163-181) and `do_signal` (lines 200-213),
  by what `get_signal` finds. `movesBack` is where they execute `regs->sepc -= 0x4`.
* `SigAct`: what the task does next. A system call returns with any value, a trap has any other
  cause, and the program between them writes any registers and any frames.
* `SigState.step`: the step for an action. `rt_sigreturn` is a system call of its own (lines 33-71):
  it loads the registers of the frame and returns its `a0`, and `scause` stays that of a system
  call.

Beside the registers and the user's memory the state keeps a history: which system call the context
in the registers, and the one in each frame, will go on with (`Origin`), how often `sepc` was moved
back for each system call, and whether the system call that has just returned is still to see its
first pass of `do_signal` (`first`). No step depends on the history.

Results:
* `restartSwitch_cases`: a pass moves `sepc` back by 4 exactly when `movesBack` says so, and leaves
  no restart code in `a0` when it does not.
* `rewindInv_step`: the invariant, as long as only first passes move `sepc` back.
* **`rewound_once_iff`**: along any run, `sepc` is moved back at most once for a system call and
  every context resumes where it should, iff every pass that moves `sepc` back is the first one
  after the return of a system call other than `rt_sigreturn`.
* `rewound_twice`: a signal that is pending when `rt_sigreturn` returns moves `sepc` to before the
  `ecall`.

Out of scope: system calls that change other saved registers (`execve`, `clone`, `ptrace`).
-/

namespace LowriscLinux.Kernel

open Lib

variable {w : Xlen}

/-! ## What a pass does -/

/-- The restart switches, on what `get_signal` finds. -/
def restartSwitch : Option (Ksignal w) → PtRegs w → PtRegs w
  | some ksig, regs => handleSignalRestart ksig regs
  | none, regs => doSignalRestart regs

/-- A pass of `do_signal` moves `sepc` back. -/
def movesBack (getSignal : Option (Ksignal w)) (regs : PtRegs w) : Bool :=
  regs.scause = excSyscall &&
    match getSignal with
    | some ksig =>
      regs.x .a0 = erestartnointr || (regs.x .a0 = erestartsys && ksig.saRestart)
    | none => isRestart (regs.x .a0)

section Pass

variable {env : SigEnv w} {getSignal : Option (Ksignal w)} {regs : PtRegs w}

theorem movesBack_isRestart (h : movesBack getSignal regs) : isRestart (regs.x .a0) := by
  unfold movesBack at h
  cases getSignal with
  | some ksig =>
    simp only [isRestart, Bool.and_eq_true, Bool.or_eq_true] at h ⊢
    tauto
  | none => exact (Bool.and_eq_true _ _ ▸ h).2

theorem isRestart_eintr : isRestart (eintr : Word w) = false := by
  simp [isRestart, eintr, erestartsys, erestartnohand, erestartRestartblock, erestartnointr,
    errno_eq_iff]

theorem code_cases (code : Word w) :
    code = errno 512 ∨ code = errno 513 ∨ code = errno 514 ∨ code = errno 516 ∨
      isRestart code = false := by
  by_cases h : isRestart code
  · simp only [isRestart, Bool.or_eq_true, decide_eq_true_eq] at h
    tauto
  · simp [h]

/-- **The switch of `handle_signal`**, case by case: `sepc` moves back or no restart code stays. -/
theorem handleSignalRestart_cases (ksig : Ksignal w) (hc : regs.scause = excSyscall) :
    movesBack (some ksig) regs ∧ (handleSignalRestart ksig regs).sepc = regs.sepc - 0x4 ∨
      movesBack (some ksig) regs = false ∧ (handleSignalRestart ksig regs).sepc = regs.sepc ∧
        isRestart ((handleSignalRestart ksig regs).x .a0) = false := by
  unfold handleSignalRestart movesBack
  rw [if_pos hc]
  rcases code_cases (regs.x .a0) with h | h | h | h | h
  · by_cases hf : ksig.saRestart <;>
      simp [h, hc, hf, erestartsys, erestartnohand, erestartRestartblock, erestartnointr,
        errno_eq_iff, isRestart_eintr]
  · simp [h, hc, erestartsys, erestartnohand, erestartRestartblock, erestartnointr, errno_eq_iff]
  · simp [h, hc, erestartsys, erestartnohand, erestartRestartblock, erestartnointr, errno_eq_iff,
      isRestart_eintr]
  · simp [h, hc, erestartsys, erestartnohand, erestartRestartblock, erestartnointr, errno_eq_iff,
      isRestart_eintr]
  · have hnone := h
    simp only [isRestart, Bool.or_eq_false_iff, decide_eq_false_iff_not] at hnone
    simp [h, hc, hnone]

/-- **The switch of `do_signal`**, case by case. -/
theorem doSignalRestart_cases (hc : regs.scause = excSyscall) :
    movesBack none regs ∧ (doSignalRestart regs).sepc = regs.sepc - 0x4 ∨
      movesBack none regs = false ∧ (doSignalRestart regs).sepc = regs.sepc ∧
        isRestart ((doSignalRestart regs).x .a0) = false := by
  unfold doSignalRestart movesBack
  rw [if_pos hc]
  rcases code_cases (regs.x .a0) with h | h | h | h | h
  · simp [h, hc, isRestart, erestartsys]
  · simp [h, hc, isRestart, erestartnointr]
  · simp [h, hc, isRestart, erestartnohand]
  · simp [h, hc, isRestart, erestartsys, erestartnohand, erestartRestartblock, erestartnointr,
      errno_eq_iff]
  · have hnone := h
    simp only [isRestart, Bool.or_eq_false_iff, decide_eq_false_iff_not] at hnone
    simp [h, hc, hnone]

/-- **What the restart switches do**: move `sepc` back, or leave it and no restart code. -/
theorem restartSwitch_cases (hc : regs.scause = excSyscall) :
    movesBack getSignal regs ∧ (restartSwitch getSignal regs).sepc = regs.sepc - 0x4 ∨
      movesBack getSignal regs = false ∧ (restartSwitch getSignal regs).sepc = regs.sepc ∧
        isRestart ((restartSwitch getSignal regs).x .a0) = false := by
  cases getSignal with
  | some ksig => exact handleSignalRestart_cases ksig hc
  | none => exact doSignalRestart_cases hc

/-- After another trap the switches do nothing. -/
theorem restartSwitch_other (hc : regs.scause ≠ excSyscall) :
    movesBack getSignal regs = false ∧ restartSwitch getSignal regs = regs := by
  cases getSignal with
  | some ksig => simp [movesBack, restartSwitch, handleSignalRestart, hc]
  | none => simp [movesBack, restartSwitch, doSignalRestart, hc]

theorem restartSwitch_sepc :
    (restartSwitch getSignal regs).sepc =
      if movesBack getSignal regs then regs.sepc - 0x4 else regs.sepc := by
  by_cases hc : regs.scause = excSyscall
  · rcases @restartSwitch_cases _ getSignal _ hc with ⟨hm, h⟩ | ⟨hm, h, -⟩
    · simp [hm, h]
    · simp [hm, h]
  · obtain ⟨hm, h⟩ := @restartSwitch_other _ getSignal _ hc
    simp [hm, h]

/-- `do_signal` is the switch, then the frame. -/
theorem doSignal_eq :
    doSignal env getSignal regs =
      match getSignal.bind fun ksig => setupRtFrame env ksig (restartSwitch getSignal regs) with
      | none => (restartSwitch getSignal regs, none)
      | some delivery => (delivery.regs, some delivery) := by
  cases getSignal with
  | none => rfl
  | some ksig =>
    have hswitch : restartSwitch (some ksig) regs = handleSignalRestart ksig regs := rfl
    cases h : setupRtFrame env ksig (handleSignalRestart ksig regs) with
    | none => simp [doSignal, handleSignal, hswitch, h]
    | some delivery => simp [doSignal, handleSignal, hswitch, h]

end Pass

/-! ## The system -/

/-- What a context will go on with: a system call by its number, or the instruction at an
address. -/
inductive Origin (w : Xlen)
  | call (n : Nat)
  | at (pc : Word w)
  deriving DecidableEq

/-- A task between two system calls or in the return loop of one. -/
structure SigState (w : Xlen) where
  /-- User code runs. -/
  user : Bool
  /-- `*task_pt_regs(current)`, or the user's registers. -/
  regs : PtRegs w
  /-- The registers in signal frames on the user stack, by address. -/
  frames : Word w → UserRegs w
  /-- A system call other than `rt_sigreturn` has returned, and `do_signal` has not run since. -/
  first : Bool
  /-- What the context in the registers goes on with. -/
  origin : Origin w
  /-- What the contexts in the frames go on with. -/
  frameOrigin : Word w → Origin w
  /-- The addresses of the system calls that returned a restart code, in order. -/
  calls : List (Word w)
  /-- How often `sepc` was moved back for a system call. -/
  rewinds : Nat → Nat

inductive SigAct (w : Xlen)
  /-- User code computes. -/
  | run (user : UserRegs w)
  /-- User code writes a frame. -/
  | write (addr : Word w) (scRegs : UserRegs w)
  /-- An interrupt or a fault. -/
  | trap (scause : Word w)
  /-- A system call other than `rt_sigreturn`, and what it returns. -/
  | ecall (ret : Word w)
  /-- The system call `rt_sigreturn`. -/
  | sigreturn
  /-- The return loop calls `do_signal`. -/
  | pass (getSignal : Option (Ksignal w))
  /-- The return loop finds no work and goes back to user mode. -/
  | resume

variable (env : SigEnv w)

/-- `f` with another value at an address. -/
def setAt {β : Type} (f : Word w → β) (addr : Word w) (b : β) : Word w → β :=
  fun a => if a = addr then b else f a

/-- The history after `sepc` was moved back for a context. -/
def countRewind (rewinds : Nat → Nat) : Origin w → Nat → Nat
  | .call n => fun m => if m = n then rewinds n + 1 else rewinds m
  | .at _ => rewinds

/-- The step for an action, where it is possible. -/
def SigState.step (s : SigState w) : SigAct w → Option (SigState w)
  | .run user => if s.user then some { s with regs := s.regs.setUser user } else none
  | .write addr scRegs =>
    if s.user then
      some
        { s with
          frames := setAt s.frames addr scRegs
          frameOrigin := setAt s.frameOrigin addr (.at scRegs.pc) }
    else none
  | .trap scause =>
    if s.user && scause ≠ excSyscall then
      some
        { s with
          user := false
          regs := { s.regs with scause := scause }
          first := false
          origin := .at s.regs.sepc }
    else none
  | .ecall ret =>
    if s.user then
      let regs := syscall { s.regs with scause := excSyscall } ret
      if isRestart ret then
        some
          { s with
            user := false
            regs := regs
            first := true
            origin := .call s.calls.length
            calls := s.calls ++ [s.regs.sepc] }
      else some { s with user := false, regs := regs, first := true, origin := .at regs.sepc }
    else none
  | .sigreturn =>
    if s.user then
      let back := rtSigreturn env s.frames (handleSyscall { s.regs with scause := excSyscall })
      some
        { s with
          user := false
          regs := retFromSyscall back.regs back.ret
          first := false
          origin := if back.badframe then .at back.regs.sepc else s.frameOrigin (s.regs.x .sp) }
    else none
  | .pass getSignal =>
    if s.user then none
    else
      let rewinds :=
        if movesBack getSignal s.regs then countRewind s.rewinds s.origin else s.rewinds
      match doSignal env getSignal s.regs with
      | (regs, none) => some { s with regs := regs, first := false, rewinds := rewinds }
      | (regs, some delivery) =>
        some
          { s with
            regs := regs
            frames := setAt s.frames delivery.frame delivery.scRegs
            first := false
            origin := .at regs.sepc
            frameOrigin := setAt s.frameOrigin delivery.frame s.origin
            rewinds := rewinds }
  | .resume => if s.user then none else some { s with user := true }

/-- The steps of the system. -/
def SigStep (s : SigState w) (act : SigAct w) (s' : SigState w) : Prop := s.step env act = some s'

/-- A task that has made no system call yet. -/
def SigState.start (regs : PtRegs w) (frames : Word w → UserRegs w) : SigState w where
  user := true
  regs := regs
  frames := frames
  first := false
  origin := .at regs.sepc
  frameOrigin := fun addr => .at (frames addr).pc
  calls := []
  rewinds := fun _ => 0

/-! ## The property -/

/-- A context resumes where it should: at the system call it goes on with, at the instruction
after that, or at the instruction where it was interrupted. -/
def SigState.Fits (s : SigState w) (pc : Word w) : Origin w → Prop
  | .call n => ∃ call, s.calls[n]? = some call ∧ (pc = call ∨ pc = call + 0x4)
  | .at pc' => pc = pc'

/-- **`sepc` is moved back at most once for a system call**, and every context, in the registers
or in a frame, resumes where it should. -/
structure RewoundOnce (s : SigState w) : Prop where
  once : ∀ n, s.rewinds n ≤ 1
  regs : s.user = false → s.Fits s.regs.sepc s.origin
  frames : ∀ addr, s.Fits (s.frames addr).pc (s.frameOrigin addr)

/-- A pass that moves `sepc` back is the first one after a system call other than
`rt_sigreturn`. -/
def FirstPass (s : SigState w) : SigAct w → Prop
  | .pass getSignal => movesBack getSignal s.regs → s.first = true
  | _ => True

/-! ## The invariant -/

/-- A context that has seen a pass of `do_signal`, or needs none: if it goes on with a system call
whose `sepc` was not moved back, no restart code is left. -/
def Settled (calls : List (Word w)) (rewinds : Nat → Nat) (pc a0 : Word w) : Origin w → Prop
  | .call n => ∃ call, calls[n]? = some call ∧
      (rewinds n = 0 ∧ pc = call + 0x4 ∧ isRestart a0 = false ∨ rewinds n = 1 ∧ pc = call)
  | .at pc' => pc = pc'

/-- The context of a system call that has just returned. -/
def SigState.Returned (s : SigState w) : Origin w → Prop
  | .call n => s.rewinds n = 0 ∧ s.calls[n]? = some (s.regs.sepc - 0x4) ∧
      ∀ addr, s.frameOrigin addr ≠ .call n
  | .at pc => s.regs.sepc = pc ∧ isRestart (s.regs.x .a0) = false

/-- What holds between any two steps of a run in which only first passes move `sepc` back. -/
structure RewindInv (s : SigState w) : Prop where
  once : ∀ n, s.rewinds n ≤ 1
  uncounted : ∀ n, s.calls.length ≤ n → s.rewinds n = 0
  frames : ∀ addr, Settled s.calls s.rewinds (s.frames addr).pc ((s.frames addr).x .a0)
    (s.frameOrigin addr)
  settled : s.user = false → s.first = false →
    Settled s.calls s.rewinds s.regs.sepc (s.regs.x .a0) s.origin
  returned : s.user = false → s.first = true →
    s.regs.scause = excSyscall ∧ s.Returned s.origin

section Runs

variable {env} {s s' : SigState w} {act : SigAct w}

theorem Settled.fits {pc a0 : Word w} {origin : Origin w}
    (h : Settled s.calls s.rewinds pc a0 origin) : s.Fits pc origin := by
  cases origin with
  | call n =>
    obtain ⟨call, hcall, ⟨-, hpc, -⟩ | ⟨-, hpc⟩⟩ := h
    · exact ⟨call, hcall, .inr hpc⟩
    · exact ⟨call, hcall, .inl hpc⟩
  | «at» pc' => exact h

/-- **The invariant is enough.** -/
theorem RewindInv.rewoundOnce (h : RewindInv s) : RewoundOnce s where
  once := h.once
  regs hk := by
    cases hf : s.first with
    | false => exact (h.settled hk hf).fits
    | true =>
      obtain ⟨-, hret⟩ := h.returned hk hf
      cases ho : s.origin with
      | call n =>
        rw [ho] at hret
        exact ⟨_, hret.2.1, .inr (by simp)⟩
      | «at» pc =>
        rw [ho] at hret
        exact hret.1
  frames addr := (h.frames addr).fits

theorem rewindInv_start (regs : PtRegs w) (frames : Word w → UserRegs w) :
    RewindInv (SigState.start regs frames) where
  once _ := Nat.zero_le _
  uncounted _ _ := rfl
  frames _ := rfl
  settled hk := by cases hk
  returned hk := by cases hk

/-- More system calls leave a settled context settled. -/
theorem Settled.append {calls : List (Word w)} {rewinds : Nat → Nat} {pc a0 : Word w}
    {origin : Origin w} (h : Settled calls rewinds pc a0 origin) (calls' : List (Word w)) :
    Settled (calls ++ calls') rewinds pc a0 origin := by
  cases origin with
  | call n =>
    obtain ⟨call, hcall, h⟩ := h
    exact ⟨call, by rw [List.getElem?_append_left (List.getElem?_eq_some_iff.mp hcall).1, hcall], h⟩
  | «at» pc' => exact h

theorem Settled.call_lt {calls : List (Word w)} {rewinds : Nat → Nat} {pc a0 : Word w} {n : Nat}
    (h : Settled calls rewinds pc a0 (.call n)) : n < calls.length := by
  obtain ⟨call, hcall, -⟩ := h
  exact (List.getElem?_eq_some_iff.mp hcall).1

theorem sub_four_ne (pc : Word w) : pc - 0x4 ≠ pc := by
  intro h
  have hzero : (0x4 : Word w) = 0 := by simpa using h
  revert hzero
  cases w <;> decide

theorem rewindInv_write {addr : Word w} {scRegs : UserRegs w} (hi : RewindInv s)
    (hs : SigStep env s (.write addr scRegs) s') : RewindInv s' := by
  simp only [SigStep, SigState.step] at hs
  split_ifs at hs with hu
  cases hs
  refine ⟨hi.once, hi.uncounted, fun a => ?_, fun hk => ?_, fun hk => ?_⟩
  · by_cases ha : a = addr
    · simp [setAt, ha, Settled]
    · simpa [setAt, ha] using hi.frames a
  · simp [hu] at hk
  · simp [hu] at hk

theorem rewindInv_trap {scause : Word w} (hi : RewindInv s) (hs : SigStep env s (.trap scause) s') :
    RewindInv s' := by
  simp only [SigStep, SigState.step] at hs
  split_ifs at hs
  cases hs
  exact ⟨hi.once, hi.uncounted, hi.frames, fun _ _ => rfl, fun _ hf => by cases hf⟩

theorem rewindInv_ecall {ret : Word w} (hi : RewindInv s) (hs : SigStep env s (.ecall ret) s') :
    RewindInv s' := by
  simp only [SigStep, SigState.step] at hs
  split_ifs at hs with hu hret
  · cases hs
    refine ⟨hi.once, fun n hn => hi.uncounted n ?_, fun a => (hi.frames a).append _,
      fun _ hf => (by cases hf), fun _ _ => ⟨rfl, ?_⟩⟩
    · rw [List.length_append] at hn
      exact (Nat.le_add_right _ _).trans hn
    · refine ⟨hi.uncounted _ le_rfl, by simp, fun a ha => ?_⟩
      have hframe := hi.frames a
      rw [ha] at hframe
      exact absurd hframe.call_lt (lt_irrefl _)
  · cases hs
    refine ⟨hi.once, hi.uncounted, hi.frames, fun _ hf => (by cases hf), fun _ _ => ⟨rfl, rfl, ?_⟩⟩
    simpa using hret

theorem rewindInv_sigreturn (hi : RewindInv s) (hs : SigStep env s .sigreturn s') :
    RewindInv s' := by
  cases hu : s.user with
  | false => simp [SigStep, SigState.step, hu] at hs
  | true =>
    simp only [SigStep, SigState.step, hu, if_true, Option.some.injEq] at hs
    subst hs
    refine ⟨hi.once, hi.uncounted, hi.frames, fun _ _ => ?_, fun _ hf => by cases hf⟩
    cases hgood : (rtSigreturn env s.frames
        (handleSyscall { s.regs with scause := excSyscall })).badframe with
    | true => exact rfl
    | false =>
      obtain ⟨hret, hsepc, -⟩ := rtSigreturn_good hgood
      have hframe := hi.frames (s.regs.x .sp)
      simp only [Bool.false_eq_true, if_false, retFromSyscall_x, if_true, retFromSyscall_sepc, hret,
        hsepc]
      exact hframe

/-- The history of a pass. -/
def SigState.passRewinds (s : SigState w) (getSignal : Option (Ksignal w)) : Nat → Nat :=
  if movesBack getSignal s.regs then countRewind s.rewinds s.origin else s.rewinds

theorem passRewinds_still {getSignal : Option (Ksignal w)}
    (hm : movesBack getSignal s.regs = false) : s.passRewinds getSignal = s.rewinds := by
  simp [SigState.passRewinds, hm]

theorem passRewinds_moved {getSignal : Option (Ksignal w)} {n : Nat}
    (hm : movesBack getSignal s.regs) (ho : s.origin = .call n) (m : Nat) :
    s.passRewinds getSignal m = if m = n then s.rewinds n + 1 else s.rewinds m := by
  simp [SigState.passRewinds, hm, ho, countRewind]

/-- A context that is settled stays so in a pass that does not move `sepc` back. -/
theorem Settled.pass {getSignal : Option (Ksignal w)} {regs : PtRegs w} {calls : List (Word w)}
    {rewinds : Nat → Nat} {origin : Origin w} (h : Settled calls rewinds regs.sepc (regs.x .a0) origin)
    (hm : movesBack getSignal regs = false) :
    let regs' := restartSwitch getSignal regs
    Settled calls rewinds regs'.sepc (regs'.x .a0) origin := by
  intro regs'
  by_cases hc : regs.scause = excSyscall
  · obtain ⟨hm', -⟩ | ⟨-, hsepc, hnone⟩ := @restartSwitch_cases _ getSignal _ hc
    · rw [hm] at hm'
      cases hm'
    · cases origin with
      | call n =>
        obtain ⟨call, hcall, ⟨hz, hpc, -⟩ | ⟨ho, hpc⟩⟩ := h
        · exact ⟨call, hcall, .inl ⟨hz, hsepc.trans hpc, hnone⟩⟩
        · exact ⟨call, hcall, .inr ⟨ho, hsepc.trans hpc⟩⟩
      | «at» pc => exact hsepc.trans h
  · have hsame : regs' = regs := (@restartSwitch_other _ getSignal _ hc).2
    rw [hsame]
    exact h

/-- **A first pass settles the context**, a later one that does not move `sepc` back keeps it. -/
theorem settled_pass {getSignal : Option (Ksignal w)} (hi : RewindInv s) (hu : s.user = false)
    (hgood : movesBack getSignal s.regs → s.first = true) :
    let regs := restartSwitch getSignal s.regs
    Settled s.calls (s.passRewinds getSignal) regs.sepc (regs.x .a0) s.origin := by
  intro regs
  cases hm : movesBack getSignal s.regs with
  | true =>
    obtain ⟨hc, hret⟩ := hi.returned hu (hgood hm)
    have hsepc : regs.sepc = s.regs.sepc - 0x4 := by simp [regs, restartSwitch_sepc, hm]
    cases ho : s.origin with
    | call n =>
      rw [ho] at hret
      obtain ⟨hz, hcall, -⟩ := hret
      exact ⟨_, hcall, .inr ⟨by simp [passRewinds_moved hm ho, hz], hsepc⟩⟩
    | «at» pc =>
      rw [ho] at hret
      exact absurd (movesBack_isRestart hm) (by simp [hret.2])
  | false =>
    rw [passRewinds_still hm]
    cases hf : s.first with
    | false => exact (hi.settled hu hf).pass hm
    | true =>
      obtain ⟨hc, hret⟩ := hi.returned hu hf
      obtain ⟨hm', -⟩ | ⟨-, hsepc, hnone⟩ := @restartSwitch_cases _ getSignal _ hc
      · rw [hm] at hm'
        cases hm'
      · cases ho : s.origin with
        | call n =>
          rw [ho] at hret
          obtain ⟨hz, hcall, -⟩ := hret
          exact ⟨_, hcall, .inl ⟨hz, by simp [regs, hsepc], hnone⟩⟩
        | «at» pc =>
          rw [ho] at hret
          exact hsepc.trans hret.1

/-- No frame notices a first pass. -/
theorem frames_pass {getSignal : Option (Ksignal w)} (hi : RewindInv s) (hu : s.user = false)
    (hgood : movesBack getSignal s.regs → s.first = true) (a : Word w) :
    Settled s.calls (s.passRewinds getSignal) (s.frames a).pc ((s.frames a).x .a0)
      (s.frameOrigin a) := by
  have hframe := hi.frames a
  cases hm : movesBack getSignal s.regs with
  | false =>
    rw [passRewinds_still hm]
    exact hframe
  | true =>
    obtain ⟨-, hret⟩ := hi.returned hu (hgood hm)
    cases ho : s.origin with
    | «at» pc =>
      rw [ho] at hret
      exact absurd (movesBack_isRestart hm) (by simp [hret.2])
    | call n =>
      rw [ho] at hret
      obtain ⟨-, -, hother⟩ := hret
      cases hfo : s.frameOrigin a with
      | «at» pc =>
        rw [hfo] at hframe
        exact hframe
      | call m =>
        have hmn : m ≠ n := fun h => hother a (h ▸ hfo)
        rw [hfo] at hframe
        simpa [Settled, passRewinds_moved hm ho, hmn] using hframe

/-- The counts after a pass. -/
theorem once_pass {getSignal : Option (Ksignal w)} (hi : RewindInv s) (hu : s.user = false)
    (hgood : movesBack getSignal s.regs → s.first = true) :
    (∀ n, s.passRewinds getSignal n ≤ 1) ∧
      ∀ n, s.calls.length ≤ n → s.passRewinds getSignal n = 0 := by
  cases hm : movesBack getSignal s.regs with
  | false =>
    rw [passRewinds_still hm]
    exact ⟨hi.once, hi.uncounted⟩
  | true =>
    obtain ⟨-, hret⟩ := hi.returned hu (hgood hm)
    cases ho : s.origin with
    | «at» pc =>
      rw [ho] at hret
      exact absurd (movesBack_isRestart hm) (by simp [hret.2])
    | call n =>
      rw [ho] at hret
      obtain ⟨hz, hcall, -⟩ := hret
      have hlt : n < s.calls.length := (List.getElem?_eq_some_iff.mp hcall).1
      refine ⟨fun m => ?_, fun m hlen => ?_⟩
      · rw [passRewinds_moved hm ho]
        split_ifs
        · omega
        · exact hi.once m
      · rw [passRewinds_moved hm ho, if_neg (by omega)]
        exact hi.uncounted m hlen

/-- What a pass does to the state. -/
theorem sigStep_pass {getSignal : Option (Ksignal w)} (hs : SigStep env s (.pass getSignal) s') :
    s.user = false ∧
      (s' = { s with
          regs := restartSwitch getSignal s.regs
          first := false
          rewinds := s.passRewinds getSignal } ∨
        ∃ frame regs, s' = { s with
          regs := regs
          frames := setAt s.frames frame (restartSwitch getSignal s.regs).user
          first := false
          origin := .at regs.sepc
          frameOrigin := setAt s.frameOrigin frame s.origin
          rewinds := s.passRewinds getSignal }) := by
  cases hu : s.user with
  | true => simp [SigStep, SigState.step, hu] at hs
  | false =>
    refine ⟨rfl, ?_⟩
    simp only [SigStep, SigState.step, hu, Bool.false_eq_true, if_false, doSignal_eq] at hs
    cases hd : getSignal.bind fun ksig => setupRtFrame env ksig (restartSwitch getSignal s.regs) with
    | none =>
      simp only [hd, Option.some.injEq] at hs
      exact .inl hs.symm
    | some delivery =>
      obtain ⟨ksig, -, hsetup⟩ := Option.bind_eq_some_iff.mp hd
      simp only [hd, Option.some.injEq, setupRtFrame_scRegs hsetup] at hs
      exact .inr ⟨_, _, hs.symm⟩

theorem rewindInv_pass {getSignal : Option (Ksignal w)} (hi : RewindInv s)
    (hgood : movesBack getSignal s.regs → s.first = true)
    (hs : SigStep env s (.pass getSignal) s') : RewindInv s' := by
  obtain ⟨hu, hcase⟩ := sigStep_pass hs
  obtain ⟨honce, huncounted⟩ := once_pass hi hu hgood
  have hsettled := settled_pass hi hu hgood
  have hframes := frames_pass hi hu hgood
  rcases hcase with rfl | ⟨frame, regs, rfl⟩
  · exact ⟨honce, huncounted, hframes, fun _ _ => hsettled, fun _ hf => by cases hf⟩
  · refine ⟨honce, huncounted, fun a => ?_, fun _ _ => rfl, fun _ hf => by cases hf⟩
    by_cases ha : a = frame
    · simp only [setAt, ha, if_true]
      exact hsettled
    · simpa only [setAt, ha, if_false] using hframes a

/-- **Every step that meets the condition keeps the invariant.** -/
theorem rewindInv_step (hi : RewindInv s) (hgood : FirstPass s act) (hs : SigStep env s act s') :
    RewindInv s' := by
  cases act with
  | run user =>
    simp only [SigStep, SigState.step] at hs
    split_ifs at hs with hu
    cases hs
    exact ⟨hi.once, hi.uncounted, hi.frames, fun hk => (by simp [hu] at hk),
      fun hk => (by simp [hu] at hk)⟩
  | write addr scRegs => exact rewindInv_write hi hs
  | trap scause => exact rewindInv_trap hi hs
  | ecall ret => exact rewindInv_ecall hi hs
  | sigreturn => exact rewindInv_sigreturn hi hs
  | pass getSignal => exact rewindInv_pass hi hgood hs
  | resume =>
    simp only [SigStep, SigState.step] at hs
    split_ifs at hs
    cases hs
    exact ⟨hi.once, hi.uncounted, hi.frames, fun hk => (by cases hk), fun hk => (by cases hk)⟩

/-- **A later pass that moves `sepc` back goes wrong**: for a system call it is the second time,
for another context the saved `sepc` no longer fits. -/
theorem firstPass_of_rewoundOnce (hi : RewindInv s) (hs : SigStep env s act s')
    (h : RewoundOnce s') : FirstPass s act := by
  cases act with
  | pass getSignal =>
    intro hm
    by_contra hf
    obtain ⟨hu, hcase⟩ := sigStep_pass hs
    have hsettled := hi.settled hu (eq_false_of_ne_true hf)
    have hrewinds : s'.rewinds = s.passRewinds getSignal := by
      rcases hcase with rfl | ⟨_, _, rfl⟩ <;> rfl
    have hsepc : (restartSwitch getSignal s.regs).sepc = s.regs.sepc - 0x4 := by
      simp [restartSwitch_sepc, hm]
    cases ho : s.origin with
    | call n =>
      rw [ho] at hsettled
      obtain ⟨call, -, ⟨-, -, hnone⟩ | ⟨hone, -⟩⟩ := hsettled
      · exact absurd (movesBack_isRestart hm) (by simp [hnone])
      · have htwice := h.once n
        rw [hrewinds, passRewinds_moved hm ho, if_pos rfl] at htwice
        omega
    | «at» pc =>
      rw [ho] at hsettled
      refine sub_four_ne s.regs.sepc ?_
      rw [← hsepc]
      rcases hcase with rfl | ⟨frame, regs, rfl⟩
      · have hfits := h.regs hu
        simp only [ho] at hfits
        exact Eq.trans hfits hsettled.symm
      · have hfits := h.frames frame
        simp only [setAt, if_true, ho] at hfits
        exact Eq.trans hfits hsettled.symm
  | run user => trivial
  | write addr scRegs => trivial
  | trap scause => trivial
  | ecall ret => trivial
  | sigreturn => trivial
  | resume => trivial

end Runs

/-- The run of a list of actions, up to the first one that is not possible. -/
def SigState.trace (s : SigState w) : List (SigAct w) → List (SigAct w × SigState w)
  | [] => []
  | act :: acts =>
    match s.step env act with
    | none => []
    | some s' => (act, s') :: s'.trace acts

theorem SigState.isRun_trace (s : SigState w) (acts : List (SigAct w)) :
    IsRun (SigStep env) s (s.trace env acts) := by
  induction acts generalizing s with
  | nil => trivial
  | cons act acts ih =>
    cases hs : s.step env act with
    | none => simp [trace, hs, IsRun]
    | some s' => simpa [trace, hs, IsRun] using ⟨hs, ih s'⟩

/-- **Exactly when `sepc` is moved back at most once for a system call**: along every run, for any
nesting of handlers, iff every pass that moves it back is the first one after the return of a
system call other than `rt_sigreturn`. -/
theorem rewound_once_iff (regs : PtRegs w) (frames : Word w → UserRegs w)
    (acts : List (SigAct w)) :
    let start := SigState.start regs frames
    Always RewoundOnce start (start.trace env acts) ↔
      Meets FirstPass start (start.trace env acts) :=
  (SigState.isRun_trace env _ acts).always_iff_meets (fun _ => RewindInv.rewoundOnce)
    (fun _ _ _ hi hgood hs => rewindInv_step hi hgood hs)
    (fun _ _ _ hi hs h => firstPass_of_rewoundOnce hi hs h) (rewindInv_start regs frames)

/-- A signal with a handler that restarts system calls. -/
def restartSignal : Ksignal .rv64 := ⟨14, 0x20000, true⟩

/-- A `read` that is interrupted by a signal, whose handler returns while another signal is
pending that `do_signal` then finds gone. -/
def doubleRun : List (SigAct .rv64 × SigState .rv64) :=
  (SigState.start readCall fun _ => readCall.user).trace plainEnv
    [.ecall erestartsys, .pass (some restartSignal), .resume, .sigreturn, .pass none]

/-- **The second pass moves `sepc` to before the `ecall`.** -/
theorem rewound_twice :
    (doubleRun.map fun e => e.2.rewinds 0) = [0, 1, 1, 1, 2] ∧
      (doubleRun.getLast?.map fun e => e.2.regs.sepc) = some (readCall.sepc - 0x4) ∧
      ¬Always RewoundOnce (SigState.start readCall fun _ => readCall.user) doubleRun := by
  have hcounts : (doubleRun.map fun e => e.2.rewinds 0) = [0, 1, 1, 1, 2] := by decide
  refine ⟨hcounts, by decide, fun hall => ?_⟩
  have hmem : 2 ∈ doubleRun.map fun e => e.2.rewinds 0 := by simp [hcounts]
  obtain ⟨e, he, htwo⟩ := List.mem_map.mp hmem
  have honce := (hall.2 e he).once 0
  omega

end LowriscLinux.Kernel
