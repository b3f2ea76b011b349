import LowriscLinux.Kernel.Sigreturn
import LowriscLinux.Kernel.Rewind

/-!
# The return path after `rt_sigreturn`

A program is interrupted by a signal, its handler comes back with the `ecall` of the trampoline, and
`rt_sigreturn` has loaded the registers from the frame. Between that and user mode is the loop of
`arch/riscv/kernel/entry.S` that looks for work. This file says what the program goes on with.

## What models what

* `Returned.toProc`: `ret_from_syscall` (`entry.S`, lines 182 to 184), which stores the result of
  `rt_sigreturn` in `a0`. `Returned.onward` is this and `returnPath`.
* `returnPath`: `ret_from_exception` to `work_resched` (lines 191 to 223), one `Pass` for each time
  `resume_userspace` finds work, with the flags that it reads and what `get_signal` finds. With no
  more work it is `RESTORE_ALL` and `sret` (`Proc.resume`). `SR_PS` is clear in the status of a trap
  from user mode, so the branch to `restore_all` is not taken.
* `Proc.doSignal`: `do_signal` and `handle_signal` (`signal.c`, lines 157 to 218) with everything a
  frame holds. The restart switches are those of `Signal`. A frame that cannot be set up leaves the
  registers as the switch has made them, and the unit saved if the frame was an address of the user.

Where it departs from the source:

* `work_resched` comes back at once: no other task runs.
* The flag of `TIF_RESTORE_SIGMASK` is clear, since `signal_delivered` cleared it when the frame was
  made, so the mask to save is that of the task and `restore_saved_sigmask` does nothing.
* The `SIGSEGV` that a frame that cannot be set up forces is one of the answers of `get_signal` that
  follow. If it is blocked, the task ends there, and no run of `returnPath` is about it.
* `tracehook_notify_resume` leaves the task alone, and the task is not traced.

## Results

* `switches_user_eq_iff`: the restart switches of a list of passes leave the user registers alone
  iff `Kept` holds.
* `returnPath_context`: but for these switches, what the program goes on with is what it had, in
  user mode or in the frame of the next handler.
* **`sigreturn_inverse_iff`**: a return with the frame of the delivery brings back the user
  registers, the floating-point registers and the mask iff `Kept` holds, that is (`2 ^ XLEN` passes
  aside) unless a restart code was in `a0` at the delivery and `do_signal` runs again.
* `sigreturn_movesBack`: a program that is interrupted with `-ERESTARTSYS` in `a0` and goes on four
  bytes before the instruction where it was.
-/

namespace LowriscLinux.Kernel

open Lib Fp

variable {w : Xlen}

/-! ## The path -/

/-- What the return path finds to do: the flags of the task, and the answer of `get_signal`. -/
structure Pass (w : Xlen) where
  needResched : Bool
  sigpending : Bool
  getSignal : Option (Ksignal w)

/-- `do_signal`, on what `get_signal` finds: the task after it, and the frame if there is one. -/
def Proc.doSignal (env : FrameEnv w) (getSignal : Option (Ksignal w)) (p : Proc w) :
    Proc w × Option (Delivered w) :=
  match getSignal with
  | some ksig =>
    let p := { p with regs := handleSignalRestart ksig p.regs }
    match setupFrame env ksig p.blocked p with
    | some d => (d.proc, some d)
    | none =>
      if env.accessOk (getSigframe env.toSigEnv ksig p.regs) then
        (p.setFp (fstateSave p.hw p.thread), none)
      else (p, none)
  | none => ({ p with regs := doSignalRestart p.regs }, none)

/-- How a task leaves the kernel: to where its registers say, or to a handler. -/
inductive Onward (w : Xlen)
  | user (u : UserCtx w)
  | handler (d : Delivered w)

/-- `ret_from_exception`, up to user mode or to the first signal that is delivered. -/
def returnPath (env : FrameEnv w) : List (Pass w) → Proc w → Onward w
  | [], p => .user p.resume
  | pass :: passes, p =>
    -- `work_resched` comes before `work_notifysig`
    if pass.needResched then returnPath env passes p
    else if pass.sigpending then
      match p.doSignal env pass.getSignal with
      | (_, some d) => .handler d
      | (p', none) => returnPath env passes p'
    else returnPath env passes p

/-- `ret_from_syscall`, after `rt_sigreturn`. -/
def Returned.toProc (back : Returned w) : Proc w :=
  { back.proc with regs := retFromSyscall back.proc.regs back.ret }

/-- The way from `rt_sigreturn` out of the kernel. -/
def Returned.onward (env : FrameEnv w) (passes : List (Pass w)) (back : Returned w) : Onward w :=
  returnPath env passes back.toProc

/-! ## What a program goes on with -/

/-- What an interrupted program goes on with. -/
@[ext]
structure Context (w : Xlen) where
  user : UserRegs w
  /-- The floating-point unit is off. -/
  off : Bool
  fp : FpRegs
  blocked : BitVec 64

def Context.withUser (c : Context w) (user : UserRegs w) : Context w := { c with user := user }

/-- The context of a task in the kernel that is to have a mask. -/
def Proc.context (p : Proc w) (set : SigMask) : Context w :=
  ⟨p.regs.user, fsOff p.regs.sstatus, p.hw.regs, set.val⟩

/-- The context is in the registers, or in the frame of the handler that runs first. -/
def Onward.context : Onward w → Context w
  | .user u => ⟨u.user, fsOff u.hw.sstatus, u.hw.regs, u.blocked.val⟩
  | .handler d =>
    ⟨(PtRegs.ofBytes d.contents.scRegs : PtRegs w).user, fsOff d.proc.regs.sstatus,
      .ofBytes d.contents.scFpregs, d.contents.ucSigmask⟩

/-- What a handler can do to the unit, in user mode and in the stays of its task in the kernel: it
writes the registers only if the unit is on, and does not turn it on or off. -/
structure HandlerRun (hw hw' : Fpu w) : Prop where
  unit : fsOff hw'.sstatus = fsOff hw.sstatus
  regs : fsOff hw.sstatus = true → hw'.regs = hw.regs

namespace HandlerRun

variable {hw hw' hw'' : Fpu w}

theorem trans (h : HandlerRun hw hw') (h' : HandlerRun hw' hw'') : HandlerRun hw hw'' where
  unit := h'.unit.trans h.unit
  regs := fun hoff => (h'.regs (h.unit.trans hoff)).trans (h.regs hoff)

/-- The handler writes the registers. -/
theorem fpWrite (hon : fsOff hw.sstatus = false) (regs : FpRegs) :
    HandlerRun hw ⟨fpStatus hw.sstatus, regs⟩ where
  unit := (fsOff_fpStatus _).trans hon.symm
  regs := fun hoff => by rw [hon] at hoff; cases hoff

/-- The handler's task stays in the kernel for a while. -/
theorem stay (hw : Fpu w) (task : Thread w) : HandlerRun hw (leave (enter (hw, task))).1 where
  unit := by
    show fsOff (sretStatus (csrStatus (trapStatus true hw.sstatus))) = _
    rw [fsOff_sretStatus, fsOff_csrStatus, fsOff_trapStatus]
  regs := fun _ => rfl

end HandlerRun

/-! ## The restart switches of a list of passes -/

/-- A pass moves `sepc` back for a code in `a0`, after a system call. -/
def replays (code : Word w) : Option (Ksignal w) → Bool
  | some ksig => code = erestartnointr || (code = erestartsys && ksig.saRestart)
  | none => isRestart code

/-- The restart switches, one after the other. -/
def switches (regs : PtRegs w) (answers : List (Option (Ksignal w))) : PtRegs w :=
  answers.foldl (fun regs getSignal => restartSwitch getSignal regs) regs

/-- **When passes of `do_signal` leave the user registers alone**: no restart code is in `a0`, or
there is no pass at all. Otherwise every pass would have to move `sepc` back, so often that it is
where it was. -/
def Kept (user : UserRegs w) (answers : List (Option (Ksignal w))) : Prop :=
  isRestart (user.x .a0) = false ∨ answers = [] ∨
    (∀ getSignal ∈ answers, replays (user.x .a0) getSignal = true) ∧
      2 ^ (8 * szreg w) ∣ 4 * answers.length ∧
      (user.x .a0 = erestartRestartblock → user.x .a7 = nrRestartSyscall)

section Switches

variable {regs : PtRegs w} {getSignal : Option (Ksignal w)} {answers : List (Option (Ksignal w))}

theorem movesBack_eq (hc : regs.scause = excSyscall) :
    movesBack getSignal regs = replays (regs.x .a0) getSignal := by
  cases getSignal <;> simp [movesBack, replays, hc]

/-- A switch changes no other words than `sepc`, `a0` and `a7`. -/
theorem restartSwitch_get {s : Slot} (hpc : s ≠ .sepc) (ha0 : s ≠ .x .a0) (ha7 : s ≠ .x .a7) :
    (restartSwitch getSignal regs).get s = regs.get s := by
  have hset : ∀ (regs : PtRegs w) (r : Reg) (v : Word w), s ≠ .x r →
      (regs.setX r v).get s = regs.get s := by
    intro regs r v hr
    cases s with
    | x r' => exact if_neg fun h => hr (congrArg Slot.x h)
    | _ => rfl
  have hback : ∀ regs : PtRegs w, regs.moveBack.get s = regs.get s := by
    intro regs
    cases s with
    | sepc => exact absurd rfl hpc
    | _ => rfl
  cases getSignal with
  | some ksig =>
    show (handleSignalRestart ksig regs).get s = _
    unfold handleSignalRestart
    split_ifs <;> simp only [hset _ _ _ ha0, hback]
  | none =>
    show (doSignalRestart regs).get s = _
    unfold doSignalRestart
    split_ifs <;> simp only [hset _ _ _ ha7, hback]

@[simp] theorem restartSwitch_scause : (restartSwitch getSignal regs).scause = regs.scause :=
  restartSwitch_get (s := .scause) nofun nofun nofun

@[simp] theorem restartSwitch_sstatus : (restartSwitch getSignal regs).sstatus = regs.sstatus :=
  restartSwitch_get (s := .sstatus) nofun nofun nofun

@[simp] theorem restartSwitch_sp : (restartSwitch getSignal regs).x .sp = regs.x .sp :=
  restartSwitch_get (s := .x .sp) nofun nofun nofun

/-- A switch looks at the user registers and the cause, and changes user registers. -/
theorem restartSwitch_congr {regs' : PtRegs w} (huser : regs'.user = regs.user)
    (hc : regs'.scause = regs.scause) :
    (restartSwitch getSignal regs').user = (restartSwitch getSignal regs).user := by
  obtain ⟨pc, x, sstatus, sbadaddr, scause⟩ := regs
  obtain ⟨pc', x', sstatus', sbadaddr', scause'⟩ := regs'
  cases huser
  cases hc
  cases getSignal with
  | some ksig =>
    show (handleSignalRestart ksig _).user = (handleSignalRestart ksig _).user
    unfold handleSignalRestart
    dsimp only
    split_ifs <;> rfl
  | none =>
    show (doSignalRestart _).user = (doSignalRestart _).user
    unfold doSignalRestart
    dsimp only
    split_ifs <;> rfl

theorem switches_congr {regs' : PtRegs w} (huser : regs'.user = regs.user)
    (hc : regs'.scause = regs.scause) :
    (switches regs' answers).user = (switches regs answers).user := by
  induction answers generalizing regs regs' with
  | nil => exact huser
  | cons getSignal answers ih => exact ih (restartSwitch_congr huser hc) (by simpa using hc)

/-- Without a restart code a switch does nothing. -/
theorem restartSwitch_of_none (h : isRestart (regs.x .a0) = false) :
    restartSwitch getSignal regs = regs := by
  simp only [isRestart, Bool.or_eq_false_iff, decide_eq_false_iff_not] at h
  obtain ⟨⟨⟨hsys, hnointr⟩, hnohand⟩, hblock⟩ := h
  cases getSignal with
  | some ksig => simp [restartSwitch, handleSignalRestart, hsys, hnointr, hnohand, hblock]
  | none => simp [restartSwitch, doSignalRestart, hsys, hnointr, hnohand, hblock]

/-- `regs->a7 = __NR_restart_syscall`, for the code that asks for it. -/
def restartBlock (regs : PtRegs w) : PtRegs w :=
  if regs.x .a0 = erestartRestartblock then regs.setX .a7 nrRestartSyscall else regs

/-- A switch that moves `sepc` back. -/
theorem restartSwitch_of_replays (hc : regs.scause = excSyscall)
    (h : replays (regs.x .a0) getSignal = true) :
    restartSwitch getSignal regs = (restartBlock regs).moveBack := by
  obtain ⟨h1, h2, h3, h4, h5⟩ := @errno_ne w
  cases getSignal with
  | some ksig =>
    simp only [replays, Bool.or_eq_true, Bool.and_eq_true, decide_eq_true_eq] at h
    unfold restartSwitch handleSignalRestart restartBlock
    rcases h with h | ⟨h, hflag⟩
    · simp [hc, h, h3, h4, h5]
    · simp [hc, h, h1, h2, hflag]
  | none =>
    simp only [replays, isRestart, Bool.or_eq_true, decide_eq_true_eq] at h
    unfold restartSwitch doSignalRestart restartBlock
    rcases h with ((h | h) | h) | h
    · simp [hc, h, h2]
    · simp [hc, h, h4]
    · have hne : (erestartnohand : Word w) ≠ erestartRestartblock := by
        simp [erestartnohand, erestartRestartblock, errno_eq_iff]
      simp [hc, h, hne]
    · have hne : (erestartRestartblock : Word w) ≠ erestartnohand := by
        simp [erestartnohand, erestartRestartblock, errno_eq_iff]
      simp [hc, h, hne, h2.symm, h4.symm]

/-- A switch that keeps `sepc` replaces a restart code. -/
theorem restartSwitch_of_not_replays (hc : regs.scause = excSyscall)
    (h : replays (regs.x .a0) getSignal = false) :
    isRestart ((restartSwitch getSignal regs).x .a0) = false := by
  obtain ⟨hm, -⟩ | ⟨-, -, hnone⟩ := @restartSwitch_cases _ getSignal _ hc
  · rw [movesBack_eq hc, h] at hm
    cases hm
  · exact hnone

theorem switches_of_none (h : isRestart (regs.x .a0) = false) : switches regs answers = regs := by
  induction answers with
  | nil => rfl
  | cons getSignal answers ih =>
    show switches (restartSwitch getSignal regs) answers = regs
    rw [restartSwitch_of_none h, ih]

@[simp] theorem restartBlock_a0 : (restartBlock regs).x .a0 = regs.x .a0 := by
  unfold restartBlock
  split_ifs <;> rfl

@[simp] theorem restartBlock_sepc : (restartBlock regs).sepc = regs.sepc := by
  unfold restartBlock
  split_ifs <;> rfl

@[simp] theorem restartBlock_scause : (restartBlock regs).scause = regs.scause := by
  unfold restartBlock
  split_ifs <;> rfl

theorem restartBlock_moveBack : restartBlock regs.moveBack = (restartBlock regs).moveBack := by
  unfold restartBlock
  split_ifs <;> simp_all [PtRegs.moveBack, PtRegs.setX]

theorem restartBlock_restartBlock : restartBlock (restartBlock regs) = restartBlock regs := by
  by_cases h : regs.x .a0 = erestartRestartblock
  · have hsame : (regs.setX .a7 nrRestartSyscall).x .a0 = erestartRestartblock := h
    simp only [restartBlock, h, hsame, if_true]
    refine PtRegs.ext rfl (funext fun r => ?_) rfl rfl rfl
    simp only [PtRegs.setX_x]
    split_ifs <;> rfl
  · simp only [restartBlock, h, if_false]

/-- The registers after passes that all move `sepc` back. -/
theorem switches_of_replays (hc : regs.scause = excSyscall) (hne : answers ≠ [])
    (h : ∀ getSignal ∈ answers, replays (regs.x .a0) getSignal = true) :
    (switches regs answers).user =
      ⟨regs.sepc - BitVec.ofNat _ (4 * answers.length), (restartBlock regs).x⟩ := by
  induction answers generalizing regs with
  | nil => exact absurd rfl hne
  | cons getSignal answers ih =>
    have hhead := restartSwitch_of_replays hc (h _ (List.mem_cons_self ..))
    show (switches (restartSwitch getSignal regs) answers).user = _
    rw [hhead]
    cases answers with
    | nil => simp [switches, PtRegs.user]
    | cons next rest =>
      rw [ih (by simpa using hc) (List.cons_ne_nil _ _)
        (fun g hg => by simpa using h g (List.mem_cons_of_mem _ hg)), restartBlock_moveBack,
        restartBlock_restartBlock]
      ext1
      · show (restartBlock regs).sepc - 0x4 - _ = _
        have hsum : BitVec.ofNat (8 * szreg w) (4 * (getSignal :: next :: rest).length)
            = 0x4 + BitVec.ofNat _ (4 * (next :: rest).length) := by
          rw [List.length_cons, Nat.mul_succ, Nat.add_comm, BitVec.ofNat_add]
          rfl
        rw [hsum, restartBlock_sepc, BitVec.sub_sub]
      · rfl

/-- A pass that replaces the restart code is the last to do anything. -/
theorem switches_of_not_replays (hc : regs.scause = excSyscall)
    (hcode : isRestart (regs.x .a0) = true)
    (h : ∃ getSignal ∈ answers, replays (regs.x .a0) getSignal = false) :
    isRestart ((switches regs answers).x .a0) = false := by
  induction answers generalizing regs with
  | nil =>
    obtain ⟨_, hmem, -⟩ := h
    cases hmem
  | cons getSignal answers ih =>
    show isRestart ((switches (restartSwitch getSignal regs) answers).x .a0) = false
    cases hhead : replays (regs.x .a0) getSignal with
    | false =>
      have hnone := restartSwitch_of_not_replays hc hhead
      rwa [switches_of_none hnone]
    | true =>
      obtain ⟨g, hmem, hg⟩ := h
      have hrest : g ∈ answers := by
        rcases List.mem_cons.mp hmem with rfl | hmem
        · rw [hhead] at hg
          cases hg
        · exact hmem
      rw [restartSwitch_of_replays hc hhead]
      exact ih (by simpa using hc) (by simpa using hcode) ⟨g, hrest, by simpa using hg⟩

theorem sub_ofNat_eq_self_iff (pc : Word w) (n : Nat) :
    pc - BitVec.ofNat _ n = pc ↔ 2 ^ (8 * szreg w) ∣ n := by
  rw [sub_eq_self, ← BitVec.toNat_inj, BitVec.toNat_ofNat, Nat.dvd_iff_mod_eq_zero]
  rfl

theorem restartBlock_x_eq_iff :
    (restartBlock regs).x = regs.x ↔
      (regs.x .a0 = erestartRestartblock → regs.x .a7 = nrRestartSyscall) := by
  unfold restartBlock
  split_ifs with h
  · refine ⟨fun hx _ => ?_, fun ha7 => funext fun r => ?_⟩
    · have := congrFun hx .a7
      simpa using this.symm
    · by_cases hr : r = .a7
      · simp [hr, ha7 h]
      · simp [hr]
  · exact ⟨fun _ hcode => absurd hcode h, fun _ => rfl⟩

/-- **Exactly when the restart switches leave the user registers alone.** -/
theorem switches_user_eq_iff (hc : regs.scause = excSyscall) :
    (switches regs answers).user = regs.user ↔ Kept regs.user answers := by
  unfold Kept
  show _ ↔ isRestart (regs.x .a0) = false ∨ answers = [] ∨
    (∀ getSignal ∈ answers, replays (regs.x .a0) getSignal = true) ∧ _ ∧
      (regs.x .a0 = erestartRestartblock → regs.x .a7 = nrRestartSyscall)
  cases hcode : isRestart (regs.x .a0) with
  | false => simp [switches_of_none hcode]
  | true =>
    by_cases hne : answers = []
    · simp [hne, switches]
    by_cases hall : ∀ getSignal ∈ answers, replays (regs.x .a0) getSignal = true
    · rw [switches_of_replays hc hne hall, UserRegs.ext_iff, ← sub_ofNat_eq_self_iff regs.sepc,
        ← restartBlock_x_eq_iff]
      simp only [Bool.true_eq_false, hne, false_or]
      exact ⟨fun h => ⟨hall, h⟩, fun h => h.2⟩
    · have hsome : ∃ getSignal ∈ answers, replays (regs.x .a0) getSignal = false := by
        simpa using hall
      have hnone := switches_of_not_replays hc hcode hsome
      simp only [Bool.true_eq_false, hne, hall, false_or, false_and, iff_false]
      intro huser
      have ha0 : (switches regs answers).x .a0 = regs.x .a0 := congrFun (congrArg UserRegs.x huser) _
      rw [ha0, hcode] at hnone
      cases hnone

end Switches

/-! ## The passes -/

/-- A frame can be made for a signal. -/
def makesFrame (env : SigEnv w) (regs : PtRegs w) (ksig : Ksignal w) : Bool :=
  env.accessOk (getSigframe env ksig regs) && env.writes (getSigframe env ksig regs)

/-- What `get_signal` answers on the return path, up to the first signal that a frame can be made
for. -/
def doSignalAnswers (env : SigEnv w) (regs : PtRegs w) :
    List (Pass w) → List (Option (Ksignal w))
  | [] => []
  | pass :: passes =>
    if pass.needResched || !pass.sigpending then doSignalAnswers env regs passes
    else if pass.getSignal.any (makesFrame env regs) then [pass.getSignal]
    else pass.getSignal :: doSignalAnswers env regs passes

section Path

variable {env : FrameEnv w} {frames : Word w → SigFrame} {p : Proc w} {ksig : Ksignal w}

theorem setupRtFrame_eq_none_iff {env : SigEnv w} {regs : PtRegs w} :
    setupRtFrame env ksig regs = none ↔ makesFrame env regs ksig = false := by
  unfold setupRtFrame makesFrame
  cases hok : env.accessOk (getSigframe env ksig regs) <;>
    cases hwrites : env.writes (getSigframe env ksig regs) <;> simp [hok, hwrites]

theorem makesFrame_congr {env : SigEnv w} {regs regs' : PtRegs w} (hsp : regs'.x .sp = regs.x .sp) :
    makesFrame env regs' = makesFrame env regs := by
  funext ksig
  unfold makesFrame getSigframe
  rw [hsp]

theorem doSignalAnswers_congr {env : SigEnv w} {regs regs' : PtRegs w}
    (hsp : regs'.x .sp = regs.x .sp) (passes : List (Pass w)) :
    doSignalAnswers env regs' passes = doSignalAnswers env regs passes := by
  induction passes with
  | nil => rfl
  | cons pass passes ih =>
    unfold doSignalAnswers
    rw [ih, makesFrame_congr hsp]

/-- A frame is set up where it can be. -/
theorem setupFrame_eq_none_iff {set : SigMask} :
    setupFrame env ksig set p = none ↔ makesFrame env.toSigEnv p.regs ksig = false := by
  unfold setupFrame
  rw [Option.map_eq_none_iff, setupRtFrame_eq_none_iff, makesFrame_congr]
  rfl

/-- A task after a restart switch, as far as a program can tell. -/
structure Switched (getSignal : Option (Ksignal w)) (p p' : Proc w) : Prop where
  user : p'.regs.user = (restartSwitch getSignal p.regs).user
  scause : p'.regs.scause = p.regs.scause
  off : fsOff p'.regs.sstatus = fsOff p.regs.sstatus
  fp : p'.hw.regs = p.hw.regs
  fstate : p'.fstate = p.hw.regs
  blocked : p'.blocked = p.blocked

/-- **A pass that delivers no signal** makes the restart switch, and nothing else that a program
can tell. -/
theorem doSignal_none {getSignal : Option (Ksignal w)} {p' : Proc w}
    (hsync : p.fstate = p.hw.regs) (h : p.doSignal env getSignal = (p', none)) :
    getSignal.any (makesFrame env.toSigEnv p.regs) = false ∧ Switched getSignal p p' := by
  cases getSignal with
  | none =>
    cases h
    exact ⟨rfl, rfl, @restartSwitch_scause _ p.regs none,
      congrArg fsOff (@restartSwitch_sstatus _ p.regs none), rfl, hsync, rfl⟩
  | some ksig =>
    have hscause := @restartSwitch_scause _ p.regs (some ksig)
    have hsstatus := @restartSwitch_sstatus _ p.regs (some ksig)
    simp only [Proc.doSignal] at h
    split at h
    · cases h
    · next hsetup =>
      have hframe : makesFrame env.toSigEnv p.regs ksig = false := by
        rw [← setupFrame_eq_none_iff.mp hsetup]
        exact (congrFun (makesFrame_congr (@restartSwitch_sp _ p.regs (some ksig))) ksig).symm
      refine ⟨hframe, ?_⟩
      split_ifs at h
      · -- the unit was saved before the frame failed
        cases h
        exact ⟨rfl, hscause, (fsOff_fstateSave _ _).trans (congrArg fsOff hsstatus),
          fstateSave_regs _ _, fstateSave_fstate _ _ fun _ => hsync, rfl⟩
      · cases h
        exact ⟨rfl, hscause, congrArg fsOff hsstatus, rfl, hsync, rfl⟩

/-- **A pass that delivers a signal** has made the restart switch and then a frame of the task. -/
theorem doSignal_some {getSignal : Option (Ksignal w)} {p' : Proc w} {d : Delivered w}
    (hsync : p.fstate = p.hw.regs) (h : p.doSignal env getSignal = (p', some d)) :
    getSignal.any (makesFrame env.toSigEnv p.regs) = true ∧
      (Onward.handler d).context =
        (p.context p.blocked).withUser (restartSwitch getSignal p.regs).user := by
  cases getSignal with
  | none => cases h
  | some ksig =>
    simp only [Proc.doSignal] at h
    split at h
    · next d' hsetup =>
      cases h
      have hframe : makesFrame env.toSigEnv p.regs ksig = true := by
        rw [← makesFrame_congr (@restartSwitch_sp _ p.regs (some ksig)), ← Bool.not_eq_false,
          ← setupFrame_eq_none_iff (p := { p with regs := restartSwitch (some ksig) p.regs })]
        exact Option.ne_none_iff_exists'.mpr ⟨d, hsetup⟩
      obtain ⟨hregs, hfpregs, hmask, -, hoff⟩ :=
        setupFrame_spec (p := { p with regs := restartSwitch (some ksig) p.regs })
          (fun _ => hsync) hsetup
      refine ⟨hframe, Context.ext ?_ ?_ ?_ hmask⟩
      · show (PtRegs.ofBytes d.contents.scRegs : PtRegs w).user = _
        rw [hregs, PtRegs.ofBytes_bytes]
        rfl
      · exact hoff.trans (congrArg fsOff (@restartSwitch_sstatus _ p.regs (some ksig)))
      · show FpRegs.ofBytes d.contents.scFpregs = _
        rw [hfpregs, FpRegs.ofBytes_bytes]
        rfl
    · split_ifs at h <;> cases h

/-- **What a program goes on with after the return path**: what it had, but for the restart
switches. -/
theorem returnPath_context (hsync : p.fstate = p.hw.regs) (passes : List (Pass w)) :
    (returnPath env passes p).context =
      (p.context p.blocked).withUser
        (switches p.regs (doSignalAnswers env.toSigEnv p.regs passes)).user := by
  induction passes generalizing p with
  | nil =>
    refine Context.ext rfl ?_ rfl rfl
    show fsOff (sretStatus (csrStatus p.regs.sstatus)) = _
    rw [fsOff_sretStatus, fsOff_csrStatus]
    rfl
  | cons pass passes ih =>
    unfold returnPath doSignalAnswers
    cases hresched : pass.needResched with
    | true => simpa using ih hsync
    | false =>
      cases hpending : pass.sigpending with
      | false => simpa using ih hsync
      | true =>
        simp only [Bool.false_eq_true, if_false, if_true, Bool.not_true, Bool.or_false]
        split
        · next p' d hpass =>
          obtain ⟨hframe, hcontext⟩ := doSignal_some hsync hpass
          rw [hframe, if_pos rfl, hcontext]
          rfl
        · next p' hpass =>
          obtain ⟨hframe, hsame⟩ := doSignal_none hsync hpass
          have hsp : p'.regs.x .sp = p.regs.x .sp :=
            (congrFun (congrArg UserRegs.x hsame.user) .sp).trans restartSwitch_sp
          rw [ih (hsame.fstate.trans hsame.fp.symm), hframe, if_neg Bool.false_ne_true,
            doSignalAnswers_congr hsp]
          refine Context.ext ?_ hsame.off hsame.fp (congrArg SigMask.val hsame.blocked)
          exact switches_congr hsame.user (hsame.scause.trans restartSwitch_scause.symm)

end Path

/-! ## Delivery and return -/

section Inverse

variable {env : FrameEnv w} {frames : Word w → SigFrame} {p : Proc w} {ksig : Ksignal w}
  {set : SigMask} {d : Delivered w} {u : UserCtx w} {sbadaddr : Word w}

/-- **What `rt_sigreturn` and `ret_from_syscall` leave**: the task as it was at the delivery, after
a system call. -/
theorem sigreturn_restores (hsync : fsDirty p.regs.sstatus = false → p.fstate = p.hw.regs)
    (hsetup : setupFrame env ksig set p = some d) (hrun : HandlerRun d.proc.resume.hw u.hw)
    (hsp : u.user.x .sp = d.frame) (hkept : frames d.frame = d.contents)
    (hgood : (sigreturn env frames (u.ecall sbadaddr)).badframe = false) :
    let p' := (sigreturn env frames (u.ecall sbadaddr)).toProc
    p'.context p'.blocked = p.context set ∧ p'.fstate = p'.hw.regs ∧
      p'.regs.scause = excSyscall := by
  obtain ⟨hscRegs, hscFpregs, hmask, hdregs, hdoff⟩ := setupFrame_spec hsync hsetup
  obtain ⟨hret, huser, hregs, hfstate, hoff, hblocked⟩ := sigreturn_good hgood
  have hframe : frames ((u.ecall sbadaddr).regs.x .sp) = d.contents := by
    rw [← hkept, ← hsp]
    rfl
  rw [hframe, hscRegs, PtRegs.user_copyIn fun _ _ => rfl] at huser
  rw [hframe, hscFpregs, FpRegs.ofBytes_bytes] at hregs hfstate
  rw [hframe, hmask, env.keepsMask] at hblocked
  -- the unit is on after the handler iff it was at the delivery
  have hresume : fsOff d.proc.resume.hw.sstatus = fsOff p.regs.sstatus := by
    show fsOff (sretStatus (csrStatus d.proc.regs.sstatus)) = _
    rw [fsOff_sretStatus, fsOff_csrStatus, hdoff]
  have hentry : fsOff (u.ecall sbadaddr).regs.sstatus = fsOff p.regs.sstatus := by
    show fsOff (trapStatus true u.hw.sstatus) = _
    rw [fsOff_trapStatus, hrun.unit, hresume]
  have hfp : (sigreturn env frames (u.ecall sbadaddr)).proc.hw.regs = p.hw.regs := by
    rw [hregs, hentry]
    split_ifs with ho
    · exact (hrun.regs (hresume.trans ho)).trans hdregs
    · rfl
  refine ⟨Context.ext (UserRegs.ext ?_ ?_) (hoff.trans hentry) hfp (congrArg SigMask.val hblocked),
    hfstate.trans hfp.symm, (sigreturn_privileged env frames _).scause⟩
  · show (sigreturn env frames (u.ecall sbadaddr)).proc.regs.sepc = _
    exact congrArg UserRegs.pc huser
  · have hx : ∀ r, (sigreturn env frames (u.ecall sbadaddr)).proc.regs.x r = p.regs.x r :=
      fun r => congrFun (congrArg UserRegs.x huser) r
    funext r
    show (retFromSyscall _ _).x r = p.regs.x r
    rw [retFromSyscall_x, hret, hx, hx]
    split_ifs with hr
    · rw [hr]
    · rfl

/-- **Exactly when delivery and return are inverse**, for the user registers, the floating-point
registers and the mask; no frame at all reaches the privileged words. -/
theorem sigreturn_inverse_iff (hsync : fsDirty p.regs.sstatus = false → p.fstate = p.hw.regs)
    (hsetup : setupFrame env ksig set p = some d) (hrun : HandlerRun d.proc.resume.hw u.hw)
    (hsp : u.user.x .sp = d.frame) (hkept : frames d.frame = d.contents)
    (hgood : (sigreturn env frames (u.ecall sbadaddr)).badframe = false)
    (passes : List (Pass w)) :
    let back := sigreturn env frames (u.ecall sbadaddr)
    ((back.onward env passes).context = p.context set ∧
        ∀ (env : FrameEnv w) (frames : Word w → SigFrame) (p : Proc w),
          KeepsPrivileged p.regs (sigreturn env frames p).proc.regs) ↔
      Kept p.regs.user (doSignalAnswers env.toSigEnv p.regs passes) := by
  intro back
  obtain ⟨hcontext, hfp, hcause⟩ := sigreturn_restores hsync hsetup hrun hsp hkept hgood
  have huser : back.toProc.regs.user = p.regs.user := congrArg Context.user hcontext
  have hsame : back.toProc.regs.x .sp = p.regs.x .sp := congrFun (congrArg UserRegs.x huser) .sp
  have honward : (back.onward env passes).context =
      (p.context set).withUser
        (switches back.toProc.regs (doSignalAnswers env.toSigEnv p.regs passes)).user := by
    rw [← doSignalAnswers_congr hsame, ← hcontext]
    exact returnPath_context hfp passes
  rw [honward, and_iff_left sigreturn_privileged, Context.ext_iff]
  show (switches _ _).user = p.regs.user ∧ _ ∧ _ ∧ _ ↔ _
  rw [and_iff_left ⟨rfl, rfl, rfl⟩, ← huser]
  exact switches_user_eq_iff hcause

end Inverse

/-- User memory that can be read and written everywhere. -/
def plainFrameEnv : FrameEnv w where
  toSigEnv := plainEnv
  setCurrentBlocked set := ⟨set &&& ~~~unblockable, by rw [BitVec.and_assoc]; simp⟩
  keepsMask set := by
    ext1
    refine BitVec.eq_of_getLsbD_eq fun i hi => ?_
    have hbit := congrArg (fun v => BitVec.getLsbD v i) set.blockable
    simp only [BitVec.getLsbD_and] at hbit
    cases hu : unblockable.getLsbD i <;> simp_all
  regsRead _ := 0
  fpregsRead _ := 0

/-- A program that is interrupted at `0x10000` with a value in `a0`, other ones in the other
registers and in `f0`, …, `f31`. -/
def interrupted (a0 : Word .rv64) : Proc .rv64 where
  hw := ⟨0, ⟨fun i => 0x100 + BitVec.ofNat _ i.val, 3⟩⟩
  regs :=
    ⟨0x10000, fun r => if r = .sp then 0x8000 else if r = .a0 then a0 else if r = .ra then 0x4000 else 5,
      srPie ||| srFsDirty ||| srSd .rv64, 0, 0⟩
  fstate := ⟨fun _ => 0, 0⟩
  blocked := ⟨0x10, by decide⟩

def userSignal : Ksignal .rv64 := ⟨10, 0x20000, true⟩

def userDelivery (a0 : Word .rv64) : Delivered .rv64 :=
  (setupFrame plainFrameEnv userSignal (interrupted a0).blocked (interrupted a0)).get rfl

/-- The handler has written the floating-point registers and made a system call. -/
def handled (a0 : Word .rv64) : UserCtx .rv64 where
  hw := (leave (enter (⟨fpStatus (userDelivery a0).proc.resume.hw.sstatus, ⟨fun _ => 2, 0⟩⟩,
    (userDelivery a0).proc.thread))).1
  user := ⟨0x2000, fun r => if r = .sp then (userDelivery a0).frame else 7⟩
  fstate := (userDelivery a0).proc.fstate
  blocked := ⟨2, by decide⟩

/-- The return from the handler. -/
def returned (a0 : Word .rv64) : Returned .rv64 :=
  sigreturn plainFrameEnv (fun _ => (userDelivery a0).contents) ((handled a0).ecall 0)

/-- A signal is pending that is gone when `do_signal` looks for it. -/
def gonePass : Pass .rv64 := ⟨false, true, none⟩

/-- `schedule` is called, then a signal is gone, then one has a handler. -/
def busyPasses : List (Pass .rv64) :=
  [⟨true, true, some userSignal⟩, gonePass, ⟨false, true, some userSignal⟩]

/-- Without a restart code in `a0` every pass is harmless, and the next handler's frame has the
context of the first; with one, a single pass is not. -/
theorem sigreturn_inverse_iff_handled :
    ((returned 6).onward plainFrameEnv busyPasses).context
        = (interrupted 6).context (interrupted 6).blocked ∧
      doSignalAnswers plainEnv (interrupted 6).regs busyPasses = [none, some userSignal] ∧
      ((returned erestartsys).onward plainFrameEnv [gonePass]).context
        ≠ (interrupted erestartsys).context (interrupted erestartsys).blocked := by
  have hdirty : ∀ a0, fsDirty (interrupted a0).regs.sstatus = true := fun _ =>
    show fsDirty (srPie ||| srFsDirty ||| srSd .rv64) = true by decide
  have hiff := fun a0 (hon : fsOff (userDelivery a0).proc.resume.hw.sstatus = false) passes =>
    sigreturn_inverse_iff (p := interrupted a0) (u := handled a0)
      (fun h => absurd h (by simp [hdirty])) (Option.some_get _).symm
      ((HandlerRun.fpWrite hon _).trans (HandlerRun.stay _ _)) rfl rfl
      (show (sigreturn plainFrameEnv (fun _ => (userDelivery a0).contents)
        ((handled a0).ecall 0)).badframe = false from rfl) passes
  refine ⟨((hiff 6 (by decide) busyPasses).mpr (.inl rfl)).1, by decide, fun hsame => ?_⟩
  have hkept : Kept (interrupted erestartsys).regs.user [none] :=
    (hiff erestartsys (by decide) [gonePass]).mp ⟨hsame, sigreturn_privileged⟩
  rcases hkept with h | h | ⟨-, h, -⟩
  · revert h
    decide
  · cases h
  · revert h
    decide

/-- **The context is lost**: the program goes on four bytes before the instruction where it was. -/
theorem sigreturn_movesBack :
    let onward := (returned erestartsys).onward plainFrameEnv [gonePass]
    (returned erestartsys).badframe = false ∧ onward.context.user.pc = 0xfffc ∧
      onward.context ≠ (interrupted erestartsys).context (interrupted erestartsys).blocked := by
  have hpc : ((returned erestartsys).onward plainFrameEnv [gonePass]).context.user.pc = 0xfffc := by
    decide
  refine ⟨rfl, hpc, fun hsame => ?_⟩
  rw [hsame] at hpc
  revert hpc
  decide

end LowriscLinux.Kernel
