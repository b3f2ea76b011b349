import LowriscLinux.Kernel.Fstate
import LowriscLinux.Lib.Transition
import Mathlib.Logic.Function.Basic

/-!
# The floating-point context of a task

Model of the tasks that share a floating-point unit: the switches between them
(`arch/riscv/include/asm/switch_to.h`, lines 34-55), the clearing of `SR_FS` in `SAVE_ALL`
(`arch/riscv/kernel/entry.S`, lines 59-62), and `arch_dup_task_struct` and `copy_thread`
(`arch/riscv/kernel/process.c`, lines 72-106).

## What models what

A state is one hart and its tasks.

* `Task.thread`: the copy of the registers in memory, and the `sstatus` in `task_pt_regs`.
  `Task.nested` are the statuses that kernel traps have saved since the trap from user mode.
* `State.switchTo`: `switch_to`. The half for `prev` is `switchOut`, that for `next` is `switchIn`
  (`Kernel/Fstate.lean`). `__switch_to` itself moves no floating-point register.
* `State.archDupTaskStruct`: lines 72-77. The saved status is in the frame, which is no part of
  `task_struct`, so the copy keeps the status that its own stack holds.
* `State.copyThread`: lines 84-105, of which it keeps the status: that of the parent's frame, or
  `SR_PS | SR_PIE` for a kernel thread (line 90).
* `State.trap`: the hardware's part of a trap, then `SAVE_ALL`. `State.ret`: `RESTORE_ALL` and
  `sret`.

Where it departs from the source:
* The two steps of a fork are apart, and other tasks may run in between, or the fork may fail there
  (`Act.abort`): `copy_process` of the generic kernel allocates memory and may sleep.
* `exec` and signals are elsewhere (`Kernel/Rewind.lean`, `Kernel/ReturnPath.lean`): they change the
  registers on purpose.
* `last` is bookkeeping: what each task last had in its registers, `none` if its unit was off.

Results:
* `Inv.save`, `Inv.resume`: the two halves of a switch.
* `Inv.step`: the invariant, by step of the system.
* `sleep_of_run`: a task that is switched away from and back to has made a `sleep`.
* **`fp_isolated`**: in every run a task in user mode sees what it last had, and a child what its
  parent had at the fork; in the kernel the unit is off.
-/

namespace LowriscLinux.Kernel.Fp

open Lib

variable {w : Xlen}

/-! ## The tasks -/

/-- How far a task has come into being: `arch_dup_task_struct` makes it a copy, `copy_thread` ready
to run. -/
inductive Stage
  | absent
  | copied
  | ready
  deriving DecidableEq, Repr

structure Task (w : Xlen) where
  thread : Thread w
  /-- `PF_KTHREAD`. -/
  kthread : Bool
  stage : Stage
  /-- The statuses saved by the kernel traps that the task is in, innermost first. -/
  nested : List (Word w)

structure State (T : Type) (w : Xlen) where
  hw : Fpu w
  user : Bool
  cur : T
  task : T → Task w
  /-- The child that a task is about to make. -/
  forking : T → Option T
  last : T → Option FpRegs

namespace State

variable {T : Type} [DecidableEq T] (s : State T w)

def setTask (t : T) (task : Task w) : State T w := { s with task := Function.update s.task t task }

def thread (t : T) : Thread w := (s.task t).thread

/-- The unit after a step, with the thread of a task. -/
def setThread (t : T) (r : Fpu w × Thread w) : State T w :=
  { s with hw := r.1, task := Function.update s.task t { s.task t with thread := r.2 } }

/-- `__switch_to_aux`, then `__switch_to`. -/
def switchTo (next : T) : State T w :=
  let s' := s.setThread s.cur (switchOut s.hw (s.thread s.cur))
  { s'.setThread next (switchIn s'.hw (s'.thread next)) with cur := next }

/-- `arch_dup_task_struct(child, current)`: `task_struct` is copied, the frame is not. -/
def archDupTaskStruct (child : T) : State T w :=
  let s' := s.setThread s.cur (fstateSave s.hw (s.thread s.cur))
  { s' with
    task := Function.update s'.task child
      { thread := { fstate := (s'.thread s.cur).fstate, sstatus := (s.thread child).sstatus }
        kthread := (s.task s.cur).kthread
        stage := .copied
        nested := [] }
    forking := Function.update s.forking s.cur (some child)
    last := Function.update s.last child (s.last s.cur) }

/-- `copy_thread`, for the child that the current task is making. -/
def copyThread (child : T) : State T w :=
  let p := s.task child
  let sstatus := if p.kthread then srPs ||| srPie else (s.thread s.cur).sstatus
  { s with
    task := Function.update s.task child
      { p with thread := { p.thread with sstatus := sstatus }, stage := .ready }
    forking := Function.update s.forking s.cur none }

/-- A trap: the hardware's part and `SAVE_ALL`. -/
def trap : State T w :=
  let sstatus := trapStatus s.user s.hw.sstatus
  let task := s.task s.cur
  { s with
    hw := { s.hw with sstatus := csrc sstatus srFs }
    user := false
    task := Function.update s.task s.cur
      (if s.user then { task with thread := { task.thread with sstatus := sstatus } }
      else { task with nested := sstatus :: task.nested }) }

/-- `RESTORE_ALL` and `sret`, from a frame with the given status. -/
def ret (sstatus : Word w) : Fpu w := { s.hw with sstatus := sretStatus (csrStatus sstatus) }

end State

/-- What happens on the hart. -/
inductive Act (T : Type) (w : Xlen)
  /-- The program writes its floating-point registers. -/
  | fpWrite (regs : FpRegs)
  | trap
  /-- The kernel changes other bits of the status. -/
  | setStatus (sstatus : Word w)
  | ret
  | switchTo (next : T)
  | archDupTaskStruct (child : T)
  | copyThread
  /-- The fork fails in between. -/
  | abort

section System

variable {T : Type} [DecidableEq T]

def step (s : State T w) : Act T w → Option (State T w)
  | .fpWrite regs =>
    if s.user ∧ fsOff s.hw.sstatus = false then
      some { s with
        hw := ⟨fpStatus s.hw.sstatus, regs⟩, last := Function.update s.last s.cur (some regs) }
    else none
  | .trap => some s.trap
  | .setStatus sstatus =>
    if s.user = false ∧ sstatus &&& srFs = s.hw.sstatus &&& srFs then
      some { s with hw := { s.hw with sstatus := csrStatus sstatus } }
    else none
  | .ret =>
    if s.user then none
    else match (s.task s.cur).nested with
      | sstatus :: rest =>
        some { s with
          hw := s.ret sstatus
          task := Function.update s.task s.cur { s.task s.cur with nested := rest } }
      | [] =>
        if (s.thread s.cur).sstatus &&& srPs = 0 ∧ s.forking s.cur = none then
          some { s with hw := s.ret (s.thread s.cur).sstatus, user := true }
        else none
  | .switchTo next =>
    if s.user = false ∧ next ≠ s.cur ∧ (s.task next).stage = .ready then some (s.switchTo next)
    else none
  | .archDupTaskStruct child =>
    if s.user = false ∧ s.forking s.cur = none ∧ (s.task child).stage = .absent then
      some (s.archDupTaskStruct child)
    else none
  | .copyThread =>
    if s.user then none
    else match s.forking s.cur with
      | some child => some (s.copyThread child)
      | none => none
  | .abort =>
    if s.user then none
    else match s.forking s.cur with
      | some child =>
        some { s.setTask child { s.task child with stage := .absent } with
          forking := Function.update s.forking s.cur none }
      | none => none

/-- The status that says in which state the current task's registers are: the register itself in
user mode, the saved one in the kernel. -/
def State.live (s : State T w) : Word w :=
  if s.user then s.hw.sstatus else (s.thread s.cur).sstatus

/-- A start of the system: the running task's registers are those in memory, no fork is under way,
and a kernel thread never had the unit on. -/
structure Start (s : State T w) : Prop where
  synced : (s.thread s.cur).fstate = s.hw.regs
  running : s.last s.cur = seen s.live s.hw.regs
  waiting : ∀ t, t ≠ s.cur → s.last t = seen (s.thread t).sstatus (s.thread t).fstate
  kernel : s.user = false → fsOff s.hw.sstatus = true
  kthread : ∀ t, (s.task t).kthread = true →
    fsOff (s.thread t).sstatus = true ∧ (s.thread t).sstatus &&& srPs ≠ 0
  cur : (s.task s.cur).stage = .ready ∧ (s.user = true → (s.task s.cur).kthread = false)
  stage : ∀ t, (s.task t).stage ≠ .copied
  nested : ∀ t, (s.task t).nested = []
  forking : ∀ t, s.forking t = none

/-- **The invariant.** A task that waits has its registers in memory, and the running one has them
in the unit, and in memory too unless its status says that they will be saved. -/
structure Inv (s : State T w) : Prop where
  running : s.last s.cur = seen s.live s.hw.regs
  synced : fsOff s.live = false → (hasSd s.live && fsDirty s.live) = false →
    (s.thread s.cur).fstate = s.hw.regs
  waiting : ∀ t, t ≠ s.cur → (s.task t).stage = .ready →
    s.last t = seen (s.thread t).sstatus (s.thread t).fstate
  kernel : s.user = false → fsOff s.hw.sstatus = true
  kthread : ∀ t, (s.task t).kthread = true → (s.task t).stage = .ready →
    fsOff (s.thread t).sstatus = true ∧ (s.thread t).sstatus &&& srPs ≠ 0
  cur : (s.task s.cur).stage = .ready ∧ (s.user = true → (s.task s.cur).kthread = false)
  nested : ∀ t, ∀ v ∈ (s.task t).nested, fsOff v = true
  forking : ∀ p d, s.forking p = some d →
    (s.task p).stage = .ready ∧ (s.task d).stage = .copied ∧ (s.task d).nested = [] ∧
      (s.task d).kthread = (s.task p).kthread ∧
      s.last d = seen (s.thread p).sstatus (s.thread d).fstate
  parent : ∀ p q d, s.forking p = some d → s.forking q = some d → p = q
  busy : s.user = true → s.forking s.cur = none

omit [DecidableEq T] in
theorem Start.inv {s : State T w} (h : Start s) : Inv s where
  running := h.running
  synced := fun _ _ => h.synced
  waiting := fun t ht _ => h.waiting t ht
  kernel := h.kernel
  kthread := fun t ht _ => h.kthread t ht
  cur := h.cur
  nested := by simp [h.nested]
  forking := by simp [h.forking]
  parent := by simp [h.forking]
  busy := fun _ => h.forking _

variable {s : State T w}

omit [DecidableEq T] in
theorem State.live_of_user (s : State T w) (hu : s.user = true) : s.live = s.hw.sstatus := by
  simp [live, hu]

omit [DecidableEq T] in
theorem State.live_of_kernel (s : State T w) (hu : s.user = false) :
    s.live = (s.thread s.cur).sstatus := by
  simp [live, hu]

omit [DecidableEq T] in
theorem Inv.child_ne (h : Inv s) {p d t : T} (hp : s.forking p = some d)
    (ht : (s.task t).stage = .ready) : d ≠ t := by
  rintro rfl
  rw [(h.forking p d hp).2.1] at ht
  cases ht

/-- What is left to show for a step that changes the hart and the current task only. -/
structure Local (s s' : State T w) : Prop where
  cur : s'.cur = s.cur
  last : s'.last = s.last
  fork : s'.forking = s.forking
  other : ∀ t, t ≠ s.cur → s'.task t = s.task t
  stage : (s'.task s.cur).stage = (s.task s.cur).stage
  isKthread : (s'.task s.cur).kthread = (s.task s.cur).kthread
  running : seen s'.live s'.hw.regs = seen s.live s.hw.regs
  synced : fsOff s'.live = false → (hasSd s'.live && fsDirty s'.live) = false →
    (s'.thread s.cur).fstate = s'.hw.regs
  kernel : s'.user = false → fsOff s'.hw.sstatus = true
  kthread : (s'.task s.cur).kthread = true →
    (s'.user = false ∧ (s'.thread s.cur).sstatus = (s.thread s.cur).sstatus)
  nested : ∀ v ∈ (s'.task s.cur).nested, fsOff v = true
  parent : ∀ d, s.forking s.cur = some d →
    s'.user = false ∧ fsOff (s'.thread s.cur).sstatus = fsOff (s.thread s.cur).sstatus

omit [DecidableEq T] in
theorem Inv.local (h : Inv s) {s' : State T w} (hl : Local s s') : Inv s' where
  running := by rw [hl.cur, hl.last, hl.running, h.running]
  synced := by
    intro hon hclean
    rw [hl.cur]
    exact hl.synced hon hclean
  waiting := by
    intro t ht hready
    rw [hl.cur] at ht
    rw [hl.last, State.thread, hl.other t ht]
    rw [hl.other t ht] at hready
    exact h.waiting t ht hready
  kernel := hl.kernel
  kthread := by
    intro t hk hready
    by_cases ht : t = s.cur
    · subst ht
      rw [(hl.kthread hk).2]
      exact h.kthread _ (hl.isKthread ▸ hk) h.cur.1
    · rw [State.thread, hl.other t ht] at *
      exact h.kthread t hk hready
  cur := by
    rw [hl.cur]
    refine ⟨hl.stage.trans h.cur.1, fun hu => ?_⟩
    cases hk : (s'.task s.cur).kthread with
    | false => rfl
    | true =>
      rw [(hl.kthread hk).1] at hu
      cases hu
  nested := by
    intro t
    by_cases ht : t = s.cur
    · subst ht
      exact hl.nested
    · rw [hl.other t ht]
      exact h.nested t
  forking := by
    intro p d hp
    rw [hl.fork] at hp
    obtain ⟨hready, hcopied, hnil, hk, hlast⟩ := h.forking p d hp
    have hd := h.child_ne hp h.cur.1
    rw [State.thread, State.thread, hl.other d hd, hl.last]
    by_cases hpc : p = s.cur
    · subst hpc
      refine ⟨hl.stage.trans hready, hcopied, hnil, hk.trans hl.isKthread.symm, ?_⟩
      exact hlast.trans (seen_congr (hl.parent d hp).2.symm _)
    · rw [hl.other p hpc]
      exact ⟨hready, hcopied, hnil, hk, hlast⟩
  parent := by
    rw [hl.fork]
    exact h.parent
  busy := by
    intro hu
    rw [hl.fork, hl.cur]
    cases hf : s.forking s.cur with
    | none => rfl
    | some d =>
      rw [(hl.parent d hf).1] at hu
      cases hu

theorem Inv.fpWrite (h : Inv s) (hu : s.user = true) (regs : FpRegs) :
    Inv { s with
      hw := ⟨fpStatus s.hw.sstatus, regs⟩, last := Function.update s.last s.cur (some regs) } where
  running := by
    simp only [State.live, hu, if_true, Function.update_self]
    exact (seen_of_on (fsOff_fpStatus _) regs).symm
  synced := by
    intro _ hclean
    simp [State.live, hu, hasSd_fpStatus, fsDirty_fpStatus] at hclean
  waiting := by
    intro t ht hready
    exact (Function.update_of_ne ht _ _).trans (h.waiting t ht hready)
  kernel := by
    intro hk
    rw [hu] at hk
    cases hk
  kthread := h.kthread
  cur := h.cur
  nested := h.nested
  forking := by
    intro p d hp
    have hd := h.child_ne hp h.cur.1
    obtain ⟨hready, hcopied, hnil, hk, hlast⟩ := h.forking p d hp
    exact ⟨hready, hcopied, hnil, hk, (Function.update_of_ne hd _ _).trans hlast⟩
  parent := h.parent
  busy := h.busy

theorem Inv.trap (h : Inv s) : Inv s.trap := by
  have hcur : s.trap.task s.cur = if s.user then
      { s.task s.cur with thread :=
        { (s.task s.cur).thread with sstatus := trapStatus s.user s.hw.sstatus } }
      else { s.task s.cur with nested := trapStatus s.user s.hw.sstatus :: (s.task s.cur).nested } :=
    Function.update_self ..
  cases hu : s.user with
  | true =>
    rw [hu, if_pos rfl] at hcur
    have hlive : s.trap.live = trapStatus true s.hw.sstatus := by
      rw [s.trap.live_of_kernel rfl]
      show (s.trap.task s.cur).thread.sstatus = _
      rw [hcur]
    have hold := s.live_of_user hu
    have hnone : s.forking s.cur = none := h.busy hu
    refine h.local ⟨rfl, rfl, rfl, fun t ht => Function.update_of_ne ht _ _, by rw [hcur],
      by rw [hcur], ?_, ?_, fun _ => fsOff_csrc_srFs _, ?_, ?_, ?_⟩
    · rw [hlive, hold]
      exact seen_congr (fsOff_trapStatus _ _) _
    · intro hon hclean
      rw [hlive, fsOff_trapStatus] at hon
      rw [hlive, hasSd_trapStatus, fsDirty_trapStatus] at hclean
      rw [State.thread, hcur]
      exact h.synced (by rwa [hold]) (by rwa [hold])
    · intro hk
      rw [hcur] at hk
      rw [h.cur.2 hu] at hk
      cases hk
    · rw [hcur]
      exact h.nested s.cur
    · intro d hd
      rw [hnone] at hd
      cases hd
  | false =>
    rw [hu, if_neg (by simp)] at hcur
    have hthread : s.trap.thread s.cur = s.thread s.cur := by rw [State.thread, hcur]; rfl
    have hlive : s.trap.live = s.live := by
      rw [s.trap.live_of_kernel rfl, s.live_of_kernel hu]
      exact congrArg Thread.sstatus hthread
    refine h.local ⟨rfl, rfl, rfl, fun t ht => Function.update_of_ne ht _ _, by rw [hcur],
      by rw [hcur], by rw [hlive]; rfl, ?_, fun _ => fsOff_csrc_srFs _, ?_, ?_, ?_⟩
    · intro hon hclean
      rw [hlive] at hon hclean
      rw [hthread]
      exact h.synced hon hclean
    · exact fun _ => ⟨rfl, congrArg Thread.sstatus hthread⟩
    · rw [hcur]
      intro v hv
      rcases List.mem_cons.mp hv with rfl | hv
      · rw [fsOff_trapStatus]
        exact h.kernel hu
      · exact h.nested s.cur v hv
    · exact fun _ _ => ⟨rfl, by rw [hthread]⟩

omit [DecidableEq T] in
/-- The kernel changes the status register, and no state bit of it. -/
theorem Inv.setStatus (h : Inv s) (hu : s.user = false) {v : Word w} (hv : fsOff v = true) :
    Inv { s with hw := { s.hw with sstatus := v } } := by
  have hlive : State.live { s with hw := { s.hw with sstatus := v } } = s.live := by
    simp [State.live, hu, State.thread]
  refine h.local ⟨rfl, rfl, rfl, fun _ _ => rfl, rfl, rfl, by rw [hlive], ?_, fun _ => hv,
    fun _ => ⟨hu, rfl⟩, h.nested s.cur, fun _ _ => ⟨hu, rfl⟩⟩
  rw [hlive]
  exact h.synced

/-- The return from a kernel trap. -/
theorem Inv.retNested (h : Inv s) (hu : s.user = false) {v : Word w} {rest : List (Word w)}
    (hn : (s.task s.cur).nested = v :: rest) :
    Inv { s with
      hw := s.ret v
      task := Function.update s.task s.cur { s.task s.cur with nested := rest } } := by
  set s' : State T w := { s with
    hw := s.ret v
    task := Function.update s.task s.cur { s.task s.cur with nested := rest } }
  have hcur : s'.task s.cur = { s.task s.cur with nested := rest } := Function.update_self ..
  have hthread : s'.thread s.cur = s.thread s.cur := by rw [State.thread, hcur]; rfl
  have hlive : s'.live = s.live := by
    rw [s'.live_of_kernel hu, s.live_of_kernel hu]
    exact congrArg Thread.sstatus hthread
  have hoff := h.nested s.cur
  rw [hn] at hoff
  refine h.local ⟨rfl, rfl, rfl, fun t ht => Function.update_of_ne ht _ _, by rw [hcur],
    by rw [hcur], by rw [hlive]; rfl, ?_, fun _ => ?_, ?_, ?_, ?_⟩
  · intro hon hclean
    rw [hlive] at hon hclean
    rw [hthread]
    exact h.synced hon hclean
  · show fsOff (sretStatus (csrStatus v)) = true
    rw [fsOff_sretStatus, fsOff_csrStatus]
    exact hoff v (by simp)
  · exact fun _ => ⟨hu, congrArg Thread.sstatus hthread⟩
  · rw [hcur]
    exact fun v' hv' => hoff v' (by simp [hv'])
  · exact fun _ _ => ⟨hu, by rw [hthread]⟩

omit [DecidableEq T] in
/-- The return to user mode: a status that is dirty there has `SR_SD` set again. -/
theorem Inv.retUser (h : Inv s) (hu : s.user = false)
    (hps : (s.thread s.cur).sstatus &&& srPs = 0) (hf : s.forking s.cur = none) :
    Inv { s with hw := s.ret (s.thread s.cur).sstatus, user := true } := by
  have hlive := s.live_of_kernel hu
  refine h.local ⟨rfl, rfl, rfl, fun _ _ => rfl, rfl, rfl, ?_, ?_, fun hk => absurd hk (by simp),
    ?_, h.nested s.cur, ?_⟩
  · rw [hlive]
    exact seen_congr ((fsOff_sretStatus _).trans (fsOff_csrStatus _)) _
  · intro hon hclean
    change fsOff (sretStatus (csrStatus (s.thread s.cur).sstatus)) = false at hon
    change (hasSd (sretStatus (csrStatus (s.thread s.cur).sstatus)) &&
      fsDirty (sretStatus (csrStatus (s.thread s.cur).sstatus))) = false at hclean
    rw [fsOff_sretStatus, fsOff_csrStatus] at hon
    rw [hasSd_sretStatus, fsDirty_sretStatus, fsDirty_csrStatus] at hclean
    refine h.synced (by rwa [hlive]) ?_
    rw [hlive]
    cases hd : fsDirty (s.thread s.cur).sstatus with
    | false => simp
    | true => simp [hd, hasSd_csrStatus hd] at hclean
  · intro hk
    exact absurd hps (h.kthread _ hk h.cur.1).2
  · intro d hd
    rw [hf] at hd
    cases hd

theorem State.setThread_same (t : T) (r : Fpu w × Thread w) : (s.setThread t r).thread t = r.2 := by
  simp [State.thread, State.setThread]

theorem State.setThread_other {t t' : T} (ht : t' ≠ t) (r : Fpu w × Thread w) :
    (s.setThread t r).task t' = s.task t' := Function.update_of_ne ht _ _

/-- What a save of a task does, by a switch or for a copy. -/
structure Saves (hw : Fpu w) (thread : Thread w) (r : Fpu w × Thread w) : Prop where
  regs : r.1.regs = hw.regs
  unit : fsOff hw.sstatus = true → fsOff r.1.sstatus = true
  off : fsOff r.2.sstatus = fsOff thread.sstatus
  kept : fsOff thread.sstatus = true → r.2 = thread
  fstate : fsOff thread.sstatus = false → r.2.fstate = hw.regs

omit [DecidableEq T] in
theorem Inv.saves_switchOut (h : Inv s) (hu : s.user = false) :
    Saves s.hw (s.thread s.cur) (switchOut s.hw (s.thread s.cur)) where
  regs := switchOut_regs _ _
  unit := fsOff_switchOut_hw _ _
  off := fsOff_switchOut _ _
  kept hoff := by rw [switchOut_of_off _ _ hoff]
  fstate hon := by
    have hsynced := h.synced
    rw [s.live_of_kernel hu] at hsynced
    exact switchOut_fstate _ _ (hsynced hon)

omit [DecidableEq T] in
theorem Inv.saves_fstateSave (h : Inv s) (hu : s.user = false) :
    Saves s.hw (s.thread s.cur) (fstateSave s.hw (s.thread s.cur)) where
  regs := fstateSave_regs _ _
  unit := fsOff_fstateSave_hw _ _
  off := fsOff_fstateSave _ _
  kept hoff := by rw [fstateSave_of_off _ _ hoff]
  fstate hon := by
    have hsynced := h.synced
    rw [s.live_of_kernel hu] at hsynced
    exact fstateSave_fstate _ _ fun hclean => hsynced hon (by rw [hclean, Bool.and_false])

theorem Inv.save (h : Inv s) (hu : s.user = false) {r : Fpu w × Thread w}
    (hr : Saves s.hw (s.thread s.cur) r) : Inv (s.setThread s.cur r) := by
  have hthread := State.setThread_same (s := s) s.cur r
  have hcur : (s.setThread s.cur r).task s.cur = { s.task s.cur with thread := r.2 } :=
    Function.update_self ..
  have hlive : (s.setThread s.cur r).live = r.2.sstatus := by
    rw [(s.setThread s.cur r).live_of_kernel hu]
    exact congrArg Thread.sstatus hthread
  have hregs : (s.setThread s.cur r).hw.regs = s.hw.regs := hr.regs
  refine h.local ⟨rfl, rfl, rfl, fun t ht => State.setThread_other ht r, by rw [hcur],
    by rw [hcur], ?_, ?_, fun _ => hr.unit (h.kernel hu), ?_, ?_, ?_⟩
  · rw [hlive, s.live_of_kernel hu, hregs]
    exact seen_congr hr.off _
  · intro hon _
    rw [hlive, hr.off] at hon
    rw [hthread, hregs]
    exact hr.fstate hon
  · intro hk
    rw [hcur] at hk
    rw [hthread, hr.kept (h.kthread _ hk h.cur.1).1]
    exact ⟨hu, rfl⟩
  · rw [hcur]
    exact h.nested s.cur
  · intro d _
    rw [hthread]
    exact ⟨hu, hr.off⟩

omit [DecidableEq T] in
/-- A saved task may be left: what it last had is what it has in memory. -/
theorem Inv.parked (h : Inv s) (hu : s.user = false) {r : Fpu w × Thread w}
    (hr : Saves s.hw (s.thread s.cur) r) : s.last s.cur = seen r.2.sstatus r.2.fstate := by
  rw [h.running, s.live_of_kernel hu]
  cases hoff : fsOff (s.thread s.cur).sstatus with
  | true => rw [seen_of_off hoff, seen_of_off (hr.off.trans hoff)]
  | false => rw [hr.fstate hoff, seen_of_on hoff, seen_of_on (hr.off.trans hoff)]

/-- The next task is loaded, once the one that is left has its registers in memory. -/
theorem Inv.resume (h : Inv s) (hu : s.user = false) {next : T}
    (hparked : s.last s.cur = seen (s.thread s.cur).sstatus (s.thread s.cur).fstate)
    (hne : next ≠ s.cur) (hready : (s.task next).stage = .ready) :
    Inv { s.setThread next (switchIn s.hw (s.thread next)) with cur := next } := by
  have hlast := h.waiting next hne hready
  unfold switchIn
  set r := fstateRestore s.hw (s.thread next) with hr
  have hoff : fsOff r.2.sstatus = fsOff (s.thread next).sstatus := fsOff_fstateRestore _ _
  have hfstate : r.2.fstate = (s.thread next).fstate := fstateRestore_fstate _ _
  set s' : State T w := { s.setThread next r with cur := next } with hs'
  have hnext : s'.task next = { s.task next with thread := r.2 } := Function.update_self ..
  have hthread : s'.thread next = r.2 := by rw [State.thread, hnext]
  have hother : ∀ t, t ≠ next → s'.task t = s.task t := fun t ht => State.setThread_other ht r
  have hlive : s'.live = r.2.sstatus := by
    rw [s'.live_of_kernel hu]
    exact congrArg Thread.sstatus hthread
  constructor
  case running =>
    rw [hlive]
    refine hlast.trans ?_
    cases ho : fsOff (s.thread next).sstatus with
    | true => rw [seen_of_off ho, seen_of_off (hoff.trans ho)]
    | false =>
      rw [seen_of_on ho, seen_of_on (hoff.trans ho), ← fstateRestore_regs s.hw (s.thread next) ho]
      rfl
  case synced =>
    intro hon _
    rw [hlive, hoff] at hon
    show (s'.thread next).fstate = r.1.regs
    rw [hthread, hfstate, hr, fstateRestore_regs _ _ hon]
  case waiting =>
    intro t ht hrdy
    rw [hother t ht] at hrdy
    rw [State.thread, hother t ht]
    by_cases htc : t = s.cur
    · rw [htc]
      exact hparked
    · exact h.waiting t htc hrdy
  case kernel => exact fun _ => fsOff_fstateRestore_hw _ _ (h.kernel hu)
  case kthread =>
    intro t hk hrdy
    by_cases ht : t = next
    · subst ht
      rw [hnext] at hk
      have hold := h.kthread t hk hready
      rw [hthread, hr, fstateRestore_of_off _ _ hold.1]
      exact hold
    · rw [State.thread, hother t ht] at *
      exact h.kthread t hk hrdy
  case cur =>
    show (s'.task next).stage = .ready ∧ (s.user = true → _)
    rw [hnext]
    exact ⟨hready, fun hk => by rw [hu] at hk; cases hk⟩
  case nested =>
    intro t
    by_cases ht : t = next
    · rw [ht, hnext]
      exact h.nested next
    · rw [hother t ht]
      exact h.nested t
  case forking =>
    intro p d hp
    obtain ⟨hrdy, hcopied, hnil, hk, hl⟩ := h.forking p d hp
    have hd := h.child_ne hp hready
    rw [State.thread, State.thread, hother d hd]
    by_cases hpn : p = next
    · subst hpn
      rw [hnext]
      exact ⟨hrdy, hcopied, hnil, hk, hl.trans (seen_congr hoff.symm _)⟩
    · rw [hother p hpn]
      exact ⟨hrdy, hcopied, hnil, hk, hl⟩
  case parent => exact h.parent
  case busy =>
    intro hk
    change s.user = true at hk
    rw [hu] at hk
    cases hk

theorem Inv.switchTo (h : Inv s) (hu : s.user = false) {next : T} (hne : next ≠ s.cur)
    (hready : (s.task next).stage = .ready) : Inv (s.switchTo next) := by
  have hout := h.saves_switchOut hu
  refine (h.save hu hout).resume hu ?_ hne ?_
  · show s.last s.cur = seen (State.thread _ s.cur).sstatus (State.thread _ s.cur).fstate
    rw [State.setThread_same]
    exact h.parked hu hout
  · rw [State.setThread_other hne]
    exact hready

/-- What is left to show for a step that changes one task, and not the current one. -/
structure Aside (s s' : State T w) (child : T) : Prop where
  hw : s'.hw = s.hw
  user : s.user = false ∧ s'.user = false
  cur : s'.cur = s.cur
  ne : s.cur ≠ child
  other : ∀ t, t ≠ child → s'.task t = s.task t ∧ s'.last t = s.last t
  waiting : (s'.task child).stage = .ready →
    s'.last child = seen (s'.thread child).sstatus (s'.thread child).fstate
  kthread : (s'.task child).kthread = true → (s'.task child).stage = .ready →
    fsOff (s'.thread child).sstatus = true ∧ (s'.thread child).sstatus &&& srPs ≠ 0
  nested : (s'.task child).nested = []
  forking : ∀ p d, s'.forking p = some d →
    (s'.task p).stage = .ready ∧ (s'.task d).stage = .copied ∧ (s'.task d).nested = [] ∧
      (s'.task d).kthread = (s'.task p).kthread ∧
      s'.last d = seen (s'.thread p).sstatus (s'.thread d).fstate
  parent : ∀ p q d, s'.forking p = some d → s'.forking q = some d → p = q

omit [DecidableEq T] in
theorem Inv.aside (h : Inv s) {s' : State T w} {child : T} (ha : Aside s s' child) : Inv s' := by
  have htask : ∀ t, t ≠ child → s'.thread t = s.thread t := fun t ht =>
    congrArg Task.thread (ha.other t ht).1
  have hlive : s'.live = s.live := by
    rw [s.live_of_kernel ha.user.1, s'.live_of_kernel ha.user.2, ha.cur, htask _ ha.ne]
  constructor
  case running =>
    rw [ha.cur, (ha.other _ ha.ne).2, hlive, ha.hw]
    exact h.running
  case synced =>
    rw [hlive, ha.cur, htask _ ha.ne, ha.hw]
    exact h.synced
  case waiting =>
    intro t ht hready
    by_cases htc : t = child
    · subst htc
      exact ha.waiting hready
    · rw [ha.cur] at ht
      rw [(ha.other t htc).1] at hready
      rw [(ha.other t htc).2, htask t htc]
      exact h.waiting t ht hready
  case kernel =>
    rw [ha.hw]
    exact fun _ => h.kernel ha.user.1
  case kthread =>
    intro t hk hready
    by_cases htc : t = child
    · subst htc
      exact ha.kthread hk hready
    · rw [(ha.other t htc).1] at hk hready
      rw [htask t htc]
      exact h.kthread t hk hready
  case cur =>
    rw [ha.cur, (ha.other _ ha.ne).1, ha.user.2]
    exact ⟨h.cur.1, fun hu => by cases hu⟩
  case nested =>
    intro t
    by_cases htc : t = child
    · rw [htc, ha.nested]
      simp
    · rw [(ha.other t htc).1]
      exact h.nested t
  case forking => exact ha.forking
  case parent => exact ha.parent
  case busy =>
    rw [ha.user.2]
    exact fun hu => by cases hu

/-- The saved parent is copied. -/
theorem Inv.copy (h : Inv s) (hu : s.user = false) {child : T}
    (habsent : (s.task child).stage = .absent)
    (hparked : s.last s.cur = seen (s.thread s.cur).sstatus (s.thread s.cur).fstate) (v : Word w) :
    Inv { s with
      task := Function.update s.task child
        { thread := { fstate := (s.thread s.cur).fstate, sstatus := v }
          kthread := (s.task s.cur).kthread, stage := .copied, nested := [] }
      forking := Function.update s.forking s.cur (some child)
      last := Function.update s.last child (s.last s.cur) } := by
  set s' : State T w := { s with
    task := Function.update s.task child
      { thread := { fstate := (s.thread s.cur).fstate, sstatus := v }
        kthread := (s.task s.cur).kthread, stage := .copied, nested := [] }
    forking := Function.update s.forking s.cur (some child)
    last := Function.update s.last child (s.last s.cur) } with hs'
  have hother : ∀ t, t ≠ child → s'.task t = s.task t := fun t ht => Function.update_of_ne ht _ _
  have hchild : s'.task child = { thread := { fstate := (s.thread s.cur).fstate, sstatus := v }
                                  kthread := (s.task s.cur).kthread, stage := .copied
                                  nested := [] } := Function.update_self ..
  have hlast : ∀ t, t ≠ child → s'.last t = s.last t := fun t ht => Function.update_of_ne ht _ _
  have hne : ∀ t, (s.task t).stage ≠ .absent → t ≠ child := by
    rintro t ht rfl
    exact ht habsent
  have hcur : s.cur ≠ child := hne _ (by simp [h.cur.1])
  have hnotReady : (s'.task child).stage ≠ .ready := by simp [hchild]
  suffices ha : Aside s s' child from h.aside ha
  refine ⟨rfl, ⟨hu, hu⟩, rfl, hcur, fun t ht => ⟨hother t ht, hlast t ht⟩,
    fun hrdy => absurd hrdy hnotReady, fun _ hrdy => absurd hrdy hnotReady, by rw [hchild], ?_, ?_⟩
  · intro p d hp
    by_cases hpc : p = s.cur
    · subst hpc
      have hd : child = d := by simpa [hs'] using hp
      subst hd
      rw [State.thread, State.thread, hother _ hcur, hchild]
      exact ⟨h.cur.1, rfl, rfl, rfl, (Function.update_self ..).trans hparked⟩
    · have hp' : s.forking p = some d := by simpa [hs', hpc] using hp
      obtain ⟨hrdy, hcopied, hnil, hk, hl⟩ := h.forking p d hp'
      have hd := hne d (by simp [hcopied])
      rw [State.thread, State.thread, hother p (hne p (by simp [hrdy])), hother d hd, hlast d hd]
      exact ⟨hrdy, hcopied, hnil, hk, hl⟩
  · -- the child was absent, so no other task is about to make it
    have hfresh : ∀ p, s.forking p ≠ some child := by
      intro p hp
      rw [(h.forking p child hp).2.1] at habsent
      cases habsent
    intro p q d hp hq
    by_cases hpc : p = s.cur <;> by_cases hqc : q = s.cur
    · rw [hpc, hqc]
    · have hd : child = d := by simpa [hs', hpc] using hp
      exact absurd (by simpa [hs', hqc, hd] using hq) (hfresh q)
    · have hd : child = d := by simpa [hs', hqc] using hq
      exact absurd (by simpa [hs', hpc, hd] using hp) (hfresh p)
    · exact h.parent p q d (by simpa [hs', hpc] using hp) (by simpa [hs', hqc] using hq)

theorem Inv.archDupTaskStruct (h : Inv s) (hu : s.user = false) {child : T}
    (habsent : (s.task child).stage = .absent) : Inv (s.archDupTaskStruct child) := by
  have hout := h.saves_fstateSave hu
  set s' := s.setThread s.cur (fstateSave s.hw (s.thread s.cur)) with hs'
  have hne : child ≠ s.cur := by
    rintro rfl
    rw [h.cur.1] at habsent
    cases habsent
  have habsent' : (s'.task child).stage = .absent := by
    rw [hs', State.setThread_other hne, habsent]
  have hparked : s.last s.cur = seen (s'.thread s.cur).sstatus (s'.thread s.cur).fstate := by
    rw [hs', State.setThread_same]
    exact h.parked hu hout
  have hk : (s'.task s.cur).kthread = (s.task s.cur).kthread := by simp [hs', State.setThread]
  have hcopy := (h.save hu hout).copy hu habsent' hparked (s.thread child).sstatus
  unfold State.archDupTaskStruct
  rw [← hk]
  exact hcopy

/-- The child gets its frame, or is given up: what both have in common. -/
theorem Inv.settle (h : Inv s) (hu : s.user = false) {child : T}
    (hf : s.forking s.cur = some child) {task : Task w}
    (hnested : task.nested = []) (hkthread : task.kthread = (s.task child).kthread)
    (hlast : task.stage = .ready → s.last child = seen task.thread.sstatus task.thread.fstate)
    (hoff : task.stage = .ready → task.kthread = true →
      fsOff task.thread.sstatus = true ∧ task.thread.sstatus &&& srPs ≠ 0) :
    Inv { s.setTask child task with forking := Function.update s.forking s.cur none } := by
  set s' : State T w := { s.setTask child task with
    forking := Function.update s.forking s.cur none } with hs'
  have hother : ∀ t, t ≠ child → s'.task t = s.task t := fun t ht => Function.update_of_ne ht _ _
  have hchild : s'.task child = task := Function.update_self ..
  have hcopied := (h.forking _ _ hf).2.1
  have hcur : s.cur ≠ child := (h.child_ne hf h.cur.1).symm
  have hpending : ∀ p d, s'.forking p = some d → s.forking p = some d ∧ p ≠ s.cur := by
    intro p d hp
    by_cases hpc : p = s.cur
    · simp [hs', hpc] at hp
    · exact ⟨by simpa [hs', hpc] using hp, hpc⟩
  have hthread : s'.thread child = task.thread := congrArg Task.thread hchild
  suffices ha : Aside s s' child from h.aside ha
  refine ⟨rfl, ⟨hu, hu⟩, rfl, hcur, fun t ht => ⟨hother t ht, rfl⟩,
    ?_, ?_, by rw [hchild, hnested], ?_, ?_⟩
  · rw [hthread, hchild]
    exact hlast
  · rw [hthread, hchild]
    exact fun hk hrdy => hoff hrdy hk
  · intro p d hp
    obtain ⟨hp', hpc⟩ := hpending p d hp
    obtain ⟨hrdy, hcop, hnil, hk, hl⟩ := h.forking p d hp'
    have hd : d ≠ child := by
      rintro rfl
      exact hpc (h.parent p s.cur d hp' hf)
    have hpd : p ≠ child := by
      rintro rfl
      rw [hcopied] at hrdy
      cases hrdy
    rw [State.thread, State.thread, hother p hpd, hother d hd]
    exact ⟨hrdy, hcop, hnil, hk, hl⟩
  · intro p q d hp hq
    exact h.parent p q d (hpending p d hp).1 (hpending q d hq).1

/-- The status of a new kernel thread: supervisor mode, and the unit off. -/
theorem kthreadStatus : fsOff (srPs ||| srPie : Word w) = true ∧
    (srPs ||| srPie : Word w) &&& srPs ≠ 0 := by
  cases w <;> decide

theorem Inv.copyThread (h : Inv s) (hu : s.user = false) {child : T}
    (hf : s.forking s.cur = some child) : Inv (s.copyThread child) := by
  obtain ⟨-, -, hnil, hk, hlast⟩ := h.forking _ _ hf
  refine h.settle hu hf hnil rfl (fun _ => ?_) (fun _ hkt => ?_)
  · show _ = seen (if (s.task child).kthread then _ else _) _
    cases hkt : (s.task child).kthread with
    | false => exact hlast
    | true =>
      have hoff := (h.kthread s.cur (hk ▸ hkt) h.cur.1).1
      rw [hlast, seen_of_off hoff, if_pos rfl, seen_of_off kthreadStatus.1]
  · show fsOff (if (s.task child).kthread then _ else _) = true ∧
      (if (s.task child).kthread then _ else _) &&& srPs ≠ 0
    rw [if_pos hkt]
    exact kthreadStatus

/-- **The invariant is kept by every step.** -/
theorem Inv.step {a : Act T w} {s' : State T w} (h : Inv s) (hs : step s a = some s') : Inv s' := by
  cases a with
  | fpWrite regs =>
    simp only [Fp.step, Option.ite_none_right_eq_some, Option.some.injEq] at hs
    obtain ⟨⟨hu, -⟩, rfl⟩ := hs
    exact h.fpWrite hu regs
  | trap =>
    cases hs
    exact h.trap
  | setStatus v =>
    simp only [Fp.step, Option.ite_none_right_eq_some, Option.some.injEq] at hs
    obtain ⟨⟨hu, hv⟩, rfl⟩ := hs
    refine h.setStatus hu ?_
    rw [fsOff_csrStatus, fsOff, hv]
    exact h.kernel hu
  | ret =>
    simp only [Fp.step, Option.ite_none_left_eq_some, Bool.not_eq_true] at hs
    obtain ⟨hu, hs⟩ := hs
    split at hs
    · next v rest hn =>
      cases hs
      exact h.retNested hu hn
    · simp only [Option.ite_none_right_eq_some, Option.some.injEq] at hs
      obtain ⟨⟨hps, hf⟩, rfl⟩ := hs
      exact h.retUser hu hps hf
  | switchTo next =>
    simp only [Fp.step, Option.ite_none_right_eq_some, Option.some.injEq] at hs
    obtain ⟨⟨hu, hne, hready⟩, rfl⟩ := hs
    exact h.switchTo hu hne hready
  | archDupTaskStruct child =>
    simp only [Fp.step, Option.ite_none_right_eq_some, Option.some.injEq] at hs
    obtain ⟨⟨hu, -, habsent⟩, rfl⟩ := hs
    exact h.archDupTaskStruct hu habsent
  | copyThread =>
    simp only [Fp.step, Option.ite_none_left_eq_some, Bool.not_eq_true] at hs
    obtain ⟨hu, hs⟩ := hs
    split at hs
    · next child hf =>
      cases hs
      exact h.copyThread hu hf
    · cases hs
  | abort =>
    simp only [Fp.step, Option.ite_none_left_eq_some, Bool.not_eq_true] at hs
    obtain ⟨hu, hs⟩ := hs
    split at hs
    · next child hf =>
      cases hs
      exact h.settle hu hf (h.forking _ _ hf).2.2.1 rfl (fun hc => by cases hc)
        (fun hc => by cases hc)
    · cases hs

/-! ## A sleep is a run of the others -/

/-- A task that is not running is left alone until it is switched to. -/
theorem Inv.step_other {a : Act T w} {s' : State T w} (h : Inv s) (hs : Fp.step s a = some s')
    {x : T} (hx : s.cur ≠ x) (hx' : s'.cur ≠ x) (hready : (s.task x).stage = .ready) :
    s'.task x = s.task x := by
  cases a with
  | fpWrite regs =>
    simp only [Fp.step, Option.ite_none_right_eq_some, Option.some.injEq] at hs
    obtain ⟨-, rfl⟩ := hs
    rfl
  | trap =>
    cases hs
    exact Function.update_of_ne (Ne.symm hx) _ _
  | setStatus v =>
    simp only [Fp.step, Option.ite_none_right_eq_some, Option.some.injEq] at hs
    obtain ⟨-, rfl⟩ := hs
    rfl
  | ret =>
    simp only [Fp.step, Option.ite_none_left_eq_some] at hs
    obtain ⟨-, hs⟩ := hs
    split at hs
    · cases hs
      exact Function.update_of_ne (Ne.symm hx) _ _
    · simp only [Option.ite_none_right_eq_some, Option.some.injEq] at hs
      obtain ⟨-, rfl⟩ := hs
      rfl
  | switchTo next =>
    simp only [Fp.step, Option.ite_none_right_eq_some, Option.some.injEq] at hs
    obtain ⟨-, rfl⟩ := hs
    exact (State.setThread_other (Ne.symm hx') _).trans (State.setThread_other (Ne.symm hx) _)
  | archDupTaskStruct child =>
    simp only [Fp.step, Option.ite_none_right_eq_some, Option.some.injEq] at hs
    obtain ⟨⟨-, -, habsent⟩, rfl⟩ := hs
    have hne : x ≠ child := by
      rintro rfl
      rw [habsent] at hready
      cases hready
    exact (Function.update_of_ne hne _ _).trans (State.setThread_other (Ne.symm hx) _)
  | copyThread =>
    simp only [Fp.step, Option.ite_none_left_eq_some] at hs
    obtain ⟨-, hs⟩ := hs
    split at hs
    · next child hf =>
      cases hs
      exact Function.update_of_ne (h.child_ne hf hready).symm _ _
    · cases hs
  | abort =>
    simp only [Fp.step, Option.ite_none_left_eq_some] at hs
    obtain ⟨-, hs⟩ := hs
    split at hs
    · next child hf =>
      cases hs
      exact Function.update_of_ne (h.child_ne hf hready).symm _ _
    · cases hs

/-- The same along a run. -/
theorem Inv.run_other {run : List (Act T w × State T w)} (h : Inv s)
    (hrun : IsRun (fun s a s' => Fp.step s a = some s') s run) {x : T}
    (haway : Always (fun s => s.cur ≠ x) s run) (hready : (s.task x).stage = .ready) :
    (lastState s run).task x = s.task x := by
  induction run generalizing s with
  | nil => rfl
  | cons e rest ih =>
    obtain ⟨a, s'⟩ := e
    obtain ⟨hs, hrest⟩ := hrun
    obtain ⟨hx, haway⟩ := always_cons.mp haway
    have hkept := h.step_other hs hx haway.1 hready
    exact (ih (h.step hs) hrest haway (by rw [hkept, hready])).trans hkept

/-- **A sleep is what a task makes of a run of the others**: switched away from and back to, it has
the registers and the copy in memory that `sleep` gives. -/
theorem sleep_of_run {s₁ s₂ : State T w} {run : List (Act T w × State T w)} {next : T} (h : Inv s)
    (hout : step s (.switchTo next) = some s₁)
    (hrun : IsRun (fun s a s' => step s a = some s') s₁ run)
    (haway : Always (fun s' => s'.cur ≠ s.cur) s₁ run)
    (hback : step (lastState s₁ run) (.switchTo s.cur) = some s₂) :
    let c := sleep (s.hw, s.thread s.cur) (some (lastState s₁ run).hw.regs)
    s₂.hw.regs = c.1.regs ∧ s₂.thread s.cur = c.2 := by
  have h₁ : Inv s₁ := h.step hout
  simp only [Fp.step, Option.ite_none_right_eq_some, Option.some.injEq] at hout hback
  obtain ⟨⟨-, hne, -⟩, rfl⟩ := hout
  obtain ⟨⟨-, hcur, -⟩, rfl⟩ := hback
  -- the first switch leaves the task saved, and nothing touches it until the second one
  have hsaved : (s.switchTo next).task s.cur
      = { s.task s.cur with thread := (switchOut s.hw (s.thread s.cur)).2 } :=
    (State.setThread_other (Ne.symm hne) _).trans (Function.update_self ..)
  have hkept := h₁.run_other hrun haway (by rw [hsaved]; exact h.cur.1)
  have hthread : ∀ r, ((lastState (s.switchTo next) run).setThread
      (lastState (s.switchTo next) run).cur r).thread s.cur
        = (switchOut s.hw (s.thread s.cur)).2 := by
    intro r
    rw [State.thread, State.setThread_other hcur, hkept, hsaved]
  constructor
  · show (fstateRestore _ (State.thread _ s.cur)).1.regs = (fstateRestore _ _).1.regs
    rw [hthread, fstateRestore_regs_ite, fstateRestore_regs_ite]
    exact congrArg (fun r => if fsOff _ then r else _) (switchOut_regs _ _)
  · refine (State.setThread_same _ _).trans ?_
    rw [hthread]
    exact fstateRestore_thread _ _ _

/-- What the claim of isolation says of a state: a task in user mode sees what it last had, and in
the kernel the unit is off. -/
def Isolated (s : State T w) : Prop :=
  if s.user then seen s.hw.sstatus s.hw.regs = s.last s.cur else fsOff s.hw.sstatus = true

omit [DecidableEq T] in
theorem Inv.isolated (h : Inv s) : Isolated s := by
  unfold Isolated
  split_ifs with hu
  · rw [h.running, State.live, if_pos hu]
  · exact h.kernel (by simpa using hu)

/-- **The floating-point contexts are isolated**, in every state of every run. -/
theorem fp_isolated {run : List (Act T w × State T w)} (hstart : Start s)
    (hrun : IsRun (fun s a s' => step s a = some s') s run) : Always Isolated s run :=
  (hrun.invariant (fun _ _ _ h hs => h.step hs) hstart.inv).imp fun _ h => h.isolated

end System

/-- A running program (0), a kernel thread (1) and a free `task_struct` (2). -/
def twoTasks : State (Fin 3) .rv64 where
  hw := ⟨srFsInitial, ⟨fun _ => 0, 0⟩⟩
  user := true
  cur := 0
  task t :=
    { thread := ⟨⟨fun _ => 0, 0⟩, if t = 1 then srPs ||| srPie else srPie⟩
      kthread := t = 1
      stage := if t = 2 then .absent else .ready
      nested := [] }
  forking _ := none
  last t := if t = 0 then some ⟨fun _ => 0, 0⟩ else none

/-- The program writes its registers and forks; the child writes its own; the program goes on. -/
def forkAndSwitch : List (Act (Fin 3) .rv64) :=
  [.fpWrite ⟨fun _ => 1, 0⟩, .trap, .archDupTaskStruct 2, .copyThread, .switchTo 1, .switchTo 2, .ret,
    .fpWrite ⟨fun _ => 2, 0⟩, .trap, .switchTo 1, .trap, .ret, .switchTo 0, .ret]

theorem start_twoTasks : Start twoTasks where
  synced := rfl
  running := by decide
  waiting := by decide
  kernel := by decide
  kthread := by decide
  cur := by decide
  stage := by decide
  nested := by decide
  forking := by decide

theorem fp_isolated_fork :
    let run := trace step twoTasks forkAndSwitch
    run.length = 14 ∧ (lastState twoTasks run).cur = 0 ∧ Always Isolated twoTasks run :=
  ⟨by decide, by decide, fp_isolated start_twoTasks (isRun_trace _ _)⟩

end LowriscLinux.Kernel.Fp
