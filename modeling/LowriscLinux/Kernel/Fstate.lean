import LowriscLinux.Kernel.Status

/-!
# Saving the floating-point registers

Model of `fstate_save`, `fstate_restore` and `__switch_to_aux`
(`arch/riscv/include/asm/switch_to.h`), and of `__fstate_save` and `__fstate_restore`
(`arch/riscv/kernel/entry.S`).

## What models what

* `Fpu`: the unit of a hart and its `sstatus`. `Thread`: what the switch uses of a task, the
  registers in `thread.fstate` and the `sstatus` in the frame at the top of its kernel stack
  (`task_pt_regs`, `asm/processor.h`).
* `fstateSaveRegs` and `fstateRestoreRegs`: `entry.S`, lines 301-340 and 342-381. Both turn the unit
  on with `csrs`, move 32 registers and `fcsr`, and turn it off with `csrc`.
* `fstateClean`, `fstateSave`, `fstateRestore`: `switch_to.h`, lines 11-32, with line 13 as it
  stands.
* `switchOut` and `switchIn`: `__switch_to_aux`, lines 39-42 and line 43.
* `enter` and `leave`: the trap from user mode around them, with `SR_FS` cleared by `SAVE_ALL`
  (`entry.S`, lines 59-62).
* `sleep`: a switch away from a task and, in the end, back to it. What the tasks in between have
  left in the registers comes from outside, or no task has touched them.

The unit and the thread of one task make a pair, which each operation maps to a pair. The state
field of `sstatus` follows the privileged architecture of the source: an instruction that writes a
register makes it dirty, and `SR_SD` is set exactly when the field, or `SR_XS`, is dirty
(`csrStatus`, in `Kernel/Status.lean`).

Results:
* `switchOut_fstate`, `fstateRestore_regs`: what the two halves of a switch do to the copy in memory
  and to the registers.
* `Synced.sleeps`: sleeps do not change registers that are in memory too.

Out of scope: which values `fcsr` can hold, and the registers of the integer switch
(`Kernel/TaskSteps.lean`).
-/

namespace LowriscLinux.Kernel.Fp

variable {w : Xlen}

/-- `struct user_fpregs_struct`. -/
@[ext]
structure FpRegs where
  f : Fin 32 → BitVec 64
  fcsr : BitVec 32
  deriving DecidableEq

/-- The unit and the status register. -/
@[ext]
structure Fpu (w : Xlen) where
  sstatus : Word w
  regs : FpRegs

/-- What the switch uses of a task: `thread.fstate` and `task_pt_regs(task)->sstatus`. -/
@[ext]
structure Thread (w : Xlen) where
  fstate : FpRegs
  sstatus : Word w

/-! ## Saving and restoring -/

/-- `csrs sstatus, bits` and `csrc sstatus, bits`. -/
def csrs (v bits : Word w) : Word w := csrStatus (v ||| bits)
def csrc (v bits : Word w) : Word w := csrStatus (v &&& ~~~bits)

/-- `__fstate_save`. -/
def fstateSaveRegs (hw : Fpu w) (task : Thread w) : Fpu w × Thread w :=
  ({ hw with sstatus := csrc (csrs hw.sstatus srFs) srFs }, { task with fstate := hw.regs })

/-- `__fstate_restore`. -/
def fstateRestoreRegs (hw : Fpu w) (task : Thread w) : Fpu w :=
  { sstatus := csrc (csrs hw.sstatus srFs) srFs, regs := task.fstate }

/-- `__fstate_clean`. -/
def fstateClean (task : Thread w) : Thread w :=
  { task with sstatus := cleanStatus task.sstatus }

def fstateSave (hw : Fpu w) (task : Thread w) : Fpu w × Thread w :=
  if fsDirty task.sstatus then
    let (hw, task) := fstateSaveRegs hw task
    (hw, fstateClean task)
  else (hw, task)

def fstateRestore (hw : Fpu w) (task : Thread w) : Fpu w × Thread w :=
  if !fsOff task.sstatus then (fstateRestoreRegs hw task, fstateClean task) else (hw, task)

/-- The half of `__switch_to_aux` for the task that is left. -/
def switchOut (hw : Fpu w) (prev : Thread w) : Fpu w × Thread w :=
  if hasSd prev.sstatus then fstateSave hw prev else (hw, prev)

/-- The half of `__switch_to_aux` for the task that runs next. -/
def switchIn (hw : Fpu w) (next : Thread w) : Fpu w × Thread w := fstateRestore hw next

/-- What a program sees of the registers: nothing if the unit is off. -/
def seen (sstatus : Word w) (regs : FpRegs) : Option FpRegs :=
  if fsOff sstatus then none else some regs

theorem seen_congr {u v : Word w} (h : fsOff u = fsOff v) (regs : FpRegs) :
    seen u regs = seen v regs := by
  rw [seen, seen, h]

theorem seen_of_off {v : Word w} (h : fsOff v = true) (regs : FpRegs) : seen v regs = none :=
  if_pos h

theorem seen_of_on {v : Word w} (h : fsOff v = false) (regs : FpRegs) :
    seen v regs = some regs := by
  simp [seen, h]

section Halves

variable (hw : Fpu w) (task : Thread w)

theorem fsOff_csrc_srFs (v : Word w) : fsOff (csrc v srFs) = true := by
  rw [csrc, fsOff_csrStatus, fsOff_and_not_srFs]

/-- A task whose unit is off is left alone. -/
theorem fstateSave_of_off (h : fsOff task.sstatus = true) : fstateSave hw task = (hw, task) := by
  unfold fstateSave
  rw [if_neg]
  intro hdirty
  rw [fsOff_of_fsDirty hdirty] at h
  cases h

theorem switchOut_of_off (h : fsOff task.sstatus = true) : switchOut hw task = (hw, task) := by
  unfold switchOut
  rw [fstateSave_of_off hw task h, ite_self]

theorem fstateRestore_of_off (h : fsOff task.sstatus = true) : fstateRestore hw task = (hw, task) := by
  simp [fstateRestore, h]

theorem fstateRestore_of_on (h : fsOff task.sstatus = false) :
    fstateRestore hw task = (fstateRestoreRegs hw task, fstateClean task) := by
  simp [fstateRestore, h]

@[simp] theorem fstateSave_regs : (fstateSave hw task).1.regs = hw.regs := by
  unfold fstateSave
  split <;> rfl

@[simp] theorem fsOff_fstateSave : fsOff (fstateSave hw task).2.sstatus = fsOff task.sstatus := by
  unfold fstateSave
  split_ifs with h
  · simp [fstateClean, fstateSaveRegs, fsOff_of_fsDirty h]
  · rfl

theorem fsOff_fstateSave_hw (h : fsOff hw.sstatus = true) :
    fsOff (fstateSave hw task).1.sstatus = true := by
  unfold fstateSave
  split
  · exact fsOff_csrc_srFs _
  · exact h

/-- A save makes the memory copy that of the registers, unless it was that already. -/
theorem fstateSave_fstate (h : fsDirty task.sstatus = false → task.fstate = hw.regs) :
    (fstateSave hw task).2.fstate = hw.regs := by
  unfold fstateSave
  split_ifs with hd
  · rfl
  · exact h (by simpa using hd)

@[simp] theorem switchOut_regs : (switchOut hw task).1.regs = hw.regs := by
  unfold switchOut
  split
  · exact fstateSave_regs hw task
  · rfl

@[simp] theorem fsOff_switchOut : fsOff (switchOut hw task).2.sstatus = fsOff task.sstatus := by
  unfold switchOut
  split
  · exact fsOff_fstateSave hw task
  · rfl

theorem fsOff_switchOut_hw (h : fsOff hw.sstatus = true) :
    fsOff (switchOut hw task).1.sstatus = true := by
  unfold switchOut
  split
  · exact fsOff_fstateSave_hw hw task h
  · exact h

/-- The same for the save of a switch, which also wants `SR_SD`. -/
theorem switchOut_fstate
    (h : (hasSd task.sstatus && fsDirty task.sstatus) = false → task.fstate = hw.regs) :
    (switchOut hw task).2.fstate = hw.regs := by
  unfold switchOut
  split_ifs with hsd
  · exact fstateSave_fstate hw task fun hd => h (by simp [hd])
  · exact h (by simp [hsd])

@[simp] theorem fstateRestore_fstate : (fstateRestore hw task).2.fstate = task.fstate := by
  unfold fstateRestore
  split <;> rfl

@[simp] theorem fsOff_fstateRestore : fsOff (fstateRestore hw task).2.sstatus = fsOff task.sstatus := by
  cases h : fsOff task.sstatus with
  | true => rw [fstateRestore_of_off hw task h, h]
  | false => simp [fstateRestore_of_on hw task h, fstateClean]

theorem fstateRestore_regs (h : fsOff task.sstatus = false) :
    (fstateRestore hw task).1.regs = task.fstate := by
  rw [fstateRestore_of_on hw task h]
  rfl

/-- The unit after `fstate_restore`: loaded if it is on. -/
theorem fstateRestore_regs_ite :
    (fstateRestore hw task).1.regs = if fsOff task.sstatus then hw.regs else task.fstate := by
  cases hoff : fsOff task.sstatus with
  | true => rw [fstateRestore_of_off hw task hoff, if_pos rfl]
  | false => rw [fstateRestore_regs hw task hoff, if_neg (by simp)]

/-- The thread after it does not depend on the unit. -/
theorem fstateRestore_thread (hw' : Fpu w) :
    (fstateRestore hw task).2 = (fstateRestore hw' task).2 := by
  unfold fstateRestore
  split <;> rfl

theorem fsOff_fstateRestore_hw (h : fsOff hw.sstatus = true) :
    fsOff (fstateRestore hw task).1.sstatus = true := by
  unfold fstateRestore
  split
  · exact fsOff_csrc_srFs _
  · exact h

end Halves

/-! ## Sleeps, traps and returns of one task -/

/-- The task is switched away from and back to; `others` is what the registers are left with
meanwhile, `none` if no other task has touched them. -/
def sleep (c : Fpu w × Thread w) (others : Option FpRegs) : Fpu w × Thread w :=
  let (hw, task) := switchOut c.1 c.2
  switchIn { hw with regs := others.getD hw.regs } task

/-- A trap from user mode: the hardware's part and `SAVE_ALL`. -/
def enter (c : Fpu w × Thread w) : Fpu w × Thread w :=
  let sstatus := trapStatus true c.1.sstatus
  ({ c.1 with sstatus := csrc sstatus srFs }, { c.2 with sstatus := sstatus })

/-- `RESTORE_ALL` and `sret`. -/
def leave (c : Fpu w × Thread w) : Fpu w × Thread w :=
  ({ c.1 with sstatus := sretStatus (csrStatus c.2.sstatus) }, c.2)

/-- The registers have a value, in the unit and in memory, and the task's unit is on. -/
structure Synced (v : FpRegs) (c : Fpu w × Thread w) : Prop where
  regs : c.1.regs = v
  fstate : c.2.fstate = v
  on : fsOff c.2.sstatus = false

section Sleep

variable {c : Fpu w × Thread w} {v : FpRegs}

/-- A task with its unit on has the copy in memory in its registers after a sleep. -/
theorem sleep_synced (hon : fsOff c.2.sstatus = false) (hv : (switchOut c.1 c.2).2.fstate = v)
    (others : Option FpRegs) : Synced v (sleep c others) := by
  have hout : fsOff (switchOut c.1 c.2).2.sstatus = false := by rw [fsOff_switchOut, hon]
  refine ⟨?_, ?_, ?_⟩
  · exact (fstateRestore_regs _ _ hout).trans hv
  · exact (fstateRestore_fstate _ _).trans hv
  · exact (fsOff_fstateRestore _ _).trans hout

theorem Synced.sleep (h : Synced v c) (others : Option FpRegs) : Synced v (sleep c others) :=
  sleep_synced h.on ((switchOut_fstate _ _ fun _ => h.fstate.trans h.regs.symm).trans h.regs) others

/-- **Sleeps do not change registers that are in memory too.** -/
theorem Synced.sleeps (h : Synced v c) (events : List (Option FpRegs)) :
    Synced v (events.foldl Fp.sleep c) := by
  induction events generalizing c with
  | nil => exact h
  | cons others events ih => exact ih (h.sleep others)

/-- A sleep of a task with its unit off leaves what the others have left. -/
theorem sleep_of_off (hoff : fsOff c.2.sstatus = true) (others : Option FpRegs) :
    sleep c others = ({ c.1 with regs := others.getD c.1.regs }, c.2) := by
  unfold Fp.sleep switchIn
  rw [switchOut_of_off _ _ hoff]
  exact fstateRestore_of_off _ _ hoff

end Sleep

end LowriscLinux.Kernel.Fp
