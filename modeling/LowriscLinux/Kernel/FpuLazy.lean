import LowriscLinux.Kernel.Fpu

/-!
# Lazy saving of the floating-point registers

Whether `__switch_to_aux` (`arch/riscv/include/asm/switch_to.h`, lines 34-44) saves the registers of
a task only when they have changed.

It saves those of a task whose saved status is dirty (lines 19 and 40), so this depends on
`__fstate_clean` (lines 11-14), which should put `SR_FS_CLEAN` in the state field. Line 13 ors
`(sstatus & ~SR_FS) | SR_FS_CLEAN` into the status. It sets the bit of `SR_FS_CLEAN` and clears
none, and leaves a state that was initial or dirty dirty.

## What models what

* `savesOut`: the tests of lines 40 and 19, on the status in the frame of the task that is left.
* `Cleaned`: what the name `__fstate_clean` says. `SaveCleans` and `RestoreCleans` are that of its
  two calls, in `fstate_save` and `fstate_restore`.
* `Marked`: the system of `Kernel/Fpu.lean` with one more piece of bookkeeping, the tasks that have
  written a register since their state was last saved or restored.
* `Marked.Needed` is what saving is for: a switch that saves has something new to save.

Results:
* `saveCleans_iff`, `restoreCleans_iff`: `fstate_save` never leaves a dirty task clean, and
  `fstate_restore` only one that was.
* `Tidy.step`: a step that restores no such task keeps that a dirty task has written.
* **`lazySave_iff`**: along every run, states are left clean and saves are needed iff no dirty task
  is saved and only clean tasks are restored.
-/

namespace LowriscLinux.Kernel.Fp

open Lib

variable {w : Xlen}

/-- `__switch_to_aux` executes `__fstate_save` for the task that is left. -/
def savesOut (prev : Thread w) : Bool := hasSd prev.sstatus && fsDirty prev.sstatus

/-- The state field is `SR_FS_CLEAN` and the other bits are unchanged. -/
def Cleaned (sstatus sstatus' : Word w) : Prop :=
  sstatus' &&& srFs = srFsClean ∧ sstatus' &&& ~~~srFs = sstatus &&& ~~~srFs

/-- `fstate_save` leaves a dirty task clean. -/
def SaveCleans (hw : Fpu w) (task : Thread w) : Prop :=
  fsDirty task.sstatus = true → Cleaned task.sstatus (fstateSave hw task).2.sstatus

/-- `fstate_restore` leaves a task whose unit is on clean. -/
def RestoreCleans (hw : Fpu w) (task : Thread w) : Prop :=
  fsOff task.sstatus = false → Cleaned task.sstatus (fstateRestore hw task).2.sstatus

section Clean

variable (hw : Fpu w) (task : Thread w)

/-- `__fstate_clean` does what its name says where the lower bit of the field is not set. -/
theorem cleaned_cleanStatus_iff (v : Word w) :
    Cleaned v (cleanStatus v) ↔ v.getLsbD 13 = false := by
  have hself : (srFsClean : Word w) &&& srFs = srFsClean := by cases w <;> rfl
  have h13 : (srFsClean : Word w).getLsbD 13 = false := by cases w <;> rfl
  have h14 : (srFsClean : Word w).getLsbD 14 = true := by cases w <;> rfl
  have hfield := and_srFs_eq_iff (cleanStatus v) srFsClean
  rw [hself, h13, h14, getLsbD_cleanStatus, getLsbD_cleanStatus] at hfield
  have hrest : cleanStatus v &&& ~~~srFs = v &&& ~~~srFs := by
    refine BitVec.eq_of_getLsbD_eq fun i _ => ?_
    simp only [BitVec.getLsbD_and, BitVec.getLsbD_not, getLsbD_srFs, getLsbD_cleanStatus]
    by_cases h : i = 14
    · simp [h]
    · simp [h]
  simp only [Cleaned, hfield, hrest]
  simp

/-- The lower bit of the field is set in an initial and in a dirty state. -/
theorem getLsbD_eq_false_iff (v : Word w) :
    v.getLsbD 13 = false ↔ fsInitial v = false ∧ fsDirty v = false := by
  rw [fsInitial_eq, fsDirty_eq]
  cases v.getLsbD 13 <;> cases v.getLsbD 14 <;> decide

/-- **`fstate_save` never leaves a dirty task clean.** -/
theorem saveCleans_iff : SaveCleans hw task ↔ fsDirty task.sstatus = false := by
  constructor
  · intro h
    cases hdirty : fsDirty task.sstatus with
    | false => rfl
    | true =>
      have hclean := h hdirty
      simp only [fstateSave, hdirty, if_true, fstateClean, fstateSaveRegs] at hclean
      have hbit := (cleaned_cleanStatus_iff _).mp hclean
      rw [fsDirty_eq, hbit] at hdirty
      cases hdirty
  · intro h hdirty
    rw [h] at hdirty
    cases hdirty

/-- **`fstate_restore` leaves a task clean iff it was, or has its unit off.** -/
theorem restoreCleans_iff :
    RestoreCleans hw task ↔ fsInitial task.sstatus = false ∧ fsDirty task.sstatus = false := by
  rw [← getLsbD_eq_false_iff, ← cleaned_cleanStatus_iff]
  unfold RestoreCleans
  cases hoff : fsOff task.sstatus with
  | true =>
    have h13 : task.sstatus.getLsbD 13 = false := by
      rw [fsOff_eq] at hoff
      simpa using (Bool.and_eq_true_iff.mp hoff).1
    exact iff_of_true nofun ((cleaned_cleanStatus_iff _).mpr h13)
  | false =>
    rw [fstateRestore_of_on hw task hoff]
    exact forall_prop_of_true rfl

end Clean

/-! ## Runs -/

/-- A system, with the tasks that have written a register since their state was last saved or
restored. -/
structure Marked (T : Type) (w : Xlen) where
  sys : State T w
  wrote : T → Bool

section System

variable {T : Type} [DecidableEq T]

/-- What a step makes of the marks: a write sets that of the task, and saves and restores clear
them. -/
def Marked.after (s : Marked T w) : Act T w → T → Bool
  | .fpWrite _ => Function.update s.wrote s.sys.cur true
  | .switchTo next =>
    let wrote := if savesOut (s.sys.thread s.sys.cur) then Function.update s.wrote s.sys.cur false
      else s.wrote
    if fsOff (s.sys.thread next).sstatus then wrote else Function.update wrote next false
  | .archDupTaskStruct child =>
    let wrote := if fsDirty (s.sys.thread s.sys.cur).sstatus then
        Function.update s.wrote s.sys.cur false
      else s.wrote
    Function.update wrote child false
  | _ => s.wrote

def Marked.step (s : Marked T w) (a : Act T w) : Option (Marked T w) :=
  (Fp.step s.sys a).map fun sys => ⟨sys, s.after a⟩

/-- One step of a run. -/
def Marked.Step (s : Marked T w) (a : Act T w) (s' : Marked T w) : Prop := s.step a = some s'

/-- The states that a step saves or restores are left clean. -/
def Marked.Cleans (s : Marked T w) : Act T w → Prop
  | .switchTo next =>
    (savesOut (s.sys.thread s.sys.cur) = true → SaveCleans s.sys.hw (s.sys.thread s.sys.cur)) ∧
      RestoreCleans s.sys.hw (s.sys.thread next)
  | .archDupTaskStruct _ => SaveCleans s.sys.hw (s.sys.thread s.sys.cur)
  | _ => True

/-- A switch saves the registers only if the task that is left has written one. -/
def Marked.Needed (s : Marked T w) : Act T w → Prop
  | .switchTo _ => savesOut (s.sys.thread s.sys.cur) = true → s.wrote s.sys.cur = true
  | _ => True

/-- No initial or dirty task is restored, and no dirty one makes a child. -/
def Marked.RestoresClean (s : Marked T w) : Act T w → Prop
  | .switchTo next =>
    fsInitial (s.sys.thread next).sstatus = false ∧ fsDirty (s.sys.thread next).sstatus = false
  | .archDupTaskStruct _ => fsDirty (s.sys.thread s.sys.cur).sstatus = false
  | _ => True

/-- And none is saved. -/
def Marked.SavesNone (s : Marked T w) : Act T w → Prop
  | .switchTo _ => savesOut (s.sys.thread s.sys.cur) = false
  | _ => True

/-- The running task has written a register if it is dirty. -/
def Marked.Tidy (s : Marked T w) : Prop := fsDirty s.sys.live = true → s.wrote s.sys.cur = true

instance (s : Marked T w) (a : Act T w) : Decidable (s.Needed a) :=
  match a with
  | .switchTo _ => inferInstanceAs (Decidable (_ → _))
  | .fpWrite _ | .trap | .setStatus _ | .ret | .archDupTaskStruct _ | .copyThread | .abort =>
    inferInstanceAs (Decidable True)

instance (s : Marked T w) (a : Act T w) : Decidable (s.RestoresClean a) :=
  match a with
  | .switchTo _ => inferInstanceAs (Decidable (_ ∧ _))
  | .archDupTaskStruct _ => inferInstanceAs (Decidable (_ = _))
  | .fpWrite _ | .trap | .setStatus _ | .ret | .copyThread | .abort =>
    inferInstanceAs (Decidable True)

variable {s s' : Marked T w} {a : Act T w}

omit [DecidableEq T] in
/-- **Clean states are what keeps dirty tasks unsaved and unrestored.** -/
theorem Marked.cleans_iff : s.Cleans a ↔ s.RestoresClean a ∧ s.SavesNone a := by
  cases a with
  | switchTo next =>
    simp only [Cleans, RestoresClean, SavesNone, saveCleans_iff, restoreCleans_iff, savesOut]
    cases fsDirty (s.sys.thread s.sys.cur).sstatus <;>
      cases hasSd (s.sys.thread s.sys.cur).sstatus <;> simp
  | archDupTaskStruct child => simp [Cleans, RestoresClean, SavesNone, saveCleans_iff]
  | fpWrite _ | trap | setStatus _ | ret | copyThread | abort =>
    simp [Cleans, RestoresClean, SavesNone]

/-! ### The status of the running task -/

section Live

variable {u u' : State T w}

omit [DecidableEq T] in
/-- In the kernel the status in the frame counts. -/
theorem fsDirty_live_of_frame (hu : u.user = false) (hu' : u'.user = false)
    (h : (u'.thread u'.cur).sstatus = (u.thread u.cur).sstatus) (hclean : fsDirty u.live = false) :
    fsDirty u'.live = false := by
  rw [u.live_of_kernel hu] at hclean
  rw [u'.live_of_kernel hu', h, hclean]

/-- A trap keeps the state field of the running task. -/
theorem fsDirty_live_trap (u : State T w) : fsDirty u.trap.live = fsDirty u.live := by
  rw [u.trap.live_of_kernel rfl]
  cases hu : u.user with
  | true =>
    have hthread : u.trap.thread u.cur =
        { (u.task u.cur).thread with sstatus := trapStatus u.user u.hw.sstatus } := by
      simp [State.trap, State.thread, hu]
    rw [u.live_of_user hu, show u.trap.cur = u.cur from rfl, hthread, fsDirty_trapStatus]
  | false =>
    have hthread : u.trap.thread u.cur = u.thread u.cur := by simp [State.trap, State.thread, hu]
    rw [u.live_of_kernel hu, show u.trap.cur = u.cur from rfl, hthread]

/-- A task that is switched to is dirty afterwards only if it was initial or dirty before. -/
theorem fsDirty_live_switchTo {next : T} (hu : u.user = false) (hne : next ≠ u.cur)
    (hnext : (u.thread next).sstatus.getLsbD 13 = false) :
    fsDirty (u.switchTo next).live = false := by
  have hdirty : fsDirty (u.thread next).sstatus = false := ((getLsbD_eq_false_iff _).mp hnext).2
  have hkept : (u.setThread u.cur (switchOut u.hw (u.thread u.cur))).thread next = u.thread next :=
    congrArg Task.thread (State.setThread_other hne _)
  have hthread : (u.switchTo next).thread next =
      (fstateRestore (switchOut u.hw (u.thread u.cur)).1 (u.thread next)).2 := by
    refine (State.setThread_same (s := u.setThread u.cur _) next _).trans ?_
    rw [hkept]
    rfl
  rw [(u.switchTo next).live_of_kernel hu, show (u.switchTo next).cur = next from rfl, hthread]
  cases hoff : fsOff (u.thread next).sstatus with
  | true => rw [fstateRestore_of_off _ _ hoff, hdirty]
  | false =>
    rw [fstateRestore_of_on _ _ hoff]
    exact (fsDirty_cleanStatus _).trans hnext

/-- A clean task that makes a child stays clean. -/
theorem fsDirty_live_archDup {child : T} (hu : u.user = false)
    (hclean : fsDirty (u.thread u.cur).sstatus = false) :
    fsDirty (u.archDupTaskStruct child).live = false := by
  have hsave : fstateSave u.hw (u.thread u.cur) = (u.hw, u.thread u.cur) := by
    unfold fstateSave
    rw [if_neg (by simp [hclean])]
  have hcur : ((u.archDupTaskStruct child).thread u.cur).sstatus = (u.thread u.cur).sstatus := by
    by_cases hchild : u.cur = child
    · simp [State.archDupTaskStruct, State.thread, hchild]
    · simp [State.archDupTaskStruct, State.thread, Function.update_of_ne hchild, State.setThread,
        show fstateSave u.hw (u.task u.cur).thread = (u.hw, (u.task u.cur).thread) from hsave]
  rw [(u.archDupTaskStruct child).live_of_kernel hu]
  exact (congrArg fsDirty hcur).trans hclean

/-- A child gets the status of its parent, or one with its unit off. -/
theorem fsDirty_live_copyThread {child : T} (hu : u.user = false)
    (hclean : fsDirty u.live = false) : fsDirty (u.copyThread child).live = false := by
  rw [u.live_of_kernel hu] at hclean
  rw [(u.copyThread child).live_of_kernel hu]
  by_cases hchild : u.cur = child
  · have hkernel : fsDirty (srPs ||| srPie : Word w) = false := by cases w <;> decide
    subst hchild
    simp only [State.copyThread, State.thread, Function.update_self]
    split_ifs
    · exact hkernel
    · exact hclean
  · simpa [State.copyThread, State.thread, Function.update_of_ne hchild] using hclean

/-- A return to a nested frame or to the program keeps the state field. -/
theorem fsDirty_live_ret (hstep : Fp.step u .ret = some u') :
    (fsDirty u.live = false → fsDirty u'.live = false) ∧ u'.cur = u.cur := by
  simp only [Fp.step, Option.ite_none_left_eq_some] at hstep
  obtain ⟨hu, hstep⟩ := hstep
  have hu : u.user = false := by simpa using hu
  split at hstep
  · next v rest hnested =>
    cases hstep
    have hthread : ∀ hw, State.thread { u with
        hw := hw
        task := Function.update u.task u.cur { u.task u.cur with nested := rest } } u.cur =
          u.thread u.cur := by
      simp [State.thread]
    exact ⟨fsDirty_live_of_frame hu hu (congrArg Thread.sstatus (hthread _)), rfl⟩
  · simp only [Option.ite_none_right_eq_some, Option.some.injEq] at hstep
    obtain ⟨-, rfl⟩ := hstep
    refine ⟨fun hclean => ?_, rfl⟩
    rw [u.live_of_kernel hu] at hclean
    rw [State.live_of_user _ rfl]
    exact (fsDirty_sretStatus _).trans ((fsDirty_csrStatus _).trans hclean)

/-- A child that is given up has no part in its parent's status. -/
theorem fsDirty_live_abort (hstep : Fp.step u .abort = some u') :
    (fsDirty u.live = false → fsDirty u'.live = false) ∧ u'.cur = u.cur := by
  simp only [Fp.step, Option.ite_none_left_eq_some] at hstep
  obtain ⟨hu, hstep⟩ := hstep
  have hu : u.user = false := by simpa using hu
  split at hstep
  · next child hf =>
    cases hstep
    have hthread : ∀ forking, State.thread
        { u.setTask child { u.task child with stage := .absent } with forking := forking } u.cur =
          u.thread u.cur := by
      intro forking
      by_cases hchild : u.cur = child
      · simp [State.thread, State.setTask, hchild]
      · simp [State.thread, State.setTask, Function.update_of_ne hchild]
    exact ⟨fsDirty_live_of_frame hu hu (congrArg Thread.sstatus (hthread _)), rfl⟩
  · cases hstep

end Live

/-- The status in a frame is kept by a step that neither enters the kernel nor switches. -/
theorem Marked.Tidy.needed (h : s.Tidy) (hstep : Marked.Step s a s') : s.Needed a := by
  cases a with
  | switchTo next =>
    intro hsaves
    have hu : s.sys.user = false := by
      unfold Marked.Step Marked.step at hstep
      obtain ⟨sys, hsys, -⟩ := Option.map_eq_some_iff.mp hstep
      simp only [Fp.step, Option.ite_none_right_eq_some] at hsys
      exact hsys.1.1
    refine h ?_
    rw [s.sys.live_of_kernel hu]
    exact (Bool.and_eq_true_iff.mp hsaves).2
  | archDupTaskStruct _ | fpWrite _ | trap | setStatus _ | ret | copyThread | abort => trivial

/-- **The step lemma**: as long as only clean tasks are restored, the running task is dirty only
after a write. -/
theorem Marked.Tidy.step (h : s.Tidy) (hgood : s.RestoresClean a) (hstep : Marked.Step s a s') :
    s'.Tidy := by
  unfold Marked.Step Marked.step at hstep
  obtain ⟨sys, hsys, rfl⟩ := Option.map_eq_some_iff.mp hstep
  intro hdirty
  -- Where the marks and the running task stay, the state field does.
  have hkept (hlive : fsDirty s.sys.live = false → fsDirty sys.live = false)
      (hcur : sys.cur = s.sys.cur) : s.wrote sys.cur = true := by
    rw [hcur]
    refine h ?_
    by_contra hclean
    rw [hlive (Bool.not_eq_true _ ▸ hclean)] at hdirty
    cases hdirty
  cases a with
  | fpWrite regs =>
    simp only [Fp.step, Option.ite_none_right_eq_some, Option.some.injEq] at hsys
    obtain ⟨-, rfl⟩ := hsys
    exact Function.update_self ..
  | trap =>
    obtain rfl := Option.some.inj hsys
    exact hkept (fun hclean => (fsDirty_live_trap _).trans hclean) rfl
  | setStatus v =>
    simp only [Fp.step, Option.ite_none_right_eq_some, Option.some.injEq] at hsys
    obtain ⟨⟨hu, -⟩, rfl⟩ := hsys
    exact hkept (fun hclean => fsDirty_live_of_frame hu hu rfl hclean) rfl
  | ret =>
    obtain ⟨hlive, hcur⟩ := fsDirty_live_ret hsys
    exact hkept hlive hcur
  | switchTo next =>
    simp only [Fp.step, Option.ite_none_right_eq_some, Option.some.injEq] at hsys
    obtain ⟨⟨hu, hne, -⟩, rfl⟩ := hsys
    rw [fsDirty_live_switchTo hu hne ((getLsbD_eq_false_iff _).mpr hgood)] at hdirty
    cases hdirty
  | archDupTaskStruct child =>
    simp only [Fp.step, Option.ite_none_right_eq_some, Option.some.injEq] at hsys
    obtain ⟨⟨hu, -⟩, rfl⟩ := hsys
    rw [fsDirty_live_archDup hu hgood] at hdirty
    cases hdirty
  | copyThread =>
    simp only [Fp.step, Option.ite_none_left_eq_some] at hsys
    obtain ⟨hu, hsys⟩ := hsys
    have hu : s.sys.user = false := by simpa using hu
    split at hsys
    · next child hf =>
      cases hsys
      exact hkept (fun hclean => fsDirty_live_copyThread hu hclean) rfl
    · cases hsys
  | abort =>
    obtain ⟨hlive, hcur⟩ := fsDirty_live_abort hsys
    exact hkept hlive hcur

/-- The same along a run. -/
theorem Marked.Tidy.run {run : List (Act T w × Marked T w)} (h : s.Tidy)
    (hrun : IsRun Marked.Step s run) (hgood : Meets Marked.RestoresClean s run) :
    Meets Marked.Needed s run := by
  induction run generalizing s with
  | nil => trivial
  | cons e rest ih =>
    obtain ⟨hs, hrest⟩ := hrun
    obtain ⟨hg, hgood⟩ := hgood
    exact ⟨h.needed hs, ih (h.step hg hs) hrest hgood⟩

omit [DecidableEq T] in
/-- A step that saves nothing saves nothing without need. -/
theorem Marked.lazy_iff :
    s.Cleans a ∧ s.Needed a ↔ s.RestoresClean a ∧ s.SavesNone a := by
  rw [cleans_iff]
  refine and_iff_left_of_imp fun ⟨_, hnone⟩ => ?_
  cases a with
  | switchTo next =>
    intro hsaves
    rw [show savesOut (s.sys.thread s.sys.cur) = false from hnone] at hsaves
    cases hsaves
  | archDupTaskStruct _ | fpWrite _ | trap | setStatus _ | ret | copyThread | abort => trivial

/-- **Saving is lazy iff no dirty task is saved and only clean ones are restored**: in every run
the states that are saved or restored are left clean, and a switch saves registers only when they
have been written, iff every step is such. For the second part alone it is enough that only clean
tasks are restored, and that no dirty one makes a child. -/
theorem lazySave_iff {run : List (Act T w × Marked T w)} (hstart : s.Tidy)
    (hrun : IsRun Marked.Step s run) :
    (∀ (hw : Fpu w) (task : Thread w),
      (SaveCleans hw task ↔ fsDirty task.sstatus = false) ∧
        (RestoreCleans hw task ↔
          fsInitial task.sstatus = false ∧ fsDirty task.sstatus = false)) ∧
      (Meets (fun s a => s.Cleans a ∧ s.Needed a) s run ↔
        Meets (fun s a => s.RestoresClean a ∧ s.SavesNone a) s run) ∧
      (Meets Marked.RestoresClean s run → Meets Marked.Needed s run) := by
  refine ⟨fun hw task => ⟨saveCleans_iff hw task, restoreCleans_iff hw task⟩, ?_,
    hstart.run hrun⟩
  constructor
  · intro h
    exact h.imp fun _ _ => Marked.lazy_iff.mp
  · intro h
    exact h.imp fun _ _ => Marked.lazy_iff.mpr

end System

/-- The two tasks of `twoTasks`, neither of which has written a register. -/
def unwritten : Marked (Fin 3) .rv64 := ⟨twoTasks, fun _ => false⟩

/-- The program writes its registers and is switched away from for good. -/
theorem lazySave_once :
    let run := trace Marked.step unwritten [.fpWrite ⟨fun _ => 1, 0⟩, .trap, .switchTo 1]
    run.length = 3 ∧ Meets Marked.Needed unwritten run :=
  ⟨by decide, (lazySave_iff (by unfold Marked.Tidy; decide) (isRun_trace _ _)).2.2 (by decide)⟩

/-- **Registers that were not written are saved again.** The program writes its registers once and
is switched away from and back to; the next switch saves them although they are in memory. -/
theorem not_needed_again :
    let run := trace Marked.step unwritten [.fpWrite ⟨fun _ => 1, 0⟩, .trap, .switchTo 1,
      .switchTo 0, .ret, .trap, .switchTo 1]
    run.length = 7 ∧ IsRun Marked.Step unwritten run ∧ ¬ Meets Marked.Needed unwritten run :=
  ⟨by decide, isRun_trace _ _, by decide⟩

end LowriscLinux.Kernel.Fp
