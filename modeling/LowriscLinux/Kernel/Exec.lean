import LowriscLinux.Kernel.Fstate

/-!
# The floating-point registers of a new program

Model of an exec as far as the floating-point unit is concerned, with the sleeps of the task on the
way. What the program sees is recorded at each return to user mode (`Exec.observed`).

## What models what

* `flushThread`: `flush_thread` (`arch/riscv/kernel/process.c`, lines 62-70), which clears the copy
  in memory and leaves the registers.
* `startThread`: `start_thread` (lines 53-60): the unit is in its initial state (line 56). `sepc`,
  `sp` and the address limit do not matter here.
* `Exec`: an exec and what happens around it, but for the contents of the registers: the status
  register and the status of the old program, the sleeps between `flush_thread` and `start_thread`,
  those between that and the first return to user mode, and the later stays in the kernel up to the
  program's own first write. A sleep is one of `Kernel/Fpu.lean`: a switch away and back, with what
  other tasks do with the registers in between.
* `Fresh`: what the program sees does not depend on what was there before, and is zeroes. The
  comment of `flush_thread` (lines 64-67) says that the context is reset.
* `Reloaded`: the condition on the sleeps: `__switch_to_aux` (`asm/switch_to.h`, lines 34-44) saves
  the registers of a dirty task over the copy, and loads those of a task that is not off.

A switch back to the task loads the registers, and so does nothing else on the way.

Results:
* `Exec.synced_of_dirty`, `Exec.synced_of_clean`, `Exec.flushed_of_off`: where the registers stand
  when `start_thread` runs.
* `Exec.synced_of_after`: a switch after `start_thread` loads the copy in memory.
* **`fresh_iff`**: the new program sees zeroes, whatever the old one left, iff a switch loads the
  registers from the copy that `flush_thread` has cleared, and none has saved them there before.
* `not_fresh_of_no_switch`: without a switch the program sees what the old one had.
-/

namespace LowriscLinux.Kernel.Fp

variable {w : Xlen}

/-- The registers after a reset. -/
def FpRegs.zero : FpRegs := ⟨fun _ => 0, 0⟩

/-- `memset(&current->thread.fstate, 0, sizeof(struct user_fpregs_struct))` -/
def flushThread (task : Thread w) : Thread w := { task with fstate := .zero }

/-- `start_thread`: user mode, interrupts on, and the unit in its initial state. -/
def startThread (task : Thread w) : Thread w := { task with sstatus := srPie ||| srFsInitial }

/-- An exec and what happens around it, but for the contents of the registers: the status register
and the old program's status, the sleeps between `flush_thread` and `start_thread` and between that
and the first return to user mode, and the sleeps of each later stay in the kernel. -/
structure Exec (w : Xlen) where
  hwStatus : Word w
  sstatus : Word w
  before : List (Option FpRegs)
  after : List (Option FpRegs)
  stays : List (List (Option FpRegs))

/-- What the program sees at the returns from its later stays in the kernel. -/
def observations : Fpu w × Thread w → List (List (Option FpRegs)) → List (Option FpRegs)
  | _, [] => []
  | c, sleeps :: rest =>
    let c := leave (sleeps.foldl sleep (enter c))
    seen c.1.sstatus c.1.regs :: observations c rest

namespace Exec

variable (e : Exec w)

/-- The state in which `start_thread` finds the task, from given contents of the registers and of
the old program's copy in memory. -/
def flushed (regs fstate : FpRegs) : Fpu w × Thread w :=
  e.before.foldl sleep (⟨e.hwStatus, regs⟩, flushThread ⟨fstate, e.sstatus⟩)

/-- The state at the first return to user mode. -/
def entered (regs fstate : FpRegs) : Fpu w × Thread w :=
  let c := e.flushed regs fstate
  leave (e.after.foldl sleep (c.1, startThread c.2))

/-- What the new program sees of the registers until it writes them. -/
def observed (regs fstate : FpRegs) : List (Option FpRegs) :=
  let c := e.entered regs fstate
  seen c.1.sstatus c.1.regs :: observations c e.stays

/-- **The new program starts fresh**: any two contents from before give the same observations, and
these are zeroes. -/
def Fresh : Prop :=
  ∀ regs fstate regs' fstate', e.observed regs fstate = e.observed regs' fstate' ∧
    ∀ o ∈ e.observed regs fstate, o = some .zero

/-- What the other tasks have left in the registers in the end, if they have used them. -/
def left (events : List (Option FpRegs)) : Option FpRegs := (events.filterMap id).getLast?

/-- Without a sleep before `start_thread` one must follow it. With one, the old program's registers
must not have been saved over the cleared copy, and unless a sleep follows, that one must have
loaded the copy or happened on zeroes. -/
def Reloaded : Prop :=
  if e.before = [] then e.after ≠ []
  else (hasSd e.sstatus && fsDirty e.sstatus) = false ∧
    (e.after ≠ [] ∨ fsOff e.sstatus = false ∨ left e.before = some .zero)

end Exec

section Facts

variable {c : Fpu w × Thread w} {v : FpRegs}

theorem fsOff_startThread (task : Thread w) : fsOff (startThread task).sstatus = false := by
  have h : fsOff (srPie ||| srFsInitial : Word w) = false := by cases w <;> decide
  exact h

theorem hasSd_startThread (task : Thread w) : hasSd (startThread task).sstatus = false := by
  have h : hasSd (srPie ||| srFsInitial : Word w) = false := by cases w <;> decide
  exact h

/-- A program whose registers are in memory too sees them on every return. -/
theorem Synced.seen (h : Synced v c) : seen (leave c).1.sstatus (leave c).1.regs = some v := by
  have hon : fsOff (leave c).1.sstatus = false := by
    show fsOff (sretStatus (csrStatus c.2.sstatus)) = false
    rw [fsOff_sretStatus, fsOff_csrStatus, h.on]
  rw [seen_of_on hon]
  exact congrArg some h.regs

/-- The next trap finds the registers as they were left. -/
theorem Synced.enter (h : Synced v c) : Synced v (enter (leave c)) := by
  refine ⟨h.regs, h.fstate, ?_⟩
  show fsOff (trapStatus true (sretStatus (csrStatus c.2.sstatus))) = false
  rw [fsOff_trapStatus, fsOff_sretStatus, fsOff_csrStatus, h.on]

theorem Synced.observations (h : Synced v c) (stays : List (List (Option FpRegs))) :
    observations (leave c) stays = stays.map fun _ => some v := by
  induction stays generalizing c with
  | nil => rfl
  | cons sleeps rest ih =>
    have hback := h.enter.sleeps sleeps
    rw [Fp.observations, List.map_cons, hback.seen, ih hback]

/-- Sleeps of a task with its unit off: the registers are what the others leave, and the copy in
memory stays. -/
theorem sleeps_of_off (hoff : fsOff c.2.sstatus = true) (events : List (Option FpRegs)) :
    (events.foldl sleep c).2 = c.2 ∧
      (events.foldl sleep c).1.regs = (Exec.left events).getD c.1.regs := by
  induction events using List.reverseRecOn with
  | nil => exact ⟨rfl, rfl⟩
  | append_singleton events others ih =>
    rw [List.foldl_append, List.foldl_cons, List.foldl_nil, sleep_of_off (by rw [ih.1, hoff])]
    refine ⟨ih.1, ?_⟩
    cases others with
    | none => simpa [Exec.left] using ih.2
    | some regs => simp [Exec.left]

end Facts

namespace Exec

variable {e : Exec w} {regs fstate : FpRegs}

theorem flushed_nil (h : e.before = []) :
    e.flushed regs fstate = (⟨e.hwStatus, regs⟩, ⟨.zero, e.sstatus⟩) := by
  rw [flushed, h]
  rfl

/-- The old program's registers are saved where `flush_thread` has written zeroes. -/
theorem synced_of_dirty (hb : e.before ≠ [])
    (hd : (hasSd e.sstatus && fsDirty e.sstatus) = true) :
    Synced regs (e.flushed regs fstate) := by
  obtain ⟨others, events, hcons⟩ := List.exists_cons_of_ne_nil hb
  rw [Bool.and_eq_true] at hd
  rw [flushed, hcons, List.foldl_cons]
  refine (sleep_synced (fsOff_of_fsDirty hd.2) ?_ others).sleeps events
  exact switchOut_fstate _ _ fun h => by simp [flushThread, hd] at h

/-- The cleared copy is loaded. -/
theorem synced_of_clean (hb : e.before ≠ []) (hon : fsOff e.sstatus = false)
    (hd : (hasSd e.sstatus && fsDirty e.sstatus) = false) :
    Synced .zero (e.flushed regs fstate) := by
  obtain ⟨others, events, hcons⟩ := List.exists_cons_of_ne_nil hb
  rw [flushed, hcons, List.foldl_cons]
  refine (sleep_synced hon ?_ others).sleeps events
  unfold switchOut fstateSave
  cases hsd : hasSd e.sstatus <;> simp_all [flushThread]

theorem flushed_of_off (hoff : fsOff e.sstatus = true) :
    (e.flushed regs fstate).2.fstate = .zero ∧
      (e.flushed regs fstate).1.regs = (left e.before).getD regs := by
  have h := @sleeps_of_off _ (⟨e.hwStatus, regs⟩, flushThread ⟨fstate, e.sstatus⟩) hoff e.before
  exact ⟨congrArg Thread.fstate h.1, h.2⟩

/-- The state that `start_thread` leaves, after the sleeps up to the return. -/
def started (e : Exec w) (regs fstate : FpRegs) : Fpu w × Thread w :=
  e.after.foldl sleep ((e.flushed regs fstate).1, startThread (e.flushed regs fstate).2)

/-- A sleep after `start_thread` loads the copy in memory: the new status has no `SR_SD`, so
nothing is saved there first. -/
theorem synced_of_after (ha : e.after ≠ []) :
    Synced (e.flushed regs fstate).2.fstate (e.started regs fstate) := by
  obtain ⟨others, events, hcons⟩ := List.exists_cons_of_ne_nil ha
  rw [started, hcons, List.foldl_cons]
  refine (sleep_synced (fsOff_startThread _) ?_ others).sleeps events
  unfold switchOut
  rw [hasSd_startThread, if_neg (by simp)]
  rfl

theorem Synced.started {v : FpRegs} (h : Synced v (e.flushed regs fstate)) :
    Synced v (e.started regs fstate) := by
  have hs : Synced v ((e.flushed regs fstate).1, startThread (e.flushed regs fstate).2) :=
    ⟨h.regs, h.fstate, fsOff_startThread _⟩
  exact hs.sleeps e.after

/-- **The condition suffices**: the registers are zeroes in the unit and in memory. -/
theorem Reloaded.synced (h : e.Reloaded) : Synced .zero (e.started regs fstate) := by
  unfold Reloaded at h
  split_ifs at h with hb
  · have hs := @synced_of_after _ e regs fstate h
    rwa [flushed_nil hb] at hs
  · obtain ⟨hd, h⟩ := h
    cases hoff : fsOff e.sstatus with
    | false => exact Synced.started (synced_of_clean hb hoff hd)
    | true =>
      obtain ⟨hfstate, hregs⟩ := @flushed_of_off _ e regs fstate hoff
      by_cases ha : e.after = []
      · simp only [ha, ne_eq, not_true_eq_false, hoff, Bool.true_eq_false, false_or] at h
        rw [h] at hregs
        rw [started, ha]
        exact ⟨hregs, hfstate, fsOff_startThread _⟩
      · rw [← hfstate]
        exact synced_of_after ha

theorem observed_synced {v : FpRegs} (h : Synced v (e.started regs fstate)) :
    e.observed regs fstate = some v :: e.stays.map fun _ => some v := by
  have hobs := h.observations e.stays
  have hseen := h.seen
  rw [observed, entered]
  exact congrArg₂ List.cons hseen hobs

/-- What the program sees first: the registers, or the copy in memory if a switch has loaded it. -/
theorem observed_head :
    (e.observed regs fstate).head? = some (some
      (if e.after = [] then (e.flushed regs fstate).1.regs
        else (e.flushed regs fstate).2.fstate)) := by
  split_ifs with ha
  · rw [observed, entered, ha]
    refine congrArg some (seen_of_on ?_ _)
    show fsOff (sretStatus (csrStatus (startThread _).sstatus)) = false
    rw [fsOff_sretStatus, fsOff_csrStatus, fsOff_startThread]
  · rw [observed_synced (synced_of_after ha)]
    rfl

end Exec

/-- Registers that are not zeroes. -/
def FpRegs.ones : FpRegs := ⟨fun _ => 1, 0⟩

theorem FpRegs.ones_ne : ones ≠ zero := by decide

/-- **A new program starts fresh iff a switch has loaded the cleared copy for it.** -/
theorem fresh_iff (e : Exec w) : e.Fresh ↔ e.Reloaded := by
  constructor
  · intro h
    have hfirst : (if e.after = [] then (e.flushed .ones .zero).1.regs
        else (e.flushed .ones .zero).2.fstate) = .zero := by
      have hhead := @Exec.observed_head _ e .ones .zero
      have hzero := (h .ones .zero .ones .zero).2 _ (List.mem_of_mem_head? hhead)
      exact Option.some.inj hzero
    unfold Exec.Reloaded
    split_ifs with hb
    · intro ha
      rw [if_pos ha, Exec.flushed_nil hb] at hfirst
      exact FpRegs.ones_ne hfirst
    · have hd : (hasSd e.sstatus && fsDirty e.sstatus) = false := by
        by_contra hd
        have hs := @Exec.synced_of_dirty _ e .ones .zero hb (by simpa using hd)
        rw [hs.regs, hs.fstate, ite_self] at hfirst
        exact FpRegs.ones_ne hfirst
      refine ⟨hd, ?_⟩
      by_contra hnot
      simp only [not_or, ne_eq, not_not, Bool.not_eq_false] at hnot
      obtain ⟨ha, hoff, hleft⟩ := hnot
      have hregs := (@Exec.flushed_of_off _ e .ones .zero hoff).2
      rw [if_pos ha, hregs] at hfirst
      cases hl : Exec.left e.before with
      | none =>
        rw [hl] at hfirst
        exact FpRegs.ones_ne hfirst
      | some v =>
        rw [hl] at hfirst
        exact hleft (hl.trans (congrArg some hfirst))
  · intro h regs fstate regs' fstate'
    rw [Exec.observed_synced h.synced, Exec.observed_synced h.synced]
    refine ⟨rfl, fun o ho => ?_⟩
    rcases List.mem_cons.mp ho with rfl | ho
    · rfl
    · obtain ⟨-, -, rfl⟩ := List.mem_map.mp ho
      rfl

/-- An exec that nothing interrupts, of a program that has used the unit. -/
def quietExec : Exec .rv64 where
  hwStatus := 0
  sstatus := srPie ||| srFsDirty ||| srSd .rv64
  before := []
  after := []
  stays := []

/-- **Without a switch the new program sees what the old one had.** -/
theorem not_fresh_of_no_switch :
    quietExec.observed .ones .zero = [some .ones] ∧ ¬ quietExec.Fresh := by
  have hseen : quietExec.observed .ones .zero = [some .ones] := by decide
  refine ⟨hseen, fun h => ?_⟩
  have hzero := (h .ones .zero .ones .zero).2 (some .ones) (by rw [hseen]; simp)
  exact FpRegs.ones_ne (Option.some.inj hzero)

end LowriscLinux.Kernel.Fp
