import LowriscLinux.Kernel.PtRegs
import LowriscLinux.Lib.Transition
import LowriscLinux.Lib.Words
import Mathlib.Logic.Function.Basic

/-!
# Bringing up the harts

Model of how the harts start: `_start` (`arch/riscv/kernel/head.S`), where all of them begin, and
`__cpu_up` and `smp_callin` (`arch/riscv/kernel/smpboot.c`).

## What models what

* `Loc` and `exec`: the places of a hart and what it does at each. Hart 0 clears the `.bss` segment
  (`head.S`, lines 31-36) and goes into the kernel (line 43). The others compare their number with
  `CONFIG_NR_CPUS` (lines 47 and 48) and park (lines 66-69), or wait for their word of
  `__cpu_up_stack_pointer` to become the top of a stack (lines 54-56). That table is itself in the
  `.bss` segment (`smpboot.c`, line 18).
* `threadInfo`: where a hart finds its task, lines 59-61.
* `smp_callin`: lines 56-71, of which the reference to `init_mm` (line 61), `active_mm` (line 62)
  and `set_cpu_online` (line 67) are steps.
* `Act.cpuUp`: a call of `__cpu_up` on hart 0, lines 38-47, which stores the top of the stack of the
  idle task (line 41). Then hart 0 is at `Loc.waitOnline` until the hart is online (line 43).
* `Ready`: the memory manager and the scheduler are trusted to hand `__cpu_up` an idle task of this
  hart on an aligned stack.

A load or store of memory that harts share is one step, and all harts see these in one order.
`asked` and `came` are bookkeeping: the idle task that `__cpu_up` was called with for each hart, and
the harts that have taken their reference to `init_mm`, in order.

Results:
* `threadInfo_eq`: where `current_thread_info()` finds the idle task's `struct thread_info`.
* `Inv.step`: the invariant is kept by every step.
* **`smp_boot_iff`**: along every run the harts come up one for one with the calls of `__cpu_up`,
  each on its own stack, iff the words of the harts are 0 before `_start` has cleared them.
* **`cpu_up_online`**: a hart that is called is online after seven of its own steps.

Out of scope: what `smp_callin` does besides (`trap_init`, `init_clockevent`,
`notify_cpu_starting`), and taking a hart down.
-/

namespace LowriscLinux.Kernel.Smpboot

open Lib

variable {w : Xlen}

/-- `THREAD_SIZE`. -/
def threadSize : Nat := 4096 <<< 1

/-- What `__cpu_up` uses of an idle task: `task_stack_page(tidle)`, and its `struct task_struct`. -/
structure Idle (w : Xlen) where
  task : Word w
  stack : Word w
  deriving DecidableEq

/-- `task_stack_page(tidle) + THREAD_SIZE`. -/
def Idle.top (d : Idle w) : Word w := d.stack + BitVec.ofNat _ threadSize

/-- `CONFIG_NR_CPUS`, and the fields `task` and `cpu` of a `struct thread_info` at an address. -/
structure Env (w : Xlen) where
  nrCpus : Nat
  task : Word w → Word w
  cpu : Word w → Word w

/-- Where a hart is. -/
inductive Loc (w : Xlen)
  | start
  /-- `.Lsecondary_park`. -/
  | parked
  /-- `.Lwait_for_cpu_up`. -/
  | poll
  /-- At `REG_L tp, (tp)`. -/
  | thread (sp : Word w)
  /-- At the entry of `smp_callin`. -/
  | callin (sp tp : Word w)
  /-- At `atomic_inc`. -/
  | count (sp tp : Word w)
  /-- At `current->active_mm = mm`. -/
  | activeMm (sp tp : Word w)
  /-- At `set_cpu_online`. -/
  | setOnline (sp tp : Word w)
  | up (sp tp : Word w)
  /-- Hart 0, in `memset`. -/
  | clear (i : Nat)
  /-- Hart 0, in `start_kernel`. -/
  | kernel
  /-- Hart 0, at the loop of `__cpu_up`. -/
  | waitOnline (cpu : Word w)
  deriving DecidableEq

structure State (w : Xlen) where
  /-- `__cpu_up_stack_pointer`. -/
  table : Nat → Word w
  loc : Word w → Loc w
  online : Word w → Bool
  /-- The tasks with `active_mm` set to `init_mm`. -/
  active : Word w → Bool
  mmCount : Nat
  asked : Word w → Option (Idle w)
  came : List (Word w)

/-- Before the first instruction. -/
def State.start (table : Nat → Word w) : State w where
  table := table
  loc _ := .start
  online c := c = 0
  active _ := false
  mmCount := 1
  asked _ := none
  came := []

inductive Act (w : Xlen)
  /-- The next step of a hart; `frame` is what the prologue of `smp_callin` takes off the stack. -/
  | hart (c frame : Word w)
  /-- Hart 0 calls `__cpu_up`. -/
  | cpuUp (cpu : Word w) (tidle : Idle w)
  deriving DecidableEq

/-- The idle task is one of this hart: its stack is aligned and does not end the address space, and
`struct thread_info` is at its bottom. -/
structure Ready (env : Env w) (cpu : Word w) (d : Idle w) : Prop where
  possible : cpu.toNat < env.nrCpus
  aligned : d.stack.toNat % threadSize = 0
  top : d.top ≠ 0
  task : env.task d.stack = d.task
  cpu : env.cpu d.stack = cpu

instance (env : Env w) (cpu : Word w) (d : Idle w) : Decidable (Ready env cpu d) :=
  decidable_of_iff (cpu.toNat < env.nrCpus ∧ d.stack.toNat % threadSize = 0 ∧ d.top ≠ 0 ∧
      env.task d.stack = d.task ∧ env.cpu d.stack = cpu)
    ⟨fun ⟨h₁, h₂, h₃, h₄, h₅⟩ => ⟨h₁, h₂, h₃, h₄, h₅⟩,
      fun ⟨h₁, h₂, h₃, h₄, h₅⟩ => ⟨h₁, h₂, h₃, h₄, h₅⟩⟩

/-- `current_thread_info()`. -/
def threadInfo (sp : Word w) : Word w := sp &&& ~~~ BitVec.ofNat _ (threadSize - 1)

/-- A frame that a function can have on a stack. -/
def Frame (frame : Word w) : Prop := 0 < frame.toNat ∧ frame.toNat ≤ threadSize

instance (frame : Word w) : Decidable (Frame frame) := inferInstanceAs (Decidable (_ ∧ _))

namespace State

variable (env : Env w) (s : State w)

def goto (c : Word w) (l : Loc w) : State w := { s with loc := Function.update s.loc c l }

/-- The next step of a hart. -/
def exec (c frame : Word w) : Option (State w) :=
  match s.loc c with
  | .start =>
    some (s.goto c (if c = 0 then .clear 0 else if env.nrCpus ≤ c.toNat then .parked else .poll))
  | .parked => some s
  | .poll => some (s.goto c (if s.table c.toNat = 0 then .poll else .thread (s.table c.toNat)))
  | .thread sp => some (s.goto c (.callin sp (env.task (sp - BitVec.ofNat _ threadSize))))
  | .callin sp tp => if Frame frame then some (s.goto c (.count (sp - frame) tp)) else none
  | .count sp tp =>
    some ({ s with mmCount := s.mmCount + 1, came := s.came ++ [c] }.goto c (.activeMm sp tp))
  | .activeMm sp tp =>
    some ({ s with active := Function.update s.active tp true }.goto c (.setOnline sp tp))
  | .setOnline sp tp =>
    some ({ s with online := Function.update s.online (env.cpu (threadInfo sp)) true }.goto c
      (.up sp tp))
  | .up _ _ => some s
  | .clear i =>
    if i < env.nrCpus then
      some ({ s with table := Function.update s.table i 0 }.goto c (.clear (i + 1)))
    else some (s.goto c .kernel)
  | .kernel => none
  | .waitOnline cpu => some (s.goto c (if s.online cpu then .kernel else .waitOnline cpu))

def step : Act w → Option (State w)
  | .hart c frame => s.exec env c frame
  | .cpuUp cpu tidle =>
    if s.loc 0 = .kernel ∧ s.online cpu = false ∧ Ready env cpu tidle then
      some ({ s with
        table := Function.update s.table cpu.toNat tidle.top
        asked := Function.update s.asked cpu (some tidle) }.goto 0 (.waitOnline cpu))
    else none

end State

/-- One step of a run. -/
def Step (env : Env w) (s : State w) (a : Act w) (s' : State w) : Prop := s.step env a = some s'

/-! ## Stacks -/

theorem threadSize_lt (w : Xlen) : threadSize < 2 ^ (8 * szreg w) := by cases w <;> decide

/-- **Below the top of an aligned stack `current_thread_info()` is its bottom**, whatever the frame
of the function that asks. -/
theorem threadInfo_eq {d : Idle w} (h : d.stack.toNat % threadSize = 0) {frame : Word w}
    (hframe : Frame frame) : threadInfo (d.top - frame) = d.stack := by
  obtain ⟨hpos, hle⟩ := hframe
  have hlt := threadSize_lt w
  have hn : (2 : Nat) ^ (8 * szreg w) = threadSize * 2 ^ (8 * szreg w - 13) := by
    cases w <;> decide
  have hstack := d.stack.isLt
  have hfit : d.stack.toNat + threadSize ≤ 2 ^ (8 * szreg w) := by
    have hmod : d.stack.toNat % threadSize = 2 ^ (8 * szreg w) % threadSize := by
      rw [h, hn, Nat.mul_mod_right]
    exact add_le_of_mod_eq hmod hstack
  have hrest : (BitVec.ofNat (8 * szreg w) (threadSize - frame.toNat)).toNat =
      threadSize - frame.toNat := by
    rw [BitVec.toNat_ofNat, Nat.mod_eq_of_lt (by omega)]
  have hsp : d.top - frame = d.stack + BitVec.ofNat _ (threadSize - frame.toNat) := by
    have hsize : BitVec.ofNat (8 * szreg w) threadSize =
        BitVec.ofNat _ (threadSize - frame.toNat) + frame := by
      apply BitVec.eq_of_toNat_eq
      rw [BitVec.toNat_add, hrest, BitVec.toNat_ofNat, Nat.sub_add_cancel hle]
    rw [Idle.top, hsize, ← BitVec.add_assoc, BitVec.add_sub_cancel]
  apply BitVec.eq_of_toNat_eq
  rw [hsp, threadInfo, show threadSize - 1 = 2 ^ 13 - 1 from rfl, toNat_and_not_mask,
    BitVec.toNat_add, hrest, Nat.mod_eq_of_lt (by omega)]
  change d.stack.toNat % 8192 = 0 at h
  change _ ≤ 8192 at hle
  change (d.stack.toNat + (8192 - frame.toNat)) / 8192 * 8192 = _
  omega

/-! ## The invariant -/

/-- How far a hart has come after the poll. -/
def Loc.stage : Loc w → Nat
  | .thread _ => 1
  | .callin _ _ => 2
  | .count _ _ => 3
  | .activeMm _ _ => 4
  | .setOnline _ _ => 5
  | .up _ _ => 6
  | _ => 0

/-- The hart has the stack of an idle task, and then the task. -/
def Placed (d : Idle w) : Loc w → Prop
  | .thread sp => sp = d.top
  | .callin sp tp => sp = d.top ∧ tp = d.task
  | .count sp tp => (∃ frame, Frame frame ∧ sp = d.top - frame) ∧ tp = d.task
  | .activeMm sp tp => (∃ frame, Frame frame ∧ sp = d.top - frame) ∧ tp = d.task
  | .setOnline sp tp => (∃ frame, Frame frame ∧ sp = d.top - frame) ∧ tp = d.task
  | .up sp tp => (∃ frame, Frame frame ∧ sp = d.top - frame) ∧ tp = d.task
  | _ => False

/-- The places of a hart. -/
def LocOk (env : Env w) (asked : Word w → Option (Idle w)) (c : Word w) : Loc w → Prop
  | .start => True
  | .parked => c ≠ 0 ∧ env.nrCpus ≤ c.toNat
  | .poll => c ≠ 0 ∧ c.toNat < env.nrCpus
  | .clear _ => c = 0
  | .kernel => c = 0
  | .waitOnline _ => c = 0
  | l => ∃ d, asked c = some d ∧ Placed d l

structure Inv (env : Env w) (s : State w) : Prop where
  loc : ∀ c, LocOk env s.asked c (s.loc c)
  table : ∀ c, c ≠ 0 → c.toNat < env.nrCpus → s.table c.toNat = (s.asked c).elim 0 Idle.top
  ready : ∀ c d, s.asked c = some d → c ≠ 0 ∧ Ready env c d
  /-- The segment is cleared before the first call. -/
  early : s.loc 0 = .start ∨ (∃ i, s.loc 0 = .clear i) → ∀ c, s.asked c = none
  waiting : ∀ c d, s.asked c = some d → s.online c = true ∨ s.loc 0 = .waitOnline c
  online : ∀ c, s.online c = true ↔ c = 0 ∨ (s.loc c).stage = 6
  active : ∀ c d, s.asked c = some d → 5 ≤ (s.loc c).stage → s.active d.task = true
  count : s.mmCount = 1 + s.came.length
  nodup : s.came.Nodup
  came : ∀ c, c ∈ s.came ↔ 4 ≤ (s.loc c).stage

section Kept

variable {env : Env w} {s s' : State w} {c : Word w} {l : Loc w} {a : Act w}

theorem Inv.start {table : Nat → Word w}
    (h : ∀ c : Word w, c ≠ 0 → c.toNat < env.nrCpus → table c.toNat = 0) :
    Inv env (.start table) where
  loc _ := trivial
  table := h
  ready _ _ hd := by cases hd
  early _ _ := rfl
  waiting _ _ hd := by cases hd
  online c := by simp [State.start, Loc.stage]
  active _ _ hd := by cases hd
  count := rfl
  nodup := List.nodup_nil
  came c := by simp [State.start, Loc.stage]

/-- A hart that has come so far has an idle task. -/
theorem LocOk.asked {asked : Word w → Option (Idle w)} (h : LocOk env asked c l)
    (hl : l.stage ≠ 0) : ∃ d, asked c = some d ∧ Placed d l := by
  cases l with
  | thread | callin | count | activeMm | setOnline | up => exact h
  | _ => exact absurd rfl hl

/-- What hart 0 does to the order of the calls. -/
structure Main (s : State w) (l : Loc w) : Prop where
  early : l = .start ∨ (∃ i, l = .clear i) → ∀ c, s.asked c = none
  waiting : ∀ c d, s.asked c = some d → s.online c = true ∨ l = .waitOnline c

theorem Inv.main (h : Inv env s) : Main s (s.loc 0) := ⟨h.early, h.waiting⟩

/-- The place of hart 0 after a move. -/
theorem Main.goto (h : Inv env s) (hmain : c = 0 → Main s l) :
    Main s (Function.update s.loc c l 0) := by
  by_cases hc : 0 = c
  · rw [hc, Function.update_self]
    exact hmain hc.symm
  · rw [Function.update_of_ne hc]
    exact h.main

theorem locOk_goto (h : Inv env s) (hl : LocOk env s.asked c l) (c' : Word w) :
    LocOk env s.asked c' (Function.update s.loc c l c') := by
  by_cases hc : c' = c
  · subst hc
    rwa [Function.update_self]
  · rw [Function.update_of_ne hc]
    exact h.loc c'

/-- What a move does to a threshold that it does not cross. -/
theorem stage_goto {P : Nat → Prop} (hl : P l.stage ↔ P (s.loc c).stage) (c' : Word w) :
    P (Function.update s.loc c l c').stage ↔ P (s.loc c').stage := by
  by_cases hc : c' = c
  · subst hc
    rwa [Function.update_self]
  · rw [Function.update_of_ne hc]

/-- **A move that changes nothing but the place of a hart.** -/
theorem Inv.goto (h : Inv env s) (hl : LocOk env s.asked c l) (hmain : c = 0 → Main s l)
    (hold : (s.loc c).stage ≤ 3) (hnew : l.stage ≤ 3) : Inv env (s.goto c l) where
  loc := locOk_goto h hl
  table := h.table
  ready := h.ready
  early := (Main.goto h hmain).early
  waiting := (Main.goto h hmain).waiting
  online c' := (h.online c').trans (or_congr_right (stage_goto (P := (· = 6)) (by omega) c').symm)
  active c' d hd hs := h.active c' d hd ((stage_goto (P := (5 ≤ ·)) (by omega) c').mp hs)
  count := h.count
  nodup := h.nodup
  came c' := (h.came c').trans (stage_goto (P := (4 ≤ ·)) (by omega) c').symm

/-- A hart takes its reference to `init_mm`. -/
theorem Inv.count_step (h : Inv env s) {sp tp : Word w} (hc : s.loc c = .count sp tp) :
    Inv env ({ s with mmCount := s.mmCount + 1, came := s.came ++ [c] }.goto c
      (.activeMm sp tp)) := by
  have hloc := h.loc c
  rw [hc] at hloc
  have hstage : (s.loc c).stage = 3 := by rw [hc]; rfl
  have hnew : (Loc.activeMm sp tp).stage = 4 := rfl
  obtain ⟨d, hd, hplaced⟩ := hloc
  have hc0 : c ≠ 0 := (h.ready c d hd).1
  have hnot : c ∉ s.came := fun hmem => by
    have hge := (h.came c).mp hmem
    omega
  exact {
    loc := locOk_goto (s := s) h ⟨d, hd, hplaced⟩
    table := h.table
    ready := h.ready
    early := (Main.goto h fun hc => absurd hc hc0).early
    waiting := (Main.goto h fun hc => absurd hc hc0).waiting
    online := fun c' => (h.online c').trans
      (or_congr_right (stage_goto (P := (· = 6)) (by omega) c').symm)
    active := fun c' d' hd' hs => h.active c' d' hd'
      ((stage_goto (P := (5 ≤ ·)) (by omega) c').mp hs)
    count := by
      show s.mmCount + 1 = 1 + (s.came ++ [c]).length
      rw [h.count, List.length_append, List.length_singleton, Nat.add_assoc]
    nodup := List.nodup_append.mpr ⟨h.nodup, List.nodup_singleton c, by
      rintro x hx y hy rfl
      exact hnot (List.mem_singleton.mp hy ▸ hx)⟩
    came := by
      intro c'
      show c' ∈ s.came ++ [c] ↔ 4 ≤ (Function.update s.loc c (.activeMm sp tp) c').stage
      by_cases hcc : c' = c
      · subst hcc
        simp [Loc.stage]
      · rw [Function.update_of_ne hcc, ← h.came c']
        simp [hcc] }

/-- A hart sets the `active_mm` of its task. -/
theorem Inv.activeMm_step (h : Inv env s) {sp tp : Word w} (hc : s.loc c = .activeMm sp tp) :
    Inv env ({ s with active := Function.update s.active tp true }.goto c (.setOnline sp tp)) := by
  have hloc := h.loc c
  rw [hc] at hloc
  have hstage : (s.loc c).stage = 4 := by rw [hc]; rfl
  have hnew : (Loc.setOnline sp tp).stage = 5 := rfl
  obtain ⟨d, hd, hplaced⟩ := hloc
  have hc0 : c ≠ 0 := (h.ready c d hd).1
  exact {
    loc := locOk_goto (s := s) h ⟨d, hd, hplaced⟩
    table := h.table
    ready := h.ready
    early := (Main.goto h fun hc => absurd hc hc0).early
    waiting := (Main.goto h fun hc => absurd hc hc0).waiting
    online := fun c' => (h.online c').trans
      (or_congr_right (stage_goto (P := (· = 6)) (by omega) c').symm)
    active := by
      intro c' d' hd' hs
      show Function.update s.active tp true d'.task = true
      by_cases htask : d'.task = tp
      · rw [htask, Function.update_self]
      · rw [Function.update_of_ne htask]
        have hcc : c' ≠ c := by
          rintro rfl
          obtain rfl := Option.some.inj (hd.symm.trans hd')
          exact htask hplaced.2.symm
        change 5 ≤ (Function.update s.loc c (.setOnline sp tp) c').stage at hs
        rw [Function.update_of_ne hcc] at hs
        exact h.active c' d' hd' hs
    count := h.count
    nodup := h.nodup
    came := fun c' => (h.came c').trans
      (stage_goto (P := (4 ≤ ·)) (by omega) c').symm }

/-- A hart says that it is online: `smp_processor_id()` is its own number. -/
theorem Inv.setOnline_step (h : Inv env s) {sp tp : Word w} (hc : s.loc c = .setOnline sp tp) :
    Inv env ({ s with online := Function.update s.online (env.cpu (threadInfo sp)) true }.goto c
      (.up sp tp)) := by
  have hloc := h.loc c
  rw [hc] at hloc
  have hstage : (s.loc c).stage = 5 := by rw [hc]; rfl
  have hnew : (Loc.up sp tp).stage = 6 := rfl
  obtain ⟨d, hd, hplaced⟩ := hloc
  obtain ⟨hc0, hready⟩ := h.ready c d hd
  have hcpu : env.cpu (threadInfo sp) = c := by
    obtain ⟨⟨frame, hframe, rfl⟩, -⟩ := hplaced
    rw [threadInfo_eq hready.aligned hframe, hready.cpu]
  rw [hcpu]
  have hmain := Main.goto (l := .up sp tp) h fun hc => absurd hc hc0
  exact {
    loc := locOk_goto (s := s) h ⟨d, hd, hplaced⟩
    table := h.table
    ready := h.ready
    early := hmain.early
    waiting := by
      intro c' d' hd'
      rcases hmain.waiting c' d' hd' with hon | hwait
      · refine .inl ?_
        show Function.update s.online c true c' = true
        by_cases hcc : c' = c
        · rw [hcc, Function.update_self]
        · rwa [Function.update_of_ne hcc]
      · exact .inr hwait
    online := by
      intro c'
      show Function.update s.online c true c' = true ↔
        c' = 0 ∨ (Function.update s.loc c (.up sp tp) c').stage = 6
      by_cases hcc : c' = c
      · subst hcc
        simp [Loc.stage]
      · rw [Function.update_of_ne hcc, Function.update_of_ne hcc]
        exact h.online c'
    active := fun c' d' hd' hs => h.active c' d' hd'
      ((stage_goto (P := (5 ≤ ·)) (by omega) c').mp hs)
    count := h.count
    nodup := h.nodup
    came := fun c' => (h.came c').trans
      (stage_goto (P := (4 ≤ ·)) (by omega) c').symm }

/-- Hart 0 clears a word of the table. -/
theorem Inv.clear (h : Inv env s) {i : Nat} (hc : s.loc 0 = .clear i) :
    Inv env ({ s with table := Function.update s.table i 0 }.goto 0 (.clear (i + 1))) := by
  have hnone := h.early (.inr ⟨i, hc⟩)
  have hmoved : Inv env (s.goto 0 (.clear (i + 1))) := by
    refine h.goto rfl (fun _ => ⟨fun _ => hnone, fun c d hd => ?_⟩) ?_ (Nat.zero_le 3)
    · cases (hnone c).symm.trans hd
    · rw [hc]
      exact Nat.zero_le 3
  refine { hmoved with table := fun c hc0 hlt => ?_ }
  show Function.update s.table i 0 c.toNat = (s.asked c).elim 0 Idle.top
  have hold := h.table c hc0 hlt
  rw [hnone c] at hold ⊢
  by_cases hi : c.toNat = i
  · rw [hi, Function.update_self]
    rfl
  · rwa [Function.update_of_ne hi]

/-- **What a step of a hart does.** -/
theorem Inv.exec (h : Inv env s) {frame : Word w} (hs : s.exec env c frame = some s') :
    Inv env s' := by
  have hok := h.loc c
  unfold State.exec at hs
  cases hc : s.loc c with
  | start =>
    rw [hc] at hs hok
    obtain rfl := Option.some.inj hs
    have hstage : (s.loc c).stage ≤ 3 := by rw [hc]; exact Nat.zero_le 3
    by_cases hc0 : c = 0
    · subst hc0
      rw [if_pos rfl]
      have hnone := h.early (.inl hc)
      exact h.goto rfl (fun _ => ⟨fun _ => hnone, fun c d hd => by cases (hnone c).symm.trans hd⟩)
        hstage (Nat.zero_le 3)
    · rw [if_neg hc0]
      refine h.goto ?_ (fun h0 => absurd h0 hc0) hstage ?_
      · split_ifs with hge
        · exact ⟨hc0, hge⟩
        · exact ⟨hc0, Nat.lt_of_not_le hge⟩
      · split_ifs
        · exact Nat.zero_le 3
        · exact Nat.zero_le 3
  | parked | up sp tp =>
    rw [hc] at hs
    obtain rfl := Option.some.inj hs
    exact h
  | poll =>
    rw [hc] at hs hok
    obtain rfl := Option.some.inj hs
    have hstage : (s.loc c).stage ≤ 3 := by rw [hc]; exact Nat.zero_le 3
    obtain ⟨hc0, hlt⟩ := hok
    refine h.goto ?_ (fun h0 => absurd h0 hc0) hstage ?_
    · split_ifs with hzero
      · exact ⟨hc0, hlt⟩
      · have htable := h.table c hc0 hlt
        cases hd : s.asked c with
        | none => exact absurd (htable.trans (by rw [hd]; rfl)) hzero
        | some d => exact ⟨d, hd, htable.trans (by rw [hd]; rfl)⟩
    · split_ifs
      · exact Nat.zero_le 3
      · exact Nat.le_add_left 1 2
  | thread sp =>
    rw [hc] at hs hok
    obtain rfl := Option.some.inj hs
    obtain ⟨d, hd, hplaced⟩ := hok
    obtain rfl : sp = d.top := hplaced
    obtain ⟨hc0, hready⟩ := h.ready c d hd
    refine h.goto ⟨d, hd, rfl, ?_⟩ (fun h0 => absurd h0 hc0) ?_ (Nat.le_add_left 2 1)
    · rw [Idle.top, BitVec.add_sub_cancel, hready.task]
    · rw [hc]
      exact Nat.le_add_left 1 2
  | callin sp tp =>
    rw [hc] at hs hok
    obtain ⟨hframe, rfl⟩ := Option.ite_none_right_eq_some.mp hs |>.imp_right Option.some.inj
    obtain ⟨d, hd, rfl, rfl⟩ := hok
    refine h.goto ⟨d, hd, ⟨frame, hframe, rfl⟩, rfl⟩ (fun h0 => absurd h0 (h.ready c d hd).1) ?_
      (Nat.le_refl 3)
    rw [hc]
    exact Nat.le_add_left 2 1
  | count sp tp =>
    rw [hc] at hs
    obtain rfl := Option.some.inj hs
    exact h.count_step hc
  | activeMm sp tp =>
    rw [hc] at hs
    obtain rfl := Option.some.inj hs
    exact h.activeMm_step hc
  | setOnline sp tp =>
    rw [hc] at hs
    obtain rfl := Option.some.inj hs
    exact h.setOnline_step hc
  | clear i =>
    rw [hc] at hs hok
    obtain rfl : c = 0 := hok
    dsimp only at hs
    split_ifs at hs with hi
    · obtain rfl := Option.some.inj hs
      exact h.clear hc
    · obtain rfl := Option.some.inj hs
      have hnone := h.early (.inr ⟨i, hc⟩)
      refine h.goto rfl (fun _ => ⟨fun _ => hnone, fun c d hd => ?_⟩) ?_ (Nat.zero_le 3)
      · cases (hnone c).symm.trans hd
      · rw [hc]
        exact Nat.zero_le 3
  | kernel =>
    rw [hc] at hs
    cases hs
  | waitOnline cpu =>
    rw [hc] at hs hok
    obtain rfl : c = 0 := hok
    obtain rfl := Option.some.inj hs
    have hstage : (s.loc 0).stage ≤ 3 := by rw [hc]; exact Nat.zero_le 3
    by_cases hon : s.online cpu = true
    · rw [if_pos hon]
      refine h.goto rfl (fun _ => ⟨fun hearly => ?_, fun c d hd => .inl ?_⟩) hstage (Nat.zero_le 3)
      · rcases hearly with hl | ⟨i, hl⟩
        · cases hl
        · cases hl
      · rcases h.waiting c d hd with hc' | hwait
        · exact hc'
        · obtain rfl := Loc.waitOnline.inj (hc.symm.trans hwait)
          exact hon
    · rw [if_neg hon]
      refine h.goto rfl (fun _ => ?_) hstage (Nat.zero_le 3)
      have hmain := h.main
      rwa [hc] at hmain

/-- What is said of the places keeps when a hart is called that was not called before. -/
theorem LocOk.call {asked : Word w → Option (Idle w)} {cpu : Word w} (h : LocOk env asked c l)
    (hnone : asked cpu = none) (d : Idle w) :
    LocOk env (Function.update asked cpu (some d)) c l := by
  have hkeep : ∀ d', asked c = some d' → Function.update asked cpu (some d) c = some d' := by
    intro d' hd'
    rw [Function.update_of_ne, hd']
    rintro rfl
    cases hnone.symm.trans hd'
  cases l with
  | thread | callin | count | activeMm | setOnline | up =>
    obtain ⟨d', hd', hplaced⟩ := h
    exact ⟨d', hkeep d' hd', hplaced⟩
  | _ => exact h

/-- **A call of `__cpu_up`.** -/
theorem Inv.cpuUp (h : Inv env s) {cpu : Word w} {d : Idle w} (hkernel : s.loc 0 = .kernel)
    (hoff : s.online cpu = false) (hready : Ready env cpu d) :
    Inv env ({ s with
      table := Function.update s.table cpu.toNat d.top
      asked := Function.update s.asked cpu (some d) }.goto 0 (.waitOnline cpu)) := by
  have hcpu : cpu ≠ 0 := by
    rintro rfl
    have hon := (h.online 0).mpr (.inl rfl)
    rw [hoff] at hon
    cases hon
  have hnone : s.asked cpu = none := by
    cases hd : s.asked cpu with
    | none => rfl
    | some d' =>
      rcases h.waiting cpu d' hd with hon | hwait
      · rw [hoff] at hon
        cases hon
      · cases hkernel.symm.trans hwait
  have hstage : (s.loc 0).stage = 0 := by rw [hkernel]; rfl
  have hnew : (Loc.waitOnline cpu).stage = 0 := rfl
  exact {
    loc := by
      intro c
      show LocOk env (Function.update s.asked cpu (some d)) c (Function.update s.loc 0 _ c)
      refine LocOk.call ?_ hnone d
      exact locOk_goto (s := s) (c := 0) (l := .waitOnline cpu) h rfl c
    table := by
      intro c hc0 hlt
      show Function.update s.table cpu.toNat d.top c.toNat =
        (Function.update s.asked cpu (some d) c).elim 0 Idle.top
      by_cases hc : c = cpu
      · subst hc
        rw [Function.update_self, Function.update_self]
        rfl
      · have hne : c.toNat ≠ cpu.toNat := fun heq => hc (BitVec.eq_of_toNat_eq heq)
        rw [Function.update_of_ne hne, Function.update_of_ne hc]
        exact h.table c hc0 hlt
    ready := by
      intro c d' hd'
      change Function.update s.asked cpu (some d) c = some d' at hd'
      by_cases hc : c = cpu
      · subst hc
        rw [Function.update_self] at hd'
        obtain rfl := Option.some.inj hd'
        exact ⟨hcpu, hready⟩
      · rw [Function.update_of_ne hc] at hd'
        exact h.ready c d' hd'
    early := by
      intro hearly
      change Function.update s.loc 0 (.waitOnline cpu) 0 = _ ∨
        ∃ i, Function.update s.loc 0 (.waitOnline cpu) 0 = .clear i at hearly
      rw [Function.update_self] at hearly
      rcases hearly with hl | ⟨i, hl⟩
      · cases hl
      · cases hl
    waiting := by
      intro c d' hd'
      change Function.update s.asked cpu (some d) c = some d' at hd'
      show s.online c = true ∨ Function.update s.loc 0 (.waitOnline cpu) 0 = _
      rw [Function.update_self]
      by_cases hc : c = cpu
      · exact .inr (by rw [hc])
      · rw [Function.update_of_ne hc] at hd'
        rcases h.waiting c d' hd' with hon | hwait
        · exact .inl hon
        · cases hkernel.symm.trans hwait
    online := fun c => (h.online c).trans
      (or_congr_right (stage_goto (P := (· = 6)) (by omega) c).symm)
    active := by
      intro c d' hd' hs
      have hold := (stage_goto (s := s) (P := (5 ≤ ·)) (by omega) c).mp hs
      change Function.update s.asked cpu (some d) c = some d' at hd'
      by_cases hc : c = cpu
      · subst hc
        obtain ⟨d'', hd'', -⟩ := (h.loc c).asked (by omega)
        cases hnone.symm.trans hd''
      · rw [Function.update_of_ne hc] at hd'
        exact h.active c d' hd' hold
    count := h.count
    nodup := h.nodup
    came := fun c => (h.came c).trans (stage_goto (P := (4 ≤ ·)) (by omega) c).symm }

/-- **The invariant is kept by every step.** -/
theorem Inv.step (h : Inv env s) (hs : Step env s a s') : Inv env s' := by
  cases a with
  | hart c frame => exact h.exec hs
  | cpuUp cpu d =>
    obtain ⟨⟨hkernel, hoff, hready⟩, rfl⟩ :=
      Option.ite_none_right_eq_some.mp hs |>.imp_right Option.some.inj
    exact h.cpuUp hkernel hoff hready

end Kept

/-! ## Runs -/

/-- The harts come up one for one with the calls of `__cpu_up`. -/
structure Correct (env : Env w) (s : State w) : Prop where
  /-- A hart that has left the poll has the stack and the task that it was called with. -/
  own : ∀ c, (s.loc c).stage ≠ 0 → ∃ d, s.asked c = some d ∧ Placed d (s.loc c)
  /-- No two of them have one stack. -/
  apart : ∀ c c' d d', s.asked c = some d → s.asked c' = some d' → d.stack = d'.stack → c = c'
  possible : ∀ c, (s.loc c).stage ≠ 0 → c ≠ 0 ∧ c.toNat < env.nrCpus
  /-- Those online have come up, with `active_mm` set. -/
  online : ∀ c, s.online c = true ↔ c = 0 ∨ (s.loc c).stage = 6
  active : ∀ c d, s.asked c = some d → s.online c = true → s.active d.task = true
  /-- `init_mm` has a reference for each of them, and for those on their way. -/
  count : s.mmCount = 1 + s.came.length
  came : s.came.Nodup ∧ ∀ c, c ∈ s.came ↔ 4 ≤ (s.loc c).stage

section Run

variable {env : Env w} {s s' : State w} {c frame : Word w} {table : Nat → Word w}
  {run : List (Act w × State w)}

theorem Inv.correct (h : Inv env s) : Correct env s where
  own c hs := (h.loc c).asked hs
  apart c c' d d' hd hd' hstack := by
    rw [← (h.ready c d hd).2.cpu, ← (h.ready c' d' hd').2.cpu, hstack]
  possible c hs := by
    obtain ⟨d, hd, -⟩ := (h.loc c).asked hs
    exact ⟨(h.ready c d hd).1, (h.ready c d hd).2.possible⟩
  online := h.online
  active c d hd hon := by
    refine h.active c d hd ?_
    rcases (h.online c).mp hon with h0 | hup
    · exact absurd h0 (h.ready c d hd).1
    · omega
  count := h.count
  came := ⟨h.nodup, h.came⟩

/-- A hart whose word is not 0 before it is cleared goes off with it. -/
theorem not_correct_of_garbage (hc : c ≠ 0) (hlt : c.toNat < env.nrCpus)
    (htable : table c.toNat ≠ 0) :
    ¬ Correct env (lastState (.start table)
      (trace (State.step env) (.start table) [.hart c 0, .hart c 0])) := by
  intro h
  have hpoll : (State.start table).step env (.hart c 0) =
      some ((State.start table).goto c .poll) := by
    show some ((State.start table).goto c
      (if c = 0 then .clear 0 else if env.nrCpus ≤ c.toNat then .parked else .poll)) = _
    rw [if_neg hc, if_neg (Nat.not_le.mpr hlt)]
  have hthread : ((State.start table).goto c .poll).step env (.hart c 0) =
      some (((State.start table).goto c .poll).goto c (.thread (table c.toNat))) := by
    have hloc : ((State.start table).goto c .poll).loc c = .poll := Function.update_self ..
    rw [State.step, State.exec, hloc]
    exact congrArg (fun l => some (State.goto _ c l)) (if_neg htable)
  simp only [trace, hpoll, hthread, lastState] at h
  obtain ⟨d, hd, -⟩ := h.own c (by simp [State.goto, Loc.stage])
  cases hd

/-- **The hand-over is right iff the table is clear from the start**: along every run each hart that
goes into the kernel has the stack and the idle task that `__cpu_up` was called with for it, is
online only then, and holds one reference to `init_mm`, iff the words of the other harts are 0
before hart 0 clears them. -/
theorem smp_boot_iff (env : Env w) (table : Nat → Word w) :
    (∀ run, IsRun (Step env) (.start table) run → Always (Correct env) (.start table) run) ↔
      ∀ c : Word w, c ≠ 0 → c.toNat < env.nrCpus → table c.toNat = 0 := by
  constructor
  · intro h c hc hlt
    by_contra htable
    exact not_correct_of_garbage hc hlt htable (h _ (isRun_trace _ _)).last
  · intro h run hrun
    exact (hrun.invariant (fun _ _ _ h hs => h.step hs) (Inv.start h)).imp fun _ h => h.correct

/-! ### A call comes back -/

/-- The step is one of this hart. -/
def Act.own (c : Word w) : Act w → Bool
  | .hart c' _ => c' = c
  | .cpuUp _ _ => false

/-- The steps that a hart with a stack is away from being online. -/
def Loc.left : Loc w → Nat
  | .start => 7
  | .poll => 6
  | l => 6 - l.stage

theorem left_le (l : Loc w) : l.left ≤ 7 := by
  cases l with
  | start => exact Nat.le_refl 7
  | poll => exact Nat.le_succ 6
  | _ => exact Nat.le_trans (Nat.sub_le 6 _) (Nat.le_succ 6)

theorem stage_of_left {l : Loc w} (h : l.left = 0) : l.stage = 6 := by
  cases l <;> simp_all [Loc.left, Loc.stage]

/-- A step of a hart is about this hart. -/
theorem exec_frame (hs : s.exec env c frame = some s') :
    s'.asked = s.asked ∧ ∀ c', c' ≠ c → s'.loc c' = s.loc c' := by
  have hgoto : ∀ (u : State w) (l : Loc w), u.asked = s.asked → u.loc = s.loc →
      (u.goto c l).asked = s.asked ∧ ∀ c', c' ≠ c → (u.goto c l).loc c' = s.loc c' := by
    intro u l hasked hloc
    refine ⟨hasked, fun c' hc' => ?_⟩
    rw [← hloc]
    exact Function.update_of_ne hc' _ _
  unfold State.exec at hs
  cases hc : s.loc c with
  | start | poll | thread | count | activeMm | setOnline | waitOnline =>
    rw [hc] at hs
    obtain rfl := Option.some.inj hs
    exact hgoto _ _ rfl rfl
  | parked | up =>
    rw [hc] at hs
    obtain rfl := Option.some.inj hs
    exact ⟨rfl, fun _ _ => rfl⟩
  | callin sp tp =>
    rw [hc] at hs
    obtain ⟨-, rfl⟩ := Option.ite_none_right_eq_some.mp hs |>.imp_right Option.some.inj
    exact hgoto _ _ rfl rfl
  | clear i =>
    rw [hc] at hs
    dsimp only at hs
    split_ifs at hs
    · obtain rfl := Option.some.inj hs
      exact hgoto _ _ rfl rfl
    · obtain rfl := Option.some.inj hs
      exact hgoto _ _ rfl rfl
  | kernel =>
    rw [hc] at hs
    cases hs

/-- **A step of a hart that has been called** brings it one step closer. -/
theorem Inv.exec_left (h : Inv env s) {d : Idle w} (hd : s.asked c = some d)
    (hs : s.exec env c frame = some s') : (s'.loc c).left = (s.loc c).left - 1 := by
  obtain ⟨hc0, hready⟩ := h.ready c d hd
  have hok := h.loc c
  have hself : ∀ (u : State w) (l : Loc w), (u.goto c l).loc c = l := fun u l =>
    Function.update_self ..
  unfold State.exec at hs
  cases hc : s.loc c with
  | start =>
    rw [hc] at hs
    obtain rfl := Option.some.inj hs
    rw [hself, if_neg hc0, if_neg (Nat.not_le.mpr hready.possible)]
    rfl
  | poll =>
    rw [hc] at hs
    obtain rfl := Option.some.inj hs
    have htable := h.table c hc0 hready.possible
    rw [hd, Option.elim_some] at htable
    rw [hself, htable, if_neg hready.top]
    rfl
  | thread | count | activeMm | setOnline =>
    rw [hc] at hs
    obtain rfl := Option.some.inj hs
    rw [hself]
    rfl
  | callin sp tp =>
    rw [hc] at hs
    obtain ⟨-, rfl⟩ := Option.ite_none_right_eq_some.mp hs |>.imp_right Option.some.inj
    rw [hself]
    rfl
  | up sp tp =>
    rw [hc] at hs
    obtain rfl := Option.some.inj hs
    rw [hc]
    rfl
  | parked =>
    rw [hc] at hok
    exact absurd hok.2 (Nat.not_le.mpr hready.possible)
  | clear | kernel | waitOnline =>
    rw [hc] at hok
    exact absurd hok hc0

/-- A step in a run, and what is left for a hart that has been called. -/
theorem Inv.step_left (h : Inv env s) {a : Act w} {d : Idle w} (hd : s.asked c = some d)
    (hs : Step env s a s') :
    s'.asked c = some d ∧ (s'.loc c).left = (s.loc c).left - if a.own c then 1 else 0 := by
  cases a with
  | hart c' frame =>
    obtain ⟨hasked, hother⟩ := exec_frame hs
    rw [hasked]
    by_cases hc : c' = c
    · subst hc
      simpa [Act.own, hd] using h.exec_left hd hs
    · simp [Act.own, hc, hd, hother c (Ne.symm hc)]
  | cpuUp cpu d' =>
    obtain ⟨⟨hkernel, hoff, hready⟩, rfl⟩ :=
      Option.ite_none_right_eq_some.mp hs |>.imp_right Option.some.inj
    have hc : c ≠ cpu := by
      rintro rfl
      rcases h.waiting c d hd with hon | hwait
      · rw [hoff] at hon
        cases hon
      · cases hkernel.symm.trans hwait
    refine ⟨?_, ?_⟩
    · show Function.update s.asked cpu (some d') c = some d
      rw [Function.update_of_ne hc, hd]
    · show (Function.update s.loc 0 (.waitOnline cpu) c).left = _
      rw [Function.update_of_ne (h.ready c d hd).1]
      rfl

theorem Inv.run_left (h : Inv env s) {d : Idle w} (hd : s.asked c = some d)
    (hrun : IsRun (Step env) s run) :
    (lastState s run).asked c = some d ∧
      ((lastState s run).loc c).left = (s.loc c).left - run.countP fun e => e.1.own c := by
  induction run generalizing s with
  | nil => exact ⟨hd, rfl⟩
  | cons e rest ih =>
    obtain ⟨hs, hrest⟩ := hrun
    obtain ⟨hd', hleft⟩ := h.step_left hd hs
    obtain ⟨hlast, hcount⟩ := ih (h.step hs) hd' hrest
    refine ⟨hlast, ?_⟩
    rw [lastState, hcount, hleft, List.countP_cons, Nat.sub_sub, Nat.add_comm]

/-- A hart that has been called is not stuck. -/
theorem Inv.exec_some (h : Inv env s) {d : Idle w} (hd : s.asked c = some d)
    (hframe : Frame frame) : ∃ s', s.exec env c frame = some s' := by
  have hc0 := (h.ready c d hd).1
  have hok := h.loc c
  unfold State.exec
  cases hc : s.loc c with
  | start | parked | poll | thread | count | activeMm | setOnline | up => exact ⟨_, rfl⟩
  | callin sp tp => exact ⟨_, if_pos hframe⟩
  | clear | kernel | waitOnline =>
    rw [hc] at hok
    exact absurd hok hc0

/-- **A hart that is called comes up**: with the table clear from the start, a hart that `__cpu_up`
has been called for has a next step in every state, and after seven of its own steps it is online,
whatever the other harts do in between; the step of hart 0 that follows ends `__cpu_up`. -/
theorem cpu_up_online (htable : ∀ c : Word w, c ≠ 0 → c.toNat < env.nrCpus → table c.toNat = 0)
    (hrun : IsRun (Step env) (.start table) run) {d : Idle w}
    (hd : (lastState (.start table) run).asked c = some d) {after : List (Act w × State w)}
    (hafter : IsRun (Step env) (lastState (.start table) run) after) :
    let s := lastState (lastState (.start table) run) after
    (∀ frame, Frame frame → ∃ s', Step env s (.hart c frame) s') ∧
      (7 ≤ after.countP (fun e => e.1.own c) →
        s.online c = true ∧ (s.loc 0 = .waitOnline c → ∀ frame,
          s.step env (.hart 0 frame) = some (s.goto 0 .kernel))) := by
  intro s
  have hbefore : Inv env (lastState (.start table) run) :=
    (hrun.invariant (fun _ _ _ h hs => h.step hs) (Inv.start htable)).last
  have hinv : Inv env s := (hafter.invariant (fun _ _ _ h hs => h.step hs) hbefore).last
  obtain ⟨hds, hleft⟩ := hbefore.run_left hd hafter
  refine ⟨fun frame hframe => hinv.exec_some hds hframe, fun hcount => ?_⟩
  · change (s.loc c).left = _ at hleft
    have hle := left_le ((lastState (.start table) run).loc c)
    have hzero : (s.loc c).left = 0 := by omega
    have hon : s.online c = true := (hinv.online c).mpr (.inr (stage_of_left hzero))
    refine ⟨hon, fun hwait frame => ?_⟩
    rw [State.step, State.exec, hwait]
    show some (s.goto 0 (if s.online c = true then .kernel else .waitOnline c)) = _
    rw [if_pos hon]

end Run

/-- Two possible harts, and one idle task for hart 1. -/
def twoHarts : Env .rv64 where
  nrCpus := 2
  task stack := if stack = 0x20000 then 0x30000 else 0
  cpu stack := if stack = 0x20000 then 1 else 0

/-- Hart 1 polls before hart 0 has cleared the table; a hart 2 is parked. -/
def bootHarts : List (Act .rv64) :=
  [.hart 1 16, .hart 1 16, .hart 2 16, .hart 0 16, .hart 0 16, .hart 0 16, .hart 0 16,
    .cpuUp 1 ⟨0x30000, 0x20000⟩]

/-- The steps of hart 1 that bring it up. -/
def comesUp : List (Act .rv64) := List.replicate 7 (.hart 1 16)

theorem cpu_up_online_comesUp :
    let s := lastState (.start fun _ => 0) (trace (State.step twoHarts) (.start fun _ => 0) bootHarts)
    let after := trace (State.step twoHarts) s comesUp
    (lastState s after).online 1 = true ∧ (lastState s after).loc 0 = .waitOnline 1 ∧
      (lastState s after).loc 2 = .parked := by
  have hrun : IsRun (Step twoHarts) (.start fun _ => 0)
      (trace (State.step twoHarts) (.start fun _ => 0) bootHarts) := isRun_trace _ _
  have hup := cpu_up_online (fun _ _ _ => rfl) hrun (c := 1) (d := ⟨0x30000, 0x20000⟩) (by decide)
    (isRun_trace _ comesUp)
  exact ⟨(hup.2 (by decide)).1, by decide, by decide⟩

end LowriscLinux.Kernel.Smpboot
