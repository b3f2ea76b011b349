import LowriscLinux.Kernel.Fstate
import LowriscLinux.Lib.Transition
import Mathlib.Logic.Function.Basic

/-!
# Protection of user memory

Model of what becomes of `SR_PUM`, with `CONFIG_RV_PUM` (`arch/riscv/Kconfig`, lines 134-142: it
prevents the kernel from inadvertently accessing memory of user space).

## What models what

* `bootStatus`: `_start` (`arch/riscv/kernel/head.S`, lines 16-25) clears `SR_FS` and sets `SR_PUM`,
  on every hart.
* `Act.enableUserAccess` and `Act.disableUserAccess`: `__enable_user_access` and
  `__disable_user_access` (`arch/riscv/include/asm/uaccess.h`, lines 13-19), which stand around each
  access to user memory, and the `csrc` and `csrs` of `arch/riscv/lib/uaccess.S` (lines 18-22 and
  49-52, and in the same places of `__clear_user` and the fixup).
* `State.trap`: the hardware's part of a trap and `SAVE_ALL`, which reads the status with
  `csrrc s1, sstatus, SR_FS` (`arch/riscv/kernel/entry.S`, lines 59-62) and so leaves `SR_PUM` as it
  is. `State.ret` writes the saved status back (lines 84-86).
* `Act.startThread`: `start_thread` (`arch/riscv/kernel/process.c`, line 56) stores
  `SR_PIE | SR_FS_INITIAL`, without `SR_PUM`.
* `State.child` and `State.copyThread`: `copy_thread` (lines 85-96). A kernel thread gets
  `SR_PS | SR_PIE`, without the bit too, and a user task the status of its parent.
* `State.switchTo`: `__switch_to` does not touch `sstatus`.

Any number of harts run any number of tasks. A task has the status in its `task_pt_regs`, once one
has been stored there, and one more for each kernel trap that it is in. An access window is open
from `__enable_user_access` to `__disable_user_access`; a handler that a trap starts is not itself
in the window that it has interrupted.

Results:
* `Inv.step`: which statuses have the bit, as long as traps come from the kernel and from outside an
  access window.
* **`pum_protected_iff`**: the bit is set in all kernel code outside an access window iff no trap of
  the run comes from user mode or from inside a window.
* `not_protected_exec`: the first trap of the first program runs the kernel without it.
-/

namespace LowriscLinux.Kernel.Pum

open Lib
open Fp (csrs csrc)

variable {w : Xlen}

/-- `SR_PUM` is set. -/
def pum (v : Word w) : Bool := v &&& srPum ≠ 0

/-! ## The bit -/

theorem pum_eq (v : Word w) : pum v = v.getLsbD 18 := by
  have h32 := le_xlen w
  have hbit := and_twoPow_eq_zero (show 18 < 8 * szreg w by omega) v
  rw [pum, srPum_eq]
  cases h : v.getLsbD 18 <;> simp_all

theorem pum_of_bit {u v : Word w} (h : u.getLsbD 18 = v.getLsbD 18) : pum u = pum v := by
  rw [pum_eq, pum_eq, h]

@[simp] theorem pum_csrStatus (v : Word w) : pum (csrStatus v) = pum v :=
  pum_of_bit (getLsbD_csrStatus (by omega) v)

@[simp] theorem pum_trapStatus (user : Bool) (v : Word w) : pum (trapStatus user v) = pum v :=
  pum_of_bit (by simp [getLsbD_trapStatus])

@[simp] theorem pum_sretStatus (v : Word w) : pum (sretStatus v) = pum v :=
  pum_of_bit (by simp [getLsbD_sretStatus])

theorem getLsbD_srPum : (srPum : Word w).getLsbD 18 = true := by cases w <;> rfl

@[simp] theorem pum_csrs_srPum (v : Word w) : pum (csrs v srPum) = true := by
  rw [csrs, pum_csrStatus, pum_eq, BitVec.getLsbD_or, getLsbD_srPum, Bool.or_true]

@[simp] theorem pum_csrc_srPum (v : Word w) : pum (csrc v srPum) = false := by
  rw [csrc, pum_csrStatus, pum_eq, BitVec.getLsbD_and, BitVec.getLsbD_not, getLsbD_srPum]
  simp

@[simp] theorem pum_csrc_srFs (v : Word w) : pum (csrc v srFs) = pum v := by
  have h32 := le_xlen w
  rw [csrc, pum_csrStatus, pum_eq, pum_eq, BitVec.getLsbD_and, BitVec.getLsbD_not, getLsbD_srFs]
  simp
  omega

/-! ## The system -/

structure Task (w : Xlen) where
  /-- `copy_thread` has made it ready to run. -/
  ready : Bool
  /-- The status in `task_pt_regs`, once it has been stored. -/
  frame : Option (Word w)
  /-- Its innermost code is between `__enable_user_access` and `__disable_user_access`. -/
  window : Bool
  /-- The code that kernel traps have interrupted, innermost first: the status that `SAVE_ALL`
  stored, and whether it was in a window. -/
  nested : List (Word w × Bool)

structure Hart (T : Type) (w : Xlen) where
  sstatus : Word w
  user : Bool
  cur : T

structure State (H T : Type) (w : Xlen) where
  hart : H → Hart T w
  task : T → Task w

namespace State

variable {H T : Type} [DecidableEq H] [DecidableEq T] (s : State H T w) (h : H)

/-- The task that runs on a hart. -/
def current : Task w := s.task (s.hart h).cur

/-- A hart and its task after a step. -/
def put (sstatus : Word w) (user : Bool) (task : Task w) : State H T w where
  hart := Function.update s.hart h { s.hart h with sstatus := sstatus, user := user }
  task := Function.update s.task (s.hart h).cur task

/-- A trap: the hardware's part and `SAVE_ALL`, with `csrrc s1, sstatus, SR_FS`. -/
def trap : State H T w :=
  let task := s.current h
  let sstatus := trapStatus (s.hart h).user (s.hart h).sstatus
  s.put h (csrc sstatus srFs) false
    (if (s.hart h).user then { task with frame := some sstatus, window := false }
    else { task with window := false, nested := (sstatus, task.window) :: task.nested })

/-- `RESTORE_ALL` and `sret`. -/
def ret (sstatus : Word w) (user : Bool) (task : Task w) : State H T w :=
  s.put h (sretStatus (csrStatus sstatus)) user task

/-- The child of the current task, as `copy_thread` leaves it; it may have `PF_KTHREAD`. -/
def child (kthread : Bool) : Task w where
  ready := true
  frame := if kthread then some (srPs ||| srPie) else (s.current h).frame
  window := false
  nested := []

def copyThread (child : T) (kthread : Bool) : State H T w :=
  { s with task := Function.update s.task child (s.child h kthread) }

/-- `__switch_to`: another task runs, under the status that is there. -/
def switchTo (next : T) : State H T w :=
  { s with hart := Function.update s.hart h { s.hart h with cur := next } }

end State

/-- What happens on a hart. -/
inductive Act (H T : Type) (w : Xlen)
  | trap (h : H)
  | enableUserAccess (h : H)
  | disableUserAccess (h : H)
  /-- The kernel changes other bits of the status. -/
  | setStatus (h : H) (sstatus : Word w)
  /-- The kernel changes other bits of the status in `task_pt_regs`. -/
  | setFrame (h : H) (sstatus : Word w)
  | startThread (h : H)
  | copyThread (h : H) (child : T) (kthread : Bool)
  | switchTo (h : H) (next : T)
  | ret (h : H)

section System

variable {H T : Type} [DecidableEq H] [DecidableEq T]

/-- Kernel code outside a window is what runs on the hart. -/
def State.outside (s : State H T w) (h : H) : Prop :=
  (s.hart h).user = false ∧ (s.current h).window = false

/-- The steps, as a relation: which are possible, and what they lead to. -/
def Step (s : State H T w) : Act H T w → State H T w → Prop
  | .trap h, s' => s' = s.trap h
  | .enableUserAccess h, s' =>
    s.outside h ∧
      s' = s.put h (csrc (s.hart h).sstatus srPum) false { s.current h with window := true }
  | .disableUserAccess h, s' =>
    (s.hart h).user = false ∧ (s.current h).window = true ∧
      s' = s.put h (csrs (s.hart h).sstatus srPum) false { s.current h with window := false }
  | .setStatus h sstatus, s' =>
    (s.hart h).user = false ∧ sstatus &&& srPum = (s.hart h).sstatus &&& srPum ∧
      s' = s.put h (csrStatus sstatus) false (s.current h)
  | .setFrame h sstatus, s' =>
    (s.hart h).user = false ∧ ∃ old, (s.current h).frame = some old ∧
      sstatus &&& (srPum ||| srPs) = old &&& (srPum ||| srPs) ∧
      s' = s.put h (s.hart h).sstatus false { s.current h with frame := some sstatus }
  | .startThread h, s' =>
    s.outside h ∧
      s' = s.put h (s.hart h).sstatus false
        { s.current h with frame := some (srPie ||| srFsInitial) }
  | .copyThread h child kthread, s' =>
    s.outside h ∧ (s.task child).ready = false ∧ s' = s.copyThread h child kthread
  | .switchTo h next, s' =>
    s.outside h ∧ (s.task next).ready = true ∧ (∀ h', (s.hart h').cur ≠ next) ∧
      s' = s.switchTo h next
  | .ret h, s' =>
    s.outside h ∧
      match (s.current h).nested with
      | (sstatus, window) :: rest =>
        s' = s.ret h sstatus false { s.current h with window := window, nested := rest }
      | [] =>
        ∃ sstatus, (s.current h).frame = some sstatus ∧ sstatus &&& srPs = 0 ∧
          s' = s.ret h sstatus true (s.current h)

/-- The status that `_start` leaves. -/
def bootStatus (sstatus : Word w) : Word w := csrs (csrc sstatus srFs) srPum

/-- The harts have gone through `_start`, and each is in its idle task. -/
structure Boot (s : State H T w) : Prop where
  sstatus : ∀ h, ∃ reset, (s.hart h).sstatus = bootStatus reset
  kernel : ∀ h, (s.hart h).user = false
  alone : ∀ h h', (s.hart h).cur = (s.hart h').cur → h = h'
  ready : ∀ h, (s.current h).ready = true
  fresh : ∀ t, (s.task t).frame = none ∧ (s.task t).window = false ∧ (s.task t).nested = []

/-- **User memory is protected**: on every hart, in kernel code at a trap level that is not itself
in an access window. -/
def Protected (s : State H T w) : Prop :=
  ∀ h, s.outside h → pum (s.hart h).sstatus = true

/-- A trap comes from kernel code outside a window. -/
def TrapsOutside (s : State H T w) : Act H T w → Prop
  | .trap h => s.outside h
  | _ => True

/-- What the bit says, before a trap has come from elsewhere: no user mode status has it, and
kernel code has it outside windows. -/
structure Inv (s : State H T w) : Prop where
  frame : ∀ t v, (s.task t).frame = some v → pum v = false
  nested : ∀ t, ∀ e ∈ (s.task t).nested, pum e.1 = !e.2
  kernel : ∀ h, (s.hart h).user = false → pum (s.hart h).sstatus = !(s.current h).window
  user : ∀ h, (s.hart h).user = true → pum (s.hart h).sstatus = false
  waiting : ∀ t, (s.task t).ready = true → (∀ h, (s.hart h).cur ≠ t) → (s.task t).window = false
  alone : ∀ h h', (s.hart h).cur = (s.hart h').cur → h = h'
  ready : ∀ h, (s.current h).ready = true

omit [DecidableEq H] [DecidableEq T] in
theorem Boot.inv {s : State H T w} (hb : Boot s) : Inv s where
  frame t v hv := by
    rw [(hb.fresh t).1] at hv
    cases hv
  nested t e he := by
    rw [(hb.fresh t).2.2] at he
    cases he
  kernel h _ := by
    obtain ⟨reset, hr⟩ := hb.sstatus h
    rw [hr, bootStatus, pum_csrs_srPum, State.current, (hb.fresh _).2.1]
    rfl
  user h hu := by
    rw [hb.kernel h] at hu
    cases hu
  waiting t _ _ := (hb.fresh t).2.1
  alone := hb.alone
  ready := hb.ready

variable {s s' : State H T w} {a : Act H T w}

omit [DecidableEq H] [DecidableEq T] in
theorem Inv.protected (hi : Inv s) : Protected s := by
  rintro h ⟨hu, hw⟩
  rw [hi.kernel h hu, hw]
  rfl

/-- A step on one hart, with its task. -/
theorem Inv.put (hi : Inv s) {h : H} {v : Word w} {user : Bool} {task : Task w}
    (hready : task.ready = (s.current h).ready)
    (hframe : ∀ v, task.frame = some v → pum v = false)
    (hnested : ∀ e ∈ task.nested, pum e.1 = !e.2)
    (hkernel : user = false → pum v = !task.window)
    (huser : user = true → pum v = false) : Inv (s.put h v user task) := by
  have hcur : ∀ h', ((s.put h v user task).hart h').cur = (s.hart h').cur := by
    intro h'
    by_cases hh : h' = h
    · subst hh
      simp [State.put]
    · simp [State.put, hh]
  have htask : (s.put h v user task).task (s.hart h).cur = task := Function.update_self ..
  have hother : ∀ t, t ≠ (s.hart h).cur → (s.put h v user task).task t = s.task t :=
    fun t ht => Function.update_of_ne ht _ _
  have hself : (s.put h v user task).current h = task := by
    rw [State.current, hcur, htask]
  have hcurrent : ∀ h', h' ≠ h → (s.put h v user task).current h' = s.current h' := by
    intro h' hh
    rw [State.current, hcur, hother _ fun heq => hh (hi.alone _ _ heq)]
    rfl
  have hhart : (s.put h v user task).hart h = { s.hart h with sstatus := v, user := user } :=
    Function.update_self ..
  have hhart' : ∀ h', h' ≠ h → (s.put h v user task).hart h' = s.hart h' :=
    fun h' hh => Function.update_of_ne hh _ _
  constructor
  case frame =>
    intro t
    by_cases ht : t = (s.hart h).cur
    · rw [ht, htask]
      exact hframe
    · rw [hother t ht]
      exact hi.frame t
  case nested =>
    intro t
    by_cases ht : t = (s.hart h).cur
    · rw [ht, htask]
      exact hnested
    · rw [hother t ht]
      exact hi.nested t
  case kernel =>
    intro h'
    by_cases hh : h' = h
    · rw [hh, hself, hhart]
      exact hkernel
    · rw [hcurrent h' hh, hhart' h' hh]
      exact hi.kernel h'
  case user =>
    intro h'
    by_cases hh : h' = h
    · rw [hh, hhart]
      exact huser
    · rw [hhart' h' hh]
      exact hi.user h'
  case waiting =>
    intro t hrdy haway
    have ht : t ≠ (s.hart h).cur := fun heq => haway h ((hcur h).trans heq.symm)
    rw [hother t ht] at hrdy ⊢
    exact hi.waiting t hrdy fun h' => hcur h' ▸ haway h'
  case alone =>
    intro h₁ h₂ heq
    rw [hcur, hcur] at heq
    exact hi.alone h₁ h₂ heq
  case ready =>
    intro h'
    by_cases hh : h' = h
    · rw [hh, hself, hready]
      exact hi.ready h
    · rw [hcurrent h' hh]
      exact hi.ready h'

/-- A trap from kernel code outside a window. -/
theorem Inv.trap (hi : Inv s) {h : H} (ho : s.outside h) : Inv (s.trap h) := by
  obtain ⟨hu, hw⟩ := ho
  have hpum := hi.kernel h hu
  simp only [State.trap, hu, Bool.false_eq_true, if_false]
  refine hi.put rfl (hi.frame _) ?_ ?_ (by simp)
  · rintro e he
    rcases List.mem_cons.mp he with rfl | he
    · rw [pum_trapStatus]
      exact hpum
    · exact hi.nested _ e he
  · intro _
    rw [pum_csrc_srFs, pum_trapStatus, hpum, hw]

omit [DecidableEq H] in
theorem Inv.copyThread (hi : Inv s) {h : H} {child : T} (hc : (s.task child).ready = false)
    (kthread : Bool) :
    Inv (s.copyThread h child kthread) := by
  set s' := s.copyThread h child kthread
  have htask : s'.task child = s.child h kthread := Function.update_self ..
  have hother : ∀ t, t ≠ child → s'.task t = s.task t := fun t ht => Function.update_of_ne ht _ _
  have hcurrent : ∀ h', s'.current h' = s.current h' := by
    intro h'
    refine hother _ fun heq => ?_
    have hrdy := hi.ready h'
    change (s.hart h').cur = child at heq
    rw [State.current, heq, hc] at hrdy
    cases hrdy
  constructor
  case frame =>
    intro t v
    by_cases ht : t = child
    · rw [ht, htask]
      unfold State.child
      dsimp only
      split
      · rintro ⟨⟩
        cases w <;> decide
      · exact hi.frame _ v
    · rw [hother t ht]
      exact hi.frame t v
  case nested =>
    intro t
    by_cases ht : t = child
    · rw [ht, htask]
      simp [State.child]
    · rw [hother t ht]
      exact hi.nested t
  case kernel =>
    intro h'
    rw [hcurrent h']
    exact hi.kernel h'
  case user => exact hi.user
  case waiting =>
    intro t hrdy haway
    by_cases ht : t = child
    · rw [ht, htask]
      rfl
    · rw [hother t ht] at hrdy ⊢
      exact hi.waiting t hrdy haway
  case alone => exact hi.alone
  case ready =>
    intro h'
    rw [hcurrent h']
    exact hi.ready h'

omit [DecidableEq T] in
/-- A switch: the status stays, and neither task is in a window. -/
theorem Inv.switchTo (hi : Inv s) {h : H} {next : T} (ho : s.outside h)
    (hready : (s.task next).ready = true) (hfree : ∀ h', (s.hart h').cur ≠ next) :
    Inv (s.switchTo h next) := by
  set s' := s.switchTo h next
  have hhart : s'.hart h = { s.hart h with cur := next } := Function.update_self ..
  have hother : ∀ h', h' ≠ h → s'.hart h' = s.hart h' := fun h' hh => Function.update_of_ne hh _ _
  have hself : s'.current h = s.task next := by
    rw [State.current, hhart]
    rfl
  have hcurrent : ∀ h', h' ≠ h → s'.current h' = s.current h' := by
    intro h' hh
    rw [State.current, hother h' hh]
    rfl
  have hnext := hi.waiting next hready hfree
  constructor
  case frame => exact hi.frame
  case nested => exact hi.nested
  case kernel =>
    intro h'
    by_cases hh : h' = h
    · have hkernel := hi.kernel h
      rw [ho.2] at hkernel
      rw [hh, hself, hhart, hnext]
      exact hkernel
    · rw [hcurrent h' hh, hother h' hh]
      exact hi.kernel h'
  case user =>
    intro h'
    by_cases hh : h' = h
    · rw [hh, hhart]
      exact hi.user h
    · rw [hother h' hh]
      exact hi.user h'
  case waiting =>
    intro t hrdy haway
    by_cases ht : t = (s.hart h).cur
    · rw [ht]
      exact ho.2
    · refine hi.waiting t hrdy fun h' => ?_
      by_cases hh : h' = h
      · rw [hh]
        exact Ne.symm ht
      · rw [← hother h' hh]
        exact haway h'
  case alone =>
    intro h₁ h₂ heq
    by_cases hh₁ : h₁ = h <;> by_cases hh₂ : h₂ = h
    · rw [hh₁, hh₂]
    · rw [hh₁, hhart, hother h₂ hh₂] at heq
      exact absurd heq.symm (hfree h₂)
    · rw [hh₂, hhart, hother h₁ hh₁] at heq
      exact absurd heq (hfree h₁)
    · rw [hother h₁ hh₁, hother h₂ hh₂] at heq
      exact hi.alone h₁ h₂ heq
  case ready =>
    intro h'
    by_cases hh : h' = h
    · rw [hh, hself]
      exact hready
    · rw [hcurrent h' hh]
      exact hi.ready h'

omit [DecidableEq H] [DecidableEq T] in
/-- A word with the same bits under a mask has the same `SR_PUM`, when that is one of them. -/
theorem pum_of_mask {u v mask : Word w} (h : u &&& mask = v &&& mask)
    (hmask : mask.getLsbD 18 = true) : pum u = pum v := by
  have hbit := congrArg (fun x => BitVec.getLsbD x 18) h
  simp only [BitVec.getLsbD_and, hmask, Bool.and_true] at hbit
  exact pum_of_bit hbit

/-- **The invariant is kept** by every step but a trap from user mode or from inside a window. -/
theorem Inv.step (hi : Inv s) (hgood : TrapsOutside s a) (hs : Step s a s') : Inv s' := by
  cases a with
  | trap h =>
    cases hs
    exact hi.trap hgood
  | enableUserAccess h =>
    obtain ⟨-, rfl⟩ := hs
    exact hi.put rfl (hi.frame _) (hi.nested _) (fun _ => pum_csrc_srPum _) (by simp)
  | disableUserAccess h =>
    obtain ⟨-, -, rfl⟩ := hs
    exact hi.put rfl (hi.frame _) (hi.nested _) (fun _ => pum_csrs_srPum _) (by simp)
  | setStatus h v =>
    obtain ⟨hu, hv, rfl⟩ := hs
    refine hi.put rfl (hi.frame _) (hi.nested _) (fun _ => ?_) (by simp)
    rw [pum_csrStatus, pum_of_mask hv getLsbD_srPum]
    exact hi.kernel h hu
  | setFrame h v =>
    obtain ⟨hu, old, hold, hv, rfl⟩ := hs
    refine hi.put rfl ?_ (hi.nested _) (fun _ => hi.kernel h hu) (by simp)
    rintro _ ⟨⟩
    rw [pum_of_mask hv (by rw [BitVec.getLsbD_or, getLsbD_srPum, Bool.true_or])]
    exact hi.frame _ old hold
  | startThread h =>
    obtain ⟨ho, rfl⟩ := hs
    refine hi.put rfl ?_ (hi.nested _) (fun _ => hi.kernel h ho.1) (by simp)
    rintro _ ⟨⟩
    cases w <;> decide
  | copyThread h child kthread =>
    obtain ⟨-, hc, rfl⟩ := hs
    exact hi.copyThread hc kthread
  | switchTo h next =>
    obtain ⟨ho, hready, hfree, rfl⟩ := hs
    exact hi.switchTo ho hready hfree
  | ret h =>
    obtain ⟨ho, hs⟩ := hs
    have hnested := hi.nested (s.hart h).cur
    split at hs
    · next v window rest hn =>
      subst hs
      change (s.task (s.hart h).cur).nested = _ at hn
      rw [hn] at hnested
      refine hi.put rfl (hi.frame _) (fun e he => hnested e (by simp [he])) (fun _ => ?_) (by simp)
      rw [pum_sretStatus, pum_csrStatus]
      exact hnested _ List.mem_cons_self
    · obtain ⟨v, hv, -, rfl⟩ := hs
      refine hi.put rfl (hi.frame _) hnested (by simp) (fun _ => ?_)
      rw [pum_sretStatus, pum_csrStatus]
      exact hi.frame _ v hv

/-- A trap from elsewhere runs the kernel without the bit. -/
theorem Inv.outside_of_trap (hi : Inv s) {h : H} (hp : Protected (s.trap h)) : s.outside h := by
  have houtside : (s.trap h).outside h := by
    refine ⟨by simp [State.trap, State.put], ?_⟩
    simp only [State.trap, State.put, State.current, Function.update_self]
    split <;> rfl
  have hset := hp h houtside
  have hsame : pum ((s.trap h).hart h).sstatus = pum (s.hart h).sstatus := by
    simp [State.trap, State.put]
  rw [hsame] at hset
  cases hu : (s.hart h).user with
  | true =>
    rw [hi.user h hu] at hset
    cases hset
  | false =>
    rw [hi.kernel h hu] at hset
    exact ⟨hu, by simpa using hset⟩

/-- **Protected throughout, exactly**: from boot on, kernel code outside access windows has
`SR_PUM` in every state of a run iff no trap of the run comes from user mode or from inside a
window. -/
theorem pum_protected_iff {run : List (Act H T w × State H T w)} (hboot : Boot s)
    (hrun : IsRun Step s run) : Always Protected s run ↔ Meets TrapsOutside s run := by
  refine hrun.always_iff_meets (fun _ hi => hi.protected)
    (fun _ _ _ hi hgood hs => hi.step hgood hs) ?_ hboot.inv
  rintro s a s' hi hs hp
  cases a with
  | trap h =>
    cases hs
    exact hi.outside_of_trap hp
  | _ => trivial

end System

/-! ## A first program -/

/-- One hart in its idle task. -/
def bootState : State Unit (Fin 2) .rv64 where
  hart _ := ⟨bootStatus 0, false, 0⟩
  task t := ⟨t = 0, none, false, []⟩

/-- After the fork of a kernel thread, the switch to it and `start_thread`. -/
def execState : State Unit (Fin 2) .rv64 :=
  let s := (bootState.copyThread () 1 true).switchTo () 1
  s.put () (s.hart ()).sstatus false { s.current () with frame := some (srPie ||| srFsInitial) }

/-- In user mode. -/
def userState : State Unit (Fin 2) .rv64 :=
  execState.ret () (srPie ||| srFsInitial) true (execState.current ())

theorem boot_bootState : Boot bootState where
  sstatus _ := ⟨0, rfl⟩
  kernel _ := rfl
  alone _ _ _ := rfl
  ready _ := rfl
  fresh _ := ⟨rfl, rfl, rfl⟩

/-- A kernel trap, and an access to user memory by the handler. -/
def kernelTrap : List (Act Unit (Fin 2) .rv64 × State Unit (Fin 2) .rv64) :=
  let trapped := bootState.trap ()
  let opened := trapped.put () (csrc (trapped.hart ()).sstatus srPum) false
    { trapped.current () with window := true }
  let closed := opened.put () (csrs (opened.hart ()).sstatus srPum) false
    { opened.current () with window := false }
  [(.trap (), trapped), (.enableUserAccess (), opened), (.disableUserAccess (), closed)]

theorem isRun_kernelTrap : IsRun Step bootState kernelTrap :=
  ⟨rfl, ⟨⟨rfl, rfl⟩, rfl⟩, ⟨rfl, rfl, rfl⟩, trivial⟩

theorem pum_protected_kernelTrap :
    kernelTrap.length = 3 ∧ Always Protected bootState kernelTrap := by
  have houtside : Meets TrapsOutside bootState kernelTrap := ⟨⟨rfl, rfl⟩, trivial, trivial, trivial⟩
  exact ⟨rfl, (pum_protected_iff boot_bootState isRun_kernelTrap).mpr houtside⟩

/-- **The first trap of the first program** runs kernel code without the bit. -/
theorem not_protected_exec :
    ∃ run, Boot bootState ∧ IsRun Step bootState run ∧ ¬ Always Protected bootState run := by
  refine ⟨[(.copyThread () 1 true, bootState.copyThread () 1 true),
    (.switchTo () 1, (bootState.copyThread () 1 true).switchTo () 1), (.startThread (), execState),
    (.ret (), userState), (.trap (), userState.trap ())], boot_bootState, ?_, ?_⟩
  · refine ⟨⟨⟨rfl, rfl⟩, rfl, rfl⟩, ⟨⟨rfl, rfl⟩, rfl, by decide, rfl⟩, ⟨⟨rfl, rfl⟩, rfl⟩,
      ⟨⟨rfl, rfl⟩, srPie ||| srFsInitial, rfl, by decide, rfl⟩, rfl, trivial⟩
  · intro hall
    have hset := hall.2 (.trap (), userState.trap ()) (by simp) () ⟨rfl, rfl⟩
    revert hset
    decide

end LowriscLinux.Kernel.Pum
