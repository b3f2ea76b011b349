import LowriscLinux.Kernel.Trap
import Mathlib.Data.List.Forall2

/-!
# The invariant of the trap code

What holds of every hart and of every task in the system of `Trap`, which is that of
`arch/riscv/kernel/entry.S` with traps at any depth.

* `Chain`: the frames of the traps that a task is in lie one below the other on its stack, the
  outermost at `task_pt_regs` (`LevelOk`). Each one holds what the trap has saved, or what C code
  has made of it.
* `Ctx`: kernel code that may go on: a line of the trap code with the facts of `EntryFacts`, or C
  code on the free part of the stack, above the `thread_info` and below the innermost frame. Each
  frame but that of a program holds one, and so does the context of a task that waits (`THREAD_RA`
  and `THREAD_SP`, lines 283 and 284).
* `Pending`: a C function that runs in a trap returns to a line whose facts will hold then (lines
  129, 138, 180, 213, 221, 223, 228 and 240).
* `Inv`: all of this, with `sscratch` 0 in the kernel and the end of the stack in user mode (lines
  118, 205 and 206), and each stack beginning with the `thread_info` of its task.

A step on a hart touches the stack of its own task only; `Spared` and `Others` say what it leaves
alone of the others, and `Touched` what a write to a frame may do to a trap that is not running.

Results:
* `Inv.trap`, `Inv.line`, …: the invariant, by step of the system.
-/

namespace LowriscLinux.Kernel.Entry

open Lib

variable {w : Xlen}

section Context

variable (image : Image w) (task stack : Word w) (mem : Memory (8 * szreg w))

/-- The C function that runs in a trap returns to a line whose facts will hold. -/
def Pending (l : Level w) : Prop :=
  ∃ i < (text : List (Line w)).length, l.ret = image.addr i ∧ ∀ f ∈ factsAt i,
    f = .tpCurrent ∨ (f = .userFrame ∧ l.ret = image.sym (.label .retFromException)) ∨
      (f.lasts = true ∧ f.Holds image task stack l mem (fun _ => 0) 0)

/-- Kernel code that may run, in the traps that a task is in: a line of the trap code with its
facts, or C code on the free part of the stack. -/
def Ctx (levels : List (Level w)) (pc : Word w) (x : Reg → Word w) (sstatus : Word w) : Prop :=
  (∃ i < (text : List (Line w)).length, pc = image.addr i ∧ ∃ l rest, levels = l :: rest ∧
    x .sp = l.base ∧ ∀ f ∈ factsAt i, f.Holds image task stack l mem x sstatus) ∨
  (¬image.InText pc ∧ x .tp = task ∧ stack.toNat + tiSize w ≤ (x .sp).toNat ∧
    (x .sp).toNat ≤ limit stack levels ∧ ∀ l ∈ levels.head?, Pending image task stack mem l)

/-- A trap of a task, and those around it. -/
structure LevelOk (l : Level w) (rest : List (Level w)) : Prop where
  room : stack.toNat + tiSize w ≤ l.base.toNat
  below : l.base.toNat + ptSize w ≤ limit stack rest
  outer : l.user = true → rest = [] ∧ l.base.toNat + ptSize w = stack.toNat + threadSize
  kernel : l.user = false → (frameAt mem l.base).sstatus &&& srPs ≠ 0 ∧
    Ctx image task stack mem rest (frameAt mem l.base).sepc (frameAt mem l.base).x
      (sretStatus (csrStatus (frameAt mem l.base).sstatus))
  masked : (frameAt mem l.base).sstatus &&& srIe = 0
  call : l.saved.scause = excSyscall → l.user = true
  fresh : l.saved.scause ≠ excSyscall → l.progress = .fresh
  due : l.wrote = false → frameAt mem l.base = l.due

/-- The traps that a task is in. -/
def Chain : List (Level w) → Prop
  | [] => True
  | l :: rest => LevelOk image task stack mem l rest ∧ Chain rest

end Context

variable {image : Image w} {task stack : Word w} {mem mem' : Memory (8 * szreg w)} {l : Level w}
  {levels rest : List (Level w)}

theorem Chain.limit_le (h : Chain image task stack mem levels) :
    limit stack levels ≤ stack.toNat + threadSize := by
  induction levels with
  | nil => exact Nat.le_refl _
  | cons l rest ih =>
    have hbelow := h.1.below
    have hrest := ih h.2
    show l.base.toNat ≤ _
    omega

/-- Each frame is on the stack. -/
theorem Chain.frame (h : Chain image task stack mem levels) (hl : l ∈ levels) :
    stack.toNat + tiSize w ≤ l.base.toNat ∧
      l.base.toNat + ptSize w ≤ stack.toNat + threadSize := by
  induction levels with
  | nil => cases hl
  | cons l' rest ih =>
    rcases List.mem_cons.mp hl with rfl | hl
    · have hbelow := h.1.below
      have hrest := h.2.limit_le
      exact ⟨h.1.room, by omega⟩
    · exact ih h.2 hl

/-- The frames of the outer traps are above that of the inner one. -/
theorem Chain.above (h : Chain image task stack mem levels) (hl : l ∈ levels) :
    limit stack levels ≤ l.base.toNat := by
  induction levels with
  | nil => cases hl
  | cons l' rest ih =>
    rcases List.mem_cons.mp hl with rfl | hl
    · exact Nat.le_refl _
    · have hbelow := h.1.below
      have hrest := ih h.2 hl
      show l'.base.toNat ≤ _
      omega

/-! ## Stacks -/

theorem szreg_le_tiSize (w : Xlen) : szreg w ≤ tiSize w := by cases w <;> decide

theorem tiSize_add_ptSize_le (w : Xlen) : tiSize w + ptSize w ≤ threadSize := by
  cases w <;> decide

namespace StackOk

variable {stack' : Word w}

theorem toNat_top (h : StackOk stack) : (stackTop stack).toNat = stack.toNat + threadSize :=
  toNat_add_lt h.2

theorem toNat_taskPtRegs (h : StackOk stack) :
    (taskPtRegs stack).toNat + ptSize w = stack.toNat + threadSize := by
  have hsize := tiSize_add_ptSize_le w
  have htop := h.toNat_top
  rw [taskPtRegs, toNat_sub_ptSize (by omega), htop]
  omega

/-- Different stacks do not overlap. -/
theorem apart (h : StackOk stack) (h' : StackOk stack') (hne : stack ≠ stack') :
    stack.toNat + threadSize ≤ stack'.toNat ∨ stack'.toNat + threadSize ≤ stack.toNat := by
  have hne' : stack.toNat ≠ stack'.toNat := fun heq => hne (BitVec.eq_of_toNat_eq heq)
  rcases Nat.lt_or_gt_of_ne hne' with hlt | hlt
  · exact Or.inl (add_le_of_mod_eq (h.1.trans h'.1.symm) hlt)
  · exact Or.inr (add_le_of_mod_eq (h'.1.trans h.1.symm) hlt)

/-- The mask of an address on a stack is the stack. -/
theorem mask (h : StackOk stack) {a : Word w} (hlo : stack.toNat ≤ a.toNat)
    (hhi : a.toNat < stack.toNat + threadSize) : threadMask &&& a = stack := by
  have hmod : stack.toNat % 2 ^ 13 = 0 := h.1
  have hlt : a.toNat < stack.toNat + 2 ^ 13 := hhi
  refine BitVec.eq_of_toNat_eq ?_
  rw [BitVec.and_comm, threadMask, threadSize, toNat_and_not_mask]
  omega

end StackOk

/-- The frames of a list of traps are the same in two memories. -/
def SameFrames (mem mem' : Memory (8 * szreg w)) (levels : List (Level w)) : Prop :=
  ∀ l ∈ levels, frameAt mem' l.base = frameAt mem l.base

/-- Frames above a place are the same when memory only changes below it. -/
theorem Chain.sameFrames {base : Nat} (hs : StackOk stack)
    (h : Chain image task stack mem levels) (hle : base ≤ limit stack levels)
    (hagree : Agree mem mem' base (stack.toNat + threadSize)) : SameFrames mem mem' levels := by
  intro l hl
  have habove := h.above hl
  have hframe := h.frame hl
  have hfit := hs.2
  exact frameAt_congr (by omega) (hagree.mono (by omega) (by omega))

/-! ## Frames that C code may write to -/

/-- What may become of a trap while it is not the one that runs: nothing, or C code writes to its
frame. -/
inductive Touched (image : Image w) (mem mem' : Memory (8 * szreg w)) : Level w → Level w → Prop
  | same {l : Level w} (h : frameAt mem' l.base = frameAt mem l.base) : Touched image mem mem' l l
  | wrote {l : Level w} (h : WriteOk image l (frameAt mem l.base) (frameAt mem' l.base)) :
    Touched image mem mem' l { l with wrote := true }

namespace Touched

variable {l' : Level w}

theorem base (h : Touched image mem mem' l l') : l'.base = l.base := by cases h <;> rfl

theorem user (h : Touched image mem mem' l l') : l'.user = l.user := by cases h <;> rfl

theorem ret (h : Touched image mem mem' l l') : l'.ret = l.ret := by cases h <;> rfl

theorem fact {f : Fact} {x : Reg → Word w} {v : Word w} (h : Touched image mem mem' l l')
    (hf : f.Holds image task stack l mem x v) : f.Holds image task stack l' mem' x v := by
  cases h with
  | same h =>
    cases f
    case userFrame => exact fun hu => h ▸ hf hu
    all_goals exact hf
  | wrote h =>
    cases f
    case userFrame =>
      intro hu
      have hu' : l.user = true := hu
      rw [WriteOk, if_pos hu'] at h
      exact h.1
    case settled => exact fun hw => Bool.noConfusion hw
    all_goals exact hf

theorem pending (h : Touched image mem mem' l l') (hp : Pending image task stack mem l) :
    Pending image task stack mem' l' := by
  obtain ⟨i, hi, hret, hfacts⟩ := hp
  refine ⟨i, hi, h.ret.trans hret, fun f hf => ?_⟩
  rw [h.ret]
  exact (hfacts f hf).imp_right (Or.imp_right (And.imp_right h.fact))

end Touched

/-- The same, for the traps of a task. -/
abbrev AllTouched (image : Image w) (mem mem' : Memory (8 * szreg w)) :
    List (Level w) → List (Level w) → Prop :=
  List.Forall₂ (Touched image mem mem')

theorem SameFrames.touched (h : SameFrames mem mem' levels) :
    AllTouched image mem mem' levels levels :=
  List.forall₂_same.mpr fun l hl => .same (h l hl)

section AllTouched

variable {levels' rest' : List (Level w)} {l' : Level w}

theorem AllTouched.limit (h : AllTouched image mem mem' levels levels') :
    limit stack levels' = limit stack levels := by
  cases h with
  | nil => rfl
  | cons hl _ => exact congrArg BitVec.toNat hl.base

theorem Ctx.touched {pc v : Word w} {x : Reg → Word w} (h : Ctx image task stack mem levels pc x v)
    (ht : AllTouched image mem mem' levels levels') :
    Ctx image task stack mem' levels' pc x v := by
  rcases h with ⟨i, hi, hpc, l, rest, rfl, hsp, hfacts⟩ | ⟨hpc, htp, hroom, hle, hpending⟩
  · cases ht with
    | cons hl _ =>
      exact Or.inl ⟨i, hi, hpc, _, _, rfl, hsp.trans hl.base.symm, fun f hf => hl.fact (hfacts f hf)⟩
  · refine Or.inr ⟨hpc, htp, hroom, by rwa [ht.limit], fun l' hl' => ?_⟩
    cases ht with
    | nil => cases hl'
    | cons hl _ =>
      obtain rfl := Option.some.inj hl'
      exact hl.pending (hpending _ rfl)

/-- Context in C code, at another address. -/
theorem Ctx.moved {pc pc' v : Word w} {x : Reg → Word w}
    (h : Ctx image task stack mem levels pc x v) (hpc : ¬image.InText pc)
    (hpc' : ¬image.InText pc') : Ctx image task stack mem levels pc' x v := by
  rcases h with ⟨i, hi, heq, -⟩ | ⟨-, hc⟩
  · exact absurd ⟨i, hi, heq⟩ hpc
  · exact Or.inr ⟨hpc', hc⟩

theorem LevelOk.touched (h : LevelOk image task stack mem l rest)
    (hl : Touched image mem mem' l l') (ht : AllTouched image mem mem' rest rest') :
    LevelOk image task stack mem' l' rest' := by
  have hlimit : limit stack rest' = limit stack rest := ht.limit
  cases hl with
  | same hl =>
    refine ⟨h.room, hlimit ▸ h.below, fun hu => ?_, fun hu => ?_, hl ▸ h.masked, h.call, h.fresh,
      hl ▸ h.due⟩
    · obtain ⟨rfl, htop⟩ := h.outer hu
      cases ht
      exact ⟨rfl, htop⟩
    · rw [hl]
      exact ⟨(h.kernel hu).1, (h.kernel hu).2.touched ht⟩
  | wrote hl =>
    unfold WriteOk at hl
    refine ⟨h.room, hlimit ▸ h.below, fun hu => ?_, fun hu => ?_, ?_, h.call, h.fresh, ?_⟩
    · obtain ⟨rfl, htop⟩ := h.outer hu
      cases ht
      exact ⟨rfl, htop⟩
    · have hu' : l.user = false := hu
      rw [hu', if_neg Bool.false_ne_true] at hl
      obtain ⟨hregs, hold, hnew⟩ := hl
      have hctx := ((h.kernel hu').2.touched ht).moved hold hnew
      have hx := congrArg PtRegs.x hregs
      have hstatus := congrArg PtRegs.sstatus hregs
      simp only at hx hstatus
      show (frameAt mem' l.base).sstatus &&& srPs ≠ 0 ∧ Ctx image task stack mem' rest'
        (frameAt mem' l.base).sepc (frameAt mem' l.base).x
        (sretStatus (csrStatus (frameAt mem' l.base).sstatus))
      rw [hx, hstatus]
      exact ⟨(h.kernel hu').1, hctx⟩
    · show (frameAt mem' l.base).sstatus &&& srIe = 0
      split_ifs at hl with hu
      · exact hl.2
      · rw [congrArg PtRegs.sstatus hl.1]
        exact h.masked
    · exact fun hw => Bool.noConfusion hw

theorem Chain.touched (h : Chain image task stack mem levels)
    (ht : AllTouched image mem mem' levels levels') : Chain image task stack mem' levels' := by
  induction ht with
  | nil => trivial
  | cons hl ht ih => exact ⟨h.1.touched hl ht, ih h.2⟩

end AllTouched

/-! ## The invariant -/

section System

variable {H : Type}

structure Inv (image : Image w) (s : State H w) : Prop where
  stackOk : ∀ p, s.live p = true → StackOk (s.task p).stack
  apart : ∀ p q, s.live p = true → s.live q = true → (s.task p).stack = (s.task q).stack → p = q
  info : ∀ p, s.live p = true → loadWord (szreg w) s.mem (s.task p).stack = p
  chain : ∀ p, s.live p = true → Chain image p (s.task p).stack s.mem (s.levels p)
  live : ∀ h, s.live (s.hart h).cur = true
  user : ∀ h, (s.hart h).user = true →
    (s.hart h).cpu.csr .sscratch = stackTop (s.stack h) ∧ s.levels (s.hart h).cur = []
  kernel : ∀ h, (s.hart h).user = false → (s.hart h).cpu.csr .sscratch = 0 ∧
    Ctx image (s.hart h).cur (s.stack h) s.mem (s.levels (s.hart h).cur) (s.hart h).pc
      (s.hart h).cpu.x ((s.hart h).cpu.csr .sstatus)
  parked : ∀ p, s.live p = true → (∀ h, (s.hart h).cur ≠ p) → ∀ (x : Reg → Word w) (v : Word w),
    x .sp = (s.task p).sp → x .tp = p →
      Ctx image p (s.task p).stack s.mem (s.levels p) (s.task p).ra x v
  alone : ∀ h h', (s.hart h).cur = (s.hart h').cur → h = h'

variable {s s' : State H w} {h : H} {m : Machine w}

/-- What a step leaves alone of a task: the frames of its traps, and `thread_info.task`. -/
structure Spared (s : State H w) (mem : Memory (8 * szreg w)) (p : Word w) : Prop where
  frames : SameFrames s.mem mem (s.levels p)
  info : loadWord (szreg w) mem (s.task p).stack = p

/-- What a step on a hart leaves alone of the other tasks. -/
structure Others (s : State H w) (h : H) (m : Machine w) : Prop where
  spared : ∀ p, s.live p = true → p ≠ (s.hart h).cur → Spared s m.mem p
  stack : ∀ p, s.live p = true → (m.task p).stack = (s.task p).stack
  waiting : ∀ p, s.live p = true → (∀ h, (s.hart h).cur ≠ p) → m.task p = s.task p

/-! ## What steps leave alone -/

/-- A step that only changes memory on one stack spares the tasks on other stacks. -/
theorem Inv.spared_of_stack (hi : Inv image s) (hs : StackOk stack)
    (hagree : ∀ lo hi, hi ≤ stack.toNat ∨ stack.toNat + threadSize ≤ lo →
      Agree s.mem mem lo hi) {p : Word w} (hp : s.live p = true) (hne : (s.task p).stack ≠ stack) :
    Spared s mem p := by
  have hok := hi.stackOk p hp
  have hfit := hok.2
  have happart := hok.apart hs hne
  have hle := szreg_le_tiSize w
  have hsize := tiSize_add_ptSize_le w
  refine ⟨fun l hl => ?_, ?_⟩
  · have hframe := (hi.chain p hp).frame hl
    exact frameAt_congr (by omega) (hagree _ _ (by omega))
  · rw [loadWord_congr (by omega) (hagree _ _ (by omega))]
    exact hi.info p hp

/-- A step that leaves alone what it is not meant to change spares every task. -/
theorem Inv.spared_of_kept (hi : Inv image s) {tasks : Word w → TaskStruct w}
    (hk : s.Kept mem tasks) {p : Word w} (hp : s.live p = true) : Spared s mem p := by
  have hfit := (hi.stackOk p hp).2
  have hle := szreg_le_tiSize w
  have hsize := tiSize_add_ptSize_le w
  refine ⟨fun l hl => ?_, ?_⟩
  · have hframe := (hi.chain p hp).frame hl
    exact frameAt_congr (by omega) (hk.frames p hp l hl)
  · rw [loadWord_congr (by omega) (hk.info p hp)]
    exact hi.info p hp

theorem Inv.others_of_kept (hi : Inv image s) {cpu : Cpu w} {tasks : Word w → TaskStruct w}
    (hk : s.Kept mem tasks) : Others s h ⟨cpu, mem, tasks⟩ :=
  ⟨fun _ hp _ => hi.spared_of_kept hk hp, hk.stack, hk.waiting⟩

/-- A step that only writes to a frame on the stack of its own task leaves the other tasks alone,
and `thread_info`. -/
theorem Inv.others_of_frame (hi : Inv image s) {base : Word w}
    (hroom : (s.stack h).toNat + tiSize w ≤ base.toNat)
    (htop : base.toNat + ptSize w ≤ (s.stack h).toNat + threadSize)
    (hagree : ∀ lo hi, hi ≤ base.toNat ∨ base.toNat + ptSize w ≤ lo → Agree s.mem m.mem lo hi)
    (htask : m.task = s.task) :
    Others s h m ∧ loadWord (szreg w) m.mem (s.stack h) = (s.hart h).cur := by
  have hlive := hi.live h
  have hok : StackOk (s.stack h) := hi.stackOk _ hlive
  have hfit := hok.2
  have hle := szreg_le_tiSize w
  refine ⟨⟨fun p hp hne => ?_, fun p _ => by rw [htask], fun p _ _ => by rw [htask]⟩, ?_⟩
  · refine hi.spared_of_stack hok (fun lo hi hout => hagree lo hi (by omega)) hp fun heq => ?_
    exact hne (hi.apart p _ hp hlive heq)
  · rw [loadWord_congr (by omega) (hagree _ _ (by omega))]
    exact hi.info _ hlive

/-- The innermost trap of a task, as the trap code finds it. -/
theorem Inv.laid (hi : Inv image s) {p : Word w} (hp : s.live p = true)
    (hl : s.levels p = l :: rest) : l.Laid p (s.task p).stack s.mem := by
  have hok := hi.stackOk p hp
  have hfit := hok.2
  have hchain := hi.chain p hp
  rw [hl] at hchain
  have hframe := hchain.frame List.mem_cons_self
  have hpos : 0 < ptSize w := Nat.mul_pos (szreg_pos w) (by decide)
  exact ⟨by omega, hok.mask (by omega) (by omega), hi.info p hp, fun hu => (hchain.1.kernel hu).1⟩

/-! ## A step on one hart -/

variable [DecidableEq H]

/-- A step on one hart, with its task. -/
theorem Inv.put (hi : Inv image s) (ho : Others s h m) {pc : Word w} {user : Bool}
    (hinfo : loadWord (szreg w) m.mem (s.stack h) = (s.hart h).cur)
    (hchain : Chain image (s.hart h).cur (s.stack h) m.mem levels)
    (huser : user = true → m.csr .sscratch = stackTop (s.stack h) ∧ levels = [])
    (hkernel : user = false → m.csr .sscratch = 0 ∧
      Ctx image (s.hart h).cur (s.stack h) m.mem levels pc m.x (m.csr .sstatus)) :
    Inv image (s.put h m pc user levels) := by
  set s' := s.put h m pc user levels with hs'
  have hlive : s'.live = s.live := rfl
  have hmem : s'.mem = m.mem := rfl
  have hhart : s'.hart h = ⟨m.cpu, pc, user, (s.hart h).cur⟩ := Function.update_self ..
  have hhart' : ∀ h', h' ≠ h → s'.hart h' = s.hart h' := fun h' hh => Function.update_of_ne hh _ _
  have hcur : ∀ h', (s'.hart h').cur = (s.hart h').cur := by
    intro h'
    by_cases hh : h' = h
    · rw [hh, hhart]
    · rw [hhart' h' hh]
  have hstack : ∀ p, s.live p = true → (s'.task p).stack = (s.task p).stack := ho.stack
  have hself : s'.levels (s.hart h).cur = levels := Function.update_self ..
  have hother : ∀ p, p ≠ (s.hart h).cur → s'.levels p = s.levels p :=
    fun p hp => Function.update_of_ne hp _ _
  have hne : ∀ h', h' ≠ h → (s.hart h').cur ≠ (s.hart h).cur :=
    fun h' hh heq => hh (hi.alone _ _ heq)
  have hstackAt : ∀ h', s'.stack h' = s.stack h' := by
    intro h'
    rw [State.stack, hcur, hstack _ (hi.live h')]
    rfl
  constructor
  case stackOk =>
    intro p hp
    rw [hstack p hp]
    exact hi.stackOk p hp
  case apart =>
    intro p q hp hq heq
    rw [hstack p hp, hstack q hq] at heq
    exact hi.apart p q hp hq heq
  case info =>
    intro p hp
    rw [hmem, hstack p hp]
    by_cases hpc : p = (s.hart h).cur
    · rw [hpc]
      exact hinfo
    · exact (ho.spared p hp hpc).info
  case chain =>
    intro p hp
    rw [hmem, hstack p hp]
    by_cases hpc : p = (s.hart h).cur
    · rw [hpc, hself]
      exact hchain
    · rw [hother p hpc]
      exact (hi.chain p hp).touched (ho.spared p hp hpc).frames.touched
  case live =>
    intro h'
    rw [hcur]
    exact hi.live h'
  case user =>
    intro h' hu
    rw [hstackAt, hcur]
    by_cases hh : h' = h
    · rw [hh, hhart] at hu ⊢
      rw [hself]
      exact huser hu
    · rw [hhart' h' hh] at hu ⊢
      rw [hother _ (hne h' hh)]
      exact hi.user h' hu
  case kernel =>
    intro h' hu
    rw [hstackAt, hcur, hmem]
    by_cases hh : h' = h
    · rw [hh, hhart] at hu ⊢
      rw [hself]
      exact hkernel hu
    · rw [hhart' h' hh] at hu ⊢
      rw [hother _ (hne h' hh)]
      obtain ⟨hscratch, hctx⟩ := hi.kernel h' hu
      exact ⟨hscratch, hctx.touched (ho.spared _ (hi.live h') (hne h' hh)).frames.touched⟩
  case parked =>
    intro p hp haway x v hsp htp
    have haway' : ∀ h', (s.hart h').cur ≠ p := fun h' => hcur h' ▸ haway h'
    have htask : s'.task p = s.task p := ho.waiting p hp haway'
    rw [htask] at hsp
    rw [hmem, htask, hother p (haway' h).symm]
    have hspared := ho.spared p hp (haway' h).symm
    exact (hi.parked p hp haway' x v hsp htp).touched hspared.frames.touched
  case alone =>
    intro h₁ h₂ heq
    rw [hcur, hcur] at heq
    exact hi.alone h₁ h₂ heq

end System

end LowriscLinux.Kernel.Entry
