import LowriscLinux.Kernel.TaskSteps

/-!
# Traps are transparent

What the invariant of `Nesting` says of every run of the system of `Trap`
(`arch/riscv/kernel/entry.S`).

* `Scratch`: `sscratch` tells programs from the kernel (lines 16-23 and 116-118): it is 0 in the
  kernel, and in a program the address that `resume_userspace` has stored (lines 205 and 206).
* `Stored`: every trap stores the interrupted registers where the code expects them, at
  `task_pt_regs(current)` or below the interrupted stack pointer, and no other frame is touched.
* `Resumed`: every return (lines 207-209) loads the registers from the frame of its trap, with
  interrupts disabled. A system call has its result in `a0` and goes on behind the `ecall` (lines
  161 and 184).
* The bookkeeping of a trap (`Level.trap`) does not change in between (`SameTraps`).
* `Start`: the state after `trap_init` on every hart, with C code in the idle tasks.

`Move` has the steps of one hart that a test takes, computed from the state: `Move.step_of_next`
says that they are steps of the system. `nestedRun` is a run of them with a new task, a trap from
user mode, a nested one, switches in both directions, and all returns.

Results:
* **`traps_transparent`**: so it is at any nesting depth, over all context switches.
* `getLsbD_resumed`: the status after the return from a trap is the one before it, but for `SR_PIE`
  and `SR_PS`.
-/

namespace LowriscLinux.Kernel.Entry

open Lib

variable {w : Xlen} {H : Type}

/-! ## The start -/

/-- After `trap_init` on every hart: C code runs in the idle tasks, and there are no others. -/
structure Start (image : Image w) (s : State H w) : Prop where
  inC : ∀ h, s.InC h image
  scratch : ∀ h, (s.hart h).cpu.csr .sscratch = 0
  current : ∀ h, (s.hart h).cpu.x .tp = (s.hart h).cur
  room : ∀ h, (s.stack h).toNat + tiSize w ≤ ((s.hart h).cpu.x .sp).toNat
  onStack : ∀ h, ((s.hart h).cpu.x .sp).toNat ≤ (s.stack h).toNat + threadSize
  live : ∀ h, s.live (s.hart h).cur = true
  running : ∀ p, s.live p = true → ∃ h, (s.hart h).cur = p
  alone : ∀ h h', (s.hart h).cur = (s.hart h').cur → h = h'
  levels : ∀ p, s.levels p = []
  stackOk : ∀ p, s.live p = true → StackOk (s.task p).stack
  apart : ∀ p q, s.live p = true → s.live q = true → (s.task p).stack = (s.task q).stack → p = q
  info : ∀ p, s.live p = true → loadWord (szreg w) s.mem (s.task p).stack = p

variable {image : Image w} {s s' : State H w}

theorem Start.inv (hs : Start image s) : Inv image s := by
  constructor
  case stackOk => exact hs.stackOk
  case apart => exact hs.apart
  case info => exact hs.info
  case chain =>
    intro p _
    rw [hs.levels]
    trivial
  case live => exact hs.live
  case user =>
    intro h hu
    rw [(hs.inC h).1] at hu
    cases hu
  case kernel =>
    intro h _
    rw [hs.levels]
    refine ⟨hs.scratch h, Or.inr ⟨(hs.inC h).2, hs.current h, hs.room h, hs.onStack h, ?_⟩⟩
    rintro l ⟨⟩
  case parked =>
    intro p hp haway
    obtain ⟨h, hcur⟩ := hs.running p hp
    exact absurd hcur (haway h)
  case alone => exact hs.alone

/-! ## What a run does -/

/-- `sscratch` is 0 in the kernel, and in a program the address behind `task_pt_regs(current)`.
C code finds `current` in `tp`. -/
def Scratch (image : Image w) (s : State H w) : Prop :=
  ∀ h, (s.hart h).cpu.csr .sscratch
      = (if (s.hart h).user then taskPtRegs (s.stack h) + BitVec.ofNat _ (ptSize w) else 0) ∧
    (s.InC h image → (s.hart h).cpu.x .tp = (s.hart h).cur)

/-- What a trap is known by: its frame, the interrupted registers and where it came from. -/
def Level.trap (l : Level w) : Word w × PtRegs w × Bool := (l.base, l.saved, l.user)

/-- A task is in the same traps in two states. -/
def SameTraps (s s' : State H w) (p : Word w) : Prop :=
  (s'.levels p).map Level.trap = (s.levels p).map Level.trap

/-- A trap has stored the interrupted registers, at `task_pt_regs(current)` or below the interrupted
stack pointer, and has left the frames of all other traps alone. -/
def Stored (s : State H w) (h : H) (scause sbadaddr : Word w) (s' : State H w) : Prop :=
  ∃ l, s'.levels (s.hart h).cur = l :: s.levels (s.hart h).cur ∧
    l.saved = s.interrupted h scause sbadaddr ∧ l.user = (s.hart h).user ∧ l.wrote = false ∧
    frameAt s'.mem l.base = l.saved ∧
    (l.user = true → l.base = taskPtRegs (s.stack h)) ∧
    (l.user = false → l.base.toNat + ptSize w = ((s.hart h).cpu.x .sp).toNat) ∧
    ∀ p, s.live p = true → ∀ l' ∈ s.levels p, frameAt s'.mem l'.base = frameAt s.mem l'.base

/-- A return has loaded the registers from the frame of the innermost trap, with interrupts
disabled before `sret`. If C code has left the frame alone, it holds the interrupted registers,
but for the result of a system call and the address behind it. -/
def Resumed (s : State H w) (h : H) (s' : State H w) : Prop :=
  ∃ l, s.levels (s.hart h).cur = l :: s'.levels (s.hart h).cur ∧
    (s'.hart h).user = l.user ∧ s'.mem = s.mem ∧
    (let regs := frameAt s.mem l.base
    (s'.hart h).cpu.x = regs.x ∧ (s'.hart h).pc = regs.sepc ∧
      (s'.hart h).cpu.csr .sstatus = sretStatus (csrStatus regs.sstatus) ∧
      (s.hart h).cpu.csr .sstatus &&& srIe = 0 ∧ regs.sstatus &&& srIe = 0 ∧
      (l.wrote = false →
        if l.saved.scause = excSyscall then ∃ ret, regs = syscall l.saved ret
        else regs = l.saved))

/-- What a line does to the traps that tasks are in. -/
def LineTransparent (s : State H w) (h : H) (s' : State H w) : Line w → Prop
  | .exit _ => Resumed s h s' ∧ ∀ p, p ≠ (s.hart h).cur → SameTraps s s' p
  | _ => ∀ p, SameTraps s s' p

/-- What each step does to the traps that tasks are in. -/
def Transparent (image : Image w) (s : State H w) : Act H w → State H w → Prop
  | .trap h scause sbadaddr, s' =>
    Stored s h scause sbadaddr s' ∧ ∀ p, p ≠ (s.hart h).cur → SameTraps s s' p
  | .line h, s' => ∀ (i : Nat) (ln : Line w), (s.hart h).pc = image.addr i →
    text[i]? = some ln → LineTransparent s h s' ln
  | _, s' => ∀ p, s.live p = true → SameTraps s s' p

variable {h : H} {l : Level w} {levels rest : List (Level w)}

theorem Inv.scratch (hi : Inv image s) : Scratch image s := by
  intro h
  refine ⟨?_, fun hc => (hi.inC hc).2.1⟩
  cases hu : (s.hart h).user with
  | true =>
    rw [(hi.user h hu).1, if_pos rfl, taskPtRegs, BitVec.add_assoc, BitVec.add_comm (-_),
      ← BitVec.sub_eq_add_neg, BitVec.sub_self, BitVec.add_zero]
  | false => exact (hi.kernel h hu).1

section Steps

variable [DecidableEq H]

theorem State.put_levels {m : Machine w} {pc p : Word w} {user : Bool}
    (hp : p ≠ (s.hart h).cur) : SameTraps s (s.put h m pc user levels) p :=
  congrArg (List.map Level.trap) (Function.update_of_ne hp _ _)

/-- A trap. -/
theorem Inv.stored (hi : Inv image s) {scause sbadaddr : Word w}
    (hroom : (s.hart h).user = false →
      (s.stack h).toNat + tiSize w + ptSize w ≤ ((s.hart h).cpu.x .sp).toNat) :
    Stored s h scause sbadaddr (s.trap h image scause sbadaddr) := by
  have ht := hi.trapped scause sbadaddr hroom
  have hok : StackOk (s.stack h) := hi.stackOk _ (hi.live h)
  have hchain : Chain image (s.hart h).cur (s.stack h) s.mem (s.levels (s.hart h).cur) :=
    hi.chain _ (hi.live h)
  obtain ⟨hothers, -⟩ := hi.others_of_frame ht.room
    (Nat.le_trans ht.below hchain.limit_le) ht.agree ht.task
  refine ⟨s.pushed h scause sbadaddr _, Function.update_self .., rfl, rfl, rfl, ht.frame, ht.user,
    ht.kernel, fun p hp => ?_⟩
  by_cases hpc : p = (s.hart h).cur
  · rw [hpc]
    exact hchain.sameFrames hok ht.below (ht.agree _ _ (Or.inr (Nat.le_refl _)))
  · exact (hothers.spared p hp hpc).frames

/-- A return. -/
theorem Here.resumed {i : Nat} {m : Machine w} (hh : Here image s h i l rest)
    (hlevels : s.levels (s.hart h).cur = l :: rest) (hr : Returned s h l m) :
    Resumed s h (s.sret h m rest) := by
  have hhart : (s.sret h m rest).hart h = { s.hart h with
      cpu := { m.cpu with
        csr := Function.update m.cpu.csr .sstatus (sretStatus (m.csr .sstatus)) }
      pc := m.csr .sepc
      user := m.csr .sstatus &&& srPs = 0 } := Function.update_self ..
  have hrest : (s.sret h m rest).levels (s.hart h).cur = rest := Function.update_self ..
  refine ⟨l, by rw [hrest, hlevels], ?_, hr.mem, ?_⟩
  · rw [hhart]
    show decide (m.csr .sstatus &&& srPs = 0) = l.user
    have hps : m.csr .sstatus &&& srPs = 0 ↔ l.user = true := by
      rw [hr.sstatus, and_srPs_csrStatus, hr.status]
    cases hu : l.user with
    | true => exact decide_eq_true (hps.mpr hu)
    | false => exact decide_eq_false fun h0 => Bool.noConfusion (hu.symm.trans (hps.mp h0))
  · rw [hhart]
    refine ⟨hr.x, hr.sepc, ?_, hr.irqOff, hh.level.masked, fun hw => ?_⟩
    · have hstatus : Function.update m.cpu.csr .sstatus (sretStatus (m.csr .sstatus)) .sstatus
          = sretStatus (m.csr .sstatus) := Function.update_self ..
      rw [← hr.sstatus]
      exact hstatus
    · have hdue := hh.level.due hw
      split_ifs with hcause
      · obtain ⟨ret, hret⟩ := hr.settled hw hcause
        refine ⟨ret, hdue.trans ?_⟩
        rw [Level.due, hret]
      · rw [hdue, Level.due, hh.level.fresh hcause]

theorem Level.note_trap (l : Level w) (m : Machine w) (i : Instr w) :
    (l.note m i).trap = l.trap := by
  unfold Level.note
  split_ifs <;> rfl

/-- A step on a hart that leaves the traps of its task as they are. -/
theorem State.put_sameTraps {m : Machine w} {pc : Word w} {user : Bool}
    (hl : levels.map Level.trap = (s.levels (s.hart h).cur).map Level.trap) (p : Word w) :
    SameTraps s (s.put h m pc user levels) p := by
  by_cases hp : p = (s.hart h).cur
  · have hself : (s.put h m pc user levels).levels (s.hart h).cur = levels :=
      Function.update_self ..
    rw [hp, SameTraps, hself]
    exact hl
  · exact State.put_levels hp

/-- A line. -/
theorem Inv.line_transparent (hi : Inv image s) {i : Nat} {ln : Line w}
    (hu : (s.hart h).user = false) (hpc : (s.hart h).pc = image.addr i)
    (hline : text[i]? = some ln) (hlevels : s.levels (s.hart h).cur = l :: rest)
    (hstep : LineStep s h image ln l rest s' (ln.exec image i (s.machine h))) :
    LineTransparent s h s' ln := by
  have hmap : ∀ l' : Level w, l'.trap = l.trap →
      (l' :: rest).map Level.trap = (s.levels (s.hart h).cur).map Level.trap := by
    intro l' hl'
    rw [hlevels, List.map_cons, List.map_cons, hl']
  cases ln with
  | exit is =>
    obtain rfl := hstep
    have hh := hi.here hu hpc hline hlevels
    have hr := hh.returned (hi.stackOk _ (hi.live h)) (Line.ok_of_getElem? hline)
    exact ⟨hh.resumed hlevels hr, fun p hp => State.put_levels hp⟩
  | instr ins =>
    obtain rfl := hstep
    exact State.put_sameTraps (hmap _ (l.note_trap _ _))
  | label lab =>
    obtain rfl := hstep
    exact State.put_sameTraps (hmap _ rfl)
  | bnez r lab =>
    obtain rfl := hstep
    exact State.put_sameTraps (hmap _ rfl)
  | beq r r' lab =>
    obtain rfl := hstep
    exact State.put_sameTraps (hmap _ rfl)
  | bgez r lab =>
    obtain rfl := hstep
    exact State.put_sameTraps (hmap _ rfl)
  | bgeu r r' lab =>
    obtain rfl := hstep
    exact State.put_sameTraps (hmap _ rfl)
  | j lab =>
    obtain rfl := hstep
    exact State.put_sameTraps (hmap _ rfl)
  | call f =>
    obtain ⟨-, rfl⟩ := hstep
    exact State.put_sameTraps (hmap _ rfl)
  | tail f =>
    obtain ⟨-, rfl⟩ := hstep
    exact State.put_sameTraps (hmap _ rfl)
  | jr r =>
    obtain ⟨-, rfl⟩ := hstep
    exact State.put_sameTraps (hmap _ rfl)
  | jalr r =>
    obtain ⟨-, rfl⟩ := hstep
    exact State.put_sameTraps (hmap _ rfl)

/-- The traps of a task after C code has written to one of their frames. -/
theorem map_trap_set {k : Nat} (hk : levels[k]? = some l) :
    (levels.set k { l with wrote := true }).map Level.trap = levels.map Level.trap := by
  refine List.ext_getElem? fun j => ?_
  rw [List.getElem?_map, List.getElem?_map, List.getElem?_set]
  by_cases hj : k = j
  · subst hj
    have hlt := (List.getElem?_eq_some_iff.mp hk).1
    rw [if_pos rfl, if_pos hlt, hk]
    rfl
  · rw [if_neg hj]

/-- **Every step is transparent.** -/
theorem Inv.transparent (hi : Inv image s) {a : Act H w} (h : Step image s a s') :
    Transparent image s a s' := by
  cases a with
  | trap h scause sbadaddr =>
    obtain ⟨hguard, rfl⟩ := h
    exact ⟨hi.stored fun hu => (hguard hu).2, fun p hp => State.put_levels hp⟩
  | line h =>
    obtain ⟨hu, i, ln, l, rest, hpc, hline, hlevels, hstep⟩ := h
    intro j ln' hpc' hline'
    obtain rfl := image.addr_inj i j (List.getElem?_eq_some_iff.mp hline).1
      (List.getElem?_eq_some_iff.mp hline').1 (hpc.symm.trans hpc')
    obtain rfl := Option.some.inj (hline.symm.trans hline')
    exact hi.line_transparent hu hpc hline hlevels hstep
  | user h x sstatus pc mem =>
    obtain ⟨-, -, rfl⟩ := h
    exact fun p _ => State.put_sameTraps rfl p
  | c h x sstatus pc mem task =>
    obtain ⟨-, -, -, -, -, -, rfl⟩ := h
    exact fun p _ => State.put_sameTraps rfl p
  | cRet h x sstatus =>
    obtain ⟨-, -, l, -, -, -, rfl⟩ := h
    exact fun p _ => State.put_sameTraps rfl p
  | writeFrame h p k regs mem =>
    obtain ⟨-, -, l, hk, -, -, -, rfl⟩ := h
    intro q _
    by_cases hq : q = p
    · rw [hq, SameTraps, ← map_trap_set hk]
      exact congrArg (List.map Level.trap) (Function.update_self p _ s.levels)
    · exact congrArg (List.map Level.trap) (Function.update_of_ne hq _ _)
  | switchTo h next =>
    obtain ⟨-, -, -, -, rfl⟩ := h
    exact fun _ _ => rfl
  | copyThread h c mem =>
    obtain ⟨-, hfresh, -, -, -, -, -, -, rfl⟩ := h
    intro p hp
    refine congrArg (List.map Level.trap) (Function.update_of_ne ?_ _ _)
    rintro rfl
    rw [hfresh] at hp
    cases hp
  | freeTask h p =>
    obtain ⟨-, -, rfl⟩ := h
    exact fun _ _ => rfl

/-- **Traps are transparent at any nesting depth.** In every run from the start, `sscratch` is 0 in
the kernel and the end of the task's kernel stack in programs; traps store the interrupted registers
at `task_pt_regs(current)` or below the interrupted stack pointer; and returns load what the
frame of the trap holds, which are the interrupted registers, or those after a system call, if C
code has left the frame alone. -/
theorem traps_transparent {run : List (Act H w × State H w)} (hs : Start image s)
    (hrun : IsRun (Step image) s run) :
    Always (Scratch image) s run ∧ IsRun (Transparent image) s run :=
  ⟨(hrun.invariant (fun _ _ _ hi => hi.step) hs.inv).imp fun _ hi => hi.scratch,
    hrun.imp (fun _ _ _ hi => hi.step) (fun _ _ _ hi => hi.transparent) hs.inv⟩

end Steps

section Witness

/-- The code at address 0, with each line at its number. -/
def lowImage : Image .rv64 where
  addr i := BitVec.ofNat _ i
  sym
    | .label l => BitVec.ofNat _ (l.index .rv64)
    | _ => 0x3000
  fn _ := 0x2000
  addr_inj i j hi hj h := by
    have hlen : (text : List (Line .rv64)).length < 2 ^ (8 * szreg .rv64) := by decide
    have heq := congrArg BitVec.toNat h
    rwa [BitVec.toNat_ofNat, BitVec.toNat_ofNat, Nat.mod_eq_of_lt (hi.trans hlen),
      Nat.mod_eq_of_lt (hj.trans hlen)] at heq
  sym_label _ := rfl

theorem not_inText_lowImage {pc : Word .rv64}
    (h : (text : List (Line .rv64)).length ≤ pc.toNat) : ¬lowImage.InText pc := by
  rintro ⟨i, hi, rfl⟩
  have hval : (lowImage.addr i).toNat = i % 2 ^ 64 := BitVec.toNat_ofNat ..
  have hle := Nat.mod_le i (2 ^ 64)
  omega

/-- A step of a machine with one hart, without what follows from its state. C code only moves its
stack pointer and makes a call; a program only changes its registers and goes somewhere. -/
inductive Move
  | trap (scause : Word .rv64)
  | line
  | user (x : Reg → Word .rv64) (pc : Word .rv64)
  | c (sp ra : Word .rv64)
  | cRet
  | switchTo (next : Word .rv64)

namespace Move

variable (s : State Unit .rv64)

/-- The registers of C code that has moved its stack pointer and made a call. -/
def regs (sp ra : Word .rv64) : Reg → Word .rv64
  | .sp => sp
  | .ra => ra
  | r => (s.hart ()).cpu.x r

/-- The step of the system. -/
def act : Move → Act Unit .rv64
  | trap scause => .trap () scause 0
  | line => .line ()
  | user x pc => .user () x ((s.hart ()).cpu.csr .sstatus) pc s.mem
  | c sp ra => .c () (regs s sp ra) ((s.hart ()).cpu.csr .sstatus) (s.hart ()).pc s.mem s.task
  | cRet => .cRet () (s.hart ()).cpu.x ((s.hart ()).cpu.csr .sstatus)
  | switchTo next => .switchTo () next

/-- The state after a line of the trap code that has left the machine `m`. -/
def lineNext (ln : Line .rv64) (l : Level .rv64) (rest : List (Level .rv64))
    (m : Machine .rv64) : Next .rv64 → Option (State Unit .rv64)
  | .line j =>
    let l' := match ln with
      | .instr ins => l.note (s.machine ()) ins
      | _ => l
    some (s.put () m (lowImage.addr j) false (l' :: rest))
  | .c pc ret =>
    if (text : List (Line .rv64)).length ≤ pc.toNat then
      some (s.put () m pc false ({ l with ret := ret } :: rest))
    else none
  | .sret => some (s.sret () m rest)

/-- C code runs, at an address behind the trap code. -/
def inC : Bool :=
  !(s.hart ()).user && decide ((text : List (Line .rv64)).length ≤ (s.hart ()).pc.toNat)

/-- The state after a step, where it can be taken. -/
def next : Move → Option (State Unit .rv64)
  | trap scause =>
    if (s.hart ()).user = false → scause ≠ excSyscall ∧
        (s.stack ()).toNat + tiSize .rv64 + ptSize .rv64 ≤ ((s.hart ()).cpu.x .sp).toNat then
      some (s.trap () lowImage scause 0)
    else none
  | line =>
    let i := (s.hart ()).pc.toNat
    match (s.hart ()).user, (text : List (Line .rv64))[i]?, s.levels (s.hart ()).cur with
    | false, some ln, l :: rest => 
      let (m, next) := ln.exec lowImage i (s.machine ())
      lineNext s ln l rest m next
    | _, _, _ => none
  | user x pc =>
    if (s.hart ()).user then
      some (s.run () x ((s.hart ()).cpu.csr .sstatus) pc s.mem s.task)
    else none
  | c sp ra =>
    if inC s ∧ (s.stack ()).toNat + tiSize .rv64 ≤ sp.toNat ∧
        sp.toNat ≤ limit (s.stack ()) (s.levels (s.hart ()).cur) then
      some (s.run () (regs s sp ra) ((s.hart ()).cpu.csr .sstatus) (s.hart ()).pc s.mem s.task)
    else none
  | cRet =>
    match s.levels (s.hart ()).cur with
    | l :: _ =>
      if inC s ∧ (s.hart ()).cpu.x .sp = l.base ∧
          (l.user → (frameAt s.mem l.base).sstatus &&& srPs = 0) then
        some (s.run () (s.hart ()).cpu.x ((s.hart ()).cpu.csr .sstatus) l.ret s.mem s.task)
      else none
    | [] => none
  | switchTo next =>
    if inC s ∧ (text : List (Line .rv64)).length ≤ ((s.hart ()).cpu.x .ra).toNat ∧
        s.live next ∧ (s.hart ()).cur ≠ next then
      some (s.switch () lowImage next)
    else none

/-- The run that takes the given steps, as far as they can be taken. -/
def run : State Unit .rv64 → List Move → List (Act Unit .rv64 × State Unit .rv64)
  | _, [] => []
  | s, m :: ms =>
    match m.next s with
    | some s' => (m.act s, s') :: run s' ms
    | none => []

variable {s} {s' : State Unit .rv64}

theorem inC_of_inC (h : inC s = true) : s.InC () lowImage := by
  unfold inC at h
  rw [Bool.and_eq_true, Bool.not_eq_true', decide_eq_true_eq] at h
  exact ⟨h.1, not_inText_lowImage h.2⟩

theorem lineStep_of_lineNext {ln : Line .rv64} {l : Level .rv64} {rest : List (Level .rv64)}
    {m : Machine .rv64} {next : Next .rv64} (h : lineNext s ln l rest m next = some s') :
    LineStep s () lowImage ln l rest s' (m, next) := by
  cases next with
  | line j => cases ln <;> exact (Option.some.inj h).symm
  | c pc ret =>
    simp only [lineNext] at h
    split_ifs at h with hpc
    exact ⟨not_inText_lowImage hpc, (Option.some.inj h).symm⟩
  | sret => exact (Option.some.inj h).symm

/-- The steps are steps of the system. -/
theorem step_of_next (m : Move) (h : m.next s = some s') : Step lowImage s (m.act s) s' := by
  cases m with
  | trap scause =>
    simp only [next] at h
    split at h
    case isTrue hroom => exact ⟨hroom, (Option.some.inj h).symm⟩
    case isFalse => cases h
  | line =>
    simp only [next] at h
    split at h
    case h_1 ln l rest hu hline hlevels =>
      have hpc : (s.hart ()).pc = lowImage.addr (s.hart ()).pc.toNat :=
        BitVec.eq_of_toNat_eq (Nat.mod_eq_of_lt (s.hart ()).pc.isLt).symm
      exact ⟨hu, _, ln, l, rest, hpc, hline, hlevels,
        lineStep_of_lineNext h⟩
    case h_2 => exact absurd h (by simp)
  | user x pc =>
    simp only [next] at h
    split_ifs at h with hu
    exact ⟨hu, s.kept_refl, (Option.some.inj h).symm⟩
  | c sp ra =>
    simp only [next] at h
    split_ifs at h with hc
    obtain ⟨hin, hroom, hle⟩ := hc
    exact ⟨inC_of_inC hin, (inC_of_inC hin).2, rfl, hroom, hle, s.kept_refl,
      (Option.some.inj h).symm⟩
  | cRet =>
    simp only [next] at h
    split at h
    case h_1 l rest hlevels =>
      split_ifs at h with hc
      obtain ⟨hin, hsp, huser⟩ := hc
      exact ⟨inC_of_inC hin, rfl, l, by rw [hlevels]; rfl, hsp, fun _ => huser,
        (Option.some.inj h).symm⟩
    case h_2 => exact absurd h (by simp)
  | switchTo next =>
    simp only [Move.next] at h
    split_ifs at h with hc
    obtain ⟨hin, hra, hlive, hne⟩ := hc
    exact ⟨inC_of_inC hin, not_inText_lowImage hra, hlive, fun _ => hne,
      (Option.some.inj h).symm⟩

theorem isRun_run (ms : List Move) : IsRun (Step lowImage) s (run s ms) := by
  induction ms generalizing s with
  | nil => trivial
  | cons m ms ih =>
    rw [run]
    cases h : m.next s with
    | none => trivial
    | some s' => exact ⟨m.step_of_next h, ih⟩

end Move

/-- One hart in its idle task. -/
def idle : State Unit .rv64 where
  hart _ := ⟨⟨fun | .sp => 0xa000 | .tp => 0x5000 | _ => 7, fun _ => 0⟩, 0x2000, false, 0x5000⟩
  mem a := if a = 0x8001 then 0x50 else 0
  task _ := ⟨0x8000, 0, 0, fun _ => 0⟩
  live p := p = 0x5000
  levels _ := []

/-- A child for a program: the task 0x5800, with its stack at 0xc000. -/
def fork : Clone .rv64 := ⟨false, 0x7000, 0, false, 0x5800, 0xc000⟩

/-- Memory with the child's `thread_info.task`, and with `sp` in its frame. -/
def forkMem : Memory (8 * szreg .rv64) := fun a =>
  if a = 0xc001 then 0x58 else if a = 0xdef9 then 0x70 else idle.mem a

def forkRegs : PtRegs .rv64 := fork.regs (frameAt idle.mem (taskPtRegs (idle.stack ()))) 7

/-- The idle task has made the child. -/
def cloned : State Unit .rv64 := idle.clone lowImage fork forkRegs forkMem

/-- The registers of the child's program when it is interrupted. -/
def childX : Reg → Word .rv64
  | .sp => 0x7000
  | .ra => 0x400100
  | .a0 => 1
  | _ => 2

def lines (n : Nat) : List Move := List.replicate n .line

/-- The child goes to user mode and is interrupted. The handler is interrupted, gives the hart to
the idle task and gets it back, and the child goes on. -/
def moves : List Move :=
  [.c 0x9e00 0x2100, .switchTo 0x5800] ++ lines 3 ++ [.cRet] ++ lines 12 ++
  [.user childX 0x400000, .trap 0x8000000000000005] ++ lines 10 ++
  [.c 0xde00 0x2200, .trap 0x8000000000000005] ++ lines 10 ++ [.cRet] ++ lines 7 ++
  [.switchTo 0x5000, .switchTo 0x5800, .c 0xdee8 0x2200, .cRet] ++ lines 12

def nestedRun : List (Act Unit .rv64 × State Unit .rv64) :=
  (.copyThread () fork forkMem, cloned) :: Move.run cloned moves

theorem start_idle : Start lowImage idle := by
  constructor
  case inC => exact fun () => ⟨rfl, not_inText_lowImage (by decide)⟩
  case scratch => exact fun _ => rfl
  case current => exact fun _ => rfl
  case room => exact fun () => by decide
  case onStack => exact fun () => by decide
  case live => exact fun _ => rfl
  case running => exact fun p hp => ⟨(), (of_decide_eq_true hp).symm⟩
  case alone => exact fun _ _ _ => rfl
  case levels => exact fun _ => rfl
  case stackOk =>
    have hok : StackOk (0x8000 : Word .rv64) := ⟨by decide, by decide⟩
    exact fun _ _ => hok
  case apart => exact fun p q hp hq _ => (of_decide_eq_true hp).trans (of_decide_eq_true hq).symm
  case info =>
    intro p hp
    rw [of_decide_eq_true hp]
    decide

theorem frameAt_forkMem : frameAt forkMem (taskPtRegs fork.stack) = forkRegs := by
  refine PtRegs.ext_get fun s => ?_
  have hall : ∀ s ∈ Slot.layout,
      (frameAt forkMem (taskPtRegs fork.stack)).get s = forkRegs.get s := by decide +kernel
  exact hall s (List.mem_of_getElem? s.layout_index)

theorem step_cloned : Step lowImage idle (.copyThread () fork forkMem) cloned := by
  refine ⟨start_idle.inC (), rfl, ⟨by decide, by decide⟩, fun p _ => ?_, fun _ => ?_,
    frameAt_forkMem, by decide +kernel, fun lo hi hout a hlo hhi => ?_, rfl⟩
  · show (0x8000 : Word .rv64) ≠ 0xc000
    decide
  · have hstatus : (frameAt idle.mem (taskPtRegs (idle.stack ()))).sstatus = 0 := by decide +kernel
    rw [hstatus]
    exact ⟨by decide, by decide⟩
  · have hsize : fork.stack.toNat = 0xc000 ∧ threadSize = 0x2000 := ⟨rfl, rfl⟩
    have hne : ∀ b : Word .rv64, 0xc000 ≤ b.toNat → b.toNat < 0xe000 → a ≠ b := by
      rintro _ hb hb' rfl
      omega
    unfold forkMem
    rw [if_neg (hne _ (by decide) (by decide)), if_neg (hne _ (by decide) (by decide))]

theorem isRun_nestedRun : IsRun (Step lowImage) idle nestedRun :=
  ⟨step_cloned, Move.isRun_run moves⟩

/-- The task that runs, whether it is in user mode, and how many traps it is in. -/
def stage (s : State Unit .rv64) : Word .rv64 × Bool × Nat :=
  let cur := (s.hart ()).cur
  (cur, (s.hart ()).user, (s.levels cur).length)

theorem traps_transparent_nested :
    Start lowImage idle ∧ IsRun (Step lowImage) idle nestedRun ∧
    ((nestedRun.map fun e => stage e.2).destutter (· ≠ ·) =
      [(0x5000, false, 0), (0x5800, false, 1), (0x5800, true, 0), (0x5800, false, 1),
        (0x5800, false, 2), (0x5800, false, 1), (0x5000, false, 0), (0x5800, false, 1),
        (0x5800, true, 0)] ∧
      let hart := (lastState idle nestedRun).hart ()
      hart.pc = 0x400000 ∧
        [Reg.ra, .sp, .tp, .s0, .a0].map hart.cpu.x = [0x400100, 0x7000, 2, 2, 1]) ∧
    Always (Scratch lowImage) idle nestedRun ∧ IsRun (Transparent lowImage) idle nestedRun :=
  ⟨start_idle, isRun_nestedRun, by decide +kernel, traps_transparent start_idle isRun_nestedRun⟩

end Witness

/-- The status after the return from a trap, where the frame has been left alone. -/
theorem getLsbD_resumed (user : Bool) (v : Word w) {i : Nat} (hi : i < 31) :
    (sretStatus (csrStatus (trapStatus user v))).getLsbD i =
      if i = 8 then false else if i = 5 then true else v.getLsbD i := by
  rw [getLsbD_sretStatus]
  by_cases h8 : i = 8
  · rw [if_pos h8, if_pos h8]
  rw [if_neg h8, if_neg h8]
  by_cases h5 : i = 5
  · rw [if_pos h5, if_pos h5]
  rw [if_neg h5, if_neg h5]
  by_cases h1 : i = 1
  · rw [if_pos h1, getLsbD_csrStatus (by decide), getLsbD_trapStatus, if_neg (by decide),
      if_pos rfl, h1]
  · rw [if_neg h1, getLsbD_csrStatus hi, getLsbD_trapStatus, if_neg h8, if_neg h5, if_neg h1]

end LowriscLinux.Kernel.Entry
