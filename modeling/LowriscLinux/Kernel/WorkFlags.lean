import LowriscLinux.Kernel.Transparent

/-!
# Work before the return to user mode

What `resume_userspace` (`arch/riscv/kernel/entry.S`, lines 197-206) promises: the flags of
`_TIF_WORK_MASK` are checked atomically with the return to user mode, because interrupts are
disabled (line 198). The system is that of `Trap`; in the trap code only interrupts are taken, and
only when they are enabled (`Maskable`).

* `State.flags`: `current_thread_info()->flags`, which lines 199 and 200 read.
* `Seen`: the hart has read flags of which something holds, and has executed nothing but lines of
  the trap code since. No other code of this hart can have set a flag in between.
* `Interruptible`: the status in a frame says whether interrupts were enabled where the trap was
  taken. A trap in the trap code was taken with interrupts enabled, and its return enables them
  again, so it does not lead to a line behind line 193 with interrupts disabled.
* `Came`: a hart has come to a line by the line before it. With interrupts disabled there is no
  other way to `resume_userspace` than through line 193.
* `Watched`: what a hart knows at the lines from there to the return.

Results:
* `Interruptible.step`: a trap that was taken in the trap code returns there with interrupts
  enabled.
* `Inv.lands`: so a hart comes to a line with interrupts disabled by the line before it only.
* **`work_never_missed`**: before every return to user mode the hart has found no work, and has
  executed nothing but lines of the trap code since.

Out of scope: flags that other harts set in between; they interrupt the hart.
-/

namespace LowriscLinux.Kernel.Entry

open Lib

variable {w : Xlen} {H : Type} {image : Image w} {s s' : State H w} {h : H} {l : Level w}
  {levels rest : List (Level w)} {mem mem' : Memory (8 * szreg w)}

/-- `current_thread_info()->flags`, on a hart. -/
def State.flags (s : State H w) (h : H) : Word w :=
  loadWord (szreg w) s.mem (s.stack h + BitVec.ofNat _ (tiFlags w))

/-- The hart that makes a step. -/
def Act.hart : Act H w → H
  | .trap h _ _ | .line h | .user h _ _ _ _ | .c h _ _ _ _ _ | .cRet h _ _ | .writeFrame h _ _ _ _
  | .switchTo h _ | .copyThread h _ _ | .freeTask h _ => h

/-- In the trap code only interrupts are taken, and only when they are enabled. -/
def Maskable (image : Image w) (s : State H w) : Act H w → Prop
  | .trap h _ _ => (s.hart h).user = false → image.InText (s.hart h).pc →
      (s.hart h).cpu.csr .sstatus &&& srIe ≠ 0
  | _ => True

/-- The steps of the system, with such traps only. -/
def MaskedStep [DecidableEq H] (image : Image w) (s : State H w) (a : Act H w) (s' : State H w) :
    Prop :=
  Step image s a s' ∧ Maskable image s a

/-! ## Traps in the trap code -/

/-- If a trap returns to the trap code, then with interrupts enabled. -/
def Level.Interruptible (image : Image w) (mem : Memory (8 * szreg w)) (l : Level w) : Prop :=
  l.user = false → image.InText (frameAt mem l.base).sepc →
    sretStatus (csrStatus (frameAt mem l.base).sstatus) &&& srIe ≠ 0

/-- So do all traps of all tasks. -/
def Interruptible (image : Image w) (s : State H w) : Prop :=
  ∀ p, s.live p = true → ∀ l ∈ s.levels p, l.Interruptible image s.mem

theorem Level.Interruptible.same {l' : Level w} (hl : l.Interruptible image mem)
    (huser : l'.user = l.user) (hframe : frameAt mem' l'.base = frameAt mem l.base) :
    l'.Interruptible image mem' := by
  intro hu
  rw [hframe]
  exact hl (huser ▸ hu)

theorem SameFrames.interruptible (hf : SameFrames mem mem' levels)
    (hl : ∀ l ∈ levels, l.Interruptible image mem) : ∀ l ∈ levels, l.Interruptible image mem' :=
  fun l hmem => (hl l hmem).same rfl (hf l hmem)

/-- C code that writes to the frame of a trap in the kernel does not send it to the trap code. -/
theorem AllTouched.interruptible {levels' : List (Level w)}
    (ht : AllTouched image mem mem' levels levels') (hl : ∀ l ∈ levels, l.Interruptible image mem) :
    ∀ l ∈ levels', l.Interruptible image mem' := by
  induction ht with
  | nil => exact fun _ hmem => nomatch hmem
  | @cons l l' _ _ htouched _ ih =>
    refine List.forall_mem_cons.mpr ⟨?_, ih fun l hmem => hl l (List.mem_cons_of_mem _ hmem)⟩
    cases htouched with
    | same hframe => exact (hl _ List.mem_cons_self).same rfl hframe
    | wrote hw =>
      intro hu hin
      have hu' : l.user = false := hu
      rw [WriteOk, if_neg (by rw [hu']; exact Bool.false_ne_true)] at hw
      exact absurd hin hw.2.2

section Steps

variable [DecidableEq H]

theorem Interruptible.put {m : Machine w} {pc : Word w} {user : Bool} (hirq : Interruptible image s)
    (ho : Others s h m) (hlevels : ∀ l ∈ levels, l.Interruptible image m.mem) :
    Interruptible image (s.put h m pc user levels) := by
  intro p hp
  by_cases hpc : p = (s.hart h).cur
  · have hself : (s.put h m pc user levels).levels p = levels := by
      rw [hpc]
      exact Function.update_self ..
    rw [hself]
    exact hlevels
  · have hother : (s.put h m pc user levels).levels p = s.levels p := Function.update_of_ne hpc _ _
    rw [hother]
    exact (ho.spared p hp hpc).frames.interruptible (hirq p hp)

/-- A step that leaves alone what it is not meant to change. -/
theorem Interruptible.run {x : Reg → Word w} {sstatus pc : Word w} {task : Word w → TaskStruct w}
    (hirq : Interruptible image s) (hi : Inv image s) (hk : s.Kept mem task) :
    Interruptible image (s.run h x sstatus pc mem task) :=
  hirq.put (hi.others_of_kept hk)
    ((hi.spared_of_kept hk (hi.live h)).frames.interruptible (hirq _ (hi.live h)))

/-- A step that leaves memory and the tasks as they are. -/
theorem Interruptible.still {m : Machine w} {pc : Word w} {user : Bool}
    (hirq : Interruptible image s) (hi : Inv image s) (hmem : m.mem = s.mem)
    (htask : m.task = s.task) (hlevels : ∀ l ∈ levels, l.Interruptible image s.mem) :
    Interruptible image (s.put h m pc user levels) := by
  refine hirq.put ⟨fun p hp _ => ⟨fun l _ => ?_, ?_⟩, fun p _ => ?_, fun p _ _ => ?_⟩ ?_
  · rw [hmem]
  · rw [hmem]
    exact hi.info p hp
  · rw [htask]
  · rw [htask]
  · rw [hmem]
    exact hlevels

/-- A trap that is taken in the trap code finds interrupts enabled. -/
theorem Interruptible.trap {scause sbadaddr : Word w} (hirq : Interruptible image s)
    (hi : Inv image s) (hm : Maskable image s (.trap h scause sbadaddr))
    (hroom : (s.hart h).user = false →
      (s.stack h).toNat + tiSize w + ptSize w ≤ ((s.hart h).cpu.x .sp).toNat) :
    Interruptible image (s.trap h image scause sbadaddr) := by
  have ht := hi.trapped scause sbadaddr hroom
  have hok : StackOk (s.stack h) := hi.stackOk _ (hi.live h)
  have hchain : Chain image (s.hart h).cur (s.stack h) s.mem (s.levels (s.hart h).cur) :=
    hi.chain _ (hi.live h)
  have hframes := hchain.sameFrames hok ht.below (ht.agree _ _ (Or.inr (Nat.le_refl _)))
  obtain ⟨hothers, -⟩ := hi.others_of_frame ht.room (Nat.le_trans ht.below hchain.limit_le)
    ht.agree ht.task
  refine hirq.put hothers (List.forall_mem_cons.mpr ⟨fun hu hin => ?_,
    hframes.interruptible (hirq _ (hi.live h))⟩)
  rw [ht.frame] at hin ⊢
  exact fun h0 => hm hu hin ((and_srIe_trap _ _).mp h0)

/-- The trap code only writes to the frames of system calls. -/
theorem Interruptible.instr {i : Nat} {ins : Instr w} {pc : Word w} (hirq : Interruptible image s)
    (hi : Inv image s) (hh : Here image s h i l rest)
    (hlevels : s.levels (s.hart h).cur = l :: rest) (hallowed : ins.allowed (factsAt i) = true)
    (hleaves : ins.leaves (factsAt i) (factsAt (i + 1)) = true) :
    Interruptible image (s.put h (ins.exec image.sym (s.machine h)) pc false
      (l.note (s.machine h) ins :: rest)) := by
  have hok : StackOk (s.stack h) := hi.stackOk _ (hi.live h)
  have hl := hh.level
  obtain ⟨hs, -⟩ :=
    @Instr.sound _ image _ _ l (s.machine h) ins _ _ hallowed hh.sp hh.laid hh.facts hleaves
  have hold := hirq _ (hi.live h)
  rw [hlevels] at hold
  have hrest := List.forall_mem_cons.mp hold
  have hframes := hh.chain.sameFrames hok hl.below (hs.agree _ _ (Or.inr (Nat.le_refl _)))
  obtain ⟨hothers, -⟩ := hi.others_of_frame hl.room (Nat.le_trans hl.below hh.chain.limit_le)
    hs.agree hs.task
  refine hirq.put hothers (List.forall_mem_cons.mpr ⟨?_, hframes.interruptible hrest.2⟩)
  rcases Instr.plain_or_syscall hallowed with ⟨hstore, h₁, h₂⟩ | hsys
  · have hnote : l.note (s.machine h) ins = l := by rw [Level.note, if_neg h₁, if_neg h₂]
    rw [hnote]
    refine hrest.1.same rfl ?_
    rw [(Instr.exec_plain image.sym (s.machine h) hstore).1]
    rfl
  · -- a system call comes from user mode
    intro hu
    have huser : (l.note (s.machine h) ins).user = l.user := by
      unfold Level.note
      split_ifs <;> rfl
    rw [huser, hl.call (hh.facts _ hsys)] at hu
    cases hu

/-- A line. -/
theorem Interruptible.line {i : Nat} {ln : Line w} (hirq : Interruptible image s)
    (hi : Inv image s) (hu : (s.hart h).user = false) (hpc : (s.hart h).pc = image.addr i)
    (hline : text[i]? = some ln) (hlevels : s.levels (s.hart h).cur = l :: rest)
    (hstep : LineStep s h image ln l rest s' (ln.exec image i (s.machine h))) :
    Interruptible image s' := by
  have hh := hi.here hu hpc hline hlevels
  have hok := Line.ok_of_getElem? hline
  have hold := hirq _ (hi.live h)
  rw [hlevels] at hold
  have hret : ∀ ret, ∀ l' ∈ { l with ret := ret } :: rest, l'.Interruptible image s.mem := by
    intro ret
    have hboth := List.forall_mem_cons.mp hold
    exact List.forall_mem_cons.mpr ⟨hboth.1.same rfl rfl, hboth.2⟩
  cases ln with
  | instr ins =>
    simp only [Line.ok, decide_eq_true_eq] at hok
    obtain rfl := hstep
    exact hirq.instr hi hh hlevels hok.1 hok.2
  | exit is =>
    obtain rfl := hstep
    have hr := hh.returned (hi.stackOk _ (hi.live h)) hok
    exact hirq.still hi hr.mem hr.task (List.forall_mem_cons.mp hold).2
  | label lab | bnez r lab | beq r r' lab | bgez r lab | bgeu r r' lab | j lab =>
    obtain rfl := hstep
    exact hirq.still hi rfl rfl hold
  | call f | tail f | jr r | jalr r =>
    obtain ⟨-, rfl⟩ := hstep
    exact hirq.still hi rfl rfl (hret _)

/-- **A trap that was taken in the trap code returns there with interrupts enabled.** -/
theorem Interruptible.step {a : Act H w} (hirq : Interruptible image s) (hi : Inv image s)
    (hm : Maskable image s a) (h : Step image s a s') : Interruptible image s' := by
  cases a with
  | trap h scause sbadaddr =>
    obtain ⟨hguard, rfl⟩ := h
    exact hirq.trap hi hm fun hu => (hguard hu).2
  | line h =>
    obtain ⟨hu, i, ln, l, rest, hpc, hline, hlevels, hstep⟩ := h
    exact hirq.line hi hu hpc hline hlevels hstep
  | user h x sstatus pc mem =>
    obtain ⟨-, hk, rfl⟩ := h
    exact hirq.run hi hk
  | c h x sstatus pc mem task =>
    obtain ⟨-, -, -, -, -, hk, rfl⟩ := h
    exact hirq.run hi hk
  | cRet h x sstatus =>
    obtain ⟨-, -, l, -, -, -, rfl⟩ := h
    exact hirq.run hi s.kept_refl
  | writeFrame h p k regs mem =>
    obtain ⟨-, hp, l, hk, hw, rfl, hagree, rfl⟩ := h
    have hok := hi.stackOk p hp
    have hframe := (hi.chain p hp).frame (List.mem_of_getElem? hk)
    intro q hq
    by_cases hqp : q = p
    · subst hqp
      show ∀ l' ∈ Function.update s.levels q _ q, _
      rw [Function.update_self]
      exact ((hi.chain q hq).touched_set hok hk hw hagree).interruptible (hirq q hq)
    · show ∀ l' ∈ Function.update s.levels p _ q, _
      rw [Function.update_of_ne hqp]
      have hspared := hi.spared_of_stack hok (fun lo hi hout => hagree lo hi (by omega)) hq
        fun heq => hqp (hi.apart q p hq hp heq)
      exact hspared.frames.interruptible (hirq q hq)
  | switchTo h next =>
    obtain ⟨hc, -, -, haway, rfl⟩ := h
    obtain ⟨m, hsw, heq⟩ := @State.switch_switched _ _ image s h _ next (hi.inC hc).2.1
      (haway h).symm
    rw [heq]
    intro p hp l hl
    show l.Interruptible image m.mem
    rw [hsw.mem]
    exact hirq p hp l hl
  | copyThread h c mem =>
    obtain ⟨-, hfresh, hok, hapart, -, -, -, hagree, rfl⟩ := h
    intro p hp
    by_cases hpc : p = c.child
    · rw [hpc]
      show ∀ l' ∈ Function.update s.levels c.child _ c.child, _
      rw [Function.update_self]
      exact List.forall_mem_singleton.mpr fun hu => Bool.noConfusion hu
    · have hlive : s.live p = true := by
        have hp' : Function.update s.live c.child true p = true := hp
        rwa [Function.update_of_ne hpc] at hp'
      show ∀ l' ∈ Function.update s.levels c.child _ p, _
      rw [Function.update_of_ne hpc]
      exact (hi.spared_of_stack hok hagree hlive (hapart p hlive)).frames.interruptible
        (hirq p hlive)
  | freeTask h p =>
    obtain ⟨-, -, rfl⟩ := h
    intro q hq
    refine hirq q ?_
    have hq' : Function.update s.live p false q = true := hq
    by_cases hqp : q = p
    · rw [hqp, Function.update_self] at hq'
      cases hq'
    · rwa [Function.update_of_ne hqp] at hq'

/-! ## Steps of other harts -/

/-- What a line does: the machine after it, and where the hart is then. -/
theorem LineStep.put {i : Nat} {ln : Line w}
    (hstep : LineStep s h image ln l rest s' (ln.exec image i (s.machine h))) :
    ∃ m pc user levels, s' = s.put h m pc user levels ∧ m.mem = (ln.exec image i (s.machine h)).1.mem ∧
      m.task = (ln.exec image i (s.machine h)).1.task := by
  rcases hexec : ln.exec image i (s.machine h) with ⟨m, j | ⟨pc, ret⟩ | _⟩ <;> rw [hexec] at hstep
  · exact ⟨_, _, _, _, hstep, rfl, rfl⟩
  · exact ⟨_, _, _, _, hstep.2, rfl, rfl⟩
  · exact ⟨_, _, _, _, hstep, rfl, rfl⟩

/-- A step on one hart leaves the others where they are. -/
theorem hart_step {a : Act H w} (h : Step image s a s') {h' : H} (hne : h' ≠ a.hart) :
    s'.hart h' = s.hart h' := by
  cases a with
  | trap h scause sbadaddr =>
    obtain ⟨-, rfl⟩ := h
    exact Function.update_of_ne hne _ _
  | line h =>
    obtain ⟨-, i, ln, l, rest, -, -, -, hstep⟩ := h
    obtain ⟨m, pc, user, levels, rfl, -⟩ := hstep.put
    exact Function.update_of_ne hne _ _
  | user h x sstatus pc mem =>
    obtain ⟨-, -, rfl⟩ := h
    exact Function.update_of_ne hne _ _
  | c h x sstatus pc mem task =>
    obtain ⟨-, -, -, -, -, -, rfl⟩ := h
    exact Function.update_of_ne hne _ _
  | cRet h x sstatus =>
    obtain ⟨-, -, l, -, -, -, rfl⟩ := h
    exact Function.update_of_ne hne _ _
  | writeFrame h p k regs mem =>
    obtain ⟨-, -, l, -, -, -, -, rfl⟩ := h
    rfl
  | switchTo h next =>
    obtain ⟨-, -, -, -, rfl⟩ := h
    exact Function.update_of_ne hne _ _
  | copyThread h c mem =>
    obtain ⟨-, -, -, -, -, -, -, -, rfl⟩ := h
    rfl
  | freeTask h p =>
    obtain ⟨-, -, rfl⟩ := h
    rfl

/-- The stack of a task stays where it is. -/
theorem Inv.stack_step {a : Act H w} (hi : Inv image s) (h : Step image s a s') {p : Word w}
    (hp : s.live p = true) : (s'.task p).stack = (s.task p).stack := by
  cases a with
  | trap h scause sbadaddr =>
    obtain ⟨hguard, rfl⟩ := h
    have htask := (hi.trapped scause sbadaddr fun hu => (hguard hu).2).task
    exact congrArg (fun t => (t p).stack) htask
  | line h =>
    obtain ⟨hu, i, ln, l, rest, hpc, hline, hlevels, hstep⟩ := h
    have hh := hi.here hu hpc hline hlevels
    have hok := Line.ok_of_getElem? hline
    have htask : (ln.exec image i (s.machine h)).1.task = s.task := by
      cases ln with
      | instr ins =>
        simp only [Line.ok, decide_eq_true_eq] at hok
        exact (@Instr.sound _ image _ _ l (s.machine h) ins _ _ hok.1 hh.sp hh.laid hh.facts
          hok.2).1.task
      | exit is => exact (hh.returned (hi.stackOk _ (hi.live h)) hok).task
      | label lab | bnez r lab | beq r r' lab | bgez r lab | bgeu r r' lab | j lab | call f | tail f
      | jr r | jalr r => rfl
    obtain ⟨m, pc, user, levels, rfl, -, hm⟩ := hstep.put
    exact congrArg (fun t => (t p).stack) (hm.trans htask)
  | user h x sstatus pc mem =>
    obtain ⟨-, -, rfl⟩ := h
    rfl
  | c h x sstatus pc mem task =>
    obtain ⟨-, -, -, -, -, hk, rfl⟩ := h
    exact hk.stack p hp
  | cRet h x sstatus =>
    obtain ⟨-, -, l, -, -, -, rfl⟩ := h
    rfl
  | writeFrame h p k regs mem =>
    obtain ⟨-, -, l, -, -, -, -, rfl⟩ := h
    rfl
  | switchTo h next =>
    obtain ⟨hc, -, -, haway, rfl⟩ := h
    obtain ⟨m, hsw, heq⟩ := @State.switch_switched _ _ image s h _ next (hi.inC hc).2.1
      (haway h).symm
    rw [heq]
    by_cases hpc : p = (s.hart h).cur
    · rw [hpc]
      exact hsw.saved.2.2
    · exact congrArg TaskStruct.stack (hsw.other p hpc)
  | copyThread h c mem =>
    obtain ⟨-, hfresh, -, -, -, -, -, -, rfl⟩ := h
    have hpc : p ≠ c.child := by
      rintro rfl
      rw [hfresh] at hp
      cases hp
    exact congrArg TaskStruct.stack (Function.update_of_ne hpc _ _)
  | freeTask h p =>
    obtain ⟨-, -, rfl⟩ := h
    rfl

/-! ## Where interrupts are disabled -/

/-- A hart has come to line `i` by line `j`. -/
structure Came (image : Image w) (s : State H w) (h : H) (j : Nat) (ln : Line w) (i : Nat)
    (s' : State H w) : Prop where
  user : (s.hart h).user = false
  pc : (s.hart h).pc = image.addr j
  line : text[j]? = some ln
  next : (ln.exec image j (s.machine h)).2 = .line i
  x : (s'.hart h).cpu.x = (ln.exec image j (s.machine h)).1.x
  cur : (s'.hart h).cur = (s.hart h).cur

/-- From where C code returns to, and tasks go on, interrupts need not be disabled. -/
theorem Ctx.irqOff {task stack v : Word w} {x : Reg → Word w} {i : Nat}
    (hc : Ctx image task stack mem levels (image.addr i) x v)
    (hi : i < (text : List (Line w)).length) (hoff : .irqOff ∈ factsAt i) : v &&& srIe = 0 := by
  obtain ⟨l, rest, -, -, hfacts⟩ := hc.line hi
  exact hfacts _ hoff

/-- A line leads to a line. -/
theorem Line.exec_lt {j k : Nat} {ln : Line w} {m m' : Machine w} (hline : text[j]? = some ln)
    (hexec : ln.exec image j m = (m', .line k)) : k < (text : List (Line w)).length := by
  have hnext : ln ≠ .jr .s0 → j + 1 < (text : List (Line w)).length := succ_lt hline
  have hk := congrArg Prod.snd hexec
  cases ln with
  | label lab | instr ins =>
    obtain rfl := Next.line.inj hk
    exact hnext (by simp)
  | bnez r lab | beq r r' lab | bgez r lab | bgeu r r' lab =>
    obtain rfl := Next.line.inj hk
    split_ifs
    · exact lab.index_lt
    · exact hnext (by simp)
  | j lab =>
    obtain rfl := Next.line.inj hk
    exact lab.index_lt
  | call f | tail f | jr r | jalr r | exit is => cases hk

/-- The hart after a step of its own. -/
theorem State.put_hart {m : Machine w} {pc : Word w} {user : Bool} :
    (s.put h m pc user levels).hart h = ⟨m.cpu, pc, user, (s.hart h).cur⟩ :=
  Function.update_self ..

/-- A return to a line is one from a trap that was taken there. -/
theorem Here.not_sret {i j : Nat} {m : Machine w} (hh : Here image s h j l rest)
    (hl : l.Interruptible image s.mem) (hr : Returned s h l m) (hlt : i < (text : List (Line w)).length)
    (hoff : .irqOff ∈ factsAt i) (hu : ((s.sret h m rest).hart h).user = false) :
    ((s.sret h m rest).hart h).pc ≠ image.addr i := by
  have hhart : (s.sret h m rest).hart h = { s.hart h with
      cpu := { m.cpu with
        csr := Function.update m.cpu.csr .sstatus (sretStatus (m.csr .sstatus)) }
      pc := m.csr .sepc
      user := m.csr .sstatus &&& srPs = 0 } := Function.update_self ..
  rw [hhart] at hu ⊢
  intro hpc
  have hsepc : (frameAt s.mem l.base).sepc = image.addr i := hr.sepc.symm.trans hpc
  have hkernel : l.user = false := by
    have hps : ¬ m.csr .sstatus &&& srPs = 0 := of_decide_eq_false hu
    rw [hr.sstatus, and_srPs_csrStatus, hr.status] at hps
    exact Bool.eq_false_iff.mpr hps
  have hctx := (hh.level.kernel hkernel).2
  rw [hsepc] at hctx
  exact hl hkernel ⟨i, hlt, hsepc⟩ (hctx.irqOff hlt hoff)

/-- **A hart comes to a line with interrupts disabled by the line before it only.** -/
theorem Inv.lands {a : Act H w} {i : Nat} (hi : Inv image s) (hirq : Interruptible image s)
    (h : Step image s a s') (hlt : i < (text : List (Line w)).length)
    (hoff : .irqOff ∈ factsAt i) (hu : (s'.hart a.hart).user = false)
    (hpc : (s'.hart a.hart).pc = image.addr i) :
    a = .line a.hart ∧ ∃ j ln, Came image s a.hart j ln i s' := by
  have hin : image.InText (image.addr i) := ⟨i, hlt, rfl⟩
  cases a with
  | trap h scause sbadaddr =>
    obtain ⟨-, rfl⟩ := h
    rw [Act.hart, State.trap, State.put_hart] at hpc
    obtain rfl := image.addr_inj 0 i (by cases w <;> decide) hlt hpc
    exact absurd hoff (by decide)
  | line h =>
    refine ⟨rfl, ?_⟩
    obtain ⟨hu₀, j, ln, l, rest, hpc₀, hline, hlevels, hstep⟩ := h
    have hh := hi.here hu₀ hpc₀ hline hlevels
    rcases hexec : ln.exec image j (s.machine h) with ⟨m, k | ⟨pc, ret⟩ | _⟩
    · rw [hexec] at hstep
      obtain rfl := hstep
      rw [Act.hart, State.put_hart] at hpc
      have hk : k < (text : List (Line w)).length := Line.exec_lt hline hexec
      obtain rfl := image.addr_inj k i hk hlt hpc
      refine ⟨j, ln, hu₀, hpc₀, hline, congrArg Prod.snd hexec, ?_, ?_⟩
      · have hx := congrArg (fun r => r.1.x) hexec
        rw [Act.hart, State.put_hart]
        exact hx.symm
      · rw [Act.hart, State.put_hart]
    · rw [hexec] at hstep
      obtain ⟨hout, rfl⟩ := hstep
      rw [Act.hart, State.put_hart] at hpc
      have hpc' : pc = image.addr i := hpc
      exact absurd (hpc' ▸ hin) hout
    · have hexit : ∃ is, ln = .exit is := by
        cases ln <;> first | exact ⟨_, rfl⟩ | cases congrArg Prod.snd hexec
      obtain ⟨is, rfl⟩ := hexit
      have hr := hh.returned (hi.stackOk _ (hi.live h)) (Line.ok_of_getElem? hline)
      have hold := hirq _ (hi.live h) l (by rw [hlevels]; exact List.mem_cons_self)
      obtain rfl := hstep
      exact absurd hpc (hh.not_sret hold hr hlt hoff hu)
  | user h x sstatus pc mem =>
    obtain ⟨hu₀, -, rfl⟩ := h
    rw [Act.hart, State.run, State.put_hart, hu₀] at hu
    cases hu
  | c h x sstatus pc mem task =>
    obtain ⟨-, hout, -, -, -, -, rfl⟩ := h
    rw [Act.hart, State.run, State.put_hart] at hpc
    have hpc' : pc = image.addr i := hpc
    exact absurd (hpc' ▸ hin) hout
  | cRet h x sstatus =>
    obtain ⟨hc, -, l, hl, -, -, rfl⟩ := h
    rw [Act.hart, State.run, State.put_hart] at hpc
    obtain ⟨j, hj, hret, hfacts⟩ := (hi.inC hc).2.2.2.2 l hl
    obtain rfl := image.addr_inj i j hlt hj (hpc.symm.trans hret)
    rcases hfacts _ hoff with hf | ⟨hf, -⟩ | ⟨hf, -⟩ <;> cases hf
  | writeFrame h p k regs mem =>
    obtain ⟨hc, -, l, -, -, -, -, rfl⟩ := h
    exact absurd (hpc ▸ hin) hc.2
  | switchTo h next =>
    obtain ⟨hc, -, hnext, haway, rfl⟩ := h
    obtain ⟨m, hsw, heq⟩ := @State.switch_switched _ _ image s h _ next (hi.inC hc).2.1
      (haway h).symm
    rw [heq] at hpc
    have hpc' : m.x .ra = image.addr i := by
      have hhart : Function.update s.hart h ⟨m.cpu, m.x .ra, false, next⟩ h =
        ⟨m.cpu, m.x .ra, false, next⟩ := Function.update_self ..
      exact (congrArg Hart.pc hhart).symm.trans hpc
    -- a waiting task goes on in the same way with interrupts enabled
    have hctx := hi.parked next hnext haway (fun r => if r = .sp then (s.task next).sp else next)
      srIe rfl rfl
    rw [show (s.task next).ra = image.addr i from hsw.ra.symm.trans hpc'] at hctx
    have hzero : (srIe : Word w) &&& srIe = 0 := hctx.irqOff hlt hoff
    rw [and_srIe_eq_zero, getLsbD_srIe] at hzero
    cases hzero
  | copyThread h c mem =>
    obtain ⟨hc, -, -, -, -, -, -, -, rfl⟩ := h
    exact absurd (hpc ▸ hin) hc.2
  | freeTask h p =>
    obtain ⟨hc, -, rfl⟩ := h
    exact absurd (hpc ▸ hin) hc.2

/-! ## What a hart has seen -/

/-- A hart has read flags of which `P` holds, and has executed lines of the trap code since. -/
def Seen (s : State H w) (run : List (Act H w × State H w)) (h : H) (P : Word w → Prop) : Prop :=
  ∃ before t after, run = before ++ (.line h, t) :: after ∧ P ((lastState s before).flags h) ∧
    ∀ e ∈ after, e.1.hart = h → e.1 = .line h

section Seen

variable {run : List (Act H w × State H w)} {P Q : Word w → Prop} {a : Act H w}

omit [DecidableEq H] in
theorem Seen.imp (hs : Seen s run h P) (hPQ : ∀ flags, P flags → Q flags) : Seen s run h Q := by
  obtain ⟨before, t, after, hrun, hP, hafter⟩ := hs
  exact ⟨before, t, after, hrun, hPQ _ hP, hafter⟩

omit [DecidableEq H] in
theorem Seen.now (hP : P ((lastState s run).flags h)) : Seen s (run ++ [(.line h, s')]) h P :=
  ⟨run, s', [], rfl, hP, fun _ he => nomatch he⟩

omit [DecidableEq H] in
theorem Seen.quiet (hs : Seen s run h P) (ha : a.hart = h → a = .line h) :
    Seen s (run ++ [(a, s')]) h P := by
  obtain ⟨before, t, after, rfl, hP, hafter⟩ := hs
  refine ⟨before, t, after ++ [(a, s')], by rw [List.append_assoc, List.cons_append], hP, ?_⟩
  exact List.forall_mem_append.mpr ⟨hafter, List.forall_mem_singleton.mpr ha⟩

end Seen

/-! ## `resume_userspace` -/

/-- The number of the label `resume_userspace`. -/
def resumeLine : Nat := 52

/-- The lines behind the label. -/
theorem resume_lines (w : Xlen) :
    (text : List (Line w))[resumeLine + 1]? = some (.instr (.taskThreadInfo .s0 .tp)) ∧
    (text : List (Line w))[resumeLine + 2]? = some (.instr (.regL .s0 (tiFlags w) .s0)) ∧
    (text : List (Line w))[resumeLine + 3]? = some (.instr (.andi .s1 .s0 tifWorkMask)) ∧
    (text : List (Line w))[resumeLine + 4]? = some (.bnez .s1 .workPending) ∧
    (text : List (Line w))[resumeLine + 5]? =
      some (.instr (.addi .s0 .sp (BitVec.ofNat _ (ptSize w)))) := by
  cases w <;> decide

/-- No label is among them. -/
theorem index_not_resume (lab : Label) :
    ¬ (resumeLine < lab.index w ∧ lab.index w ≤ resumeLine + 6) := by
  cases w <;> cases lab <;> decide

theorem resume_irqOff {i : Nat} (hlo : resumeLine < i) (hhi : i ≤ resumeLine + 6) :
    .irqOff ∈ factsAt i := by
  have hi : i = 53 ∨ i = 54 ∨ i = 55 ∨ i = 56 ∨ i = 57 ∨ i = 58 := by
    unfold resumeLine at hlo hhi
    omega
  rcases hi with rfl | rfl | rfl | rfl | rfl | rfl <;> decide

omit [DecidableEq H] in
/-- So a hart comes to them from the line before. -/
theorem Came.succ {i j : Nat} {ln : Line w} (hc : Came image s h j ln i s') (hlo : resumeLine < i)
    (hhi : i ≤ resumeLine + 6) : i = j + 1 := by
  have hnext := hc.next
  have hlab : ∀ lab : Label, lab.index w ≠ i := by
    rintro lab rfl
    exact index_not_resume lab ⟨hlo, hhi⟩
  cases ln with
  | label lab | instr ins => exact (Next.line.inj hnext).symm
  | bnez r lab | beq r r' lab | bgez r lab | bgeu r r' lab =>
    have heq := Next.line.inj hnext
    split_ifs at heq
    · exact absurd heq (hlab lab)
    · exact heq.symm
  | j lab => exact absurd (Next.line.inj hnext) (hlab lab)
  | call f | tail f | jr r | jalr r | exit is => cases hnext

/-- A hart is at a line of the trap code. -/
def AtLine (image : Image w) (s : State H w) (h : H) (i : Nat) : Prop :=
  (s.hart h).user = false ∧ (s.hart h).pc = image.addr i

theorem Machine.setX_self (m : Machine w) (r : Reg) (v : Word w) : (m.setX r v).x r = v := by
  rw [setX_x, if_pos rfl]

/-- What the harts know that are at these lines. -/
structure Watched (image : Image w) (s₀ : State H w) (run : List (Act H w × State H w))
    (s : State H w) : Prop where
  stack : ∀ h, AtLine image s h (resumeLine + 2) → (s.hart h).cpu.x .s0 = s.stack h
  read : ∀ h, AtLine image s h (resumeLine + 3) →
    Seen s₀ run h fun flags => (s.hart h).cpu.x .s0 = flags
  masked : ∀ h, AtLine image s h (resumeLine + 4) →
    Seen s₀ run h fun flags => (s.hart h).cpu.x .s1 = flags &&& tifWorkMask
  clear : ∀ h i, i = resumeLine + 5 ∨ i = resumeLine + 6 → AtLine image s h i →
    Seen s₀ run h fun flags => flags &&& tifWorkMask = 0

/-- The line before, where a hart has come to one of these lines. -/
theorem Inv.from_line {a : Act H w} {i : Nat} {ln : Line w} (hi : Inv image s)
    (hirq : Interruptible image s) (h : Step image s a s') (hlo : resumeLine ≤ i)
    (hhi : i + 1 ≤ resumeLine + 6) (hat : AtLine image s' a.hart (i + 1))
    (hline : (text : List (Line w))[i]? = some ln) :
    a = .line a.hart ∧ Came image s a.hart i ln (i + 1) s' := by
  have hlt : resumeLine + 6 < (text : List (Line w)).length := by cases w <;> decide
  obtain ⟨ha, j, ln', hc⟩ := hi.lands hirq h (by omega) (resume_irqOff (by omega) hhi) hat.1 hat.2
  obtain rfl : i = j := Nat.succ.inj (hc.succ (by omega) hhi)
  obtain rfl := Option.some.inj (hline.symm.trans hc.line)
  exact ⟨ha, hc⟩

/-- **What the harts know is kept by every step.** -/
theorem Watched.step {s₀ : State H w} {run : List (Act H w × State H w)} {a : Act H w}
    (hw : Watched image s₀ run s) (hlast : lastState s₀ run = s) (hi : Inv image s)
    (hirq : Interruptible image s) (h : Step image s a s') :
    Watched image s₀ (run ++ [(a, s')]) s' := by
  obtain ⟨hinfo, hload, handi, hbnez, haddi⟩ := resume_lines w
  -- what the harts know that do not make the step
  have hother : ∀ h', h' ≠ a.hart → s'.hart h' = s.hart h' := fun h' => hart_step h
  have hat : ∀ h' i, h' ≠ a.hart → AtLine image s' h' i → AtLine image s h' i := by
    intro h' i hne hat
    rw [AtLine, hother h' hne] at hat
    exact hat
  have hquiet : ∀ (h' : H) (P : Word w → Prop), h' ≠ a.hart → Seen s₀ run h' P →
      Seen s₀ (run ++ [(a, s')]) h' P :=
    fun h' P hne hs => hs.quiet fun heq => absurd heq.symm hne
  have hstack : ∀ h', (s'.hart h').cur = (s.hart h').cur → s'.stack h' = s.stack h' := by
    intro h' hcur
    rw [State.stack, hcur]
    exact hi.stack_step h (hi.live h')
  constructor
  case stack =>
    intro h' hline
    by_cases hh : h' = a.hart
    · subst hh
      obtain ⟨-, hc⟩ := hi.from_line hirq h (i := resumeLine + 1) (by omega) (by omega) hline hinfo
      have hctx := (hi.kernel _ hc.user).2
      rw [hc.pc] at hctx
      obtain ⟨l, rest, -, -, hfacts⟩ := hctx.line (by cases w <;> decide)
      have htp : (s.hart a.hart).cpu.x .tp = (s.hart a.hart).cur :=
        hfacts .tpCurrent (by decide)
      rw [hc.x, hstack _ hc.cur, State.stack, ← htp]
      exact (s.machine a.hart).setX_self .s0 _
    · rw [hother h' hh, hstack h' (congrArg Hart.cur (hother h' hh))]
      exact hw.stack h' (hat h' _ hh hline)
  case read =>
    intro h' hline
    by_cases hh : h' = a.hart
    · subst hh
      obtain ⟨ha, hc⟩ := hi.from_line hirq h (i := resumeLine + 2) (by omega) (by omega) hline hload
      have hs0 := hw.stack _ ⟨hc.user, hc.pc⟩
      rw [ha]
      refine Seen.now ?_
      rw [hlast, ← ha, hc.x, State.flags, ← hs0]
      exact (s.machine a.hart).setX_self .s0 _
    · rw [hother h' hh]
      exact hquiet h' _ hh (hw.read h' (hat h' _ hh hline))
  case masked =>
    intro h' hline
    by_cases hh : h' = a.hart
    · subst hh
      obtain ⟨ha, hc⟩ := hi.from_line hirq h (i := resumeLine + 3) (by omega) (by omega) hline handi
      refine ((hw.read _ ⟨hc.user, hc.pc⟩).imp fun flags hflags => ?_).quiet fun _ => ha
      rw [hc.x, ← hflags]
      exact (s.machine a.hart).setX_self .s1 _
    · rw [hother h' hh]
      exact hquiet h' _ hh (hw.masked h' (hat h' _ hh hline))
  case clear =>
    rintro h' i hi' hline
    by_cases hh : h' = a.hart
    · subst hh
      rcases hi' with rfl | rfl
      · obtain ⟨ha, hc⟩ := hi.from_line hirq h (i := resumeLine + 4) (by omega) (by omega) hline
          hbnez
        refine ((hw.masked _ ⟨hc.user, hc.pc⟩).imp fun flags hflags => ?_).quiet fun _ => ha
        rw [← hflags]
        by_contra hne
        have hne : (s.machine a.hart).x .s1 ≠ 0 := hne
        have hnext := Next.line.inj hc.next
        rw [if_pos hne] at hnext
        exact index_not_resume .workPending (w := w) (by rw [hnext]; omega)
      · obtain ⟨ha, hc⟩ := hi.from_line hirq h (i := resumeLine + 5) (by omega) (by omega) hline
          haddi
        exact (hw.clear _ _ (Or.inl rfl) ⟨hc.user, hc.pc⟩).quiet fun _ => ha
    · exact hquiet h' _ hh (hw.clear h' i hi' (hat h' _ hh hline))

/-! ## Runs -/

omit [DecidableEq H] in
theorem Start.interruptible (hs : Start image s) : Interruptible image s := by
  intro p _ l hl
  rw [hs.levels] at hl
  cases hl

omit [DecidableEq H] in
theorem Start.watched (hs : Start image s) : Watched image s [] s := by
  have hno : ∀ {h i}, i < (text : List (Line w)).length → ¬ AtLine image s h i :=
    fun hlt hat => (hs.inC _).2 ⟨_, hlt, hat.2⟩
  have hlt : resumeLine + 6 < (text : List (Line w)).length := by cases w <;> decide
  constructor
  case stack => exact fun h hat => absurd hat (hno (by omega))
  case read => exact fun h hat => absurd hat (hno (by omega))
  case masked => exact fun h hat => absurd hat (hno (by omega))
  case clear => exact fun h i hi hat => absurd hat (hno (by omega))

/-- What holds after a run from the start. -/
theorem Start.run {run : List (Act H w × State H w)} (hs : Start image s)
    (hrun : IsRun (MaskedStep image) s run) : Inv image (lastState s run) ∧
      Interruptible image (lastState s run) ∧ Watched image s run (lastState s run) := by
  induction run using List.reverseRecOn with
  | nil => exact ⟨hs.inv, hs.interruptible, hs.watched⟩
  | append_singleton run e ih =>
    obtain ⟨hrun, ⟨hstep, hm⟩, -⟩ := isRun_append.mp hrun
    obtain ⟨hi, hirq, hw⟩ := ih hrun
    rw [lastState_append]
    exact ⟨hi.step hstep, hirq.step hi hm hstep, hw.step rfl hi hirq hstep⟩

/-- A line that leads to user mode is the one behind the check. -/
theorem Inv.to_user (hi : Inv image s) (h' : Step image s (.line h) s')
    (huser : (s'.hart h).user = true) : AtLine image s h (resumeLine + 6) := by
  obtain ⟨hu, i, ln, l, rest, hpc, hline, hlevels, hstep⟩ := h'
  have hh := hi.here hu hpc hline hlevels
  have hok := Line.ok_of_getElem? hline
  have htop : ∀ i, .s0Top ∈ factsAt i → i = resumeLine + 6 := by
    intro i hf
    have hlt : i < 96 := by
      by_contra hge
      have hnone : facts[i]? = none := List.getElem?_eq_none (Nat.le_of_not_lt hge)
      rw [factsAt, hnone] at hf
      cases hf
    have hall : ∀ i < 96, .s0Top ∈ factsAt i → i = resumeLine + 6 := by decide
    exact hall i hlt hf
  cases ln with
  | exit is =>
    have hr := hh.returned (hi.stackOk _ (hi.live h)) hok
    obtain rfl := hstep
    rw [State.sret, State.put_hart] at huser
    have hps := of_decide_eq_true huser
    rw [hr.sstatus, and_srPs_csrStatus, hr.status] at hps
    simp only [Line.ok, decide_eq_true_eq] at hok
    obtain ⟨-, -, ⟨-, hk⟩ | ⟨-, -, htop', -⟩⟩ := hok
    · have hkernel : l.user = false := hh.facts _ hk
      rw [hkernel] at hps
      cases hps
    · exact ⟨hu, htop i htop' ▸ hpc⟩
  | label lab | instr ins | bnez r lab | beq r r' lab | bgez r lab | bgeu r r' lab | j lab =>
    obtain rfl := hstep
    rw [State.put_hart] at huser
    cases huser
  | call f | tail f | jr r | jalr r =>
    obtain ⟨-, rfl⟩ := hstep
    rw [State.put_hart] at huser
    cases huser

/-- **Work is never missed.** In every run from the start in which the trap code is interrupted only
where interrupts are enabled, a hart that returns to user mode has read the flags of its task,
has found none of `_TIF_WORK_MASK` set, and has executed nothing but lines of the trap code since. -/
theorem work_never_missed {run : List (Act H w × State H w)} (hs : Start image s)
    (hrun : IsRun (MaskedStep image) s (run ++ [(.line h, s')]))
    (huser : (s'.hart h).user = true) : Seen s run h fun flags => flags &&& tifWorkMask = 0 := by
  obtain ⟨hrun, ⟨hstep, -⟩, -⟩ := isRun_append.mp hrun
  obtain ⟨hi, -, hw⟩ := hs.run hrun
  exact hw.clear h _ (Or.inr rfl) (hi.to_user hstep huser)

end Steps

section Witness

variable [DecidableEq H]

instance (image : Image w) (pc : Word w) : Decidable (image.InText pc) :=
  inferInstanceAs (Decidable (∃ i < _, _))

/-- The state after a line, when the hart is at it and may execute it. -/
def lineFrom (image : Image w) (s : State H w) (h : H) (i : Nat) : Option (State H w) :=
  if (s.hart h).user = false ∧ (s.hart h).pc = image.addr i then
    match (text : List (Line w))[i]?, s.levels (s.hart h).cur with
    | some ln, l :: rest =>
      match ln.exec image i (s.machine h) with
      | (m, .line j) => some (s.put h m (image.addr j) false ((match ln with
        | .instr ins => l.note (s.machine h) ins
        | _ => l) :: rest))
      | (m, .c pc ret) =>
        if ¬ image.InText pc then some (s.put h m pc false ({ l with ret := ret } :: rest)) else none
      | (m, .sret) => some (s.sret h m rest)
    | _, _ => none
  else none

theorem step_lineFrom {image : Image w} {s s' : State H w} {h : H} {i : Nat}
    (hs : lineFrom image s h i = some s') : MaskedStep image s (.line h) s' := by
  refine ⟨?_, trivial⟩
  unfold lineFrom at hs
  split_ifs at hs with hat
  split at hs
  · next ln l rest hline hlevels =>
    refine ⟨hat.1, i, ln, l, rest, hat.2, hline, hlevels, ?_⟩
    split at hs
    · next m j hexec =>
      rw [hexec]
      exact (Option.some.inj hs).symm
    · next m pc ret hexec =>
      rw [hexec]
      split_ifs at hs with hout
      exact ⟨hout, (Option.some.inj hs).symm⟩
    · next m hexec =>
      rw [hexec]
      exact (Option.some.inj hs).symm
  · cases hs

/-- Lines one after the other. -/
def linesFrom (image : Image w) (h : H) : State H w → List Nat → List (Act H w × State H w)
  | _, [] => []
  | s, i :: is =>
    let s' := (lineFrom image s h i).getD s
    (.line h, s') :: linesFrom image h s' is

def canLines (image : Image w) (h : H) : State H w → List Nat → Bool
  | _, [] => true
  | s, i :: is =>
    (lineFrom image s h i).isSome && canLines image h ((lineFrom image s h i).getD s) is

theorem isRun_linesFrom {image : Image w} {h : H} {is : List Nat} {s : State H w}
    (hs : canLines image h s is = true) : IsRun (MaskedStep image) s (linesFrom image h s is) := by
  induction is generalizing s with
  | nil => trivial
  | cons i is ih =>
    obtain ⟨hfirst, hrest⟩ := Bool.and_eq_true_iff.mp hs
    obtain ⟨s', hs'⟩ := Option.isSome_iff_exists.mp hfirst
    have heq : (lineFrom image s h i).getD s = s' := by rw [hs', Option.getD_some]
    exact ⟨step_lineFrom (hs'.trans (congrArg some heq.symm)), ih hrest⟩

theorem linesFrom_concat {image : Image w} {h : H} {is : List Nat} {s : State H w} {i : Nat} :
    let t := lastState s (linesFrom image h s is)
    linesFrom image h s (is ++ [i]) =
      linesFrom image h s is ++ [(.line h, (lineFrom image t h i).getD t)] := by
  induction is generalizing s with
  | nil => rfl
  | cons j is ih => exact congrArg (List.cons _) ih

/-- Registers with a return address outside the trap code. -/
def away (x : Reg → Word .rv64) (r : Reg) : Word .rv64 := if r = .ra then 0x3000 else x r

/-- The idle task calls the scheduler. -/
def called : State Unit .rv64 :=
  idle.run () (away (idle.hart ()).cpu.x) 0 0x2000 idle.mem idle.task

/-- A new task, that goes on as a program. -/
def program : Clone .rv64 := ⟨false, 0, 0, false, 0x6000, 0xc000⟩

def forkedMem : Memory (8 * szreg .rv64) := fun a =>
  if a = 0x8001 then 0x50 else if a = 0xc001 then 0x60 else 0

def forked : State Unit .rv64 :=
  called.clone lowImage program
    (program.regs (frameAt called.mem (taskPtRegs 0x8000)) 7) forkedMem

def switched : State Unit .rv64 := forked.switch () lowImage 0x6000

/-- `schedule_tail` runs in the new task. -/
def scheduled : State Unit .rv64 := lastState switched (linesFrom lowImage () switched [88, 89, 90])

def forkReturns : State Unit .rv64 :=
  scheduled.run () (scheduled.hart ()).cpu.x 0 47 scheduled.mem scheduled.task

/-- The new task is about to return to its program. -/
def leaving : State Unit .rv64 :=
  lastState forkReturns (linesFrom lowImage () forkReturns (List.range' 47 11))

/-- The idle task makes a task and switches to it, and that returns to its program. -/
def forkRun : List (Act Unit .rv64 × State Unit .rv64) :=
  [(.c () (away (idle.hart ()).cpu.x) 0 0x2000 idle.mem idle.task, called),
    (.copyThread () program forkedMem, forked), (.switchTo () 0x6000, switched)] ++
    (linesFrom lowImage () switched [88, 89, 90] ++
      (.cRet () (scheduled.hart ()).cpu.x 0, forkReturns) ::
        linesFrom lowImage () forkReturns (List.range' 47 11))

theorem frameAt_forkedMem : frameAt forkedMem (taskPtRegs program.stack) =
    program.regs (frameAt called.mem (taskPtRegs 0x8000)) 7 := by
  refine PtRegs.ext_get fun s => ?_
  cases s with
  | x r => cases r <;> decide +kernel
  | _ => decide +kernel

/-- The trap that the new task starts in. -/
def born : Level .rv64 where
  base := taskPtRegs 0xc000
  saved := program.regs (frameAt called.mem (taskPtRegs 0x8000)) 7
  user := true
  progress := .fresh
  wrote := true
  ret := 47

set_option maxRecDepth 8000 in
theorem levels_scheduled : scheduled.levels 0x6000 = [born] := by rfl

theorem isRun_forkRun : IsRun (MaskedStep lowImage) idle
    (forkRun ++ [(.line (), (lineFrom lowImage leaving () 58).getD leaving)]) := by
  have hout : ¬lowImage.InText 0x2000 := by decide +kernel
  have hc : Step lowImage idle
      (.c () (away (idle.hart ()).cpu.x) 0 0x2000 idle.mem idle.task) called :=
    ⟨start_idle.inC (), hout, rfl, by decide, by decide, idle.kept_refl, rfl⟩
  have hfork : Step lowImage called (.copyThread () program forkedMem) forked := by
    refine ⟨⟨rfl, hout⟩, rfl, ⟨by decide, by decide⟩,
      fun _ _ => (by decide : (0x8000 : Word .rv64) ≠ 0xc000), fun _ => ?_,
      frameAt_forkedMem, by decide, fun lo hi hlohi a hlo hhi => ?_, rfl⟩
    · exact ⟨by decide +kernel, by decide +kernel⟩
    · have hne : a ≠ 0xc001 := by
        rintro rfl
        have hthread : threadSize = 0x2000 := rfl
        have hstack : (program.stack).toNat = 0xc000 := rfl
        have ha : (0xc001 : Word .rv64).toNat = 0xc001 := rfl
        omega
      show (if a = 0x8001 then _ else if a = 0xc001 then _ else _) = _
      rw [if_neg hne]
      rfl
  have hswitch : Step lowImage forked (.switchTo () 0x6000) switched :=
    ⟨⟨rfl, hout⟩, by decide +kernel, rfl, fun () => by decide, rfl⟩
  have hret : Step lowImage scheduled (.cRet () (scheduled.hart ()).cpu.x 0) forkReturns := by
    refine ⟨⟨by decide +kernel, by decide +kernel⟩, rfl, born, ?_, by decide +kernel,
      fun _ _ => by decide +kernel, rfl⟩
    rw [show (scheduled.hart ()).cur = 0x6000 by decide +kernel, levels_scheduled]
    rfl
  have hfirst : IsRun (MaskedStep lowImage) switched (linesFrom lowImage () switched [88, 89, 90]) :=
    isRun_linesFrom (by decide +kernel)
  have hsecond : IsRun (MaskedStep lowImage) forkReturns
      (linesFrom lowImage () forkReturns (List.range' 47 12)) :=
    isRun_linesFrom (by decide +kernel)
  rw [show List.range' 47 12 = List.range' 47 11 ++ [58] from rfl, linesFrom_concat] at hsecond
  have hthen : IsRun (MaskedStep lowImage) scheduled
      ((.cRet () (scheduled.hart ()).cpu.x 0, forkReturns) :: _) := ⟨⟨hret, trivial⟩, hsecond⟩
  have hrest : IsRun (MaskedStep lowImage) switched (linesFrom lowImage () switched [88, 89, 90] ++
      (.cRet () (scheduled.hart ()).cpu.x 0, forkReturns) :: _) :=
    isRun_append.mpr ⟨hfirst, hthen⟩
  simp only [forkRun, List.append_assoc, List.cons_append, List.nil_append]
  exact ⟨⟨hc, trivial⟩, ⟨hfork, trivial⟩, ⟨hswitch, trivial⟩, hrest⟩

theorem work_never_missed_fork :
    let s' := (lineFrom lowImage leaving () 58).getD leaving
    Start lowImage idle ∧ IsRun (MaskedStep lowImage) idle (forkRun ++ [(.line (), s')]) ∧
      (s'.hart ()).user = true ∧
      Seen idle forkRun () fun flags => flags &&& tifWorkMask = 0 := by
  have huser : (((lineFrom lowImage leaving () 58).getD leaving).hart ()).user = true := by
    decide +kernel
  exact ⟨start_idle, isRun_forkRun, huser, work_never_missed start_idle isRun_forkRun huser⟩

end Witness

end LowriscLinux.Kernel.Entry
