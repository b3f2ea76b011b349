import LowriscLinux.Kernel.TrapSteps

/-!
# The steps of programs, of C code and of tasks

The invariant of `Nesting` is kept by all other steps of the system.

* Programs and C code leave alone what `State.Kept` says, so nothing that the invariant is about has
  changed (`Inv.run`).
* A C function that returns to the trap code brings back `sp` and `tp`; the facts at the line it
  returns to are about these, or about the trap (`arch/riscv/kernel/entry.S`, lines 129, 180, 228
  and 240).
* A write to a frame changes that frame only, and leaves it one that the trap code may return with.
* `__switch_to` (lines 266-299) leaves the context of the task that it is called by in its `thread`,
  and takes up that of the next one, which has been left in the same way or made by `copy_thread`
  (`process.c`, lines 92 and 102-104).
* A new task (`process.c`, lines 79-106) is in one trap, whose frame `copy_thread` has made; a stack
  is given to one task only.

Results:
* `Inv.cRet`: a C function returns to a line of the trap code whose facts hold.
* `Inv.writeFrame`: C code may write to the frame of any trap.
* `Inv.switchTo`, `Inv.copyThread`, `Inv.freeTask`: the tasks.
* `Inv.step`: every step keeps the invariant.
-/

namespace LowriscLinux.Kernel.Entry

open Lib

variable {w : Xlen} {H : Type} {image : Image w} {s s' : State H w} {h : H}
  {l : Level w} {levels rest : List (Level w)} {x : Reg → Word w} {sstatus pc : Word w}
  {mem : Memory (8 * szreg w)} {task : Word w → TaskStruct w}

/-! ## Programs and C code -/

/-- What the context of C code says. -/
theorem Inv.inC (hi : Inv image s) (hc : s.InC h image) :
    (s.hart h).cpu.csr .sscratch = 0 ∧ (s.hart h).cpu.x .tp = (s.hart h).cur ∧
      (s.stack h).toNat + tiSize w ≤ ((s.hart h).cpu.x .sp).toNat ∧
      ((s.hart h).cpu.x .sp).toNat ≤ limit (s.stack h) (s.levels (s.hart h).cur) ∧
      ∀ l ∈ (s.levels (s.hart h).cur).head?, Pending image (s.hart h).cur (s.stack h) s.mem l := by
  obtain ⟨hscratch, ⟨i, hi, hpc, -⟩ | ⟨-, htp, hroom, hle, hpending⟩⟩ := hi.kernel h hc.1
  · exact absurd ⟨i, hi, hpc⟩ hc.2
  · exact ⟨hscratch, htp, hroom, hle, hpending⟩

/-- Nothing has changed. -/
theorem State.kept_refl (s : State H w) : s.Kept s.mem s.task :=
  ⟨fun _ _ _ _ => .refl _ _ _, fun _ _ => .refl _ _ _, fun _ _ => rfl, fun _ _ _ => rfl⟩

section Run

variable [DecidableEq H]

/-- A step that leaves alone what it is not meant to change. -/
theorem Inv.run (hi : Inv image s) (hk : s.Kept mem task)
    (hkernel : (s.hart h).user = false →
      Ctx image (s.hart h).cur (s.stack h) s.mem (s.levels (s.hart h).cur) pc x sstatus) :
    Inv image (s.run h x sstatus pc mem task) := by
  have hspared := hi.spared_of_kept hk (hi.live h)
  have hscratch : Function.update (s.hart h).cpu.csr .sstatus sstatus .sscratch
      = (s.hart h).cpu.csr .sscratch := Function.update_of_ne (by decide) _ _
  refine hi.put (hi.others_of_kept hk) hspared.info
    ((hi.chain _ (hi.live h)).touched hspared.frames.touched) (fun hu => ?_) fun hu => ?_
  · exact ⟨hscratch.trans (hi.user h hu).1, (hi.user h hu).2⟩
  · refine ⟨hscratch.trans (hi.kernel h hu).1, ?_⟩
    have hctx := (hkernel hu).touched hspared.frames.touched
    have hstatus : Function.update (s.hart h).cpu.csr .sstatus sstatus .sstatus = sstatus :=
      Function.update_self ..
    refine hctx.status fun hv => ?_
    show Function.update (s.hart h).cpu.csr .sstatus sstatus .sstatus &&& srIe = 0
    rwa [hstatus]

theorem Inv.c (hi : Inv image s) (hc : s.InC h image) (hpc : ¬image.InText pc)
    (htp : x .tp = (s.hart h).cpu.x .tp) (hroom : (s.stack h).toNat + tiSize w ≤ (x .sp).toNat)
    (hle : (x .sp).toNat ≤ limit (s.stack h) (s.levels (s.hart h).cur)) (hk : s.Kept mem task) :
    Inv image (s.run h x sstatus pc mem task) := by
  obtain ⟨-, hcur, -, -, hpending⟩ := hi.inC hc
  exact hi.run hk fun _ => Or.inr ⟨hpc, htp.trans hcur, hroom, hle, hpending⟩

/-- **A C function returns** to the trap code: what it returns to relies on the trap only. -/
theorem Inv.cRet (hi : Inv image s) (hc : s.InC h image)
    (htp : x .tp = (s.hart h).cpu.x .tp) (hl : l ∈ (s.levels (s.hart h).cur).head?)
    (hsp : x .sp = l.base)
    (huser : l.ret = image.sym (.label .retFromException) → l.UserFrame s.mem) :
    Inv image (s.run h x sstatus l.ret s.mem s.task) := by
  obtain ⟨-, hcur, -, -, hpending⟩ := hi.inC hc
  obtain ⟨i, hi', hret, hfacts⟩ := hpending l hl
  obtain ⟨rest, hlevels⟩ := List.head?_eq_some_iff.mp hl
  refine hi.run s.kept_refl fun _ => Or.inl ⟨i, hi', hret, l, rest, hlevels, hsp, fun f hf => ?_⟩
  rcases hfacts f hf with rfl | ⟨rfl, hretEx⟩ | ⟨hlasts, hholds⟩
  · exact htp.trans hcur
  · exact huser hretEx
  · simp only [Fact.lasts, decide_eq_true_eq] at hlasts
    refine hholds.congr (fun r hr => ?_) fun heq => absurd heq hlasts.2
    rw [hlasts.1] at hr
    cases hr

end Run

/-! ## Writes to frames -/

/-- Writes to the frames of traps, of any task. -/
theorem Inv.touch (hi : Inv image s) {levels' : Word w → List (Level w)}
    (ht : ∀ p, s.live p = true → AllTouched image s.mem mem (s.levels p) (levels' p))
    (hinfo : ∀ p, s.live p = true → loadWord (szreg w) mem (s.task p).stack = p) :
    Inv image { s with mem := mem, levels := levels' } := by
  constructor
  case stackOk => exact hi.stackOk
  case apart => exact hi.apart
  case info => exact hinfo
  case chain => exact fun p hp => (hi.chain p hp).touched (ht p hp)
  case live => exact hi.live
  case user =>
    intro h hu
    obtain ⟨hscratch, hlevels⟩ := hi.user h hu
    have htouched := ht _ (hi.live h)
    rw [hlevels] at htouched
    exact ⟨hscratch, List.forall₂_nil_left_iff.mp htouched⟩
  case kernel =>
    intro h hu
    obtain ⟨hscratch, hctx⟩ := hi.kernel h hu
    exact ⟨hscratch, hctx.touched (ht _ (hi.live h))⟩
  case parked =>
    exact fun p hp haway x v hsp htp => (hi.parked p hp haway x v hsp htp).touched (ht p hp)
  case alone => exact hi.alone

/-- A write to one frame of a task does not reach the others. -/
theorem Chain.touched_set {p stack : Word w} {mem' : Memory (8 * szreg w)} {k : Nat}
    (hs : StackOk stack) (hc : Chain image p stack mem levels) (hk : levels[k]? = some l)
    (hw : WriteOk image l (frameAt mem l.base) (frameAt mem' l.base))
    (hagree : ∀ lo hi, hi ≤ l.base.toNat ∨ l.base.toNat + ptSize w ≤ lo → Agree mem mem' lo hi) :
    AllTouched image mem mem' levels (levels.set k { l with wrote := true }) := by
  induction levels generalizing k with
  | nil => cases hk
  | cons l' rest ih =>
    obtain ⟨hl', hrest⟩ := hc
    cases k with
    | zero =>
      obtain rfl := Option.some.inj hk
      have hsame := hrest.sameFrames hs hl'.below (hagree _ _ (Or.inr (Nat.le_refl _)))
      exact .cons (.wrote hw) hsame.touched
    | succ k =>
      have hbelow := hl'.below
      have habove := hrest.above (List.mem_of_getElem? hk)
      have hframe := hrest.frame (List.mem_of_getElem? hk)
      have hfit := hs.2
      refine .cons (.same ?_) (ih hrest hk)
      exact frameAt_congr (by omega) (hagree _ _ (Or.inl (by omega)))

/-- **C code writes to the frame of a trap.** -/
theorem Inv.writeFrame (hi : Inv image s) {p : Word w} {k : Nat} (hp : s.live p = true)
    (hk : (s.levels p)[k]? = some l)
    (hw : WriteOk image l (frameAt s.mem l.base) (frameAt mem l.base))
    (hagree : ∀ lo hi, hi ≤ l.base.toNat ∨ l.base.toNat + ptSize w ≤ lo →
      Agree s.mem mem lo hi) :
    Inv image { s with
      mem := mem
      levels := Function.update s.levels p ((s.levels p).set k { l with wrote := true }) } := by
  have hok := hi.stackOk p hp
  have hfit := hok.2
  have hframe := (hi.chain p hp).frame (List.mem_of_getElem? hk)
  have hle := szreg_le_tiSize w
  have hspared : ∀ q, s.live q = true → q ≠ p → Spared s mem q := fun q hq hne =>
    hi.spared_of_stack hok (fun lo hi hout => hagree lo hi (by omega)) hq fun heq =>
      hne (hi.apart q p hq hp heq)
  refine hi.touch (fun q hq => ?_) fun q hq => ?_
  · by_cases hqp : q = p
    · subst hqp
      rw [Function.update_self]
      exact (hi.chain q hq).touched_set hok hk hw hagree
    · rw [Function.update_of_ne hqp]
      exact (hspared q hq hqp).frames.touched
  · by_cases hqp : q = p
    · subst hqp
      rw [loadWord_congr (by omega) (hagree _ _ (by omega))]
      exact hi.info q hq
    · exact (hspared q hq hqp).info

/-! ## Tasks -/

/-- A task that does not run is gone. -/
theorem Inv.freeTask (hi : Inv image s) {p : Word w} (haway : ∀ h', (s.hart h').cur ≠ p) :
    Inv image { s with live := Function.update s.live p false } := by
  have hlive : ∀ q, Function.update s.live p false q = true → s.live q = true := by
    intro q hq
    by_cases hqp : q = p
    · rw [hqp, Function.update_self] at hq
      cases hq
    · rwa [Function.update_of_ne hqp] at hq
  constructor
  case stackOk => exact fun q hq => hi.stackOk q (hlive q hq)
  case apart => exact fun q q' hq hq' => hi.apart q q' (hlive q hq) (hlive q' hq')
  case info => exact fun q hq => hi.info q (hlive q hq)
  case chain => exact fun q hq => hi.chain q (hlive q hq)
  case live => exact fun h => (Function.update_of_ne (haway h) _ _).trans (hi.live h)
  case user => exact hi.user
  case kernel => exact hi.kernel
  case parked => exact fun q hq => hi.parked q (hlive q hq)
  case alone => exact hi.alone

theorem factsAt_retFromFork :
    factsAt (Label.retFromFork.index w) = [.tpCurrent, .settled, .userFrame] := by
  cases w <;> rfl

theorem factsAt_retFromKernelThread :
    factsAt (Label.retFromKernelThread.index w) = [.tpCurrent, .settled] := by
  cases w <;> rfl

/-- The status in a new task's frame leaves interrupts disabled. -/
theorem Clone.regs_masked (c : Clone w) {parent : PtRegs w} (gp : Word w)
    (hparent : c.kthread = false → UserStatus parent.sstatus) :
    (c.regs parent gp).sstatus &&& srIe = 0 ∧
      (c.kthread = false → (c.regs parent gp).sstatus &&& srPs = 0) := by
  cases hk : c.kthread with
  | true =>
    refine ⟨?_, fun hf => Bool.noConfusion hf⟩
    rw [Clone.regs, if_pos hk]
    show (srPs ||| srPie) &&& srIe = 0
    cases w <;> decide
  | false =>
    have hstatus : (c.regs parent gp).sstatus = parent.sstatus := by
      rw [Clone.regs, hk, if_neg Bool.false_ne_true]
      show (ite _ _ _ : PtRegs w).sstatus = _
      split_ifs <;> rfl
    rw [hstatus]
    exact ⟨(hparent hk).2, fun _ => (hparent hk).1⟩

/-- The trap that a new task starts in. -/
theorem LevelOk.child {c : Clone w} {regs : PtRegs w} (hok : StackOk c.stack)
    (hframe : frameAt mem (taskPtRegs c.stack) = regs) (hmasked : regs.sstatus &&& srIe = 0) :
    LevelOk image c.child c.stack mem
      { base := taskPtRegs c.stack, saved := regs, user := true, progress := .fresh, wrote := true
        ret := 0 } [] := by
  have hbase := hok.toNat_taskPtRegs
  have hsize := tiSize_add_ptSize_le w
  constructor
  case room =>
    show _ ≤ (taskPtRegs c.stack).toNat
    omega
  case below => exact le_of_eq hbase
  case outer => exact fun _ => ⟨rfl, hbase⟩
  case kernel => exact fun hu => Bool.noConfusion hu
  case masked =>
    show (frameAt mem (taskPtRegs c.stack)).sstatus &&& srIe = 0
    rwa [hframe]
  case call => exact fun _ => rfl
  case fresh => exact fun _ => rfl
  case due => exact fun hw => Bool.noConfusion hw

section Tasks

variable [DecidableEq H]

/-- The machine after `__switch_to`. -/
theorem State.switch_switched {next : Word w} (htp : (s.hart h).cpu.x .tp = (s.hart h).cur)
    (hne : next ≠ (s.hart h).cur) : ∃ m, Switched (s.machine h) m (s.hart h).cur next ∧
      s.switch h image next = { s with
        hart := Function.update s.hart h ⟨m.cpu, m.x .ra, false, next⟩
        mem := m.mem
        task := m.task } := by
  obtain ⟨m, hm⟩ : ∃ m, m = ((s.machine h).setX .a0 ((s.hart h).cpu.x .tp)).setX .a1 next :=
    ⟨_, rfl⟩
  have ha0 : m.x .a0 = (s.hart h).cur := by simp [hm, htp]
  have ha1 : m.x .a1 = next := by simp [hm]
  have hx : ∀ r, r ≠ .a0 → r ≠ .a1 → m.x r = (s.machine h).x r := by
    intro r h0 h1
    rw [hm, Machine.setX_x, if_neg h1, Machine.setX_x, if_neg h0]
  have htask : m.task = (s.machine h).task := by rw [hm]; rfl
  have hcsr : m.csr = (s.machine h).csr := by rw [hm]; rfl
  have hmem : m.mem = (s.machine h).mem := by rw [hm]; rfl
  have hsw := switchTo_switched image.sym m (by rwa [ha0, ha1])
  rw [ha0, ha1] at hsw
  refine ⟨execAll image.sym m Entry.switchTo, ⟨?_, ?_, hsw.tp, ?_, ?_, ?_, ?_⟩, by rw [hm]; rfl⟩
  · rw [← htask]
    exact hsw.ra
  · rw [← htask]
    exact hsw.sp
  · rw [← htask, ← hx .ra (by decide) (by decide), ← hx .sp (by decide) (by decide)]
    exact hsw.saved
  · rw [← htask]
    exact hsw.other
  · rw [← hcsr]
    exact hsw.csr
  · rw [← hmem]
    exact hsw.mem

/-- **`__switch_to`**: the next task goes on where it has been left. -/
theorem Inv.switchTo (hi : Inv image s) (hc : s.InC h image) {next : Word w}
    (hra : ¬image.InText ((s.hart h).cpu.x .ra)) (hnext : s.live next = true)
    (haway : ∀ h', (s.hart h').cur ≠ next) : Inv image (s.switch h image next) := by
  obtain ⟨hscratch, htp, hroom, hle, hpending⟩ := hi.inC hc
  obtain ⟨m, hsw, heq⟩ := @State.switch_switched _ _ image s h _ next htp (haway h).symm
  rw [heq]
  clear heq
  set s' : State H w := { s with
    hart := Function.update s.hart h ⟨m.cpu, m.x .ra, false, next⟩
    mem := m.mem
    task := m.task } with hs'
  have hmem : s'.mem = s.mem := hsw.mem
  have hhart : s'.hart h = ⟨m.cpu, m.x .ra, false, next⟩ := Function.update_self ..
  have hother : ∀ t, t ≠ (s.hart h).cur → s'.task t = s.task t := hsw.other
  have hstack : ∀ t, (s'.task t).stack = (s.task t).stack := by
    intro t
    by_cases ht : t = (s.hart h).cur
    · rw [ht]
      exact hsw.saved.2.2
    · rw [hother t ht]
  have hhart' : ∀ h', h' ≠ h → s'.hart h' = s.hart h' := fun h' hh => Function.update_of_ne hh _ _
  have hne : ∀ h', h' ≠ h → (s.hart h').cur ≠ (s.hart h).cur :=
    fun h' hh heq => hh (hi.alone _ _ heq)
  constructor
  case stackOk =>
    intro p hp
    rw [hstack]
    exact hi.stackOk p hp
  case apart =>
    intro p q hp hq heq
    rw [hstack, hstack] at heq
    exact hi.apart p q hp hq heq
  case info =>
    intro p hp
    rw [hmem, hstack]
    exact hi.info p hp
  case chain =>
    intro p hp
    rw [hmem, hstack]
    exact hi.chain p hp
  case live =>
    intro h'
    by_cases hh : h' = h
    · rw [hh, hhart]
      exact hnext
    · rw [hhart' h' hh]
      exact hi.live h'
  case user =>
    intro h' hu
    by_cases hh : h' = h
    · rw [hh, hhart] at hu
      cases hu
    · rw [hhart' h' hh] at hu
      rw [State.stack, hhart' h' hh, hstack]
      exact hi.user h' hu
  case kernel =>
    intro h' hu
    by_cases hh : h' = h
    · rw [State.stack, hh, hhart, hmem, hstack]
      refine ⟨(congrFun hsw.csr _).trans hscratch, ?_⟩
      show Ctx _ _ _ _ _ (m.x .ra) m.x (m.csr .sstatus)
      rw [hsw.ra]
      exact hi.parked next hnext haway _ _ hsw.sp hsw.tp
    · rw [hhart' h' hh] at hu
      rw [State.stack, hhart' h' hh, hmem, hstack]
      exact hi.kernel h' hu
  case parked =>
    intro p hp haway' x v hsp hxtp
    rw [hmem, hstack]
    by_cases hpc : p = (s.hart h).cur
    · subst hpc
      have hpc : (s'.task (s.hart h).cur).ra = (s.hart h).cpu.x .ra := hsw.saved.1
      replace hsp : x .sp = (s.hart h).cpu.x .sp := hsp.trans hsw.saved.2.1
      rw [hpc]
      exact Or.inr ⟨hra, hxtp, by rw [hsp]; exact hroom, by rw [hsp]; exact hle, hpending⟩
    · rw [hother p hpc] at hsp ⊢
      refine hi.parked p hp (fun h' heq => ?_) x v hsp hxtp
      by_cases hh : h' = h
      · exact hpc (heq.symm.trans (congrArg (fun h => (s.hart h).cur) hh))
      · exact haway' h' ((congrArg Hart.cur (hhart' h' hh)).trans heq)
  case alone =>
    intro h₁ h₂ heq
    by_cases hh₁ : h₁ = h
    · by_cases hh₂ : h₂ = h
      · exact hh₁.trans hh₂.symm
      · rw [hh₁, hhart, hhart' h₂ hh₂] at heq
        exact absurd heq.symm (haway h₂)
    · by_cases hh₂ : h₂ = h
      · rw [hh₂, hhart, hhart' h₁ hh₁] at heq
        exact absurd heq (haway h₁)
      · rw [hhart' h₁ hh₁, hhart' h₂ hh₂] at heq
        exact hi.alone h₁ h₂ heq

end Tasks

/-- **`copy_thread`**: a new task waits at `ret_from_fork` or at `ret_from_kernel_thread`. -/
theorem Inv.copyThread (hi : Inv image s) {c : Clone w} {parent : PtRegs w} {gp : Word w}
    (hfresh : s.live c.child = false) (hok : StackOk c.stack)
    (hapart : ∀ p, s.live p = true → (s.task p).stack ≠ c.stack)
    (hparent : c.kthread = false → UserStatus parent.sstatus)
    (hframe : frameAt mem (taskPtRegs c.stack) = c.regs parent gp)
    (hinfo : loadWord (szreg w) mem c.stack = c.child)
    (hagree : ∀ lo hi, hi ≤ c.stack.toNat ∨ c.stack.toNat + threadSize ≤ lo →
      Agree s.mem mem lo hi) : Inv image (s.clone image c (c.regs parent gp) mem) := by
  obtain ⟨hmasked, hps⟩ := c.regs_masked gp hparent
  have hspared : ∀ p, s.live p = true → Spared s mem p := fun p hp =>
    hi.spared_of_stack hok hagree hp (hapart p hp)
  set s' := s.clone image c (c.regs parent gp) mem with hs'
  have hne : ∀ p, s.live p = true → p ≠ c.child := by
    rintro p hp rfl
    rw [hfresh] at hp
    cases hp
  have hlive : ∀ p, p ≠ c.child → s'.live p = true → s.live p = true := fun p hp h =>
    (Function.update_of_ne hp _ _).symm.trans h
  have htask : ∀ p, p ≠ c.child → s'.task p = s.task p := fun p hp => Function.update_of_ne hp _ _
  have hlevels : ∀ p, p ≠ c.child → s'.levels p = s.levels p := fun p hp =>
    Function.update_of_ne hp _ _
  have hchild : s'.task c.child = c.task image (s.task c.child) := Function.update_self ..
  have hchildLevels : s'.levels c.child = [{ base := taskPtRegs c.stack, saved := c.regs parent gp
                                             user := true, progress := .fresh, wrote := true
                                             ret := 0 }] := Function.update_self ..
  have hlevel : LevelOk image c.child c.stack mem _ [] := LevelOk.child hok hframe hmasked
  have hcur : ∀ h, (s.hart h).cur ≠ c.child := fun h => hne _ (hi.live h)
  have hstack : ∀ h, s'.stack h = s.stack h := fun h =>
    congrArg TaskStruct.stack (htask _ (hcur h))
  have hlevelsAt : ∀ h, s'.levels (s'.hart h).cur = s.levels (s.hart h).cur := fun h =>
    hlevels _ (hcur h)
  constructor
  case stackOk =>
    intro p hp
    by_cases hpc : p = c.child
    · rw [hpc, hchild]
      exact hok
    · rw [htask p hpc]
      exact hi.stackOk p (hlive p hpc hp)
  case apart =>
    intro p q hp hq heq
    by_cases hpc : p = c.child
    · by_cases hqc : q = c.child
      · exact hpc.trans hqc.symm
      · rw [hpc, hchild, htask q hqc] at heq
        exact absurd heq.symm (hapart q (hlive q hqc hq))
    · by_cases hqc : q = c.child
      · rw [hqc, hchild, htask p hpc] at heq
        exact absurd heq (hapart p (hlive p hpc hp))
      · rw [htask p hpc, htask q hqc] at heq
        exact hi.apart p q (hlive p hpc hp) (hlive q hqc hq) heq
  case info =>
    intro p hp
    by_cases hpc : p = c.child
    · rw [hpc, hchild]
      exact hinfo
    · rw [htask p hpc]
      exact (hspared p (hlive p hpc hp)).info
  case chain =>
    intro p hp
    by_cases hpc : p = c.child
    · rw [hpc, hchild, hchildLevels]
      exact ⟨hlevel, trivial⟩
    · rw [htask p hpc, hlevels p hpc]
      have hold := hlive p hpc hp
      exact (hi.chain p hold).touched (hspared p hold).frames.touched
  case live => exact fun h => (Function.update_of_ne (hcur h) _ _).trans (hi.live h)
  case user =>
    intro h hu
    rw [hstack, hlevelsAt]
    exact hi.user h hu
  case kernel =>
    intro h hu
    obtain ⟨hscratch, hctx⟩ := hi.kernel h hu
    rw [hstack, hlevelsAt]
    exact ⟨hscratch, hctx.touched (hspared _ (hi.live h)).frames.touched⟩
  case parked =>
    intro p hp haway x v hsp htp
    by_cases hpc : p = c.child
    · rw [hpc, hchild] at hsp ⊢
      rw [hchildLevels]
      rw [hpc] at htp
      refine Or.inl ⟨_, Label.index_lt _, image.sym_label _, _, _, rfl, hsp, fun f hf => ?_⟩
      have hfacts : f = .tpCurrent ∨ f = .settled ∨ (c.kthread = false ∧ f = .userFrame) := by
        cases hk : c.kthread with
        | true =>
          rw [hk, if_pos rfl, factsAt_retFromKernelThread] at hf
          simpa using hf
        | false =>
          rw [hk, if_neg Bool.false_ne_true, factsAt_retFromFork] at hf
          simpa using hf
      rcases hfacts with rfl | rfl | ⟨hk, rfl⟩
      · exact htp
      · exact fun hw => Bool.noConfusion hw
      · intro _
        show (frameAt mem (taskPtRegs c.stack)).sstatus &&& srPs = 0
        rw [hframe]
        exact hps hk
    · rw [htask p hpc] at hsp ⊢
      rw [hlevels p hpc]
      have hold := hlive p hpc hp
      exact (hi.parked p hold haway x v hsp htp).touched (hspared p hold).frames.touched
  case alone => exact hi.alone

/-! ## All steps -/

/-- **Every step keeps the invariant.** -/
theorem Inv.step [DecidableEq H] {a : Act H w} (hi : Inv image s) (h : Step image s a s') :
    Inv image s' := by
  cases a with
  | trap h scause sbadaddr =>
    obtain ⟨hguard, rfl⟩ := h
    exact hi.trap hguard
  | line h =>
    obtain ⟨hu, i, ln, l, rest, hpc, hline, hlevels, hstep⟩ := h
    exact hi.line hu hpc hline hlevels hstep
  | user h x sstatus pc mem =>
    obtain ⟨hu, hk, rfl⟩ := h
    refine hi.run hk fun hf => ?_
    rw [hu] at hf
    cases hf
  | c h x sstatus pc mem task =>
    obtain ⟨hc, hpc, htp, hroom, hle, hk, rfl⟩ := h
    exact hi.c hc hpc htp hroom hle hk
  | cRet h x sstatus =>
    obtain ⟨hc, htp, l, hl, hsp, huser, rfl⟩ := h
    exact hi.cRet hc htp hl hsp huser
  | writeFrame h p k regs mem =>
    obtain ⟨-, hp, l, hk, hw, hframe, hagree, rfl⟩ := h
    rw [← hframe] at hw
    exact hi.writeFrame hp hk hw hagree
  | switchTo h next =>
    obtain ⟨hc, hra, hnext, haway, rfl⟩ := h
    exact hi.switchTo hc hra hnext haway
  | copyThread h c mem =>
    obtain ⟨-, hfresh, hok, hapart, hparent, hframe, hinfo, hagree, rfl⟩ := h
    exact hi.copyThread hfresh hok hapart hparent hframe hinfo hagree
  | freeTask h p =>
    obtain ⟨-, haway, rfl⟩ := h
    exact hi.freeTask haway

end LowriscLinux.Kernel.Entry
