import LowriscLinux.Kernel.Nesting

/-!
# The steps of the trap code

The invariant of `Nesting` is kept by traps, by the lines of the trap code and by the returns
(`arch/riscv/kernel/entry.S`, lines 113-256).

* A trap (lines 114-118): `Trapped` says what it has done when `csrw sscratch, x0` is behind it. The
  frame is at `task_pt_regs` if the trap came from user mode, as `sscratch` has the end of the stack
  then, and below the stack pointer otherwise.
* A line: `Here` is a hart at a line with its facts, in its innermost trap. The instruction keeps
  the frames of all traps but for the stores to its own (lines 161 and 184), and gives the facts of
  the next line; a call leaves a `Pending` function.
* A return (lines 207-209): `Returned` says that it has loaded the registers that the frame holds,
  and that interrupts were disabled. The trap is gone, and the context that its frame held goes on.

Results:
* `Inv.trapped`, `Inv.trap`: a trap stores the interrupted registers on the stack of its task.
* `Inv.line`: so do the lines of the trap code keep the invariant, by the facts at each line.
* `Inv.returned`: a line that leads to `sret` restores what the frame holds.
-/

namespace LowriscLinux.Kernel.Entry

open Lib

variable {w : Xlen} {H : Type} {image : Image w} {s s' : State H w} {h : H} {l : Level w}
  {levels rest : List (Level w)}

/-! ## Contexts -/

section Context

variable {task stack pc v v' : Word w} {mem : Memory (8 * szreg w)} {x : Reg → Word w}

theorem Ctx.sp_le (hc : Ctx image task stack mem levels pc x v) :
    (x .sp).toNat ≤ limit stack levels := by
  rcases hc with ⟨i, hi, hpc, l, rest, rfl, hsp, hfacts⟩ | ⟨hpc, htp, hroom, hle, hpending⟩
  · exact le_of_eq (congrArg BitVec.toNat hsp)
  · exact hle

/-- Only `SR_IE` of the status matters. -/
theorem Ctx.status (hc : Ctx image task stack mem levels pc x v)
    (hv : v &&& srIe = 0 → v' &&& srIe = 0) : Ctx image task stack mem levels pc x v' := by
  rcases hc with ⟨i, hi, hpc, l, rest, rfl, hsp, hfacts⟩ | hc
  · refine Or.inl ⟨i, hi, hpc, l, rest, rfl, hsp, fun f hf => ?_⟩
    have hold := hfacts f hf
    cases f
    case irqOff => exact hv hold
    all_goals exact hold
  · exact Or.inr hc

/-- Context at a line of the listing. -/
theorem Ctx.line {i : Nat} (hc : Ctx image task stack mem levels (image.addr i) x v)
    (hi : i < (text : List (Line w)).length) : ∃ l rest, levels = l :: rest ∧ x .sp = l.base ∧
      ∀ f ∈ factsAt i, f.Holds image task stack l mem x v := by
  rcases hc with ⟨j, hj, hpc, hc⟩ | ⟨hpc, -⟩
  · obtain rfl := image.addr_inj i j hi hj hpc
    exact hc
  · exact absurd ⟨i, hi, rfl⟩ hpc

end Context

/-- Interrupts are enabled after a trap has returned iff they were before. -/
theorem and_srIe_trap (user : Bool) (v : Word w) :
    sretStatus (csrStatus (trapStatus user v)) &&& srIe = 0 ↔ v &&& srIe = 0 := by
  rw [and_srIe_eq_zero, and_srIe_eq_zero, getLsbD_sretStatus, if_neg (by decide),
    if_neg (by decide), if_pos rfl, getLsbD_csrStatus (by decide), getLsbD_trapStatus,
    if_neg (by decide), if_pos rfl]

theorem and_srPs_trap (user : Bool) (v : Word w) :
    trapStatus user v &&& srPs = 0 ↔ user = true := by
  rw [and_srPs_eq_zero, getLsbD_trapStatus, if_pos rfl, Bool.not_eq_false']

/-- The hardware disables interrupts on a trap. -/
theorem and_srIe_trapStatus (user : Bool) (v : Word w) : trapStatus user v &&& srIe = 0 := by
  rw [and_srIe_eq_zero, getLsbD_trapStatus, if_neg (by decide), if_neg (by decide), if_pos rfl]

theorem and_srPs_csrStatus (v : Word w) : csrStatus v &&& srPs = 0 ↔ v &&& srPs = 0 := by
  rw [and_srPs_eq_zero, and_srPs_eq_zero, getLsbD_csrStatus (by decide)]

/-! ## Traps -/

/-- What a trap has done when `csrw sscratch, x0` is behind it. -/
structure Trapped (s : State H w) (h : H) (scause sbadaddr : Word w) (m : Machine w) : Prop where
  user : (s.hart h).user = true → m.x .sp = taskPtRegs (s.stack h)
  kernel : (s.hart h).user = false →
    (m.x .sp).toNat + ptSize w = ((s.hart h).cpu.x .sp).toNat
  room : (s.stack h).toNat + tiSize w ≤ (m.x .sp).toNat
  below : (m.x .sp).toNat + ptSize w ≤ limit (s.stack h) (s.levels (s.hart h).cur)
  sscratch : m.csr .sscratch = 0
  s2 : m.x .s2 = (s.hart h).pc
  s4 : m.x .s4 = scause
  task : m.task = s.task
  frame : frameAt m.mem (m.x .sp) = s.interrupted h scause sbadaddr
  agree : ∀ lo hi, hi ≤ (m.x .sp).toNat ∨ (m.x .sp).toNat + ptSize w ≤ lo →
    Agree s.mem m.mem lo hi

theorem Inv.trapped (hi : Inv image s) (scause sbadaddr : Word w)
    (hroom : (s.hart h).user = false →
      (s.stack h).toNat + tiSize w + ptSize w ≤ ((s.hart h).cpu.x .sp).toNat) :
    Trapped s h scause sbadaddr ((Instr.csrwx0 .sscratch).exec image.sym
      (saveAll image.sym (s.trapped h scause sbadaddr))) := by
  have hok : StackOk (s.stack h) := hi.stackOk _ (hi.live h)
  have htop := hok.toNat_top
  have hregs := hok.toNat_taskPtRegs
  have hsize := tiSize_add_ptSize_le w
  have hpos : 0 < threadSize := by decide
  obtain ⟨m, hm⟩ : ∃ m, m = saveAll image.sym (s.trapped h scause sbadaddr) := ⟨_, rfl⟩
  rw [← hm]
  cases hu : (s.hart h).user with
  | true =>
    obtain ⟨hscratch, hlevels⟩ := hi.user h hu
    have hne : (s.trapped h scause sbadaddr).csr .sscratch ≠ 0 := by
      intro h0
      have hzero : stackTop (s.stack h) = 0 := hscratch.symm.trans h0
      rw [hzero] at htop
      simp at htop
      omega
    have hsaved := saveAll_saved image.sym (if_neg hne).symm
      (show ptSize w ≤ ((s.hart h).cpu.csr .sscratch).toNat by rw [hscratch]; omega)
    rw [← hm] at hsaved
    have hbase : m.x .sp = taskPtRegs (s.stack h) := hsaved.sp.trans (by
      show (s.hart h).cpu.csr .sscratch + _ = _
      rw [hscratch]
      rfl)
    have hframe := hsaved.frame
    have hagree := hsaved.agree
    rw [← hsaved.sp] at hframe hagree
    refine ⟨fun _ => hbase, fun hk => ?_, ?_, ?_, rfl, hsaved.s2, hsaved.s4, hsaved.task, hframe,
      hagree⟩
    · rw [hu] at hk
      cases hk
    · show _ ≤ (m.x .sp).toNat
      rw [hbase]
      omega
    · show (m.x .sp).toNat + _ ≤ _
      rw [hbase, hlevels]
      exact le_of_eq hregs
  | false =>
    obtain ⟨hscratch, hctx⟩ := hi.kernel h hu
    have hsp := hroom hu
    have hsaved := saveAll_saved image.sym
      (if_pos (show (s.trapped h scause sbadaddr).csr .sscratch = 0 from hscratch)).symm
      (show ptSize w ≤ ((s.hart h).cpu.x .sp).toNat by omega)
    rw [← hm] at hsaved
    have hbase : (m.x .sp).toNat + ptSize w = ((s.hart h).cpu.x .sp).toNat := by
      have hval := toNat_sub_ptSize (show ptSize w ≤ ((s.hart h).cpu.x .sp).toNat by omega)
      rw [hsaved.sp]
      show ((s.hart h).cpu.x .sp + -BitVec.ofNat _ (ptSize w)).toNat + _ = _
      omega
    have hframe := hsaved.frame
    have hagree := hsaved.agree
    rw [← hsaved.sp] at hframe hagree
    refine ⟨fun hk => ?_, fun _ => hbase, ?_, ?_, rfl, hsaved.s2, hsaved.s4, hsaved.task, hframe,
      hagree⟩
    · rw [hu] at hk
      cases hk
    · show _ ≤ (m.x .sp).toNat
      omega
    · show (m.x .sp).toNat + _ ≤ _
      rw [hbase]
      exact hctx.sp_le

/-- The trap that is pushed. -/
def State.pushed (s : State H w) (h : H) (scause sbadaddr base : Word w) : Level w where
  base := base
  saved := s.interrupted h scause sbadaddr
  user := (s.hart h).user
  progress := .fresh
  wrote := false
  ret := 0

variable [DecidableEq H] in
/-- A trap keeps the invariant. -/
theorem Inv.trap (hi : Inv image s) {scause sbadaddr : Word w}
    (hguard : (s.hart h).user = false → scause ≠ excSyscall ∧
      (s.stack h).toNat + tiSize w + ptSize w ≤ ((s.hart h).cpu.x .sp).toNat) :
    Inv image (s.trap h image scause sbadaddr) := by
  have ht := hi.trapped scause sbadaddr fun hu => (hguard hu).2
  have hchain : Chain image (s.hart h).cur (s.stack h) s.mem (s.levels (s.hart h).cur) :=
    hi.chain _ (hi.live h)
  have hok : StackOk (s.stack h) := hi.stackOk _ (hi.live h)
  obtain ⟨m, hm⟩ : ∃ m, m = (Instr.csrwx0 .sscratch).exec image.sym
    (saveAll image.sym (s.trapped h scause sbadaddr)) := ⟨_, rfl⟩
  rw [← hm] at ht
  have hframes : SameFrames s.mem m.mem (s.levels (s.hart h).cur) :=
    hchain.sameFrames hok ht.below (ht.agree _ _ (Or.inr (Nat.le_refl _)))
  have htop : (m.x .sp).toNat + ptSize w ≤ (s.stack h).toNat + threadSize :=
    Nat.le_trans ht.below hchain.limit_le
  obtain ⟨hothers, hinfo⟩ := hi.others_of_frame ht.room htop ht.agree ht.task
  have hstatus : (frameAt m.mem (m.x .sp)).sstatus
      = trapStatus (s.hart h).user ((s.hart h).cpu.csr .sstatus) := by rw [ht.frame]; rfl
  have hlevel : LevelOk image (s.hart h).cur (s.stack h) m.mem
      (s.pushed h scause sbadaddr (m.x .sp)) (s.levels (s.hart h).cur) := by
    refine ⟨ht.room, ht.below, fun hu => ?_, fun hu => ?_, ?_, fun hs => ?_, fun _ => rfl,
      fun _ => ht.frame⟩
    · obtain ⟨-, hlevels⟩ := hi.user h hu
      refine ⟨hlevels, ?_⟩
      show (m.x .sp).toNat + _ = _
      rw [ht.user hu]
      exact hok.toNat_taskPtRegs
    · show (frameAt m.mem (m.x .sp)).sstatus &&& srPs ≠ 0 ∧ Ctx _ _ _ _ _
        (frameAt m.mem (m.x .sp)).sepc (frameAt m.mem (m.x .sp)).x
        (sretStatus (csrStatus (frameAt m.mem (m.x .sp)).sstatus))
      rw [hstatus, ht.frame]
      have hu' : (s.hart h).user = false := hu
      refine ⟨fun h0 => ?_, ?_⟩
      · rw [and_srPs_trap, hu'] at h0
        cases h0
      · exact ((hi.kernel h hu').2.touched hframes.touched).status (and_srIe_trap _ _).mpr
    · show (frameAt m.mem (m.x .sp)).sstatus &&& srIe = 0
      rw [hstatus]
      exact and_srIe_trapStatus _ _
    · by_contra hu
      exact (hguard (Bool.eq_false_iff.mpr hu)).1 hs
  have hput : s.trap h image scause sbadaddr = s.put h m (image.addr 0) false
      (s.pushed h scause sbadaddr (m.x .sp) :: s.levels (s.hart h).cur) := by
    rw [hm]
    rfl
  rw [hput]
  refine hi.put hothers hinfo ⟨hlevel, hchain.touched hframes.touched⟩
    (fun hu => Bool.noConfusion hu) fun _ => ⟨ht.sscratch, Or.inl ?_⟩
  refine ⟨0, by cases w <;> decide, rfl, _, _, rfl, rfl, fun f hf => ?_⟩
  have hfacts : factsAt 0 = [.s2Sepc, .s4Scause, .fresh, .userFrame] := by decide
  rw [hfacts] at hf
  simp only [List.mem_cons, List.not_mem_nil, or_false] at hf
  rcases hf with rfl | rfl | rfl | rfl
  · exact ht.s2
  · exact ht.s4
  · rfl
  · intro hu
    show (frameAt m.mem (m.x .sp)).sstatus &&& srPs = 0
    rw [hstatus, and_srPs_trap]
    exact hu

/-! ## Lines -/

theorem Label.index_lt (l : Label) : l.index w < (text : List (Line w)).length := by
  cases w <;> cases l <;> decide

/-- The last line is a jump, and every other line has a next one. -/
theorem succ_lt {i : Nat} {line : Line w} (hline : text[i]? = some line)
    (hjump : line ≠ .jr .s0) : i + 1 < (text : List (Line w)).length := by
  have hi := (List.getElem?_eq_some_iff.mp hline).1
  by_contra hge
  have hlast : i = (text : List (Line w)).length - 1 := by omega
  rw [hlast] at hline
  exact hjump (Option.some.inj hline).symm

theorem Line.ok_of_getElem? {i : Nat} {line : Line w} (hline : text[i]? = some line) :
    line.ok i = true :=
  text_ok i (List.getElem?_eq_some_iff.mp hline).1 line hline

/-- An instruction that stores is in a system call. -/
theorem Instr.plain_or_syscall {i : Instr w} {pre : List Fact} (h : i.allowed pre = true) :
    (i.isStore = false ∧ i ≠ store .s2 .sepc ∧ i ≠ store .a0 (.x .a0)) ∨ .syscall ∈ pre := by
  unfold Instr.allowed at h
  split_ifs at h with h₁ h₂
  · simp only [decide_eq_true_eq] at h
    exact Or.inr h.2.2
  · simp only [decide_eq_true_eq] at h
    exact Or.inr h.2
  · simp only [decide_eq_true_eq] at h
    exact Or.inl ⟨h.1, h₁, h₂⟩

section Level

variable {task stack : Word w} {m m' : Machine w} {i : Instr w} {pre : List Fact}

theorem Level.note_base (l : Level w) (m : Machine w) (i : Instr w) :
    (l.note m i).base = l.base := by
  unfold Level.note
  split_ifs <;> rfl

/-- A trap after an instruction of the trap code. -/
theorem LevelOk.note (hl : LevelOk image task stack m.mem l rest) (hok : StackOk stack)
    (hrest : Chain image task stack m.mem rest)
    (hallowed : i.allowed pre = true)
    (hcall : .syscall ∈ pre → l.saved.scause = excSyscall)
    (hs : Stepped l (l.note m i) m (i.exec image.sym m)) :
    LevelOk image task stack (i.exec image.sym m).mem (l.note m i) rest := by
  have hbase := l.note_base m i
  have hframes : SameFrames m.mem (i.exec image.sym m).mem rest :=
    hrest.sameFrames hok hl.below (hs.agree _ _ (Or.inr (Nat.le_refl _)))
  have huser : (l.note m i).user = l.user := by unfold Level.note; split_ifs <;> rfl
  have hsaved : (l.note m i).saved = l.saved := by unfold Level.note; split_ifs <;> rfl
  have hwrote : (l.note m i).wrote = l.wrote := by unfold Level.note; split_ifs <;> rfl
  constructor
  case room => rw [hbase]; exact hl.room
  case below => rw [hbase]; exact hl.below
  case outer => rw [huser, hbase]; exact hl.outer
  case kernel =>
    rw [huser, hbase]
    intro hu
    rcases Instr.plain_or_syscall hallowed with ⟨hstore, -⟩ | hsys
    · rw [(Instr.exec_plain image.sym m hstore).1]
      exact hl.kernel hu
    · rw [hl.call (hcall hsys)] at hu
      cases hu
  case masked => rw [hbase, hs.sstatus]; exact hl.masked
  case call => rw [hsaved, huser]; exact hl.call
  case fresh =>
    rw [hsaved]
    intro hne
    rcases Instr.plain_or_syscall hallowed with ⟨-, h₁, h₂⟩ | hsys
    · rw [Level.note, if_neg h₁, if_neg h₂]
      exact hl.fresh hne
    · exact absurd (hcall hsys) hne
  case due =>
    rw [hwrote, hbase]
    exact fun hw => hs.due (hl.due hw)

end Level

/-- A hart at a line of the trap code. -/
structure Here (image : Image w) (s : State H w) (h : H) (i : Nat) (l : Level w)
    (rest : List (Level w)) : Prop where
  scratch : (s.hart h).cpu.csr .sscratch = 0
  sp : (s.hart h).cpu.x .sp = l.base
  facts : ∀ f ∈ factsAt i, f.Holds image (s.hart h).cur (s.stack h) l s.mem (s.hart h).cpu.x
    ((s.hart h).cpu.csr .sstatus)
  level : LevelOk image (s.hart h).cur (s.stack h) s.mem l rest
  chain : Chain image (s.hart h).cur (s.stack h) s.mem rest
  laid : l.Laid (s.hart h).cur (s.stack h) s.mem

theorem Inv.here (hi : Inv image s) {i : Nat} {line : Line w} (hu : (s.hart h).user = false)
    (hpc : (s.hart h).pc = image.addr i) (hline : text[i]? = some line)
    (hlevels : s.levels (s.hart h).cur = l :: rest) : Here image s h i l rest := by
  obtain ⟨hscratch, hctx⟩ := hi.kernel h hu
  rw [hpc] at hctx
  obtain ⟨l', rest', heq, hsp, hfacts⟩ := hctx.line (List.getElem?_eq_some_iff.mp hline).1
  obtain ⟨rfl, rfl⟩ := List.cons.inj (hlevels.symm.trans heq)
  have hchain := hi.chain _ (hi.live h)
  rw [hlevels] at hchain
  exact ⟨hscratch, hsp, hfacts, hchain.1, hchain.2, hi.laid (hi.live h) hlevels⟩

section Lines

variable [DecidableEq H] {m : Machine w} {pc : Word w} {i : Nat} {ln : Line w}

/-- A step that leaves memory and the tasks as they are. -/
theorem Inv.still (hi : Inv image s) (hmem : m.mem = s.mem) (htask : m.task = s.task) {user : Bool}
    (hchain : Chain image (s.hart h).cur (s.stack h) s.mem levels)
    (huser : user = true → m.csr .sscratch = stackTop (s.stack h) ∧ levels = [])
    (hkernel : user = false → m.csr .sscratch = 0 ∧
      Ctx image (s.hart h).cur (s.stack h) s.mem levels pc m.x (m.csr .sstatus)) :
    Inv image (s.put h m pc user levels) := by
  refine hi.put ⟨fun p hp _ => ⟨fun l _ => ?_, ?_⟩, fun p _ => ?_, fun p _ _ => ?_⟩ ?_ ?_ huser ?_
  · rw [hmem]
  · rw [hmem]
    exact hi.info p hp
  · rw [htask]
  · rw [htask]
  · rw [hmem]
    exact hi.info _ (hi.live h)
  · rw [hmem]
    exact hchain
  · rw [hmem]
    exact hkernel

/-- From a line to another one. -/
theorem Here.jump (hh : Here image s h i l rest) (hi : Inv image s) {j : Nat}
    (hj : j < (text : List (Line w)).length)
    (hfacts : ∀ f ∈ factsAt j, f.Holds image (s.hart h).cur (s.stack h) l s.mem
      (s.hart h).cpu.x ((s.hart h).cpu.csr .sstatus)) :
    Inv image (s.put h (s.machine h) (image.addr j) false (l :: rest)) :=
  hi.still rfl rfl ⟨hh.level, hh.chain⟩ (fun hu => Bool.noConfusion hu) fun _ =>
    ⟨hh.scratch, Or.inl ⟨j, hj, rfl, l, rest, rfl, hh.sp, hfacts⟩⟩

theorem Fact.Holds.ret {f : Fact} {task stack v : Word w} {mem : Memory (8 * szreg w)}
    {x : Reg → Word w} (hf : f.Holds image task stack l mem x v) (ret : Word w) :
    f.Holds image task stack { l with ret := ret } mem x v := by
  cases f <;> exact hf

/-- From a line into C code. -/
theorem Here.toC (hh : Here image s h i l rest) (hi : Inv image s) (m : Machine w)
    (hmem : m.mem = s.mem) (htask : m.task = s.task) (hscratch : m.csr .sscratch = 0)
    (hsp : m.x .sp = l.base) (htp : m.x .tp = (s.hart h).cur) (hpc : ¬image.InText pc)
    {j : Nat} {toRet : Bool} (hj : j < (text : List (Line w)).length)
    (hreturns : returns (factsAt i) (factsAt j) toRet = true)
    (htoRet : toRet = true → image.addr j = image.sym (.label .retFromException)) :
    Inv image (s.put h m pc false ({ l with ret := image.addr j } :: rest)) := by
  have hl := hh.level
  refine hi.still hmem htask ⟨⟨hl.room, hl.below, hl.outer, hl.kernel, hl.masked, hl.call, hl.fresh,
    hl.due⟩, hh.chain⟩ (fun hu => Bool.noConfusion hu) fun _ => ⟨hscratch, Or.inr ?_⟩
  have hroom := hl.room
  refine ⟨hpc, htp, by rwa [hsp], by rw [hsp]; exact Nat.le_refl _, fun l' hl' => ?_⟩
  obtain rfl := Option.some.inj hl'
  refine ⟨j, hj, rfl, fun f hf => ?_⟩
  simp only [returns, List.all_eq_true, decide_eq_true_eq] at hreturns
  rcases hreturns f hf with htpc | ⟨huser, hret⟩ | ⟨hlasts, hpre⟩
  · exact Or.inl htpc
  · exact Or.inr (Or.inl ⟨huser, htoRet hret⟩)
  · have hlasts' := hlasts
    simp only [Fact.lasts, decide_eq_true_eq] at hlasts'
    refine Or.inr (Or.inr ⟨hlasts, ((hh.facts f hpre).congr (fun r hr => ?_) fun heq => ?_).ret _⟩)
    · rw [hlasts'.1] at hr
      cases hr
    · exact absurd heq hlasts'.2

/-- The effect of an instruction. -/
theorem Here.instr (hh : Here image s h i l rest) (hi : Inv image s) {ins : Instr w}
    (hi1 : i + 1 < (text : List (Line w)).length)
    (hallowed : ins.allowed (factsAt i) = true)
    (hleaves : ins.leaves (factsAt i) (factsAt (i + 1)) = true) :
    Inv image (s.put h (ins.exec image.sym (s.machine h)) (image.addr (i + 1)) false
      (l.note (s.machine h) ins :: rest)) := by
  have hok : StackOk (s.stack h) := hi.stackOk _ (hi.live h)
  obtain ⟨hs, hpost⟩ :=
    @Instr.sound _ image _ _ l (s.machine h) ins _ _ hallowed hh.sp hh.laid hh.facts hleaves
  have hl := hh.level
  have hlimit := hh.chain.limit_le
  obtain ⟨hothers, hinfo⟩ := hi.others_of_frame hl.room (Nat.le_trans hl.below hlimit) hs.agree
    hs.task
  have hframes := hh.chain.sameFrames hok hl.below (hs.agree _ _ (Or.inr (Nat.le_refl _)))
  have hnote := LevelOk.note hl hok hh.chain hallowed (fun hsys => hh.facts _ hsys) hs
  refine hi.put hothers hinfo ⟨hnote, hh.chain.touched hframes.touched⟩
    (fun hu => Bool.noConfusion hu) fun _ => ⟨hs.sscratch.trans hh.scratch, Or.inl ?_⟩
  exact ⟨i + 1, hi1, rfl, _, _, rfl, hs.sp.trans (l.note_base _ _).symm, hpost⟩

/-! ## Returns -/

/-- What a line has done that leads to `sret`. -/
structure Returned (s : State H w) (h : H) (l : Level w) (m : Machine w) : Prop where
  x : m.x = (frameAt s.mem l.base).x
  sstatus : m.csr .sstatus = csrStatus (frameAt s.mem l.base).sstatus
  sepc : m.csr .sepc = (frameAt s.mem l.base).sepc
  sscratch : m.csr .sscratch = if l.user then stackTop (s.stack h) else 0
  mem : m.mem = s.mem
  task : m.task = s.task
  status : (frameAt s.mem l.base).sstatus &&& srPs = 0 ↔ l.user = true
  irqOff : (s.hart h).cpu.csr .sstatus &&& srIe = 0
  settled : l.wrote = false → l.saved.scause = excSyscall → ∃ ret, l.progress = .returned ret

omit [DecidableEq H] in
/-- **The lines that lead to `sret`** load the registers from the frame of the trap. -/
theorem Here.returned (hh : Here image s h i l rest) (hs : StackOk (s.stack h))
    {is : List (Instr w)} (hok : (Line.exit is).ok i = true) :
    Returned s h l (execAll image.sym (s.machine h) is) := by
  simp only [Line.ok, decide_eq_true_eq] at hok
  obtain ⟨hsettled, hirq, ⟨rfl, hk⟩ | ⟨rfl, hu, htop, hframe⟩⟩ := hok
  · have hkernel : l.user = false := hh.facts _ hk
    have hr := restoreAll_restored image.sym (s.machine h)
    rw [show (s.machine h).x .sp = l.base from hh.sp] at hr
    refine ⟨hr.x, hr.sstatus, hr.sepc, hr.sscratch.trans ?_, hr.mem, hr.task, ?_, hh.facts _ hirq,
      hh.facts _ hsettled⟩
    · rw [hkernel]
      exact hh.scratch
    · rw [hkernel]
      exact iff_of_false (hh.level.kernel hkernel).1 Bool.false_ne_true
  · have huser : l.user = true := hh.facts _ hu
    have hs0 : (s.hart h).cpu.x .s0 = l.base + BitVec.ofNat _ (ptSize w) := hh.facts _ htop
    have hpast : l.base + BitVec.ofNat _ (ptSize w) = stackTop (s.stack h) := by
      refine BitVec.eq_of_toNat_eq ?_
      rw [toNat_add_lt hh.laid.fit, hs.toNat_top]
      exact (hh.level.outer huser).2
    have hr := restoreAll_restored image.sym ((Instr.csrw .sscratch .s0).exec image.sym (s.machine h))
    rw [show ((Instr.csrw .sscratch .s0).exec image.sym (s.machine h)).x .sp = l.base from hh.sp]
      at hr
    refine ⟨hr.x, hr.sstatus, hr.sepc, hr.sscratch.trans ?_, hr.mem, hr.task, ?_, hh.facts _ hirq,
      hh.facts _ hsettled⟩
    · rw [huser, if_pos rfl, ← hpast, ← hs0]
      simp [Instr.exec, State.machine, Machine.x]
    · exact iff_of_true (hh.facts _ hframe huser) huser

/-- `sret` keeps the invariant. -/
theorem Here.sret (hh : Here image s h i l rest) (hi : Inv image s) (hr : Returned s h l m) :
    Inv image (s.sret h m rest) := by
  have hps : m.csr .sstatus &&& srPs = 0 ↔ l.user = true := by
    rw [hr.sstatus, and_srPs_csrStatus, hr.status]
  have hkept : Function.update m.cpu.csr .sstatus (sretStatus (m.csr .sstatus)) .sscratch
      = m.csr .sscratch := Function.update_of_ne (by decide) _ _
  refine hi.still ?_ ?_ hh.chain (fun hu => ?_) fun hk => ?_
  · exact hr.mem
  · exact hr.task
  · have huser := hps.mp (of_decide_eq_true hu)
    refine ⟨?_, (hh.level.outer huser).1⟩
    have hscratch := hr.sscratch
    rw [if_pos huser] at hscratch
    exact hkept.trans hscratch
  · have hkernel : l.user = false :=
      Bool.eq_false_iff.mpr fun hu => of_decide_eq_false hk (hps.mpr hu)
    have hscratch := hr.sscratch
    rw [hkernel, if_neg Bool.false_ne_true] at hscratch
    refine ⟨hkept.trans hscratch, ?_⟩
    have hctx := (hh.level.kernel hkernel).2
    rw [← hr.x, ← hr.sepc, ← hr.sstatus] at hctx
    exact hctx

/-! ## All lines -/

/-- A branch, with what holds where it is taken and where it is not. -/
theorem Here.branch (hh : Here image s h i l rest) (hi : Inv image s) {lab : Label} {b : Prop}
    [Decidable b] (hi1 : i + 1 < (text : List (Line w)).length) (on off : Fact → Prop)
    (hon : ∀ f ∈ factsAt (lab.index w), f ∈ factsAt i ∨ on f)
    (hoff : ∀ f ∈ factsAt (i + 1), f ∈ factsAt i ∨ off f)
    (htaken : b → ∀ f, on f → f.Holds image (s.hart h).cur (s.stack h) l s.mem
      (s.hart h).cpu.x ((s.hart h).cpu.csr .sstatus))
    (hnot : ¬b → ∀ f, off f → f.Holds image (s.hart h).cur (s.stack h) l s.mem
      (s.hart h).cpu.x ((s.hart h).cpu.csr .sstatus)) :
    Inv image (s.put h (s.machine h) (image.addr (if b then lab.index w else i + 1)) false
      (l :: rest)) := by
  by_cases hb : b
  · rw [if_pos hb]
    refine hh.jump hi lab.index_lt fun f hf => ?_
    rcases hon f hf with hpre | hnew
    · exact hh.facts f hpre
    · exact htaken hb f hnew
  · rw [if_neg hb]
    refine hh.jump hi hi1 fun f hf => ?_
    rcases hoff f hf with hpre | hnew
    · exact hh.facts f hpre
    · exact hnot hb f hnew

/-- A branch that says nothing about the trap. -/
theorem Here.branch_plain (hh : Here image s h i l rest) (hi : Inv image s) {lab : Label}
    {b : Prop} [Decidable b] (hi1 : i + 1 < (text : List (Line w)).length)
    (hoff : factsAt (i + 1) ⊆ factsAt i) (hon : factsAt (lab.index w) ⊆ factsAt i) :
    Inv image (s.put h (s.machine h) (image.addr (if b then lab.index w else i + 1)) false
      (l :: rest)) :=
  hh.branch hi hi1 (fun _ => False) (fun _ => False) (fun _ hf => Or.inl (hon hf))
    (fun _ hf => Or.inl (hoff hf)) (fun _ _ => False.elim) fun _ _ => False.elim

/-- **A line of the trap code** keeps the invariant. -/
theorem Inv.line (hi : Inv image s) (hu : (s.hart h).user = false)
    (hpc : (s.hart h).pc = image.addr i) (hline : text[i]? = some ln)
    (hlevels : s.levels (s.hart h).cur = l :: rest)
    (hstep : LineStep s h image ln l rest s' (ln.exec image i (s.machine h))) :
    Inv image s' := by
  have hh := hi.here hu hpc hline hlevels
  have hok := Line.ok_of_getElem? hline
  have htp : .tpCurrent ∈ factsAt i → (s.hart h).cpu.x .tp = (s.hart h).cur := fun hf =>
    hh.facts _ hf
  have hra : .raRet ∈ factsAt i →
      (s.hart h).cpu.x .ra = image.addr (Label.retFromException.index w) := fun hf =>
    (hh.facts _ hf).trans (image.sym_label _)
  cases ln with
  | label lab =>
    simp only [Line.ok, decide_eq_true_eq] at hok
    obtain rfl := hstep
    exact hh.jump hi (succ_lt hline (by simp)) fun f hf => hh.facts f (hok hf)
  | instr ins =>
    simp only [Line.ok, decide_eq_true_eq] at hok
    obtain rfl := hstep
    exact hh.instr hi (succ_lt hline (by simp)) hok.1 hok.2
  | bnez r lab =>
    simp only [Line.ok] at hok
    obtain rfl := hstep
    split_ifs at hok with hs0 <;> simp only [decide_eq_true_eq] at hok
    · obtain ⟨rfl, hps⟩ := hs0
      have hzero : (s.hart h).cpu.x .s0 = 0 ↔ l.user = true := hh.facts _ hps
      refine hh.branch hi (succ_lt hline (by simp)) (· = .fromKernel) (· = .fromUser)
        (fun f hf => ?_) (fun f hf => ?_) (fun hb f hf => ?_) fun hb f hf => ?_
      · exact (List.mem_cons.mp (hok.2 hf)).symm
      · exact (List.mem_cons.mp (hok.1 hf)).symm
      · subst hf
        exact Bool.eq_false_iff.mpr fun huser => hb (hzero.mpr huser)
      · subst hf
        exact hzero.mp (not_not.mp hb)
    · exact hh.branch_plain hi (succ_lt hline (by simp)) hok.1 hok.2
  | beq r r' lab =>
    simp only [Line.ok] at hok
    obtain rfl := hstep
    split_ifs at hok with hs4 <;> simp only [decide_eq_true_eq] at hok
    · obtain ⟨rfl, rfl, hcause, hcall⟩ := hs4
      have hs4 : (s.hart h).cpu.x .s4 = l.saved.scause := hh.facts _ hcause
      have ht0 : (s.hart h).cpu.x .t0 = excSyscall := hh.facts _ hcall
      refine hh.branch hi (succ_lt hline (by simp)) (· = .syscall) (· = .settled)
        (fun f hf => ?_) (fun f hf => ?_) (fun hb f hf => ?_) fun hb f hf => ?_
      · exact (List.mem_cons.mp (hok.2 hf)).symm
      · exact (List.mem_cons.mp (hok.1 hf)).symm
      · subst hf
        exact hs4.symm.trans (hb.trans ht0)
      · subst hf
        exact fun _ hcause => absurd (hs4.trans (hcause.trans ht0.symm)) hb
    · exact hh.branch_plain hi (succ_lt hline (by simp)) hok.1 hok.2
  | bgez r lab =>
    simp only [Line.ok] at hok
    obtain rfl := hstep
    split_ifs at hok with hs4 <;> simp only [decide_eq_true_eq] at hok
    · obtain ⟨rfl, hcause⟩ := hs4
      have hs4 : (s.hart h).cpu.x .s4 = l.saved.scause := hh.facts _ hcause
      refine hh.branch hi (succ_lt hline (by simp)) (fun _ => False) (· = .settled)
        (fun f hf => Or.inl (hok.2 hf)) (fun f hf => ?_) (fun _ _ => False.elim) fun hb f hf => ?_
      · exact (List.mem_cons.mp (hok.1 hf)).symm
      · subst hf
        -- an interrupt is no system call
        refine fun _ hcause => absurd ?_ hb
        show 0 ≤ ((s.hart h).cpu.x .s4).toInt
        rw [hs4, hcause]
        cases w <;> decide
    · exact hh.branch_plain hi (succ_lt hline (by simp)) hok.1 hok.2
  | bgeu r r' lab =>
    simp only [Line.ok, decide_eq_true_eq] at hok
    obtain rfl := hstep
    exact hh.branch_plain hi (succ_lt hline (by simp)) hok.1 hok.2
  | j lab =>
    simp only [Line.ok, decide_eq_true_eq] at hok
    obtain rfl := hstep
    exact hh.jump hi lab.index_lt fun f hf => hh.facts f (hok hf)
  | call f =>
    simp only [Line.ok, decide_eq_true_eq] at hok
    obtain ⟨hc, rfl⟩ := hstep
    exact hh.toC hi ((s.machine h).setX .ra (image.addr (i + 1))) rfl rfl hh.scratch hh.sp
      (htp hok.1) hc (succ_lt hline (by simp)) hok.2 fun hf => Bool.noConfusion hf
  | tail f =>
    simp only [Line.ok, decide_eq_true_eq] at hok
    obtain ⟨hc, rfl⟩ := hstep
    rw [show (s.machine h).x .ra = _ from hra hok.2.1]
    exact hh.toC hi (s.machine h) rfl rfl hh.scratch hh.sp (htp hok.1) hc (Label.index_lt _) hok.2.2
      fun _ => (image.sym_label _).symm
  | jr r =>
    simp only [Line.ok, decide_eq_true_eq] at hok
    obtain ⟨hc, rfl⟩ := hstep
    rw [show (s.machine h).x .ra = _ from hra hok.2.1]
    exact hh.toC hi (s.machine h) rfl rfl hh.scratch hh.sp (htp hok.1) hc (Label.index_lt _) hok.2.2
      fun _ => (image.sym_label _).symm
  | jalr r =>
    simp only [Line.ok, decide_eq_true_eq] at hok
    obtain ⟨hc, rfl⟩ := hstep
    exact hh.toC hi ((s.machine h).setX .ra (image.addr (i + 1))) rfl rfl hh.scratch hh.sp
      (htp hok.1) hc (succ_lt hline (by simp)) hok.2 fun hf => Bool.noConfusion hf
  | exit is =>
    obtain rfl := hstep
    exact hh.sret hi (hh.returned (hi.stackOk _ (hi.live h)) hok)

end Lines

end LowriscLinux.Kernel.Entry
