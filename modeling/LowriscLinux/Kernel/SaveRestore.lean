import LowriscLinux.Kernel.Asm

/-!
# Saving and restoring the registers

The straight-line code of `arch/riscv/kernel/entry.S`, instruction by instruction.

## What models what

* `saveAll`: `SAVE_ALL` (lines 12-71). It swaps `sp` and `sscratch` (line 19). If `sscratch` was 0
  the trap came from the kernel, and the stack pointer is taken back (lines 20-23). From
  `_save_context` on (line 24) it is the list `saveContext`.
* `savedRegs`: the registers of lines 26-55, which are all but `x2`; that is in `sscratch` by then
  (lines 61 and 66). The status is read with the floating-point unit switched off (line 62), and
  what is stored is the status before that.
* `restoreAll`: `RESTORE_ALL` (lines 73-111). `sp` is loaded last (line 110), as it is the base of
  the other loads.
* `switchTo`: `__switch_to` up to its `ret` (lines 266-297), with the registers of `threadRegs`.

Each of them has a theorem that says all that it does, and later modules use only that: what it
leaves in the registers that the code goes on with, in memory, and what it leaves alone.

Results:
* `saveAll_saved`: `SAVE_ALL` stores the interrupted program's registers below the stack pointer
  that it finds, and nothing else.
* `restoreAll_restored`: `RESTORE_ALL` loads all registers from the frame at `sp`.
* `switchTo_switched`: `__switch_to` changes to the stack and the return address of the next task.
-/

namespace LowriscLinux.Kernel.Entry

open Lib

variable {w : Xlen}

/-! ## The code -/

/-- `x1` and `x3` to `x31`, in the order in which they are saved and restored. -/
def savedRegs : List Reg :=
  [.ra, .gp, .tp, .t0, .t1, .t2, .s0, .s1, .a0, .a1, .a2, .a3, .a4, .a5, .a6, .a7, .s2, .s3, .s4,
    .s5, .s6, .s7, .s8, .s9, .s10, .s11, .t3, .t4, .t5, .t6]

/-- `REG_S reg, PT_*(sp)` -/
def store (r : Reg) (s : Slot) : Instr w := .regS r (s.offset w) .sp

/-- `REG_L reg, PT_*(sp)` -/
def load (r : Reg) (s : Slot) : Instr w := .regL r (s.offset w) .sp

/-- `SAVE_ALL` from `_save_context` on. -/
def saveContext : List (Instr w) :=
  .addi .sp .sp (-BitVec.ofNat _ (ptSize w)) :: savedRegs.map (fun r => store r (.x r)) ++
    [.li .t0 srFs, .csrr .s0 .sscratch, .csrrc .s1 .sstatus .t0, .csrr .s2 .sepc,
      .csrr .s3 .sbadaddr, .csrr .s4 .scause] ++
    [store .s0 (.x .sp), store .s1 .sstatus, store .s2 .sepc, store .s3 .sbadaddr,
      store .s4 .scause]

/-- `SAVE_ALL` -/
def saveAll (sym : Sym → Word w) (m : Machine w) : Machine w :=
  let m := (Instr.csrrw .sp .sscratch .sp).exec sym m
  -- `bnez sp, _save_context`
  let m := if m.x .sp ≠ 0 then m else (Instr.csrr .sp .sscratch).exec sym m
  execAll sym m saveContext

/-- `RESTORE_ALL` -/
def restoreAll : List (Instr w) :=
  [load .a0 .sstatus, load .a2 .sepc, .csrw .sstatus .a0, .csrw .sepc .a2] ++
    savedRegs.map (fun r => load r (.x r)) ++ [load .sp (.x .sp)]

/-- The registers that `__switch_to` saves and restores, and their fields. -/
def threadRegs : List (Reg × ThreadReg) :=
  [(.ra, .ra), (.sp, .sp), (.s0, .s 0), (.s1, .s 1), (.s2, .s 2), (.s3, .s 3), (.s4, .s 4),
    (.s5, .s 5), (.s6, .s 6), (.s7, .s 7), (.s8, .s 8), (.s9, .s 9), (.s10, .s 10), (.s11, .s 11)]

/-- `__switch_to`, up to its `ret`. -/
def switchTo : List (Instr w) :=
  threadRegs.map (fun p => .threadS p.1 p.2 .a0) ++
    threadRegs.map (fun p => .threadL p.1 p.2 .a1) ++ [.mv .tp .a1]

theorem mem_savedRegs (r : Reg) : r ∈ savedRegs ↔ r ≠ .sp := by cases r <;> decide

/-! ## `SAVE_ALL` -/

variable (sym : Sym → Word w) {m : Machine w}

theorem setSlot_x (regs : PtRegs w) (r : Reg) (v : Word w) :
    setSlot regs (.x r) v = { regs with x := Function.update regs.x r v } := by
  refine PtRegs.ext_get fun s => ?_
  rw [setSlot_get]
  rcases s with _ | r' | _ | _ | _
  · rfl
  · by_cases hr : r' = r
    · subst hr
      simp [PtRegs.get]
    · simp [PtRegs.get, hr]
  · rfl
  · rfl
  · rfl

theorem setSlot_sstatus (regs : PtRegs w) (v : Word w) :
    setSlot regs .sstatus v = { regs with sstatus := v } :=
  PtRegs.ext_get fun s => by rw [setSlot_get]; cases s <;> rfl

theorem setSlot_sepc (regs : PtRegs w) (v : Word w) :
    setSlot regs .sepc v = { regs with sepc := v } :=
  PtRegs.ext_get fun s => by rw [setSlot_get]; cases s <;> rfl

theorem setSlot_sbadaddr (regs : PtRegs w) (v : Word w) :
    setSlot regs .sbadaddr v = { regs with sbadaddr := v } :=
  PtRegs.ext_get fun s => by rw [setSlot_get]; cases s <;> rfl

theorem setSlot_scause (regs : PtRegs w) (v : Word w) :
    setSlot regs .scause v = { regs with scause := v } :=
  PtRegs.ext_get fun s => by rw [setSlot_get]; cases s <;> rfl

/-- What stores to the frame at `sp` leave: the registers, and memory outside the frame. -/
structure FrameStores (m m' : Machine w) : Prop where
  cpu : m'.cpu = m.cpu
  task : m'.task = m.task
  agree : ∀ lo hi, hi ≤ (m.x .sp).toNat ∨ (m.x .sp).toNat + ptSize w ≤ lo →
    Agree m.mem m'.mem lo hi

theorem store_frameStores (hfit : (m.x .sp).toNat + ptSize w < 2 ^ (8 * szreg w)) (r : Reg)
    (s : Slot) : FrameStores m ((store r s).exec sym m) :=
  ⟨rfl, rfl, fun _ _ h => agree_frame hfit s (m.x r) h⟩

theorem frameAt_exec_store (hfit : (m.x .sp).toNat + ptSize w < 2 ^ (8 * szreg w)) (r : Reg)
    (s : Slot) :
    frameAt ((store r s).exec sym m).mem (m.x .sp)
      = setSlot (frameAt m.mem (m.x .sp)) s (m.x r) := frameAt_store hfit s (m.x r)

theorem FrameStores.trans {m m' m'' : Machine w} (h : FrameStores m m') (h' : FrameStores m' m'') :
    FrameStores m m'' := by
  have hsp : m'.x .sp = m.x .sp := by rw [Machine.x, h.cpu]; rfl
  refine ⟨h'.cpu.trans h.cpu, h'.task.trans h.task, fun lo hi hout => ?_⟩
  exact (h.agree lo hi hout).trans (h'.agree lo hi (by rwa [hsp]))

/-- Stores to the frame at `sp`, one after the other. -/
theorem execAll_stores (hfit : (m.x .sp).toNat + ptSize w < 2 ^ (8 * szreg w))
    (ps : List (Reg × Slot)) :
    FrameStores m (execAll sym m (ps.map fun p => store p.1 p.2)) ∧
      frameAt (execAll sym m (ps.map fun p => store p.1 p.2)).mem (m.x .sp)
        = ps.foldl (fun regs p => setSlot regs p.2 (m.x p.1)) (frameAt m.mem (m.x .sp)) := by
  induction ps generalizing m with
  | nil => exact ⟨⟨rfl, rfl, fun _ _ _ => .refl _ _ _⟩, rfl⟩
  | cons p ps ih =>
    have hfirst := store_frameStores sym hfit p.1 p.2
    have hx : ((store p.1 p.2).exec sym m).x = m.x := by
      funext r
      rw [Machine.x, hfirst.cpu]
      rfl
    obtain ⟨hrest, hframe⟩ := @ih ((store p.1 p.2).exec sym m) (by rwa [hx])
    rw [hx, frameAt_exec_store sym hfit] at hframe
    exact ⟨hfirst.trans hrest, hframe⟩

/-- The stores of a list of registers to their own words. -/
theorem foldl_setSlot_x (x : Reg → Word w) (rs : List Reg) (regs : PtRegs w) :
    (rs.map fun r => (r, Slot.x r)).foldl (fun regs p => setSlot regs p.2 (x p.1)) regs
      = { regs with x := fun r => if r ∈ rs then x r else regs.x r } := by
  induction rs generalizing regs with
  | nil => simp
  | cons r rs ih =>
    rw [List.map_cons, List.foldl_cons, ih, setSlot_x]
    refine PtRegs.ext rfl (funext fun r' => ?_) rfl rfl rfl
    by_cases hr : r' = r
    · subst hr
      simp
    · simp [hr]

/-- What `SAVE_ALL` has done when it has stored a frame at an address. -/
structure Saved (m m' : Machine w) (base : Word w) : Prop where
  sp : m'.x .sp = base
  s2 : m'.x .s2 = m.csr .sepc
  s4 : m'.x .s4 = m.csr .scause
  task : m'.task = m.task
  frame : frameAt m'.mem base
    = ⟨m.csr .sepc, m.x, m.csr .sstatus, m.csr .sbadaddr, m.csr .scause⟩
  agree : ∀ lo hi, hi ≤ base.toNat ∨ base.toNat + ptSize w ≤ lo → Agree m.mem m'.mem lo hi

theorem toNat_sub_ptSize {a : Word w} (h : ptSize w ≤ a.toNat) :
    (a + -BitVec.ofNat _ (ptSize w)).toNat = a.toNat - ptSize w := by
  have hlt : ptSize w < 2 ^ (8 * szreg w) := by cases w <;> decide
  rw [← BitVec.sub_eq_add_neg, toNat_sub_ofNat a hlt, if_pos h]

/-- The status registers are read. -/
theorem readStatus (m : Machine w) :
    let m' := execAll sym m [.li .t0 srFs, .csrr .s0 .sscratch, .csrrc .s1 .sstatus .t0,
      .csrr .s2 .sepc, .csrr .s3 .sbadaddr, .csrr .s4 .scause]
    m'.x .sp = m.x .sp ∧ m'.mem = m.mem ∧ m'.task = m.task ∧ m'.x .s0 = m.csr .sscratch ∧
      m'.x .s1 = m.csr .sstatus ∧ m'.x .s2 = m.csr .sepc ∧ m'.x .s3 = m.csr .sbadaddr ∧
      m'.x .s4 = m.csr .scause := by
  refine ⟨?_, rfl, rfl, ?_, ?_, ?_, ?_, ?_⟩ <;> simp [Instr.exec]

/-- The integer registers are stored. -/
theorem storeRegs (hfit : (m.x .sp).toNat + ptSize w < 2 ^ (8 * szreg w)) :
    let m' := execAll sym m (savedRegs.map fun r => store r (.x r))
    FrameStores m m' ∧ (frameAt m'.mem (m.x .sp)).x
      = Function.update m.x .sp ((frameAt m.mem (m.x .sp)).x .sp) := by
  obtain ⟨hstores, hframe⟩ :=
    execAll_stores sym hfit (savedRegs.map fun r => (r, Slot.x r))
  rw [List.map_map] at hstores hframe
  refine ⟨hstores, ?_⟩
  have hx := congrArg PtRegs.x (hframe.trans (foldl_setSlot_x m.x savedRegs _))
  refine hx.trans (funext fun r => ?_)
  by_cases hr : r = .sp
  · subst hr
    simp [mem_savedRegs]
  · simp [mem_savedRegs, hr]

/-- The status registers and the interrupted stack pointer are stored. -/
theorem storeStatus (hfit : (m.x .sp).toNat + ptSize w < 2 ^ (8 * szreg w)) :
    let m' := execAll sym m [store .s0 (.x .sp), store .s1 .sstatus, store .s2 .sepc,
      store .s3 .sbadaddr, store .s4 .scause]
    FrameStores m m' ∧ frameAt m'.mem (m.x .sp)
      = ⟨m.x .s2, Function.update (frameAt m.mem (m.x .sp)).x .sp (m.x .s0), m.x .s1, m.x .s3,
          m.x .s4⟩ := by
  obtain ⟨hstores, hframe⟩ := execAll_stores sym hfit [(.s0, .x .sp), (.s1, .sstatus),
    (.s2, .sepc), (.s3, .sbadaddr), (.s4, .scause)]
  refine ⟨hstores, hframe.trans ?_⟩
  simp only [List.foldl_cons, List.foldl_nil, setSlot_x, setSlot_sstatus, setSlot_sepc,
    setSlot_sbadaddr, setSlot_scause]

/-- The parts of `_save_context`. -/
theorem execAll_saveContext (m : Machine w) :
    execAll sym m saveContext =
      execAll sym (execAll sym (execAll sym (m.setX .sp (m.x .sp + -BitVec.ofNat _ (ptSize w)))
        (savedRegs.map fun r => store r (.x r)))
        [.li .t0 srFs, .csrr .s0 .sscratch, .csrrc .s1 .sstatus .t0, .csrr .s2 .sepc,
          .csrr .s3 .sbadaddr, .csrr .s4 .scause])
        [store .s0 (.x .sp), store .s1 .sstatus, store .s2 .sepc, store .s3 .sbadaddr,
          store .s4 .scause] := by
  have hfirst : (Instr.addi .sp .sp (-BitVec.ofNat _ (ptSize w))).exec sym m
      = m.setX .sp (m.x .sp + -BitVec.ofNat _ (ptSize w)) := rfl
  rw [saveContext, execAll_append, execAll_append, ← hfirst, ← execAll_cons]

/-- `_save_context`, with the interrupted stack pointer in `sscratch`. -/
theorem saveContext_saved (h : ptSize w ≤ (m.x .sp).toNat) :
    let m' := execAll sym m saveContext
    let base := m.x .sp + -BitVec.ofNat _ (ptSize w)
    m'.x .sp = base ∧ m'.x .s2 = m.csr .sepc ∧ m'.x .s4 = m.csr .scause ∧ m'.task = m.task ∧
      frameAt m'.mem base = ⟨m.csr .sepc, Function.update m.x .sp (m.csr .sscratch),
        m.csr .sstatus, m.csr .sbadaddr, m.csr .scause⟩ ∧
      ∀ lo hi, hi ≤ base.toNat ∨ base.toNat + ptSize w ≤ lo → Agree m.mem m'.mem lo hi := by
  intro m' base
  have hbase : base.toNat = (m.x .sp).toNat - ptSize w := toNat_sub_ptSize h
  have hlt := (m.x .sp).isLt
  obtain ⟨m₁, hm₁⟩ : ∃ m₁, m₁ = m.setX .sp base := ⟨_, rfl⟩
  have hsp₁ : m₁.x .sp = base := by simp [hm₁]
  have hfit₁ : (m₁.x .sp).toNat + ptSize w < 2 ^ (8 * szreg w) := by rw [hsp₁]; omega
  -- the integer registers, the reads and the other stores
  obtain ⟨hregs, hx⟩ := storeRegs sym hfit₁
  obtain ⟨m₂, hm₂⟩ : ∃ m₂, m₂ = execAll sym m₁ (savedRegs.map fun r => store r (.x r)) := ⟨_, rfl⟩
  rw [← hm₂] at hregs hx
  have hcsr₂ : m₂.csr = m.csr := by
    rw [show m₂.csr = m₁.csr from congrArg Cpu.csr hregs.cpu, hm₁]
    rfl
  have hsp₂ : m₂.x .sp = base := by rw [← hsp₁]; exact congrFun (congrArg Cpu.x hregs.cpu) .sp
  obtain ⟨hsp₃, hmem₃, htask₃, hs0, hs1, hs2, hs3, hs4⟩ := readStatus sym m₂
  obtain ⟨m₃, hm₃⟩ : ∃ m₃, m₃ = execAll sym m₂ [.li .t0 srFs, .csrr .s0 .sscratch,
    .csrrc .s1 .sstatus .t0, .csrr .s2 .sepc, .csrr .s3 .sbadaddr, .csrr .s4 .scause] := ⟨_, rfl⟩
  rw [← hm₃] at hsp₃ hmem₃ htask₃ hs0 hs1 hs2 hs3 hs4
  rw [hsp₂] at hsp₃
  obtain ⟨hstatus, hframe⟩ := storeStatus sym (by rw [hsp₃, ← hsp₁]; exact hfit₁)
  have hm' : m' = execAll sym m₃ [store .s0 (.x .sp), store .s1 .sstatus, store .s2 .sepc,
      store .s3 .sbadaddr, store .s4 .scause] := by
    rw [hm₃, hm₂, hm₁]
    exact execAll_saveContext sym m
  rw [← hm', hsp₃] at hframe
  rw [← hm'] at hstatus
  have hx' : m'.x = m₃.x := congrArg Cpu.x hstatus.cpu
  have hstores := hstatus.agree
  rw [hsp₃, hmem₃] at hstores
  have hagree := hregs.agree
  rw [hsp₁] at hagree hx
  rw [hmem₃, hx, hs0, hs1, hs2, hs3, hs4, hcsr₂] at hframe
  refine ⟨by rw [hx', hsp₃], by rw [hx', hs2, hcsr₂], by rw [hx', hs4, hcsr₂], ?_,
    hframe.trans ?_, ?_⟩
  · rw [hstatus.task, htask₃, hregs.task, hm₁]
    rfl
  · refine PtRegs.ext rfl (funext fun r => ?_) rfl rfl rfl
    by_cases hr : r = .sp
    · simp [hr]
    · simp [hr, hm₁]
  · intro lo hi hout
    refine Agree.trans ?_ (hstores lo hi hout)
    rw [hm₁] at hagree
    exact hagree lo hi hout

/-- **`SAVE_ALL`** stores the interrupted program's registers below the stack pointer that it finds:
the one in `sscratch`, or the interrupted one if that is 0. -/
theorem saveAll_saved {top : Word w}
    (htop : top = if m.csr .sscratch = 0 then m.x .sp else m.csr .sscratch)
    (h : ptSize w ≤ top.toNat) :
    Saved m (saveAll sym m) (top + -BitVec.ofNat _ (ptSize w)) := by
  obtain ⟨m₁, hm₁⟩ : ∃ m₁, m₁ = (Instr.csrrw .sp .sscratch .sp).exec sym m := ⟨_, rfl⟩
  obtain ⟨m₂, hm₂⟩ : ∃ m₂, m₂ = if m₁.x .sp ≠ 0 then m₁
    else (Instr.csrr .sp .sscratch).exec sym m₁ := ⟨_, rfl⟩
  have hsave : saveAll sym m = execAll sym m₂ saveContext := by rw [hm₂, hm₁]; rfl
  have hsp₁ : m₁.x .sp = m.csr .sscratch := by simp [hm₁, Instr.exec]
  have hsp : m₂.x .sp = top := by
    by_cases h0 : m.csr .sscratch = 0
    · rw [hm₂, hsp₁, htop, if_pos h0, if_neg (fun hne => hne h0)]
      simp [hm₁, Instr.exec]
    · rw [hm₂, hsp₁, htop, if_neg h0, if_pos h0]
      exact hsp₁
  have hx : ∀ r, r ≠ .sp → m₂.x r = m.x r := by
    intro r hr
    rw [hm₂, hm₁]
    split_ifs <;> simp [Instr.exec, hr]
  have hcsr : ∀ c, m₂.csr c = if c = .sscratch then m.x .sp else m.csr c := by
    intro c
    rw [hm₂, hm₁]
    split_ifs <;> simp_all [Instr.exec]
  have hmem : m₂.mem = m.mem := by rw [hm₂, hm₁]; split_ifs <;> rfl
  have htask : m₂.task = m.task := by rw [hm₂, hm₁]; split_ifs <;> rfl
  obtain ⟨hbase, hs2, hs4, htask', hframe, hagree⟩ := saveContext_saved sym
    (by rwa [hsp])
  rw [← hsave, hsp] at hbase hframe hagree
  rw [← hsave] at hs2 hs4 htask'
  rw [hmem] at hagree
  refine ⟨hbase, by rw [hs2, hcsr]; rfl, by rw [hs4, hcsr]; rfl, htask'.trans htask,
    hframe.trans ?_, hagree⟩
  simp only [hcsr, reduceCtorEq, if_false, if_true]
  refine PtRegs.ext rfl (funext fun r => ?_) rfl rfl rfl
  by_cases hr : r = .sp
  · simp [hr]
  · simp [hr, hx r hr]

/-! ## `RESTORE_ALL` -/

theorem exec_load (m : Machine w) (r : Reg) (s : Slot) :
    (load r s).exec sym m = m.setX r ((frameAt m.mem (m.x .sp)).get s) := by
  rw [frameAt_get]
  rfl

/-- What `RESTORE_ALL` has done when it has loaded the registers from a frame. -/
structure Restored (m m' : Machine w) (regs : PtRegs w) : Prop where
  x : m'.x = regs.x
  sstatus : m'.csr .sstatus = csrStatus regs.sstatus
  sepc : m'.csr .sepc = regs.sepc
  sscratch : m'.csr .sscratch = m.csr .sscratch
  mem : m'.mem = m.mem
  task : m'.task = m.task

/-- The loads of a list of registers that does not have `sp`. -/
theorem execAll_loads {rs : List Reg} (hrs : .sp ∉ rs) (m : Machine w) :
    let m' := execAll sym m (rs.map fun r => load r (.x r))
    m'.csr = m.csr ∧ m'.mem = m.mem ∧ m'.task = m.task ∧
      ∀ r, m'.x r = if r ∈ rs then (frameAt m.mem (m.x .sp)).x r else m.x r := by
  induction rs generalizing m with
  | nil => simp
  | cons r rs ih =>
    simp only [List.mem_cons, not_or] at hrs
    have hload := exec_load sym m r (.x r)
    obtain ⟨hcsr, hmem, htask, hx⟩ := ih hrs.2 ((load r (.x r)).exec sym m)
    simp only [hload, Machine.setX_csr, Machine.setX_mem, Machine.setX_task, Machine.setX_x, hrs.1,
      if_false] at hcsr hmem htask hx
    rw [List.map_cons, execAll_cons, hload]
    refine ⟨hcsr, hmem, htask, fun r' => (hx r').trans ?_⟩
    by_cases hr : r' = r
    · subst hr
      simp [PtRegs.get]
    · simp [hr]

/-- **`RESTORE_ALL`** loads all registers from the frame at `sp`. -/
theorem restoreAll_restored (m : Machine w) :
    Restored m (execAll sym m restoreAll) (frameAt m.mem (m.x .sp)) := by
  obtain ⟨regs, hregs⟩ : ∃ regs, regs = frameAt m.mem (m.x .sp) := ⟨_, rfl⟩
  obtain ⟨m₁, hm₁⟩ : ∃ m₁, m₁ = execAll sym m
    [load .a0 .sstatus, load .a2 .sepc, .csrw .sstatus .a0, .csrw .sepc .a2] := ⟨_, rfl⟩
  have hm₁' : m₁ = (((m.setX .a0 regs.sstatus).setX .a2 regs.sepc).setCsr .sstatus
      regs.sstatus).setCsr .sepc regs.sepc := by
    simp only [hm₁, execAll_cons, execAll_nil, exec_load]
    simp [Instr.exec, hregs, PtRegs.get]
  obtain ⟨hcsr₂, hmem₂, htask₂, hx₂⟩ :=
    execAll_loads sym (fun h => (mem_savedRegs .sp).mp h rfl) m₁
  obtain ⟨m₂, hm₂⟩ : ∃ m₂, m₂ = execAll sym m₁ (savedRegs.map fun r => load r (.x r)) := ⟨_, rfl⟩
  rw [← hm₂] at hcsr₂ hmem₂ htask₂ hx₂
  have hsp₁ : m₁.x .sp = m.x .sp := by simp [hm₁']
  have hmem₁ : m₁.mem = m.mem := by simp [hm₁']
  rw [hmem₁, hsp₁, ← hregs] at hx₂
  have hsp₂ : m₂.x .sp = m.x .sp := by rw [hx₂, if_neg (fun h => (mem_savedRegs .sp).mp h rfl), hsp₁]
  have hall : execAll sym m restoreAll = m₂.setX .sp (regs.x .sp) := by
    rw [restoreAll, execAll_append, execAll_append, ← hm₁, ← hm₂, execAll_cons, exec_load, hsp₂,
      hmem₂, hmem₁, ← hregs]
    rfl
  rw [hall, ← hregs]
  refine ⟨funext fun r => ?_, ?_, ?_, ?_, ?_, ?_⟩
  · rw [Machine.setX_x, hx₂]
    by_cases hr : r = .sp
    · simp [hr]
    · simp [hr, mem_savedRegs]
  · simp [hcsr₂, hm₁']
  · simp [hcsr₂, hm₁']
  · simp [hcsr₂, hm₁']
  · rw [Machine.setX_mem, hmem₂, hmem₁]
  · rw [Machine.setX_task, htask₂, hm₁']
    rfl

/-! ## `__switch_to` -/

theorem execAll_threadS (ps : List (Reg × ThreadReg)) (m : Machine w) :
    execAll sym m (ps.map fun p => .threadS p.1 p.2 .a0) =
      m.setTask (m.x .a0) (ps.foldl (fun task p => task.set (m.x p.1) p.2) (m.task (m.x .a0))) := by
  induction ps generalizing m with
  | nil => simp [Machine.setTask]
  | cons p ps ih =>
    rw [List.map_cons, execAll_cons, ih]
    simp [Instr.exec, Machine.setTask, Machine.x]

theorem execAll_threadL {ps : List (Reg × ThreadReg)} (hps : ∀ p ∈ ps, p.1 ≠ .a1)
    (m : Machine w) :
    let m' := execAll sym m (ps.map fun p => .threadL p.1 p.2 .a1)
    m'.csr = m.csr ∧ m'.mem = m.mem ∧ m'.task = m.task ∧
      m'.x = ps.foldl (fun x p => Function.update x p.1 ((m.task (m.x .a1)).get p.2)) m.x := by
  induction ps generalizing m with
  | nil => exact ⟨rfl, rfl, rfl, rfl⟩
  | cons p ps ih =>
    have ha1 := hps p List.mem_cons_self
    obtain ⟨hcsr, hmem, htask, hx⟩ := ih (fun q hq => hps q (List.mem_cons_of_mem _ hq))
      ((Instr.threadL p.1 p.2 .a1).exec sym m)
    refine ⟨hcsr, hmem, htask, hx.trans ?_⟩
    have hkept : ((Instr.threadL p.1 p.2 .a1).exec sym m).x .a1 = m.x .a1 := by
      simp [Instr.exec, ha1.symm]
    rw [hkept]
    rfl

/-- The saved registers `s0` to `s11` are fields of their own. -/
theorem foldl_set_s {ps : List (Reg × ThreadReg)} (hps : ∀ p ∈ ps, ∃ i, p.2 = .s i)
    (x : Reg → Word w) (task : TaskStruct w) :
    let task' := ps.foldl (fun task p => task.set (x p.1) p.2) task
    task'.ra = task.ra ∧ task'.sp = task.sp ∧ task'.stack = task.stack := by
  induction ps generalizing task with
  | nil => exact ⟨rfl, rfl, rfl⟩
  | cons p ps ih =>
    obtain ⟨i, hi⟩ := hps p List.mem_cons_self
    obtain ⟨hra, hsp, hstack⟩ := ih (fun q hq => hps q (List.mem_cons_of_mem _ hq))
      (task.set (x p.1) p.2)
    simp only [List.foldl_cons]
    rw [hra, hsp, hstack, hi]
    exact ⟨rfl, rfl, rfl⟩

/-- What `__switch_to` has done, from one task to another. -/
structure Switched (m m' : Machine w) (prev next : Word w) : Prop where
  ra : m'.x .ra = (m.task next).ra
  sp : m'.x .sp = (m.task next).sp
  tp : m'.x .tp = next
  saved : (m'.task prev).ra = m.x .ra ∧ (m'.task prev).sp = m.x .sp ∧
    (m'.task prev).stack = (m.task prev).stack
  other : ∀ t, t ≠ prev → m'.task t = m.task t
  csr : m'.csr = m.csr
  mem : m'.mem = m.mem

/-- **`__switch_to`** saves one task and loads another. -/
theorem switchTo_switched (m : Machine w) (hne : m.x .a1 ≠ m.x .a0) :
    Switched m (execAll sym m switchTo) (m.x .a0) (m.x .a1) := by
  obtain ⟨m₁, hm₁⟩ : ∃ m₁, m₁ = execAll sym m (threadRegs.map fun p => .threadS p.1 p.2 .a0) :=
    ⟨_, rfl⟩
  obtain ⟨m₂, hm₂⟩ : ∃ m₂, m₂ = execAll sym m₁ (threadRegs.map fun p => .threadL p.1 p.2 .a1) :=
    ⟨_, rfl⟩
  have hall : execAll sym m switchTo = m₂.setX .tp (m₂.x .a1) := by
    rw [switchTo, execAll_append, execAll_append, ← hm₁, ← hm₂]
    rfl
  obtain ⟨hcsr, hmem, htask, hx⟩ :=
    execAll_threadL sym (show ∀ p ∈ threadRegs, p.1 ≠ .a1 by decide) m₁
  rw [← hm₂] at hcsr hmem htask hx
  have hx₁ : m₁.x = m.x := by rw [hm₁, execAll_threadS]; rfl
  have hcsr₁ : m₁.csr = m.csr := by rw [hm₁, execAll_threadS]; rfl
  have hmem₁ : m₁.mem = m.mem := by rw [hm₁, execAll_threadS]; rfl
  have hprev : (m₁.task (m.x .a0)).ra = m.x .ra ∧ (m₁.task (m.x .a0)).sp = m.x .sp ∧
      (m₁.task (m.x .a0)).stack = (m.task (m.x .a0)).stack := by
    have hregs : threadRegs = (.ra, .ra) :: (.sp, .sp) :: threadRegs.drop 2 := rfl
    obtain ⟨hra, hsp, hstack⟩ := foldl_set_s (show ∀ p ∈ threadRegs.drop 2, ∃ i, p.2 = .s i by decide)
      m.x (((m.task (m.x .a0)).set (m.x .ra) .ra).set (m.x .sp) .sp)
    rw [hm₁, execAll_threadS, hregs, List.foldl_cons, List.foldl_cons]
    simp only [Machine.setTask, Function.update_self]
    exact ⟨hra, hsp, hstack⟩
  have hother : ∀ t, t ≠ m.x .a0 → m₁.task t = m.task t := by
    intro t ht
    rw [hm₁, execAll_threadS]
    exact Function.update_of_ne ht _ _
  rw [hx₁, hother _ hne] at hx
  have ha1 : m₂.x .a1 = m.x .a1 := by rw [hx]; rfl
  rw [hall]
  refine ⟨?_, ?_, ?_, ?_, ?_, hcsr.trans hcsr₁, hmem.trans hmem₁⟩
  · rw [Machine.setX_x, if_neg (by decide), hx]
    rfl
  · rw [Machine.setX_x, if_neg (by decide), hx]
    rfl
  · rw [Machine.setX_x, if_pos rfl, ha1]
  · rw [Machine.setX_task, htask]
    exact hprev
  · rw [Machine.setX_task, htask]
    exact hother

end LowriscLinux.Kernel.Entry
