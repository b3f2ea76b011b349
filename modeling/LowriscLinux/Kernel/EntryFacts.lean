import LowriscLinux.Kernel.Entry
import LowriscLinux.Kernel.Signal

/-!
# What the trap code relies on

Facts that hold at the lines of `arch/riscv/kernel/entry.S` (lines 121-256): about the registers
that the code uses later, about the frame of the trap, and about how far a system call has come
(`Fact.Holds`). They are listed for each line (`facts`), and a computable check says that the list
is consistent (`Line.ok`).

* The registers: `tp` is the mask of the stack, then its `thread_info`, then the task (lines
  121-124); `ra` is `ret_from_exception` until the handler returns (line 129); `s4` is the cause and
  `s2` the exception program counter (lines 64 and 63, 132 and 160), as `SAVE_ALL` leaves them.
* The frame: the trap came from user mode (line 195), and the frame is one to return to user mode
  with (`Level.UserFrame`). Interrupts are disabled from line 193 to the return, but for line 218.
* The system call: the address behind it has been stored (line 161), and the result (line 184).
  `Progress` is how far this has come, and `Level.due` what the frame holds then if C code has left
  it alone.

`Fact.lasts` tells the facts that C code does not change from those about registers: a C function
returns with what the trap alone decides.

Results:
* `text_ok`: the facts listed for each line follow from those of the lines before it.
* `Instr.sound`: an instruction that passes the check has the effect that the check supposes.
-/

namespace LowriscLinux.Kernel.Entry

open Lib

variable {w : Xlen}

/-- How far a trap has come that is a system call. -/
inductive Progress (w : Xlen)
  | fresh
  /-- `sepc` in the frame is behind the call. -/
  | entered
  /-- `a0` in the frame is its result. -/
  | returned (ret : Word w)
  deriving DecidableEq

/-- A trap that a task is in. -/
structure Level (w : Xlen) where
  /-- The address of its frame. -/
  base : Word w
  /-- The interrupted registers. -/
  saved : PtRegs w
  /-- The trap came from user mode. -/
  user : Bool
  progress : Progress w
  /-- C code has written to the frame. -/
  wrote : Bool
  /-- Where the C function returns to that runs, or ran last, in this trap. -/
  ret : Word w

namespace Level

/-- What the frame of a trap holds if C code leaves it alone. -/
def due (l : Level w) : PtRegs w :=
  match l.progress with
  | .fresh => l.saved
  | .entered => Kernel.handleSyscall l.saved
  | .returned ret => Kernel.syscall l.saved ret

/-- The frame, if the trap came from user mode, is one to return to user mode with. -/
def UserFrame (l : Level w) (mem : Memory (8 * szreg w)) : Prop :=
  l.user = true → (frameAt mem l.base).sstatus &&& srPs = 0

end Level

inductive Fact
  /-- `tp` is the mask of a stack. -/
  | tpMask
  /-- `tp` is the stack, with its `thread_info`. -/
  | tpStack
  /-- `tp` is the task. -/
  | tpCurrent
  /-- `s2` is the interrupted `sepc`. -/
  | s2Sepc
  /-- `s2` is the address behind a system call. -/
  | s2Next
  /-- `ra` is `ret_from_exception`. -/
  | raRet
  /-- `s4` is the cause. -/
  | s4Scause
  /-- `t0` is the cause of a system call. -/
  | t0Syscall
  /-- `SR_PS` in `s0` says where the trap came from. -/
  | s0Status
  /-- `s0` is not 0 if the trap came from the kernel. -/
  | s0Ps
  /-- `s0` is the address behind the frame. -/
  | s0Top
  /-- The trap is a system call. -/
  | syscall
  | fresh
  | entered
  /-- If the trap is a system call, its result has been stored. -/
  | settled
  | userFrame
  | fromUser
  | fromKernel
  /-- Interrupts are disabled. -/
  | irqOff
  deriving DecidableEq, Repr

/-- The register that a fact is about. -/
def Fact.reg : Fact → Option Reg
  | .tpMask | .tpStack | .tpCurrent => some .tp
  | .s2Sepc | .s2Next => some .s2
  | .raRet => some .ra
  | .s4Scause => some .s4
  | .t0Syscall => some .t0
  | .s0Status | .s0Ps | .s0Top => some .s0
  | .syscall | .fresh | .entered | .settled | .userFrame | .fromUser | .fromKernel | .irqOff => none

/-- The fact is about the trap, and C code does not change that. -/
def Fact.lasts (f : Fact) : Bool := f.reg = none ∧ f ≠ .irqOff

/-- What a fact says in a trap of a task with a stack. -/
def Fact.Holds (image : Image w) (task stack : Word w) (l : Level w)
    (mem : Memory (8 * szreg w)) (x : Reg → Word w) (sstatus : Word w) : Fact → Prop
  | .tpMask => x .tp = threadMask
  | .tpStack => x .tp = stack
  | .tpCurrent => x .tp = task
  | .s2Sepc => x .s2 = l.saved.sepc
  | .s2Next => x .s2 = l.saved.sepc + 0x4
  | .raRet => x .ra = image.sym (.label .retFromException)
  | .s4Scause => x .s4 = l.saved.scause
  | .t0Syscall => x .t0 = excSyscall
  | .s0Status => x .s0 &&& srPs = 0 ↔ l.user = true
  | .s0Ps => x .s0 = 0 ↔ l.user = true
  | .s0Top => x .s0 = l.base + BitVec.ofNat _ (ptSize w)
  | .syscall => l.saved.scause = excSyscall
  | .fresh => l.progress = .fresh
  | .entered => l.progress = .entered
  | .settled => l.wrote = false → l.saved.scause = excSyscall → ∃ ret, l.progress = .returned ret
  | .userFrame => l.UserFrame mem
  | .fromUser => l.user = true
  | .fromKernel => l.user = false
  | .irqOff => sstatus &&& srIe = 0

/-- The facts listed for each line of the text. -/
def facts : List (List Fact) :=
  let trapped := [Fact.s2Sepc, .s4Scause, .fresh, .userFrame]
  let current := Fact.tpCurrent :: trapped
  let called := [Fact.tpCurrent, .syscall, .entered, .userFrame]
  let done := [Fact.tpCurrent, .settled, .userFrame]
  let leaving := .irqOff :: done
  [trapped, .tpMask :: trapped, .tpStack :: trapped, current, current, .raRet :: current] ++
    List.replicate 4 (.raRet :: done) ++
    -- `1:`
    List.replicate 2 (.raRet :: current) ++ [.t0Syscall :: .raRet :: current] ++
    List.replicate 10 (.raRet :: done) ++
    -- `handle_syscall`
    List.replicate 2 (.syscall :: current) ++
    [[.s2Next, .tpCurrent, .syscall, .fresh, .userFrame]] ++ List.replicate 17 called ++
    -- the test in `ret_from_syscall`
    List.replicate 6 done ++ [.s0Status :: done, .s0Status :: leaving, .s0Ps :: leaving] ++
    List.replicate 6 (.fromUser :: leaving) ++ [.s0Top :: .fromUser :: leaving] ++
    List.replicate 2 [.settled, .fromKernel, .irqOff] ++
    -- `work_pending`
    List.replicate 2 done ++ List.replicate 9 (.raRet :: done) ++
    -- `handle_syscall_trace_enter`, `handle_syscall_trace_exit`
    List.replicate 12 called ++ List.replicate 4 done ++
    -- `ret_from_fork`, `ret_from_kernel_thread`
    List.replicate 2 done ++ [.raRet :: done] ++
    List.replicate 3 [.tpCurrent, .settled] ++ List.replicate 2 [.tpCurrent, .raRet, .settled]

def factsAt (i : Nat) : List Fact := facts[i]?.getD []

/-! ## The check -/

/-- The register that an instruction writes. -/
def Instr.target : Instr w → Option Reg
  | .li rd _ | .la rd _ | .mv rd _ | .add rd _ _ | .addi rd _ _ | .and rd _ _ | .andi rd _ _
  | .slli rd _ _ | .srli rd _ _ | .regL rd _ _ | .taskThreadInfo rd _ | .threadL rd _ _
  | .csrr rd _ | .csrrw rd _ _ | .csrrc rd _ _ => some rd
  | .regS _ _ _ | .threadS _ _ _ | .csrw _ _ | .csrwx0 _ | .csrs _ _ | .csrc _ _ => none

/-- The status register that an instruction writes. -/
def Instr.csrTarget : Instr w → Option Csr
  | .csrw c _ | .csrwx0 c | .csrs c _ | .csrc c _ | .csrrw _ c _ | .csrrc _ c _ => some c
  | _ => none

def Instr.isStore : Instr w → Bool
  | .regS _ _ _ | .threadS _ _ _ => true
  | _ => false

/-- The instruction may stand where these facts hold. The only stores are those of a system call. -/
def Instr.allowed (pre : List Fact) (i : Instr w) : Bool :=
  if i = store .s2 .sepc then .s2Next ∈ pre ∧ .fresh ∈ pre ∧ .syscall ∈ pre
  else if i = store .a0 (.x .a0) then .entered ∈ pre ∧ .syscall ∈ pre
  else i.isStore = false ∧ i.target ≠ some .sp ∧ i.csrTarget ≠ some .sscratch

/-- An instruction establishes a fact. -/
def Instr.gives (pre : List Fact) (i : Instr w) : Fact → Bool
  | .tpMask => i = .li .tp threadMask
  | .tpStack => i = .and .tp .tp .sp ∧ .tpMask ∈ pre
  | .tpCurrent => i = .regL .tp 0 .tp ∧ .tpStack ∈ pre
  | .s2Next => i = .addi .s2 .s2 0x4 ∧ .s2Sepc ∈ pre
  | .raRet => i = .la .ra (.label .retFromException)
  | .t0Syscall => i = .li .t0 excSyscall
  | .s0Status => i = load .s0 .sstatus ∧ .userFrame ∈ pre
  | .s0Ps => i = .andi .s0 .s0 srPs ∧ .s0Status ∈ pre
  | .s0Top => i = .addi .s0 .sp (BitVec.ofNat _ (ptSize w))
  | .entered => i = store .s2 .sepc
  | .settled => i = store .a0 (.x .a0)
  | .irqOff => i = .csrc .sstatus srIe
  | _ => false

/-- A fact outlives an instruction. -/
def Instr.keeps (i : Instr w) (f : Fact) : Bool :=
  (f.reg = none ∨ f.reg ≠ i.target) ∧ (i = store .s2 .sepc → f ≠ .fresh ∧ f ≠ .settled) ∧
    (i = store .a0 (.x .a0) → f ≠ .entered) ∧ (f = .irqOff → i.csrTarget ≠ some .sstatus)

/-- Every fact of a line is given or kept by the instruction before it. -/
def Instr.leaves (pre : List Fact) (i : Instr w) (post : List Fact) : Bool :=
  post.all fun f => i.gives pre f ∨ (f ∈ pre ∧ i.keeps f)

/-- Every fact of the line that C code returns to holds then, if it returns to
`ret_from_exception` with a frame for user mode. -/
def returns (pre post : List Fact) (toRet : Bool) : Bool :=
  post.all fun f => f = .tpCurrent ∨ (f = .userFrame ∧ toRet) ∨ (f.lasts ∧ f ∈ pre)

def Line.ok (i : Nat) (line : Line w) : Bool :=
  let pre := factsAt i
  let next := factsAt (i + 1)
  let at' (l : Label) := factsAt (l.index w)
  match line with
  | .label _ => next ⊆ pre
  | .instr ins => ins.allowed pre ∧ ins.leaves pre next
  | .bnez r l =>
    if r = .s0 ∧ .s0Ps ∈ pre then next ⊆ .fromUser :: pre ∧ at' l ⊆ .fromKernel :: pre
    else next ⊆ pre ∧ at' l ⊆ pre
  | .beq r r' l =>
    if r = .s4 ∧ r' = .t0 ∧ .s4Scause ∈ pre ∧ .t0Syscall ∈ pre then
      next ⊆ .settled :: pre ∧ at' l ⊆ .syscall :: pre
    else next ⊆ pre ∧ at' l ⊆ pre
  | .bgez r l =>
    if r = .s4 ∧ .s4Scause ∈ pre then next ⊆ .settled :: pre ∧ at' l ⊆ pre
    else next ⊆ pre ∧ at' l ⊆ pre
  | .bgeu _ _ l => next ⊆ pre ∧ at' l ⊆ pre
  | .j l => at' l ⊆ pre
  | .call _ | .jalr _ => .tpCurrent ∈ pre ∧ returns pre next false
  | .tail _ | .jr _ =>
    .tpCurrent ∈ pre ∧ .raRet ∈ pre ∧ returns pre (at' .retFromException) true
  | .exit is =>
    .settled ∈ pre ∧ .irqOff ∈ pre ∧ ((is = restoreAll ∧ .fromKernel ∈ pre) ∨
      (is = .csrw .sscratch .s0 :: restoreAll ∧ .fromUser ∈ pre ∧ .s0Top ∈ pre ∧
        .userFrame ∈ pre))

/-- **The facts are right**: those of each line follow from those of the lines before it. -/
theorem text_ok : ∀ i < (text : List (Line w)).length, ∀ line ∈ (text : List (Line w))[i]?,
    line.ok i = true := by
  cases w <;> decide +kernel

/-! ## Soundness of the check -/

section Sound

variable {image : Image w} {task stack : Word w} {l : Level w} {m : Machine w} {i : Instr w}
  {pre post : List Fact} {f : Fact}

/-- What a level keeps in memory besides its registers. -/
structure Level.Laid (l : Level w) (task stack : Word w) (mem : Memory (8 * szreg w)) : Prop where
  fit : l.base.toNat + ptSize w < 2 ^ (8 * szreg w)
  mask : threadMask &&& l.base = stack
  info : loadWord (szreg w) mem stack = task
  kernel : l.user = false → (frameAt mem l.base).sstatus &&& srPs ≠ 0

/-- The level after an instruction: a system call has come further. -/
def Level.note (l : Level w) (m : Machine w) (i : Instr w) : Level w :=
  if i = store .s2 .sepc then { l with progress := .entered }
  else if i = store .a0 (.x .a0) then { l with progress := .returned (m.x .a0) }
  else l

theorem Fact.Holds.congr {mem : Memory (8 * szreg w)} {x x' : Reg → Word w} {v v' : Word w}
    (h : f.Holds image task stack l mem x v) (hx : ∀ r, f.reg = some r → x' r = x r)
    (hv : f = .irqOff → v' = v) : f.Holds image task stack l mem x' v' := by
  cases f <;> simp_all [Fact.Holds, Fact.reg]

/-- An instruction that does not store writes its register and its status register only. -/
theorem Instr.exec_plain (sym : Sym → Word w) (m : Machine w) (hstore : i.isStore = false) :
    (i.exec sym m).mem = m.mem ∧ (i.exec sym m).task = m.task ∧
      (∀ r, i.target ≠ some r → (i.exec sym m).x r = m.x r) ∧
      ∀ c, i.csrTarget ≠ some c → (i.exec sym m).csr c = m.csr c := by
  cases i <;> simp [Instr.isStore] at hstore <;>
    refine ⟨rfl, rfl, fun r hr => ?_, fun c hc => ?_⟩ <;>
    simp_all [Instr.exec, Instr.target, Instr.csrTarget, Ne.symm]

/-- What an instruction establishes, when it does not store. -/
theorem Instr.gives_sound (hstore : i.isStore = false) (hsp : m.x .sp = l.base)
    (hl : l.Laid task stack m.mem)
    (hpre : ∀ f ∈ pre, f.Holds image task stack l m.mem m.x (m.csr .sstatus))
    (hf : i.gives pre f = true) :
    f.Holds image task stack l m.mem (i.exec image.sym m).x ((i.exec image.sym m).csr .sstatus) := by
  cases f <;> simp only [Instr.gives, decide_eq_true_eq, Bool.false_eq_true] at hf
  case tpMask =>
    subst hf
    simp [Fact.Holds, Instr.exec]
  case tpStack =>
    obtain ⟨rfl, hmask⟩ := hf
    have htp : m.x .tp = threadMask := hpre _ hmask
    simp [Fact.Holds, Instr.exec, htp, hsp, hl.mask]
  case tpCurrent =>
    obtain ⟨rfl, hstack⟩ := hf
    have htp : m.x .tp = stack := hpre _ hstack
    simp [Fact.Holds, Instr.exec, htp, hl.info]
  case s2Next =>
    obtain ⟨rfl, hsepc⟩ := hf
    have hs2 : m.x .s2 = l.saved.sepc := hpre _ hsepc
    simp [Fact.Holds, Instr.exec, hs2]
  case raRet =>
    subst hf
    simp [Fact.Holds, Instr.exec]
  case t0Syscall =>
    subst hf
    simp [Fact.Holds, Instr.exec]
  case s0Status =>
    obtain ⟨rfl, huser⟩ := hf
    have hframe : l.UserFrame m.mem := hpre _ huser
    rw [exec_load, hsp]
    simp only [Fact.Holds, Machine.setX_x, if_true, PtRegs.get]
    refine ⟨fun hps => ?_, hframe⟩
    cases hu : l.user with
    | true => rfl
    | false => exact absurd hps (hl.kernel hu)
  case s0Ps =>
    obtain ⟨rfl, hstatus⟩ := hf
    have hs0 : m.x .s0 &&& srPs = 0 ↔ l.user = true := hpre _ hstatus
    simpa [Fact.Holds, Instr.exec] using hs0
  case s0Top =>
    subst hf
    simp [Fact.Holds, Instr.exec, hsp]
  case entered =>
    subst hf
    cases hstore
  case settled =>
    subst hf
    cases hstore
  case irqOff =>
    subst hf
    simp only [Fact.Holds, Instr.exec, Machine.setCsr_csr, if_true, and_srIe_eq_zero]
    rw [getLsbD_csrStatus (by decide), BitVec.getLsbD_and, BitVec.getLsbD_not, getLsbD_srIe]
    simp

/-- What an instruction of the listing has done. -/
structure Stepped (l l' : Level w) (m m' : Machine w) : Prop where
  sp : m'.x .sp = l.base
  sscratch : m'.csr .sscratch = m.csr .sscratch
  task : m'.task = m.task
  agree : ∀ lo hi, hi ≤ l.base.toNat ∨ l.base.toNat + ptSize w ≤ lo → Agree m.mem m'.mem lo hi
  sstatus : (frameAt m'.mem l.base).sstatus = (frameAt m.mem l.base).sstatus
  due : frameAt m.mem l.base = l.due → frameAt m'.mem l.base = l'.due

theorem Instr.stepped_plain (hstore : i.isStore = false) (htarget : i.target ≠ some .sp)
    (hcsr : i.csrTarget ≠ some .sscratch) (hsp : m.x .sp = l.base) :
    Stepped l l m (i.exec image.sym m) := by
  obtain ⟨hmem, htask, hx, hc⟩ := Instr.exec_plain image.sym m hstore
  refine ⟨(hx _ htarget).trans hsp, hc _ hcsr, htask, fun lo hi _ => ?_, by rw [hmem], ?_⟩
  · rw [hmem]
    exact .refl _ _ _
  · rw [hmem]
    exact id

/-- The store of `sepc`: `handle_syscall` skips the system call. -/
theorem stepped_sepc (hsp : m.x .sp = l.base) (hl : l.Laid task stack m.mem)
    (hs2 : m.x .s2 = l.saved.sepc + 0x4) (hfresh : l.progress = .fresh) :
    Stepped l { l with progress := .entered } m ((store .s2 .sepc).exec image.sym m) := by
  have hfit := hl.fit
  rw [← hsp] at hfit
  have hstores := store_frameStores image.sym hfit .s2 .sepc
  have hframe := frameAt_exec_store image.sym hfit .s2 .sepc
  rw [setSlot_sepc, hsp, hs2] at hframe
  have hagree := hstores.agree
  rw [hsp] at hagree
  refine ⟨hsp, rfl, rfl, hagree, by rw [hframe], fun hdue => ?_⟩
  rw [hframe, hdue]
  simp only [Level.due, hfresh, handleSyscall]

/-- The store of `a0`: the result of a system call. -/
theorem stepped_a0 (hsp : m.x .sp = l.base) (hl : l.Laid task stack m.mem)
    (hentered : l.progress = .entered) :
    Stepped l { l with progress := .returned (m.x .a0) } m
      ((store .a0 (.x .a0)).exec image.sym m) := by
  have hfit := hl.fit
  rw [← hsp] at hfit
  have hstores := store_frameStores image.sym hfit .a0 (.x .a0)
  have hframe := frameAt_exec_store image.sym hfit .a0 (.x .a0)
  rw [setSlot_x, hsp] at hframe
  have hagree := hstores.agree
  rw [hsp] at hagree
  refine ⟨hsp, rfl, rfl, hagree, by rw [hframe], fun hdue => ?_⟩
  rw [hframe, hdue]
  simp only [Level.due, hentered, syscall, retFromSyscall, PtRegs.setX]
  exact PtRegs.ext rfl (funext fun r => Function.update_apply ..) rfl rfl rfl

/-- A fact that is kept holds at the level that is noted. -/
theorem Fact.Holds.note (hallowed : i.allowed pre = true)
    (hpre : ∀ f ∈ pre, f.Holds image task stack l m.mem m.x (m.csr .sstatus))
    (hkeeps : i.keeps f = true) (h : f.Holds image task stack l m.mem m.x (m.csr .sstatus))
    (hs : Stepped l (l.note m i) m (i.exec image.sym m))
    (hx : ∀ r, i.target ≠ some r → (i.exec image.sym m).x r = m.x r)
    (hc : ∀ c, i.csrTarget ≠ some c → (i.exec image.sym m).csr c = m.csr c) :
    f.Holds image task stack (l.note m i) (i.exec image.sym m).mem (i.exec image.sym m).x
      ((i.exec image.sym m).csr .sstatus) := by
  simp only [Instr.keeps, decide_eq_true_eq] at hkeeps
  obtain ⟨hreg, hfresh, hentered, hirq⟩ := hkeeps
  have h' : f.Holds image task stack l m.mem (i.exec image.sym m).x
      ((i.exec image.sym m).csr .sstatus) := by
    refine h.congr (fun r hr => hx r fun ht => ?_) fun hf => hc _ (hirq hf)
    rcases hreg with hnone | hne
    · rw [hnone] at hr
      cases hr
    · exact hne (hr.trans ht.symm)
  have hss := hs.sstatus
  unfold Level.note
  unfold Instr.allowed at hallowed
  split_ifs at hallowed ⊢ with h₁ h₂
  · obtain ⟨hne, hne'⟩ := hfresh h₁
    cases f
    case fresh => exact absurd rfl hne
    case settled => exact absurd rfl hne'
    case entered => rfl
    case userFrame => exact fun hu => hss ▸ h' hu
    all_goals exact h'
  · have hne := hentered h₂
    simp only [decide_eq_true_eq] at hallowed
    have hprog : l.progress = .entered := hpre .entered hallowed.1
    cases f
    case entered => exact absurd rfl hne
    case fresh =>
      have hfresh : l.progress = .fresh := h
      rw [hprog] at hfresh
      cases hfresh
    case settled => exact fun _ _ => ⟨_, rfl⟩
    case userFrame => exact fun hu => hss ▸ h' hu
    all_goals exact h'
  · cases f
    case userFrame => exact fun hu => hss ▸ h' hu
    all_goals exact h'

/-- **An instruction that passes the check** keeps `sp`, `sscratch` and memory outside the frame of
the trap, and leaves the facts of the next line. -/
theorem Instr.sound (hallowed : i.allowed pre = true) (hsp : m.x .sp = l.base)
    (hl : l.Laid task stack m.mem)
    (hpre : ∀ f ∈ pre, f.Holds image task stack l m.mem m.x (m.csr .sstatus))
    (hleaves : i.leaves pre post = true) :
    Stepped l (l.note m i) m (i.exec image.sym m) ∧
      ∀ f ∈ post, f.Holds image task stack (l.note m i) (i.exec image.sym m).mem
        (i.exec image.sym m).x ((i.exec image.sym m).csr .sstatus) := by
  simp only [Instr.leaves, List.all_eq_true, decide_eq_true_eq] at hleaves
  -- what is kept holds as soon as the effect is known
  suffices h : Stepped l (l.note m i) m (i.exec image.sym m) ∧
      (∀ r, i.target ≠ some r → (i.exec image.sym m).x r = m.x r) ∧
      (∀ c, i.csrTarget ≠ some c → (i.exec image.sym m).csr c = m.csr c) ∧
      ∀ f, i.gives pre f = true → f.Holds image task stack (l.note m i) (i.exec image.sym m).mem
        (i.exec image.sym m).x ((i.exec image.sym m).csr .sstatus) by
    obtain ⟨hs, hx, hc, hgives⟩ := h
    refine ⟨hs, fun f hf => ?_⟩
    rcases hleaves f hf with hgive | ⟨hmem, hkeeps⟩
    · exact hgives f hgive
    · exact (hpre f hmem).note hallowed hpre hkeeps hs hx hc
  unfold Instr.allowed at hallowed
  split_ifs at hallowed with h₁ h₂
  · subst h₁
    simp only [decide_eq_true_eq] at hallowed
    refine ⟨stepped_sepc hsp hl (hpre _ hallowed.1) (hpre _ hallowed.2.1), fun _ _ => rfl,
      fun _ _ => rfl, ?_⟩
    intro f hf
    cases f <;> simp [Instr.gives, store, load] at hf
    rfl
  · subst h₂
    simp only [decide_eq_true_eq] at hallowed
    have hnote : l.note m (store .a0 (.x .a0)) = { l with progress := .returned (m.x .a0) } :=
      (if_neg h₁).trans (if_pos rfl)
    rw [hnote]
    refine ⟨stepped_a0 hsp hl (hpre _ hallowed.1), fun _ _ => rfl, fun _ _ => rfl,
      fun f hf => ?_⟩
    cases f <;> simp [Instr.gives, store, load] at hf
    exact fun _ _ => ⟨_, rfl⟩
  · simp only [decide_eq_true_eq] at hallowed
    obtain ⟨hstore, htarget, hcsr⟩ := hallowed
    have hnote : l.note m i = l := by simp [Level.note, h₁, h₂]
    obtain ⟨hmem, -, hx, hc⟩ := Instr.exec_plain image.sym m hstore
    rw [hnote]
    refine ⟨stepped_plain hstore htarget hcsr hsp, hx, hc, fun f hf => ?_⟩
    rw [hmem]
    exact gives_sound hstore hsp hl hpre hf

end Sound

end LowriscLinux.Kernel.Entry
