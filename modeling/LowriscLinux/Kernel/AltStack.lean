import LowriscLinux.Kernel.Signal
import LowriscLinux.Mm.MemAccess

/-!
# Frames on the alternate signal stack

`get_sigframe` and `setup_rt_frame` (`arch/riscv/kernel/signal.c`, lines 86-155) for a task with an
alternate signal stack.

`get_sigframe` looks for an overflow before it rounds the address of the frame down (lines 97 and
104), and `sigsp` adds the size of the stack to its base without looking for a carry. Its comment
(lines 93-96) asks for a bogus address where the alternate stack would overflow.

## What models what

* `AltStack`: `sas_ss_sp` and `sas_ss_size` of a task.
* `AltStack.onSigStack`, `AltStack.sasSsFlags` and `AltStack.sigsp`: the generic functions of the
  same names, those of Linux 4.6 (`include/linux/sched.h`, `include/linux/signal.h`).
* `SigEnv.withAltStack`: the environment of `Kernel/Signal.lean` with these functions in it.
  `access_ok` there is `__access_ok` of `arch/riscv/include/asm/uaccess.h` (lines 75-79).
* `getSigframe` and `setupRtFrame` are those of `Kernel/Signal.lean`. The size of the frame is a
  parameter, as is the limit of addresses of the task.
* `AltStack.Holds` and `FramesStayInside` say what the frames of such a task should be. The bogus
  address is `-1`.

Results:
* `getSigframe_running`, `getSigframe_switching`: where the frame is placed.
* `setupRtFrame_bogus`: no frame is made at the bogus address.
* **`framesStayInside_iff`**: frames stay inside the alternate stack iff rounding down cannot reach
  below its base and its end is an address.
-/

namespace LowriscLinux.Kernel

open Lib Mm

variable {w : Xlen}

/-- The alternate signal stack of a task. -/
structure AltStack (w : Xlen) where
  sasSsSp : Word w
  sasSsSize : Word w
  deriving DecidableEq, Repr

namespace AltStack

/-- `on_sig_stack`. -/
def onSigStack (alt : AltStack w) (sp : Word w) : Bool :=
  alt.sasSsSp < sp && sp - alt.sasSsSp ≤ alt.sasSsSize

/-- `sas_ss_flags`: `SS_DISABLE`, `SS_ONSTACK` or 0. -/
def sasSsFlags (alt : AltStack w) (sp : Word w) : Nat :=
  if alt.sasSsSize = 0 then 2
  else if alt.onSigStack sp then 1
  else 0

/-- `sigsp`, for a signal whose action has `SA_ONSTACK` or not. -/
def sigsp (alt : AltStack w) (saOnstack : Bool) (sp : Word w) : Word w :=
  if saOnstack && alt.sasSsFlags sp = 0 then alt.sasSsSp + alt.sasSsSize else sp

end AltStack

/-- The generic kernel for a task with an alternate stack, at the delivery of one signal. -/
def SigEnv.withAltStack (env : SigEnv w) (alt : AltStack w) (saOnstack : Bool) (fs : Word w) :
    SigEnv w :=
  { env with
    onSigStack := alt.onSigStack
    sigsp := fun sp _ => alt.sigsp saOnstack sp
    accessOk := fun frame => Mm.accessOk fs frame env.frameSize }

/-! ## What a frame on the alternate stack should be -/

/-- The task runs on its alternate stack, or switches to it for the signal. -/
def AltStack.Used (alt : AltStack w) (saOnstack : Bool) (sp : Word w) : Prop :=
  alt.onSigStack sp = true ∨ saOnstack = true ∧ alt.sasSsFlags sp = 0

/-- The whole frame is inside the alternate stack, aligned, and below the stack pointer that it
was pushed from. -/
structure AltStack.Holds (alt : AltStack w) (framesize sp frame : Word w) : Prop where
  base_le : alt.sasSsSp.toNat ≤ frame.toNat
  end_le : frame.toNat + framesize.toNat ≤ alt.sasSsSp.toNat + alt.sasSsSize.toNat
  aligned : 16 ∣ frame.toNat
  below : frame.toNat + framesize.toNat ≤ sp.toNat

/-- A frame that is placed on the alternate stack stays on it, and where `get_sigframe` has no
place for a frame there is none. -/
def FramesStayInside (env : SigEnv w) (alt : AltStack w) (saOnstack : Bool) (fs : Word w)
    (ksig : Ksignal w) (regs : PtRegs w) : Prop :=
  let kernel := env.withAltStack alt saOnstack fs
  let frame := getSigframe kernel ksig regs
  (alt.Used saOnstack (regs.x .sp) → frame ≠ -1 →
      alt.Holds env.frameSize (alt.sigsp saOnstack (regs.x .sp)) frame) ∧
    (frame = -1 → setupRtFrame kernel ksig regs = none)

/-- On the alternate stack, a frame whose place passes the overflow check does not wrap around the
address space, and the base of the stack is aligned or in an earlier block of 16 bytes than that
place. To switch to the stack, its end is an address. -/
structure AltStack.Roomy (alt : AltStack w) (framesize : Word w) (saOnstack : Bool)
    (sp : Word w) : Prop where
  running : alt.onSigStack sp = true → alt.onSigStack (sp - framesize) = true →
    framesize ≤ sp ∧
      (16 ∣ alt.sasSsSp.toNat ∨ alt.sasSsSp.toNat / 16 < (sp - framesize).toNat / 16)
  switching : saOnstack = true → alt.sasSsFlags sp = 0 →
    alt.sasSsSp.toNat + alt.sasSsSize.toNat < 2 ^ (8 * szreg w)

/-! ## Where the frame is -/

section Frames

variable {env : SigEnv w} {alt : AltStack w} {saOnstack : Bool} {fs sp framesize : Word w}
  {ksig : Ksignal w} {regs : PtRegs w}

theorem AltStack.onSigStack_iff : alt.onSigStack sp = true ↔
    alt.sasSsSp.toNat < sp.toNat ∧ sp.toNat - alt.sasSsSp.toNat ≤ alt.sasSsSize.toNat := by
  have hsub := toNat_sub_ite sp alt.sasSsSp
  simp only [onSigStack, Bool.and_eq_true, decide_eq_true_eq, BitVec.lt_def, BitVec.le_def]
  refine and_congr_right fun hlt => ?_
  rw [hsub, if_pos (by omega)]

theorem AltStack.sasSsFlags_eq_zero_iff :
    alt.sasSsFlags sp = 0 ↔ alt.sasSsSize ≠ 0 ∧ alt.onSigStack sp = false := by
  unfold sasSsFlags
  split_ifs with hsize hon
  · simp [hsize]
  · simp [hon]
  · exact iff_of_true rfl ⟨hsize, Bool.eq_false_iff.mpr hon⟩

theorem AltStack.sigsp_running (h : alt.onSigStack sp = true) : alt.sigsp saOnstack sp = sp := by
  have hflags : alt.sasSsFlags sp ≠ 0 := fun h0 => by
    rw [(sasSsFlags_eq_zero_iff.mp h0).2] at h
    cases h
  simp [sigsp, hflags]

theorem AltStack.sigsp_switching (hon : saOnstack = true) (hflags : alt.sasSsFlags sp = 0) :
    alt.sigsp saOnstack sp = alt.sasSsSp + alt.sasSsSize := by
  simp [sigsp, hon, hflags]

/-- The mask of `get_sigframe` rounds down to a multiple of 16. -/
theorem toNat_align (a : Word w) : (a &&& ~~~0xf).toNat = a.toNat / 16 * 16 :=
  toNat_and_not_mask a 4

/-- On the alternate stack the frame goes below the stack pointer, unless that overflows. -/
theorem getSigframe_running (env : SigEnv w) (saOnstack : Bool) (fs : Word w) (ksig : Ksignal w)
    (h : alt.onSigStack (regs.x .sp) = true) :
    getSigframe (env.withAltStack alt saOnstack fs) ksig regs =
      if alt.onSigStack (regs.x .sp - env.frameSize) then
        (regs.x .sp - env.frameSize) &&& ~~~0xf
      else -1 := by
  simp only [getSigframe, SigEnv.withAltStack, h, AltStack.sigsp_running h, Bool.true_and]
  cases alt.onSigStack (regs.x .sp - env.frameSize) <;> simp

/-- A signal that switches has its frame below the end of the alternate stack. -/
theorem getSigframe_switching (env : SigEnv w) (fs : Word w) (ksig : Ksignal w)
    (hon : saOnstack = true) (hflags : alt.sasSsFlags (regs.x .sp) = 0) :
    getSigframe (env.withAltStack alt saOnstack fs) ksig regs =
      (alt.sasSsSp + alt.sasSsSize - env.frameSize) &&& ~~~0xf := by
  have hoff := (AltStack.sasSsFlags_eq_zero_iff.mp hflags).2
  simp [getSigframe, SigEnv.withAltStack, hoff, AltStack.sigsp_switching hon hflags]

/-- A rounded address is not the bogus one. -/
theorem align_ne (a : Word w) : a &&& ~~~0xf ≠ -1 := by
  intro h
  have hval := congrArg BitVec.toNat h
  have hodd : (-1 : Word w).toNat % 16 = 15 := by cases w <;> rfl
  rw [toNat_align] at hval
  omega

theorem getSigframe_eq_bogus (h : getSigframe (env.withAltStack alt saOnstack fs) ksig regs = -1) :
    env.frameSize ≠ 0 := by
  intro hzero
  have hsame : regs.x .sp - env.frameSize = regs.x .sp := by
    rw [hzero]
    exact BitVec.sub_zero _
  have hcheck : (alt.onSigStack (regs.x .sp) &&
      !alt.onSigStack (regs.x .sp - env.frameSize)) = false := by
    rw [hsame, Bool.and_not_self]
  simp only [getSigframe, SigEnv.withAltStack, hcheck, Bool.false_eq_true, if_false] at h
  exact align_ne _ h

/-- `access_ok` refuses the bogus address. -/
theorem accessOk_bogus (fs : Word w) {size : Word w} (h : size ≠ 0) :
    accessOk fs (-1) size = false := by
  have hpos : 0 < size.toNat := Nat.pos_of_ne_zero fun h0 => h (BitVec.eq_of_toNat_eq h0)
  have hfs := fs.isLt
  have hall : (-1 : Word w).toNat = 2 ^ (8 * szreg w) - 1 := by cases w <;> rfl
  by_contra hok
  have hfit := accessOk_fit ((Bool.not_eq_false _).mp hok)
  omega

theorem setupRtFrame_bogus (h : getSigframe (env.withAltStack alt saOnstack fs) ksig regs = -1) :
    setupRtFrame (env.withAltStack alt saOnstack fs) ksig regs = none := by
  have hrefused := accessOk_bogus fs (getSigframe_eq_bogus h)
  simp only [setupRtFrame, h]
  rw [if_pos]
  simpa [SigEnv.withAltStack] using hrefused

/-! ## Frames that stay inside -/

/-- A frame below the stack pointer on the alternate stack. -/
theorem AltStack.holds_running_iff (hsp : alt.onSigStack sp = true)
    (hplace : alt.onSigStack (sp - framesize) = true) :
    alt.Holds framesize sp ((sp - framesize) &&& ~~~0xf) ↔
      framesize ≤ sp ∧
        (16 ∣ alt.sasSsSp.toNat ∨ alt.sasSsSp.toNat / 16 < (sp - framesize).toNat / 16) := by
  have hsub := toNat_sub_ite sp framesize
  have hframe := toNat_align (sp - framesize)
  obtain ⟨hbase, hend⟩ := onSigStack_iff.mp hsp
  obtain ⟨hlow, -⟩ := onSigStack_iff.mp hplace
  rw [BitVec.le_def]
  constructor
  · rintro ⟨hbase_le, -, -, hbelow⟩
    have hle : framesize.toNat ≤ sp.toNat := by
      by_contra hgt
      rw [if_neg hgt] at hsub
      have hlt := framesize.isLt
      omega
    exact ⟨hle, by omega⟩
  · rintro ⟨hle, hblock⟩
    rw [if_pos hle] at hsub
    exact ⟨by omega, by omega, hframe ▸ Nat.dvd_mul_left .., by omega⟩

/-- A frame below the end of the alternate stack, which has room for it. -/
theorem AltStack.holds_switching_iff
    (hsize : framesize.toNat + 16 ≤ alt.sasSsSize.toNat) :
    alt.Holds framesize (alt.sasSsSp + alt.sasSsSize)
        ((alt.sasSsSp + alt.sasSsSize - framesize) &&& ~~~0xf) ↔
      alt.sasSsSp.toNat + alt.sasSsSize.toNat < 2 ^ (8 * szreg w) := by
  have hsub := toNat_sub_ite (alt.sasSsSp + alt.sasSsSize) framesize
  have hframe := toNat_align (alt.sasSsSp + alt.sasSsSize - framesize)
  have hadd := BitVec.toNat_add alt.sasSsSp alt.sasSsSize
  have hb := alt.sasSsSp.isLt
  have hs := alt.sasSsSize.isLt
  constructor
  · rintro ⟨hbase_le, -, -, hbelow⟩
    by_contra hwrap
    -- The end of the stack has wrapped to below its base.
    rw [Nat.mod_eq_sub_mod (by omega), Nat.mod_eq_of_lt (by omega)] at hadd
    omega
  · intro hlt
    rw [Nat.mod_eq_of_lt hlt] at hadd
    rw [if_pos (by omega)] at hsub
    exact ⟨by omega, by omega, hframe ▸ Nat.dvd_mul_left .., by omega⟩

end Frames

/-- **Frames stay inside the alternate stack iff rounding down cannot reach below its base and its
end is an address.** -/
theorem framesStayInside_iff (env : SigEnv w) (alt : AltStack w) (saOnstack : Bool) (fs : Word w)
    (ksig : Ksignal w) (regs : PtRegs w)
    (hsize : env.frameSize.toNat + 16 ≤ alt.sasSsSize.toNat) :
    FramesStayInside env alt saOnstack fs ksig regs ↔
      alt.Roomy env.frameSize saOnstack (regs.x .sp) := by
  constructor
  · rintro ⟨hinside, -⟩
    constructor
    case running =>
      intro hsp hplace
      have hframe := getSigframe_running env saOnstack fs ksig hsp
      rw [if_pos hplace] at hframe
      have hholds := hinside (.inl hsp) (hframe ▸ align_ne _)
      rw [hframe, AltStack.sigsp_running hsp] at hholds
      exact (AltStack.holds_running_iff hsp hplace).mp hholds
    case switching =>
      intro hon hflags
      have hframe := getSigframe_switching env fs ksig hon hflags
      have hholds := hinside (.inr ⟨hon, hflags⟩) (hframe ▸ align_ne _)
      rw [hframe, AltStack.sigsp_switching hon hflags] at hholds
      exact (AltStack.holds_switching_iff hsize).mp hholds
  · intro hroomy
    refine ⟨fun hused hne => ?_, setupRtFrame_bogus⟩
    rcases hused with hsp | ⟨hon, hflags⟩
    · rw [getSigframe_running env saOnstack fs ksig hsp] at hne ⊢
      rw [AltStack.sigsp_running hsp]
      split_ifs at hne ⊢ with hplace
      · exact (AltStack.holds_running_iff hsp hplace).mpr (hroomy.running hsp hplace)
      · exact absurd rfl hne
    · rw [getSigframe_switching env fs ksig hon hflags, AltStack.sigsp_switching hon hflags]
      exact (AltStack.holds_switching_iff hsize).mpr (hroomy.switching hon hflags)

/-- An alternate stack whose base is not aligned. -/
def oddStack : AltStack .rv64 := ⟨0x1008, 0x1000⟩

/-- A task on that stack, near its base. -/
def nearBase : PtRegs .rv64 where
  sepc := 0x10000
  x r := if r = .sp then 0x140c else 0
  sstatus := srPie
  sbadaddr := 0
  scause := 0

/-- A signal with a handler. -/
def sigusr1 : Ksignal .rv64 := ⟨10, 0x11000, false⟩

/-- Far from the base the frame of the same stack is inside. -/
theorem framesStayInside_odd :
    FramesStayInside plainEnv oddStack false 0x4000000000 sigusr1 (nearBase.setX .sp 0x1800) :=
  (framesStayInside_iff plainEnv oddStack false 0x4000000000 sigusr1 (nearBase.setX .sp 0x1800)
    (by decide)).mpr ⟨by decide, by decide⟩

/-- **A frame is delivered that begins 8 bytes below the stack.** -/
theorem not_framesStayInside_odd :
    (plainEnv (w := .rv64)).frameSize.toNat + 16 ≤ oddStack.sasSsSize.toNat ∧
      (setupRtFrame (plainEnv.withAltStack oddStack false 0x4000000000) sigusr1 nearBase).map
          (·.frame) = some 0x1000 ∧
      oddStack.Used false (nearBase.x .sp) ∧
      ¬FramesStayInside plainEnv oddStack false 0x4000000000 sigusr1 nearBase := by
  have hframe : getSigframe (plainEnv.withAltStack oddStack false 0x4000000000) sigusr1 nearBase =
      0x1000 := by decide
  refine ⟨by decide, by decide, .inl (by decide), fun h => ?_⟩
  have hbase := (h.1 (.inl (by decide)) (by rw [hframe]; decide)).base_le
  rw [hframe] at hbase
  exact absurd hbase (by decide)

end LowriscLinux.Kernel
