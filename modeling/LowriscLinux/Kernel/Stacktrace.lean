import LowriscLinux.Kernel.Entry
import LowriscLinux.Lib.Halting
import LowriscLinux.Lib.Memory

/-!
# The stack walker

Model of `walk_stackframe` (`arch/riscv/kernel/stacktrace.c`), in its two versions: with
`CONFIG_FRAME_POINTER` (lines 6-52) and without (lines 54-87). The walker calls `fn` with one
program counter after the other until it returns true. With frame pointers it follows the chain of
the frames, as long as the next one is above the last one and on the same stack; without them it
reads every word up to the end of the stack.

## What models what

* `Start`: the three ways to begin (lines 18-32 and 62-73), from the registers of a trap, from the
  walker itself or from a task that is blocked in `__switch_to`.
* `step`: one round of `for (;;)`, lines 34-51. `low`, `high` and `frame` are those of the source,
  and the additions wrap around. A record is below the address that `fp` has (line 47).
* `scanStep`: one round of `while`, lines 79-84.
* `walkStackframe`: the loops from their start, with at most `fuel` rounds and `none` beyond.
  Without frame pointers the walk ends at once where the stack pointer is not aligned (lines 75 and
  76).
* `Outcome`: what `fn` has left in `*arg`, with the addresses that were read and the calls of `fn`.

Memory, and what is kernel text, may depend on what `fn` has done so far (`σ`), so nothing is
assumed of what the walker reads. `__kernel_text_address` and `kstack_end` are of the generic
kernel: the first is a parameter of the walk, and of the second `EndsStacks` says what it tells.

Results:
* `Within.step`, `Within.scanStep`: a step moves the stack pointer up and reads below the end of the
  stack that the walk began on.
* **`walk_stackframe_safe`**: the walks end, and they only read words of that stack.
-/

namespace LowriscLinux.Kernel.Stacktrace

open Lib Entry

variable {w : Xlen} {σ : Type}

/-- What a walk depends on. -/
structure Env (w : Xlen) (σ : Type) where
  /-- `__kernel_text_address`. -/
  kernelTextAddress : σ → Word w → Bool
  /-- `kstack_end`. -/
  kstackEnd : Word w → Bool
  /-- The callback, with what it leaves. -/
  fn : Word w → σ → Bool × σ
  mem : σ → Memory (8 * szreg w)

/-- What a walk has done: what `fn` left, the addresses of the words that were read and the
arguments of the calls of `fn`, both in order. -/
structure Outcome (w : Xlen) (σ : Type) where
  arg : σ
  reads : List (Word w)
  calls : List (Word w)

/-- A call of `fn`. -/
def Env.call (env : Env w σ) (pc : Word w) (o : Outcome w σ) : Bool × Outcome w σ :=
  let r := env.fn pc o.arg
  (r.1, { o with arg := r.2, calls := o.calls ++ [pc] })

/-- Where a walk starts: from `regs`, from the walker itself, or from a task blocked in
`__switch_to`. -/
inductive Start (w : Xlen)
  | regs (regs : PtRegs w)
  | current (frameAddress currentSp walkStackframe : Word w)
  | blocked (s0 sp ra : Word w)

namespace Start

def fp : Start w → Word w
  | regs r => r.x .s0
  | current frameAddress _ _ => frameAddress
  | blocked s0 _ _ => s0

def sp : Start w → Word w
  | regs r => r.x .sp
  | current _ currentSp _ => currentSp
  | blocked _ sp _ => sp

def pc : Start w → Word w
  | regs r => r.sepc
  | current _ _ walkStackframe => walkStackframe
  | blocked _ _ ra => ra

end Start

/-! ## With frame pointers -/

/-- `sizeof(struct stackframe)`: the words `fp` and `ra`. -/
def frameSize (w : Xlen) : Nat := 2 * szreg w

/-- `ALIGN(x, THREAD_SIZE)`. -/
def align (x : Word w) : Word w := (x + BitVec.ofNat _ (threadSize - 1)) &&& threadMask

/-- The variables of the loop. -/
structure State (w : Xlen) (σ : Type) where
  fp : Word w
  sp : Word w
  pc : Word w
  out : Outcome w σ

/-- One iteration of `for (;;)`. -/
def step (env : Env w σ) (s : State w σ) : State w σ ⊕ Outcome w σ :=
  if !env.kernelTextAddress s.out.arg s.pc then .inr s.out
  else
    let (stop, out) := env.call s.pc s.out
    if stop then .inr out
    else
      let low := s.sp + BitVec.ofNat _ (frameSize w)
      let high := align s.sp
      if s.fp < low ∨ s.fp > high ∨ s.fp &&& 0x7 ≠ 0 then .inr out
      else
        let frame := s.fp - BitVec.ofNat _ (frameSize w)
        let ra := frame + BitVec.ofNat _ (szreg w)
        .inl { fp := loadWord (szreg w) (env.mem out.arg) frame
               sp := s.fp
               pc := loadWord (szreg w) (env.mem out.arg) ra - 0x4
               out := { out with reads := out.reads ++ [frame, ra] } }

/-! ## Without -/

/-- The variables of the loop. -/
structure ScanState (w : Xlen) (σ : Type) where
  ksp : Word w
  pc : Word w
  out : Outcome w σ

/-- `__kernel_text_address(pc) && fn(pc, arg)`. -/
def Env.callText (env : Env w σ) (pc : Word w) (o : Outcome w σ) : Bool × Outcome w σ :=
  if env.kernelTextAddress o.arg pc then env.call pc o else (false, o)

/-- One iteration of `while (!kstack_end(ksp))`. -/
def scanStep (env : Env w σ) (s : ScanState w σ) : ScanState w σ ⊕ Outcome w σ :=
  if env.kstackEnd s.ksp then .inr s.out
  else
    let (stop, out) := env.callText s.pc s.out
    if stop then .inr out
    else
      .inl { ksp := s.ksp + BitVec.ofNat _ (szreg w)
             pc := loadWord (szreg w) (env.mem out.arg) s.ksp - 0x4
             out := { out with reads := out.reads ++ [s.ksp] } }

/-! ## The walk -/

/-- `CONFIG_FRAME_POINTER`. -/
inductive Config
  | framePointer
  | noFramePointer
  deriving DecidableEq, Repr

/-- The loop of `walk_stackframe` at its start. -/
def Start.state (start : Start w) (arg : σ) : State w σ :=
  ⟨start.fp, start.sp, start.pc, ⟨arg, [], []⟩⟩

def Start.scanState (start : Start w) (arg : σ) : ScanState w σ :=
  ⟨start.sp, start.pc, ⟨arg, [], []⟩⟩

/-- `walk_stackframe`, with at most `fuel` iterations. -/
def walkStackframe (config : Config) (env : Env w σ) (fuel : Nat) (start : Start w) (arg : σ) :
    Option (Outcome w σ) :=
  match config with
  | .framePointer => runFor (step env) fuel (start.state arg)
  | .noFramePointer =>
    if start.sp &&& 0x7 ≠ 0 then some ⟨arg, [], []⟩
    else runFor (scanStep env) fuel (start.scanState arg)

/-- The word at `a` is aligned and on the stack: from `sp0` up to its end. -/
structure OnStack (sp0 a : Word w) : Prop where
  aligned : a.toNat % szreg w = 0
  low : sp0.toNat ≤ a.toNat
  high : a.toNat + szreg w ≤ (align sp0).toNat

/-! ## The end of the stack -/

section Align

variable {x y : Word w}

theorem toNat_align (h : x.toNat ≤ 2 ^ (8 * szreg w) - threadSize) :
    (align x).toNat = (x.toNat + 8191) / 8192 * 8192 := by
  have hle : 2 ^ 32 ≤ 2 ^ (8 * szreg w) := Nat.pow_le_pow_right (by decide) (le_xlen w)
  have hsize : threadSize = 8192 := rfl
  have hadd : (x + BitVec.ofNat _ (threadSize - 1)).toNat = x.toNat + (threadSize - 1) :=
    toNat_add_lt (by omega)
  have hmask := toNat_and_not_mask (x + BitVec.ofNat _ (threadSize - 1)) 13
  rw [hadd] at hmask
  exact hmask

/-- The end of the stack is at most a thread's stack away. -/
theorem align_bounds (h : x.toNat ≤ 2 ^ (8 * szreg w) - threadSize) :
    x.toNat ≤ (align x).toNat ∧ (align x).toNat < x.toNat + threadSize ∧
      (align x).toNat ≤ 2 ^ (8 * szreg w) - threadSize := by
  have hle : 2 ^ 32 ≤ 2 ^ (8 * szreg w) := Nat.pow_le_pow_right (by decide) (le_xlen w)
  have hsize : threadSize = 8192 := rfl
  have hdvd : 2 ^ (8 * szreg w) % 8192 = 0 := by cases w <;> decide
  have hval := toNat_align h
  omega

/-- Rounding up from a point below the end of the stack does not go past it, the end included. -/
theorem align_le (hx : x.toNat ≤ 2 ^ (8 * szreg w) - threadSize) (h : y.toNat ≤ (align x).toNat) :
    (align y).toNat ≤ (align x).toNat := by
  have hbounds := align_bounds hx
  rw [toNat_align (show y.toNat ≤ 2 ^ (8 * szreg w) - threadSize by omega)]
  rw [toNat_align hx] at *
  omega

end Align

/-! ## What the walks keep -/

section Frames

variable {env : Env w σ} {sp0 : Word w} {s s' : State w σ}

/-- What a step to another frame is. -/
theorem step_next (h : step env s = .inl s') :
    let frame := s.fp - BitVec.ofNat _ (frameSize w)
    (s.sp + BitVec.ofNat _ (frameSize w)).toNat ≤ s.fp.toNat ∧ s.fp.toNat ≤ (align s.sp).toNat ∧
      s.fp &&& 0x7 = 0 ∧ s'.sp = s.fp ∧ s'.out.calls = s.out.calls ++ [s.pc] ∧
      s'.out.reads = s.out.reads ++ [frame, frame + BitVec.ofNat _ (szreg w)] := by
  simp only [step] at h
  split at h
  · cases h
  · split at h
    · cases h
    · split at h
      · cases h
      · next hvalid =>
        push Not at hvalid
        obtain rfl := Sum.inl.inj h
        exact ⟨BitVec.not_lt.mp hvalid.1, BitVec.not_lt.mp hvalid.2.1, hvalid.2.2, rfl, rfl, rfl⟩

/-- The last step reads nothing and calls `fn` at most once. -/
theorem step_last {o : Outcome w σ} (h : step env s = .inr o) :
    o.reads = s.out.reads ∧ o.calls.length ≤ s.out.calls.length + 1 := by
  simp only [step] at h
  split at h
  · obtain rfl := Sum.inr.inj h
    exact ⟨rfl, Nat.le_succ _⟩
  · have hcall : (env.call s.pc s.out).2.reads = s.out.reads ∧
        (env.call s.pc s.out).2.calls.length ≤ s.out.calls.length + 1 :=
      ⟨rfl, by simp [Env.call]⟩
    split at h
    · obtain rfl := Sum.inr.inj h
      exact hcall
    · split at h
      · obtain rfl := Sum.inr.inj h
        exact hcall
      · cases h

/-- The walk is on the stack it began on, and each frame so far was as large as a record. -/
structure Within (sp0 : Word w) (s : State w σ) : Prop where
  high : s.sp.toNat ≤ (align sp0).toNat
  climbed : sp0.toNat + frameSize w * s.out.calls.length ≤ s.sp.toNat
  reads : ∀ a ∈ s.out.reads, OnStack sp0 a

theorem dvd_of_and_seven {x : Word w} (h : x &&& 0x7 = 0) : szreg w ∣ x.toNat := by
  have hle := le_xlen w
  have hszreg : szreg w ∣ 8 := by cases w <;> decide
  have hmask : (0x7 : Word w) = BitVec.ofNat _ (2 ^ 3 - 1) := rfl
  have hmod := toNat_and_mask x (show 3 ≤ 8 * szreg w by omega)
  rw [← hmask, h] at hmod
  exact hszreg.trans (Nat.dvd_of_mod_eq_zero hmod.symm)

/-- Both words of the record below a valid frame pointer are on the stack. -/
theorem onStack_frame (sp0 : Word w) {fp : Word w} (hlow : sp0.toNat + frameSize w ≤ fp.toNat)
    (hhigh : fp.toNat ≤ (align sp0).toNat) (hdvd : szreg w ∣ fp.toNat) :
    let frame := fp - BitVec.ofNat _ (frameSize w)
    OnStack sp0 frame ∧ OnStack sp0 (frame + BitVec.ofNat _ (szreg w)) := by
  intro frame
  have hlt := fp.isLt
  have hpos := szreg_pos w
  have hsize : frameSize w = 2 * szreg w := rfl
  have hframe : frame.toNat = fp.toNat - 2 * szreg w := by
    rw [toNat_sub_ofNat _ (by omega), if_pos (by omega), hsize]
  have hra : (frame + BitVec.ofNat _ (szreg w)).toNat = fp.toNat - szreg w := by
    rw [toNat_add_lt (by omega), hframe]
    omega
  refine ⟨⟨Nat.mod_eq_zero_of_dvd ?_, by omega, by omega⟩,
    ⟨Nat.mod_eq_zero_of_dvd ?_, by omega, by omega⟩⟩
  · rw [hframe]
    exact Nat.dvd_sub hdvd (Nat.dvd_mul_left _ _)
  · rw [hra]
    exact Nat.dvd_sub hdvd (Nat.dvd_refl _)

theorem Within.step (hsp : sp0.toNat ≤ 2 ^ (8 * szreg w) - threadSize) (hs : Within sp0 s)
    (h : step env s = .inl s') :
    Within sp0 s' ∧ s.sp.toNat + frameSize w ≤ s'.sp.toNat := by
  obtain ⟨hlow, hhigh, halign, hsp', hcalls, hreads⟩ := step_next h
  have hbounds := align_bounds hsp
  have htop := align_le hsp hs.high
  have hclimbed := hs.climbed
  have hhighSp := hs.high
  have hle : 2 ^ 32 ≤ 2 ^ (8 * szreg w) := Nat.pow_le_pow_right (by decide) (le_xlen w)
  have hsize : threadSize = 8192 := rfl
  have hframe : frameSize w ≤ 16 := by cases w <;> decide
  rw [toNat_add_lt (by omega)] at hlow
  have hrecord := onStack_frame sp0 (by omega) (by omega) (dvd_of_and_seven halign)
  refine ⟨⟨?high, ?climbed, ?reads⟩, ?up⟩
  case high =>
    rw [hsp']
    omega
  case climbed =>
    rw [hsp', hcalls, List.length_append, List.length_singleton, Nat.mul_succ]
    omega
  case reads =>
    intro a ha
    rw [hreads, List.mem_append, List.mem_pair] at ha
    rcases ha with ha | rfl | rfl
    · exact hs.reads a ha
    · exact hrecord.1
    · exact hrecord.2
  case up =>
    rw [hsp']
    exact hlow

theorem Within.start (start : Start w) (arg : σ)
    (hsp : start.sp.toNat ≤ 2 ^ (8 * szreg w) - threadSize) :
    Within start.sp (start.state arg) where
  high := (align_bounds hsp).1
  climbed := Nat.le_refl _
  reads _ ha := by cases ha

/-- The rounds that the stack has room for. -/
def Within.rounds (sp0 : Word w) (s : State w σ) : Nat :=
  ((align sp0).toNat - s.sp.toNat) / frameSize w

theorem Within.rounds_lt (hsp : sp0.toNat ≤ 2 ^ (8 * szreg w) - threadSize) (hs : Within sp0 s) :
    rounds sp0 s < threadSize / frameSize w + 1 := by
  have hbounds := align_bounds hsp
  have hclimbed := hs.climbed
  exact Nat.lt_succ_of_le (Nat.div_le_div_right (by omega))

theorem Within.rounds_step (hs' : Within sp0 s')
    (hup : s.sp.toNat + frameSize w ≤ s'.sp.toNat) : rounds sp0 s' < rounds sp0 s := by
  have hpos : 0 < frameSize w := by cases w <;> decide
  have hhigh := hs'.high
  have hlt : rounds sp0 s' + 1 ≤ rounds sp0 s := by
    rw [rounds, rounds, ← Nat.add_div_right _ hpos]
    exact Nat.div_le_div_right (by omega)
  exact hlt

/-- A round calls `fn` once, so there are no more calls than rounds. -/
theorem Within.calls_le (hsp : sp0.toNat ≤ 2 ^ (8 * szreg w) - threadSize) (hs : Within sp0 s) :
    s.out.calls.length ≤ threadSize / frameSize w := by
  have hbounds := align_bounds hsp
  have hclimbed := hs.climbed
  have hhigh := hs.high
  have hpos : 0 < frameSize w := by cases w <;> decide
  rw [Nat.le_div_iff_mul_le hpos, Nat.mul_comm]
  omega

end Frames

section Scan

variable {env : Env w σ} {sp0 : Word w} {s s' : ScanState w σ}

theorem Env.callText_reads (env : Env w σ) (pc : Word w) (o : Outcome w σ) :
    (env.callText pc o).2.reads = o.reads := by
  unfold callText
  split <;> rfl

theorem scanStep_next (h : scanStep env s = .inl s') :
    env.kstackEnd s.ksp = false ∧ s'.ksp = s.ksp + BitVec.ofNat _ (szreg w) ∧
      s'.out.reads = s.out.reads ++ [s.ksp] := by
  simp only [scanStep] at h
  split at h
  · cases h
  · next hend =>
    split at h
    · cases h
    · obtain rfl := Sum.inl.inj h
      exact ⟨Bool.eq_false_of_not_eq_true hend, rfl, by rw [env.callText_reads]⟩

theorem scanStep_last {o : Outcome w σ} (h : scanStep env s = .inr o) :
    o.reads = s.out.reads := by
  simp only [scanStep] at h
  split at h
  · obtain rfl := Sum.inr.inj h
    rfl
  · split at h
    · obtain rfl := Sum.inr.inj h
      exact env.callText_reads s.pc s.out
    · cases h

/-- The walk has not gone past the end of the stack. -/
structure WithinScan (sp0 : Word w) (s : ScanState w σ) : Prop where
  aligned : szreg w ∣ s.ksp.toNat
  low : sp0.toNat ≤ s.ksp.toNat
  high : s.ksp.toNat ≤ (align sp0).toNat
  reads : ∀ a ∈ s.out.reads, OnStack sp0 a

/-- `kstack_end` tells the word-aligned ends of stacks. -/
def EndsStacks (kstackEnd : Word w → Bool) : Prop :=
  ∀ p : Word w, p.toNat % szreg w = 0 → (kstackEnd p = true ↔ p.toNat % threadSize = 0)

theorem WithinScan.step (hsp : sp0.toNat ≤ 2 ^ (8 * szreg w) - threadSize)
    (hend : EndsStacks env.kstackEnd) (hs : WithinScan sp0 s) (h : scanStep env s = .inl s') :
    WithinScan sp0 s' ∧ s'.ksp.toNat = s.ksp.toNat + szreg w := by
  obtain ⟨hgo, hksp, hreads⟩ := scanStep_next h
  have haligned := Nat.mod_eq_zero_of_dvd hs.aligned
  have hbounds := align_bounds hsp
  have hpos := szreg_pos w
  have hlow := hs.low
  have hhigh := hs.high
  have hnot : s.ksp.toNat % threadSize ≠ 0 := fun h0 => by
    rw [(hend s.ksp haligned).mpr h0] at hgo
    cases hgo
  have htop : (align sp0).toNat % threadSize = 0 := by
    rw [toNat_align hsp]
    exact Nat.mul_mod_left _ _
  -- a word below the end of the stack ends at most there
  have hword : s.ksp.toNat + szreg w ≤ (align sp0).toNat := by
    have hne : s.ksp.toNat ≠ (align sp0).toNat := fun heq => hnot (heq ▸ htop)
    have hdvd : szreg w ∣ threadSize := by cases w <;> decide
    have htop' : (align sp0).toNat % szreg w = 0 :=
      Nat.mod_eq_zero_of_dvd (hdvd.trans (Nat.dvd_of_mod_eq_zero htop))
    exact add_le_of_mod_eq (haligned.trans htop'.symm) (by omega)
  have hval : s'.ksp.toNat = s.ksp.toNat + szreg w := by
    rw [hksp, toNat_add_lt]
    have hlt := (align sp0).isLt
    omega
  refine ⟨⟨?aligned, ?low, ?high, ?reads⟩, hval⟩
  case aligned =>
    rw [hval]
    exact Nat.dvd_add hs.aligned (Nat.dvd_refl _)
  case low => omega
  case high => omega
  case reads =>
    intro a ha
    rw [hreads, List.mem_append, List.mem_singleton] at ha
    rcases ha with ha | rfl
    · exact hs.reads a ha
    · exact ⟨haligned, hs.low, hword⟩

theorem WithinScan.start (start : Start w) (arg : σ) (haligned : start.sp &&& 0x7 = 0)
    (hsp : start.sp.toNat ≤ 2 ^ (8 * szreg w) - threadSize) :
    WithinScan start.sp (start.scanState arg) where
  aligned := dvd_of_and_seven haligned
  low := Nat.le_refl _
  high := (align_bounds hsp).1
  reads _ ha := by cases ha

end Scan

/-! ## The walks -/

section Walk

variable (env : Env w σ) (start : Start w) (arg : σ)

theorem walk_framePointer (hsp : start.sp.toNat ≤ 2 ^ (8 * szreg w) - threadSize) :
    ∃ o, walkStackframe .framePointer env (threadSize / frameSize w + 1) start arg = some o ∧
      o.calls.length ≤ threadSize / frameSize w + 1 ∧ ∀ a ∈ o.reads, OnStack start.sp a := by
  have hstart := Within.start start arg hsp
  have hstep : ∀ s s', Within start.sp s → step env s = .inl s' →
      Within start.sp s' ∧ Within.rounds start.sp s' < Within.rounds start.sp s := by
    intro s s' hs h
    obtain ⟨hs', hup⟩ := hs.step hsp h
    exact ⟨hs', hs'.rounds_step hup⟩
  obtain ⟨o, ho⟩ := runFor_of_measure _ hstep hstart (hstart.rounds_lt hsp)
  have hends : Ends (step env) (start.state arg) o := ⟨_, ho⟩
  refine ⟨o, ho, ?_⟩
  refine hends.invariant (Q := fun o => o.calls.length ≤ threadSize / frameSize w + 1 ∧
    ∀ a ∈ o.reads, OnStack start.sp a) (fun s s' hs h => (hstep s s' hs h).1)
    (fun s o hs h => ?_) hstart
  obtain ⟨hreads, hcalls⟩ := step_last h
  have hle := hs.calls_le hsp
  rw [hreads]
  exact ⟨by omega, hs.reads⟩

/-- Each frame is above the last one. -/
theorem sp_lt_of_step (hsp : start.sp.toNat ≤ 2 ^ (8 * szreg w) - threadSize) {s s' : State w σ}
    (hvisits : Visits (step env) (start.state arg) s) (h : step env s = .inl s') :
    s.sp < s'.sp := by
  have hs : Within start.sp s :=
    hvisits.invariant (fun _ _ hs h => (hs.step hsp h).1) (Within.start start arg hsp)
  have hup := (hs.step hsp h).2
  have hpos : 0 < frameSize w := by cases w <;> decide
  rw [BitVec.lt_def]
  omega

theorem walk_noFramePointer (hsp : start.sp.toNat ≤ 2 ^ (8 * szreg w) - threadSize)
    (hend : EndsStacks env.kstackEnd) :
    ∃ fuel o, walkStackframe .noFramePointer env fuel start arg = some o ∧
      ∀ a ∈ o.reads, OnStack start.sp a := by
  by_cases haligned : start.sp &&& 0x7 = 0
  · have hstart := WithinScan.start start arg haligned hsp
    have hpos := szreg_pos w
    let left (s : ScanState w σ) := (align start.sp).toNat - s.ksp.toNat
    have hstep : ∀ s s', WithinScan start.sp s → scanStep env s = .inl s' →
        WithinScan start.sp s' ∧ left s' < left s := by
      intro s s' hs h
      obtain ⟨hs', hval⟩ := hs.step hsp hend h
      have hhigh := hs'.high
      exact ⟨hs', show _ - _ < _ - _ by omega⟩
    obtain ⟨o, fuel, ho⟩ := ends_of_measure left hstep hstart
    have hends : Ends (scanStep env) (start.scanState arg) o := ⟨_, ho⟩
    refine ⟨fuel, o, ?_, ?_⟩
    · rw [walkStackframe, if_neg (not_not.mpr haligned)]
      exact ho
    · refine hends.invariant (Q := fun o => ∀ a ∈ o.reads, OnStack start.sp a)
        (fun s s' hs h => (hstep s s' hs h).1) (fun s o hs h => ?_) hstart
      rw [scanStep_last h]
      exact hs.reads
  · refine ⟨0, ⟨arg, [], []⟩, ?_, fun a ha => by cases ha⟩
    rw [walkStackframe, if_pos haligned]

end Walk

/-- **The stack walker is safe on any memory.** With frame pointers it ends after a bounded number
of frames, each above the last one; with and without, it only reads words of the stack that it
began on. -/
theorem walk_stackframe_safe (env : Env w σ) (start : Start w) (arg : σ)
    (hsp : start.sp.toNat ≤ 2 ^ (8 * szreg w) - threadSize) :
    (∃ o, walkStackframe .framePointer env (threadSize / (2 * szreg w) + 1) start arg = some o ∧
      o.calls.length ≤ threadSize / (2 * szreg w) + 1 ∧ ∀ a ∈ o.reads, OnStack start.sp a) ∧
    (∀ s s', Visits (step env) (start.state arg) s → step env s = .inl s' → s.sp < s'.sp) ∧
    (EndsStacks env.kstackEnd →
      ∃ fuel o, walkStackframe .noFramePointer env fuel start arg = some o ∧
        ∀ a ∈ o.reads, OnStack start.sp a) :=
  ⟨walk_framePointer env start arg hsp,
    fun _ _ hvisits h => sp_lt_of_step env start arg hsp hvisits h,
    walk_noFramePointer env start arg hsp⟩

/-- A kernel whose stacks hold nothing but pointers to one frame, which are all taken for text. -/
def cyclic : Env .rv32 Unit where
  kernelTextAddress _ _ := true
  kstackEnd p := decide (p.toNat % threadSize = 0)
  fn _ _ := (false, ())
  mem _ a := if a.toNat % 4 = 1 then 0x11 else 0x18

theorem cyclic_endsStacks : EndsStacks cyclic.kstackEnd := fun _ _ => decide_eq_true_iff

theorem walk_stackframe_safe_cyclic :
    let start : Start .rv32 := .blocked 0x18181118 0x18181100 0
    (∃ o, walkStackframe .framePointer cyclic (threadSize / 8 + 1) start () = some o ∧
      o.calls.length ≤ threadSize / 8 + 1 ∧ ∀ a ∈ o.reads, OnStack start.sp a) ∧
    ∃ fuel o, walkStackframe .noFramePointer cyclic fuel start () = some o ∧
      ∀ a ∈ o.reads, OnStack start.sp a :=
  have h := walk_stackframe_safe cyclic (.blocked 0x18181118 0x18181100 0) () (by decide)
  ⟨h.1, h.2.2 cyclic_endsStacks⟩

end LowriscLinux.Kernel.Stacktrace
