import LowriscLinux.Mm.Fault

/-!
# How a program's page fault ends

What `do_page_fault` of `Mm/Fault.lean` does in the end to a program that has caused the fault:
whether it comes back at all, and which code a `SIGSEGV` carries.

`VM_FAULT_ERROR` has more bits than the handler looks for (`arch/riscv/mm/fault.c`, lines 111-117),
so an answer with another one (`VM_FAULT_SIGSEGV`) ends in `BUG()`. The variable `code` is set to
`SEGV_ACCERR` at `good_area:` (line 76) and not reset at `retry:` (line 59).

## What models what

The handler is that of `Mm/Fault.lean`. The definitions here say what it meets and what it should
do.

* `Granted`, `Unmapped` and `Denied`: what the lookup of a round finds, an area that permits the
  access, no area or one that does not permit it.
* `SignalFirst`, `UnknownError` and `Again`: what the answer of `handle_mm_fault` in a round leads
  to, a return (line 108), the `BUG()` (line 116) or another round (line 145).
* `TruthfulAt`: what the code of a `SIGSEGV` should say, `SEGV_MAPERR` where the last lookup has
  found no area, and `SEGV_ACCERR` where it has found one that does not permit the access. The last
  lookup is that of the last round, by the number of lookups in the run (`Run.lookups`).
* `MeetsUnknownError` and `GoneAfterRetry`: the two conditions, on the answers and on the state
  before.

The fault is one of a program, on an address outside the vmalloc area, with a cause that is
dispatched to the handler (`AccessCause`).

Results:
* `faultIn_cases`, `retry_cases`: what one round ends with.
* `retry_returns_iff`: when one round comes back.
* **`doPageFault_returns_iff`**: the handler comes back to the program iff no answer that it looks
  at has an error that it does not know.
* **`doPageFault_truthful_iff`**: the code of a `SIGSEGV` is right iff the area is not gone after a
  retry.
-/

namespace LowriscLinux.Mm

open Kernel Lib

variable {w : Xlen}

/-! ## What a round of the loop comes to -/

/-- `handle_mm_fault` asks for a retry while a signal is to end the task. -/
def SignalFirst (env : Env w) (n : Nat) (flags : FaultFlags) : Prop :=
  ((env.attempt n).handleMmFault flags).retry = true ∧ (env.attempt n).fatalSignalPending = true

/-- The answer in round `n` has an error that is neither `VM_FAULT_OOM` nor `VM_FAULT_SIGBUS`. -/
def UnknownError (env : Env w) (n : Nat) (flags : FaultFlags) : Prop :=
  let fault := (env.attempt n).handleMmFault flags
  ¬ SignalFirst env n flags ∧ fault.oom = false ∧ fault.sigbus = false ∧ fault.otherError = true

/-- The answer in round `n` leads to another round. -/
def Again (env : Env w) (n : Nat) (flags : FaultFlags) : Prop :=
  let fault := (env.attempt n).handleMmFault flags
  ¬ SignalFirst env n flags ∧ fault.error = false ∧ fault.retry = true

/-- Round `n` finds an area that permits the access, and passes `flags'` to `handle_mm_fault`. -/
def Granted (env : Env w) (regs : PtRegs w) (n : Nat) (flags flags' : FaultFlags) : Prop :=
  ∃ vma, InArea (env.attempt n) regs.sbadaddr vma ∧
    checkAccess vma flags regs.scause = .granted flags'

/-- The flags of the round after one with `flags`. -/
def retryFlags (flags : FaultFlags) : FaultFlags := { flags with allowRetry := false, tried := true }

/-- One of the two rounds that there may be gets an answer with an unknown error. -/
def MeetsUnknownError (env : Env w) (regs : PtRegs w) : Prop :=
  ∃ flags, Granted env regs 0 (entryFlags regs) flags ∧
    (UnknownError env 0 flags ∨ Again env 0 flags ∧
      ∃ flags', Granted env regs 1 (retryFlags flags) flags' ∧ UnknownError env 1 flags')

/-- `scause` is one that is dispatched to the handler. -/
def AccessCause (cause : Word w) : Prop :=
  cause = excInstAccess ∨ cause = excLoadAccess ∨ cause = excStoreAccess

/-- Round `n` finds no area for the address: none at or above it, or one that does not reach down
to it. -/
def Unmapped (env : Env w) (regs : PtRegs w) (n : Nat) : Prop :=
  ∀ vma, ¬ InArea (env.attempt n) regs.sbadaddr vma

/-- Round `n` finds an area that does not permit the access. -/
def Denied (env : Env w) (regs : PtRegs w) (n : Nat) : Prop :=
  ∃ vma, InArea (env.attempt n) regs.sbadaddr vma ∧
    checkAccess vma (entryFlags regs) regs.scause = .denied

/-- `find_vma` is called behind each `down_read`, and nowhere else. -/
def Event.isLookup : Event w → Bool
  | .downRead => true
  | _ => false

/-- The number of lookups in a run. -/
def Run.lookups (run : Run w) : Nat := run.events.countP Event.isLookup

/-- The code of a `SIGSEGV` says what the last lookup, in round `last`, has found. -/
def TruthfulAt (env : Env w) (regs : PtRegs w) (last : Nat) (run : Run w) : Prop :=
  ∀ code addr, .doTrap .sigsegv code addr ∈ run.events →
    (code = .segvMaperr ↔ Unmapped env regs last) ∧ (code = .segvAccerr ↔ Denied env regs last)

def Truthful (env : Env w) (regs : PtRegs w) (run : Run w) : Prop :=
  TruthfulAt env regs (run.lookups - 1) run

/-- The area is gone between the two rounds. -/
def GoneAfterRetry (env : Env w) (regs : PtRegs w) : Prop :=
  ∃ flags, Granted env regs 0 (entryFlags regs) flags ∧ Again env 0 flags ∧ Unmapped env regs 1

/-! ## Runs up to quiet events -/

/-- The event is neither a lookup nor a `SIGSEGV`. -/
def Event.Quiet : Event w → Prop
  | .downRead => False
  | .doTrap .sigsegv _ _ => False
  | _ => True

/-- A run ends as another does, after some quiet events. -/
def EndsAs (run rest : Run w) : Prop :=
  ∃ pre, (∀ e ∈ pre, e.Quiet) ∧ run.events = pre ++ rest.events ∧ run.outcome = rest.outcome

namespace EndsAs

variable {run rest : Run w}

theorem refl (run : Run w) : EndsAs run run := ⟨[], by simp, rfl, rfl⟩

theorem emit {e : Event w} (he : e.Quiet) (h : EndsAs run rest) : EndsAs (Mm.emit e run) rest := by
  obtain ⟨pre, hpre, hevents, houtcome⟩ := h
  refine ⟨e :: pre, List.forall_mem_cons.mpr ⟨he, hpre⟩, ?_, houtcome⟩
  rw [Mm.emit, hevents, List.cons_append]

theorem emit_if {c : Bool} {e : Event w} (he : e.Quiet) (h : EndsAs run rest) :
    EndsAs ((if c then Mm.emit e else id) run) rest := by
  cases c
  · exact h
  · exact h.emit he

theorem returns_eq (h : EndsAs run rest) : run.returns = rest.returns := by
  obtain ⟨_, _, _, houtcome⟩ := h
  rw [Run.returns, Run.returns, houtcome]

theorem lookups_eq (h : EndsAs run rest) : run.lookups = rest.lookups := by
  obtain ⟨pre, hpre, hevents, -⟩ := h
  have hnone : pre.countP Event.isLookup = 0 := by
    refine List.countP_eq_zero.mpr fun e he hlookup => ?_
    have hquiet := hpre e he
    cases e <;> first | exact hquiet | cases hlookup
  rw [Run.lookups, hevents, List.countP_append, hnone, Nat.zero_add, Run.lookups]

theorem mem_iff (h : EndsAs run rest) {code : SiCode} {addr : Word w} :
    .doTrap .sigsegv code addr ∈ run.events ↔ .doTrap .sigsegv code addr ∈ rest.events := by
  obtain ⟨pre, hpre, hevents, -⟩ := h
  rw [hevents, List.mem_append]
  exact or_iff_right fun hmem => hpre _ hmem

theorem truthfulAt_iff {env : Env w} {regs : PtRegs w} {last : Nat} (h : EndsAs run rest) :
    TruthfulAt env regs last run ↔ TruthfulAt env regs last rest := by
  unfold TruthfulAt
  simp only [h.mem_iff]

end EndsAs

theorem Event.quiet_account (major : Bool) : (account major : Event w).Quiet := by
  cases major <;> trivial

/-! ## The rounds -/

section Rounds

variable {env : Env w} {regs : PtRegs w} {n : Nat} {flags flags' : FaultFlags} {code : SiCode}

/-- The exits of a program come back to it. -/
theorem endsAs_unlockAnd (hu : userMode regs = true) {onUser : Event w} (h : onUser.Quiet) :
    EndsAs (unlockAnd env regs onUser) (halt (.returned regs)) := by
  rw [unlockAnd, if_pos hu]
  exact ((EndsAs.refl _).emit h).emit trivial

/-- What the answer of `handle_mm_fault` leads to. -/
theorem faultIn_cases (hu : userMode regs = true) (n : Nat) (flags : FaultFlags) :
    (UnknownError env n flags ∧ EndsAs (faultIn env regs n flags) (halt .bug)) ∨
    (Again env n flags ∧
      EndsAs (faultIn env regs n flags) (retry env regs (n + 1) (retryFlags flags) .segvAccerr)) ∨
    (¬ UnknownError env n flags ∧ ¬ Again env n flags ∧
      EndsAs (faultIn env regs n flags) (halt (.returned regs))) := by
  rw [faultIn]
  unfold UnknownError Again SignalFirst
  have hallow := (env.attempt n).retry_allowed flags
  generalize hfault : (env.attempt n).handleMmFault flags = fault at hallow
  have hbegin : ∀ {run rest : Run w}, EndsAs run rest →
      EndsAs (emit (.handleMmFault flags) ((if fault.retry then emit .lockDropped else id) run))
        rest := fun h => (h.emit_if (e := .lockDropped) trivial).emit trivial
  by_cases hsignal : fault.retry = true ∧ (env.attempt n).fatalSignalPending = true
  · refine Or.inr (Or.inr ⟨fun h => h.1 hsignal, fun h => h.1 hsignal, hbegin ?_⟩)
    rw [if_pos (Bool.and_eq_true_iff.mpr hsignal)]
    exact EndsAs.refl _
  rw [if_neg (mt Bool.and_eq_true_iff.mp hsignal)]
  by_cases herror : fault.error = true
  · rw [if_pos herror]
    have hnot : ¬ (fault.error = false) := by simp [herror]
    by_cases hoom : fault.oom = true
    · rw [if_pos hoom]
      exact Or.inr (Or.inr ⟨fun h => by simp [hoom] at h, fun h => hnot h.2.1,
        hbegin (endsAs_unlockAnd hu trivial)⟩)
    rw [if_neg hoom]
    by_cases hsigbus : fault.sigbus = true
    · rw [if_pos hsigbus]
      exact Or.inr (Or.inr ⟨fun h => by simp [hsigbus] at h, fun h => hnot h.2.1,
        hbegin (endsAs_unlockAnd hu trivial)⟩)
    rw [if_neg hsigbus]
    have hother : fault.otherError = true := by simpa [VmFault.error, hoom, hsigbus] using herror
    exact Or.inl ⟨⟨hsignal, Bool.eq_false_iff.mpr hoom, Bool.eq_false_iff.mpr hsigbus, hother⟩,
      hbegin (EndsAs.refl _)⟩
  have hfine : fault.error = false := Bool.eq_false_iff.mpr herror
  have hknown : ∀ p : Prop, ¬ (p ∧ fault.oom = false ∧ fault.sigbus = false ∧
      fault.otherError = true) := by
    rintro p ⟨-, -, -, hother⟩
    simp [VmFault.error, hother] at hfine
  rw [if_neg herror]
  by_cases hretry : fault.retry = true
  · refine Or.inr (Or.inl ⟨⟨hsignal, hfine, hretry⟩, hbegin ?_⟩)
    rw [if_pos (hallow hretry), if_pos hretry]
    exact (EndsAs.refl _).emit (Event.quiet_account _)
  · refine Or.inr (Or.inr ⟨hknown _, fun h => hretry h.2.2, hbegin ?_⟩)
    rw [if_neg hretry]
    have hend : EndsAs (emit .upRead (halt (.returned regs))) (halt (.returned regs)) :=
      (EndsAs.refl _).emit trivial
    split
    · exact hend.emit (Event.quiet_account _)
    · exact hend

/-- A round either finds no area, or goes on in one. -/
theorem retry_cases (n : Nat) (flags : FaultFlags) (code : SiCode) :
    (Unmapped env regs n ∧
      retry env regs n flags code = emit .downRead (badArea env regs code)) ∨
    ∃ vma, InArea (env.attempt n) regs.sbadaddr vma ∧
      retry env regs n flags code = emit .downRead (goodArea env regs n vma flags) := by
  rw [retry]
  unfold Unmapped InArea
  cases hv : (env.attempt n).findVma with
  | none => exact Or.inl ⟨by simp, rfl⟩
  | some vma =>
    by_cases hlo : vma.vmStart ≤ regs.sbadaddr
    · exact Or.inr ⟨vma, ⟨rfl, Or.inl hlo⟩, by simp [hlo]⟩
    · by_cases hgrow : vma.growsdown = true ∧ (env.attempt n).expandStack = false
      · exact Or.inr ⟨vma, ⟨rfl, Or.inr hgrow⟩, by simp [hlo, hgrow]⟩
      · refine Or.inl ⟨?_, ?_⟩
        · rintro _ ⟨heq, h⟩
          obtain rfl := Option.some.inj heq
          exact h.elim hlo hgrow
        · by_cases hg : vma.growsdown = true
          · simp [hlo, hg, Bool.eq_true_of_not_eq_false fun h => hgrow ⟨hg, h⟩]
          · simp [hlo, hg]

theorem InArea.unique {attempt : Attempt w} {addr : Word w} {vma vma' : Vma w}
    (h : InArea attempt addr vma) (h' : InArea attempt addr vma') : vma = vma' :=
  Option.some.inj (h.1.symm.trans h'.1)

theorem goodArea_of_granted {vma : Vma w}
    (h : checkAccess vma flags regs.scause = .granted flags') :
    goodArea env regs n vma flags = faultIn env regs n flags' := by
  rw [goodArea]
  split <;> simp_all

theorem goodArea_of_denied {vma : Vma w} (h : checkAccess vma flags regs.scause = .denied) :
    goodArea env regs n vma flags = badArea env regs .segvAccerr := by
  rw [goodArea]
  split <;> simp_all

theorem goodArea_of_unhandled {vma : Vma w}
    (h : checkAccess vma flags regs.scause = .unhandled) :
    goodArea env regs n vma flags = halt (.panicked regs.scause) := by
  rw [goodArea]
  split <;> simp_all

theorem checkAccess_handled {vma : Vma w} (hc : AccessCause regs.scause) :
    checkAccess vma flags regs.scause ≠ .unhandled := by
  unfold checkAccess
  rcases hc with h | h | h <;> split_ifs <;> simp_all

/-- Whether an access is permitted does not depend on the flags. -/
theorem checkAccess_denied_iff {vma : Vma w} {cause : Word w} :
    checkAccess vma flags cause = .denied ↔ checkAccess vma flags' cause = .denied := by
  unfold checkAccess
  split_ifs <;> simp

/-- There is no retry after an error. -/
theorem Again.known (h : Again env n flags) : ¬ UnknownError env n flags := by
  rintro ⟨-, -, -, hother⟩
  have hfine := h.2.1
  simp [VmFault.error, hother] at hfine

/-- No retry is allowed after a retry. -/
theorem not_again_last (h : flags.allowRetry = false) : ¬ Again env n flags := by
  rintro ⟨-, -, hretry⟩
  exact absurd ((env.attempt n).retry_allowed flags hretry) (by simp [h])

theorem Granted.allowRetry_eq (h : Granted env regs n flags flags') :
    flags'.allowRetry = flags.allowRetry := by
  obtain ⟨vma, -, h⟩ := h
  exact checkAccess_allowRetry h

/-! ## Coming back -/

theorem badArea_returns (hu : userMode regs = true) : (badArea env regs code).returns = true := by
  rw [badArea, unlockAnd_returns, survives, hu, Bool.true_or]

/-- Past the lookup, the answer of `handle_mm_fault` decides between the end and another round. -/
theorem retry_returns_iff (hu : userMode regs = true) (hc : AccessCause regs.scause) :
    (retry env regs n flags code).returns = true ↔ ∀ flags', Granted env regs n flags flags' →
      ¬ UnknownError env n flags' ∧ (Again env n flags' →
        (retry env regs (n + 1) (retryFlags flags') .segvAccerr).returns = true) := by
  rcases retry_cases n flags code with ⟨hnone, heq⟩ | ⟨vma, harea, heq⟩
  · rw [heq, returns_emit]
    refine iff_of_true (badArea_returns hu) ?_
    rintro flags' ⟨vma, harea, -⟩
    exact absurd harea (hnone vma)
  rw [heq, returns_emit]
  cases hcheck : checkAccess vma flags regs.scause with
  | denied =>
    rw [goodArea_of_denied hcheck]
    refine iff_of_true (badArea_returns hu) ?_
    rintro flags' ⟨vma', harea', hgranted⟩
    obtain rfl := harea.unique harea'
    rw [hcheck] at hgranted
    cases hgranted
  | unhandled => exact absurd hcheck (checkAccess_handled hc)
  | granted flags' =>
    rw [goodArea_of_granted hcheck]
    have hgranted : ∀ {P : FaultFlags → Prop},
        (∀ flags'', Granted env regs n flags flags'' → P flags'') ↔ P flags' := by
      intro P
      constructor
      · exact fun h => h flags' ⟨vma, harea, hcheck⟩
      · rintro h flags'' ⟨vma', harea', hgranted⟩
        obtain rfl := harea.unique harea'
        rw [hcheck] at hgranted
        cases hgranted
        exact h
    rw [hgranted]
    rcases faultIn_cases hu n flags' with
      ⟨hunknown, hends⟩ | ⟨hagain, hends⟩ | ⟨hknown, hlast, hends⟩
    · rw [hends.returns_eq]
      exact iff_of_false Bool.false_ne_true fun h => h.1 hunknown
    · rw [hends.returns_eq]
      exact ⟨fun h => ⟨hagain.known, fun _ => h⟩, fun h => h.2 hagain⟩
    · rw [hends.returns_eq]
      exact iff_of_true rfl ⟨hknown, fun h => absurd h hlast⟩

instance : Decidable (Reaches env regs) := inferInstanceAs (Decidable (_ ∧ _))

/-- Outside of the vmalloc area, nothing but interrupts and accounting comes first. -/
theorem doPageFault_endsAs (env : Env w) (hv : inVmalloc regs.sbadaddr = false) :
    EndsAs (doPageFault env regs) (if Reaches env regs then
      retry env regs 0 (entryFlags regs) .segvMaperr else noContext env regs) := by
  have hirq : ∀ {run rest : Run w}, EndsAs run rest →
      EndsAs ((if regs.sstatus &&& srPie ≠ 0 then emit .localIrqEnable else id) run) rest := by
    intro run rest h
    split
    · exact h.emit trivial
    · exact h
  rw [doPageFault, if_neg (by simp [hv])]
  refine hirq ?_
  by_cases hctx : (env.faulthandlerDisabled || !env.mm) = true
  · have hno : ¬ Reaches env regs := by
      rintro ⟨-, hdis, hmm⟩
      simp [hdis, hmm] at hctx
    rw [if_pos hctx, if_neg hno]
    exact EndsAs.refl _
  · have hyes : Reaches env regs := ⟨hv, by simpa using hctx⟩
    rw [if_neg hctx, if_pos hyes]
    exact (EndsAs.refl _).emit trivial

/-- There are two rounds at most. -/
theorem retry_returns_first (hu : userMode regs = true) (hc : AccessCause regs.scause) :
    (retry env regs 0 (entryFlags regs) code).returns = true ↔ ¬ MeetsUnknownError env regs := by
  have hsecond : ∀ flags, (retry env regs 1 (retryFlags flags) .segvAccerr).returns = true ↔
      ∀ flags', Granted env regs 1 (retryFlags flags) flags' → ¬ UnknownError env 1 flags' := by
    intro flags
    rw [retry_returns_iff hu hc]
    refine forall₂_congr fun flags' hgranted => and_iff_left fun hagain => ?_
    exact absurd hagain (not_again_last hgranted.allowRetry_eq)
  rw [retry_returns_iff hu hc]
  unfold MeetsUnknownError
  simp only [hsecond]
  constructor
  · rintro h ⟨flags, hgranted, hunknown | ⟨hagain, flags', hgranted', hunknown⟩⟩
    · exact (h flags hgranted).1 hunknown
    · exact (h flags hgranted).2 hagain flags' hgranted' hunknown
  · intro h flags hgranted
    refine ⟨fun hunknown => h ⟨flags, hgranted, Or.inl hunknown⟩, ?_⟩
    intro hagain flags' hgranted' hunknown
    exact h ⟨flags, hgranted, Or.inr ⟨hagain, flags', hgranted', hunknown⟩⟩

/-- **Exactly when the handler comes back to the program.** -/
theorem doPageFault_returns_iff (env : Env w) (regs : PtRegs w) (hu : userMode regs = true)
    (hc : AccessCause regs.scause) :
    (doPageFault env regs).returns = true ↔
      (Reaches env regs → ¬ MeetsUnknownError env regs) ∧
      (inVmalloc regs.sbadaddr = false → ¬ Reaches env regs →
        (fixupException env regs).isSome = true) := by
  by_cases hv : inVmalloc regs.sbadaddr = true
  · rw [doPageFault, if_pos hv, vmallocFault, if_pos hu]
    refine iff_of_true (badArea_returns hu) ⟨fun h => ?_, fun h => ?_⟩
    · exact absurd (hv.symm.trans h.1) (by decide)
    · exact absurd (hv.symm.trans h) (by decide)
  have hv : inVmalloc regs.sbadaddr = false := Bool.eq_false_iff.mpr hv
  rw [(doPageFault_endsAs env hv).returns_eq]
  by_cases hctx : Reaches env regs
  · rw [if_pos hctx, retry_returns_first hu hc]
    exact ⟨fun h => ⟨fun _ => h, fun _ hno => absurd hctx hno⟩, fun h => h.1 hctx⟩
  · rw [if_neg hctx, noContext_returns]
    exact ⟨fun h => ⟨fun hyes => absurd hyes hctx, fun _ _ => h⟩, fun h => h.2 hv hctx⟩

/-! ## The code of a `SIGSEGV` -/

theorem Denied.not_unmapped (h : Denied env regs n) : ¬ Unmapped env regs n := by
  obtain ⟨vma, harea, -⟩ := h
  exact fun hnone => hnone vma harea

theorem truthfulAt_halt {last : Nat} (outcome : Outcome w) :
    TruthfulAt env regs last (halt outcome) :=
  fun _ _ hmem => absurd hmem List.not_mem_nil

theorem truthfulAt_noContext {last : Nat} : TruthfulAt env regs last (noContext env regs) := by
  unfold noContext
  split <;> exact truthfulAt_halt _

/-- The code of the exit is right where it names what has been found. -/
theorem truthfulAt_badArea (hu : userMode regs = true) {last : Nat} :
    TruthfulAt env regs last (badArea env regs code) ↔
      (code = .segvMaperr ↔ Unmapped env regs last) ∧ (code = .segvAccerr ↔ Denied env regs last) := by
  have hevents : (badArea env regs code).events =
      [.upRead, .doTrap .sigsegv code regs.sbadaddr] := by
    rw [badArea, unlockAnd, if_pos hu]
    rfl
  unfold TruthfulAt
  rw [hevents]
  constructor
  · exact fun h => h code regs.sbadaddr (by simp)
  · rintro h code' addr hmem
    have hcode : code' = code ∧ addr = regs.sbadaddr := by simpa using hmem
    rw [hcode.1]
    exact h

theorem lookups_badArea (hu : userMode regs = true) : (badArea env regs code).lookups = 0 := by
  rw [badArea, unlockAnd, if_pos hu]
  rfl

theorem lookups_downRead (run : Run w) : (emit .downRead run).lookups = run.lookups + 1 :=
  List.countP_cons_of_pos rfl

theorem truthfulAt_downRead {last : Nat} {run : Run w} :
    TruthfulAt env regs last (emit .downRead run) ↔ TruthfulAt env regs last run := by
  unfold TruthfulAt emit
  simp

/-- A round without another one behind it. -/
theorem retry_last_truthful (hu : userMode regs = true) (hmaperr : Unmapped env regs n →
    code = .segvMaperr) (hagain : ∀ flags', Granted env regs n flags flags' →
      ¬ Again env n flags') :
    (retry env regs n flags code).lookups = 1 ∧
      TruthfulAt env regs n (retry env regs n flags code) := by
  rcases retry_cases n flags code with ⟨hnone, heq⟩ | ⟨vma, harea, heq⟩
  · rw [heq, lookups_downRead, lookups_badArea hu, truthfulAt_downRead, truthfulAt_badArea hu]
    obtain rfl := hmaperr hnone
    exact ⟨rfl, iff_of_true rfl hnone, iff_of_false nofun fun h => h.not_unmapped hnone⟩
  rw [heq, lookups_downRead, truthfulAt_downRead, Nat.add_eq_right]
  cases hcheck : checkAccess vma flags regs.scause with
  | denied =>
    have hdenied : Denied env regs n := ⟨vma, harea, checkAccess_denied_iff.mp hcheck⟩
    rw [goodArea_of_denied hcheck, truthfulAt_badArea hu]
    exact ⟨lookups_badArea hu, iff_of_false nofun hdenied.not_unmapped, iff_of_true rfl hdenied⟩
  | unhandled =>
    rw [goodArea_of_unhandled hcheck]
    exact ⟨rfl, truthfulAt_halt _⟩
  | granted flags' =>
    rw [goodArea_of_granted hcheck]
    rcases faultIn_cases hu n flags' with
      ⟨-, hends⟩ | ⟨h, -⟩ | ⟨-, -, hends⟩
    · rw [hends.lookups_eq, hends.truthfulAt_iff]
      exact ⟨rfl, truthfulAt_halt _⟩
    · exact absurd h (hagain flags' ⟨vma, harea, hcheck⟩)
    · rw [hends.lookups_eq, hends.truthfulAt_iff]
      exact ⟨rfl, truthfulAt_halt _⟩

/-- A round that leads to another one. -/
theorem retry_again (hu : userMode regs = true) (hgranted : Granted env regs n flags flags')
    (hagain : Again env n flags') (code : SiCode) :
    ∃ run, retry env regs n flags code = emit .downRead run ∧
      EndsAs run (retry env regs (n + 1) (retryFlags flags') .segvAccerr) := by
  obtain ⟨vma, harea, hcheck⟩ := hgranted
  rcases retry_cases n flags code with ⟨hnone, -⟩ | ⟨vma', harea', heq⟩
  · exact absurd harea (hnone vma)
  obtain rfl := harea.unique harea'
  refine ⟨_, heq, ?_⟩
  rw [goodArea_of_granted hcheck]
  rcases faultIn_cases hu n flags' with ⟨h, -⟩ | ⟨-, hends⟩ | ⟨-, h, -⟩
  · exact absurd h hagain.known
  · exact hends
  · exact absurd hagain h

theorem retry_truthful_first (hu : userMode regs = true) :
    Truthful env regs (retry env regs 0 (entryFlags regs) .segvMaperr) ↔
      ¬ GoneAfterRetry env regs := by
  unfold Truthful GoneAfterRetry
  by_cases h : ∃ flags, Granted env regs 0 (entryFlags regs) flags ∧ Again env 0 flags
  · obtain ⟨flags, hgranted, hagain⟩ := h
    obtain ⟨run, heq, hends⟩ := retry_again hu hgranted hagain .segvMaperr
    rw [heq, lookups_downRead, hends.lookups_eq, Nat.add_sub_cancel, truthfulAt_downRead,
      hends.truthfulAt_iff]
    by_cases hgone : Unmapped env regs 1
    · refine iff_of_false ?_ (not_not.mpr ⟨flags, hgranted, hagain, hgone⟩)
      rcases retry_cases 1 (retryFlags flags) .segvAccerr with ⟨-, heq'⟩ | ⟨vma, harea, -⟩
      · rw [heq', lookups_downRead, lookups_badArea hu, truthfulAt_downRead, truthfulAt_badArea hu]
        exact fun h => absurd (h.1.mpr hgone) nofun
      · exact absurd harea (hgone vma)
    · refine iff_of_true ?_ fun h => hgone h.choose_spec.2.2
      have hlast : ∀ flags', Granted env regs 1 (retryFlags flags) flags' →
          ¬ Again env 1 flags' := fun flags' h => not_again_last h.allowRetry_eq
      obtain ⟨hlookups, htruthful⟩ := retry_last_truthful hu (fun h => absurd h hgone) hlast
      rw [hlookups]
      exact htruthful
  · obtain ⟨hlookups, htruthful⟩ := retry_last_truthful hu (fun _ => rfl)
      fun flags hgranted hagain => h ⟨flags, hgranted, hagain⟩
    rw [hlookups]
    refine iff_of_true htruthful ?_
    rintro ⟨flags, hgranted, hagain, -⟩
    exact h ⟨flags, hgranted, hagain⟩

/-- **Exactly when the code of a `SIGSEGV` says what the last lookup has found.** -/
theorem doPageFault_truthful_iff (env : Env w) (regs : PtRegs w) (hu : userMode regs = true)
    (hv : inVmalloc regs.sbadaddr = false) :
    Truthful env regs (doPageFault env regs) ↔ ¬ (Reaches env regs ∧ GoneAfterRetry env regs) := by
  have hends := doPageFault_endsAs env hv
  unfold Truthful
  rw [hends.lookups_eq, hends.truthfulAt_iff]
  by_cases hctx : Reaches env regs
  · rw [if_pos hctx, and_iff_right hctx]
    exact retry_truthful_first hu
  · rw [if_neg hctx]
    exact iff_of_true truthfulAt_noContext fun h => hctx h.1

end Rounds

/-! ## Two programs -/

/-- The kernel with what the memory manager answers in each round. -/
def withAttempts (attempt : Nat → Attempt w) : Env w := { emptyEnv with attempt := attempt }

/-- A program's load from an address. -/
def userLoad (addr : Word .rv64) : PtRegs .rv64 := ⟨0, fun _ => 0, 0, addr, excLoadAccess⟩

/-- A readable area from an address on. -/
def readable (vmStart : Word .rv64) : Vma .rv64 := ⟨vmStart, false, false, true, false⟩

/-- The area is there, and the fault cannot be handled: `VM_FAULT_SIGSEGV`. -/
def sigsegvAttempt : Attempt .rv64 where
  findVma := some (readable 0x1000)
  expandStack := false
  handleMmFault _ := ⟨false, false, true, false, false⟩
  fatalSignalPending := false
  retry_allowed _ h := by cases h

/-- **A load that `handle_mm_fault` answers with `VM_FAULT_SIGSEGV` ends in `BUG()`.** -/
theorem not_doPageFault_returns :
    ¬ (doPageFault (withAttempts fun _ => sigsegvAttempt) (userLoad 0x1000)).returns = true := by
  have hctx : Reaches (withAttempts fun _ => sigsegvAttempt) (userLoad 0x1000) := by decide
  rw [(doPageFault_endsAs _ (by decide)).returns_eq, if_pos hctx,
    retry_returns_first (by decide) (Or.inr (Or.inl rfl)), not_not]
  refine ⟨entryFlags (userLoad 0x1000), ⟨readable 0x1000, ⟨rfl, Or.inl (by decide)⟩, by decide⟩,
    Or.inl ⟨?_, rfl, rfl, rfl⟩⟩
  exact fun h => absurd h.1 (by decide)

/-- The area is there in round 0, where a retry is asked for, and gone in round 1. -/
def unmapAttempt (n : Nat) : Attempt .rv64 where
  findVma := if n = 0 then some (readable 0x1000) else none
  expandStack := false
  handleMmFault flags := ⟨false, false, false, false, flags.allowRetry⟩
  fatalSignalPending := false
  retry_allowed _ h := h

/-- Unmapping the area does not stop the kernel. -/
theorem doPageFault_returns_unmap :
    (doPageFault (withAttempts unmapAttempt) (userLoad 0x1000)).returns = true := by
  have hctx : Reaches (withAttempts unmapAttempt) (userLoad 0x1000) := by decide
  refine (doPageFault_returns_iff _ _ (by decide) (Or.inr (Or.inl rfl))).mpr ⟨?_, ?_⟩
  · rintro - ⟨flags, -, ⟨-, -, -, h⟩ | ⟨-, flags', -, ⟨-, -, -, h⟩⟩⟩
    · cases h
    · cases h
  · exact fun _ hno => absurd hctx hno

/-- In round 0 a retry is asked for, and in round 1 the area can no longer be read. -/
def protectAttempt (n : Nat) : Attempt .rv64 where
  findVma := some { readable 0x1000 with read := n = 0 }
  expandStack := false
  handleMmFault flags := ⟨false, false, false, false, flags.allowRetry⟩
  fatalSignalPending := false
  retry_allowed _ h := h

/-- The second round finds the area, and no access to it. -/
theorem retry_protect : retry (withAttempts protectAttempt) (userLoad 0x1000) 1
      (retryFlags (entryFlags (userLoad 0x1000))) .segvAccerr =
    emit .downRead (badArea (withAttempts protectAttempt) (userLoad 0x1000) .segvAccerr) := by
  rw [retry]
  show emit _ (if _ then goodArea _ _ 1 { readable 0x1000 with read := false } _ else _) = _
  rw [if_pos (by decide), goodArea_of_denied (by decide)]

/-- A load from an area that is protected during a retry gets `SEGV_ACCERR`. -/
theorem doPageFault_truthful_protect :
    let run := doPageFault (withAttempts protectAttempt) (userLoad 0x1000)
    run.lookups = 2 ∧ .doTrap .sigsegv .segvAccerr 0x1000 ∈ run.events ∧
      Truthful (withAttempts protectAttempt) (userLoad 0x1000) run := by
  have hctx : Reaches (withAttempts protectAttempt) (userLoad 0x1000) := by decide
  have hends := doPageFault_endsAs (withAttempts protectAttempt) hctx.1
  have hgranted : Granted (withAttempts protectAttempt) (userLoad 0x1000) 0
      (entryFlags (userLoad 0x1000)) (entryFlags (userLoad 0x1000)) :=
    ⟨readable 0x1000, ⟨rfl, Or.inl (by decide)⟩, by decide⟩
  have hagain : Again (withAttempts protectAttempt) 0 (entryFlags (userLoad 0x1000)) :=
    ⟨fun h => absurd h.2 (by decide), rfl, rfl⟩
  obtain ⟨run, hfirst, hsecond⟩ := retry_again (by decide) hgranted hagain .segvMaperr
  rw [if_pos hctx, hfirst] at hends
  rw [retry_protect] at hsecond
  refine ⟨?_, ?_, (doPageFault_truthful_iff _ _ (by decide) (by decide)).mpr ?_⟩
  · rw [hends.lookups_eq, lookups_downRead, hsecond.lookups_eq, lookups_downRead,
      lookups_badArea (by decide)]
  · refine hends.mem_iff.mpr (List.mem_cons_of_mem _ (hsecond.mem_iff.mpr ?_))
    exact List.mem_cons_of_mem _ (List.mem_cons_of_mem _ (List.mem_singleton_self _))
  · rintro ⟨-, flags, -, -, hgone⟩
    exact hgone { readable 0x1000 with read := false } ⟨rfl, Or.inl (by decide)⟩

/-- **A load from an area that is unmapped during a retry gets `SEGV_ACCERR`.** -/
theorem not_doPageFault_truthful :
    ¬ Truthful (withAttempts unmapAttempt) (userLoad 0x1000)
      (doPageFault (withAttempts unmapAttempt) (userLoad 0x1000)) := by
  have hctx : Reaches (withAttempts unmapAttempt) (userLoad 0x1000) := by decide
  have hends := doPageFault_endsAs (withAttempts unmapAttempt) hctx.1
  rw [if_pos hctx] at hends
  unfold Truthful
  rw [hends.lookups_eq, hends.truthfulAt_iff]
  refine mt (retry_truthful_first (by decide)).mp (not_not.mpr ?_)
  refine ⟨entryFlags (userLoad 0x1000), ⟨readable 0x1000, ⟨rfl, Or.inl (by decide)⟩, by decide⟩,
    ⟨fun h => absurd h.2 (by decide), rfl, rfl⟩, ?_⟩
  rintro vma ⟨hnone, -⟩
  cases hnone

end LowriscLinux.Mm
