import LowriscLinux.Kernel.Rwlock

/-!
# The predicates of reader/writer locks

`arch_read_can_lock` and `arch_write_can_lock` of `arch/riscv/include/asm/spinlock.h` (lines 50-58),
compared with what the trylocks would do.

## What models what

* `archReadCanLock`: line 52. The lock word is an `unsigned int`
  (`arch/riscv/include/asm/spinlock_types.h`), so that `lock >= 0` compares unsigned numbers, and
  always holds.
* `archWriteCanLock`: line 57.
* `Uncontended`: a call of a trylock such that from it on only its own context executes
  instructions. Its store-conditionals may still fail for no reason, and are then repeated.
* `Takes`: such a call succeeds. It can return, and it returns true if it does. `CanAgrees` compares
  this with the predicates, for both kinds of lock.

The trylocks and their states are those of `Kernel/Rwlock.lean`. A state is any word of the lock
with any places of the contexts; the second half of the result is about the states that runs reach.

Results:
* `takes_iff`: an uncontended trylock takes the lock iff its own test finds the lock word free.
* **`canLock_agrees_iff`**: the predicates agree with the trylocks iff the sign bit of the lock word
  is clear, which along every run is so exactly in the states without a writer.
-/

namespace LowriscLinux.Kernel.Rwlock

open Lib

def archReadCanLock (lock : BitVec 32) : Bool := (0 : BitVec 32).ule lock

def archWriteCanLock (lock : BitVec 32) : Bool := lock == 0

variable {w : Xlen} {C : Type} [DecidableEq C]

/-! ## Uncontended calls -/

/-- The context calls the routine, and then only it executes instructions. -/
def Uncontended (c : C) (r : Routine) : List (Act w C × State w C) → Prop
  | [] => False
  | (a, s) :: rest =>
    (∃ tmp, a = .call c r tmp) ∧ Meets (fun _ a => ∃ code, a = .instr c code) s rest

/-- An uncontended call of the routine succeeds: it can return, and it returns true if it does. -/
structure Takes (s : State w C) (c : C) (r : Routine) : Prop where
  returns : ∃ run, IsRun Step s run ∧ Uncontended c r run ∧
    ∃ value, (lastState s run).loc c = .returned r value
  value : ∀ run, IsRun Step s run → Uncontended c r run →
    ∀ value, (lastState s run).loc c = .returned r value → value = some true

/-- The predicates agree with the trylocks of a context. -/
structure CanAgrees (s : State w C) (c : C) : Prop where
  read : archReadCanLock s.lock = true ↔ Takes s c .readTrylock
  write : archWriteCanLock s.lock = true ↔ Takes s c .writeTrylock

section Uncontended

variable {s s' : State w C} {c : C} {r : Routine} {v : BitVec 32}

/-- What holds at each instruction of an uncontended trylock that was called with lock word `v`. -/
def AloneAt (r : Routine) (v lock : BitVec 32) (tmp : Word w) : Nat → Prop
  | 0 => lock = v
  | 1 => lock = v ∧ tmp = v.signExtend _
  | 2 => lock = v ∧ Free r v
  | 3 => lock = v ∧ Free r v
  | 4 => if tmp = 0 then Free r v else lock = v
  | 5 => tmp.setWidth 32 = 0#32 ↔ Free r v
  | _ => False

def Alone (r : Routine) (v : BitVec 32) (c : C) (s : State w C) : Prop :=
  match s.loc c with
  | .idle => False
  | .running r' pc tmp => r' = r ∧ AloneAt r v s.lock tmp pc
  | .returned r' value => r' = r ∧ value = some (decide (Free r v))

omit [DecidableEq C] in
theorem Alone.of_running {pc : Nat} {tmp : Word w} (hloc : s.loc c = .running r pc tmp)
    (hat : AloneAt r v s.lock tmp pc) : Alone r v c s := by
  unfold Alone
  rw [hloc]
  exact ⟨rfl, hat⟩

omit [DecidableEq C] in
theorem Alone.of_returned (hloc : s.loc c = .returned r (some (decide (Free r v)))) :
    Alone r v c s := by
  unfold Alone
  rw [hloc]
  exact ⟨rfl, rfl⟩

theorem State.goto_loc (s : State w C) (c : C) (r : Routine) (pc : Nat) (tmp : Word w) :
    (s.goto c r pc tmp).loc c = .running r pc tmp := Function.update_self ..

/-- 0 is free for readers and writers. -/
theorem ne_zero_of_not_free (h : ¬ Free r v) : v ≠ 0#32 := by
  rintro rfl
  exact h (by cases r <;> rfl)

variable (htry : r = .readTrylock ∨ r = .writeTrylock)

include htry

theorem result_of_try (tmp : Word w) : r.result tmp = some (tmp.setWidth 32 == 0#32) := by
  rcases htry with rfl | rfl <;> rfl

theorem busyTarget_of_try : r.busyTarget = 5 := by
  rcases htry with rfl | rfl <;> rfl

/-- **One instruction of an uncontended trylock.** -/
theorem Alone.exec {code tmp : Word w} {pc : Nat} (hat : AloneAt r v s.lock tmp pc)
    (hexec : s.exec c code r pc tmp = some s') : Alone r v c s' := by
  match pc, hat with
  | 0, hlock =>
    have hcode : r.code[0]? = some .lrW := by cases r <;> rfl
    simp only [State.exec, hcode, Option.some.injEq] at hexec
    subst hexec
    have hload : s.lock.signExtend (8 * szreg w) = v.signExtend _ := congrArg _ hlock
    exact .of_running (Function.update_self ..) ⟨hlock, hload⟩
  | 1, ⟨hlock, htmp⟩ =>
    subst htmp
    by_cases hfree : Free r v
    · rw [(State.exec_branch s c code r v).1 hfree, Option.some.injEq] at hexec
      subst hexec
      exact .of_running (s.goto_loc ..) ⟨hlock, hfree⟩
    · rw [(State.exec_branch s c code r v).2 hfree, busyTarget_of_try htry,
        Option.some.injEq] at hexec
      subst hexec
      refine .of_running (s.goto_loc ..) (iff_of_false ?_ hfree)
      rw [setWidth_signExtend (le_xlen w)]
      exact ne_zero_of_not_free hfree
  | 2, ⟨hlock, hfree⟩ =>
    obtain ⟨tmp', hmake, -⟩ := State.exec_make s c code tmp r
    rw [hmake, Option.some.injEq] at hexec
    subst hexec
    exact .of_running (s.goto_loc ..) ⟨hlock, hfree⟩
  | 3, ⟨hlock, hfree⟩ =>
    have hcode : r.code[3]? = some .scW := by cases r <;> rfl
    simp only [State.exec, hcode] at hexec
    by_cases hzero : code = 0
    · rw [if_pos hzero] at hexec
      split at hexec
      · obtain rfl := Option.some.inj hexec
        refine .of_running (State.goto_loc ..) ?_
        rw [AloneAt, if_pos hzero]
        exact hfree
      · cases hexec
    · rw [if_neg hzero, Option.some.injEq] at hexec
      subst hexec
      refine .of_running (Function.update_self ..) ?_
      rw [AloneAt, if_neg hzero]
      exact hlock
  | 4, hat =>
    have hcode : r.code[4]? = some (.bnez 0) := by cases r <;> rfl
    simp only [State.exec, hcode, Option.some.injEq] at hexec
    subst hexec
    refine .of_running (s.goto_loc ..) ?_
    by_cases hzero : tmp = 0
    · rw [AloneAt, if_pos hzero] at hat
      rw [if_neg (not_not.mpr hzero)]
      exact iff_of_true (by simp [hzero]) hat
    · rw [AloneAt, if_neg hzero] at hat
      rw [if_pos hzero]
      exact hat
  | 5, hat =>
    have hcode : r.code[5]? = none := by cases r <;> rfl
    simp only [State.exec, hcode, Option.some.injEq] at hexec
    subst hexec
    have hvalue : r.result tmp = some (decide (Free r v)) := by
      rw [result_of_try htry]
      congr 1
      rw [Bool.eq_iff_iff, beq_iff_eq, decide_eq_true_iff]
      exact hat
    rw [hvalue]
    exact .of_returned (Function.update_self ..)

theorem Alone.step (h : Alone r v c s) {code : Word w} (hstep : Step s (.instr c code) s') :
    Alone r v c s' := by
  unfold Step State.step at hstep
  unfold Alone at h
  cases hloc : s.loc c with
  | idle => simp [hloc] at hstep
  | returned r' value => simp [hloc] at hstep
  | running r' pc tmp =>
    simp only [hloc] at hstep h
    obtain ⟨rfl, hat⟩ := h
    exact Alone.exec htry hat hstep

/-- **What an uncontended trylock returns.** -/
theorem uncontended_value {run : List (Act w C × State w C)} (hrun : IsRun Step s run)
    (hcalls : Uncontended c r run) {value : Option Bool}
    (hret : (lastState s run).loc c = .returned r value) :
    value = some (decide (Free r s.lock)) := by
  match run, hrun, hcalls with
  | (a, s₁) :: rest, ⟨hcall, hrest⟩, ⟨⟨tmp, ha⟩, hmeets⟩ =>
    subst ha
    have hcalled : Alone r s.lock c s₁ := by
      unfold Step State.step at hcall
      dsimp only at hcall
      split at hcall
      · obtain rfl := Option.some.inj hcall
        exact .of_running (s.goto_loc c r 0 tmp) rfl
      · cases hcall
    have hkept : ∀ (t : State w C) (a : Act w C) (t' : State w C), Alone r s.lock c t →
        (∃ code, a = .instr c code) → Step t a t' → Alone r s.lock c t' := by
      rintro t _ t' h ⟨code, rfl⟩ hstep
      exact Alone.step htry h hstep
    have hlast := (hrest.meets_invariant hkept hmeets hcalled).last
    have hret' : (lastState s₁ rest).loc c = .returned r value := hret
    unfold Alone at hlast
    rw [hret'] at hlast
    exact hlast.2

omit htry

/-- The context can return from the routine by itself. -/
def CanReturn (s : State w C) (c : C) (r : Routine) : Prop :=
  ∃ run, IsRun Step s run ∧ Meets (fun _ a => ∃ code, a = .instr c code) s run ∧
    ∃ value, (lastState s run).loc c = .returned r value

theorem CanReturn.of_exec {pc : Nat} {tmp : Word w} (hloc : s.loc c = .running r pc tmp)
    (hexec : s.exec c 0 r pc tmp = some s') (h : CanReturn s' c r) : CanReturn s c r := by
  obtain ⟨run, hrun, hmeets, hret⟩ := h
  have hstep : Step s (.instr c 0) s' := by
    unfold Step State.step
    simp only [hloc]
    exact hexec
  exact ⟨(.instr c 0, s') :: run, ⟨hstep, hrun⟩, ⟨⟨0, rfl⟩, hmeets⟩, hret⟩

theorem canReturn_end {tmp : Word w} (hloc : s.loc c = .running r 5 tmp) : CanReturn s c r := by
  have hcode : r.code[5]? = none := by cases r <;> rfl
  have hexec : s.exec c 0 r 5 tmp =
      some { s with loc := Function.update s.loc c (.returned r (r.result tmp)) } := by
    simp only [State.exec, hcode]
  exact .of_exec hloc hexec ⟨[], trivial, trivial, r.result tmp, Function.update_self ..⟩

/-- Behind a store-conditional that has succeeded a routine ends. -/
theorem canReturn_stored (hloc : s.loc c = .running r 4 (0 : Word w)) : CanReturn s c r := by
  have hcode : r.code[4]? = some (.bnez 0) := by cases r <;> rfl
  have hexec : s.exec c 0 r 4 0 = some (s.goto c r 5 0) := by
    simp only [State.exec, hcode, ne_eq, not_true_eq_false, if_false]
  exact .of_exec hloc hexec (canReturn_end (s.goto_loc ..))

theorem canReturn_reserved {tmp : Word w} (hloc : s.loc c = .running r 3 tmp)
    (hres : s.reserved c = true) : CanReturn s c r := by
  have hcode : r.code[3]? = some .scW := by cases r <;> rfl
  have hexec : s.exec c 0 r 3 tmp =
      some (((s.store (tmp.setWidth 32)).acquire c r).goto c r 4 0) := by
    simp only [State.exec, hcode, hres, if_true]
  exact .of_exec hloc hexec (canReturn_stored (State.goto_loc ..))

include htry in
/-- **A trylock can return when it is left alone.** -/
theorem canReturn_called {tmp : Word w} (hloc : s.loc c = .running r 0 tmp) : CanReturn s c r := by
  have hcode : r.code[0]? = some .lrW := by cases r <;> rfl
  set s₁ : State w C := { s.goto c r 1 (s.lock.signExtend _) with
    reserved := Function.update s.reserved c true } with hs₁
  have hload : s.exec c 0 r 0 tmp = some s₁ := by
    simp only [State.exec, hcode, hs₁]
  have hloc₁ : s₁.loc c = .running r 1 (s.lock.signExtend _) := Function.update_self ..
  have hres₁ : s₁.reserved c = true := Function.update_self ..
  refine .of_exec hloc hload ?_
  obtain ⟨hpass, hbusy⟩ := State.exec_branch s₁ c 0 r s.lock
  by_cases hfree : Free r s.lock
  · obtain ⟨tmp', hmake, -⟩ := State.exec_make (s₁.goto c r 2 (s.lock.signExtend _)) c 0
      (s.lock.signExtend _) r
    refine .of_exec hloc₁ (hpass hfree) (.of_exec (s₁.goto_loc ..) hmake ?_)
    exact canReturn_reserved (State.goto_loc ..) hres₁
  · rw [busyTarget_of_try htry] at hbusy
    exact .of_exec hloc₁ (hbusy hfree) (canReturn_end (s₁.goto_loc ..))

include htry in
/-- **An uncontended trylock takes the lock iff it finds the lock word free.** -/
theorem takes_iff (hout : s.outside c = true) : Takes s c r ↔ Free r s.lock := by
  set s₁ : State w C :=
    { s.goto c r 0 0 with acquired := Function.update s.acquired c false } with hs₁
  have hcall : Step s (.call c r 0) s₁ := by
    unfold Step State.step
    simp only [hout, if_true, hs₁]
  obtain ⟨rest, hrest, hmeets, value, hret⟩ := canReturn_called htry (s := s₁) (s.goto_loc c r 0 0)
  have hruns : IsRun Step s ((.call c r 0, s₁) :: rest) := ⟨hcall, hrest⟩
  have hcalls : Uncontended c r ((.call c r 0, s₁) :: rest) := ⟨⟨0, rfl⟩, hmeets⟩
  constructor
  · intro h
    have htrue := h.value _ hruns hcalls value hret
    have hvalue := uncontended_value htry hruns hcalls hret
    rw [htrue, Option.some.injEq] at hvalue
    exact of_decide_eq_true hvalue.symm
  · intro hfree
    refine ⟨⟨_, hruns, hcalls, value, hret⟩, fun run hrun hcalls' value' hret' => ?_⟩
    rw [uncontended_value htry hrun hcalls' hret', decide_eq_true hfree]

end Uncontended

/-! ## The predicates -/

theorem archReadCanLock_true (lock : BitVec 32) : archReadCanLock lock = true := by
  simp [archReadCanLock, BitVec.ule]

theorem archWriteCanLock_iff (lock : BitVec 32) :
    archWriteCanLock lock = true ↔ Free .writeTrylock lock := beq_iff_eq

section Predicates

variable [Fintype C] {s : State w C} {c : C}

omit [Fintype C] in
/-- In every state the predicates agree with the trylocks iff the lock word has no sign. -/
theorem canAgrees_iff (hout : s.outside c = true) : CanAgrees s c ↔ s.lock.msb = false := by
  have hread : Takes s c .readTrylock ↔ s.lock.msb = false := takes_iff (.inl rfl) hout
  have hwrite : Takes s c .writeTrylock ↔ Free .writeTrylock s.lock := takes_iff (.inr rfl) hout
  constructor
  · intro h
    exact hread.mp (h.read.mp (archReadCanLock_true _))
  · intro hmsb
    exact ⟨iff_of_true (archReadCanLock_true _) (hread.mpr hmsb),
      (archWriteCanLock_iff _).trans hwrite.symm⟩

omit [DecidableEq C] in
/-- The sign of the lock word is that of a writer. -/
theorem Inv.msb_iff (h : Inv s) (hbound : s.readers < 2 ^ 31) :
    s.lock.msb = false ↔ s.writers = 0 := by
  rcases h.word with ⟨hw, hlock⟩ | ⟨hw, -, hlock⟩
  · refine iff_of_true ?_ hw
    rw [hlock, BitVec.msb_eq_decide, BitVec.toNat_ofNat, Nat.mod_eq_of_lt (by omega)]
    exact decide_eq_false (by omega)
  · exact iff_of_false (by rw [hlock]; decide) (by omega)

/-- `arch_read_can_lock` is false while a writer holds the lock. -/
def SeesWriter (s : State w C) : Prop := 0 < s.writers → archReadCanLock s.lock = false

/-- **The predicates agree with the trylocks iff the sign bit of the lock word is clear**, for every
lock word, and in the states of a run with fewer than 2^31 readers iff there is no writer. -/
theorem canLock_agrees_iff :
    (∀ (s : State w C) (c : C), s.outside c = true → (CanAgrees s c ↔ s.lock.msb = false)) ∧
      ∀ run : List (Act w C × State w C), IsRun Step .unlocked run →
        Always (fun s => s.readers < 2 ^ 31) .unlocked run →
        Always (fun s => ∀ c, s.outside c = true → (CanAgrees s c ∧ SeesWriter s ↔ s.writers = 0))
          .unlocked run := by
  refine ⟨fun s c hout => canAgrees_iff hout, fun run hrun hbound => ?_⟩
  have hinv := hrun.meets_invariant (fun s a s' h hb hs => Inv.step h hb hs) hbound.meets
    Inv.unlocked
  have hstate : ∀ s : State w C, Inv s → s.readers < 2 ^ 31 → ∀ c, s.outside c = true →
      (CanAgrees s c ∧ SeesWriter s ↔ s.writers = 0) := by
    intro s h hb c hout
    rw [canAgrees_iff hout, h.msb_iff hb]
    refine and_iff_left_of_imp fun hzero hpos => ?_
    exact absurd hzero hpos.ne'
  exact ⟨hstate _ hinv.1 hbound.1, fun e he => hstate _ (hinv.2 e he) (hbound.2 e he)⟩

end Predicates

/-- The predicates are right of an unlocked word, and along the run of a reader and a writer they
are right exactly without the writer. -/
theorem canLock_agrees_contended :
    let run := trace State.step (State.unlocked : State .rv64 Bool) contended
    CanAgrees (State.unlocked : State .rv64 Bool) true ∧
      Always (fun s => ∀ c, s.outside c = true → (CanAgrees s c ∧ SeesWriter s ↔ s.writers = 0))
        .unlocked run :=
  ⟨(canLock_agrees_iff.1 _ _ rfl).mpr rfl,
    canLock_agrees_iff.2 _ (isRun_trace _ _) ⟨by decide, by decide⟩⟩

/-- A writer has taken the lock. -/
def written : List (Act .rv64 Bool × State .rv64 Bool) :=
  trace State.step .unlocked (.call true .writeTrylock 0 :: List.replicate 6 (.instr true 0))

/-- **`arch_read_can_lock` is true while a writer holds the lock**, where `arch_read_trylock`
fails. -/
theorem not_canLock_written :
    let s := lastState .unlocked written
    s.lock = 0xffffffff ∧ s.writers = 1 ∧ archReadCanLock s.lock = true ∧
      ¬ Takes s false .readTrylock ∧ ¬ CanAgrees s false := by
  have hout : (lastState .unlocked written).outside false = true := by decide
  have hmsb : ¬ (lastState .unlocked written).lock.msb = false := by decide
  refine ⟨by decide, by decide, by decide, fun h => ?_, fun h => hmsb ((canAgrees_iff hout).mp h)⟩
  exact hmsb ((takes_iff (.inl rfl) hout).mp h)

end LowriscLinux.Kernel.Rwlock
