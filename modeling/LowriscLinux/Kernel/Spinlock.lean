import LowriscLinux.Kernel.PtRegs
import LowriscLinux.Lib.Serial
import LowriscLinux.Lib.Transition
import LowriscLinux.Lib.Words

/-!
# Spin locks

Model of the spin locks of `arch/riscv/include/asm/spinlock.h` (lines 11-46), by any number of
contexts that guard some data with the lock.

## What models what

* `Loc` and `exec`: a context in `arch_spin_lock` (lines 37-46) loads the lock word until it is 0
  (line 40) and then tries to swap a 1 in (line 43); in `arch_spin_trylock` (lines 24-35) it swaps
  once; in `arch_spin_unlock_wait` (lines 13 and 14) it loads until the word is 0.
* `trySwap`: the `amoswap.w.aq` of line 29. `trylockResult`: line 34, `!busy`, on the `int` in the
  register. `swapped` is what the instruction leaves there.
* `unlock`: `arch_spin_unlock`, lines 16-22, a swap with 0.
* `Sections`: the critical sections and their instructions, which are a parameter of the library
  (`Lib/Serial.lean`): what each does to the data, and what it returns.
* `die`: the section of `die()` on its counter (`arch/riscv/kernel/traps.c`, lines 27-39), as an
  instance.

A load of the lock word, an atomic swap and an instruction of a critical section are one step each.
A context goes into its section when `arch_spin_lock` is back, or `arch_spin_trylock` with a result
other than 0. `aq` and `rl` order other accesses, which here are in order anyway.

Results:
* `Inv.step`: the lock word is 1 while one context is in its section, and else 0.
* **`spinlock_serial`**: along every run at most one context is in its section, and the data is what
  the sections make of it one after the other.
* `spinlock_taken`: where no context is in its section, the next two steps of a context that asks
  for the lock take it.
* **`die_numbers`**: `die()` numbers the oopses of all harts 1, 2, 3, …
-/

namespace LowriscLinux.Kernel.Spinlock

open Lib

variable {w : Xlen} {M T O R C : Type}

/-- What a context does with the lock. -/
inductive Loc (T O : Type)
  | idle
  /-- `arch_spin_lock`, at `arch_spin_is_locked`. -/
  | test (o : O)
  /-- `arch_spin_lock`, at the swap of `arch_spin_trylock`. -/
  | swap (o : O)
  /-- `arch_spin_trylock`, at its swap. -/
  | trySwap (o : O)
  /-- `arch_spin_trylock` has returned 0. -/
  | refused
  /-- `arch_spin_unlock_wait`. -/
  | wait
  | inside (o : O) (t : T)
  deriving DecidableEq, Repr

/-- The lock word, the data, and for every context its place. `log` lists the sections that have
left, in order, with their results. -/
structure State (M T O R C : Type) where
  lock : BitVec 32
  data : M
  loc : C → Loc T O
  log : List (C × O × R)

/-- `__ARCH_SPIN_LOCK_UNLOCKED`. -/
def State.unlocked (data : M) : State M T O R C where
  lock := 0
  data := data
  loc _ := .idle
  log := []

inductive Act (O C : Type)
  | lock (c : C) (o : O)
  | trylock (c : C) (o : O)
  | unlockWait (c : C)
  /-- The next instruction of a context. -/
  | instr (c : C)
  deriving DecidableEq, Repr

/-- What `amoswap.w` leaves in its register. -/
def swapped (w : Xlen) (lock : BitVec 32) : Word w := lock.signExtend _

/-- `return !busy;`, where `busy` is an `int`. -/
def trylockResult (busy : Word w) : Bool := busy.setWidth 32 = 0#32

variable [DecidableEq C] (w) (p : Sections M T O R)

namespace State

def goto (s : State M T O R C) (c : C) (l : Loc T O) : State M T O R C :=
  { s with loc := Function.update s.loc c l }

/-- `amoswap.w.aq busy, tmp, lock` with `tmp` 1: into the section, or to `l`. -/
def trySwap (s : State M T O R C) (c : C) (o : O) (l : Loc T O) : State M T O R C :=
  { s with lock := 1 }.goto c (if trylockResult (swapped w s.lock) then .inside o (p.enter o) else l)

/-- `arch_spin_unlock`: `amoswap.w.rl x0, x0, lock`. -/
def unlock (s : State M T O R C) (c : C) (o : O) (r : R) : State M T O R C :=
  { s with lock := 0, log := s.log ++ [(c, o, r)] }.goto c .idle

/-- The next instruction of a context. -/
def exec (s : State M T O R C) (c : C) : Option (State M T O R C) :=
  match s.loc c with
  | .idle => none
  | .refused => none
  | .test o => some (s.goto c (if s.lock ≠ 0 then .test o else .swap o))
  | .swap o => some (s.trySwap w p c o (.test o))
  | .trySwap o => some (s.trySwap w p c o .refused)
  | .wait => some (s.goto c (if s.lock ≠ 0 then .wait else .idle))
  | .inside o t =>
    match p.leave t with
    | some r => some (s.unlock c o r)
    | none => some ({ s with data := (p.exec s.data t).1 }.goto c (.inside o (p.exec s.data t).2))

/-- A context calls a function when it is in none and in no section. -/
def call (s : State M T O R C) (c : C) (l : Loc T O) : Option (State M T O R C) :=
  match s.loc c with
  | .idle => some (s.goto c l)
  | .refused => some (s.goto c l)
  | _ => none

def step (s : State M T O R C) : Act O C → Option (State M T O R C)
  | .lock c o => s.call c (.test o)
  | .trylock c o => s.call c (.trySwap o)
  | .unlockWait c => s.call c .wait
  | .instr c => s.exec w p c

end State

/-- One step of a run. -/
def Step (s : State M T O R C) (a : Act O C) (s' : State M T O R C) : Prop :=
  s.step w p a = some s'

/-! ## The invariant -/

/-- The section that a place is in. -/
def Loc.current : Loc T O → Option (O × T)
  | inside o t => some (o, t)
  | _ => none

/-- A context is in its section. -/
def State.Inside (s : State M T O R C) (c : C) : Prop := (s.loc c).current ≠ none

/-- The lock is free, or one context has it. -/
inductive Inv (data : M) (s : State M T O R C) : Prop
  | free (lock : s.lock = 0) (outside : ∀ c, ¬ s.Inside c)
      (guarded : Guarded p data s.log s.data none)
  | held (c : C) (lock : s.lock = 1) (inside : s.Inside c) (others : ∀ c', c' ≠ c → ¬ s.Inside c')
      (guarded : Guarded p data s.log s.data (s.loc c).current)

section Run

variable {w} {p} {data : M} {s s' : State M T O R C} {a : Act O C} {c : C} {l : Loc T O} {o : O}

/-- A trylock returns true iff the word was 0. -/
theorem trylockResult_swapped (v : BitVec 32) : trylockResult (swapped w v) = decide (v = 0) := by
  rw [trylockResult, swapped, setWidth_signExtend (le_xlen w)]
  rfl

theorem inside_self : (s.goto c l).Inside c ↔ l.current ≠ none := by
  simp [State.Inside, State.goto]

theorem inside_other {c' : C} (h : c' ≠ c) : (s.goto c l).Inside c' ↔ s.Inside c' := by
  simp [State.Inside, State.goto, Function.update_of_ne h]

theorem not_inside (hl : l.current = none) {c' : C} (h : ¬ s.Inside c') :
    ¬ (s.goto c l).Inside c' := by
  by_cases hc : c' = c
  · subst hc
    exact fun hin => inside_self.mp hin hl
  · exact mt (inside_other hc).mp h

/-- A context moves on outside of its section. -/
theorem Inv.goto (h : Inv p data s) (hc : ¬ s.Inside c) (hl : l.current = none) :
    Inv p data (s.goto c l) := by
  cases h with
  | free lock outside guarded => exact .free lock (fun c' => not_inside hl (outside c')) guarded
  | held c₀ lock inside others guarded =>
    have hne : c₀ ≠ c := fun heq => hc (heq ▸ inside)
    refine .held c₀ lock ((inside_other hne).mpr inside) (fun c' h => not_inside hl (others c' h)) ?_
    simpa [State.goto, Function.update_of_ne hne] using guarded

/-- The swap takes a free lock, and leaves a held one. -/
theorem Inv.trySwap (h : Inv p data s) (hc : ¬ s.Inside c) (hl : l.current = none) :
    Inv p data (s.trySwap w p c o l) := by
  unfold State.trySwap
  rw [trylockResult_swapped]
  cases h with
  | free lock outside guarded =>
    simp only [lock, decide_true, if_true]
    refine .held c rfl (inside_self.mpr (by simp [Loc.current]))
      (fun c' hne => mt (inside_other hne).mp (outside c')) ?_
    simpa [State.goto, Loc.current] using guarded.enter o
  | held c₀ lock inside others guarded =>
    have hne : ¬ s.lock = 0 := by rw [lock]; decide
    have hsame : { s with lock := 1 } = s := by rw [← lock]
    simp only [hne, decide_false, Bool.false_eq_true, if_false, hsame]
    exact (Inv.held c₀ lock inside others guarded).goto hc hl

/-- An instruction of a section, or its unlock. -/
theorem Inv.exec_inside (h : Inv p data s) {t : T} (hc : s.loc c = .inside o t)
    (hs : s.exec w p c = some s') : Inv p data s' := by
  have hin : s.Inside c := by simp [State.Inside, hc, Loc.current]
  cases h with
  | free lock outside guarded => exact absurd hin (outside c)
  | held c₀ lock inside others guarded =>
    obtain rfl : c = c₀ := by
      by_contra hne
      exact others c hne hin
    rw [hc] at guarded
    simp only [State.exec, hc] at hs
    cases ht : p.leave t with
    | some r =>
      simp only [ht, Option.some.injEq] at hs
      subst hs
      refine .free rfl (fun c' => ?_) (guarded.leave ht c)
      by_cases hcc : c' = c
      · subst hcc
        exact fun hin' => inside_self.mp hin' rfl
      · exact mt (inside_other hcc).mp (others c' hcc)
    | none =>
      simp only [ht, Option.some.injEq] at hs
      subst hs
      refine .held c lock (inside_self.mpr (by simp [Loc.current]))
        (fun c' hne => mt (inside_other hne).mp (others c' hne)) ?_
      simpa [State.goto, Loc.current] using guarded.run ht

theorem Inv.call (h : Inv p data s) (hl : l.current = none) (hs : s.call c l = some s') :
    Inv p data s' := by
  unfold State.call at hs
  cases hc : s.loc c with
  | idle | refused =>
    simp only [hc, Option.some.injEq] at hs
    subst hs
    exact h.goto (by simp [State.Inside, hc, Loc.current]) hl
  | _ => simp [hc] at hs

/-- **Every step keeps the invariant.** -/
theorem Inv.step (h : Inv p data s) (hs : Step w p s a s') : Inv p data s' := by
  cases a with
  | lock c o => exact h.call rfl hs
  | trylock c o => exact h.call rfl hs
  | unlockWait c => exact h.call rfl hs
  | instr c =>
    have hs : s.exec w p c = some s' := hs
    cases hc : s.loc c with
    | inside o t => exact h.exec_inside hc hs
    | idle | refused => simp [State.exec, hc] at hs
    | test o | wait =>
      have hout : ¬ s.Inside c := by simp [State.Inside, hc, Loc.current]
      simp only [State.exec, hc, Option.some.injEq] at hs
      subst hs
      exact h.goto hout (by split_ifs <;> rfl)
    | swap o | trySwap o =>
      have hout : ¬ s.Inside c := by simp [State.Inside, hc, Loc.current]
      simp only [State.exec, hc, Option.some.injEq] at hs
      subst hs
      exact h.trySwap hout rfl

/-- What the lock is for. -/
structure Correct (p : Sections M T O R) (data : M) (s : State M T O R C) : Prop where
  exclusive : ∀ c c', s.Inside c → s.Inside c' → c = c'
  word : (s.lock = 0 ∧ ∀ c, ¬ s.Inside c) ∨ (s.lock = 1 ∧ ∃ c, s.Inside c)
  /-- The sections that have left ran one after the other, and the one that has not goes on from
  there. -/
  serial : ∃ b, Guarded p data s.log s.data b ∧ (b = none ↔ s.lock = 0) ∧
    ∀ c, s.Inside c → (s.loc c).current = b

theorem Inv.correct (h : Inv p data s) : Correct p data s := by
  cases h with
  | free lock outside guarded =>
    exact ⟨fun c _ hc => absurd hc (outside c), Or.inl ⟨lock, outside⟩,
      none, guarded, iff_of_true rfl lock, fun c hc => absurd hc (outside c)⟩
  | held c lock inside others guarded =>
    have hone : ∀ c', s.Inside c' → c' = c := fun c' hc => by
      by_contra hne
      exact others c' hne hc
    refine ⟨fun c₁ c₂ h₁ h₂ => (hone c₁ h₁).trans (hone c₂ h₂).symm, Or.inr ⟨lock, c, inside⟩,
      (s.loc c).current, guarded, iff_of_false inside ?_, fun c' hc => by rw [hone c' hc]⟩
    rw [lock]
    decide

theorem Inv.run {run : List (Act O C × State M T O R C)}
    (hrun : IsRun (Step w p) (.unlocked data) run) : Always (Inv p data) (.unlocked data) run := by
  have hstart : Inv p data (.unlocked data : State M T O R C) :=
    .free rfl (fun c hc => hc rfl) (Guarded.start data)
  exact hrun.invariant (fun _ _ _ h hs => Inv.step h hs) hstart

/-- **Along every run at most one context is in its section**, and the data is what the sections
make of it one after the other. -/
theorem spinlock_serial {run : List (Act O C × State M T O R C)}
    (hrun : IsRun (Step w p) (.unlocked data) run) :
    Always (Correct p data) (.unlocked data) run :=
  (Inv.run hrun).imp fun _ h => h.correct

/-- The next steps of a context take a free lock. -/
theorem spinlock_taken (hlock : s.lock = 0)
    (hc : s.loc c = .test o ∨ s.loc c = .swap o ∨ s.loc c = .trySwap o) :
    ∃ k ≤ 2, (lastState s (trace (State.step w p) s (List.replicate k (.instr c)))).loc c =
      .inside o (p.enter o) := by
  have hswap : ∀ (s : State M T O R C) l, s.lock = 0 →
      (s.trySwap w p c o l).loc c = .inside o (p.enter o) := by
    intro s l hlock
    rw [State.trySwap, trylockResult_swapped, hlock]
    simp [State.goto]
  rcases hc with hc | hc | hc
  · refine ⟨2, le_refl 2, ?_⟩
    have hfirst : s.exec w p c = some (s.goto c (.swap o)) := by simp [State.exec, hc, hlock]
    have hsecond : (s.goto c (.swap o)).exec w p c =
        some ((s.goto c (.swap o)).trySwap w p c o (.test o)) := by
      simp [State.exec, State.goto]
    simp only [List.replicate, trace, State.step, hfirst, hsecond, lastState]
    exact hswap _ _ hlock
  · refine ⟨1, by decide, ?_⟩
    have hfirst : s.exec w p c = some (s.trySwap w p c o (.test o)) := by simp [State.exec, hc]
    simp only [List.replicate, trace, State.step, hfirst, lastState]
    exact hswap _ _ hlock
  · refine ⟨1, by decide, ?_⟩
    have hfirst : s.exec w p c = some (s.trySwap w p c o .refused) := by simp [State.exec, hc]
    simp only [List.replicate, trace, State.step, hfirst, lastState]
    exact hswap _ _ hlock

end Run

/-! ## `die()` -/

/-- `++die_counter`, between `spin_lock_irq` and `spin_unlock_irq` of `die_lock`. -/
inductive DieLoc
  | load
  | store (v : BitVec 32)
  | done (v : BitVec 32)
  deriving DecidableEq, Repr

/-- The section of `die()` (`arch/riscv/kernel/traps.c`) on `die_counter`: it ends with the number
that it has printed with its message `str`. -/
def die (Str : Type) : Sections (BitVec 32) (Str × DieLoc) Str (Str × BitVec 32) where
  enter str := (str, .load)
  exec m t :=
    match t.2 with
    | .load => (m, (t.1, .store (m + 1)))
    | .store v => (v, (t.1, .done v))
    | .done v => (m, (t.1, .done v))
  leave t :=
    match t.2 with
    | .done v => some (t.1, v)
    | _ => none

section Die

variable {Str C : Type} {m m' : BitVec 32} {es : List (C × Str × Str × BitVec 32)}

theorem die_ends (str : Str) (m : BitVec 32) :
    Ends (die Str).step (m, (die Str).enter str) (m + 1, (str, m + 1)) := by
  have hload : (die Str).step (m, (str, .load)) = .inl (m, (str, .store (m + 1))) := rfl
  have hstore : (die Str).step (m, (str, .store (m + 1))) = .inl (m + 1, (str, .done (m + 1))) := rfl
  exact (ends_next_iff hload).mpr ((ends_next_iff hstore).mpr (.last rfl))

theorem serial_die (h : Serial (die Str) m es m') :
    m' = m + BitVec.ofNat 32 es.length ∧ ∀ (i : Nat) (e : C × Str × Str × BitVec 32),
      es[i]? = some e → e.2.2 = (e.2.1, m + BitVec.ofNat 32 (i + 1)) := by
  induction es generalizing m with
  | nil => exact ⟨by rw [← h]; simp, fun i e he => by simp at he⟩
  | cons e es ih =>
    obtain ⟨c, str, r⟩ := e
    obtain ⟨u, hends, hrest⟩ := h
    obtain ⟨rfl, rfl⟩ := Prod.mk.inj (hends.unique (die_ends str m))
    obtain ⟨hm, hnumbers⟩ := ih hrest
    have hadd : ∀ j, m + 1 + BitVec.ofNat 32 j = m + BitVec.ofNat 32 (j + 1) := by
      intro j
      rw [BitVec.ofNat_add, BitVec.add_assoc, BitVec.add_comm 1]
      rfl
    refine ⟨hm.trans (hadd _), fun i e he => ?_⟩
    cases i with
    | zero =>
      obtain rfl := Option.some.inj he
      rfl
    | succ i => rw [hnumbers i e he, hadd]

/-- **`die()` numbers the oopses of all harts 1, 2, 3, …**, each with its own message. -/
theorem die_numbers [DecidableEq C] {w : Xlen}
    {run : List (Act Str C × State (BitVec 32) (Str × DieLoc) Str (Str × BitVec 32) C)}
    (hrun : IsRun (Step w (die Str)) (.unlocked 0) run) :
    let s := lastState (.unlocked 0) run
    ∀ (i : Nat) (e : C × Str × Str × BitVec 32), s.log[i]? = some e →
      e.2.2 = (e.2.1, BitVec.ofNat 32 (i + 1)) := by
  intro s i e he
  obtain ⟨b, ⟨u, hserial, -⟩, -⟩ := (Inv.run hrun).last.correct.serial
  rw [(serial_die hserial).2 i e he]
  exact congrArg (Prod.mk e.2.1) (BitVec.zero_add _)

end Die

/-- Two harts die at once: each finds the lock free, and one of them waits. -/
def dying : List (Act Nat Bool) :=
  [.lock true 7, .lock false 8, .instr true, .instr false, .instr false, .instr true,
    .instr false, .instr true, .instr false, .instr false, .instr true, .instr true, .instr true,
    .instr true, .instr true]

theorem die_numbers_dying :
    let s := lastState (.unlocked 0) (trace (State.step .rv64 (die Nat)) (.unlocked 0) dying)
    s.log.map (·.2.2) = [(8, 1), (7, 2)] ∧
      ∀ (i : Nat) (e : Bool × Nat × Nat × BitVec 32), s.log[i]? = some e →
        e.2.2 = (e.2.1, BitVec.ofNat 32 (i + 1)) :=
  ⟨by decide, die_numbers (isRun_trace _ dying)⟩

theorem spinlock_serial_dying :
    Always (Correct (die Nat) 0) (.unlocked 0)
      (trace (State.step .rv64 (die Nat)) (.unlocked 0) dying) :=
  spinlock_serial (isRun_trace _ dying)

end LowriscLinux.Kernel.Spinlock
