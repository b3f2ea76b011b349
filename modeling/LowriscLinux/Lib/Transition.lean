import Mathlib.Data.List.Induction
import Mathlib.Logic.Relation

/-!
# Labelled transition systems

Runs of a system with labelled steps, as lists of labels with the states they lead to (`IsRun`).
A condition on the steps of a run (`Meets`) may decide whether a property holds in all of its
states.

Results:
* `IsRun.invariant`: what holds at the start and is kept by every step holds along every run.
* `IsRun.meets_invariant`: the same for a run whose steps meet a condition.
* `isRun_trace`: a step function and a list of labels give a run.
* `field_foldl`: a field that each step sets or keeps holds the last value set.
* `IsRun.always_iff_meets`: when a step from a good state keeps the property iff it meets the
  condition, the property holds along a run iff all steps of the run meet the condition.
-/

namespace LowriscLinux.Lib

variable {σ α : Type}

/-- A run from `s`: its steps and the states after them. -/
def IsRun (Step : σ → α → σ → Prop) : σ → List (α × σ) → Prop
  | _, [] => True
  | s, (a, s') :: rest => Step s a s' ∧ IsRun Step s' rest

/-- The state after a run from `s`. -/
def lastState : σ → List (α × σ) → σ
  | s, [] => s
  | _, (_, s') :: rest => lastState s' rest

/-- Every step of a run from `s` meets a condition on the state before it. -/
def Meets (Good : σ → α → Prop) : σ → List (α × σ) → Prop
  | _, [] => True
  | s, (a, s') :: rest => Good s a ∧ Meets Good s' rest

/-- A property holds in all states of a run from `s`. -/
def Always (P : σ → Prop) (s : σ) (run : List (α × σ)) : Prop :=
  P s ∧ ∀ e ∈ run, P e.2

section Rules

variable {Start : σ → Prop} {Step : σ → α → σ → Prop} {Good : σ → α → Prop} {Inv P : σ → Prop}
  {s s' : σ} {a : α} {run : List (α × σ)}

theorem isRun_append {run' : List (α × σ)} :
    IsRun Step s (run ++ run') ↔ IsRun Step s run ∧ IsRun Step (lastState s run) run' := by
  induction run generalizing s with
  | nil => simp [IsRun, lastState]
  | cons e rest ih => simp only [List.cons_append, IsRun, lastState, ih, and_assoc]

theorem lastState_append {run' : List (α × σ)} :
    lastState s (run ++ run') = lastState (lastState s run) run' := by
  induction run generalizing s with
  | nil => rfl
  | cons e rest ih => exact ih

theorem always_cons : Always P s ((a, s') :: run) ↔ P s ∧ Always P s' run := by
  simp [Always]

theorem Always.last (h : Always P s run) : P (lastState s run) := by
  induction run generalizing s with
  | nil => exact h.1
  | cons e rest ih => exact ih (always_cons.mp h).2

/-- An invariant of all steps holds along every run. -/
theorem IsRun.invariant (hstep : ∀ s a s', Inv s → Step s a s' → Inv s') (hrun : IsRun Step s run)
    (h : Inv s) : Always Inv s run := by
  induction run generalizing s with
  | nil => exact ⟨h, by simp⟩
  | cons e rest ih =>
    obtain ⟨hs, hrest⟩ := hrun
    exact always_cons.mpr ⟨h, ih hrest (hstep s _ _ h hs)⟩

/-- What an invariant adds to every step holds of the steps of a run. -/
theorem IsRun.imp {Step' : σ → α → σ → Prop} (hstep : ∀ s a s', Inv s → Step s a s' → Inv s')
    (himp : ∀ s a s', Inv s → Step s a s' → Step' s a s') (hrun : IsRun Step s run) (h : Inv s) :
    IsRun Step' s run := by
  induction run generalizing s with
  | nil => trivial
  | cons e rest ih =>
    obtain ⟨hs, hrest⟩ := hrun
    exact ⟨himp s _ _ h hs, ih hrest (hstep s _ _ h hs)⟩

/-- An invariant of the steps that meet a condition holds along every run of such steps. -/
theorem IsRun.meets_invariant (hstep : ∀ s a s', Inv s → Good s a → Step s a s' → Inv s')
    (hrun : IsRun Step s run) (hmeets : Meets Good s run) (h : Inv s) : Always Inv s run := by
  induction run generalizing s with
  | nil => exact ⟨h, by simp⟩
  | cons e rest ih =>
    obtain ⟨hs, hrest⟩ := hrun
    obtain ⟨hgood, hmeets⟩ := hmeets
    exact always_cons.mpr ⟨h, ih hrest hmeets (hstep s _ _ h hgood hs)⟩

/-- What holds in all states of a run holds before each of its steps. -/
theorem Always.meets (h : Always P s run) : Meets (fun s (_ : α) => P s) s run := by
  induction run generalizing s with
  | nil => trivial
  | cons e rest ih =>
    obtain ⟨hs, hrest⟩ := always_cons.mp h
    exact ⟨hs, ih hrest⟩

instance decidableMeets [∀ s a, Decidable (Good s a)] :
    ∀ (s : σ) (run : List (α × σ)), Decidable (Meets Good s run)
  | _, [] => .isTrue trivial
  | s, (a, s') :: rest => @instDecidableAnd (Good s a) _ _ (decidableMeets s' rest)

theorem Meets.imp {Good' : σ → α → Prop} (h : Meets Good s run)
    (himp : ∀ s a, Good s a → Good' s a) : Meets Good' s run := by
  induction run generalizing s with
  | nil => trivial
  | cons e rest ih =>
    obtain ⟨hgood, hrest⟩ := h
    exact ⟨himp s _ hgood, ih hrest⟩

theorem Always.imp {Q : σ → Prop} (h : Always P s run) (himp : ∀ s, P s → Q s) :
    Always Q s run :=
  ⟨himp s h.1, fun e he => himp e.2 (h.2 e he)⟩

/-- **A property holds along a run iff every step meets the condition**, when that is so for one
step from a state where the invariant holds. -/
theorem IsRun.always_iff_meets (hinv : ∀ s, Inv s → P s)
    (hstep : ∀ s a s', Inv s → Good s a → Step s a s' → Inv s')
    (hbreak : ∀ s a s', Inv s → Step s a s' → P s' → Good s a)
    (hrun : IsRun Step s run) (h : Inv s) : Always P s run ↔ Meets Good s run := by
  constructor
  · intro hall
    induction run generalizing s with
    | nil => trivial
    | cons e rest ih =>
      obtain ⟨hs, hrest⟩ := hrun
      obtain ⟨-, hall⟩ := always_cons.mp hall
      have hgood := hbreak s _ _ h hs hall.1
      exact ⟨hgood, ih hrest (hstep s _ _ h hgood hs) hall⟩
  · intro hmeets
    exact (hrun.meets_invariant hstep hmeets h).imp hinv

end Rules

/-! ## Runs of a step function -/

section Trace

variable {step : σ → α → Option σ}

/-- The run that takes the given steps, as far as they can be taken. -/
def trace (step : σ → α → Option σ) : σ → List α → List (α × σ)
  | _, [] => []
  | s, a :: as =>
    match step s a with
    | some s' => (a, s') :: trace step s' as
    | none => []

theorem isRun_trace (s : σ) (as : List α) :
    IsRun (fun s a s' => step s a = some s') s (trace step s as) := by
  induction as generalizing s with
  | nil => trivial
  | cons a as ih =>
    rw [trace]
    cases h : step s a with
    | none => trivial
    | some s' => exact ⟨h, ih s'⟩

end Trace

/-! ## Fields that steps set -/

section Fields

variable {β : Type} {step : σ → α → σ} {field : σ → β} {sets : α → Option β}

/-- The last value that a sequence of steps sets, or the first value when none is set. -/
def lastSet (sets : α → Option β) (b : β) (cs : List α) : β :=
  cs.foldl (fun b c => (sets c).getD b) b

/-- **A field that each step sets or keeps holds the last value set.** -/
theorem field_foldl (h : ∀ s c, field (step s c) = (sets c).getD (field s)) (s : σ)
    (cs : List α) : field (cs.foldl step s) = lastSet sets (field s) cs := by
  unfold lastSet
  induction cs generalizing s with
  | nil => rfl
  | cons c cs ih => rw [List.foldl_cons, List.foldl_cons, ih, h]

theorem lastSet_concat (sets : α → Option β) (b : β) (cs : List α) (c : α) :
    lastSet sets b (cs ++ [c]) = (sets c).getD (lastSet sets b cs) :=
  List.foldl_append

/-- Where no step sets a field it has its first value. -/
theorem lastSet_of_none {b : β} {cs : List α} (h : ∀ c ∈ cs, sets c = none) :
    lastSet sets b cs = b := by
  induction cs with
  | nil => rfl
  | cons c cs ih =>
    rw [lastSet, List.foldl_cons, h c List.mem_cons_self]
    exact ih fun c' hc' => h c' (List.mem_cons_of_mem _ hc')

/-- Steps that set the opposite of what they should give the right value iff none of them sets
the field. -/
theorem lastSet_not_eq_iff {sets : α → Option Bool} {b : Bool} {cs : List α} :
    lastSet (fun c => (sets c).map not) b cs = lastSet sets b cs ↔ ∀ c ∈ cs, sets c = none := by
  constructor
  · intro h
    induction cs using List.reverseRecOn with
    | nil => simp
    | append_singleton cs c ih =>
      rw [lastSet_concat, lastSet_concat] at h
      cases hc : sets c with
      | some v =>
        rw [hc, Option.map_some, Option.getD_some, Option.getD_some] at h
        exact absurd h (by simp)
      | none =>
        rw [hc] at h
        exact List.forall_mem_append.mpr ⟨ih h, List.forall_mem_singleton.mpr hc⟩
  · intro h
    rw [lastSet_of_none h, lastSet_of_none fun c hc => by rw [h c hc, Option.map_none]]

/-- What every step keeps is kept by a sequence of steps. -/
theorem foldl_kept (h : ∀ s c, field (step s c) = field s) (s : σ) (cs : List α) :
    field (cs.foldl step s) = field s := by
  induction cs generalizing s with
  | nil => rfl
  | cons c cs ih => rw [List.foldl_cons, ih, h]

end Fields

end LowriscLinux.Lib
