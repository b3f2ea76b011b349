import Mathlib.Logic.Basic

/-!
# Programs that halt

A deterministic program as a step function to a next state or a result. `Ends` is its big-step
relation: the step function, run long enough, gives the result.

Results:
* `Ends.invariant`: what every step keeps and every last step from it turns into `Q` makes `Q`
  hold of the result.
* `runFor_of_measure`, `ends_of_measure`: a program whose steps decrease a measure, as long as an
  invariant holds, has a result, within so many steps.
* `runFor_view`: a program and a view of it.
* `Ends.unique`: the result is unique.
* `Halts.loop`: a loop whose body leaves one iteration fewer due halts when its exit does.
-/

namespace LowriscLinux.Lib

variable {σ ε : Type}

/-- The result of a program, if it has one within `fuel` steps. -/
def runFor (step : σ → σ ⊕ ε) : Nat → σ → Option ε
  | 0, _ => none
  | fuel + 1, s =>
    match step s with
    | .inl s' => runFor step fuel s'
    | .inr e => some e

/-- The program halts with a result. -/
def Ends (step : σ → σ ⊕ ε) (s : σ) (e : ε) : Prop := ∃ fuel, runFor step fuel s = some e

/-- The states that the program goes through, the first one included. -/
inductive Visits (step : σ → σ ⊕ ε) : σ → σ → Prop
  | refl (s : σ) : Visits step s s
  | next {s s' t : σ} : step s = .inl s' → Visits step s' t → Visits step s t

/-- The program halts with a result in `Q`, and all states on the way are in `P`. -/
def Halts (step : σ → σ ⊕ ε) (P : σ → Prop) (Q : ε → Prop) (s : σ) : Prop :=
  (∃ e, Ends step s e ∧ Q e) ∧ ∀ t, Visits step s t → P t

section Rules

variable {step : σ → σ ⊕ ε} {s s' : σ} {e e' : ε}

theorem Ends.last (h : step s = .inr e) : Ends step s e := ⟨1, by simp [runFor, h]⟩

theorem ends_next_iff (h : step s = .inl s') : Ends step s e ↔ Ends step s' e := by
  constructor
  · rintro ⟨fuel, hrun⟩
    cases fuel with
    | zero => cases hrun
    | succ fuel => exact ⟨fuel, by simpa [runFor, h] using hrun⟩
  · rintro ⟨fuel, hrun⟩
    exact ⟨fuel + 1, by simpa [runFor, h] using hrun⟩

/-- **The invariant rule for results.** -/
theorem Ends.invariant {Inv : σ → Prop} {Q : ε → Prop}
    (hstep : ∀ s s', Inv s → step s = .inl s' → Inv s')
    (hlast : ∀ s e, Inv s → step s = .inr e → Q e) (h : Ends step s e) (hs : Inv s) : Q e := by
  obtain ⟨fuel, hrun⟩ := h
  induction fuel generalizing s with
  | zero => cases hrun
  | succ fuel ih =>
    cases hnext : step s with
    | inl s' => exact ih (hstep s s' hs hnext) (by simpa [runFor, hnext] using hrun)
    | inr e' =>
      obtain rfl : e' = e := by simpa [runFor, hnext] using hrun
      exact hlast s e' hs hnext

/-- **The termination rule**, with the number of steps. -/
theorem runFor_of_measure {Inv : σ → Prop} (μ : σ → Nat)
    (hstep : ∀ s s', Inv s → step s = .inl s' → Inv s' ∧ μ s' < μ s) (hs : Inv s) {fuel : Nat}
    (hfuel : μ s < fuel) : ∃ e, runFor step fuel s = some e := by
  induction fuel generalizing s with
  | zero => omega
  | succ fuel ih =>
    cases hnext : step s with
    | inr e => exact ⟨e, by simp [runFor, hnext]⟩
    | inl s' =>
      obtain ⟨hs', hlt⟩ := hstep s s' hs hnext
      obtain ⟨e, he⟩ := ih hs' (show μ s' < fuel by omega)
      exact ⟨e, by simpa [runFor, hnext] using he⟩

/-- The termination rule. -/
theorem ends_of_measure {Inv : σ → Prop} (μ : σ → Nat)
    (hstep : ∀ s s', Inv s → step s = .inl s' → Inv s' ∧ μ s' < μ s) (hs : Inv s) :
    ∃ e, Ends step s e := by
  obtain ⟨e, he⟩ := runFor_of_measure μ hstep hs (Nat.lt_succ_self (μ s))
  exact ⟨e, _, he⟩

/-- **The simulation rule**: a view of the states that commutes with the steps commutes with the
runs. -/
theorem runFor_view {σ' ε' : Type} {step' : σ' → σ' ⊕ ε'} {f : σ → σ'} {g : ε → ε'}
    (hstep : ∀ s, (step s).map f g = step' (f s)) (fuel : Nat) (s : σ) :
    (runFor step fuel s).map g = runFor step' fuel (f s) := by
  induction fuel generalizing s with
  | zero => rfl
  | succ fuel ih =>
    have hnext := hstep s
    cases h : step s with
    | inl s' =>
      rw [h, Sum.map_inl] at hnext
      simpa [runFor, h, ← hnext] using ih s'
    | inr e =>
      rw [h, Sum.map_inr] at hnext
      simp [runFor, h, ← hnext]

theorem Ends.unique (h : Ends step s e) (h' : Ends step s e') : e = e' := by
  obtain ⟨fuel, hrun⟩ := h
  induction fuel generalizing s with
  | zero => cases hrun
  | succ fuel ih =>
    cases hnext : step s with
    | inl s' =>
      exact ih ((ends_next_iff hnext).mp h') (by simpa [runFor, hnext] using hrun)
    | inr e₀ =>
      obtain rfl : e₀ = e := by simpa [runFor, hnext] using hrun
      obtain ⟨fuel', hrun'⟩ := h'
      cases fuel' with
      | zero => cases hrun'
      | succ fuel' => simpa [runFor, hnext] using hrun'

theorem Visits.invariant {Inv : σ → Prop} (hstep : ∀ s s', Inv s → step s = .inl s' → Inv s')
    (h : Visits step s s') (hs : Inv s) : Inv s' := by
  induction h with
  | refl => exact hs
  | next hnext _ ih => exact ih (hstep _ _ hs hnext)

variable {P : σ → Prop} {Q : ε → Prop}

theorem Halts.last (hP : P s) (h : step s = .inr e) (hQ : Q e) : Halts step P Q s := by
  refine ⟨⟨e, .last h, hQ⟩, fun t ht => ?_⟩
  cases ht with
  | refl => exact hP
  | next hnext =>
    rw [h] at hnext
    cases hnext

theorem Halts.next (hP : P s) (h : step s = .inl s') (hs' : Halts step P Q s') :
    Halts step P Q s := by
  obtain ⟨⟨e, hends, hQ⟩, hvisits⟩ := hs'
  refine ⟨⟨e, (ends_next_iff h).mpr hends, hQ⟩, fun t ht => ?_⟩
  cases ht with
  | refl => exact hP
  | next hnext hrest =>
    obtain rfl := Sum.inl.inj (h.symm.trans hnext)
    exact hvisits t hrest

/-- **The loop rule**: an iteration ends the program, or leaves one iteration fewer due. -/
theorem Halts.loop {I : Nat → σ → Prop}
    (hbody : ∀ m s, I (m + 1) s →
      P s ∧ ((∃ e, step s = .inr e ∧ Q e) ∨ ∃ s', step s = .inl s' ∧ I m s'))
    (hexit : ∀ s, I 0 s → Halts step P Q s) {m : Nat} (h : I m s) : Halts step P Q s := by
  induction m generalizing s with
  | zero => exact hexit s h
  | succ m ih =>
    obtain ⟨hP, ⟨e, hstep, hQ⟩ | ⟨s', hstep, hs'⟩⟩ := hbody m s h
    · exact .last hP hstep hQ
    · exact .next hP hstep (ih hs')

end Rules

end LowriscLinux.Lib
