import LowriscLinux.Lib.Halting

/-!
# Walks with a callback

A walk goes from one position to the next and has an item at some of them. It calls a function
with each item, which can stop it. `visit` is what such a function makes of a list of items.

Results:
* `Walk.visit_of_never`: the items that a walk has when nothing stops it decide what it does with
  any callback.
-/

namespace LowriscLinux.Lib

variable {ρ α σ : Type}

/-- The item at a position, if there is one, and the next position. -/
structure Walk (ρ α : Type) where
  look : ρ → Option α
  next : ρ → Option ρ

/-- Calls of `fn` with the items of a list until it says stop: what it leaves, and the items that
it was called with. -/
def visit (fn : α → σ → Bool × σ) : List α → σ → σ × List α
  | [], a => (a, [])
  | x :: xs, a =>
    let (stop, a) := fn x a
    if stop then (a, [x])
    else
      let (a, called) := visit fn xs a
      (a, x :: called)

/-- A callback that stops nothing. -/
def never (_ : α) (a : Unit) : Bool × Unit := (false, a)

namespace Walk

variable (W : Walk ρ α) (fn : α → σ → Bool × σ)

def advance (p : ρ) (r : σ × List α) : (ρ × σ × List α) ⊕ (σ × List α) :=
  match W.next p with
  | some p' => .inl (p', r)
  | none => .inr r

/-- A step of a walk with a callback; the items it was called with are kept. -/
def step : ρ × σ × List α → (ρ × σ × List α) ⊕ (σ × List α)
  | (p, a, called) =>
    match W.look p with
    | some x =>
      let (stop, a) := fn x a
      if stop then .inr (a, called ++ [x]) else W.advance p (a, called ++ [x])
    | none => W.advance p (a, called)

/-- **A walk is a visit of its items.** -/
theorem visit_of_never {fuel : Nat} {p : ρ} {called₀ called : List α}
    (h : runFor (W.step never) fuel (p, (), called₀) = some ((), called)) :
    ∃ xs, called = called₀ ++ xs ∧ ∀ (σ : Type) (fn : α → σ → Bool × σ) (a : σ) (l : List α),
      runFor (W.step fn) fuel (p, a, l) = some ((visit fn xs a).1, l ++ (visit fn xs a).2) := by
  induction fuel generalizing p called₀ with
  | zero => cases h
  | succ fuel ih =>
    cases hlook : W.look p with
    | none =>
      cases hnext : W.next p with
      | none =>
        obtain rfl : called₀ = called := by simpa [runFor, step, hlook, advance, hnext] using h
        exact ⟨[], by simp, fun σ fn a l => by simp [runFor, step, hlook, advance, hnext, visit]⟩
      | some p' =>
        have hrest : runFor (W.step never) fuel (p', (), called₀) = some ((), called) := by
          simpa [runFor, step, hlook, advance, hnext] using h
        obtain ⟨xs, hcalled, hxs⟩ := ih hrest
        refine ⟨xs, hcalled, fun σ fn a l => ?_⟩
        simpa [runFor, step, hlook, advance, hnext] using hxs σ fn a l
    | some x =>
      cases hnext : W.next p with
      | none =>
        obtain rfl : called₀ ++ [x] = called := by
          simpa [runFor, step, hlook, advance, hnext, never] using h
        refine ⟨[x], rfl, fun σ fn a l => ?_⟩
        cases hstop : (fn x a).1 <;>
          simp [runFor, step, hlook, advance, hnext, visit, hstop]
      | some p' =>
        have hrest : runFor (W.step never) fuel (p', (), called₀ ++ [x]) = some ((), called) := by
          simpa [runFor, step, hlook, advance, hnext, never] using h
        obtain ⟨xs, hcalled, hxs⟩ := ih hrest
        refine ⟨x :: xs, by simp [hcalled], fun σ fn a l => ?_⟩
        cases hstop : (fn x a).1 with
        | true => simp [runFor, step, hlook, visit, hstop]
        | false =>
          have hgo := hxs σ fn (fn x a).2 (l ++ [x])
          simpa [runFor, step, hlook, advance, hnext, visit, hstop] using hgo

end Walk

end LowriscLinux.Lib
