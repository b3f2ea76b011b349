/-!
# Computations that may fail

Rules for `Except`: a bind succeeds iff both parts do (`bind_eq_ok`), and associates on the left
(`bind_bind`). `Returns x Q` is the total-correctness triple of a computation: it returns, with a
result that satisfies `Q`; `Returns.bind` chains two of them.
-/

namespace LowriscLinux.Lib

variable {ε α β γ : Type}

theorem bind_eq_ok {x : Except ε α} {f : α → Except ε β} {b : β} :
    x.bind f = .ok b ↔ ∃ a, x = .ok a ∧ f a = .ok b := by
  cases x with
  | error e => simp [Except.bind]
  | ok a => simp [Except.bind]

theorem bind_bind (x : Except ε α) (f : α → Except ε β) (g : β → Except ε γ) :
    (x.bind f).bind g = x.bind fun a => (f a).bind g := by
  cases x <;> rfl

/-- Two binds agree when their continuations agree on what the first part can return. -/
theorem bind_congr_ok {x : Except ε α} {f g : α → Except ε β} (h : ∀ a, x = .ok a → f a = g a) :
    x.bind f = x.bind g := by
  cases x with
  | error e => rfl
  | ok a => exact h a rfl

theorem ok_ne_error {a : α} {e : ε} : (.ok a : Except ε α) ≠ .error e := fun h => by cases h

theorem error_ne_error {e e' : ε} (h : e ≠ e') : (.error e : Except ε α) ≠ .error e' :=
  fun h' => h (Except.error.inj h')

/-- A bind fails with an error only if one of its parts does. -/
theorem bind_ne_error {x : Except ε α} {f : α → Except ε β} {e : ε} (hx : x ≠ .error e)
    (hf : ∀ a, x = .ok a → f a ≠ .error e) : x.bind f ≠ .error e := by
  cases x with
  | error e' => exact fun h => hx (by cases h; rfl)
  | ok a => exact hf a rfl

theorem toOption_eq_some {x : Except ε α} {a : α} : x.toOption = some a ↔ x = .ok a := by
  cases x with
  | error e => exact ⟨fun h => (by cases h), fun h => (by cases h)⟩
  | ok b => exact ⟨fun h => (by cases h; rfl), fun h => (by cases h; rfl)⟩

/-- A closed computation returns when evaluating it says so. -/
theorem exists_ok {x : Except ε α} (h : x.toOption.isSome = true) : ∃ a, x = .ok a := by
  cases x with
  | error e => cases h
  | ok a => exact ⟨a, rfl⟩

/-- The computation returns, with a result that satisfies `Q`. -/
def Returns (x : Except ε α) (Q : α → Prop) : Prop := ∃ a, x = .ok a ∧ Q a

theorem Returns.ok {a : α} {Q : α → Prop} (h : Q a) : Returns (.ok a : Except ε α) Q := ⟨a, rfl, h⟩

theorem Returns.bind {x : Except ε α} {f : α → Except ε β} {P : α → Prop} {Q : β → Prop}
    (hx : Returns x P) (hf : ∀ a, x = .ok a → P a → Returns (f a) Q) : Returns (x.bind f) Q := by
  obtain ⟨a, e, ha⟩ := hx
  obtain ⟨b, e', hb⟩ := hf a e ha
  exact ⟨b, bind_eq_ok.mpr ⟨a, e, e'⟩, hb⟩

theorem Returns.imp {x : Except ε α} {P Q : α → Prop} (hx : Returns x P)
    (h : ∀ a, x = .ok a → P a → Q a) : Returns x Q := by
  obtain ⟨a, e, ha⟩ := hx
  exact ⟨a, e, h a e ha⟩

end LowriscLinux.Lib
