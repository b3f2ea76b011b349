import Mathlib.Init

/-!
# Computations that leave a trace

A value with the list of the events on the way to it, as a monad. A property of events holds of a
computation when it holds of all of them (`Traced.All`).

Results:
* `Traced.all_bind`: a property holds of a sequence iff it holds of both parts.
-/

namespace LowriscLinux.Lib

structure Traced (ε α : Type) where
  value : α
  trace : List ε

namespace Traced

variable {ε α β : Type}

instance : Monad (Traced ε) where
  pure a := ⟨a, []⟩
  bind x f := ⟨(f x.value).value, x.trace ++ (f x.value).trace⟩

/-- An event, and the value that comes with it. -/
def tell (e : ε) (a : α) : Traced ε α := ⟨a, [e]⟩

/-- All events of a computation have a property. -/
def All (P : ε → Prop) (x : Traced ε α) : Prop := ∀ e ∈ x.trace, P e

instance (P : ε → Prop) [DecidablePred P] (x : Traced ε α) : Decidable (All P x) :=
  inferInstanceAs (Decidable (∀ e ∈ x.trace, P e))

@[simp] theorem pure_value (a : α) : (pure a : Traced ε α).value = a := rfl

@[simp] theorem tell_value (e : ε) (a : α) : (tell e a).value = a := rfl

@[simp] theorem bind_value (x : Traced ε α) (f : α → Traced ε β) :
    (x >>= f).value = (f x.value).value := rfl

variable {P : ε → Prop}

@[simp] theorem all_pure (a : α) : All P (pure a : Traced ε α) ↔ True :=
  iff_true_intro fun _ h => nomatch h

@[simp] theorem all_tell (e : ε) (a : α) : All P (tell e a) ↔ P e := List.forall_mem_singleton

/-- **A property holds of a sequence iff it holds of both parts.** -/
@[simp] theorem all_bind (x : Traced ε α) (f : α → Traced ε β) :
    All P (x >>= f) ↔ All P x ∧ All P (f x.value) := List.forall_mem_append

end Traced

end LowriscLinux.Lib
