import Mathlib.Data.List.DropRight

/-!
# Scanners

A scanner drops from the front of a text as much as the text dropped tells it to: what it does on
`s ++ rest` it does on `s` alone, unless it reaches the end of `s` (`Scanner`). Scanners compose,
and cutting off the end of a text leaves a scanner alone that stops before the cut.

Results:
* `Scanner.comp`: scanners compose.
* `Scanner.uncut`: a scanner that does not eat into `rest` works on the text without it.
* `Scanner.extend`: a scanner that stops inside a text stops there when more follows.
-/

namespace LowriscLinux.Lib

variable {α : Type} {f g : List α → List α}

/-- `f` drops from the front, and looks at `rest` only after all of `s`. -/
structure Scanner (f : List α → List α) : Prop where
  suffix (s : List α) : f s <:+ s
  split (s rest : List α) : f (s ++ rest) = f s ++ rest ∨ f s = [] ∧ f (s ++ rest) <:+ rest

/-- Something is left of a text, or nothing follows it. -/
def Past (rest s : List α) : Prop := rest = [] ∨ s ≠ []

theorem Past.of_suffix {rest s t : List α} (h : Past rest s) (hs : s <:+ t) : Past rest t :=
  h.imp_right fun hne ht => hne (List.suffix_nil.mp (ht ▸ hs))

theorem Scanner.nil (hf : Scanner f) : f [] = [] := List.suffix_nil.mp (hf.suffix [])

theorem Scanner.comp (hf : Scanner f) (hg : Scanner g) : Scanner (f ∘ g) where
  suffix s := (hf.suffix _).trans (hg.suffix s)
  split s rest := by
    rcases hg.split s rest with h | ⟨hnil, h⟩
    · simp only [Function.comp, h]
      exact hf.split (g s) rest
    · refine Or.inr ⟨?_, (hf.suffix _).trans h⟩
      simp only [Function.comp, hnil]
      exact hf.nil

theorem Scanner.tail : Scanner (List.tail : List α → List α) where
  suffix := List.tail_suffix
  split s rest := by
    cases s with
    | nil => exact Or.inr ⟨rfl, List.tail_suffix rest⟩
    | cons a s => exact Or.inl rfl

theorem Scanner.dropWhile (p : α → Bool) : Scanner (List.dropWhile p) where
  suffix _ := List.dropWhile_suffix p
  split s rest := by
    rw [List.dropWhile_append]
    split
    · rename_i h
      exact Or.inr ⟨List.isEmpty_iff.mp h, List.dropWhile_suffix p⟩
    · exact Or.inl rfl

/-- Dropping one more byte where a condition on the first one holds. -/
theorem Scanner.tailIf (p : List α → Prop) [DecidablePred p]
    (hp : ∀ a s rest, p (a :: s ++ rest) ↔ p (a :: s)) :
    Scanner fun s => if p s then s.tail else s where
  suffix s := by
    split
    · exact List.tail_suffix s
    · exact List.suffix_refl s
  split s rest := by
    cases s with
    | nil =>
      refine Or.inr ⟨ite_self _, ?_⟩
      simp only [List.nil_append]
      split
      · exact List.tail_suffix rest
      · exact List.suffix_refl rest
    | cons a s =>
      left
      simp only [hp]
      split <;> rfl

/-- **A scanner that leaves `rest` alone** does the same without it. -/
theorem Scanner.uncut (hf : Scanner f) {s rest : List α} (h : rest.length ≤ (f (s ++ rest)).length) :
    f (s ++ rest) = f s ++ rest := by
  rcases hf.split s rest with h' | ⟨hnil, hsuf⟩
  · exact h'
  · rw [hnil, List.nil_append]
    exact hsuf.eq_of_length_le h

/-- **A scanner that stops inside a text** stops there when more follows. -/
theorem Scanner.extend (hf : Scanner f) {s rest : List α} (h : Past rest (f s)) :
    f (s ++ rest) = f s ++ rest := by
  rcases h with rfl | h
  · rw [List.append_nil, List.append_nil]
  · exact (hf.split s rest).resolve_right fun h' => h h'.1

end LowriscLinux.Lib
