import Mathlib.Data.List.Basic

/-!
# Blocks filled from the left

A freshly allocated block whose cells are written one after the other: `filled size cells` is a
block of `size` cells that starts with `cells`, the others never written. Writing the next cell
appends to `cells` (`filled_push`), rewriting an old one changes `cells` alone (`filled_set`).
-/

namespace LowriscLinux.Lib

variable {α : Type} {size : Nat} {cells : List (Option α)}

/-- A block of `size` cells of which the first hold `cells` and the others nothing yet. -/
def filled (size : Nat) (cells : List (Option α)) : List (Option α) :=
  cells ++ List.replicate (size - cells.length) none

theorem filled_length (h : cells.length ≤ size) : (filled size cells).length = size := by
  rw [filled, List.length_append, List.length_replicate]
  omega

/-- A full block. -/
theorem filled_full (h : cells.length = size) : filled size cells = cells := by
  rw [filled, h, Nat.sub_self, List.replicate_zero, List.append_nil]

theorem filled_getElem? {i : Nat} (h : i < cells.length) :
    (filled size cells)[i]? = cells[i]? :=
  List.getElem?_append_left h

theorem filled_push (h : cells.length < size) (b : α) :
    (filled size cells).set cells.length (some b) = filled size (cells ++ [some b]) := by
  obtain ⟨n, hn⟩ : ∃ n, size - cells.length = n + 1 := ⟨size - cells.length - 1, by omega⟩
  have hn' : size - (cells ++ [some b]).length = n := by
    rw [List.length_append, List.length_singleton]
    omega
  rw [filled, filled, hn, hn', List.set_append_right _ _ (Nat.le_refl _), Nat.sub_self,
    List.replicate_succ, List.set_cons_zero, List.append_assoc]
  rfl

theorem filled_set {i : Nat} (h : i < cells.length) (x : Option α) :
    (filled size cells).set i x = filled size (cells.set i x) := by
  rw [filled, filled, List.set_append_left _ _ h, List.length_set]

/-- Cells that are skipped stay as they were. -/
theorem filled_skip {n : Nat} (h : cells.length + n ≤ size) :
    filled size (cells ++ List.replicate n none) = filled size cells := by
  rw [filled, filled, List.append_assoc, List.replicate_append_replicate, List.length_append,
    List.length_replicate]
  congr 2
  omega

end LowriscLinux.Lib
