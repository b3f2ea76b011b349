import Mathlib.Data.Fintype.Card
import Mathlib.Data.Fintype.EquivFin
import Mathlib.Logic.Relation

/-!
# Exploring a graph in depth

The nodes that a recursion without a memory of its own goes through: a node and then, one after the
other, what there is to explore from each of its successors. A node that two paths lead to is
explored twice, and a cycle is never left.

Results:
* `mem_explore_iff`: an exploration that ends has gone to the reachable nodes, and to no others.
* `exists_explore`: one in a finite graph without a cycle ends.
-/

namespace LowriscLinux.Lib

variable {α : Type} {succ : α → List α}

/-- The nodes explored from a node, with at most `fuel` nested calls. -/
def explore (succ : α → List α) : Nat → α → Option (List α)
  | 0, _ => none
  | fuel + 1, a => do
    let rest ← (succ a).mapM (explore succ fuel)
    return a :: rest.flatten

/-- The edges of the graph. -/
def Edge (succ : α → List α) (a b : α) : Prop := b ∈ succ a

section MapM

variable {β : Type} {f : α → Option (List β)}

theorem mem_flatten_of_mapM {as : List α} {ls : List (List β)} (h : as.mapM f = some ls) (x : β) :
    x ∈ ls.flatten ↔ ∃ a ∈ as, ∃ l, f a = some l ∧ x ∈ l := by
  induction as generalizing ls with
  | nil =>
    obtain rfl : [] = ls := by simpa using h
    simp
  | cons a as ih =>
    rw [List.mapM_cons] at h
    obtain ⟨l, hl, h⟩ := Option.bind_eq_some_iff.mp h
    obtain ⟨ls', hls', h⟩ := Option.bind_eq_some_iff.mp h
    obtain rfl : l :: ls' = ls := Option.some.inj h
    rw [List.flatten_cons, List.mem_append, ih hls', List.exists_mem_cons_iff]
    exact or_congr ⟨fun hx => ⟨l, hl, hx⟩, fun ⟨l', hl', hx⟩ => by
      obtain rfl := Option.some.inj (hl.symm.trans hl')
      exact hx⟩ Iff.rfl

theorem isSome_of_mapM {as : List α} {ls : List (List β)} (h : as.mapM f = some ls) :
    ∀ a ∈ as, ∃ l, f a = some l := by
  induction as generalizing ls with
  | nil =>
    intro a ha
    cases ha
  | cons b as ih =>
    rw [List.mapM_cons] at h
    obtain ⟨l, hl, h⟩ := Option.bind_eq_some_iff.mp h
    obtain ⟨ls', hls', -⟩ := Option.bind_eq_some_iff.mp h
    intro a ha
    rcases List.mem_cons.mp ha with rfl | ha
    · exact ⟨l, hl⟩
    · exact ih hls' a ha

theorem mapM_isSome {as : List α} (h : ∀ a ∈ as, ∃ l, f a = some l) :
    ∃ ls, as.mapM f = some ls := by
  induction as with
  | nil => exact ⟨[], rfl⟩
  | cons a as ih =>
    obtain ⟨l, hl⟩ := h a List.mem_cons_self
    obtain ⟨ls, hls⟩ := ih fun b hb => h b (List.mem_cons_of_mem a hb)
    exact ⟨l :: ls, by rw [List.mapM_cons, hl, hls]; rfl⟩

theorem mapM_mono {g : α → Option (List β)} {as : List α} {ls : List (List β)}
    (hfg : ∀ a l, f a = some l → g a = some l) (h : as.mapM f = some ls) :
    as.mapM g = some ls := by
  induction as generalizing ls with
  | nil => exact h
  | cons a as ih =>
    rw [List.mapM_cons] at h
    obtain ⟨l, hl, h⟩ := Option.bind_eq_some_iff.mp h
    obtain ⟨ls', hls', h⟩ := Option.bind_eq_some_iff.mp h
    obtain rfl : l :: ls' = ls := Option.some.inj h
    rw [List.mapM_cons, hfg a l hl, ih hls']
    rfl

/-- A loop that goes on with every child that there is, and collects what is found. -/
theorem foldlM_children {γ ι : Type} {visit : α → List γ → Option (List γ)} {node : β → γ}
    (hvisit : ∀ a found, visit a found = (f a).map fun l => found ++ l.map node)
    (child : ι → Option α) (is : List ι) (found : List γ) :
    is.foldlM (fun found i => (child i).elim (some found) fun a => visit a found) found =
      ((is.filterMap child).mapM f).map fun ls => found ++ ls.flatten.map node := by
  induction is generalizing found with
  | nil => simp
  | cons i is ih =>
    rw [List.foldlM_cons, List.filterMap_cons]
    cases hchild : child i with
    | none => exact ih found
    | some a =>
      have hfirst := hvisit a found
      simp only [List.mapM_cons, Option.elim_some]
      cases hf : f a with
      | none =>
        rw [hfirst, hf]
        rfl
      | some l =>
        rw [hfirst, hf]
        refine (ih (found ++ l.map node)).trans ?_
        cases (is.filterMap child).mapM f with
        | none => rfl
        | some ls =>
          refine congrArg some ?_
          show _ ++ _ ++ _ = found ++ (l :: ls).flatten.map node
          rw [List.flatten_cons, List.map_append, List.append_assoc]

end MapM

theorem explore_succ_iff {fuel : Nat} {a : α} {l : List α} :
    explore succ (fuel + 1) a = some l ↔
      ∃ ls, (succ a).mapM (explore succ fuel) = some ls ∧ a :: ls.flatten = l := by
  rw [explore, Option.bind_eq_bind, Option.bind_eq_some_iff]
  simp

/-- More calls allowed change nothing. -/
theorem explore_mono {fuel fuel' : Nat} (hle : fuel ≤ fuel') {a : α} {l : List α}
    (h : explore succ fuel a = some l) : explore succ fuel' a = some l := by
  induction fuel generalizing fuel' a l with
  | zero => cases h
  | succ fuel ih =>
    obtain ⟨fuel', rfl⟩ : ∃ n, fuel' = n + 1 := ⟨fuel' - 1, by omega⟩
    obtain ⟨ls, hls, hl⟩ := explore_succ_iff.mp h
    exact explore_succ_iff.mpr ⟨ls, mapM_mono (fun _ _ hb => ih (by omega) hb) hls, hl⟩

/-- **An exploration that ends has gone to the reachable nodes**, and to no others. -/
theorem mem_explore_iff {fuel : Nat} {a : α} {l : List α} (h : explore succ fuel a = some l)
    (x : α) : x ∈ l ↔ Relation.ReflTransGen (Edge succ) a x := by
  induction fuel generalizing a l x with
  | zero => cases h
  | succ fuel ih =>
    obtain ⟨ls, hls, rfl⟩ := explore_succ_iff.mp h
    rw [List.mem_cons, mem_flatten_of_mapM hls, Relation.ReflTransGen.cases_head_iff]
    refine or_congr eq_comm (exists_congr fun b => and_congr_right fun hb => ?_)
    constructor
    · rintro ⟨l, hl, hx⟩
      exact (ih hl x).mp hx
    · intro hx
      obtain ⟨l, hl⟩ := isSome_of_mapM hls b hb
      exact ⟨l, hl, (ih hl x).mpr hx⟩

/-- One from a node that only leads to finitely long paths ends. -/
theorem exists_explore_of_acc {a : α} (h : Acc (fun b a => Edge succ a b) a) :
    ∃ fuel l, explore succ fuel a = some l := by
  induction h with
  | intro a _ ih =>
    -- as many nested calls as the successor that takes the most
    obtain ⟨fuel, hfuel⟩ : ∃ fuel, ∀ b ∈ succ a, ∃ l, explore succ fuel b = some l := by
      have hall : ∀ bs : List α, (∀ b ∈ bs, Edge succ a b) →
          ∃ fuel, ∀ b ∈ bs, ∃ l, explore succ fuel b = some l := by
        intro bs hbs
        induction bs with
        | nil => exact ⟨0, fun b hb => by cases hb⟩
        | cons b bs ihbs =>
          obtain ⟨fuel, l, hl⟩ := ih b (hbs b List.mem_cons_self)
          obtain ⟨fuel', hrest⟩ := ihbs fun c hc => hbs c (List.mem_cons_of_mem b hc)
          refine ⟨max fuel fuel', fun c hc => ?_⟩
          rcases List.mem_cons.mp hc with rfl | hc
          · exact ⟨l, explore_mono (Nat.le_max_left _ _) hl⟩
          · obtain ⟨l', hl'⟩ := hrest c hc
            exact ⟨l', explore_mono (Nat.le_max_right _ _) hl'⟩
      exact hall (succ a) fun b hb => hb
    obtain ⟨ls, hls⟩ := mapM_isSome hfuel
    exact ⟨fuel + 1, _, explore_succ_iff.mpr ⟨ls, hls, rfl⟩⟩

/-- A finite graph has no infinite path from a node that leads into no cycle. -/
theorem acc_of_acyclic [Finite α] {a : α}
    (h : ∀ b, Relation.ReflTransGen (Edge succ) a b → ¬ Relation.TransGen (Edge succ) b b) :
    Acc (fun b a => Edge succ a b) a := by
  let Reached := { b : α // Relation.ReflTransGen (Edge succ) a b }
  let below (c b : Reached) : Prop := Relation.TransGen (Edge succ) b.1 c.1
  have : IsTrans Reached below := ⟨fun _ _ _ hcb hba => hba.trans hcb⟩
  have : Std.Irrefl below := ⟨fun b => h b.1 b.2⟩
  have : Finite Reached := Subtype.finite
  have hwf : WellFounded below := Finite.wellFounded_of_trans_of_irrefl below
  have hacc : ∀ b : Reached, Acc (fun b a => Edge succ a b) b.1 := fun b => by
    induction b using hwf.induction with
    | h b ih => exact ⟨_, fun c hc => ih ⟨c, b.2.tail hc⟩ (.single hc)⟩
  exact hacc ⟨a, .refl⟩

/-- **An exploration of a finite graph without a cycle ends.** -/
theorem exists_explore [Finite α] (succ : α → List α) {a : α}
    (h : ∀ b, Relation.ReflTransGen (Edge succ) a b → ¬ Relation.TransGen (Edge succ) b b) :
    ∃ fuel l, explore succ fuel a = some l :=
  exists_explore_of_acc (acc_of_acyclic h)

end LowriscLinux.Lib
