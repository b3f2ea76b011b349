import LowriscLinux.Lib.Halting

/-!
# Critical sections

Programs on shared data that a lock keeps apart: a section is entered, takes its instructions one at
a time, and leaves with a result. `Serial` says what the data is after sections that run one after
the other, and `Guarded` what it is with one of them still under way.

Results:
* `Guarded.enter`, `Guarded.run`, `Guarded.leave`: what a section that runs alone does with the
  data.
* `serial_append`: a sequence of sections in two parts.
-/

namespace LowriscLinux.Lib

variable {M T O R C : Type}

/-- Sections `O` on data `M`, with registers `T`. -/
structure Sections (M T O R : Type) where
  enter : O → T
  exec : M → T → M × T
  /-- The result, at the end of a section. -/
  leave : T → Option R

/-- A section as a program. -/
def Sections.step (p : Sections M T O R) (s : M × T) : (M × T) ⊕ (M × R) :=
  match p.leave s.2 with
  | some r => .inr (s.1, r)
  | none => .inl (p.exec s.1 s.2)

variable (p : Sections M T O R)

/-- The sections, one after the other from some data, have these results and lead to this data. -/
def Serial : M → List (C × O × R) → M → Prop
  | m, [], m' => m = m'
  | m, (_, o, r) :: es, m' => ∃ u, Ends p.step (m, p.enter o) (u, r) ∧ Serial u es m'

/-- The data after sections that have left and, at most, one that has not. -/
def Guarded (m : M) (es : List (C × O × R)) (m' : M) (current : Option (O × T)) : Prop :=
  ∃ u, Serial p m es u ∧ current.elim (u = m') fun b => Visits p.step (u, p.enter b.1) (m', b.2)

section Rules

variable {p} {m m' : M} {es es' : List (C × O × R)} {o : O} {t : T} {r : R}

theorem serial_append :
    Serial p m (es ++ es') m' ↔ ∃ u, Serial p m es u ∧ Serial p u es' m' := by
  induction es generalizing m with
  | nil => simp [Serial]
  | cons e es ih =>
    simp only [List.cons_append, Serial, ih]
    constructor
    · rintro ⟨u, hu, v, hv, h⟩
      exact ⟨v, ⟨u, hu, hv⟩, h⟩
    · rintro ⟨v, ⟨u, hu, hv⟩, h⟩
      exact ⟨u, hu, v, hv, h⟩

theorem Guarded.start (m : M) : Guarded p m ([] : List (C × O × R)) m none := ⟨m, rfl, rfl⟩

theorem guarded_none : Guarded p m es m' none ↔ Serial p m es m' :=
  ⟨fun ⟨_, h, he⟩ => he ▸ h, fun h => ⟨m', h, rfl⟩⟩

theorem Guarded.enter (h : Guarded p m es m' none) (o : O) :
    Guarded p m es m' (some (o, p.enter o)) :=
  ⟨m', guarded_none.mp h, .refl _⟩

/-- One more instruction. -/
theorem Visits.snoc {σ ε : Type} {step : σ → σ ⊕ ε} {s s' s'' : σ} (h : Visits step s s')
    (hs : step s' = .inl s'') : Visits step s s'' := by
  induction h with
  | refl => exact .next hs (.refl _)
  | next hnext _ ih => exact .next hnext (ih hs)

theorem Visits.ends {σ ε : Type} {step : σ → σ ⊕ ε} {s s' : σ} {e : ε} (h : Visits step s s')
    (he : Ends step s' e) : Ends step s e := by
  induction h with
  | refl => exact he
  | next hnext _ ih => exact (ends_next_iff hnext).mpr (ih he)

theorem Guarded.run (h : Guarded p m es m' (some (o, t))) (ht : p.leave t = none) :
    Guarded p m es (p.exec m' t).1 (some (o, (p.exec m' t).2)) := by
  obtain ⟨u, hu, hv⟩ := h
  refine ⟨u, hu, Visits.snoc hv ?_⟩
  simp [Sections.step, ht]

theorem Guarded.leave (h : Guarded p m es m' (some (o, t))) (ht : p.leave t = some r) (c : C) :
    Guarded p m (es ++ [(c, o, r)]) m' none := by
  obtain ⟨u, hu, hv⟩ := h
  refine guarded_none.mpr (serial_append.mpr ⟨u, hu, m', ?_, rfl⟩)
  exact Visits.ends hv (.last (by simp [Sections.step, ht]))

end Rules

end LowriscLinux.Lib
