import LowriscLinux.Lib.Transition

/-!
# Linearizable objects

A shared content that any number of contexts change by routines, one instruction at a time
(`Routines`). An instruction of one context may store, which disturbs what all others have under way
(a reservation is lost). What the machine leaves open in a call or an instruction is a parameter of
it.

A routine takes effect at one of its instructions, and all at once (`Points`): it then does what
`apply` does to the content, with the result that it is to have. `lin` is bookkeeping: the calls in
the order in which they take effect, with their results.

Results:
* **`linearizable`**: along every run the calls do what `apply` does, one after the other, and each
  context gets its results from there.
* `lin_mono`: a call that is back precedes those that are made later.
-/

namespace LowriscLinux.Lib.Linear

variable {σ L O R K C : Type}

/-- Routines on a content `σ`, with registers `L`. -/
structure Routines (σ L O R K : Type) where
  start : O → K → L
  /-- The next instruction, and whether it stores. -/
  exec : O → σ → L → K → Option (σ × L × Bool)
  /-- Another context stores. -/
  disturb : L → L
  /-- The result, at the end of the routine. -/
  back : O → L → Option R

/-- The content, and for every context the call that it is in. `lin` lists the calls that have taken
effect, in order, and `done` those that each context is back from. -/
structure State (σ L O R C : Type) where
  content : σ
  busy : C → Option (O × L)
  lin : List (C × O × R)
  done : C → List (O × R)

inductive Act (O K C : Type)
  | call (c : C) (o : O) (k : K)
  | instr (c : C) (k : K)
  | ret (c : C)
  deriving DecidableEq, Repr

/-- Before any call. -/
def idle (content : σ) : State σ L O R C where
  content := content
  busy _ := none
  lin := []
  done _ := []

/-- When a call has taken effect, and what holds of it at each instruction. -/
structure Points (P : Routines σ L O R K) (apply : O → σ → σ × R) where
  /-- The result of a call that has taken effect. -/
  effect : O → L → Option R
  At : O → σ → L → Prop
  at_start : ∀ o s k, At o s (P.start o k)
  effect_start : ∀ o k, effect o (P.start o k) = none
  at_disturb : ∀ o s s' l, At o s l → At o s' (P.disturb l)
  effect_disturb : ∀ o l, effect o (P.disturb l) = effect o l
  at_exec : ∀ {o s l k s' l' stored}, At o s l → P.exec o s l k = some (s', l', stored) → At o s' l'
  /-- An instruction has no effect, or the whole effect of its call. -/
  effect_exec : ∀ {o s l k s' l' stored}, At o s l → P.exec o s l k = some (s', l', stored) →
    (effect o l' = effect o l ∧ s' = s) ∨
      (effect o l = none ∧ ∃ r, effect o l' = some r ∧ apply o s = (s', r))
  content_exec : ∀ {o s l k s' l'}, P.exec o s l k = some (s', l', false) → s' = s
  effect_back : ∀ {o s l r}, At o s l → P.back o l = some r → effect o l = some r

/-! ## Runs -/

section System

variable [DecidableEq C] (P : Routines σ L O R K) (effect : O → L → Option R)

/-- The calls that an instruction adds to those that have taken effect. -/
def taking (c : C) (o : O) (l l' : L) : List (C × O × R) :=
  if (effect o l).isNone then (effect o l').toList.map fun r => (c, o, r) else []

/-- A store of another context. -/
def disturbed (b : O × L) : O × L := (b.1, P.disturb b.2)

def State.step (s : State σ L O R C) : Act O K C → Option (State σ L O R C)
  | .call c o k =>
    if (s.busy c).isNone then
      some { s with busy := Function.update s.busy c (some (o, P.start o k)) }
    else none
  | .instr c k => do
    let b ← s.busy c
    let e ← P.exec b.1 s.content b.2 k
    some { s with
      content := e.1
      busy := Function.update
        (if e.2.2 then fun c' => (s.busy c').map (disturbed P) else s.busy) c (some (b.1, e.2.1))
      lin := s.lin ++ taking effect c b.1 b.2 e.2.1 }
  | .ret c => do
    let b ← s.busy c
    let r ← P.back b.1 b.2
    some { s with
      busy := Function.update s.busy c none
      done := Function.update s.done c (s.done c ++ [(b.1, r)]) }

/-- One step of a run. -/
def Step (s : State σ L O R C) (a : Act O K C) (s' : State σ L O R C) : Prop :=
  s.step P effect a = some s'

end System

/-! ## Histories -/

/-- The calls, one after the other from a content, have these results and lead to this content. -/
def Legal (apply : O → σ → σ × R) : σ → List (C × O × R) → σ → Prop
  | s, [], s' => s = s'
  | s, (_, o, r) :: es, s' => (apply o s).2 = r ∧ Legal apply (apply o s).1 es s'

section History

variable [DecidableEq C] {apply : O → σ → σ × R} {s s' : σ} {es es' : List (C × O × R)} {c : C}
  {o : O} {r : R}

/-- The calls of a context in a history, with their results. -/
def ofContext (c : C) (es : List (C × O × R)) : List (O × R) :=
  (es.filter fun e => e.1 = c).map Prod.snd

omit [DecidableEq C] in
theorem legal_append :
    Legal apply s (es ++ es') s' ↔ ∃ u, Legal apply s es u ∧ Legal apply u es' s' := by
  induction es generalizing s with
  | nil => simp [Legal]
  | cons e es ih => simp only [List.cons_append, Legal, ih, ← exists_and_left, and_assoc]

omit [DecidableEq C] in
theorem legal_single : Legal apply s [(c, o, r)] s' ↔ apply o s = (s', r) := by
  rw [Legal, Legal, Prod.ext_iff, and_comm]

theorem ofContext_append (c : C) (es es' : List (C × O × R)) :
    ofContext c (es ++ es') = ofContext c es ++ ofContext c es' := by
  simp [ofContext]

theorem ofContext_taking (effect : O → L → Option R) (c c' : C) (o : O) (l l' : L) :
    ofContext c' (taking effect c o l l') =
      if c = c' ∧ effect o l = none then (effect o l').toList.map fun r => (o, r) else [] := by
  unfold taking ofContext
  cases hl : effect o l with
  | some r => simp
  | none =>
    cases effect o l' with
    | none => simp
    | some r => by_cases hc : c = c' <;> simp [hc]

end History

/-- The call that a context is in and that has taken effect. -/
def pending (effect : O → L → Option R) (s : State σ L O R C) (c : C) : List (O × R) :=
  (s.busy c).elim [] fun b => (effect b.1 b.2).toList.map fun r => (b.1, r)

/-- The calls that have taken effect are a sequential history, in which each context has those that
it is back from, with their results, and then at most the one that it is in. -/
structure Linearized [DecidableEq C] (effect : O → L → Option R) (apply : O → σ → σ × R)
    (content : σ) (s : State σ L O R C) : Prop where
  legal : Legal apply content s.lin s.content
  done : ∀ c, ofContext c s.lin = s.done c ++ pending effect s c

/-! ## The invariant -/

section Run

variable [DecidableEq C] {P : Routines σ L O R K} {apply : O → σ → σ × R} {Q : Points P apply}
  {content : σ} {s s' : State σ L O R C} {a : Act O K C}

/-- The invariant. -/
structure Inv (Q : Points P apply) (content : σ) (s : State σ L O R C) : Prop
    extends Linearized Q.effect apply content s where
  busy : ∀ c b, s.busy c = some b → Q.At b.1 s.content b.2

theorem Inv.idle (content : σ) : Inv Q content (idle content : State σ L O R C) :=
  ⟨⟨rfl, fun _ => rfl⟩, fun _ _ h => by cases h⟩

theorem Inv.call (h : Inv Q content s) {c : C} (hc : s.busy c = none) (o : O) (k : K) :
    Inv Q content { s with busy := Function.update s.busy c (some (o, P.start o k)) } := by
  refine ⟨⟨h.legal, fun c' => ?_⟩, fun c' b hb => ?_⟩
  · rw [h.done c']
    by_cases hcc : c' = c
    · subst hcc
      simp [pending, hc, Q.effect_start]
    · simp [pending, Function.update_of_ne hcc]
  · by_cases hcc : c' = c
    · subst hcc
      simp only [Function.update_self, Option.some.injEq] at hb
      subst hb
      exact Q.at_start o s.content k
    · simp only [Function.update_of_ne hcc] at hb
      exact h.busy c' b hb

theorem Inv.ret (h : Inv Q content s) {c : C} {b : O × L} {r : R} (hc : s.busy c = some b)
    (hr : P.back b.1 b.2 = some r) :
    Inv Q content { s with
      busy := Function.update s.busy c none
      done := Function.update s.done c (s.done c ++ [(b.1, r)]) } := by
  refine ⟨⟨h.legal, fun c' => ?_⟩, fun c' b' hb => ?_⟩
  · rw [h.done c']
    by_cases hcc : c' = c
    · subst hcc
      simp [pending, hc, Q.effect_back (h.busy c' b hc) hr]
    · simp [pending, Function.update_of_ne hcc]
  · by_cases hcc : c' = c
    · subst hcc
      simp only [Function.update_self] at hb
      cases hb
    · simp only [Function.update_of_ne hcc] at hb
      exact h.busy c' b' hb

/-- The calls that an instruction adds, and what they leave pending. -/
theorem taking_cases {c : C} {o : O} {l l' : L} {u u' : σ}
    (h : (Q.effect o l' = Q.effect o l ∧ u' = u) ∨
      (Q.effect o l = none ∧ ∃ r, Q.effect o l' = some r ∧ apply o u = (u', r))) :
    Legal apply u (taking Q.effect c o l l') u' ∧
      (Q.effect o l).toList.map (fun r => (o, r)) ++ ofContext c (taking Q.effect c o l l') =
        (Q.effect o l').toList.map (fun r => (o, r)) := by
  rw [ofContext_taking]
  rcases h with ⟨heff, rfl⟩ | ⟨hnone, r, hsome, happly⟩
  · rw [heff]
    cases hl : Q.effect o l with
    | none => simp [taking, heff, hl, Legal]
    | some r => simp [taking, hl, Legal]
  · rw [taking, hnone, hsome]
    exact ⟨legal_single.mpr happly, by simp⟩

theorem Inv.instr (h : Inv Q content s) {c : C} {b : O × L} {k : K} {u : σ} {l : L} {stored : Bool}
    (hc : s.busy c = some b) (hs : P.exec b.1 s.content b.2 k = some (u, l, stored)) :
    Inv Q content { s with
      content := u
      busy := Function.update
        (if stored then fun c' => (s.busy c').map (disturbed P) else s.busy) c (some (b.1, l))
      lin := s.lin ++ taking Q.effect c b.1 b.2 l } := by
  have hat := h.busy c b hc
  obtain ⟨hlegal, hpending⟩ := taking_cases (c := c) (Q.effect_exec hat hs)
  refine ⟨⟨legal_append.mpr ⟨s.content, h.legal, hlegal⟩, fun c' => ?_⟩, fun c' b' hb => ?_⟩
  · rw [ofContext_append, h.done c']
    by_cases hcc : c' = c
    · subst hcc
      simp [pending, hc, List.append_assoc, hpending]
    · have hkeep : ofContext c' (taking Q.effect c b.1 b.2 l) = [] := by
        rw [ofContext_taking, if_neg fun hand => hcc hand.1.symm]
      rw [hkeep, List.append_nil]
      unfold pending
      dsimp only
      rw [Function.update_of_ne hcc]
      cases stored with
      | false => rfl
      | true => cases hb : s.busy c' <;> simp [disturbed, hb, Q.effect_disturb]
  · by_cases hcc : c' = c
    · subst hcc
      simp only [Function.update_self, Option.some.injEq] at hb
      subst hb
      exact Q.at_exec hat hs
    · simp only [Function.update_of_ne hcc] at hb
      cases stored with
      | false =>
        obtain rfl := Q.content_exec hs
        exact h.busy c' b' hb
      | true =>
        obtain ⟨b₁, hb₁, rfl⟩ := Option.map_eq_some_iff.mp hb
        exact Q.at_disturb _ _ _ _ (h.busy c' b₁ hb₁)

/-- **What one step does.** -/
theorem step_cases {effect : O → L → Option R} (h : Step P effect s a s') :
    (∃ c o k, a = .call c o k ∧ s.busy c = none ∧
      s' = { s with busy := Function.update s.busy c (some (o, P.start o k)) }) ∨
    (∃ c b k u l stored, s.busy c = some b ∧ P.exec b.1 s.content b.2 k = some (u, l, stored) ∧
      s' = { s with
        content := u
        busy := Function.update
          (if stored then fun c' => (s.busy c').map (disturbed P) else s.busy) c (some (b.1, l))
        lin := s.lin ++ taking effect c b.1 b.2 l }) ∨
    (∃ c b r, s.busy c = some b ∧ P.back b.1 b.2 = some r ∧
      s' = { s with
        busy := Function.update s.busy c none
        done := Function.update s.done c (s.done c ++ [(b.1, r)]) }) := by
  unfold Step State.step at h
  cases a with
  | call c o k =>
    left
    dsimp only at h
    split_ifs at h with hc
    exact ⟨c, o, k, rfl, Option.isNone_iff_eq_none.mp hc, (Option.some.inj h).symm⟩
  | instr c k =>
    right; left
    obtain ⟨b, hb, h⟩ := Option.bind_eq_some_iff.mp h
    obtain ⟨⟨u, l, stored⟩, he, h⟩ := Option.bind_eq_some_iff.mp h
    exact ⟨c, b, k, u, l, stored, hb, he, (Option.some.inj h).symm⟩
  | ret c =>
    right; right
    obtain ⟨b, hb, h⟩ := Option.bind_eq_some_iff.mp h
    obtain ⟨r, hr, h⟩ := Option.bind_eq_some_iff.mp h
    exact ⟨c, b, r, hb, hr, (Option.some.inj h).symm⟩

/-- **Every step keeps the invariant.** -/
theorem Inv.step (h : Inv Q content s) (hstep : Step P Q.effect s a s') : Inv Q content s' := by
  rcases step_cases hstep with ⟨c, o, k, -, hc, rfl⟩ | ⟨c, b, k, u, l, stored, hc, he, rfl⟩ |
    ⟨c, b, r, hc, hr, rfl⟩
  · exact h.call hc o k
  · exact h.instr hc he
  · exact h.ret hc hr

/-- **Along every run the calls do what `apply` does, one after the other**, and each context gets
its results from there. -/
theorem linearizable (Q : Points P apply) {run : List (Act O K C × State σ L O R C)} {content : σ}
    (hrun : IsRun (Step P Q.effect) (Linear.idle content) run) :
    Always (Linearized Q.effect apply content) (Linear.idle content) run :=
  (hrun.invariant (fun _ _ _ h hs => Inv.step h hs) (Inv.idle (Q := Q) content)).imp
    fun _ h => h.toLinearized

/-- An act that is no call, or one of a kind. -/
def Act.Asks (p : O → Prop) : Act O K C → Prop
  | .call _ o _ => p o
  | _ => True

instance {p : O → Prop} [DecidablePred p] : ∀ a : Act O K C, Decidable (a.Asks p)
  | .call _ o _ => inferInstanceAs (Decidable (p o))
  | .instr _ _ => .isTrue trivial
  | .ret _ => .isTrue trivial

/-- The calls that are under way or have taken effect are of a kind. -/
structure Asked (p : O → Prop) (s : State σ L O R C) : Prop where
  busy : ∀ c b, s.busy c = some b → p b.1
  lin : ∀ e ∈ s.lin, p e.2.1

theorem Asked.step {p : O → Prop} {effect : O → L → Option R} (h : Asked p s) (ha : a.Asks p)
    (hs : Step P effect s a s') : Asked p s' := by
  rcases step_cases hs with ⟨c, o, k, rfl, -, rfl⟩ | ⟨c, b, k, u, l, stored, hc, -, rfl⟩ |
    ⟨c, b, r, -, -, rfl⟩
  · refine ⟨fun c' b hb => ?_, h.lin⟩
    by_cases hcc : c' = c
    · subst hcc
      simp only [Function.update_self, Option.some.injEq] at hb
      exact hb ▸ ha
    · simp only [Function.update_of_ne hcc] at hb
      exact h.busy c' b hb
  · refine ⟨fun c' b' hb => ?_, fun e he => ?_⟩
    · by_cases hcc : c' = c
      · subst hcc
        simp only [Function.update_self, Option.some.injEq] at hb
        exact hb ▸ h.busy c' b hc
      · simp only [Function.update_of_ne hcc] at hb
        cases stored with
        | false => exact h.busy c' b' hb
        | true =>
          obtain ⟨b₁, hb₁, rfl⟩ := Option.map_eq_some_iff.mp hb
          exact h.busy c' b₁ hb₁
    · rcases List.mem_append.mp he with he | he
      · exact h.lin e he
      · unfold taking at he
        split_ifs at he with hnone
        · obtain ⟨r, -, rfl⟩ := List.mem_map.mp he
          exact h.busy c b hc
        · cases he
  · refine ⟨fun c' b' hb => ?_, h.lin⟩
    by_cases hcc : c' = c
    · subst hcc
      simp only [Function.update_self] at hb
      cases hb
    · simp only [Function.update_of_ne hcc] at hb
      exact h.busy c' b' hb

/-- Only calls that are made take effect. -/
theorem asks_lin {p : O → Prop} {effect : O → L → Option R}
    {run : List (Act O K C × State σ L O R C)} {content : σ}
    (hrun : IsRun (Step P effect) (Linear.idle content) run)
    (hasks : Meets (fun _ a => a.Asks p) (Linear.idle content) run) :
    ∀ e ∈ (lastState (Linear.idle content) run).lin, p e.2.1 := by
  have hstart : Asked p (Linear.idle content : State σ L O R C) :=
    ⟨fun _ _ h => (by cases h), fun _ h => (by cases h)⟩
  exact (hrun.meets_invariant (fun _ _ _ h ha hs => Asked.step h ha hs) hasks hstart).last.lin

theorem lin_step {effect : O → L → Option R} (h : Step P effect s a s') : s.lin <+: s'.lin := by
  rcases step_cases h with ⟨c, o, k, -, -, rfl⟩ | ⟨c, b, k, u, l, stored, -, -, rfl⟩ |
    ⟨c, b, r, -, -, rfl⟩
  · exact List.prefix_refl _
  · exact List.prefix_append _ _
  · exact List.prefix_refl _

/-- What has taken effect stays so: a call that is back precedes those that are made later. -/
theorem lin_mono {effect : O → L → Option R} {run : List (Act O K C × State σ L O R C)}
    (hrun : IsRun (Step P effect) s run) : s.lin <+: (lastState s run).lin := by
  have hstep : ∀ s₁ a s₂, s.lin <+: s₁.lin → Step P effect s₁ a s₂ → s.lin <+: s₂.lin :=
    fun _ _ _ h hs => h.trans (lin_step hs)
  exact (hrun.invariant hstep (List.prefix_refl _)).last

end Run

end LowriscLinux.Lib.Linear
