import LowriscLinux.Lib.Traced

/-!
# Computations that read memory and may fail

A computation that reads cells of a memory, leaves the address of every cell it reads in its trace
and ends with a value or an error. What it read before an error stays in the trace.

`Refines good excuse R m x` compares such a computation with one that reads nothing: `m` reads only
`good` addresses and ends as `x` does, with the same error or with a value that `R` relates to the
one of `x`. An error that is excused needs no counterpart. The comparison with `.ok ()` is a
statement about `m` alone (`Yields`).

Results:
* `Refines.bind`: sequences refine sequences; `Refines.bind_ok`: what comes before may refine a
  value.
* `Refines.read_bind`: a read goes on with the contents of the cell.
* `Refines.of_ok`, `Refines.of_error`: what is known from the end of a computation.
-/

namespace LowriscLinux.Lib

variable {ρ ε α β γ δ : Type}

/-- Computations that read at addresses `ρ` and may fail with `ε`. -/
abbrev Reading (ρ ε : Type) : Type → Type := ExceptT ε (Traced ρ)

namespace Reading

/-- The addresses read, first to last. -/
def reads (m : Reading ρ ε α) : List ρ := m.run.trace

/-- How the computation ends. -/
def result (m : Reading ρ ε α) : Except ε α := m.run.value

/-- Read one cell. -/
def read (mem : ρ → δ) (p : ρ) : Reading ρ ε δ := ExceptT.lift (Traced.tell p (mem p))

/-- A computation that reads nothing. -/
def lift (x : Except ε α) : Reading ρ ε α := ExceptT.mk (pure x)

/-- Read `n` cells in a row. -/
def readRange (mem : Nat → δ) : Nat → Nat → Reading Nat ε (List δ)
  | _, 0 => pure []
  | p, n + 1 => do
    let b ← read mem p
    let bs ← readRange mem (p + 1) n
    pure (b :: bs)

theorem pure_bind (a : α) (f : α → Reading ρ ε β) : (pure a >>= f : Reading ρ ε β) = f a := rfl

end Reading

/-- Two ends of a computation match: the first is an excused error, both are the same error, or
both are values and `R` relates them. -/
inductive Matches (excuse : ε → Prop) (R : α → β → Prop) : Except ε α → Except ε β → Prop
  | value {a : α} {b : β} (h : R a b) : Matches excuse R (.ok a) (.ok b)
  | error (e : ε) : Matches excuse R (.error e) (.error e)
  | excused {e : ε} {x : Except ε β} (h : excuse e) : Matches excuse R (.error e) x

/-- `m` reads only good addresses and ends as `x` does. -/
structure Refines (good : ρ → Prop) (excuse : ε → Prop) (R : α → β → Prop) (m : Reading ρ ε α)
    (x : Except ε β) : Prop where
  reads : m.run.All good
  result : Matches excuse R m.result x

/-- `m` reads only good addresses and ends with an excused error or a value in `Q`. -/
abbrev Yields (good : ρ → Prop) (excuse : ε → Prop) (Q : α → Prop) (m : Reading ρ ε α) : Prop :=
  Refines good excuse (fun a (_ : Unit) => Q a) m (.ok ())

section Rules

variable {good : ρ → Prop} {excuse : ε → Prop} {R R' : α → β → Prop} {S : γ → δ → Prop}
  {m : Reading ρ ε α} {x : Except ε β}

theorem Refines.pure {a : α} {b : β} (h : R a b) :
    Refines good excuse R (Pure.pure a : Reading ρ ε α) (.ok b) :=
  ⟨fun _ hp => (nomatch hp), .value h⟩

theorem Refines.throw (e : ε) :
    Refines good excuse R (MonadExcept.throw e : Reading ρ ε α) (.error e) :=
  ⟨fun _ hp => (nomatch hp), .error e⟩

theorem Refines.excused {e : ε} (h : excuse e) :
    Refines good excuse R (MonadExcept.throw e : Reading ρ ε α) x :=
  ⟨fun _ hp => (nomatch hp), .excused h⟩

/-- What reads nothing refines itself. -/
theorem Refines.lift (x : Except ε α) :
    Refines good excuse Eq (Reading.lift x : Reading ρ ε α) x where
  reads _ hp := nomatch hp
  result := by
    cases x with
    | error e => exact .error e
    | ok a => exact .value rfl

theorem Refines.mono (h : Refines good excuse R m x) (hR : ∀ a b, R a b → R' a b) :
    Refines good excuse R' m x where
  reads := h.reads
  result := by
    obtain ⟨-, h⟩ := h
    generalize m.result = r at h ⊢
    cases h with
    | value hab => exact .value (hR _ _ hab)
    | error e => exact .error e
    | excused he => exact .excused he

/-- Sequences refine sequences, the second part only for the values that the first one has. -/
theorem Refines.bind_of {f : α → Reading ρ ε γ} {g : β → Except ε δ}
    (h : Refines good excuse R m x)
    (hf : ∀ a b, x = .ok b → R a b → Refines good excuse S (f a) (g b)) :
    Refines good excuse S (m >>= f) (x >>= g) := by
  obtain ⟨hreads, hresult⟩ := h
  obtain ⟨v, t⟩ := m
  change Matches excuse R v x at hresult
  change ∀ p ∈ t, good p at hreads
  cases hresult with
  | value hab =>
    obtain ⟨hreads', hresult'⟩ := hf _ _ rfl hab
    refine ⟨fun p hp => ?_, hresult'⟩
    rcases List.mem_append.mp hp with hp | hp
    · exact hreads p hp
    · exact hreads' p hp
  -- a computation that has failed reads nothing more
  | error e => exact ⟨fun p hp => hreads p ((List.append_nil t) ▸ hp), .error e⟩
  | excused he => exact ⟨fun p hp => hreads p ((List.append_nil t) ▸ hp), .excused he⟩

/-- **Sequences refine sequences.** -/
theorem Refines.bind {f : α → Reading ρ ε γ} {g : β → Except ε δ} (h : Refines good excuse R m x)
    (hf : ∀ a b, R a b → Refines good excuse S (f a) (g b)) :
    Refines good excuse S (m >>= f) (x >>= g) :=
  h.bind_of fun a b _ hab => hf a b hab

/-- What comes before may refine a value. -/
theorem Refines.bind_ok {f : α → Reading ρ ε γ} {b : β} {y : Except ε δ}
    (h : Refines good excuse R m (.ok b))
    (hf : ∀ a, R a b → Refines good excuse S (f a) y) : Refines good excuse S (m >>= f) y := by
  refine Refines.bind_of (g := fun _ => y) h fun a c hc hac => hf a ?_
  cases hc
  exact hac

/-- What comes behind an error does not matter. -/
theorem Refines.bind_error {f : α → Reading ρ ε γ} {e : ε}
    (h : Refines good excuse R m (.error e)) :
    Refines good excuse S (m >>= f) (.error e) :=
  Refines.bind_of (g := fun _ => .error e) h fun _ _ h _ => nomatch h

/-- Branches refine branches. -/
theorem Refines.ite {c c' : Prop} [Decidable c] [Decidable c'] {m' : Reading ρ ε α}
    {x' : Except ε β} (hc : c ↔ c') (ht : c → Refines good excuse R m x)
    (he : ¬ c → Refines good excuse R m' x') :
    Refines good excuse R (if c then m else m') (if c' then x else x') := by
  by_cases h : c
  · rw [if_pos h, if_pos (hc.mp h)]
    exact ht h
  · rw [if_neg h, if_neg (mt hc.mpr h)]
    exact he h

/-- Both branches refine the same. -/
theorem Refines.branch {c : Prop} [Decidable c] {m' : Reading ρ ε α}
    (ht : c → Refines good excuse R m x) (he : ¬ c → Refines good excuse R m' x) :
    Refines good excuse R (if c then m else m') x := by
  have h := Refines.ite (Iff.refl c) ht he
  rwa [ite_self] at h

/-- A read goes on with the contents of the cell. -/
theorem Refines.read_bind {mem : ρ → δ} {p : ρ} {f : δ → Reading ρ ε α} (hp : good p)
    (hf : Refines good excuse R (f (mem p)) x) :
    Refines good excuse R (Reading.read mem p >>= f) x :=
  ⟨(Traced.all_bind _ _).mpr ⟨(Traced.all_tell _ _).mpr hp, hf.reads⟩, hf.result⟩

/-- A run of cells has the contents of the cells. -/
theorem Refines.readRange {good : Nat → Prop} {mem : Nat → δ} : ∀ {n p : Nat},
    (∀ q, p ≤ q → q < p + n → good q) →
    Refines good excuse Eq (Reading.readRange mem p n : Reading Nat ε (List δ))
      (.ok ((List.range' p n).map mem))
  | 0, _, _ => .pure rfl
  | n + 1, p, h => by
    refine .read_bind (h p (Nat.le_refl p) (by omega)) ?_
    refine (Refines.readRange fun q hq hlt => h q (by omega) (by omega)).bind_ok fun bs hbs => ?_
    exact .pure (congrArg (mem p :: ·) hbs)

/-! ## What is known from the end of a computation -/

theorem Refines.of_ok {a : α} (h : Refines good excuse R m x) (e : m.result = .ok a) :
    ∃ b, x = .ok b ∧ R a b := by
  obtain ⟨-, h⟩ := h
  rw [e] at h
  cases h with
  | value hab => exact ⟨_, rfl, hab⟩

theorem Refines.of_error {e : ε} (h : Refines good excuse R m x) (he : m.result = .error e) :
    excuse e ∨ x = .error e := by
  obtain ⟨-, h⟩ := h
  rw [he] at h
  cases h with
  | error => exact .inr rfl
  | excused h => exact .inl h

end Rules

end LowriscLinux.Lib
