import Mathlib.Data.List.Induction
import Mathlib.Logic.Function.Basic
import Mathlib.Order.Nat

/-!
# Multi-level tables

Maps that are kept in memory as tables of tables. An entry of a table is empty or leads to a table
of the next level, and on the last level it is the value itself. Several maps have their tables in
one memory, and a map may have only a part of its top level for itself.

`Forest` says that no table is on two paths. Everything else follows from it: what an operation
writes is on the paths through the entry that it writes to, and on no other.

Results:
* `Forest.table_write`: which paths a write can change.
* `Forest.store`, `lookup_store`: a value is set for one key of one map.
* `Forest.link`, `lookup_link`: a new table changes no value.
* `Forest.unlink`, `lookup_unlink`: a table that is taken out empties the keys below it.
* `Forest.enroll`, `lookup_enroll` and `Forest.dismiss`: a map is made, and given up.
-/

namespace LowriscLinux.Lib.Radix

variable {P I V M : Type}

/-- Where an entry leads, how many levels there are above the last, and the entries of its top level
that a map has for itself. -/
structure Format (P I V M : Type) where
  next : V → Option P
  empty : V
  next_empty : next empty = none
  depth : Nat
  own : M → I → Prop

/-- The entries of all tables, and the top level of each map. -/
structure Tables (P I V M : Type) where
  mem : P → I → V
  root : M → Option P

/-- The path starts in the map's own part of its top level. -/
def Format.Owns (f : Format P I V M) (m : M) (path : List I) : Prop := ∀ i ∈ path.head?, f.own m i

/-- The table that a path leads to. -/
def table (f : Format P I V M) (t : Tables P I V M) (m : M) (path : List I) : Option P :=
  path.foldl (fun q i => q.bind fun p => f.next (t.mem p i)) (t.root m)

/-- The value of a key. -/
def lookup (f : Format P I V M) (t : Tables P I V M) (m : M) (path : List I) (i : I) : V :=
  (table f t m path).elim f.empty fun p => t.mem p i

/-- The page is a table of a map. -/
def Reached (f : Format P I V M) (t : Tables P I V M) (p : P) : Prop :=
  ∃ m path, f.Owns m path ∧ path.length ≤ f.depth ∧ table f t m path = some p

/-- No table is on two paths. -/
def Forest (f : Format P I V M) (t : Tables P I V M) : Prop :=
  ∀ m path m' path' p, f.Owns m path → f.Owns m' path' → path.length ≤ f.depth →
    path'.length ≤ f.depth → table f t m path = some p → table f t m' path' = some p →
    m = m' ∧ path = path'

namespace Tables

variable [DecidableEq P] [DecidableEq I] [DecidableEq M] (t : Tables P I V M)

def write (p : P) (i : I) (v : V) : Tables P I V M :=
  { t with mem := Function.update t.mem p (Function.update (t.mem p) i v) }

/-- A page is filled with entries. -/
def fill (q : P) (es : I → V) : Tables P I V M := { t with mem := Function.update t.mem q es }

/-- A map gets the top level `r`. -/
def setRoot (m : M) (r : Option P) : Tables P I V M :=
  { t with root := Function.update t.root m r }

omit [DecidableEq M] in
theorem write_mem (p q : P) (i j : I) (v : V) :
    (t.write p i v).mem q j = if q = p ∧ j = i then v else t.mem q j := by
  by_cases hq : q = p
  · subst hq
    by_cases hj : j = i <;> simp [write, hj]
  · simp [write, hq]

end Tables

section Paths

variable {f : Format P I V M} {t t' : Tables P I V M} {m m' : M} {path path' : List I} {p q : P}
  {i j : I} {v : V}

theorem table_concat (f : Format P I V M) (t : Tables P I V M) (m : M) (path : List I) (i : I) :
    table f t m (path ++ [i]) = (table f t m path).bind fun p => f.next (t.mem p i) := by
  rw [table, List.foldl_append]
  rfl

theorem Format.owns_nil (f : Format P I V M) (m : M) : f.Owns m [] := fun _ hi => by cases hi

theorem Format.Owns.left (h : f.Owns m (path ++ path')) : f.Owns m path := by
  intro i hi
  refine h i ?_
  cases path with
  | nil => cases hi
  | cons j js => exact hi

theorem table_of_root (h : t.root m = none) : table f t m path = none := by
  induction path using List.reverseRecOn with
  | nil => exact h
  | append_singleton path i ih => rw [table_concat, ih, Option.bind_none]

theorem reached_root (h : t.root m = some p) : Reached f t p :=
  ⟨m, [], f.owns_nil m, Nat.zero_le _, h⟩

/-- The paths to a page's own entries only pass pages that are reached. -/
theorem table_congr (hmem : ∀ p i, Reached f t p → t'.mem p i = t.mem p i)
    (hroot : t'.root m = t.root m) (ho : f.Owns m path) (hl : path.length ≤ f.depth) :
    table f t' m path = table f t m path := by
  induction path using List.reverseRecOn with
  | nil => exact hroot
  | append_singleton path i ih =>
    rw [List.length_append, List.length_singleton] at hl
    have hp := ih ho.left (Nat.le_of_succ_le hl)
    rw [table_concat, table_concat, hp]
    cases hq : table f t m path with
    | none => rfl
    | some q =>
      have hmemq := hmem q i ⟨m, path, ho.left, Nat.le_of_succ_le hl, hq⟩
      rw [Option.bind_some, Option.bind_some, hmemq]

/-- A path through a page whose entries are all empty ends there. -/
theorem table_of_empty (hq : table f t m path = some q) (he : ∀ j ∈ path'.head?, t.mem q j = f.empty)
    (hne : path' ≠ []) : table f t m (path ++ path') = none := by
  induction path' using List.reverseRecOn with
  | nil => exact absurd rfl hne
  | append_singleton js j ih =>
    rw [← List.append_assoc, table_concat]
    cases js with
    | nil =>
      rw [List.append_nil, hq, Option.bind_some, he j (by simp), f.next_empty]
    | cons k ks =>
      rw [ih (fun j' hj' => he j' (by simpa using hj')) (List.cons_ne_nil _ _), Option.bind_none]

/-- A path beyond an entry that leads nowhere. -/
theorem table_of_none (hp : table f t m path = some p) (hn : f.next (t.mem p i) = none)
    (hpre : path ++ [i] <+: path') : table f t m path' = none := by
  obtain ⟨js, rfl⟩ := hpre
  induction js using List.reverseRecOn with
  | nil => rw [List.append_nil, table_concat, hp, Option.bind_some, hn]
  | append_singleton js j ih => rw [← List.append_assoc, table_concat, ih, Option.bind_none]

/-- A forest in which some paths are gone. -/
theorem Forest.of_subset (h : Forest f t)
    (hsub : ∀ m path p, f.Owns m path → path.length ≤ f.depth → table f t' m path = some p →
      table f t m path = some p) : Forest f t' :=
  fun m path m' path' p ho ho' hl hl' hp hp' =>
    h m path m' path' p ho ho' hl hl' (hsub m path p ho hl hp) (hsub m' path' p ho' hl' hp')

theorem not_prefix_of_length_le (h : path'.length ≤ path.length) : ¬ path ++ [i] <+: path' := by
  intro hpre
  have hlen := hpre.length_le
  rw [List.length_append, List.length_singleton] at hlen
  omega

end Paths

/-! ## Writes -/

section Writes

variable [DecidableEq P] [DecidableEq I] {f : Format P I V M}
  {t : Tables P I V M} {m m' : M} {path path' : List I} {p q : P} {i i' : I} {v : V}

/-- **A write changes no path but those through its entry.** -/
theorem Forest.table_write (h : Forest f t) (ho : f.Owns m path) (hl : path.length ≤ f.depth)
    (hp : table f t m path = some p) (ho' : f.Owns m' path') (hl' : path'.length ≤ f.depth)
    (hne : ¬ (m' = m ∧ path ++ [i] <+: path')) :
    table f (t.write p i v) m' path' = table f t m' path' := by
  induction path' using List.reverseRecOn with
  | nil => rfl
  | append_singleton js j ih =>
    rw [List.length_append, List.length_singleton] at hl'
    have hjs := ih ho'.left (Nat.le_of_succ_le hl') fun hpre =>
      hne ⟨hpre.1, hpre.2.trans (List.prefix_append js [j])⟩
    rw [table_concat, table_concat, hjs]
    cases hq : table f t m' js with
    | none => rfl
    | some q =>
      rw [Option.bind_some, Option.bind_some, Tables.write_mem]
      by_cases hentry : q = p ∧ j = i
      · obtain ⟨rfl, rfl⟩ := hentry
        obtain ⟨rfl, rfl⟩ := h m path m' js q ho ho'.left hl (Nat.le_of_succ_le hl') hp hq
        exact absurd ⟨rfl, List.prefix_refl _⟩ hne
      · rw [if_neg hentry]

/-- The value of a key that a write is not on the path of. -/
theorem Forest.lookup_write (h : Forest f t) (ho : f.Owns m path) (hl : path.length ≤ f.depth)
    (hp : table f t m path = some p) (ho' : f.Owns m' path') (hl' : path'.length ≤ f.depth)
    (hne : ¬ (m' = m ∧ path ++ [i] <+: path' ++ [i'])) :
    lookup f (t.write p i v) m' path' i' = lookup f t m' path' i' := by
  have htable : table f (t.write p i v) m' path' = table f t m' path' :=
    h.table_write ho hl hp ho' hl' fun hpre =>
      hne ⟨hpre.1, hpre.2.trans (List.prefix_append path' [i'])⟩
  unfold lookup
  rw [htable]
  cases hq : table f t m' path' with
  | none => rfl
  | some q =>
    rw [Option.elim_some, Option.elim_some, Tables.write_mem]
    refine if_neg ?_
    rintro ⟨rfl, rfl⟩
    obtain ⟨rfl, rfl⟩ := h m path m' path' q ho ho' hl hl' hp hq
    exact hne ⟨rfl, List.prefix_refl _⟩

/-! ### Values -/

theorem Forest.table_store (h : Forest f t) (ho : f.Owns m path) (hl : path.length = f.depth)
    (hp : table f t m path = some p) (ho' : f.Owns m' path') (hl' : path'.length ≤ f.depth) :
    table f (t.write p i v) m' path' = table f t m' path' :=
  h.table_write ho hl.le hp ho' hl' fun hpre => not_prefix_of_length_le (hl'.trans hl.ge) hpre.2

theorem Forest.store (h : Forest f t) (ho : f.Owns m path) (hl : path.length = f.depth)
    (hp : table f t m path = some p) : Forest f (t.write p i v) :=
  h.of_subset fun _ _ _ ho' hl' hp' => (h.table_store ho hl hp ho' hl').symm.trans hp'

/-- **A value is set for one key of one map.** -/
theorem lookup_store [DecidableEq M] (h : Forest f t) (ho : f.Owns m path)
    (hl : path.length = f.depth) (hp : table f t m path = some p) (ho' : f.Owns m' path')
    (hl' : path'.length = f.depth) :
    lookup f (t.write p i v) m' path' i' =
      if m' = m ∧ path' = path ∧ i' = i then v else lookup f t m' path' i' := by
  by_cases hkey : m' = m ∧ path' = path ∧ i' = i
  · obtain ⟨rfl, rfl, rfl⟩ := hkey
    unfold lookup
    rw [h.table_store ho hl hp ho hl.le, hp, Option.elim_some, Tables.write_mem,
      if_pos ⟨rfl, rfl⟩, if_pos ⟨rfl, rfl, rfl⟩]
  · rw [if_neg hkey]
    refine h.lookup_write ho hl.le hp ho' hl'.le fun ⟨hm, hpre⟩ => hkey ⟨hm, ?_⟩
    have hlen : (path ++ [i]).length = (path' ++ [i']).length := by simp [hl, hl']
    obtain ⟨hpath, hi⟩ := List.append_inj' (hpre.eq_of_length hlen) rfl
    exact ⟨hpath.symm, (List.singleton_inj.mp hi).symm⟩

/-! ### Tables -/

/-- The path of a new table. -/
theorem Forest.table_link (h : Forest f t) (ho : f.Owns m (path ++ [i]))
    (hl : path.length < f.depth) (hp : table f t m path = some p)
    (hn : f.next (t.mem p i) = none) (hq : ¬ Reached f t q) (hv : f.next v = some q)
    (ho' : f.Owns m' path') (hl' : path'.length ≤ f.depth) :
    table f ((t.fill q fun _ => f.empty).write p i v) m' path' = table f t m' path' ∨
      (m' = m ∧ path' = path ++ [i] ∧ table f t m' path' = none ∧
        table f ((t.fill q fun _ => f.empty).write p i v) m' path' = some q) := by
  set u := t.fill q fun _ => f.empty
  have hreached : ∀ r, Reached f t r → r ≠ q := fun r hr heq => hq (heq ▸ hr)
  have hu : ∀ m path, f.Owns m path → path.length ≤ f.depth → table f u m path = table f t m path :=
    fun m path ho hl => table_congr
      (fun r j hr => congrFun (Function.update_of_ne (hreached r hr) _ _) j) rfl ho hl
  have hforest : Forest f u := h.of_subset fun m path p ho hl hp => (hu m path ho hl).symm.trans hp
  have hpu : table f u m path = some p := (hu m path ho.left hl.le).trans hp
  by_cases hpre : m' = m ∧ path ++ [i] <+: path'
  · obtain ⟨rfl, hpre⟩ := hpre
    have hnone := table_of_none hp hn hpre
    have hself : table f (u.write p i v) m' (path ++ [i]) = some q := by
      have hkeep : table f (u.write p i v) m' path = table f u m' path :=
        hforest.table_write ho.left hl.le hpu ho.left hl.le fun hpre =>
          not_prefix_of_length_le le_rfl hpre.2
      rw [table_concat, hkeep, hpu, Option.bind_some, Tables.write_mem, if_pos ⟨rfl, rfl⟩, hv]
    obtain ⟨js, rfl⟩ := hpre
    cases js with
    | nil =>
      rw [List.append_nil] at *
      exact .inr ⟨rfl, rfl, hnone, hself⟩
    | cons j js =>
      refine .inl ?_
      rw [hnone]
      refine table_of_empty hself (fun k _ => ?_) (List.cons_ne_nil _ _)
      have hqp : q ≠ p := fun heq => hq (heq ▸ ⟨m', path, ho.left, hl.le, hp⟩)
      rw [Tables.write_mem, if_neg fun hand => hqp hand.1]
      exact congrFun (Function.update_self q (fun _ => f.empty) t.mem) k
  · refine .inl ?_
    rw [hforest.table_write ho.left hl.le hpu ho' hl' hpre, hu m' path' ho' hl']

theorem Forest.link (h : Forest f t) (ho : f.Owns m (path ++ [i])) (hl : path.length < f.depth)
    (hp : table f t m path = some p) (hn : f.next (t.mem p i) = none) (hq : ¬ Reached f t q)
    (hv : f.next v = some q) : Forest f ((t.fill q fun _ => f.empty).write p i v) := by
  intro m₁ path₁ m₂ path₂ r ho₁ ho₂ hl₁ hl₂ hr₁ hr₂
  rcases h.table_link ho hl hp hn hq hv ho₁ hl₁ with h₁ | ⟨rfl, rfl, -, h₁⟩
  · rw [h₁] at hr₁
    rcases h.table_link ho hl hp hn hq hv ho₂ hl₂ with h₂ | ⟨rfl, rfl, -, h₂⟩
    · exact h m₁ path₁ m₂ path₂ r ho₁ ho₂ hl₁ hl₂ hr₁ (h₂.symm.trans hr₂)
    · obtain rfl := Option.some.inj (h₂.symm.trans hr₂)
      exact absurd ⟨m₁, path₁, ho₁, hl₁, hr₁⟩ hq
  · obtain rfl := Option.some.inj (h₁.symm.trans hr₁)
    rcases h.table_link ho hl hp hn hq hv ho₂ hl₂ with h₂ | ⟨rfl, rfl, -, -⟩
    · exact absurd ⟨m₂, path₂, ho₂, hl₂, h₂.symm.trans hr₂⟩ hq
    · exact ⟨rfl, rfl⟩

theorem Forest.reached_link (h : Forest f t) (ho : f.Owns m (path ++ [i]))
    (hl : path.length < f.depth) (hp : table f t m path = some p)
    (hn : f.next (t.mem p i) = none) (hq : ¬ Reached f t q) (hv : f.next v = some q) {r : P}
    (hr : Reached f ((t.fill q fun _ => f.empty).write p i v) r) : Reached f t r ∨ r = q := by
  obtain ⟨m', path', ho', hl', hr⟩ := hr
  rcases h.table_link ho hl hp hn hq hv ho' hl' with heq | ⟨-, -, -, hself⟩
  · exact .inl ⟨m', path', ho', hl', heq.symm.trans hr⟩
  · exact .inr (Option.some.inj (hr.symm.trans hself))

/-- **A new table changes no value.** -/
theorem lookup_link (h : Forest f t) (ho : f.Owns m (path ++ [i])) (hl : path.length < f.depth)
    (hp : table f t m path = some p) (hn : f.next (t.mem p i) = none) (hq : ¬ Reached f t q)
    (hv : f.next v = some q) (ho' : f.Owns m' path') (hl' : path'.length = f.depth) :
    lookup f ((t.fill q fun _ => f.empty).write p i v) m' path' i' = lookup f t m' path' i' := by
  have hqp : q ≠ p := fun heq => hq (heq ▸ ⟨m, path, ho.left, hl.le, hp⟩)
  have hmem : ∀ r, (¬ (r = p ∧ i' = i)) → r ≠ q →
      ((t.fill q fun _ => f.empty).write p i v).mem r i' = t.mem r i' := fun r hne hrq => by
    rw [Tables.write_mem, if_neg hne]
    exact congrFun (Function.update_of_ne hrq _ _) i'
  unfold lookup
  rcases h.table_link ho hl hp hn hq hv ho' hl'.le with heq | ⟨rfl, rfl, hnone, hself⟩
  · rw [heq]
    cases hr : table f t m' path' with
    | none => rfl
    | some r =>
      refine hmem r ?_ fun hrq => hq (hrq ▸ ⟨m', path', ho', hl'.le, hr⟩)
      rintro ⟨rfl, -⟩
      obtain ⟨-, rfl⟩ := h m path m' path' r ho.left ho' hl.le hl'.le hp hr
      omega
  · rw [hnone, hself, Option.elim_some, Option.elim_none, Tables.write_mem,
      if_neg fun hand => hqp hand.1]
    exact congrFun (Function.update_self q (fun _ => f.empty) t.mem) i'

/-- The paths when a table is taken out. -/
theorem Forest.table_unlink (h : Forest f t) (ho : f.Owns m (path ++ [i]))
    (hl : path.length < f.depth) (hp : table f t m path = some p) (hv : f.next v = none)
    (ho' : f.Owns m' path') (hl' : path'.length ≤ f.depth) :
    (¬ (m' = m ∧ path ++ [i] <+: path') ∧
        table f (t.write p i v) m' path' = table f t m' path') ∨
      (m' = m ∧ path ++ [i] <+: path' ∧ table f (t.write p i v) m' path' = none) := by
  by_cases hpre : m' = m ∧ path ++ [i] <+: path'
  · obtain ⟨rfl, hpre⟩ := hpre
    refine .inr ⟨rfl, hpre, ?_⟩
    have hkeep : table f (t.write p i v) m' path = table f t m' path :=
      h.table_write ho.left hl.le hp ho.left hl.le fun hpre => not_prefix_of_length_le le_rfl hpre.2
    refine table_of_none (hkeep.trans hp) ?_ hpre
    rw [Tables.write_mem, if_pos ⟨rfl, rfl⟩, hv]
  · exact .inl ⟨hpre, h.table_write ho.left hl.le hp ho' hl' hpre⟩

theorem Forest.unlinked (h : Forest f t) (ho : f.Owns m (path ++ [i])) (hl : path.length < f.depth)
    (hp : table f t m path = some p) (hv : f.next v = none) (ho' : f.Owns m' path')
    (hl' : path'.length ≤ f.depth) {r : P} (hr : table f (t.write p i v) m' path' = some r) :
    table f t m' path' = some r := by
  rcases h.table_unlink ho hl hp hv ho' hl' with ⟨-, heq⟩ | ⟨-, -, hnone⟩
  · exact heq.symm.trans hr
  · rw [hnone] at hr
    cases hr

theorem Forest.unlink (h : Forest f t) (ho : f.Owns m (path ++ [i])) (hl : path.length < f.depth)
    (hp : table f t m path = some p) (hv : f.next v = none) : Forest f (t.write p i v) :=
  h.of_subset fun _ _ _ ho' hl' => h.unlinked ho hl hp hv ho' hl'

theorem Forest.reached_unlink (h : Forest f t) (ho : f.Owns m (path ++ [i]))
    (hl : path.length < f.depth) (hp : table f t m path = some p) (hv : f.next v = none) {r : P}
    (hr : Reached f (t.write p i v) r) :
    Reached f t r ∧ f.next (t.mem p i) ≠ some r := by
  obtain ⟨m', path', ho', hl', hr⟩ := hr
  have hold := h.unlinked ho hl hp hv ho' hl' hr
  refine ⟨⟨m', path', ho', hl', hold⟩, fun hnext => ?_⟩
  have hr' : table f t m (path ++ [i]) = some r := by rw [table_concat, hp, Option.bind_some, hnext]
  have hlen : (path ++ [i]).length ≤ f.depth := by rwa [List.length_append, List.length_singleton]
  obtain ⟨rfl, rfl⟩ := h m (path ++ [i]) m' path' r ho ho' hlen hl' hr' hold
  rcases h.table_unlink ho hl hp hv ho' hl' with ⟨hne, -⟩ | ⟨-, -, hnone⟩
  · exact hne ⟨rfl, List.prefix_refl _⟩
  · rw [hnone] at hr
    cases hr

/-- **A table that is taken out empties the keys below it.** -/
theorem lookup_unlink [DecidableEq M] (h : Forest f t) (ho : f.Owns m (path ++ [i]))
    (hl : path.length < f.depth) (hp : table f t m path = some p) (hv : f.next v = none)
    (ho' : f.Owns m' path') (hl' : path'.length = f.depth) :
    lookup f (t.write p i v) m' path' i' =
      if m' = m ∧ path ++ [i] <+: path' then f.empty else lookup f t m' path' i' := by
  by_cases hpre : m' = m ∧ path ++ [i] <+: path'
  · rw [if_pos hpre]
    unfold lookup
    rcases h.table_unlink ho hl hp hv ho' hl'.le with ⟨hne, -⟩ | ⟨-, -, hnone⟩
    · exact absurd hpre hne
    · rw [hnone, Option.elim_none]
  · rw [if_neg hpre]
    refine h.lookup_write ho.left hl.le hp ho' hl'.le fun ⟨hm, hkey⟩ => hpre ⟨hm, ?_⟩
    refine List.prefix_of_prefix_length_le hkey (List.prefix_append path' [i']) ?_
    rw [List.length_append, List.length_singleton]
    omega

/-! ### Entries that belong to no map -/

theorem Forest.table_graft (h : Forest f t) (hroot : t.root m = some p) (hi : ¬ f.own m i)
    (ho' : f.Owns m' path') (hl' : path'.length ≤ f.depth) :
    table f (t.write p i v) m' path' = table f t m' path' := by
  refine h.table_write (f.owns_nil m) (Nat.zero_le _) hroot ho' hl' ?_
  rintro ⟨rfl, js, rfl⟩
  exact hi (ho' i rfl)

theorem Forest.graft (h : Forest f t) (hroot : t.root m = some p) (hi : ¬ f.own m i) :
    Forest f (t.write p i v) :=
  h.of_subset fun _ _ _ ho' hl' hp' => (h.table_graft hroot hi ho' hl').symm.trans hp'

/-- **An entry of the top level that is not the map's own** changes no value. -/
theorem lookup_graft (h : Forest f t) (hroot : t.root m = some p) (hi : ¬ f.own m i)
    (ho' : f.Owns m' (path' ++ [i'])) (hl' : path'.length = f.depth) :
    lookup f (t.write p i v) m' path' i' = lookup f t m' path' i' := by
  refine h.lookup_write (f.owns_nil m) (Nat.zero_le _) hroot ho'.left hl'.le ?_
  rintro ⟨rfl, hpre⟩
  have hhead : (path' ++ [i']).head? = some i := by
    obtain ⟨js, hjs⟩ := hpre
    rw [← hjs]
    rfl
  exact hi (ho' i hhead)

end Writes

/-! ## Maps -/

section Maps

variable [DecidableEq M] {f : Format P I V M} {t : Tables P I V M} {m m' : M}
  {path : List I} {q r : P} {i : I} {es : I → V}

section Made

variable [DecidableEq P]

/-- The paths when a map is made. -/
theorem table_enroll (hq : ¬ Reached f t q) (hes : ∀ i, f.own m i → es i = f.empty)
    (ho : f.Owns m' path) (hl : path.length ≤ f.depth) :
    (m' ≠ m ∧ table f ((t.fill q es).setRoot m (some q)) m' path = table f t m' path) ∨
      (m' = m ∧ path = [] ∧ table f ((t.fill q es).setRoot m (some q)) m' path = some q) ∨
      (m' = m ∧ path ≠ [] ∧ table f ((t.fill q es).setRoot m (some q)) m' path = none) := by
  by_cases hm : m' = m
  · subst hm
    have hself : table f ((t.fill q es).setRoot m' (some q)) m' [] = some q :=
      Function.update_self ..
    by_cases hpath : path = []
    · subst hpath
      exact .inr (.inl ⟨rfl, rfl, hself⟩)
    · refine .inr (.inr ⟨rfl, hpath, table_of_empty hself (fun i hi => ?_) hpath⟩)
      exact (congrFun (Function.update_self q es t.mem) i).trans (hes i (ho i hi))
  · refine .inl ⟨hm, table_congr (fun p i hp => ?_) (Function.update_of_ne hm _ _) ho hl⟩
    have hne : p ≠ q := fun heq => hq (heq ▸ hp)
    exact congrFun (Function.update_of_ne hne _ _) i

theorem Forest.enroll (h : Forest f t) (hq : ¬ Reached f t q)
    (hes : ∀ i, f.own m i → es i = f.empty) : Forest f ((t.fill q es).setRoot m (some q)) := by
  intro m₁ path₁ m₂ path₂ r ho₁ ho₂ hl₁ hl₂ hr₁ hr₂
  rcases table_enroll hq hes ho₁ hl₁ with ⟨-, h₁⟩ | ⟨rfl, rfl, h₁⟩ | ⟨-, -, h₁⟩
  · rw [h₁] at hr₁
    rcases table_enroll hq hes ho₂ hl₂ with ⟨-, h₂⟩ | ⟨-, -, h₂⟩ | ⟨-, -, h₂⟩
    · exact h m₁ path₁ m₂ path₂ r ho₁ ho₂ hl₁ hl₂ hr₁ (h₂.symm.trans hr₂)
    · obtain rfl := Option.some.inj (h₂.symm.trans hr₂)
      exact absurd ⟨m₁, path₁, ho₁, hl₁, hr₁⟩ hq
    · cases h₂.symm.trans hr₂
  · obtain rfl := Option.some.inj (h₁.symm.trans hr₁)
    rcases table_enroll hq hes ho₂ hl₂ with ⟨-, h₂⟩ | ⟨rfl, rfl, -⟩ | ⟨-, -, h₂⟩
    · exact absurd ⟨m₂, path₂, ho₂, hl₂, h₂.symm.trans hr₂⟩ hq
    · exact ⟨rfl, rfl⟩
    · cases h₂.symm.trans hr₂
  · cases h₁.symm.trans hr₁

theorem reached_enroll (hq : ¬ Reached f t q) (hes : ∀ i, f.own m i → es i = f.empty)
    (hr : Reached f ((t.fill q es).setRoot m (some q)) r) : Reached f t r ∨ r = q := by
  obtain ⟨m', path, ho, hl, hr⟩ := hr
  rcases table_enroll hq hes ho hl with ⟨-, heq⟩ | ⟨-, -, hself⟩ | ⟨-, -, hnone⟩
  · exact .inl ⟨m', path, ho, hl, heq.symm.trans hr⟩
  · exact .inr (Option.some.inj (hr.symm.trans hself))
  · cases hnone.symm.trans hr

/-- **A new map is empty**, and the others are as they were. -/
theorem lookup_enroll (hq : ¬ Reached f t q) (hes : ∀ i, f.own m i → es i = f.empty)
    (ho : f.Owns m' (path ++ [i])) (hl : path.length ≤ f.depth) :
    lookup f ((t.fill q es).setRoot m (some q)) m' path i =
      if m' = m then f.empty else lookup f t m' path i := by
  unfold lookup
  rcases table_enroll hq hes ho.left hl with ⟨hm, heq⟩ | ⟨rfl, rfl, hself⟩ | ⟨rfl, -, hnone⟩
  · rw [heq, if_neg hm]
    cases hr : table f t m' path with
    | none => rfl
    | some r =>
      have hrq : r ≠ q := fun h => hq (h ▸ ⟨m', path, ho.left, hl, hr⟩)
      exact congrFun (Function.update_of_ne hrq _ _) i
  · rw [hself, if_pos rfl]
    exact (congrFun (Function.update_self q es t.mem) i).trans (hes i (ho i rfl))
  · rw [hnone, if_pos rfl, Option.elim_none]

end Made

/-- The paths when a map is given up. -/
theorem table_dismiss : table f (t.setRoot m none) m' path =
    if m' = m then none else table f t m' path := by
  induction path using List.reverseRecOn with
  | nil => exact Function.update_apply ..
  | append_singleton path i ih =>
    rw [table_concat, ih]
    by_cases hm : m' = m
    · rw [if_pos hm, if_pos hm, Option.bind_none]
    · rw [if_neg hm, if_neg hm, table_concat]
      rfl

theorem dismissed (h : table f (t.setRoot m none) m' path = some r) :
    m' ≠ m ∧ table f t m' path = some r := by
  rw [table_dismiss] at h
  split_ifs at h with hm
  exact ⟨hm, h⟩

theorem Forest.dismiss (h : Forest f t) : Forest f (t.setRoot m none) :=
  h.of_subset fun _ _ _ _ _ hp => (dismissed hp).2

theorem Forest.reached_dismiss (h : Forest f t) (hm : t.root m = some q)
    (hr : Reached f (t.setRoot m none) r) : Reached f t r ∧ r ≠ q := by
  obtain ⟨m', path, ho, hl, hr⟩ := hr
  obtain ⟨hne, hr⟩ := dismissed hr
  refine ⟨⟨m', path, ho, hl, hr⟩, ?_⟩
  rintro rfl
  exact hne (h m' path m [] r ho (f.owns_nil m) hl (Nat.zero_le _) hr hm).1

theorem lookup_dismiss : lookup f (t.setRoot m none) m' path i =
    if m' = m then f.empty else lookup f t m' path i := by
  unfold lookup
  rw [table_dismiss]
  split_ifs with hm
  · rfl
  · rfl

end Maps

end LowriscLinux.Lib.Radix
