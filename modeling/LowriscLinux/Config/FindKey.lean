import LowriscLinux.Config.Detect

/-!
# Looking up a key

Model of `find_key` (`arch/riscv/drivers/config.c`, lines 206-246), which scans the same text as
`parse_config_string` with loops of its own: they are bounded by a pointer `end` as well as by the
terminator, and with `take` set they return early with the first value of `name`.

## What models what

* `findKey`: `find_key` up to its loop (lines 208-211). `findEntries` is the loop over the entries
  (lines 212-243) and `findValues` that over the values of one (lines 224-240); a `return` from
  inside the inner loop is `Flow.ret`.
* `keyLength`, `substrMatch`, `fullMatch`, `prefixMatch`: lines 213-221. As pointers of one string
  are suffixes of it, `end - start > 0` compares two lengths. `strncmp` of at most `min_len` bytes
  compares prefixes, since neither the name nor the key has a byte 0 there.
* The name that the recursive call gets, `name+key_len+1` (line 230), is a suffix of the name, and
  that of a skipped group is empty (line 232).

`none` is the bound of the model's recursion, which is not reached with `fuelFor`. `len` and
`key_len` are `int`s in the source and natural numbers here: no name or key has 2 GiB.

`Entries.seek` is the search on the syntax tree. A tree is `Within` a bound when all its tokens
start before it; then the bound never cuts a loop short.

Results:
* `findEntries_skip`: without `take`, `find_key` returns where the tree ends.
* `findEntries_seek`: with `take`, it returns what the search of the tree does.
* `findKey_eq_parseConfigString`: without `take` and with `end` at the terminator it returns where
  `parse_config_string` stops.
* `brokenConfig`: a text with braces, quotes and semicolons that are not closed, as an example.
-/

namespace LowriscLinux.Config

open LowriscLinux.Lib

/-! ## `find_key` -/

/-- How the loop over the values of an entry ends: `find_key` returns, or the scan goes on. -/
inductive Flow
  | ret (value : Text)
  | next (start : Text)

/-- `key_end - key_start`. -/
def keyLength (key : Text) : Nat := key.length - (skipKey key).length

/-- `strncmp(name, key_start, min_len) == 0`. -/
def substrMatch (name key : Text) : Bool :=
  name.take (min (keyLength key) name.length) = key.take (min (keyLength key) name.length)

def fullMatch (name key : Text) : Bool := substrMatch name key && keyLength key = name.length

def prefixMatch (name key : Text) : Bool :=
  substrMatch name key && (keyLength key < name.length && deref (name.drop (keyLength key)) = dot)

mutual

/-- `find_key`; `none` when the model's bound on the recursion is reached. -/
def findKey : Nat → Text → Text → Text → Bool → Option Text
  | 0, _, _, _, _ => none
  | fuel + 1, start, stop, name, take => findEntries fuel (skipWhitespace start) stop name take

/-- The loop of `find_key` over the entries. -/
def findEntries : Nat → Text → Text → Text → Bool → Option Text
  | 0, _, _, _, _ => none
  | fuel + 1, start, stop, name, take =>
    if start.length > stop.length ∧ deref start ≠ closeBrace then
      let keyStart := start
      let start := skipWhitespace (skipKey keyStart)
      match findValues fuel start stop name take keyStart with
      | none => none
      | some (.ret value) => some value
      | some (.next start) => findEntries fuel (skipWhitespace (closeEntry start)) stop name take
    else some start

/-- The loop of `find_key` over the values of the entry with the key `keyStart`. -/
def findValues : Nat → Text → Text → Text → Bool → Text → Option Flow
  | 0, _, _, _, _, _ => none
  | fuel + 1, start, stop, name, take, keyStart =>
    if start.length > stop.length ∧ deref start ≠ semicolon then
      if deref start = quote then
        if take ∧ fullMatch name keyStart then some (.ret start)
        else
          findValues fuel (skipWhitespace (skipString start.tail)) stop name take keyStart
      else if deref start = openBrace then
        if take ∧ prefixMatch name keyStart then
          (findKey fuel start.tail stop (name.drop (keyLength keyStart + 1)) true).map .ret
        else
          match findKey fuel start.tail stop [] false with
          | none => none
          | some start => findValues fuel (skipWhitespace (closeGroup start)) stop name take keyStart
      else
        if take ∧ fullMatch name keyStart then some (.ret start)
        else findValues fuel (skipWhitespace (skipKey start.tail)) stop name take keyStart
    else some (.next start)

end

/-! ## The search on the tree -/

mutual

/-- Where the search for `name` ends: at the first value of `name`, or where the innermost group
it has entered ends. -/
def Entries.seek : Entries → Text → Text
  | .stop here, _ => here
  | .entry key vals rest, name => (vals.seek name key).getD (rest.seek name)

def Values.seek : Values → Text → Text → Option Text
  | .stop _, _, _ => none
  | .quoted here rest, name, key => if fullMatch name key then some here else rest.seek name key
  | .group _ body rest, name, key =>
    if prefixMatch name key then some (body.seek (name.drop (keyLength key + 1)))
    else rest.seek name key
  | .bare here rest, name, key => if fullMatch name key then some here else rest.seek name key

end

/-! ## Bounds that cut nothing -/

mutual

/-- All tokens of the tree start before `stop`. -/
def Entries.Within (stop : Text) : Entries → Prop
  | .stop _ => True
  | .entry key vals rest => stop.length < key.length ∧ vals.Within stop ∧ rest.Within stop

def Values.Within (stop : Text) : Values → Prop
  | .stop _ => True
  | .quoted here rest => stop.length < here.length ∧ rest.Within stop
  | .group here body rest => stop.length < here.length ∧ body.Within stop ∧ rest.Within stop
  | .bare here rest => stop.length < here.length ∧ rest.Within stop

end

mutual

/-- Every token starts before the place where the scan ends. -/
theorem Entries.At.within : ∀ {g : Entries} {s stop : Text}, g.At s →
    stop.length ≤ g.last.length → g.Within stop
  | .stop _, _, _, _, _ => trivial
  | .entry key vals rest, s, stop, hg, hl => by
    obtain ⟨rfl, h0, -, hv, hr⟩ := hg
    have h1 : rest.last.length ≤ (closeEntry vals.last).length :=
      (hr.suffix.trans (skipWhitespace_suffix _)).length_le
    have h2 := (closeEntry_suffix vals.last).length_le
    have h3 := closeEntry_lt h0 hv
    have hl : stop.length ≤ rest.last.length := hl
    exact ⟨by omega, hv.within (by omega), hr.within hl⟩

theorem Values.At.within : ∀ {v : Values} {s stop : Text}, v.At s →
    stop.length ≤ v.last.length → v.Within stop
  | .stop _, _, _, _, _ => trivial
  | .quoted here rest, s, stop, hv, hl => by
    obtain ⟨rfl, hq, hr⟩ := hv
    have h1 := hr.suffix.length_le
    have h2 := after_lt (skipString_suffix _) (ne_zero_of_eq (by decide) hq)
    have hl : stop.length ≤ rest.last.length := hl
    exact ⟨by omega, hr.within hl⟩
  | .group here body rest, s, stop, hv, hl => by
    obtain ⟨rfl, ho, hb, hr⟩ := hv
    have h1 := hr.suffix.length_le
    have h2 := after_group_lt ho hb
    have h3 := ((skipWhitespace_suffix _).trans (closeGroup_suffix body.last)).length_le
    have hl : stop.length ≤ rest.last.length := hl
    exact ⟨by omega, hb.within (by omega), hr.within hl⟩
  | .bare here rest, s, stop, hv, hl => by
    obtain ⟨rfl, h0, -, -, -, hr⟩ := hv
    have h1 := hr.suffix.length_le
    have h2 := after_lt (skipKey_suffix _) h0
    have hl : stop.length ≤ rest.last.length := hl
    exact ⟨by omega, hr.within hl⟩

end

/-! ## `find_key` on a tree -/

theorem not_guard {s stop : Text} {c : UInt8} (h : deref s = 0 ∨ deref s = c) :
    ¬ (s.length > stop.length ∧ deref s ≠ c) := by
  rintro ⟨hlt, hc⟩
  rcases h with h | h
  · rw [deref_eq_zero.mp h] at hlt
    exact absurd hlt (Nat.not_lt_zero _)
  · exact hc h

mutual

/-- **Without `take`, `find_key` returns where the tree ends.** -/
theorem findEntries_skip {stop name : Text} : ∀ (g : Entries) {s : Text} {fuel : Nat}, g.At s →
    g.Within stop → 3 * s.length + 2 ≤ fuel →
    findEntries fuel s stop name false = some g.last
  | .stop here, s, fuel, hg, _, hf => by
    obtain ⟨n, rfl⟩ : ∃ n, fuel = n + 1 := ⟨fuel - 1, by omega⟩
    obtain ⟨rfl, h0⟩ := hg
    rw [findEntries, if_neg (not_guard h0)]
    rfl
  | .entry key vals rest, s, fuel, hg, hw, hf => by
    obtain ⟨n, rfl⟩ : ∃ n, fuel = n + 1 := ⟨fuel - 1, by omega⟩
    obtain ⟨rfl, h0, hb, hv, hr⟩ := hg
    obtain ⟨hk, hwv, hwr⟩ := hw
    have hlt := entry_lt h0 hv
    have hle := ((skipWhitespace_suffix _).trans (skipKey_suffix key)).length_le
    rw [findEntries, if_pos ⟨hk, hb⟩]
    simp only [findValues_skip vals hv hwv (by omega : _ ≤ n)]
    exact findEntries_skip rest hr hwr (by omega)

theorem findValues_skip {stop name key : Text} : ∀ (v : Values) {s : Text} {fuel : Nat}, v.At s →
    v.Within stop → 3 * s.length + 1 ≤ fuel →
    findValues fuel s stop name false key = some (.next v.last)
  | .stop here, s, fuel, hv, _, hf => by
    obtain ⟨n, rfl⟩ : ∃ n, fuel = n + 1 := ⟨fuel - 1, by omega⟩
    obtain ⟨rfl, h0⟩ := hv
    rw [findValues, if_neg (not_guard h0)]
    rfl
  | .quoted here rest, s, fuel, hv, hw, hf => by
    obtain ⟨n, rfl⟩ : ∃ n, fuel = n + 1 := ⟨fuel - 1, by omega⟩
    obtain ⟨rfl, hq, hr⟩ := hv
    have hlt := after_lt (skipString_suffix _) (ne_zero_of_eq (by decide) hq)
    rw [findValues, if_pos ⟨hw.1, by rw [hq]; decide⟩, if_pos hq, if_neg (by simp)]
    exact findValues_skip rest hr hw.2 (by omega)
  | .group here body rest, s, fuel, hv, hw, hf => by
    obtain ⟨n, rfl⟩ : ∃ n, fuel = n + 1 := ⟨fuel - 1, by omega⟩
    obtain ⟨rfl, ho, hb, hr⟩ := hv
    have hlt := after_group_lt ho hb
    have hlt' := after_lt (f := id) (List.suffix_refl _) (ne_zero_of_eq (by decide) ho)
    simp only [id] at hlt'
    obtain ⟨m, rfl⟩ : ∃ m, n = m + 1 := ⟨n - 1, by omega⟩
    have hq : ¬ deref here = quote := by rw [ho]; decide
    rw [findValues, if_pos ⟨hw.1, by rw [ho]; decide⟩, if_neg hq, if_pos ho, if_neg (by simp),
      findKey, findEntries_skip body hb hw.2.1 (by omega)]
    exact findValues_skip rest hr hw.2.2 (by omega)
  | .bare here rest, s, fuel, hv, hw, hf => by
    obtain ⟨n, rfl⟩ : ∃ n, fuel = n + 1 := ⟨fuel - 1, by omega⟩
    obtain ⟨rfl, h0, hs, hq, ho, hr⟩ := hv
    have hlt := after_lt (skipKey_suffix _) h0
    rw [findValues, if_pos ⟨hw.1, hs⟩, if_neg hq, if_neg ho, if_neg (by simp)]
    exact findValues_skip rest hr hw.2 (by omega)

end

mutual

/-- **With `take`, `find_key` returns what the search of the tree does.** -/
theorem findEntries_seek {stop : Text} : ∀ (g : Entries) {s name : Text} {fuel : Nat}, g.At s →
    g.Within stop → 3 * s.length + 2 ≤ fuel →
    findEntries fuel s stop name true = some (g.seek name)
  | .stop here, s, name, fuel, hg, _, hf => by
    obtain ⟨n, rfl⟩ : ∃ n, fuel = n + 1 := ⟨fuel - 1, by omega⟩
    obtain ⟨rfl, h0⟩ := hg
    rw [findEntries, if_neg (not_guard h0)]
    rfl
  | .entry key vals rest, s, name, fuel, hg, hw, hf => by
    obtain ⟨n, rfl⟩ : ∃ n, fuel = n + 1 := ⟨fuel - 1, by omega⟩
    obtain ⟨rfl, h0, hb, hv, hr⟩ := hg
    obtain ⟨hk, hwv, hwr⟩ := hw
    have hlt := entry_lt h0 hv
    have hle := ((skipWhitespace_suffix _).trans (skipKey_suffix key)).length_le
    have hvals : findValues n _ stop name true key = some ((vals.seek name key).elim _ .ret) :=
      findValues_seek vals hv hwv (by omega)
    rw [findEntries, if_pos ⟨hk, hb⟩, Entries.seek]
    cases hsk : vals.seek name key with
    | none =>
      rw [hsk] at hvals
      simp only [hvals]
      exact findEntries_seek rest hr hwr (by omega)
    | some r =>
      rw [hsk] at hvals
      simp only [hvals]
      rfl

theorem findValues_seek {stop : Text} : ∀ (v : Values) {s name key : Text} {fuel : Nat}, v.At s →
    v.Within stop → 3 * s.length + 1 ≤ fuel →
    findValues fuel s stop name true key =
      some ((v.seek name key).elim (.next v.last) .ret)
  | .stop here, s, name, key, fuel, hv, _, hf => by
    obtain ⟨n, rfl⟩ : ∃ n, fuel = n + 1 := ⟨fuel - 1, by omega⟩
    obtain ⟨rfl, h0⟩ := hv
    rw [findValues, if_neg (not_guard h0)]
    rfl
  | .quoted here rest, s, name, key, fuel, hv, hw, hf => by
    obtain ⟨n, rfl⟩ : ∃ n, fuel = n + 1 := ⟨fuel - 1, by omega⟩
    obtain ⟨rfl, hq, hr⟩ := hv
    have hlt := after_lt (skipString_suffix _) (ne_zero_of_eq (by decide) hq)
    rw [findValues, if_pos ⟨hw.1, by rw [hq]; decide⟩, if_pos hq, Values.seek]
    by_cases hm : fullMatch name key = true
    · rw [if_pos ⟨rfl, hm⟩, if_pos hm]
      rfl
    · rw [if_neg (fun h => hm h.2), if_neg hm]
      exact findValues_seek rest hr hw.2 (by omega)
  | .group here body rest, s, name, key, fuel, hv, hw, hf => by
    obtain ⟨n, rfl⟩ : ∃ n, fuel = n + 1 := ⟨fuel - 1, by omega⟩
    obtain ⟨rfl, ho, hb, hr⟩ := hv
    have hlt := after_group_lt ho hb
    have hlt' := after_lt (f := id) (List.suffix_refl _) (ne_zero_of_eq (by decide) ho)
    simp only [id] at hlt'
    obtain ⟨m, rfl⟩ : ∃ m, n = m + 1 := ⟨n - 1, by omega⟩
    have hq : ¬ deref here = quote := by rw [ho]; decide
    rw [findValues, if_pos ⟨hw.1, by rw [ho]; decide⟩, if_neg hq, if_pos ho, Values.seek]
    by_cases hm : prefixMatch name key = true
    · rw [if_pos ⟨rfl, hm⟩, if_pos hm, findKey, findEntries_seek body hb hw.2.1 (by omega)]
      rfl
    · rw [if_neg (fun h => hm h.2), if_neg hm, findKey,
        findEntries_skip body hb hw.2.1 (by omega)]
      exact findValues_seek rest hr hw.2.2 (by omega)
  | .bare here rest, s, name, key, fuel, hv, hw, hf => by
    obtain ⟨n, rfl⟩ : ∃ n, fuel = n + 1 := ⟨fuel - 1, by omega⟩
    obtain ⟨rfl, h0, hs, hq, ho, hr⟩ := hv
    have hlt := after_lt (skipKey_suffix _) h0
    rw [findValues, if_pos ⟨hw.1, hs⟩, if_neg hq, if_neg ho, Values.seek]
    by_cases hm : fullMatch name key = true
    · rw [if_pos ⟨rfl, hm⟩, if_pos hm]
      rfl
    · rw [if_neg (fun h => hm h.2), if_neg hm]
      exact findValues_seek rest hr hw.2 (by omega)

end
/-! ## The two scanners agree -/

/-- The number of `{` in a text. -/
def openBraces (s : Text) : Nat := s.countP fun c => c.val = openBrace

theorem openBraces_le {s t : Text} (h : s <:+ t) : openBraces s ≤ openBraces t :=
  h.sublist.countP_le

theorem openBraces_tail {s : Text} (h : deref s = openBrace) :
    openBraces s = openBraces s.tail + 1 := by
  cases s with
  | nil => cases h
  | cons c s => exact List.countP_cons_of_pos (decide_eq_true h)

mutual

/-- Every group has a `{` of its own. -/
theorem Entries.At.nested_le : ∀ {g : Entries} {s : Text}, g.At s →
    g.nested.length + openBraces g.last ≤ openBraces s
  | .stop _, s, h => by
    rw [← h.1]
    exact Nat.le_of_eq (Nat.zero_add _)
  | .entry key vals rest, s, h => by
    obtain ⟨rfl, -, -, hv, hr⟩ := h
    have h1 := hv.nested_le
    have h2 := hr.nested_le
    have h3 := openBraces_le ((skipWhitespace_suffix _).trans (closeEntry_suffix vals.last))
    have h4 := openBraces_le ((skipWhitespace_suffix _).trans (skipKey_suffix key))
    rw [Entries.nested, List.length_append, Entries.last]
    omega

theorem Values.At.nested_le : ∀ {v : Values} {s : Text}, v.At s →
    v.nested.length + openBraces v.last ≤ openBraces s
  | .stop _, s, h => by
    rw [← h.1]
    exact Nat.le_of_eq (Nat.zero_add _)
  | .quoted here rest, s, h => by
    have h1 := h.2.2.nested_le
    have h2 := openBraces_le ((skipWhitespace_suffix _).trans
      ((skipString_suffix _).trans (List.tail_suffix s)))
    exact h1.trans h2
  | .group here body rest, s, h => by
    obtain ⟨rfl, ho, hb, hr⟩ := h
    have h1 := hb.nested_le
    have h2 := hr.nested_le
    have h3 := openBraces_le ((skipWhitespace_suffix _).trans (closeGroup_suffix body.last))
    have h4 := openBraces_le (skipWhitespace_suffix here.tail)
    rw [Values.nested, List.length_cons, List.length_append, Values.last, openBraces_tail ho]
    omega
  | .bare here rest, s, h => by
    have h1 := h.2.2.2.2.2.nested_le
    have h2 := openBraces_le ((skipWhitespace_suffix _).trans
      ((skipKey_suffix _).trans (List.tail_suffix s)))
    exact h1.trans h2

end

/-- **The scanners agree on every text.** `find_key` called without `take` and with `end` at the
terminator returns, and returns the position where `parse_config_string`, started at the same
position in pass 0, stops, for any parent, flags and target; and `parse_config_string` does stop
when its call in pass 0 has no target and `roots[]` a byte for it and for every `{` ahead. -/
theorem findKey_eq_parseConfigString (state : ParserState) (h0 : state.pass = 0)
    (parent : List Key) (parentFlags : Nat) (h : Heap) :
    (∃ r, findKey (fuelFor state.config) state.config [] [] false = some r ∧
      ∀ fuel target out, parseConfigString fuel state parent parentFlags target h = .ok out →
        out.1.config = r) ∧
    (state.roots + openBraces state.config < h.roots.length → ∃ out,
      parseConfigString (fuelFor state.config) state parent parentFlags none h = .ok out) := by
  obtain ⟨pass, roots, p, devices, names, keyStart, keyEnd⟩ := state
  obtain rfl : pass = 0 := h0
  have hg := scan_at p
  have hlen := (skipWhitespace_suffix p).length_le
  constructor
  · refine ⟨(scan p).last, ?_, fun fuel target out e => ?_⟩
    · show findEntries (3 * p.length + 2) (skipWhitespace p) [] [] false = _
      exact findEntries_skip _ hg (hg.within (Nat.zero_le _)) (by omega)
    · exact (parseConfigString_stops (w := ⟨roots, devices, ⟨keyStart, keyEnd⟩⟩) hg e).config
  · intro hroom
    have hn := hg.nested_le
    have hb := openBraces_le (skipWhitespace_suffix p)
    have hroom : roots + openBraces p < h.roots.length := hroom
    obtain ⟨out, e, -⟩ : Returns (parseConfigString (fuelFor p) (Walk.state
        ⟨roots, devices, ⟨keyStart, keyEnd⟩⟩ 0 p names) parent parentFlags none h) _ :=
      parseConfigString_detect hg (by unfold fuelFor; omega) (by show roots + _ ≤ _; omega)
    exact ⟨out, e⟩

/-- A group that is never closed, with an unterminated string in it. -/
def brokenConfig : Text := cstring [97, 32, 123, 98, 32, 125, 34, 59, 123, 1, 33]

theorem findKey_eq_parse_broken :
    (∃ r, findKey (fuelFor brokenConfig) brokenConfig [] [] false = some r ∧
      ∀ fuel target out, parseConfigString fuel ⟨0, 1, brokenConfig, 0, 0, [], []⟩ [] 0x400 target
        { roots := [0, 1, 0, 0] } = .ok out → out.1.config = r) ∧
    ∃ out, parseConfigString (fuelFor brokenConfig) ⟨0, 1, brokenConfig, 0, 0, [], []⟩ [] 0x400 none
      { roots := [0, 1, 0, 0] } = .ok out :=
  have h := findKey_eq_parseConfigString ⟨0, 1, brokenConfig, 0, 0, [], []⟩ rfl [] 0x400
    { roots := [0, 1, 0, 0] }
  ⟨h.1, h.2 (by decide)⟩

end LowriscLinux.Config
