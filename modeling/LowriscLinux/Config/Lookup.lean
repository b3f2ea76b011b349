import LowriscLinux.Config.FindKey
import LowriscLinux.Config.Slices

/-!
# Looking up a value of a device

Model of `config_string_u64` and `config_string_str` (`arch/riscv/drivers/config.c`, lines 248-296)
on the slice of a device, and what a lookup should find.

## What models what

* `configStringU64`: `config_string_u64` (lines 248-274), with what it prints. A value is one when
  `parse_u64` stops where `skip_key` does (lines 265-267).
* `configStringStr`: `config_string_str` (lines 277-295), with the bytes that it stores in `dest`. A
  lookup that fails stores the terminator alone, if there is room (line 293).
* `DevErr`: the three messages of `dev_err`, with what they print and their formats (lines 261, 268
  and 287).
* The slice of a device is `archdata.config_start` and `config_end`, which the parser has set (lines
  468 and 513). For the device of the config ROM itself it is the whole text (lines 624-625).
* `none` is the bound of the model's recursion, which is not reached.

`Entries.HasValue` is the specification: a quoted string or a bare value is a value of a dotted name
when the keys on the way to it, joined by dots, are the name. `find_key` does not back out of a
group: once a group's key followed by a dot begins the name, it searches that group and returns
whatever the search returned (line 230), which is the group's `}` when nothing was found.
`Entries.Strays` says that a name leads into such a group.

Results:
* `seek_found`, `seek_missing`, `seek_strays`: what the search of the tree finds in each case.
* `lookup_correct_iff`: in the slice of every device, a lookup is right exactly for the names that
  do not stray.
* `strayConfig`: a text in which a name strays, as an example.
-/

namespace LowriscLinux.Config

/-! ## The lookups -/

inductive DevErr
  | noU64 (key : Text)
  | badU64 (value : List UInt8) (key : Text)
  | noString (key : Text)
  deriving DecidableEq, Repr

/-- The format each message is printed with. -/
def DevErr.format : DevErr → String
  | .noU64 _ => "Could not find u64 config string value for '%s'\n"
  | .badU64 _ _ => "Could not parse u64 config string value '%*pE' for '%s'\n"
  | .noString _ => "Could not find config string value for '%s'\n"

/-- `config_string_u64`: the result and what is printed; `none` when `find_key` reaches the model's
bound on its recursion. -/
def configStringU64 (pdev : PlatformDevice) (key : Text) : Option (BitVec 64 × List DevErr) :=
  match pdev.configStart, pdev.configEnd with
  | some start, some stop =>
    (findKey (fuelFor start) start stop key true).map fun value =>
      if value.length ≤ stop.length then (0, [.noU64 key])
      else
        let tail := skipKey value
        let rest := parseU64 value
        if tail ≠ rest.1 then (0, [.badU64 (between value tail) key]) else (rest.2, [])
  | _, _ => some (0, [])

/-- `config_string_str`: the result, the bytes stored in `dest` and what is printed. -/
def configStringStr (pdev : PlatformDevice) (key : Text) (maxlen : Nat) :
    Option (Nat × List UInt8 × List DevErr) :=
  let emptyOut : List UInt8 := if maxlen ≠ 0 then [0] else []
  match pdev.configStart, pdev.configEnd with
  | some start, some stop =>
    (findKey (fuelFor start) start stop key true).map fun value =>
      if value.length ≤ stop.length then (0, emptyOut, [.noString key])
      else
        let out := parseString value maxlen
        (out.1, out.2, [])
  | _, _ => some (0, emptyOut, [])

/-! ## Values of a name -/

mutual

/-- `r` is a value of `name` in these entries. -/
def Entries.HasValue : Entries → List UInt8 → Text → Prop
  | .stop _, _, _ => False
  | .entry key vals rest, name, r => vals.HasValue (keyAt key).bytes name r ∨ rest.HasValue name r

/-- `r` is a value of `name` among the values of an entry with the key `key`. -/
def Values.HasValue : Values → List UInt8 → List UInt8 → Text → Prop
  | .stop _, _, _, _ => False
  | .quoted here rest, key, name, r => (key = name ∧ r = here) ∨ rest.HasValue key name r
  | .group _ body rest, key, name, r =>
    (∃ sub, name = key ++ dot :: sub ∧ body.HasValue sub r) ∨ rest.HasValue key name r
  | .bare here rest, key, name, r => (key = name ∧ r = here) ∨ rest.HasValue key name r

end

mutual

/-- Some value in these entries belongs to `name`: a value of the name itself, or a group whose key
and a dot begin it. -/
def Entries.leads : Entries → Text → Bool
  | .stop _, _ => false
  | .entry key vals rest, name => vals.leads name key || rest.leads name

def Values.leads : Values → Text → Text → Bool
  | .stop _, _, _ => false
  | .quoted _ rest, name, key => fullMatch name key || rest.leads name key
  | .group _ _ rest, name, key => prefixMatch name key || rest.leads name key
  | .bare _ rest, name, key => fullMatch name key || rest.leads name key

end

mutual

/-- The name strays: following the first value that belongs to it at each depth, it leads into a
group that is closed by a `}` and has no value that belongs to the rest of the name. -/
def Entries.Strays : Entries → Text → Prop
  | .stop _, _ => False
  | .entry key vals rest, name =>
    if vals.leads name key then vals.Strays name key else rest.Strays name

def Values.Strays : Values → Text → Text → Prop
  | .stop _, _, _ => False
  | .quoted _ rest, name, key => ¬ fullMatch name key ∧ rest.Strays name key
  | .group _ body rest, name, key =>
    if prefixMatch name key then
      let sub := name.drop (keyLength key + 1)
      if body.leads sub then body.Strays sub else deref body.last = closeBrace
    else rest.Strays name key
  | .bare _ rest, name, key => ¬ fullMatch name key ∧ rest.Strays name key

end

mutual

def Entries.decStrays : ∀ (g : Entries) (name : Text), Decidable (g.Strays name)
  | .stop _, _ => isFalse id
  | .entry key vals rest, name =>
    have := vals.decStrays name key
    have := rest.decStrays name
    inferInstanceAs (Decidable
      (if vals.leads name key then vals.Strays name key else rest.Strays name))

def Values.decStrays : ∀ (v : Values) (name key : Text), Decidable (v.Strays name key)
  | .stop _, _, _ => isFalse id
  | .quoted _ rest, name, key =>
    have := rest.decStrays name key
    inferInstanceAs (Decidable (¬ fullMatch name key ∧ rest.Strays name key))
  | .group _ body rest, name, key =>
    have := rest.decStrays name key
    have := body.decStrays (name.drop (keyLength key + 1))
    inferInstanceAs (Decidable
      (if prefixMatch name key then
        if body.leads (name.drop (keyLength key + 1)) then
          body.Strays (name.drop (keyLength key + 1))
        else deref body.last = closeBrace
      else rest.Strays name key))
  | .bare _ rest, name, key =>
    have := rest.decStrays name key
    inferInstanceAs (Decidable (¬ fullMatch name key ∧ rest.Strays name key))

end

instance (g : Entries) (name : Text) : Decidable (g.Strays name) := g.decStrays name

/-! ## Matching -/

theorem keyLength_le (key : Text) : keyLength key ≤ key.length := Nat.sub_le _ _

theorem keyAt_bytes (key : Text) : (keyAt key).bytes = (key.take (keyLength key)).map Subtype.val :=
  rfl

theorem map_val_inj {s t : Text} (h : s.map Subtype.val = t.map Subtype.val) : s = t :=
  List.map_injective_iff.mpr Subtype.val_injective h

/-- A complete match. -/
theorem fullMatch_iff {name key : Text} :
    fullMatch name key = true ↔ (keyAt key).bytes = name.map Subtype.val := by
  have hk := keyLength_le key
  rw [keyAt_bytes, fullMatch, substrMatch, Bool.and_eq_true, decide_eq_true_iff, decide_eq_true_iff]
  constructor
  · rintro ⟨hs, hl⟩
    rw [hl, Nat.min_self, List.take_length] at hs
    rw [hl, ← hs]
  · intro h
    have h := map_val_inj h
    have hl : keyLength key = name.length := by
      rw [← h, List.length_take]
      omega
    refine ⟨?_, hl⟩
    rw [hl, Nat.min_self, List.take_length, ← hl]
    exact h.symm

/-- Key and dot begin the name. -/
theorem prefixMatch_iff {name key : Text} : prefixMatch name key = true ↔
    name.map Subtype.val =
      (keyAt key).bytes ++ dot :: (name.drop (keyLength key + 1)).map Subtype.val := by
  have hk := keyLength_le key
  have hsplit : name.map Subtype.val = (name.take (keyLength key)).map Subtype.val ++
      (name.drop (keyLength key)).map Subtype.val := by
    rw [← List.map_append, List.take_append_drop]
  have hlen : ((key.take (keyLength key)).map Subtype.val).length = keyLength key := by
    rw [List.length_map, List.length_take]
    omega
  rw [keyAt_bytes, prefixMatch, substrMatch, Bool.and_eq_true, decide_eq_true_iff,
    Bool.and_eq_true, decide_eq_true_iff, decide_eq_true_iff]
  constructor
  · rintro ⟨hs, hl, hd⟩
    rw [Nat.min_eq_left (Nat.le_of_lt hl)] at hs
    rw [hsplit, hs, List.drop_eq_getElem_cons hl] at *
    exact congrArg _ (congrArg (· :: _) hd)
  · intro h
    have hl : keyLength key < name.length := by
      have := congrArg List.length h
      rw [List.length_append, hlen, List.length_map, List.length_cons] at this
      omega
    have htake := congrArg (List.take (keyLength key)) h
    have hdrop := congrArg (List.drop (keyLength key)) h
    rw [List.take_left' hlen, ← List.map_take] at htake
    rw [List.drop_left' hlen, ← List.map_drop, List.drop_eq_getElem_cons hl] at hdrop
    refine ⟨?_, hl, ?_⟩
    · rw [Nat.min_eq_left (Nat.le_of_lt hl)]
      exact map_val_inj htake
    · rw [List.drop_eq_getElem_cons hl]
      exact (List.cons.inj hdrop).1

/-- The rest of a name is what `name + key_len + 1` points to. -/
theorem drop_name {name key : Text} {sub : List UInt8}
    (h : name.map Subtype.val = (keyAt key).bytes ++ dot :: sub) :
    (name.drop (keyLength key + 1)).map Subtype.val = sub := by
  have hlen : (keyAt key).bytes.length = keyLength key := by
    have := keyLength_le key
    rw [keyAt_bytes, List.length_map, List.length_take]
    omega
  rw [List.map_drop, h, ← hlen, List.drop_append, List.drop_of_length_le (Nat.le_succ _),
    Nat.add_sub_cancel_left]
  rfl

/-! ## What the search finds -/

mutual

/-- **A name nothing belongs to** is searched for to the end, and has no value. -/
theorem Entries.seek_missing : ∀ (g : Entries) {name : Text}, g.leads name = false →
    g.seek name = g.last ∧ ∀ r, ¬ g.HasValue (name.map Subtype.val) r
  | .stop _, _, _ => ⟨rfl, fun _ h => h⟩
  | .entry key vals rest, name, hl => by
    obtain ⟨hv, hr⟩ := Bool.or_eq_false_iff.mp hl
    obtain ⟨h1, h2⟩ := vals.seek_missing hv
    obtain ⟨h3, h4⟩ := rest.seek_missing hr
    refine ⟨?_, fun r h => h.elim (h2 r) (h4 r)⟩
    rw [Entries.seek, h1]
    exact h3

theorem Values.seek_missing : ∀ (v : Values) {name key : Text}, v.leads name key = false →
    v.seek name key = none ∧ ∀ r, ¬ v.HasValue (keyAt key).bytes (name.map Subtype.val) r
  | .stop _, _, _, _ => ⟨rfl, fun _ h => h⟩
  | .quoted here rest, name, key, hl => by
    obtain ⟨hm, hr⟩ := Bool.or_eq_false_iff.mp hl
    obtain ⟨h1, h2⟩ := rest.seek_missing hr
    have hm : ¬ fullMatch name key = true := by rw [hm]; decide
    refine ⟨by rw [Values.seek, if_neg hm, h1], fun r h => h.elim (fun h => hm ?_) (h2 r)⟩
    exact fullMatch_iff.mpr h.1
  | .group here body rest, name, key, hl => by
    obtain ⟨hm, hr⟩ := Bool.or_eq_false_iff.mp hl
    obtain ⟨h1, h2⟩ := rest.seek_missing hr
    have hm : ¬ prefixMatch name key = true := by rw [hm]; decide
    refine ⟨by rw [Values.seek, if_neg hm, h1], fun r h => h.elim ?_ (h2 r)⟩
    rintro ⟨sub, hname, -⟩
    exact hm (prefixMatch_iff.mpr (hname.trans (by rw [drop_name hname])))
  | .bare here rest, name, key, hl => by
    obtain ⟨hm, hr⟩ := Bool.or_eq_false_iff.mp hl
    obtain ⟨h1, h2⟩ := rest.seek_missing hr
    have hm : ¬ fullMatch name key = true := by rw [hm]; decide
    refine ⟨by rw [Values.seek, if_neg hm, h1], fun r h => h.elim (fun h => hm ?_) (h2 r)⟩
    exact fullMatch_iff.mpr h.1

end

/-- Entries end at the terminator or at a `}`. -/
theorem Entries.At.stops {g : Entries} {s : Text} (h : g.At s) :
    g.last = [] ∨ deref g.last = closeBrace := by
  cases g with
  | stop here =>
    obtain ⟨rfl, h⟩ := h
    exact h.imp_left deref_eq_zero.mp
  | entry key vals rest => exact h.2.2.2.2.stops

mutual

/-- **A name that does not stray** is found, or the search ends at the terminator. -/
theorem Entries.seek_found : ∀ (g : Entries) {s name : Text}, g.At s → g.leads name = true →
    ¬ g.Strays name → g.HasValue (name.map Subtype.val) (g.seek name) ∨ g.seek name = []
  | .stop _, _, _, _, hl, _ => Bool.noConfusion hl
  | .entry key vals rest, s, name, hg, hl, hs => by
    obtain ⟨rfl, -, -, hv, hr⟩ := hg
    rw [Entries.Strays] at hs
    rw [Entries.seek]
    by_cases hlv : vals.leads name key = true
    · rw [if_pos hlv] at hs
      obtain ⟨r, hr, h⟩ := vals.seek_found hv hlv hs
      rw [hr]
      exact h.imp_left Or.inl
    · rw [if_neg hlv] at hs
      have hlr : rest.leads name = true := ((Bool.or_eq_true _ _).mp hl).resolve_left hlv
      rw [(vals.seek_missing (Bool.eq_false_iff.mpr hlv)).1]
      exact (rest.seek_found hr hlr hs).imp_left Or.inr

theorem Values.seek_found : ∀ (v : Values) {s name key : Text}, v.At s →
    v.leads name key = true → ¬ v.Strays name key → ∃ r, v.seek name key = some r ∧
      (v.HasValue (keyAt key).bytes (name.map Subtype.val) r ∨ r = [])
  | .stop _, _, _, _, _, hl, _ => Bool.noConfusion hl
  | .quoted here rest, s, name, key, hv, hl, hs => by
    rw [Values.seek]
    by_cases hm : fullMatch name key = true
    · rw [if_pos hm]
      exact ⟨here, rfl, Or.inl (Or.inl ⟨fullMatch_iff.mp hm, rfl⟩)⟩
    · rw [if_neg hm]
      have hlr : rest.leads name key = true := ((Bool.or_eq_true _ _).mp hl).resolve_left hm
      obtain ⟨r, h1, h2⟩ := rest.seek_found hv.2.2 hlr fun h => hs ⟨hm, h⟩
      exact ⟨r, h1, h2.imp_left Or.inr⟩
  | .group here body rest, s, name, key, hv, hl, hs => by
    rw [Values.seek]
    rw [Values.Strays] at hs
    by_cases hm : prefixMatch name key = true
    · rw [if_pos hm] at hs ⊢
      refine ⟨_, rfl, ?_⟩
      by_cases hlb : body.leads (name.drop (keyLength key + 1)) = true
      · rw [if_pos hlb] at hs
        refine (body.seek_found hv.2.2.1 hlb hs).imp_left fun h => Or.inl ⟨_, ?_, h⟩
        exact prefixMatch_iff.mp hm
      · rw [if_neg hlb] at hs
        rw [(body.seek_missing (Bool.eq_false_iff.mpr hlb)).1]
        exact Or.inr (hv.2.2.1.stops.resolve_right hs)
    · rw [if_neg hm] at hs ⊢
      have hlr : rest.leads name key = true := ((Bool.or_eq_true _ _).mp hl).resolve_left hm
      obtain ⟨r, h1, h2⟩ := rest.seek_found hv.2.2.2 hlr hs
      exact ⟨r, h1, h2.imp_left Or.inr⟩
  | .bare here rest, s, name, key, hv, hl, hs => by
    rw [Values.seek]
    by_cases hm : fullMatch name key = true
    · rw [if_pos hm]
      exact ⟨here, rfl, Or.inl (Or.inl ⟨fullMatch_iff.mp hm, rfl⟩)⟩
    · rw [if_neg hm]
      have hlr : rest.leads name key = true := ((Bool.or_eq_true _ _).mp hl).resolve_left hm
      obtain ⟨r, h1, h2⟩ := rest.seek_found hv.2.2.2.2.2 hlr fun h => hs ⟨hm, h⟩
      exact ⟨r, h1, h2.imp_left Or.inr⟩

end

/-! ## Where values stand -/

mutual

/-- A value stands inside the entries it is found in. -/
theorem Entries.HasValue.bounds : ∀ {g : Entries} {s r : Text} {name : List UInt8}, g.At s →
    g.HasValue name r → g.last.length < r.length ∧ r.length ≤ s.length
  | .stop _, _, _, _, _, h => h.elim
  | .entry key vals rest, s, r, name, hg, h => by
    obtain ⟨rfl, h0, -, hv, hr⟩ := hg
    have h1 := (hr.suffix.trans (skipWhitespace_suffix _)).length_le
    have h2 := (closeEntry_suffix vals.last).length_le
    have h3 := closeEntry_lt h0 hv
    have h4 := ((skipWhitespace_suffix _).trans (skipKey_suffix key)).length_le
    have h5 := (skipWhitespace_suffix (closeEntry vals.last)).length_le
    rw [Entries.last]
    rcases h with h | h
    · have := h.bounds hv
      omega
    · have := h.bounds hr
      omega

theorem Values.HasValue.bounds : ∀ {v : Values} {s r : Text} {key name : List UInt8}, v.At s →
    v.HasValue key name r → v.last.length < r.length ∧ r.length ≤ s.length
  | .stop _, _, _, _, _, _, h => h.elim
  | .quoted here rest, s, r, key, name, hv, h => by
    obtain ⟨rfl, hq, hr⟩ := hv
    have h1 := hr.suffix.length_le
    have h2 := after_lt (skipString_suffix _) (ne_zero_of_eq (by decide) hq)
    rw [Values.last]
    rcases h with ⟨-, rfl⟩ | h
    · omega
    · have := h.bounds hr
      omega
  | .group here body rest, s, r, key, name, hv, h => by
    obtain ⟨rfl, ho, hb, hr⟩ := hv
    have h1 := hr.suffix.length_le
    have h2 := after_group_lt ho hb
    have h3 := ((skipWhitespace_suffix _).trans (closeGroup_suffix body.last)).length_le
    have h4 := (skipWhitespace_suffix here.tail).length_le
    have h5 := (List.tail_suffix here).length_le
    rw [Values.last]
    rcases h with ⟨sub, -, h⟩ | h
    · have := h.bounds hb
      omega
    · have := h.bounds hr
      omega
  | .bare here rest, s, r, key, name, hv, h => by
    obtain ⟨rfl, h0, -, -, -, hr⟩ := hv
    have h1 := hr.suffix.length_le
    have h2 := after_lt (skipKey_suffix _) h0
    rw [Values.last]
    rcases h with ⟨-, rfl⟩ | h
    · omega
    · have := h.bounds hr
      omega

end

/-- The slice of a group ends inside it. -/
theorem Entries.closed_le : ∀ (g : Entries) {d : Text}, g.At (skipWhitespace d) →
    (g.closed d).length ≤ d.length
  | .stop _, _, _ => Nat.le_refl _
  | .entry key vals rest, d, hg => by
    obtain ⟨rfl, h0, -, hv, hr⟩ := hg
    rw [← skipWhitespace_skipNewline] at hr
    have h1 := rest.closed_le hr
    have h2 := (skipNewline_suffix (closeEntry vals.last)).length_le
    have h3 := (closeEntry_suffix vals.last).length_le
    have h4 := (hv.suffix.trans ((skipWhitespace_suffix _).trans (skipKey_suffix _))).length_le
    have h5 := (skipWhitespace_suffix d).length_le
    rw [Entries.closed]
    omega

/-- No token stands between the end of the slice and that of the group. -/
theorem Entries.last_le_closed : ∀ (g : Entries) {d : Text}, g.At (skipWhitespace d) →
    g.last.length ≤ (g.closed d).length
  | .stop _, d, hg => by
    obtain ⟨rfl, -⟩ := hg
    exact (skipWhitespace_suffix d).length_le
  | .entry key vals rest, d, hg => by
    obtain ⟨rfl, h0, -, hv, hr⟩ := hg
    rw [← skipWhitespace_skipNewline] at hr
    exact rest.last_le_closed hr

/-- The end of the slice cuts no token off. -/
theorem Entries.At.within_closed : ∀ {g : Entries} {d : Text}, g.At (skipWhitespace d) →
    g.Within (g.closed d)
  | .stop _, _, _ => trivial
  | .entry key vals rest, d, hg => by
    obtain ⟨rfl, h0, -, hv, hr⟩ := hg
    rw [← skipWhitespace_skipNewline] at hr
    have h1 := rest.closed_le hr
    have h2 := (skipNewline_suffix (closeEntry vals.last)).length_le
    have h3 := (closeEntry_suffix vals.last).length_le
    have h4 := closeEntry_lt h0 hv
    exact ⟨Nat.lt_of_le_of_lt (h1.trans h2) h4, hv.within ((h1.trans h2).trans h3),
      hr.within_closed⟩

mutual

/-- **A name that strays** ends at a place inside the entries that is a value of no name. -/
theorem Entries.seek_strays : ∀ (g : Entries) {d name : Text}, g.At (skipWhitespace d) →
    g.Strays name → (g.closed d).length < (g.seek name).length ∧
      (g.seek name).length ≤ d.length ∧ ∀ name', ¬ g.HasValue name' (g.seek name)
  | .stop _, _, _, _, hs => hs.elim
  | .entry key vals rest, d, name, hg, hs => by
    obtain ⟨rfl, h0, -, hv, hr⟩ := hg
    rw [← skipWhitespace_skipNewline] at hr
    have h1 := (skipNewline_suffix (closeEntry vals.last)).length_le
    have h2 := (closeEntry_suffix vals.last).length_le
    have h3 := ((skipWhitespace_suffix _).trans (skipKey_suffix (skipWhitespace d))).length_le
    have h4 := (skipWhitespace_suffix d).length_le
    have h5 := (skipWhitespace_suffix (skipNewline (closeEntry vals.last))).length_le
    have h6 := hv.suffix.length_le
    rw [Entries.Strays] at hs
    rw [Entries.seek, Entries.closed]
    by_cases hlv : vals.leads name (skipWhitespace d) = true
    · rw [if_pos hlv] at hs
      obtain ⟨r, hsk, hlt, hle, hno⟩ := vals.seek_strays hv hs
      have hc := rest.closed_le hr
      rw [hsk, Option.getD_some]
      refine ⟨by omega, by omega, fun name' h => ?_⟩
      rcases h with h | h
      · exact hno _ _ h
      · have := h.bounds hr
        omega
    · rw [if_neg hlv] at hs
      obtain ⟨hlt, hle, hno⟩ := rest.seek_strays hr hs
      rw [(vals.seek_missing (Bool.eq_false_iff.mpr hlv)).1, Option.getD_none]
      refine ⟨hlt, by omega, fun name' h => ?_⟩
      rcases h with h | h
      · have := h.bounds hv
        omega
      · exact hno name' h

theorem Values.seek_strays : ∀ (v : Values) {s name key : Text}, v.At s → v.Strays name key →
    ∃ r, v.seek name key = some r ∧ v.last.length < r.length ∧ r.length ≤ s.length ∧
      ∀ key' name', ¬ v.HasValue key' name' r
  | .stop _, _, _, _, _, hs => hs.elim
  | .quoted here rest, s, name, key, hv, hs => by
    obtain ⟨rfl, hq, hr⟩ := hv
    have h1 := after_lt (skipString_suffix _) (ne_zero_of_eq (by decide) hq)
    obtain ⟨r, hsk, hlt, hle, hno⟩ := rest.seek_strays hr hs.2
    refine ⟨r, by rw [Values.seek, if_neg hs.1, hsk], hlt, by omega, fun key' name' h => ?_⟩
    rcases h with ⟨-, rfl⟩ | h
    · omega
    · exact hno _ _ h
  | .group here body rest, s, name, key, hv, hs => by
    obtain ⟨rfl, ho, hb, hr⟩ := hv
    have h1 := after_group_lt ho hb
    have h2 := ((skipWhitespace_suffix _).trans (closeGroup_suffix body.last)).length_le
    have h3 := hr.suffix.length_le
    rw [Values.Strays] at hs
    rw [Values.seek]
    by_cases hm : prefixMatch name key = true
    · rw [if_pos hm] at hs ⊢
      have hin : rest.last.length < (body.seek (name.drop (keyLength key + 1))).length ∧
          (body.seek (name.drop (keyLength key + 1))).length ≤ here.tail.length ∧
          (skipWhitespace (closeGroup body.last)).length <
            (body.seek (name.drop (keyLength key + 1))).length ∧
          ∀ name', ¬ body.HasValue name' (body.seek (name.drop (keyLength key + 1))) := by
        by_cases hlb : body.leads (name.drop (keyLength key + 1)) = true
        · rw [if_pos hlb] at hs
          obtain ⟨hlt, hle, hno⟩ := body.seek_strays hb hs
          have hc := body.last_le_closed hb
          exact ⟨by omega, hle, by omega, hno⟩
        · rw [if_neg hlb] at hs
          have hc : (skipWhitespace (closeGroup body.last)).length < body.last.length := by
            rw [closeGroup, if_pos hs]
            exact after_lt (f := id) (List.suffix_refl _) (ne_zero_of_eq (by decide) hs)
          have hle := (hb.suffix.trans (skipWhitespace_suffix _)).length_le
          rw [(body.seek_missing (Bool.eq_false_iff.mpr hlb)).1]
          refine ⟨by omega, hle, hc, fun name' h => ?_⟩
          exact Nat.lt_irrefl _ (h.bounds hb).1
      obtain ⟨hlt, hle, hc, hno⟩ := hin
      have h4 := (List.tail_suffix here).length_le
      refine ⟨_, rfl, hlt, hle.trans h4, fun key' name' h => ?_⟩
      rcases h with ⟨sub, -, h⟩ | h
      · exact hno _ h
      · have := h.bounds hr
        omega
    · rw [if_neg hm] at hs ⊢
      obtain ⟨r, hsk, hlt, hle, hno⟩ := rest.seek_strays hr hs
      refine ⟨r, hsk, hlt, by omega, fun key' name' h => ?_⟩
      rcases h with ⟨sub, -, h⟩ | h
      · have := h.bounds hb
        omega
      · exact hno _ _ h
  | .bare here rest, s, name, key, hv, hs => by
    obtain ⟨rfl, h0, -, -, -, hr⟩ := hv
    have h1 := after_lt (skipKey_suffix _) h0
    obtain ⟨r, hsk, hlt, hle, hno⟩ := rest.seek_strays hr hs.2
    refine ⟨r, by rw [Values.seek, if_neg hs.1, hsk], hlt, by omega, fun key' name' h => ?_⟩
    rcases h with ⟨-, rfl⟩ | h
    · omega
    · exact hno _ _ h

end

/-! ## Lookups in the slice of a device -/

/-- A lookup of `name` with `find_key` reports a value only where there is one, and the two lookups
of a name without a value say so. -/
structure LookupCorrect (pdev : PlatformDevice) (start stop name : Text) : Prop where
  found : ∃ r, findKey (fuelFor start) start stop name true = some r ∧
    (stop.length < r.length → (scan start).HasValue (name.map Subtype.val) r)
  missing : (∀ r, ¬ (scan start).HasValue (name.map Subtype.val) r) →
    configStringU64 pdev name = some (0, [.noU64 name]) ∧ ∀ maxlen,
      configStringStr pdev name maxlen = some (0, if maxlen ≠ 0 then [0] else [], [.noString name])

/-- `find_key` searches the slice of a group. -/
theorem findKey_slice {start stop : Text} (hs : Slice start stop) (name : Text) :
    findKey (fuelFor start) start stop name true = some ((scan start).seek name) := by
  obtain ⟨body, hat, -, rfl⟩ := hs
  obtain rfl := hat.unique (scan_at start)
  have hle := (skipWhitespace_suffix start).length_le
  rw [fuelFor, findKey]
  exact findEntries_seek _ hat hat.within_closed (by omega)

/-- A search that does not stray ends at a value of the name or after the slice. -/
theorem seek_slice {start stop : Text} (hs : Slice start stop) {name : Text}
    (hstray : ¬ (scan start).Strays name) :
    (scan start).HasValue (name.map Subtype.val) ((scan start).seek name) ∨
      ((scan start).seek name).length ≤ stop.length := by
  obtain ⟨body, hat, -, rfl⟩ := hs
  obtain rfl := hat.unique (scan_at start)
  by_cases hl : (scan start).leads name = true
  · refine (Entries.seek_found _ hat hl hstray).imp_right fun h => ?_
    rw [h]
    exact Nat.zero_le _
  · rw [(Entries.seek_missing _ (Bool.eq_false_iff.mpr hl)).1]
    exact Or.inr (Entries.last_le_closed _ hat)

/-- A search that strays reports a value where there is none. -/
theorem strays_not_correct {start stop : Text} (hs : Slice start stop) {name : Text}
    (hstray : (scan start).Strays name) {pdev : PlatformDevice} :
    ¬ LookupCorrect pdev start stop name := by
  intro h
  obtain ⟨r, hr, hval⟩ := h.found
  cases (findKey_slice hs name).symm.trans hr
  obtain ⟨body, hat, -, rfl⟩ := hs
  obtain rfl := hat.unique (scan_at start)
  obtain ⟨hlt, -, hno⟩ := Entries.seek_strays _ hat hstray
  exact hno _ (hval hlt)

/-- The slices of the devices of a config string. -/
theorem device_slice {config : Text} {r : ParserState × Heap}
    (e : configFindDevices config = .ok r) {d : PlatformDevice} (hd : d ∈ r.2.devices) :
    ∃ start stop, d.configStart = some start ∧ d.configEnd = some stop ∧ Slice start stop := by
  obtain ⟨i, hi⟩ := List.mem_iff_getElem?.mp hd
  have hi : r.2.devices[i]? = some d := hi
  rw [(configFindDevices_models e).1.listed.devices rfl] at hi
  obtain ⟨s, hs, rfl⟩ := Option.map_eq_some_iff.mp hi
  exact ⟨s.start, s.stop, rfl, rfl, table_slice hs⟩

/-- **Lookups and names that stray.** In the slice of a device a lookup is right exactly when its
name does not stray. -/
theorem lookup_correct_iff {config : Text} {r : ParserState × Heap}
    (e : configFindDevices config = .ok r) {d : PlatformDevice} (hd : d ∈ r.2.devices)
    {start stop : Text} (hstart : d.configStart = some start) (hstop : d.configEnd = some stop)
    (name : Text) : LookupCorrect d start stop name ↔ ¬ (scan start).Strays name := by
  obtain ⟨start', stop', h1, h2, hs⟩ := device_slice e hd
  cases hstart.symm.trans h1
  cases hstop.symm.trans h2
  constructor
  · intro h hstray
    exact strays_not_correct hs hstray h
  · intro hstray
    have hf := findKey_slice hs name
    have hseek := seek_slice hs hstray
    refine ⟨⟨_, hf, fun hlt => hseek.resolve_right (Nat.not_le_of_lt hlt)⟩, fun hno => ?_⟩
    have hle := hseek.resolve_left (hno _)
    constructor
    · unfold configStringU64
      rw [hstart, hstop]
      simp only [hf, Option.map_some, if_pos hle]
    · intro maxlen
      unfold configStringStr
      rw [hstart, hstop]
      simp only [hf, Option.map_some, if_pos hle]

/-- A device with a group `a` that has a value of `b` only. -/
def strayConfig : Text :=
  cstring [117, 123, 105, 110, 116, 101, 114, 102, 97, 99, 101, 32, 34, 120, 34, 59, 97, 123, 98, 32, 49,
    59, 125, 59, 125]

/-- `a.b` and `a.c`. -/
def presentName : Text := cstring [97, 46, 98]

def absentName : Text := cstring [97, 46, 99]

theorem strayConfig_devices : ∃ r d start stop, configFindDevices strayConfig = .ok r ∧
    d ∈ r.2.devices ∧ d.configStart = some start ∧ d.configEnd = some stop ∧
    ¬ (scan start).Strays presentName ∧ (scan start).Strays absentName := by
  have hrun : (match configFindDevices strayConfig with
      | .ok r => match r.2.devices with
        | [d] => match d.configStart with
          | some start =>
            decide (¬ (scan start).Strays presentName ∧ (scan start).Strays absentName)
          | none => false
        | _ => false
      | .error _ => false) = true := by decide +kernel
  cases e : configFindDevices strayConfig with
  | error e' =>
    rw [e] at hrun
    cases hrun
  | ok r =>
    rw [e] at hrun
    simp only at hrun
    split at hrun
    · rename_i d hd
      have hmem : d ∈ r.2.devices := hd ▸ List.mem_cons_self
      obtain ⟨start, stop, hstart, hstop, -⟩ := device_slice e hmem
      rw [hstart] at hrun
      exact ⟨r, d, start, stop, rfl, hmem, hstart, hstop, of_decide_eq_true hrun⟩
    · cases hrun

theorem lookup_correct_present : ∃ r d start stop, configFindDevices strayConfig = .ok r ∧
    d ∈ r.2.devices ∧ LookupCorrect d start stop presentName ∧
    ¬ LookupCorrect d start stop absentName := by
  obtain ⟨r, d, start, stop, e, hd, hstart, hstop, hp, ha⟩ := strayConfig_devices
  refine ⟨r, d, start, stop, e, hd, (lookup_correct_iff e hd hstart hstop _).mpr hp, fun h => ?_⟩
  exact (lookup_correct_iff e hd hstart hstop _).mp h ha

/-- Looking up `a.c` where `a` has only a `b` finds the `}` of `a`. -/
theorem lookup_absent : ¬ ∀ (config : Text) (r : ParserState × Heap),
    configFindDevices config = .ok r → ∀ d ∈ r.2.devices, ∀ start stop : Text,
    d.configStart = some start → d.configEnd = some stop →
    ∀ name : Text, LookupCorrect d start stop name := by
  intro h
  obtain ⟨r, d, start, stop, e, hd, hstart, hstop, -, ha⟩ := strayConfig_devices
  obtain ⟨start', stop', h1, h2, hs⟩ := device_slice e hd
  cases hstart.symm.trans h1
  cases hstop.symm.trans h2
  exact strays_not_correct hs ha (h strayConfig r e d hd start stop hstart hstop absentName)

end LowriscLinux.Config
