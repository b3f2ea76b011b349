import LowriscLinux.Config.Lookup
import LowriscLinux.Lib.Scanner

/-!
# Cutting a slice out of a config string

The slice of a device (`arch/riscv/drivers/config.c`, lines 468 and 513), taken as a text of its
own, is read as it was in the config string. `p ++ e` is the place in the config string of the
pointer `p` into the slice, where `e` is the text from `config_end` on; `Entries.lift e` moves a
whole tree.

* `afterKey` to `entryEnd`: from one token of a text to the next, each a scan of lines 45-71 behind
  another, as the loops of lines 476-516 compose them. Each of them commutes with `++ e` as long as
  it stops inside the slice.
* `parseDigits`: the part of `parse_u64` behind the sign (lines 141-145). It may look at two bytes
  (line 141), which are the same ones in the slice unless the literal is its last byte.
* `Entries.Fits`: the entries end inside the slice, or at the place of the cut. A group that is a
  device ends there, at its `}` or at the end of the line of its last entry, and in the slice at the
  terminator (`Entries.withLast`).

Results:
* `decodeString_append`, `parseU64_append`: a literal that ends inside the slice has the same value
  there.
* `Entries.At.cut`, `Values.At.cut`: the tree of the config string is the moved tree of the slice.
* `Entries.At.cut_slice`: likewise for the group of a device, which in the slice ends at the
  terminator.
-/

namespace LowriscLinux.Config

open LowriscLinux.Lib

/-! ## The scanners -/

theorem skipWhitespace_scanner : Scanner skipWhitespace := Scanner.dropWhile _

theorem skipKey_scanner : Scanner skipKey := Scanner.dropWhile _

theorem skipNewline_scanner : Scanner skipNewline where
  suffix := skipNewline_suffix
  split s rest := by
    induction s with
    | nil => exact Or.inr ⟨rfl, skipNewline_suffix rest⟩
    | cons c s ih =>
      simp only [List.cons_append, skipNewline]
      split_ifs
      · exact Or.inl rfl
      · exact ih
      · exact Or.inl rfl

theorem skipString_scanner : Scanner skipString where
  suffix := skipString_suffix
  split s rest := by
    induction s with
    | nil => exact Or.inr ⟨rfl, skipString_suffix rest⟩
    | cons c s ih =>
      simp only [List.cons_append, skipString]
      split_ifs
      · exact Or.inl rfl
      · exact ih

theorem closeEntry_scanner : Scanner closeEntry :=
  Scanner.tailIf (fun p : Text => deref p = semicolon) fun _ _ _ => Iff.rfl

theorem closeGroup_scanner : Scanner closeGroup :=
  Scanner.tailIf (fun p : Text => deref p = closeBrace) fun _ _ _ => Iff.rfl

/-- From the key of an entry to its first value. -/
def afterKey : Text → Text := skipWhitespace ∘ skipKey

/-- From a value to the next one. -/
def afterString : Text → Text := skipWhitespace ∘ skipString ∘ List.tail

def afterBare : Text → Text := skipWhitespace ∘ skipKey ∘ List.tail

def afterGroup : Text → Text := skipWhitespace ∘ closeGroup

/-- From the `{` of a group to its first key. -/
def intoGroup : Text → Text := skipWhitespace ∘ List.tail

/-- From the end of the values of an entry to the next key. -/
def afterEntry : Text → Text := skipWhitespace ∘ closeEntry

/-- From the end of the values of an entry to the end of its line. -/
def entryEnd : Text → Text := skipNewline ∘ closeEntry

theorem afterKey_scanner : Scanner afterKey := skipWhitespace_scanner.comp skipKey_scanner

theorem afterString_scanner : Scanner afterString :=
  skipWhitespace_scanner.comp (skipString_scanner.comp .tail)

theorem afterBare_scanner : Scanner afterBare :=
  skipWhitespace_scanner.comp (skipKey_scanner.comp .tail)

theorem afterGroup_scanner : Scanner afterGroup := skipWhitespace_scanner.comp closeGroup_scanner

theorem intoGroup_scanner : Scanner intoGroup := skipWhitespace_scanner.comp .tail

theorem afterEntry_scanner : Scanner afterEntry := skipWhitespace_scanner.comp closeEntry_scanner

theorem entryEnd_scanner : Scanner entryEnd := skipNewline_scanner.comp closeEntry_scanner

theorem deref_append {s : Text} (hs : s ≠ []) (e : Text) : deref (s ++ e) = deref s := by
  cases s with
  | nil => exact absurd rfl hs
  | cons c s => rfl

/-! ## Literals -/

section Literals

variable {e : Text}

theorem parseU64Hex_append : ∀ {s : Text} {res : BitVec 64}, Past e (parseU64Hex s res).1 →
    parseU64Hex (s ++ e) res = ((parseU64Hex s res).1 ++ e, (parseU64Hex s res).2)
  | [], res, h => by
    obtain rfl := h.resolve_right fun h => h rfl
    rfl
  | c :: s, res, h => by
    rw [List.cons_append]
    unfold parseU64Hex at h ⊢
    split_ifs at h ⊢
    · rfl
    · exact parseU64Hex_append h
    · rfl
    · exact parseU64Hex_append h

theorem parseU64Dec_append : ∀ {s : Text} {res : BitVec 64}, Past e (parseU64Dec s res).1 →
    parseU64Dec (s ++ e) res = ((parseU64Dec s res).1 ++ e, (parseU64Dec s res).2)
  | [], res, h => by
    obtain rfl := h.resolve_right fun h => h rfl
    rfl
  | c :: s, res, h => by
    rw [List.cons_append]
    unfold parseU64Dec at h ⊢
    split_ifs at h ⊢
    · rfl
    · exact parseU64Dec_append h
    · rfl
    · exact parseU64Dec_append h

theorem isKeyByte_of_isHex {c : UInt8} (h : isHex c = true) : isKeyByte c = true := by
  simp only [isHex, isKeyByte, Bool.or_eq_true, Bool.and_eq_true, decide_eq_true_eq, bne_iff_ne,
    UInt8.le_iff_toNat_le, ne_eq, ← UInt8.toNat_inj] at h ⊢
  simp only [UInt8.toNat_ofNat] at h ⊢
  omega

theorem isKeyByte_of_isDec {c : UInt8} (h : isDec c = true) : isKeyByte c = true :=
  isKeyByte_of_isHex (by rw [isHex, isDec] at *; rw [h]; rfl)

theorem skipKey_cons {c : Byte} (h : isKeyByte c.val = true) (s : Text) :
    skipKey (c :: s) = skipKey s := by
  rw [skipKey, List.dropWhile_cons, if_pos h]
  rfl

theorem skipKey_tail {s : Text} (h : isKeyByte (deref s) = true) : skipKey s.tail = skipKey s := by
  cases s with
  | nil => rfl
  | cons c s => exact (skipKey_cons h s).symm

/-- An integer ends before the token does. -/
theorem skipKey_parseU64Hex : ∀ (s : Text) (res : BitVec 64),
    skipKey s <:+ (parseU64Hex s res).1
  | [], _ => List.suffix_refl _
  | c :: s, res => by
    unfold parseU64Hex
    split_ifs with hh hov hu
    · exact skipKey_suffix _
    · rw [skipKey_cons (isKeyByte_of_isHex hh)]
      exact skipKey_parseU64Hex s _
    · exact skipKey_suffix _
    · rw [skipKey_cons (by rw [not_not.mp hu]; decide)]
      exact skipKey_parseU64Hex s _

theorem skipKey_parseU64Dec : ∀ (s : Text) (res : BitVec 64),
    skipKey s <:+ (parseU64Dec s res).1
  | [], _ => List.suffix_refl _
  | c :: s, res => by
    unfold parseU64Dec
    split_ifs with hh hov hu
    · exact skipKey_suffix _
    · rw [skipKey_cons (isKeyByte_of_isDec hh)]
      exact skipKey_parseU64Dec s _
    · exact skipKey_suffix _
    · rw [skipKey_cons (by rw [not_not.mp hu]; decide)]
      exact skipKey_parseU64Dec s _

/-- The digits of an integer, after its sign. -/
def parseDigits (str : Text) : Text × BitVec 64 :=
  if deref str = 48 ∧ deref str.tail = 120 then parseU64Hex (str.drop 2) 0 else parseU64Dec str 0

theorem parseU64_eq (str : Text) : parseU64 str = if deref str = dash
    then ((parseDigits str.tail).1, -(parseDigits str.tail).2) else parseDigits str := by
  by_cases hd : deref str = dash
  · simp only [parseU64, if_pos hd]
    rfl
  · simp only [parseU64, if_neg hd]
    rfl

theorem ne_nil_of_skipKey {s : Text} (h : skipKey s ≠ []) : s ≠ [] := by
  rintro rfl
  exact h rfl

theorem drop_two (s : Text) : s.drop 2 = s.tail.tail := by
  rcases s with _ | ⟨a, _ | ⟨b, s⟩⟩ <;> rfl

theorem parseDigits_append {s : Text} (h : skipKey s ≠ []) :
    parseDigits (s ++ e) = ((parseDigits s).1 ++ e, (parseDigits s).2) := by
  have hs := ne_nil_of_skipKey h
  unfold parseDigits
  rw [deref_append hs, List.tail_append_of_ne_nil hs]
  by_cases h0 : deref s = 48
  · have h1 : skipKey s.tail ≠ [] := by
      rw [skipKey_tail (by rw [h0]; decide)]
      exact h
    have hs1 := ne_nil_of_skipKey h1
    rw [deref_append hs1]
    by_cases hx : deref s.tail = 120
    · have h2 : skipKey (s.drop 2) ≠ [] := by
        rw [drop_two, skipKey_tail (by rw [hx]; decide)]
        exact h1
      have hd : (s ++ e).drop 2 = s.drop 2 ++ e := by
        rw [drop_two, drop_two, List.tail_append_of_ne_nil hs, List.tail_append_of_ne_nil hs1]
      rw [if_pos ⟨h0, hx⟩, if_pos ⟨h0, hx⟩, hd]
      exact parseU64Hex_append (Past.of_suffix (Or.inr h2) (skipKey_parseU64Hex _ _))
    · rw [if_neg fun h => hx h.2, if_neg fun h => hx h.2]
      exact parseU64Dec_append (Past.of_suffix (Or.inr h) (skipKey_parseU64Dec _ _))
  · rw [if_neg fun h => h0 h.1, if_neg fun h => h0 h.1]
    exact parseU64Dec_append (Past.of_suffix (Or.inr h) (skipKey_parseU64Dec _ _))

/-- **An integer** whose token ends inside the text does not depend on what follows. -/
theorem parseU64_append {s : Text} (h : Past e (skipKey s)) :
    parseU64 (s ++ e) = ((parseU64 s).1 ++ e, (parseU64 s).2) := by
  rcases h with rfl | h
  · rw [List.append_nil, List.append_nil]
  · have hs := ne_nil_of_skipKey h
    rw [parseU64_eq, parseU64_eq, deref_append hs, List.tail_append_of_ne_nil hs]
    split_ifs with hd
    · have h1 : skipKey s.tail ≠ [] := by
        rw [skipKey_tail (by rw [hd]; decide)]
        exact h
      rw [parseDigits_append h1]
    · exact parseDigits_append h

theorem ne_quote_of_isHex {c : UInt8} (h : isHex c = true) : c ≠ quote := by
  rintro rfl
  exact absurd h (by decide)

theorem skipString_cons {c : Byte} (h : c.val ≠ quote) (s : Text) :
    skipString (c :: s) = skipString s := if_neg h

theorem skipString_tail {s : Text} (h : deref s ≠ quote) : skipString s.tail = skipString s := by
  cases s with
  | nil => rfl
  | cons c s => exact (skipString_cons h s).symm

/-- No byte of an escape is a closing quote. -/
theorem quotedChar_skip {c : Byte} {s : Text} : ∀ b ∈ s.take (quotedChar c s).2, b.val ≠ quote := by
  have htake : ∀ (t : Text) (n : Nat), deref t ≠ quote → (∀ b ∈ t.tail.take n, b.val ≠ quote) →
      ∀ b ∈ t.take (n + 1), b.val ≠ quote := by
    intro t n ht hn b hb
    cases t with
    | nil => exact (List.not_mem_nil hb).elim
    | cons d t =>
      rcases List.mem_cons.mp hb with rfl | hb
      · exact ht
      · exact hn b hb
  have hnil : ∀ t : Text, ∀ b ∈ t.take 0, b.val ≠ quote := fun _ _ h => (List.not_mem_nil h).elim
  unfold quotedChar
  split_ifs with h h3
  · refine htake s 2 (by rw [h.2.1]; decide) (htake _ 1 (ne_quote_of_isHex h.2.2) ?_)
    exact htake _ 0 (ne_quote_of_isHex h3) (hnil _)
  · exact htake s 1 (by rw [h.2.1]; decide) (htake _ 0 (ne_quote_of_isHex h.2.2) (hnil _))
  · exact hnil s

theorem ne_nil_of_skipString {s : Text} (h : skipString s ≠ []) : s ≠ [] := by
  rintro rfl
  exact h rfl

/-- What an escape looks at stands before the closing quote. -/
theorem quotedChar_append {c : Byte} {s : Text} (h : skipString s ≠ []) :
    quotedChar c (s ++ e) = quotedChar c s := by
  have hs := ne_nil_of_skipString h
  unfold quotedChar
  rw [deref_append hs, List.tail_append_of_ne_nil hs]
  by_cases hx : c.val = backslash ∧ deref s = 120
  · have h1 : skipString s.tail ≠ [] := by
      rw [skipString_tail (by rw [hx.2]; decide)]
      exact h
    have hs1 := ne_nil_of_skipString h1
    rw [deref_append hs1, List.tail_append_of_ne_nil hs1]
    by_cases hh : isHex (deref s.tail) = true
    · have h2 : skipString s.tail.tail ≠ [] := by
        rw [skipString_tail (ne_quote_of_isHex hh)]
        exact h1
      rw [deref_append (ne_nil_of_skipString h2)]
    · rw [if_neg fun h => hh h.2.2, if_neg fun h => hh h.2.2]
  · rw [if_neg fun h => hx ⟨h.1, h.2.1⟩, if_neg fun h => hx ⟨h.1, h.2.1⟩]

theorem decodeQuoted_append : ∀ {s : Text} {skip : Nat}, skipString s ≠ [] →
    (∀ b ∈ s.take skip, b.val ≠ quote) → decodeQuoted (s ++ e) skip = decodeQuoted s skip
  | [], _, h, _ => absurd rfl h
  | c :: s, skip + 1, h, hb => by
    rw [skipString_cons (hb c List.mem_cons_self)] at h
    rw [List.cons_append, decodeQuoted, decodeQuoted]
    exact decodeQuoted_append h fun b hm => hb b (List.mem_cons_of_mem _ hm)
  | c :: s, 0, h, _ => by
    rw [List.cons_append, decodeQuoted, decodeQuoted]
    split_ifs with hq
    · rfl
    · rw [skipString_cons hq] at h
      rw [quotedChar_append h, decodeQuoted_append h quotedChar_skip]

theorem takeWhile_append {s : Text} (h : skipKey s ≠ []) :
    (s ++ e).takeWhile (fun c => isKeyByte c.val) = s.takeWhile fun c => isKeyByte c.val := by
  induction s with
  | nil => exact absurd rfl h
  | cons c s ih =>
    rw [List.cons_append, List.takeWhile_cons, List.takeWhile_cons]
    split_ifs with hc
    · rw [skipKey_cons hc] at h
      rw [ih h]
    · rfl

/-- **A string** that ends inside the text does not depend on what follows. -/
theorem decodeString_append {s : Text} (h : Past e (skipKey s) ∧ deref s ≠ quote ∨
    Past e (skipString s.tail) ∧ deref s = quote) : decodeString (s ++ e) = decodeString s := by
  unfold decodeString
  rcases h with ⟨rfl | h, hq⟩ | ⟨rfl | h, hq⟩
  · rw [List.append_nil]
  · rw [deref_append (ne_nil_of_skipKey h), if_neg hq, if_neg hq, takeWhile_append h]
  · rw [List.append_nil]
  · have hs : s ≠ [] := by
      rintro rfl
      exact h rfl
    rw [deref_append hs, if_pos hq, if_pos hq, List.tail_append_of_ne_nil hs]
    exact decodeQuoted_append h fun _ hm => (List.not_mem_nil hm).elim

end Literals

/-! ## Moving a tree -/

mutual

/-- The tree, with more text after every pointer. -/
def Entries.lift (e : Text) : Entries → Entries
  | .stop here => .stop (here ++ e)
  | .entry key vals rest => .entry (key ++ e) (vals.lift e) (rest.lift e)

def Values.lift (e : Text) : Values → Values
  | .stop here => .stop (here ++ e)
  | .quoted here rest => .quoted (here ++ e) (rest.lift e)
  | .group here body rest => .group (here ++ e) (body.lift e) (rest.lift e)
  | .bare here rest => .bare (here ++ e) (rest.lift e)

end

/-- The same entries, with another end. -/
def Entries.withLast (t : Text) : Entries → Entries
  | .stop _ => .stop t
  | .entry key vals rest => .entry key vals (rest.withLast t)

theorem Entries.withLast_isRoot (t : Text) : ∀ g : Entries, (g.withLast t).isRoot = g.isRoot
  | .stop _ => rfl
  | .entry key _ rest => congrArg (isInterface key || ·) (rest.withLast_isRoot t)

theorem Entries.withLast_calls (t : Text) (g : Entries) (root : Bool) (c : Ctx) (w : Walk) :
    (g.withLast t).calls root c w = g.calls root c w := by
  cases g with
  | stop here => rfl
  | entry key vals rest =>
    rw [Entries.withLast, Entries.calls, Entries.calls, rest.withLast_calls]

theorem Entries.lift_last (e : Text) : ∀ g : Entries, (g.lift e).last = g.last ++ e
  | .stop _ => rfl
  | .entry _ _ rest => rest.lift_last e

theorem Values.lift_last (e : Text) : ∀ v : Values, (v.lift e).last = v.last ++ e
  | .stop _ => rfl
  | .quoted _ rest => rest.lift_last e
  | .group _ _ rest => rest.lift_last e
  | .bare _ rest => rest.lift_last e

/-! ## Cutting a tree -/

theorem entryEnd_eq (p : Text) : skipWhitespace (entryEnd p) = afterEntry p :=
  skipWhitespace_skipNewline _

/-- The byte a pointer stops at is the same in the cut text, or there is none. -/
theorem deref_cut {q e : Text} {c : UInt8} (h : deref (q ++ e) = 0 ∨ deref (q ++ e) = c) :
    deref q = 0 ∨ deref q = c := by
  cases q with
  | nil => exact Or.inl rfl
  | cons b q => exact h

theorem ne_nil_of_length {q e t : Text} (h : t.length < (q ++ e).length) (ht : e.length ≤ t.length) :
    q ≠ [] := by
  rintro rfl
  exact Nat.lt_irrefl _ (Nat.lt_of_le_of_lt ht h)

mutual

/-- **A tree that ends before `e`** is read in the text without `e`. -/
theorem Entries.At.cut {e : Text} : ∀ {g : Entries} {q : Text}, g.At (q ++ e) →
    e.length ≤ g.last.length → ∃ g' : Entries, g'.At q ∧ g = g'.lift e
  | .stop here, q, hg, _ => by
    obtain ⟨rfl, h⟩ := hg
    exact ⟨Entries.stop q, ⟨rfl, deref_cut h⟩, rfl⟩
  | .entry key vals rest, q, hg, hl => by
    obtain ⟨rfl, h0, hb, hv, hr⟩ := hg
    have hl : e.length ≤ rest.last.length := hl
    have hlt := entry_lt h0 hv
    have h1 := hr.suffix.length_le
    have h2 := (afterEntry_scanner.suffix vals.last).length_le
    have h3 := hv.suffix.length_le
    have hq : q ≠ [] := ne_nil_of_length hlt (hl.trans h1)
    rw [deref_append hq] at h0 hb
    have hk : skipWhitespace (skipKey (q ++ e)) = afterKey q ++ e :=
      afterKey_scanner.uncut (by exact ((hl.trans h1).trans h2).trans h3)
    rw [hk] at hv
    obtain ⟨vals', hv', rfl⟩ := hv.cut ((hl.trans h1).trans h2)
    rw [Values.lift_last] at hr h1
    have he : skipWhitespace (closeEntry (vals'.last ++ e)) = afterEntry vals'.last ++ e :=
      afterEntry_scanner.uncut (by exact hl.trans h1)
    rw [he] at hr
    obtain ⟨rest', hr', rfl⟩ := hr.cut hl
    exact ⟨Entries.entry q vals' rest', ⟨rfl, h0, hb, hv', hr'⟩, rfl⟩

theorem Values.At.cut {e : Text} : ∀ {v : Values} {q : Text}, v.At (q ++ e) →
    e.length ≤ v.last.length → ∃ v' : Values, v'.At q ∧ v = v'.lift e
  | .stop here, q, hv, _ => by
    obtain ⟨rfl, h⟩ := hv
    exact ⟨Values.stop q, ⟨rfl, deref_cut h⟩, rfl⟩
  | .quoted here rest, q, hv, hl => by
    obtain ⟨rfl, hq, hr⟩ := hv
    have hl : e.length ≤ rest.last.length := hl
    have h1 := hr.suffix.length_le
    have hlt := after_lt (skipString_suffix _) (ne_zero_of_eq (by decide) hq)
    have hne : q ≠ [] := ne_nil_of_length hlt (hl.trans h1)
    have hs : skipWhitespace (skipString (q ++ e).tail) = afterString q ++ e :=
      afterString_scanner.uncut (by exact hl.trans h1)
    rw [deref_append hne] at hq
    rw [hs] at hr
    obtain ⟨rest', hr', rfl⟩ := hr.cut hl
    exact ⟨Values.quoted q rest', ⟨rfl, hq, hr'⟩, rfl⟩
  | .group here body rest, q, hv, hl => by
    obtain ⟨rfl, ho, hb, hr⟩ := hv
    have hl : e.length ≤ rest.last.length := hl
    have h1 := hr.suffix.length_le
    have h2 := (afterGroup_scanner.suffix body.last).length_le
    have h3 := hb.suffix.length_le
    have hlt := after_group_lt ho hb
    have hne : q ≠ [] := ne_nil_of_length hlt (hl.trans h1)
    have hi : skipWhitespace (q ++ e).tail = intoGroup q ++ e :=
      intoGroup_scanner.uncut (by exact ((hl.trans h1).trans h2).trans h3)
    rw [deref_append hne] at ho
    rw [hi] at hb
    obtain ⟨body', hb', rfl⟩ := hb.cut ((hl.trans h1).trans h2)
    rw [Entries.lift_last] at hr h1
    have hg : skipWhitespace (closeGroup (body'.last ++ e)) = afterGroup body'.last ++ e :=
      afterGroup_scanner.uncut (by exact hl.trans h1)
    rw [hg] at hr
    obtain ⟨rest', hr', rfl⟩ := hr.cut hl
    exact ⟨Values.group q body' rest', ⟨rfl, ho, hb', hr'⟩, rfl⟩
  | .bare here rest, q, hv, hl => by
    obtain ⟨rfl, h0, hs, hq, ho, hr⟩ := hv
    have hl : e.length ≤ rest.last.length := hl
    have h1 := hr.suffix.length_le
    have hlt := after_lt (skipKey_suffix _) h0
    have hne : q ≠ [] := ne_nil_of_length hlt (hl.trans h1)
    have hb : skipWhitespace (skipKey (q ++ e).tail) = afterBare q ++ e :=
      afterBare_scanner.uncut (by exact hl.trans h1)
    rw [deref_append hne] at h0 hs hq ho
    rw [hb] at hr
    obtain ⟨rest', hr', rfl⟩ := hr.cut hl
    exact ⟨Values.bare q rest', ⟨rfl, h0, hs, hq, ho, hr'⟩, rfl⟩

end

/-! ## Cutting a slice -/

/-- Values end at the terminator or at a `;`. -/
theorem Values.At.stops {v : Values} {s : Text} (h : v.At s) :
    v.last = [] ∨ deref v.last = semicolon := by
  cases v with
  | stop here =>
    obtain ⟨rfl, h⟩ := h
    exact h.imp_left deref_eq_zero.mp
  | quoted name rest => exact h.2.2.stops
  | group name entries rest => exact h.2.2.2.stops
  | bare here rest => exact h.2.2.2.2.2.stops

/-- The entries end inside the text, or at the place where it is cut. -/
def Entries.Fits (e : Text) : Entries → Prop
  | .stop _ => True
  | .entry _ vals rest => Past e vals.last ∧
      entryEnd (vals.last ++ e) = entryEnd vals.last ++ e ∧ rest.Fits e

/-- Entries that end inside the text. -/
theorem Entries.At.fits {e : Text} : ∀ {g : Entries} {s : Text}, g.At s → Past e g.last → g.Fits e
  | .stop _, _, _, _ => trivial
  | .entry key vals rest, s, hg, hp => by
    obtain ⟨-, -, -, -, hr⟩ := hg
    have hp : Past e rest.last := hp
    have h1 := hp.of_suffix hr.suffix
    have h2 : Past e (entryEnd vals.last) := by
      rw [← skipWhitespace_skipNewline] at h1
      exact h1.of_suffix (skipWhitespace_suffix _)
    refine ⟨h2.of_suffix (entryEnd_scanner.suffix _), entryEnd_scanner.extend h2, hr.fits hp⟩

/-- **The group of a device** is read in its slice, up to the terminator. -/
theorem Entries.At.cut_slice {e : Text} : ∀ {g : Entries} {q : Text}, g.At (skipWhitespace (q ++ e)) →
    g.closed (q ++ e) = e → ∃ g' : Entries, g'.At (skipWhitespace q) ∧ g'.closed q = [] ∧
      g'.Fits e ∧ g = (g'.lift e).withLast g.last
  | .stop here, q, hg, he => by
    obtain rfl : q = [] := List.self_eq_append_left.mp (Eq.symm he)
    exact ⟨Entries.stop [], ⟨rfl, Or.inl rfl⟩, rfl, trivial, rfl⟩
  | .entry key vals rest, q, hg, he => by
    obtain ⟨rfl, h0, hb, hv, hr⟩ := hg
    rw [← skipWhitespace_skipNewline] at hr
    have hl : e.length ≤ (entryEnd vals.last).length := he ▸ rest.closed_le hr
    have hlt := closeEntry_lt h0 hv
    have h1 := (skipNewline_suffix (closeEntry vals.last)).length_le
    have h2 := (entryEnd_scanner.suffix vals.last).length_le
    have h3 := hv.suffix.length_le
    have h4 := (afterKey_scanner.suffix (skipWhitespace (q ++ e))).length_le
    have hw : skipWhitespace (q ++ e) = skipWhitespace q ++ e :=
      skipWhitespace_scanner.uncut (((hl.trans h2).trans h3).trans h4)
    rw [hw] at h0 hb hv hlt h3 h4 ⊢
    have hne : skipWhitespace q ≠ [] := ne_nil_of_length hlt (hl.trans h1)
    rw [deref_append hne] at h0 hb
    have hk : skipWhitespace (skipKey (skipWhitespace q ++ e)) = afterKey (skipWhitespace q) ++ e :=
      afterKey_scanner.uncut (by exact (hl.trans h2).trans h3)
    rw [hk] at hv
    have hstop := hv.stops
    obtain ⟨vals', hv', rfl⟩ := hv.cut (hl.trans h2)
    rw [Values.lift_last] at hl hstop
    have hend : entryEnd (vals'.last ++ e) = entryEnd vals'.last ++ e := entryEnd_scanner.uncut hl
    have hr : rest.At (skipWhitespace (entryEnd vals'.last ++ e)) := by
      rw [← hend, ← Values.lift_last]
      exact hr
    have he : rest.closed (entryEnd vals'.last ++ e) = e := by
      rw [← hend, ← Values.lift_last]
      exact he
    have hpast : Past e vals'.last := by
      by_cases hnil : vals'.last = []
      · left
        rw [hnil, List.nil_append] at hstop hend
        refine hstop.resolve_right fun hs => ?_
        -- the `;` would belong to the slice
        rw [entryEnd_scanner.nil, List.nil_append] at hend
        have h1 := (skipNewline_suffix (closeEntry e)).length_le
        have h2 := tail_lt (ne_zero_of_eq (by decide) hs)
        have hlen := congrArg List.length hend
        rw [entryEnd, Function.comp, closeEntry, if_pos hs] at hlen
        rw [closeEntry, if_pos hs] at h1
        omega
      · exact Or.inr hnil
    obtain ⟨rest', hr', hc', hf', hrest⟩ := hr.cut_slice he
    rw [entryEnd_eq] at hr'
    exact ⟨Entries.entry (skipWhitespace q) vals' rest', ⟨rfl, h0, hb, hv', hr'⟩, hc',
      ⟨hpast, hend, hf'⟩, congrArg (Entries.entry _ _) hrest⟩

end LowriscLinux.Config
