import LowriscLinux.Config.Text
import Mathlib.Tactic.SplitIfs

/-!
# What the scanners read: the syntax tree of a config string

`parse_config_string` (`arch/riscv/drivers/config.c`, lines 453-519) and `find_key` (lines 206-246)
walk the same text with separately written loops, and a comment in each asks to keep it in sync with
the other (lines 210 and 459). This file gives both a common meaning: the tree of entries and values
a scanner reads at a position. It is a specification, and translates no function of the source.

## The tree

* `Entries`: the entries of a group, in their order. An entry is a key, its values up to a `;` or
  the terminator, and that `;`.
* `Values`: a value is a quoted string, a group, or bare. A group is read from after its `{` to a
  `}` or the terminator.
* Every node holds the pointer at which its token starts, so keys, values and the places where a
  loop stops (`Entries.last`, `Values.last`) are recovered from the tree alone.
* `Entries.At g s` says that `g` is what is read at `s` (after the leading white space). Malformed
  text has a tree too: a stray `}` among the values is a bare value, a missing key is an empty one,
  and a quote or a brace that is not closed ends at the terminator.

The two loops skip different white space behind a `{` (`skip_newline` and `skip_whitespace`, lines
495 and 211), which leads to the same tree since `At` skips it again.

Results:
* `scan_at`: every text has a tree, computed by `scan`; `Entries.At.unique`: and only one.
* `Entries.At.suffix`, `entry_lt`: a scanner moves forward, and every entry moves it by at least one
  byte.
-/

namespace LowriscLinux.Config

mutual

/-- The entries read up to a `}` or the terminator. -/
inductive Entries
  | stop (here : Text)
  | entry (key : Text) (vals : Values) (rest : Entries)

/-- The values of one entry, up to its `;` or the terminator. -/
inductive Values
  | stop (here : Text)
  | quoted (here : Text) (rest : Values)
  | group (here : Text) (body : Entries) (rest : Values)
  | bare (here : Text) (rest : Values)

end

/-- Where the loop over the entries stops. -/
def Entries.last : Entries → Text
  | .stop here => here
  | .entry _ _ rest => rest.last

/-- Where the loop over the values stops. -/
def Values.last : Values → Text
  | .stop here => here
  | .quoted _ rest => rest.last
  | .group _ _ rest => rest.last
  | .bare _ rest => rest.last

/-- `if (*p == ';') ++p;` -/
def closeEntry (p : Text) : Text := if deref p = semicolon then p.tail else p

/-- `if (*p == '}') ++p;` -/
def closeGroup (p : Text) : Text := if deref p = closeBrace then p.tail else p

mutual

/-- `g` is what the loop over the entries reads from `s` on. -/
def Entries.At : Entries → Text → Prop
  | .stop here, s => here = s ∧ (deref s = 0 ∨ deref s = closeBrace)
  | .entry key vals rest, s => key = s ∧ deref s ≠ 0 ∧ deref s ≠ closeBrace ∧
      vals.At (skipWhitespace (skipKey s)) ∧ rest.At (skipWhitespace (closeEntry vals.last))

/-- `v` is what the loop over the values reads from `s` on. -/
def Values.At : Values → Text → Prop
  | .stop here, s => here = s ∧ (deref s = 0 ∨ deref s = semicolon)
  | .quoted here rest, s => here = s ∧ deref s = quote ∧
      rest.At (skipWhitespace (skipString s.tail))
  | .group here body rest, s => here = s ∧ deref s = openBrace ∧
      body.At (skipWhitespace s.tail) ∧ rest.At (skipWhitespace (closeGroup body.last))
  | .bare here rest, s => here = s ∧ deref s ≠ 0 ∧ deref s ≠ semicolon ∧ deref s ≠ quote ∧
      deref s ≠ openBrace ∧ rest.At (skipWhitespace (skipKey s.tail))

end

/-! ## Scanners move forward -/

theorem closeEntry_suffix (p : Text) : closeEntry p <:+ p := by
  unfold closeEntry
  split_ifs
  · exact List.tail_suffix p
  · exact List.suffix_refl p

theorem closeGroup_suffix (p : Text) : closeGroup p <:+ p := by
  unfold closeGroup
  split_ifs
  · exact List.tail_suffix p
  · exact List.suffix_refl p

mutual

theorem Entries.At.suffix : ∀ {g : Entries} {s : Text}, g.At s → g.last <:+ s
  | .stop _, _, h => h.1 ▸ List.suffix_refl _
  | .entry _ vals rest, s, h => by
    obtain ⟨-, -, -, hv, hr⟩ := h
    have h1 : rest.last <:+ vals.last :=
      (Entries.At.suffix hr).trans ((skipWhitespace_suffix _).trans (closeEntry_suffix _))
    exact (h1.trans (Values.At.suffix hv)).trans
      ((skipWhitespace_suffix _).trans (skipKey_suffix s))

theorem Values.At.suffix : ∀ {v : Values} {s : Text}, v.At s → v.last <:+ s
  | .stop _, _, h => h.1 ▸ List.suffix_refl _
  | .quoted _ rest, s, h =>
    (Values.At.suffix h.2.2).trans ((skipWhitespace_suffix _).trans
      ((skipString_suffix _).trans (List.tail_suffix s)))
  | .group _ body rest, s, h => by
    obtain ⟨-, -, hb, hr⟩ := h
    have h1 : rest.last <:+ body.last :=
      (Values.At.suffix hr).trans ((skipWhitespace_suffix _).trans (closeGroup_suffix _))
    exact (h1.trans (Entries.At.suffix hb)).trans
      ((skipWhitespace_suffix _).trans (List.tail_suffix s))
  | .bare _ rest, s, h =>
    (Values.At.suffix h.2.2.2.2.2).trans ((skipWhitespace_suffix _).trans
      ((skipKey_suffix _).trans (List.tail_suffix s)))

end

theorem tail_lt {s : Text} (h : deref s ≠ 0) : s.tail.length < s.length := by
  cases s with
  | nil => exact absurd rfl h
  | cons c s => simp

/-- Past a value token the text is shorter. -/
theorem after_lt {f : Text → Text} {s : Text} (hf : f s.tail <:+ s.tail) (h : deref s ≠ 0) :
    (skipWhitespace (f s.tail)).length < s.length :=
  Nat.lt_of_le_of_lt ((skipWhitespace_suffix _).trans hf).length_le (tail_lt h)

theorem ne_zero_of_eq {s : Text} {c : UInt8} (hc : c ≠ 0) (h : deref s = c) : deref s ≠ 0 :=
  h ▸ hc

/-- Past a group the text is shorter. -/
theorem after_group_lt {s : Text} {body : Entries} (h : deref s = openBrace)
    (hb : body.At (skipWhitespace s.tail)) :
    (skipWhitespace (closeGroup body.last)).length < s.length := by
  have h1 : closeGroup body.last <:+ s.tail :=
    ((closeGroup_suffix _).trans hb.suffix).trans (skipWhitespace_suffix _)
  exact Nat.lt_of_le_of_lt ((skipWhitespace_suffix _).trans h1).length_le
    (tail_lt (ne_zero_of_eq (by decide) h))

/-- Values that are not empty consume at least one byte. -/
theorem Values.At.last_lt {v : Values} {s : Text} (h : v.At s) (h0 : deref s ≠ 0)
    (hs : deref s ≠ semicolon) : v.last.length < s.length := by
  cases v with
  | stop here => exact absurd h.2 (by simp [h0, hs])
  | quoted here rest =>
    exact Nat.lt_of_le_of_lt h.2.2.suffix.length_le (after_lt (skipString_suffix _) h0)
  | group here body rest =>
    exact Nat.lt_of_le_of_lt h.2.2.2.suffix.length_le (after_group_lt h.2.1 h.2.2.1)
  | bare here rest =>
    exact Nat.lt_of_le_of_lt h.2.2.2.2.2.suffix.length_le (after_lt (skipKey_suffix _) h0)

/-- An entry consumes at least one byte, even when its key is empty. -/
theorem closeEntry_lt {s : Text} {vals : Values} (h0 : deref s ≠ 0)
    (hv : vals.At (skipWhitespace (skipKey s))) : (closeEntry vals.last).length < s.length := by
  have hk : skipWhitespace (skipKey s) <:+ s :=
    (skipWhitespace_suffix _).trans (skipKey_suffix s)
  have he : (closeEntry vals.last).length ≤ vals.last.length := (closeEntry_suffix _).length_le
  rcases Nat.lt_or_ge (skipWhitespace (skipKey s)).length s.length with hlt | hge
  · have := hv.suffix.length_le
    omega
  -- nothing was skipped: the values start where the key would
  · have heq : skipWhitespace (skipKey s) = s := hk.eq_of_length_le hge
    rw [heq] at hv
    by_cases hs : deref s = semicolon
    · have hlast : vals.last = s := by
        cases vals with
        | stop here => exact hv.1
        | quoted here rest => exact absurd (hs.symm.trans hv.2.1) (by decide)
        | group here body rest => exact absurd (hs.symm.trans hv.2.1) (by decide)
        | bare here rest => exact absurd hs hv.2.2.1
      rw [hlast, closeEntry, if_pos hs]
      exact tail_lt h0
    · have := hv.last_lt h0 hs
      omega

theorem entry_lt {s : Text} {vals : Values} (h0 : deref s ≠ 0)
    (hv : vals.At (skipWhitespace (skipKey s))) :
    (skipWhitespace (closeEntry vals.last)).length < s.length :=
  Nat.lt_of_le_of_lt (skipWhitespace_suffix _).length_le (closeEntry_lt h0 hv)

/-! ## The tree of a text -/

mutual

def scanEntries : Nat → Text → Entries
  | 0, s => .stop s
  | n + 1, s =>
    if deref s = 0 ∨ deref s = closeBrace then .stop s
    else
      let vals := scanValues n (skipWhitespace (skipKey s))
      .entry s vals (scanEntries n (skipWhitespace (closeEntry vals.last)))

def scanValues : Nat → Text → Values
  | 0, s => .stop s
  | n + 1, s =>
    if deref s = 0 ∨ deref s = semicolon then .stop s
    else if deref s = quote then .quoted s (scanValues n (skipWhitespace (skipString s.tail)))
    else if deref s = openBrace then
      let body := scanEntries n (skipWhitespace s.tail)
      .group s body (scanValues n (skipWhitespace (closeGroup body.last)))
    else .bare s (scanValues n (skipWhitespace (skipKey s.tail)))

end

/-- The tree of a whole text, its first argument being more than any path of it is deep. -/
def scan (s : Text) : Entries := scanEntries (2 * s.length + 2) (skipWhitespace s)

theorem scan_at_aux : ∀ n : Nat,
    (∀ s, 2 * s.length + 2 ≤ n → (scanEntries n s).At s) ∧
    (∀ s, 2 * s.length + 1 ≤ n → (scanValues n s).At s) := by
  intro n
  induction n with
  | zero => exact ⟨fun s h => absurd h (by omega), fun s h => absurd h (by omega)⟩
  | succ n ih =>
    obtain ⟨ihE, ihV⟩ := ih
    refine ⟨fun s hn => ?_, fun s hn => ?_⟩
    · unfold scanEntries
      split_ifs with hs
      · exact ⟨rfl, hs⟩
      · obtain ⟨h0, hb⟩ := not_or.mp hs
        have hk := ((skipWhitespace_suffix _).trans (skipKey_suffix s)).length_le
        have hv := ihV (skipWhitespace (skipKey s)) (by omega)
        have hlt := entry_lt h0 hv
        exact ⟨rfl, h0, hb, hv, ihE _ (by omega)⟩
    · unfold scanValues
      split_ifs with hs hq hg
      · exact ⟨rfl, hs⟩
      · have hlt := after_lt (skipString_suffix _) (not_or.mp hs).1
        exact ⟨rfl, hq, ihV _ (by omega)⟩
      · have h0 := (not_or.mp hs).1
        have hlt := after_lt (f := id) (List.suffix_refl _) h0
        have hb := ihE (skipWhitespace s.tail) (by simp only [id] at hlt; omega)
        have hlt' := after_group_lt hg hb
        exact ⟨rfl, hg, hb, ihV _ (by omega)⟩
      · obtain ⟨h0, hsc⟩ := not_or.mp hs
        have hlt := after_lt (skipKey_suffix _) h0
        exact ⟨rfl, h0, hsc, hq, hg, ihV _ (by omega)⟩

/-- **Every text has a tree.** -/
theorem scan_at (s : Text) : (scan s).At (skipWhitespace s) := by
  have := (skipWhitespace_suffix s).length_le
  exact (scan_at_aux _).1 _ (by omega)

mutual

/-- **The tree of a text is unique.** -/
theorem Entries.At.unique : ∀ {g g' : Entries} {s : Text}, g.At s → g'.At s → g = g'
  | .stop _, .stop _, _, h, h' => by rw [h.1, h'.1]
  | .stop _, .entry _ _ _, _, h, h' => absurd h.2 (by simp [h'.2.1, h'.2.2.1])
  | .entry _ _ _, .stop _, _, h, h' => absurd h'.2 (by simp [h.2.1, h.2.2.1])
  | .entry _ v r, .entry _ v' r', s, h, h' => by
    have hv : v = v' := Values.At.unique h.2.2.2.1 h'.2.2.2.1
    subst hv
    rw [h.1, h'.1, Entries.At.unique h.2.2.2.2 h'.2.2.2.2]

theorem Values.At.unique : ∀ {v v' : Values} {s : Text}, v.At s → v'.At s → v = v'
  | .stop _, .stop _, _, h, h' => by rw [h.1, h'.1]
  | .quoted _ r, .quoted _ r', _, h, h' => by rw [h.1, h'.1, Values.At.unique h.2.2 h'.2.2]
  | .group _ b r, .group _ b' r', _, h, h' => by
    have hb : b = b' := Entries.At.unique h.2.2.1 h'.2.2.1
    subst hb
    rw [h.1, h'.1, Values.At.unique h.2.2.2 h'.2.2.2]
  | .bare _ r, .bare _ r', _, h, h' => by
    rw [h.1, h'.1, Values.At.unique h.2.2.2.2.2 h'.2.2.2.2.2]
  | .stop _, .quoted _ _, _, h, h' => absurd h.2 (by rw [h'.2.1]; decide)
  | .stop _, .group _ _ _, _, h, h' => absurd h.2 (by rw [h'.2.1]; decide)
  | .stop _, .bare _ _, _, h, h' => absurd h.2 (by simp [h'.2.1, h'.2.2.1])
  | .quoted _ _, .stop _, _, h, h' => absurd h'.2 (by rw [h.2.1]; decide)
  | .quoted _ _, .group _ _ _, _, h, h' => absurd (h.2.1.symm.trans h'.2.1) (by decide)
  | .quoted _ _, .bare _ _, _, h, h' => absurd h.2.1 h'.2.2.2.1
  | .group _ _ _, .stop _, _, h, h' => absurd h'.2 (by rw [h.2.1]; decide)
  | .group _ _ _, .quoted _ _, _, h, h' => absurd (h.2.1.symm.trans h'.2.1) (by decide)
  | .group _ _ _, .bare _ _, _, h, h' => absurd h.2.1 h'.2.2.2.2.1
  | .bare _ _, .stop _, _, h, h' => absurd h'.2 (by simp [h.2.1, h.2.2.1])
  | .bare _ _, .quoted _ _, _, h, h' => absurd h'.2.1 h.2.2.2.1
  | .bare _ _, .group _ _ _, _, h, h' => absurd h'.2.1 h.2.2.2.2.1

end

end LowriscLinux.Config
