import LowriscLinux.Config.Size
import LowriscLinux.Lib.Reading

/-!
# Config strings in memory

The scanners of `Config/Text.lean` and `Config/Literal.lean` (`arch/riscv/drivers/config.c`, lines
45-204) once more, now with pointers that can leave the string: a pointer is an offset from the
start of the string, and memory goes on behind the terminator (`Rom`). Every byte that is read is in
the trace; an operand that `&&` skips is not read. The first argument of a loop bounds it, and is
large enough when it exceeds the length of the string.

## What models what

* `skipWhile`: the loops of `skip_whitespace` and `skip_key` (lines 47 and 68). `skipNewline` and
  `skipString`: lines 52-64. The source reads a byte more than once in a turn; the trace has it
  once.
* `parseDigits`: the loops of `parse_u64_hex` and `parse_u64_dec` (lines 94-101 and 119-126).
* `parseU64`: `parse_u64` with its look-ahead (lines 136 and 141): `str[1]` is read when `str[0]` is
  `0`.
* `quotedChar`: lines 160-169, with the look-ahead at `s[1]`, `s[2]` and `s[3]`. Each is read when
  the one before it is not the terminator.
* `parseString`: lines 184-204. An `int` that has no room for a length (lines 155 and 187) is the
  error `Fault.size`, which a string of 2 GiB excuses (`Rom.Excused`).

`Rom.text` is the list that a pointer stands for in the other modules, and `Rom.Inside` says that a
computation reads nothing behind the terminator and ends as one of lists does.

Results:
* `text_ofText`: every list is what some string in memory stands for.
* `skipWhitespace_inside`, `skipKey_inside`, `skipNewline_inside`, `skipString_inside`: the `skip_*`
  read nothing behind the terminator and return what their counterparts do.
* `parseU64_inside`, `parseString_inside`: so do `parse_u64` and `parse_string`, whose look-ahead
  (`quotedChar_inside`) steps over bytes that are not the terminator.
-/

namespace LowriscLinux.Config

open LowriscLinux.Lib

/-- A NUL-terminated string and the memory behind it. -/
structure Rom where
  /-- The byte at an offset from the start of the string. -/
  byte : Nat → UInt8
  /-- The offset of the terminator. -/
  nul : Nat
  byte_nul : byte nul = 0
  byte_ne : ∀ p < nul, byte p ≠ 0

namespace Rom

variable (rom : Rom)

/-- The rest of the string, as a list. -/
def text (p : Nat) : Text := cstring ((List.range' p (rom.nul - p)).map rom.byte)

/-- `*p`. -/
def read (p : Nat) : Reading Nat Fault UInt8 := Reading.read rom.byte p

/-! ## `skip_*` -/

/-- `while (test(*str)) ++str;` -/
def skipWhile (test : UInt8 → Bool) : Nat → Nat → Reading Nat Fault Nat
  | 0, _ => throw .fuel
  | n + 1, str => do
    let c ← rom.read str
    if test c then skipWhile test n (str + 1) else pure str

def skipWhitespace : Nat → Nat → Reading Nat Fault Nat :=
  rom.skipWhile fun c => c ≠ 0 && c ≤ space

def skipKey : Nat → Nat → Reading Nat Fault Nat := rom.skipWhile isKeyByte

def skipNewline : Nat → Nat → Reading Nat Fault Nat
  | 0, _ => throw .fuel
  | n + 1, str => do
    let c ← rom.read str
    if c ≠ 0 ∧ c ≤ space then
      if c = newline then pure (str + 1) else skipNewline n (str + 1)
    else pure str

def skipString : Nat → Nat → Reading Nat Fault Nat
  | 0, _ => throw .fuel
  | n + 1, str => do
    let c ← rom.read str
    if c ≠ 0 then
      if c = quote then pure (str + 1) else skipString n (str + 1)
    else pure str

/-! ## `parse_u64` -/

/-- The loops of `parse_u64_hex` and `parse_u64_dec`: a digit is pushed unless that overflows. -/
def parseDigits (isDigit : UInt8 → Bool) (overflows : BitVec 64 → Bool)
    (push : BitVec 64 → UInt8 → BitVec 64) :
    Nat → Nat → BitVec 64 → Reading Nat Fault (Nat × BitVec 64)
  | 0, _, _ => throw .fuel
  | n + 1, str, res => do
    let c ← rom.read str
    if c = 0 then pure (str, res)
    else if isDigit c then
      if overflows res then pure (str, res)
      else parseDigits isDigit overflows push n (str + 1) (push res c)
    else if c ≠ underscore then pure (str, res)
    else parseDigits isDigit overflows push n (str + 1) res

def parseU64Hex : Nat → Nat → BitVec 64 → Reading Nat Fault (Nat × BitVec 64) :=
  rom.parseDigits isHex (fun res => (res <<< 4) >>> 4 ≠ res)
    fun res c => (res <<< 4) + BitVec.ofNat 64 (parseHex c)

def parseU64Dec : Nat → Nat → BitVec 64 → Reading Nat Fault (Nat × BitVec 64) :=
  rom.parseDigits isDec (fun res => (res * 10) / 10 ≠ res)
    fun res c => res * 10 + BitVec.ofNat 64 (parseDec c)

def parseU64 (steps str : Nat) : Reading Nat Fault (Nat × BitVec 64) := do
  let sign ← rom.read str
  let str := if sign = dash then str + 1 else str
  let c ← rom.read str
  let x ← (if c = 48 then rom.read (str + 1) else pure 0)
  let r ← (if x = 120 then rom.parseU64Hex steps (str + 2) 0 else rom.parseU64Dec steps str 0)
  pure (r.1, if sign = dash then -r.2 else r.2)

/-! ## `parse_string` -/

/-- The character `*s` of a quoted literal stands for, and how far an escape moves `s`. -/
def quotedChar (c : UInt8) (s : Nat) : Reading Nat Fault (UInt8 × Nat) :=
  if c = backslash then do
    let c1 ← rom.read (s + 1)
    if c1 = 120 then do
      let c2 ← rom.read (s + 2)
      if isHex c2 then do
        let c3 ← rom.read (s + 3)
        if isHex c3 then
          pure (UInt8.ofNat (parseHex c2) <<< 4 + UInt8.ofNat (parseHex c3), 3)
        else pure (UInt8.ofNat (parseHex c2), 2)
      else pure (c, 0)
    else pure (c, 0)
  else pure (c, 0)

/-- The loop of `parse_quoted_string`. -/
def parseQuotedLoop : Nat → Nat → Nat → Reading Nat Fault Stored
  | 0, _, _ => throw .fuel
  | n + 1, s, maxlen => do
    let c ← rom.read s
    if c = 0 ∨ c = quote then pure ⟨0, [], maxlen⟩
    else do
      let ch ← rom.quotedChar c s
      let rest ← parseQuotedLoop n (s + ch.2 + 1) (maxlen - 1)
      pure (.put ch.1 maxlen fun _ => rest)

/-- The loop of `parse_string` over a bare value. -/
def parseBareLoop : Nat → Nat → Nat → Reading Nat Fault Stored
  | 0, _, _ => throw .fuel
  | n + 1, s, maxlen => do
    let c ← rom.read s
    if isKeyByte c then do
      let rest ← parseBareLoop n (s + 1) (maxlen - 1)
      pure (.put c maxlen fun _ => rest)
    else pure ⟨0, [], maxlen⟩

/-- `parse_string`, with `parse_quoted_string`; `out` is an `int`. -/
def parseString (steps str maxlen : Nat) : Reading Nat Fault (Nat × List UInt8) := do
  let c ← rom.read str
  let r ← (if c = quote then rom.parseQuotedLoop steps (str + 1) maxlen
    else rom.parseBareLoop steps str maxlen)
  let out ← Reading.lift (toInt r.finish.1)
  pure (out, r.finish.2)

/-! ## Pointers and lists -/

variable {rom}

theorem text_of_le {p : Nat} (h : rom.nul ≤ p) : rom.text p = [] := by
  rw [text, Nat.sub_eq_zero_of_le h]
  rfl

theorem text_of_lt {p : Nat} (h : p < rom.nul) :
    rom.text p = ⟨rom.byte p, rom.byte_ne p h⟩ :: rom.text (p + 1) := by
  rw [text, show rom.nul - p = rom.nul - (p + 1) + 1 by omega, List.range'_succ, List.map_cons,
    cstring, dif_neg (rom.byte_ne p h)]
  rfl

/-- A pointer into the string is at the terminator or at a byte. -/
theorem text_cases {p : Nat} (h : p ≤ rom.nul) :
    (rom.byte p = 0 ∧ rom.text p = []) ∨
      ∃ c : Byte, p < rom.nul ∧ rom.byte p = c.val ∧ rom.text p = c :: rom.text (p + 1) := by
  rcases Nat.eq_or_lt_of_le h with rfl | hlt
  · exact .inl ⟨rom.byte_nul, text_of_le (Nat.le_refl _)⟩
  · exact .inr ⟨_, hlt, rfl, text_of_lt hlt⟩

@[simp] theorem tail_text (p : Nat) : (rom.text p).tail = rom.text (p + 1) := by
  by_cases h : p < rom.nul
  · rw [text_of_lt h, List.tail_cons]
  · rw [text_of_le (by omega), text_of_le (by omega), List.tail_nil]

@[simp] theorem drop_text (p k : Nat) : (rom.text p).drop k = rom.text (p + k) := by
  induction k with
  | zero => rfl
  | succ k ih => rw [← List.tail_drop, ih, tail_text, Nat.add_assoc]

theorem deref_text {p : Nat} (h : p ≤ rom.nul) : deref (rom.text p) = rom.byte p := by
  rcases text_cases h with ⟨h0, ht⟩ | ⟨c, -, hc, ht⟩
  · rw [ht, h0, deref_nil]
  · rw [ht, hc, deref_cons]

/-- Where a byte is not the terminator, the string goes on. -/
theorem lt_nul {p : Nat} (h : p ≤ rom.nul) (h0 : rom.byte p ≠ 0) : p < rom.nul :=
  Nat.lt_of_le_of_ne h fun he => h0 (he ▸ rom.byte_nul)

theorem length_text (p : Nat) : (rom.text p).length = rom.nul - p := by
  induction h : rom.nul - p generalizing p with
  | zero => rw [text_of_le (by omega), List.length_nil]
  | succ n ih => rw [text_of_lt (by omega), List.length_cons, ih (p + 1) (by omega)]

theorem text_inj {p q : Nat} (hp : p ≤ rom.nul) (hq : q ≤ rom.nul) :
    rom.text p = rom.text q ↔ p = q := by
  refine ⟨fun h => ?_, congrArg _⟩
  have hlen := congrArg List.length h
  rw [length_text, length_text] at hlen
  omega

/-- The bytes between two pointers. -/
theorem between_text {p q : Nat} (hpq : p ≤ q) (hq : q ≤ rom.nul) :
    between (rom.text p) (rom.text q) = (List.range' p (q - p)).map rom.byte := by
  rw [between, length_text, length_text, show rom.nul - p - (rom.nul - q) = q - p by omega]
  induction h : q - p generalizing p with
  | zero => rfl
  | succ n ih =>
    rw [text_of_lt (by omega), List.take_succ_cons, List.map_cons, List.range'_succ,
      List.map_cons, ih (by omega) (by omega)]

/-- The string that holds a list, with terminators behind it. -/
def ofText (s : Text) : Rom where
  byte p := deref (s.drop p)
  nul := s.length
  byte_nul := by rw [List.drop_length, deref_nil]
  byte_ne p hp := by
    rw [ne_eq, deref_eq_zero, List.drop_eq_nil_iff]
    omega

/-- Every list is the rest of a string. -/
theorem text_ofText (s : Text) (p : Nat) : (ofText s).text p = s.drop p := by
  induction h : s.length - p generalizing p with
  | zero =>
    have hle : (ofText s).nul ≤ p := Nat.sub_eq_zero_iff_le.mp h
    rw [text_of_le hle, List.drop_eq_nil_of_le hle]
  | succ n ih =>
    have hlt : p < s.length := by omega
    have hbyte : (ofText s).byte p = s[p].val := by
      show deref (s.drop p) = _
      rw [List.drop_eq_getElem_cons hlt, deref_cons]
    have htext := text_of_lt (show p < (ofText s).nul from hlt)
    rw [htext, ih (p + 1) (by omega), List.drop_eq_getElem_cons hlt]
    exact congrArg (· :: _) (Subtype.ext hbyte)

variable (rom)

/-- The pointer is in the string, and stands for this list. -/
structure At (p : Nat) (s : Text) : Prop where
  le : p ≤ rom.nul
  text : rom.text p = s

/-- An error that says that the string is too long for an `int`. -/
def Excused (e : Fault) : Prop := e = .size ∧ 2 ^ 31 ≤ rom.nul + 1

/-- The computation reads nothing behind the terminator and ends as `x` does, but for errors in
`E`. -/
abbrev Inside {α β : Type} (E : Fault → Prop) (R : α → β → Prop) (m : Reading Nat Fault α)
    (x : Except Fault β) : Prop :=
  Refines (· ≤ rom.nul) E R m x

variable {rom} {α β : Type} {R : α → β → Prop} {E : Fault → Prop}

theorem at_text {p : Nat} (h : p ≤ rom.nul) : rom.At p (rom.text p) := ⟨h, rfl⟩

theorem at_next {p : Nat} (h : p < rom.nul) : rom.At (p + 1) (rom.text p).tail :=
  ⟨h, (tail_text p).symm⟩

/-- A later pointer stands for a suffix, and a suffix for a later pointer. -/
theorem At.le_of_suffix {p q : Nat} {s t : Text} (hp : rom.At p s) (hq : rom.At q t)
    (h : t <:+ s) : p ≤ q := by
  have hlen := h.length_le
  have hp' := hp.le
  rw [← hp.text, ← hq.text, length_text, length_text] at hlen
  have := hq.le
  omega

/-- Pointers are compared as what they stand for. -/
theorem At.eq_iff {p q : Nat} {s t : Text} (hp : rom.At p s) (hq : rom.At q t) :
    p = q ↔ s = t := by
  rw [← hp.text, ← hq.text, text_inj hp.le hq.le]

/-- **A read in the string** goes on with the byte there. -/
theorem read_bind {p : Nat} {s : Text} {f : UInt8 → Reading Nat Fault α} {x : Except Fault β}
    (hp : rom.At p s) (hf : rom.Inside E R (f (deref s)) x) :
    rom.Inside E R (rom.read p >>= f) x := by
  refine .read_bind hp.le ?_
  rwa [← deref_text hp.le, hp.text]

/-! ## `skip_*` refine the scanners of lists -/

theorem skipWhile_inside (test : UInt8 → Bool) (h0 : test 0 = false) : ∀ {n p : Nat},
    p ≤ rom.nul → rom.nul < n + p →
    rom.Inside E rom.At (rom.skipWhile test n p)
      (.ok ((rom.text p).dropWhile fun c => test c.val))
  | 0, _, hp, hn => absurd hp (by omega)
  | n + 1, p, hp, hn => by
    refine read_bind (at_text hp) ?_
    rcases text_cases hp with ⟨-, ht⟩ | ⟨c, hlt, -, ht⟩
    · rw [ht, deref_nil, h0, List.dropWhile_nil]
      exact .pure ⟨hp, ht⟩
    · rw [ht, deref_cons, List.dropWhile_cons]
      cases test c.val with
      | true => exact skipWhile_inside test h0 hlt (by omega)
      | false => exact .pure ⟨hp, ht⟩

variable {steps p : Nat} {s : Text}

theorem skipWhitespace_inside (hp : rom.At p s) (hn : rom.nul < steps) :
    rom.Inside E rom.At (rom.skipWhitespace steps p) (.ok (Config.skipWhitespace s)) := by
  have h := skipWhile_inside (E := E) (fun c => c ≠ 0 && c ≤ space) rfl hp.le
    (by omega : rom.nul < steps + p)
  have htest : (fun c : Byte => c.val ≠ 0 && decide (c.val ≤ space)) =
      fun c => decide (c.val ≤ space) :=
    funext fun c => by simp [c.property]
  simp only [htest, hp.text] at h
  exact h

theorem skipKey_inside (hp : rom.At p s) (hn : rom.nul < steps) :
    rom.Inside E rom.At (rom.skipKey steps p) (.ok (Config.skipKey s)) := by
  have h := skipWhile_inside (E := E) isKeyByte rfl hp.le (by omega : rom.nul < steps + p)
  rw [hp.text] at h
  exact h

theorem skipNewline_loop : ∀ {n p : Nat}, p ≤ rom.nul → rom.nul < n + p →
    rom.Inside E rom.At (rom.skipNewline n p) (.ok (Config.skipNewline (rom.text p)))
  | 0, _, hp, hn => absurd hp (by omega)
  | n + 1, p, hp, hn => by
    refine read_bind (at_text hp) ?_
    rcases text_cases hp with ⟨-, ht⟩ | ⟨c, hlt, -, ht⟩
    · rw [ht]
      exact .pure ⟨hp, ht⟩
    · rw [ht, deref_cons, Config.skipNewline]
      by_cases hc : c.val ≤ space
      · rw [if_pos ⟨c.property, hc⟩, if_pos hc]
        split_ifs
        · exact .pure (at_text hlt)
        · exact skipNewline_loop hlt (by omega)
      · rw [if_neg fun h => hc h.2, if_neg hc]
        exact .pure ⟨hp, ht⟩

theorem skipNewline_inside (hp : rom.At p s) (hn : rom.nul < steps) :
    rom.Inside E rom.At (rom.skipNewline steps p) (.ok (Config.skipNewline s)) := by
  rw [← hp.text]
  exact skipNewline_loop hp.le (by omega)

theorem skipString_loop : ∀ {n p : Nat}, p ≤ rom.nul → rom.nul < n + p →
    rom.Inside E rom.At (rom.skipString n p) (.ok (Config.skipString (rom.text p)))
  | 0, _, hp, hn => absurd hp (by omega)
  | n + 1, p, hp, hn => by
    refine read_bind (at_text hp) ?_
    rcases text_cases hp with ⟨-, ht⟩ | ⟨c, hlt, -, ht⟩
    · rw [ht]
      exact .pure ⟨hp, ht⟩
    · rw [ht, deref_cons, if_pos c.property, Config.skipString]
      split_ifs
      · exact .pure (at_text hlt)
      · exact skipString_loop hlt (by omega)

theorem skipString_inside (hp : rom.At p s) (hn : rom.nul < steps) :
    rom.Inside E rom.At (rom.skipString steps p) (.ok (Config.skipString s)) := by
  rw [← hp.text]
  exact skipString_loop hp.le (by omega)

/-! ## `parse_u64` refines `parseU64` -/

/-- The pointer and the number that `parse_u64` leaves. -/
def Parsed (rom : Rom) (a : Nat × BitVec 64) (b : Text × BitVec 64) : Prop :=
  rom.At a.1 b.1 ∧ a.2 = b.2

/-- A loop over lists that takes digits as `parseDigits` does is refined by it. -/
theorem parseDigits_inside {isDigit : UInt8 → Bool} {overflows : BitVec 64 → Bool}
    {push : BitVec 64 → UInt8 → BitVec 64} (digits : Text → BitVec 64 → Text × BitVec 64)
    (hnil : ∀ res, digits [] res = ([], res))
    (hcons : ∀ (c : Byte) str res, digits (c :: str) res =
      if isDigit c.val then
        if overflows res then (c :: str, res) else digits str (push res c.val)
      else if c.val ≠ underscore then (c :: str, res) else digits str res) :
    ∀ {n p : Nat} (res : BitVec 64), p ≤ rom.nul → rom.nul < n + p →
    rom.Inside E rom.Parsed (rom.parseDigits isDigit overflows push n p res)
      (.ok (digits (rom.text p) res))
  | 0, _, _, hp, hn => absurd hp (by omega)
  | n + 1, p, res, hp, hn => by
    refine read_bind (at_text hp) ?_
    rcases text_cases hp with ⟨-, ht⟩ | ⟨c, hlt, -, ht⟩
    · rw [ht, deref_nil, if_pos rfl, hnil]
      exact .pure ⟨⟨hp, ht⟩, rfl⟩
    · rw [ht, deref_cons, if_neg c.property, hcons]
      split_ifs
      · exact .pure ⟨⟨hp, ht⟩, rfl⟩
      · exact parseDigits_inside digits hnil hcons _ hlt (by omega)
      · exact .pure ⟨⟨hp, ht⟩, rfl⟩
      · exact parseDigits_inside digits hnil hcons _ hlt (by omega)

theorem parseU64Hex_inside (hp : p ≤ rom.nul) (hn : rom.nul < steps) :
    rom.Inside E rom.Parsed (rom.parseU64Hex steps p 0) (.ok (Config.parseU64Hex (rom.text p) 0)) :=
  parseDigits_inside Config.parseU64Hex (fun _ => rfl)
    (fun c str res => by simp only [Config.parseU64Hex, decide_eq_true_eq]) 0 hp (by omega)

theorem parseU64Dec_inside (hp : p ≤ rom.nul) (hn : rom.nul < steps) :
    rom.Inside E rom.Parsed (rom.parseU64Dec steps p 0) (.ok (Config.parseU64Dec (rom.text p) 0)) :=
  parseDigits_inside Config.parseU64Dec (fun _ => rfl)
    (fun c str res => by simp only [Config.parseU64Dec, decide_eq_true_eq]) 0 hp (by omega)

/-- Where a byte is one that is not the terminator, the next pointer is in the string. -/
theorem next_le {c : UInt8} (hp : p ≤ rom.nul) (hc : deref (rom.text p) = c) (h0 : c ≠ 0) :
    p + 1 ≤ rom.nul :=
  lt_nul hp fun h => h0 (by rw [← hc, deref_text hp, h])

theorem parseU64_inside (hp : rom.At p s) (hn : rom.nul < steps) :
    rom.Inside E rom.Parsed (rom.parseU64 steps p) (.ok (Config.parseU64 s)) := by
  obtain ⟨hp, rfl⟩ := hp
  refine read_bind (at_text hp) ?_
  -- the pointer behind the sign
  obtain ⟨q, hq, hqt⟩ : ∃ q, (if deref (rom.text p) = dash then p + 1 else p) = q ∧
      rom.At q (if deref (rom.text p) = dash then (rom.text p).tail else rom.text p) := by
    refine ⟨_, rfl, ?_⟩
    split_ifs with hd
    · exact at_next (next_le hp hd (by decide))
    · exact at_text hp
  rw [Config.parseU64]
  simp only [hq, ← hqt.text]
  have hq := hqt.le
  refine read_bind (at_text hq) ?_
  by_cases h0 : deref (rom.text q) = 48
  · have hx := next_le hq h0 (by decide)
    rw [if_pos h0]
    refine read_bind (at_text hx) ?_
    by_cases hhex : deref (rom.text (q + 1)) = 120
    · rw [if_pos hhex, if_pos ⟨h0, by rwa [tail_text]⟩, drop_text]
      refine (parseU64Hex_inside (next_le hx hhex (by decide)) hn).bind_ok fun r hr => ?_
      exact .pure ⟨hr.1, by rw [hr.2]⟩
    · rw [if_neg hhex, if_neg fun h => hhex (by rw [← tail_text]; exact h.2)]
      refine (parseU64Dec_inside hq hn).bind_ok fun r hr => ?_
      exact .pure ⟨hr.1, by rw [hr.2]⟩
  · rw [if_neg h0, Reading.pure_bind, if_neg (by decide), if_neg fun h => h0 h.1]
    refine (parseU64Dec_inside hq hn).bind_ok fun r hr => ?_
    exact .pure ⟨hr.1, by rw [hr.2]⟩

/-! ## `parse_string` refines `parseString` -/

/-- **The look-ahead stays in the string**: every byte of an escape is one that is not the
terminator. -/
theorem quotedChar_inside {c : Byte} (hp : p < rom.nul) :
    rom.Inside E (fun a b => a = b ∧ p + a.2 + 1 ≤ rom.nul) (rom.quotedChar c.val p)
      (.ok (Config.quotedChar c (rom.text (p + 1)))) := by
  rw [quotedChar, Config.quotedChar]
  by_cases h0 : c.val = backslash
  swap
  · rw [if_neg h0, if_neg fun h => h0 h.1]
    exact .pure ⟨rfl, hp⟩
  rw [if_pos h0, tail_text, tail_text]
  refine read_bind (at_text hp) ?_
  by_cases h1 : deref (rom.text (p + 1)) = 120
  swap
  · rw [if_neg h1, if_neg fun h => h1 h.2.1]
    exact .pure ⟨rfl, hp⟩
  have hp2 := next_le hp h1 (by decide)
  rw [if_pos h1]
  refine read_bind (at_text hp2) ?_
  by_cases h2 : isHex (deref (rom.text (p + 1 + 1))) = true
  swap
  · rw [if_neg h2, if_neg fun h => h2 h.2.2]
    exact .pure ⟨rfl, hp⟩
  have hp3 := next_le hp2 rfl fun h => by rw [h] at h2; cases h2
  rw [if_pos h2, if_pos ⟨h0, h1, h2⟩]
  refine read_bind (at_text hp3) ?_
  by_cases h3 : isHex (deref (rom.text (p + 1 + 1 + 1))) = true
  · have hp4 := next_le hp3 rfl fun h => by rw [h] at h3; cases h3
    rw [if_pos h3, if_pos h3]
    exact .pure ⟨rfl, hp4⟩
  · rw [if_neg h3, if_neg h3]
    exact .pure ⟨rfl, hp3⟩

/-- The bytes of an escape still to step over are dropped. -/
theorem parseQuotedLoop_drop : ∀ (s : Text) (skip maxlen : Nat),
    Config.parseQuotedLoop s skip maxlen = Config.parseQuotedLoop (s.drop skip) 0 maxlen
  | [], skip, _ => by rw [List.drop_nil]; cases skip <;> rfl
  | _ :: _, 0, _ => rfl
  | _ :: s, skip + 1, maxlen => parseQuotedLoop_drop s skip maxlen

theorem parseQuotedLoop_inside : ∀ {n p : Nat} (maxlen : Nat), p ≤ rom.nul → rom.nul < n + p →
    rom.Inside E Eq (rom.parseQuotedLoop n p maxlen)
      (.ok (Config.parseQuotedLoop (rom.text p) 0 maxlen))
  | 0, _, _, hp, hn => absurd hp (by omega)
  | n + 1, p, maxlen, hp, hn => by
    refine read_bind (at_text hp) ?_
    rcases text_cases hp with ⟨-, ht⟩ | ⟨c, hlt, -, ht⟩
    · rw [ht, deref_nil, if_pos (.inl rfl)]
      exact .pure rfl
    · rw [ht, deref_cons, Config.parseQuotedLoop]
      by_cases hq : c.val = quote
      · rw [if_pos (.inr hq), if_pos hq]
        exact .pure rfl
      · rw [if_neg (by simp [c.property, hq]), if_neg hq]
        refine (quotedChar_inside hlt).bind_ok fun ch hch => ?_
        refine (parseQuotedLoop_inside _ hch.2 (by omega)).bind_ok fun rest hrest => ?_
        refine .pure ?_
        rw [hrest, ← hch.1, Stored.put, Stored.put, parseQuotedLoop_drop _ ch.2, drop_text,
          Nat.add_right_comm]

theorem parseBareLoop_inside : ∀ {n p : Nat} (maxlen : Nat), p ≤ rom.nul → rom.nul < n + p →
    rom.Inside E Eq (rom.parseBareLoop n p maxlen)
      (.ok (Config.parseBareLoop (rom.text p) maxlen))
  | 0, _, _, hp, hn => absurd hp (by omega)
  | n + 1, p, maxlen, hp, hn => by
    refine read_bind (at_text hp) ?_
    rcases text_cases hp with ⟨-, ht⟩ | ⟨c, hlt, -, ht⟩
    · rw [ht]
      exact .pure rfl
    · rw [ht, deref_cons, Config.parseBareLoop]
      split_ifs
      · refine (parseBareLoop_inside _ hlt (by omega)).bind_ok fun rest hrest => ?_
        exact .pure (by rw [hrest]; rfl)
      · exact .pure rfl

/-- A value is no longer than the text. -/
theorem decodeString_length_le (s : Text) : (decodeString s).length ≤ s.length := by
  by_cases hq : deref s = quote
  · have := decodeString_length_quoted hq
    omega
  · rw [decodeString, if_neg hq, List.length_map]
    have := takeWhile_skipKey s
    omega

/-- An `int` holds what the string is long enough for, or the string is too long. -/
theorem toInt_inside {n : Nat} (h : n ≤ rom.nul + 1) :
    rom.Inside rom.Excused Eq (Reading.lift (toInt n)) (.ok n) := by
  unfold toInt
  split_ifs with hn
  · exact .pure rfl
  · exact .excused ⟨rfl, by omega⟩

theorem parseString_inside (hp : rom.At p s) (hn : rom.nul < steps) (maxlen : Nat) :
    rom.Inside rom.Excused Eq (rom.parseString steps p maxlen)
      (.ok (Config.parseString s maxlen)) := by
  obtain ⟨hp, rfl⟩ := hp
  have hlen : (Config.parseString (rom.text p) maxlen).1 ≤ rom.nul + 1 := by
    have := decodeString_length_le (rom.text p)
    rw [length_text] at this
    rw [parseString_eq]
    simp only
    omega
  refine read_bind (at_text hp) ?_
  rw [Config.parseString] at hlen ⊢
  split_ifs at hlen ⊢ with hq
  · rw [tail_text] at hlen ⊢
    have hq := next_le hp hq (by decide)
    refine (parseQuotedLoop_inside maxlen hq (by omega)).bind_ok fun r hr => ?_
    subst hr
    exact (toInt_inside hlen).bind_ok fun out hout => .pure (by rw [hout]; rfl)
  · refine (parseBareLoop_inside maxlen hp (by omega)).bind_ok fun r hr => ?_
    subst hr
    exact (toInt_inside hlen).bind_ok fun out hout => .pure (by rw [hout])

end Rom

end LowriscLinux.Config
