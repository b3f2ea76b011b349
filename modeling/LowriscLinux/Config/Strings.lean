import LowriscLinux.Config.Literal

/-!
# The value of a string literal

What the strings that `parse_string` of `Config/Literal.lean` (`arch/riscv/drivers/config.c`, lines
152-204) decodes denote, and where it stops.

## What models what

* `Decodes` gives the value of a quoted literal by rules over its text: an escape is `\x` and one or
  two hexadecimal digits, as many as there are (lines 160-166), and every other character stands for
  itself (line 168). A backslash before anything else is one of these.
* `IsValue` adds the bare literal (line 192), which is its own value up to the end of the key bytes.
* `stringStop` is the pointer `s` that the loops of `parse_quoted_string` and `parse_string` leave
  (`quotedStop`, `bareStop`); it does not depend on `maxlen`. The source does not return it: the
  scanners skip a value with `skip_string` or `skip_key` (lines 493 and 506), and have to end at the
  same place.
* `escape` writes a string as `\x` escapes of two digits.

Results:
* `decodes_iff`: the loop of `parse_quoted_string` is the only way to read the rules.
* `Decodes.skipString_eq`: it stops where `skip_string` does, which knows no escapes.
* `decodes_escape`: a string that is written as `\x` escapes is decoded to itself.
* **`parseString_exact`**: `parse_string` returns the length of the value and one, stores what fits
  of the value and its terminator, and ends where `skip_string` and `skip_key` do.

Lengths are natural numbers: `int` has room for those of texts below 2 GiB.
-/

namespace LowriscLinux.Config

/-! ## Values -/

def quoteChar : Byte := ⟨quote, by decide⟩

def backslashChar : Byte := ⟨backslash, by decide⟩

/-- The letter `x`. -/
def xChar : Byte := ⟨120, by decide⟩

/-- The digits, lower or upper case. -/
def hexDigit (upper : Bool) (n : Fin 16) : Byte :=
  if h : n < 10 then ⟨48 + n.val.toUInt8, by revert h; revert n; decide⟩
  else if upper then ⟨55 + n.val.toUInt8, by revert h; revert n; decide⟩
  else ⟨87 + n.val.toUInt8, by revert h; revert n; decide⟩

/-- A hexadecimal digit comes next. -/
def HexNext (s : Text) : Prop := ∃ upper n t, s = hexDigit upper n :: t

/-- An escape comes next. -/
def EscapeNext (s : Text) : Prop := ∃ t, s = backslashChar :: xChar :: t ∧ HexNext t

/-- The value of a quoted literal, from behind its opening quote, and the text from its closing
quote or the terminator on. -/
inductive Decodes : Text → List UInt8 → Text → Prop
  | stop {s : Text} (h : deref s = 0 ∨ deref s = quote) : Decodes s [] s
  | two {s stop : Text} {value : List UInt8} (upper upper' : Bool) (n m : Fin 16)
      (rest : Decodes s value stop) :
      Decodes (backslashChar :: xChar :: hexDigit upper n :: hexDigit upper' m :: s)
        (UInt8.ofNat (16 * n + m) :: value) stop
  | one {s stop : Text} {value : List UInt8} (upper : Bool) (n : Fin 16) (h : ¬ HexNext s)
      (rest : Decodes s value stop) :
      Decodes (backslashChar :: xChar :: hexDigit upper n :: s) (UInt8.ofNat n :: value) stop
  | plain {c : Byte} {s stop : Text} {value : List UInt8} (hc : c.val ≠ quote)
      (h : ¬ EscapeNext (c :: s)) (rest : Decodes s value stop) :
      Decodes (c :: s) (c.val :: value) stop

/-- The value of a literal and the text behind it: behind a quote the decoded text up to the
closing quote, else the longest run of key characters. -/
def IsValue (str : Text) (value : List UInt8) (stop : Text) : Prop :=
  if deref str = quote then Decodes str.tail value stop
  else ∃ p : Text, str = p ++ stop ∧ p.map Subtype.val = value ∧
    (∀ c ∈ p, isKeyByte c.val = true) ∧ ∀ c t, stop = c :: t → isKeyByte c.val = false

/-! ## Where the loops stop -/

/-- `s` behind the loop of `parse_quoted_string`, with the bytes of an escape to step over. -/
def quotedStop : Text → Nat → Text
  | [], _ => []
  | _ :: s, skip + 1 => quotedStop s skip
  | c :: s, 0 => if c.val = quote then c :: s else quotedStop s (quotedChar c s).2

/-- `s` behind the loop of `parse_string`. -/
def bareStop : Text → Text
  | [] => []
  | c :: s => if isKeyByte c.val then bareStop s else c :: s

/-- `s` where `parse_string` returns. -/
def stringStop (str : Text) : Text :=
  if deref str = quote then quotedStop str.tail 0 else bareStop str

/-! ## Escapes -/

/-- A byte as an escape of two digits. -/
def escapeByte (upper : Bool) (b : UInt8) : Text :=
  [backslashChar, xChar, hexDigit upper ⟨b.toNat / 16, by have := b.toNat_lt; omega⟩,
    hexDigit upper ⟨b.toNat % 16, by omega⟩]

/-- A byte string as a quoted literal of escapes. -/
def escape (upper : Bool) (bytes : List UInt8) : Text :=
  quoteChar :: (bytes.flatMap (escapeByte upper) ++ [quoteChar])

/-! ## Digits -/

theorem isHex_hexDigit (upper : Bool) (n : Fin 16) : isHex (hexDigit upper n).val = true := by
  cases upper <;> revert n <;> decide

theorem parseHex_hexDigit (upper : Bool) (n : Fin 16) : parseHex (hexDigit upper n).val = n := by
  cases upper <;> revert n <;> decide

/-- `is_hex` knows the digits. -/
theorem exists_hexDigit {c : Byte} (h : isHex c.val = true) : ∃ upper n, c = hexDigit upper n := by
  have all : ∀ b : Fin 256, isHex (UInt8.ofNat b) = true →
      ∃ upper n, UInt8.ofNat b = (hexDigit upper n).val := by decide +kernel
  have hb : UInt8.ofNat c.val.toNat = c.val := UInt8.ofNat_toNat
  obtain ⟨upper, n, hn⟩ := all ⟨c.val.toNat, c.val.toNat_lt⟩ (hb.symm ▸ h)
  exact ⟨upper, n, Subtype.ext (hb.symm.trans hn)⟩

theorem hexNext_iff {s : Text} : HexNext s ↔ isHex (deref s) = true := by
  constructor
  · rintro ⟨upper, n, t, rfl⟩
    exact isHex_hexDigit upper n
  · intro h
    cases s with
    | nil => exact absurd h (by decide)
    | cons c t =>
      obtain ⟨upper, n, rfl⟩ := exists_hexDigit h
      exact ⟨upper, n, t, rfl⟩

/-! ## One character -/

section Char

variable {c : Byte} {s t : Text}

theorem hexDigit_ne_quote (upper : Bool) (n : Fin 16) : (hexDigit upper n).val ≠ quote := by
  cases upper <;> revert n <;> decide

theorem quotedChar_two (upper upper' : Bool) (n m : Fin 16) :
    quotedChar backslashChar (xChar :: hexDigit upper n :: hexDigit upper' m :: t) =
      (UInt8.ofNat (16 * n + m), 3) := by
  have hvalue : UInt8.ofNat n.val <<< 4 + UInt8.ofNat m.val = UInt8.ofNat (16 * n.val + m.val) := by
    revert n m
    decide +kernel
  simp [quotedChar, isHex_hexDigit, parseHex_hexDigit, hvalue, backslashChar, xChar]

theorem quotedChar_one (upper : Bool) (n : Fin 16) (h : ¬ HexNext t) :
    quotedChar backslashChar (xChar :: hexDigit upper n :: t) = (UInt8.ofNat n, 2) := by
  rw [hexNext_iff] at h
  simp [quotedChar, isHex_hexDigit, parseHex_hexDigit, h, backslashChar, xChar]

theorem quotedChar_plain (h : ¬ EscapeNext (c :: s)) : quotedChar c s = (c.val, 0) := by
  refine if_neg ?_
  rintro ⟨hc, hx, hhex⟩
  cases s with
  | nil => exact absurd hx (by decide)
  | cons x t =>
    have hbackslash : c = backslashChar := Subtype.ext hc
    have hletter : x = xChar := Subtype.ext hx
    exact h ⟨t, by rw [hbackslash, hletter], hexNext_iff.mpr hhex⟩

end Char

/-! ## The loop and the rules -/

/-- Stepping over an escape is dropping it. -/
theorem decodeQuoted_skip : ∀ (skip : Nat) (s : Text),
    decodeQuoted s skip = decodeQuoted (s.drop skip) 0
  | 0, _ => rfl
  | _ + 1, [] => rfl
  | skip + 1, _ :: s => decodeQuoted_skip skip s

theorem quotedStop_skip : ∀ (skip : Nat) (s : Text),
    quotedStop s skip = quotedStop (s.drop skip) 0
  | 0, _ => rfl
  | _ + 1, [] => rfl
  | skip + 1, _ :: s => quotedStop_skip skip s

/-- Behind a character that is not the closing quote, the loop goes on. -/
theorem decodeQuoted_cons {c : Byte} {s : Text} (hc : c.val ≠ quote) :
    decodeQuoted (c :: s) 0 =
      (quotedChar c s).1 :: decodeQuoted (s.drop (quotedChar c s).2) 0 := by
  rw [decodeQuoted, if_neg hc, decodeQuoted_skip]

theorem quotedStop_cons {c : Byte} {s : Text} (hc : c.val ≠ quote) :
    quotedStop (c :: s) 0 = quotedStop (s.drop (quotedChar c s).2) 0 := by
  rw [quotedStop, if_neg hc, quotedStop_skip]

theorem decodes_decodeQuoted (s : Text) : Decodes s (decodeQuoted s 0) (quotedStop s 0) := by
  induction hlen : s.length using Nat.strong_induction_on generalizing s with
  | _ len ih =>
    cases s with
    | nil => exact .stop (Or.inl rfl)
    | cons c s =>
      by_cases hc : c.val = quote
      · rw [decodeQuoted, quotedStop, if_pos hc, if_pos hc]
        exact .stop (Or.inr hc)
      have hrest : ∀ t : Text, t.length ≤ s.length →
          Decodes t (decodeQuoted t 0) (quotedStop t 0) := fun t ht =>
        ih t.length (by rw [← hlen, List.length_cons]; omega) t rfl
      rw [decodeQuoted_cons hc, quotedStop_cons hc]
      by_cases hesc : EscapeNext (c :: s)
      · obtain ⟨_, heq, upper, n, t, rfl⟩ := hesc
        obtain ⟨rfl, rfl⟩ := List.cons.inj heq
        by_cases hnext : HexNext t
        · obtain ⟨upper', m, t, rfl⟩ := hnext
          rw [quotedChar_two]
          exact .two upper upper' n m (hrest t (by simp only [List.length_cons]; omega))
        · rw [quotedChar_one upper n hnext]
          exact .one upper n hnext (hrest t (by simp only [List.length_cons]; omega))
      · rw [quotedChar_plain hesc]
        exact .plain hc hesc (hrest s le_rfl)

/-- **The loop of `parse_quoted_string` is the only way to read the rules.** -/
theorem decodes_iff {s stop : Text} {value : List UInt8} :
    Decodes s value stop ↔ decodeQuoted s 0 = value ∧ quotedStop s 0 = stop := by
  constructor
  · intro h
    induction h with
    | stop h =>
      rename_i s
      cases s with
      | nil => exact ⟨rfl, rfl⟩
      | cons c s =>
        have hc : c.val = quote := h.resolve_left c.property
        exact ⟨if_pos hc, if_pos hc⟩
    | two upper upper' n m _ ih =>
      rw [decodeQuoted_cons (by decide), quotedStop_cons (by decide), quotedChar_two]
      exact ⟨congrArg _ ih.1, ih.2⟩
    | one upper n h _ ih =>
      rw [decodeQuoted_cons (by decide), quotedStop_cons (by decide), quotedChar_one upper n h]
      exact ⟨congrArg _ ih.1, ih.2⟩
    | plain hc h _ ih =>
      rw [decodeQuoted_cons hc, quotedStop_cons hc, quotedChar_plain h]
      exact ⟨congrArg _ ih.1, ih.2⟩
  · rintro ⟨rfl, rfl⟩
    exact decodes_decodeQuoted s

/-! ## The other scanners -/

/-- `skip_string` ends behind the quote at which a quoted literal does. -/
theorem Decodes.skipString_eq {s stop : Text} {value : List UInt8} (h : Decodes s value stop) :
    skipString s = stop.tail := by
  have hdigit : ∀ upper n (t : Text), skipString (hexDigit upper n :: t) = skipString t :=
    fun upper n _ => if_neg (hexDigit_ne_quote upper n)
  have hescape : ∀ t : Text, skipString (backslashChar :: xChar :: t) = skipString t := fun _ => rfl
  induction h with
  | stop h =>
    rename_i s
    cases s with
    | nil => rfl
    | cons c s => exact if_pos (h.resolve_left c.property)
  | two upper upper' n m _ ih => rw [hescape, hdigit, hdigit, ih]
  | one upper n _ _ ih => rw [hescape, hdigit, ih]
  | plain hc _ _ ih => exact (if_neg hc).trans ih

theorem Decodes.deref_stop {s stop : Text} {value : List UInt8} (h : Decodes s value stop) :
    deref stop = 0 ∨ deref stop = quote := by
  induction h with
  | stop h => exact h
  | two _ _ _ _ _ ih => exact ih
  | one _ _ _ _ ih => exact ih
  | plain _ _ _ ih => exact ih

theorem bareStop_eq : ∀ s : Text, bareStop s = skipKey s
  | [] => rfl
  | c :: s => by
    rw [bareStop, skipKey, List.dropWhile_cons, bareStop_eq s, skipKey]

/-- `parse_string` decodes the value of a literal. -/
theorem isValue_decodeString (str : Text) : IsValue str (decodeString str) (stringStop str) := by
  unfold IsValue decodeString stringStop
  split_ifs with hquote
  · exact decodes_decodeQuoted _
  · refine ⟨str.takeWhile fun c => isKeyByte c.val, ?_, rfl, ?_, ?_⟩
    · rw [bareStop_eq, skipKey, List.takeWhile_append_dropWhile]
    · intro c hc
      exact List.mem_takeWhile_imp (p := fun c : Byte => isKeyByte c.val) hc
    · intro c t hstop
      rw [bareStop_eq, skipKey] at hstop
      have hhead := List.head?_dropWhile_not (fun c : Byte => isKeyByte c.val) str
      rw [hstop] at hhead
      simpa using hhead

/-! ## Escaped strings -/

theorem decodes_escape (upper : Bool) (bytes : List UInt8) (rest : Text) :
    Decodes (bytes.flatMap (escapeByte upper) ++ quoteChar :: rest) bytes (quoteChar :: rest) := by
  induction bytes with
  | nil => exact .stop (Or.inr rfl)
  | cons b bytes ih =>
    have hvalue : UInt8.ofNat (16 * (b.toNat / 16) + b.toNat % 16) = b := by
      rw [Nat.div_add_mod]
      exact UInt8.ofNat_toNat
    have h := Decodes.two upper upper ⟨b.toNat / 16, by have := b.toNat_lt; omega⟩
      ⟨b.toNat % 16, by omega⟩ ih
    rw [hvalue] at h
    rw [List.flatMap_cons, List.append_assoc]
    exact h

theorem parseString_escape (upper : Bool) (bytes : List UInt8) (rest : Text) (maxlen : Nat) :
    parseString (escape upper bytes ++ rest) maxlen =
      (bytes.length + 1, (bytes ++ [0]).take maxlen) := by
  have hvalue : decodeString (escape upper bytes ++ rest) = bytes := by
    have htail : (escape upper bytes ++ rest).tail =
        bytes.flatMap (escapeByte upper) ++ quoteChar :: rest := by
      rw [escape, List.cons_append, List.tail_cons, List.append_assoc, List.singleton_append]
    have hquote : deref (escape upper bytes ++ rest) = quote := rfl
    have hdecodes := (decodes_iff.mp (decodes_escape upper bytes rest)).1
    rw [decodeString, if_pos hquote, htail, hdecodes]
  rw [parseString_eq, hvalue]

/-- **`parse_string` is exact.** -/
theorem parseString_exact (str : Text) :
    (∃ value, IsValue str value (stringStop str) ∧
      ∀ maxlen, parseString str maxlen = (value.length + 1, (value ++ [0]).take maxlen)) ∧
    (deref str = quote → skipString str.tail = (stringStop str).tail ∧
      (deref (stringStop str) = 0 ∨ deref (stringStop str) = quote)) ∧
    (deref str ≠ quote → skipKey str = stringStop str) ∧
    ∀ upper bytes maxlen, parseString (escape upper bytes ++ str) maxlen =
      (bytes.length + 1, (bytes ++ [0]).take maxlen) := by
  have hvalue := isValue_decodeString str
  refine ⟨⟨_, hvalue, parseString_eq str⟩, fun hquote => ?_, fun hquote => ?_,
    fun upper bytes maxlen => parseString_escape upper bytes str maxlen⟩
  · rw [IsValue, if_pos hquote] at hvalue
    exact ⟨hvalue.skipString_eq, hvalue.deref_stop⟩
  · rw [stringStop, if_neg hquote, bareStop_eq]

end LowriscLinux.Config
