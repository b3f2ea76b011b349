import LowriscLinux.Config.Text
import Mathlib.Tactic.SplitIfs

/-!
# Literals of a config string: integers and strings

Model of `parse_u64` and `parse_string` (`arch/riscv/drivers/config.c`, lines 73-204), which read
the values of resources and those that drivers ask for.

## What models what

* `isHex`, `parseHex`, `isDec`, `parseDec`: lines 73-89 and 106-114. `parse_hex` takes every byte
  that is no digit and no lower-case letter for an upper-case one; it is only called on what
  `is_hex` accepts.
* `parseU64Hex` and `parseU64Dec`: `parse_u64_hex` (lines 91-104) and `parse_u64_dec` (lines
  116-129). A `uint64_t` is a `BitVec 64`, so the overflow guards `((res << 4) >> 4) != res` (line
  96) and `((res * 10) / 10) != res` (line 121) are the source's. Both skip underscores.
* `parseU64`: `parse_u64` (lines 131-150), with the sign and the prefix `0x`. It returns the pointer
  behind the literal, and the value that the source stores in `*output`.
* `parseQuotedString` and `parseString`: `parse_quoted_string` (lines 152-182) and `parse_string`
  (lines 184-204). They return the length of the decoded value plus one and store through `output`;
  the model returns the length and the list of the bytes stored, in order (`Stored`).

Where it departs from the source: `out` and `maxlen` are natural numbers and not `int`s. The callers
pass 0, 65536 (line 354) or what a driver passes to `config_string_str`.

Results:
* `decodeString` is the value of a string literal, and `parseString_eq` says that `parse_string`
  returns its length plus one whatever `maxlen` is, and stores its first `maxlen` bytes with the
  terminator counted as one more.
-/

namespace LowriscLinux.Config

/-! ## Integers -/

def isHex (c : UInt8) : Bool := (48 ≤ c && c ≤ 57) || (97 ≤ c && c ≤ 102) || (65 ≤ c && c ≤ 70)

def parseHex (c : UInt8) : Nat :=
  if 48 ≤ c ∧ c ≤ 57 then c.toNat - 48
  else if 97 ≤ c ∧ c ≤ 102 then c.toNat - 97 + 10
  else c.toNat - 65 + 10

def isDec (c : UInt8) : Bool := 48 ≤ c && c ≤ 57

def parseDec (c : UInt8) : Nat := c.toNat - 48

/-- The loop of `parse_u64_hex`, from the digits read so far. -/
def parseU64Hex : Text → BitVec 64 → Text × BitVec 64
  | [], res => ([], res)
  | c :: str, res =>
    if isHex c.val then
      if (res <<< 4) >>> 4 ≠ res then (c :: str, res)
      else parseU64Hex str ((res <<< 4) + BitVec.ofNat 64 (parseHex c.val))
    else if c.val ≠ underscore then (c :: str, res)
    else parseU64Hex str res

/-- The loop of `parse_u64_dec`, from the digits read so far. -/
def parseU64Dec : Text → BitVec 64 → Text × BitVec 64
  | [], res => ([], res)
  | c :: str, res =>
    if isDec c.val then
      if (res * 10) / 10 ≠ res then (c :: str, res)
      else parseU64Dec str (res * 10 + BitVec.ofNat 64 (parseDec c.val))
    else if c.val ≠ underscore then (c :: str, res)
    else parseU64Dec str res

/-- `parse_u64`: the end of the literal and its value. -/
def parseU64 (str : Text) : Text × BitVec 64 :=
  let neg := deref str = dash
  let str := if neg then str.tail else str
  let r :=
    if deref str = 48 ∧ deref str.tail = 120 then parseU64Hex (str.drop 2) 0
    else parseU64Dec str 0
  (r.1, if neg then -r.2 else r.2)

/-! ## Strings -/

/-- What a run of `parse_string` returns and stores. -/
structure Stored where
  /-- `out`. -/
  out : Nat
  /-- The bytes stored through `output`, first to last. -/
  bytes : List UInt8
  /-- What is left of `maxlen`. -/
  left : Nat
  deriving DecidableEq, Repr

/-- `++out; if (maxlen) { *output++ = ch; --maxlen; }` in front of what `rest` does with one byte
less of room. -/
def Stored.put (ch : UInt8) (maxlen : Nat) (rest : Nat → Stored) : Stored :=
  let r := rest (maxlen - 1)
  ⟨r.out + 1, if maxlen = 0 then r.bytes else ch :: r.bytes, r.left⟩

/-- `if (maxlen) *output = 0; ++out;` -/
def Stored.finish (r : Stored) : Nat × List UInt8 :=
  (r.out + 1, if r.left = 0 then r.bytes else r.bytes ++ [0])

/-- The character `*s` of a quoted literal stands for, and how far past `s` an escape reaches:
`\x` takes one hex digit or two. -/
def quotedChar (c : Byte) (s : Text) : UInt8 × Nat :=
  if c.val = backslash ∧ deref s = 120 ∧ isHex (deref s.tail) then
    if isHex (deref s.tail.tail) then
      (UInt8.ofNat (parseHex (deref s.tail)) <<< 4 + UInt8.ofNat (parseHex (deref s.tail.tail)), 3)
    else (UInt8.ofNat (parseHex (deref s.tail)), 2)
  else (c.val, 0)

/-- The loop of `parse_quoted_string`, with the bytes of an escape still to step over. -/
def parseQuotedLoop : Text → Nat → Nat → Stored
  | [], _, maxlen => ⟨0, [], maxlen⟩
  | _ :: s, skip + 1, maxlen => parseQuotedLoop s skip maxlen
  | c :: s, 0, maxlen =>
    if c.val = quote then ⟨0, [], maxlen⟩
    else .put (quotedChar c s).1 maxlen (parseQuotedLoop s (quotedChar c s).2)

def parseQuotedString (str : Text) (maxlen : Nat) : Nat × List UInt8 :=
  (parseQuotedLoop str 0 maxlen).finish

/-- The loop of `parse_string` over a bare value. -/
def parseBareLoop : Text → Nat → Stored
  | [], maxlen => ⟨0, [], maxlen⟩
  | c :: s, maxlen =>
    if isKeyByte c.val then .put c.val maxlen (parseBareLoop s) else ⟨0, [], maxlen⟩

def parseString (str : Text) (maxlen : Nat) : Nat × List UInt8 :=
  if deref str = quote then parseQuotedString str.tail maxlen
  else (parseBareLoop str maxlen).finish

/-! ## The decoded value -/

/-- The value of a quoted literal, from after its opening quote and with `skip` bytes of an escape
to step over: up to the closing quote or the terminator, `\x` and one or two hex digits stand for
that byte, every other byte for itself. -/
def decodeQuoted : Text → Nat → List UInt8
  | [], _ => []
  | _ :: s, skip + 1 => decodeQuoted s skip
  | c :: s, 0 =>
    if c.val = quote then [] else (quotedChar c s).1 :: decodeQuoted s (quotedChar c s).2

/-- The value of a string literal, quoted or bare. -/
def decodeString (str : Text) : List UInt8 :=
  if deref str = quote then decodeQuoted str.tail 0
  else (str.takeWhile fun c => isKeyByte c.val).map Subtype.val

/-- What the loops leave for a value: its length, its first `maxlen` bytes, the room left. -/
def Stored.ofValue (value : List UInt8) (maxlen : Nat) : Stored :=
  ⟨value.length, value.take maxlen, maxlen - value.length⟩

theorem Stored.put_ofValue (ch : UInt8) (value : List UInt8) (maxlen : Nat) :
    Stored.put ch maxlen (Stored.ofValue value) = Stored.ofValue (ch :: value) maxlen := by
  cases maxlen with
  | zero => simp [Stored.put, Stored.ofValue]
  | succ m => simp [Stored.put, Stored.ofValue, Nat.add_sub_add_right]

theorem parseQuotedLoop_eq : ∀ (s : Text) (skip : Nat),
    parseQuotedLoop s skip = Stored.ofValue (decodeQuoted s skip)
  | [], _ => by funext m; simp [parseQuotedLoop, decodeQuoted, Stored.ofValue]
  | _ :: s, skip + 1 => by
    funext m
    rw [parseQuotedLoop, decodeQuoted, parseQuotedLoop_eq s skip]
  | c :: s, 0 => by
    funext m
    rw [parseQuotedLoop, decodeQuoted]
    split_ifs
    · simp [Stored.ofValue]
    · rw [parseQuotedLoop_eq s, Stored.put_ofValue]

theorem parseBareLoop_eq : ∀ s : Text, parseBareLoop s =
    Stored.ofValue ((s.takeWhile fun c => isKeyByte c.val).map Subtype.val)
  | [] => by funext m; simp [parseBareLoop, Stored.ofValue]
  | c :: s => by
    funext m
    by_cases hc : isKeyByte c.val = true
    · simp only [parseBareLoop, if_pos hc, parseBareLoop_eq s, Stored.put_ofValue,
        List.takeWhile_cons, List.map_cons]
    · simp [parseBareLoop, hc, Stored.ofValue]

/-- The bytes of `parse_string` are those of the value and its terminator, cut at `maxlen`. -/
theorem Stored.finish_ofValue (value : List UInt8) (maxlen : Nat) :
    (Stored.ofValue value maxlen).finish = (value.length + 1, (value ++ [0]).take maxlen) := by
  unfold Stored.finish Stored.ofValue
  simp only [Prod.mk.injEq, true_and]
  rw [List.take_append]
  split_ifs with h
  · rw [h, List.take_zero, List.append_nil]
  · rw [List.take_of_length_le (by simp; omega : ([0] : List UInt8).length ≤ maxlen - value.length)]

/-- **`parse_string` is exact**: it returns the length of the value plus one, whatever `maxlen`
is, and stores the first `maxlen` bytes of the value and its terminator. -/
theorem parseString_eq (str : Text) (maxlen : Nat) :
    parseString str maxlen =
      ((decodeString str).length + 1, (decodeString str ++ [0]).take maxlen) := by
  unfold parseString decodeString
  split_ifs
  · rw [parseQuotedString, parseQuotedLoop_eq, Stored.finish_ofValue]
  · rw [parseBareLoop_eq, Stored.finish_ofValue]

end LowriscLinux.Config
