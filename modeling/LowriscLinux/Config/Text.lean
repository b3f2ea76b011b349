import Mathlib.Data.List.DropRight

/-!
# Config strings: NUL-terminated text and the `skip_*` helpers

Model of the scanners of `arch/riscv/drivers/config.c` (lines 45-71), which the parser, the lookup
and the literals share. A config string is the text of the config ROM: keys, values and groups in
braces, ended by a byte 0 (`config_string_probe`, line 625).

## What models what

* A pointer into a NUL-terminated string is the list of the bytes from it up to the terminator
  (`Text`), so `*p` is the head of the list (`deref`, `0` at the terminator), `++p` is its tail, a
  later pointer is a suffix of an earlier one, and `q - p` is the difference of the two lengths
  (`between` has the bytes). A byte of a string is never `0` (`Byte`), which makes the end of the
  list the only terminator.
* `skipWhitespace` and `skipKey`: `skip_whitespace` (lines 45-50) and `skip_key` (lines 66-71), both
  a `dropWhile`. The bytes of a key are those from 35 to 122 without `;` (`isKeyByte`), so `"`, `{`
  and `}` end one, and so does a byte from 128 on.
* `skipNewline`: `skip_newline` (lines 52-58), which stops after the first newline.
* `skipString`: `skip_string` (lines 60-64), which stops after the closing quote, and knows no
  escapes.

Plain `char` is unsigned on RISC-V, so `*str <= ' '` and `*str <= 122` compare unsigned bytes. A
pointer that runs past the terminator has no counterpart: `deref` of the empty list is 0, as at the
terminator itself, and where the source reads on behind it, `Config/Pointers.lean` has addresses.
-/

namespace LowriscLinux.Config

/-- A byte of a NUL-terminated string. -/
abbrev Byte := { b : UInt8 // b ≠ 0 }

/-- A pointer into a NUL-terminated string: the bytes up to the terminator. -/
abbrev Text := List Byte

/-- `*p`. -/
def deref : Text → UInt8
  | [] => 0
  | c :: _ => c.val

@[simp] theorem deref_nil : deref [] = 0 := rfl

@[simp] theorem deref_cons (c : Byte) (s : Text) : deref (c :: s) = c.val := rfl

theorem deref_eq_zero {s : Text} : deref s = 0 ↔ s = [] := by
  cases s with
  | nil => simp
  | cons c s => simpa using c.property

/-- The string that starts at the front of a buffer. -/
def cstring : List UInt8 → Text
  | [] => []
  | b :: bs => if h : b = 0 then [] else ⟨b, h⟩ :: cstring bs

/-! ## The characters the scanners look for -/

abbrev newline : UInt8 := 10
abbrev space : UInt8 := 32
abbrev quote : UInt8 := 34
abbrev dash : UInt8 := 45
abbrev dot : UInt8 := 46
abbrev semicolon : UInt8 := 59
abbrev backslash : UInt8 := 92
abbrev underscore : UInt8 := 95
abbrev openBrace : UInt8 := 123
abbrev closeBrace : UInt8 := 125

/-- `*str >= 35 && *str <= 122 && *str != ';'`: the bytes of a key or of a bare value. -/
def isKeyByte (c : UInt8) : Bool := 35 ≤ c && c ≤ 122 && c != semicolon

/-! ## `skip_*` -/

def skipWhitespace (str : Text) : Text := str.dropWhile fun c => c.val ≤ space

def skipNewline : Text → Text
  | [] => []
  | c :: str =>
    if c.val ≤ space then
      if c.val = newline then str else skipNewline str
    else c :: str

def skipString : Text → Text
  | [] => []
  | c :: str => if c.val = quote then str else skipString str

def skipKey (str : Text) : Text := str.dropWhile fun c => isKeyByte c.val

theorem skipWhitespace_suffix (s : Text) : skipWhitespace s <:+ s := List.dropWhile_suffix _

theorem skipKey_suffix (s : Text) : skipKey s <:+ s := List.dropWhile_suffix _

theorem skipNewline_suffix : ∀ s : Text, skipNewline s <:+ s
  | [] => List.suffix_refl _
  | c :: s => by
    unfold skipNewline
    split_ifs
    · exact List.suffix_cons c s
    · exact (skipNewline_suffix s).trans (List.suffix_cons c s)
    · exact List.suffix_refl _

theorem skipString_suffix : ∀ s : Text, skipString s <:+ s
  | [] => List.suffix_refl _
  | c :: s => by
    unfold skipString
    split_ifs
    · exact List.suffix_cons c s
    · exact (skipString_suffix s).trans (List.suffix_cons c s)

/-- Skipping to the end of the line first changes nothing for `skip_whitespace`. -/
theorem skipWhitespace_skipNewline : ∀ s : Text, skipWhitespace (skipNewline s) = skipWhitespace s
  | [] => rfl
  | c :: s => by
    by_cases hc : c.val ≤ space
    · have hw : skipWhitespace (c :: s) = skipWhitespace s := by
        simp [skipWhitespace, hc]
      unfold skipNewline
      rw [if_pos hc, hw]
      split_ifs
      · rfl
      · exact skipWhitespace_skipNewline s
    · unfold skipNewline
      rw [if_neg hc]

/-- The bytes between two pointers of one string. -/
def between (start stop : Text) : List UInt8 :=
  (start.take (start.length - stop.length)).map Subtype.val

end LowriscLinux.Config
