import LowriscLinux.Config.FindKey
import LowriscLinux.Config.PointerParser

/-!
# Looking up a key in a string in memory

`find_key` (`arch/riscv/drivers/config.c`, lines 206-246) as in `Config/FindKey.lean`, with pointers
into a string in memory (`Rom`), so that every byte that is read is in the trace.

## What models what

* `findKey`, `findEntries`, `findValues`: the function and its two loops, as in
  `Config/FindKey.lean`.
* `matchKey`: lines 215-221. The lengths of a key and of `name` are what is left of them in an `int`
  (`toSigned`, lines 208 and 215), and a negative length is a large count for `strncmp` (`toSize`),
  which nevertheless stops at the first difference or terminator (`strncmpEq`).
* `advance`: `name+key_len+1` (line 230) and `name[key_len]` (line 221). `name` is a string of its
  own and stays a list. A key of 2 GiB makes `key_len` negative, and then `name + key_len` points
  before that string: what is there is a parameter (`outside`), and the bounds hold whatever it is.
* `end` is a pointer into the string, and `end - start > 0` compares offsets. It need not be at the
  terminator: that of a device is where its slice ends.

Results:
* **`findKey_within`**: for any `end` in the string, `find_key` returns, reads nothing behind the
  terminator and does not go back.
* **`findKey_inside`**: below 2 GiB, `find_key` does what that of lists does.
-/

namespace LowriscLinux.Config.Rom

open LowriscLinux.Lib

/-- How the loop over the values of an entry ends: `find_key` returns, or the scan goes on. -/
inductive Flow
  | ret (value : Nat)
  | next (start : Nat)
  deriving DecidableEq, Repr

/-- What `find_key` knows of a key. -/
structure Found where
  keyLen      : Int
  fullMatch   : Bool
  prefixMatch : Bool
  deriving DecidableEq, Repr

/-- A length in an `int`. -/
def toSigned (n : Nat) : Int := (BitVec.ofNat 32 n).toInt

/-- An `int` as a `size_t` of so many bits. -/
def toSize (bits : Nat) (n : Int) : Nat := (BitVec.ofInt bits n).toNat

variable (rom : Rom) (outside : Text → Int → Text)

/-- `name + k`; a negative `k` leads out of the string. -/
def advance (name : Text) (k : Int) : Text := if 0 ≤ k then name.drop k.toNat else outside name k

/-- `strncmp(name, key, n) == 0`: the first difference or terminator ends it. -/
def strncmpEq : Text → Nat → Nat → Reading Nat Fault Bool
  | _, _, 0 => pure true
  | [], key, _ + 1 => do
    let b ← rom.read key
    pure (b = 0)
  | c :: name, key, n + 1 => do
    let b ← rom.read key
    if b = c.val then strncmpEq name (key + 1) n else pure false

/-- `substr_match`, `full_match` and `prefix_match`. -/
def matchKey (bits : Nat) (name : Text) (keyStart keyEnd : Nat) : Reading Nat Fault Found := do
  let len := toSigned name.length
  let keyLen := toSigned (keyEnd - keyStart)
  let minLen := if keyLen < len then keyLen else len
  let substrMatch ← rom.strncmpEq name keyStart (toSize bits minLen)
  pure ⟨keyLen, substrMatch && keyLen = len,
    substrMatch && (keyLen < len && deref (advance outside name keyLen) = dot)⟩

mutual

/-- `find_key`. -/
def findKey (bits steps : Nat) : Nat → Nat → Nat → Text → Bool → Reading Nat Fault Nat
  | 0, _, _, _, _ => throw .fuel
  | fuel + 1, start, stop, name, take => do
    let start ← rom.skipWhitespace steps start
    findEntries bits steps fuel start stop name take

/-- The loop of `find_key` over the entries. -/
def findEntries (bits steps : Nat) : Nat → Nat → Nat → Text → Bool → Reading Nat Fault Nat
  | 0, _, _, _, _ => throw .fuel
  | fuel + 1, start, stop, name, take =>
    if start < stop then do
      let c ← rom.read start
      if c ≠ closeBrace then do
        let keyEnd ← rom.skipKey steps start
        let found ← rom.matchKey outside bits name start keyEnd
        let start ← rom.skipWhitespace steps keyEnd
        let flow ← findValues bits steps fuel start stop name take found
        match flow with
        | .ret value => pure value
        | .next start => do
          let start ← rom.stepOver semicolon start
          let start ← rom.skipWhitespace steps start
          findEntries bits steps fuel start stop name take
      else pure start
    else pure start

/-- The loop of `find_key` over the values of an entry. -/
def findValues (bits steps : Nat) : Nat → Nat → Nat → Text → Bool → Found → Reading Nat Fault Flow
  | 0, _, _, _, _, _ => throw .fuel
  | fuel + 1, start, stop, name, take, found =>
    if start < stop then do
      let c ← rom.read start
      if c ≠ semicolon then
        if c = quote then
          if take ∧ found.fullMatch then pure (.ret start)
          else do
            let start ← rom.skipString steps (start + 1)
            let start ← rom.skipWhitespace steps start
            findValues bits steps fuel start stop name take found
        else if c = openBrace then
          if take ∧ found.prefixMatch then do
            let value ← findKey bits steps fuel (start + 1) stop
              (advance outside name (found.keyLen + 1)) true
            pure (.ret value)
          else do
            let start ← findKey bits steps fuel (start + 1) stop [] false
            let start ← rom.stepOver closeBrace start
            let start ← rom.skipWhitespace steps start
            findValues bits steps fuel start stop name take found
        else
          if take ∧ found.fullMatch then pure (.ret start)
          else do
            let start ← rom.skipKey steps (start + 1)
            let start ← rom.skipWhitespace steps start
            findValues bits steps fuel start stop name take found
      else pure (.next start)
    else pure (.next start)

end

/-- The computation reads nothing behind the terminator and returns, with a value in `Q`. -/
abbrev Within {α : Type} (Q : α → Prop) (m : Reading Nat Fault α) : Prop :=
  Yields (· ≤ rom.nul) (fun _ => False) Q m

variable {rom outside}

/-- **`strncmp` stays in the string**, whatever the count is. -/
theorem strncmpEq_within : ∀ (name : Text) {key : Nat} (n : Nat), key ≤ rom.nul →
    rom.Within (fun _ => True) (rom.strncmpEq name key n)
  | _, _, 0, _ => by
    rw [strncmpEq]
    exact .pure trivial
  | [], _, _ + 1, hk => read_bind (at_text hk) (.pure trivial)
  | c :: name, _, n + 1, hk => by
    refine read_bind (at_text hk) ?_
    split_ifs with hc
    · exact strncmpEq_within name n (next_le hk hc c.property)
    · exact .pure trivial

theorem matchKey_within (bits : Nat) (name : Text) {keyStart keyEnd : Nat}
    (hk : rom.KeyAt keyStart keyEnd) :
    rom.Within (fun _ => True) (rom.matchKey outside bits name keyStart keyEnd) := by
  have hstart : keyStart ≤ rom.nul := Nat.le_trans hk.1 hk.2
  exact (strncmpEq_within name _ hstart).bind_ok fun substrMatch _ => .pure trivial

variable {steps p : Nat}

theorem stepOver_within {c : UInt8} (h0 : c ≠ 0) (hp : p ≤ rom.nul) :
    rom.Within (fun q => q ≤ rom.nul ∧ q = if rom.byte p = c then p + 1 else p)
      (rom.stepOver c p) := by
  refine read_bind (at_text hp) (.pure ?_)
  rw [deref_text hp]
  split_ifs with hc
  · exact ⟨lt_nul hp fun h => h0 (hc.symm.trans h), rfl⟩
  · exact ⟨hp, rfl⟩

/-- The values of an entry end in the string and not before their start, which is not their end
unless there is a `;` or nothing is left to read. -/
def Flow.Good (rom : Rom) (start stop : Nat) : Flow → Prop
  | .ret value => start ≤ value ∧ value ≤ rom.nul
  | .next q => start ≤ q ∧ q ≤ rom.nul ∧ (start < stop → rom.byte start ≠ semicolon → start < q)

/-- What the loop does after one more value is as good as what it does from there on. -/
theorem Flow.Good.of_later {start q stop : Nat} {flow : Flow} (hlt : start < q)
    (h : flow.Good rom q stop) : flow.Good rom start stop := by
  cases flow with
  | ret value => exact ⟨by have := h.1; omega, h.2⟩
  | next r =>
    have := h.1
    exact ⟨by omega, h.2.1, fun _ _ => by omega⟩

/-- An entry moves the pointer: one without a key is read from its first value or `;` on. -/
theorem entry_progress {start q r stop : Nat} (hlt : start < stop) (hle : start ≤ q)
    (h : (Flow.next r).Good rom q stop) :
    start < if rom.byte r = semicolon then r + 1 else r := by
  obtain ⟨hqr, -, hnext⟩ := h
  by_cases hsemi : rom.byte r = semicolon
  · rw [if_pos hsemi]
    omega
  · rw [if_neg hsemi]
    rcases Nat.lt_or_ge start r with hr | hr
    · exact hr
    -- nothing was read, and yet the values did not stop
    · obtain rfl : r = start := by omega
      obtain rfl : q = r := by omega
      exact absurd (hnext hlt hsemi) (Nat.lt_irrefl _)

/-- The loop goes on behind a value. -/
theorem next_value {bits start q stop fuel : Nat} {name : Text} {take : Bool} {found : Found}
    (hn : rom.nul < steps)
    (ih : ∀ u, u ≤ rom.nul → 3 * (rom.nul - u) + 1 ≤ fuel →
      rom.Within (Flow.Good rom u stop)
        (rom.findValues outside bits steps fuel u stop name take found))
    (hlt : start < q) (hq : q ≤ rom.nul) (hf : 3 * (rom.nul - start) + 1 ≤ fuel + 1) :
    rom.Within (Flow.Good rom start stop)
      (do
        let start ← rom.skipWhitespace steps q
        rom.findValues outside bits steps fuel start stop name take found) := by
  refine (skipWhitespace_inside (at_text hq) hn).bind_ok fun u hu => ?_
  have hule := hu.le
  have huge := (at_text hq).le_of_suffix hu (skipWhitespace_suffix _)
  exact (ih u hule (by omega)).mono fun flow _ hflow => hflow.of_later (by omega)

mutual

/-- **`find_key` stays in the string**, ends and does not go back. -/
theorem findKey_within (bits : Nat) {stop : Nat} (hn : rom.nul < steps) (hstop : stop ≤ rom.nul) :
    ∀ {fuel start : Nat} (name : Text) (take : Bool), start ≤ rom.nul →
    3 * (rom.nul - start) + 3 ≤ fuel →
    rom.Within (fun q => start ≤ q ∧ q ≤ rom.nul)
      (rom.findKey outside bits steps fuel start stop name take)
  | 0, _, _, _, _, hf => absurd hf (by omega)
  | fuel + 1, start, name, take, hs, hf => by
    rw [findKey]
    refine (skipWhitespace_inside (at_text hs) hn).bind_ok fun q hq => ?_
    have hle := hq.le
    have hge := (at_text hs).le_of_suffix hq (skipWhitespace_suffix _)
    refine (findEntries_within bits hn hstop name take hle (by omega)).mono fun r _ hr => ?_
    exact ⟨by omega, hr.2⟩

theorem findEntries_within (bits : Nat) {stop : Nat} (hn : rom.nul < steps)
    (hstop : stop ≤ rom.nul) :
    ∀ {fuel start : Nat} (name : Text) (take : Bool), start ≤ rom.nul →
    3 * (rom.nul - start) + 2 ≤ fuel →
    rom.Within (fun q => start ≤ q ∧ q ≤ rom.nul)
      (rom.findEntries outside bits steps fuel start stop name take)
  | 0, _, _, _, _, hf => absurd hf (by omega)
  | fuel + 1, start, name, take, hs, hf => by
    rw [findEntries]
    refine .branch (fun hlt => ?_) fun _ => .pure ⟨Nat.le_refl _, hs⟩
    refine read_bind (at_text hs) (.branch (fun _ => ?_) fun _ => .pure ⟨Nat.le_refl _, hs⟩)
    refine (skipKey_inside (at_text hs) hn).bind_ok fun keyEnd hke => ?_
    have hkey := keyAt_at hs hke (skipKey_suffix _)
    refine (matchKey_within bits name hkey).bind_ok fun found _ => ?_
    refine (skipWhitespace_inside (at_text hke.le) hn).bind_ok fun q hq => ?_
    have hqle := hq.le
    have hqge := (at_text hke.le).le_of_suffix hq (skipWhitespace_suffix _)
    have hke := hkey.1
    refine (findValues_within bits hn hstop name take found hqle (by omega)).bind_ok
      fun flow hflow => ?_
    cases flow with
    | ret value => exact .pure ⟨Nat.le_trans (by omega) hflow.1, hflow.2⟩
    | next r =>
      refine (stepOver_within (by decide) hflow.2.1).bind_ok fun t ht => ?_
      have hprogress : start < t := ht.2 ▸ entry_progress hlt (by omega) hflow
      refine (skipWhitespace_inside (at_text ht.1) hn).bind_ok fun u hu => ?_
      have hule := hu.le
      have huge := (at_text ht.1).le_of_suffix hu (skipWhitespace_suffix _)
      refine (findEntries_within bits hn hstop name take hule (by omega)).mono fun v _ hv => ?_
      exact ⟨by omega, hv.2⟩

theorem findValues_within (bits : Nat) {stop : Nat} (hn : rom.nul < steps)
    (hstop : stop ≤ rom.nul) :
    ∀ {fuel start : Nat} (name : Text) (take : Bool) (found : Found), start ≤ rom.nul →
    3 * (rom.nul - start) + 1 ≤ fuel →
    rom.Within (Flow.Good rom start stop)
      (rom.findValues outside bits steps fuel start stop name take found)
  | 0, _, _, _, _, _, hf => absurd hf (by omega)
  | fuel + 1, start, name, take, found, hs, hf => by
    have ih := fun u (hu : u ≤ rom.nul) (hf : 3 * (rom.nul - u) + 1 ≤ fuel) =>
      findValues_within bits hn hstop name take found hu hf
    rw [findValues]
    refine .branch (fun hlt => ?_) fun hlt => .pure ⟨Nat.le_refl _, hs, fun h _ => absurd h hlt⟩
    have hle := Nat.lt_of_lt_of_le hlt hstop
    have hnext := at_next hle
    refine read_bind (at_text hs) ?_
    rw [deref_text hs]
    refine .branch (fun hsemi => ?_) fun hsemi =>
      .pure ⟨Nat.le_refl _, hs, fun _ h => absurd h hsemi⟩
    refine .branch (fun hquote => ?_) fun _ => .branch (fun hopen => ?_) fun _ => ?_
    · refine .branch (fun _ => .pure ⟨Nat.le_refl _, hs⟩) fun _ => ?_
      refine (skipString_inside hnext hn).bind_ok fun q hq => ?_
      exact next_value hn ih (hnext.le_of_suffix hq (skipString_suffix _)) hq.le hf
    · refine .branch (fun _ => ?_) fun _ => ?_
      · refine (findKey_within bits hn hstop _ true hle (by omega)).bind_ok fun q hq => ?_
        exact .pure ⟨by have := hq.1; omega, hq.2⟩
      · refine (findKey_within bits hn hstop [] false hle (by omega)).bind_ok fun q hq => ?_
        refine (stepOver_within (by decide) hq.2).bind_ok fun t ht => ?_
        have hqt : q ≤ t := by
          rw [ht.2]
          split_ifs <;> omega
        exact next_value hn ih (Nat.lt_of_lt_of_le hq.1 hqt) ht.1 hf
    · refine .branch (fun _ => .pure ⟨Nat.le_refl _, hs⟩) fun _ => ?_
      refine (skipKey_inside hnext hn).bind_ok fun q hq => ?_
      exact next_value hn ih (hnext.le_of_suffix hq (skipKey_suffix _)) hq.le hf

end

/-! ## `find_key` refines that of lists, below 2 GiB -/

theorem toSigned_of_lt {n : Nat} (h : n < 2 ^ 31) : toSigned n = n := by
  have hlt : 2 * (BitVec.ofNat 32 n).toNat < 2 ^ 32 := by
    rw [BitVec.toNat_ofNat]
    omega
  rw [toSigned, BitVec.toInt_eq_toNat_of_lt hlt, BitVec.toNat_ofNat, Nat.mod_eq_of_lt (by omega)]

theorem toSize_of_lt {bits n : Nat} (h : n < 2 ^ bits) : toSize bits n = n := by
  rw [toSize, BitVec.ofInt_natCast, BitVec.toNat_ofNat, Nat.mod_eq_of_lt h]

theorem strncmpEq_inside : ∀ (name : Text) {key : Nat} (n : Nat), key ≤ rom.nul →
    rom.Inside E Eq (rom.strncmpEq name key n) (.ok (name.take n = (rom.text key).take n))
  | _, _, 0, _ => by
    rw [strncmpEq]
    exact .pure rfl
  | [], _, n + 1, hk => by
    refine read_bind (at_text hk) (.pure ?_)
    rcases text_cases hk with ⟨-, ht⟩ | ⟨c, -, -, ht⟩
    · rw [ht]
      rfl
    · rw [ht, deref_cons]
      simp [c.property]
  | c :: name, _, n + 1, hk => by
    refine read_bind (at_text hk) ?_
    rcases text_cases hk with ⟨-, ht⟩ | ⟨c', hlt, -, ht⟩
    · rw [ht, deref_nil, if_neg fun h => c.property h.symm]
      exact .pure (by simp)
    · rw [ht, deref_cons, List.take_succ_cons, List.take_succ_cons]
      by_cases hc : c'.val = c.val
      · obtain rfl : c' = c := Subtype.ext hc
        rw [if_pos rfl]
        simp only [List.cons.injEq, true_and]
        exact strncmpEq_inside name n hlt
      · rw [if_neg hc]
        refine .pure ?_
        simp only [List.cons.injEq, Bool.false_eq, decide_eq_false_iff_not]
        exact fun h => hc (congrArg Subtype.val h.1.symm)

theorem matchKey_inside {bits keyEnd : Nat} {name : Text} (hbits : 31 ≤ bits)
    (hnul : rom.nul < 2 ^ 31) (hname : name.length < 2 ^ 31) (hp : p ≤ rom.nul)
    (hke : rom.At keyEnd (Config.skipKey (rom.text p))) :
    rom.Inside E Eq (rom.matchKey outside bits name p keyEnd)
      (.ok ⟨keyLength (rom.text p), Config.fullMatch name (rom.text p),
        Config.prefixMatch name (rom.text p)⟩) := by
  have hkey := keyAt_at hp hke (skipKey_suffix _)
  have hlen : keyLength (rom.text p) = keyEnd - p := by
    have := hkey.1
    have := hkey.2
    rw [keyLength, ← hke.text, length_text, length_text]
    omega
  have hint : keyEnd - p < 2 ^ 31 := by
    have := hkey.2
    omega
  have hmin : (if ((keyEnd - p : Nat) : Int) < (name.length : Int) then ((keyEnd - p : Nat) : Int)
      else (name.length : Int)) = ((min (keyEnd - p) name.length : Nat) : Int) := by
    split_ifs <;> omega
  have hcount : min (keyEnd - p) name.length < 2 ^ bits :=
    Nat.lt_of_lt_of_le (by omega) (Nat.pow_le_pow_right (by decide) hbits)
  unfold matchKey
  simp only [toSigned_of_lt hint, toSigned_of_lt hname, hmin, toSize_of_lt hcount]
  refine (strncmpEq_inside name _ hp).bind_ok fun substr hs => .pure ?_
  rw [← hlen] at hs ⊢
  have hs : substr = substrMatch name (rom.text p) := hs
  have hadvance : advance outside name (keyLength (rom.text p)) =
      name.drop (keyLength (rom.text p)) := if_pos (Int.natCast_nonneg _)
  rw [hs, hadvance, Config.fullMatch, Config.prefixMatch]
  simp only [Nat.cast_inj, Nat.cast_lt]

/-- A search of lists that runs out of its bound is out of fuel. -/
def fromOption {α : Type} : Option α → Except Fault α
  | none => .error .fuel
  | some a => .ok a

def FlowAt (rom : Rom) : Flow → Config.Flow → Prop
  | .ret value, .ret s => rom.At value s
  | .next start, .next s => rom.At start s
  | _, _ => False

/-- Branches of the two searches. -/
theorem ite_inside {α β : Type} {R : α → β → Prop} {c c' : Prop} [Decidable c] [Decidable c']
    {m m' : Reading Nat Fault α} {o o' : Option β} (hc : c ↔ c')
    (ht : c → rom.Inside E R m (fromOption o)) (he : ¬ c → rom.Inside E R m' (fromOption o')) :
    rom.Inside E R (if c then m else m') (fromOption (if c' then o else o')) := by
  rw [apply_ite fromOption]
  exact .ite hc ht he

theorem length_lt {q : Nat} (hq : q ≤ rom.nul) :
    p < q ↔ (rom.text p).length > (rom.text q).length := by
  rw [length_text, length_text]
  omega

/-- The test for the end comes first, and the byte is read when something is left. -/
theorem goes_inside {α β : Type} {R : α → β → Prop} {stop : Nat} (hstop : stop ≤ rom.nul)
    (hp : p ≤ rom.nul) (c : UInt8) {f : UInt8 → Reading Nat Fault α} {m : Reading Nat Fault α}
    {o o' : Option β}
    (ht : p < stop → deref (rom.text p) ≠ c → rom.Inside E R (f (deref (rom.text p))) (fromOption o))
    (he : rom.Inside E R m (fromOption o')) :
    rom.Inside E R
      (if p < stop then do
        let b ← rom.read p
        if b ≠ c then f b else m
      else m)
      (fromOption (if (rom.text p).length > (rom.text stop).length ∧ deref (rom.text p) ≠ c then o
        else o')) := by
  by_cases hlt : p < stop
  · rw [if_pos hlt]
    refine read_bind (at_text hp) (ite_inside ?_ (fun hc => ht hlt hc) fun _ => he)
    exact (and_iff_right ((length_lt hstop).mp hlt)).symm
  · rw [if_neg hlt, if_neg fun h => hlt ((length_lt hstop).mpr h.1)]
    exact he

mutual

/-- **`find_key` does what that of lists does**, below 2 GiB. -/
theorem findKey_inside {bits stop : Nat} (hbits : 31 ≤ bits) (hnul : rom.nul < 2 ^ 31)
    (hn : rom.nul < steps) (hstop : stop ≤ rom.nul) : ∀ (fuel : Nat) {start : Nat} {name : Text}
    (take : Bool), name.length < 2 ^ 31 → start ≤ rom.nul →
    rom.Inside E rom.At (rom.findKey outside bits steps fuel start stop name take)
      (fromOption (Config.findKey fuel (rom.text start) (rom.text stop) name take))
  | 0, _, _, _, _, _ => by
    rw [findKey, Config.findKey]
    exact .throw _
  | fuel + 1, start, name, take, hname, hs => by
    rw [findKey, Config.findKey]
    refine (skipWhitespace_inside (at_text hs) hn).bind_ok fun q hq => ?_
    rw [← hq.text]
    exact findEntries_inside hbits hnul hn hstop fuel take hname hq.le

theorem findEntries_inside {bits stop : Nat} (hbits : 31 ≤ bits) (hnul : rom.nul < 2 ^ 31)
    (hn : rom.nul < steps) (hstop : stop ≤ rom.nul) : ∀ (fuel : Nat) {start : Nat} {name : Text}
    (take : Bool), name.length < 2 ^ 31 → start ≤ rom.nul →
    rom.Inside E rom.At (rom.findEntries outside bits steps fuel start stop name take)
      (fromOption (Config.findEntries fuel (rom.text start) (rom.text stop) name take))
  | 0, _, _, _, _, _ => by
    rw [findEntries, Config.findEntries]
    exact .throw _
  | fuel + 1, start, name, take, hname, hs => by
    rw [findEntries, Config.findEntries]
    refine goes_inside hstop hs closeBrace (fun _ _ => ?_) (.pure (at_text hs))
    refine (skipKey_inside (at_text hs) hn).bind_ok fun keyEnd hke => ?_
    refine (matchKey_inside hbits hnul hname hs hke).bind_ok fun found hf => ?_
    subst hf
    refine (skipWhitespace_inside hke hn).bind_ok fun q hq => ?_
    have ih := findValues_inside (E := E) hbits hnul hn hstop fuel take hname hs hq.le
    rw [hq.text] at ih
    simp only
    generalize Config.findValues fuel (Config.skipWhitespace (Config.skipKey (rom.text start)))
      (rom.text stop) name take (rom.text start) = o at ih ⊢
    cases o with
    | none => exact ih.bind_error
    | some flow =>
      refine ih.bind_ok fun flow' hflow => ?_
      cases flow' with
      | ret value =>
        cases flow with
        | ret s => exact .pure hflow
        | next s => exact hflow.elim
      | next r =>
        cases flow with
        | ret s => exact hflow.elim
        | next s =>
          have hr : rom.At r s := hflow
          refine (stepOver_inside (by decide) hr.le).bind_ok fun t ht => ?_
          rw [hr.text] at ht
          refine (skipWhitespace_inside ht hn).bind_ok fun u hu => ?_
          have ih := findEntries_inside (E := E) hbits hnul hn hstop fuel take hname hu.le
          rw [hu.text] at ih
          exact ih

theorem findValues_inside {bits stop : Nat} (hbits : 31 ≤ bits) (hnul : rom.nul < 2 ^ 31)
    (hn : rom.nul < steps) (hstop : stop ≤ rom.nul) : ∀ (fuel : Nat) {key start : Nat}
    {name : Text} (take : Bool), name.length < 2 ^ 31 → key ≤ rom.nul → start ≤ rom.nul →
    rom.Inside E rom.FlowAt
      (rom.findValues outside bits steps fuel start stop name take
        ⟨keyLength (rom.text key), Config.fullMatch name (rom.text key),
          Config.prefixMatch name (rom.text key)⟩)
      (fromOption (Config.findValues fuel (rom.text start) (rom.text stop) name take
        (rom.text key)))
  | 0, _, _, _, _, _, _, _ => by
    rw [findValues, Config.findValues]
    exact .throw _
  | fuel + 1, key, start, name, take, hname, hk, hs => by
    have later : ∀ {q : Nat} {s : Text}, rom.At q s → rom.Inside E rom.FlowAt
        (do
          let start ← rom.skipWhitespace steps q
          rom.findValues outside bits steps fuel start stop name take
            ⟨keyLength (rom.text key), Config.fullMatch name (rom.text key),
              Config.prefixMatch name (rom.text key)⟩)
        (fromOption (Config.findValues fuel (Config.skipWhitespace s) (rom.text stop) name take
          (rom.text key))) := by
      intro q s hq
      refine (skipWhitespace_inside hq hn).bind_ok fun u hu => ?_
      rw [← hu.text]
      exact findValues_inside hbits hnul hn hstop fuel take hname hk hu.le
    rw [findValues, Config.findValues]
    refine goes_inside hstop hs semicolon (fun hlt _ => ?_) (.pure (at_text hs))
    have hnext := at_next (Nat.lt_of_lt_of_le hlt hstop)
    refine ite_inside Iff.rfl (fun _ => ?_) fun _ => ite_inside Iff.rfl (fun _ => ?_) fun _ => ?_
    · refine ite_inside Iff.rfl (fun _ => .pure (at_text hs)) fun _ => ?_
      exact (skipString_inside hnext hn).bind_ok fun q hq => later hq
    · refine ite_inside Iff.rfl (fun _ => ?_) fun _ => ?_
      · have hadvance : advance outside name ((keyLength (rom.text key) : Int) + 1) =
            name.drop (keyLength (rom.text key) + 1) := if_pos (by omega)
        have hlen : (name.drop (keyLength (rom.text key) + 1)).length < 2 ^ 31 := by
          rw [List.length_drop]
          omega
        have ih := findKey_inside (E := E) hbits hnul hn hstop fuel true hlen hnext.le
        rw [hnext.text] at ih
        simp only [hadvance]
        generalize Config.findKey fuel _ _ _ _ = o at ih ⊢
        cases o with
        | none => exact ih.bind_error
        | some s => exact ih.bind_ok fun q hq => .pure hq
      · have ih := findKey_inside (E := E) hbits hnul hn hstop fuel false
          (by decide : [].length < _) hnext.le
        rw [hnext.text] at ih
        generalize Config.findKey fuel _ _ _ _ = o at ih ⊢
        cases o with
        | none => exact ih.bind_error
        | some s =>
          refine ih.bind_ok fun q hq => ?_
          refine (stepOver_inside (by decide) hq.le).bind_ok fun t ht => ?_
          rw [hq.text] at ht
          exact later ht
    · refine ite_inside Iff.rfl (fun _ => .pure (at_text hs)) fun _ => ?_
      exact (skipKey_inside hnext hn).bind_ok fun q hq => later hq

end

end LowriscLinux.Config.Rom
