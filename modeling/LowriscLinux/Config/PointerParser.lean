import LowriscLinux.Config.Pointers

/-!
# The parser on a string in memory

`parse_config_string` and the helpers it calls (`arch/riscv/drivers/config.c`, lines 319-519), as in
`Config/Parser.lean`, with pointers into a string in memory (`Rom`). Devices keep the list that a
pointer stands for, and the heap is that of `Config/Parser.lean`: this file is about what is read of
the string.

## What models what

* `State` and `Span`: `struct parser_state` (lines 308-317) with offsets for `config`, `key_start`
  and `key_end`. The keys of the enclosing activations are offsets too.
* `readSpan`: the reads of the bytes of a key or of a token: `memcmp` in `parser_key_eq` (line 323),
  `memcpy` in `config_path_helper` (line 334), and `%*pE` of the messages (lines 382, 390 and 432),
  which gets an `int` for the number of bytes.
* `parserKeyEq`: the comparison of lengths comes first, so a key of another length is not read.
* `stepOver`: `if (*state.config == '}') ++state.config;` (line 498) and the same for `;` (line
  511).
* `recordEnd`: lines 512-514, where `skip_newline` reads on in the string.

The helpers `parseRange`, `parseSingle`, `openDevice` and `keyFlags` read the string where those of
lists take it apart, and leave the rest to the same functions on the heap.

Results:
* **`parseConfigString_inside`**: the parser reads nothing behind the terminator and does what the
  parser of lists does.
-/

namespace LowriscLinux.Config.Rom

open LowriscLinux.Lib

/-- `key_start` and `key_end`. -/
structure Span where
  start : Nat
  stop  : Nat
  deriving DecidableEq, Repr

/-- `struct parser_state`; `parent` is an argument of its own. -/
structure State where
  pass     : Nat
  roots    : Nat
  config   : Nat
  devices  : Nat
  names    : Nat
  keyStart : Nat
  keyEnd   : Nat
  deriving DecidableEq, Repr

variable (rom : Rom)

/-- Read the bytes from `start` to `stop`, whose number is an `int`. -/
def readSpan (start stop : Nat) : Reading Nat Fault (List UInt8) := do
  let len ← Reading.lift (toInt (stop - start))
  Reading.readRange rom.byte start len

/-! ## Names -/

/-- `parser_key_eq`: the bytes are compared when the lengths agree. -/
def parserKeyEq (keyStart keyEnd : Nat) (key : List UInt8) : Reading Nat Fault Bool :=
  if keyEnd - keyStart = key.length then do
    let bytes ← Reading.readRange rom.byte keyStart (keyEnd - keyStart)
    pure (bytes = key)
  else pure false

def configPathHelper (pass : Nat) : List Span → Nat → Heap → Reading Nat Fault (Nat × Heap)
  | [], _, _ => throw .parent
  | k :: up, names, h => do
    let len ← Reading.lift (toInt (k.stop - k.start))
    let (names, h) ← (if up = [] then pure (names, h) else configPathHelper pass up names h)
    let h ← (if HAVE_NAMES ≤ pass then do
        let bytes ← Reading.readRange rom.byte k.start len
        Reading.lift (h.storeNames names (bytes ++ [dot]))
      else pure h)
    pure (names + len + 1, h)

def configPath (pass : Nat) (parent : List Span) (names : Nat) (h : Heap) :
    Reading Nat Fault (Name × Nat × Heap) :=
  match parent with
  | [] => pure (.dot, names, h)
  | k :: up => do
    let output := names
    let (names, h) ← rom.configPathHelper pass (k :: up) names h
    let h ← Reading.lift (if HAVE_NAMES ≤ pass then h.storeName (names - 1) 0 else .ok h)
    pure (.names output, names, h.log (.string output names))

def parseInterface (steps pass config : Nat) (target : Option Nat) (names : Nat) (h : Heap) :
    Reading Nat Fault (Nat × Heap) := do
  let len := if HAVE_NAMES ≤ pass then 65536 else 0
  let h ← Reading.lift (match target with
    | some t => do
      let d ← h.device t
      .ok (h.setDevice t { d with driverOverride := some names })
    | none => .ok h)
  let out ← rom.parseString steps config len
  let h ← Reading.lift (h.storeNames names out.2)
  pure (names + out.1, h.log (.string names (names + out.1)))

/-! ## Resources -/

/-- `if (last_pass) printk(..., (int)(stop - start), start)`. -/
def complain (last : Bool) (message : List UInt8 → Message) (start stop : Nat) (h : Heap) :
    Reading Nat Fault Heap :=
  if last then do
    let bytes ← rom.readSpan start stop
    pure (h.printk (message bytes))
  else pure h

def parseRange (steps pass config keyStart keyEnd : Nat) (parent : List Span) (flags : Nat)
    (target : Option Nat) (names : Nat) (h : Heap) : Reading Nat Fault (Nat × Heap) := do
  let last ← Reading.lift (lastPass h target)
  let valueTail ← rom.skipKey steps config
  let value ← rom.parseU64 steps config
  let key ← rom.parseU64 steps keyStart
  if key.1 ≠ keyEnd then do
    let h ← rom.complain last .invalidKey keyStart keyEnd h
    pure (names, h)
  else if value.1 ≠ valueTail then do
    let h ← rom.complain last .invalidValue config valueTail h
    pure (names, h)
  else
    match target with
    | none => pure (names, h)
    | some t =>
      match parent with
      | [] => throw .parent
      | _ :: up => do
        let (name, names, h) ← rom.configPath pass up names h
        let h ← Reading.lift (addResource h t name flags key.2 value.2)
        pure (names, h)

def parseSingle (steps pass config : Nat) (parent : List Span) (flags : Nat)
    (target : Option Nat) (names : Nat) (h : Heap) : Reading Nat Fault (Nat × Heap) := do
  let last ← Reading.lift (lastPass h target)
  let valueTail ← rom.skipKey steps config
  let value ← rom.parseU64 steps config
  if value.1 ≠ valueTail then do
    let h ← rom.complain last .invalidValue config valueTail h
    pure (names, h)
  else
    match target with
    | none => pure (names, h)
    | some t => do
      let (name, names, h) ← rom.configPath pass parent names h
      let h ← Reading.lift (addResource h t name flags value.2 value.2)
      pure (names, h)

/-! ## The recursive parser -/

/-- The device that a root group gets. -/
def openDevice (pass dev group flags : Nat) (parent : List Span) (config names : Nat) (h : Heap) :
    Reading Nat Fault (Nat × Heap) := do
  let (name, names, h) ← rom.configPath pass parent names h
  let d ← Reading.lift (h.device dev)
  let h := h.setDevice dev { d with
    name := some name, id := -1, numResources := 0,
    configStart := some (rom.text config), configEnd := some (rom.text config) }
  pure (names, (h.log (.device dev group flags)).log (.count dev 0))

/-- `if (*am_root && target && state.pass >= HAVE_DEVICES)`, then the end of the device is
`skip_newline(config)`. -/
def recordEnd (steps pass : Nat) (root : Option UInt8) (target : Option Nat) (config : Nat)
    (h : Heap) : Reading Nat Fault Heap :=
  match root, target with
  | none, _ => throw .roots
  | some root, some dev =>
    if root ≠ 0 ∧ HAVE_DEVICES ≤ pass then do
      let stop ← rom.skipNewline steps config
      Reading.lift (setConfigEnd dev (rom.text stop) h)
    else pure h
  | some _, none => pure h

def keyFlags (keyStart keyEnd : Nat) : Reading Nat Fault Nat := do
  let isIrq ← rom.parserKeyEq keyStart keyEnd irqKey
  let isBus ← rom.parserKeyEq keyStart keyEnd busKey
  let isMem ← rom.parserKeyEq keyStart keyEnd memKey
  let flags := if isIrq then IORESOURCE_IRQ else 0
  let flags := if isBus then IORESOURCE_BUS else flags
  pure (if isMem then IORESOURCE_MEM else flags)

/-- `if (*p == c) ++p;` -/
def stepOver (c : UInt8) (p : Nat) : Reading Nat Fault Nat := do
  let b ← rom.read p
  pure (if b = c then p + 1 else p)

mutual

/-- `parse_config_string`. -/
def parseConfigString (steps : Nat) : Nat → State → List Span → Nat → Option Nat → Heap →
    Reading Nat Fault (State × Heap)
  | 0, _, _, _, _, _ => throw .fuel
  | fuel + 1, state, parent, parentFlags, target, h =>
    let amRoot := state.roots
    let state := { state with roots := state.roots + 1 }
    match h.roots[amRoot]? with
    | none => throw .roots
    | some root =>
      if root ≠ 0 then do
        let dev := state.devices
        let (names, h) ←
          (if HAVE_DEVICES ≤ state.pass then
            rom.openDevice state.pass dev amRoot parentFlags parent state.config state.names h
          else pure (state.names, h))
        let target := if HAVE_DEVICES ≤ state.pass then some dev else target
        let state := { state with names := names, devices := state.devices + 1 }
        let config ← rom.skipWhitespace steps state.config
        parseEntries steps fuel amRoot { state with config := config } [] parentFlags target h
      else do
        let config ← rom.skipWhitespace steps state.config
        parseEntries steps fuel amRoot { state with config := config } parent parentFlags target h

/-- The loop of `parse_config_string` over the entries. -/
def parseEntries (steps : Nat) : Nat → Nat → State → List Span → Nat → Option Nat → Heap →
    Reading Nat Fault (State × Heap)
  | 0, _, _, _, _, _, _ => throw .fuel
  | fuel + 1, amRoot, state, parent, parentFlags, target, h => do
    let c ← rom.read state.config
    if c ≠ 0 ∧ c ≠ closeBrace then do
      let keyStart := state.config
      let keyEnd ← rom.skipKey steps keyStart
      let state := { state with keyStart := keyStart, keyEnd := keyEnd }
      let iface ← rom.parserKeyEq keyStart keyEnd interfaceKey
      let h := if iface then { h with roots := h.roots.set amRoot 1 } else h
      let flags ← rom.keyFlags keyStart keyEnd
      let config ← rom.skipWhitespace steps keyEnd
      let (state, h) ← parseValues steps fuel iface flags { state with config := config } parent
        parentFlags target h
      let config ← rom.stepOver semicolon state.config
      let h ← rom.recordEnd steps state.pass h.roots[amRoot]? target config h
      let config ← rom.skipWhitespace steps config
      parseEntries steps fuel amRoot { state with config := config } parent parentFlags target h
    else pure (state, h)

/-- The loop of `parse_config_string` over the values of one entry. -/
def parseValues (steps : Nat) : Nat → Bool → Nat → State → List Span → Nat → Option Nat → Heap →
    Reading Nat Fault (State × Heap)
  | 0, _, _, _, _, _, _, _ => throw .fuel
  | fuel + 1, iface, flags, state, parent, parentFlags, target, h => do
    let c ← rom.read state.config
    if c ≠ 0 ∧ c ≠ semicolon then do
      let (state, h) ←
        (if c = quote then do
          let (names, h) ←
            (if iface then rom.parseInterface steps state.pass state.config target state.names h
            else pure (state.names, h))
          let config ← rom.skipString steps (state.config + 1)
          pure ({ state with names := names, config := config }, h)
        else if c = openBrace then do
          let config ← rom.skipNewline steps (state.config + 1)
          -- `state.parent = parent`, and `&state` is the new parent
          let (state, h) ← parseConfigString steps fuel { state with config := config }
            (⟨state.keyStart, state.keyEnd⟩ :: parent) flags target h
          let config ← rom.stepOver closeBrace state.config
          pure ({ state with config := config }, h)
        else do
          let (names, h) ←
            (if iface then rom.parseInterface steps state.pass state.config target state.names h
            else pure (state.names, h))
          let (names, h) ←
            (if parentFlags ≠ 0 then
              rom.parseRange steps state.pass state.config state.keyStart state.keyEnd parent
                parentFlags target names h
            else pure (names, h))
          let (names, h) ←
            (if flags ≠ 0 then
              rom.parseSingle steps state.pass state.config parent flags target names h
            else pure (names, h))
          let config ← rom.skipKey steps (state.config + 1)
          pure ({ state with names := names, config := config }, h))
      let config ← rom.skipWhitespace steps state.config
      parseValues steps fuel false flags { state with config := config } parent parentFlags target h
    else pure (state, h)

end

/-! ## What the pointers stand for -/

/-- Two pointers into the string, in this order. -/
def KeyAt (start stop : Nat) : Prop := start ≤ stop ∧ stop ≤ rom.nul

def key (k : Span) : Key := ⟨rom.text k.start, rom.text k.stop⟩

def state (s : State) : ParserState :=
  ⟨s.pass, s.roots, rom.text s.config, s.devices, s.names, rom.text s.keyStart, rom.text s.keyEnd⟩

variable {rom}

theorem readRange_inside {start stop : Nat} (hk : rom.KeyAt start stop) :
    rom.Inside rom.Excused Eq (Reading.readRange rom.byte start (stop - start))
      (.ok (between (rom.text start) (rom.text stop))) := by
  rw [between_text hk.1 hk.2]
  exact .readRange fun q _ hq => Nat.le_trans (Nat.le_of_lt (by omega)) hk.2

theorem readSpan_inside {start stop : Nat} (hk : rom.KeyAt start stop) :
    rom.Inside rom.Excused Eq (rom.readSpan start stop)
      (.ok (between (rom.text start) (rom.text stop))) := by
  have hlen : stop - start ≤ rom.nul + 1 := by
    have := hk.2
    omega
  refine (toInt_inside hlen).bind_ok fun len hl => ?_
  rw [hl]
  exact readRange_inside hk

/-! ## The helpers refine those of lists -/

theorem parserKeyEq_inside {start stop : Nat} (hk : rom.KeyAt start stop) (key : List UInt8) :
    rom.Inside rom.Excused Eq (rom.parserKeyEq start stop key)
      (.ok (Config.parserKeyEq (rom.text start) (rom.text stop) key)) := by
  unfold parserKeyEq
  split_ifs with hlen
  · exact (readRange_inside hk).bind_ok fun bytes hb => .pure (by rw [hb]; rfl)
  -- keys of other lengths differ
  · refine .pure (decide_eq_false fun h => hlen ?_).symm
    rw [← h, between_text hk.1 hk.2, List.length_map, List.length_range']

theorem key_bytes {k : Span} (hk : rom.KeyAt k.start k.stop) :
    (rom.key k).bytes = (List.range' k.start (k.stop - k.start)).map rom.byte :=
  between_text hk.1 hk.2

theorem configPathHelper_inside (pass : Nat) : ∀ (parent : List Span) (names : Nat) (h : Heap),
    (∀ k ∈ parent, rom.KeyAt k.start k.stop) →
    rom.Inside rom.Excused Eq (rom.configPathHelper pass parent names h)
      (Config.configPathHelper pass (parent.map rom.key) names h)
  | [], _, _, _ => .throw _
  | k :: up, names, h, hk => by
    have hk0 := hk k List.mem_cons_self
    have hup : ∀ k ∈ up, rom.KeyAt k.start k.stop := fun k hm => hk k (List.mem_cons_of_mem _ hm)
    have hlen : (rom.key k).bytes.length = k.stop - k.start := by
      rw [key_bytes hk0, List.length_map, List.length_range']
    have hint : k.stop - k.start ≤ rom.nul + 1 := by
      have := hk0.2
      omega
    refine (toInt_inside hint).bind_ok fun len hl => ?_
    subst hl
    rw [List.map_cons, Config.configPathHelper, hlen]
    refine Refines.bind (R := Eq) ?_ fun r r' hr => ?_
    · simp only [List.map_eq_nil_iff]
      split_ifs
      · exact .pure rfl
      · exact configPathHelper_inside pass up names h hup
    subst hr
    refine Refines.bind (R := Eq) ?_ fun h' _ hh => ?_
    · split_ifs
      · refine (readRange_inside hk0).bind_ok fun bytes hb => ?_
        rw [hb]
        exact .lift _
      · exact .pure rfl
    subst hh
    exact .pure rfl

theorem configPath_inside (pass : Nat) {parent : List Span} (names : Nat) (h : Heap)
    (hk : ∀ k ∈ parent, rom.KeyAt k.start k.stop) :
    rom.Inside rom.Excused Eq (rom.configPath pass parent names h)
      (Config.configPath pass (parent.map rom.key) names h) := by
  cases parent with
  | nil => exact .pure rfl
  | cons k up =>
    refine (configPathHelper_inside pass (k :: up) names h hk).bind fun r r' hr => ?_
    subst hr
    refine (Refines.lift _).bind fun h' _ hh => ?_
    subst hh
    exact .pure rfl

variable {steps p : Nat} {E : Fault → Prop}

theorem parseInterface_inside (hp : p ≤ rom.nul) (hn : rom.nul < steps) (pass : Nat)
    (target : Option Nat) (names : Nat) (h : Heap) :
    rom.Inside rom.Excused Eq (rom.parseInterface steps pass p target names h)
      (Config.parseInterface pass (rom.text p) target names h) := by
  refine (Refines.lift _).bind fun h' _ hh => ?_
  subst hh
  refine (parseString_inside (at_text hp) hn _).bind_ok fun out ho => ?_
  subst ho
  refine (Refines.lift _).bind fun h' _ hh => ?_
  subst hh
  exact .pure rfl

theorem complain_inside {start stop : Nat} (hk : rom.KeyAt start stop) (last : Bool)
    (message : List UInt8 → Message) (h : Heap) :
    rom.Inside rom.Excused Eq (rom.complain last message start stop h)
      (.ok (if last then h.printk (message (between (rom.text start) (rom.text stop)))
        else h)) := by
  unfold complain
  split_ifs
  · exact (readSpan_inside hk).bind_ok fun bytes hb => .pure (by rw [hb])
  · exact .pure rfl

/-- A complaint and the rest of the function. -/
theorem complained_inside {start stop : Nat} (hk : rom.KeyAt start stop) (last : Bool)
    (message : List UInt8 → Message) (names : Nat) (h : Heap) :
    rom.Inside rom.Excused Eq
      (do
        let h ← rom.complain last message start stop h
        pure (names, h))
      (.ok (names,
        if last then h.printk (message (between (rom.text start) (rom.text stop))) else h)) :=
  (complain_inside hk last message h).bind_ok fun h' hh => .pure (by rw [hh])

theorem parseRange_inside {keyStart keyEnd : Nat} {parent : List Span} (hp : p ≤ rom.nul)
    (hkey : rom.KeyAt keyStart keyEnd) (hk : ∀ k ∈ parent, rom.KeyAt k.start k.stop)
    (hn : rom.nul < steps) (pass flags : Nat) (target : Option Nat) (names : Nat) (h : Heap) :
    rom.Inside rom.Excused Eq
      (rom.parseRange steps pass p keyStart keyEnd parent flags target names h)
      (Config.parseRange pass (rom.text p) (rom.text keyStart) (rom.text keyEnd)
        (parent.map rom.key) flags target names h) := by
  refine (Refines.lift _).bind fun last _ hl => ?_
  subst hl
  refine (skipKey_inside (at_text hp) hn).bind_ok fun tail ht => ?_
  refine (parseU64_inside (at_text hp) hn).bind_ok fun value hv => ?_
  have hstart : keyStart ≤ rom.nul := Nat.le_trans hkey.1 hkey.2
  refine (parseU64_inside (at_text hstart) hn).bind_ok fun key hu => ?_
  have htail : rom.KeyAt p tail := ⟨(at_text hp).le_of_suffix ht (skipKey_suffix _), ht.le⟩
  have hkeys := not_congr (hu.1.eq_iff (at_text hkey.2))
  have hvalues := not_congr (hv.1.eq_iff (at_text ht.le))
  by_cases h1 : key.1 ≠ keyEnd
  · rw [if_pos h1]
    simp only [if_pos (hkeys.mp h1)]
    exact complained_inside hkey last _ names h
  rw [if_neg h1]
  by_cases h2 : value.1 ≠ tail
  · rw [if_pos h2]
    simp only [if_neg (mt hkeys.mpr h1), ← ht.text, if_pos (hvalues.mp h2)]
    exact complained_inside htail last _ names h
  rw [if_neg h2]
  simp only [if_neg (mt hkeys.mpr h1), ← ht.text, if_neg (mt hvalues.mpr h2)]
  cases target with
  | none => exact .pure rfl
  | some t =>
    cases parent with
    | nil => exact .throw _
    | cons k up =>
      refine (configPath_inside pass names h fun k hm => hk k (List.mem_cons_of_mem _ hm)).bind
        fun r r' hr => ?_
      subst hr
      rw [hu.2, hv.2]
      refine (Refines.lift _).bind fun h' _ hh => ?_
      subst hh
      exact .pure rfl

theorem parseSingle_inside {parent : List Span} (hp : p ≤ rom.nul)
    (hk : ∀ k ∈ parent, rom.KeyAt k.start k.stop) (hn : rom.nul < steps) (pass flags : Nat)
    (target : Option Nat) (names : Nat) (h : Heap) :
    rom.Inside rom.Excused Eq (rom.parseSingle steps pass p parent flags target names h)
      (Config.parseSingle pass (rom.text p) (parent.map rom.key) flags target names h) := by
  refine (Refines.lift _).bind fun last _ hl => ?_
  subst hl
  refine (skipKey_inside (at_text hp) hn).bind_ok fun tail ht => ?_
  refine (parseU64_inside (at_text hp) hn).bind_ok fun value hv => ?_
  have htail : rom.KeyAt p tail := ⟨(at_text hp).le_of_suffix ht (skipKey_suffix _), ht.le⟩
  have hvalues := not_congr (hv.1.eq_iff (at_text ht.le))
  by_cases h2 : value.1 ≠ tail
  · rw [if_pos h2]
    simp only [← ht.text, if_pos (hvalues.mp h2)]
    exact complained_inside htail last _ names h
  rw [if_neg h2]
  simp only [← ht.text, if_neg (mt hvalues.mpr h2)]
  cases target with
  | none => exact .pure rfl
  | some t =>
    refine (configPath_inside pass names h hk).bind fun r r' hr => ?_
    subst hr
    rw [hv.2]
    refine (Refines.lift _).bind fun h' _ hh => ?_
    subst hh
    exact .pure rfl

theorem openDevice_inside {parent : List Span} (hk : ∀ k ∈ parent, rom.KeyAt k.start k.stop)
    (pass dev group flags config names : Nat) (h : Heap) :
    rom.Inside rom.Excused Eq (rom.openDevice pass dev group flags parent config names h)
      (Config.openDevice pass dev group flags (parent.map rom.key) (rom.text config) names h) := by
  refine (configPath_inside pass names h hk).bind fun r r' hr => ?_
  subst hr
  refine (Refines.lift _).bind fun d _ hd => ?_
  subst hd
  exact .pure rfl

theorem recordEnd_inside (hp : p ≤ rom.nul) (hn : rom.nul < steps) (pass : Nat)
    (root : Option UInt8) (target : Option Nat) (h : Heap) :
    rom.Inside rom.Excused Eq (rom.recordEnd steps pass root target p h)
      (Config.recordEnd pass root target (Config.skipNewline (rom.text p)) h) := by
  cases root with
  | none => exact .throw _
  | some root =>
    cases target with
    | none => exact .pure rfl
    | some dev =>
      unfold recordEnd Config.recordEnd
      simp only
      split_ifs
      · refine (skipNewline_inside (at_text hp) hn).bind_ok fun stop hs => ?_
        rw [hs.text]
        exact .lift _
      · exact .pure rfl

theorem keyFlags_inside {start stop : Nat} (hk : rom.KeyAt start stop) :
    rom.Inside rom.Excused Eq (rom.keyFlags start stop)
      (.ok (Config.keyFlags (rom.text start) (rom.text stop))) := by
  refine (parserKeyEq_inside hk irqKey).bind_ok fun isIrq h1 => ?_
  refine (parserKeyEq_inside hk busKey).bind_ok fun isBus h2 => ?_
  refine (parserKeyEq_inside hk memKey).bind_ok fun isMem h3 => ?_
  rw [h1, h2, h3]
  exact .pure rfl

theorem stepOver_inside {c : UInt8} (h0 : c ≠ 0) (hp : p ≤ rom.nul) :
    rom.Inside E rom.At (rom.stepOver c p)
      (.ok (if deref (rom.text p) = c then (rom.text p).tail else rom.text p)) := by
  refine read_bind (at_text hp) (.pure ?_)
  split_ifs with hc
  · exact at_next (next_le hp hc h0)
  · exact at_text hp

/-! ## The parser refines the parser of lists -/

variable (rom) in
/-- The pointers of the state are in the string; those of the key are when `K` says so, as the
parser starts without a key. -/
def StateIn (K : Prop) (s : State) : Prop :=
  s.config ≤ rom.nul ∧ (K → rom.KeyAt s.keyStart s.keyEnd)

variable (rom) in
/-- The parser returns the state that the pointers stand for. -/
def Stopped (K : Prop) (a : State × Heap) (b : ParserState × Heap) : Prop :=
  rom.StateIn K a.1 ∧ (rom.state a.1, a.2) = b

theorem keyAt_at {q : Nat} {t : Text} (hp : p ≤ rom.nul) (hq : rom.At q t) (h : t <:+ rom.text p) :
    rom.KeyAt p q := ⟨(at_text hp).le_of_suffix hq h, hq.le⟩

mutual

/-- **The parser stays in the string**, and does what the parser of lists does. -/
theorem parseConfigString_inside (hn : rom.nul < steps) : ∀ (fuel : Nat) {K : Prop} (s : State)
    (parent : List Span) (parentFlags : Nat) (target : Option Nat) (h : Heap), rom.StateIn K s →
    (∀ k ∈ parent, rom.KeyAt k.start k.stop) →
    rom.Inside rom.Excused (rom.Stopped K)
      (rom.parseConfigString steps fuel s parent parentFlags target h)
      (Config.parseConfigString fuel (rom.state s) (parent.map rom.key) parentFlags target h)
  | 0, _, _, _, _, _, _, _, _ => by
    rw [parseConfigString, Config.parseConfigString]
    exact .throw _
  | fuel + 1, K, s, parent, parentFlags, target, h, hs, hk => by
    rw [parseConfigString, Config.parseConfigString]
    have hroots : h.roots[(rom.state s).roots]? = h.roots[s.roots]? := rfl
    simp only [hroots]
    cases h.roots[s.roots]? with
    | none => exact .throw _
    | some root =>
      refine .ite Iff.rfl (fun _ => ?_) fun _ => ?_
      · refine Refines.bind (R := Eq) ?_ fun r r' hr => ?_
        · exact .ite Iff.rfl (fun _ => openDevice_inside hk _ _ _ _ _ _ h) fun _ => .pure rfl
        subst hr
        refine (skipWhitespace_inside (at_text hs.1) hn).bind_ok fun config hc => ?_
        have ih := parseEntries_inside hn fuel s.roots { s with
          roots := s.roots + 1, names := r.1, devices := s.devices + 1, config := config } []
          parentFlags (if HAVE_DEVICES ≤ s.pass then some s.devices else target) r.2
          ⟨hc.le, hs.2⟩ fun _ hm => nomatch hm
        simp only [state, hc.text] at ih
        exact ih
      · refine (skipWhitespace_inside (at_text hs.1) hn).bind_ok fun config hc => ?_
        have ih := parseEntries_inside hn fuel s.roots
          { s with roots := s.roots + 1, config := config } parent parentFlags target h
          ⟨hc.le, hs.2⟩ hk
        simp only [state, hc.text] at ih
        exact ih

theorem parseEntries_inside (hn : rom.nul < steps) : ∀ (fuel am : Nat) {K : Prop} (s : State)
    (parent : List Span) (parentFlags : Nat) (target : Option Nat) (h : Heap), rom.StateIn K s →
    (∀ k ∈ parent, rom.KeyAt k.start k.stop) →
    rom.Inside rom.Excused (rom.Stopped K)
      (rom.parseEntries steps fuel am s parent parentFlags target h)
      (Config.parseEntries fuel am (rom.state s) (parent.map rom.key) parentFlags target h)
  | 0, _, _, _, _, _, _, _, _, _ => by
    rw [parseEntries, Config.parseEntries]
    exact .throw _
  | fuel + 1, am, K, s, parent, parentFlags, target, h, hs, hk => by
    rw [parseEntries, Config.parseEntries]
    refine read_bind (at_text hs.1) (.ite Iff.rfl (fun _ => ?_) fun _ => .pure ⟨hs, rfl⟩)
    refine (skipKey_inside (at_text hs.1) hn).bind_ok fun keyEnd hke => ?_
    have hkey := keyAt_at hs.1 hke (skipKey_suffix _)
    refine (parserKeyEq_inside hkey interfaceKey).bind_ok fun iface hi => ?_
    refine (keyFlags_inside hkey).bind_ok fun flags hf => ?_
    refine (skipWhitespace_inside hke hn).bind_ok fun config hc => ?_
    rw [hke.text] at hi hf
    subst hi hf
    have ih := fun iface flags h => parseValues_inside hn fuel iface flags
      { s with keyStart := s.config, keyEnd := keyEnd, config := config } parent parentFlags target
      h ⟨hc.le, fun _ => hkey⟩ hk
    simp only [state, hc.text, hke.text] at ih
    refine (ih _ _ _).bind fun r r' hr => ?_
    obtain ⟨⟨hcfg, hkeys⟩, rfl⟩ := hr
    refine (stepOver_inside (by decide) hcfg).bind_ok fun config hc => ?_
    refine Refines.bind (R := Eq) ?_ fun h' _ hh => ?_
    · have he := recordEnd_inside hc.le hn r.1.pass r.2.roots[am]? target r.2
      rw [hc.text] at he
      exact he
    subst hh
    refine (skipWhitespace_inside hc hn).bind_ok fun config hw => ?_
    have ih := parseEntries_inside hn fuel am { r.1 with config := config } parent parentFlags
      target h' ⟨hw.le, fun _ : K => hkeys trivial⟩ hk
    simp only [state, hw.text] at ih
    exact ih

theorem parseValues_inside (hn : rom.nul < steps) : ∀ (fuel : Nat) (iface : Bool) (flags : Nat)
    (s : State) (parent : List Span) (parentFlags : Nat) (target : Option Nat) (h : Heap),
    rom.StateIn True s → (∀ k ∈ parent, rom.KeyAt k.start k.stop) →
    rom.Inside rom.Excused (rom.Stopped True)
      (rom.parseValues steps fuel iface flags s parent parentFlags target h)
      (Config.parseValues fuel iface flags (rom.state s) (parent.map rom.key) parentFlags target h)
  | 0, _, _, _, _, _, _, _, _, _ => by
    rw [parseValues, Config.parseValues]
    exact .throw _
  | fuel + 1, iface, flags, s, parent, parentFlags, target, h, hs, hk => by
    rw [parseValues, Config.parseValues]
    refine read_bind (at_text hs.1) (.ite Iff.rfl (fun h0 => ?_) fun _ => .pure ⟨hs, rfl⟩)
    have hnext := at_next (next_le hs.1 rfl h0.1)
    refine Refines.bind (R := rom.Stopped True) ?_ fun r r' hr => ?_
    · refine .ite Iff.rfl (fun _ => ?_) fun _ => .ite Iff.rfl (fun _ => ?_) fun _ => ?_
      · refine Refines.bind (R := Eq) ?_ fun r r' hr => ?_
        · exact .ite Iff.rfl (fun _ => parseInterface_inside hs.1 hn _ _ _ _) fun _ => .pure rfl
        subst hr
        refine (skipString_inside hnext hn).bind_ok fun config hc => .pure ⟨⟨hc.le, hs.2⟩, ?_⟩
        simp only [state, hc.text]
      · refine (skipNewline_inside hnext hn).bind_ok fun config hc => ?_
        have ih := parseConfigString_inside hn fuel { s with config := config }
          (⟨s.keyStart, s.keyEnd⟩ :: parent) flags target h ⟨hc.le, hs.2⟩
          (List.forall_mem_cons.mpr ⟨hs.2 trivial, hk⟩)
        simp only [state, hc.text] at ih
        refine ih.bind fun r r' hr => ?_
        obtain ⟨⟨hcfg, hkeys⟩, rfl⟩ := hr
        refine (stepOver_inside (by decide) hcfg).bind_ok fun config hc => ?_
        refine .pure ⟨⟨hc.le, hkeys⟩, ?_⟩
        simp only [state, hc.text]
        rfl
      · refine Refines.bind (R := Eq) ?_ fun r r' hr => ?_
        · exact .ite Iff.rfl (fun _ => parseInterface_inside hs.1 hn _ _ _ _) fun _ => .pure rfl
        subst hr
        refine Refines.bind (R := Eq) ?_ fun r' r'' hr => ?_
        · exact .ite Iff.rfl (fun _ => parseRange_inside hs.1 (hs.2 trivial) hk hn _ _ _ _ _)
            fun _ => .pure rfl
        subst hr
        refine Refines.bind (R := Eq) ?_ fun r' r'' hr => ?_
        · exact .ite Iff.rfl (fun _ => parseSingle_inside hs.1 hk hn _ _ _ _ _)
            fun _ => .pure rfl
        subst hr
        refine (skipKey_inside hnext hn).bind_ok fun config hc => .pure ⟨⟨hc.le, hs.2⟩, ?_⟩
        simp only [state, hc.text]
    · obtain ⟨⟨hcfg, hkeys⟩, rfl⟩ := hr
      refine (skipWhitespace_inside (at_text hcfg) hn).bind_ok fun config hc => ?_
      have ih := parseValues_inside hn fuel false flags { r.1 with config := config } parent
        parentFlags target r.2 ⟨hc.le, hkeys⟩ hk
      simp only [state, hc.text] at ih
      exact ih

end

end LowriscLinux.Config.Rom
