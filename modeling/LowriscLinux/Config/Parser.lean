import LowriscLinux.Config.Literal
import LowriscLinux.Config.Scan
import Mathlib.Algebra.Ring.Nat

/-!
# The config-string parser

Model of `parse_config_string`, the helpers it calls and `config_find_devices`
(`arch/riscv/drivers/config.c`, lines 298-603). The parser runs three times over one text: pass 0
marks in `roots[]` the groups that have an `interface` key, pass 1 counts the resources of each such
group and the bytes of all names, pass 2 fills the arrays sized from these counts.

## What models what

* `ParserState`: `struct parser_state` (lines 308-317), which is passed by value. A pointer to one
  is only followed to the keys of the activations that enclose the current one: it is the list of
  these keys, nearest first, and NULL is the empty list. The field `parent` is the tail of that list
  and needs no place in the state.
* `parserKeyEq`: `parser_key_eq` (lines 319-324). `configPathHelper` and `configPath`: lines
  327-350. `parseInterface`: lines 352-357.
* `parseRange` and `parseSingle`: lines 359-409 and 411-451. Their common end, which fills the next
  slot of the target and counts it, is `addResource`.
* `openDevice`: the branch of a marked group (lines 463-470). `recordEnd`: lines 512-514.
  `keyFlags`: lines 485-487.
* `parseConfigString`: `parse_config_string` up to its loops (lines 459-475), `parseEntries` the
  loop over the entries (lines 476-516) and `parseValues` that over the values of one (lines
  490-510).
* `detectRoots`, `countResources` and `writeResources`: the passes of `config_find_devices` with the
  sums between them (lines 534-541, 543-561 and 563-591). `assignResources` is the loop of lines
  579-583. The blocks that `kzalloc` returns are zeroed, and a cell of the block that `krealloc`
  returned (line 573) is `none` until it is written.

Where it departs from the source:

* `roots`, `devices` and `names` are offsets from the start of the block they point into (in pass 1
  `names` starts at 0, as in line 560). The three arrays carved from one block (lines 569-577) are
  separate lists, and their alignment is left out. Allocation succeeds: the source stops with
  `BUG_ON` otherwise.
* What C leaves undefined (a NULL parent, an access outside a block, a size that is no `int`) is a
  `Fault`, after which nothing is known. `Fault.fuel` is the bound of the model's recursion;
  `config_find_devices` never reaches it.
* `Heap.events` is a ghost: what a pass did so far, in order, for the statements about every moment
  of a pass. No definition reads it.
* The registration of the devices (lines 596-600) is in `Config/Driver.lean`.
-/

namespace LowriscLinux.Config

/-! ## Data -/

/-- `IORESOURCE_*`. -/
abbrev IORESOURCE_MEM : Nat := 0x200
abbrev IORESOURCE_IRQ : Nat := 0x400
abbrev IORESOURCE_BUS : Nat := 0x1000

abbrev HAVE_DEVICES : Nat := 1
abbrev HAVE_NAMES : Nat := 2

/-- The keywords `interface`, `irq`, `bus` and `mem`. -/
def interfaceKey : List UInt8 := [105, 110, 116, 101, 114, 102, 97, 99, 101]
def irqKey : List UInt8 := [105, 114, 113]
def busKey : List UInt8 := [98, 117, 115]
def memKey : List UInt8 := [109, 101, 109]

inductive Fault
  | fuel
  /-- `*am_root` outside the block of `roots`. -/
  | roots
  /-- `parent->parent` of a NULL `parent`. -/
  | parent
  | devices
  | resources
  /-- A byte outside `[names, names + size_names)`. -/
  | names
  /-- A size that does not fit its `int`. -/
  | size
  deriving DecidableEq, Repr

/-- A name: the literal `"."` or a pointer into the names. -/
inductive Name
  | dot
  | names (off : Nat)
  deriving DecidableEq, Repr

structure Resource where
  name  : Name
  flags : Nat
  start : BitVec 64
  stop  : BitVec 64
  deriving DecidableEq, Repr

/-- The fields of `struct platform_device` the parser writes; all zero at first. -/
structure PlatformDevice where
  name           : Option Name := none
  id             : Int := 0
  numResources   : Nat := 0
  resource       : Option Nat := none
  driverOverride : Option Nat := none
  configStart    : Option Text := none
  configEnd      : Option Text := none
  deriving DecidableEq, Repr

/-- `key_start` and `key_end`. -/
structure Key where
  start : Text
  stop  : Text
  deriving DecidableEq, Repr

def Key.bytes (k : Key) : List UInt8 := between k.start k.stop

/-- The two complaints of the parser, with the bytes they print. -/
inductive Message
  | invalidKey (key : List UInt8)
  | invalidValue (value : List UInt8)
  deriving DecidableEq, Repr

/-- The format each message is printed with. -/
def Message.format : Message → String
  | .invalidKey _ => "platform: ignoring invalid resource key '%*pE'\n"
  | .invalidValue _ => "platform: ignoring invalid resource value '%*pE'\n"

/-- Ghost: what a pass did. -/
inductive Event
  /-- The group with this number, the value of a key with these flags, got this device. -/
  | device (dev group flags : Nat)
  /-- A byte was stored through `names`. -/
  | byte (off : Nat)
  /-- A string was laid out in `[start, stop)`. -/
  | string (start stop : Nat)
  /-- `devices[dev].resource[idx]` was written. -/
  | resource (dev idx : Nat)
  /-- `devices[dev].num_resources` became `n`. -/
  | count (dev n : Nat)
  deriving DecidableEq, Repr

structure Heap where
  roots     : List UInt8
  devices   : List PlatformDevice := []
  resources : List (Option Resource) := []
  names     : List (Option UInt8) := []
  dmesg     : List Message := []
  events    : List Event := []

structure ParserState where
  pass     : Nat
  roots    : Nat
  config   : Text
  devices  : Nat
  names    : Nat
  keyStart : Text
  keyEnd   : Text

/-! ## Memory -/

def Heap.log (h : Heap) (e : Event) : Heap := { h with events := h.events ++ [e] }

def Heap.printk (h : Heap) (m : Message) : Heap := { h with dmesg := h.dmesg ++ [m] }

def Heap.device (h : Heap) (i : Nat) : Except Fault PlatformDevice :=
  match h.devices[i]? with
  | some d => .ok d
  | none => .error .devices

def Heap.setDevice (h : Heap) (i : Nat) (d : PlatformDevice) : Heap :=
  { h with devices := h.devices.set i d }

/-- Store one byte through `names`. -/
def Heap.storeName (h : Heap) (off : Nat) (b : UInt8) : Except Fault Heap :=
  if off < h.names.length then
    .ok ({ h with names := h.names.set off (some b) }.log (.byte off))
  else .error .names

/-- Store consecutive bytes through `names`. -/
def Heap.storeNames (h : Heap) : Nat → List UInt8 → Except Fault Heap
  | _, [] => .ok h
  | off, b :: bs => do
    let h ← h.storeName off b
    h.storeNames (off + 1) bs

/-- `*name`: the literal is not empty, and a name in memory has been written before it is read. -/
def Heap.nameHead (h : Heap) : Name → Except Fault UInt8
  | .dot => .ok dot
  | .names off =>
    match h.names[off]? with
    | some (some b) => .ok b
    | _ => .error .names

/-- Write `devices[i].resource[idx]`. -/
def Heap.storeResource (h : Heap) (i base idx : Nat) (r : Resource) : Except Fault Heap :=
  if base + idx < h.resources.length then
    .ok ({ h with resources := h.resources.set (base + idx) (some r) }.log (.resource i idx))
  else .error .resources

/-! ## Names -/

def parserKeyEq (keyStart keyEnd : Text) (key : List UInt8) : Bool :=
  between keyStart keyEnd = key

/-- `config_path_helper`: of `*state` it reads `pass` and advances `names`. -/
def configPathHelper (pass : Nat) : List Key → Nat → Heap → Except Fault (Nat × Heap)
  | [], _, _ => .error .parent
  | k :: up, names, h => do
    let (names, h) ← (if up = [] then .ok (names, h) else configPathHelper pass up names h)
    let h ← (if HAVE_NAMES ≤ pass then h.storeNames names (k.bytes ++ [dot]) else .ok h)
    .ok (names + k.bytes.length + 1, h)

/-- `config_path`. -/
def configPath (pass : Nat) (parent : List Key) (names : Nat) (h : Heap) :
    Except Fault (Name × Nat × Heap) :=
  match parent with
  | [] => .ok (.dot, names, h)
  | k :: up => do
    let output := names
    let (names, h) ← configPathHelper pass (k :: up) names h
    let h ← (if HAVE_NAMES ≤ pass then h.storeName (names - 1) 0 else .ok h)
    .ok (.names output, names, h.log (.string output names))

/-- `parse_interface`: of `*state` it reads `pass` and `config` and advances `names`. -/
def parseInterface (pass : Nat) (config : Text) (target : Option Nat) (names : Nat) (h : Heap) :
    Except Fault (Nat × Heap) := do
  let len := if HAVE_NAMES ≤ pass then 65536 else 0
  let h ← (match target with
    | some t => do
      let d ← h.device t
      .ok (h.setDevice t { d with driverOverride := some names })
    | none => .ok h)
  let out := parseString config len
  let h ← h.storeNames names out.2
  .ok (names + out.1, h.log (.string names (names + out.1)))

/-! ## Resources -/

/-- `last_pass = target && target->resource`. -/
def lastPass (h : Heap) : Option Nat → Except Fault Bool
  | none => .ok false
  | some t => do
    let d ← h.device t
    .ok d.resource.isSome

/-- The end of `parse_range` and of `parse_single`: fill the next slot of the target, when it has
its array, and count it. -/
def addResource (h : Heap) (t : Nat) (name : Name) (flags : Nat) (start stop : BitVec 64) :
    Except Fault Heap := do
  let d ← h.device t
  let h ← (match d.resource with
    | some base => do
      let c ← h.nameHead name
      h.storeResource t base d.numResources ⟨if c ≠ 0 then name else .dot, flags, start, stop⟩
    | none => .ok h)
  .ok ((h.setDevice t { d with numResources := d.numResources + 1 }).log
    (.count t (d.numResources + 1)))

/-- `parse_range`: of `*state` it reads `pass`, `config` and the key and advances `names`. -/
def parseRange (pass : Nat) (config keyStart keyEnd : Text) (parent : List Key) (flags : Nat)
    (target : Option Nat) (names : Nat) (h : Heap) : Except Fault (Nat × Heap) := do
  let last ← lastPass h target
  let valueTail := skipKey config
  let value := parseU64 config
  let key := parseU64 keyStart
  if key.1 ≠ keyEnd then
    .ok (names, if last then h.printk (.invalidKey (between keyStart keyEnd)) else h)
  else if value.1 ≠ valueTail then
    .ok (names, if last then h.printk (.invalidValue (between config valueTail)) else h)
  else
    match target with
    | none => .ok (names, h)
    | some t =>
      match parent with
      | [] => .error .parent
      | _ :: up => do
        let (name, names, h) ← configPath pass up names h
        let h ← addResource h t name flags key.2 value.2
        .ok (names, h)

/-- `parse_single`. -/
def parseSingle (pass : Nat) (config : Text) (parent : List Key) (flags : Nat)
    (target : Option Nat) (names : Nat) (h : Heap) : Except Fault (Nat × Heap) := do
  let last ← lastPass h target
  let valueTail := skipKey config
  let value := parseU64 config
  if value.1 ≠ valueTail then
    .ok (names, if last then h.printk (.invalidValue (between config valueTail)) else h)
  else
    match target with
    | none => .ok (names, h)
    | some t => do
      let (name, names, h) ← configPath pass parent names h
      let h ← addResource h t name flags value.2 value.2
      .ok (names, h)

/-! ## The recursive parser -/

/-- The device a root group gets: `group` is its number and `flags` its `parent_flags`. -/
def openDevice (pass dev group flags : Nat) (parent : List Key) (config : Text) (names : Nat)
    (h : Heap) : Except Fault (Nat × Heap) := do
  let (name, names, h) ← configPath pass parent names h
  let d ← h.device dev
  let h := h.setDevice dev { d with
    name := some name, id := -1, numResources := 0,
    configStart := some config, configEnd := some config }
  .ok (names, (h.log (.device dev group flags)).log (.count dev 0))

/-- `target->archdata.config_end = stop`. -/
def setConfigEnd (dev : Nat) (stop : Text) (h : Heap) : Except Fault Heap := do
  let d ← h.device dev
  .ok (h.setDevice dev { d with configEnd := some stop })

/-- `if (*am_root && state.pass >= HAVE_DEVICES) target->archdata.config_end = stop;`: a marked
group has a target from pass 1 on. -/
def recordEnd (pass : Nat) (root : Option UInt8) (target : Option Nat) (stop : Text) (h : Heap) :
    Except Fault Heap :=
  match root, target with
  | none, _ => .error .roots
  | some root, some dev =>
    if root ≠ 0 ∧ HAVE_DEVICES ≤ pass then setConfigEnd dev stop h else .ok h
  | some _, none => .ok h

def keyFlags (keyStart keyEnd : Text) : Nat :=
  let flags := if parserKeyEq keyStart keyEnd irqKey then IORESOURCE_IRQ else 0
  let flags := if parserKeyEq keyStart keyEnd busKey then IORESOURCE_BUS else flags
  if parserKeyEq keyStart keyEnd memKey then IORESOURCE_MEM else flags

mutual

/-- `parse_config_string`. -/
def parseConfigString : Nat → ParserState → List Key → Nat → Option Nat → Heap →
    Except Fault (ParserState × Heap)
  | 0, _, _, _, _, _ => .error .fuel
  | fuel + 1, state, parent, parentFlags, target, h =>
    let amRoot := state.roots
    let state := { state with roots := state.roots + 1 }
    match h.roots[amRoot]? with
    | none => .error .roots
    | some root =>
      if root ≠ 0 then do
        let dev := state.devices
        let (names, h) ←
          (if HAVE_DEVICES ≤ state.pass then
            openDevice state.pass dev amRoot parentFlags parent state.config state.names h
          else .ok (state.names, h))
        let target := if HAVE_DEVICES ≤ state.pass then some dev else target
        let state := { state with names := names, devices := state.devices + 1 }
        let state := { state with config := skipWhitespace state.config }
        parseEntries fuel amRoot state [] parentFlags target h
      else
        let state := { state with config := skipWhitespace state.config }
        parseEntries fuel amRoot state parent parentFlags target h

/-- The loop of `parse_config_string` over the entries. -/
def parseEntries : Nat → Nat → ParserState → List Key → Nat → Option Nat → Heap →
    Except Fault (ParserState × Heap)
  | 0, _, _, _, _, _, _ => .error .fuel
  | fuel + 1, amRoot, state, parent, parentFlags, target, h =>
    if deref state.config ≠ 0 ∧ deref state.config ≠ closeBrace then do
      let state := { state with keyStart := state.config, config := skipKey state.config }
      let state := { state with keyEnd := state.config }
      let iface := parserKeyEq state.keyStart state.keyEnd interfaceKey
      let h := if iface then { h with roots := h.roots.set amRoot 1 } else h
      let flags := keyFlags state.keyStart state.keyEnd
      let state := { state with config := skipWhitespace state.config }
      let (state, h) ← parseValues fuel iface flags state parent parentFlags target h
      let state := { state with config := closeEntry state.config }
      let h ← recordEnd state.pass h.roots[amRoot]? target (skipNewline state.config) h
      let state := { state with config := skipWhitespace state.config }
      parseEntries fuel amRoot state parent parentFlags target h
    else .ok (state, h)

/-- The loop of `parse_config_string` over the values of one entry. -/
def parseValues : Nat → Bool → Nat → ParserState → List Key → Nat → Option Nat → Heap →
    Except Fault (ParserState × Heap)
  | 0, _, _, _, _, _, _, _ => .error .fuel
  | fuel + 1, iface, flags, state, parent, parentFlags, target, h =>
    if deref state.config ≠ 0 ∧ deref state.config ≠ semicolon then do
      let (state, h) ←
        (if deref state.config = quote then do
          let (names, h) ←
            (if iface then parseInterface state.pass state.config target state.names h
            else .ok (state.names, h))
          .ok ({ state with names := names, config := skipString state.config.tail }, h)
        else if deref state.config = openBrace then do
          let state := { state with config := skipNewline state.config.tail }
          -- `state.parent = parent`, and `&state` is the new parent
          let (state, h) ← parseConfigString fuel state
            (⟨state.keyStart, state.keyEnd⟩ :: parent) flags target h
          .ok ({ state with config := closeGroup state.config }, h)
        else do
          let (names, h) ←
            (if iface then parseInterface state.pass state.config target state.names h
            else .ok (state.names, h))
          let (names, h) ←
            (if parentFlags ≠ 0 then
              parseRange state.pass state.config state.keyStart state.keyEnd parent parentFlags
                target names h
            else .ok (names, h))
          let (names, h) ←
            (if flags ≠ 0 then parseSingle state.pass state.config parent flags target names h
            else .ok (names, h))
          .ok ({ state with names := names, config := skipKey state.config.tail }, h))
      let state := { state with config := skipWhitespace state.config }
      parseValues fuel false flags state parent parentFlags target h
    else .ok (state, h)

end

/-! ## `config_find_devices` -/

/-- More fuel than any run of the parser over `config` takes. -/
def fuelFor (config : Text) : Nat := 3 * config.length + 3

/-- One pass: `state = parse_config_string(state, 0, 0, 0)`. -/
def runPass (state : ParserState) (h : Heap) : Except Fault (ParserState × Heap) :=
  parseConfigString (fuelFor state.config) state [] 0 none h

/-- What a size is stored in. -/
def toInt (n : Nat) : Except Fault Nat := if n < 2 ^ 31 then .ok n else .error .size

/-- Give each device its slice of the resources array. -/
def assignResources : List PlatformDevice → Nat → List PlatformDevice
  | [], _ => []
  | d :: ds, numResources =>
    { d with resource := some numResources } :: assignResources ds (numResources + d.numResources)

/-- The first pass: detect roots. The other fields of `state` are not set yet. -/
def detectRoots (config : Text) : Except Fault (ParserState × Heap) :=
  runPass ⟨0, 0, config, 0, 0, [], []⟩ { roots := List.replicate config.length 0 }

/-- `num_devices += *r`. -/
def numDevices (state : ParserState) (h : Heap) : Nat :=
  ((h.roots.take state.roots).map UInt8.toNat).sum

/-- The second pass: detect resources and names, in a zeroed array of devices. -/
def countResources (config : Text) (state : ParserState) (h : Heap) :
    Except Fault (ParserState × Heap) :=
  runPass { state with pass := 1, roots := 0, config := config, devices := 0, names := 0 }
    { h with devices := List.replicate (numDevices state h) {}, events := [] }

/-- `num_resources += devices[i].num_resources`. -/
def numResources (h : Heap) : Nat := (h.devices.map PlatformDevice.numResources).sum

/-- The third pass: write resources and names, in arrays of the sizes the second one left. -/
def writeResources (config : Text) (state : ParserState) (h : Heap) :
    Except Fault (ParserState × Heap) := do
  let size ← toInt state.names
  runPass { state with pass := 2, roots := 0, config := config, devices := 0, names := 0 }
    { h with
      devices := assignResources h.devices 0
      resources := List.replicate (numResources h) none
      names := List.replicate size none
      events := [] }

/-- `config_find_devices`, up to the registration of the devices. -/
def configFindDevices (config : Text) : Except Fault (ParserState × Heap) := do
  let (state, h) ← detectRoots config
  let (state, h) ← countResources config state h
  writeResources config state h

end LowriscLinux.Config
