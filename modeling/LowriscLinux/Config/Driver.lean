import LowriscLinux.Config.Block
import LowriscLinux.Config.Contained
import LowriscLinux.Lib.Transition

/-!
# The config string driver

Model of `config_string_probe`, `config_string_remove`, `config_read` and `enable_config_attribute`
(`arch/riscv/drivers/config.c`) over the life of the one device that `arch/riscv/kernel/platform.c`
registers for the config string. The driver is bound and unbound any number of times, while programs
read the `config` attributes of the device and of those that it has found.

## What models what

* `ConfigRom`: the ROM, with a text on which `config_find_devices` runs to its end. The resource ends
  with the terminator of the text (`platform.c`, lines 36 to 40).
* `State.probe`: `config_string_probe` (lines 605 to 632) and the end of `config_find_devices` (lines
  591 to 600): `enable_config_attribute` (lines 29 to 43) of the own device, the devices in their block
  and the attribute of each one. No result of `platform_device_register` is looked at.
* `State.remove`: `config_string_remove` (lines 634 to 648). `devices` steps over the first element of
  the block, whose start is the number of devices.
* `State.read`: `config_read` (lines 17 to 26), one load for each byte of `memcpy_fromio`.

Where it departs from the source:

* What the generic kernel does is a parameter. `Answers` says which calls of a probe succeed; the
  allocations do, since the source stops with `BUG_ON` otherwise. `Core` has what
  `platform_device_unregister`, the files of sysfs and `devres` do, with what they are documented to
  do as fields.
* Addresses are not machine words: the ROM and the blocks do not wrap around.
* What else is done with the devices on the bus is left out.

## Results

* `table_slice_in`, `ConfigRom.slice`: where the slices of the devices lie in the config string.
* **`driver_sound_iff`**: along every run only registered devices are unregistered and only mapped
  memory is read, iff no `remove` follows a registration that has failed, and nobody reads the
  driver's own attribute while it is unbound.
* **`attribute_reads`**: in such a run the attribute of each device contains its own slice.
-/

namespace LowriscLinux.Config

open LowriscLinux.Lib LowriscLinux.Kernel

/-! ## Where the devices lie -/

/-- The devices that the calls open start in a text. -/
def StartIn (s : Text) (cs : List Call) : Prop := ∀ p ∈ starts cs, p <:+ s

section StartIn

variable {s s' : Text} {as bs : List Call}

theorem StartIn.none (h : starts as = []) : StartIn s as := fun p hp => by
  rw [h] at hp
  exact (List.not_mem_nil hp).elim

theorem StartIn.append (ha : StartIn s as) (hb : StartIn s bs) : StartIn s (as ++ bs) := by
  intro p hp
  rw [starts, List.filterMap_append] at hp
  exact (List.mem_append.mp hp).elim (ha p) (hb p)

theorem StartIn.mono (h : StartIn s as) (hs : s <:+ s') : StartIn s' as :=
  fun p hp => (h p hp).trans hs

end StartIn

/-- The devices of these entries start in their text. -/
def EntriesStartIn (g : Entries) : Prop :=
  ∀ {s : Text} (root : Bool) (c : Ctx) (w : Walk), g.At s → StartIn s (g.calls root c w)

theorem EntriesStartIn.group {body : Entries} (h : EntriesStartIn body) {start : Text} (c : Ctx)
    (w : Walk) (hb : body.At (skipWhitespace start)) : StartIn start (groupCalls body start c w) := by
  refine StartIn.append ?_ ((h _ _ _ hb).mono (skipWhitespace_suffix start))
  intro p hp
  split_ifs at hp
  · obtain rfl : p = start := List.mem_singleton.mp hp
    exact List.suffix_refl _
  · exact (List.not_mem_nil hp).elim

mutual

theorem Entries.calls_startIn : ∀ g : Entries, EntriesStartIn g
  | .stop _, _, _, _, _, _ => StartIn.none rfl
  | .entry key vals rest, s, root, c, w, hg => by
    obtain ⟨rfl, -, -, hv, hr⟩ := hg
    have hkey := (skipWhitespace_suffix (skipKey key)).trans (skipKey_suffix key)
    have hclose := (skipWhitespace_suffix _).trans (closeEntry_suffix vals.last)
    have hvals := (vals.calls_startIn (isInterface key) (flagsAt key) c (w.read key) hv).mono hkey
    have hrest := (rest.calls_startIn root c (vals.after (w.read key)) hr).mono
      ((hclose.trans hv.suffix).trans hkey)
    rw [Entries.calls]
    exact (hvals.append (StartIn.none (starts_endCalls _ _ _))).append hrest

theorem Values.calls_startIn : ∀ (v : Values) {s : Text} (iface : Bool) (flags : Nat) (c : Ctx)
    (w : Walk), v.At s → StartIn s (v.calls iface flags c w)
  | .stop _, _, _, _, _, _, _ => StartIn.none rfl
  | .quoted here rest, s, iface, flags, c, w, hv => by
    obtain ⟨rfl, -, hr⟩ := hv
    have hsuffix := ((skipWhitespace_suffix _).trans (skipString_suffix _)).trans
      (List.tail_suffix here)
    rw [Values.calls]
    exact (StartIn.none (starts_ite rfl)).append
      ((rest.calls_startIn false flags c w hr).mono hsuffix)
  | .group here body rest, s, iface, flags, c, w, hv => by
    obtain ⟨rfl, -, hb, hr⟩ := hv
    have hnewline := (skipNewline_suffix here.tail).trans (List.tail_suffix here)
    have hclose := (skipWhitespace_suffix _).trans (closeGroup_suffix body.last)
    have hlast := (hb.suffix.trans (skipWhitespace_suffix _)).trans (List.tail_suffix here)
    have hrest := (rest.calls_startIn false flags c (body.after (w.enter body.isRoot)) hr).mono
      (hclose.trans hlast)
    rw [← skipWhitespace_skipNewline] at hb
    have hgroup := EntriesStartIn.group body.calls_startIn ⟨w.key :: c.parent, flags, c.target⟩ w hb
    rw [Values.calls_group]
    exact (hgroup.mono hnewline).append hrest
  | .bare here rest, s, iface, flags, c, w, hv => by
    obtain ⟨rfl, -, -, -, -, hr⟩ := hv
    have hsuffix := ((skipWhitespace_suffix _).trans (skipKey_suffix _)).trans
      (List.tail_suffix here)
    rw [Values.calls]
    refine StartIn.append (((StartIn.none (starts_ite rfl)).append
      (StartIn.none (starts_ite rfl))).append (StartIn.none (starts_ite rfl))) ?_
    exact (rest.calls_startIn false flags c w hr).mono hsuffix

end

/-- A slice with an `interface` key is not empty. -/
theorem Entries.closed_lt {g : Entries} {d : Text} (hg : g.At (skipWhitespace d))
    (hroot : g.isRoot = true) : (g.closed d).length < d.length := by
  cases g with
  | stop here => cases hroot
  | entry key vals rest =>
    obtain ⟨rfl, h0, -, hv, hr⟩ := hg
    have hentry := closeEntry_lt h0 hv
    rw [← skipWhitespace_skipNewline] at hr
    have hrest := rest.closed_le hr
    have hnewline := (skipNewline_suffix (closeEntry vals.last)).length_le
    have hskip := (skipWhitespace_suffix d).length_le
    rw [Entries.closed]
    omega

/-- **The slice of a device lies in the config string**, and is not empty. -/
theorem table_slice_in {config : Text} {i : Nat} {s : DeviceSpec}
    (hs : (table config).devices[i]? = some s) :
    s.start <:+ config ∧ s.stop.length < s.start.length := by
  constructor
  · have hgroup : StartIn config (calls config) :=
      EntriesStartIn.group (scan config).calls_startIn ⟨[], 0, none⟩ ⟨0, 0, ⟨[], []⟩⟩
        (scan_at config)
    refine hgroup s.start ?_
    rw [← table_starts]
    exact List.mem_map_of_mem (List.mem_of_getElem? hs)
  · obtain ⟨body, hat, hroot, hstop⟩ := table_slice hs
    rw [hstop]
    exact Entries.closed_lt hat hroot

namespace Driver

/-! ## The driver -/

/-- A config string, and what `config_find_devices` makes of it. -/
structure ConfigRom where
  text : Text
  short : text.length < 65536
  found : ParserState × Heap
  find : configFindDevices text = .ok found

namespace ConfigRom

variable (rom : ConfigRom)

/-- The devices that `config_find_devices` registers. -/
def devices : List PlatformDevice := rom.found.2.devices

/-- The offsets in the block of the devices. -/
def offsets (w : Xlen) (z : Sizes) : Offsets :=
  findOffsets w z (BitVec.ofNat _ rom.devices.length)
    (BitVec.ofNat _ rom.found.2.resources.length) (BitVec.ofNat _ rom.found.2.names.length)

/-- A pointer into the text, when the ROM is mapped at `mem`. -/
def address (mem : Nat) (p : Text) : Nat := mem + (rom.text.length - p.length)

end ConfigRom

/-- What the generic kernel answers in a probe: whether there is a resource, where it has been
mapped, whether the driver's own attribute can be made, where the block of the devices is, and for
each device whether it is registered and its attribute made. -/
structure Answers where
  resource : Bool
  mem : Option Nat
  own : Bool
  kdata : Nat
  registered : Nat → Bool
  created : Nat → Bool

/-- `config_start` and the size of the file of an attribute. -/
structure Attr where
  start : Nat
  size : Nat
  deriving DecidableEq

/-- The driver's device and the bus. `failed` says that a registration of the last probe has failed;
`wild`, that a device has been unregistered that was not registered, or that memory has been read
that was not mapped. -/
structure State where
  mapped : Option Nat
  /-- The driver's data, with the number of the devices at its start. -/
  kdata : Option (Nat × BitVec 32)
  configStart : Nat
  /-- The size of the driver's own attribute, once it has been made. -/
  own : Option Nat
  bus : List (Nat × Option Attr)
  failed : Bool
  wild : Bool

def State.init : State := ⟨none, none, 0, none, [], false, false⟩

inductive Act
  | probe (a : Answers)
  | remove
  | readOwn (off count : Nat)
  | read (addr off count : Nat)

/-- The generic kernel around the driver, as it is documented. -/
structure Core where
  /-- `platform_device_unregister`: the devices on the bus after it. -/
  unregister : List (Nat × Option Attr) → Nat → List (Nat × Option Attr)
  /-- A device that is registered leaves the bus with its attribute, and no other one does. -/
  mem_unregister : ∀ (bus : List (Nat × Option Attr)) (addr : Nat), (∃ e ∈ bus, e.1 = addr) →
    ∀ e, e ∈ unregister bus addr ↔ e ∈ bus ∧ e.1 ≠ addr
  /-- How much of a read of a file of a given size gets to `config_read`. -/
  cut : Nat → Nat → Nat → Nat
  /-- A read ends at the end of a file that is not empty. -/
  cut_eq : ∀ size off count, 0 < size → cut size off count = min count (size - off)
  /-- What `devres` leaves of the mapping of a device that is unbound. -/
  devresReleaseAll : Option Nat → Option Nat
  /-- A mapping does not outlive the driver that made it. -/
  released : ∀ mapped, devresReleaseAll mapped = none

namespace State

variable (rom : ConfigRom) (core : Core) (w : Xlen) (z : Sizes) (s : State)

/-- The byte at an address, when something is mapped there. -/
def byteAt (addr : Nat) : Option UInt8 :=
  s.mapped.bind fun mem =>
    if mem ≤ addr ∧ addr ≤ mem + rom.text.length then
      some (deref (rom.text.drop (addr - mem)))
    else none

/-- `config_read`. -/
def read (f : Attr) (off count : Nat) : List (Option UInt8) :=
  (List.range (core.cut f.size off count)).map fun i => s.byteAt rom (f.start + off + i)

/-- `platform_device_unregister`, which must not be called for other devices than those that are
registered. -/
def unregister (s : State) (addr : Nat) : State :=
  { s with
    bus := core.unregister s.bus addr
    wild := s.wild || !(s.bus.any fun e => e.1 = addr) }

/-- The attribute that `enable_config_attribute` makes of a device. -/
def attr (mem : Nat) (pdev : PlatformDevice) : Option Attr :=
  match pdev.configStart, pdev.configEnd with
  | some start, some stop =>
    some ⟨rom.address mem start, rom.address mem stop - rom.address mem start⟩
  | _, _ => none

/-- The devices that get registered, with their attributes. -/
def register (a : Answers) (mem : Nat) : List (Nat × Option Attr) :=
  (rom.devices.zipIdx.filter fun (_, i) => a.registered i).map fun (pdev, i) =>
    (a.kdata + (rom.offsets w z).offDevices.toNat + z.device * i,
      if a.created i then attr rom mem pdev else none)

/-- `config_string_probe`. -/
def probe (a : Answers) : State :=
  if a.resource then
    match a.mem with
    | some mem =>
      { mapped := some mem
        kdata := some (a.kdata, BitVec.ofNat _ rom.devices.length)
        configStart := mem
        own := s.own.or (if a.own then some (rom.address mem [] - mem) else none)
        bus := s.bus ++ register rom w z a mem
        failed := (List.range rom.devices.length).any fun i => !a.registered i
        wild := s.wild }
    | none => s
  else s

/-- `config_string_remove`. -/
def remove (kdata : Nat) (numDevices : BitVec 32) : State :=
  let s := (List.range numDevices.toNat).foldl
    (fun s i => s.unregister core (kdata + z.device + z.device * i)) s
  { s with mapped := core.devresReleaseAll s.mapped, kdata := none, failed := false }

def readWith (f : Attr) (off count : Nat) : State :=
  { s with wild := s.wild || (s.read rom core f off count).contains none }

def step : Act → Option State
  | .probe a => if s.kdata.isNone then some (s.probe rom w z a) else none
  | .remove => s.kdata.map fun (kdata, numDevices) => s.remove core z kdata numDevices
  | .readOwn off count => s.own.map fun size => s.readWith rom core ⟨s.configStart, size⟩ off count
  | .read addr off count => do
    let (_, f) ← s.bus.find? fun e => e.1 = addr
    let f ← f
    some (s.readWith rom core f off count)

end State

/-- The step removes no device that could not be registered, and reads nothing that is unmapped. -/
def Act.Good (core : Core) (s : State) : Act → Prop
  | .remove => s.failed = false
  | .readOwn off count => s.mapped.isSome ∨ ∀ size ∈ s.own, core.cut size off count = 0
  | _ => True

/-! ## Attributes -/

section Attributes

variable {rom : ConfigRom} (core : Core) {s : State} {mem : Nat}

theorem deref_drop (p : Text) (k : Nat) (hk : k < p.length) : deref (p.drop k) = p[k].val := by
  rw [List.drop_eq_getElem_cons hk]
  rfl

/-- **What is read of an attribute** of a part of the text. -/
theorem read_eq (hmapped : s.mapped = some mem) {p : Text} (hp : p <:+ rom.text) {size : Nat}
    (hsize : 0 < size) (hle : size ≤ p.length) (off count : Nat) :
    s.read rom core ⟨rom.address mem p, size⟩ off count =
      (((p.take size).drop off).take count).map fun c => some c.val := by
  have hlen := hp.length_le
  have hdrop := List.suffix_iff_eq_drop.mp hp
  refine List.ext_getElem? fun i => ?_
  rw [State.read, List.getElem?_map, List.getElem?_map, List.getElem?_take, List.getElem?_drop,
    List.getElem?_take]
  simp only [core.cut_eq size off count hsize]
  by_cases hi : i < min count (size - off)
  · have hlt : i < count ∧ off + i < size := by omega
    have hpart : off + i < p.length := by omega
    have hbyte : s.byteAt rom (rom.address mem p + off + i) = some p[off + i].val := by
      have haddr : rom.address mem p + off + i - mem = rom.text.length - p.length + (off + i) := by
        rw [ConfigRom.address]
        omega
      have hin : mem ≤ rom.address mem p + off + i ∧
          rom.address mem p + off + i ≤ mem + rom.text.length := by
        rw [ConfigRom.address]
        omega
      rw [State.byteAt, hmapped, Option.bind_some, if_pos hin, haddr, ← List.drop_drop, ← hdrop,
        deref_drop _ _ hpart]
    rw [List.getElem?_range hi, if_pos hlt.1, if_pos hlt.2, List.getElem?_eq_getElem (by omega),
      Option.map_some, Option.map_some, hbyte]
  · have hge : ¬ i < count ∨ ¬ off + i < size := by omega
    rw [List.getElem?_eq_none (by rw [List.length_range]; omega), Option.map_none]
    rcases hge with hge | hge
    · rw [if_neg hge, Option.map_none]
    · rw [if_neg hge, ite_self, Option.map_none]

/-- The slice of a device, from its table. -/
theorem ConfigRom.slice (rom : ConfigRom) {pdev : PlatformDevice} (h : pdev ∈ rom.devices) :
    ∃ start stop, pdev.configStart = some start ∧ pdev.configEnd = some stop ∧
      start <:+ rom.text ∧ stop.length < start.length := by
  obtain ⟨i, hi⟩ := List.mem_iff_getElem?.mp h
  have hm := (configFindDevices_models rom.find).1
  have hi : rom.found.2.devices[i]? = some pdev := hi
  rw [hm.listed.devices rfl] at hi
  obtain ⟨spec, hspec, rfl⟩ := Option.map_eq_some_iff.mp hi
  exact ⟨spec.start, spec.stop, rfl, rfl, table_slice_in hspec⟩

/-- The attribute of a device contains its slice. -/
theorem read_attr (hmapped : s.mapped = some mem) {pdev : PlatformDevice} (h : pdev ∈ rom.devices)
    {f : Attr} (hf : State.attr rom mem pdev = some f) :
    ∃ slice, configAttribute pdev = some slice ∧ ∀ off count,
      s.read rom core f off count = ((slice.drop off).take count).map fun c => some c.val := by
  obtain ⟨start, stop, hstart, hstop, hsuffix, hlt⟩ := rom.slice h
  have hlen := hsuffix.length_le
  rw [State.attr, hstart, hstop] at hf
  obtain rfl := Option.some.inj hf
  refine ⟨start.take (start.length - stop.length), by rw [configAttribute, hstart, hstop], ?_⟩
  have hsize : rom.address mem stop - rom.address mem start = start.length - stop.length := by
    rw [ConfigRom.address, ConfigRom.address]
    omega
  rw [hsize]
  exact read_eq core hmapped hsuffix (by omega) (by omega)

theorem ConfigRom.text_pos (rom : ConfigRom) : 0 < rom.text.length := by
  by_contra hzero
  have hnil : rom.text = [] := List.length_eq_zero_iff.mp (by omega)
  obtain ⟨r₀, e₀, -⟩ := bind_eq_ok.mp rom.find
  have hfail := detectRoots_braces (show ∀ c ∈ rom.text, c.val = openBrace by simp [hnil])
  cases hfail.symm.trans e₀

/-- The driver's own attribute contains the whole text. -/
theorem read_own (hmapped : s.mapped = some mem) (off count : Nat) :
    s.read rom core ⟨mem, rom.text.length⟩ off count =
      ((rom.text.drop off).take count).map fun c => some c.val := by
  have hread := read_eq core hmapped (List.suffix_refl rom.text) rom.text_pos (Nat.le_refl _) off count
  rw [List.take_length, ConfigRom.address, Nat.sub_self, Nat.add_zero] at hread
  exact hread

variable {core}

/-- Nothing wild is read where all bytes are known. -/
theorem readWith_tame {f : Attr} {off count : Nat} {l : Text}
    (h : s.read rom core f off count = l.map fun c => some c.val) :
    s.readWith rom core f off count = s := by
  have hnone : (s.read rom core f off count).contains none = false := by
    rw [h, List.contains_eq_mem, decide_eq_false_iff_not]
    intro hmem
    obtain ⟨c, -, hc⟩ := List.mem_map.mp hmem
    cases hc
  rw [State.readWith, hnone, Bool.or_false]

end Attributes

/-! ## Unregistering -/

/-- A device is on the bus. -/
def State.OnBus (s : State) (addr : Nat) : Prop := ∃ e ∈ s.bus, e.1 = addr

section Unregistering

variable (core : Core)

theorem unregister_tame {s : State} {addr : Nat} :
    (s.unregister core addr).wild = false ↔ s.wild = false ∧ s.OnBus addr := by
  rw [State.unregister, Bool.or_eq_false_iff, Bool.not_eq_false', List.any_eq_true]
  simp only [decide_eq_true_eq, State.OnBus]

/-- The loop of `remove` changes the bus only, and does not forget what has gone wrong. -/
theorem unregister_frame (addr : Nat → Nat) (is : List Nat) (s : State) :
    let s' := is.foldl (fun s i => s.unregister core (addr i)) s
    s' = { s with bus := s'.bus, wild := s'.wild } ∧ (s.wild = true → s'.wild = true) := by
  induction is generalizing s with
  | nil => exact ⟨rfl, id⟩
  | cons i is ih =>
    obtain ⟨hfields, hwild⟩ := ih (s.unregister core (addr i))
    refine ⟨hfields, fun h => hwild ?_⟩
    rw [State.unregister, h, Bool.true_or]

/-- **What the loop over different devices does**: nothing wild iff all of them are on the bus, and
then none of them is any more. -/
theorem unregister_all {addr : Nat → Nat} (haddr : Function.Injective addr) (is : List Nat)
    (hnodup : is.Nodup) (s : State) :
    let s' := is.foldl (fun s i => s.unregister core (addr i)) s
    (s'.wild = false ↔ s.wild = false ∧ ∀ i ∈ is, s.OnBus (addr i)) ∧
      ((∀ i ∈ is, s.OnBus (addr i)) → ∀ e ∈ s'.bus, e ∈ s.bus ∧ ∀ i ∈ is, e.1 ≠ addr i) := by
  induction is generalizing s with
  | nil => exact ⟨by simp, fun _ e he => ⟨he, fun i hi => by cases hi⟩⟩
  | cons i is ih =>
    obtain ⟨hi, hnodup⟩ := List.nodup_cons.mp hnodup
    obtain ⟨hwild, hbus⟩ := ih hnodup (s.unregister core (addr i))
    by_cases hon : s.OnBus (addr i)
    · have hmem := core.mem_unregister s.bus (addr i) hon
      have hrest : ∀ j ∈ is, (s.unregister core (addr i)).OnBus (addr j) ↔ s.OnBus (addr j) := by
        intro j hj
        have hne : addr j ≠ addr i := fun heq => hi (haddr heq ▸ hj)
        constructor
        · rintro ⟨e, he, heq⟩
          exact ⟨e, ((hmem e).mp he).1, heq⟩
        · rintro ⟨e, he, heq⟩
          exact ⟨e, (hmem e).mpr ⟨he, heq ▸ hne⟩, heq⟩
      refine ⟨?_, fun hall e he => ?_⟩
      · rw [List.foldl_cons, hwild, unregister_tame, List.forall_mem_cons, and_assoc]
        exact and_congr_right' (and_congr_right' (forall₂_congr hrest))
      · obtain ⟨he, hne⟩ := hbus
          (fun j hj => (hrest j hj).mpr (hall j (List.mem_cons_of_mem _ hj))) e he
        obtain ⟨he, hfirst⟩ := (hmem e).mp he
        exact ⟨he, List.forall_mem_cons.mpr ⟨hfirst, hne⟩⟩
    · -- the device is not on the bus, which is wild whatever the core does then
      have hfirst : (s.unregister core (addr i)).wild = true := by
        rw [← Bool.not_eq_false, unregister_tame]
        exact fun h => hon h.2
      have hlast := (unregister_frame core addr is (s.unregister core (addr i))).2 hfirst
      refine ⟨iff_of_false (fun h => ?_) fun h => hon (h.2 i List.mem_cons_self),
        fun hall => absurd (hall i List.mem_cons_self) hon⟩
      rw [List.foldl_cons, hlast] at h
      cases h

end Unregistering

/-! ## The life of the driver -/

section Life

variable {rom : ConfigRom} {core : Core} {w : Xlen} {z : Sizes} {s s' : State} {a : Act}

/-- The driver is bound: the devices on the bus are those of its block. -/
structure Bound (rom : ConfigRom) (z : Sizes) (s : State) (kdata : Nat) (numDevices : BitVec 32) :
    Prop where
  count : numDevices.toNat = rom.devices.length
  mapped : s.mapped = some s.configStart
  failed : s.failed = false ↔ ∀ i < rom.devices.length, s.OnBus (kdata + z.device + z.device * i)
  bus : ∀ e ∈ s.bus, ∃ i pdev, rom.devices[i]? = some pdev ∧
    e.1 = kdata + z.device + z.device * i ∧ ∀ f ∈ e.2, State.attr rom s.configStart pdev = some f

/-- What holds in a run without anything wild. -/
structure DriverInv (rom : ConfigRom) (z : Sizes) (s : State) : Prop where
  tame : s.wild = false
  own : ∀ size ∈ s.own, size = rom.text.length
  unbound : s.kdata = none → s.mapped = none ∧ s.bus = []
  bound : ∀ kdata numDevices, s.kdata = some (kdata, numDevices) → Bound rom z s kdata numDevices

theorem DriverInv.init (rom : ConfigRom) (z : Sizes) : DriverInv rom z .init where
  tame := rfl
  own _ h := by cases h
  unbound _ := ⟨rfl, rfl⟩
  bound _ _ h := by cases h

theorem toNat_offDevices (rom : ConfigRom) (w : Xlen) (z : Sizes) :
    (rom.offsets w z).offDevices.toNat = z.device := by
  obtain ⟨hn, hrs, hm⟩ := configFindDevices_sizes rom.find
  have hshort := rom.short
  exact (findOffsets_exact w z (hn.trans_lt (by omega)) (hrs.trans (by omega)) hm).offDevices

theorem length_devices_lt (rom : ConfigRom) : rom.devices.length < 2 ^ 32 := by
  have hn := (configFindDevices_sizes rom.find).1
  have hshort := rom.short
  rw [ConfigRom.devices]
  omega

theorem mem_register {a : Answers} {mem : Nat} {e : Nat × Option Attr} :
    e ∈ State.register rom w z a mem ↔ ∃ i pdev, rom.devices[i]? = some pdev ∧
      a.registered i = true ∧ e.1 = a.kdata + z.device + z.device * i ∧
      e.2 = if a.created i then State.attr rom mem pdev else none := by
  rw [State.register, List.mem_map, toNat_offDevices]
  constructor
  · rintro ⟨⟨pdev, i⟩, hmem, rfl⟩
    obtain ⟨hmem, hreg⟩ := List.mem_filter.mp hmem
    exact ⟨i, pdev, List.mem_zipIdx_iff_getElem?.mp hmem, hreg, rfl, rfl⟩
  · rintro ⟨i, pdev, hpdev, hreg, haddr, hattr⟩
    refine ⟨(pdev, i), List.mem_filter.mpr ⟨List.mem_zipIdx_iff_getElem?.mpr hpdev, hreg⟩, ?_⟩
    exact Prod.ext haddr.symm hattr.symm

theorem address_injective (z : Sizes) (kdata : Nat) :
    Function.Injective fun i => kdata + z.device + z.device * i := by
  intro i j h
  have hpos : 0 < z.device := Nat.lt_of_lt_of_le (by decide) z.device_ge
  exact Nat.eq_of_mul_eq_mul_left hpos (Nat.add_left_cancel h)

/-- The driver is bound. -/
theorem DriverInv.probe (h : DriverInv rom z s) (hunbound : s.kdata = none) (a : Answers) :
    DriverInv rom z (s.probe rom w z a) := by
  obtain ⟨hmapped, hbus⟩ := h.unbound hunbound
  rw [State.probe]
  cases a.resource with
  | false => exact h
  | true =>
    rw [if_pos rfl]
    cases hmem : a.mem with
    | none => exact h
    | some mem =>
      refine ⟨h.tame, ?_, fun hnone => (by cases hnone), ?_⟩
      · intro size hsize
        cases hown : s.own with
        | some old =>
          simp only [hown, Option.some_or] at hsize
          cases hsize
          exact h.own _ hown
        | none =>
          simp only [hown, Option.none_or] at hsize
          split_ifs at hsize
          · rw [← Option.some.inj hsize, ConfigRom.address, List.length_nil]
            omega
          · cases hsize
      · intro kdata numDevices hkdata
        obtain ⟨rfl, rfl⟩ := Prod.mk.inj (Option.some.inj hkdata)
        refine ⟨?_, rfl, ?_, ?_⟩
        · rw [BitVec.toNat_ofNat, Nat.mod_eq_of_lt (length_devices_lt rom)]
        · dsimp only
          rw [List.any_eq_false]
          simp only [List.mem_range, Bool.not_eq_true, Bool.not_eq_false', State.OnBus, hbus,
            List.nil_append]
          refine forall₂_congr fun i hi => ?_
          constructor
          · intro hreg
            exact ⟨(_, _), mem_register.mpr ⟨i, _, List.getElem?_eq_getElem hi, hreg, rfl, rfl⟩, rfl⟩
          · rintro ⟨e, he, haddr⟩
            obtain ⟨j, pdev, hpdev, hreg, haddr', -⟩ := mem_register.mp he
            rwa [address_injective z _ (haddr.symm.trans haddr')]
        · intro e he
          dsimp only at he
          rw [hbus, List.nil_append] at he
          obtain ⟨i, pdev, hpdev, -, haddr, hattr⟩ := mem_register.mp he
          refine ⟨i, pdev, hpdev, haddr, fun f hf => ?_⟩
          rw [hattr] at hf
          split_ifs at hf
          · exact hf
          · cases hf

/-- The driver is unbound, and nothing wild happens iff all its devices had been registered. -/
theorem DriverInv.remove (h : DriverInv rom z s) {kdata : Nat} {numDevices : BitVec 32}
    (hbound : s.kdata = some (kdata, numDevices)) :
    ((s.remove core z kdata numDevices).wild = false ↔ s.failed = false) ∧
      (s.failed = false → DriverInv rom z (s.remove core z kdata numDevices)) := by
  have hb := h.bound _ _ hbound
  obtain ⟨hwild, hbus⟩ := unregister_all core (address_injective z kdata) (List.range numDevices.toNat)
    List.nodup_range s
  obtain ⟨hfields, -⟩ := unregister_frame core
    (fun i => kdata + z.device + z.device * i) (List.range numDevices.toNat) s
  have htame : (s.remove core z kdata numDevices).wild = false ↔ s.failed = false := by
    rw [hb.failed]
    refine hwild.trans ((and_iff_right h.tame).trans ?_)
    simp only [List.mem_range, hb.count]
  refine ⟨htame, fun hfailed => ⟨htame.mpr hfailed, ?_, fun _ => ⟨core.released _, ?_⟩,
    fun _ _ hk => by cases hk⟩⟩
  · intro size hsize
    rw [State.remove, hfields] at hsize
    exact h.own size hsize
  · refine List.eq_nil_iff_forall_not_mem.mpr fun e he => ?_
    have hall : ∀ i ∈ List.range numDevices.toNat, s.OnBus (kdata + z.device + z.device * i) := by
      simpa only [List.mem_range, hb.count] using hb.failed.mp hfailed
    obtain ⟨hmem, hne⟩ := hbus hall e he
    obtain ⟨i, pdev, hpdev, haddr, -⟩ := hb.bus e hmem
    refine hne i (List.mem_range.mpr ?_) haddr
    rw [hb.count]
    exact (List.getElem?_eq_some_iff.mp hpdev).1

/-- A read of the driver's own attribute. -/
theorem DriverInv.readOwn (h : DriverInv rom z s) {size : Nat} (hown : s.own = some size)
    (off count : Nat) :
    ((s.readWith rom core ⟨s.configStart, size⟩ off count).wild = false ↔
      (Act.readOwn off count).Good core s) ∧
    ((Act.readOwn off count).Good core s →
      DriverInv rom z (s.readWith rom core ⟨s.configStart, size⟩ off count)) := by
  obtain rfl := h.own size hown
  cases hmapped : s.mapped with
  | some mem =>
    have hstart : s.configStart = mem := by
      cases hk : s.kdata with
      | none => cases hmapped.symm.trans (h.unbound hk).1
      | some k => exact Option.some.inj ((h.bound k.1 k.2 hk).mapped.symm.trans hmapped)
    have hread := @read_own rom core _ _ hmapped off count
    have hsame := readWith_tame hread
    rw [hstart, hsame]
    exact ⟨iff_of_true h.tame (.inl (by rw [hmapped]; rfl)), fun _ => h⟩
  | none =>
    have hread : s.read rom core ⟨s.configStart, rom.text.length⟩ off count =
        List.replicate (core.cut rom.text.length off count) none := by
      refine List.eq_replicate_iff.mpr ⟨?_, fun b hb => ?_⟩
      · rw [State.read, List.length_map, List.length_range]
      · obtain ⟨i, -, rfl⟩ := List.mem_map.mp hb
        rw [State.byteAt, hmapped, Option.bind_none]
    have hgood : (Act.readOwn off count).Good core s ↔ core.cut rom.text.length off count = 0 := by
      simp [Act.Good, hmapped, hown]
    have hiff : (s.readWith rom core ⟨s.configStart, rom.text.length⟩ off count).wild = false ↔
        core.cut rom.text.length off count = 0 := by
      rw [State.readWith, hread, h.tame, Bool.false_or, List.contains_eq_mem,
        decide_eq_false_iff_not, List.mem_replicate]
      simp
    refine ⟨hiff.trans hgood.symm, fun hg => ?_⟩
    have hsame : s.readWith rom core ⟨s.configStart, rom.text.length⟩ off count = s := by
      refine readWith_tame (l := []) ?_
      rw [hread, hgood.mp hg]
      rfl
    rw [hsame]
    exact h

/-- A read of the attribute of a device on the bus. -/
theorem DriverInv.read (h : DriverInv rom z s) {addr : Nat} {f : Attr}
    (hf : (addr, some f) ∈ s.bus) : ∃ kdata numDevices i pdev slice,
      s.kdata = some (kdata, numDevices) ∧ rom.devices[i]? = some pdev ∧
      addr = kdata + z.device + z.device * i ∧ configAttribute pdev = some slice ∧
      ∀ off count, s.read rom core f off count =
        ((slice.drop off).take count).map fun c => some c.val := by
  cases hk : s.kdata with
  | none =>
    rw [(h.unbound hk).2] at hf
    cases hf
  | some k =>
    have hb := h.bound k.1 k.2 hk
    obtain ⟨i, pdev, hpdev, haddr, hattr⟩ := hb.bus _ hf
    obtain ⟨slice, hslice, hread⟩ :=
      read_attr core hb.mapped (List.mem_of_getElem? hpdev) (hattr f rfl)
    exact ⟨k.1, k.2, i, pdev, slice, rfl, hpdev, haddr, hslice, hread⟩

/-- **One step does nothing wild iff it meets the condition**, and then keeps the invariant. -/
theorem DriverInv.step (h : DriverInv rom z s) (hs : s.step rom core w z a = some s') :
    (s'.wild = false ↔ a.Good core s) ∧ (a.Good core s → DriverInv rom z s') := by
  cases a with
  | probe a =>
    obtain ⟨hnone, rfl⟩ := Option.ite_none_right_eq_some.mp hs |>.imp_right Option.some.inj
    have hinv := h.probe (w := w) (Option.isNone_iff_eq_none.mp hnone) a
    exact ⟨iff_of_true hinv.tame trivial, fun _ => hinv⟩
  | remove =>
    obtain ⟨⟨kdata, numDevices⟩, hk, rfl⟩ := Option.map_eq_some_iff.mp hs
    exact h.remove hk
  | readOwn off count =>
    obtain ⟨size, hown, rfl⟩ := Option.map_eq_some_iff.mp hs
    exact h.readOwn hown off count
  | read addr off count =>
    simp only [State.step, Option.bind_eq_bind, Option.bind_eq_some_iff, Option.some.injEq] at hs
    obtain ⟨⟨addr', f?⟩, hfind, f, rfl, rfl⟩ := hs
    obtain ⟨_, _, _, _, _, -, -, -, -, hread⟩ :=
      @DriverInv.read rom core _ _ h _ _ (List.mem_of_find?_eq_some hfind)
    rw [readWith_tame (hread off count)]
    exact ⟨iff_of_true h.tame trivial, fun _ => h⟩

/-- **The driver is sound** in exactly the runs in which no `remove` follows a registration that has
failed, and nothing of the driver's own attribute is read while it is unbound: then only registered
devices are unregistered and only mapped memory is read. -/
theorem driver_sound_iff {run : List (Act × State)}
    (hrun : IsRun (fun s a s' => s.step rom core w z a = some s') .init run) :
    Always (fun s => s.wild = false) .init run ↔ Meets (fun s a => a.Good core s) .init run :=
  hrun.always_iff_meets (fun _ h => h.tame) (fun _ _ _ h hg hs => (h.step hs).2 hg)
    (fun _ _ _ h hs ht => (h.step hs).1.mp ht) (DriverInv.init rom z)

/-- **The attributes contain what they should**, after every such run: that of device `i` of the
block its slice of the text, and the driver's own, while it is bound, the whole text. -/
theorem attribute_reads {run : List (Act × State)}
    (hrun : IsRun (fun s a s' => s.step rom core w z a = some s') .init run)
    (hgood : Meets (fun s a => a.Good core s) .init run) :
    let s := lastState .init run
    (∀ addr f, (addr, some f) ∈ s.bus → ∃ kdata numDevices i pdev slice,
      s.kdata = some (kdata, numDevices) ∧ rom.devices[i]? = some pdev ∧
      addr = kdata + z.device + z.device * i ∧ configAttribute pdev = some slice ∧
      ∀ off count, s.read rom core f off count =
        ((slice.drop off).take count).map fun c => some c.val) ∧
    (s.kdata.isSome → ∀ size off count, s.own = some size →
      s.read rom core ⟨s.configStart, size⟩ off count =
        ((rom.text.drop off).take count).map fun c => some c.val) := by
  intro s
  have hinv : DriverInv rom z s := (hrun.meets_invariant
    (fun _ _ _ h hg hs => (h.step hs).2 hg) hgood (DriverInv.init rom z)).last
  constructor
  · intro addr f hf
    exact hinv.read hf
  · intro hk size off count hown
    obtain ⟨k, hk⟩ := Option.isSome_iff_exists.mp hk
    have hmapped := (hinv.bound k.1 k.2 hk).mapped
    rw [hinv.own size hown]
    exact read_own core hmapped off count

end Life

theorem find_uart : ∃ found, configFindDevices uartConfig = .ok found := by
  have hok : (configFindDevices uartConfig).isOk = true := by decide +kernel
  cases h : configFindDevices uartConfig with
  | error _ =>
    rw [h] at hok
    cases hok
  | ok found => exact ⟨found, rfl⟩

/-- A generic kernel that does what it is documented to do, and no more. -/
def plainCore : Core where
  unregister bus addr := bus.filter fun e => e.1 ≠ addr
  mem_unregister bus addr _ e := by rw [List.mem_filter, decide_eq_true_eq]
  cut size off count := if size = 0 then count else min count (size - off)
  cut_eq size off count h := if_neg h.ne'
  devresReleaseAll _ := none
  released _ := rfl

/-- A probe in which everything succeeds. -/
def probing : Act := .probe ⟨true, some 0x1000, true, 0x8000, fun _ => true, fun _ => true⟩

theorem driver_sound_iff_bound : ∃ rom : ConfigRom, rom.text = uartConfig ∧
    Always (fun s => s.wild = false) .init
      (trace (State.step rom plainCore .rv64 sizes64) .init
        [probing, .readOwn 2 3, .remove, probing]) := by
  obtain ⟨found, hfound⟩ := find_uart
  refine ⟨⟨uartConfig, by decide, found, hfound⟩, rfl, ?_⟩
  refine (driver_sound_iff (isRun_trace _ _)).mpr ⟨trivial, .inl rfl, ?_, trivial, trivial⟩
  exact List.any_eq_false.mpr fun i _ h => by cases h

/-- The attribute of the second one of two devices, the one that is in the other. -/
theorem attribute_reads_bound : ∃ (rom : ConfigRom) (pdev : PlatformDevice) (f : Attr) (slice : Text),
    rom.text = nestedConfig ∧ rom.devices[1]? = some pdev ∧ configAttribute pdev = some slice ∧
      slice.length = 18 ∧
      let s := lastState .init (trace (State.step rom plainCore .rv64 sizes64) .init [probing])
      (0x8000 + 720 + 720 * 1, some f) ∈ s.bus ∧
        s.read rom plainCore f 2 3 = ((slice.drop 2).take 3).map fun c => some c.val := by
  have hrun : ((configFindDevices nestedConfig).toOption.any fun r => r.2.devices[1]?.any fun d =>
      (configAttribute d).any fun slice => slice.length = 18) = true := by
    decide +kernel
  obtain ⟨found, hfound, hdevices⟩ := (Option.any_eq_true _ _).mp hrun
  obtain ⟨pdev, hpdev, hslice⟩ := (Option.any_eq_true _ _).mp hdevices
  obtain ⟨slice, hslice, hlen⟩ := (Option.any_eq_true _ _).mp hslice
  let rom : ConfigRom := ⟨nestedConfig, by decide, found, toOption_eq_some.mp hfound⟩
  let run := trace (State.step rom plainCore .rv64 sizes64) .init [probing]
  obtain ⟨start, stop, hstart, hstop, -, -⟩ := rom.slice (List.mem_of_getElem? hpdev)
  obtain ⟨f, hf⟩ : ∃ f, State.attr rom 0x1000 pdev = some f := by
    rw [State.attr, hstart, hstop]
    exact ⟨_, rfl⟩
  have hbus : (0x8000 + 720 + 720 * 1, some f) ∈ (lastState .init run).bus :=
    mem_register.mpr ⟨1, pdev, hpdev, rfl, rfl, hf.symm⟩
  have hgood : Meets (fun s a => a.Good plainCore s) .init run := ⟨trivial, trivial⟩
  obtain ⟨kdata, numDevices, i, pdev', slice', hkdata, hpdev', haddr, hslice', hread⟩ :=
    (attribute_reads (isRun_trace _ _) hgood).1 _ _ hbus
  have hkdata : kdata = 0x8000 := (Prod.mk.inj (Option.some.inj hkdata)).1.symm
  -- the address says which device of the block it is
  have hi : i = 1 := by
    have haddr : 0x8000 + 720 + 720 * 1 = kdata + 720 + 720 * i := haddr
    omega
  subst hi
  cases hpdev.symm.trans hpdev'
  cases hslice.symm.trans hslice'
  exact ⟨rom, pdev, f, slice, rfl, hpdev, hslice, of_decide_eq_true hlen, hbus, hread 2 3⟩

end Driver

end LowriscLinux.Config
