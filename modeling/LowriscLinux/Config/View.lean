import LowriscLinux.Config.Shift

/-!
# What the passes leave to be seen

The devices of `config_find_devices` (`arch/riscv/drivers/config.c`, lines 521-603) as a driver sees
them: pointers into the names are read as strings. The block of the names is not zeroed (`krealloc`,
line 573), and `parse_interface` stores at most 65536 bytes of a value (line 354), so a
`driver_override` can run into bytes that were never stored.

* `readString`: the string at a pointer, or `none` when it runs into such bytes, as what follows is
  whatever the memory held. `Heap.stringIn` is the string when that is known.
* `readStored`: the bytes of a string that were stored, up to the terminator or the first byte that
  was not.
* `DeviceView`: what can be seen of a device: the string of `driver_override`, its resources with
  their names, and the text of its attribute (`configAttribute`: lines 24 and 38). The name of the
  device is compared apart, as that of the outermost device depends on where it stands. `StoredView`
  has what is stored of the strings.
* `Heap.nested`: the devices in the slice of another one, by where their slices start.

The views of a table (`Table.view`, `Table.storedView`) are the same without a memory.

Results:
* `Models.view`: the memory after pass 2 shows what its table does.
* `view_lift`, `storedView_lift`: a device looks the same where its table has moved to.
* `string_stringIn`: a string that is whole does not depend on what the memory held.
-/

namespace LowriscLinux.Config

open LowriscLinux.Lib

/-! ## What memory shows -/

/-- The string at the front of memory; `none` when it runs into a byte that was never stored. -/
def readString : List (Option UInt8) → Option (List UInt8)
  | some b :: cells => if b = 0 then some [] else (readString cells).map (b :: ·)
  | _ => none

def Heap.string (h : Heap) (off : Nat) : Option (List UInt8) := readString (h.names.drop off)

/-- The bytes at the front of memory that were stored, up to the terminator, and whether there is
one before the first byte that was never stored. -/
def readStored : List (Option UInt8) → List UInt8 × Bool
  | some b :: cells =>
    if b = 0 then ([], true) else (b :: (readStored cells).1, (readStored cells).2)
  | _ => ([], false)

/-- A string is what is stored of it, with its terminator. -/
theorem readString_eq : ∀ cells : List (Option UInt8),
    readString cells = if (readStored cells).2 then some (readStored cells).1 else none
  | [] => rfl
  | none :: _ => rfl
  | some b :: cells => by
    rw [readString, readStored, readString_eq cells]
    by_cases hb : b = 0
    · simp [hb]
    · cases (readStored cells).2 <;> simp [hb]

/-- What is stored of the string at `off`. -/
def Heap.stored (h : Heap) (off : Nat) : List UInt8 × Bool := readStored (h.names.drop off)

def Heap.name (h : Heap) : Name → Option (List UInt8)
  | .dot => some [dot]
  | .names off => h.string off

/-- What is stored of a name. -/
def Heap.storedName (h : Heap) : Name → List UInt8 × Bool
  | .dot => ([dot], true)
  | .names off => h.stored off

structure ResourceView where
  name  : Option (List UInt8)
  flags : Nat
  start : BitVec 64
  stop  : BitVec 64

/-- What can be seen of a device: the string its `driver_override` points to, its resources and its
`config` attribute. -/
structure DeviceView where
  override  : Option (Option (List UInt8))
  resources : List (Option ResourceView)
  config    : Option Text

/-- The contents of the attribute `enable_config_attribute` creates: `config.size` is
`end - start`, and `config_read` copies from `config_start` on. -/
def configAttribute (pdev : PlatformDevice) : Option Text :=
  match pdev.configStart, pdev.configEnd with
  | some start, some stop => some (start.take (start.length - stop.length))
  | _, _ => none

def Heap.resource (h : Heap) (r : Resource) : ResourceView :=
  ⟨h.name r.name, r.flags, r.start, r.stop⟩

/-- `resource[0]` to `resource[num_resources - 1]`. -/
def Heap.slots (h : Heap) (d : PlatformDevice) : List (Option Resource) :=
  match d.resource with
  | some base => (h.resources.drop base).take d.numResources
  | none => []

def Heap.view (h : Heap) (d : PlatformDevice) : DeviceView :=
  ⟨d.driverOverride.map h.string, (h.slots d).map (Option.map h.resource), configAttribute d⟩

/-- What is stored of the strings that can be seen of a device: its `driver_override` and the names
of its resources. -/
structure StoredView where
  override  : Option (List UInt8 × Bool)
  resources : List (Option (List UInt8 × Bool))

def Heap.storedView (h : Heap) (d : PlatformDevice) : StoredView :=
  ⟨d.driverOverride.map h.stored, (h.slots d).map (Option.map fun r => h.storedName r.name)⟩

/-- The slice of `x` starts inside that of `d`, after its start. -/
def PlatformDevice.inside (d x : PlatformDevice) : Bool :=
  match d.configStart, d.configEnd, x.configStart with
  | some start, some stop, some here => stop.length < here.length ∧ here.length < start.length
  | _, _, _ => false

/-- The devices in the slice of `d`. -/
def Heap.nested (h : Heap) (d : PlatformDevice) : List PlatformDevice :=
  h.devices.filter fun x => d.inside x

/-- The string at the front of memory that was written before. -/
def readBytes : List UInt8 → Option (List UInt8)
  | [] => none
  | b :: bs => if b = 0 then some [] else (readBytes bs).map (b :: ·)

/-- The string at `off` when the block of the names held `old`. -/
def Heap.stringIn (h : Heap) (old : List UInt8) (off : Nat) : Option (List UInt8) :=
  readBytes ((List.zipWith (fun c b => c.getD b) h.names old).drop off)

theorem readBytes_of_readString : ∀ {cells : List (Option UInt8)} {old s : List UInt8},
    cells.length = old.length → readString cells = some s →
    readBytes (List.zipWith (fun c b => c.getD b) cells old) = some s
  | [], _, _, _, h => by cases h
  | none :: cells, _, _, _, h => by cases h
  | some b :: cells, [], _, hlen, _ => by cases hlen
  | some b :: cells, o :: old, s, hlen, h => by
    rw [readString] at h
    rw [List.zipWith_cons_cons, readBytes, Option.getD_some]
    split_ifs at h ⊢
    · exact h
    · obtain ⟨t, ht, rfl⟩ := Option.map_eq_some_iff.mp h
      rw [readBytes_of_readString (Nat.succ.inj hlen) ht, Option.map_some]

/-- **A whole string** does not depend on what the memory held. -/
theorem string_stringIn {h : Heap} {old : List UInt8} (hlen : h.names.length = old.length)
    {off : Nat} {s : List UInt8} (hs : h.string off = some s) : h.stringIn old off = some s := by
  rw [Heap.stringIn, List.drop_zipWith]
  refine readBytes_of_readString ?_ hs
  rw [List.length_drop, List.length_drop, hlen]

/-! ## What a table shows -/

def Table.string (T : Table) (off : Nat) : Option (List UInt8) := readString (T.image.drop off)

def Table.nameString (T : Table) : Name → Option (List UInt8)
  | .dot => some [dot]
  | .names off => T.string off

def Table.stored (T : Table) (off : Nat) : List UInt8 × Bool := readStored (T.image.drop off)

def Table.storedName (T : Table) : Name → List UInt8 × Bool
  | .dot => ([dot], true)
  | .names off => T.stored off

def Table.resource (T : Table) (r : Resource) : ResourceView :=
  ⟨T.nameString r.name, r.flags, r.start, r.stop⟩

def Table.view (T : Table) (s : DeviceSpec) : DeviceView :=
  ⟨s.override.map T.string, s.resources.map fun r => some (T.resource r),
    some (s.start.take (s.start.length - s.stop.length))⟩

def Table.storedView (T : Table) (s : DeviceSpec) : StoredView :=
  ⟨s.override.map T.stored, s.resources.map fun r => some (T.storedName r.name)⟩

/-- The names block after pass 2 is that of the table. -/
theorem Models.names {T : Table} {names : Nat} {h : Heap} (hm : Models 2 (writeLayout T) T names h) :
    h.names = T.image := by
  rw [hm.filled.memory (Nat.le_refl 2)]
  exact filled_full rfl

theorem Models.string {T : Table} {names : Nat} {h : Heap}
    (hm : Models 2 (writeLayout T) T names h) : h.string = T.string := by
  funext off
  rw [Heap.string, hm.names, Table.string]

theorem Models.stored {T : Table} {names : Nat} {h : Heap}
    (hm : Models 2 (writeLayout T) T names h) : h.stored = T.stored := by
  funext off
  rw [Heap.stored, hm.names, Table.stored]

/-- The memory after pass 2 shows what the table does. -/
theorem Models.view {T : Table} {names : Nat} {h : Heap} (hm : Models 2 (writeLayout T) T names h)
    {i : Nat} {s : DeviceSpec} (hs : T.devices[i]? = some s) :
    ∃ d, h.devices[i]? = some d ∧ h.view d = T.view s ∧ h.storedView d = T.storedView s ∧
      d.name.map h.name = some (T.nameString s.name) ∧
      d.name.map h.storedName = some (T.storedName s.name) ∧
      d.configStart = some s.start ∧ d.configEnd = some s.stop := by
  have hstring := hm.string
  have hname : h.name = T.nameString := by
    funext n
    cases n with
    | dot => rfl
    | names off => exact congrFun hstring off
  have hstored := hm.stored
  have hstoredName : h.storedName = T.storedName := by
    funext n
    cases n with
    | dot => rfl
    | names off => exact congrFun hstored off
  have hi := (List.getElem?_eq_some_iff.mp hs).1
  have hbase : (writeLayout T).base i = some (T.counts.take i).sum := if_pos hi
  have hoverride : s.override.or ((writeLayout T).override i) = s.override := by
    show s.override.or (T.devices[i]?.bind DeviceSpec.override) = s.override
    rw [hs]
    exact Option.or_self
  have hslots : (h.resources.drop (T.counts.take i).sum).take s.resources.length =
      s.resources.map some := by
    refine List.ext_getElem? fun k => ?_
    rw [List.getElem?_take, List.getElem?_drop, List.getElem?_map]
    split_ifs with hk
    · have hr := List.getElem?_eq_getElem hk
      rw [hm.slotted.slots i s _ hs hbase k _ hr, hr, Option.map_some]
    · rw [List.getElem?_eq_none (Nat.le_of_not_lt hk), Option.map_none]
  refine ⟨_, hm.listed.opened i s hs, ?_, ?_, ?_, ?_, rfl, rfl⟩
  · unfold Heap.view Heap.slots DeviceSpec.device
    simp only [hbase, hoverride, hslots, hstring, List.map_map]
    refine congrArg (DeviceView.mk _ · _) (List.map_congr_left fun r _ => ?_)
    simp only [Function.comp, Option.map_some, Heap.resource, Table.resource, hname]
  · unfold Heap.storedView Heap.slots DeviceSpec.device
    simp only [hbase, hoverride, hslots, hstored, hstoredName, List.map_map]
    rfl
  · show some (h.name s.name) = _
    rw [hname]
  · show some (h.storedName s.name) = _
    rw [hstoredName]

/-! ## Strings that stay where they are -/

/-- Reading the cells ends inside them. -/
def Ends (cells : List (Option UInt8)) : Prop := none ∈ cells ∨ some 0 ∈ cells

theorem readStored_append : ∀ {cells : List (Option UInt8)}, Ends cells → ∀ more,
    readStored (cells ++ more) = readStored cells
  | [], h, _ => h.elim (fun h => (List.not_mem_nil h).elim) fun h => (List.not_mem_nil h).elim
  | none :: cells, _, _ => rfl
  | some b :: cells, h, more => by
    rw [List.cons_append, readStored, readStored]
    split_ifs with hb
    · rfl
    · have hrest : Ends cells := by
        refine h.imp (fun h => ?_) fun h => ?_
        · exact (List.mem_cons.mp h).resolve_left (Option.some_ne_none b).symm
        · exact (List.mem_cons.mp h).resolve_left fun h => hb (Option.some.inj h).symm
      rw [readStored_append hrest more]

theorem readString_append {cells : List (Option UInt8)} (h : Ends cells)
    (more : List (Option UInt8)) : readString (cells ++ more) = readString cells := by
  rw [readString_eq, readString_eq, readStored_append h]

def Table.Ended (T : Table) : Prop := ∀ cells ∈ T.strings, Ends cells

theorem terminated_ends (bs : List UInt8) : Ends ((bs ++ [0]).map some) :=
  Or.inr (List.mem_map_of_mem (List.mem_append_right _ List.mem_cons_self))

theorem readString_terminated : ∀ bs : List UInt8,
    ∃ str, readString ((bs ++ [0]).map some) = some str
  | [] => ⟨[], rfl⟩
  | b :: bs => by
    obtain ⟨str, hstr⟩ := readString_terminated bs
    rw [List.cons_append, List.map_cons, readString, hstr]
    split_ifs
    · exact ⟨[], rfl⟩
    · exact ⟨b :: str, rfl⟩

/-- The value of an `interface` key has its terminator, or a byte that is never stored. -/
theorem overrideCells_ends (value : List UInt8) : Ends (overrideCells value) := by
  rcases Nat.lt_or_ge 65536 (value.length + 1) with h | h
  · refine Or.inl (List.mem_append_right _ (List.mem_replicate.mpr ⟨?_, rfl⟩))
    omega
  · rw [overrideCells_short h]
    exact terminated_ends value

theorem apply_ended (c : Call) {T : Table} (h : T.Ended) : (c.apply T).Ended := by
  intro cells hcells
  rcases apply_strings c T hcells with hcells | ⟨bs, rfl⟩ | ⟨config, target, rfl, rfl⟩
  · exact h cells hcells
  · exact terminated_ends bs
  · exact overrideCells_ends _

theorem applyAll_ended : ∀ (cs : List Call) {T : Table}, T.Ended → (applyAll cs T).Ended
  | [], _, h => h
  | c :: cs, _, h => applyAll_ended cs (apply_ended c h)

/-! ## The view of a moved device -/

section View

variable {T T' : Table} {P : Place}

/-- The image from the start of a string on. -/
theorem image_drop {as bs : List (List (Option UInt8))} {cells : List (Option UInt8)}
    (hs : T.strings = as ++ cells :: bs) :
    T.image.drop as.flatten.length = cells ++ bs.flatten := by
  rw [Table.image, hs, List.flatten_append, List.drop_left, List.flatten_cons]

/-- What is read at the start of a string. -/
theorem string_eq {as bs : List (List (Option UInt8))} {cells : List (Option UInt8)}
    (hs : T.strings = as ++ cells :: bs) (he : Ends cells) :
    T.string as.flatten.length = readString cells := by
  rw [Table.string, image_drop hs]
  exact readString_append he _

/-- A string of a table is found again where the table has moved to. -/
theorem image_lift (he : T.Ended) (hT : (T.lift P).strings <+: T'.strings) {off : Nat}
    (ho : Points T.strings off) : ∃ cells more more', Ends cells ∧
      T.image.drop off = cells ++ more ∧ T'.image.drop (off + P.before.size) = cells ++ more' := by
  obtain ⟨as, cells, bs, hs, rfl⟩ := ho
  obtain ⟨more, hmore⟩ := hT
  have hends : Ends cells := he cells (by rw [hs]; exact List.mem_append_right _ List.mem_cons_self)
  have hs' : T'.strings = (P.before.strings ++ as) ++ cells :: (bs ++ more) := by
    rw [← hmore, Table.lift, hs]
    simp only [List.append_assoc, List.cons_append]
  have hoff : as.flatten.length + P.before.size = (P.before.strings ++ as).flatten.length := by
    rw [List.flatten_append, List.length_append, Nat.add_comm]
    rfl
  exact ⟨cells, _, _, hends, image_drop hs, by rw [hoff, image_drop hs']⟩

/-- A string of a table is read the same where the table has moved to. -/
theorem string_lift (he : T.Ended) (hT : (T.lift P).strings <+: T'.strings) {off : Nat}
    (ho : Points T.strings off) : T'.string (off + P.before.size) = T.string off := by
  obtain ⟨cells, more, more', hends, h, h'⟩ := image_lift he hT ho
  rw [Table.string, Table.string, h, h', readString_append hends, readString_append hends]

theorem stored_lift (he : T.Ended) (hT : (T.lift P).strings <+: T'.strings) {off : Nat}
    (ho : Points T.strings off) : T'.stored (off + P.before.size) = T.stored off := by
  obtain ⟨cells, more, more', hends, h, h'⟩ := image_lift he hT ho
  rw [Table.stored, Table.stored, h, h', readStored_append hends, readStored_append hends]

theorem nameString_lift (he : T.Ended) (hT : (T.lift P).strings <+: T'.strings) {n : Name}
    (hn : n.Points T.strings) : T'.nameString (n.lift P) = T.nameString n := by
  cases n with
  | dot => rfl
  | names off => exact string_lift he hT hn

theorem storedName_lift (he : T.Ended) (hT : (T.lift P).strings <+: T'.strings) {n : Name}
    (hn : n.Points T.strings) : T'.storedName (n.lift P) = T.storedName n := by
  cases n with
  | dot => rfl
  | names off => exact stored_lift he hT hn

/-- What is stored of the strings of a device is the same where its table has moved to. -/
theorem storedView_lift (he : T.Ended) (hT : (T.lift P).strings <+: T'.strings) {s : DeviceSpec}
    (hs : s.Points T.strings) : T'.storedView (s.lift P) = T.storedView s := by
  have hoverride : (s.override.map (· + P.before.size)).map T'.stored = s.override.map T.stored := by
    cases ho : s.override with
    | none => rfl
    | some off => exact congrArg some (stored_lift he hT (hs.override off ho))
  have hres : (s.resources.map (Resource.lift P)).map (fun r => some (T'.storedName r.name)) =
      s.resources.map fun r => some (T.storedName r.name) := by
    rw [List.map_map]
    exact List.map_congr_left fun r hr => congrArg some (storedName_lift he hT (hs.resources r hr))
  unfold Table.storedView DeviceSpec.lift
  simp only [hoverride, hres]

/-- **A device looks the same** where its table has moved to. -/
theorem view_lift (he : T.Ended) (hT : (T.lift P).strings <+: T'.strings) {s : DeviceSpec}
    (hs : s.Points T.strings) : T'.view (s.lift P) = T.view s := by
  have hoverride : (s.override.map (· + P.before.size)).map T'.string = s.override.map T.string := by
    cases ho : s.override with
    | none => rfl
    | some off => exact congrArg some (string_lift he hT (hs.override off ho))
  have hres : (s.resources.map (Resource.lift P)).map (fun r => some (T'.resource r)) =
      s.resources.map fun r => some (T.resource r) := by
    rw [List.map_map]
    refine List.map_congr_left fun r hr => congrArg some ?_
    show (⟨T'.nameString (r.name.lift P), _, _, _⟩ : ResourceView) = _
    rw [nameString_lift he hT (hs.resources r hr)]
    rfl
  have hslice : (s.start ++ P.rest).take ((s.start ++ P.rest).length - (s.stop ++ P.rest).length) =
      s.start.take (s.start.length - s.stop.length) := by
    rw [List.length_append, List.length_append, Nat.add_sub_add_right,
      List.take_append_of_le_length (Nat.sub_le _ _)]
  unfold Table.view DeviceSpec.lift
  simp only [hoverride, hres, hslice]

end View

end LowriscLinux.Config
