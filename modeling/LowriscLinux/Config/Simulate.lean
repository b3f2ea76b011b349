import LowriscLinux.Config.Table
import LowriscLinux.Lib.Block

/-!
# Passes 1 and 2 build the table

A pass refines `Call.apply` of `Config/Table.lean`: a memory that holds a table (`Models`) is taken
by a helper call to one that holds the table with the call applied. The helpers are those of
`arch/riscv/drivers/config.c`, lines 326-451 and 463-470; both passes run the same code, and pass 1
differs in two tests: `state->pass >= HAVE_NAMES` (lines 333, 348 and 354) and `target->resource`
(lines 374, 399, 425 and 441), which is NULL until line 581.

* `Layout`: the blocks that a pass works in: how many devices, how many bytes of names, and the
  slice of the resources that each device has. Slices lie in the block and do not overlap.
* `Models`: the memory holds a table. `Filled`: the names hold the strings of the table and `names`
  is behind them; in pass 1 they are counted only. `Listed`: the devices are those of the table, and
  those that are still to come are as they were. `Slotted`: the slices hold the resources.
* `Room`: the layout has room for the table. Only pass 2 has slices.
* `spans` and `openings`: the strings and the devices that the ghost of a pass has recorded, which
  are those of the table in both passes. `Quiet`: nothing but the names and their ghost has changed.

In pass 1 the name of a resource is not read (`*name`, lines 402 and 444, comes after the test of
`target->resource`), so it does not matter that no byte of it is there.

Results:
* `exec_models`: one call, from any memory that has room for the table after it.
* `runCalls_models`: any sequence of ordered calls.
* `exec_safe`, `runCalls_safe`: a call that returns is `Safe`, in either pass.
-/

namespace LowriscLinux.Config

open LowriscLinux.Lib

/-! ## Memory that holds a table -/

/-- The blocks a pass works in: the number of devices, the size of the names, and for each device
its slice of the resources and the `driver_override` it starts with. -/
structure Layout where
  count    : Nat
  size     : Nat
  /-- The number of resources of the block. -/
  total    : Nat
  base     : Nat → Option Nat
  cap      : Nat → Nat
  override : Nat → Option Nat
  inside   : ∀ i b, base i = some b → b + cap i ≤ total
  disjoint : ∀ i j b b', base i = some b → base j = some b' → i < j → b + cap i ≤ b'

/-- What a pass may do in a layout. -/
def Event.Within (L : Layout) : Event → Prop
  | .byte off => off < L.size
  | .resource dev idx => idx < L.cap dev
  | .count dev n => dev < L.count ∧ n ≤ L.cap dev
  | _ => True

def spans (es : List Event) : List (Nat × Nat) :=
  es.filterMap fun
    | .string start stop => some (start, stop)
    | _ => none

def openings (es : List Event) : List (Nat × Nat × Nat) :=
  es.filterMap fun
    | .device dev group flags => some (dev, group, flags)
    | _ => none

/-- Where strings laid out from `off` on stand. -/
def spansFrom : Nat → List (List (Option UInt8)) → List (Nat × Nat)
  | _, [] => []
  | off, s :: ss => (off, off + s.length) :: spansFrom (off + s.length) ss

/-- The device as the table describes it. -/
def DeviceSpec.device (s : DeviceSpec) (resource override : Option Nat) : PlatformDevice where
  name := some s.name
  id := -1
  numResources := s.resources.length
  resource := resource
  driverOverride := s.override.or override
  configStart := some s.start
  configEnd := some s.stop

/-- The names hold these cells. -/
structure Filled (pass : Nat) (L : Layout) (cells : List (Option UInt8)) (names : Nat) (h : Heap) :
    Prop where
  names : names = cells.length
  memory : HAVE_NAMES ≤ pass → h.names = filled L.size cells
  within : HAVE_NAMES ≤ pass → ∀ e ∈ h.events, e.Within L

/-- The devices opened so far are as the table describes them, the others as they were. -/
structure Listed (L : Layout) (T : Table) (h : Heap) : Prop where
  count : h.devices.length = L.count
  opened : ∀ (i : Nat) (s : DeviceSpec), T.devices[i]? = some s →
    h.devices[i]? = some (s.device (L.base i) (L.override i))
  fresh : ∀ (i : Nat) (d : PlatformDevice), T.devices.length ≤ i → h.devices[i]? = some d →
    d.resource = L.base i ∧ d.driverOverride = L.override i

/-- The slices of the devices hold their resources. -/
structure Slotted (L : Layout) (T : Table) (h : Heap) : Prop where
  total : h.resources.length = L.total
  slots : ∀ (i : Nat) (s : DeviceSpec) (b : Nat), T.devices[i]? = some s → L.base i = some b →
    ∀ (k : Nat) (r : Resource), s.resources[k]? = some r → h.resources[b + k]? = some (some r)

/-- The devices opened, with their groups and flags. -/
def Table.openings (T : Table) : List (Nat × Nat × Nat) :=
  T.devices.mapIdx fun i s => (i, s.group, s.flags)

/-- The memory of a pass holds the table. -/
structure Models (pass : Nat) (L : Layout) (T : Table) (names : Nat) (h : Heap) : Prop where
  filled : Filled pass L T.image names h
  listed : Listed L T h
  slotted : Slotted L T h
  spans : spans h.events = spansFrom 0 T.strings
  openings : openings h.events = T.openings

/-- The layout has room for the table; only pass 2 has slices. -/
structure Room (pass : Nat) (L : Layout) (T : Table) : Prop where
  writes : ∀ i b, L.base i = some b → HAVE_NAMES ≤ pass
  size : HAVE_NAMES ≤ pass → T.size ≤ L.size
  count : T.devices.length ≤ L.count
  cap : ∀ (i : Nat) (s : DeviceSpec), T.devices[i]? = some s → s.resources.length ≤ L.cap i

theorem Room.mono {pass : Nat} {L : Layout} {T T' : Table} (hg : T.Grows T')
    (h : Room pass L T') : Room pass L T where
  writes := h.writes
  size := fun hp => hg.size_le.trans (h.size hp)
  count := hg.length_le.trans h.count
  cap := by
    intro i s hs
    obtain ⟨s', hs', g⟩ := hg.devices i s hs
    exact g.resources.length_le.trans (h.cap i s' hs')

/-! ## Stores through `names` -/

/-- Nothing but the names and the log of bytes changed. -/
structure Quiet (h h' : Heap) : Prop where
  devices : h'.devices = h.devices
  resources : h'.resources = h.resources
  spans : spans h'.events = spans h.events
  openings : openings h'.events = openings h.events

theorem Quiet.refl (h : Heap) : Quiet h h := ⟨rfl, rfl, rfl, rfl⟩

theorem Quiet.trans {h h' h'' : Heap} (a : Quiet h h') (b : Quiet h' h'') : Quiet h h'' :=
  ⟨b.devices.trans a.devices, b.resources.trans a.resources, b.spans.trans a.spans,
    b.openings.trans a.openings⟩

theorem spans_log (h : Heap) (e : Event) :
    spans (h.log e).events = spans h.events ++ spans [e] := List.filterMap_append

theorem openings_log (h : Heap) (e : Event) :
    openings (h.log e).events = openings h.events ++ openings [e] := List.filterMap_append

theorem within_log {L : Layout} {h : Heap} {e : Event} (hh : ∀ e ∈ h.events, e.Within L)
    (he : e.Within L) : ∀ e' ∈ (h.log e).events, e'.Within L := by
  intro e' h'
  rcases List.mem_append.mp h' with h' | h'
  · exact hh e' h'
  · rw [List.mem_singleton.mp h']
    exact he

section Stores

variable {pass : Nat} {L : Layout} {cells : List (Option UInt8)} {names : Nat} {h : Heap}

theorem storeName_filled (hf : Filled pass L cells names h) (hp : HAVE_NAMES ≤ pass)
    (hlt : cells.length < L.size) (b : UInt8) : Returns (h.storeName names b) fun h' =>
      Filled pass L (cells ++ [some b]) (names + 1) h' ∧ Quiet h h' := by
  have hlen : names < h.names.length := by
    rw [hf.memory hp, filled_length (Nat.le_of_lt hlt), hf.names]
    exact hlt
  unfold Heap.storeName
  rw [if_pos hlen]
  refine .ok ⟨⟨?_, fun _ => ?_, fun _ => ?_⟩, rfl, rfl, ?_, ?_⟩
  · rw [List.length_append, hf.names]
    rfl
  · show h.names.set names (some b) = _
    rw [hf.memory hp, hf.names, filled_push hlt]
  · refine within_log (hf.within hp) ?_
    show names < L.size
    rw [hf.names]
    exact hlt
  · exact (spans_log _ _).trans (List.append_nil _)
  · exact (openings_log _ _).trans (List.append_nil _)

theorem storeNames_filled (hp : HAVE_NAMES ≤ pass) : ∀ (bs : List UInt8)
    {cells : List (Option UInt8)} {names : Nat} {h : Heap}, Filled pass L cells names h →
    cells.length + bs.length ≤ L.size → Returns (h.storeNames names bs) fun h' =>
      Filled pass L (cells ++ bs.map some) (names + bs.length) h' ∧ Quiet h h'
  | [], cells, _, h, hf, _ => .ok ⟨by rw [List.map_nil, List.append_nil]; exact hf, .refl h⟩
  | b :: bs, cells, names, h, hf, hle => by
    rw [List.length_cons] at hle
    refine (storeName_filled hf hp (by omega) b).bind fun h1 _ ⟨hf1, hq1⟩ => ?_
    refine (storeNames_filled hp bs hf1 ?_).imp fun h2 _ ⟨hf2, hq2⟩ => ⟨?_, hq1.trans hq2⟩
    · rw [List.length_append, List.length_singleton]
      omega
    · rw [List.append_assoc, Nat.add_assoc, Nat.add_comm 1] at hf2
      exact hf2

/-- Before pass 2 the bytes of a name are only counted. -/
theorem storeIf_filled (hf : Filled pass L cells names h) (bs : List UInt8)
    (hle : HAVE_NAMES ≤ pass → cells.length + bs.length ≤ L.size) :
    Returns (if HAVE_NAMES ≤ pass then h.storeNames names bs else .ok h) fun h' =>
      Filled pass L (cells ++ bs.map some) (names + bs.length) h' ∧ Quiet h h' := by
  by_cases hp : HAVE_NAMES ≤ pass
  · rw [if_pos hp]
    exact storeNames_filled hp bs hf (hle hp)
  · rw [if_neg hp]
    refine .ok ⟨⟨?_, fun h => absurd h hp, fun h => absurd h hp⟩, .refl h⟩
    rw [List.length_append, List.length_map, hf.names]

/-- Rewrite the byte stored last. -/
theorem storeLast_filled {x : Option UInt8} (hf : Filled pass L (cells ++ [x]) names h) (b : UInt8)
    (hlt : HAVE_NAMES ≤ pass → cells.length < L.size) :
    Returns (if HAVE_NAMES ≤ pass then h.storeName (names - 1) b else .ok h) fun h' =>
      Filled pass L (cells ++ [some b]) names h' ∧ Quiet h h' := by
  have hlen : names = cells.length + 1 := by
    rw [hf.names, List.length_append, List.length_singleton]
  have hnames : names = (cells ++ [some b]).length := by
    rw [hlen, List.length_append, List.length_singleton]
  by_cases hp : HAVE_NAMES ≤ pass
  · have hlt := hlt hp
    have hmem := hf.memory hp
    have hsub : names - 1 = cells.length := by rw [hlen, Nat.add_sub_cancel]
    rw [if_pos hp, hsub]
    unfold Heap.storeName
    rw [if_pos]
    · refine .ok ⟨⟨hnames, fun _ => ?_, fun _ => ?_⟩, rfl, rfl, ?_, ?_⟩
      · show h.names.set cells.length (some b) = _
        rw [hmem, filled_set (by simp), List.set_append_right _ _ (Nat.le_refl _), Nat.sub_self]
        rfl
      · exact within_log (hf.within hp) hlt
      · exact (spans_log _ _).trans (List.append_nil _)
      · exact (openings_log _ _).trans (List.append_nil _)
    · rw [hmem, filled_length (by rw [List.length_append]; exact hlt)]
      exact hlt
  · rw [if_neg hp]
    exact .ok ⟨⟨hnames, fun h => absurd h hp, fun h => absurd h hp⟩, .refl h⟩

theorem Filled.log (hf : Filled pass L cells names h) {e : Event}
    (he : HAVE_NAMES ≤ pass → e.Within L) : Filled pass L cells names (h.log e) :=
  ⟨hf.names, hf.memory, fun hp => within_log (hf.within hp) (he hp)⟩

theorem spansFrom_append : ∀ (as bs : List (List (Option UInt8))) (off : Nat),
    spansFrom off (as ++ bs) = spansFrom off as ++ spansFrom (off + as.flatten.length) bs
  | [], _, _ => rfl
  | a :: as, bs, off => by
    rw [List.cons_append, spansFrom, spansFrom, spansFrom_append as, List.flatten_cons,
      List.length_append, Nat.add_assoc]
    rfl

theorem spansFrom_layOut (T : Table) (cells : List (Option UInt8)) :
    spansFrom 0 (T.layOut cells).strings =
      spansFrom 0 T.strings ++ [(T.image.length, (T.layOut cells).image.length)] := by
  rw [Table.layOut_image, Table.layOut, spansFrom_append, List.length_append, Nat.zero_add]
  rfl

end Stores

/-! ## `config_path` -/

section Paths

variable {pass : Nat} {L : Layout}

theorem pathBytes_cons (k : Key) (up : List Key) :
    pathBytes (k :: up) = pathBytes up ++ (k.bytes ++ [dot]) := rfl

theorem pathBytes_concat (k : Key) (up : List Key) :
    pathBytes (k :: up) = (pathBytes (k :: up)).dropLast ++ [dot] := by
  rw [pathBytes_cons, ← List.append_assoc, List.dropLast_concat]

theorem pathString_length (k : Key) (up : List Key) :
    (pathString (k :: up)).length = (pathBytes (k :: up)).length := by
  rw [pathString, List.length_append, List.length_dropLast, pathBytes_cons]
  simp only [List.length_append, List.length_singleton]
  omega

theorem configPathHelper_filled : ∀ (k : Key) (up : List Key) {cells : List (Option UInt8)}
    {names : Nat} {h : Heap}, Filled pass L cells names h →
    (HAVE_NAMES ≤ pass → cells.length + (pathBytes (k :: up)).length ≤ L.size) →
    Returns (configPathHelper pass (k :: up) names h) fun r =>
      Filled pass L (cells ++ (pathBytes (k :: up)).map some) r.1 r.2 ∧ Quiet h r.2
  | k, up, cells, names, h, hf, hle => by
    rw [pathBytes_cons, List.length_append] at hle
    have hup : Returns (if up = [] then .ok (names, h) else configPathHelper pass up names h)
        fun r => Filled pass L (cells ++ (pathBytes up).map some) r.1 r.2 ∧ Quiet h r.2 := by
      cases up with
      | nil =>
        rw [if_pos rfl]
        exact .ok ⟨by rw [pathBytes, List.map_nil, List.append_nil]; exact hf, .refl h⟩
      | cons k' up =>
        rw [if_neg (List.cons_ne_nil _ _)]
        exact configPathHelper_filled k' up hf fun hp => by have := hle hp; omega
    unfold configPathHelper
    refine hup.bind fun ⟨n1, h1⟩ _ ⟨hf1, hq1⟩ => ?_
    refine (storeIf_filled hf1 (k.bytes ++ [dot]) fun hp => ?_).bind fun h2 _ ⟨hf2, hq2⟩ => ?_
    · rw [List.length_append, List.length_map, Nat.add_assoc]
      exact hle hp
    · refine .ok ⟨?_, hq1.trans hq2⟩
      rw [pathBytes_cons, List.map_append, ← List.append_assoc]
      rw [List.length_append] at hf2
      exact hf2

/-- **`config_path` lays out the path** and returns its name. -/
theorem configPath_models {T : Table} {names : Nat} {h : Heap} (parent : List Key)
    (hf : Filled pass L T.image names h) (hs : spans h.events = spansFrom 0 T.strings)
    (hle : HAVE_NAMES ≤ pass → (T.addPath parent).size ≤ L.size) :
    Returns (configPath pass parent names h) fun r => r.1 = T.pathName parent ∧
      Filled pass L (T.addPath parent).image r.2.1 r.2.2 ∧
      spans r.2.2.events = spansFrom 0 (T.addPath parent).strings ∧
      r.2.2.devices = h.devices ∧ r.2.2.resources = h.resources ∧
      openings r.2.2.events = openings h.events := by
  cases parent with
  | nil => exact .ok ⟨rfl, hf, hs, rfl, rfl, rfl⟩
  | cons k up =>
    have hlen : (T.addPath (k :: up)).size = T.size + (pathBytes (k :: up)).length := by
      rw [Table.size, Table.addPath, Table.layOut_image, List.length_append, List.length_map,
        pathString_length]
      rfl
    have hroom : HAVE_NAMES ≤ pass → T.image.length + (pathBytes (k :: up)).length ≤ L.size :=
      fun hp => hlen ▸ hle hp
    unfold configPath
    refine (configPathHelper_filled k up hf hroom).bind fun ⟨n1, h1⟩ _ ⟨hf1, hq1⟩ => ?_
    -- the last dot becomes the terminator
    rw [pathBytes_concat, List.map_append, ← List.append_assoc] at hf1
    refine (storeLast_filled hf1 0 fun hp => ?_).bind fun h2 _ ⟨hf2, hq2⟩ => ?_
    · have := hroom hp
      rw [List.length_append, List.length_map, List.length_dropLast]
      have h0 : 0 < (pathBytes (k :: up)).length := by
        rw [pathBytes_concat, List.length_append]
        exact Nat.succ_pos _
      omega
    · have hq := hq1.trans hq2
      have himage : (T.addPath (k :: up)).image =
          T.image ++ (pathBytes (k :: up)).dropLast.map some ++ [some 0] := by
        rw [Table.addPath, Table.layOut_image, pathString, List.map_append, List.append_assoc]
        rfl
      rw [← himage] at hf2
      refine .ok ⟨?_, hf2.log fun _ => trivial, ?_, hq.devices, hq.resources, ?_⟩
      · rw [Table.pathName, hf.names]
        rfl
      · have hn1 : n1 = (T.addPath (k :: up)).image.length := hf2.names
        show spans (h2.log _).events = _
        rw [spans_log, hq.spans, hs, hn1, hf.names, Table.addPath]
        exact (spansFrom_layOut T _).symm
      · exact (openings_log _ _).trans ((List.append_nil _).trans hq.openings)

end Paths

/-! ## Devices -/

theorem Listed.congr {L : Layout} {T T' : Table} {h h' : Heap} (hl : Listed L T h)
    (hT : T'.devices = T.devices) (hh : h'.devices = h.devices) : Listed L T' h' :=
  ⟨hh ▸ hl.count, hT ▸ hh ▸ hl.opened, hT ▸ hh ▸ hl.fresh⟩

theorem Slotted.congr {L : Layout} {T T' : Table} {h h' : Heap} (hl : Slotted L T h)
    (hT : T'.devices = T.devices) (hh : h'.resources = h.resources) : Slotted L T' h' :=
  ⟨hh ▸ hl.total, hT ▸ hh ▸ hl.slots⟩

theorem getElem?_update {T : Table} {t i : Nat} {f : DeviceSpec → DeviceSpec} {s' : DeviceSpec}
    (h : (T.update (some t) f).devices[i]? = some s') :
    ∃ s, T.devices[i]? = some s ∧ s' = if t = i then f s else s := by
  have h : (T.devices.modify t f)[i]? = some s' := h
  rw [List.getElem?_modify] at h
  cases hs : T.devices[i]? with
  | none => rw [hs] at h; cases h
  | some s =>
    rw [hs] at h
    exact ⟨s, rfl, (Option.some.inj h).symm⟩

section Devices

variable {pass : Nat} {L : Layout} {T : Table} {names : Nat} {h : Heap} {t : Nat} {s : DeviceSpec}

theorem Listed.device (hl : Listed L T h) (hs : T.devices[t]? = some s) :
    h.device t = .ok (s.device (L.base t) (L.override t)) := by
  unfold Heap.device
  rw [hl.opened t s hs]

/-- A device is updated in the table and in memory. -/
theorem Listed.update (hl : Listed L T h) (hs : T.devices[t]? = some s)
    (f : DeviceSpec → DeviceSpec) : Listed L (T.update (some t) f)
      (h.setDevice t ((f s).device (L.base t) (L.override t))) := by
  have ht : t < h.devices.length :=
    (List.getElem?_eq_some_iff.mp (hl.opened t s hs)).1
  refine ⟨List.length_set.trans hl.count, fun i s' hs' => ?_, fun i d hi hd => ?_⟩
  · obtain ⟨s0, hs0, rfl⟩ := getElem?_update hs'
    show (h.devices.set t _)[i]? = _
    by_cases hti : t = i
    · subst hti
      rw [hs0] at hs
      cases hs
      rw [if_pos rfl, List.getElem?_set_self ht]
    · rw [if_neg hti, List.getElem?_set_ne hti]
      exact hl.opened i s0 hs0
  · rw [Table.update_devices_length] at hi
    have hti : t ≠ i := by
      have := (List.getElem?_eq_some_iff.mp hs).1
      omega
    have hd : (h.devices.set t _)[i]? = some d := hd
    rw [List.getElem?_set_ne hti] at hd
    exact hl.fresh i d hi hd

/-- An update that leaves the resources of the device alone. -/
theorem Slotted.update (hl : Slotted L T h) {f : DeviceSpec → DeviceSpec}
    (hf : ∀ s : DeviceSpec, (f s).resources = s.resources) : Slotted L (T.update (some t) f) h := by
  refine ⟨hl.total, fun i s' b hs' hb k r hr => ?_⟩
  obtain ⟨s0, hs0, rfl⟩ := getElem?_update hs'
  refine hl.slots i s0 b hs0 hb k r ?_
  split_ifs at hr with hti
  · rwa [hf] at hr
  · exact hr

theorem openings_update {f : DeviceSpec → DeviceSpec}
    (hf : ∀ s : DeviceSpec, (f s).group = s.group ∧ (f s).flags = s.flags) :
    (T.update (some t) f).openings = T.openings := by
  refine List.ext_getElem? fun i => ?_
  show ((T.devices.modify t f).mapIdx _)[i]? = _
  rw [Table.openings, List.getElem?_mapIdx, List.getElem?_mapIdx, List.getElem?_modify]
  cases T.devices[i]? with
  | none => rfl
  | some s =>
    by_cases hti : t = i
    · simp [hti, hf]
    · simp [hti]

/-- A device's own fields are updated in the table and in memory. -/
theorem Models.update (hm : Models pass L T names h) (hs : T.devices[t]? = some s)
    (f : DeviceSpec → DeviceSpec) (hf : ∀ s : DeviceSpec, (f s).resources = s.resources ∧
      (f s).group = s.group ∧ (f s).flags = s.flags) :
    Models pass L (T.update (some t) f) names
      (h.setDevice t ((f s).device (L.base t) (L.override t))) where
  filled := by
    rw [Table.update_image]
    exact ⟨hm.filled.names, hm.filled.memory, hm.filled.within⟩
  listed := hm.listed.update hs f
  slotted := (hm.slotted.update fun s => (hf s).1).congr rfl rfl
  spans := by
    rw [Table.update_strings]
    exact hm.spans
  openings := by
    rw [openings_update fun s => (hf s).2]
    exact hm.openings

/-- **`setConfigEnd`** updates the device. -/
theorem setConfigEnd_models (hm : Models pass L T names h) (ht : t < T.devices.length)
    (stop : Text) : Returns (setConfigEnd t stop h) fun h' =>
      Models pass L (T.update (some t) (.withStop stop)) names h' := by
  obtain ⟨s, hs⟩ : ∃ s, T.devices[t]? = some s := ⟨_, List.getElem?_eq_getElem ht⟩
  exact ⟨_, bind_eq_ok.mpr ⟨_, hm.listed.device hs, rfl⟩,
    hm.update hs (.withStop stop) fun _ => ⟨rfl, rfl, rfl⟩⟩

/-- A string is laid out. -/
theorem Models.layOut {h' : Heap} {cells : List (Option UInt8)} {names' : Nat}
    (hm : Models pass L T names h) (hf : Filled pass L (T.image ++ cells) names' h')
    (hq : Quiet h h') : Models pass L (T.layOut cells) names' (h'.log (.string names names')) where
  filled := by
    rw [Table.layOut_image]
    exact hf.log fun _ => trivial
  listed := hm.listed.congr rfl hq.devices
  slotted := hm.slotted.congr rfl hq.resources
  spans := by
    rw [spans_log, hq.spans, hm.spans, spansFrom_layOut, Table.layOut_image, ← hf.names,
      ← hm.filled.names]
    rfl
  openings := by
    rw [openings_log, hq.openings, hm.openings]
    exact List.append_nil _

/-- **`config_path`** lays out the path. -/
theorem Models.addPath {parent : List Key} (hm : Models pass L T names h)
    (hle : HAVE_NAMES ≤ pass → (T.addPath parent).size ≤ L.size) :
    Returns (configPath pass parent names h) fun r => r.1 = T.pathName parent ∧
      Models pass L (T.addPath parent) r.2.1 r.2.2 := by
  refine (configPath_models parent hm.filled hm.spans hle).imp fun r _ hr => ?_
  obtain ⟨hn, hf, hs, hd, hres, ho⟩ := hr
  have hT := Table.addPath_devices T parent
  refine ⟨hn, hf, hm.listed.congr hT hd, hm.slotted.congr hT hres, hs, ?_⟩
  rw [ho, hm.openings, Table.openings, Table.openings, hT]

/-- The stores of `parse_string`: in pass 2 up to 65536 bytes, before that none. -/
theorem storeValue_filled {cells : List (Option UInt8)} (hf : Filled pass L cells names h)
    (value : List UInt8) (hle : HAVE_NAMES ≤ pass → cells.length + (value.length + 1) ≤ L.size) :
    Returns (h.storeNames names ((value ++ [0]).take (if HAVE_NAMES ≤ pass then 65536 else 0)))
      fun h' => Filled pass L (cells ++ overrideCells value) (names + (value.length + 1)) h' ∧
        Quiet h h' := by
  have hnames : names + (value.length + 1) = (cells ++ overrideCells value).length := by
    rw [hf.names, List.length_append, overrideCells_length]
  by_cases hp : HAVE_NAMES ≤ pass
  · have hle := hle hp
    have hlen : ((value ++ [0]).take 65536).length ≤ value.length + 1 := by
      rw [List.length_take, List.length_append, List.length_singleton]
      exact Nat.min_le_right _ _
    have hskip : ((value ++ [0]).take 65536).length + (value.length + 1 - 65536) =
        value.length + 1 := by
      rw [List.length_take, List.length_append, List.length_singleton]
      omega
    rw [if_pos hp]
    refine (storeNames_filled hp _ hf (by omega)).imp fun h' _ ⟨hf', hq⟩ => ⟨?_, hq⟩
    refine ⟨hnames, fun _ => ?_, hf'.within⟩
    rw [hf'.memory hp, overrideCells, ← List.append_assoc, filled_skip]
    rw [List.length_append, List.length_map, Nat.add_assoc, hskip]
    exact hle
  · rw [if_neg hp, List.take_zero]
    exact .ok ⟨⟨hnames, fun h => absurd h hp, fun h => absurd h hp⟩, .refl h⟩

theorem parseInterface_eq (config : Text) (target : Option Nat) :
    parseInterface pass config target names h =
      (target.elim (.ok h) fun t => (h.device t).bind fun d =>
        .ok (h.setDevice t { d with driverOverride := some names })).bind fun h1 =>
      (h1.storeNames names (parseString config (if HAVE_NAMES ≤ pass then 65536 else 0)).2).bind
        fun h2 => .ok (names + (parseString config (if HAVE_NAMES ≤ pass then 65536 else 0)).1,
          h2.log (.string names
            (names + (parseString config (if HAVE_NAMES ≤ pass then 65536 else 0)).1))) := by
  cases target <;> rfl

/-- **`parse_interface`** sets the override and lays out the value. -/
theorem parseInterface_models {target : Option Nat} (hm : Models pass L T names h) (config : Text)
    (ht : ∀ t ∈ target, t < T.devices.length)
    (hr : Room pass L ((Call.interface config target).apply T)) :
    Returns (parseInterface pass config target names h) fun r =>
      Models pass L ((Call.interface config target).apply T) r.1 r.2 := by
  have hT : (Call.interface config target).apply T =
      (T.update target (.withOverride T.size)).layOut (overrideCells (decodeString config)) := by
    cases target <;> rfl
  have hdev : Returns (target.elim (.ok h) fun t => (h.device t).bind fun d =>
      .ok (h.setDevice t { d with driverOverride := some names })) fun h' =>
        Models pass L (T.update target (.withOverride T.size)) names h' := by
    cases target with
    | none => exact .ok hm
    | some t =>
      obtain ⟨s, hs⟩ : ∃ s, T.devices[t]? = some s := ⟨_, List.getElem?_eq_getElem (ht t rfl)⟩
      have hn : names = T.size := hm.filled.names
      rw [hn]
      exact ⟨_, bind_eq_ok.mpr ⟨_, hm.listed.device hs, rfl⟩,
        hn ▸ hm.update hs (.withOverride T.size) fun _ => ⟨rfl, rfl, rfl⟩⟩
  rw [hT] at hr ⊢
  rw [parseInterface_eq]
  simp only [parseString_eq]
  refine hdev.bind fun h1 _ hm1 => ?_
  refine (storeValue_filled hm1.filled (decodeString config) fun hp => ?_).bind
    fun h2 _ hf2 => .ok (hm1.layOut hf2.1 hf2.2)
  have := hr.size hp
  rw [Table.size, Table.layOut_image, List.length_append, overrideCells_length] at this
  exact this

/-! ## Resources -/

theorem addResource_eq {t : Nat} {d : PlatformDevice} (hd : h.device t = .ok d) (name : Name)
    (flags : Nat) (start stop : BitVec 64) :
    addResource h t name flags start stop =
      (d.resource.elim (.ok h) fun base => (h.nameHead name).bind fun c =>
        h.storeResource t base d.numResources
          ⟨if c ≠ 0 then name else .dot, flags, start, stop⟩).bind fun h1 =>
      .ok ((h1.setDevice t { d with numResources := d.numResources + 1 }).log
        (.count t (d.numResources + 1))) := by
  unfold addResource
  rw [hd]
  cases d with
  | mk _ _ _ resource => cases resource <;> rfl

/-- The name `parse_range` and `parse_single` use, read back from memory. -/
theorem nameHead_models {parent : List Key} (hm : Models pass L (T.addPath parent) names h)
    (hp : HAVE_NAMES ≤ pass) : Returns (h.nameHead (T.pathName parent)) fun c =>
      (if c ≠ 0 then T.pathName parent else .dot) = T.resourceName parent := by
  cases parent with
  | nil => exact .ok (by simp [Table.pathName, Table.resourceName])
  | cons k up =>
    obtain ⟨b, bs, hb⟩ : ∃ b bs, pathString (k :: up) = b :: bs := by
      refine List.exists_cons_of_ne_nil ?_
      unfold pathString
      exact List.append_ne_nil_of_right_ne_nil _ (List.cons_ne_nil _ _)
    have himage : (T.addPath (k :: up)).image = T.image ++ some b :: bs.map some := by
      rw [Table.addPath, Table.layOut_image, hb]
      rfl
    have hget : h.names[T.size]? = some (some b) := by
      rw [hm.filled.memory hp, filled_getElem?, himage]
      · show (T.image ++ some b :: bs.map some)[T.image.length]? = _
        rw [List.getElem?_append_right (Nat.le_refl _), Nat.sub_self]
        rfl
      · rw [himage, List.length_append]
        exact Nat.lt_add_of_pos_right (Nat.succ_pos _)
    simp only [Table.pathName, Heap.nameHead, hget]
    refine .ok ?_
    rw [Table.resourceName, hb, List.head?_cons]
    by_cases h0 : b = 0
    · rw [if_neg (not_not_intro h0), if_pos (congrArg some h0)]
    · rw [if_pos h0, if_neg (fun h => h0 (Option.some.inj h))]

/-- The slot after the resources of a device is filled. -/
theorem Slotted.store {s : DeviceSpec} {b : Nat} (hl : Slotted L T h) (hs : T.devices[t]? = some s)
    (hb : L.base t = some b) (hroom : ∀ (i : Nat) (s : DeviceSpec), T.devices[i]? = some s →
      s.resources.length ≤ L.cap i) (hlt : s.resources.length < L.cap t) (r : Resource) :
    Slotted L (T.update (some t) (.withResource r)) { h with
      resources := h.resources.set (b + s.resources.length) (some r) } := by
  refine ⟨List.length_set.trans hl.total, fun i s' b' hs' hb' k r' hr' => ?_⟩
  obtain ⟨s0, hs0, rfl⟩ := getElem?_update hs'
  have hin := L.inside t b hb
  have hlen : b + s.resources.length < h.resources.length := by
    rw [hl.total]
    omega
  show (h.resources.set _ _)[b' + k]? = _
  by_cases hti : t = i
  · subst hti
    rw [hs] at hs0
    cases hs0
    rw [hb] at hb'
    cases hb'
    rw [if_pos rfl] at hr'
    have hr' : (s.resources ++ [r])[k]? = some r' := hr'
    rcases Nat.lt_or_ge k s.resources.length with hk | hk
    · rw [List.getElem?_append_left hk] at hr'
      rw [List.getElem?_set_ne (by omega)]
      exact hl.slots t s b hs hb k r' hr'
    · rw [List.getElem?_append_right hk] at hr'
      have hk0 : k - s.resources.length = 0 := by
        have := (List.getElem?_eq_some_iff.mp hr').1
        rw [List.length_singleton] at this
        omega
      rw [hk0] at hr'
      cases hr'
      rw [show k = s.resources.length by omega, List.getElem?_set_self hlen]
  · rw [if_neg hti] at hr'
    have hk := (List.getElem?_eq_some_iff.mp hr').1
    have hcap := hroom i s0 hs0
    -- another device's slice lies elsewhere
    have hne : b + s.resources.length ≠ b' + k := by
      rcases Nat.lt_or_gt_of_ne hti with hlt' | hlt'
      · have := L.disjoint t i b b' hb hb' hlt'
        omega
      · have := L.disjoint i t b' b hb' hb hlt'
        omega
    rw [List.getElem?_set_ne hne]
    exact hl.slots i s0 b' hs0 hb' k r' hr'

/-- **`addResource`** fills the next slot of the target, when it has slots, and counts it. -/
theorem addResource_models {parent : List Key} {flags : Nat} {start stop : BitVec 64}
    (hm : Models pass L (T.addPath parent) names h) (ht : t < T.devices.length)
    (hr : Room pass L (T.addResource t parent flags start stop)) :
    Returns (addResource h t (T.pathName parent) flags start stop) fun h' =>
      Models pass L (T.addResource t parent flags start stop) names h' := by
  have hT := Table.addPath_devices T parent
  obtain ⟨s, hs⟩ : ∃ s, T.devices[t]? = some s := ⟨_, List.getElem?_eq_getElem ht⟩
  rw [← hT] at hs
  have hd := hm.listed.device hs
  let r : Resource := ⟨T.resourceName parent, flags, start, stop⟩
  have hcap : s.resources.length + 1 ≤ L.cap t := by
    have h1 := hr.cap t (s.withResource r) (by
      show ((T.addPath parent).devices.modify t _)[t]? = _
      rw [List.getElem?_modify, hs]
      simp [r])
    rwa [DeviceSpec.withResource, List.length_append] at h1
  have hcount : t < L.count := by
    have h1 := hr.count
    rw [Table.addResource, Table.update_devices_length, hT] at h1
    omega
  have hroom := (hr.mono (update_grows (T.addPath parent) (some t) (f := .withResource r) fun _ =>
    ⟨rfl, rfl, rfl, rfl, id, List.prefix_append _ _⟩)).cap
  -- the slot
  have hslot : Returns ((L.base t).elim (.ok h) fun base =>
      (h.nameHead (T.pathName parent)).bind fun c => h.storeResource t base s.resources.length
        ⟨if c ≠ 0 then T.pathName parent else .dot, flags, start, stop⟩) fun h1 =>
          Filled pass L (T.addPath parent).image names h1 ∧
        h1.devices = h.devices ∧ Slotted L ((T.addPath parent).update (some t) (.withResource r)) h1 ∧
        spans h1.events = spans h.events ∧ openings h1.events = openings h.events := by
    cases hb : L.base t with
    | none =>
      refine .ok ⟨hm.filled, rfl, ⟨hm.slotted.total, fun i s' b' hs' hb' k r' hr' => ?_⟩, rfl, rfl⟩
      obtain ⟨s0, hs0, rfl⟩ := getElem?_update hs'
      have hti : t ≠ i := fun hti => by rw [hti, hb'] at hb; cases hb
      rw [if_neg hti] at hr'
      exact hm.slotted.slots i s0 b' hs0 hb' k r' hr'
    | some base =>
      have hin := L.inside t base hb
      refine (nameHead_models hm (hr.writes t base hb)).bind fun c _ hc => ?_
      rw [hc, Heap.storeResource, if_pos (by rw [hm.slotted.total]; omega)]
      refine .ok ⟨⟨hm.filled.names, hm.filled.memory, fun hp => ?_⟩, rfl, ?_, ?_, ?_⟩
      · exact within_log (hm.filled.within hp) hcap
      · exact (hm.slotted.store hs hb hroom hcap r).congr rfl rfl
      · exact (spans_log _ _).trans (List.append_nil _)
      · exact (openings_log _ _).trans (List.append_nil _)
  rw [addResource_eq hd]
  refine hslot.bind fun h1 _ hh1 => .ok ?_
  obtain ⟨hf1, hd1, hs1, hsp1, ho1⟩ := hh1
  have hl1 : Listed L (T.addPath parent) h1 := hm.listed.congr rfl hd1
  have hl := hl1.update hs (.withResource r)
  have hn : (s.withResource r).device (L.base t) (L.override t) =
      { s.device (L.base t) (L.override t) with
        numResources := (s.device (L.base t) (L.override t)).numResources + 1 } := by
    simp [DeviceSpec.device, DeviceSpec.withResource]
  rw [← hn]
  refine ⟨?_, hl.congr rfl rfl, hs1.congr rfl rfl, ?_, ?_⟩
  · unfold Table.addResource
    rw [Table.update_image]
    exact ⟨hf1.names, hf1.memory, fun hp => within_log (hf1.within hp) ⟨hcount, hcap⟩⟩
  · unfold Table.addResource
    rw [Table.update_strings, spans_log]
    exact (List.append_nil _).trans (hsp1.trans hm.spans)
  · unfold Table.addResource
    rw [openings_update (f := .withResource r) fun _ => ⟨rfl, rfl⟩, openings_log]
    exact (List.append_nil _).trans (ho1.trans hm.openings)

/-- An accepted resource: its path and its slot. -/
theorem addPathResource_models {parent : List Key} {flags : Nat} {start stop : BitVec 64}
    (hm : Models pass L T names h) (ht : t < T.devices.length)
    (hr : Room pass L (T.addResource t parent flags start stop)) :
    Returns ((configPath pass parent names h).bind fun r =>
        (addResource r.2.2 t r.1 flags start stop).bind fun h' => .ok (r.2.1, h')) fun r =>
      Models pass L (T.addResource t parent flags start stop) r.1 r.2 := by
  have hle := (update_grows (T.addPath parent) (some t) (f := .withResource
    ⟨T.resourceName parent, flags, start, stop⟩) fun _ =>
    ⟨rfl, rfl, rfl, rfl, id, List.prefix_append _ _⟩).size_le
  refine (hm.addPath fun hp => hle.trans (hr.size hp)).bind fun r _ ⟨hn, hm1⟩ => ?_
  rw [hn]
  exact (addResource_models hm1 ht hr).bind fun h' _ hm2 => .ok hm2

theorem lastPass_models {target : Option Nat} (hm : Models pass L T names h)
    (ht : ∀ t ∈ target, t < T.devices.length) :
    Returns (lastPass h target) fun _ => True := by
  cases target with
  | none => exact .ok trivial
  | some t =>
    obtain ⟨s, hs⟩ : ∃ s, T.devices[t]? = some s := ⟨_, List.getElem?_eq_getElem (ht t rfl)⟩
    exact ⟨_, bind_eq_ok.mpr ⟨_, hm.listed.device hs, rfl⟩, trivial⟩

/-- The table says nothing about what is printed. -/
theorem Models.printk (hm : Models pass L T names h) (m : Message) :
    Models pass L T names (h.printk m) :=
  ⟨⟨hm.filled.names, hm.filled.memory, hm.filled.within⟩, hm.listed.congr rfl rfl,
    hm.slotted.congr rfl rfl, hm.spans, hm.openings⟩

theorem Models.printIf (hm : Models pass L T names h) (last : Bool) (m : Message) :
    Models pass L T names (if last then h.printk m else h) := by
  cases last with
  | true => exact hm.printk m
  | false => exact hm

/-- **`parse_range`** -/
theorem parseRange_models {config : Text} {key : Key} {parent : List Key} {flags : Nat}
    {target : Option Nat} (hm : Models pass L T names h)
    (ht : ∀ t ∈ target, t < T.devices.length)
    (hs : (Call.range config key parent flags target).Safe)
    (hr : Room pass L ((Call.range config key parent flags target).apply T)) :
    Returns (parseRange pass config key.start key.stop parent flags target names h) fun r =>
      Models pass L ((Call.range config key parent flags target).apply T) r.1 r.2 := by
  unfold parseRange
  refine (lastPass_models hm ht).bind fun last _ _ => ?_
  by_cases hk : (parseU64 key.start).1 = key.stop
  · by_cases hv : (parseU64 config).1 = skipKey config
    · rw [if_neg (not_not_intro hk), if_neg (not_not_intro hv)]
      cases target with
      | none => exact .ok hm
      | some t =>
        have hkv : keyOk key ∧ valueOk config := ⟨decide_eq_true hk, decide_eq_true hv⟩
        simp only [Call.apply, if_pos hkv] at hr ⊢
        cases parent with
        | nil => exact absurd rfl (hs rfl hkv.1 hkv.2)
        | cons k up => exact addPathResource_models hm (ht t rfl) hr
    · rw [if_neg (not_not_intro hk), if_pos hv]
      have hno : (Call.range config key parent flags target).apply T = T := by
        cases target with
        | none => rfl
        | some t => exact if_neg fun h => hv (of_decide_eq_true h.2)
      rw [hno]
      exact .ok (hm.printIf last _)
  · rw [if_pos hk]
    have hno : (Call.range config key parent flags target).apply T = T := by
      cases target with
      | none => rfl
      | some t => exact if_neg fun h => hk (of_decide_eq_true h.1)
    rw [hno]
    exact .ok (hm.printIf last _)

/-- **`parse_single`** -/
theorem parseSingle_models {config : Text} {parent : List Key} {flags : Nat} {target : Option Nat}
    (hm : Models pass L T names h) (ht : ∀ t ∈ target, t < T.devices.length)
    (hr : Room pass L ((Call.single config parent flags target).apply T)) :
    Returns (parseSingle pass config parent flags target names h) fun r =>
      Models pass L ((Call.single config parent flags target).apply T) r.1 r.2 := by
  unfold parseSingle
  refine (lastPass_models hm ht).bind fun last _ _ => ?_
  by_cases hv : (parseU64 config).1 = skipKey config
  · rw [if_neg (not_not_intro hv)]
    cases target with
    | none => exact .ok hm
    | some t =>
      have hv : valueOk config = true := decide_eq_true hv
      simp only [Call.apply, if_pos hv] at hr ⊢
      exact addPathResource_models hm (ht t rfl) hr
  · rw [if_pos hv]
    have hno : (Call.single config parent flags target).apply T = T := by
      cases target with
      | none => rfl
      | some t => exact if_neg fun h => hv (of_decide_eq_true h)
    rw [hno]
    exact .ok (hm.printIf last _)

/-- **The device of a root group** is the next one. -/
theorem openDevice_models {group flags : Nat} {parent : List Key} {config : Text}
    (hm : Models pass L T names h)
    (hr : Room pass L ((Call.device T.devices.length group flags parent config).apply T)) :
    Returns (openDevice pass T.devices.length group flags parent config names h) fun r =>
      Models pass L ((Call.device T.devices.length group flags parent config).apply T) r.1 r.2 := by
  have hT := Table.addPath_devices T parent
  let s : DeviceSpec := ⟨group, flags, T.pathName parent, config, config, none, []⟩
  have hlt : T.devices.length < L.count := by
    have h1 := hr.count
    rw [Call.apply, List.length_append] at h1
    exact h1
  unfold openDevice
  refine (hm.addPath hr.size).bind fun r1 _ hr1 => ?_
  obtain ⟨name, n1, h1⟩ := r1
  obtain ⟨hn, hm1⟩ := hr1
  have hn : name = T.pathName parent := hn
  have hlen : T.devices.length < h1.devices.length := by
    rw [hm1.listed.count]
    exact hlt
  have hget := List.getElem?_eq_getElem hlen
  obtain ⟨hb, ho⟩ := hm1.listed.fresh _ _ (by rw [hT]) hget
  have hdev : h1.device T.devices.length = .ok h1.devices[T.devices.length] := by
    unfold Heap.device
    rw [hget]
  refine ⟨_, bind_eq_ok.mpr ⟨_, hdev, rfl⟩, ?_⟩
  -- what is written is the device of the table
  have hs : s.device (L.base T.devices.length) (L.override T.devices.length) =
      { h1.devices[T.devices.length] with
        name := some name, id := -1, numResources := 0,
        configStart := some config, configEnd := some config } := by
    rw [← hb, ← ho, hn]
    rfl
  show Models pass L _ n1 (((h1.setDevice T.devices.length _).log _).log _)
  rw [← hs]
  refine ⟨⟨hm1.filled.names, hm1.filled.memory, fun hp => ?_⟩, ?_, ?_, ?_, ?_⟩
  · have h2 : (Event.device T.devices.length group flags).Within L := trivial
    have h3 : (Event.count T.devices.length 0).Within L := ⟨hlt, Nat.zero_le _⟩
    exact within_log (within_log (hm1.filled.within hp) h2) h3
  · refine ⟨List.length_set.trans hm1.listed.count, fun i s' hs' => ?_, fun i d hi hd => ?_⟩
    · have hs' : (T.devices ++ [s])[i]? = some s' := hs'
      show (h1.devices.set T.devices.length _)[i]? = _
      rcases Nat.lt_trichotomy i T.devices.length with hi | hi | hi
      · rw [List.getElem?_append_left hi] at hs'
        rw [List.getElem?_set_ne (Nat.ne_of_gt hi)]
        exact hm1.listed.opened i s' (hT.symm ▸ hs')
      · subst hi
        rw [List.getElem?_append_right (Nat.le_refl _), Nat.sub_self] at hs'
        cases hs'
        exact List.getElem?_set_self hlen
      · have := (List.getElem?_eq_some_iff.mp hs').1
        rw [List.length_append, List.length_singleton] at this
        omega
    · have hi : T.devices.length + 1 ≤ i := by
        have : (T.devices ++ [s]).length ≤ i := hi
        rwa [List.length_append] at this
      have hd : (h1.devices.set T.devices.length _)[i]? = some d := hd
      rw [List.getElem?_set_ne (by omega)] at hd
      exact hm1.listed.fresh i d (by rw [hT]; omega) hd
  · refine ⟨hm1.slotted.total, fun i s' b hs' hb' k r hr' => ?_⟩
    have hs' : (T.devices ++ [s])[i]? = some s' := hs'
    rcases Nat.lt_or_ge i T.devices.length with hi | hi
    · rw [List.getElem?_append_left hi] at hs'
      exact hm1.slotted.slots i s' b (hT.symm ▸ hs') hb' k r hr'
    · rw [List.getElem?_append_right hi] at hs'
      rw [List.mem_singleton.mp (List.mem_of_getElem? hs')] at hr'
      cases hr'
  · rw [spans_log, spans_log]
    exact (List.append_nil _).trans ((List.append_nil _).trans hm1.spans)
  · have hT' : (Table.addPath T parent).openings = T.openings := by
      rw [Table.openings, Table.openings, hT]
    rw [openings_log, openings_log]
    show (openings h1.events ++ [(T.devices.length, group, flags)]) ++ [] =
      (T.devices ++ [s]).mapIdx fun i s => (i, s.group, s.flags)
    rw [List.append_nil, List.mapIdx_concat, hm1.openings, hT']
    rfl

end Devices

/-! ## Calls -/

section Calls

variable {pass : Nat} {L : Layout}

/-- **One call.** A memory that holds a table, and has room for the table after the call, holds it
after the call. -/
theorem exec_models {T : Table} {names : Nat} {h : Heap} {c : Call} (hm : Models pass L T names h)
    (hf : c.Fits T.devices.length) (hs : c.Safe) (hr : Room pass L (c.apply T)) :
    Returns (c.exec pass names h) fun r => Models pass L (c.apply T) r.1 r.2 := by
  cases c with
  | device dev group flags parent config =>
    obtain rfl : dev = T.devices.length := hf
    exact openDevice_models hm hr
  | interface config target => exact parseInterface_models hm config hf hr
  | range config key parent flags target => exact parseRange_models hm hf hs hr
  | single config parent flags target => exact parseSingle_models hm hf hr
  | configEnd dev stop =>
    exact (setConfigEnd_models hm (hf dev rfl) stop).bind fun h' _ hm' => .ok hm'

/-- **A sequence of calls** builds its table. -/
theorem runCalls_models : ∀ (cs : List Call) {T : Table} {names : Nat} {h : Heap},
    Models pass L T names h → Ordered T.devices.length cs → (∀ c ∈ cs, c.Safe) →
    Room pass L (applyAll cs T) →
    Returns (runCalls pass cs names h) fun r => Models pass L (applyAll cs T) r.1 r.2
  | [], _, _, _, hm, _, _, _ => .ok hm
  | c :: cs, T, _, _, hm, ho, hs, hr => by
    refine (exec_models hm ho.1 (hs c List.mem_cons_self)
      (hr.mono (applyAll_grows cs (c.apply T)))).bind fun r _ hm' => ?_
    refine runCalls_models cs hm' ?_ (fun c h => hs c (List.mem_cons_of_mem _ h)) hr
    rw [apply_devices_length]
    exact ho.2

/-- A call that returns is safe. -/
theorem exec_safe {names : Nat} {h : Heap} {c : Call} {r : Nat × Heap}
    (e : c.exec pass names h = .ok r) : c.Safe := by
  cases c with
  | range config key parent flags target =>
    intro ht hk hv hparent
    subst hparent
    obtain ⟨t, rfl⟩ := Option.isSome_iff_exists.mp ht
    obtain ⟨last, -, e⟩ := bind_eq_ok.mp e
    simp only [of_decide_eq_true hk, of_decide_eq_true hv, ne_eq, not_true_eq_false,
      if_false] at e
    cases e
  | _ => trivial

theorem runCalls_safe : ∀ {cs : List Call} {names : Nat} {h : Heap} {r : Nat × Heap},
    runCalls pass cs names h = .ok r → ∀ c ∈ cs, c.Safe
  | [], _, _, _, _, c, hc => by cases hc
  | c :: cs, names, h, r, e, c', hc => by
    obtain ⟨r1, e1, e2⟩ := bind_eq_ok.mp e
    rcases List.mem_cons.mp hc with rfl | hc
    · exact exec_safe e1
    · exact runCalls_safe e2 c' hc

end Calls

end LowriscLinux.Config
