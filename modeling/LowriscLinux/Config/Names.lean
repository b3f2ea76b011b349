import LowriscLinux.Config.Passes
import LowriscLinux.Config.View

/-!
# The names of devices and resources

A name is the dotted path of the keys on the way to a group. `config_path` (lines 340-350 of
`arch/riscv/drivers/config.c`) reads these keys from the states of the activations that enclose the
group (`config_path_helper`, lines 327-338), and `parse_config_string` returns its state with the
keys of the group it has parsed (line 497): behind a group value the key of an entry is the last key
in that group, and a second group of the same entry gets that key in its path.

* `Naming`: a name that pass 2 writes, with its path: that of a device (line 465), or of a resource
  of a device (lines 398 and 440). A resource whose path spells nothing has the name `"."` (lines
  402 and 444), and so has a device that is the text itself (line 344).
* `Entries.namings` lists the names that the groups of a text get and give, in the order of the
  calls, with the path of each. Of the two keys of a group, that of its entry and the one held when
  the group is entered, `pick` chooses the one that the path takes: `keyNamings` are the names as
  they should be, and `heldNamings` those of the source.
* `NamesArePaths`: the names in memory after pass 2 spell the paths of the entries.
* `SpelledAlike`: both choices spell the same names. `Entries.single` is a sufficient condition that
  is easy to see in a text.

Results:
* `Models.named`: after pass 2 the names spell the paths of the keys held (`heldNamings`).
* **`names_are_paths_iff`**: they are the paths of the entries (`keyNamings`) iff both spell the
  same.
* `spelledAlike_single`: they do where no entry has a group behind a group with entries.
-/

namespace LowriscLinux.Config

open LowriscLinux.Lib

/-! ## Paths -/

/-- The keys of a path, outermost first, joined by dots. -/
def dotted (path : List Key) : List UInt8 := [dot].intercalate (path.reverse.map Key.bytes)

/-- The name of a device with this path. -/
def deviceName (path : List Key) : List UInt8 := if path = [] then [dot] else dotted path

/-- The name of a resource with this path. -/
def resourceName (path : List Key) : List UInt8 := if dotted path = [] then [dot] else dotted path

theorem intercalate_concat (d y : List UInt8) : ∀ {xs : List (List UInt8)}, xs ≠ [] →
    d.intercalate (xs ++ [y]) = d.intercalate xs ++ (d ++ y)
  | [], h => absurd rfl h
  | [x], _ => by simp
  | x :: x' :: xs, _ => by
    have hrest := intercalate_concat d y (List.cons_ne_nil x' xs)
    rw [List.cons_append] at hrest
    rw [List.cons_append, List.cons_append, List.intercalate_cons_cons, hrest,
      List.intercalate_cons_cons]
    simp only [List.append_assoc]

theorem pathBytes_dotted : ∀ (k : Key) (up : List Key),
    pathBytes (k :: up) = dotted (k :: up) ++ [dot]
  | k, [] => by simp [pathBytes, dotted]
  | k, k' :: up => by
    have hne : (k' :: up).reverse.map Key.bytes ≠ [] := by simp
    rw [pathBytes_cons, pathBytes_dotted k' up, dotted, dotted, List.reverse_cons (a := k),
      List.map_append, List.map_singleton, intercalate_concat _ _ hne]
    simp only [List.append_assoc]

theorem pathString_dotted (k : Key) (up : List Key) :
    pathString (k :: up) = dotted (k :: up) ++ [0] := by
  rw [pathString, pathBytes_dotted, List.dropLast_concat]

theorem bytes_ne_zero {k : Key} {b : UInt8} (h : b ∈ k.bytes) : b ≠ 0 := by
  obtain ⟨c, -, rfl⟩ := List.mem_map.mp h
  exact c.property

theorem pathBytes_ne_zero : ∀ {path : List Key} {b : UInt8}, b ∈ pathBytes path → b ≠ 0
  | [], _, h => (List.not_mem_nil h).elim
  | k :: up, b, h => by
    rw [pathBytes_cons, List.mem_append, List.mem_append, List.mem_singleton] at h
    rcases h with h | h | rfl
    · exact pathBytes_ne_zero h
    · exact bytes_ne_zero h
    · decide

theorem dotted_ne_zero {path : List Key} {b : UInt8} (h : b ∈ dotted path) : b ≠ 0 := by
  cases path with
  | nil => exact (List.not_mem_nil h).elim
  | cons k up =>
    have hmem : b ∈ pathBytes (k :: up) := by
      rw [pathBytes_dotted]
      exact List.mem_append_left _ h
    exact pathBytes_ne_zero hmem

/-- A string without a terminator inside is read whole. -/
theorem readString_whole : ∀ {bs : List UInt8}, (∀ b ∈ bs, b ≠ 0) →
    readString ((bs ++ [0]).map some) = some bs
  | [], _ => rfl
  | b :: bs, h => by
    obtain ⟨hb, hbs⟩ := List.forall_mem_cons.mp h
    rw [List.cons_append, List.map_cons, readString, if_neg hb, readString_whole hbs,
      Option.map_some]

/-! ## The names of a text -/

/-- A name that pass 2 writes, with its path, innermost key first: that of the next device, or
that of the next resource of a device. -/
inductive Naming
  | device (path : List Key)
  | resource (dev : Nat) (path : List Key)

/-- A resource of the target, if there is one. -/
def resourceOf (target : Option Nat) (path : List Key) : List Naming :=
  target.toList.map (.resource · path)

mutual

/-- The names of the groups and the resources of these entries. -/
def Entries.namings (pick : Key → Key → Key) : Entries → Ctx → Walk → List Naming
  | .stop _, _, _ => []
  | .entry key vals rest, c, w =>
    vals.namings pick (keyAt key) (flagsAt key) c (w.read key) ++
    rest.namings pick c (vals.after (w.read key))

/-- The names of the groups and the resources of the values of an entry with the key `k`. -/
def Values.namings (pick : Key → Key → Key) : Values → Key → Nat → Ctx → Walk → List Naming
  | .stop _, _, _, _, _ => []
  | .quoted _ rest, k, flags, c, w => rest.namings pick k flags c w
  | .group _ body rest, k, flags, c, w =>
    let c' : Ctx := ⟨pick k w.key :: c.parent, flags, c.target⟩
    (if body.isRoot then [.device c'.parent] else []) ++
    body.namings pick (c'.enter body.isRoot w.devices) (w.enter body.isRoot) ++
    rest.namings pick k flags c (body.after (w.enter body.isRoot))
  | .bare here rest, k, flags, c, w =>
    -- a range belongs to the group that holds its `mem`, `irq` or `bus` key
    (if c.flags ≠ 0 ∧ keyOk w.key ∧ valueOk here then resourceOf c.target c.parent.tail else []) ++
    (if flags ≠ 0 ∧ valueOk here then resourceOf c.target c.parent else []) ++
    rest.namings pick k flags c w

end

/-- The names of a whole text. -/
def namings (pick : Key → Key → Key) (config : Text) : List Naming :=
  (if (scan config).isRoot then [.device []] else []) ++
  (scan config).namings pick (Ctx.enter ⟨[], 0, none⟩ (scan config).isRoot 0)
    (Walk.enter ⟨0, 0, ⟨[], []⟩⟩ (scan config).isRoot)

/-- The names as they should be: the path of a group takes the key of its entry. -/
def keyNamings (config : Text) : List Naming := namings (fun key _ => key) config

/-- The names when the path of a group takes the key read last before its `{`. -/
def heldNamings (config : Text) : List Naming := namings (fun _ held => held) config

/-- The names of the devices, in order. -/
def deviceNames (ns : List Naming) : List (List UInt8) :=
  ns.filterMap fun
    | .device path => some (deviceName path)
    | .resource _ _ => none

/-- The names of the resources of a device, in order. -/
def resourceNames (dev : Nat) (ns : List Naming) : List (List UInt8) :=
  ns.filterMap fun
    | .device _ => none
    | .resource t path => if t = dev then some (resourceName path) else none

/-- The names in memory after pass 2: those of the devices and of the resources of each spell the
paths of their keys. -/
structure NamesArePaths (config : Text) (r : ParserState × Heap) : Prop where
  devices : r.2.devices.map (fun d => d.name.bind r.2.name) =
    (deviceNames (keyNamings config)).map some
  resources : ∀ (dev : Nat) (d : PlatformDevice), r.2.devices[dev]? = some d →
    (r.2.slots d).map (fun slot => slot.bind fun x => r.2.name x.name) =
      (resourceNames dev (keyNamings config)).map some

/-- Every name is spelled alike with the keys held and with the keys of the entries. -/
def SpelledAlike (config : Text) : Prop :=
  deviceNames (heldNamings config) = deviceNames (keyNamings config) ∧
    ∀ dev < (deviceNames (keyNamings config)).length,
      resourceNames dev (heldNamings config) = resourceNames dev (keyNamings config)

instance (config : Text) : Decidable (SpelledAlike config) := inferInstanceAs (Decidable (_ ∧ _))

/-! ## The calls give the names of the keys held -/

/-- The name that a call writes. -/
def Call.namings : Call → List Naming
  | .device _ _ _ parent _ => [.device parent]
  | .range config key parent _ target =>
    if keyOk key ∧ valueOk config then resourceOf target parent.tail else []
  | .single config parent _ target => if valueOk config then resourceOf target parent else []
  | _ => []

theorem namings_endCalls (root : Bool) (target : Option Nat) (stop : Text) :
    (endCalls root target stop).flatMap Call.namings = [] := by
  cases target with
  | none => rfl
  | some dev => cases root <;> rfl

theorem namings_ite {p : Prop} [Decidable p] {c : Call} :
    (if p then [c] else []).flatMap Call.namings = if p then c.namings else [] := by
  split
  · exact List.flatMap_singleton ..
  · rfl

mutual

theorem Entries.calls_namings : ∀ (g : Entries) (root : Bool) (c : Ctx) (w : Walk),
    (g.calls root c w).flatMap Call.namings = g.namings (fun _ held => held) c w
  | .stop _, _, _, _ => rfl
  | .entry key vals rest, root, c, w => by
    rw [Entries.calls, List.flatMap_append, List.flatMap_append, namings_endCalls, List.append_nil,
      Values.calls_namings vals _ (keyAt key), Entries.calls_namings rest, Entries.namings]

theorem Values.calls_namings : ∀ (v : Values) (iface : Bool) (k : Key) (flags : Nat) (c : Ctx)
    (w : Walk), (v.calls iface flags c w).flatMap Call.namings =
      v.namings (fun _ held => held) k flags c w
  | .stop _, _, _, _, _, _ => rfl
  | .quoted here rest, iface, k, flags, c, w => by
    rw [Values.calls, List.flatMap_append, namings_ite, Values.calls_namings rest _ k,
      Values.namings]
    cases iface <;> rfl
  | .group here body rest, iface, k, flags, c, w => by
    rw [Values.calls, List.flatMap_append, List.flatMap_append, namings_ite,
      Entries.calls_namings body, Values.calls_namings rest _ k, Values.namings]
    rfl
  | .bare here rest, iface, k, flags, c, w => by
    have hiface : (if iface = true then (Call.interface here c.target).namings else []) = [] := by
      cases iface <;> rfl
    rw [Values.calls, List.flatMap_append, List.flatMap_append, List.flatMap_append, namings_ite,
      namings_ite, namings_ite, hiface, List.nil_append, Values.calls_namings rest _ k,
      Values.namings, Call.namings, Call.namings]
    simp only [ite_and]

end

theorem calls_namings (config : Text) : (calls config).flatMap Call.namings = heldNamings config := by
  rw [calls, groupCalls, List.flatMap_append, namings_ite, Entries.calls_namings]
  rfl

/-! ## The table spells the names of its calls -/

/-- The names of a table spell the paths of these names. -/
structure Named (T : Table) (ns : List Naming) : Prop where
  devices : T.devices.map (fun s => T.nameString s.name) = (deviceNames ns).map some
  resources : ∀ (dev : Nat) (s : DeviceSpec), T.devices[dev]? = some s →
    s.resources.map (fun r => T.nameString r.name) = (resourceNames dev ns).map some
  fresh : ∀ dev, T.devices.length ≤ dev → resourceNames dev ns = []

theorem deviceNames_append (ns ms : List Naming) :
    deviceNames (ns ++ ms) = deviceNames ns ++ deviceNames ms := List.filterMap_append

theorem resourceNames_append (dev : Nat) (ns ms : List Naming) :
    resourceNames dev (ns ++ ms) = resourceNames dev ns ++ resourceNames dev ms :=
  List.filterMap_append

theorem deviceNames_resourceOf (target : Option Nat) (path : List Key) :
    deviceNames (resourceOf target path) = [] := by
  cases target <;> rfl

theorem resourceNames_resourceOf (dev t : Nat) (path : List Key) :
    resourceNames dev (resourceOf (some t) path) = if t = dev then [resourceName path] else [] := by
  by_cases h : t = dev
  · simp [resourceNames, resourceOf, h]
  · simp [resourceNames, resourceOf, h]

section Table

variable {T T' : Table} {ns : List Naming}

theorem nameString_congr (h : T'.strings = T.strings) : T'.nameString = T.nameString := by
  funext n
  cases n with
  | dot => rfl
  | names off => rw [Table.nameString, Table.nameString, Table.string, Table.string, Table.image,
      Table.image, h]

/-- A name that is laid out stays as it is. -/
theorem nameString_grows (he : T.Ended) (hT : T.strings <+: T'.strings) {n : Name}
    (hn : n.Points T.strings) : T'.nameString n = T.nameString n := by
  cases n with
  | dot => rfl
  | names off =>
    obtain ⟨as, cells, bs, hs, rfl⟩ := hn
    obtain ⟨more, hmore⟩ := hT
    have hends : Ends cells := he cells (by
      rw [hs]
      exact List.mem_append_right _ List.mem_cons_self)
    have hs' : T'.strings = as ++ cells :: (bs ++ more) := by
      rw [← hmore, hs, List.append_assoc, List.cons_append]
    exact (string_eq hs' hends).trans (string_eq hs hends).symm

theorem layOut_dotted (T : Table) (k : Key) (up : List Key) :
    (T.addPath (k :: up)).string T.size = some (dotted (k :: up)) := by
  have hs : (T.addPath (k :: up)).strings =
      T.strings ++ ((dotted (k :: up) ++ [0]).map some) :: [] := by
    rw [← pathString_dotted]
    rfl
  rw [Table.size, Table.image, string_eq hs (terminated_ends _)]
  exact readString_whole fun b hb => dotted_ne_zero hb

/-- The name `config_path` returns. -/
theorem pathName_string (T : Table) (parent : List Key) :
    (T.addPath parent).nameString (T.pathName parent) = some (deviceName parent) := by
  cases parent with
  | nil => rfl
  | cons k up => exact layOut_dotted T k up

/-- The name that a resource gets. -/
theorem resourceName_string (T : Table) (parent : List Key) :
    (T.addPath parent).nameString (T.resourceName parent) = some (resourceName parent) := by
  cases parent with
  | nil => rfl
  | cons k up =>
    rw [Table.resourceName, resourceName, pathString_dotted]
    cases hd : dotted (k :: up) with
    | nil => rfl
    | cons b bs =>
      have hmem : b ∈ dotted (k :: up) := by
        rw [hd]
        exact List.mem_cons_self
      have hb : b ≠ 0 := dotted_ne_zero hmem
      have hhead : ¬ (b :: bs ++ [0]).head? = some 0 := fun h => hb (Option.some.inj h)
      rw [if_neg hhead, if_neg (List.cons_ne_nil b bs), ← hd]
      exact layOut_dotted T k up

/-- Changing what is no name of one device leaves the names alone. -/
theorem Table.map_name_modify (T : Table) {f : DeviceSpec → DeviceSpec}
    (hf : ∀ s : DeviceSpec, (f s).name = s.name) (t : Nat) :
    (T.devices.modify t f).map (fun s => T.nameString s.name) =
      T.devices.map fun s => T.nameString s.name := by
  have hsame : (T.devices.modify t f).map (fun s => T.nameString s.name) =
      (T.devices.map fun s => T.nameString s.name).modify t id := by
    refine map_modify (fun s => ?_) T.devices t
    rw [hf s]
    rfl
  exact hsame.trans (List.modify_id t _)

namespace Named

/-- Strings that are added rename nothing. -/
theorem grows (h : Named T ns) (he : T.Ended) (hp : T.Pointed) (hd : T'.devices = T.devices)
    (hT : T.strings <+: T'.strings) : Named T' ns where
  devices := by
    rw [hd, ← h.devices]
    exact List.map_congr_left fun s hs => nameString_grows he hT (hp s hs).name
  resources := by
    intro dev s hs
    rw [hd] at hs
    rw [← h.resources dev s hs]
    exact List.map_congr_left fun r hr =>
      nameString_grows he hT ((hp s (List.mem_of_getElem? hs)).resources r hr)
  fresh := by
    rw [hd]
    exact h.fresh

/-- What is neither a name nor a resource may change. -/
theorem update (h : Named T ns) {f : DeviceSpec → DeviceSpec}
    (hf : ∀ s : DeviceSpec, (f s).name = s.name ∧ (f s).resources = s.resources)
    (target : Option Nat) : Named (T.update target f) ns := by
  cases target with
  | none => exact h
  | some t =>
    have hstr : (T.update (some t) f).nameString = T.nameString := nameString_congr rfl
    refine ⟨?_, fun dev s' hs' => ?_, ?_⟩
    · rw [hstr, ← h.devices]
      exact T.map_name_modify (fun s => (hf s).1) t
    · obtain ⟨s, hs, rfl⟩ := getElem?_update hs'
      rw [hstr, ← h.resources dev s hs]
      split_ifs
      · rw [(hf s).2]
      · rfl
    · rw [Table.update_devices_length]
      exact h.fresh

/-- A resource is added to a device. -/
theorem resource (h : Named T ns) {t : Nat} (ht : t < T.devices.length) {r : Resource}
    {path : List Key} (hr : T.nameString r.name = some (resourceName path)) :
    Named (T.update (some t) (.withResource r)) (ns ++ resourceOf (some t) path) := by
  have hstr : (T.update (some t) (.withResource r)).nameString = T.nameString :=
    nameString_congr rfl
  refine ⟨?_, fun dev s' hs' => ?_, fun dev hdev => ?_⟩
  · rw [hstr, deviceNames_append, deviceNames_resourceOf, List.append_nil, ← h.devices]
    exact T.map_name_modify (f := .withResource r) (fun _ => rfl) t
  · obtain ⟨s, hs, rfl⟩ := getElem?_update hs'
    rw [hstr, resourceNames_append, resourceNames_resourceOf, List.map_append,
      ← h.resources dev s hs]
    split_ifs
    · rw [DeviceSpec.withResource, List.map_append, List.map_singleton, List.map_singleton, hr]
    · rw [List.map_nil, List.append_nil]
  · rw [Table.update_devices_length] at hdev
    rw [resourceNames_append, resourceNames_resourceOf, h.fresh dev hdev, if_neg (by omega)]
    rfl

/-- A device is opened. -/
theorem device (h : Named T ns) {s : DeviceSpec} (hs : s.resources = []) {path : List Key}
    (hname : T.nameString s.name = some (deviceName path)) :
    Named { T with devices := T.devices ++ [s] } (ns ++ [.device path]) := by
  have hstr : Table.nameString { T with devices := T.devices ++ [s] } = T.nameString :=
    nameString_congr rfl
  have hnone : ∀ dev, resourceNames dev [.device path] = [] := fun _ => rfl
  refine ⟨?_, fun dev s' hs' => ?_, fun dev hdev => ?_⟩
  · rw [hstr, deviceNames_append, List.map_append, List.map_append, h.devices, List.map_singleton,
      hname]
    rfl
  · rw [hstr, resourceNames_append, hnone, List.append_nil]
    have hs' : (T.devices ++ [s])[dev]? = some s' := hs'
    rcases Nat.lt_or_ge dev T.devices.length with hlt | hge
    · rw [List.getElem?_append_left hlt] at hs'
      exact h.resources dev s' hs'
    · rw [List.getElem?_append_right hge] at hs'
      obtain rfl := List.mem_singleton.mp (List.mem_of_getElem? hs')
      rw [h.fresh dev hge, hs]
      rfl
  · have hdev : (T.devices ++ [s]).length ≤ dev := hdev
    rw [List.length_append, List.length_singleton] at hdev
    rw [resourceNames_append, hnone, List.append_nil]
    exact h.fresh dev (by omega)

end Named

/-- An accepted resource is named by its path. -/
theorem addResource_named (h : Named T ns) (he : T.Ended) (hp : T.Pointed) {t : Nat}
    (ht : t < T.devices.length) (parent : List Key) (flags : Nat) (start stop : BitVec 64) :
    Named (T.addResource t parent flags start stop) (ns ++ resourceOf (some t) parent) := by
  have hdev := Table.addPath_devices T parent
  exact (h.grows he hp hdev (addPath_grows T parent).strings).resource (by rw [hdev]; exact ht)
    (resourceName_string T parent)

/-- **A call adds its names.** -/
theorem apply_names {c : Call} (h : Named T ns) (he : T.Ended) (hp : T.Pointed)
    (hf : c.Fits T.devices.length) : Named (c.apply T) (ns ++ c.namings) := by
  cases c with
  | device dev group flags parent config =>
    have hdev := Table.addPath_devices T parent
    have h1 := (h.grows he hp hdev (addPath_grows T parent).strings).device
      (s := ⟨group, flags, T.pathName parent, config, config, none, []⟩) rfl
      (pathName_string T parent)
    rw [hdev] at h1
    exact h1
  | interface config target =>
    have hcells : Named (T.layOut (overrideCells (decodeString config))) ns :=
      h.grows he hp rfl (layOut_grows T _).strings
    have hnone : (Call.interface config target).namings = [] := rfl
    rw [hnone, List.append_nil]
    exact hcells.update (f := .withOverride T.size) (fun _ => ⟨rfl, rfl⟩) target
  | range config key parent flags target =>
    cases target with
    | none =>
      have hnone : (Call.range config key parent flags none).namings = [] := ite_self []
      rw [hnone, List.append_nil]
      exact h
    | some t =>
      simp only [Call.apply, Call.namings]
      split_ifs
      · exact addResource_named h he hp (hf t rfl) _ _ _ _
      · rw [List.append_nil]
        exact h
  | single config parent flags target =>
    cases target with
    | none =>
      have hnone : (Call.single config parent flags none).namings = [] := ite_self []
      rw [hnone, List.append_nil]
      exact h
    | some t =>
      simp only [Call.apply, Call.namings]
      split_ifs
      · exact addResource_named h he hp (hf t rfl) _ _ _ _
      · rw [List.append_nil]
        exact h
  | configEnd dev stop =>
    have hnone : (Call.configEnd dev stop).namings = [] := rfl
    rw [hnone, List.append_nil]
    exact h.update (f := .withStop stop) (fun _ => ⟨rfl, rfl⟩) (some dev)

theorem applyAll_names : ∀ (cs : List Call) {T : Table} {ns : List Naming}, Named T ns → T.Ended →
    T.Pointed → Ordered T.devices.length cs → Named (applyAll cs T) (ns ++ cs.flatMap Call.namings)
  | [], _, _, h, _, _, _ => by
    rw [List.flatMap_nil, List.append_nil]
    exact h
  | c :: cs, T, ns, h, he, hp, ho => by
    have hrest : Ordered (c.apply T).devices.length cs := by
      rw [apply_devices_length]
      exact ho.2
    rw [List.flatMap_cons, ← List.append_assoc]
    exact applyAll_names cs (apply_names h he hp ho.1) (apply_ended c he) (apply_pointed hp c) hrest

end Table

/-- **The table of a text spells the names of the keys held.** -/
theorem table_named (config : Text) : Named (table config) (heldNamings config) := by
  have hempty : Named {} [] := ⟨rfl, fun _ _ h => (Option.some_ne_none _ h.symm).elim, fun _ _ => rfl⟩
  have h := applyAll_names (calls config) hempty (fun _ h => (List.not_mem_nil h).elim)
    (fun _ h => (List.not_mem_nil h).elim) (calls_opens config).ordered
  rw [List.nil_append, calls_namings] at h
  exact h

/-- **After pass 2 the names spell the paths of the keys held.** -/
theorem Models.named {config : Text} {names : Nat} {h : Heap}
    (hm : Models 2 (writeLayout (table config)) (table config) names h) :
    h.devices.map (fun d => d.name.bind h.name) = (deviceNames (heldNamings config)).map some ∧
    ∀ (dev : Nat) (d : PlatformDevice), h.devices[dev]? = some d →
      (h.slots d).map (fun slot => slot.bind fun x => h.name x.name) =
        (resourceNames dev (heldNamings config)).map some := by
  have hn := table_named config
  constructor
  · rw [← hn.devices]
    refine List.ext_getElem? fun i => ?_
    rw [List.getElem?_map, List.getElem?_map]
    cases hs : (table config).devices[i]? with
    | none =>
      rw [hm.listed.devices rfl, hs]
      rfl
    | some s =>
      obtain ⟨d, hd, -, -, hname, -⟩ := hm.view hs
      rw [hd, Option.map_some, Option.map_some]
      obtain ⟨n, hdn, hstr⟩ := Option.map_eq_some_iff.mp hname
      rw [hdn, ← hstr]
      rfl
  · intro dev d hd
    obtain ⟨s, hs⟩ : ∃ s, (table config).devices[dev]? = some s := by
      rw [hm.listed.devices rfl] at hd
      obtain ⟨s, hs, -⟩ := Option.map_eq_some_iff.mp hd
      exact ⟨s, hs⟩
    obtain ⟨d', hd', hview, -⟩ := hm.view hs
    cases hd.symm.trans hd'
    have hres := congrArg (List.map fun o => o.bind ResourceView.name)
      (congrArg DeviceView.resources hview)
    rw [← hn.resources dev s hs]
    refine Eq.trans ?_ (hres.trans ?_)
    · show _ = ((h.slots d).map (Option.map h.resource)).map _
      rw [List.map_map]
      refine List.map_congr_left fun slot _ => ?_
      cases slot <;> rfl
    · show (s.resources.map _).map _ = _
      rw [List.map_map]
      rfl

/-- **The names are the paths of the entries iff these are spelled like the keys held.** -/
theorem names_are_paths_iff {config : Text} {r : ParserState × Heap}
    (e : configFindDevices config = .ok r) : NamesArePaths config r ↔ SpelledAlike config := by
  obtain ⟨hdev, hres⟩ := (configFindDevices_models e).1.named
  have hlen := congrArg List.length hdev
  rw [List.length_map, List.length_map] at hlen
  constructor
  · rintro ⟨hdev', hres'⟩
    have heq := List.map_injective_iff.mpr (Option.some_injective _) (hdev.symm.trans hdev')
    refine ⟨heq, fun dev hlt => ?_⟩
    rw [← heq, ← hlen] at hlt
    have hd := List.getElem?_eq_getElem hlt
    exact List.map_injective_iff.mpr (Option.some_injective _)
      ((hres dev _ hd).symm.trans (hres' dev _ hd))
  · rintro ⟨heq, hall⟩
    refine ⟨by rw [hdev, heq], fun dev d hd => ?_⟩
    have hlt := (List.getElem?_eq_some_iff.mp hd).1
    rw [hlen, heq] at hlt
    rw [hres dev d hd, hall dev hlt]

/-- The UART has its path for a name. -/
theorem names_uart : ∃ r, configFindDevices uartConfig = .ok r ∧ NamesArePaths uartConfig r := by
  obtain ⟨r, e⟩ := exists_ok (x := configFindDevices uartConfig) (by decide +kernel)
  exact ⟨r, e, (names_are_paths_iff e).mpr (by decide +kernel)⟩

/-- Entry `a` has two groups, the second one a device. -/
def twoGroups : Text := cstring [97, 123, 120, 32, 49, 59, 125, 123, 105, 110, 116, 101, 114, 102,
  97, 99, 101, 32, 121, 59, 125]

/-- The device of `a` is named `x`. -/
theorem names_twoGroups : ∃ r, configFindDevices twoGroups = .ok r ∧ ¬ NamesArePaths twoGroups r ∧
    r.2.devices.map (fun d => d.name.bind r.2.name) = [some [120]] ∧
    deviceNames (keyNamings twoGroups) = [[97]] := by
  obtain ⟨r, e⟩ := exists_ok (x := configFindDevices twoGroups) (by decide +kernel)
  have hdev := (configFindDevices_models e).1.named.1
  have hheld : deviceNames (heldNamings twoGroups) = [[120]] := by decide +kernel
  have hkey : deviceNames (keyNamings twoGroups) = [[97]] := by decide +kernel
  rw [hheld] at hdev
  refine ⟨r, e, fun h => ?_, hdev, hkey⟩
  have hpath := h.devices
  rw [hkey, hdev] at hpath
  exact absurd hpath (by decide)

/-! ## Texts whose names are paths -/

def Entries.isStop : Entries → Bool
  | .stop _ => true
  | .entry _ _ _ => false

def Values.hasGroup : Values → Bool
  | .stop _ => false
  | .quoted _ rest => rest.hasGroup
  | .group _ _ _ => true
  | .bare _ rest => rest.hasGroup

mutual

/-- No entry has a group behind a group with entries. -/
def Entries.single : Entries → Bool
  | .stop _ => true
  | .entry _ vals rest => vals.single && rest.single

def Values.single : Values → Bool
  | .stop _ => true
  | .quoted _ rest => rest.single
  | .group _ body rest => body.single && (body.isStop || !rest.hasGroup) && rest.single
  | .bare _ rest => rest.single

end

/-- Without a group there is no key to choose. -/
theorem Values.namings_noGroup (pick pick' : Key → Key → Key) : ∀ (v : Values) (k : Key)
    (flags : Nat) (c : Ctx) (w : Walk), v.hasGroup = false →
    v.namings pick k flags c w = v.namings pick' k flags c w
  | .stop _, _, _, _, _, _ => rfl
  | .quoted _ rest, k, flags, c, w, h => Values.namings_noGroup pick pick' rest k flags c w h
  | .group _ _ _, _, _, _, _, h => Bool.noConfusion h
  | .bare _ rest, k, flags, c, w, h => by
    rw [Values.namings, Values.namings, Values.namings_noGroup pick pick' rest k flags c w h]

mutual

/-- **Where no entry has a second group, the key held at a group is that of its entry.** -/
theorem Entries.namings_single : ∀ (g : Entries) (c : Ctx) (w : Walk), g.single = true →
    g.namings (fun _ held => held) c w = g.namings (fun key _ => key) c w
  | .stop _, _, _, _ => rfl
  | .entry key vals rest, c, w, h => by
    obtain ⟨hvals, hrest⟩ := Bool.and_eq_true_iff.mp h
    rw [Entries.namings, Entries.namings, Entries.namings_single rest c _ hrest,
      Values.namings_single vals (keyAt key) (flagsAt key) c (w.read key) rfl hvals]

theorem Values.namings_single : ∀ (v : Values) (k : Key) (flags : Nat) (c : Ctx) (w : Walk),
    w.key = k → v.single = true →
    v.namings (fun _ held => held) k flags c w = v.namings (fun key _ => key) k flags c w
  | .stop _, _, _, _, _, _, _ => rfl
  | .quoted _ rest, k, flags, c, w, hk, h => Values.namings_single rest k flags c w hk h
  | .group here body rest, k, flags, c, w, hk, h => by
    obtain ⟨h, hrest⟩ := Bool.and_eq_true_iff.mp h
    obtain ⟨hbody, hnext⟩ := Bool.and_eq_true_iff.mp h
    have hbehind : rest.namings (fun _ held => held) k flags c (body.after (w.enter body.isRoot)) =
        rest.namings (fun key _ => key) k flags c (body.after (w.enter body.isRoot)) := by
      cases body with
      | stop here => exact Values.namings_single rest k flags c _ hk hrest
      | entry key vals more =>
        have hno : rest.hasGroup = false := by simpa [Entries.isStop] using hnext
        exact Values.namings_noGroup _ _ rest k flags c _ hno
    rw [Values.namings, Values.namings, hk, hbehind, Entries.namings_single body _ _ hbody]
  | .bare _ rest, k, flags, c, w, hk, h => by
    rw [Values.namings, Values.namings, Values.namings_single rest k flags c w hk h]

end

theorem spelledAlike_single {config : Text} (h : (scan config).single = true) :
    SpelledAlike config := by
  have heq : heldNamings config = keyNamings config := by
    rw [heldNamings, keyNamings, namings, namings, Entries.namings_single _ _ _ h]
  exact ⟨congrArg deviceNames heq, fun dev _ => congrArg (resourceNames dev) heq⟩

end LowriscLinux.Config
