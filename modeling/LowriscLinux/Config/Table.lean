import LowriscLinux.Config.Walk
import Mathlib.Data.List.Basic

/-!
# What a config string describes

The abstract model of the passes: a `Table` is the list of the strings laid out so far and the list
of the devices opened so far, and a helper call of the walk adds to it (`Call.apply`). It knows
neither passes nor blocks of memory, and no call fails: pass 1 measures a table and pass 2 writes it
down (`Config/Simulate.lean`).

What a call of `parse_config_string` (`arch/riscv/drivers/config.c`, lines 453-519) stands for here:

* the opening of a device (lines 463-470) lays out the path of its name and adds a device;
* a value of an `interface` key (lines 492 and 501) lays out the decoded string, whose bytes behind
  the first 65536 are cells that are never stored (`overrideCells`, line 354), and points the target
  to it (line 355), so that the last value wins;
* `parse_range` and `parse_single` (lines 503 and 505) lay out the path of the resource when their
  tokens are integers (`keyOk`, `valueOk`: lines 380 and 388, or 430) and there is a target, and add
  the resource (`Table.addResource`);
* the end of an entry (lines 512-514) moves the end of the slice.

A path is laid out with a dot behind each key, and its last dot is turned into the terminator (lines
335 and 348). A path without keys takes no bytes, and its name is the literal `"."`.

A call is `Ordered` after `m` opened devices when a new device gets number `m` and every other
target is a device opened before. `Call.Safe` says that a range has a parent.

Results:
* `Entries.calls_opens`: the calls of the walk open a device where a group begins and add to the
  one that is open.
* `apply_grows`, `applyAll_grows`: a call only adds to a table.
* `Entries.groupCalls_opens`: the devices opened are the marked groups, in order.
-/

namespace LowriscLinux.Config

/-! ## Tables -/

structure DeviceSpec where
  group     : Nat
  flags     : Nat
  name      : Name
  start     : Text
  stop      : Text
  override  : Option Nat := none
  resources : List Resource := []

def DeviceSpec.withOverride (off : Nat) (s : DeviceSpec) : DeviceSpec := { s with override := some off }

def DeviceSpec.withResource (r : Resource) (s : DeviceSpec) : DeviceSpec :=
  { s with resources := s.resources ++ [r] }

def DeviceSpec.withStop (stop : Text) (s : DeviceSpec) : DeviceSpec := { s with stop := stop }

structure Table where
  /-- The strings, one after the other; a byte that is never stored is `none`. -/
  strings : List (List (Option UInt8)) := []
  devices : List DeviceSpec := []

def Table.image (T : Table) : List (Option UInt8) := T.strings.flatten

def Table.size (T : Table) : Nat := T.image.length

def Table.layOut (T : Table) (cells : List (Option UInt8)) : Table :=
  { T with strings := T.strings ++ [cells] }

def Table.update (T : Table) (target : Option Nat) (f : DeviceSpec → DeviceSpec) : Table :=
  match target with
  | none => T
  | some t => { T with devices := T.devices.modify t f }

/-! ## Strings -/

/-- The keys of a path, outermost first, each with a dot after it. -/
def pathBytes : List Key → List UInt8
  | [] => []
  | k :: up => pathBytes up ++ (k.bytes ++ [dot])

/-- A path with its last dot turned into the terminator. -/
def pathString (parent : List Key) : List UInt8 := (pathBytes parent).dropLast ++ [0]

/-- The name `config_path` returns. -/
def Table.pathName (T : Table) : List Key → Name
  | [] => .dot
  | _ :: _ => .names T.size

/-- The strings `config_path` lays out. -/
def Table.addPath (T : Table) : List Key → Table
  | [] => T
  | k :: up => T.layOut ((pathString (k :: up)).map some)

/-- `*name ? name : "."`. -/
def Table.resourceName (T : Table) : List Key → Name
  | [] => .dot
  | k :: up => if (pathString (k :: up)).head? = some 0 then .dot else .names T.size

/-- The bytes of a `driver_override` string: `parse_string` stores no more than 65536. -/
def overrideCells (value : List UInt8) : List (Option UInt8) :=
  ((value ++ [0]).take 65536).map some ++ List.replicate (value.length + 1 - 65536) none

theorem overrideCells_length (value : List UInt8) :
    (overrideCells value).length = value.length + 1 := by
  unfold overrideCells
  rw [List.length_append, List.length_map, List.length_take, List.length_append,
    List.length_replicate, List.length_singleton]
  omega

/-! ## Calls -/

/-- `parse_single` accepts the value. -/
def valueOk (config : Text) : Bool := (parseU64 config).1 = skipKey config

/-- `parse_range` accepts the key. -/
def keyOk (key : Key) : Bool := (parseU64 key.start).1 = key.stop

def Table.addResource (T : Table) (t : Nat) (parent : List Key) (flags : Nat)
    (start stop : BitVec 64) : Table :=
  (T.addPath parent).update (some t) (.withResource ⟨T.resourceName parent, flags, start, stop⟩)

/-- What a call adds to a table. -/
def Call.apply : Call → Table → Table
  | .device _ group flags parent config, T =>
    { T.addPath parent with
      devices := T.devices ++ [⟨group, flags, T.pathName parent, config, config, none, []⟩] }
  | .interface config target, T =>
    (T.layOut (overrideCells (decodeString config))).update target (.withOverride T.size)
  | .range config key parent flags target, T =>
    match target with
    | none => T
    | some t =>
      if keyOk key ∧ valueOk config then
        T.addResource t parent.tail flags (parseU64 key.start).2 (parseU64 config).2
      else T
  | .single config parent flags target, T =>
    match target with
    | none => T
    | some t =>
      if valueOk config then
        T.addResource t parent flags (parseU64 config).2 (parseU64 config).2
      else T
  | .configEnd dev stop, T => T.update (some dev) (.withStop stop)

def applyAll (cs : List Call) (T : Table) : Table := cs.foldl (fun T c => c.apply T) T

theorem applyAll_cons (c : Call) (cs : List Call) (T : Table) :
    applyAll (c :: cs) T = applyAll cs (c.apply T) := rfl

theorem applyAll_append (as bs : List Call) (T : Table) :
    applyAll (as ++ bs) T = applyAll bs (applyAll as T) := List.foldl_append

/-- The call does not follow a NULL parent: `parse_range` reads `parent->parent` of an accepted
resource. -/
def Call.Safe : Call → Prop
  | .range config key parent _ target =>
    target.isSome → keyOk key → valueOk config → parent ≠ []
  | _ => True

/-! ## Sizes -/

@[simp] theorem Table.layOut_image (T : Table) (cells : List (Option UInt8)) :
    (T.layOut cells).image = T.image ++ cells := by
  simp [Table.layOut, Table.image]

@[simp] theorem Table.update_strings (T : Table) (target : Option Nat)
    (f : DeviceSpec → DeviceSpec) : (T.update target f).strings = T.strings := by
  cases target <;> rfl

@[simp] theorem Table.update_image (T : Table) (target : Option Nat)
    (f : DeviceSpec → DeviceSpec) : (T.update target f).image = T.image := by
  rw [Table.image, Table.update_strings, Table.image]

@[simp] theorem Table.update_devices_length (T : Table) (target : Option Nat)
    (f : DeviceSpec → DeviceSpec) : (T.update target f).devices.length = T.devices.length := by
  cases target with
  | none => rfl
  | some t => exact List.length_modify _ _ _

@[simp] theorem Table.addPath_devices (T : Table) (parent : List Key) :
    (T.addPath parent).devices = T.devices := by
  cases parent <;> rfl

/-! ## A table only grows -/

/-- What a device keeps while the table grows. -/
structure DeviceSpec.Grows (s s' : DeviceSpec) : Prop where
  group : s'.group = s.group
  flags : s'.flags = s.flags
  name : s'.name = s.name
  start : s'.start = s.start
  override : s.override.isSome → s'.override.isSome
  resources : s.resources <+: s'.resources

structure Table.Grows (T T' : Table) : Prop where
  strings : T.strings <+: T'.strings
  devices : ∀ (i : Nat) (s : DeviceSpec), T.devices[i]? = some s →
    ∃ s', T'.devices[i]? = some s' ∧ s.Grows s'

theorem DeviceSpec.Grows.refl (s : DeviceSpec) : s.Grows s :=
  ⟨rfl, rfl, rfl, rfl, id, List.prefix_refl _⟩

theorem DeviceSpec.Grows.trans {s s' s'' : DeviceSpec} (h : s.Grows s') (h' : s'.Grows s'') :
    s.Grows s'' :=
  ⟨h'.group.trans h.group, h'.flags.trans h.flags, h'.name.trans h.name, h'.start.trans h.start,
    fun hs => h'.override (h.override hs), h.resources.trans h'.resources⟩

theorem Table.Grows.refl (T : Table) : T.Grows T :=
  ⟨List.prefix_refl _, fun _ s h => ⟨s, h, .refl s⟩⟩

theorem Table.Grows.trans {T T' T'' : Table} (h : T.Grows T') (h' : T'.Grows T'') :
    T.Grows T'' := by
  refine ⟨h.strings.trans h'.strings, fun i s hs => ?_⟩
  obtain ⟨s', hs', g⟩ := h.devices i s hs
  obtain ⟨s'', hs'', g'⟩ := h'.devices i s' hs'
  exact ⟨s'', hs'', g.trans g'⟩

theorem layOut_grows (T : Table) (cells : List (Option UInt8)) : T.Grows (T.layOut cells) :=
  ⟨List.prefix_append _ _, fun _ s h => ⟨s, h, .refl s⟩⟩

theorem addPath_grows (T : Table) (parent : List Key) : T.Grows (T.addPath parent) := by
  cases parent with
  | nil => exact .refl T
  | cons k up => exact layOut_grows T _

theorem update_grows (T : Table) (target : Option Nat) {f : DeviceSpec → DeviceSpec}
    (hf : ∀ s : DeviceSpec, s.Grows (f s)) : T.Grows (T.update target f) := by
  cases target with
  | none => exact .refl T
  | some t =>
    refine ⟨List.prefix_refl _, fun i s hs => ?_⟩
    show ∃ s' : DeviceSpec, (T.devices.modify t f)[i]? = some s' ∧ s.Grows s'
    rw [List.getElem?_modify, hs]
    by_cases ht : t = i
    · exact ⟨f s, by simp [ht], hf s⟩
    · exact ⟨s, by simp [ht], .refl s⟩

theorem addResource_grows (T : Table) (t : Nat) (parent : List Key) (flags : Nat)
    (start stop : BitVec 64) : T.Grows (T.addResource t parent flags start stop) :=
  (addPath_grows T parent).trans (update_grows _ _ fun _ =>
    ⟨rfl, rfl, rfl, rfl, id, List.prefix_append _ _⟩)

/-- A call only adds to a table. -/
theorem apply_grows (c : Call) (T : Table) : T.Grows (c.apply T) := by
  cases c with
  | device dev group flags parent config =>
    refine (addPath_grows T parent).trans ⟨List.prefix_refl _, fun i s hs => ⟨s, ?_, .refl s⟩⟩
    rw [Table.addPath_devices] at hs
    show (T.devices ++ [_])[i]? = some s
    rw [List.getElem?_append_left (List.getElem?_eq_some_iff.mp hs).1]
    exact hs
  | interface config target =>
    exact (layOut_grows T _).trans (update_grows _ _ fun _ =>
      ⟨rfl, rfl, rfl, rfl, fun _ => rfl, List.prefix_refl _⟩)
  | range config key parent flags target =>
    cases target with
    | none => exact .refl T
    | some t =>
      simp only [Call.apply]
      split_ifs
      · exact addResource_grows T t _ _ _ _
      · exact .refl T
  | single config parent flags target =>
    cases target with
    | none => exact .refl T
    | some t =>
      simp only [Call.apply]
      split_ifs
      · exact addResource_grows T t _ _ _ _
      · exact .refl T
  | configEnd dev stop =>
    exact update_grows T (some dev) (f := .withStop stop) fun _ =>
      ⟨rfl, rfl, rfl, rfl, id, List.prefix_refl _⟩

theorem applyAll_grows : ∀ (cs : List Call) (T : Table), T.Grows (applyAll cs T)
  | [], T => .refl T
  | c :: cs, T => (apply_grows c T).trans (applyAll_grows cs (c.apply T))

theorem Table.Grows.size_le {T T' : Table} (h : T.Grows T') : T.size ≤ T'.size := by
  obtain ⟨t, ht⟩ := h.strings
  unfold Table.size Table.image
  rw [← ht, List.flatten_append, List.length_append]
  exact Nat.le_add_right _ _

theorem Table.Grows.length_le {T T' : Table} (h : T.Grows T') :
    T.devices.length ≤ T'.devices.length := by
  by_contra hlt
  have hlt : T'.devices.length < T.devices.length := by omega
  obtain ⟨s', hs', -⟩ := h.devices _ _ (List.getElem?_eq_getElem hlt)
  have := (List.getElem?_eq_some_iff.mp hs').1
  omega

/-! ## The order of the calls -/

def Call.target : Call → Option Nat
  | .device .. => none
  | .interface _ target => target
  | .range _ _ _ _ target => target
  | .single _ _ _ target => target
  | .configEnd dev _ => some dev

/-- The group a call opens. -/
def Call.group? : Call → Option Nat
  | .device _ group .. => some group
  | _ => none

/-- The call fits a table of `m` devices. -/
def Call.Fits : Call → Nat → Prop
  | .device dev .., m => dev = m
  | c, m => ∀ t ∈ c.target, t < m

/-- The groups the calls open, in order. -/
def openGroups (cs : List Call) : List Nat := cs.filterMap Call.group?

/-- Every call fits the devices opened before it. -/
def Ordered : Nat → List Call → Prop
  | _, [] => True
  | m, c :: cs => c.Fits m ∧ Ordered (m + c.group?.toList.length) cs

theorem apply_groups (c : Call) (T : Table) :
    (c.apply T).devices.map DeviceSpec.group = T.devices.map DeviceSpec.group ++ c.group?.toList := by
  have hup : ∀ (T : Table) (t : Option Nat) (f : DeviceSpec → DeviceSpec),
      (∀ s : DeviceSpec, (f s).group = s.group) →
      (T.update t f).devices.map DeviceSpec.group = T.devices.map DeviceSpec.group := by
    intro T t f hf
    cases t with
    | none => rfl
    | some t =>
      refine List.ext_getElem? fun i => ?_
      show ((T.devices.modify t f).map _)[i]? = _
      rw [List.getElem?_map, List.getElem?_map, List.getElem?_modify]
      cases T.devices[i]? with
      | none => rfl
      | some s =>
        by_cases ht : t = i
        · simp [ht, hf]
        · simp [ht]
  have hres : ∀ (t : Nat) (parent : List Key) (flags : Nat) (start stop : BitVec 64),
      (T.addResource t parent flags start stop).devices.map DeviceSpec.group =
        T.devices.map DeviceSpec.group := by
    intro t parent flags start stop
    rw [Table.addResource, hup _ _ (.withResource _) fun _ => rfl, Table.addPath_devices]
  cases c with
  | device dev group flags parent config => exact List.map_append
  | interface config target =>
    exact (hup _ _ (.withOverride T.size) fun _ => rfl).trans (List.append_nil _).symm
  | range config key parent flags target =>
    refine Eq.trans ?_ (List.append_nil _).symm
    cases target with
    | none => rfl
    | some t =>
      simp only [Call.apply]
      split_ifs
      · exact hres t _ _ _ _
      · rfl
  | single config parent flags target =>
    refine Eq.trans ?_ (List.append_nil _).symm
    cases target with
    | none => rfl
    | some t =>
      simp only [Call.apply]
      split_ifs
      · exact hres t _ _ _ _
      · rfl
  | configEnd dev stop =>
    exact (hup _ _ (.withStop stop) fun _ => rfl).trans (List.append_nil _).symm

theorem applyAll_groups : ∀ (cs : List Call) (T : Table),
    (applyAll cs T).devices.map DeviceSpec.group = T.devices.map DeviceSpec.group ++ openGroups cs
  | [], T => (List.append_nil _).symm
  | c :: cs, T => by
    rw [applyAll_cons, applyAll_groups cs, apply_groups, List.append_assoc, openGroups, openGroups,
      List.filterMap_cons]
    cases c.group? <;> rfl

theorem apply_devices_length (c : Call) (T : Table) :
    (c.apply T).devices.length = T.devices.length + c.group?.toList.length := by
  have h := congrArg List.length (apply_groups c T)
  rwa [List.length_map, List.length_append, List.length_map] at h

/-- After `m` devices the calls fit and open the groups `gs`. -/
structure Opens (m : Nat) (cs : List Call) (gs : List Nat) : Prop where
  ordered : Ordered m cs
  groups : openGroups cs = gs

theorem Opens.nil (m : Nat) : Opens m [] [] := ⟨trivial, rfl⟩

theorem Opens.append : ∀ {as bs : List Call} {m : Nat} {gs gs' : List Nat}, Opens m as gs →
    Opens (m + gs.length) bs gs' → Opens m (as ++ bs) (gs ++ gs')
  | [], bs, m, gs, gs', h, h' => by
    obtain rfl : [] = gs := h.groups
    exact h'
  | c :: as, bs, m, gs, gs', h, h' => by
    obtain ⟨⟨hc, ho⟩, hg⟩ := h
    have hgs : gs = c.group?.toList ++ openGroups as := by
      rw [← hg, openGroups, List.filterMap_cons, openGroups]
      cases c.group? <;> rfl
    rw [hgs, List.length_append, ← Nat.add_assoc] at h'
    obtain ⟨ho', hg'⟩ := Opens.append ⟨ho, rfl⟩ h'
    refine ⟨⟨hc, ho'⟩, ?_⟩
    rw [List.cons_append, openGroups, List.filterMap_cons, hgs, List.append_assoc, ← hg', openGroups]
    cases c.group? <;> rfl

/-- A call with an old target, or none. -/
theorem Opens.call {m : Nat} {c : Call} (hg : c.group? = none) (h : ∀ t ∈ c.target, t < m) :
    Opens m [c] [] := by
  refine ⟨⟨?_, trivial⟩, ?_⟩
  · cases c with
    | device => cases hg
    | _ => exact h
  · rw [openGroups, List.filterMap_cons, hg]
    rfl

theorem Opens.ite {m : Nat} {p : Prop} [Decidable p] {cs : List Call} (h : p → Opens m cs []) :
    Opens m (if p then cs else []) [] := by
  split
  · exact h ‹p›
  · exact .nil m

/-- The positions of the set marks, counted from `k`. -/
def marked : Nat → List Bool → List Nat
  | _, [] => []
  | k, b :: marks => (if b then [k] else []) ++ marked (k + 1) marks

theorem marked_append' : ∀ (as bs : List Bool) (k : Nat),
    marked k (as ++ bs) = marked k as ++ marked (k + as.length) bs
  | [], _, _ => rfl
  | a :: as, bs, k => by
    rw [List.cons_append, marked, marked, marked_append' as, List.length_cons, List.append_assoc,
      Nat.add_assoc, Nat.add_comm 1]

theorem marked_cons_length (k : Nat) (b : Bool) (marks : List Bool) :
    (marked k (b :: marks)).length = (if b then 1 else 0) + (marked (k + 1) marks).length := by
  rw [marked, List.length_append]
  cases b <;> rfl

@[simp] theorem Walk.enter_roots (w : Walk) (root : Bool) :
    (w.enter root).roots = w.roots + 1 := rfl

@[simp] theorem Walk.enter_devices (w : Walk) (root : Bool) :
    (w.enter root).devices = w.devices + if root then 1 else 0 := by
  cases root <;> rfl

mutual

/-- The walk counts the marked groups as devices. -/
theorem Entries.after_devices : ∀ (g : Entries) (w : Walk),
    (g.after w).devices = w.devices + (marked w.roots g.nested).length
  | .stop _, _ => rfl
  | .entry key vals rest, w => by
    rw [Entries.after, Entries.after_devices rest, Values.after_devices vals, Values.after_roots,
      Entries.nested, marked_append', List.length_append, Nat.add_assoc]
    rfl

theorem Values.after_devices : ∀ (v : Values) (w : Walk),
    (v.after w).devices = w.devices + (marked w.roots v.nested).length
  | .stop _, _ => rfl
  | .quoted _ rest, w => Values.after_devices rest w
  | .group _ body rest, w => by
    rw [Values.after, Values.after_devices rest, Entries.after_devices body, Entries.after_roots,
      Values.nested, ← List.cons_append, marked_append', List.length_append, marked_cons_length,
      List.length_cons, Walk.enter_roots, Walk.enter_devices, Nat.add_right_comm w.roots,
      Nat.add_assoc w.roots]
    simp only [Nat.add_assoc]
  | .bare _ rest, w => Values.after_devices rest w

end

/-- The calls of these entries are ordered, and open the marked groups. -/
def EntriesOpen (g : Entries) : Prop :=
  ∀ (root : Bool) (c : Ctx) (w : Walk), (∀ t ∈ c.target, t < w.devices) →
    Opens w.devices (g.calls root c w) (marked w.roots g.nested)

theorem EntriesOpen.group {body : Entries} (hE : EntriesOpen body) (start : Text) (c : Ctx)
    (w : Walk) (hc : ∀ t ∈ c.target, t < w.devices) : Opens w.devices (groupCalls body start c w)
      (marked w.roots (body.isRoot :: body.nested)) := by
  unfold groupCalls
  rw [marked]
  cases hroot : body.isRoot with
  | true =>
    have h1 : Opens w.devices [.device w.devices w.roots c.flags c.parent start] [w.roots] :=
      ⟨⟨rfl, trivial⟩, rfl⟩
    exact h1.append (hE true (c.enter true w.devices) (w.enter true) fun t h => by
      cases h
      exact Nat.lt_succ_self _)
  | false => exact hE false c (w.enter false) hc

mutual

/-- **The calls of the walk are ordered**, and open the marked groups. -/
theorem Entries.calls_opens : ∀ g : Entries, EntriesOpen g
  | .stop _, _, _, w, _ => .nil w.devices
  | .entry key vals rest, root, c, w, hc => by
    have hv := vals.calls_opens (isInterface key) (flagsAt key) c (w.read key) hc
    have hlen := Values.after_devices vals (w.read key)
    have hend : Opens (w.devices + (marked w.roots vals.nested).length)
        (endCalls root c.target (skipNewline (closeEntry vals.last))) [] := by
      cases ht : c.target with
      | none => exact .nil _
      | some dev =>
        refine Opens.ite fun _ => Opens.call rfl fun t h => ?_
        cases h
        exact Nat.lt_of_lt_of_le (hc dev ht) (Nat.le_add_right _ _)
    have hr := rest.calls_opens root c (vals.after (w.read key)) fun t h => by
      rw [hlen]
      exact Nat.lt_of_lt_of_le (hc t h) (Nat.le_add_right _ _)
    rw [hlen, Values.after_roots] at hr
    rw [Entries.calls, Entries.nested, marked_append', ← List.append_nil (marked w.roots _)]
    refine (hv.append hend).append ?_
    rw [List.append_nil]
    exact hr

theorem Values.calls_opens : ∀ (v : Values) (iface : Bool) (flags : Nat) (c : Ctx) (w : Walk),
    (∀ t ∈ c.target, t < w.devices) →
    Opens w.devices (v.calls iface flags c w) (marked w.roots v.nested)
  | .stop _, _, _, _, w, _ => .nil w.devices
  | .quoted here rest, iface, flags, c, w, hc => by
    have h1 : Opens w.devices (if iface then [.interface here c.target] else []) [] :=
      Opens.ite fun _ => Opens.call rfl hc
    exact h1.append (rest.calls_opens false flags c w hc)
  | .group here body rest, iface, flags, c, w, hc => by
    have hg := EntriesOpen.group body.calls_opens (skipNewline here.tail)
      ⟨w.key :: c.parent, flags, c.target⟩ w hc
    have hlen : (body.after (w.enter body.isRoot)).devices =
        w.devices + (marked w.roots (body.isRoot :: body.nested)).length := by
      rw [Entries.after_devices, marked_cons_length, Walk.enter_devices, Walk.enter_roots,
        Nat.add_assoc]
    have hr := rest.calls_opens false flags c (body.after (w.enter body.isRoot)) fun t h => by
      rw [hlen]
      exact Nat.lt_of_lt_of_le (hc t h) (Nat.le_add_right _ _)
    rw [hlen, Entries.after_roots, Walk.enter_roots, Nat.add_assoc, Nat.add_comm 1] at hr
    rw [Values.nested, ← List.cons_append, marked_append', List.length_cons]
    exact hg.append hr
  | .bare here rest, iface, flags, c, w, hc => by
    have h1 : Opens w.devices (if iface then [.interface here c.target] else []) [] :=
      Opens.ite fun _ => Opens.call rfl hc
    have h2 : Opens w.devices
        (if c.flags ≠ 0 then [.range here w.key c.parent c.flags c.target] else []) [] :=
      Opens.ite fun _ => Opens.call rfl hc
    have h3 : Opens w.devices (if flags ≠ 0 then [.single here c.parent flags c.target] else []) [] :=
      Opens.ite fun _ => Opens.call rfl hc
    exact ((h1.append h2).append h3).append (rest.calls_opens false flags c w hc)

end

/-- The calls of a whole group open it, when it is marked, and the marked groups in it. -/
theorem Entries.groupCalls_opens (body : Entries) (start : Text) (c : Ctx) (w : Walk)
    (hc : ∀ t ∈ c.target, t < w.devices) : Opens w.devices (groupCalls body start c w)
      (marked w.roots (body.isRoot :: body.nested)) :=
  EntriesOpen.group body.calls_opens start c w hc

end LowriscLinux.Config
