import LowriscLinux.Config.Detect
import LowriscLinux.Config.Simulate
import LowriscLinux.Config.Size

/-!
# The three passes agree

`config_find_devices` (`arch/riscv/drivers/config.c`, lines 521-603) sizes two blocks from what pass
0 and pass 1 count and fills them, unchecked, in pass 2. Passes 1 and 2 build the same table from
the same calls (`Config/Walk.lean`, `Config/Simulate.lean`), so pass 2 finds the room it needs.

* `countLayout` and `writeLayout`: the blocks of the two passes. That of pass 1 has the devices only
  (lines 547-553); that of pass 2 has for each device the slice of the resources that the loop of
  lines 579-583 gives it, and as many bytes of names as pass 1 has counted (line 567). The
  `driver_override` of a device in pass 2 is what pass 1 has left there, an offset from 0, until the
  value is read again.
* `table` is the table that both passes build, and `Table.counts` what pass 1 has of it.
* `PassesAgree` is the agreement of the passes: pass 2 returns, marks the groups that pass 1 did,
  opens the same devices for the same groups with the same flags and as many resources, lays out
  strings of the same sizes one after the other (`Tiles`), and writes every byte of the names and
  every resource of the block (`Written`) and nothing else. That it returns includes that it does
  not read a byte of the names before it has written it (`Heap.nameHead`).
* `Heap.NameStart` and `Table.Pointed` say that each name in the table is a pointer to the start of
  a string that ends before the names do (`Terminated`).

The bound of 65536 bytes is that of `parse_interface` (line 354), which stores no more of a string
than that.

Results:
* `detectRoots_marked`, `countResources_models`, `writeResources_models`: what each pass leaves.
* `passes_agree`: on a config string shorter than 65536 bytes, pass 2 returns whenever pass 1 does
  and agrees with it (`PassesAgree`).
-/

namespace LowriscLinux.Config

open LowriscLinux.Lib

/-! ## Strings and pointers of a table -/

/-- `off` is where one of these strings starts. -/
def Points (strings : List (List (Option UInt8))) (off : Nat) : Prop :=
  ∃ as cells bs, strings = as ++ cells :: bs ∧ off = as.flatten.length

def Name.Points (strings : List (List (Option UInt8))) : Name → Prop
  | .dot => True
  | .names off => Config.Points strings off

/-- All pointers of a device into the names are starts of strings. -/
structure DeviceSpec.Points (strings : List (List (Option UInt8))) (s : DeviceSpec) : Prop where
  name : s.name.Points strings
  override : ∀ off ∈ s.override, Config.Points strings off
  resources : ∀ r ∈ s.resources, r.name.Points strings

def Table.Pointed (T : Table) : Prop := ∀ s ∈ T.devices, s.Points T.strings

theorem Points.mono {ss ss' : List (List (Option UInt8))} (hg : ss <+: ss') {off : Nat}
    (h : Points ss off) : Points ss' off := by
  obtain ⟨as, cells, bs, rfl, rfl⟩ := h
  obtain ⟨t, rfl⟩ := hg
  exact ⟨as, cells, bs ++ t, by rw [List.append_assoc, List.cons_append], rfl⟩

theorem Name.Points.mono {ss ss' : List (List (Option UInt8))} (hg : ss <+: ss') {n : Name}
    (h : n.Points ss) : n.Points ss' := by
  cases n with
  | dot => trivial
  | names off => exact Config.Points.mono hg h

theorem DeviceSpec.Points.mono {ss ss' : List (List (Option UInt8))} (hg : ss <+: ss')
    {s : DeviceSpec} (h : s.Points ss) : s.Points ss' :=
  ⟨h.name.mono hg, fun off ho => (h.override off ho).mono hg,
    fun r hr => (h.resources r hr).mono hg⟩

theorem layOut_points (T : Table) (cells : List (Option UInt8)) :
    Points (T.layOut cells).strings T.size :=
  ⟨T.strings, cells, [], rfl, rfl⟩

theorem pathName_points (T : Table) (parent : List Key) :
    (T.pathName parent).Points (T.addPath parent).strings := by
  cases parent with
  | nil => trivial
  | cons k up => exact layOut_points T _

theorem resourceName_points (T : Table) (parent : List Key) :
    (T.resourceName parent).Points (T.addPath parent).strings := by
  cases parent with
  | nil => trivial
  | cons k up =>
    rw [Table.resourceName]
    split_ifs
    · trivial
    · exact layOut_points T _

/-- An update that adds none but good pointers. -/
theorem update_pointed {T : Table} {target : Option Nat} {f : DeviceSpec → DeviceSpec}
    (h : T.Pointed) (hf : ∀ s : DeviceSpec, s.Points T.strings → (f s).Points T.strings) :
    (T.update target f).Pointed := by
  intro s hs
  rw [Table.update_strings]
  cases target with
  | none => exact h s hs
  | some t =>
    obtain ⟨i, hi⟩ := List.mem_iff_getElem?.mp hs
    obtain ⟨s0, hs0, rfl⟩ := getElem?_update hi
    have h0 := h s0 (List.mem_of_getElem? hs0)
    split_ifs
    · exact hf s0 h0
    · exact h0

theorem addResource_pointed {T : Table} (h : T.Pointed) (t : Nat) (parent : List Key)
    (flags : Nat) (start stop : BitVec 64) :
    (T.addResource t parent flags start stop).Pointed := by
  refine update_pointed (fun s hs => ?_) fun s hs => ⟨hs.name, hs.override, fun r hr => ?_⟩
  · rw [Table.addPath_devices] at hs
    exact (h s hs).mono (addPath_grows T parent).strings
  · rcases List.mem_append.mp hr with hr | hr
    · exact hs.resources r hr
    · rw [List.mem_singleton.mp hr]
      exact resourceName_points T parent

/-- **Pointers into the names are starts of strings**, whatever is called. -/
theorem apply_pointed {T : Table} (h : T.Pointed) (c : Call) : (c.apply T).Pointed := by
  cases c with
  | device dev group flags parent config =>
    intro s hs
    rcases List.mem_append.mp hs with hs | hs
    · exact (h s hs).mono (addPath_grows T parent).strings
    · rw [List.mem_singleton.mp hs]
      exact ⟨pathName_points T parent, fun _ h => (Option.not_mem_none _ h).elim,
        fun _ h => (List.not_mem_nil h).elim⟩
  | interface config target =>
    refine update_pointed (fun s hs => (h s hs).mono (layOut_grows T _).strings) fun s hs =>
      ⟨hs.name, fun off ho => ?_, hs.resources⟩
    cases ho
    exact layOut_points T _
  | range config key parent flags target =>
    cases target with
    | none => exact h
    | some t =>
      simp only [Call.apply]
      split_ifs
      · exact addResource_pointed h t _ _ _ _
      · exact h
  | single config parent flags target =>
    cases target with
    | none => exact h
    | some t =>
      simp only [Call.apply]
      split_ifs
      · exact addResource_pointed h t _ _ _ _
      · exact h
  | configEnd dev stop => exact update_pointed h fun s hs => ⟨hs.name, hs.override, hs.resources⟩

theorem applyAll_pointed : ∀ (cs : List Call) {T : Table}, T.Pointed → (applyAll cs T).Pointed
  | [], _, h => h
  | c :: cs, _, h => applyAll_pointed cs (apply_pointed h c)

/-- Every string is written whole and ends in its terminator. -/
def Table.Terminated (T : Table) : Prop := ∀ cells ∈ T.strings, ∃ bs, cells = (bs ++ [0]).map some

theorem addPath_strings (T : Table) (parent : List Key) {cells : List (Option UInt8)}
    (hc : cells ∈ (T.addPath parent).strings) :
    cells ∈ T.strings ∨ ∃ bs, cells = (bs ++ [0]).map some := by
  cases parent with
  | nil => exact Or.inl hc
  | cons k up => exact (List.mem_append.mp hc).imp_right fun h => ⟨_, List.mem_singleton.mp h⟩

/-- A call lays out a path or the value of an `interface` key. -/
theorem apply_strings (c : Call) (T : Table) {cells : List (Option UInt8)}
    (hc : cells ∈ (c.apply T).strings) : cells ∈ T.strings ∨ (∃ bs, cells = (bs ++ [0]).map some) ∨
      ∃ config target, c = .interface config target ∧ cells = overrideCells (decodeString config) := by
  have hres : ∀ (t : Nat) (parent : List Key) (flags : Nat) (start stop : BitVec 64),
      cells ∈ (T.addResource t parent flags start stop).strings →
      cells ∈ T.strings ∨ ∃ bs, cells = (bs ++ [0]).map some := by
    intro t parent flags start stop h
    rw [Table.addResource, Table.update_strings] at h
    exact addPath_strings T parent h
  cases c with
  | device dev group flags parent config => exact (addPath_strings T parent hc).imp_right Or.inl
  | interface config target =>
    rw [Call.apply, Table.update_strings] at hc
    refine (List.mem_append.mp hc).imp_right fun h => Or.inr ⟨config, target, rfl, ?_⟩
    exact List.mem_singleton.mp h
  | range config key parent flags target =>
    cases target with
    | none => exact Or.inl hc
    | some t =>
      simp only [Call.apply] at hc
      split_ifs at hc
      · exact (hres t _ _ _ _ hc).imp_right Or.inl
      · exact Or.inl hc
  | single config parent flags target =>
    cases target with
    | none => exact Or.inl hc
    | some t =>
      simp only [Call.apply] at hc
      split_ifs at hc
      · exact (hres t _ _ _ _ hc).imp_right Or.inl
      · exact Or.inl hc
  | configEnd dev stop => exact Or.inl hc

theorem overrideCells_short {value : List UInt8} (h : value.length + 1 ≤ 65536) :
    overrideCells value = (value ++ [0]).map some := by
  unfold overrideCells
  rw [List.take_of_length_le (by rw [List.length_append]; exact h), Nat.sub_eq_zero_of_le h,
    List.replicate_zero, List.append_nil]

theorem apply_terminated {T : Table} (h : T.Terminated) {c : Call} (hc : c.valueCost < 65536) :
    (c.apply T).Terminated := by
  intro cells hcells
  rcases apply_strings c T hcells with hcells | hbs | ⟨config, target, rfl, rfl⟩
  · exact h cells hcells
  · exact hbs
  · have hc : (decodeString config).length + 1 ≤ 65536 := Nat.le_of_lt hc
    exact ⟨_, overrideCells_short hc⟩

theorem applyAll_terminated : ∀ (cs : List Call) {T : Table}, T.Terminated →
    (∀ c ∈ cs, c.valueCost < 65536) → (applyAll cs T).Terminated
  | [], _, h, _ => h
  | c :: cs, _, h, hc => applyAll_terminated cs (apply_terminated h (hc c List.mem_cons_self))
      fun c hm => hc c (List.mem_cons_of_mem _ hm)

/-! ## What each pass leaves -/

/-- The calls of passes 1 and 2 over a config string. -/
def calls (config : Text) : List Call :=
  groupCalls (scan config) config ⟨[], 0, none⟩ ⟨0, 0, ⟨[], []⟩⟩

/-- What a config string describes. -/
def table (config : Text) : Table := applyAll (calls config) {}

/-- The marks of the groups of a config string, in the order they are entered. -/
def marks (config : Text) : List Bool := (scan config).isRoot :: (scan config).nested

theorem calls_opens (config : Text) : Opens 0 (calls config) (marked 0 (marks config)) :=
  (scan config).groupCalls_opens config ⟨[], 0, none⟩ ⟨0, 0, ⟨[], []⟩⟩
    fun _ h => (Option.not_mem_none _ h).elim

theorem table_groups (config : Text) :
    (table config).devices.map DeviceSpec.group = marked 0 (marks config) := by
  rw [table, applyAll_groups, (calls_opens config).groups]
  rfl

theorem table_devices_length (config : Text) :
    (table config).devices.length = (marked 0 (marks config)).length := by
  rw [← table_groups, List.length_map]

/-- The key a walk starts with is never looked at. -/
theorem groupCalls_key (body : Entries) (start : Text) (c : Ctx) (roots devices : Nat) (k k' : Key) :
    groupCalls body start c ⟨roots, devices, k⟩ = groupCalls body start c ⟨roots, devices, k'⟩ := by
  cases body <;> rfl

theorem marked_length (k : Nat) (marks : List Bool) :
    (marked k marks).length = ((marks.map mark).map UInt8.toNat).sum := by
  induction marks generalizing k with
  | nil => rfl
  | cons b marks ih =>
    rw [marked_cons_length, ih, List.map_cons, List.map_cons, List.sum_cons]
    cases b <;> rfl

/-- **Pass 0** leaves the marks of the groups at the start of `roots[]`. -/
theorem detectRoots_marked {config : Text} {state : ParserState} {h : Heap}
    (e : detectRoots config = .ok (state, h)) :
    state.roots = (marks config).length ∧ h.roots.take state.roots = (marks config).map mark := by
  have hg := scan_at config
  have hsk := (skipWhitespace_suffix config).length_le
  let w : Walk := ⟨0, 0, ⟨[], []⟩⟩
  let h0 : Heap := { roots := List.replicate config.length 0 }
  have hs : Stops 0 (scan config).last ((scan config).nested.length + 1) w h0 (state, h) :=
    parseConfigString_stops hg e
  have hroom := hs.room (Nat.succ_pos _)
  obtain ⟨r, er, hr⟩ : Returns (parseConfigString (fuelFor config) (w.state 0 config 0) [] 0 none
      h0) _ := parseConfigString_detect hg (by unfold fuelFor; omega) hroom
  have hr' : (state, h) = r := Except.ok.inj (e.symm.trans er)
  subst hr'
  have hroots : state.roots = (marks config).length := by
    rw [hs.roots, marks, List.length_cons]
    exact Nat.zero_add _
  have hmarked : Marked h.roots 0 (marks config) := by
    rw [hr]
    refine stamp_marked _ _ _ fun i _ hi => ?_
    have hlen : i < config.length := by
      have h1 : 0 + ((scan config).nested.length + 1) ≤
          (List.replicate config.length (0 : UInt8)).length := hroom
      have h2 : i < 0 + ((scan config).nested.length + 1) := hi
      rw [List.length_replicate] at h1
      omega
    show (List.replicate config.length 0)[i]? = some 0
    rw [List.getElem?_replicate, if_pos hlen]
  refine ⟨hroots, ?_⟩
  rw [hroots, ← List.length_map mark]
  exact (List.prefix_iff_eq_take.mp hmarked).symm

theorem marked_of_take {roots : List UInt8} {n : Nat} {ms : List Bool}
    (h : roots.take n = ms.map mark) : Marked roots 0 ms := by
  unfold Marked
  rw [← h]
  exact List.take_prefix _ _

/-- Passes 1 and 2 make the calls of the config string. -/
theorem runPass_calls {pass : Nat} (hp : HAVE_DEVICES ≤ pass) {config : Text} (state : ParserState)
    {h : Heap} (hm : Marked h.roots 0 (marks config)) :
    runPass { state with
        pass := pass, roots := 0, config := config, devices := 0, names := 0 } h =
      (runCalls pass (calls config) 0 h).bind fun r =>
        .ok (((scan config).after (Walk.enter ⟨0, 0, ⟨state.keyStart, state.keyEnd⟩⟩
          (scan config).isRoot)).state pass (scan config).last r.1, r.2) := by
  have hf : 3 * (skipWhitespace config).length + 2 ≤ 3 * config.length + 2 :=
    Nat.add_le_add_right (Nat.mul_le_mul_left 3 (skipWhitespace_suffix config).length_le) 2
  rw [calls, groupCalls_key _ _ _ _ _ _ ⟨state.keyStart, state.keyEnd⟩]
  exact EntriesRun.group hp (parseEntries_eq hp (scan config))
    (w := ⟨0, 0, ⟨state.keyStart, state.keyEnd⟩⟩) (h := h) (scan_at config) hf hm

/-- The numbers of resources of the devices of a table. -/
def Table.counts (T : Table) : List Nat := T.devices.map fun s => s.resources.length

/-- The blocks of pass 1, in which the resources block does not exist yet. -/
def countLayout (T : Table) (total : Nat) : Layout where
  count := T.devices.length
  size := 0
  total := total
  base := fun _ => none
  cap := fun i => T.counts.getD i 0
  override := fun _ => none
  inside := fun _ _ h => (Option.some_ne_none _ h.symm).elim
  disjoint := fun _ _ _ _ h => (Option.some_ne_none _ h.symm).elim

theorem sum_take_le (l : List Nat) (i : Nat) : (l.take i).sum ≤ l.sum := by
  conv_rhs => rw [← List.take_append_drop i l, List.sum_append]
  exact Nat.le_add_right _ _

theorem sum_take_add {l : List Nat} {i j : Nat} (h : i < j) :
    (l.take i).sum + l.getD i 0 ≤ (l.take j).sum := by
  rcases Nat.lt_or_ge i l.length with hi | hi
  · have h1 : (l.take (i + 1)).sum = (l.take i).sum + l.getD i 0 := by
      rw [List.take_add_one, List.sum_append, List.getD_eq_getElem?_getD, List.getElem?_eq_getElem hi]
      rfl
    have h2 : (l.take (i + 1)).sum ≤ (l.take j).sum := by
      have := sum_take_le (l.take j) (i + 1)
      rwa [List.take_take, Nat.min_eq_left h] at this
    omega
  · rw [List.getD_eq_getElem?_getD, List.getElem?_eq_none hi, List.take_of_length_le hi,
      List.take_of_length_le (by omega)]
    exact Nat.le_refl _

/-- The blocks of pass 2: the slices follow one another. -/
def writeLayout (T : Table) : Layout where
  count := T.devices.length
  size := T.size
  total := T.counts.sum
  base := fun i => if i < T.devices.length then some (T.counts.take i).sum else none
  cap := fun i => T.counts.getD i 0
  override := fun i => T.devices[i]?.bind DeviceSpec.override
  inside := by
    intro i b hb
    split_ifs at hb with hi
    cases hb
    have h1 := sum_take_add (l := T.counts) (Nat.lt_add_one i)
    have h2 := sum_take_le T.counts (i + 1)
    omega
  disjoint := by
    intro i j b b' hb hb' hij
    split_ifs at hb with hi
    split_ifs at hb' with hj
    cases hb
    cases hb'
    exact sum_take_add hij

theorem counts_getD {T : Table} {i : Nat} {s : DeviceSpec} (hs : T.devices[i]? = some s) :
    T.counts.getD i 0 = s.resources.length := by
  rw [Table.counts, List.getD_eq_getElem?_getD, List.getElem?_map, hs]
  rfl

theorem countLayout_room (T : Table) (total : Nat) : Room 1 (countLayout T total) T where
  writes := fun _ _ h => (Option.some_ne_none _ h.symm).elim
  size := fun h => absurd h (by decide)
  count := Nat.le_refl _
  cap := fun _ _ hs => Nat.le_of_eq (counts_getD hs).symm

theorem writeLayout_room (T : Table) : Room 2 (writeLayout T) T where
  writes := fun _ _ _ => by decide
  size := fun _ => Nat.le_refl _
  count := Nat.le_refl _
  cap := fun _ _ hs => Nat.le_of_eq (counts_getD hs).symm

/-- A memory in which no device is open yet. -/
theorem models_empty {pass : Nat} {L : Layout} {h : Heap} (hd : h.devices.length = L.count)
    (hn : HAVE_NAMES ≤ pass → h.names = List.replicate L.size none)
    (hr : h.resources.length = L.total) (he : h.events = [])
    (hf : ∀ (i : Nat) (d : PlatformDevice), h.devices[i]? = some d →
      d.resource = L.base i ∧ d.driverOverride = L.override i) :
    Models pass L {} 0 h where
  filled := ⟨rfl, hn, fun _ => by rw [he]; exact fun _ h => (List.not_mem_nil h).elim⟩
  listed := ⟨hd, fun _ _ h => (Option.some_ne_none _ h.symm).elim, fun i d _ h => hf i d h⟩
  slotted := ⟨hr, fun _ _ _ h => (Option.some_ne_none _ h.symm).elim⟩
  spans := by rw [he]; rfl
  openings := by rw [he]; rfl

/-- The memory pass 1 starts in. -/
theorem countStart_models (config : Text) (h : Heap) :
    Models 1 (countLayout (table config) h.resources.length) {} 0
      { h with devices := List.replicate (table config).devices.length {}, events := [] } := by
  refine models_empty List.length_replicate (fun h => absurd h (by decide)) rfl rfl
    fun i d hd => ?_
  have hd : (List.replicate (table config).devices.length ({} : PlatformDevice))[i]? = some d := hd
  rw [List.getElem?_replicate] at hd
  split_ifs at hd
  cases hd
  exact ⟨rfl, rfl⟩

/-- Pass 1 is its calls, made in a memory that holds the empty table. -/
theorem countResources_eq {config : Text} {state : ParserState} {h : Heap}
    (hm : h.roots.take state.roots = (marks config).map mark) :
    countResources config state h = (runCalls 1 (calls config) 0
      { h with devices := List.replicate (table config).devices.length {}, events := [] }).bind
      fun r => .ok (((scan config).after (Walk.enter ⟨0, 0, ⟨state.keyStart, state.keyEnd⟩⟩
        (scan config).isRoot)).state 1 (scan config).last r.1, r.2) := by
  have hm' := marked_of_take hm
  have hnum : numDevices state h = (table config).devices.length := by
    rw [numDevices, hm, ← marked_length 0, table_devices_length]
  unfold countResources
  rw [runPass_calls (by decide) state (by exact hm'), hnum]

/-- **Pass 1** leaves the sizes of the table, and follows no NULL parent. -/
theorem countResources_models {config : Text} {state state' : ParserState} {h h' : Heap}
    (hm : h.roots.take state.roots = (marks config).map mark)
    (e : countResources config state h = .ok (state', h')) :
    Models 1 (countLayout (table config) h.resources.length) (table config) state'.names h' ∧
      h'.roots = h.roots ∧ state'.devices = (table config).devices.length ∧
      ∀ c ∈ calls config, c.Safe := by
  rw [countResources_eq hm] at e
  obtain ⟨r, er, e⟩ := bind_eq_ok.mp e
  have hsafe := runCalls_safe er
  have hroots := runCalls_roots er
  cases e
  obtain ⟨r', er', hr'⟩ := runCalls_models (calls config) (countStart_models config h)
    (calls_opens config).ordered hsafe (countLayout_room (table config) _)
  cases er.symm.trans er'
  refine ⟨hr', hroots, ?_, hsafe⟩
  show ((scan config).after _).devices = _
  rw [Entries.after_devices, table_devices_length, marks, marked_cons_length, Walk.enter_devices,
    Walk.enter_roots]
  exact congrArg (· + _) (Nat.zero_add _)

theorem assignResources_getElem? : ∀ (ds : List PlatformDevice) (n i : Nat),
    (assignResources ds n)[i]? = ds[i]?.map fun d =>
      { d with resource := some (n + ((ds.map PlatformDevice.numResources).take i).sum) }
  | [], _, _ => rfl
  | d :: ds, n, 0 => rfl
  | d :: ds, n, i + 1 => by
    show (assignResources ds (n + d.numResources))[i]? = ds[i]?.map _
    rw [assignResources_getElem? ds, List.map_cons, List.take_succ_cons, List.sum_cons]
    simp only [Nat.add_assoc]

theorem assignResources_length : ∀ (ds : List PlatformDevice) (n : Nat),
    (assignResources ds n).length = ds.length
  | [], _ => rfl
  | _ :: ds, _ => congrArg (· + 1) (assignResources_length ds _)

/-- The devices of a memory that holds a table. -/
theorem Listed.devices {L : Layout} {T : Table} {h : Heap} (hl : Listed L T h)
    (hc : L.count = T.devices.length) (i : Nat) : h.devices[i]? =
      T.devices[i]?.map fun s => s.device (L.base i) (L.override i) := by
  cases hs : T.devices[i]? with
  | some s => exact hl.opened i s hs
  | none =>
    rw [List.getElem?_eq_none_iff] at hs
    exact List.getElem?_eq_none (by rw [hl.count, hc]; exact hs)

theorem Listed.counts {L : Layout} {T : Table} {h : Heap} (hl : Listed L T h)
    (hc : L.count = T.devices.length) : h.devices.map PlatformDevice.numResources = T.counts := by
  refine List.ext_getElem? fun i => ?_
  rw [List.getElem?_map, hl.devices hc, Table.counts, List.getElem?_map, Option.map_map]
  rfl

/-- The memory pass 2 starts in. -/
def writeStart (state : ParserState) (h : Heap) : Heap := { h with
  devices := assignResources h.devices 0
  resources := List.replicate (numResources h) none
  names := List.replicate state.names none
  events := [] }

theorem writeStart_models {config : Text} {state : ParserState} {h : Heap} {total : Nat}
    (hm : Models 1 (countLayout (table config) total) (table config) state.names h) :
    Models 2 (writeLayout (table config)) {} 0 (writeStart state h) := by
  have hnames : state.names = (table config).size := hm.filled.names
  have hcounts := hm.listed.counts rfl
  refine models_empty ?_ (fun _ => ?_) ?_ rfl fun i d hd => ?_
  · exact (assignResources_length _ _).trans hm.listed.count
  · rw [writeStart, hnames]
    rfl
  · show (List.replicate (numResources h) none).length = _
    rw [List.length_replicate, numResources, hcounts]
    rfl
  · have hd : (assignResources h.devices 0)[i]? = some d := hd
    rw [assignResources_getElem?, hm.listed.devices rfl, Option.map_map, hcounts,
      Nat.zero_add] at hd
    obtain ⟨s, hs, rfl⟩ := Option.map_eq_some_iff.mp hd
    have hi : i < (table config).devices.length := (List.getElem?_eq_some_iff.mp hs).1
    constructor
    · exact (if_pos hi).symm
    · show s.override.or none = (table config).devices[i]?.bind DeviceSpec.override
      rw [hs, Option.or_none]
      rfl

/-- Pass 2 is its calls, when the names fit an `int`. -/
theorem writeResources_eq {config : Text} {state : ParserState} {h : Heap}
    (hsize : state.names < 2 ^ 31) (hroots : Marked h.roots 0 (marks config)) :
    writeResources config state h = (runCalls 2 (calls config) 0 (writeStart state h)).bind
      fun r => .ok (((scan config).after (Walk.enter ⟨0, 0, ⟨state.keyStart, state.keyEnd⟩⟩
        (scan config).isRoot)).state 2 (scan config).last r.1, r.2) := by
  have hint : toInt state.names = .ok state.names := by rw [toInt, if_pos hsize]
  unfold writeResources
  rw [hint]
  exact runPass_calls (by decide) state (by exact hroots)

/-- **Pass 2** finds its room and writes the table down. -/
theorem writeResources_models {config : Text} (hsize : (table config).size < 2 ^ 31)
    {state : ParserState} {h : Heap} {total : Nat}
    (hm : Models 1 (countLayout (table config) total) (table config) state.names h)
    (hroots : Marked h.roots 0 (marks config)) (hsafe : ∀ c ∈ calls config, c.Safe) :
    Returns (writeResources config state h) fun r =>
      Models 2 (writeLayout (table config)) (table config) r.1.names r.2 ∧
        r.2.roots = h.roots ∧ r.1.devices = (table config).devices.length := by
  have hnames : state.names = (table config).size := hm.filled.names
  obtain ⟨r, er, hr⟩ := runCalls_models (calls config) (writeStart_models hm)
    (calls_opens config).ordered hsafe (writeLayout_room (table config))
  have hroots' : r.2.roots = (writeStart state h).roots := runCalls_roots er
  rw [writeResources_eq (by rw [hnames]; exact hsize) hroots]
  refine ⟨_, bind_eq_ok.mpr ⟨r, er, rfl⟩, hr, hroots', ?_⟩
  show ((scan config).after _).devices = _
  rw [Entries.after_devices, table_devices_length, marks, marked_cons_length, Walk.enter_devices,
    Walk.enter_roots]
  exact congrArg (· + _) (Nat.zero_add _)

/-- **Pass 0 returns** when `roots[]` has a byte for every group. -/
theorem detectRoots_returns {config : Text} (hroom : (marks config).length ≤ config.length) :
    Returns (detectRoots config) fun _ => True := by
  have hsk := (skipWhitespace_suffix config).length_le
  have hmarks : (marks config).length = (scan config).nested.length + 1 := List.length_cons
  let w : Walk := ⟨0, 0, ⟨[], []⟩⟩
  obtain ⟨r, e, -⟩ : Returns (parseConfigString (fuelFor config) (w.state 0 config 0) []
      0 none { roots := List.replicate config.length 0 }) _ :=
    parseConfigString_detect (scan_at config) (by unfold fuelFor; omega) (by
      show 0 + _ ≤ (List.replicate config.length (0 : UInt8)).length
      rw [List.length_replicate]
      omega)
  exact ⟨r, e, trivial⟩

/-- **Pass 1 returns** when no call follows a NULL parent. -/
theorem countResources_returns {config : Text} {state : ParserState} {h : Heap}
    (hm : h.roots.take state.roots = (marks config).map mark) (hsafe : ∀ c ∈ calls config, c.Safe) :
    Returns (countResources config state h) fun _ => True := by
  rw [countResources_eq hm]
  refine (runCalls_models (calls config) (countStart_models config h) (calls_opens config).ordered
    hsafe (countLayout_room _ _)).bind fun r _ _ => .ok trivial

/-- **The passes return** on a config string without a NULL parent whose names fit an `int`. -/
theorem configFindDevices_returns {config : Text} (hroom : (marks config).length ≤ config.length)
    (hsafe : ∀ c ∈ calls config, c.Safe) (hsize : (table config).size < 2 ^ 31) :
    Returns (configFindDevices config) fun r =>
      Models 2 (writeLayout (table config)) (table config) r.1.names r.2 := by
  obtain ⟨⟨state₀, h₀⟩, e₀, -⟩ := detectRoots_returns hroom
  obtain ⟨-, htake⟩ := detectRoots_marked e₀
  obtain ⟨⟨state₁, h₁⟩, e₁, -⟩ := countResources_returns htake hsafe
  obtain ⟨hm₁, hr₁, -, -⟩ := countResources_models htake e₁
  obtain ⟨r₂, e₂, hm₂, -, -⟩ := writeResources_models hsize hm₁
    (by rw [hr₁]; exact marked_of_take htake) hsafe
  exact ⟨r₂, bind_eq_ok.mpr ⟨_, e₀, bind_eq_ok.mpr ⟨_, e₁, e₂⟩⟩, hm₂⟩

/-- **The passes write the table down** when they return. -/
theorem configFindDevices_models {config : Text} {r : ParserState × Heap}
    (e : configFindDevices config = .ok r) :
    Models 2 (writeLayout (table config)) (table config) r.1.names r.2 ∧
      (table config).size < 2 ^ 31 ∧ ∀ c ∈ calls config, c.Safe := by
  obtain ⟨⟨state₀, h₀⟩, e₀, e⟩ := bind_eq_ok.mp e
  obtain ⟨⟨state₁, h₁⟩, e₁, e₂⟩ := bind_eq_ok.mp e
  obtain ⟨-, hmarks⟩ := detectRoots_marked e₀
  obtain ⟨hm₁, hr₁, -, hsafe⟩ := countResources_models hmarks e₁
  have hsize : (table config).size < 2 ^ 31 := by
    obtain ⟨size, es, -⟩ := bind_eq_ok.mp e₂
    have hnames : state₁.names = (table config).size := hm₁.filled.names
    rw [toInt, hnames] at es
    split_ifs at es with hlt
    exact hlt
  obtain ⟨r', e₂', hm₂, -, -⟩ := writeResources_models hsize hm₁
    (by rw [hr₁]; exact marked_of_take hmarks) hsafe
  cases e₂.symm.trans e₂'
  exact ⟨hm₂, hsize, hsafe⟩

/-! ## The passes agree -/

/-- The groups marked in `roots[]`, in the order they are entered. -/
def rootGroups (state : ParserState) (h : Heap) : List Nat :=
  (List.range state.roots).filter fun i => h.roots[i]? ≠ some 0

/-- The numbers of the devices a pass opened and of their groups. -/
def opened (h : Heap) : List (Nat × Nat) := (openings h.events).map fun e => (e.1, e.2.1)

/-- Strings that follow one another from `start` to `stop`, none of them empty. -/
def Tiles : Nat → List (Nat × Nat) → Nat → Prop
  | start, [], stop => start = stop
  | start, (a, b) :: rest, stop => a = start ∧ a < b ∧ Tiles b rest stop

/-- The string in `[a, b)` is written, and its last byte is the terminator. -/
def Written (h : Heap) (a b : Nat) : Prop :=
  (∀ i, a ≤ i → i < b → ∃ c, h.names[i]? = some (some c)) ∧ h.names[b - 1]? = some (some 0)

/-- A pointer into the names is the start of one of the strings. -/
def Heap.Start (h : Heap) (off : Nat) : Prop := ∃ stop, (off, stop) ∈ spans h.events

def Heap.NameStart (h : Heap) : Name → Prop
  | .dot => True
  | .names off => h.Start off

/-- Pass 2, from `state₁` and `h₁` to `state₂` and `h₂`, agrees with pass 1, which left `state₁` and
`h₁`, and both with pass 0, which left `state₀` and `h₀`. -/
structure PassesAgree (state₀ : ParserState) (h₀ : Heap) (state₁ : ParserState) (h₁ : Heap)
    (state₂ : ParserState) (h₂ : Heap) : Prop where
  /-- Pass 1 opens a device for each marked group, in order, and no other. -/
  opened₁ : opened h₁ = (rootGroups state₀ h₀).mapIdx fun i group => (i, group)
  opened₂ : opened h₂ = opened h₁
  roots : h₁.roots = h₀.roots ∧ h₂.roots = h₀.roots
  /-- The sum of `roots[]` is the number of devices filled in. -/
  devices : h₂.devices.length = numDevices state₀ h₀ ∧ state₁.devices = numDevices state₀ h₀ ∧
    state₂.devices = numDevices state₀ h₀ ∧ (rootGroups state₀ h₀).length = numDevices state₀ h₀
  /-- No count of pass 2 exceeds the one pass 1 left, and in the end they are equal. -/
  counts : ∀ dev n, .count dev n ∈ h₂.events → ∃ d, h₁.devices[dev]? = some d ∧ n ≤ d.numResources
  counts_end : h₂.devices.map PlatformDevice.numResources =
    h₁.devices.map PlatformDevice.numResources
  /-- The slices follow one another in the block, and every store is in the device's own. -/
  slices : ∀ (dev : Nat) (d : PlatformDevice), h₂.devices[dev]? = some d →
    d.resource = some ((h₁.devices.map PlatformDevice.numResources).take dev).sum
  resources_length : h₂.resources.length = numResources h₁
  stores : ∀ dev idx, .resource dev idx ∈ h₂.events →
    ∃ d, h₁.devices[dev]? = some d ∧ idx < d.numResources
  /-- The bytes stored through `names` are in the block, which is used up. -/
  bytes : ∀ off, .byte off ∈ h₂.events → off < state₁.names
  names_length : h₂.names.length = state₁.names
  names_end : state₂.names = state₁.names
  /-- The strings are disjoint, whole and terminated, and all pointers are to their starts. -/
  tiles : Tiles 0 (spans h₂.events) state₁.names
  written : ∀ a b, (a, b) ∈ spans h₂.events → Written h₂ a b
  names : ∀ d ∈ h₂.devices, ∀ n ∈ d.name, h₂.NameStart n
  overrides : ∀ d ∈ h₂.devices, ∀ off ∈ d.driverOverride, h₂.Start off
  resource_names : ∀ r ∈ h₂.resources, ∃ res, r = some res ∧ h₂.NameStart res.name

theorem filter_marked {roots : List UInt8} : ∀ {marks : List Bool} {k : Nat},
    Marked roots k marks →
    (List.range' k marks.length).filter (fun i => roots[i]? ≠ some 0) = marked k marks
  | [], _, _ => rfl
  | b :: marks, k, h => by
    obtain ⟨hb, hm⟩ := marked_cons.mp h
    rw [List.length_cons, List.range'_succ, List.filter_cons, hb, filter_marked hm, marked]
    cases b <;> rfl

theorem rootGroups_eq {state : ParserState} {h : Heap} {ms : List Bool}
    (hlen : state.roots = ms.length) (hms : h.roots.take state.roots = ms.map mark) :
    rootGroups state h = marked 0 ms := by
  unfold rootGroups
  rw [hlen, List.range_eq_range']
  exact filter_marked (marked_of_take hms)

theorem Models.opened {pass : Nat} {L : Layout} {T : Table} {names : Nat} {h : Heap}
    (hm : Models pass L T names h) :
    opened h = (T.devices.map DeviceSpec.group).mapIdx fun i group => (i, group) := by
  refine List.ext_getElem? fun i => ?_
  rw [Config.opened, hm.openings, Table.openings, List.getElem?_map, List.getElem?_mapIdx,
    List.getElem?_mapIdx, List.getElem?_map, Option.map_map, Option.map_map]
  rfl

theorem mem_spansFrom : ∀ {ss : List (List (Option UInt8))} {off a b : Nat},
    (a, b) ∈ spansFrom off ss ↔ ∃ as cells bs, ss = as ++ cells :: bs ∧
      a = off + as.flatten.length ∧ b = a + cells.length
  | [], off, a, b => by
    simp [spansFrom]
  | s :: ss, off, a, b => by
    rw [spansFrom, List.mem_cons, mem_spansFrom]
    constructor
    · rintro (h | ⟨as, cells, bs, rfl, ha, hb⟩)
      · obtain ⟨rfl, rfl⟩ := Prod.mk.inj h
        exact ⟨[], s, ss, rfl, rfl, rfl⟩
      · refine ⟨s :: as, cells, bs, rfl, ?_, hb⟩
        rw [ha, List.flatten_cons, List.length_append, Nat.add_assoc]
    · rintro ⟨as, cells, bs, hss, ha, hb⟩
      cases as with
      | nil =>
        obtain ⟨rfl, rfl⟩ := List.cons.inj hss
        exact Or.inl (by rw [hb, ha]; rfl)
      | cons s' as =>
        obtain ⟨rfl, rfl⟩ := List.cons.inj hss
        refine Or.inr ⟨as, cells, bs, rfl, ?_, hb⟩
        rw [ha, List.flatten_cons, List.length_append, Nat.add_assoc]

theorem tiles_spansFrom : ∀ {ss : List (List (Option UInt8))} (off : Nat),
    (∀ cells ∈ ss, cells ≠ []) → Tiles off (spansFrom off ss) (off + ss.flatten.length)
  | [], _, _ => rfl
  | s :: ss, off, h => by
    refine ⟨rfl, Nat.lt_add_of_pos_right ?_, ?_⟩
    · exact List.length_pos_iff.mpr (h s List.mem_cons_self)
    · rw [List.flatten_cons, List.length_append, ← Nat.add_assoc]
      exact tiles_spansFrom _ fun c hc => h c (List.mem_cons_of_mem _ hc)

/-- The string of a span is in memory. -/
theorem Models.written {L : Layout} {T : Table} {names : Nat} {h : Heap}
    (hm : Models 2 L T names h) (hfull : T.size = L.size) (ht : T.Terminated) {a b : Nat}
    (hab : (a, b) ∈ Config.spans h.events) : Written h a b := by
  rw [hm.spans, mem_spansFrom] at hab
  obtain ⟨as, cells, bs, hs, ha, rfl⟩ := hab
  obtain ⟨str, rfl⟩ := ht cells (by rw [hs]; exact List.mem_append_right _ List.mem_cons_self)
  rw [Nat.zero_add] at ha
  have hnames : h.names = as.flatten ++ (((str ++ [0]).map some) ++ bs.flatten) := by
    rw [hm.filled.memory (Nat.le_refl 2), filled_full hfull, Table.image, hs, List.flatten_append,
      List.flatten_cons]
  have hget : ∀ i, a ≤ i → i < a + ((str ++ [0]).map some).length →
      h.names[i]? = ((str ++ [0]).map some)[i - a]? := by
    intro i h1 h2
    rw [hnames, List.getElem?_append_right (ha ▸ h1), ← ha, List.getElem?_append_left (by omega)]
  constructor
  · intro i h1 h2
    have hlt : i - a < (str ++ [0]).length := by
      rw [List.length_map] at h2
      omega
    rw [hget i h1 h2, List.getElem?_map, List.getElem?_eq_getElem hlt]
    exact ⟨_, rfl⟩
  · have hlen : ((str ++ [0]).map some).length = str.length + 1 := by
      rw [List.length_map, List.length_append, List.length_singleton]
    rw [hlen] at hget ⊢
    rw [hget _ (by omega) (by omega), show a + (str.length + 1) - 1 - a = str.length by omega,
      List.getElem?_map, List.getElem?_append_right (Nat.le_refl _), Nat.sub_self]
    rfl

theorem Models.start {pass : Nat} {L : Layout} {T : Table} {names : Nat} {h : Heap}
    (hm : Models pass L T names h) {off : Nat} (ho : Points T.strings off) : h.Start off := by
  obtain ⟨as, cells, bs, hs, rfl⟩ := ho
  exact ⟨_, hm.spans ▸ mem_spansFrom.mpr ⟨as, cells, bs, hs, (Nat.zero_add _).symm, rfl⟩⟩

theorem Models.nameStart {pass : Nat} {L : Layout} {T : Table} {names : Nat} {h : Heap}
    (hm : Models pass L T names h) {n : Name} (hn : n.Points T.strings) : h.NameStart n := by
  cases n with
  | dot => trivial
  | names off => exact hm.start hn

/-- Every resource of a block belongs to a slice. -/
theorem exists_slice : ∀ {l : List Nat} {j : Nat}, j < l.sum →
    ∃ i k, i < l.length ∧ k < l.getD i 0 ∧ j = (l.take i).sum + k
  | [], _, h => absurd h (Nat.not_lt_zero _)
  | n :: l, j, h => by
    rcases Nat.lt_or_ge j n with hj | hj
    · exact ⟨0, j, Nat.succ_pos _, hj, (Nat.zero_add _).symm⟩
    · rw [List.sum_cons] at h
      obtain ⟨i, k, hi, hk, hjk⟩ := exists_slice (l := l) (j := j - n) (by omega)
      refine ⟨i + 1, k, Nat.succ_lt_succ hi, hk, ?_⟩
      rw [List.take_succ_cons, List.sum_cons]
      omega

/-- **Pass 2 agrees with pass 1.** On a config string shorter than 65536 bytes, pass 2 returns
whenever pass 1 does, with the same devices, counts and names, and stays inside the blocks that
were sized from pass 1. -/
theorem passes_agree (config : Text) (hlen : config.length < 65536)
    {state₀ state₁ : ParserState} {h₀ h₁ : Heap} (e₀ : detectRoots config = .ok (state₀, h₀))
    (e₁ : countResources config state₀ h₀ = .ok (state₁, h₁)) :
    ∃ state₂ h₂, writeResources config state₁ h₁ = .ok (state₂, h₂) ∧
      PassesAgree state₀ h₀ state₁ h₁ state₂ h₂ := by
  obtain ⟨hsize, hvals⟩ := groupCalls_size config ⟨0, 0, ⟨[], []⟩⟩ hlen
  obtain ⟨hroots₀, hmarks⟩ := detectRoots_marked e₀
  obtain ⟨hm₁, hr₁, hd₁, hsafe⟩ := countResources_models hmarks e₁
  obtain ⟨⟨state₂, h₂⟩, e₂, hm₂, hr₂, hd₂⟩ := writeResources_models hsize hm₁
    (by rw [hr₁]; exact marked_of_take hmarks) hsafe
  refine ⟨state₂, h₂, e₂, ?_⟩
  have hgroups := rootGroups_eq hroots₀ hmarks
  have hnum : numDevices state₀ h₀ = (table config).devices.length := by
    rw [numDevices, hmarks, ← marked_length 0, table_devices_length]
  have hcounts := hm₁.listed.counts rfl
  have hnames : state₁.names = (table config).size := hm₁.filled.names
  have hpts : (table config).Pointed := applyAll_pointed (calls config)
    (T := {}) fun _ h => (List.not_mem_nil h).elim
  have hterm : (table config).Terminated := applyAll_terminated (calls config)
    (T := {}) (fun _ h => (List.not_mem_nil h).elim) hvals
  have hdev₁ : ∀ {i : Nat}, i < (table config).devices.length → ∃ d, h₁.devices[i]? = some d ∧
      d.numResources = (table config).counts.getD i 0 := by
    intro i hi
    obtain ⟨s, hs⟩ : ∃ s, (table config).devices[i]? = some s := ⟨_, List.getElem?_eq_getElem hi⟩
    exact ⟨_, hm₁.listed.opened i s hs, (counts_getD hs).symm⟩
  have hdev₂ : ∀ d ∈ h₂.devices, ∃ (i : Nat) (s : DeviceSpec), (table config).devices[i]? = some s ∧
      d = s.device ((writeLayout (table config)).base i) (s.override) := by
    intro d hd
    obtain ⟨i, hi⟩ := List.mem_iff_getElem?.mp hd
    have hi : h₂.devices[i]? = some d := hi
    rw [hm₂.listed.devices rfl] at hi
    obtain ⟨s, hs, rfl⟩ := Option.map_eq_some_iff.mp hi
    refine ⟨i, s, hs, ?_⟩
    show s.device _ ((table config).devices[i]?.bind DeviceSpec.override) = _
    rw [hs]
    rfl
  refine
    { opened₁ := by rw [hm₁.opened, table_groups, hgroups]
      opened₂ := hm₂.opened.trans hm₁.opened.symm
      roots := ⟨hr₁, hr₂.trans hr₁⟩
      devices := ?_
      counts := ?_
      counts_end := (hm₂.listed.counts rfl).trans hcounts.symm
      slices := ?_
      resources_length := by rw [hm₂.slotted.total, numResources, hcounts]; rfl
      stores := ?_
      bytes := ?_
      names_length := ?_
      names_end := hm₂.filled.names.trans hnames.symm
      tiles := ?_
      written := fun a b hab => hm₂.written rfl hterm hab
      names := ?_
      overrides := ?_
      resource_names := ?_ }
  · rw [hnum, hgroups, ← table_devices_length]
    exact ⟨hm₂.listed.count, hd₁, hd₂, rfl⟩
  · intro dev n he
    obtain ⟨hlt, hle⟩ := hm₂.filled.within (Nat.le_refl 2) _ he
    obtain ⟨d, hd, hn⟩ := hdev₁ hlt
    exact ⟨d, hd, hn ▸ hle⟩
  · intro dev d hd
    have hd : h₂.devices[dev]? = some d := hd
    rw [hm₂.listed.devices rfl] at hd
    obtain ⟨s, hs, rfl⟩ := Option.map_eq_some_iff.mp hd
    rw [hcounts]
    exact if_pos (List.getElem?_eq_some_iff.mp hs).1
  · intro dev idx he
    have hlt : idx < (table config).counts.getD dev 0 := hm₂.filled.within (Nat.le_refl 2) _ he
    have hdev : dev < (table config).devices.length := by
      by_contra hge
      rw [List.getD_eq_getElem?_getD, List.getElem?_eq_none] at hlt
      · exact absurd hlt (Nat.not_lt_zero _)
      · rw [Table.counts, List.length_map]
        omega
    obtain ⟨d, hd, hn⟩ := hdev₁ hdev
    exact ⟨d, hd, hn ▸ hlt⟩
  · intro off he
    rw [hnames]
    exact hm₂.filled.within (Nat.le_refl 2) _ he
  · rw [hnames, hm₂.filled.memory (Nat.le_refl 2)]
    exact filled_length (Nat.le_refl _)
  · rw [hm₂.spans, hnames]
    have := tiles_spansFrom 0 fun cells hc => by
      obtain ⟨bs, rfl⟩ := hterm cells hc
      simp
    rwa [Nat.zero_add] at this
  · intro d hd n hn
    obtain ⟨i, s, hs, rfl⟩ := hdev₂ d hd
    cases hn
    exact hm₂.nameStart (hpts s (List.mem_of_getElem? hs)).name
  · intro d hd off ho
    obtain ⟨i, s, hs, rfl⟩ := hdev₂ d hd
    have ho : off ∈ s.override.or s.override := ho
    rw [Option.or_self] at ho
    exact hm₂.start ((hpts s (List.mem_of_getElem? hs)).override off ho)
  · intro r hr
    obtain ⟨j, hj⟩ := List.mem_iff_getElem?.mp hr
    have hj : h₂.resources[j]? = some r := hj
    have hlt : j < (table config).counts.sum := by
      have := (List.getElem?_eq_some_iff.mp hj).1
      rwa [hm₂.slotted.total] at this
    obtain ⟨i, k, hi, hk, rfl⟩ := exists_slice hlt
    rw [Table.counts, List.length_map] at hi
    obtain ⟨s, hs⟩ : ∃ s, (table config).devices[i]? = some s := ⟨_, List.getElem?_eq_getElem hi⟩
    rw [counts_getD hs] at hk
    have hres := List.getElem?_eq_getElem hk
    have hslot := hm₂.slotted.slots i s _ hs (if_pos hi) k _ hres
    refine ⟨_, Option.some.inj (hj.symm.trans hslot), ?_⟩
    exact hm₂.nameStart ((hpts s (List.mem_of_getElem? hs)).resources _ (List.getElem_mem hk))

/-- A UART below a bus, with an address range and an interrupt. -/
def uartConfig : Text :=
  cstring [98, 123, 117, 123, 105, 110, 116, 101, 114, 102, 97, 99, 101, 32, 34, 117, 34, 59, 109, 101,
    109, 123, 48, 120, 52, 48, 32, 48, 120, 52, 102, 59, 125, 59, 105, 114, 113, 32, 51, 59, 125, 59,
    125]

theorem passes_agree_uart : ∃ r₀ r₁ r₂, detectRoots uartConfig = .ok r₀ ∧
    countResources uartConfig r₀.1 r₀.2 = .ok r₁ ∧ writeResources uartConfig r₁.1 r₁.2 = .ok r₂ ∧
    PassesAgree r₀.1 r₀.2 r₁.1 r₁.2 r₂.1 r₂.2 ∧ r₂.2.devices.length = 1 := by
  have hrun : (match detectRoots uartConfig with
      | .ok r₀ => match countResources uartConfig r₀.1 r₀.2 with
        | .ok _ => numDevices r₀.1 r₀.2 = 1
        | .error _ => false
      | .error _ => false) = true := by decide +kernel
  cases e₀ : detectRoots uartConfig with
  | error e =>
    rw [e₀] at hrun
    cases hrun
  | ok r₀ =>
    rw [e₀] at hrun
    cases e₁ : countResources uartConfig r₀.1 r₀.2 with
    | error e =>
      simp only [e₁] at hrun
      cases hrun
    | ok r₁ =>
      simp only [e₁] at hrun
      obtain ⟨state₂, h₂, e₂, h⟩ := passes_agree uartConfig (by decide) e₀ e₁
      exact ⟨r₀, r₁, (state₂, h₂), rfl, e₁, e₂, h, h.devices.1.trans (of_decide_eq_true hrun)⟩

end LowriscLinux.Config
