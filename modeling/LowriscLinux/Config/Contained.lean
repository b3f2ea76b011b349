import LowriscLinux.Config.View

/-!
# The slice of a device is self-contained

The text a device exposes in its `config` attribute describes the device and what is in it: parsed
as a config string of its own it gives the same table, but for where it stands (`Embedded`), and so
a memory that shows the same devices (`Reparses`). The slice goes from after the `{` of the group
(`config_start`, line 468 of `arch/riscv/drivers/config.c`) to the end of the line of its last entry
(`config_end`, line 513), and the attribute has these bytes (lines 24 and 38).

* `Split`: the calls of the passes over the whole string, around those for the group of the device.
  All but the first are those of the slice, moved; the first opens the device, with the name of its
  path in the whole string, and `"."` in the slice (line 344).
* `Reparses`: a second memory, that of the slice, shows the device and those in it. `view` compares
  what a driver sees: the string of `driver_override`, the resources with their names, and the
  attribute. `storedView` compares what is stored of each string.
* A `driver_override` of more than 65536 bytes is stored up to there (line 354) and has no
  terminator of its own; the block of the names is not zeroed (line 573). What follows is then not
  decided by the text, and in the two memories may differ.

Results:
* `table_embedded`: the table of a slice, moved to its place, is part of that of the config string.
* `slice_selfContained`: on every config string on which the passes complete, the slice of a device
  shows the device and the devices in it, and of the strings that run into bytes that were never
  stored, the same bytes are stored.
* `slice_override_unstored`: but the string of a longer `interface` value than pass 2 stores ends in
  whatever the memory held.
-/

namespace LowriscLinux.Config

open LowriscLinux.Lib

/-! ## The table of a slice -/

/-- The slice ends in the text it starts in. -/
theorem Entries.closed_suffix : ∀ (g : Entries) {d : Text}, g.At (skipWhitespace d) → g.closed d <:+ d
  | .stop _, d, _ => List.suffix_refl d
  | .entry key vals rest, d, hg => by
    obtain ⟨rfl, -, -, hv, hr⟩ := hg
    rw [← skipWhitespace_skipNewline] at hr
    have h1 := rest.closed_suffix hr
    have h2 := entryEnd_scanner.suffix vals.last
    have h3 := hv.suffix.trans (afterKey_scanner.suffix (skipWhitespace d))
    exact ((h1.trans h2).trans h3).trans (skipWhitespace_suffix d)

theorem Slice.suffix {start stop : Text} (h : Slice start stop) : stop <:+ start := by
  obtain ⟨body, hat, -, rfl⟩ := h
  exact body.closed_suffix hat

/-- The table of `q` is part of that of the config string: it is found at `P`, from device `i` on. -/
structure Embedded (config q : Text) (i : Nat) (s : DeviceSpec) (P : Place) : Prop where
  start : s.start = q ++ P.rest
  stop : s.stop = P.rest
  strings : ((table q).lift P).strings <+: (table config).strings
  devices : ∀ k < (table q).devices.length,
    (table config).devices[i + k]? = (table q).devices[k]?.map (DeviceSpec.lift P)
  first : ∃ x, (table q).devices[0]? = some x ∧ x.start = q
  nested : ∀ (k : Nat) (x : DeviceSpec), 0 < k → (table q).devices[k]? = some x →
    x.name ≠ .dot ∧ 0 < x.start.length ∧ x.start.length < q.length
  safe : (∀ c ∈ calls config, c.Safe) → ∀ c ∈ calls q, c.Safe
  room : (marks q).length ≤ q.length
  outside : ∀ (j : Nat) (x : DeviceSpec), (table config).devices[j]? = some x →
    j < i ∧ s.start.length < x.start.length ∨
    i + (table q).devices.length ≤ j ∧ x.start.length < s.stop.length ∨
    i ≤ j ∧ j < i + (table q).devices.length

/-- The devices of a table start where the calls opened them. -/
theorem apply_starts (c : Call) (T : Table) :
    (c.apply T).devices.map DeviceSpec.start = T.devices.map DeviceSpec.start ++ starts [c] := by
  cases hc : c.start? with
  | some p =>
    cases c with
    | device dev group flags parent config => exact List.map_append
    | _ => cases hc
  | none =>
    have hg : c.group? = none := by
      cases c with
      | device => cases hc
      | _ => rfl
    have hlen := apply_devices_length c T
    rw [hg] at hlen
    have hs : starts [c] = [] := by simp [starts, hc]
    rw [hs, List.append_nil]
    refine List.ext_getElem? fun j => ?_
    rw [List.getElem?_map, List.getElem?_map]
    cases hx : T.devices[j]? with
    | some x =>
      obtain ⟨x', hx', hgrow⟩ := (apply_grows c T).devices j x hx
      rw [hx']
      exact congrArg some hgrow.start
    | none =>
      rw [List.getElem?_eq_none_iff] at hx
      rw [List.getElem?_eq_none (by rw [hlen]; exact hx)]

theorem applyAll_starts : ∀ (cs : List Call) (T : Table),
    (applyAll cs T).devices.map DeviceSpec.start = T.devices.map DeviceSpec.start ++ starts cs
  | [], T => (List.append_nil _).symm
  | c :: cs, T => by
    have h : starts (c :: cs) = starts [c] ++ starts cs := List.filterMap_append (l := [c])
    rw [applyAll_cons, applyAll_starts cs, apply_starts, List.append_assoc, h]

theorem table_starts (config : Text) :
    (table config).devices.map DeviceSpec.start = starts (calls config) := applyAll_starts _ {}

/-- The devices of a config string start one after the other. -/
theorem calls_starts (config : Text) :
    Starts (config.length + 1) (scan config).last.length (calls config) :=
  EntriesStart.group (scan config).calls_start ⟨[], 0, none⟩ ⟨0, 0, ⟨[], []⟩⟩ (scan_at config)
    (Nat.lt_succ_self _)

/-- The key a walk starts with is never looked at. -/
theorem Entries.calls_key (g : Entries) (root : Bool) (c : Ctx) (roots devices : Nat) (k k' : Key) :
    g.calls root c ⟨roots, devices, k⟩ = g.calls root c ⟨roots, devices, k'⟩ := by
  cases g <;> rfl

/-- The key of a device's `interface` entry is in its text. -/
theorem Entries.At.openBraces_lt : ∀ {g : Entries} {s : Text}, g.At s → g.isRoot = true →
    openBraces s < s.length
  | .entry key vals rest, s, hg, hr => by
    obtain ⟨rfl, h0, -, hv, hrest⟩ := hg
    by_cases hi : isInterface key = true
    · have hb : between key (skipKey key) = interfaceKey := of_decide_eq_true hi
      cases key with
      | nil => exact absurd rfl h0
      | cons c t =>
        -- the key starts with an `i`
        have hc : c.val ≠ openBrace := by
          intro hc
          have hh := congrArg List.head? hb
          rw [between, List.head?_map, List.head?_take] at hh
          split_ifs at hh
          · exact absurd hh (by decide)
          · rw [List.head?_cons, Option.map_some, hc] at hh
            exact absurd hh (by decide)
        have hle : openBraces t ≤ t.length := List.countP_le_length
        have heq : openBraces (c :: t) = openBraces t :=
          List.countP_cons_of_neg (by simpa using hc)
        rw [heq, List.length_cons]
        omega
    · have hr : rest.isRoot = true := ((Bool.or_eq_true _ _).mp hr).resolve_left hi
      have hlt := hrest.openBraces_lt hr
      obtain ⟨t, ht⟩ := ((afterEntry_scanner.suffix vals.last).trans hv.suffix).trans
        (afterKey_scanner.suffix key)
      have ht : t ++ skipWhitespace (closeEntry vals.last) = key := ht
      have hle : openBraces t ≤ t.length := List.countP_le_length
      rw [← ht, openBraces, List.countP_append, List.length_append]
      exact Nat.add_lt_add_of_le_of_lt hle hlt

/-- There is a byte for every group, and for the text itself. -/
theorem marks_room {q : Text} (hr : (scan q).isRoot = true) : (marks q).length ≤ q.length := by
  have h1 := (scan_at q).nested_le
  have h2 := (scan_at q).openBraces_lt hr
  have h3 := (skipWhitespace_suffix q).length_le
  rw [marks, List.length_cons]
  omega

/-- The calls of a config string around those for a device: `cs` are the calls of its slice `q`,
but for the one that opens it. -/
structure Split (config q : Text) (i : Nat) (s : DeviceSpec) (P : Place) (parent : List Key)
    (pre cs post : List Call) : Prop where
  calls : calls config =
    pre ++ (.device i P.group s.flags parent s.start :: (cs.map (Call.lift P) ++ post))
  slice : Config.calls q = .device 0 0 0 [] q :: cs
  rest : P.rest = s.stop
  before : P.before = (applyAll pre {}).addPath parent
  name : P.name = (applyAll pre {}).pathName parent
  reads : ∀ c ∈ cs, c.Reads P
  later : ∀ c ∈ post, ∀ t ∈ c.target, t < i ∨ i + (table q).devices.length ≤ t
  beyond : ∀ p ∈ starts post, p.length < s.stop.length
  room : (marks q).length ≤ q.length

theorem Split.dev {config q : Text} {i : Nat} {s : DeviceSpec} {P : Place} {parent : List Key}
    {pre cs post : List Call} (h : Split config q i s P parent pre cs post) : P.dev = i := by
  have hord := (calls_opens config).ordered
  rw [h.calls] at hord
  rw [Place.dev, h.before, Table.addPath_devices]
  exact (device_number hord).symm

theorem starts_lift {P : Place} (cs : List Call) :
    starts (cs.map (Call.lift P)) = (starts cs).map (· ++ P.rest) := by
  induction cs with
  | nil => rfl
  | cons c cs ih =>
    rw [List.map_cons, starts, List.filterMap_cons, starts, List.filterMap_cons]
    cases c with
    | device dev group flags parent config => exact congrArg (_ :: ·) ih
    | _ => exact ih

/-- A device that a call for a slice opens has a name of its own. -/
theorem apply_named {P : Place} {c : Call} (hc : c.Reads P) {T : Table} {k : Nat} {x : DeviceSpec}
    (hx : (c.apply T).devices[k]? = some x) :
    (∃ x₀, T.devices[k]? = some x₀ ∧ x.name = x₀.name) ∨ x.name ≠ .dot := by
  rcases Nat.lt_or_ge k T.devices.length with hk | hk
  · have hx₀ := List.getElem?_eq_getElem hk
    obtain ⟨x', hx', hgrow⟩ := (apply_grows c T).devices k _ hx₀
    cases hx.symm.trans hx'
    exact Or.inl ⟨_, hx₀, hgrow.name⟩
  · have hlen := (List.getElem?_eq_some_iff.mp hx).1
    rw [apply_devices_length] at hlen
    cases c with
    | device dev group flags parent config =>
      have hx : (T.devices ++ [_])[k]? = some x := hx
      rw [List.getElem?_append_right hk] at hx
      rw [List.mem_singleton.mp (List.mem_of_getElem? hx)]
      cases parent with
      | nil => exact absurd rfl hc
      | cons key up => exact Or.inr Name.noConfusion
    | _ => exact absurd hlen (Nat.not_lt.mpr hk)

theorem applyAll_named {P : Place} : ∀ (cs : List Call), (∀ c ∈ cs, c.Reads P) → ∀ {T : Table}
    {k : Nat} {x : DeviceSpec}, (applyAll cs T).devices[k]? = some x →
    (∃ x₀, T.devices[k]? = some x₀ ∧ x.name = x₀.name) ∨ x.name ≠ .dot
  | [], _, _, _, x, hx => Or.inl ⟨x, hx, rfl⟩
  | c :: cs, h, T, k, x, hx => by
    rcases applyAll_named cs (fun c hc => h c (List.mem_cons_of_mem _ hc)) hx with ⟨x₁, hx₁, hn⟩ | hn
    · rcases apply_named (h c List.mem_cons_self) hx₁ with ⟨x₀, hx₀, hn'⟩ | hn'
      · exact Or.inl ⟨x₀, hx₀, hn.trans hn'⟩
      · exact Or.inr (hn ▸ hn')
    · exact Or.inr hn

theorem openGroups_lift {P : Place} (cs : List Call) :
    (openGroups (cs.map (Call.lift P))).length = (openGroups cs).length := by
  induction cs with
  | nil => rfl
  | cons c cs ih =>
    rw [List.map_cons, openGroups, List.filterMap_cons, openGroups, List.filterMap_cons]
    cases c with
    | device dev group flags parent config => exact congrArg (· + 1) ih
    | _ => exact ih

theorem calls_split {config q : Text} {i : Nat} {s : DeviceSpec}
    (hs : (table config).devices[i]? = some s) (hflags : s.flags = 0) (hq : s.start = q ++ s.stop) :
    ∃ P parent pre cs post, Split config q i s P parent pre cs post := by
  obtain ⟨body, hloc, hstop⟩ := table_device hs
  obtain ⟨pre, post, group, parent, key, heq, hat, hroot, hlater, hbeyond, -⟩ := hloc
  have hord := (calls_opens config).ordered
  rw [heq, List.cons_append] at hord
  have hi := device_number hord
  -- the tree of the slice
  have hend := body.last_le_closed hat
  rw [← hstop] at hend
  rw [hq] at hat
  obtain ⟨body', hat', -, hfits, hbody⟩ := hat.cut_slice (e := s.stop) (by rw [← hq]; exact hstop.symm)
  obtain rfl := hat'.unique (scan_at q)
  let P : Place := ⟨s.stop, group, (applyAll pre {}).addPath parent, (applyAll pre {}).pathName parent⟩
  have hdev : P.dev = i := by
    rw [Place.dev, Table.addPath_devices]
    exact hi.symm
  have hL : EntriesLift P (scan q) := Entries.calls_lift hat' hfits
  have hroot' : (scan q).isRoot = true := by
    rw [← hL.isRoot, ← Entries.withLast_isRoot body.last, ← hroot]
    exact congrArg Entries.isRoot hbody.symm
  -- the calls for the slice
  let cs := (scan q).calls true ⟨[], 0, some 0⟩ ⟨1, 1, ⟨[], []⟩⟩
  have hslice : calls q = .device 0 0 0 [] q :: cs := by
    unfold calls groupCalls
    rw [hroot']
    rfl
  have hcs : body.calls true ⟨[], s.flags, some i⟩ ⟨group + 1, i + 1, key⟩ = cs.map (Call.lift P) := by
    have h := hL.calls true ⟨[], 0, some 0⟩ ⟨1, 1, ⟨[], []⟩⟩
    rw [hbody, Entries.withLast_calls, ← h, Ctx.lift, Walk.lift, liftTarget, hflags, hdev,
      Nat.add_comm group, Nat.add_comm i]
    simp only [Option.map_some, Nat.zero_add]
    exact Entries.calls_key _ _ _ _ _ _ _
  have hcount : (table q).devices.length = 1 + body.inner (group + 1) := by
    have ho := (body.calls_opens true ⟨[], s.flags, some i⟩ ⟨group + 1, i + 1, key⟩
      fun t h => by cases h; exact Nat.lt_succ_self _).groups
    have hg := congrArg List.length (applyAll_groups (calls q) {})
    rw [List.length_map, List.length_append, List.length_map, hslice] at hg
    rw [hcs] at ho
    have hlen : (openGroups cs).length = (openGroups (cs.map (Call.lift P))).length :=
      (openGroups_lift cs).symm
    rw [table, hslice, hg, Entries.inner, ← ho, ← hlen]
    simp only [openGroups, List.filterMap_cons, Call.group?, List.length_cons, List.length_nil]
    omega
  refine ⟨P, parent, pre, cs, post, ?_, hslice, rfl, rfl, rfl, hL.reads _ _ _, ?_, ?_, marks_room hroot'⟩
  · rw [heq, hcs]
    rfl
  · rw [hcount, ← Nat.add_assoc]
    exact hlater
  · exact fun p hp => Nat.lt_of_lt_of_le (hbeyond p hp) hend

section Split

variable {config q : Text} {i : Nat} {s : DeviceSpec} {P : Place} {parent : List Key}
  {pre cs post : List Call}

/-- The table after the calls for the device is the table of the slice, moved. -/
theorem Split.table (h : Split config q i s P parent pre cs post) (hflags : s.flags = 0)
    (hq : s.start = q ++ s.stop) :
    Config.table config = applyAll post ((Config.table q).lift P) := by
  have hopen : (Call.device i P.group s.flags parent s.start).apply (applyAll pre {}) =
      ((Call.device 0 0 0 [] q).apply {}).lift P := by
    refine congrArg₂ Table.mk ?_ ?_
    · show ((applyAll pre {}).addPath parent).strings = P.before.strings ++ []
      rw [h.before, List.append_nil]
    · show (applyAll pre {}).devices ++ [_] = P.before.devices ++ [_]
      rw [h.before, Table.addPath_devices, ← h.name, hflags, hq, ← h.rest]
      simp [DeviceSpec.lift, Table.pathName]
  have hslice : Config.table q = applyAll cs ((Call.device 0 0 0 [] q).apply {}) := by
    rw [Config.table, h.slice]
    rfl
  rw [Config.table, h.calls, applyAll_append, applyAll_cons, applyAll_append, hopen,
    applyAll_lift cs h.reads, ← hslice]

theorem Split.embedded (h : Split config q i s P parent pre cs post) (hflags : s.flags = 0)
    (hq : s.start = q ++ s.stop) : Embedded config q i s P where
  start := h.rest ▸ hq
  stop := h.rest.symm
  strings := by
    rw [h.table hflags hq]
    exact (applyAll_grows post _).strings
  devices k hk := by
    have hd : P.before.devices.length = i := h.dev
    have hx : ((Config.table q).lift P).devices[i + k]? =
        (Config.table q).devices[k]?.map (DeviceSpec.lift P) := by
      rw [Table.lift, List.getElem?_append_right (hd ▸ Nat.le_add_right i k), hd,
        Nat.add_sub_cancel_left, List.getElem?_map]
    rw [List.getElem?_eq_getElem hk] at hx ⊢
    rw [h.table hflags hq]
    refine applyAll_other post hx fun c hc ht => ?_
    rcases h.later c hc (i + k) ht with hlt | hge <;> omega
  first := by
    rw [Config.table, h.slice]
    obtain ⟨x, hx, hgrow⟩ := (applyAll_grows cs ((Call.device 0 0 0 [] q).apply {})).devices 0 _ rfl
    exact ⟨x, hx, hgrow.start⟩
  nested k x hk hx := by
    have hget : (starts (Config.calls q))[k]? = some x.start := by
      rw [← table_starts, List.getElem?_map, hx, Option.map_some]
    refine ⟨?_, ((calls_starts q).range _ (List.mem_of_getElem? hget)).2.1, ?_⟩
    · rw [Config.table, h.slice] at hx
      rcases applyAll_named cs h.reads hx with ⟨x₀, hx₀, -⟩ | hne
      · have := (List.getElem?_eq_some_iff.mp hx₀).1
        exact absurd this (Nat.not_lt.mpr hk)
      · exact hne
    · have hpw := (calls_starts q).later
      have hcons : starts (Config.calls q) = q :: starts cs := by
        rw [h.slice]
        rfl
      obtain ⟨j, rfl⟩ : ∃ j, k = j + 1 := ⟨k - 1, by omega⟩
      rw [hcons] at hget hpw
      exact (List.pairwise_cons.mp hpw).1 _ (List.mem_of_getElem? hget)
  safe hsafe c hc := by
    rw [h.slice] at hc
    rcases List.mem_cons.mp hc with rfl | hc
    · trivial
    · refine Call.Safe.of_lift (h.reads c hc) (hsafe _ ?_)
      rw [h.calls]
      refine List.mem_append_right _ (List.mem_cons_of_mem _ (List.mem_append_left _ ?_))
      exact List.mem_map_of_mem hc
  room := h.room
  outside j x hx := by
    have hd : P.before.devices.length = i := h.dev
    have hpre : (starts pre).length = i := by
      rw [← hd, h.before, Table.addPath_devices, ← List.length_map DeviceSpec.start,
        applyAll_starts]
      rfl
    have hmid : (s.start :: starts (cs.map (Call.lift P))).length = (Config.table q).devices.length := by
      rw [← List.length_map DeviceSpec.start, table_starts, h.slice, List.length_cons, starts_lift,
        List.length_map]
      rfl
    have hall : starts (Config.calls config) =
        starts pre ++ ((s.start :: starts (cs.map (Call.lift P))) ++ starts post) := by
      rw [h.calls, starts, List.filterMap_append, List.filterMap_cons, Call.start?,
        List.filterMap_append]
      rfl
    have hget : (starts (Config.calls config))[j]? = some x.start := by
      rw [← table_starts, List.getElem?_map, hx, Option.map_some]
    have hpw := (calls_starts config).later
    rw [hall] at hget hpw
    rcases Nat.lt_or_ge j i with hj | hj
    · rw [List.getElem?_append_left (hpre ▸ hj)] at hget
      exact Or.inl ⟨hj, (List.pairwise_append.mp hpw).2.2 _ (List.mem_of_getElem? hget) _
        List.mem_cons_self⟩
    · rcases Nat.lt_or_ge j (i + (Config.table q).devices.length) with hj' | hj'
      · exact Or.inr (Or.inr ⟨hj, hj'⟩)
      · rw [List.getElem?_append_right (hpre ▸ hj), List.getElem?_append_right (by omega)] at hget
        exact Or.inr (Or.inl ⟨hj', h.beyond _ (List.mem_of_getElem? hget)⟩)

end Split

theorem table_embedded {config q : Text} {i : Nat} {s : DeviceSpec}
    (hs : (table config).devices[i]? = some s) (hflags : s.flags = 0) (hq : s.start = q ++ s.stop) :
    ∃ P : Place, Embedded config q i s P := by
  obtain ⟨P, parent, pre, cs, post, h⟩ := calls_split hs hflags hq
  exact ⟨P, h.embedded hflags hq⟩

/-! ## The device and its slice -/

/-- A memory shows `d` and what is in its slice: its first device looks like `d`, and the others
have the names and look like the devices in the slice of `d`, in the same order. Of a string that
was not stored whole the bytes that were stored are the same. -/
def Reparses (h : Heap) (d : PlatformDevice) (h' : Heap) : Prop :=
  ∃ d' ds, h'.devices = d' :: ds ∧ h'.view d' = h.view d ∧ h'.storedView d' = h.storedView d ∧
    ds.map (fun x => (x.name.map h'.name, h'.view x)) =
      (h.nested d).map (fun x => (x.name.map h.name, h.view x)) ∧
    ds.map (fun x => (x.name.map h'.storedName, h'.storedView x)) =
      (h.nested d).map fun x => (x.name.map h.storedName, h.storedView x)

theorem Table.ended (config : Text) : (table config).Ended :=
  applyAll_ended (calls config) (T := {}) fun _ h => (List.not_mem_nil h).elim

theorem Table.pointed (config : Text) : (table config).Pointed :=
  applyAll_pointed (calls config) (T := {}) fun _ h => (List.not_mem_nil h).elim

/-- A device opened by a group without flags. -/
theorem Models.flags {pass : Nat} {L : Layout} {T : Table} {names : Nat} {h : Heap}
    (hm : Models pass L T names h) {i group flags : Nat} (he : .device i group flags ∈ h.events)
    {s : DeviceSpec} (hs : T.devices[i]? = some s) : s.flags = flags := by
  have hmem : (i, group, flags) ∈ Config.openings h.events := List.mem_filterMap.mpr ⟨_, he, rfl⟩
  rw [hm.openings, Table.openings] at hmem
  obtain ⟨j, hj⟩ := List.mem_iff_getElem?.mp hmem
  rw [List.getElem?_mapIdx] at hj
  obtain ⟨x, hx, heq⟩ := Option.map_eq_some_iff.mp hj
  obtain ⟨rfl, h2⟩ := Prod.mk.inj heq
  cases hs.symm.trans hx
  exact (Prod.mk.inj h2).2

section Embedded

variable {config q : Text} {i : Nat} {s : DeviceSpec} {P : Place}

theorem Embedded.size_le (h : Embedded config q i s P) : (table q).size ≤ (table config).size := by
  obtain ⟨more, hmore⟩ := h.strings
  rw [Table.size, Table.size, Table.image, Table.image, ← hmore, Table.lift, List.flatten_append,
    List.flatten_append, List.length_append, List.length_append]
  omega

/-- The devices in the slice are those of the table of the slice. -/
theorem Embedded.inside (h : Embedded config q i s P) {j : Nat} {x : DeviceSpec}
    (hx : (table config).devices[j]? = some x) :
    (s.stop.length < x.start.length ∧ x.start.length < s.start.length) ↔
      i < j ∧ j < i + (table q).devices.length := by
  have hlen : s.start.length = q.length + s.stop.length := by
    rw [h.start, List.length_append, h.stop]
  rcases h.outside j x hx with ⟨hj, hlt⟩ | ⟨hj, hlt⟩ | ⟨hj, hj'⟩
  · omega
  · omega
  · obtain ⟨k, rfl⟩ : ∃ k, j = i + k := ⟨j - i, by omega⟩
    have hk : k < (table q).devices.length := by omega
    rw [h.devices k hk] at hx
    obtain ⟨y, hy, rfl⟩ := Option.map_eq_some_iff.mp hx
    have hstart : (y.lift P).start.length = y.start.length + s.stop.length := by
      rw [h.stop]
      exact List.length_append
    rw [hstart]
    rcases Nat.eq_zero_or_pos k with rfl | hpos
    · obtain ⟨z, hz, hq⟩ := h.first
      cases hy.symm.trans hz
      rw [hq]
      omega
    · have := h.nested k y hpos hy
      omega

end Embedded

/-- On a config string shorter than 65536 bytes every `driver_override` is a whole string. -/
theorem Models.overrides {config : Text} (hlen : config.length < 65536) {names : Nat} {h : Heap}
    (hm : Models 2 (writeLayout (table config)) (table config) names h) {x : PlatformDevice}
    (hx : x ∈ h.devices) {off : Nat} (ho : off ∈ x.driverOverride) : ∃ str, h.string off = some str := by
  obtain ⟨-, hvals⟩ := groupCalls_size config ⟨0, 0, ⟨[], []⟩⟩ hlen
  have hterm : (table config).Terminated := applyAll_terminated (calls config)
    (T := {}) (fun _ h => (List.not_mem_nil h).elim) hvals
  obtain ⟨j, hj⟩ := List.mem_iff_getElem?.mp hx
  have hj : h.devices[j]? = some x := hj
  rw [hm.listed.devices rfl] at hj
  obtain ⟨s, hs, rfl⟩ := Option.map_eq_some_iff.mp hj
  have ho : off ∈ s.override.or ((table config).devices[j]?.bind DeviceSpec.override) := ho
  rw [hs, Option.bind_some, Option.or_self] at ho
  obtain ⟨as, cells, bs, hstr, rfl⟩ :=
    (Table.pointed config s (List.mem_of_getElem? hs)).override off ho
  obtain ⟨bytes, rfl⟩ := hterm cells (by rw [hstr]; exact List.mem_append_right _ List.mem_cons_self)
  rw [hm.string, string_eq hstr (terminated_ends bytes)]
  exact readString_terminated bytes

/-- The entries of a list whose positions lie in a range. -/
theorem filter_range {α : Type} {l : List α} {p : α → Bool} {a n : Nat}
    (h : ∀ (j : Nat) (x : α), l[j]? = some x → (p x = true ↔ a ≤ j ∧ j < a + n)) :
    l.filter p = (l.drop a).take n := by
  have hl : l = l.take a ++ ((l.drop a).take n ++ (l.drop a).drop n) := by
    rw [List.take_append_drop, List.take_append_drop]
  have h1 : (l.take a).filter p = [] := by
    refine List.filter_eq_nil_iff.mpr fun x hx hp => ?_
    obtain ⟨j, hj⟩ := List.mem_iff_getElem?.mp hx
    rw [List.getElem?_take] at hj
    split_ifs at hj with hlt
    have := (h j x hj).mp hp
    omega
  have h2 : ((l.drop a).take n).filter p = (l.drop a).take n := by
    refine List.filter_eq_self.mpr fun x hx => ?_
    obtain ⟨j, hj⟩ := List.mem_iff_getElem?.mp hx
    rw [List.getElem?_take] at hj
    split_ifs at hj with hlt
    rw [List.getElem?_drop] at hj
    exact (h (a + j) x hj).mpr (by omega)
  have h3 : ((l.drop a).drop n).filter p = [] := by
    refine List.filter_eq_nil_iff.mpr fun x hx hp => ?_
    obtain ⟨j, hj⟩ := List.mem_iff_getElem?.mp hx
    rw [List.getElem?_drop, List.getElem?_drop] at hj
    have := (h _ x hj).mp hp
    omega
  calc l.filter p = (l.take a ++ ((l.drop a).take n ++ (l.drop a).drop n)).filter p :=
        congrArg _ hl
    _ = (l.drop a).take n := by
        rw [List.filter_append, List.filter_append, h1, h2, h3, List.nil_append, List.append_nil]

/-- **A slice is self-contained.** The slice of a device whose group is not the value of an `irq`,
`bus` or `mem` key, as a config string of its own, shows the device and what is in its slice; and
the strings of a config string shorter than 65536 bytes are whole. -/
theorem slice_selfContained {config : Text} {r : ParserState × Heap}
    (e : configFindDevices config = .ok r) {i group : Nat} {d : PlatformDevice}
    (hd : r.2.devices[i]? = some d) (hflags : .device i group 0 ∈ r.2.events) :
    (∃ q r', configAttribute d = some q ∧ configFindDevices q = .ok r' ∧ Reparses r.2 d r'.2) ∧
      (config.length < 65536 → ∀ x ∈ r.2.devices, ∀ off ∈ x.driverOverride,
        ∃ str, r.2.string off = some str) := by
  obtain ⟨hm, hsize, hsafe⟩ := configFindDevices_models e
  obtain ⟨s, hs⟩ : ∃ s, (table config).devices[i]? = some s := by
    rw [hm.listed.devices rfl] at hd
    obtain ⟨s, hs, -⟩ := Option.map_eq_some_iff.mp hd
    exact ⟨s, hs⟩
  obtain ⟨d₁, hd₁, hview, -, -, -, hstart, hstop⟩ := hm.view hs
  cases hd.symm.trans hd₁
  -- the slice and its table
  obtain ⟨q, hq⟩ := (table_slice hs).suffix
  obtain ⟨P, hE⟩ := table_embedded hs (hm.flags hflags hs) hq.symm
  obtain ⟨r', e', hm'⟩ := configFindDevices_returns hE.room (hE.safe hsafe)
    (Nat.lt_of_le_of_lt hE.size_le hsize)
  have hattr : configAttribute d = some q := by
    unfold configAttribute
    rw [hstart, hstop]
    simp [← hq]
  refine ⟨⟨q, r', hattr, e', ?_⟩, fun hlen x hx off ho => hm.overrides hlen hx ho⟩
  -- every device of the slice, and where it is in the config string
  have hpair : ∀ (k : Nat) (y : DeviceSpec), (table q).devices[k]? = some y → ∃ x x',
      r.2.devices[i + k]? = some x ∧ r'.2.devices[k]? = some x' ∧
      (r'.2.view x' = r.2.view x ∧ r'.2.storedView x' = r.2.storedView x) ∧
      (0 < k → x'.name.map r'.2.name = x.name.map r.2.name ∧
        x'.name.map r'.2.storedName = x.name.map r.2.storedName) := by
    intro k y hy
    have hk := (List.getElem?_eq_some_iff.mp hy).1
    have hlift : (table config).devices[i + k]? = some (y.lift P) := by
      rw [hE.devices k hk, hy, Option.map_some]
    obtain ⟨x, hx, hv, hsv, hn, hsn, -⟩ := hm.view hlift
    obtain ⟨x', hx', hv', hsv', hn', hsn', -⟩ := hm'.view hy
    have hpts := Table.pointed q y (List.mem_of_getElem? hy)
    refine ⟨x, x', hx, hx', ⟨?_, ?_⟩, fun hpos => ?_⟩
    · rw [hv, hv', view_lift (Table.ended q) hE.strings hpts]
    · rw [hsv, hsv', storedView_lift (Table.ended q) hE.strings hpts]
    · have hname : (y.lift P).name = y.name.lift P := if_neg (hE.nested k y hpos hy).1
      rw [hn, hn', hsn, hsn', hname, nameString_lift (Table.ended q) hE.strings hpts.name,
        storedName_lift (Table.ended q) hE.strings hpts.name]
      exact ⟨rfl, rfl⟩
  obtain ⟨y₀, hy₀, -⟩ := hE.first
  obtain ⟨x₀, d', hx₀, hd', ⟨hv₀, hsv₀⟩, -⟩ := hpair 0 y₀ hy₀
  cases hd.symm.trans hx₀
  have hlen' : r'.2.devices.length = (table q).devices.length := hm'.listed.count
  cases hds : r'.2.devices with
  | nil =>
    rw [hds] at hd'
    cases hd'
  | cons d'' ds =>
    rw [hds] at hd' hlen'
    cases hd'
    have hnested : r.2.nested d = (r.2.devices.drop (i + 1)).take ds.length := by
      refine filter_range fun j x hx => ?_
      rw [hm.listed.devices rfl] at hx
      obtain ⟨t, ht, rfl⟩ := Option.map_eq_some_iff.mp hx
      have hin := hE.inside ht
      have hdef : d.inside (t.device ((writeLayout (table config)).base j)
          ((writeLayout (table config)).override j)) =
          decide (s.stop.length < t.start.length ∧ t.start.length < s.start.length) := by
        unfold PlatformDevice.inside
        rw [hstart, hstop]
        rfl
      rw [hdef, decide_eq_true_iff, hin, ← hlen', List.length_cons]
      omega
    have hrest : ∀ {β : Type} (f g : PlatformDevice → β), (∀ x x' : PlatformDevice,
        r'.2.view x' = r.2.view x ∧ r'.2.storedView x' = r.2.storedView x →
        x'.name.map r'.2.name = x.name.map r.2.name ∧
          x'.name.map r'.2.storedName = x.name.map r.2.storedName → f x' = g x) →
        ds.map f = (r.2.nested d).map g := by
      intro β f g hfg
      rw [hnested]
      refine List.ext_getElem? fun k => ?_
      rw [List.getElem?_map, List.getElem?_map, List.getElem?_take]
      split_ifs with hk
      · obtain ⟨y, hy⟩ : ∃ y, (table q).devices[k + 1]? = some y := by
          refine ⟨_, List.getElem?_eq_getElem ?_⟩
          rw [← hlen', List.length_cons]
          omega
        obtain ⟨x, x', hx, hx', hv, hn⟩ := hpair (k + 1) y hy
        rw [hds, List.getElem?_cons_succ] at hx'
        rw [List.getElem?_drop, Nat.add_right_comm, Nat.add_assoc, hx, hx', Option.map_some,
          Option.map_some, hfg x x' hv (hn (Nat.succ_pos k))]
      · rw [List.getElem?_eq_none (Nat.le_of_not_lt hk), Option.map_none, Option.map_none]
    refine ⟨d', ds, hds, hv₀, hsv₀, hrest _ _ fun x x' hv hn => ?_, hrest _ _ fun x x' hv hn => ?_⟩
    · rw [hv.1, hn.1]
    · rw [hv.2, hn.2]

/-- A device `d` with a device `e` in it. -/
def nestedConfig : Text :=
  cstring [100, 123, 105, 110, 116, 101, 114, 102, 97, 99, 101, 32, 34, 117, 34, 59, 101, 123, 105,
    110, 116, 101, 114, 102, 97, 99, 101, 32, 118, 59, 105, 114, 113, 32, 51, 59, 125, 59, 125, 59]

theorem slice_selfContained_nested : ∃ r d q r', configFindDevices nestedConfig = .ok r ∧
    r.2.devices[0]? = some d ∧ configAttribute d = some q ∧ configFindDevices q = .ok r' ∧
    Reparses r.2 d r'.2 ∧ (r.2.nested d).length = 1 := by
  have hrun : ((configFindDevices nestedConfig).toOption.any fun r => r.2.devices[0]?.any fun d =>
      decide (Event.device 0 1 0 ∈ r.2.events ∧ (r.2.nested d).length = 1)) = true := by
    decide +kernel
  obtain ⟨r, e, hr⟩ := (Option.any_eq_true _ _).mp hrun
  have e := toOption_eq_some.mp e
  obtain ⟨d, hd, hdev⟩ := (Option.any_eq_true _ _).mp hr
  obtain ⟨he, hn⟩ := of_decide_eq_true hdev
  obtain ⟨⟨q, r', hq, e', hr⟩, -⟩ := slice_selfContained e hd he
  exact ⟨r, d, q, r', e, hd, hq, e', hr, hn⟩

/-! ## A value that is not stored whole -/

def letterA : Byte := ⟨97, by decide⟩

def semi : Byte := ⟨semicolon, by decide⟩

/-- A bare value of `n + 1` letters. -/
def longValue (n : Nat) : Text := List.replicate (n + 1) letterA ++ [semi]

/-- A device with that `interface`. -/
def longConfig (n : Nat) : Text :=
  cstring [105, 110, 116, 101, 114, 102, 97, 99, 101, 32] ++ longValue n

theorem skipKey_letters (n : Nat) : skipKey (List.replicate n letterA ++ [semi]) = [semi] := by
  induction n with
  | zero => rfl
  | succ n ih =>
    rw [List.replicate_succ, List.cons_append, skipKey_cons (by decide), ih]

theorem longConfig_scan (n : Nat) : scan (longConfig n) =
    .entry (longConfig n) (.bare (longValue n) (.stop [semi])) (.stop []) := by
  have h0 : skipWhitespace (longConfig n) = longConfig n := rfl
  have hv : skipWhitespace (skipKey (longConfig n)) = longValue n := rfl
  have ht : (longValue n).tail = List.replicate n letterA ++ [semi] := rfl
  have hi : deref (longConfig n) = 105 := rfl
  have ha : deref (longValue n) = 97 := rfl
  have hat : (Entries.entry (longConfig n) (.bare (longValue n) (.stop [semi])) (.stop [])).At
      (skipWhitespace (longConfig n)) := by
    rw [h0]
    refine ⟨rfl, by rw [hi]; decide, by rw [hi]; decide, ?_, rfl, Or.inl rfl⟩
    rw [hv]
    refine ⟨rfl, ?_, ?_, ?_, ?_, ?_⟩
    · rw [ha]; decide
    · rw [ha]; decide
    · rw [ha]; decide
    · rw [ha]; decide
    · rw [ht, skipKey_letters]
      exact ⟨rfl, Or.inr rfl⟩
  exact (scan_at _).unique hat

theorem longConfig_key (n : Nat) : isInterface (longConfig n) = true := by
  have h : skipKey (longConfig n) = (cstring [32] ++ longValue n) := rfl
  have hs : longConfig n = cstring interfaceKey ++ (cstring [32] ++ longValue n) := rfl
  refine decide_eq_true ?_
  rw [h, hs, between, List.length_append, Nat.add_sub_cancel, List.take_left]
  rfl

theorem longConfig_flags (n : Nat) : flagsAt (longConfig n) = 0 := by
  have h : skipKey (longConfig n) = (cstring [32] ++ longValue n) := rfl
  have hs : longConfig n = cstring interfaceKey ++ (cstring [32] ++ longValue n) := rfl
  have hb : between (longConfig n) (skipKey (longConfig n)) = interfaceKey := by
    rw [h, hs, between, List.length_append, Nat.add_sub_cancel, List.take_left]
    rfl
  unfold flagsAt keyFlags parserKeyEq
  rw [hb]
  decide

theorem longConfig_calls (n : Nat) : calls (longConfig n) =
    [.device 0 0 0 [] (longConfig n), .interface (longValue n) (some 0), .configEnd 0 []] := by
  unfold calls groupCalls
  rw [longConfig_scan]
  simp only [Entries.isRoot, longConfig_key, longConfig_flags, Entries.calls, Values.calls]
  rfl

theorem decode_letters (n : Nat) : decodeString (longValue n) = List.replicate (n + 1) 97 := by
  have ha : deref (longValue n) ≠ quote := by
    have : deref (longValue n) = 97 := rfl
    rw [this]
    decide
  have hk : ∀ c ∈ List.replicate (n + 1) letterA, isKeyByte c.val = true := by
    intro c hc
    rw [List.eq_of_mem_replicate hc]
    decide
  rw [decodeString, if_neg ha, longValue, List.takeWhile_append_of_pos hk, List.takeWhile_cons_of_neg
    (by decide), List.append_nil, List.map_replicate]
  rfl

theorem longConfig_table (n : Nat) : table (longConfig n) =
    ⟨[overrideCells (List.replicate (n + 1) 97)], [⟨0, 0, .dot, longConfig n, [], some 0, []⟩]⟩ := by
  rw [table, longConfig_calls]
  simp only [applyAll, List.foldl_cons, List.foldl_nil, Call.apply, decode_letters]
  rfl
theorem readBytes_letters (k : Nat) (t : List UInt8) :
    readBytes (List.replicate k 97 ++ 0 :: t) = some (List.replicate k 97) := by
  induction k with
  | zero => rfl
  | succ k ih =>
    rw [List.replicate_succ, List.cons_append, readBytes, if_neg (by decide), ih, Option.map_some]

theorem letters_succ (k : Nat) :
    List.replicate k (97 : UInt8) ++ [97, 0] = List.replicate (k + 1) 97 ++ [0] := by
  rw [List.replicate_succ', List.append_assoc]
  rfl

/-- A slice that ends at the terminator is all of its text. -/
theorem attribute_whole {pdev : PlatformDevice} {start : Text} (hs : pdev.configStart = some start)
    (he : pdev.configEnd = some []) : configAttribute pdev = some start := by
  unfold configAttribute
  rw [hs, he]
  simp

/-- What is stored of a value of 65537 letters. -/
theorem overrideCells_letters : overrideCells (List.replicate 65537 97) =
    List.replicate 65536 (some 97) ++ [none, none] := by
  rw [overrideCells, List.take_append_of_le_length (by rw [List.length_replicate]; decide),
    List.take_replicate, List.map_replicate, List.length_replicate]
  rfl

/-- The bytes of `driver_override`, over two bytes that were there before. -/
theorem letters_zip (a b : UInt8) : List.zipWith (fun (c : Option UInt8) d => c.getD d)
    (overrideCells (List.replicate 65537 97)) (List.replicate 65536 0 ++ [a, b]) =
      List.replicate 65536 97 ++ [a, b] := by
  rw [overrideCells_letters, List.zipWith_append (by rw [List.length_replicate, List.length_replicate]),
    List.zipWith_replicate]
  rfl

/-- Past the 65536 bytes that are stored of a value, its string is what the memory held in each
run. -/
theorem slice_override_unstored : ¬ ∀ (config : Text) (r : ParserState × Heap),
    configFindDevices config = .ok r → ∀ (i group : Nat) (d : PlatformDevice),
    r.2.devices[i]? = some d → .device i group 0 ∈ r.2.events →
    ∀ (q : Text) (r' : ParserState × Heap) (d' : PlatformDevice), configAttribute d = some q →
    configFindDevices q = .ok r' → r'.2.devices[0]? = some d' →
    ∀ old old' : List UInt8, old.length = r.2.names.length → old'.length = r'.2.names.length →
    d.driverOverride.map (r.2.stringIn old) = d'.driverOverride.map (r'.2.stringIn old') := by
  intro h
  have htable := longConfig_table 65536
  have hroom : (marks (longConfig 65536)).length ≤ (longConfig 65536).length := by
    refine marks_room ?_
    rw [longConfig_scan, Entries.isRoot, longConfig_key]
    rfl
  have hsafe : ∀ c ∈ calls (longConfig 65536), c.Safe := by
    rw [longConfig_calls]
    intro c hc
    simp only [List.mem_cons, List.not_mem_nil, or_false] at hc
    rcases hc with rfl | rfl | rfl
    · trivial
    · trivial
    · trivial
  have hsize : (table (longConfig 65536)).size < 2 ^ 31 := by
    rw [htable, Table.size, Table.image, List.flatten_singleton, overrideCells_length,
      List.length_replicate]
    decide
  obtain ⟨r, e, hm⟩ := configFindDevices_returns hroom hsafe hsize
  have hs : (table (longConfig 65536)).devices[0]? =
      some ⟨0, 0, .dot, longConfig 65536, [], some 0, []⟩ := by
    rw [htable]
    rfl
  have hd := hm.listed.opened 0 _ hs
  have hnames : r.2.names = overrideCells (List.replicate 65537 97) := by
    rw [hm.names, htable]
    exact List.append_nil _
  have hev : Event.device 0 0 0 ∈ r.2.events := by
    have hmem : (0, 0, 0) ∈ openings r.2.events := by
      rw [hm.openings, htable]
      exact List.mem_cons_self
    obtain ⟨ev, hev, heq⟩ := List.mem_filterMap.mp hmem
    cases ev with
    | device dev group flags =>
      cases heq
      exact hev
    | _ => cases heq
  have hlen : ∀ a b : UInt8, (List.replicate 65536 0 ++ [a, b]).length = r.2.names.length := by
    intro a b
    rw [hnames, overrideCells_length, List.length_append, List.length_replicate,
      List.length_replicate]
    rfl
  have hkey := h _ r e 0 0 _ hd hev (longConfig 65536) r _ ?_ e hd (List.replicate 65536 0 ++ [0, 0])
    (List.replicate 65536 0 ++ [97, 0]) (hlen 0 0) (hlen 97 0)
  · have h0 : r.2.stringIn (List.replicate 65536 0 ++ [0, 0]) 0 = some (List.replicate 65536 97) := by
      rw [Heap.stringIn, hnames, letters_zip, List.drop_zero]
      exact readBytes_letters 65536 [0]
    have h1 : r.2.stringIn (List.replicate 65536 0 ++ [97, 0]) 0 = some (List.replicate 65537 97) := by
      rw [Heap.stringIn, hnames, letters_zip, List.drop_zero, letters_succ 65536]
      exact readBytes_letters 65537 []
    have hkey : some (r.2.stringIn _ 0) = some (r.2.stringIn _ 0) := hkey
    rw [h0, h1] at hkey
    have := congrArg List.length (Option.some.inj (Option.some.inj hkey))
    rw [List.length_replicate, List.length_replicate] at this
    exact absurd this (by decide)
  · exact attribute_whole rfl rfl

end LowriscLinux.Config
