import LowriscLinux.Config.Passes

/-!
# Where the calls for a device stand

The calls of a walk (`Config/Walk.lean`) that concern one device are consecutive: the call that
opens it, then those of its group. `Located` says where they stand in the calls of the whole string;
what the passes record about a device is then read off its group alone.

* `EntriesTarget`: the target of a call (`arch/riscv/drivers/config.c`, lines 464 and 497) is that
  of the enclosing device or a new device, and never one whose group has been left.
* `Starts`: the devices start one after the other in the text (`config_start`, line 468), as a group
  is entered before those in it and behind it.
* `EntriesEnd`: `config_end` is stored after each entry of the device's own group (lines 512-514),
  also of entries before the `interface` key, but not of entries in inner groups: `*am_root` is that
  of the activation. So the last entry of the group decides it.
* `Slice`: a text that goes from after a `{` to the end of the line of the last entry, of a group
  with an `interface` key.

Results:
* `calls_located`: every device of a config string is located.
* `table_slice`: its slice starts at its group and ends after the last entry of it.
-/

namespace LowriscLinux.Config

/-! ## Targets -/

theorem target_ite {p : Prop} [Decidable p] {c d : Call} (h : c ∈ if p then [d] else []) :
    c.target = d.target := by
  rw [mem_if h]

theorem endCalls_target {root : Bool} {target : Option Nat} {stop : Text} {c : Call}
    (h : c ∈ endCalls root target stop) : c.target = target := by
  cases target with
  | none => cases h
  | some dev => exact target_ite h

/-- The calls for these entries are for the target they inherit or for new devices. -/
def EntriesTarget (g : Entries) : Prop :=
  ∀ (root : Bool) (c : Ctx) (w : Walk), ∀ call ∈ g.calls root c w, ∀ t ∈ call.target,
    t ∈ c.target ∨ w.devices ≤ t

theorem EntriesTarget.group {body : Entries} (hE : EntriesTarget body) (start : Text) (c : Ctx)
    (w : Walk) : ∀ call ∈ groupCalls body start c w, ∀ t ∈ call.target,
      t ∈ c.target ∨ w.devices ≤ t := by
  intro call hc t ht
  unfold groupCalls at hc
  rcases List.mem_append.mp hc with hc | hc
  · rw [target_ite hc] at ht
    cases ht
  · rcases hE _ _ _ call hc t ht with h | h
    · cases hroot : body.isRoot with
      | true =>
        rw [hroot] at h
        cases h
        exact Or.inr (Nat.le_refl _)
      | false =>
        rw [hroot] at h
        exact Or.inl h
    · rw [Walk.enter_devices] at h
      exact Or.inr (Nat.le_of_add_right_le h)

mutual

theorem Entries.calls_target : ∀ g : Entries, EntriesTarget g
  | .stop _, _, _, _, call, hc, _, _ => by cases hc
  | .entry key vals rest, root, c, w, call, hc, t, ht => by
    rw [Entries.calls] at hc
    rcases List.mem_append.mp hc with hc | hc
    · rcases List.mem_append.mp hc with hc | hc
      · exact vals.calls_target _ _ c (w.read key) call hc t ht
      · rw [endCalls_target hc] at ht
        exact Or.inl ht
    · refine (rest.calls_target root c (vals.after (w.read key)) call hc t ht).imp_right fun h => ?_
      rw [Values.after_devices] at h
      exact Nat.le_of_add_right_le h

theorem Values.calls_target : ∀ (v : Values) (iface : Bool) (flags : Nat) (c : Ctx) (w : Walk),
    ∀ call ∈ v.calls iface flags c w, ∀ t ∈ call.target, t ∈ c.target ∨ w.devices ≤ t
  | .stop _, _, _, _, _, call, hc, _, _ => by cases hc
  | .quoted here rest, iface, flags, c, w, call, hc, t, ht => by
    rw [Values.calls] at hc
    rcases List.mem_append.mp hc with hc | hc
    · rw [target_ite hc] at ht
      exact Or.inl ht
    · exact rest.calls_target false flags c w call hc t ht
  | .group here body rest, iface, flags, c, w, call, hc, t, ht => by
    rw [Values.calls_group] at hc
    rcases List.mem_append.mp hc with hc | hc
    · exact EntriesTarget.group body.calls_target _ ⟨w.key :: c.parent, flags, c.target⟩ w call hc t ht
    · refine (rest.calls_target false flags c _ call hc t ht).imp_right fun h => ?_
      rw [Entries.after_devices, Walk.enter_devices, Nat.add_assoc] at h
      exact Nat.le_of_add_right_le h
  | .bare here rest, iface, flags, c, w, call, hc, t, ht => by
    rw [Values.calls] at hc
    rcases List.mem_append.mp hc with hc | hc
    · rcases List.mem_append.mp hc with hc | hc
      · rcases List.mem_append.mp hc with hc | hc
        · rw [target_ite hc] at ht
          exact Or.inl ht
        · rw [target_ite hc] at ht
          exact Or.inl ht
      · rw [target_ite hc] at ht
        exact Or.inl ht
    · exact rest.calls_target false flags c w call hc t ht

end

/-! ## Where devices start -/

/-- Where the slice of the device that a call opens starts. -/
def Call.start? : Call → Option Text
  | .device _ _ _ _ config => some config
  | _ => none

def starts (cs : List Call) : List Text := cs.filterMap Call.start?

/-- The devices that calls open start one after the other, with less than `high` and at least `low`
bytes of the config string ahead. -/
structure Starts (high low : Nat) (cs : List Call) : Prop where
  range : ∀ p ∈ starts cs, low ≤ p.length ∧ 0 < p.length ∧ p.length < high
  later : (starts cs).Pairwise fun a b => b.length < a.length

section Starts

variable {high mid low : Nat} {as bs : List Call}

theorem Starts.none (h : starts as = []) : Starts high low as where
  range := by
    rw [h]
    exact fun _ h => (List.not_mem_nil h).elim
  later := h ▸ List.Pairwise.nil

theorem Starts.mono (h : Starts mid low as) {high low' : Nat} (hh : mid ≤ high) (hl : low' ≤ low) :
    Starts high low' as where
  range p hp := by
    have := h.range p hp
    omega
  later := h.later

theorem Starts.append (ha : Starts high mid as) (hb : Starts mid low bs) (h1 : low ≤ mid)
    (h2 : mid ≤ high) : Starts high low (as ++ bs) := by
  have happ : starts (as ++ bs) = starts as ++ starts bs := List.filterMap_append
  constructor
  · intro p hp
    rw [happ] at hp
    rcases List.mem_append.mp hp with hp | hp
    · have := ha.range p hp
      omega
    · have := hb.range p hp
      omega
  · rw [happ]
    refine List.pairwise_append.mpr ⟨ha.later, hb.later, fun a ha' b hb' => ?_⟩
    have h3 := ha.range a ha'
    have h4 := hb.range b hb'
    omega

theorem starts_ite {p : Prop} [Decidable p] {c : Call} (h : c.start? = none) :
    starts (if p then [c] else []) = [] := by
  split
  · simp [starts, h]
  · rfl

theorem starts_endCalls (root : Bool) (target : Option Nat) (stop : Text) :
    starts (endCalls root target stop) = [] := by
  cases target with
  | none => rfl
  | some dev => exact starts_ite rfl

end Starts

/-- A group with an `interface` key is not empty. -/
theorem Entries.At.pos {body : Entries} {start : Text} (hb : body.At (skipWhitespace start))
    (hr : body.isRoot = true) : 0 < start.length := by
  cases body with
  | stop here => cases hr
  | entry key vals rest =>
    obtain ⟨rfl, h0, -⟩ := hb
    refine Nat.lt_of_lt_of_le ?_ (skipWhitespace_suffix start).length_le
    exact List.length_pos_iff.mpr fun h => h0 (deref_eq_zero.mpr h)

/-- The devices of these entries start inside them. -/
def EntriesStart (g : Entries) : Prop :=
  ∀ {s : Text} (root : Bool) (c : Ctx) (w : Walk), g.At s →
    Starts s.length g.last.length (g.calls root c w)

theorem EntriesStart.group {body : Entries} (hE : EntriesStart body) {start : Text} {high : Nat}
    (c : Ctx) (w : Walk) (hb : body.At (skipWhitespace start)) (hh : start.length < high) :
    Starts high body.last.length (groupCalls body start c w) := by
  have h1 := (skipWhitespace_suffix start).length_le
  have h2 := hb.suffix.length_le
  unfold groupCalls
  cases hroot : body.isRoot with
  | false => exact (hE _ _ _ hb).mono (by omega) (Nat.le_refl _)
  | true =>
    have hdev : Starts high start.length
        [.device w.devices w.roots c.flags c.parent start] := by
      constructor
      · intro p hp
        obtain rfl : p = start := List.mem_singleton.mp hp
        exact ⟨Nat.le_refl _, hb.pos hroot, hh⟩
      · exact List.pairwise_singleton _ _
    exact hdev.append ((hE _ _ _ hb).mono h1 (Nat.le_refl _)) (h2.trans h1) (Nat.le_of_lt hh)

mutual

theorem Entries.calls_start : ∀ g : Entries, EntriesStart g
  | .stop _, _, _, _, _, _ => Starts.none rfl
  | .entry key vals rest, s, root, c, w, hg => by
    obtain ⟨rfl, -, -, hv, hr⟩ := hg
    have h1 := ((skipWhitespace_suffix _).trans (skipKey_suffix key)).length_le
    have h2 := ((skipWhitespace_suffix _).trans (closeEntry_suffix vals.last)).length_le
    have h3 := hv.suffix.length_le
    have h4 := hr.suffix.length_le
    have hvals := (vals.calls_start (isInterface key) (flagsAt key) c (w.read key) hv).mono h1
      (Nat.le_refl _)
    have hrest := (rest.calls_start root c (vals.after (w.read key)) hr).mono h2 (Nat.le_refl _)
    rw [Entries.calls, Entries.last]
    refine (hvals.append (Starts.none (starts_endCalls _ _ _)) (Nat.le_refl _) (by omega)).append
      hrest (by omega) (by omega)

theorem Values.calls_start : ∀ (v : Values) {s : Text} (iface : Bool) (flags : Nat) (c : Ctx)
    (w : Walk), v.At s → Starts s.length v.last.length (v.calls iface flags c w)
  | .stop _, _, _, _, _, _, _ => Starts.none rfl
  | .quoted here rest, s, iface, flags, c, w, hv => by
    obtain ⟨rfl, hq, hr⟩ := hv
    have h1 := after_lt (skipString_suffix _) (ne_zero_of_eq (by decide) hq)
    have h2 := hr.suffix.length_le
    have hrest := rest.calls_start false flags c w hr
    rw [Values.calls, Values.last]
    exact (Starts.none (starts_ite rfl)).append hrest h2 (Nat.le_of_lt h1)
  | .group here body rest, s, iface, flags, c, w, hv => by
    obtain ⟨rfl, ho, hb, hr⟩ := hv
    have h1 := tail_lt (ne_zero_of_eq (by decide) ho)
    have h2 := (skipNewline_suffix here.tail).length_le
    have h3 := ((skipWhitespace_suffix _).trans (closeGroup_suffix body.last)).length_le
    have h4 := hr.suffix.length_le
    rw [← skipWhitespace_skipNewline] at hb
    have h5 := (hb.suffix.trans (skipWhitespace_suffix _)).length_le
    have hgroup := EntriesStart.group body.calls_start ⟨w.key :: c.parent, flags, c.target⟩ w hb
      (Nat.lt_of_le_of_lt h2 h1)
    have hrest := (rest.calls_start false flags c (body.after (w.enter body.isRoot)) hr).mono h3
      (Nat.le_refl _)
    rw [Values.calls_group, Values.last]
    exact hgroup.append hrest (by omega) (by omega)
  | .bare here rest, s, iface, flags, c, w, hv => by
    obtain ⟨rfl, h0, -, -, -, hr⟩ := hv
    have h1 := after_lt (skipKey_suffix _) h0
    have h2 := hr.suffix.length_le
    have hrest := rest.calls_start false flags c w hr
    rw [Values.calls, Values.last]
    refine Starts.append (Starts.none ?_) hrest h2 (Nat.le_of_lt h1)
    rw [starts, List.filterMap_append, List.filterMap_append]
    exact congrArg₂ _ (congrArg₂ _ (starts_ite rfl) (starts_ite rfl)) (starts_ite rfl)

end

/-! ## The calls for one device -/

/-- The number of devices in a group whose first inner group has number `k`. -/
def Entries.inner (g : Entries) (k : Nat) : Nat := (marked k g.nested).length

/-- Among the calls `cs`, which open no device from `last` on, those for device `i` and the devices
inside it: the group `body` is opened, with `start` after its `{`, and no later call is for one of
these devices. -/
inductive Located (cs : List Call) (last i flags : Nat) (body : Entries) (start : Text) : Prop
  | intro (pre post : List Call) (group : Nat) (parent : List Key) (key : Key)
      (eq : cs = pre ++ (.device i group flags parent start ::
        body.calls true ⟨[], flags, some i⟩ ⟨group + 1, i + 1, key⟩ ++ post))
      (at_start : body.At (skipWhitespace start))
      (isRoot : body.isRoot = true)
      (later : ∀ c ∈ post, ∀ t ∈ c.target, t < i ∨ i + 1 + body.inner (group + 1) ≤ t)
      (beyond : ∀ p ∈ starts post, p.length < body.last.length)
      (le : i + 1 + body.inner (group + 1) ≤ last)

section Located

variable {cs : List Call} {last i flags : Nat} {body : Entries} {start : Text}

theorem Located.after (h : Located cs last i flags body start) (pre : List Call) :
    Located (pre ++ cs) last i flags body start := by
  obtain ⟨pre', post, group, parent, key, rfl, ha, hr, hl, hb, hle⟩ := h
  exact ⟨pre ++ pre', post, group, parent, key, (List.append_assoc _ _ _).symm, ha, hr, hl, hb, hle⟩

/-- Later calls are for other devices. -/
theorem Located.before (h : Located cs last i flags body start) {post : List Call} {last' : Nat}
    (hlast : last ≤ last') (hpost : ∀ c ∈ post, ∀ t ∈ c.target, t < i ∨ last ≤ t)
    (hstart : ∀ p ∈ starts post, p.length < body.last.length) :
    Located (cs ++ post) last' i flags body start := by
  obtain ⟨pre, post', group, parent, key, rfl, ha, hr, hl, hb, hle⟩ := h
  refine ⟨pre, post' ++ post, group, parent, key, ?_, ha, hr, fun c hc t ht => ?_, fun p hp => ?_,
    hle.trans hlast⟩
  · simp only [List.append_assoc, List.cons_append]
  · rcases List.mem_append.mp hc with hc | hc
    · exact hl c hc t ht
    · exact (hpost c hc t ht).imp_right hle.trans
  · rw [starts, List.filterMap_append] at hp
    rcases List.mem_append.mp hp with hp | hp
    · exact hb p hp
    · exact hstart p hp

end Located

/-- Every device opened by the calls for these entries is located. -/
def EntriesLocated (g : Entries) : Prop :=
  ∀ {s : Text} (root : Bool) (c : Ctx) (w : Walk) (i : Nat), g.At s →
    (∀ t ∈ c.target, t < w.devices) → w.devices ≤ i → i < (g.after w).devices →
    ∃ flags body start, Located (g.calls root c w) (g.after w).devices i flags body start ∧
      g.last.length ≤ body.last.length

theorem EntriesLocated.group {body : Entries} (hE : EntriesLocated body) {start : Text} (c : Ctx)
    (w : Walk) (i : Nat) (hb : body.At (skipWhitespace start))
    (hc : ∀ t ∈ c.target, t < w.devices) (hi : w.devices ≤ i)
    (hlt : i < (body.after (w.enter body.isRoot)).devices) :
    ∃ flags body' start', Located (groupCalls body start c w)
      (body.after (w.enter body.isRoot)).devices i flags body' start' ∧
      body.last.length ≤ body'.last.length := by
  unfold groupCalls
  cases hroot : body.isRoot with
  | false =>
    rw [hroot] at hlt
    obtain ⟨flags, body', start', h, hl⟩ := hE false c (w.enter false) i hb hc hi hlt
    exact ⟨flags, body', start', h.after _, hl⟩
  | true =>
    rw [hroot] at hlt
    rcases Nat.eq_or_lt_of_le hi with rfl | hlt'
    · refine ⟨c.flags, body, start, ⟨[], [], w.roots, c.parent, w.key, ?_, hb, hroot,
        fun _ h => (List.not_mem_nil h).elim, fun _ h => (List.not_mem_nil h).elim, ?_⟩,
        Nat.le_refl _⟩
      · rw [if_pos rfl, List.append_nil]
        rfl
      · rw [Entries.after_devices, Walk.enter_devices, Walk.enter_roots]
        exact Nat.le_refl _
    · obtain ⟨flags, body', start', h, hl⟩ := hE true (c.enter true w.devices) (w.enter true) i hb
        (fun t h => by cases h; exact Nat.lt_succ_self _) hlt' hlt
      exact ⟨flags, body', start', h.after _, hl⟩

mutual

/-- **Every device is located.** -/
theorem Entries.calls_located : ∀ g : Entries, EntriesLocated g
  | .stop _, _, _, _, w, i, _, _, hi, hlt => absurd (Nat.lt_of_le_of_lt hi hlt) (Nat.lt_irrefl _)
  | .entry key vals rest, s, root, c, w, i, hg, hc, hi, hlt => by
    obtain ⟨rfl, -, -, hv, hr⟩ := hg
    have hle : (vals.after (w.read key)).devices ≤ ((Entries.entry key vals rest).after w).devices := by
      rw [Entries.after, Entries.after_devices rest]
      exact Nat.le_add_right _ _
    have hw : w.devices ≤ (vals.after (w.read key)).devices := by
      rw [Values.after_devices]
      exact Nat.le_add_right _ _
    have hlast := ((skipWhitespace_suffix _).trans (closeEntry_suffix vals.last)).length_le
    rw [Entries.calls]
    rcases Nat.lt_or_ge i (vals.after (w.read key)).devices with hin | hout
    · obtain ⟨flags, body, start, h, hl⟩ := vals.calls_located (isInterface key) (flagsAt key) c
        (w.read key) i hv hc hi hin
      have hrest := hr.suffix.length_le
      refine ⟨flags, body, start, ?_, ?_⟩
      · rw [List.append_assoc]
        refine h.before hle (fun call hcall t ht => ?_) fun p hp => ?_
        · rcases List.mem_append.mp hcall with hcall | hcall
          · rw [endCalls_target hcall] at ht
            exact Or.inl (Nat.lt_of_lt_of_le (hc t ht) hi)
          · exact (rest.calls_target root c _ call hcall t ht).imp_left
              fun h => Nat.lt_of_lt_of_le (hc t h) hi
        · rw [starts, List.filterMap_append] at hp
          rcases List.mem_append.mp hp with hp | hp
          · rw [← starts, starts_endCalls] at hp
            exact (List.not_mem_nil hp).elim
          · have := (rest.calls_start root c (vals.after (w.read key)) hr).range p hp
            omega
      · rw [Entries.last]
        omega
    · obtain ⟨flags, body, start, h, hl⟩ := rest.calls_located root c (vals.after (w.read key)) i hr
        (fun t h => Nat.lt_of_lt_of_le (hc t h) hw) hout hlt
      exact ⟨flags, body, start, h.after _, hl⟩

theorem Values.calls_located : ∀ (v : Values) {s : Text} (iface : Bool) (flags : Nat) (c : Ctx)
    (w : Walk) (i : Nat), v.At s → (∀ t ∈ c.target, t < w.devices) → w.devices ≤ i →
    i < (v.after w).devices → ∃ flags' body start,
      Located (v.calls iface flags c w) (v.after w).devices i flags' body start ∧
      v.last.length ≤ body.last.length
  | .stop _, _, _, _, _, w, i, _, _, hi, hlt =>
    absurd (Nat.lt_of_le_of_lt hi hlt) (Nat.lt_irrefl _)
  | .quoted here rest, s, iface, flags, c, w, i, hv, hc, hi, hlt => by
    obtain ⟨flags', body, start, h, hl⟩ :=
      rest.calls_located false flags c w i hv.2.2 hc hi hlt
    exact ⟨flags', body, start, h.after _, hl⟩
  | .group here body rest, s, iface, flags, c, w, i, hv, hc, hi, hlt => by
    obtain ⟨rfl, -, hb, hr⟩ := hv
    rw [← skipWhitespace_skipNewline] at hb
    rw [Values.calls_group]
    have hle : (body.after (w.enter body.isRoot)).devices ≤
        ((Values.group here body rest).after w).devices := by
      rw [Values.after, Values.after_devices rest]
      exact Nat.le_add_right _ _
    have hw : w.devices ≤ (body.after (w.enter body.isRoot)).devices := by
      rw [Entries.after_devices, Walk.enter_devices, Nat.add_assoc]
      exact Nat.le_add_right _ _
    have hlast := ((skipWhitespace_suffix _).trans (closeGroup_suffix body.last)).length_le
    have hrest := hr.suffix.length_le
    rcases Nat.lt_or_ge i (body.after (w.enter body.isRoot)).devices with hin | hout
    · obtain ⟨flags', body', start, h, hl⟩ := EntriesLocated.group body.calls_located
        ⟨w.key :: c.parent, flags, c.target⟩ w i hb hc hi hin
      refine ⟨flags', body', start, h.before hle (fun call hcall t ht => ?_) (fun p hp => ?_), ?_⟩
      · exact (rest.calls_target false flags c _ call hcall t ht).imp_left
          fun h => Nat.lt_of_lt_of_le (hc t h) hi
      · have := (rest.calls_start false flags c (body.after (w.enter body.isRoot)) hr).range p hp
        omega
      · rw [Values.last]
        omega
    · obtain ⟨flags', body', start, h, hl⟩ := rest.calls_located false flags c
        (body.after (w.enter body.isRoot)) i hr (fun t h => Nat.lt_of_lt_of_le (hc t h) hw) hout hlt
      exact ⟨flags', body', start, h.after _, hl⟩
  | .bare here rest, s, iface, flags, c, w, i, hv, hc, hi, hlt => by
    obtain ⟨flags', body, start, h, hl⟩ :=
      rest.calls_located false flags c w i hv.2.2.2.2.2 hc hi hlt
    exact ⟨flags', body, start, h.after _, hl⟩

end

/-- Every device of a config string is located. -/
theorem calls_located {config : Text} {i : Nat} (hi : i < (table config).devices.length) :
    ∃ flags body start, Located (calls config) (table config).devices.length i flags body start := by
  have hlen : ((scan config).after (Walk.enter ⟨0, 0, ⟨[], []⟩⟩ (scan config).isRoot)).devices =
      (table config).devices.length := by
    rw [Entries.after_devices, Walk.enter_devices, Walk.enter_roots, table_devices_length, marks,
      marked_cons_length, Nat.zero_add]
  obtain ⟨flags, body, start, h, -⟩ := EntriesLocated.group (scan config).calls_located
    ⟨[], 0, none⟩ ⟨0, 0, ⟨[], []⟩⟩ i (scan_at config) (fun _ h => (Option.not_mem_none _ h).elim)
    (Nat.zero_le _) (hlen ▸ hi)
  exact ⟨flags, body, start, hlen ▸ h⟩

/-! ## Slices -/

/-- After the last entry, and to the end of its line. -/
def Entries.closed : Entries → Text → Text
  | .stop _, d => d
  | .entry _ vals rest, _ => rest.closed (skipNewline (closeEntry vals.last))

/-- A group with an `interface` key, from after its `{` to after its last entry. -/
def Slice (start stop : Text) : Prop :=
  ∃ body : Entries, body.At (skipWhitespace start) ∧ body.isRoot = true ∧ stop = body.closed start

/-- The end recorded last for device `i`. -/
def endOf (i : Nat) : List Call → Text → Text
  | [], e => e
  | .configEnd dev stop :: cs, e => endOf i cs (if dev = i then stop else e)
  | _ :: cs, e => endOf i cs e

theorem endOf_cons {i : Nat} {c : Call} (h : ∀ dev stop, c = .configEnd dev stop → dev ≠ i)
    (cs : List Call) (e : Text) : endOf i (c :: cs) e = endOf i cs e := by
  cases c with
  | configEnd dev stop => rw [endOf, if_neg (h dev stop rfl)]
  | _ => rfl

theorem endOf_append (i : Nat) : ∀ (as bs : List Call) (e : Text),
    endOf i (as ++ bs) e = endOf i bs (endOf i as e)
  | [], _, _ => rfl
  | c :: as, bs, e => by
    cases c with
    | configEnd dev stop => exact endOf_append i as bs _
    | _ => exact endOf_append i as bs e

theorem endOf_ite {i : Nat} {p : Prop} [Decidable p] {c : Call}
    (h : ∀ dev stop, c ≠ .configEnd dev stop) (e : Text) :
    endOf i (if p then [c] else []) e = e := by
  split
  · exact endOf_cons (fun dev stop hc => absurd hc (h dev stop)) [] e
  · rfl

theorem endOf_endCalls (i : Nat) (root : Bool) (target : Option Nat) (stop e : Text) :
    endOf i (endCalls root target stop) e = if root = true ∧ target = some i then stop else e := by
  cases target with
  | none => exact (if_neg (by rintro ⟨-, h⟩; cases h)).symm
  | some dev =>
    cases root with
    | false => exact (if_neg (by rintro ⟨h, -⟩; cases h)).symm
    | true =>
      show endOf i [.configEnd dev stop] e = _
      rw [endOf]
      simp [endOf, Option.some.injEq]

/-- Only the entries of a device's own group record its end. -/
def EntriesEnd (g : Entries) : Prop :=
  ∀ (root : Bool) (c : Ctx) (w : Walk) (i : Nat) (e : Text), i < w.devices →
    endOf i (g.calls root c w) e = if root = true ∧ c.target = some i then g.closed e else e

theorem EntriesEnd.group {body : Entries} (hE : EntriesEnd body) (start : Text) (c : Ctx) (w : Walk)
    (i : Nat) (e : Text) (hi : i < w.devices) : endOf i (groupCalls body start c w) e = e := by
  unfold groupCalls
  rw [endOf_append, endOf_ite (fun _ _ => Call.noConfusion)]
  cases hroot : body.isRoot with
  | false => exact (hE false c (w.enter false) i e hi).trans (if_neg (by rintro ⟨h, -⟩; cases h))
  | true =>
    refine (hE true (c.enter true w.devices) (w.enter true) i e (Nat.lt_succ_of_lt hi)).trans
      (if_neg ?_)
    rintro ⟨-, h⟩
    exact Nat.ne_of_gt hi (Option.some.inj h)

mutual

theorem Entries.calls_end : ∀ g : Entries, EntriesEnd g
  | .stop _, root, c, _, i, e, _ => (ite_self e).symm
  | .entry key vals rest, root, c, w, i, e, hi => by
    have hle : i < (vals.after (w.read key)).devices := by
      rw [Values.after_devices]
      exact Nat.lt_of_lt_of_le hi (Nat.le_add_right _ _)
    rw [Entries.calls, endOf_append, endOf_append, vals.calls_end _ _ c (w.read key) i e hi,
      endOf_endCalls, rest.calls_end root c _ i _ hle, Entries.closed]
    split_ifs <;> rfl

theorem Values.calls_end : ∀ (v : Values) (iface : Bool) (flags : Nat) (c : Ctx) (w : Walk) (i : Nat)
    (e : Text), i < w.devices → endOf i (v.calls iface flags c w) e = e
  | .stop _, _, _, _, _, _, _, _ => rfl
  | .quoted here rest, iface, flags, c, w, i, e, hi => by
    rw [Values.calls, endOf_append, endOf_ite (fun _ _ => Call.noConfusion)]
    exact rest.calls_end false flags c w i e hi
  | .group here body rest, iface, flags, c, w, i, e, hi => by
    have hle : i < (body.after (w.enter body.isRoot)).devices := by
      rw [Entries.after_devices, Walk.enter_devices, Nat.add_assoc]
      exact Nat.lt_of_lt_of_le hi (Nat.le_add_right _ _)
    rw [Values.calls_group, endOf_append, EntriesEnd.group body.calls_end _ _ w i e hi]
    exact rest.calls_end false flags c _ i e hle
  | .bare here rest, iface, flags, c, w, i, e, hi => by
    rw [Values.calls, endOf_append, endOf_append, endOf_append,
      endOf_ite (fun _ _ => Call.noConfusion), endOf_ite (fun _ _ => Call.noConfusion),
      endOf_ite (fun _ _ => Call.noConfusion)]
    exact rest.calls_end false flags c w i e hi

end

/-! ## What a call does to one device -/

/-- What a call does to its target. -/
def Call.edit (T : Table) : Call → DeviceSpec → DeviceSpec
  | .interface _ _, s => s.withOverride T.size
  | .range config key parent flags _, s =>
    if keyOk key ∧ valueOk config then
      s.withResource ⟨T.resourceName parent.tail, flags, (parseU64 key.start).2, (parseU64 config).2⟩
    else s
  | .single config parent flags _, s =>
    if valueOk config then
      s.withResource ⟨T.resourceName parent, flags, (parseU64 config).2, (parseU64 config).2⟩
    else s
  | .configEnd _ stop, s => s.withStop stop
  | .device .., s => s

theorem update_getElem? {T : Table} {target : Option Nat} {f : DeviceSpec → DeviceSpec} {i : Nat}
    {s : DeviceSpec} (hs : T.devices[i]? = some s) :
    (T.update target f).devices[i]? = some (if target = some i then f s else s) := by
  cases target with
  | none => exact hs
  | some t =>
    show (T.devices.modify t f)[i]? = _
    rw [List.getElem?_modify, hs]
    by_cases hti : t = i
    · simp [hti]
    · simp [hti]

/-- **A call edits its target**, and no other device. -/
theorem apply_getElem? (c : Call) {T : Table} {i : Nat} {s : DeviceSpec}
    (hs : T.devices[i]? = some s) :
    (c.apply T).devices[i]? = some (if c.target = some i then c.edit T s else s) := by
  have hres : ∀ (t : Nat) (parent : List Key) (flags : Nat) (start stop : BitVec 64),
      (T.addResource t parent flags start stop).devices[i]? = some (if some t = some i then
        s.withResource ⟨T.resourceName parent, flags, start, stop⟩ else s) := by
    intro t parent flags start stop
    exact update_getElem? ((Table.addPath_devices T parent).symm ▸ hs)
  cases c with
  | device dev group flags parent config =>
    have hlt := (List.getElem?_eq_some_iff.mp hs).1
    show (T.devices ++ [_])[i]? = _
    rw [List.getElem?_append_left hlt, hs, Call.target, if_neg (Option.some_ne_none i).symm]
  | interface config target => exact update_getElem? hs
  | range config key parent flags target =>
    cases target with
    | none => exact hs.trans (congrArg some (if_neg (Option.some_ne_none i).symm).symm)
    | some t =>
      simp only [Call.apply, Call.edit, Call.target]
      split_ifs with hok hti hti
      · rw [hres, if_pos hti]
      · rw [hres, if_neg hti]
      · exact hs
      · exact hs
  | single config parent flags target =>
    cases target with
    | none => exact hs.trans (congrArg some (if_neg (Option.some_ne_none i).symm).symm)
    | some t =>
      simp only [Call.apply, Call.edit, Call.target]
      split_ifs with hok hti hti
      · rw [hres, if_pos hti]
      · rw [hres, if_neg hti]
      · exact hs
      · exact hs
  | configEnd dev stop => exact update_getElem? hs

/-- Calls for other devices leave a device alone. -/
theorem applyAll_other {i : Nat} {s : DeviceSpec} : ∀ (cs : List Call) {T : Table},
    T.devices[i]? = some s → (∀ c ∈ cs, c.target ≠ some i) →
    (applyAll cs T).devices[i]? = some s
  | [], _, hs, _ => hs
  | c :: cs, T, hs, h => by
    refine applyAll_other cs ?_ fun c hc => h c (List.mem_cons_of_mem _ hc)
    rw [apply_getElem? c hs, if_neg (h c List.mem_cons_self)]

theorem edit_start (c : Call) (T : Table) (s : DeviceSpec) : (c.edit T s).start = s.start := by
  cases c with
  | range config key parent flags target =>
    simp only [Call.edit]
    split_ifs <;> rfl
  | single config parent flags target =>
    simp only [Call.edit]
    split_ifs <;> rfl
  | _ => rfl

theorem edit_stop {c : Call} (h : ∀ dev stop, c ≠ .configEnd dev stop) (T : Table)
    (s : DeviceSpec) : (c.edit T s).stop = s.stop := by
  cases c with
  | range config key parent flags target =>
    simp only [Call.edit]
    split_ifs <;> rfl
  | single config parent flags target =>
    simp only [Call.edit]
    split_ifs <;> rfl
  | configEnd dev stop => exact absurd rfl (h dev stop)
  | _ => rfl

/-- Where calls leave the slice of a device. -/
theorem applyAll_slice {i : Nat} : ∀ (cs : List Call) {T : Table} {s : DeviceSpec},
    T.devices[i]? = some s → ∃ s', (applyAll cs T).devices[i]? = some s' ∧ s'.start = s.start ∧
      s'.stop = endOf i cs s.stop
  | [], _, s, hs => ⟨s, hs, rfl, rfl⟩
  | c :: cs, T, s, hs => by
    obtain ⟨s', hs', h1, h2⟩ := applyAll_slice cs (apply_getElem? c hs)
    refine ⟨s', hs', h1.trans ?_, h2.trans ?_⟩
    · split_ifs
      · exact edit_start c T s
      · rfl
    · cases c with
      | configEnd dev stop =>
        simp only [Call.target, Option.some.injEq, Call.edit, endOf]
        split_ifs <;> rfl
      | _ =>
        refine congrArg (endOf i cs) ?_
        split_ifs
        · exact edit_stop (fun _ _ => Call.noConfusion) T s
        · rfl

theorem Ordered.right : ∀ {as bs : List Call} {m : Nat}, Ordered m (as ++ bs) →
    Ordered (m + (openGroups as).length) bs
  | [], _, _, h => h
  | c :: as, bs, m, h => by
    have h := Ordered.right h.2
    rw [openGroups, List.filterMap_cons]
    rw [Nat.add_assoc] at h
    cases hc : c.group? with
    | none =>
      rw [hc] at h
      exact (Nat.zero_add (openGroups as).length).symm ▸ h
    | some g =>
      rw [hc] at h
      rw [List.length_cons, Nat.add_comm _ 1]
      exact h

/-- The number of a device is that of the devices opened before it. -/
theorem device_number {pre post : List Call} {i group flags : Nat} {parent : List Key}
    {start : Text} (h : Ordered 0 (pre ++ .device i group flags parent start :: post)) :
    i = (applyAll pre {}).devices.length := by
  have h1 : i = 0 + (openGroups pre).length := h.right.1
  have h2 := congrArg List.length (applyAll_groups pre {})
  rw [List.length_map] at h2
  rw [h1, h2]
  exact Nat.zero_add _

/-- **The slice of a device** starts at its group and ends after the last entry of it. -/
theorem table_device {config : Text} {i : Nat} {s : DeviceSpec}
    (hs : (table config).devices[i]? = some s) : ∃ body : Entries,
      Located (calls config) (table config).devices.length i s.flags body s.start ∧
        s.stop = body.closed s.start := by
  obtain ⟨flags, body, start, hloc⟩ := calls_located (List.getElem?_eq_some_iff.mp hs).1
  have hloc' := hloc
  obtain ⟨pre, post, group, parent, key, heq, hat, hroot, hlater, -, -⟩ := hloc
  have hord := (calls_opens config).ordered
  rw [table, heq, applyAll_append, List.cons_append, applyAll_cons] at hs
  rw [heq, List.cons_append] at hord
  have hi := device_number hord
  let T := (Call.device i group flags parent start).apply (applyAll pre {})
  have h0 : T.devices[i]? = some ⟨group, flags, (applyAll pre {}).pathName parent, start, start,
      none, []⟩ := by
    show ((applyAll pre {}).devices ++ [_])[i]? = _
    rw [List.getElem?_append_right (Nat.le_of_eq hi.symm), ← hi, Nat.sub_self]
    rfl
  obtain ⟨s₁, hs₁, hgrow⟩ := (applyAll_grows _ T).devices i _ h0
  cases hs.symm.trans hs₁
  rw [applyAll_append] at hs
  obtain ⟨s', hs', hstart, hstop⟩ := applyAll_slice
    (body.calls true ⟨[], flags, some i⟩ ⟨group + 1, i + 1, key⟩) h0
  have hs'' := applyAll_other post hs' fun c hc ht => by
    rcases hlater c hc i ht with h | h <;> omega
  cases hs.symm.trans hs''
  rw [body.calls_end true _ _ i _ (Nat.lt_succ_self i), if_pos ⟨rfl, rfl⟩] at hstop
  refine ⟨body, ?_, ?_⟩
  · rw [hgrow.flags, hstart]
    exact hloc'
  · rw [hstop, hstart]

theorem table_slice {config : Text} {i : Nat} {s : DeviceSpec}
    (hs : (table config).devices[i]? = some s) : Slice s.start s.stop := by
  obtain ⟨body, hloc, hstop⟩ := table_device hs
  obtain ⟨pre, post, group, parent, key, heq, hat, hroot, hlater, -, -⟩ := hloc
  exact ⟨body, hat, hroot, hstop⟩

end LowriscLinux.Config
