import LowriscLinux.Config.FindKey
import LowriscLinux.Config.Passes
import Mathlib.Data.List.Count

/-!
# Where the passes fault

Two of the faults of `Config/Parser.lean` are bugs that a config string decides alone.

* `roots[]` has one byte for every character (`kzalloc(strlen(config))`, line 534 of
  `arch/riscv/drivers/config.c`) but needs one for every group and one for the text itself
  (`*am_root`, lines 460 and 462), so it is a byte short on a text of nothing but `{`. `Activations`
  counts them. The sum over the marks (lines 544 and 545) reads those that pass 0 has taken.
* `parse_range` follows `parent->parent` (line 398) of a group that has become a device, whose
  `parent` was cleared (line 472), when its key was `mem`, `irq` or `bus`: `parent_flags` are those
  of the key (line 497), and are not cleared with it. In pass 0 there is no target, and line 396
  returns before.

`Entries.orphans` is the condition on the tree of the text: a group is a device, a value of such a
key, and has an entry with a bare value that is an integer while the key that the parser holds is
one. That key is the last one read (`Entries.lastKey`), which behind a group is a key in that group
(line 497 returns the state of the group).

Results:
* `activations_iff`: the number of activations of a pass, in a block that is large enough.
* **`rootsFit_iff`**: `roots[]` is large enough iff the text has another character than `{`.
* `countResources_null`: pass 1 ends at the first call that follows a NULL parent.
* **`parentPresent_iff`**: none does iff no device is such a range itself.
-/

namespace LowriscLinux.Config

open LowriscLinux.Lib

/-! ## The size of `roots[]` -/

/-- A pass over the text, in whatever memory it returns, takes `n` bytes of `roots[]`: one for
each activation of `parse_config_string`. -/
def Activations (config : Text) (n : Nat) : Prop :=
  ∃ (state : ParserState) (h : Heap) (r : ParserState × Heap),
    runPass { state with roots := 0, config := config } h = .ok r ∧ r.1.roots = n

/-- `roots[]` is large enough: there are no more activations than characters, the loop that sums
the marks stays inside the block, and no pass leaves it. -/
structure RootsFit (config : Text) : Prop where
  activations : ∀ n, Activations config n → n ≤ config.length
  detect : detectRoots config ≠ .error .roots
  sum : ∀ state h, detectRoots config = .ok (state, h) →
    h.roots.length = config.length ∧ state.roots ≤ h.roots.length
  count : ∀ state h, detectRoots config = .ok (state, h) →
    countResources config state h ≠ .error .roots
  write : ∀ state h state' h', detectRoots config = .ok (state, h) →
    countResources config state h = .ok (state', h') →
    writeResources config state' h' ≠ .error .roots

/-- **Every pass makes one activation for the text and one for each group in it.** -/
theorem activations_iff {config : Text} {n : Nat} :
    Activations config n ↔ n = (marks config).length := by
  have hmarks : (marks config).length = (scan config).nested.length + 1 := List.length_cons
  constructor
  · rintro ⟨state, h, r, e, rfl⟩
    have hs : Stops state.pass (scan config).last ((scan config).nested.length + 1)
        ⟨0, state.devices, ⟨state.keyStart, state.keyEnd⟩⟩ h r :=
      parseConfigString_stops (scan_at config) e
    rw [hs.roots, hmarks]
    exact Nat.zero_add _
  · rintro rfl
    have hsk := (skipWhitespace_suffix config).length_le
    let w : Walk := ⟨0, 0, ⟨[], []⟩⟩
    let h : Heap := { roots := List.replicate (marks config).length 0 }
    obtain ⟨r, e, -⟩ : Returns (parseConfigString (fuelFor config) (w.state 0 config 0) [] 0 none h)
        _ := parseConfigString_detect (scan_at config) (by unfold fuelFor; omega) (by
          show 0 + _ ≤ (List.replicate (marks config).length (0 : UInt8)).length
          rw [List.length_replicate, hmarks, Nat.zero_add])
    have hs := parseConfigString_stops (scan_at config) e
    refine ⟨⟨0, 0, config, 0, 0, [], []⟩, h, r, e, ?_⟩
    rw [hs.roots, hmarks]
    exact Nat.zero_add _

/-- Another character than `{` leaves a byte for the text itself. -/
theorem marks_length_le {config : Text} (h : ∃ c ∈ config, c.val ≠ openBrace) :
    (marks config).length ≤ config.length := by
  obtain ⟨c, hc, hne⟩ := h
  have hlt : openBraces config < config.length :=
    List.countP_lt_length_iff.mpr ⟨c, hc, decide_eq_false hne⟩
  have hnested := (scan_at config).nested_le
  have hsk := openBraces_le (skipWhitespace_suffix config)
  rw [marks, List.length_cons]
  omega

/-! ## A text of nothing but `{` -/

theorem skipWhitespace_brace {c : Byte} (s : Text) (h : c.val = openBrace) :
    skipWhitespace (c :: s) = c :: s := by
  rw [skipWhitespace, List.dropWhile_cons_of_neg]
  rw [h]
  decide

theorem skipKey_brace {c : Byte} (s : Text) (h : c.val = openBrace) :
    skipKey (c :: s) = c :: s := by
  rw [skipKey, List.dropWhile_cons_of_neg]
  rw [h]
  decide

theorem skipNewline_braces {s : Text} (h : ∀ c ∈ s, c.val = openBrace) : skipNewline s = s := by
  cases s with
  | nil => rfl
  | cons c s =>
    rw [skipNewline, if_neg]
    rw [h c List.mem_cons_self]
    decide

/-- **Every `{` of such a text opens a group**, and the last one has no byte of `roots[]` left. -/
theorem parseConfigString_braces : ∀ {s : Text} {fuel pass names parentFlags : Nat} {w : Walk}
    {parent : List Key} {h : Heap}, (∀ c ∈ s, c.val = openBrace) → 3 * s.length + 1 ≤ fuel →
    w.roots + s.length = h.roots.length → (∀ b ∈ h.roots, b = 0) →
    parseConfigString fuel (w.state pass s names) parent parentFlags none h = .error .roots
  | [], fuel, pass, names, _, w, _, h, _, hf, hroom, _ => by
    obtain ⟨n, rfl⟩ : ∃ n, fuel = n + 1 := ⟨fuel - 1, by omega⟩
    have hnone : h.roots[(w.state pass [] names).roots]? = none :=
      List.getElem?_eq_none (Nat.le_of_eq hroom.symm)
    rw [parseConfigString]
    simp only [hnone]
  | c :: s, fuel, pass, names, parentFlags, w, parent, h, hs, hf, hroom, hzero => by
    rw [List.length_cons] at hf hroom
    obtain ⟨n, rfl⟩ : ∃ n, fuel = n + 3 := ⟨fuel - 3, by omega⟩
    have hc : c.val = openBrace := hs c List.mem_cons_self
    have hrest : ∀ c ∈ s, c.val = openBrace := fun c hm => hs c (List.mem_cons_of_mem _ hm)
    have hlt : w.roots < h.roots.length := by omega
    have hroot : h.roots[w.roots]? = some 0 := by
      rw [List.getElem?_eq_getElem hlt, hzero _ (List.getElem_mem hlt)]
    have hopen : deref (c :: s) = openBrace := hc
    have hkey : isInterface (c :: s) = false := by
      rw [isInterface, skipKey_brace s hc, parserKeyEq, between, Nat.sub_self]
      rfl
    have hgroup : parseConfigString n
        (((w.enter false).read (c :: s)).state pass (skipNewline s) names)
        (((w.enter false).read (c :: s)).key :: parent) (flagsAt (c :: s)) none h =
        .error .roots := by
      rw [skipNewline_braces hrest]
      refine parseConfigString_braces hrest (by omega) ?_ hzero
      show w.roots + 1 + s.length = _
      omega
    rw [parseConfigString_plain hroot, skipWhitespace_brace s hc,
      parseEntries_entry (by rw [hopen]; decide) (by rw [hopen]; decide), hkey, skipKey_brace s hc,
      skipWhitespace_brace s hc, parseValues_group hopen, List.tail_cons, if_neg (by decide), hgroup]
    rfl

theorem detectRoots_braces {config : Text} (h : ∀ c ∈ config, c.val = openBrace) :
    detectRoots config = .error .roots := by
  have hlen : 0 + config.length = (List.replicate config.length (0 : UInt8)).length := by
    rw [List.length_replicate, Nat.zero_add]
  have hfuel : 3 * config.length + 1 ≤ fuelFor config := by
    unfold fuelFor
    omega
  exact parseConfigString_braces (w := ⟨0, 0, ⟨[], []⟩⟩) h hfuel hlen
    fun _ hb => List.eq_of_mem_replicate hb

/-! ## A NULL parent -/

section Calls

variable {pass : Nat} {L : Layout} {T : Table} {names : Nat} {h : Heap}

/-- A call that is not safe faults. -/
theorem exec_null {c : Call} (hm : Models pass L T names h) (hf : c.Fits T.devices.length)
    (hs : ¬ c.Safe) : c.exec pass names h = .error .parent := by
  cases c with
  | range config key parent flags target =>
    simp only [Call.Safe, Classical.not_imp, not_not] at hs
    obtain ⟨ht, hk, hv, rfl⟩ := hs
    obtain ⟨t, rfl⟩ := Option.isSome_iff_exists.mp ht
    obtain ⟨last, hlast, -⟩ : Returns (lastPass h (some t)) _ := lastPass_models hm hf
    have hk : (parseU64 key.start).1 = key.stop := of_decide_eq_true hk
    have hv : (parseU64 config).1 = skipKey config := of_decide_eq_true hv
    show parseRange pass config key.start key.stop [] flags (some t) names h = _
    unfold parseRange
    rw [hlast]
    simp only [bind, Except.bind, hk, hv, ne_eq, not_true_eq_false, if_false]
  | _ => exact absurd trivial hs

/-- **A run ends at its first call that is not safe.** -/
theorem runCalls_null : ∀ {cs : List Call} {T : Table} {names : Nat} {h : Heap},
    Models pass L T names h → Ordered T.devices.length cs → Room pass L (applyAll cs T) →
    (∃ c ∈ cs, ¬ c.Safe) → runCalls pass cs names h = .error .parent
  | [], _, _, _, _, _, _, hu => absurd hu (by simp)
  | c :: cs, T, names, h, hm, ho, hr, hu => by
    by_cases hs : c.Safe
    · have hrest : ∃ c ∈ cs, ¬ c.Safe := by
        obtain ⟨d, hd, hds⟩ := hu
        rcases List.mem_cons.mp hd with rfl | hd
        · exact absurd hs hds
        · exact ⟨d, hd, hds⟩
      obtain ⟨r, er, hm'⟩ := exec_models hm ho.1 hs (hr.mono (applyAll_grows cs (c.apply T)))
      have ho' : Ordered (c.apply T).devices.length cs := by
        rw [apply_devices_length]
        exact ho.2
      have hrun := runCalls_null hm' ho' hr hrest
      show (c.exec pass names h).bind (fun r => runCalls pass cs r.1 r.2) = _
      rw [er]
      exact hrun
    · show (c.exec pass names h).bind (fun r => runCalls pass cs r.1 r.2) = _
      rw [exec_null hm ho.1 hs]
      rfl

end Calls

/-- **Pass 1 faults at a call that is not safe.** -/
theorem countResources_null {config : Text} {state : ParserState} {h : Heap}
    (hm : h.roots.take state.roots = (marks config).map mark) (hu : ∃ c ∈ calls config, ¬ c.Safe) :
    countResources config state h = .error .parent := by
  rw [countResources_eq hm, runCalls_null (countStart_models config h)
    (calls_opens config).ordered (countLayout_room _ _) hu]
  rfl

/-- Pass 1 returns or follows a NULL parent. -/
theorem countResources_fault {config : Text} {state : ParserState} {h : Heap} {f : Fault}
    (hm : h.roots.take state.roots = (marks config).map mark)
    (e : countResources config state h = .error f) : f = .parent := by
  by_cases hu : ∃ c ∈ calls config, ¬ c.Safe
  · cases e.symm.trans (countResources_null hm hu)
    rfl
  · obtain ⟨r, er, -⟩ := countResources_returns hm fun c hc => by_contra fun hs => hu ⟨c, hc, hs⟩
    cases e.symm.trans er

/-- Pass 2 returns, or the names do not fit an `int`. -/
theorem writeResources_fault {config : Text} {state state' : ParserState} {h h' : Heap} {f : Fault}
    (hm : h.roots.take state.roots = (marks config).map mark)
    (e₁ : countResources config state h = .ok (state', h'))
    (e : writeResources config state' h' = .error f) : f = .size := by
  obtain ⟨hm₁, hr₁, -, hsafe⟩ := countResources_models hm e₁
  by_cases hsize : (table config).size < 2 ^ 31
  · obtain ⟨r, er, -⟩ := writeResources_models hsize hm₁
      (by rw [hr₁]; exact marked_of_take hm) hsafe
    cases e.symm.trans er
  · have hnames : state'.names = (table config).size := hm₁.filled.names
    have hint : toInt state'.names = .error .size := by rw [toInt, hnames, if_neg hsize]
    unfold writeResources at e
    rw [hint] at e
    cases e
    rfl

/-- **`roots[]` is large enough iff the text has another character than `{`.** -/
theorem rootsFit_iff (config : Text) : RootsFit config ↔ ∃ c ∈ config, c.val ≠ openBrace := by
  constructor
  · intro h
    by_contra hno
    exact h.detect (detectRoots_braces fun c hc => by_contra fun hne => hno ⟨c, hc, hne⟩)
  · intro h
    have hroom := marks_length_le h
    obtain ⟨r, er, -⟩ := detectRoots_returns hroom
    refine ⟨fun n hn => ?_, ?_, ?_, ?_, ?_⟩
    · rw [activations_iff.mp hn]
      exact hroom
    · rw [er]
      exact nofun
    · intro state h e
      have hs : Stops 0 (scan config).last ((scan config).nested.length + 1) ⟨0, 0, ⟨[], []⟩⟩
          { roots := List.replicate config.length 0 } (state, h) :=
        parseConfigString_stops (scan_at config) e
      have hlen : h.roots.length = config.length := hs.length.trans List.length_replicate
      rw [(detectRoots_marked e).1, hlen]
      exact ⟨rfl, hroom⟩
    · intro state h e hf
      cases countResources_fault (detectRoots_marked e).2 hf
    · intro state h state' h' e e₁ hf
      cases writeResources_fault (detectRoots_marked e).2 e₁ hf

/-- The empty text: the block has no byte. -/
theorem rootsFit_empty : ¬ RootsFit [] := fun h => h.detect (detectRoots_braces (by simp))

/-! ## Devices that are ranges themselves -/

/-- No pass follows a NULL parent. -/
structure ParentPresent (config : Text) : Prop where
  detect : detectRoots config ≠ .error .parent
  count : ∀ state h, detectRoots config = .ok (state, h) →
    countResources config state h ≠ .error .parent
  write : ∀ state h state' h', detectRoots config = .ok (state, h) →
    countResources config state h = .ok (state', h') →
    writeResources config state' h' ≠ .error .parent

mutual

/-- The key that the parser holds behind these entries: the one read last. -/
def Entries.lastKey : Entries → Key → Key
  | .stop _, k => k
  | .entry key vals rest, _ => rest.lastKey (vals.lastKey (keyAt key))

def Values.lastKey : Values → Key → Key
  | .stop _, k => k
  | .quoted _ rest, k => rest.lastKey k
  | .group _ body rest, k => rest.lastKey (body.lastKey k)
  | .bare _ rest, k => rest.lastKey k

end

mutual

/-- Some entry has a bare value that is an integer, while the parser holds a key that is one. -/
def Entries.hasRange : Entries → Bool
  | .stop _ => false
  | .entry key vals rest => vals.hasRange (keyAt key) || rest.hasRange

def Values.hasRange : Values → Key → Bool
  | .stop _, _ => false
  | .quoted _ rest, k => rest.hasRange k
  | .group _ body rest, k => rest.hasRange (body.lastKey k)
  | .bare here rest, k => (keyOk k && valueOk here) || rest.hasRange k

end

mutual

/-- Some group in these entries is a device and a value of a `mem`, `irq` or `bus` key, and has a
range. -/
def Entries.orphans : Entries → Bool
  | .stop _ => false
  | .entry key vals rest => vals.orphans (flagsAt key) || rest.orphans

def Values.orphans : Values → Nat → Bool
  | .stop _, _ => false
  | .quoted _ rest, flags => rest.orphans flags
  | .group _ body rest, flags =>
    (flags ≠ 0 && body.isRoot && body.hasRange) || body.orphans || rest.orphans flags
  | .bare _ rest, flags => rest.orphans flags

end

mutual

theorem Entries.after_key : ∀ (g : Entries) (w : Walk), (g.after w).key = g.lastKey w.key
  | .stop _, _ => rfl
  | .entry key vals rest, w => by
    rw [Entries.after, Entries.after_key rest, Values.after_key vals]
    rfl

theorem Values.after_key : ∀ (v : Values) (w : Walk), (v.after w).key = v.lastKey w.key
  | .stop _, _ => rfl
  | .quoted _ rest, w => Values.after_key rest w
  | .group _ body rest, w => by
    rw [Values.after, Values.after_key rest, Entries.after_key body]
    rfl
  | .bare _ rest, w => Values.after_key rest w

end

/-- A range in this context has no parent to take its name from. -/
def Ctx.Orphan (c : Ctx) : Prop := c.flags ≠ 0 ∧ c.target.isSome ∧ c.parent = []

section CallLists

variable {P : Call → Prop}

theorem forall_mem_ite {p : Prop} [Decidable p] {c : Call} :
    (∀ d ∈ if p then [c] else [], P d) ↔ (p → P c) := by
  split <;> simp [*]

theorem forall_endCalls (h : ∀ dev stop, P (.configEnd dev stop)) (root : Bool)
    (target : Option Nat) (stop : Text) : ∀ c ∈ endCalls root target stop, P c := by
  cases target with
  | none => exact fun _ h => (List.not_mem_nil h).elim
  | some dev => exact forall_mem_ite.mpr fun _ => h dev stop

end CallLists

/-- The calls of these entries are safe iff no orphan has a range. -/
def EntriesSafe (g : Entries) : Prop :=
  ∀ (root : Bool) (c : Ctx) (w : Walk), (∀ d ∈ g.calls root c w, d.Safe) ↔
    ¬ (c.Orphan ∧ g.hasRange = true) ∧ g.orphans = false

theorem EntriesSafe.group {body : Entries} (hE : EntriesSafe body) (start : Text) (k : Key)
    (parent : List Key) (flags : Nat) (target : Option Nat) (w : Walk) :
    (∀ d ∈ groupCalls body start ⟨k :: parent, flags, target⟩ w, d.Safe) ↔
      (decide (flags ≠ 0) && body.isRoot && body.hasRange || body.orphans) = false := by
  unfold groupCalls
  rw [List.forall_mem_append, forall_mem_ite, hE]
  cases body.isRoot with
  | true => simp [Ctx.Orphan, Ctx.enter, Call.Safe]
  | false => simp [Ctx.Orphan, Ctx.enter]

mutual

/-- **The calls are safe iff no group that is a device and a range holds one.** -/
theorem Entries.calls_safe : ∀ g : Entries, EntriesSafe g
  | .stop _, _, _, _ => by simp [Entries.calls, Entries.hasRange, Entries.orphans]
  | .entry key vals rest, root, c, w => by
    rw [Entries.calls, List.forall_mem_append, List.forall_mem_append, Values.calls_safe vals,
      Entries.calls_safe rest,
      Entries.hasRange, Entries.orphans]
    have hend := forall_endCalls (P := Call.Safe) (fun _ _ => trivial) root c.target
      (skipNewline (closeEntry vals.last))
    have hkey : (w.read key).key = keyAt key := rfl
    rw [hkey, Bool.or_eq_true, Bool.or_eq_false_iff]
    tauto

theorem Values.calls_safe : ∀ (v : Values) (iface : Bool) (flags : Nat) (c : Ctx) (w : Walk),
    (∀ d ∈ v.calls iface flags c w, d.Safe) ↔
      ¬ (c.Orphan ∧ v.hasRange w.key = true) ∧ v.orphans flags = false
  | .stop _, _, _, _, _ => by simp [Values.calls, Values.hasRange, Values.orphans]
  | .quoted here rest, iface, flags, c, w => by
    rw [Values.calls, List.forall_mem_append, forall_mem_ite, Values.calls_safe rest]
    simp [Call.Safe, Values.hasRange, Values.orphans]
  | .group here body rest, iface, flags, c, w => by
    rw [Values.calls_group, List.forall_mem_append, EntriesSafe.group (Entries.calls_safe body),
      Values.calls_safe rest, Entries.after_key, Values.hasRange, Values.orphans,
      Bool.or_eq_false_iff (y := rest.orphans flags)]
    have hkey : (w.enter body.isRoot).key = w.key := rfl
    rw [hkey]
    tauto
  | .bare here rest, iface, flags, c, w => by
    rw [Values.calls, List.forall_mem_append, List.forall_mem_append, List.forall_mem_append,
      forall_mem_ite, forall_mem_ite, forall_mem_ite,
      Values.calls_safe rest, Values.hasRange, Values.orphans]
    simp only [Call.Safe, Ctx.Orphan, Bool.or_eq_true, Bool.and_eq_true]
    tauto

end

/-- **All calls of a config string are safe iff no device is a range itself.** -/
theorem calls_safe_iff (config : Text) :
    (∀ c ∈ calls config, c.Safe) ↔ (scan config).orphans = false := by
  unfold calls groupCalls
  rw [List.forall_mem_append, forall_mem_ite, Entries.calls_safe]
  cases (scan config).isRoot with
  | true => simp [Ctx.Orphan, Ctx.enter, Call.Safe]
  | false => simp [Ctx.Orphan, Ctx.enter]

theorem flagsAt_braces {s : Text} (h : ∀ c ∈ s, c.val = openBrace) : flagsAt s = 0 := by
  have hskip : skipKey s = s := by
    cases s with
    | nil => rfl
    | cons c s => exact skipKey_brace s (h c List.mem_cons_self)
  rw [flagsAt, hskip, keyFlags, parserKeyEq, parserKeyEq, parserKeyEq, between, Nat.sub_self]
  rfl

mutual

/-- A text of nothing but `{` has no range. -/
theorem Entries.orphans_braces : ∀ (g : Entries) {s : Text}, g.At s →
    (∀ c ∈ s, c.val = openBrace) → g.orphans = false
  | .stop _, _, _, _ => rfl
  | .entry key vals rest, s, hg, hs => by
    obtain ⟨rfl, -, -, hv, hrest⟩ := hg
    have hvals : skipWhitespace (skipKey key) <:+ key :=
      (skipWhitespace_suffix _).trans (skipKey_suffix key)
    have hnext : skipWhitespace (closeEntry vals.last) <:+ key :=
      ((skipWhitespace_suffix _).trans (closeEntry_suffix _)).trans (hv.suffix.trans hvals)
    rw [Entries.orphans, flagsAt_braces hs,
      Values.orphans_braces vals hv fun c hc => hs c (hvals.subset hc),
      Entries.orphans_braces rest hrest fun c hc => hs c (hnext.subset hc)]
    rfl

theorem Values.orphans_braces : ∀ (v : Values) {s : Text}, v.At s →
    (∀ c ∈ s, c.val = openBrace) → v.orphans 0 = false
  | .stop _, _, _, _ => rfl
  | .quoted here rest, s, hv, hs => by
    obtain ⟨rfl, -, hrest⟩ := hv
    have hnext : skipWhitespace (skipString here.tail) <:+ here :=
      ((skipWhitespace_suffix _).trans (skipString_suffix _)).trans (List.tail_suffix here)
    exact Values.orphans_braces rest hrest fun c hc => hs c (hnext.subset hc)
  | .group here body rest, s, hv, hs => by
    obtain ⟨rfl, -, hbody, hrest⟩ := hv
    have htail : skipWhitespace here.tail <:+ here :=
      (skipWhitespace_suffix _).trans (List.tail_suffix here)
    have hnext : skipWhitespace (closeGroup body.last) <:+ here :=
      ((skipWhitespace_suffix _).trans (closeGroup_suffix _)).trans (hbody.suffix.trans htail)
    rw [Values.orphans, Entries.orphans_braces body hbody fun c hc => hs c (htail.subset hc),
      Values.orphans_braces rest hrest fun c hc => hs c (hnext.subset hc)]
    rfl
  | .bare here rest, s, hv, hs => by
    obtain ⟨rfl, -, -, -, -, hrest⟩ := hv
    have hnext : skipWhitespace (skipKey here.tail) <:+ here :=
      ((skipWhitespace_suffix _).trans (skipKey_suffix _)).trans (List.tail_suffix here)
    exact Values.orphans_braces rest hrest fun c hc => hs c (hnext.subset hc)

end

/-- With a byte of `roots[]` for every group, pass 1 reaches the first call that is not safe. -/
theorem not_parentPresent {config : Text} (hroom : (marks config).length ≤ config.length)
    (hu : ¬ ∀ c ∈ calls config, c.Safe) : ¬ ParentPresent config := by
  intro hp
  obtain ⟨⟨state, h⟩, e, -⟩ := detectRoots_returns hroom
  have hu : ∃ c ∈ calls config, ¬ c.Safe :=
    by_contra fun hno => hu fun c hc => by_contra fun hs => hno ⟨c, hc, hs⟩
  exact hp.count state h e (countResources_null (detectRoots_marked e).2 hu)

/-- **No pass follows a NULL parent iff no device is a range itself.** -/
theorem parentPresent_iff (config : Text) :
    ParentPresent config ↔ (scan config).orphans = false := by
  rw [← calls_safe_iff]
  by_cases hbraces : ∀ c ∈ config, c.val = openBrace
  · have hsafe : ∀ c ∈ calls config, c.Safe := (calls_safe_iff config).mpr
      ((scan config).orphans_braces (scan_at config) fun c hc =>
        hbraces c ((skipWhitespace_suffix config).subset hc))
    have e := detectRoots_braces hbraces
    refine iff_of_true ⟨?_, ?_, ?_⟩ hsafe
    · rw [e]
      exact nofun
    · rw [e]
      exact nofun
    · rw [e]
      exact nofun
  have hother : ∃ c ∈ config, c.val ≠ openBrace :=
    by_contra fun hno => hbraces fun c hc => by_contra fun hne => hno ⟨c, hc, hne⟩
  have hroom := marks_length_le hother
  constructor
  · intro hp
    by_contra hu
    exact not_parentPresent hroom hu hp
  · intro hsafe
    refine ⟨?_, fun state h e => ?_, fun state h state' h' e e₁ hf => ?_⟩
    · obtain ⟨r, er, -⟩ := detectRoots_returns hroom
      rw [er]
      exact nofun
    · obtain ⟨r, er, -⟩ := countResources_returns (detectRoots_marked e).2 hsafe
      rw [er]
      exact nofun
    · cases writeResources_fault (detectRoots_marked e).2 e₁ hf

/-- The device `mem` has an address range. -/
def memDevice : Text := cstring [109, 101, 109, 123, 105, 110, 116, 101, 114, 102, 97, 99, 101, 32,
  120, 59, 48, 32, 49, 59, 125]

theorem parentPresent_memDevice : ¬ ParentPresent memDevice := by
  refine not_parentPresent (by decide +kernel) ?_
  rw [calls_safe_iff]
  decide +kernel

end LowriscLinux.Config
