import LowriscLinux.Config.Walk

/-!
# Where a pass stops, and what pass 0 marks

The parts of `parse_config_string` (`arch/riscv/drivers/config.c`, lines 453-519) that do not depend
on the calls it makes: where its loops end, how many groups it enters, and what pass 0 leaves in
`roots[]` (lines 534-541), which later passes rely on.

* A pass takes one byte of `roots[]` for each group that it enters (`state.roots++`, line 460), in
  the order of the `{`s, and so each pass takes the same ones. `Stops` says that a run has stopped
  where the tree of the text ends, and has taken as many bytes as the tree has groups.
* `stamp` is what pass 0 leaves in these bytes: the mark of a group is set when its `interface` key
  is read (line 484), after those of the groups before that key have been entered.
* Pass 0 has `state.pass < HAVE_DEVICES` and no target, so no helper that it calls touches memory: a
  value of an `interface` key moves `names` (line 356), which nobody reads before pass 1 sets it.

Pass 0 reads `*am_root` again at the end of each entry (line 512), but without a target this does
nothing.

Results:
* `parseEntries_stops`, `parseConfigString_stops`: in any pass, a run that returns stops where the
  tree of the text ends, has taken one byte of `roots[]` for every group, and all of them were in
  the block.
* `parseEntries_detect`, `parseConfigString_detect`: pass 0 returns whenever `roots[]` has room for
  the groups, and marks those with an `interface` key (`stamp`).
* `stamp_marked`: in a zeroed block these marks are the ones passes 1 and 2 expect.
-/

namespace LowriscLinux.Config

open LowriscLinux.Lib

/-! ## Runs that return -/

theorem parseEntries_fuel {fuel am parentFlags : Nat} {state : ParserState} {parent : List Key}
    {target : Option Nat} {h : Heap} {r : ParserState × Heap}
    (e : parseEntries fuel am state parent parentFlags target h = .ok r) :
    ∃ n, fuel = n + 1 := by
  cases fuel with
  | zero => rw [parseEntries] at e; cases e
  | succ n => exact ⟨n, rfl⟩

theorem parseValues_fuel {fuel flags parentFlags : Nat} {iface : Bool} {state : ParserState}
    {parent : List Key} {target : Option Nat} {h : Heap} {r : ParserState × Heap}
    (e : parseValues fuel iface flags state parent parentFlags target h = .ok r) :
    ∃ n, fuel = n + 1 := by
  cases fuel with
  | zero => rw [parseValues] at e; cases e
  | succ n => exact ⟨n, rfl⟩

/-- An activation that returns had a byte of `roots[]` and ran its loop. -/
theorem parseConfigString_inv {fuel pass parentFlags names : Nat} {s : Text} {w : Walk}
    {parent : List Key} {target : Option Nat} {h : Heap} {r : ParserState × Heap}
    (e : parseConfigString fuel (w.state pass s names) parent parentFlags target h = .ok r) :
    ∃ n root parent' target' names' h', w.roots < h.roots.length ∧ h'.roots = h.roots ∧
      parseEntries n w.roots ((w.enter root).state pass (skipWhitespace s) names') parent'
        parentFlags target' h' = .ok r := by
  cases fuel with
  | zero => rw [parseConfigString] at e; cases e
  | succ n =>
    cases hr : h.roots[w.roots]? with
    | none =>
      have hr' : h.roots[(w.state pass s names).roots]? = none := hr
      rw [parseConfigString] at e
      simp only [hr'] at e
      cases e
    | some root =>
      have hlt : w.roots < h.roots.length := (List.getElem?_eq_some_iff.mp hr).1
      by_cases h0 : root = 0
      · subst h0
        rw [parseConfigString_plain hr] at e
        exact ⟨n, false, parent, target, names, h, hlt, rfl, e⟩
      · by_cases hp : HAVE_DEVICES ≤ pass
        · rw [parseConfigString_root hp hr h0] at e
          obtain ⟨r1, e1, e2⟩ := bind_eq_ok.mp e
          exact ⟨n, true, [], some w.devices, r1.1, r1.2, hlt, openDevice_roots e1, e2⟩
        · rw [parseConfigString_mark hp hr h0] at e
          exact ⟨n, true, [], target, names, h, hlt, rfl, e⟩

/-- What a run over `s` that returns `r` has done, whatever the pass: `last` is where it stops
and `groups` the number of groups it entered. -/
structure Stops (pass : Nat) (last : Text) (groups : Nat) (w : Walk) (h : Heap)
    (r : ParserState × Heap) : Prop where
  pass : r.1.pass = pass
  config : r.1.config = last
  roots : r.1.roots = w.roots + groups
  room : 0 < groups → w.roots + groups ≤ h.roots.length
  length : r.2.roots.length = h.roots.length

/-- A run continues from where an earlier one stopped. -/
theorem Stops.trans {pass m n : Nat} {last : Text} {w w' : Walk} {h h' : Heap}
    {r : ParserState × Heap} (hw : w'.roots = w.roots + m) (hm : 0 < m → w.roots + m ≤ h.roots.length)
    (hl : h'.roots.length = h.roots.length) (hs : Stops pass last n w' h' r) :
    Stops pass last (m + n) w h r where
  pass := hs.pass
  config := hs.config
  roots := by rw [hs.roots, hw, Nat.add_assoc]
  room := by
    intro h0
    rcases Nat.eq_zero_or_pos n with hn | hn
    · rw [hn, Nat.add_zero] at h0 ⊢
      exact hm h0
    · have := hs.room hn
      rw [hw, hl] at this
      rw [← Nat.add_assoc]
      exact this
  length := hs.length.trans hl

/-- Any state of the parser is a walk's. -/
theorem ParserState.eq_state (state : ParserState) (config : Text) :
    { state with config := config } =
      Walk.state ⟨state.roots, state.devices, ⟨state.keyStart, state.keyEnd⟩⟩ state.pass config
        state.names := rfl

/-- A run of the loop over these entries stops where they end, in any pass. -/
def EntriesStop (g : Entries) : Prop :=
  ∀ {s : Text} {fuel am pass names parentFlags : Nat} {w : Walk} {parent : List Key}
    {target : Option Nat} {h : Heap} {r : ParserState × Heap}, g.At s →
    parseEntries fuel am (w.state pass s names) parent parentFlags target h = .ok r →
    Stops pass g.last g.nested.length w h r

/-- An activation stops where its loop does. -/
theorem EntriesStop.group {body : Entries} (hE : EntriesStop body) {s : Text}
    {fuel pass names parentFlags : Nat} {w : Walk} {parent : List Key} {target : Option Nat}
    {h : Heap} {r : ParserState × Heap} (hb : body.At (skipWhitespace s))
    (e : parseConfigString fuel (w.state pass s names) parent parentFlags target h = .ok r) :
    Stops pass body.last (body.nested.length + 1) w h r := by
  obtain ⟨n, root, parent', target', names', h', hlt, hh, e⟩ := parseConfigString_inv e
  have hs := hE hb e
  rw [Nat.add_comm]
  exact hs.trans (w := w) rfl (fun _ => hlt) (by rw [hh])

mutual

/-- **A run stops where the tree ends**, in any pass. -/
theorem parseEntries_stops : ∀ g : Entries, EntriesStop g
  | .stop here, s, fuel, _, _, _, _, w, _, _, h, r, hg, e => by
    obtain ⟨rfl, h0⟩ := hg
    obtain ⟨n, rfl⟩ := parseEntries_fuel e
    rw [parseEntries_stop h0] at e
    cases e
    exact ⟨rfl, rfl, rfl, fun h => absurd h (Nat.lt_irrefl 0), rfl⟩
  | .entry key vals rest, s, fuel, am, pass, names, parentFlags, w, parent, target, h, r, hg, e => by
    obtain ⟨rfl, h0, hb, hv, hrest⟩ := hg
    obtain ⟨n, rfl⟩ := parseEntries_fuel e
    rw [parseEntries_entry h0 hb] at e
    obtain ⟨r1, e1, e⟩ := bind_eq_ok.mp e
    obtain ⟨h2, e2, e3⟩ := bind_eq_ok.mp e
    have hs1 := parseValues_stops vals hv e1
    rw [ParserState.eq_state, hs1.config, hs1.pass] at e3
    have hset : (if isInterface key = true then { h with roots := h.roots.set am 1 }
        else h).roots.length = h.roots.length := by
      split_ifs
      · exact List.length_set
      · rfl
    have hs2 := parseEntries_stops rest hrest e3
    rw [Entries.nested, List.length_append]
    refine hs2.trans (w := w) hs1.roots (fun hm => hset ▸ hs1.room hm) ?_
    rw [recordEnd_roots e2, hs1.length, hset]

theorem parseValues_stops : ∀ (v : Values) {s : Text} {fuel pass flags names parentFlags : Nat}
    {iface : Bool} {w : Walk} {parent : List Key} {target : Option Nat} {h : Heap}
    {r : ParserState × Heap}, v.At s →
    parseValues fuel iface flags (w.state pass s names) parent parentFlags target h = .ok r →
    Stops pass v.last v.nested.length w h r
  | .stop here, s, fuel, _, _, _, _, _, w, _, _, h, r, hv, e => by
    obtain ⟨rfl, h0⟩ := hv
    obtain ⟨n, rfl⟩ := parseValues_fuel e
    rw [parseValues_stop h0] at e
    cases e
    exact ⟨rfl, rfl, rfl, fun h => absurd h (Nat.lt_irrefl 0), rfl⟩
  | .quoted here rest, s, fuel, _, _, _, _, _, w, _, _, h, r, hv, e => by
    obtain ⟨rfl, hq, hrest⟩ := hv
    obtain ⟨n, rfl⟩ := parseValues_fuel e
    rw [parseValues_quoted hq] at e
    obtain ⟨r1, e1, e2⟩ := bind_eq_ok.mp e
    have hs := parseValues_stops rest hrest e2
    rw [← Nat.zero_add (Values.nested _).length]
    exact hs.trans (w := w) rfl (fun h => absurd h (Nat.lt_irrefl 0))
      (by rw [runCalls_roots e1])
  | .group here body rest, s, fuel, _, _, _, _, _, w, _, _, h, r, hv, e => by
    obtain ⟨rfl, ho, hbody, hrest⟩ := hv
    obtain ⟨n, rfl⟩ := parseValues_fuel e
    rw [parseValues_group ho] at e
    obtain ⟨r1, e1, e2⟩ := bind_eq_ok.mp e
    have hs1 := EntriesStop.group (parseEntries_stops body) (by rwa [skipWhitespace_skipNewline]) e1
    rw [ParserState.eq_state, hs1.config, hs1.pass] at e2
    have hs2 := parseValues_stops rest hrest e2
    rw [Values.nested, List.length_cons, List.length_append, Nat.add_right_comm]
    exact hs2.trans (w := w) hs1.roots hs1.room hs1.length
  | .bare here rest, s, fuel, _, _, _, _, _, w, _, _, h, r, hv, e => by
    obtain ⟨rfl, h0, hs, hq, ho, hrest⟩ := hv
    obtain ⟨n, rfl⟩ := parseValues_fuel e
    rw [parseValues_bare h0 hs hq ho] at e
    obtain ⟨r1, e1, e2⟩ := bind_eq_ok.mp e
    have hs := parseValues_stops rest hrest e2
    rw [← Nat.zero_add (Values.nested _).length]
    exact hs.trans (w := w) rfl (fun h => absurd h (Nat.lt_irrefl 0))
      (by rw [runCalls_roots e1])

end

/-- An activation stops where the tree of its group ends. -/
theorem parseConfigString_stops {body : Entries} {s : Text} {fuel pass names parentFlags : Nat}
    {w : Walk} {parent : List Key} {target : Option Nat} {h : Heap} {r : ParserState × Heap}
    (hb : body.At (skipWhitespace s))
    (e : parseConfigString fuel (w.state pass s names) parent parentFlags target h = .ok r) :
    Stops pass body.last (body.nested.length + 1) w h r :=
  EntriesStop.group (parseEntries_stops body) hb e

/-! ## Pass 0 -/

/-- Set the bytes of `roots[]` from `k` on whose mark is set. -/
def stamp : List UInt8 → Nat → List Bool → List UInt8
  | roots, _, [] => roots
  | roots, k, b :: marks => stamp (if b then roots.set k 1 else roots) (k + 1) marks

theorem stamp_append : ∀ (as bs : List Bool) (roots : List UInt8) (k : Nat),
    stamp roots k (as ++ bs) = stamp (stamp roots k as) (k + as.length) bs
  | [], _, _, _ => rfl
  | a :: as, bs, roots, k => by
    rw [List.cons_append, stamp, stamp, stamp_append as, List.length_cons, Nat.add_assoc,
      Nat.add_comm 1]

/-- The order in which groups are marked does not matter. -/
theorem stamp_set : ∀ (marks : List Bool) (roots : List UInt8) (k i : Nat),
    stamp (roots.set i 1) k marks = (stamp roots k marks).set i 1
  | [], _, _, _ => rfl
  | b :: marks, roots, k, i => by
    cases b with
    | false => exact stamp_set marks roots (k + 1) i
    | true =>
      simp only [stamp, if_true]
      rw [← stamp_set marks (roots.set k 1) (k + 1) i]
      by_cases hki : k = i
      · rw [hki]
      · rw [List.set_comm _ _ hki]

/-- Marks from `k` on leave the bytes before `k` alone. -/
theorem stamp_before : ∀ (marks : List Bool) (roots : List UInt8) (k i : Nat), i < k →
    (stamp roots k marks)[i]? = roots[i]?
  | [], _, _, _, _ => rfl
  | b :: marks, roots, k, i, hi => by
    rw [stamp, stamp_before marks _ _ _ (by omega)]
    split_ifs
    · exact List.getElem?_set_ne (by omega)
    · rfl

/-- In a block that was zero from `k` on, exactly the given marks are set. -/
theorem stamp_marked : ∀ (marks : List Bool) (roots : List UInt8) (k : Nat),
    (∀ i, k ≤ i → i < k + marks.length → roots[i]? = some 0) →
    Marked (stamp roots k marks) k marks
  | [], _, _, _ => List.nil_prefix
  | b :: marks, roots, k, h0 => by
    rw [marked_cons, stamp]
    have hk : roots[k]? = some 0 := h0 k (Nat.le_refl k) (by simp)
    constructor
    · rw [stamp_before marks _ _ _ (Nat.lt_succ_self k)]
      cases b with
      | false => exact hk
      | true => exact List.getElem?_set_self (List.getElem?_eq_some_iff.mp hk).1
    · refine stamp_marked marks _ _ fun i hi hlt => ?_
      have hroots : (if b = true then roots.set k 1 else roots)[i]? = roots[i]? := by
        split_ifs
        · exact List.getElem?_set_ne (by omega)
        · rfl
      rw [hroots]
      exact h0 i (by omega) (by rw [List.length_cons]; omega)

theorem mem_if {p : Prop} [Decidable p] {c d : Call} (h : c ∈ if p then [d] else []) : c = d := by
  split at h
  · exact List.mem_singleton.mp h
  · cases h

/-- The calls pass 0 makes return: nothing is stored and nothing has a target. -/
theorem runCalls_detect {s : Text} {iface : Bool} {key : Key} {parent : List Key}
    {flags parentFlags : Nat} (names : Nat) (h : Heap) :
    Returns (runCalls 0 ((if iface then [Call.interface s none] else []) ++
      (if parentFlags ≠ 0 then [.range s key parent parentFlags none] else []) ++
      (if flags ≠ 0 then [.single s parent flags none] else [])) names h)
      fun r => r.2.roots = h.roots := by
  have hi : ∀ names h, Returns ((Call.interface s none).exec 0 names h) fun _ => True := by
    intro names h
    simp only [Call.exec, parseInterface, parseString_eq, bind, Except.bind]
    exact .ok trivial
  have hr : ∀ names h, Returns ((Call.range s key parent parentFlags none).exec 0 names h)
      fun _ => True := by
    intro names h
    simp only [Call.exec, parseRange, lastPass, bind, Except.bind]
    split_ifs <;> exact .ok trivial
  have hs : ∀ names h, Returns ((Call.single s parent flags none).exec 0 names h)
      fun _ => True := by
    intro names h
    simp only [Call.exec, parseSingle, lastPass, bind, Except.bind]
    split_ifs <;> exact .ok trivial
  refine (runCalls_total (fun c hc => ?_) names h).imp fun r e _ => runCalls_roots e
  simp only [List.mem_append] at hc
  rcases hc with (hc | hc) | hc
  · rw [mem_if hc]; exact hi
  · rw [mem_if hc]; exact hr
  · rw [mem_if hc]; exact hs

/-- Marking one group keeps the size of the block. -/
theorem markIf_length (iface : Bool) (h : Heap) (am : Nat) :
    (if iface then { h with roots := h.roots.set am 1 } else h).roots.length = h.roots.length := by
  split_ifs
  · exact List.length_set
  · rfl

/-- The marks an entry and the entries after it set. -/
theorem stamp_entry (iface isRoot : Bool) (as bs : List Bool) (h : Heap) (am k : Nat) :
    stamp (if isRoot then
        (stamp (if iface then { h with roots := h.roots.set am 1 } else h).roots k as).set am 1
      else stamp (if iface then { h with roots := h.roots.set am 1 } else h).roots k as)
      (k + as.length) bs =
      stamp (if iface || isRoot then h.roots.set am 1 else h.roots) k (as ++ bs) := by
  rw [stamp_append]
  cases iface with
  | true =>
    cases isRoot with
    | true => simp [stamp_set]
    | false => rfl
  | false =>
    cases isRoot with
    | true => simp [stamp_set]
    | false => rfl

/-- Pass 0 marks the groups of these entries, whenever `roots[]` has a byte for each. -/
def EntriesDetect (g : Entries) : Prop :=
  ∀ {s : Text} {fuel am names parentFlags : Nat} {w : Walk} {parent : List Key} {h : Heap},
    g.At s → 3 * s.length + 2 ≤ fuel → am < h.roots.length →
    w.roots + g.nested.length ≤ h.roots.length →
    Returns (parseEntries fuel am (w.state 0 s names) parent parentFlags none h) fun r =>
      r.2.roots = stamp (if g.isRoot then h.roots.set am 1 else h.roots) w.roots g.nested

theorem EntriesDetect.group {body : Entries} (hE : EntriesDetect body) {b : Text}
    {fuel names parentFlags : Nat} {w : Walk} {parent : List Key} {h : Heap}
    (hb : body.At (skipWhitespace b)) (hf : 3 * (skipWhitespace b).length + 3 ≤ fuel)
    (hm : w.roots + (body.nested.length + 1) ≤ h.roots.length) :
    Returns (parseConfigString fuel (w.state 0 b names) parent parentFlags none h) fun r =>
      r.2.roots = stamp h.roots w.roots (body.isRoot :: body.nested) := by
  obtain ⟨n, rfl⟩ : ∃ n, fuel = n + 1 := ⟨fuel - 1, by omega⟩
  have ham : w.roots < h.roots.length := by omega
  obtain ⟨root, hroot⟩ : ∃ root, h.roots[w.roots]? = some root :=
    ⟨_, List.getElem?_eq_getElem ham⟩
  have hroom : w.roots + 1 + body.nested.length ≤ h.roots.length := by omega
  by_cases h0 : root = 0
  · subst h0
    rw [parseConfigString_plain hroot]
    exact hE hb (by omega) ham hroom
  · rw [parseConfigString_mark (by decide) hroot h0]
    exact hE hb (by omega) ham hroom

mutual

/-- **Pass 0 marks the groups with an `interface` key**, whenever `roots[]` has a byte for every
group. -/
theorem parseEntries_detect : ∀ g : Entries, EntriesDetect g
  | .stop here, s, fuel, am, names, _, w, _, h, hg, hf, _, _ => by
    obtain ⟨n, rfl⟩ : ∃ n, fuel = n + 1 := ⟨fuel - 1, by omega⟩
    obtain ⟨rfl, h0⟩ := hg
    exact ⟨_, parseEntries_stop h0, rfl⟩
  | .entry key vals rest, s, fuel, am, names, parentFlags, w, parent, h, hg, hf, ham, hroom => by
    obtain ⟨n, rfl⟩ : ∃ n, fuel = n + 1 := ⟨fuel - 1, by omega⟩
    obtain ⟨rfl, h0, hb, hv, hrest⟩ := hg
    have hlt := entry_lt h0 hv
    have hk := ((skipWhitespace_suffix _).trans (skipKey_suffix key)).length_le
    rw [Entries.nested, List.length_append] at hroom
    have hlen := markIf_length (isInterface key) h am
    rw [parseEntries_entry h0 hb]
    refine Returns.bind (parseValues_detect vals hv (by omega)
      (by rw [hlen, Walk.read_roots]; omega)) fun r1 e1 hr1 => ?_
    have hs := parseValues_stops vals hv e1
    obtain ⟨b, hb⟩ : ∃ b, r1.2.roots[am]? = some b := by
      have ham' : am < r1.2.roots.length := by rw [hs.length, hlen]; exact ham
      exact ⟨_, List.getElem?_eq_getElem ham'⟩
    rw [hb, hs.pass, hs.config, ParserState.eq_state, hs.pass]
    refine (parseEntries_detect rest hrest (by omega) ?_ ?_).imp fun r e hr => ?_
    · rw [hs.length, hlen]; exact ham
    · show r1.1.roots + _ ≤ _
      rw [hs.roots, hs.length, hlen, Walk.read_roots]
      omega
    · rw [hr, hr1]
      show stamp _ r1.1.roots _ = _
      rw [hs.roots]
      exact stamp_entry (isInterface key) rest.isRoot vals.nested rest.nested h am w.roots

theorem parseValues_detect : ∀ (v : Values) {s : Text} {fuel flags names parentFlags : Nat}
    {iface : Bool} {w : Walk} {parent : List Key} {h : Heap}, v.At s → 3 * s.length + 1 ≤ fuel →
    w.roots + v.nested.length ≤ h.roots.length →
    Returns (parseValues fuel iface flags (w.state 0 s names) parent parentFlags none h) fun r =>
      r.2.roots = stamp h.roots w.roots v.nested
  | .stop here, s, fuel, _, _, _, _, _, _, h, hv, hf, _ => by
    obtain ⟨n, rfl⟩ : ∃ n, fuel = n + 1 := ⟨fuel - 1, by omega⟩
    obtain ⟨rfl, h0⟩ := hv
    exact ⟨_, parseValues_stop h0, rfl⟩
  | .quoted here rest, s, fuel, flags, names, _, iface, w, parent, h, hv, hf, hm => by
    obtain ⟨n, rfl⟩ : ∃ n, fuel = n + 1 := ⟨fuel - 1, by omega⟩
    obtain ⟨rfl, hq, hrest⟩ := hv
    have hlt := after_lt (skipString_suffix _) (ne_zero_of_eq (by decide) hq)
    rw [parseValues_quoted hq]
    have hcall := @runCalls_detect here iface w.key parent 0 0 names h
    simp only [ne_eq, not_true_eq_false, if_false, List.append_nil] at hcall
    refine hcall.bind fun r1 e1 hr1 => ?_
    rw [Values.nested, ← hr1]
    exact parseValues_detect rest hrest (by omega) (by rw [hr1]; exact hm)
  | .group here body rest, s, fuel, flags, names, parentFlags, iface, w, parent, h,
      hv, hf, hm => by
    obtain ⟨n, rfl⟩ : ∃ n, fuel = n + 1 := ⟨fuel - 1, by omega⟩
    obtain ⟨rfl, ho, hbody, hrest⟩ := hv
    have hlt := after_group_lt ho hbody
    have hlt' := after_lt (f := id) (List.suffix_refl _) (ne_zero_of_eq (by decide) ho)
    simp only [id] at hlt'
    rw [Values.nested, List.length_cons, List.length_append] at hm
    rw [← skipWhitespace_skipNewline] at hbody hlt'
    rw [parseValues_group ho]
    refine Returns.bind (EntriesDetect.group (parseEntries_detect body) hbody (by omega) (by omega))
      fun r1 e1 hr1 => ?_
    have hs := parseConfigString_stops hbody e1
    rw [hs.config, ParserState.eq_state, hs.pass]
    refine (parseValues_detect rest hrest (by omega) ?_).imp fun r e hr => ?_
    · show r1.1.roots + _ ≤ _
      rw [hs.roots, hs.length]
      omega
    · rw [hr, hr1]
      show stamp _ r1.1.roots _ = _
      rw [hs.roots, Values.nested, ← List.cons_append, stamp_append, List.length_cons]
  | .bare here rest, s, fuel, flags, names, parentFlags, iface, w, parent, h,
      hv, hf, hm => by
    obtain ⟨n, rfl⟩ : ∃ n, fuel = n + 1 := ⟨fuel - 1, by omega⟩
    obtain ⟨rfl, h0, hs, hq, ho, hrest⟩ := hv
    have hlt := after_lt (skipKey_suffix _) h0
    rw [parseValues_bare h0 hs hq ho]
    refine (runCalls_detect names h).bind fun r1 e1 hr1 => ?_
    rw [Values.nested, ← hr1]
    exact parseValues_detect rest hrest (by omega) (by rw [hr1]; exact hm)

end

/-- **Pass 0 on a whole group.** -/
theorem parseConfigString_detect {body : Entries} {b : Text} {fuel names parentFlags : Nat}
    {w : Walk} {parent : List Key} {h : Heap} (hb : body.At (skipWhitespace b))
    (hf : 3 * (skipWhitespace b).length + 3 ≤ fuel)
    (hm : w.roots + (body.nested.length + 1) ≤ h.roots.length) :
    Returns (parseConfigString fuel (w.state 0 b names) parent parentFlags none h) fun r =>
      r.2.roots = stamp h.roots w.roots (body.isRoot :: body.nested) :=
  EntriesDetect.group (parseEntries_detect body) hb hf hm

end LowriscLinux.Config
