import LowriscLinux.Config.Lookup
import LowriscLinux.Config.PointerFind

/-!
# The scanners end inside the string

The parser of lists (`Config/Parser.lean`) and that with pointers (`Config/PointerParser.lean`) have
a bound on their recursion, as each loop of `parse_config_string` (`arch/riscv/drivers/config.c`,
lines 476-516 and 490-510) is a recursive function of its own. An activation, an entry and a value
each take at least a byte of the text, and the scanners go forward, so three times the length of the
text is enough (`fuelFor`). The lookups have the same bound in `Config/Lookup.lean` and
`Config/PointerFind.lean`.

* `EntriesHalt`: the loop over some entries does not end for want of fuel, whatever the pass, the
  state and the heap are. Its other faults are not excluded: after one the source is undefined, and
  the run of the model has ended too.

Results:
* `parseConfigString_no_fuel`: the parser of lists has enough fuel with three times the length of
  the text, in any pass and whatever the state and the heap are.
* **`scanners_end`**: in memory, the scanners return, read nothing behind the terminator, and the
  pointer never goes back.
-/

namespace LowriscLinux.Config

open LowriscLinux.Lib

/-! ## The helpers of the parser do not recurse without a bound -/

section Helpers

variable {pass flags names : Nat} {parent : List Key} {target : Option Nat} {h : Heap}

theorem storeName_no_fuel (off : Nat) (b : UInt8) : h.storeName off b ≠ .error .fuel := by
  unfold Heap.storeName
  split_ifs <;> nofun

theorem storeNames_no_fuel : ∀ (bs : List UInt8) {h : Heap} (off : Nat),
    h.storeNames off bs ≠ .error .fuel
  | [], _, _ => nofun
  | b :: bs, _, off =>
    bind_ne_error (storeName_no_fuel off b) fun _ _ => storeNames_no_fuel bs (off + 1)

theorem device_no_fuel (i : Nat) : h.device i ≠ .error .fuel := by
  unfold Heap.device
  cases h.devices[i]? <;> nofun

theorem configPathHelper_no_fuel : ∀ {parent : List Key} {names : Nat} {h : Heap},
    configPathHelper pass parent names h ≠ .error .fuel
  | [], _, _ => nofun
  | k :: up, names, h => by
    refine bind_ne_error ?_ fun r _ => bind_ne_error ?_ fun h' _ => ok_ne_error
    · split_ifs
      · nofun
      · exact configPathHelper_no_fuel
    · split_ifs
      · exact storeNames_no_fuel _ _
      · nofun

theorem configPath_no_fuel : configPath pass parent names h ≠ .error .fuel := by
  cases parent with
  | nil => nofun
  | cons k up =>
    refine bind_ne_error configPathHelper_no_fuel fun r _ => bind_ne_error ?_ fun h' _ => ok_ne_error
    split_ifs
    · exact storeName_no_fuel _ _
    · nofun

theorem parseInterface_no_fuel (config : Text) :
    parseInterface pass config target names h ≠ .error .fuel := by
  refine bind_ne_error ?_ fun h' _ => bind_ne_error (storeNames_no_fuel _ _) fun h' _ => ok_ne_error
  cases target with
  | none => nofun
  | some t => exact bind_ne_error (device_no_fuel t) fun d _ => ok_ne_error

theorem lastPass_no_fuel : lastPass h target ≠ .error .fuel := by
  cases target with
  | none => nofun
  | some t => exact bind_ne_error (device_no_fuel t) fun d _ => ok_ne_error

theorem addResource_no_fuel (t : Nat) (name : Name) (start stop : BitVec 64) :
    addResource h t name flags start stop ≠ .error .fuel := by
  refine bind_ne_error (device_no_fuel t) fun d _ => bind_ne_error ?_ fun h' _ => ok_ne_error
  cases d.resource with
  | none => nofun
  | some base =>
    refine bind_ne_error ?_ fun c _ => ?_
    · unfold Heap.nameHead
      split
      · nofun
      · split <;> nofun
    · unfold Heap.storeResource
      split_ifs <;> nofun

theorem parseRange_no_fuel (config keyStart keyEnd : Text) :
    parseRange pass config keyStart keyEnd parent flags target names h ≠ .error .fuel := by
  refine bind_ne_error lastPass_no_fuel fun last _ => ?_
  by_cases hkey : (parseU64 keyStart).1 ≠ keyEnd
  · simp only [if_pos hkey]
    exact ok_ne_error
  simp only [if_neg hkey]
  by_cases hvalue : (parseU64 config).1 ≠ skipKey config
  · simp only [if_pos hvalue]
    exact ok_ne_error
  simp only [if_neg hvalue]
  cases target with
  | none => exact ok_ne_error
  | some t =>
    cases parent with
    | nil => exact error_ne_error (by decide)
    | cons k up =>
      exact bind_ne_error configPath_no_fuel fun r _ =>
        bind_ne_error (addResource_no_fuel _ _ _ _) fun h' _ => ok_ne_error

theorem parseSingle_no_fuel (config : Text) :
    parseSingle pass config parent flags target names h ≠ .error .fuel := by
  refine bind_ne_error lastPass_no_fuel fun last _ => ?_
  by_cases hvalue : (parseU64 config).1 ≠ skipKey config
  · simp only [if_pos hvalue]
    exact ok_ne_error
  simp only [if_neg hvalue]
  cases target with
  | none => exact ok_ne_error
  | some t =>
    exact bind_ne_error configPath_no_fuel fun r _ =>
      bind_ne_error (addResource_no_fuel _ _ _ _) fun h' _ => ok_ne_error

theorem openDevice_no_fuel (dev group : Nat) (config : Text) :
    openDevice pass dev group flags parent config names h ≠ .error .fuel :=
  bind_ne_error configPath_no_fuel fun _ _ => bind_ne_error (device_no_fuel dev) fun _ _ => ok_ne_error

theorem setConfigEnd_no_fuel (dev : Nat) (stop : Text) : setConfigEnd dev stop h ≠ .error .fuel :=
  bind_ne_error (device_no_fuel dev) fun _ _ => ok_ne_error

theorem recordEnd_no_fuel (root : Option UInt8) (stop : Text) :
    recordEnd pass root target stop h ≠ .error .fuel := by
  unfold recordEnd
  split
  · nofun
  · split_ifs
    · exact setConfigEnd_no_fuel _ _
    · nofun
  · nofun

theorem exec_no_fuel (c : Call) : c.exec pass names h ≠ .error .fuel := by
  cases c with
  | device => exact openDevice_no_fuel _ _ _
  | interface => exact parseInterface_no_fuel _
  | range => exact parseRange_no_fuel _ _ _
  | single => exact parseSingle_no_fuel _
  | configEnd => exact bind_ne_error (setConfigEnd_no_fuel _ _) fun _ _ => ok_ne_error

theorem runCalls_no_fuel : ∀ (cs : List Call) {names : Nat} {h : Heap},
    runCalls pass cs names h ≠ .error .fuel
  | [], _, _ => nofun
  | c :: cs, _, _ => bind_ne_error (exec_no_fuel c) fun _ _ => runCalls_no_fuel cs

end Helpers

/-! ## Three times the length is enough -/

/-- The loop over these entries does not run out of fuel, in any pass. -/
def EntriesHalt (g : Entries) : Prop :=
  ∀ {s : Text} {fuel am pass names parentFlags : Nat} {w : Walk} {parent : List Key}
    {target : Option Nat} {h : Heap}, g.At s → 3 * s.length + 2 ≤ fuel →
    parseEntries fuel am (w.state pass s names) parent parentFlags target h ≠ .error .fuel

/-- An activation does not run out of fuel when its loop does not. -/
theorem EntriesHalt.group {body : Entries} (hE : EntriesHalt body) {s : Text}
    {fuel pass names parentFlags : Nat} {w : Walk} {parent : List Key} {target : Option Nat}
    {h : Heap} (hb : body.At (skipWhitespace s)) (hf : 3 * s.length + 3 ≤ fuel) :
    parseConfigString fuel (w.state pass s names) parent parentFlags target h ≠ .error .fuel := by
  obtain ⟨n, rfl⟩ : ∃ n, fuel = n + 1 := ⟨fuel - 1, by omega⟩
  have hle := (skipWhitespace_suffix s).length_le
  cases hr : h.roots[w.roots]? with
  | none =>
    have hr' : h.roots[(w.state pass s names).roots]? = none := hr
    rw [parseConfigString]
    simp only [hr']
    nofun
  | some root =>
    by_cases h0 : root = 0
    · subst h0
      rw [parseConfigString_plain hr]
      exact hE hb (by omega)
    · by_cases hp : HAVE_DEVICES ≤ pass
      · rw [parseConfigString_root hp hr h0]
        exact bind_ne_error (openDevice_no_fuel _ _ _) fun r _ => hE hb (by omega)
      · rw [parseConfigString_mark hp hr h0]
        exact hE hb (by omega)

mutual

/-- **Three times the length is enough fuel**, in any pass. -/
theorem parseEntries_no_fuel : ∀ g : Entries, EntriesHalt g
  | .stop here, s, fuel, _, _, _, _, w, _, _, h, hg, hf => by
    obtain ⟨n, rfl⟩ : ∃ n, fuel = n + 1 := ⟨fuel - 1, by omega⟩
    obtain ⟨rfl, h0⟩ := hg
    rw [parseEntries_stop h0]
    nofun
  | .entry key vals rest, s, fuel, am, pass, names, parentFlags, w, parent, target, h, hg, hf => by
    obtain ⟨n, rfl⟩ : ∃ n, fuel = n + 1 := ⟨fuel - 1, by omega⟩
    obtain ⟨rfl, h0, hb, hv, hrest⟩ := hg
    have hlt := entry_lt h0 hv
    have hle := ((skipWhitespace_suffix _).trans (skipKey_suffix key)).length_le
    rw [parseEntries_entry h0 hb]
    refine bind_ne_error (parseValues_no_fuel vals hv (by omega)) fun r e => ?_
    refine bind_ne_error (recordEnd_no_fuel _ _) fun h' _ => ?_
    have hs := parseValues_stops vals hv e
    rw [ParserState.eq_state, hs.config, hs.pass]
    exact parseEntries_no_fuel rest hrest (by omega)

theorem parseValues_no_fuel : ∀ (v : Values) {s : Text} {fuel pass flags names parentFlags : Nat}
    {iface : Bool} {w : Walk} {parent : List Key} {target : Option Nat} {h : Heap}, v.At s →
    3 * s.length + 1 ≤ fuel →
    parseValues fuel iface flags (w.state pass s names) parent parentFlags target h ≠ .error .fuel
  | .stop here, s, fuel, _, _, _, _, _, w, _, _, h, hv, hf => by
    obtain ⟨n, rfl⟩ : ∃ n, fuel = n + 1 := ⟨fuel - 1, by omega⟩
    obtain ⟨rfl, h0⟩ := hv
    rw [parseValues_stop h0]
    nofun
  | .quoted here rest, s, fuel, _, _, _, _, _, w, _, _, h, hv, hf => by
    obtain ⟨n, rfl⟩ : ∃ n, fuel = n + 1 := ⟨fuel - 1, by omega⟩
    obtain ⟨rfl, hq, hrest⟩ := hv
    have hlt := after_lt (skipString_suffix _) (ne_zero_of_eq (by decide) hq)
    rw [parseValues_quoted hq]
    exact bind_ne_error (runCalls_no_fuel _) fun r _ => parseValues_no_fuel rest hrest (by omega)
  | .group here body rest, s, fuel, _, _, _, _, _, w, _, _, h, hv, hf => by
    obtain ⟨n, rfl⟩ : ∃ n, fuel = n + 1 := ⟨fuel - 1, by omega⟩
    obtain ⟨rfl, ho, hbody, hrest⟩ := hv
    have hlt := after_group_lt ho hbody
    have htail := tail_lt (ne_zero_of_eq (by decide) ho)
    have hle := (skipNewline_suffix here.tail).length_le
    rw [← skipWhitespace_skipNewline] at hbody
    rw [parseValues_group ho]
    refine bind_ne_error (EntriesHalt.group (parseEntries_no_fuel body) hbody (by omega))
      fun r e => ?_
    have hs := parseConfigString_stops hbody e
    rw [ParserState.eq_state, hs.config, hs.pass]
    exact parseValues_no_fuel rest hrest (by omega)
  | .bare here rest, s, fuel, _, _, _, _, _, w, _, _, h, hv, hf => by
    obtain ⟨n, rfl⟩ : ∃ n, fuel = n + 1 := ⟨fuel - 1, by omega⟩
    obtain ⟨rfl, h0, hs, hq, ho, hrest⟩ := hv
    have hlt := after_lt (skipKey_suffix _) h0
    rw [parseValues_bare h0 hs hq ho]
    exact bind_ne_error (runCalls_no_fuel _) fun r _ => parseValues_no_fuel rest hrest (by omega)

end

theorem parseConfigString_no_fuel {state : ParserState} {fuel parentFlags : Nat}
    {parent : List Key} {target : Option Nat} {h : Heap} (hf : fuelFor state.config ≤ fuel) :
    parseConfigString fuel state parent parentFlags target h ≠ .error .fuel :=
  EntriesHalt.group (parseEntries_no_fuel (scan state.config))
    (w := ⟨state.roots, state.devices, ⟨state.keyStart, state.keyEnd⟩⟩) (scan_at state.config) hf

/-- A run that returns stops at the terminator or at a `}`, and not before its start. -/
theorem parseConfigString_ends {state : ParserState} {fuel parentFlags : Nat}
    {parent : List Key} {target : Option Nat} {h : Heap} {r : ParserState × Heap}
    (e : parseConfigString fuel state parent parentFlags target h = .ok r) :
    r.1.config <:+ state.config ∧ (deref r.1.config = 0 ∨ deref r.1.config = closeBrace) := by
  have hat := scan_at state.config
  have hs := parseConfigString_stops
    (w := ⟨state.roots, state.devices, ⟨state.keyStart, state.keyEnd⟩⟩) hat e
  rw [hs.config]
  exact ⟨hat.suffix.trans (skipWhitespace_suffix _), hat.stops.imp_left deref_eq_zero.mpr⟩

/-! ## The scanners of a string in memory -/

namespace Rom

/-- **The scanners end inside the string.** From every start in a string, `parse_config_string`, in
any pass and for any state, heap and enclosing keys, and `find_key`, for any `end` in the string,
any name and `take`, do not run on, and read nothing behind the terminator. Where they return is in
the string and not before the start; for `parse_config_string`, which may fault, it is the
terminator or a `}`. -/
theorem scanners_end (rom : Rom) (outside : Text → Int → Text) (bits : Nat)
    {start steps fuel : Nat} (hstart : start ≤ rom.nul) (hsteps : rom.nul < steps)
    (hfuel : 3 * (rom.nul - start) + 3 ≤ fuel) :
    (∀ (s : State) (parent : List Span) (parentFlags : Nat) (target : Option Nat) (h : Heap),
      s.config = start → (∀ k ∈ parent, rom.KeyAt k.start k.stop) →
      let run := rom.parseConfigString steps fuel s parent parentFlags target h
      (∀ p ∈ run.reads, p ≤ rom.nul) ∧ run.result ≠ .error .fuel ∧
        ∀ s' h', run.result = .ok (s', h') → start ≤ s'.config ∧ s'.config ≤ rom.nul ∧
          (rom.byte s'.config = 0 ∨ rom.byte s'.config = closeBrace)) ∧
    (∀ (stop : Nat) (name : Text) (take : Bool), stop ≤ rom.nul →
      let run := rom.findKey outside bits steps fuel start stop name take
      (∀ p ∈ run.reads, p ≤ rom.nul) ∧ ∃ q, run.result = .ok q ∧ start ≤ q ∧ q ≤ rom.nul) := by
  constructor
  · rintro s parent parentFlags target h rfl hk
    have hrun := parseConfigString_inside (K := False) hsteps fuel s parent parentFlags target h
      ⟨hstart, False.elim⟩ hk
    have hf : fuelFor (rom.state s).config ≤ fuel := by
      show 3 * (rom.text s.config).length + 3 ≤ fuel
      rw [length_text]
      exact hfuel
    refine ⟨hrun.reads, fun he => ?_, fun s' h' e => ?_⟩
    · rcases hrun.of_error he with hx | hx
      · exact absurd hx.1 (by decide)
      · exact parseConfigString_no_fuel hf hx
    · obtain ⟨r, hr, hstop, heq⟩ := hrun.of_ok e
      obtain ⟨hsuf, hend⟩ := parseConfigString_ends hr
      rw [← heq] at hsuf hend
      refine ⟨(at_text hstart).le_of_suffix (at_text hstop.1) hsuf, hstop.1, ?_⟩
      rw [← deref_text hstop.1]
      exact hend
  · intro stop name take hstop
    have hrun : rom.Within (fun q => start ≤ q ∧ q ≤ rom.nul)
        (rom.findKey outside bits steps fuel start stop name take) :=
      findKey_within bits hsteps hstop name take hstart hfuel
    refine ⟨hrun.reads, ?_⟩
    cases hres : (rom.findKey outside bits steps fuel start stop name take).result with
    | error e => exact ((hrun.of_error hres).elim id fun h => nomatch h).elim
    | ok q =>
      obtain ⟨-, -, hq⟩ := hrun.of_ok hres
      exact ⟨q, rfl, hq⟩

/-- On `a{b 1;}`, whole. -/
theorem scanners_end_sample :
    let rom := ofText (cstring [97, 123, 98, 32, 49, 59, 125])
    ∃ q, (rom.findKey (fun _ _ => []) 64 8 24 0 7 [] false).result = .ok q ∧ 0 ≤ q ∧ q ≤ 7 :=
  ((scanners_end (ofText (cstring [97, 123, 98, 32, 49, 59, 125])) (fun _ _ => []) 64
    (by decide : 0 ≤ _) (by decide) (by decide)).2 7 [] false (by decide)).2

end Rom

end LowriscLinux.Config
