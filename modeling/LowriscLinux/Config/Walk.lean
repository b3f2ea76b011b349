import LowriscLinux.Config.Parser
import LowriscLinux.Lib.Except

/-!
# A pass is a sequence of calls

`parse_config_string` (`arch/riscv/drivers/config.c`, lines 453-519) does two things: it walks the
text, which is the same in every pass, and it calls the helpers that touch memory. This file
separates them.

* `Call`: a call that touches memory, with its arguments: `openDevice` (lines 463-470),
  `parse_interface` (lines 492 and 501), `parse_range` (line 503), `parse_single` (line 505) and the
  store to `config_end` (line 513). `Call.exec` makes it in one pass, and `runCalls` makes a list of
  them.
* `Walk`: the part of `struct parser_state` that depends on the text alone. A group returns its own
  state (line 497), so the key that it leaves behind is its last one (`Values.after`), and a range
  behind a group is named by that.
* `Ctx`: what an activation hands down: `parent`, `parent_flags` and `target`. In a marked group the
  parent is dropped and the target is its own device (`Ctx.enter`, lines 462-473).
* `Entries.calls` lists, from the syntax tree alone, the helper calls passes 1 and 2 make, in order.
* `Marked`: the marks in `roots[]` are those of the groups, as pass 0 leaves them.

Results:
* `parseEntries_eq`, `parseValues_eq`: with `roots[]` as pass 0 leaves it, a run of the parser
  in pass 1 or 2 is the walk of the tree with its calls made in order.
-/

namespace LowriscLinux.Config

open LowriscLinux.Lib

/-! ## The calls of a pass -/

/-- A call of `parse_config_string` that touches memory. -/
inductive Call
  | device (dev group flags : Nat) (parent : List Key) (config : Text)
  | interface (config : Text) (target : Option Nat)
  | range (config : Text) (key : Key) (parent : List Key) (flags : Nat) (target : Option Nat)
  | single (config : Text) (parent : List Key) (flags : Nat) (target : Option Nat)
  | configEnd (dev : Nat) (stop : Text)

/-- Make a call in a pass: the names used and the heap after it. -/
def Call.exec (pass : Nat) : Call → Nat → Heap → Except Fault (Nat × Heap)
  | .device dev group flags parent config, names, h =>
    openDevice pass dev group flags parent config names h
  | .interface config target, names, h => parseInterface pass config target names h
  | .range config key parent flags target, names, h =>
    parseRange pass config key.start key.stop parent flags target names h
  | .single config parent flags target, names, h =>
    parseSingle pass config parent flags target names h
  | .configEnd dev stop, names, h => do
    let h ← setConfigEnd dev stop h
    .ok (names, h)

def runCalls (pass : Nat) : List Call → Nat → Heap → Except Fault (Nat × Heap)
  | [], names, h => .ok (names, h)
  | c :: cs, names, h => do
    let (names, h) ← c.exec pass names h
    runCalls pass cs names h

theorem runCalls_append (pass : Nat) : ∀ (as bs : List Call) (names : Nat) (h : Heap),
    runCalls pass (as ++ bs) names h =
      (runCalls pass as names h).bind fun r => runCalls pass bs r.1 r.2
  | [], _, _, _ => rfl
  | c :: as, bs, names, h => by
    simp only [List.cons_append, runCalls, bind]
    cases c.exec pass names h with
    | error e => rfl
    | ok r => exact runCalls_append pass as bs r.1 r.2

/-- Calls that return from any state return one after the other. -/
theorem runCalls_total {pass : Nat} : ∀ {cs : List Call},
    (∀ c ∈ cs, ∀ names h, Returns (c.exec pass names h) fun _ => True) →
    ∀ names h, Returns (runCalls pass cs names h) fun _ => True
  | [], _, _, _ => .ok trivial
  | c :: _, hc, names, h =>
    (hc c List.mem_cons_self names h).bind fun _ _ _ =>
      runCalls_total (fun c h => hc c (List.mem_cons_of_mem _ h)) _ _

/-! ## The walk -/

/-- The part of the parser's state that depends on the text alone. -/
structure Walk where
  roots   : Nat
  devices : Nat
  key     : Key

def Walk.state (w : Walk) (pass : Nat) (config : Text) (names : Nat) : ParserState :=
  ⟨pass, w.roots, config, w.devices, names, w.key.start, w.key.stop⟩

/-- A group is entered. -/
def Walk.enter (w : Walk) (root : Bool) : Walk :=
  { w with roots := w.roots + 1, devices := if root then w.devices + 1 else w.devices }

/-- The key of an entry. -/
def keyAt (key : Text) : Key := ⟨key, skipKey key⟩

/-- The key of an entry is read. -/
def Walk.read (w : Walk) (key : Text) : Walk := { w with key := keyAt key }

def isInterface (key : Text) : Bool := parserKeyEq key (skipKey key) interfaceKey

def flagsAt (key : Text) : Nat := keyFlags key (skipKey key)

/-- The group has an `interface` key. -/
def Entries.isRoot : Entries → Bool
  | .stop _ => false
  | .entry key _ rest => isInterface key || rest.isRoot

mutual

/-- The marks of the groups among the values of the entries, in the order they are entered. -/
def Entries.nested : Entries → List Bool
  | .stop _ => []
  | .entry _ vals rest => vals.nested ++ rest.nested

def Values.nested : Values → List Bool
  | .stop _ => []
  | .quoted _ rest => rest.nested
  | .group _ body rest => body.isRoot :: (body.nested ++ rest.nested)
  | .bare _ rest => rest.nested

end

mutual

/-- The walk after the entries. -/
def Entries.after : Entries → Walk → Walk
  | .stop _, w => w
  | .entry key vals rest, w => rest.after (vals.after (w.read key))

/-- The walk after the values: a group leaves its last key behind. -/
def Values.after : Values → Walk → Walk
  | .stop _, w => w
  | .quoted _ rest, w => rest.after w
  | .group _ body rest, w => rest.after (body.after (w.enter body.isRoot))
  | .bare _ rest, w => rest.after w

end

/-- What an activation hands down to its values. -/
structure Ctx where
  parent : List Key
  flags  : Nat
  target : Option Nat

@[simp] theorem Walk.read_roots (w : Walk) (key : Text) : (w.read key).roots = w.roots := rfl

/-- Inside a group: a root is its own target and has no parent. -/
def Ctx.enter (c : Ctx) (root : Bool) (dev : Nat) : Ctx :=
  if root then ⟨[], c.flags, some dev⟩ else c

/-- The call that records the end of an entry of a group. -/
def endCalls (root : Bool) (target : Option Nat) (stop : Text) : List Call :=
  match target with
  | some dev => if root then [.configEnd dev stop] else []
  | none => []

mutual

/-- The calls for the entries of a group, `root` being the mark of the group. -/
def Entries.calls : Entries → Bool → Ctx → Walk → List Call
  | .stop _, _, _, _ => []
  | .entry key vals rest, root, c, w =>
    vals.calls (isInterface key) (flagsAt key) c (w.read key) ++
    endCalls root c.target (skipNewline (closeEntry vals.last)) ++
    rest.calls root c (vals.after (w.read key))

/-- The calls for the values of an entry. -/
def Values.calls : Values → Bool → Nat → Ctx → Walk → List Call
  | .stop _, _, _, _, _ => []
  | .quoted here rest, iface, flags, c, w =>
    (if iface then [.interface here c.target] else []) ++ rest.calls false flags c w
  | .group here body rest, _, flags, c, w =>
    let c' : Ctx := ⟨w.key :: c.parent, flags, c.target⟩
    (if body.isRoot then
      [.device w.devices w.roots flags c'.parent (skipNewline here.tail)] else []) ++
    body.calls body.isRoot (c'.enter body.isRoot w.devices) (w.enter body.isRoot) ++
    rest.calls false flags c (body.after (w.enter body.isRoot))
  | .bare here rest, iface, flags, c, w =>
    (if iface then [.interface here c.target] else []) ++
    (if c.flags ≠ 0 then [.range here w.key c.parent c.flags c.target] else []) ++
    (if flags ≠ 0 then [.single here c.parent flags c.target] else []) ++
    rest.calls false flags c w

end

/-- The calls of a whole activation. -/
def groupCalls (body : Entries) (start : Text) (c : Ctx) (w : Walk) : List Call :=
  (if body.isRoot then [.device w.devices w.roots c.flags c.parent start] else []) ++
  body.calls body.isRoot (c.enter body.isRoot w.devices) (w.enter body.isRoot)

/-! ## No call touches `roots[]` -/

theorem storeName_roots {h h' : Heap} {off : Nat} {b : UInt8} (e : h.storeName off b = .ok h') :
    h'.roots = h.roots := by
  unfold Heap.storeName at e
  split_ifs at e
  cases e
  rfl

theorem storeNames_roots : ∀ {bs : List UInt8} {h h' : Heap} {off : Nat},
    h.storeNames off bs = .ok h' → h'.roots = h.roots
  | [], _, _, _, e => by cases e; rfl
  | _ :: _, _, _, _, e => by
    obtain ⟨h1, e1, e2⟩ := bind_eq_ok.mp e
    exact (storeNames_roots e2).trans (storeName_roots e1)

theorem configPathHelper_roots {pass : Nat} : ∀ {parent : List Key} {names : Nat} {h : Heap}
    {r : Nat × Heap}, configPathHelper pass parent names h = .ok r → r.2.roots = h.roots
  | [], _, _, _, e => by cases e
  | k :: up, names, h, r, e => by
    obtain ⟨⟨n1, h1⟩, e1, e2⟩ := bind_eq_ok.mp e
    obtain ⟨h2, e2, e3⟩ := bind_eq_ok.mp e2
    have hr1 : h1.roots = h.roots := by
      split_ifs at e1
      · cases e1; rfl
      · exact configPathHelper_roots e1
    have hr2 : h2.roots = h1.roots := by
      split_ifs at e2
      · exact storeNames_roots e2
      · cases e2; rfl
    cases e3
    exact hr2.trans hr1

theorem configPath_roots {pass : Nat} {parent : List Key} {names : Nat} {h : Heap}
    {r : Name × Nat × Heap} (e : configPath pass parent names h = .ok r) :
    r.2.2.roots = h.roots := by
  cases parent with
  | nil => cases e; rfl
  | cons k up =>
    obtain ⟨⟨n1, h1⟩, e1, e2⟩ := bind_eq_ok.mp e
    obtain ⟨h2, e2, e3⟩ := bind_eq_ok.mp e2
    have hr2 : h2.roots = h1.roots := by
      split_ifs at e2
      · exact storeName_roots e2
      · cases e2; rfl
    cases e3
    exact hr2.trans (configPathHelper_roots e1)

theorem addResource_roots {h h' : Heap} {t flags : Nat} {name : Name} {start stop : BitVec 64}
    (e : addResource h t name flags start stop = .ok h') : h'.roots = h.roots := by
  obtain ⟨d, -, e⟩ := bind_eq_ok.mp e
  obtain ⟨h1, e1, e2⟩ := bind_eq_ok.mp e
  have hr : h1.roots = h.roots := by
    split at e1
    · obtain ⟨c, -, e1⟩ := bind_eq_ok.mp e1
      unfold Heap.storeResource at e1
      split_ifs at e1 <;> cases e1 <;> rfl
    · cases e1; rfl
  cases e2
  exact hr

theorem openDevice_roots {pass dev group flags names : Nat} {parent : List Key} {config : Text}
    {h : Heap} {r : Nat × Heap}
    (e : openDevice pass dev group flags parent config names h = .ok r) :
    r.2.roots = h.roots := by
  obtain ⟨⟨name, n1, h1⟩, e1, e2⟩ := bind_eq_ok.mp e
  obtain ⟨d, -, e3⟩ := bind_eq_ok.mp e2
  cases e3
  exact configPath_roots e1

theorem parseInterface_roots {pass names : Nat} {config : Text} {target : Option Nat} {h : Heap}
    {r : Nat × Heap} (e : parseInterface pass config target names h = .ok r) :
    r.2.roots = h.roots := by
  obtain ⟨h1, e1, e⟩ := bind_eq_ok.mp e
  have hr : h1.roots = h.roots := by
    cases target with
    | none => cases e1; rfl
    | some t =>
      obtain ⟨d, -, e1⟩ := bind_eq_ok.mp e1
      cases e1
      rfl
  obtain ⟨h2, e2, e3⟩ := bind_eq_ok.mp e
  cases e3
  exact (storeNames_roots e2).trans hr

theorem parseRange_roots {pass flags names : Nat} {config keyStart keyEnd : Text}
    {parent : List Key} {target : Option Nat} {h : Heap} {r : Nat × Heap}
    (e : parseRange pass config keyStart keyEnd parent flags target names h = .ok r) :
    r.2.roots = h.roots := by
  unfold parseRange at e
  obtain ⟨last, -, e⟩ := bind_eq_ok.mp e
  simp only at e
  split_ifs at e
  · cases e; rfl
  · cases e; rfl
  · cases e; rfl
  · cases e; rfl
  · cases target with
    | none => cases e; rfl
    | some t =>
      cases parent with
      | nil => cases e
      | cons k up =>
        obtain ⟨⟨name, n1, h1⟩, e1, e⟩ := bind_eq_ok.mp e
        obtain ⟨h2, e2, e3⟩ := bind_eq_ok.mp e
        cases e3
        exact (addResource_roots e2).trans (configPath_roots e1)

theorem parseSingle_roots {pass flags names : Nat} {config : Text} {parent : List Key}
    {target : Option Nat} {h : Heap} {r : Nat × Heap}
    (e : parseSingle pass config parent flags target names h = .ok r) :
    r.2.roots = h.roots := by
  unfold parseSingle at e
  obtain ⟨last, -, e⟩ := bind_eq_ok.mp e
  simp only at e
  split_ifs at e
  · cases e; rfl
  · cases e; rfl
  · cases target with
    | none => cases e; rfl
    | some t =>
      obtain ⟨⟨name, n1, h1⟩, e1, e⟩ := bind_eq_ok.mp e
      obtain ⟨h2, e2, e3⟩ := bind_eq_ok.mp e
      cases e3
      exact (addResource_roots e2).trans (configPath_roots e1)

theorem setConfigEnd_roots {dev : Nat} {stop : Text} {h h' : Heap}
    (e : setConfigEnd dev stop h = .ok h') : h'.roots = h.roots := by
  obtain ⟨d, -, e⟩ := bind_eq_ok.mp e
  cases e
  rfl

theorem recordEnd_roots {pass : Nat} {root : Option UInt8} {target : Option Nat} {stop : Text}
    {h h' : Heap} (e : recordEnd pass root target stop h = .ok h') : h'.roots = h.roots := by
  unfold recordEnd at e
  split at e
  · cases e
  · split_ifs at e
    · exact setConfigEnd_roots e
    · cases e; rfl
  · cases e; rfl

theorem exec_roots {pass : Nat} {c : Call} {names : Nat} {h : Heap} {r : Nat × Heap}
    (e : c.exec pass names h = .ok r) : r.2.roots = h.roots := by
  cases c with
  | device dev group flags parent config => exact openDevice_roots e
  | interface config target => exact parseInterface_roots e
  | range config key parent flags target => exact parseRange_roots e
  | single config parent flags target => exact parseSingle_roots e
  | configEnd dev stop =>
    obtain ⟨h1, e1, e2⟩ := bind_eq_ok.mp e
    cases e2
    exact setConfigEnd_roots e1

theorem runCalls_roots {pass : Nat} : ∀ {cs : List Call} {names : Nat} {h : Heap}
    {r : Nat × Heap}, runCalls pass cs names h = .ok r → r.2.roots = h.roots
  | [], _, _, _, e => by cases e; rfl
  | _ :: _, _, _, _, e => by
    obtain ⟨r1, e1, e2⟩ := bind_eq_ok.mp e
    exact (runCalls_roots e2).trans (exec_roots e1)

/-! ## One step of the loops -/

theorem runCalls_singleton (pass : Nat) (c : Call) (names : Nat) (h : Heap) :
    runCalls pass [c] names h = c.exec pass names h := by
  show (c.exec pass names h).bind (fun r => .ok r) = _
  cases c.exec pass names h <;> rfl

theorem runCalls_if {pass : Nat} (b : Prop) [Decidable b] (c : Call) (names : Nat) (h : Heap) :
    runCalls pass (if b then [c] else []) names h =
      if b then c.exec pass names h else .ok (names, h) := by
  split_ifs
  · exact runCalls_singleton pass c names h
  · rfl

section Steps

variable {fuel pass flags parentFlags names : Nat} {iface : Bool} {s : Text} {w : Walk}
  {parent : List Key} {target : Option Nat} {h : Heap}

theorem parseValues_stop (h0 : deref s = 0 ∨ deref s = semicolon) :
    parseValues (fuel + 1) iface flags (w.state pass s names) parent parentFlags target h =
      .ok (w.state pass s names, h) := by
  rw [parseValues, if_neg]
  exact fun hn => h0.elim hn.1 hn.2

theorem parseValues_quoted (hq : deref s = quote) :
    parseValues (fuel + 1) iface flags (w.state pass s names) parent parentFlags target h =
      (runCalls pass (if iface then [.interface s target] else []) names h).bind fun r =>
        parseValues fuel false flags (w.state pass (skipWhitespace (skipString s.tail)) r.1)
          parent parentFlags target r.2 := by
  have h0 : deref s ≠ 0 ∧ deref s ≠ semicolon := by rw [hq]; decide
  rw [parseValues, if_pos (by exact h0), if_pos (by exact hq), runCalls_if]
  exact bind_bind _ _ _

theorem parseValues_bare (h0 : deref s ≠ 0) (hs : deref s ≠ semicolon) (hq : deref s ≠ quote)
    (ho : deref s ≠ openBrace) :
    parseValues (fuel + 1) iface flags (w.state pass s names) parent parentFlags target h =
      (runCalls pass ((if iface then [.interface s target] else []) ++
        (if parentFlags ≠ 0 then [.range s w.key parent parentFlags target] else []) ++
        (if flags ≠ 0 then [.single s parent flags target] else [])) names h).bind fun r =>
        parseValues fuel false flags (w.state pass (skipWhitespace (skipKey s.tail)) r.1)
          parent parentFlags target r.2 := by
  rw [parseValues, if_pos (by exact ⟨h0, hs⟩), if_neg (by exact hq), if_neg (by exact ho),
    runCalls_append, runCalls_append, runCalls_if, bind_bind, bind_bind]
  refine (bind_bind _ _ _).trans (bind_congr_ok fun r1 _ => ?_)
  rw [runCalls_if]
  refine (bind_bind _ _ _).trans (bind_congr_ok fun r2 _ => ?_)
  rw [runCalls_if]
  exact bind_bind _ _ _

theorem parseValues_group (ho : deref s = openBrace) :
    parseValues (fuel + 1) iface flags (w.state pass s names) parent parentFlags target h =
      (parseConfigString fuel (w.state pass (skipNewline s.tail) names) (w.key :: parent) flags
        target h).bind fun r =>
        parseValues fuel false flags { r.1 with
          config := skipWhitespace (closeGroup r.1.config) } parent parentFlags target r.2 := by
  have h0 : deref s ≠ 0 ∧ deref s ≠ semicolon := by rw [ho]; decide
  have hq : ¬ deref s = quote := by rw [ho]; decide
  rw [parseValues, if_pos (by exact h0), if_neg (by exact hq), if_pos (by exact ho)]
  exact bind_bind _ _ _

theorem parseEntries_stop {am : Nat} (h0 : deref s = 0 ∨ deref s = closeBrace) :
    parseEntries (fuel + 1) am (w.state pass s names) parent parentFlags target h =
      .ok (w.state pass s names, h) := by
  rw [parseEntries, if_neg]
  exact fun hn => h0.elim hn.1 hn.2

theorem parseEntries_entry {am : Nat} (h0 : deref s ≠ 0) (hb : deref s ≠ closeBrace) :
    parseEntries (fuel + 1) am (w.state pass s names) parent parentFlags target h =
      (parseValues fuel (isInterface s) (flagsAt s)
        ((w.read s).state pass (skipWhitespace (skipKey s)) names)
        parent parentFlags target
        (if isInterface s then { h with roots := h.roots.set am 1 } else h)).bind fun r =>
        (recordEnd r.1.pass r.2.roots[am]? target (skipNewline (closeEntry r.1.config)) r.2).bind
        fun h =>
        parseEntries fuel am { r.1 with config := skipWhitespace (closeEntry r.1.config) }
          parent parentFlags target h := by
  rw [parseEntries, if_pos (by exact ⟨h0, hb⟩)]
  rfl

theorem parseConfigString_root (hp : HAVE_DEVICES ≤ pass) {root : UInt8}
    (hr : h.roots[w.roots]? = some root) (h0 : root ≠ 0) :
    parseConfigString (fuel + 1) (w.state pass s names) parent parentFlags target h =
      (openDevice pass w.devices w.roots parentFlags parent s names h).bind fun r =>
        parseEntries fuel w.roots ((w.enter true).state pass (skipWhitespace s) r.1) []
          parentFlags (some w.devices) r.2 := by
  have hr' : h.roots[(w.state pass s names).roots]? = some root := hr
  have hp' : HAVE_DEVICES ≤ (w.state pass s names).pass := hp
  rw [parseConfigString]
  simp only [hr', ne_eq, h0, not_false_eq_true, if_true, hp']
  rfl

/-- In pass 0 a mark opens no device. -/
theorem parseConfigString_mark (hp : ¬ HAVE_DEVICES ≤ pass) {root : UInt8}
    (hr : h.roots[w.roots]? = some root) (h0 : root ≠ 0) :
    parseConfigString (fuel + 1) (w.state pass s names) parent parentFlags target h =
      parseEntries fuel w.roots ((w.enter true).state pass (skipWhitespace s) names) []
        parentFlags target h := by
  have hr' : h.roots[(w.state pass s names).roots]? = some root := hr
  have hp' : ¬ HAVE_DEVICES ≤ (w.state pass s names).pass := hp
  rw [parseConfigString]
  simp only [hr', ne_eq, h0, not_false_eq_true, if_true, hp', if_false]
  rfl

theorem parseConfigString_plain (hr : h.roots[w.roots]? = some 0) :
    parseConfigString (fuel + 1) (w.state pass s names) parent parentFlags target h =
      parseEntries fuel w.roots ((w.enter false).state pass (skipWhitespace s) names)
        parent parentFlags target h := by
  have hr' : h.roots[(w.state pass s names).roots]? = some 0 := hr
  rw [parseConfigString]
  simp only [hr', ne_eq, not_true_eq_false, if_false]
  rfl

end Steps

/-! ## Passes 1 and 2 -/

/-- The byte of `roots[]` for a mark. -/
def mark (root : Bool) : UInt8 := if root then 1 else 0

/-- `roots[]` holds these marks from `k` on. -/
def Marked (roots : List UInt8) (k : Nat) (marks : List Bool) : Prop :=
  marks.map mark <+: roots.drop k

theorem marked_append {roots : List UInt8} {k : Nat} {as bs : List Bool} :
    Marked roots k (as ++ bs) ↔ Marked roots k as ∧ Marked roots (k + as.length) bs := by
  unfold Marked
  rw [List.map_append, ← List.drop_drop]
  constructor
  · rintro ⟨t, ht⟩
    refine ⟨⟨bs.map mark ++ t, by rw [← ht, List.append_assoc]⟩, ⟨t, ?_⟩⟩
    rw [← ht, List.append_assoc, List.drop_left' (List.length_map _)]
  · rintro ⟨⟨t, ht⟩, ⟨u, hu⟩⟩
    rw [← ht, List.drop_left' (List.length_map _)] at hu
    exact ⟨u, by rw [List.append_assoc, hu, ht]⟩

theorem marked_cons {roots : List UInt8} {k : Nat} {b : Bool} {bs : List Bool} :
    Marked roots k (b :: bs) ↔ roots[k]? = some (mark b) ∧ Marked roots (k + 1) bs := by
  rw [← List.singleton_append, marked_append, List.length_singleton]
  refine and_congr ?_ Iff.rfl
  unfold Marked
  rw [← List.head?_drop]
  cases roots.drop k with
  | nil => simp
  | cons r rs => simp [eq_comm]

/-- Marking a group that is marked already changes nothing. -/
theorem set_marked {h : Heap} {am : Nat} {iface root : Bool} (hr : h.roots[am]? = some (mark root))
    (hi : iface = true → root = true) :
    (if iface then { h with roots := h.roots.set am 1 } else h) = h := by
  split_ifs with hif
  · obtain ⟨hlt, heq⟩ := List.getElem?_eq_some_iff.mp hr
    rw [hi hif] at heq
    rw [show (1 : UInt8) = h.roots[am] from heq.symm, List.set_getElem_self]
  · rfl

mutual

theorem Entries.after_roots : ∀ (g : Entries) (w : Walk),
    (g.after w).roots = w.roots + g.nested.length
  | .stop _, _ => rfl
  | .entry key vals rest, w => by
    rw [Entries.after, Entries.after_roots rest, Values.after_roots vals, Walk.read_roots,
      Entries.nested, List.length_append, Nat.add_assoc]

theorem Values.after_roots : ∀ (v : Values) (w : Walk),
    (v.after w).roots = w.roots + v.nested.length
  | .stop _, _ => rfl
  | .quoted _ rest, w => Values.after_roots rest w
  | .group _ body rest, w => by
    rw [Values.after, Values.after_roots rest, Entries.after_roots body, Values.nested,
      List.length_cons, List.length_append]
    show w.roots + 1 + _ + _ = _
    omega
  | .bare _ rest, w => Values.after_roots rest w

end

/-- The calls for a group value are those of an activation on it and of the values after it. -/
theorem Values.calls_group (here : Text) (body : Entries) (rest : Values) (iface : Bool)
    (flags parentFlags : Nat) (parent : List Key) (target : Option Nat) (w : Walk) :
    (Values.group here body rest).calls iface flags ⟨parent, parentFlags, target⟩ w =
      groupCalls body (skipNewline here.tail) ⟨w.key :: parent, flags, target⟩ w ++
        rest.calls false flags ⟨parent, parentFlags, target⟩ (body.after (w.enter body.isRoot)) :=
  rfl

/-- In passes 1 and 2 the end of an entry is recorded by a call. -/
theorem runCalls_endCalls {pass : Nat} (hp : HAVE_DEVICES ≤ pass) (root : Bool)
    (target : Option Nat) (stop : Text) (names : Nat) (h : Heap) :
    runCalls pass (endCalls root target stop) names h =
      (recordEnd pass (some (mark root)) target stop h).bind fun h => .ok (names, h) := by
  cases target with
  | none => rfl
  | some dev =>
    cases root with
    | false => rfl
    | true =>
      have hmark : mark true ≠ 0 ∧ HAVE_DEVICES ≤ pass := ⟨by decide, hp⟩
      show runCalls pass [.configEnd dev stop] names h = _
      rw [runCalls_singleton, recordEnd, if_pos hmark]
      rfl

/-- In this pass the loop over the entries makes the calls of `g`, from wherever it is entered. -/
def EntriesRun (pass : Nat) (g : Entries) : Prop :=
  ∀ {s : Text} {fuel am names parentFlags : Nat} {root : Bool} {w : Walk} {parent : List Key}
    {target : Option Nat} {h : Heap}, g.At s → 3 * s.length + 2 ≤ fuel →
    h.roots[am]? = some (mark root) → (g.isRoot = true → root = true) →
    Marked h.roots w.roots g.nested →
    parseEntries fuel am (w.state pass s names) parent parentFlags target h =
      (runCalls pass (g.calls root ⟨parent, parentFlags, target⟩ w) names h).bind fun r =>
        .ok ((g.after w).state pass g.last r.1, r.2)

/-- An activation makes the calls of its group when its loop makes those of the entries. -/
theorem EntriesRun.group {pass : Nat} (hp : HAVE_DEVICES ≤ pass) {body : Entries}
    (hE : EntriesRun pass body) {b : Text} {fuel names parentFlags : Nat} {w : Walk}
    {parent : List Key} {target : Option Nat} {h : Heap} (hb : body.At (skipWhitespace b))
    (hf : 3 * (skipWhitespace b).length + 2 ≤ fuel)
    (hm : Marked h.roots w.roots (body.isRoot :: body.nested)) :
    parseConfigString (fuel + 1) (w.state pass b names) parent parentFlags target h =
      (runCalls pass (groupCalls body b ⟨parent, parentFlags, target⟩ w) names h).bind fun r =>
        .ok ((body.after (w.enter body.isRoot)).state pass body.last r.1, r.2) := by
  obtain ⟨hr, hn⟩ := marked_cons.mp hm
  unfold groupCalls
  cases hroot : body.isRoot with
  | true =>
    rw [hroot] at hr
    rw [parseConfigString_root hp hr (by decide), if_pos rfl, List.singleton_append, runCalls]
    refine Eq.trans ?_ (bind_bind _ _ _).symm
    refine bind_congr_ok fun r e => ?_
    have hroots := openDevice_roots e
    exact hE (w := w.enter true) hb hf (by rw [hroots]; exact hr)
      (fun _ => rfl) (by rw [hroots]; exact hn)
  | false =>
    rw [hroot] at hr
    rw [parseConfigString_plain hr, if_neg (by decide), List.nil_append]
    exact hE (w := w.enter false) hb hf hr (fun h => absurd (hroot.symm.trans h)
      (by decide)) hn

mutual

/-- **A pass makes the calls of the tree**, in order, and ends where the tree does. -/
theorem parseEntries_eq {pass : Nat} (hp : HAVE_DEVICES ≤ pass) :
    ∀ g : Entries, EntriesRun pass g
  | .stop here, s, fuel, am, names, _, _, w, _, _, h, hg, hf, _, _, _ => by
    obtain ⟨n, rfl⟩ : ∃ n, fuel = n + 1 := ⟨fuel - 1, by omega⟩
    obtain ⟨rfl, h0⟩ := hg
    exact parseEntries_stop h0
  | .entry key vals rest, s, fuel, am, names, parentFlags, root, w, parent, target, h,
      hg, hf, hr, hi, hm => by
    obtain ⟨n, rfl⟩ : ∃ n, fuel = n + 1 := ⟨fuel - 1, by omega⟩
    obtain ⟨rfl, h0, hb, hv, hrest⟩ := hg
    obtain ⟨hmv, hmr⟩ := marked_append.mp hm
    have hlt := entry_lt h0 hv
    have hk := ((skipWhitespace_suffix _).trans (skipKey_suffix key)).length_le
    rw [parseEntries_entry h0 hb, set_marked hr fun hif => hi (by simp [Entries.isRoot, hif]),
      parseValues_eq hp vals (w := w.read key) hv (by omega) hmv, Entries.calls, runCalls_append,
      runCalls_append]
    simp only [bind_bind]
    refine bind_congr_ok fun r e => ?_
    have hroots := runCalls_roots e
    have hrest' : ∀ x : Nat × Heap, x.2.roots = h.roots →
        parseEntries n am ((vals.after (w.read key)).state pass
          (skipWhitespace (closeEntry vals.last)) x.1) parent parentFlags target x.2 =
        (runCalls pass (rest.calls root ⟨parent, parentFlags, target⟩ (vals.after (w.read key)))
          x.1 x.2).bind fun r =>
          .ok ((rest.after (vals.after (w.read key))).state pass rest.last r.1, r.2) := by
      intro x hx
      refine parseEntries_eq hp rest hrest (by omega) (hx ▸ hr) (fun h => hi ?_) ?_
      · simp [Entries.isRoot, h]
      · rw [Values.after_roots, hx]
        exact hmr
    show (recordEnd pass r.2.roots[am]? target _ r.2).bind _ = _
    rw [hroots, hr, runCalls_endCalls hp, bind_bind]
    exact bind_congr_ok fun x e' => hrest' (r.1, x) ((recordEnd_roots e').trans hroots)

theorem parseValues_eq {pass : Nat} (hp : HAVE_DEVICES ≤ pass) :
    ∀ (v : Values) {s : Text} {fuel flags names parentFlags : Nat} {iface : Bool} {w : Walk}
      {parent : List Key} {target : Option Nat} {h : Heap}, v.At s → 3 * s.length + 1 ≤ fuel →
      Marked h.roots w.roots v.nested →
      parseValues fuel iface flags (w.state pass s names) parent parentFlags target h =
        (runCalls pass (v.calls iface flags ⟨parent, parentFlags, target⟩ w) names h).bind
          fun r => .ok ((v.after w).state pass v.last r.1, r.2)
  | .stop here, s, fuel, _, _, _, _, _, _, _, _, hv, hf, _ => by
    obtain ⟨n, rfl⟩ : ∃ n, fuel = n + 1 := ⟨fuel - 1, by omega⟩
    obtain ⟨rfl, h0⟩ := hv
    exact parseValues_stop h0
  | .quoted here rest, s, fuel, flags, names, _, iface, w, parent, target, h, hv, hf, hm => by
    obtain ⟨n, rfl⟩ : ∃ n, fuel = n + 1 := ⟨fuel - 1, by omega⟩
    obtain ⟨rfl, hq, hrest⟩ := hv
    have hlt := after_lt (skipString_suffix _) (ne_zero_of_eq (by decide) hq)
    rw [parseValues_quoted hq, Values.calls, runCalls_append, bind_bind]
    exact bind_congr_ok fun r e =>
      parseValues_eq hp rest hrest (by omega) (runCalls_roots e ▸ hm)
  | .group here body rest, s, fuel, flags, names, parentFlags, iface, w, parent, target, h,
      hv, hf, hm => by
    obtain ⟨n, rfl⟩ : ∃ n, fuel = n + 1 := ⟨fuel - 1, by omega⟩
    obtain ⟨rfl, ho, hbody, hrest⟩ := hv
    have hlt := after_group_lt ho hbody
    have hlt' := after_lt (f := id) (List.suffix_refl _) (ne_zero_of_eq (by decide) ho)
    simp only [id] at hlt'
    obtain ⟨m, rfl⟩ : ∃ m, n = m + 1 := ⟨n - 1, by omega⟩
    rw [Values.nested, ← List.cons_append] at hm
    obtain ⟨hmb, hmr⟩ := marked_append.mp hm
    rw [← skipWhitespace_skipNewline] at hbody hlt'
    rw [parseValues_group ho, EntriesRun.group hp (parseEntries_eq hp body) hbody (by omega) hmb,
      Values.calls_group, runCalls_append, bind_bind, bind_bind]
    refine bind_congr_ok fun r e => ?_
    have hfr : 3 * (skipWhitespace (closeGroup body.last)).length + 1 ≤ m + 1 := by omega
    refine parseValues_eq hp rest (w := body.after (w.enter body.isRoot)) hrest hfr ?_
    rw [runCalls_roots e, Entries.after_roots]
    have hk : (w.enter body.isRoot).roots + body.nested.length =
        w.roots + (body.isRoot :: body.nested).length := by
      rw [List.length_cons, Nat.add_comm body.nested.length, ← Nat.add_assoc]
      rfl
    rw [hk]
    exact hmr
  | .bare here rest, s, fuel, flags, names, parentFlags, iface, w, parent, target, h,
      hv, hf, hm => by
    obtain ⟨n, rfl⟩ : ∃ n, fuel = n + 1 := ⟨fuel - 1, by omega⟩
    obtain ⟨rfl, h0, hs, hq, ho, hrest⟩ := hv
    have hlt := after_lt (skipKey_suffix _) h0
    rw [parseValues_bare h0 hs hq ho, Values.calls, runCalls_append pass _ (rest.calls _ _ _ _),
      bind_bind]
    exact bind_congr_ok fun r e =>
      parseValues_eq hp rest hrest (by omega) (runCalls_roots e ▸ hm)

end

end LowriscLinux.Config
