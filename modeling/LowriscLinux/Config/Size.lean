import LowriscLinux.Config.Table
import Mathlib.Tactic.Ring
import Mathlib.Tactic.Linarith

/-!
# How long the names get

`size_names` is an `int` (`arch/riscv/drivers/config.c`, lines 531 and 567), and so are the lengths
that `config_path_helper` and `parse_string` add to `names` (lines 329, 337 and 356). The names of a
config string of length `m` take less than `(m + 1)² / 2` bytes: a path is made of bytes of the text
before it (`a` of them, those of keys and braces), at most two paths are laid out for a byte of
another kind (`b` of them), and the `driver_override` strings are no longer than the text.

* `Call.pathCost`: the bytes of the paths that a call lays out. A device has one (line 465), a
  resource has one (lines 398 and 440), and a bare value below a `mem`, `irq` or `bus` key can be
  two resources (lines 502-505).
* `Call.valueCost`: the bytes of a `driver_override` string (line 356). The source writes at most
  65536 of them in pass 2 (line 354) and counts all of them in both passes.
* `Cost`: the two bounds for a part of the text.

`NoQuote` says that the next bytes have no quote, so that a character of a quoted string does not
reach over its end, and a string is no longer than its bytes in the text.

Results:
* `Entries.calls_cost`: the bound, for the calls of the entries of any group.
* `groupCalls_size`: the table of a config string shorter than 65536 bytes has less than `2 ^ 31`
  bytes of names, and each value of an `interface` key in it is shorter than 65536 bytes.
-/

namespace LowriscLinux.Config

/-! ## Values -/

theorem isHex_ne_quote {c : UInt8} (h : isHex c = true) : c ≠ quote := by
  rintro rfl
  revert h
  decide

/-- The bytes of an escape are no quotes. -/
def NoQuote : Nat → Text → Prop
  | 0, _ => True
  | n + 1, s => deref s ≠ quote ∧ NoQuote n s.tail

theorem quotedChar_noQuote (c : Byte) (s : Text) : NoQuote (quotedChar c s).2 s := by
  unfold quotedChar
  split_ifs with h1 h2
  · exact ⟨by rw [h1.2.1]; decide, isHex_ne_quote h1.2.2, isHex_ne_quote h2, trivial⟩
  · exact ⟨by rw [h1.2.1]; decide, isHex_ne_quote h1.2.2, trivial⟩
  · trivial

/-- A quoted value is no longer than its literal. -/
theorem decodeQuoted_length : ∀ (s : Text) (skip : Nat), NoQuote skip s →
    (decodeQuoted s skip).length + (skipString s).length ≤ s.length
  | [], _, _ => Nat.le_refl 0
  | c :: s, skip + 1, h => by
    have ih := decodeQuoted_length s skip h.2
    have hc : ¬ c.val = quote := h.1
    rw [decodeQuoted, skipString, if_neg hc, List.length_cons]
    omega
  | c :: s, 0, _ => by
    rw [decodeQuoted, skipString]
    split_ifs
    · rw [List.length_cons]
      exact (Nat.zero_add _).symm ▸ Nat.le_succ _
    · have ih := decodeQuoted_length s (quotedChar c s).2 (quotedChar_noQuote c s)
      rw [List.length_cons, List.length_cons]
      omega

theorem takeWhile_skipKey (s : Text) :
    (s.takeWhile fun c => isKeyByte c.val).length + (skipKey s).length = s.length := by
  rw [← List.length_append]
  exact congrArg List.length List.takeWhile_append_dropWhile

/-- A value is no longer than its token. -/
theorem decodeString_length_quoted {s : Text} (hq : deref s = quote) :
    (decodeString s).length + 1 + (skipString s.tail).length ≤ s.length := by
  have h1 := decodeQuoted_length s.tail 0 trivial
  have h2 := tail_lt (ne_zero_of_eq (by decide) hq)
  rw [decodeString, if_pos hq]
  omega

theorem decodeString_length_bare {s : Text} (h0 : deref s ≠ 0) (hq : deref s ≠ quote) :
    (decodeString s).length + (skipKey s.tail).length ≤ s.length := by
  rw [decodeString, if_neg hq, List.length_map]
  cases s with
  | nil => exact absurd rfl h0
  | cons c s =>
    have h := takeWhile_skipKey s
    rw [List.takeWhile_cons, List.tail_cons, List.length_cons]
    split_ifs
    · rw [List.length_cons]
      omega
    · rw [List.length_nil]
      omega

/-! ## Keys -/

theorem between_length (start stop : Text) :
    (between start stop).length = start.length - stop.length := by
  rw [between, List.length_map, List.length_take]
  omega

theorem keyAt_length (key : Text) : (keyAt key).bytes.length + (skipKey key).length = key.length := by
  have := (skipKey_suffix key).length_le
  rw [Key.bytes, between_length]
  show key.length - (skipKey key).length + _ = _
  omega

theorem isInterface_length {key : Text} (h : isInterface key = true) :
    (keyAt key).bytes.length = 9 := by
  have h : between key (skipKey key) = interfaceKey := of_decide_eq_true h
  exact congrArg List.length h

/-! ## Costs -/

/-- The bytes of a path a call may lay out. -/
def Call.pathCost : Call → Nat
  | .device _ _ _ parent _ => (pathBytes parent).length
  | .range _ _ parent _ _ => (pathBytes parent.tail).length
  | .single _ parent _ _ => (pathBytes parent).length
  | _ => 0

/-- The bytes of a value a call lays out. -/
def Call.valueCost : Call → Nat
  | .interface config _ => (decodeString config).length + 1
  | _ => 0

def pathCost (cs : List Call) : Nat := (cs.map Call.pathCost).sum

def valueCost (cs : List Call) : Nat := (cs.map Call.valueCost).sum

theorem pathCost_append (as bs : List Call) : pathCost (as ++ bs) = pathCost as + pathCost bs := by
  rw [pathCost, List.map_append, List.sum_append]
  rfl

theorem valueCost_append (as bs : List Call) :
    valueCost (as ++ bs) = valueCost as + valueCost bs := by
  rw [valueCost, List.map_append, List.sum_append]
  rfl

theorem pathCost_ite {p : Prop} [Decidable p] (c : Call) :
    pathCost (if p then [c] else []) ≤ c.pathCost := by
  split
  · exact Nat.le_of_eq (Nat.add_zero _)
  · exact Nat.zero_le _

theorem valueCost_ite {p : Prop} [Decidable p] (c : Call) :
    valueCost (if p then [c] else []) = if p then c.valueCost else 0 := by
  split <;> rfl

theorem endCalls_cost (root : Bool) (target : Option Nat) (stop : Text) :
    pathCost (endCalls root target stop) = 0 ∧ valueCost (endCalls root target stop) = 0 := by
  cases target with
  | none => exact ⟨rfl, rfl⟩
  | some dev => cases root <;> exact ⟨rfl, rfl⟩

theorem pathBytes_tail_le (parent : List Key) :
    (pathBytes parent.tail).length ≤ (pathBytes parent).length := by
  cases parent with
  | nil => exact Nat.le_refl _
  | cons k up =>
    rw [pathBytes, List.length_append]
    exact Nat.le_add_right _ _

/-- What the calls for a stretch of text cost: `used` bytes of text, of which `a` are bytes of keys
and braces and `b` others, below a path of at most `p` bytes, and `v` bytes of values. -/
structure Cost (p a b used v : Nat) (cs : List Call) : Prop where
  fits : a + b ≤ used
  paths : pathCost cs ≤ 2 * (p + a) * b
  values : valueCost cs ≤ v

theorem Cost.append {p a b a' b' used used' v v' : Nat} {as bs : List Call}
    (h : Cost p a b used v as) (h' : Cost (p + a) a' b' used' v' bs) :
    Cost p (a + a') (b + b') (used + used') (v + v') (as ++ bs) where
  fits := by
    have := h.fits
    have := h'.fits
    omega
  paths := by
    have h1 := h.paths
    have h2 := h'.paths
    have h3 : 2 * (p + a) * b ≤ 2 * (p + (a + a')) * b := Nat.mul_le_mul_right _ (by omega)
    have h4 : 2 * (p + a + a') * b' = 2 * (p + (a + a')) * b' := by rw [Nat.add_assoc]
    rw [pathCost_append, Nat.mul_add]
    omega
  values := by
    rw [valueCost_append]
    exact Nat.add_le_add h.values h'.values

theorem Cost.mono {p p' a b used used' v v' : Nat} {cs : List Call} (h : Cost p a b used v cs)
    (hp : p ≤ p') (hu : used ≤ used') (hv : v ≤ v') : Cost p' a b used' v' cs where
  fits := h.fits.trans hu
  paths := h.paths.trans (Nat.mul_le_mul_right _ (by omega))
  values := h.values.trans hv

/-- Bytes of keys and braces before the calls. -/
theorem Cost.shift {p n a b used v : Nat} {cs : List Call} (h : Cost (p + n) a b used v cs) :
    Cost p (n + a) b (n + used) v cs where
  fits := by
    have := h.fits
    omega
  paths := by
    rw [← Nat.add_assoc]
    exact h.paths
  values := h.values

/-- Calls that lay out no path. -/
theorem Cost.free (p : Nat) {cs : List Call} (h : pathCost cs = 0) :
    Cost p 0 0 0 (valueCost cs) cs where
  fits := Nat.le_refl 0
  paths := by rw [h]; exact Nat.zero_le _
  values := Nat.le_refl _

theorem Cost.nil (p : Nat) : Cost p 0 0 0 0 [] := by
  have h : pathCost [] = 0 := rfl
  exact Cost.free p h

/-- The calls for one byte. -/
theorem Cost.byte {p v : Nat} {cs : List Call} (hp : pathCost cs ≤ 2 * p) (hv : valueCost cs ≤ v) :
    Cost p 0 1 1 v cs where
  fits := Nat.le_refl 1
  paths := by rw [Nat.add_zero, Nat.mul_one]; exact hp
  values := hv

/-- What the calls of these entries cost, and what is left of the last key. -/
def EntriesCost (g : Entries) : Prop :=
  ∀ {s : Text} (root : Bool) (c : Ctx) (w : Walk) {p : Nat}, g.At s →
    (pathBytes c.parent).length ≤ p → ∃ a b,
      Cost p a b (s.length - g.last.length) (s.length - g.last.length) (g.calls root c w) ∧
      (g.after w).key.bytes.length ≤ max w.key.bytes.length a ∧ (g.isRoot = true → 1 ≤ a)

/-- The cost of a whole group, its `{` included. -/
theorem EntriesCost.group {body : Entries} (hE : EntriesCost body) {s : Text} (start : Text)
    (c : Ctx) (w : Walk) {p : Nat} (hb : body.At s) (hp : (pathBytes c.parent).length ≤ p + 1) :
    ∃ a b, Cost p a b (1 + (s.length - body.last.length)) (s.length - body.last.length)
      (groupCalls body start c w) ∧
    (body.after (w.enter body.isRoot)).key.bytes.length ≤ max w.key.bytes.length a := by
  unfold groupCalls
  cases hroot : body.isRoot with
  | true =>
    obtain ⟨a, b, hc, hk, ha⟩ := hE true (c.enter true w.devices) (w.enter true)
      (p := p) hb (Nat.zero_le _)
    have ha := ha hroot
    refine ⟨a, b + 1, ⟨?_, ?_, ?_⟩, hk⟩
    · have := hc.fits
      omega
    · have h1 := hc.paths
      have h2 : pathCost [.device w.devices w.roots c.flags c.parent start] ≤ p + 1 := hp
      rw [if_pos rfl, pathCost_append, Nat.mul_add, Nat.mul_one]
      omega
    · rw [if_pos rfl, valueCost_append]
      exact (Nat.zero_add _).symm ▸ hc.values
  | false =>
    obtain ⟨a, b, hc, hk, -⟩ := hE false c (w.enter false) (p := p + 1) hb hp
    refine ⟨1 + a, b, hc.shift, ?_⟩
    have hk : _ ≤ max w.key.bytes.length a := hk
    omega

mutual

/-- **The cost of the entries of a group.** -/
theorem Entries.calls_cost : ∀ g : Entries, EntriesCost g
  | .stop _, s, _, _, w, p, _, _ =>
    ⟨0, 0, (Cost.nil p).mono (Nat.le_refl _) (Nat.zero_le _) (Nat.zero_le _),
      Nat.le_max_left _ _, fun h => Bool.noConfusion h⟩
  | .entry key vals rest, s, root, c, w, p, hg, hp => by
    obtain ⟨rfl, h0, -, hv, hr⟩ := hg
    have hk := keyAt_length key
    have hkw := (skipWhitespace_suffix (skipKey key)).length_le
    have hvl := hv.suffix.length_le
    have hrl := hr.suffix.length_le
    have hcl := ((skipWhitespace_suffix _).trans (closeEntry_suffix vals.last)).length_le
    obtain ⟨av, bv, hcv, hkv⟩ := vals.calls_cost (isInterface key) (flagsAt key) c (w.read key)
      (p := p + (keyAt key).bytes.length) hv (by
        show _ + (keyAt key).bytes.length ≤ _
        omega)
    obtain ⟨ar, br, hcr, hkr, hroot⟩ := rest.calls_cost root c (vals.after (w.read key))
      (p := p + ((keyAt key).bytes.length + av)) hr (by omega)
    have hend := endCalls_cost root c.target (skipNewline (closeEntry vals.last))
    have h := (hcv.shift.append (Cost.free _ hend.1)).append hcr
    have hif : (if isInterface key then 1 else 0) ≤ (keyAt key).bytes.length := by
      split_ifs with hi
      · rw [isInterface_length hi]
        decide
      · exact Nat.zero_le _
    refine ⟨_, _, h.mono (Nat.le_refl _) ?_ ?_, ?_, fun hr => ?_⟩
    · rw [Entries.last]
      omega
    · rw [hend.2, Entries.last]
      omega
    · have hkv : _ ≤ max (keyAt key).bytes.length av := hkv
      rw [Entries.after]
      omega
    · rw [Entries.isRoot, Bool.or_eq_true] at hr
      rcases hr with hi | hr
      · rw [isInterface_length hi]
        omega
      · have := hroot hr
        omega

theorem Values.calls_cost : ∀ (v : Values) {s : Text} (iface : Bool) (flags : Nat) (c : Ctx)
    (w : Walk) {p : Nat}, v.At s → (pathBytes c.parent).length + w.key.bytes.length ≤ p → ∃ a b,
      Cost p a b (s.length - v.last.length) (s.length - v.last.length + if iface then 1 else 0)
        (v.calls iface flags c w) ∧
      (v.after w).key.bytes.length ≤ max w.key.bytes.length a
  | .stop _, s, _, _, _, w, p, _, _ =>
    ⟨0, 0, (Cost.nil p).mono (Nat.le_refl _) (Nat.zero_le _) (Nat.zero_le _),
      Nat.le_max_left _ _⟩
  | .quoted here rest, s, iface, flags, c, w, p, hv, hp => by
    obtain ⟨rfl, hq, hr⟩ := hv
    have hlt := after_lt (skipString_suffix _) (ne_zero_of_eq (by decide) hq)
    have hle := (skipWhitespace_suffix (skipString here.tail)).length_le
    have hrl := hr.suffix.length_le
    have hval := decodeString_length_quoted hq
    obtain ⟨ar, br, hcr, hkr⟩ := rest.calls_cost false flags c w hr hp
    have hpath : pathCost (if iface then [.interface here c.target] else []) ≤ 2 * p :=
      (pathCost_ite _).trans (Nat.zero_le _)
    refine ⟨_, _, ((Cost.byte hpath (Nat.le_refl _)).append hcr).mono (Nat.le_refl _) ?_ ?_, ?_⟩
    · rw [Values.last]
      omega
    · have h1 : valueCost (if iface then [.interface here c.target] else []) =
          if iface then (decodeString here).length + 1 else 0 := valueCost_ite _
      rw [h1, Values.last, if_neg Bool.false_ne_true]
      split_ifs <;> omega
    · rw [Nat.zero_add]
      exact hkr
  | .group here body rest, s, iface, flags, c, w, p, hv, hp => by
    obtain ⟨rfl, ho, hb, hr⟩ := hv
    have hlt := after_group_lt ho hb
    have h0 := tail_lt (ne_zero_of_eq (by decide) ho)
    have hbl := hb.suffix.length_le
    have hsk := (skipWhitespace_suffix here.tail).length_le
    have hcl := ((skipWhitespace_suffix _).trans (closeGroup_suffix body.last)).length_le
    have hrl := hr.suffix.length_le
    obtain ⟨a, b, hcb, hkb⟩ := EntriesCost.group body.calls_cost
      (skipNewline here.tail) ⟨w.key :: c.parent, flags, c.target⟩ w (p := p) hb (by
        rw [pathBytes, List.length_append, List.length_append]
        show _ + (w.key.bytes.length + 1) ≤ _
        omega)
    obtain ⟨ar, br, hcr, hkr⟩ := rest.calls_cost false flags c
      (body.after (w.enter body.isRoot)) (p := p + a) hr (by omega)
    rw [Values.calls_group]
    refine ⟨_, _, (hcb.append hcr).mono (Nat.le_refl _) ?_ ?_, ?_⟩
    · rw [Values.last]
      omega
    · rw [Values.last, if_neg Bool.false_ne_true]
      omega
    · rw [Values.after]
      omega
  | .bare here rest, s, iface, flags, c, w, p, hv, hp => by
    obtain ⟨rfl, h0, hs, hq, ho, hr⟩ := hv
    have hlt := after_lt (skipKey_suffix _) h0
    have hle := (skipWhitespace_suffix (skipKey here.tail)).length_le
    have hrl := hr.suffix.length_le
    have hval := decodeString_length_bare h0 hq
    obtain ⟨ar, br, hcr, hkr⟩ := rest.calls_cost false flags c w hr hp
    -- one byte of text for a range, a single and an override
    have hpath : pathCost ((if iface then [.interface here c.target] else []) ++
        (if c.flags ≠ 0 then [.range here w.key c.parent c.flags c.target] else []) ++
        (if flags ≠ 0 then [.single here c.parent flags c.target] else [])) ≤ 2 * p := by
      have h1 : pathCost (if iface then [.interface here c.target] else []) ≤ 0 := pathCost_ite _
      have h2 : pathCost (if c.flags ≠ 0 then [.range here w.key c.parent c.flags c.target]
          else []) ≤ (pathBytes c.parent.tail).length := pathCost_ite _
      have h3 : pathCost (if flags ≠ 0 then [.single here c.parent flags c.target] else []) ≤
          (pathBytes c.parent).length := pathCost_ite _
      have hpt := pathBytes_tail_le c.parent
      rw [pathCost_append, pathCost_append]
      omega
    refine ⟨_, _, ((Cost.byte hpath (Nat.le_refl _)).append hcr).mono (Nat.le_refl _) ?_ ?_, ?_⟩
    · rw [Values.last]
      omega
    · have h1 : valueCost (if iface then [.interface here c.target] else []) =
          if iface then (decodeString here).length + 1 else 0 := valueCost_ite _
      have h2 : valueCost (if c.flags ≠ 0 then [.range here w.key c.parent c.flags c.target]
          else []) = 0 := (valueCost_ite _).trans (ite_self 0)
      have h3 : valueCost (if flags ≠ 0 then [.single here c.parent flags c.target] else []) = 0 :=
        (valueCost_ite _).trans (ite_self 0)
      rw [valueCost_append, valueCost_append, h1, h2, h3, Values.last, if_neg Bool.false_ne_true]
      split_ifs <;> omega
    · rw [Nat.zero_add]
      exact hkr

end

/-! ## The whole string -/

theorem apply_size (c : Call) (T : Table) : (c.apply T).size ≤ T.size + c.pathCost + c.valueCost := by
  have hpath : ∀ parent, (T.addPath parent).size ≤ T.size + (pathBytes parent).length := by
    intro parent
    cases parent with
    | nil => exact Nat.le_add_right _ _
    | cons k up =>
      rw [Table.size, Table.addPath, Table.layOut_image, List.length_append, List.length_map,
        pathString, List.length_append, List.length_dropLast, Table.size]
      have : 0 < (pathBytes (k :: up)).length := by
        rw [pathBytes, List.length_append, List.length_append, List.length_singleton]
        omega
      rw [List.length_singleton]
      omega
  have hres : ∀ t parent flags start stop, (T.addResource t parent flags start stop).size ≤
      T.size + (pathBytes parent).length := by
    intro t parent flags start stop
    rw [Table.addResource, Table.size, Table.update_image]
    exact hpath parent
  cases c with
  | device dev group flags parent config => exact hpath parent
  | interface config target =>
    rw [Call.apply, Table.size, Table.update_image, Table.layOut_image, List.length_append,
      overrideCells_length]
    exact Nat.le_refl _
  | range config key parent flags target =>
    cases target with
    | none => exact Nat.le_add_right _ _
    | some t =>
      simp only [Call.apply]
      split_ifs
      · exact hres t _ _ _ _
      · exact Nat.le_add_right _ _
  | single config parent flags target =>
    cases target with
    | none => exact Nat.le_add_right _ _
    | some t =>
      simp only [Call.apply]
      split_ifs
      · exact hres t _ _ _ _
      · exact Nat.le_add_right _ _
  | configEnd dev stop =>
    rw [Call.apply, Table.size, Table.update_image]
    exact Nat.le_refl _

theorem applyAll_size : ∀ (cs : List Call) (T : Table),
    (applyAll cs T).size ≤ T.size + pathCost cs + valueCost cs
  | [], _ => Nat.le_refl _
  | c :: cs, T => by
    have h1 := apply_size c T
    have h2 := applyAll_size cs (c.apply T)
    have h3 : pathCost (c :: cs) = c.pathCost + pathCost cs := List.sum_cons
    have h4 : valueCost (c :: cs) = c.valueCost + valueCost cs := List.sum_cons
    rw [applyAll_cons, h3, h4]
    omega

theorem valueCost_mem {c : Call} : ∀ {cs : List Call}, c ∈ cs → c.valueCost ≤ valueCost cs
  | d :: cs, h => by
    have h4 : valueCost (d :: cs) = d.valueCost + valueCost cs := List.sum_cons
    rcases List.mem_cons.mp h with rfl | h
    · omega
    · have := valueCost_mem h
      omega

/-- **The names of a short config string fit an `int`**, and its values `parse_string`'s buffer:
the names take less than `(m + 1)² / 2` bytes. -/
theorem groupCalls_size (config : Text) (w : Walk) (hlen : config.length < 65536) :
    (applyAll (groupCalls (scan config) config ⟨[], 0, none⟩ w) {}).size < 2 ^ 31 ∧
    ∀ c ∈ groupCalls (scan config) config ⟨[], 0, none⟩ w, c.valueCost < 65536 := by
  have hg := scan_at config
  have hsk := (skipWhitespace_suffix config).length_le
  have hcost : ∃ a b, Cost 0 a b config.length config.length
      (groupCalls (scan config) config ⟨[], 0, none⟩ w) := by
    unfold groupCalls
    cases hroot : (scan config).isRoot with
    | true =>
      obtain ⟨a, b, hc, -⟩ := (scan config).calls_cost true
        (Ctx.enter ⟨[], 0, none⟩ true w.devices) (w.enter true) (p := 0) hg (Nat.le_refl 0)
      have hdev : pathCost [.device w.devices w.roots 0 [] config] = 0 := rfl
      have h := (Cost.free 0 hdev).append hc
      exact ⟨_, _, h.mono (Nat.le_refl 0) (by omega) (by
        show 0 + _ ≤ _
        omega)⟩
    | false =>
      obtain ⟨a, b, hc, -⟩ := (scan config).calls_cost false ⟨[], 0, none⟩
        (w.enter false) (p := 0) hg (Nat.le_refl 0)
      exact ⟨a, b, hc.mono (Nat.le_refl 0) (by omega) (by omega)⟩
  obtain ⟨a, b, hc⟩ := hcost
  have hsize := applyAll_size (groupCalls (scan config) config ⟨[], 0, none⟩ w) {}
  have h0 : Table.size {} = 0 := rfl
  have hpaths := hc.paths
  have hvalues := hc.values
  have hfits := hc.fits
  constructor
  · -- 4ab ≤ (a + b)², and (m + 1)² ≤ 2 ^ 32
    have hab : 4 * (a * b) ≤ (a + b) * (a + b) := by nlinarith [sq_nonneg ((a : ℤ) - b)]
    have hm : (a + b) * (a + b) ≤ 65535 * 65535 := Nat.mul_le_mul (by omega) (by omega)
    rw [Nat.zero_add, Nat.mul_assoc] at hpaths
    omega
  · intro c hmem
    have := valueCost_mem hmem
    omega

end LowriscLinux.Config
