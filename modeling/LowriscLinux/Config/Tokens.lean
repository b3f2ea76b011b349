import LowriscLinux.Config.Cut
import LowriscLinux.Config.Faults
import LowriscLinux.Config.Integer

/-!
# Tokens that are read as integers

`parse_single`, `parse_range` and `config_string_u64` take a token for an integer when `parse_u64`
and `skip_key`, started at its first byte, stop at the same place (`arch/riscv/drivers/config.c`,
lines 427-430, 376-388 and 265-267). They also do when neither of them moves. `Literal` says that a
token is an integer literal, with a digit; the tokens that are accepted are the literals that fit,
and those that are nothing but a sign, a `0x` and underscores (`Digitless`): the empty key, a `}`, a
quoted string.

* `Call.tokens`: the tokens that a call tests, the value of `parse_single`, and the value and the
  key of `parse_range` (lines 377, 378 and 428).
* `Call.Rejects`: in pass 2 a call prints one of its messages (`Call.complaints`: lines 382, 390 and
  432) and changes nothing.
* `Called`: pass 2 over a text makes a call in some memory.
* `Call.Blank`, `Entries.blank`: a call for a device accepts a token without a digit.
  `Entries.blank` is computed from the tree of the text.
* `U64Right`: `config_string_u64` returns a number without a message for a literal only, and has a
  message for any other value of the key, as `asm/config-string.h` (line 9) says.

Results:
* `valueOk_of_digitless`, `literal_iff_of_valueOk`: which tokens are accepted.
* `recordsIntegers_iff`: pass 2 makes resources of literals only iff no such token is tested.
* `u64Right_iff`: `config_string_u64` is right iff it finds no such token.
* **`integers_iff`**: both, for a config string and its devices.
-/

namespace LowriscLinux.Config

open LowriscLinux.Lib

/-! ## Literals -/

/-- The digits of the token at `s`: what `skip_key` skips behind the sign and the `0x`. -/
def tokenDigits (s : Text) : Text := (literalDigits s).takeWhile fun c => isKeyByte c.val

/-- The token at `s` is an integer literal with at least one digit. -/
def Literal (s : Text) : Prop :=
  (∀ c ∈ tokenDigits s, (literalBase s).Takes c.val) ∧
    ∃ c ∈ tokenDigits s, (literalBase s).isDigit c.val = true

instance (s : Text) : Decidable (Literal s) := inferInstanceAs (Decidable (_ ∧ _))

/-- The token at `s` is at most a sign, a `0x` and underscores. -/
def Digitless (s : Text) : Prop := ∀ c ∈ tokenDigits s, c.val = underscore

instance (s : Text) : Decidable (Digitless s) := inferInstanceAs (Decidable (∀ c ∈ _, _))

theorem skipKey_literalDigits (s : Text) : skipKey (literalDigits s) = skipKey s := by
  have hsign : skipKey (afterSign s) = skipKey s := by
    unfold afterSign
    split_ifs with h
    · exact skipKey_tail (by rw [h]; decide)
    · rfl
  rw [← hsign]
  unfold literalDigits literalBase
  split
  · rename_i hbase
    split_ifs at hbase with hx
    rw [drop_two, skipKey_tail (by rw [hx.2]; decide), skipKey_tail (by rw [hx.1]; decide)]
  · rfl

theorem tokenDigits_append (s : Text) : tokenDigits s ++ skipKey s = literalDigits s := by
  rw [← skipKey_literalDigits]
  exact List.takeWhile_append_dropWhile

theorem not_isKeyByte_skipKey (s : Text) : isKeyByte (deref (skipKey s)) = false := by
  have hhead := List.head?_dropWhile_not (fun c : Byte => isKeyByte c.val) s
  unfold skipKey
  cases hs : s.dropWhile fun c => isKeyByte c.val with
  | nil => rfl
  | cons c t =>
    rw [hs] at hhead
    exact hhead

theorem parseU64Dec_takes : ∀ (str : Text) (res : BitVec 64),
    ∃ p, str = p ++ (parseU64Dec str res).1 ∧ ∀ c ∈ p, Base.dec.Takes c.val
  | [], _ => ⟨[], rfl, by simp⟩
  | c :: str, res => by
    unfold parseU64Dec
    split_ifs with hdigit hbreak hunder
    · exact ⟨[], rfl, by simp⟩
    · obtain ⟨p, hp, htakes⟩ := parseU64Dec_takes str
        (res * 10 + BitVec.ofNat 64 (parseDec c.val))
      exact ⟨c :: p, congrArg (c :: ·) hp, List.forall_mem_cons.mpr ⟨Or.inl hdigit, htakes⟩⟩
    · exact ⟨[], rfl, by simp⟩
    · obtain ⟨p, hp, htakes⟩ := parseU64Dec_takes str res
      exact ⟨c :: p, congrArg (c :: ·) hp,
        List.forall_mem_cons.mpr ⟨Or.inr (not_not.mp hunder), htakes⟩⟩

/-- A scanner consumes digits of its base and underscores. -/
theorem scanDigits_takes (b : Base) (str : Text) :
    ∃ p, str = p ++ (scanDigits b str).1 ∧ ∀ c ∈ p, b.Takes c.val := by
  cases b with
  | hex =>
    obtain ⟨p, hp, htakes, -⟩ := parseU64Hex_reads str 0
    exact ⟨p, hp, htakes⟩
  | dec => exact parseU64Dec_takes str 0

/-- Digits of either base and underscores are bytes of a key. -/
theorem isKeyByte_of_takes {b : Base} {c : UInt8} (h : b.Takes c) : isKeyByte c = true := by
  rcases h with h | rfl
  · cases b with
    | hex => exact isKeyByte_of_isHex h
    | dec => exact isKeyByte_of_isDec h
  · decide

/-- A scanner passes underscores and stops where neither a digit nor another one comes next. -/
theorem scanDigits_underscores (b : Base) {t : Text} (ht : ¬ b.Takes (deref t)) : ∀ {p : Text},
    (∀ c ∈ p, c.val = underscore) → scanDigits b (p ++ t) = (t, 0)
  | [], _ => by
    cases t with
    | nil => cases b <;> rfl
    | cons c t =>
      obtain ⟨hdigit, hunder⟩ := not_or.mp ht
      cases b with
      | hex => exact (if_neg hdigit).trans (if_pos hunder)
      | dec => exact (if_neg hdigit).trans (if_pos hunder)
  | c :: p, hp => by
    obtain ⟨hc, hp⟩ := List.forall_mem_cons.mp hp
    have hdigit : ¬ b.isDigit c.val = true := fun h => isDigit_ne_underscore h hc
    have hrest := scanDigits_underscores b ht hp
    cases b with
    | hex => exact ((if_neg hdigit).trans (if_neg (not_not.mpr hc))).trans hrest
    | dec => exact ((if_neg hdigit).trans (if_neg (not_not.mpr hc))).trans hrest

/-! ## What is accepted -/

theorem valueOk_iff {s : Text} : valueOk s = true ↔
    (scanDigits (literalBase s) (literalDigits s)).1 = skipKey s := by
  rw [valueOk, decide_eq_true_iff, parseU64_eq_scan]

/-- A token that is accepted consists of digits of its base and underscores. -/
theorem takes_of_valueOk {s : Text} (h : valueOk s = true) :
    ∀ c ∈ tokenDigits s, (literalBase s).Takes c.val := by
  obtain ⟨p, hp, htakes⟩ := scanDigits_takes (literalBase s) (literalDigits s)
  rw [valueOk_iff.mp h, ← tokenDigits_append] at hp
  rwa [List.append_cancel_right hp]

/-- **Without a digit, both scanners stop at the end of the token.** -/
theorem valueOk_of_digitless {s : Text} (h : Digitless s) : valueOk s = true := by
  rw [valueOk_iff, ← tokenDigits_append, scanDigits_underscores _ _ h]
  intro htakes
  exact absurd (isKeyByte_of_takes htakes) (by rw [not_isKeyByte_skipKey]; decide)

theorem not_literal_of_digitless {s : Text} (h : Digitless s) : ¬ Literal s := by
  rintro ⟨-, c, hc, hdigit⟩
  exact isDigit_ne_underscore hdigit (h c hc)

/-- **A token that is accepted is a literal, or has no digit.** -/
theorem literal_iff_of_valueOk {s : Text} (h : valueOk s = true) : Literal s ↔ ¬ Digitless s := by
  constructor
  · exact fun hl hd => not_literal_of_digitless hd hl
  · intro hd
    have htakes := takes_of_valueOk h
    refine ⟨htakes, ?_⟩
    by_contra hno
    refine hd fun c hc => (htakes c hc).resolve_left fun hdigit => hno ⟨c, hc, hdigit⟩

/-! ## The tests of pass 2 -/

/-- The tokens that a test turns into the numbers of a resource. -/
def Call.tokens : Call → List Text
  | .range config key .. => [key.start, config]
  | .single config .. => [config]
  | _ => []

/-- What a test may print about its tokens. -/
def Call.complaints : Call → List Message
  | .range config key .. =>
    [.invalidKey key.bytes, .invalidValue (between config (skipKey config))]
  | .single config .. => [.invalidValue (between config (skipKey config))]
  | _ => []

/-- In pass 2 the call rejects its tokens: it prints a message and changes nothing. -/
def Call.Rejects (c : Call) (names : Nat) (h : Heap) : Prop :=
  ∃ m ∈ c.complaints, c.exec 2 names h = .ok (names, h.printk m)

/-- Pass 2 over the text makes the call in this memory: it makes the calls of the text one after the
other (`writeResources_eq`). -/
def Called (config : Text) (c : Call) (names : Nat) (h : Heap) : Prop :=
  ∃ state₀ h₀ state₁ h₁ pre post, detectRoots config = .ok (state₀, h₀) ∧
    countResources config state₀ h₀ = .ok (state₁, h₁) ∧ calls config = pre ++ c :: post ∧
    runCalls 2 pre 0 (writeStart state₁ h₁) = .ok (names, h)

/-- Only integers become resources: in pass 2 every test for a device rejects tokens one of which
is no literal. -/
def RecordsIntegers (config : Text) : Prop :=
  ∀ c names h, Called config c names h → c.target.isSome → (∃ s ∈ c.tokens, ¬ Literal s) →
    c.Rejects names h

/-- The call accepts a token without a digit for a device. -/
def Call.Blank (c : Call) : Prop :=
  c.target.isSome ∧ (∀ s ∈ c.tokens, valueOk s = true) ∧ ∃ s ∈ c.tokens, Digitless s

/-- The key of a call is one that the parser has read. -/
def Call.Keyed : Call → Prop
  | .range _ key .. => key = keyAt key.start
  | _ => True

section Tests

variable {L : Layout} {T : Table} {names : Nat} {h : Heap} {t : Nat}

/-- In pass 2 every device has its array. -/
theorem lastPass_eq (hm : Models 2 L T names h) (ht : t < T.devices.length)
    (hb : (L.base t).isSome) : lastPass h (some t) = .ok true := by
  obtain ⟨s, hs⟩ : ∃ s, T.devices[t]? = some s := ⟨_, List.getElem?_eq_getElem ht⟩
  exact bind_eq_ok.mpr ⟨_, hm.listed.device hs, congrArg Except.ok hb⟩

/-- A test rejects tokens that are not accepted. -/
theorem rejects_of_not_valueOk {c : Call} (hm : Models 2 L T names h) (hf : c.Fits T.devices.length)
    (hk : c.Keyed) (ht : c.target = some t) (hb : (L.base t).isSome)
    (hbad : ∃ s ∈ c.tokens, valueOk s = false) : c.Rejects names h := by
  cases c with
  | range config key parent flags target =>
    obtain rfl : target = some t := ht
    have hlast := lastPass_eq hm (hf t rfl) hb
    have hk : key.stop = skipKey key.start := congrArg Key.stop hk
    by_cases hkey : (parseU64 key.start).1 = key.stop
    · have hval : ¬ (parseU64 config).1 = skipKey config := by
        intro hval
        obtain ⟨s, hs, hno⟩ := hbad
        rcases List.mem_cons.mp hs with rfl | hs
        · exact absurd (decide_eq_true (hkey.trans hk)) (Bool.not_eq_true _ ▸ hno)
        · rw [List.mem_singleton.mp hs] at hno
          exact absurd (decide_eq_true hval) (Bool.not_eq_true _ ▸ hno)
      refine ⟨_, List.mem_cons_of_mem _ List.mem_cons_self, ?_⟩
      simp only [Call.exec, parseRange, hlast, bind, Except.bind, hkey, ne_eq, not_true_eq_false,
        if_false, hval, not_false_eq_true, if_true]
    · refine ⟨_, List.mem_cons_self, ?_⟩
      simp only [Call.exec, parseRange, hlast, bind, Except.bind, hkey, ne_eq, not_false_eq_true,
        if_true]
      rfl
  | single config parent flags target =>
    obtain rfl : target = some t := ht
    have hlast := lastPass_eq hm (hf t rfl) hb
    have hval : ¬ (parseU64 config).1 = skipKey config := by
      obtain ⟨s, hs, hno⟩ := hbad
      rw [List.mem_singleton.mp hs] at hno
      exact of_decide_eq_false hno
    refine ⟨_, List.mem_cons_self, ?_⟩
    simp only [Call.exec, parseSingle, hlast, bind, Except.bind, hval, ne_eq, not_false_eq_true,
      if_true]
  | _ =>
    obtain ⟨s, hs, -⟩ := hbad
    cases hs

/-- What an accepted resource adds to the table. -/
theorem addResource_counts {parent : List Key} {flags : Nat} {start stop : BitVec 64}
    {s : DeviceSpec} (hs : T.devices[t]? = some s) :
    ∃ s', (T.addResource t parent flags start stop).devices[t]? = some s' ∧
      s'.resources.length = s.resources.length + 1 := by
  refine ⟨s.withResource ⟨T.resourceName parent, flags, start, stop⟩, ?_, List.length_append⟩
  show ((T.addPath parent).devices.modify t _)[t]? = _
  rw [List.getElem?_modify, Table.addPath_devices, hs]
  simp

/-- A test that accepts its tokens adds a resource. -/
theorem apply_counts {c : Call} (hk : c.Keyed) (ht : c.target = some t) (htok : c.tokens ≠ [])
    (hok : ∀ s ∈ c.tokens, valueOk s = true) {s : DeviceSpec} (hs : T.devices[t]? = some s) :
    ∃ s', (c.apply T).devices[t]? = some s' ∧
      s'.resources.length = s.resources.length + 1 := by
  cases c with
  | range config key parent flags target =>
    obtain rfl : target = some t := ht
    obtain ⟨hkey, hval⟩ := List.forall_mem_cons.mp hok
    have hkey : keyOk key = true := by
      rw [show key = keyAt key.start from hk]
      exact hkey
    have hok : keyOk key ∧ valueOk config := ⟨hkey, hval config List.mem_cons_self⟩
    simp only [Call.apply, if_pos hok]
    exact addResource_counts hs
  | single config parent flags target =>
    obtain rfl : target = some t := ht
    have hval : valueOk config = true := hok config List.mem_cons_self
    simp only [Call.apply, if_pos hval]
    exact addResource_counts hs
  | _ => exact absurd rfl htok

/-- **A test rejects its tokens iff it does not accept one.** -/
theorem rejects_iff {c : Call} (hm : Models 2 L T names h) (hf : c.Fits T.devices.length)
    (hsafe : c.Safe) (hr : Room 2 L (c.apply T)) (hk : c.Keyed) (ht : c.target = some t)
    (hb : (L.base t).isSome) (htok : c.tokens ≠ []) :
    c.Rejects names h ↔ ∃ s ∈ c.tokens, valueOk s = false := by
  refine ⟨fun ⟨m, _, e⟩ => ?_, rejects_of_not_valueOk hm hf hk ht hb⟩
  by_contra hno
  have hok : ∀ s ∈ c.tokens, valueOk s = true := fun s hs =>
    Bool.eq_true_of_not_eq_false fun h => hno ⟨s, hs, h⟩
  have hlt : t < T.devices.length := by
    cases c with
    | device => cases ht
    | _ => exact hf t ht
  obtain ⟨s, hs⟩ : ∃ s, T.devices[t]? = some s := ⟨_, List.getElem?_eq_getElem hlt⟩
  obtain ⟨s', hs', hcount⟩ := apply_counts hk ht htok hok hs
  obtain ⟨r, er, hm'⟩ := exec_models hm hf hsafe hr
  cases e.symm.trans er
  -- the device has as many resources as before, and one more
  have h1 := hm.listed.device hs
  have h2 : (h.printk m).device t = .ok _ := hm'.listed.device hs'
  have h3 := congrArg PlatformDevice.numResources (Except.ok.inj (h1.symm.trans h2))
  have h3 : s.resources.length = s'.resources.length := h3
  omega

end Tests

theorem Ordered.left : ∀ {as bs : List Call} {m : Nat}, Ordered m (as ++ bs) → Ordered m as
  | [], _, _, _ => trivial
  | _ :: _, _, _, h => ⟨h.1, Ordered.left h.2⟩

/-- The memory in which pass 2 makes a call holds the table of the calls before it. -/
theorem called_models {config : Text} {state₁ : ParserState} {h₁ : Heap} {total : Nat}
    (hm : Models 1 (countLayout (table config) total) (table config) state₁.names h₁)
    (hsafe : ∀ c ∈ calls config, c.Safe) {pre post : List Call} {c : Call}
    (hcalls : calls config = pre ++ c :: post) :
    Returns (runCalls 2 pre 0 (writeStart state₁ h₁)) fun r =>
      Models 2 (writeLayout (table config)) (applyAll pre {}) r.1 r.2 ∧
        c.Fits (applyAll pre {}).devices.length ∧
        Room 2 (writeLayout (table config)) (c.apply (applyAll pre {})) ∧
        (applyAll pre {}).devices.length ≤ (table config).devices.length := by
  have hord := (calls_opens config).ordered
  rw [hcalls] at hord
  have hlen : (applyAll pre {}).devices.length = 0 + (openGroups pre).length := by
    have h := congrArg List.length (applyAll_groups pre {})
    rw [List.length_map] at h
    rw [h]
    exact (Nat.zero_add _).symm
  have htable : table config = applyAll post (c.apply (applyAll pre {})) := by
    rw [table, hcalls, applyAll_append, applyAll_cons]
  have hgrow := applyAll_grows post (c.apply (applyAll pre {}))
  rw [← htable] at hgrow
  have hroom := (writeLayout_room (table config)).mono hgrow
  refine (runCalls_models pre (writeStart_models hm) hord.left (fun c hc => hsafe c ?_)
    (hroom.mono (apply_grows c _))).imp fun r _ hr => ⟨hr, ?_, hroom, ?_⟩
  · rw [hcalls]
    exact List.mem_append_left _ hc
  · rw [hlen]
    exact hord.right.1
  · exact (apply_grows c _).length_le.trans hgrow.length_le

/-! ## Tokens without a digit in a text -/

mutual

/-- Some entry has a bare value that is tested for a device (`inside` one) and accepted without a
digit in it, or in the key that the parser holds. -/
def Entries.blank : Entries → Bool → Nat → Bool
  | .stop _, _, _ => false
  | .entry key vals rest, inside, parentFlags =>
    vals.blank (keyAt key) (flagsAt key) inside parentFlags || rest.blank inside parentFlags

def Values.blank : Values → Key → Nat → Bool → Nat → Bool
  | .stop _, _, _, _, _ => false
  | .quoted _ rest, k, flags, inside, parentFlags => rest.blank k flags inside parentFlags
  | .group _ body rest, k, flags, inside, parentFlags =>
    body.blank (inside || body.isRoot) flags || rest.blank (body.lastKey k) flags inside parentFlags
  | .bare here rest, k, flags, inside, parentFlags =>
    (inside && parentFlags ≠ 0 && valueOk k.start && valueOk here &&
      (Digitless k.start || Digitless here)) ||
    (inside && flags ≠ 0 && Digitless here) || rest.blank k flags inside parentFlags

end

mutual

/-- The key held is one that was read, if it was before. -/
theorem Entries.lastKey_read : ∀ (g : Entries) {k : Key}, k = keyAt k.start →
    g.lastKey k = keyAt (g.lastKey k).start
  | .stop _, _, hk => hk
  | .entry key vals rest, _, _ =>
    Entries.lastKey_read rest (Values.lastKey_read vals (k := keyAt key) rfl)

theorem Values.lastKey_read : ∀ (v : Values) {k : Key}, k = keyAt k.start →
    v.lastKey k = keyAt (v.lastKey k).start
  | .stop _, _, hk => hk
  | .quoted _ rest, _, hk => Values.lastKey_read rest hk
  | .group _ body rest, _, hk => Values.lastKey_read rest (Entries.lastKey_read body hk)
  | .bare _ rest, _, hk => Values.lastKey_read rest hk

end

mutual

theorem Entries.calls_keyed : ∀ (g : Entries) (root : Bool) (c : Ctx) (w : Walk),
    ∀ d ∈ g.calls root c w, d.Keyed
  | .stop _, _, _, _ => fun _ h => (List.not_mem_nil h).elim
  | .entry key vals rest, root, c, w => by
    rw [Entries.calls, List.forall_mem_append, List.forall_mem_append]
    exact ⟨⟨Values.calls_keyed vals _ _ c (w.read key) rfl,
      forall_endCalls (fun _ _ => trivial) _ _ _⟩, Entries.calls_keyed rest root c _⟩

theorem Values.calls_keyed : ∀ (v : Values) (iface : Bool) (flags : Nat) (c : Ctx) (w : Walk),
    w.key = keyAt w.key.start → ∀ d ∈ v.calls iface flags c w, d.Keyed
  | .stop _, _, _, _, _, _ => fun _ h => (List.not_mem_nil h).elim
  | .quoted here rest, iface, flags, c, w, hk => by
    rw [Values.calls, List.forall_mem_append]
    exact ⟨forall_mem_ite.mpr fun _ => trivial, Values.calls_keyed rest _ _ c w hk⟩
  | .group here body rest, iface, flags, c, w, hk => by
    have hkey : (body.after (w.enter body.isRoot)).key = body.lastKey w.key :=
      Entries.after_key body (w.enter body.isRoot)
    rw [Values.calls_group, List.forall_mem_append, groupCalls, List.forall_mem_append]
    refine ⟨⟨forall_mem_ite.mpr fun _ => trivial, Entries.calls_keyed body _ _ _⟩,
      Values.calls_keyed rest _ _ c _ ?_⟩
    rw [hkey]
    exact Entries.lastKey_read body hk
  | .bare here rest, iface, flags, c, w, hk => by
    rw [Values.calls, List.forall_mem_append, List.forall_mem_append, List.forall_mem_append]
    exact ⟨⟨⟨forall_mem_ite.mpr fun _ => trivial, forall_mem_ite.mpr fun _ => hk⟩,
      forall_mem_ite.mpr fun _ => trivial⟩, Values.calls_keyed rest _ _ c w hk⟩

end

theorem not_blank_of_tokens {c : Call} (h : c.tokens = []) : ¬ c.Blank := by
  rintro ⟨-, -, s, hs, -⟩
  rw [h] at hs
  cases hs

theorem blank_range {config : Text} {k : Key} {parent : List Key} {flags : Nat}
    {target : Option Nat} : (Call.range config k parent flags target).Blank ↔
      target.isSome ∧ valueOk k.start = true ∧ valueOk config = true ∧
        (Digitless k.start ∨ Digitless config) := by
  simp [Call.Blank, Call.tokens, Call.target, and_assoc]

theorem blank_single {config : Text} {parent : List Key} {flags : Nat} {target : Option Nat} :
    (Call.single config parent flags target).Blank ↔ target.isSome ∧ Digitless config := by
  simp only [Call.Blank, Call.tokens, Call.target, List.mem_singleton, forall_eq, exists_eq_left]
  exact and_congr_right fun _ => and_iff_right_of_imp valueOk_of_digitless

/-- No call of these entries accepts a token without a digit iff the entries have none. -/
def EntriesBlank (g : Entries) : Prop :=
  ∀ (root : Bool) (c : Ctx) (w : Walk),
    (∀ d ∈ g.calls root c w, ¬ d.Blank) ↔ g.blank c.target.isSome c.flags = false

theorem EntriesBlank.group {body : Entries} (hE : EntriesBlank body) (start : Text)
    (parent : List Key) (flags : Nat) (target : Option Nat) (w : Walk) :
    (∀ d ∈ groupCalls body start ⟨parent, flags, target⟩ w, ¬ d.Blank) ↔
      body.blank (target.isSome || body.isRoot) flags = false := by
  have hopen : ¬ (Call.device w.devices w.roots flags parent start).Blank := not_blank_of_tokens rfl
  unfold groupCalls
  rw [List.forall_mem_append, forall_mem_ite, hE]
  cases body.isRoot with
  | true => simp [Ctx.enter, hopen]
  | false => simp [Ctx.enter]

mutual

theorem Entries.calls_blank : ∀ g : Entries, EntriesBlank g
  | .stop _, _, _, _ => by simp [Entries.calls, Entries.blank]
  | .entry key vals rest, root, c, w => by
    have hend := forall_endCalls (P := fun d => ¬ d.Blank) (fun _ _ => not_blank_of_tokens rfl)
      root c.target (skipNewline (closeEntry vals.last))
    have hkey : (w.read key).key = keyAt key := rfl
    rw [Entries.calls, List.forall_mem_append, List.forall_mem_append, and_iff_left hend,
      Values.calls_blank vals, Entries.calls_blank rest, Entries.blank, Bool.or_eq_false_iff, hkey]

theorem Values.calls_blank : ∀ (v : Values) (iface : Bool) (flags : Nat) (c : Ctx) (w : Walk),
    (∀ d ∈ v.calls iface flags c w, ¬ d.Blank) ↔
      v.blank w.key flags c.target.isSome c.flags = false
  | .stop _, _, _, _, _ => by simp [Values.calls, Values.blank]
  | .quoted here rest, iface, flags, c, w => by
    have hiface : ¬ (Call.interface here c.target).Blank := not_blank_of_tokens rfl
    rw [Values.calls, List.forall_mem_append, forall_mem_ite, and_iff_right fun _ => hiface,
      Values.calls_blank rest, Values.blank]
  | .group here body rest, iface, flags, c, w => by
    have hkey : (w.enter body.isRoot).key = w.key := rfl
    rw [Values.calls_group, List.forall_mem_append, EntriesBlank.group (Entries.calls_blank body),
      Values.calls_blank rest, Entries.after_key, Values.blank, Bool.or_eq_false_iff, hkey]
  | .bare here rest, iface, flags, c, w => by
    have hiface : ¬ (Call.interface here c.target).Blank := not_blank_of_tokens rfl
    have hrange : (c.flags ≠ 0 → ¬ (Call.range here w.key c.parent c.flags c.target).Blank) ↔
        (c.target.isSome && c.flags ≠ 0 && valueOk w.key.start && valueOk here &&
          (Digitless w.key.start || Digitless here)) = false := by
      rw [← Bool.not_eq_true, ← not_and, blank_range]
      simp only [Bool.or_eq_true, Bool.and_eq_true, decide_eq_true_eq, and_assoc, and_left_comm]
    have hsingle : (flags ≠ 0 → ¬ (Call.single here c.parent flags c.target).Blank) ↔
        (c.target.isSome && flags ≠ 0 && Digitless here) = false := by
      rw [← Bool.not_eq_true, ← not_and, blank_single]
      simp only [Bool.and_eq_true, decide_eq_true_eq, and_assoc, and_left_comm]
    rw [Values.calls, List.forall_mem_append, List.forall_mem_append, List.forall_mem_append,
      forall_mem_ite, forall_mem_ite, forall_mem_ite, and_iff_right fun _ => hiface, hrange, hsingle,
      Values.calls_blank rest, Values.blank, Bool.or_eq_false_iff, Bool.or_eq_false_iff]

end

theorem calls_blank_iff (config : Text) : (∀ c ∈ calls config, ¬ c.Blank) ↔
    (scan config).blank (scan config).isRoot 0 = false :=
  EntriesBlank.group (Entries.calls_blank (scan config)) config [] 0 none _

theorem calls_keyed (config : Text) : ∀ c ∈ calls config, c.Keyed := by
  unfold calls groupCalls
  rw [List.forall_mem_append]
  exact ⟨forall_mem_ite.mpr fun _ => trivial, Entries.calls_keyed _ _ _ _⟩

/-- **Only integers become resources iff no token without a digit is tested.** -/
theorem recordsIntegers_iff {config : Text} {r : ParserState × Heap}
    (e : configFindDevices config = .ok r) :
    RecordsIntegers config ↔ (scan config).blank (scan config).isRoot 0 = false := by
  obtain ⟨⟨state₀, h₀⟩, e₀, e⟩ := bind_eq_ok.mp e
  obtain ⟨⟨state₁, h₁⟩, e₁, -⟩ := bind_eq_ok.mp e
  obtain ⟨hm₁, -, -, hsafe⟩ := countResources_models (detectRoots_marked e₀).2 e₁
  -- what is known where pass 2 makes a test
  have hcall : ∀ {pre post : List Call} {c : Call}, calls config = pre ++ c :: post →
      Returns (runCalls 2 pre 0 (writeStart state₁ h₁)) fun r => ∀ t, c.target = some t →
        c.tokens ≠ [] → (c.Rejects r.1 r.2 ↔ ∃ s ∈ c.tokens, valueOk s = false) := by
    intro pre post c hcalls
    have hmem : c ∈ calls config := by
      rw [hcalls]
      exact List.mem_append_right _ List.mem_cons_self
    refine (called_models hm₁ hsafe hcalls).imp fun r _ ⟨hm, hf, hroom, hle⟩ t ht htok => ?_
    have hlt : t < (table config).devices.length := by
      cases c with
      | device => cases ht
      | _ => exact (hf t ht).trans_le hle
    have hbase : ((writeLayout (table config)).base t).isSome := by
      show (if t < (table config).devices.length then some _ else none).isSome
      rw [if_pos hlt]
      rfl
    exact rejects_iff hm hf (hsafe c hmem) hroom (calls_keyed config c hmem) ht hbase htok
  rw [← calls_blank_iff]
  constructor
  · rintro hrec c hc ⟨ht, hok, s, hs, hd⟩
    obtain ⟨t, ht⟩ := Option.isSome_iff_exists.mp ht
    obtain ⟨pre, post, hcalls⟩ := List.append_of_mem hc
    obtain ⟨⟨names, h⟩, er, hiff⟩ := hcall hcalls
    have hrej := hrec c names h ⟨state₀, h₀, state₁, h₁, pre, post, e₀, e₁, hcalls, er⟩
      (by rw [ht]; rfl) ⟨s, hs, not_literal_of_digitless hd⟩
    obtain ⟨s', hs', hno⟩ := (hiff t ht (List.ne_nil_of_mem hs)).mp hrej
    rw [hok s' hs'] at hno
    cases hno
  · rintro hno c names h ⟨state₀', h₀', state₁', h₁', pre, post, e₀', e₁', hcalls, er⟩ ht
      ⟨s, hs, hlit⟩
    cases e₀.symm.trans e₀'
    cases e₁.symm.trans e₁'
    obtain ⟨r, er', hiff⟩ := hcall hcalls
    cases er.symm.trans er'
    obtain ⟨t, ht'⟩ := Option.isSome_iff_exists.mp ht
    refine (hiff t ht' (List.ne_nil_of_mem hs)).mpr ?_
    by_contra hall
    have hok : ∀ s ∈ c.tokens, valueOk s = true := fun s hs =>
      Bool.eq_true_of_not_eq_false fun h => hall ⟨s, hs, h⟩
    have hd : Digitless s := by
      by_contra hd
      exact hlit ((literal_iff_of_valueOk (hok s hs)).mpr hd)
    have hmem : c ∈ calls config := by
      rw [hcalls]
      exact List.mem_append_right _ List.mem_cons_self
    exact hno c hmem ⟨ht, hok, s, hs, hd⟩

/-! ## Lookups of integers -/

mutual

/-- A value stands before every place that the tokens stand before. -/
theorem Entries.HasValue.within {stop r : Text} : ∀ {g : Entries} {name : List UInt8},
    g.Within stop → g.HasValue name r → stop.length < r.length
  | .stop _, _, _, h => h.elim
  | .entry _ _ _, _, hw, h => h.elim (fun h => h.within hw.2.1) fun h => h.within hw.2.2

theorem Values.HasValue.within {stop r : Text} : ∀ {v : Values} {key name : List UInt8},
    v.Within stop → v.HasValue key name r → stop.length < r.length
  | .stop _, _, _, _, h => h.elim
  | .quoted _ _, _, _, hw, h => h.elim (fun h => h.2 ▸ hw.1) fun h => h.within hw.2
  | .group _ _ _, _, _, hw, h =>
    h.elim (fun ⟨_, _, h⟩ => h.within hw.2.1) fun h => h.within hw.2.2
  | .bare _ _, _, _, hw, h => h.elim (fun h => h.2 ▸ hw.1) fun h => h.within hw.2

end

mutual

/-- A name that strays ends at a `}`. -/
theorem Entries.seek_brace : ∀ (g : Entries) {name : Text}, g.Strays name →
    deref (g.seek name) = closeBrace
  | .stop _, _, hs => hs.elim
  | .entry key vals rest, name, hs => by
    unfold Entries.Strays at hs
    rw [Entries.seek]
    split_ifs at hs with hl
    · obtain ⟨p, hp, hbrace⟩ := Values.seek_brace vals hl hs
      rw [hp]
      exact hbrace
    · rw [(Values.seek_missing vals (Bool.eq_false_iff.mpr hl)).1]
      exact Entries.seek_brace rest hs

theorem Values.seek_brace : ∀ (v : Values) {name key : Text}, v.leads name key = true →
    v.Strays name key → ∃ p, v.seek name key = some p ∧ deref p = closeBrace
  | .stop _, _, _, _, hs => hs.elim
  | .quoted _ rest, name, key, hl, hs => by
    obtain ⟨hm, hs⟩ := hs
    rw [Values.leads, Bool.eq_false_iff.mpr hm, Bool.false_or] at hl
    rw [Values.seek, if_neg hm]
    exact Values.seek_brace rest hl hs
  | .group _ body rest, name, key, hl, hs => by
    unfold Values.Strays at hs
    rw [Values.seek]
    by_cases hm : prefixMatch name key = true
    · rw [if_pos hm] at hs ⊢
      refine ⟨_, rfl, ?_⟩
      dsimp only at hs
      split_ifs at hs with hsub
      · exact Entries.seek_brace body hs
      · rw [(Entries.seek_missing body (Bool.eq_false_iff.mpr hsub)).1]
        exact hs
    · rw [if_neg hm] at hs ⊢
      rw [Values.leads, Bool.eq_false_iff.mpr hm, Bool.false_or] at hl
      exact Values.seek_brace rest hl hs
  | .bare _ rest, name, key, hl, hs => by
    obtain ⟨hm, hs⟩ := hs
    rw [Values.leads, Bool.eq_false_iff.mpr hm, Bool.false_or] at hl
    rw [Values.seek, if_neg hm]
    exact Values.seek_brace rest hl hs

end

theorem literalDigits_suffix (s : Text) : literalDigits s <:+ s := by
  have hsign : afterSign s <:+ s := by
    unfold afterSign
    split_ifs
    · exact List.tail_suffix s
    · exact List.suffix_refl s
  unfold literalDigits
  split
  · exact (List.drop_suffix 2 _).trans hsign
  · exact hsign

/-- A quote or a brace is no token of a key: nothing is read there. -/
theorem digitless_of_not_isKeyByte {s : Text} (h : isKeyByte (deref s) = false) : Digitless s := by
  have hskip : skipKey s = s := by
    cases s with
    | nil => rfl
    | cons c s => exact List.dropWhile_cons_of_neg (Bool.not_eq_true _ ▸ h)
  have hlen := (literalDigits_suffix s).length_le
  rw [← tokenDigits_append, hskip, List.length_append] at hlen
  have hnil : tokenDigits s = [] := List.length_eq_zero_iff.mp (by omega)
  rw [Digitless, hnil]
  exact fun _ h => (List.not_mem_nil h).elim

/-- What the search for the key finds in the text. -/
def valueAt (start key : Text) : Text := (scan start).seek key

/-- `config_string_u64` returns a number without a message only for a literal at the key, and
rejects any other value of the key with the message. -/
structure U64Right (pdev : PlatformDevice) (start key : Text) : Prop where
  returns : ∃ out, configStringU64 pdev key = some out
  literal : ∀ result, configStringU64 pdev key = some (result, []) →
    (scan start).HasValue (key.map Subtype.val) (valueAt start key) ∧ Literal (valueAt start key)
  rejected : (scan start).HasValue (key.map Subtype.val) (valueAt start key) →
    ¬ Literal (valueAt start key) → configStringU64 pdev key =
      some (0, [.badU64 (between (valueAt start key) (skipKey (valueAt start key))) key])

theorem configStringU64_slice {pdev : PlatformDevice} {start stop : Text} (hs : Slice start stop)
    (hstart : pdev.configStart = some start) (hstop : pdev.configEnd = some stop) (key : Text) :
    configStringU64 pdev key = some (
      if (valueAt start key).length ≤ stop.length then (0, [.noU64 key])
      else if valueOk (valueAt start key) = true then ((parseU64 (valueAt start key)).2, [])
      else (0, [.badU64 (between (valueAt start key) (skipKey (valueAt start key))) key])) := by
  have hok : valueOk (valueAt start key) = true ↔
      (parseU64 (valueAt start key)).1 = skipKey (valueAt start key) := decide_eq_true_iff
  have hfind : findKey (fuelFor start) start stop key true = some (valueAt start key) :=
    findKey_slice hs key
  unfold configStringU64
  rw [hstart, hstop]
  simp only [hfind, Option.map_some, hok, ne_eq, ite_not, eq_comm (a := skipKey _)]

/-- **A lookup of an integer is right iff it finds no token without a digit.** -/
theorem u64Right_iff {pdev : PlatformDevice} {start stop : Text} (hs : Slice start stop)
    (hstart : pdev.configStart = some start) (hstop : pdev.configEnd = some stop) (key : Text) :
    U64Right pdev start key ↔
      (stop.length < (valueAt start key).length → ¬ Digitless (valueAt start key)) := by
  have heq := configStringU64_slice hs hstart hstop key
  have hwithin : (scan start).HasValue (key.map Subtype.val) (valueAt start key) →
      stop.length < (valueAt start key).length := by
    obtain ⟨body, hat, -, rfl⟩ := id hs
    obtain rfl := hat.unique (scan_at start)
    exact fun h => h.within hat.within_closed
  constructor
  · intro h hlt hd
    rw [if_neg (Nat.not_le.mpr hlt), if_pos (valueOk_of_digitless hd)] at heq
    exact not_literal_of_digitless hd (h.literal _ heq).2
  · intro hcond
    refine ⟨⟨_, heq⟩, fun result e => ?_, fun hval hlit => ?_⟩
    · rw [heq] at e
      split_ifs at e with hle hok
      · cases e
      · have hlt := Nat.not_le.mp hle
        have hd := hcond hlt
        have hstray : ¬ (scan start).Strays key := by
          intro hstray
          refine hd (digitless_of_not_isKeyByte ?_)
          rw [valueAt, Entries.seek_brace _ hstray]
          decide
        exact ⟨(seek_slice hs hstray).resolve_right hle, (literal_iff_of_valueOk hok).mpr hd⟩
      · cases e
    · have hlt := hwithin hval
      have hok : ¬ valueOk (valueAt start key) = true := fun hok =>
        hlit ((literal_iff_of_valueOk hok).mpr (hcond hlt))
      rw [heq, if_neg (Nat.not_le.mpr hlt), if_neg hok]

/-- **Only integers are read, but for tokens without a digit.** Pass 2 makes a resource of
literals only iff no such token is tested, and a lookup in the slice of a device is right iff it
finds none. -/
theorem integers_iff {config : Text} {r : ParserState × Heap}
    (e : configFindDevices config = .ok r) :
    (RecordsIntegers config ↔ (scan config).blank (scan config).isRoot 0 = false) ∧
    ∀ d ∈ r.2.devices, ∀ start stop, d.configStart = some start → d.configEnd = some stop →
      ∀ key, (U64Right d start key ↔
        (stop.length < (valueAt start key).length → ¬ Digitless (valueAt start key))) := by
  refine ⟨recordsIntegers_iff e, fun d hd start stop hstart hstop key => ?_⟩
  obtain ⟨start', stop', h1, h2, hs⟩ := device_slice e hd
  cases hstart.symm.trans h1
  cases hstop.symm.trans h2
  exact u64Right_iff hs hstart hstop key

/-- The resources of the UART are integers. -/
theorem integers_uart : ∃ r, configFindDevices uartConfig = .ok r ∧ RecordsIntegers uartConfig := by
  obtain ⟨r, e⟩ := exists_ok (x := configFindDevices uartConfig) (by decide +kernel)
  exact ⟨r, e, (integers_iff e).1.mpr (by decide +kernel)⟩

/-- A device with a quoted `interface` and the interrupt `-`. -/
def dashConfig : Text := cstring [117, 123, 105, 110, 116, 101, 114, 102, 97, 99, 101, 32, 34, 120,
  34, 59, 105, 114, 113, 32, 45, 59, 125]

theorem dashConfig_device : ∃ r d start stop, configFindDevices dashConfig = .ok r ∧
    d ∈ r.2.devices ∧ d.configStart = some start ∧ d.configEnd = some stop ∧ Slice start stop ∧
    stop.length < (valueAt start (cstring interfaceKey)).length ∧
    Digitless (valueAt start (cstring interfaceKey)) := by
  have hrun : ((configFindDevices dashConfig).toOption.any fun r => r.2.devices.any fun d =>
      d.configStart.any fun start => d.configEnd.any fun stop =>
        decide (stop.length < (valueAt start (cstring interfaceKey)).length ∧
          Digitless (valueAt start (cstring interfaceKey)))) = true := by decide +kernel
  obtain ⟨r, e, hr⟩ := (Option.any_eq_true _ _).mp hrun
  have e := toOption_eq_some.mp e
  obtain ⟨d, hd, hdev⟩ := List.any_eq_true.mp hr
  obtain ⟨start, stop, hstart, hstop, hs⟩ := device_slice e hd
  rw [hstart, hstop] at hdev
  obtain ⟨hlt, hdigit⟩ := of_decide_eq_true hdev
  exact ⟨r, d, start, stop, e, hd, hstart, hstop, hs, hlt, hdigit⟩

/-- The sign is recorded as the interrupt 0, and the string is looked up as the number 0. -/
theorem integers_dash : ∃ r d start, configFindDevices dashConfig = .ok r ∧ d ∈ r.2.devices ∧
    d.configStart = some start ∧ ¬ RecordsIntegers dashConfig ∧
    ¬ U64Right d start (cstring interfaceKey) := by
  obtain ⟨r, d, start, stop, e, hd, hstart, hstop, hs, hlt, hdigit⟩ := dashConfig_device
  refine ⟨r, d, start, e, hd, hstart, fun h => ?_, fun h => ?_⟩
  · have hblank := (recordsIntegers_iff e).mp h
    exact absurd hblank (by decide +kernel)
  · exact (u64Right_iff hs hstart hstop _).mp h hlt hdigit

end LowriscLinux.Config
