import LowriscLinux.Config.Cut
import LowriscLinux.Config.Slices

/-!
# The calls of a slice

Where the group of a device stands in its config string is a `Place`: the text after the slice, the
number of the group and what the passes laid out before it. The calls for the group are the calls
for the slice as a text of its own, moved to that place, and they add to a moved table what the
calls of the slice add to the table.

What moves with the place, in the terms of `parse_config_string` (`arch/riscv/drivers/config.c`,
lines 453-519):

* pointers into the text (`Key.lift`): `p` becomes `p ++ P.rest`;
* the numbers of groups and devices (`Walk.lift`): `roots` and `devices` (lines 460 and 471) go on
  from those of the place;
* targets (`liftTarget`), and the names that resources and devices point to (`Name.lift`), which
  begin behind those that were laid out before.

What does not move: the paths inside the group. In a device `parent` is NULL (line 472), so no path
leads out of it, but for that of the device itself (line 465), which has the name of the place.
`Call.Reads` says that the tokens of a call are read alike in both texts, as `Config/Cut.lean`
shows.

Results:
* `Entries.calls_lift`: the calls of the moved tree are the moved calls.
* `applyAll_lift`: moved calls build the moved table.
-/

namespace LowriscLinux.Config

open LowriscLinux.Lib

/-- Where a device stands in a config string. -/
structure Place where
  /-- The text from `config_end` on. -/
  rest   : Text
  /-- The number of its group. -/
  group  : Nat
  /-- What is laid out before its group is read. -/
  before : Table
  name   : Name

/-- The number of the device. -/
def Place.dev (P : Place) : Nat := P.before.devices.length

/-! ## Calls -/

section Calls

variable (P : Place)

def Key.lift (k : Key) : Key := ⟨k.start ++ P.rest, k.stop ++ P.rest⟩

def Walk.lift (w : Walk) : Walk := ⟨w.roots + P.group, w.devices + P.dev, w.key.lift P⟩

def liftTarget (target : Option Nat) : Option Nat := target.map (· + P.dev)

def Ctx.lift (c : Ctx) : Ctx := ⟨c.parent.map (Key.lift P), c.flags, liftTarget P c.target⟩

/-- The call at the place. -/
def Call.lift : Call → Call
  | .device dev group flags parent config =>
    .device (dev + P.dev) (group + P.group) flags (parent.map (Key.lift P)) (config ++ P.rest)
  | .interface config target => .interface (config ++ P.rest) (liftTarget P target)
  | .range config key parent flags target =>
    .range (config ++ P.rest) (key.lift P) (parent.map (Key.lift P)) flags (liftTarget P target)
  | .single config parent flags target =>
    .single (config ++ P.rest) (parent.map (Key.lift P)) flags (liftTarget P target)
  | .configEnd dev stop => .configEnd (dev + P.dev) (stop ++ P.rest)

variable {P}

/-- The key is an integer in the slice exactly when it is one at its place. -/
def Key.Reads (P : Place) (k : Key) : Prop :=
  parseU64 (k.start ++ P.rest) = ((parseU64 k.start).1 ++ P.rest, (parseU64 k.start).2)

/-- The value is the same integer in the slice as at its place. -/
def ValueReads (P : Place) (config : Text) : Prop :=
  parseU64 (config ++ P.rest) = ((parseU64 config).1 ++ P.rest, (parseU64 config).2) ∧
    skipKey (config ++ P.rest) = skipKey config ++ P.rest

/-- What the call reads is the same in the slice as at its place, and the device it opens is not
the outermost. -/
def Call.Reads (P : Place) : Call → Prop
  | .device _ _ _ parent _ => parent ≠ []
  | .interface config _ => decodeString (config ++ P.rest) = decodeString config
  | .range config key _ _ _ => key.Reads P ∧ ValueReads P config
  | .single config _ _ _ => ValueReads P config
  | .configEnd _ _ => True

/-! ## Keys -/

theorem between_append (s t e : Text) : between (s ++ e) (t ++ e) = between s t := by
  rw [between, between, List.length_append, List.length_append, Nat.add_sub_add_right,
    List.take_append_of_le_length (Nat.sub_le _ _)]

theorem Key.lift_bytes (k : Key) : (k.lift P).bytes = k.bytes := between_append _ _ _

section Keys

variable {key : Text}

theorem keyAt_append (h : Past P.rest (skipKey key)) :
    keyAt (key ++ P.rest) = (keyAt key).lift P := by
  rw [keyAt, skipKey_scanner.extend h]
  rfl

theorem parserKeyEq_append (h : Past P.rest (skipKey key)) (name : List UInt8) :
    parserKeyEq (key ++ P.rest) (skipKey (key ++ P.rest)) name = parserKeyEq key (skipKey key) name := by
  rw [parserKeyEq, skipKey_scanner.extend h, between_append, parserKeyEq]

theorem isInterface_append (h : Past P.rest (skipKey key)) :
    isInterface (key ++ P.rest) = isInterface key := parserKeyEq_append h _

theorem flagsAt_append (h : Past P.rest (skipKey key)) : flagsAt (key ++ P.rest) = flagsAt key := by
  unfold flagsAt keyFlags
  rw [parserKeyEq_append h, parserKeyEq_append h, parserKeyEq_append h]

theorem keyAt_reads (h : Past P.rest (skipKey key)) : (keyAt key).Reads P := parseU64_append h

end Keys

/-! ## The calls of a moved tree -/

/-- The calls for a moved tree, and the walk after it, are those of the tree, moved. -/
structure EntriesLift (P : Place) (g : Entries) : Prop where
  isRoot : (g.lift P.rest).isRoot = g.isRoot
  calls (root : Bool) (c : Ctx) (w : Walk) :
    (g.lift P.rest).calls root (c.lift P) (w.lift P) = (g.calls root c w).map (Call.lift P)
  after (w : Walk) : (g.lift P.rest).after (w.lift P) = (g.after w).lift P
  reads (root : Bool) (c : Ctx) (w : Walk) : ∀ call ∈ g.calls root c w, call.Reads P
  key (w : Walk) : w.key.Reads P → (g.after w).key.Reads P

structure ValuesLift (P : Place) (v : Values) : Prop where
  calls (iface : Bool) (flags : Nat) (c : Ctx) (w : Walk) :
    (v.lift P.rest).calls iface flags (c.lift P) (w.lift P) =
      (v.calls iface flags c w).map (Call.lift P)
  after (w : Walk) : (v.lift P.rest).after (w.lift P) = (v.after w).lift P
  reads (iface : Bool) (flags : Nat) (c : Ctx) (w : Walk) : w.key.Reads P →
    ∀ call ∈ v.calls iface flags c w, call.Reads P
  key (w : Walk) : w.key.Reads P → (v.after w).key.Reads P

theorem Walk.lift_read {key : Text} (h : Past P.rest (skipKey key)) (w : Walk) :
    (w.lift P).read (key ++ P.rest) = (w.read key).lift P := by
  rw [Walk.read, keyAt_append h]
  rfl

theorem Walk.lift_enter (root : Bool) (w : Walk) :
    (w.lift P).enter root = (w.enter root).lift P := by
  cases root with
  | true => simp [Walk.enter, Walk.lift, Nat.add_right_comm]
  | false => simp [Walk.enter, Walk.lift, Nat.add_right_comm]

theorem Ctx.lift_enter (root : Bool) (c : Ctx) (dev : Nat) :
    (c.lift P).enter root (dev + P.dev) = (c.enter root dev).lift P := by
  cases root <;> rfl

theorem endCalls_lift {p : Text} (h : entryEnd (p ++ P.rest) = entryEnd p ++ P.rest) (root : Bool)
    (target : Option Nat) :
    endCalls root (liftTarget P target) (skipNewline (closeEntry (p ++ P.rest))) =
      (endCalls root target (skipNewline (closeEntry p))).map (Call.lift P) := by
  have h : skipNewline (closeEntry (p ++ P.rest)) = skipNewline (closeEntry p) ++ P.rest := h
  rw [h]
  cases target with
  | none => rfl
  | some t => cases root <;> rfl

theorem ite_lift {p : Prop} [Decidable p] (c : Call) :
    ((if p then [c] else []) : List Call).map (Call.lift P) = if p then [c.lift P] else [] := by
  split <;> rfl

theorem EntriesLift.entry {key : Text} {vals : Values} {rest : Entries}
    (hk : Past P.rest (skipKey key))
    (he : entryEnd (vals.last ++ P.rest) = entryEnd vals.last ++ P.rest)
    (hv : ValuesLift P vals) (hr : EntriesLift P rest) : EntriesLift P (.entry key vals rest) where
  isRoot := by
    rw [Entries.lift, Entries.isRoot, Entries.isRoot, isInterface_append hk, hr.isRoot]
  calls root c w := by
    rw [Entries.lift, Entries.calls, Entries.calls, isInterface_append hk, flagsAt_append hk,
      Walk.lift_read hk, hv.calls, hv.after, hr.calls, Values.lift_last, List.map_append,
      List.map_append, ← endCalls_lift he]
    rfl
  after w := by
    rw [Entries.lift, Entries.after, Entries.after, Walk.lift_read hk, hv.after, hr.after]
  reads root c w call hc := by
    rw [Entries.calls] at hc
    rcases List.mem_append.mp hc with hc | hc
    · rcases List.mem_append.mp hc with hc | hc
      · exact hv.reads _ _ c (w.read key) (keyAt_reads hk) call hc
      · cases ht : c.target with
        | none =>
          rw [ht] at hc
          exact (List.not_mem_nil hc).elim
        | some t =>
          rw [ht] at hc
          rw [mem_if hc]
          trivial
    · exact hr.reads root c _ call hc
  key w _ := hr.key _ (hv.key _ (keyAt_reads hk))

theorem ValuesLift.quoted {here : Text} {rest : Values}
    (h : decodeString (here ++ P.rest) = decodeString here) (hr : ValuesLift P rest) :
    ValuesLift P (.quoted here rest) where
  calls iface flags c w := by
    rw [Values.lift, Values.calls, Values.calls, hr.calls, List.map_append, ite_lift]
    rfl
  after w := hr.after w
  reads iface flags c w hk call hc := by
    rw [Values.calls] at hc
    rcases List.mem_append.mp hc with hc | hc
    · rw [mem_if hc]
      exact h
    · exact hr.reads _ _ c w hk call hc
  key w hk := hr.key w hk

theorem ValuesLift.bare {here : Text} {rest : Values}
    (h : decodeString (here ++ P.rest) = decodeString here) (hn : ValueReads P here)
    (hr : ValuesLift P rest) : ValuesLift P (.bare here rest) where
  calls iface flags c w := by
    rw [Values.lift, Values.calls, Values.calls, hr.calls, List.map_append, List.map_append,
      List.map_append, ite_lift, ite_lift, ite_lift]
    rfl
  after w := hr.after w
  reads iface flags c w hk call hc := by
    rw [Values.calls] at hc
    rcases List.mem_append.mp hc with hc | hc
    · rcases List.mem_append.mp hc with hc | hc
      · rcases List.mem_append.mp hc with hc | hc
        · rw [mem_if hc]
          exact h
        · rw [mem_if hc]
          exact ⟨hk, hn⟩
      · rw [mem_if hc]
        exact hn
    · exact hr.reads _ _ c w hk call hc
  key w hk := hr.key w hk

theorem ValuesLift.group {here : Text} {body : Entries} {rest : Values}
    (hs : skipNewline (here ++ P.rest).tail = skipNewline here.tail ++ P.rest)
    (hb : EntriesLift P body) (hr : ValuesLift P rest) : ValuesLift P (.group here body rest) where
  calls iface flags c w := by
    have hw : (w.lift P).devices = w.devices + P.dev := rfl
    have hc : (⟨(w.lift P).key :: (c.lift P).parent, flags, (c.lift P).target⟩ : Ctx) =
        Ctx.lift P ⟨w.key :: c.parent, flags, c.target⟩ := rfl
    rw [Values.lift, Values.calls, Values.calls]
    simp only [hb.isRoot, hw, hc, hs, Walk.lift_enter, Ctx.lift_enter, hb.calls, hb.after, hr.calls,
      List.map_append, ite_lift]
    rfl
  after w := by
    rw [Values.lift, Values.after, Values.after, hb.isRoot, Walk.lift_enter, hb.after, hr.after]
  reads iface flags c w hk call hc := by
    rw [Values.calls] at hc
    rcases List.mem_append.mp hc with hc | hc
    · rcases List.mem_append.mp hc with hc | hc
      · rw [mem_if hc]
        exact List.cons_ne_nil _ _
      · exact hb.reads _ _ _ call hc
    · exact hr.reads _ _ c _ (hb.key (w.enter body.isRoot) hk) call hc
  key w hk := hr.key _ (hb.key _ hk)

theorem skipKey_tail_suffix (s : Text) : skipKey s.tail <:+ skipKey s := by
  by_cases h : isKeyByte (deref s) = true
  · exact skipKey_tail h ▸ List.suffix_refl _
  · cases s with
    | nil => exact List.suffix_refl _
    | cons c s =>
      have hs : skipKey (c :: s) = c :: s := List.dropWhile_cons_of_neg h
      rw [hs]
      exact (skipKey_suffix s).trans (List.suffix_cons c s)

mutual

/-- **A tree that ends inside the slice** makes the moved calls at its place. -/
theorem Entries.calls_lift : ∀ {g : Entries} {s : Text}, g.At s → g.Fits P.rest → EntriesLift P g
  | .stop _, _, _, _ => ⟨rfl, fun _ _ _ => rfl, fun _ => rfl,
      fun _ _ _ _ h => (List.not_mem_nil h).elim, fun _ h => h⟩
  | .entry key vals rest, s, hg, hf => by
    obtain ⟨rfl, -, -, hv, hr⟩ := hg
    obtain ⟨hp, he, hf⟩ := hf
    have hk : Past P.rest (skipKey key) :=
      hp.of_suffix (hv.suffix.trans (skipWhitespace_suffix _))
    exact .entry hk he (Values.calls_lift hv hp) (Entries.calls_lift hr hf)

theorem Values.calls_lift : ∀ {v : Values} {s : Text}, v.At s → Past P.rest v.last → ValuesLift P v
  | .stop _, _, _, _ => ⟨fun _ _ _ _ => rfl, fun _ => rfl,
      fun _ _ _ _ _ _ h => (List.not_mem_nil h).elim, fun _ h => h⟩
  | .quoted here rest, s, hv, hp => by
    obtain ⟨rfl, hq, hr⟩ := hv
    have hp : Past P.rest rest.last := hp
    have hs : Past P.rest (skipString here.tail) :=
      hp.of_suffix (hr.suffix.trans (skipWhitespace_suffix _))
    exact .quoted (decodeString_append (Or.inr ⟨hs, hq⟩)) (Values.calls_lift hr hp)
  | .group here body rest, s, hv, hp => by
    obtain ⟨rfl, ho, hb, hr⟩ := hv
    have hp : Past P.rest rest.last := hp
    have hl : Past P.rest body.last :=
      hp.of_suffix (hr.suffix.trans ((skipWhitespace_suffix _).trans (closeGroup_suffix _)))
    have hn : Past P.rest (skipNewline here.tail) := by
      rw [← skipWhitespace_skipNewline] at hb
      exact hl.of_suffix (hb.suffix.trans (skipWhitespace_suffix _))
    have hs : skipNewline (here ++ P.rest).tail = skipNewline here.tail ++ P.rest :=
      (skipNewline_scanner.comp .tail).extend hn
    exact .group hs (Entries.calls_lift hb (hb.fits hl)) (Values.calls_lift hr hp)
  | .bare here rest, s, hv, hp => by
    obtain ⟨rfl, h0, -, hq, -, hr⟩ := hv
    have hp : Past P.rest rest.last := hp
    have hk : Past P.rest (skipKey here) := hp.of_suffix
      ((hr.suffix.trans (skipWhitespace_suffix _)).trans (skipKey_tail_suffix here))
    exact .bare (decodeString_append (Or.inl ⟨hk, hq⟩))
      ⟨parseU64_append hk, skipKey_scanner.extend hk⟩ (Values.calls_lift hr hp)

end

end Calls

/-! ## Tables -/

section Tables

variable (P : Place)

def Name.lift : Name → Name
  | .dot => .dot
  | .names off => .names (off + P.before.size)

def Resource.lift (r : Resource) : Resource := { r with name := r.name.lift P }

/-- The device at the place: the outermost one has the name of the place. -/
def DeviceSpec.lift (s : DeviceSpec) : DeviceSpec where
  group := s.group + P.group
  flags := s.flags
  name := if s.name = .dot then P.name else s.name.lift P
  start := s.start ++ P.rest
  stop := s.stop ++ P.rest
  override := s.override.map (· + P.before.size)
  resources := s.resources.map (Resource.lift P)

/-- The table at the place. -/
def Table.lift (T : Table) : Table where
  strings := P.before.strings ++ T.strings
  devices := P.before.devices ++ T.devices.map (DeviceSpec.lift P)

variable {P}

theorem Table.lift_size (T : Table) : (T.lift P).size = T.size + P.before.size := by
  rw [Table.size, Table.image, Table.lift, List.flatten_append, List.length_append, Nat.add_comm]
  rfl

theorem lift_layOut (T : Table) (cells : List (Option UInt8)) :
    (T.lift P).layOut cells = (T.layOut cells).lift P := by
  unfold Table.lift Table.layOut
  rw [List.append_assoc]

theorem lift_pathBytes : ∀ parent : List Key,
    pathBytes (parent.map (Key.lift P)) = pathBytes parent
  | [] => rfl
  | k :: up => by
    rw [List.map_cons, pathBytes, pathBytes, lift_pathBytes up, Key.lift_bytes]

theorem lift_pathString (parent : List Key) :
    pathString (parent.map (Key.lift P)) = pathString parent := by
  rw [pathString, lift_pathBytes, pathString]

theorem lift_addPath (T : Table) (parent : List Key) :
    (T.lift P).addPath (parent.map (Key.lift P)) = (T.addPath parent).lift P := by
  cases parent with
  | nil => rfl
  | cons k up =>
    rw [Table.addPath, ← lift_layOut, ← lift_pathString (P := P)]
    rfl

theorem lift_resourceName (T : Table) (parent : List Key) :
    (T.lift P).resourceName (parent.map (Key.lift P)) = (T.resourceName parent).lift P := by
  cases parent with
  | nil => rfl
  | cons k up =>
    have h := lift_pathString (P := P) (k :: up)
    rw [List.map_cons] at h ⊢
    rw [Table.resourceName, Table.resourceName, h, Table.lift_size]
    split <;> rfl

theorem modify_append_length {α : Type} (f : α → α) (bs : List α) (t : Nat) : ∀ as : List α,
    (as ++ bs).modify (t + as.length) f = as ++ bs.modify t f
  | [] => rfl
  | a :: as => congrArg (a :: ·) (modify_append_length f bs t as)

theorem map_modify {α β : Type} {g : α → β} {f : α → α} {f' : β → β} (h : ∀ a, f' (g a) = g (f a))
    (l : List α) (t : Nat) : (l.modify t f).map g = (l.map g).modify t f' := by
  refine List.ext_getElem? fun i => ?_
  rw [List.getElem?_map, List.getElem?_modify, List.getElem?_modify, List.getElem?_map]
  cases l[i]? with
  | none => rfl
  | some a =>
    by_cases ht : t = i
    · simp [ht, h]
    · simp [ht]

theorem lift_update {f f' : DeviceSpec → DeviceSpec} (h : ∀ s : DeviceSpec, f' (s.lift P) = (f s).lift P)
    (T : Table) (target : Option Nat) :
    (T.lift P).update (liftTarget P target) f' = (T.update target f).lift P := by
  cases target with
  | none => rfl
  | some t =>
    have hd : (P.before.devices ++ T.devices.map (DeviceSpec.lift P)).modify (t + P.dev) f' =
        P.before.devices ++ (T.devices.modify t f).map (DeviceSpec.lift P) := by
      rw [Place.dev, modify_append_length, map_modify h]
    exact congrArg (Table.mk _) hd

theorem lift_addResource (T : Table) (t : Nat) (parent : List Key) (flags : Nat)
    (start stop : BitVec 64) :
    (T.lift P).addResource (t + P.dev) (parent.map (Key.lift P)) flags start stop =
      (T.addResource t parent flags start stop).lift P := by
  rw [Table.addResource, Table.addResource, lift_addPath, lift_resourceName]
  refine lift_update (fun s => ?_) _ (some t)
  unfold DeviceSpec.withResource DeviceSpec.lift
  simp only [List.map_append, List.map_cons, List.map_nil]
  rfl

theorem ValueReads.valueOk {config : Text} (h : ValueReads P config) :
    valueOk (config ++ P.rest) = valueOk config := by
  rw [Config.valueOk, Config.valueOk, h.1, h.2]
  exact decide_eq_decide.mpr (List.append_left_inj _)

theorem Key.Reads.keyOk {key : Key} (h : key.Reads P) : keyOk (key.lift P) = keyOk key := by
  unfold Config.keyOk Key.lift
  rw [h]
  exact decide_eq_decide.mpr (List.append_left_inj _)

/-- **A moved call** adds to a moved table what the call adds to the table. -/
theorem apply_lift (c : Call) (hc : c.Reads P) (T : Table) :
    (c.lift P).apply (T.lift P) = (c.apply T).lift P := by
  cases c with
  | device dev group flags parent config =>
    cases parent with
    | nil => exact absurd rfl hc
    | cons k up =>
      have hp := congrArg Table.strings (lift_addPath (P := P) T (k :: up))
      have hn : (T.lift P).pathName ((k :: up).map (Key.lift P)) = .names (T.size + P.before.size) :=
        congrArg Name.names (Table.lift_size T)
      rw [Call.lift, Call.apply, Call.apply, hp, hn]
      refine congrArg (Table.mk _) ?_
      rw [Table.lift, List.append_assoc, List.map_append]
      rfl
  | interface config target =>
    have hc : decodeString (config ++ P.rest) = decodeString config := hc
    rw [Call.lift, Call.apply, Call.apply, hc, lift_layOut, Table.lift_size]
    refine lift_update (fun s => ?_) _ target
    rfl
  | range config key parent flags target =>
    cases target with
    | none => rfl
    | some t =>
      obtain ⟨hk, hv⟩ := hc
      have hkey : parseU64 (key.lift P).start = ((parseU64 key.start).1 ++ P.rest,
        (parseU64 key.start).2) := hk
      simp only [Call.lift, Call.apply, liftTarget, Option.map_some, hk.keyOk, hv.valueOk, hkey, hv.1,
        ← List.map_tail]
      split_ifs
      · exact lift_addResource T t parent.tail flags _ _
      · rfl
  | single config parent flags target =>
    cases target with
    | none => rfl
    | some t =>
      have hc : ValueReads P config := hc
      simp only [Call.lift, Call.apply, liftTarget, Option.map_some, hc.valueOk, hc.1]
      split_ifs
      · exact lift_addResource T t parent flags _ _
      · rfl
  | configEnd dev stop =>
    have h : ∀ s : DeviceSpec, (s.lift P).withStop (stop ++ P.rest) = (s.withStop stop).lift P :=
      fun _ => rfl
    exact lift_update h T (some dev)

/-- A moved call is safe only if the call is. -/
theorem Call.Safe.of_lift {c : Call} (hc : c.Reads P) (h : (c.lift P).Safe) : c.Safe := by
  cases c with
  | range config key parent flags target =>
    intro ht hk hv hp
    obtain ⟨t, rfl⟩ := Option.isSome_iff_exists.mp ht
    obtain ⟨hkr, hvr⟩ := hc
    have h : (some (t + P.dev)).isSome = true → keyOk (key.lift P) = true →
      valueOk (config ++ P.rest) = true → parent.map (Key.lift P) ≠ [] := h
    rw [hkr.keyOk, hvr.valueOk, hp] at h
    exact h rfl hk hv rfl
  | _ => trivial

theorem applyAll_lift : ∀ (cs : List Call), (∀ c ∈ cs, c.Reads P) → ∀ T : Table,
    applyAll (cs.map (Call.lift P)) (T.lift P) = (applyAll cs T).lift P
  | [], _, _ => rfl
  | c :: cs, h, T => by
    rw [List.map_cons, applyAll_cons, applyAll_cons, apply_lift c (h c List.mem_cons_self)]
    exact applyAll_lift cs (fun c hc => h c (List.mem_cons_of_mem _ hc)) _

end Tables

end LowriscLinux.Config
