import LowriscLinux.Config.Faults
import LowriscLinux.Kernel.PtRegs

/-!
# The block of the devices

`config_find_devices` (`arch/riscv/drivers/config.c`, lines 521-603) puts the number of the devices,
the devices, their resources and their names into one block of memory, which is allocated for the
first two (line 550) and then enlarged (line 573). The passes are those of `Config/Parser.lean`,
where the parts of the block are separate memories; this file says that the block has a place for
each.

## What models what

* `findOffsets`: the offsets, in the order of the source: `size_devices` and `off_devices` (lines
  547 and 548), `size_resources` and `size_names` (lines 566 and 567), and `off_resources`,
  `off_names` and `off_end` (lines 569-571). They are computed in `size_t` and kept in `int` (lines
  531 and 532), so each assignment is an `intOfSize` and each use a `sizeOfInt`. An `int` that
  overflows wraps around.
* `roundUp`: `DIV_ROUND_UP(n, d) * d`. The page size is 4096.
* `Sizes`: `sizeof(struct platform_device)` and `sizeof(struct resource)`, which are not given in
  the source: any numbers up to a page, with room for the `u32` of line 552 in a device.
* `Cell`: what is written to the block: the number of devices (line 552), the devices and their
  resources, and the bytes of the names. `Before` is the order of the parts (lines 553 and 575-577).
* `Offsets.Holds`: each cell has its place, and the devices are where `config_string_remove` looks
  for them, one device behind the start (line 640).

`kmalloc` is not able to give out 2 GiB, so a request of that size or more ends in the `BUG_ON` of
line 574.

Results:
* `resources_le`: a config string has no more than two resources for each of its bytes.
* `findOffsets_exact`: the offsets, as numbers.
* **`block_holds`**: for a config string shorter than 65536 bytes, the block has a place of its own
  for everything that the passes write, unless so much memory is asked for that there is none.

Out of scope: the alignment of the parts. `off_resources` is a multiple of the size of a resource,
and the names are bytes.
-/

namespace LowriscLinux.Config

open LowriscLinux.Lib LowriscLinux.Kernel

/-! ## How many resources there are -/

/-- The resources that a call may add. -/
def Call.resources : Call → Nat
  | .range _ _ _ _ _ => 1
  | .single _ _ _ _ => 1
  | _ => 0

def resourceCalls (cs : List Call) : Nat := (cs.map Call.resources).sum

theorem resourceCalls_append (as bs : List Call) :
    resourceCalls (as ++ bs) = resourceCalls as + resourceCalls bs := by
  rw [resourceCalls, List.map_append, List.sum_append]
  rfl

theorem resourceCalls_ite {p : Prop} [Decidable p] (c : Call) :
    resourceCalls (if p then [c] else []) ≤ c.resources := by
  split
  · exact Nat.le_of_eq (Nat.add_zero _)
  · exact Nat.zero_le _

theorem resourceCalls_endCalls (root : Bool) (target : Option Nat) (stop : Text) :
    resourceCalls (endCalls root target stop) = 0 := by
  cases target with
  | none => rfl
  | some dev => cases root <;> rfl

/-- The calls of these entries add no more than two resources for each byte. -/
def EntriesResources (g : Entries) : Prop :=
  ∀ {s : Text} (root : Bool) (c : Ctx) (w : Walk), g.At s →
    resourceCalls (g.calls root c w) + 2 * g.last.length ≤ 2 * s.length

theorem EntriesResources.group {body : Entries} (h : EntriesResources body) {s : Text}
    (start : Text) (c : Ctx) (w : Walk) (hb : body.At s) :
    resourceCalls (groupCalls body start c w) + 2 * body.last.length ≤ 2 * s.length := by
  have hbody := h body.isRoot (c.enter body.isRoot w.devices) (w.enter body.isRoot) hb
  have hdev : resourceCalls (if body.isRoot then
      [.device w.devices w.roots c.flags c.parent start] else []) ≤ 0 := resourceCalls_ite _
  rw [groupCalls, resourceCalls_append]
  omega

mutual

theorem Entries.calls_resources : ∀ g : Entries, EntriesResources g
  | .stop _, s, _, _, _, hg => by
    obtain ⟨rfl, -⟩ := hg
    exact Nat.le_of_eq (Nat.zero_add _)
  | .entry key vals rest, s, root, c, w, hg => by
    obtain ⟨rfl, h0, -, hv, hr⟩ := hg
    have hkey := (skipKey_suffix key).length_le
    have hkw := (skipWhitespace_suffix (skipKey key)).length_le
    have hcl := ((skipWhitespace_suffix _).trans (closeEntry_suffix vals.last)).length_le
    have hvals := vals.calls_resources (isInterface key) (flagsAt key) c (w.read key) hv
    have hrest := rest.calls_resources root c (vals.after (w.read key)) hr
    have hend := resourceCalls_endCalls root c.target (skipNewline (closeEntry vals.last))
    rw [Entries.calls, resourceCalls_append, resourceCalls_append, hend, Entries.last]
    omega

theorem Values.calls_resources : ∀ (v : Values) {s : Text} (iface : Bool) (flags : Nat) (c : Ctx)
    (w : Walk), v.At s → resourceCalls (v.calls iface flags c w) + 2 * v.last.length ≤ 2 * s.length
  | .stop _, s, _, _, _, _, hv => by
    obtain ⟨rfl, -⟩ := hv
    exact Nat.le_of_eq (Nat.zero_add _)
  | .quoted here rest, s, iface, flags, c, w, hv => by
    obtain ⟨rfl, hq, hr⟩ := hv
    have hlt := after_lt (skipString_suffix _) (ne_zero_of_eq (by decide) hq)
    have hle := (skipWhitespace_suffix (skipString here.tail)).length_le
    have hrest := rest.calls_resources false flags c w hr
    have hif : resourceCalls (if iface then [.interface here c.target] else []) ≤ 0 :=
      resourceCalls_ite _
    rw [Values.calls, resourceCalls_append, Values.last]
    omega
  | .group here body rest, s, iface, flags, c, w, hv => by
    obtain ⟨rfl, ho, hb, hr⟩ := hv
    have hlt := after_group_lt ho hb
    have h0 := tail_lt (ne_zero_of_eq (by decide) ho)
    have hsk := (skipWhitespace_suffix here.tail).length_le
    have hcl := ((skipWhitespace_suffix _).trans (closeGroup_suffix body.last)).length_le
    have hbody := EntriesResources.group body.calls_resources (skipNewline here.tail)
      ⟨w.key :: c.parent, flags, c.target⟩ w hb
    have hrest := rest.calls_resources false flags c (body.after (w.enter body.isRoot)) hr
    rw [Values.calls_group, resourceCalls_append, Values.last]
    show _ + resourceCalls (rest.calls false flags c _) + _ ≤ _
    omega
  | .bare here rest, s, iface, flags, c, w, hv => by
    obtain ⟨rfl, h0, hs, hq, ho, hr⟩ := hv
    have hlt := after_lt (skipKey_suffix _) h0
    have hle := (skipWhitespace_suffix (skipKey here.tail)).length_le
    have hrest := rest.calls_resources false flags c w hr
    have hif : resourceCalls (if iface then [.interface here c.target] else []) ≤ 0 :=
      resourceCalls_ite _
    have hrange : resourceCalls (if c.flags ≠ 0 then
        [.range here w.key c.parent c.flags c.target] else []) ≤ 1 := resourceCalls_ite _
    have hsingle : resourceCalls (if flags ≠ 0 then
        [.single here c.parent flags c.target] else []) ≤ 1 := resourceCalls_ite _
    rw [Values.calls, resourceCalls_append, resourceCalls_append, resourceCalls_append, Values.last]
    omega

end

theorem counts_update_le (T : Table) (target : Option Nat) (f : DeviceSpec → DeviceSpec) (k : Nat)
    (hf : ∀ s, (f s).resources.length ≤ s.resources.length + k) :
    (T.update target f).counts.sum ≤ T.counts.sum + k := by
  cases target with
  | none => exact Nat.le_add_right _ _
  | some t =>
    show ((T.devices.modify t f).map fun s => s.resources.length).sum ≤
      (T.devices.map fun s => s.resources.length).sum + k
    induction T.devices generalizing t with
    | nil => cases t <;> exact Nat.le_add_right _ _
    | cons d ds ih =>
      cases t with
      | zero =>
        have := hf d
        simp only [List.modify_zero_cons, List.map_cons, List.sum_cons]
        omega
      | succ t =>
        have := ih t
        simp only [List.modify_succ_cons, List.map_cons, List.sum_cons]
        omega

theorem apply_counts_le (c : Call) (T : Table) :
    (c.apply T).counts.sum ≤ T.counts.sum + c.resources := by
  have hadd : ∀ t parent flags start stop,
      (T.addResource t parent flags start stop).counts.sum ≤ T.counts.sum + 1 := by
    intro t parent flags start stop
    have hpath : (T.addPath parent).counts = T.counts := by
      rw [Table.counts, Table.addPath_devices, Table.counts]
    rw [Table.addResource, ← hpath]
    refine counts_update_le _ _ _ 1 fun s => ?_
    rw [DeviceSpec.withResource, List.length_append]
    rfl
  cases c with
  | device dev group flags parent config =>
    rw [Call.apply, Table.counts, List.map_append, List.sum_append]
    exact Nat.le_refl _
  | interface config target =>
    exact counts_update_le (T.layOut _) target _ 0 fun s => Nat.le_refl _
  | range config key parent flags target =>
    cases target with
    | none => exact Nat.le_add_right _ _
    | some t =>
      simp only [Call.apply]
      split_ifs
      · exact hadd t _ _ _ _
      · exact Nat.le_add_right _ _
  | single config parent flags target =>
    cases target with
    | none => exact Nat.le_add_right _ _
    | some t =>
      simp only [Call.apply]
      split_ifs
      · exact hadd t _ _ _ _
      · exact Nat.le_add_right _ _
  | configEnd dev stop => exact counts_update_le T (some dev) _ 0 fun s => Nat.le_refl _

theorem applyAll_counts_le : ∀ (cs : List Call) (T : Table),
    (applyAll cs T).counts.sum ≤ T.counts.sum + resourceCalls cs
  | [], _ => Nat.le_refl _
  | c :: cs, T => by
    have hhead := apply_counts_le c T
    have htail := applyAll_counts_le cs (c.apply T)
    have hsum : resourceCalls (c :: cs) = c.resources + resourceCalls cs := List.sum_cons
    rw [applyAll_cons, hsum]
    omega

/-- **A config string has no more than two resources for each byte.** -/
theorem resources_le (config : Text) : (table config).counts.sum ≤ 2 * config.length := by
  have hcalls : resourceCalls (calls config) ≤ 2 * config.length := by
    have hsk := (skipWhitespace_suffix config).length_le
    have hgroup := EntriesResources.group (scan config).calls_resources config ⟨[], 0, none⟩
      ⟨0, 0, ⟨[], []⟩⟩ (scan_at config)
    rw [calls]
    omega
  exact (applyAll_counts_le (calls config) {}).trans ((Nat.zero_add _).trans_le hcalls)

/-! ## The offsets -/

/-- `sizeof(struct platform_device)` and `sizeof(struct resource)`. -/
structure Sizes where
  device : Nat
  resource : Nat
  device_ge : 4 ≤ device
  device_le : device ≤ 4096
  resource_pos : 0 < resource
  resource_le : resource ≤ 4096

section Conversions

variable {w : Xlen}

/-- From `size_t` to `int`, and back. -/
def intOfSize (x : Word w) : BitVec 32 := x.setWidth 32
def sizeOfInt (w : Xlen) (x : BitVec 32) : Word w := x.signExtend _

/-- `DIV_ROUND_UP(n, d) * d`. -/
def roundUp (n d : Word w) : Word w := (n + d - 1) / d * d

end Conversions

/-- The variables of `config_find_devices`. -/
structure Offsets where
  sizeDevices : BitVec 32
  offDevices : BitVec 32
  offResources : BitVec 32
  offNames : BitVec 32
  offEnd : BitVec 32

/-- The offsets, from `num_devices`, `num_resources` and `state.names`. -/
def findOffsets (w : Xlen) (z : Sizes) (numDevices numResources : BitVec 32) (names : Word w) :
    Offsets :=
  let device : Word w := BitVec.ofNat _ z.device
  let resource : Word w := BitVec.ofNat _ z.resource
  let sizeDevices := intOfSize (device * sizeOfInt w numDevices)
  let offDevices := intOfSize (roundUp 4 device)
  let sizeResources := intOfSize (resource * sizeOfInt w numResources)
  let sizeNames := intOfSize names
  let offResources := intOfSize (roundUp (sizeOfInt w (offDevices + sizeDevices)) resource)
  let offNames := offResources + sizeResources
  let offEnd := intOfSize (roundUp (sizeOfInt w (offNames + sizeNames)) 4096)
  ⟨sizeDevices, offDevices, offResources, offNames, offEnd⟩

section Numbers

variable {w : Xlen}

/-- The next multiple of `d`. -/
def ceilTo (d n : Nat) : Nat := (n + d - 1) / d * d

theorem le_ceilTo {d : Nat} (hd : 0 < d) (n : Nat) : n ≤ ceilTo d n := by
  have hdiv := Nat.div_add_mod (n + d - 1) d
  have hmod := Nat.mod_lt (n + d - 1) hd
  rw [ceilTo, Nat.mul_comm]
  omega

theorem ceilTo_lt {d : Nat} (hd : 0 < d) (n : Nat) : ceilTo d n < n + d := by
  have hle := Nat.div_mul_le_self (n + d - 1) d
  rw [ceilTo]
  omega

theorem toNat_intOfSize {x : Word w} (h : x.toNat < 2 ^ 32) : (intOfSize x).toNat = x.toNat := by
  rw [intOfSize, BitVec.toNat_setWidth, Nat.mod_eq_of_lt h]

theorem toNat_sizeOfInt {x : BitVec 32} (h : x.toNat < 2 ^ 31) : (sizeOfInt w x).toNat = x.toNat := by
  have hmsb : x.msb = false := by
    rw [BitVec.msb_eq_decide]
    exact decide_eq_false (by omega)
  have hw := le_xlen w
  rw [sizeOfInt, BitVec.signExtend_eq_setWidth_of_msb_false hmsb, BitVec.toNat_setWidth]
  exact Nat.mod_eq_of_lt (h.trans_le (Nat.pow_le_pow_right (by decide) (by omega)))

/-- A negative `int` is a large size. -/
theorem toNat_sizeOfInt_neg {x : BitVec 32} (h : 2 ^ 31 ≤ x.toNat) :
    (sizeOfInt w x).toNat = x.toNat + (2 ^ (8 * szreg w) - 2 ^ 32) := by
  have hmsb : x.msb = true := by
    rw [BitVec.msb_eq_decide]
    exact decide_eq_true (by omega)
  have hlt := x.isLt.trans_le (Nat.pow_le_pow_right (by decide : 0 < 2) (le_xlen w))
  rw [sizeOfInt, BitVec.toNat_signExtend, hmsb, if_pos rfl, BitVec.toNat_setWidth,
    Nat.mod_eq_of_lt hlt]

theorem toNat_roundUp {n d : Word w} (hd : 0 < d.toNat)
    (h : n.toNat + d.toNat < 2 ^ (8 * szreg w)) :
    (roundUp n d).toNat = ceilTo d.toNat n.toNat := by
  have hone : (1 : Word w).toNat = 1 := by cases w <;> rfl
  have hsub : (n + d - 1).toNat = n.toNat + d.toNat - 1 := by
    rw [BitVec.toNat_sub_of_le, BitVec.toNat_add_of_lt h, hone]
    rw [BitVec.le_def, BitVec.toNat_add_of_lt h, hone]
    omega
  have hlt := ceilTo_lt hd n.toNat
  rw [ceilTo] at hlt
  rw [roundUp, BitVec.toNat_mul, BitVec.toNat_udiv, hsub, Nat.mod_eq_of_lt (hlt.trans h), ceilTo]

theorem ceilTo_add_mul {d : Nat} (hd : 0 < d) (n k : Nat) :
    ceilTo d (n + d * k) = ceilTo d n + d * k := by
  have hsum : n + d * k + d - 1 = n + d - 1 + d * k := by omega
  rw [ceilTo, hsum, Nat.add_mul_div_left _ _ hd, Nat.add_mul, ceilTo, Nat.mul_comm k d]

/-- The size of the whole block: an overflow of the sum leaves the sum of the `unsigned int`s. -/
theorem toNat_pages {x : BitVec 32} (h : x.toNat + 4096 < 2 ^ 32) :
    (intOfSize (roundUp (sizeOfInt w x) 4096)).toNat = ceilTo 4096 x.toNat := by
  have hpage : (4096 : Word w).toNat = 4096 := by cases w <;> rfl
  have hceil := ceilTo_lt (by decide : 0 < 4096) x.toNat
  have hwidth := Nat.pow_le_pow_right (by decide : 0 < 2) (le_xlen w)
  rcases Nat.lt_or_ge x.toNat (2 ^ 31) with hlt | hge
  · have hsize := toNat_sizeOfInt (w := w) hlt
    have hround := toNat_roundUp (n := sizeOfInt w x) (d := 4096) (by rw [hpage]; decide)
      (by rw [hpage, hsize]; omega)
    rw [hpage, hsize] at hround
    rw [toNat_intOfSize (by rw [hround]; omega), hround]
  · have hsize := toNat_sizeOfInt_neg (w := w) hge
    have hround := toNat_roundUp (n := sizeOfInt w x) (d := 4096) (by rw [hpage]; decide)
      (by rw [hpage, hsize]; omega)
    rw [hpage, hsize] at hround
    rw [intOfSize, BitVec.toNat_setWidth, hround]
    cases w with
    | rv64 =>
      rw [show 2 ^ (8 * szreg .rv64) - 2 ^ 32 = 4096 * (2 ^ 52 - 2 ^ 20) from rfl,
        ceilTo_add_mul (by decide)]
      omega
    | rv32 =>
      rw [show 2 ^ (8 * szreg .rv32) - 2 ^ 32 = 0 from rfl, Nat.add_zero]
      omega

end Numbers

/-! ## The parts of the block -/

namespace Sizes

variable (z : Sizes) (n r m : Nat)

/-- Where the resources, the names and the end are for `n` devices, `r` resources and `m` bytes of
names. -/
def resourcesAt : Nat := ceilTo z.resource (z.device + z.device * n)
def namesAt : Nat := z.resourcesAt n + z.resource * r
def endAt : Nat := ceilTo 4096 (z.namesAt n r + m)

end Sizes

/-- The parts of the block follow one another. -/
structure Offsets.Exact (z : Sizes) (n r m : Nat) (o : Offsets) : Prop where
  sizeDevices : o.sizeDevices.toNat = z.device * n
  offDevices : o.offDevices.toNat = z.device
  offResources : o.offResources.toNat = z.resourcesAt n
  offNames : o.offNames.toNat = z.namesAt n r
  offEnd : o.offEnd.toNat = z.endAt n r m

/-- **The offsets, as numbers.** -/
theorem findOffsets_exact (w : Xlen) (z : Sizes) {n r m : Nat} (hn : n < 2 ^ 16) (hr : r ≤ 2 ^ 17)
    (hm : m < 2 ^ 31) : (findOffsets w z (BitVec.ofNat _ n) (BitVec.ofNat _ r)
      (BitVec.ofNat _ m)).Exact z n r m := by
  set o := findOffsets w z (BitVec.ofNat _ n) (BitVec.ofNat _ r) (BitVec.ofNat _ m) with ho
  have hwidth := Nat.pow_le_pow_right (by decide : 0 < 2) (le_xlen w)
  have hdev : z.device * n ≤ 4096 * 2 ^ 16 := Nat.mul_le_mul z.device_le hn.le
  have hres : z.resource * r ≤ 4096 * 2 ^ 17 := Nat.mul_le_mul z.resource_le hr
  have hd4 := z.device_ge
  have hd := z.device_le
  have hr0 := z.resource_pos
  have hrl := z.resource_le
  have ofNat : ∀ k, k < 2 ^ 32 → (BitVec.ofNat (8 * szreg w) k).toNat = k := fun k hk => by
    rw [BitVec.toNat_ofNat, Nat.mod_eq_of_lt (by omega)]
  have ofInt : ∀ k, k < 2 ^ 31 → (sizeOfInt w (BitVec.ofNat 32 k)).toNat = k := fun k hk => by
    have hk32 : (BitVec.ofNat 32 k).toNat = k := by
      rw [BitVec.toNat_ofNat, Nat.mod_eq_of_lt (by omega)]
    rw [toNat_sizeOfInt (by omega), hk32]
  have product : ∀ a k, a * k < 2 ^ 31 → a < 2 ^ 31 → k < 2 ^ 31 →
      (intOfSize (BitVec.ofNat (8 * szreg w) a * sizeOfInt w (BitVec.ofNat 32 k))).toNat = a * k := by
    intro a k hak ha hk
    have hmul : (BitVec.ofNat (8 * szreg w) a * sizeOfInt w (BitVec.ofNat 32 k)).toNat = a * k := by
      rw [BitVec.toNat_mul, ofNat a (by omega), ofInt k hk, Nat.mod_eq_of_lt (by omega)]
    rw [toNat_intOfSize (by omega), hmul]
  have hsizeDevices : o.sizeDevices.toNat = z.device * n :=
    product z.device n (by omega) (by omega) (by omega)
  have hoffDevices : o.offDevices.toNat = z.device := by
    have hfour : (4 : Word w).toNat = 4 := by cases w <;> rfl
    have hround := toNat_roundUp (n := 4) (d := BitVec.ofNat (8 * szreg w) z.device)
      (by rw [ofNat _ (by omega)]; omega) (by rw [hfour, ofNat _ (by omega)]; omega)
    have hone : (4 + z.device - 1) / z.device = 1 :=
      Nat.div_eq_of_lt_le (by omega) (by omega)
    rw [ofNat _ (by omega), hfour, ceilTo, hone, Nat.one_mul] at hround
    exact (toNat_intOfSize (by omega)).trans hround
  have hsizeResources := product z.resource r (by omega) (by omega) (by omega)
  have hfirst : (o.offDevices + o.sizeDevices).toNat = z.device + z.device * n := by
    rw [BitVec.toNat_add, hoffDevices, hsizeDevices, Nat.mod_eq_of_lt (by omega)]
  have hceil := ceilTo_lt hr0 (z.device + z.device * n)
  have hoffResources : o.offResources.toNat = z.resourcesAt n := by
    have hsize := toNat_sizeOfInt (w := w) (x := o.offDevices + o.sizeDevices) (by omega)
    have hround := toNat_roundUp (n := sizeOfInt w (o.offDevices + o.sizeDevices))
      (d := BitVec.ofNat (8 * szreg w) z.resource)
      (by rw [ofNat _ (by omega)]; omega) (by rw [hsize, hfirst, ofNat _ (by omega)]; omega)
    rw [ofNat _ (by omega), hsize, hfirst] at hround
    have hlt := hround.trans_lt (hceil.trans_le (show _ ≤ 2 ^ 32 by omega))
    exact (toNat_intOfSize hlt).trans hround
  have hoffNames : o.offNames.toNat = z.namesAt n r := by
    have hsum : o.offNames.toNat = (o.offResources.toNat + z.resource * r) % 2 ^ 32 := by
      rw [← hsizeResources]
      exact BitVec.toNat_add _ _
    rw [hsum, hoffResources, Nat.mod_eq_of_lt]
    · rfl
    · rw [Sizes.resourcesAt]
      omega
  have hnames : z.namesAt n r < 2 ^ 30 := by
    rw [Sizes.namesAt, Sizes.resourcesAt]
    omega
  refine ⟨hsizeDevices, hoffDevices, hoffResources, hoffNames, ?_⟩
  have hsizeNames : (intOfSize (BitVec.ofNat (8 * szreg w) m)).toNat = m := by
    rw [toNat_intOfSize (by rw [ofNat _ (by omega)]; omega), ofNat _ (by omega)]
  have hsum : (o.offNames + intOfSize (BitVec.ofNat (8 * szreg w) m)).toNat = z.namesAt n r + m := by
    rw [BitVec.toNat_add, hoffNames, hsizeNames, Nat.mod_eq_of_lt (by omega)]
  have hpages := toNat_pages (w := w) (x := o.offNames + intOfSize (BitVec.ofNat (8 * szreg w) m))
    (by omega)
  rw [hsum] at hpages
  exact hpages

/-- What the block has a place for: the number of the devices, the devices, the resources and the
bytes of the names. -/
inductive Cell
  | count
  | device (i : Nat)
  | resource (j : Nat)
  | name (k : Nat)
  deriving DecidableEq

namespace Cell

/-- The cell is one of those for `n` devices, `r` resources and `m` bytes of names. -/
def Of (n r m : Nat) : Cell → Prop
  | count => True
  | device i => i < n
  | resource j => j < r
  | name k => k < m

def start (z : Sizes) (o : Offsets) : Cell → Nat
  | count => 0
  | device i => o.offDevices.toNat + z.device * i
  | resource j => o.offResources.toNat + z.resource * j
  | name k => o.offNames.toNat + k

def stop (z : Sizes) (o : Offsets) : Cell → Nat
  | count => 4
  | device i => o.offDevices.toNat + z.device * i + z.device
  | resource j => o.offResources.toNat + z.resource * j + z.resource
  | name k => o.offNames.toNat + k + 1

/-- The order of the cells in the block. -/
def Before : Cell → Cell → Prop
  | count, count => False
  | count, _ => True
  | device i, device i' => i < i'
  | device _, resource _ => True
  | device _, name _ => True
  | resource j, resource j' => j < j'
  | resource _, name _ => True
  | name k, name k' => k < k'
  | _, _ => False

theorem before_or_before {a b : Cell} (h : a ≠ b) : a.Before b ∨ b.Before a := by
  cases a with
  | count => cases b <;> first | exact absurd rfl h | exact .inl trivial
  | device i =>
    cases b with
    | count => exact .inr trivial
    | device i' => exact Nat.lt_or_gt_of_ne fun heq => h (congrArg _ heq)
    | resource j | name k => exact .inl trivial
  | resource j =>
    cases b with
    | count | device i => exact .inr trivial
    | resource j' => exact Nat.lt_or_gt_of_ne fun heq => h (congrArg _ heq)
    | name k => exact .inl trivial
  | name k =>
    cases b with
    | count | device i | resource j => exact .inr trivial
    | name k' => exact Nat.lt_or_gt_of_ne fun heq => h (congrArg _ heq)

end Cell

/-- The block has room for all cells, with an end of their own for those of pass 1, and
`config_string_remove` finds the devices in it. -/
structure Offsets.Holds (w : Xlen) (z : Sizes) (o : Offsets) (n r m : Nat) : Prop where
  apart : ∀ a b : Cell, a.Of n r m → b.Of n r m → a ≠ b →
    a.stop z o ≤ b.start z o ∨ b.stop z o ≤ a.start z o
  inside : ∀ a : Cell, a.Of n r m → a.stop z o ≤ (sizeOfInt w o.offEnd).toNat
  first : ∀ a : Cell, a.Of n 0 0 →
    a.stop z o ≤ (sizeOfInt w (o.sizeDevices + o.offDevices)).toNat
  remove : ∀ i, (Cell.device i).start z o = z.device * (i + 1)

section Holds

variable {w : Xlen} {z : Sizes} {n r m : Nat} {o : Offsets}

theorem mul_add_le_mul {d i j : Nat} (h : i < j) : d * i + d ≤ d * j :=
  (Nat.mul_succ d i).symm.trans_le (Nat.mul_le_mul_left d h)

theorem Offsets.Exact.devices_le (h : o.Exact z n r m) :
    z.device + z.device * n ≤ o.offResources.toNat := by
  rw [h.offResources]
  exact le_ceilTo z.resource_pos _

theorem Offsets.Exact.resources_le (h : o.Exact z n r m) :
    o.offResources.toNat + z.resource * r = o.offNames.toNat := by
  rw [h.offResources, h.offNames]
  rfl

theorem Offsets.Exact.names_le (h : o.Exact z n r m) : o.offNames.toNat + m ≤ o.offEnd.toNat := by
  rw [h.offNames, h.offEnd]
  exact le_ceilTo (by decide) _

/-- A cell ends before the next ones start. -/
theorem Offsets.Exact.stop_le_start (h : o.Exact z n r m) {a b : Cell} (ha : a.Of n r m)
    (hab : a.Before b) : a.stop z o ≤ b.start z o := by
  have hd := z.device_ge
  have hdevices := h.devices_le
  have hresources := h.resources_le
  have hoff := h.offDevices
  cases a with
  | count =>
    cases b with
    | count => exact hab.elim
    | device i | resource j | name k =>
      simp only [Cell.stop, Cell.start]
      omega
  | device i =>
    have hi := mul_add_le_mul (d := z.device) (show i < n from ha)
    cases b with
    | count => exact hab.elim
    | device i' =>
      have hlt := mul_add_le_mul (d := z.device) (show i < i' from hab)
      simp only [Cell.stop, Cell.start]
      omega
    | resource j | name k =>
      simp only [Cell.stop, Cell.start]
      omega
  | resource j =>
    have hj := mul_add_le_mul (d := z.resource) (show j < r from ha)
    cases b with
    | count | device i => exact hab.elim
    | resource j' =>
      have hlt := mul_add_le_mul (d := z.resource) (show j < j' from hab)
      simp only [Cell.stop, Cell.start]
      omega
    | name k =>
      simp only [Cell.stop, Cell.start]
      omega
  | name k =>
    cases b with
    | count | device i | resource j => exact hab.elim
    | name k' =>
      have hlt : k < k' := hab
      simp only [Cell.stop, Cell.start]
      omega

theorem Offsets.Exact.stop_le_end (h : o.Exact z n r m) {a : Cell} (ha : a.Of n r m) :
    a.stop z o ≤ o.offEnd.toNat := by
  have hd := z.device_ge
  have hdevices := h.devices_le
  have hresources := h.resources_le
  have hnames := h.names_le
  have hoff := h.offDevices
  cases a with
  | count =>
    simp only [Cell.stop]
    omega
  | device i =>
    have hi := mul_add_le_mul (d := z.device) (show i < n from ha)
    simp only [Cell.stop]
    omega
  | resource j =>
    have hj := mul_add_le_mul (d := z.resource) (show j < r from ha)
    simp only [Cell.stop]
    omega
  | name k =>
    have hk : k < m := ha
    simp only [Cell.stop]
    omega

/-- **A block of exact offsets holds everything**, unless its size is no `int`. -/
theorem Offsets.Exact.holds (h : o.Exact z n r m) (hend : z.endAt n r m < 2 ^ 31) :
    o.Holds w z n r m where
  apart a b ha hb hab := by
    rcases Cell.before_or_before hab with hlt | hgt
    · exact .inl (h.stop_le_start ha hlt)
    · exact .inr (h.stop_le_start hb hgt)
  inside a ha := by
    rw [toNat_sizeOfInt (by rw [h.offEnd]; exact hend)]
    exact h.stop_le_end ha
  first a ha := by
    have hdevices := h.devices_le
    have hresources := h.resources_le
    have hnames := h.names_le
    have hoffEnd := h.offEnd
    have hd := z.device_ge
    have hsum : (o.sizeDevices + o.offDevices).toNat = z.device * n + z.device := by
      rw [BitVec.toNat_add, h.sizeDevices, h.offDevices, Nat.mod_eq_of_lt (by omega)]
    rw [toNat_sizeOfInt (by omega), hsum]
    cases a with
    | count =>
      simp only [Cell.stop]
      omega
    | device i =>
      have hi := mul_add_le_mul (d := z.device) (show i < n from ha)
      have hoff := h.offDevices
      simp only [Cell.stop]
      omega
    | resource j | name k => exact absurd ha (Nat.not_lt_zero _)
  remove i := by
    rw [Cell.start, h.offDevices, Nat.mul_succ, Nat.add_comm]

end Holds

theorem marked_length_le (k : Nat) (marks : List Bool) :
    (marked k marks).length ≤ marks.length := by
  induction marks generalizing k with
  | nil => exact Nat.le_refl 0
  | cons m ms ih =>
    have hrest := ih (k + 1)
    cases m
    · exact hrest.trans (Nat.le_succ _)
    · exact Nat.succ_le_succ hrest

/-- How much the passes leave. -/
theorem configFindDevices_sizes {config : Text} {r : ParserState × Heap}
    (e : configFindDevices config = .ok r) :
    r.2.devices.length ≤ config.length ∧ r.2.resources.length ≤ 2 * config.length ∧
      r.2.names.length < 2 ^ 31 := by
  obtain ⟨hm, hsize, -⟩ := configFindDevices_models e
  have hmarks : (marks config).length ≤ config.length := by
    by_cases hother : ∃ c ∈ config, c.val ≠ openBrace
    · exact marks_length_le hother
    · push Not at hother
      obtain ⟨r₀, e₀, -⟩ := bind_eq_ok.mp e
      cases (detectRoots_braces hother).symm.trans e₀
  refine ⟨?_, ?_, ?_⟩
  · have hcount : r.2.devices.length = (table config).devices.length := hm.listed.count
    rw [hcount, table_devices_length]
    exact (marked_length_le 0 _).trans hmarks
  · rw [show r.2.resources.length = (table config).counts.sum from hm.slotted.total]
    exact resources_le config
  · have hnames : r.2.names.length = (table config).size := by
      rw [hm.filled.memory (Nat.le_refl 2)]
      exact filled_length (Nat.le_refl _)
    rw [hnames]
    exact hsize

/-- **The block has a place of its own for everything that the passes write**, inside of the memory
that is asked for. A config string that needs 2 GiB or more asks for no less. -/
theorem block_holds (w : Xlen) (z : Sizes) {config : Text} (hlen : config.length < 65536)
    {r : ParserState × Heap} (e : configFindDevices config = .ok r) :
    let n := r.2.devices.length
    let rs := r.2.resources.length
    let m := r.2.names.length
    let o := findOffsets w z (BitVec.ofNat _ n) (BitVec.ofNat _ rs) (BitVec.ofNat _ m)
    (z.endAt n rs m < 2 ^ 31 ∧ o.Holds w z n rs m) ∨
      (2 ^ 31 ≤ z.endAt n rs m ∧ 2 ^ 31 ≤ (sizeOfInt w o.offEnd).toNat) := by
  intro n rs m o
  obtain ⟨hn, hrs, hm⟩ := configFindDevices_sizes e
  have hexact : o.Exact z n rs m :=
    findOffsets_exact w z (hn.trans_lt hlen) (hrs.trans (by omega)) hm
  rcases Nat.lt_or_ge (z.endAt n rs m) (2 ^ 31) with hend | hend
  · exact .inl ⟨hend, hexact.holds hend⟩
  · have hoff := hexact.offEnd
    refine .inr ⟨hend, ?_⟩
    rw [toNat_sizeOfInt_neg (by omega)]
    omega

/-- The sizes on a machine of 64 bits. -/
def sizes64 : Sizes := ⟨720, 56, by decide, by decide, by decide, by decide⟩

theorem block_holds_uart : ∃ r, configFindDevices uartConfig = .ok r ∧
    (findOffsets .rv64 sizes64 (BitVec.ofNat _ r.2.devices.length)
      (BitVec.ofNat _ r.2.resources.length) (BitVec.ofNat _ r.2.names.length)).Holds .rv64 sizes64
        r.2.devices.length r.2.resources.length r.2.names.length := by
  have hrun : (match configFindDevices uartConfig with
      | .ok r => sizes64.endAt r.2.devices.length r.2.resources.length r.2.names.length < 2 ^ 31
      | .error _ => false) = true := by decide +kernel
  cases e : configFindDevices uartConfig with
  | error _ =>
    rw [e] at hrun
    cases hrun
  | ok r =>
    rw [e] at hrun
    refine ⟨r, rfl, ?_⟩
    rcases block_holds .rv64 sizes64 (by decide) e with ⟨-, hholds⟩ | ⟨hge, -⟩
    · exact hholds
    · exact absurd (of_decide_eq_true hrun) (Nat.not_lt.mpr hge)

end LowriscLinux.Config
