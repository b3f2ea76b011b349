import LowriscLinux.Lib.Transition
import LowriscLinux.Mm.Ioremap
import Mathlib.Data.Finset.Card
import Mathlib.Data.List.Pairwise

/-!
# Mappings of device memory, from `ioremap` to `iounmap`

Runs of calls of `__ioremap_caller`, as in `Mm/Ioremap.lean`, and of `iounmap`
(`arch/riscv/mm/ioremap.c`, lines 70-80), in any order, while the rest of the kernel allocates, maps
and frees areas of its own in the same range.

## What models what

* `iounmap`: line 78, which rounds the pointer down to its page and hands that to `vunmap`. The page
  is that of an area only because `__ioremap_caller` has added an offset in a page.
* `Vmalloc`: the functions of the generic kernel, those of `Vm` and `vunmap`. `Documented` says what
  they are documented to do, as before, and also that areas do not overlap and that nothing happens
  to the pages of other areas.
* `Sys`: the kernel, the pointers in use and the areas of others. `Sys.ioremap` and `Sys.iounmap`
  are calls: a pointer comes into use when a call returns it, and goes out of use when it is
  unmapped.
* `Act.other`: anything that the rest of the kernel does. `Other` says that it leaves the areas of
  `ioremap`, and the pages in them, as they are.

A pointer is unmapped once, as the comment of `iounmap` (line 74) asks for. Areas that no pointer of
`ioremap` belongs to are those of others.

Results:
* `ioremapCaller_keeps`: a call leaves the pages of all areas as they are, whatever it returns.
* `Behind.page`: `iounmap` finds the area that `ioremap` has been given.
* `Inv.step`: what each step keeps.
* **`ioremap_live`**: along every run each pointer in use reads exactly its own region, unless the
  region does not fit the registers, no two of them overlap, and there is one area for each.
-/

namespace LowriscLinux.Mm.Iounmap

open Kernel Lib Ioremap

variable {w : Xlen}

/-! ## The generic kernel -/

/-- Two areas that do not overlap. -/
def Apart (a b : VmStruct w) : Prop :=
  a.addr.toNat + a.size.toNat ≤ b.addr.toNat ∨ b.addr.toNat + b.size.toNat ≤ a.addr.toNat

/-- An address in an area. -/
def Has (a : VmStruct w) (va : Word w) : Prop :=
  a.addr.toNat ≤ va.toNat ∧ va.toNat < a.addr.toNat + a.size.toNat

theorem Apart.not_has {a b : VmStruct w} {va : Word w} (h : Apart a b) (hva : Has b va) :
    ¬ Has a va := by
  rintro ⟨hstart, hstop⟩
  obtain ⟨hstart', hstop'⟩ := hva
  rcases h with h | h
  · omega
  · omega

/-- The functions of the generic kernel. -/
structure Vmalloc (w : Xlen) extends Vm w where
  vunmap (addr : Word w) : State w → State w

/-- What the functions are documented to do. -/
structure Documented (m : Vmalloc w) : Prop where
  vm : m.toVm.Documented
  apart : ∀ size caller s area s', m.getVmAreaCaller size caller s = (some area, s') →
    ∀ a ∈ s.areas, Apart area a
  getPages : ∀ size caller s, (m.getVmAreaCaller size caller s).2.pages = s.pages
  rangePages : ∀ addr stop physAddr prot s va, ¬ (addr ≤ va ∧ va < stop) →
    (m.ioremapPageRange addr stop physAddr prot s).2.pages va = s.pages va
  freePages : ∀ area s va, ¬ Has area va → (m.freeVmArea area s).pages va = s.pages va
  vunmapAreas : ∀ addr s, (m.vunmap addr s).areas = s.areas.filter (·.addr ≠ addr)
  vunmapPages : ∀ addr s va, (∀ area ∈ s.areas, area.addr = addr → ¬ Has area va) →
    (m.vunmap addr s).pages va = s.pages va

/-- `iounmap` -/
def iounmap (m : Vmalloc w) (addr : Word w) (s : State w) : State w :=
  m.vunmap (addr &&& pageMask w) s

/-! ## Mappings -/

/-- A pointer that a call has returned, with the region it was called for. -/
structure Mapping (w : Xlen) where
  pointer : Word w
  addr : BitVec 64
  size : Word w
  deriving DecidableEq

/-- The area that `iounmap` looks for. -/
def Mapping.page (p : Mapping w) : Word w := p.pointer &&& pageMask w

/-- The region has an address of no more bits than a register and does not exceed the address space
with its offset. -/
def Mapping.Fits (p : Mapping w) : Prop :=
  p.addr.toNat < 2 ^ (8 * szreg w) ∧ p.addr.toNat % 4096 + p.size.toNat ≤ 2 ^ (8 * szreg w)

/-- The bytes of a region, behind the pointer. -/
def Mapping.Reads (p : Mapping w) (s : State w) : Prop :=
  ∀ i < p.size.toNat, s.translate (p.pointer.toNat + i) = some (p.addr + BitVec.ofNat 64 i)

/-- A mapping is in an area. -/
structure Behind (s : State w) (area : VmStruct w) (p : Mapping w) : Prop where
  pointer : p.pointer = area.addr + offsetOf w p.addr
  size_ne : p.size ≠ 0
  start : 0 < area.addr.toNat
  aligned : area.addr.toNat % 4096 = 0
  stop : area.addr.toNat + area.size.toNat < 2 ^ (8 * szreg w)
  request_ne : request p.addr p.size ≠ 0
  request_le : (request p.addr p.size).toNat ≤ area.size.toNat
  pages : ∀ k < (request p.addr p.size).toNat,
    s.translate (area.addr.toNat + k) = some (pageOf w p.addr + BitVec.ofNat 64 k)

section Mappings

variable {m : Vmalloc w} {s s' : State w} {area : VmStruct w} {p : Mapping w}

/-- A call that maps a region. -/
theorem Behind.of_maps {addr : BitVec 64} {size prot caller : Word w} {s₁ s₂ : State w}
    (hm : m.toVm.Documented) (haccepted : Accepted addr size)
    (h : Maps m.toVm addr size prot caller s area s₁ s₂) :
    Behind s₂ area ⟨area.addr + offsetOf w addr, addr, size⟩ := by
  have halloc := h.allocated hm
  have hstart := halloc.start
  have hpos := vmallocStart_pos w
  have hstop := halloc.stop
  have hend := vmallocEnd_lt w
  exact {
    pointer := rfl
    size_ne := haccepted.1
    start := by omega
    aligned := halloc.aligned
    stop := by omega
    request_ne := halloc.nonzero
    request_le := BitVec.le_def.mp halloc.size
    pages := fun k hk => h.translate hm hk }

/-- A mapping depends on the pages of its area only. -/
theorem Behind.kept (h : Behind s area p) (hpages : ∀ va, Has area va → s'.pages va = s.pages va) :
    Behind s' area p where
  pointer := h.pointer
  size_ne := h.size_ne
  start := h.start
  aligned := h.aligned
  stop := h.stop
  request_ne := h.request_ne
  request_le := h.request_le
  pages k hk := by
    have hle := h.request_le
    have hstop := h.stop
    have hva : (BitVec.ofNat (8 * szreg w) (area.addr.toNat + k)).toNat = area.addr.toNat + k := by
      rw [BitVec.toNat_ofNat, Nat.mod_eq_of_lt (by omega)]
    rw [← h.pages k hk, State.translate, State.translate, hpages]
    unfold Has
    omega

theorem Behind.toNat_pointer (h : Behind s area p) :
    p.pointer.toNat = area.addr.toNat + p.addr.toNat % 4096 ∧
      p.addr.toNat % 4096 < (request p.addr p.size).toNat := by
  have hsome := toNat_pos h.request_ne
  have haligned := request_aligned p.addr p.size
  have hle := h.request_le
  have hstop := h.stop
  constructor
  · rw [h.pointer, BitVec.toNat_add, toNat_offsetOf, Nat.mod_eq_of_lt (by omega)]
  · omega

/-- **`iounmap` finds the area.** -/
theorem Behind.page (h : Behind s area p) : p.page = area.addr := by
  have haligned := h.aligned
  apply BitVec.eq_of_toNat_eq
  rw [Mapping.page, pageMask, pageSize_sub_one, toNat_and_not_mask, h.toNat_pointer.1]
  omega

/-- A region that fits lies in the area. -/
theorem Behind.covers (h : Behind s area p) (hfits : p.Fits) :
    p.addr.toNat % 4096 + p.size.toNat ≤ (request p.addr p.size).toNat := by
  have hoff := toNat_offsetOf w p.addr
  have hle := le_pageAlign p.size (offsetOf w p.addr) (by rw [hoff]; have hfit := hfits.2; omega)
    h.request_ne
  rw [hoff, Nat.add_comm] at hle
  exact hle

/-- **A pointer reads its region iff the region fits.** -/
theorem Behind.reads_iff (h : Behind s area p) : p.Reads s ↔ p.Fits := by
  obtain ⟨hpointer, hfirst⟩ := h.toNat_pointer
  have hstart := h.start
  have hsize := toNat_pos h.size_ne
  constructor
  · intro hreads
    constructor
    · -- The first byte shows the page.
      have hbyte := hreads 0 hsize
      rw [hpointer, Nat.add_zero, h.pages _ hfirst, Option.some.injEq] at hbyte
      exact (pageOf_add_offset_iff w p.addr).mp (hbyte.trans (BitVec.add_zero p.addr))
    · -- The last byte shows the size.
      by_contra hover
      have hbyte := hreads (p.size.toNat - 1) (by omega)
      rw [hpointer, State.translate, if_neg (by omega)] at hbyte
      cases hbyte
  · intro hfits i hi
    have hcovers := h.covers hfits
    rw [hpointer, Nat.add_assoc, h.pages _ (by omega), BitVec.ofNat_add, ← BitVec.add_assoc,
      (pageOf_add_offset_iff w p.addr).mpr hfits.1]

/-- **A call leaves the pages of all areas as they are**, whatever it returns. -/
theorem ioremapCaller_keeps (hm : Documented m) (addr : BitVec 64) (size prot caller : Word w)
    {a : VmStruct w} (ha : a ∈ s.areas) {va : Word w} (hva : Has a va) :
    (ioremapCaller m.toVm addr size prot caller s).2.pages va = s.pages va := by
  by_cases haccepted : Accepted addr size
  · rw [ioremapCaller_accepted haccepted]
    have hget := hm.getPages (request addr size) caller s
    cases hcall : m.getVmAreaCaller (request addr size) caller s with
    | mk found s₁ =>
      rw [hcall] at hget
      cases found with
      | none => exact congrFun hget va
      | some area =>
        have hother : ¬ Has area va := (hm.apart _ _ _ _ _ hcall a ha).not_has hva
        have halloc := hm.vm.area _ _ _ _ _ (request_aligned addr size) hcall
        have hle := BitVec.le_def.mp halloc.size
        have hrange : ¬ (area.addr ≤ va ∧ va < area.addr + request addr size) := by
          rintro ⟨hstart, hstop⟩
          have hfit := halloc.fit
          have hlt := BitVec.lt_def.mp hstop
          rw [BitVec.toNat_add, Nat.mod_eq_of_lt hfit] at hlt
          exact hother ⟨BitVec.le_def.mp hstart, by omega⟩
        have hmap := hm.rangePages area.addr (area.addr + request addr size) (pageOf w addr) prot
          s₁ va hrange
        simp only
        split
        · rw [hm.freePages _ _ _ hother, hmap, hget]
        · rw [hmap, hget]
  · unfold ioremapCaller
    rw [if_pos ((refused_iff addr size).mpr haccepted)]

end Mappings

/-! ## Runs -/

/-- The kernel, the pointers in use, and the areas of others. -/
structure Sys (w : Xlen) where
  kernel : State w
  live : List (Mapping w)
  others : Finset (VmStruct w)

/-- The areas of `ioremap`. -/
def Sys.ours (s : Sys w) : Finset (VmStruct w) := s.kernel.areas \ s.others

/-- The areas do not overlap, and none is empty. -/
structure Tiled (areas : Finset (VmStruct w)) : Prop where
  apart : ∀ a ∈ areas, ∀ b ∈ areas, a ≠ b → Apart a b
  nonempty : ∀ a ∈ areas, a.size ≠ 0

/-- What others do: they leave the areas of `ioremap`, and the pages in them, as they are. -/
structure Other (s s' : Sys w) : Prop where
  live : s'.live = s.live
  ours : s'.ours = s.ours
  others : s'.others ⊆ s'.kernel.areas
  tiled : Tiled s'.kernel.areas
  pages : ∀ a ∈ s.ours, ∀ va, Has a va → s'.kernel.pages va = s.kernel.pages va

inductive Act (w : Xlen)
  | ioremap (addr : BitVec 64) (size prot caller : Word w)
  | iounmap (p : Mapping w)
  | other

/-- The system after a call of `__ioremap_caller`. -/
def Sys.ioremap (m : Vmalloc w) (s : Sys w) (addr : BitVec 64) (size prot caller : Word w) :
    Sys w :=
  let r := ioremapCaller m.toVm addr size prot caller s.kernel
  { s with
    kernel := r.2
    live := if r.1 = 0 then s.live else ⟨r.1, addr, size⟩ :: s.live }

/-- The system after a call of `iounmap`. -/
def Sys.iounmap (m : Vmalloc w) (s : Sys w) (p : Mapping w) : Sys w :=
  { s with kernel := Iounmap.iounmap m p.pointer s.kernel, live := s.live.erase p }

inductive Step (m : Vmalloc w) : Sys w → Act w → Sys w → Prop
  | ioremap (s : Sys w) (addr : BitVec 64) (size prot caller : Word w) :
      Step m s (.ioremap addr size prot caller) (s.ioremap m addr size prot caller)
  | iounmap (s : Sys w) (p : Mapping w) (hp : p ∈ s.live) :
      Step m s (.iounmap p) (s.iounmap m p)
  | other (s s' : Sys w) (h : Other s s') : Step m s .other s'

/-- Nothing has been mapped yet. -/
structure Start (s : Sys w) : Prop where
  live : s.live = []
  others : s.others = s.kernel.areas
  tiled : Tiled s.kernel.areas

structure Inv (s : Sys w) : Prop where
  others : s.others ⊆ s.kernel.areas
  tiled : Tiled s.kernel.areas
  behind : ∀ p ∈ s.live, ∃ area ∈ s.ours, Behind s.kernel area p
  owned : ∀ area ∈ s.ours, ∃ p ∈ s.live, p.page = area.addr
  distinct : s.live.Pairwise fun p q => p.page ≠ q.page

/-- What callers rely on. -/
structure Sound (s : Sys w) : Prop where
  reads : ∀ p ∈ s.live, p.Reads s.kernel ↔ p.Fits
  separate : s.live.Pairwise fun p q => p.Fits → q.Fits →
    p.pointer.toNat + p.size.toNat ≤ q.pointer.toNat ∨
      q.pointer.toNat + q.size.toNat ≤ p.pointer.toNat
  /-- There is one area for each pointer. -/
  areas : s.ours.card = s.live.length

section Runs

variable {m : Vmalloc w} {s s' : Sys w}

theorem Start.inv (h : Start s) : Inv s where
  others := h.others.le
  tiled := h.tiled
  behind p hp := by
    rw [h.live] at hp
    exact absurd hp List.not_mem_nil
  owned area harea := by
    rw [Sys.ours, h.others, Finset.sdiff_self] at harea
    exact absurd harea (Finset.notMem_empty area)
  distinct := by
    rw [h.live]
    exact List.Pairwise.nil

theorem mem_areas_of_ours {a : VmStruct w} (h : a ∈ s.ours) : a ∈ s.kernel.areas :=
  (Finset.mem_sdiff.mp h).1

/-- An area is known by its start. -/
theorem Tiled.eq_of_addr {areas : Finset (VmStruct w)} (h : Tiled areas) {a b : VmStruct w}
    (ha : a ∈ areas) (hb : b ∈ areas) (haddr : a.addr = b.addr) : a = b := by
  by_contra hne
  have hsizeA := toNat_pos (h.nonempty a ha)
  have hsizeB := toNat_pos (h.nonempty b hb)
  rcases h.apart a ha b hb hne with hapart | hapart
  · rw [haddr] at hapart
    omega
  · rw [haddr] at hapart
    omega

/-- What keeps the areas and the pointers, and the pages of the areas. -/
theorem Inv.kept (h : Inv s) (hlive : s'.live = s.live) (hours : s'.ours = s.ours)
    (hothers : s'.others ⊆ s'.kernel.areas) (htiled : Tiled s'.kernel.areas)
    (hpages : ∀ a ∈ s.ours, ∀ va, Has a va → s'.kernel.pages va = s.kernel.pages va) : Inv s' where
  others := hothers
  tiled := htiled
  behind p hp := by
    rw [hlive] at hp
    obtain ⟨area, harea, hbehind⟩ := h.behind p hp
    exact ⟨area, hours ▸ harea, hbehind.kept (hpages area harea)⟩
  owned := by
    rw [hlive, hours]
    exact h.owned
  distinct := by
    rw [hlive]
    exact h.distinct

/-! ### What a step keeps -/

/-- A new area beside the others. -/
theorem Tiled.insert {areas : Finset (VmStruct w)} (h : Tiled areas) {area : VmStruct w}
    (hapart : ∀ a ∈ areas, Apart area a) (hsize : area.size ≠ 0) : Tiled (insert area areas) where
  apart := by
    intro a ha b hb hne
    rcases Finset.mem_insert.mp ha with rfl | ha
    · exact hapart b (Finset.mem_of_mem_insert_of_ne hb hne.symm)
    · rcases Finset.mem_insert.mp hb with rfl | hb
      · exact (hapart a (Finset.mem_of_mem_insert_of_ne ha hne)).symm
      · exact h.apart a ha b hb hne
  nonempty := by
    intro a ha
    rcases Finset.mem_insert.mp ha with rfl | ha
    · exact hsize
    · exact h.nonempty a ha

/-- A mapping in a new area. -/
theorem Inv.mapped (h : Inv s) {area : VmStruct w} {p : Mapping w} {kernel : State w}
    (hareas : kernel.areas = insert area s.kernel.areas)
    (hnew : ∀ a ∈ s.kernel.areas, Apart area a) (hbehind : Behind kernel area p)
    (hpages : ∀ a ∈ s.ours, ∀ va, Has a va → kernel.pages va = s.kernel.pages va) :
    Inv { kernel := kernel, live := p :: s.live, others := s.others } := by
  have hsize : area.size ≠ 0 := by
    intro hzero
    have hsome := toNat_pos hbehind.request_ne
    have hle := hbehind.request_le
    have hnone : (0 : Word w).toNat = 0 := BitVec.toNat_zero
    rw [hzero, hnone] at hle
    omega
  have htiled := h.tiled.insert hnew hsize
  have hfresh : area ∉ s.kernel.areas := by
    intro hmem
    have hpos := toNat_pos hsize
    rcases hnew area hmem with hapart | hapart
    · omega
    · omega
  have hours : kernel.areas \ s.others = insert area s.ours := by
    rw [hareas, Finset.insert_sdiff_of_notMem _ fun hmem => hfresh (h.others hmem)]
    rfl
  refine ⟨?_, ?_, ?_, ?_, ?_⟩
  · show s.others ⊆ kernel.areas
    rw [hareas]
    exact h.others.trans (Finset.subset_insert _ _)
  · show Tiled kernel.areas
    rw [hareas]
    exact htiled
  · show ∀ q ∈ p :: s.live, ∃ a ∈ kernel.areas \ s.others, Behind kernel a q
    rw [hours]
    intro q hq
    rcases List.mem_cons.mp hq with rfl | hq
    · exact ⟨area, Finset.mem_insert_self _ _, hbehind⟩
    · obtain ⟨a, ha, hq⟩ := h.behind q hq
      exact ⟨a, Finset.mem_insert_of_mem ha, hq.kept (hpages a ha)⟩
  · show ∀ a ∈ kernel.areas \ s.others, ∃ q ∈ p :: s.live, q.page = a.addr
    rw [hours]
    intro a ha
    rcases Finset.mem_insert.mp ha with rfl | ha
    · exact ⟨p, List.mem_cons_self, hbehind.page⟩
    · obtain ⟨q, hq, hpage⟩ := h.owned a ha
      exact ⟨q, List.mem_cons_of_mem _ hq, hpage⟩
  · refine List.pairwise_cons.mpr ⟨fun q hq hpage => ?_, h.distinct⟩
    obtain ⟨a, ha, hq⟩ := h.behind q hq
    rw [hbehind.page, hq.page] at hpage
    have hmem := Finset.mem_insert_of_mem (a := a) (b := area) (mem_areas_of_ours ha)
    obtain rfl := htiled.eq_of_addr (Finset.mem_insert_self _ _) hmem hpage
    exact hfresh (mem_areas_of_ours ha)

theorem Inv.ioremap (hm : Documented m) (h : Inv s) (addr : BitVec 64) (size prot caller : Word w) :
    Inv (s.ioremap m addr size prot caller) := by
  have hpages : ∀ a ∈ s.ours, ∀ va, Has a va →
      (ioremapCaller m.toVm addr size prot caller s.kernel).2.pages va = s.kernel.pages va :=
    fun a ha va hva => ioremapCaller_keeps hm addr size prot caller (mem_areas_of_ours ha) hva
  rcases ioremapCaller_cases addr size prot caller s.kernel hm.vm with
    ⟨hnull, hareas⟩ | ⟨haccepted, area, s₁, s₂, hmaps, heq⟩
  · have hkernel : (s.ioremap m addr size prot caller).kernel.areas = s.kernel.areas := hareas
    refine h.kept (if_pos hnull) ?_ ?_ ?_ hpages
    · unfold Sys.ours
      rw [hkernel]
      rfl
    · rw [hkernel]
      exact h.others
    · rw [hkernel]
      exact h.tiled
  · have hsys : s.ioremap m addr size prot caller =
        ⟨s₂, ⟨area.addr + offsetOf w addr, addr, size⟩ :: s.live, s.others⟩ := by
      unfold Sys.ioremap
      rw [heq]
      exact congrArg (fun live => Sys.mk s₂ live s.others) (if_neg (hmaps.pointer_ne hm.vm))
    have hareas := hm.vm.rangeAreas area.addr (area.addr + request addr size) (pageOf w addr)
      prot s₁
    rw [hmaps.range] at hareas
    rw [heq] at hpages
    rw [hsys]
    exact h.mapped (hareas.trans (hmaps.allocated hm.vm).areas)
      (hm.apart _ _ _ _ _ hmaps.get) (Behind.of_maps hm.vm haccepted hmaps) hpages

theorem Inv.iounmap (hm : Documented m) (h : Inv s) {p : Mapping w} (hp : p ∈ s.live) :
    Inv (s.iounmap m p) := by
  obtain ⟨area, harea, hbehind⟩ := h.behind p hp
  have hmem := mem_areas_of_ours harea
  have hnodup : s.live.Nodup := h.distinct.imp fun hne heq => hne (congrArg Mapping.page heq)
  have hareas : (s.iounmap m p).kernel.areas = s.kernel.areas.erase area := by
    show (m.vunmap p.page s.kernel).areas = _
    rw [hm.vunmapAreas, hbehind.page]
    ext a
    rw [Finset.mem_filter, Finset.mem_erase, and_comm]
    refine and_congr_left fun ha => not_congr ⟨fun haddr => ?_, fun heq => heq ▸ rfl⟩
    exact h.tiled.eq_of_addr ha hmem haddr
  have hours : (s.iounmap m p).ours = s.ours.erase area := by
    unfold Sys.ours
    rw [hareas, Finset.erase_sdiff_comm]
    rfl
  have hpages : ∀ a ∈ s.ours.erase area, ∀ va, Has a va →
      (s.iounmap m p).kernel.pages va = s.kernel.pages va := by
    intro a ha va hva
    obtain ⟨hne, ha⟩ := Finset.mem_erase.mp ha
    refine hm.vunmapPages _ _ _ fun b hb haddr => ?_
    have hb' : b = area := h.tiled.eq_of_addr hb hmem (haddr.trans hbehind.page)
    rw [hb']
    exact (h.tiled.apart area hmem a (mem_areas_of_ours ha) hne.symm).not_has hva
  have hother : ∀ q ∈ s.live.erase p, q ∈ s.live ∧ q.page ≠ area.addr := by
    intro q hq
    obtain ⟨hne, hq⟩ := hnodup.mem_erase_iff.mp hq
    have hsymm : Std.Symm fun p q : Mapping w => p.page ≠ q.page := ⟨fun _ _ hpage => hpage.symm⟩
    rw [← hbehind.page]
    exact ⟨hq, h.distinct.forall hq hp hne⟩
  refine ⟨?_, ?_, ?_, ?_, h.distinct.sublist List.erase_sublist⟩
  · rw [hareas]
    exact fun a ha => Finset.mem_erase.mpr
      ⟨fun heq => (Finset.mem_sdiff.mp harea).2 (heq ▸ ha), h.others ha⟩
  · rw [hareas]
    exact ⟨fun a ha b hb => h.tiled.apart a (Finset.mem_of_mem_erase ha) b
      (Finset.mem_of_mem_erase hb), fun a ha => h.tiled.nonempty a (Finset.mem_of_mem_erase ha)⟩
  · intro q hq
    obtain ⟨hq, hne⟩ := hother q hq
    obtain ⟨a, ha, hq⟩ := h.behind q hq
    have ha' : a ∈ s.ours.erase area :=
      Finset.mem_erase.mpr ⟨fun heq => hne (heq ▸ hq.page), ha⟩
    exact ⟨a, hours ▸ ha', hq.kept (hpages a ha')⟩
  · rw [hours]
    intro a ha
    obtain ⟨hne, ha⟩ := Finset.mem_erase.mp ha
    obtain ⟨q, hq, hpage⟩ := h.owned a ha
    refine ⟨q, hnodup.mem_erase_iff.mpr ⟨fun heq => hne ?_, hq⟩, hpage⟩
    rw [heq, hbehind.page] at hpage
    exact h.tiled.eq_of_addr (mem_areas_of_ours ha) hmem hpage.symm

/-- **What each step keeps.** -/
theorem Inv.step (hm : Documented m) {act : Act w} (h : Inv s) (hs : Step m s act s') : Inv s' := by
  cases hs with
  | ioremap addr size prot caller => exact h.ioremap hm addr size prot caller
  | iounmap p hp => exact h.iounmap hm hp
  | other _ hother =>
    exact h.kept hother.live hother.ours hother.others hother.tiled hother.pages

/-! ### What callers get -/

/-- Two regions that fit, in different areas. -/
theorem Inv.separate (h : Inv s) : s.live.Pairwise fun p q => p.Fits → q.Fits →
    p.pointer.toNat + p.size.toNat ≤ q.pointer.toNat ∨
      q.pointer.toNat + q.size.toNat ≤ p.pointer.toNat := by
  refine h.distinct.imp_of_mem fun {p q} hp hq hpage hfitsP hfitsQ => ?_
  obtain ⟨a, ha, hbehindP⟩ := h.behind p hp
  obtain ⟨b, hb, hbehindQ⟩ := h.behind q hq
  have hne : a ≠ b := by
    intro heq
    rw [hbehindP.page, hbehindQ.page, heq] at hpage
    exact hpage rfl
  have hcoversP := hbehindP.covers hfitsP
  have hcoversQ := hbehindQ.covers hfitsQ
  have hleP := hbehindP.request_le
  have hleQ := hbehindQ.request_le
  rw [hbehindP.toNat_pointer.1, hbehindQ.toNat_pointer.1]
  rcases h.tiled.apart a (mem_areas_of_ours ha) b (mem_areas_of_ours hb) hne with hapart | hapart
  · left
    omega
  · right
    omega

/-- The pages of the pointers are the starts of the areas. -/
theorem Inv.card_ours (h : Inv s) : s.ours.card = s.live.length := by
  have hinj : Set.InjOn VmStruct.addr s.ours := fun a ha b hb haddr =>
    h.tiled.eq_of_addr (mem_areas_of_ours ha) (mem_areas_of_ours hb) haddr
  have himage : s.ours.image VmStruct.addr = (s.live.map Mapping.page).toFinset := by
    ext addr
    rw [Finset.mem_image, List.mem_toFinset, List.mem_map]
    constructor
    · rintro ⟨a, ha, rfl⟩
      exact h.owned a ha
    · rintro ⟨p, hp, rfl⟩
      obtain ⟨a, ha, hbehind⟩ := h.behind p hp
      exact ⟨a, ha, hbehind.page.symm⟩
  have hnodup : (s.live.map Mapping.page).Nodup := List.pairwise_map.mpr h.distinct
  rw [← Finset.card_image_of_injOn hinj, himage, List.toFinset_card_of_nodup hnodup,
    List.length_map]

theorem Inv.sound (h : Inv s) : Sound s where
  reads p hp := by
    obtain ⟨area, -, hbehind⟩ := h.behind p hp
    exact hbehind.reads_iff
  separate := h.separate
  areas := h.card_ours

/-- **The life of mappings**: along every run each pointer that has not been unmapped reads exactly
its region iff the region fits, the regions do not overlap, and no area is lost. -/
theorem ioremap_live {run : List (Act w × Sys w)} (hm : Documented m) (hstart : Start s)
    (hrun : IsRun (Step m) s run) : Always Sound s run :=
  (hrun.invariant (fun _ _ _ h hs => h.step hm hs) hstart.inv).imp fun _ h => h.sound

end Runs

/-! ## A kernel with places for areas -/

section Kernel

instance decidableHas (a : VmStruct w) (va : Word w) : Decidable (Has a va) :=
  inferInstanceAs (Decidable (_ ∧ _))

instance decidableApart (a b : VmStruct w) : Decidable (Apart a b) :=
  inferInstanceAs (Decidable (_ ∨ _))

/-- The vmalloc range has places of 1 MB. -/
def place (w : Xlen) (n : Nat) : Word w := vmallocStart w + BitVec.ofNat _ (n * 2 ^ 20)

/-- The first place where an area of a size is apart from those that there are. -/
def freePlace (size : Word w) (s : State w) : Option Nat :=
  (List.range 128).find? fun n => ∀ a ∈ s.areas, Apart ⟨place w n, size⟩ a

/-- A kernel that gives callers the first place that is free, and maps every range. -/
def firstFit (w : Xlen) : Vmalloc w where
  getVmAreaCaller size _ s :=
    match if size ≠ 0 ∧ size.toNat ≤ 2 ^ 20 then freePlace size s else none with
    | some n => (some ⟨place w n, size⟩, { s with areas := insert ⟨place w n, size⟩ s.areas })
    | none => (none, s)
  freeVmArea area s := { s with areas := s.areas.erase area }
  ioremapPageRange addr stop physAddr _ s :=
    (0, { s with pages := fun va =>
      if addr ≤ va ∧ va < stop then some (physAddr + (va - addr).setWidth 64) else s.pages va })
  vunmap addr s :=
    { areas := s.areas.filter (·.addr ≠ addr)
      pages := fun va =>
        if ∃ area ∈ s.areas, area.addr = addr ∧ Has area va then none else s.pages va }

theorem toNat_place {n : Nat} (hn : n < 128) :
    (place w n).toNat = (vmallocStart w).toNat + n * 2 ^ 20 := by
  have hsize := vmalloc_size w
  have hend := vmallocEnd_lt w
  have hoff : n * 2 ^ 20 + 2 ^ 20 ≤ 2 ^ 27 := by omega
  rw [place, BitVec.toNat_add, BitVec.toNat_ofNat, Nat.add_mod_mod, Nat.mod_eq_of_lt (by omega)]

/-- A place that is given away. -/
theorem firstFit_get {size caller : Word w} {s s' : State w} {area : VmStruct w}
    (h : (firstFit w).getVmAreaCaller size caller s = (some area, s')) :
    ∃ n < 128, size ≠ 0 ∧ size.toNat ≤ 2 ^ 20 ∧ area = ⟨place w n, size⟩ ∧
      (∀ a ∈ s.areas, Apart area a) ∧ s' = { s with areas := insert area s.areas } := by
  simp only [firstFit] at h
  split at h
  case h_1 n hfound =>
    obtain ⟨hsome, rfl⟩ := Prod.mk.inj h
    obtain rfl := Option.some.inj hsome
    split_ifs at hfound with hsize
    · have hapart := List.find?_some hfound
      rw [decide_eq_true_eq] at hapart
      have hmem := List.mem_range.mp (List.mem_of_find?_eq_some hfound)
      exact ⟨n, hmem, hsize.1, hsize.2, rfl, hapart, rfl⟩
  case h_2 => cases h

theorem firstFit_area {size caller : Word w} {s s' : State w} {area : VmStruct w}
    (h : (firstFit w).getVmAreaCaller size caller s = (some area, s')) :
    Allocated size s area s' := by
  obtain ⟨n, hn, hsize, hle, rfl, hapart, rfl⟩ := firstFit_get h
  have hplace := toNat_place (w := w) hn
  have hrange := vmalloc_size w
  have haligned := vmallocStart_aligned w
  have hpos := toNat_pos hsize
  refine ⟨hsize, BitVec.le_refl _, ?_, ?_, ?_, fun hmem => ?_, rfl⟩
  · show (place w n).toNat % 4096 = 0
    omega
  · show _ ≤ (place w n).toNat
    omega
  · show (place w n).toNat + size.toNat ≤ _
    omega
  · rcases hapart _ hmem with hself | hself
    · simp only at hself
      omega
    · simp only at hself
      omega

theorem firstFit_noArea {size caller : Word w} {s s' : State w}
    (h : (firstFit w).getVmAreaCaller size caller s = (none, s')) : s' = s := by
  simp only [firstFit] at h
  split at h
  case h_1 => cases h
  case h_2 => exact (Prod.mk.inj h).2.symm

theorem firstFit_documented (w : Xlen) : Documented (firstFit w) where
  vm := {
    area := fun size caller s area s' _ hget => firstFit_area hget
    noArea := fun size caller s s' hget => congrArg State.areas (firstFit_noArea hget)
    free := fun _ _ => rfl
    rangeAreas := fun _ _ _ _ _ => rfl
    range := fun addr stop physAddr prot s s' _ _ _ _ hmap va => by
      obtain ⟨-, rfl⟩ := Prod.mk.inj hmap
      rfl }
  apart size caller s area s' hget := by
    obtain ⟨n, -, -, -, -, hapart, -⟩ := firstFit_get hget
    exact hapart
  getPages size caller s := by
    cases hget : (firstFit w).getVmAreaCaller size caller s with
    | mk found s' =>
      cases found with
      | none => rw [firstFit_noArea hget]
      | some area =>
        obtain ⟨n, -, -, -, -, -, rfl⟩ := firstFit_get hget
        rfl
  rangePages addr stop physAddr prot s va hva := if_neg hva
  freePages _ _ _ _ := rfl
  vunmapAreas _ _ := rfl
  vunmapPages addr s va hva := if_neg fun hfound => by
    obtain ⟨area, harea, haddr, hhas⟩ := hfound
    exact hva area harea haddr hhas

/-- Others get an area of a size, and map it. -/
def Sys.map (m : Vmalloc w) (s : Sys w) (area : VmStruct w) (size prot caller : Word w)
    (physAddr : BitVec 64) : Sys w where
  kernel := (m.ioremapPageRange area.addr (area.addr + size) physAddr prot
    (m.getVmAreaCaller size caller s.kernel).2).2
  live := s.live
  others := insert area s.others

theorem Inv.other_map {m : Vmalloc w} {s : Sys w} (hm : Documented m) (h : Inv s)
    {area : VmStruct w} {size prot caller : Word w} {physAddr : BitVec 64}
    (hsize : size.toNat % 4096 = 0)
    (hget : (m.getVmAreaCaller size caller s.kernel).1 = some area) :
    Other s (s.map m area size prot caller physAddr) := by
  have hcall : m.getVmAreaCaller size caller s.kernel =
      (some area, (m.getVmAreaCaller size caller s.kernel).2) := Prod.ext hget rfl
  have halloc := hm.vm.area _ _ _ _ _ hsize hcall
  have hapart := hm.apart _ _ _ _ _ hcall
  have hareas : (s.map m area size prot caller physAddr).kernel.areas =
      insert area s.kernel.areas := (hm.vm.rangeAreas ..).trans halloc.areas
  have hle := BitVec.le_def.mp halloc.size
  refine ⟨rfl, ?_, ?_, ?_, fun a ha va hva => ?_⟩
  · unfold Sys.ours
    rw [hareas]
    show insert area s.kernel.areas \ insert area s.others = _
    rw [Finset.insert_sdiff_insert, Finset.sdiff_insert_of_notMem halloc.new]
  · rw [hareas]
    exact Finset.insert_subset_insert _ h.others
  · rw [hareas]
    refine h.tiled.insert hapart fun hzero => ?_
    have hpos := toNat_pos halloc.nonzero
    have hnone : (0 : Word w).toNat = 0 := BitVec.toNat_zero
    rw [hzero, hnone] at hle
    omega
  · refine (hm.rangePages _ _ _ _ _ _ ?_).trans (congrFun (hm.getPages ..) va)
    rintro ⟨hstart, hstop⟩
    have hlt := BitVec.lt_def.mp hstop
    rw [BitVec.toNat_add, Nat.mod_eq_of_lt halloc.fit] at hlt
    exact (hapart a (mem_areas_of_ours ha)).not_has hva ⟨BitVec.le_def.mp hstart, by omega⟩

/-- The registers of two devices on RV32, with an area of others between them. The first ones are
unmapped, and mapped again after those of a third device. -/
theorem ioremap_live_three : ∃ run,
    IsRun (Step (firstFit .rv32)) ⟨.empty, [], ∅⟩ run ∧
      run.map Prod.fst = [.ioremap 0x40001010 0x2000 0 0, .other, .ioremap 0x40010000 0x1000 0 0,
        .iounmap ⟨0xb8000010, 0x40001010, 0x2000⟩, .ioremap 0x40020000 0x1000 0 0,
        .ioremap 0x40001010 0x2000 0 0] ∧
      run.map (fun e => e.2.live.map Mapping.pointer) = [[0xb8000010], [0xb8000010],
        [0xb8200000, 0xb8000010], [0xb8200000], [0xb8000000, 0xb8200000],
        [0xb8300010, 0xb8000000, 0xb8200000]] ∧
      Always Sound ⟨.empty, [], ∅⟩ run := by
  let m : Vmalloc .rv32 := firstFit .rv32
  have hm : Documented m := firstFit_documented .rv32
  have hstart : Start (⟨.empty, [], ∅⟩ : Sys .rv32) :=
    ⟨rfl, rfl, ⟨fun a ha => absurd ha (Finset.notMem_empty a),
      fun a ha => absurd ha (Finset.notMem_empty a)⟩⟩
  let s₁ : Sys .rv32 := Sys.ioremap m ⟨.empty, [], ∅⟩ 0x40001010 0x2000 0 0
  let s₂ : Sys .rv32 := s₁.map m ⟨0xb8100000, 0x3000⟩ 0x3000 0 0 0x80000000
  let s₃ : Sys .rv32 := s₂.ioremap m 0x40010000 0x1000 0 0
  let s₄ : Sys .rv32 := s₃.iounmap m ⟨0xb8000010, 0x40001010, 0x2000⟩
  let s₅ : Sys .rv32 := s₄.ioremap m 0x40020000 0x1000 0 0
  let s₆ : Sys .rv32 := s₅.ioremap m 0x40001010 0x2000 0 0
  have hother : Other s₁ s₂ := (hstart.inv.ioremap hm ..).other_map hm (by decide) (by decide)
  have hrun : IsRun (Step m) ⟨.empty, [], ∅⟩
      [(.ioremap 0x40001010 0x2000 0 0, s₁), (.other, s₂), (.ioremap 0x40010000 0x1000 0 0, s₃),
        (.iounmap ⟨0xb8000010, 0x40001010, 0x2000⟩, s₄), (.ioremap 0x40020000 0x1000 0 0, s₅),
        (.ioremap 0x40001010 0x2000 0 0, s₆)] :=
    ⟨.ioremap .., .other _ _ hother, .ioremap .., .iounmap _ _ (by decide), .ioremap ..,
      .ioremap .., trivial⟩
  exact ⟨_, hrun, rfl, by decide +kernel, ioremap_live hm hstart hrun⟩

end Kernel

end LowriscLinux.Mm.Iounmap
