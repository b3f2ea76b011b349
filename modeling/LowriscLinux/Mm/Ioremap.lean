import LowriscLinux.Lib.Words
import LowriscLinux.Mm.Fault

/-!
# Mapping device memory

Model of `__ioremap_caller` (`arch/riscv/mm/ioremap.c`, lines 17-47) with `PAGE_MASK` of
`arch/riscv/include/asm/page.h`.

## What models what

* `ioremapCaller`: the function, with 0 for `NULL`. `last_addr` (line 25) is a `phys_addr_t` of 64
  bits.
* `pageMask`: `PAGE_MASK`, an `unsigned long`: in line 32 it is extended by zeros on RV32 and takes
  the upper half of the address away. `offset` (line 31) and `size` (line 33) have the bits of a
  register.
* `pageAlign`: `PAGE_ALIGN` of the generic kernel, whose sum can wrap around.
* `Vm`: `get_vm_area_caller`, `ioremap_page_range` and `free_vm_area` of the generic kernel, as a
  parameter. `Vm.Documented` is what they are documented to do: an area comes from the range of
  `VMALLOC_START` and `VMALLOC_END` (`pgtable.h`, lines 310-312), and never for a size of 0; a range
  that has been mapped leads to the physical addresses from the given one on.
* `State`: the areas that there are and what the kernel's page mapping takes each page to.
* `Right`: what a call should do, for a region of `size` bytes from a physical address.

Results:
* `toNat_pageAlign`, `le_pageAlign`: the rounded size covers the region unless it has wrapped.
* `mapped_right_iff`: a pointer that is returned is right iff the physical address has no more bits
  than a register and the region with its offset does not exceed the address space.
* **`ioremapCaller_right_iff`**: when no documented kernel can make the call wrong.

Out of scope: the protection bits in the entries.
-/

namespace LowriscLinux.Mm.Ioremap

open Kernel Lib

variable {w : Xlen}

/-! ## The generic kernel -/

/-- `struct vm_struct`. -/
structure VmStruct (w : Xlen) where
  addr : Word w
  size : Word w
  deriving DecidableEq

structure State (w : Xlen) where
  /-- The allocated areas. -/
  areas : Finset (VmStruct w)
  /-- The physical address of a virtual address, if it is mapped. -/
  pages : Word w → Option (BitVec 64)

/-- What the page mapping takes a number to, which is an address if it has the bits of one. -/
def State.translate (s : State w) (va : Nat) : Option (BitVec 64) :=
  if va < 2 ^ (8 * szreg w) then s.pages (BitVec.ofNat _ va) else none

/-- The functions of the generic kernel. -/
structure Vm (w : Xlen) where
  /-- `get_vm_area_caller(size, VM_IOREMAP, caller)`. -/
  getVmAreaCaller (size caller : Word w) : State w → Option (VmStruct w) × State w
  freeVmArea (area : VmStruct w) : State w → State w
  ioremapPageRange (addr stop : Word w) (physAddr : BitVec 64) (prot : Word w) :
    State w → BitVec 32 × State w

/-- An area of at least a size has been allocated. -/
structure Allocated (size : Word w) (s : State w) (area : VmStruct w) (s' : State w) : Prop where
  nonzero : size ≠ 0
  size : size ≤ area.size
  aligned : area.addr.toNat % 4096 = 0
  start : (vmallocStart w).toNat ≤ area.addr.toNat
  stop : area.addr.toNat + area.size.toNat ≤ (vmallocEnd w).toNat + 1
  new : area ∉ s.areas
  areas : s'.areas = insert area s.areas

/-- What the functions are documented to do. -/
structure Vm.Documented (m : Vm w) : Prop where
  area : ∀ size caller s area s', size.toNat % 4096 = 0 →
    m.getVmAreaCaller size caller s = (some area, s') → Allocated size s area s'
  noArea : ∀ size caller s s', m.getVmAreaCaller size caller s = (none, s') → s'.areas = s.areas
  free : ∀ area s, (m.freeVmArea area s).areas = s.areas.erase area
  rangeAreas : ∀ addr stop physAddr prot s,
    (m.ioremapPageRange addr stop physAddr prot s).2.areas = s.areas
  /-- Exactly the range is mapped. -/
  range : ∀ addr stop physAddr prot s s', addr < stop →
    addr.toNat % 4096 = 0 → stop.toNat % 4096 = 0 → physAddr.toNat % 4096 = 0 →
    m.ioremapPageRange addr stop physAddr prot s = (0, s') →
    ∀ va, s'.pages va =
      if addr ≤ va ∧ va < stop then some (physAddr + (va - addr).setWidth 64) else s.pages va

/-! ## The mapping -/

/-- `PAGE_SIZE`. -/
def pageSize (w : Xlen) : Word w := 1 <<< 12

/-- `PAGE_MASK`, an `unsigned long`. -/
def pageMask (w : Xlen) : Word w := ~~~(pageSize w - 1)

/-- `PAGE_ALIGN`. -/
def pageAlign (x : Word w) : Word w := (x + (pageSize w - 1)) &&& ~~~(pageSize w - 1)

/-- `__ioremap_caller`: the pointer, with 0 for `NULL`. -/
def ioremapCaller (m : Vm w) (addr : BitVec 64) (size prot caller : Word w) (s : State w) :
    Word w × State w :=
  let lastAddr := addr + size.setWidth 64 - 1
  if size = 0 ∨ lastAddr < addr then (0, s)
  else
    let offset : Word w := (addr &&& (~~~pageMask w).setWidth 64).setWidth _
    let addr := addr &&& (pageMask w).setWidth 64
    let size := pageAlign (size + offset)
    match m.getVmAreaCaller size caller s with
    | (none, s) => (0, s)
    | (some area, s) =>
      let vaddr := area.addr
      let (err, s) := m.ioremapPageRange vaddr (vaddr + size) addr prot s
      if err ≠ 0 then (0, m.freeVmArea area s)
      else (vaddr + offset, s)

/-- What a call should do: it returns `NULL` with no area left, or a pointer behind which the whole
region is mapped, and it refuses an empty region and one that wraps. -/
structure Right (addr : BitVec 64) (size : Word w) (s : State w) (r : Word w × State w) : Prop where
  outcome : r.1 = 0 ∧ r.2.areas = s.areas ∨ r.1 ≠ 0 ∧ ∀ i < size.toNat,
    r.2.translate (r.1.toNat + i) = some (addr + BitVec.ofNat 64 i)
  refused : size = 0 ∨ 2 ^ 64 < addr.toNat + size.toNat → r.1 = 0

/-! ## Pages and offsets -/

section Pages

theorem xlen_le_64 (w : Xlen) : 8 * szreg w ≤ 64 := by cases w <;> decide

theorem two_pow_xlen_le (w : Xlen) : 2 ^ (8 * szreg w) ≤ 2 ^ 64 :=
  Nat.pow_le_pow_right (by decide) (xlen_le_64 w)

theorem pageSize_sub_one (w : Xlen) : pageSize w - 1 = BitVec.ofNat _ (2 ^ 12 - 1) := by
  cases w <;> rfl

/-- The offset in a page. -/
theorem toNat_offset (w : Xlen) (addr : BitVec 64) :
    ((addr &&& (~~~pageMask w).setWidth 64).setWidth (8 * szreg w)).toNat = addr.toNat % 4096 := by
  have hmask : (~~~pageMask w).setWidth 64 = BitVec.ofNat 64 (2 ^ 12 - 1) := by cases w <;> rfl
  have hlt : addr.toNat % 2 ^ 12 < 2 ^ (8 * szreg w) :=
    Nat.lt_of_lt_of_le (Nat.mod_lt _ (by decide)) (Nat.pow_le_pow_right (by decide)
      (by cases w <;> decide))
  rw [hmask, BitVec.toNat_setWidth, toNat_and_mask _ (by decide), Nat.mod_eq_of_lt hlt]
  rfl

/-- The page, of which the mask of a register keeps as many bits as it has. -/
theorem toNat_page (w : Xlen) (addr : BitVec 64) :
    (addr &&& (pageMask w).setWidth 64).toNat =
      addr.toNat % 2 ^ (8 * szreg w) / 4096 * 4096 := by
  have hlow : addr &&& (pageMask w).setWidth 64 =
      (addr.setWidth (8 * szreg w) &&& pageMask w).setWidth 64 := by
    ext i hi
    by_cases hw : i < 8 * szreg w
    · simp [hw, hi]
    · simp [hw, hi, BitVec.getLsbD_of_ge (pageMask w) i (by omega)]
  have hround : (addr.setWidth (8 * szreg w) &&& pageMask w).toNat =
      addr.toNat % 2 ^ (8 * szreg w) / 4096 * 4096 := by
    have hmask := toNat_and_not_mask (addr.setWidth (8 * szreg w)) 12
    rw [BitVec.toNat_setWidth] at hmask
    rw [pageMask, pageSize_sub_one]
    exact hmask
  have hlt := (addr.setWidth (8 * szreg w) &&& pageMask w).isLt
  have hle := two_pow_xlen_le w
  rw [hlow, BitVec.toNat_setWidth, Nat.mod_eq_of_lt (by omega), hround]

theorem toNat_pageAlign (x : Word w) :
    (pageAlign x).toNat = (x.toNat + 4095) % 2 ^ (8 * szreg w) / 4096 * 4096 := by
  have hlt : 2 ^ 12 - 1 < 2 ^ (8 * szreg w) := by cases w <;> decide
  rw [pageAlign, pageSize_sub_one, toNat_and_not_mask, BitVec.toNat_add, BitVec.toNat_ofNat,
    Nat.mod_eq_of_lt hlt]
  rfl

theorem pageAlign_aligned (x : Word w) : (pageAlign x).toNat % 4096 = 0 := by
  rw [toNat_pageAlign, Nat.mul_mod_left]

theorem toNat_pos {v : Word w} (h : v ≠ 0) : 0 < v.toNat := by
  rcases Nat.eq_zero_or_pos v.toNat with hzero | hpos
  · exact absurd (BitVec.eq_of_toNat_eq (hzero.trans BitVec.toNat_zero.symm)) h
  · exact hpos

variable (size offset : Word w)

/-- **The rounded size covers the region**, if it has not wrapped to 0 and the sum has not wrapped
to more than that. -/
theorem le_pageAlign (hfit : size.toNat + offset.toNat ≤ 2 ^ (8 * szreg w))
    (hnonzero : pageAlign (size + offset) ≠ 0) :
    size.toNat + offset.toNat ≤ (pageAlign (size + offset)).toNat := by
  have hne : (pageAlign (size + offset)).toNat ≠ 0 := (toNat_pos hnonzero).ne'
  have hpos : 4096 ≤ 2 ^ (8 * szreg w) := by cases w <;> decide
  rw [toNat_pageAlign, BitVec.toNat_add] at *
  generalize 2 ^ (8 * szreg w) = top at *
  rcases Nat.lt_or_eq_of_le hfit with hlt | heq
  · rw [Nat.mod_eq_of_lt hlt] at *
    rcases Nat.lt_or_ge (size.toNat + offset.toNat + 4095) top with hroom | hover
    · rw [Nat.mod_eq_of_lt hroom]
      omega
    · rw [Nat.mod_eq_sub_mod hover, Nat.mod_eq_of_lt (by omega)] at hne
      omega
  · rw [heq, Nat.mod_self, Nat.zero_add, Nat.mod_eq_of_lt (by omega)] at hne
    exact absurd rfl hne

end Pages

/-! ## The calls -/

section Calls

variable {m : Vm w} {addr : BitVec 64} {size prot caller : Word w} {s : State w}

/-- The offset of a physical address in its page. -/
def offsetOf (w : Xlen) (addr : BitVec 64) : Word w :=
  (addr &&& (~~~pageMask w).setWidth 64).setWidth _

/-- The page of a physical address, to a kernel with registers of a width. -/
def pageOf (w : Xlen) (addr : BitVec 64) : BitVec 64 := addr &&& (pageMask w).setWidth 64

/-- The size that is asked for. -/
def request (addr : BitVec 64) (size : Word w) : Word w := pageAlign (size + offsetOf w addr)

theorem toNat_offsetOf (w : Xlen) (addr : BitVec 64) :
    (offsetOf w addr).toNat = addr.toNat % 4096 := toNat_offset w addr

theorem request_aligned (addr : BitVec 64) (size : Word w) :
    (request addr size).toNat % 4096 = 0 := pageAlign_aligned _

/-- **An address is its page and its offset iff it has no more bits than a register.** -/
theorem pageOf_add_offset_iff (w : Xlen) (addr : BitVec 64) :
    pageOf w addr + BitVec.ofNat 64 (addr.toNat % 4096) = addr ↔
      addr.toNat < 2 ^ (8 * szreg w) := by
  have hpage : (pageOf w addr).toNat = addr.toNat % 2 ^ (8 * szreg w) / 4096 * 4096 :=
    toNat_page w addr
  have hdvd : addr.toNat % 2 ^ (8 * szreg w) % 4096 = addr.toNat % 4096 :=
    Nat.mod_mod_of_dvd _ (by cases w <;> decide)
  have hle := two_pow_xlen_le w
  have hlow := Nat.mod_lt addr.toNat (Nat.two_pow_pos (8 * szreg w))
  rw [← BitVec.toNat_inj, toNat_add_lt (by omega), hpage]
  constructor
  · intro h
    omega
  · intro h
    rw [Nat.mod_eq_of_lt h]
    omega

/-- The size is not 0 and the region does not wrap. -/
def Accepted (addr : BitVec 64) (size : Word w) : Prop :=
  size ≠ 0 ∧ addr.toNat + size.toNat ≤ 2 ^ 64

theorem refused_iff (addr : BitVec 64) (size : Word w) :
    size = 0 ∨ addr + size.setWidth 64 - 1 < addr ↔ ¬ Accepted addr size := by
  have hsize : (size.setWidth 64).toNat = size.toNat :=
    BitVec.toNat_setWidth_of_le (xlen_le_64 w)
  by_cases hzero : size = 0
  · exact iff_of_true (.inl hzero) fun h => h.1 hzero
  · have hne : (size.setWidth 64).toNat ≠ 0 := by
      rw [hsize]
      exact (toNat_pos hzero).ne'
    have hwrap : addr + size.setWidth 64 - 1 < addr ↔ 2 ^ 64 < addr.toNat + size.toNat := by
      rw [← hsize]
      generalize size.setWidth 64 = z at *
      bv_omega
    simp only [Accepted, hzero, false_or, ne_eq, not_false_eq_true, true_and, hwrap, not_le]

/-- The generic kernel allocates an area and maps the region in it. -/
structure Maps (m : Vm w) (addr : BitVec 64) (size prot caller : Word w) (s : State w)
    (area : VmStruct w) (s₁ s₂ : State w) : Prop where
  get : m.getVmAreaCaller (request addr size) caller s = (some area, s₁)
  range : m.ioremapPageRange area.addr (area.addr + request addr size) (pageOf w addr) prot s₁ =
    (0, s₂)

/-- A call of a region that is not refused, in these terms. -/
theorem ioremapCaller_accepted (h : Accepted addr size) :
    ioremapCaller m addr size prot caller s =
      match m.getVmAreaCaller (request addr size) caller s with
      | (none, s) => (0, s)
      | (some area, s) =>
        let (err, s) := m.ioremapPageRange area.addr (area.addr + request addr size)
          (pageOf w addr) prot s
        if err ≠ 0 then (0, m.freeVmArea area s) else (area.addr + offsetOf w addr, s) :=
  if_neg (mt (refused_iff addr size).mp (not_not.mpr h))

/-- **What a call does**: it returns `NULL` and leaves no area, or the region has been mapped. -/
theorem ioremapCaller_cases (addr : BitVec 64) (size prot caller : Word w) (s : State w)
    (hm : m.Documented) :
    (ioremapCaller m addr size prot caller s).1 = 0 ∧
        (ioremapCaller m addr size prot caller s).2.areas = s.areas ∨
      Accepted addr size ∧ ∃ area s₁ s₂, Maps m addr size prot caller s area s₁ s₂ ∧
        ioremapCaller m addr size prot caller s = (area.addr + offsetOf w addr, s₂) := by
  by_cases haccepted : Accepted addr size
  · rw [ioremapCaller_accepted haccepted]
    cases hget : m.getVmAreaCaller (request addr size) caller s with
    | mk found s₁ =>
      cases found with
      | none => exact .inl ⟨rfl, hm.noArea _ _ _ _ hget⟩
      | some area =>
        have halloc := hm.area _ _ _ _ _ (pageAlign_aligned _) hget
        have hareas := hm.rangeAreas area.addr (area.addr + request addr size) (pageOf w addr)
          prot s₁
        cases hmap : m.ioremapPageRange area.addr (area.addr + request addr size) (pageOf w addr)
          prot s₁ with
        | mk err s₂ =>
          rw [hmap] at hareas
          simp only [hmap]
          by_cases herr : err = 0
          · subst herr
            exact .inr ⟨haccepted, area, s₁, s₂, ⟨hget, hmap⟩, rfl⟩
          · left
            rw [if_pos herr]
            refine ⟨rfl, ?_⟩
            rw [hm.free, hareas, halloc.areas, Finset.erase_insert halloc.new]
  · left
    unfold ioremapCaller
    rw [if_pos ((refused_iff addr size).mpr haccepted)]
    exact ⟨rfl, rfl⟩

/-- A call whose region is mapped returns the pointer to it. -/
theorem ioremapCaller_maps {area : VmStruct w} {s₁ s₂ : State w} (haccepted : Accepted addr size)
    (h : Maps m addr size prot caller s area s₁ s₂) :
    ioremapCaller m addr size prot caller s = (area.addr + offsetOf w addr, s₂) := by
  rw [ioremapCaller_accepted haccepted]
  simp only [h.get, h.range, ne_eq, not_true_eq_false, if_false]

variable {area : VmStruct w} {s₁ s₂ : State w}

theorem vmallocStart_pos (w : Xlen) : 0 < (vmallocStart w).toNat := by cases w <;> decide

theorem vmallocStart_aligned (w : Xlen) : (vmallocStart w).toNat % 4096 = 0 := by
  cases w <;> decide

theorem vmallocEnd_lt (w : Xlen) : (vmallocEnd w).toNat + 1 < 2 ^ (8 * szreg w) := by
  cases w <;> decide

theorem Maps.allocated (hm : m.Documented) (h : Maps m addr size prot caller s area s₁ s₂) :
    Allocated (request addr size) s area s₁ :=
  hm.area _ _ _ _ _ (pageAlign_aligned _) h.get

/-- The end of the range that is mapped. -/
theorem Allocated.fit {size : Word w} (h : Allocated size s area s₁) :
    area.addr.toNat + size.toNat < 2 ^ (8 * szreg w) := by
  have hsize : size.toNat ≤ area.size.toNat := BitVec.le_def.mp h.size
  have hstop := h.stop
  have hend := vmallocEnd_lt w
  omega

/-- **What is mapped behind the area.** -/
theorem Maps.translate (hm : m.Documented) (h : Maps m addr size prot caller s area s₁ s₂) {k : Nat}
    (hk : k < (request addr size).toNat) :
    s₂.translate (area.addr.toNat + k) = some (pageOf w addr + BitVec.ofNat 64 k) := by
  have halloc := h.allocated hm
  have hfit := halloc.fit
  have haligned := halloc.aligned
  have hrequest := request_aligned addr size
  have hstop : (area.addr + request addr size).toNat =
      area.addr.toNat + (request addr size).toNat := by
    rw [BitVec.toNat_add, Nat.mod_eq_of_lt hfit]
  have hva : (BitVec.ofNat (8 * szreg w) (area.addr.toNat + k)).toNat = area.addr.toNat + k := by
    rw [BitVec.toNat_ofNat, Nat.mod_eq_of_lt (by omega)]
  have hpage : (pageOf w addr).toNat % 4096 = 0 := by
    rw [pageOf, toNat_page, Nat.mul_mod_left]
  have hrange := hm.range _ _ _ _ _ _ (BitVec.lt_def.mpr (by omega)) haligned
    (by rw [hstop]; omega) hpage h.range (BitVec.ofNat _ (area.addr.toNat + k))
  have hoffset : (BitVec.ofNat (8 * szreg w) (area.addr.toNat + k) - area.addr).setWidth 64 =
      BitVec.ofNat 64 k := by
    have hle := two_pow_xlen_le w
    apply BitVec.eq_of_toNat_eq
    rw [BitVec.toNat_setWidth, toNat_sub_ite, hva, if_pos (by omega), BitVec.toNat_ofNat,
      Nat.add_sub_cancel_left]
  rw [State.translate, if_pos (by omega), hrange, if_pos, hoffset]
  exact ⟨BitVec.le_def.mpr (by omega), BitVec.lt_def.mpr (by omega)⟩

/-- The offset does not leave the first page of the area. -/
theorem Maps.toNat_pointer (hm : m.Documented)
    (h : Maps m addr size prot caller s area s₁ s₂) :
    (area.addr + offsetOf w addr).toNat = area.addr.toNat + addr.toNat % 4096 ∧
      addr.toNat % 4096 < (request addr size).toNat := by
  have halloc := h.allocated hm
  have hfit := halloc.fit
  have hsome := toNat_pos halloc.nonzero
  have haligned := request_aligned addr size
  constructor
  · rw [BitVec.toNat_add, toNat_offsetOf, Nat.mod_eq_of_lt (by omega)]
  · omega

theorem Maps.pointer_ne (hm : m.Documented) (h : Maps m addr size prot caller s area s₁ s₂) :
    area.addr + offsetOf w addr ≠ 0 := by
  intro hnull
  have hpointer := (h.toNat_pointer hm).1
  have hstart := (h.allocated hm).start
  have hpos := vmallocStart_pos w
  have hzero : (0 : Word w).toNat = 0 := BitVec.toNat_zero
  rw [hnull] at hpointer
  omega

/-- **When a pointer is right.** -/
theorem mapped_right_iff (hm : m.Documented) (haccepted : Accepted addr size)
    (h : Maps m addr size prot caller s area s₁ s₂) :
    Right addr size s (area.addr + offsetOf w addr, s₂) ↔
      addr.toNat < 2 ^ (8 * szreg w) ∧ addr.toNat % 4096 + size.toNat ≤ 2 ^ (8 * szreg w) := by
  obtain ⟨hnonzero, hwrap⟩ := haccepted
  have halloc := h.allocated hm
  have hpos := vmallocStart_pos w
  have hstart := halloc.start
  obtain ⟨hv, hfirst⟩ := h.toNat_pointer hm
  constructor
  · intro hright
    rcases hright.outcome with ⟨hnull, -⟩ | ⟨-, hmapped⟩
    · exact absurd hnull (h.pointer_ne hm)
    · have hsize := toNat_pos hnonzero
      constructor
      · -- The first byte shows the page.
        have hbyte := hmapped 0 hsize
        rw [hv, Nat.add_zero, h.translate hm hfirst, Option.some.injEq] at hbyte
        exact (pageOf_add_offset_iff w addr).mp (hbyte.trans (BitVec.add_zero addr))
      · -- The last byte shows the size.
        by_contra hover
        have hbyte := hmapped (size.toNat - 1) (by omega)
        rw [hv, State.translate, if_neg (by omega)] at hbyte
        cases hbyte
  · rintro ⟨hlow, hle⟩
    have hoff := toNat_offsetOf w addr
    have hcover : size.toNat + addr.toNat % 4096 ≤ (request addr size).toNat := by
      rw [← hoff]
      exact le_pageAlign size (offsetOf w addr) (by omega) halloc.nonzero
    refine ⟨.inr ⟨h.pointer_ne hm, fun i hi => ?_⟩, fun hrefused => ?_⟩
    · rw [hv, Nat.add_assoc, h.translate hm (by omega), BitVec.ofNat_add, ← BitVec.add_assoc,
        (pageOf_add_offset_iff w addr).mpr hlow]
    · rcases hrefused with hzero | hover
      · exact absurd hzero hnonzero
      · omega

/-- The size of the vmalloc range. -/
theorem vmalloc_size (w : Xlen) : (vmallocEnd w).toNat + 1 = (vmallocStart w).toNat + 2 ^ 27 := by
  cases w <;> rfl

/-- No area is larger than the vmalloc range. -/
theorem Allocated.size_le {size : Word w} (h : Allocated size s area s₁) :
    size.toNat ≤ 2 ^ 27 := by
  have hsize : size.toNat ≤ area.size.toNat := BitVec.le_def.mp h.size
  have hstart := h.start
  have hstop := h.stop
  have hrange := vmalloc_size w
  omega

end Calls

/-! ## A kernel with room for one area -/

section Kernel

def State.empty : State w := ⟨∅, fun _ => none⟩

/-- A generic kernel that gives the start of the vmalloc range to the first caller, and maps
every range. -/
def oneArea (w : Xlen) : Vm w where
  getVmAreaCaller size _ s :=
    if size ≠ 0 ∧ size.toNat ≤ 2 ^ 27 ∧ s.areas = ∅ then
      (some ⟨vmallocStart w, size⟩, { s with areas := {⟨vmallocStart w, size⟩} })
    else (none, s)
  freeVmArea area s := { s with areas := s.areas.erase area }
  ioremapPageRange addr stop physAddr _ s :=
    (0, { s with pages := fun va =>
      if addr ≤ va ∧ va < stop then some (physAddr + (va - addr).setWidth 64) else s.pages va })

theorem oneArea_documented (w : Xlen) : (oneArea w).Documented where
  area size caller s area s' _ hget := by
    simp only [oneArea] at hget
    split at hget
    · next hroom =>
      obtain ⟨hnonzero, hsize, hempty⟩ := hroom
      obtain ⟨harea, rfl⟩ := Prod.mk.inj hget
      obtain rfl := Option.some.inj harea
      exact ⟨hnonzero, BitVec.le_refl _, vmallocStart_aligned w, le_rfl,
        by rw [vmalloc_size]; exact Nat.add_le_add_left hsize _, by simp [hempty], by simp [hempty]⟩
    · cases hget
  noArea size caller s s' hget := by
    simp only [oneArea] at hget
    split at hget
    · cases hget
    · obtain ⟨-, rfl⟩ := Prod.mk.inj hget
      rfl
  free _ _ := rfl
  rangeAreas _ _ _ _ _ := rfl
  range addr stop physAddr prot s s' _ _ _ _ hmap va := by
    obtain ⟨-, rfl⟩ := Prod.mk.inj hmap
    rfl

theorem oneArea_maps (addr : BitVec 64) (size : Word w) (hnonzero : request addr size ≠ 0)
    (hsize : (request addr size).toNat ≤ 2 ^ 27) :
    ∃ area s₁ s₂, Maps (oneArea w) addr size 0 0 .empty area s₁ s₂ := by
  have hget : (oneArea w).getVmAreaCaller (request addr size) 0 .empty = _ :=
    if_pos ⟨hnonzero, hsize, rfl⟩
  exact ⟨_, _, _, hget, rfl⟩

end Kernel

/-! ## When calls are right -/

section Right

variable {m : Vm w} {addr : BitVec 64} {prot caller : Word w} {s : State w} {area : VmStruct w}
  {s₁ s₂ : State w}

/-- A region that is mapped fits the registers, where 4 GB and the size of the vmalloc range are no
limits. -/
theorem Maps.fits {size : Word w} (hm : m.Documented) (haccepted : Accepted addr size)
    (h : Maps m addr size prot caller s area s₁ s₂)
    (hcond : w = .rv64 ∨ addr.toNat % 4096 + size.toNat ≤ 2 ^ 32 ∧
      (addr.toNat < 2 ^ 32 ∨ 2 ^ 27 < addr.toNat % 4096 + size.toNat)) :
    addr.toNat < 2 ^ (8 * szreg w) ∧ addr.toNat % 4096 + size.toNat ≤ 2 ^ (8 * szreg w) := by
  have hlt := addr.isLt
  have hmod := Nat.mod_le addr.toNat 4096
  have hfit := haccepted.2
  have halloc := h.allocated hm
  cases w with
  | rv64 =>
    have hxlen : 2 ^ (8 * szreg .rv64) = 2 ^ 64 := rfl
    omega
  | rv32 =>
    have hxlen : 2 ^ (8 * szreg .rv32) = 2 ^ 32 := rfl
    obtain ⟨hsum, hlow⟩ := hcond.resolve_left nofun
    have hoff := toNat_offsetOf .rv32 addr
    have hcovers := le_pageAlign size (offsetOf .rv32 addr) (by rw [hoff, hxlen]; omega)
      halloc.nonzero
    have hle : (pageAlign (size + offsetOf .rv32 addr)).toNat ≤ 2 ^ 27 := halloc.size_le
    rw [hoff] at hcovers
    omega

/-- **On RV32 a call can go wrong**: the request is small, but the region is not, or lies above
4 GB. -/
theorem oneArea_wrong {size : Word .rv32} (haccepted : Accepted addr size)
    (hwrong : addr.toNat % 4096 + size.toNat ≤ 2 ^ 32 →
      2 ^ 32 ≤ addr.toNat ∧ addr.toNat % 4096 + size.toNat ≤ 2 ^ 27) :
    ¬ Right addr size .empty (ioremapCaller (oneArea .rv32) addr size 0 0 .empty) := by
  have hpos := toNat_pos haccepted.1
  have hxlen : 2 ^ (8 * szreg .rv32) = 2 ^ 32 := rfl
  have hlt := size.isLt
  have hrequest : (request addr size).toNat =
      ((size.toNat + addr.toNat % 4096) % 2 ^ 32 + 4095) % 2 ^ 32 / 4096 * 4096 := by
    rw [request, toNat_pageAlign, BitVec.toNat_add, toNat_offsetOf]
    rfl
  have hsome : 0 < (request addr size).toNat := by omega
  have hroom : (request addr size).toNat ≤ 2 ^ 27 := by omega
  have hnonzero : request addr size ≠ 0 := by
    intro hzero
    rw [hzero] at hsome
    exact absurd hsome (by decide)
  obtain ⟨area, s₁, s₂, hmaps⟩ := oneArea_maps addr size hnonzero hroom
  rw [ioremapCaller_maps haccepted hmaps,
    mapped_right_iff (oneArea_documented _) haccepted hmaps]
  omega

end Right

/-- **No kernel makes the call wrong iff it is one of RV64, the region is refused, or it does not
exceed 4 GB with its offset and lies at an address of 32 bits or does not fit the vmalloc range.** -/
theorem ioremapCaller_right_iff (addr : BitVec 64) (size : Word w) :
    (∀ m : Vm w, m.Documented → ∀ prot caller s,
        Right addr size s (ioremapCaller m addr size prot caller s)) ↔
      w = .rv64 ∨ size = 0 ∨ 2 ^ 64 < addr.toNat + size.toNat ∨
        addr.toNat % 4096 + size.toNat ≤ 2 ^ 32 ∧
          (addr.toNat < 2 ^ 32 ∨ 2 ^ 27 < addr.toNat % 4096 + size.toNat) := by
  constructor
  · intro hall
    cases w with
    | rv64 => exact .inl rfl
    | rv32 =>
      right
      by_contra hbad
      simp only [not_or, not_and, not_lt] at hbad
      obtain ⟨hnonzero, hfit, hwrong⟩ := hbad
      exact oneArea_wrong ⟨hnonzero, hfit⟩ hwrong
        (hall (oneArea .rv32) (oneArea_documented .rv32) 0 0 .empty)
  · intro hcond m hm prot caller s
    rcases ioremapCaller_cases addr size prot caller s hm with
      hnull | ⟨haccepted, area, s₁, s₂, hmaps, heq⟩
    · exact ⟨.inl hnull, fun _ => hnull.1⟩
    · rw [heq, mapped_right_iff hm haccepted hmaps]
      refine hmaps.fits hm haccepted (hcond.imp_right fun h => ?_)
      exact (h.resolve_left haccepted.1).resolve_left (not_lt.mpr haccepted.2)

/-- A call on RV32 with a kernel that has room. -/
def call32 (addr : BitVec 64) (size : Word .rv32) : Word .rv32 × State .rv32 :=
  ioremapCaller (oneArea .rv32) addr size 0 0 .empty

/-- Registers of a device that start behind the first bytes of a page. -/
theorem ioremapCaller_right_device : Right 0x40001010 0x2000 .empty (call32 0x40001010 0x2000) :=
  (ioremapCaller_right_iff 0x40001010 0x2000).mpr (.inr (.inr (.inr (by decide)))) (oneArea .rv32)
    (oneArea_documented .rv32) 0 0 .empty

/-- **On RV32 the page at 4 GB is mapped to that at 0**, and of a region of 4 GB less a byte, at the
end of the first page, no more than a page is mapped. -/
theorem not_ioremapCaller_right :
    (call32 0x100000000 0x1000).1 = 0xb8000000 ∧
      (call32 0x100000000 0x1000).2.translate 0xb8000000 = some 0 ∧
      ¬ Right 0x100000000 0x1000 .empty (call32 0x100000000 0x1000) ∧
      (call32 0xfff 0xffffffff).1 = 0xb8000fff ∧
      (call32 0xfff 0xffffffff).2.translate 0xb8001000 = none ∧
      ¬ Right 0xfff 0xffffffff .empty (call32 0xfff 0xffffffff) := by
  refine ⟨by decide, by decide, ?_, by decide, by decide, ?_⟩
  · exact oneArea_wrong ⟨by decide, by decide⟩ fun _ => ⟨by decide, by decide⟩
  · exact oneArea_wrong ⟨by decide, by decide⟩ fun h => absurd h (by decide)

end LowriscLinux.Mm.Ioremap
