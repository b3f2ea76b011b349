import LowriscLinux.Lib.Explore
import LowriscLinux.Lib.Memory
import LowriscLinux.Mm.Pte
import LowriscLinux.Mm.Vmalloc
import Mathlib.Data.BitVec

/-!
# Reserving the boot page tables

Model of `reserve_boot_page_table` (`arch/riscv/kernel/setup.c`, lines 75-85), as `setup_bootmem`
calls it (line 116): the tables that the boot loader hands over in `sptbr` are kept from being given
out as free memory. The function goes through the tables in depth without counting the levels, and
tells tables from pages by the type of an entry.

## What models what

* `Boot`: the machine that is handed over, with physical memory as bytes, `sptbr` and
  `va_pa_offset`. `Boot.pa` and `Boot.pfnToVirt` are `__pa` and `pfn_to_virt`: the kernel reads
  physical memory through its linear mapping (`Boot.mem`).
* `Boot.entry`: `table[i]`. `pteHuge`: `pte_huge` (`arch/riscv/include/asm/pgtable.h`, lines
  191-196), a present entry of another type than `_PAGE_TYPE_TABLE` and `_PAGE_TYPE_TABLE_G`.
* `reserveBootPageTable`: the function. Its calls are nested, so the model counts the nesting
  (`fuel`) and gives `none` where that is not enough. `memblock_reserve` adds to the list of ranges.
* `Links` and `HoldsTable` say what the tables are, for any memory: the pages that the entries lead
  to from the root. `Acyclic` says that no table leads back to itself.

A physical address has the bits of a register, and a frame number is the address of its page up to
these bits. All entries of a page are read, whatever the level: the tables of RV64 have 512 of 8
bytes, and those of RV32 1024 of 4.

Results:
* `reserveBootPageTable_eq`: the function reserves what there is to explore from the root.
* **`boot_page_tables_reserved`**: for tables without a cycle, that are the pages that hold a table.
-/

namespace LowriscLinux.Mm.BootTable

open Kernel Lib Vmalloc

variable {w : Xlen}

/-! ## The code -/

/-- `_PAGE_TYPE_TABLE` and `_PAGE_TYPE_TABLE_G`. -/
def pageTypeTable : Word w := 0x00
def pageTypeTableG : Word w := 0x02

def pteHuge (pte : Word w) : Prop :=
  ptePresent pte ∧ ¬ (pte &&& pageType = pageTypeTable ∨ pte &&& pageType = pageTypeTableG)

instance (pte : Word w) : Decidable (pteHuge pte) := inferInstanceAs (Decidable (_ ∧ _))

/-- A range that `memblock_reserve` was called with. -/
structure Region (w : Xlen) where
  base : Word w
  size : Nat
  deriving DecidableEq, Repr

/-- The machine that is handed over. -/
structure Boot (w : Xlen) where
  phys : Memory (8 * szreg w)
  sptbr : Word w
  vaPaOffset : Word w

namespace Boot

variable (s : Boot w)

/-- `__pa`. -/
def pa (x : Word w) : Word w := x - s.vaPaOffset

/-- `pfn_to_virt`. -/
def pfnToVirt (pfn : Word w) : Word w := (pfn <<< pageShift) + s.vaPaOffset

/-- Memory as the kernel sees it. -/
def mem : Memory (8 * szreg w) := fun va => s.phys (va - s.vaPaOffset)

/-- `table[i]`. -/
def entry (table : Word w) (i : Nat) : Word w :=
  loadWord (szreg w) s.mem (table + BitVec.ofNat _ (szreg w * i))

/-- `reserve_boot_page_table`, with at most `fuel` nested calls. -/
def reserveBootPageTable : Nat → Word w → List (Region w) → Option (List (Region w))
  | 0, _, _ => none
  | fuel + 1, table, reserved =>
    (List.range (ptrsPerPte w)).foldlM
      (fun reserved i =>
        let pte := s.entry table i
        if ptePresent pte ∧ ¬ pteHuge pte then
          reserveBootPageTable fuel (s.pfnToVirt (ptePfn pte)) reserved
        else some reserved)
      (reserved ++ [⟨s.pa table, 2 ^ pageShift⟩])

/-- `reserve_boot_page_table(pfn_to_virt(csr_read(sptbr)))`. -/
def reserveBootPageTables (fuel : Nat) : Option (List (Region w)) :=
  s.reserveBootPageTable fuel (s.pfnToVirt s.sptbr) []

end Boot

/-! ## The tables -/

/-- The physical address of a page. -/
def framePage (pfn : Word w) : Word w := BitVec.ofNat _ (4096 * pfn.toNat)

/-- The entry is present and of type `_PAGE_TYPE_TABLE` or `_PAGE_TYPE_TABLE_G`. -/
def PointsToTable (pte : Word w) : Prop :=
  pte.getLsbD 0 = true ∧ (pte &&& pageType = pageTypeTable ∨ pte &&& pageType = pageTypeTableG)

namespace Boot

variable (s : Boot w)

/-- A table has an entry for a table in a page. -/
def Links (p q : Word w) : Prop :=
  ∃ i < ptrsPerPte w,
    let pte := loadWord (szreg w) s.phys (p + BitVec.ofNat _ (szreg w * i))
    PointsToTable pte ∧ q = framePage (pte >>> pagePfnShift)

/-- The page holds a table. -/
def HoldsTable (p : Word w) : Prop := Relation.ReflTransGen s.Links (framePage s.sptbr) p

/-- No table leads back to itself. -/
def Acyclic : Prop := ∀ p, s.HoldsTable p → ¬ Relation.TransGen s.Links p p

end Boot

/-- A byte is reserved. -/
def Reserved (reserved : List (Region w)) (a : Word w) : Prop :=
  ∃ r ∈ reserved, (a - r.base).toNat < r.size

/-- The page of a byte. -/
def pageOf (a : Word w) : Word w := (a >>> pageShift) <<< pageShift

/-! ## The code goes to the tables -/

theorem isTable_iff (pte : Word w) : ptePresent pte ∧ ¬ pteHuge pte ↔ PointsToTable pte := by
  rw [PointsToTable, ← ptePresent_iff, pteHuge]
  tauto

theorem shift_eq_framePage (pfn : Word w) : pfn <<< pageShift = framePage pfn := by
  apply BitVec.eq_of_toNat_eq
  rw [framePage, BitVec.toNat_shiftLeft, BitVec.toNat_ofNat, Nat.shiftLeft_eq, pageShift,
    Nat.mul_comm]

namespace Boot

variable (s : Boot w)

theorem mem_add (pa : Word w) : s.mem (pa + s.vaPaOffset) = s.phys pa := by
  rw [mem, BitVec.add_sub_cancel]

theorem entry_add (pa : Word w) (i : Nat) :
    s.entry (pa + s.vaPaOffset) i =
      loadWord (szreg w) s.phys (pa + BitVec.ofNat _ (szreg w * i)) := by
  refine eq_of_byteAt fun j hj => ?_
  rw [entry, byteAt_loadWord _ _ hj, byteAt_loadWord _ _ hj, ← s.mem_add]
  congr 1
  ac_rfl

/-- The table that an entry is for. -/
def child (p : Word w) (i : Nat) : Option (Word w) :=
  let pte := loadWord (szreg w) s.phys (p + BitVec.ofNat _ (szreg w * i))
  if ptePresent pte ∧ ¬ pteHuge pte then some (framePage (ptePfn pte)) else none

/-- The tables that a table leads to, in order. -/
def children (p : Word w) : List (Word w) := (List.range (ptrsPerPte w)).filterMap (s.child p)

theorem edge_children_iff (p q : Word w) : Edge s.children p q ↔ s.Links p q := by
  simp only [Edge, children, child, List.mem_filterMap, List.mem_range, Links]
  refine exists_congr fun i => and_congr_right fun _ => ?_
  rw [← isTable_iff, ptePfn]
  split
  · next htable => rw [Option.some.injEq, and_iff_right htable, eq_comm]
  · next htable => simp [htable]

/-- What is reserved for a table. -/
def region (p : Word w) : Region w := ⟨p, 2 ^ pageShift⟩

/-- The body of the loop over the entries. -/
theorem body_eq (visit : Word w → List (Region w) → Option (List (Region w))) (pa : Word w) :
    (fun (reserved : List (Region w)) (i : Nat) =>
      let pte := s.entry (pa + s.vaPaOffset) i
      if ptePresent pte ∧ ¬ pteHuge pte then visit (s.pfnToVirt (ptePfn pte)) reserved
      else some reserved) =
    fun reserved i =>
      (s.child pa i).elim (some reserved) fun p => visit (p + s.vaPaOffset) reserved := by
  funext reserved i
  simp only [s.entry_add, child]
  split
  · rw [pfnToVirt, shift_eq_framePage]
    rfl
  · rfl

/-- **The function reserves what there is to explore from a table.** -/
theorem reserveBootPageTable_eq (fuel : Nat) (pa : Word w) (reserved : List (Region w)) :
    s.reserveBootPageTable fuel (pa + s.vaPaOffset) reserved =
      (explore s.children fuel pa).map fun l => reserved ++ l.map region := by
  induction fuel generalizing pa reserved with
  | zero => rfl
  | succ fuel ih =>
    have hloop := foldlM_children (fun p found => ih p found) (s.child pa)
      (List.range (ptrsPerPte w)) (reserved ++ [region pa])
    rw [reserveBootPageTable, s.body_eq, Boot.pa, BitVec.add_sub_cancel, explore, children]
    refine hloop.trans ?_
    cases ((List.range (ptrsPerPte w)).filterMap (s.child pa)).mapM (explore s.children fuel) with
    | none => rfl
    | some ls => exact congrArg some (List.append_assoc reserved [region pa] _)

end Boot

/-! ## The reserved bytes -/

theorem two_pow_xlen_mod (w : Xlen) : 2 ^ (8 * szreg w) % 4096 = 0 := by cases w <;> decide

theorem toNat_framePage_mod (pfn : Word w) : (framePage pfn).toNat % 4096 = 0 := by
  have hmod := two_pow_xlen_mod w
  rw [framePage, BitVec.toNat_ofNat, Nat.mod_mod_of_dvd _ (Nat.dvd_of_mod_eq_zero hmod),
    Nat.mul_mod_right]

theorem toNat_pageOf (a : Word w) : (pageOf a).toNat = a.toNat / 4096 * 4096 := by
  have hlt := a.isLt
  rw [pageOf, BitVec.toNat_shiftLeft, BitVec.toNat_ushiftRight, pageShift, Nat.shiftLeft_eq,
    Nat.shiftRight_eq_div_pow, Nat.mod_eq_of_lt (by omega)]

/-- A page covers the bytes that it is the page of. -/
theorem covers_iff {p : Word w} (hp : p.toNat % 4096 = 0) (a : Word w) :
    (a - p).toNat < 2 ^ pageShift ↔ pageOf a = p := by
  have hmod := two_pow_xlen_mod w
  have ha := a.isLt
  have hlt := p.isLt
  rw [toNat_sub_ite, BitVec.toNat_eq, toNat_pageOf, pageShift]
  split <;> omega

/-- A table of the boot loader is in a page. -/
theorem HoldsTable.aligned (s : Boot w) {p : Word w} (h : s.HoldsTable p) :
    p.toNat % 4096 = 0 := by
  rcases Relation.ReflTransGen.cases_tail h with rfl | ⟨q, _, i, _, _, rfl⟩
  · exact toNat_framePage_mod _
  · exact toNat_framePage_mod _

/-- **The boot page tables are reserved completely.** If no table leads back to itself, the function
ends, and a byte is reserved iff its page holds a table that the root leads to. -/
theorem boot_page_tables_reserved (s : Boot w) (hacyclic : s.Acyclic) :
    ∃ fuel reserved, (∀ fuel' ≥ fuel, s.reserveBootPageTables fuel' = some reserved) ∧
      ∀ a, Reserved reserved a ↔ s.HoldsTable (pageOf a) := by
  have hedge : Edge s.children = s.Links := by
    funext p q
    exact propext (s.edge_children_iff p q)
  have : Finite (Word w) := Finite.of_equiv _ (BitVec.equivFin).toEquiv.symm
  obtain ⟨fuel, l, hl⟩ := exists_explore s.children (a := framePage s.sptbr) (by
    rw [hedge]
    exact hacyclic)
  have hmem : ∀ p, p ∈ l ↔ s.HoldsTable p := fun p => by
    rw [mem_explore_iff hl, hedge]
    rfl
  refine ⟨fuel, l.map Boot.region, fun fuel' hle => ?_, fun a => ?_⟩
  · rw [Boot.reserveBootPageTables, Boot.pfnToVirt, shift_eq_framePage,
      s.reserveBootPageTable_eq, explore_mono hle hl]
    rfl
  · constructor
    · rintro ⟨r, hr, hlt⟩
      obtain ⟨p, hp, rfl⟩ := List.mem_map.mp hr
      have hp' := (hmem p).mp hp
      rw [(covers_iff (HoldsTable.aligned s hp') a).mp hlt]
      exact hp'
    · intro hpage
      refine ⟨_, List.mem_map_of_mem ((hmem _).mpr hpage), ?_⟩
      exact (covers_iff (HoldsTable.aligned s hpage) a).mpr rfl

/-! ## Two tables -/

/-- The bytes of the entries in a page: those of the first page are for the second one as a table,
and those of the second one map the third one. -/
def entryByte : Nat → Nat → Byte
  | 1, 0 => 0x01
  | 1, 1 => 0x08
  | 2, 0 => 0x0B
  | 2, 1 => 0x0C
  | _, _ => 0

def twoTables : Boot .rv32 where
  phys a := entryByte (a.toNat / 4096) (a.toNat % 4)
  sptbr := 1
  vaPaOffset := 0x80000000

theorem twoTables_entry {n i : Nat} (hn : n < 4) (hi : i < ptrsPerPte .rv32) :
    loadWord (szreg .rv32) twoTables.phys
        (BitVec.ofNat _ (4096 * n) + BitVec.ofNat _ (szreg .rv32 * i)) =
      ofBytes (szreg .rv32) (entryByte n) := by
  refine eq_of_byteAt fun j hj => ?_
  have hi' : i < 1024 := hi
  have hj' : j < 4 := hj
  have hval : (BitVec.ofNat 32 (4096 * n) + BitVec.ofNat 32 (4 * i) + BitVec.ofNat 32 j).toNat =
      4096 * n + 4 * i + j := by
    simp only [BitVec.toNat_add, BitVec.toNat_ofNat]
    omega
  rw [byteAt_loadWord _ _ hj, byteAt_ofBytes _ hj]
  show entryByte _ _ = _
  rw [show (BitVec.ofNat _ (4096 * n) + BitVec.ofNat _ (szreg .rv32 * i) + BitVec.ofNat _ j :
      Word .rv32).toNat = _ from hval]
  congr 1 <;> omega

theorem twoTables_links {p q : Word .rv32} (hp : p = 0x1000 ∨ p = 0x2000)
    (h : twoTables.Links p q) : p = 0x1000 ∧ q = 0x2000 := by
  obtain ⟨i, hi, htable, rfl⟩ := h
  rcases hp with rfl | rfl
  · have hentry := twoTables_entry (n := 1) (by decide) hi
    refine ⟨rfl, ?_⟩
    show framePage (loadWord _ _ (BitVec.ofNat _ (4096 * 1) + _) >>> _) = _
    rw [hentry]
    decide
  · have hentry := twoTables_entry (n := 2) (by decide) hi
    have hleaf : ¬ PointsToTable (ofBytes (szreg .rv32) (entryByte 2) : Word .rv32) := by
      rw [PointsToTable]
      decide
    exact absurd (hentry ▸ htable) hleaf

theorem twoTables_acyclic : twoTables.Acyclic := by
  have hpages : ∀ p, twoTables.HoldsTable p → p = 0x1000 ∨ p = 0x2000 := by
    intro p hp
    induction hp with
    | refl => exact Or.inl rfl
    | tail _ hlink ih => exact Or.inr (twoTables_links ih hlink).2
  intro p hp hcycle
  obtain ⟨q, hlink, hrest⟩ := Relation.TransGen.head'_iff.mp hcycle
  obtain ⟨rfl, rfl⟩ := twoTables_links (hpages p hp) hlink
  rcases Relation.ReflTransGen.cases_head hrest with heq | ⟨r, hlink', _⟩
  · cases heq
  · cases (twoTables_links (Or.inr rfl) hlink').1

theorem boot_page_tables_reserved_twoTables :
    ∃ fuel reserved, (∀ fuel' ≥ fuel, twoTables.reserveBootPageTables fuel' = some reserved) ∧
      ∀ a, Reserved reserved a ↔ twoTables.HoldsTable (pageOf a) :=
  boot_page_tables_reserved twoTables twoTables_acyclic

end LowriscLinux.Mm.BootTable
