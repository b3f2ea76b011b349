import LowriscLinux.Mm.AddressSpace
import Mathlib.Data.List.ReduceOption

/-!
# The memory at boot

Model of how the kernel learns which memory it has: `early_mem`, `setup_bootmem` and `setup_initrd`
(`arch/riscv/kernel/setup.c`), `zone_sizes_init` (`arch/riscv/mm/init.c`), and the frames and linear
addresses of `arch/riscv/include/asm/page.h`.

## What models what

* `earlyMem`: `setup.c`, lines 63-73. What `memparse` makes of the value is its argument, for any
  text; it may be missing. `memSize` runs it for the options of a command line, one after the other.
* `setupBootmem`: lines 87-109. A block that is not aligned to `PMD_SIZE` is a `BUG_ON` (`none`,
  lines 94 and 95), and a smaller `mem_size` cuts `info.size` (lines 102-104, `limitedSize`).
* `Setup`: the variables that it leaves, `va_pa_offset`, `pfn_base`, `max_mapnr` and `max_low_pfn`.
* `Setup.setupInitrd`: lines 38-57, behind the override by a built-in ramdisk (lines 33-36).
* `Setup.memory`: `zone_sizes_init` without `CONFIG_NUMA`, `init.c`, line 41.
* `Setup.pfnValid`, `Setup.virtAddrValid`, `Setup.pa` and `Setup.va`: the macros of `page.h`.

`unsigned long` has the bits of a register, `phys_addr_t` and the value of a `mem=` option have 64
bits. The machine mode describes one block of memory (`sbi_query_memory`), which lies in the address
space.

The linear mapping starts at `PAGE_OFFSET` and is as long as the memory; nothing looks whether the
address space is.

Results:
* `pfnValid_iff`, `toNat_memory`: the valid frames, and the memory the zones get, are the memory.
* **`linear_map_iff`**: each valid frame has an address from `PAGE_OFFSET` on, and these addresses
  are the valid ones, iff the memory is no longer than the address space above `PAGE_OFFSET`.
* **`mem_limit_iff`**: when `mem=` options have the effect of the last one.
* **`initrd_kept_iff`**: when the initial ramdisks that are kept are those that lie in the memory.

Out of scope: the reservation of the kernel itself (line 115), and `CONFIG_NUMA`.
-/

namespace LowriscLinux.Mm.Bootmem

open Kernel Lib Vmalloc
open AddressSpace (pmdRegionShift)

variable {w : Xlen}

/-! ## The code -/

/-- `PMD_SIZE` and `PMD_MASK`. -/
def pmdSize (w : Xlen) : Nat := 2 ^ pmdRegionShift w
def pmdMask : Word w := ~~~BitVec.ofNat _ (pmdSize w - 1)

/-- `memory_block_info`, as `sbi_query_memory` fills it in. -/
structure MemoryBlock (w : Xlen) where
  base : Word w
  size : Word w
  fits : base.toNat + size.toNat ≤ 2 ^ (8 * szreg w)

/-- `early_mem`: the result and `mem_size`. The argument is what `memparse` makes of the value, if
there is one. -/
def earlyMem (w : Xlen) (memSize : BitVec 64) : Option (BitVec 64) → Int × BitVec 64
  | none => (-22, memSize)
  | some value =>
    let memSize := value &&& (pmdMask : Word w).setWidth 64
    if memSize = 0 then (-22, memSize) else (0, memSize)

/-- `mem_size` after the options of a command line. -/
def memSize (w : Xlen) (options : List (Option (BitVec 64))) : BitVec 64 :=
  options.foldl (fun memSize option => (earlyMem w memSize option).2) 0

/-- The variables that `setup_bootmem` leaves. -/
structure Setup (w : Xlen) where
  vaPaOffset : Word w
  pfnBase : Word w
  maxMapnr : Word w
  maxLowPfn : Word w
  /-- `info.size` -/
  size : Word w

/-- `info.size` after the limit. -/
def limitedSize (info : MemoryBlock w) (memSize : BitVec 64) : Word w :=
  if memSize ≠ 0 ∧ memSize < info.size.setWidth 64 then memSize.setWidth _ else info.size

/-- `setup_bootmem`, up to `setup_initrd`; `none` is a `BUG_ON`. -/
def setupBootmem (info : MemoryBlock w) (memSize : BitVec 64) : Option (Setup w) :=
  if info.base &&& ~~~pmdMask ≠ 0 ∨ info.size &&& ~~~pmdMask ≠ 0 then none
  else
    let size := limitedSize info memSize
    some {
      vaPaOffset := pageOffset w - info.base
      pfnBase := info.base >>> pageShift
      maxMapnr := size >>> pageShift
      maxLowPfn := (info.base + size) >>> pageShift
      size := size }

namespace Setup

variable (s : Setup w)

/-- `__pa` and `__va`. -/
def pa (x : Word w) : Word w := x - s.vaPaOffset
def va (x : BitVec 64) : Word w := x.setWidth _ + s.vaPaOffset

/-- `PFN_PHYS`. -/
def pfnPhys (pfn : Word w) : BitVec 64 := pfn.setWidth 64 <<< pageShift

def virtToPfn (vaddr : Word w) : Word w := s.pa vaddr >>> pageShift
def pfnToVirt (pfn : Word w) : Word w := s.va (pfnPhys pfn)

def pfnValid (pfn : Word w) : Prop := s.pfnBase ≤ pfn ∧ pfn - s.pfnBase < s.maxMapnr

instance (pfn : Word w) : Decidable (s.pfnValid pfn) := inferInstanceAs (Decidable (_ ∧ _))

def virtAddrValid (vaddr : Word w) : Prop := s.pfnValid (s.virtToPfn vaddr)

/-- What `zone_sizes_init` calls `memblock_add_node` with. -/
def memory : BitVec 64 × BitVec 64 := (pfnPhys s.pfnBase, pfnPhys s.maxMapnr)

/-- `setup_initrd`: `initrd_start` and `initrd_end`, and the range that is reserved. The arguments are
the range that lines 34 to 37 leave, that of the built-in `__initramfs_start` if there is one. -/
def setupInitrd (start stop : Word w) : (Word w × Word w) × Option (Word w × Word w) :=
  if stop ≤ start then ((0, 0), none)
  else if pfnPhys s.maxLowPfn < (s.pa stop).setWidth 64 then ((0, 0), none)
  else ((start, stop), some (s.pa start, stop - start))

end Setup

/-! ## Numbers -/

/-- What there is of the address space from `PAGE_OFFSET` on. -/
def linearSize (w : Xlen) : Nat := 2 ^ (8 * szreg w) - (pageOffset w).toNat

theorem dvd_pmdSize (w : Xlen) : 4096 ∣ pmdSize w := by
  cases w with
  | rv64 => exact ⟨2 ^ 9, rfl⟩
  | rv32 => exact ⟨2 ^ 10, rfl⟩

theorem dvd_linearSize (w : Xlen) : 4096 ∣ linearSize w := by
  cases w with
  | rv64 => exact ⟨2 ^ 19, rfl⟩
  | rv32 => exact ⟨2 ^ 18, rfl⟩

theorem pmdRegionShift_le (w : Xlen) : pmdRegionShift w ≤ 8 * szreg w := by cases w <;> decide

theorem and_not_pmdMask_iff (x : Word w) : x &&& ~~~pmdMask = 0 ↔ pmdSize w ∣ x.toNat := by
  rw [pmdMask, BitVec.not_not, BitVec.toNat_eq, pmdSize, toNat_and_mask _ (pmdRegionShift_le w)]
  exact Nat.dvd_iff_mod_eq_zero.symm

theorem toNat_shift (x : Word w) : (x >>> pageShift).toNat = x.toNat / 4096 := by
  rw [BitVec.toNat_ushiftRight, Nat.shiftRight_eq_div_pow, pageShift]

theorem toNat_pfnPhys {pfn : Word w} (h : pfn.toNat * 4096 < 2 ^ (8 * szreg w)) :
    (Setup.pfnPhys pfn).toNat = pfn.toNat * 4096 := by
  have hle : 2 ^ (8 * szreg w) ≤ 2 ^ 64 :=
    Nat.pow_le_pow_right (by decide) (by cases w <;> decide)
  rw [Setup.pfnPhys, BitVec.toNat_shiftLeft, BitVec.toNat_setWidth, Nat.shiftLeft_eq, pageShift]
  rw [Nat.mod_eq_of_lt (a := pfn.toNat) (by omega)]
  exact Nat.mod_eq_of_lt (by omega)

theorem xlen_le (w : Xlen) : 8 * szreg w ≤ 64 := by cases w <;> decide

/-- What is left of the value of a `mem=` option. -/
def asked (w : Xlen) (value : BitVec 64) : Nat :=
  value.toNat % 2 ^ (8 * szreg w) / pmdSize w * pmdSize w

theorem toNat_asked (w : Xlen) (value : BitVec 64) :
    (value &&& (pmdMask : Word w).setWidth 64).toNat = asked w value := by
  have hmask : value &&& (pmdMask : Word w).setWidth 64 =
      (value.setWidth (8 * szreg w) &&& pmdMask).setWidth 64 := by
    ext i hi
    by_cases hw : i < 8 * szreg w
    · simp [hw, hi]
    · simp [BitVec.getLsbD_of_ge _ _ (Nat.le_of_not_lt hw)]
  have hle := Nat.pow_le_pow_right (by decide : 0 < 2) (xlen_le w)
  have hlt := (value.setWidth (8 * szreg w) &&& pmdMask : Word w).isLt
  rw [hmask, BitVec.toNat_setWidth, Nat.mod_eq_of_lt (hlt.trans_le hle), pmdMask, pmdSize,
    toNat_and_not_mask, BitVec.toNat_setWidth, asked, pmdSize]

/-- The last value of the options is what `mem_size` is made of. -/
theorem memSize_eq (w : Xlen) (options : List (Option (BitVec 64))) :
    (memSize w options).toNat = (options.reduceOption.getLast?.map (asked w)).getD 0 := by
  induction options using List.reverseRecOn with
  | nil => rfl
  | append_singleton options option ih =>
    rw [memSize, List.foldl_concat, ← memSize, List.reduceOption_append]
    cases option with
    | none =>
      rw [List.reduceOption_cons_of_none, List.reduceOption_nil, List.append_nil]
      exact ih
    | some value =>
      rw [List.reduceOption_cons_of_some, List.reduceOption_nil, List.getLast?_concat]
      have hmem : (earlyMem w (memSize w options) (some value)).2 =
          value &&& (pmdMask : Word w).setWidth 64 := by
        rw [earlyMem]
        exact (apply_ite Prod.snd _ _ _).trans (ite_self _)
      rw [hmem, toNat_asked]
      rfl

theorem dvd_memSize (w : Xlen) (options : List (Option (BitVec 64))) :
    pmdSize w ∣ (memSize w options).toNat := by
  rw [memSize_eq]
  cases options.reduceOption.getLast? with
  | none => exact Nat.dvd_zero _
  | some value => exact Nat.dvd_mul_left _ _

theorem toNat_limitedSize (info : MemoryBlock w) (memSize : BitVec 64) :
    (limitedSize info memSize).toNat =
      if memSize.toNat ≠ 0 ∧ memSize.toNat < info.size.toNat then memSize.toNat
      else info.size.toNat := by
  have hle := Nat.pow_le_pow_right (by decide : 0 < 2) (xlen_le w)
  have hinfo := info.size.isLt
  have hwide : (info.size.setWidth 64).toNat = info.size.toNat := by
    rw [BitVec.toNat_setWidth, Nat.mod_eq_of_lt (by omega)]
  have hiff : memSize ≠ 0 ∧ memSize < info.size.setWidth 64 ↔
      memSize.toNat ≠ 0 ∧ memSize.toNat < info.size.toNat := by
    rw [BitVec.lt_def, hwide, Ne, BitVec.toNat_eq]
    rfl
  rw [limitedSize, apply_ite BitVec.toNat]
  by_cases hlimit : memSize.toNat ≠ 0 ∧ memSize.toNat < info.size.toNat
  · rw [if_pos (hiff.mpr hlimit), if_pos hlimit, BitVec.toNat_setWidth,
      Nat.mod_eq_of_lt (by omega)]
  · rw [if_neg (mt hiff.mp hlimit), if_neg hlimit]

/-- What `setup_bootmem` knows of the memory. -/
structure Setup.Describes (s : Setup w) (info : MemoryBlock w) : Prop where
  base : 4096 ∣ info.base.toNat
  size : 4096 ∣ s.size.toNat
  fits : info.base.toNat + s.size.toNat ≤ 2 ^ (8 * szreg w)
  vaPaOffset : s.vaPaOffset = pageOffset w - info.base
  pfnBase : s.pfnBase.toNat = info.base.toNat / 4096
  maxMapnr : s.maxMapnr.toNat = s.size.toNat / 4096
  maxLowPfn : s.maxLowPfn = (info.base + s.size) >>> pageShift

theorem setupBootmem_size {info : MemoryBlock w} {memSize : BitVec 64} {s : Setup w}
    (hs : setupBootmem info memSize = some s) : s.size = limitedSize info memSize := by
  rw [setupBootmem] at hs
  split_ifs at hs
  rw [← Option.some.inj hs]

theorem setupBootmem_describes {info : MemoryBlock w} {options : List (Option (BitVec 64))}
    {s : Setup w} (hs : setupBootmem info (memSize w options) = some s) : s.Describes info := by
  have hsize := setupBootmem_size hs
  have hmem := (dvd_pmdSize w).trans (dvd_memSize w options)
  have hfits := info.fits
  rw [setupBootmem] at hs
  split_ifs at hs with hbug
  push Not at hbug
  rw [and_not_pmdMask_iff, and_not_pmdMask_iff] at hbug
  have hinfo := (dvd_pmdSize w).trans hbug.2
  obtain rfl := Option.some.inj hs
  refine ⟨(dvd_pmdSize w).trans hbug.1, ?_, ?_, rfl, toNat_shift _, toNat_shift _, rfl⟩
  · rw [toNat_limitedSize]
    split_ifs
    · exact hmem
    · exact hinfo
  · rw [toNat_limitedSize]
    split_ifs <;> omega

/-! ## Frames and addresses -/

theorem pageOffset_add (w : Xlen) : (pageOffset w).toNat + linearSize w = 2 ^ (8 * szreg w) :=
  Nat.add_sub_cancel' (pageOffset w).isLt.le

theorem linearSize_pos (w : Xlen) : 1 < linearSize w := by cases w <;> decide

theorem four_thousand_dvd (w : Xlen) : 4096 ∣ 2 ^ (8 * szreg w) :=
  pow_dvd_pow 2 (by cases w <;> decide : 12 ≤ 8 * szreg w)

variable {info : MemoryBlock w} {s : Setup w}

/-- The valid frames are those of the memory. -/
theorem pfnValid_iff (h : s.Describes info) (pfn : Word w) : s.pfnValid pfn ↔
    info.base.toNat ≤ pfn.toNat * 4096 ∧ pfn.toNat * 4096 < info.base.toNat + s.size.toNat := by
  have hbase := h.pfnBase
  have hmapnr := h.maxMapnr
  obtain ⟨b, hb⟩ := h.base
  obtain ⟨k, hk⟩ := h.size
  rw [hb, Nat.mul_div_cancel_left _ (by decide)] at hbase
  rw [hk, Nat.mul_div_cancel_left _ (by decide)] at hmapnr
  rw [Setup.pfnValid, BitVec.le_def, BitVec.lt_def, hbase, hmapnr, hb, hk]
  constructor
  · rintro ⟨hle, hlt⟩
    rw [BitVec.toNat_sub_of_le (by rw [BitVec.le_def, hbase]; exact hle), hbase] at hlt
    omega
  · rintro ⟨hle, hlt⟩
    have hle' : b ≤ pfn.toNat := by omega
    refine ⟨hle', ?_⟩
    rw [BitVec.toNat_sub_of_le (by rw [BitVec.le_def, hbase]; exact hle'), hbase]
    omega

/-- The memory that the zones get is the one there is. -/
theorem toNat_memory (h : s.Describes info) :
    s.memory.1.toNat = info.base.toNat ∧ s.memory.2.toNat = s.size.toNat := by
  have hbase := info.base.isLt
  have hsize := s.size.isLt
  have hb := Nat.div_mul_cancel h.base
  have hk := Nat.div_mul_cancel h.size
  rw [Setup.memory]
  constructor
  · rw [toNat_pfnPhys (by rw [h.pfnBase, hb]; exact hbase), h.pfnBase, hb]
  · rw [toNat_pfnPhys (by rw [h.maxMapnr, hk]; exact hsize), h.maxMapnr, hk]

/-- `__pa` and `__va` shift by the base of the memory. -/
theorem pa_eq (h : s.Describes info) (x : Word w) : s.pa x = info.base + (x - pageOffset w) := by
  rw [Setup.pa, h.vaPaOffset]
  grind

theorem va_eq (h : s.Describes info) (x : BitVec 64) :
    s.va x = pageOffset w + (x.setWidth _ - info.base) := by
  rw [Setup.va, h.vaPaOffset]
  grind

/-- An address is valid by its distance from `PAGE_OFFSET`. -/
theorem virtAddrValid_iff (h : s.Describes info) (x : Word w) :
    s.virtAddrValid x ↔ (x - pageOffset w).toNat < s.size.toNat := by
  have hfits := h.fits
  have hdistance := (x - pageOffset w).isLt
  have hsum := toNat_add_ite info.base (x - pageOffset w)
  obtain ⟨b, hb⟩ := h.base
  obtain ⟨k, hk⟩ := h.size
  rw [Setup.virtAddrValid, pfnValid_iff h, Setup.virtToPfn, toNat_shift, pa_eq h]
  split_ifs at hsum with hwrap
  · omega
  · omega

/-- Where a valid frame is, and that it wraps where the address space ends. -/
theorem toNat_pfnToVirt (h : s.Describes info) {pfn : Word w} (hpfn : s.pfnValid pfn) :
    (s.pfnToVirt pfn).toNat =
      if (pageOffset w).toNat + (pfn.toNat * 4096 - info.base.toNat) < 2 ^ (8 * szreg w) then
        (pageOffset w).toNat + (pfn.toNat * 4096 - info.base.toNat)
      else (pageOffset w).toNat + (pfn.toNat * 4096 - info.base.toNat) - 2 ^ (8 * szreg w) := by
  have hfits := h.fits
  rw [pfnValid_iff h] at hpfn
  have hphys : (Setup.pfnPhys pfn).toNat = pfn.toNat * 4096 := toNat_pfnPhys (by omega)
  have hnarrow : ((Setup.pfnPhys pfn).setWidth (8 * szreg w)).toNat = pfn.toNat * 4096 := by
    rw [BitVec.toNat_setWidth, hphys, Nat.mod_eq_of_lt (by omega)]
  have hdistance : ((Setup.pfnPhys pfn).setWidth (8 * szreg w) - info.base).toNat =
      pfn.toNat * 4096 - info.base.toNat := by
    rw [BitVec.toNat_sub_of_le (by rw [BitVec.le_def, hnarrow]; exact hpfn.1), hnarrow]
  rw [Setup.pfnToVirt, va_eq h, toNat_add_ite, hdistance]

/-- The frame of the address of a valid frame is the frame. -/
theorem virtToPfn_pfnToVirt (h : s.Describes info) {pfn : Word w} (hpfn : s.pfnValid pfn) :
    s.virtToPfn (s.pfnToVirt pfn) = pfn := by
  have hfits := h.fits
  rw [pfnValid_iff h] at hpfn
  have hphys : (Setup.pfnPhys pfn).toNat = pfn.toNat * 4096 := toNat_pfnPhys (by omega)
  have hback : s.pa (s.pfnToVirt pfn) = (Setup.pfnPhys pfn).setWidth (8 * szreg w) := by
    rw [Setup.pfnToVirt, Setup.pa, Setup.va, BitVec.add_sub_cancel]
  apply BitVec.eq_of_toNat_eq
  rw [Setup.virtToPfn, hback, toNat_shift, BitVec.toNat_setWidth, hphys,
    Nat.mod_eq_of_lt (by omega), Nat.mul_div_cancel _ (by decide)]

theorem pageOffset_le_iff (h : s.Describes info) :
    (∀ pfn, s.pfnValid pfn → pageOffset w ≤ s.pfnToVirt pfn) ↔ s.size.toNat ≤ linearSize w := by
  have hfits := h.fits
  have hadd := pageOffset_add w
  constructor
  · intro hall
    by_contra hlong
    -- the frame whose address is past the end of the address space
    obtain ⟨b, hb⟩ := h.base
    obtain ⟨k, hk⟩ := dvd_linearSize w
    have hpos := linearSize_pos w
    let pfn : Word w := BitVec.ofNat _ (b + k)
    have hnat : pfn.toNat = b + k := by
      rw [BitVec.toNat_ofNat, Nat.mod_eq_of_lt (by omega)]
    have hvalid : s.pfnValid pfn := by
      rw [pfnValid_iff h]
      omega
    have hle := hall pfn hvalid
    rw [BitVec.le_def, toNat_pfnToVirt h hvalid, if_neg (by omega)] at hle
    have hsmall : linearSize w < 2 ^ (8 * szreg w) := by cases w <;> decide
    omega
  · intro hshort pfn hpfn
    have hframe := (pfnValid_iff h pfn).mp hpfn
    rw [BitVec.le_def, toNat_pfnToVirt h hpfn, if_pos (by omega)]
    exact Nat.le_add_right _ _

theorem virtAddrValid_range_iff (h : s.Describes info) :
    (∀ x, s.virtAddrValid x ↔
      (pageOffset w).toNat ≤ x.toNat ∧ x.toNat < (pageOffset w).toNat + s.size.toNat) ↔
    s.size.toNat ≤ linearSize w := by
  have hadd := pageOffset_add w
  constructor
  · intro hall
    by_contra hlong
    have hzero := hall 0
    rw [virtAddrValid_iff h, toNat_sub_ite] at hzero
    have hpos : 0 < (pageOffset w).toNat := by cases w <;> decide
    rw [if_neg (by simpa using hpos.ne')] at hzero
    have hval : (0 : Word w).toNat = 0 := rfl
    omega
  · intro hshort x
    have hx := x.isLt
    rw [virtAddrValid_iff h, toNat_sub_ite]
    split_ifs <;> omega

/-- **The linear mapping.** The frame of the address of a valid frame is always that frame. Every
valid frame has an address of the kernel iff the memory is no longer than the address space from
`PAGE_OFFSET` on, and the valid addresses are those of the memory iff it is. -/
theorem linear_map_iff {options : List (Option (BitVec 64))}
    (hs : setupBootmem info (memSize w options) = some s) :
    (∀ pfn, s.pfnValid pfn → s.virtToPfn (s.pfnToVirt pfn) = pfn) ∧
    ((∀ pfn, s.pfnValid pfn → pageOffset w ≤ s.pfnToVirt pfn) ↔
      s.size.toNat ≤ linearSize w) ∧
    ((∀ x, s.virtAddrValid x ↔
        (pageOffset w).toNat ≤ x.toNat ∧ x.toNat < (pageOffset w).toNat + s.size.toNat) ↔
      s.size.toNat ≤ linearSize w) := by
  have h := setupBootmem_describes hs
  exact ⟨fun pfn hpfn => virtToPfn_pfnToVirt h hpfn, pageOffset_le_iff h,
    virtAddrValid_range_iff h⟩

/-- Memory of 4 GiB on a 64-bit machine: its upper half has no linear addresses. -/
theorem linear_map_iff_long :
    ∃ (info : MemoryBlock .rv64) (s : Setup .rv64), setupBootmem info (memSize .rv64 []) = some s ∧
      ¬ ∀ pfn, s.pfnValid pfn → pageOffset .rv64 ≤ s.pfnToVirt pfn := by
  let info : MemoryBlock .rv64 := ⟨0x80000000#64, 0x100000000#64, by decide⟩
  obtain ⟨s, hs⟩ := Option.isSome_iff_exists.mp
    (by decide : (setupBootmem info (memSize .rv64 [])).isSome)
  refine ⟨info, s, hs, ?_⟩
  rw [(linear_map_iff hs).2.1, setupBootmem_size hs]
  decide

/-! ## The limit -/

theorem pmdSize_pos (w : Xlen) : 0 < pmdSize w := Nat.two_pow_pos _

theorem pmdSize_dvd_pow (w : Xlen) : pmdSize w ∣ 2 ^ (8 * szreg w) :=
  pow_dvd_pow 2 (pmdRegionShift_le w)

/-- A `mem=` option of less than `PMD_SIZE` is no limit. -/
theorem asked_eq_zero {value : BitVec 64} (h : value.toNat < pmdSize w) : asked w value = 0 := by
  rw [asked, Nat.div_eq_of_lt ((Nat.mod_le _ _).trans_lt h), Nat.zero_mul]

/-- The memory that is used, by the last option. -/
theorem size_eq_ite {options : List (Option (BitVec 64))}
    (hs : setupBootmem info (memSize w options) = some s) {value : BitVec 64}
    (hlast : options.reduceOption.getLast? = some value) :
    s.size.toNat = if asked w value ≠ 0 ∧ asked w value < info.size.toNat then asked w value
      else info.size.toNat := by
  rw [setupBootmem_size hs, toNat_limitedSize, memSize_eq, hlast, Option.map_some, Option.getD_some]

/-- **The limit.** The kernel uses no more than the last `mem=` option asks for, rounded down, and
than there is, iff the option asks for at least `PMD_SIZE` and its value fits a register; a value
that does not must leave nothing in a register, or no less than there is. After an option of less than
`PMD_SIZE` all memory is used, whatever the options before it were. -/
theorem mem_limit_iff {options : List (Option (BitVec 64))}
    (hs : setupBootmem info (memSize w options) = some s) {value : BitVec 64}
    (hlast : options.reduceOption.getLast? = some value) :
    (s.size.toNat = min info.size.toNat (value.toNat / pmdSize w * pmdSize w) ↔
      (pmdSize w ≤ value.toNat ∧ value.toNat < 2 ^ (8 * szreg w)) ∨
      (2 ^ (8 * szreg w) ≤ value.toNat ∧
        (asked w value = 0 ∨ info.size.toNat ≤ asked w value)) ∨
      info.size.toNat = 0) ∧
    (value.toNat < pmdSize w → s.size = info.size) := by
  have hsize := size_eq_ite hs hlast
  refine ⟨?_, fun hsmall => BitVec.eq_of_toNat_eq ?_⟩
  swap
  · rw [hsize, asked_eq_zero hsmall, if_neg (fun h => h.1 rfl)]
  have hinfo := info.size.isLt
  have hpos := pmdSize_pos w
  rw [hsize]
  by_cases hfits : value.toNat < 2 ^ (8 * szreg w)
  · have hasked : asked w value = value.toNat / pmdSize w * pmdSize w := by
      rw [asked, Nat.mod_eq_of_lt hfits]
    have hzero : asked w value = 0 ↔ value.toNat < pmdSize w := by
      rw [hasked, Nat.mul_eq_zero, Nat.div_eq_zero_iff]
      omega
    rw [← hasked]
    split_ifs with hlimit <;> omega
  · have hge : 2 ^ (8 * szreg w) ≤ value.toNat / pmdSize w * pmdSize w := by
      rw [← Nat.div_mul_cancel (pmdSize_dvd_pow w)]
      exact Nat.mul_le_mul_right _ (Nat.div_le_div_right (Nat.le_of_not_lt hfits))
    rw [min_eq_left (by omega)]
    split_ifs with hlimit <;> omega

/-- An option of less than `PMD_SIZE` takes an earlier one back. -/
theorem mem_limit_iff_small :
    ∃ (info : MemoryBlock .rv64) (limited s : Setup .rv64),
      setupBootmem info (memSize .rv64 [some 0x40000000#64]) = some limited ∧
      limited.size = 0x40000000 ∧
      setupBootmem info (memSize .rv64 [some 0x40000000#64, some 0x100000#64]) = some s ∧
      s.size = info.size ∧
      s.size.toNat ≠ min info.size.toNat (0x100000 / pmdSize .rv64 * pmdSize .rv64) := by
  let info : MemoryBlock .rv64 := ⟨0x80000000#64, 0x80000000#64, by decide⟩
  obtain ⟨limited, hlimited⟩ := Option.isSome_iff_exists.mp
    (by decide : (setupBootmem info (memSize .rv64 [some 0x40000000#64])).isSome)
  obtain ⟨s, hs⟩ := Option.isSome_iff_exists.mp
    (by decide : (setupBootmem info
      (memSize .rv64 [some 0x40000000#64, some 0x100000#64])).isSome)
  have hlast : [some 0x40000000#64, some 0x100000#64].reduceOption.getLast? = some 0x100000#64 := rfl
  obtain ⟨hiff, hback⟩ := mem_limit_iff hs hlast
  refine ⟨info, limited, s, hlimited, ?_, hs, hback (by decide), ?_⟩
  · have hfirst : [some 0x40000000#64].reduceOption.getLast? = some 0x40000000#64 := rfl
    exact BitVec.eq_of_toNat_eq (((mem_limit_iff hlimited hfirst).1.mpr (by decide)).trans (by decide))
  · rw [show 0x100000 = (0x100000#64).toNat from rfl, Ne, hiff]
    decide

/-! ## The initial ramdisk -/

theorem toNat_maxLowPfn (h : s.Describes info) :
    (Setup.pfnPhys s.maxLowPfn).toNat = (info.base + s.size).toNat := by
  have hsum := toNat_add_ite info.base s.size
  have hlt := (info.base + s.size).isLt
  have hfits := h.fits
  have hpow := four_thousand_dvd w
  have hdvd : 4096 ∣ (info.base + s.size).toNat := by
    have hb := h.base
    have hk := h.size
    split_ifs at hsum <;> omega
  have hcancel := Nat.div_mul_cancel hdvd
  rw [toNat_pfnPhys, h.maxLowPfn, toNat_shift, hcancel]
  rw [h.maxLowPfn, toNat_shift, hcancel]
  exact hlt

theorem setupInitrd_eq (h : s.Describes info) {start stop : Word w}
    (hlt : start.toNat < stop.toNat) :
    s.setupInitrd start stop =
      if (info.base + (stop - pageOffset w)).toNat ≤ (info.base + s.size).toNat then
        ((start, stop), some (info.base + (start - pageOffset w), stop - start))
      else ((0, 0), none) := by
  have hle := Nat.pow_le_pow_right (by decide : 0 < 2) (xlen_le w)
  have hpa := (info.base + (stop - pageOffset w)).isLt
  have hlate : Setup.pfnPhys s.maxLowPfn < (s.pa stop).setWidth 64 ↔
      ¬ (info.base + (stop - pageOffset w)).toNat ≤ (info.base + s.size).toNat := by
    rw [pa_eq h, BitVec.lt_def, toNat_maxLowPfn h, BitVec.toNat_setWidth,
      Nat.mod_eq_of_lt (by omega), Nat.not_le]
  rw [Setup.setupInitrd, if_neg (by rw [BitVec.le_def]; omega)]
  by_cases hkept : (info.base + (stop - pageOffset w)).toNat ≤ (info.base + s.size).toNat
  · rw [if_neg (fun hgt => hlate.mp hgt hkept), if_pos hkept, pa_eq h]
  · rw [if_pos (hlate.mpr hkept), if_neg hkept]

/-- **The initial ramdisk.** That `setup_initrd` keeps exactly the ramdisks that end within the
memory, and reserves what they lie in, holds iff the memory ends before the end of the physical
address space and no linear address wraps. -/
theorem initrd_kept_iff {options : List (Option (BitVec 64))}
    (hs : setupBootmem info (memSize w options) = some s) :
    (∀ start stop : Word w, pageOffset w ≤ start → start < stop →
      s.setupInitrd start stop =
        if stop.toNat ≤ (pageOffset w).toNat + s.size.toNat then
          ((start, stop), some (info.base + (start - pageOffset w), stop - start))
        else ((0, 0), none)) ↔
    info.base.toNat + s.size.toNat < 2 ^ (8 * szreg w) ∧
      info.base.toNat + linearSize w ≤ 2 ^ (8 * szreg w) := by
  have h := setupBootmem_describes hs
  have hfits := h.fits
  have hbase := info.base.isLt
  have hadd := pageOffset_add w
  have hoffset := (pageOffset w).isLt
  have hlinear := linearSize_pos w
  have hsum := toNat_add_ite info.base s.size
  constructor
  · intro hall
    -- every end of a ramdisk is on the right side
    have hside : ∀ d, 0 < d → d < linearSize w →
        ((info.base + BitVec.ofNat _ d).toNat ≤ (info.base + s.size).toNat ↔
          d ≤ s.size.toNat) := by
      intro d hpos hd
      have hnat : (pageOffset w + BitVec.ofNat _ d).toNat = (pageOffset w).toNat + d :=
        toNat_add_lt (by omega)
      have hone := hall (pageOffset w) (pageOffset w + BitVec.ofNat _ d) (BitVec.le_refl _)
        (by rw [BitVec.lt_def, hnat]; omega)
      rw [setupInitrd_eq h (by rw [hnat]; omega), hnat, BitVec.add_comm (pageOffset w),
        BitVec.add_sub_cancel] at hone
      split_ifs at hone with hkept hin hin
      · omega
      · cases congrArg Prod.snd hone
      · cases congrArg Prod.snd hone
      · omega
    have htop : info.base.toNat + s.size.toNat < 2 ^ (8 * szreg w) := by
      -- the first byte
      by_contra htop
      obtain ⟨k, hk⟩ := h.size
      have hfirst := hside 1 one_pos hlinear
      rw [if_neg htop] at hsum
      rw [toNat_add_lt (by omega)] at hfirst
      omega
    refine ⟨htop, ?_⟩
    -- the last linear address
    by_contra hwrap
    have hlast := hside (linearSize w - 1) (by omega) (by omega)
    have hend := toNat_add_ite info.base (BitVec.ofNat _ (linearSize w - 1))
    rw [BitVec.toNat_ofNat, Nat.mod_eq_of_lt (by omega : linearSize w - 1 < _),
      if_neg (by omega)] at hend
    rw [if_pos htop] at hsum
    omega
  · rintro ⟨htop, hwrap⟩ start stop hstart hstop
    rw [BitVec.le_def] at hstart
    rw [BitVec.lt_def] at hstop
    have hx := stop.isLt
    have hdistance : (stop - pageOffset w).toNat = stop.toNat - (pageOffset w).toNat :=
      BitVec.toNat_sub_of_le (by rw [BitVec.le_def]; omega)
    have hend := toNat_add_ite info.base (stop - pageOffset w)
    rw [if_pos htop] at hsum
    rw [hdistance, if_pos (by omega)] at hend
    rw [setupInitrd_eq h hstop, hend, hsum]
    by_cases hin : stop.toNat ≤ (pageOffset w).toNat + s.size.toNat
    · rw [if_pos (by omega), if_pos hin]
    · rw [if_neg (by omega), if_neg hin]

/-- Memory at the end of the 32-bit physical address space. -/
theorem initrd_kept_iff_top :
    ∃ (info : MemoryBlock .rv32) (s : Setup .rv32), setupBootmem info (memSize .rv32 []) = some s ∧
      ¬ ∀ start stop : Word .rv32, pageOffset .rv32 ≤ start → start < stop →
        s.setupInitrd start stop =
          if stop.toNat ≤ (pageOffset .rv32).toNat + s.size.toNat then
            ((start, stop), some (info.base + (start - pageOffset .rv32), stop - start))
          else ((0, 0), none) := by
  let info : MemoryBlock .rv32 := ⟨0xc0000000#32, 0x40000000#32, by decide⟩
  obtain ⟨s, hs⟩ := Option.isSome_iff_exists.mp
    (by decide : (setupBootmem info (memSize .rv32 [])).isSome)
  refine ⟨info, s, hs, ?_⟩
  rw [initrd_kept_iff hs, setupBootmem_size hs]
  decide

end LowriscLinux.Mm.Bootmem
