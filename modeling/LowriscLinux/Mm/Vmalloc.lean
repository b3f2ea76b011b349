import LowriscLinux.Lib.Words
import LowriscLinux.Mm.Fault
import LowriscLinux.Mm.Pte
import Mathlib.Logic.Function.Basic

/-!
# The kernel mappings of the page tables

Model of how the vmalloc area gets into the page tables of the processes: `pgd_alloc` copies the
kernel half of the top level of `init_mm` when a process is made, tables are added to `init_mm`
afterwards, and `vmalloc_fault` copies the entries that a process lacks.

## What models what

* `pgdAlloc`: `arch/riscv/include/asm/pgalloc.h`, lines 31-44.
* `populate`: a new table of zeroes and the entry for it, `pud_populate` after `pmd_alloc_one`
  (lines 22-26 and 53-57) and `pmd_populate_kernel` after `pte_alloc_one_kernel` (lines 7-12 and
  68-73).
* `vmallocFault`: `arch/riscv/mm/fault.c`, lines 219-248, from the kernel. What the source calls
  `pgd` is found through `sptbr`, and `set_pgd` and `set_pmd` are made before the level below is
  looked at.
* `switchMm`: `arch/riscv/include/asm/mmu_context.h`, lines 26-33.
* `pgdIndex`, `pmdIndex`, `pteIndex`, `pudOffset`, `pmdOffset` and `pteOffsetKernel`: the macros of
  `pgtable.h` and `pgtable-64.h`. RV64 has three levels and RV32 two: the folded levels of
  `asm-generic` are always present and hand on the entry that they are given.
* `taskSize`: `TASK_SIZE` (`pgtable.h`, lines 316-320). `userPtrsPerPgd`: line 29.

The state holds the entries of all page tables, by page and index. `table` is bookkeeping: what each
page was allocated for, so that the allocator never gives out a page in use. The faults of a run may
be on any address of the area, at any time.

Results:
* `vmallocFault_eq`: the handler copies the top-level entry, and returns iff the walk of `init_mm`
  then reaches a present entry.
* `Inv.step`: the invariant, of which `Coherent` is the visible part, is kept by every step.
* `doPageFault_answers`: the handler's ending is the one of `do_page_fault` with the answers of the
  reference table.
* **`tables_coherent`**: in every run the kernel halves are coherent, a fault that is handled leaves
  one walk for the process and for `init_mm`, and a fault on an address without a mapping goes to
  `no_context`.
* `vmallocFault_user`: no fault changes the user half of a table.

Out of scope: the user half (`Mm/AddressSpace.lean`), the hardware's view of leaf entries at upper
levels, and `pgd_free`.
-/

namespace LowriscLinux.Mm.Vmalloc

open Kernel Lib

variable {w : Xlen}

/-! ## Pages, entries and indices -/

/-- `PAGE_SHIFT`. -/
def pageShift : Nat := 12

/-- `PGDIR_SHIFT`. -/
def pgdirShift : Xlen → Nat
  | .rv64 => 30
  | .rv32 => 22

/-- `PMD_SHIFT`. -/
def pmdShift : Nat := 21

/-- `PTRS_PER_PGD`, `PTRS_PER_PMD` and `PTRS_PER_PTE`: the entries of a page. -/
def ptrsPerPgd (w : Xlen) : Nat := 2 ^ pageShift / szreg w
def ptrsPerPmd (w : Xlen) : Nat := 2 ^ pageShift / szreg w
def ptrsPerPte (w : Xlen) : Nat := 2 ^ pageShift / szreg w

/-- `TASK_SIZE`. -/
def taskSize : Xlen → Nat
  | .rv64 => 2 ^ pgdirShift .rv64 * ptrsPerPgd .rv64 / 2
  | .rv32 => (vmallocStart .rv32).toNat

/-- `USER_PTRS_PER_PGD`. -/
def userPtrsPerPgd (w : Xlen) : Nat := taskSize w / 2 ^ pgdirShift w

/-- The field of an address that starts at `shift` and selects one of `ptrs` entries. -/
def entryIndex (shift ptrs : Nat) (addr : Word w) : Nat :=
  ((addr >>> shift) &&& BitVec.ofNat _ (ptrs - 1)).toNat

def pgdIndex (addr : Word w) : Nat := entryIndex (pgdirShift w) (ptrsPerPgd w) addr

def pmdIndex (addr : Word w) : Nat := entryIndex pmdShift (ptrsPerPmd w) addr

def pteIndex (addr : Word w) : Nat := entryIndex pageShift (ptrsPerPte w) addr

/-- A pointer to an entry: a page and the index in it. -/
structure Ptr (w : Xlen) where
  page : Word w
  index : Nat
  deriving DecidableEq

/-- What a page is allocated for: the top level of `init_mm` or of a process, or a table of the
vmalloc area on one of the lower levels. -/
inductive Table
  | reference
  | process
  | middle
  | last
  deriving DecidableEq, Repr

structure State (w : Xlen) where
  vaPaOffset : Word w
  /-- The entries of the page tables. -/
  mem : Ptr w → Word w
  /-- `init_mm.pgd`. -/
  initPgd : Word w
  sptbr : Word w
  table : Word w → Option Table

namespace State

variable (s : State w)

def virtToPfn (vaddr : Word w) : Word w := (vaddr - s.vaPaOffset) >>> pageShift

def pfnToVirt (pfn : Word w) : Word w := (pfn <<< pageShift) + s.vaPaOffset

/-- The top level of the current page table. -/
def pgd : Word w := s.pfnToVirt s.sptbr

def set (p : Ptr w) (v : Word w) : State w := { s with mem := Function.update s.mem p v }

@[simp] theorem set_vaPaOffset (p : Ptr w) (v : Word w) : (s.set p v).vaPaOffset = s.vaPaOffset :=
  rfl

@[simp] theorem set_initPgd (p : Ptr w) (v : Word w) : (s.set p v).initPgd = s.initPgd := rfl

@[simp] theorem set_sptbr (p : Ptr w) (v : Word w) : (s.set p v).sptbr = s.sptbr := rfl

@[simp] theorem set_table (p : Ptr w) (v : Word w) : (s.set p v).table = s.table := rfl

@[simp] theorem set_pgd (p : Ptr w) (v : Word w) : (s.set p v).pgd = s.pgd := rfl

@[simp] theorem set_same (p : Ptr w) (v : Word w) : (s.set p v).mem p = v := by simp [set]

variable {s}

theorem set_other {p q : Ptr w} (h : q ≠ p) (v : Word w) : (s.set p v).mem q = s.mem q := by
  simp [set, h]

/-- Writing what is there changes nothing. -/
theorem set_mem {p : Ptr w} {v : Word w} (h : s.mem p = v) : s.set p v = s := by
  subst h
  simp [set]

end State

/-! ## The levels -/

/-- `pgd_present`, of a folded level. -/
def pgdPresent (_ : Word w) : Bool := true

/-- `pud_present`: on RV32 this level is folded too. -/
def pudPresent : {w : Xlen} → Word w → Bool
  | .rv64, pud => pud &&& pagePresent != 0
  | .rv32, _ => true

/-- `pud_none`. -/
def pudNone : {w : Xlen} → Word w → Bool
  | .rv64, pud => pud == 0
  | .rv32, _ => false

def pmdPresent (pmd : Word w) : Bool := pmd &&& pagePresent != 0

def pmdNone (pmd : Word w) : Bool := pmd == 0

namespace State

variable (s : State w)

/-- `pud_page_vaddr` and `pmd_page_vaddr`: the page that an entry leads to. -/
def pageVaddr (entry : Word w) : Word w := s.pfnToVirt (entry >>> pagePfnShift)

end State

/-- `pud_offset`, of a folded level. -/
def pudOffset (pgd : Ptr w) (_ : Word w) : Ptr w := pgd

/-- `pmd_offset`: on RV32 this level is folded too. -/
def pmdOffset : {w : Xlen} → State w → Ptr w → Word w → Ptr w
  | .rv64, s, pud, addr => ⟨s.pageVaddr (s.mem pud), pmdIndex addr⟩
  | .rv32, _, pud, _ => pud

def pteOffsetKernel (s : State w) (pmd : Ptr w) (addr : Word w) : Ptr w :=
  ⟨s.pageVaddr (s.mem pmd), pteIndex addr⟩

/-- The entry, if it is present. -/
def present (s : State w) (pte : Ptr w) : Option (Ptr w) :=
  if ptePresent (s.mem pte) then some pte else none

/-- The walk from a top level to the present entry of an address, if there is one. -/
def walk (s : State w) (root : Word w) (addr : Word w) : Option (Ptr w) :=
  let pud := pudOffset ⟨root, pgdIndex addr⟩ addr
  let pmd := pmdOffset s pud addr
  if pudPresent (s.mem pud) && pmdPresent (s.mem pmd) then present s (pteOffsetKernel s pmd addr)
  else none

/-! ## The operations -/

/-- How `vmalloc_fault` ends. -/
inductive Ending
  | noContext
  | returned
  deriving DecidableEq, Repr

/-- `vmalloc_fault:`, from the kernel. -/
def vmallocFault (s : State w) (addr : Word w) : Ending × State w :=
  let index := pgdIndex addr
  let pgd : Ptr w := ⟨s.pfnToVirt s.sptbr, index⟩
  let pgdK : Ptr w := ⟨s.initPgd, index⟩
  if !pgdPresent (s.mem pgdK) then (.noContext, s)
  else
    let s := s.set pgd (s.mem pgdK)
    let pud := pudOffset pgd addr
    let pudK := pudOffset pgdK addr
    if !pudPresent (s.mem pudK) then (.noContext, s)
    else
      let pmd := pmdOffset s pud addr
      let pmdK := pmdOffset s pudK addr
      if !pmdPresent (s.mem pmdK) then (.noContext, s)
      else
        let s := s.set pmd (s.mem pmdK)
        let pteK := pteOffsetKernel s pmdK addr
        if ¬ ptePresent (s.mem pteK) then (.noContext, s)
        else (.returned, s)

/-- A page comes into use, with the given entries. -/
def newPage (s : State w) (page : Word w) (level : Table) (entries : Nat → Word w) : State w :=
  { s with
    mem := fun p => if p.page = page then entries p.index else s.mem p
    table := Function.update s.table page (some level) }

/-- `pgd_alloc`, with the page that it gets. -/
def pgdAlloc (s : State w) (page : Word w) : State w :=
  newPage s page .process fun i =>
    if i < userPtrsPerPgd w then 0 else s.mem ⟨s.initPgd, i⟩

/-- `_PAGE_TABLE`. -/
def pageTable : Word w := pagePresent

/-- A new table of zeroes, and the entry for it: `pud_populate` after `pmd_alloc_one`, and
`pmd_populate_kernel` after `pte_alloc_one_kernel`. -/
def populate (s : State w) (entry : Ptr w) (page : Word w) (level : Table) : State w :=
  (newPage s page level fun _ => 0).set entry
    (s.virtToPfn page <<< pagePfnShift ||| pageTable)

/-- `switch_mm`, between memory maps with the given top levels. -/
def switchMm (s : State w) (prev next : Word w) : State w :=
  if prev ≠ next then { s with sptbr := s.virtToPfn next } else s

/-- The page allocator can give out the page. -/
def Free (s : State w) (page : Word w) : Prop :=
  s.table page = none ∧ s.pfnToVirt (s.virtToPfn page) = page

instance (s : State w) (page : Word w) : Decidable (Free s page) :=
  inferInstanceAs (Decidable (_ ∧ _))

/-- The page is the top level of a memory map. -/
def Root (s : State w) (page : Word w) : Prop :=
  s.table page = some .process ∨ page = s.initPgd

instance (s : State w) (page : Word w) : Decidable (Root s page) :=
  inferInstanceAs (Decidable (_ ∨ _))

/-- What happens to the page tables. -/
inductive Act (w : Xlen)
  | pgdAlloc (page : Word w)
  | pudPopulate (addr page : Word w)
  | pmdPopulateKernel (addr page : Word w)
  | setPte (addr pte : Word w)
  | switchMm (prev next : Word w)
  | fault (addr : Word w)

/-- The entry of `init_mm` for an address on the upper and on the middle level. -/
def pudK (s : State w) (addr : Word w) : Ptr w := pudOffset ⟨s.initPgd, pgdIndex addr⟩ addr
def pmdK (s : State w) (addr : Word w) : Ptr w := pmdOffset s (pudK s addr) addr

def step (s : State w) : Act w → Option (State w)
  | .pgdAlloc page => if Free s page then some (pgdAlloc s page) else none
  | .pudPopulate addr page =>
    if inVmalloc addr ∧ Free s page ∧ pudNone (s.mem (pudK s addr)) then
      some (populate s (pudK s addr) page .middle)
    else none
  | .pmdPopulateKernel addr page =>
    if inVmalloc addr ∧ Free s page ∧ pudPresent (s.mem (pudK s addr)) ∧
        pmdNone (s.mem (pmdK s addr)) then
      some (populate s (pmdK s addr) page .last)
    else none
  | .setPte addr pte =>
    if inVmalloc addr ∧ pudPresent (s.mem (pudK s addr)) ∧ pmdPresent (s.mem (pmdK s addr)) then
      some (s.set (pteOffsetKernel s (pmdK s addr) addr) pte)
    else none
  | .switchMm prev next => if Root s next then some (switchMm s prev next) else none
  | .fault addr => if inVmalloc addr then some (vmallocFault s addr).2 else none

/-! ## One fault -/

section Fault

variable {s : State w} {addr : Word w}

/-- The state after `set_pgd`. -/
def copied (s : State w) (addr : Word w) : State w :=
  s.set ⟨s.pgd, pgdIndex addr⟩ (s.mem ⟨s.initPgd, pgdIndex addr⟩)

theorem copied_reference :
    (copied s addr).mem ⟨s.initPgd, pgdIndex addr⟩ = s.mem ⟨s.initPgd, pgdIndex addr⟩ := by
  unfold copied
  by_cases h : (⟨s.initPgd, pgdIndex addr⟩ : Ptr w) = ⟨s.pgd, pgdIndex addr⟩
  · rw [← h, State.set_same]
  · rw [State.set_other h]

theorem copied_current :
    (copied s addr).mem ⟨s.pgd, pgdIndex addr⟩
      = (copied s addr).mem ⟨s.initPgd, pgdIndex addr⟩ := by
  rw [copied_reference, copied, State.set_same]

theorem pmdOffset_congr {s : State w} {pud pud' addr : _} (h : s.mem pud = s.mem pud') :
    s.mem (pmdOffset s pud addr) = s.mem (pmdOffset s pud' addr) := by
  cases w with
  | rv32 => exact h
  | rv64 => simp only [pmdOffset, h]

theorem walk_eq (s : State w) (root addr : Word w) :
    walk s root addr =
      if pudPresent (s.mem ⟨root, pgdIndex addr⟩) &&
          pmdPresent (s.mem (pmdOffset s ⟨root, pgdIndex addr⟩ addr)) then
        present s (pteOffsetKernel s (pmdOffset s ⟨root, pgdIndex addr⟩ addr) addr)
      else none := rfl

/-- Two top levels with the same entry for an address give the same walk. -/
theorem walk_congr {s : State w} {root root' addr : Word w}
    (h : s.mem ⟨root, pgdIndex addr⟩ = s.mem ⟨root', pgdIndex addr⟩) :
    walk s root addr = walk s root' addr := by
  have hpmd := @pmdOffset_congr w s ⟨root, pgdIndex addr⟩ ⟨root', pgdIndex addr⟩ addr h
  rw [walk_eq, walk_eq, pteOffsetKernel, pteOffsetKernel, h, hpmd]

/-- `set_pmd` writes what is there: on RV64 into the table that both top levels share, on RV32 into
the entry that `set_pgd` has just copied. -/
theorem copied_setPmd :
    (copied s addr).set (pmdOffset (copied s addr) ⟨s.pgd, pgdIndex addr⟩ addr)
        ((copied s addr).mem (pmdOffset (copied s addr) ⟨s.initPgd, pgdIndex addr⟩ addr))
      = copied s addr :=
  State.set_mem (pmdOffset_congr copied_current)

/-- **What the handler does**: the top-level entry is copied, and the rest is the walk of
`init_mm`. -/
theorem vmallocFault_eq :
    vmallocFault s addr
      = (if walk (copied s addr) s.initPgd addr = none then .noContext else .returned,
          copied s addr) := by
  let s' := copied s addr
  let pmd := pmdOffset s' ⟨s.pgd, pgdIndex addr⟩ addr
  let pmdK := pmdOffset s' ⟨s.initPgd, pgdIndex addr⟩ addr
  have hset : s'.set pmd (s'.mem pmdK) = s' := copied_setPmd
  have hdef : vmallocFault s addr =
      if !pudPresent (s'.mem ⟨s.initPgd, pgdIndex addr⟩) then (.noContext, s')
      else if !pmdPresent (s'.mem pmdK) then (.noContext, s')
      else if ¬ ptePresent ((s'.set pmd (s'.mem pmdK)).mem
          (pteOffsetKernel (s'.set pmd (s'.mem pmdK)) pmdK addr)) then
        (.noContext, s'.set pmd (s'.mem pmdK))
      else (.returned, s'.set pmd (s'.mem pmdK)) := rfl
  rw [hdef, hset, walk_eq, present]
  by_cases hpud : pudPresent (s'.mem ⟨s.initPgd, pgdIndex addr⟩) = true
  · by_cases hpmd : pmdPresent (s'.mem pmdK) = true
    · by_cases hpte : ptePresent (s'.mem (pteOffsetKernel s' pmdK addr))
      · simp [s', pmdK, hpud, hpmd, hpte]
      · simp [s', pmdK, hpud, hpmd, hpte]
    · simp [s', pmdK, hpud, hpmd]
  · simp [s', hpud]

/-- The vmalloc area belongs to the kernel half. -/
theorem userPtrsPerPgd_le (hv : inVmalloc addr) : userPtrsPerPgd w ≤ pgdIndex addr := by
  simp only [inVmalloc, Bool.and_eq_true, decide_eq_true_eq, BitVec.le_def] at hv
  obtain ⟨hlo, hhi⟩ := hv
  unfold pgdIndex entryIndex
  cases w with
  | rv32 =>
    have hmask := toNat_and_mask (addr >>> pgdirShift .rv32) (k := 10) (by decide)
    rw [show ptrsPerPgd .rv32 - 1 = 2 ^ 10 - 1 from rfl, hmask, BitVec.toNat_ushiftRight,
      Nat.shiftRight_eq_div_pow]
    change 0xb8000000 ≤ _ at hlo
    change _ ≤ 0xbfffffff at hhi
    simp only [show userPtrsPerPgd .rv32 = 736 from rfl, pgdirShift]
    omega
  | rv64 =>
    have hmask := toNat_and_mask (addr >>> pgdirShift .rv64) (k := 9) (by decide)
    rw [show ptrsPerPgd .rv64 - 1 = 2 ^ 9 - 1 from rfl, hmask, BitVec.toNat_ushiftRight,
      Nat.shiftRight_eq_div_pow]
    change 0xffffffff78000000 ≤ _ at hlo
    change _ ≤ 0xffffffff7fffffff at hhi
    simp only [show userPtrsPerPgd .rv64 = 256 from rfl, pgdirShift]
    omega

/-- **A fault leaves the user half of every table alone.** -/
theorem vmallocFault_user (hv : inVmalloc addr) {page : Word w} {i : Nat}
    (hi : i < userPtrsPerPgd w) : (vmallocFault s addr).2.mem ⟨page, i⟩ = s.mem ⟨page, i⟩ := by
  have hle := userPtrsPerPgd_le hv
  rw [vmallocFault_eq]
  refine State.set_other ?_ _
  intro heq
  rw [Ptr.mk.injEq] at heq
  omega

end Fault

/-! ## The invariant -/

/-- **The kernel half of a process's top level is a part of that of `init_mm`**: every entry is
empty or the same. -/
def Coherent (s : State w) : Prop :=
  ∀ page, s.table page = some .process → ∀ i, userPtrsPerPgd w ≤ i → i < ptrsPerPgd w →
    s.mem ⟨page, i⟩ = 0 ∨ s.mem ⟨page, i⟩ = s.mem ⟨s.initPgd, i⟩

/-- What the top level of `init_mm` leads to. -/
def belowTop : Xlen → Table
  | .rv64 => .middle
  | .rv32 => .last

/-- The pages in use, and the tables of the vmalloc area among them. -/
structure Tables (s : State w) : Prop where
  reference : s.table s.initPgd = some .reference
  pages : ∀ page, s.table page ≠ none → s.pfnToVirt (s.virtToPfn page) = page
  top : ∀ addr : Word w, inVmalloc addr → ptePresent (s.mem ⟨s.initPgd, pgdIndex addr⟩) →
    s.table (s.pageVaddr (s.mem ⟨s.initPgd, pgdIndex addr⟩)) = some (belowTop w)
  middle : ∀ page i, s.table page = some .middle → ptePresent (s.mem ⟨page, i⟩) →
    s.table (s.pageVaddr (s.mem ⟨page, i⟩)) = some .last

structure Inv (s : State w) : Prop extends Tables s where
  coherent : Coherent s
  current : Root s s.pgd

/-- After `paging_init`: no process yet, and the boot page table is that of `init_mm`. -/
structure Boot (s : State w) : Prop extends Tables s where
  initPgd : s.initPgd = s.pgd
  empty : ∀ page, s.table page ≠ some .process

theorem Boot.inv {s : State w} (h : Boot s) : Inv s where
  toTables := h.toTables
  coherent := fun page hp => absurd hp (h.empty page)
  current := .inr h.initPgd.symm

section Kept

variable {s : State w} {addr : Word w}

theorem pmdPresent_iff {pmd : Word w} : pmdPresent pmd = true ↔ ptePresent pmd := by
  simp [pmdPresent, ptePresent]

/-- Where `init_mm` has its entry of the last but one level. -/
theorem Tables.pmd (h : Tables s) (hv : inVmalloc addr)
    (hpud : pudPresent (s.mem ⟨s.initPgd, pgdIndex addr⟩) = true) :
    pmdOffset s ⟨s.initPgd, pgdIndex addr⟩ addr = ⟨s.initPgd, pgdIndex addr⟩ ∧
        belowTop w = .last ∨
      s.table (pmdOffset s ⟨s.initPgd, pgdIndex addr⟩ addr).page = some .middle := by
  cases w with
  | rv32 => exact .inl ⟨rfl, rfl⟩
  | rv64 =>
    refine .inr (h.top addr hv ?_)
    simpa [pudPresent, ptePresent] using hpud

/-- The last level of the vmalloc area is made of pages of its own. -/
theorem Tables.pte (h : Tables s) (hv : inVmalloc addr)
    (hpud : pudPresent (s.mem ⟨s.initPgd, pgdIndex addr⟩) = true)
    (hpmd : pmdPresent (s.mem (pmdOffset s ⟨s.initPgd, pgdIndex addr⟩ addr)) = true) :
    s.table (pteOffsetKernel s (pmdOffset s ⟨s.initPgd, pgdIndex addr⟩ addr) addr).page
      = some .last := by
  rw [pmdPresent_iff] at hpmd
  rcases h.pmd hv hpud with ⟨heq, hlast⟩ | hmiddle
  · rw [heq] at hpmd ⊢
    rw [← hlast]
    exact h.top addr hv hpmd
  · exact h.middle _ _ hmiddle hpmd

/-- Writing to a process's top level leaves the walk of `init_mm` alone. -/
theorem Tables.walk_set (h : Tables s) (hv : inVmalloc addr) {p : Ptr w}
    (hp : s.table p.page = some .process) (v : Word w) :
    walk (s.set p v) s.initPgd addr = walk s s.initPgd addr := by
  have hkeep : ∀ q : Ptr w, s.table q.page ≠ some .process → (s.set p v).mem q = s.mem q := by
    intro q hq
    refine State.set_other ?_ v
    rintro rfl
    exact hq hp
  have htop : (s.set p v).mem ⟨s.initPgd, pgdIndex addr⟩ = s.mem ⟨s.initPgd, pgdIndex addr⟩ :=
    hkeep _ (by simp [h.reference])
  have hpmdPtr : pmdOffset (s.set p v) ⟨s.initPgd, pgdIndex addr⟩ addr
      = pmdOffset s ⟨s.initPgd, pgdIndex addr⟩ addr := by
    cases w with
    | rv32 => rfl
    | rv64 => simp only [pmdOffset, htop]; rfl
  rw [walk_eq, walk_eq, htop, hpmdPtr]
  by_cases hpud : pudPresent (s.mem ⟨s.initPgd, pgdIndex addr⟩) = true
  · have hpmdMem : (s.set p v).mem (pmdOffset s ⟨s.initPgd, pgdIndex addr⟩ addr)
        = s.mem (pmdOffset s ⟨s.initPgd, pgdIndex addr⟩ addr) := by
      rcases h.pmd hv hpud with ⟨heq, -⟩ | hmiddle
      · rw [heq, htop]
      · exact hkeep _ (by simp [hmiddle])
    rw [hpmdMem]
    by_cases hpmd : pmdPresent (s.mem (pmdOffset s ⟨s.initPgd, pgdIndex addr⟩ addr)) = true
    · have hptePtr : pteOffsetKernel (s.set p v) (pmdOffset s ⟨s.initPgd, pgdIndex addr⟩ addr) addr
          = pteOffsetKernel s (pmdOffset s ⟨s.initPgd, pgdIndex addr⟩ addr) addr := by
        simp only [pteOffsetKernel, hpmdMem]
        rfl
      rw [hptePtr, present, present, hkeep _ (by simp [h.pte hv hpud hpmd])]
    · simp [hpmd]
  · simp [hpud]

/-- The walk of `init_mm` is as it was before the fault. -/
theorem Inv.walk_copied (h : Inv s) (hv : inVmalloc addr) :
    walk (copied s addr) s.initPgd addr = walk s s.initPgd addr := by
  rcases h.current with hproc | hinit
  · exact h.walk_set hv hproc _
  · rw [copied, State.set_mem (by rw [hinit])]

/-- The writes that keep the invariant: the entry of `init_mm` for a process, an empty top-level
entry of `init_mm` or a middle one that gets a table below it, and any entry of the last level. -/
def Sound (s : State w) (p : Ptr w) (v : Word w) : Prop :=
  (s.table p.page = some .process ∧ v = s.mem ⟨s.initPgd, p.index⟩) ∨
    (p.page = s.initPgd ∧ s.mem p = 0 ∧ s.table (s.pageVaddr v) = some (belowTop w)) ∨
    (s.table p.page = some .middle ∧ s.table (s.pageVaddr v) = some .last) ∨
    s.table p.page = some .last

theorem Inv.set (h : Inv s) {p : Ptr w} {v : Word w} (hp : Sound s p v) : Inv (s.set p v) := by
  have href := h.reference
  refine ⟨⟨href, h.pages, ?_, ?_⟩, ?_, h.current⟩
  · intro addr hv hpres
    change s.table (s.pageVaddr ((s.set p v).mem ⟨s.initPgd, _⟩)) = _
    by_cases hq : (⟨s.initPgd, pgdIndex addr⟩ : Ptr w) = p
    · subst hq
      rcases hp with hp | hp | hp | hp
      · simp [href] at hp
      · rw [State.set_same]
        exact hp.2.2
      · simp [href] at hp
      · simp [href] at hp
    · rw [State.set_initPgd] at hpres
      rw [State.set_other hq] at *
      exact h.top addr hv hpres
  · intro page i hm hpres
    change s.table (s.pageVaddr ((s.set p v).mem _)) = _
    by_cases hq : (⟨page, i⟩ : Ptr w) = p
    · subst hq
      have hm' : s.table page = some .middle := hm
      rcases hp with hp | ⟨rfl, -⟩ | hp | hp
      · simp [hm'] at hp
      · simp [href] at hm'
      · rw [State.set_same]
        exact hp.2
      · simp [hm'] at hp
    · rw [State.set_other hq] at *
      exact h.middle page i hm hpres
  · intro page hproc i hlo hhi
    have hproc' : s.table page = some .process := hproc
    rw [State.set_initPgd]
    have hold := h.coherent page hproc' i hlo hhi
    by_cases hq : (⟨page, i⟩ : Ptr w) = p
    · subst hq
      have hne : (⟨s.initPgd, i⟩ : Ptr w) ≠ ⟨page, i⟩ := by
        intro heq
        rw [Ptr.mk.injEq] at heq
        rw [← heq.1, href] at hproc'
        cases hproc'
      rw [State.set_same, State.set_other hne]
      rcases hp with hp | ⟨rfl, -⟩ | hp | hp
      · exact .inr hp.2
      · simp [href] at hproc'
      · simp [hproc'] at hp
      · simp [hproc'] at hp
    · rw [State.set_other hq]
      by_cases htop : (⟨s.initPgd, i⟩ : Ptr w) = p
      · subst htop
        rcases hp with hp | ⟨-, hzero, -⟩ | hp | hp
        · simp [href] at hp
        · rw [hzero, or_self_iff] at hold
          exact .inl hold
        · simp [href] at hp
        · simp [href] at hp
      · rwa [State.set_other htop]

theorem Inv.vmallocFault (h : Inv s) : Inv (vmallocFault s addr).2 := by
  rw [vmallocFault_eq]
  rcases h.current with hproc | hinit
  · exact h.set (.inl ⟨hproc, rfl⟩)
  · rw [copied, State.set_mem (by rw [hinit])]
    exact h

theorem Inv.switchMm (h : Inv s) {prev next : Word w} (hroot : Root s next) :
    Inv (switchMm s prev next) := by
  unfold Vmalloc.switchMm
  split_ifs
  · refine ⟨⟨h.reference, h.pages, h.top, h.middle⟩, h.coherent, ?_⟩
    have hused : s.table next ≠ none := by
      rcases hroot with hproc | rfl
      · simp [hproc]
      · simp [h.reference]
    show Root s (s.pfnToVirt (s.virtToPfn next))
    rw [h.pages next hused]
    exact hroot
  · exact h

theorem Inv.newPage (h : Inv s) {page : Word w} (hfree : Free s page) {level : Table}
    {entries : Nat → Word w}
    (hprocess : level = .process → ∀ i, userPtrsPerPgd w ≤ i → entries i = s.mem ⟨s.initPgd, i⟩)
    (hmiddle : level = .middle → ∀ i, entries i = 0) : Inv (newPage s page level entries) := by
  obtain ⟨hnone, hpage⟩ := hfree
  set s' := Vmalloc.newPage s page level entries
  have hne : ∀ {q}, s.table q ≠ none → q ≠ page := by
    rintro q hq rfl
    exact hq hnone
  have htable : ∀ {q}, s.table q ≠ none → s'.table q = s.table q := fun hq =>
    Function.update_of_ne (hne hq) _ _
  have hmem : ∀ {q i}, s.table q ≠ none → s'.mem ⟨q, i⟩ = s.mem ⟨q, i⟩ := fun hq =>
    if_neg (hne hq)
  have hinv : ∀ {q : Word w} {t}, q ≠ page → s'.table q = t → s.table q = t := by
    intro q t hq ht
    exact (Function.update_of_ne hq _ _).symm.trans ht
  have hnew : s'.table page = some level := Function.update_self ..
  have href : s.table s.initPgd ≠ none := by simp [h.reference]
  refine ⟨⟨?_, ?_, ?_, ?_⟩, ?_, ?_⟩
  · exact (htable href).trans h.reference
  · intro q hq
    by_cases hqp : q = page
    · rw [hqp]
      exact hpage
    · exact h.pages q fun hn => hq ((Function.update_of_ne hqp _ _).trans hn)
  · intro addr hv hpres
    change ptePresent (s'.mem ⟨s.initPgd, _⟩) at hpres
    change s'.table (s.pageVaddr (s'.mem ⟨s.initPgd, _⟩)) = _
    rw [hmem href] at *
    have ht := h.top addr hv hpres
    rw [htable (by simp [ht]), ht]
  · intro q i hm hpres
    by_cases hq : q = page
    · subst hq
      rw [hnew, Option.some.injEq] at hm
      have hzero : s'.mem ⟨q, i⟩ = 0 := (if_pos rfl).trans (hmiddle hm i)
      rw [hzero] at hpres
      simp [ptePresent] at hpres
    · have hm' := hinv hq hm
      change s'.table (s.pageVaddr _) = _
      rw [hmem (by simp [hm'])] at *
      have ht := h.middle q i hm' hpres
      rw [htable (by simp [ht]), ht]
  · intro q hproc i hlo hhi
    change _ ∨ _ = s'.mem ⟨s.initPgd, i⟩
    rw [hmem href]
    by_cases hq : q = page
    · subst hq
      rw [hnew, Option.some.injEq] at hproc
      exact .inr ((if_pos rfl).trans (hprocess hproc i hlo))
    · have hproc' := hinv hq hproc
      rw [hmem (by simp [hproc'])]
      exact h.coherent q hproc' i hlo hhi
  · rcases h.current with hproc | hinit
    · exact .inl ((htable (show s.table s.pgd ≠ none by simp [hproc])).trans hproc)
    · exact .inr hinit

theorem Inv.pgdAlloc (h : Inv s) {page : Word w} (hfree : Free s page) :
    Inv (pgdAlloc s page) :=
  h.newPage hfree (fun _ _ hlo => if_neg (Nat.not_lt.mpr hlo)) fun hm => by cases hm

/-- An entry for a table leads to its page. -/
theorem pageVaddr_table {page : Word w} (h : s.pfnToVirt (s.virtToPfn page) = page) :
    s.pageVaddr (s.virtToPfn page <<< pagePfnShift ||| pageTable) = page := by
  have hpfn : ptePfn (s.virtToPfn page <<< pagePfnShift ||| pageTable) = s.virtToPfn page := by
    rw [ptePfn_or (by cases w <;> decide), ptePfn, State.virtToPfn]
    ext i hi
    simp only [BitVec.getElem_ushiftRight, BitVec.getLsbD_shiftLeft, BitVec.getLsbD_ushiftRight]
    by_cases hlt : pagePfnShift + i < 8 * szreg w
    · simp [hlt]
    · simp only [hlt, decide_false, Bool.false_and]
      exact (BitVec.getLsbD_of_ge _ _ (by simp [pageShift, pagePfnShift] at *; omega)).symm
  unfold ptePfn at hpfn
  rw [State.pageVaddr, hpfn, h]

/-- **A table may be added at an empty entry** of the top level of `init_mm`, or anywhere in the
middle level. -/
theorem Inv.populate (h : Inv s) {entry : Ptr w} {page : Word w} {level : Table}
    (hfree : Free s page)
    (hentry : (entry.page = s.initPgd ∧ s.mem entry = 0 ∧ level = belowTop w) ∨
      (s.table entry.page = some .middle ∧ level = .last)) :
    Inv (populate s entry page level) := by
  have hlevel : level ≠ .process := by
    rcases hentry with ⟨-, -, rfl⟩ | ⟨-, rfl⟩
    · cases w <;> simp [belowTop]
    · simp
  have hnew : Inv (Vmalloc.newPage s page level fun _ => 0) :=
    h.newPage hfree (fun hp => absurd hp hlevel) fun _ _ => rfl
  have hused : s.table entry.page ≠ none := by
    rcases hentry with ⟨heq, -⟩ | ⟨hm, -⟩
    · simp [heq, h.reference]
    · simp [hm]
  have hne : entry.page ≠ page := by
    rintro heq
    exact hused (heq ▸ hfree.1)
  have hlead : (Vmalloc.newPage s page level fun _ => 0).table
      (s.pageVaddr (s.virtToPfn page <<< pagePfnShift ||| pageTable)) = some level := by
    rw [pageVaddr_table hfree.2]
    exact Function.update_self ..
  refine hnew.set ?_
  rcases hentry with ⟨heq, hzero, rfl⟩ | ⟨hm, rfl⟩
  · exact .inr (.inl ⟨heq, (if_neg hne).trans hzero, hlead⟩)
  · exact .inr (.inr (.inl ⟨(Function.update_of_ne hne _ _).trans hm, hlead⟩))

/-- **The invariant is kept by every step.** -/
theorem Inv.step {a : Act w} {s' : State w} (h : Inv s) (hs : step s a = some s') : Inv s' := by
  cases a with
  | pgdAlloc page =>
    simp only [Vmalloc.step, Option.ite_none_right_eq_some, Option.some.injEq] at hs
    obtain ⟨hfree, rfl⟩ := hs
    exact h.pgdAlloc hfree
  | pudPopulate addr page =>
    simp only [Vmalloc.step, Option.ite_none_right_eq_some, Option.some.injEq] at hs
    obtain ⟨⟨hv, hfree, hnone⟩, rfl⟩ := hs
    refine h.populate hfree (.inl ⟨rfl, ?_, ?_⟩)
    · cases w with
      | rv32 => simp [pudNone] at hnone
      | rv64 => simpa [pudNone] using hnone
    · cases w with
      | rv32 => simp [pudNone] at hnone
      | rv64 => rfl
  | pmdPopulateKernel addr page =>
    simp only [Vmalloc.step, Option.ite_none_right_eq_some, Option.some.injEq] at hs
    obtain ⟨⟨hv, hfree, hpud, hnone⟩, rfl⟩ := hs
    refine h.populate hfree ?_
    rcases h.pmd hv hpud with ⟨heq, hlast⟩ | hm
    · refine .inl ⟨congrArg Ptr.page heq, ?_, hlast.symm⟩
      simpa [pmdNone] using hnone
    · exact .inr ⟨hm, rfl⟩
  | setPte addr pte =>
    simp only [Vmalloc.step, Option.ite_none_right_eq_some, Option.some.injEq] at hs
    obtain ⟨⟨hv, hpud, hpmd⟩, rfl⟩ := hs
    exact h.set (.inr (.inr (.inr (h.pte hv hpud hpmd))))
  | switchMm prev next =>
    simp only [Vmalloc.step, Option.ite_none_right_eq_some, Option.some.injEq] at hs
    obtain ⟨hroot, rfl⟩ := hs
    exact h.switchMm hroot
  | fault addr =>
    simp only [Vmalloc.step, Option.ite_none_right_eq_some, Option.some.injEq] at hs
    obtain ⟨-, rfl⟩ := hs
    exact h.vmallocFault

end Kept

/-! ## The path of `do_page_fault` -/

section Path

variable {s : State w}

/-- The answers that the handler reads off the reference table. -/
def answers (env : Env w) (s : State w) (addr : Word w) : Env w :=
  { env with
    pgdPresent := pgdPresent (s.mem ⟨s.initPgd, pgdIndex addr⟩)
    pudPresent := pudPresent (s.mem (pudK s addr))
    pmdPresent := pmdPresent (s.mem (pmdK s addr))
    ptePresent := ptePresent (s.mem (pteOffsetKernel s (pmdK s addr) addr)) }

/-- **A kernel fault in the vmalloc area is handled as here**: `do_page_fault` comes back with the
registers as they were, or goes where `no_context` goes. -/
theorem doPageFault_answers (env : Env w) {regs : PtRegs w} (hk : userMode regs = false)
    (hv : inVmalloc regs.sbadaddr) :
    (doPageFault (answers env (copied s regs.sbadaddr) regs.sbadaddr) regs).outcome =
      match (vmallocFault s regs.sbadaddr).1 with
      | .returned => .returned regs
      | .noContext => (noContext env regs).outcome := by
  set env' := answers env (copied s regs.sbadaddr) regs.sbadaddr with henv
  have hpgd : env'.pgdPresent = true := rfl
  have hfixup : noContext env' regs = noContext env regs := rfl
  have hwalk : walk (copied s regs.sbadaddr) s.initPgd regs.sbadaddr = none ↔
      (env'.pudPresent && env'.pmdPresent && env'.ptePresent) = false := by
    rw [walk_eq, present, henv]
    simp only [answers, pudK, pmdK, pudOffset]
    split_ifs <;> simp_all [copied]
  clear_value env'
  rw [vmallocFault_eq, doPageFault, if_pos hv, Mm.vmallocFault, hk, hpgd, hfixup]
  simp only [hwalk]
  cases hpud : env'.pudPresent
  · rfl
  · cases hpmd : env'.pmdPresent
    · rfl
    · cases hpte : env'.ptePresent
      · rfl
      · rfl

end Path

/-! ## The handler in a run -/

/-- The handler is right about an address: it returns when `init_mm` has a present entry for it,
after which the current table leads to that entry as well, and goes to `no_context` otherwise. -/
def Handles (s : State w) (addr : Word w) : Prop :=
  let (ending, s') := vmallocFault s addr
  match walk s s.initPgd addr with
  | some pte =>
    ending = .returned ∧ walk s' s'.initPgd addr = some pte ∧ walk s' s'.pgd addr = some pte
  | none => ending = .noContext

theorem Inv.handles {s : State w} {addr : Word w} (h : Inv s) (hv : inVmalloc addr) :
    Handles s addr := by
  have hwalk := h.walk_copied hv
  have hboth : walk (copied s addr) s.pgd addr = walk (copied s addr) s.initPgd addr :=
    walk_congr copied_current
  unfold Handles
  rw [vmallocFault_eq, hwalk]
  cases hpte : walk s s.initPgd addr with
  | some pte => exact ⟨rfl, hwalk.trans hpte, (hboth.trans hwalk).trans hpte⟩
  | none => rfl

/-- **The kernel mappings stay coherent**: in every state of every run the kernel half of every
process is a part of that of `init_mm`, and the handler is right about every address of the
vmalloc area. -/
theorem tables_coherent {s : State w} {run : List (Act w × State w)} (hboot : Boot s)
    (hrun : IsRun (fun s a s' => step s a = some s') s run) :
    Always (fun s => Coherent s ∧ ∀ addr : Word w, inVmalloc addr → Handles s addr) s run :=
  (hrun.invariant (fun _ _ _ h hs => h.step hs) hboot.inv).imp fun _ h =>
    ⟨h.coherent, fun _ hv => h.handles hv⟩

/-- Boot on RV64, with `init_mm`'s top level in the page at `PAGE_OFFSET`. -/
def bootState : State .rv64 where
  vaPaOffset := pageOffset .rv64
  mem := fun _ => 0
  initPgd := pageOffset .rv64
  sptbr := 0
  table := fun page => if page = pageOffset .rv64 then some .reference else none

/-- A process from before a mapping and one from after it; the first runs into a fault. -/
def mapAndFault : List (Act .rv64) :=
  let page := fun k : Nat => pageOffset .rv64 + BitVec.ofNat _ (4096 * k)
  let addr := vmallocStart .rv64
  [.pgdAlloc (page 1), .pudPopulate addr (page 2), .pmdPopulateKernel addr (page 3),
    .setPte addr 0x3f, .pgdAlloc (page 4), .switchMm (page 0) (page 1), .fault addr]

theorem boot_bootState : Boot bootState where
  reference := by decide
  pages := by
    intro page h
    by_cases hp : page = pageOffset .rv64
    · subst hp
      decide
    · simp [bootState, hp] at h
  top := by
    intro addr hv h
    simp [bootState, ptePresent] at h
  middle := by
    intro page i hm h
    simp [bootState, ptePresent] at h
  initPgd := by decide
  empty := by
    intro page h
    by_cases hp : page = pageOffset .rv64 <;> simp [bootState, hp] at h

theorem tables_coherent_mapAndFault :
    let run := trace step bootState mapAndFault
    run.length = 7 ∧
      Always (fun s => Coherent s ∧ ∀ addr : Word .rv64, inVmalloc addr → Handles s addr)
        bootState run :=
  ⟨by decide, tables_coherent boot_bootState (isRun_trace _ _)⟩

end LowriscLinux.Mm.Vmalloc
