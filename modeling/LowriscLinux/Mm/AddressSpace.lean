import LowriscLinux.Lib.Radix
import LowriscLinux.Lib.Transition
import LowriscLinux.Mm.Vmalloc

/-!
# Address spaces

Model of how the page tables keep the user halves of all memory maps, by any number of harts that
share the memory.

## What models what

* `Act.pgdAlloc` and `Act.pgdFree`: `pgd_alloc` and `pgd_free` (`arch/riscv/include/asm/pgalloc.h`,
  lines 31-49), when a process is made and given up.
* `Act.pudPopulate` and `Act.pmdPopulate`: a new table and the entry for it, `pmd_alloc_one` with
  `pud_populate` (lines 22-26 and 53-57) and `pte_alloc_one` with `pmd_populate` (lines 14-19 and
  75-84).
* `pteFree` and `pmdFree`: `pmd_clear` and `pud_clear` with the freeing of the table that was there
  (lines 59-64 and 91-101).
* `Act.setPteAt`: `set_pte_at`, and `pte_clear` with the entry 0 (`pgtable.h`, lines 162-172).
* `Act.switchMm`: `switch_mm` (`mmu_context.h`, lines 26-33) on one hart.
* `Act.fault`: a fault on the vmalloc area. The kernel half changes as in `Mm/Vmalloc.lean` (a map
  `none` is `init_mm`), and its tables are pages of the same memory.

RV64 has three levels and RV32 two, so what concerns the middle level does nothing on RV32. The page
allocator gives out any page that is not in use; a table that is freed is free at once, where
`__pte_free_tlb` collects the pages and frees them after a flush.

Above the tables is what they are for (`spec`): an entry for each page of each map. The library has
the general facts on tables of tables (`Lib/Radix.lean`), and `State.format` says how these tables
are of its kind.

Results:
* `Inv.step`: no table is on two paths, and each hart uses the top level of its map.
* `view_run`: along a run the entries are what `spec` makes of them.
* **`address_spaces`**: along every run a hart finds at a user address what was last set there for
  its own map.

Out of scope: translations that a hart keeps from before (`Mm/Tlb.lean`), and user mappings of
`init_mm`.
-/

namespace LowriscLinux.Mm.AddressSpace

open Kernel Lib Vmalloc
open Radix (Format Forest)

variable {w : Xlen} {K H : Type}

/-! ## Addresses -/

/-- The address is below `TASK_SIZE`. -/
def User (addr : Word w) : Prop := addr.toNat < taskSize w

instance (addr : Word w) : Decidable (User addr) := inferInstanceAs (Decidable (_ < _))

/-- `PMD_SHIFT`, which is `PGDIR_SHIFT` where the level is folded. -/
def pmdRegionShift : Xlen → Nat
  | .rv64 => pmdShift
  | .rv32 => pgdirShift .rv32

/-! ## The operations -/

/-- The page tables, the top levels of the memory maps but `init_mm`, and for every hart the map
that it has (`none` for `init_mm`) and its `sptbr`. -/
structure State (w : Xlen) (K H : Type) where
  tables : Vmalloc.State w
  pgd : K → Option (Word w)
  current : H → Option K
  sptbr : H → Word w

/-- The top level of a memory map. -/
def State.root (s : State w K H) : Option K → Option (Word w)
  | none => some s.tables.initPgd
  | some k => s.pgd k

/-- The addresses whose tables belong to a map. -/
def InMap : Option K → Word w → Prop
  | none, addr => inVmalloc addr
  | some _, addr => User addr

instance : (m : Option K) → (addr : Word w) → Decidable (InMap m addr)
  | none, addr => inferInstanceAs (Decidable (inVmalloc addr = true))
  | some _, addr => inferInstanceAs (Decidable (User addr))

/-- `pud_offset` and `pmd_offset` of the top level `root`. -/
def pud (root addr : Word w) : Ptr w := pudOffset ⟨root, pgdIndex addr⟩ addr
def pmd (t : Vmalloc.State w) (root addr : Word w) : Ptr w := pmdOffset t (pud root addr) addr

/-- There is a table of the last level for the address. -/
def Reachable (t : Vmalloc.State w) (root addr : Word w) : Prop :=
  pudPresent (t.mem (pud root addr)) = true ∧ pmdPresent (t.mem (pmd t root addr)) = true

instance (t : Vmalloc.State w) (root addr : Word w) : Decidable (Reachable t root addr) :=
  inferInstanceAs (Decidable (_ ∧ _))

/-- The entry of an address, or none. -/
def entry (t : Vmalloc.State w) (root addr : Word w) : Word w :=
  if Reachable t root addr then t.mem (pteOffsetKernel t (pmd t root addr) addr) else 0

/-- `free_page`. -/
def freePage (t : Vmalloc.State w) (page : Word w) : Vmalloc.State w :=
  { t with table := Function.update t.table page none }

/-- `pmd_clear`, and `__pte_free_tlb` of the table that was there. -/
def pteFree (t : Vmalloc.State w) (root addr : Word w) : Vmalloc.State w :=
  let p := pmd t root addr
  freePage (t.set p 0) (t.pageVaddr (t.mem p))

/-- `pud_clear`, and `pmd_free` of the table that was there: nothing where the level is folded. -/
def pmdFree : {w : Xlen} → Vmalloc.State w → Word w → Word w → Vmalloc.State w
  | .rv64, t, root, addr =>
    let p := pud root addr
    freePage (t.set p 0) (t.pageVaddr (t.mem p))
  | .rv32, t, _, _ => t

/-- What happens to the memory maps. A process is made and given up, tables are added to a map and
taken out, and entries are set; a hart goes to another map, or faults on the vmalloc area. -/
inductive Act (w : Xlen) (K H : Type)
  | pgdAlloc (k : K) (page : Word w)
  | pudPopulate (m : Option K) (addr page : Word w)
  | pmdPopulate (m : Option K) (addr page : Word w)
  /-- `set_pte_at`, and `pte_clear` with the entry 0. -/
  | setPteAt (m : Option K) (addr pte : Word w)
  | pteFree (k : K) (addr : Word w)
  | pmdFree (k : K) (addr : Word w)
  | pgdFree (k : K)
  | switchMm (h : H) (next : Option K)
  | fault (h : H) (addr : Word w)
  deriving DecidableEq

namespace State

variable [DecidableEq K] [DecidableEq H] (s : State w K H)

/-- The page tables as a hart has them. -/
def on (h : H) : Vmalloc.State w := { s.tables with sptbr := s.sptbr h }

/-- An operation on the top level of a map. -/
def onRoot (m : Option K) (act : Word w → Option (Vmalloc.State w)) : Option (State w K H) := do
  let root ← s.root m
  let tables ← act root
  some { s with tables }

variable [Fintype H]

def step : Act w K H → Option (State w K H)
  | .pgdAlloc k page =>
    if s.pgd k = none ∧ Free s.tables page then
      some { s with
        tables := Vmalloc.pgdAlloc s.tables page, pgd := Function.update s.pgd k (some page) }
    else none
  | .pudPopulate m addr page => s.onRoot m fun root =>
    if InMap m addr ∧ Free s.tables page ∧ pudNone (s.tables.mem (pud root addr)) then
      some (populate s.tables (pud root addr) page .middle)
    else none
  | .pmdPopulate m addr page => s.onRoot m fun root =>
    if InMap m addr ∧ Free s.tables page ∧ pudPresent (s.tables.mem (pud root addr)) ∧
        pmdNone (s.tables.mem (pmd s.tables root addr)) then
      some (populate s.tables (pmd s.tables root addr) page .last)
    else none
  | .setPteAt m addr pte => s.onRoot m fun root =>
    if InMap m addr ∧ Reachable s.tables root addr then
      some (s.tables.set (pteOffsetKernel s.tables (pmd s.tables root addr) addr) pte)
    else none
  | .pteFree k addr => s.onRoot (some k) fun root =>
    if User addr ∧ Reachable s.tables root addr then some (AddressSpace.pteFree s.tables root addr)
    else none
  | .pmdFree k addr => s.onRoot (some k) fun root =>
    if User addr ∧ pudPresent (s.tables.mem (pud root addr)) then
      some (AddressSpace.pmdFree s.tables root addr)
    else none
  | .pgdFree k => do
    let root ← s.pgd k
    if ∀ h, s.current h ≠ some k then
      some { s with tables := freePage s.tables root, pgd := Function.update s.pgd k none }
    else none
  | .switchMm h next => do
    let root ← s.root next
    if s.current h ≠ next then
      some { s with
        current := Function.update s.current h next
        sptbr := Function.update s.sptbr h (s.tables.virtToPfn root) }
    else some s
  | .fault h addr =>
    if inVmalloc addr then some { s with tables := (Vmalloc.vmallocFault (s.on h) addr).2 } else none

end State

/-! ## What the tables are for -/

/-- The addresses are in one page, and in one region of a table of the last level, and of the middle
level. -/
def SamePage (a b : Word w) : Prop := a >>> pageShift = b >>> pageShift
def SamePmd (a b : Word w) : Prop := a >>> pmdRegionShift w = b >>> pmdRegionShift w
def SamePgd (a b : Word w) : Prop := a >>> pgdirShift w = b >>> pgdirShift w

instance (a b : Word w) : Decidable (SamePage a b) := inferInstanceAs (Decidable (_ = _))
instance (a b : Word w) : Decidable (SamePmd a b) := inferInstanceAs (Decidable (_ = _))
instance (a b : Word w) : Decidable (SamePgd a b) := inferInstanceAs (Decidable (_ = _))

/-- The addresses whose entries an operation sets, of which map, and the entry. -/
def Act.sets [DecidableEq K] : Act w K H → K → Word w → Option (Word w)
  | .pgdAlloc k _, k', _ => if k' = k then some 0 else none
  | .setPteAt (some k) addr pte, k', a => if k' = k ∧ SamePage a addr then some pte else none
  | .pteFree k addr, k', a => if k' = k ∧ SamePmd a addr then some 0 else none
  | .pmdFree k addr, k', a => if w = .rv64 ∧ k' = k ∧ SamePgd a addr then some 0 else none
  | .pgdFree k, k', _ => if k' = k then some 0 else none
  | _, _, _ => none

/-- **What an operation does to the entries of the maps.** -/
def spec [DecidableEq K] (space : K → Word w → Word w) (a : Act w K H) : K → Word w → Word w :=
  fun k addr => (a.sets k addr).getD (space k addr)

/-! ## Indices -/

section Indices

variable {a b : Word w}

theorem toNat_entryIndex (shift k : Nat) (addr : Word w) (hk : k ≤ 8 * szreg w) :
    entryIndex shift (2 ^ k) addr = addr.toNat / 2 ^ shift % 2 ^ k := by
  rw [entryIndex, toNat_and_mask _ hk, BitVec.toNat_ushiftRight, Nat.shiftRight_eq_div_pow]

theorem shift_eq_iff (k : Nat) : a >>> k = b >>> k ↔ a.toNat / 2 ^ k = b.toNat / 2 ^ k := by
  rw [BitVec.toNat_eq, BitVec.toNat_ushiftRight, BitVec.toNat_ushiftRight,
    Nat.shiftRight_eq_div_pow, Nat.shiftRight_eq_div_pow]

/-- The upper levels of a walk. -/
def upper : {w : Xlen} → Word w → List Nat
  | .rv64, addr => [pgdIndex addr]
  | .rv32, _ => []

/-- The index on the level above the last. -/
def lastUpper : {w : Xlen} → Word w → Nat
  | .rv64, addr => pmdIndex addr
  | .rv32, addr => pgdIndex addr

/-- The levels of a walk but the last. -/
def path (addr : Word w) : List Nat := upper addr ++ [lastUpper addr]

theorem head_path (addr : Word w) : (path addr).head? = some (pgdIndex addr) := by
  cases w with
  | rv64 => rfl
  | rv32 => rfl

/-- A user address selects an entry of the user half. -/
theorem pgdIndex_user (ha : User a) : pgdIndex a = a.toNat / 2 ^ pgdirShift w ∧
    pgdIndex a < userPtrsPerPgd w := by
  unfold User at ha
  cases w with
  | rv64 =>
    rw [show taskSize .rv64 = 2 ^ 38 from rfl] at ha
    have hindex := toNat_entryIndex (pgdirShift .rv64) 9 a (by decide)
    rw [pgdIndex, show ptrsPerPgd .rv64 = 2 ^ 9 from rfl, hindex,
      show userPtrsPerPgd .rv64 = 256 from rfl, show pgdirShift .rv64 = 30 from rfl]
    omega
  | rv32 =>
    rw [show taskSize .rv32 = 0xb8000000 from rfl] at ha
    have hindex := toNat_entryIndex (pgdirShift .rv32) 10 a (by decide)
    rw [pgdIndex, show ptrsPerPgd .rv32 = 2 ^ 10 from rfl, hindex,
      show userPtrsPerPgd .rv32 = 736 from rfl, show pgdirShift .rv32 = 22 from rfl]
    omega

theorem samePgd_iff (ha : User a) (hb : User b) : pgdIndex a = pgdIndex b ↔ SamePgd a b := by
  rw [SamePgd, shift_eq_iff, (pgdIndex_user ha).1, (pgdIndex_user hb).1]

theorem samePmd_iff (ha : User a) (hb : User b) : path a = path b ↔ SamePmd a b := by
  rw [SamePmd, shift_eq_iff]
  cases w with
  | rv64 =>
    have hpmd : ∀ c : Word .rv64, pmdIndex c = c.toNat / 2 ^ 21 % 2 ^ 9 := fun c =>
      toNat_entryIndex pmdShift 9 c (by decide)
    simp only [path, upper, lastUpper, List.cons_append, List.nil_append, List.cons.injEq, and_true,
      hpmd, (pgdIndex_user ha).1, (pgdIndex_user hb).1, show pgdirShift .rv64 = 30 from rfl,
      show pmdRegionShift .rv64 = 21 from rfl]
    omega
  | rv32 =>
    simp only [path, upper, lastUpper, List.nil_append, List.cons.injEq, and_true,
      (pgdIndex_user ha).1, (pgdIndex_user hb).1, pmdRegionShift]

theorem samePage_iff (ha : User a) (hb : User b) :
    path a = path b ∧ pteIndex a = pteIndex b ↔ SamePage a b := by
  rw [samePmd_iff ha hb, SamePmd, SamePage, shift_eq_iff, shift_eq_iff, pteIndex, pteIndex]
  cases w with
  | rv64 =>
    rw [show ptrsPerPte .rv64 = 2 ^ 9 from rfl, toNat_entryIndex _ _ _ (by decide),
      toNat_entryIndex _ _ _ (by decide), pmdRegionShift, pmdShift, pageShift]
    omega
  | rv32 =>
    rw [show ptrsPerPte .rv32 = 2 ^ 10 from rfl, toNat_entryIndex _ _ _ (by decide),
      toNat_entryIndex _ _ _ (by decide), pmdRegionShift, pgdirShift, pageShift]
    omega

end Indices

/-! ## The tables as a forest -/

/-- The form of the tables, with `va_pa_offset`. -/
def format (K : Type) (offset : Word w) : Format (Word w) Nat (Word w) (Option K) where
  next v := if ptePresent v then some (((v >>> pagePfnShift) <<< pageShift) + offset) else none
  empty := 0
  next_empty := by simp [ptePresent]
  depth :=
    match w with
    | .rv64 => 2
    | .rv32 => 1
  own m i := ∃ addr : Word w, InMap m addr ∧ i = pgdIndex addr

def State.radix (s : State w K H) : Radix.Tables (Word w) Nat (Word w) (Option K) where
  mem p i := s.tables.mem ⟨p, i⟩
  root := s.root

/-- The form of the tables of a state. -/
abbrev State.format (s : State w K H) : Format (Word w) Nat (Word w) (Option K) :=
  AddressSpace.format K s.tables.vaPaOffset

/-- The entry of an address in a map of a process. -/
def State.view (s : State w K H) (k : K) (addr : Word w) : Word w :=
  (s.pgd k).elim 0 fun root => entry s.tables root addr

section Walk

variable {s : State w K H} {m : Option K} {root addr : Word w}

theorem length_path (addr : Word w) : (path addr).length = s.format.depth := by
  cases w with
  | rv64 => rfl
  | rv32 => rfl

theorem length_upper (addr : Word w) : (upper addr).length < s.format.depth := by
  cases w with
  | rv64 => exact Nat.lt_succ_self 1
  | rv32 => exact Nat.zero_lt_one

theorem owns_path (h : InMap m addr) (is : List Nat) : s.format.Owns m (path addr ++ is) := by
  intro i hi
  have hhead : (path addr ++ is).head? = some (pgdIndex addr) := by
    rw [List.head?_append, head_path, Option.some_or]
  exact ⟨addr, h, Option.some.inj (hi.symm.trans hhead)⟩

theorem owns_upper (h : InMap m addr) : s.format.Owns m (upper addr ++ [lastUpper addr]) := by
  have howns : s.format.Owns m (path addr ++ []) := owns_path h []
  rwa [List.append_nil] at howns

theorem next_of_present {v : Word w} (h : ptePresent v) :
    s.format.next v = some (s.tables.pageVaddr v) := if_pos h

theorem next_of_not_present {v : Word w} (h : ¬ ptePresent v) : s.format.next v = none := if_neg h

/-- Where a walk is at the level above the last. -/
theorem table_upper (hroot : s.root m = some root)
    (hpud : pudPresent (s.tables.mem (pud root addr)) = true) :
    Radix.table s.format s.radix m (upper addr) = some (pmd s.tables root addr).page ∧
      (pmd s.tables root addr).index = lastUpper addr := by
  cases w with
  | rv32 => exact ⟨hroot, rfl⟩
  | rv64 =>
    have hpres : ptePresent (s.tables.mem ⟨root, pgdIndex addr⟩) := by
      simpa [pudPresent, ptePresent, pud, pudOffset] using hpud
    refine ⟨?_, rfl⟩
    show (s.root m).bind _ = _
    rw [hroot]
    exact next_of_present hpres

/-- Where a walk is at the last level. -/
theorem table_path (hroot : s.root m = some root) (h : Reachable s.tables root addr) :
    Radix.table s.format s.radix m (path addr) =
      some (pteOffsetKernel s.tables (pmd s.tables root addr) addr).page := by
  obtain ⟨hpage, hindex⟩ := table_upper hroot h.1
  rw [path, Radix.table_concat, hpage, Option.bind_some, ← hindex]
  exact next_of_present (pmdPresent_iff.mp h.2)

theorem table_path_none (hroot : s.root m = some root) (h : ¬ Reachable s.tables root addr) :
    Radix.table s.format s.radix m (path addr) = none := by
  rw [path, Radix.table_concat]
  by_cases hpud : pudPresent (s.tables.mem (pud root addr)) = true
  · obtain ⟨hpage, hindex⟩ := table_upper hroot hpud
    rw [hpage, Option.bind_some, ← hindex]
    refine next_of_not_present fun hpmd => h ⟨hpud, pmdPresent_iff.mpr hpmd⟩
  · have hnone : Radix.table s.format s.radix m (upper addr) = none := by
      cases w with
      | rv32 => exact absurd rfl hpud
      | rv64 =>
        have hpres : ¬ ptePresent (s.tables.mem ⟨root, pgdIndex addr⟩) := by
          simpa [pudPresent, ptePresent, pud, pudOffset] using hpud
        show (s.root m).bind _ = _
        rw [hroot]
        exact next_of_not_present hpres
    rw [hnone, Option.bind_none]

/-- **The entry of an address is the value of its path.** -/
theorem view_eq (s : State w K H) (k : K) (addr : Word w) :
    s.view k addr = Radix.lookup s.format s.radix (some k) (path addr) (pteIndex addr) := by
  unfold State.view Radix.lookup entry
  cases hroot : s.pgd k with
  | none =>
    have hnone : Radix.table s.format s.radix (some k) (path addr) = none :=
      Radix.table_of_root hroot
    rw [hnone]
    rfl
  | some root =>
    rw [Option.elim_some]
    by_cases h : Reachable s.tables root addr
    · rw [if_pos h, table_path (m := some k) hroot h]
      rfl
    · rw [if_neg h, table_path_none (m := some k) hroot h]
      rfl

end Walk

/-! ## The invariant -/

/-- No table is on two paths, the tables are pages in use, and each hart has the top level of its
map. -/
structure Inv (s : State w K H) : Prop where
  forest : Forest s.format s.radix
  used : ∀ page, Radix.Reached s.format s.radix page → s.tables.table page ≠ none
  pages : ∀ page, s.tables.table page ≠ none → s.tables.pfnToVirt (s.tables.virtToPfn page) = page
  sptbr : ∀ h, s.root (s.current h) = some (s.tables.pfnToVirt (s.sptbr h))

section Operations

variable {s : State w K H} {m : Option K} {root addr page : Word w} {k : K}

theorem Inv.fresh (h : Inv s) (hfree : Free s.tables page) :
    ¬ Radix.Reached s.format s.radix page := fun hr => h.used page hr hfree.1

/-- The top level of a map is a page in use. -/
theorem Inv.root_used (h : Inv s) (hroot : s.root m = some root) : s.tables.table root ≠ none :=
  h.used root (Radix.reached_root hroot)

theorem radix_set (s : State w K H) (p : Ptr w) (v : Word w) :
    { s with tables := s.tables.set p v }.radix = s.radix.write p.page p.index v := by
  unfold State.radix Radix.Tables.write
  congr 1
  funext page i
  by_cases hpage : page = p.page
  · subst hpage
    by_cases hi : i = p.index
    · subst hi
      simp
    · have hne : (⟨p.page, i⟩ : Ptr w) ≠ p := fun heq => hi (congrArg Ptr.index heq)
      simp [State.set_other hne, hi]
  · have hne : (⟨page, i⟩ : Ptr w) ≠ p := fun heq => hpage (congrArg Ptr.page heq)
    simp [State.set_other hne, hpage]

theorem radix_newPage (s : State w K H) (page : Word w) (level : Table) (es : Nat → Word w) :
    { s with tables := newPage s.tables page level es }.radix = s.radix.fill page es := by
  unfold State.radix Radix.Tables.fill newPage
  congr 1
  funext q i
  by_cases hq : q = page
  · subst hq
    simp
  · simp [hq]

theorem radix_populate (s : State w K H) (p : Ptr w) (page : Word w) (level : Table) :
    { s with tables := populate s.tables p page level }.radix =
      (s.radix.fill page fun _ => 0).write p.page p.index
        (s.tables.virtToPfn page <<< pagePfnShift ||| pageTable) := by
  rw [← radix_newPage s page level]
  exact radix_set { s with tables := newPage s.tables page level fun _ => 0 } p _

theorem next_table (s : State w K H)
    (hpage : s.tables.pfnToVirt (s.tables.virtToPfn page) = page) :
    s.format.next (s.tables.virtToPfn page <<< pagePfnShift ||| pageTable) = some page := by
  have hpres : ptePresent (s.tables.virtToPfn page <<< pagePfnShift ||| pageTable) := by
    rw [ptePresent_iff, BitVec.getLsbD_or]
    have htable : (pageTable : Word w).getLsbD 0 = true := by cases w <;> rfl
    rw [htable, Bool.or_true]
  rw [next_of_present hpres, pageVaddr_table hpage]

/-- A page comes into use. -/
theorem Inv.pages_newPage (h : Inv s) (hfree : Free s.tables page) {level : Table} {q : Word w}
    (hq : Function.update s.tables.table page (some level) q ≠ none) :
    s.tables.pfnToVirt (s.tables.virtToPfn q) = q := by
  by_cases hqp : q = page
  · rw [hqp]
    exact hfree.2
  · rw [Function.update_of_ne hqp] at hq
    exact h.pages q hq

/-- A page that was in use, or comes into use. -/
theorem Inv.used_newPage (h : Inv s) {level : Table} {q : Word w}
    (hq : Radix.Reached s.format s.radix q ∨ q = page) :
    Function.update s.tables.table page (some level) q ≠ none := by
  by_cases hqp : q = page
  · rw [hqp, Function.update_self]
    simp
  · rw [Function.update_of_ne hqp]
    exact h.used q (hq.resolve_right hqp)

/-- **A value is set.** -/
theorem Inv.set (h : Inv s) (hroot : s.root m = some root) (ha : InMap m addr)
    (hr : Reachable s.tables root addr) (v : Word w) :
    Inv { s with
      tables := s.tables.set (pteOffsetKernel s.tables (pmd s.tables root addr) addr) v } where
  forest := by
    rw [radix_set]
    exact h.forest.store (owns_path ha []).left (length_path addr) (table_path hroot hr)
  used := by
    intro page hpage
    rw [radix_set] at hpage
    obtain ⟨m', js, ho, hl, hp⟩ := hpage
    have hkeep := h.forest.table_store (i := pteIndex addr) (v := v) (owns_path ha []).left
      (length_path addr) (table_path hroot hr) ho hl
    exact h.used page ⟨m', js, ho, hl, hkeep.symm.trans hp⟩
  pages := h.pages
  sptbr := h.sptbr

/-- **A table is added** at an empty entry. -/
theorem Inv.populate (h : Inv s) {js : List Nat} {p : Ptr w} {level : Table}
    (ho : s.format.Owns m (js ++ [p.index])) (hl : js.length < s.format.depth)
    (hp : Radix.table s.format s.radix m js = some p.page) (hempty : s.tables.mem p = 0)
    (hfree : Free s.tables page) :
    Inv { s with tables := populate s.tables p page level } where
  forest := by
    rw [radix_populate]
    refine h.forest.link ho hl hp ?_ (h.fresh hfree) (next_table s hfree.2)
    show s.format.next (s.tables.mem p) = none
    rw [hempty]
    exact s.format.next_empty
  used := by
    intro q hq
    rw [radix_populate] at hq
    refine h.used_newPage (h.forest.reached_link ho hl hp ?_ (h.fresh hfree)
      (next_table s hfree.2) hq)
    show s.format.next (s.tables.mem p) = none
    rw [hempty]
    exact s.format.next_empty
  pages := fun _ hq => h.pages_newPage hfree hq
  sptbr := h.sptbr

/-- **A table is taken out** and freed. -/
theorem Inv.free (h : Inv s) {js : List Nat} {p : Ptr w}
    (ho : s.format.Owns m (js ++ [p.index])) (hl : js.length < s.format.depth)
    (hp : Radix.table s.format s.radix m js = some p.page) (hpres : ptePresent (s.tables.mem p)) :
    Inv { s with tables := freePage (s.tables.set p 0) (s.tables.pageVaddr (s.tables.mem p)) } := by
  have hradix : { s with
      tables := freePage (s.tables.set p 0) (s.tables.pageVaddr (s.tables.mem p)) }.radix =
        s.radix.write p.page p.index 0 := radix_set s p 0
  refine ⟨?_, ?_, ?_, h.sptbr⟩
  · rw [hradix]
    exact h.forest.unlink ho hl hp s.format.next_empty
  · intro q hq
    rw [hradix] at hq
    obtain ⟨hold, hne⟩ := h.forest.reached_unlink ho hl hp s.format.next_empty hq
    have hqp : q ≠ s.tables.pageVaddr (s.tables.mem p) := by
      rintro rfl
      exact hne (next_of_present hpres)
    show Function.update s.tables.table _ none q ≠ none
    rw [Function.update_of_ne hqp]
    exact h.used q hold
  · intro q hq
    change Function.update s.tables.table _ none q ≠ none at hq
    by_cases hqp : q = s.tables.pageVaddr (s.tables.mem p)
    · rw [hqp, Function.update_self] at hq
      exact absurd rfl hq
    · rw [Function.update_of_ne hqp] at hq
      exact h.pages q hq

/-- An entry of the user half. -/
theorem own_user {i : Nat} (hi : s.format.own (some k) i) : i < userPtrsPerPgd w := by
  obtain ⟨addr, ha, rfl⟩ := hi
  exact (pgdIndex_user ha).2

/-- The entries of a new top level. -/
theorem own_pgdAlloc {i : Nat} (hi : s.format.own (some k) i) :
    (if i < userPtrsPerPgd w then 0 else s.tables.mem ⟨s.tables.initPgd, i⟩) = s.format.empty :=
  if_pos (own_user hi)

variable [DecidableEq K]

theorem radix_pgdAlloc (s : State w K H) (k : K) (page : Word w) :
    { s with
      tables := Vmalloc.pgdAlloc s.tables page
      pgd := Function.update s.pgd k (some page) }.radix =
    (s.radix.fill page fun i =>
      if i < userPtrsPerPgd w then 0 else s.tables.mem ⟨s.tables.initPgd, i⟩).setRoot (some k)
        (some page) := by
  rw [← radix_newPage s page .process]
  unfold State.radix Radix.Tables.setRoot
  congr 1
  funext m
  cases m with
  | none => simp [State.root, Vmalloc.pgdAlloc, newPage]
  | some k' => by_cases hk : k' = k <;> simp [State.root, hk]

theorem radix_pgdFree (s : State w K H) (k : K) (page : Word w) :
    { s with
      tables := freePage s.tables page
      pgd := Function.update s.pgd k none }.radix = s.radix.setRoot (some k) none := by
  unfold State.radix Radix.Tables.setRoot freePage
  congr 1
  funext m
  cases m with
  | none => simp [State.root]
  | some k' => by_cases hk : k' = k <;> simp [State.root, hk]

/-- **A map is made.** -/
theorem Inv.pgdAlloc (h : Inv s) (hk : s.pgd k = none) (hfree : Free s.tables page) :
    Inv { s with
      tables := Vmalloc.pgdAlloc s.tables page
      pgd := Function.update s.pgd k (some page) } where
  forest := by
    rw [radix_pgdAlloc]
    exact h.forest.enroll (h.fresh hfree) fun i hi => own_pgdAlloc hi
  used := by
    intro q hq
    rw [radix_pgdAlloc] at hq
    exact h.used_newPage (Radix.reached_enroll (h.fresh hfree) (fun i hi => own_pgdAlloc hi) hq)
  pages := fun _ hq => h.pages_newPage hfree hq
  sptbr := by
    intro hart
    have hold := h.sptbr hart
    show State.root _ (s.current hart) = _
    cases hc : s.current hart with
    | none =>
      rw [hc] at hold
      exact hold
    | some k' =>
      rw [hc] at hold
      have hne : k' ≠ k := by
        rintro rfl
        cases hold.symm.trans hk
      exact (Function.update_of_ne hne _ _).trans hold

/-- **A map is given up.** -/
theorem Inv.pgdFree (h : Inv s) (hroot : s.pgd k = some root) (hidle : ∀ h, s.current h ≠ some k) :
    Inv { s with tables := freePage s.tables root, pgd := Function.update s.pgd k none } where
  forest := by
    rw [radix_pgdFree]
    exact h.forest.dismiss
  used := by
    intro q hq
    rw [radix_pgdFree] at hq
    obtain ⟨hold, hne⟩ := h.forest.reached_dismiss (m := some k) hroot hq
    show Function.update s.tables.table root none q ≠ none
    rw [Function.update_of_ne hne]
    exact h.used q hold
  pages := by
    intro q hq
    change Function.update s.tables.table root none q ≠ none at hq
    by_cases hqr : q = root
    · rw [hqr, Function.update_self] at hq
      exact absurd rfl hq
    · rw [Function.update_of_ne hqr] at hq
      exact h.pages q hq
  sptbr := by
    intro hart
    have hold := h.sptbr hart
    show State.root _ (s.current hart) = _
    cases hc : s.current hart with
    | none =>
      rw [hc] at hold
      exact hold
    | some k' =>
      rw [hc] at hold
      have hne : k' ≠ k := by
        rintro rfl
        exact hidle hart hc
      exact (Function.update_of_ne hne _ _).trans hold

variable [DecidableEq H]

omit [DecidableEq K] in
/-- **A hart goes to another map.** -/
theorem Inv.switchMm (h : Inv s) (hart : H) (hroot : s.root m = some root) :
    Inv { s with
      current := Function.update s.current hart m
      sptbr := Function.update s.sptbr hart (s.tables.virtToPfn root) } where
  forest := h.forest
  used := h.used
  pages := h.pages
  sptbr := by
    intro hart'
    show s.root (Function.update s.current hart m hart') =
      some (s.tables.pfnToVirt (Function.update s.sptbr hart _ hart'))
    by_cases hh : hart' = hart
    · rw [hh, Function.update_self, Function.update_self, hroot,
        h.pages root (h.root_used hroot)]
    · rw [Function.update_of_ne hh, Function.update_of_ne hh]
      exact h.sptbr hart'

omit [DecidableEq K] [DecidableEq H] in
/-- What a fault does to the tables: an entry of the kernel half is copied, or nothing. -/
theorem Inv.fault_cases (h : Inv s) (hart : H) (hv : inVmalloc addr) :
    { s with tables := (Vmalloc.vmallocFault (s.on hart) addr).2 }.radix = s.radix ∨
      ∃ k root v, s.pgd k = some root ∧ ¬ s.format.own (some k) (pgdIndex addr) ∧
        { s with tables := (Vmalloc.vmallocFault (s.on hart) addr).2 }.radix =
          s.radix.write root (pgdIndex addr) v := by
  have hroot := h.sptbr hart
  rw [vmallocFault_eq]
  have hset := radix_set s ⟨(s.on hart).pgd, pgdIndex addr⟩
    (s.tables.mem ⟨s.tables.initPgd, pgdIndex addr⟩)
  cases hc : s.current hart with
  | none =>
    rw [hc] at hroot
    have hpgd : (s.on hart).pgd = s.tables.initPgd := (Option.some.inj hroot).symm
    refine .inl (hset.trans ?_)
    rw [hpgd]
    unfold Radix.Tables.write
    have hself := Function.update_eq_self (pgdIndex addr) (s.radix.mem s.tables.initPgd)
    show { s.radix with mem := Function.update s.radix.mem s.tables.initPgd (Function.update
      (s.radix.mem s.tables.initPgd) (pgdIndex addr)
        (s.radix.mem s.tables.initPgd (pgdIndex addr))) } = _
    rw [hself, Function.update_eq_self]
  | some k =>
    rw [hc] at hroot
    refine .inr ⟨k, _, _, hroot, fun hown => ?_, hset⟩
    exact absurd (own_user hown) (Nat.not_lt.mpr (userPtrsPerPgd_le hv))

omit [DecidableEq K] [DecidableEq H] in
/-- **A fault on the vmalloc area.** -/
theorem Inv.fault (h : Inv s) (hart : H) (hv : inVmalloc addr) :
    Inv { s with tables := (Vmalloc.vmallocFault (s.on hart) addr).2 } := by
  have hcases := h.fault_cases hart hv
  rw [vmallocFault_eq] at hcases ⊢
  refine ⟨?_, fun q hq => ?_, h.pages, h.sptbr⟩
  · rcases hcases with heq | ⟨k, root, v, hroot, hown, heq⟩
    · rw [heq]
      exact h.forest
    · rw [heq]
      exact h.forest.graft (m := some k) hroot hown
  · rcases hcases with heq | ⟨k, root, v, hroot, hown, heq⟩
    · rw [heq] at hq
      exact h.used q hq
    · rw [heq] at hq
      obtain ⟨m', js, ho, hl, hp⟩ := hq
      have hkeep := h.forest.table_graft (m := some k) (v := v) hroot hown ho hl
      exact h.used q ⟨m', js, ho, hl, hkeep.symm.trans hp⟩

end Operations

/-! ## The entries -/

section Entries

variable [DecidableEq K] {s : State w K H} {m : Option K} {root addr page a : Word w} {k k' : K}

theorem view_set (h : Inv s) (hroot : s.root m = some root) (haddr : InMap m addr)
    (hr : Reachable s.tables root addr) (v : Word w) (ha : User a) :
    { s with
      tables := s.tables.set (pteOffsetKernel s.tables (pmd s.tables root addr) addr) v }.view k a =
        if m = some k ∧ SamePage a addr then v else s.view k a := by
  have hlookup : Radix.lookup s.format (s.radix.write _ (pteIndex addr) v) (some k) (path a)
      (pteIndex a) = _ :=
    Radix.lookup_store h.forest (owns_path haddr []).left (length_path addr) (table_path hroot hr)
      (owns_path (m := some k) ha []).left (length_path a)
  rw [view_eq, view_eq, radix_set]
  refine hlookup.trans (if_congr ?_ rfl rfl)
  constructor
  · rintro ⟨rfl, hkey⟩
    exact ⟨rfl, (samePage_iff ha haddr).mp hkey⟩
  · rintro ⟨rfl, hpage⟩
    exact ⟨rfl, (samePage_iff ha haddr).mpr hpage⟩

omit [DecidableEq K] in
theorem view_populate (h : Inv s) {js : List Nat} {p : Ptr w} {level : Table}
    (ho : s.format.Owns m (js ++ [p.index])) (hl : js.length < s.format.depth)
    (hp : Radix.table s.format s.radix m js = some p.page) (hempty : s.tables.mem p = 0)
    (hfree : Free s.tables page) (ha : User a) :
    { s with tables := populate s.tables p page level }.view k a = s.view k a := by
  have hnone : s.format.next (s.radix.mem p.page p.index) = none := by
    show s.format.next (s.tables.mem p) = none
    rw [hempty]
    exact s.format.next_empty
  rw [view_eq, view_eq, radix_populate]
  exact Radix.lookup_link h.forest ho hl hp hnone (h.fresh hfree) (next_table s hfree.2)
    (owns_path (m := some k) ha []).left (length_path a)

/-- The entries when a table is taken out. -/
theorem view_free (h : Inv s) {js : List Nat} {p : Ptr w} (t : Word w)
    (ho : s.format.Owns m (js ++ [p.index])) (hl : js.length < s.format.depth)
    (hp : Radix.table s.format s.radix m js = some p.page) (ha : User a) :
    { s with tables := freePage (s.tables.set p 0) t }.view k a =
      if some k = m ∧ js ++ [p.index] <+: path a then 0 else s.view k a := by
  have hradix : { s with tables := freePage (s.tables.set p 0) t }.radix =
      s.radix.write p.page p.index 0 := radix_set s p 0
  rw [view_eq, view_eq, hradix]
  exact Radix.lookup_unlink h.forest ho hl hp s.format.next_empty
    (owns_path (m := some k) ha []).left (length_path a)

theorem view_pgdAlloc (h : Inv s) (hfree : Free s.tables page) (ha : User a) :
    { s with
      tables := Vmalloc.pgdAlloc s.tables page
      pgd := Function.update s.pgd k (some page) }.view k' a =
        if k' = k then 0 else s.view k' a := by
  rw [view_eq, view_eq, radix_pgdAlloc]
  refine (Radix.lookup_enroll (h.fresh hfree) (fun i hi => own_pgdAlloc hi)
    (owns_path (m := some k') ha _) (length_path a).le).trans ?_
  exact if_congr (Option.some_inj) rfl rfl

theorem view_pgdFree :
    { s with tables := freePage s.tables page, pgd := Function.update s.pgd k none }.view k' a =
      if k' = k then 0 else s.view k' a := by
  rw [view_eq, view_eq, radix_pgdFree]
  exact Radix.lookup_dismiss.trans (if_congr Option.some_inj rfl rfl)

omit [DecidableEq K] in
theorem view_fault (h : Inv s) (hart : H) (hv : inVmalloc addr) (ha : User a) :
    { s with tables := (Vmalloc.vmallocFault (s.on hart) addr).2 }.view k a = s.view k a := by
  have hcases := h.fault_cases hart hv
  rw [vmallocFault_eq] at hcases ⊢
  rw [view_eq, view_eq]
  rcases hcases with heq | ⟨k', root, v, hroot, hown, heq⟩
  · rw [heq]
    rfl
  · rw [heq]
    exact Radix.lookup_graft (m := some k') h.forest hroot hown (owns_path (m := some k) ha _)
      (length_path a)

end Entries

/-! ## Runs -/

section Run

variable [DecidableEq K] [DecidableEq H] [Fintype H] {s s' : State w K H} {a : Act w K H}

omit [DecidableEq K] [DecidableEq H] [Fintype H] in
theorem onRoot_eq {m : Option K} {act : Word w → Option (Vmalloc.State w)}
    (h : s.onRoot m act = some s') :
    ∃ root tables, s.root m = some root ∧ act root = some tables ∧ s' = { s with tables } := by
  simp only [State.onRoot, Option.bind_eq_bind, Option.bind_eq_some_iff, Option.some.injEq] at h
  obtain ⟨root, hroot, tables, hact, rfl⟩ := h
  exact ⟨root, tables, hroot, hact, rfl⟩

omit [DecidableEq K] [DecidableEq H] [Fintype H] in
theorem ite_eq_getD {α : Type} (c : Prop) [Decidable c] (v x : α) :
    (if c then v else x) = (if c then some v else none).getD x := by
  split_ifs
  · rfl
  · rfl

/-- **The invariant is kept by every step**, and the entries change as `spec` says. -/
theorem Inv.step (h : Inv s) (hs : s.step a = some s') :
    Inv s' ∧ ∀ k addr, User addr → s'.view k addr = spec s.view a k addr := by
  cases a with
  | pgdAlloc k page =>
    obtain ⟨⟨hk, hfree⟩, rfl⟩ := Option.ite_none_right_eq_some.mp hs |>.imp_right Option.some.inj
    refine ⟨h.pgdAlloc hk hfree, fun k' addr ha => ?_⟩
    exact (view_pgdAlloc h hfree ha).trans (ite_eq_getD ..)
  | pudPopulate m addr page =>
    obtain ⟨root, tables, hroot, hact, rfl⟩ := onRoot_eq hs
    obtain ⟨⟨haddr, hfree, hnone⟩, rfl⟩ :=
      Option.ite_none_right_eq_some.mp hact |>.imp_right Option.some.inj
    cases w with
    | rv32 => cases hnone
    | rv64 =>
      have hempty : s.tables.mem (pud root addr) = 0 := by simpa [pudNone] using hnone
      have hl : ([] : List Nat).length < s.format.depth := Nat.zero_lt_two
      have ho : s.format.Owns m ([] ++ [(pud root addr).index]) :=
        fun i hi => ⟨addr, haddr, (Option.some.inj hi).symm⟩
      exact ⟨h.populate ho hl hroot hempty hfree,
        fun k a ha => view_populate h ho hl hroot hempty hfree ha⟩
  | pmdPopulate m addr page =>
    obtain ⟨root, tables, hroot, hact, rfl⟩ := onRoot_eq hs
    obtain ⟨⟨haddr, hfree, hpud, hnone⟩, rfl⟩ :=
      Option.ite_none_right_eq_some.mp hact |>.imp_right Option.some.inj
    obtain ⟨hpage, hindex⟩ := table_upper hroot hpud
    have hempty : s.tables.mem (pmd s.tables root addr) = 0 := by simpa [pmdNone] using hnone
    have ho : s.format.Owns m (upper addr ++ [(pmd s.tables root addr).index]) := by
      rw [hindex]
      exact owns_upper haddr
    exact ⟨h.populate ho (length_upper addr) hpage hempty hfree,
      fun k a ha => view_populate h ho (length_upper addr) hpage hempty hfree ha⟩
  | setPteAt m addr pte =>
    obtain ⟨root, tables, hroot, hact, rfl⟩ := onRoot_eq hs
    obtain ⟨⟨haddr, hr⟩, rfl⟩ :=
      Option.ite_none_right_eq_some.mp hact |>.imp_right Option.some.inj
    refine ⟨h.set hroot haddr hr pte, fun k a ha => ?_⟩
    rw [view_set h hroot haddr hr pte ha]
    cases m with
    | none => exact if_neg fun hand => by cases hand.1
    | some k' =>
      have hcond : some k' = some k ∧ SamePage a addr ↔ k = k' ∧ SamePage a addr :=
        and_congr_left' (Option.some_inj.trans eq_comm)
      exact (if_congr hcond rfl rfl).trans (ite_eq_getD ..)
  | pteFree k addr =>
    obtain ⟨root, tables, hroot, hact, rfl⟩ := onRoot_eq hs
    obtain ⟨⟨haddr, hr⟩, rfl⟩ :=
      Option.ite_none_right_eq_some.mp hact |>.imp_right Option.some.inj
    obtain ⟨hpage, hindex⟩ := table_upper hroot hr.1
    have ho : s.format.Owns (some k) (upper addr ++ [(pmd s.tables root addr).index]) := by
      rw [hindex]
      exact owns_upper haddr
    refine ⟨h.free ho (length_upper addr) hpage (pmdPresent_iff.mp hr.2), fun k' a ha => ?_⟩
    have hpath : upper addr ++ [lastUpper addr] <+: path a ↔ SamePmd a addr := by
      rw [← samePmd_iff ha haddr]
      constructor
      · intro hpre
        exact (hpre.eq_of_length ((length_path (s := s) addr).trans (length_path a).symm)).symm
      · intro heq
        rw [heq]
        exact List.prefix_refl _
    rw [← hindex] at hpath
    exact ((view_free h _ ho (length_upper addr) hpage ha).trans
      (if_congr (and_congr Option.some_inj hpath) rfl rfl)).trans (ite_eq_getD ..)
  | pmdFree k addr =>
    obtain ⟨root, tables, hroot, hact, rfl⟩ := onRoot_eq hs
    obtain ⟨⟨haddr, hpud⟩, rfl⟩ :=
      Option.ite_none_right_eq_some.mp hact |>.imp_right Option.some.inj
    cases w with
    | rv32 => exact ⟨h, fun k' a ha => rfl⟩
    | rv64 =>
      have hpres : ptePresent (s.tables.mem (pud root addr)) := by
        simpa [pudPresent, ptePresent] using hpud
      have hl : ([] : List Nat).length < s.format.depth := Nat.zero_lt_two
      have ho : s.format.Owns (some k) ([] ++ [(pud root addr).index]) :=
        fun i hi => ⟨addr, haddr, (Option.some.inj hi).symm⟩
      refine ⟨h.free ho hl hroot hpres, fun k' a ha => ?_⟩
      have hpath : [] ++ [(pud root addr).index] <+: path a ↔ SamePgd a addr := by
        rw [← samePgd_iff ha haddr]
        show [pgdIndex addr] <+: [pgdIndex a, pmdIndex a] ↔ _
        simp [List.cons_prefix_cons, eq_comm]
      have hcond : some k' = some k ∧ [] ++ [(pud root addr).index] <+: path a ↔
          Xlen.rv64 = .rv64 ∧ k' = k ∧ SamePgd a addr :=
        (and_congr Option.some_inj hpath).trans (and_iff_right rfl).symm
      exact ((view_free h _ ho hl hroot ha).trans (if_congr hcond rfl rfl)).trans (ite_eq_getD ..)
  | pgdFree k =>
    simp only [State.step, Option.bind_eq_bind, Option.bind_eq_some_iff,
      Option.ite_none_right_eq_some, Option.some.injEq] at hs
    obtain ⟨root, hroot, hidle, rfl⟩ := hs
    refine ⟨h.pgdFree hroot hidle, fun k' addr _ => ?_⟩
    exact view_pgdFree.trans (ite_eq_getD ..)
  | switchMm hart next =>
    simp only [State.step, Option.bind_eq_bind, Option.bind_eq_some_iff] at hs
    obtain ⟨root, hroot, hs⟩ := hs
    split_ifs at hs with hsame
    · obtain rfl := Option.some.inj hs
      exact ⟨h.switchMm hart hroot, fun k addr _ => rfl⟩
    · obtain rfl := Option.some.inj hs
      exact ⟨h, fun k addr _ => rfl⟩
  | fault hart addr =>
    obtain ⟨hv, rfl⟩ := Option.ite_none_right_eq_some.mp hs |>.imp_right Option.some.inj
    exact ⟨h.fault hart hv, fun k a ha => view_fault h hart hv ha⟩

/-- After `paging_init`: no process yet, every hart on the boot page table, which is that of
`init_mm` and has nothing in the vmalloc area. -/
structure Boot (s : State w K H) : Prop where
  vmalloc : ∀ addr : Word w, inVmalloc addr →
    ¬ ptePresent (s.tables.mem ⟨s.tables.initPgd, pgdIndex addr⟩)
  initPgd : s.tables.table s.tables.initPgd ≠ none
  pages : ∀ page, s.tables.table page ≠ none → s.tables.pfnToVirt (s.tables.virtToPfn page) = page
  empty : ∀ k, s.pgd k = none
  harts : ∀ h, s.current h = none ∧ s.tables.pfnToVirt (s.sptbr h) = s.tables.initPgd

omit [DecidableEq K] [DecidableEq H] [Fintype H] in
theorem Boot.table (h : Boot s) {m : Option K} {js : List Nat} {page : Word w}
    (ho : s.format.Owns m js) (hp : Radix.table s.format s.radix m js = some page) :
    m = none ∧ js = [] ∧ page = s.tables.initPgd := by
  cases m with
  | some k =>
    have hnone : Radix.table s.format s.radix (some k) js = none :=
      Radix.table_of_root (h.empty k)
    cases hnone.symm.trans hp
  | none =>
    cases js with
    | nil => exact ⟨rfl, rfl, (Option.some.inj hp).symm⟩
    | cons i js =>
      obtain ⟨addr, hv, rfl⟩ := ho i rfl
      have hroot : Radix.table s.format s.radix none [] = some s.tables.initPgd := rfl
      have hnone : Radix.table s.format s.radix none (pgdIndex addr :: js) = none :=
        Radix.table_of_none hroot (next_of_not_present (h.vmalloc addr hv)) ⟨js, rfl⟩
      cases hnone.symm.trans hp

omit [DecidableEq K] [DecidableEq H] [Fintype H] in
theorem Boot.inv (h : Boot s) : Inv s where
  forest := by
    intro m js m' js' page ho ho' _ _ hp hp'
    obtain ⟨rfl, rfl, -⟩ := h.table ho hp
    obtain ⟨rfl, rfl, -⟩ := h.table ho' hp'
    exact ⟨rfl, rfl⟩
  used := by
    rintro page ⟨m, js, ho, -, hp⟩
    obtain ⟨-, -, rfl⟩ := h.table ho hp
    exact h.initPgd
  pages := h.pages
  sptbr := by
    intro hart
    obtain ⟨hcurrent, hsptbr⟩ := h.harts hart
    rw [hcurrent, hsptbr]
    rfl

omit [DecidableEq K] [DecidableEq H] [Fintype H] in
/-- **A hart finds the entries of its map.** -/
theorem Inv.entry_current (h : Inv s) {hart : H} {k : K} (hcurrent : s.current hart = some k)
    (addr : Word w) :
    entry s.tables (s.tables.pfnToVirt (s.sptbr hart)) addr = s.view k addr := by
  have hroot : s.pgd k = some (s.tables.pfnToVirt (s.sptbr hart)) := by
    have hsptbr := h.sptbr hart
    rwa [hcurrent] at hsptbr
  rw [State.view, hroot, Option.elim_some]

omit [DecidableEq K] [DecidableEq H] [Fintype H] in
/-- The addresses of a page have one entry. -/
theorem view_congr {k : K} {addr addr' : Word w} (ha : User addr) (ha' : User addr')
    (hpage : SamePage addr addr') : s.view k addr = s.view k addr' := by
  obtain ⟨hpath, hpte⟩ := (samePage_iff ha ha').mpr hpage
  rw [view_eq, view_eq, hpath, hpte]

/-- A hart has the map that it had, but for `switch_mm`. -/
theorem current_step (hs : s.step a = some s') : s'.current = s.current ∨
    ∃ hart next, a = .switchMm hart next ∧ s.current hart ≠ next ∧
      s'.current = Function.update s.current hart next := by
  cases a with
  | pgdAlloc k page =>
    obtain ⟨-, rfl⟩ := Option.ite_none_right_eq_some.mp hs |>.imp_right Option.some.inj
    exact .inl rfl
  | pudPopulate m addr page | pmdPopulate m addr page | setPteAt m addr pte | pteFree k addr
  | pmdFree k addr =>
    obtain ⟨root, tables, -, -, rfl⟩ := onRoot_eq hs
    exact .inl rfl
  | pgdFree k =>
    simp only [State.step, Option.bind_eq_bind, Option.bind_eq_some_iff,
      Option.ite_none_right_eq_some, Option.some.injEq] at hs
    obtain ⟨root, -, -, rfl⟩ := hs
    exact .inl rfl
  | switchMm hart next =>
    simp only [State.step, Option.bind_eq_bind, Option.bind_eq_some_iff] at hs
    obtain ⟨root, -, hs⟩ := hs
    split_ifs at hs with hne
    · obtain rfl := Option.some.inj hs
      exact .inr ⟨hart, next, rfl, hne, rfl⟩
    · obtain rfl := Option.some.inj hs
      exact .inl rfl
  | fault hart addr =>
    obtain ⟨-, rfl⟩ := Option.ite_none_right_eq_some.mp hs |>.imp_right Option.some.inj
    exact .inl rfl

/-- The entries of every map along a run. -/
theorem view_run {run : List (Act w K H × State w K H)} (h : Inv s)
    (hrun : IsRun (fun s a s' => s.step a = some s') s run) {k : K} {addr : Word w}
    (ha : User addr) :
    (lastState s run).view k addr =
      lastSet (fun a => a.sets k addr) (s.view k addr) (run.map Prod.fst) := by
  induction run generalizing s with
  | nil => rfl
  | cons e rest ih =>
    obtain ⟨hs, hrest⟩ := hrun
    obtain ⟨hinv, hview⟩ := h.step hs
    rw [lastState, ih hinv hrest, hview k addr ha]
    rfl

/-- **Address spaces are separate**: along every run a map of a process has at each user address
the entry that was last set there for this map, and a hart whose map it is finds this entry, with
whatever was done to other maps, to the kernel half and to pages that have been tables before. -/
theorem address_spaces {run : List (Act w K H × State w K H)} (hboot : Boot s)
    (hrun : IsRun (fun s a s' => s.step a = some s') s run) :
    let s' := lastState s run
    ∀ k addr, User addr →
      s'.view k addr = lastSet (fun a => a.sets k addr) 0 (run.map Prod.fst) ∧
        ∀ h, s'.current h = some k →
          entry s'.tables (s'.tables.pfnToVirt (s'.sptbr h)) addr = s'.view k addr := by
  intro s' k addr ha
  have hinv : Inv s' := (hrun.invariant (fun _ _ _ h hs => (h.step hs).1) hboot.inv).last
  constructor
  · have hzero : s.view k addr = 0 := by
      rw [State.view, hboot.empty k]
      rfl
    rw [← hzero]
    exact view_run hboot.inv hrun ha
  · exact fun hart hcurrent => hinv.entry_current hcurrent addr

end Run

/-- Boot on RV64 with two harts. -/
def boot : State .rv64 Bool Bool where
  tables := bootState
  pgd _ := none
  current _ := none
  sptbr _ := 0

/-- Two processes with an entry at the same address. One of them gives its table up, and the page
becomes a table of the other for another address. -/
def twoProcesses : List (Act .rv64 Bool Bool) :=
  let page := fun k : Nat => pageOffset .rv64 + BitVec.ofNat _ (4096 * k)
  [.pgdAlloc true (page 1), .pgdAlloc false (page 2),
    .pudPopulate (some true) 0x1000 (page 3), .pmdPopulate (some true) 0x1000 (page 4),
    .setPteAt (some true) 0x1000 0x7f, .switchMm true (some true),
    .pudPopulate (some false) 0x1000 (page 5), .pmdPopulate (some false) 0x1000 (page 6),
    .setPteAt (some false) 0x1000 0x8f, .pteFree true 0x1000,
    .pmdPopulate (some false) 0x400000 (page 4), .switchMm false (some false)]

theorem boot_twoProcesses : Boot boot where
  vmalloc := by
    intro addr _ h
    exact absurd h (by simp [boot, bootState, ptePresent])
  initPgd := by decide
  pages := boot_bootState.pages
  empty _ := rfl
  harts := by decide

theorem address_spaces_twoProcesses :
    let run := trace (fun s a => s.step a) boot twoProcesses
    let s := lastState boot run
    run.length = 12 ∧ s.view true 0x1abc = 0 ∧ s.view false 0x1abc = 0x8f ∧
      entry s.tables (s.tables.pfnToVirt (s.sptbr false)) 0x400abc = s.view false 0x400abc :=
  have hspaces := address_spaces boot_twoProcesses (isRun_trace boot twoProcesses)
  ⟨by decide, (hspaces true 0x1abc (by decide)).1.trans (by decide),
    (hspaces false 0x1abc (by decide)).1.trans (by decide),
    (hspaces false 0x400abc (by decide)).2 false (by decide)⟩

end LowriscLinux.Mm.AddressSpace
