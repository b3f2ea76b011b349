import LowriscLinux.Mm.MemAccess

/-!
# `memcpy`

Model of `memcpy` in `arch/riscv/lib/memcpy.S`, block by block: a prologue over bytes up to an
aligned address, an unrolled loop over blocks of 16 words and a tail over bytes.

## What models what

* `memcpy`: the entry, lines 6-22. Less than 128 bytes, or addresses of which the low bits differ,
  go to the tail at once (lines 9-14); aligned ones go to the loop (line 16).
* `memcpyStep`: one block, from one label to the next: the prologue `1:` (lines 24-29), the bound of
  the loop `2:` (lines 32-34), the loop `3:` (lines 36-71), the joint `4:` (lines 75 and 76) and the
  tail `5:` (lines 78-82).
* `moveByte`: the body of the byte loops. `moveBlock`: that of the word loop. A block is moved in
  two groups, of 10 and of 6 words, each loaded into the registers `a4`, … before it is stored
  (`loadGroup`, `storeGroup`); the source pointer is advanced between the loads and the stores of
  the second one (line 62).
* `MemcpyState`: the registers that are kept between blocks. `t6` is the place to write to, and `a0`
  is not changed, so it is what the routine returns.

The accesses are recorded (`Mm/MemAccess.lean`): there is no exception table here. The ranges of a
caller do not wrap around the address space and do not overlap.

Results:
* `Moved.group`: a group of words moves the copied prefix forward.
* `memcpy_halts`: from each label the routine halts with what is left copied.
* **`memcpy_exact`**: the routine returns `dest` with the range copied, nothing else is written and
  nothing outside of the source is read.
-/

namespace LowriscLinux.Mm

open Lib Kernel

variable {w : Xlen}

/-- The labels of `memcpy`, by their numbers in the source. -/
inductive MemcpyLabel
  | head
  | words
  | block
  | rest
  | tail
  | ret
  deriving DecidableEq, Repr

/-- The registers that `memcpy` keeps between its blocks, with its place in the code. -/
structure MemcpyState (w : Xlen) where
  pc : MemcpyLabel
  a0 : Word w
  a1 : Word w
  a2 : Word w
  a3 : Word w
  a4 : Word w
  t6 : Word w
  mem : Recorded w

/-- What `memcpy` returns with. -/
structure MemcpyExit (w : Xlen) where
  a0 : Word w
  mem : Recorded w

/-- The loads `REG_L` of `count` words, from the word `first` behind `a` on, into as many
registers. -/
def loadGroup (m : Recorded w) (a : Word w) (first : Nat) : Nat → (Nat → Word w) × Recorded w
  | 0 => (fun _ => 0, m)
  | count + 1 =>
    let (regs, m) := loadGroup m a first count
    let (bytes, m) := m.load (a + BitVec.ofNat _ ((first + count) * szreg w)) (szreg w)
    (fun r => if r = count then ofBytes (szreg w) bytes else regs r, m)

/-- The stores `REG_S` of `count` registers. -/
def storeGroup (m : Recorded w) (a : Word w) (first : Nat) (regs : Nat → Word w) :
    Nat → Recorded w
  | 0 => m
  | count + 1 =>
    (storeGroup m a first regs count).store (a + BitVec.ofNat _ ((first + count) * szreg w))
      (szreg w) (byteAt (regs count))

/-- `lb` and `sb`, with the pointers advanced. The sign that `lb` extends is not stored, and the
register in between is not read again. -/
def moveByte (s : MemcpyState w) : MemcpyState w :=
  let (byte, mem) := s.mem.load s.a1 1
  { s with
    a1 := s.a1 + BitVec.ofNat _ 1, mem := mem.store s.t6 1 byte, t6 := s.t6 + BitVec.ofNat _ 1 }

/-- The 16 words at label `3:`. The registers of the groups are not read again. -/
def moveBlock (s : MemcpyState w) : MemcpyState w :=
  let (regs, mem) := loadGroup s.mem s.a1 0 10
  let mem := storeGroup mem s.t6 0 regs 10
  let (regs, mem) := loadGroup mem s.a1 10 6
  let a1 := s.a1 + BitVec.ofNat _ (16 * szreg w)
  let mem := storeGroup mem s.t6 10 regs 6
  { s with a1 := a1, mem := mem, t6 := s.t6 + BitVec.ofNat _ (16 * szreg w) }

/-- One block of `memcpy`. -/
def memcpyStep (s : MemcpyState w) : MemcpyState w ⊕ MemcpyExit w :=
  let blockMask := BitVec.ofNat (8 * szreg w) (16 * szreg w - 1)
  match s.pc with
  | .head => -- `1:`
    let s := moveByte s
    if s.a1 < s.a3 then .inl s else .inl { s with pc := .words, a2 := s.a2 - s.a4 }
  | .words => -- `2:`
    let s : MemcpyState w := { s with a4 := s.a2 &&& ~~~blockMask }
    if s.a4 = 0 then .inl { s with pc := .rest }
    else .inl { s with pc := .block, a3 := s.a1 + s.a4 }
  | .block => -- `3:`
    let s := moveBlock s
    if s.a1 < s.a3 then .inl s else .inl { s with pc := .rest, a2 := s.a2 &&& blockMask }
  | .rest => -- `4:`
    if s.a2 = 0 then .inl { s with pc := .ret }
    else .inl { s with pc := .tail, a3 := s.a1 + s.a2 }
  | .tail => -- `5:`
    let s := moveByte s
    if s.a1 < s.a3 then .inl s else .inl { s with pc := .ret }
  | .ret => .inr ⟨s.a0, s.mem⟩ -- `6:`

/-- The entry of `memcpy`, up to the first jump. -/
def memcpy (dest src n : Word w) (mem : Recorded w) : MemcpyState w :=
  let mask := BitVec.ofNat (8 * szreg w) (szreg w - 1)
  let s : MemcpyState w :=
    { pc := .rest, a0 := dest, a1 := src, a2 := n, a3 := if n < 128 then 1 else 0, a4 := 0,
      t6 := dest, mem := mem }
  if s.a3 ≠ 0 then s
  else
    let s := { s with a3 := s.t6 &&& mask, a4 := s.a1 &&& mask }
    if s.a3 ≠ s.a4 then s
    else if s.a3 = 0 then { s with pc := .words }
    else
      let s := { s with a3 := (s.a1 &&& ~~~mask) + BitVec.ofNat _ (szreg w) }
      { s with pc := .head, a4 := s.a3 - s.a1 }

/-! ## Groups of words -/

/-- An access of a group: the word `first + r` behind `a`. -/
def groupAccess (write : Bool) (a : Word w) (first r : Nat) : MemAccess w :=
  ⟨write, a + BitVec.ofNat _ ((first + r) * szreg w), szreg w⟩

section Groups

variable {m : Recorded w} {a : Word w} {first : Nat} {regs : Nat → Word w} {acc : MemAccess w}

theorem loadGroup_mem (count : Nat) : (loadGroup m a first count).2.mem = m.mem := by
  induction count with
  | zero => rfl
  | succ count ih => simpa only [loadGroup, Recorded.load] using ih

theorem loadGroup_log {count : Nat} (h : acc ∈ (loadGroup m a first count).2.log) :
    acc ∈ m.log ∨ ∃ r < count, acc = groupAccess false a first r := by
  induction count with
  | zero => exact Or.inl h
  | succ count ih =>
    simp only [loadGroup, Recorded.load, List.mem_cons] at h
    rcases h with rfl | h
    · exact Or.inr ⟨count, Nat.lt_succ_self count, rfl⟩
    · rcases ih h with hold | ⟨r, hr, rfl⟩
      · exact Or.inl hold
      · exact Or.inr ⟨r, Nat.lt_succ_of_lt hr, rfl⟩

theorem storeGroup_log {count : Nat} (h : acc ∈ (storeGroup m a first regs count).log) :
    acc ∈ m.log ∨ ∃ r < count, acc = groupAccess true a first r := by
  induction count with
  | zero => exact Or.inl h
  | succ count ih =>
    simp only [storeGroup, Recorded.store, List.mem_cons] at h
    rcases h with rfl | h
    · exact Or.inr ⟨count, Nat.lt_succ_self count, rfl⟩
    · rcases ih h with hold | ⟨r, hr, rfl⟩
      · exact Or.inl hold
      · exact Or.inr ⟨r, Nat.lt_succ_of_lt hr, rfl⟩

/-- The registers hold the words of the group. -/
theorem loadGroup_fst {count r : Nat} (hr : r < count) : (loadGroup m a first count).1 r =
    ofBytes (szreg w) (loadBytes m.mem (a + BitVec.ofNat _ ((first + r) * szreg w))) := by
  induction count with
  | zero => omega
  | succ count ih =>
    simp only [loadGroup, Recorded.load]
    by_cases hrc : r = count
    · rw [if_pos hrc, hrc, loadGroup_mem]
    · rw [if_neg hrc, ih (by omega)]

/-- The bytes of the registers are the bytes that the group was loaded from. -/
theorem bytesOf_loadGroup {count i : Nat} (hi : i < count * szreg w) :
    bytesOf (loadGroup m a first count).1 i =
      loadBytes m.mem (a + BitVec.ofNat _ (first * szreg w)) i := by
  have hpos := szreg_pos w
  have hr : i / szreg w < count := Nat.div_lt_of_lt_mul (by rwa [Nat.mul_comm])
  have hsplit : (first + i / szreg w) * szreg w + i % szreg w = first * szreg w + i := by
    have hdiv := Nat.div_add_mod i (szreg w)
    rw [Nat.mul_comm] at hdiv
    rw [Nat.add_mul]
    omega
  rw [bytesOf, loadGroup_fst hr, byteAt_ofBytes _ (Nat.mod_lt i hpos)]
  unfold loadBytes
  rw [add_ofNat_add, add_ofNat_add, hsplit]

/-- The stores of a group are one store. -/
theorem storeGroup_mem {count : Nat}
    (h : a.toNat + (first + count) * szreg w < 2 ^ (8 * szreg w)) :
    (storeGroup m a first regs count).mem =
      storeBytes m.mem (a + BitVec.ofNat _ (first * szreg w)) (count * szreg w) (bytesOf regs) := by
  induction count with
  | zero =>
    funext b
    simp [storeGroup, storeBytes]
  | succ count ih =>
    have hmul : (first + (count + 1)) * szreg w =
        first * szreg w + (count * szreg w + szreg w) := by
      rw [Nat.add_mul, Nat.succ_mul]
    have hle : (first + count) * szreg w ≤ (first + (count + 1)) * szreg w :=
      Nat.mul_le_mul_right _ (by omega)
    have hcur : (a + BitVec.ofNat _ (first * szreg w)).toNat = a.toNat + first * szreg w :=
      toNat_add_lt (by omega)
    have hnext : a + BitVec.ofNat _ ((first + count) * szreg w) =
        a + BitVec.ofNat _ (first * szreg w) + BitVec.ofNat _ (count * szreg w) := by
      rw [add_ofNat_add, Nat.add_mul]
    have hbytes : ∀ i < szreg w,
        byteAt (regs count) i = bytesOf regs (count * szreg w + i) := by
      intro i hi
      rw [Nat.mul_comm, bytesOf_at regs count hi]
    rw [storeGroup, Recorded.store, ih (by omega), hnext, storeBytes_congr hbytes,
      storeBytes_append (by rw [hcur]; omega), Nat.succ_mul count]

end Groups

/-! ## Copied prefixes -/

/-- The first `k` bytes are copied, and all accesses lie in the ranges. -/
structure Moved (dst src n : Word w) (mem : Word w → Byte) (k : Nat) (m : Recorded w) : Prop where
  mem : m.mem = copied mem dst src k
  log : ∀ acc ∈ m.log, acc.InRanges dst src n.toNat

section Moved

variable {dst src n : Word w} {mem : Word w → Byte} {k : Nat} {m : Recorded w}

theorem InRanges.load (hr : Ranges dst src n) {size : Nat} (hsize : 0 < size)
    (hk : k + size ≤ n.toNat) :
    (⟨false, src + BitVec.ofNat _ k, size⟩ : MemAccess w).InRanges dst src n.toNat :=
  MemAccess.within_add hr.src_le hsize hk false

theorem InRanges.store (hr : Ranges dst src n) {size : Nat} (hsize : 0 < size)
    (hk : k + size ≤ n.toNat) :
    (⟨true, dst + BitVec.ofNat _ k, size⟩ : MemAccess w).InRanges dst src n.toNat :=
  MemAccess.within_add hr.dst_le hsize hk true

/-- A byte moves the copied prefix forward. -/
theorem Moved.byte (h : Moved dst src n mem k m) (hr : Ranges dst src n) (hk : k < n.toNat) :
    Moved dst src n mem (k + 1)
      ((m.load (src + BitVec.ofNat _ k) 1).2.store (dst + BitVec.ofNat _ k) 1
        (m.load (src + BitVec.ofNat _ k) 1).1) := by
  obtain ⟨hdst, hsrc, hdisjoint⟩ := hr
  constructor
  · simp only [Recorded.load, Recorded.store, h.mem]
    exact storeBytes_copied Nat.one_pos (by omega) (by omega) (by omega)
  · intro acc hacc
    simp only [Recorded.load, Recorded.store, List.mem_cons] at hacc
    rcases hacc with rfl | rfl | hold
    · exact InRanges.store ⟨hdst, hsrc, hdisjoint⟩ Nat.one_pos hk
    · exact InRanges.load ⟨hdst, hsrc, hdisjoint⟩ Nat.one_pos hk
    · exact h.log acc hold

/-- **A group of words moves the copied prefix forward.** -/
theorem Moved.group (first count : Nat) (h : Moved dst src n mem (k + first * szreg w) m)
    (hr : Ranges dst src n) (hdst : dst.toNat + n.toNat < 2 ^ (8 * szreg w))
    (hcount : 0 < count) (hk : k + (first + count) * szreg w ≤ n.toNat) :
    Moved dst src n mem (k + (first + count) * szreg w)
      (storeGroup (loadGroup m (src + BitVec.ofNat _ k) first count).2 (dst + BitVec.ofNat _ k)
        first (loadGroup m (src + BitVec.ofNat _ k) first count).1 count) := by
  have hpos := szreg_pos w
  have hsize : 0 < count * szreg w := Nat.mul_pos hcount hpos
  have hsum : (first + count) * szreg w = first * szreg w + count * szreg w := Nat.add_mul _ _ _
  have hcur : (dst + BitVec.ofNat _ k).toNat = dst.toNat + k := toNat_add_lt (by omega)
  have hword : ∀ r < count, k + (first + r) * szreg w + szreg w ≤ n.toNat := by
    intro r hr
    have hle : (first + (r + 1)) * szreg w ≤ (first + count) * szreg w :=
      Nat.mul_le_mul_right _ (by omega)
    rw [← Nat.add_assoc, Nat.succ_mul (first + r)] at hle
    omega
  constructor
  · have hsrc := hr.src_le
    have hdisjoint := hr.disjoint
    rw [storeGroup_mem (by omega), loadGroup_mem,
      storeBytes_congr fun i hi => bytesOf_loadGroup hi, add_ofNat_add, add_ofNat_add, h.mem,
      storeBytes_copied hsize (by omega) (by omega) (by omega), hsum, Nat.add_assoc]
  · intro acc hacc
    rcases storeGroup_log hacc with hacc | ⟨r, hrc, rfl⟩
    · rcases loadGroup_log hacc with hold | ⟨r, hrc, rfl⟩
      · exact h.log acc hold
      · rw [groupAccess, add_ofNat_add]
        exact InRanges.load hr hpos (hword r hrc)
    · rw [groupAccess, add_ofNat_add]
      exact InRanges.store hr hpos (hword r hrc)

end Moved

/-! ## Runs -/

/-- The masks for blocks of 16 words. -/
theorem block_masks (a : Word w) :
    (a &&& ~~~BitVec.ofNat (8 * szreg w) (16 * szreg w - 1)).toNat =
        a.toNat / (16 * szreg w) * (16 * szreg w) ∧
      (a &&& BitVec.ofNat (8 * szreg w) (16 * szreg w - 1)).toNat =
        a.toNat % (16 * szreg w) := by
  obtain ⟨j, hj, hle⟩ : ∃ j, 16 * szreg w = 2 ^ j ∧ j ≤ 8 * szreg w := by
    cases w
    · exact ⟨6, rfl, by decide⟩
    · exact ⟨7, rfl, by decide⟩
  have hdown := toNat_and_not_mask a j
  have hrem := toNat_and_mask a hle
  rw [← hj] at hdown hrem
  exact ⟨hdown, hrem⟩

/-- The first `k` bytes are copied and the pointers are behind them. -/
structure MemcpyAt (dst src n : Word w) (mem : Word w → Byte) (k : Nat) (s : MemcpyState w) :
    Prop where
  a0 : s.a0 = dst
  a1 : s.a1 = src + BitVec.ofNat _ k
  t6 : s.t6 = dst + BitVec.ofNat _ k
  moved : Moved dst src n mem k s.mem
  le : k ≤ n.toNat

/-- The routine halts with the destination returned and all bytes copied. -/
def MemcpyExact (dst src n : Word w) (mem : Word w → Byte) (s : MemcpyState w) : Prop :=
  Halts memcpyStep (fun _ => True) (fun e => e.a0 = dst ∧ Moved dst src n mem n.toNat e.mem) s

namespace MemcpyAt

variable {dst src n : Word w} {mem : Word w → Byte} {k : Nat} {s : MemcpyState w}

theorem a1_toNat (h : MemcpyAt dst src n mem k s)
    (hsrc : src.toNat + n.toNat < 2 ^ (8 * szreg w)) : s.a1.toNat = src.toNat + k := by
  have hle := h.le
  rw [h.a1]
  exact toNat_add_lt (by omega)

theorem moveByte (h : MemcpyAt dst src n mem k s) (hr : Ranges dst src n) (hk : k + 1 ≤ n.toNat) :
    MemcpyAt dst src n mem (k + 1) (moveByte s) := by
  refine ⟨h.a0, ?_, ?_, ?_, hk⟩
  · simp only [Mm.moveByte, h.a1, add_ofNat_add]
  · simp only [Mm.moveByte, h.t6, add_ofNat_add]
  · simp only [Mm.moveByte, h.a1, h.t6]
    exact h.moved.byte hr hk

theorem moveBlock (h : MemcpyAt dst src n mem k s) (hr : Ranges dst src n)
    (hdst : dst.toNat + n.toNat < 2 ^ (8 * szreg w)) (hk : k + 16 * szreg w ≤ n.toNat) :
    MemcpyAt dst src n mem (k + 16 * szreg w) (moveBlock s) := by
  refine ⟨h.a0, ?_, ?_, ?_, hk⟩
  · simp only [Mm.moveBlock, h.a1, add_ofNat_add]
  · simp only [Mm.moveBlock, h.t6, add_ofNat_add]
  · have hfirst : Moved dst src n mem (k + 0 * szreg w) s.mem := by simpa using h.moved
    have hsecond := hfirst.group 0 10 hr hdst (by decide) (by omega)
    rw [Nat.zero_add] at hsecond
    have hall := hsecond.group 10 6 hr hdst (by decide) (by omega)
    simp only [Mm.moveBlock, h.a1, h.t6]
    exact hall

/-- **A loop of `memcpy` with `m` rounds due**, each of `size` bytes. -/
theorem loop (size goal : Nat) (pc : MemcpyLabel) (body leave : MemcpyState w → MemcpyState w)
    {m : Nat} {a2 a4 : Word w} (hsrc : src.toNat + n.toNat < 2 ^ (8 * szreg w))
    (hsize : 0 < size) (hgoal : goal ≤ n.toNat)
    (hcode : ∀ s : MemcpyState w, s.pc = pc → memcpyStep s =
      if (body s).a1 < (body s).a3 then .inl (body s) else .inl (leave (body s)))
    (hbody : ∀ k s, MemcpyAt dst src n mem k s → k + size ≤ n.toNat →
      MemcpyAt dst src n mem (k + size) (body s))
    (hkeep : ∀ s, (body s).pc = s.pc ∧ (body s).a2 = s.a2 ∧ (body s).a3 = s.a3 ∧
      (body s).a4 = s.a4)
    (hexit : ∀ s, MemcpyAt dst src n mem goal s → s.a2 = a2 → s.a4 = a4 →
      MemcpyExact dst src n mem (leave s))
    (h : MemcpyAt dst src n mem k s) (hdue : k + (m + 1) * size = goal) (hpc : s.pc = pc)
    (ha2 : s.a2 = a2) (ha3 : s.a3.toNat = src.toNat + goal) (ha4 : s.a4 = a4) :
    MemcpyExact dst src n mem s := by
  refine Halts.loop (m := m + 1) (I := fun m s => if m = 0 then MemcpyExact dst src n mem s else
    ∃ k, MemcpyAt dst src n mem k s ∧ k + m * size = goal ∧ s.pc = pc ∧ s.a2 = a2 ∧
      s.a3.toNat = src.toNat + goal ∧ s.a4 = a4) ?_ ?_ ?_
  · rintro m s hs
    rw [if_neg (Nat.succ_ne_zero m)] at hs
    obtain ⟨k, h, hdue, hpc, ha2, ha3, ha4⟩ := hs
    rw [Nat.succ_mul] at hdue
    have hnext := hbody k s h (by omega)
    obtain ⟨hpc', ha2', ha3', ha4'⟩ := hkeep s
    have hcur := hnext.a1_toNat hsrc
    refine ⟨trivial, Or.inr ?_⟩
    rw [hcode s hpc]
    have hiff : (body s).a1 < (body s).a3 ↔ m ≠ 0 := by
      rw [BitVec.lt_def, hcur, ha3', ha3]
      constructor
      · rintro hlt rfl
        omega
      · intro hm
        have hpos := Nat.mul_pos (Nat.pos_of_ne_zero hm) hsize
        omega
    by_cases hm : m = 0
    · rw [if_neg (fun hlt => hiff.mp hlt hm)]
      refine ⟨_, rfl, ?_⟩
      rw [if_pos hm]
      have hlast : k + size = goal := by
        rw [hm] at hdue
        omega
      exact hexit _ (hlast ▸ hnext) (ha2'.trans ha2) (ha4'.trans ha4)
    · rw [if_pos (hiff.mpr hm)]
      refine ⟨_, rfl, ?_⟩
      rw [if_neg hm]
      exact ⟨_, hnext, by omega, hpc'.trans hpc, ha2'.trans ha2, by rw [ha3', ha3],
        ha4'.trans ha4⟩
  · intro s hs
    rwa [if_pos rfl] at hs
  · rw [if_neg (Nat.succ_ne_zero m)]
    exact ⟨k, h, hdue, hpc, ha2, ha3, ha4⟩

/-- Only the pointers and memory matter for the progress. -/
theorem congr (h : MemcpyAt dst src n mem k s) {t : MemcpyState w} (ha0 : t.a0 = s.a0)
    (ha1 : t.a1 = s.a1) (ht6 : t.t6 = s.t6) (hmem : t.mem = s.mem) :
    MemcpyAt dst src n mem k t :=
  ⟨ha0.trans h.a0, ha1.trans h.a1, ht6.trans h.t6, hmem ▸ h.moved, h.le⟩

theorem ret (h : MemcpyAt dst src n mem n.toNat s) (hpc : s.pc = .ret) :
    MemcpyExact dst src n mem s :=
  .last trivial (show memcpyStep s = .inr ⟨s.a0, s.mem⟩ by rw [memcpyStep, hpc]) ⟨h.a0, h.moved⟩

/-- From label `4:` the remaining bytes are copied. -/
theorem rest (h : MemcpyAt dst src n mem k s) (hr : Ranges dst src n)
    (hsrc : src.toNat + n.toNat < 2 ^ (8 * szreg w)) (hpc : s.pc = .rest)
    (ha2 : s.a2.toNat = n.toNat - k) : MemcpyExact dst src n mem s := by
  have hle := h.le
  have hcode : memcpyStep s = if s.a2 = 0 then .inl { s with pc := .ret }
      else .inl { s with pc := .tail, a3 := s.a1 + s.a2 } := by
    rw [memcpyStep, hpc]
  have hzero : s.a2 = 0 ↔ k = n.toNat := by
    rw [← BitVec.toNat_inj, ha2]
    simp
    omega
  by_cases hk : k = n.toNat
  · rw [if_pos (hzero.mpr hk)] at hcode
    exact .next trivial hcode (MemcpyAt.ret (hk ▸ h.congr rfl rfl rfl rfl) rfl)
  · rw [if_neg (mt hzero.mp hk)] at hcode
    have hend : (s.a1 + s.a2).toNat = src.toNat + n.toNat := by
      rw [BitVec.toNat_add, h.a1_toNat hsrc, ha2, Nat.mod_eq_of_lt (by omega)]
      omega
    refine .next trivial hcode ?_
    refine MemcpyAt.loop 1 n.toNat .tail Mm.moveByte (fun s => { s with pc := .ret })
      (m := n.toNat - k - 1) hsrc Nat.one_pos (Nat.le_refl _) (fun s hs => ?_)
      (fun k s h hk => h.moveByte hr hk) (fun s => ⟨rfl, rfl, rfl, rfl⟩)
      (fun s h _ _ => MemcpyAt.ret (h.congr rfl rfl rfl rfl) rfl)
      (h.congr rfl rfl rfl rfl) (by omega) rfl rfl hend rfl
    rw [memcpyStep, hs]

/-- From label `2:` whole blocks are copied first. -/
theorem words (h : MemcpyAt dst src n mem k s) (hr : Ranges dst src n)
    (hsrc : src.toNat + n.toNat < 2 ^ (8 * szreg w))
    (hdst : dst.toNat + n.toNat < 2 ^ (8 * szreg w)) (hpc : s.pc = .words)
    (ha2 : s.a2.toNat = n.toNat - k) : MemcpyExact dst src n mem s := by
  have hle := h.le
  obtain ⟨ha4, hrem⟩ := block_masks s.a2
  have hdiv := Nat.div_add_mod s.a2.toNat (16 * szreg w)
  rw [Nat.mul_comm] at hdiv
  have hcode : memcpyStep s =
      if s.a2 &&& ~~~BitVec.ofNat (8 * szreg w) (16 * szreg w - 1) = 0 then
        .inl { s with pc := .rest, a4 := s.a2 &&& ~~~BitVec.ofNat _ (16 * szreg w - 1) }
      else .inl { s with
        pc := .block
        a3 := s.a1 + (s.a2 &&& ~~~BitVec.ofNat _ (16 * szreg w - 1))
        a4 := s.a2 &&& ~~~BitVec.ofNat _ (16 * szreg w - 1) } := by
    rw [memcpyStep, hpc]
  cases hm : s.a2.toNat / (16 * szreg w) with
  | zero =>
    rw [hm, Nat.zero_mul] at ha4
    rw [if_pos (BitVec.eq_of_toNat_eq (by rw [ha4]; rfl))] at hcode
    exact .next trivial hcode (MemcpyAt.rest (h.congr rfl rfl rfl rfl) hr hsrc rfl ha2)
  | succ m =>
    rw [hm] at ha4 hdiv
    have hpos : 0 < (m + 1) * (16 * szreg w) :=
      Nat.mul_pos (Nat.succ_pos m) (Nat.mul_pos (by decide) (szreg_pos w))
    have hne : s.a2 &&& ~~~BitVec.ofNat (8 * szreg w) (16 * szreg w - 1) ≠ 0 := by
      intro hzero
      rw [← ha4, hzero] at hpos
      exact absurd hpos (by simp)
    rw [if_neg hne] at hcode
    have hend : (s.a1 + (s.a2 &&& ~~~BitVec.ofNat _ (16 * szreg w - 1))).toNat =
        src.toNat + (k + (m + 1) * (16 * szreg w)) := by
      rw [BitVec.toNat_add, h.a1_toNat hsrc, ha4, Nat.mod_eq_of_lt (by omega), Nat.add_assoc]
    refine .next trivial hcode ?_
    refine MemcpyAt.loop (16 * szreg w) (k + (m + 1) * (16 * szreg w)) .block Mm.moveBlock
      (fun s => { s with pc := .rest, a2 := s.a2 &&& BitVec.ofNat _ (16 * szreg w - 1) })
      (m := m) hsrc (Nat.mul_pos (by decide) (szreg_pos w)) (by omega) (fun s hs => ?_)
      (fun k s h hk => h.moveBlock hr hdst hk) (fun s => ⟨rfl, rfl, rfl, rfl⟩)
      (fun t h ha2' _ => MemcpyAt.rest (h.congr rfl rfl rfl rfl) hr hsrc rfl ?_)
      (h.congr rfl rfl rfl rfl) rfl rfl rfl hend rfl
    · rw [memcpyStep, hs]
    · show (t.a2 &&& _).toNat = n.toNat - (k + (m + 1) * (16 * szreg w))
      rw [ha2', hrem]
      omega

/-- From label `1:` the bytes before the first word boundary are copied first. -/
theorem head (h : MemcpyAt dst src n mem 0 s) (hr : Ranges dst src n)
    (hsrc : src.toNat + n.toNat < 2 ^ (8 * szreg w))
    (hdst : dst.toNat + n.toNat < 2 ^ (8 * szreg w)) (hpc : s.pc = .head) (ha2 : s.a2 = n)
    {m : Nat} (hm : m + 1 ≤ n.toNat) (ha3 : s.a3.toNat = src.toNat + (m + 1))
    (ha4 : s.a4.toNat = m + 1) : MemcpyExact dst src n mem s := by
  refine MemcpyAt.loop 1 (m + 1) .head Mm.moveByte
    (fun s => { s with pc := .words, a2 := s.a2 - s.a4 }) (m := m) hsrc Nat.one_pos hm
    (fun s hs => ?_) (fun k s h hk => h.moveByte hr hk) (fun s => ⟨rfl, rfl, rfl, rfl⟩)
    (fun t h ha2' ha4' => MemcpyAt.words (h.congr rfl rfl rfl rfl) hr hsrc hdst rfl ?_)
    h (by omega) hpc ha2 ha3 rfl
  · rw [memcpyStep, hs]
  · show (t.a2 - t.a4).toNat = n.toNat - (m + 1)
    rw [ha2', ha4', toNat_sub_ite, ha4, if_pos hm]

end MemcpyAt

/-- The routine copies all bytes. -/
theorem memcpy_halts {dst src n : Word w} {mem : Word w → Byte} (hr : Ranges dst src n)
    (hsrc : src.toNat + n.toNat < 2 ^ (8 * szreg w))
    (hdst : dst.toNat + n.toNat < 2 ^ (8 * szreg w)) :
    MemcpyExact dst src n mem (memcpy dst src n ⟨mem, []⟩) := by
  have hpos := szreg_pos w
  have start : ∀ (pc : MemcpyLabel) (a3 a4 : Word w), MemcpyAt dst src n mem 0
      { pc := pc, a0 := dst, a1 := src, a2 := n, a3 := a3, a4 := a4, t6 := dst,
        mem := ⟨mem, []⟩ } := fun pc a3 a4 =>
    ⟨rfl, by simp, by simp, ⟨(copied_zero mem dst src).symm, by simp⟩, Nat.zero_le _⟩
  have hone : (1 : Word w) ≠ 0 := by cases w <;> decide
  unfold memcpy
  dsimp only
  by_cases hshort : n < 128
  · rw [if_pos hshort, if_pos hone]
    exact (start _ _ _).rest hr hsrc rfl (by simp)
  have hn : 128 ≤ n.toNat := by
    have hconst : (128 : Word w).toNat = 128 := by cases w <;> rfl
    rw [BitVec.lt_def, hconst] at hshort
    omega
  rw [if_neg hshort, if_neg (not_not.mpr rfl)]
  split
  · exact (start _ _ _).rest hr hsrc rfl (by simp)
  split
  · exact (start _ _ _).words hr hsrc hdst rfl (by simp)
  next hoffset =>
  have hsz : szreg w ≤ 8 := by cases w <;> decide
  have hdiv := Nat.div_add_mod src.toNat (szreg w)
  have hmod := Nat.mod_lt src.toNat hpos
  rw [Nat.mul_comm] at hdiv
  have hround : ((src &&& ~~~BitVec.ofNat (8 * szreg w) (szreg w - 1)) +
      BitVec.ofNat _ (szreg w)).toNat = src.toNat / szreg w * szreg w + szreg w := by
    rw [toNat_add_lt, toNat_and_not_szreg]
    rw [toNat_and_not_szreg]
    omega
  obtain ⟨m, hm⟩ : ∃ m, src.toNat / szreg w * szreg w + szreg w = src.toNat + (m + 1) :=
    ⟨szreg w - src.toNat % szreg w - 1, by omega⟩
  rw [hm] at hround
  refine (start _ _ _).head hr hsrc hdst rfl rfl (m := m) (by omega) hround ?_
  show (_ - src).toNat = m + 1
  rw [toNat_sub_ite, hround, if_pos (by omega)]
  omega

/-- **`memcpy` equals the byte copy**: it halts, returns `dest`, leaves the old source in the
destination and every other byte as it was, stores only to the destination and loads only from
the source. -/
theorem memcpy_exact (dest src n : Word w) (mem : Word w → Byte)
    (hr : Ranges dest src n) (hsrc : src.toNat + n.toNat < 2 ^ (8 * szreg w))
    (hdest : dest.toNat + n.toNat < 2 ^ (8 * szreg w)) :
    ∃ e, Ends memcpyStep (memcpy dest src n ⟨mem, []⟩) e ∧ e.a0 = dest ∧
      (∀ i < n.toNat, e.mem.mem (dest + BitVec.ofNat _ i) = mem (src + BitVec.ofNat _ i)) ∧
      (∀ b, (∀ i < n.toNat, b ≠ dest + BitVec.ofNat _ i) → e.mem.mem b = mem b) ∧
      ∀ acc ∈ e.mem.log, acc.InRanges dest src n.toNat := by
  obtain ⟨⟨e, hends, ha0, hmoved⟩, -⟩ := @memcpy_halts w dest src n mem hr hsrc hdest
  refine ⟨e, hends, ha0, fun i hi => ?_, fun b hb => ?_, hmoved.log⟩
  · rw [hmoved.mem]
    exact storeBytes_at hi (hi.trans n.isLt)
  · rw [hmoved.mem]
    exact storeBytes_outside hb

/-- A copy of 200 different bytes with the same odd offset in a word: every byte of memory is the low
byte of its address. -/
theorem memcpy_exact_unaligned :
    ∃ e : MemcpyExit .rv32, Ends memcpyStep (memcpy 1001 2001 200 ⟨.setWidth 8, []⟩) e ∧
      e.a0 = 1001 ∧
      (∀ i < 200, e.mem.mem (1001 + BitVec.ofNat _ i) = BitVec.ofNat 8 (2001 + i)) ∧
      (∀ b, (∀ i < 200, b ≠ 1001 + BitVec.ofNat _ i) → e.mem.mem b = b.setWidth 8) ∧
      ∀ acc ∈ e.mem.log, acc.InRanges 1001 2001 200 := by
  obtain ⟨e, hends, ha0, hcopied, hrest⟩ := @memcpy_exact .rv32 1001 2001 200 (.setWidth 8)
    ⟨by decide, by decide, by decide⟩ (by decide) (by decide)
  refine ⟨e, hends, ha0, fun i hi => (hcopied i hi).trans ?_, hrest⟩
  show (2001#32 + BitVec.ofNat 32 i).setWidth 8 = _
  rw [← BitVec.ofNat_add, BitVec.setWidth_ofNat_of_le (by decide)]

end LowriscLinux.Mm
