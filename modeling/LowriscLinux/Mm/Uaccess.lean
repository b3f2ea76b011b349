import LowriscLinux.Kernel.PtRegs
import LowriscLinux.Lib.Halting
import LowriscLinux.Lib.Words

/-!
# Copies from and to user memory

Model of `__copy_user` in `arch/riscv/lib/uaccess.S` (lines 16-69 and the fixup, lines 118-124),
block by block: a loop over bytes up to an aligned address, a loop over words and a loop over the
remaining bytes.

## What models what

* `copyUser`: the entry, lines 18-38. `a3` is the end of the source, `t0` and `t1` are its first and
  last word boundary. Addresses of which the low bits differ go to the last loop.
* `copyStep`: one block, from one label to the next: the word loop `1:` (lines 40-44), the byte
  loops `4:` (lines 56-61) and `5:` (lines 63-68), and the two joints `2:` and `3:`.
* `copyLoop`: what the three loops have in common: load and store `size` bytes, advance both
  addresses and compare.
* `copyFixup`: every load and store has an entry in the exception table (`fixup`, lines 6-14), so an
  access that faults continues at `10:`, which computes the return value from the registers.
* `Faults`: the addresses whose loads fault and those whose stores fault, any two sets. A word
  access faults if one of its bytes does, and then has no effect.
* `CopyState`: the registers with the place in the code. `sstatus` has `SR_PUM` cleared on the way
  in and set on each way out.

The fixup is shared with `__clear_user`. It subtracts `a0` from `a3` (line 123), which is the end of
the *destination* there; in `__copy_user` it is the end of the source.

Results:
* `copyLoop_cases`: what one access of a copy loop does.
* `storeBytes_copied`: one access moves the copied prefix forward.
* `copyUser_ends`: the copy halts.
* `fixup_ne`: after a fault the fixup never returns the number of bytes left.
* **`reportsExactly_iff_of_clear`**: when the source stays clear of the last word of the address
  space, the copy meets its contract iff no byte of the two ranges faults.
-/

namespace LowriscLinux.Mm

open Lib Kernel

variable {w : Xlen}

/-! ## Memory -/

/-- The byte of an access at a distance from its address. -/
def loadBytes (mem : Word w → Byte) (a : Word w) : Nat → Byte := fun i => mem (a + BitVec.ofNat _ i)

/-- Memory after a store of `size` bytes. -/
def storeBytes (mem : Word w → Byte) (a : Word w) (size : Nat) (v : Nat → Byte) : Word w → Byte :=
  fun b => if (b - a).toNat < size then v (b - a).toNat else mem b

/-- Memory with the first `k` bytes of a copy done. -/
def copied (mem : Word w → Byte) (dst src : Word w) (k : Nat) : Word w → Byte :=
  storeBytes mem dst k (loadBytes mem src)

/-- The addresses whose loads and whose stores fault. -/
structure Faults (w : Xlen) where
  load : Word w → Bool
  store : Word w → Bool

/-- An access of `size` bytes faults if one of its bytes does. -/
def faultsAt (f : Word w → Bool) (a : Word w) (size : Nat) : Bool :=
  (List.range size).any fun i => f (a + BitVec.ofNat _ i)

/-! ## `__copy_user` -/

/-- The labels of `__copy_user`, by their numbers in the source. -/
inductive Label
  | words
  | check
  | done
  | head
  | tail
  deriving DecidableEq, Repr

/-- The registers that `__copy_user` uses, with its place in the code. -/
structure CopyState (w : Xlen) where
  pc : Label
  a0 : Word w
  a1 : Word w
  a3 : Word w
  t0 : Word w
  t1 : Word w
  sstatus : Word w
  mem : Word w → Byte

/-- What `__copy_user` returns with. -/
structure CopyExit (w : Xlen) where
  a0 : Word w
  sstatus : Word w
  mem : Word w → Byte
  /-- An access has faulted. -/
  faulted : Bool

/-- The fixup `10:`. -/
def copyFixup (s : CopyState w) : CopyExit w :=
  ⟨s.a3 - s.a0, s.sstatus ||| srPum, s.mem, true⟩

/-- A copy loop: load and store `size` bytes, advance, and loop up to `bound`. -/
def copyLoop (f : Faults w) (size : Nat) (bound : Word w) (loop next : Label) (s : CopyState w) :
    CopyState w ⊕ CopyExit w :=
  if faultsAt f.load s.a1 size then .inr (copyFixup s)
  else
    let t2 := loadBytes s.mem s.a1
    if faultsAt f.store s.a0 size then .inr (copyFixup s)
    else
      let mem := storeBytes s.mem s.a0 size t2
      let a1 := s.a1 + BitVec.ofNat _ size
      let a0 := s.a0 + BitVec.ofNat _ size
      .inl { s with pc := if a1 < bound then loop else next, a0 := a0, a1 := a1, mem := mem }

/-- One block of `__copy_user`. -/
def copyStep (f : Faults w) (s : CopyState w) : CopyState w ⊕ CopyExit w :=
  match s.pc with
  | .words => copyLoop f (szreg w) s.t1 .words .check s -- `1:`
  | .check => .inl { s with pc := if s.a1 < s.a3 then .tail else .done } -- `2:`
  | .done => .inr ⟨0, s.sstatus ||| srPum, s.mem, false⟩ -- `3:`
  | .head => copyLoop f 1 s.t0 .head .words s -- `4:`
  | .tail => copyLoop f 1 s.a3 .tail .done s -- `5:`

/-- The entry of `__copy_user`, up to the first jump. -/
def copyUser (dst src n sstatus : Word w) (mem : Word w → Byte) : CopyState w :=
  let mask := BitVec.ofNat (8 * szreg w) (szreg w - 1)
  let s : CopyState w :=
    { pc := .check, a0 := dst, a1 := src, a3 := src + n, t0 := dst &&& mask, t1 := src &&& mask,
      sstatus := sstatus &&& ~~~srPum, mem := mem }
  if s.t0 ≠ s.t1 then s
  else
    let s := { s with t0 := (src + mask) &&& ~~~mask, t1 := s.a3 &&& ~~~mask }
    if s.t1 ≤ s.t0 then s
    else if s.a1 < s.t0 then { s with pc := .head }
    else { s with pc := .words }

/-! ## The contract -/

/-- The contract of a copy: the return value is the number of bytes after the copied prefix,
nothing but that prefix is written, there are such bytes after a fault, and `SR_PUM` is set. -/
def Reports (dst src n : Word w) (mem : Word w → Byte) (e : CopyExit w) : Prop :=
  e.sstatus &&& srPum ≠ 0 ∧
    ∃ k ≤ n.toNat, e.a0.toNat = n.toNat - k ∧ e.mem = copied mem dst src k ∧
      (e.faulted = true → k < n.toNat)

/-- The copy returns and meets its contract, whatever memory holds. -/
def ReportsExactly (f : Faults w) (dst src n : Word w) : Prop :=
  ∀ sstatus mem, ∃ e, Ends (copyStep f) (copyUser dst src n sstatus mem) e ∧
    Reports dst src n mem e

/-- Neither range wraps around the address space, and they do not overlap. -/
structure Ranges (dst src n : Word w) : Prop where
  dst_le : dst.toNat + n.toNat ≤ 2 ^ (8 * szreg w)
  src_le : src.toNat + n.toNat ≤ 2 ^ (8 * szreg w)
  disjoint : dst.toNat + n.toNat ≤ src.toNat ∨ src.toNat + n.toNat ≤ dst.toNat

/-- No byte of the two ranges faults. -/
def NoFault (f : Faults w) (dst src n : Word w) : Prop :=
  ∀ i < n.toNat, f.load (src + BitVec.ofNat _ i) = false ∧ f.store (dst + BitVec.ofNat _ i) = false

/-- The source stays clear of the end of the address space: rounding its address up to a word,
which happens when both addresses have the same offset in a word, and adding its length do not
wrap. -/
structure Clear (dst src n : Word w) : Prop where
  end_lt : src.toNat + n.toNat < 2 ^ (8 * szreg w)
  round_le : dst.toNat % szreg w = src.toNat % szreg w →
    src.toNat + szreg w ≤ 2 ^ (8 * szreg w)

/-! ## Accesses -/

theorem faultsAt_iff {f : Word w → Bool} {a : Word w} {size : Nat} :
    faultsAt f a size = true ↔ ∃ i < size, f (a + BitVec.ofNat _ i) = true := by
  simp [faultsAt]

theorem szreg_two_pow (w : Xlen) : ∃ k, szreg w = 2 ^ k ∧ k ≤ 8 * szreg w := by
  cases w
  · exact ⟨2, rfl, by decide⟩
  · exact ⟨3, rfl, by decide⟩

section Mask

/-- The low bits of an address in a word. -/
theorem toNat_and_szreg (a : Word w) :
    (a &&& BitVec.ofNat (8 * szreg w) (szreg w - 1)).toNat = a.toNat % szreg w := by
  obtain ⟨k, hk, hle⟩ := szreg_two_pow w
  have h := toNat_and_mask a hle
  rwa [← hk] at h

/-- Rounding an address down to a word. -/
theorem toNat_and_not_szreg (a : Word w) :
    (a &&& ~~~BitVec.ofNat (8 * szreg w) (szreg w - 1)).toNat = a.toNat / szreg w * szreg w := by
  obtain ⟨k, hk, -⟩ := szreg_two_pow w
  have h := toNat_and_not_mask a k
  rwa [← hk] at h

end Mask

section Copied

variable {mem : Word w → Byte} {dst src : Word w} {k size : Nat}

/-- **One access moves the copied prefix forward**, as long as the ranges do not wrap or
overlap. -/
theorem storeBytes_copied (hsize : 0 < size) (hdst : dst.toNat + (k + size) ≤ 2 ^ (8 * szreg w))
    (hsrc : src.toNat + (k + size) ≤ 2 ^ (8 * szreg w))
    (hdisjoint : dst.toNat + (k + size) ≤ src.toNat ∨ src.toNat + (k + size) ≤ dst.toNat) :
    storeBytes (copied mem dst src k) (dst + BitVec.ofNat _ k) size
        (loadBytes (copied mem dst src k) (src + BitVec.ofNat _ k)) =
      copied mem dst src (k + size) := by
  have hk : k < 2 ^ (8 * szreg w) := by omega
  -- The copied prefix does not reach the bytes that are read.
  have hread : ∀ i < size,
      loadBytes (copied mem dst src k) (src + BitVec.ofNat _ k) i = loadBytes mem src (k + i) := by
    intro i hi
    have hsrc : (src + BitVec.ofNat _ (k + i)).toNat = src.toNat + (k + i) :=
      toNat_add_lt (by omega)
    have hdist : ¬ (src + BitVec.ofNat _ (k + i) - dst).toNat < k := by
      rw [toNat_sub_ite, hsrc]
      split <;> omega
    rw [loadBytes, add_ofNat_add, copied, storeBytes, if_neg hdist, loadBytes]
  funext b
  have hdist : (b - (dst + BitVec.ofNat _ k)).toNat =
      if k ≤ (b - dst).toNat then (b - dst).toNat - k
      else 2 ^ (8 * szreg w) + (b - dst).toNat - k := by
    rw [← toNat_sub_ofNat _ hk]
    congr 1
    rw [BitVec.sub_sub]
  unfold copied storeBytes at hread ⊢
  by_cases hin : (b - dst).toNat < k
  · have hfar : ¬ (b - (dst + BitVec.ofNat _ k)).toNat < size := by
      rw [hdist, if_neg (Nat.not_le.mpr hin)]
      omega
    rw [if_neg hfar, if_pos hin, if_pos (Nat.lt_add_right size hin)]
  · have hnear : (b - (dst + BitVec.ofNat _ k)).toNat = (b - dst).toNat - k := by
      rw [hdist, if_pos (Nat.not_lt.mp hin)]
    rw [hnear]
    by_cases hnew : (b - dst).toNat - k < size
    · have hlt : (b - dst).toNat < k + size := by omega
      rw [if_pos hnew, hread _ hnew, if_pos hlt,
        show k + ((b - dst).toNat - k) = (b - dst).toNat by omega]
    · have hge : ¬ (b - dst).toNat < k + size := by omega
      rw [if_neg hnew, if_neg hin, if_neg hge]

theorem copied_zero (mem : Word w → Byte) (dst src : Word w) : copied mem dst src 0 = mem := by
  funext b
  simp [copied, storeBytes]

end Copied

/-- What a copy loop does: it goes to the fixup at a byte that faults, or moves its bytes. -/
theorem copyLoop_cases (f : Faults w) (size : Nat) (bound : Word w) (loop next : Label)
    (s : CopyState w) :
    (copyLoop f size bound loop next s = .inr (copyFixup s) ∧
        ∃ i < size, f.load (s.a1 + BitVec.ofNat _ i) = true ∨
          f.store (s.a0 + BitVec.ofNat _ i) = true) ∨
      (copyLoop f size bound loop next s =
          .inl { s with
            pc := if s.a1 + BitVec.ofNat _ size < bound then loop else next
            a0 := s.a0 + BitVec.ofNat _ size
            a1 := s.a1 + BitVec.ofNat _ size
            mem := storeBytes s.mem s.a0 size (loadBytes s.mem s.a1) } ∧
        ∀ i < size, f.load (s.a1 + BitVec.ofNat _ i) = false ∧
          f.store (s.a0 + BitVec.ofNat _ i) = false) := by
  unfold copyLoop
  by_cases hload : faultsAt f.load s.a1 size = true
  · obtain ⟨i, hi, hfault⟩ := faultsAt_iff.mp hload
    exact Or.inl ⟨if_pos hload, i, hi, Or.inl hfault⟩
  rw [if_neg hload]
  by_cases hstore : faultsAt f.store s.a0 size = true
  · obtain ⟨i, hi, hfault⟩ := faultsAt_iff.mp hstore
    exact Or.inl ⟨if_pos hstore, i, hi, Or.inr hfault⟩
  refine Or.inr ⟨if_neg hstore, fun i hi => ⟨?_, ?_⟩⟩
  · exact Bool.eq_false_iff.mpr fun hf => hload (faultsAt_iff.mpr ⟨i, hi, hf⟩)
  · exact Bool.eq_false_iff.mpr fun hf => hstore (faultsAt_iff.mpr ⟨i, hi, hf⟩)

/-! ## A copy whose addresses do not wrap -/

/-- The first `k` bytes are copied, and none of them faulted. -/
structure Progress (f : Faults w) (dst src n : Word w) (mem : Word w → Byte) (k : Nat)
    (s : CopyState w) : Prop where
  a0 : s.a0 = dst + BitVec.ofNat _ k
  a1 : s.a1 = src + BitVec.ofNat _ k
  a3 : s.a3 = src + n
  mem : s.mem = copied mem dst src k
  le : k ≤ n.toNat
  noFault : ∀ i < k, f.load (src + BitVec.ofNat _ i) = false ∧
    f.store (dst + BitVec.ofNat _ i) = false

/-- The word loop ends at a word boundary inside the source. -/
structure WordBound (src n : Word w) (s : CopyState w) : Prop where
  aligned : s.t1.toNat % szreg w = 0
  le : s.t1.toNat ≤ src.toNat + n.toNat

/-- What holds at each label, with the progress `k`. -/
def AtLabel (src n : Word w) (k : Nat) (s : CopyState w) : Label → Prop
  | .words => WordBound src n s ∧ (src.toNat + k) % szreg w = 0 ∧ src.toNat + k < s.t1.toNat
  | .check => True
  | .done => k = n.toNat
  | .head => WordBound src n s ∧ s.t0.toNat % szreg w = 0 ∧ s.t0.toNat < s.t1.toNat ∧
      src.toNat + k < s.t0.toNat
  | .tail => k < n.toNat

def CopyInv (f : Faults w) (dst src n : Word w) (mem : Word w → Byte) (s : CopyState w) : Prop :=
  ∃ k, Progress f dst src n mem k s ∧ AtLabel src n k s s.pc

section Run

variable {f : Faults w} {dst src n : Word w} {mem : Word w → Byte} {k size : Nat}
  {s s' : CopyState w}

theorem Progress.a1_toNat (h : Progress f dst src n mem k s)
    (hend : src.toNat + n.toNat < 2 ^ (8 * szreg w)) : s.a1.toNat = src.toNat + k := by
  have hle := h.le
  rw [h.a1]
  exact toNat_add_lt (by omega)

theorem Progress.a3_toNat (h : Progress f dst src n mem k s)
    (hend : src.toNat + n.toNat < 2 ^ (8 * szreg w)) : s.a3.toNat = src.toNat + n.toNat := by
  rw [h.a3, BitVec.toNat_add, Nat.mod_eq_of_lt hend]

/-- One access: it faults at a byte of the ranges, or moves the progress forward. -/
theorem Progress.copyLoop (h : Progress f dst src n mem k s) (hr : Ranges dst src n)
    (hend : src.toNat + n.toNat < 2 ^ (8 * szreg w)) (hsize : 0 < size)
    (hk : k + size ≤ n.toNat) (bound : Word w) (loop next : Label) :
    (copyLoop f size bound loop next s = .inr (copyFixup s) ∧ ¬ NoFault f dst src n) ∨
      ∃ s', copyLoop f size bound loop next s = .inl s' ∧
        Progress f dst src n mem (k + size) s' ∧ s'.t0 = s.t0 ∧ s'.t1 = s.t1 ∧
        s'.pc = if src.toNat + (k + size) < bound.toNat then loop else next := by
  obtain ⟨hdst, hsrc, hdisjoint⟩ := hr
  rcases copyLoop_cases f size bound loop next s with ⟨heq, i, hi, hfault⟩ | ⟨heq, hnone⟩
  · refine Or.inl ⟨heq, fun hno => ?_⟩
    obtain ⟨hl, hs⟩ := hno (k + i) (by omega)
    rw [← add_ofNat_add, ← h.a1] at hl
    rw [← add_ofNat_add, ← h.a0] at hs
    simp [hl, hs] at hfault
  · have hnext : (s.a1 + BitVec.ofNat _ size).toNat = src.toNat + (k + size) := by
      rw [h.a1, add_ofNat_add]
      exact toNat_add_lt (by omega)
    refine Or.inr ⟨_, heq, ⟨?_, ?_, h.a3, ?_, hk, ?_⟩, rfl, rfl, ?_⟩
    · simp only [h.a0, add_ofNat_add]
    · simp only [h.a1, add_ofNat_add]
    · simp only [h.mem, h.a0, h.a1]
      exact storeBytes_copied hsize (by omega) (by omega) (by omega)
    · intro i hi
      by_cases hik : i < k
      · exact h.noFault i hik
      · have hacc := hnone (i - k) (by omega)
        rwa [h.a1, h.a0, add_ofNat_add, add_ofNat_add,
          Nat.add_sub_cancel' (Nat.not_lt.mp hik)] at hacc
    · simp only [BitVec.lt_def, hnext]

/-- The number of bytes left, and the blocks left where it does not change. -/
def copyMeasure (s : CopyState w) : Nat :=
  3 * (s.a3.toNat - s.a1.toNat) +
    match s.pc with
    | .words => 1
    | .check => 2
    | .done => 0
    | .head => 1
    | .tail => 1

theorem Progress.measure (h : Progress f dst src n mem k s)
    (hend : src.toNat + n.toNat < 2 ^ (8 * szreg w)) :
    3 * (n.toNat - k) ≤ copyMeasure s ∧ copyMeasure s ≤ 3 * (n.toNat - k) + 2 := by
  unfold copyMeasure
  rw [h.a3_toNat hend, h.a1_toNat hend, Nat.add_sub_add_left]
  constructor
  · exact Nat.le_add_right _ _
  · cases s.pc <;> simp

/-- An access that does not fault moves the progress, and decreases the measure. -/
theorem Progress.next (h : Progress f dst src n mem k s) (hr : Ranges dst src n)
    (hend : src.toNat + n.toNat < 2 ^ (8 * szreg w)) (hsize : 0 < size) (hk : k + size ≤ n.toNat)
    {bound : Word w} {loop next : Label}
    (hstep : Mm.copyLoop f size bound loop next s = .inl s') :
    Progress f dst src n mem (k + size) s' ∧ s'.t0 = s.t0 ∧ s'.t1 = s.t1 ∧
      s'.pc = (if src.toNat + (k + size) < bound.toNat then loop else next) ∧
      copyMeasure s' < copyMeasure s := by
  rcases h.copyLoop hr hend hsize hk bound loop next with
    ⟨hfault, -⟩ | ⟨s'', hnext, hp, ht0, ht1, hpc⟩
  · rw [hfault] at hstep
    cases hstep
  · obtain rfl : s'' = s' := by
      rw [hnext] at hstep
      exact Sum.inl.inj hstep
    have hs := (h.measure hend).1
    have hs' := (hp.measure hend).2
    exact ⟨hp, ht0, ht1, hpc, by omega⟩

/-- **Every block keeps the invariant**, and the blocks come to an end. -/
theorem CopyInv.next (hr : Ranges dst src n) (hend : src.toNat + n.toNat < 2 ^ (8 * szreg w))
    (h : CopyInv f dst src n mem s) (hstep : copyStep f s = .inl s') :
    CopyInv f dst src n mem s' ∧ copyMeasure s' < copyMeasure s := by
  obtain ⟨k, hp, hat⟩ := h
  unfold copyStep at hstep
  cases hpc : s.pc with
  | check =>
    simp only [hpc, Sum.inl.injEq] at hstep
    subst hstep
    have hp' : ∀ pc, Progress f dst src n mem k { s with pc := pc } := fun _ =>
      ⟨hp.a0, hp.a1, hp.a3, hp.mem, hp.le, hp.noFault⟩
    have hle := hp.le
    have hiff : s.a1 < s.a3 ↔ k < n.toNat := by
      rw [BitVec.lt_def, hp.a1_toNat hend, hp.a3_toNat hend]
      exact Nat.add_lt_add_iff_left
    by_cases hlt : s.a1 < s.a3
    · rw [if_pos hlt]
      exact ⟨⟨k, hp' _, hiff.mp hlt⟩, by simp [copyMeasure, hpc]⟩
    · rw [if_neg hlt]
      exact ⟨⟨k, hp' _, Nat.le_antisymm hle (Nat.not_lt.mp (mt hiff.mpr hlt))⟩,
        by simp [copyMeasure, hpc]⟩
  | done => simp [hpc] at hstep
  | words =>
    rw [hpc] at hat hstep
    obtain ⟨hbound, hmod, hlt⟩ := hat
    have hword := add_le_of_mod_eq (hmod.trans hbound.aligned.symm) hlt
    have hb := hbound.le
    obtain ⟨hp', -, ht1, hpc', hdec⟩ := hp.next hr hend (szreg_pos w) (by omega) hstep
    refine ⟨⟨_, hp', ?_⟩, hdec⟩
    rw [hpc']
    split
    · refine ⟨⟨ht1 ▸ hbound.aligned, ht1 ▸ hb⟩, ?_, by rwa [ht1]⟩
      rw [← Nat.add_assoc, Nat.add_mod_right, hmod]
    · trivial
  | head =>
    rw [hpc] at hat hstep
    obtain ⟨hbound, hmod, hlt01, hlt⟩ := hat
    have hb := hbound.le
    obtain ⟨hp', ht0, ht1, hpc', hdec⟩ := hp.next hr hend Nat.one_pos (by omega) hstep
    have hbound' : WordBound src n s' := ⟨ht1 ▸ hbound.aligned, ht1 ▸ hb⟩
    refine ⟨⟨_, hp', ?_⟩, hdec⟩
    rw [hpc']
    split
    · exact ⟨hbound', ht0 ▸ hmod, by rwa [ht0, ht1], by rwa [ht0]⟩
    · have heq : src.toNat + (k + 1) = s.t0.toNat := by omega
      exact ⟨hbound', by rw [heq, hmod], by rwa [heq, ht1]⟩
  | tail =>
    rw [hpc] at hat hstep
    obtain ⟨hp', -, -, hpc', hdec⟩ := hp.next hr hend Nat.one_pos hat hstep
    have hle : k + 1 ≤ n.toNat := hat
    refine ⟨⟨_, hp', ?_⟩, hdec⟩
    rw [hpc', hp.a3_toNat hend]
    split
    · next hlt => exact Nat.lt_of_add_lt_add_left hlt
    · exact Nat.le_antisymm hle (by omega)

/-- The end of a copy: all bytes are copied and none of them faults, or a byte faults and the
fixup computes from the end of the source and the place in the destination. -/
def CopyResult (f : Faults w) (dst src n : Word w) (mem : Word w → Byte) (e : CopyExit w) : Prop :=
  (NoFault f dst src n ∧ e.a0 = 0 ∧ e.mem = copied mem dst src n.toNat ∧ e.faulted = false) ∨
    (¬ NoFault f dst src n ∧ e.faulted = true ∧
      ∃ k < n.toNat, e.a0 = src + n - (dst + BitVec.ofNat _ k))

/-- An access that faults ends the copy with a result. -/
theorem Progress.fault (h : Progress f dst src n mem k s) (hr : Ranges dst src n)
    (hend : src.toNat + n.toNat < 2 ^ (8 * szreg w)) (hsize : 0 < size) (hk : k + size ≤ n.toNat)
    {bound : Word w} {loop next : Label} {e : CopyExit w}
    (hstep : Mm.copyLoop f size bound loop next s = .inr e) : CopyResult f dst src n mem e := by
  rcases h.copyLoop hr hend hsize hk bound loop next with
    ⟨hfault, hno⟩ | ⟨s'', hnext, -⟩
  · obtain rfl : copyFixup s = e := by
      rw [hfault] at hstep
      exact Sum.inr.inj hstep
    exact Or.inr ⟨hno, rfl, k, by omega, by rw [copyFixup, h.a3, h.a0]⟩
  · rw [hnext] at hstep
    cases hstep

theorem CopyInv.last (hr : Ranges dst src n) (hend : src.toNat + n.toNat < 2 ^ (8 * szreg w))
    {e : CopyExit w} (h : CopyInv f dst src n mem s) (hstep : copyStep f s = .inr e) :
    CopyResult f dst src n mem e := by
  obtain ⟨k, hp, hat⟩ := h
  unfold copyStep at hstep
  cases hpc : s.pc with
  | check => simp [hpc] at hstep
  | done =>
    rw [hpc] at hat
    simp only [hpc, Sum.inr.injEq] at hstep
    subst hstep
    have hk : k = n.toNat := hat
    subst hk
    exact Or.inl ⟨hp.noFault, rfl, hp.mem, rfl⟩
  | words =>
    rw [hpc] at hat hstep
    obtain ⟨hbound, hmod, hlt⟩ := hat
    have hword := add_le_of_mod_eq (hmod.trans hbound.aligned.symm) hlt
    have hb := hbound.le
    exact hp.fault hr hend (szreg_pos w) (by omega) hstep
  | head =>
    rw [hpc] at hat hstep
    obtain ⟨hbound, -, hlt01, hlt⟩ := hat
    have hb := hbound.le
    exact hp.fault hr hend Nat.one_pos (by omega) hstep
  | tail =>
    rw [hpc] at hat hstep
    exact hp.fault hr hend Nat.one_pos hat hstep

theorem le_round_up {a m : Nat} (hm : 0 < m) : a ≤ (a + (m - 1)) / m * m := by
  have hdiv := Nat.div_add_mod (a + (m - 1)) m
  have hmod := Nat.mod_lt (a + (m - 1)) hm
  rw [Nat.mul_comm] at hdiv
  omega

theorem same_offset_iff (dst src : Word w) :
    dst &&& BitVec.ofNat (8 * szreg w) (szreg w - 1) =
        src &&& BitVec.ofNat (8 * szreg w) (szreg w - 1) ↔
      dst.toNat % szreg w = src.toNat % szreg w := by
  rw [← BitVec.toNat_inj, toNat_and_szreg, toNat_and_szreg]

/-- The entry sets up the invariant, with nothing copied. -/
theorem copyUser_inv (hclear : Clear dst src n) (sstatus : Word w) :
    CopyInv f dst src n mem (copyUser dst src n sstatus mem) := by
  have start : ∀ (pc : Label) (t0 t1 : Word w), Progress f dst src n mem 0
      { pc := pc, a0 := dst, a1 := src, a3 := src + n, t0 := t0, t1 := t1,
        sstatus := sstatus &&& ~~~srPum, mem := mem } := fun pc t0 t1 =>
    ⟨by simp, by simp, rfl, (copied_zero mem dst src).symm, Nat.zero_le _, by simp⟩
  refine ⟨0, ?_⟩
  unfold copyUser
  dsimp only
  split
  · exact ⟨start _ _ _, trivial⟩
  next hoffset =>
  have hround := hclear.round_le ((same_offset_iff dst src).mp (not_not.mp hoffset))
  have hpos := szreg_pos w
  have ht0 : ((src + BitVec.ofNat (8 * szreg w) (szreg w - 1)) &&&
      ~~~BitVec.ofNat (8 * szreg w) (szreg w - 1)).toNat =
        (src.toNat + (szreg w - 1)) / szreg w * szreg w := by
    rw [toNat_and_not_szreg, toNat_add_lt (by omega)]
  have ht1 : ((src + n) &&& ~~~BitVec.ofNat (8 * szreg w) (szreg w - 1)).toNat =
      (src.toNat + n.toNat) / szreg w * szreg w := by
    rw [toNat_and_not_szreg, BitVec.toNat_add, Nat.mod_eq_of_lt hclear.end_lt]
  have hbound : ∀ (pc : Label) (t0 : Word w), WordBound src n
      { pc := pc, a0 := dst, a1 := src, a3 := src + n, t0 := t0,
        t1 := (src + n) &&& ~~~BitVec.ofNat (8 * szreg w) (szreg w - 1),
        sstatus := sstatus &&& ~~~srPum, mem := mem } := fun pc t0 =>
    ⟨by rw [ht1, Nat.mul_mod_left], by rw [ht1]; exact Nat.div_mul_le_self _ _⟩
  split
  · exact ⟨start _ _ _, trivial⟩
  next hlt01 =>
  rw [BitVec.le_def, Nat.not_le] at hlt01
  have hge := @le_round_up src.toNat _ hpos
  have hmod : (src.toNat + (szreg w - 1)) / szreg w * szreg w % szreg w = 0 :=
    Nat.mul_mod_left _ _
  split
  · next hlt =>
    rw [BitVec.lt_def] at hlt
    exact ⟨start _ _ _, hbound _ _, by rw [ht0, hmod], hlt01, hlt⟩
  · next hlt =>
    have heq : src.toNat = (src.toNat + (szreg w - 1)) / szreg w * szreg w := by
      rw [BitVec.lt_def, ht0] at hlt
      omega
    refine ⟨start _ _ _, hbound _ _, ?_, ?_⟩
    · rw [Nat.add_zero, heq, hmod]
    · rw [ht0, ← heq] at hlt01
      exact hlt01

/-- The copy halts, when the source stays clear of the end of the address space. -/
theorem copyUser_ends (hr : Ranges dst src n) (hclear : Clear dst src n) (sstatus : Word w) :
    ∃ e, Ends (copyStep f) (copyUser dst src n sstatus mem) e :=
  ends_of_measure copyMeasure (fun _ _ h hstep => h.next hr hclear.end_lt hstep)
    (copyUser_inv hclear sstatus)

theorem copyUser_result (hr : Ranges dst src n) (hclear : Clear dst src n) {sstatus : Word w}
    {e : CopyExit w} (h : Ends (copyStep f) (copyUser dst src n sstatus mem) e) :
    CopyResult f dst src n mem e :=
  h.invariant (fun _ _ hi hstep => (hi.next hr hclear.end_lt hstep).1)
    (fun _ _ hi hstep => hi.last hr hclear.end_lt hstep) (copyUser_inv hclear sstatus)

theorem or_srPum_ne (sstatus : Word w) : (sstatus ||| srPum) &&& srPum ≠ 0 := by
  have hself : (sstatus ||| srPum) &&& srPum = srPum := by
    ext i hi
    rw [BitVec.getElem_and, BitVec.getElem_or]
    cases (srPum : Word w)[i] <;> simp
  rw [hself]
  cases w <;> decide

theorem copyStep_sstatus {e : CopyExit w} (h : copyStep f s = .inr e) :
    e.sstatus &&& srPum ≠ 0 := by
  have hloop : ∀ size bound loop next, Mm.copyLoop f size bound loop next s = .inr e →
      e.sstatus &&& srPum ≠ 0 := by
    intro size bound loop next h
    unfold Mm.copyLoop at h
    split_ifs at h <;> cases h <;> exact or_srPum_ne _
  unfold copyStep at h
  cases hpc : s.pc with
  | check => simp [hpc] at h
  | done =>
    rw [hpc] at h
    cases h
    exact or_srPum_ne _
  | words | head | tail =>
    rw [hpc] at h
    exact hloop _ _ _ _ h

/-- `SR_PUM` is set on every exit. -/
theorem copyUser_sstatus {e : CopyExit w} (h : Ends (copyStep f) s e) :
    e.sstatus &&& srPum ≠ 0 := by
  exact @Ends.invariant _ _ (copyStep f) s e (fun _ => True) (fun e => e.sstatus &&& srPum ≠ 0)
    (fun _ _ hi _ => hi) (fun _ _ _ hstep => copyStep_sstatus hstep) h trivial

/-- **After a fault the value computed by the fixup is never the number of bytes left**: it is
off by the distance of the ranges, which is at least their length. -/
theorem fixup_ne (hr : Ranges dst src n) (hk : k < n.toNat) {k' : Nat} (hk' : k' < n.toNat) :
    (src + n - (dst + BitVec.ofNat _ k)).toNat ≠ n.toNat - k' := by
  obtain ⟨hdst, hsrc, hdisjoint⟩ := hr
  have hcur : (dst + BitVec.ofNat _ k).toNat = dst.toNat + k := toNat_add_lt (by omega)
  have hend : (src + n).toNat = src.toNat + n.toNat ∨
      (src + n).toNat = 0 ∧ src.toNat + n.toNat = 2 ^ (8 * szreg w) := by
    rw [BitVec.toNat_add]
    rcases Nat.lt_or_ge (src.toNat + n.toNat) (2 ^ (8 * szreg w)) with h | h
    · exact Or.inl (Nat.mod_eq_of_lt h)
    · have heq := Nat.le_antisymm hsrc h
      exact Or.inr ⟨by rw [heq, Nat.mod_self], heq⟩
  rw [toNat_sub_ite, hcur]
  split <;> omega

/-- A copy whose source stays clear of the end of the address space meets its contract iff no
byte of the ranges faults. -/
theorem reportsExactly_iff_of_clear (hr : Ranges dst src n) (hclear : Clear dst src n) :
    ReportsExactly f dst src n ↔ NoFault f dst src n := by
  constructor
  · intro h
    obtain ⟨e, hends, -, k', hle, ha0, -, hlt⟩ := h 0 fun _ => 0
    rcases copyUser_result hr hclear hends with ⟨hno, -⟩ | ⟨-, hfaulted, k, hk, hret⟩
    · exact hno
    · rw [hret] at ha0
      exact absurd ha0 (fixup_ne hr hk (hlt hfaulted))
  · intro hno sstatus mem
    obtain ⟨e, hends⟩ := @copyUser_ends w f dst src n mem hr hclear sstatus
    refine ⟨e, hends, copyUser_sstatus hends, n.toNat, Nat.le_refl _, ?_⟩
    rcases copyUser_result hr hclear hends with ⟨-, ha0, hmem, hfaulted⟩ | ⟨hfault, -⟩
    · exact ⟨by simp [ha0], hmem, by simp [hfaulted]⟩
    · exact absurd hno hfault

end Run

end LowriscLinux.Mm
