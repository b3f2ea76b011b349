import LowriscLinux.Mm.Uaccess

/-!
# Memory accesses

The loads and stores of the routines in `arch/riscv/lib`, for statements about which addresses they
touch.

* `accessOk`: `__access_ok` (`arch/riscv/include/asm/uaccess.h`, lines 75-79), by which the kernel
  lets callers near these routines. Both comparisons are unsigned, and the difference cannot wrap
  behind the first one.
* `MemAccess`: an access has an address, a size and a direction. One of a word is naturally aligned
  when its address is a multiple of its size.
* `Recorded`: memory with the accesses made so far, for routines that have no exception table. The
  model of a routine loads and stores through it, so that no access goes unrecorded.

Results:
* `storeBytes_at` / `storeBytes_outside`: what a store of a range leaves in memory.
* `MemAccess.within_add`: an access at an offset lies in a range that does not wrap.
-/

namespace LowriscLinux.Mm

open Lib Kernel

variable {w : Xlen}

/-- `__access_ok`, with `get_fs()` as a parameter. -/
def accessOk (fs addr size : Word w) : Bool := size ≤ fs && addr ≤ fs - size

/-- A range that `access_ok` accepts does not wrap. -/
theorem accessOk_fit {fs addr size : Word w} (h : accessOk fs addr size = true) :
    addr.toNat + size.toNat ≤ fs.toNat := by
  simp only [accessOk, Bool.and_eq_true, decide_eq_true_eq, BitVec.le_def] at h
  obtain ⟨hle, hfit⟩ := h
  rw [toNat_sub_ite, if_pos hle] at hfit
  omega

/-- A load or a store. -/
structure MemAccess (w : Xlen) where
  write : Bool
  addr : Word w
  size : Nat

namespace MemAccess

/-- All bytes of the access are among the `n` bytes from `a` on. -/
def Within (acc : MemAccess w) (a : Word w) (n : Nat) : Prop :=
  a.toNat ≤ acc.addr.toNat ∧ acc.addr.toNat + acc.size ≤ a.toNat + n

/-- The access is naturally aligned. -/
def Aligned (acc : MemAccess w) : Prop := acc.addr.toNat % acc.size = 0

/-- A byte of the access faults. -/
def faults (f : Faults w) (acc : MemAccess w) : Bool :=
  faultsAt (if acc.write then f.store else f.load) acc.addr acc.size

/-- Loads lie in the source of a copy and stores in its destination. -/
def InRanges (dst src : Word w) (n : Nat) (acc : MemAccess w) : Prop :=
  if acc.write then acc.Within dst n else acc.Within src n

theorem within_add {a : Word w} {k size n : Nat} (ha : a.toNat + n ≤ 2 ^ (8 * szreg w))
    (hsize : 0 < size) (hk : k + size ≤ n) (write : Bool) :
    (⟨write, a + BitVec.ofNat _ k, size⟩ : MemAccess w).Within a n := by
  have haddr : (a + BitVec.ofNat (8 * szreg w) k).toNat = a.toNat + k :=
    toNat_add_lt (by omega)
  unfold Within
  dsimp only
  rw [haddr]
  omega

end MemAccess

/-! ## Stored ranges -/

section Stored

variable {mem : Word w → Byte} {a b : Word w} {size i : Nat} {v : Nat → Byte}

theorem toNat_add_ofNat_sub (a : Word w) (hi : i < 2 ^ (8 * szreg w)) :
    (a + BitVec.ofNat _ i - a).toNat = i := by
  rw [BitVec.add_comm, BitVec.add_sub_cancel, BitVec.toNat_ofNat, Nat.mod_eq_of_lt hi]

theorem storeBytes_at (hi : i < size) (hlt : i < 2 ^ (8 * szreg w)) :
    storeBytes mem a size v (a + BitVec.ofNat _ i) = v i := by
  rw [storeBytes, toNat_add_ofNat_sub a hlt, if_pos hi]

theorem storeBytes_outside (h : ∀ i < size, b ≠ a + BitVec.ofNat _ i) :
    storeBytes mem a size v b = mem b := by
  have hb : b = a + BitVec.ofNat _ (b - a).toNat := by
    rw [BitVec.ofNat_toNat, BitVec.setWidth_eq, BitVec.add_comm, BitVec.sub_add_cancel]
  rw [storeBytes, if_neg]
  exact fun hlt => h _ hlt hb

theorem storeBytes_congr {v' : Nat → Byte} (h : ∀ i < size, v i = v' i) :
    storeBytes mem a size v = storeBytes mem a size v' := by
  funext b
  unfold storeBytes
  split
  · next hlt => exact h _ hlt
  · rfl

/-- Two stores side by side are one store. -/
theorem storeBytes_append {size' : Nat} (h : a.toNat + (size + size') ≤ 2 ^ (8 * szreg w)) :
    storeBytes (storeBytes mem a size v) (a + BitVec.ofNat _ size) size' (fun i => v (size + i)) =
      storeBytes mem a (size + size') v := by
  funext b
  rcases Nat.eq_zero_or_pos size' with rfl | hpos
  · simp [storeBytes]
  have hcur : (a + BitVec.ofNat (8 * szreg w) size).toNat = a.toNat + size :=
    toNat_add_lt (by omega)
  have hb := toNat_sub_ite b a
  have hb' := toNat_sub_ite b (a + BitVec.ofNat _ size)
  rw [hcur] at hb'
  have hlt := b.isLt
  have hsame : ¬ (b - a).toNat < size → (b - (a + BitVec.ofNat _ size)).toNat < size' →
      size + (b - (a + BitVec.ofNat _ size)).toNat = (b - a).toNat := by
    split_ifs at hb hb' <;> omega
  unfold storeBytes
  dsimp only
  by_cases hin : (b - a).toNat < size
  · have hfar : ¬ (b - (a + BitVec.ofNat _ size)).toNat < size' := by
      split_ifs at hb hb' <;> omega
    rw [if_neg hfar, if_pos hin, if_pos (Nat.lt_add_right size' hin)]
  · by_cases hnew : (b - (a + BitVec.ofNat _ size)).toNat < size'
    · have heq := hsame hin hnew
      rw [if_pos hnew, heq, if_pos (by omega)]
    · rw [if_neg hnew, if_neg hin, if_neg]
      split_ifs at hb hb' <;> omega

end Stored

/-! ## Recorded accesses -/

/-- Memory with the accesses made so far, the last one first. -/
structure Recorded (w : Xlen) where
  mem : Word w → Byte
  log : List (MemAccess w)

namespace Recorded

/-- A load of `size` bytes. -/
def load (m : Recorded w) (a : Word w) (size : Nat) : (Nat → Byte) × Recorded w :=
  (loadBytes m.mem a, { m with log := ⟨false, a, size⟩ :: m.log })

/-- A store of `size` bytes. -/
def store (m : Recorded w) (a : Word w) (size : Nat) (v : Nat → Byte) : Recorded w :=
  ⟨storeBytes m.mem a size v, ⟨true, a, size⟩ :: m.log⟩

end Recorded

end LowriscLinux.Mm
