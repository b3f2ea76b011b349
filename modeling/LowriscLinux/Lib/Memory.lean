import LowriscLinux.Lib.Bytes
import LowriscLinux.Lib.Words

/-!
# Byte memory

Memory as a function from `n`-bit addresses to bytes, with loads and stores of words of `k` bytes
(`loadWord`, `storeWord`). Ranges are compared through the values of addresses; a range that is
stored to must not wrap.

Results:
* `loadWord_storeWord`: a load gives what was stored at its address.
* `storeWord_outside`, `loadWord_storeWord_apart`: and elsewhere what was there.
* `storeWord_setWidth_iff`: a store of a part of a word is one of the whole word iff memory already
  holds the rest.
-/

namespace LowriscLinux.Lib

variable {n k : Nat}

abbrev Memory (n : Nat) := BitVec n → Byte

/-- The word of `k` bytes at an address. -/
def loadWord (k : Nat) (mem : Memory n) (a : BitVec n) : BitVec (8 * k) :=
  ofBytes k fun i => mem (a + BitVec.ofNat n i)

/-- Memory after a store of a word. -/
def storeWord (mem : Memory n) (a : BitVec n) (v : BitVec (8 * k)) : Memory n :=
  fun b => if (b - a).toNat < k then byteAt v (b - a).toNat else mem b

/-- Two memories have the same bytes from one value of addresses up to another. -/
def Agree (mem mem' : Memory n) (lo hi : Nat) : Prop :=
  ∀ a, lo ≤ a.toNat → a.toNat < hi → mem' a = mem a

section

variable {mem mem' mem'' : Memory n} {a b : BitVec n} {lo hi lo' hi' : Nat}

theorem Agree.refl (mem : Memory n) (lo hi : Nat) : Agree mem mem lo hi := fun _ _ _ => rfl

theorem Agree.trans (h : Agree mem mem' lo hi) (h' : Agree mem' mem'' lo hi) :
    Agree mem mem'' lo hi :=
  fun a hlo hhi => (h' a hlo hhi).trans (h a hlo hhi)

theorem Agree.mono (h : Agree mem mem' lo hi) (hlo : lo ≤ lo') (hhi : hi' ≤ hi) :
    Agree mem mem' lo' hi' :=
  fun a h₁ h₂ => h a (by omega) (by omega)

theorem loadWord_congr (hb : b.toNat + k ≤ 2 ^ n) (h : Agree mem mem' b.toNat (b.toNat + k)) :
    loadWord k mem' b = loadWord k mem b := by
  refine eq_of_byteAt fun i hi => ?_
  have hval := toNat_add_lt (show b.toNat + i < 2 ^ n by omega)
  rw [loadWord, loadWord, byteAt_ofBytes _ hi, byteAt_ofBytes _ hi]
  exact h _ (by omega) (by omega)

/-- A store only changes the range of its word. -/
theorem storeWord_outside (ha : a.toNat + k ≤ 2 ^ n) (v : BitVec (8 * k))
    (h : b.toNat < a.toNat ∨ a.toNat + k ≤ b.toNat) : storeWord mem a v b = mem b := by
  have hdist := toNat_sub_ite b a
  have hb := b.isLt
  unfold storeWord
  rw [if_neg]
  split at hdist <;> omega

theorem agree_storeWord (ha : a.toNat + k ≤ 2 ^ n) (v : BitVec (8 * k))
    (h : hi ≤ a.toNat ∨ a.toNat + k ≤ lo) : Agree mem (storeWord mem a v) lo hi :=
  fun _ hlo hhi => storeWord_outside ha v (by omega)

theorem loadWord_storeWord (ha : a.toNat + k ≤ 2 ^ n) (v : BitVec (8 * k)) :
    loadWord k (storeWord mem a v) a = v := by
  refine eq_of_byteAt fun i hi => ?_
  have hval := toNat_add_lt (show a.toNat + i < 2 ^ n by omega)
  have hdist := toNat_sub_ite (a + BitVec.ofNat n i) a
  rw [if_pos (by omega), hval, Nat.add_sub_cancel_left] at hdist
  rw [loadWord, byteAt_ofBytes _ hi, storeWord, hdist, if_pos hi]

theorem loadWord_storeWord_apart (ha : a.toNat + k ≤ 2 ^ n) (hb : b.toNat + k ≤ 2 ^ n)
    (v : BitVec (8 * k)) (h : b.toNat + k ≤ a.toNat ∨ a.toNat + k ≤ b.toNat) :
    loadWord k (storeWord mem a v) b = loadWord k mem b :=
  loadWord_congr hb (agree_storeWord ha v h)

/-- The bytes of a word in memory. -/
theorem byteAt_loadWord (mem : Memory n) (a : BitVec n) {i : Nat} (hi : i < k) :
    byteAt (loadWord k mem a) i = mem (a + BitVec.ofNat n i) := byteAt_ofBytes _ hi

/-- The low part of a word in memory. -/
theorem setWidth_loadWord {j : Nat} (hj : j ≤ k) (mem : Memory n) (a : BitVec n) :
    (loadWord k mem a).setWidth (8 * j) = loadWord j mem a := by
  refine eq_of_byteAt fun i hi => ?_
  rw [byteAt_setWidth _ hi, byteAt_loadWord _ _ (by omega), byteAt_loadWord _ _ hi]

/-- **A store of the low part of a word** is one of the whole word iff memory already holds the
rest. -/
theorem storeWord_setWidth_iff {j : Nat} (hj : j ≤ k) (ha : a.toNat + k ≤ 2 ^ n)
    (v : BitVec (8 * k)) : storeWord mem a (v.setWidth (8 * j)) = storeWord mem a v ↔
      v >>> (8 * j) = loadWord k mem a >>> (8 * j) := by
  have hdist : ∀ i < k, (a + BitVec.ofNat n i - a).toNat = i := by
    intro i hi
    have hval := toNat_add_lt (show a.toNat + i < 2 ^ n by have := a.isLt; omega)
    have hsub := toNat_sub_ite (a + BitVec.ofNat n i) a
    rwa [if_pos (by omega), hval, Nat.add_sub_cancel_left] at hsub
  constructor
  · intro h
    refine eq_of_byteAt fun i hi => ?_
    rw [byteAt_ushiftRight, byteAt_ushiftRight]
    by_cases hik : j + i < k
    · have hbyte := congrFun h (a + BitVec.ofNat n (j + i))
      simp only [storeWord, hdist _ hik] at hbyte
      rw [if_neg (by omega), if_pos hik] at hbyte
      rw [byteAt_loadWord _ _ hik, hbyte]
    · rw [byteAt_of_ge _ (by omega), byteAt_of_ge _ (by omega)]
  · intro h
    funext b
    have hb : a + BitVec.ofNat n (b - a).toNat = b := by
      rw [BitVec.ofNat_toNat, BitVec.setWidth_eq, BitVec.add_comm, BitVec.sub_add_cancel]
    unfold storeWord
    by_cases hjb : (b - a).toNat < j
    · rw [if_pos hjb, if_pos (by omega), byteAt_setWidth _ hjb]
    · rw [if_neg hjb]
      split_ifs with hkb
      · -- A byte behind the low part is one that memory holds.
        have hbyte := congrArg (fun u => byteAt u ((b - a).toNat - j)) h
        have hidx : j + ((b - a).toNat - j) = (b - a).toNat := by omega
        simp only [byteAt_ushiftRight, hidx, byteAt_loadWord _ _ hkb, hb] at hbyte
        exact hbyte.symm
      · rfl

/-- A store of the word that memory holds changes nothing, and no other store does. -/
theorem storeWord_eq_self_iff (ha : a.toNat + k ≤ 2 ^ n) (v : BitVec (8 * k)) :
    storeWord mem a v = mem ↔ v = loadWord k mem a := by
  constructor
  · intro h
    rw [← loadWord_storeWord ha v, h]
  · rintro rfl
    funext b
    have hb : a + BitVec.ofNat n (b - a).toNat = b := by
      rw [BitVec.ofNat_toNat, BitVec.setWidth_eq, BitVec.add_comm, BitVec.sub_add_cancel]
    unfold storeWord
    split_ifs with hkb
    · rw [byteAt_loadWord _ _ hkb, hb]
    · rfl

end

end LowriscLinux.Lib
