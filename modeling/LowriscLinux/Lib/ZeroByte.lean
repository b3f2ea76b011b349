import LowriscLinux.Lib.Bytes

/-!
# The first zero byte of a word

A zero byte is found without looking at the bytes one by one: subtract 1 from each byte, and keep
the highest bit of a byte that the subtraction set (`zeroMask`). The subtraction borrows across
bytes, so a byte above a zero byte may be marked too, but the lowest mark is right. The bits below
the lowest one of a word are `belowLowest`.

Results:
* `zeroMask_append_of_ne`, `zeroMask_append_zero`: the mask of a word with one more byte below.
* `zeroMask_eq_zero_iff`: there is a mark iff there is a zero byte.
* `zeroMask_mod`: the lowest mark is in the first zero byte.
* `belowLowest_eq`: the bits below the lowest one, as a number.
-/

namespace LowriscLinux.Lib

variable {n m k : Nat}

/-- Byte `k` is the least significant zero byte of a word. -/
structure FirstZero (v : BitVec (8 * n)) (k : Nat) : Prop where
  lt : k < n
  zero : byteAt v k = 0
  before : ∀ j < k, byteAt v j ≠ 0

/-- The highest bit of every byte that the subtraction of `ones` set. -/
def zeroMask (ones highs v : BitVec m) : BitVec m := (v - ones) &&& ~~~v &&& highs

/-- The bits below the lowest one of a word. -/
def belowLowest (v : BitVec m) : BitVec m := (v - 1) &&& ~~~v

/-! ## Words -/

theorem ofBytes_byteAt (v : BitVec (8 * n)) : ofBytes n (byteAt v) = v :=
  eq_of_byteAt fun _ hi => byteAt_ofBytes _ hi

theorem toNat_append_byte (a : BitVec m) (x : Byte) :
    (a ++ x).toNat = 256 * a.toNat + x.toNat := by
  rw [BitVec.toNat_append, ← Nat.shiftLeft_add_eq_or_of_lt x.isLt, Nat.shiftLeft_eq, Nat.mul_comm]

theorem setWidth_append_byte (a : BitVec m) (x : Byte) : (a ++ x).setWidth 8 = x := by
  apply BitVec.eq_of_toNat_eq
  have hx := x.isLt
  rw [BitVec.toNat_setWidth, toNat_append_byte]
  omega

/-- A subtraction does not borrow out of a byte that is large enough. -/
theorem append_sub_append {a b : BitVec m} {x y : Byte} (h : y.toNat ≤ x.toNat) :
    (a ++ x) - (b ++ y) = (a - b) ++ (x - y) := by
  apply BitVec.eq_of_toNat_eq
  have hx := x.isLt
  have ha := a.isLt
  have hb := b.isLt
  have hpow : 2 ^ (m + 8) = 256 * 2 ^ m := by rw [Nat.pow_add, Nat.mul_comm]
  have hbyte : (x - y).toNat = x.toNat - y.toNat := BitVec.toNat_sub_of_le h
  rw [toNat_append_byte, hbyte, BitVec.toNat_sub, BitVec.toNat_sub, toNat_append_byte,
    toNat_append_byte, hpow]
  by_cases hab : b.toNat ≤ a.toNat
  · rw [show 256 * 2 ^ m - (256 * b.toNat + y.toNat) + (256 * a.toNat + x.toNat) =
        256 * (a.toNat - b.toNat) + (x.toNat - y.toNat) + 256 * 2 ^ m by omega,
      show 2 ^ m - b.toNat + a.toNat = a.toNat - b.toNat + 2 ^ m by omega, Nat.add_mod_right,
      Nat.add_mod_right, Nat.mod_eq_of_lt (by omega), Nat.mod_eq_of_lt (by omega)]
  · rw [Nat.mod_eq_of_lt (by omega), Nat.mod_eq_of_lt (by omega)]
    omega

/-- The lowest byte of a difference is one of the lowest bytes. -/
theorem setWidth_append_sub_append (a b : BitVec m) (x y : Byte) :
    ((a ++ x) - (b ++ y)).setWidth 8 = x - y := by
  apply BitVec.eq_of_toNat_eq
  have hb := (b ++ y).isLt
  have hpow : 2 ^ (m + 8) = 256 * 2 ^ m := by rw [Nat.pow_add, Nat.mul_comm]
  rw [toNat_append_byte] at hb
  rw [BitVec.toNat_setWidth, BitVec.toNat_sub, BitVec.toNat_sub, toNat_append_byte,
    toNat_append_byte, hpow, Nat.mod_mul_right_mod]
  omega

/-! ## The mask -/

section Mask

variable {o h a : BitVec m} {b : Byte}

/-- A byte that is not zero is not marked, and the bytes above it do not see it. -/
theorem zeroMask_append_of_ne (hb : b ≠ 0) :
    zeroMask (o ++ (1 : Byte)) (h ++ (0x80 : Byte)) (a ++ b) = zeroMask o h a ++ (0 : Byte) := by
  have hpos : (1 : Byte).toNat ≤ b.toNat := by
    have hne : b.toNat ≠ 0 := fun h0 => hb (BitVec.eq_of_toNat_eq h0)
    have hone : (1 : Byte).toNat = 1 := rfl
    omega
  have hmark : ∀ b : Byte, b ≠ 0 → (b - 1) &&& ~~~b &&& 0x80 = 0 := by decide
  rw [zeroMask, append_sub_append hpos, BitVec.not_append, BitVec.and_append, BitVec.and_append,
    hmark b hb, zeroMask]

/-- A zero byte is marked. -/
theorem zeroMask_append_zero :
    (zeroMask (o ++ (1 : Byte)) (h ++ (0x80 : Byte)) (a ++ (0 : Byte))).setWidth 8 = 0x80 := by
  rw [zeroMask, BitVec.setWidth_and, BitVec.setWidth_and, setWidth_append_sub_append,
    BitVec.not_append, setWidth_append_byte, setWidth_append_byte]
  decide

end Mask

/-- The mask of a word of `n` bytes. -/
abbrev byteMask (v : BitVec (8 * n)) : BitVec (8 * n) :=
  zeroMask (ofBytes n fun _ => 1) (ofBytes n fun _ => 0x80) v

theorem byteMask_of_forall_ne (f : Nat → Byte) (hf : ∀ i < n, f i ≠ 0) :
    byteMask (ofBytes n f) = 0 := by
  induction n generalizing f with
  | zero => exact BitVec.eq_nil _
  | succ n ih =>
    have hrest := ih (fun i => f (i + 1)) fun i hi => hf (i + 1) (by omega)
    have hmask : byteMask (ofBytes (n + 1) f) =
        byteMask (ofBytes n fun i => f (i + 1)) ++ (0 : Byte) :=
      zeroMask_append_of_ne (hf 0 (by omega))
    rw [hmask, hrest]
    apply BitVec.eq_of_toNat_eq
    rw [toNat_append_byte]
    rfl

theorem byteMask_mod (f : Nat → Byte) (hk : k < n) (hzero : f k = 0) (hf : ∀ j < k, f j ≠ 0) :
    (byteMask (ofBytes n f)).toNat % 2 ^ (8 * k + 8) = 2 ^ (8 * k + 7) := by
  induction k generalizing n f with
  | zero =>
    obtain ⟨n, rfl⟩ : ∃ j, n = j + 1 := ⟨n - 1, by omega⟩
    have hlow := congrArg BitVec.toNat (@zeroMask_append_zero (8 * n) (ofBytes n fun _ => 1)
      (ofBytes n fun _ => 0x80) (ofBytes n fun i => f (i + 1)))
    rw [← hzero, BitVec.toNat_setWidth] at hlow
    exact hlow
  | succ k ih =>
    obtain ⟨n, rfl⟩ : ∃ j, n = j + 1 := ⟨n - 1, by omega⟩
    have hrest := ih (n := n) (fun i => f (i + 1)) (by omega) hzero
      fun j hj => hf (j + 1) (by omega)
    have hmask : byteMask (ofBytes (n + 1) f) =
        byteMask (ofBytes n fun i => f (i + 1)) ++ (0 : Byte) :=
      zeroMask_append_of_ne (hf 0 (by omega))
    rw [hmask, toNat_append_byte, show 8 * (k + 1) + 8 = 8 + (8 * k + 8) by omega,
      show 8 * (k + 1) + 7 = 8 + (8 * k + 7) by omega, Nat.pow_add 2 8 (8 * k + 7), ← hrest,
      Nat.pow_add 2 8]
    exact Nat.mul_mod_mul_left _ _ _

/-- A word has a zero byte iff it has a first one. -/
theorem exists_firstZero {v : BitVec (8 * n)} (h : ∃ i < n, byteAt v i = 0) :
    ∃ k, FirstZero v k := by
  obtain ⟨hlt, hzero⟩ := Nat.find_spec h
  refine ⟨Nat.find h, hlt, hzero, fun j hj hj0 => ?_⟩
  exact Nat.find_min h hj ⟨by omega, hj0⟩

/-- **The lowest mark is in the first zero byte.** -/
theorem zeroMask_mod {v : BitVec (8 * n)} (h : FirstZero v k) :
    (byteMask v).toNat % 2 ^ (8 * k + 8) = 2 ^ (8 * k + 7) := by
  conv_lhs => rw [← ofBytes_byteAt v]
  exact byteMask_mod _ h.lt h.zero h.before

/-- **There is a mark iff there is a zero byte.** -/
theorem zeroMask_eq_zero_iff (v : BitVec (8 * n)) :
    byteMask v = 0 ↔ ∀ i < n, byteAt v i ≠ 0 := by
  constructor
  · intro hmask i hi hzero
    obtain ⟨k, hk⟩ := exists_firstZero ⟨i, hi, hzero⟩
    have hmod := zeroMask_mod hk
    have hpos := Nat.two_pow_pos (8 * k + 7)
    rw [hmask, BitVec.ofNat_eq_ofNat, BitVec.toNat_ofNat, Nat.zero_mod, Nat.zero_mod] at hmod
    omega
  · intro hf
    rw [← ofBytes_byteAt v]
    exact byteMask_of_forall_ne _ hf

/-! ## Below the lowest bit -/

/-- The bits of the number below a multiple of a power of two that is odd above it. -/
theorem belowLowest_eq {v : BitVec m} (h : v.toNat % 2 ^ (k + 1) = 2 ^ k) :
    belowLowest v = BitVec.ofNat m (2 ^ k - 1) := by
  have hpos := Nat.two_pow_pos k
  have hpow : 2 ^ (k + 1) = 2 * 2 ^ k := Nat.pow_succ'
  obtain ⟨q, hq⟩ : ∃ q, v.toNat = 2 ^ (k + 1) * q + 2 ^ k :=
    ⟨v.toNat / 2 ^ (k + 1), by rw [← h]; exact (Nat.div_add_mod _ _).symm⟩
  have hsub : (v - 1).toNat = 2 ^ (k + 1) * q + (2 ^ k - 1) := by
    have hlt := v.isLt
    have hm : 0 < m := by
      by_contra h0
      obtain rfl : m = 0 := by omega
      omega
    have hone : (1 : BitVec m).toNat = 1 := by
      rw [BitVec.ofNat_eq_ofNat, BitVec.toNat_ofNat,
        Nat.mod_eq_of_lt (Nat.one_lt_two_pow (by omega))]
    rw [BitVec.toNat_sub_of_le (by rw [BitVec.le_def]; omega), hone]
    omega
  ext i hi
  have hv : v[i] = (2 ^ (k + 1) * q + 2 ^ k).testBit i := by
    rw [← hq, BitVec.getElem_eq_testBit_toNat]
  have hv' : (v - 1)[i] = (2 ^ (k + 1) * q + (2 ^ k - 1)).testBit i := by
    rw [← hsub, BitVec.getElem_eq_testBit_toNat]
  have hones : (BitVec.ofNat m (2 ^ k - 1))[i] = decide (i < k) := by
    rw [← BitVec.getLsbD_eq_getElem, BitVec.getLsbD_ofNat, Nat.testBit_two_pow_sub_one]
    simp [hi]
  rw [belowLowest, BitVec.getElem_and, BitVec.getElem_not, hv, hv', hones,
    Nat.testBit_two_pow_mul_add _ (by omega), Nat.testBit_two_pow_mul_add _ (by omega),
    Nat.testBit_two_pow_sub_one, Nat.testBit_two_pow]
  split
  · simp
    omega
  · simp
    omega

/-- The bytes of a word of ones up to a byte's boundary. -/
theorem byteAt_low_ones {i : Nat} (hi : i < n) :
    byteAt (BitVec.ofNat (8 * n) (2 ^ (8 * k) - 1)) i = if i < k then 0xFF else 0 := by
  ext j hj
  rw [byteAt, BitVec.getElem_extractLsb', BitVec.getLsbD_ofNat, Nat.testBit_two_pow_sub_one]
  have hones : ∀ j < 8, (0xFF : Byte).getLsbD j = true := by decide
  split
  · rw [← BitVec.getLsbD_eq_getElem hj, hones j hj]
    simp
    omega
  · simp
    omega

end LowriscLinux.Lib
