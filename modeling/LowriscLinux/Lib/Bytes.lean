import Mathlib.Data.BitVec

/-!
# Words as bytes

The bytes of a word of `n` bytes, least significant first (`byteAt`), the word that has given
bytes (`ofBytes`), and the bytes of a run of words laid out one after the other (`bytesOf`,
`wordsOf`). A copy of a range into a buffer is a `splice`.

Results:
* `byteAt_ofBytes` / `ofBytes_byteAt`: a word and its bytes determine each other.
* `byteAt_double`: a byte repeated twice as often.
* `bytesOf_wordsOf` / `wordsOf_bytesOf`: the same for an object made of words.
* `splice_eq_iff`: when a splice into one buffer gives what the splice into another one would.
-/

namespace LowriscLinux.Lib

variable {n : Nat}

abbrev Byte := BitVec 8

/-- Byte `i` of a word, the least significant first. -/
def byteAt (w : BitVec (8 * n)) (i : Nat) : Byte := w.extractLsb' (8 * i) 8

/-- The word of `n` bytes whose bytes are `f 0`, …, `f (n - 1)`. -/
def ofBytes : (n : Nat) → (Nat → Byte) → BitVec (8 * n)
  | 0, _ => 0#0
  | n + 1, f => (ofBytes n fun i => f (i + 1)) ++ f 0

theorem byteAt_ofBytes (f : Nat → Byte) {i : Nat} (hi : i < n) : byteAt (ofBytes n f) i = f i := by
  induction n generalizing f i with
  | zero => omega
  | succ n ih =>
    ext j hj
    rw [ofBytes, byteAt, BitVec.getElem_extractLsb', BitVec.getLsbD_append]
    cases i with
    | zero => simp [hj]
    | succ i =>
      have hij : 8 * (i + 1) + j - 8 = 8 * i + j := by omega
      have hbit := congrArg (fun b : Byte => b.getLsbD j) (@ih (fun i => f (i + 1)) i (by omega))
      simp only [byteAt, BitVec.getLsbD_extractLsb', hj, decide_true, Bool.true_and] at hbit
      rw [if_neg (by omega), hij, hbit, BitVec.getLsbD_eq_getElem hj]

/-- Words with the same bytes are equal. -/
theorem eq_of_byteAt {v w : BitVec (8 * n)} (h : ∀ i < n, byteAt v i = byteAt w i) : v = w := by
  ext j hj
  have hb := congrArg (fun b : Byte => b.getLsbD (j % 8)) (h (j / 8) (by omega))
  have hlt : j % 8 < 8 := by omega
  have hsum : 8 * (j / 8) + j % 8 = j := by omega
  simpa [byteAt, hlt, hsum, BitVec.getLsbD_eq_getElem hj] using hb

/-! ## Bytes of bitwise operations -/

theorem byteAt_or (v w : BitVec (8 * n)) (i : Nat) :
    byteAt (v ||| w) i = byteAt v i ||| byteAt w i := by
  ext j hj
  simp [byteAt]

theorem byteAt_shiftLeft (v : BitVec (8 * n)) (m : Nat) {i : Nat} (hi : i < n) :
    byteAt (v <<< (8 * m)) i = if i < m then 0 else byteAt v (i - m) := by
  ext j hj
  have hlt : 8 * i + j < 8 * n := by omega
  unfold byteAt
  split
  · next him =>
    have hlow : 8 * i + j < 8 * m := by omega
    simp [hlow]
  · next him =>
    have hhigh : ¬ 8 * i + j < 8 * m := by omega
    have hsub : 8 * i + j - 8 * m = 8 * (i - m) + j := by omega
    have hbit : v.getLsbD (8 * (i - m) + j) = v[8 * (i - m) + j] :=
      BitVec.getLsbD_eq_getElem (by omega)
    simp [hlt, hhigh, hsub, hbit]

theorem byteAt_ushiftRight (v : BitVec (8 * n)) (m i : Nat) :
    byteAt (v >>> (8 * m)) i = byteAt v (m + i) := by
  ext j hj
  have hsum : 8 * m + (8 * i + j) = 8 * (m + i) + j := by omega
  simp [byteAt, hsum]

/-- The bytes of a longer or shorter word. -/
theorem byteAt_setWidth {m i : Nat} (v : BitVec (8 * n)) (hi : i < m) :
    byteAt (v.setWidth (8 * m)) i = byteAt v i := by
  ext j hj
  have hlt : 8 * i + j < 8 * m := by omega
  simp [byteAt, hlt]

theorem byteAt_of_ge (v : BitVec (8 * n)) {i : Nat} (hi : n ≤ i) : byteAt v i = 0 := by
  ext j hj
  have hge : 8 * n ≤ 8 * i + j := by omega
  simp [byteAt, hge]

/-- A word of the byte `b` repeated `m` times, and the same shifted behind it. -/
theorem byteAt_double {v : BitVec (8 * n)} {b : Byte} {m : Nat}
    (h : ∀ i < n, byteAt v i = if i < m then b else 0) :
    ∀ i < n, byteAt (v <<< (8 * m) ||| v) i = if i < 2 * m then b else 0 := by
  intro i hi
  rw [byteAt_or, byteAt_shiftLeft v m hi, h i hi]
  by_cases him : i < m
  · simp [him, show i < 2 * m by omega]
  · rw [h (i - m) (by omega)]
    by_cases him' : i < 2 * m
    · simp [him, him', show i - m < m by omega]
    · simp [him, him', show ¬ i - m < m by omega]

/-! ## Objects made of words -/

/-- The bytes of words laid out one after the other. -/
def bytesOf (f : Nat → BitVec (8 * n)) (i : Nat) : Byte := byteAt (f (i / n)) (i % n)

/-- The words that a run of bytes is made of. -/
def wordsOf (n : Nat) (b : Nat → Byte) (k : Nat) : BitVec (8 * n) := ofBytes n fun j => b (n * k + j)

theorem bytesOf_at (f : Nat → BitVec (8 * n)) (k : Nat) {j : Nat} (hj : j < n) :
    bytesOf f (n * k + j) = byteAt (f k) j := by
  have hq : (n * k + j) / n = k := by
    rw [Nat.mul_add_div (by omega), Nat.div_eq_of_lt hj, Nat.add_zero]
  have hr : (n * k + j) % n = j := by rw [Nat.mul_add_mod, Nat.mod_eq_of_lt hj]
  simp only [bytesOf, hq, hr]

theorem bytesOf_wordsOf (hn : 0 < n) (b : Nat → Byte) : bytesOf (wordsOf n b) = b := by
  funext i
  unfold bytesOf wordsOf
  rw [byteAt_ofBytes _ (Nat.mod_lt i hn), Nat.div_add_mod]

theorem wordsOf_bytesOf (f : Nat → BitVec (8 * n)) : wordsOf n (bytesOf f) = f := by
  funext k
  refine eq_of_byteAt fun j hj => ?_
  rw [wordsOf, byteAt_ofBytes _ hj, bytesOf_at f k hj]

/-- A word is as it was when its bytes are. -/
theorem wordsOf_congr {b c : Nat → Byte} {k : Nat}
    (h : ∀ i, n * k ≤ i → i < n * (k + 1) → b i = c i) : wordsOf n b k = wordsOf n c k := by
  refine eq_of_byteAt fun j hj => ?_
  rw [wordsOf, wordsOf, byteAt_ofBytes _ hj, byteAt_ofBytes _ hj]
  exact h _ (by omega) (by rw [Nat.mul_succ]; omega)

/-! ## Copies of a range -/

/-- `old` with the `count` elements from `pos` on replaced by those of `new`. -/
def splice {α : Type} (pos count : Nat) (new old : Nat → α) : Nat → α :=
  fun i => if pos ≤ i ∧ i < pos + count then new (i - pos) else old i

section Splice

variable {α : Type} {pos count i : Nat} {new old : Nat → α}

theorem splice_inside (h : pos ≤ i ∧ i < pos + count) :
    splice pos count new old i = new (i - pos) := by simp [splice, h]

theorem splice_outside (h : ¬(pos ≤ i ∧ i < pos + count)) :
    splice pos count new old i = old i := by simp [splice, h]

/-- Two splices of the same range agree at `i` when `i` is spliced or the buffers agree there. -/
theorem splice_eq_iff {other : Nat → α} :
    splice pos count new old i = splice pos count new other i ↔
      ¬(pos ≤ i ∧ i < pos + count) → old i = other i := by
  unfold splice
  by_cases h : pos ≤ i ∧ i < pos + count
  · simp [h]
  · simp [h]

end Splice

end LowriscLinux.Lib
