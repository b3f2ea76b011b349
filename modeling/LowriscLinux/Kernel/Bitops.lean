import LowriscLinux.Kernel.PtRegs
import LowriscLinux.Lib.Linear
import LowriscLinux.Lib.Words

/-!
# Bit operations

Model of the atomic operations on the bits of an array of words (`arch/riscv/include/asm/bitops.h`,
lines 97-251), by any number of contexts. Each is one atomic instruction on the word that the bit is
in, which also holds the bits of others; `__test_and_op_bit` then takes its bit out of the old word.

## What models what

* `bitWord` and `bitMask`: `BIT_WORD` and `BIT_MASK` of the generic kernel.
* `testAndOpBit` and `opBit`: the macros, lines 97-112. `op` is the operation of the instruction and
  `mod` is `__NOP` or `__NOT` (lines 115 and 116).
* `testAndSetBit` to `changeBit`: lines 127-207. `testAndSetBitLock`, `clearBitUnlock` and
  `clearBitUnlock'`: lines 217-251. The last one is `__clear_bit_unlock`, whose comment says that it
  is not atomic; here it is `clear_bit` (line 250).
* `Op.spec`: what a function does to its bit when nothing else happens, and what it returns.
* `routines`: the functions as routines on the array, by the library's `Routines`.

The array is as long as the bit numbers that are used, and these are not negative: `nr` is an `int`
in most functions and an `unsigned long` in the last three. The barriers that the comments speak of
do nothing here, as the contexts take turns.

Results:
* `apply_bit`: what an operation does to each bit of the array, and what it returns.
* **`bits_linearizable`**: along every run each bit is a register of its own, whose operations do
  what the comments say, one after the other.
* **`bit_lock_exclusive`**: a bit that is set by `test_and_set_bit_lock` and cleared by the holder
  is a lock, whatever is done to the other bits.
-/

namespace LowriscLinux.Kernel.Bitops

open Lib Lib.Linear

variable {w : Xlen} {C : Type}

/-! ## The functions -/

/-- `BIT_WORD`. -/
def bitWord (w : Xlen) (nr : Nat) : Nat := nr / (8 * szreg w)

/-- `BIT_MASK`. -/
def bitMask (nr : Nat) : Word w := (1 : Word w) <<< (nr % (8 * szreg w))

inductive Ret
  | void
  | int (v : Bool)
  deriving DecidableEq, Repr

/-- A function: the word that its instruction works on, what the instruction stores there, and what
the function makes of the old value. -/
structure Fn (w : Xlen) where
  word : Nat
  store : Word w → Word w
  result : Word w → Ret

/-- `__op_bit`. -/
def opBit (op : Word w → Word w → Word w) (mod : Word w → Word w) (nr : Nat) : Fn w where
  word := bitWord w nr
  store v := op v (mod (bitMask nr))
  result _ := .void

/-- `__test_and_op_bit`. -/
def testAndOpBit (op : Word w → Word w → Word w) (mod : Word w → Word w) (nr : Nat) : Fn w where
  word := bitWord w nr
  store v := op v (mod (bitMask nr))
  result res := .int (res &&& bitMask nr ≠ 0)

def testAndSetBit (nr : Nat) : Fn w := testAndOpBit (· ||| ·) id nr

def testAndClearBit (nr : Nat) : Fn w := testAndOpBit (· &&& ·) (~~~ ·) nr

def testAndChangeBit (nr : Nat) : Fn w := testAndOpBit (· ^^^ ·) id nr

def setBit (nr : Nat) : Fn w := opBit (· ||| ·) id nr

def clearBit (nr : Nat) : Fn w := opBit (· &&& ·) (~~~ ·) nr

def changeBit (nr : Nat) : Fn w := opBit (· ^^^ ·) id nr

def testAndSetBitLock (nr : Nat) : Fn w := testAndSetBit nr

def clearBitUnlock (nr : Nat) : Fn w := clearBit nr

/-- `__clear_bit_unlock`, which is atomic too. -/
def clearBitUnlock' (nr : Nat) : Fn w := clearBit nr

/-- The functions, by what they do to a bit. -/
inductive Op
  | testAndSet
  | testAndClear
  | testAndChange
  | set
  | clear
  | change
  | testAndSetLock
  | clearUnlock
  | clearUnlock'
  deriving DecidableEq, Repr

/-- A call of one of the functions. -/
structure Call where
  op : Op
  nr : Nat
  deriving DecidableEq, Repr

def Call.fn (o : Call) : Fn w :=
  match o.op with
  | .testAndSet => testAndSetBit o.nr
  | .testAndClear => testAndClearBit o.nr
  | .testAndChange => testAndChangeBit o.nr
  | .set => setBit o.nr
  | .clear => clearBit o.nr
  | .change => changeBit o.nr
  | .testAndSetLock => testAndSetBitLock o.nr
  | .clearUnlock => clearBitUnlock o.nr
  | .clearUnlock' => clearBitUnlock' o.nr

/-- An array of words. -/
abbrev Bitmap (w : Xlen) := Nat → Word w

/-- A function when nothing else happens. -/
def Fn.apply (f : Fn w) (m : Bitmap w) : Bitmap w × Ret :=
  (Function.update m f.word (f.store (m f.word)), f.result (m f.word))

/-- The functions as routines on the array; the register holds the old word behind the
instruction. -/
def routines (w : Xlen) : Routines (Bitmap w) (Option (Word w)) Call Ret Unit where
  start _ _ := none
  exec o m l _ :=
    match l with
    | none => some ((o.fn.apply m).1, some (m (o.fn : Fn w).word), true)
    | some _ => none
  disturb l := l
  back o l := l.map (o.fn : Fn w).result

/-- A call takes effect at its instruction. -/
def Call.effect (o : Call) (l : Option (Word w)) : Option Ret := l.map (o.fn : Fn w).result

/-! ## What the functions are for -/

/-- What a function does to its bit, and what it returns. -/
def Op.spec : Op → Bool → Bool × Ret
  | testAndSet, b => (true, .int b)
  | testAndClear, b => (false, .int b)
  | testAndChange, b => (!b, .int b)
  | set, _ => (true, .void)
  | clear, _ => (false, .void)
  | change, b => (!b, .void)
  | testAndSetLock, b => (true, .int b)
  | clearUnlock, _ => (false, .void)
  | clearUnlock', _ => (false, .void)

/-- A bit of an array. -/
def bit (m : Bitmap w) (i : Nat) : Bool := (m (bitWord w i)).getLsbD (i % (8 * szreg w))

section Bits

variable {m : Bitmap w} {nr i : Nat}

theorem bits_pos (w : Xlen) : 0 < 8 * szreg w := by cases w <;> decide

theorem bitMask_eq (nr : Nat) : (bitMask nr : Word w) = BitVec.twoPow _ (nr % (8 * szreg w)) :=
  (BitVec.twoPow_eq _ _).symm

theorem getLsbD_bitMask (nr j : Nat) :
    (bitMask nr : Word w).getLsbD j = decide (j = nr % (8 * szreg w)) := by
  have hlt := Nat.mod_lt nr (bits_pos w)
  rw [bitMask_eq, BitVec.getLsbD_twoPow]
  by_cases hj : j = nr % (8 * szreg w)
  · simp [hj, hlt]
  · simp [hj, Ne.symm hj]

theorem getLsbD_or_mask (v : Word w) (nr j : Nat) :
    (v ||| bitMask nr).getLsbD j = if j = nr % (8 * szreg w) then true else v.getLsbD j := by
  rw [BitVec.getLsbD_or, getLsbD_bitMask]
  split_ifs with hj
  · simp [hj]
  · simp [hj]

theorem getLsbD_and_not_mask (v : Word w) (nr j : Nat) :
    (v &&& ~~~ bitMask nr).getLsbD j = if j = nr % (8 * szreg w) then false else v.getLsbD j := by
  rw [BitVec.getLsbD_and, BitVec.getLsbD_not, getLsbD_bitMask]
  split_ifs with hj
  · simp [hj]
  · by_cases hlt : j < 8 * szreg w
    · simp [hj, hlt]
    · rw [BitVec.getLsbD_of_ge v j (Nat.le_of_not_lt hlt), Bool.false_and]

theorem getLsbD_xor_mask (v : Word w) (nr j : Nat) :
    (v ^^^ bitMask nr).getLsbD j =
      if j = nr % (8 * szreg w) then !v.getLsbD (nr % (8 * szreg w)) else v.getLsbD j := by
  rw [BitVec.getLsbD_xor, getLsbD_bitMask]
  split_ifs with hj
  · simp [hj]
  · simp [hj]

theorem mask_ne_zero_iff (v : Word w) (nr : Nat) :
    v &&& bitMask nr ≠ 0 ↔ v.getLsbD (nr % (8 * szreg w)) = true := by
  rw [bitMask_eq, ne_eq, and_twoPow_eq_zero (Nat.mod_lt nr (bits_pos w)), Bool.not_eq_false]

/-- A bit of the array is a word and a place in it. -/
theorem eq_of_word {nr i : Nat} (hword : bitWord w i = bitWord w nr)
    (hplace : i % (8 * szreg w) = nr % (8 * szreg w)) : i = nr := by
  rw [← Nat.div_add_mod i (8 * szreg w), ← Nat.div_add_mod nr (8 * szreg w), hplace]
  exact congrArg (8 * szreg w * · + _) hword

/-- An instruction that changes one bit of a word. -/
theorem update_bit {v : Word w} {b : Bool} (h : ∀ j, v.getLsbD j =
      if j = nr % (8 * szreg w) then b else (m (bitWord w nr)).getLsbD j) (i : Nat) :
    bit (Function.update m (bitWord w nr) v) i = if i = nr then b else bit m i := by
  unfold bit
  by_cases hword : bitWord w i = bitWord w nr
  · rw [hword, Function.update_self, h]
    refine if_congr ⟨fun hplace => eq_of_word hword hplace, fun hi => hi ▸ rfl⟩ rfl rfl
  · have hi : i ≠ nr := fun h => hword (h ▸ rfl)
    rw [Function.update_of_ne hword, if_neg hi]

/-- **What a function does to each bit of the array, and what it returns.** -/
theorem apply_bit (o : Call) (m : Bitmap w) :
    (∀ i, bit (o.fn.apply m).1 i = if i = o.nr then (o.op.spec (bit m o.nr)).1 else bit m i) ∧
      (o.fn.apply m).2 = (o.op.spec (bit m o.nr)).2 := by
  obtain ⟨op, nr⟩ := o
  have htest : Ret.int (m (bitWord w nr) &&& bitMask nr ≠ 0) = .int (bit m nr) := by
    refine congrArg Ret.int (Bool.eq_iff_iff.mpr ?_)
    rw [decide_eq_true_iff]
    exact mask_ne_zero_iff _ _
  have hor := update_bit fun j => getLsbD_or_mask (m (bitWord w nr)) nr j
  have hand := update_bit fun j => getLsbD_and_not_mask (m (bitWord w nr)) nr j
  have hxor := update_bit fun j => getLsbD_xor_mask (m (bitWord w nr)) nr j
  cases op with
  | testAndSet => exact ⟨hor, htest⟩
  | testAndClear => exact ⟨hand, htest⟩
  | testAndChange => exact ⟨hxor, htest⟩
  | set => exact ⟨hor, rfl⟩
  | clear => exact ⟨hand, rfl⟩
  | change => exact ⟨hxor, rfl⟩
  | testAndSetLock => exact ⟨hor, htest⟩
  | clearUnlock => exact ⟨hand, rfl⟩
  | clearUnlock' => exact ⟨hand, rfl⟩

end Bits

/-! ## Histories -/

section History

variable {m m' : Bitmap w} {es : List (C × Call × Ret)} {b : Nat}

/-- A sequential history of the array. -/
abbrev Sequential (m : Bitmap w) (es : List (C × Call × Ret)) (m' : Bitmap w) : Prop :=
  Legal (fun o m => (o.fn : Fn w).apply m) m es m'

/-- The calls on a bit, as calls on a register of one bit. -/
def onBit (b : Nat) (es : List (C × Call × Ret)) : List (C × Op × Ret) :=
  (es.filter fun e => e.2.1.nr = b).map fun e => (e.1, e.2.1.op, e.2.2)

/-- **The calls on a bit are a history of this bit alone.** -/
theorem sequential_bit (h : Sequential m es m') (b : Nat) :
    Legal Op.spec (bit m b) (onBit b es) (bit m' b) := by
  induction es generalizing m with
  | nil => exact congrArg (bit · b) h
  | cons e es ih =>
    obtain ⟨c, o, r⟩ := e
    obtain ⟨hr, hrest⟩ := h
    obtain ⟨hbit, hres⟩ := apply_bit o m
    have htail := ih hrest
    rw [hbit b] at htail
    by_cases hb : o.nr = b
    · rw [if_pos hb.symm, hb] at htail
      rw [hb] at hres
      simp only [onBit, List.filter_cons, hb, decide_true, if_true, List.map_cons]
      exact ⟨hres.symm.trans hr, htail⟩
    · rw [if_neg (Ne.symm hb)] at htail
      simpa only [onBit, List.filter_cons, hb, decide_false, Bool.false_eq_true, if_false]
        using htail

end History

/-! ## Runs -/

/-- A call takes effect at its only instruction. -/
def points (w : Xlen) :
    Points (routines w) fun (o : Call) m => (o.fn : Fn w).apply m where
  effect := Call.effect
  At _ _ _ := True
  at_start _ _ _ := trivial
  effect_start _ _ := rfl
  at_disturb _ _ _ _ _ := trivial
  effect_disturb _ _ := rfl
  at_exec _ _ := trivial
  effect_exec {o s l k s' l' stored} _ hs := by
    cases l with
    | none =>
      simp only [routines, Option.some.injEq, Prod.mk.injEq] at hs
      obtain ⟨rfl, rfl, -⟩ := hs
      exact .inr ⟨rfl, _, rfl, rfl⟩
    | some v => cases hs
  content_exec {o s l k s' l'} hs := by
    cases l with
    | none => simp [routines] at hs
    | some v => cases hs
  effect_back _ hr := hr

section Run

variable [DecidableEq C] {m : Bitmap w}

/-- The states of the array and its users. -/
abbrev Users (w : Xlen) (C : Type) := State (Bitmap w) (Option (Word w)) Call Ret C

/-- **Each bit is a register of its own**: along every run the calls on a bit, in the order in which
they take effect and with the results that their contexts get, are what the comments say about this
bit alone, whatever is done to the other bits of its word. -/
theorem bits_linearizable {run : List (Act Call Unit C × Users w C)}
    (hrun : IsRun (Step (routines w) Call.effect) (idle m) run) :
    Always (fun s => (∀ b, Legal Op.spec (bit m b) (onBit b s.lin) (bit s.content b)) ∧
      ∀ c, ofContext c s.lin = s.done c ++ pending Call.effect s c) (idle m) run :=
  (linearizable (points w) hrun).imp fun _ h => ⟨sequential_bit h.legal, h.done⟩

end Run

/-! ## Bit locks -/

/-- The calls that take and drop the lock `b`. -/
def takes (b : Nat) (e : Call × Ret) : Option Bool :=
  if e.1.nr = b then
    match e.1.op with
    | .testAndSetLock => if e.2 = .int false then some true else none
    | .clearUnlock => some false
    | .clearUnlock' => some false
    | _ => none
  else none

/-- After these calls of a context it has the lock. -/
def owns (b : Nat) (calls : List (Call × Ret)) : Bool := lastSet (takes b) false calls

/-- A function that drops a lock. -/
def Op.Unlocks (op : Op) : Prop := op = .clearUnlock ∨ op = .clearUnlock'

instance (op : Op) : Decidable op.Unlocks := inferInstanceAs (Decidable (_ ∨ _))

/-- The bit is used as a lock: a context tries to take it, or drops it after a call that took it. -/
def AsLock (b : Nat) (s : Users w C) : Act Call Unit C → Prop
  | .call c o _ => o.nr = b → o.op = .testAndSetLock ∨ (o.op.Unlocks ∧ owns b (s.done c) = true)
  | _ => True

instance (b : Nat) (s : Users w C) : ∀ a : Act Call Unit C, Decidable (AsLock b s a)
  | .call _ _ _ => inferInstanceAs (Decidable (_ → _))
  | .instr _ _ => .isTrue trivial
  | .ret _ => .isTrue trivial

section Locks

variable [DecidableEq C] {m : Bitmap w} {s s' : Users w C} {a : Act Call Unit C} {b : Nat}

/-- A context has the lock, from the instruction that takes it to the one that drops it. -/
def Has (b : Nat) (s : Users w C) (c : C) : Prop := owns b (ofContext c s.lin) = true

instance (b : Nat) (s : Users w C) (c : C) : Decidable (Has b s c) :=
  inferInstanceAs (Decidable (_ = _))

/-- One context at most has the lock, and the bit says whether one has. -/
structure Exclusive (b : Nat) (s : Users w C) : Prop where
  one : ∀ c c', Has b s c → Has b s c' → c = c'
  isSet : bit s.content b = true ↔ ∃ c, Has b s c
  /-- A context that is back from taking it, and not about to drop it, has it. -/
  inside : ∀ c, owns b (s.done c) = true → (∀ o l, s.busy c = some (o, l) → o.nr ≠ b) → Has b s c

structure LockInv (b : Nat) (m : Bitmap w) (s : Users w C) : Prop extends
    Linear.Inv (points w) m s where
  one : ∀ c c', Has b s c → Has b s c' → c = c'
  isSet : bit s.content b = true ↔ ∃ c, Has b s c
  asks : ∀ c o l, s.busy c = some (o, l) → o.nr = b →
    o.op = .testAndSetLock ∨ (o.op.Unlocks ∧ (l = none → Has b s c))

theorem takes_of_ne {o : Call} (h : o.nr ≠ b) (r : Ret) : takes b (o, r) = none := if_neg h

/-- The lock after one more call. -/
theorem has_snoc {s' : Users w C} {c : C} {o : Call} {r : Ret} (h : s'.lin = s.lin ++ [(c, o, r)])
    (c' : C) :
    Has b s' c' ↔ if c' = c then (takes b (o, r)).getD (owns b (ofContext c s.lin)) = true
      else Has b s c' := by
  unfold Has
  rw [h, ofContext_append]
  by_cases hc : c' = c
  · subst hc
    rw [if_pos rfl]
    have hsingle : ofContext c' [(c', o, r)] = [(o, r)] := by simp [ofContext]
    rw [hsingle, owns, lastSet_concat]
    rfl
  · have hnone : ofContext c' [(c, o, r)] = [] := by simp [ofContext, Ne.symm hc]
    rw [if_neg hc, hnone, List.append_nil]

theorem LockInv.exclusive (h : LockInv b m s) : Exclusive b s where
  one := h.one
  isSet := h.isSet
  inside c howns hidle := by
    unfold Has
    rw [h.done c, pending]
    cases hb : s.busy c with
    | none => simpa using howns
    | some e =>
      obtain ⟨o, l⟩ := e
      cases l with
      | none => simpa [points, Call.effect] using howns
      | some v =>
        show owns b (s.done c ++ [(o, _)]) = true
        rw [owns, lastSet_concat, takes_of_ne (hidle o (some v) hb)]
        exact howns

/-- The instruction of a call. -/
structure Instr (m : Bitmap w) (s s' : Users w C) (c : C) (o : Call) : Prop where
  before : s.busy c = some (o, none)
  inv : Linear.Inv (points w) m s'
  lin : s'.lin = s.lin ++ [(c, o, (o.op.spec (bit s.content o.nr)).2)]
  bit : bit s'.content b = if b = o.nr then (o.op.spec (bit s.content o.nr)).1 else bit s.content b
  busy : ∀ c', s'.busy c' = if c' = c then some (o, some (s.content (o.fn : Fn w).word)) else s.busy c'

section Instr

variable {c : C} {o : Call}

/-- A call on another bit, or one that does not take the lock. -/
theorem LockInv.other (h : LockInv b m s) (hi : Instr (b := b) m s s' c o)
    (htakes : takes b (o, (o.op.spec (bit s.content o.nr)).2) = none)
    (hsame : bit s'.content b = bit s.content b) : LockInv b m s' := by
  have hhas : ∀ c', Has b s' c' ↔ Has b s c' := by
    intro c'
    rw [has_snoc hi.lin c', htakes]
    split_ifs with hc
    · rw [hc]
      exact Iff.rfl
    · exact Iff.rfl
  refine ⟨hi.inv, fun c₁ c₂ h₁ h₂ => h.one c₁ c₂ ((hhas c₁).mp h₁) ((hhas c₂).mp h₂), ?_, ?_⟩
  · rw [hsame, h.isSet]
    exact exists_congr fun c' => (hhas c').symm
  · intro c' o' l' hb hnr
    rw [hi.busy] at hb
    split_ifs at hb with hc
    · obtain ⟨rfl, rfl⟩ := Prod.mk.inj (Option.some.inj hb)
      exact (h.asks c o none hi.before hnr).imp_right fun hu => ⟨hu.1, fun hl => by cases hl⟩
    · exact (h.asks c' o' l' hb hnr).imp_right fun hu => ⟨hu.1, fun hl => (hhas c').mpr (hu.2 hl)⟩

/-- The calls that are under way when the lock changes hands. -/
theorem LockInv.asks_instr (h : LockInv b m s) (hi : Instr (b := b) m s s' c o)
    (hothers : ∀ c', c' ≠ c → ¬ Has b s c') (c' : C) (o' : Call) (l' : Option (Word w))
    (hb : s'.busy c' = some (o', l')) (hnr : o'.nr = b) :
    o'.op = .testAndSetLock ∨ (o'.op.Unlocks ∧ (l' = none → Has b s' c')) := by
  rw [hi.busy] at hb
  split_ifs at hb with hc
  · obtain ⟨rfl, rfl⟩ := Prod.mk.inj (Option.some.inj hb)
    exact (h.asks c o none hi.before hnr).imp_right fun hu => ⟨hu.1, fun hl => by cases hl⟩
  · exact (h.asks c' o' l' hb hnr).imp_right fun hu =>
      ⟨hu.1, fun hl => absurd (hu.2 hl) (hothers c' hc)⟩

/-- `test_and_set_bit_lock` finds the bit clear. -/
theorem LockInv.take (h : LockInv b m s) (hi : Instr (b := b) m s s' c o) (hnr : o.nr = b)
    (hop : o.op = .testAndSetLock) (hclear : bit s.content b = false) : LockInv b m s' := by
  have hnone : ∀ c', ¬ Has b s c' := by
    intro c' hh
    have hset := h.isSet.mpr ⟨c', hh⟩
    rw [hclear] at hset
    cases hset
  have htakes : takes b (o, (o.op.spec (bit s.content o.nr)).2) = some true := by
    simp [takes, hop, hnr, hclear, Op.spec]
  have hhas : ∀ c', Has b s' c' ↔ c' = c := by
    intro c'
    rw [has_snoc hi.lin c', htakes]
    split_ifs with hc
    · exact iff_of_true rfl hc
    · exact iff_of_false (hnone c') hc
  refine ⟨hi.inv, fun c₁ c₂ h₁ h₂ => ((hhas c₁).mp h₁).trans ((hhas c₂).mp h₂).symm, ?_,
    h.asks_instr hi fun c' _ => hnone c'⟩
  rw [hi.bit, if_pos hnr.symm, hop]
  exact iff_of_true rfl ⟨c, (hhas c).mpr rfl⟩

/-- `clear_bit_unlock` by the holder. -/
theorem LockInv.drop (h : LockInv b m s) (hi : Instr (b := b) m s s' c o) (hnr : o.nr = b)
    (hop : o.op.Unlocks) (hholder : Has b s c) : LockInv b m s' := by
  have htakes : takes b (o, (o.op.spec (bit s.content o.nr)).2) = some false := by
    rcases hop with hop | hop <;> simp [takes, hop, hnr]
  have hnone : ∀ c', ¬ Has b s' c' := by
    intro c' hh
    rw [has_snoc hi.lin c', htakes] at hh
    split_ifs at hh with hc
    · cases hh
    · exact hc (h.one c' c hh hholder)
  refine ⟨hi.inv, fun c₁ _ h₁ => absurd h₁ (hnone c₁), ?_,
    h.asks_instr hi fun c' hc hh => hc (h.one c' c hh hholder)⟩
  have hclear : bit s'.content b = false := by
    rw [hi.bit, if_pos hnr.symm]
    rcases hop with hop | hop <;> rw [hop] <;> rfl
  rw [hclear]
  refine iff_of_false (by decide) ?_
  rintro ⟨c', hh⟩
  exact hnone c' hh

theorem LockInv.instr (h : LockInv b m s) (hi : Instr (b := b) m s s' c o) : LockInv b m s' := by
  by_cases hnr : o.nr = b
  · rcases h.asks c o none hi.before hnr with hop | ⟨hop, hholder⟩
    · cases hset : bit s.content b with
      | false => exact h.take hi hnr hop hset
      | true =>
        refine h.other hi ?_ ?_
        · simp [takes, hop, hnr, hset, Op.spec]
        · rw [hi.bit, if_pos hnr.symm, hop, hset]
          rfl
    · exact h.drop hi hnr hop (hholder rfl)
  · exact h.other hi (takes_of_ne hnr _) (by rw [hi.bit, if_neg (Ne.symm hnr)])

end Instr

/-- **The invariant is kept by every step of a run in which the bit is used as a lock.** -/
theorem LockInv.step (h : LockInv b m s) (ha : AsLock b s a)
    (hs : Step (routines w) Call.effect s a s') : LockInv b m s' := by
  have hinv : Linear.Inv (points w) m s' := h.toInv.step hs
  rcases step_cases hs with ⟨c, o, k, rfl, hc, rfl⟩ | ⟨c, ⟨o, l⟩, k, u, l', stored, hc, he, rfl⟩ |
    ⟨c, ⟨o, l⟩, r, hc, hr, rfl⟩
  · refine ⟨hinv, h.one, h.isSet, fun c' o' l' hb hnr => ?_⟩
    by_cases hcc : c' = c
    · subst hcc
      simp only [Function.update_self, Option.some.injEq, Prod.mk.injEq] at hb
      obtain ⟨rfl, rfl⟩ := hb
      refine (ha hnr).imp_right fun hu => ⟨hu.1, fun _ => ?_⟩
      have hdone := h.done c'
      rw [pending, hc] at hdone
      show owns b (ofContext c' s.lin) = true
      rw [hdone]
      simpa using hu.2
    · simp only [Function.update_of_ne hcc] at hb
      exact h.asks c' o' l' hb hnr
  · cases l with
    | some v => cases he
    | none =>
      simp only [routines, Option.some.injEq, Prod.mk.injEq] at he
      obtain ⟨rfl, rfl, rfl⟩ := he
      obtain ⟨hbit, hres⟩ := apply_bit o s.content
      refine h.instr ⟨hc, hinv, ?_, hbit b, fun c' => ?_⟩
      · show s.lin ++ [(c, o, ((o.fn : Fn w).apply s.content).2)] = _
        rw [hres]
      · show Function.update (fun c' => (s.busy c').map (disturbed (routines w))) c _ c' = _
        rw [Function.update_apply]
        refine if_congr Iff.rfl rfl ?_
        cases s.busy c' <;> rfl
  · refine ⟨hinv, h.one, h.isSet, fun c' o' l' hb hnr => ?_⟩
    by_cases hcc : c' = c
    · subst hcc
      simp only [Function.update_self] at hb
      cases hb
    · simp only [Function.update_of_ne hcc] at hb
      exact h.asks c' o' l' hb hnr

/-- **A bit is a lock**: along every run in which the bit `b` is taken by `test_and_set_bit_lock` and
dropped by contexts that have taken it, at most one context has it and the bit is set when one has,
with any calls on the other bits in between. -/
theorem bit_lock_exclusive {run : List (Act Call Unit C × Users w C)}
    (hrun : IsRun (Step (routines w) Call.effect) (idle m) run) (hclear : bit m b = false)
    (hlock : Meets (AsLock b) (idle m) run) : Always (Exclusive b) (idle m) run := by
  have hstart : LockInv b m (idle m : Users w C) := by
    refine ⟨Linear.Inv.idle m, fun c _ h => (by cases h), ?_, fun _ _ _ h => (by cases h)⟩
    show bit m b = true ↔ _
    rw [hclear]
    refine iff_of_false (by decide) ?_
    rintro ⟨c, h⟩
    cases h
  exact (hrun.meets_invariant (fun _ _ _ h ha hs => LockInv.step h ha hs) hlock hstart).imp
    fun _ h => h.exclusive

end Locks

/-- Two contexts want the lock in bit 3, and one of them sets bit 5 of the same word under it. -/
def locked : List (Act Call Unit Bool) :=
  [.call true ⟨.testAndSetLock, 3⟩ (), .call false ⟨.testAndSetLock, 3⟩ (), .instr false (),
    .ret false, .instr true (), .call false ⟨.set, 5⟩ (), .ret true, .instr false (), .ret false,
    .call false ⟨.clearUnlock, 3⟩ (), .call true ⟨.testAndSetLock, 3⟩ (), .instr false (),
    .instr true (), .ret true]

theorem bit_lock_exclusive_locked :
    let s := lastState (idle fun _ => 0)
      (trace (State.step (routines .rv64) Call.effect) (idle fun _ => 0) locked)
    Has 3 s true ∧ s.content 0 = 0x28 ∧ Exclusive 3 s :=
  ⟨by decide, by decide,
    (bit_lock_exclusive (isRun_trace (idle fun _ => 0) locked) (by decide) (by decide)).last⟩

theorem bits_linearizable_locked :
    let s := lastState (idle fun _ => 0)
      (trace (State.step (routines .rv64) Call.effect) (idle fun _ => 0) locked)
    onBit 5 s.lin = [(false, .set, .void)] ∧
      Legal Op.spec (bit (fun _ => 0 : Bitmap .rv64) 5) (onBit 5 s.lin) (bit s.content 5) :=
  ⟨by decide, (bits_linearizable (isRun_trace (idle fun _ => 0) locked)).last.1 5⟩

end LowriscLinux.Kernel.Bitops
