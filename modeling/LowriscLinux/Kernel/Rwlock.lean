import LowriscLinux.Kernel.PtRegs
import LowriscLinux.Lib.Transition
import LowriscLinux.Lib.Words
import Mathlib.Algebra.BigOperators.Group.Finset.Piecewise
import Mathlib.Algebra.Order.BigOperators.Group.Finset
import Mathlib.Data.Fintype.BigOperators

/-!
# Reader/writer locks

Model of the reader/writer locks of `arch/riscv/include/asm/spinlock.h` (lines 60-137), one
instruction at a time. The four routines that take a lock are the instruction lists of their `asm`
statements, with the labels as indices; any number of contexts run them, and the two unlocks, in any
order.

## What models what

* `Instr` and `Routine.code`: the `asm` statements of `arch_read_lock` (lines 65-69),
  `arch_write_lock` (lines 79-83), `arch_read_trylock` (lines 93-98) and `arch_write_trylock` (lines
  110-115). The last two have two labels `1:`; `1b` is the first one and `1f` the second.
* `Routine.result`: lines 102 and 119, `!busy`, on the `int` in the register.
* `exec`: one instruction. `lr.w` extends the sign, and `sc.w` leaves 0 in its register on success
  and another code on failure.
* `readUnlock` and `writeUnlock`: lines 122-137, an atomic addition of -1 and a swap with 0.
* `Step`: a context calls a routine, executes an instruction, returns, or unlocks what it holds. A
  context that holds the lock may call again.

A store-conditional succeeds only if no store has hit the word since the context's load-reserved
(`reserved`); it may also fail for no reason, with any code but 0. The number of read and write
holds of a context (`reads`, `writes`) is bookkeeping: a hold starts at the store-conditional that
succeeds and ends at the unlock.

Results:
* `Inv.step`: the invariant that every instruction keeps, for fewer than 2^31 readers.
* **`rwlock_correct`**: along every run there is at most one writer, and then no reader, the lock
  word is all ones for a writer and else the number of readers, and a trylock returns true exactly
  when it has taken the lock.
-/

namespace LowriscLinux.Kernel.Rwlock

open Lib

/-! ## The routines -/

/-- The instructions of the `asm` statements. `%0` is the lock word and `%1` the register. -/
inductive Instr
  | lrW
  | bltz (target : Nat)
  | bnez (target : Nat)
  | addi (imm : Int)
  | li (imm : Int)
  | scW
  deriving DecidableEq, Repr

/-- The routines that take a lock. -/
inductive Routine
  | readLock
  | writeLock
  | readTrylock
  | writeTrylock
  deriving DecidableEq, Repr

/-- The `asm` statements. The first label `1:` is 0, and the second one, of the trylocks, is 5. -/
def Routine.code : Routine → List Instr
  | readLock => [.lrW, .bltz 0, .addi 1, .scW, .bnez 0]
  | writeLock => [.lrW, .bnez 0, .li (-1), .scW, .bnez 0]
  | readTrylock => [.lrW, .bltz 5, .addi 1, .scW, .bnez 0]
  | writeTrylock => [.lrW, .bnez 5, .li (-1), .scW, .bnez 0]

/-- The routine takes the lock for reading. -/
def Routine.isRead : Routine → Bool
  | readLock => true
  | writeLock => false
  | readTrylock => true
  | writeTrylock => false

variable {w : Xlen}

/-- What a routine returns with the register: `!busy` for a trylock, where `busy` is an `int`. -/
def Routine.result (tmp : Word w) : Routine → Option Bool
  | readLock => none
  | writeLock => none
  | readTrylock => some (tmp.setWidth 32 == 0#32)
  | writeTrylock => some (tmp.setWidth 32 == 0#32)

/-- Where a context is: it has not called a routine yet, it is at an instruction of one, or it is
back from one. -/
inductive Loc (w : Xlen)
  | idle
  | running (r : Routine) (pc : Nat) (tmp : Word w)
  | returned (r : Routine) (value : Option Bool)
  deriving DecidableEq, Repr

/-! ## The contexts -/

variable {C : Type} [DecidableEq C]

/-- The lock word, and for every context its place, its reservation, whether its last routine has
taken the lock, and its holds. -/
structure State (w : Xlen) (C : Type) where
  lock : BitVec 32
  loc : C → Loc w
  reserved : C → Bool
  acquired : C → Bool
  reads : C → Nat
  writes : C → Nat

/-- `__ARCH_RW_LOCK_UNLOCKED`, before any routine is called. -/
def State.unlocked : State w C where
  lock := 0
  loc _ := .idle
  reserved _ := false
  acquired _ := false
  reads _ := 0
  writes _ := 0

inductive Act (w : Xlen) (C : Type)
  | call (c : C) (r : Routine) (tmp : Word w)
  /-- The next instruction of a context, with the code that a store-conditional leaves. -/
  | instr (c : C) (code : Word w)
  | readUnlock (c : C)
  | writeUnlock (c : C)

namespace State

def goto (s : State w C) (c : C) (r : Routine) (pc : Nat) (tmp : Word w) : State w C :=
  { s with loc := Function.update s.loc c (.running r pc tmp) }

/-- A store to the lock word breaks all reservations. -/
def store (s : State w C) (v : BitVec 32) : State w C :=
  { s with lock := v, reserved := fun _ => false }

/-- The context holds the lock from here on. -/
def acquire (s : State w C) (c : C) (r : Routine) : State w C :=
  if r.isRead then
    { s with
      acquired := Function.update s.acquired c true
      reads := Function.update s.reads c (s.reads c + 1) }
  else
    { s with
      acquired := Function.update s.acquired c true
      writes := Function.update s.writes c (s.writes c + 1) }

def dropRead (s : State w C) (c : C) : State w C :=
  { s with reads := Function.update s.reads c (s.reads c - 1) }

def dropWrite (s : State w C) (c : C) : State w C :=
  { s with writes := Function.update s.writes c (s.writes c - 1) }

/-- One instruction of a context. -/
def exec (s : State w C) (c : C) (code : Word w) (r : Routine) (pc : Nat) (tmp : Word w) :
    Option (State w C) :=
  match r.code[pc]? with
  | some .lrW =>
    some { s.goto c r (pc + 1) (s.lock.signExtend _) with
      reserved := Function.update s.reserved c true }
  | some (.bltz target) => some (s.goto c r (if tmp.msb then target else pc + 1) tmp)
  | some (.bnez target) => some (s.goto c r (if tmp ≠ 0 then target else pc + 1) tmp)
  | some (.addi imm) => some (s.goto c r (pc + 1) (tmp + BitVec.ofInt _ imm))
  | some (.li imm) => some (s.goto c r (pc + 1) (BitVec.ofInt _ imm))
  | some .scW =>
    if code = 0 then
      if s.reserved c then
        some (((s.store (tmp.setWidth 32)).acquire c r).goto c r (pc + 1) code)
      else none
    else
      some { s.goto c r (pc + 1) code with reserved := Function.update s.reserved c false }
  | none => some { s with loc := Function.update s.loc c (.returned r (r.result tmp)) }

/-- The context is in no routine. -/
def outside (s : State w C) (c : C) : Bool :=
  match s.loc c with
  | .running _ _ _ => false
  | _ => true

/-- `arch_read_unlock`: `amoadd.w.rl x0, %1, %0` with -1. -/
def readUnlock (s : State w C) (c : C) : State w C :=
  (s.store (s.lock + BitVec.ofInt 32 (-1))).dropRead c

/-- `arch_write_unlock`: `amoswap.w.rl x0, x0, %0`. -/
def writeUnlock (s : State w C) (c : C) : State w C := (s.store 0).dropWrite c

def step (s : State w C) : Act w C → Option (State w C)
  | .call c r tmp =>
    if s.outside c then
      some { s.goto c r 0 tmp with acquired := Function.update s.acquired c false }
    else none
  | .instr c code =>
    match s.loc c with
    | .running r pc tmp => s.exec c code r pc tmp
    | _ => none
  | .readUnlock c => if s.outside c ∧ 0 < s.reads c then some (s.readUnlock c) else none
  | .writeUnlock c => if s.outside c ∧ 0 < s.writes c then some (s.writeUnlock c) else none

/-- The number of read holds. -/
def readers [Fintype C] (s : State w C) : Nat := ∑ c, s.reads c

/-- The number of write holds. -/
def writers [Fintype C] (s : State w C) : Nat := ∑ c, s.writes c

end State

/-- One step of a run. -/
def Step (s : State w C) (a : Act w C) (s' : State w C) : Prop := s.step a = some s'

/-- What the lock promises in a state. -/
structure Correct [Fintype C] (s : State w C) : Prop where
  /-- A writer is alone. -/
  exclusive : ∀ c, 0 < s.writes c →
    s.writes c = 1 ∧ (∀ c', c' ≠ c → s.writes c' = 0) ∧ ∀ c', s.reads c' = 0
  word_writer : ∀ c, 0 < s.writes c → s.lock = BitVec.allOnes 32
  word_readers : (∀ c, s.writes c = 0) → s.lock.toNat = s.readers
  /-- A trylock returns true exactly when it has taken the lock. -/
  trylock : ∀ c r value, s.loc c = .returned r (some value) →
    (value = true ↔ s.acquired c = true)
  /-- A lock routine only returns with the lock taken. -/
  lock : ∀ c r, s.loc c = .returned r none → s.acquired c = true

/-! ## The register and the lock word -/

/-- `bltz` of a loaded word tests its own sign bit. -/
theorem msb_signExtend (v : BitVec 32) : (v.signExtend (8 * szreg w)).msb = v.msb := by
  cases w
  · exact congrArg BitVec.msb (BitVec.signExtend_eq v)
  · exact BitVec.msb_signExtend.trans (by simp [szreg])

theorem signExtend_eq_zero_iff (v : BitVec 32) : v.signExtend (8 * szreg w) = 0 ↔ v = 0 := by
  constructor
  · intro h
    rw [← setWidth_signExtend (le_xlen w) v, h]
    simp
  · rintro rfl
    cases w <;> rfl

/-- The word that a read routine stores. -/
theorem setWidth_addi (v : BitVec 32) :
    (v.signExtend (8 * szreg w) + BitVec.ofInt _ 1).setWidth 32 = v + 1 := by
  rw [BitVec.setWidth_add _ _ (le_xlen w), setWidth_signExtend (le_xlen w)]
  congr 1
  cases w <;> rfl

/-- The word that a write routine stores. -/
theorem setWidth_li : (BitVec.ofInt (8 * szreg w) (-1)).setWidth 32 = BitVec.allOnes 32 := by
  cases w <;> rfl

/-! ## The invariant -/

/-- The lock word may be taken by the routine. -/
def Free (r : Routine) (lock : BitVec 32) : Prop :=
  if r.isRead then lock.msb = false else lock = 0

instance (r : Routine) (lock : BitVec 32) : Decidable (Free r lock) :=
  inferInstanceAs (Decidable (if r.isRead then lock.msb = false else lock = 0))

/-- The lock word once the routine has taken it. -/
def taken (r : Routine) (lock : BitVec 32) : BitVec 32 :=
  if r.isRead then lock + 1 else BitVec.allOnes 32

/-- The result agrees with what happened. -/
def Agrees (acquired : Bool) : Option Bool → Prop
  | none => acquired = true
  | some value => value = true ↔ acquired = true

/-- What holds of a context at each instruction. The register speaks about the lock word only as
long as the reservation stands. -/
def AtPc (lock : BitVec 32) (reserved acquired : Bool) (r : Routine) (tmp : Word w) : Nat → Prop
  | 0 => acquired = false
  | 1 => acquired = false ∧ ∃ v : BitVec 32, tmp = v.signExtend _ ∧ (reserved = true → v = lock)
  | 2 => acquired = false ∧ (reserved = true → tmp = lock.signExtend _ ∧ Free r lock)
  | 3 => acquired = false ∧ (reserved = true → tmp.setWidth 32 = taken r lock ∧ Free r lock)
  | 4 => tmp = 0 ↔ acquired = true
  | 5 => Agrees acquired (r.result tmp)
  | _ => False

def AtLoc (lock : BitVec 32) (reserved acquired : Bool) : Loc w → Prop
  | .idle => True
  | .running r pc tmp => AtPc lock reserved acquired r tmp pc
  | .returned _ value => Agrees acquired value

/-- What holds of the lock word and the numbers of holds. -/
def WordInv (lock : BitVec 32) (readers writers : Nat) : Prop :=
  (writers = 0 ∧ lock = BitVec.ofNat 32 readers) ∨
    (writers = 1 ∧ readers = 0 ∧ lock = BitVec.allOnes 32)

structure Inv [Fintype C] (s : State w C) : Prop where
  word : WordInv s.lock s.readers s.writers
  loc : ∀ c, AtLoc s.lock (s.reserved c) (s.acquired c) (s.loc c)

section Context

variable {lock lock' : BitVec 32} {reserved acquired : Bool} {r : Routine} {pc : Nat}
  {tmp : Word w} {l : Loc w}

/-- Without a reservation a context depends on no lock word. -/
theorem AtLoc.unreserve (h : AtLoc lock reserved acquired l) :
    AtLoc lock' false acquired l := by
  cases l with
  | idle => trivial
  | returned r value => exact h
  | running r pc tmp =>
    match pc, h with
    | 0, h => exact h
    | 1, ⟨hacq, v, htmp, _⟩ => exact ⟨hacq, v, htmp, nofun⟩
    | 2, ⟨hacq, _⟩ => exact ⟨hacq, nofun⟩
    | 3, ⟨hacq, _⟩ => exact ⟨hacq, nofun⟩
    | 4, h => exact h
    | 5, h => exact h

/-- The state in which a context has moved on by itself. -/
def State.moveOn (s : State w C) (c : C) (l : Loc w) (reserved : Bool) : State w C :=
  { s with
    loc := Function.update s.loc c l
    reserved := Function.update s.reserved c reserved }

theorem State.goto_eq_moveOn (s : State w C) (c : C) (r : Routine) (pc : Nat) (tmp : Word w) :
    s.goto c r pc tmp = s.moveOn c (.running r pc tmp) (s.reserved c) := by
  rw [moveOn, Function.update_eq_self, goto]

/-- Where a routine goes on when it finds the lock taken: back, or to its end. -/
def Routine.busyTarget : Routine → Nat
  | readLock => 0
  | writeLock => 0
  | readTrylock => 5
  | writeTrylock => 5

/-- The branch after the load tests whether the routine may take the loaded word. -/
theorem State.exec_branch (s : State w C) (c : C) (code : Word w) (r : Routine) (v : BitVec 32) :
    (Free r v → s.exec c code r 1 (v.signExtend _) = some (s.goto c r 2 (v.signExtend _))) ∧
      (¬ Free r v →
        s.exec c code r 1 (v.signExtend _) = some (s.goto c r r.busyTarget (v.signExtend _))) := by
  have hzero := signExtend_eq_zero_iff (w := w) v
  cases r with
  | readLock | readTrylock =>
    simp only [Free, Routine.isRead, exec, Routine.code, List.getElem?_cons_succ,
      List.getElem?_cons_zero, msb_signExtend, if_true]
    exact ⟨fun h => by rw [h]; rfl, fun h => by rw [(Bool.not_eq_false v.msb).mp h]; rfl⟩
  | writeLock | writeTrylock =>
    simp only [Free, Routine.isRead, exec, Routine.code, List.getElem?_cons_succ,
      List.getElem?_cons_zero, Bool.false_eq_true, if_false]
    exact ⟨fun h => by rw [if_neg (not_not.mpr (hzero.mpr h))],
      fun h => by rw [if_pos (mt hzero.mp h)]; rfl⟩

theorem atPc_busy {v : BitVec 32} (hbusy : ¬ Free r v) :
    AtPc lock reserved false r (v.signExtend (8 * szreg w)) r.busyTarget := by
  have hv : v ≠ 0#32 := by
    rintro rfl
    exact hbusy (by cases r <;> rfl)
  cases r with
  | readLock => rfl
  | writeLock => rfl
  | readTrylock => simp [Routine.busyTarget, AtPc, Agrees, Routine.result,
      setWidth_signExtend (le_xlen w), hv]
  | writeTrylock => simp [Routine.busyTarget, AtPc, Agrees, Routine.result,
      setWidth_signExtend (le_xlen w), hv]

/-- The instruction between the branch and the store-conditional makes the word to store. -/
theorem State.exec_make (s : State w C) (c : C) (code tmp : Word w) (r : Routine) :
    ∃ tmp', s.exec c code r 2 tmp = some (s.goto c r 3 tmp') ∧
      (tmp = s.lock.signExtend _ → tmp'.setWidth 32 = taken r s.lock) := by
  cases r with
  | readLock | readTrylock => exact ⟨_, rfl, fun h => by rw [h, setWidth_addi]; rfl⟩
  | writeLock | writeTrylock => exact ⟨_, rfl, fun _ => setWidth_li⟩

/-- **What one instruction does**: it moves its context on, or takes the lock word that its
reservation speaks about. -/
theorem State.exec_cases {s s' : State w C} {c : C} {code : Word w}
    (hat : AtPc s.lock (s.reserved c) (s.acquired c) r tmp pc)
    (h : s.exec c code r pc tmp = some s') :
    (∃ l reserved, s' = s.moveOn c l reserved ∧ AtLoc s.lock reserved (s.acquired c) l) ∨
      (s.reserved c = true ∧ Free r s.lock ∧
        s' = ((s.store (taken r s.lock)).acquire c r).goto c r 4 0) := by
  match pc, hat with
  | 0, hat =>
    left
    have hcode : r.code[0]? = some .lrW := by cases r <;> rfl
    simp only [exec, hcode, Option.some.injEq] at h
    exact ⟨_, true, h.symm, hat, s.lock, rfl, fun _ => rfl⟩
  | 1, ⟨hacq, v, htmp, hres⟩ =>
    left
    subst htmp
    by_cases hfree : Free r v
    · rw [(exec_branch s c code r v).1 hfree, Option.some.injEq] at h
      exact ⟨_, _, h.symm.trans (goto_eq_moveOn ..), hacq, fun hr => hres hr ▸ ⟨rfl, hfree⟩⟩
    · rw [(exec_branch s c code r v).2 hfree, Option.some.injEq] at h
      refine ⟨_, _, h.symm.trans (goto_eq_moveOn ..), ?_⟩
      rw [hacq]
      exact atPc_busy hfree
  | 2, ⟨hacq, hres⟩ =>
    left
    obtain ⟨tmp', hexec, hmake⟩ := exec_make s c code tmp r
    rw [hexec, Option.some.injEq] at h
    refine ⟨_, _, h.symm.trans (goto_eq_moveOn ..), hacq, fun hr => ?_⟩
    obtain ⟨htmp, hfree⟩ := hres hr
    exact ⟨hmake htmp, hfree⟩
  | 3, ⟨hacq, hres⟩ =>
    have hcode : r.code[3]? = some .scW := by cases r <;> rfl
    simp only [exec, hcode] at h
    by_cases hzero : code = 0
    · -- The store-conditional succeeds, which takes a reservation.
      subst hzero
      by_cases hr : s.reserved c = true
      · right
        obtain ⟨hword, hfree⟩ := hres hr
        rw [if_pos rfl, if_pos hr, hword, Option.some.injEq] at h
        exact ⟨hr, hfree, h.symm⟩
      · rw [if_pos rfl, if_neg hr] at h
        cases h
    · left
      rw [if_neg hzero, Option.some.injEq] at h
      exact ⟨.running r 4 code, false, h.symm, iff_of_false hzero (by simp [hacq])⟩
  | 4, hat =>
    left
    have hcode : r.code[4]? = some (.bnez 0) := by cases r <;> rfl
    simp only [exec, hcode, Option.some.injEq] at h
    refine ⟨_, _, h.symm.trans (goto_eq_moveOn ..), ?_⟩
    have hiff : tmp = 0 ↔ s.acquired c = true := hat
    by_cases hzero : tmp = 0
    · have hacq := hiff.mp hzero
      subst hzero
      rw [if_neg (by simp)]
      cases r <;> simp [AtLoc, AtPc, Agrees, Routine.result, hacq]
    · rw [if_pos hzero]
      exact Bool.eq_false_iff.mpr (mt hiff.mpr hzero)
  | 5, hat =>
    left
    have hcode : r.code[5]? = none := by cases r <;> rfl
    simp only [exec, hcode, Option.some.injEq] at h
    refine ⟨.returned r (r.result tmp), s.reserved c, ?_, hat⟩
    rw [← h, moveOn, Function.update_eq_self]

end Context

/-! ## The lock word and the holds -/

section Word

variable {lock : BitVec 32} {readers writers : Nat} {r : Routine}

/-- A routine may only take the lock word when there is no writer, and to write when there is no
reader either. -/
theorem WordInv.of_free (h : WordInv lock readers writers) (hbound : readers < 2 ^ 31)
    (hfree : Free r lock) :
    writers = 0 ∧ lock = BitVec.ofNat 32 readers ∧ (r.isRead = false → readers = 0) := by
  rcases h with ⟨hw, hlock⟩ | ⟨-, -, hlock⟩
  · refine ⟨hw, hlock, fun hr => ?_⟩
    have hzero : lock = 0 := by simpa [Free, hr] using hfree
    have hnat := congrArg BitVec.toNat (hlock.symm.trans hzero)
    rw [BitVec.toNat_ofNat, Nat.mod_eq_of_lt (by omega)] at hnat
    simpa using hnat
  · exfalso
    subst hlock
    cases r <;> exact absurd hfree (by decide)

/-- The word that a routine stores goes with the hold it gains. -/
theorem WordInv.taken (h : WordInv lock readers writers) (hbound : readers < 2 ^ 31)
    (hfree : Free r lock) :
    WordInv (taken r lock) (if r.isRead then readers + 1 else readers)
      (if r.isRead then writers else writers + 1) := by
  obtain ⟨hw, hlock, hr0⟩ := h.of_free hbound hfree
  unfold Rwlock.taken
  cases hr : r.isRead with
  | true => exact Or.inl ⟨hw, by rw [hlock]; exact BitVec.ofNat_add_ofNat readers 1⟩
  | false => exact Or.inr ⟨by rw [hw]; rfl, hr0 hr, rfl⟩

/-- `arch_read_unlock` on the word. -/
theorem WordInv.readUnlock (h : WordInv lock (readers + 1) writers) :
    WordInv (lock + BitVec.ofInt 32 (-1)) readers writers := by
  rcases h with ⟨hw, hlock⟩ | ⟨-, hr, -⟩
  · refine Or.inl ⟨hw, ?_⟩
    rw [hlock, BitVec.ofNat_add, BitVec.add_assoc]
    exact BitVec.add_zero _
  · cases hr

/-- `arch_write_unlock` on the word. -/
theorem WordInv.writeUnlock (h : WordInv lock readers (writers + 1)) : WordInv 0 readers writers := by
  rcases h with ⟨hw, -⟩ | ⟨hw, hr, -⟩
  · cases hw
  · exact Or.inl ⟨Nat.succ.inj hw, by rw [hr]; rfl⟩

end Word

section Holds

variable [Fintype C]

theorem sum_update (f : C → Nat) (c : C) (v : Nat) :
    ∑ c', Function.update f c v c' + f c = ∑ c', f c' + v := by
  rw [Finset.sum_update_of_mem (Finset.mem_univ c), ← Finset.add_sum_erase _ f (Finset.mem_univ c),
    Finset.sdiff_singleton_eq_erase]
  omega

theorem sum_update_succ (f : C → Nat) (c : C) :
    ∑ c', Function.update f c (f c + 1) c' = ∑ c', f c' + 1 := by
  have h := sum_update f c (f c + 1)
  omega

theorem sum_update_pred {f : C → Nat} {c : C} (hpos : 0 < f c) :
    ∑ c', f c' = ∑ c', Function.update f c (f c - 1) c' + 1 := by
  have h := sum_update f c (f c - 1)
  omega

omit [DecidableEq C] in
theorem le_sum (f : C → Nat) (c : C) : f c ≤ ∑ c', f c' :=
  Finset.single_le_sum_of_canonicallyOrdered (Finset.mem_univ c)

theorem State.readers_acquire (s : State w C) (c : C) (r : Routine) :
    (s.acquire c r).readers = if r.isRead then s.readers + 1 else s.readers := by
  unfold acquire readers
  cases r.isRead
  · rfl
  · exact sum_update_succ s.reads c

theorem State.writers_acquire (s : State w C) (c : C) (r : Routine) :
    (s.acquire c r).writers = if r.isRead then s.writers else s.writers + 1 := by
  unfold acquire writers
  cases r.isRead
  · exact sum_update_succ s.writes c
  · rfl

end Holds

/-! ## Runs -/

section Run

variable [Fintype C] {s s' : State w C} {a : Act w C}

omit [DecidableEq C] in
theorem Inv.unlocked : Inv (State.unlocked : State w C) := by
  refine ⟨Or.inl ⟨?_, ?_⟩, fun _ => trivial⟩
  · simp [State.writers, State.unlocked]
  · simp [State.readers, State.unlocked]

/-- A context that moves on by itself. -/
theorem Inv.moveOn (h : Inv s) {c : C} {l : Loc w} {reserved : Bool}
    (hl : AtLoc s.lock reserved (s.acquired c) l) : Inv (s.moveOn c l reserved) := by
  refine ⟨h.word, fun c' => ?_⟩
  unfold State.moveOn
  dsimp only
  by_cases hc : c' = c
  · subst hc
    rw [Function.update_self, Function.update_self]
    exact hl
  · rw [Function.update_of_ne hc, Function.update_of_ne hc]
    exact h.loc c'

omit [DecidableEq C] in
/-- A store to the lock word leaves no context with a reservation. -/
theorem AtLoc.store (h : Inv s) (v : BitVec 32) (c : C) :
    AtLoc v false (s.acquired c) (s.loc c) := (h.loc c).unreserve

theorem Inv.dropRead (h : Inv s) {c : C} (hpos : 0 < s.reads c) {v : BitVec 32}
    (hword : ∀ readers, WordInv s.lock (readers + 1) s.writers → WordInv v readers s.writers) :
    Inv ((s.store v).dropRead c) := by
  have hreaders : s.readers = ((s.store v).dropRead c).readers + 1 := sum_update_pred hpos
  exact ⟨hword _ (hreaders ▸ h.word), AtLoc.store h v⟩

theorem Inv.dropWrite (h : Inv s) {c : C} (hpos : 0 < s.writes c) {v : BitVec 32}
    (hword : ∀ writers, WordInv s.lock s.readers (writers + 1) → WordInv v s.readers writers) :
    Inv ((s.store v).dropWrite c) := by
  have hwriters : s.writers = ((s.store v).dropWrite c).writers + 1 := sum_update_pred hpos
  exact ⟨hword _ (hwriters ▸ h.word), AtLoc.store h v⟩

/-- A context takes the lock. -/
theorem Inv.acquire (h : Inv s) (hbound : s.readers < 2 ^ 31) {c : C} {r : Routine}
    (hfree : Free r s.lock) : Inv (((s.store (taken r s.lock)).acquire c r).goto c r 4 0) := by
  have hacq : ((s.store (taken r s.lock)).acquire c r).acquired =
      Function.update s.acquired c true := by
    unfold State.acquire
    split <;> rfl
  have hother : ((s.store (taken r s.lock)).acquire c r).loc = s.loc ∧
      ((s.store (taken r s.lock)).acquire c r).lock = taken r s.lock ∧
      ((s.store (taken r s.lock)).acquire c r).reserved = fun _ => false := by
    unfold State.acquire
    split <;> exact ⟨rfl, rfl, rfl⟩
  obtain ⟨hloc, hlock, hres⟩ := hother
  constructor
  · show WordInv ((s.store (taken r s.lock)).acquire c r).lock
      ((s.store (taken r s.lock)).acquire c r).readers
      ((s.store (taken r s.lock)).acquire c r).writers
    rw [hlock, State.readers_acquire, State.writers_acquire]
    exact h.word.taken hbound hfree
  · intro c'
    unfold State.goto
    dsimp only
    rw [hacq, hloc, hres]
    by_cases hc : c' = c
    · subst hc
      rw [Function.update_self, Function.update_self]
      exact iff_of_true rfl rfl
    · rw [Function.update_of_ne hc, Function.update_of_ne hc]
      exact (h.loc c').unreserve

/-- **Every step keeps the invariant**, as long as there are fewer than 2^31 readers. -/
theorem Inv.step (h : Inv s) (hbound : s.readers < 2 ^ 31) (hstep : Step s a s') : Inv s' := by
  unfold Step State.step at hstep
  cases a with
  | call c r tmp =>
    dsimp only at hstep
    split at hstep
    · obtain rfl := Option.some.inj hstep
      refine ⟨h.word, fun c' => ?_⟩
      unfold State.goto
      dsimp only
      by_cases hc : c' = c
      · subst hc
        rw [Function.update_self, Function.update_self]
        exact rfl
      · rw [Function.update_of_ne hc, Function.update_of_ne hc]
        exact h.loc c'
    · cases hstep
  | instr c code =>
    have hat := h.loc c
    cases hl : s.loc c with
    | idle => simp [hl] at hstep
    | returned r value => simp [hl] at hstep
    | running r pc tmp =>
      simp only [hl] at hstep hat
      rcases State.exec_cases hat hstep with ⟨l, reserved, rfl, hl'⟩ | ⟨-, hfree, rfl⟩
      · exact h.moveOn hl'
      · exact h.acquire hbound hfree
  | readUnlock c =>
    dsimp only at hstep
    split at hstep
    · next hpos =>
      obtain rfl := Option.some.inj hstep
      exact h.dropRead hpos.2 fun _ => WordInv.readUnlock
    · cases hstep
  | writeUnlock c =>
    dsimp only at hstep
    split at hstep
    · next hpos =>
      obtain rfl := Option.some.inj hstep
      exact h.dropWrite hpos.2 fun _ => WordInv.writeUnlock
    · cases hstep

/-- What the invariant says about the holders. -/
theorem Inv.correct (h : Inv s) (hbound : s.readers < 2 ^ 31) : Correct s := by
  have hloc : ∀ c r value, s.loc c = .returned r value → Agrees (s.acquired c) value := by
    intro c r value hl
    have hat := h.loc c
    rw [hl] at hat
    exact hat
  have hwriter : ∀ c, 0 < s.writes c →
      s.writers = 1 ∧ s.readers = 0 ∧ s.lock = BitVec.allOnes 32 := by
    intro c hpos
    have hle := le_sum s.writes c
    rcases h.word with ⟨hw, -⟩ | hw
    · unfold State.writers at hw
      omega
    · exact hw
  refine ⟨fun c hpos => ?_, fun c hpos => (hwriter c hpos).2.2, fun hnone => ?_,
    fun c r value hl => hloc c r _ hl, fun c r hl => hloc c r _ hl⟩
  · obtain ⟨hw, hr, -⟩ := hwriter c hpos
    have hone : s.writes c = 1 := by
      have hle := le_sum s.writes c
      unfold State.writers at hw
      omega
    refine ⟨hone, fun c' hc => ?_, fun c' => ?_⟩
    · have hrest := Finset.add_sum_erase Finset.univ s.writes (Finset.mem_univ c)
      have hle : s.writes c' ≤ ∑ x ∈ Finset.univ.erase c, s.writes x :=
        Finset.single_le_sum_of_canonicallyOrdered
          (Finset.mem_erase.mpr ⟨hc, Finset.mem_univ c'⟩)
      unfold State.writers at hw
      omega
    · have hle := le_sum s.reads c'
      unfold State.readers at hr
      omega
  · rcases h.word with ⟨-, hlock⟩ | ⟨hw, -⟩
    · rw [hlock, BitVec.toNat_ofNat, Nat.mod_eq_of_lt (by omega)]
    · have hzero : s.writers = 0 := Finset.sum_eq_zero fun c _ => hnone c
      omega

/-- **Along every run with fewer than 2^31 readers the lock is correct in every state.** -/
theorem rwlock_correct {run : List (Act w C × State w C)} (hrun : IsRun Step .unlocked run)
    (hbound : Always (fun s => s.readers < 2 ^ 31) .unlocked run) :
    Always Correct .unlocked run := by
  have hinv := hrun.meets_invariant (fun s a s' h hb hs => Inv.step h hb hs) hbound.meets
    Inv.unlocked
  exact ⟨hinv.1.correct hbound.1, fun e he => (hinv.2 e he).correct (hbound.2 e he)⟩

end Run

/-- A reader comes and goes while a writer tries the lock: the first store-conditional of the
writer loses its reservation, and it gives up. Its next try takes the lock, and then the reader's
fails. -/
def contended : List (Act .rv64 Bool) :=
  [.call true .writeTrylock 0, .instr true 0, .instr true 0, .instr true 0, .call false .readLock 0,
    .instr false 0, .instr false 0, .instr false 0, .instr false 0, .instr true 1, .instr true 0,
    .instr true 0, .instr true 0, .instr true 0, .instr false 0, .instr false 0, .readUnlock false,
    .call true .writeTrylock 0, .instr true 0, .instr true 0, .instr true 0, .instr true 0,
    .instr true 0, .instr true 0, .call false .readTrylock 0, .instr false 0, .instr false 0,
    .instr false 0, .writeUnlock true]

theorem rwlock_correct_contended :
    let run := trace State.step .unlocked contended
    run.length = contended.length ∧
    (run.map fun e => e.2.lock).destutter (· ≠ ·) = [0, 1, 0, BitVec.allOnes 32, 0] ∧
    (run.map fun e => e.2.loc true).contains (.returned .writeTrylock (some false)) ∧
    (lastState .unlocked run).loc true = .returned .writeTrylock (some true) ∧
    (lastState .unlocked run).loc false = .returned .readTrylock (some false) ∧
    Always Correct .unlocked run :=
  ⟨rfl, by decide +kernel, by decide +kernel, rfl, rfl,
    rwlock_correct (isRun_trace _ _) ⟨by decide, by decide +kernel⟩⟩

end LowriscLinux.Kernel.Rwlock
