import LowriscLinux.Kernel.PtRegs
import LowriscLinux.Lib.Linear
import LowriscLinux.Lib.Words

/-!
# Atomic variables

Model of the operations on an `atomic_t` (`arch/riscv/include/asm/atomic.h`, lines 17-260), and of
those that `arch/riscv/include/asm/atomic64.h` has in the same form for an `atomic64_t`, by any
number of contexts, one instruction at a time.

## What models what

* `Instr`: the instructions of the `asm` statements, with `%0` and `%1` as the two registers. A
  branch `1f` leaves the function; `bnez` goes back to the first instruction.
* `Fn`: a function, its instructions and what it makes of `%0`. `atomicRead` to `atomicXor` are the
  functions under their names, each written with the ones that it calls in the source (`atomic_sub`
  is `atomic_add` with `-i`, line 58).
* `atomicCmpxchg`: lines 187-190, which is `__cmpxchg` of `asm/cmpxchg.h` (lines 51-59) on an `int`.
  `atomicAddUnless`: `__atomic_add_unless`, lines 201-215.
* `Call.spec`: what the comments of the source say that each function does, which is what the runs
  are compared with.
* `routines`: the functions as routines on one counter, by the library's `Routines`.

The counter has `n` bits and a register `x`, so that one model serves both widths and both types; an
`int` is held in a register extended by its sign. Most operations are one instruction,
`atomic_cmpxchg` and `__atomic_add_unless` are loops of load-reserved and store-conditional. A
store-conditional succeeds only if no store has hit the counter since the load; it may fail for no
reason, with any code but 0. The barriers do nothing here, as the harts take turns.

Results:
* `points`: where each operation takes effect, for any number of failed store-conditionals.
* **`atomic_linearizable`**: along every run the operations are what the comments say, one after the
  other.
* **`decAndTest_last`**: of the references that are dropped, exactly the last one is told so.

Out of scope: `atomic64_add_unless` and `atomic64_dec_if_positive` (`Kernel/Atomic64.lean`).
-/

namespace LowriscLinux.Kernel.Atomic

open Lib Lib.Linear

variable {n x : Nat}

/-! ## The routines -/

/-- The instructions. `%0` is the register of a loaded value and `%1` that of a store-conditional; a
branch leaves the loop. -/
inductive Instr (n x : Nat)
  /-- `amo… %0, v, loc` -/
  | amo (f : BitVec n → BitVec n)
  | load
  | store (v : BitVec n)
  /-- `lr %0, loc` -/
  | lr
  /-- `beq %0, v, 1f` -/
  | beq (v : BitVec x)
  /-- `bne %0, v, 1f` -/
  | bne (v : BitVec x)
  /-- `add %1, %0, v` -/
  | add (v : BitVec x)
  /-- `sc %1, v, loc`, where the source is `%1` itself or another register. -/
  | sc (src : Option (BitVec x))
  /-- `bnez %1, 0b` -/
  | bnez

/-- What a function returns. -/
inductive Ret (n : Nat)
  | void
  | int (v : BitVec n)
  | truth (b : Bool)
  deriving DecidableEq, Repr

/-- A function: its instructions, and what it makes of `%0`. -/
structure Fn (n x : Nat) where
  code : List (Instr n x)
  result : BitVec x → Ret n

def Ret.test (p : BitVec n → Bool) : Ret n → Ret n
  | int v => .truth (p v)
  | r => r

/-- A function that tests the result of another one. -/
def Fn.test (f : Fn n x) (p : BitVec n → Bool) : Fn n x where
  code := f.code
  result c := (f.result c).test p

def atomicRead : Fn n x := ⟨[.load], fun c => .int (c.setWidth n)⟩

def atomicSet (i : BitVec n) : Fn n x := ⟨[.store i], fun _ => .void⟩

def atomicAdd (i : BitVec n) : Fn n x := ⟨[.amo (· + i)], fun _ => .void⟩

def atomicSub (i : BitVec n) : Fn n x := atomicAdd (-i)

/-- `return (c + i);` -/
def atomicAddReturn (i : BitVec n) : Fn n x := ⟨[.amo (· + i)], fun c => .int (c.setWidth n + i)⟩

def atomicSubReturn (i : BitVec n) : Fn n x := atomicAddReturn (-i)

def atomicInc : Fn n x := atomicAdd 1

def atomicDec : Fn n x := atomicAdd (-1)

def atomicIncReturn : Fn n x := atomicAddReturn 1

def atomicDecReturn : Fn n x := atomicSubReturn 1

def atomicSubAndTest (i : BitVec n) : Fn n x := (atomicSubReturn i).test (· = 0)

def atomicIncAndTest : Fn n x := atomicIncReturn.test (· = 0)

def atomicDecAndTest : Fn n x := atomicDecReturn.test (· = 0)

def atomicAddNegative (i : BitVec n) : Fn n x := (atomicAddReturn i).test (·.toInt < 0)

def atomicXchg (v : BitVec n) : Fn n x := ⟨[.amo fun _ => v], fun c => .int (c.setWidth n)⟩

def atomicCmpxchg (o v : BitVec n) : Fn n x :=
  ⟨[.lr, .bne (o.signExtend x), .sc (some (v.signExtend x)), .bnez], fun c => .int (c.setWidth n)⟩

/-- `__atomic_add_unless`. -/
def atomicAddUnless (a u : BitVec n) : Fn n x :=
  ⟨[.lr, .beq (u.signExtend x), .add (a.signExtend x), .sc none, .bnez],
    fun prev => .int (prev.setWidth n)⟩

def atomicAnd (mask : BitVec n) : Fn n x := ⟨[.amo (· &&& mask)], fun _ => .void⟩

def atomicOr (mask : BitVec n) : Fn n x := ⟨[.amo (· ||| mask)], fun _ => .void⟩

def atomicXor (mask : BitVec n) : Fn n x := ⟨[.amo (· ^^^ mask)], fun _ => .void⟩

/-- A call of one of the functions. -/
inductive Call (n : Nat)
  | read
  | set (i : BitVec n)
  | add (i : BitVec n)
  | sub (i : BitVec n)
  | addReturn (i : BitVec n)
  | subReturn (i : BitVec n)
  | inc
  | dec
  | incReturn
  | decReturn
  | subAndTest (i : BitVec n)
  | incAndTest
  | decAndTest
  | addNegative (i : BitVec n)
  | xchg (v : BitVec n)
  | cmpxchg (o v : BitVec n)
  | addUnless (a u : BitVec n)
  | and (mask : BitVec n)
  | or (mask : BitVec n)
  | xor (mask : BitVec n)
  deriving DecidableEq, Repr

def Call.fn : Call n → Fn n x
  | read => atomicRead
  | set i => atomicSet i
  | add i => atomicAdd i
  | sub i => atomicSub i
  | addReturn i => atomicAddReturn i
  | subReturn i => atomicSubReturn i
  | inc => atomicInc
  | dec => atomicDec
  | incReturn => atomicIncReturn
  | decReturn => atomicDecReturn
  | subAndTest i => atomicSubAndTest i
  | incAndTest => atomicIncAndTest
  | decAndTest => atomicDecAndTest
  | addNegative i => atomicAddNegative i
  | xchg v => atomicXchg v
  | cmpxchg o v => atomicCmpxchg o v
  | addUnless a u => atomicAddUnless a u
  | and mask => atomicAnd mask
  | or mask => atomicOr mask
  | xor mask => atomicXor mask

/-! ## The machine -/

/-- The place and the registers of a call. `loaded` is bookkeeping: the counter at the last
load-reserved. -/
structure Thread (n x : Nat) where
  pc : Nat
  reserved : Bool
  /-- `%0` -/
  value : BitVec x
  /-- `%1` -/
  rc : BitVec x
  loaded : BitVec n
  deriving DecidableEq, Repr

/-- The next instruction of a function, with the code that a store-conditional leaves. -/
def Fn.exec (f : Fn n x) (v : BitVec n) (l : Thread n x) (k : BitVec x) :
    Option (BitVec n × Thread n x × Bool) :=
  match f.code[l.pc]? with
  | some (.amo g) => some (g v, { l with pc := l.pc + 1, value := v.signExtend x }, true)
  | some .load => some (v, { l with pc := l.pc + 1, value := v.signExtend x }, false)
  | some (.store u) => some (u, { l with pc := l.pc + 1 }, true)
  | some .lr =>
    some (v, { l with pc := l.pc + 1, value := v.signExtend x, reserved := true, loaded := v }, false)
  | some (.beq u) =>
    some (v, { l with pc := if l.value = u then f.code.length else l.pc + 1 }, false)
  | some (.bne u) =>
    some (v, { l with pc := if l.value ≠ u then f.code.length else l.pc + 1 }, false)
  | some (.add u) => some (v, { l with pc := l.pc + 1, rc := l.value + u }, false)
  | some (.sc src) =>
    if k = 0 then
      if l.reserved then
        some ((src.getD l.rc).setWidth n, { l with pc := l.pc + 1, reserved := false, rc := 0 }, true)
      else none
    else some (v, { l with pc := l.pc + 1, reserved := false, rc := k }, false)
  | some .bnez => some (v, { l with pc := if l.rc ≠ 0 then 0 else l.pc + 1 }, false)
  | none => none

/-- The functions as routines on the counter. The registers hold anything at a call. -/
def routines (n x : Nat) : Routines (BitVec n) (Thread n x) (Call n) (Ret n) (BitVec x) where
  start _ k := { pc := 0, reserved := false, value := k, rc := k, loaded := 0 }
  exec o := (o.fn : Fn n x).exec
  disturb l := { l with reserved := false }
  back o l := if l.pc = (o.fn : Fn n x).code.length then some ((o.fn : Fn n x).result l.value) else none

/-! ## What the functions are for -/

/-- What each function does when nothing else happens. -/
def Call.spec : Call n → BitVec n → BitVec n × Ret n
  | read, v => (v, .int v)
  | set i, _ => (i, .void)
  | add i, v => (v + i, .void)
  | sub i, v => (v - i, .void)
  | addReturn i, v => (v + i, .int (v + i))
  | subReturn i, v => (v - i, .int (v - i))
  | inc, v => (v + 1, .void)
  | dec, v => (v - 1, .void)
  | incReturn, v => (v + 1, .int (v + 1))
  | decReturn, v => (v - 1, .int (v - 1))
  | subAndTest i, v => (v - i, .truth (v - i = 0))
  | incAndTest, v => (v + 1, .truth (v + 1 = 0))
  | decAndTest, v => (v - 1, .truth (v - 1 = 0))
  | addNegative i, v => (v + i, .truth ((v + i).toInt < 0))
  | xchg u, v => (u, .int v)
  | cmpxchg o u, v => (if v = o then u else v, .int v)
  | addUnless a u, v => (if v = u then v else v + a, .int v)
  | and mask, v => (v &&& mask, .void)
  | or mask, v => (v ||| mask, .void)
  | xor mask, v => (v ^^^ mask, .void)

/-! ## Where they take effect -/

/-- A loop takes effect at the load after which it is left, or at the store that succeeds, which is
instruction `sc`. -/
def loopEffect (leaves : BitVec n → Bool) (sc : Nat) (l : Thread n x) : Option (Ret n) :=
  if l.pc = 0 then none
  else if l.pc ≤ sc then if leaves l.loaded then some (.int l.loaded) else none
  else if l.pc = sc + 1 ∧ l.rc ≠ 0 then none
  else some (.int (l.value.setWidth n))

def Call.effect : Call n → Thread n x → Option (Ret n)
  | cmpxchg o _, l => loopEffect (· ≠ o) 2 l
  | addUnless _ u, l => loopEffect (· = u) 3 l
  | o, l => if l.pc = 0 then none else some ((o.fn : Fn n x).result l.value)

/-- What holds of a loop at each instruction: from the load on `%0` is what was loaded, which is in
the counter as long as the reservation stands, and behind the branch the loop has not been left.
`ready` holds of `%1` where the store is. -/
inductive LoopAt (leaves : BitVec n → Bool) (sc : Nat) (ready : BitVec n → BitVec x → Prop)
    (v : BitVec n) (l : Thread n x) : Prop
  | load (pc : l.pc = 0)
  | inside (pos : 0 < l.pc) (le : l.pc ≤ sc) (value : l.value = l.loaded.signExtend x)
      (held : l.reserved = true → v = l.loaded) (stays : 1 < l.pc → leaves l.loaded = false)
      (ready : l.pc = sc → ready l.loaded l.rc)
  | behind (lt : sc < l.pc)

def Call.At : Call n → BitVec n → Thread n x → Prop
  | cmpxchg o _, v, l => LoopAt (· ≠ o) 2 (fun _ _ => True) v l
  | addUnless a u, v, l => LoopAt (· = u) 3 (fun w rc => rc.setWidth n = w + a) v l
  | _, _, _ => True

/-- An instruction has no effect, or the whole effect of its call. -/
def Effects (o : Call n) (v : BitVec n) (l : Thread n x) (v' : BitVec n) (l' : Thread n x) : Prop :=
  (o.effect l' = o.effect l ∧ v' = v) ∨
    (o.effect l = none ∧ ∃ r, o.effect l' = some r ∧ o.spec v = (v', r))

section Steps

variable {o : Call n} {v v' : BitVec n} {l l' : Thread n x} {k : BitVec x} {stored : Bool}

theorem LoopAt.disturb {leaves : BitVec n → Bool} {sc : Nat} {ready : BitVec n → BitVec x → Prop}
    (h : LoopAt leaves sc ready v l) (v' : BitVec n) :
    LoopAt leaves sc ready v' { l with reserved := false } := by
  cases h with
  | load pc => exact .load pc
  | inside pos le value held stays ready => exact .inside pos le value nofun stays ready
  | behind lt => exact .behind lt

theorem LoopAt.test {leaves : BitVec n → Bool} {sc pc : Nat} {ready : BitVec n → BitVec x → Prop}
    (hpc : sc < pc) : LoopAt leaves sc ready v { l with pc := if l.rc ≠ 0 then 0 else pc } := by
  by_cases hrc : l.rc = 0
  · exact .behind (by simpa [hrc] using hpc)
  · exact .load (if_pos hrc)

/-- A function of one instruction is at it, or back. -/
theorem pc_of_single {f : Fn n x} {i : Instr n x} (hcode : f.code = [i])
    (hs : f.exec v l k = some (v', l', stored)) : l.pc = 0 := by
  rcases Nat.eq_zero_or_pos l.pc with h0 | hpos
  · exact h0
  · have hnone : f.code[l.pc]? = none := by
      rw [hcode, List.getElem?_eq_none_iff]
      exact hpos
    rw [Fn.exec, hnone] at hs
    cases hs

theorem exec_amo {f : Fn n x} {g : BitVec n → BitVec n} (hcode : f.code = [.amo g])
    (hs : f.exec v l k = some (v', l', stored)) :
    l.pc = 0 ∧ v' = g v ∧ l'.pc = 1 ∧ l'.value = v.signExtend x := by
  have hpc := pc_of_single hcode hs
  rw [Fn.exec, hcode, hpc] at hs
  simp only [List.getElem?_cons_zero, Option.some.injEq, Prod.mk.injEq] at hs
  obtain ⟨rfl, rfl, -⟩ := hs
  exact ⟨hpc, rfl, rfl, rfl⟩

/-- A function whose only instruction is an atomic one takes effect there. -/
theorem amo_effects {g : BitVec n → BitVec n} (hcode : (o.fn : Fn n x).code = [.amo g])
    (heff : ∀ l : Thread n x,
      o.effect l = if l.pc = 0 then none else some ((o.fn : Fn n x).result l.value))
    (hspec : o.spec v = (g v, (o.fn : Fn n x).result (v.signExtend x)))
    (hs : (o.fn : Fn n x).exec v l k = some (v', l', stored)) : Effects o v l v' l' := by
  obtain ⟨hpc, rfl, hpc', hvalue⟩ := exec_amo hcode hs
  refine Or.inr ⟨?_, (o.fn : Fn n x).result (v.signExtend x), ?_, hspec⟩
  · rw [heff, if_pos hpc]
  · rw [heff, if_neg (by rw [hpc']; decide), hvalue]

/-- **The functions without a loop** take effect at their instruction. -/
theorem single_effects (hx : n ≤ x) (hcas : ∀ e u, o ≠ .cmpxchg e u)
    (hadd : ∀ a u, o ≠ .addUnless a u)
    (hs : (o.fn : Fn n x).exec v l k = some (v', l', stored)) : Effects o v l v' l' := by
  have hset : (v.signExtend x).setWidth n = v := setWidth_signExtend hx v
  cases o with
  | cmpxchg e u => exact absurd rfl (hcas e u)
  | addUnless a u => exact absurd rfl (hadd a u)
  | read =>
    have hpc := pc_of_single (i := .load) rfl hs
    rw [Fn.exec, show (Call.fn .read : Fn n x).code = [.load] from rfl, hpc] at hs
    simp only [List.getElem?_cons_zero, Option.some.injEq, Prod.mk.injEq] at hs
    obtain ⟨rfl, rfl, -⟩ := hs
    exact Or.inr ⟨if_pos hpc, .int v, by simp [Call.effect, Call.fn, atomicRead, hset], rfl⟩
  | set i =>
    have hpc := pc_of_single (i := .store i) rfl hs
    rw [Fn.exec, show (Call.fn (.set i) : Fn n x).code = [.store i] from rfl, hpc] at hs
    simp only [List.getElem?_cons_zero, Option.some.injEq, Prod.mk.injEq] at hs
    obtain ⟨rfl, rfl, -⟩ := hs
    exact Or.inr ⟨if_pos hpc, .void, rfl, rfl⟩
  | add i | and i | or i | xor i | inc => exact amo_effects rfl (fun _ => rfl) rfl hs
  | xchg u =>
    exact amo_effects rfl (fun _ => rfl) (by simp [Call.spec, Call.fn, atomicXchg, hset]) hs
  | sub i | dec =>
    exact amo_effects rfl (fun _ => rfl)
      (by simp [Call.spec, Call.fn, atomicSub, atomicDec, atomicAdd, BitVec.sub_eq_add_neg]) hs
  | addReturn i | incReturn | incAndTest | addNegative i =>
    exact amo_effects rfl (fun _ => rfl)
      (by simp only [Call.spec, Call.fn, atomicAddReturn, atomicIncReturn, atomicIncAndTest,
        atomicAddNegative, Fn.test, Ret.test, hset]) hs
  | subReturn i | decReturn | subAndTest i | decAndTest =>
    exact amo_effects rfl (fun _ => rfl)
      (by simp [Call.spec, Call.fn, atomicAddReturn, atomicSubReturn, atomicDecReturn,
        atomicSubAndTest, atomicDecAndTest, Fn.test, Ret.test, BitVec.sub_eq_add_neg, hset]) hs

/-- The call is of a loop that leaves the counter alone or stores `new` of it. -/
structure IsLoop (x : Nat) (o : Call n) (leaves : BitVec n → Bool) (new : BitVec n → BitVec n)
    (sc : Nat) : Prop where
  effect : ∀ l : Thread n x, o.effect l = loopEffect leaves sc l
  spec : ∀ v, o.spec v = (if leaves v then v else new v, .int v)

section Loop

variable {leaves : BitVec n → Bool} {new : BitVec n → BitVec n} {sc : Nat}

/-- The load takes effect when the loop is left after it. -/
theorem IsLoop.load (h : IsLoop x o leaves new sc) (hpc : l.pc = 0) (hsc : 1 ≤ sc)
    (hpc' : l'.pc = 1) (hloaded : l'.loaded = v) : Effects o v l v l' := by
  unfold Effects
  rw [h.effect, h.effect, h.spec]
  cases hv : leaves v with
  | true => exact Or.inr ⟨by simp [loopEffect, hpc], .int v, by simp [loopEffect, *], by simp⟩
  | false => exact Or.inl ⟨by simp [loopEffect, *], rfl⟩

theorem IsLoop.leave (hx : n ≤ x) (h : IsLoop x o leaves new sc) (pos : 0 < l.pc) (le : l.pc ≤ sc)
    (value : l.value = l.loaded.signExtend x) (hleaves : leaves l.loaded = true)
    (hpc' : l'.pc = sc + 2) (hvalue' : l'.value = l.value) : Effects o v l v l' := by
  refine Or.inl ⟨?_, rfl⟩
  have hset := setWidth_signExtend hx l.loaded
  rw [h.effect, h.effect]
  simp [loopEffect, hpc', hvalue', value, hset, le, hleaves, pos.ne']

theorem IsLoop.stay (h : IsLoop x o leaves new sc) (pos : 0 < l.pc) (lt : l.pc < sc)
    (hpc' : l'.pc = l.pc + 1) (hloaded : l'.loaded = l.loaded) : Effects o v l v l' := by
  refine Or.inl ⟨?_, rfl⟩
  rw [h.effect, h.effect]
  simp [loopEffect, hpc', hloaded, lt.le, Nat.succ_le_of_lt lt, pos.ne']

/-- The store that succeeds takes effect. -/
theorem IsLoop.store (hx : n ≤ x) (h : IsLoop x o leaves new sc) (hpc : l.pc = sc)
    (value : l.value = l.loaded.signExtend x) (hstays : leaves l.loaded = false)
    (hpc' : l'.pc = sc + 1) (hvalue' : l'.value = l.value) (hrc : l'.rc = 0) :
    Effects o l.loaded l (new l.loaded) l' := by
  have hset := setWidth_signExtend hx l.loaded
  refine Or.inr ⟨?_, .int l.loaded, ?_, ?_⟩
  · rw [h.effect]
    simp [loopEffect, hpc, hstays]
  · rw [h.effect]
    simp [loopEffect, hpc', hrc, hvalue', value, hset]
  · simp [h.spec, hstays]

theorem IsLoop.fail (h : IsLoop x o leaves new sc) (hpc : l.pc = sc)
    (hstays : leaves l.loaded = false) (hpc' : l'.pc = sc + 1) (hrc : l'.rc ≠ 0) :
    Effects o v l v l' := by
  have hrc' : ¬ l'.rc = 0#x := hrc
  refine Or.inl ⟨?_, rfl⟩
  rw [h.effect, h.effect]
  simp [loopEffect, hpc, hpc', hrc', hstays]

/-- The test behind the store. -/
theorem IsLoop.test (h : IsLoop x o leaves new sc) (hpc : l.pc = sc + 1)
    (hpc' : l'.pc = if l.rc ≠ 0 then 0 else l.pc + 1) (hvalue' : l'.value = l.value) :
    Effects o v l v l' := by
  refine Or.inl ⟨?_, rfl⟩
  rw [h.effect, h.effect]
  by_cases hrc : l.rc = 0
  · rw [if_neg (not_not.mpr hrc)] at hpc'
    have hlt : ¬ sc + 1 + 1 ≤ sc := by omega
    have hrc' : l.rc = 0#x := hrc
    simp [loopEffect, hpc', hpc, hvalue', hlt, hrc']
  · rw [if_pos hrc] at hpc'
    have hrc' : ¬ l.rc = 0#x := hrc
    simp [loopEffect, hpc', hpc, hrc']

end Loop

theorem isLoop_cmpxchg (e u : BitVec n) :
    IsLoop x (.cmpxchg e u) (· ≠ e) (fun _ => u) 2 :=
  ⟨fun _ => rfl, fun v => by by_cases h : v = e <;> simp [Call.spec, h]⟩

theorem isLoop_addUnless (a u : BitVec n) :
    IsLoop x (.addUnless a u) (· = u) (· + a) 3 :=
  ⟨fun _ => rfl, fun v => by by_cases h : v = u <;> simp [Call.spec, h]⟩

/-- Contents are compared as registers. -/
theorem signExtend_inj (hx : n ≤ x) {v w : BitVec n} : v.signExtend x = w.signExtend x ↔ v = w :=
  ⟨fun h => by rw [← setWidth_signExtend hx v, h, setWidth_signExtend hx], fun h => by rw [h]⟩

/-- The instructions of `atomic_cmpxchg`, one at a time. -/
theorem cmpxchg_exec (hx : n ≤ x) {e u : BitVec n} (h : (Call.cmpxchg e u).At v l)
    (hs : (atomicCmpxchg e u : Fn n x).exec v l k = some (v', l', stored)) :
    (Call.cmpxchg e u).At v' l' ∧ Effects (.cmpxchg e u) v l v' l' := by
  have hloop : IsLoop x (.cmpxchg e u) (· ≠ e) (fun _ => u) 2 := isLoop_cmpxchg e u
  unfold Fn.exec atomicCmpxchg at hs
  cases h with
  | load pc =>
    simp only [pc, List.getElem?_cons_zero, Option.some.injEq, Prod.mk.injEq] at hs
    obtain ⟨rfl, rfl, -⟩ := hs
    exact ⟨.inside (by simp) (by simp) rfl (fun _ => rfl) (by simp) (by simp),
      hloop.load pc (by decide) rfl rfl⟩
  | inside pos le value held stays ready =>
    obtain pc | pc : l.pc = 1 ∨ l.pc = 2 := by omega
    · simp only [pc, List.getElem?_cons_succ, List.getElem?_cons_zero, Option.some.injEq,
        Prod.mk.injEq] at hs
      obtain ⟨rfl, rfl, -⟩ := hs
      by_cases hv : l.loaded = e
      · have heq : l.value = e.signExtend x := by rw [value, hv]
        simp only [heq, ne_eq, not_true_eq_false, if_false]
        exact ⟨.inside (by simp) (by simp) (by simp [← heq, value]) held (by simp [hv]) (by simp),
          hloop.stay pos (by omega) (by simp [pc]) rfl⟩
      · have hne : l.value ≠ e.signExtend x := by
          rw [value]
          exact mt (signExtend_inj hx).mp hv
        rw [if_pos hne]
        exact ⟨.behind (by simp), hloop.leave hx pos le value (by simp [hv]) rfl rfl⟩
    · have hstays : decide (l.loaded ≠ e) = false := stays (by omega)
      simp only [pc, List.getElem?_cons_succ, List.getElem?_cons_zero] at hs
      by_cases hk : k = 0
      · rw [if_pos hk] at hs
        split_ifs at hs with hr
        obtain ⟨rfl, rfl, -⟩ := Prod.mk.inj (Option.some.inj hs)
        obtain rfl := held hr
        refine ⟨.behind (by simp), ?_⟩
        rw [Option.getD_some, setWidth_signExtend hx]
        exact hloop.store hx pc value hstays rfl rfl rfl
      · rw [if_neg hk] at hs
        obtain ⟨rfl, rfl, -⟩ := Prod.mk.inj (Option.some.inj hs)
        exact ⟨.behind (by simp), hloop.fail pc hstays rfl hk⟩
  | behind lt =>
    obtain pc | pc : l.pc = 3 ∨ 4 ≤ l.pc := by omega
    · simp only [pc, List.getElem?_cons_succ, List.getElem?_cons_zero, Option.some.injEq,
        Prod.mk.injEq] at hs
      obtain ⟨rfl, rfl, -⟩ := hs
      exact ⟨LoopAt.test (by decide), hloop.test pc (by simp [pc]) rfl⟩
    · rw [List.getElem?_eq_none_iff.mpr pc] at hs
      cases hs

/-- The instructions of `__atomic_add_unless`, one at a time. -/
theorem addUnless_exec (hx : n ≤ x) {a u : BitVec n} (h : (Call.addUnless a u).At v l)
    (hs : (atomicAddUnless a u : Fn n x).exec v l k = some (v', l', stored)) :
    (Call.addUnless a u).At v' l' ∧ Effects (.addUnless a u) v l v' l' := by
  have hloop : IsLoop x (.addUnless a u) (· = u) (· + a) 3 := isLoop_addUnless a u
  unfold Fn.exec atomicAddUnless at hs
  cases h with
  | load pc =>
    simp only [pc, List.getElem?_cons_zero, Option.some.injEq, Prod.mk.injEq] at hs
    obtain ⟨rfl, rfl, -⟩ := hs
    exact ⟨.inside (by simp) (by simp) rfl (fun _ => rfl) (by simp) (by simp),
      hloop.load pc (by decide) rfl rfl⟩
  | inside pos le value held stays ready =>
    obtain pc | pc | pc : l.pc = 1 ∨ l.pc = 2 ∨ l.pc = 3 := by omega
    · simp only [pc, List.getElem?_cons_succ, List.getElem?_cons_zero, Option.some.injEq,
        Prod.mk.injEq] at hs
      obtain ⟨rfl, rfl, -⟩ := hs
      by_cases hv : l.loaded = u
      · have heq : l.value = u.signExtend x := by rw [value, hv]
        rw [if_pos heq]
        exact ⟨.behind (by simp), hloop.leave hx pos le value (by simp [hv]) rfl rfl⟩
      · have hne : l.value ≠ u.signExtend x := by
          rw [value]
          exact mt (signExtend_inj hx).mp hv
        rw [if_neg hne]
        exact ⟨.inside (by simp) (by simp) value held (by simp [hv]) (by simp),
          hloop.stay pos (by omega) (by simp [pc]) rfl⟩
    · simp only [pc, List.getElem?_cons_succ, List.getElem?_cons_zero, Option.some.injEq,
        Prod.mk.injEq] at hs
      obtain ⟨rfl, rfl, -⟩ := hs
      have hsum : (l.value + a.signExtend x).setWidth n = l.loaded + a := by
        rw [value, BitVec.setWidth_add _ _ hx, setWidth_signExtend hx, setWidth_signExtend hx]
      exact ⟨.inside (by simp) (by simp) value held (fun _ => stays (by omega)) fun _ => hsum,
        hloop.stay pos (by omega) (by simp [pc]) rfl⟩
    · have hstays : decide (l.loaded = u) = false := stays (by omega)
      simp only [pc, List.getElem?_cons_succ, List.getElem?_cons_zero] at hs
      by_cases hk : k = 0
      · rw [if_pos hk] at hs
        split_ifs at hs with hr
        obtain ⟨rfl, rfl, -⟩ := Prod.mk.inj (Option.some.inj hs)
        obtain rfl := held hr
        refine ⟨.behind (by simp), ?_⟩
        rw [Option.getD_none, ready pc]
        exact hloop.store hx pc value hstays rfl rfl rfl
      · rw [if_neg hk] at hs
        obtain ⟨rfl, rfl, -⟩ := Prod.mk.inj (Option.some.inj hs)
        exact ⟨.behind (by simp), hloop.fail pc hstays rfl hk⟩
  | behind lt =>
    obtain pc | pc : l.pc = 4 ∨ 5 ≤ l.pc := by omega
    · simp only [pc, List.getElem?_cons_succ, List.getElem?_cons_zero, Option.some.injEq,
        Prod.mk.injEq] at hs
      obtain ⟨rfl, rfl, -⟩ := hs
      exact ⟨LoopAt.test (by decide), hloop.test pc (by simp [pc]) rfl⟩
    · rw [List.getElem?_eq_none_iff.mpr pc] at hs
      cases hs

/-- **One instruction of a call** has no effect, or the whole effect. -/
theorem call_exec (hx : n ≤ x) (h : o.At v l)
    (hs : (o.fn : Fn n x).exec v l k = some (v', l', stored)) :
    o.At v' l' ∧ Effects o v l v' l' := by
  by_cases hcas : ∃ e u, o = .cmpxchg e u
  · obtain ⟨e, u, rfl⟩ := hcas
    exact cmpxchg_exec hx h hs
  by_cases hadd : ∃ a u, o = .addUnless a u
  · obtain ⟨a, u, rfl⟩ := hadd
    exact addUnless_exec hx h hs
  simp only [not_exists] at hcas hadd
  refine ⟨?_, single_effects hx hcas hadd hs⟩
  cases o with
  | cmpxchg e u => exact absurd rfl (hcas e u)
  | addUnless a u => exact absurd rfl (hadd a u)
  | _ => trivial

/-- An instruction that does not store leaves the counter alone. -/
theorem exec_content {f : Fn n x} (hs : f.exec v l k = some (v', l', false)) : v' = v := by
  unfold Fn.exec at hs
  cases hi : f.code[l.pc]? with
  | none => simp [hi] at hs
  | some i =>
    cases i with
    | sc src =>
      simp only [hi] at hs
      by_cases hk : k = 0
      · rw [if_pos hk] at hs
        split_ifs at hs
        cases (Prod.mk.inj (Prod.mk.inj (Option.some.inj hs)).2).2
      · rw [if_neg hk] at hs
        exact (Prod.mk.inj (Option.some.inj hs)).1.symm
    | amo g | store u => simp [hi] at hs
    | _ =>
      simp only [hi] at hs
      exact (Prod.mk.inj (Option.some.inj hs)).1.symm

/-- At its end a call has taken effect. -/
theorem effect_back (hpc : l.pc = (o.fn : Fn n x).code.length) :
    o.effect l = some ((o.fn : Fn n x).result l.value) := by
  cases o with
  | cmpxchg e u =>
    have hpc : l.pc = 4 := hpc
    simp [Call.effect, loopEffect, hpc, Call.fn, atomicCmpxchg]
  | addUnless a u =>
    have hpc : l.pc = 5 := hpc
    simp [Call.effect, loopEffect, hpc, Call.fn, atomicAddUnless]
  | _ => exact if_neg (by rw [hpc]; exact Nat.one_ne_zero)

/-- **Where the operations take effect.** -/
def points (hx : n ≤ x) : Points (routines n x) Call.spec where
  effect := Call.effect
  At := Call.At
  at_start o v k := by
    cases o with
    | cmpxchg e u | addUnless a u => exact .load rfl
    | _ => trivial
  effect_start o k := by
    cases o <;> rfl
  at_disturb o v v' l h := by
    cases o with
    | cmpxchg e u | addUnless a u => exact h.disturb v'
    | _ => trivial
  effect_disturb o l := by
    cases o <;> rfl
  at_exec h hs := (call_exec hx h hs).1
  effect_exec h hs := (call_exec hx h hs).2
  content_exec hs := exec_content hs
  effect_back _ hr := by
    obtain ⟨hpc, hr⟩ := Option.ite_none_right_eq_some.mp hr
    rw [← hr]
    exact effect_back hpc

end Steps

/-! ## Runs -/

section Run

variable {C : Type} [DecidableEq C] {v : BitVec n}

/-- The states of the counter and its users. -/
abbrev Users (n x : Nat) (C : Type) := State (BitVec n) (Thread n x) (Call n) (Ret n) C

/-- **Along every run the operations do what the comments say, one after the other**: each takes
effect between its call and its return. -/
theorem atomic_linearizable (hx : n ≤ x) {run : List (Act (Call n) (BitVec x) C × Users n x C)}
    (hrun : IsRun (Step (routines n x) Call.effect) (idle v) run) :
    Always (Linearized Call.effect Call.spec v) (idle v) run ∧
      ∀ before after, run = before ++ after →
        (lastState (idle v) before).lin <+: (lastState (idle v) run).lin := by
  refine ⟨linearizable (points hx) hrun, ?_⟩
  rintro before after rfl
  obtain ⟨-, hafter⟩ := isRun_append.mp hrun
  rw [lastState_append]
  exact lin_mono hafter

omit [DecidableEq C] in
/-- A history of drops. -/
theorem legal_decAndTest {es : List (C × Call n × Ret n)} {v' : BitVec n}
    (hdrop : ∀ e ∈ es, e.2.1 = .decAndTest) (h : Legal Call.spec v es v') :
    v' = v - BitVec.ofNat n es.length ∧ ∀ (i : Nat) (e : C × Call n × Ret n),
      es[i]? = some e → e.2.2 = .truth (v - BitVec.ofNat n (i + 1) = 0) := by
  induction es generalizing v with
  | nil => exact ⟨by rw [← h]; simp, fun i e he => by simp at he⟩
  | cons e es ih =>
    obtain ⟨c, o, r⟩ := e
    obtain ⟨ho, htail⟩ := List.forall_mem_cons.mp hdrop
    obtain rfl : o = .decAndTest := ho
    obtain ⟨hr, hlegal⟩ := h
    obtain ⟨hv', hrest⟩ := ih htail hlegal
    have hsub : ∀ j, v - 1 - BitVec.ofNat n j = v - BitVec.ofNat n (j + 1) := by
      intro j
      rw [BitVec.ofNat_add, BitVec.sub_sub, BitVec.add_comm]
      rfl
    refine ⟨hv'.trans (hsub _), fun i e he => ?_⟩
    cases i with
    | zero =>
      obtain rfl := Option.some.inj he
      simpa [Call.spec] using hr.symm
    | succ i =>
      have hi := hrest i e he
      rw [show (Call.spec .decAndTest v).1 = v - 1 from rfl, hsub] at hi
      exact hi

/-- **Of the references that are dropped, exactly the last one is told so**: when `v` references are
dropped by `atomic_dec_and_test`, in any order and by any contexts, the calls return false but for
the one that leaves no reference. -/
theorem decAndTest_last (hx : n ≤ x) {run : List (Act (Call n) (BitVec x) C × Users n x C)}
    (hrun : IsRun (Step (routines n x) Call.effect) (idle v) run)
    (hdrops : Meets (fun _ a => a.Asks (· = .decAndTest)) (idle v) run)
    (hcount : (lastState (idle v) run).lin.length ≤ v.toNat) :
    let s := lastState (idle v) run
    s.content.toNat + s.lin.length = v.toNat ∧
      (∀ (i : Nat) (e : C × Call n × Ret n), s.lin[i]? = some e →
        e.2.2 = .truth (i + 1 = v.toNat)) ∧
      ∀ c, s.done c <+: ofContext c s.lin := by
  intro s
  have hlin : Linearized Call.effect Call.spec v s := (linearizable (points hx) hrun).last
  obtain ⟨hcontent, hresults⟩ := legal_decAndTest (asks_lin hrun hdrops) hlin.legal
  have hlt := v.isLt
  refine ⟨?_, fun i e he => ?_, fun c => ⟨_, (hlin.done c).symm⟩⟩
  · have hsub := toNat_sub_ofNat v (Nat.lt_of_le_of_lt hcount hlt)
    rw [if_pos hcount] at hsub
    rw [hcontent, hsub, Nat.sub_add_cancel hcount]
  · rw [hresults i e he]
    obtain ⟨hlen, -⟩ := List.getElem?_eq_some_iff.mp he
    have hi : i + 1 ≤ v.toNat := Nat.le_trans hlen hcount
    have hsub := toNat_sub_ofNat v (Nat.lt_of_le_of_lt hi hlt)
    rw [if_pos hi] at hsub
    have hiff : v - BitVec.ofNat n (i + 1) = 0 ↔ i + 1 = v.toNat := by
      rw [BitVec.toNat_eq, hsub]
      show v.toNat - (i + 1) = 0 % 2 ^ n ↔ _
      rw [Nat.zero_mod]
      omega
    rw [decide_eq_decide.mpr hiff]

end Run

/-- Two contexts drop the two references to an object; the one that is called first is told. -/
def drops : List (Act (Call 32) (BitVec 64) Bool) :=
  [.call true .decAndTest 0, .call false .decAndTest 0, .instr false 0, .ret false, .instr true 0,
    .ret true]

theorem decAndTest_last_drops :
    let s := lastState (idle 2) (trace (State.step (routines 32 64) Call.effect) (idle 2) drops)
    s.lin = [(false, .decAndTest, .truth false), (true, .decAndTest, .truth true)] ∧
      s.content.toNat + s.lin.length = 2 ∧ s.done true <+: ofContext true s.lin := by
  have h := decAndTest_last (v := 2) (n := 32) (x := 64) (by decide) (isRun_trace (idle 2) drops)
    (by decide) (by decide)
  exact ⟨by decide, h.1, h.2.2 true⟩

/-- An addition that another context's store makes a store-conditional lose, and that is made when
it is repeated. -/
def retried : List (Act (Call 32) (BitVec 64) Bool) :=
  [.call true (.addUnless 5 0) 0, .instr true 0, .instr true 0, .call false .inc 0, .instr false 0,
    .instr true 0, .instr true 1, .instr true 0, .instr true 0, .instr true 0, .instr true 0,
    .instr true 0, .instr true 0, .ret true, .ret false]

theorem atomic_linearizable_retried :
    let s := lastState (idle 1) (trace (State.step (routines 32 64) Call.effect) (idle 1) retried)
    s.content = 7 ∧ s.done true = [(.addUnless 5 0, .int 2)] ∧
      Linearized Call.effect Call.spec 1 s :=
  ⟨by decide, by decide,
    (atomic_linearizable (by decide) (isRun_trace (idle 1) retried)).1.last⟩

end LowriscLinux.Kernel.Atomic
