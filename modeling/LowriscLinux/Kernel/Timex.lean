import LowriscLinux.Kernel.PtRegs
import LowriscLinux.Lib.Halting
import LowriscLinux.Lib.Words
import Mathlib.Order.Monotone.Basic

/-!
# Time and timer deadlines

Model of `get_cycles` (`arch/riscv/include/asm/timex.h`, lines 8-29) and of
`riscv_timer_set_next_event` (`arch/riscv/kernel/time.c`, lines 16-21). The time counter has 64 bits
and counts on while it is read.

On RV32 `get_cycles` reads its halves one after the other, until the upper half is the same before
and after the lower one, and puts them together (line 27), but it returns a `cycles_t`, which is an
`unsigned long` (line 8). The sum with `delta` (line 19 of `time.c`) is then one of 32 bits.

## What models what

* `counter`, `stime` and `stimeh`: the counter at a time, and the registers that read it.
* `Clock`: the times of the reads, one after the other. They may be equal. One of its fields says
  that from a read to the second one behind it the upper half makes no full turn: 2^64 ticks do not
  pass.
* `iteration`: one round of the loop at label `1` (lines 21-25), three reads. `getCycles` runs it
  with at most `fuel` rounds on RV32; on RV64 it is one read (lines 14-17).
* `Halves.time`: line 27.
* `riscvTimerSetNextEvent`: the argument of `sbi_set_timer`, which has 64 bits on both widths
  (`arch/riscv/include/asm/sbi.h`).
* `Deadline` says what the argument should be: `delta` ticks behind a time that the counter has had
  during the call.

Results:
* `halves_eq`: the loop on RV32 ends with the halves of one time.
* `getCycles_eq`: what is returned is the time of one read, up to the bits of a register.
* `fitsLow_iff`: a short call has one time with the lower half that was read.
* **`timer_deadline_iff`**: when a deadline is the 64-bit one.
-/

namespace LowriscLinux.Kernel.Timex

open Lib

variable {w : Xlen}

/-! ## The counter -/

/-- The time counter after so many ticks. -/
def counter (t : Nat) : BitVec 64 := BitVec.ofNat 64 t

/-- `stime`: on RV32 it is the lower half of the counter. -/
def stime (w : Xlen) (t : Nat) : Word w := (counter t).setWidth _

/-- `stimeh`. -/
def stimeh (t : Nat) : BitVec 32 := (counter t >>> 32).setWidth 32

/-- The instants at which the registers of the counter are read, one after the other. From a read to
the second one behind it the upper half makes no full turn. -/
structure Clock where
  time : Nat → Nat
  mono : Monotone time
  noTurn : ∀ n, time (n + 2) / 2 ^ 32 < time n / 2 ^ 32 + 2 ^ 32

/-! ## Reading it -/

/-- The registers of the loop on RV32 at its end, with the number of reads so far. -/
structure Halves where
  hi : BitVec 32
  lo : Word .rv32
  reads : Nat

/-- `((u64)hi << 32) | lo`. -/
def Halves.time (h : Halves) : BitVec 64 := (h.hi.setWidth 64 <<< 32) ||| h.lo.setWidth 64

/-- One iteration of the loop at label `1`, after `n` reads. -/
def iteration (clock : Clock) (n : Nat) : Nat ⊕ Halves :=
  let hi := stimeh (clock.time n)
  let lo := stime .rv32 (clock.time (n + 1))
  let tmp := stimeh (clock.time (n + 2))
  if hi ≠ tmp then .inl (n + 3) else .inr ⟨hi, lo, n + 3⟩

/-- `get_cycles`, with at most `fuel` iterations: what it returns, and the number of reads. -/
def getCycles (w : Xlen) (clock : Clock) (fuel : Nat) : Option (Word w × Nat) :=
  match w with
  | .rv64 => some (stime .rv64 (clock.time 0), 1)
  | .rv32 =>
    (runFor (iteration clock) fuel 0).map fun h => (h.time.setWidth _, h.reads)

/-- `riscv_timer_set_next_event`: the argument of `sbi_set_timer`. -/
def riscvTimerSetNextEvent (w : Xlen) (clock : Clock) (fuel : Nat) (delta : Word w) :
    Option (BitVec 64) :=
  (getCycles w clock fuel).map fun (cycles, _) => (cycles + delta).setWidth 64

/-! ## The read that counts -/

/-- Iteration `k` is the last one: the first whose two reads of `stimeh` agree. -/
def EndsAt (w : Xlen) (clock : Clock) (k : Nat) : Prop :=
  match w with
  | .rv64 => True
  | .rv32 =>
    stimeh (clock.time (3 * k)) = stimeh (clock.time (3 * k + 2)) ∧
      ∀ j < k, stimeh (clock.time (3 * j)) ≠ stimeh (clock.time (3 * j + 2))

/-- The read of `stime` in the last iteration. -/
def stimeRead (w : Xlen) (k : Nat) : Nat :=
  match w with
  | .rv64 => 0
  | .rv32 => 3 * k + 1

/-- The last read. -/
def lastRead (w : Xlen) (k : Nat) : Nat :=
  match w with
  | .rv64 => 0
  | .rv32 => 3 * k + 2

/-! ## Halves of one time -/

theorem toNat_stimeh (t : Nat) : (stimeh t).toNat = t / 2 ^ 32 % 2 ^ 32 := by
  rw [stimeh, BitVec.toNat_setWidth, BitVec.toNat_ushiftRight, counter, BitVec.toNat_ofNat,
    Nat.shiftRight_eq_div_pow]
  omega

theorem toNat_stime (w : Xlen) (t : Nat) : (stime w t).toNat = t % 2 ^ (8 * szreg w) := by
  have hdvd : 2 ^ (8 * szreg w) ∣ 2 ^ 64 := by cases w <;> decide
  rw [stime, BitVec.toNat_setWidth, counter, BitVec.toNat_ofNat, Nat.mod_mod_of_dvd _ hdvd]

/-- If the upper half is the same before and after, it is the same in between. -/
theorem stimeh_between {a b c : Nat} (hab : a ≤ b) (hbc : b ≤ c)
    (hturn : c / 2 ^ 32 < a / 2 ^ 32 + 2 ^ 32) (h : stimeh a = stimeh c) :
    stimeh a = stimeh b := by
  have hval := congrArg BitVec.toNat h
  rw [toNat_stimeh, toNat_stimeh] at hval
  apply BitVec.eq_of_toNat_eq
  rw [toNat_stimeh, toNat_stimeh]
  have hle : a / 2 ^ 32 ≤ b / 2 ^ 32 := Nat.div_le_div_right hab
  have hle' : b / 2 ^ 32 ≤ c / 2 ^ 32 := Nat.div_le_div_right hbc
  omega

/-- The halves of one time, put together. -/
theorem time_halves (t reads : Nat) : Halves.time ⟨stimeh t, stime .rv32 t, reads⟩ = counter t := by
  have hlo : (stime .rv32 t).toNat = t % 2 ^ 32 := toNat_stime .rv32 t
  have hhi := toNat_stimeh t
  have hshift : ((stimeh t).setWidth 64 <<< 32).toNat = (stimeh t).toNat <<< 32 := by
    rw [BitVec.toNat_shiftLeft, BitVec.toNat_setWidth, Nat.shiftLeft_eq]
    omega
  have hlow : ((stime .rv32 t).setWidth 64).toNat = t % 2 ^ 32 := by
    rw [BitVec.toNat_setWidth, hlo]
    omega
  apply BitVec.eq_of_toNat_eq
  rw [Halves.time, BitVec.toNat_or, hshift, hlow, ← Nat.shiftLeft_add_eq_or_of_lt (by omega), hhi,
    Nat.shiftLeft_eq, counter, BitVec.toNat_ofNat]
  omega

/-! ## The value of `get_cycles` -/

section Value

variable {clock : Clock} {k : Nat}

theorem runFor_iteration {m j : Nat}
    (hagree : stimeh (clock.time (3 * (j + m))) = stimeh (clock.time (3 * (j + m) + 2)))
    (hbefore : ∀ i < m, stimeh (clock.time (3 * (j + i))) ≠ stimeh (clock.time (3 * (j + i) + 2))) :
    runFor (iteration clock) (m + 1) (3 * j) =
      some ⟨stimeh (clock.time (3 * (j + m))), stime .rv32 (clock.time (3 * (j + m) + 1)),
        3 * (j + m) + 3⟩ := by
  induction m generalizing j with
  | zero =>
    have hend : ¬ stimeh (clock.time (3 * j)) ≠ stimeh (clock.time (3 * j + 2)) :=
      not_not.mpr hagree
    simp only [runFor, iteration, if_neg hend, Nat.add_zero]
  | succ m ih =>
    have hgo : stimeh (clock.time (3 * j)) ≠ stimeh (clock.time (3 * j + 2)) :=
      hbefore 0 (Nat.succ_pos m)
    have hj : j + (m + 1) = j + 1 + m := by omega
    have hrest := ih (j := j + 1) (by rwa [hj] at hagree) fun i hi => by
      have hne := hbefore (i + 1) (by omega)
      rwa [show j + (i + 1) = j + 1 + i by omega] at hne
    rw [runFor, iteration]
    simp only [if_pos hgo, hj]
    exact hrest

/-- **The loop on RV32 ends with the halves of one time**, in the first iteration in which the upper
half is twice the same. -/
theorem halves_eq (hk : EndsAt .rv32 clock k) :
    runFor (iteration clock) (k + 1) 0 =
      some ⟨stimeh (clock.time (3 * k + 1)), stime .rv32 (clock.time (3 * k + 1)), 3 * k + 3⟩ := by
  obtain ⟨hagree, hbefore⟩ := hk
  rw [← Nat.zero_add k] at hagree
  have hrun := runFor_iteration hagree fun i hi => by
    rw [Nat.zero_add]
    exact hbefore i hi
  rw [Nat.zero_add] at hrun hagree
  have hmid := stimeh_between (clock.mono (Nat.le_succ (3 * k))) (clock.mono (Nat.le_succ _))
    (clock.noTurn (3 * k)) hagree
  rw [← hmid]
  exact hrun

/-- **What `get_cycles` returns** is the time of one read, up to the bits of a register. -/
theorem getCycles_eq (hk : EndsAt w clock k) :
    getCycles w clock (k + 1) =
      some ((counter (clock.time (stimeRead w k))).setWidth _, lastRead w k + 1) := by
  cases w with
  | rv64 => rfl
  | rv32 =>
    rw [getCycles, halves_eq hk, Option.map_some, time_halves]
    rfl

end Value

/-! ## The deadline -/

/-- The 64-bit value is `delta` behind a time that the counter held from `start` to `stop`. -/
def Deadline (start stop : Nat) (delta : Word w) (value : BitVec 64) : Prop :=
  ∃ t, start ≤ t ∧ t ≤ stop ∧ value = counter t + delta.setWidth 64

/-- A time that the counter held from `start` to `stop` has the lower half of `now`, and a deadline
that has a lower half only. -/
def FitsLow (start stop now : Nat) (delta : Word w) : Prop :=
  ∃ t, start ≤ t ∧ t ≤ stop ∧ t % 2 ^ 32 = now % 2 ^ 32 ∧
    (counter t + delta.setWidth 64).toNat < 2 ^ 32

/-- A sum in a register as wide as the counter loses nothing. -/
theorem setWidth_add {n : Nat} (hn : n = 64) (time : BitVec 64) (delta : BitVec n) :
    (time.setWidth n + delta).setWidth 64 = time + delta.setWidth 64 := by
  subst hn
  rw [BitVec.setWidth_eq, BitVec.setWidth_eq, BitVec.setWidth_eq]

/-- On RV32 the deadline is the lower half of the 64-bit one. -/
theorem deadline_rv32_iff {start stop now : Nat} (delta : Word .rv32) :
    Deadline start stop delta (((counter now).setWidth (8 * szreg .rv32) + delta).setWidth 64) ↔
      FitsLow start stop now delta := by
  have hdelta : delta.toNat < 2 ^ 32 := delta.isLt
  have hwide : (delta.setWidth 64).toNat = delta.toNat := by
    rw [BitVec.toNat_setWidth, Nat.mod_eq_of_lt (by omega)]
  have hlow : ((counter now).setWidth (8 * szreg .rv32)).toNat = now % 2 ^ 32 :=
    toNat_stime .rv32 now
  have hvalue : (((counter now).setWidth (8 * szreg .rv32) + delta).setWidth 64).toNat =
      (now % 2 ^ 32 + delta.toNat) % 2 ^ 32 := by
    rw [BitVec.toNat_setWidth, BitVec.toNat_add, hlow]
    show (now % 2 ^ 32 + delta.toNat) % 2 ^ 32 % 2 ^ 64 = _
    omega
  refine exists_congr fun t => and_congr_right fun _ => and_congr_right fun _ => ?_
  have hsum : (counter t + delta.setWidth 64).toNat = (t + delta.toNat) % 2 ^ 64 := by
    rw [BitVec.toNat_add, hwide, counter, BitVec.toNat_ofNat, Nat.mod_add_mod]
  rw [BitVec.toNat_eq, hvalue, hsum]
  omega

/-- In a call of less than `2 ^ 32` ticks there is one time with that lower half. -/
theorem fitsLow_iff {start stop now : Nat} (delta : Word w) (hstart : start ≤ now)
    (hstop : now ≤ stop) (hshort : stop < start + 2 ^ 32) :
    FitsLow start stop now delta ↔ (counter now + delta.setWidth 64).toNat < 2 ^ 32 := by
  constructor
  · rintro ⟨t, ht, ht', hlow, hlt⟩
    obtain rfl : t = now := by omega
    exact hlt
  · intro hlt
    exact ⟨now, hstart, hstop, rfl, hlt⟩

/-- **When a deadline is the 64-bit one.** `get_cycles` ends in the first iteration in which the upper
half of the counter is twice the same, with the halves of one time. The deadline is right on RV64,
and on RV32 iff it has a lower half only. -/
theorem timer_deadline_iff (w : Xlen) (clock : Clock) (delta : Word w) {k start stop : Nat}
    (hk : EndsAt w clock k) (hstart : start ≤ clock.time 0)
    (hstop : clock.time (lastRead w k) ≤ stop) :
    (w = .rv32 → ∃ h, runFor (iteration clock) (k + 1) 0 = some h ∧
      h.time = counter (clock.time (stimeRead w k))) ∧
    ∃ value, riscvTimerSetNextEvent w clock (k + 1) delta = some value ∧
      (Deadline start stop delta value ↔
        w = .rv64 ∨ FitsLow start stop (clock.time (stimeRead w k)) delta) := by
  constructor
  · rintro rfl
    exact ⟨_, halves_eq hk, time_halves _ _⟩
  · refine ⟨((counter (clock.time (stimeRead w k))).setWidth _ + delta).setWidth 64, ?_, ?_⟩
    · rw [riscvTimerSetNextEvent, getCycles_eq hk]
      rfl
    · cases w with
      | rv64 =>
        exact iff_of_true ⟨clock.time 0, hstart, hstop, setWidth_add rfl _ delta⟩ (Or.inl rfl)
      | rv32 =>
        rw [deadline_rv32_iff]
        exact (or_iff_right (by decide)).symm

/-- A clock that ticks with every read, from the last time before the lower half wraps on. -/
def ticking : Clock where
  time n := 2 ^ 32 - 1 + n
  mono := fun _ _ h => Nat.add_le_add_left h _
  noTurn n := by omega

theorem ticking_endsAt : EndsAt .rv32 ticking 1 := by
  refine ⟨rfl, fun j hj => ?_⟩
  obtain rfl : j = 0 := by omega
  decide

/-- The first iteration sees the wrap, the second one the time of its read of `stime`. -/
theorem timer_deadline_iff_wrapped :
    let delta : Word .rv32 := 100
    (∃ h, runFor (iteration ticking) 2 0 = some h ∧ h.time = counter (2 ^ 32 + 3)) ∧
    ∃ value, riscvTimerSetNextEvent .rv32 ticking 2 delta = some value ∧
      (Deadline (2 ^ 32 - 1) (2 ^ 32 + 1000) delta value ↔
        FitsLow (2 ^ 32 - 1) (2 ^ 32 + 1000) (2 ^ 32 + 3) delta) := by
  intro delta
  obtain ⟨hhalves, value, hvalue, hiff⟩ := @timer_deadline_iff .rv32 ticking delta 1 (2 ^ 32 - 1)
    (2 ^ 32 + 1000) ticking_endsAt (Nat.le_refl _) (by decide)
  exact ⟨hhalves rfl, value, hvalue, hiff.trans (or_iff_right (by decide))⟩

/-- A clock that has just passed the first wrap of the lower half, and does not tick while it is
read. -/
def wrapped : Clock where
  time _ := 2 ^ 32
  mono := monotone_const
  noTurn _ := by decide

theorem wrapped_endsAt : EndsAt .rv32 wrapped 0 :=
  ⟨rfl, fun _ hj => absurd hj (Nat.not_lt_zero _)⟩

/-- **A deadline in the past**: 100 ticks from then on RV32 are tick 100. -/
theorem timer_deadline_past :
    EndsAt .rv32 wrapped 0 ∧
    riscvTimerSetNextEvent .rv32 wrapped 1 (100 : Word .rv32) = some 100 ∧
    ¬ Deadline (2 ^ 32) (2 ^ 32 + 1000) (100 : Word .rv32) 100 := by
  refine ⟨wrapped_endsAt, rfl, ?_⟩
  rintro ⟨t, hstart, hstop, hvalue⟩
  have hval := congrArg BitVec.toNat hvalue
  rw [BitVec.toNat_add, counter, BitVec.toNat_ofNat] at hval
  have hdelta : ((100 : Word .rv32).setWidth 64).toNat = 100 := rfl
  have hlow : (100 : BitVec 64).toNat = 100 := rfl
  omega

end LowriscLinux.Kernel.Timex
