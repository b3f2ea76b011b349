import LowriscLinux.Kernel.Timex

/-!
# Delays

Model of `__delay`, `udelay` and `ndelay` (`arch/riscv/lib/delay.c`). The loop compares the ticks
since its first reading with a count, in the bits of a register. The count is the quotient of an
integer division, which rounds down.

## What models what

* `reading`: what a call of `get_cycles` returns, the low bits of the counter (`Kernel/Timex.lean`).
  `cycle_t` has 64 bits, in which a reading is extended by zeros.
* `delayStep`: one round of the loop, lines 9 and 10: `t0` is the reading at time 0, and the
  difference is taken in an `unsigned long`. `DelayEnds` is the end of the loop after some reading.
* `cyclesFor`: the argument of `__delay` in lines 15 and 22, a product of 64 bits, a division and
  the conversion to `unsigned long`. `timebase` is what `time_init` has stored
  (`arch/riscv/kernel/time.c`, line 87).
* `udelayCycles`, `ndelayCycles`, `UdelayEnds` and `NdelayEnds`: the two functions, with their
  units.

The readings of the counter are any sequence of times (`time`), in an order that the caller is
promised: they go up, or each is later than the one before. `Apart` says that they are so close
together that none can miss the end; without it a loop may wrap around and go on.

Results:
* `delay_ends_iff`: the loop ends at the first reading at which its count has elapsed.
* `neverShort_iff`, `neverShort_monotone_iff`: when a delay with a rounded count is never short.
* **`delays_never_short_iff`**: when `udelay` and `ndelay` are never short.
-/

namespace LowriscLinux.Kernel.Delay

open Lib Timex

variable {w : Xlen}

/-! ## The code -/

/-- What a call of `get_cycles` returns for a reading at time `t`. -/
def reading (w : Xlen) (t : Nat) : Word w := (counter t).setWidth _

/-- One round of the loop in `__delay`, at its reading `k`: the next one, or the end. -/
def delayStep (time : Nat → Nat) (cycles : Word w) (k : Nat) : Nat ⊕ Nat :=
  let t0 : BitVec 64 := (reading w (time 0)).setWidth 64
  let now : BitVec 64 := (reading w (time k)).setWidth 64
  if ((now - t0).setWidth _ : Word w) < cycles then .inl (k + 1) else .inr k

/-- `__delay` returns after reading `k` of the counter. -/
def DelayEnds (time : Nat → Nat) (cycles : Word w) (k : Nat) : Prop :=
  Ends (delayStep time cycles) 1 k

/-- `(unsigned long)(((u64)n * timebase) / unit)`. -/
def cyclesFor (unit : BitVec 64) (n timebase : Word w) : Word w :=
  ((n.setWidth 64 * timebase.setWidth 64) / unit).setWidth _

/-- The count of `udelay`. -/
def udelayCycles (usecs timebase : Word w) : Word w := cyclesFor 1000000 usecs timebase

/-- The count of `ndelay`. -/
def ndelayCycles (nsecs timebase : Word w) : Word w := cyclesFor 1000000000 nsecs timebase

/-- `udelay` returns after reading `k`. -/
def UdelayEnds (time : Nat → Nat) (usecs timebase : Word w) (k : Nat) : Prop :=
  DelayEnds time (udelayCycles usecs timebase) k

/-- `ndelay` returns after reading `k`. -/
def NdelayEnds (time : Nat → Nat) (nsecs timebase : Word w) (k : Nat) : Prop :=
  DelayEnds time (ndelayCycles nsecs timebase) k

/-! ## The loop -/

/-- The readings are so close together that none can miss the end. -/
def Apart (w : Xlen) (cycles : Nat) (time : Nat → Nat) : Prop :=
  ∀ k, time (k + 1) - time k < 2 ^ (8 * szreg w) - cycles

section Loop

variable {time : Nat → Nat} {cycles : Word w} {k : Nat}

/-- The ticks that the loop sees are the ones that have passed, up to the bits of a register. -/
theorem toNat_elapsed {a b : Nat} (h : a ≤ b) :
    ((((reading w b).setWidth 64 - (reading w a).setWidth 64 : BitVec 64).setWidth _ : Word w)).toNat
      = (b - a) % 2 ^ (8 * szreg w) := by
  have hdvd : 2 ^ (8 * szreg w) ∣ 2 ^ 64 := by cases w <;> decide
  have hle : 2 ^ (8 * szreg w) ≤ 2 ^ 64 := Nat.le_of_dvd (by decide) hdvd
  have hread : ∀ t, ((reading w t).setWidth 64).toNat = t % 2 ^ (8 * szreg w) := fun t => by
    have hval : (reading w t).toNat = t % 2 ^ (8 * szreg w) := toNat_stime w t
    have hlt := (reading w t).isLt
    rw [BitVec.toNat_setWidth, Nat.mod_eq_of_lt (by omega), hval]
  rw [BitVec.toNat_setWidth, BitVec.toNat_sub, Nat.mod_mod_of_dvd _ hdvd, hread, hread]
  cases w with
  | rv64 =>
    show (2 ^ 64 - a % 2 ^ 64 + b % 2 ^ 64) % 2 ^ 64 = (b - a) % 2 ^ 64
    omega
  | rv32 =>
    show (2 ^ 64 - a % 2 ^ 32 + b % 2 ^ 32) % 2 ^ 32 = (b - a) % 2 ^ 32
    omega

/-- The count has not elapsed at any reading of the loop before reading `k`. -/
def Waits (time : Nat → Nat) (cycles : Word w) (k : Nat) : Prop :=
  ∀ j, 1 ≤ j → j < k → time j - time 0 < cycles.toNat

/-- Reading `k` is the first at which the count has elapsed. -/
def FirstElapsed (time : Nat → Nat) (cycles : Word w) (k : Nat) : Prop :=
  1 ≤ k ∧ Waits time cycles k ∧ cycles.toNat ≤ time k - time 0

/-- As long as the loop waits, the counter has not wrapped past its first reading. -/
theorem Waits.elapsed_lt (hmono : Monotone time) (hapart : Apart w cycles.toNat time) (hk : 1 ≤ k)
    (h : Waits time cycles k) : time k - time 0 < 2 ^ (8 * szreg w) := by
  obtain ⟨j, rfl⟩ : ∃ j, k = j + 1 := ⟨k - 1, by omega⟩
  have hgap := hapart j
  have hle := hmono (Nat.zero_le j)
  rcases Nat.eq_zero_or_pos j with rfl | hj
  · omega
  · have hwait := h j hj (Nat.lt_succ_self j)
    omega

theorem Waits.delayStep_eq (hmono : Monotone time) (hapart : Apart w cycles.toNat time)
    (hk : 1 ≤ k) (h : Waits time cycles k) :
    delayStep time cycles k =
      if time k - time 0 < cycles.toNat then .inl (k + 1) else .inr k := by
  have hlt := h.elapsed_lt hmono hapart hk
  simp only [delayStep, BitVec.lt_def, toNat_elapsed (hmono (Nat.zero_le k)), Nat.mod_eq_of_lt hlt]

theorem Waits.succ (h : Waits time cycles k) (hk : time k - time 0 < cycles.toNat) :
    Waits time cycles (k + 1) := by
  intro j hj hlt
  rcases Nat.lt_or_eq_of_le (Nat.le_of_lt_succ hlt) with hlt | rfl
  · exact h j hj hlt
  · exact hk

/-- **The loop ends at the first reading at which its count has elapsed.** -/
theorem delay_ends_iff (hmono : Monotone time) (hapart : Apart w cycles.toNat time) :
    DelayEnds time cycles k ↔ FirstElapsed time cycles k := by
  constructor
  · intro hends
    have hstep : ∀ m m', 1 ≤ m ∧ Waits time cycles m → delayStep time cycles m = .inl m' →
        1 ≤ m' ∧ Waits time cycles m' := by
      rintro m m' ⟨hm, hwaits⟩ hnext
      rw [hwaits.delayStep_eq hmono hapart hm] at hnext
      split at hnext
      · next hlt =>
        obtain rfl := Sum.inl.inj hnext
        exact ⟨by omega, hwaits.succ hlt⟩
      · cases hnext
    have hlast : ∀ m k, 1 ≤ m ∧ Waits time cycles m → delayStep time cycles m = .inr k →
        FirstElapsed time cycles k := by
      rintro m k ⟨hm, hwaits⟩ hnext
      rw [hwaits.delayStep_eq hmono hapart hm] at hnext
      split at hnext
      · cases hnext
      · next hge =>
        obtain rfl := Sum.inr.inj hnext
        exact ⟨hm, hwaits, Nat.le_of_not_lt hge⟩
    exact hends.invariant hstep hlast ⟨Nat.le_refl 1, fun j hj hlt => by omega⟩
  · rintro ⟨hk, hwaits, helapsed⟩
    -- backwards from reading `k`
    have hall : ∀ d m, 1 ≤ m → m + d = k → Ends (delayStep time cycles) m k := by
      intro d
      induction d with
      | zero =>
        rintro m hm rfl
        apply Ends.last
        rw [Nat.add_zero] at hwaits helapsed ⊢
        rw [hwaits.delayStep_eq hmono hapart hm, if_neg (Nat.not_lt.mpr helapsed)]
      | succ d ih =>
        intro m hm hsum
        have hwaits' : Waits time cycles m := fun j hj hlt => hwaits j hj (by omega)
        have hnext : delayStep time cycles m = .inl (m + 1) := by
          rw [hwaits'.delayStep_eq hmono hapart hm, if_pos (hwaits m hm (by omega))]
        exact (ends_next_iff hnext).mpr (ih (m + 1) (by omega) (by omega))
    exact hall (k - 1) 1 (Nat.le_refl 1) (by omega)

/-- With a counter that ticks from one reading to the next the loop ends. -/
theorem delay_ends (hmono : StrictMono time) (hapart : Apart w cycles.toNat time) :
    ∃ k, DelayEnds time cycles k := by
  have hlinear : ∀ k, time 0 + k ≤ time k := fun k => by
    induction k with
    | zero => exact Nat.le_refl _
    | succ k ih =>
      have hlt := hmono (Nat.lt_add_one k)
      omega
  have hex : ∃ k, 1 ≤ k ∧ cycles.toNat ≤ time k - time 0 := by
    have hle := hlinear (cycles.toNat + 1)
    exact ⟨cycles.toNat + 1, by omega, by omega⟩
  have hspec := Nat.find_spec hex
  refine ⟨Nat.find hex, (delay_ends_iff hmono.monotone hapart).mpr ⟨hspec.1, ?_, hspec.2⟩⟩
  intro j hj hlt
  have hmin := Nat.find_min hex hlt
  by_contra hge
  exact hmin ⟨hj, Nat.le_of_not_lt hge⟩

end Loop

/-! ## The count -/

section Count

variable {unit : BitVec 64} {n timebase : Word w}

/-- The product fits in 64 bits, and the count in a register. -/
structure Fits (unit : BitVec 64) (n timebase : Word w) : Prop where
  product : n.toNat * timebase.toNat < 2 ^ 64
  count : n.toNat * timebase.toNat / unit.toNat < 2 ^ (8 * szreg w)

theorem Fits.toNat_cyclesFor (h : Fits unit n timebase) :
    (cyclesFor unit n timebase).toNat = n.toNat * timebase.toNat / unit.toNat := by
  have hle : 2 ^ (8 * szreg w) ≤ 2 ^ 64 := by cases w <;> decide
  have hwide : ∀ v : Word w, (v.setWidth 64).toNat = v.toNat := fun v => by
    have hlt := v.isLt
    rw [BitVec.toNat_setWidth, Nat.mod_eq_of_lt (by omega)]
  rw [cyclesFor, BitVec.toNat_setWidth, BitVec.toNat_udiv, BitVec.toNat_mul, hwide, hwide,
    Nat.mod_eq_of_lt h.product, Nat.mod_eq_of_lt h.count]

/-- A delay of `n / unit` seconds returns only after so many ticks have passed, exactly, for every
sequence of readings in the order that is close enough. -/
def NeverShort (Order : (Nat → Nat) → Prop) (unit : BitVec 64) (n timebase : Word w) : Prop :=
  ∀ time, Order time → Apart w (cyclesFor unit n timebase).toNat time →
    ∀ k, DelayEnds time (cyclesFor unit n timebase) k →
      n.toNat * timebase.toNat ≤ unit.toNat * (time k - time 0)

/-- A count that is exact is never short. -/
theorem neverShort_of_dvd {Order : (Nat → Nat) → Prop} (hmono : ∀ time, Order time → Monotone time)
    (hfits : Fits unit n timebase) (hdvd : unit.toNat ∣ n.toNat * timebase.toNat) :
    NeverShort Order unit n timebase := by
  intro time horder hapart k hends
  have helapsed := ((delay_ends_iff (hmono time horder) hapart).mp hends).2.2
  rw [hfits.toNat_cyclesFor] at helapsed
  calc n.toNat * timebase.toNat
      = unit.toNat * (n.toNat * timebase.toNat / unit.toNat) := (Nat.mul_div_cancel' hdvd).symm
    _ ≤ unit.toNat * (time k - time 0) := Nat.mul_le_mul_left _ helapsed

/-- A rounded count is short when its last tick is read at once. -/
theorem dvd_of_neverShort {Order : (Nat → Nat) → Prop} (hid : Order id)
    (hfits : Fits unit n timebase) (hpos : cyclesFor unit n timebase ≠ 0)
    (hroom : (cyclesFor unit n timebase).toNat + 1 < 2 ^ (8 * szreg w))
    (h : NeverShort Order unit n timebase) : unit.toNat ∣ n.toNat * timebase.toNat := by
  have hapart : Apart w (cyclesFor unit n timebase).toNat id := fun k => by
    show k + 1 - k < _
    omega
  have hne : (cyclesFor unit n timebase).toNat ≠ 0 := fun h0 => hpos (BitVec.eq_of_toNat_eq h0)
  have hends : DelayEnds id (cyclesFor unit n timebase) (cyclesFor unit n timebase).toNat :=
    (delay_ends_iff monotone_id hapart).mpr
      ⟨by omega, fun j _ hlt => show j - 0 < _ by omega, Nat.le_refl _⟩
  have hle := h id hid hapart _ hends
  rw [hfits.toNat_cyclesFor] at hle
  have hge := Nat.mul_div_le (n.toNat * timebase.toNat) unit.toNat
  exact ⟨_, Nat.le_antisymm hle hge⟩

/-- The last count: the readings would have to be less than a tick apart. -/
theorem constant_of_apart {time : Nat → Nat} (hmono : Monotone time)
    (hapart : Apart w (2 ^ (8 * szreg w) - 1) time) (k : Nat) : time k = time 0 := by
  have hpos := Nat.two_pow_pos (8 * szreg w)
  induction k with
  | zero => rfl
  | succ k ih =>
    have hgap := hapart k
    have hle := hmono (Nat.le_add_right k 1)
    omega

/-- The last count that a register has room for. -/
def IsLast (cycles : Word w) : Prop := cycles.toNat = 2 ^ (8 * szreg w) - 1

/-- **When a delay is never short**, with a counter that ticks from one reading to the next: if the
count is exact, or less than one tick is asked for, or no readings are close enough. -/
theorem neverShort_iff (hfits : Fits unit n timebase) (hunit : 0 < unit.toNat) :
    NeverShort StrictMono unit n timebase ↔
      unit.toNat ∣ n.toNat * timebase.toNat ∨ cyclesFor unit n timebase = 0 ∨
        IsLast (cyclesFor unit n timebase) := by
  constructor
  · intro h
    by_cases hzero : cyclesFor unit n timebase = 0
    · exact Or.inr (Or.inl hzero)
    · by_cases hlast : IsLast (cyclesFor unit n timebase)
      · exact Or.inr (Or.inr hlast)
      · have hlt := (cyclesFor unit n timebase).isLt
        rw [IsLast] at hlast
        exact Or.inl (dvd_of_neverShort strictMono_id hfits hzero (by omega) h)
  · rintro (hdvd | hzero | hlast)
    · exact neverShort_of_dvd (fun _ h => h.monotone) hfits hdvd
    · -- one tick is more than what is asked for
      intro time hmono hapart k hends
      have hk := ((delay_ends_iff hmono.monotone hapart).mp hends).1
      have htick : 1 ≤ time k - time 0 := by
        have hlt := hmono hk
        omega
      have hless : n.toNat * timebase.toNat < unit.toNat := by
        rw [← Nat.div_eq_zero_iff_lt hunit, ← hfits.toNat_cyclesFor, hzero]
        rfl
      calc n.toNat * timebase.toNat
          ≤ unit.toNat * 1 := by omega
        _ ≤ unit.toNat * (time k - time 0) := Nat.mul_le_mul_left _ htick
    · intro time hmono hapart
      rw [hlast] at hapart
      have hconst := constant_of_apart hmono.monotone hapart 1
      have hlt : time 0 < time 1 := hmono Nat.one_pos
      omega

/-- With a counter that may not tick from one reading to the next, a delay of less than a tick is
short too. -/
theorem neverShort_monotone_iff (hfits : Fits unit n timebase) :
    NeverShort Monotone unit n timebase ↔
      unit.toNat ∣ n.toNat * timebase.toNat ∨ IsLast (cyclesFor unit n timebase) := by
  have hcount := hfits.toNat_cyclesFor
  constructor
  · intro h
    by_cases hzero : cyclesFor unit n timebase = 0
    · have hapart : Apart w (cyclesFor unit n timebase).toNat fun _ => 0 := fun _ => by
        have hlt := (cyclesFor unit n timebase).isLt
        show 0 - 0 < _
        omega
      have hends : DelayEnds (fun _ => 0) (cyclesFor unit n timebase) 1 :=
        (delay_ends_iff monotone_const hapart).mpr
          ⟨Nat.le_refl 1, fun j hj hlt => by omega, by rw [hzero]; exact Nat.le_refl _⟩
      have hle : n.toNat * timebase.toNat ≤ unit.toNat * 0 := h _ monotone_const hapart 1 hends
      exact Or.inl ⟨0, by omega⟩
    · by_cases hlast : IsLast (cyclesFor unit n timebase)
      · exact Or.inr hlast
      · have hlt := (cyclesFor unit n timebase).isLt
        rw [IsLast] at hlast
        exact Or.inl (dvd_of_neverShort monotone_id hfits hzero (by omega) h)
  · rintro (hdvd | hlast)
    · exact neverShort_of_dvd (fun _ h => h) hfits hdvd
    · -- the counter stands still, so the loop does not end
      intro time hmono hapart k hends
      have helapsed := ((delay_ends_iff hmono hapart).mp hends).2.2
      rw [hlast] at hapart
      have hconst := constant_of_apart hmono hapart k
      have hbig : 2 ^ 32 ≤ 2 ^ (8 * szreg w) := Nat.pow_le_pow_right (by decide) (le_xlen w)
      rw [IsLast] at hlast
      omega

end Count

/-- `udelay(usecs)` is never short. -/
def UdelayNeverShort (Order : (Nat → Nat) → Prop) (usecs timebase : Word w) : Prop :=
  ∀ time, Order time → Apart w (udelayCycles usecs timebase).toNat time →
    ∀ k, UdelayEnds time usecs timebase k →
      usecs.toNat * timebase.toNat ≤ 10 ^ 6 * (time k - time 0)

/-- `ndelay(nsecs)` is never short. -/
def NdelayNeverShort (Order : (Nat → Nat) → Prop) (nsecs timebase : Word w) : Prop :=
  ∀ time, Order time → Apart w (ndelayCycles nsecs timebase).toNat time →
    ∀ k, NdelayEnds time nsecs timebase k →
      nsecs.toNat * timebase.toNat ≤ 10 ^ 9 * (time k - time 0)

/-- **When delays are never short.** The loop ends at the first reading at which its count has
elapsed. `udelay` and `ndelay` are never short iff their counts are exact, but for a count that has
no close enough readings and, if the counter ticks from one reading to the next, a count of 0. -/
theorem delays_never_short_iff (usecs nsecs timebase : Word w) (hmicro : Fits 1000000 usecs timebase)
    (hnano : Fits 1000000000 nsecs timebase) :
    (∀ (cycles : Word w) time, Monotone time → Apart w cycles.toNat time →
      (∀ k, DelayEnds time cycles k ↔ FirstElapsed time cycles k) ∧
      (StrictMono time → ∃ k, DelayEnds time cycles k)) ∧
    (UdelayNeverShort StrictMono usecs timebase ↔
      10 ^ 6 ∣ usecs.toNat * timebase.toNat ∨ udelayCycles usecs timebase = 0 ∨
        IsLast (udelayCycles usecs timebase)) ∧
    (UdelayNeverShort Monotone usecs timebase ↔
      10 ^ 6 ∣ usecs.toNat * timebase.toNat ∨ IsLast (udelayCycles usecs timebase)) ∧
    (NdelayNeverShort StrictMono nsecs timebase ↔
      10 ^ 9 ∣ nsecs.toNat * timebase.toNat ∨ ndelayCycles nsecs timebase = 0 ∨
        IsLast (ndelayCycles nsecs timebase)) ∧
    (NdelayNeverShort Monotone nsecs timebase ↔
      10 ^ 9 ∣ nsecs.toNat * timebase.toNat ∨ IsLast (ndelayCycles nsecs timebase)) :=
  ⟨fun _ _ hmono hapart => ⟨fun _ => delay_ends_iff hmono hapart, fun hstrict =>
      delay_ends hstrict hapart⟩,
    neverShort_iff hmicro (by decide), neverShort_monotone_iff hmicro,
    neverShort_iff hnano (by decide), neverShort_monotone_iff hnano⟩

/-- Delays of a microsecond and of 100 nanoseconds, with 1.5 ticks in a microsecond. -/
theorem delays_never_short_iff_slow :
    let timebase : Word .rv64 := 1500000
    (∀ (cycles : Word .rv64) time, Monotone time → Apart .rv64 cycles.toNat time →
      (∀ k, DelayEnds time cycles k ↔ FirstElapsed time cycles k) ∧
      (StrictMono time → ∃ k, DelayEnds time cycles k)) ∧
    (UdelayNeverShort StrictMono 1 timebase ↔
      10 ^ 6 ∣ 1 * 1500000 ∨ udelayCycles 1 timebase = 0 ∨ IsLast (udelayCycles 1 timebase)) ∧
    (UdelayNeverShort Monotone 1 timebase ↔
      10 ^ 6 ∣ 1 * 1500000 ∨ IsLast (udelayCycles 1 timebase)) ∧
    (NdelayNeverShort StrictMono 100 timebase ↔
      10 ^ 9 ∣ 100 * 1500000 ∨ ndelayCycles 100 timebase = 0 ∨
        IsLast (ndelayCycles 100 timebase)) ∧
    (NdelayNeverShort Monotone 100 timebase ↔
      10 ^ 9 ∣ 100 * 1500000 ∨ IsLast (ndelayCycles 100 timebase)) :=
  delays_never_short_iff 1 100 1500000 ⟨by decide, by decide⟩ ⟨by decide, by decide⟩

/-- **A short delay**: `udelay(1)` returns after one tick, where a microsecond has 1.5. -/
theorem udelay_short :
    Fits 1000000 (1 : Word .rv64) 1500000 ∧ StrictMono (fun k : Nat => k) ∧
    Apart .rv64 (udelayCycles (1 : Word .rv64) 1500000).toNat (fun k => k) ∧
    UdelayEnds (fun k => k) (1 : Word .rv64) 1500000 1 ∧
    ¬ 1 * 1500000 ≤ 10 ^ 6 * (1 - 0) := by
  refine ⟨⟨by decide, by decide⟩, strictMono_id, fun k => ?_, ⟨1, rfl⟩, by decide⟩
  have hcount : (udelayCycles (1 : Word .rv64) 1500000).toNat = 1 := rfl
  have hwide : 2 ^ (8 * szreg .rv64) = 2 ^ 64 := rfl
  rw [hcount]
  show k + 1 - k < _
  omega

end LowriscLinux.Kernel.Delay
