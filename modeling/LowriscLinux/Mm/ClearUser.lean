import LowriscLinux.Mm.MemAccess

/-!
# Clearing user memory

Model of `__clear_user` in `arch/riscv/lib/uaccess.S` (lines 72-114), with the labels and the fixup
(lines 118-124) that it shares with `__copy_user` (`Mm/Uaccess.lean`). Here the fixup subtracts the
current address from the end of the range that is being written, so it does return the number of
bytes left.

## What models what

* `clearUser`: the entry, lines 74-89, which computes the end of the range (`a3`) and the addresses
  rounded up (`t0`) and down (`t1`) to words.
* `clearStep`: one block, from one label to the next: the word loop `1:` (lines 90-93), the byte
  loops `4:` (lines 104-108) and `5:` (lines 109-113), and the two joints `2:` and `3:`.
* `clearLoop`: what the three loops have in common: store `size` zero bytes, advance and compare.
  Each store has an entry in the exception table (`fixup`, lines 6-14), so one that faults goes to
  `clearFixup`.
* `ClearState`: the registers with the place in the code. `sstatus` has `SR_PUM` cleared on the way
  in and set on each way out (lines 76, 100 and 121).

The addresses whose stores fault are any set. A store of a word faults if one of its bytes does, and
then stores nothing.

Results:
* `storeBytes_cleared`: one store moves the cleared prefix forward.
* `Frontier.loop`: a store loop with a whole number of stores due ends in a fault at the frontier,
  or clears them and goes on behind the loop.
* **`clearUser_exact`**: the routine halts, the bytes before the number it returns are cleared and
  no others change, and it returns 0 iff no store faults.
-/

namespace LowriscLinux.Mm

open Lib Kernel

variable {w : Xlen}

/-! ## `__clear_user` -/

/-- The registers that `__clear_user` uses, with its place in the code. -/
structure ClearState (w : Xlen) where
  pc : Label
  a0 : Word w
  a3 : Word w
  t0 : Word w
  t1 : Word w
  sstatus : Word w
  mem : Word w → Byte

/-- The fixup `10:`. -/
def clearFixup (s : ClearState w) : CopyExit w :=
  ⟨s.a3 - s.a0, s.sstatus ||| srPum, s.mem, true⟩

/-- A store loop: store `size` zero bytes, advance, and loop up to `bound`. -/
def clearLoop (f : Word w → Bool) (size : Nat) (bound : Word w) (loop next : Label)
    (s : ClearState w) : ClearState w ⊕ CopyExit w :=
  if faultsAt f s.a0 size then .inr (clearFixup s)
  else
    let mem := storeBytes s.mem s.a0 size fun _ => 0
    let a0 := s.a0 + BitVec.ofNat _ size
    .inl { s with pc := if a0 < bound then loop else next, a0 := a0, mem := mem }

/-- One block of `__clear_user`; the stores to the addresses in `f` fault. -/
def clearStep (f : Word w → Bool) (s : ClearState w) : ClearState w ⊕ CopyExit w :=
  match s.pc with
  | .words => clearLoop f (szreg w) s.t1 .words .check s -- `1:`
  | .check => .inl { s with pc := if s.a0 < s.a3 then .tail else .done } -- `2:`
  | .done => .inr ⟨0, s.sstatus ||| srPum, s.mem, false⟩ -- `3:`
  | .head => clearLoop f 1 s.t0 .head .words s -- `4:`
  | .tail => clearLoop f 1 s.a3 .tail .done s -- `5:`

/-- The entry of `__clear_user`, up to the first jump. -/
def clearUser (addr n sstatus : Word w) (mem : Word w → Byte) : ClearState w :=
  let mask := BitVec.ofNat (8 * szreg w) (szreg w - 1)
  let a3 := addr + n
  let s : ClearState w :=
    { pc := .check, a0 := addr, a3 := a3, t0 := (addr + mask) &&& ~~~mask, t1 := a3 &&& ~~~mask,
      sstatus := sstatus &&& ~~~srPum, mem := mem }
  if s.t1 ≤ s.t0 then s
  else if s.a0 < s.t0 then { s with pc := .head }
  else { s with pc := .words }

/-! ## The cleared prefix -/

/-- Memory with the first `k` bytes cleared. -/
def cleared (mem : Word w → Byte) (addr : Word w) (k : Nat) : Word w → Byte :=
  storeBytes mem addr k fun _ => 0

/-- The routine returns with the bytes before the last `a0` cleared, and no others changed. -/
def Cleared (f : Word w → Bool) (addr n : Word w) (mem : Word w → Byte) (e : CopyExit w) : Prop :=
  e.sstatus &&& srPum ≠ 0 ∧
    ∃ k ≤ n.toNat, e.a0.toNat = n.toNat - k ∧ e.mem = cleared mem addr k ∧
      (∀ i < k, f (addr + BitVec.ofNat _ i) = false) ∧
      (e.faulted = true ↔ k < n.toNat) ∧
      (e.faulted = true → ∃ i < n.toNat, f (addr + BitVec.ofNat _ i) = true)

section Prefix

variable {mem : Word w → Byte} {addr : Word w} {k size : Nat}

/-- One store moves the cleared prefix forward, as long as the range does not wrap. -/
theorem storeBytes_cleared (h : addr.toNat + (k + size) ≤ 2 ^ (8 * szreg w)) :
    storeBytes (cleared mem addr k) (addr + BitVec.ofNat _ k) size (fun _ => 0) =
      cleared mem addr (k + size) :=
  storeBytes_append h

theorem cleared_zero (mem : Word w → Byte) (addr : Word w) : cleared mem addr 0 = mem := by
  funext b
  simp [cleared, storeBytes]

end Prefix

/-! ## Runs -/

/-- The first `k` bytes are cleared, the frontier is the current address, and no store before it
has faulted. -/
structure Frontier (f : Word w → Bool) (addr n : Word w) (mem : Word w → Byte) (k : Nat)
    (s : ClearState w) : Prop where
  a0 : s.a0 = addr + BitVec.ofNat _ k
  a3 : s.a3 = addr + n
  mem : s.mem = cleared mem addr k
  le : k ≤ n.toNat
  noFault : ∀ i < k, f (addr + BitVec.ofNat _ i) = false

section Run

variable {f : Word w → Bool} {addr n : Word w} {mem : Word w → Byte} {k size : Nat}
  {s : ClearState w}

namespace Frontier

theorem a0_toNat (h : Frontier f addr n mem k s)
    (hend : addr.toNat + n.toNat < 2 ^ (8 * szreg w)) : s.a0.toNat = addr.toNat + k := by
  have hle := h.le
  rw [h.a0]
  exact toNat_add_lt (by omega)

theorem a3_toNat (h : Frontier f addr n mem k s)
    (hend : addr.toNat + n.toNat < 2 ^ (8 * szreg w)) : s.a3.toNat = addr.toNat + n.toNat := by
  rw [h.a3, BitVec.toNat_add, Nat.mod_eq_of_lt hend]

/-- After a fault the fixup returns the number of bytes left. -/
theorem fixup (h : Frontier f addr n mem k s) (hend : addr.toNat + n.toNat < 2 ^ (8 * szreg w))
    {i : Nat} (hi : k + i < n.toNat) (hf : f (addr + BitVec.ofNat _ (k + i)) = true) :
    Cleared f addr n mem (clearFixup s) := by
  have hle := h.le
  refine ⟨or_srPum_ne _, k, hle, ?_, h.mem, h.noFault, by simp [clearFixup]; omega,
    fun _ => ⟨_, hi, hf⟩⟩
  have hsub := toNat_sub_ite s.a3 s.a0
  rw [h.a0_toNat hend, h.a3_toNat hend, if_pos (by omega)] at hsub
  rw [clearFixup, hsub, Nat.add_sub_add_left]

/-- One store: it faults at the frontier, or moves it forward. -/
theorem clearLoop (h : Frontier f addr n mem k s)
    (hend : addr.toNat + n.toNat < 2 ^ (8 * szreg w)) (hk : k + size ≤ n.toNat)
    (bound : Word w) (loop next : Label) :
    (∃ e, clearLoop f size bound loop next s = .inr e ∧ Cleared f addr n mem e) ∨
      ∃ s', Mm.clearLoop f size bound loop next s = .inl s' ∧
        Frontier f addr n mem (k + size) s' ∧ s'.t0 = s.t0 ∧ s'.t1 = s.t1 ∧
        s'.pc = if addr.toNat + (k + size) < bound.toNat then loop else next := by
  unfold Mm.clearLoop
  by_cases hfault : faultsAt f s.a0 size = true
  · obtain ⟨i, hi, hf⟩ := faultsAt_iff.mp hfault
    rw [h.a0, add_ofNat_add] at hf
    exact Or.inl ⟨_, if_pos hfault, h.fixup hend (by omega) hf⟩
  have hnext : (s.a0 + BitVec.ofNat _ size).toNat = addr.toNat + (k + size) := by
    rw [h.a0, add_ofNat_add]
    exact toNat_add_lt (by omega)
  refine Or.inr ⟨_, if_neg hfault, ⟨?_, h.a3, ?_, hk, ?_⟩, rfl, rfl, ?_⟩
  · simp only [h.a0, add_ofNat_add]
  · simp only [h.mem, h.a0]
    exact storeBytes_cleared (by omega)
  · intro i hi
    by_cases hik : i < k
    · exact h.noFault i hik
    · have hnone : ¬ f (s.a0 + BitVec.ofNat _ (i - k)) = true :=
        fun hf => hfault (faultsAt_iff.mpr ⟨i - k, by omega, hf⟩)
      rw [h.a0, add_ofNat_add, Nat.add_sub_cancel' (Nat.not_lt.mp hik)] at hnone
      exact Bool.eq_false_iff.mpr hnone
  · simp only [BitVec.lt_def, hnext]

end Frontier

/-- A loop with `m` stores due, up to the byte `goal` of the range, with the bounds `t0` and
`t1`. -/
structure Due (f : Word w → Bool) (addr n : Word w) (mem : Word w → Byte) (t0 t1 : Word w)
    (size goal : Nat) (loop next : Label) (m : Nat) (s : ClearState w) : Prop where
  frontier : ∃ k, Frontier f addr n mem k s ∧ k + m * size = goal
  t0 : s.t0 = t0
  t1 : s.t1 = t1
  pc : s.pc = if m = 0 then next else loop

/-- The routine halts with its contract met. -/
def Exact (f : Word w → Bool) (addr n : Word w) (mem : Word w → Byte) (s : ClearState w) : Prop :=
  Halts (clearStep f) (fun _ => True) (Cleared f addr n mem) s

/-- **A store loop with `m` stores due** ends in a fault at the frontier, or clears them. -/
theorem Due.exact (loop next : Label) (bound : ClearState w → Word w) (goal : Nat)
    {t0 t1 : Word w} {m : Nat} (hsize : 0 < size)
    (hend : addr.toNat + n.toNat < 2 ^ (8 * szreg w)) (hgoal : goal ≤ n.toNat)
    (hcode : ∀ s : ClearState w, s.pc = loop →
      clearStep f s = clearLoop f size (bound s) loop next s)
    (hbound : ∀ s : ClearState w, s.a3 = addr + n → s.t0 = t0 → s.t1 = t1 →
      (bound s).toNat = addr.toNat + goal)
    (hexit : ∀ s, Due f addr n mem t0 t1 size goal loop next 0 s → Exact f addr n mem s)
    (h : Due f addr n mem t0 t1 size goal loop next m s) : Exact f addr n mem s := by
  refine Halts.loop ?_ hexit h
  rintro m s ⟨⟨k, hk, hdue⟩, ht0, ht1, hpc⟩
  refine ⟨trivial, ?_⟩
  rw [if_neg (Nat.succ_ne_zero m)] at hpc
  rw [Nat.succ_mul] at hdue
  rw [hcode s hpc]
  have hle : k + size ≤ n.toNat := by omega
  rcases hk.clearLoop hend hle (bound s) loop next with hfault | ⟨s', hstep, hk', ht0', ht1', hpc'⟩
  · exact Or.inl hfault
  · refine Or.inr ⟨s', hstep, ⟨k + size, hk', by omega⟩, ht0'.trans ht0, ht1'.trans ht1, ?_⟩
    rw [hpc', hbound s hk.a3 ht0 ht1]
    -- The loop is left when its last store is done.
    rcases Nat.eq_zero_or_pos m with rfl | hm
    · rw [if_neg (by omega), if_pos rfl]
    · have hpos := Nat.mul_pos hm hsize
      rw [if_pos (by omega), if_neg (by omega)]

theorem Frontier.done (h : Frontier f addr n mem n.toNat s) (hpc : s.pc = .done) :
    Exact f addr n mem s := by
  refine .last trivial (show clearStep f s = .inr _ by rw [clearStep, hpc]) ?_
  exact ⟨or_srPum_ne _, n.toNat, Nat.le_refl _, by simp, h.mem, h.noFault, by simp, by simp⟩

/-- From label `2:` the remaining bytes are cleared. -/
theorem Frontier.check (h : Frontier f addr n mem k s)
    (hend : addr.toNat + n.toNat < 2 ^ (8 * szreg w)) (hpc : s.pc = .check) :
    Exact f addr n mem s := by
  have hle := h.le
  have hiff : s.a0 < s.a3 ↔ k < n.toNat := by
    rw [BitVec.lt_def, h.a0_toNat hend, h.a3_toNat hend]
    exact Nat.add_lt_add_iff_left
  have hmove : ∀ pc, Frontier f addr n mem k { s with pc := pc } := fun _ =>
    ⟨h.a0, h.a3, h.mem, h.le, h.noFault⟩
  refine .next trivial (show clearStep f s = .inl _ by rw [clearStep, hpc]) ?_
  by_cases hlt : k < n.toNat
  · rw [if_pos (hiff.mpr hlt)]
    refine Due.exact .tail .done (fun s => s.a3) n.toNat (m := n.toNat - k) Nat.one_pos hend
      (Nat.le_refl _) (fun s hs => by rw [clearStep, hs]) (fun s ha3 _ _ => ?_) ?_
      ⟨⟨k, hmove _, by omega⟩, rfl, rfl, by rw [if_neg (by omega)]⟩
    · rw [ha3, BitVec.toNat_add, Nat.mod_eq_of_lt hend]
    · rintro s ⟨⟨k', hk', hdue⟩, -, -, hdone⟩
      obtain rfl : k' = n.toNat := by omega
      exact hk'.done hdone
  · rw [if_neg (mt hiff.mp hlt)]
    obtain rfl : k = n.toNat := by omega
    exact (hmove _).done rfl

/-- From label `1:` whole words are cleared up to the last word boundary. -/
theorem Frontier.words (h : Frontier f addr n mem k s)
    (hend : addr.toNat + n.toNat < 2 ^ (8 * szreg w)) (hpc : s.pc = .words) {m : Nat}
    (hm : 0 < m) (hle : k + m * szreg w ≤ n.toNat)
    (ht1 : s.t1.toNat = addr.toNat + (k + m * szreg w)) : Exact f addr n mem s := by
  refine Due.exact .words .check (fun s => s.t1) _ (m := m) (szreg_pos w) hend hle
    (fun s hs => by rw [clearStep, hs]) (fun s' _ _ ht1' => by rw [ht1', ht1]) ?_
    ⟨⟨k, h, rfl⟩, rfl, rfl, by rw [if_neg (by omega), hpc]⟩
  rintro s ⟨⟨k', hk', -⟩, -, -, hcheck⟩
  exact hk'.check hend hcheck

/-- The routine meets its contract. -/
theorem clearUser_halts (hround : addr.toNat + n.toNat + szreg w ≤ 2 ^ (8 * szreg w))
    (sstatus : Word w) : Exact f addr n mem (clearUser addr n sstatus mem) := by
  have hpos := szreg_pos w
  have hend : addr.toNat + n.toNat < 2 ^ (8 * szreg w) := by omega
  have start : ∀ (pc : Label) (t0 t1 : Word w), Frontier f addr n mem 0
      { pc := pc, a0 := addr, a3 := addr + n, t0 := t0, t1 := t1,
        sstatus := sstatus &&& ~~~srPum, mem := mem } := fun pc t0 t1 =>
    ⟨by simp, rfl, (cleared_zero mem addr).symm, Nat.zero_le _, by simp⟩
  have ht0 : ((addr + BitVec.ofNat (8 * szreg w) (szreg w - 1)) &&&
      ~~~BitVec.ofNat (8 * szreg w) (szreg w - 1)).toNat =
        (addr.toNat + (szreg w - 1)) / szreg w * szreg w := by
    rw [toNat_and_not_szreg, toNat_add_lt (by omega)]
  have ht1 : ((addr + n) &&& ~~~BitVec.ofNat (8 * szreg w) (szreg w - 1)).toNat =
      (addr.toNat + n.toNat) / szreg w * szreg w := by
    rw [toNat_and_not_szreg, BitVec.toNat_add, Nat.mod_eq_of_lt hend]
  have hge := @le_round_up addr.toNat _ hpos
  have hlast := Nat.div_mul_le_self (addr.toNat + n.toNat) (szreg w)
  unfold clearUser
  dsimp only
  split
  · exact (start _ _ _).check hend rfl
  next hlt01 =>
  rw [BitVec.le_def, Nat.not_le, ht0, ht1] at hlt01
  obtain ⟨m, hm⟩ := Nat.exists_eq_add_of_lt (Nat.lt_of_mul_lt_mul_right hlt01)
  have hwords : (addr.toNat + n.toNat) / szreg w * szreg w =
      (addr.toNat + (szreg w - 1)) / szreg w * szreg w + (m + 1) * szreg w := by
    rw [hm, Nat.add_assoc, Nat.add_mul]
  generalize (addr.toNat + (szreg w - 1)) / szreg w * szreg w = lo at *
  generalize (addr.toNat + n.toNat) / szreg w * szreg w = hi at *
  split
  · next hlt =>
    rw [BitVec.lt_def, ht0] at hlt
    -- The bytes before the first word boundary come first.
    refine Due.exact .head .words (fun s => s.t0) (lo - addr.toNat) (m := lo - addr.toNat)
      Nat.one_pos hend (by omega) (fun s hs => by rw [clearStep, hs])
      (fun s _ ht0' _ => by rw [ht0', ht0]; omega) ?_
      ⟨⟨0, start _ _ _, by omega⟩, rfl, rfl, by rw [if_neg (by omega)]⟩
    rintro s ⟨⟨k, hk, hdue⟩, -, ht1', hwordspc⟩
    exact hk.words hend hwordspc (m := m + 1) (Nat.succ_pos m) (by omega) (by rw [ht1', ht1]; omega)
  · next hge' =>
    rw [BitVec.lt_def, ht0] at hge'
    exact (start _ _ _).words hend rfl (m := m + 1) (Nat.succ_pos m) (by omega) (by
      show ((addr + n) &&& _).toNat = _
      rw [ht1]
      omega)

end Run

/-- **`__clear_user` is exact with and without faults**: it halts, clears exactly the bytes before
the number it returns, returns 0 iff no store faults, which is when no byte of the range does, and
sets `SR_PUM` again. -/
theorem clearUser_exact (f : Word w → Bool) (addr n sstatus : Word w) (mem : Word w → Byte)
    (hround : addr.toNat + n.toNat + szreg w ≤ 2 ^ (8 * szreg w)) :
    ∃ e, Ends (clearStep f) (clearUser addr n sstatus mem) e ∧ e.a0.toNat ≤ n.toNat ∧
      (∀ i < n.toNat - e.a0.toNat, e.mem (addr + BitVec.ofNat _ i) = 0) ∧
      (∀ b, (∀ i < n.toNat - e.a0.toNat, b ≠ addr + BitVec.ofNat _ i) → e.mem b = mem b) ∧
      (e.a0 = 0 ↔ e.faulted = false) ∧
      (e.faulted = false ↔ ∀ i < n.toNat, f (addr + BitVec.ofNat _ i) = false) ∧
      e.sstatus &&& srPum ≠ 0 := by
  obtain ⟨⟨e, hends, hpum, k, hle, ha0, hmem, hnone, hfaulted, hsome⟩, -⟩ :=
    @clearUser_halts w f addr n mem hround sstatus
  have hleft : n.toNat - e.a0.toNat = k := by omega
  refine ⟨e, hends, by omega, ?_, ?_, ?_, ?_, hpum⟩
  · intro i hi
    rw [hmem]
    exact storeBytes_at (hleft ▸ hi) (by omega)
  · intro b hb
    rw [hmem]
    exact storeBytes_outside (hleft ▸ hb)
  · rw [← Bool.not_eq_true, hfaulted, ← BitVec.toNat_inj, ha0]
    simp
    omega
  · constructor
    · intro hf i hi
      have hk : k = n.toNat := by
        rw [← Bool.not_eq_true, hfaulted] at hf
        omega
      exact hnone i (hk ▸ hi)
    · intro hno
      by_contra hf
      obtain ⟨i, hi, hfi⟩ := hsome (Bool.not_eq_false _ ▸ hf)
      rw [hno i hi] at hfi
      cases hfi

/-- Clearing 13 bytes from an odd address when the stores from 32 on fault. -/
theorem clearUser_exact_fault :
    ∃ e, Ends (clearStep fun a : Word .rv32 => decide (32 ≤ a))
        (clearUser 21 13 0 fun _ => 7) e ∧ e.a0.toNat ≤ (13 : Word .rv32).toNat ∧
      (∀ i < (13 : Word .rv32).toNat - e.a0.toNat, e.mem (21 + BitVec.ofNat _ i) = 0) ∧
      (∀ b, (∀ i < (13 : Word .rv32).toNat - e.a0.toNat, b ≠ 21 + BitVec.ofNat _ i) →
        e.mem b = 7) ∧
      (e.a0 = 0 ↔ e.faulted = false) ∧
      (e.faulted = false ↔
        ∀ i < (13 : Word .rv32).toNat, decide ((32 : Word .rv32) ≤ 21 + BitVec.ofNat _ i) = false) ∧
      e.sstatus &&& srPum ≠ 0 :=
  clearUser_exact (fun a => decide (32 ≤ a)) 21 13 0 (fun _ => 7) (by decide)

end LowriscLinux.Mm
