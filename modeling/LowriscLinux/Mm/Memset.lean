import LowriscLinux.Mm.MemAccess

/-!
# `memset`

Model of `memset` in `arch/riscv/lib/memset.S`, block by block. Between the bytes before the first
word boundary and those behind the last one it fills words with a loop of 32 stores that is entered
in the middle: the start address is moved back by the stores to be left out, and the register `a5`
holds the address in the code of the first store to be made.

## What models what

* `memset`: the entry, lines 6-18. Less than 16 bytes go to the tail at once.
* `memsetStep`: one block, from one label to the next: the prologue `1:` (lines 20-23), the block
  `2:` (lines 26-56), the stores at `3:` (lines 58-92), the joint `4:` (lines 96 and 97) and the
  tail `5:` (lines 99-101).
* `broadcast`: lines 27-35, with the third shift on RV64 only.
* `enterDevice`: lines 37-56, the end of the loop, the offset into it and the jump. A remainder of 0
  goes to label `3:` (line 42).
* `jumpTo`: `jr a5`. The code address of label `3:` is a parameter (`CodeAddress`); each store there
  is an instruction of 4 bytes (with a base register that has no compressed form), as the comment in
  line 50 assumes.
* `fillByte` and `fillWord`: the stores. A state is at one of the 32 stores, so that a jump
  elsewhere would show (`MemsetExit`).

The accesses are recorded (`Mm/MemAccess.lean`). The range of a caller does not wrap around the
address space; the pointer itself may wrap below its start.

Results:
* `byteAt_broadcast`: every byte of the stored word is the low byte of the argument.
* `Filled.device`: with a whole number of words due, the loop entered in the middle fills them.
* **`memset_exact`**: the routine returns its argument with the range filled and nothing else
  written, and the computed jump goes to one of the 32 stores, with at least one word due.
-/

namespace LowriscLinux.Mm

open Lib Kernel

variable {w : Xlen}

/-- The labels of `memset`, by their numbers in the source, and the 32 stores at label `3:`. -/
inductive MemsetLabel
  | head
  | device
  | store (i : Fin 32)
  | rest
  | tail
  | ret
  deriving DecidableEq, Repr

/-- The registers that `memset` keeps between its blocks, with its place in the code. -/
structure MemsetState (w : Xlen) where
  pc : MemsetLabel
  a0 : Word w
  a1 : Word w
  a2 : Word w
  a3 : Word w
  a4 : Word w
  t0 : Word w
  mem : Recorded w

/-- How `memset` leaves its code: it returns, or it jumps to an address that is not one of the
stores. -/
inductive MemsetExit (w : Xlen)
  | returned (a0 : Word w) (mem : Recorded w)
  | jumped (a5 : Word w)

/-- The address of an instruction. -/
structure CodeAddress (w : Xlen) where
  addr : Word w
  even : addr.toNat % 2 = 0

/-- The low byte of the value in all bytes of a word. -/
def broadcast (a1 : Word w) : Word w :=
  let a1 := a1 &&& 0xff
  let a3 := a1 <<< 8
  let a1 := a3 ||| a1
  let a3 := a1 <<< 16
  let a1 := a3 ||| a1
  if w = .rv64 then
    let a3 := a1 <<< 32
    a3 ||| a1
  else a1

/-- `jr a5`: the place of the next instruction, when it is one of the stores behind `base`. The
lowest bit of the address is ignored. -/
def jumpTo (base : CodeAddress w) (a5 : Word w) : Option (Fin 32) :=
  (List.finRange 32).find? fun i =>
    a5 &&& ~~~1 == base.addr + BitVec.ofNat _ (4 * i.val)

/-- `sb a1`, with the pointer advanced. -/
def fillByte (s : MemsetState w) : MemsetState w :=
  { s with mem := s.mem.store s.t0 1 (byteAt s.a1), t0 := s.t0 + BitVec.ofNat _ 1 }

/-- `REG_S a1`, the store number `i` at label `3:`. -/
def fillWord (s : MemsetState w) (i : Nat) : MemsetState w :=
  { s with mem := s.mem.store (s.t0 + BitVec.ofNat _ (i * szreg w)) (szreg w) (byteAt s.a1) }

/-- The block at label `2:`, up to the jump. -/
def enterDevice (base : CodeAddress w) (s : MemsetState w) : MemsetState w ⊕ MemsetExit w :=
  let a1 := broadcast s.a1
  let a4 := s.a2 &&& ~~~BitVec.ofNat _ (szreg w - 1)
  let a3 := s.t0 + a4
  let a4 := a4 &&& BitVec.ofNat _ (31 * szreg w)
  if a4 = 0 then .inl { s with pc := .store 0, a1 := a1, a3 := a3, a4 := a4 }
  else
    let a4 := -a4 + BitVec.ofNat _ (32 * szreg w)
    let t0 := s.t0 - a4
    let a4 := if w = .rv64 then a4 >>> 1 else a4
    let a5 := base.addr + a4
    match jumpTo base a5 with
    | some i => .inl { s with pc := .store i, a1 := a1, a3 := a3, a4 := a4, t0 := t0 }
    | none => .inr (.jumped a5)

/-- One block of `memset`. -/
def memsetStep (base : CodeAddress w) (s : MemsetState w) : MemsetState w ⊕ MemsetExit w :=
  match s.pc with
  | .head => -- `1:`
    let s := fillByte s
    if s.t0 < s.a3 then .inl s else .inl { s with pc := .device, a2 := s.a2 - s.a4 }
  | .device => enterDevice base s -- `2:`
  | .store i => -- `3:`
    let s := fillWord s i
    if h : i.val + 1 < 32 then .inl { s with pc := .store ⟨i.val + 1, h⟩ }
    else
      let s : MemsetState w := { s with t0 := s.t0 + BitVec.ofNat _ (32 * szreg w) }
      if s.t0 < s.a3 then .inl { s with pc := .store 0 }
      else .inl { s with pc := .rest, a2 := s.a2 &&& BitVec.ofNat _ (szreg w - 1) }
  | .rest => -- `4:`
    if s.a2 = 0 then .inl { s with pc := .ret }
    else .inl { s with pc := .tail, a3 := s.t0 + s.a2 }
  | .tail => -- `5:`
    let s := fillByte s
    if s.t0 < s.a3 then .inl s else .inl { s with pc := .ret }
  | .ret => .inr (.returned s.a0 s.mem) -- `6:`

/-- The entry of `memset`, up to the first jump. -/
def memset (dst c n : Word w) (mem : Recorded w) : MemsetState w :=
  let mask := BitVec.ofNat (8 * szreg w) (szreg w - 1)
  let s : MemsetState w :=
    { pc := .rest, a0 := dst, a1 := c, a2 := n, a3 := if n < 16 then 1 else 0, a4 := 0, t0 := dst,
      mem := mem }
  if s.a3 ≠ 0 then s
  else
    let s := { s with a3 := (s.t0 + mask) &&& ~~~mask }
    if s.a3 = s.t0 then { s with pc := .device }
    else { s with pc := .head, a4 := s.a3 - s.t0 }

/-! ## The stored word -/

/-- **Every byte of the stored word is the low byte of the value.** -/
theorem byteAt_broadcast (a1 : Word w) {i : Nat} (hi : i < szreg w) :
    byteAt (broadcast a1) i = byteAt a1 0 := by
  have hmask : ∀ i < szreg w, byteAt (a1 &&& 0xff) i = if i < 1 then byteAt a1 0 else 0 := by
    intro i hi
    ext j hj
    have hff : (BitVec.ofNat (8 * szreg w) (2 ^ 8 - 1)).getLsbD (8 * i + j) =
        decide (8 * i + j < 8) := by
      have hlt : 8 * i + j < 8 * szreg w := by omega
      rw [BitVec.getLsbD_ofNat, Nat.testBit_two_pow_sub_one]
      simp [hlt]
    have hconst : (0xff : Word w) = BitVec.ofNat (8 * szreg w) (2 ^ 8 - 1) := rfl
    unfold byteAt
    rw [hconst, BitVec.getElem_extractLsb', BitVec.getLsbD_and, hff]
    by_cases hi0 : i < 1
    · obtain rfl : i = 0 := by omega
      simp [hj]
    · simp [hi0, show ¬ 8 * i + j < 8 by omega]
  have htwo := byteAt_double hmask
  have hfour := byteAt_double htwo
  have height := byteAt_double hfour
  unfold broadcast
  dsimp only
  cases w with
  | rv32 => exact (hfour i hi).trans (if_pos (by exact hi))
  | rv64 => exact (height i hi).trans (if_pos (by exact hi))

/-! ## The jump -/

theorem toNat_and_not_one (a : Word w) (heven : a.toNat % 2 = 0) : a &&& ~~~1 = a := by
  have h := toNat_and_not_mask a 1
  apply BitVec.eq_of_toNat_eq
  have hone : (1 : Word w) = BitVec.ofNat (8 * szreg w) (2 ^ 1 - 1) := rfl
  rw [hone, h]
  omega

/-- **The jump goes to the store whose address is in the register.** -/
theorem jumpTo_store (base : CodeAddress w) (i : Fin 32) :
    jumpTo base (base.addr + BitVec.ofNat _ (4 * i.val)) = some i := by
  have hbig : 128 < 2 ^ (8 * szreg w) := by cases w <;> decide
  have heven : (base.addr + BitVec.ofNat _ (4 * i.val)).toNat % 2 = 0 := by
    have hbase := base.even
    have htwo : 2 ∣ 2 ^ (8 * szreg w) := by cases w <;> decide
    rw [BitVec.toNat_add, BitVec.toNat_ofNat, Nat.mod_eq_of_lt (show 4 * i.val < _ by omega),
      Nat.mod_mod_of_dvd _ htwo]
    omega
  have hfound : ∀ j : Fin 32, ((base.addr + BitVec.ofNat _ (4 * i.val)) &&& ~~~1 ==
      base.addr + BitVec.ofNat _ (4 * j.val)) = true ↔ j = i := by
    intro j
    rw [toNat_and_not_one _ heven, beq_iff_eq, BitVec.add_right_inj, ← BitVec.toNat_inj,
      BitVec.toNat_ofNat, BitVec.toNat_ofNat, Nat.mod_eq_of_lt (by omega),
      Nat.mod_eq_of_lt (by omega)]
    omega
  cases hj : jumpTo base (base.addr + BitVec.ofNat _ (4 * i.val)) with
  | none =>
    have hnone := List.find?_eq_none.mp hj i (List.mem_finRange i)
    exact absurd ((hfound i).mpr rfl) hnone
  | some j =>
    unfold jumpTo at hj
    have hsome := List.find?_some hj
    rw [(hfound j).mp hsome]

/-! ## Filled prefixes -/

/-- The first `k` bytes are filled, and all accesses are stores to the range. -/
structure Filled (dst n : Word w) (b : Byte) (mem : Word w → Byte) (k : Nat) (m : Recorded w) :
    Prop where
  mem : m.mem = storeBytes mem dst k fun _ => b
  log : ∀ acc ∈ m.log, acc.write = true ∧ acc.Within dst n.toNat
  le : k ≤ n.toNat

/-- One store moves the filled prefix forward. -/
theorem Filled.store {dst n : Word w} {b : Byte} {mem : Word w → Byte} {k size : Nat}
    {m : Recorded w} {v : Nat → Byte} (h : Filled dst n b mem k m)
    (hdst : dst.toNat + n.toNat < 2 ^ (8 * szreg w)) (hsize : 0 < size) (hk : k + size ≤ n.toNat)
    (hv : ∀ i < size, v i = b) :
    Filled dst n b mem (k + size) (m.store (dst + BitVec.ofNat _ k) size v) := by
  refine ⟨?_, ?_, hk⟩
  · rw [Recorded.store, h.mem, storeBytes_congr hv]
    exact storeBytes_append (by omega)
  · intro acc hacc
    simp only [Recorded.store, List.mem_cons] at hacc
    rcases hacc with rfl | hold
    · exact ⟨rfl, MemAccess.within_add (by omega) hsize hk true⟩
    · exact h.log acc hold

/-! ## Runs -/

/-- The state between two loops: the pointer is behind the filled prefix and `a1` holds the
byte. -/
structure MemsetAt (dst n : Word w) (b : Byte) (mem : Word w → Byte) (k : Nat)
    (s : MemsetState w) : Prop where
  a0 : s.a0 = dst
  a1 : byteAt s.a1 0 = b
  t0 : s.t0 = dst + BitVec.ofNat _ k
  filled : Filled dst n b mem k s.mem

/-- When the block before the jump is reached, a word is due and the jump goes to one of the
stores. -/
def JumpLands (base : CodeAddress w) (s : MemsetState w) : Prop :=
  s.pc = .device → szreg w ≤ s.a2.toNat ∧
    ∃ s' i, memsetStep base s = .inl s' ∧ s'.pc = .store i

/-- The routine returns its argument with the range filled. -/
def MemsetExact (base : CodeAddress w) (dst n : Word w) (b : Byte) (mem : Word w → Byte)
    (s : MemsetState w) : Prop :=
  Halts (memsetStep base) (JumpLands base)
    (fun e => ∃ m, e = .returned dst m ∧ Filled dst n b mem n.toNat m) s

namespace MemsetAt

variable {base : CodeAddress w} {dst n : Word w} {b : Byte} {mem : Word w → Byte} {k : Nat}
  {s : MemsetState w}

theorem t0_toNat (h : MemsetAt dst n b mem k s) (hdst : dst.toNat + n.toNat < 2 ^ (8 * szreg w)) :
    s.t0.toNat = dst.toNat + k := by
  have hle := h.filled.le
  rw [h.t0]
  exact toNat_add_lt (by omega)

/-- Only the pointer, the value and memory matter for the progress. -/
theorem congr (h : MemsetAt dst n b mem k s) {t : MemsetState w} (ha0 : t.a0 = s.a0)
    (ha1 : t.a1 = s.a1) (ht0 : t.t0 = s.t0) (hmem : t.mem = s.mem) : MemsetAt dst n b mem k t :=
  ⟨ha0.trans h.a0, ha1 ▸ h.a1, ht0.trans h.t0, hmem ▸ h.filled⟩

theorem fillByte (h : MemsetAt dst n b mem k s) (hdst : dst.toNat + n.toNat < 2 ^ (8 * szreg w))
    (hk : k + 1 ≤ n.toNat) : MemsetAt dst n b mem (k + 1) (fillByte s) := by
  refine ⟨h.a0, h.a1, ?_, ?_⟩
  · simp only [Mm.fillByte, h.t0, add_ofNat_add]
  · simp only [Mm.fillByte, h.t0]
    refine h.filled.store hdst Nat.one_pos hk fun i hi => ?_
    obtain rfl : i = 0 := by omega
    exact h.a1

/-- **A byte loop of `memset` with `m` bytes due.** -/
theorem loop (goal : Nat) (pc : MemsetLabel) (leave : MemsetState w → MemsetState w) {m : Nat}
    {a2 a4 : Word w} (hdst : dst.toNat + n.toNat < 2 ^ (8 * szreg w)) (hgoal : goal ≤ n.toNat)
    (hpcne : pc ≠ .device)
    (hcode : ∀ s : MemsetState w, s.pc = pc → memsetStep base s =
      if (Mm.fillByte s).t0 < (Mm.fillByte s).a3 then .inl (Mm.fillByte s)
      else .inl (leave (Mm.fillByte s)))
    (hexit : ∀ s, MemsetAt dst n b mem goal s → s.a2 = a2 → s.a4 = a4 →
      MemsetExact base dst n b mem (leave s))
    (h : MemsetAt dst n b mem k s) (hdue : k + (m + 1) = goal) (hpc : s.pc = pc)
    (ha2 : s.a2 = a2) (ha3 : s.a3.toNat = dst.toNat + goal) (ha4 : s.a4 = a4) :
    MemsetExact base dst n b mem s := by
  refine Halts.loop (m := m + 1) (I := fun m s => if m = 0 then MemsetExact base dst n b mem s
    else ∃ k, MemsetAt dst n b mem k s ∧ k + m = goal ∧ s.pc = pc ∧ s.a2 = a2 ∧
      s.a3.toNat = dst.toNat + goal ∧ s.a4 = a4) ?_ ?_ ?_
  · rintro m s hs
    rw [if_neg (Nat.succ_ne_zero m)] at hs
    obtain ⟨k, h, hdue, hpc, ha2, ha3, ha4⟩ := hs
    have hnext := h.fillByte hdst (by omega)
    have hcur := hnext.t0_toNat hdst
    refine ⟨fun hdevice => absurd (hpc.symm.trans hdevice) hpcne, Or.inr ?_⟩
    rw [hcode s hpc]
    have hiff : (Mm.fillByte s).t0 < (Mm.fillByte s).a3 ↔ m ≠ 0 := by
      rw [BitVec.lt_def, hcur]
      show _ < s.a3.toNat ↔ _
      omega
    by_cases hm : m = 0
    · rw [if_neg (fun hlt => hiff.mp hlt hm)]
      refine ⟨_, rfl, ?_⟩
      rw [if_pos hm]
      obtain rfl : k + 1 = goal := by omega
      exact hexit _ hnext ha2 ha4
    · rw [if_pos (hiff.mpr hm)]
      refine ⟨_, rfl, ?_⟩
      rw [if_neg hm]
      exact ⟨_, hnext, by omega, hpc, ha2, ha3, ha4⟩
  · intro s hs
    rwa [if_pos rfl] at hs
  · rw [if_neg (Nat.succ_ne_zero m)]
    exact ⟨k, h, hdue, hpc, ha2, ha3, ha4⟩

theorem ret (h : MemsetAt dst n b mem n.toNat s) (hpc : s.pc = .ret) :
    MemsetExact base dst n b mem s := by
  have hcode : memsetStep base s = .inr (.returned s.a0 s.mem) := by rw [memsetStep, hpc]
  refine .last (fun hdevice => ?_) hcode ⟨s.mem, by rw [h.a0], h.filled⟩
  rw [hpc] at hdevice
  cases hdevice

/-- From label `4:` the remaining bytes are filled. -/
theorem rest (h : MemsetAt dst n b mem k s) (hdst : dst.toNat + n.toNat < 2 ^ (8 * szreg w))
    (hpc : s.pc = .rest) (ha2 : s.a2.toNat = n.toNat - k) : MemsetExact base dst n b mem s := by
  have hle := h.filled.le
  have hlands : JumpLands base s := by
    intro hdevice
    rw [hpc] at hdevice
    cases hdevice
  have hcode : memsetStep base s = if s.a2 = 0 then .inl { s with pc := .ret }
      else .inl { s with pc := .tail, a3 := s.t0 + s.a2 } := by
    rw [memsetStep, hpc]
  have hzero : s.a2 = 0 ↔ k = n.toNat := by
    rw [← BitVec.toNat_inj, ha2]
    simp
    omega
  by_cases hk : k = n.toNat
  · rw [if_pos (hzero.mpr hk)] at hcode
    exact .next hlands hcode (MemsetAt.ret (hk ▸ h.congr rfl rfl rfl rfl) rfl)
  · rw [if_neg (mt hzero.mp hk)] at hcode
    have hend : (s.t0 + s.a2).toNat = dst.toNat + n.toNat := by
      rw [BitVec.toNat_add, h.t0_toNat hdst, ha2, Nat.mod_eq_of_lt (by omega)]
      omega
    refine .next hlands hcode ?_
    refine MemsetAt.loop n.toNat .tail (fun s => { s with pc := .ret }) (m := n.toNat - k - 1)
      hdst (Nat.le_refl _) (by decide) (fun s hs => ?_)
      (fun s h _ _ => MemsetAt.ret (h.congr rfl rfl rfl rfl) rfl)
      (h.congr rfl rfl rfl rfl) (by omega) rfl rfl hend rfl
    rw [memsetStep, hs]

end MemsetAt

/-- The unrolled loop with `m` words due, up to the byte `goal` of the range. The pointer is moved
back, so that the store number `i` is the one that goes behind the filled prefix. -/
structure InDevice (dst n : Word w) (b : Byte) (mem : Word w → Byte) (goal : Nat) (a2 : Word w)
    (m k : Nat) (i : Fin 32) (s : MemsetState w) : Prop where
  pc : s.pc = .store i
  a0 : s.a0 = dst
  a1 : ∀ j < szreg w, byteAt s.a1 j = b
  a2 : s.a2 = a2
  a3 : s.a3.toNat = dst.toNat + goal
  t0 : s.t0 + BitVec.ofNat _ (i.val * szreg w) = dst + BitVec.ofNat _ k
  filled : Filled dst n b mem k s.mem
  due : k + m * szreg w = goal
  rounds : 32 ∣ m + i.val

section Device

variable {base : CodeAddress w} {dst n : Word w} {b : Byte} {mem : Word w → Byte} {a2 : Word w}
  {goal m k : Nat} {i : Fin 32} {s : MemsetState w}

/-- One store of the unrolled loop, which leaves the loop when it is the last one due. -/
theorem InDevice.next (h : InDevice dst n b mem goal a2 (m + 1) k i s)
    (hdst : dst.toNat + n.toNat < 2 ^ (8 * szreg w)) (hgoal : goal ≤ n.toNat) :
    ∃ s', memsetStep base s = .inl s' ∧
      if m = 0 then s'.pc = .rest ∧ MemsetAt dst n b mem goal s' ∧
        s'.a2 = a2 &&& BitVec.ofNat _ (szreg w - 1)
      else ∃ j, InDevice dst n b mem goal a2 m (k + szreg w) j s' := by
  have hpos := szreg_pos w
  have hdue := h.due
  have hrounds := h.rounds
  rw [Nat.succ_mul] at hdue
  have hfilled : Filled dst n b mem (k + szreg w) (fillWord s i.val).mem := by
    simp only [fillWord, h.t0]
    exact h.filled.store hdst hpos (by omega) h.a1
  have hcode : memsetStep base s = if hi : i.val + 1 < 32
      then .inl { fillWord s i.val with pc := .store ⟨i.val + 1, hi⟩ }
      else if (fillWord s i.val).t0 + BitVec.ofNat _ (32 * szreg w) < (fillWord s i.val).a3
      then .inl { fillWord s i.val with
        pc := .store 0, t0 := (fillWord s i.val).t0 + BitVec.ofNat _ (32 * szreg w) }
      else .inl { fillWord s i.val with
        pc := .rest
        t0 := (fillWord s i.val).t0 + BitVec.ofNat _ (32 * szreg w)
        a2 := (fillWord s i.val).a2 &&& BitVec.ofNat _ (szreg w - 1) } := by
    rw [memsetStep, h.pc]
  by_cases hi : i.val + 1 < 32
  · rw [dif_pos hi] at hcode
    have hm : m ≠ 0 := by
      rintro rfl
      omega
    refine ⟨_, hcode, ?_⟩
    rw [if_neg hm]
    refine ⟨⟨i.val + 1, hi⟩, rfl, h.a0, h.a1, h.a2, h.a3, ?_, hfilled, by omega, ?_⟩
    · show s.t0 + BitVec.ofNat _ ((i.val + 1) * szreg w) = _
      rw [Nat.succ_mul i.val, ← add_ofNat_add, ← add_ofNat_add, h.t0]
    · show 32 ∣ m + (i.val + 1)
      omega
  · rw [dif_neg hi] at hcode
    -- The last of the 32 stores: the pointer moves on behind the filled prefix.
    have hi31 : i.val = 31 := by omega
    have ht0 : s.t0 + BitVec.ofNat _ (32 * szreg w) = dst + BitVec.ofNat _ (k + szreg w) := by
      rw [← add_ofNat_add, ← h.t0, hi31, add_ofNat_add, ← Nat.succ_mul 31]
    have hcur : (dst + BitVec.ofNat _ (k + szreg w)).toNat = dst.toNat + (k + szreg w) :=
      toNat_add_lt (by omega)
    have hiff : (fillWord s i.val).t0 + BitVec.ofNat _ (32 * szreg w) < (fillWord s i.val).a3 ↔
        m ≠ 0 := by
      show s.t0 + _ < s.a3 ↔ _
      rw [BitVec.lt_def, ht0, hcur, h.a3]
      constructor
      · rintro hlt rfl
        omega
      · intro hm
        have hmul := Nat.mul_pos (Nat.pos_of_ne_zero hm) hpos
        omega
    by_cases hm : m = 0
    · rw [if_neg (fun hlt => hiff.mp hlt hm)] at hcode
      refine ⟨_, hcode, ?_⟩
      rw [if_pos hm]
      have hlast : k + szreg w = goal := by
        rw [hm] at hdue
        omega
      refine ⟨rfl, ⟨h.a0, h.a1 0 hpos, ht0.trans (by rw [hlast]), hlast ▸ hfilled⟩, ?_⟩
      show s.a2 &&& _ = _
      rw [h.a2]
    · rw [if_pos (hiff.mpr hm)] at hcode
      refine ⟨_, hcode, ?_⟩
      rw [if_neg hm]
      refine ⟨0, rfl, h.a0, h.a1, h.a2, h.a3, ?_, hfilled, by omega, ?_⟩
      · show s.t0 + _ + BitVec.ofNat _ ((0 : Fin 32).val * szreg w) = _
        rw [ht0, add_ofNat_add]
        simp
      · show 32 ∣ m + 0
        omega

/-- **The unrolled loop fills the words that are due.** -/
theorem InDevice.exact (h : InDevice dst n b mem goal a2 m k i s) (hm : 0 < m)
    (hdst : dst.toNat + n.toNat < 2 ^ (8 * szreg w)) (hgoal : goal ≤ n.toNat)
    (ha2 : a2.toNat % szreg w = n.toNat - goal) : MemsetExact base dst n b mem s := by
  refine Halts.loop (m := m) (I := fun m s => if m = 0 then MemsetExact base dst n b mem s
    else ∃ k i, InDevice dst n b mem goal a2 m k i s) ?_ ?_ ?_
  · rintro m s hs
    rw [if_neg (Nat.succ_ne_zero m)] at hs
    obtain ⟨k, i, h⟩ := hs
    obtain ⟨s', hstep, hs'⟩ : ∃ s', memsetStep base s = .inl s' ∧ _ := h.next hdst hgoal
    refine ⟨fun hdevice => absurd (h.pc.symm.trans hdevice) (by simp), Or.inr ⟨s', hstep, ?_⟩⟩
    by_cases hm : m = 0
    · rw [if_pos hm] at hs' ⊢
      obtain ⟨hpc, hat, ha2'⟩ := hs'
      refine hat.rest hdst hpc ?_
      rw [ha2', toNat_and_szreg, ha2]
    · rw [if_neg hm] at hs' ⊢
      exact ⟨_, hs'⟩
  · intro s hs
    rwa [if_pos rfl] at hs
  · rw [if_neg (Nat.pos_iff_ne_zero.mp hm)]
    exact ⟨k, i, h⟩

end Device

/-! ## The way into the loop -/

/-- The words left over by whole rounds of 32. -/
theorem toNat_and_remainder {a : Word w} {q : Nat} (ha : a.toNat = q * szreg w) :
    (a &&& BitVec.ofNat _ (31 * szreg w)).toNat = q % 32 * szreg w := by
  obtain ⟨j, hj, -⟩ := szreg_two_pow w
  have hlt : 31 * szreg w < 2 ^ (8 * szreg w) := by cases w <;> decide
  rw [BitVec.toNat_and, BitVec.toNat_ofNat, Nat.mod_eq_of_lt hlt, ha, hj, ← Nat.shiftLeft_eq,
    ← Nat.shiftLeft_eq, ← Nat.shiftLeft_and_distrib, Nat.shiftLeft_eq,
    show 31 = 2 ^ 5 - 1 from rfl, Nat.and_two_pow_sub_one_eq_mod]

/-- The bytes of the stores to be left out. -/
theorem offset_eq {a : Word w} {r : Nat} (hr : r ≤ 32) (ha : a.toNat = r * szreg w) :
    -a + BitVec.ofNat _ (32 * szreg w) = BitVec.ofNat _ ((32 - r) * szreg w) := by
  have hlt : 32 * szreg w < 2 ^ (8 * szreg w) := by cases w <;> decide
  have ha' : a = BitVec.ofNat _ (r * szreg w) := by
    rw [← ha, BitVec.ofNat_toNat, BitVec.setWidth_eq]
  have hsum : BitVec.ofNat (8 * szreg w) (32 * szreg w) =
      BitVec.ofNat _ ((32 - r) * szreg w) + a := by
    rw [ha', ← BitVec.ofNat_add, ← Nat.add_mul, Nat.sub_add_cancel hr]
  rw [hsum, BitVec.add_comm, BitVec.add_assoc, ← BitVec.sub_eq_add_neg, BitVec.sub_self,
    BitVec.add_zero]

/-- Half of the bytes on RV64 and all of them on RV32 are the bytes of as many instructions. -/
theorem code_offset {i : Nat} (hi : i ≤ 32) :
    (if w = .rv64 then BitVec.ofNat (8 * szreg w) (i * szreg w) >>> 1
      else BitVec.ofNat (8 * szreg w) (i * szreg w)) = BitVec.ofNat _ (4 * i) := by
  cases w with
  | rv32 =>
    rw [if_neg (by decide)]
    show BitVec.ofNat _ (i * 4) = _
    rw [Nat.mul_comm i]
  | rv64 =>
    rw [if_pos rfl]
    apply BitVec.eq_of_toNat_eq
    show (BitVec.ofNat 64 (i * 8) >>> 1).toNat = (BitVec.ofNat 64 (4 * i)).toNat
    rw [BitVec.toNat_ushiftRight, BitVec.toNat_ofNat, BitVec.toNat_ofNat,
      Nat.shiftRight_eq_div_pow]
    omega

namespace MemsetAt

variable {base : CodeAddress w} {dst n : Word w} {b : Byte} {mem : Word w → Byte} {k : Nat}
  {s : MemsetState w}

/-- **The jump goes into the loop with the words due that the range has left.** -/
theorem enter (h : MemsetAt dst n b mem k s) (hdst : dst.toNat + n.toNat < 2 ^ (8 * szreg w))
    (hpc : s.pc = .device) (ha2 : s.a2.toNat = n.toNat - k) :
    ∃ s' i, memsetStep base s = .inl s' ∧
      InDevice dst n b mem (k + s.a2.toNat / szreg w * szreg w) s.a2 (s.a2.toNat / szreg w) k i
        s' := by
  have hle := h.filled.le
  have hround := toNat_and_not_szreg s.a2
  have hdown := Nat.div_mul_le_self s.a2.toNat (szreg w)
  have hbyte : ∀ j < szreg w, byteAt (broadcast s.a1) j = b := fun j hj =>
    (byteAt_broadcast s.a1 hj).trans h.a1
  have hend : (s.t0 + (s.a2 &&& ~~~BitVec.ofNat _ (szreg w - 1))).toNat =
      dst.toNat + (k + s.a2.toNat / szreg w * szreg w) := by
    rw [BitVec.toNat_add, h.t0_toNat hdst, hround, Nat.mod_eq_of_lt (by omega), Nat.add_assoc]
  have hrem := toNat_and_remainder hround
  generalize s.a2.toNat / szreg w = q at *
  unfold memsetStep
  rw [hpc]
  dsimp only
  unfold enterDevice
  dsimp only
  by_cases hq : q % 32 = 0
  · rw [if_pos (BitVec.eq_of_toNat_eq (by rw [hrem, hq, Nat.zero_mul]; rfl))]
    refine ⟨_, 0, rfl, rfl, h.a0, hbyte, rfl, hend, ?_, h.filled, rfl, ?_⟩
    · show s.t0 + BitVec.ofNat _ (0 * szreg w) = _
      rw [h.t0]
      simp
    · show 32 ∣ q + 0
      omega
  · have hpos := szreg_pos w
    have hne : s.a2 &&& ~~~BitVec.ofNat _ (szreg w - 1) &&& BitVec.ofNat _ (31 * szreg w) ≠ 0 := by
      intro hzero
      have hmul := Nat.mul_pos (Nat.pos_of_ne_zero hq) hpos
      rw [← hrem, hzero] at hmul
      exact absurd hmul (by simp)
    have hi : 32 - q % 32 < 32 := by omega
    rw [if_neg hne, offset_eq (by omega) hrem, code_offset (by omega),
      jumpTo_store base ⟨32 - q % 32, hi⟩]
    refine ⟨_, ⟨32 - q % 32, hi⟩, rfl, rfl, h.a0, hbyte, rfl, hend, ?_, h.filled, rfl, ?_⟩
    · show s.t0 - BitVec.ofNat _ ((32 - q % 32) * szreg w) +
        BitVec.ofNat _ ((32 - q % 32) * szreg w) = _
      rw [BitVec.sub_add_cancel, h.t0]
    · show 32 ∣ q + (32 - q % 32)
      omega

/-- From label `2:` the words that fit are filled, when there is one. -/
theorem device (h : MemsetAt dst n b mem k s) (hdst : dst.toNat + n.toNat < 2 ^ (8 * szreg w))
    (hpc : s.pc = .device) (ha2 : s.a2.toNat = n.toNat - k) (hword : szreg w ≤ s.a2.toNat) :
    MemsetExact base dst n b mem s := by
  have hle := h.filled.le
  have hpos := szreg_pos w
  have hdiv := Nat.div_add_mod s.a2.toNat (szreg w)
  rw [Nat.mul_comm] at hdiv
  obtain ⟨s', i, hstep, hin⟩ :
      ∃ s' i, memsetStep base s = .inl s' ∧ InDevice dst n b mem _ s.a2 _ k i s' :=
    h.enter hdst hpc ha2
  refine .next (fun _ => ⟨hword, s', i, hstep, hin.pc⟩) hstep ?_
  exact hin.exact (Nat.div_pos hword hpos) hdst (by omega) (by omega)

/-- From label `1:` the bytes before the first word boundary are filled first. -/
theorem head (h : MemsetAt dst n b mem 0 s) (hdst : dst.toNat + n.toNat < 2 ^ (8 * szreg w))
    (hpc : s.pc = .head) (ha2 : s.a2 = n) {m : Nat} (hm : m + 1 + szreg w ≤ n.toNat)
    (ha3 : s.a3.toNat = dst.toNat + (m + 1)) (ha4 : s.a4.toNat = m + 1) :
    MemsetExact base dst n b mem s := by
  refine MemsetAt.loop (m + 1) .head (fun s => { s with pc := .device, a2 := s.a2 - s.a4 })
    (m := m) hdst (by omega) (by decide) (fun s hs => ?_)
    (fun t h ha2' ha4' => ?_) h (by omega) hpc ha2 ha3 rfl
  · rw [memsetStep, hs]
  · have hleft : (t.a2 - t.a4).toNat = n.toNat - (m + 1) := by
      rw [ha2', ha4', toNat_sub_ite, ha4, if_pos (by omega)]
    refine MemsetAt.device (h.congr rfl rfl rfl rfl) hdst rfl hleft ?_
    show szreg w ≤ (t.a2 - t.a4).toNat
    omega

end MemsetAt

/-- The routine fills all bytes. -/
theorem memset_halts (base : CodeAddress w) {dst n : Word w} {mem : Word w → Byte} (c : Word w)
    (hdst : dst.toNat + n.toNat < 2 ^ (8 * szreg w)) :
    MemsetExact base dst n (byteAt c 0) mem (memset dst c n ⟨mem, []⟩) := by
  have hpos := szreg_pos w
  have start : ∀ (pc : MemsetLabel) (a3 a4 : Word w), MemsetAt dst n (byteAt c 0) mem 0
      { pc := pc, a0 := dst, a1 := c, a2 := n, a3 := a3, a4 := a4, t0 := dst,
        mem := ⟨mem, []⟩ } := fun pc a3 a4 =>
    ⟨rfl, rfl, by simp, ⟨by funext b; simp [storeBytes], by simp, Nat.zero_le _⟩⟩
  have hone : (1 : Word w) ≠ 0 := by cases w <;> decide
  unfold memset
  dsimp only
  by_cases hshort : n < 16
  · rw [if_pos hshort, if_pos hone]
    exact (start _ _ _).rest hdst rfl (by simp)
  have hn : 16 ≤ n.toNat := by
    have hconst : (16 : Word w).toNat = 16 := by cases w <;> rfl
    rw [BitVec.lt_def, hconst] at hshort
    omega
  rw [if_neg hshort, if_neg (not_not.mpr rfl)]
  have hsz : szreg w ≤ 8 := by cases w <;> decide
  have hround : ((dst + BitVec.ofNat (8 * szreg w) (szreg w - 1)) &&&
      ~~~BitVec.ofNat (8 * szreg w) (szreg w - 1)).toNat =
        (dst.toNat + (szreg w - 1)) / szreg w * szreg w := by
    rw [toNat_and_not_szreg, toNat_add_lt (by omega)]
  have hge := @le_round_up dst.toNat _ hpos
  have hdown := Nat.div_mul_le_self (dst.toNat + (szreg w - 1)) (szreg w)
  split
  · refine (start _ _ _).device hdst rfl (by simp) ?_
    show szreg w ≤ n.toNat
    omega
  · next hne =>
    rw [← BitVec.toNat_inj, hround] at hne
    generalize (dst.toNat + (szreg w - 1)) / szreg w * szreg w = first at *
    refine (start _ _ _).head hdst rfl rfl (m := first - dst.toNat - 1) (by omega) ?_ ?_
    · refine hround.trans ?_
      omega
    · show (_ - dst).toNat = _
      rw [toNat_sub_ite, hround, if_pos hge]
      omega

/-- **`memset` fills exactly its range**: it halts, returns its argument, sets the bytes of the
range to the low byte of the value, and makes no access but stores to the range. Its jump goes to
one of the 32 stores, and is made only with a word due. -/
theorem memset_exact (base : CodeAddress w) (dst c n : Word w) (mem : Word w → Byte)
    (hdst : dst.toNat + n.toNat < 2 ^ (8 * szreg w)) :
    (∃ m, Ends (memsetStep base) (memset dst c n ⟨mem, []⟩) (.returned dst m) ∧
      (∀ i < n.toNat, m.mem (dst + BitVec.ofNat _ i) = c.setWidth 8) ∧
      (∀ a, (∀ i < n.toNat, a ≠ dst + BitVec.ofNat _ i) → m.mem a = mem a) ∧
      ∀ acc ∈ m.log, acc.write = true ∧ acc.Within dst n.toNat) ∧
    ∀ s, Visits (memsetStep base) (memset dst c n ⟨mem, []⟩) s → s.pc = .device →
      szreg w ≤ s.a2.toNat ∧ ∃ s' i, memsetStep base s = .inl s' ∧ s'.pc = .store i := by
  obtain ⟨⟨e, hends, m, rfl, hfilled⟩, hvisits⟩ := @memset_halts w base dst n mem c hdst
  refine ⟨⟨m, hends, fun i hi => ?_, fun a ha => ?_, hfilled.log⟩, hvisits⟩
  · rw [hfilled.mem, storeBytes_at hi (hi.trans n.isLt)]
    ext j hj
    simp [byteAt]
  · rw [hfilled.mem]
    exact storeBytes_outside ha

/-- Filling 300 bytes from an odd address. -/
theorem memset_exact_unaligned :
    (∃ m : Recorded .rv64,
      Ends (memsetStep ⟨0x1000, by decide⟩) (memset 1003 0x15a 300 ⟨fun _ => 7, []⟩)
        (.returned 1003 m) ∧
      (∀ i < (300 : Word .rv64).toNat, m.mem (1003 + BitVec.ofNat _ i) = 0x5a) ∧
      (∀ a, (∀ i < (300 : Word .rv64).toNat, a ≠ 1003 + BitVec.ofNat _ i) → m.mem a = 7) ∧
      ∀ acc ∈ m.log, acc.write = true ∧ acc.Within 1003 (300 : Word .rv64).toNat) ∧
    ∀ s : MemsetState .rv64,
      Visits (memsetStep ⟨0x1000, by decide⟩) (memset 1003 0x15a 300 ⟨fun _ => 7, []⟩) s →
        s.pc = .device → szreg .rv64 ≤ s.a2.toNat ∧
          ∃ s' i, memsetStep ⟨0x1000, by decide⟩ s = .inl s' ∧ s'.pc = .store i :=
  memset_exact ⟨0x1000, by decide⟩ 1003 0x15a 300 (fun _ => 7) (by decide)

end LowriscLinux.Mm
