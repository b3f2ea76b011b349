import LowriscLinux.Mm.MemAccess

/-!
# Copies without faults

What `__copy_user` of `Mm/Uaccess.lean` does when no byte of its ranges faults, access by access.

* `CopyState.accesses`: the loads and stores of the block that comes next, in the code of
  `arch/riscv/lib/uaccess.S`: one load and one store in each round of the loops (lines 40, 41, 56,
  57, 63 and 64), and none elsewhere. A block goes to the fixup iff one of them faults, so none is
  left out of the list.
* `SameOffset`: the word loop is only entered when both addresses have the same offset in a word
  (line 28), which is why its accesses are aligned on both sides.

The caller's ranges do not wrap around the address space, do not overlap, and the source stays clear
of its last word (`Ranges`, `Clear`).

Results:
* `copyStep_faulted_iff`: the accesses of a block are those whose faults it sees.
* `CopyInv.accesses`: at each label the accesses lie in the two ranges and are aligned.
* **`copyUser_exact`**: without faults the copy returns 0 with the destination equal to the old
  source, every other byte kept, and every access inside its range and naturally aligned.
-/

namespace LowriscLinux.Mm

open Lib Kernel

variable {w : Xlen} {f : Faults w} {dst src n : Word w} {mem : Word w → Byte}
  {s s' : CopyState w} {e : CopyExit w}

/-- The load and the store of a copy loop. -/
def CopyState.moves (s : CopyState w) (size : Nat) : List (MemAccess w) :=
  [⟨false, s.a1, size⟩, ⟨true, s.a0, size⟩]

/-- The accesses of the block that comes next. -/
def CopyState.accesses (s : CopyState w) : List (MemAccess w) :=
  match s.pc with
  | .words => s.moves (szreg w)
  | .check => []
  | .done => []
  | .head => s.moves 1
  | .tail => s.moves 1

theorem copyLoop_faulted_iff (size : Nat) (bound : Word w) (loop next : Label) :
    (∃ e, copyLoop f size bound loop next s = .inr e ∧ e.faulted = true) ↔
      ∃ acc ∈ s.moves size, acc.faults f = true := by
  have hiff : (∃ acc ∈ s.moves size, acc.faults f = true) ↔
      faultsAt f.load s.a1 size = true ∨ faultsAt f.store s.a0 size = true := by
    simp [CopyState.moves, MemAccess.faults]
  rw [hiff]
  unfold copyLoop
  by_cases hload : faultsAt f.load s.a1 size = true
  · simp [hload, copyFixup]
  by_cases hstore : faultsAt f.store s.a0 size = true
  · simp [hload, hstore, copyFixup]
  · simp [hload, hstore]

/-- **The accesses of a block are those whose faults it sees.** -/
theorem copyStep_faulted_iff (f : Faults w) (s : CopyState w) :
    (∃ e, copyStep f s = .inr e ∧ e.faulted = true) ↔
      ∃ acc ∈ s.accesses, acc.faults f = true := by
  unfold copyStep CopyState.accesses
  cases s.pc with
  | words => exact copyLoop_faulted_iff _ _ _ _
  | check => simp
  | done => simp
  | head => exact copyLoop_faulted_iff _ _ _ _
  | tail => exact copyLoop_faulted_iff _ _ _ _

/-- The word loop is only entered when both addresses have the same offset in a word. -/
def SameOffset (dst src : Word w) (s : CopyState w) : Prop :=
  s.pc = .words ∨ s.pc = .head → dst.toNat % szreg w = src.toNat % szreg w

theorem copyUser_sameOffset (sstatus : Word w) :
    SameOffset dst src (copyUser dst src n sstatus mem) := by
  unfold copyUser SameOffset
  dsimp only
  split_ifs with hoffset hle hlt
  · simp
  · simp
  · exact fun _ => (same_offset_iff dst src).mp (not_not.mp hoffset)
  · exact fun _ => (same_offset_iff dst src).mp (not_not.mp hoffset)

/-- A copy loop goes to one of its two labels. -/
theorem copyLoop_pc {size : Nat} {bound : Word w} {loop next : Label}
    (h : copyLoop f size bound loop next s = .inl s') : s'.pc = loop ∨ s'.pc = next := by
  rcases copyLoop_cases f size bound loop next s with ⟨hfault, -⟩ | ⟨heq, -⟩
  · rw [hfault] at h
    cases h
  · obtain rfl := Sum.inl.inj (heq.symm.trans h)
    dsimp only
    split
    · exact Or.inl rfl
    · exact Or.inr rfl

theorem SameOffset.next (h : SameOffset dst src s) (hstep : copyStep f s = .inl s') :
    SameOffset dst src s' := by
  intro hpc'
  unfold copyStep at hstep
  cases hpc : s.pc with
  | words => exact h (Or.inl hpc)
  | head => exact h (Or.inr hpc)
  | check =>
    simp only [hpc, Sum.inl.injEq] at hstep
    subst hstep
    by_cases hlt : s.a1 < s.a3
    · simp [hlt] at hpc'
    · simp [hlt] at hpc'
  | done => simp [hpc] at hstep
  | tail =>
    rw [hpc] at hstep
    rcases copyLoop_pc hstep with hpc₁ | hpc₁
    · simp [hpc₁] at hpc'
    · simp [hpc₁] at hpc'

section Accesses

variable {k size : Nat}

theorem Progress.moves_inRanges (h : Progress f dst src n mem k s) (hr : Ranges dst src n)
    (hsize : 0 < size) (hk : k + size ≤ n.toNat) :
    ∀ acc ∈ s.moves size, acc.InRanges dst src n.toNat := by
  intro acc hacc
  simp only [CopyState.moves, List.mem_cons, List.not_mem_nil, or_false] at hacc
  rcases hacc with rfl | rfl
  · rw [h.a1]
    exact MemAccess.within_add hr.src_le hsize hk false
  · rw [h.a0]
    exact MemAccess.within_add hr.dst_le hsize hk true

theorem moves_aligned_one : ∀ acc ∈ s.moves 1, acc.Aligned := by
  simp [CopyState.moves, MemAccess.Aligned, Nat.mod_one]

/-- In the word loop both addresses are aligned. -/
theorem Progress.moves_aligned (h : Progress f dst src n mem k s) (hr : Ranges dst src n)
    (hk : k + szreg w ≤ n.toNat) (hoffset : dst.toNat % szreg w = src.toNat % szreg w)
    (hmod : (src.toNat + k) % szreg w = 0) : ∀ acc ∈ s.moves (szreg w), acc.Aligned := by
  have hpos := szreg_pos w
  have hsrc := hr.src_le
  have hdst := hr.dst_le
  intro acc hacc
  simp only [CopyState.moves, List.mem_cons, List.not_mem_nil, or_false] at hacc
  rcases hacc with rfl | rfl
  · unfold MemAccess.Aligned
    dsimp only
    rw [h.a1, toNat_add_lt (by omega), hmod]
  · unfold MemAccess.Aligned
    dsimp only
    rw [h.a0, toNat_add_lt (by omega), Nat.add_mod, hoffset, ← Nat.add_mod, hmod]

/-- **The accesses that come next lie in the ranges and are aligned.** -/
theorem CopyInv.accesses (hr : Ranges dst src n) (h : CopyInv f dst src n mem s)
    (hoffset : SameOffset dst src s) :
    ∀ acc ∈ s.accesses, acc.InRanges dst src n.toNat ∧ acc.Aligned := by
  obtain ⟨k, hp, hat⟩ := h
  unfold CopyState.accesses
  cases hpc : s.pc with
  | check => simp
  | done => simp
  | words =>
    rw [hpc] at hat
    obtain ⟨hbound, hmod, hlt⟩ := hat
    have hword := add_le_of_mod_eq (hmod.trans hbound.aligned.symm) hlt
    have hb := hbound.le
    have hk : k + szreg w ≤ n.toNat := by omega
    exact fun acc hacc => ⟨hp.moves_inRanges hr (szreg_pos w) hk acc hacc,
      hp.moves_aligned hr hk (hoffset (Or.inl hpc)) hmod acc hacc⟩
  | head =>
    rw [hpc] at hat
    obtain ⟨hbound, -, hlt01, hlt⟩ := hat
    have hb := hbound.le
    exact fun acc hacc => ⟨hp.moves_inRanges hr Nat.one_pos (by omega) acc hacc,
      moves_aligned_one acc hacc⟩
  | tail =>
    rw [hpc] at hat
    exact fun acc hacc => ⟨hp.moves_inRanges hr Nat.one_pos hat acc hacc,
      moves_aligned_one acc hacc⟩

end Accesses

/-- **Without faults `__copy_user` is the byte-by-byte copy**: it returns 0, the destination holds
what the source held, no other byte changes, and every access on the way lies in its range and is
naturally aligned. -/
theorem copyUser_exact (f : Faults w) (dst src n sstatus : Word w) (mem : Word w → Byte)
    (hr : Ranges dst src n) (hround : src.toNat + n.toNat + szreg w ≤ 2 ^ (8 * szreg w))
    (hno : NoFault f dst src n) :
    (∃ e, Ends (copyStep f) (copyUser dst src n sstatus mem) e ∧ e.a0 = 0 ∧ e.faulted = false ∧
      (∀ i < n.toNat, e.mem (dst + BitVec.ofNat _ i) = mem (src + BitVec.ofNat _ i)) ∧
      ∀ b, (∀ i < n.toNat, b ≠ dst + BitVec.ofNat _ i) → e.mem b = mem b) ∧
    ∀ s, Visits (copyStep f) (copyUser dst src n sstatus mem) s →
      ∀ acc ∈ s.accesses, acc.InRanges dst src n.toNat ∧ acc.Aligned := by
  have hpos := szreg_pos w
  have hclear : Clear dst src n := ⟨by omega, fun _ => by omega⟩
  constructor
  · obtain ⟨e, hends⟩ := @copyUser_ends w f dst src n mem hr hclear sstatus
    rcases copyUser_result hr hclear hends with ⟨-, ha0, hmem, hfaulted⟩ | ⟨hfault, -⟩
    · refine ⟨e, hends, ha0, hfaulted, fun i hi => ?_, fun b hb => ?_⟩
      · rw [hmem]
        exact storeBytes_at hi (hi.trans n.isLt)
      · rw [hmem]
        exact storeBytes_outside hb
    · exact absurd hno hfault
  · intro s hs
    have hinv := hs.invariant
      (fun _ _ h hstep => And.intro (h.1.next hr hclear.end_lt hstep).1 (h.2.next hstep))
      (And.intro (copyUser_inv hclear sstatus) (copyUser_sameOffset sstatus))
    exact hinv.1.accesses hr hinv.2

/-- A copy of 21 different bytes that starts and ends inside a word: every byte of memory is the low
byte of its address. -/
theorem copyUser_exact_unaligned :
    (∃ e : CopyExit .rv64,
      Ends (copyStep ⟨fun _ => false, fun _ => false⟩) (copyUser 67 131 21 0 (.setWidth 8)) e ∧
        e.a0 = 0 ∧ e.faulted = false ∧
        (∀ i < 21, e.mem (67 + BitVec.ofNat _ i) = BitVec.ofNat 8 (131 + i)) ∧
        ∀ b, (∀ i < 21, b ≠ 67 + BitVec.ofNat _ i) → e.mem b = b.setWidth 8) ∧
      ∀ s : CopyState .rv64,
        Visits (copyStep ⟨fun _ => false, fun _ => false⟩) (copyUser 67 131 21 0 (.setWidth 8)) s →
          ∀ acc ∈ s.accesses, acc.InRanges 67 131 21 ∧ acc.Aligned := by
  obtain ⟨⟨e, hends, ha0, hfaulted, hcopied, hrest⟩, hvisits⟩ :=
    @copyUser_exact .rv64 ⟨fun _ => false, fun _ => false⟩ 67 131 21 0 (.setWidth 8)
      ⟨by decide, by decide, by decide⟩ (by decide) fun _ _ => ⟨rfl, rfl⟩
  refine ⟨⟨e, hends, ha0, hfaulted, fun i hi => (hcopied i hi).trans ?_, hrest⟩, hvisits⟩
  show (131#64 + BitVec.ofNat 64 i).setWidth 8 = _
  rw [← BitVec.ofNat_add, BitVec.setWidth_ofNat_of_le (by decide)]

end LowriscLinux.Mm
