import LowriscLinux.Mm.Uaccess

/-!
# Copies at the end of the address space

The copy of `Mm/Uaccess.lean` when the source reaches the last word of the address space.

When it ends there, its end address `a3` (`arch/riscv/lib/uaccess.S`, line 24) is 0 and the copy
returns at once, as both `bltu a1, a3` fail. When it only starts there, rounding its address up
wraps to 0 (line 32), so `a1` is not below `t0` (line 38) and the word loop runs from an address
that is not aligned through the whole address space, up to `t1`.

* `Wrapped`: the addresses for which this happens. They have the same offset in a word.
* `Walk`: the registers during the walk. `OnWalk` says where the word loop reads.
* `SelfWalk`: a walk from an address to itself, which leaves memory as it is and so meets the
  contract where nothing faults.
* `oneByte`: a memory that tells a copied byte from the one it replaces.

With `reportsExactly_iff_of_clear` for all other sources this makes the condition exact.

Results:
* `not_reportsExactly_of_end`: a source that ends with the address space is not copied.
* `Walk.step` / `SelfWalk.step`: what the word loop keeps on its way around.
* **`reportsExactly_iff`**: the copy meets its contract iff no byte of its ranges faults and the
  source stays clear of the end of the address space, or nothing is copied from an address to itself
  and no address faults at all.
-/

namespace LowriscLinux.Mm

open Lib Kernel

variable {w : Xlen} {f : Faults w} {dst src n : Word w} {mem : Word w → Byte}
  {s s' : CopyState w} {e : CopyExit w}

theorem szreg_dvd (w : Xlen) : szreg w ∣ 2 ^ (8 * szreg w) := by cases w <;> decide

theorem szreg_lt (w : Xlen) : 2 * szreg w < 2 ^ (8 * szreg w) := by cases w <;> decide

/-! ## A source that ends with the address space -/

/-- The copy returns at once, with nothing copied. -/
theorem copyUser_end (hend : src.toNat + n.toNat = 2 ^ (8 * szreg w)) {sstatus : Word w}
    (h : Ends (copyStep f) (copyUser dst src n sstatus mem) e) : e.a0 = 0 ∧ e.mem = mem := by
  have ha3 : src + n = 0 := by
    apply BitVec.eq_of_toNat_eq
    rw [BitVec.toNat_add, hend, Nat.mod_self]
    rfl
  have hstart : (copyUser dst src n sstatus mem).pc = .check ∧
      (copyUser dst src n sstatus mem).a3 = 0 ∧ (copyUser dst src n sstatus mem).mem = mem := by
    unfold copyUser
    dsimp only
    rw [ha3]
    have hle : ∀ t0 : Word w, 0 &&& ~~~BitVec.ofNat (8 * szreg w) (szreg w - 1) ≤ t0 := by
      intro t0
      rw [BitVec.le_def]
      simp
    split
    · exact ⟨rfl, rfl, rfl⟩
    · rw [if_pos (hle _)]
      exact ⟨rfl, rfl, rfl⟩
  refine @Ends.invariant _ _ (copyStep f) _ e
    (fun s => (s.pc = .check ∨ s.pc = .done) ∧ s.a3 = 0 ∧ s.mem = mem)
    (fun e => e.a0 = 0 ∧ e.mem = mem) ?_ ?_ h ⟨Or.inl hstart.1, hstart.2⟩
  · rintro s s' ⟨hpc | hpc, ha3, hmem⟩ hstep
    · have hlt : ¬ s.a1 < s.a3 := by simp [ha3]
      simp only [copyStep, hpc, if_neg hlt, Sum.inl.injEq] at hstep
      subst hstep
      exact ⟨Or.inr rfl, ha3, hmem⟩
    · simp [copyStep, hpc] at hstep
  · rintro s e ⟨hpc | hpc, ha3, hmem⟩ hstep
    · simp [copyStep, hpc] at hstep
    · simp only [copyStep, hpc, Sum.inr.injEq] at hstep
      subst hstep
      exact ⟨rfl, hmem⟩

/-- A memory with one byte set tells a copied byte from the one it replaces. -/
def oneByte (a : Word w) : Word w → Byte := fun b => if b = a then 1 else 0

theorem copied_at (mem : Word w → Byte) (dst src : Word w) (i k : Nat) (hi : i < 2 ^ (8 * szreg w)) :
    copied mem dst src k (dst + BitVec.ofNat _ i) =
      if i < k then mem (src + BitVec.ofNat _ i) else mem (dst + BitVec.ofNat _ i) := by
  have hdist : (dst + BitVec.ofNat (8 * szreg w) i - dst).toNat = i := by
    rw [BitVec.add_comm, BitVec.add_sub_cancel, BitVec.toNat_ofNat, Nat.mod_eq_of_lt hi]
  rw [copied, storeBytes, hdist]
  rfl

/-- **A source that ends with the address space is not copied.** -/
theorem not_reportsExactly_of_end (hr : Ranges dst src n)
    (hend : src.toNat + n.toNat = 2 ^ (8 * szreg w)) : ¬ ReportsExactly f dst src n := by
  intro h
  obtain ⟨e, hends, -, k, hle, ha0, hmem, -⟩ := h 0 (oneByte src)
  obtain ⟨hret, hkept⟩ := copyUser_end hend hends
  have hn : 0 < n.toNat := by
    have hlt := src.isLt
    omega
  have hne : dst ≠ src := by
    rintro rfl
    have hd := hr.disjoint
    omega
  have hk : k = n.toNat := by
    rw [hret] at ha0
    have hzero : (0 : Word w).toNat = 0 := by simp
    omega
  have hbyte := congrFun (hmem.symm.trans hkept) (dst + BitVec.ofNat _ 0)
  rw [hk, copied_at _ _ _ _ _ (Nat.two_pow_pos _), if_pos hn] at hbyte
  simp [oneByte, hne] at hbyte

/-! ## A source that starts in the last word -/

/-- The addresses have the same offset in a word, and rounding the source up wraps. -/
structure Wrapped (dst src n : Word w) : Prop where
  end_lt : src.toNat + n.toNat < 2 ^ (8 * szreg w)
  offset : dst.toNat % szreg w = src.toNat % szreg w
  top : 2 ^ (8 * szreg w) < src.toNat + szreg w

/-- The registers during the walk of the word loop, with the distance of the addresses kept. -/
structure Walk (dst src n : Word w) (s : CopyState w) : Prop where
  a0 : s.a0 = s.a1 + (dst - src)
  a3 : s.a3 = src + n
  t1 : s.t1.toNat = 2 ^ (8 * szreg w) - szreg w

/-- The source, or a word before the last one with the same offset: where the word loop reads. -/
def OnWalk (src a : Word w) : Prop :=
  a = src ∨ a.toNat % szreg w = src.toNat % szreg w ∧ a.toNat < 2 ^ (8 * szreg w) - szreg w

/-- The last word of the address space starts one word before its end. -/
theorem toNat_last_word (hend : src.toNat + n.toNat < 2 ^ (8 * szreg w))
    (htop : 2 ^ (8 * szreg w) < src.toNat + szreg w) :
    ((src + n) &&& ~~~BitVec.ofNat (8 * szreg w) (szreg w - 1)).toNat =
      2 ^ (8 * szreg w) - szreg w := by
  have hpos := szreg_pos w
  rw [toNat_and_not_szreg, BitVec.toNat_add, Nat.mod_eq_of_lt hend]
  have hdiv := Nat.div_add_mod (src.toNat + n.toNat) (szreg w)
  have hrem := Nat.mod_lt (src.toNat + n.toNat) hpos
  rw [Nat.mul_comm] at hdiv
  generalize hq : (src.toNat + n.toNat) / szreg w * szreg w = q at *
  have hq0 : q % szreg w = 0 := hq ▸ Nat.mul_mod_left _ _
  have hx0 : 2 ^ (8 * szreg w) % szreg w = 0 := Nat.mod_eq_zero_of_dvd (szreg_dvd w)
  have hle := add_le_of_mod_eq (hq0.trans hx0.symm) (by omega)
  have hx1 : (2 ^ (8 * szreg w) - szreg w) % szreg w = 0 := by
    rw [← Nat.mod_eq_sub_mod (by omega), hx0]
  by_contra hne
  have hle' := add_le_of_mod_eq (hq0.trans hx1.symm) (by omega)
  omega

namespace Wrapped

theorem copyUser_walk (h : Wrapped dst src n) (sstatus : Word w) :
    Walk dst src n (copyUser dst src n sstatus mem) ∧
      (copyUser dst src n sstatus mem).pc = .words ∧
      (copyUser dst src n sstatus mem).a1 = src ∧ (copyUser dst src n sstatus mem).mem = mem := by
  obtain ⟨hend, hoffset, htop⟩ := h
  have hpos := szreg_pos w
  have hbig := szreg_lt w
  have hsrc := src.isLt
  have hround : ((src + BitVec.ofNat (8 * szreg w) (szreg w - 1)) &&&
      ~~~BitVec.ofNat (8 * szreg w) (szreg w - 1)).toNat = 0 := by
    have hmask : (BitVec.ofNat (8 * szreg w) (szreg w - 1)).toNat = szreg w - 1 := by
      rw [BitVec.toNat_ofNat]
      exact Nat.mod_eq_of_lt (by omega)
    have hwrap : src.toNat + (szreg w - 1) =
        2 ^ (8 * szreg w) + (src.toNat + szreg w - 1 - 2 ^ (8 * szreg w)) := by omega
    have hsmall : src.toNat + szreg w - 1 - 2 ^ (8 * szreg w) < szreg w := by omega
    rw [toNat_and_not_szreg, BitVec.toNat_add, hmask, hwrap, Nat.add_mod_left,
      Nat.mod_eq_of_lt (hsmall.trans (by omega)), Nat.div_eq_of_lt hsmall, Nat.zero_mul]
  have hlast := toNat_last_word hend htop
  unfold copyUser
  dsimp only
  rw [if_neg (not_not.mpr ((same_offset_iff dst src).mpr hoffset)),
    if_neg (by rw [BitVec.le_def, hround, hlast]; omega),
    if_neg (by rw [BitVec.lt_def, hround]; exact Nat.not_lt_zero _)]
  refine ⟨⟨?_, rfl, hlast⟩, rfl, rfl, rfl⟩
  show dst = src + (dst - src)
  rw [BitVec.add_comm, BitVec.sub_add_cancel]

/-- One word on: from the source the walk wraps, later it stays below the last word until it is
back at the source. -/
theorem next_address (h : Wrapped dst src n) {a : Word w}
    (hat : OnWalk src a) :
    (a + BitVec.ofNat _ (szreg w)).toNat % szreg w = src.toNat % szreg w ∧
      ((a + BitVec.ofNat _ (szreg w)).toNat < 2 ^ (8 * szreg w) - szreg w ∨
        a + BitVec.ofNat _ (szreg w) = src) := by
  have htop := h.top
  have hbig := szreg_lt w
  have hsrc := src.isLt
  have hpos := szreg_pos w
  rcases hat with rfl | ⟨hmod, hlt⟩
  · have hsize : (BitVec.ofNat (8 * szreg w) (szreg w)).toNat = szreg w := by
      rw [BitVec.toNat_ofNat]
      exact Nat.mod_eq_of_lt (by omega)
    have hsum : a.toNat + szreg w =
        2 ^ (8 * szreg w) + (a.toNat + szreg w - 2 ^ (8 * szreg w)) := by omega
    have hnext : (a + BitVec.ofNat _ (szreg w)).toNat = a.toNat + szreg w - 2 ^ (8 * szreg w) := by
      rw [BitVec.toNat_add, hsize, hsum, Nat.add_mod_left, Nat.mod_eq_of_lt (by omega)]
      omega
    refine ⟨?_, Or.inl (by omega)⟩
    obtain ⟨m, hm⟩ := szreg_dvd w
    calc (a + BitVec.ofNat _ (szreg w)).toNat % szreg w
        = (2 ^ (8 * szreg w) + (a.toNat + szreg w - 2 ^ (8 * szreg w))) % szreg w := by
          rw [hnext]
          conv_rhs => rw [hm, Nat.mul_add_mod_self_left, ← hm]
      _ = a.toNat % szreg w := by rw [← hsum, Nat.add_mod_right]
  · have hle := add_le_of_mod_eq hmod (by omega)
    have hnext : (a + BitVec.ofNat _ (szreg w)).toNat = a.toNat + szreg w := toNat_add_lt (by omega)
    have hmod' : (a.toNat + szreg w) % szreg w = src.toNat % szreg w := by
      rw [Nat.add_mod_right, hmod]
    rw [hnext]
    refine ⟨hmod', ?_⟩
    by_cases hlt' : a.toNat + szreg w < 2 ^ (8 * szreg w) - szreg w
    · exact Or.inl hlt'
    · refine Or.inr (BitVec.eq_of_toNat_eq (hnext.trans ?_))
      by_contra hne
      have hle' := add_le_of_mod_eq hmod' (by omega)
      omega

end Wrapped

/-- What the word loop does during the walk. -/
theorem Walk.next (hw : Wrapped dst src n) (h : Walk dst src n s) (hpc : s.pc = .words)
    (hat : OnWalk src s.a1) (hstep : copyStep f s = .inl s') :
    Walk dst src n s' ∧ s'.a1 = s.a1 + BitVec.ofNat _ (szreg w) ∧
      s'.mem = storeBytes s.mem s.a0 (szreg w) (loadBytes s.mem s.a1) ∧
      (∀ i < szreg w, f.load (s.a1 + BitVec.ofNat _ i) = false ∧
        f.store (s.a0 + BitVec.ofNat _ i) = false) ∧
      ((s'.pc = .words ∧ OnWalk src s'.a1 ∧ s'.a1 ≠ src) ∨ s'.pc = .check ∧ s'.a1 = src) := by
  obtain ⟨hmod, hnext⟩ := hw.next_address hat
  have htop := hw.top
  rw [copyStep, hpc] at hstep
  rcases copyLoop_cases f (szreg w) s.t1 .words .check s with ⟨hfault, -⟩ | ⟨heq, hnone⟩
  · rw [hfault] at hstep
    cases hstep
  obtain rfl := Sum.inl.inj (heq.symm.trans hstep)
  refine ⟨⟨?_, h.a3, h.t1⟩, rfl, rfl, hnone, ?_⟩
  · show s.a0 + _ = s.a1 + _ + (dst - src)
    rw [h.a0, BitVec.add_assoc, BitVec.add_assoc, BitVec.add_comm (dst - src)]
  · simp only [BitVec.lt_def, h.t1]
    by_cases hlt : (s.a1 + BitVec.ofNat _ (szreg w)).toNat < 2 ^ (8 * szreg w) - szreg w
    · refine Or.inl ⟨if_pos hlt, Or.inr ⟨hmod, hlt⟩, ?_⟩
      intro heq
      rw [heq] at hlt
      omega
    · refine Or.inr ⟨if_neg hlt, ?_⟩
      exact hnext.resolve_left hlt

/-! ## From another address -/

/-- The walk has written the byte behind the destination. -/
def Overrun (dst src n : Word w) (v : Byte) (s : CopyState w) : Prop :=
  Walk dst src n s ∧ s.mem (dst + n) = v ∧
    match s.pc with
    | .words => OnWalk src s.a1 ∧ s.a1 ≠ src
    | .check => True
    | .done => True
    | .head => False
    | .tail => s.a1 < s.a3

/-- A store of the walk at a distance from the byte behind the destination keeps it. -/
theorem Walk.store_kept (h : Walk dst src n s) {size : Nat} (v : Nat → Byte)
    (hdist : size ≤ (src + n - s.a1).toNat) :
    storeBytes s.mem s.a0 size v (dst + n) = s.mem (dst + n) := by
  have hsame : dst + n - s.a0 = src + n - s.a1 := by
    rw [h.a0]
    grind
  rw [storeBytes, hsame, if_neg (Nat.not_lt.mpr hdist)]

theorem Overrun.next (hw : Wrapped dst src n) {v : Byte} (h : Overrun dst src n v s)
    (hstep : copyStep f s = .inl s') : Overrun dst src n v s' := by
  obtain ⟨hwalk, hbyte, hat⟩ := h
  have hend := hw.end_lt
  have htop := hw.top
  have ha3 : s.a3.toNat = src.toNat + n.toNat := by
    rw [hwalk.a3, BitVec.toNat_add, Nat.mod_eq_of_lt hend]
  cases hpc : s.pc with
  | head =>
    rw [hpc] at hat
    exact hat.elim
  | done => simp [copyStep, hpc] at hstep
  | check =>
    simp only [copyStep, hpc, Sum.inl.injEq] at hstep
    subst hstep
    refine ⟨⟨hwalk.a0, hwalk.a3, hwalk.t1⟩, hbyte, ?_⟩
    by_cases hlt : s.a1 < s.a3
    · simp only [if_pos hlt]
      exact hlt
    · simp only [if_neg hlt]
  | words =>
    rw [hpc] at hat
    obtain ⟨hon, hne⟩ := hat
    obtain ⟨hwalk', -, hmem, -, hpc'⟩ := hwalk.next hw hpc hon hstep
    -- The word lies below the source, and the byte behind the destination does not.
    have hle : s.a1.toNat + szreg w ≤ src.toNat := by
      obtain ⟨hmod, hlt⟩ := hon.resolve_left hne
      exact add_le_of_mod_eq hmod (by omega)
    refine ⟨hwalk', ?_, ?_⟩
    · rw [hmem, hwalk.store_kept, hbyte]
      rw [toNat_sub_ite, BitVec.toNat_add, Nat.mod_eq_of_lt hend]
      split <;> omega
    · rcases hpc' with ⟨hpc', hon', hne'⟩ | ⟨hpc', -⟩
      · rw [hpc']
        exact ⟨hon', hne'⟩
      · rw [hpc']
        trivial
  | tail =>
    rw [hpc] at hat
    have hlt : s.a1.toNat < src.toNat + n.toNat := by
      have h := BitVec.lt_def.mp hat
      rwa [ha3] at h
    rw [copyStep, hpc] at hstep
    rcases copyLoop_cases f 1 s.a3 .tail .done s with ⟨hfault, -⟩ | ⟨heq, -⟩
    · rw [hfault] at hstep
      cases hstep
    obtain rfl := Sum.inl.inj (heq.symm.trans hstep)
    refine ⟨⟨?_, hwalk.a3, hwalk.t1⟩, ?_, ?_⟩
    · show s.a0 + _ = s.a1 + _ + (dst - src)
      rw [hwalk.a0, BitVec.add_assoc, BitVec.add_assoc, BitVec.add_comm (dst - src)]
    · show storeBytes s.mem s.a0 1 _ (dst + n) = v
      rw [hwalk.store_kept, hbyte]
      rw [toNat_sub_ite, BitVec.toNat_add, Nat.mod_eq_of_lt hend]
      split <;> omega
    · dsimp only
      by_cases hlt' : s.a1 + BitVec.ofNat _ 1 < s.a3
      · rw [if_pos hlt']
        exact hlt'
      · rw [if_neg hlt']
        trivial

theorem copyStep_mem (h : copyStep f s = .inr e) : e.mem = s.mem := by
  have hloop : ∀ size bound loop next, copyLoop f size bound loop next s = .inr e →
      e.mem = s.mem := by
    intro size bound loop next h
    rcases copyLoop_cases f size bound loop next s with ⟨hfault, -⟩ | ⟨heq, -⟩
    · obtain rfl := Sum.inr.inj (hfault.symm.trans h)
      rfl
    · rw [heq] at h
      cases h
  unfold copyStep at h
  cases hpc : s.pc with
  | check => simp [hpc] at h
  | done =>
    rw [hpc] at h
    cases h
    rfl
  | words | head | tail =>
    rw [hpc] at h
    exact hloop _ _ _ _ h

/-- **A copy whose source starts in the last word writes beyond the destination**, or faults. -/
theorem not_reportsExactly_of_wrapped (hr : Ranges dst src n) (hw : Wrapped dst src n)
    (hne : dst ≠ src) : ¬ ReportsExactly f dst src n := by
  intro h
  obtain ⟨e, hends, -, k, hle, ha0, hmem, hlt⟩ := h 0 (oneByte (src + n))
  obtain ⟨hwalk, hpc, ha1, hmem0⟩ := @Wrapped.copyUser_walk w dst src n (oneByte (src + n)) hw 0
  generalize copyUser dst src n 0 (oneByte (src + n)) = s at *
  have hs0 : s.a0 = dst := by
    rw [hwalk.a0, ha1, BitVec.add_comm, BitVec.sub_add_cancel]
  cases hstep : copyStep f s with
  | inr e' =>
    obtain rfl := hends.unique (.last hstep)
    rw [copyStep, hpc] at hstep
    rcases copyLoop_cases f (szreg w) s.t1 .words .check s with ⟨hfault, -⟩ | ⟨heq, -⟩
    · obtain rfl := Sum.inr.inj (hfault.symm.trans hstep)
      have hk := hlt rfl
      have hbad := fixup_ne hr (show 0 < n.toNat by omega) hk
      rw [BitVec.add_zero] at hbad
      rw [copyFixup, hwalk.a3, hs0] at ha0
      exact hbad ha0
    · rw [heq] at hstep
      cases hstep
  | inl s' =>
    have hn : n.toNat < szreg w := by
      have hend := hw.end_lt
      have htop := hw.top
      omega
    obtain ⟨hwalk', -, hmem', -, hpc'⟩ := hwalk.next hw hpc (Or.inl ha1) hstep
    have hbyte : s'.mem (dst + n) = 1 := by
      have hdist : (dst + n - dst).toNat = n.toNat := by
        rw [BitVec.add_comm, BitVec.add_sub_cancel]
      rw [hmem', storeBytes, hs0, hdist, if_pos hn, loadBytes, ha1, hmem0, BitVec.ofNat_toNat,
        BitVec.setWidth_eq]
      exact if_pos rfl
    have hover : Overrun dst src n 1 s' := by
      refine ⟨hwalk', hbyte, ?_⟩
      rcases hpc' with ⟨hpc', hon⟩ | ⟨hpc', -⟩
      · rw [hpc']
        exact hon
      · rw [hpc']
        trivial
    have hlast : e.mem (dst + n) = 1 :=
      @Ends.invariant _ _ (copyStep f) s' e (Overrun dst src n 1) (fun e => e.mem (dst + n) = 1)
        (fun _ _ hi hs => hi.next hw hs) (fun _ _ hi hs => (copyStep_mem hs) ▸ hi.2.1)
        ((ends_next_iff hstep).mp hends) hover
    have hn' : BitVec.ofNat (8 * szreg w) n.toNat = n := by simp
    have hkept := copied_at (oneByte (src + n)) dst src n.toNat k n.isLt
    rw [hn', if_neg (Nat.not_lt.mpr hle), ← hmem, hlast] at hkept
    have hfar : dst + n ≠ src + n := fun heq => hne ((BitVec.add_left_inj n).mp heq)
    simp [oneByte, hfar] at hkept

/-! ## From an address to itself -/

/-- No address faults at all. -/
def FaultFree (f : Faults w) : Prop := ∀ a, f.load a = false ∧ f.store a = false

/-- The bytes from the source to the end of the address space and below `a` do not fault. -/
def FaultFreeBelow (f : Faults w) (src a : Word w) : Prop :=
  ∀ b : Word w, src.toNat ≤ b.toNat ∨ b.toNat < a.toNat → f.load b = false ∧ f.store b = false

/-- The walk from an address to itself leaves memory as it is. -/
def SelfWalk (f : Faults w) (src n : Word w) (mem : Word w → Byte) (s : CopyState w) : Prop :=
  Walk src src n s ∧ s.mem = mem ∧
    match s.pc with
    | .words => OnWalk src s.a1 ∧ s.a1 ≠ src ∧ FaultFreeBelow f src s.a1
    | .check => s.a1 = src ∧ FaultFree f
    | .done => FaultFree f
    | .head => False
    | .tail => False

theorem storeBytes_self (mem : Word w → Byte) (a : Word w) (size : Nat) :
    storeBytes mem a size (loadBytes mem a) = mem := by
  funext b
  have hb : a + BitVec.ofNat _ (b - a).toNat = b := by
    rw [BitVec.ofNat_toNat, BitVec.setWidth_eq, BitVec.add_comm, BitVec.sub_add_cancel]
  unfold storeBytes loadBytes
  rw [hb, ite_self]

/-- The word loop moves on over a word that does not fault. -/
theorem FaultFreeBelow.next (hw : Wrapped src src n) {a : Word w}
    (hbelow : a = src ∨ OnWalk src a ∧ a ≠ src ∧ FaultFreeBelow f src a)
    (hnone : ∀ i < szreg w, f.load (a + BitVec.ofNat _ i) = false ∧
      f.store (a + BitVec.ofNat _ i) = false) :
    FaultFreeBelow f src (a + BitVec.ofNat _ (szreg w)) := by
  have htop := hw.top
  have hbig := szreg_lt w
  intro b hb
  have hblt := b.isLt
  -- The byte is in the word, or below it.
  by_cases hin : (b - a).toNat < szreg w
  · have hbyte := hnone _ hin
    rwa [BitVec.ofNat_toNat, BitVec.setWidth_eq, BitVec.add_comm, BitVec.sub_add_cancel] at hbyte
  · rw [toNat_sub_ite] at hin
    rcases hbelow with rfl | ⟨hon, hne, hbelow⟩
    · have hnext : (a + BitVec.ofNat _ (szreg w)).toNat + 2 ^ (8 * szreg w) =
          a.toNat + szreg w := by
        have ha := a.isLt
        have hsize : (BitVec.ofNat (8 * szreg w) (szreg w)).toNat = szreg w := by
          rw [BitVec.toNat_ofNat]
          exact Nat.mod_eq_of_lt (by omega)
        rw [BitVec.toNat_add, hsize, Nat.mod_eq_sub_mod (by omega), Nat.mod_eq_of_lt (by omega)]
        omega
      split at hin <;> omega
    · obtain ⟨hmod, hlt⟩ := hon.resolve_left hne
      have hnext : (a + BitVec.ofNat _ (szreg w)).toNat = a.toNat + szreg w :=
        toNat_add_lt (by omega)
      refine hbelow b ?_
      split at hin <;> omega

/-- The first word on the walk, and every later one. -/
theorem SelfWalk.of_words (hw : Wrapped src src n) (h : Walk src src n s) (hmem : s.mem = mem)
    (hpc : s.pc = .words)
    (hat : s.a1 = src ∨ OnWalk src s.a1 ∧ s.a1 ≠ src ∧ FaultFreeBelow f src s.a1)
    (hstep : copyStep f s = .inl s') : SelfWalk f src n mem s' := by
  have hon : OnWalk src s.a1 := hat.elim Or.inl And.left
  have ha0 : s.a0 = s.a1 := by rw [h.a0, BitVec.sub_self, BitVec.add_zero]
  obtain ⟨hwalk', ha1', hmem', hnone, hpc'⟩ := h.next hw hpc hon hstep
  rw [ha0] at hnone hmem'
  have hbelow := FaultFreeBelow.next hw hat hnone
  rw [← ha1'] at hbelow
  refine ⟨hwalk', by rw [hmem', storeBytes_self, hmem], ?_⟩
  rcases hpc' with ⟨hpc', hon', hne'⟩ | ⟨hpc', hsrc⟩
  · rw [hpc']
    exact ⟨hon', hne', hbelow⟩
  · rw [hpc']
    refine ⟨hsrc, fun a => hbelow a ?_⟩
    rw [hsrc]
    exact (Nat.lt_or_ge _ _).symm

/-- The addresses left before the last word, and the blocks left after it. -/
def walkMeasure (s : CopyState w) : Nat :=
  match s.pc with
  | .words => 2 ^ (8 * szreg w) - s.a1.toNat + 2
  | .check => 1
  | _ => 0

theorem SelfWalk.next (hw : Wrapped src src 0) (h : SelfWalk f src 0 mem s)
    (hstep : copyStep f s = .inl s') :
    SelfWalk f src 0 mem s' ∧ walkMeasure s' < walkMeasure s := by
  obtain ⟨hwalk, hmem, hat⟩ := h
  cases hpc : s.pc with
  | head =>
    rw [hpc] at hat
    exact hat.elim
  | tail =>
    rw [hpc] at hat
    exact hat.elim
  | done => simp [copyStep, hpc] at hstep
  | check =>
    rw [hpc] at hat
    obtain ⟨ha1, hfree⟩ := hat
    have hlt : ¬ s.a1 < s.a3 := by
      rw [ha1, hwalk.a3]
      simp
    simp only [copyStep, hpc, if_neg hlt, Sum.inl.injEq] at hstep
    subst hstep
    exact ⟨⟨⟨hwalk.a0, hwalk.a3, hwalk.t1⟩, hmem, hfree⟩, by simp [walkMeasure, hpc]⟩
  | words =>
    rw [hpc] at hat
    obtain ⟨hon, hne, hbelow⟩ := hat
    refine ⟨of_words hw hwalk hmem hpc (Or.inr ⟨hon, hne, hbelow⟩) hstep, ?_⟩
    obtain ⟨-, ha1', -, -, hpc'⟩ := hwalk.next hw hpc hon hstep
    obtain ⟨-, hlt⟩ := hon.resolve_left hne
    have hpos := szreg_pos w
    have hnext : s'.a1.toNat = s.a1.toNat + szreg w := by
      rw [ha1']
      exact toNat_add_lt (by omega)
    rcases hpc' with ⟨hpc', -⟩ | ⟨hpc', -⟩
    · simp only [walkMeasure, hpc, hpc']
      omega
    · simp only [walkMeasure, hpc, hpc']
      omega

/-- The end of a walk from an address to itself. -/
def SelfResult (f : Faults w) (mem : Word w → Byte) (e : CopyExit w) : Prop :=
  (e.faulted = true ∧ ¬ FaultFree f) ∨
    (e.faulted = false ∧ FaultFree f ∧ e.a0 = 0 ∧ e.mem = mem)

theorem copyStep_words_last (hpc : s.pc = .words) (h : copyStep f s = .inr e) :
    e.faulted = true ∧ ¬ FaultFree f := by
  rw [copyStep, hpc] at h
  rcases copyLoop_cases f (szreg w) s.t1 .words .check s with ⟨hfault, i, hi, hbyte⟩ | ⟨heq, -⟩
  · obtain rfl := Sum.inr.inj (hfault.symm.trans h)
    refine ⟨rfl, fun hfree => ?_⟩
    simp [(hfree _).1, (hfree _).2] at hbyte
  · rw [heq] at h
    cases h

theorem SelfWalk.last (h : SelfWalk f src n mem s) (hstep : copyStep f s = .inr e) :
    SelfResult f mem e := by
  obtain ⟨hwalk, hmem, hat⟩ := h
  cases hpc : s.pc with
  | head =>
    rw [hpc] at hat
    exact hat.elim
  | tail =>
    rw [hpc] at hat
    exact hat.elim
  | check => simp [copyStep, hpc] at hstep
  | done =>
    rw [hpc] at hat
    simp only [copyStep, hpc, Sum.inr.injEq] at hstep
    subst hstep
    exact Or.inr ⟨rfl, hat, rfl, hmem⟩
  | words => exact Or.inl (copyStep_words_last hpc hstep)

/-- A copy of nothing from an address in the last word to itself meets its contract iff no
address faults. -/
theorem reportsExactly_self_iff (hw : Wrapped src src 0) :
    ReportsExactly f src src 0 ↔ FaultFree f := by
  have hresult : ∀ sstatus mem e, Ends (copyStep f) (copyUser src src 0 sstatus mem) e →
      SelfResult f mem e := by
    intro sstatus mem e hends
    obtain ⟨hwalk, hpc, ha1, hmem⟩ := @Wrapped.copyUser_walk w src src 0 mem hw sstatus
    cases hstep : copyStep f (copyUser src src 0 sstatus mem) with
    | inr e' =>
      obtain rfl := hends.unique (.last hstep)
      exact Or.inl (copyStep_words_last hpc hstep)
    | inl s' =>
      have hself := SelfWalk.of_words hw hwalk hmem hpc (Or.inl ha1) hstep
      exact ((ends_next_iff hstep).mp hends).invariant (fun _ _ hi hs => (hi.next hw hs).1)
        (fun _ _ hi hs => hi.last hs) hself
  constructor
  · intro h
    obtain ⟨e, hends, -, k, hle, -, -, hlt⟩ := h 0 fun _ => 0
    rcases hresult _ _ _ hends with ⟨hfaulted, -⟩ | ⟨-, hfree, -⟩
    · have hk := hlt hfaulted
      simp at hk
    · exact hfree
  · intro hfree sstatus mem
    obtain ⟨hwalk, hpc, ha1, hmem⟩ := @Wrapped.copyUser_walk w src src 0 mem hw sstatus
    obtain ⟨e, hends⟩ : ∃ e, Ends (copyStep f) (copyUser src src 0 sstatus mem) e := by
      cases hstep : copyStep f (copyUser src src 0 sstatus mem) with
      | inr e => exact ⟨e, .last hstep⟩
      | inl s' =>
        have hself := SelfWalk.of_words hw hwalk hmem hpc (Or.inl ha1) hstep
        obtain ⟨e, hends⟩ := ends_of_measure walkMeasure (fun _ _ hi hs => hi.next hw hs) hself
        exact ⟨e, (ends_next_iff hstep).mpr hends⟩
    refine ⟨e, hends, copyUser_sstatus hends, 0, Nat.zero_le _, ?_⟩
    rcases hresult _ _ _ hends with ⟨-, hfault⟩ | ⟨hfaulted, -, ha0, hkept⟩
    · exact absurd hfree hfault
    · exact ⟨by simp [ha0], by rw [copied_zero, hkept], by simp [hfaulted]⟩

/-- **`__copy_user` meets its contract iff no byte of its ranges faults and the source stays clear
of the end of the address space**, or nothing is copied from an address to itself and no address
faults at all. -/
theorem reportsExactly_iff (hr : Ranges dst src n) :
    ReportsExactly f dst src n ↔
      NoFault f dst src n ∧ (Clear dst src n ∨ dst = src ∧ FaultFree f) := by
  by_cases hclear : Clear dst src n
  · rw [reportsExactly_iff_of_clear hr hclear, and_iff_left (Or.inl hclear)]
  rcases Nat.lt_or_ge (src.toNat + n.toNat) (2 ^ (8 * szreg w)) with hend | hend
  · -- The source does not end with the address space, so rounding its address up wraps.
    have hw : Wrapped dst src n := by
      by_contra hnot
      refine hclear ⟨hend, fun hoffset => ?_⟩
      by_contra htop
      exact hnot ⟨hend, hoffset, by omega⟩
    by_cases hne : dst = src
    · subst hne
      have hn : n = 0 := by
        have hd := hr.disjoint
        have hzero : (0 : Word w).toNat = 0 := by simp
        exact BitVec.eq_of_toNat_eq (by omega)
      subst hn
      rw [reportsExactly_self_iff hw]
      constructor
      · intro hfree
        exact ⟨fun i hi => by simp at hi, Or.inr ⟨rfl, hfree⟩⟩
      · rintro ⟨-, hclear' | ⟨-, hfree⟩⟩
        · exact absurd hclear' hclear
        · exact hfree
    · refine iff_of_false (not_reportsExactly_of_wrapped hr hw hne) ?_
      rintro ⟨-, hclear' | ⟨heq, -⟩⟩
      · exact hclear hclear'
      · exact hne heq
  · have heq := Nat.le_antisymm hr.src_le hend
    refine iff_of_false (not_reportsExactly_of_end hr heq) ?_
    rintro ⟨-, hclear' | ⟨rfl, -⟩⟩
    · exact hclear hclear'
    · have hd := hr.disjoint
      have hlt := dst.isLt
      omega

/-- Two words between aligned addresses, where nothing faults. -/
theorem reportsExactly_two_words :
    ReportsExactly ⟨fun _ => false, fun _ => false⟩ (0x1000 : Word .rv64) 0x2000 16 :=
  (reportsExactly_iff ⟨by decide, by decide, by decide⟩).mpr
    ⟨fun _ _ => ⟨rfl, rfl⟩, Or.inl ⟨by decide, by decide⟩⟩

/-- A source whose second word cannot be loaded. -/
def secondWordFaults : Faults .rv64 := ⟨fun a => a == 0x2008, fun _ => false⟩

/-- The fixup returns the distance of the ranges and 8, where 8 bytes are left. -/
example : ((runFor (copyStep secondWordFaults)
    10 (copyUser 0x1000 0x2000 16 0 fun _ => 0)).map CopyExit.a0) = some 0x1008 := by decide

/-- After a fault in the second word the contract is broken. -/
theorem not_reportsExactly_second_word :
    ¬ ∀ dst src n : Word .rv64, Ranges dst src n → ReportsExactly secondWordFaults dst src n := by
  intro h
  have hr : Ranges (0x1000 : Word .rv64) 0x2000 16 := ⟨by decide, by decide, by decide⟩
  have hclear : Clear (0x1000 : Word .rv64) 0x2000 16 := ⟨by decide, by decide⟩
  have hno := (reportsExactly_iff_of_clear hr hclear).mp (h _ _ _ hr)
  exact absurd (hno 8 (by decide)).1 (by decide)

end LowriscLinux.Mm
