import LowriscLinux.Mm.MemAccess

/-!
# Accesses to a user variable of 8 bytes on RV32

Model of `__get_user_8` and `__put_user_8` (`arch/riscv/include/asm/uaccess.h`, lines 154-186 and
302-330) without `CONFIG_64BIT`. Each is an inline assembly sequence of two word accesses with a
fixup out of line.

## What models what

* `Sequence`: a sequence with its entries of the exception table. `getUser8` and `putUser8` are the
  two, instruction by instruction; a `Place` is in the main part or in the fixup section.
* `Half`: the words of the variable, `__ptr[__LSW]` and `__ptr[__MSW]`, on a little-endian machine
  (lines 100-102).
* `Sequence.fixupException`: an access that faults continues where the exception table says
  (`fixup_exception`, `arch/riscv/mm/extable.c`). A fault without an entry is an exit of its own.
* `Sequence.step`: the instruction at the current place. `putStart` and `getStart` are the registers
  at the beginning, with the error cleared, and `AccessState.result` is line 185.

The operands of a sequence are taken to be in different registers. What `jump` does to its scratch
register, and `SR_PUM` around the sequence, are left out.

The fixup of the load jumps behind its second access, `3b` (line 172). The fixup of the store jumps
to its second access, `2b` (line 318): it is made again after it has faulted, and made at all after
the first one has faulted.

Results:
* `getUser8_right`: the load always ends with the right result.
* `putUser8_of_noFault` / `putUser8_first`: the store without a fault, and after a fault of its
  first word.
* `putUser8_second`: the store never ends once its second word faults.
* **`userAccess8_right_iff`**: both accesses do what they should iff neither word of the store
  faults.
-/

namespace LowriscLinux.Mm

open Lib Kernel

/-- `-EFAULT`. -/
def negEfault : Word .rv32 := -14

/-- The words of the variable: `__ptr[__LSW]` and `__ptr[__MSW]`. -/
inductive Half
  | lsw
  | msw
  deriving DecidableEq, Repr

/-- The address of a word of the variable, on a little-endian machine. -/
def Half.addr (ptr : Word .rv32) : Half → Word .rv32
  | .lsw => ptr
  | .msw => ptr + 4

/-- The registers of a sequence: the error code, and the words of the value. -/
inductive Operand
  | err
  | value (half : Half)
  deriving DecidableEq, Repr

/-- The instructions of a sequence. `jump` goes to a place of the main part. -/
inductive Insn
  | lw (half : Half)
  | sw (half : Half)
  | li (rd : Operand) (v : Word .rv32)
  | jump (target : Nat)
  deriving DecidableEq, Repr

/-- A place in the code of a sequence: in its main part or in its fixup section. -/
inductive Place
  | main (i : Nat)
  | fixup (i : Nat)
  deriving DecidableEq, Repr

/-- An inline assembly sequence, with its entries of the exception table: the place of an
instruction that may fault, and the place to continue at. -/
structure Sequence where
  main : List Insn
  fixup : List Insn
  exTable : List (Place × Place)
  deriving DecidableEq, Repr

/-- The sequence of `__get_user_8`. -/
def getUser8 : Sequence where
  main := [.lw .lsw, .lw .msw]
  fixup := [.li .err negEfault, .li (.value .lsw) 0, .li (.value .msw) 0, .jump 2]
  exTable := [(.main 0, .fixup 0), (.main 1, .fixup 0)]

/-- The sequence of `__put_user_8`. -/
def putUser8 : Sequence where
  main := [.sw .lsw, .sw .msw]
  fixup := [.li .err negEfault, .jump 1]
  exTable := [(.main 0, .fixup 0), (.main 1, .fixup 0)]

/-- The state in a sequence, with the words of the variable that were stored to. -/
structure AccessState where
  pc : Place
  regs : Operand → Word .rv32
  mem : Word .rv32 → Byte
  stored : List Half

/-- How a sequence is left: at its end, by a fault without an entry in the exception table, or
behind the end of its fixup section. -/
inductive AccessExit
  | done (s : AccessState)
  | oops
  | lost

/-- The word that `lw` loads. -/
def loadHalf (mem : Word .rv32 → Byte) (a : Word .rv32) : Word .rv32 := ofBytes 4 (loadBytes mem a)

/-- The bytes that `sw` stores. -/
def halfBytes (v : Word .rv32) : Nat → Byte := byteAt (n := 4) v

/-- `fixup_exception`: where a fault continues. -/
def Sequence.fixupException (code : Sequence) (s : AccessState) : AccessState ⊕ AccessExit :=
  match code.exTable.find? fun entry => entry.1 = s.pc with
  | some entry => .inl { s with pc := entry.2 }
  | none => .inr .oops

/-- The next place in the code. -/
def Place.next : Place → Place
  | .main i => .main (i + 1)
  | .fixup i => .fixup (i + 1)

/-- One instruction. -/
def Insn.exec (code : Sequence) (f : Faults .rv32) (ptr : Word .rv32) (s : AccessState) :
    Insn → AccessState ⊕ AccessExit
  | .lw half =>
    if faultsAt f.load (half.addr ptr) 4 then code.fixupException s
    else .inl { s with
      pc := s.pc.next
      regs := Function.update s.regs (.value half) (loadHalf s.mem (half.addr ptr)) }
  | .sw half =>
    if faultsAt f.store (half.addr ptr) 4 then code.fixupException s
    else .inl { s with
      pc := s.pc.next
      mem := storeBytes s.mem (half.addr ptr) 4 (halfBytes (s.regs (.value half)))
      stored := half :: s.stored }
  | .li rd v => .inl { s with pc := s.pc.next, regs := Function.update s.regs rd v }
  | .jump target => .inl { s with pc := .main target }

/-- The instruction at the current place; the sequence is left at the end of its main part. -/
def Sequence.step (code : Sequence) (f : Faults .rv32) (ptr : Word .rv32) (s : AccessState) :
    AccessState ⊕ AccessExit :=
  match s.pc with
  | .main i =>
    match code.main[i]? with
    | some insn => insn.exec code f ptr s
    | none => .inr (.done s)
  | .fixup i =>
    match code.fixup[i]? with
    | some insn => insn.exec code f ptr s
    | none => .inr .lost

/-- The start of `__get_user_8`, with `__gu_err` cleared. The other registers hold anything. -/
def getStart (regs : Operand → Word .rv32) (mem : Word .rv32 → Byte) : AccessState :=
  ⟨.main 0, Function.update regs .err 0, mem, []⟩

/-- The start of `__put_user_8`, with `__pu_err` cleared and the words of the value in their
registers. -/
def putStart (value : BitVec 64) (mem : Word .rv32 → Byte) : AccessState where
  pc := .main 0
  regs
    | .err => 0
    | .value .lsw => value.setWidth 32
    | .value .msw => (value >>> 32).setWidth 32
  mem := mem
  stored := []

/-- The result of `__get_user_8`: `((u64)__hi << 32) | __lo`. -/
def AccessState.result (s : AccessState) : BitVec 64 :=
  (s.regs (.value .msw)).setWidth 64 <<< 32 ||| (s.regs (.value .lsw)).setWidth 64

/-! ## What the accesses should do -/

/-- A word of the variable faults. -/
def Half.Bad (f : Word .rv32 → Bool) (ptr : Word .rv32) (half : Half) : Prop :=
  faultsAt f (half.addr ptr) 4 = true

instance (f : Word .rv32 → Bool) (ptr : Word .rv32) (half : Half) : Decidable (half.Bad f ptr) :=
  inferInstanceAs (Decidable (_ = true))

/-- No word of the variable faults. -/
def NoBad (f : Word .rv32 → Bool) (ptr : Word .rv32) : Prop := ∀ half : Half, ¬ half.Bad f ptr

/-- The load ends, returns 0 iff no word faulted and `-EFAULT` otherwise, and its result is the
variable or, after a fault, 0. -/
def GetRight (f : Faults .rv32) (ptr : Word .rv32) (regs : Operand → Word .rv32)
    (mem : Word .rv32 → Byte) : Prop :=
  ∃ e, Ends (getUser8.step f ptr) (getStart regs mem) (.done e) ∧
    (NoBad f.load ptr → e.regs .err = 0 ∧ e.result = ofBytes 8 (loadBytes mem ptr)) ∧
    (¬ NoBad f.load ptr → e.regs .err = negEfault ∧ e.result = 0)

/-- The store ends, returns 0 iff no word faulted and `-EFAULT` otherwise, has stored all bytes if
it returns 0, and has not stored to the second word after a fault of the first one. -/
def PutRight (f : Faults .rv32) (ptr : Word .rv32) (value : BitVec 64)
    (mem : Word .rv32 → Byte) : Prop :=
  ∃ e, Ends (putUser8.step f ptr) (putStart value mem) (.done e) ∧
    (NoBad f.store ptr → e.regs .err = 0 ∧
      ∀ i < 8, e.mem (ptr + BitVec.ofNat _ i) = byteAt (n := 8) value i) ∧
    (¬ NoBad f.store ptr → e.regs .err = negEfault) ∧
    (Half.lsw.Bad f.store ptr → .msw ∉ e.stored)

/-! ## Single accesses -/

section Runs

variable {f : Faults .rv32} {ptr : Word .rv32} {s : AccessState} {i : Nat} {half : Half}

/-- A load of a word that does not fault. -/
theorem step_lw (code : Sequence) (hpc : s.pc = .main i)
    (hinsn : code.main[i]? = some (.lw half))
    (h : ¬ half.Bad f.load ptr) : code.step f ptr s = .inl { s with
      pc := .main (i + 1)
      regs := Function.update s.regs (.value half) (loadHalf s.mem (half.addr ptr)) } := by
  have hnext : s.pc.next = .main (i + 1) := by rw [hpc, Place.next]
  unfold Half.Bad at h
  unfold Sequence.step
  rw [hpc]
  dsimp only
  rw [hinsn]
  dsimp only
  rw [Insn.exec, if_neg h, hnext]

/-- A store to a word that does not fault. -/
theorem step_sw (code : Sequence) (hpc : s.pc = .main i)
    (hinsn : code.main[i]? = some (.sw half))
    (h : ¬ half.Bad f.store ptr) : code.step f ptr s = .inl { s with
      pc := .main (i + 1)
      mem := storeBytes s.mem (half.addr ptr) 4 (halfBytes (s.regs (.value half)))
      stored := half :: s.stored } := by
  have hnext : s.pc.next = .main (i + 1) := by rw [hpc, Place.next]
  unfold Half.Bad at h
  unfold Sequence.step
  rw [hpc]
  dsimp only
  rw [hinsn]
  dsimp only
  rw [Insn.exec, if_neg h, hnext]

/-- An access that faults continues where the exception table says. -/
theorem step_bad (code : Sequence) (hpc : s.pc = .main i)
    (hinsn : code.main[i]? = some (.lw half) ∧ half.Bad f.load ptr ∨
      code.main[i]? = some (.sw half) ∧ half.Bad f.store ptr) :
    code.step f ptr s = code.fixupException s := by
  unfold Half.Bad at hinsn
  unfold Sequence.step
  rw [hpc]
  dsimp only
  rcases hinsn with ⟨hinsn, hbad⟩ | ⟨hinsn, hbad⟩
  · rw [hinsn]
    dsimp only
    rw [Insn.exec, if_pos hbad]
  · rw [hinsn]
    dsimp only
    rw [Insn.exec, if_pos hbad]

theorem fixupException_eq {code : Sequence}
    (hcode : code.exTable = [(.main 0, .fixup 0), (.main 1, .fixup 0)])
    (hpc : s.pc = .main 0 ∨ s.pc = .main 1) :
    code.fixupException s = .inl { s with pc := .fixup 0 } := by
  unfold Sequence.fixupException
  rcases hpc with hpc | hpc
  · simp [hcode, hpc]
  · simp [hcode, hpc]

/-! ## The load -/

theorem noBad_iff {f : Word .rv32 → Bool} :
    NoBad f ptr ↔ ¬ Half.lsw.Bad f ptr ∧ ¬ Half.msw.Bad f ptr := by
  constructor
  · intro h
    exact ⟨h _, h _⟩
  · rintro ⟨hlsw, hmsw⟩ half
    cases half
    · exact hlsw
    · exact hmsw

/-- The words of a value, put together as the load does it. -/
theorem halves_eq (mem : Word .rv32 → Byte) (ptr : Word .rv32) :
    (loadHalf mem (Half.msw.addr ptr)).setWidth 64 <<< 32 |||
        (loadHalf mem (Half.lsw.addr ptr)).setWidth 64 =
      ofBytes 8 (loadBytes mem ptr) := by
  refine eq_of_byteAt (n := 8) fun i hi => ?_
  have hshift := byteAt_shiftLeft (n := 8)
    ((ofBytes 4 (loadBytes mem (Half.msw.addr ptr))).setWidth (8 * 8)) 4 hi
  have hlow := byteAt_setWidth (m := 8) (ofBytes 4 (loadBytes mem (Half.lsw.addr ptr))) hi
  refine (byteAt_or (n := 8) _ _ i).trans ?_
  rw [byteAt_ofBytes _ hi]
  refine (congrArg₂ (· ||| ·) hshift hlow).trans ?_
  by_cases hi4 : i < 4
  · rw [if_pos hi4, byteAt_ofBytes _ hi4]
    simp [loadBytes, Half.addr]
  · have hsub : i - 4 < 4 := by omega
    have haddr : ptr + BitVec.ofNat (8 * szreg .rv32) 4 + BitVec.ofNat _ (i - 4) =
        ptr + BitVec.ofNat _ i := by
      rw [add_ofNat_add, Nat.add_sub_cancel' (Nat.not_lt.mp hi4)]
    rw [if_neg hi4, byteAt_of_ge _ (Nat.not_lt.mp hi4), byteAt_setWidth _ (by omega),
      byteAt_ofBytes _ hsub]
    refine (BitVec.or_zero).trans ?_
    exact congrArg mem haddr

/-- From its fixup the load ends with `-EFAULT` and 0. -/
theorem getUser8_fixup (hpc : s.pc = .fixup 0) :
    ∃ e, Ends (getUser8.step f ptr) s (.done e) ∧ e.regs .err = negEfault ∧ e.result = 0 := by
  obtain ⟨pc, regs, mem, stored⟩ := s
  obtain rfl : pc = .fixup 0 := hpc
  let regs' := Function.update (Function.update (Function.update regs .err negEfault)
    (.value .lsw) 0) (.value .msw) 0
  refine ⟨⟨.main 2, regs', mem, stored⟩, ⟨5, rfl⟩, ?_, ?_⟩
  · simp [regs']
  · simp [regs', AccessState.result]

/-- A load that has not faulted in its first word. -/
theorem getUser8_second (f : Faults .rv32) {mem : Word .rv32 → Byte}
    (hlsw : ¬ Half.lsw.Bad f.load ptr) (hpc : s.pc = .main 1) (hmem : s.mem = mem)
    (herr : s.regs .err = 0)
    (hlo : s.regs (.value .lsw) = loadHalf mem (Half.lsw.addr ptr)) :
    ∃ e, Ends (getUser8.step f ptr) s (.done e) ∧
      (NoBad f.load ptr → e.regs .err = 0 ∧ e.result = ofBytes 8 (loadBytes mem ptr)) ∧
      (¬ NoBad f.load ptr → e.regs .err = negEfault ∧ e.result = 0) := by
  by_cases hmsw : Half.msw.Bad f.load ptr
  · have hstep := step_bad getUser8 hpc (Or.inl ⟨rfl, hmsw⟩)
    rw [fixupException_eq rfl (Or.inr hpc)] at hstep
    obtain ⟨e, hends, hright⟩ := @getUser8_fixup f ptr { s with pc := .fixup 0 } rfl
    exact ⟨e, (ends_next_iff hstep).mpr hends, fun h => absurd hmsw (h _), fun _ => hright⟩
  · have hstep := step_lw getUser8 hpc rfl hmsw
    refine ⟨_, (ends_next_iff hstep).mpr (.last rfl), fun _ => ⟨?_, ?_⟩, fun h => ?_⟩
    · simpa using herr
    · simp only [AccessState.result, Function.update_self, ne_eq, reduceCtorEq, Operand.value.injEq,
        not_false_eq_true, Function.update_of_ne, hlo, hmem]
      exact halves_eq mem ptr
    · exact absurd (noBad_iff.mpr ⟨hlsw, hmsw⟩) h

/-- **The load always ends with the right result.** -/
theorem getUser8_right (f : Faults .rv32) (ptr : Word .rv32) (regs : Operand → Word .rv32)
    (mem : Word .rv32 → Byte) : GetRight f ptr regs mem := by
  by_cases hlsw : Half.lsw.Bad f.load ptr
  · have hstep := step_bad getUser8 (s := getStart regs mem) rfl (Or.inl ⟨rfl, hlsw⟩)
    rw [fixupException_eq rfl (Or.inl rfl)] at hstep
    obtain ⟨e, hends, hright⟩ := @getUser8_fixup f ptr { getStart regs mem with pc := .fixup 0 } rfl
    exact ⟨e, (ends_next_iff hstep).mpr hends, fun h => absurd hlsw (h _), fun _ => hright⟩
  · have hstep := step_lw getUser8 (s := getStart regs mem) rfl rfl hlsw
    let regs' := Function.update (Function.update regs .err 0) (.value .lsw)
      (loadHalf mem (Half.lsw.addr ptr))
    obtain ⟨e, hends, hright⟩ := @getUser8_second ptr ⟨.main 1, regs', mem, []⟩ f mem hlsw rfl rfl
      (by simp [regs']) (by simp [regs'])
    exact ⟨e, (ends_next_iff hstep).mpr hends, hright⟩

/-! ## The store -/

/-- From its fixup the store goes on at its second word, with the error set. -/
theorem putUser8_fixup {e : AccessExit} (hpc : s.pc = .fixup 0) :
    Ends (putUser8.step f ptr) s e ↔ Ends (putUser8.step f ptr)
      { s with pc := .main 1, regs := Function.update s.regs .err negEfault } e := by
  obtain ⟨pc, regs, mem, stored⟩ := s
  obtain rfl : pc = .fixup 0 := hpc
  rw [ends_next_iff (show putUser8.step f ptr _ = .inl
      ⟨.fixup 1, Function.update regs .err negEfault, mem, stored⟩ from rfl),
    ends_next_iff (show putUser8.step f ptr _ = .inl
      ⟨.main 1, Function.update regs .err negEfault, mem, stored⟩ from rfl)]

/-- **The store never ends once its second word faults.** -/
theorem putUser8_second (hmsw : Half.msw.Bad f.store ptr) {e : AccessExit}
    (hpc : s.pc = .main 1) : ¬ Ends (putUser8.step f ptr) s e := by
  intro hends
  refine @Ends.invariant _ _ (putUser8.step f ptr) s e
    (fun s => s.pc = .main 1 ∨ s.pc = .fixup 0 ∨ s.pc = .fixup 1) (fun _ => False)
    ?_ ?_ hends (Or.inl hpc)
  · rintro s s' (hpc | hpc | hpc) hstep
    · rw [step_bad putUser8 hpc (Or.inr ⟨rfl, hmsw⟩), fixupException_eq rfl (Or.inr hpc)] at hstep
      obtain rfl := Sum.inl.inj hstep
      exact Or.inr (Or.inl rfl)
    · simp [Sequence.step, hpc, putUser8, Insn.exec] at hstep
      subst hstep
      exact Or.inr (Or.inr (by simp [Place.next]))
    · simp [Sequence.step, hpc, putUser8, Insn.exec] at hstep
      subst hstep
      exact Or.inl rfl
  · rintro s e (hpc | hpc | hpc) hstep
    · rw [step_bad putUser8 hpc (Or.inr ⟨rfl, hmsw⟩), fixupException_eq rfl (Or.inr hpc)] at hstep
      cases hstep
    · simp [Sequence.step, hpc, putUser8, Insn.exec] at hstep
    · simp [Sequence.step, hpc, putUser8, Insn.exec] at hstep

/-- A store whose second word does not fault ends with that word stored. -/
theorem putUser8_last (hmsw : ¬ Half.msw.Bad f.store ptr) (hpc : s.pc = .main 1) :
    Ends (putUser8.step f ptr) s (.done { s with
      pc := .main 2
      mem := storeBytes s.mem (Half.msw.addr ptr) 4 (halfBytes (s.regs (.value .msw)))
      stored := .msw :: s.stored }) :=
  (ends_next_iff (step_sw putUser8 hpc rfl hmsw)).mpr (.last rfl)

/-- The bytes that the two stores leave. -/
theorem stored_value (value : BitVec 64) (mem : Word .rv32 → Byte) (ptr : Word .rv32) {i : Nat}
    (hi : i < 8) :
    storeBytes
        (storeBytes mem (Half.lsw.addr ptr) 4 (halfBytes (value.setWidth 32)))
        (Half.msw.addr ptr) 4 (halfBytes ((value >>> 32).setWidth 32))
        (ptr + BitVec.ofNat _ i) = byteAt (n := 8) value i := by
  have hfirst : (ptr + BitVec.ofNat (8 * szreg .rv32) i - ptr).toNat = i :=
    toNat_add_ofNat_sub ptr (hi.trans (by decide))
  have hcancel : ptr + BitVec.ofNat (8 * szreg .rv32) i - (ptr + 4) =
      BitVec.ofNat (8 * szreg .rv32) i - 4 := by
    rw [← BitVec.sub_sub, BitVec.add_comm, BitVec.add_sub_cancel]
  have hsecond : (ptr + BitVec.ofNat (8 * szreg .rv32) i - (ptr + 4)).toNat =
      if 4 ≤ i then i - 4 else 2 ^ 32 + i - 4 := by
    have hval : (BitVec.ofNat (8 * szreg .rv32) i).toNat = i := by
      rw [BitVec.toNat_ofNat]
      exact Nat.mod_eq_of_lt (hi.trans (by decide))
    rw [hcancel, toNat_sub_ite, hval]
    rfl
  unfold storeBytes halfBytes Half.addr
  dsimp only
  rw [hsecond, hfirst]
  by_cases hi4 : 4 ≤ i
  · rw [if_pos hi4, if_pos (by omega)]
    have hlt : i - 4 < 4 := by omega
    refine (byteAt_setWidth (m := 4) (n := 8) (value >>> 32) hlt).trans ?_
    rw [byteAt_ushiftRight (n := 8) value 4, Nat.add_sub_cancel' hi4]
  · rw [if_neg hi4, if_neg (by omega), if_pos (by omega)]
    exact byteAt_setWidth (m := 4) (n := 8) value (by omega)

/-- A store without a fault does what it should. -/
theorem putUser8_of_noFault (value : BitVec 64) (mem : Word .rv32 → Byte)
    (h : NoBad f.store ptr) : PutRight f ptr value mem := by
  have hfirst := step_sw putUser8 (s := putStart value mem) rfl rfl (h .lsw)
  refine ⟨_, (ends_next_iff hfirst).mpr (putUser8_last (h .msw) rfl), fun _ => ⟨rfl, ?_⟩,
    fun hbad => absurd h hbad, fun hlsw => absurd hlsw (h _)⟩
  exact fun i hi => stored_value value mem ptr hi

/-- After a fault of the first word the store does not end, or the second word is written. -/
theorem putUser8_first (value : BitVec 64) (mem : Word .rv32 → Byte)
    (hlsw : Half.lsw.Bad f.store ptr) : ¬ PutRight f ptr value mem := by
  rintro ⟨e, hends, -, -, hkept⟩
  have hstep := step_bad putUser8 (s := putStart value mem) rfl (Or.inr ⟨rfl, hlsw⟩)
  rw [fixupException_eq rfl (Or.inl rfl)] at hstep
  have hsecond := (putUser8_fixup rfl).mp ((ends_next_iff hstep).mp hends)
  by_cases hmsw : Half.msw.Bad f.store ptr
  · exact putUser8_second hmsw rfl hsecond
  · have heq := hsecond.unique (putUser8_last hmsw rfl)
    obtain rfl := AccessExit.done.inj heq
    exact hkept hlsw (List.mem_cons_self ..)

/-- **The accesses are right iff neither word of the store faults.** -/
theorem userAccess8_right_iff (f : Faults .rv32) (ptr : Word .rv32)
    (regs : Operand → Word .rv32) (value : BitVec 64) (mem : Word .rv32 → Byte) :
    GetRight f ptr regs mem ∧ PutRight f ptr value mem ↔ NoBad f.store ptr := by
  constructor
  · rintro ⟨-, hput⟩
    refine noBad_iff.mpr ⟨fun hlsw => putUser8_first value mem hlsw hput, fun hmsw => ?_⟩
    by_cases hlsw : Half.lsw.Bad f.store ptr
    · exact putUser8_first value mem hlsw hput
    · obtain ⟨e, hends, -⟩ := hput
      have hstep := step_sw putUser8 (s := putStart value mem) rfl rfl hlsw
      exact putUser8_second hmsw rfl ((ends_next_iff hstep).mp hends)
  · exact fun h => ⟨getUser8_right f ptr regs mem, putUser8_of_noFault value mem h⟩

/-- A store whose second word lies on a page that is not mapped. -/
theorem userAccess8_page_end :
    ¬ (GetRight ⟨fun a => decide (0x1000 ≤ a), fun a => decide (0x1000 ≤ a)⟩ 0xffc (fun _ => 0)
        (fun _ => 0) ∧
      PutRight ⟨fun a => decide (0x1000 ≤ a), fun a => decide (0x1000 ≤ a)⟩ 0xffc
        0x1122334455667788 fun _ => 0) := by
  rintro ⟨-, e, hends, -⟩
  have hlsw : ¬ Half.lsw.Bad (fun a => decide ((0x1000 : Word .rv32) ≤ a)) 0xffc := by decide
  have hstep := step_sw putUser8
    (f := ⟨fun a => decide (0x1000 ≤ a), fun a => decide (0x1000 ≤ a)⟩)
    (s := putStart 0x1122334455667788 fun _ => 0) rfl rfl hlsw
  exact putUser8_second (by decide) rfl ((ends_next_iff hstep).mp hends)

end Runs

end LowriscLinux.Mm
