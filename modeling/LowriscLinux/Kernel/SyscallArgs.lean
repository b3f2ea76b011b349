import LowriscLinux.Kernel.Asm
import LowriscLinux.Mm.MemAccess

/-!
# Arguments of a system call

Model of `syscall_get_arguments` and `syscall_set_arguments` (`arch/riscv/include/asm/syscall.h`,
lines 72-88), which copy the argument registers of a stopped task from and to its `struct pt_regs`
in memory.

The position is `&regs->a0 + i * sizeof(regs->a0)` (lines 78 and 87). The addition is one of a
pointer to `unsigned long`, which scales its operand by that size once more: the word that is
reached for argument `i` is `i * sizeof(regs->a0)` words behind `a0`.

## What models what

* `ptrAdd`: addition to a pointer to `unsigned long`. `argumentsPtr`: the position, with `i` an
  `unsigned int` that is converted to `unsigned long` before the product.
* `argumentsSize`: the third argument of `memcpy`.
* `memcpyMem`: memory after a `memcpy` between ranges that do not overlap. That `memcpy` of this
  repository does this is `Mm/Memcpy.lean`.
* `syscallGetArguments` and `syscallSetArguments`: the two functions, where `none` is the `BUG_ON`
  (lines 77 and 86), whose sum is one of 32 bits.
* `argRegs`: `a0` to `a5`, the six arguments that the `BUG_ON` allows.

Memory is bytes, and `struct pt_regs` is at an address of it (`frameAt`). `Placed` says that the
structure and the array are objects: neither wraps around the address space, and they are apart.

Results:
* `argumentsPtr_eq`: the word that is reached.
* `memcpyMem_word`, `agree_memcpyMem`: what a copy of whole words leaves in memory.
* **`argumentsExact_iff`**: the two functions access the right registers iff they begin with the
  first argument or copy nothing.
-/

namespace LowriscLinux.Kernel

open Lib Entry Mm

variable {w : Xlen}

/-- `p + k`, for a pointer to `unsigned long`. -/
def ptrAdd (p k : Word w) : Word w := p + k * BitVec.ofNat _ (szreg w)

/-- `&regs->a0 + i * sizeof(regs->a0)`. -/
def argumentsPtr (regs : Word w) (i : BitVec 32) : Word w :=
  ptrAdd (regs + BitVec.ofNat _ ((Slot.x .a0).offset w)) (i.setWidth _ * BitVec.ofNat _ (szreg w))

/-- `n * sizeof(args[0])`. -/
def argumentsSize (n : BitVec 32) : Word w := n.setWidth _ * BitVec.ofNat _ (szreg w)

/-- Memory after a `memcpy`, for ranges that do not overlap. -/
def memcpyMem (mem : Memory (8 * szreg w)) (dst src size : Word w) : Memory (8 * szreg w) :=
  Mm.copied mem dst src size.toNat

/-- `syscall_get_arguments`; `none` is the `BUG_ON`. -/
def syscallGetArguments (mem : Memory (8 * szreg w)) (regs : Word w) (i n : BitVec 32)
    (args : Word w) : Option (Memory (8 * szreg w)) :=
  if i + n > 6 then none else some (memcpyMem mem args (argumentsPtr regs i) (argumentsSize n))

/-- `syscall_set_arguments`; `none` is the `BUG_ON`. -/
def syscallSetArguments (mem : Memory (8 * szreg w)) (regs : Word w) (i n : BitVec 32)
    (args : Word w) : Option (Memory (8 * szreg w)) :=
  if i + n > 6 then none else some (memcpyMem mem (argumentsPtr regs i) args (argumentsSize n))

/-! ## What the functions should do -/

/-- The argument registers. -/
def argRegs : List Reg := [.a0, .a1, .a2, .a3, .a4, .a5]

/-- `args[k]`. -/
def argument (mem : Memory (8 * szreg w)) (args : Word w) (k : Nat) : Word w :=
  loadWord (szreg w) mem (args + BitVec.ofNat _ (szreg w * k))

/-- The structure and an array of `n` arguments are objects that do not overlap. -/
structure Placed (regs args : Word w) (n : Nat) : Prop where
  regs_fit : regs.toNat + ptSize w < 2 ^ (8 * szreg w)
  args_fit : args.toNat + szreg w * n < 2 ^ (8 * szreg w)
  disjoint : args.toNat + szreg w * n ≤ regs.toNat ∨ regs.toNat + ptSize w ≤ args.toNat

/-- The array holds the arguments from number `i` on. -/
def GetExact (w : Xlen) (i n : BitVec 32) : Prop :=
  ∀ (mem : Memory (8 * szreg w)) (regs args : Word w), Placed regs args n.toNat →
    ∃ mem', syscallGetArguments mem regs i n args = some mem' ∧
      ∀ k < n.toNat, ∀ r, argRegs[i.toNat + k]? = some r →
        argument mem' args k = (frameAt mem regs).x r

/-- The arguments from number `i` on are those of the array, the other words of the structure are
as they were, and so is memory outside of it. -/
def SetExact (w : Xlen) (i n : BitVec 32) : Prop :=
  ∀ (mem : Memory (8 * szreg w)) (regs args : Word w), Placed regs args n.toNat →
    ∃ mem', syscallSetArguments mem regs i n args = some mem' ∧
      (∀ k < n.toNat, ∀ r, argRegs[i.toNat + k]? = some r →
        (frameAt mem' regs).x r = argument mem args k) ∧
      (∀ s, (∀ k < n.toNat, ∀ r, argRegs[i.toNat + k]? = some r → s ≠ .x r) →
        (frameAt mem' regs).get s = (frameAt mem regs).get s) ∧
      ∀ a, a.toNat < regs.toNat ∨ regs.toNat + ptSize w ≤ a.toNat → mem' a = mem a

/-- What was set is what is got. -/
def SetGet (w : Xlen) (i n : BitVec 32) : Prop :=
  ∀ (mem : Memory (8 * szreg w)) (regs args out : Word w), Placed regs args n.toNat →
    Placed regs out n.toNat →
    ∃ mem' mem'', syscallSetArguments mem regs i n args = some mem' ∧
      syscallGetArguments mem' regs i n out = some mem'' ∧
      ∀ k < n.toNat, argument mem'' out k = argument mem args k

structure ArgumentsExact (w : Xlen) (i n : BitVec 32) : Prop where
  get : GetExact w i n
  set : SetExact w i n
  setGet : SetGet w i n

/-! ## Copies of words -/

section Copies

variable {mem : Memory (8 * szreg w)} {dst src size regs : Word w} {i n : BitVec 32}

/-- A word in a copied range. -/
theorem memcpyMem_word {j : Nat} (h : j + szreg w ≤ size.toNat) :
    loadWord (szreg w) (memcpyMem mem dst src size) (dst + BitVec.ofNat _ j) =
      loadWord (szreg w) mem (src + BitVec.ofNat _ j) := by
  refine eq_of_byteAt fun b hb => ?_
  have hlt : j + b < 2 ^ (8 * szreg w) := by
    have := size.isLt
    omega
  rw [loadWord, loadWord, byteAt_ofBytes _ hb, byteAt_ofBytes _ hb, add_ofNat_add, add_ofNat_add,
    memcpyMem, Mm.copied, storeBytes_at (by omega) hlt, loadBytes]

/-- Memory outside of a copied range. -/
theorem agree_memcpyMem {lo hi : Nat} (hfit : dst.toNat + size.toNat ≤ 2 ^ (8 * szreg w))
    (h : hi ≤ dst.toNat ∨ dst.toNat + size.toNat ≤ lo) :
    Agree mem (memcpyMem mem dst src size) lo hi := by
  intro a hlo hhi
  have hdist := toNat_sub_ite a dst
  have ha := a.isLt
  unfold memcpyMem Mm.copied storeBytes
  rw [if_neg]
  split at hdist <;> omega

theorem memcpyMem_zero (h : size.toNat = 0) : memcpyMem mem dst src size = mem := by
  rw [memcpyMem, h, copied_zero]

theorem szreg_mul_lt (w : Xlen) {k : Nat} (h : k ≤ 6) : szreg w * k < 2 ^ (8 * szreg w) := by
  cases w
  · exact lt_of_le_of_lt (Nat.mul_le_mul_left 4 h) (by decide)
  · exact lt_of_le_of_lt (Nat.mul_le_mul_left 8 h) (by decide)

theorem toNat_argumentsSize (h : n.toNat ≤ 6) :
    (argumentsSize n : Word w).toNat = szreg w * n.toNat := by
  have hofNat : (n.setWidth (8 * szreg w)) = BitVec.ofNat _ n.toNat := by
    rw [← BitVec.ofNat_toNat]
  rw [argumentsSize, hofNat, ← BitVec.ofNat_mul, BitVec.toNat_ofNat, Nat.mul_comm,
    Nat.mod_eq_of_lt (szreg_mul_lt w h)]

/-- **The word that is reached for argument `i`** is scaled twice. -/
theorem argumentsPtr_eq (regs : Word w) (i : BitVec 32) :
    argumentsPtr regs i = regs + BitVec.ofNat _ (szreg w * (10 + szreg w * i.toNat)) := by
  have hofNat : (i.setWidth (8 * szreg w)) = BitVec.ofNat _ i.toNat := by
    rw [← BitVec.ofNat_toNat]
  have hoff : (Slot.x .a0).offset w = szreg w * 10 := rfl
  have hscale : szreg w * 10 + i.toNat * szreg w * szreg w =
      szreg w * (10 + szreg w * i.toNat) := by
    rw [Nat.mul_add, Nat.mul_comm i.toNat, Nat.mul_comm (szreg w * i.toNat)]
  rw [argumentsPtr, ptrAdd, hofNat, hoff, ← BitVec.ofNat_mul, ← BitVec.ofNat_mul, add_ofNat_add,
    hscale]

/-- The words of the argument registers follow each other. -/
theorem index_argRegs {k : Nat} {r : Reg} (h : argRegs[k]? = some r) :
    (Slot.x r).index = 10 + k := by
  have hk : k < 6 := (List.getElem?_eq_some_iff.mp h).1
  have all : ∀ k < 6, ∀ r ∈ argRegs[k]?, (Slot.x r).index = 10 + k := by decide
  exact all k hk r h

/-- A word of the structure, by its position. -/
theorem frameAt_x {k : Nat} {r : Reg} (mem : Memory (8 * szreg w)) (regs : Word w)
    (h : argRegs[k]? = some r) :
    (frameAt mem regs).x r =
      loadWord (szreg w) mem (regs + BitVec.ofNat _ (szreg w * (10 + k))) := by
  have hget := frameAt_get mem regs (.x r)
  rwa [Slot.offset, index_argRegs h] at hget

/-- **The word that is got for each argument** follows the one that is reached. -/
theorem argument_got {k : Nat} (args : Word w) (h : n.toNat ≤ 6) (hk : k < n.toNat) :
    argument (memcpyMem mem args (argumentsPtr regs i) (argumentsSize n)) args k =
      loadWord (szreg w) mem
        (regs + BitVec.ofNat _ (szreg w * (10 + szreg w * i.toNat + k))) := by
  have hk' : szreg w * k + szreg w ≤ (argumentsSize n : Word w).toNat := by
    rw [toNat_argumentsSize h, ← Nat.mul_succ]
    exact Nat.mul_le_mul_left _ hk
  rw [argument, memcpyMem_word hk', argumentsPtr_eq, add_ofNat_add, ← Nat.mul_add]

theorem bug_iff (h : i.toNat + n.toNat ≤ 6) : ¬ i + n > 6 := by
  have hsum : (i + n).toNat = i.toNat + n.toNat := by
    rw [BitVec.toNat_add, Nat.mod_eq_of_lt (by omega)]
  show ¬ (6 : BitVec 32) < i + n
  rw [BitVec.lt_def, hsum]
  exact Nat.not_lt.mpr h

theorem getArguments_of_le (args : Word w) (h : i.toNat + n.toNat ≤ 6) :
    syscallGetArguments mem regs i n args =
      some (memcpyMem mem args (argumentsPtr regs i) (argumentsSize n)) := if_neg (bug_iff h)

theorem setArguments_of_le (args : Word w) (h : i.toNat + n.toNat ≤ 6) :
    syscallSetArguments mem regs i n args =
      some (memcpyMem mem (argumentsPtr regs i) args (argumentsSize n)) := if_neg (bug_iff h)

end Copies

/-! ## The first argument -/

section First

variable {i n : BitVec 32} {mem : Memory (8 * szreg w)} {regs args : Word w}

/-- A copy of no words does what it should. -/
theorem argumentsExact_none (hn : n = 0) (h : i.toNat + n.toNat ≤ 6) : ArgumentsExact w i n := by
  subst hn
  have hsize : (argumentsSize 0 : Word w).toNat = 0 := toNat_argumentsSize (n := 0) (by decide)
  have hno : ∀ {P : Prop} {k : Nat}, k < (0 : BitVec 32).toNat → P := fun hk => absurd hk (by simp)
  constructor
  case get =>
    intro mem regs args _
    exact ⟨_, getArguments_of_le args h, fun k hk => hno hk⟩
  case set =>
    intro mem regs args _
    refine ⟨_, setArguments_of_le args h, fun k hk => hno hk, fun s _ => ?_, fun a _ => ?_⟩
    · rw [memcpyMem_zero hsize]
    · rw [memcpyMem_zero hsize]
  case setGet =>
    intro mem regs args out _ _
    exact ⟨_, _, setArguments_of_le args h, getArguments_of_le out h, fun k hk => hno hk⟩

/-- The first argument is reached. -/
theorem argumentsPtr_zero (regs : Word w) :
    argumentsPtr regs 0 = regs + BitVec.ofNat _ (szreg w * 10) := argumentsPtr_eq regs 0

theorem toNat_argumentsPtr_zero (hfit : regs.toNat + ptSize w < 2 ^ (8 * szreg w)) :
    (argumentsPtr regs 0).toNat = regs.toNat + szreg w * 10 := by
  have hlt : szreg w * 10 < ptSize w := Nat.mul_lt_mul_of_pos_left (by decide) (szreg_pos w)
  rw [argumentsPtr_zero, toNat_add_lt (by omega)]

/-- From the first argument on the registers are copied to the array. -/
theorem getExact_first (h : n.toNat ≤ 6) : GetExact w 0 n := by
  intro mem regs args _
  have hle : (0 : BitVec 32).toNat + n.toNat ≤ 6 := by simpa using h
  refine ⟨_, getArguments_of_le args hle, fun k hk r hr => ?_⟩
  have hr : argRegs[k]? = some r := by simpa using hr
  rw [argument_got args h hk, frameAt_x mem regs hr]
  rfl

/-- A word that is none of the registers lies before or behind them. -/
theorem index_outside {s : Slot} {n : Nat} (hn : n ≤ 6)
    (hs : ∀ k < n, ∀ r, argRegs[k]? = some r → s ≠ .x r) : s.index < 10 ∨ 10 + n ≤ s.index := by
  by_contra hin
  have hslot : ∀ j < 6, (Slot.layout[10 + j]?) = (argRegs[j]?).map Slot.x := by decide
  have hlt : s.index - 10 < 6 := by omega
  have hlayout := Slot.layout_index s
  rw [show s.index = 10 + (s.index - 10) by omega, hslot _ hlt] at hlayout
  obtain ⟨r, hr, heq⟩ := Option.map_eq_some_iff.mp hlayout
  exact hs (s.index - 10) (by omega) r hr heq.symm

/-- From the first argument on the registers are copied from the array. -/
theorem setExact_first (h : n.toNat ≤ 6) : SetExact w 0 n := by
  intro mem regs args hplaced
  have hle : (0 : BitVec 32).toNat + n.toNat ≤ 6 := by simpa using h
  have hsize : (argumentsSize n : Word w).toNat = szreg w * n.toNat := toNat_argumentsSize h
  have hptr := toNat_argumentsPtr_zero hplaced.regs_fit
  have hend : szreg w * 10 + szreg w * n.toNat ≤ ptSize w := by
    rw [← Nat.mul_add]
    exact Nat.mul_le_mul_left _ (by omega)
  have hfit := hplaced.regs_fit
  refine ⟨_, setArguments_of_le args hle, fun k hk r hr => ?_, fun s hs => ?_, fun a ha => ?_⟩
  · have hr : argRegs[k]? = some r := by simpa using hr
    have hk' : szreg w * k + szreg w ≤ (argumentsSize n : Word w).toNat := by
      rw [hsize, ← Nat.mul_succ]
      exact Nat.mul_le_mul_left _ hk
    rw [frameAt_x _ regs hr, Nat.mul_add, ← add_ofNat_add, ← argumentsPtr_zero,
      memcpyMem_word hk', argument]
  · have hrange := index_outside h fun k hk r hr => hs k hk r (by simpa using hr)
    have hmul : szreg w * s.index + szreg w ≤ szreg w * 10 ∨
        szreg w * 10 + szreg w * n.toNat ≤ szreg w * s.index := by
      rw [← Nat.mul_succ, ← Nat.mul_add]
      rcases hrange with hlt | hle'
      · exact Or.inl (Nat.mul_le_mul_left _ hlt)
      · exact Or.inr (Nat.mul_le_mul_left _ hle')
    have hslot := toNat_slot hfit s
    have hslotEnd := offset_add_le (w := w) s
    rw [frameAt_get, frameAt_get]
    refine loadWord_congr (by omega) (agree_memcpyMem (by omega) ?_)
    unfold Slot.offset at hslot ⊢
    omega
  · have houtside : a.toNat + 1 ≤ (argumentsPtr regs 0).toNat ∨
        (argumentsPtr regs 0).toNat + (argumentsSize n : Word w).toNat ≤ a.toNat := by omega
    exact agree_memcpyMem (by omega) houtside a le_rfl (Nat.lt_succ_self _)

/-- What was set from the first argument on is what is got. -/
theorem setGet_first (h : n.toNat ≤ 6) : SetGet w 0 n := by
  intro mem regs args out hargs hout
  obtain ⟨mem', hset, hregs, -, -⟩ := setExact_first h mem regs args hargs
  obtain ⟨mem'', hget, hwords⟩ := getExact_first h mem' regs out hout
  refine ⟨mem', mem'', hset, hget, fun k hk => ?_⟩
  obtain ⟨r, hr⟩ : ∃ r, argRegs[(0 : BitVec 32).toNat + k]? = some r :=
    ⟨_, List.getElem?_eq_getElem (show (0 : BitVec 32).toNat + k < 6 by simp; omega)⟩
  rw [hwords k hk r hr, hregs k hk r hr]

end First

/-! ## Another argument -/

/-- Where the structure and the array lie in an example. -/
def lowRegs : Word w := 0x1000

def lowArgs : Word w := 0x4000

theorem toNat_lowRegs : (lowRegs : Word w).toNat = 0x1000 := by cases w <;> rfl

theorem placed_low {n : Nat} (hn : n ≤ 6) : Placed (lowRegs : Word w) lowArgs n := by
  have hlast : szreg w * n ≤ szreg w * 6 := Nat.mul_le_mul_left _ hn
  have hsmall : szreg w * 6 < 0x4000 ∧ ptSize w < 0x3000 ∧ 0x8000 < 2 ^ (8 * szreg w) := by
    cases w <;> decide
  have hregs := toNat_lowRegs (w := w)
  have hargs : (lowArgs : Word w).toNat = 0x4000 := by cases w <;> rfl
  exact ⟨by omega, by omega, by omega⟩

/-- The words behind the start of the structure, as far as the copies reach. -/
theorem toNat_lowWord {k : Nat} (hk : k < 63) :
    ((lowRegs : Word w) + BitVec.ofNat _ (szreg w * k)).toNat = 0x1000 + szreg w * k ∧
      0x1000 + szreg w * k + szreg w < 2 ^ (8 * szreg w) := by
  have hlt : szreg w * (k + 1) < szreg w * 64 :=
    Nat.mul_lt_mul_of_pos_left (by omega) (szreg_pos w)
  have hspace : 0x1000 + szreg w * 64 < 2 ^ (8 * szreg w) := by cases w <;> decide
  have hregs := toNat_lowRegs (w := w)
  rw [Nat.mul_succ] at hlt
  rw [toNat_add_lt (by omega), hregs]
  exact ⟨rfl, by omega⟩

/-- For an argument after the first another word than its register is got. With a 1 in the register
and zeros elsewhere this is zero. -/
theorem not_getExact {i n : BitVec 32} (hi : i ≠ 0) (hn : n ≠ 0) (h : i.toNat + n.toNat ≤ 6) :
    ¬ GetExact w i n := by
  intro hexact
  have hi' : 0 < i.toNat := Nat.pos_of_ne_zero fun h0 => hi (BitVec.eq_of_toNat_eq h0)
  have hn' : 0 < n.toNat := Nat.pos_of_ne_zero fun h0 => hn (BitVec.eq_of_toNat_eq h0)
  obtain ⟨r, hr⟩ : ∃ r, argRegs[i.toNat]? = some r :=
    ⟨_, List.getElem?_eq_getElem (show i.toNat < 6 by omega)⟩
  let reg : Word w := lowRegs + BitVec.ofNat _ (szreg w * (10 + i.toNat))
  let mem : Memory (8 * szreg w) := storeWord (fun _ => 0) reg (1 : Word w)
  obtain ⟨mem', hget, hwords⟩ := hexact mem lowRegs lowArgs (placed_low (by omega))
  obtain rfl := Option.some.inj ((getArguments_of_le lowArgs h).symm.trans hget)
  have hfirst := hwords 0 hn' r hr
  rw [argument_got lowArgs (by omega) hn', frameAt_x mem lowRegs hr] at hfirst
  -- The word that is read lies behind the register.
  have hfour : 4 * i.toNat ≤ szreg w * i.toNat := Nat.mul_le_mul_right _ (by cases w <;> decide)
  have height : szreg w * i.toNat ≤ 8 * i.toNat := Nat.mul_le_mul_right _ (by cases w <;> decide)
  obtain ⟨hreg, hregFit⟩ := toNat_lowWord (w := w) (k := 10 + i.toNat) (by omega)
  obtain ⟨hfar, hfarFit⟩ := toNat_lowWord (w := w) (k := 10 + szreg w * i.toNat + 0) (by omega)
  have hreg' : reg.toNat = 0x1000 + szreg w * (10 + i.toNat) := hreg
  have hbehind : szreg w * (10 + i.toNat) + szreg w ≤ szreg w * (10 + szreg w * i.toNat + 0) := by
    rw [← Nat.mul_succ]
    exact Nat.mul_le_mul_left _ (by omega)
  have hone : loadWord (szreg w) mem reg = (1 : Word w) := loadWord_storeWord (by omega) 1
  rw [hone, loadWord_storeWord_apart (by omega) (by omega) 1 (Or.inr (by omega))] at hfirst
  have hzero : ofBytes (szreg w) (fun _ => 0) = (1 : Word w) := hfirst
  cases w
  · exact absurd hzero (by decide)
  · exact absurd hzero (by decide)

/-- **The arguments are accessed right iff the first one is among them, or none is.** -/
theorem argumentsExact_iff (w : Xlen) (i n : BitVec 32) (h : i.toNat + n.toNat ≤ 6) :
    ArgumentsExact w i n ↔ i = 0 ∨ n = 0 := by
  constructor
  · intro hexact
    by_contra hno
    obtain ⟨hi, hn⟩ := not_or.mp hno
    exact not_getExact hi hn h hexact.get
  · rintro (rfl | hn)
    · have hn : n.toNat ≤ 6 := by simpa using h
      exact ⟨getExact_first hn, setExact_first hn, setGet_first hn⟩
    · exact argumentsExact_none hn h

/-- All six arguments at once. -/
theorem argumentsExact_all :
    (0 : BitVec 32).toNat + (6 : BitVec 32).toNat ≤ 6 ∧ ArgumentsExact .rv64 0 6 :=
  ⟨by decide, (argumentsExact_iff .rv64 0 6 (by decide)).mpr (.inl rfl)⟩

/-- **The second argument alone is not accessed.** -/
theorem not_argumentsExact_second :
    (1 : BitVec 32).toNat + (1 : BitVec 32).toNat ≤ 6 ∧ ¬ ArgumentsExact .rv64 1 1 :=
  ⟨by decide, fun hexact => not_getExact (by decide) (by decide) (by decide) hexact.get⟩

end LowriscLinux.Kernel
