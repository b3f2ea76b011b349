import LowriscLinux.Lib.Transition
import Mathlib.Data.BitVec

/-!
# Loops of load-reserved and store-conditional

A routine that changes one location of `n` bits: it loads the location into a register of `x` bits
with a reservation (`lr`), computes and may leave the loop, and stores with a store-conditional
(`sc`), which it does again until that succeeds. Other harts store to the location at any time, and
break the reservation. A store-conditional succeeds only with a reservation; it may fail for no
reason, with any code but 0.

`loaded`, `writes` and `failed` are bookkeeping: the location at the last load, what each store of
the routine has found and left in the location, and the codes of the stores that failed, the last
one first.

Results:
* `pass_take`: the instructions between the load and the store, one at a time.
* `AtPc.exec`: the invariant, by instruction.
* `exists_returned`: a loop that runs alone is back after its first load.
* **`loop_returned`**: in every run a routine that is back has left the loop after its last load
  without a store, or has stored once, over what it had loaded last.
-/

namespace LowriscLinux.Lib.Reserved

/-- An instruction between the load and the store. `%0` is the register of the load, and a branch
leaves the loop. -/
inductive Mid (x : Nat)
  /-- `add %0, %0, v` -/
  | add (v : BitVec x)
  /-- `bltz %0, 1f` -/
  | bltz
  /-- `beq %0, v, 1f` -/
  | beq (v : BitVec x)
  /-- `bne %0, v, 1f` -/
  | bne (v : BitVec x)
  deriving DecidableEq, Repr

/-- The instructions of a routine, with the widths of their accesses. -/
inductive Instr (x : Nat)
  /-- `lr %0, loc` -/
  | lr (bits : Nat)
  | mid (m : Mid x)
  /-- `sc %1, src, loc`, where the source is `%0` or another register. -/
  | sc (bits : Nat) (src : Option (BitVec x))
  /-- `bnez %1, 0b` -/
  | bnez
  deriving DecidableEq, Repr

/-- The location, the registers and the place of a routine. -/
structure State (n x : Nat) where
  mem : BitVec n
  reserved : Bool
  pc : Nat
  /-- `%0` -/
  value : BitVec x
  /-- `%1` -/
  status : BitVec x
  loaded : BitVec n
  writes : List (BitVec n × BitVec n)
  failed : List (BitVec x)
  deriving DecidableEq, Repr

inductive Act (n x : Nat)
  /-- The next instruction, with the code that a store-conditional leaves. -/
  | instr (code : BitVec x)
  /-- Another hart stores to the location. -/
  | other (v : BitVec n)
  deriving DecidableEq, Repr

variable {n x : Nat}

/-- What an instruction makes of the register. -/
def Mid.value : Mid x → BitVec x → BitVec x
  | .add v, r => r + v
  | .bltz, r => r
  | .beq _, r => r
  | .bne _, r => r

/-- An instruction leaves the loop. -/
def Mid.leaves : Mid x → BitVec x → Bool
  | .add _, _ => false
  | .bltz, r => r.msb
  | .beq v, r => r = v
  | .bne v, r => r ≠ v

/-- The location after a store of the low bits of a register. -/
def storeLow (bits : Nat) (mem : BitVec n) (r : BitVec x) : BitVec n :=
  (mem >>> bits) <<< bits ||| (r.setWidth bits).setWidth n

/-- What a load of the low bits of the location leaves in a register. -/
def loadLow (bits : Nat) (mem : BitVec n) : BitVec x := (mem.setWidth bits).signExtend x

/-- A store of the low bits leaves the others. -/
theorem toNat_storeLow {bits : Nat} (h : bits ≤ n) (mem : BitVec n) (r : BitVec x) :
    (storeLow bits mem r).toNat = mem.toNat / 2 ^ bits * 2 ^ bits + r.toNat % 2 ^ bits := by
  have hpow : 2 ^ bits ≤ 2 ^ n := Nat.pow_le_pow_right (by decide) h
  have hlow : r.toNat % 2 ^ bits < 2 ^ bits := Nat.mod_lt _ (Nat.two_pow_pos bits)
  have hhigh : mem.toNat / 2 ^ bits * 2 ^ bits < 2 ^ n :=
    Nat.lt_of_le_of_lt (Nat.div_mul_le_self _ _) mem.isLt
  rw [storeLow, BitVec.toNat_or, BitVec.toNat_shiftLeft, BitVec.toNat_ushiftRight,
    BitVec.toNat_setWidth, BitVec.toNat_setWidth, Nat.mod_eq_of_lt (Nat.lt_of_lt_of_le hlow hpow),
    Nat.shiftRight_eq_div_pow, Nat.shiftLeft_eq, Nat.mod_eq_of_lt hhigh, ← Nat.shiftLeft_eq,
    Nat.shiftLeft_add_eq_or_of_lt hlow]

/-- A store of the whole location. -/
theorem storeLow_self (mem : BitVec n) (r : BitVec x) : storeLow n mem r = r.setWidth n := by
  have hhigh : (mem >>> n) <<< n = 0 := by
    ext i hi
    simp
  rw [storeLow, hhigh, BitVec.setWidth_eq]
  exact BitVec.zero_or

/-- A load of the whole location. -/
theorem loadLow_self (mem : BitVec n) : loadLow n mem = mem.signExtend x := by
  rw [loadLow, BitVec.setWidth_eq]

/-- The next instruction of a routine; there is none at the end. -/
def State.exec (code : List (Instr x)) (s : State n x) (c : BitVec x) : Option (State n x) :=
  match code[s.pc]? with
  | some (.lr bits) =>
    some { s with
      pc := s.pc + 1, value := loadLow bits s.mem, reserved := true, loaded := s.mem }
  | some (.mid m) =>
    some { s with
      pc := if m.leaves s.value then code.length else s.pc + 1, value := m.value s.value }
  | some (.sc bits src) =>
    if c = 0 then
      if s.reserved then
        let mem := storeLow bits s.mem (src.getD s.value)
        some { s with
          pc := s.pc + 1, mem := mem, reserved := false, status := 0,
          writes := (s.mem, mem) :: s.writes }
      else none
    else
      some { s with pc := s.pc + 1, reserved := false, status := c, failed := c :: s.failed }
  | some .bnez => some { s with pc := if s.status ≠ 0 then 0 else s.pc + 1 }
  | none => none

def State.step (code : List (Instr x)) (s : State n x) : Act n x → Option (State n x)
  | .instr c => s.exec code c
  | .other v => some { s with mem := v, reserved := false }

/-- One step of a run. -/
def Step (code : List (Instr x)) (s : State n x) (a : Act n x) (s' : State n x) : Prop :=
  s.step code a = some s'

/-- A routine at its first instruction; the registers hold anything. -/
def start (mem : BitVec n) (value status : BitVec x) : State n x where
  mem := mem
  reserved := false
  pc := 0
  value := value
  status := status
  loaded := mem
  writes := []
  failed := []

/-- The routine is back. -/
def State.Returned (code : List (Instr x)) (s : State n x) : Prop := s.pc = code.length

instance (code : List (Instr x)) (s : State n x) : Decidable (s.Returned code) :=
  inferInstanceAs (Decidable (_ = _))

/-! ## Loops -/

/-- The instructions of a loop. -/
def loop (lrBits : Nat) (body : List (Mid x)) (scBits : Nat) (src : Option (BitVec x)) :
    List (Instr x) :=
  .lr lrBits :: (body.map .mid ++ [.sc scBits src, .bnez])

/-- What the instructions between the load and the store make of a register, and whether they reach
the store. -/
def pass : List (Mid x) → BitVec x → BitVec x × Bool
  | [], r => (r, true)
  | m :: ms, r => if m.leaves r then (m.value r, false) else pass ms (m.value r)

section Body

variable {body : List (Mid x)} {m : Mid x} {r r' : BitVec x} {k : Nat}

/-- **One more instruction of the body** leaves the loop or goes on. -/
theorem pass_take (hk : body[k]? = some m) (h : pass (body.take k) r = (r', true)) :
    (m.leaves r' = true → pass body r = (m.value r', false)) ∧
      (m.leaves r' = false → pass (body.take (k + 1)) r = (m.value r', true)) := by
  induction body generalizing k r with
  | nil => cases hk
  | cons m' ms ih =>
    cases k with
    | zero =>
      obtain rfl : m' = m := by simpa using hk
      obtain rfl : r = r' := by simpa [pass] using h
      constructor
      · intro hleaves
        rw [pass, if_pos hleaves]
      · intro hstays
        simp [pass, hstays]
    | succ k =>
      rw [List.take_succ_cons, pass] at h
      split_ifs at h with hleaves
      · cases h
      · obtain ⟨hout, hon⟩ := ih (by simpa using hk) h
        constructor
        · intro hm
          rw [pass, if_neg hleaves, hout hm]
        · intro hm
          rw [List.take_succ_cons, pass, if_neg hleaves, hon hm]

variable {lrBits scBits : Nat} {src : Option (BitVec x)}

theorem loop_length : (loop lrBits body scBits src).length = body.length + 3 := by
  simp [loop]

theorem loop_mid (hk : k < body.length) :
    (loop lrBits body scBits src)[k + 1]? = some (.mid body[k]) := by
  rw [loop, List.getElem?_cons_succ, List.getElem?_append_left (by simpa using hk)]
  simp [hk]

theorem loop_sc : (loop lrBits body scBits src)[body.length + 1]? = some (.sc scBits src) := by
  rw [loop, List.getElem?_cons_succ, List.getElem?_append_right (by simp)]
  simp

theorem loop_bnez : (loop lrBits body scBits src)[body.length + 2]? = some .bnez := by
  rw [loop, List.getElem?_cons_succ, List.getElem?_append_right (by simp)]
  simp

theorem loop_end : (loop lrBits body scBits src)[body.length + 3]? = none := by
  rw [List.getElem?_eq_none_iff, loop_length]

end Body

/-! ## Loops that run alone -/

section Alone

variable {body : List (Mid x)} {lrBits scBits : Nat} {src : Option (BitVec x)} {s : State n x}

/-- From its store on, a loop with a reservation needs two instructions. -/
theorem exists_returned_sc (hpc : s.pc = body.length + 1) (hr : s.reserved = true) :
    ∃ run, IsRun (Step (loop lrBits body scBits src)) s run ∧
      (lastState s run).Returned (loop lrBits body scBits src) ∧
      (lastState s run).loaded = s.loaded := by
  let s₁ : State n x := { s with
    pc := s.pc + 1, mem := storeLow scBits s.mem (src.getD s.value), reserved := false, status := 0
    writes := (s.mem, storeLow scBits s.mem (src.getD s.value)) :: s.writes }
  refine ⟨[(.instr 0, s₁), (.instr 0, { s₁ with pc := s.pc + 2 })], ⟨?_, ?_, trivial⟩, ?_, rfl⟩
  · simp only [Step, State.step, State.exec, hpc, loop_sc]
    simp [hr, s₁, hpc]
  · simp only [Step, State.step, State.exec, s₁, hpc, loop_bnez]
    simp
  · show s.pc + 2 = _
    rw [loop_length, hpc]

/-- From an instruction of the body on, it goes through the body or leaves it. -/
theorem exists_returned_mid {j : Nat} (hj : s.pc + j = body.length + 1) (hpc : 0 < s.pc)
    (hr : s.reserved = true) :
    ∃ run, IsRun (Step (loop lrBits body scBits src)) s run ∧
      (lastState s run).Returned (loop lrBits body scBits src) ∧
      (lastState s run).loaded = s.loaded := by
  induction j generalizing s with
  | zero => exact exists_returned_sc hj hr
  | succ j ih =>
    obtain ⟨k, hk⟩ : ∃ k, s.pc = k + 1 := ⟨s.pc - 1, by omega⟩
    have hlt : k < body.length := by omega
    have hstep : ∀ s', s' = { s with
        pc := if body[k].leaves s.value then (loop lrBits body scBits src).length else s.pc + 1
        value := body[k].value s.value } →
        Step (loop lrBits body scBits src) s (.instr 0) s' := by
      rintro s' rfl
      simp only [Step, State.step, State.exec, hk, loop_mid hlt]
    cases hleaves : body[k].leaves s.value with
    | true =>
      exact ⟨[(.instr 0, _)], ⟨hstep _ rfl, trivial⟩, by simp [lastState, State.Returned, hleaves],
        rfl⟩
    | false =>
      obtain ⟨run, hrun, hreturned, hloaded⟩ :=
        @ih { s with pc := s.pc + 1, value := body[k].value s.value } (by simp; omega)
          (Nat.succ_pos _) hr
      exact ⟨(.instr 0, _) :: run, ⟨hstep _ (by simp [hleaves]), hrun⟩, hreturned, hloaded⟩

/-- **A loop that runs alone is back** after its first load. -/
theorem exists_returned (lrBits : Nat) (body : List (Mid x)) (scBits : Nat)
    (src : Option (BitVec x)) (mem : BitVec n) (value status : BitVec x) :
    ∃ run, IsRun (Step (loop lrBits body scBits src)) (start mem value status) run ∧
      (lastState (start mem value status) run).Returned (loop lrBits body scBits src) ∧
      (lastState (start mem value status) run).loaded = mem := by
  let s₁ : State n x := { start mem value status with
    pc := 1, value := loadLow lrBits mem, reserved := true }
  obtain ⟨run, hrun, hreturned, hloaded⟩ :=
    @exists_returned_mid _ _ body lrBits scBits src s₁ body.length (Nat.add_comm ..) Nat.one_pos rfl
  exact ⟨(.instr 0, s₁) :: run, ⟨rfl, hrun⟩, hreturned, hloaded⟩

end Alone

/-! ## The invariant -/

/-- What a loop has done when it is back. -/
inductive Outcome (lrBits : Nat) (body : List (Mid x)) (scBits : Nat) (src : Option (BitVec x))
    (status : BitVec x) (s : State n x) : Prop
  /-- It has left after the last load; its status register is what the stores have left of it. -/
  | left (value : pass body (loadLow lrBits s.loaded) = (s.value, false)) (writes : s.writes = [])
      (leftover : s.status = s.failed.headD status)
  /-- It has stored once, over what it has loaded last. -/
  | stored (value : pass body (loadLow lrBits s.loaded) = (s.value, true))
      (writes : s.writes = [(s.loaded, storeLow scBits s.loaded (src.getD s.value))])
      (zero : s.status = 0)

/-- What holds of a loop at each instruction. The location is what was loaded as long as the
reservation stands. -/
inductive AtPc (lrBits : Nat) (body : List (Mid x)) (scBits : Nat) (src : Option (BitVec x))
    (status : BitVec x) (s : State n x) : Prop
  | load (pc : s.pc = 0) (writes : s.writes = []) (leftover : s.status = s.failed.headD status)
  | inside (k : Nat) (pc : s.pc = k + 1) (le : k ≤ body.length)
      (value : pass (body.take k) (loadLow lrBits s.loaded) = (s.value, true))
      (writes : s.writes = []) (leftover : s.status = s.failed.headD status)
      (held : s.reserved = true → s.mem = s.loaded)
  | retry (pc : s.pc = body.length + 2) (ne : s.status ≠ 0) (writes : s.writes = [])
      (leftover : s.status = s.failed.headD status)
  | success (pc : s.pc = body.length + 2)
      (outcome : s.writes ≠ [] ∧ Outcome lrBits body scBits src status s)
  | back (pc : s.pc = body.length + 3) (outcome : Outcome lrBits body scBits src status s)

section Invariant

variable {lrBits scBits : Nat} {body : List (Mid x)} {src : Option (BitVec x)}
  {status : BitVec x} {s s' : State n x} {a : Act n x}

/-- A store of another hart leaves an outcome alone. -/
theorem Outcome.other (h : Outcome lrBits body scBits src status s) (v : BitVec n) :
    Outcome lrBits body scBits src status { s with mem := v, reserved := false } := by
  cases h with
  | left value writes leftover => exact .left value writes leftover
  | stored value writes zero => exact .stored value writes zero

theorem AtPc.other (h : AtPc lrBits body scBits src status s) (v : BitVec n) :
    AtPc lrBits body scBits src status { s with mem := v, reserved := false } := by
  cases h with
  | load pc writes leftover => exact .load pc writes leftover
  | inside k pc le value writes leftover held => exact .inside k pc le value writes leftover nofun
  | retry pc ne writes leftover => exact .retry pc ne writes leftover
  | success pc outcome => exact .success pc ⟨outcome.1, outcome.2.other v⟩
  | back pc outcome => exact .back pc (outcome.other v)

/-- **The step lemma**, by instruction. -/
theorem AtPc.exec {c : BitVec x} (h : AtPc lrBits body scBits src status s)
    (hs : s.exec (loop lrBits body scBits src) c = some s') :
    AtPc lrBits body scBits src status s' := by
  unfold State.exec at hs
  cases h with
  | load pc writes leftover =>
    rw [pc, show (loop lrBits body scBits src)[0]? = some (.lr lrBits) from rfl] at hs
    obtain rfl := Option.some.inj hs
    exact .inside 0 rfl (Nat.zero_le _) rfl writes leftover fun _ => rfl
  | inside k pc le value writes leftover held =>
    rcases Nat.lt_or_eq_of_le le with hlt | rfl
    · rw [pc, loop_mid hlt] at hs
      obtain ⟨hout, hon⟩ := pass_take (List.getElem?_eq_getElem hlt) value
      obtain rfl := Option.some.inj hs
      cases hleaves : body[k].leaves s.value with
      | true => exact .back (by simp [loop_length]) (.left (hout hleaves) writes leftover)
      | false =>
        exact .inside (k + 1) (by simp) hlt (hon hleaves) writes leftover held
    · rw [pc, loop_sc] at hs
      rw [List.take_length] at value
      by_cases hzero : c = 0
      · -- The store succeeds, which takes a reservation.
        by_cases hr : s.reserved = true
        · simp only [hzero, if_true, hr, Option.some.injEq] at hs
          subst hs
          refine .success rfl ⟨by simp, .stored value ?_ rfl⟩
          simp [held hr, writes]
        · simp [hzero, hr] at hs
      · simp only [hzero, if_false, Option.some.injEq] at hs
        subst hs
        exact .retry rfl hzero writes rfl
  | retry pc ne writes leftover =>
    rw [pc, loop_bnez] at hs
    obtain rfl := Option.some.inj hs
    exact .load (if_pos ne) writes leftover
  | success pc outcome =>
    rw [pc, loop_bnez] at hs
    obtain rfl := Option.some.inj hs
    obtain ⟨hne, houtcome⟩ := outcome
    cases houtcome with
    | left _ writes _ => exact absurd writes hne
    | stored value writes zero =>
      exact .back (by simp [zero]) (.stored value writes zero)
  | back pc outcome =>
    rw [pc, loop_end] at hs
    cases hs

theorem AtPc.step (h : AtPc lrBits body scBits src status s)
    (hs : Step (loop lrBits body scBits src) s a s') : AtPc lrBits body scBits src status s' := by
  cases a with
  | instr c => exact h.exec hs
  | other v =>
    obtain rfl := Option.some.inj hs
    exact h.other v

/-- **What a loop has done when it is back**, in every run. -/
theorem loop_returned {mem : BitVec n} {value : BitVec x} {run : List (Act n x × State n x)}
    (hrun : IsRun (Step (loop lrBits body scBits src)) (start mem value status) run)
    (hreturned : (lastState (start mem value status) run).Returned (loop lrBits body scBits src)) :
    Outcome lrBits body scBits src status (lastState (start mem value status) run) := by
  have hstart : AtPc lrBits body scBits src status (start mem value status) := .load rfl rfl rfl
  have hlast := (hrun.invariant (fun _ _ _ h hs => AtPc.step h hs) hstart).last
  rw [State.Returned, loop_length] at hreturned
  cases hlast with
  | load pc => omega
  | inside k pc le => omega
  | retry pc => omega
  | success pc => omega
  | back _ outcome => exact outcome

end Invariant

end LowriscLinux.Lib.Reserved
