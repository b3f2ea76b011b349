import LowriscLinux.Kernel.PtRegs
import LowriscLinux.Lib.Transition
import LowriscLinux.Lib.Words

/-!
# Inter-processor messages

Model of `arch/riscv/kernel/smp.c`, lines 9-59 (`send_ipi_message` and `ipi_isr`): any number of
harts, of calls of `send_ipi_message` and of runs of `ipi_isr`, interleaved at their accesses to
`ipi_data[].bits` and at the calls of the machine mode that raise and clear the software interrupt.

## What models what

* `Message`: `enum ipi_message_type` (lines 14-18) without `IPI_MAX`, which no caller sends (lines
  61-69 and 82-85). `Message.bit` is the bit that `set_bit` sets and lines 33 and 36 test.
* `Sender`: a call of `send_ipi_message`. It sets its bit for every hart of the mask (lines 53 and
  54) before it raises the first interrupt (lines 57 and 58). `for_each_cpu` may go through the mask
  in any order.
* `Isr`: a run of `ipi_isr`, from the call of `sbi_clear_ipi` (line 26) over the loop (lines 30-42),
  which takes all bits at once with `xchg` until there are none, to its end. `afterTest` is where it
  goes from each test, the `BUG_ON` of line 39 included.
* `State.pending`: the software interrupt of a hart. `sbi_send_ipi` sets it, `sbi_clear_ipi` clears
  it and says whether it was set (`asm/sbi.h`).

The steps name what they do, so that a run shows which bits were set and which handlers started. The
messages that are set for a hart and have had no handler since are bookkeeping (`owed`). The
barriers (lines 29, 31, 41, 52 and 56) do nothing here, as accesses are one after the other. What
the two handlers do is not modelled.

Results:
* `Inv.step`: every step keeps the invariant: a set bit has an interrupt, a run of `ipi_isr` that
  will look at it, or a sender that will raise one, and a message that is owed has its bit set or is
  about to be handled.
* `IsRun.owed`: a message stays owed until its handler starts.
* **`ipi_no_loss`**: along every run no set bit is left alone and the `BUG_ON` is not reached; when
  nothing is going on all bits are clear and every message sent has had its handler.
-/

namespace LowriscLinux.Kernel.Ipi

open Lib

/-- `enum ipi_message_type`, without the `IPI_MAX` that no caller sends. -/
inductive Message
  | reschedule
  | callFunc
  deriving DecidableEq, Repr

/-- The value of the enumerator. -/
def Message.num : Message → Nat
  | reschedule => 0
  | callFunc => 1

def ipiMax : Nat := 2

variable {w : Xlen}

/-- `1 << op`. -/
def Message.bit (op : Message) : Word w := (1 : Word w) <<< op.num

/-- `ops & (1 << op)`. -/
def has (ops : Word w) (op : Message) : Prop := ops &&& op.bit ≠ 0

instance (ops : Word w) (op : Message) : Decidable (has ops op) :=
  inferInstanceAs (Decidable (_ ≠ _))

/-! ## The parties -/

/-- A call of `send_ipi_message`. -/
inductive Sender (H : Type)
  | idle
  /-- In the first loop: the harts whose bit is set, and the others of the mask. -/
  | setting (op : Message) (done todo : List H)
  /-- In the second loop: the harts that are still to be interrupted. -/
  | sending (todo : List H)

/-- A run of `ipi_isr` on a hart. -/
inductive Isr (w : Xlen) (H : Type)
  | idle
  /-- Before `sbi_clear_ipi`. -/
  | start (c : H)
  /-- At the loop head, before the `xchg`. -/
  | drain (c : H)
  /-- Before the test of a message. -/
  | test (c : H) (op : Message) (ops : Word w)
  /-- Before the `BUG_ON`. -/
  | check (c : H) (ops : Word w)
  | bug

/-- Senders `S`, runs of the handler `R` and harts `H`. -/
structure State (w : Xlen) (S R H : Type) where
  /-- `ipi_data[c].bits`. -/
  bits : H → Word w
  /-- The software interrupt of a hart is pending. -/
  pending : H → Bool
  sender : S → Sender H
  isr : R → Isr w H
  /-- The message has been set for the hart, and its handler has not started there since. -/
  owed : H → Message → Bool

variable {S R H : Type}

/-- No message has been sent yet. -/
def State.init : State w S R H where
  bits _ := 0
  pending _ := false
  sender _ := .idle
  isr _ := .idle
  owed _ _ := false

inductive Act (S R H : Type)
  /-- A call of `send_ipi_message`, with the harts of the mask in their order. -/
  | send (x : S) (op : Message) (toWhom : List H)
  | setBit (x : S) (op : Message) (c : H)
  /-- The barrier between the loops. -/
  | barrier (x : S)
  | sendIpi (x : S) (c : H)
  | sent (x : S)
  | enter (r : R) (c : H)
  | clearIpi (r : R)
  | xchg (r : R)
  /-- The handler of a message starts. -/
  | handle (r : R) (c : H) (op : Message)
  /-- The message is not among those taken. -/
  | skip (r : R)
  | bugOn (r : R)

namespace State

def setSender [DecidableEq S] (s : State w S R H) (x : S) (v : Sender H) : State w S R H :=
  { s with sender := Function.update s.sender x v }

def setIsr [DecidableEq R] (s : State w S R H) (r : R) (v : Isr w H) : State w S R H :=
  { s with isr := Function.update s.isr r v }

def setOwed [DecidableEq H] (s : State w S R H) (c : H) (op : Message) (v : Bool) :
    State w S R H :=
  { s with owed := Function.update s.owed c (Function.update (s.owed c) op v) }

/-- Where `ipi_isr` goes after the test of a message. -/
def afterTest (c : H) (ops : Word w) : Message → Isr w H
  | .reschedule => .test c .callFunc ops
  | .callFunc => .check c ops

variable [DecidableEq S] [DecidableEq R] [DecidableEq H]

/-- One step of a call of `send_ipi_message` or of a run of `ipi_isr`. -/
def step (s : State w S R H) : Act S R H → Option (State w S R H)
  | .send x op toWhom =>
    match s.sender x with
    | .idle => some (s.setSender x (.setting op [] toWhom))
    | _ => none
  | .setBit x op c =>
    match s.sender x with
    | .setting op' done (i :: todo) =>
      if op = op' ∧ c = i then
        some (({ s with bits := Function.update s.bits c (s.bits c ||| op.bit) }.setOwed c op
          true).setSender x (.setting op (done ++ [c]) todo))
      else none
    | _ => none
  | .barrier x =>
    match s.sender x with
    | .setting _ toWhom [] => some (s.setSender x (.sending toWhom))
    | _ => none
  | .sendIpi x c =>
    match s.sender x with
    | .sending (i :: todo) =>
      if c = i then
        some ({ s with pending := Function.update s.pending c true }.setSender x (.sending todo))
      else none
    | _ => none
  | .sent x =>
    match s.sender x with
    | .sending [] => some (s.setSender x .idle)
    | _ => none
  | .enter r c =>
    match s.isr r with
    | .idle => some (s.setIsr r (.start c))
    | _ => none
  | .clearIpi r =>
    match s.isr r with
    | .start c =>
      if s.pending c then
        some ({ s with pending := Function.update s.pending c false }.setIsr r (.drain c))
      else some (s.setIsr r .idle) -- `IRQ_NONE`
    | _ => none
  | .xchg r =>
    match s.isr r with
    | .drain c =>
      some ({ s with bits := Function.update s.bits c 0 }.setIsr r
        (if s.bits c ≠ 0 then .test c .reschedule (s.bits c) else .idle))
    | _ => none
  | .handle r c op =>
    match s.isr r with
    | .test i op' ops =>
      if op = op' ∧ c = i ∧ has ops op then
        some ((s.setOwed c op false).setIsr r (afterTest c ops op))
      else none
    | _ => none
  | .skip r =>
    match s.isr r with
    | .test c op ops => if has ops op then none else some (s.setIsr r (afterTest c ops op))
    | _ => none
  | .bugOn r =>
    match s.isr r with
    | .check c ops => some (s.setIsr r (if ops >>> ipiMax ≠ 0 then .bug else .drain c))
    | _ => none

end State

/-- One step of a run. -/
def Step [DecidableEq S] [DecidableEq R] [DecidableEq H] (s : State w S R H) (a : Act S R H)
    (s' : State w S R H) : Prop := s.step a = some s'

/-! ## The invariant -/

/-- A sender has set a bit for the hart and not raised its interrupt yet. -/
def Owes (c : H) : Sender H → Prop
  | .idle => False
  | .setting _ done _ => c ∈ done
  | .sending todo => c ∈ todo

/-- A run of `ipi_isr` has not done its last `xchg` on the hart. -/
def Active (c : H) : Isr w H → Prop
  | .idle => False
  | .start i => i = c
  | .drain i => i = c
  | .test i _ _ => i = c
  | .check i _ => i = c
  | .bug => False

/-- A run of `ipi_isr` will do another `xchg` on the hart, whatever `sbi_clear_ipi` says. -/
def Draining (c : H) : Isr w H → Prop
  | .idle => False
  | .start _ => False
  | .drain i => i = c
  | .test i _ _ => i = c
  | .check i _ => i = c
  | .bug => False

/-- A run of `ipi_isr` has taken the message and not started its handler yet. -/
def Taken (c : H) (op : Message) : Isr w H → Prop
  | .test i .reschedule ops => i = c ∧ has ops op
  | .test i .callFunc ops => i = c ∧ op = .callFunc ∧ has ops op
  | _ => False

/-- The bits that a run of `ipi_isr` has taken are messages, and it has not found others. -/
def Clean : Isr w H → Prop
  | .idle => True
  | .start _ => True
  | .drain _ => True
  | .test _ _ ops => ops >>> ipiMax = 0
  | .check _ ops => ops >>> ipiMax = 0
  | .bug => False

structure Inv (s : State w S R H) : Prop where
  attended : ∀ c op, has (s.bits c) op →
    s.pending c = true ∨ (∃ r, Draining c (s.isr r)) ∨ ∃ x, Owes c (s.sender x)
  owed : ∀ c op, s.owed c op = true → has (s.bits c) op ∨ ∃ r, Taken c op (s.isr r)
  bits : ∀ c, s.bits c >>> ipiMax = 0
  clean : ∀ r, Clean (s.isr r)

/-- Nothing is going on. -/
structure Quiescent (s : State w S R H) : Prop where
  pending : ∀ c, s.pending c = false
  sender : ∀ x, s.sender x = .idle
  isr : ∀ r, s.isr r = .idle

/-! ## Bits -/

theorem Message.bit_eq (op : Message) : (op.bit : Word w) = BitVec.twoPow _ op.num := by
  rw [bit, BitVec.twoPow_eq]
  rfl

theorem Message.num_lt (op : Message) : op.num < ipiMax := by cases op <;> decide

theorem Message.num_inj {op op' : Message} (h : op.num = op'.num) : op = op' := by
  cases op <;> cases op' <;> first | rfl | cases h

theorem has_iff {ops : Word w} {op : Message} : has ops op ↔ ops.getLsbD op.num = true := by
  have hle := le_xlen w
  have hlt := op.num_lt
  rw [has, Message.bit_eq, ne_eq, and_twoPow_eq_zero (by unfold ipiMax at hlt; omega)]
  exact Bool.not_eq_false _ ▸ Iff.rfl

theorem not_has_zero (op : Message) : ¬ has (0 : Word w) op := by
  rw [has_iff]
  simp

theorem has_or_bit {ops : Word w} {op op' : Message} :
    has (ops ||| op.bit) op' ↔ has ops op' ∨ op' = op := by
  have hle := le_xlen w
  have hlt := op.num_lt
  have hnum : op.num < 8 * szreg w := by unfold ipiMax at hlt; omega
  rw [has_iff, has_iff, BitVec.getLsbD_or, Message.bit_eq, BitVec.getLsbD_twoPow, Bool.or_eq_true]
  refine or_congr Iff.rfl ?_
  simp only [hnum, decide_true, Bool.true_and, decide_eq_true_eq]
  exact ⟨fun h => (Message.num_inj h).symm, fun h => h ▸ rfl⟩

theorem or_bit_shift {ops : Word w} (h : ops >>> ipiMax = 0) (op : Message) :
    (ops ||| op.bit) >>> ipiMax = 0 := by
  have hbit : (op.bit : Word w) >>> ipiMax = 0 := by cases w <;> cases op <;> decide
  rw [BitVec.ushiftRight_or_distrib, h, hbit]
  exact BitVec.or_zero

/-- Bits that are messages and none of them are zero. -/
theorem eq_zero_of_not_has {ops : Word w} (hbits : ops >>> ipiMax = 0) (h : ∀ op, ¬ has ops op) :
    ops = 0 := by
  apply BitVec.eq_of_getLsbD_eq
  intro i _
  have h0 := mt has_iff.mpr (h .reschedule)
  have h1 := mt has_iff.mpr (h .callFunc)
  simp only [Message.num, Bool.not_eq_true] at h0 h1
  match i with
  | 0 => simpa using h0
  | 1 => simpa using h1
  | i + 2 =>
    have hbit := congrArg (fun v => BitVec.getLsbD v i) hbits
    simpa [ipiMax, Nat.add_comm 2 i, -BitVec.getLsbD_eq_getElem] using hbit

/-! ## Steps -/

/-- One who is there is there after an update that keeps it. -/
theorem exists_update {α β : Type} [DecidableEq α] {f : α → β} {a : α} {v : β} {P : β → Prop}
    (h : ∃ x, P (f x)) (hP : P (f a) → P v) : ∃ x, P (Function.update f a v x) := by
  obtain ⟨x, hx⟩ := h
  by_cases hxa : x = a
  · subst hxa
    exact ⟨x, by simpa using hP hx⟩
  · exact ⟨x, by simpa [hxa] using hx⟩

theorem forall_update {α β : Type} [DecidableEq α] {f : α → β} {a : α} {v : β} {P : β → Prop}
    (h : ∀ x, P (f x)) (hv : P v) (x : α) : P (Function.update f a v x) :=
  (Function.forall_update_iff f fun _ => P).mpr ⟨hv, fun x _ => h x⟩ x

section Steps

variable {s s' : State w S R H} {a : Act S R H}

theorem Inv.init : Inv (State.init : State w S R H) where
  attended _ op h := absurd h (not_has_zero op)
  owed _ _ h := by cases h
  bits _ := by simp [State.init]
  clean _ := trivial

/-- A run of `ipi_isr` that keeps draining its hart and the messages it owes. -/
theorem Inv.setIsr [DecidableEq R] (h : Inv s) {r : R} {v : Isr w H}
    (hdrain : ∀ c, Draining c (s.isr r) → Draining c v)
    (htaken : ∀ c op, s.owed c op = true → Taken c op (s.isr r) → Taken c op v)
    (hclean : Clean v) : Inv (s.setIsr r v) where
  attended c op hhas := (h.attended c op hhas).imp_right <|
    Or.imp_left fun hr => exists_update hr (hdrain c)
  owed c op ho := (h.owed c op ho).imp_right fun hr => exists_update hr (htaken c op ho)
  bits := h.bits
  clean := forall_update h.clean hclean

/-- A sender that keeps owing the same interrupts. -/
theorem Inv.setSender [DecidableEq S] (h : Inv s) {x : S} {v : Sender H}
    (howes : ∀ c, Owes c (s.sender x) → Owes c v) : Inv (s.setSender x v) where
  attended c op hhas := (h.attended c op hhas).imp_right <|
    Or.imp_right fun hx => exists_update hx (howes c)
  owed := h.owed
  bits := h.bits
  clean := h.clean

/-- A handler that starts pays what its hart is owed. -/
theorem Inv.setOwed [DecidableEq H] (h : Inv s) (c : H) (op : Message) :
    Inv (s.setOwed c op false) where
  attended := h.attended
  owed c' op' ho := by
    refine h.owed c' op' ?_
    unfold State.setOwed at ho
    dsimp only at ho
    by_cases hc : c' = c
    · subst hc
      rw [Function.update_self] at ho
      by_cases hop : op' = op
      · subst hop
        rw [Function.update_self] at ho
        cases ho
      · rwa [Function.update_of_ne hop] at ho
    · rwa [Function.update_of_ne hc] at ho
  bits := h.bits
  clean := h.clean

theorem State.setOwed_false [DecidableEq H] {c c' : H} {op op' : Message}
    (h : (s.setOwed c op false).owed c' op' = true) : c' = c → op' ≠ op := by
  rintro rfl rfl
  simp [setOwed] at h

/-- A sender sets its bit for the next hart: it owes the interrupt from here on. -/
theorem Inv.setBit [DecidableEq S] [DecidableEq H] (h : Inv s) {x : S} {op : Message} {c : H}
    {done todo : List H} (hx : s.sender x = .setting op done (c :: todo)) :
    Inv (({ s with bits := Function.update s.bits c (s.bits c ||| op.bit) }.setOwed c op
      true).setSender x (.setting op (done ++ [c]) todo)) where
  attended c' op' hhas := by
    unfold State.setOwed State.setSender at hhas ⊢
    dsimp only at hhas ⊢
    by_cases hc : c' = c
    · subst hc
      refine Or.inr (Or.inr ⟨x, ?_⟩)
      rw [Function.update_self]
      exact List.mem_append_right _ List.mem_cons_self
    · rw [Function.update_of_ne hc] at hhas
      refine (h.attended c' op' hhas).imp_right (Or.imp_right fun hx' => exists_update hx' ?_)
      rw [hx]
      exact List.mem_append_left _
  owed c' op' ho := by
    unfold State.setOwed State.setSender at ho ⊢
    dsimp only at ho ⊢
    by_cases hc : c' = c
    · subst hc
      rw [Function.update_self] at ho ⊢
      by_cases hop : op' = op
      · exact Or.inl (has_or_bit.mpr (Or.inr hop))
      · rw [Function.update_of_ne hop] at ho
        exact (h.owed c' op' ho).imp_left fun hb => has_or_bit.mpr (Or.inl hb)
    · rw [Function.update_of_ne hc] at ho ⊢
      exact h.owed c' op' ho
  bits := by
    have hbits := or_bit_shift (h.bits c) op
    exact forall_update (P := fun ops : Word w => ops >>> ipiMax = 0) h.bits hbits
  clean := h.clean

/-- A sender raises the interrupt that it owes. -/
theorem Inv.sendIpi [DecidableEq S] [DecidableEq H] (h : Inv s) {x : S} {c : H} {todo : List H}
    (hx : s.sender x = .sending (c :: todo)) :
    Inv ({ s with pending := Function.update s.pending c true }.setSender x (.sending todo)) where
  attended c' op' hhas := by
    unfold State.setSender
    dsimp only
    by_cases hc : c' = c
    · subst hc
      exact Or.inl (Function.update_self ..)
    · rw [Function.update_of_ne hc]
      refine (h.attended c' op' hhas).imp_right (Or.imp_right fun hx' => exists_update hx' ?_)
      rw [hx]
      exact fun hmem => (List.mem_cons.mp hmem).resolve_left hc
  owed := h.owed
  bits := h.bits
  clean := h.clean

/-- A run of `ipi_isr` clears the interrupt: it will look at the bits instead. -/
theorem Inv.clearIpi [DecidableEq R] [DecidableEq H] (h : Inv s) {r : R} {c : H}
    (hr : s.isr r = .start c) :
    Inv ({ s with pending := Function.update s.pending c false }.setIsr r (.drain c)) where
  attended c' op' hhas := by
    unfold State.setIsr
    dsimp only
    by_cases hc : c' = c
    · subst hc
      refine Or.inr (Or.inl ⟨r, ?_⟩)
      rw [Function.update_self]
      exact rfl
    · rw [Function.update_of_ne hc]
      refine (h.attended c' op' hhas).imp_right (Or.imp_left fun hr' => exists_update hr' ?_)
      rw [hr]
      exact False.elim
  owed c' op' ho := by
    refine (h.owed c' op' ho).imp_right fun hr' => exists_update hr' ?_
    rw [hr]
    exact False.elim
  bits := h.bits
  clean := forall_update h.clean trivial

/-- A run of `ipi_isr` takes all bits of its hart. -/
theorem Inv.xchg [DecidableEq R] [DecidableEq H] (h : Inv s) {r : R} {c : H}
    (hr : s.isr r = .drain c) :
    Inv ({ s with bits := Function.update s.bits c 0 }.setIsr r
      (if s.bits c ≠ 0 then .test c .reschedule (s.bits c) else .idle)) where
  attended c' op' hhas := by
    unfold State.setIsr at hhas ⊢
    dsimp only at hhas ⊢
    by_cases hc : c' = c
    · subst hc
      rw [Function.update_self] at hhas
      exact absurd hhas (not_has_zero op')
    · rw [Function.update_of_ne hc] at hhas
      refine (h.attended c' op' hhas).imp_right (Or.imp_left fun hr' => exists_update hr' ?_)
      rw [hr]
      exact fun hd => absurd hd.symm hc
  owed c' op' ho := by
    unfold State.setIsr
    dsimp only
    rcases h.owed c' op' ho with hb | hr'
    · by_cases hc : c' = c
      · -- The bit is among those taken.
        subst hc
        have hne : s.bits c' ≠ 0 := by
          intro hzero
          rw [hzero] at hb
          exact not_has_zero op' hb
        refine Or.inr ⟨r, ?_⟩
        rw [Function.update_self, if_pos hne]
        exact ⟨rfl, hb⟩
      · rw [Function.update_of_ne hc]
        exact Or.inl hb
    · refine Or.inr (exists_update hr' ?_)
      rw [hr]
      exact False.elim
  bits := by
    have hzero : (0 : Word w) >>> ipiMax = 0 := BitVec.zero_ushiftRight
    exact forall_update (P := fun ops : Word w => ops >>> ipiMax = 0) h.bits hzero
  clean := by
    refine forall_update h.clean ?_
    split
    · exact h.bits c
    · trivial

/-- **Every step keeps the invariant.** -/
theorem Inv.step [DecidableEq S] [DecidableEq R] [DecidableEq H] (h : Inv s)
    (hstep : Step s a s') : Inv s' := by
  unfold Step State.step at hstep
  cases a with
  | send x op toWhom =>
    cases hx : s.sender x <;> simp only [hx] at hstep <;> cases hstep
    exact h.setSender fun c hc => absurd hc (by simp [hx, Owes])
  | setBit x op c =>
    match hx : s.sender x with
    | .idle | .setting _ _ [] | .sending _ => simp [hx] at hstep
    | .setting op' done (i :: todo) =>
      simp only [hx] at hstep
      split at hstep
      · next heq =>
        obtain ⟨rfl, rfl⟩ := heq
        cases hstep
        exact h.setBit hx
      · cases hstep
  | barrier x =>
    match hx : s.sender x with
    | .idle | .setting _ _ (_ :: _) | .sending _ => simp [hx] at hstep
    | .setting op done [] =>
      simp only [hx] at hstep
      cases hstep
      exact h.setSender fun c hc => by rwa [hx] at hc
  | sendIpi x c =>
    match hx : s.sender x with
    | .idle | .setting _ _ _ | .sending [] => simp [hx] at hstep
    | .sending (i :: todo) =>
      simp only [hx] at hstep
      split at hstep
      · next heq =>
        subst heq
        cases hstep
        exact h.sendIpi hx
      · cases hstep
  | sent x =>
    match hx : s.sender x with
    | .idle | .setting _ _ _ | .sending (_ :: _) => simp [hx] at hstep
    | .sending [] =>
      simp only [hx] at hstep
      cases hstep
      exact h.setSender fun c hc => absurd hc (by simp [hx, Owes])
  | enter r c =>
    cases hr : s.isr r <;> simp only [hr] at hstep <;> cases hstep
    exact h.setIsr (fun c hc => absurd hc (by simp [hr, Draining]))
      (fun c op _ hc => absurd hc (by simp [hr, Taken])) trivial
  | clearIpi r =>
    cases hr : s.isr r with
    | start c =>
      simp only [hr] at hstep
      split at hstep
      · cases hstep
        exact h.clearIpi hr
      · cases hstep
        exact h.setIsr (fun c hc => absurd hc (by simp [hr, Draining]))
          (fun c op _ hc => absurd hc (by simp [hr, Taken])) trivial
    | _ => simp [hr] at hstep
  | xchg r =>
    cases hr : s.isr r with
    | drain c =>
      simp only [hr] at hstep
      cases hstep
      exact h.xchg hr
    | _ => simp [hr] at hstep
  | handle r c op =>
    cases hr : s.isr r with
    | test i op' ops =>
      simp only [hr] at hstep
      split at hstep
      · next heq =>
        obtain ⟨rfl, rfl, hhas⟩ := heq
        cases hstep
        have hclean := h.clean r
        rw [hr] at hclean
        refine (h.setOwed c op).setIsr (fun c' hc => ?_) (fun c' op' ho hc => ?_) ?_
        · have hc : Draining c' (s.isr r) := hc
          rw [hr] at hc
          cases op <;> exact hc
        · have hc : Taken c' op' (s.isr r) := hc
          rw [hr] at hc
          cases op with
          | reschedule =>
            obtain ⟨hcc, hop⟩ := hc
            have hne := State.setOwed_false ho hcc.symm
            refine ⟨hcc, ?_, hop⟩
            cases op'
            · exact absurd rfl hne
            · rfl
          | callFunc => exact absurd hc.2.1 (State.setOwed_false ho hc.1.symm)
        · cases op <;> exact hclean
      · cases hstep
    | _ => simp [hr] at hstep
  | skip r =>
    cases hr : s.isr r with
    | test c op ops =>
      simp only [hr] at hstep
      split at hstep
      · cases hstep
      · next hnot =>
        cases hstep
        have hclean := h.clean r
        rw [hr] at hclean
        refine h.setIsr (fun c' hc => ?_) (fun c' op' ho hc => ?_) ?_
        · rw [hr] at hc
          cases op <;> exact hc
        · rw [hr] at hc
          cases op with
          | reschedule =>
            obtain ⟨hcc, hop⟩ := hc
            refine ⟨hcc, ?_, hop⟩
            cases op'
            · exact absurd hop hnot
            · rfl
          | callFunc =>
            obtain ⟨-, rfl, hop⟩ := hc
            exact absurd hop hnot
        · cases op <;> exact hclean
    | _ => simp [hr] at hstep
  | bugOn r =>
    cases hr : s.isr r with
    | check c ops =>
      simp only [hr] at hstep
      cases hstep
      have hclean := h.clean r
      rw [hr] at hclean
      have hzero : ops >>> ipiMax = 0 := hclean
      rw [if_neg (not_not.mpr hzero)]
      exact h.setIsr (fun c' hc => by rwa [hr] at hc)
        (fun c op _ hc => absurd hc (by simp [hr, Taken])) trivial
    | _ => simp [hr] at hstep

/-! ## Runs -/

/-- What is owed after a step: a bit that is set is owed, a handler that starts pays. -/
def owedAfter [DecidableEq H] (s : State w S R H) : Act S R H → H → Message → Bool
  | .setBit _ op c => (s.setOwed c op true).owed
  | .handle _ c op => (s.setOwed c op false).owed
  | _ => s.owed

theorem Step.owed [DecidableEq S] [DecidableEq R] [DecidableEq H] (h : Step s a s') :
    s'.owed = owedAfter s a := by
  unfold Step State.step at h
  cases a <;> dsimp only at h <;> split at h <;> first
    | (cases h; rfl)
    | (split at h <;> cases h <;> rfl)
    | cases h

/-- A message stays owed until its handler starts. -/
theorem Step.owed_kept [DecidableEq S] [DecidableEq R] [DecidableEq H] (h : Step s a s') {c : H}
    {op : Message} (ho : s.owed c op = true) :
    (∃ r, a = .handle r c op) ∨ s'.owed c op = true := by
  rw [h.owed]
  cases a with
  | setBit x op' c' =>
    right
    unfold owedAfter State.setOwed
    dsimp only
    by_cases hc : c = c'
    · subst hc
      by_cases hop : op = op'
      · subst hop
        rw [Function.update_self, Function.update_self]
      · rwa [Function.update_self, Function.update_of_ne hop]
    · rwa [Function.update_of_ne hc]
  | handle r c' op' =>
    unfold owedAfter State.setOwed
    dsimp only
    by_cases hc : c = c'
    · subst hc
      by_cases hop : op = op'
      · subst hop
        exact Or.inl ⟨r, rfl⟩
      · right
        rwa [Function.update_self, Function.update_of_ne hop]
    · right
      rwa [Function.update_of_ne hc]
  | _ => exact Or.inr ho

/-- **A message stays owed along a run until its handler starts.** -/
theorem IsRun.owed [DecidableEq S] [DecidableEq R] [DecidableEq H]
    {run : List (Act S R H × State w S R H)} (hrun : IsRun Step s run) {c : H} {op : Message}
    (ho : s.owed c op = true) :
    (∃ r, .handle r c op ∈ run.map Prod.fst) ∨ (lastState s run).owed c op = true := by
  induction run generalizing s with
  | nil => exact Or.inr ho
  | cons e rest ih =>
    obtain ⟨hs, hrest⟩ := hrun
    rcases Step.owed_kept hs ho with ⟨r, hr⟩ | ho'
    · exact Or.inl ⟨r, by rw [List.map_cons, hr]; exact List.mem_cons_self⟩
    · refine (ih hrest ho').imp_left fun ⟨r, hr⟩ => ⟨r, ?_⟩
      rw [List.map_cons]
      exact List.mem_cons_of_mem _ hr

/-- A set bit has an interrupt, a run of `ipi_isr` that has not done its last `xchg`, or a sender
that will raise the interrupt. -/
def Attended (s : State w S R H) : Prop :=
  ∀ c op, has (s.bits c) op →
    s.pending c = true ∨ (∃ r, Active c (s.isr r)) ∨ ∃ x, Owes c (s.sender x)

theorem Draining.active {c : H} {v : Isr w H} (h : Draining c v) : Active c v := by
  cases v <;> first | exact h | exact h.elim

theorem Inv.attended' (h : Inv s) : Attended s := fun c op hhas =>
  (h.attended c op hhas).imp_right (Or.imp_left fun ⟨r, hr⟩ => ⟨r, hr.active⟩)

theorem Inv.not_bug (h : Inv s) (r : R) : s.isr r ≠ .bug := by
  intro hbug
  have hclean := h.clean r
  rw [hbug] at hclean
  exact hclean

/-- In a quiescent state no bit is set and nothing is owed. -/
theorem Inv.quiescent (h : Inv s) (hq : Quiescent s) :
    (∀ c, s.bits c = 0) ∧ ∀ c op, s.owed c op = false := by
  have hnone : ∀ c op, ¬ has (s.bits c) op := by
    intro c op hhas
    rcases h.attended c op hhas with hp | ⟨r, hr⟩ | ⟨x, hx⟩
    · rw [hq.pending] at hp
      cases hp
    · rw [hq.isr] at hr
      exact hr
    · rw [hq.sender] at hx
      exact hx
  refine ⟨fun c => eq_zero_of_not_has (h.bits c) (hnone c), fun c op => ?_⟩
  by_contra ho
  rcases h.owed c op (Bool.not_eq_false _ ▸ ho) with hb | ⟨r, hr⟩
  · exact hnone c op hb
  · rw [hq.isr] at hr
    exact hr

/-- **No message is lost**: along every run every set bit is attended and the `BUG_ON` is not
reached, and in a quiescent state all bits are clear and every message has had its handler start
on its hart after the bit was set. -/
theorem ipi_no_loss [DecidableEq S] [DecidableEq R] [DecidableEq H]
    {run : List (Act S R H × State w S R H)} (hrun : IsRun Step .init run) :
    Always (fun s => Attended s ∧ ∀ r, s.isr r ≠ .bug) .init run ∧
      (Quiescent (lastState .init run) →
        (∀ c, (lastState .init run).bits c = 0) ∧
          ∀ before x op c s' after, run = before ++ (.setBit x op c, s') :: after →
            ∃ r, .handle r c op ∈ after.map Prod.fst) := by
  have hinv := hrun.invariant (fun s a s' h hs => Inv.step h hs) Inv.init
  refine ⟨hinv.imp fun s h => ⟨h.attended', h.not_bug⟩, fun hq => ?_⟩
  obtain ⟨hbits, howed⟩ := hinv.last.quiescent hq
  refine ⟨hbits, ?_⟩
  rintro before x op c s' after rfl
  obtain ⟨-, hs, hafter⟩ := isRun_append.mp hrun
  have ho : s'.owed c op = true := by
    rw [Step.owed hs]
    simp [owedAfter, State.setOwed]
  refine (IsRun.owed hafter ho).resolve_right ?_
  rw [lastState_append] at howed
  have hnone := howed c op
  simp only [lastState] at hnone
  rw [hnone]
  exact Bool.false_ne_true

end Steps

/-- Two senders set different messages for a hart, and one interrupt serves both: the second
interrupt finds nothing to do. -/
def coalesced : List (Act Bool Unit Unit) :=
  [.send true .reschedule [()], .send false .callFunc [()], .setBit true .reschedule (),
    .barrier true, .sendIpi true (), .setBit false .callFunc (), .enter () (), .clearIpi (),
    .xchg (), .handle () () .reschedule, .barrier false, .sendIpi false (),
    .handle () () .callFunc, .bugOn (), .xchg (), .enter () (), .clearIpi (), .xchg (),
    .sent true, .sent false]

theorem ipi_no_loss_coalesced :
    let run := trace (@State.step .rv64 _ _ _ _ _ _) .init coalesced
    run.map Prod.fst = coalesced ∧ Quiescent (lastState .init run) ∧
    Always (fun s => Attended s ∧ ∀ r, s.isr r ≠ .bug) .init run ∧
    (∀ c, (lastState .init run).bits c = 0) ∧
    ∀ before x op c s' after, run = before ++ (.setBit x op c, s') :: after →
      ∃ r, .handle r c op ∈ after.map Prod.fst := by
  have hquiescent : Quiescent (lastState .init
      (trace (@State.step .rv64 _ _ _ _ _ _) .init coalesced)) :=
    ⟨fun _ => rfl, fun x => by cases x <;> rfl, fun _ => rfl⟩
  obtain ⟨hattended, hdone⟩ := ipi_no_loss
    (@isRun_trace _ _ (@State.step .rv64 _ _ _ _ _ _) .init coalesced)
  exact ⟨rfl, hquiescent, hattended, hdone hquiescent⟩

end LowriscLinux.Kernel.Ipi
