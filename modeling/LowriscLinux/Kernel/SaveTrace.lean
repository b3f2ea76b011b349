import LowriscLinux.Kernel.Stacktrace
import LowriscLinux.Lib.Visit

/-!
# Saved stack traces

Model of `save_stack_trace_tsk` (`arch/riscv/kernel/stacktrace.c`, lines 146-154), which has the
stack walker store program counters in the array of a `struct stack_trace`.

## What models what

* `StackTrace`: the structure. The two counts are `unsigned int`. `skip` is an integer of any size:
  the code only counts it down while it is positive.
* `saveTrace'`: `__save_trace`, lines 126-139. The count goes up with each store, and the walk is
  told to stop when the array is full. `nosched` is an argument here as there; `save_trace` (lines
  141-144) calls it with `false`.
* `saveStackTraceTsk`: a walk with `save_trace`, then the entry `ULONG_MAX` if there is room (lines
  152 and 153).
* `Saving`: the trace that is being saved, with the indices that were stored to, so that a store
  past the end of the array shows.
* `System`: what a walk depends on, when the callback does not change it. The walked memory is not
  the array. The walks are those of `Kernel/Stacktrace.lean`, with and without frame pointers.

The list of the counters of a walk is that of the walk that nothing stops (`Walk`, in the library),
which the property compares the array with.

Results:
* `walkStackframe_visit`: a walk calls its callback with the counters of the walk that nothing
  stops, until it is told to stop.
* `visit_saveTrace`: what `save_trace` makes of a list of counters.
* **`save_stack_trace_tsk_slice`**: the array gets the right slice of the walk, and nothing past its
  end.
-/

namespace LowriscLinux.Kernel.SaveTrace

open Lib Entry Stacktrace

variable {w : Xlen} {σ : Type}

/-! ## The walk as a list -/

/-- What a walk depends on, when the callback does not change it. -/
structure System (w : Xlen) where
  kernelTextAddress : Word w → Bool
  kstackEnd : Word w → Bool
  inSchedFunctions : Word w → Bool
  mem : Memory (8 * szreg w)

/-- A walk in the system. -/
def System.env (k : System w) (fn : Word w → σ → Bool × σ) : Env w σ where
  kernelTextAddress _ := k.kernelTextAddress
  kstackEnd := k.kstackEnd
  fn := fn
  mem _ := k.mem

/-- The record that the walker goes to from a frame. -/
def System.nextFrame (k : System w) (fp sp : Word w) : Option (Word w × Word w × Word w) :=
  if fp < sp + BitVec.ofNat _ (frameSize w) ∨ fp > align sp ∨ fp &&& 0x7 ≠ 0 then none
  else
    let frame := fp - BitVec.ofNat _ (frameSize w)
    some (loadWord (szreg w) k.mem frame, fp,
      loadWord (szreg w) k.mem (frame + BitVec.ofNat _ (szreg w)) - 0x4)

/-- The frames of a stack. -/
def System.frames (k : System w) : Walk (Word w × Word w × Word w) (Word w) where
  look := fun (_, _, pc) => if k.kernelTextAddress pc then some pc else none
  next := fun (fp, sp, pc) => if k.kernelTextAddress pc then k.nextFrame fp sp else none

/-- The words of a stack. -/
def System.words (k : System w) : Walk (Word w × Word w) (Word w) where
  look := fun (ksp, pc) => if !k.kstackEnd ksp && k.kernelTextAddress pc then some pc else none
  next := fun (ksp, _) =>
    if k.kstackEnd ksp then none
    else some (ksp + BitVec.ofNat _ (szreg w), loadWord (szreg w) k.mem ksp - 0x4)

/-- What is left of a result without the reads. -/
def view (o : Outcome w σ) : σ × List (Word w) := (o.arg, o.calls)

theorem step_view (k : System w) (fn : Word w → σ → Bool × σ) (s : State w σ) :
    (step (k.env fn) s).map (fun s => ((s.fp, s.sp, s.pc), view s.out)) view =
      k.frames.step fn ((s.fp, s.sp, s.pc), view s.out) := by
  simp only [step, System.env, Env.call, Walk.step, System.frames, Walk.advance, view]
  by_cases htext : k.kernelTextAddress s.pc = true
  · by_cases hstop : (fn s.pc s.out.arg).1 = true
    · simp [htext, hstop, view]
    · simp only [htext, hstop, System.nextFrame, Bool.not_true, Bool.false_eq_true, if_true,
        if_false]
      by_cases hbad : s.fp < s.sp + BitVec.ofNat _ (frameSize w) ∨ s.fp > align s.sp ∨
          s.fp &&& 0x7 ≠ 0
      · rw [if_pos hbad, if_pos hbad]
        rfl
      · rw [if_neg hbad, if_neg hbad]
        rfl
  · simp [htext, view]

theorem scanStep_view (k : System w) (fn : Word w → σ → Bool × σ) (s : ScanState w σ) :
    (scanStep (k.env fn) s).map (fun s => ((s.ksp, s.pc), view s.out)) view =
      k.words.step fn ((s.ksp, s.pc), view s.out) := by
  simp only [scanStep, System.env, Env.callText, Env.call, Walk.step, System.words, Walk.advance,
    view]
  by_cases hend : k.kstackEnd s.ksp = true
  · simp [hend, view]
  · by_cases htext : k.kernelTextAddress s.pc = true
    · by_cases hstop : (fn s.pc s.out.arg).1 = true <;> simp [hend, htext, hstop, view]
    · simp [hend, htext]

/-- **A walk calls its callback with the counters of the walk that nothing stops**, until it is told
to stop. -/
theorem walkStackframe_visit {config : Config} {k : System w} {fuel : Nat} {start : Start w}
    {o : Outcome w Unit} (h : walkStackframe config (k.env never) fuel start () = some o)
    (fn : Word w → σ → Bool × σ) (arg : σ) :
    (walkStackframe config (k.env fn) fuel start arg).map view = some (visit fn o.calls arg) := by
  cases config with
  | framePointer =>
    have hview := congrArg (Option.map view) h
    simp only [walkStackframe] at hview ⊢
    rw [runFor_view (step_view k never) fuel] at hview
    obtain ⟨pcs, hpcs, hvisit⟩ := k.frames.visit_of_never hview
    rw [runFor_view (step_view k fn) fuel, hpcs]
    exact hvisit σ fn arg []
  | noFramePointer =>
    simp only [walkStackframe] at h ⊢
    split at h
    · next haligned =>
      obtain rfl := Option.some.inj h
      rw [if_pos haligned]
      rfl
    · next haligned =>
      have hview := congrArg (Option.map view) h
      rw [runFor_view (scanStep_view k never) fuel] at hview
      obtain ⟨pcs, hpcs, hvisit⟩ := k.words.visit_of_never hview
      rw [if_neg haligned, runFor_view (scanStep_view k fn) fuel, hpcs]
      exact hvisit σ fn arg []

/-! ## Saving -/

/-- `struct stack_trace`. -/
structure StackTrace (w : Xlen) where
  nrEntries : BitVec 32
  maxEntries : BitVec 32
  entries : Nat → Word w
  skip : Int

/-- A trace that is being saved, with the indices of the entries that were stored to, in order. -/
structure Saving (w : Xlen) where
  trace : StackTrace w
  stores : List Nat

/-- `trace->entries[trace->nr_entries++] = pc`. -/
def Saving.push (s : Saving w) (pc : Word w) : Saving w where
  trace :=
    { s.trace with
      entries := Function.update s.trace.entries s.trace.nrEntries.toNat pc
      nrEntries := s.trace.nrEntries + 1 }
  stores := s.stores ++ [s.trace.nrEntries.toNat]

/-- `__save_trace`. -/
def saveTrace' (k : System w) (pc : Word w) (s : Saving w) (nosched : Bool) : Bool × Saving w :=
  if nosched && k.inSchedFunctions pc then (false, s)
  else if s.trace.skip > 0 then
    (false, { s with trace := { s.trace with skip := s.trace.skip - 1 } })
  else
    let s := s.push pc
    (s.trace.nrEntries ≥ s.trace.maxEntries, s)

/-- `save_trace`. -/
def saveTrace (k : System w) (pc : Word w) (s : Saving w) : Bool × Saving w :=
  saveTrace' k pc s false

/-- `ULONG_MAX`. -/
def ulongMax : Word w := ~~~0

/-- `save_stack_trace_tsk`: what is left, with the counters that `save_trace` was called with. -/
def saveStackTraceTsk (config : Config) (k : System w) (fuel : Nat) (tsk : Start w)
    (trace : StackTrace w) : Option (Saving w × List (Word w)) := do
  let o ← walkStackframe config (k.env (saveTrace k)) fuel tsk ⟨trace, []⟩
  let s := o.arg
  let s := if s.trace.nrEntries < s.trace.maxEntries then s.push ulongMax else s
  return (s, o.calls)

/-! ## The entries -/

/-- The entries that are left. -/
def StackTrace.free (t : StackTrace w) : Nat := t.maxEntries.toNat - t.nrEntries.toNat

namespace Saving

variable {s : Saving w}

theorem nrEntries_push (h : 0 < s.trace.free) (pc : Word w) :
    (s.push pc).trace.nrEntries.toNat = s.trace.nrEntries.toNat + 1 := by
  have hmax := s.trace.maxEntries.isLt
  rw [StackTrace.free] at h
  exact toNat_add_lt (k := 1) (by omega)

theorem free_push (h : 0 < s.trace.free) (pc : Word w) :
    (s.push pc).trace.free = s.trace.free - 1 := by
  rw [StackTrace.free, nrEntries_push h, StackTrace.free]
  exact (Nat.sub_sub _ _ 1).symm

/-- The array got the counters of a list behind its entries. -/
structure Appended (s s' : Saving w) (pcs : List (Word w)) : Prop where
  nrEntries : s'.trace.nrEntries.toNat = s.trace.nrEntries.toNat + pcs.length
  maxEntries : s'.trace.maxEntries = s.trace.maxEntries
  entries : ∀ i (hi : i < pcs.length), s'.trace.entries (s.trace.nrEntries.toNat + i) = pcs[i]
  others : ∀ i, i < s.trace.nrEntries.toNat ∨ s.trace.nrEntries.toNat + pcs.length ≤ i →
    s'.trace.entries i = s.trace.entries i
  stores : s'.stores = s.stores ++ List.range' s.trace.nrEntries.toNat pcs.length

theorem Appended.nil : Appended s s [] where
  nrEntries := rfl
  maxEntries := rfl
  entries _ hi := absurd hi (Nat.not_lt_zero _)
  others _ _ := rfl
  stores := (List.append_nil _).symm

theorem Appended.cons {s' : Saving w} {pc : Word w} {pcs : List (Word w)}
    (hroom : 0 < s.trace.free) (h : Appended (s.push pc) s' pcs) :
    Appended s s' (pc :: pcs) := by
  have hnr := nrEntries_push hroom pc
  refine ⟨?nrEntries, h.maxEntries, ?entries, ?others, ?stores⟩
  case nrEntries =>
    rw [h.nrEntries, hnr, List.length_cons]
    omega
  case entries =>
    intro i hi
    cases i with
    | zero =>
      rw [h.others _ (by omega)]
      exact Function.update_self _ _ _
    | succ i =>
      have hentry := h.entries i (by simpa using hi)
      rw [hnr] at hentry
      rw [List.getElem_cons_succ, ← hentry, Nat.add_assoc, Nat.add_comm 1]
  case others =>
    intro i hi
    rw [List.length_cons] at hi
    rw [h.others i (by omega)]
    exact Function.update_of_ne (by omega) _ _
  case stores =>
    rw [h.stores, hnr, List.length_cons, List.range'_succ, push, List.append_assoc]
    rfl

/-- The trace without the counters to skip. -/
def skipped (s : Saving w) (n : Nat) : Saving w :=
  { s with trace := { s.trace with skip := s.trace.skip - n } }

end Saving

/-- While counters are to be skipped, `save_trace` counts them. -/
theorem saveTrace_skip (k : System w) (pc : Word w) {s : Saving w} (hpos : s.trace.skip > 0) :
    saveTrace k pc s = (false, s.skipped 1) := by
  rw [saveTrace, saveTrace', Bool.false_and, if_neg Bool.false_ne_true, if_pos hpos]
  rfl

/-- After that it stores them, and stops the walk with the last entry. -/
theorem saveTrace_push (k : System w) (pc : Word w) {s : Saving w} (hpos : ¬ s.trace.skip > 0) :
    saveTrace k pc s =
      (decide ((s.push pc).trace.nrEntries ≥ (s.push pc).trace.maxEntries), s.push pc) := by
  rw [saveTrace, saveTrace', Bool.false_and, if_neg Bool.false_ne_true, if_neg hpos]

/-- **What `save_trace` makes of the counters of a walk.** -/
theorem visit_saveTrace (k : System w) (pcs : List (Word w)) {s : Saving w}
    (hskip : 0 ≤ s.trace.skip) (hroom : s.trace.nrEntries < s.trace.maxEntries) :
    ∃ s', visit (saveTrace k) pcs s = (s', pcs.take (s.trace.skip.toNat + s.trace.free)) ∧
      s.Appended s' ((pcs.drop s.trace.skip.toNat).take s.trace.free) := by
  have hfree : 0 < s.trace.free := Nat.sub_pos_of_lt (BitVec.lt_def.mp hroom)
  induction pcs generalizing s with
  | nil => exact ⟨s, by rw [List.take_nil]; rfl, by simpa using Saving.Appended.nil⟩
  | cons pc pcs ih =>
    by_cases hpos : s.trace.skip > 0
    · -- a counter to skip
      obtain ⟨n, hn⟩ : ∃ n : Nat, s.trace.skip = n + 1 := ⟨s.trace.skip.toNat - 1, by omega⟩
      have hn' : (s.skipped 1).trace.skip = n := by
        show s.trace.skip - 1 = n
        omega
      obtain ⟨s', hvisit, happended⟩ := ih (s := s.skipped 1) (by omega) hroom hfree
      have htoNat : s.trace.skip.toNat = n + 1 := by omega
      rw [hn', Int.toNat_natCast] at hvisit happended
      refine ⟨s', ?_, ?_⟩
      · rw [visit, saveTrace_skip k pc hpos, htoNat,
          show n + 1 + s.trace.free = n + s.trace.free + 1 by omega, List.take_succ_cons]
        simp only [Bool.false_eq_true, if_false, hvisit]
        rfl
      · rw [htoNat, List.drop_succ_cons]
        exact ⟨happended.nrEntries, happended.maxEntries, happended.entries, happended.others,
          happended.stores⟩
    · -- a counter to store
      have hzero : s.trace.skip.toNat = 0 := by omega
      have hnr := Saving.nrEntries_push hfree pc
      have hfree' := Saving.free_push hfree pc
      obtain ⟨n, hn⟩ : ∃ n, s.trace.free = n + 1 := ⟨s.trace.free - 1, by omega⟩
      rw [hzero, Nat.zero_add, List.drop_zero, hn, List.take_succ_cons]
      by_cases hfull : (s.push pc).trace.nrEntries ≥ (s.push pc).trace.maxEntries
      · -- the array is full: the walk is stopped
        have hn0 : n = 0 := by
          have hle := BitVec.le_def.mp hfull
          rw [StackTrace.free] at hfree'
          omega
        refine ⟨s.push pc, ?_, ?_⟩
        · rw [visit, saveTrace_push k pc hpos, hn0]
          simp [hfull]
        · rw [hn0, List.take_zero]
          exact .cons hfree .nil
      · have hroom' := BitVec.not_le.mp hfull
        obtain ⟨s', hvisit, happended⟩ := ih (s := s.push pc) (by exact hskip) hroom' (by
          exact Nat.sub_pos_of_lt (BitVec.lt_def.mp hroom'))
        have hzero' : (s.push pc).trace.skip.toNat = 0 := hzero
        rw [hfree', hn, hzero', Nat.add_sub_cancel, Nat.zero_add] at hvisit
        rw [hfree', hn, hzero', Nat.add_sub_cancel, List.drop_zero] at happended
        refine ⟨s', ?_, .cons hfree happended⟩
        rw [visit, saveTrace_push k pc hpos]
        simp [hfull, hvisit]

/-- What `save_stack_trace_tsk` appends to a trace: the counters behind those to skip, as far as
there is room, and `ULONG_MAX` if there is more. -/
def appended (t : StackTrace w) (pcs : List (Word w)) : List (Word w) :=
  let kept := (pcs.drop t.skip.toNat).take t.free
  if kept.length < t.free then kept ++ [ulongMax] else kept

theorem length_appended_le (t : StackTrace w) (pcs : List (Word w)) :
    (appended t pcs).length ≤ t.free := by
  simp only [appended]
  split
  · rw [List.length_append, List.length_singleton]
    omega
  · rw [List.length_take]
    exact Nat.min_le_left _ _

theorem Saving.Appended.append {s s' : Saving w} {pcs : List (Word w)} (h : s.Appended s' pcs)
    (hroom : pcs.length < s.trace.free) (pc : Word w) : s.Appended (s'.push pc) (pcs ++ [pc]) := by
  have hnr := h.nrEntries
  have hmax := s.trace.maxEntries.isLt
  rw [StackTrace.free] at hroom
  have hfree : 0 < s'.trace.free := by
    rw [StackTrace.free, h.maxEntries]
    omega
  refine ⟨?nrEntries, h.maxEntries, ?entries, ?others, ?stores⟩
  case nrEntries =>
    rw [nrEntries_push hfree, hnr, List.length_append, List.length_singleton, Nat.add_assoc]
  case entries =>
    intro i hi
    rw [List.length_append, List.length_singleton] at hi
    rcases Nat.lt_or_eq_of_le (Nat.le_of_lt_succ hi) with hlt | rfl
    · rw [List.getElem_append_left hlt, ← h.entries i hlt]
      exact Function.update_of_ne (by omega) _ _
    · rw [List.getElem_concat_length rfl, ← hnr]
      exact Function.update_self _ _ _
  case others =>
    intro i hi
    rw [List.length_append, List.length_singleton] at hi
    rw [← h.others i (by omega)]
    exact Function.update_of_ne (by omega) _ _
  case stores =>
    rw [push, h.stores, hnr, List.length_append, List.length_singleton, List.append_assoc,
      List.range'_concat, Nat.one_mul]

/-- **`save_stack_trace_tsk` records the right slice of the walk**: the counters behind those to
skip, as far as there is room, and `ULONG_MAX` if there is more. It stores to no entry at or
past `max_entries`, and the walk is stopped by the counter that fills the array. -/
theorem save_stack_trace_tsk_slice (config : Config) (k : System w) (fuel : Nat) (tsk : Start w)
    (t : StackTrace w) (o : Outcome w Unit) (hskip : 0 ≤ t.skip)
    (hroom : t.nrEntries < t.maxEntries)
    (hwalk : walkStackframe config (k.env never) fuel tsk () = some o) :
    ∃ s, saveStackTraceTsk config k fuel tsk t = some (s, o.calls.take (t.skip.toNat + t.free)) ∧
      s.trace.nrEntries.toNat = t.nrEntries.toNat + (appended t o.calls).length ∧
      (∀ i (hi : i < (appended t o.calls).length),
        s.trace.entries (t.nrEntries.toNat + i) = (appended t o.calls)[i]) ∧
      (∀ i, i < t.nrEntries.toNat ∨ t.nrEntries.toNat + (appended t o.calls).length ≤ i →
        s.trace.entries i = t.entries i) ∧
      ∀ i ∈ s.stores, i < t.maxEntries.toNat := by
  obtain ⟨s, hvisit, happended⟩ := visit_saveTrace k o.calls (s := ⟨t, []⟩) hskip hroom
  have hview := walkStackframe_visit hwalk (saveTrace k) ⟨t, []⟩
  obtain ⟨o', ho', hview⟩ := Option.map_eq_some_iff.mp hview
  rw [hvisit] at hview
  obtain ⟨rfl, hcalls⟩ := Prod.mk.inj hview
  have hsave : saveStackTraceTsk config k fuel tsk t =
      some (if o'.arg.trace.nrEntries < o'.arg.trace.maxEntries then o'.arg.push ulongMax
        else o'.arg, o'.calls) := by
    rw [saveStackTraceTsk, ho']
    rfl
  have hcond : o'.arg.trace.nrEntries < o'.arg.trace.maxEntries ↔
      ((o.calls.drop t.skip.toNat).take t.free).length < t.free := by
    have hlt := BitVec.lt_def.mp hroom
    have hnr : o'.arg.trace.nrEntries.toNat =
        t.nrEntries.toNat + ((o.calls.drop t.skip.toNat).take t.free).length :=
      happended.nrEntries
    have hmax : o'.arg.trace.maxEntries = t.maxEntries := happended.maxEntries
    have hfree : t.free = t.maxEntries.toNat - t.nrEntries.toNat := rfl
    rw [BitVec.lt_def, hnr, hmax]
    omega
  -- the epilogue
  have hdone : Saving.Appended ⟨t, []⟩
      (if o'.arg.trace.nrEntries < o'.arg.trace.maxEntries then o'.arg.push ulongMax
        else o'.arg) (appended t o.calls) := by
    unfold appended
    by_cases hmore : o'.arg.trace.nrEntries < o'.arg.trace.maxEntries
    · rw [if_pos hmore, if_pos (hcond.mp hmore)]
      exact happended.append (hcond.mp hmore) ulongMax
    · rw [if_neg hmore, if_neg (mt hcond.mpr hmore)]
      exact happended
  rw [hcalls] at hsave
  refine ⟨_, hsave, hdone.nrEntries, hdone.entries, hdone.others, fun i hi => ?_⟩
  rw [hdone.stores, List.nil_append, List.mem_range'_1] at hi
  have hle := length_appended_le t o.calls
  rw [StackTrace.free] at hle
  have hlt := BitVec.lt_def.mp hroom
  exact Nat.lt_of_lt_of_le hi.2 (by simp only; omega)

/-- A stack with one record, whose return address is `0x80000100`. -/
def shallow : System .rv32 where
  kernelTextAddress a := decide (0x80000000 ≤ a)
  kstackEnd p := decide (p.toNat % threadSize = 0)
  inSchedFunctions _ := false
  mem a := if a = 0x100f then 0x80 else if a = 0x100d then 0x01 else 0

/-- A trace of it with room for the counter behind the first one, and for one more. -/
def roomy : StackTrace .rv32 := ⟨0, 2, fun _ => 0, 1⟩

theorem save_stack_trace_tsk_slice_shallow :
    let pcs : List (Word .rv32) := [0x80000000, 0x800000fc]
    ∃ s, saveStackTraceTsk .framePointer shallow 2 (.blocked 0x1010 0x1000 0x80000000) roomy =
        some (s, pcs.take 3) ∧
      s.trace.nrEntries.toNat = 0 + (appended roomy pcs).length ∧
      (∀ i (hi : i < (appended roomy pcs).length),
        s.trace.entries (0 + i) = (appended roomy pcs)[i]) ∧
      (∀ i, i < 0 ∨ 0 + (appended roomy pcs).length ≤ i → s.trace.entries i = roomy.entries i) ∧
      ∀ i ∈ s.stores, i < 2 :=
  save_stack_trace_tsk_slice .framePointer shallow 2 (.blocked 0x1010 0x1000 0x80000000) roomy
    ⟨(), [0x1008, 0x100c], [0x80000000, 0x800000fc]⟩ (by decide) (by decide) (by rfl)

end LowriscLinux.Kernel.SaveTrace
