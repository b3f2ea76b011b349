import LowriscLinux.Lib.Transition
import Mathlib.Data.List.Basic

/-!
# The list of processors

Model of `c_start`, `c_next` and `c_show` (`arch/riscv/kernel/cpu.c`, lines 6-32), which make
`/proc/cpuinfo`, with the reader that calls them: it may stop and start again at the position it has
come to, at any time, while processors go on and off line.

## What models what

* `Cpus`: the generic kernel's `nr_cpu_ids` and `cpumask_next`. What is assumed of the second is
  what its comment there says: the next processor of a mask behind a given one, or `nr_cpu_ids` and
  more.
* `cStart`: lines 6-12. `*pos - 1` is -1 at the beginning, so the search is behind any integer. The
  item is `1 + *pos`, or `NULL`.
* `cNext`: lines 14-18. `cShow`: the number that line 26 computes from the item and line 28 prints.
* `Reader.step`: the calls of a `seq_file`: `start` at its position, then `show` and `next` as long
  as there is an item. `c_stop` does nothing.
* `Call` has the mask of the processors that are online at that time, which may be another one at
  each call.

The other line that `c_show` prints does not depend on the hart.

Results:
* `Listed.step`: what each call keeps.
* **`cpuinfo_listed`**: the harts are listed in ascending order and each at most once, each of them
  has been online, and a list that has come to its end has all harts that were online throughout.
-/

namespace LowriscLinux.Kernel.Cpuinfo

open Lib

/-- The generic kernel: `nr_cpu_ids`, and `cpumask_next`, which gives the next processor of a mask
behind another one, or no processor. -/
structure Cpus where
  nrCpuIds : Nat
  cpumaskNext : Int → (Nat → Bool) → Nat
  found : ∀ n mask, cpumaskNext n mask < nrCpuIds →
    n < cpumaskNext n mask ∧ mask (cpumaskNext n mask) = true
  first : ∀ n mask m, m < nrCpuIds → n < (m : Int) → mask m = true → cpumaskNext n mask ≤ m

section Code

variable (c : Cpus)

/-- `c_start`: the position, and the item there. -/
def cStart (mask : Nat → Bool) (pos : Nat) : Nat × Option Nat :=
  let pos := c.cpumaskNext ((pos : Int) - 1) mask
  (pos, if pos < c.nrCpuIds then some (1 + pos) else none)

/-- `c_next` -/
def cNext (mask : Nat → Bool) (pos : Nat) : Nat × Option Nat := cStart c mask (pos + 1)

/-- `c_show`, which prints this hart. -/
def cShow (v : Nat) : Nat := v - 1

end Code

/-- The calls of a reader, each with the mask of the processors that are online then. -/
inductive Call
  | start (mask : Nat → Bool)
  | next (mask : Nat → Bool)

def Call.mask : Call → Nat → Bool
  | .start mask | .next mask => mask

/-- A reader: its position, the item it has, and the harts that have been shown. -/
structure Reader where
  pos : Nat
  item : Option Nat
  shown : List Nat

/-- Nothing has been read. -/
def Reader.new : Reader := ⟨0, none, []⟩

/-- A call. An item that the reader goes on from has been shown; one that it starts again at has
not. -/
def Reader.step (c : Cpus) (r : Reader) : Call → Option Reader
  | .start mask => some ⟨(cStart c mask r.pos).1, (cStart c mask r.pos).2, r.shown⟩
  | .next mask =>
    r.item.map fun v =>
      ⟨(cNext c mask r.pos).1, (cNext c mask r.pos).2, r.shown ++ [cShow v]⟩

/-! ## Calls -/

variable {c : Cpus} {mask : Nat → Bool} {pos : Nat}

/-- `c_start` does not go back. -/
theorem le_cStart (c : Cpus) (mask : Nat → Bool) (pos : Nat) :
    min pos c.nrCpuIds ≤ (cStart c mask pos).1 := by
  by_contra hlt
  have hfound := (c.found ((pos : Int) - 1) mask (by
    rw [cStart] at hlt
    omega)).1
  rw [cStart] at hlt
  omega

/-- It stops at a processor that is online. -/
theorem cStart_le {m : Nat} (hm : m < c.nrCpuIds) (hpos : pos ≤ m) (hmask : mask m = true) :
    (cStart c mask pos).1 ≤ m := c.first _ _ _ hm (by omega) hmask

theorem cStart_item {v : Nat} (h : (cStart c mask pos).2 = some v) :
    v = 1 + (cStart c mask pos).1 ∧ (cStart c mask pos).1 < c.nrCpuIds ∧
      mask (cStart c mask pos).1 = true := by
  rw [cStart] at h ⊢
  simp only at h ⊢
  split_ifs at h with hlt
  exact ⟨(Option.some.inj h).symm, hlt, (c.found _ _ hlt).2⟩

theorem cStart_none (h : (cStart c mask pos).2 = none) : c.nrCpuIds ≤ (cStart c mask pos).1 := by
  rw [cStart] at h ⊢
  simp only at h ⊢
  split_ifs at h with hlt
  exact Nat.le_of_not_lt hlt

/-! ## Lists -/

/-- What a reader has listed after some calls. -/
structure Listed (c : Cpus) (calls : List Call) (r : Reader) : Prop where
  sorted : r.shown.Pairwise (· < ·)
  below : ∀ m ∈ r.shown, m < r.pos ∧ m < c.nrCpuIds ∧ ∃ call ∈ calls, call.mask m = true
  item : ∀ v, r.item = some v → v = 1 + r.pos ∧ r.pos < c.nrCpuIds ∧
    ∃ call ∈ calls, call.mask r.pos = true
  ended : calls ≠ [] → r.item = none → c.nrCpuIds ≤ r.pos
  complete : ∀ m < c.nrCpuIds, (∀ call ∈ calls, call.mask m = true) → m < r.pos → m ∈ r.shown

theorem listed_new (c : Cpus) : Listed c [] Reader.new where
  sorted := List.Pairwise.nil
  below _ hm := nomatch hm
  item _ h := nomatch h
  ended h := absurd rfl h
  complete _ _ _ h := absurd h (Nat.not_lt_zero _)

/-- The reader goes to where `c_start` finds the next processor. -/
theorem Listed.goes {calls : List Call} {call : Call} {shown : List Nat}
    (hsorted : shown.Pairwise (· < ·))
    (hbelow : ∀ m ∈ shown, m < pos ∧ m < c.nrCpuIds ∧ ∃ call ∈ calls, call.mask m = true)
    (hcomplete : ∀ m < c.nrCpuIds, (∀ call ∈ calls, call.mask m = true) → m < pos → m ∈ shown) :
    Listed c (calls ++ [call])
      ⟨(cStart c call.mask pos).1, (cStart c call.mask pos).2, shown⟩ := by
  have hle := le_cStart c call.mask pos
  have hlast : call ∈ calls ++ [call] := List.mem_append_right _ (List.mem_singleton_self _)
  constructor
  case sorted => exact hsorted
  case below =>
    intro m hm
    obtain ⟨hlt, hnr, call', hcall', honline⟩ := hbelow m hm
    refine ⟨?_, hnr, call', List.mem_append_left _ hcall', honline⟩
    show m < (cStart c call.mask pos).1
    omega
  case item =>
    intro v hv
    obtain ⟨heq, hlt, honline⟩ := cStart_item hv
    exact ⟨heq, hlt, call, hlast, honline⟩
  case ended => exact fun _ hnone => cStart_none hnone
  case complete =>
    intro m hm honline hlt
    by_cases hpos : pos ≤ m
    · have hstop := cStart_le hm hpos (honline call hlast)
      exact absurd hlt (Nat.not_lt.mpr hstop)
    · exact hcomplete m hm (fun call' hcall' => honline call' (List.mem_append_left _ hcall'))
        (Nat.lt_of_not_le hpos)

/-- **Each call keeps the list.** -/
theorem Listed.step {calls : List Call} {call : Call} {r r' : Reader} (hr : Listed c calls r)
    (h : r.step c call = some r') : Listed c (calls ++ [call]) r' := by
  cases call with
  | start mask =>
    obtain rfl := Option.some.inj h
    exact .goes hr.sorted hr.below hr.complete
  | next mask =>
    obtain ⟨v, hv, rfl⟩ := Option.map_eq_some_iff.mp h
    obtain ⟨rfl, hlt, honline⟩ := hr.item v hv
    have hshow : cShow (1 + r.pos) = r.pos := Nat.add_sub_cancel_left ..
    rw [hshow]
    refine .goes ?_ ?_ ?_
    · refine List.pairwise_append.mpr ⟨hr.sorted, List.pairwise_singleton _ _, ?_⟩
      intro m hm m' hm'
      rw [List.mem_singleton.mp hm']
      exact (hr.below m hm).1
    · refine List.forall_mem_append.mpr ⟨fun m hm => ?_, ?_⟩
      · obtain ⟨hlt', hrest⟩ := hr.below m hm
        exact ⟨Nat.lt_succ_of_lt hlt', hrest⟩
      · exact List.forall_mem_singleton.mpr ⟨Nat.lt_succ_self _, hlt, honline⟩
    · intro m hm honline' hlt'
      rcases Nat.lt_or_eq_of_le (Nat.le_of_lt_succ hlt') with hlt' | rfl
      · exact List.mem_append_left _ (hr.complete m hm honline' hlt')
      · exact List.mem_append_right _ (List.mem_singleton_self _)

theorem listed_run {run : List (Call × Reader)}
    (hrun : IsRun (fun r call r' => r.step c call = some r') Reader.new run) :
    Listed c (run.map Prod.fst) (lastState Reader.new run) := by
  induction run using List.reverseRecOn with
  | nil => exact listed_new c
  | append_singleton run e ih =>
    obtain ⟨hrun, hstep, -⟩ := isRun_append.mp hrun
    rw [lastState_append, List.map_append]
    exact (ih hrun).step hstep

/-- **The list of processors.** However often the reader starts again, and whatever goes on and off
line in between: the harts are listed in ascending order, each of them has been online, and when
the list has come to its end it has all harts that have been online at every call. -/
theorem cpuinfo_listed {run : List (Call × Reader)}
    (hrun : IsRun (fun r call r' => r.step c call = some r') Reader.new run) :
    let r := lastState Reader.new run
    r.shown.Pairwise (· < ·) ∧
    (∀ m ∈ r.shown, m < c.nrCpuIds ∧ ∃ e ∈ run, e.1.mask m = true) ∧
    (run ≠ [] → r.item = none → ∀ m < c.nrCpuIds, (∀ e ∈ run, e.1.mask m = true) → m ∈ r.shown) := by
  have hlisted := listed_run hrun
  refine ⟨hlisted.sorted, fun m hm => ?_, fun hne hnone m hm honline => ?_⟩
  · obtain ⟨-, hlt, call, hcall, honline⟩ := hlisted.below m hm
    obtain ⟨e, he, rfl⟩ := List.mem_map.mp hcall
    exact ⟨hlt, e, he, honline⟩
  · have hend := hlisted.ended (by simpa using hne) hnone
    refine hlisted.complete m hm (fun call hcall => ?_) (Nat.lt_of_lt_of_le hm hend)
    obtain ⟨e, he, rfl⟩ := List.mem_map.mp hcall
    exact honline e he

/-- Four processors. -/
def four : Cpus where
  nrCpuIds := 4
  cpumaskNext n mask := (List.range 4).findIdx fun (m : Nat) => decide (n < m) && mask m
  found n mask h := by
    have hm := List.findIdx_getElem (w := by rwa [List.length_range])
    rw [List.getElem_range, Bool.and_eq_true, decide_eq_true_eq] at hm
    exact hm
  first n mask m hm hn hmask := by
    by_contra hlt
    have hnot := List.not_of_lt_findIdx (Nat.lt_of_not_le hlt)
    rw [List.getElem_range, hmask, Bool.and_true, decide_eq_false_iff_not] at hnot
    exact hnot hn

/-- Processors 0 to 2 are online; the reader stops at 1, which goes off line, and starts again. -/
def restarted : List (Call × Reader) :=
  trace (Reader.step four) Reader.new
    [.start (· < 3), .next (· < 3), .start (· ∈ [0, 2]), .next (· ∈ [0, 2])]

theorem cpuinfo_listed_restarted :
    (lastState Reader.new restarted).shown = [0, 2] ∧
    (lastState Reader.new restarted).item = none ∧
    (∀ m < 4, (∀ e ∈ restarted, e.1.mask m = true) → m ∈ (lastState Reader.new restarted).shown) := by
  have hitem : (lastState Reader.new restarted).item = none := by decide
  exact ⟨by decide, hitem,
    (cpuinfo_listed (isRun_trace _ _)).2.2 (by decide) hitem⟩

end LowriscLinux.Kernel.Cpuinfo
