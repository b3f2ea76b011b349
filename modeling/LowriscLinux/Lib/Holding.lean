import Mathlib.Data.List.Induction

/-!
# Use of a lock

What one party does to a lock that it may hold once (`LockOp`). A use is `Balanced` when it takes
the lock only while it does not hold it, releases it only while it holds it, and takes it as often
as it releases it. `runLock` is the automaton that follows a use.

Results:
* `balanced_iff`: a use is balanced iff the automaton goes from "not held" to "not held".
* `runLock_append`: a use in two parts is followed part by part.
-/

namespace LowriscLinux.Lib

inductive LockOp
  | acquire
  | release
  deriving DecidableEq, Repr

/-- The lock is taken as often as released, never released when not held, never taken twice. -/
structure Balanced (ops : List LockOp) : Prop where
  counts : ops.count .acquire = ops.count .release
  release_held : ∀ before after, ops = before ++ .release :: after →
    before.count .release < before.count .acquire
  acquire_free : ∀ before after, ops = before ++ .acquire :: after →
    before.count .acquire ≤ before.count .release

/-- Whether the lock is held after an operation, if the operation is allowed. -/
def hold : Bool → LockOp → Option Bool
  | false, .acquire => some true
  | true, .release => some false
  | false, .release => none
  | true, .acquire => none

/-- Whether the lock is held after a use, if every operation is allowed. -/
def runLock (held : Bool) : List LockOp → Option Bool
  | [] => some held
  | op :: ops => (hold held op).bind fun held' => runLock held' ops

@[simp] theorem runLock_nil (held : Bool) : runLock held [] = some held := rfl

theorem runLock_append (held : Bool) (ops ops' : List LockOp) :
    runLock held (ops ++ ops') = (runLock held ops).bind fun held' => runLock held' ops' := by
  induction ops generalizing held with
  | nil => rfl
  | cons op ops ih =>
    cases h : hold held op with
    | none => simp [runLock, h]
    | some held' => simp [runLock, h, ih]

theorem hold_count {held held' : Bool} {op : LockOp} (h : hold held op = some held')
    (ops : List LockOp) :
    (op :: ops).count .acquire + held.toNat + ops.count .release =
      (op :: ops).count .release + held'.toNat + ops.count .acquire := by
  cases held <;> cases op <;> simp [hold] at h <;> subst h <;> simp <;> omega

/-- After an allowed use, the operations done tell whether the lock is held. -/
theorem runLock_count {held held' : Bool} {ops : List LockOp} (h : runLock held ops = some held') :
    ops.count .acquire + held.toNat = ops.count .release + held'.toNat := by
  induction ops generalizing held with
  | nil => simp_all
  | cons op ops ih =>
    obtain ⟨held₁, hop, hops⟩ := Option.bind_eq_some_iff.mp h
    have := hold_count hop ops
    have := ih hops
    omega

theorem Balanced.of_runLock {ops : List LockOp} (h : runLock false ops = some false) :
    Balanced ops where
  counts := by simpa using runLock_count h
  release_held before after e := by
    rw [e, runLock_append] at h
    cases hb : runLock false before with
    | none => simp [hb] at h
    | some held =>
      have hc := runLock_count hb
      cases held with
      | false => simp [hb, runLock, hold] at h
      | true => simp at hc; omega
  acquire_free before after e := by
    rw [e, runLock_append] at h
    cases hb : runLock false before with
    | none => simp [hb] at h
    | some held =>
      have hc := runLock_count hb
      cases held with
      | false => simp at hc; omega
      | true => simp [hb, runLock, hold] at h

/-- A use that respects the lock up to `ops` respects it there too. -/
theorem exists_runLock {ops : List LockOp}
    (hrel : ∀ before after, ops = before ++ .release :: after →
      before.count .release < before.count .acquire)
    (hacq : ∀ before after, ops = before ++ .acquire :: after →
      before.count .acquire ≤ before.count .release) :
    ∃ held, runLock false ops = some held := by
  induction ops using List.reverseRecOn with
  | nil => exact ⟨false, rfl⟩
  | append_singleton ops op ih =>
    obtain ⟨held, hheld⟩ := ih
      (fun before after e => hrel before (after ++ [op]) (by simp [e]))
      (fun before after e => hacq before (after ++ [op]) (by simp [e]))
    have hc := runLock_count hheld
    cases op with
    | acquire =>
      have := hacq ops [] rfl
      cases held with
      | false => exact ⟨true, by simp [runLock_append, hheld, runLock, hold]⟩
      | true => simp at hc; omega
    | release =>
      have := hrel ops [] rfl
      cases held with
      | false => simp at hc; omega
      | true => exact ⟨false, by simp [runLock_append, hheld, runLock, hold]⟩

/-- **A use is balanced iff the automaton accepts it.** -/
theorem balanced_iff {ops : List LockOp} : Balanced ops ↔ runLock false ops = some false := by
  constructor
  · intro h
    obtain ⟨held, hheld⟩ := exists_runLock h.release_held h.acquire_free
    have hc := runLock_count hheld
    cases held with
    | false => exact hheld
    | true =>
      have := h.counts
      simp at hc
      omega
  · exact Balanced.of_runLock

end LowriscLinux.Lib
