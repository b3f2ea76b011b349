import LowriscLinux.Kernel.Entry
import LowriscLinux.Kernel.Vector

/-!
# Dispatch in the listing

The jump of `Kernel/Vector.lean` is what the lines of `handle_exception` in `Kernel/Entry.lean`
(`arch/riscv/kernel/entry.S`, lines 132-155) do from `bge s4, zero, 1f` on, where the linker has put
the table, its end and the handlers where `Vectors` has them (`Linked`).

* `Runs`: lines of the listing one after the other, from one that is reached to the first that
  leaves the trap code or the label `handle_syscall`.
* `Next.At`: where the last line leads, and where a C function that it goes into will return: `ra`
  is `ret_from_exception` since line 129, and `tail` and `jr` leave it so.
* The arguments are those of the source: `a0` and `a1` for `do_IRQ` (lines 135-137), and `a0` for
  the other handlers (line 148).

A trap between two of these lines is no part of this: `Kernel/Transparent.lean` says that it brings
the registers back.

Results:
* **`handleException_runs`**: the lines lead to the target of the jump, with its arguments.
-/

namespace LowriscLinux.Kernel.Entry

open Lib

variable {w : Xlen} {image : Image w} {k : Vectors w} {m m' : Machine w} {i j : Nat}
  {line : Line w} {next : Next w}

/-- Lines of the listing one after the other. -/
inductive Runs (image : Image w) : Nat → Machine w → Machine w → Next w → Prop
  | refl (i : Nat) (m : Machine w) : Runs image i m m (.line i)
  | line {i j : Nat} {line : Line w} {m m' m'' : Machine w} {next : Next w}
      (hline : text[i]? = some line) (hexec : line.exec image i m = (m', .line j))
      (hrest : Runs image j m' m'' next) : Runs image i m m'' next
  | leave {i : Nat} {line : Line w} {m m' : Machine w} {next : Next w}
      (hline : text[i]? = some line) (hexec : line.exec image i m = (m', next)) :
      Runs image i m m' next

/-- An instruction, and the lines behind it. -/
theorem Runs.instr {ins : Instr w} (hline : text[i]? = some (.instr ins))
    (hrest : Runs image (i + 1) (ins.exec image.sym m) m' next) : Runs image i m m' next :=
  .line hline rfl hrest

theorem Runs.tail {f : Fn} {ra : Word w} (hline : (text : List (Line w))[i]? = some (.tail f))
    (hra : m.x .ra = ra) : Runs image i m m (.c (image.fn f) ra) :=
  .leave hline (hra ▸ rfl)

theorem Runs.jr {r : Reg} {pc ra : Word w} (hline : (text : List (Line w))[i]? = some (.jr r))
    (hpc : m.x r = pc) (hra : m.x .ra = ra) : Runs image i m m (.c pc ra) :=
  .leave hline (hpc ▸ hra ▸ rfl)

section Branch

variable {l : Label} {p : Prop} [Decidable p]

/-- A branch that is taken. -/
theorem Runs.taken (hline : text[i]? = some line)
    (hexec : line.exec image i m = (m, .line (if p then l.index w else i + 1))) (hp : p)
    (hl : l.index w = j) (hrest : Runs image j m m' next) : Runs image i m m' next := by
  subst hl
  rw [if_pos hp] at hexec
  exact .line hline hexec hrest

/-- A branch that is not taken. -/
theorem Runs.passed (hline : text[i]? = some line)
    (hexec : line.exec image i m = (m, .line (if p then l.index w else i + 1))) (hp : ¬ p)
    (hrest : Runs image (i + 1) m m' next) : Runs image i m m' next := by
  rw [if_neg hp] at hexec
  exact .line hline hexec hrest

end Branch

/-- The place that a line leads to, and where it will return to. -/
def Next.At (image : Image w) (ra target : Word w) : Next w → Prop
  | .line i => image.addr i = target
  | .c pc ret => pc = target ∧ ret = ra
  | .sret => False

/-- The symbols and the memory are those of the vectors. -/
structure Linked (image : Image w) (k : Vectors w) (mem : Memory (8 * szreg w)) : Prop where
  table : image.sym .excpVectTable = k.table
  tableEnd : image.sym .excpVectTableEnd = k.tableEnd
  doIRQ : image.fn .doIRQ = k.addr .doIRQ
  doTrapUnknown : image.fn .doTrapUnknown = k.addr .doTrapUnknown
  handleSyscall : image.addr (Label.handleSyscall.index w) = k.addr .handleSyscall
  mem : ∀ a, loadWord (szreg w) mem a = k.mem a

theorem index_exception : Label.exception.index w = 10 := by cases w <;> rfl

theorem index_trapUnknown : Label.trapUnknown.index w = 21 := by cases w <;> rfl

/-- An interrupt. -/
theorem runs_interrupt (image : Image w) (h : ¬ 0 ≤ (m.x .s4).toInt) :
    ∃ m', Runs image 5 m m' (.c (image.fn .doIRQ) (m.x .ra)) ∧
      m'.x .a0 = (m.x .s4 <<< 1) >>> 1 ∧ m'.x .a1 = m.x .sp := by
  refine ⟨_, .passed rfl rfl h (.instr rfl (.instr rfl (.instr rfl (.tail rfl ?_)))), ?_, ?_⟩
  all_goals simp [Instr.exec]

/-- A system call. -/
theorem runs_syscall (image : Image w) (h : 0 ≤ (m.x .s4).toInt) (hcall : m.x .s4 = excSyscall) :
    ∃ m', Runs image 5 m m' (.line (Label.handleSyscall.index w)) ∧
      m'.x .a0 = m.x .a0 ∧ m'.x .a1 = m.x .a1 := by
  refine ⟨_, .taken rfl rfl h index_exception (.line rfl rfl (.instr rfl (.taken rfl rfl ?_ rfl
    (.refl _ _)))), ?_, ?_⟩
  all_goals simp [Instr.exec, hcall]

/-- Another exception, up to the comparison with the end of the table. -/
theorem runs_table (hk : Linked image k m.mem) (h : 0 ≤ (m.x .s4).toInt)
    (hcall : m.x .s4 ≠ excSyscall) :
    ∃ m₁, (∀ m' next, Runs image 18 m₁ m' next → Runs image 5 m m' next) ∧
      m₁.x .t0 = k.table + m.x .s4 <<< lgptr w ∧ m₁.x .t2 = k.tableEnd ∧ m₁.x .ra = m.x .ra ∧
      m₁.x .a0 = m.x .sp ∧ m₁.x .a1 = m.x .a1 ∧ m₁.mem = m.mem := by
  refine ⟨_, fun m' next hrest => .taken rfl rfl h index_exception (.line rfl rfl (.instr rfl
    (.passed rfl rfl ?_ (.instr rfl (.instr rfl (.instr rfl (.instr rfl (.instr rfl hrest)))))))),
    ?_, ?_, ?_, ?_, ?_, ?_⟩
  all_goals simp [Instr.exec, hcall, hk.table, hk.tableEnd]

/-- **The lines lead to the target of the jump**, with its arguments. -/
theorem handleException_runs (hk : Linked image k m.mem) :
    let jump := handleExceptionJump k (m.x .s4) (m.x .sp) (m.x .a0) (m.x .a1)
    ∃ m' next, Runs image 5 m m' next ∧ next.At image (m.x .ra) jump.target ∧
      m'.x .a0 = jump.a0 ∧ m'.x .a1 = jump.a1 := by
  unfold handleExceptionJump
  split
  · next hneg =>
    obtain ⟨m', hruns, ha0, ha1⟩ := runs_interrupt image hneg
    exact ⟨m', _, hruns, ⟨hk.doIRQ, rfl⟩, ha0, ha1⟩
  · next hpos =>
    split
    · next hcall =>
      obtain ⟨m', hruns, ha0, ha1⟩ := runs_syscall image (not_not.mp hpos) hcall
      exact ⟨m', _, hruns, hk.handleSyscall, ha0, ha1⟩
    · next hcall =>
      obtain ⟨m₁, hruns, ht0, ht2, hra, ha0, ha1, hmem⟩ := runs_table hk (not_not.mp hpos) hcall
      dsimp only
      split
      · next hend =>
        rw [BitVec.le_def, ← ht0, ← ht2] at hend
        exact ⟨m₁, _, hruns _ _ (.taken rfl rfl hend index_trapUnknown (.line rfl rfl
          (.tail rfl hra))), ⟨hk.doTrapUnknown, rfl⟩, ha0, ha1⟩
      · next hend =>
        rw [BitVec.le_def, ← ht0, ← ht2] at hend
        have hload : loadWord (szreg w) m₁.mem (m₁.x .t0 + BitVec.ofNat _ 0) =
            k.mem (k.table + m.x .s4 <<< lgptr w) := by
          rw [hmem, ht0, BitVec.add_zero, hk.mem]
        refine ⟨_, _, hruns _ _ (.passed rfl rfl hend (.instr rfl (.jr rfl ?_ rfl))), ⟨rfl, ?_⟩,
          ?_, ?_⟩
        · simpa [Instr.exec] using hload
        all_goals simpa [Instr.exec]

end LowriscLinux.Kernel.Entry
