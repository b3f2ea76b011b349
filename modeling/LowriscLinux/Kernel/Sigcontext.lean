import LowriscLinux.Kernel.Fstate
import LowriscLinux.Lib.Bytes

/-!
# The floating-point registers of a signal frame

Model of `restore_sigcontext` (`arch/riscv/kernel/signal.c`, lines 19-31) as far as the
floating-point registers go, with the sleeps of the task while it reads the frame: the page of the
frame that is to be read may have to be brought in, and other tasks run meanwhile.

## What models what

* `FpRegs.bytes` and `FpRegs.ofBytes`: `struct user_fpregs_struct` in memory, 32 registers of 8
  bytes and `fcsr` (`uapi/asm/ptrace.h`). `fpSize` counts the padding too.
* `Return`: a call of `rt_sigreturn` that succeeds. `first` and `second` are the sleeps in the two
  calls of `__copy_from_user`.
* `copyFpregs`: the second call (lines 26 and 27). It writes `thread.fstate` byte by byte, the
  memory that a switch saves the registers to. Between two runs of bytes the task may sleep, and a
  sleep is that of `Kernel/Fstate.lean`, with the saved status as it is.
* `Return.restoreSigcontext`: the two copies, then `fstate_restore` (line 29).
* `Return.observed`: what the program sees after `RESTORE_ALL` and `sret`.

Where it departs from the source:
* The first copy writes the integer registers, which no sleep looks at; only its sleeps are kept.
  The frame in user memory does not change during the call.
* That the return ends in user mode is `Kernel/Sigreturn.lean` and `Kernel/ReturnPath.lean`.

Results:
* `FpRegs.ofBytes_bytes`, `FpRegs.ofBytes_eq_iff`: the registers and the bytes of
  `struct user_fpregs_struct` determine each other.
* `copyFpregs_quiet`, `copyFpregs_saved`: what the copy ends with when no sleep saves the registers,
  and when every one does.
* **`installs_iff`**: the program sees the registers of the frame iff no sleep in the second copy
  saves registers that differ from what has been copied so far.
* `not_installs_saved`: a frame of which the first register is lost.
-/

namespace LowriscLinux.Kernel.Fp

open Lib

variable {w : Xlen}

/-! ## The bytes of the registers -/

/-- `sizeof(struct user_fpregs_struct)`: 32 registers, `fcsr` and padding. -/
def fpSize : Nat := 264

/-- The bytes that hold registers. -/
def fpBytes : Nat := 260

namespace FpRegs

def dword (r : FpRegs) (k : Nat) : BitVec (8 * 8) := if h : k < 32 then r.f ⟨k, h⟩ else 0

/-- The bytes of the structure. -/
def bytes (r : FpRegs) (i : Nat) : Byte :=
  if i < 256 then bytesOf r.dword i else if i < fpBytes then @byteAt 4 r.fcsr (i - 256) else 0

/-- The structure that given bytes are. -/
def ofBytes (b : Nat → Byte) : FpRegs :=
  ⟨fun k => wordsOf 8 b k, Lib.ofBytes 4 fun j => b (256 + j)⟩

theorem ofBytes_bytes (r : FpRegs) : ofBytes r.bytes = r := by
  ext1
  · funext k
    have hk := k.isLt
    have hword : wordsOf 8 r.bytes k = wordsOf 8 (bytesOf r.dword) k :=
      wordsOf_congr fun i _ hi => if_pos (by omega)
    show wordsOf 8 r.bytes k = r.f k
    rw [hword, wordsOf_bytesOf, dword, dif_pos hk]
  · refine eq_of_byteAt (n := 4) fun j hj => ?_
    rw [ofBytes, byteAt_ofBytes _ hj, bytes, if_neg (by omega), if_pos (by unfold fpBytes; omega),
      Nat.add_sub_cancel_left]

/-- **The registers are the same iff the bytes are.** -/
theorem ofBytes_eq_iff {b c : Nat → Byte} :
    ofBytes b = ofBytes c ↔ ∀ i < fpBytes, b i = c i := by
  constructor
  · intro h i hi
    unfold fpBytes at hi
    by_cases hf : i < 256
    · have hword := congrFun (congrArg FpRegs.f h) ⟨i / 8, by omega⟩
      calc b i = bytesOf (wordsOf 8 b) i := (congrFun (bytesOf_wordsOf (by decide) b) i).symm
        _ = bytesOf (wordsOf 8 c) i := congrArg (@byteAt 8 · (i % 8)) hword
        _ = c i := congrFun (bytesOf_wordsOf (by decide) c) i
    · have hfcsr := congrArg (fun r : FpRegs => @byteAt 4 r.fcsr (i - 256)) h
      have hsum : 256 + (i - 256) = i := by omega
      simpa [ofBytes, byteAt_ofBytes _ (show i - 256 < 4 by omega), hsum] using hfcsr
  · intro h
    unfold fpBytes at h
    ext1
    · funext k
      have hk := k.isLt
      exact wordsOf_congr fun i _ hi => h i (by omega)
    · refine eq_of_byteAt (n := 4) fun j hj => ?_
      rw [ofBytes, ofBytes, byteAt_ofBytes _ hj, byteAt_ofBytes _ hj, h _ (by omega)]

theorem bytes_ofBytes (b : Nat → Byte) {i : Nat} (hi : i < fpBytes) : (ofBytes b).bytes i = b i :=
  ofBytes_eq_iff.mp (ofBytes_bytes (ofBytes b)) i hi

end FpRegs

/-! ## The copy -/

/-- The bytes from `lo` up to `hi` are copied to `thread.fstate`. -/
def copyRange (b : Nat → Byte) (lo hi : Nat) (c : Fpu w × Thread w) : Fpu w × Thread w :=
  (c.1, { c.2 with
    fstate := .ofBytes fun i => if lo ≤ i ∧ i < hi then b i else c.2.fstate.bytes i })

/-- `__copy_from_user(&task->thread.fstate, &sc->sc_fpregs, sizeof(sc->sc_fpregs))`, from `pos` on,
with the sleeps on the way: how many more bytes have been copied then, and what the other tasks
leave in the registers. -/
def copyFpregs (b : Nat → Byte) :
    Nat → List (Nat × Option FpRegs) → Fpu w × Thread w → Fpu w × Thread w
  | pos, [], c => copyRange b pos fpSize c
  | pos, (n, others) :: rest, c =>
    copyFpregs b (pos + n) rest (sleep (copyRange b pos (pos + n) c) others)

/-- A call of `rt_sigreturn` that succeeds: the registers and the saved status of the task, of which
the unit is on, its copy in memory, the bytes of `sc_fpregs` in the frame, and the sleeps in the two
copies of `restore_sigcontext` and after it. -/
structure Return (w : Xlen) where
  hw : Fpu w
  task : Thread w
  on : fsOff task.sstatus = false
  scFpregs : Nat → Byte
  first : List (Option FpRegs)
  second : List (Nat × Option FpRegs)
  later : List (Option FpRegs)

namespace Return

variable (r : Return w)

/-- `restore_sigcontext`: `sc_regs` is copied, then `sc_fpregs`, then the registers are loaded. -/
def restoreSigcontext : Fpu w × Thread w :=
  let c := r.first.foldl sleep (r.hw, r.task)
  let (hw, task) := copyFpregs r.scFpregs 0 r.second c
  fstateRestore hw task

/-- What the program sees when it goes on. -/
def observed : Option FpRegs :=
  let c := leave (r.later.foldl sleep r.restoreSigcontext)
  seen c.1.sstatus c.1.regs

/-- **The program sees the registers of the frame.** -/
def Installs : Prop := r.observed = some (.ofBytes r.scFpregs)

/-- How much has been copied at the last sleep in the second copy. -/
def lastSleep : Nat := (r.second.map Prod.fst).sum

/-- How much has been copied at the first sleep of all. -/
def firstSleep : Nat :=
  if r.first = [] then (r.second.map Prod.fst).headD 0 else 0

end Return

/-- No sleep in the second copy saves registers that differ from what has been copied so far. With
`SR_SD` in the saved status every sleep saves them: the live ones if the state is dirty, and if it
is initial, those that the first sleep has loaded. -/
def Return.Undisturbed (r : Return w) : Prop :=
  hasSd r.task.sstatus = true →
    (fsDirty r.task.sstatus = true →
      ∀ i < fpBytes, i < r.lastSleep → r.scFpregs i = r.hw.regs.bytes i) ∧
    (fsInitial r.task.sstatus = true →
      ∀ i < fpBytes, r.firstSleep ≤ i → i < r.lastSleep → r.scFpregs i = r.task.fstate.bytes i)

section Sleeps

variable {c : Fpu w × Thread w} {v : FpRegs} {b : Nat → Byte}

/-- The switches touch bit 14 of the saved status only. -/
theorem getLsbD_sleep {i : Nat} (hi : i ≠ 14) (c : Fpu w × Thread w) (others : Option FpRegs) :
    (sleep c others).2.sstatus.getLsbD i = c.2.sstatus.getLsbD i := by
  have hclean : ∀ s : Word w, (cleanStatus s).getLsbD i = s.getLsbD i := by
    intro s
    rw [getLsbD_cleanStatus]
    simp [hi]
  have hout : (switchOut c.1 c.2).2.sstatus.getLsbD i = c.2.sstatus.getLsbD i := by
    unfold switchOut fstateSave
    split_ifs
    · exact hclean _
    · rfl
    · rfl
  refine Eq.trans ?_ hout
  unfold sleep switchIn fstateRestore
  dsimp only
  split_ifs
  · exact hclean _
  · rfl

theorem hasSd_sleep (c : Fpu w × Thread w) (others : Option FpRegs) :
    hasSd (sleep c others).2.sstatus = hasSd c.2.sstatus := by
  have h32 := le_xlen w
  rw [hasSd_eq, hasSd_eq, getLsbD_sleep (by omega)]

theorem fsOff_sleep (c : Fpu w × Thread w) (others : Option FpRegs) :
    fsOff (sleep c others).2.sstatus = fsOff c.2.sstatus :=
  (fsOff_fstateRestore _ _).trans (fsOff_switchOut _ _)

theorem fsOff_sleeps (c : Fpu w × Thread w) (events : List (Option FpRegs)) :
    fsOff (events.foldl sleep c).2.sstatus = fsOff c.2.sstatus := by
  induction events generalizing c with
  | nil => rfl
  | cons others events ih => exact (ih _).trans (fsOff_sleep c others)

/-- After a sleep a state that was not clean counts as dirty. -/
theorem fsDirty_sleep (hon : fsOff c.2.sstatus = false) (others : Option FpRegs) :
    fsDirty (sleep c others).2.sstatus = c.2.sstatus.getLsbD 13 := by
  have hout : fsOff (switchOut c.1 c.2).2.sstatus = false := by rw [fsOff_switchOut, hon]
  rw [← getLsbD_sleep (by decide) c others]
  change fsDirty (fstateRestore _ (switchOut c.1 c.2).2).2.sstatus =
    (fstateRestore _ (switchOut c.1 c.2).2).2.sstatus.getLsbD 13
  rw [fstateRestore_of_on _ _ hout]
  show fsDirty (cleanStatus _) = (cleanStatus _).getLsbD 13
  rw [fsDirty_cleanStatus, getLsbD_cleanStatus]
  simp

/-- A status with which no sleep saves the registers. -/
structure Quiet (c : Fpu w × Thread w) : Prop where
  on : fsOff c.2.sstatus = false
  clean : (hasSd c.2.sstatus && c.2.sstatus.getLsbD 13) = false

theorem Quiet.sleep (h : Quiet c) (others : Option FpRegs) :
    Quiet (sleep c others) ∧ (sleep c others).2.fstate = c.2.fstate := by
  refine ⟨⟨?_, ?_⟩, ?_⟩
  · rw [fsOff_sleep, h.on]
  · rw [hasSd_sleep, getLsbD_sleep (by decide), h.clean]
  · have hclean := h.clean
    have hout : (switchOut c.1 c.2).2.fstate = c.2.fstate := by
      unfold switchOut fstateSave
      rw [fsDirty_eq]
      split_ifs with hsd hd
      · simp_all
      · rfl
      · rfl
    exact (fstateRestore_fstate _ _).trans hout

/-- The status with which every sleep saves the registers, and what these hold. -/
structure Saving (v : FpRegs) (c : Fpu w × Thread w) : Prop where
  regs : c.1.regs = v
  sd : hasSd c.2.sstatus = true
  dirty : fsDirty c.2.sstatus = true

theorem Saving.sleep (h : Saving v c) (others : Option FpRegs) :
    Saving v (sleep c others) ∧ (sleep c others).2.fstate = v := by
  have hon := fsOff_of_fsDirty h.dirty
  have hout : (switchOut c.1 c.2).2.fstate = v :=
    (switchOut_fstate _ _ fun hnot => by simp [h.sd, h.dirty] at hnot).trans h.regs
  have hs := sleep_synced hon hout others
  refine ⟨⟨hs.regs, ?_, ?_⟩, hs.fstate⟩
  · rw [hasSd_sleep, h.sd]
  · rw [fsDirty_sleep hon]
    have hd := h.dirty
    rw [fsDirty_eq, Bool.and_eq_true] at hd
    exact hd.1

theorem Quiet.sleeps (h : Quiet c) (events : List (Option FpRegs)) :
    Quiet (events.foldl Fp.sleep c) := by
  induction events generalizing c with
  | nil => exact h
  | cons others events ih => exact ih (h.sleep others).1

theorem Saving.sleeps (h : Saving v c) (events : List (Option FpRegs)) :
    Saving v (events.foldl Fp.sleep c) := by
  induction events generalizing c with
  | nil => exact h
  | cons others events ih => exact ih (h.sleep others).1

/-- An initial state with `SR_SD` set: the first sleep loads the copy in memory, and the state
counts as dirty from then on. -/
theorem saving_sleep (hsd : hasSd c.2.sstatus = true) (hinit : fsInitial c.2.sstatus = true)
    (others : Option FpRegs) :
    Saving c.2.fstate (sleep c others) ∧ (sleep c others).2.fstate = c.2.fstate := by
  rw [fsInitial_eq, Bool.and_eq_true, Bool.not_eq_true'] at hinit
  have hon : fsOff c.2.sstatus = false := by rw [fsOff_eq, hinit.1]; rfl
  have hout : (switchOut c.1 c.2).2.fstate = c.2.fstate := by
    unfold switchOut fstateSave
    rw [fsDirty_eq, hinit.2]
    simp
  have hs := sleep_synced hon hout others
  refine ⟨⟨hs.regs, ?_, ?_⟩, hs.fstate⟩
  · rw [hasSd_sleep, hsd]
  · rw [fsDirty_sleep hon, hinit.1]

theorem fsOff_copyFpregs (pos : Nat) (events : List (Nat × Option FpRegs)) :
    fsOff (copyFpregs b pos events c).2.sstatus = fsOff c.2.sstatus := by
  induction events generalizing pos c with
  | nil => rfl
  | cons e rest ih => exact (ih _).trans (fsOff_sleep _ _)

/-- Without a save the copy ends with the bytes of the frame. -/
theorem copyFpregs_quiet (h : Quiet c) {pos : Nat}
    (hpos : ∀ i < fpBytes, i < pos → c.2.fstate.bytes i = b i)
    (events : List (Nat × Option FpRegs)) :
    (copyFpregs b pos events c).2.fstate = .ofBytes b := by
  induction events generalizing pos c with
  | nil =>
    refine FpRegs.ofBytes_eq_iff.mpr fun i hi => ?_
    unfold fpBytes at hi
    split_ifs with hr
    · rfl
    · exact hpos i hi (by unfold fpSize at hr; omega)
  | cons e rest ih =>
    obtain ⟨n, others⟩ := e
    have hc : Quiet (copyRange b pos (pos + n) c) := ⟨h.on, h.clean⟩
    obtain ⟨hquiet, hfstate⟩ := hc.sleep others
    refine ih hquiet fun i hi hlt => ?_
    rw [hfstate]
    refine (FpRegs.bytes_ofBytes _ hi).trans ?_
    split_ifs with hr
    · rfl
    · exact hpos i hi (by omega)

/-- With a save at every sleep, what has been copied up to the last one is lost. -/
theorem copyFpregs_saved (h : Saving v c) (pos : Nat) (e : Nat × Option FpRegs)
    (rest : List (Nat × Option FpRegs)) :
    (copyFpregs b pos (e :: rest) c).2.fstate =
      .ofBytes fun i => if i < pos + ((e :: rest).map Prod.fst).sum then v.bytes i else b i := by
  induction rest generalizing pos e c with
  | nil =>
    obtain ⟨n, others⟩ := e
    have hc : Saving v (copyRange b pos (pos + n) c) := ⟨h.regs, h.sd, h.dirty⟩
    have hfstate := (hc.sleep others).2
    rw [copyFpregs, copyFpregs, copyRange, hfstate]
    refine FpRegs.ofBytes_eq_iff.mpr fun i hi => ?_
    unfold fpBytes at hi
    unfold fpSize
    simp only [List.map_cons, List.map_nil, List.sum_cons, List.sum_nil]
    split_ifs <;> first | rfl | omega
  | cons e' rest ih =>
    obtain ⟨n, others⟩ := e
    have hc : Saving v (copyRange b pos (pos + n) c) := ⟨h.regs, h.sd, h.dirty⟩
    rw [copyFpregs, ih (hc.sleep others).1]
    simp only [List.map_cons, List.sum_cons, Nat.add_assoc]

end Sleeps

namespace Return

variable (r : Return w)

/-- What `restore_sigcontext` has in memory when it loads the registers. -/
def copied : FpRegs :=
  (copyFpregs r.scFpregs 0 r.second (r.first.foldl sleep (r.hw, r.task))).2.fstate

/-- The program sees what was copied, whatever sleeps follow. -/
theorem observed_eq : r.observed = some r.copied := by
  have hon : fsOff (copyFpregs r.scFpregs 0 r.second
      (r.first.foldl sleep (r.hw, r.task))).2.sstatus = false := by
    rw [fsOff_copyFpregs, fsOff_sleeps]
    exact r.on
  have hs : Synced r.copied r.restoreSigcontext :=
    ⟨fstateRestore_regs _ _ hon, fstateRestore_fstate _ _, (fsOff_fstateRestore _ _).trans hon⟩
  have hback := hs.sleeps r.later
  unfold observed
  refine (seen_of_on ?_ _).trans (congrArg some hback.regs)
  show fsOff (sretStatus (csrStatus (r.later.foldl sleep r.restoreSigcontext).2.sstatus)) = false
  rw [fsOff_sretStatus, fsOff_csrStatus, hback.on]

theorem installs_iff_copied : r.Installs ↔ r.copied = .ofBytes r.scFpregs := by
  rw [Installs, observed_eq, Option.some.injEq]

variable {r}

/-- The registers are saved at every sleep of the second copy. -/
theorem installs_iff_of_saving {v : FpRegs}
    (h : Saving v (r.first.foldl sleep (r.hw, r.task))) :
    r.Installs ↔ ∀ i < fpBytes, i < r.lastSleep → r.scFpregs i = v.bytes i := by
  rw [installs_iff_copied, copied, lastSleep]
  cases r.second with
  | nil =>
    refine iff_of_true ?_ (fun i _ hi => by simp at hi)
    refine FpRegs.ofBytes_eq_iff.mpr fun i hi => if_pos ?_
    unfold fpBytes at hi
    unfold fpSize
    omega
  | cons e rest =>
    rw [copyFpregs_saved h, FpRegs.ofBytes_eq_iff]
    refine forall_congr' fun i => forall_congr' fun _ => ?_
    rw [Nat.zero_add]
    split_ifs with hlt
    · exact ⟨fun heq _ => heq.symm, fun heq => (heq hlt).symm⟩
    · exact iff_of_true rfl fun hi => absurd hi hlt

/-- The first sleep of all is in the second copy, and loads what has been copied until then. -/
theorem installs_iff_of_initial (hf : r.first = []) (hsd : hasSd r.task.sstatus = true)
    (hinit : fsInitial r.task.sstatus = true) :
    r.Installs ↔ ∀ i < fpBytes, (r.second.map Prod.fst).headD 0 ≤ i → i < r.lastSleep →
      r.scFpregs i = r.task.fstate.bytes i := by
  rw [installs_iff_copied, copied, lastSleep, hf, List.foldl_nil]
  cases r.second with
  | nil =>
    refine iff_of_true ?_ (fun i _ _ hi => by simp at hi)
    refine FpRegs.ofBytes_eq_iff.mpr fun i hi => if_pos ?_
    unfold fpBytes at hi
    unfold fpSize
    omega
  | cons e rest =>
    obtain ⟨n, others⟩ := e
    obtain ⟨hsaving, hfstate⟩ :=
      @saving_sleep _ (copyRange r.scFpregs 0 (0 + n) (r.hw, r.task)) hsd hinit others
    -- what the first sleep loads: the frame up to there, the old registers from there on
    have hloaded : ∀ i < fpBytes,
        (copyRange r.scFpregs 0 (0 + n) (r.hw, r.task)).2.fstate.bytes i =
          if i < n then r.scFpregs i else r.task.fstate.bytes i := by
      intro i hi
      refine (FpRegs.bytes_ofBytes _ hi).trans ?_
      simp
    rw [copyFpregs]
    simp only [List.map_cons, List.headD_cons, List.sum_cons]
    cases rest with
    | nil =>
      refine iff_of_true ?_ (fun i _ hlo hi => by simp at hi; omega)
      refine FpRegs.ofBytes_eq_iff.mpr fun i hi => ?_
      rw [hfstate, hloaded i hi]
      unfold fpBytes at hi
      unfold fpSize
      split_ifs <;> first | rfl | omega
    | cons e' rest =>
      rw [copyFpregs_saved hsaving, FpRegs.ofBytes_eq_iff]
      refine forall_congr' fun i => forall_congr' fun hi => ?_
      rw [hloaded i hi, Nat.zero_add]
      split_ifs with hlt hin
      · exact iff_of_true rfl fun hlo => absurd hlo (by omega)
      · exact ⟨fun heq _ _ => heq.symm, fun heq => (heq (by omega) hlt).symm⟩
      · exact iff_of_true rfl fun _ hi' => absurd hi' hlt

/-- **The program sees the registers of the frame iff no sleep disturbs the copy.** -/
theorem installs_iff (r : Return w) : r.Installs ↔ r.Undisturbed := by
  unfold Undisturbed
  cases hsd : hasSd r.task.sstatus with
  | false =>
    have hquiet : Quiet (r.first.foldl sleep (r.hw, r.task)) :=
      Quiet.sleeps ⟨r.on, by simp [hsd]⟩ _
    rw [installs_iff_copied]
    exact iff_of_true (copyFpregs_quiet hquiet (by simp) _) (by simp)
  | true =>
    have h13 := fsDirty_eq r.task.sstatus
    have hinit := fsInitial_eq r.task.sstatus
    cases hd : fsDirty r.task.sstatus with
    | true =>
      have hi : fsInitial r.task.sstatus = false := by
        rw [hinit]
        simp_all
      have hsaving : Saving r.hw.regs (r.first.foldl sleep (r.hw, r.task)) :=
        @Saving.sleeps _ (r.hw, r.task) _ ⟨rfl, hsd, hd⟩ _
      rw [installs_iff_of_saving hsaving]
      simp [hi]
    | false =>
      cases hi : fsInitial r.task.sstatus with
      | false =>
        have hquiet : Quiet (r.first.foldl sleep (r.hw, r.task)) :=
          Quiet.sleeps ⟨r.on, by simp_all⟩ _
        rw [installs_iff_copied]
        exact iff_of_true (copyFpregs_quiet hquiet (by simp) _) (by simp)
      | true =>
        by_cases hf : r.first = []
        · rw [installs_iff_of_initial hf hsd hi]
          simp [firstSleep, hf]
        · obtain ⟨others, events, hcons⟩ := List.exists_cons_of_ne_nil hf
          have hsaving : Saving r.task.fstate (r.first.foldl sleep (r.hw, r.task)) := by
            rw [hcons, List.foldl_cons]
            exact (@saving_sleep _ (r.hw, r.task) hsd hi others).1.sleeps events
          rw [installs_iff_of_saving hsaving]
          simp [firstSleep, hf]

end Return

/-- A return to a program that has used the unit: the page behind the first register of the frame
has to be brought in. -/
def sleepyReturn : Return .rv64 where
  hw := ⟨0, ⟨fun _ => 1, 0⟩⟩
  task := ⟨⟨fun _ => 0, 0⟩, srPie ||| srFsDirty ||| srSd .rv64⟩
  on := by decide
  scFpregs _ := 0
  first := []
  second := [(8, none)]
  later := []

/-- **A sleep in the copy replaces the first register of the frame by the live one.** -/
theorem not_installs_saved : ¬ sleepyReturn.Installs := by
  intro h
  rw [Return.installs_iff_copied] at h
  have hbyte := FpRegs.ofBytes_eq_iff.mp h 0 (by decide)
  exact absurd hbyte (by decide)

end LowriscLinux.Kernel.Fp
