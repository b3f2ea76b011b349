import LowriscLinux.Lib.Transition
import LowriscLinux.Video.Pan

/-!
# What the controller reads

Runs of the frame buffer driver of `Video/Iris.lean` on a machine of 64 bits, from `iris_probe`
(`arch/riscv/video/fb.c`, lines 207 to 286) on. The controller does not wait for the driver: it reads
the picture that its registers describe after each single write to them.

## What models what

* `irisProbe`: the writes of `iris_probe` (lines 270 to 277). The base registers are written first,
  so the controller must be off before (`Probed`); the memory of `__get_free_pages` is aligned to its
  size.
* `setParWrites`, `panWrites`: the writes of `iris_set_par` (lines 163 to 194) and of
  `iris_pan_display` (lines 196 to 205), in their order (`irisSetPar_cr`, `irisPanDisplay_cr`).
* `Call`: a function of the driver that the frame buffer core calls, one at a time. `setVar` is
  `iris_check_var`, which accepts the mode, the store of what it leaves in `info->var`, and
  `iris_set_par`; the core pans to the offsets of the mode by a call of its own after that.
* `ReadsInMemory`: what the registers of `vga.h` mean to the controller. All bytes of all visible
  pixels lie in the video memory, if the controller is on.

The core is a parameter (`Core`): which calls it makes and when, up to its documented checks, and what
it leaves of the offsets in `info->var`. That covers a mode that it finds unchanged (no call),
`FB_ACTIVATE_TEST` (`checkVar` alone), `FB_VMODE_YWRAP` (a pan that it refuses, as `ywrapstep` is 0)
and the palette that it sets after a mode (`setcolreg`).

The background colour is left out.

## Results

* `irisSetPar_cr`, `irisPanDisplay_cr`: the functions of the driver, as lists of writes.
* `Inv.step`: what each call keeps.
* **`scanout_iff`**: in a run that does nothing that C does not define, the controller always reads
  in the video memory, iff each mode is set where the old offset leaves room for the new picture,
  and the offset of each pan leaves room for the picture.
-/

namespace LowriscLinux.Video

open Lib Kernel

/-! ## Writes -/

/-- The values of the registers. -/
abbrev Regs := Cr → BitVec 32

/-- A write to a register. -/
abbrev Write := Cr × BitVec 32

def write (ws : List Write) (cr : Regs) : Regs :=
  ws.foldl (fun cr w => Function.update cr w.1 w.2) cr

/-- The registers after each of the writes. -/
def passed : List Write → Regs → List Regs
  | [], _ => []
  | w :: ws, cr => Function.update cr w.1 w.2 :: passed ws (Function.update cr w.1 w.2)

theorem passed_append (ws ws' : List Write) (cr : Regs) :
    passed (ws ++ ws') cr = passed ws cr ++ passed ws' (write ws cr) := by
  induction ws generalizing cr with
  | nil => rfl
  | cons w ws ih =>
    rw [List.cons_append, passed, ih]
    rfl

theorem write_mem_passed {ws : List Write} (h : ws ≠ []) (cr : Regs) :
    write ws cr ∈ passed ws cr := by
  induction ws generalizing cr with
  | nil => exact absurd rfl h
  | cons w ws ih =>
    by_cases hlast : ws = []
    · subst hlast
      exact List.mem_cons_self
    · exact List.mem_cons_of_mem _ (ih hlast _)

/-- What holds before and after each write holds at the end. -/
theorem write_of_passed {P : Regs → Prop} {ws : List Write} {cr : Regs} (h : P cr)
    (hpassed : ∀ cr' ∈ passed ws cr, P cr') : P (write ws cr) := by
  by_cases hws : ws = []
  · subst hws
    exact h
  · exact hpassed _ (write_mem_passed hws cr)

theorem write_append (ws ws' : List Write) (cr : Regs) :
    write (ws ++ ws') cr = write ws' (write ws cr) := List.foldl_append

/-! ## The driver and the core -/

section Functions

variable {w : Xlen} (u : Undefined)

/-- The writes of `iris_set_par`. -/
def setParWrites (mode : Var) : List Write :=
  [(.enable, 0),
    (.depth, BitVec.ofInt 32 (5 - (ilog2 mode.bitsPerPixel).value)),
    (.fbWidth, mode.xres),
    (.fbHeight, mode.yres),
    (.fbBpl, (shl u mode.xresVirtual ((ilog2 mode.bitsPerPixel).value - 3)).value),
    (.enable, 1)]

/-- The writes of `iris_pan_display`. -/
def panWrites (pan : Var) (info : Info w) : List Write :=
  [(.base, (panMem u pan info).setWidth 32), (.baseHigh, (memHigh u w (panMem u pan info)).value)]

/-- The device as `iris_probe` sets it up, with the memory at `smemStart`. -/
def irisProbe (info : Info w) : Traced Op (Info w) := do
  let info : Info w := { info with var := probeVar }
  let info := iowrite32 (info.smemStart.setWidth 32) .base info
  let info := iowrite32 (← memHigh u w info.smemStart) .baseHigh info
  let info : Info w := { info with var := (← irisCheckVar u info.var).2 }
  irisSetPar u info

/-- The first writes of `iris_probe`. -/
def probeBase (info : Info w) : List Write :=
  [(.base, info.smemStart.setWidth 32), (.baseHigh, (memHigh u w info.smemStart).value)]

/-- The writes of `iris_probe`. -/
def probeWrites (info : Info w) : List Write :=
  probeBase u info ++ setParWrites u (irisCheckVar u probeVar).value.2

instance decidableCoreAccepts (pan : Var) (info : Info w) : Decidable (CoreAccepts pan info) :=
  decidable_of_iff
    (pan.yoffset ≤ info.var.yresVirtual - info.var.yres ∧
      pan.xoffset ≤ info.var.xresVirtual - info.var.xres ∧ 8 ∣ pan.xoffset.toNat)
    ⟨fun h => ⟨h.1, h.2.1, h.2.2⟩, fun h => ⟨h.yoffset_le, h.xoffset_le, h.xpanstep⟩⟩

/-- A function of the driver that the core calls. -/
inductive Call
  /-- A mode is checked, and not set. -/
  | checkVar (request : Var)
  /-- A mode is checked, accepted and set. -/
  | setVar (request : Var)
  | panDisplay (pan : Var)
  | setcolreg (regno red green blue transp : BitVec 32)

/-- The frame buffer core, as it is documented. -/
structure Core (w : Xlen) where
  /-- It may make a call. -/
  Makes : Info w → Call → Prop
  /-- `fb_set_par` is only called for modes that `fb_check_var` has accepted. -/
  checked : ∀ info request, Makes info (.setVar request) → (irisCheckVar u request).value.1 = 0
  /-- `fb_pan_display` is only called for offsets in the virtual screen, in the driver's steps. -/
  accepts : ∀ info pan, Makes info (.panDisplay pan) → CoreAccepts pan info
  /-- What is in `info->var` after a pan. -/
  panned : Var → Var → Var
  /-- A pan changes no more of it than the offsets. -/
  panned_eq : ∀ pan mode, ∃ x y, panned pan mode = { mode with xoffset := x, yoffset := y }

variable {u} (core : Core u w)

/-- A device with a new mode, before it is installed. -/
def Info.withVar (info : Info w) (mode : Var) : Info w := { info with var := mode }

def Call.run : Call → Info w → Traced Op (Info w)
  | checkVar request, info => do
    let _ ← irisCheckVar u request
    return info
  | setVar request, info => do
    let checked ← irisCheckVar u request
    irisSetPar u (info.withVar checked.2)
  | panDisplay pan, info => do
    let info ← irisPanDisplay u pan info
    return info.withVar (core.panned pan info.var)
  | setcolreg regno red green blue transp, info => do
    return (← irisSetcolreg u regno red green blue transp info).2

variable (u) in
/-- The writes of a call. -/
def Call.writes : Call → Info w → List Write
  | checkVar _, _ => []
  | setVar request, _ => setParWrites u (irisCheckVar u request).value.2
  | panDisplay pan, info => panWrites u pan info
  | setcolreg .., _ => []

end Functions

section Writes

variable {w : Xlen} {u : Undefined} {core : Core u w} {info : Info w} {pan request : Var}

theorem irisSetPar_cr :
    (irisSetPar u info).value.cr = write (setParWrites u info.var) info.cr := rfl

theorem irisPanDisplay_cr :
    (irisPanDisplay u pan info).value.cr = write (panWrites u pan info) info.cr := rfl

theorem irisProbe_value :
    (irisProbe u info).value =
      (irisSetPar u (Info.withVar { info with cr := write (probeBase u info) info.cr }
        (irisCheckVar u probeVar).value.2)).value := by
  unfold irisProbe
  simp only [Traced.bind_value, iowrite32_var]
  generalize irisCheckVar u probeVar = checked
  rfl

theorem irisProbe_cr : (irisProbe u info).value.cr = write (probeWrites u info) info.cr := by
  rw [irisProbe_value, irisSetPar_cr, probeWrites, write_append]
  rfl

theorem irisSetcolreg_value (u : Undefined) (info : Info w)
    (regno red green blue transp : BitVec 32) :
    ∃ palette, (irisSetcolreg u regno red green blue transp info).value.2 =
      { info with pseudoPalette := palette } := by
  unfold irisSetcolreg
  split
  · exact ⟨_, rfl⟩
  · exact ⟨_, rfl⟩

theorem Call.run_setVar :
    ((Call.setVar request).run core info).value =
      (irisSetPar u (info.withVar (irisCheckVar u request).value.2)).value := rfl

theorem Call.run_panDisplay :
    ((Call.panDisplay pan).run core info).value =
      (irisPanDisplay u pan info).value.withVar (core.panned pan info.var) := rfl

/-- **The writes of a call are what it does to the registers.** -/
theorem Call.run_cr (c : Call) :
    (c.run core info).value.cr = write (c.writes u info) info.cr := by
  cases c with
  | checkVar request => rfl
  | setVar request => rfl
  | panDisplay pan => rfl
  | setcolreg regno red green blue transp =>
    obtain ⟨palette, hpalette⟩ :=
      irisSetcolreg_value u info regno red green blue transp
    show (irisSetcolreg u regno red green blue transp info).value.2.cr = info.cr
    rw [hpalette]

end Writes

/-! ## The picture -/

section Picture

/-- The address in the base registers. -/
def baseOf (cr : Regs) : Nat := (cr .base).toNat + 2 ^ 32 * (cr .baseHigh).toNat

/-- The bytes of a pixel. The register has the logarithm of its bits, counted from 5 down. -/
def pixelBytes (cr : Regs) : Nat := 2 ^ (5 - (cr .depth).toNat) / 8

/-- All bytes that the controller reads lie in the memory at `smem`. -/
def ReadsInMemory (smem : Nat) (cr : Regs) : Prop :=
  cr .enable ≠ 0 → ∀ y < (cr .fbHeight).toNat, ∀ x < (cr .fbWidth).toNat * pixelBytes cr,
    smem ≤ baseOf cr + y * (cr .fbBpl).toNat + x ∧
      baseOf cr + y * (cr .fbBpl).toNat + x < smem + videomemSize.toNat

/-- The registers describe the picture of a mode. -/
structure Shows (mode : Var) (cr : Regs) : Prop where
  enable : cr .enable = 1
  width : cr .fbWidth = mode.xres
  height : cr .fbHeight = mode.yres
  bpl : (cr .fbBpl).toNat = stride mode
  depth : pixelBytes cr = mode.bitsPerPixel.toNat / 8

variable {u : Undefined} {smem : Nat} {cr : Regs} {mode : Var}

theorem readsInMemory_of_off (h : cr .enable = 0) : ReadsInMemory smem cr := fun hon =>
  absurd h hon

/-- **The picture of a mode is read in the memory iff its first and its last byte are.** -/
theorem Shows.readsInMemory_iff (h : Shows mode cr)
    (hx : 0 < mode.xres.toNat * (mode.bitsPerPixel.toNat / 8)) (hy : 0 < mode.yres.toNat) :
    ReadsInMemory smem cr ↔
      smem ≤ baseOf cr ∧ baseOf cr + pictureBytes mode ≤ smem + videomemSize.toNat := by
  have hon : cr .enable ≠ 0 := by
    rw [h.enable]
    decide
  unfold ReadsInMemory pictureBytes
  rw [h.width, h.height, h.bpl, h.depth]
  constructor
  · intro hreads
    have hfirst := hreads hon 0 hy 0 hx
    have hlast := hreads hon (mode.yres.toNat - 1) (by omega) _ (Nat.sub_one_lt_of_lt hx)
    omega
  · rintro ⟨hfirst, hlast⟩ - y hy x hx
    have hline := Nat.mul_le_mul_right (stride mode) (Nat.le_sub_one_of_lt hy)
    omega

/-- What `iris_set_par` writes shows the mode. -/
theorem shows_setPar (u : Undefined) (cr : Regs)
    (hbits : mode.bitsPerPixel = 8 ∨ mode.bitsPerPixel = 16 ∨ mode.bitsPerPixel = 32)
    (hline : stride mode < 2 ^ 32) : Shows mode (write (setParWrites u mode) cr) := by
  obtain ⟨k, hk⟩ := exists_depth_eq hbits
  have hbpl : (shl u mode.xresVirtual ((ilog2 mode.bitsPerPixel).value - 3)).value.toNat * 8 =
      mode.xresVirtual.toNat * mode.bitsPerPixel.toNat % 2 ^ 35 :=
    @lineLength_mul_eight .rv64 u (.ofVar mode) k hk
  rw [← stride_mul_eight hk, Nat.mod_eq_of_lt (by omega)] at hbpl
  exact {
    enable := rfl
    width := rfl
    height := rfl
    bpl := Nat.eq_of_mul_eq_mul_right (by decide) hbpl
    depth := by
      show 2 ^ (5 - (BitVec.ofInt 32 (5 - (ilog2 mode.bitsPerPixel).value)).toNat) / 8 = _
      rcases hbits with h | h | h
      all_goals
        rw [h]
        decide }

/-- While a mode is installed, the controller is off until the last write. -/
theorem setPar_passed (u : Undefined) (smem : Nat) (mode : Var) (cr : Regs) :
    ∀ cr' ∈ passed (setParWrites u mode) cr,
      ReadsInMemory smem cr' ∨ cr' = write (setParWrites u mode) cr := by
  intro cr' h
  simp only [setParWrites, passed, List.mem_cons, List.not_mem_nil, or_false] at h
  rcases h with h | h | h | h | h | h
  case inr.inr.inr.inr.inr => exact .inr h
  all_goals
    subst h
    exact .inl (readsInMemory_of_off rfl)

/-- An installed mode is read from the place where the old one was. -/
theorem write_setPar_base (u : Undefined) (mode : Var) (cr : Regs) :
    baseOf (write (setParWrites u mode) cr) = baseOf cr := rfl

end Picture

/-! ## Panning -/

section Panning

/-- A mode is installed. -/
structure Installed (info : Info .rv64) : Prop where
  bits : info.var.bitsPerPixel = 8 ∨ info.var.bitsPerPixel = 16 ∨ info.var.bitsPerPixel = 32
  visible : ¬ (info.var.xres = 0 ∨ info.var.yres = 0)
  fits : Fits info.var
  lineLength : info.lineLength.toNat = stride info.var
  shows : Shows info.var info.cr

variable {u : Undefined} {info : Info .rv64} {pan : Var}

theorem Installed.readsInMemory_iff (h : Installed info) {cr : Regs} {smem : Nat}
    (hshows : Shows info.var cr) :
    ReadsInMemory smem cr ↔
      smem ≤ baseOf cr ∧ baseOf cr + pictureBytes info.var ≤ smem + videomemSize.toNat := by
  obtain ⟨k, hk⟩ := exists_depth_eq h.bits
  obtain ⟨hx, hy⟩ := picture_pos hk h.visible
  exact hshows.readsInMemory_iff hx hy

theorem Installed.pictureBytes_pos (h : Installed info) : 0 < pictureBytes info.var := by
  obtain ⟨k, hk⟩ := exists_depth_eq h.bits
  exact (picture_pos hk h.visible).1.trans_le (Nat.le_add_left _ _)

/-- The picture does not depend on the base registers. -/
theorem Shows.update_base {mode : Var} {cr : Regs} (h : Shows mode cr) (low : BitVec 32) :
    Shows mode (Function.update cr .base low) :=
  ⟨h.enable, h.width, h.height, h.bpl, h.depth⟩

theorem Shows.panned {mode : Var} {cr : Regs} (h : Shows mode cr) (u : Undefined) (pan : Var)
    (info : Info .rv64) : Shows mode (write (panWrites u pan info) cr) :=
  ⟨h.enable, h.width, h.height, h.bpl, h.depth⟩

/-- The depth of the caller, if its shift is defined. -/
theorem two_pow_three_le_of_defined (h : (irisPanDisplay u pan info).All Op.Defined) :
    2 ^ 3 ≤ pan.bitsPerPixel.toNat := by
  unfold irisPanDisplay at h
  rw [Traced.all_bind, Traced.all_bind, Traced.all_bind, Traced.all_bind, all_shl, all_shl] at h
  obtain ⟨-, -, -, hshift, -⟩ := h
  by_contra hlt
  have hfls := fls_le_iff.mpr (Nat.lt_of_not_le hlt)
  have hcount := hshift.1
  rw [ilog2_value] at hcount
  omega

/-- **A pan is read in the memory iff its offset, with the bits that the sum loses, leaves room for
the picture.** -/
theorem Installed.pan_readsInMemory_iff (h : Installed info) (hpan : CoreAccepts pan info)
    (hdepth : 2 ^ 3 ≤ pan.bitsPerPixel.toNat) :
    ReadsInMemory info.smemStart.toNat (write (panWrites u pan info) info.cr) ↔
      (lineOffset info.var pan + pixelOffset pan) % 2 ^ 32 + pictureBytes info.var ≤
        videomemSize.toNat := by
  obtain ⟨k, hk⟩ := exists_depth_eq h.bits
  obtain ⟨hx, hy⟩ := picture_pos hk h.visible
  have hstride := hx.trans_le (xres_mul_le_stride h.fits)
  have hroom := lineOffset_add_pictureBytes_le h.fits hpan hk hy hstride
  have hsize : videomemSize.toNat = 0x400000 := rfl
  have hbase : baseOf (write (panWrites u pan info) info.cr) = (panMem u pan info).toNat :=
    irisPanDisplay_base_eq
  have hsmem : info.smemStart.toNat + videomemSize.toNat ≤ 2 ^ 64 := info.smem_fits
  have hpos := h.pictureBytes_pos
  rw [h.readsInMemory_iff (h.shows.panned u pan info), hbase, panMem_toNat,
    panOffset_toNat u h.lineLength hstride (by omega) hdepth]
  omega

/-- Between the two writes of a pan the picture is in the memory, if it is there before and
behind them: the memory does not cross a multiple of 2^32. -/
theorem Installed.pan_passed (h : Installed info) (haligned : 2 ^ 22 ∣ info.smemStart.toNat)
    (hbefore : ReadsInMemory info.smemStart.toNat info.cr)
    (hbehind : ReadsInMemory info.smemStart.toNat (write (panWrites u pan info) info.cr)) :
    ∀ cr ∈ passed (panWrites u pan info) info.cr, ReadsInMemory info.smemStart.toNat cr := by
  intro cr hcr
  simp only [panWrites, passed, List.mem_cons, List.not_mem_nil, or_false] at hcr
  rcases hcr with rfl | rfl
  · have hpos := h.pictureBytes_pos
    have hsize : videomemSize.toNat = 0x400000 := rfl
    obtain ⟨n, hn⟩ := haligned
    rw [h.readsInMemory_iff h.shows] at hbefore
    rw [h.readsInMemory_iff (h.shows.panned u pan info)] at hbehind
    rw [h.readsInMemory_iff (h.shows.update_base _)]
    have hlow := ((panMem u pan info).setWidth 32).isLt
    have hlow' := (info.cr .base).isLt
    unfold baseOf at *
    simp only [write, panWrites, List.foldl_cons, List.foldl_nil, Function.update_self,
      Function.update_of_ne, ne_eq, reduceCtorEq, not_false_eq_true] at *
    omega
  · exact hbehind

/-- A pan leaves the mode installed. -/
theorem Installed.panned {core : Core u .rv64} (h : Installed info) :
    Installed ((Call.panDisplay pan).run core info).value := by
  obtain ⟨x, y, hpanned⟩ := core.panned_eq pan info.var
  have hshows := h.shows.panned u pan info
  rw [Call.run_panDisplay, hpanned]
  exact ⟨h.bits, h.visible, h.fits, h.lineLength,
    ⟨hshows.enable, hshows.width, hshows.height, hshows.bpl, hshows.depth⟩⟩

/-- **The picture stays in the memory during a pan iff the offset leaves room for it.** -/
theorem Installed.pan_passed_iff (h : Installed info) (haligned : 2 ^ 22 ∣ info.smemStart.toNat)
    (hnow : ReadsInMemory info.smemStart.toNat info.cr) (hpan : CoreAccepts pan info)
    (hdepth : 2 ^ 3 ≤ pan.bitsPerPixel.toNat) :
    (∀ cr ∈ passed (panWrites u pan info) info.cr, ReadsInMemory info.smemStart.toNat cr) ↔
      (lineOffset info.var pan + pixelOffset pan) % 2 ^ 32 + pictureBytes info.var ≤
        videomemSize.toNat := by
  rw [← h.pan_readsInMemory_iff (u := u) hpan hdepth]
  exact ⟨fun hpassed => hpassed _ (write_mem_passed (List.cons_ne_nil _ _) _),
    h.pan_passed haligned hnow⟩

end Panning

/-! ## Modes -/

section Modes

/-- Lines of a power of two of bytes fit whole if the last one fits in part. -/
theorem lines_le {n x i j : Nat} (hx : 0 < x) (h : (n - 1) * 2 ^ i + x ≤ 2 ^ j)
    (hone : n = 1 → 2 ^ i ≤ 2 ^ j) : n * 2 ^ i ≤ 2 ^ j := by
  rcases Nat.lt_or_ge j i with hij | hij
  · -- At most one line.
    have hlt : 2 ^ j < 2 ^ i := Nat.pow_lt_pow_right Nat.one_lt_two hij
    rcases Nat.lt_or_ge 1 n with hn | hn
    · have hle := Nat.le_mul_of_pos_left (2 ^ i) (show 0 < n - 1 by omega)
      omega
    · rcases Nat.eq_zero_or_pos n with hzero | hpos
      · rw [hzero, Nat.zero_mul]
        exact Nat.zero_le _
      · exact absurd (hone (by omega)) (by omega)
  · have hpow : 2 ^ j = 2 ^ (j - i) * 2 ^ i := by rw [← pow_add, Nat.sub_add_cancel hij]
    have hlt : n - 1 < 2 ^ (j - i) := by
      refine Nat.lt_of_mul_lt_mul_right (a := 2 ^ i) ?_
      omega
    rw [hpow]
    exact Nat.mul_le_mul_right _ (by omega)

variable {u : Undefined} {info : Info .rv64} {request left : Var}

theorem pixelFormat_bits {depth : BitVec 32} {format : PixelFormat}
    (h : pixelFormat depth = some format) :
    format.bitsPerPixel = 4 ∨ format.bitsPerPixel = 8 ∨ format.bitsPerPixel = 16 ∨
      format.bitsPerPixel = 32 := by
  unfold pixelFormat at h
  split_ifs at h
  all_goals
    cases h
    decide

/-- What a mode is like that is accepted and installed without doing what C does not define. -/
structure Usable (mode : Var) : Prop where
  bits : mode.bitsPerPixel = 8 ∨ mode.bitsPerPixel = 16 ∨ mode.bitsPerPixel = 32
  visible : ¬ (mode.xres = 0 ∨ mode.yres = 0)
  xoffset : mode.xoffset = 0
  yoffset : mode.yoffset = 0
  stride_lt : stride mode < 2 ^ 32
  fits_of_picture : pictureBytes mode ≤ videomemSize.toNat → Fits mode

theorem usable_of_accepts (hcheck : (irisCheckVar u request).All Op.Defined)
    (haccepts : Accepts u request left)
    (hset : (irisSetPar u (info.withVar left)).All Op.Defined) : Usable left := by
  obtain ⟨hmany, format, hformat, rfl⟩ := accepts_iff.mp haccepts
  obtain ⟨-, -, hshifts, hfinish⟩ := all_irisCheckVar.mp hcheck
  obtain ⟨hwide, -, hxres, hyres⟩ := all_finishVar.mp (hfinish hmany format hformat)
  obtain ⟨-, hset⟩ := all_irisSetPar.mp hset
  have hdepth := (pixelFormat_depth hformat).1
  have hbits : format.bitsPerPixel = 8 ∨ format.bitsPerPixel = 16 ∨ format.bitsPerPixel = 32 := by
    refine (pixelFormat_bits hformat).resolve_left fun hfour => ?_
    have hcount : 0 ≤ (ilog2 format.bitsPerPixel).value - 3 := hset.1
    rw [hfour, log2_four] at hcount
    exact absurd hcount (by decide)
  have hclog := shifts_log2xres_iff.mp hwide
  obtain ⟨k, hk⟩ : ∃ k, (accepted u request format).bitsPerPixel.toNat = 2 ^ (k + 3) :=
    exists_depth_eq hbits
  have hline : stride (accepted u request format) = 2 ^ (log2bpl request).toNat := by
    have hpixels := stride_mul_eight hk
    rw [toNat_accepted_xresVirtual hclog, accepted_bitsPerPixel, ← lineBits_eq hformat,
      ← two_pow_log2bpl hdepth hshifts.1] at hpixels
    exact Nat.eq_of_mul_eq_mul_right (by decide) hpixels
  have hvisible : ¬ ((accepted u request format).xres = 0 ∨ (accepted u request format).yres = 0) :=
    not_or.mpr ⟨hxres, hyres⟩
  refine ⟨hbits, hvisible, rfl, rfl, ?_, fun hpicture => ?_⟩
  · rw [hline]
    exact Nat.pow_lt_pow_right Nat.one_lt_two (by have hlt := hshifts.2; omega)
  · refine (fits_accepted_iff hformat hshifts).mpr
      ⟨accepted_xres_le (clog_width_lt_iff.mp hclog), ?_⟩
    obtain ⟨hx, hy⟩ := @picture_pos .rv64 (.ofVar (accepted u request format)) k hk hvisible
    have hyres : (accepted u request format).yres.toNat = min request.yres.toNat 480 :=
      toNat_accepted_yres
    have hsize : videomemSize.toNat = 2 ^ 22 := rfl
    unfold pictureBytes at hpicture
    rw [hline, hsize] at hpicture
    have hlines := lines_le hx hpicture fun hone => by
      -- A single line is what the test for enough memory has seen.
      have hrequest : request.yres.toNat = 1 := by omega
      have hword := ((shifts_log2bpl_iff hdepth).mp hshifts).2
      rw [lt_shl_yres_iff hdepth hshifts, hrequest, Nat.one_mul, Nat.mod_eq_of_lt hword,
        ← two_pow_log2bpl hdepth hshifts.1] at hmany
      omega
    rw [hyres] at hlines
    rw [← two_pow_log2bpl hdepth hshifts.1, ← mul_assoc, hsize]
    exact Nat.mul_le_mul_right 8 hlines

/-- A usable mode that fits, once it is installed. -/
theorem Usable.installed (u : Undefined) (h : Usable info.var) (hfits : Fits info.var) :
    Installed (irisSetPar u info).value := by
  obtain ⟨k, hk⟩ := exists_depth_eq h.bits
  have hline := lineLength_eq_stride u hfits hk (picture_pos hk h.visible).2
  refine ⟨?_, ?_, ?_, ?_, ?_⟩
  all_goals rw [irisSetPar_var]
  · exact h.bits
  · exact h.visible
  · exact hfits
  · exact hline
  · rw [irisSetPar_cr]
    exact shows_setPar u _ h.bits h.stride_lt

theorem Usable.coreAccepts (h : Usable left) (info : Info .rv64) : CoreAccepts left info := by
  refine ⟨?_, ?_, ?_⟩
  · rw [h.yoffset]
    exact BitVec.le_def.mpr (Nat.zero_le _)
  · rw [h.xoffset]
    exact BitVec.le_def.mpr (Nat.zero_le _)
  · rw [h.xoffset]
    exact dvd_zero 8

end Modes

/-! ## Runs -/

section Runs

/-- The device, with the registers as they have been since the last call began. -/
structure Device where
  info : Info .rv64
  seen : List Regs

/-- The address of the video memory. -/
def Device.smem (d : Device) : Nat := d.info.smemStart.toNat

/-- A call of the core that does nothing that C does not define. -/
structure Step {u : Undefined} (core : Core u .rv64) (d : Device) (c : Call) (d' : Device) :
    Prop where
  makes : core.Makes d.info c
  defined : (c.run core d.info).All Op.Defined
  info : d'.info = (c.run core d.info).value
  seen : d'.seen = d.info.cr :: passed (c.writes u d.info) d.info.cr

/-- The device after a call. -/
def Device.after {u : Undefined} (core : Core u .rv64) (d : Device) (c : Call) : Device where
  info := (c.run core d.info).value
  seen := d.info.cr :: passed (c.writes u d.info) d.info.cr

variable (u : Undefined)

/-- `iris_probe` has returned. Its block of memory is aligned to its size, and the controller was
off before. -/
structure Probed (d : Device) : Prop where
  probe : ∃ info : Info .rv64, info.cr .enable = 0 ∧ 2 ^ 22 ∣ info.smemStart.toNat ∧
    d.info = (irisProbe u info).value ∧ d.seen = info.cr :: passed (probeWrites u info) info.cr

/-- All that the controller has read since the last call began lies in the video memory. -/
def ReadsMemory (d : Device) : Prop := ∀ cr ∈ d.seen, ReadsInMemory d.smem cr

/-- The picture has room: that of a new mode at the place of the old one, and that of the mode at the
offset of a pan. -/
def Room (d : Device) : Call → Prop
  | .setVar request =>
    baseOf d.info.cr + pictureBytes (irisCheckVar u request).value.2 ≤ d.smem + videomemSize.toNat
  | .panDisplay pan =>
    (lineOffset d.info.var pan + pixelOffset pan) % 2 ^ 32 + pictureBytes d.info.var ≤
      videomemSize.toNat
  | .checkVar _ | .setcolreg .. => True

structure Inv (d : Device) : Prop where
  aligned : 2 ^ 22 ∣ d.smem
  installed : Installed d.info
  now : ReadsInMemory d.smem d.info.cr
  seen : ReadsMemory d

variable {u} {core : Core u .rv64} {d d' : Device} {request pan : Var} {info : Info .rv64}

/-- A mode that is accepted in a call that does nothing undefined. -/
theorem setVar_usable (h : ((Call.setVar request).run core info).All Op.Defined)
    (haccepted : (irisCheckVar u request).value.1 = 0) :
    Usable (irisCheckVar u request).value.2 := by
  unfold Call.run at h
  rw [Traced.all_bind] at h
  exact usable_of_accepts h.1 (Prod.ext haccepted rfl) h.2

theorem Inv.smem_le (h : Inv d) : d.smem ≤ baseOf d.info.cr :=
  ((h.installed.readsInMemory_iff h.installed.shows).mp h.now).1

/-- **Setting a mode**: the picture stays in the memory iff the new one has room at the place of the
old one. -/
theorem Inv.setPar_passed_iff (h : Inv d) {mode : Var} (husable : Usable mode) :
    (∀ cr ∈ passed (setParWrites u mode) d.info.cr, ReadsInMemory d.smem cr) ↔
      baseOf d.info.cr + pictureBytes mode ≤ d.smem + videomemSize.toNat := by
  obtain ⟨k, hk⟩ := exists_depth_eq husable.bits
  obtain ⟨hx, hy⟩ := @picture_pos .rv64 (.ofVar mode) k hk husable.visible
  have hshows := shows_setPar u d.info.cr husable.bits husable.stride_lt
  have hnew : ReadsInMemory d.smem (write (setParWrites u mode) d.info.cr) ↔
      baseOf d.info.cr + pictureBytes mode ≤ d.smem + videomemSize.toNat := by
    rw [hshows.readsInMemory_iff hx hy, write_setPar_base, and_iff_right h.smem_le]
  rw [← hnew]
  constructor
  · exact fun hset => hset _ (write_mem_passed (List.cons_ne_nil _ _) _)
  · intro hread cr hcr
    rcases setPar_passed u d.smem mode d.info.cr cr hcr with hoff | rfl
    · exact hoff
    · exact hread

/-- **A call keeps the picture in the memory iff the picture has room.** -/
theorem Inv.passed_iff (h : Inv d) {c : Call} (hmakes : core.Makes d.info c)
    (hdefined : (c.run core d.info).All Op.Defined) :
    (∀ cr ∈ passed (c.writes u d.info) d.info.cr, ReadsInMemory d.smem cr) ↔ Room u d c := by
  cases c with
  | checkVar request => exact iff_of_true (fun _ hcr => nomatch hcr) trivial
  | setVar request =>
    exact h.setPar_passed_iff (setVar_usable hdefined (core.checked _ _ hmakes))
  | panDisplay pan =>
    have hdepth : 2 ^ 3 ≤ pan.bitsPerPixel.toNat := by
      unfold Call.run at hdefined
      rw [Traced.all_bind] at hdefined
      exact two_pow_three_le_of_defined hdefined.1
    exact h.installed.pan_passed_iff h.aligned h.now (core.accepts _ _ hmakes) hdepth
  | setcolreg regno red green blue transp =>
    exact iff_of_true (fun _ hcr => nomatch hcr) trivial

theorem Call.run_smemStart (c : Call) : (c.run core info).value.smemStart = info.smemStart := by
  cases c with
  | checkVar request => rfl
  | setVar request => rfl
  | panDisplay pan => rfl
  | setcolreg regno red green blue transp =>
    obtain ⟨palette, hpalette⟩ :=
      irisSetcolreg_value u info regno red green blue transp
    show (irisSetcolreg u regno red green blue transp info).value.2.smemStart = _
    rw [hpalette]

/-- A call leaves a mode installed. -/
theorem Inv.run_installed (h : Inv d) {c : Call} (hmakes : core.Makes d.info c)
    (hdefined : (c.run core d.info).All Op.Defined) (hroom : Room u d c) :
    Installed (c.run core d.info).value := by
  cases c with
  | checkVar request => exact h.installed
  | setVar request =>
    have husable := setVar_usable hdefined (core.checked _ _ hmakes)
    have hsmem := h.smem_le
    have hplace : baseOf d.info.cr + pictureBytes (irisCheckVar u request).value.2 ≤
        d.smem + videomemSize.toNat := hroom
    rw [Call.run_setVar]
    generalize (irisCheckVar u request).value.2 = mode at husable hplace ⊢
    have hfits : Fits mode := husable.fits_of_picture (by omega)
    have hvar : (d.info.withVar mode).var = mode := rfl
    rw [← hvar] at husable hfits
    exact husable.installed u hfits
  | panDisplay pan => exact h.installed.panned
  | setcolreg regno red green blue transp =>
    obtain ⟨palette, hpalette⟩ :=
      irisSetcolreg_value u d.info regno red green blue transp
    show Installed (irisSetcolreg u regno red green blue transp d.info).value.2
    rw [hpalette]
    exact ⟨h.installed.bits, h.installed.visible, h.installed.fits, h.installed.lineLength,
      h.installed.shows⟩

theorem Step.smem_eq {c : Call} (hs : Step core d c d') : d'.smem = d.smem := by
  unfold Device.smem
  rw [hs.info, Call.run_smemStart]

/-- **What each call keeps.** -/
theorem Inv.step {c : Call} (h : Inv d) (hroom : Room u d c) (hs : Step core d c d') : Inv d' := by
  have hpassed := (h.passed_iff hs.makes hs.defined).mpr hroom
  refine ⟨?_, ?_, ?_, ?_⟩
  · rw [hs.smem_eq]
    exact h.aligned
  · rw [hs.info]
    exact h.run_installed hs.makes hs.defined hroom
  · rw [hs.smem_eq, hs.info, Call.run_cr]
    exact write_of_passed h.now hpassed
  · unfold ReadsMemory
    rw [hs.smem_eq, hs.seen, List.forall_mem_cons]
    exact ⟨h.now, hpassed⟩

theorem Inv.room {c : Call} (h : Inv d) (hs : Step core d c d') (hreads : ReadsMemory d') :
    Room u d c := by
  unfold ReadsMemory at hreads
  rw [hs.smem_eq, hs.seen, List.forall_mem_cons] at hreads
  exact (h.passed_iff hs.makes hs.defined).mp hreads.2

/-! ### The start -/

/-- The mode that `iris_probe` asks for is accepted and fits. -/
theorem probe_usable (u : Undefined) :
    Usable (irisCheckVar u probeVar).value.2 ∧ Fits (irisCheckVar u probeVar).value.2 := by
  have hdepth : depthOf probeVar ≠ 0 := by decide
  have hshifts : Shifts (log2bpl probeVar) := (shifts_log2bpl_iff hdepth).mpr (by decide)
  have hwide : Shifts (log2xres probeVar) := shifts_log2xres_iff.mpr (by decide)
  obtain ⟨format, hformat⟩ : ∃ format, pixelFormat (depthOf probeVar) = some format := ⟨_, rfl⟩
  have haccepts : Accepts u probeVar (irisCheckVar u probeVar).value.2 := Prod.ext rfl rfl
  have hcheck : (irisCheckVar u probeVar).All Op.Defined :=
    all_irisCheckVar.mpr ⟨trivial, trivial, hshifts, fun _ _ _ => all_finishVar.mpr
      ⟨hwide, hshifts, clamp_xres_ne_zero_iff.mpr (by decide),
        clamp_yres_ne_zero_iff.mpr (by decide)⟩⟩
  have hset : (irisSetPar u ((Info.ofVar probeVar : Info .rv64).withVar
      (irisCheckVar u probeVar).value.2)).All Op.Defined :=
    all_irisSetPar.mpr ⟨trivial, show Shifts ((ilog2 16).value - 3) by decide⟩
  refine ⟨usable_of_accepts hcheck haccepts hset, ?_⟩
  obtain ⟨-, hleft⟩ := (accepts_format_iff hformat).mp haccepts
  rw [← hleft]
  exact (fits_accepted_iff hformat hshifts).mpr
    ⟨accepted_xres_le (clog_width_lt_iff.mp (shifts_log2xres_iff.mp hwide)), by decide⟩

/-- A picture that fits. -/
theorem pictureBytes_le {mode : Var} (husable : Usable mode) (hfits : Fits mode) :
    pictureBytes mode ≤ videomemSize.toNat := by
  obtain ⟨k, hk⟩ := exists_depth_eq husable.bits
  obtain ⟨hx, hy⟩ := @picture_pos .rv64 (.ofVar mode) k hk husable.visible
  have hroom := @lineOffset_add_pictureBytes_le .rv64 (.ofVar mode) mode k hfits
    (husable.coreAccepts _) hk hy (hx.trans_le (xres_mul_le_stride hfits))
  exact (Nat.le_add_left _ _).trans hroom

theorem probeBase_base (u : Undefined) (info : Info .rv64) :
    baseOf (write (probeBase u info) info.cr) = info.smemStart.toNat := by
  have hlow : ((info.smemStart.setWidth 32).toNat) = info.smemStart.toNat % 2 ^ 32 :=
    BitVec.toNat_setWidth _ _
  have hhigh : ((info.smemStart >>> 32).setWidth 32).toNat =
      info.smemStart.toNat / 2 ^ 32 % 2 ^ 32 := by
    rw [BitVec.toNat_setWidth, BitVec.toNat_ushiftRight, Nat.shiftRight_eq_div_pow]
  have hlt : info.smemStart.toNat < 2 ^ 64 := info.smemStart.isLt
  show (info.smemStart.setWidth 32).toNat + 2 ^ 32 * ((info.smemStart >>> 32).setWidth 32).toNat = _
  omega

theorem Probed.inv (h : Probed u d) : Inv d := by
  obtain ⟨info, hoff, haligned, hinfo, hseen⟩ := h.probe
  obtain ⟨husable, hfits⟩ := probe_usable u
  have hsmem : d.smem = info.smemStart.toNat := by
    unfold Device.smem
    rw [hinfo, irisProbe_value, irisSetPar_smemStart]
    rfl
  have hcr : d.info.cr = write (setParWrites u (irisCheckVar u probeVar).value.2)
      (write (probeBase u info) info.cr) := by
    rw [hinfo, irisProbe_cr, probeWrites, write_append]
  have hinstalled : Installed d.info := by
    rw [hinfo, irisProbe_value]
    exact Usable.installed u husable hfits
  have hnow : ReadsInMemory d.smem d.info.cr := by
    have hshows := shows_setPar u (write (probeBase u info) info.cr) husable.bits husable.stride_lt
    obtain ⟨k, hk⟩ := exists_depth_eq husable.bits
    obtain ⟨hx, hy⟩ := @picture_pos .rv64 (.ofVar _) k hk husable.visible
    have hroom := pictureBytes_le husable hfits
    rw [hcr, hshows.readsInMemory_iff hx hy, write_setPar_base, probeBase_base, hsmem]
    omega
  refine ⟨hsmem ▸ haligned, hinstalled, hnow, ?_⟩
  unfold ReadsMemory
  rw [hseen, List.forall_mem_cons, probeWrites, passed_append, List.forall_mem_append]
  refine ⟨readsInMemory_of_off hoff, fun cr hcr' => ?_, fun cr hcr' => ?_⟩
  · simp only [probeBase, passed, List.mem_cons, List.not_mem_nil, or_false] at hcr'
    rcases hcr' with rfl | rfl
    · exact readsInMemory_of_off hoff
    · exact readsInMemory_of_off hoff
  · rcases setPar_passed u d.smem _ _ cr hcr' with hread | rfl
    · exact hread
    · exact hcr ▸ hnow

/-- **The controller always reads in the video memory**, after every single write of every call, iff
each picture has room. -/
theorem scanout_iff {run : List (Call × Device)} (hstart : Probed u d)
    (hrun : IsRun (Step core) d run) : Always ReadsMemory d run ↔ Meets (Room u) d run :=
  hrun.always_iff_meets (fun _ h => h.seen) (fun _ _ _ h hroom hs => h.step hroom hs)
    (fun _ _ _ h hs hreads => h.room hs hreads) hstart.inv

/-- A core that makes every call it may make. -/
def plainCore (u : Undefined) : Core u .rv64 where
  Makes info
    | .setVar request => (irisCheckVar u request).value.1 = 0
    | .panDisplay pan => CoreAccepts pan info
    | .checkVar _ | .setcolreg .. => True
  checked _ _ h := h
  accepts _ _ h := h
  panned pan mode := { mode with xoffset := pan.xoffset, yoffset := pan.yoffset }
  panned_eq _ _ := ⟨_, _, rfl⟩

/-- The picture of `iris_probe` is panned to its last line, and a mode with 32 bits per pixel is set
and panned back. In between it is read from behind the memory. -/
theorem scanout_iff_deeper :
    let low : Var := { probeVar with yoffset := 3616 }
    let deep : Var := { probeVar with bitsPerPixel := 32 }
    ∃ d run, Probed default d ∧ IsRun (Step (plainCore default)) d run ∧
      run.map Prod.fst =
        [.panDisplay low, .setVar deep, .panDisplay (irisCheckVar default deep).value.2] ∧
      Always ReadsMemory d (run.take 1) ∧ ¬ Always ReadsMemory d run := by
  intro low deep
  let core := plainCore default
  let info : Info .rv64 := .ofVar probeVar
  let back := (irisCheckVar default deep).value.2
  let d : Device :=
    ⟨(irisProbe default info).value, info.cr :: passed (probeWrites default info) info.cr⟩
  let d₁ := d.after core (.panDisplay low)
  let d₂ := d₁.after core (.setVar deep)
  have hstart : Probed default d := ⟨info, rfl, by decide, rfl, rfl⟩
  have hlow : CoreAccepts low d.info := by decide
  have hdeep : (irisCheckVar default deep).value.1 = 0 := by decide
  have hback : CoreAccepts back d₂.info := by decide
  have hrun : IsRun (Step core) d [(.panDisplay low, d₁), (.setVar deep, d₂),
      (.panDisplay back, d₂.after core (.panDisplay back))] :=
    ⟨⟨hlow, by decide, rfl, rfl⟩, ⟨hdeep, by decide, rfl, rfl⟩, ⟨hback, by decide, rfl, rfl⟩, trivial⟩
  refine ⟨d, _, hstart, hrun, rfl, ?_, fun hall => ?_⟩
  · have hfirst : IsRun (Step core) d [(.panDisplay low, d₁)] := ⟨hrun.1, trivial⟩
    refine (scanout_iff hstart hfirst).mpr ⟨?_, trivial⟩
    show (lineOffset d.info.var low + pixelOffset low) % 2 ^ 32 + pictureBytes d.info.var ≤
      videomemSize.toNat
    decide
  obtain ⟨-, hset, -⟩ := (scanout_iff hstart hrun).mp hall
  revert hset
  show ¬ (baseOf d₁.info.cr + pictureBytes back ≤ d₁.smem + videomemSize.toNat)
  decide

end Runs

end LowriscLinux.Video
