import LowriscLinux.Video.Iris

/-!
# The modes that the driver accepts

What `iris_check_var` of `Video/Iris.lean` makes of a mode (`arch/riscv/video/fb.c`, lines 73-161).

The test for enough video memory (line 87) shifts the requested `yres` by `log2bpl`, the logarithm
of the length of a line, and is made with 32 bits and before the fields are checked or changed:
`yres` is cut to 480 only in line 151, and the difference of the depths in line 76 is one of
`unsigned int`.

## What models what

* `log2xres` and `log2bpl`: the variables of lines 82-84, as values without a trace.
* `width`, `lineLog` and `lineBits`: what the length of a line is in numbers: a line has a power of
  two of pixels, as many as the larger one of `xres_virtual` and `xres` at least, and `depth` bits
  for each.
* `accepted`: the mode that is left, lines 148-158, where the switch has found a format.
* `Accepts` and `Fits`: an accepted mode, and what it has to be: the visible part lies in the
  virtual one, and that in the video memory.

A request has any values in its fields, as a program passes them.

Results:
* `irisCheckVar_value`: the status and the mode, from the depth and the logarithms.
* `log2xres_eq`, `log2bpl_eq`: the logarithms, from the width and the depth.
* `shl_yres`: the shift is `yres` lines, up to the bits it loses.
* **`checkVar_exact_iff`**: all shifts, logarithms and divisions of `iris_check_var` give the
  mathematical result, iff no operand is out of range.
* **`accepted_fits_iff`**: an accepted mode fits the video memory, whatever the machine makes of
  undefined operations, iff the bits that the shift loses do not matter.
-/

namespace LowriscLinux.Video

open Lib Kernel

/-! ## The quantities of `iris_check_var` -/

/-- `log2xres`. -/
def log2xres (var : Var) : Int := (ilog2 ((widen var).xresVirtual - 1)).value + 1

/-- `log2bpl`. -/
def log2bpl (var : Var) : Int := log2xres var + (ilog2 (depthOf var)).value - 3

/-- The larger one of `xres_virtual` and `xres`, where 0 stands for 2^32. -/
def width (var : Var) : Nat :=
  if max var.xresVirtual.toNat var.xres.toNat = 0 then 2 ^ 32
  else max var.xresVirtual.toNat var.xres.toNat

/-- The logarithm of the bits of a line, which has a power of two of pixels. -/
def lineLog (var : Var) : Nat := Nat.clog 2 (width var) + (depthOf var).toNat.log2

/-- The bits of a line. -/
def lineBits (var : Var) : Nat := 2 ^ lineLog var

/-- The mode that is left where a format is found. -/
def accepted (u : Undefined) (var : Var) (format : PixelFormat) : Var :=
  (finishVar u (log2xres var) (log2bpl var) (format.set (widen var))).value

/-- The mode is accepted, and `left` is what becomes of it. -/
def Accepts (u : Undefined) (var left : Var) : Prop := (irisCheckVar u var).value = (0, left)

/-- The visible part lies in the virtual one, and that in the video memory: with the length of a
line in bits, `yres_virtual` lines have at most the bits of the memory. -/
def Fits (var : Var) : Prop :=
  var.xres.toNat ≤ var.xresVirtual.toNat ∧ var.yres.toNat ≤ var.yresVirtual.toNat ∧
    var.yresVirtual.toNat * (var.xresVirtual.toNat * var.bitsPerPixel.toNat) ≤
      videomemSize.toNat * 8

section Fields

variable {u : Undefined} {var : Var} {format : PixelFormat}

@[simp] theorem widen_yres : (widen var).yres = var.yres := by
  unfold widen
  split <;> rfl

@[simp] theorem widen_xres : (widen var).xres = var.xres := by
  unfold widen
  split <;> rfl

theorem toNat_widen_xresVirtual :
    (widen var).xresVirtual.toNat = max var.xresVirtual.toNat var.xres.toNat := by
  unfold widen
  split
  · next h => exact (max_eq_right (BitVec.lt_def.mp h).le).symm
  · next h => exact (max_eq_left (Nat.not_lt.mp (mt BitVec.lt_def.mpr h))).symm

@[simp] theorem accepted_xresVirtual :
    (accepted u var format).xresVirtual = (shl u 1 (log2xres var)).value := rfl

@[simp] theorem accepted_yresVirtual :
    (accepted u var format).yresVirtual = (shr u videomemSize (log2bpl var)).value := rfl

@[simp] theorem accepted_bitsPerPixel :
    (accepted u var format).bitsPerPixel = format.bitsPerPixel := rfl

theorem toNat_limit (x m : BitVec 32) : (if m < x then m else x).toNat = min x.toNat m.toNat := by
  split
  · next h => exact (min_eq_right (BitVec.lt_def.mp h).le).symm
  · next h => exact (min_eq_left (Nat.not_lt.mp (mt BitVec.lt_def.mpr h))).symm

theorem limit_ne_zero_iff {x m : BitVec 32} (h : m ≠ 0) :
    (if m < x then m else x) ≠ 0 ↔ x ≠ 0 := by
  split
  · next hlt =>
    refine iff_of_true h ?_
    rintro rfl
    exact BitVec.not_lt_zero hlt
  · rfl

theorem clamp_xres_ne_zero_iff : (clamp (format.set (widen var))).xres ≠ 0 ↔ var.xres ≠ 0 := by
  have hxres : (widen var).xres = var.xres := widen_xres
  rw [← hxres]
  exact limit_ne_zero_iff (by decide)

theorem clamp_yres_ne_zero_iff : (clamp (format.set (widen var))).yres ≠ 0 ↔ var.yres ≠ 0 := by
  have hyres : (widen var).yres = var.yres := widen_yres
  rw [← hyres]
  exact limit_ne_zero_iff (by decide)

theorem toNat_accepted_xres : (accepted u var format).xres.toNat = min var.xres.toNat 640 := by
  have hlimit : (accepted u var format).xres =
      if 640 < (widen var).xres then 640 else (widen var).xres := rfl
  rw [hlimit, widen_xres]
  exact toNat_limit var.xres 640

theorem toNat_accepted_yres : (accepted u var format).yres.toNat = min var.yres.toNat 480 := by
  have hlimit : (accepted u var format).yres =
      if 480 < (widen var).yres then 480 else (widen var).yres := rfl
  rw [hlimit, widen_yres]
  exact toNat_limit var.yres 480

/-- **The status and the mode**, from the depth and the logarithms. -/
theorem irisCheckVar_value (u : Undefined) (var : Var) :
    (irisCheckVar u var).value =
      if videomemSize < (shl u var.yres (log2bpl var)).value then (einval, widen var)
      else match pixelFormat (depthOf var) with
        | none => (einval, widen var)
        | some format => (0, accepted u var format) := by
  have hbody : (irisCheckVar u var).value =
      (if videomemSize < (shl u (widen var).yres (log2bpl var)).value then
        (pure (einval, widen var) : Traced Op (BitVec 32 × Var))
      else match pixelFormat (depthOf var) with
        | none => pure (einval, widen var)
        | some format => do
          return (0, ← finishVar u (log2xres var) (log2bpl var) (format.set (widen var)))).value :=
    rfl
  rw [hbody, widen_yres]
  split
  · rfl
  · cases pixelFormat (depthOf var) <;> rfl

end Fields

/-! ## The logarithms -/

section Logs

variable {u : Undefined} {var : Var}

theorem xresVirtual_sub_one (var : Var) :
    ((widen var).xresVirtual - 1).toNat + 1 = width var := by
  have hsub := BitVec.toNat_sub (widen var).xresVirtual 1
  have hlt := (widen var).xresVirtual.isLt
  rw [toNat_widen_xresVirtual] at hsub hlt
  unfold width
  have hone : (1 : BitVec 32).toNat = 1 := rfl
  rw [hsub, hone]
  split <;> omega

theorem xresVirtual_sub_one_eq_zero_iff : (widen var).xresVirtual - 1 = 0 ↔ width var = 1 := by
  have hwidth := xresVirtual_sub_one var
  have hzero : (0 : BitVec 32).toNat = 0 := rfl
  rw [← BitVec.toNat_inj, hzero]
  omega

theorem xres_le_width : var.xres.toNat ≤ width var := by
  have hlt := var.xres.isLt
  unfold width
  split <;> omega

/-- **`log2xres`**: the lines have a power of two of pixels, the least one that is wide enough. -/
theorem log2xres_eq : log2xres var = Nat.clog 2 (width var) := by
  have hfls : fls ((widen var).xresVirtual - 1) = Nat.clog 2 (width var) := by
    refine eq_of_forall_ge_iff fun k => ?_
    rw [fls_le_iff, Nat.clog_le_iff_le_pow Nat.one_lt_two, ← xresVirtual_sub_one]
    exact Nat.lt_iff_add_one_le
  unfold log2xres
  rw [ilog2_value, hfls]
  omega

/-- **`log2bpl`** is the logarithm of the bytes of a line. -/
theorem log2bpl_eq (h : depthOf var ≠ 0) : log2bpl var = lineLog var - 3 := by
  unfold log2bpl lineLog
  rw [log2xres_eq, ilog2_value_of_ne h]
  omega

theorem shifts_log2bpl_iff (h : depthOf var ≠ 0) :
    Shifts (log2bpl var) ↔ 2 ^ 3 ≤ lineBits var ∧ lineBits var < 2 ^ 35 := by
  unfold lineBits Shifts
  rw [log2bpl_eq h, Nat.pow_le_pow_iff_right Nat.one_lt_two, Nat.pow_lt_pow_iff_right Nat.one_lt_two]
  omega

theorem lineBits_pos : 0 < lineBits var := Nat.two_pow_pos _

theorem two_pow_clog_le_lineBits : 2 ^ Nat.clog 2 (width var) ≤ lineBits var :=
  Nat.pow_le_pow_right Nat.two_pos (Nat.le_add_right _ _)

theorem shifts_log2xres_iff : Shifts (log2xres var) ↔ Nat.clog 2 (width var) < 32 := by
  unfold Shifts
  rw [log2xres_eq]
  omega

/-- A line in bytes and in bits. -/
theorem two_pow_log2bpl (h : depthOf var ≠ 0) (hs : 0 ≤ log2bpl var) :
    2 ^ (log2bpl var).toNat * 8 = lineBits var := by
  have hlog : (log2bpl var).toNat + 3 = lineLog var := by
    have heq := log2bpl_eq h
    omega
  rw [show 8 = 2 ^ 3 from rfl, ← pow_add, hlog, lineBits]

/-- **The shift is `yres` lines**, up to the bits it loses. -/
theorem shl_yres (h : depthOf var ≠ 0) (hs : Shifts (log2bpl var)) :
    (shl u var.yres (log2bpl var)).value.toNat * 8 = var.yres.toNat * lineBits var % 2 ^ 35 := by
  rw [shl_toNat hs, ← two_pow_log2bpl h hs.1, ← Nat.mul_mod_mul_right, mul_assoc]
  rfl

/-- The test for enough video memory. -/
theorem lt_shl_yres_iff (h : depthOf var ≠ 0) (hs : Shifts (log2bpl var)) :
    videomemSize < (shl u var.yres (log2bpl var)).value ↔
      videomemSize.toNat * 8 < var.yres.toNat * lineBits var % 2 ^ 35 := by
  rw [← shl_yres (u := u) h hs, BitVec.lt_def]
  omega

end Logs

/-! ## Undefined arithmetic -/

section Exact

variable {u : Undefined} {var : Var}

theorem all_finishVar {P : Op → Prop} {l b : Int} :
    (finishVar u l b var).All P ↔
      P (.shl 1 l) ∧ P (.shr videomemSize b) ∧ P (.div 10000000 (clamp var).xres) ∧
        P (.div ((div u 10000000 (clamp var).xres).value * 1000) (clamp var).yres) := by
  unfold finishVar
  rw [Traced.all_bind, Traced.all_bind, Traced.all_bind, Traced.all_bind, Traced.all_pure, and_true]
  rw [all_shl, all_shr, all_div, all_div]

/-- The operations of `iris_check_var`. -/
theorem all_irisCheckVar {P : Op → Prop} :
    (irisCheckVar u var).All P ↔
      P (.ilog2 (depthOf var)) ∧ P (.ilog2 ((widen var).xresVirtual - 1)) ∧
        P (.shl var.yres (log2bpl var)) ∧
        (¬ videomemSize < (shl u var.yres (log2bpl var)).value →
          ∀ format, pixelFormat (depthOf var) = some format →
            (finishVar u (log2xres var) (log2bpl var) (format.set (widen var))).All P) := by
  have hbody : irisCheckVar u var = (do
      let _ ← ilog2 (depthOf var)
      let _ ← ilog2 ((widen var).xresVirtual - 1)
      if videomemSize < (← shl u (widen var).yres (log2bpl var)) then return (einval, widen var)
      else match pixelFormat (depthOf var) with
        | none => return (einval, widen var)
        | some format =>
          return (0, ← finishVar u (log2xres var) (log2bpl var) (format.set (widen var)))) :=
    rfl
  rw [hbody, widen_yres, Traced.all_bind, Traced.all_bind, Traced.all_bind]
  refine and_congr all_ilog2 (and_congr all_ilog2 (and_congr all_shl ?_))
  split
  · next hfew => exact iff_of_true ((Traced.all_pure _).mpr trivial) fun hmany => absurd hfew hmany
  · next hmany =>
    cases hformat : pixelFormat (depthOf var) with
    | none => exact iff_of_true ((Traced.all_pure _).mpr trivial) fun _ _ hsome => nomatch hsome
    | some format =>
      rw [Traced.all_bind]
      constructor
      · rintro ⟨hfinish, -⟩ - _ ⟨⟩
        exact hfinish
      · intro hfinish
        exact ⟨hfinish hmany format rfl, (Traced.all_pure _).mpr trivial⟩

/-- **The arithmetic of `iris_check_var` is all defined and exact** iff there is a depth, the width
is not 1, a line has whole bytes and less than 2^32 of them, `yres` lines have less than 2^32
bytes, and no resolution is 0 in a mode that gets as far as the clock. -/
theorem checkVar_exact_iff (u : Undefined) (var : Var) :
    (irisCheckVar u var).All Op.Exact ↔
      depthOf var ≠ 0 ∧ width var ≠ 1 ∧ 2 ^ 3 ≤ lineBits var ∧ lineBits var < 2 ^ 35 ∧
        var.yres.toNat * lineBits var < 2 ^ 35 ∧
        (pixelFormat (depthOf var) = none ∨ videomemSize.toNat * 8 < var.yres.toNat * lineBits var ∨
          var.xres ≠ 0 ∧ var.yres ≠ 0) := by
  rw [all_irisCheckVar]
  constructor
  · rintro ⟨hdepth, hwidth, ⟨hshifts, hexact⟩, hfinish⟩
    obtain ⟨hbyte, hword⟩ := (shifts_log2bpl_iff hdepth).mp hshifts
    have hlines : var.yres.toNat * lineBits var < 2 ^ 35 := by
      rw [← two_pow_log2bpl hdepth hshifts.1, ← mul_assoc]
      omega
    refine ⟨hdepth, (not_congr xresVirtual_sub_one_eq_zero_iff).mp hwidth, hbyte, hword, hlines, ?_⟩
    by_contra hclock
    rw [not_or, not_or] at hclock
    obtain ⟨hformat, hmem, hres⟩ := hclock
    obtain ⟨format, hformat⟩ := Option.ne_none_iff_exists'.mp hformat
    have hmany : ¬ videomemSize < (shl u var.yres (log2bpl var)).value := by
      rwa [lt_shl_yres_iff hdepth hshifts, Nat.mod_eq_of_lt hlines]
    obtain ⟨-, -, hxres, hyres⟩ := all_finishVar.mp (hfinish hmany format hformat)
    exact hres ⟨clamp_xres_ne_zero_iff.mp hxres, clamp_yres_ne_zero_iff.mp hyres⟩
  · rintro ⟨hdepth, hwidth, hbyte, hword, hlines, hclock⟩
    have hshifts := (shifts_log2bpl_iff hdepth).mpr ⟨hbyte, hword⟩
    have hexact : var.yres.toNat * 2 ^ (log2bpl var).toNat < 2 ^ 32 := by
      rw [← two_pow_log2bpl hdepth hshifts.1, ← mul_assoc] at hlines
      omega
    refine ⟨hdepth, (not_congr xresVirtual_sub_one_eq_zero_iff).mpr hwidth, ⟨hshifts, hexact⟩, ?_⟩
    intro hmany format hformat
    rw [lt_shl_yres_iff hdepth hshifts, Nat.mod_eq_of_lt hlines] at hmany
    obtain ⟨hxres, hyres⟩ := (hclock.resolve_left (by simp [hformat])).resolve_left hmany
    have hpos : 0 < var.yres.toNat := Nat.pos_of_ne_zero fun hzero =>
      hyres (BitVec.eq_of_toNat_eq hzero)
    have hline : lineBits var ≤ videomemSize.toNat * 8 :=
      (Nat.le_mul_of_pos_left _ hpos).trans (Nat.le_of_not_lt hmany)
    have hpow : 2 ^ Nat.clog 2 (width var) < 2 ^ 32 :=
      (two_pow_clog_le_lineBits.trans hline).trans_lt (by decide)
    have hxresVirtual : Op.Exact (.shl 1 (log2xres var)) := by
      refine ⟨shifts_log2xres_iff.mpr ((Nat.pow_lt_pow_iff_right Nat.one_lt_two).mp hpow), ?_⟩
      rw [log2xres_eq, Int.toNat_natCast]
      exact (Nat.one_mul _).trans_lt hpow
    exact all_finishVar.mpr ⟨hxresVirtual, hshifts, clamp_xres_ne_zero_iff.mpr hxres,
      clamp_yres_ne_zero_iff.mpr hyres⟩

/-- A mode that is 0 pixels wide gets as far as the division by its width. -/
theorem not_checkVar_exact : ¬ ∀ u var, (irisCheckVar u var).All Op.Exact := by
  intro h
  let var : Var := { probeVar with xres := 0, xresVirtual := 640 }
  obtain ⟨-, -, -, hfinish⟩ := all_irisCheckVar.mp (h default var)
  obtain ⟨-, -, hxres, -⟩ := all_finishVar.mp (hfinish (by decide) _ rfl)
  exact clamp_xres_ne_zero_iff.mp hxres rfl

end Exact

/-! ## Modes that fit -/

section Fit

variable {u : Undefined} {var left : Var} {format : PixelFormat}

/-- A depth with a format is a power of two, and the format has it. -/
theorem pixelFormat_depth {depth : BitVec 32} (h : pixelFormat depth = some format) :
    depth ≠ 0 ∧ 2 ^ depth.toNat.log2 = depth.toNat ∧ format.bitsPerPixel = depth := by
  unfold pixelFormat at h
  split_ifs at h with h4 h8 h16 h32
  all_goals
    cases h
    subst depth
    decide

theorem accepts_iff :
    Accepts u var left ↔ ¬ videomemSize < (shl u var.yres (log2bpl var)).value ∧
      ∃ format, pixelFormat (depthOf var) = some format ∧ accepted u var format = left := by
  unfold Accepts
  rw [irisCheckVar_value]
  split
  · next hfew => exact iff_of_false (fun h => nomatch h) fun h => h.1 hfew
  · next hmany =>
    cases hformat : pixelFormat (depthOf var) with
    | none => exact iff_of_false (fun h => nomatch h) fun h => nomatch h.2
    | some format => simp [hmany]

theorem not_accepts (h : pixelFormat (depthOf var) = none) : ¬ Accepts u var left := by
  intro hacc
  obtain ⟨-, format, hformat, -⟩ := accepts_iff.mp hacc
  exact nomatch hformat.symm.trans h

theorem accepts_format_iff (h : pixelFormat (depthOf var) = some format) :
    Accepts u var left ↔ ¬ videomemSize < (shl u var.yres (log2bpl var)).value ∧
      accepted u var format = left := by
  rw [accepts_iff, h]
  simp only [Option.some.injEq, exists_eq_left']

/-- A line, with a format. -/
theorem lineBits_eq (h : pixelFormat (depthOf var) = some format) :
    lineBits var = 2 ^ Nat.clog 2 (width var) * format.bitsPerPixel.toNat := by
  obtain ⟨-, hpow, hbits⟩ := pixelFormat_depth h
  rw [lineBits, lineLog, pow_add, hpow, hbits]

theorem toNat_accepted_xresVirtual (h : Nat.clog 2 (width var) < 32) :
    (accepted u var format).xresVirtual.toNat = 2 ^ Nat.clog 2 (width var) := by
  rw [accepted_xresVirtual, shl_toNat (shifts_log2xres_iff.mpr h), log2xres_eq, Int.toNat_natCast]
  exact (Nat.mod_eq_of_lt ((Nat.one_mul _).trans_lt
    (Nat.pow_lt_pow_right Nat.one_lt_two h))).trans (Nat.one_mul _)

/-- `yres_virtual` is the number of lines in the video memory. -/
theorem toNat_accepted_yresVirtual (h : depthOf var ≠ 0) (hs : Shifts (log2bpl var)) :
    (accepted u var format).yresVirtual.toNat = videomemSize.toNat * 8 / lineBits var := by
  rw [accepted_yresVirtual, shr_toNat hs, ← two_pow_log2bpl h hs.1,
    Nat.mul_div_mul_right _ _ (by decide)]

theorem clog_width_lt_iff : Nat.clog 2 (width var) < 32 ↔ width var ≤ 2 ^ 31 := by
  rw [← Nat.clog_le_iff_le_pow Nat.one_lt_two]
  omega

/-- The lines have room for the visible part, unless the logarithm is that of 2^32. -/
theorem accepted_xres_le (h : width var ≤ 2 ^ 31) :
    (accepted u var format).xres.toNat ≤ (accepted u var format).xresVirtual.toNat := by
  rw [toNat_accepted_xresVirtual (clog_width_lt_iff.mpr h), toNat_accepted_xres]
  exact (min_le_left _ _).trans (xres_le_width.trans (Nat.le_pow_clog Nat.one_lt_two _))

/-- What the virtual lines take, where their number is that of the lines in the memory. -/
theorem accepted_virtual_fits (h : pixelFormat (depthOf var) = some format)
    (hs : Shifts (log2bpl var)) :
    (accepted u var format).yresVirtual.toNat * ((accepted u var format).xresVirtual.toNat *
      (accepted u var format).bitsPerPixel.toNat) ≤ videomemSize.toNat * 8 := by
  rw [toNat_accepted_yresVirtual (pixelFormat_depth h).1 hs, accepted_bitsPerPixel]
  rcases Nat.lt_or_ge (Nat.clog 2 (width var)) 32 with hlt | hge
  · rw [toNat_accepted_xresVirtual hlt, ← lineBits_eq h]
    exact Nat.div_mul_le_self _ _
  · have hline : videomemSize.toNat * 8 < lineBits var :=
      (show _ < 2 ^ 32 by decide).trans_le
        ((Nat.pow_le_pow_right Nat.two_pos hge).trans two_pow_clog_le_lineBits)
    rw [Nat.div_eq_of_lt hline, Nat.zero_mul]
    exact Nat.zero_le _

/-- A mode whose shifts are defined. -/
theorem fits_accepted_iff (h : pixelFormat (depthOf var) = some format)
    (hs : Shifts (log2bpl var)) :
    Fits (accepted u var format) ↔
      (accepted u var format).xres.toNat ≤ (accepted u var format).xresVirtual.toNat ∧
        min var.yres.toNat 480 * lineBits var ≤ videomemSize.toNat * 8 := by
  have hlines : (accepted u var format).yres.toNat ≤ (accepted u var format).yresVirtual.toNat ↔
      min var.yres.toNat 480 * lineBits var ≤ videomemSize.toNat * 8 := by
    rw [toNat_accepted_yres, toNat_accepted_yresVirtual (pixelFormat_depth h).1 hs,
      Nat.le_div_iff_mul_le lineBits_pos]
  unfold Fits
  rw [hlines]
  exact and_congr_right fun _ => and_iff_left (accepted_virtual_fits h hs)

/-- A machine on which a mode is accepted, and does not fit, if the shift that tests it is not
defined. -/
theorem exists_not_fits (h : pixelFormat (depthOf var) = some format)
    (hs : ¬ Shifts (log2bpl var)) : ∃ u left, Accepts u var left ∧ ¬ Fits left := by
  let u : Undefined := ⟨fun _ _ => videomemSize, fun _ _ => -1, fun _ => 0⟩
  refine ⟨u, accepted u var format, (accepts_format_iff h).mpr ⟨?_, rfl⟩, ?_⟩
  · rw [shl_value_undefined hs]
    exact BitVec.lt_irrefl _
  · rintro ⟨-, -, hmem⟩
    rw [accepted_yresVirtual, shr_value_undefined hs, accepted_bitsPerPixel] at hmem
    have hxresVirtual : 0 < (accepted u var format).xresVirtual.toNat := by
      by_cases hlt : Nat.clog 2 (width var) < 32
      · rw [toNat_accepted_xresVirtual hlt]
        exact Nat.two_pow_pos _
      · rw [accepted_xresVirtual, shl_value_undefined (mt shifts_log2xres_iff.mp hlt)]
        exact (show 0 < videomemSize.toNat by decide)
    have hbits : 0 < format.bitsPerPixel.toNat := by
      have hpow := (pixelFormat_depth h).2
      rw [hpow.2, ← hpow.1]
      exact Nat.two_pow_pos _
    have hline := Nat.mul_pos hxresVirtual hbits
    have hall : (-1 : BitVec 32).toNat ≤ videomemSize.toNat * 8 :=
      (Nat.le_mul_of_pos_right _ hline).trans hmem
    exact absurd hall (by decide)

/-- **An accepted mode fits the video memory**, whatever the machine does where C defines nothing,
iff the depth has no format, or a line has whole bytes and less than 2^32 of them, and either the
bytes of `yres` lines, of which the test sees the low 32 bits, are too many, or at most 480 of the
lines fit and the width is at most 2^31 (or nothing is visible). -/
theorem accepted_fits_iff (var : Var) :
    (∀ u left, Accepts u var left → Fits left) ↔
      pixelFormat (depthOf var) = none ∨
        2 ^ 3 ≤ lineBits var ∧ lineBits var < 2 ^ 35 ∧
          (videomemSize.toNat * 8 < var.yres.toNat * lineBits var % 2 ^ 35 ∨
            min var.yres.toNat 480 * lineBits var ≤ videomemSize.toNat * 8 ∧
              (width var ≤ 2 ^ 31 ∨ var.xres = 0)) := by
  cases hformat : pixelFormat (depthOf var) with
  | none => exact iff_of_true (fun u left h => absurd h (not_accepts hformat)) (Or.inl rfl)
  | some format =>
    have hdepth := (pixelFormat_depth hformat).1
    rw [← and_assoc, ← shifts_log2bpl_iff hdepth]
    constructor
    · intro h
      right
      have hs : Shifts (log2bpl var) := by
        by_contra hs
        obtain ⟨u, left, hacc, hfits⟩ := exists_not_fits hformat hs
        exact hfits (h u left hacc)
      refine ⟨hs, or_iff_not_imp_left.mpr fun hmany => ?_⟩
      have hacc : Accepts default var (accepted default var format) := by
        rw [← lt_shl_yres_iff (u := default) hdepth hs] at hmany
        exact (accepts_format_iff hformat).mpr ⟨hmany, rfl⟩
      obtain ⟨hxres, hlines⟩ := (fits_accepted_iff hformat hs).mp (h _ _ hacc)
      refine ⟨hlines, or_iff_not_imp_left.mpr fun hwide => ?_⟩
      have hundef := mt (clog_width_lt_iff.mp ∘ shifts_log2xres_iff.mp) hwide
      rw [toNat_accepted_xres, accepted_xresVirtual, shl_value_undefined hundef] at hxres
      have hzero : min var.xres.toNat 640 ≤ 0 := hxres
      exact BitVec.eq_of_toNat_eq (by simpa using hzero)
    · rintro (hnone | ⟨hs, hcond⟩) u left hacc
      · exact nomatch hnone
      obtain ⟨hmany, rfl⟩ := (accepts_format_iff hformat).mp hacc
      rw [lt_shl_yres_iff hdepth hs] at hmany
      obtain ⟨hlines, hwidth⟩ := hcond.resolve_left hmany
      refine (fits_accepted_iff hformat hs).mpr ⟨?_, hlines⟩
      rcases hwidth with hwidth | hxres
      · exact accepted_xres_le hwidth
      · rw [toNat_accepted_xres, hxres]
        exact (min_le_left _ _).trans (Nat.zero_le _)

/-- The bytes of 262144 lines of 16384 are 2^32, which the test sees as 0: 256 lines fit, and 480
are visible. -/
theorem not_accepted_fits : ¬ ∀ u var left, Accepts u var left → Fits left := by
  intro h
  let var : Var := { probeVar with yres := 262144, xresVirtual := 8192 }
  have hacc : Accepts default var _ := accepts_iff.mpr ⟨by decide, _, rfl, rfl⟩
  exact absurd (h default var _ hacc).2.1 (by decide)

end Fit

end LowriscLinux.Video
