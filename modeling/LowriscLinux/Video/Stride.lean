import LowriscLinux.Video.Mode

/-!
# The length of a line

Three functions of `Video/Iris.lean` compute the length of a line (`arch/riscv/video/fb.c`).

* `iris_check_var` adds logarithms: `log2bpl` is `log2xres + log2depth - 3` (line 84).
* `iris_set_par` shifts `xres_virtual` by the logarithm of the depth minus 3 (lines 171 and 174).
* `iris_pan_display` takes the logarithm of what `iris_set_par` stored (line 199), and shifts
  `xoffset` by that of the caller's depth minus 3 (line 201).

A line of 4-bit pixels is the case where the second one has a negative count, as the logarithm of
the depth is 2. The sum in the first one is in bits, so it has no such case; but its shift of `yres`
is lost where a line has 2^32 bytes.

`Agrees` says that the three are one power of two of bytes, that the register has it too, and that
no count of the shifts is negative.

Results:
* `all_irisSetPar`, `irisPanDisplay_countNonneg_iff`: the operations of the two functions.
* **`agrees_iff`**: the three agree on every accepted mode, iff the depth is not 4 and a line has
  less than 2^32 bytes, or nothing is accepted.
-/

namespace LowriscLinux.Video

open Lib Kernel

variable {w : Xlen} {u : Undefined} {info : Info w}

/-! ## The functions -/

section Functions

variable {P : Op → Prop} {var : Var}

theorem irisSetPar_var : (irisSetPar u info).value.var = info.var := by
  unfold irisSetPar
  simp only [Traced.bind_value, Traced.pure_value, iowrite32_var]

theorem irisSetPar_smemStart : (irisSetPar u info).value.smemStart = info.smemStart := by
  unfold irisSetPar
  simp only [Traced.bind_value, Traced.pure_value, iowrite32_smemStart]

theorem irisSetPar_lineLength :
    (irisSetPar u info).value.lineLength =
      (shl u info.var.xresVirtual ((ilog2 info.var.bitsPerPixel).value - 3)).value := rfl

/-- The controller gets the length that is stored. -/
theorem irisSetPar_fbBpl :
    (irisSetPar u info).value.cr .fbBpl = (irisSetPar u info).value.lineLength := by
  unfold irisSetPar
  simp only [Traced.bind_value, Traced.pure_value, iowrite32_cr, iowrite32_var]
  rfl

/-- The operations of `iris_set_par`. -/
theorem all_irisSetPar :
    (irisSetPar u info).All P ↔
      P (.ilog2 info.var.bitsPerPixel) ∧
        P (.shl info.var.xresVirtual ((ilog2 info.var.bitsPerPixel).value - 3)) := by
  unfold irisSetPar
  rw [Traced.all_bind, Traced.all_bind, Traced.all_bind, all_ilog2, all_shl, all_shl]
  constructor
  · rintro ⟨hlog, hprogrammed, -, -⟩
    exact ⟨hlog, hprogrammed⟩
  · rintro ⟨hlog, hprogrammed⟩
    exact ⟨hlog, hprogrammed, hprogrammed, (Traced.all_pure _).mpr trivial⟩

theorem memHigh_countNonneg (mem : Word w) : (memHigh u w mem).All Op.CountNonneg := by
  cases w with
  | rv64 => exact (Traced.all_pure _).mpr trivial
  | rv32 => exact all_shr.mpr (show (0 : Int) ≤ 32 by decide)

/-- The counts of the shifts in `iris_pan_display`. -/
theorem irisPanDisplay_countNonneg_iff :
    (irisPanDisplay u var info).All Op.CountNonneg ↔
      0 ≤ (ilog2 info.lineLength).value ∧ 0 ≤ (ilog2 var.bitsPerPixel).value - 3 := by
  unfold irisPanDisplay
  rw [Traced.all_bind, Traced.all_bind, Traced.all_bind, Traced.all_bind, Traced.all_bind,
    all_ilog2, all_ilog2, all_shl, all_shl]
  constructor
  · rintro ⟨-, -, hline, hdepth, -⟩
    exact ⟨hline, hdepth⟩
  · rintro ⟨hline, hdepth⟩
    exact ⟨trivial, trivial, hline, hdepth, memHigh_countNonneg _, (Traced.all_pure _).mpr trivial⟩

end Functions

/-! ## Agreement -/

/-- The three lengths of a line agree: `info` has what became of the mode `var`. -/
structure Agrees (u : Undefined) (var : Var) (info : Info w) : Prop where
  /-- `iris_set_par` stores what `iris_check_var` used. -/
  checked : 0 ≤ log2bpl var ∧
    (irisSetPar u info).value.lineLength.toNat = 2 ^ (log2bpl var).toNat
  /-- The controller gets the length that is stored. -/
  programmed : (irisSetPar u info).value.cr .fbBpl = (irisSetPar u info).value.lineLength
  /-- It is the length of a line of pixels. -/
  pixels : (irisSetPar u info).value.lineLength.toNat * 8 =
    info.var.xresVirtual.toNat * info.var.bitsPerPixel.toNat
  /-- `iris_pan_display` recovers the logarithm. -/
  recovered : (ilog2 (irisSetPar u info).value.lineLength).value = log2bpl var
  /-- No shift has a negative count. -/
  checkVar_counts : (irisCheckVar u var).All Op.CountNonneg
  setPar_counts : (irisSetPar u info).All Op.CountNonneg
  panDisplay_counts (pan : Var) (h : pan.bitsPerPixel = info.var.bitsPerPixel) :
    (irisPanDisplay u pan (irisSetPar u info).value).All Op.CountNonneg

section Agreement

variable {var : Var} {format : PixelFormat}

/-- The stored length of a line of whole bytes, up to the bits that the shift loses. -/
theorem lineLength_mul_eight {k : Nat} (h : info.var.bitsPerPixel.toNat = 2 ^ (k + 3)) :
    (irisSetPar u info).value.lineLength.toNat * 8 =
      info.var.xresVirtual.toNat * info.var.bitsPerPixel.toNat % 2 ^ 35 := by
  have hk : k + 3 < 32 := by
    rw [← Nat.pow_lt_pow_iff_right Nat.one_lt_two, ← h]
    exact info.var.bitsPerPixel.isLt
  have hcount : (ilog2 info.var.bitsPerPixel).value - 3 = k := by
    rw [ilog2_value_two_pow h]
    omega
  have hs : Shifts (k : Int) := ⟨by omega, by omega⟩
  rw [irisSetPar_lineLength, hcount, shl_toNat hs, Int.toNat_natCast, h, pow_add, ← mul_assoc,
    ← Nat.mul_mod_mul_right]
  rfl

/-- A format other than the first has pixels of whole bytes. -/
theorem exists_bitsPerPixel_eq (h : pixelFormat (depthOf var) = some format)
    (h4 : depthOf var ≠ 4) : ∃ k, format.bitsPerPixel.toNat = 2 ^ (k + 3) := by
  unfold pixelFormat at h
  rw [if_neg h4] at h
  split_ifs at h with h8 h16 h32
  · exact ⟨0, by cases h; rfl⟩
  · exact ⟨1, by cases h; rfl⟩
  · exact ⟨2, by cases h; rfl⟩

theorem log2_four : (ilog2 4).value = 2 := ilog2_value_two_pow rfl

/-- Pixels of whole bytes, in lines of less than 2^32 bytes. -/
theorem agrees_of_accepted (h : pixelFormat (depthOf var) = some format)
    (hinfo : info.var = accepted u var format) (h4 : depthOf var ≠ 4)
    (hword : lineBits var < 2 ^ 35) : Agrees u var info := by
  obtain ⟨hdepth, -, -⟩ := pixelFormat_depth h
  obtain ⟨k, hk⟩ := exists_bitsPerPixel_eq h h4
  have hline : lineBits var = 2 ^ Nat.clog 2 (width var) * 2 ^ k * 8 := by
    rw [lineBits_eq h, hk, pow_add, ← mul_assoc]
    rfl
  have hs : Shifts (log2bpl var) := by
    refine (shifts_log2bpl_iff hdepth).mpr ⟨?_, hword⟩
    have hpos := Nat.mul_pos (Nat.two_pow_pos (Nat.clog 2 (width var))) (Nat.two_pow_pos k)
    omega
  have hclog : Nat.clog 2 (width var) < 32 := by
    have hpow := Nat.le_mul_of_pos_right (2 ^ Nat.clog 2 (width var)) (Nat.two_pow_pos k)
    rw [← Nat.pow_lt_pow_iff_right Nat.one_lt_two]
    omega
  have hbits : info.var.bitsPerPixel.toNat = 2 ^ (k + 3) := by rw [hinfo, accepted_bitsPerPixel, hk]
  have hpixels : info.var.xresVirtual.toNat * info.var.bitsPerPixel.toNat = lineBits var := by
    rw [hinfo, toNat_accepted_xresVirtual hclog, accepted_bitsPerPixel, lineBits_eq h]
  have hlength : (irisSetPar u info).value.lineLength.toNat = 2 ^ (log2bpl var).toNat := by
    have height := lineLength_mul_eight (u := u) hbits
    rw [hpixels, Nat.mod_eq_of_lt hword, ← two_pow_log2bpl hdepth hs.1] at height
    exact Nat.eq_of_mul_eq_mul_right (by decide) height
  have hlog : (ilog2 (irisSetPar u info).value.lineLength).value = log2bpl var := by
    rw [ilog2_value_two_pow hlength]
    exact Int.toNat_of_nonneg hs.1
  have hcount : 0 ≤ (ilog2 info.var.bitsPerPixel).value - 3 := by
    rw [ilog2_value_two_pow hbits]
    omega
  exact {
    checked := ⟨hs.1, hlength⟩
    programmed := irisSetPar_fbBpl
    pixels := by rw [hlength, two_pow_log2bpl hdepth hs.1, hpixels]
    recovered := hlog
    checkVar_counts := by
      refine all_irisCheckVar.mpr ⟨trivial, trivial, hs.1, fun _ format' _ => ?_⟩
      refine all_finishVar.mpr ⟨?_, hs.1, trivial, trivial⟩
      exact (shifts_log2xres_iff.mpr hclog).1
    setPar_counts := all_irisSetPar.mpr ⟨trivial, hcount⟩
    panDisplay_counts := fun pan hpan =>
      irisPanDisplay_countNonneg_iff.mpr ⟨hlog ▸ hs.1, by rwa [hpan]⟩ }

/-- A mode with a format is accepted on some machine, if it is not refused on all. -/
theorem exists_accepts (h : pixelFormat (depthOf var) = some format)
    (hmany : ¬ (2 ^ 3 ≤ lineBits var ∧ lineBits var < 2 ^ 35 ∧
      videomemSize.toNat * 8 < var.yres.toNat * lineBits var % 2 ^ 35)) :
    ∃ u, Accepts u var (accepted u var format) := by
  have hdepth := (pixelFormat_depth h).1
  rw [← and_assoc, ← shifts_log2bpl_iff hdepth, not_and'] at hmany
  let u : Undefined := ⟨fun _ _ => videomemSize, fun _ _ => 0, fun _ => 0⟩
  refine ⟨u, (accepts_format_iff h).mpr ⟨?_, rfl⟩⟩
  by_cases hs : Shifts (log2bpl var)
  · rw [lt_shl_yres_iff hdepth hs]
    exact fun hlt => hmany hlt hs
  · rw [shl_value_undefined hs]
    exact BitVec.lt_irrefl _

/-- What the agreement says of the mode. -/
theorem Agrees.of_accepted (h : pixelFormat (depthOf var) = some format)
    (hinfo : info.var = accepted u var format) (hagrees : Agrees u var info) :
    depthOf var ≠ 4 ∧ lineBits var < 2 ^ 35 := by
  obtain ⟨hdepth, -, hbits⟩ := pixelFormat_depth h
  obtain ⟨hbpl, hlength⟩ := hagrees.checked
  constructor
  · intro h4
    obtain ⟨-, hcount⟩ := all_irisSetPar.mp hagrees.setPar_counts
    have hneg : 0 ≤ (ilog2 info.var.bitsPerPixel).value - 3 := hcount
    rw [hinfo, accepted_bitsPerPixel, hbits, h4, log2_four] at hneg
    exact absurd hneg (by decide)
  · have hlt := (irisSetPar u info).value.lineLength.isLt
    rw [← two_pow_log2bpl hdepth hbpl]
    omega

/-- **The stride is computed the same way everywhere**, for every mode that is accepted, iff the
depth has no format, or the mode is refused for its lines, or the depth is not 4 and a line has
less than 2^32 bytes. -/
theorem agrees_iff (var : Var) :
    (∀ u (info : Info w), Accepts u var info.var → Agrees u var info) ↔
      pixelFormat (depthOf var) = none ∨
        2 ^ 3 ≤ lineBits var ∧ lineBits var < 2 ^ 35 ∧
          videomemSize.toNat * 8 < var.yres.toNat * lineBits var % 2 ^ 35 ∨
        depthOf var ≠ 4 ∧ lineBits var < 2 ^ 35 := by
  cases hformat : pixelFormat (depthOf var) with
  | none => exact iff_of_true (fun u info h => absurd h (not_accepts hformat)) (Or.inl rfl)
  | some format =>
    constructor
    · intro h
      refine Or.inr (or_iff_not_imp_left.mpr fun hmany => ?_)
      obtain ⟨u, hacc⟩ := exists_accepts hformat hmany
      exact (h u (.ofVar (accepted u var format)) hacc).of_accepted hformat rfl
    · rintro (hnone | ⟨hbyte, hword, hmany⟩ | ⟨h4, hword⟩) u info hacc
      · exact nomatch hnone
      · obtain ⟨hfew, -⟩ := (accepts_format_iff hformat).mp hacc
        have hdepth := (pixelFormat_depth hformat).1
        exact absurd ((lt_shl_yres_iff hdepth
          ((shifts_log2bpl_iff hdepth).mpr ⟨hbyte, hword⟩)).mpr hmany) hfew
      · obtain ⟨-, hinfo⟩ := (accepts_format_iff hformat).mp hacc
        exact agrees_of_accepted hformat hinfo.symm h4 hword

/-- A mode of 4 bits per pixel: `iris_set_par` shifts by -1. -/
theorem not_agrees :
    ¬ ∀ var u (info : Info .rv64), Accepts u var info.var → Agrees u var info := by
  intro h
  let var : Var := { probeVar with bitsPerPixel := 4 }
  have hacc : Accepts default var _ := accepts_iff.mpr ⟨by decide, _, rfl, rfl⟩
  exact ((h var default (.ofVar _) hacc).of_accepted rfl rfl).1 rfl

end Agreement

end LowriscLinux.Video
