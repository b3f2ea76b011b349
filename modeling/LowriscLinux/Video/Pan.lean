import LowriscLinux.Video.Stride

/-!
# Panning

The address that `iris_pan_display` of `Video/Iris.lean` gives to the controller
(`arch/riscv/video/fb.c`, lines 196-205).

The offset (line 201) is one of 32 bits: `yoffset` is shifted by the logarithm of the installed
length of a line, and `xoffset` by that of the depth in the mode of the caller, which nobody checks.
The frame buffer core checks only the two offsets, against the installed mode.

## What models what

* `CoreAccepts`: the checks of `fb_pan_display`, with the `xpanstep` and `ypanstep` of `iris_probe`
  (lines 242 and 243).
* `panOffset` and `panMem`: the offset and the address that line 201 computes, as values. `base` is
  the address in the two registers of lines 202 and 203.
* `ScansInMemory`: all bytes that the controller reads, `yres` lines of `xres` pixels with the
  length of a line between their starts, lie in the video memory.
* `stride`, `pictureBytes`, `lineOffset` and `pixelOffset`: the same in numbers.

A mode is installed here if it fits the video memory (`Fits`) and `iris_set_par` has seen it;
whether `iris_check_var` made it does not matter. The memory of the frame buffer is a block that
does not wrap around (`Info.smem_fits`).

Results:
* `scansInMemory_iff`: a picture lies in the video memory iff its first and its last byte do.
* `panDisplay_scansInMemory`: with the installed depth, on a machine of 64 bits, it does.
* **`panDisplay_scansInMemory_iff`**: it does for the depth of the caller, whatever the machine
  makes of undefined operations, iff the scaled `xoffset` leaves room for the picture, or wraps
  around.
-/

namespace LowriscLinux.Video

open Lib Kernel

variable {w : Xlen} {u : Undefined} {info : Info w} {pan : Var}

/-! ## Pictures -/

/-- The checks of `fb_pan_display`, with the steps of `iris_probe`. -/
structure CoreAccepts (pan : Var) (info : Info w) : Prop where
  yoffset_le : pan.yoffset ≤ info.var.yresVirtual - info.var.yres
  xoffset_le : pan.xoffset ≤ info.var.xresVirtual - info.var.xres
  xpanstep : 8 ∣ pan.xoffset.toNat

/-- The address in the two base registers. -/
def base (info : Info w) : Nat := (info.cr .base).toNat + 2 ^ 32 * (info.cr .baseHigh).toNat

def InMemory (info : Info w) (address : Nat) : Prop :=
  info.smemStart.toNat ≤ address ∧ address < info.smemStart.toNat + videomemSize.toNat

/-- All bytes that the controller reads, `yres` lines of `xres` pixels, lie in the memory. -/
def ScansInMemory (info : Info w) : Prop :=
  ∀ y < info.var.yres.toNat, ∀ x < info.var.xres.toNat * (info.var.bitsPerPixel.toNat / 8),
    InMemory info (base info + y * (info.cr .fbBpl).toNat + x)

/-- The bytes of a line. -/
def stride (mode : Var) : Nat := mode.xresVirtual.toNat * (mode.bitsPerPixel.toNat / 8)

/-- The bytes from the first one of the picture to its last one. -/
def pictureBytes (mode : Var) : Nat :=
  (mode.yres.toNat - 1) * stride mode + mode.xres.toNat * (mode.bitsPerPixel.toNat / 8)

/-- The offset for the lines, with the length of a line rounded down to a power of two. -/
def lineOffset (mode pan : Var) : Nat := pan.yoffset.toNat * 2 ^ (stride mode).log2

/-- The offset for the pixels, with the depth of the caller rounded down to a power of two. -/
def pixelOffset (pan : Var) : Nat :=
  pan.xoffset.toNat * 2 ^ (pan.bitsPerPixel.toNat.log2 - 3) % 2 ^ 32

/-- The offset that `iris_pan_display` computes. -/
def panOffset (u : Undefined) (pan : Var) (info : Info w) : BitVec 32 :=
  (shl u pan.yoffset (ilog2 info.lineLength).value).value +
    (shl u pan.xoffset ((ilog2 pan.bitsPerPixel).value - 3)).value

/-- The address that it computes. -/
def panMem (u : Undefined) (pan : Var) (info : Info w) : Word w :=
  info.smemStart + (panOffset u pan info).setWidth _

section Fields

@[simp] theorem irisPanDisplay_var : (irisPanDisplay u pan info).value.var = info.var := rfl

@[simp] theorem irisPanDisplay_smemStart :
    (irisPanDisplay u pan info).value.smemStart = info.smemStart := rfl

@[simp] theorem irisPanDisplay_fbBpl :
    (irisPanDisplay u pan info).value.cr .fbBpl = info.cr .fbBpl := rfl

theorem irisPanDisplay_base :
    (irisPanDisplay u pan info).value.cr .base = (panMem u pan info).setWidth 32 := rfl

theorem irisPanDisplay_baseHigh :
    (irisPanDisplay u pan info).value.cr .baseHigh =
      (memHigh u w (panMem u pan info)).value := rfl

end Fields

/-- **A picture lies in the memory iff its first and its last byte do.** -/
theorem scansInMemory_iff (hx : 0 < info.var.xres.toNat * (info.var.bitsPerPixel.toNat / 8))
    (hy : 0 < info.var.yres.toNat) :
    ScansInMemory info ↔
      info.smemStart.toNat ≤ base info ∧
        base info + ((info.var.yres.toNat - 1) * (info.cr .fbBpl).toNat +
          info.var.xres.toNat * (info.var.bitsPerPixel.toNat / 8)) ≤
            info.smemStart.toNat + videomemSize.toNat := by
  constructor
  · intro h
    have hfirst := h 0 hy 0 hx
    have hlast := h (info.var.yres.toNat - 1) (by omega) _ (Nat.sub_one_lt_of_lt hx)
    unfold InMemory at hfirst hlast
    omega
  · rintro ⟨hfirst, hlast⟩ y hy x hx
    have hline := Nat.mul_le_mul_right (info.cr .fbBpl).toNat (Nat.le_sub_one_of_lt hy)
    unfold InMemory
    omega

/-! ## The installed mode -/

section Installed

variable {mode : Var} {k : Nat}

theorem exists_depth_eq (h : mode.bitsPerPixel = 8 ∨ mode.bitsPerPixel = 16 ∨
    mode.bitsPerPixel = 32) : ∃ k, mode.bitsPerPixel.toNat = 2 ^ (k + 3) := by
  rcases h with h | h | h
  · exact ⟨0, by rw [h]; rfl⟩
  · exact ⟨1, by rw [h]; rfl⟩
  · exact ⟨2, by rw [h]; rfl⟩

theorem depth_div_eight (h : mode.bitsPerPixel.toNat = 2 ^ (k + 3)) :
    mode.bitsPerPixel.toNat / 8 = 2 ^ k := by
  rw [h, pow_add]
  exact Nat.mul_div_cancel _ (by decide)

theorem stride_mul_eight (h : mode.bitsPerPixel.toNat = 2 ^ (k + 3)) :
    stride mode * 8 = mode.xresVirtual.toNat * mode.bitsPerPixel.toNat := by
  rw [stride, depth_div_eight h, h, pow_add, mul_assoc]
  rfl

/-- The virtual lines lie in the memory. -/
theorem yresVirtual_mul_stride_le (hfits : Fits mode)
    (h : mode.bitsPerPixel.toNat = 2 ^ (k + 3)) :
    mode.yresVirtual.toNat * stride mode ≤ videomemSize.toNat := by
  obtain ⟨-, -, hmem⟩ := hfits
  rw [← stride_mul_eight h, ← mul_assoc] at hmem
  exact Nat.le_of_mul_le_mul_right hmem (by decide)

theorem stride_le (hfits : Fits mode) (h : mode.bitsPerPixel.toNat = 2 ^ (k + 3))
    (hy : 0 < mode.yres.toNat) : stride mode ≤ videomemSize.toNat :=
  (Nat.le_mul_of_pos_left _ (hy.trans_le hfits.2.1)).trans (yresVirtual_mul_stride_le hfits h)

theorem xres_mul_le_stride (hfits : Fits mode) :
    mode.xres.toNat * (mode.bitsPerPixel.toNat / 8) ≤ stride mode :=
  Nat.mul_le_mul_right _ hfits.1

/-- **The lines above the picture, and those of the picture, lie in the memory.** -/
theorem lineOffset_add_lines_le (hfits : Fits info.var) (hpan : CoreAccepts pan info)
    (h : info.var.bitsPerPixel.toNat = 2 ^ (k + 3)) (hy : 0 < info.var.yres.toNat)
    (hx : 0 < stride info.var) :
    lineOffset info.var pan + ((info.var.yres.toNat - 1) * stride info.var + stride info.var) ≤
      videomemSize.toNat := by
  have hlines : pan.yoffset.toNat + (info.var.yres.toNat - 1) + 1 ≤ info.var.yresVirtual.toNat := by
    have hle := BitVec.le_def.mp hpan.yoffset_le
    rw [BitVec.toNat_sub_of_le (BitVec.le_def.mpr hfits.2.1)] at hle
    have hfit := hfits.2.1
    omega
  calc lineOffset info.var pan + ((info.var.yres.toNat - 1) * stride info.var + stride info.var)
      ≤ pan.yoffset.toNat * stride info.var +
          ((info.var.yres.toNat - 1) * stride info.var + stride info.var) :=
        Nat.add_le_add_right (Nat.mul_le_mul_left _ (Nat.log2_self_le hx.ne')) _
    _ = (pan.yoffset.toNat + (info.var.yres.toNat - 1) + 1) * stride info.var := by
        rw [Nat.add_mul, Nat.add_mul, Nat.one_mul, Nat.add_assoc]
    _ ≤ info.var.yresVirtual.toNat * stride info.var := Nat.mul_le_mul_right _ hlines
    _ ≤ videomemSize.toNat := yresVirtual_mul_stride_le hfits h

theorem lineOffset_add_pictureBytes_le (hfits : Fits info.var) (hpan : CoreAccepts pan info)
    (h : info.var.bitsPerPixel.toNat = 2 ^ (k + 3)) (hy : 0 < info.var.yres.toNat)
    (hx : 0 < stride info.var) :
    lineOffset info.var pan + pictureBytes info.var ≤ videomemSize.toNat := by
  have hlines := lineOffset_add_lines_le hfits hpan h hy hx
  have hpixels := xres_mul_le_stride hfits
  unfold pictureBytes
  omega

/-- With the installed depth, the pixels before the picture and those of a line of it are at most
a line. -/
theorem pixelOffset_add_le (hfits : Fits info.var) (hpan : CoreAccepts pan info)
    (h : info.var.bitsPerPixel.toNat = 2 ^ (k + 3))
    (hdepth : pan.bitsPerPixel = info.var.bitsPerPixel) :
    pixelOffset pan + info.var.xres.toNat * (info.var.bitsPerPixel.toNat / 8) ≤
      stride info.var := by
  have hpixels : pan.xoffset.toNat + info.var.xres.toNat ≤ info.var.xresVirtual.toNat := by
    have hle := BitVec.le_def.mp hpan.xoffset_le
    rw [BitVec.toNat_sub_of_le (BitVec.le_def.mpr hfits.1)] at hle
    have hfit := hfits.1
    omega
  have hoffset : pixelOffset pan ≤ pan.xoffset.toNat * 2 ^ k := by
    unfold pixelOffset
    rw [hdepth, h, Nat.log2_two_pow, Nat.add_sub_cancel]
    exact Nat.mod_le _ _
  unfold stride
  rw [depth_div_eight h]
  calc pixelOffset pan + info.var.xres.toNat * 2 ^ k
      ≤ pan.xoffset.toNat * 2 ^ k + info.var.xres.toNat * 2 ^ k := Nat.add_le_add_right hoffset _
    _ = (pan.xoffset.toNat + info.var.xres.toNat) * 2 ^ k := (Nat.add_mul _ _ _).symm
    _ ≤ info.var.xresVirtual.toNat * 2 ^ k := Nat.mul_le_mul_right _ hpixels

/-- `iris_set_par` stores the bytes of a line. -/
theorem lineLength_eq_stride (u : Undefined) (hfits : Fits info.var)
    (h : info.var.bitsPerPixel.toNat = 2 ^ (k + 3)) (hy : 0 < info.var.yres.toNat) :
    (irisSetPar u info).value.lineLength.toNat = stride info.var := by
  have hle : stride info.var ≤ 0x400000 := stride_le hfits h hy
  have height := lineLength_mul_eight (u := u) h
  rw [← stride_mul_eight h, Nat.mod_eq_of_lt (by omega)] at height
  omega

/-- The shift of `yoffset`, by the logarithm of what is installed. -/
theorem shl_yoffset (hline : info.lineLength.toNat = stride mode) (hx : 0 < stride mode)
    (hlines : lineOffset mode pan < 2 ^ 32) :
    (shl u pan.yoffset (ilog2 info.lineLength).value).value.toNat = lineOffset mode pan := by
  have hne : info.lineLength ≠ 0 := by
    intro hzero
    rw [hzero] at hline
    exact hx.ne hline
  have hlog : (stride mode).log2 < 32 := by
    rw [Nat.log2_lt hx.ne', ← hline]
    exact info.lineLength.isLt
  rw [ilog2_value_of_ne hne, hline, shl_toNat ⟨Int.natCast_nonneg _, by omega⟩, Int.toNat_natCast]
  exact Nat.mod_eq_of_lt hlines

/-- The shift of `xoffset`, by the logarithm of the depth of the caller. -/
theorem shl_xoffset (hdepth : 2 ^ 3 ≤ pan.bitsPerPixel.toNat) :
    (shl u pan.xoffset ((ilog2 pan.bitsPerPixel).value - 3)).value.toNat = pixelOffset pan := by
  have hne : pan.bitsPerPixel ≠ 0 := by
    intro hzero
    rw [hzero] at hdepth
    exact absurd hdepth (by decide)
  have hnat : pan.bitsPerPixel.toNat ≠ 0 := fun hzero => hne (BitVec.eq_of_toNat_eq hzero)
  have hlog := (Nat.log2_lt hnat).mpr pan.bitsPerPixel.isLt
  have hbyte := (Nat.le_log2 hnat).mpr hdepth
  have hcount : (ilog2 pan.bitsPerPixel).value - 3 = (pan.bitsPerPixel.toNat.log2 - 3 : Nat) := by
    rw [ilog2_value_of_ne hne]
    omega
  rw [hcount, shl_toNat ⟨Int.natCast_nonneg _, by omega⟩, Int.toNat_natCast, pixelOffset]

/-- A depth of less than a byte makes the shift undefined. -/
theorem shl_xoffset_undefined (hdepth : pan.bitsPerPixel.toNat < 2 ^ 3) :
    (shl u pan.xoffset ((ilog2 pan.bitsPerPixel).value - 3)).value =
      u.shl pan.xoffset ((ilog2 pan.bitsPerPixel).value - 3) := by
  refine shl_value_undefined fun hs => ?_
  have hfls := fls_le_iff.mpr hdepth
  have hcount := hs.1
  rw [ilog2_value] at hcount
  omega

/-- The offset, up to the bits that the addition loses. -/
theorem panOffset_toNat (u : Undefined) (hline : info.lineLength.toNat = stride mode)
    (hx : 0 < stride mode) (hlines : lineOffset mode pan < 2 ^ 32)
    (hdepth : 2 ^ 3 ≤ pan.bitsPerPixel.toNat) :
    (panOffset u pan info).toNat = (lineOffset mode pan + pixelOffset pan) % 2 ^ 32 := by
  rw [panOffset, BitVec.toNat_add, shl_yoffset hline hx hlines, shl_xoffset hdepth]

end Installed

/-! ## The registers -/

section Registers

variable {info : Info .rv64}

/-- On a machine of 64 bits, the two registers have the address. -/
theorem irisPanDisplay_base_eq :
    base (irisPanDisplay u pan info).value = (panMem u pan info).toNat := by
  have hlt : (panMem u pan info).toNat < 2 ^ 64 := (panMem u pan info).isLt
  have hhigh : ((irisPanDisplay u pan info).value.cr .baseHigh).toNat =
      (panMem u pan info).toNat / 2 ^ 32 % 2 ^ 32 := by
    rw [irisPanDisplay_baseHigh]
    show (((panMem u pan info) >>> 32).setWidth 32).toNat = _
    rw [BitVec.toNat_setWidth, BitVec.toNat_ushiftRight, Nat.shiftRight_eq_div_pow]
  unfold base
  rw [hhigh, irisPanDisplay_base, BitVec.toNat_setWidth]
  omega

/-- The address, up to the bits that the addition loses. -/
theorem panMem_toNat :
    (panMem u pan info).toNat =
      (info.smemStart.toNat + (panOffset u pan info).toNat) % 2 ^ 64 := by
  have hlt := (panOffset u pan info).isLt
  have hwidth : ((panOffset u pan info).setWidth 64).toNat = (panOffset u pan info).toNat := by
    rw [BitVec.toNat_setWidth]
    exact Nat.mod_eq_of_lt (by omega)
  rw [← hwidth]
  exact BitVec.toNat_add _ _

/-- A picture is in the memory iff the offset leaves room for it. -/
theorem scansInMemory_panDisplay_iff (u : Undefined) (pan : Var) {mode : Var}
    (hmode : info.var = mode) (hline : (info.cr .fbBpl).toNat = stride mode)
    (hx : 0 < mode.xres.toNat * (mode.bitsPerPixel.toNat / 8)) (hy : 0 < mode.yres.toNat) :
    ScansInMemory (irisPanDisplay u pan info).value ↔
      (panOffset u pan info).toNat + pictureBytes mode ≤ videomemSize.toNat := by
  subst hmode
  rw [scansInMemory_iff (by exact hx) (by exact hy), irisPanDisplay_base_eq, panMem_toNat,
    irisPanDisplay_var, irisPanDisplay_smemStart, irisPanDisplay_fbBpl, hline, ← pictureBytes]
  have hfits : info.smemStart.toNat + videomemSize.toNat ≤ 2 ^ 64 := info.smem_fits
  have hlt := (panOffset u pan info).isLt
  have hpos : 0 < pictureBytes info.var := hx.trans_le (Nat.le_add_left _ _)
  omega

end Registers

/-! ## Panning -/

section Panning

theorem scansInMemory_of_empty (h : info.var.xres = 0 ∨ info.var.yres = 0) :
    ScansInMemory info := by
  intro y hy x hx
  rcases h with h | h
  · have hzero : (0 : BitVec 32).toNat = 0 := rfl
    rw [h, hzero, Nat.zero_mul] at hx
    exact absurd hx (Nat.not_lt_zero _)
  · rw [h] at hy
    exact absurd hy (Nat.not_lt_zero _)

theorem picture_pos {k : Nat} (hk : info.var.bitsPerPixel.toNat = 2 ^ (k + 3))
    (h : ¬ (info.var.xres = 0 ∨ info.var.yres = 0)) :
    0 < info.var.xres.toNat * (info.var.bitsPerPixel.toNat / 8) ∧ 0 < info.var.yres.toNat := by
  rw [not_or] at h
  have hx : 0 < info.var.xres.toNat :=
    Nat.pos_of_ne_zero fun hzero => h.1 (BitVec.eq_of_toNat_eq hzero)
  rw [depth_div_eight hk]
  exact ⟨Nat.mul_pos hx (Nat.two_pow_pos k),
    Nat.pos_of_ne_zero fun hzero => h.2 (BitVec.eq_of_toNat_eq hzero)⟩

/-- On a machine of 32 bits, the shift for the upper register is undefined. -/
theorem exists_not_scansInMemory (pan : Var) (info : Info .rv32)
    (hx : 0 < info.var.xres.toNat * (info.var.bitsPerPixel.toNat / 8))
    (hy : 0 < info.var.yres.toNat) :
    ∃ u, ¬ ScansInMemory (irisPanDisplay u pan (irisSetPar u info).value).value := by
  let u : Undefined := ⟨fun _ _ => 0, fun _ _ => 1, fun _ => 0⟩
  refine ⟨u, fun h => ?_⟩
  have hlow := (h 0 hy 0 hx).2
  have hhigh : (irisPanDisplay u pan (irisSetPar u info).value).value.cr .baseHigh = 1 := by
    rw [irisPanDisplay_baseHigh]
    exact shr_value_undefined (show ¬ Shifts 32 by decide)
  have hfits : info.smemStart.toNat + videomemSize.toNat ≤ 2 ^ 32 := info.smem_fits
  unfold base at hlow
  rw [hhigh, irisPanDisplay_smemStart, irisSetPar_smemStart] at hlow
  have hone : (1 : BitVec 32).toNat = 1 := rfl
  omega

section Wide

variable {info : Info .rv64} {k : Nat}

/-- On a machine of 64 bits, a picture is in the memory iff the two offsets, with the bits that
their sum loses, leave room for it. -/
theorem scansInMemory_iff_room (u : Undefined) (hfits : Fits info.var)
    (hk : info.var.bitsPerPixel.toNat = 2 ^ (k + 3)) (hpan : CoreAccepts pan info)
    (hx : 0 < info.var.xres.toNat * (info.var.bitsPerPixel.toNat / 8))
    (hy : 0 < info.var.yres.toNat) (hdepth : 2 ^ 3 ≤ pan.bitsPerPixel.toNat) :
    ScansInMemory (irisPanDisplay u pan (irisSetPar u info).value).value ↔
      lineOffset info.var pan + pixelOffset pan + pictureBytes info.var ≤ videomemSize.toNat ∨
        2 ^ 32 ≤ lineOffset info.var pan + pixelOffset pan := by
  have hline := lineLength_eq_stride u hfits hk hy
  have hstride := hx.trans_le (xres_mul_le_stride hfits)
  have hroom := lineOffset_add_pictureBytes_le hfits hpan hk hy hstride
  have hsize : videomemSize.toNat = 0x400000 := rfl
  have hpixels : pixelOffset pan < 2 ^ 32 := Nat.mod_lt _ (by decide)
  rw [scansInMemory_panDisplay_iff u pan irisSetPar_var (irisSetPar_fbBpl ▸ hline) hx hy,
    panOffset_toNat u hline hstride (by omega) hdepth]
  omega

/-- With a depth of the caller of less than a byte, the shift for `xoffset` is undefined. -/
theorem exists_not_scansInMemory_of_depth (hfits : Fits info.var)
    (hk : info.var.bitsPerPixel.toNat = 2 ^ (k + 3)) (hpan : CoreAccepts pan info)
    (hx : 0 < info.var.xres.toNat * (info.var.bitsPerPixel.toNat / 8))
    (hy : 0 < info.var.yres.toNat) (hdepth : pan.bitsPerPixel.toNat < 2 ^ 3) :
    ∃ u, ¬ ScansInMemory (irisPanDisplay u pan (irisSetPar u info).value).value := by
  let u : Undefined := ⟨fun _ _ => videomemSize, fun _ _ => 0, fun _ => 0⟩
  have hline := lineLength_eq_stride u hfits hk hy
  have hstride := hx.trans_le (xres_mul_le_stride hfits)
  have hroom := lineOffset_add_pictureBytes_le hfits hpan hk hy hstride
  have hsize : videomemSize.toNat = 0x400000 := rfl
  have hpicture : 0 < pictureBytes info.var := hx.trans_le (Nat.le_add_left _ _)
  have hoffset : (panOffset u pan (irisSetPar u info).value).toNat =
      (lineOffset info.var pan + videomemSize.toNat) % 2 ^ 32 := by
    rw [panOffset, BitVec.toNat_add, shl_yoffset hline hstride (by omega),
      shl_xoffset_undefined hdepth]
  refine ⟨u, fun h => ?_⟩
  rw [scansInMemory_panDisplay_iff u pan irisSetPar_var (irisSetPar_fbBpl ▸ hline) hx hy] at h
  omega

/-- **With the installed depth, panning stays in the memory**, on a machine of 64 bits. -/
theorem panDisplay_scansInMemory (u : Undefined) (hfits : Fits info.var)
    (hbits : info.var.bitsPerPixel = 8 ∨ info.var.bitsPerPixel = 16 ∨ info.var.bitsPerPixel = 32)
    (hpan : CoreAccepts pan info) (hdepth : pan.bitsPerPixel = info.var.bitsPerPixel) :
    ScansInMemory (irisPanDisplay u pan (irisSetPar u info).value).value := by
  obtain ⟨k, hk⟩ := exists_depth_eq hbits
  by_cases hempty : info.var.xres = 0 ∨ info.var.yres = 0
  · exact scansInMemory_of_empty hempty
  obtain ⟨hx, hy⟩ := picture_pos hk hempty
  have hbyte : 2 ^ 3 ≤ pan.bitsPerPixel.toNat := by
    rw [hdepth, hk]
    exact Nat.pow_le_pow_right Nat.two_pos (Nat.le_add_left 3 k)
  refine (scansInMemory_iff_room u hfits hk hpan hx hy hbyte).mpr (Or.inl ?_)
  have hlines := lineOffset_add_lines_le hfits hpan hk hy (hx.trans_le (xres_mul_le_stride hfits))
  have hpixels := pixelOffset_add_le hfits hpan hk hdepth
  unfold pictureBytes
  omega

end Wide

/-- **Panning never leaves the frame buffer**, whatever the machine does where C defines nothing,
iff the picture has no pixels, or, on a machine of 64 bits and for a depth of the caller of a byte
or more, the scaled `xoffset` leaves room for the picture or makes the offset wrap around. -/
theorem panDisplay_scansInMemory_iff (info : Info w) (pan : Var) (hfits : Fits info.var)
    (hbits : info.var.bitsPerPixel = 8 ∨ info.var.bitsPerPixel = 16 ∨ info.var.bitsPerPixel = 32)
    (hpan : CoreAccepts pan info) :
    (∀ u, ScansInMemory (irisPanDisplay u pan (irisSetPar u info).value).value) ↔
      (info.var.xres = 0 ∨ info.var.yres = 0) ∨
        w = .rv64 ∧ 2 ^ 3 ≤ pan.bitsPerPixel.toNat ∧
          (lineOffset info.var pan + pixelOffset pan + pictureBytes info.var ≤
              videomemSize.toNat ∨
            2 ^ 32 ≤ lineOffset info.var pan + pixelOffset pan) := by
  obtain ⟨k, hk⟩ := exists_depth_eq hbits
  by_cases hempty : info.var.xres = 0 ∨ info.var.yres = 0
  · exact iff_of_true (fun u => scansInMemory_of_empty hempty) (Or.inl hempty)
  obtain ⟨hx, hy⟩ := picture_pos hk hempty
  rw [or_iff_right hempty]
  cases w with
  | rv32 =>
    obtain ⟨u, hu⟩ := exists_not_scansInMemory pan info hx hy
    exact iff_of_false (fun h => hu (h u)) fun h => nomatch h.1
  | rv64 =>
    by_cases hdepth : 2 ^ 3 ≤ pan.bitsPerPixel.toNat
    · rw [forall_congr' fun u => scansInMemory_iff_room u hfits hk hpan hx hy hdepth, forall_const,
        and_iff_right rfl, and_iff_right hdepth]
    · obtain ⟨u, hu⟩ :=
        exists_not_scansInMemory_of_depth hfits hk hpan hx hy (Nat.lt_of_not_le hdepth)
      exact iff_of_false (fun h => hu (h u)) fun h => hdepth h.2.1

/-- The mode of `iris_probe`, and a caller with its depth. -/
theorem panDisplay_scansInMemory_probe :
    CoreAccepts { probeVar with xoffset := 8, yoffset := 480 } (.checked probeVar : Info .rv64) ∧
      ∀ u, ScansInMemory (irisPanDisplay u { probeVar with xoffset := 8, yoffset := 480 }
        (irisSetPar u (.checked probeVar : Info .rv64)).value).value := by
  have hpan : CoreAccepts { probeVar with xoffset := 8, yoffset := 480 }
      (.checked probeVar : Info .rv64) := ⟨by decide, by decide, by decide⟩
  exact ⟨hpan, (panDisplay_scansInMemory_iff (.checked probeVar) _
    ⟨by decide, by decide, by decide⟩ (by decide) hpan).mpr
      (Or.inr ⟨rfl, by decide, Or.inl (by decide)⟩)⟩

/-- In the mode of `iris_probe`, a caller with the depth 2^31 moves the picture by 2 GiB. -/
theorem not_panDisplay_scansInMemory :
    ¬ ∀ (var : Var) (u : Undefined) (info : Info .rv64) (pan : Var), Accepts u var info.var →
      Fits info.var →
      (info.var.bitsPerPixel = 8 ∨ info.var.bitsPerPixel = 16 ∨ info.var.bitsPerPixel = 32) →
      CoreAccepts pan info →
      ScansInMemory (irisPanDisplay u pan (irisSetPar u info).value).value := by
  intro h
  let info : Info .rv64 := .checked probeVar
  let pan : Var := { probeVar with xoffset := 8, bitsPerPixel := 0x80000000 }
  have hfits : Fits info.var := ⟨by decide, by decide, by decide⟩
  have hpan : CoreAccepts pan info := ⟨by decide, by decide, by decide⟩
  have hscan := h probeVar default info pan (by unfold Accepts; decide) hfits (by decide) hpan
  have hdepth : info.var.bitsPerPixel.toNat = 2 ^ (1 + 3) := by decide
  rw [scansInMemory_iff_room default hfits hdepth hpan (by decide) (by decide) (by decide)] at hscan
  exact absurd hscan (by decide)

end Panning

end LowriscLinux.Video
