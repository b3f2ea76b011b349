import LowriscLinux.Kernel.PtRegs
import LowriscLinux.Lib.CInt

/-!
# The frame buffer driver

Model of `arch/riscv/video/fb.c`: the checks of a mode, its installation, the palette and panning.

## What models what

* `irisCheckVar`: `iris_check_var`, lines 73-161. `depthOf` is `depth` (lines 75-77), `widen` line
  80, `pixelFormat` the switch (lines 91-146), `clamp` lines 148-151 and `finishVar` lines 148-160.
* `irisSetPar`: `iris_set_par`, lines 163-194, without its messages. Line 174 computes the length of
  a line once more, as line 171 does.
* `irisPanDisplay`: `iris_pan_display`, lines 196-205. `memHigh` is the shift of line 203, whose
  count C does not define for a `uintptr_t` of 32 bits.
* `irisSetcolreg`: `iris_setcolreg`, lines 54-71.
* `Var`, `Bitfield` and `Info`: the structures, of which the fields that no function here reads or
  writes are left out. `Cr` are the registers of the controller, and `Info.cr` the values last
  written to them.
* `probeVar`, `videomemSize`: what `iris_probe` sets (lines 248-256), and `VIDEOMEM_SIZE`.

A function is a computation that leaves its shifts, logarithms and divisions in a trace
(`Lib/Traced.lean`, `Lib/CInt.lean`); what the machine gives where C defines nothing is the
parameter `u`. All fields have 32 bits, as `__u32` has; `depth` and the logarithms are `int`.

`smem_len` is `VIDEOMEM_SIZE` and `visual` is `FB_VISUAL_TRUECOLOR`, as `iris_probe` sets them. The
probe itself and the core of the frame buffers are in `Video/Scanout.lean`.
-/

namespace LowriscLinux.Video

open Lib Kernel

/-! ## The structures -/

/-- `struct fb_bitfield`. -/
structure Bitfield where
  offset : BitVec 32
  length : BitVec 32
  deriving DecidableEq, Repr

/-- `struct fb_var_screeninfo`. -/
structure Var where
  xres : BitVec 32
  yres : BitVec 32
  xresVirtual : BitVec 32
  yresVirtual : BitVec 32
  xoffset : BitVec 32
  yoffset : BitVec 32
  bitsPerPixel : BitVec 32
  grayscale : BitVec 32
  red : Bitfield
  green : Bitfield
  blue : Bitfield
  transp : Bitfield
  nonstd : BitVec 32
  pixclock : BitVec 32
  leftMargin : BitVec 32
  hsyncLen : BitVec 32
  deriving DecidableEq, Repr

/-- The mode that `iris_probe` asks for. -/
def probeVar : Var where
  xres := 320
  yres := 480
  xresVirtual := 0
  yresVirtual := 0
  xoffset := 0
  yoffset := 0
  bitsPerPixel := 16
  grayscale := 0
  red := ⟨0, 0⟩
  green := ⟨0, 0⟩
  blue := ⟨0, 0⟩
  transp := ⟨0, 0⟩
  nonstd := 0
  pixclock := 0
  leftMargin := 0
  hsyncLen := 0

/-- The registers that the functions write, `VIDEO_CR_*`. -/
inductive Cr
  | base
  | baseHigh
  | depth
  | enable
  | fbWidth
  | fbHeight
  | fbBpl
  deriving DecidableEq, Repr

/-- `VIDEOMEM_SIZE`. -/
def videomemSize : BitVec 32 := 0x400000

/-- `struct fb_info` and `struct iris_par`. -/
structure Info (w : Xlen) where
  var : Var
  /-- `fix.line_length`. -/
  lineLength : BitVec 32
  /-- `fix.smem_start`. -/
  smemStart : Word w
  /-- The frame buffer is a block of memory. -/
  smem_fits : smemStart.toNat + videomemSize.toNat ≤ 2 ^ (8 * szreg w)
  pseudoPalette : Fin 16 → BitVec 32
  cr : Cr → BitVec 32

theorem videomemSize_le (w : Xlen) : videomemSize.toNat ≤ 2 ^ (8 * szreg w) := by
  cases w <;> decide

variable {w : Xlen}

/-- A device with a mode, before anything is written to its registers. -/
def Info.ofVar (var : Var) : Info w where
  var := var
  lineLength := 0
  smemStart := 0
  smem_fits := (Nat.zero_add _).trans_le (videomemSize_le w)
  pseudoPalette := fun _ => 0
  cr := fun _ => 0

/-- `-EINVAL`. -/
def einval : BitVec 32 := -22

/-- `iowrite32(v, par->reg + r)`. -/
def iowrite32 (v : BitVec 32) (r : Cr) (info : Info w) : Info w :=
  { info with cr := Function.update info.cr r v }

section Registers

variable {v : BitVec 32} {r : Cr} {info : Info w}

@[simp] theorem iowrite32_var : (iowrite32 v r info).var = info.var := rfl

@[simp] theorem iowrite32_smemStart : (iowrite32 v r info).smemStart = info.smemStart := rfl

@[simp] theorem iowrite32_cr : (iowrite32 v r info).cr = Function.update info.cr r v := rfl

end Registers

/-! ## Modes -/

/-- `abs(x)` of an `unsigned int`, which is read as an `int`. -/
def abs (x : BitVec 32) : BitVec 32 := if x.toInt < 0 then -x else x

/-- `depth`. -/
def depthOf (var : Var) : BitVec 32 :=
  let depth := var.red.length + var.green.length + var.blue.length
  if depth = 0 ∨ 8 ≤ (abs (depth - var.bitsPerPixel)).toInt then var.bitsPerPixel else depth

/-- What a case of `switch (depth)` sets. -/
structure PixelFormat where
  bitsPerPixel : BitVec 32
  grayscale : BitVec 32
  red : Bitfield
  green : Bitfield
  blue : Bitfield
  transp : Bitfield
  nonstd : BitVec 32
  deriving DecidableEq, Repr

/-- `switch (depth)`. -/
def pixelFormat (depth : BitVec 32) : Option PixelFormat :=
  if depth = 4 then
    some {
      bitsPerPixel := 4
      grayscale := 1
      red := ⟨0, 0⟩
      green := ⟨0, 4⟩
      blue := ⟨0, 0⟩
      transp := ⟨0, 0⟩
      nonstd := 1 }
  else if depth = 8 then
    some {
      bitsPerPixel := 8
      grayscale := 0
      red := ⟨5, 3⟩
      green := ⟨2, 3⟩
      blue := ⟨0, 2⟩
      transp := ⟨0, 0⟩
      nonstd := 0 }
  else if depth = 16 then
    some {
      bitsPerPixel := 16
      grayscale := 0
      red := ⟨11, 5⟩
      green := ⟨5, 6⟩
      blue := ⟨0, 5⟩
      transp := ⟨0, 0⟩
      nonstd := 0 }
  else if depth = 32 then
    some {
      bitsPerPixel := 32
      grayscale := 0
      red := ⟨16, 8⟩
      green := ⟨8, 8⟩
      blue := ⟨0, 8⟩
      transp := ⟨24, 8⟩
      nonstd := 0 }
  else none

def PixelFormat.set (format : PixelFormat) (var : Var) : Var :=
  { var with
    bitsPerPixel := format.bitsPerPixel
    grayscale := format.grayscale
    red := format.red
    green := format.green
    blue := format.blue
    transp := format.transp
    nonstd := format.nonstd }

/-- `if (var->xres_virtual < var->xres) var->xres_virtual = var->xres;` -/
def widen (var : Var) : Var :=
  if var.xresVirtual < var.xres then { var with xresVirtual := var.xres } else var

/-- The offsets and the resolution are set to what the controller can show. -/
def clamp (var : Var) : Var :=
  { var with
    xoffset := 0
    yoffset := 0
    xres := if 640 < var.xres then 640 else var.xres
    yres := if 480 < var.yres then 480 else var.yres }

section Functions

variable (u : Undefined)

/-- The end of `iris_check_var`, behind `switch (depth)`. -/
def finishVar (log2xres log2bpl : Int) (var : Var) : Traced Op Var := do
  let var := clamp var
  let var : Var := { var with xresVirtual := ← shl u 1 log2xres }
  let var : Var := { var with yresVirtual := ← shr u videomemSize log2bpl }
  let var : Var := { var with pixclock := ← div u ((← div u 10000000 var.xres) * 1000) var.yres }
  return { var with leftMargin := var.xres / 8 &&& 0xf8, hsyncLen := var.xres / 8 &&& 0xf8 }

/-- `iris_check_var`, which returns a status and leaves a mode in `var`. -/
def irisCheckVar (var : Var) : Traced Op (BitVec 32 × Var) := do
  let depth := depthOf var
  let var := widen var
  let log2depth ← ilog2 depth
  let log2xres := (← ilog2 (var.xresVirtual - 1)) + 1
  let log2bpl := log2xres + log2depth - 3
  if videomemSize < (← shl u var.yres log2bpl) then return (einval, var)
  else match pixelFormat depth with
    | none => return (einval, var)
    | some format => return (0, ← finishVar u log2xres log2bpl (format.set var))

/-- `iris_set_par`. -/
def irisSetPar (info : Info w) : Traced Op (Info w) := do
  let log2depth ← ilog2 info.var.bitsPerPixel
  let info := iowrite32 0 .enable info
  let info := iowrite32 (BitVec.ofInt 32 (5 - log2depth)) .depth info
  let info := iowrite32 info.var.xres .fbWidth info
  let info := iowrite32 info.var.yres .fbHeight info
  let info := iowrite32 (← shl u info.var.xresVirtual (log2depth - 3)) .fbBpl info
  let info := iowrite32 1 .enable info
  return { info with lineLength := ← shl u info.var.xresVirtual (log2depth - 3) }

/-- `(uint32_t)(mem >> 32)`, of a `uintptr_t`. -/
def memHigh : (w : Xlen) → Word w → Traced Op (BitVec 32)
  | .rv64, mem => pure ((mem >>> 32).setWidth 32)
  | .rv32, mem => shr u mem 32

/-- `iris_pan_display`. -/
def irisPanDisplay (var : Var) (info : Info w) : Traced Op (Info w) := do
  let log2bpl ← ilog2 info.lineLength
  let log2depth ← ilog2 var.bitsPerPixel
  let offset := (← shl u var.yoffset log2bpl) + (← shl u var.xoffset (log2depth - 3))
  let mem := info.smemStart + offset.setWidth _
  let info := iowrite32 (mem.setWidth 32) .base info
  return iowrite32 (← memHigh u w mem) .baseHigh info

/-- `iris_setcolreg`, which returns a status. -/
def irisSetcolreg (regno red green blue transp : BitVec 32) (info : Info w) :
    Traced Op (BitVec 32 × Info w) :=
  if h : regno.toNat < 16 then do
    let v := (← shl u red info.var.red.offset.toNat) ||| (← shl u green info.var.green.offset.toNat) |||
      (← shl u blue info.var.blue.offset.toNat) ||| (← shl u transp info.var.transp.offset.toNat)
    return (0, { info with pseudoPalette := Function.update info.pseudoPalette ⟨regno.toNat, h⟩ v })
  else return (einval, info)

end Functions

/-- A device with the mode that `iris_check_var` makes of a request. -/
def Info.checked (request : Var) : Info w := .ofVar (irisCheckVar default request).value.2

end LowriscLinux.Video
