import LowriscLinux.Lib.Fields
import LowriscLinux.Video.Mode
import Mathlib.Data.Fintype.Defs

/-!
# The palette

What `iris_setcolreg` of `Video/Iris.lean` stores (`arch/riscv/video/fb.c`, lines 54-71) for
components of 16 bits, which are the ones that the frame buffer core passes.

It shifts each to the offset of its channel and merges them (lines 62-65), as they are: they are not
cut to the most significant bits first, as the lengths of the channels demand. The formats are those
that `iris_check_var` sets (lines 91-143).

## What models what

* `Channel`: `red`, `green`, `blue` and `transp`. `Var.field` and `PixelFormat.field` are their
  `offset` and `length` in a mode and in a case of the switch.
* `PixelFormat.Tiles`: each bit of a pixel is in one channel of the format. Then the channels are
  the fields of a layout in the sense of the library (`Lib/Fields.lean`).
* `colour`: the word that is stored. `setcolreg` is the entry that a call leaves.
* `SetsColour`: what the entry should be: each channel has the most significant bits of its
  component, none of which is in another channel, and the other entries are left alone.

Results:
* `tiles_of_pixelFormat`: the channels of a format fill its pixel (`Lib/Fields.lean`).
* **`setsColour_iff`**: in an accepted mode, each channel of the entry has the most significant bits
  of its component and none spills into another, iff for each component these are all of its bits
  that the shift leaves in the pixel.
-/

namespace LowriscLinux.Video

open Lib Kernel

/-! ## Channels -/

/-- A channel of a pixel. -/
inductive Channel
  | red
  | green
  | blue
  | transp
  deriving DecidableEq, Repr

instance : Fintype Channel where
  elems := {.red, .green, .blue, .transp}
  complete c := by cases c <;> decide

def Var.field (var : Var) : Channel → Bitfield
  | .red => var.red
  | .green => var.green
  | .blue => var.blue
  | .transp => var.transp

def PixelFormat.field (format : PixelFormat) : Channel → Bitfield
  | .red => format.red
  | .green => format.green
  | .blue => format.blue
  | .transp => format.transp

/-- Each bit of a pixel is in one channel. -/
structure PixelFormat.Tiles (format : PixelFormat) : Prop where
  ends_le : ∀ c, (format.field c).offset.toNat + (format.field c).length.toNat ≤
    format.bitsPerPixel.toNat
  unique : ∀ c d, ∀ p < format.bitsPerPixel.toNat, (format.field c).offset.toNat ≤ p →
    p < (format.field c).offset.toNat + (format.field c).length.toNat →
    (format.field d).offset.toNat ≤ p →
    p < (format.field d).offset.toNat + (format.field d).length.toNat → c = d
  covered : ∀ p < format.bitsPerPixel.toNat, ∃ c, (format.field c).offset.toNat ≤ p ∧
    p < (format.field c).offset.toNat + (format.field c).length.toNat
  word : format.bitsPerPixel.toNat ≤ 32
  offset_lt : ∀ c, (format.field c).offset.toNat < 32
  length_le : ∀ c, (format.field c).length.toNat ≤ 16

/-- The channels as the fields of a layout. -/
def PixelFormat.Tiles.layout {format : PixelFormat} (h : format.Tiles) : Layout Channel where
  offset c := (format.field c).offset.toNat
  length c := (format.field c).length.toNat
  top := format.bitsPerPixel.toNat
  ends_le := h.ends_le
  unique := h.unique
  covered := h.covered

theorem tiles_of_pixelFormat {depth : BitVec 32} {format : PixelFormat}
    (h : pixelFormat depth = some format) : format.Tiles := by
  unfold pixelFormat at h
  split_ifs at h with h4 h8 h16 h32
  all_goals
    cases h
    exact ⟨by decide, by decide, by decide, by decide, by decide, by decide⟩

/-! ## Entries -/

section Entries

variable {w : Xlen} {u : Undefined} {info : Info w} {regno : BitVec 32}
  {comps : Channel → BitVec 32} {format : PixelFormat}

/-- What `iris_setcolreg` leaves for the entry `regno`. -/
def setcolreg (u : Undefined) (regno : BitVec 32) (comps : Channel → BitVec 32) (info : Info w) :
    BitVec 32 × Info w :=
  (irisSetcolreg u regno (comps .red) (comps .green) (comps .blue) (comps .transp) info).value

/-- The entry `regno` is well formed, for components of 16 bits. -/
structure SetsColour (u : Undefined) (regno : Fin 16) (comps : Channel → BitVec 32)
    (info : Info w) : Prop where
  status : (setcolreg u (BitVec.ofNat 32 regno) comps info).1 = 0
  /-- Each channel has the most significant bits of its component. -/
  field : ∀ c, ((setcolreg u (BitVec.ofNat 32 regno) comps info).2.pseudoPalette regno).toNat /
    2 ^ (info.var.field c).offset.toNat % 2 ^ (info.var.field c).length.toNat =
      (comps c).toNat / 2 ^ (16 - (info.var.field c).length.toNat)
  /-- No component has bits in the channel of another one. -/
  confined : ∀ c d, c ≠ d → (comps c).toNat * 2 ^ (info.var.field c).offset.toNat /
    2 ^ (info.var.field d).offset.toNat % 2 ^ (info.var.field d).length.toNat = 0
  others : ∀ i ≠ regno, (setcolreg u (BitVec.ofNat 32 regno) comps info).2.pseudoPalette i =
    info.pseudoPalette i

/-- The word that `iris_setcolreg` stores. -/
def colour (u : Undefined) (comps : Channel → BitVec 32) (var : Var) : BitVec 32 :=
  (shl u (comps .red) (var.field .red).offset.toNat).value |||
    (shl u (comps .green) (var.field .green).offset.toNat).value |||
    (shl u (comps .blue) (var.field .blue).offset.toNat).value |||
    (shl u (comps .transp) (var.field .transp).offset.toNat).value

theorem setcolreg_eq (regno : Fin 16) :
    setcolreg u (BitVec.ofNat 32 regno) comps info = (0, { info with
      pseudoPalette := Function.update info.pseudoPalette regno (colour u comps info.var) }) := by
  have hregno : (BitVec.ofNat 32 regno).toNat = regno := by
    rw [BitVec.toNat_ofNat]
    omega
  have hlt : (BitVec.ofNat 32 regno).toNat < 16 := by omega
  have hfin : (⟨(BitVec.ofNat 32 regno).toNat, hlt⟩ : Fin 16) = regno := Fin.ext hregno
  unfold setcolreg irisSetcolreg
  rw [dif_pos hlt]
  show (_, { info with
    pseudoPalette := Function.update info.pseudoPalette _ (colour u comps info.var) }) = _
  rw [hfin]

/-- The word has the bits of all components. -/
theorem testBit_colour (var : Var) (h : ∀ c, (var.field c).offset.toNat < 32) {p : Nat}
    (hp : p < 32) :
    (colour u comps var).toNat.testBit p = true ↔
      ∃ c, ((comps c).toNat * 2 ^ (var.field c).offset.toNat).testBit p = true := by
  have hbit c : ((shl u (comps c) (var.field c).offset.toNat).value).toNat.testBit p =
      ((comps c).toNat * 2 ^ (var.field c).offset.toNat).testBit p := by
    have hc := h c
    rw [shl_toNat ⟨Int.natCast_nonneg _, by omega⟩, Int.toNat_natCast, Nat.testBit_mod_two_pow,
      decide_eq_true hp, Bool.true_and]
  unfold colour
  simp only [BitVec.toNat_or, Nat.testBit_or, hbit, Bool.or_eq_true]
  constructor
  · rintro (((h | h) | h) | h)
    · exact ⟨.red, h⟩
    · exact ⟨.green, h⟩
    · exact ⟨.blue, h⟩
    · exact ⟨.transp, h⟩
  · rintro ⟨c, h⟩
    cases c with
    | red => exact .inl (.inl (.inl h))
    | green => exact .inl (.inl (.inr h))
    | blue => exact .inl (.inr h)
    | transp => exact .inr h

theorem accepted_field {request : Var} (c : Channel) :
    (accepted u request format).field c = format.field c := by
  cases c <;> rfl

/-- A well-formed entry, as a word of fields. -/
theorem setsColour_iff_layout (h : format.Tiles) (hfield : ∀ c, info.var.field c = format.field c)
    {regno : Fin 16} :
    SetsColour u regno comps info ↔
      (∀ c, h.layout.get c (colour u comps info.var).toNat =
        (comps c).toNat / 2 ^ (16 - h.layout.length c)) ∧
      h.layout.Confined fun c => (comps c).toNat := by
  have hentry : (setcolreg u (BitVec.ofNat 32 regno) comps info).2.pseudoPalette regno =
      colour u comps info.var := by
    rw [setcolreg_eq]
    exact Function.update_self _ _ _
  constructor
  · rintro ⟨-, hget, hconf, -⟩
    simp only [hfield, hentry] at hget hconf
    exact ⟨hget, hconf⟩
  · rintro ⟨hget, hconf⟩
    exact {
      status := by rw [setcolreg_eq]
      field := by
        simp only [hfield, hentry]
        exact hget
      confined := by
        simp only [hfield]
        exact hconf
      others := fun i hi => by
        rw [setcolreg_eq]
        exact Function.update_of_ne hi _ _ }

/-- **Palette entries are well formed**, in a mode that is accepted and for components of 16 bits,
iff the most significant bits of each component, as many as its channel has, are all of its bits
that the shift leaves in the pixel. -/
theorem setsColour_iff {request : Var} (hacc : Accepts u request info.var)
    (hcomps : ∀ c, (comps c).toNat < 2 ^ 16) (regno : Fin 16) :
    SetsColour u regno comps info ↔
      ∀ c, (comps c).toNat %
          2 ^ (info.var.bitsPerPixel.toNat - (info.var.field c).offset.toNat) =
        (comps c).toNat / 2 ^ (16 - (info.var.field c).length.toNat) := by
  obtain ⟨-, format, hformat, hmode⟩ := accepts_iff.mp hacc
  have htiles := tiles_of_pixelFormat hformat
  have hfield c : info.var.field c = format.field c := by rw [← hmode, accepted_field]
  have hbits : info.var.bitsPerPixel = format.bitsPerPixel := by
    rw [← hmode, accepted_bitsPerPixel]
  have hmerged : htiles.layout.Merged (fun c => (comps c).toNat)
      (colour u comps info.var).toNat := by
    intro p hp
    rw [testBit_colour info.var (fun c => hfield c ▸ htiles.offset_lt c) (hp.trans_le htiles.word)]
    simp only [hfield]
    rfl
  rw [setsColour_iff_layout htiles hfield,
    Layout.holds_high_bits_iff htiles.length_le hcomps hmerged, hbits]
  simp only [hfield]
  rfl

/-- Red, in the mode of `iris_probe`. -/
theorem setsColour_red :
    SetsColour default 1 (fun c => if c = .red then 0xffff else 0)
      (.checked probeVar : Info .rv64) :=
  (setsColour_iff (show Accepts default probeVar _ by unfold Accepts; decide) (by decide) 1).mpr
    (by decide)

/-- With 32 bits per pixel, the low byte of red is in the channel of red, and its high byte in that
of transparency. -/
theorem not_setsColour :
    ¬ ∀ (u : Undefined) (request : Var) (info : Info .rv64), Accepts u request info.var →
      ∀ comps : Channel → BitVec 32, (∀ c, (comps c).toNat < 2 ^ 16) → ∀ regno,
        SetsColour u regno comps info := by
  intro h
  let request : Var := { probeVar with bitsPerPixel := 32 }
  let info : Info .rv64 := .checked request
  let comps : Channel → BitVec 32 := fun c => if c = .red then 0xffff else 0
  have hset := h default request info (by unfold Accepts; decide) comps (by decide) 1
  exact absurd (hset.confined .red .transp (by decide)) (by decide)

end Entries

end LowriscLinux.Video
