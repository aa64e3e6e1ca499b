import LibEmbedding.AutotuneCache
import LibEmbedding.Foundation.Buffer
import Mathlib.Data.Rat.Floor

/-!
# Scaling and cropping an image

`image_preprocess.hpp`: the shorter side is scaled to the target size and the longer one in
proportion, a square is cropped from the middle and its channels are laid out one after another.
All sizes and places are of type `int`; the ratio of the sides is exact here.
-/

namespace LibEmbedding

open Foundation

namespace ImagePreprocess

/-- The conversion of a `float` to an `int`, undefined for what an `int` does not hold. -/
def floatToInt (x : ℚ) : Checked Int := narrow (truncated x)

/-- `new_w` and `new_h` -/
def scaledSides (w h targetSize : Int) : Checked (Int × Int) :=
  if w < h then do
    let newH ← floatToInt ((h : ℚ) / w * targetSize)
    return (targetSize, newH)
  else do
    let newW ← floatToInt ((w : ℚ) / h * targetSize)
    return (newW, targetSize)

/-- What is computed before a pixel is touched. -/
structure CropPlan where
  newW : Int
  newH : Int
  size : Int
  cropX : Int
  cropY : Int

/-- `(side - target_size) / 2` -/
def cropOffset (side targetSize : Int) : Checked Int := do
  let excess ← subInt side targetSize
  divInt excess 2

def cropPlan (w h targetSize : Int) : Checked CropPlan := do
  let (newW, newH) ← scaledSides w h targetSize
  let pixels ← mulInt newW newH
  let size ← mulInt pixels 3
  let cropX ← cropOffset newW targetSize
  let cropY ← cropOffset newH targetSize
  return { newW, newH, size, cropX, cropY }

/-- Where the bytes of a pixel begin. -/
def sourcePixel (srcW cropX cropY : Int) (y x : Nat) : Checked Nat := do
  let row ← addInt cropY y
  let place ← mulInt row srcW
  let place ← addInt place cropX
  let place ← mulInt place 3
  let column ← mulInt x 3
  ensure (0 ≤ place + column) .outOfBounds
  return (place + column).toNat

/-- Where a channel of a pixel goes. -/
def chwPlace (targetSize stride : Int) (y x c : Nat) : Checked Nat := do
  let plane ← mulInt c stride
  let row ← mulInt y targetSize
  let place ← addInt plane row
  let place ← addInt place x
  return place.toNat

def normalized (byte : UInt8) (mean stdDev : ℚ) : ℚ := ((byte.toNat : ℚ) / 255 - mean) / stdDev

/-- The three channels of a pixel. -/
def copyPixel (rgb : List UInt8) (srcW cropX cropY targetSize stride : Int)
    (mean stdDev : Fin 3 → ℚ) (y : Nat) (out : List ℚ) (x : Nat) : Checked (List ℚ) := do
  let px ← sourcePixel srcW cropX cropY y x
  (List.finRange 3).foldlM (fun out (c : Fin 3) => do
    let byte ← get rgb (px + c)
    let place ← chwPlace targetSize stride y x c
    writeAt out place [normalized byte (mean c) (stdDev c)]) out

/-- `rgb_to_chw_float` -/
def rgbToChwFloat (rgb : List UInt8) (srcW cropX cropY targetSize : Int) (out : List ℚ)
    (mean stdDev : Fin 3 → ℚ) : Checked (List ℚ) := do
  let stride ← mulInt targetSize targetSize
  forUpTo targetSize.toNat (fun out y =>
    forUpTo targetSize.toNat (copyPixel rgb srcW cropX cropY targetSize stride mean stdDev y) out)
    out

/-- A picture as the decoder returns it. -/
structure DecodedImage where
  width : Int
  height : Int
  pixels : List UInt8

/-- `stbir_resize_uint8_linear`: it fills the buffer it is given. -/
structure Scaler where
  resize : DecodedImage → Int → Int → List UInt8
  length_resize : ∀ image w h, 0 ≤ w → 0 ≤ h → ((resize image w h).length : Int) = w * h * 3

/-- `preprocess_image_to_buffer`, behind the decoder. -/
def preprocessImageToBuffer (scaler : Scaler) (decoded : Option DecodedImage) (out : List ℚ)
    (targetSize : Int) (mean stdDev : Fin 3 → ℚ) : Checked (Outcome (List ℚ)) :=
  match decoded with
  | none => .ok .threw
  | some image => do
    let plan ← cropPlan image.width image.height targetSize
    let resized := scaler.resize image plan.newW plan.newH
    let out ← rgbToChwFloat resized plan.newW plan.cropX plan.cropY targetSize out mean stdDev
    return .returned out

-- ---------------------------------------------------------------------------
-- The scaled sides
-- ---------------------------------------------------------------------------

theorem truncated_ratio {long short target : Int} (hlong : 1 ≤ long) (hshort : 1 ≤ short)
    (htarget : 1 ≤ target) :
    truncated ((long : ℚ) / short * target) = long * target / short := by
  obtain ⟨d, rfl⟩ := Int.eq_ofNat_of_zero_le (show 0 ≤ short by omega)
  have hratio : (long : ℚ) / ((d : Int) : ℚ) * target = ((long * target : Int) : ℚ) / (d : ℚ) := by
    push_cast
    ring
  have hnonneg : 0 ≤ ((long * target : Int) : ℚ) / (d : ℚ) := by
    have : 0 ≤ long * target := by positivity
    positivity
  rw [hratio, truncated, Int.tdiv_eq_ediv_of_nonneg (Rat.num_nonneg.mpr hnonneg), ← Rat.floor_def',
    Rat.floor_intCast_div_natCast]

/-- The sides after scaling: the shorter one is the target, the longer one in proportion. -/
theorem scaledSides_eq {w h target : Int} (hw : 1 ≤ w) (hh : 1 ≤ h) (htarget : 1 ≤ target) :
    scaledSides w h target =
      if w < h then (narrow (h * target / w)).map fun newH => (target, newH)
      else (narrow (w * target / h)).map fun newW => (newW, target) := by
  unfold scaledSides floatToInt
  rw [truncated_ratio hh hw htarget, truncated_ratio hw hh htarget]
  split
  · cases narrow (h * target / w) <;> rfl
  · cases narrow (w * target / h) <;> rfl

theorem target_le_scaled {long short target : Int} (hshort : 1 ≤ short) (hle : short ≤ long)
    (htarget : 1 ≤ target) : target ≤ long * target / short := by
  rw [Int.le_ediv_iff_mul_le (by omega), Int.mul_comm]
  exact Int.mul_le_mul_of_nonneg_right hle (by omega)

/-- The ratio of the sides that a buffer of `int` size holds. -/
theorem scaled_fits_iff {long short target : Int} (hshort : 1 ≤ short) (htarget : 1 ≤ target) :
    long * target / short * target * 3 ≤ intMax ↔
      long * target < short * (intMax / (3 * target) + 1) := by
  have hthree : 0 < 3 * target := by omega
  rw [show long * target / short * target * 3 = long * target / short * (3 * target) by ring,
    ← Int.le_ediv_iff_mul_le hthree, ← Int.lt_add_one_iff, Int.ediv_lt_iff_lt_mul (by omega),
    Int.mul_comm short]

-- ---------------------------------------------------------------------------
-- The plan
-- ---------------------------------------------------------------------------

theorem cropOffset_eq {side target : Int} (htarget : 1 ≤ target) (hle : target ≤ side)
    (hmax : side ≤ intMax) : cropOffset side target = .ok ((side - target) / 2) := by
  have hmax' : side ≤ 2147483647 := hmax
  have hsub : subInt side target = .ok (side - target) :=
    narrow_eq (fitsInt_iff.mpr ⟨by omega, by omega⟩)
  rw [cropOffset, hsub, ok_bind, divInt_ok, Int.tdiv_eq_ediv_of_nonneg (by omega), fitsInt_iff]
  omega

/-- The sides of a plan and what its buffer holds. -/
def CropPlan.of (newW newH target : Int) : CropPlan where
  newW := newW
  newH := newH
  size := newW * newH * 3
  cropX := (newW - target) / 2
  cropY := (newH - target) / 2

/-- Sides that reach the target and fit into a buffer. -/
structure Sides (newW newH target : Int) : Prop where
  target_pos : 1 ≤ target
  wide : target ≤ newW
  tall : target ≤ newH
  fits : newW * newH * 3 ≤ intMax

variable {newW newH target : Int}

/-- Every product of a row, a column and three is at most the size of the buffer. -/
theorem Sides.place_le (h : Sides newW newH target) {row column : Int} (hrow : 0 ≤ row)
    (hrowLt : row < newH) (hcolumn : 0 ≤ column) (hcolumnLt : column < newW) :
    0 ≤ row * newW ∧ (row * newW + column) * 3 + 3 ≤ newW * newH * 3 := by
  have hpos := h.target_pos
  have hwide := h.wide
  have hproduct : (row + 1) * newW ≤ newH * newW :=
    Int.mul_le_mul_of_nonneg_right (by omega) (by omega)
  have hnonneg : 0 ≤ row * newW := Int.mul_nonneg hrow (by omega)
  have hrowNext : (row + 1) * newW = row * newW + newW := by ring
  have hswap : newH * newW = newW * newH := Int.mul_comm ..
  omega

theorem Sides.sides_le (h : Sides newW newH target) : newW ≤ intMax ∧ newH ≤ intMax := by
  have hpos := h.target_pos
  have hwide := h.wide
  have htall := h.tall
  have hfits := h.fits
  have hw : newW * 1 ≤ newW * newH := Int.mul_le_mul_of_nonneg_left (by omega) (by omega)
  have hh : 1 * newH ≤ newW * newH := Int.mul_le_mul_of_nonneg_right (by omega) (by omega)
  omega

theorem cropPlan_eq {w h : Int} (hsides : scaledSides w h target = .ok (newW, newH))
    (hs : Sides newW newH target) : cropPlan w h target = .ok (.of newW newH target) := by
  have hpos := hs.target_pos
  have hwide := hs.wide
  have htall := hs.tall
  have hfits : newW * newH * 3 ≤ 2147483647 := hs.fits
  obtain ⟨hwmax, hhmax⟩ := hs.sides_le
  have hproduct : 0 ≤ newW * newH := Int.mul_nonneg (by omega) (by omega)
  have hpixels : mulInt newW newH = .ok (newW * newH) :=
    narrow_eq (fitsInt_iff.mpr ⟨by omega, by omega⟩)
  have hsize : mulInt (newW * newH) 3 = .ok (newW * newH * 3) :=
    narrow_eq (fitsInt_iff.mpr ⟨by omega, hfits⟩)
  rw [cropPlan, hsides, ok_bind]
  dsimp only
  rw [hpixels, ok_bind, hsize, ok_bind, cropOffset_eq hpos hwide hwmax, ok_bind,
    cropOffset_eq hpos htall hhmax]
  rfl

theorem fits_of_cropPlan {w h : Int} {plan : CropPlan} (hplan : cropPlan w h target = .ok plan) :
    ∃ newW newH, scaledSides w h target = .ok (newW, newH) ∧ newW * newH * 3 ≤ intMax := by
  simp only [cropPlan, bind_ok] at hplan
  obtain ⟨⟨newW, newH⟩, hsides, pixels, hpixels, size, hsize, -⟩ := hplan
  obtain ⟨-, rfl⟩ := narrow_ok.mp hpixels
  exact ⟨newW, newH, hsides, (narrow_ok.mp hsize).1.2⟩

-- ---------------------------------------------------------------------------
-- The pixels
-- ---------------------------------------------------------------------------

/-- The crop is inside the picture. -/
theorem Sides.crop_lt {side target : Int} (hle : target ≤ side) {i : Nat} (hi : (i : Int) < target) :
    0 ≤ (side - target) / 2 + i ∧ (side - target) / 2 + i < side := by
  omega

theorem sourcePixel_ok (hs : Sides newW newH target) {y x : Nat} (hy : (y : Int) < target)
    (hx : (x : Int) < target) :
    ∃ px, sourcePixel newW ((newW - target) / 2) ((newH - target) / 2) y x = .ok px ∧
      (px : Int) + 3 ≤ newW * newH * 3 := by
  have hwide := hs.wide
  have htall := hs.tall
  have hfits : newW * newH * 3 ≤ 2147483647 := hs.fits
  obtain ⟨hrow, hrowLt⟩ := Sides.crop_lt htall hy
  obtain ⟨hcolumn, hcolumnLt⟩ := Sides.crop_lt hwide hx
  obtain ⟨hnonneg, hplace⟩ := hs.place_le hrow hrowLt hcolumn hcolumnLt
  obtain ⟨hwmax, hhmax⟩ := hs.sides_le
  have hwmax : newW ≤ 2147483647 := hwmax
  have hhmax : newH ≤ 2147483647 := hhmax
  have hadd : addInt ((newH - target) / 2) y = .ok ((newH - target) / 2 + y) :=
    narrow_eq (fitsInt_iff.mpr ⟨by omega, by omega⟩)
  generalize hr : (newH - target) / 2 + (y : Int) = row at *
  have hmul : mulInt row newW = .ok (row * newW) :=
    narrow_eq (fitsInt_iff.mpr ⟨by omega, by omega⟩)
  have hcrop : addInt (row * newW) ((newW - target) / 2) =
      .ok (row * newW + (newW - target) / 2) :=
    narrow_eq (fitsInt_iff.mpr ⟨by omega, by omega⟩)
  have hthree : mulInt (row * newW + (newW - target) / 2) 3 =
      .ok ((row * newW + (newW - target) / 2) * 3) :=
    narrow_eq (fitsInt_iff.mpr ⟨by omega, by omega⟩)
  have hx3 : mulInt x 3 = .ok ((x : Int) * 3) :=
    narrow_eq (fitsInt_iff.mpr ⟨by omega, by omega⟩)
  refine ⟨((row * newW + (newW - target) / 2) * 3 + x * 3).toNat, ?_, by omega⟩
  rw [sourcePixel, hadd, ok_bind, hmul, ok_bind, hcrop, ok_bind, hthree, ok_bind, hx3, ok_bind,
    ensure_pos (by omega), ok_bind]
  rfl

theorem Sides.planes_le (hs : Sides newW newH target) : target * target * 3 ≤ intMax := by
  have hpos := hs.target_pos
  have hfits := hs.fits
  have hproduct : target * target ≤ newW * newH :=
    Int.mul_le_mul hs.wide hs.tall (by omega) (by have := hs.wide; omega)
  omega

theorem chwPlace_ok (hs : Sides newW newH target) {y x : Nat} (hy : (y : Int) < target)
    (hx : (x : Int) < target) (c : Fin 3) :
    ∃ place, chwPlace target (target * target) y x c = .ok place ∧
      (place : Int) + 1 ≤ target * target * 3 := by
  have hpos := hs.target_pos
  have hplanes : target * target * 3 ≤ 2147483647 := hs.planes_le
  have hc : ((c : Nat) : Int) ≤ 2 := by omega
  have hstride : 0 ≤ target * target := Int.mul_nonneg (by omega) (by omega)
  have hplane : ((c : Nat) : Int) * (target * target) ≤ 2 * (target * target) :=
    Int.mul_le_mul_of_nonneg_right hc hstride
  have hplanePos : 0 ≤ ((c : Nat) : Int) * (target * target) := Int.mul_nonneg (by omega) hstride
  have hrow : ((y : Int) + 1) * target ≤ target * target :=
    Int.mul_le_mul_of_nonneg_right (by omega) (by omega)
  have hrowNext : ((y : Int) + 1) * target = y * target + target := by ring
  have hrowPos : 0 ≤ (y : Int) * target := Int.mul_nonneg (by omega) (by omega)
  have hmulPlane : mulInt (c : Nat) (target * target) = .ok ((c : Nat) * (target * target)) :=
    narrow_eq (fitsInt_iff.mpr ⟨by omega, by omega⟩)
  have hmulRow : mulInt y target = .ok ((y : Int) * target) :=
    narrow_eq (fitsInt_iff.mpr ⟨by omega, by omega⟩)
  have haddRow : addInt ((c : Nat) * (target * target)) (y * target) =
      .ok ((c : Nat) * (target * target) + y * target) :=
    narrow_eq (fitsInt_iff.mpr ⟨by omega, by omega⟩)
  have haddColumn : addInt ((c : Nat) * (target * target) + y * target) x =
      .ok ((c : Nat) * (target * target) + y * target + x) :=
    narrow_eq (fitsInt_iff.mpr ⟨by omega, by omega⟩)
  refine ⟨((c : Nat) * (target * target) + y * target + x : Int).toNat, ?_, by omega⟩
  rw [chwPlace, hmulPlane, ok_bind, hmulRow, ok_bind, haddRow, ok_bind, haddColumn]
  rfl

/-- A loop whose every step succeeds and keeps the length of the output. -/
theorem foldlM_keeps {α : Type} {body : List ℚ → α → Checked (List ℚ)} {n : Nat} (xs : List α)
    (h : ∀ out, out.length = n → ∀ x ∈ xs, ∃ out', body out x = .ok out' ∧ out'.length = n)
    {out : List ℚ} (hout : out.length = n) :
    ∃ out', xs.foldlM body out = .ok out' ∧ out'.length = n := by
  induction xs generalizing out with
  | nil => exact ⟨out, rfl, hout⟩
  | cons x xs ih =>
    obtain ⟨mid, hmid, hlength⟩ := h out hout x List.mem_cons_self
    obtain ⟨last, hlast, hlength'⟩ :=
      ih (fun out hout y hy => h out hout y (List.mem_cons_of_mem x hy)) hlength
    exact ⟨last, by rw [List.foldlM_cons, hmid, ok_bind, hlast], hlength'⟩

variable {rgb : List UInt8} {mean stdDev : Fin 3 → ℚ} {n : Nat}

theorem copyPixel_ok (hs : Sides newW newH target) (hrgb : (rgb.length : Int) = newW * newH * 3)
    (hn : (n : Int) = target * target * 3) {y x : Nat} (hy : (y : Int) < target)
    (hx : (x : Int) < target) {out : List ℚ} (hout : out.length = n) :
    ∃ out', copyPixel rgb newW ((newW - target) / 2) ((newH - target) / 2) target
      (target * target) mean stdDev y out x = .ok out' ∧ out'.length = n := by
  obtain ⟨px, hpx, hinside⟩ := sourcePixel_ok hs hy hx
  rw [copyPixel, hpx, ok_bind]
  refine foldlM_keeps _ (fun out hout c _ => ?_) hout
  obtain ⟨byte, hbyte⟩ : ∃ byte, get rgb (px + c) = .ok byte := by
    have hlt : px + c < rgb.length := by omega
    exact ⟨_, get_ok.mpr (List.getElem?_eq_getElem hlt)⟩
  obtain ⟨place, hplace, hroom⟩ := chwPlace_ok hs hy hx c
  have hwrites : place + [normalized byte (mean c) (stdDev c)].length ≤ out.length := by
    rw [List.length_singleton]
    omega
  obtain ⟨out', hwrite⟩ : ∃ out', writeAt out place [normalized byte (mean c) (stdDev c)] =
      .ok out' := ⟨_, writeAt_ok.mpr ⟨hwrites, rfl⟩⟩
  exact ⟨out', by rw [hbyte, ok_bind, hplace, ok_bind, hwrite], (length_of_writeAt hwrite).trans hout⟩

/-- Every read is inside the scaled picture and every write inside the planes. -/
theorem rgbToChwFloat_ok (hs : Sides newW newH target)
    (hrgb : (rgb.length : Int) = newW * newH * 3) (hn : (n : Int) = target * target * 3)
    {out : List ℚ} (hout : out.length = n) :
    ∃ out', rgbToChwFloat rgb newW ((newW - target) / 2) ((newH - target) / 2) target out mean
      stdDev = .ok out' ∧ out'.length = n := by
  have hpos := hs.target_pos
  have hplanes : target * target * 3 ≤ 2147483647 := hs.planes_le
  have hstride : mulInt target target = .ok (target * target) :=
    narrow_eq (fitsInt_iff.mpr ⟨by omega, by omega⟩)
  rw [rgbToChwFloat, hstride, ok_bind]
  refine foldlM_keeps _ (fun out hout y hy => ?_) hout
  refine foldlM_keeps _ (fun out hout x hx => ?_) hout
  have hy := List.mem_range.mp hy
  have hx := List.mem_range.mp hx
  exact copyPixel_ok hs hrgb hn (by omega) (by omega) hout

-- ---------------------------------------------------------------------------
-- Pictures
-- ---------------------------------------------------------------------------

/-- A side of a decoded picture, or the size it is to have. -/
abbrev Side := { n : Int // 1 ≤ n ∧ n ≤ intMax }

/-- The sides reach the target, the size of the buffer is an `int`, the crop begins inside the
picture, and every pixel that is read lies inside the buffer. -/
structure Sound (w h target : Int) (plan : CropPlan) : Prop where
  planned : cropPlan w h target = .ok plan
  wide : target ≤ plan.newW
  tall : target ≤ plan.newH
  size : plan.size = plan.newW * plan.newH * 3 ∧ plan.size ≤ intMax
  cropX : 0 ≤ plan.cropX
  cropY : 0 ≤ plan.cropY
  reads : ∀ (rgb : List UInt8) (out : List ℚ) (mean stdDev : Fin 3 → ℚ),
    (rgb.length : Int) = plan.size → (out.length : Int) = target * target * 3 →
    ∃ out', rgbToChwFloat rgb plan.newW plan.cropX plan.cropY target out mean stdDev = .ok out'

theorem sound_of_sides {w h : Int} (hsides : scaledSides w h target = .ok (newW, newH))
    (hs : Sides newW newH target) : Sound w h target (.of newW newH target) where
  planned := cropPlan_eq hsides hs
  wide := hs.wide
  tall := hs.tall
  size := ⟨rfl, hs.fits⟩
  cropX := Int.ediv_nonneg (Int.sub_nonneg.mpr hs.wide) (by decide)
  cropY := Int.ediv_nonneg (Int.sub_nonneg.mpr hs.tall) (by decide)
  reads rgb out mean stdDev hrgb hout := by
    obtain ⟨out', hrun, -⟩ := rgbToChwFloat_ok (n := out.length) hs hrgb hout rfl
    exact ⟨out', hrun⟩

/-- One side is the target and the other `q`: the buffer has room for both or there is no plan. -/
theorem sound_iff_fits {w h q : Int} {sides : Int → Int × Int}
    (hsides : sides q = (target, q) ∨ sides q = (q, target))
    (hscaled : scaledSides w h target = (narrow q).map sides) (htarget : 1 ≤ target)
    (hq : target ≤ q) : (∃ plan, Sound w h target plan) ↔ q * target * 3 ≤ intMax := by
  have hproduct : (sides q).1 * (sides q).2 * 3 = q * target * 3 := by
    rcases hsides with heq | heq
    · rw [heq, Int.mul_comm target]
    · rw [heq]
  constructor
  · rintro ⟨plan, hplan⟩
    obtain ⟨newW, newH, hsame, hfits⟩ := fits_of_cropPlan hplan.planned
    rw [hscaled, map_ok] at hsame
    obtain ⟨_, hnarrow, hpair⟩ := hsame
    obtain ⟨-, rfl⟩ := narrow_ok.mp hnarrow
    rw [← hproduct, hpair]
    exact hfits
  · intro hfits
    have hs : Sides (sides q).1 (sides q).2 target := by
      refine ⟨htarget, ?_, ?_, hproduct ▸ hfits⟩
      · rcases hsides with heq | heq
        · rw [heq]
        · rwa [heq]
      · rcases hsides with heq | heq
        · rwa [heq]
        · rw [heq]
    have hmax : q ≤ intMax := by
      rcases hsides with heq | heq
      · simpa [heq] using hs.sides_le.2
      · simpa [heq] using hs.sides_le.1
    have hnarrow : narrow q = .ok q := narrow_eq ⟨by unfold intMin; omega, hmax⟩
    exact ⟨_, sound_of_sides (by rw [hscaled, hnarrow]; rfl) hs⟩

theorem sound_iff (w h target : Side) :
    (∃ plan, Sound w.val h.val target.val plan) ↔
      max w.val h.val * target.val < min w.val h.val * (intMax / (3 * target.val) + 1) := by
  obtain ⟨w, hw, -⟩ := w
  obtain ⟨h, hh, -⟩ := h
  obtain ⟨target, htarget, -⟩ := target
  dsimp only
  have hscaled := scaledSides_eq hw hh htarget
  rcases lt_or_ge w h with hlt | hge
  · rw [max_eq_right hlt.le, min_eq_left hlt.le, ← scaled_fits_iff hw htarget]
    rw [if_pos hlt] at hscaled
    exact sound_iff_fits (.inl rfl) hscaled htarget (target_le_scaled hw hlt.le htarget)
  · rw [max_eq_left hge, min_eq_right hge, ← scaled_fits_iff hh htarget]
    rw [if_neg (not_lt.mpr hge)] at hscaled
    exact sound_iff_fits (.inr rfl) hscaled htarget (target_le_scaled hh hge htarget)

/-- The whole of the preprocessing, where the condition on the sides is met. -/
theorem preprocess_ok (scaler : Scaler) (image : DecodedImage) {plan : CropPlan} {out : List ℚ}
    (hplan : Sound image.width image.height target plan) (htarget : 1 ≤ target)
    (hout : (out.length : Int) = target * target * 3) (mean stdDev : Fin 3 → ℚ) :
    ∃ out', preprocessImageToBuffer scaler (some image) out target mean stdDev =
      .ok (.returned out') := by
  have hwide := hplan.wide
  have htall := hplan.tall
  have hlength : ((scaler.resize image plan.newW plan.newH).length : Int) = plan.size := by
    rw [scaler.length_resize image _ _ (by omega) (by omega), hplan.size.1]
  obtain ⟨out', hrun⟩ := hplan.reads _ out mean stdDev hlength hout
  refine ⟨out', ?_⟩
  rw [preprocessImageToBuffer]
  dsimp only
  rw [hplan.planned, ok_bind, hrun]
  rfl

/-- A picture of one column and 14300 rows, at 224. -/
theorem long_picture_overflows :
    ¬ ∀ w h target : Side, ∃ plan, Sound w.val h.val target.val plan := by
  intro h
  obtain ⟨plan, hplan⟩ := h ⟨1, by decide⟩ ⟨14300, by decide⟩ ⟨224, by decide⟩
  have hscaled : scaledSides 1 14300 224 =
      (narrow (14300 * 224 / 1)).map fun newH => (224, newH) :=
    scaledSides_eq (by decide) (by decide) (by decide)
  have hfits := (sound_iff_fits (.inl rfl) hscaled (by decide) (by decide)).mp ⟨plan, hplan⟩
  exact absurd hfits (by decide)

end ImagePreprocess

end LibEmbedding
