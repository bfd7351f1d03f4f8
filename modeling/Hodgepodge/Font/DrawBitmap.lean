/-
`ft2wrap::my_draw_bitmap` (ft2wrap.h): a bitmap of alpha values is blended into an image of three 8-bit channels, with
its corner at column `x` and row `y`. Four tests cut the rectangle down to the image; the loops then run over the bitmap
coordinates of what is left, and `i * pitch` is the offset of a row.

Model: every access to the buffer and to the image is checked, and every signed operation can overflow. `width` and
`rows` are unsigned: the corner is added to them modulo 2^32, and the sum is converted back. The sides of image and
bitmap and the corner are below 2^30. That bounds neither `i * pitch` nor the products of a channel, which are an int
times an alpha value.

Results:
- `pixel_iff`, `row_iff`: one pixel, one row.
- `draw_clips_iff`: a call has a result exactly if no offset and no product overflows, and then it has blended the
  pixels of the image that the bitmap covers, once each, and no others.
- `wide_pitch_overflows`: an offset that overflows.
-/
import Hodgepodge.Core.Checked
import Hodgepodge.Core.Loop

namespace Hodgepodge.Ft2wrap

open Hodgepodge.Core Hodgepodge.Core.Checked

/-! ## Model -/

/-- `Vec3b`, and the `int c[]` of a colour -/
structure Vec3 (α : Type*) where
  c0 : α
  c1 : α
  c2 : α
deriving DecidableEq

structure Mat where
  rows : ℤ
  cols : ℤ
  /-- the pixel in a row and a column -/
  pixel : ℤ → ℤ → Vec3 UInt8

/-- `FT_Bitmap` in the mode FT_RENDER_MODE_NORMAL; the buffer has `rows * pitch` bytes -/
structure Bitmap where
  rows : ℤ
  width : ℤ
  pitch : ℤ
  buffer : ℤ → UInt8

def Mat.Inside (img : Mat) (r c : ℤ) : Prop := 0 ≤ r ∧ r < img.rows ∧ 0 ≤ c ∧ c < img.cols

instance (img : Mat) (r c : ℤ) : Decidable (img.Inside r c) := by unfold Mat.Inside; infer_instance

/-- a byte of the buffer -/
def Bitmap.read (bitmap : Bitmap) (k : ℤ) : Option UInt8 :=
  if 0 ≤ k ∧ k < bitmap.rows * bitmap.pitch then some (bitmap.buffer k) else none

/-- `(src * (255 - val) + c * val) / 256`, stored in an unsigned char -/
def blendChannel (val : UInt8) (c : ℤ) (src : UInt8) : Option UInt8 :=
  (int (src.toNat * (255 - val.toNat))).bind fun old =>
  (int (c * val.toNat)).bind fun new =>
  (int (old + new)).bind fun sum =>
  (quot half32 sum 256).map fun q => UInt8.ofInt q

def blendPixel (val : UInt8) (color : Vec3 ℤ) (src : Vec3 UInt8) : Option (Vec3 UInt8) :=
  (blendChannel val color.c0 src.c0).bind fun c0 =>
  (blendChannel val color.c1 src.c1).bind fun c1 =>
  (blendChannel val color.c2 src.c2).map fun c2 => ⟨c0, c1, c2⟩

/-- the pixel at `img.at<Vec3b>(r, c)` is blended -/
def Mat.blend (img : Mat) (r c : ℤ) (val : UInt8) (color : Vec3 ℤ) : Option Mat :=
  if img.Inside r c then
    (blendPixel val color (img.pixel r c)).map fun v =>
      { img with pixel := fun r' c' => if r' = r ∧ c' = c then v else img.pixel r' c' }
  else none

/-- the body of the inner loop; `offset` is where `alpha` points to -/
def drawPixel (bitmap : Bitmap) (x y : ℤ) (color : Vec3 ℤ) (i offset j : ℤ) (img : Mat) : Option Mat :=
  (bitmap.read (offset + j)).bind fun val =>
    if val = 0 then some img
    else
      (int (i + y)).bind fun r =>
      (int (j + x)).bind fun c => img.blend r c val color

/-- the body of the outer loop -/
def drawRow (bitmap : Bitmap) (x y : ℤ) (color : Vec3 ℤ) (j0 j1 i : ℤ) (img : Mat) : Option Mat :=
  (int (i * bitmap.pitch)).bind fun offset => forInt j0 j1 (drawPixel bitmap x y color i offset) img

def myDrawBitmap (img : Mat) (bitmap : Bitmap) (x y : ℤ) (color : Vec3 ℤ) : Option Mat :=
  let x0 := if x < 0 then 0 else x
  let y0 := if y < 0 then 0 else y
  let x1 := wrap (x + bitmap.width)
  let y1 := wrap (y + bitmap.rows)
  let x1 := if img.cols < x1 then img.cols else x1
  let y1 := if img.rows < y1 then img.rows else y1
  (int (y0 - y)).bind fun i0 =>
  (int (y1 - y)).bind fun i1 =>
  (int (x0 - x)).bind fun j0 =>
  (int (x1 - x)).bind fun j1 => forInt i0 i1 (drawRow bitmap x y color j0 j1) img

/-! ## What a call should leave -/

/-- the alpha value of the bitmap pixel in row `i` and column `j` -/
def Bitmap.alpha (bitmap : Bitmap) (i j : ℤ) : UInt8 := bitmap.buffer (i * bitmap.pitch + j)

/-- the exact value of a channel -/
def mixChannel (val : UInt8) (c : ℤ) (src : UInt8) : UInt8 :=
  UInt8.ofInt ((src.toNat * (255 - val.toNat) + c * val.toNat : ℤ).tdiv 256)

def mixPixel (val : UInt8) (color : Vec3 ℤ) (src : Vec3 UInt8) : Vec3 UInt8 :=
  ⟨mixChannel val color.c0 src.c0, mixChannel val color.c1 src.c1, mixChannel val color.c2 src.c2⟩

/-- blended once with the alpha value that the bitmap has for it, unless that is 0 -/
def shade (bitmap : Bitmap) (x y : ℤ) (color : Vec3 ℤ) (r c : ℤ) (src : Vec3 UInt8) : Vec3 UInt8 :=
  if bitmap.alpha (r - y) (c - x) = 0 then src else mixPixel (bitmap.alpha (r - y) (c - x)) color src

/-- the bitmap has a pixel for row `r` and column `c` of the image -/
def Bitmap.Covers (bitmap : Bitmap) (x y r c : ℤ) : Prop :=
  0 ≤ r - y ∧ r - y < bitmap.rows ∧ 0 ≤ c - x ∧ c - x < bitmap.width

instance (bitmap : Bitmap) (x y r c : ℤ) : Decidable (bitmap.Covers x y r c) := by
  unfold Bitmap.Covers; infer_instance

/-- the image with the pixels of `S` blended once -/
def paint (img : Mat) (bitmap : Bitmap) (x y : ℤ) (color : Vec3 ℤ) (S : ℤ → ℤ → Prop)
    [∀ r c, Decidable (S r c)] : Mat :=
  { img with pixel := fun r c => if S r c then shade bitmap x y color r c (img.pixel r c) else img.pixel r c }

/-- the pixels of the image that the bitmap covers are blended, and no others -/
def clipped (img : Mat) (bitmap : Bitmap) (x y : ℤ) (color : Vec3 ℤ) : Mat :=
  paint img bitmap x y color fun r c => img.Inside r c ∧ bitmap.Covers x y r c

/-- no product of a channel overflows -/
def ChannelFits (val : UInt8) (c : ℤ) (src : UInt8) : Prop :=
  Fits half32 (c * val.toNat) ∧ Fits half32 (src.toNat * (255 - val.toNat) + c * val.toNat)

def PixelFits (val : UInt8) (color : Vec3 ℤ) (src : Vec3 UInt8) : Prop :=
  ChannelFits val color.c0 src.c0 ∧ ChannelFits val color.c1 src.c1 ∧ ChannelFits val color.c2 src.c2

/-- the sides and the corner of a call -/
structure Sizes (img : Mat) (bitmap : Bitmap) (x y : ℤ) : Prop where
  imgRows : 0 ≤ img.rows ∧ img.rows < 1073741824
  imgCols : 0 ≤ img.cols ∧ img.cols < 1073741824
  rows : 0 ≤ bitmap.rows ∧ bitmap.rows < 1073741824
  width : 0 ≤ bitmap.width
  pitch : bitmap.width ≤ bitmap.pitch ∧ bitmap.pitch < 1073741824
  x : -1073741824 < x ∧ x < 1073741824
  y : -1073741824 < y ∧ y < 1073741824

/-- the offsets of the bitmap rows that fall on rows of the image fit an int -/
def OffsetsFit (img : Mat) (bitmap : Bitmap) (y : ℤ) : Prop :=
  ∀ i, 0 ≤ i → i < bitmap.rows → 0 ≤ i + y → i + y < img.rows → i * bitmap.pitch < half32

/-- the products of the pixels that are blended fit an int -/
def ProductsFit (img : Mat) (bitmap : Bitmap) (x y : ℤ) (color : Vec3 ℤ) : Prop :=
  ∀ r c, img.Inside r c → bitmap.Covers x y r c → bitmap.alpha (r - y) (c - x) ≠ 0 →
    PixelFits (bitmap.alpha (r - y) (c - x)) color (img.pixel r c)

/-! ## One pixel -/

/-- what is left of the old value always fits -/
theorem old_fits (val src : UInt8) : Fits half32 (src.toNat * (255 - val.toNat)) := by
  have hsrc := src.toNat_lt
  have hval := val.toNat_lt
  have hle : (src.toNat : ℤ) * (255 - val.toNat) ≤ 255 * 255 :=
    Int.mul_le_mul (by omega) (by omega) (by omega) (by omega)
  have hnonneg : 0 ≤ (src.toNat : ℤ) * (255 - val.toNat) := Int.mul_nonneg (by omega) (by omega)
  unfold Fits half32
  omega

theorem blendChannel_iff {val src v : UInt8} {c : ℤ} :
    blendChannel val c src = some v ↔ ChannelFits val c src ∧ v = mixChannel val c src := by
  unfold blendChannel mixChannel
  rw [int, signed_fits (old_fits val src), Option.bind_some]
  simp only [Option.bind_eq_some_iff, Option.map_eq_some_iff, signed_eq]
  constructor
  · rintro ⟨new, ⟨rfl, hnew⟩, sum, ⟨rfl, hsum⟩, q, hq, rfl⟩
    rw [quot_pos (by decide) hsum] at hq
    cases hq
    exact ⟨⟨hnew, hsum⟩, rfl⟩
  · rintro ⟨⟨hnew, hsum⟩, rfl⟩
    exact ⟨_, ⟨rfl, hnew⟩, _, ⟨rfl, hsum⟩, _, quot_pos (by decide) hsum, rfl⟩

theorem blendPixel_iff {val : UInt8} {color : Vec3 ℤ} {src v : Vec3 UInt8} :
    blendPixel val color src = some v ↔ PixelFits val color src ∧ v = mixPixel val color src := by
  unfold blendPixel PixelFits mixPixel
  simp only [Option.bind_eq_some_iff, Option.map_eq_some_iff, blendChannel_iff]
  constructor
  · rintro ⟨c0, ⟨h0, rfl⟩, c1, ⟨h1, rfl⟩, c2, ⟨h2, rfl⟩, rfl⟩
    exact ⟨⟨h0, h1, h2⟩, rfl⟩
  · rintro ⟨⟨h0, h1, h2⟩, rfl⟩
    exact ⟨_, ⟨h0, rfl⟩, _, ⟨h1, rfl⟩, _, ⟨h2, rfl⟩, rfl⟩

section

variable {img img' : Mat} {bitmap : Bitmap} {x y i j : ℤ} {color : Vec3 ℤ} {S T : ℤ → ℤ → Prop}
  [∀ r c, Decidable (S r c)] [∀ r c, Decidable (T r c)]

theorem paint_eq
    (h : ∀ r c, (if S r c then shade bitmap x y color r c (img.pixel r c) else img.pixel r c) =
      if T r c then shade bitmap x y color r c (img.pixel r c) else img.pixel r c) :
    paint img bitmap x y color S = paint img bitmap x y color T := by
  unfold paint
  simp only [h]

theorem paint_congr (h : ∀ r c, S r c ↔ T r c) : paint img bitmap x y color S = paint img bitmap x y color T :=
  paint_eq fun r c => by simp only [h]

theorem paint_none (h : ∀ r c, ¬ S r c) : paint img bitmap x y color S = img := by
  simp only [paint, h, if_false]

/-- a pixel with alpha 0 is as good as painted -/
theorem paint_transparent (h : bitmap.alpha i j = 0) :
    paint img bitmap x y color S = paint img bitmap x y color fun r c => S r c ∨ r = i + y ∧ c = j + x := by
  refine paint_eq ?_
  intro r c
  by_cases hrc : r = i + y ∧ c = j + x
  · obtain ⟨rfl, rfl⟩ := hrc
    have hshade : ∀ src, shade bitmap x y color (i + y) (j + x) src = src := by
      intro src
      rw [shade, Int.add_sub_cancel, Int.add_sub_cancel, if_pos h]
    simp only [hshade, ite_self]
  · simp only [hrc, or_false]

/-- blending a pixel that has not been painted paints it -/
theorem paint_pixel (h : bitmap.alpha i j ≠ 0) :
    { paint img bitmap x y color S with
      pixel := fun r c =>
        if r = i + y ∧ c = j + x then mixPixel (bitmap.alpha i j) color (img.pixel (i + y) (j + x))
        else (paint img bitmap x y color S).pixel r c } =
      paint img bitmap x y color fun r c => S r c ∨ r = i + y ∧ c = j + x := by
  simp only [paint, Mat.mk.injEq, true_and]
  funext r c
  by_cases hrc : r = i + y ∧ c = j + x
  · obtain ⟨rfl, rfl⟩ := hrc
    simp only [and_self, or_true, if_true, shade, Int.add_sub_cancel, if_neg h]
  · simp only [hrc, or_false, if_false]

/-- the body of the inner loop on a pixel that has not been painted -/
theorem pixel_iff (hsize : Sizes img bitmap x y) (hi : 0 ≤ i ∧ i < bitmap.rows) (hj : 0 ≤ j ∧ j < bitmap.width)
    (hin : img.Inside (i + y) (j + x)) (hS : ¬ S (i + y) (j + x)) :
    drawPixel bitmap x y color i (i * bitmap.pitch) j (paint img bitmap x y color S) = some img' ↔
      (bitmap.alpha i j ≠ 0 → PixelFits (bitmap.alpha i j) color (img.pixel (i + y) (j + x))) ∧
        img' = paint img bitmap x y color fun r c => S r c ∨ r = i + y ∧ c = j + x := by
  have hpitch := hsize.pitch
  have hrows := hsize.imgRows
  have hcols := hsize.imgCols
  have hread : bitmap.read (i * bitmap.pitch + j) = some (bitmap.alpha i j) := by
    have hnext : (i + 1) * bitmap.pitch ≤ bitmap.rows * bitmap.pitch :=
      Int.mul_le_mul_of_nonneg_right (by omega) (by omega)
    rw [Int.add_mul, Int.one_mul] at hnext
    have hoff : 0 ≤ i * bitmap.pitch := Int.mul_nonneg hi.1 (by omega)
    exact if_pos ⟨by omega, by omega⟩
  have hrow : int (i + y) = some (i + y) := signed_fits (by have := hin.1; have := hin.2.1; unfold Fits half32; omega)
  have hcol : int (j + x) = some (j + x) :=
    signed_fits (by have := hin.2.2.1; have := hin.2.2.2; unfold Fits half32; omega)
  unfold drawPixel
  rw [hread, Option.bind_some]
  by_cases h0 : bitmap.alpha i j = 0
  · rw [if_pos h0, Option.some.injEq, ← paint_transparent h0]
    exact ⟨fun h => ⟨fun hne => absurd h0 hne, h.symm⟩, fun h => h.2.symm⟩
  · have hsrc : (paint img bitmap x y color S).pixel (i + y) (j + x) = img.pixel (i + y) (j + x) := if_neg hS
    have hin' : (paint img bitmap x y color S).Inside (i + y) (j + x) := hin
    rw [if_neg h0, hrow, Option.bind_some, hcol, Option.bind_some, Mat.blend, if_pos hin', hsrc]
    simp only [Option.map_eq_some_iff, blendPixel_iff]
    constructor
    · rintro ⟨v, ⟨hfits, rfl⟩, rfl⟩
      exact ⟨fun _ => hfits, paint_pixel h0⟩
    · rintro ⟨hfits, rfl⟩
      exact ⟨_, ⟨hfits h0, rfl⟩, paint_pixel h0⟩

/-- the body of the outer loop on a row of which nothing has been painted, between the columns `x0` and `x1` -/
theorem row_iff {x0 x1 : ℤ} (hsize : Sizes img bitmap x y) (hi : 0 ≤ i ∧ i < bitmap.rows)
    (hrow : 0 ≤ i + y ∧ i + y < img.rows) (hx0 : x ≤ x0 ∧ 0 ≤ x0) (hx1 : x1 ≤ x + bitmap.width ∧ x1 ≤ img.cols)
    (hS : ∀ c, ¬ S (i + y) c) :
    drawRow bitmap x y color (x0 - x) (x1 - x) i (paint img bitmap x y color S) = some img' ↔
      (i * bitmap.pitch < half32 ∧
        ∀ c, x0 ≤ c → c < x1 → bitmap.alpha i (c - x) ≠ 0 →
          PixelFits (bitmap.alpha i (c - x)) color (img.pixel (i + y) c)) ∧
        img' = paint img bitmap x y color fun r c => S r c ∨ r = i + y ∧ x0 ≤ c ∧ c < x1 := by
  have hpitch := hsize.pitch
  have hwidth := hsize.width
  have hoff : 0 ≤ i * bitmap.pitch := Int.mul_nonneg hi.1 (by omega)
  unfold drawRow
  simp only [Option.bind_eq_some_iff, signed_eq]
  -- the pixels of the row that have been painted when column `j` of the bitmap is next
  have hbody : ∀ j s, x0 - x ≤ j → j < x1 - x →
      (drawPixel bitmap x y color i (i * bitmap.pitch) j
          (paint img bitmap x y color fun r c => S r c ∨ r = i + y ∧ x0 ≤ c ∧ c < j + x) = some s ↔
        (bitmap.alpha i j ≠ 0 → PixelFits (bitmap.alpha i j) color (img.pixel (i + y) (j + x))) ∧
          s = paint img bitmap x y color fun r c => S r c ∨ r = i + y ∧ x0 ≤ c ∧ c < j + 1 + x) := by
    intro j s hj hj'
    have hnew : ¬ (S (i + y) (j + x) ∨ i + y = i + y ∧ x0 ≤ j + x ∧ j + x < j + x) := by
      rintro (h | h)
      · exact hS _ h
      · omega
    have hregion : ∀ r c, (S r c ∨ r = i + y ∧ x0 ≤ c ∧ c < j + x) ∨ r = i + y ∧ c = j + x ↔
        S r c ∨ r = i + y ∧ x0 ≤ c ∧ c < j + 1 + x := by
      intro r c
      rw [or_assoc]
      exact or_congr_right (by omega)
    rw [pixel_iff hsize hi ⟨by omega, by omega⟩ ⟨hrow.1, hrow.2, by omega, by omega⟩ hnew, paint_congr hregion]
  have hloop := forInt_iff (s := img') hbody
  have hstart : (paint img bitmap x y color fun r c => S r c ∨ r = i + y ∧ x0 ≤ c ∧ c < x0 - x + x) =
      paint img bitmap x y color S := paint_congr fun r c => or_iff_left (by omega)
  have hend : (paint img bitmap x y color fun r c =>
        S r c ∨ r = i + y ∧ x0 ≤ c ∧ c < max (x0 - x) (x1 - x) + x) =
      paint img bitmap x y color fun r c => S r c ∨ r = i + y ∧ x0 ≤ c ∧ c < x1 :=
    paint_congr fun r c => or_congr_right (by omega)
  rw [hstart, hend] at hloop
  rw [and_assoc]
  constructor
  · rintro ⟨offset, ⟨rfl, hfits⟩, h⟩
    obtain ⟨hprod, himg⟩ := hloop.1 h
    refine ⟨hfits.2, fun c hc hc' => ?_, himg⟩
    have := hprod (c - x) (by omega) (by omega)
    rwa [Int.sub_add_cancel] at this
  · rintro ⟨hfits, hprod, himg⟩
    refine ⟨_, ⟨rfl, by unfold half32; omega, hfits⟩, hloop.2 ⟨fun j hj hj' => ?_, himg⟩⟩
    have := hprod (j + x) (by omega) (by omega)
    rwa [Int.add_sub_cancel] at this

/-- **Clipping.** For every image, every bitmap and every corner: a call has a result, with every access in bounds,
exactly if the offsets of the rows on the image and the products of the pixels that are blended fit an int; and then the
pixels of the image that the bitmap covers, with an alpha other than 0, have been blended once, and no others. -/
theorem draw_clips_iff (img img' : Mat) (bitmap : Bitmap) (x y : ℤ) (color : Vec3 ℤ)
    (hsize : Sizes img bitmap x y) :
    myDrawBitmap img bitmap x y color = some img' ↔
      OffsetsFit img bitmap y ∧ ProductsFit img bitmap x y color ∧ img' = clipped img bitmap x y color := by
  have hrows := hsize.imgRows
  have hcols := hsize.imgCols
  have hbrows := hsize.rows
  have hwidth := hsize.width
  have hpitch := hsize.pitch
  have hx := hsize.x
  have hy := hsize.y
  have hwx : wrap (x + bitmap.width) = x + bitmap.width := wrap_fits (by unfold Fits half32; omega)
  have hwy : wrap (y + bitmap.rows) = y + bitmap.rows := wrap_fits (by unfold Fits half32; omega)
  unfold myDrawBitmap
  simp only [hwx, hwy]
  generalize hx0 : (if x < 0 then 0 else x) = x0
  generalize hy0 : (if y < 0 then 0 else y) = y0
  generalize hx1 : (if img.cols < x + bitmap.width then img.cols else x + bitmap.width) = x1
  generalize hy1 : (if img.rows < y + bitmap.rows then img.rows else y + bitmap.rows) = y1
  replace hx0 : x0 = max 0 x := by omega
  replace hy0 : y0 = max 0 y := by omega
  replace hx1 : x1 = min img.cols (x + bitmap.width) := by omega
  replace hy1 : y1 = min img.rows (y + bitmap.rows) := by omega
  have hi0 : int (y0 - y) = some (y0 - y) := signed_fits (by unfold Fits half32; omega)
  have hi1 : int (y1 - y) = some (y1 - y) := signed_fits (by unfold Fits half32; omega)
  have hj0 : int (x0 - x) = some (x0 - x) := signed_fits (by unfold Fits half32; omega)
  have hj1 : int (x1 - x) = some (x1 - x) := signed_fits (by unfold Fits half32; omega)
  rw [hi0, hi1, hj0, hj1, Option.bind_some, Option.bind_some, Option.bind_some, Option.bind_some]
  -- the rows that have been painted when row `i` of the bitmap is next
  have hbody : ∀ i s, y0 - y ≤ i → i < y1 - y →
      (drawRow bitmap x y color (x0 - x) (x1 - x) i
          (paint img bitmap x y color fun r c => y0 ≤ r ∧ r < i + y ∧ x0 ≤ c ∧ c < x1) = some s ↔
        (i * bitmap.pitch < half32 ∧ ∀ c, x0 ≤ c → c < x1 → bitmap.alpha i (c - x) ≠ 0 →
            PixelFits (bitmap.alpha i (c - x)) color (img.pixel (i + y) c)) ∧
          s = paint img bitmap x y color fun r c => y0 ≤ r ∧ r < i + 1 + y ∧ x0 ≤ c ∧ c < x1) := by
    intro i s hi hi'
    have hnew : ∀ c, ¬ (y0 ≤ i + y ∧ i + y < i + y ∧ x0 ≤ c ∧ c < x1) := fun c h => by omega
    have hregion : ∀ r c, (y0 ≤ r ∧ r < i + y ∧ x0 ≤ c ∧ c < x1) ∨ r = i + y ∧ x0 ≤ c ∧ c < x1 ↔
        y0 ≤ r ∧ r < i + 1 + y ∧ x0 ≤ c ∧ c < x1 := fun r c => by omega
    rw [row_iff hsize ⟨by omega, by omega⟩ ⟨by omega, by omega⟩ ⟨by omega, by omega⟩ ⟨by omega, by omega⟩ hnew,
      paint_congr hregion]
  have hloop := forInt_iff (s := img') hbody
  have hstart : (paint img bitmap x y color fun r c => y0 ≤ r ∧ r < y0 - y + y ∧ x0 ≤ c ∧ c < x1) = img :=
    paint_none fun r c h => by omega
  have hend : (paint img bitmap x y color fun r c =>
        y0 ≤ r ∧ r < max (y0 - y) (y1 - y) + y ∧ x0 ≤ c ∧ c < x1) = clipped img bitmap x y color :=
    paint_congr fun r c => by unfold Mat.Inside Bitmap.Covers; omega
  rw [hstart, hend] at hloop
  rw [hloop, ← and_assoc]
  refine and_congr_left ?_
  intro _
  constructor
  · intro h
    refine ⟨fun i hi hi' hr hr' => (h i (by omega) (by omega)).1, fun r c hin hcov hne => ?_⟩
    obtain ⟨hr0, hr1, hc0, hc1⟩ := hin
    obtain ⟨hi0, hi1, hj0, hj1⟩ := hcov
    have := (h (r - y) (by omega) (by omega)).2 c (by omega) (by omega) hne
    rwa [Int.sub_add_cancel] at this
  · rintro ⟨hoff, hprod⟩ i hi hi'
    refine ⟨hoff i (by omega) (by omega) (by omega) (by omega), fun c hc hc' hne => ?_⟩
    have := hprod (i + y) c ⟨by omega, by omega, by omega, by omega⟩
      ⟨by omega, by omega, by omega, by omega⟩ (by rwa [Int.add_sub_cancel])
    rwa [Int.add_sub_cancel] at this

end

/-- an image of one colour -/
def plain (rows cols : ℤ) (v : Vec3 UInt8) : Mat := ⟨rows, cols, fun _ _ => v⟩

/-- a square of two by two over the lower left corner of an image -/
theorem corner_drawn :
    myDrawBitmap (plain 4 4 ⟨9, 9, 9⟩) ⟨2, 2, 2, fun _ => 128⟩ (-1) 3 ⟨200, 100, 0⟩ =
      some (clipped (plain 4 4 ⟨9, 9, 9⟩) ⟨2, 2, 2, fun _ => 128⟩ (-1) 3 ⟨200, 100, 0⟩) := by
  refine (draw_clips_iff (plain 4 4 ⟨9, 9, 9⟩) _ ⟨2, 2, 2, fun _ => 128⟩ (-1) 3 ⟨200, 100, 0⟩ ?_).2 ⟨?_, ?_, rfl⟩
  · exact ⟨by decide, by decide, by decide, by decide, by decide, by decide, by decide⟩
  · intro i hi hi' _ _
    simp only [half32] at hi' ⊢
    omega
  · intro r c _ _ _
    show PixelFits 128 ⟨200, 100, 0⟩ ⟨9, 9, 9⟩
    exact ⟨⟨by decide, by decide⟩, ⟨by decide, by decide⟩, ⟨by decide, by decide⟩⟩

/-- **A wide pitch overflows**: the offset of row 3 of an empty bitmap whose rows are 2^30 - 1 bytes apart. So does the
product of a colour of 2^29 with an alpha of 255. -/
theorem wide_pitch_overflows :
    (¬ ∀ (img : Mat) (bitmap : Bitmap) (x y : ℤ) (color : Vec3 ℤ), Sizes img bitmap x y →
        myDrawBitmap img bitmap x y color = some (clipped img bitmap x y color)) ∧
      (myDrawBitmap (plain 1 1 ⟨0, 0, 0⟩) ⟨1, 1, 1, fun _ => 255⟩ 0 0 ⟨536870912, 0, 0⟩).isSome = false := by
  refine ⟨fun h => ?_, by decide⟩
  have hnone : (myDrawBitmap (plain 4 1 ⟨0, 0, 0⟩) ⟨4, 1, 1073741823, fun _ => 0⟩ 0 0 ⟨0, 0, 0⟩).isSome = false := by
    decide
  have hsize : Sizes (plain 4 1 ⟨0, 0, 0⟩) ⟨4, 1, 1073741823, fun _ => 0⟩ 0 0 :=
    ⟨by decide, by decide, by decide, by decide, by decide, by decide, by decide⟩
  rw [h _ _ 0 0 ⟨0, 0, 0⟩ hsize] at hnone
  cases hnone

end Hodgepodge.Ft2wrap
