/-
What `ft2wrap::my_draw_bitmap` (ft2wrap.h) blends. A channel becomes `(src * (255 - val) + c * val) / 256`: the weights
add up to 255, and the sum is divided by 256, rounding down. A blend is therefore below the weighted mean of the old
value and the colour's, by less than two: alpha 255 leaves the colour's channel less one, and text that is drawn over
itself grows darker than both, pass by pass.

Model: any sequence of calls on one image with one colour, whose channels are in 0..255; bitmaps and corners are any,
and every call has a result (`DrawBitmap` says when).

Results:
- `draw_eq`: a call blends the pixels it visits, once each, whatever the sides and the corner.
- `le_mix_iff`, `mix_le`: a blend is never above the two values, and not below a bound exactly if the mean has the room
  that the division takes.
- `blend_range_iff`: no sequence of calls takes a channel out of the range between image and colour exactly if the
  colour's channel is 0 or at least twice the image's; alpha 255 gives the colour exactly if that is black; and the
  condition on the calls of one sequence.
- `opaque_darkens`: a pixel that has the pen colour, and a black one under a white pen.
-/
import Mathlib.Tactic.Ring
import Hodgepodge.Core.Lts
import Hodgepodge.Font.DrawBitmap

namespace Hodgepodge.Ft2wrap

open Hodgepodge.Core Hodgepodge.Core.Checked

/-! ## Calls on one image -/

/-- a channel -/
def Vec3.chan {α : Type*} (v : Vec3 α) : Fin 3 → α
  | 0 => v.c0
  | 1 => v.c1
  | 2 => v.c2

/-- the arguments of a call, but for the image and the colour -/
structure Draw where
  bitmap : Bitmap
  x : ℤ
  y : ℤ

/-- calls of `my_draw_bitmap` with one colour -/
def pen (img : Mat) (color : Vec3 ℤ) : Lts Mat Draw := ⟨img, fun img d => myDrawBitmap img d.bitmap d.x d.y color⟩

/-- the loops come to the pixel; the right and the lower end of the bitmap are computed modulo 2^32 -/
def Draw.Visits (d : Draw) (img : Mat) (r c : ℤ) : Prop :=
  img.Inside r c ∧ (d.y ≤ r ∧ r < wrap (d.y + d.bitmap.rows)) ∧ d.x ≤ c ∧ c < wrap (d.x + d.bitmap.width)

instance (d : Draw) (img : Mat) (r c : ℤ) : Decidable (d.Visits img r c) := by unfold Draw.Visits; infer_instance

/-- the alpha value for a pixel -/
def Draw.alpha (d : Draw) (r c : ℤ) : UInt8 := d.bitmap.alpha (r - d.y) (c - d.x)

/-! ## What a call blends -/

section

variable {img img' : Mat} {bitmap : Bitmap} {x y i j offset : ℤ} {color : Vec3 ℤ} {S : ℤ → ℤ → Prop}
  [∀ r c, Decidable (S r c)]

/-- the body of the inner loop, if it has a result, on a pixel that has not been painted -/
theorem pixel_some (hS : ¬ S (i + y) (j + x))
    (h : drawPixel bitmap x y color i (i * bitmap.pitch) j (paint img bitmap x y color S) = some img') :
    img' = paint img bitmap x y color fun r c => S r c ∨ r = i + y ∧ c = j + x := by
  unfold drawPixel at h
  obtain ⟨val, hread, h⟩ := Option.bind_eq_some_iff.1 h
  obtain rfl : bitmap.alpha i j = val := by
    unfold Bitmap.read at hread
    split_ifs at hread
    exact Option.some.inj hread
  by_cases h0 : bitmap.alpha i j = 0
  · rw [if_pos h0] at h
    cases h
    exact paint_transparent h0
  · rw [if_neg h0] at h
    obtain ⟨r, hr, h⟩ := Option.bind_eq_some_iff.1 h
    obtain ⟨c, hc, h⟩ := Option.bind_eq_some_iff.1 h
    obtain ⟨rfl, -⟩ := signed_eq.1 hr
    obtain ⟨rfl, -⟩ := signed_eq.1 hc
    unfold Mat.blend at h
    split_ifs at h with hin
    obtain ⟨v, hv, rfl⟩ := Option.map_eq_some_iff.1 h
    have hsrc : (paint img bitmap x y color S).pixel (i + y) (j + x) = img.pixel (i + y) (j + x) := if_neg hS
    rw [hsrc] at hv
    rw [(blendPixel_iff.1 hv).2]
    exact paint_pixel h0

/-- the body of the outer loop, if it has a result, between the columns `x0` and `x1` -/
theorem row_some {x0 x1 : ℤ} (hS : ∀ c, ¬ S (i + y) c)
    (h : drawRow bitmap x y color (x0 - x) (x1 - x) i (paint img bitmap x y color S) = some img') :
    img' = paint img bitmap x y color fun r c => S r c ∨ r = i + y ∧ x0 ≤ c ∧ c < x1 := by
  unfold drawRow at h
  obtain ⟨offset, hoff, h⟩ := Option.bind_eq_some_iff.1 h
  obtain ⟨rfl, -⟩ := signed_eq.1 hoff
  have hbody : ∀ j s, x0 - x ≤ j → j < x1 - x →
      drawPixel bitmap x y color i (i * bitmap.pitch) j
          (paint img bitmap x y color fun r c => S r c ∨ r = i + y ∧ x0 ≤ c ∧ c < j + x) = some s →
        s = paint img bitmap x y color fun r c => S r c ∨ r = i + y ∧ x0 ≤ c ∧ c < j + 1 + x := by
    intro j s hj hj' hs
    have hnew : ¬ (S (i + y) (j + x) ∨ i + y = i + y ∧ x0 ≤ j + x ∧ j + x < j + x) := by
      rintro (h | h)
      · exact hS _ h
      · omega
    rw [pixel_some hnew hs]
    refine paint_congr ?_
    intro r c
    rw [or_assoc]
    exact or_congr_right (by omega)
  have hstart : (paint img bitmap x y color fun r c => S r c ∨ r = i + y ∧ x0 ≤ c ∧ c < x0 - x + x) =
      paint img bitmap x y color S := paint_congr fun r c => or_iff_left (by omega)
  rw [← hstart] at h
  rw [forInt_some hbody h]
  exact paint_congr fun r c => or_congr_right (by omega)

end

variable {img img' t t' : Mat} {d : Draw} {color : Vec3 ℤ} {r c : ℤ} {k : Fin 3}

/-- **One call.** The pixels that it visits are blended, once each, and no others. -/
theorem draw_eq (h : myDrawBitmap img d.bitmap d.x d.y color = some img') :
    img' = paint img d.bitmap d.x d.y color (d.Visits img) := by
  obtain ⟨bitmap, x, y⟩ := d
  unfold myDrawBitmap at h
  simp only at h
  generalize hx0 : (if x < 0 then 0 else x) = x0 at h
  generalize hy0 : (if y < 0 then 0 else y) = y0 at h
  generalize hx1 : (if img.cols < wrap (x + bitmap.width) then img.cols else wrap (x + bitmap.width)) = x1 at h
  generalize hy1 : (if img.rows < wrap (y + bitmap.rows) then img.rows else wrap (y + bitmap.rows)) = y1 at h
  obtain ⟨i0, hi0, h⟩ := Option.bind_eq_some_iff.1 h
  obtain ⟨i1, hi1, h⟩ := Option.bind_eq_some_iff.1 h
  obtain ⟨j0, hj0, h⟩ := Option.bind_eq_some_iff.1 h
  obtain ⟨j1, hj1, h⟩ := Option.bind_eq_some_iff.1 h
  obtain ⟨rfl, -⟩ := signed_eq.1 hi0
  obtain ⟨rfl, -⟩ := signed_eq.1 hi1
  obtain ⟨rfl, -⟩ := signed_eq.1 hj0
  obtain ⟨rfl, -⟩ := signed_eq.1 hj1
  -- the rows that have been painted when row `i` of the bitmap is next
  have hbody : ∀ i s, y0 - y ≤ i → i < y1 - y →
      drawRow bitmap x y color (x0 - x) (x1 - x) i
          (paint img bitmap x y color fun r c => y0 ≤ r ∧ r < i + y ∧ x0 ≤ c ∧ c < x1) = some s →
        s = paint img bitmap x y color fun r c => y0 ≤ r ∧ r < i + 1 + y ∧ x0 ≤ c ∧ c < x1 := by
    intro i s hi hi' hs
    have hnew : ∀ c, ¬ (y0 ≤ i + y ∧ i + y < i + y ∧ x0 ≤ c ∧ c < x1) := fun c h => by omega
    rw [row_some hnew hs]
    exact paint_congr fun r c => by omega
  have hstart : (paint img bitmap x y color fun r c => y0 ≤ r ∧ r < y0 - y + y ∧ x0 ≤ c ∧ c < x1) = img :=
    paint_none fun r c h => by omega
  rw [← hstart] at h
  rw [forInt_some hbody h]
  refine paint_congr ?_
  intro r c
  unfold Draw.Visits Mat.Inside
  simp only
  omega

/-! ## One channel -/

section

variable {s a v lo : ℤ}

/-- the exact value of a channel: old value `s`, alpha `a`, colour `v` -/
def mix (a v s : ℤ) : ℤ := (s * (255 - a) + v * a) / 256

/-- a blend is not above both values -/
theorem mix_le (ha : 0 ≤ a ∧ a ≤ 255) (hs : 0 ≤ s) : mix a v s ≤ max s v := by
  have hold : s * (255 - a) ≤ max s v * (255 - a) := Int.mul_le_mul_of_nonneg_right (by omega) (by omega)
  have hnew : v * a ≤ max s v * a := Int.mul_le_mul_of_nonneg_right (by omega) ha.1
  have hsum : s * (255 - a) + v * a ≤ max s v * 255 := by
    calc s * (255 - a) + v * a ≤ max s v * (255 - a) + max s v * a := Int.add_le_add hold hnew
      _ = max s v * 255 := by ring
  unfold mix
  omega

/-- **The room that the division takes.** A blend is not below `lo` exactly if the weighted distances of the two values
from `lo` make up for `lo` once. -/
theorem le_mix_iff : lo ≤ mix a v s ↔ lo ≤ (s - lo) * (255 - a) + (v - lo) * a := by
  have hdist : (s - lo) * (255 - a) + (v - lo) * a = s * (255 - a) + v * a - lo * 255 := by ring
  rw [hdist, mix]
  omega

/-- a full blend -/
theorem mix_full (hv : 0 ≤ v ∧ v ≤ 255) : mix 255 v s = v ↔ v = 0 := by
  unfold mix
  omega

theorem mixChannel_toNat {val src : UInt8} (hv : 0 ≤ v ∧ v ≤ 255) :
    ((mixChannel val v src).toNat : ℤ) = mix val.toNat v src.toNat := by
  have hval := val.toNat_lt
  have hsrc := src.toNat_lt
  have hle := mix_le (v := v) (a := val.toNat) (s := src.toNat) (by omega) (by omega)
  have hold : 0 ≤ (src.toNat : ℤ) * (255 - val.toNat) := Int.mul_nonneg (by omega) (by omega)
  have hnew : 0 ≤ v * val.toNat := Int.mul_nonneg hv.1 (by omega)
  have hpos : 0 ≤ mix val.toNat v src.toNat := le_mix_iff.2 (by simpa using Int.add_nonneg hold hnew)
  unfold mixChannel
  rw [Int.tdiv_eq_ediv_of_nonneg (Int.add_nonneg hold hnew)]
  change ((UInt8.ofInt (mix val.toNat v src.toNat)).toNat : ℤ) = _
  generalize mix val.toNat v src.toNat = m at hle hpos
  have hm : (m % 2 ^ 8).toNat < UInt8.size := by
    have hmod : m % 2 ^ 8 < 2 ^ 8 := Int.emod_lt_of_pos m (by decide)
    unfold UInt8.size
    omega
  rw [UInt8.ofInt, UInt8.toNat_ofNat_of_lt' hm]
  omega

end

/-! ## The range -/

/-- channel `k` of a pixel -/
def Mat.value (img : Mat) (r c : ℤ) (k : Fin 3) : ℤ := ((img.pixel r c).chan k).toNat

/-- the channels of a colour are integers in 0..255 -/
def InByte (color : Vec3 ℤ) : Prop := ∀ k, 0 ≤ color.chan k ∧ color.chan k ≤ 255

/-- every channel of `t` lies between that of `img` and the colour's -/
def InRange (img : Mat) (color : Vec3 ℤ) (t : Mat) : Prop :=
  ∀ r c, img.Inside r c → ∀ k,
    min (img.value r c k) (color.chan k) ≤ t.value r c k ∧ t.value r c k ≤ max (img.value r c k) (color.chan k)

/-- the pixels that a call draws with alpha 255 take the colour -/
def Opaque (color : Vec3 ℤ) (t : Mat) (d : Draw) : Prop :=
  ∀ t', myDrawBitmap t d.bitmap d.x d.y color = some t' →
    ∀ r c, d.Visits t r c → d.alpha r c = 255 → ∀ k, t'.value r c k = color.chan k

/-- no pixel of the image has a channel that is above half of the colour's, unless that is 0 -/
def Far (img : Mat) (color : Vec3 ℤ) : Prop :=
  ∀ r c, img.Inside r c → ∀ k, color.chan k = 0 ∨ 2 * img.value r c k ≤ color.chan k

/-- the room that a call needs above the lower ends of the ranges, in the image before it -/
def Room (img : Mat) (color : Vec3 ℤ) (t : Mat) (d : Draw) : Prop :=
  ∀ r c, d.Visits t r c → d.alpha r c ≠ 0 → ∀ k,
    min (img.value r c k) (color.chan k) ≤
      (t.value r c k - min (img.value r c k) (color.chan k)) * (255 - (d.alpha r c).toNat) +
        (color.chan k - min (img.value r c k) (color.chan k)) * (d.alpha r c).toNat

/-- the call draws nothing with alpha 255, or it draws in black -/
def Faint (color : Vec3 ℤ) (t : Mat) (d : Draw) : Prop :=
  ∀ r c, d.Visits t r c → d.alpha r c = 255 → ∀ k, color.chan k = 0

/-- the image of a run, which keeps its size -/
structure Kept (img : Mat) (color : Vec3 ℤ) (t : Mat) : Prop where
  inside : ∀ r c, t.Inside r c ↔ img.Inside r c
  range : InRange img color t

theorem value_bounds (img : Mat) (r c : ℤ) (k : Fin 3) : 0 ≤ img.value r c k ∧ img.value r c k ≤ 255 := by
  have := ((img.pixel r c).chan k).toNat_lt
  unfold Mat.value
  omega

theorem chan_mixPixel (val : UInt8) (color : Vec3 ℤ) (src : Vec3 UInt8) (k : Fin 3) :
    (mixPixel val color src).chan k = mixChannel val (color.chan k) (src.chan k) := by
  match k with
  | 0 | 1 | 2 => rfl

theorem draw_inside (h : myDrawBitmap t d.bitmap d.x d.y color = some t') : t'.Inside r c ↔ t.Inside r c := by
  rw [draw_eq h]
  exact Iff.rfl

/-- a channel after a call -/
theorem draw_value (hcolor : InByte color) (h : myDrawBitmap t d.bitmap d.x d.y color = some t') :
    t'.value r c k =
      if d.Visits t r c ∧ d.alpha r c ≠ 0 then mix (d.alpha r c).toNat (color.chan k) (t.value r c k)
      else t.value r c k := by
  rw [draw_eq h]
  unfold Mat.value paint
  simp only
  by_cases hv : d.Visits t r c
  · by_cases h0 : d.alpha r c = 0
    · have hshade : shade d.bitmap d.x d.y color r c (t.pixel r c) = t.pixel r c := if_pos h0
      rw [if_pos hv, hshade, if_neg fun hc => hc.2 h0]
    · have hshade : shade d.bitmap d.x d.y color r c (t.pixel r c) = mixPixel (d.alpha r c) color (t.pixel r c) :=
        if_neg h0
      rw [if_pos hv, hshade, if_pos ⟨hv, h0⟩, chan_mixPixel, mixChannel_toNat (hcolor k)]
  · rw [if_neg hv, if_neg fun hc => hv hc.1]

theorem alpha_pos {val : UInt8} (h : val ≠ 0) : 0 < (val.toNat : ℤ) ∧ (val.toNat : ℤ) ≤ 255 := by
  have hlt := val.toNat_lt
  have hne : val.toNat ≠ 0 := fun h0 => h (UInt8.toNat_inj.1 h0)
  omega

/-- a call with enough room keeps the range -/
theorem Kept.draw (hcolor : InByte color) (h : Kept img color t) (hroom : Room img color t d)
    (hd : myDrawBitmap t d.bitmap d.x d.y color = some t') : Kept img color t' := by
  refine ⟨fun r c => (draw_inside hd).trans (h.inside r c), fun r c hin k => ?_⟩
  obtain ⟨hlo, hhi⟩ := h.range r c hin k
  rw [draw_value hcolor hd]
  split_ifs with hv
  · refine ⟨le_mix_iff.2 (hroom r c hv.1 hv.2 k), ?_⟩
    have hpos := alpha_pos hv.2
    have hle := mix_le (a := (d.alpha r c).toNat) (v := color.chan k) (s := t.value r c k) (by omega)
      (value_bounds t r c k).1
    omega
  · exact ⟨hlo, hhi⟩

/-- a call with too little room leaves it -/
theorem not_inRange_draw (hcolor : InByte color) (h : Kept img color t) (hroom : ¬ Room img color t d)
    (hd : myDrawBitmap t d.bitmap d.x d.y color = some t') : ¬ InRange img color t' := by
  intro hrange
  refine hroom ?_
  intro r c hv h0 k
  have hlo := (hrange r c ((h.inside r c).1 hv.1) k).1
  rw [draw_value hcolor hd, if_pos ⟨hv, h0⟩] at hlo
  exact le_mix_iff.1 hlo

/-- far below the colour there always is room -/
theorem Far.room (hcolor : InByte color) (hfar : Far img color) (h : Kept img color t) (d : Draw) :
    Room img color t d := by
  intro r c hv h0 k
  have hin := (h.inside r c).1 hv.1
  have hlo := (h.range r c hin k).1
  have hs := value_bounds img r c k
  have ht := value_bounds t r c k
  have ha := alpha_pos h0
  have hv := hcolor k
  generalize ((d.alpha r c).toNat : ℤ) = a at ha
  generalize hmin : min (img.value r c k) (color.chan k) = lo at hlo
  have hold : 0 ≤ (t.value r c k - lo) * (255 - a) := Int.mul_nonneg (by omega) (by omega)
  have hnew : (color.chan k - lo) * 1 ≤ (color.chan k - lo) * a := Int.mul_le_mul_of_nonneg_left (by omega) (by omega)
  rcases hfar r c hin k with h | h
  · omega
  · omega

theorem opaque_iff (hcolor : InByte color) (hd : myDrawBitmap t d.bitmap d.x d.y color = some t') :
    Opaque color t d ↔ Faint color t d := by
  have hfull : ∀ r c, d.Visits t r c → d.alpha r c = 255 → ∀ k, t'.value r c k = color.chan k ↔ color.chan k = 0 := by
    intro r c hv ha k
    rw [draw_value hcolor hd, if_pos ⟨hv, by rw [ha]; decide⟩, ha]
    exact mix_full (hcolor k)
  constructor
  · intro h r c hv ha k
    exact (hfull r c hv ha k).1 (h t' hd r c hv ha k)
  · intro h u hu r c hv ha k
    obtain rfl : t' = u := Option.some.inj (hd.symm.trans hu)
    exact (hfull r c hv ha k).2 (h r c hv ha k)

/-! ## One pixel -/

/-- the sides are ints -/
def Mat.Sized (img : Mat) : Prop := img.rows < half32 ∧ img.cols < half32

/-- a bitmap of one pixel -/
def dot (r c : ℤ) (val : UInt8) : Draw := ⟨⟨1, 1, 1, fun _ => val⟩, c, r⟩

theorem pixelFits_of_inByte (hcolor : InByte color) (val : UInt8) (src : Vec3 UInt8) : PixelFits val color src := by
  have hval := val.toNat_lt
  have hchan : ∀ v, 0 ≤ v ∧ v ≤ 255 → ∀ s : UInt8, ChannelFits val v s := by
    intro v hv s
    have hold := old_fits val s
    have hpos : 0 ≤ (s.toNat : ℤ) * (255 - val.toNat) := Int.mul_nonneg (by omega) (by omega)
    have hsmall : (s.toNat : ℤ) * (255 - val.toNat) ≤ 255 * 255 :=
      Int.mul_le_mul (by have := s.toNat_lt; omega) (by omega) (by omega) (by omega)
    have hnew : 0 ≤ v * val.toNat := Int.mul_nonneg hv.1 (by omega)
    have hle : v * val.toNat ≤ 255 * 255 := Int.mul_le_mul hv.2 (by omega) (by omega) (by omega)
    unfold ChannelFits Fits half32
    omega
  exact ⟨hchan _ (hcolor 0) _, hchan _ (hcolor 1) _, hchan _ (hcolor 2) _⟩

/-- the lower right corner of a dot on the image -/
theorem wrap_dot (himg : img.Sized) (hin : img.Inside r c) : wrap (r + 1) = r + 1 ∧ wrap (c + 1) = c + 1 := by
  unfold Mat.Sized half32 at himg
  unfold Mat.Inside at hin
  exact ⟨wrap_fits (by unfold Fits half32; omega), wrap_fits (by unfold Fits half32; omega)⟩

theorem dot_visits (himg : img.Sized) (hin : img.Inside r c) (val : UInt8) : (dot r c val).Visits img r c := by
  obtain ⟨hrow, hcol⟩ := wrap_dot himg hin
  unfold Draw.Visits dot
  simp only [hrow, hcol]
  exact ⟨hin, ⟨by omega, by omega⟩, by omega, by omega⟩

theorem forInt_one {σ : Type*} (body : ℤ → σ → Option σ) (s : σ) : forInt 0 1 body s = body 0 s := by
  cases h : body 0 s <;> simp [forInt, forRange, h]

theorem dot_drawn (himg : img.Sized) (hcolor : InByte color) (hin : img.Inside r c) (val : UInt8) :
    ∃ t, myDrawBitmap img (dot r c val).bitmap (dot r c val).x (dot r c val).y color = some t := by
  obtain ⟨hrow, hcol⟩ := wrap_dot himg hin
  obtain ⟨hr, hr', hc, hc'⟩ := hin
  unfold Mat.Sized half32 at himg
  have hint : ∀ i : ℤ, 0 ≤ i → i < 2147483648 → int i = some i := by
    intro i hi hi'
    exact signed_fits (by unfold Fits half32; omega)
  have hpixel : ∃ t, drawPixel (dot r c val).bitmap c r color 0 0 0 img = some t := by
    have hread : (dot r c val).bitmap.read (0 + 0) = some val := rfl
    unfold drawPixel
    rw [hread, Option.bind_some]
    by_cases h0 : val = 0
    · rw [if_pos h0]
      exact ⟨img, rfl⟩
    · rw [if_neg h0, Int.zero_add, Int.zero_add, hint r hr (by omega), hint c hc (by omega), Option.bind_some,
        Option.bind_some, Mat.blend, if_pos ⟨hr, hr', hc, hc'⟩,
        blendPixel_iff.2 ⟨pixelFits_of_inByte hcolor val (img.pixel r c), rfl⟩]
      exact ⟨_, rfl⟩
  have hi : r + 1 - r = 1 := by omega
  have hj : c + 1 - c = 1 := by omega
  obtain ⟨t, ht⟩ := hpixel
  refine ⟨t, ?_⟩
  change myDrawBitmap img ⟨1, 1, 1, fun _ => val⟩ c r color = some t
  unfold myDrawBitmap
  simp only [hrow, hcol]
  rw [if_neg (by omega : ¬ r < 0), if_neg (by omega : ¬ c < 0), if_neg (by omega : ¬ img.cols < c + 1),
    if_neg (by omega : ¬ img.rows < r + 1), Int.sub_self, Int.sub_self, hi, hj, hint 0 (by omega) (by omega),
    hint 1 (by omega) (by omega), Option.bind_some, Option.bind_some, Option.bind_some, Option.bind_some, forInt_one]
  unfold drawRow
  rw [Int.zero_mul, hint 0 (by omega) (by omega), Option.bind_some, forInt_one]
  exact ht

/-- a channel of the pixel under a dot -/
theorem dot_value (himg : img.Sized) (hcolor : InByte color) (hin : img.Inside r c) (val : UInt8)
    (h0 : val ≠ 0) : ∃ t, (pen img color).step img (dot r c val) = some t ∧
      ∀ k, t.value r c k = mix val.toNat (color.chan k) (img.value r c k) := by
  obtain ⟨t, ht⟩ := dot_drawn himg hcolor hin val
  refine ⟨t, ht, ?_⟩
  intro k
  rw [draw_value hcolor ht, if_pos ⟨dot_visits himg hin val, h0⟩]
  rfl

/-! ## The result -/

theorem Kept.refl (hcolor : InByte color) : Kept img color img := by
  refine ⟨fun r c => Iff.rfl, fun r c hin k => ?_⟩
  have := value_bounds img r c k
  have := hcolor k
  omega

theorem run_inside {ops : List Draw} (hr : (pen img color).run img ops = some t) : t.Inside r c ↔ img.Inside r c := by
  refine (pen img color).run_inv (I := fun u => u.Inside r c ↔ img.Inside r c) ?_ Iff.rfl hr
  intro u d v hu hd
  exact (draw_inside hd).trans hu

/-- where some channel is neither 0 in the colour nor far below it, a dot leaves the range -/
theorem far_of_inRange (himg : img.Sized) (hcolor : InByte color)
    (h : ∀ ops t, (pen img color).run img ops = some t → InRange img color t) : Far img color := by
  intro r c hin k
  by_contra hnear
  have hs := value_bounds img r c k
  have hv := hcolor k
  have hdot : ∀ val : UInt8, val ≠ 0 →
      min (img.value r c k) (color.chan k) ≤ mix val.toNat (color.chan k) (img.value r c k) := by
    intro val h0
    obtain ⟨t, ht, hval⟩ := dot_value himg hcolor hin val h0
    rw [← hval k]
    exact (h [dot r c val] t ((pen img color).run_cons.2 ⟨t, ht, rfl⟩) r c hin k).1
  have hfull := hdot 255 (by decide)
  have hleast := hdot 1 (by decide)
  have h255 : ((255 : UInt8).toNat : ℤ) = 255 := rfl
  have h1 : ((1 : UInt8).toNat : ℤ) = 1 := rfl
  rw [h255] at hfull
  rw [h1] at hleast
  unfold mix at hfull hleast
  -- above the colour the full blend is one below it; from there to half of it the least blend darkens
  omega

theorem inRange_of_far {ops : List Draw} (hcolor : InByte color) (hfar : Far img color)
    (hr : (pen img color).run img ops = some t) : InRange img color t := by
  have hkept : Kept img color t := by
    refine (pen img color).run_inv (I := Kept img color) ?_ (Kept.refl hcolor) hr
    intro u d v hu hd
    exact hu.draw hcolor (hfar.room hcolor hu d) hd
  exact hkept.range

/-- alpha 255 in all sequences -/
theorem along_opaque_iff (himg : img.Sized) (hcolor : InByte color) :
    (∀ ops, (pen img color).Along (Opaque color) img ops) ↔ (∀ k, color.chan k = 0) ∨ ∀ r c, ¬ img.Inside r c := by
  constructor
  · intro h
    by_contra hnot
    push Not at hnot
    obtain ⟨⟨k, hk⟩, r, c, hin⟩ := hnot
    obtain ⟨t, ht⟩ := dot_drawn himg hcolor hin 255
    have hopaque : Opaque color img (dot r c 255) := h [dot r c 255] [] _ [] img rfl rfl
    exact hk ((opaque_iff hcolor ht).1 hopaque r c (dot_visits himg hin 255) rfl k)
  · intro h ops pre d post t hops ht t' ht'
    refine (opaque_iff hcolor ht').2 ?_ t' ht'
    intro r c hv ha k
    rcases h with h | h
    · exact h k
    · exact absurd ((run_inside ht).1 hv.1) (h r c)

/-- the range in one sequence -/
theorem always_inRange_iff {ops : List Draw} (hcolor : InByte color) (hr : (pen img color).run img ops = some t) :
    (pen img color).Always (InRange img color) img ops ↔ (pen img color).Along (Room img color) img ops := by
  refine (pen img color).always_iff_along (I := Kept img color) (fun u hu => hu.range) ?_ ?_ (Kept.refl hcolor) hr
  · intro u d v hu hroom hd
    exact hu.draw hcolor hroom hd
  · intro u d v hu hroom hd
    exact not_inRange_draw hcolor hu hroom hd

/-- **The range.** For every image and every colour with channels in 0..255: all sequences of calls keep every channel
between its first value and the colour's exactly if each channel is 0 in the colour or at most half of it in the image;
in all sequences what is drawn with alpha 255 takes the colour exactly if that is black, or there is no pixel; and the
states of one sequence have both properties exactly if each call finds room and draws nothing with alpha 255, unless in
black. -/
theorem blend_range_iff (img : Mat) (color : Vec3 ℤ) (himg : img.Sized) (hcolor : InByte color) :
    ((∀ ops t, (pen img color).run img ops = some t → InRange img color t) ↔ Far img color) ∧
      ((∀ ops, (pen img color).Along (Opaque color) img ops) ↔
        (∀ k, color.chan k = 0) ∨ ∀ r c, ¬ img.Inside r c) ∧
      ∀ ops t, (pen img color).run img ops = some t →
        ((pen img color).Always (InRange img color) img ops ∧ (pen img color).Along (Opaque color) img ops ↔
          (pen img color).Along (fun t d => Room img color t d ∧ Faint color t d) img ops) := by
  refine ⟨⟨far_of_inRange himg hcolor, fun hfar ops t hr => inRange_of_far hcolor hfar hr⟩,
    along_opaque_iff himg hcolor, ?_⟩
  intro ops t hr
  rw [Lts.along_and]
  refine and_congr (always_inRange_iff hcolor hr) ((pen img color).along_congr ?_ hr)
  intro u d v hd
  exact opaque_iff hcolor hd

/-- a dark image under a light pen -/
theorem dark_stays_in_range : ∃ t,
    (pen (plain 2 2 ⟨100, 10, 7⟩) ⟨255, 20, 0⟩).run (plain 2 2 ⟨100, 10, 7⟩) [dot 1 0 255] = some t ∧
      InRange (plain 2 2 ⟨100, 10, 7⟩) ⟨255, 20, 0⟩ t := by
  have hsized : (plain 2 2 ⟨100, 10, 7⟩).Sized := ⟨by decide, by decide⟩
  have hcolor : InByte ⟨255, 20, 0⟩ := by unfold InByte; decide
  have hin : (plain 2 2 ⟨100, 10, 7⟩).Inside 1 0 := by decide
  obtain ⟨t, ht⟩ := dot_drawn hsized hcolor hin 255
  have hrun : (pen (plain 2 2 ⟨100, 10, 7⟩) ⟨255, 20, 0⟩).run (plain 2 2 ⟨100, 10, 7⟩) [dot 1 0 255] = some t :=
    Lts.run_cons _ |>.2 ⟨t, ht, rfl⟩
  refine ⟨t, hrun, (blend_range_iff (plain 2 2 ⟨100, 10, 7⟩) ⟨255, 20, 0⟩ hsized hcolor).1.2 ?_ [dot 1 0 255] t hrun⟩
  intro r c _ k
  change _ ∨ 2 * (((⟨100, 10, 7⟩ : Vec3 UInt8).chan k).toNat : ℤ) ≤ _
  revert k
  decide

/-- **A full blend darkens.** A pixel that has the pen colour, drawn once with alpha 255, is below it; and white on
black is not white. -/
theorem opaque_darkens :
    (¬ ∀ (img : Mat) (color : Vec3 ℤ) (ops : List Draw) (t : Mat), img.Sized → InByte color →
        (pen img color).run img ops = some t → InRange img color t) ∧
      ¬ ∀ (img : Mat) (color : Vec3 ℤ) (ops : List Draw), img.Sized → InByte color →
        (pen img color).Along (Opaque color) img ops := by
  have hsized : ∀ v, (plain 1 1 v).Sized := fun v => (by decide : (1 : ℤ) < half32 ∧ (1 : ℤ) < half32)
  have hin : ∀ v, (plain 1 1 v).Inside 0 0 := fun v =>
    (by decide : (0 : ℤ) ≤ 0 ∧ (0 : ℤ) < 1 ∧ (0 : ℤ) ≤ 0 ∧ (0 : ℤ) < 1)
  constructor
  · intro h
    have hcolor : InByte ⟨200, 200, 200⟩ := by unfold InByte; decide
    obtain ⟨t, ht, hval⟩ := dot_value (hsized ⟨200, 200, 200⟩) hcolor (hin _) 255 (by decide)
    have hrun : (pen (plain 1 1 ⟨200, 200, 200⟩) ⟨200, 200, 200⟩).run (plain 1 1 ⟨200, 200, 200⟩) [dot 0 0 255] =
        some t :=
      Lts.run_cons _ |>.2 ⟨t, ht, rfl⟩
    have hlo := (h _ _ _ t (hsized _) hcolor hrun 0 0 (hin _) 0).1
    rw [hval 0] at hlo
    exact absurd hlo (by decide)
  · intro h
    have hcolor : InByte ⟨255, 255, 255⟩ := by unfold InByte; decide
    obtain ⟨t, ht, hval⟩ := dot_value (hsized ⟨0, 0, 0⟩) hcolor (hin _) 255 (by decide)
    have hopaque : Opaque ⟨255, 255, 255⟩ (plain 1 1 ⟨0, 0, 0⟩) (dot 0 0 255) :=
      h _ _ [dot 0 0 255] (hsized _) hcolor [] _ [] _ rfl rfl
    have hfull := hopaque t ht 0 0 (dot_visits (hsized _) (hin _) 255) rfl 0
    rw [hval 0] at hfull
    exact absurd hfull (by decide)

end Hodgepodge.Ft2wrap
