/-
`ft2wrap::printString` (ft2wrap.h) places the glyphs of a string one behind the other. The advance of a glyph is read
from the face's glyph slot when the next one is about to be loaded into it. The test `k > 0` is meant to leave out the
first glyph, which has none before it; but `k` counts characters, and characters without a glyph are skipped. If the
first character has no glyph, the first glyph that is drawn is moved by the advance of whatever the slot holds, which is
the last glyph of an earlier call.

Model: the FreeType calls are functions of the face, the pixel size and the glyph index, with an FT_Error each; the pen
is an integer. A call that overflows in `my_draw_bitmap` leaves no image. `drawn` is kept beside the image: the glyphs,
each with its pen position.

Results:
- `drawChars_spec`: the loop, from the first glyph that is drawn.
- `pensFrom_eq`: the pens that the loop computes are sums of advances and kernings.
- `pen_rule_iff`: after any calls, a call places its glyphs by the pen rule, and leaves the image and the return value
  that follow from its arguments and the face alone, exactly if its first character has a glyph, or none has, or the
  slot holds an advance below one pixel.
- `stale_advance`: a string that begins with a character without a glyph.
-/
import Mathlib.Algebra.BigOperators.Group.List.Basic
import Mathlib.Algebra.Ring.Int.Defs
import Mathlib.Data.List.Induction
import Hodgepodge.Font.DrawBitmap

namespace Hodgepodge.Ft2wrap

/-! ## Model -/

structure Slot where
  /-- `advance.x`, in 64ths of a pixel -/
  advanceX : ℤ
  bitmap : Bitmap
  bitmapLeft : ℤ
  bitmapTop : ℤ

/-- `FT_Face`, as the calls see it; the second component of a result is the FT_Error -/
structure Face where
  hasKerning : Bool
  getCharIndex : UInt32 → ℕ
  loadGlyph : ℤ → ℕ → Slot × ℤ
  renderGlyph : Slot → Slot × ℤ
  /-- `delta.x` -/
  getKerning : ℤ → ℕ → ℕ → ℤ × ℤ

/-- the wrapper, with the pixel size and the glyph slot of its face -/
structure Wrap where
  curSize : ℤ
  pixelSize : ℤ
  slot : Slot

/-- the arguments of printString -/
structure Call where
  img : Mat
  str : List UInt32
  penx : ℤ
  peny : ℤ
  color : Vec3 ℤ
  size : ℤ

/-- the variables of the loop -/
structure Loop where
  slot : Slot
  previous : ℕ
  posx : ℤ
  dx : ℤ
  dyMax : ℤ
  img : Option Mat
  drawn : List (ℕ × ℤ)

structure Printed where
  wrap : Wrap
  img : Option Mat
  value : ℤ
  drawn : List (ℕ × ℤ)

def init : Wrap := ⟨24, 24, ⟨0, ⟨0, 0, 0, fun _ => 0⟩, 0, 0⟩⟩

def setSize (w : Wrap) (size : ℤ) : Wrap :=
  if w.curSize ≠ size then { w with curSize := size, pixelSize := size } else w

/-- `my_draw_bitmap(img, &slot->bitmap, posx + slot->bitmap_left, peny - slot->bitmap_top, color)` -/
def drawSlot (c : Call) (slot : Slot) (posx : ℤ) (img : Option Mat) : Option Mat :=
  img.bind fun img => myDrawBitmap img slot.bitmap (posx + slot.bitmapLeft) (c.peny - slot.bitmapTop) c.color

/-- `if(dy_max < rows) dy_max = rows` -/
def taller (dyMax : ℤ) (slot : Slot) : ℤ := if dyMax < slot.bitmap.rows then slot.bitmap.rows else dyMax

/-- the kerning branch -/
def kern (face : Face) (pixelSize : ℤ) (glyph : ℕ) (s : Loop) : Loop :=
  if face.hasKerning && s.previous != 0 then
    if (face.getKerning pixelSize s.previous glyph).2 = 0 then
      { s with posx := s.posx + (face.getKerning pixelSize s.previous glyph).1.tdiv 64 }
    else s
  else s

/-- the rest of the loop body, once the glyph is rendered -/
def place (c : Call) (glyph : ℕ) (s : Loop) : Loop :=
  let posx := s.posx + s.dx
  { s with
    posx := posx
    img := drawSlot c s.slot posx s.img
    previous := glyph
    dyMax := taller s.dyMax s.slot
    drawn := s.drawn ++ [(glyph, posx)] }

/-- the loop body for the character `ch` at index `k` -/
def drawChar (face : Face) (pixelSize : ℤ) (c : Call) (k : ℕ) (ch : UInt32) (s : Loop) : Loop :=
  let glyph := face.getCharIndex ch
  if glyph = 0 then s
  else
    let s := if 0 < k then { s with dx := s.slot.advanceX.tdiv 64 } else s
    let loaded := face.loadGlyph pixelSize glyph
    if loaded.2 ≠ 0 then { s with slot := loaded.1 }
    else
      let rendered := face.renderGlyph loaded.1
      if rendered.2 ≠ 0 then { s with slot := rendered.1 }
      else place c glyph (kern face pixelSize glyph { s with slot := rendered.1 })

def drawChars (face : Face) (pixelSize : ℤ) (c : Call) : ℕ → List UInt32 → Loop → Loop
  | _, [], s => s
  | k, ch :: str, s => drawChars face pixelSize c (k + 1) str (drawChar face pixelSize c k ch s)

def printString (face : Face) (w : Wrap) (c : Call) : Printed :=
  let w := setSize w c.size
  let s := drawChars face w.pixelSize c 0 c.str ⟨w.slot, 0, c.penx, 0, 0, some c.img, []⟩
  ⟨{ w with slot := s.slot }, s.img, s.dyMax, s.drawn⟩

/-- the wrapper after some calls -/
def after (face : Face) (calls : List Call) : Wrap :=
  calls.foldl (fun w c => (printString face w c).wrap) init

/-! ## The pen rule -/

/-- the glyphs of a string -/
def glyphs (face : Face) (str : List UInt32) : List ℕ := (str.map face.getCharIndex).filter (· ≠ 0)

/-- the slot after a glyph is rendered -/
def rendered (face : Face) (size : ℤ) (glyph : ℕ) : Slot := (face.renderGlyph (face.loadGlyph size glyph).1).1

def advance (face : Face) (size : ℤ) (glyph : ℕ) : ℤ := (rendered face size glyph).advanceX.tdiv 64

def kerning (face : Face) (size : ℤ) (a b : ℕ) : ℤ :=
  if face.hasKerning then (face.getKerning size a b).1.tdiv 64 else 0

/-- where glyph `n` of the glyphs `gs` belongs: behind the advances of those before it, with the kerning of each pair -/
def penRule (face : Face) (size penx : ℤ) (gs : List ℕ) (n : ℕ) : ℤ :=
  penx + ((gs.take n).map (advance face size)).sum +
    (((gs.zip gs.tail).take n).map fun e => kerning face size e.1 e.2).sum

/-- the glyphs with their pens -/
def placed (face : Face) (c : Call) : List (ℕ × ℤ) :=
  (glyphs face c.str).mapIdx fun n g => (g, penRule face c.size c.penx (glyphs face c.str) n)

/-- glyphs drawn one after the other -/
def drawAll (face : Face) (c : Call) (img : Option Mat) (drawn : List (ℕ × ℤ)) : Option Mat :=
  drawn.foldl (fun img e => drawSlot c (rendered face c.size e.1) e.2 img) img

/-- the largest number of rows -/
def height (face : Face) (size dyMax : ℤ) (gs : List ℕ) : ℤ :=
  gs.foldl (fun dyMax g => taller dyMax (rendered face size g)) dyMax

/-- a call has drawn its glyphs by the pen rule, and its image and return value are those of its arguments -/
structure ByRule (face : Face) (c : Call) (r : Printed) : Prop where
  drawn : r.drawn = placed face c
  img : r.img = drawAll face c (some c.img) (placed face c)
  value : r.value = height face c.size 0 (glyphs face c.str)

/-- no FreeType call that is made for the string fails -/
structure Renders (face : Face) (c : Call) : Prop where
  load : ∀ g ∈ glyphs face c.str, (face.loadGlyph c.size g).2 = 0
  render : ∀ g ∈ glyphs face c.str, (face.renderGlyph (face.loadGlyph c.size g).1).2 = 0
  kerning : face.hasKerning = true →
    ∀ e ∈ (glyphs face c.str).zip (glyphs face c.str).tail, (face.getKerning c.size e.1 e.2).2 = 0

/-! ## The loop -/

variable {face : Face} {c : Call} {k : ℕ} {ch : UInt32} {str : List UInt32} {s : Loop} {a g : ℕ} {gs : List ℕ} {p : ℤ}

theorem glyphs_cons (ch : UInt32) (str : List UInt32) :
    glyphs face (ch :: str) =
      if face.getCharIndex ch = 0 then glyphs face str else face.getCharIndex ch :: glyphs face str := by
  unfold glyphs
  rw [List.map_cons, List.filter_cons]
  by_cases h : face.getCharIndex ch = 0
  · simp [h]
  · simp [h]

theorem drawChar_skip (h : face.getCharIndex ch = 0) : drawChar face p c k ch s = s := by
  simp only [drawChar, h, if_true]

/-- the calls on glyph `g` behind glyph `a` succeed; `a` is 0 when there is none -/
structure Ok (face : Face) (size : ℤ) (a g : ℕ) : Prop where
  load : (face.loadGlyph size g).2 = 0
  render : (face.renderGlyph (face.loadGlyph size g).1).2 = 0
  kerning : face.hasKerning = true → a ≠ 0 → (face.getKerning size a g).2 = 0

/-- the pen of glyph `g` when it is next -/
def nextPen (face : Face) (size : ℤ) (k : ℕ) (g : ℕ) (s : Loop) : ℤ :=
  s.posx + (if s.previous = 0 then 0 else kerning face size s.previous g) +
    if 0 < k then s.slot.advanceX.tdiv 64 else s.dx

theorem kern_eq {size : ℤ} (h : face.hasKerning = true → s.previous ≠ 0 → (face.getKerning size s.previous g).2 = 0) :
    kern face size g s =
      { s with posx := s.posx + if s.previous = 0 then 0 else kerning face size s.previous g } := by
  unfold kern kerning
  by_cases hp : s.previous = 0
  · rw [if_pos hp, if_neg (by simp [hp]), Int.add_zero]
  · rw [if_neg hp]
    cases hk : face.hasKerning with
    | false => rw [if_neg (by simp), if_neg (by simp), Int.add_zero]
    | true => rw [if_pos (by simp [hp]), if_pos (h hk hp), if_pos rfl]

theorem drawChar_glyph {size : ℤ} (hch : face.getCharIndex ch = g) (hg : g ≠ 0) (h : Ok face size s.previous g) :
    drawChar face size c k ch s =
      ⟨rendered face size g, g, nextPen face size k g s, if 0 < k then s.slot.advanceX.tdiv 64 else s.dx,
        taller s.dyMax (rendered face size g), drawSlot c (rendered face size g) (nextPen face size k g s) s.img,
        s.drawn ++ [(g, nextPen face size k g s)]⟩ := by
  unfold drawChar nextPen
  simp only [hch, hg, if_false, h.load, h.render, ne_eq, not_true_eq_false]
  by_cases hk : 0 < k
  · simp only [hk, if_true]
    rw [kern_eq]
    · rfl
    · exact h.kerning
  · simp only [hk, if_false]
    rw [kern_eq]
    · rfl
    · exact h.kerning

/-- the pens of the glyphs `gs` that are drawn behind glyph `a` at `p` -/
def pensFrom (face : Face) (size : ℤ) : ℕ → ℤ → List ℕ → List (ℕ × ℤ)
  | _, _, [] => []
  | a, p, g :: gs =>
    let q := p + kerning face size a g + advance face size a
    (g, q) :: pensFrom face size g q gs

/-- what the loop has drawn, from the state `s` on -/
structure Draws (face : Face) (c : Call) (s t : Loop) (pens : List (ℕ × ℤ)) : Prop where
  drawn : t.drawn = s.drawn ++ pens
  img : t.img = drawAll face c s.img pens
  dyMax : t.dyMax = height face c.size s.dyMax (pens.map Prod.fst)

theorem Draws.nil : Draws face c s s [] := ⟨(List.append_nil _).symm, rfl, rfl⟩

theorem Draws.cons {t u : Loop} {q : ℤ} {pens : List (ℕ × ℤ)} (hd : t.drawn = s.drawn ++ [(g, q)])
    (hi : t.img = drawSlot c (rendered face c.size g) q s.img) (hy : t.dyMax = taller s.dyMax (rendered face c.size g))
    (h : Draws face c t u pens) : Draws face c s u ((g, q) :: pens) where
  drawn := by rw [h.drawn, hd, List.append_assoc, List.singleton_append]
  img := by rw [h.img, hi]; rfl
  dyMax := by rw [h.dyMax, hy]; rfl

/-- the loop behind a glyph that has been drawn -/
theorem drawChars_behind (hall : (a :: glyphs face str).IsChain (Ok face c.size)) (hk : 0 < k) (ha : a ≠ 0)
    (hp : s.previous = a) (hs : s.slot = rendered face c.size a) :
    Draws face c s (drawChars face c.size c k str s) (pensFrom face c.size a s.posx (glyphs face str)) := by
  induction str generalizing k a s with
  | nil => exact .nil
  | cons ch str ih =>
    rw [glyphs_cons] at hall ⊢
    rw [drawChars]
    split_ifs at hall ⊢ with h0
    · rw [drawChar_skip h0]
      exact ih hall (Nat.succ_pos k) ha hp hs
    · obtain ⟨hok, hall⟩ := List.isChain_cons_cons.1 hall
      have hpen : nextPen face c.size k (face.getCharIndex ch) s =
          s.posx + kerning face c.size a (face.getCharIndex ch) + advance face c.size a := by
        rw [nextPen, if_pos hk, hp, if_neg ha, hs]
        rfl
      rw [drawChar_glyph rfl h0 (hp ▸ hok), hpen]
      exact .cons rfl rfl rfl (ih hall (Nat.succ_pos k) h0 rfl rfl)

/-- what the slot adds to the first glyph: nothing if that is the first character -/
def offset (face : Face) (k : ℕ) (str : List UInt32) (slot : Slot) : ℤ :=
  if k = 0 ∧ str.head?.all (fun ch => face.getCharIndex ch != 0) = true then 0 else slot.advanceX.tdiv 64

/-- a first glyph at `p`, and the others behind it -/
def pens (face : Face) (size p : ℤ) : List ℕ → List (ℕ × ℤ)
  | [] => []
  | g :: gs => (g, p) :: pensFrom face size g p gs

/-- the loop before a glyph has been drawn -/
theorem drawChars_spec (hall : (0 :: glyphs face str).IsChain (Ok face c.size)) (hp : s.previous = 0) (hx : s.dx = 0) :
    Draws face c s (drawChars face c.size c k str s)
      (pens face c.size (s.posx + offset face k str s.slot) (glyphs face str)) := by
  induction str generalizing k with
  | nil => exact .nil
  | cons ch str ih =>
    rw [glyphs_cons] at hall ⊢
    rw [drawChars]
    split_ifs at hall ⊢ with h0
    · have hoff : offset face k (ch :: str) s.slot = offset face (k + 1) str s.slot := by
        simp [offset, h0]
      rw [drawChar_skip h0, hoff]
      exact ih hall
    · obtain ⟨hok, hall⟩ := List.isChain_cons_cons.1 hall
      have hpen : nextPen face c.size k (face.getCharIndex ch) s = s.posx + offset face k (ch :: str) s.slot := by
        rw [nextPen, if_pos hp, hx, Int.add_zero]
        by_cases hk : 0 < k
        · simp [offset, hk, Nat.ne_of_gt hk]
        · simp [offset, Nat.eq_zero_of_not_pos hk, h0]
      rw [drawChar_glyph rfl h0 (hp ▸ hok), hpen]
      exact .cons rfl rfl rfl (drawChars_behind hall (Nat.succ_pos k) h0 rfl rfl)

/-! ## The pens are sums -/

theorem pensFrom_eq (size : ℤ) :
    pensFrom face size a p gs = gs.mapIdx fun n g =>
      (g, p + (((a :: gs).take (n + 1)).map (advance face size)).sum +
        ((((a :: gs).zip gs).take (n + 1)).map fun e => kerning face size e.1 e.2).sum) := by
  induction gs generalizing a p with
  | nil => rfl
  | cons g gs ih =>
    rw [pensFrom, ih, List.mapIdx_cons]
    congr 1
    · simp
      omega
    · refine congrArg (List.mapIdx · gs) ?_
      funext n g'
      simp only [List.take_succ_cons, List.map_cons, List.sum_cons, List.zip_cons_cons, Prod.mk.injEq, true_and]
      omega

/-- with its first glyph at the start, a string is placed by the rule -/
theorem pens_eq (size : ℤ) : pens face size p gs = gs.mapIdx fun n g => (g, penRule face size p gs n) := by
  cases gs with
  | nil => rfl
  | cons g gs =>
    rw [pens, pensFrom_eq, List.mapIdx_cons]
    simp [penRule]

theorem pensFrom_glyphs (size : ℤ) : (pensFrom face size a p gs).map Prod.fst = gs := by
  induction gs generalizing a p with
  | nil => rfl
  | cons g gs ih => rw [pensFrom, List.map_cons, ih]

theorem pens_glyphs (size : ℤ) : (pens face size p gs).map Prod.fst = gs := by
  cases gs with
  | nil => rfl
  | cons g gs => rw [pens, List.map_cons, pensFrom_glyphs]

/-! ## Calls -/

/-- `cur_size` is the pixel size of the face -/
theorem after_size (face : Face) (calls : List Call) : (after face calls).curSize = (after face calls).pixelSize := by
  have hset : ∀ (w : Wrap) (size : ℤ), w.curSize = w.pixelSize →
      (setSize w size).curSize = (setSize w size).pixelSize := by
    intro w size hw
    unfold setSize
    split
    · rfl
    · exact hw
  unfold after
  induction calls using List.reverseRecOn with
  | nil => rfl
  | append_singleton calls c ih =>
    rw [List.foldl_append]
    exact hset _ c.size ih

theorem setSize_pixelSize {w : Wrap} (hw : w.curSize = w.pixelSize) (size : ℤ) : (setSize w size).pixelSize = size := by
  unfold setSize
  split
  · rfl
  · rename_i h
    rw [← hw]
    exact not_not.1 h

theorem setSize_slot (w : Wrap) (size : ℤ) : (setSize w size).slot = w.slot := by
  unfold setSize
  split <;> rfl

/-- each glyph succeeds behind the one before it -/
theorem chain_ok {size : ℤ} (hload : ∀ g ∈ gs, (face.loadGlyph size g).2 = 0)
    (hrender : ∀ g ∈ gs, (face.renderGlyph (face.loadGlyph size g).1).2 = 0)
    (hkerning : face.hasKerning = true → ∀ e ∈ (a :: gs).zip gs, e.1 ≠ 0 → (face.getKerning size e.1 e.2).2 = 0) :
    (a :: gs).IsChain (Ok face size) := by
  induction gs generalizing a with
  | nil => exact .singleton a
  | cons g gs ih =>
    obtain ⟨hl, hload⟩ := List.forall_mem_cons.1 hload
    obtain ⟨hr, hrender⟩ := List.forall_mem_cons.1 hrender
    refine .cons_cons ⟨hl, hr, fun hk => hkerning hk (a, g) List.mem_cons_self⟩ (ih hload hrender fun hk e he => ?_)
    exact hkerning hk e (List.mem_cons_of_mem _ he)

theorem Renders.chain (h : Renders face c) : (0 :: glyphs face c.str).IsChain (Ok face c.size) := by
  refine chain_ok h.load h.render fun hk e he hne => ?_
  have hkerning := h.kerning hk
  generalize glyphs face c.str = gs at he hkerning
  cases gs with
  | nil => cases he
  | cons g gs =>
    rcases List.mem_cons.1 he with rfl | he
    · exact absurd rfl hne
    · exact hkerning e he

/-- what a call draws -/
theorem printString_draws (h : Renders face c) {w : Wrap} (hw : w.curSize = w.pixelSize) :
    (printString face w c).drawn = pens face c.size (c.penx + offset face 0 c.str w.slot) (glyphs face c.str) ∧
      (printString face w c).img = drawAll face c (some c.img) (printString face w c).drawn ∧
      (printString face w c).value = height face c.size 0 (glyphs face c.str) := by
  have hd := drawChars_spec (k := 0) (s := ⟨w.slot, 0, c.penx, 0, 0, some c.img, []⟩) h.chain rfl rfl
  simp only [printString, setSize_pixelSize hw, setSize_slot]
  refine ⟨hd.drawn, ?_, ?_⟩
  · rw [hd.drawn]
    exact hd.img
  · rw [hd.dyMax, pens_glyphs]

/-- **The pen rule.** After any earlier calls, whatever they drew and however they failed, and for every string, start,
colour and size, when no FreeType call fails: the glyphs are placed by the pen rule, and image and return value are
those that the arguments and the face determine, exactly if the first character has a glyph, or no character has one, or
the slot holds an advance of less than a pixel. -/
theorem pen_rule_iff (face : Face) (calls : List Call) (c : Call) (h : Renders face c) :
    ByRule face c (printString face (after face calls) c) ↔
      (∀ ch, c.str.head? = some ch → face.getCharIndex ch ≠ 0) ∨ glyphs face c.str = [] ∨
        (after face calls).slot.advanceX.tdiv 64 = 0 := by
  obtain ⟨hdrawn, himg, hvalue⟩ := printString_draws h (after_size face calls)
  have hplaced : placed face c = pens face c.size c.penx (glyphs face c.str) := (pens_eq c.size).symm
  have hoff : offset face 0 c.str (after face calls).slot = 0 ↔
      (∀ ch, c.str.head? = some ch → face.getCharIndex ch ≠ 0) ∨
        (after face calls).slot.advanceX.tdiv 64 = 0 := by
    have hall : c.str.head?.all (fun ch => face.getCharIndex ch != 0) = true ↔
        ∀ ch, c.str.head? = some ch → face.getCharIndex ch ≠ 0 := by
      simp only [Option.all_eq_true, bne_iff_ne]
    unfold offset
    split
    · rename_i hfirst
      exact iff_of_true rfl (Or.inl (hall.1 hfirst.2))
    · rename_i hfirst
      exact ⟨Or.inr, fun h => h.resolve_left fun hf => hfirst ⟨rfl, hall.2 hf⟩⟩
  constructor
  · intro hrule
    have hpens := hrule.drawn
    rw [hdrawn, hplaced] at hpens
    cases hgs : glyphs face c.str with
    | nil => exact Or.inr (Or.inl rfl)
    | cons g gs =>
      rw [hgs, pens, pens, List.cons.injEq, Prod.mk.injEq] at hpens
      exact (hoff.1 (by omega)).imp_right Or.inr
  · intro hcond
    have hpens : (printString face (after face calls) c).drawn = placed face c := by
      rw [hdrawn, hplaced]
      rcases hcond with hf | hnil | hz
      · rw [hoff.2 (Or.inl hf), Int.add_zero]
      · rw [hnil]; rfl
      · rw [hoff.2 (Or.inr hz), Int.add_zero]
    exact ⟨hpens, by rw [himg, hpens], hvalue⟩

/-- `A` and `B` have glyphs of 10 pixels, a pixel closer together in a pair -/
def twoGlyphs : Face where
  hasKerning := true
  getCharIndex := fun ch => if ch = 65 then 1 else if ch = 66 then 2 else 0
  loadGlyph := fun _ _ => (⟨640, ⟨1, 1, 1, fun _ => 255⟩, 0, 0⟩, 0)
  renderGlyph := fun slot => (slot, 0)
  getKerning := fun _ _ _ => (-64, 0)

/-- a string at the start of an image -/
def printAt (str : List UInt32) : Call := ⟨plain 4 40 ⟨0, 0, 0⟩, str, 0, 0, ⟨255, 255, 255⟩, 24⟩

/-- `A`, a character without a glyph, `B`; after a call that drew `A` -/
theorem gap_inside : ByRule twoGlyphs (printAt [65, 32, 66])
    (printString twoGlyphs (after twoGlyphs [printAt [65]]) (printAt [65, 32, 66])) := by
  refine (pen_rule_iff twoGlyphs [printAt [65]] (printAt [65, 32, 66]) ?_).2 (Or.inl ?_)
  · exact ⟨fun _ _ => rfl, fun _ _ => rfl, fun _ _ _ => rfl⟩
  · intro ch hch
    cases hch
    decide

/-- **A stale advance.** After a call that drew `A`, a character without a glyph and `A`: the glyph is drawn 10 pixels
too far to the right. -/
theorem stale_advance :
    ¬ ∀ (face : Face) (calls : List Call) (c : Call), Renders face c →
        ByRule face c (printString face (after face calls) c) := by
  intro h
  have := (h twoGlyphs [printAt [65]] (printAt [32, 65]) ⟨fun _ _ => rfl, fun _ _ => rfl, fun _ _ _ => rfl⟩).drawn
  revert this
  decide

end Hodgepodge.Ft2wrap
