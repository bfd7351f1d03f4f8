/-
What `tdrm1.c` draws. `modeset_draw` stores one colour into every pixel of every device, fifty times, and lets the
colour drift.

Results:
- `draw_run`: every round stores every pixel of every device once, and a colour is close to the one before it.
- `screen_shows`: after the drawing the pixels have the last colour and the rest of a buffer is still clear. No store
  leaves its buffer.
-/
import Hodgepodge.Drm.Main
import Hodgepodge.Drm.Prepare

namespace Hodgepodge.Drm

open Hodgepodge.Core

variable {fd : Fd} {list : List Dev} {dev : Dev}

/-! ## Colours -/

/-- how far two values of a channel are apart -/
def apart (a b : UInt8) : ℕ := (a.toNat - b.toNat) + (b.toNat - a.toNat)

/-- the colour does not jump -/
def Near (c c' : Colors) : Prop := apart c.r c'.r < 20 ∧ apart c.g c'.g < 10 ∧ apart c.b c'.b < 5

theorem up_toNat {cur : UInt8} {x : UInt32} :
    (cur.toUInt32 + 1 * x).toUInt8.toNat = (cur.toNat + x.toNat) % 256 := by
  have hcur := cur.toNat_lt
  have hone : (1 : UInt32).toNat = 1 := rfl
  rw [UInt32.toNat_toUInt8, UInt32.toNat_add, UInt32.toNat_mul, UInt8.toNat_toUInt32, hone]
  omega

theorem down_toNat {cur : UInt8} {x : UInt32} (hx : x.toNat < 256) :
    (cur.toUInt32 + (-1) * x).toUInt8.toNat = (cur.toNat + 256 - x.toNat) % 256 := by
  have hcur := cur.toNat_lt
  have hneg : (-1 : UInt32).toNat = 4294967295 := rfl
  rw [UInt32.toNat_toUInt8, UInt32.toNat_add, UInt32.toNat_mul, UInt8.toNat_toUInt32, hneg]
  omega

/-- a step that would leave the channel turns round instead -/
theorem nextColor_apart {up : Bool} {cur : UInt8} {mod rand : UInt32} (hpos : 0 < mod.toNat) (hle : mod.toNat ≤ 256) :
    apart cur (nextColor up cur mod rand).2 < mod.toNat := by
  have hcur := cur.toNat_lt
  have hlt : (rand % mod).toNat < mod.toNat := by
    rw [UInt32.toNat_mod]
    exact Nat.mod_lt _ hpos
  have hself : apart cur cur < mod.toNat := by
    unfold apart
    omega
  unfold nextColor
  generalize rand % mod = x at hlt
  cases up with
  | true =>
    have hnext : (cur.toUInt32 + 1 * x).toUInt8.toNat = _ := up_toNat
    simp only [if_true]
    generalize (cur.toUInt32 + 1 * x).toUInt8 = next at hnext
    split_ifs with hturn
    · exact hself
    · unfold apart
      dsimp only
      simp [UInt8.lt_iff_toNat_lt] at hturn
      omega
  | false =>
    have hnext : (cur.toUInt32 + (-1) * x).toUInt8.toNat = _ := down_toNat (by omega)
    simp only [Bool.false_eq_true, if_false]
    generalize (cur.toUInt32 + (-1) * x).toUInt8 = next at hnext
    split_ifs with hturn
    · exact hself
    · unfold apart
      dsimp only
      simp [UInt8.lt_iff_toNat_lt] at hturn
      omega

theorem nextColors_run {c : Colors} {t : List (Event Answer)} {o : Option Colors} (h : (nextColors c).Run t o) :
    ∃ x y z c', t = [⟨.rand, x⟩, ⟨.rand, y⟩, ⟨.rand, z⟩] ∧ o = some c' ∧ Near c c' := by
  obtain ⟨x, t, rfl, y, t, rfl, z, t, rfl, rfl, rfl⟩ := h
  exact ⟨x, y, z, _, rfl, rfl, nextColor_apart (by decide) (by decide), nextColor_apart (by decide) (by decide),
    nextColor_apart (by decide) (by decide)⟩

/-! ## Stores -/

structure Store where
  map : Ptr
  off : UInt32
  v : UInt32
deriving DecidableEq

def Store.event (s : Store) : Event Answer := ⟨.store s.map s.off s.v, ()⟩

/-- the stores of a run -/
def stores (t : List (Event Answer)) : List Store := t.filterMap fun
  | ⟨.store map off v, _⟩ => some ⟨map, off, v⟩
  | _ => none

/-- the stores that fill a device -/
def frame (v : UInt32) (dev : Dev) : List Store :=
  (List.range' 0 dev.height.toNat).flatMap fun j => (List.range' 0 dev.width.toNat).map fun k =>
    ⟨dev.map, dev.stride * j.toUInt32 + k.toUInt32 * 4, v⟩

theorem drawDev_run {v : UInt32} {t : List (Event Answer)} {o : Option Unit} (h : (drawDev v dev).Run t o) :
    t = (frame v dev).map Store.event ∧ o = some () := by
  rw [frame, List.map_flatMap]
  refine Prog.run_count (fun j t o h => ?_) h
  rw [List.map_map, List.map_eq_flatMap]
  refine Prog.run_count (fun k t o h => ?_) h
  obtain ⟨_, t, rfl, rfl, rfl⟩ := h
  exact ⟨rfl, rfl⟩

@[simp] theorem stores_append {t t' : List (Event Answer)} : stores (t ++ t') = stores t ++ stores t' :=
  List.filterMap_append

@[simp] theorem stores_rand {x : UInt32} {t : List (Event Answer)} : stores (⟨.rand, x⟩ :: t) = stores t := rfl

@[simp] theorem stores_event {l : List Store} : stores (l.map Store.event) = l := by
  rw [stores, List.filterMap_map]
  exact List.filterMap_some

/-- the stores of a round -/
def round (list : List Dev) (c : Colors) : List Store := list.flatMap (frame c.pixel)

theorem drawRound_run {c : Colors} {t : List (Event Answer)} {o : Option Colors} (h : (drawRound list c).Run t o) :
    ∃ c', o = some c' ∧ Near c c' ∧ stores t = round list c' := by
  rcases Prog.run_bind.1 h with ⟨t₁, t₂, c', rfl, h₁, h₂⟩ | ⟨h₁, -⟩
  swap
  · obtain ⟨_, _, _, _, -, hsome, -⟩ := nextColors_run h₁
    cases hsome
  obtain ⟨x, y, z, _, rfl, hsome, hnear⟩ := nextColors_run h₁
  cases hsome
  have hbody : ∀ dev t o, (drawDev c'.pixel dev).Run t o → t = (frame c'.pixel dev).map Store.event ∧ o = some () :=
    fun _ _ _ => drawDev_run
  rcases Prog.run_bind.1 h₂ with ⟨t₂, t₃, _, rfl, h₃, rfl, rfl⟩ | ⟨h₃, -⟩
  · refine ⟨c', rfl, hnear, ?_⟩
    rw [(Prog.run_each hbody h₃).1, ← List.map_flatMap]
    simp [round]
  · cases (Prog.run_each hbody h₃).2

theorem rounds_run {n i : ℕ} {c : Colors} {t : List (Event Answer)} {o : Option Colors}
    (h : (Prog.count (fun _ => drawRound list) n i c).Run t o) :
    ∃ cs, o = some ((c :: cs).getLast (List.cons_ne_nil c cs)) ∧ cs.length = n ∧ (c :: cs).IsChain Near ∧
      stores t = cs.flatMap (round list) := by
  induction n generalizing i c t with
  | zero =>
    obtain ⟨rfl, rfl⟩ := h
    exact ⟨[], rfl, rfl, List.IsChain.singleton c, rfl⟩
  | succ n ih =>
    rcases Prog.run_bind.1 h with ⟨t₁, t₂, c₁, rfl, h₁, h₂⟩ | ⟨h₁, -⟩
    · obtain ⟨_, hsome, hnear, hst₁⟩ := drawRound_run h₁
      cases hsome
      obtain ⟨cs, rfl, rfl, hchain, hst₂⟩ := ih h₂
      refine ⟨c₁ :: cs, ?_, rfl, List.isChain_cons_cons.2 ⟨hnear, hchain⟩, ?_⟩
      · rw [List.getLast_cons (List.cons_ne_nil c₁ cs)]
      · rw [stores_append, hst₁, hst₂, List.flatMap_cons]
    · obtain ⟨_, hsome, -⟩ := drawRound_run h₁
      cases hsome

theorem firstColors_run {t : List (Event Answer)} {o : Option Colors} (h : firstColors.Run t o) :
    ∃ c, o = some c ∧ stores t = [] := by
  obtain ⟨x, t, rfl, y, t, rfl, z, t, rfl, rfl, rfl⟩ := h
  exact ⟨_, rfl, rfl⟩

/-- what a run of the drawing stores -/
theorem draw_run {t : List (Event Answer)} {o : Option Unit} (h : (modesetDraw list).Run t o) :
    o = some () ∧ ∃ c cs, cs.length = 50 ∧ (c :: cs).IsChain Near ∧ stores t = cs.flatMap (round list) := by
  rcases Prog.run_bind.1 h with ⟨t₁, t₂, c, rfl, h₁, h₂⟩ | ⟨h₁, -⟩
  swap
  · obtain ⟨_, hsome, -⟩ := firstColors_run h₁
    cases hsome
  obtain ⟨_, -, hst₁⟩ := firstColors_run h₁
  rcases Prog.run_bind.1 h₂ with ⟨t₂, t₃, c', rfl, h₃, rfl, rfl⟩ | ⟨h₃, -⟩
  · obtain ⟨cs, -, hlen, hchain, hst⟩ := rounds_run h₃
    refine ⟨rfl, c, cs, hlen, hchain, ?_⟩
    rw [stores_append, hst₁, List.append_nil, hst]
    rfl
  · obtain ⟨_, hsome, -⟩ := rounds_run h₃
    cases hsome

/-! ## Memory -/

/-- the byte at every offset of every mapping -/
abbrev Mem := Ptr → ℕ → UInt8

/-- byte number `b` of a word, lowest first -/
def byteAt (v : UInt32) (b : ℕ) : UInt8 := (v >>> (8 * b).toUInt32).toUInt8

theorem pixel_toNat (c : Colors) : c.pixel.toNat = c.r.toNat * 65536 + c.g.toNat * 256 + c.b.toNat := by
  have hr := c.r.toNat_lt
  have hg := c.g.toNat_lt
  have hb := c.b.toNat_lt
  have h8 : (8 : UInt32).toNat % 32 = 8 := rfl
  have h16 : (16 : UInt32).toNat % 32 = 16 := rfl
  have hlow : c.g.toNat <<< 8 ||| c.b.toNat = c.g.toNat <<< 8 + c.b.toNat :=
    (Nat.shiftLeft_add_eq_or_of_lt hb _).symm
  have hhigh : c.r.toNat <<< 16 ||| (c.g.toNat <<< 8 + c.b.toNat) =
      c.r.toNat <<< 16 + (c.g.toNat <<< 8 + c.b.toNat) :=
    (Nat.shiftLeft_add_eq_or_of_lt (by rw [Nat.shiftLeft_eq]; omega) _).symm
  unfold Colors.pixel
  simp only [UInt32.toNat_or, UInt32.toNat_shiftLeft, UInt8.toNat_toUInt32, h8, h16]
  rw [Nat.mod_eq_of_lt (by rw [Nat.shiftLeft_eq]; omega), Nat.mod_eq_of_lt (by rw [Nat.shiftLeft_eq]; omega),
    Nat.or_assoc, hlow, hhigh, Nat.shiftLeft_eq, Nat.shiftLeft_eq]
  omega

theorem byteAt_toNat (v : UInt32) {b : ℕ} (hb : b < 4) : (byteAt v b).toNat = v.toNat / 256 ^ b % 256 := by
  have hshift : (8 * b).toUInt32.toNat % 32 = 8 * b := by
    have hof := UInt32.toNat_ofNat' (n := 8 * b)
    simp only [Nat.toUInt32]
    omega
  rw [byteAt, UInt32.toNat_toUInt8, UInt32.toNat_shiftRight, hshift, Nat.shiftRight_eq_div_pow, Nat.pow_mul]

theorem pixel_bytes (c : Colors) :
    byteAt c.pixel 0 = c.b ∧ byteAt c.pixel 1 = c.g ∧ byteAt c.pixel 2 = c.r ∧ byteAt c.pixel 3 = 0 := by
  have hr := c.r.toNat_lt
  have hg := c.g.toNat_lt
  have hb := c.b.toNat_lt
  have hzero : (0 : UInt8).toNat = 0 := rfl
  simp only [← UInt8.toNat_inj, byteAt_toNat _ (show 0 < 4 by decide), byteAt_toNat _ (show 1 < 4 by decide),
    byteAt_toNat _ (show 2 < 4 by decide), byteAt_toNat _ (show 3 < 4 by decide), pixel_toNat, hzero]
  omega

/-- the store of a word changes these bytes -/
def Store.Covers (s : Store) (map : Ptr) (i : ℕ) : Prop := map = s.map ∧ s.off.toNat ≤ i ∧ i < s.off.toNat + 4

instance (s : Store) (map : Ptr) (i : ℕ) : Decidable (s.Covers map i) := by unfold Store.Covers; infer_instance

def Mem.store (m : Mem) (s : Store) : Mem := fun map i =>
  if s.Covers map i then byteAt s.v (i - s.off.toNat) else m map i

def Mem.clear (m : Mem) (map : Ptr) (size : UInt32) : Mem := fun map' i =>
  if map' = map ∧ i < size.toNat then 0 else m map' i

def Mem.event (m : Mem) : Event Answer → Mem
  | ⟨.store map off v, _⟩ => m.store ⟨map, off, v⟩
  | ⟨.clear map size, _⟩ => m.clear map size
  | _ => m

/-- the memory after a run -/
def Mem.after (m : Mem) (t : List (Event Answer)) : Mem := t.foldl Mem.event m

variable {m : Mem} {map : Ptr} {i : ℕ} {l : List Store} {t t' : List (Event Answer)}

theorem Mem.after_cons {e : Event Answer} : m.after (e :: t) = (m.event e).after t := rfl

theorem Mem.after_append : m.after (t ++ t') = (m.after t).after t' := List.foldl_append

/-- a byte that several stores agree on -/
theorem foldl_store {x : UInt8} (hall : ∀ s ∈ l, s.Covers map i → byteAt s.v (i - s.off.toNat) = x)
    (h : m map i = x ∨ ∃ s ∈ l, s.Covers map i) : l.foldl Mem.store m map i = x := by
  induction l generalizing m with
  | nil => simpa using h
  | cons s l ih =>
    refine ih (fun s hs => hall s (List.mem_cons_of_mem _ hs)) ?_
    by_cases hcov : s.Covers map i
    · exact Or.inl ((if_pos hcov).trans (hall s List.mem_cons_self hcov))
    · rcases h with h | ⟨s', hs', hcov'⟩
      · exact Or.inl ((if_neg hcov).trans h)
      · rcases List.mem_cons.1 hs' with rfl | hs'
        · exact absurd hcov' hcov
        · exact Or.inr ⟨s', hs', hcov'⟩

/-- a byte that no store covers -/
theorem foldl_store_same (hall : ∀ s ∈ l, ¬ s.Covers map i) : l.foldl Mem.store m map i = m map i :=
  foldl_store (fun s hs hcov => absurd hcov (hall s hs)) (Or.inl rfl)

/-- drawing changes memory by its stores only -/
theorem after_draws (h : ∀ e ∈ t, e.1.draws = true) : m.after t = (stores t).foldl Mem.store m := by
  induction t generalizing m with
  | nil => rfl
  | cons e t ih =>
    obtain ⟨he, ht⟩ := List.forall_mem_cons.1 h
    obtain ⟨c, a⟩ := e
    cases c <;> first | exact ih ht | cases he

theorem event_zero {e : Event Answer} (he : e.1.draws = false) (h : m map i = 0) : m.event e map i = 0 := by
  obtain ⟨c, a⟩ := e
  cases c
  case clear map' size =>
    by_cases hin : map = map' ∧ i < size.toNat
    · exact if_pos hin
    · exact (if_neg hin).trans h
  all_goals first | exact h | cases he

/-- what is clear stays so as long as nothing is stored -/
theorem after_zero (h : ∀ e ∈ t, e.1.draws = false) (hzero : m map i = 0) : m.after t map i = 0 := by
  induction t generalizing m with
  | nil => exact hzero
  | cons e t ih =>
    obtain ⟨he, ht⟩ := List.forall_mem_cons.1 h
    exact ih ht (event_zero he hzero)

theorem after_clear {size : UInt32} {u : Unit} (h : ∀ e ∈ t, e.1.draws = false)
    (hmem : (⟨.clear map size, u⟩ : Event Answer) ∈ t) (hlt : i < size.toNat) : m.after t map i = 0 := by
  induction t generalizing m with
  | nil => exact absurd hmem List.not_mem_nil
  | cons e t ih =>
    obtain ⟨-, ht⟩ := List.forall_mem_cons.1 h
    rcases List.mem_cons.1 hmem with rfl | hmem
    · have hzero : m.clear map size map i = 0 := if_pos ⟨rfl, hlt⟩
      rw [Mem.after_cons]
      exact after_zero ht hzero
    · exact ih ht hmem

/-! ## What is on the screen -/

/-- the buffer has room for the lines that the mode has -/
structure Room (dev : Dev) : Prop where
  line : 4 * dev.width.toNat ≤ dev.stride.toNat
  lines : dev.stride.toNat * dev.height.toNat ≤ dev.size.toNat

/-- where pixel `k` of line `j` begins -/
def Dev.place (dev : Dev) (j k : ℕ) : ℕ := dev.stride.toNat * j + 4 * k

theorem Room.place_le (h : Room dev) {j k : ℕ} (hj : j < dev.height.toNat) (hk : k < dev.width.toNat) :
    dev.place j k + 4 ≤ dev.size.toNat := by
  have hline := h.line
  have hnext : dev.stride.toNat * (j + 1) ≤ dev.stride.toNat * dev.height.toNat := Nat.mul_le_mul_left _ hj
  have hlines := h.lines
  rw [Nat.mul_add_one] at hnext
  unfold Dev.place
  omega

theorem Room.off_toNat (h : Room dev) {j k : ℕ} (hj : j < dev.height.toNat) (hk : k < dev.width.toNat) :
    (dev.stride * j.toUInt32 + k.toUInt32 * 4).toNat = dev.place j k := by
  have hplace := h.place_le hj hk
  have hsize := dev.size.toNat_lt
  have hju : j.toUInt32.toNat = j := UInt32.toNat_ofNat_of_lt' (hj.trans dev.height.toNat_lt_size)
  have hku : k.toUInt32.toNat = k := UInt32.toNat_ofNat_of_lt' (hk.trans dev.width.toNat_lt_size)
  have hfour : (4 : UInt32).toNat = 4 := rfl
  unfold Dev.place at hplace ⊢
  rw [UInt32.toNat_add, UInt32.toNat_mul, UInt32.toNat_mul, hju, hku, hfour]
  rw [Nat.mod_eq_of_lt (show dev.stride.toNat * j < 2 ^ 32 by omega)]
  omega

theorem Room.place_div (h : Room dev) {j k i : ℕ} (hk : k < dev.width.toNat)
    (hi : dev.place j k ≤ i ∧ i < dev.place j k + 4) : i / dev.stride.toNat = j := by
  have hline := h.line
  unfold Dev.place at hi
  apply Nat.div_eq_of_lt_le
  · rw [Nat.mul_comm]
    omega
  · rw [Nat.mul_comm, Nat.mul_add_one]
    omega

/-- a byte belongs to one pixel -/
theorem Room.place_inj (h : Room dev) {j k j' k' i : ℕ} (hk : k < dev.width.toNat) (hk' : k' < dev.width.toNat)
    (hi : dev.place j k ≤ i ∧ i < dev.place j k + 4) (hi' : dev.place j' k' ≤ i ∧ i < dev.place j' k' + 4) :
    j = j' ∧ k = k' := by
  obtain rfl := (h.place_div hk hi).symm.trans (h.place_div hk' hi')
  unfold Dev.place at hi hi'
  omega

theorem mem_frame {v : UInt32} {s : Store} : s ∈ frame v dev ↔ ∃ j < dev.height.toNat, ∃ k < dev.width.toNat,
    s = ⟨dev.map, dev.stride * j.toUInt32 + k.toUInt32 * 4, v⟩ := by
  simp [frame, List.mem_flatMap, eq_comm]

/-- which bytes of its own mapping a device stores -/
theorem Room.covers (h : Room dev) {v : UInt32} {s : Store} (hs : s ∈ frame v dev) :
    ∃ j < dev.height.toNat, ∃ k < dev.width.toNat, s.off.toNat = dev.place j k ∧ s.map = dev.map ∧ s.v = v := by
  obtain ⟨j, hj, k, hk, rfl⟩ := mem_frame.1 hs
  exact ⟨j, hj, k, hk, h.off_toNat hj hk, rfl, rfl⟩

/-- a round stores a device's own frame in its mapping and nothing else -/
theorem round_frame (hmaps : (list.map Dev.map).Nodup) (hdev : dev ∈ list) {c : Colors} {s : Store}
    (hs : s ∈ round list c) (hmap : s.map = dev.map) : s ∈ frame c.pixel dev := by
  obtain ⟨dev', hdev', hs⟩ := List.mem_flatMap.1 hs
  obtain ⟨j, -, k, -, rfl⟩ := mem_frame.1 hs
  obtain rfl := List.inj_on_of_nodup_map hmaps hdev' hdev hmap
  exact hs

/-- a round fills the pixels -/
theorem round_pixel (hmaps : (list.map Dev.map).Nodup) (hdev : dev ∈ list) (hroom : Room dev) {c : Colors} {j k b : ℕ}
    (hj : j < dev.height.toNat) (hk : k < dev.width.toNat) (hb : b < 4) :
    (round list c).foldl Mem.store m dev.map (dev.place j k + b) = byteAt c.pixel b := by
  refine foldl_store (fun s hs hcov => ?_) (Or.inr ?_)
  · obtain ⟨hmap, hcov⟩ := hcov
    obtain ⟨j', -, k', hk', hoff, -, hv⟩ := hroom.covers (round_frame hmaps hdev hs hmap.symm)
    rw [hoff] at hcov
    rw [hoff, hv]
    obtain ⟨rfl, rfl⟩ := hroom.place_inj hk hk' ⟨Nat.le_add_right _ _, by omega⟩ hcov
    rw [Nat.add_sub_cancel_left]
  · refine ⟨⟨dev.map, dev.stride * j.toUInt32 + k.toUInt32 * 4, c.pixel⟩, ?_, rfl, ?_⟩
    · exact List.mem_flatMap.2 ⟨dev, hdev, mem_frame.2 ⟨j, hj, k, hk, rfl⟩⟩
    · rw [hroom.off_toNat hj hk]
      omega

/-- what a device has on its screen and in the rest of its buffer -/
structure Shows (m : Mem) (dev : Dev) (c : Colors) : Prop where
  pixel : ∀ j < dev.height.toNat, ∀ k < dev.width.toNat, m dev.map (dev.place j k) = c.b ∧
    m dev.map (dev.place j k + 1) = c.g ∧ m dev.map (dev.place j k + 2) = c.r ∧ m dev.map (dev.place j k + 3) = 0
  rest : ∀ i < dev.size.toNat, (∀ j < dev.height.toNat, ∀ k < dev.width.toNat,
    ¬ (dev.place j k ≤ i ∧ i < dev.place j k + 4)) → m dev.map i = 0

/-- the addresses that `mmap` has returned -/
def mapped : Event Answer → Option Ptr
  | ⟨.mmap _ _ _, .ok map⟩ => some map
  | _ => none

/-- the kernel makes buffers with room for the lines asked for; their size has 32 bits -/
def hasRoom : Event Answer → Bool
  | ⟨.createDumb _ width height _, .ok creq⟩ => decide (4 * width.toNat ≤ creq.pitch.toNat ∧
      creq.pitch.toNat * height.toNat ≤ creq.size.toNat ∧ creq.size.toNat < 2 ^ 32)
  | _ => true

theorem Answered.room {res : Res} (h : Answered fd t res dev) (hroomy : ∀ e ∈ t, hasRoom e = true) : Room dev := by
  obtain ⟨creq, offset, hcalls, hstride, hsize⟩ := h.buffer
  obtain ⟨hline, hlines, hlt⟩ := of_decide_eq_true (hroomy _ (hcalls List.mem_cons_self))
  refine ⟨by rw [hstride]; exact hline, ?_⟩
  rw [hstride, hsize, UInt64.toNat_toUInt32, Nat.mod_eq_of_lt hlt]
  exact hlines

theorem Answered.mem_mapped (fd : Fd) (t : List (Event Answer)) (res : Res) (dev : Dev) (h : Answered fd t res dev) :
    dev.map ∈ t.filterMap mapped := by
  obtain ⟨creq, offset, hcalls, -⟩ := h.buffer
  have hmmap : (⟨.mmap fd creq.size.toUInt32 offset, .ok dev.map⟩ : Event Answer) ∈ bufferCalls fd dev creq offset := by
    simp [bufferCalls]
  exact List.mem_filterMap.2 ⟨_, hcalls hmmap, rfl⟩

theorem Answered.cleared {res : Res} (h : Answered fd t res dev) (ht : ∀ e ∈ t, e.1.draws = false)
    (hi : i < dev.size.toNat) : m.after t dev.map i = 0 := by
  obtain ⟨creq, offset, hcalls, -, hsize⟩ := h.buffer
  have hclear : (⟨.clear dev.map creq.size.toUInt32, ()⟩ : Event Answer) ∈ bufferCalls fd dev creq offset := by
    simp [bufferCalls]
  exact after_clear ht (hcalls hclear) (hsize ▸ hi)

/-- after the last round a device shows its colour, if it was clear before -/
theorem rounds_show (hmaps : (list.map Dev.map).Nodup) (hdev : dev ∈ list) (hroom : Room dev)
    (hclear : ∀ i < dev.size.toNat, m dev.map i = 0) {cs : List Colors} {last : Colors} :
    Shows (((cs ++ [last]).flatMap (round list)).foldl Mem.store m) dev last := by
  constructor
  · intro j hj k hk
    rw [List.flatMap_append, List.foldl_append, List.flatMap_singleton]
    obtain ⟨h0, h1, h2, h3⟩ := pixel_bytes last
    have hbyte := fun b hb => round_pixel (m := (cs.flatMap (round list)).foldl Mem.store m) hmaps hdev hroom
      (c := last) (b := b) hj hk hb
    exact ⟨(hbyte 0 (by decide)).trans h0, (hbyte 1 (by decide)).trans h1, (hbyte 2 (by decide)).trans h2,
      (hbyte 3 (by decide)).trans h3⟩
  · intro i hi hout
    rw [foldl_store_same, hclear i hi]
    rintro s hs ⟨hmap, hcov⟩
    obtain ⟨c, -, hs⟩ := List.mem_flatMap.1 hs
    obtain ⟨j, hj, k, hk, hoff, -, -⟩ := hroom.covers (round_frame hmaps hdev hs hmap.symm)
    rw [hoff] at hcov
    exact hout j hj k hk hcov

/-- **What is on the screens.** If the kernel makes buffers that have room and maps each in a place of its own, then all
that is stored stays inside the buffers, the colour drifts, and in the end every screen has the last colour on it. -/
theorem screen_shows (fd : Fd) (list list' : List Dev) (t₁ t₂ t₃ : List (Event Answer)) (o : Option Unit) (m : Mem)
    (h₁ : (modesetPrepare fd []).Run t₁ (some (.ok list))) (h₂ : (modesetShow fd list).Run t₂ (some list'))
    (h₃ : (modesetDraw list').Run t₃ o) (hroomy : ∀ e ∈ t₁, hasRoom e = true) (hmaps : (t₁.filterMap mapped).Nodup) :
    (∀ s ∈ stores t₃, ∃ dev ∈ list', s.map = dev.map ∧ s.off.toNat + 4 ≤ dev.size.toNat) ∧
      ∃ c cs last, cs.length = 49 ∧ (c :: (cs ++ [last])).IsChain Near ∧
        ∀ dev ∈ list', Shows (m.after (t₁ ++ t₂ ++ t₃)) dev last := by
  obtain ⟨-, res, -, hall⟩ := prepare_run h₁
  obtain ⟨hbare, hshow⟩ := show_bare h₂
  obtain ⟨-, c, cs, hlen, hchain, hstores⟩ := draw_run h₃
  have hsetup : ∀ e ∈ t₁, e.1.draws = false := fun e he => draws_of_setsUp ((sure_prepare t₁ _ h₁).1 e he)
  have hdev : ∀ dev ∈ list', Room dev ∧ ∀ i < dev.size.toNat, m.after (t₁ ++ t₂) dev.map i = 0 := by
    intro dev hdev
    obtain ⟨dev', hdev', heq⟩ : ∃ dev' ∈ list, dev'.bare = dev.bare := by
      have hmem : dev.bare ∈ list.map Dev.bare := hbare ▸ List.mem_map_of_mem hdev
      exact List.mem_map.1 hmem
    have hroom : Room dev'.bare := let h := (hall dev' hdev').2.room hroomy; ⟨h.line, h.lines⟩
    have hclear : ∀ i < dev'.bare.size.toNat, m.after t₁ dev'.bare.map i = 0 := fun i hi =>
      (hall dev' hdev').2.cleared hsetup hi
    rw [heq] at hroom hclear
    refine ⟨⟨hroom.line, hroom.lines⟩, fun i hi => ?_⟩
    rw [Mem.after_append]
    exact after_zero hshow (hclear i hi)
  have hnodup : (list'.map Dev.map).Nodup := by
    have heq : list'.map Dev.map = list.map Dev.map := by
      have hmap := congrArg (List.map Dev.map) hbare
      rwa [List.map_map, List.map_map] at hmap
    rw [heq, ← List.nodup_reverse]
    exact hmaps.sublist (prepare_order Answered.mem_mapped h₁)
  refine ⟨fun s hs => ?_, ?_⟩
  · rw [hstores] at hs
    obtain ⟨c, -, hs⟩ := List.mem_flatMap.1 hs
    obtain ⟨dev, hmem, hs⟩ := List.mem_flatMap.1 hs
    obtain ⟨j, hj, k, hk, hoff, hmap, -⟩ := (hdev dev hmem).1.covers hs
    exact ⟨dev, hmem, hmap, hoff ▸ (hdev dev hmem).1.place_le hj hk⟩
  · rcases List.eq_nil_or_concat cs with rfl | ⟨cs, last, rfl⟩
    · cases hlen
    refine ⟨c, cs, last, by simpa using hlen, by simpa using hchain, fun dev hmem => ?_⟩
    rw [Mem.after_append, after_draws (confined_draw (B := fun _ => False) (fun _ => id) (fun _ _ _ _ => id) _ _ h₃).1,
      hstores, List.concat_eq_append]
    exact rounds_show hnodup hmem (hdev dev hmem).1 (hdev dev hmem).2

/-- the device once its configuration is saved -/
def oneShown : Dev := { oneDev with savedCrtc := some ⟨700, ⟨41, 60, 0, 0, ⟨1, 1, 60⟩⟩⟩ }

set_option maxRecDepth 4000 in
theorem screen_shows_oneScreen : ∃ c cs last, cs.length = 49 ∧ (c :: (cs ++ [last])).IsChain Near ∧
    Shows (Mem.after (fun _ _ => 0) (((modesetPrepare 3 []).played oneScreen ()).1 ++
      ((modesetShow 3 [oneDev]).played oneScreen ()).1 ++ ((modesetDraw [oneShown]).played oneScreen ()).1))
      oneShown last := by
  obtain ⟨-, c, cs, last, hlen, hchain, hshows⟩ := screen_shows 3 [oneDev] [oneShown] _ _ _ _ (fun _ _ => 0)
    prepare_oneScreen (Prog.run_played oneScreen (modesetShow 3 [oneDev]) ())
    (Prog.run_played oneScreen (modesetDraw [oneShown]) ()) (by decide) (by decide)
  exact ⟨c, cs, last, hlen, hchain, hshows oneShown (List.mem_singleton.2 rfl)⟩

end Hodgepodge.Drm
