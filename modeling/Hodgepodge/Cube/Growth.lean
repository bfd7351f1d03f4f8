/-
How many cubes the search of tcube.cpp meets. With `3-k` in the table of the rings, the cells come apart from the pieces
of the cube, but they still move in pieces: cell `k` of one side of an edge always stays with cell `4-k` of the other,
so the corner cells go in pairs and the others in triples. The colours of a piece tell it from all others, so a cube
shows where all its cells have come from.

There are too many cubes to list. A chain of eleven words shows that there are many: their powers make more than 10^13
cubes of at most 1462 turns each.

Results:
- `turn_mate`, `colours_tell`: the pieces stay together, and different moves make different cubes.
- `chain_apart`: the words of the chain lead to different cubes.
- `big_level`: some depth of the search has 2^31 cubes or more.
- `search_overflows`: the `int k` that counts it overflows, so the search of `main` does not come to its end.
-/
import Hodgepodge.Core.BaseChain
import Hodgepodge.Cube.Search

namespace Hodgepodge.Cube

open Hodgepodge.Core

/-! ## The turns -/

/-- `source initPeerOff`, as a table -/
def sources : List (List ℕ) :=
  [[2, 3, 4, 5, 6, 7, 0, 1, 8, 45, 46, 47, 12, 13, 14, 15, 16, 9, 10, 11, 20, 21, 22, 23, 24, 17, 18, 19, 28, 29, 30,
      31, 32, 33, 34, 35, 36, 37, 38, 39, 40, 41, 42, 43, 44, 25, 26, 27],
    [16, 17, 2, 3, 4, 5, 6, 23, 10, 11, 12, 13, 14, 15, 8, 9, 32, 33, 18, 19, 20, 21, 22, 39, 24, 25, 26, 27, 28, 29,
      30, 31, 40, 41, 34, 35, 36, 37, 38, 47, 0, 1, 42, 43, 44, 45, 46, 7],
    [0, 1, 2, 3, 4, 31, 24, 25, 8, 9, 10, 5, 6, 7, 14, 15, 18, 19, 20, 21, 22, 23, 16, 17, 34, 35, 26, 27, 28, 29, 30,
      33, 32, 11, 12, 13, 36, 37, 38, 39, 40, 41, 42, 43, 44, 45, 46, 47],
    [0, 1, 2, 43, 44, 45, 6, 7, 8, 9, 10, 11, 12, 13, 14, 15, 16, 17, 18, 3, 4, 5, 22, 23, 26, 27, 28, 29, 30, 31, 24,
      25, 32, 33, 34, 19, 20, 21, 38, 39, 40, 41, 42, 35, 36, 37, 46, 47],
    [0, 1, 2, 3, 4, 5, 6, 7, 8, 9, 10, 11, 12, 21, 22, 23, 16, 17, 18, 19, 20, 29, 30, 31, 24, 25, 26, 27, 28, 41, 42,
      43, 34, 35, 36, 37, 38, 39, 32, 33, 40, 13, 14, 15, 44, 45, 46, 47],
    [0, 15, 8, 9, 4, 5, 6, 7, 38, 39, 10, 11, 12, 13, 14, 37, 16, 17, 18, 19, 20, 21, 22, 23, 24, 25, 26, 1, 2, 3, 30,
      31, 32, 33, 34, 35, 36, 27, 28, 29, 42, 43, 44, 45, 46, 47, 40, 41]]

def face (n : ℕ) : Fin 6 := ⟨n % 6, Nat.mod_lt n (Nat.succ_pos 5)⟩

def cell (n : ℕ) : Fin 48 := ⟨n % 48, Nat.mod_lt n (Nat.succ_pos 47)⟩

def turn (f : Fin 6) (c : Fin 48) : Fin 48 := cell ((sources.getD f []).getD c 0)

theorem source_eq : ∀ f c, source initPeerOff f c = turn f c := by decide +kernel

theorem turn_injective : ∀ f, Function.Injective (turn f) := by decide +kernel

/-- some turns of a cube, and where its cells come from -/
theorem run_turns (root : Cells UInt8) (fs : List (Fin 6)) (s : Cells UInt8) :
    (turns root).run s fs = some (s ∘ BaseChain.apply turn fs) := by
  induction fs generalizing s with
  | nil => rfl
  | cons f fs ih =>
    have hsource : source initPeerOff f = turn f := funext (source_eq f)
    refine (turns root).run_cons.2 ⟨_, rfl, ?_⟩
    rw [ih, rotateFace_eq, hsource]
    rfl

/-! ## The pieces -/

/-- the other side of an edge -/
def across (face : Fin 6) (edge : Fin 4) : Fin 6 × Fin 4 :=
  (el.findSome? fun e =>
    if (e.face0, e.edge0) = (face, edge) then some (e.face1, e.edge1)
    else if (e.face1, e.edge1) = (face, edge) then some (e.face0, e.edge0)
    else none).getD (face, edge)

/-- the cell that stays with a cell: `4-k` on the other side of the edge on which the cell is 2 or 1 -/
def mate (c : Fin 48) : Fin 48 :=
  let k : ℕ := if (c : ℕ) % 2 = 0 then 2 else 1
  let p := across (face (c / 8)) ⟨(c % 8 + 8 - k) / 2 % 4, Nat.mod_lt _ (Nat.succ_pos 3)⟩
  get p.1 p.2 (4 - k)

theorem turn_mate : ∀ f c, turn f (mate c) = mate (turn f c) := by decide +kernel

theorem turn_parity : ∀ f c, (turn f c : ℕ) % 2 = c % 2 := by decide +kernel

/-- the colours of a cell and its mate -/
theorem mate_tells : ∀ c d : Fin 48,
    (c : ℕ) % 2 = d % 2 → (c : ℕ) / 8 = d / 8 → (mate c : ℕ) / 8 = mate d / 8 → c = d := by
  decide +kernel

variable {fs gs : List (Fin 6)}

theorem apply_mate (fs : List (Fin 6)) (c : Fin 48) :
    BaseChain.apply turn fs (mate c) = mate (BaseChain.apply turn fs c) := by
  induction fs with
  | nil => rfl
  | cons f fs ih => exact (congrArg (turn f) ih).trans (turn_mate f _)

theorem apply_parity (fs : List (Fin 6)) (c : Fin 48) : ((BaseChain.apply turn fs c : Fin 48) : ℕ) % 2 = c % 2 := by
  induction fs with
  | nil => rfl
  | cons f fs ih => exact (turn_parity f _).trans ih

theorem face_of_colour {c d : Fin 48} (h : solved c = solved d) : (c : ℕ) / 8 = d / 8 := by
  rw [solved, reset_apply, reset_apply, ← UInt8.toNat_inj, UInt8.toNat_ofNat', UInt8.toNat_ofNat'] at h
  omega

/-- **A turned cube shows where its cells have come from.** -/
theorem colours_tell (h : solved ∘ BaseChain.apply turn fs = solved ∘ BaseChain.apply turn gs) :
    BaseChain.apply turn fs = BaseChain.apply turn gs := by
  funext c
  refine mate_tells _ _ ?_ (face_of_colour (congrFun h c)) ?_
  · rw [apply_parity, apply_parity]
  · rw [← apply_mate, ← apply_mate]
    exact face_of_colour (congrFun h (mate c))

/-! ## A big level -/

/-- cells, and turns that take each one around, behind which the cells before it stay -/
def chain : List (BaseChain.Stage (Fin 6) (Fin 48)) :=
  [(1, [0, 0, 1, 4], 21),
    (3, [2, 2, 2, 4, 3], 18),
    (0, [1, 5, 0, 0, 1, 4, 3, 3, 3, 0], 22),
    (2, [5, 5, 5, 1, 4, 1, 1, 1, 3, 4, 2], 20),
    (4, [4, 2, 3, 0, 5, 5, 5, 0, 0, 0], 18),
    (5, [2, 4], 15),
    (8, [3, 2, 2, 2, 0, 0, 0, 4, 1, 2, 2, 2, 0], 14),
    (6, [2, 0, 3, 3, 3, 0, 0, 0, 1, 1, 1, 4, 1, 4], 14),
    (7, [4, 4, 2, 4, 2, 2, 2], 12),
    (12, [4, 4, 2, 2, 2, 3, 3, 3, 2, 2, 2, 3, 4, 2], 10),
    (14, [4, 4, 3, 3, 3, 4, 4, 4, 5, 5, 5, 3, 5, 3], 10)].map
      fun g => ⟨cell g.1, g.2.1.map face, g.2.2⟩

theorem chain_apart : BaseChain.Apart turn chain := by decide +kernel

/-- **Some depth has too many cubes to count.** -/
theorem big_level : ∃ d, 2147483648 ≤ { c | (turns solved).Level d c }.ncard := by
  let cube (fs : List (Fin 6)) : Cells UInt8 := solved ∘ BaseChain.apply turn fs
  have hnodup : ((BaseChain.words chain).map cube).Nodup := by
    have hcomp : cube = (solved ∘ ·) ∘ BaseChain.apply turn := rfl
    rw [hcomp, ← List.map_map]
    refine List.Nodup.map_on ?_ (BaseChain.words_distinct turn_injective chain_apart)
    intro f hf g hg h
    obtain ⟨fs, -, rfl⟩ := List.mem_map.1 hf
    obtain ⟨gs, -, rfl⟩ := List.mem_map.1 hg
    exact colours_tell h
  have hwithin : ∀ c ∈ ((BaseChain.words chain).map cube).toFinset, (turns solved).Within 1462 c := by
    intro c hc
    obtain ⟨fs, hfs, rfl⟩ := List.mem_map.1 (List.mem_toFinset.1 hc)
    exact ⟨fs.length, BaseChain.length_le hfs, fs, rfl, run_turns _ fs solved⟩
  have hcard : (1462 + 1) * 2147483647 < ((BaseChain.words chain).map cube).toFinset.card := by
    rw [List.toFinset_card_of_nodup hnodup, List.length_map, BaseChain.length_words]
    decide
  obtain ⟨d, -, Y, hY, hlevel⟩ := (turns solved).exists_big_level hwithin hcard
  refine ⟨d, Nat.le_trans (Nat.succ_le_of_lt hY) ?_⟩
  rw [← Set.ncard_coe_finset Y]
  exact Set.ncard_le_ncard (fun c hc => hlevel c hc) (Set.toFinite _)

theorem search_none {root : Cells UInt8} {m n : ℕ} (h : search root m = none) (hmn : m ≤ n) : search root n = none := by
  induction hmn with
  | refl => exact h
  | step _ ih => rw [search, ih, Option.bind_none]

/-- **The search of `main` overflows.** From the solved cube, the loop over some depth counts further than an `int`, so
the search never comes to an empty depth. -/
theorem search_overflows :
    (∃ d, (∃ c, (turns solved).Level d c) ∧ search solved (d + 1) = none) ∧
      ¬ ∃ n s, search solved n = some s ∧ s.cur = [] := by
  obtain ⟨d, hd⟩ := big_level
  have hfull : { c | (turns solved).Level d c }.Nonempty := Set.nonempty_of_ncard_ne_zero (by omega)
  obtain ⟨c, hc⟩ := hfull
  have hlev : ∀ m < d + 1, ∃ c, (turns solved).Level m c := fun m hm =>
    level_before hc (Nat.le_of_lt_succ hm)
  have hnone : search solved (d + 1) = none := by
    refine Option.eq_none_iff_forall_ne_some.2 fun s hs => ?_
    have hcounts := (search_some_iff hlev).1 ⟨s, hs⟩ d (Nat.lt_succ_self d)
    exact Nat.not_lt.2 hd hcounts.1
  refine ⟨⟨d, ⟨c, hc⟩, hnone⟩, ?_⟩
  rintro ⟨n, s, hs, hcur⟩
  rcases Nat.lt_or_ge d n with hlt | hle
  · rw [search_none hnone hlt] at hs
    cases hs
  · -- the depths up to `d` are not empty
    have hf := search_frontier (fun m hm => hlev m (by omega)) hs
    obtain ⟨c, hc⟩ := hlev n (by omega)
    have hmem := (hf.cur c).2 hc
    rw [hcur] at hmem
    exact List.not_mem_nil hmem

end Hodgepodge.Cube
