/-
Undoing turns (tcube.cpp). A turn moves the eight cells of a face by two and the twelve cells of its ring by three, by
copies through one scratch array. If the cells of the ring are distinct and none is on the face, that is a permutation
of order four, so three more turns of the face undo it. The search of main turns clockwise only; it can still go back
from every cube that it comes to.

The table that `init_peer_off` fills with `3-k` is not that of a real cube (`Cube` says what it tears), but its rings
are distinct cells off their faces.

Results:
- `store_apply`, `store_other`: what a loop of stores leaves, if it stores to distinct cells.
- `Rings`, `rings_initPeerOff`: the rings of a table.
- `rotateFace_four`: four turns of a face, for every table with such rings.
- `turns_undone`: every sequence of turns is undone, on any contents, and loses no sticker; a cube from which the root
  is reachable is reachable from the root.
-/
import Mathlib.Data.Fintype.EquivFin
import Hodgepodge.Cube.Search

namespace Hodgepodge.Cube

open Function Hodgepodge.Core

variable {α : Type*}

/-! ## Stores to distinct cells -/

section

variable {n : ℕ} {s : Cells α} {place : Fin n → Fin 48} {value : Fin n → α}

/-- a cell that nothing is stored to -/
theorem store_other {c : Fin 48} (h : ∀ k, place k ≠ c) : store s place value c = s c := by
  unfold store
  generalize List.finRange n = ks
  induction ks generalizing s with
  | nil => rfl
  | cons k ks ih => rw [List.foldl_cons, ih, update_of_ne (Ne.symm (h k))]

/-- **A loop of stores.** Each of the distinct cells holds its value at the end. -/
theorem store_apply (hinj : Injective place) (k : Fin n) : store s place value (place k) = value k := by
  have h : ∀ ks : List (Fin n), k ∈ ks →
      ks.foldl (fun s k => update s (place k) (value k)) s (place k) = value k := by
    intro ks
    induction ks using List.reverseRecOn with
    | nil => intro hk; cases hk
    | append_singleton ks j ih =>
      intro hk
      rw [List.foldl_append, List.foldl_cons, List.foldl_nil]
      by_cases hj : k = j
      · rw [hj, update_self]
      · rw [update_of_ne fun he => hj (hinj he)]
        exact ih (by simpa [hj] using hk)
  exact h _ (List.mem_finRange k)

end

/-! ## Four turns -/

/-- the cells of each ring are distinct, and off the face -/
structure Rings (t : PeerOff) : Prop where
  ring : ∀ f, Injective (t f)
  off : ∀ f i (k : Fin 8), t f i ≠ get f 0 k

variable {t : PeerOff} {f : Fin 6} {s : Cells α}

theorem get_mod (f : Fin 6) (k : ℕ) : get f 0 (k % 8) = get f 0 k := by
  simp [get]

theorem get_inj : Injective fun k : Fin 8 => get f 0 k := by
  intro j k h
  simp only [get, Fin.mk.injEq] at h
  omega

theorem Rings.off_get (ht : Rings t) (i : Fin 12) (k : ℕ) : t f i ≠ get f 0 k := by
  rw [← get_mod]
  exact ht.off f i ⟨k % 8, by omega⟩

/-- a cell of the face after a turn -/
theorem rotateFace_face (ht : Rings t) (k : ℕ) : rotateFace t f s (get f 0 k) = s (get f 0 (k + 2)) := by
  unfold rotateFace
  simp only
  rw [store_other fun i => ht.off_get i k, ← get_mod f k]
  have hstore : store s (fun k : Fin 8 => get f 0 k)
      (fun k : Fin 8 => s (get f 0 (if (k : ℕ) + 2 < 8 then k + 2 else k + 2 - 8))) (get f 0 (k % 8)) =
        s (get f 0 (if k % 8 + 2 < 8 then k % 8 + 2 else k % 8 + 2 - 8)) := store_apply get_inj ⟨k % 8, by omega⟩
  refine hstore.trans (congrArg s ?_)
  simp only [get, Fin.mk.injEq]
  split_ifs <;> omega

/-- a cell of the ring after a turn -/
theorem rotateFace_ring (ht : Rings t) (i : Fin 12) : rotateFace t f s (t f i) = s (t f (i + 3)) := by
  unfold rotateFace
  simp only
  rw [store_apply (ht.ring f), store_other fun k => (ht.off_get _ k).symm]
  have hindex : ∀ i : Fin 12, Fin.ofNat 12 (if (i : ℕ) + 3 < 12 then i + 3 else i + 3 - 12) = i + 3 := by decide
  rw [hindex]

theorem rotateFace_other {c : Fin 48} (hface : ∀ k, get f 0 k ≠ c) (hring : ∀ i, t f i ≠ c) :
    rotateFace t f s c = s c := by
  unfold rotateFace
  simp only
  rw [store_other hring, store_other fun k => hface k]

/-- **Four turns of a face.** -/
theorem rotateFace_four (ht : Rings t) (f : Fin 6) (s : Cells α) :
    rotateFace t f (rotateFace t f (rotateFace t f (rotateFace t f s))) = s := by
  funext c
  by_cases hface : ∃ k, get f 0 k = c
  · obtain ⟨k, rfl⟩ := hface
    have hround : get f 0 (k + 2 + 2 + 2 + 2) = get f 0 k := by
      rw [← get_mod, ← get_mod f k]
      congr 1
      omega
    rw [rotateFace_face ht, rotateFace_face ht, rotateFace_face ht, rotateFace_face ht, hround]
  · by_cases hring : ∃ i, t f i = c
    · obtain ⟨i, rfl⟩ := hring
      have hround : ∀ i : Fin 12, i + 3 + 3 + 3 + 3 = i := by decide
      rw [rotateFace_ring ht, rotateFace_ring ht, rotateFace_ring ht, rotateFace_ring ht, hround]
    · push Not at hface hring
      rw [rotateFace_other hface hring, rotateFace_other hface hring, rotateFace_other hface hring,
        rotateFace_other hface hring]

/-! ## Undoing -/

theorem rings_initPeerOff : Rings initPeerOff := by
  have hring : ∀ f i j, initPeerOff f i = initPeerOff f j → i = j := by decide +kernel
  exact ⟨fun f i j => hring f i j, by decide +kernel⟩

/-- what undoes turns: the same in reverse order, each three times -/
def undoTurns (fs : List (Fin 6)) : List (Fin 6) := Lts.undo (fun f => [f, f, f]) fs

/-- the contents of the cells, unordered -/
def stickers (s : Cells α) : Multiset α := Finset.univ.val.map s

theorem source_bijective (ht : Rings t) (f : Fin 6) : Bijective (source t f) := by
  refine Finite.injective_iff_bijective.1 ?_
  intro c d h
  have hfour := rotateFace_four ht f (id : Cells (Fin 48))
  simp only [rotateFace_eq] at hfour
  have hc := congrFun hfour c
  have hd := congrFun hfour d
  simp only [comp_apply, id_eq, h] at hc hd
  exact hc.symm.trans hd

theorem stickers_rotateFace (ht : Rings t) (f : Fin 6) (s : Cells α) : stickers (rotateFace t f s) = stickers s := by
  unfold stickers
  rw [rotateFace_eq, ← Multiset.map_map]
  congr 1
  exact Multiset.map_univ_val_equiv (Equiv.ofBijective _ (source_bijective ht f))

variable {root s' : Cells UInt8} {fs : List (Fin 6)}

/-- the turns are possible on every cube -/
theorem turns_run (root s : Cells UInt8) (fs : List (Fin 6)) : ∃ s', (turns root).run s fs = some s' := by
  induction fs generalizing s with
  | nil => exact ⟨s, rfl⟩
  | cons f fs ih =>
    obtain ⟨s', hs'⟩ := ih (rotateFace initPeerOff f s)
    exact ⟨s', Lts.run_cons _ |>.2 ⟨_, rfl, hs'⟩⟩

theorem turns_undo {s : Cells UInt8} (hr : (turns root).run s fs = some s') :
    (turns root).run s' (undoTurns fs) = some s := by
  refine (turns root).run_undo ?_ hr
  intro u f v hv
  cases hv
  exact congrArg some (rotateFace_four rings_initPeerOff f u)

theorem stickers_run {s : Cells UInt8} (hr : (turns root).run s fs = some s') : stickers s' = stickers s := by
  refine (turns root).run_inv (I := fun u => stickers u = stickers s) ?_ rfl hr
  intro u f v hu hv
  cases hv
  exact (stickers_rotateFace rings_initPeerOff f u).trans hu

/-- **Turns can be undone.** For every contents of the cells and every sequence of turns: the turns in reverse order,
each three times, restore the contents, and no sticker is lost or duplicated. A cube from which some cube is reachable,
in particular the root, is reachable from it. -/
theorem turns_undone (root s : Cells UInt8) (fs : List (Fin 6)) :
    (∃ s', (turns root).run s fs = some s' ∧ (turns root).run s' (undoTurns fs) = some s ∧
      stickers s' = stickers s) ∧
      ((turns root).run s fs = some root → (turns root).Reach s) := by
  obtain ⟨s', hs'⟩ := turns_run root s fs
  refine ⟨⟨s', hs', turns_undo hs', stickers_run hs'⟩, ?_⟩
  intro hr
  exact ⟨undoTurns fs, turns_undo hr⟩

example : undoTurns [0, 3] = [3, 3, 3, 0, 0, 0] := rfl

end Hodgepodge.Cube
