/-
The cube of tcube.cpp: six faces of eight cells around a centre that never moves, `s[6*8]`. A table gives, for each
face, the ring of twelve cells of its neighbours that move with it; `init_peer_off` fills it from the twelve edges that
two faces share.

Cell `k` of one side of an edge touches cell `2-k` of the other, so the cells form 12 edge pieces and 8 corner pieces.
The table is filled with `3-k`: each strip of a ring starts and ends one cell too far, a turn moves three wrong cells of
each neighbour, and pieces come apart. The last cell of a strip is a parameter of the table here, so that the turns of
both tables are the same definition.

Results:
- `rotateFace_eq`: a turn moves the cells' contents, the same way whatever they are.
- `mem_piece_iff`, `pieces_eq`: the pieces are the connected groups of touching cells, 12 of two and 8 of three.
- `legal_comp`: a move that takes pieces to pieces keeps a legal cube legal.
- `legal_two`: with `2-k` every cube of every run is legal.
- `legal_iff_unturned`: with `3-k` the cubes of a run are legal iff it has no turn.
-/
import Mathlib.Data.Finset.Card
import Mathlib.Data.Fintype.Basic
import Mathlib.Data.List.FinRange
import Mathlib.Logic.Relation
import Mathlib.Tactic.Common

namespace Hodgepodge.Cube

/-! ## The cells -/

/-- an edge that two faces share -/
structure CubeEdgeLink where
  face0 : Fin 6
  edge0 : Fin 4
  face1 : Fin 6
  edge1 : Fin 4
deriving DecidableEq

def el : List CubeEdgeLink :=
  [⟨0, 0, 5, 2⟩, ⟨0, 1, 3, 0⟩, ⟨0, 2, 2, 0⟩, ⟨0, 3, 1, 0⟩,
    ⟨4, 0, 2, 2⟩, ⟨4, 1, 3, 2⟩, ⟨4, 2, 5, 0⟩, ⟨4, 3, 1, 2⟩,
    ⟨1, 1, 2, 3⟩, ⟨2, 1, 3, 3⟩, ⟨3, 1, 5, 1⟩, ⟨1, 3, 5, 3⟩]

/-- the place in `s` of `get(face, edge, id)`; `get(face)[k]` is edge 0, `k` -/
def get (face : Fin 6) (edge id : ℕ) : Fin 48 := ⟨face * 8 + (edge * 2 + id) % 8, by omega⟩

/-- what the 48 cells hold -/
abbrev Cells (α : Type*) := Fin 48 → α

variable {α β : Type*}

/-- a loop that stores `value k` in the cell `place k`, for k = 0, 1, .. -/
def store {n : ℕ} (s : Cells α) (place : Fin n → Fin 48) (value : Fin n → α) : Cells α :=
  (List.finRange n).foldl (fun s k => Function.update s (place k) (value k)) s

theorem comp_store {n : ℕ} (g : α → β) (s : Cells α) (place : Fin n → Fin 48) (value : Fin n → α) :
    g ∘ store s place value = store (g ∘ s) place (g ∘ value) := by
  unfold store
  generalize List.finRange n = ks
  induction ks generalizing s with
  | nil => rfl
  | cons k ks ih => rw [List.foldl_cons, ih, Function.comp_update, List.foldl_cons]; rfl

/-! ## The table of the rings -/

/-- `peer_off[face][k]` -/
abbrev PeerOff := Fin 6 → Fin 12 → Fin 48

/-- one side of an edge: place `k` of the strip on `face` is the cell `last - k` of the other side -/
def link (last : ℕ) (t : PeerOff) (face : Fin 6) (edge : Fin 4) (face' : Fin 6) (edge' : Fin 4) : PeerOff :=
  (List.finRange 3).foldl (fun t (k : Fin 3) => Function.update t face
    (Function.update (t face) ⟨edge * 3 + k, by omega⟩ (get face' edge' (last - k)))) t

/-- the table that links the edges with `last - k` -/
def peerOff (last : ℕ) : PeerOff :=
  el.foldl (fun t e => link last (link last t e.face0 e.edge0 e.face1 e.edge1) e.face1 e.edge1 e.face0 e.edge0)
    fun _ _ => 0

/-- the table of the program, with `3-k` -/
def initPeerOff : PeerOff := peerOff 3

/-! ## The turns -/

/-- the cells of the face move by two, those of its ring by three; `temp` is the face, then the ring, with its first
cells once more at the end -/
def rotateFace (t : PeerOff) (f : Fin 6) (s : Cells α) : Cells α :=
  let temp (k : ℕ) : α := s (get f 0 (if k < 8 then k else k - 8))
  let s := store s (fun k : Fin 8 => get f 0 k) fun k => temp (k + 2)
  let temp (k : ℕ) : α := s (t f (Fin.ofNat 12 (if k < 12 then k else k - 12)))
  store s (t f) fun k => temp (k + 3)

/-- the cell that the content of a cell comes from -/
def source (t : PeerOff) (f : Fin 6) : Cells (Fin 48) := rotateFace t f id

theorem comp_rotateFace (g : α → β) (t : PeerOff) (f : Fin 6) (s : Cells α) :
    g ∘ rotateFace t f s = rotateFace t f (g ∘ s) := by
  simp only [rotateFace, comp_store]
  congr 1
  funext k
  exact congrFun (comp_store g s _ _) _

/-- **A turn moves cells.** -/
theorem rotateFace_eq (t : PeerOff) (f : Fin 6) (s : Cells α) : rotateFace t f s = s ∘ source t f :=
  (comp_rotateFace s t f id).symm

/-- every cell of a face gets the face's colour -/
def reset (s : Cells UInt8) : Cells UInt8 :=
  (List.finRange 6).foldl (fun s face => store s (fun k : Fin 8 => get face 0 k) fun _ => UInt8.ofNat face) s

theorem store_const {n : ℕ} (s : Cells α) (place : Fin n → Fin 48) (a : α) (c : Fin 48) :
    store s place (fun _ => a) c = if ∃ k, place k = c then a else s c := by
  have h : ∀ ks : List (Fin n), ks.foldl (fun s k => Function.update s (place k) a) s c =
      if ∃ k ∈ ks, place k = c then a else s c := by
    intro ks
    induction ks using List.reverseRecOn with
    | nil => simp
    | append_singleton ks k ih =>
      rw [List.foldl_append, List.foldl_cons, List.foldl_nil, Function.update_apply, ih]
      by_cases hk : c = place k
      · simp [hk]
      · simp [hk, Ne.symm hk, or_and_right, exists_or]
  exact (h (List.finRange n)).trans (by simp)

theorem reset_apply (s : Cells UInt8) (c : Fin 48) : reset s c = UInt8.ofNat (c / 8) := by
  have hface : ∀ (face : Fin 6), (∃ k : Fin 8, get face 0 k = c) ↔ (face : ℕ) = c / 8 := by
    revert c
    decide +kernel
  have h : ∀ fs : List (Fin 6), fs.foldl (fun s face => store s (fun k : Fin 8 => get face 0 k)
      fun _ => UInt8.ofNat face) s c = if (c / 8 : ℕ) ∈ fs.map Fin.val then UInt8.ofNat (c / 8) else s c := by
    intro fs
    induction fs using List.reverseRecOn with
    | nil => simp
    | append_singleton fs f ih =>
      rw [List.foldl_append, List.foldl_cons, List.foldl_nil, store_const, ih, List.map_append, List.map_singleton]
      by_cases hf : (f : ℕ) = c / 8
      · rw [if_pos ((hface f).2 hf), if_pos (by simp [hf]), hf]
      · rw [if_neg fun hk => hf ((hface f).1 hk)]
        simp [Ne.symm hf]
  have hmem : ∀ c : Fin 48, (c / 8 : ℕ) ∈ (List.finRange 6).map Fin.val := by decide +kernel
  exact (h _).trans (if_pos (hmem c))

/-- the cube after `reset()` and some turns; `s` is what its memory held before -/
def turned (t : PeerOff) (s : Cells UInt8) (fs : List (Fin 6)) : Cells UInt8 :=
  fs.foldl (fun s f => rotateFace t f s) (reset s)

theorem turned_nil (t : PeerOff) (s : Cells UInt8) : turned t s [] = reset s := by
  rw [turned, List.foldl_nil]

theorem turned_snoc (t : PeerOff) (s : Cells UInt8) (fs : List (Fin 6)) (f : Fin 6) :
    turned t s (fs ++ [f]) = rotateFace t f (turned t s fs) := by
  simp [turned]

/-! ## The pieces -/

/-- the cells that touch, `get(face0, edge0, k)` and `get(face1, edge1, 2-k)` -/
def touching : List (Fin 48 × Fin 48) :=
  el.flatMap fun e => (List.range 3).map fun k => (get e.face0 e.edge0 k, get e.face1 e.edge1 (2 - k))

/-- the cells that touch `c` -/
def neighbours (c : Fin 48) : List (Fin 48) :=
  touching.filterMap fun p => if p.1 = c then some p.2 else if p.2 = c then some p.1 else none

/-- the piece that a cell is on: the cell and those it touches -/
def piece (c : Fin 48) : Finset (Fin 48) := insert c (neighbours c).toFinset

def pieces : Finset (Finset (Fin 48)) := Finset.univ.image piece

def edgePieces : Finset (Finset (Fin 48)) := pieces.filter fun p => p.card = 2

def cornerPieces : Finset (Finset (Fin 48)) := pieces.filter fun p => p.card = 3

theorem piece_of_touching : ∀ p ∈ touching, piece p.1 = piece p.2 := by decide +kernel

/-- **The pieces.** A piece is a connected group of touching cells. -/
theorem mem_piece_iff {c d : Fin 48} :
    d ∈ piece c ↔ Relation.EqvGen (fun a b => (a, b) ∈ touching) c d := by
  constructor
  · intro h
    rcases Finset.mem_insert.1 h with rfl | h
    · exact .refl _
    · obtain ⟨p, hp, hd⟩ := List.mem_filterMap.1 (List.mem_toFinset.1 h)
      split_ifs at hd with h1 h2
      · obtain rfl := Option.some.inj hd
        exact h1 ▸ .rel _ _ hp
      · obtain rfl := Option.some.inj hd
        exact h2 ▸ .symm _ _ (.rel _ _ hp)
  · intro h
    have hp : piece c = piece d := by
      induction h with
      | rel a b h => exact piece_of_touching (a, b) h
      | refl a => rfl
      | symm a b _ ih => exact ih.symm
      | trans a b e _ _ ih ih' => exact ih.trans ih'
    exact hp ▸ Finset.mem_insert_self _ _

theorem pieces_eq : pieces = edgePieces ∪ cornerPieces ∧ edgePieces.card = 12 ∧ cornerPieces.card = 8 := by
  decide +kernel

/-! ## Legal cubes -/

/-- the colours of each piece of a kind, unordered -/
def colours (kind : Finset (Finset (Fin 48))) (s : Cells UInt8) : Multiset (Multiset UInt8) :=
  kind.val.map fun p => p.val.map s

def solved : Cells UInt8 := reset fun _ => 0

theorem reset_eq (s : Cells UInt8) : reset s = solved := funext fun c => by rw [solved, reset_apply, reset_apply]

/-- the pieces have the colours of the solved cube -/
def Legal (s : Cells UInt8) : Prop :=
  colours edgePieces s = colours edgePieces solved ∧ colours cornerPieces s = colours cornerPieces solved

instance : DecidablePred Legal := fun _ => instDecidableAnd

theorem legal_reset (s : Cells UInt8) : Legal (reset s) := by
  rw [reset_eq]
  exact ⟨rfl, rfl⟩

/-- `m` takes each piece of a kind to one of that kind -/
def TakesPieces (m : Fin 48 → Fin 48) (kind : Finset (Finset (Fin 48))) : Prop :=
  (kind.val.map fun p => p.val.map m) = kind.val.map Finset.val

instance (m : Fin 48 → Fin 48) (kind : Finset (Finset (Fin 48))) : Decidable (TakesPieces m kind) :=
  inferInstanceAs (Decidable (_ = _))

theorem colours_comp {m : Fin 48 → Fin 48} {kind : Finset (Finset (Fin 48))} (h : TakesPieces m kind)
    (s : Cells UInt8) : colours kind (s ∘ m) = colours kind s := by
  calc colours kind (s ∘ m) = (kind.val.map fun p => p.val.map m).map (Multiset.map s) := by
        simp [colours, Multiset.map_map]
    _ = (kind.val.map Finset.val).map (Multiset.map s) := by rw [h]
    _ = colours kind s := by simp [colours, Multiset.map_map]

theorem legal_comp {m : Fin 48 → Fin 48} (he : TakesPieces m edgePieces) (hc : TakesPieces m cornerPieces)
    {s : Cells UInt8} (h : Legal s) : Legal (s ∘ m) := by
  unfold Legal
  rw [colours_comp he, colours_comp hc]
  exact h

theorem takesPieces_two (f : Fin 6) :
    TakesPieces (source (peerOff 2) f) edgePieces ∧ TakesPieces (source (peerOff 2) f) cornerPieces := by
  revert f
  decide +kernel

/-- **With `2-k` no piece comes apart.** -/
theorem legal_two (s : Cells UInt8) (fs : List (Fin 6)) : Legal (turned (peerOff 2) s fs) := by
  induction fs using List.reverseRecOn with
  | nil =>
    rw [turned_nil]
    exact legal_reset s
  | append_singleton fs f ih =>
    rw [turned_snoc, rotateFace_eq]
    exact legal_comp (takesPieces_two f).1 (takesPieces_two f).2 ih

theorem torn_of_turn (s : Cells UInt8) (f : Fin 6) : ¬ Legal (turned initPeerOff s [f]) := by
  have h : ∀ f, ¬ Legal (rotateFace initPeerOff f solved) := by decide +kernel
  rw [← List.nil_append [f], turned_snoc, turned_nil, reset_eq]
  exact h f

/-- **Legal until turned.** The cubes that a sequence of turns passes through are all legal iff it has no turn. -/
theorem legal_iff_unturned (s : Cells UInt8) (fs : List (Fin 6)) :
    (∀ gs, gs <+: fs → Legal (turned initPeerOff s gs)) ↔ fs = [] := by
  constructor
  · intro h
    cases fs with
    | nil => rfl
    | cons f fs => exact absurd (h [f] ⟨fs, rfl⟩) (torn_of_turn s f)
  · rintro rfl gs hg
    rw [List.prefix_nil.1 hg, turned_nil]
    exact legal_reset s

/-- one turn of face 0 of the solved cube -/
theorem turn_tears : ¬ ∀ s fs, Legal (turned initPeerOff s fs) := by
  intro h
  exact torn_of_turn (fun _ => 0) 0 (h _ _)

end Hodgepodge.Cube
