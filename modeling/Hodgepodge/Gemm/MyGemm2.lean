/-
The tiled kernel `myGEMM2` (myGEMM.cl), launched as `run_myGEMM` (topencl.cpp) does: global size {M, N}, local size
{TS, TS}, so M/TS times N/TS work-groups of TS*TS work-items. A work-group shares the tiles Asub and Bsub; each item
loads one cell of both, and the barriers separate the loads from the TS products that every item takes from the tiles.

Every statement of an item is one step, and any item that is not done and not at a closed barrier may take the next one.
A cell of a tile remembers the tile number `t` it was written for. A load or store out of bounds is a fault, so is one at
an index that does not fit an `int`, and so is the read of a cell that was not written for the reader's tile: before it
was loaded, or after it was overwritten.

- `loaded_of_compute`: while an item computes, every cell of both tiles holds its tile.
- `Inv`, `run_inv`: the cells hold what their owners have loaded, `acc` is a partial `dot`, C has what was stored.
- `step_moves`: the one lemma about a step; it keeps `Inv`, and brings the item that moves nearer to its end.
- `run_total`, `not_done_moves`: every schedule ends, and nobody is stuck before it does.
- `myGEMM2_eq_matmult`: if the indices fit an `int`, there is no fault, every element of C is written at most once, every
  schedule ends, and when it has, every element was written once, with the value that `matmult` writes.
- `index_overflows`: a load of the first tile, on an A of 2^28 rows.
-/
import Mathlib.Algebra.BigOperators.Group.Finset.Basic
import Mathlib.Algebra.GroupWithZero.Nat
import Mathlib.Data.Fintype.BigOperators
import Mathlib.Data.Fintype.Prod
import Hodgepodge.Core.Barrier
import Hodgepodge.Core.Lts
import Hodgepodge.Gemm.Matmult

namespace Hodgepodge.Gemm.MyGemm2

open Function Hodgepodge.Core Hodgepodge.Core.Barrier

/-! ## Model -/

def TS : ℕ := 16

/-- where a work-item stands; `barrierLoaded` and `barrierComputed` are the two barriers of the loop -/
inductive Pc where
  | loop
  | loadA
  | loadB
  | barrierLoaded
  | compute (k : ℕ)
  | barrierComputed
  | store
  | done
deriving DecidableEq

/-- the private variables of a work-item -/
structure Item (R : Type*) where
  t : ℕ
  acc : R
  pc : Pc

/-- `row` and `col`, the local ids -/
abbrev Local := Fin TS × Fin TS

/-- the group ids -/
abbrev Group (M N : ℕ) := Fin (M / TS) × Fin (N / TS)

/-- `Asub` or `Bsub`, each cell with the tile that it was written for -/
abbrev Tile (R : Type*) := Fin TS → Fin TS → Option (ℕ × R)

structure St (M N : ℕ) (R : Type*) where
  items : Group M N → Local → Item R
  asub : Group M N → Tile R
  bsub : Group M N → Tile R
  /-- what was stored to an index of C, in order -/
  c : ℕ → List R
  fault : Bool

variable {M N K : ℕ} {R : Type*}

def globalRow (g : Group M N) (l : Local) : ℕ := TS * g.1 + l.1

def globalCol (g : Group M N) (l : Local) : ℕ := TS * g.2 + l.2

/-- the read of a cell for tile `t` -/
def read (t : ℕ) : Option (ℕ × R) → Option R
  | some (u, x) => if u = t then some x else none
  | none => none

def setCell (tile : Tile R) (col row : Fin TS) (x : ℕ × R) : Tile R := update tile col (update (tile col) row (some x))

/-- barriers passed -/
def phase (w : Item R) : ℕ :=
  match w.pc with
  | .compute _ | .barrierComputed => 2 * w.t + 1
  | _ => 2 * w.t

def waits (w : Item R) : Bool :=
  match w.pc with
  | .barrierLoaded | .barrierComputed => true
  | _ => false

def put (s : St M N R) (g : Group M N) (l : Local) (w : Item R) : Group M N → Local → Item R :=
  update s.items g (update (s.items g) l w)

variable [Zero R] [Add R] [Mul R]

def step (K : ℕ) (A B : Buffer R) (s : St M N R) : Group M N × Local → Option (St M N R)
  | (g, l) =>
    let w := s.items g l
    match w.pc with
    | .loop => some { s with items := put s g l { w with pc := if w.t < K / TS then .loadA else .store } }
    | .loadA =>
      match (index (TS * w.t + l.2) M (globalRow g l)).bind (load (M * K) A) with
      | some x => some { s with
          items := put s g l { w with pc := .loadB }
          asub := update s.asub g (setCell (s.asub g) l.2 l.1 (w.t, x)) }
      | none => some { s with fault := true }
    | .loadB =>
      match (index (globalCol g l) K (TS * w.t + l.1)).bind (load (K * N) B) with
      | some x => some { s with
          items := put s g l { w with pc := .barrierLoaded }
          bsub := update s.bsub g (setCell (s.bsub g) l.2 l.1 (w.t, x)) }
      | none => some { s with fault := true }
    | .barrierLoaded =>
      if Open phase waits (s.items g) l then some { s with items := put s g l { w with pc := .compute 0 } } else none
    | .compute k =>
      if h : k < TS then
        match read w.t (s.asub g ⟨k, h⟩ l.1), read w.t (s.bsub g l.2 ⟨k, h⟩) with
        | some x, some y => some { s with items := put s g l { w with acc := w.acc + x * y, pc := .compute (k + 1) } }
        | _, _ => some { s with fault := true }
      else some { s with items := put s g l { w with pc := .barrierComputed } }
    | .barrierComputed =>
      if Open phase waits (s.items g) l then some { s with items := put s g l { w with t := w.t + 1, pc := .loop } }
      else none
    | .store =>
      match (index (globalCol g l) M (globalRow g l)).bind (place (M * N)) with
      | some i => some { s with items := put s g l { w with pc := .done }, c := update s.c i (s.c i ++ [w.acc]) }
      | none => some { s with fault := true }
    | .done => none

/-- a launch; local memory starts undefined -/
def kernel (M N K : ℕ) (A B : Buffer R) : Lts (St M N R) (Group M N × Local) :=
  ⟨⟨fun _ _ => ⟨0, 0, .loop⟩, fun _ _ _ => none, fun _ _ _ => none, fun _ => [], false⟩, step K A B⟩

/-! ## Indices -/

theorem TS_pos : 0 < TS := by decide

/-- the ids of a launch with `TS ∣ n` cover exactly the numbers below `n` -/
theorem global_lt {n : ℕ} (h : TS ∣ n) {g : ℕ} (hg : g < n / TS) (l : Fin TS) : TS * g + l < n :=
  calc TS * g + l = g * TS + l := by rw [Nat.mul_comm]
    _ < n / TS * TS := index_lt l.2 hg
    _ = n := Nat.div_mul_cancel h

theorem globalRow_lt (hM : TS ∣ M) (g : Group M N) (l : Local) : globalRow g l < M := global_lt hM g.1.2 l.1

theorem globalCol_lt (hN : TS ∣ N) (g : Group M N) (l : Local) : globalCol g l < N := global_lt hN g.2.2 l.2

/-- the element of C that an item stores -/
def cIndex (g : Group M N) (l : Local) : ℕ := globalCol g l * M + globalRow g l

theorem cIndex_lt (hM : TS ∣ M) (hN : TS ∣ N) (g : Group M N) (l : Local) : cIndex g l < M * N := by
  rw [Nat.mul_comm]
  exact index_lt (globalRow_lt hM g l) (globalCol_lt hN g l)

theorem global_inj {a b : ℕ} {l k : Fin TS} (h : TS * a + l = TS * b + k) : a = b ∧ l = k := by
  rw [Nat.mul_comm, Nat.mul_comm TS b] at h
  obtain ⟨hab, hlk⟩ := index_inj l.2 k.2 h
  exact ⟨hab, Fin.ext hlk⟩

theorem cIndex_inj (hM : TS ∣ M) {g g' : Group M N} {l l' : Local} (h : cIndex g l = cIndex g' l') :
    g = g' ∧ l = l' := by
  obtain ⟨hc, hr⟩ := index_inj (globalRow_lt hM g l) (globalRow_lt hM g' l') h
  obtain ⟨hg2, hl2⟩ := global_inj hc
  obtain ⟨hg1, hl1⟩ := global_inj hr
  exact ⟨Prod.ext (Fin.ext hg1) (Fin.ext hg2), Prod.ext hl1 hl2⟩

/-- every element of C is some item's -/
theorem exists_item (hM : TS ∣ M) (hN : TS ∣ N) {m n : ℕ} (hm : m < M) (hn : n < N) :
    ∃ (g : Group M N) (l : Local), globalRow g l = m ∧ globalCol g l = n :=
  ⟨(⟨m / TS, Nat.div_lt_div_of_lt_of_dvd hM hm⟩, ⟨n / TS, Nat.div_lt_div_of_lt_of_dvd hN hn⟩),
    (⟨m % TS, Nat.mod_lt _ TS_pos⟩, ⟨n % TS, Nat.mod_lt _ TS_pos⟩), Nat.div_add_mod m TS, Nat.div_add_mod n TS⟩

/-! ## One item -/

/-- the counters of an item of a launch with `n` tiles -/
def Ok (n : ℕ) (w : Item R) : Prop :=
  match w.pc with
  | .loop => w.t ≤ n
  | .compute k => w.t < n ∧ k ≤ TS
  | .store | .done => w.t = n
  | _ => w.t < n

/-- the tile before `t` -/
def prev : ℕ → Option ℕ
  | 0 => none
  | t + 1 => some t

/-- the tile that the item's cell of Asub was written for -/
def loadedA (w : Item R) : Option ℕ :=
  match w.pc with
  | .loop | .loadA | .store | .done => prev w.t
  | _ => some w.t

def loadedB (w : Item R) : Option ℕ :=
  match w.pc with
  | .loop | .loadA | .loadB | .store | .done => prev w.t
  | _ => some w.t

/-- the products in `acc` -/
def added (w : Item R) : ℕ :=
  match w.pc with
  | .compute k => TS * w.t + k
  | .barrierComputed => TS * w.t + TS
  | _ => TS * w.t

omit [Zero R] [Add R] [Mul R] in
/-- **The tiles are whole while an item computes.** By the barriers, every item of the group has loaded its cells for
the tile, and has not come to load them for the next. -/
theorem loaded_of_compute {items : Local → Item R} (h : Together phase waits items) {l : Local} {k : ℕ}
    (hk : (items l).pc = .compute k) (j : Local) :
    loadedA (items j) = some (items l).t ∧ loadedB (items j) = some (items l).t := by
  have hw : waits (items l) = false := by simp [waits, hk]
  have hp : phase (items l) = 2 * (items l).t + 1 := by simp [phase, hk]
  have hs := h.same hw j
  rw [hp] at hs
  cases hj : (items j).pc <;> simp only [phase, waits, loadedA, loadedB, hj, Option.some.injEq, and_self] at hs ⊢ <;>
    simp only [Bool.false_eq_true, and_false, or_false, and_true] at hs <;> omega

/-! ## The invariant -/

variable (A B : Buffer R) (K) in
structure Inv (s : St M N R) : Prop where
  ok : ∀ g l, Ok (K / TS) (s.items g l)
  together : ∀ g, Together phase waits (s.items g)
  acc : ∀ g l, (s.items g l).acc = dot A B M K (globalRow g l) (globalCol g l) (added (s.items g l))
  asub : ∀ g l, s.asub g l.2 l.1 = (loadedA (s.items g l)).map fun t =>
    (t, A ((TS * t + l.2) * M + globalRow g l))
  bsub : ∀ g l, s.bsub g l.2 l.1 = (loadedB (s.items g l)).map fun t =>
    (t, B (globalCol g l * K + (TS * t + l.1)))
  stored : ∀ g l, s.c (cIndex g l) = if (s.items g l).pc = .done then [(s.items g l).acc] else []
  others : ∀ i, (∀ (g : Group M N) l, i ≠ cIndex g l) → s.c i = []
  fault : s.fault = false

variable {A B : Buffer R} {s s' : St M N R} {g : Group M N} {l : Local} {w : Item R}

theorem init_inv : Inv K A B (kernel M N K A B).init where
  ok _ _ := Nat.zero_le _
  together _ := Together.const _
  acc _ _ := rfl
  asub _ _ := rfl
  bsub _ _ := rfl
  stored _ _ := rfl
  others _ _ := rfl
  fault := rfl

omit [Zero R] [Add R] [Mul R] in
theorem put_apply (s : St M N R) (g g' : Group M N) (l l' : Local) (w : Item R) :
    put s g l w g' l' = if g' = g ∧ l' = l then w else s.items g' l' := by
  by_cases hg : g' = g
  · subst hg
    by_cases hl : l' = l
    · subst hl; simp [put]
    · simp [put, hl]
  · simp [put, hg]

omit [Zero R] [Add R] [Mul R] in
theorem setCell_apply (tile : Tile R) (l l' : Local) (x : ℕ × R) :
    setCell tile l.2 l.1 x l'.2 l'.1 = if l' = l then some x else tile l'.2 l'.1 := by
  obtain ⟨row, col⟩ := l
  obtain ⟨row', col'⟩ := l'
  by_cases hc : col' = col
  · subst hc
    by_cases hr : row' = row
    · subst hr; simp [setCell]
    · simp [setCell, hr]
  · simp [setCell, hc]

omit [Zero R] [Add R] [Mul R] in
/-- the cells after the store of an item to its own cell -/
theorem store_apply (tiles : Group M N → Tile R) (g g' : Group M N) (l l' : Local) (x : ℕ × R) :
    update tiles g (setCell (tiles g) l.2 l.1 x) g' l'.2 l'.1 =
      if g' = g ∧ l' = l then some x else tiles g' l'.2 l'.1 := by
  by_cases hg : g' = g
  · subst hg
    rw [update_self, setCell_apply]
    simp
  · simp [hg]

/-- item `l` of group `g` has become `w`; its cells, its element of C and nothing else may have changed -/
theorem Inv.move (h : Inv K A B s) (hM : TS ∣ M) (hitems : s'.items = put s g l w) (hok : Ok (K / TS) w)
    (htog : Together phase waits (update (s.items g) l w))
    (hacc : w.acc = dot A B M K (globalRow g l) (globalCol g l) (added w))
    (hasub : ∀ g' l', s'.asub g' l'.2 l'.1 = if g' = g ∧ l' = l then
      (loadedA w).map fun t => (t, A ((TS * t + l.2) * M + globalRow g l)) else s.asub g' l'.2 l'.1)
    (hbsub : ∀ g' l', s'.bsub g' l'.2 l'.1 = if g' = g ∧ l' = l then
      (loadedB w).map fun t => (t, B (globalCol g l * K + (TS * t + l.1))) else s.bsub g' l'.2 l'.1)
    (hc : ∀ i, s'.c i = if i = cIndex g l then (if w.pc = .done then [w.acc] else []) else s.c i)
    (hf : s'.fault = false) : Inv K A B s' where
  ok g' l' := by
    rw [hitems, put_apply]
    split_ifs
    · exact hok
    · exact h.ok g' l'
  together g' := by
    rw [hitems, put]
    by_cases hg : g' = g
    · subst hg; rw [update_self]; exact htog
    · rw [update_of_ne hg]; exact h.together g'
  acc g' l' := by
    rw [hitems, put_apply]
    split_ifs with he
    · obtain ⟨rfl, rfl⟩ := he; exact hacc
    · exact h.acc g' l'
  asub g' l' := by
    rw [hasub, hitems, put_apply]
    split_ifs with he
    · obtain ⟨rfl, rfl⟩ := he; rfl
    · exact h.asub g' l'
  bsub g' l' := by
    rw [hbsub, hitems, put_apply]
    split_ifs with he
    · obtain ⟨rfl, rfl⟩ := he; rfl
    · exact h.bsub g' l'
  stored g' l' := by
    rw [hc, hitems, put_apply]
    by_cases he : g' = g ∧ l' = l
    · obtain ⟨rfl, rfl⟩ := he
      simp only [if_true, and_self]
    · rw [if_neg he, if_neg fun hi => he (cIndex_inj hM hi)]
      exact h.stored g' l'
  others i hi := by
    rw [hc, if_neg (hi g l)]
    exact h.others i hi
  fault := hf

/-- the item's cell of Asub is as it was -/
theorem Inv.same_asub (h : Inv K A B s) (hA : loadedA w = loadedA (s.items g l)) (g' : Group M N) (l' : Local) :
    s.asub g' l'.2 l'.1 = if g' = g ∧ l' = l then
      (loadedA w).map fun t => (t, A ((TS * t + l.2) * M + globalRow g l)) else s.asub g' l'.2 l'.1 := by
  split_ifs with he
  · obtain ⟨rfl, rfl⟩ := he
    rw [hA]; exact h.asub g' l'
  · rfl

theorem Inv.same_bsub (h : Inv K A B s) (hB : loadedB w = loadedB (s.items g l)) (g' : Group M N) (l' : Local) :
    s.bsub g' l'.2 l'.1 = if g' = g ∧ l' = l then
      (loadedB w).map fun t => (t, B (globalCol g l * K + (TS * t + l.1))) else s.bsub g' l'.2 l'.1 := by
  split_ifs with he
  · obtain ⟨rfl, rfl⟩ := he
    rw [hB]; exact h.bsub g' l'
  · rfl

/-- before its end, the item has not stored -/
theorem Inv.same_c (h : Inv K A B s) (hd : w.pc ≠ .done) (hd' : (s.items g l).pc ≠ .done) (i : ℕ) :
    s.c i = if i = cIndex g l then (if w.pc = .done then [w.acc] else []) else s.c i := by
  split_ifs with hi
  · rw [hi, h.stored g l, if_neg hd']
  · rfl

/-- no product was added -/
theorem Inv.same_acc (h : Inv K A B s) (ha : w.acc = (s.items g l).acc) (hd : added w = added (s.items g l)) :
    w.acc = dot A B M K (globalRow g l) (globalCol g l) (added w) := by
  rw [ha, hd]; exact h.acc g l

/-- the item moves on without touching memory -/
theorem Inv.quiet (h : Inv K A B s) (hM : TS ∣ M) (hok : Ok (K / TS) w)
    (htog : Together phase waits (update (s.items g) l w))
    (hacc : w.acc = dot A B M K (globalRow g l) (globalCol g l) (added w))
    (hA : loadedA w = loadedA (s.items g l)) (hB : loadedB w = loadedB (s.items g l))
    (hd : w.pc ≠ .done) (hd' : (s.items g l).pc ≠ .done) : Inv K A B { s with items := put s g l w } :=
  h.move hM rfl hok htog hacc (h.same_asub hA) (h.same_bsub hB) (h.same_c hd hd') h.fault

/-! ## The steps -/

omit [Zero R] [Add R] [Mul R] in
/-- what a work-item loads for a tile of the launch is in bounds -/
theorem tile_lt (hK : TS ∣ K) {t : ℕ} (ht : t < K / TS) (x : Fin TS) : TS * t + x < K := global_lt hK ht x

theorem step_loop (h : Inv K A B s) (hM : TS ∣ M) (hpc : (s.items g l).pc = .loop) :
    Inv K A B { s with
      items := put s g l { s.items g l with pc := if (s.items g l).t < K / TS then .loadA else .store } } := by
  have hok : (s.items g l).t ≤ K / TS := by simpa [Ok, hpc] using h.ok g l
  have hw : waits (s.items g l) = false := by simp [waits, hpc]
  split_ifs with ht
  · refine h.quiet hM ht ((h.together g).work hw ?_) (h.same_acc rfl ?_) ?_ ?_ (by simp) (by simp [hpc])
    all_goals simp [phase, added, loadedA, loadedB, hpc]
  · have ht : (s.items g l).t = K / TS := by omega
    refine h.quiet hM ht ((h.together g).work hw ?_) (h.same_acc rfl ?_) ?_ ?_ (by simp) (by simp [hpc])
    all_goals simp [phase, added, loadedA, loadedB, hpc]

theorem step_loadA (h : Inv K A B s) (hM : TS ∣ M) (hpc : (s.items g l).pc = .loadA) :
    Inv K A B { s with
      items := put s g l { s.items g l with pc := .loadB }
      asub := update s.asub g (setCell (s.asub g) l.2 l.1
        ((s.items g l).t, A ((TS * (s.items g l).t + l.2) * M + globalRow g l))) } := by
  have hok : (s.items g l).t < K / TS := by simpa [Ok, hpc] using h.ok g l
  have hw : waits (s.items g l) = false := by simp [waits, hpc]
  refine h.move hM rfl hok ((h.together g).work hw (by simp [phase, hpc])) (h.same_acc rfl (by simp [added, hpc]))
    (fun g' l' => ?_) (h.same_bsub (by simp [loadedB, hpc])) (h.same_c (by simp) (by simp [hpc])) h.fault
  exact store_apply _ g g' l l' _

theorem step_loadB (h : Inv K A B s) (hM : TS ∣ M) (hpc : (s.items g l).pc = .loadB) :
    Inv K A B { s with
      items := put s g l { s.items g l with pc := .barrierLoaded }
      bsub := update s.bsub g (setCell (s.bsub g) l.2 l.1
        ((s.items g l).t, B (globalCol g l * K + (TS * (s.items g l).t + l.1)))) } := by
  have hok : (s.items g l).t < K / TS := by simpa [Ok, hpc] using h.ok g l
  have hw : waits (s.items g l) = false := by simp [waits, hpc]
  refine h.move hM rfl hok ((h.together g).work hw (by simp [phase, hpc])) (h.same_acc rfl (by simp [added, hpc]))
    (h.same_asub (by simp [loadedA, hpc])) (fun g' l' => ?_) (h.same_c (by simp) (by simp [hpc])) h.fault
  exact store_apply _ g g' l l' _

theorem step_barrierLoaded (h : Inv K A B s) (hM : TS ∣ M) (hpc : (s.items g l).pc = .barrierLoaded)
    (ho : Open phase waits (s.items g) l) :
    Inv K A B { s with items := put s g l { s.items g l with pc := .compute 0 } } := by
  have hok : (s.items g l).t < K / TS := by simpa [Ok, hpc] using h.ok g l
  refine h.quiet hM ⟨hok, Nat.zero_le _⟩ ((h.together g).pass ho ?_) (h.same_acc rfl ?_) ?_ ?_ (by simp) (by simp [hpc])
  all_goals simp [phase, added, loadedA, loadedB, hpc]

/-- the cells that an item multiplies hold its tile -/
theorem read_tiles (h : Inv K A B s) {k : ℕ} (hpc : (s.items g l).pc = .compute k) (hk : k < TS) :
    read (s.items g l).t (s.asub g ⟨k, hk⟩ l.1) = some (A ((TS * (s.items g l).t + k) * M + globalRow g l)) ∧
      read (s.items g l).t (s.bsub g l.2 ⟨k, hk⟩) =
        some (B (globalCol g l * K + (TS * (s.items g l).t + k))) := by
  have hA := (loaded_of_compute (h.together g) hpc (l.1, ⟨k, hk⟩)).1
  have hB := (loaded_of_compute (h.together g) hpc (⟨k, hk⟩, l.2)).2
  have ha := h.asub g (l.1, ⟨k, hk⟩)
  have hb := h.bsub g (⟨k, hk⟩, l.2)
  rw [hA] at ha
  rw [hB] at hb
  dsimp only at ha hb
  rw [ha, hb]
  simp [read, globalRow, globalCol]

theorem step_compute (h : Inv K A B s) (hM : TS ∣ M) {k : ℕ} (hpc : (s.items g l).pc = .compute k) (hk : k < TS) :
    Inv K A B { s with items := put s g l { s.items g l with
      acc := (s.items g l).acc + A ((TS * (s.items g l).t + k) * M + globalRow g l) *
        B (globalCol g l * K + (TS * (s.items g l).t + k))
      pc := .compute (k + 1) } } := by
  have hok : (s.items g l).t < K / TS ∧ k ≤ TS := by simpa [Ok, hpc] using h.ok g l
  have hw : waits (s.items g l) = false := by simp [waits, hpc]
  have hacc := h.acc g l
  simp only [added, hpc] at hacc
  refine h.quiet hM ⟨hok.1, hk⟩ ((h.together g).work hw ?_) ?_ ?_ ?_ (by simp) (by simp [hpc])
  · simp [phase, hpc]
  · -- the next product of `dot`
    rw [hacc]; rfl
  · simp [loadedA, hpc]
  · simp [loadedB, hpc]

theorem step_computed (h : Inv K A B s) (hM : TS ∣ M) {k : ℕ} (hpc : (s.items g l).pc = .compute k) (hk : ¬ k < TS) :
    Inv K A B { s with items := put s g l { s.items g l with pc := .barrierComputed } } := by
  have hok : (s.items g l).t < K / TS ∧ k ≤ TS := by simpa [Ok, hpc] using h.ok g l
  have hw : waits (s.items g l) = false := by simp [waits, hpc]
  obtain rfl : k = TS := by omega
  refine h.quiet hM hok.1 ((h.together g).work hw ?_) (h.same_acc rfl ?_) ?_ ?_ (by simp) (by simp [hpc])
  all_goals simp [phase, added, loadedA, loadedB, hpc]

theorem step_barrierComputed (h : Inv K A B s) (hM : TS ∣ M) (hpc : (s.items g l).pc = .barrierComputed)
    (ho : Open phase waits (s.items g) l) :
    Inv K A B { s with items := put s g l { s.items g l with t := (s.items g l).t + 1, pc := .loop } } := by
  have hok : (s.items g l).t < K / TS := by simpa [Ok, hpc] using h.ok g l
  refine h.quiet hM hok ((h.together g).pass ho ?_) (h.same_acc rfl ?_) ?_ ?_ (by simp) (by simp [hpc])
  · simp only [phase, hpc, Nat.mul_succ]
  · simp only [added, hpc, Nat.mul_succ]
  · simp [loadedA, hpc, prev]
  · simp [loadedB, hpc, prev]

theorem step_store (h : Inv K A B s) (hM : TS ∣ M) (hpc : (s.items g l).pc = .store) :
    Inv K A B { s with
      items := put s g l { s.items g l with pc := .done }
      c := update s.c (cIndex g l) (s.c (cIndex g l) ++ [(s.items g l).acc]) } := by
  have hok : (s.items g l).t = K / TS := by simpa [Ok, hpc] using h.ok g l
  have hw : waits (s.items g l) = false := by simp [waits, hpc]
  refine h.move hM rfl hok ((h.together g).work hw (by simp [phase, hpc])) (h.same_acc rfl (by simp [added, hpc]))
    (h.same_asub (by simp [loadedA, hpc])) (h.same_bsub (by simp [loadedB, hpc])) (fun i => ?_) h.fault
  by_cases hi : i = cIndex g l
  · subst hi
    simp [h.stored g l, hpc]
  · simp [hi]

/-! ## Progress -/

/-- the steps that an item has left in a launch with `n` tiles -/
def left (n : ℕ) (w : Item R) : ℕ :=
  match w.pc with
  | .loop => (n - w.t) * (TS + 6) + 2
  | .loadA => (n - (w.t + 1)) * (TS + 6) + (TS + 7)
  | .loadB => (n - (w.t + 1)) * (TS + 6) + (TS + 6)
  | .barrierLoaded => (n - (w.t + 1)) * (TS + 6) + (TS + 5)
  | .compute k => (n - (w.t + 1)) * (TS + 6) + (TS - k + 4)
  | .barrierComputed => (n - (w.t + 1)) * (TS + 6) + 3
  | .store => 1
  | .done => 0

/-- what a step of item `l` of group `g` does: it keeps the invariant, moves this item only, and brings it nearer to
its end -/
theorem step_moves (h : Inv K A B s) (hM : TS ∣ M) (hN : TS ∣ N) (hK : TS ∣ K) (hI : IntSizes M K N)
    (hs : step K A B s (g, l) = some s') :
    Inv K A B s' ∧ ∃ w, s'.items = put s g l w ∧ left (K / TS) (s.items g l) = left (K / TS) w + 1 := by
  have hok := h.ok g l
  obtain ⟨hfit, hfitC⟩ := hI.element (globalRow_lt hM g l) (globalCol_lt hN g l)
  cases hpc : (s.items g l).pc with
  | loop =>
    simp only [step, hpc, Option.some.injEq] at hs
    subst hs
    refine ⟨step_loop h hM hpc, _, rfl, ?_⟩
    split_ifs with ht
    · have he : K / TS - (s.items g l).t = K / TS - ((s.items g l).t + 1) + 1 := by omega
      simp only [left, hpc, he, Nat.succ_mul]
      omega
    · have he : K / TS - (s.items g l).t = 0 := by omega
      simp [left, hpc, he]
  | loadA =>
    have hok : (s.items g l).t < K / TS := by simpa [Ok, hpc] using hok
    have hi : (TS * (s.items g l).t + l.2) * M + globalRow g l < M * K := by
      rw [Nat.mul_comm M]
      exact index_lt (globalRow_lt hM g l) (tile_lt hK hok l.2)
    simp only [step, hpc, load_index, if_pos (And.intro hi (hfit _ (tile_lt hK hok l.2)).1), Option.some.injEq] at hs
    subst hs
    refine ⟨step_loadA h hM hpc, _, rfl, ?_⟩
    simp only [left, hpc]
    omega
  | loadB =>
    have hok : (s.items g l).t < K / TS := by simpa [Ok, hpc] using hok
    have hi : globalCol g l * K + (TS * (s.items g l).t + l.1) < K * N := by
      rw [Nat.mul_comm K N]
      exact index_lt (tile_lt hK hok l.1) (globalCol_lt hN g l)
    simp only [step, hpc, load_index, if_pos (And.intro hi (hfit _ (tile_lt hK hok l.1)).2), Option.some.injEq] at hs
    subst hs
    refine ⟨step_loadB h hM hpc, _, rfl, ?_⟩
    simp only [left, hpc]
    omega
  | barrierLoaded =>
    simp only [step, hpc] at hs
    split_ifs at hs with ho
    obtain rfl := Option.some.inj hs
    refine ⟨step_barrierLoaded h hM hpc ho, _, rfl, ?_⟩
    simp only [left, hpc]
    omega
  | compute k =>
    by_cases hk : k < TS
    · obtain ⟨ha, hb⟩ := read_tiles h hpc hk
      simp only [step, hpc, dif_pos hk, ha, hb, Option.some.injEq] at hs
      subst hs
      refine ⟨step_compute h hM hpc hk, _, rfl, ?_⟩
      simp only [left, hpc]
      omega
    · have hok : (s.items g l).t < K / TS ∧ k ≤ TS := by simpa [Ok, hpc] using hok
      simp only [step, hpc, dif_neg hk, Option.some.injEq] at hs
      subst hs
      refine ⟨step_computed h hM hpc hk, _, rfl, ?_⟩
      simp only [left, hpc]
      omega
  | barrierComputed =>
    simp only [step, hpc] at hs
    split_ifs at hs with ho
    obtain rfl := Option.some.inj hs
    exact ⟨step_barrierComputed h hM hpc ho, _, rfl, by simp only [left, hpc]⟩
  | store =>
    have hi : globalCol g l * M + globalRow g l < M * N := cIndex_lt hM hN g l
    simp only [step, hpc, place_index, if_pos (And.intro hi hfitC), Option.some.injEq] at hs
    subst hs
    exact ⟨step_store h hM hpc, _, rfl, by simp only [left, hpc]⟩
  | done => simp [step, hpc] at hs

theorem run_inv (hM : TS ∣ M) (hN : TS ∣ N) (hK : TS ∣ K) (hI : IntSizes M K N)
    {ops : List (Group M N × Local)} (h : Inv K A B s) (hr : (kernel M N K A B).run s ops = some s') : Inv K A B s' := by
  refine (kernel M N K A B).run_inv (I := Inv K A B) (fun u o v hu hs => ?_) h hr
  exact (step_moves hu hM hN hK hI hs).1

variable (K) in
/-- the steps that the launch has left -/
def total (s : St M N R) : ℕ := ∑ i : Group M N × Local, left (K / TS) (s.items i.1 i.2)

theorem step_total (h : Inv K A B s) (hM : TS ∣ M) (hN : TS ∣ N) (hK : TS ∣ K) (hI : IntSizes M K N)
    {o : Group M N × Local} (hs : step K A B s o = some s') : total K s = total K s' + 1 := by
  obtain ⟨g, l⟩ := o
  obtain ⟨-, w, hw, hleft⟩ := step_moves h hM hN hK hI hs
  have hothers : ∑ i ∈ Finset.univ.erase (g, l), left (K / TS) (s'.items i.1 i.2) =
      ∑ i ∈ Finset.univ.erase (g, l), left (K / TS) (s.items i.1 i.2) := by
    refine Finset.sum_congr rfl fun i hi => ?_
    have hne : ¬(i.1 = g ∧ i.2 = l) := fun he => Finset.ne_of_mem_erase hi (Prod.ext he.1 he.2)
    rw [hw, put_apply, if_neg hne]
  have hone : left (K / TS) (s'.items g l) = left (K / TS) w := by rw [hw, put_apply, if_pos ⟨rfl, rfl⟩]
  unfold total
  rw [← Finset.add_sum_erase _ _ (Finset.mem_univ (g, l)), ← Finset.add_sum_erase _ _ (Finset.mem_univ (g, l)),
    hothers, hone, hleft]
  omega

/-- **Every schedule ends.** A run of `n` steps has used up `n` of the steps that the launch had. -/
theorem run_total (hM : TS ∣ M) (hN : TS ∣ N) (hK : TS ∣ K) (hI : IntSizes M K N) {ops : List (Group M N × Local)}
    (h : Inv K A B s) (hr : (kernel M N K A B).run s ops = some s') : total K s = total K s' + ops.length := by
  induction ops generalizing s with
  | nil =>
    obtain rfl : s = s' := by simpa using hr
    rfl
  | cons o ops ih =>
    obtain ⟨u, hu, hr⟩ := (kernel M N K A B).run_cons.1 hr
    rw [step_total h hM hN hK hI hu, ih (step_moves h hM hN hK hI hu).1 hr, List.length_cons, Nat.add_assoc]

theorem total_init (hM : TS ∣ M) (hN : TS ∣ N) :
    total K (kernel M N K A B).init = M * N * (K / TS * (TS + 6) + 2) := by
  have hcard : Fintype.card (Group M N × Local) = M * N := by
    simp only [Fintype.card_prod, Fintype.card_fin]
    calc M / TS * (N / TS) * (TS * TS) = M / TS * TS * (N / TS * TS) := Nat.mul_mul_mul_comm _ _ _ _
      _ = M * N := by rw [Nat.div_mul_cancel hM, Nat.div_mul_cancel hN]
  have hleft : ∀ i ∈ (Finset.univ : Finset (Group M N × Local)),
      left (K / TS) ((kernel M N K A B).init.items i.1 i.2) = K / TS * (TS + 6) + 2 := fun _ _ => rfl
  unfold total
  rw [Finset.sum_const_nat hleft, Finset.card_univ, hcard]

omit [Zero R] in
/-- an item that neither is done nor stands at a closed barrier takes its next step -/
theorem item_moves (hdone : (s.items g l).pc ≠ .done)
    (hw : waits (s.items g l) = false ∨ Open phase waits (s.items g) l) : ∃ s', step K A B s (g, l) = some s' := by
  cases hpc : (s.items g l).pc with
  | done => exact absurd hpc hdone
  | barrierLoaded | barrierComputed =>
    have ho : Open phase waits (s.items g) l := hw.resolve_left (by simp [waits, hpc])
    simp [step, hpc, ho]
  | compute k =>
    simp only [step, hpc]
    split
    · split <;> exact ⟨_, rfl⟩
    · exact ⟨_, rfl⟩
  | loop => exact ⟨_, by simp only [step, hpc]; rfl⟩
  | loadA | loadB | store =>
    simp only [step, hpc]
    split <;> exact ⟨_, rfl⟩

/-- **Nobody is stuck.** As long as an item is not done, some item of its group takes a step. -/
theorem not_done_moves (h : Inv K A B s) (hl : (s.items g l).pc ≠ .done) :
    ∃ j s', step K A B s (g, j) = some s' := by
  obtain ⟨j, hj, hm⟩ : ∃ j, phase (s.items g j) ≤ phase (s.items g l) ∧
      (waits (s.items g j) = false ∨ Open phase waits (s.items g) j) := exists_moves l
  by_cases hd : (s.items g j).pc = .done
  · -- the item `j` has passed all barriers of the launch, so `l` has as well, and stands at none
    have hjt : phase (s.items g j) = 2 * (K / TS) := by
      have hok := h.ok g j
      simp only [Ok, hd] at hok
      simp only [phase, hd, hok]
    have hw : waits (s.items g l) = false := by
      have hok := h.ok g l
      rw [hjt] at hj
      cases hpc : (s.items g l).pc <;> simp only [phase, Ok, waits, hpc] at hj hok ⊢ <;> omega
    exact ⟨l, item_moves hl (Or.inl hw)⟩
  · exact ⟨j, item_moves hd hm⟩

/-- some schedule ends with every item done -/
theorem completes (h : Inv K A B s) (hM : TS ∣ M) (hN : TS ∣ N) (hK : TS ∣ K) (hI : IntSizes M K N) :
    ∃ ops s', (kernel M N K A B).run s ops = some s' ∧ ∀ g l, (s'.items g l).pc = .done := by
  generalize hn : total K s = n
  induction n using Nat.strong_induction_on generalizing s with
  | _ n ih =>
    by_cases hd : ∀ g l, (s.items g l).pc = .done
    · exact ⟨[], s, rfl, hd⟩
    · push Not at hd
      obtain ⟨g, l, hl⟩ := hd
      obtain ⟨j, u, hu⟩ := not_done_moves h hl
      have ht : total K s = total K u + 1 := step_total h hM hN hK hI hu
      obtain ⟨ops, s', hr, hd⟩ := ih (total K u) (by omega) (step_moves h hM hN hK hI hu).1 rfl
      exact ⟨(g, j) :: ops, s', (kernel M N K A B).run_cons.2 ⟨u, hu, hr⟩, hd⟩

/-! ## The result -/

/-- no index of C is written twice -/
theorem Inv.once (h : Inv K A B s) (i : ℕ) : (s.c i).length ≤ 1 := by
  by_cases hi : ∃ (g : Group M N) (l : Local), i = cIndex g l
  · obtain ⟨g, l, rfl⟩ := hi
    rw [h.stored g l]
    split_ifs <;> simp
  · push Not at hi
    simp [h.others i hi]

/-- what a finished item has stored -/
theorem Inv.done_stored (h : Inv K A B s) (hK : TS ∣ K) (hd : (s.items g l).pc = .done) :
    s.c (cIndex g l) = [dot A B M K (globalRow g l) (globalCol g l) K] := by
  have ht : (s.items g l).t = K / TS := by simpa [Ok, hd] using h.ok g l
  have hadded : added (s.items g l) = K := by
    simp only [added, hd, ht]
    exact Nat.mul_div_cancel' hK
  rw [h.stored g l, if_pos hd, h.acc g l, hadded]

/-- **The tiled kernel computes `matmult`.** For sizes that are multiples of TS and whose indices fit an `int`, and
whatever the sum and the product of the elements are, in every schedule: no access is out of bounds and no cell is read
for a tile that it does not hold; no element of C is written twice; until every item is done, some item takes a step,
and the number of steps is bounded; and when every item is done, every element of C has been written once, with the
value that `matmult` writes. -/
theorem myGEMM2_eq_matmult (M N K : ℕ) (hM : TS ∣ M) (hN : TS ∣ N) (hK : TS ∣ K) (hI : IntSizes M K N)
    (A B C : Buffer R) :
    ∃ D, matmult A B C M K N = some D ∧ ∀ (ops : List (Group M N × Local)) (s : St M N R),
      (kernel M N K A B).run (kernel M N K A B).init ops = some s →
        s.fault = false ∧ (∀ i, (s.c i).length ≤ 1) ∧
          ((∀ g l, (s.items g l).pc = .done) ∨ ∃ o s', (kernel M N K A B).step s o = some s') ∧
          ops.length ≤ M * N * (K / TS * (TS + 6) + 2) ∧
          ((∀ g l, (s.items g l).pc = .done) → ∀ m < M, ∀ n < N, s.c (n * M + m) = [D (n * M + m)]) := by
  have hD := matmult_iff (A := A) (B := B) (C := C).2 ⟨hI, rfl⟩
  refine ⟨_, hD, fun ops s hr => ?_⟩
  have h : Inv K A B s := run_inv hM hN hK hI init_inv hr
  refine ⟨h.fault, h.once, ?_, ?_, fun hd m hm n hn => ?_⟩
  · by_cases hd : ∀ g l, (s.items g l).pc = .done
    · exact Or.inl hd
    · push Not at hd
      obtain ⟨g, l, hl⟩ := hd
      obtain ⟨j, s', hs⟩ := not_done_moves h hl
      exact Or.inr ⟨(g, j), s', hs⟩
  · have ht := run_total hM hN hK hI init_inv hr
    rw [total_init hM hN] at ht
    omega
  · obtain ⟨g, l, rfl, rfl⟩ := exists_item hM hN hm hn
    rw [matmult_apply hD hm hn]
    exact h.done_stored hK (hd g l)

/-- two tiles of ones, times two tiles of twos -/
theorem two_tiles_product :
    ∃ (ops : List (Group 16 16 × Local)) (s : St 16 16 ℕ),
      (kernel 16 16 32 (fun _ => 1) fun _ => 2).run (kernel 16 16 32 (fun _ => 1) fun _ => 2).init ops = some s ∧
        s.fault = false ∧ s.c 17 = [64] := by
  have h16 : TS ∣ 16 := by decide
  have h32 : TS ∣ 32 := by decide
  have hI : IntSizes 16 32 16 := by decide
  obtain ⟨ops, s, hr, hd⟩ := completes (A := fun _ => 1) (B := fun _ => 2) init_inv h16 h16 h32 hI
  obtain ⟨D, hD, h⟩ := myGEMM2_eq_matmult 16 16 32 h16 h16 h32 hI (fun _ => 1) (fun _ => 2) fun _ => 0
  obtain ⟨hf, -, -, -, hc⟩ := h ops s hr
  refine ⟨ops, s, hr, hf, ?_⟩
  have hval : D (1 * 16 + 1) = 64 := by
    rw [matmult_apply hD (by decide) (by decide)]
    decide
  rw [← hval]
  exact hc hd 1 (by decide) 1 (by decide)

/-- the item of row 0 and column 15 of the first group, for an A of 2^28 rows -/
def column15 : Group 268435456 16 × Local := ((⟨0, by decide⟩, ⟨0, by decide⟩), (⟨0, by decide⟩, ⟨15, by decide⟩))

/-- **An index that does not fit.** With 2^28 rows, column 15 of A starts at 15 * 2^28. The item that loads it for the
first tile does so in its second step. -/
theorem index_overflows :
    ¬ ∀ (M N K : ℕ) (A B : Buffer ℕ), TS ∣ M → TS ∣ N → TS ∣ K →
      ∀ ops s, (kernel M N K A B).run (kernel M N K A B).init ops = some s → s.fault = false := by
  intro h
  have hf := h 268435456 16 16 (fun _ => 0) (fun _ => 0) (by decide) (by decide) (by decide)
    [column15, column15] _ rfl
  cases hf

end Hodgepodge.Gemm.MyGemm2
