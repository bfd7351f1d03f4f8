/-
The naive kernels `myGEMM1` and `myGEMM1b` (myGEMM.cl), launched as `run_myGEMM` (topencl.cpp) does: global size {M, N},
local size {16, 16}. Each work-item computes one element of C. They differ in one thing: `myGEMM1` takes the row from
get_global_id(0) and the column from get_global_id(1), `myGEMM1b` the other way round. The host launches both with M
items in dimension 0 and N in dimension 1, so the rows of `myGEMM1b` go up to N and its columns up to M, although its
comments say "Row ID of C (0..M)" and "Col ID of C (0..N)". `run_myGEMM` has M = N.

Each pass of the loop over k and the store to C are steps, and any item that is not done may take the next one. A load
or store out of bounds is a fault, and so is one at an index that does not fit an `int`.

Results:
- `Step`, `step_eq`: the inversion of a step.
- `Places`: the items' rows and columns are in bounds, and every element of C is one item's.
- `Inv`, `step_inv`, `run_total`: `acc` is a partial `dot`, C has what was stored, and every schedule ends.
- `computes_of_places`: such a launch computes `matmult`, if the indices fit.
- `item_ends`: an item that runs alone faults, or its indices fit and it stores its element.
- `computes_iff`: `myGEMM1` does exactly if the indices fit, and `myGEMM1b` if also M = N or there is no item.
- `wide_launch_misses`: `myGEMM1b` on a C of 32 columns and 16 rows, and the other way round.
-/
import Hodgepodge.Gemm.MyGemm2

namespace Hodgepodge.Gemm.MyGemm1

open Function Hodgepodge.Core Hodgepodge.Gemm.MyGemm2

/-! ## Model -/

/-- a group and a local id -/
abbrev WorkItem (M N : ℕ) := Group M N × Local

/-- the private variables of a work-item -/
structure Item (R : Type*) where
  k : ℕ
  acc : R
  done : Bool

structure St (M N : ℕ) (R : Type*) where
  items : WorkItem M N → Item R
  /-- what was stored to an index of C, in order -/
  c : ℕ → List R
  fault : Bool

variable {M N K : ℕ} {R : Type*}

/-- `get_global_id(0)` -/
def globalId0 (w : WorkItem M N) : ℕ := TS * w.1.1 + w.2.1

/-- `get_global_id(1)` -/
def globalId1 (w : WorkItem M N) : ℕ := TS * w.1.2 + w.2.2

variable [Zero R] [Add R] [Mul R]

/-- the next step of a work-item; `globalRow` and `globalCol` are those of the items -/
def step (globalRow globalCol : WorkItem M N → ℕ) (K : ℕ) (A B : Buffer R) (s : St M N R) (w : WorkItem M N) :
    Option (St M N R) :=
  let item := s.items w
  if item.done then none
  else if item.k < K then
    match (index item.k M (globalRow w)).bind (load (M * K) A), (index (globalCol w) K item.k).bind (load (K * N) B) with
    | some x, some y => some { s with items := update s.items w { item with k := item.k + 1, acc := item.acc + x * y } }
    | _, _ => some { s with fault := true }
  else
    match (index (globalCol w) M (globalRow w)).bind (place (M * N)) with
    | some i =>
      some { s with items := update s.items w { item with done := true }, c := update s.c i (s.c i ++ [item.acc]) }
    | none => some { s with fault := true }

/-- a launch of the kernel whose items take their rows and columns from these ids -/
def naive (globalRow globalCol : WorkItem M N → ℕ) (K : ℕ) (A B : Buffer R) : Lts (St M N R) (WorkItem M N) :=
  ⟨⟨fun _ => ⟨0, 0, false⟩, fun _ => [], false⟩, step globalRow globalCol K A B⟩

def myGEMM1 (M N K : ℕ) (A B : Buffer R) : Lts (St M N R) (WorkItem M N) := naive globalId0 globalId1 K A B

def myGEMM1b (M N K : ℕ) (A B : Buffer R) : Lts (St M N R) (WorkItem M N) := naive globalId1 globalId0 K A B

/-- the kernels -/
inductive Kernel where
  | myGEMM1
  | myGEMM1b
deriving DecidableEq

/-- the launch of `run_myGEMM` -/
def launch (M N K : ℕ) (A B : Buffer R) : Kernel → Lts (St M N R) (WorkItem M N)
  | .myGEMM1 => myGEMM1 M N K A B
  | .myGEMM1b => myGEMM1b M N K A B

/-- `matmult` has a result, and in every schedule: no access is out of bounds and no element of C is written twice; some
item takes a step until all are done, and the number of steps is bounded; and then every element of C has been written,
with the value that `matmult` writes -/
def Computes (L : Lts (St M N R) (WorkItem M N)) (K : ℕ) (A B C : Buffer R) : Prop :=
  ∃ D, matmult A B C M K N = some D ∧ ∀ ops s, L.run L.init ops = some s →
    s.fault = false ∧ (∀ i, (s.c i).length ≤ 1) ∧
      ((∀ w, (s.items w).done = true) ∨ ∃ w s', L.step s w = some s') ∧ ops.length ≤ M * N * (K + 1) ∧
      ((∀ w, (s.items w).done = true) → ∀ m < M, ∀ n < N, s.c (n * M + m) = [D (n * M + m)])

/-! ## Inversion -/

variable {row col : WorkItem M N → ℕ} {A B : Buffer R} {s s' : St M N R} {w : WorkItem M N}

/-- an access to a buffer of `size` elements that is in bounds and fits an `int` -/
def Inside (size i : ℕ) : Prop := i < size ∧ i < 2147483648

variable (row col K A B) in
/-- what one step does -/
inductive Step (s : St M N R) (w : WorkItem M N) : St M N R → Prop
  | add (hd : (s.items w).done = false) (hk : (s.items w).k < K) (ha : Inside (M * K) ((s.items w).k * M + row w))
      (hb : Inside (K * N) (col w * K + (s.items w).k)) :
      Step s w { s with items := update s.items w ⟨(s.items w).k + 1,
        (s.items w).acc + A ((s.items w).k * M + row w) * B (col w * K + (s.items w).k), (s.items w).done⟩ }
  | store (hd : (s.items w).done = false) (hk : K ≤ (s.items w).k) (hc : Inside (M * N) (col w * M + row w)) :
      Step s w { s with
        items := update s.items w ⟨(s.items w).k, (s.items w).acc, true⟩
        c := update s.c (col w * M + row w) (s.c (col w * M + row w) ++ [(s.items w).acc]) }
  | fault (hd : (s.items w).done = false)
      (hbad : (s.items w).k < K ∧
          (¬ Inside (M * K) ((s.items w).k * M + row w) ∨ ¬ Inside (K * N) (col w * K + (s.items w).k)) ∨
        K ≤ (s.items w).k ∧ ¬ Inside (M * N) (col w * M + row w)) :
      Step s w { s with fault := true }

omit [Zero R] in
theorem step_eq (h : step row col K A B s w = some s') : Step K row col A B s w s' := by
  simp only [step, load_index, place_index] at h
  by_cases hd : (s.items w).done = true
  · rw [if_pos hd] at h; cases h
  rw [if_neg hd] at h
  have hd : (s.items w).done = false := by simpa using hd
  split_ifs at h with hk ha hb hb hc
  · cases h; exact .add hd hk ha hb
  · cases h; exact .fault hd (Or.inl ⟨hk, Or.inr hb⟩)
  · cases h; exact .fault hd (Or.inl ⟨hk, Or.inl ha⟩)
  · cases h; exact .fault hd (Or.inl ⟨hk, Or.inl ha⟩)
  · cases h; exact .store hd (Nat.not_lt.1 hk) hc
  · cases h; exact .fault hd (Or.inr ⟨Nat.not_lt.1 hk, hc⟩)

omit [Zero R] in
/-- an item that is not done takes a step -/
theorem item_moves (hd : (s.items w).done = false) : ∃ s', step row col K A B s w = some s' := by
  simp only [step, hd, Bool.false_eq_true, if_false]
  split_ifs
  · split <;> exact ⟨_, rfl⟩
  · split <;> exact ⟨_, rfl⟩

/-! ## Launches that compute the product -/

/-- every element of C is one item's -/
structure Places (row col : WorkItem M N → ℕ) : Prop where
  row_lt : ∀ w, row w < M
  col_lt : ∀ w, col w < N
  inj : ∀ v w, row v = row w → col v = col w → v = w
  surj : ∀ m < M, ∀ n < N, ∃ w, row w = m ∧ col w = n

/-- the element of C that an item stores -/
def cIndex (row col : WorkItem M N → ℕ) (w : WorkItem M N) : ℕ := col w * M + row w

variable (row col K A B) in
structure Inv (s : St M N R) : Prop where
  le : ∀ w, (s.items w).k ≤ K
  all : ∀ w, (s.items w).done = true → (s.items w).k = K
  acc : ∀ w, (s.items w).acc = dot A B M K (row w) (col w) (s.items w).k
  stored : ∀ w, s.c (cIndex row col w) = if (s.items w).done then [(s.items w).acc] else []
  others : ∀ i, (∀ w, i ≠ cIndex row col w) → s.c i = []
  fault : s.fault = false

variable {ops : List (WorkItem M N)}

omit [Zero R] [Add R] [Mul R] in
theorem Places.cIndex_inj (h : Places row col) {v w : WorkItem M N} (he : cIndex row col v = cIndex row col w) :
    v = w := by
  obtain ⟨hcol, hrow⟩ := index_inj (h.row_lt v) (h.row_lt w) he
  exact h.inj v w hrow hcol

theorem init_inv : Inv K row col A B (naive row col K A B).init where
  le _ := Nat.zero_le _
  all _ h := by cases h
  acc _ := rfl
  stored _ := rfl
  others _ _ := rfl
  fault := rfl

/-- item `w` has become `item`; its element of C and nothing else may have changed -/
theorem Inv.move (h : Inv K row col A B s) (hp : Places row col) {item : Item R} {c : ℕ → List R} (hle : item.k ≤ K)
    (hall : item.done = true → item.k = K) (hacc : item.acc = dot A B M K (row w) (col w) item.k)
    (hc : ∀ i, c i = if i = cIndex row col w then (if item.done then [item.acc] else []) else s.c i) :
    Inv K row col A B ⟨update s.items w item, c, s.fault⟩ := by
  have hitems : ∀ P : WorkItem M N → Item R → Prop, P w item → (∀ v, v ≠ w → P v (s.items v)) →
      ∀ v, P v (update s.items w item v) := by
    intro P hw hv v
    by_cases hvw : v = w
    · subst hvw; rwa [update_self]
    · rw [update_of_ne hvw]; exact hv v hvw
  constructor
  · exact hitems (fun _ i => i.k ≤ K) hle fun v _ => h.le v
  · exact hitems (fun _ i => i.done = true → i.k = K) hall fun v _ => h.all v
  · exact hitems (fun v i => i.acc = dot A B M K (row v) (col v) i.k) hacc fun v _ => h.acc v
  · refine hitems (fun v i => c (cIndex row col v) = if i.done then [i.acc] else []) ?_ ?_
    · rw [hc, if_pos rfl]
    · intro v hv
      rw [hc, if_neg fun he => hv (hp.cIndex_inj he)]
      exact h.stored v
  · intro i hi
    exact (hc i).trans ((if_neg (hi w)).trans (h.others i hi))
  · exact h.fault

/-- the steps that an item has left -/
def left (K : ℕ) (item : Item R) : ℕ := if item.done then 0 else K - item.k + 1

/-- **One step.** It keeps the invariant, and brings the item nearer to its end. -/
theorem step_inv (hp : Places row col) (hI : IntSizes M K N) (h : Inv K row col A B s)
    (hs : step row col K A B s w = some s') :
    Inv K row col A B s' ∧ (∀ v, v ≠ w → s'.items v = s.items v) ∧ left K (s.items w) = left K (s'.items w) + 1 := by
  cases step_eq hs with
  | add hd hk ha hb =>
    refine ⟨h.move hp hk (fun hdone => ?_) ?_ (fun i => ?_), fun v hv => update_of_ne hv _ _, ?_⟩
    · rw [hd] at hdone; cases hdone
    · rw [h.acc w]; rfl
    · by_cases hi : i = cIndex row col w
      · rw [if_pos hi, hi, h.stored w, hd]; rfl
      · rw [if_neg hi]
    · simp only [left, update_self, hd, Bool.false_eq_true, if_false]
      omega
  | store hd hk hc =>
    have hlast : (s.items w).k = K := Nat.le_antisymm (h.le w) hk
    have hnew : s.c (cIndex row col w) = [] := by rw [h.stored w, hd]; rfl
    refine ⟨h.move hp (h.le w) (fun _ => hlast) (h.acc w) (fun i => ?_), fun v hv => update_of_ne hv _ _, ?_⟩
    · by_cases hi : i = cIndex row col w
      · rw [if_pos hi, hi]
        exact (update_self (cIndex row col w) _ s.c).trans (congrArg (· ++ [(s.items w).acc]) hnew)
      · rw [if_neg hi]
        exact update_of_ne hi _ _
    · simp only [left, update_self, hd, hlast, Bool.false_eq_true, if_false, if_true]
      omega
  | fault hd hbad =>
    -- every access is in bounds
    obtain ⟨hfit, hfitC⟩ := hI.element (hp.row_lt w) (hp.col_lt w)
    rcases hbad with ⟨hk, ha | hb⟩ | ⟨-, hc⟩
    · have hlt := index_lt (hp.row_lt w) hk
      rw [Nat.mul_comm K M] at hlt
      exact absurd ⟨hlt, (hfit _ hk).1⟩ ha
    · have hlt := index_lt hk (hp.col_lt w)
      rw [Nat.mul_comm N K] at hlt
      exact absurd ⟨hlt, (hfit _ hk).2⟩ hb
    · have hlt := index_lt (hp.row_lt w) (hp.col_lt w)
      rw [Nat.mul_comm N M] at hlt
      exact absurd ⟨hlt, hfitC⟩ hc

variable (K) in
/-- the steps that the launch has left -/
def total (s : St M N R) : ℕ := ∑ w : WorkItem M N, left K (s.items w)

theorem step_total (hp : Places row col) (hI : IntSizes M K N) (h : Inv K row col A B s)
    (hs : step row col K A B s w = some s') : total K s = total K s' + 1 := by
  obtain ⟨-, hothers, hleft⟩ := step_inv hp hI h hs
  have hrest : ∑ v ∈ Finset.univ.erase w, left K (s'.items v) = ∑ v ∈ Finset.univ.erase w, left K (s.items v) := by
    refine Finset.sum_congr rfl ?_
    intro v hv
    rw [hothers v (Finset.ne_of_mem_erase hv)]
  unfold total
  rw [← Finset.add_sum_erase _ _ (Finset.mem_univ w), ← Finset.add_sum_erase _ _ (Finset.mem_univ w), hrest, hleft]
  omega

/-- **Every schedule ends.** A run has used up as many steps of the launch as it has taken. -/
theorem run_total (hp : Places row col) (hI : IntSizes M K N) (h : Inv K row col A B s)
    (hr : (naive row col K A B).run s ops = some s') : Inv K row col A B s' ∧ total K s' + ops.length ≤ total K s := by
  have hwork := (naive row col K A B).run_work (I := Inv K row col A B) (C := fun _ => True) (μ := total K)
    (p := fun _ => true) ?_ h (fun _ _ => trivial) hr
  · rwa [List.countP_true] at hwork
  · intro u w v hu _ hs
    have ht := step_total hp hI hu hs
    exact ⟨(step_inv hp hI hu hs).1, by rw [if_pos rfl]; omega⟩

theorem total_init (hM : TS ∣ M) (hN : TS ∣ N) :
    total K (naive row col K A B : Lts (St M N R) _).init = M * N * (K + 1) := by
  have hcard : Fintype.card (WorkItem M N) = M * N := by
    simp only [Fintype.card_prod, Fintype.card_fin]
    calc M / TS * (N / TS) * (TS * TS) = M / TS * TS * (N / TS * TS) := Nat.mul_mul_mul_comm _ _ _ _
      _ = M * N := by rw [Nat.div_mul_cancel hM, Nat.div_mul_cancel hN]
  have hleft : ∀ w ∈ (Finset.univ : Finset (WorkItem M N)),
      left K ((naive row col K A B : Lts (St M N R) _).init.items w) = K + 1 := fun _ _ => rfl
  unfold total
  rw [Finset.sum_const_nat hleft, Finset.card_univ, hcard]

/-- no index of C is written twice -/
theorem Inv.once (h : Inv K row col A B s) (i : ℕ) : (s.c i).length ≤ 1 := by
  by_cases hi : ∃ w, i = cIndex row col w
  · obtain ⟨w, rfl⟩ := hi
    rw [h.stored w]
    split_ifs <;> simp
  · push Not at hi
    simp [h.others i hi]

/-- **A launch that places its items computes the product.** -/
theorem computes_of_places (hM : TS ∣ M) (hN : TS ∣ N) (hp : Places row col) (hI : IntSizes M K N) (C : Buffer R) :
    Computes (naive row col K A B) K A B C := by
  have hD := matmult_iff (A := A) (B := B) (C := C).2 ⟨hI, rfl⟩
  refine ⟨_, hD, fun ops s hr => ?_⟩
  obtain ⟨h, htotal⟩ := run_total hp hI init_inv hr
  rw [total_init hM hN] at htotal
  refine ⟨h.fault, h.once, ?_, by omega, ?_⟩
  · by_cases hd : ∀ w, (s.items w).done = true
    · exact Or.inl hd
    · push Not at hd
      obtain ⟨w, hw⟩ := hd
      obtain ⟨s', hs⟩ := item_moves (Bool.eq_false_iff.2 hw)
      exact Or.inr ⟨w, s', hs⟩
  · intro hd m hm n hn
    obtain ⟨w, rfl, rfl⟩ := hp.surj m hm n hn
    have hstored := h.stored w
    rw [if_pos (hd w), h.acc w, h.all w (hd w)] at hstored
    rw [matmult_apply hD hm hn]
    exact hstored

/-! ## The two kernels -/

omit [Zero R] [Add R] [Mul R] in
theorem globalId0_lt (hM : TS ∣ M) (w : WorkItem M N) : globalId0 w < M := global_lt hM w.1.1.2 w.2.1

omit [Zero R] [Add R] [Mul R] in
theorem globalId1_lt (hN : TS ∣ N) (w : WorkItem M N) : globalId1 w < N := global_lt hN w.1.2.2 w.2.2

theorem exists_globalIds (hM : TS ∣ M) (hN : TS ∣ N) {i j : ℕ} (hi : i < M) (hj : j < N) :
    ∃ w : WorkItem M N, globalId0 w = i ∧ globalId1 w = j := by
  obtain ⟨g, l, h0, h1⟩ := exists_item hM hN hi hj
  exact ⟨(g, l), h0, h1⟩

theorem globalIds_inj {v w : WorkItem M N} (h0 : globalId0 v = globalId0 w) (h1 : globalId1 v = globalId1 w) :
    v = w := by
  obtain ⟨hg0, hl0⟩ := global_inj h0
  obtain ⟨hg1, hl1⟩ := global_inj h1
  exact Prod.ext (Prod.ext (Fin.ext hg0) (Fin.ext hg1)) (Prod.ext hl0 hl1)

theorem places_myGEMM1 (hM : TS ∣ M) (hN : TS ∣ N) : Places (globalId0 : WorkItem M N → ℕ) globalId1 where
  row_lt := globalId0_lt hM
  col_lt := globalId1_lt hN
  inj _ _ h0 h1 := globalIds_inj h0 h1
  surj _ hm _ hn := exists_globalIds hM hN hm hn

/-- the ids the other way round, on a square C or without an item -/
theorem places_myGEMM1b (hM : TS ∣ M) (hN : TS ∣ N) (h : M = N ∨ M = 0 ∨ N = 0) :
    Places (globalId1 : WorkItem M N → ℕ) globalId0 where
  row_lt w := by
    have h0 := globalId0_lt hM w
    have h1 := globalId1_lt hN w
    omega
  col_lt w := by
    have h0 := globalId0_lt hM w
    have h1 := globalId1_lt hN w
    omega
  inj _ _ h1 h0 := globalIds_inj h0 h1
  surj m hm n hn := by
    obtain ⟨w, h0, h1⟩ := exists_globalIds hM hN (i := n) (j := m) (by omega) (by omega)
    exact ⟨w, h1, h0⟩

/-! ## Launches that do not -/

omit [Zero R] in
/-- a step of an item in its loop -/
theorem step_adds (hk : (s.items w).k < K) (hs : step row col K A B s w = some s') :
    s'.fault = true ∨ ((s.items w).k * M + row w < 2147483648 ∧ col w * K + (s.items w).k < 2147483648) ∧
      ((s'.items w).k = (s.items w).k + 1 ∧ (s'.items w).done = false) ∧
      (∀ v, v ≠ w → s'.items v = s.items v) ∧ s'.c = s.c := by
  cases step_eq hs with
  | add hd hk' ha hb =>
    refine Or.inr ⟨⟨ha.2, hb.2⟩, ?_, fun v hv => update_of_ne hv _ _, rfl⟩
    simp only [update_self, hd, and_self]
  | store hd hk' hc => omega
  | fault hd hbad => exact Or.inl rfl

omit [Zero R] in
/-- a step behind the loop -/
theorem step_stores (hk : K ≤ (s.items w).k) (hs : step row col K A B s w = some s') :
    s'.fault = true ∨ Inside (M * N) (cIndex row col w) ∧ (∀ v, v ≠ w → s'.items v = s.items v) ∧
      ∃ x, s'.c = update s.c (cIndex row col w) (s.c (cIndex row col w) ++ [x]) := by
  cases step_eq hs with
  | add hd hk' ha hb => omega
  | store hd hk' hc => exact Or.inr ⟨hc, fun v hv => update_of_ne hv _ _, _, rfl⟩
  | fault hd hbad => exact Or.inl rfl

/-- an item that is let run alone faults, or the indices that it has left fit and it stores its element -/
theorem item_ends {n : ℕ} (hn : K - (s.items w).k = n) (hd : (s.items w).done = false) :
    ∃ ops s', (naive row col K A B).run s ops = some s' ∧ (s'.fault = true ∨
      (∀ k, (s.items w).k ≤ k → k < K → k * M + row w < 2147483648 ∧ col w * K + k < 2147483648) ∧
        Inside (M * N) (cIndex row col w) ∧ (∀ v, v ≠ w → s'.items v = s.items v) ∧
        ∃ x, s'.c = update s.c (cIndex row col w) (s.c (cIndex row col w) ++ [x])) := by
  induction n generalizing s with
  | zero =>
    obtain ⟨u, hu⟩ : ∃ u, step row col K A B s w = some u := item_moves hd
    refine ⟨[w], u, Lts.run_cons _ |>.2 ⟨u, hu, rfl⟩, (step_stores (by omega) hu).imp_right fun h => ⟨?_, h⟩⟩
    intro k hk hkK
    omega
  | succ n ih =>
    obtain ⟨u, hu⟩ : ∃ u, step row col K A B s w = some u := item_moves hd
    rcases step_adds (by omega) hu with hf | ⟨hfit, ⟨hk, hd'⟩, hothers, hc⟩
    · exact ⟨[w], u, Lts.run_cons _ |>.2 ⟨u, hu, rfl⟩, Or.inl hf⟩
    · obtain ⟨ops, s', hr, hend⟩ := ih (by omega) hd'
      refine ⟨w :: ops, s', Lts.run_cons _ |>.2 ⟨u, hu, hr⟩, hend.imp_right ?_⟩
      rintro ⟨hfits, hlt, hothers', hx⟩
      rw [hc] at hx
      refine ⟨fun j hj hjK => ?_, hlt, fun v hv => (hothers' v hv).trans (hothers v hv), hx⟩
      by_cases hj0 : j = (s.items w).k
      · rw [hj0]; exact hfit
      · exact hfits j (by omega) hjK

/-- in a launch that computes, the indices of every item fit -/
theorem Computes.element {C : Buffer R} (h : Computes (naive row col K A B) K A B C) (w : WorkItem M N) :
    ElementFits M K (row w) (col w) ∧ cIndex row col w < M * N := by
  obtain ⟨_, _, h⟩ := h
  obtain ⟨ops, s, hr, hs⟩ := item_ends (s := (naive row col K A B).init) (w := w) rfl rfl
  rcases hs with hf | ⟨hfit, ⟨hlt, hc⟩, -⟩
  · rw [(h ops s hr).1] at hf; cases hf
  · exact ⟨⟨fun k hk => hfit k (Nat.zero_le k) hk, hc⟩, hlt⟩

theorem Computes.intSizes {C : Buffer R} (hp : Places row col) (h : Computes (naive row col K A B) K A B C) :
    IntSizes M K N := by
  refine IntSizes.of_last fun hM hN => ?_
  obtain ⟨w, hrow, hcol⟩ := hp.surj (M - 1) (by omega) (N - 1) (by omega)
  have hfit := (h.element w).1
  rwa [hrow, hcol] at hfit

/-- two items that store to the same element -/
theorem not_computes_of_same {C : Buffer R} {v w : WorkItem M N} (hne : v ≠ w)
    (he : cIndex row col v = cIndex row col w) : ¬ Computes (naive row col K A B) K A B C := by
  rintro ⟨_, _, h⟩
  obtain ⟨ops, s, hr, hs⟩ := item_ends (s := (naive row col K A B).init) (w := v) rfl rfl
  rcases hs with hf | ⟨-, -, hothers, x, hc⟩
  · rw [(h ops s hr).1] at hf; cases hf
  · have hw : s.items w = ⟨0, 0, false⟩ := hothers w (Ne.symm hne)
    have hd : (s.items w).done = false := by rw [hw]
    obtain ⟨ops', s', hr', hs'⟩ := item_ends (A := A) (B := B) (K := K) rfl hd
    have hrun := Lts.run_append _ |>.2 ⟨s, hr, hr'⟩
    rcases hs' with hf | ⟨-, -, -, y, hc'⟩
    · rw [(h _ s' hrun).1] at hf; cases hf
    · have honce := (h _ s' hrun).2.1 (cIndex row col w)
      rw [hc', update_self, hc, he, update_self] at honce
      simp at honce

/-- an item that has no element of C -/
theorem not_computes_of_outside {C : Buffer R} (hw : M * N ≤ cIndex row col w) :
    ¬ Computes (naive row col K A B) K A B C := fun h => Nat.not_le.2 (h.element w).2 hw

/-- **A C that is not square.** If it is wider than high, the item of the last column and the first row stores behind
the end; if it is higher than wide, two items store to the first element below the square. -/
theorem not_computes_myGEMM1b (hM : TS ∣ M) (hN : TS ∣ N) (hne : M ≠ N) (hM0 : M ≠ 0) (hN0 : N ≠ 0) (C : Buffer R) :
    ¬ Computes (myGEMM1b M N K A B) K A B C := by
  have hM16 : 16 ≤ M := Nat.le_of_dvd (Nat.pos_of_ne_zero hM0) hM
  rcases Nat.lt_or_gt_of_ne hne with hlt | hlt
  · obtain ⟨v, hv0, hv1⟩ := exists_globalIds (M := M) (N := N) hM hN (i := 0) (j := M) (by omega) hlt
    obtain ⟨w, hw0, hw1⟩ := exists_globalIds (M := M) (N := N) hM hN (i := 1) (j := 0) (by omega) (by omega)
    refine not_computes_of_same (v := v) (w := w) ?_ ?_
    · rintro rfl
      omega
    · simp only [cIndex, hv0, hv1, hw0, hw1, Nat.zero_mul, Nat.one_mul, Nat.zero_add, Nat.add_zero]
  · obtain ⟨w, hw0, hw1⟩ := exists_globalIds (M := M) (N := N) hM hN (i := M - 1) (j := 0) (by omega) (by omega)
    refine not_computes_of_outside (w := w) ?_
    calc M * N = N * M := Nat.mul_comm M N
      _ ≤ (M - 1) * M := Nat.mul_le_mul_right M (by omega)
      _ = cIndex globalId1 globalId0 w := by rw [cIndex, hw0, hw1, Nat.add_zero]

/-! ## The result -/

/-- **The naive kernels.** For sizes that are multiples of 16, every K and whatever the elements are: in every schedule
of the launch, `myGEMM1` stays in bounds and writes every element of C once, with the value that `matmult` writes,
exactly if every index fits an `int`; `myGEMM1b` does so exactly if C is also square or empty. -/
theorem computes_iff (M N K : ℕ) (hM : TS ∣ M) (hN : TS ∣ N) (A B C : Buffer R) (kernel : Kernel) :
    Computes (launch M N K A B kernel) K A B C ↔
      (kernel = .myGEMM1 ∨ M = N ∨ M = 0 ∨ N = 0) ∧ IntSizes M K N := by
  constructor
  · intro h
    cases kernel with
    | myGEMM1 => exact ⟨Or.inl rfl, h.intSizes (places_myGEMM1 hM hN)⟩
    | myGEMM1b =>
      have hshape : M = N ∨ M = 0 ∨ N = 0 := by
        by_contra hnot
        push Not at hnot
        exact not_computes_myGEMM1b hM hN hnot.1 hnot.2.1 hnot.2.2 C h
      exact ⟨Or.inr hshape, h.intSizes (places_myGEMM1b hM hN hshape)⟩
  · rintro ⟨h, hI⟩
    cases kernel with
    | myGEMM1 => exact computes_of_places hM hN (places_myGEMM1 hM hN) hI C
    | myGEMM1b => exact computes_of_places hM hN (places_myGEMM1b hM hN (h.resolve_left (by decide))) hI C

/-- one group -/
theorem square_computes :
    Computes (launch 16 16 3 (fun _ => 1) (fun _ => 2) .myGEMM1b : Lts (St 16 16 ℕ) _) 3 (fun _ => 1) (fun _ => 2)
      fun _ => 0 :=
  (computes_iff 16 16 3 (by decide) (by decide) _ _ _ .myGEMM1b).2 ⟨Or.inr (Or.inl rfl), by decide⟩

/-- **Not square.** `myGEMM1b` on a C of 32 columns and 16 rows, and of 16 columns and 32 rows. -/
theorem wide_launch_misses :
    ¬ (∀ (M N K : ℕ) (A B C : Buffer ℕ), TS ∣ M → TS ∣ N → Computes (launch M N K A B .myGEMM1b) K A B C) ∧
      ¬ Computes (launch 32 16 0 (fun _ => 0) (fun _ => 0) .myGEMM1b : Lts (St 32 16 ℕ) _) 0 (fun _ => 0)
        (fun _ => 0) fun _ => 0 := by
  constructor
  · intro h
    exact not_computes_myGEMM1b (M := 16) (N := 32) (K := 0) (by decide) (by decide) (by decide) (by decide) (by decide)
      (fun _ => 0) (h 16 32 0 (fun _ => 0) (fun _ => 0) (fun _ => 0) (by decide) (by decide))
  · exact not_computes_myGEMM1b (by decide) (by decide) (by decide) (by decide) (by decide) _

end Hodgepodge.Gemm.MyGemm1
