/-
The reference product `matmult` (topencl.cpp). Matrices are stored column by column: A is M*K, B is K*N, C is M*N, and
the element of C in row m and column n stands at n*M + m. The elements are those of any type with a zero, a sum and a
product; nothing is assumed of these, so the order in which products are added matters.

Sizes and counters are `int`s that are not negative. An index is a product of two of them and a third: where it does not
fit an `int`, it has no value, here and in the kernels.

- `index_eq`, `load_index`, `place_index`: the value of an index, and a load and a store at it.
- `matmult_apply`: `matmult` writes the `dot` of row m of A and column n of B to n*M + m.
- `matmult_iff`: it has a result if and only if every index that it needs fits (`IntSizes`).
- `index_lt`, `index_inj`: column-major indices are in bounds and name one element each.
-/
import Mathlib.Logic.Function.Basic
import Mathlib.Tactic.Common
import Hodgepodge.Core.Checked
import Hodgepodge.Core.Loop

namespace Hodgepodge.Gemm

open Function Hodgepodge.Core Hodgepodge.Core.Checked

variable {R : Type*}

/-- a `float *` -/
abbrev Buffer (R : Type*) := ℕ → R

/-- `i*size + j`, in `int`s -/
def index (i size j : ℕ) : Option ℕ := (intNat (i * size)).bind fun p => intNat (p + j)

/-- a load from a buffer of `size` elements -/
def load (size : ℕ) (buffer : Buffer R) (i : ℕ) : Option R := if i < size then some (buffer i) else none

/-- the place of a store to a buffer of `size` elements -/
def place (size i : ℕ) : Option ℕ := if i < size then some i else none

section Model

variable [Zero R] [Add R] [Mul R]

/-- the loop over `k` -/
def innerLoop (A B : Buffer R) (M K m n : ℕ) : Option R :=
  forNat K (fun k acc => (index k M m).bind fun i => (index n K k).map fun j => acc + A i * B j) 0

/-- the loop over `n` -/
def rowLoop (A B : Buffer R) (M K N m : ℕ) (C : Buffer R) : Option (Buffer R) :=
  forNat N (fun n C => (innerLoop A B M K m n).bind fun acc => (index n M m).map fun i => update C i acc) C

def matmult (A B C : Buffer R) (M K N : ℕ) : Option (Buffer R) :=
  forNat M (fun m C => rowLoop A B M K N m C) C

end Model

/-! ## Column-major indices -/

theorem index_lt {M N m n : ℕ} (hm : m < M) (hn : n < N) : n * M + m < N * M :=
  calc n * M + m < n * M + M := Nat.add_lt_add_left hm _
    _ = (n + 1) * M := (Nat.succ_mul n M).symm
    _ ≤ N * M := Nat.mul_le_mul_right M hn

theorem index_div {M m : ℕ} (hm : m < M) (n : ℕ) : (n * M + m) / M = n := by
  rw [Nat.add_comm, Nat.add_mul_div_right _ _ (by omega), Nat.div_eq_of_lt hm, Nat.zero_add]

theorem index_inj {M m m' n n' : ℕ} (hm : m < M) (hm' : m' < M) (h : n * M + m = n' * M + m') : n = n' ∧ m = m' := by
  have hn : n = n' :=
    calc n = (n * M + m) / M := (index_div hm n).symm
      _ = (n' * M + m') / M := by rw [h]
      _ = n' := index_div hm' n'
  subst hn
  exact ⟨rfl, by omega⟩

/-! ## Indices that fit -/

theorem index_eq {i size j n : ℕ} : index i size j = some n ↔ i * size + j < 2147483648 ∧ n = i * size + j := by
  simp only [index, Option.bind_eq_some_iff, intNat_eq]
  constructor
  · rintro ⟨p, ⟨-, rfl⟩, h⟩
    exact h
  · rintro ⟨h, rfl⟩
    exact ⟨_, ⟨by omega, rfl⟩, h, rfl⟩

theorem index_fits {i size j : ℕ} (h : i * size + j < 2147483648) : index i size j = some (i * size + j) :=
  index_eq.2 ⟨h, rfl⟩

/-- a load at an index -/
theorem load_index (size : ℕ) (buffer : Buffer R) (i n j : ℕ) :
    (index i n j).bind (load size buffer) =
      if i * n + j < size ∧ i * n + j < 2147483648 then some (buffer (i * n + j)) else none := by
  by_cases hfit : i * n + j < 2147483648
  · rw [index_fits hfit, Option.bind_some, load]
    simp only [hfit, and_true]
  · have hnone : index i n j = none := Option.eq_none_iff_forall_ne_some.2 fun x hx => hfit (index_eq.1 hx).1
    rw [hnone, if_neg fun h => hfit h.2, Option.bind_none]

theorem place_index (size i n j : ℕ) : (index i n j).bind (place size) =
    if i * n + j < size ∧ i * n + j < 2147483648 then some (i * n + j) else none := load_index size id i n j

/-- every index of the three matrices fits an `int`, if there is an element of C to compute -/
def IntSizes (M K N : ℕ) : Prop :=
  M ≠ 0 → N ≠ 0 → M * K ≤ 2147483648 ∧ K * N ≤ 2147483648 ∧ M * N ≤ 2147483648

instance (M K N : ℕ) : Decidable (IntSizes M K N) := by unfold IntSizes; infer_instance

/-- the indices of one element of C and its products fit -/
def ElementFits (M K m n : ℕ) : Prop :=
  (∀ k < K, k * M + m < 2147483648 ∧ n * K + k < 2147483648) ∧ n * M + m < 2147483648

theorem last_index {a b : ℕ} (ha : a ≠ 0) (hb : b ≠ 0) : (a - 1) * b + (b - 1) + 1 = a * b := by
  obtain ⟨c, rfl⟩ := Nat.exists_eq_succ_of_ne_zero ha
  rw [Nat.succ_sub_one, Nat.succ_mul]
  omega

/-- the indices of all elements fit if those of the last one do -/
theorem IntSizes.of_last {M K N : ℕ} (h : M ≠ 0 → N ≠ 0 → ElementFits M K (M - 1) (N - 1)) : IntSizes M K N := by
  intro hM hN
  obtain ⟨hk, hc⟩ := h hM hN
  have hlastC := last_index hN hM
  have hMN := Nat.mul_comm M N
  rcases Nat.eq_zero_or_pos K with rfl | hK
  · exact ⟨by omega, by omega, by omega⟩
  · obtain ⟨ha, hb⟩ := hk (K - 1) (by omega)
    have hlastA := last_index (Nat.ne_of_gt hK) hM
    have hlastB := last_index hN (Nat.ne_of_gt hK)
    have hMK := Nat.mul_comm M K
    have hKN := Nat.mul_comm K N
    exact ⟨by omega, by omega, by omega⟩

theorem IntSizes.element {M K N m n : ℕ} (h : IntSizes M K N) (hm : m < M) (hn : n < N) : ElementFits M K m n := by
  obtain ⟨hA, hB, hC⟩ := h (Nat.ne_of_gt (Nat.zero_lt_of_lt hm)) (Nat.ne_of_gt (Nat.zero_lt_of_lt hn))
  refine ⟨fun k hk => ⟨?_, ?_⟩, ?_⟩
  · exact Nat.lt_of_lt_of_le (index_lt hm hk) (Nat.mul_comm M K ▸ hA)
  · exact Nat.lt_of_lt_of_le (index_lt hk hn) (Nat.mul_comm K N ▸ hB)
  · exact Nat.lt_of_lt_of_le (index_lt hm hn) (Nat.mul_comm M N ▸ hC)

/-! ## What `matmult` writes -/

variable [Zero R] [Add R] [Mul R]

/-- `acc` after the first `k` products -/
def dot (A B : Buffer R) (M K m n : ℕ) : ℕ → R
  | 0 => 0
  | k + 1 => dot A B M K m n k + A (k * M + m) * B (n * K + k)

/-- C after the first `n` elements of row `m` -/
def rowDone (A B : Buffer R) (M K m : ℕ) (C : Buffer R) : ℕ → Buffer R
  | 0 => C
  | n + 1 => update (rowDone A B M K m C n) (n * M + m) (dot A B M K m n K)

/-- C after the first `m` rows -/
def rowsDone (A B C : Buffer R) (M K N : ℕ) : ℕ → Buffer R
  | 0 => C
  | m + 1 => rowDone A B M K m (rowsDone A B C M K N m) N

variable {A B C D : Buffer R} {M K N m n : ℕ}

theorem innerLoop_iff {x : R} : innerLoop A B M K m n = some x ↔
    (∀ k < K, k * M + m < 2147483648 ∧ n * K + k < 2147483648) ∧ x = dot A B M K m n K := by
  refine forNat_iff (f := dot A B M K m n) fun k x _ => ?_
  simp only [Option.bind_eq_some_iff, Option.map_eq_some_iff, index_eq]
  constructor
  · rintro ⟨_, ⟨hi, rfl⟩, _, ⟨hj, rfl⟩, rfl⟩
    exact ⟨⟨hi, hj⟩, rfl⟩
  · rintro ⟨⟨hi, hj⟩, rfl⟩
    exact ⟨_, ⟨hi, rfl⟩, _, ⟨hj, rfl⟩, rfl⟩

theorem rowLoop_iff : rowLoop A B M K N m C = some D ↔
    (∀ n < N, ElementFits M K m n) ∧ D = rowDone A B M K m C N := by
  refine forNat_iff (f := rowDone A B M K m C) fun n D _ => ?_
  simp only [Option.bind_eq_some_iff, Option.map_eq_some_iff, innerLoop_iff, index_eq]
  constructor
  · rintro ⟨_, ⟨hk, rfl⟩, _, ⟨hi, rfl⟩, rfl⟩
    exact ⟨⟨hk, hi⟩, rfl⟩
  · rintro ⟨⟨hk, hi⟩, rfl⟩
    exact ⟨_, ⟨hk, rfl⟩, _, ⟨hi, rfl⟩, rfl⟩

/-- **When it has a result.** -/
theorem matmult_iff : matmult A B C M K N = some D ↔ IntSizes M K N ∧ D = rowsDone A B C M K N M := by
  have hiff : matmult A B C M K N = some D ↔ (∀ m < M, ∀ n < N, ElementFits M K m n) ∧ D = rowsDone A B C M K N M :=
    forNat_iff (f := rowsDone A B C M K N) fun _ _ _ => rowLoop_iff
  refine hiff.trans (and_congr_left fun _ => ⟨fun h => IntSizes.of_last fun hM hN => ?_, fun h m hm n hn => ?_⟩)
  · exact h (M - 1) (by omega) (N - 1) (by omega)
  · exact h.element hm hn

theorem rowDone_apply (A B : Buffer R) (M K N m : ℕ) (C : Buffer R) (hm : m < M) {m' n : ℕ} (hm' : m' < M) :
    rowDone A B M K m C N (n * M + m') =
      if m' = m ∧ n < N then dot A B M K m n K else C (n * M + m') := by
  induction N with
  | zero => simp [rowDone]
  | succ N ih =>
    by_cases h : n * M + m' = N * M + m
    · obtain ⟨rfl, rfl⟩ := index_inj hm' hm h
      rw [rowDone, update_self, if_pos ⟨rfl, Nat.lt_succ_self _⟩]
    · rw [rowDone, update_of_ne h, ih]
      have hiff : m' = m ∧ n < N + 1 ↔ m' = m ∧ n < N := by
        constructor
        · rintro ⟨rfl, hn⟩
          refine ⟨rfl, Nat.lt_of_le_of_ne (Nat.lt_succ_iff.1 hn) ?_⟩
          rintro rfl
          exact h rfl
        · exact fun ⟨h, hn⟩ => ⟨h, Nat.lt_succ_of_lt hn⟩
      simp only [hiff]

/-- **The product.** Element (m, n) of `matmult` is the sum of the products of row m and column n, in order. -/
theorem matmult_apply (h : matmult A B C M K N = some D) (hm : m < M) (hn : n < N) :
    D (n * M + m) = dot A B M K m n K := by
  have hrows : ∀ l ≤ M, rowsDone A B C M K N l (n * M + m) =
      if m < l then dot A B M K m n K else C (n * M + m) := by
    intro l hl
    induction l with
    | zero => simp [rowsDone]
    | succ l ih =>
      rw [rowsDone, rowDone_apply A B M K N l _ (by omega) hm, ih (by omega)]
      by_cases hml : m = l
      · subst hml; simp [hn]
      · by_cases hlt : m < l
        · simp [hml, hlt, Nat.lt_succ_of_lt hlt]
        · rw [if_neg (by tauto), if_neg hlt, if_neg (by omega)]
  obtain ⟨-, rfl⟩ := matmult_iff.1 h
  rw [hrows M (Nat.le_refl M), if_pos hm]

end Hodgepodge.Gemm
