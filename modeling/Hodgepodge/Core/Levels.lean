/-
How far the states of a transition system are from its initial state, by the number of operations of the shortest run.
A breadth-first search goes through the states level by level.

- `reachIn_succ`: a run of `n + 1` operations is a run of `n` and one more.
- `level_succ`, `within_succ`: what is new at a distance is one operation away from the level before it.
- `reach_iff_level`, `level_unique`: every reachable state is on exactly one level.
- `exists_empty_level`: a finite system runs out of levels.
- `exists_big_level`: many states within a distance make a big level.
- `reach_iff_before`, `within_iff_reach`: behind an empty level there is nothing.
-/
import Mathlib.Combinatorics.Pigeonhole
import Mathlib.Data.Fintype.EquivFin
import Mathlib.Order.WellFounded
import Hodgepodge.Core.Lts

namespace Hodgepodge.Core.Lts

variable {S O : Type*} (L : Lts S O) {n m : ℕ} {s t : S}

/-- some run of `n` operations from the initial state ends in `s` -/
def ReachIn (n : ℕ) (s : S) : Prop := ∃ ops, ops.length = n ∧ L.run L.init ops = some s

/-- some run of at most `n` operations does -/
def Within (n : ℕ) (s : S) : Prop := ∃ m ≤ n, L.ReachIn m s

/-- a run of `n` operations does and no shorter one -/
def Level (n : ℕ) (s : S) : Prop := L.ReachIn n s ∧ ∀ m < n, ¬ L.ReachIn m s

theorem reachIn_zero : L.ReachIn 0 s ↔ s = L.init := by
  constructor
  · rintro ⟨ops, hlen, hr⟩
    rw [List.length_eq_zero_iff.1 hlen, run_nil] at hr
    exact (Option.some.inj hr).symm
  · rintro rfl
    exact ⟨[], rfl, rfl⟩

theorem reachIn_succ : L.ReachIn (n + 1) t ↔ ∃ s, L.ReachIn n s ∧ ∃ o, L.step s o = some t := by
  constructor
  · rintro ⟨ops, hlen, hr⟩
    rcases List.eq_nil_or_concat ops with rfl | ⟨ops, o, rfl⟩
    · exact absurd hlen (Nat.succ_ne_zero n).symm
    · obtain ⟨s, hs, ho⟩ := L.run_snoc.1 (by simpa using hr)
      exact ⟨s, ⟨ops, by simpa using hlen, hs⟩, o, ho⟩
  · rintro ⟨s, ⟨ops, hlen, hs⟩, o, ho⟩
    exact ⟨ops ++ [o], by simp [hlen], L.run_snoc.2 ⟨s, hs, ho⟩⟩

theorem level_zero : L.Level 0 s ↔ s = L.init := by
  simp [Level, reachIn_zero]

theorem within_zero : L.Within 0 s ↔ s = L.init := by
  simp [Within, reachIn_zero]

theorem within_mono (h : L.Within m s) (hmn : m ≤ n) : L.Within n s := by
  obtain ⟨k, hk, hr⟩ := h
  exact ⟨k, Nat.le_trans hk hmn, hr⟩

theorem Level.within (h : L.Level n s) : L.Within n s := ⟨n, Nat.le_refl n, h.1⟩

/-- the shortest run decides the level -/
theorem exists_level (h : L.ReachIn n s) : ∃ m ≤ n, L.Level m s := by
  classical
  have hex : ∃ m, L.ReachIn m s := ⟨n, h⟩
  exact ⟨Nat.find hex, Nat.find_min' hex h, Nat.find_spec hex, fun m hm => Nat.find_min hex hm⟩

theorem level_unique (hm : L.Level m s) (hn : L.Level n s) : m = n := by
  rcases Nat.lt_trichotomy m n with h | h | h
  · exact absurd hm.1 (hn.2 m h)
  · exact h
  · exact absurd hn.1 (hm.2 n h)

/-! ## From one level to the next -/

/-- the step before the end of a shortest run ends a shortest run -/
theorem Level.pred (h : L.Level (n + 1) t) : ∃ s, L.Level n s ∧ ∃ o, L.step s o = some t := by
  obtain ⟨s, hs, o, ho⟩ := L.reachIn_succ.1 h.1
  refine ⟨s, ⟨hs, fun m hm hr => ?_⟩, o, ho⟩
  exact h.2 (m + 1) (Nat.succ_lt_succ hm) (L.reachIn_succ.2 ⟨s, hr, o, ho⟩)

theorem level_succ : L.Level (n + 1) t ↔ ¬ L.Within n t ∧ ∃ s, L.Level n s ∧ ∃ o, L.step s o = some t := by
  constructor
  · intro h
    refine ⟨?_, h.pred⟩
    rintro ⟨m, hm, hr⟩
    exact h.2 m (Nat.lt_succ_of_le hm) hr
  · rintro ⟨hno, s, hs, o, ho⟩
    refine ⟨L.reachIn_succ.2 ⟨s, hs.1, o, ho⟩, fun m hm hr => ?_⟩
    exact hno ⟨m, Nat.le_of_lt_succ hm, hr⟩

theorem within_succ : L.Within (n + 1) t ↔ L.Within n t ∨ ∃ s, L.Level n s ∧ ∃ o, L.step s o = some t := by
  constructor
  · rintro ⟨k, hk, hr⟩
    obtain ⟨m, hm, hl⟩ := L.exists_level hr
    rcases Nat.lt_or_eq_of_le (Nat.le_trans hm hk) with h | rfl
    · exact Or.inl ⟨m, Nat.le_of_lt_succ h, hl.1⟩
    · exact Or.inr hl.pred
  · rintro (h | ⟨s, hs, o, ho⟩)
    · exact L.within_mono h (Nat.le_succ n)
    · exact ⟨n + 1, Nat.le_refl _, L.reachIn_succ.2 ⟨s, hs.1, o, ho⟩⟩

/-! ## All levels -/

theorem reach_iff_level : L.Reach s ↔ ∃ n, L.Level n s := by
  constructor
  · rintro ⟨ops, hr⟩
    obtain ⟨m, -, hl⟩ := L.exists_level ⟨ops, rfl, hr⟩
    exact ⟨m, hl⟩
  · rintro ⟨n, ⟨ops, -, hr⟩, -⟩
    exact ⟨ops, hr⟩

theorem level_empty_of_le (h : ∀ s, ¬ L.Level n s) (hnm : n ≤ m) : ∀ s, ¬ L.Level m s := by
  induction hnm with
  | refl => exact h
  | step _ ih =>
    intro s hs
    obtain ⟨t, ht, -⟩ := hs.pred
    exact ih t ht

theorem reach_iff_before (h : ∀ s, ¬ L.Level n s) : L.Reach s ↔ ∃ m < n, L.Level m s := by
  rw [reach_iff_level]
  constructor
  · rintro ⟨m, hm⟩
    exact ⟨m, Nat.lt_of_not_le fun hle => L.level_empty_of_le h hle s hm, hm⟩
  · rintro ⟨m, -, hm⟩
    exact ⟨m, hm⟩

theorem within_iff_reach (h : ∀ s, ¬ L.Level n s) : L.Within n s ↔ L.Reach s := by
  constructor
  · rintro ⟨m, -, ops, -, hr⟩
    exact ⟨ops, hr⟩
  · intro hr
    obtain ⟨m, hm, hl⟩ := (L.reach_iff_before h).1 hr
    exact L.within_mono hl.within (Nat.le_of_lt hm)

/-- **A finite system has finitely many levels.** -/
theorem exists_empty_level [Finite S] : ∃ n, ∀ s, ¬ L.Level n s := by
  by_contra hall
  have hne : ∀ n, ∃ s, L.Level n s := fun n => by
    by_contra h
    exact hall ⟨n, fun s hs => h ⟨s, hs⟩⟩
  choose f hf using hne
  refine not_injective_infinite_finite f fun m n hmn => ?_
  exact L.level_unique (hf m) (hmn ▸ hf n)

/-- **Many states make a big level.** -/
theorem exists_big_level {X : Finset S} {b : ℕ} (hX : ∀ s ∈ X, L.Within n s) (hcard : (n + 1) * b < X.card) :
    ∃ m ≤ n, ∃ Y : Finset S, b < Y.card ∧ ∀ s ∈ Y, L.Level m s := by
  classical
  have hlevel : ∀ s ∈ X, ∃ m ≤ n, L.Level m s := fun s hs => by
    obtain ⟨k, hk, hr⟩ := hX s hs
    obtain ⟨m, hm, hl⟩ := L.exists_level hr
    exact ⟨m, Nat.le_trans hm hk, hl⟩
  choose! f hf hlevel using hlevel
  have hmaps : ∀ s ∈ X, f s ∈ Finset.range (n + 1) := fun s hs => Finset.mem_range.2 (Nat.lt_succ_of_le (hf s hs))
  obtain ⟨m, hm, hb⟩ := Finset.exists_lt_card_fiber_of_mul_lt_card_of_maps_to hmaps
    (by rwa [Finset.card_range])
  refine ⟨m, Nat.le_of_lt_succ (Finset.mem_range.1 hm), _, hb, fun s hs => ?_⟩
  obtain ⟨hX, rfl⟩ := Finset.mem_filter.1 hs
  exact hlevel s hX

end Hodgepodge.Core.Lts
