/-
Barriers. Items work on their own and meet at barriers: an item that has come to its next barrier waits, and goes on
when every item of the group has come to that barrier. `phase` counts the barriers that an item has passed, `waits`
says that it stands at the next one.

- `Together`: no item is more than one barrier ahead of another, and who is behind by one waits.
- `Together.work`, `Together.pass`: what an item does between barriers, and the pass of an open barrier, keep it.
- `Together.same`: the others, as seen by an item that works.
- `exists_moves`: the barriers of a group never lock up.
-/
import Mathlib.Data.Fintype.Basic
import Mathlib.Logic.Function.Basic
import Mathlib.Order.Minimal
import Mathlib.Tactic.Common

namespace Hodgepodge.Core.Barrier

open Function

variable {ι L : Type*} (phase : L → ℕ) (waits : L → Bool)

/-- every item has come to the barrier at which `i` waits -/
def Open (items : ι → L) (i : ι) : Prop :=
  ∀ j, phase (items i) < phase (items j) ∨ (phase (items j) = phase (items i) ∧ waits (items j) = true)

instance [Fintype ι] (items : ι → L) (i : ι) : Decidable (Open phase waits items i) := by
  unfold Open; infer_instance

def Together (items : ι → L) : Prop :=
  ∀ i j, phase (items i) ≤ phase (items j) ∨ (phase (items i) = phase (items j) + 1 ∧ waits (items j) = true)

variable {phase waits} {items : ι → L}

theorem Together.const (l : L) : Together phase waits fun _ : ι => l := fun _ _ => Or.inl le_rfl

/-- nobody is ahead of an item that works, and who is behind waits at the barrier it has passed -/
theorem Together.same (h : Together phase waits items) {i : ι} (hi : waits (items i) = false) (j : ι) :
    phase (items j) = phase (items i) ∨ (phase (items i) = phase (items j) + 1 ∧ waits (items j) = true) := by
  have hle : phase (items j) ≤ phase (items i) := by
    rcases h j i with h | ⟨-, h⟩
    · exact h
    · rw [hi] at h; cases h
  rcases h i j with h | h
  · exact Or.inl (by omega)
  · exact Or.inr h

variable [DecidableEq ι]

/-- a step of an item between two barriers -/
theorem Together.work (h : Together phase waits items) {i : ι} {l : L} (hi : waits (items i) = false)
    (hl : phase l = phase (items i)) : Together phase waits (update items i l) := by
  intro j k
  by_cases hj : j = i <;> by_cases hk : k = i
  · subst hj hk; exact Or.inl le_rfl
  · subst hj
    rw [update_self, update_of_ne hk, hl]
    exact h j k
  · subst hk
    rw [update_self, update_of_ne hj, hl]
    rcases h j k with h | ⟨-, h⟩
    · exact Or.inl h
    · rw [hi] at h; cases h
  · rw [update_of_ne hj, update_of_ne hk]
    exact h j k

/-- an item passes an open barrier -/
theorem Together.pass (h : Together phase waits items) {i : ι} {l : L} (ho : Open phase waits items i)
    (hl : phase l = phase (items i) + 1) : Together phase waits (update items i l) := by
  intro j k
  by_cases hj : j = i <;> by_cases hk : k = i
  · subst hj hk; exact Or.inl le_rfl
  · subst hj
    rw [update_self, update_of_ne hk, hl]
    rcases ho k with h | ⟨he, hw⟩
    · exact Or.inl h
    · exact Or.inr ⟨by omega, hw⟩
  · subst hk
    rw [update_self, update_of_ne hj, hl]
    rcases h j k with h | ⟨h, -⟩
    · exact Or.inl (by omega)
    · exact Or.inl (by omega)
  · rw [update_of_ne hj, update_of_ne hk]
    exact h j k

omit [DecidableEq ι] in
/-- **No lock-up.** Of the items that have passed no more barriers than `i`, one works or stands at an open barrier. -/
theorem exists_moves (i : ι) :
    ∃ j, phase (items j) ≤ phase (items i) ∧ (waits (items j) = false ∨ Open phase waits items j) := by
  obtain ⟨m, -, hmin⟩ :=
    exists_minimalFor_of_wellFoundedLT (fun _ : ι => True) (fun j => phase (items j)) ⟨i, trivial⟩
  have hm : ∀ j, phase (items m) ≤ phase (items j) := fun j => (le_total _ _).elim id fun h => hmin trivial h
  by_cases hw : ∃ j, phase (items j) = phase (items m) ∧ waits (items j) = false
  · obtain ⟨j, hj, hw⟩ := hw
    exact ⟨j, by rw [hj]; exact hm i, Or.inl hw⟩
  · -- all who are last wait
    refine ⟨m, hm i, Or.inr fun j => ?_⟩
    rcases (hm j).lt_or_eq with h | h
    · exact Or.inl h
    · refine Or.inr ⟨h.symm, ?_⟩
      by_contra hf
      exact hw ⟨j, h.symm, by simpa using hf⟩

end Hodgepodge.Core.Barrier
