/-
A set that keeps its elements sorted by a strict order and knows them by that order only: two elements are the same when
neither is before the other. Where the order is total, that is equality and the set is a set.

- `SortedSet`: the sorted elements.
- `find_iff`, `mem_insert`: what `find` answers and what `insert` adds.
-/
import Mathlib.Order.Defs.Unbundled
import Mathlib.Tactic.Common

namespace Hodgepodge.Core

variable {α : Type*} (lt : α → α → Prop) [DecidableRel lt]

/-- insert `x` before the first element behind it, unless an equivalent one is there -/
def insertSorted (x : α) : List α → List α
  | [] => [x]
  | y :: ys => if lt x y then x :: y :: ys else if lt y x then y :: insertSorted x ys else y :: ys

structure SortedSet where
  elems : List α
  sorted : elems.Pairwise lt

variable {lt} {x y : α}

theorem of_mem_insertSorted {l : List α} (h : y ∈ insertSorted lt x l) : y = x ∨ y ∈ l := by
  induction l with
  | nil => exact Or.inl (List.mem_singleton.1 h)
  | cons z l ih =>
    unfold insertSorted at h
    split_ifs at h with hxz hzx
    · exact List.mem_cons.1 h
    · rcases List.mem_cons.1 h with rfl | h
      · exact Or.inr List.mem_cons_self
      · exact (ih h).imp_right (List.mem_cons_of_mem z)
    · exact Or.inr h

theorem sorted_insertSorted [IsTrans α lt] {l : List α} (h : l.Pairwise lt) : (insertSorted lt x l).Pairwise lt := by
  induction l with
  | nil => exact List.pairwise_singleton _ _
  | cons z l ih =>
    obtain ⟨hz, hl⟩ := List.pairwise_cons.1 h
    unfold insertSorted
    split_ifs with hxz hzx
    · refine List.pairwise_cons.2 ⟨fun y hy => ?_, h⟩
      rcases List.mem_cons.1 hy with rfl | hy
      · exact hxz
      · exact IsTrans.trans _ _ _ hxz (hz y hy)
    · refine List.pairwise_cons.2 ⟨fun y hy => ?_, ih hl⟩
      rcases of_mem_insertSorted hy with rfl | hy
      · exact hzx
      · exact hz y hy
    · exact h

theorem mem_insertSorted [Std.Trichotomous lt] {l : List α} : y ∈ insertSorted lt x l ↔ y = x ∨ y ∈ l := by
  refine ⟨of_mem_insertSorted, fun h => ?_⟩
  induction l with
  | nil => simpa [insertSorted] using h
  | cons z l ih =>
    unfold insertSorted
    split_ifs with hxz hzx
    · exact List.mem_cons.2 h
    · grind
    · -- an equivalent element is `x` itself
      obtain rfl : x = z := trichotomous_def.1 ‹_› hxz hzx
      grind

namespace SortedSet

def empty (lt : α → α → Prop) : SortedSet lt := ⟨[], List.Pairwise.nil⟩

def find (s : SortedSet lt) (x : α) : Bool := s.elems.any fun y => ¬ lt x y ∧ ¬ lt y x

def insert [IsTrans α lt] (s : SortedSet lt) (x : α) : SortedSet lt :=
  ⟨insertSorted lt x s.elems, sorted_insertSorted s.sorted⟩

instance : Membership α (SortedSet lt) := ⟨fun s x => x ∈ s.elems⟩

omit [DecidableRel lt] in
@[simp] theorem not_mem_empty : x ∉ empty lt := List.not_mem_nil

@[simp] theorem mem_insert [IsStrictTotalOrder α lt] {s : SortedSet lt} : y ∈ s.insert x ↔ y = x ∨ y ∈ s :=
  mem_insertSorted

@[simp] theorem find_iff [IsStrictTotalOrder α lt] {s : SortedSet lt} : s.find x = true ↔ x ∈ s := by
  simp only [find, List.any_eq_true, decide_eq_true_eq]
  constructor
  · rintro ⟨y, hy, hxy, hyx⟩
    exact trichotomous_def.1 inferInstance hxy hyx ▸ hy
  · intro hx
    exact ⟨x, hx, irrefl x, irrefl x⟩

end SortedSet

end Hodgepodge.Core
