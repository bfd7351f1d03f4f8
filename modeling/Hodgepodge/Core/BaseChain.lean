/-
Words that move points to different places. Every letter moves the points of a type, injectively; a word applies its
letters from the last to the first. A chain gives points and a word for each: the powers of a word take its point to
different places, and the words behind it leave that point where it is. What the powers of all words make of the points
is then different for different exponents, so a short chain shows that many states can be reached.

- `words`, `length_words`, `length_le`: the words of a chain, how many there are and how long they are.
- `words_distinct`: no two of them move all points alike.
-/
import Mathlib.Algebra.BigOperators.Group.List.Basic
import Mathlib.Algebra.Order.BigOperators.Group.List
import Mathlib.Data.List.Iterate
import Mathlib.Data.List.Nodup
import Mathlib.Logic.Function.Iterate

namespace Hodgepodge.Core.BaseChain

variable {O X : Type*} (act : O → X → X)

/-- where a word takes a point -/
def apply (word : List O) (x : X) : X := word.foldr act x

/-- a point, and a word that takes it to `count` places one after the other -/
structure Stage (O X : Type*) where
  base : X
  word : List O
  count : ℕ

/-- every word taken fewer than `count` times, in the order of the chain -/
def words : List (Stage O X) → List (List O)
  | [] => [[]]
  | g :: chain => (List.range g.count).flatMap fun n =>
      (words chain).map fun w => (List.replicate n g.word).flatten ++ w

/-- the powers of a word take its point to different places, and the words behind it leave the point alone -/
def Apart : List (Stage O X) → Prop
  | [] => True
  | g :: chain => (List.iterate (apply act g.word) g.base g.count).Nodup ∧
      (∀ h ∈ chain, apply act h.word g.base = g.base) ∧ Apart chain

instance decidableApart [DecidableEq X] : ∀ chain : List (Stage O X), Decidable (Apart act chain)
  | [] => isTrue trivial
  | _ :: chain => haveI := decidableApart chain; inferInstanceAs (Decidable (_ ∧ _ ∧ _))

/-- the length of the longest word -/
def reach : List (Stage O X) → ℕ
  | [] => 0
  | g :: chain => (g.count - 1) * g.word.length + reach chain

variable {act} {chain : List (Stage O X)} {w : List O}

theorem apply_append (u v : List O) (x : X) : apply act (u ++ v) x = apply act u (apply act v x) := List.foldr_append

theorem apply_power (word : List O) (n : ℕ) (x : X) :
    apply act (List.replicate n word).flatten x = (apply act word)^[n] x := by
  induction n with
  | zero => rfl
  | succ n ih =>
    rw [List.replicate_succ, List.flatten_cons, apply_append, ih]
    exact (Function.iterate_succ_apply' _ n x).symm

theorem apply_injective (hact : ∀ o, Function.Injective (act o)) (word : List O) :
    Function.Injective (apply act word) := by
  induction word with
  | nil => exact Function.injective_id
  | cons o word ih => exact (hact o).comp ih

theorem length_words (chain : List (Stage O X)) : (words chain).length = (chain.map Stage.count).prod := by
  induction chain with
  | nil => rfl
  | cons g chain ih => simp [words, ih]

theorem length_le (hw : w ∈ words chain) : w.length ≤ reach chain := by
  induction chain generalizing w with
  | nil =>
    obtain rfl := List.mem_singleton.1 hw
    exact Nat.le_refl 0
  | cons g chain ih =>
    simp only [words, List.mem_flatMap, List.mem_range, List.mem_map] at hw
    obtain ⟨n, hn, v, hv, rfl⟩ := hw
    have hpower : n * g.word.length ≤ (g.count - 1) * g.word.length := Nat.mul_le_mul_right _ (by omega)
    have hrest := ih hv
    simp only [List.length_append, List.length_flatten, List.map_replicate, List.sum_replicate_nat, reach]
    exact Nat.add_le_add hpower hrest

/-- the words behind a stage leave its point alone -/
theorem apply_fixed {x : X} (hx : ∀ h ∈ chain, apply act h.word x = x) (hw : w ∈ words chain) : apply act w x = x := by
  induction chain generalizing w with
  | nil =>
    obtain rfl := List.mem_singleton.1 hw
    rfl
  | cons g chain ih =>
    simp only [words, List.mem_flatMap, List.mem_range, List.mem_map] at hw
    obtain ⟨n, -, v, hv, rfl⟩ := hw
    rw [apply_append, ih (fun h hh => hx h (List.mem_cons_of_mem g hh)) hv, apply_power,
      Function.iterate_fixed (hx g List.mem_cons_self)]

/-- **Different exponents.** No two words of a chain move all points alike. -/
theorem words_distinct (hact : ∀ o, Function.Injective (act o)) (h : Apart act chain) :
    ((words chain).map (apply act)).Nodup := by
  induction chain with
  | nil => exact List.nodup_singleton _
  | cons g chain ih =>
    obtain ⟨hpowers, hfixed, hchain⟩ := h
    rw [← List.range_map_iterate] at hpowers
    rw [words, List.map_flatMap, List.nodup_flatMap]
    constructor
    · -- the same power: what follows it is different
      intro n _
      have hcomp : (apply act ∘ fun w => (List.replicate n g.word).flatten ++ w) =
          (fun f => apply act (List.replicate n g.word).flatten ∘ f) ∘ apply act := by
        funext w x
        exact apply_append _ _ _
      rw [List.map_map, hcomp, ← List.map_map]
      exact (ih hchain).map (apply_injective hact _).comp_left
    · -- different powers: the point of the stage tells
      refine (List.pairwise_map.1 hpowers).imp ?_
      intro n m hne f hf hf'
      simp only [List.map_map, List.mem_map, Function.comp_apply] at hf hf'
      obtain ⟨v, hv, rfl⟩ := hf
      obtain ⟨v', hv', he⟩ := hf'
      have hbase := congrFun he g.base
      rw [apply_append, apply_append, apply_fixed hfixed hv, apply_fixed hfixed hv', apply_power, apply_power] at hbase
      exact hne hbase.symm

end Hodgepodge.Core.BaseChain
