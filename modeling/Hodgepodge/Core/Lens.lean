/-
Lenses. A lens is a place in the values of a type that can be read and replaced, with nothing else in the value changed
by it. A reference that is taken to a member of a member is the composition of two lenses.

- `Lens.comp`, `Lens.component`: a place in a place, and a component of a dependent function.
- `Keeps`: what a change of the value leaves at a place; `Apart`: two places that can be replaced without the other.
- `keeps_foldl`: changes that all keep a place.
- `get_foldl_of_last`: a place has the value of the last change that set it.
-/
import Mathlib.Logic.Function.Basic

namespace Hodgepodge.Core

open Function

/-- a place of type `A` in the values of type `S` -/
structure Lens (S A : Type*) where
  get : S → A
  set : S → A → S
  get_set : ∀ s a, get (set s a) = a
  set_get : ∀ s, set s (get s) = s
  set_set : ∀ s a b, set (set s a) b = set s b

namespace Lens

variable {S A B C O : Type*}

/-- a place in the place `l` -/
def comp (l : Lens S A) (m : Lens A B) : Lens S B where
  get s := m.get (l.get s)
  set s b := l.set s (m.set (l.get s) b)
  get_set s b := by rw [l.get_set, m.get_set]
  set_get s := by rw [m.set_get, l.set_get]
  set_set s a b := by rw [l.get_set, l.set_set, m.set_set]

/-- the component `i` -/
def component {ι : Type*} [DecidableEq ι] {F : ι → Type*} (i : ι) : Lens (∀ i, F i) (F i) where
  get f := f i
  set f a := update f i a
  get_set f a := update_self i a f
  set_get f := update_eq_self i f
  set_set f a b := update_idem a b f

/-! ## What is left -/

/-- the change `g` leaves the place as it is -/
def Keeps (l : Lens S A) (g : S → S) : Prop := ∀ s, l.get (g s) = l.get s

/-- replacing the place `m` leaves `l` as it is -/
def Apart (l : Lens S A) (m : Lens S B) : Prop := ∀ b, l.Keeps fun s => m.set s b

variable {l : Lens S A} {m : Lens S B}

theorem component_apart {ι : Type*} [DecidableEq ι] {F : ι → Type*} {i j : ι} (h : i ≠ j) :
    (Lens.component (F := F) i).Apart (Lens.component j) := fun a f => update_of_ne h a f

/-- places in two places that are apart -/
theorem Apart.comp {D : Type*} (h : l.Apart m) (l' : Lens A C) (m' : Lens B D) : (l.comp l').Apart (m.comp m') :=
  fun d s => congrArg l'.get (h (m'.set (m.get s) d) s)

/-- places apart in one place -/
theorem Apart.comp_left {l' : Lens A B} {m' : Lens A C} (h : l'.Apart m') (l : Lens S A) :
    (l.comp l').Apart (l.comp m') := by
  intro c s
  change l'.get (l.get (l.set s (m'.set (l.get s) c))) = l'.get (l.get s)
  rw [l.get_set]
  exact h c (l.get s)

/-! ## Sequences of changes -/

/-- changes that all leave the place as it is -/
theorem keeps_foldl {op : S → O → S} {ops : List O} (h : ∀ o ∈ ops, l.Keeps fun s => op s o) :
    l.Keeps fun s => ops.foldl op s := by
  induction ops with
  | nil => exact fun s => rfl
  | cons o ops ih =>
    intro s
    calc l.get ((o :: ops).foldl op s) = l.get (op s o) := ih (fun o' ho' => h o' (List.mem_cons_of_mem o ho')) (op s o)
      _ = l.get s := h o List.mem_cons_self s

/-- **The last write.** A place has the value that the last change of it gave it. -/
theorem get_foldl_of_last {op : S → O → S} {pre post : List O} {o : O} {a : A} (hset : ∀ s, l.get (op s o) = a)
    (hpost : ∀ o' ∈ post, l.Keeps fun s => op s o') (s : S) : l.get ((pre ++ o :: post).foldl op s) = a := by
  rw [List.foldl_append, List.foldl_cons]
  exact (keeps_foldl hpost _).trans (hset _)

end Lens

end Hodgepodge.Core
