/-
A first-in first-out queue whose takers filter: a take with filter `f` removes the oldest element that `f` accepts. The
sequential object behind a blocking queue, as the histories it allows.

- `Legal.perm`: puts are takes plus what is left.
- `Legal.sublist`: what is left stands in put order.
- `Legal.taken_in_order`: what a taker that always uses the same filter received stands in put order.
- `Legal.drained`: elements that `p` accepts and that are not left were taken, each once.
-/
import Mathlib.Algebra.BigOperators.Group.Finset.Piecewise
import Mathlib.Data.List.Perm.Basic
import Mathlib.Tactic.Common

namespace Hodgepodge.Core.FilterFifo

open List

variable {ι α : Type*}

inductive Ev (ι α : Type*) where
  | put (x : α)
  | take (t : ι) (f : α → Bool) (x : α)

/-- after the history `h` from the empty queue, the queue holds `q` -/
inductive Legal : List (Ev ι α) → List α → Prop
  | nil : Legal [] []
  | put {h q} (hl : Legal h q) (x : α) : Legal (h ++ [.put x]) (q ++ [x])
  | take {h q f x} (hl : Legal h q) (t : ι) (hx : q.find? f = some x) : Legal (h ++ [.take t f x]) (q.eraseP f)

def Ev.putVal : Ev ι α → Option α
  | .put x => some x
  | .take .. => none

def Ev.takeVal : Ev ι α → Option α
  | .put _ => none
  | .take _ _ x => some x

def Ev.takeValBy [DecidableEq ι] (t : ι) : Ev ι α → Option α
  | .put _ => none
  | .take u _ x => if u = t then some x else none

def puts (h : List (Ev ι α)) : List α := h.filterMap Ev.putVal

def takes (h : List (Ev ι α)) : List α := h.filterMap Ev.takeVal

/-- what taker `t` received -/
def takesBy [DecidableEq ι] (t : ι) (h : List (Ev ι α)) : List α := h.filterMap (Ev.takeValBy t)

@[simp] theorem puts_put (h : List (Ev ι α)) (x : α) : puts (h ++ [.put x]) = puts h ++ [x] := by
  simp [puts, List.filterMap_append, Ev.putVal]

@[simp] theorem puts_take (h : List (Ev ι α)) (t : ι) (f : α → Bool) (x : α) :
    puts (h ++ [.take t f x]) = puts h := by
  simp [puts, List.filterMap_append, List.filterMap_cons, Ev.putVal]

@[simp] theorem takes_put (h : List (Ev ι α)) (x : α) : takes (h ++ [.put x]) = takes h := by
  simp [takes, List.filterMap_append, List.filterMap_cons, Ev.takeVal]

@[simp] theorem takes_take (h : List (Ev ι α)) (t : ι) (f : α → Bool) (x : α) :
    takes (h ++ [.take t f x]) = takes h ++ [x] := by
  simp [takes, List.filterMap_append, Ev.takeVal]

@[simp] theorem takesBy_put [DecidableEq ι] (t : ι) (h : List (Ev ι α)) (x : α) :
    takesBy t (h ++ [.put x]) = takesBy t h := by
  simp [takesBy, List.filterMap_append, List.filterMap_cons, Ev.takeValBy]

@[simp] theorem takesBy_take [DecidableEq ι] (t u : ι) (h : List (Ev ι α)) (f : α → Bool) (x : α) :
    takesBy t (h ++ [.take u f x]) = takesBy t h ++ if u = t then [x] else [] := by
  by_cases hu : u = t <;> simp [takesBy, List.filterMap_append, Ev.takeValBy, hu]

/-- the oldest accepted element stands behind rejected ones; taking it leaves the others -/
theorem find_split {q : List α} {f : α → Bool} {x : α} (hx : q.find? f = some x) :
    ∃ as bs, q = as ++ x :: bs ∧ (∀ a ∈ as, f a = false) ∧ f x = true ∧ q.eraseP f = as ++ bs := by
  obtain ⟨hfx, as, bs, rfl, has⟩ := List.find?_eq_some_iff_append.1 hx
  have has' : ∀ a ∈ as, f a = false := fun a ha => by simpa using has a ha
  refine ⟨as, bs, rfl, has', hfx, ?_⟩
  rw [List.eraseP_append_right _ (fun b hb => by simp [has' b hb]), List.eraseP_cons_of_pos hfx]

theorem filter_of_find {q : List α} {f : α → Bool} {x : α} (hx : q.find? f = some x) :
    q.filter f = x :: (q.eraseP f).filter f := by
  obtain ⟨as, bs, rfl, has, hfx, he⟩ := find_split hx
  have h0 : as.filter f = [] := List.filter_eq_nil_iff.2 (fun a ha => by simp [has a ha])
  rw [he, List.filter_append, List.filter_append, h0, List.filter_cons_of_pos hfx]
  rfl

theorem perm_of_find {q : List α} {f : α → Bool} {x : α} (hx : q.find? f = some x) : q ~ x :: q.eraseP f := by
  obtain ⟨as, bs, rfl, -, -, he⟩ := find_split hx
  rw [he]
  exact List.perm_middle

theorem Legal.perm {h : List (Ev ι α)} {q : List α} (hl : Legal h q) : puts h ~ takes h ++ q := by
  induction hl with
  | nil => exact Perm.refl _
  | put _ x ih => simpa using ih.append_right [x]
  | @take h q f x _ t hx ih =>
    have hq : takes h ++ q ~ takes h ++ x :: q.eraseP f := (perm_of_find hx).append_left _
    simpa using ih.trans hq

theorem Legal.sublist {h : List (Ev ι α)} {q : List α} (hl : Legal h q) : q <+ puts h := by
  induction hl with
  | nil => exact List.Sublist.refl _
  | put _ x ih => simpa using ih.append (List.Sublist.refl [x])
  | take _ t _ ih => simpa using List.eraseP_sublist.trans ih

/-- what `t` received, followed by what is left for its filter, stands in put order -/
theorem Legal.taken_then_left [DecidableEq ι] {h : List (Ev ι α)} {q : List α} {t : ι} {f : α → Bool}
    (hl : Legal h q) (hf : ∀ g x, Ev.take t g x ∈ h → g = f) : takesBy t h ++ q.filter f <+ puts h := by
  induction hl with
  | nil => exact List.Sublist.refl _
  | put _ x ih =>
    have ih := ih fun g y hg => hf g y (List.mem_append_left _ hg)
    rw [takesBy_put, puts_put, List.filter_append, ← List.append_assoc]
    exact ih.append List.filter_sublist
  | @take h q g x _ u hx ih =>
    have ih := ih fun g' y hg => hf g' y (List.mem_append_left _ hg)
    by_cases hu : u = t
    · subst hu
      obtain rfl : g = f := hf g x (by simp)
      simpa [filter_of_find hx] using ih
    · have hsub : takesBy t h ++ (q.eraseP g).filter f <+ takesBy t h ++ q.filter f :=
        (List.Sublist.refl _).append (List.eraseP_sublist.filter f)
      simpa [hu] using hsub.trans ih

theorem Legal.taken_in_order [DecidableEq ι] {h : List (Ev ι α)} {q : List α} {t : ι} {f : α → Bool}
    (hl : Legal h q) (hf : ∀ g x, Ev.take t g x ∈ h → g = f) : takesBy t h <+ puts h :=
  (List.sublist_append_left _ _).trans (hl.taken_then_left hf)

theorem Legal.drained {h : List (Ev ι α)} {q : List α} {p : α → Bool} (hl : Legal h q)
    (hq : ∀ x ∈ q, p x = false) : (puts h).filter p ~ (takes h).filter p := by
  have hnil : q.filter p = [] := List.filter_eq_nil_iff.2 (fun x hx => by simp [hq x hx])
  have hp := hl.perm.filter p
  rwa [List.filter_append, hnil, List.append_nil] at hp

/-- if all takers are among `T`, their shares add up -/
theorem sum_takesBy [DecidableEq ι] (T : Finset ι) {h : List (Ev ι α)}
    (hT : ∀ t g x, Ev.take t g x ∈ h → t ∈ T) : ∑ t ∈ T, (takesBy t h).length = (takes h).length := by
  induction h using List.reverseRecOn with
  | nil => simp [takesBy, takes]
  | append_singleton h e ih =>
    have ih := ih fun t g x hm => hT t g x (List.mem_append_left _ hm)
    cases e with
    | put x => simpa using ih
    | take u g x =>
      have hu : u ∈ T := hT u g x (by simp)
      have hlen : ∀ t, (takesBy t (h ++ [.take u g x])).length = (takesBy t h).length + if u = t then 1 else 0 := by
        intro t
        by_cases ht : u = t <;> simp [ht]
      simp only [hlen, Finset.sum_add_distrib, Finset.sum_ite_eq, hu, if_true, ih, takes_take, List.length_append,
        List.length_singleton]

end Hodgepodge.Core.FilterFifo
