/-
The search of tcube.cpp's main: breadth first, from the solved cube, by the six turns. `node_act[actid]` holds the cubes
of one depth, the other buffer takes those of the next; `node_fixed` is a `std::set`, ordered by `memcmp`.

A cube goes into `node_fixed` when it is derived, so before its own turn; only the root goes in when it is expanded.
The counters `k` and `depth` are `int`s: a depth of 2^31 cubes or more has no defined end.

Results:
- `opLt_total`: `operator<` is a strict total order, so the set finds a cube iff it holds that very cube.
- `Grown`, `grown_derive`, `grown_expand`: what the loops over the turns and over the cubes of a depth add.
- `iteration_eq`: an iteration has a result as long as its counters fit.
- `Frontier`, `after_spec`: the cubes of one depth, and what an iteration makes of them.
- `search_exact`: as long as the counters fit, the levels in order, each cube once, and the reachable cubes at the end.
-/
import Mathlib.Algebra.Group.Int.Defs
import Mathlib.Data.Finite.Prod
import Mathlib.Data.List.Lex
import Mathlib.Data.List.Nodup
import Mathlib.Data.List.OfFn
import Mathlib.Data.Set.Card
import Hodgepodge.Core.Checked
import Hodgepodge.Core.Levels
import Hodgepodge.Core.SortedSet
import Hodgepodge.Cube.Cube

namespace Hodgepodge.Cube

open Hodgepodge.Core Hodgepodge.Core.Checked

/-! ## The order of the cubes -/

/-- the difference of the first bytes that differ -/
def memcmp : List UInt8 → List UInt8 → ℤ
  | a :: as, b :: bs => if a = b then memcmp as bs else (a.toNat : ℤ) - b.toNat
  | _, _ => 0

/-- `operator==` -/
def opEq (a b : Cells UInt8) : Prop := memcmp (List.ofFn a) (List.ofFn b) = 0

/-- `operator<` -/
def opLt (a b : Cells UInt8) : Prop := memcmp (List.ofFn a) (List.ofFn b) < 0

instance : DecidableRel opEq := fun a b => inferInstanceAs (Decidable (memcmp (List.ofFn a) (List.ofFn b) = 0))

instance : DecidableRel opLt := fun a b => inferInstanceAs (Decidable (memcmp (List.ofFn a) (List.ofFn b) < 0))

theorem memcmp_eq_zero {as bs : List UInt8} (h : as.length = bs.length) : memcmp as bs = 0 ↔ as = bs := by
  induction as generalizing bs with
  | nil => simp [memcmp, (List.length_eq_zero_iff.1 h.symm)]
  | cons a as ih =>
    cases bs with
    | nil => exact absurd h (Nat.succ_ne_zero _)
    | cons b bs =>
      unfold memcmp
      split_ifs with hab
      · rw [ih (Nat.succ.inj h), hab]
        simp
      · have hne : a.toNat ≠ b.toNat := fun he => hab (UInt8.toNat_inj.1 he)
        simp only [List.cons.injEq, hab, false_and, iff_false]
        omega

theorem memcmp_lt_zero {as bs : List UInt8} (h : as.length = bs.length) :
    memcmp as bs < 0 ↔ as.map UInt8.toNat < bs.map UInt8.toNat := by
  induction as generalizing bs with
  | nil => simp [memcmp, (List.length_eq_zero_iff.1 h.symm)]
  | cons a as ih =>
    cases bs with
    | nil => exact absurd h (Nat.succ_ne_zero _)
    | cons b bs =>
      unfold memcmp
      rw [List.map_cons, List.map_cons, List.cons_lt_cons_iff]
      split_ifs with hab
      · rw [ih (Nat.succ.inj h), hab]
        simp
      · have hne : a.toNat ≠ b.toNat := fun he => hab (UInt8.toNat_inj.1 he)
        simp only [hne, false_and, or_false]
        omega

/-- equal bytes make equal cubes -/
theorem opEq_iff {a b : Cells UInt8} : opEq a b ↔ a = b := by
  rw [opEq, memcmp_eq_zero (by simp)]
  exact List.ofFn_injective.eq_iff

/-- **`operator<` is a strict total order.** -/
instance opLt_total : IsStrictTotalOrder (Cells UInt8) opLt := by
  have hinj : Function.Injective fun a : Cells UInt8 => (List.ofFn a).map UInt8.toNat := by
    intro a b h
    exact List.ofFn_injective (List.map_injective_iff.2 (fun _ _ => UInt8.toNat_inj.1) h)
  have hlt : opLt = Function.onFun (· < ·) fun a : Cells UInt8 => (List.ofFn a).map UInt8.toNat := by
    funext a b
    exact propext (memcmp_lt_zero (by simp))
  rw [hlt]
  exact hinj.isStrictTotalOrder_onFun (r := (· < ·))

/-! ## The search -/

abbrev CubeSet := SortedSet opLt

structure Search where
  nodeFixed : CubeSet
  nodeAct : Fin 2 → List (Cells UInt8)
  actid : Fin 2
  depth : ℕ

/-- the cubes of the depth, `na_cur` -/
def Search.cur (s : Search) : List (Cells UInt8) := s.nodeAct s.actid

/-- one turn of `c`, on `node_fixed` and `na_next` -/
def derive (c : Cells UInt8) (acc : CubeSet × List (Cells UInt8)) (i : Fin 6) : CubeSet × List (Cells UInt8) :=
  let n := rotateFace initPeerOff i c
  if acc.1.find n then acc else (acc.1.insert n, acc.2 ++ [n])

/-- the body of the loop over `na_cur` -/
def expand (acc : CubeSet × List (Cells UInt8)) (c : Cells UInt8) : CubeSet × List (Cells UInt8) :=
  (List.finRange 6).foldl (derive c) (acc.1.insert c, acc.2)

/-- the loop over `na_cur`, which `k` counts -/
def expandAll (k : ℕ) (acc : CubeSet × List (Cells UInt8)) :
    List (Cells UInt8) → Option (CubeSet × List (Cells UInt8))
  | [] => some acc
  | c :: cs => (intNat (k + 1)).bind fun k => expandAll k (expand acc c) cs

/-- the body of the while loop; `rev` is `1 - actid`, the other of the two -/
def iteration (s : Search) : Option Search :=
  let nodeAct := Function.update s.nodeAct s.actid.rev []
  (expandAll 0 (s.nodeFixed, nodeAct s.actid.rev) (nodeAct s.actid)).bind fun acc =>
    (intNat (s.depth + 1)).map fun depth =>
      { nodeFixed := acc.1
        nodeAct := Function.update nodeAct s.actid.rev acc.2
        actid := s.actid.rev
        depth := depth }

def start (root : Cells UInt8) : Search where
  nodeFixed := SortedSet.empty opLt
  nodeAct := Function.update (fun _ => []) ⟨0, Nat.zero_lt_two⟩ [root]
  actid := ⟨0, Nat.zero_lt_two⟩
  depth := 0

/-- the state after `n` iterations of the while loop, or after its last one -/
def search (root : Cells UInt8) : ℕ → Option Search
  | 0 => some (start root)
  | n + 1 => (search root n).bind fun s => if s.cur = [] then some s else iteration s

/-- the cubes that the first `n` iterations expand, in order -/
def expanded (root : Cells UInt8) (n : ℕ) : List (Cells UInt8) :=
  (List.range n).flatMap fun d => (search root d).elim [] Search.cur

/-- the cubes and their turns -/
def turns (root : Cells UInt8) : Lts (Cells UInt8) (Fin 6) where
  init := root
  step c i := some (rotateFace initPeerOff i c)

/-! ## The two inner loops -/

/-- `acc'` is `acc` with the cubes of `X`; those that were not known are in `na_next` too, once -/
structure Grown (acc acc' : CubeSet × List (Cells UInt8)) (X : Cells UInt8 → Prop) : Prop where
  fixed : ∀ x, x ∈ acc'.1 ↔ x ∈ acc.1 ∨ X x
  next : ∀ x, x ∈ acc'.2 ↔ x ∈ acc.2 ∨ x ∉ acc.1 ∧ X x
  nodup : acc.2.Nodup → (∀ x ∈ acc.2, x ∈ acc.1) → acc'.2.Nodup

variable {acc acc' acc'' : CubeSet × List (Cells UInt8)} {X Y : Cells UInt8 → Prop} {c root : Cells UInt8} {n d : ℕ}

theorem Grown.refl (acc : CubeSet × List (Cells UInt8)) : Grown acc acc fun _ => False :=
  ⟨by simp, by simp, fun h _ => h⟩

theorem Grown.trans (h : Grown acc acc' X) (h' : Grown acc' acc'' Y) : Grown acc acc'' fun x => X x ∨ Y x := by
  refine ⟨fun x => ?_, fun x => ?_, fun hn hs => h'.nodup (h.nodup hn hs) fun x hx => ?_⟩
  · rw [h'.fixed, h.fixed, or_assoc]
  · rw [h'.next, h.next, h.fixed]
    tauto
  · rw [h.fixed]
    rcases (h.next x).1 hx with hx | ⟨-, hx⟩
    · exact Or.inl (hs x hx)
    · exact Or.inr hx

theorem grown_derive (c : Cells UInt8) (acc : CubeSet × List (Cells UInt8)) (i : Fin 6) :
    Grown acc (derive c acc i) fun x => x = rotateFace initPeerOff i c := by
  set n := rotateFace initPeerOff i c
  by_cases hn : n ∈ acc.1
  · rw [show derive c acc i = acc from if_pos (SortedSet.find_iff.2 hn)]
    refine ⟨fun x => ?_, fun x => ?_, fun h _ => h⟩
    · exact ⟨Or.inl, fun h => h.elim id fun hx => hx ▸ hn⟩
    · exact ⟨Or.inl, fun h => h.elim id fun hx => absurd (hx.2 ▸ hn) hx.1⟩
  · rw [show derive c acc i = (acc.1.insert n, acc.2 ++ [n]) from if_neg (mt SortedSet.find_iff.1 hn)]
    refine ⟨fun x => ?_, fun x => ?_, fun h hs => ?_⟩
    · rw [SortedSet.mem_insert, or_comm]
    · rw [List.mem_append, List.mem_singleton]
      exact or_congr_right ⟨fun hx => ⟨hx ▸ hn, hx⟩, fun hx => hx.2⟩
    · refine List.nodup_append.2 ⟨h, List.nodup_singleton n, fun x hx y hy => ?_⟩
      rw [List.mem_singleton.1 hy]
      exact fun hxn => hn (hxn ▸ hs x hx)

/-- the six turns of a cube -/
theorem grown_turns (c : Cells UInt8) (is : List (Fin 6)) (acc : CubeSet × List (Cells UInt8)) :
    Grown acc (is.foldl (derive c) acc) fun x => ∃ i ∈ is, x = rotateFace initPeerOff i c := by
  induction is generalizing acc with
  | nil => simpa using Grown.refl acc
  | cons i is ih => simpa using (grown_derive c acc i).trans (ih _)

theorem grown_expand (acc : CubeSet × List (Cells UInt8)) (c : Cells UInt8) :
    Grown (acc.1.insert c, acc.2) (expand acc c) fun x => ∃ i, x = rotateFace initPeerOff i c := by
  simpa [expand] using grown_turns c (List.finRange 6) (acc.1.insert c, acc.2)

/-- the cubes of a depth that are all in the set -/
theorem grown_expands (cs : List (Cells UInt8)) (acc : CubeSet × List (Cells UInt8)) (h : ∀ c ∈ cs, c ∈ acc.1) :
    Grown acc (cs.foldl expand acc) fun x => ∃ c ∈ cs, ∃ i, x = rotateFace initPeerOff i c := by
  induction cs generalizing acc with
  | nil => simpa using Grown.refl acc
  | cons c cs ih =>
    have h1 : Grown acc (expand acc c) fun x => ∃ i, x = rotateFace initPeerOff i c := by
      have hins : ∀ x, x ∈ acc.1.insert c ↔ x ∈ acc.1 := fun x => by
        simpa using fun hx : x = c => hx ▸ h c List.mem_cons_self
      have hg := grown_expand acc c
      exact ⟨fun x => by rw [hg.fixed, hins], fun x => by rw [hg.next, hins],
        fun hn hs => hg.nodup hn fun x hx => (hins x).2 (hs x hx)⟩
    have h2 := ih (expand acc c) fun x hx => (h1.fixed x).2 (Or.inl (h x (List.mem_cons_of_mem c hx)))
    simpa using h1.trans h2

/-! ## The while loop -/

/-- an iteration whose counters fit -/
def after (s : Search) : Search where
  nodeFixed := (s.cur.foldl expand (s.nodeFixed, [])).1
  nodeAct := Function.update (Function.update s.nodeAct s.actid.rev []) s.actid.rev
    (s.cur.foldl expand (s.nodeFixed, [])).2
  actid := s.actid.rev
  depth := s.depth + 1

/-- the counters of the iteration of depth `d` fit an `int` -/
def Counts (root : Cells UInt8) (d : ℕ) : Prop :=
  { c | (turns root).Level d c }.ncard < 2147483648 ∧ d + 1 < 2147483648

theorem expandAll_eq {k : ℕ} (hk : k < 2147483648) (acc : CubeSet × List (Cells UInt8)) (cs : List (Cells UInt8)) :
    expandAll k acc cs = if k + cs.length < 2147483648 then some (cs.foldl expand acc) else none := by
  induction cs generalizing k acc with
  | nil => exact (if_pos hk).symm
  | cons c cs ih =>
    rw [expandAll, intNat, List.foldl_cons, List.length_cons]
    by_cases hlt : k + 1 < 2147483648
    · have hsum : k + 1 + cs.length = k + (cs.length + 1) := by omega
      rw [if_pos hlt, Option.bind_some, ih hlt, hsum]
    · rw [if_neg hlt, Option.bind_none, if_neg (by omega)]

theorem iteration_eq (s : Search) :
    iteration s = if s.cur.length < 2147483648 ∧ s.depth + 1 < 2147483648 then some (after s) else none := by
  have hne : s.actid ≠ s.actid.rev := by
    generalize s.actid = a
    revert a
    decide
  have hcur : Function.update s.nodeAct s.actid.rev [] s.actid = s.cur := Function.update_of_ne hne _ _
  rw [iteration, hcur, Function.update_self, expandAll_eq (by decide), Nat.zero_add, intNat]
  by_cases hk : s.cur.length < 2147483648
  · by_cases hd : s.depth + 1 < 2147483648
    · rw [if_pos hk, Option.bind_some, if_pos hd, if_pos ⟨hk, hd⟩]
      rfl
    · rw [if_pos hk, Option.bind_some, if_neg hd, if_neg fun h => hd h.2]
      rfl
  · simp only [hk, if_false, false_and, Option.bind_none]

theorem after_cur (s : Search) : (after s).cur = (s.cur.foldl expand (s.nodeFixed, [])).2 := Function.update_self ..

/-- the state between two iterations: the next to come is that of depth `d`; before the first one the root is not in
the set yet -/
structure Frontier (root : Cells UInt8) (d : ℕ) (s : Search) : Prop where
  depth : s.depth = d
  nodup : s.cur.Nodup
  cur : ∀ c, c ∈ s.cur ↔ (turns root).Level d c
  fixed : ∀ c, c ∈ s.nodeFixed ∨ s.cur.head? = some c ↔ (turns root).Within d c

theorem frontier_start (root : Cells UInt8) : Frontier root 0 (start root) := by
  have hcur : (start root).cur = [root] := rfl
  refine ⟨rfl, ?_, fun c => ?_, fun c => ?_⟩
  · rw [hcur]
    exact List.nodup_singleton root
  · rw [hcur, Lts.level_zero]
    exact List.mem_singleton
  · rw [hcur, Lts.within_zero]
    simp [start, turns, eq_comm]

theorem Frontier.ncard {s : Search} (h : Frontier root d s) : { c | (turns root).Level d c }.ncard = s.cur.length := by
  have hset : { c | (turns root).Level d c } = (s.cur.toFinset : Set (Cells UInt8)) := by
    ext c
    simp [h.cur]
  rw [hset, Set.ncard_coe_finset, List.toFinset_card_of_nodup h.nodup]

theorem Frontier.eq_after {s : Search} (h : Frontier root d s) [Decidable (Counts root d)] :
    iteration s = if Counts root d then some (after s) else none := by
  rw [iteration_eq]
  simp only [Counts, h.ncard, h.depth]

theorem step_iff {x y : Cells UInt8} : (∃ i, (turns root).step x i = some y) ↔ ∃ i, y = rotateFace initPeerOff i x := by
  simp [turns, eq_comm]

/-- **One iteration.** It leaves the cubes of the next depth, each once, and has all up to it in the set. -/
theorem after_spec {s : Search} (h : Frontier root d s) (hne : s.cur ≠ []) :
    Frontier root (d + 1) (after s) ∧ ∀ c, c ∈ (after s).nodeFixed ↔ (turns root).Within (d + 1) c := by
  obtain ⟨c, cs, hcs⟩ := List.exists_cons_of_ne_nil hne
  -- once the first cube is in the set, the set is all up to depth `d`
  have hseen : ∀ x, x ∈ s.nodeFixed.insert c ↔ (turns root).Within d x := fun x => by
    rw [← h.fixed, hcs, SortedSet.mem_insert, or_comm]
    simp [eq_comm]
  have hg : Grown (s.nodeFixed.insert c, []) (s.cur.foldl expand (s.nodeFixed, []))
      fun y => ∃ x ∈ s.cur, ∃ i, y = rotateFace initPeerOff i x := by
    have h1 := grown_expand (s.nodeFixed, []) c
    have h2 := grown_expands cs (expand (s.nodeFixed, []) c) fun x hx => by
      rw [h1.fixed, hseen]
      exact Or.inl ((h.cur x).1 (hcs ▸ List.mem_cons_of_mem c hx)).within
    simpa [hcs] using h1.trans h2
  have hnew : ∀ y, (∃ x ∈ s.cur, ∃ i, y = rotateFace initPeerOff i x) ↔
      ∃ x, (turns root).Level d x ∧ ∃ i, (turns root).step x i = some y := fun y => by
    simp only [h.cur, step_iff]
  have hin : ∀ x, x ∈ (after s).nodeFixed ↔ (turns root).Within (d + 1) x := fun x => by
    rw [after, hg.fixed, hseen, hnew, ← Lts.within_succ]
  have hlevel : ∀ x, x ∈ (after s).cur ↔ (turns root).Level (d + 1) x := fun x => by
    rw [after_cur, hg.next, hseen, hnew, ← Lts.level_succ]
    simp
  refine ⟨⟨congrArg (· + 1) h.depth, ?_, hlevel, fun x => ⟨fun hx => ?_, fun hx => Or.inl ((hin x).2 hx)⟩⟩, hin⟩
  · rw [after_cur]
    exact hg.nodup List.nodup_nil (by simp)
  · rcases hx with hx | hx
    · exact (hin x).1 hx
    · exact ((hlevel x).1 (List.mem_of_head? hx)).within

/-- an iteration that is not the last -/
theorem Frontier.next {s s' : Search} (h : Frontier root d s) (hd : ∃ c, (turns root).Level d c)
    (hs : (if s.cur = [] then some s else iteration s) = some s') :
    Counts root d ∧ Frontier root (d + 1) s' ∧ ∀ c, c ∈ s'.nodeFixed ↔ (turns root).Within (d + 1) c := by
  obtain ⟨c, hc⟩ := hd
  have hne : s.cur ≠ [] := List.ne_nil_of_mem ((h.cur c).2 hc)
  classical
  rw [if_neg hne, h.eq_after, Option.ite_none_right_eq_some] at hs
  obtain ⟨hcounts, he⟩ := hs
  cases he
  exact ⟨hcounts, after_spec h hne⟩

/-- while the depths are not empty, the `n`-th state is that of depth `n` -/
theorem search_frontier {s : Search} (hlev : ∀ m < n, ∃ c, (turns root).Level m c) (hs : search root n = some s) :
    Frontier root n s := by
  induction n generalizing s with
  | zero =>
    cases hs
    exact frontier_start root
  | succ n ih =>
    obtain ⟨u, hu, hs⟩ := Option.bind_eq_some_iff.1 hs
    have hf : Frontier root n u := ih (fun m hm => hlev m (Nat.lt_succ_of_lt hm)) hu
    exact (hf.next (hlev n (Nat.lt_succ_self n)) hs).2.1

/-- the search gets there if and only if the counters of every iteration before fit -/
theorem search_some_iff (hlev : ∀ m < n, ∃ c, (turns root).Level m c) :
    (∃ s, search root n = some s) ↔ ∀ m < n, Counts root m := by
  induction n with
  | zero => exact ⟨fun _ m hm => absurd hm (Nat.not_lt_zero m), fun _ => ⟨_, rfl⟩⟩
  | succ n ih =>
    have hbefore : ∀ m < n, ∃ c, (turns root).Level m c := fun m hm => hlev m (Nat.lt_succ_of_lt hm)
    constructor
    · rintro ⟨s, hs⟩ m hm
      obtain ⟨u, hu, hnext⟩ := Option.bind_eq_some_iff.1 hs
      rcases Nat.lt_succ_iff_lt_or_eq.1 hm with hlt | rfl
      · exact (ih hbefore).1 ⟨u, hu⟩ m hlt
      · exact ((search_frontier hbefore hu).next (hlev m (Nat.lt_succ_self m)) hnext).1
    · intro h
      obtain ⟨u, hu⟩ := (ih hbefore).2 fun m hm => h m (Nat.lt_succ_of_lt hm)
      have hf := search_frontier hbefore hu
      obtain ⟨c, hc⟩ := hlev n (Nat.lt_succ_self n)
      have hne : u.cur ≠ [] := List.ne_nil_of_mem ((hf.cur c).2 hc)
      classical
      refine ⟨after u, ?_⟩
      rw [search, hu, Option.bind_some, if_neg hne, hf.eq_after, if_pos (h n (Nat.lt_succ_self n))]

theorem level_before {c : Cells UInt8} (h : (turns root).Level d c) {m : ℕ} (hm : m ≤ d) :
    ∃ c, (turns root).Level m c := by
  by_contra hno
  push Not at hno
  exact (turns root).level_empty_of_le hno hm c h

instance finite_uint8 : Finite UInt8 :=
  Finite.of_injective (fun x : UInt8 => (⟨x.toNat, x.toNat_lt⟩ : Fin (2 ^ 8))) fun _ _ h =>
    UInt8.toNat_inj.1 (Fin.mk.inj h)

/-- the depths end: there are finitely many cubes -/
theorem levels_end (root : Cells UInt8) :
    ∃ n, (∀ c, ¬ (turns root).Level n c) ∧ ∀ m < n, ∃ c, (turns root).Level m c := by
  classical
  have hex := (turns root).exists_empty_level
  refine ⟨Nat.find hex, Nat.find_spec hex, fun m hm => ?_⟩
  have hfull := Nat.find_min hex hm
  push Not at hfull
  exact hfull

/-- the levels of the iterations, one behind the other -/
theorem mem_expanded (hs : ∀ d < n, ∃ s, search root d = some s ∧ Frontier root d s) :
    c ∈ expanded root n ↔ ∃ d < n, (turns root).Level d c := by
  simp only [expanded, List.mem_flatMap, List.mem_range]
  refine exists_congr fun d => and_congr_right fun hd => ?_
  obtain ⟨s, hs, hf⟩ := hs d hd
  rw [hs]
  exact hf.cur c

theorem nodup_expanded (hs : ∀ d < n, ∃ s, search root d = some s ∧ Frontier root d s) :
    (expanded root n).Nodup := by
  refine List.nodup_flatMap.2 ⟨fun d hd => ?_, ?_⟩
  · obtain ⟨s, hs, hf⟩ := hs d (List.mem_range.1 hd)
    rw [hs]
    exact hf.nodup
  · refine List.Pairwise.imp_of_mem ?_ List.nodup_range
    intro a b ha hb hab x hxa hxb
    obtain ⟨s, hs₁, hfa⟩ := hs a (List.mem_range.1 ha)
    obtain ⟨t, hs₂, hfb⟩ := hs b (List.mem_range.1 hb)
    simp only [hs₁, hs₂, Option.elim_some] at hxa hxb
    exact hab ((turns root).level_unique ((hfa.cur x).1 hxa) ((hfb.cur x).1 hxb))

/-- **An exact search.** After the iteration of depth `d` the next cubes are those that `d + 1` turns reach and no
fewer, each once, and the set holds what at most `d + 1` turns reach, if the counters of all iterations up to it fit an
`int`; an iteration whose counters do not fit has no result. If all fit, the loop ends; by then each reachable cube was
expanded exactly once, and the set holds exactly the reachable cubes. -/
theorem search_exact (root : Cells UInt8) :
    (∀ d, (∃ c, (turns root).Level d c) →
      (((∃ s, search root (d + 1) = some s) ↔ ∀ e ≤ d, Counts root e) ∧
        ∀ s, search root (d + 1) = some s → s.depth = d + 1 ∧ s.cur.Nodup ∧
          (∀ c, c ∈ s.cur ↔ (turns root).Level (d + 1) c) ∧
          ∀ c, c ∈ s.nodeFixed ↔ (turns root).Within (d + 1) c)) ∧
    ((∀ d, (∃ c, (turns root).Level d c) → Counts root d) →
      ∃ n s, search root n = some s ∧ s.cur = [] ∧ (expanded root n).Nodup ∧
        (∀ c, c ∈ expanded root n ↔ (turns root).Reach c) ∧
        ∀ c, c ∈ s.nodeFixed ↔ (turns root).Reach c) := by
  constructor
  · rintro d ⟨c, hc⟩
    have hlev : ∀ m < d + 1, ∃ c, (turns root).Level m c := fun m hm => level_before hc (Nat.le_of_lt_succ hm)
    have hiff := search_some_iff hlev
    simp only [Nat.lt_succ_iff] at hiff
    refine ⟨hiff, fun s hs => ?_⟩
    obtain ⟨u, hu, hs⟩ := Option.bind_eq_some_iff.1 hs
    have hbefore := search_frontier (fun m hm => hlev m (Nat.lt_succ_of_lt hm)) hu
    obtain ⟨-, hf, hin⟩ := hbefore.next ⟨c, hc⟩ hs
    exact ⟨hf.depth, hf.nodup, hf.cur, hin⟩
  · intro hcounts
    obtain ⟨n, hempty, hlev⟩ := levels_end root
    have hs : ∀ d ≤ n, ∃ s, search root d = some s ∧ Frontier root d s := fun d hd => by
      have hbefore : ∀ m < d, ∃ c, (turns root).Level m c := fun m hm => hlev m (Nat.lt_of_lt_of_le hm hd)
      obtain ⟨s, hs⟩ := (search_some_iff hbefore).2 fun m hm => hcounts m (hbefore m hm)
      exact ⟨s, hs, search_frontier hbefore hs⟩
    obtain ⟨s, hend, hf⟩ := hs n (Nat.le_refl n)
    have hcur : s.cur = [] := List.eq_nil_iff_forall_not_mem.2 fun c hc => hempty c ((hf.cur c).1 hc)
    have hrun : ∀ d < n, ∃ s, search root d = some s ∧ Frontier root d s := fun d hd => hs d (Nat.le_of_lt hd)
    refine ⟨n, s, hend, hcur, nodup_expanded hrun, fun c => ?_, fun c => ?_⟩
    · rw [mem_expanded hrun, (turns root).reach_iff_before hempty]
    · -- the frontier is empty, so the set alone is what at most `n` turns reach
      have hin := hf.fixed c
      rw [hcur, List.head?_nil, (turns root).within_iff_reach hempty] at hin
      rw [← hin]
      exact (or_iff_left (Option.some_ne_none c).symm).symm

/-- a cube of one colour -/
theorem search_exact_blank : ∃ n s, search (fun _ => 0) n = some s ∧ s.cur = [] ∧
    ∀ c, c ∈ s.nodeFixed ↔ (turns fun _ => 0).Reach c := by
  have hreach : ∀ c, (turns fun _ => 0).Reach c → c = fun _ => 0 := by
    rintro c ⟨ops, hr⟩
    refine (turns fun _ => 0).run_inv (I := fun c => c = fun _ => 0) ?_ rfl hr
    rintro s i t rfl ht
    cases ht
    rw [rotateFace_eq]
    rfl
  have hlevel : ∀ d c, (turns fun _ => 0).Level d c → d = 0 ∧ c = fun _ => 0 := fun d c hc => by
    obtain rfl := hreach c ((turns fun _ => 0).reach_iff_level.2 ⟨d, hc⟩)
    exact ⟨(turns fun _ => 0).level_unique hc ((turns fun _ => 0).level_zero.2 rfl), rfl⟩
  obtain ⟨n, s, hs, hcur, -, -, hfixed⟩ := (search_exact fun _ => 0).2 fun d ⟨c, hc⟩ => by
    obtain ⟨rfl, -⟩ := hlevel d c hc
    have hone : { c | (turns fun _ => 0).Level 0 c }.ncard ≤ 1 := by
      refine (Set.ncard_le_one (Set.toFinite _)).2 fun a ha b hb => ?_
      rw [(hlevel 0 a ha).2, (hlevel 0 b hb).2]
    exact ⟨by omega, by decide⟩
  exact ⟨n, s, hs, hcur, hfixed⟩

end Hodgepodge.Cube
