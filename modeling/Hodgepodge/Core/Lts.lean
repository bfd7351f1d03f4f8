/-
Transition systems driven by operations. A state changes one operation at a time; an operation carries every choice
the system does not make itself (which thread moves next, which descriptor the kernel hands out, how many bytes a
read returns). `step s o = none` says that `o` cannot happen in `s`. Every interleaving is a list of operations.

- `run_inv`: an invariant of the steps is an invariant of every run.
- `run_work`: a bound on how often a run does what uses up work.
- `run_budget`: the same where other operations make new work.
- `run_undo`: a run is undone backwards, operation by operation.
- `Along`, `along_inv`: the same for runs whose steps are all taken in a state that meets a condition.
- `Always`, `along_always`: a property of every state a run passes through.
- `along_or`, `along_mark`: a run meets the condition, or bears the mark of a step that did not.
- `along_of_run`: a condition that every step of certain operations needs.
- `along_and`, `along_congr`: two conditions.
- `always_iff_along`: a condition that is exactly what a property of the states takes.
- `run_rel`: two systems in lockstep.
- `Peak`, `peak_of_step`: the largest value that a measure of the states takes on a run.
-/
import Mathlib.Data.List.Induction
import Mathlib.Order.Bounds.Basic
import Mathlib.Tactic.Common

namespace Hodgepodge.Core

/-- an element of a list that just grew is the new one or stood in the old list -/
theorem snoc_eq_append_cons {α : Type*} {l h1 h2 : List α} {a e : α} (h : l ++ [a] = h1 ++ e :: h2) :
    (h2 = [] ∧ l = h1 ∧ a = e) ∨ ∃ h3, h2 = h3 ++ [a] ∧ l = h1 ++ e :: h3 := by
  rcases List.eq_nil_or_concat h2 with rfl | ⟨h3, x, rfl⟩
  · obtain ⟨hl, ha⟩ := List.append_inj' h rfl
    exact Or.inl ⟨rfl, hl, List.singleton_inj.1 ha⟩
  · have h' : l ++ [a] = (h1 ++ e :: h3) ++ [x] := by simpa using h
    obtain ⟨hl, ha⟩ := List.append_inj' h' rfl
    obtain rfl := List.singleton_inj.1 ha
    exact Or.inr ⟨h3, List.concat_eq_append, hl⟩

/-- a system that moves one operation at a time -/
structure Lts (S O : Type*) where
  init : S
  step : S → O → Option S

namespace Lts

variable {S O : Type*} (L : Lts S O)

def run : S → List O → Option S
  | s, [] => some s
  | s, o :: ops => (L.step s o).bind fun t => run t ops

/-- some run from the initial state ends in `s` -/
def Reach (s : S) : Prop := ∃ ops, L.run L.init ops = some s

@[simp] theorem run_nil (s : S) : L.run s [] = some s := rfl

theorem run_cons {s u : S} {o : O} {ops : List O} :
    L.run s (o :: ops) = some u ↔ ∃ t, L.step s o = some t ∧ L.run t ops = some u := by
  simp [run, Option.bind_eq_some_iff]

theorem run_append {s u : S} {a b : List O} :
    L.run s (a ++ b) = some u ↔ ∃ t, L.run s a = some t ∧ L.run t b = some u := by
  induction a generalizing s with
  | nil => simp
  | cons o a ih =>
    simp only [List.cons_append, run_cons, ih]
    exact ⟨fun ⟨t, ht, v, hv, hu⟩ => ⟨v, ⟨t, ht, hv⟩, hu⟩, fun ⟨v, ⟨t, ht, hv⟩, hu⟩ => ⟨t, ht, v, hv, hu⟩⟩

theorem run_snoc {s u : S} {ops : List O} {o : O} :
    L.run s (ops ++ [o]) = some u ↔ ∃ t, L.run s ops = some t ∧ L.step t o = some u := by
  simp [run_append, run_cons]

/-! ## Invariants -/

theorem run_inv {I : S → Prop} (hstep : ∀ s o t, I s → L.step s o = some t → I t) {s t : S} {ops : List O}
    (h : I s) (hr : L.run s ops = some t) : I t := by
  induction ops generalizing s with
  | nil => obtain rfl : s = t := by simpa using hr
           exact h
  | cons o ops ih =>
    obtain ⟨u, hu, hr⟩ := L.run_cons.1 hr
    exact ih (hstep s o u h hu) hr

/-- every reachable state satisfies an inductive invariant -/
theorem reach_inv {I : S → Prop} (h0 : I L.init) (hstep : ∀ s o t, I s → L.step s o = some t → I t) {s : S}
    (h : L.Reach s) : I s := by
  obtain ⟨ops, hr⟩ := h
  exact L.run_inv hstep h0 hr

/-- work that no step adds and every operation with the mark `p` uses up bounds their number -/
theorem run_work {I : S → Prop} {C : O → Prop} {μ : S → ℕ} {p : O → Bool}
    (hstep : ∀ s o t, I s → C o → L.step s o = some t → I t ∧ μ t + (if p o = true then 1 else 0) ≤ μ s) {s t : S}
    {ops : List O} (h : I s) (hC : ∀ o ∈ ops, C o) (hr : L.run s ops = some t) :
    I t ∧ μ t + ops.countP p ≤ μ s := by
  induction ops generalizing s with
  | nil => obtain rfl : s = t := by simpa using hr
           exact ⟨h, Nat.le_refl _⟩
  | cons o ops ih =>
    obtain ⟨u, hu, hr⟩ := L.run_cons.1 hr
    obtain ⟨hI, hμ⟩ := hstep s o u h (hC o List.mem_cons_self) hu
    obtain ⟨hI', hμ'⟩ := ih hI (fun o' ho' => hC o' (List.mem_cons_of_mem o ho')) hr
    refine ⟨hI', ?_⟩
    calc μ t + (o :: ops).countP p = μ t + ops.countP p + (if p o = true then 1 else 0) := by
          rw [List.countP_cons, Nat.add_assoc]
      _ ≤ μ u + (if p o = true then 1 else 0) := Nat.add_le_add_right hμ' _
      _ ≤ μ s := hμ

/-- work that every operation with the mark `p` uses up, and of which the others make at most `k` -/
theorem run_budget {I : S → Prop} {μ : S → ℕ} {p : O → Bool} {k : ℕ}
    (hstep : ∀ s o t, I s → L.step s o = some t → I t ∧ if p o = true then μ t + 1 ≤ μ s else μ t ≤ μ s + k) {s t : S}
    {ops : List O} (h : I s) (hr : L.run s ops = some t) :
    μ t + ops.countP p ≤ μ s + k * ops.countP (fun o => !p o) := by
  induction ops generalizing s with
  | nil => obtain rfl : s = t := by simpa using hr
           exact Nat.le_refl _
  | cons o ops ih =>
    obtain ⟨u, hu, hr⟩ := L.run_cons.1 hr
    obtain ⟨hI, hμ⟩ := hstep s o u h hu
    have hrest := ih hI hr
    cases hp : p o with
    | true =>
      rw [hp, if_pos rfl] at hμ
      simp only [List.countP_cons, hp, Bool.not_true, Bool.false_eq_true, if_true, if_false, Nat.add_zero]
      omega
    | false =>
      rw [hp, if_neg Bool.false_ne_true] at hμ
      simp only [List.countP_cons, hp, Bool.not_false, Bool.false_eq_true, if_true, if_false, Nat.add_zero, Nat.mul_succ]
      omega

/-! ## Undoing -/

/-- what undoes a list of operations, if `back o` undoes `o` -/
def undo (back : O → List O) (ops : List O) : List O := ops.reverse.flatMap back

/-- if every operation can be undone, so can every run -/
theorem run_undo {back : O → List O} (hback : ∀ s o t, L.step s o = some t → L.run t (back o) = some s) {s t : S}
    {ops : List O} (hr : L.run s ops = some t) : L.run t (undo back ops) = some s := by
  induction ops generalizing s with
  | nil =>
    obtain rfl : s = t := by simpa using hr
    rfl
  | cons o ops ih =>
    obtain ⟨u, hu, hr⟩ := L.run_cons.1 hr
    have hsplit : undo back (o :: ops) = undo back ops ++ back o := by simp [undo]
    rw [hsplit, L.run_append]
    exact ⟨u, ih hr, hback s o u hu⟩

/-! ## Conditions along a run -/

/-- every operation of the run is taken in a state that meets `C` -/
def Along (C : S → O → Prop) (s : S) (ops : List O) : Prop :=
  ∀ pre o post t, ops = pre ++ o :: post → L.run s pre = some t → C t o

theorem along_cons {C : S → O → Prop} {s : S} {o : O} {ops : List O} :
    L.Along C s (o :: ops) ↔ C s o ∧ ∀ t, L.step s o = some t → L.Along C t ops := by
  constructor
  · intro h
    refine ⟨h [] o ops s rfl rfl, fun t ht pre o' post u hops hu => ?_⟩
    exact h (o :: pre) o' post u (by rw [hops]; rfl) (L.run_cons.2 ⟨t, ht, hu⟩)
  · rintro ⟨h0, h⟩ pre o' post u hops hu
    cases pre with
    | nil =>
      obtain ⟨rfl, rfl⟩ : o = o' ∧ ops = post := by simpa using hops
      obtain rfl : s = u := by simpa using hu
      exact h0
    | cons p pre =>
      obtain ⟨rfl, rfl⟩ : o = p ∧ ops = pre ++ o' :: post := by simpa using hops
      obtain ⟨t, ht, hu⟩ := L.run_cons.1 hu
      exact h t ht pre o' post u rfl hu

theorem along_nil {C : S → O → Prop} {s : S} : L.Along C s [] := by
  intro pre o post t h
  simp at h

/-- a condition that can be evaluated can be evaluated along a run -/
def decAlong (C : S → O → Prop) [∀ s o, Decidable (C s o)] : ∀ s ops, Decidable (L.Along C s ops)
  | _, [] => isTrue L.along_nil
  | s, o :: ops =>
    match h : L.step s o with
    | none => decidable_of_iff (C s o) (by simp [along_cons, h])
    | some t =>
      haveI := decAlong C t ops
      decidable_of_iff (C s o ∧ L.Along C t ops) (by simp [along_cons, h])

instance (C : S → O → Prop) [∀ s o, Decidable (C s o)] (s : S) (ops : List O) : Decidable (L.Along C s ops) :=
  L.decAlong C s ops

/-- an invariant of the steps that meet `C` is an invariant of the runs whose steps all meet `C` -/
theorem along_inv {I : S → Prop} {C : S → O → Prop}
    (hstep : ∀ s o t, I s → C s o → L.step s o = some t → I t) {s t : S} {ops : List O}
    (h : I s) (hC : L.Along C s ops) (hr : L.run s ops = some t) : I t := by
  induction ops generalizing s with
  | nil => obtain rfl : s = t := by simpa using hr
           exact h
  | cons o ops ih =>
    obtain ⟨u, hu, hr⟩ := L.run_cons.1 hr
    obtain ⟨h0, hC⟩ := L.along_cons.1 hC
    exact ih (hstep s o u h h0 hu) (hC u hu) hr

/-- a condition that follows from an invariant and another condition holds along the runs that meet that one -/
theorem Along.of_inv {I : S → Prop} {C D : S → O → Prop}
    (hstep : ∀ s o t, I s → C s o → L.step s o = some t → I t) (hD : ∀ s o, I s → C s o → D s o)
    {s : S} {ops : List O} (h : I s) (hC : L.Along C s ops) : L.Along D s ops := by
  intro pre o post t hops ht
  have hpre : L.Along C s pre := fun a o' b u hab hu =>
    hC a o' (b ++ o :: post) u (by rw [hops, hab, List.append_assoc, List.cons_append]) hu
  exact hD t o (L.along_inv hstep h hpre ht) (hC pre o post t hops ht)

theorem along_step {C : S → O → Prop} {s t : S} {o : O} {ops : List O} (hs : L.step s o = some t) (h0 : C s o)
    (h : L.Along C t ops) : L.Along C s (o :: ops) :=
  L.along_cons.2 ⟨h0, fun u hu => by rw [hs] at hu; cases hu; exact h⟩

/-- a run of operations that meet `C` meets a condition that every step of it needs -/
theorem along_of_run {I : S → Prop} {C : O → Prop} {D : S → O → Prop}
    (hstep : ∀ s o t, I s → C o → L.step s o = some t → D s o ∧ I t) {s t : S} {ops : List O} (h : I s)
    (hC : ∀ o ∈ ops, C o) (hr : L.run s ops = some t) : L.Along D s ops := by
  induction ops generalizing s with
  | nil => exact L.along_nil
  | cons o ops ih =>
    obtain ⟨u, hu, hr⟩ := L.run_cons.1 hr
    obtain ⟨hD, hI⟩ := hstep s o u h (hC o List.mem_cons_self) hu
    exact L.along_step hu hD (ih hI (fun o' ho' => hC o' (List.mem_cons_of_mem o ho')) hr)

theorem along_and {C D : S → O → Prop} {s : S} {ops : List O} :
    L.Along (fun s o => C s o ∧ D s o) s ops ↔ L.Along C s ops ∧ L.Along D s ops := by
  constructor
  · intro h
    exact ⟨fun pre o post t hops ht => (h pre o post t hops ht).1,
      fun pre o post t hops ht => (h pre o post t hops ht).2⟩
  · rintro ⟨hC, hD⟩ pre o post t hops ht
    exact ⟨hC pre o post t hops ht, hD pre o post t hops ht⟩

/-- conditions that agree on the steps that are possible agree along every run -/
theorem along_congr {C D : S → O → Prop} (h : ∀ s o t, L.step s o = some t → (C s o ↔ D s o)) {s t : S} {ops : List O}
    (hr : L.run s ops = some t) : L.Along C s ops ↔ L.Along D s ops := by
  have hstep : ∀ pre o post u, ops = pre ++ o :: post → L.run s pre = some u → (C u o ↔ D u o) := by
    intro pre o post u hops hu
    rw [hops, L.run_append] at hr
    obtain ⟨u', hu', hr⟩ := hr
    obtain rfl : u = u' := Option.some.inj (hu.symm.trans hu')
    obtain ⟨v, hv, -⟩ := L.run_cons.1 hr
    exact h u o v hv
  exact ⟨fun hC pre o post u hops hu => (hstep pre o post u hops hu).1 (hC pre o post u hops hu),
    fun hD pre o post u hops hu => (hstep pre o post u hops hu).2 (hD pre o post u hops hu)⟩

/-- every state the run passes through, the first and the last included, satisfies `P` -/
def Always (P : S → Prop) (s : S) (ops : List O) : Prop :=
  ∀ pre post t, ops = pre ++ post → L.run s pre = some t → P t

theorem along_prefix {C : S → O → Prop} {s : S} {pre post : List O} (h : L.Along C s (pre ++ post)) :
    L.Along C s pre := by
  intro a o b t hab ht
  exact h a o (b ++ post) t (by rw [hab, List.append_assoc, List.cons_append]) ht

theorem along_always {I : S → Prop} {C : S → O → Prop}
    (hstep : ∀ s o t, I s → C s o → L.step s o = some t → I t) {s : S} {ops : List O}
    (h : I s) (hC : L.Along C s ops) : L.Always I s ops := by
  intro pre post t hops ht
  subst hops
  exact L.along_inv hstep h (L.along_prefix hC) ht

/-- a run whose steps all meet `C`, or one that took a step that does not and is marked since -/
theorem along_or {I : S → Prop} {C : S → O → Prop} {D : S → Prop} (hI : ∀ s o t, I s → L.step s o = some t → I t)
    (hbad : ∀ s o t, I s → ¬ C s o → L.step s o = some t → D t)
    (hkeep : ∀ s o t, I s → D s → L.step s o = some t → D t) {s t : S} {ops : List O} (h : I s)
    (hr : L.run s ops = some t) : L.Along C s ops ∨ D t := by
  have hmark : ∀ s o t, I s ∧ D s → L.step s o = some t → I t ∧ D t :=
    fun s o t hs hst => ⟨hI s o t hs.1 hst, hkeep s o t hs.1 hs.2 hst⟩
  induction ops generalizing s with
  | nil => exact Or.inl L.along_nil
  | cons o ops ih =>
    obtain ⟨u, hu, hr⟩ := L.run_cons.1 hr
    have hu' : I u := hI s o u h hu
    by_cases hC : C s o
    · rcases ih hu' hr with h | h
      · exact Or.inl (L.along_step hu hC h)
      · exact Or.inr h
    · exact Or.inr (L.run_inv hmark ⟨hu', hbad s o u h hC hu⟩ hr).2

/-- if every step of the run keeps `D`, and brings it about exactly if it does not meet `C`, then `D` tells in the end
whether all steps met `C` -/
theorem along_mark {I : S → Prop} {B C : S → O → Prop} {D : S → Prop}
    (hstep : ∀ s o t, I s → B s o → L.step s o = some t → I t ∧ (D t ↔ D s ∨ ¬ C s o)) {s t : S} {ops : List O}
    (h : I s) (hB : L.Along B s ops) (hr : L.run s ops = some t) : I t ∧ (D t ↔ D s ∨ ¬ L.Along C s ops) := by
  induction ops generalizing s with
  | nil =>
    obtain rfl : s = t := by simpa using hr
    exact ⟨h, (or_iff_left (not_not_intro L.along_nil)).symm⟩
  | cons o ops ih =>
    obtain ⟨u, hu, hr⟩ := L.run_cons.1 hr
    obtain ⟨h0, hB⟩ := L.along_cons.1 hB
    obtain ⟨hI, hD⟩ := hstep s o u h h0 hu
    obtain ⟨hI', hD'⟩ := ih hI (hB u hu) hr
    have hcons : L.Along C s (o :: ops) ↔ C s o ∧ L.Along C u ops := by
      rw [L.along_cons]
      exact and_congr_right fun _ => ⟨fun hall => hall u hu, fun hC v hv => by rw [hu] at hv; cases hv; exact hC⟩
    refine ⟨hI', ?_⟩
    rw [hD', hD, hcons, not_and_or, or_assoc]

/-- **An exact condition.** Steps that meet `C` keep an invariant with `P`, and every other step leads out of `P`: then
the runs through `P` are the runs whose steps all meet `C`. -/
theorem always_iff_along {I P : S → Prop} {C : S → O → Prop} (hP : ∀ s, I s → P s)
    (hstep : ∀ s o t, I s → C s o → L.step s o = some t → I t)
    (hbad : ∀ s o t, I s → ¬ C s o → L.step s o = some t → ¬ P t) {s t : S} {ops : List O} (h : I s)
    (hr : L.run s ops = some t) : L.Always P s ops ↔ L.Along C s ops := by
  constructor
  · intro hall
    induction ops generalizing s with
    | nil => exact L.along_nil
    | cons o ops ih =>
      obtain ⟨u, hu, hr⟩ := L.run_cons.1 hr
      by_cases hC : C s o
      · refine L.along_step hu hC (ih (hstep s o u h hC hu) hr fun pre post v hops hv => ?_)
        exact hall (o :: pre) post v (by rw [hops]; rfl) (L.run_cons.2 ⟨u, hu, hv⟩)
      · exact absurd (hall [o] ops u rfl (L.run_cons.2 ⟨u, hu, rfl⟩)) (hbad s o u h hC hu)
  · intro hC pre post u hops hu
    exact hP u (L.along_always hstep h hC pre post u hops hu)

/-! ## Two systems in lockstep -/

/-- a relation that the two steps of every operation keep, one of them possible exactly if the other is, is kept by the
runs of every list of operations -/
theorem run_rel {T : Type*} {M : Lts T O} {I : S → Prop} {R : S → T → Prop}
    (hI : ∀ s o s', I s → L.step s o = some s' → I s')
    (hstep : ∀ s t o, I s → R s t → Option.Rel R (L.step s o) (M.step t o)) {s : S} {t : T} (hs : I s) (h : R s t)
    (ops : List O) : Option.Rel R (L.run s ops) (M.run t ops) := by
  induction ops generalizing s t with
  | nil => exact .some h
  | cons o ops ih =>
    have hrel := hstep s t o hs h
    simp only [run]
    cases hs' : L.step s o with
    | none =>
      rw [hs'] at hrel
      cases ht' : M.step t o with
      | none => exact .none
      | some t' => rw [ht'] at hrel; cases hrel
    | some s' =>
      rw [hs'] at hrel
      cases ht' : M.step t o with
      | none => rw [ht'] at hrel; cases hrel
      | some t' =>
        rw [ht'] at hrel
        cases hrel with
        | some h' => exact ih (hI s o s' hs hs') h'

/-! ## The largest value on a run -/

/-- `m` is the largest value of `f` on the run, the first and the last state included -/
def Peak (f : S → ℕ) (s : S) (ops : List O) (m : ℕ) : Prop :=
  IsGreatest {n | ∃ pre post t, ops = pre ++ post ∧ L.run s pre = some t ∧ f t = n} m

variable {L}

theorem peak_nil (f : S → ℕ) (s : S) : L.Peak f s [] (f s) := by
  refine ⟨⟨[], [], s, rfl, rfl, rfl⟩, ?_⟩
  rintro n ⟨pre, post, t, hops, ht, rfl⟩
  obtain ⟨rfl, -⟩ := List.append_eq_nil_iff.1 hops.symm
  obtain rfl : s = t := by simpa using ht
  exact le_rfl

theorem Peak.snoc {f : S → ℕ} {s t : S} {ops : List O} {o : O} {m : ℕ} (h : L.Peak f s ops m)
    (hr : L.run s (ops ++ [o]) = some t) : L.Peak f s (ops ++ [o]) (max m (f t)) := by
  obtain ⟨⟨pre, post, u, hops, hu, hm⟩, hmax⟩ := h
  constructor
  · rcases Nat.le_total (f t) m with hle | hle
    · exact ⟨pre, post ++ [o], u, by rw [hops, List.append_assoc], hu, by rw [hm, Nat.max_eq_left hle]⟩
    · exact ⟨ops ++ [o], [], t, (List.append_nil _).symm, hr, (Nat.max_eq_right hle).symm⟩
  · rintro n ⟨pre', post', v, hops', hv, rfl⟩
    rcases List.eq_nil_or_concat post' with rfl | ⟨post', x, rfl⟩
    · rw [List.append_nil] at hops'
      rw [hops', hv] at hr
      cases hr
      exact Nat.le_max_right _ _
    · have hold : ops = pre' ++ post' := by
        rw [List.concat_eq_append, ← List.append_assoc] at hops'
        exact (List.append_inj' hops' rfl).1
      exact Nat.le_trans (hmax ⟨pre', post', v, hold, hv, rfl⟩) (Nat.le_max_left _ _)

/-- a quantity that starts as `f` and that every step raises to the new value of `f`, if need be, is the peak of `f` -/
theorem peak_of_step {I : S → Prop} {f μ : S → ℕ}
    (hstep : ∀ s o t, I s → L.step s o = some t → I t ∧ μ t = max (μ s) (f t)) (h : I L.init)
    (h0 : μ L.init = f L.init) {s : S} {ops : List O} (hr : L.run L.init ops = some s) :
    I s ∧ L.Peak f L.init ops (μ s) := by
  induction ops using List.reverseRecOn generalizing s with
  | nil =>
    obtain rfl : L.init = s := by simpa using hr
    exact ⟨h, h0 ▸ peak_nil f _⟩
  | append_singleton ops o ih =>
    obtain ⟨t, ht, hs⟩ := L.run_snoc.1 hr
    obtain ⟨hI, hp⟩ := ih ht
    obtain ⟨hI', hμ⟩ := hstep t o s hI hs
    exact ⟨hI', hμ ▸ hp.snoc hr⟩

end Lts

end Hodgepodge.Core
