/-
Loops. The first kind goes around a system call. Each turn of the loop makes one call, whose outcome is given; the turn
then goes on with a new state or leaves the loop with a result. A run of the loop is the list of the outcomes of its
calls, the last of which leaves it. The second kind counts.

- `hardError`: the errors after which such a loop does not repeat the call.
- `loop_ends`: the rule for what holds when the loop is left.
- `forInt_iff`, `forInt_some`: the rules for counted loops, for what they compute and when, and for what they compute if
  they end; `forNat_iff`: the first one for loops that count from zero.
-/
import Mathlib.Algebra.Group.Int.Defs
import Mathlib.Tactic.Common

namespace Hodgepodge.Core

/-! ## Errors -/

abbrev EINTR : Int := 4
abbrev EAGAIN : Int := 11
abbrev EWOULDBLOCK : Int := 11

/-- an `errno` after which the call is not repeated -/
def hardError (errno : Int) : Bool := decide (errno ≠ EINTR ∧ errno ≠ EAGAIN ∧ errno ≠ EWOULDBLOCK)

/-! ## Turns -/

/-- what a turn does: it goes on, or it leaves the loop -/
inductive Turn (C R : Type*) where
  | on (c : C)
  | out (r : R)
deriving DecidableEq

namespace Turn

variable {C O R : Type*}

/-- `none`: an outcome was impossible, or the outcomes are not those of one run of the loop -/
def loop (turn : C → O → Option (Turn C R)) : C → List O → Option R
  | _, [] => none
  | c, o :: outcomes => (turn c o).bind fun
    | .on c => loop turn c outcomes
    | .out r => if outcomes = [] then some r else none

theorem loop_ends_from {turn : C → O → Option (Turn C R)} {P : List O → C → Prop}
    (hon : ∀ before c o c', P before c → turn c o = some (.on c') → P (before ++ [o]) c') {before outcomes : List O}
    {c : C} {r : R} (h : P before c) (hr : loop turn c outcomes = some r) :
    ∃ most last c', outcomes = most ++ [last] ∧ P (before ++ most) c' ∧ turn c' last = some (.out r) := by
  induction outcomes generalizing before c with
  | nil => cases hr
  | cons o outcomes ih =>
    simp only [loop, Option.bind_eq_some_iff] at hr
    obtain ⟨t, ht, hr⟩ := hr
    cases t with
    | on c' =>
      obtain ⟨most, last, c₁, rfl, hP, hlast⟩ := ih (hon _ _ _ _ h ht) hr
      exact ⟨o :: most, last, c₁, rfl, by rwa [List.append_cons], hlast⟩
    | out r' =>
      simp only [Option.ite_none_right_eq_some, Option.some.injEq] at hr
      obtain ⟨rfl, rfl⟩ := hr
      exact ⟨[], o, c, rfl, by rwa [List.append_nil], ht⟩

/-- **The rule.** What the turns that go on keep, said of the outcomes so far and the state, holds before the turn that
leaves the loop. -/
theorem loop_ends {turn : C → O → Option (Turn C R)} {P : List O → C → Prop}
    (hon : ∀ before c o c', P before c → turn c o = some (.on c') → P (before ++ [o]) c') {outcomes : List O} {c : C}
    {r : R} (h : P [] c) (hr : loop turn c outcomes = some r) :
    ∃ before last c', outcomes = before ++ [last] ∧ P before c' ∧ turn c' last = some (.out r) :=
  loop_ends_from hon h hr

end Turn

/-! ## Counted loops -/

variable {σ : Type*}

/-- `n` passes from `i` on -/
def forRange (body : ℤ → σ → Option σ) : ℕ → ℤ → σ → Option σ
  | 0, _, s => some s
  | n + 1, i, s => (body i s).bind (forRange body n (i + 1))

/-- `for (int i = i0; i < i1; i++)` -/
def forInt (i0 i1 : ℤ) (body : ℤ → σ → Option σ) (s : σ) : Option σ := forRange body (i1 - i0).toNat i0 s

theorem forRange_iff {body : ℤ → σ → Option σ} {f : ℤ → σ} {A : ℤ → Prop} {n : ℕ} {i : ℤ} {s : σ}
    (hbody : ∀ k s, i ≤ k → k < i + n → (body k (f k) = some s ↔ A k ∧ s = f (k + 1))) :
    forRange body n i (f i) = some s ↔ (∀ k, i ≤ k → k < i + n → A k) ∧ s = f (i + n) := by
  induction n generalizing i with
  | zero =>
    have hi : i + ((0 : ℕ) : ℤ) = i := by omega
    rw [forRange, Option.some.injEq, hi]
    exact ⟨fun h => ⟨fun k hk hk' => absurd hk' (by omega), h.symm⟩, fun h => h.2.symm⟩
  | succ n ih =>
    have hnext := ih (i := i + 1) fun k s hk hk' => hbody k s (by omega) (by omega)
    have hend : i + 1 + (n : ℤ) = i + ((n + 1 : ℕ) : ℤ) := by omega
    rw [hend] at hnext
    have hfirst := fun s => hbody i s (Int.le_refl i) (by omega)
    rw [forRange, Option.bind_eq_some_iff]
    constructor
    · rintro ⟨s₁, h₁, h₂⟩
      obtain ⟨hA, rfl⟩ := (hfirst s₁).1 h₁
      obtain ⟨hrest, rfl⟩ := hnext.1 h₂
      refine ⟨fun k hk hk' => ?_, rfl⟩
      by_cases hki : k = i
      · exact hki ▸ hA
      · exact hrest k (by omega) hk'
    · rintro ⟨hA, rfl⟩
      exact ⟨f (i + 1), (hfirst _).2 ⟨hA i (Int.le_refl i) (by omega), rfl⟩,
        hnext.2 ⟨fun k hk hk' => hA k (by omega) hk', rfl⟩⟩

/-- **The rule for counted loops.** If pass `i` turns `f i` into `f (i + 1)`, under the condition `A i` and not
otherwise, then the loop turns `f i0` into the last `f`, under all of them and not otherwise. -/
theorem forInt_iff {body : ℤ → σ → Option σ} {f : ℤ → σ} {A : ℤ → Prop} {i0 i1 : ℤ} {s : σ}
    (hbody : ∀ i s, i0 ≤ i → i < i1 → (body i (f i) = some s ↔ A i ∧ s = f (i + 1))) :
    forInt i0 i1 body (f i0) = some s ↔ (∀ i, i0 ≤ i → i < i1 → A i) ∧ s = f (max i0 i1) := by
  have hlast : i0 + ((i1 - i0).toNat : ℤ) = max i0 i1 := by omega
  have hiff := forRange_iff (n := (i1 - i0).toNat) (s := s) fun i s hi hi' => hbody i s hi (by omega)
  rw [forInt, hiff, hlast]
  refine and_congr_left fun _ => forall_congr' fun i => forall_congr' fun hi => ?_
  exact ⟨fun h hi' => h (by omega), fun h hi' => h (by omega)⟩

/-- the rule for a loop that has ended, if nothing is said of when a pass has a result -/
theorem forInt_some {body : ℤ → σ → Option σ} {f : ℤ → σ} {i0 i1 : ℤ} {s : σ}
    (hbody : ∀ i s, i0 ≤ i → i < i1 → body i (f i) = some s → s = f (i + 1))
    (h : forInt i0 i1 body (f i0) = some s) : s = f (max i0 i1) := by
  have hiff := forInt_iff (A := fun i => (body i (f i)).isSome = true) (s := s) fun i s hi hi' => by
    constructor
    · intro hs
      exact ⟨by rw [hs]; rfl, hbody i s hi hi' hs⟩
    · rintro ⟨hsome, rfl⟩
      obtain ⟨s', hs'⟩ := Option.isSome_iff_exists.1 hsome
      rw [hs', hbody i s' hi hi' hs']
  exact (hiff.1 h).2

/-- `for (int i = 0; i < n; i++)` -/
def forNat (n : ℕ) (body : ℕ → σ → Option σ) (s : σ) : Option σ := forInt 0 n (fun i => body i.toNat) s

theorem forNat_iff {body : ℕ → σ → Option σ} {f : ℕ → σ} {A : ℕ → Prop} {n : ℕ} {s : σ}
    (hbody : ∀ i s, i < n → (body i (f i) = some s ↔ A i ∧ s = f (i + 1))) :
    forNat n body (f 0) = some s ↔ (∀ i < n, A i) ∧ s = f n := by
  have hiff : forInt 0 n (fun i => body i.toNat) (f (0 : ℤ).toNat) = some s ↔
      (∀ i : ℤ, 0 ≤ i → i < n → A i.toNat) ∧ s = f (max 0 (n : ℤ)).toNat := by
    refine forInt_iff (f := fun i : ℤ => f i.toNat) (A := fun i => A i.toNat) fun i s hi hi' => ?_
    have hnext : (i + 1).toNat = i.toNat + 1 := by omega
    rw [hnext]
    exact hbody i.toNat s (by omega)
  have hlast : (max 0 (n : ℤ)).toNat = n := by omega
  rw [hlast] at hiff
  refine hiff.trans (and_congr_left fun _ => ⟨fun h i hi => ?_, fun h i _ hi => h i.toNat (by omega)⟩)
  exact h i (by omega) (by omega)

end Hodgepodge.Core
