/-
Programs that call an outside world. The world answers a call as it likes and the program goes on with the answer. A run
is the list of the calls with their answers, and what the program ends with. A ledger says what a call hands out and
what it takes back; over a run nothing may be used or given back that is not held.

- `run_bind`: the runs of a sequence.
- `run_played`: a program has a run in every world.
- `hoare_bind`, `hoare_confined`: the rules for what a program does to the world.
- `Moves.append`, `Moves.frame`: what runs do to the holdings, one after the other and beside other holdings.
- `triple_bind`, `triple_frame`: the rules for programs.
-/
import Mathlib.Algebra.Order.Group.Multiset
import Mathlib.Tactic.Common

namespace Hodgepodge.Core

universe u v

/-- a program over the calls `C`, of which `c` is answered in `A c` -/
inductive Prog {C : Type u} (A : C → Type v) (R : Type v) where
  | ret (r : R)
  /-- the program itself does what has no defined meaning -/
  | fault
  | call (c : C) (next : A c → Prog A R)

/-- a call with its answer -/
abbrev Event {C : Type u} (A : C → Type v) := (c : C) × A c

namespace Prog

variable {C : Type u} {A : C → Type v} {R S : Type v} {c : C} {p : Prog A R} {f : R → Prog A S} {t : List (Event A)}

def bind : Prog A R → (R → Prog A S) → Prog A S
  | ret r, f => f r
  | fault, _ => fault
  | call c next, f => call c fun a => (next a).bind f

instance : Monad (Prog A) where
  pure := ret
  bind := bind

def ask (c : C) : Prog A (A c) := call c ret

/-- `n` passes of a loop, from number `i` on -/
def count (body : ℕ → R → Prog A R) : ℕ → ℕ → R → Prog A R
  | 0, _, r => ret r
  | n + 1, i, r => (body i r).bind (count body n (i + 1))

/-- a loop over a list -/
def each {α : Type*} (body : α → R → Prog A R) : List α → R → Prog A R
  | [], r => ret r
  | x :: xs, r => (body x r).bind (each body xs)

/-! ## Runs -/

/-- the calls of a run with their answers, and the result; `none` after a fault -/
def Run : Prog A R → List (Event A) → Option R → Prop
  | ret r, t, o => t = [] ∧ o = some r
  | fault, t, o => t = [] ∧ o = none
  | call c next, t, o => ∃ a t', t = ⟨c, a⟩ :: t' ∧ (next a).Run t' o

@[simp] theorem run_pure {r : R} {o : Option R} : (pure r : Prog A R).Run t o ↔ t = [] ∧ o = some r := Iff.rfl

@[simp] theorem run_fault {o : Option R} : (fault : Prog A R).Run t o ↔ t = [] ∧ o = none := Iff.rfl

/-- **The runs of a sequence.** -/
theorem run_bind {o : Option S} : (p >>= f).Run t o ↔
    (∃ t₁ t₂ r, t = t₁ ++ t₂ ∧ p.Run t₁ (some r) ∧ (f r).Run t₂ o) ∨ (p.Run t none ∧ o = none) := by
  induction p generalizing t with
  | ret r =>
    constructor
    · exact fun h => Or.inl ⟨[], t, r, rfl, ⟨rfl, rfl⟩, h⟩
    · rintro (⟨t₁, t₂, r', rfl, ⟨rfl, hr⟩, h⟩ | ⟨⟨-, h⟩, -⟩)
      · cases hr
        exact h
      · cases h
  | fault =>
    constructor
    · rintro ⟨rfl, rfl⟩
      exact Or.inr ⟨⟨rfl, rfl⟩, rfl⟩
    · rintro (⟨_, _, _, _, ⟨_, h⟩, _⟩ | ⟨⟨rfl, -⟩, rfl⟩)
      · cases h
      · exact ⟨rfl, rfl⟩
  | call c next ih =>
    constructor
    · rintro ⟨a, t', rfl, h⟩
      rcases (ih a).1 h with ⟨t₁, t₂, r, rfl, h₁, h₂⟩ | ⟨hf, rfl⟩
      · exact Or.inl ⟨⟨c, a⟩ :: t₁, t₂, r, rfl, ⟨a, t₁, rfl, h₁⟩, h₂⟩
      · exact Or.inr ⟨⟨a, t', rfl, hf⟩, rfl⟩
    · rintro (⟨_, t₂, r, rfl, ⟨a, t₁, rfl, h₁⟩, h₂⟩ | ⟨⟨a, t', rfl, h⟩, rfl⟩)
      · exact ⟨a, t₁ ++ t₂, rfl, (ih a).2 (Or.inl ⟨t₁, t₂, r, rfl, h₁, h₂⟩)⟩
      · exact ⟨a, t', rfl, (ih a).2 (Or.inr ⟨h, rfl⟩)⟩

@[simp] theorem run_ask_bind {f : A c → Prog A R} {o : Option R} :
    (ask c >>= f : Prog A R).Run t o ↔ ∃ a t', t = ⟨c, a⟩ :: t' ∧ (f a).Run t' o := Iff.rfl

/-- a loop whose passes each make the calls of `tr` and no others -/
theorem run_count {body : ℕ → PUnit → Prog A PUnit} {tr : ℕ → List (Event A)} {n i : ℕ} {o : Option PUnit}
    (hbody : ∀ i t o, (body i ⟨⟩).Run t o → t = tr i ∧ o = some ⟨⟩) (h : (count body n i ⟨⟩).Run t o) :
    t = (List.range' i n).flatMap tr ∧ o = some ⟨⟩ := by
  induction n generalizing i t with
  | zero => exact h
  | succ n ih =>
    rcases run_bind.1 h with ⟨t₁, t₂, r, rfl, h₁, h₂⟩ | ⟨h₁, -⟩
    · obtain ⟨rfl, -⟩ := hbody i _ _ h₁
      obtain ⟨rfl, rfl⟩ := ih h₂
      exact ⟨rfl, rfl⟩
    · cases (hbody i _ _ h₁).2

theorem run_each {α : Type*} {body : α → PUnit → Prog A PUnit} {tr : α → List (Event A)} {xs : List α}
    {o : Option PUnit} (hbody : ∀ x t o, (body x ⟨⟩).Run t o → t = tr x ∧ o = some ⟨⟩)
    (h : (each body xs ⟨⟩).Run t o) : t = xs.flatMap tr ∧ o = some ⟨⟩ := by
  induction xs generalizing t with
  | nil => exact h
  | cons x xs ih =>
    rcases run_bind.1 h with ⟨t₁, t₂, r, rfl, h₁, h₂⟩ | ⟨h₁, -⟩
    · obtain ⟨rfl, -⟩ := hbody x _ _ h₁
      obtain ⟨rfl, rfl⟩ := ih h₂
      exact ⟨rfl, rfl⟩
    · cases (hbody x _ _ h₁).2

/-- a world that answers from its state -/
abbrev World {C : Type u} (A : C → Type v) (σ : Type*) := (c : C) → σ → A c × σ

variable {σ : Type*}

/-- the run in such a world, and the state it leaves the world in -/
def played (world : World A σ) : Prog A R → σ → List (Event A) × Option R × σ
  | ret r, s => ([], some r, s)
  | fault, s => ([], none, s)
  | call c next, s =>
    let (a, s) := world c s
    let (t, o) := (next a).played world s
    (⟨c, a⟩ :: t, o)

theorem run_played (world : World A σ) (p : Prog A R) (s : σ) : p.Run (p.played world s).1 (p.played world s).2.1 := by
  induction p generalizing s with
  | ret r => exact ⟨rfl, rfl⟩
  | fault => exact ⟨rfl, rfl⟩
  | call c next ih => exact ⟨(world c s).1, _, rfl, ih (world c s).1 (world c s).2⟩

/-! ### Calls and faults -/

/-- a program makes calls of `P` only, and faults exactly in the runs in which a call is answered as `B` says -/
def Confined (P : C → Prop) (B : Event A → Prop) (p : Prog A R) : Prop :=
  ∀ t o, p.Run t o → (∀ e ∈ t, P e.1) ∧ (o = none ↔ ∃ e ∈ t, B e)

variable {P P' : C → Prop} {B : Event A → Prop}

theorem Confined.mono (h : Confined P B p) (hP : ∀ c, P c → P' c) : Confined P' B p := fun t o ht =>
  ⟨fun e he => hP _ ((h t o ht).1 e he), (h t o ht).2⟩

theorem confined_pure {r : R} : Confined P B (pure r : Prog A R) := by
  rintro t o ⟨rfl, rfl⟩
  simp

theorem confined_bind (hp : Confined P B p) (hf : ∀ r, Confined P B (f r)) : Confined P B (p >>= f) := by
  intro t o h
  rcases run_bind.1 h with ⟨t₁, t₂, r, rfl, h₁, h₂⟩ | ⟨h₁, rfl⟩
  · obtain ⟨hP₁, hno⟩ := hp _ _ h₁
    obtain ⟨hP₂, hiff⟩ := hf r _ _ h₂
    refine ⟨List.forall_mem_append.2 ⟨hP₁, hP₂⟩, hiff.trans ⟨?_, ?_⟩⟩
    · rintro ⟨e, he, hB⟩
      exact ⟨e, List.mem_append_right _ he, hB⟩
    · rintro ⟨e, he, hB⟩
      exact ⟨e, (List.mem_append.1 he).resolve_left (fun he => nomatch hno.2 ⟨e, he, hB⟩), hB⟩
  · obtain ⟨hP₁, hiff⟩ := hp _ _ h₁
    exact ⟨hP₁, fun _ => hiff.1 rfl, fun _ => rfl⟩

/-- a call whose bad answers lead to a fault -/
theorem confined_call {f : A c → Prog A R} (hP : P c) (hgood : ∀ a, ¬ B ⟨c, a⟩ → Confined P B (f a))
    (hbad : ∀ a, B ⟨c, a⟩ → f a = fault) : Confined P B (ask c >>= f) := by
  rintro t o ⟨a, t, rfl, h⟩
  by_cases hB : B ⟨c, a⟩
  · have hfault : (f a).Run t o := h
    rw [hbad a hB] at hfault
    obtain ⟨rfl, rfl⟩ := hfault
    simp [hB, hP]
  · obtain ⟨hall, hiff⟩ := hgood a hB _ _ h
    exact ⟨List.forall_mem_cons.2 ⟨hP, hall⟩, by simp [hiff, hB]⟩

/-- a call that has no bad answers -/
theorem confined_next {f : A c → Prog A R} (hP : P c) (hc : ∀ a, ¬ B ⟨c, a⟩) (hf : ∀ a, Confined P B (f a)) :
    Confined P B (ask c >>= f) :=
  confined_call hP (fun a _ => hf a) fun a hB => absurd hB (hc a)

theorem confined_ask (hP : P c) (hc : ∀ a, ¬ B ⟨c, a⟩) : Confined P B (ask c) := by
  rintro t o ⟨a, t, rfl, rfl, rfl⟩
  simp [hP, hc]

theorem confined_count {body : ℕ → R → Prog A R} {n i : ℕ} {r : R} (h : ∀ i r, Confined P B (body i r)) :
    Confined P B (count body n i r) := by
  induction n generalizing i r with
  | zero => exact confined_pure
  | succ n ih => exact confined_bind (h i r) fun _ => ih

theorem confined_each {α : Type*} {body : α → R → Prog A R} {xs : List α} {r : R}
    (h : ∀ x r, Confined P B (body x r)) : Confined P B (each body xs r) := by
  induction xs generalizing r with
  | nil => exact confined_pure
  | cons x xs ih => exact confined_bind (h x r) fun _ => ih

/-! ### What happens to the world -/

/-- the events of a run, one after the other, under what the world is known to do -/
def Steps (step : σ → Event A → σ → Prop) : σ → List (Event A) → σ → Prop
  | s, [], s' => s = s'
  | s, e :: t, s' => ∃ s₁, step s e s₁ ∧ Steps step s₁ t s'

variable {step : σ → Event A → σ → Prop} {s s' : σ} {t' : List (Event A)}

theorem steps_append : Steps step s (t ++ t') s' ↔ ∃ s₁, Steps step s t s₁ ∧ Steps step s₁ t' s' := by
  induction t generalizing s with
  | nil => exact ⟨fun h => ⟨s, rfl, h⟩, fun ⟨_, h, h'⟩ => h ▸ h'⟩
  | cons e t ih =>
    constructor
    · rintro ⟨s₁, he, h⟩
      obtain ⟨s₂, h₁, h₂⟩ := ih.1 h
      exact ⟨s₂, ⟨s₁, he, h₁⟩, h₂⟩
    · rintro ⟨s₂, ⟨s₁, he, h₁⟩, h₂⟩
      exact ⟨s₁, he, ih.2 ⟨s₂, h₁, h₂⟩⟩

/-- a world that does what it is known to do -/
theorem steps_played {world : World A σ} (h : ∀ c s, step s ⟨c, (world c s).1⟩ (world c s).2) (p : Prog A R) (s : σ) :
    Steps step s (p.played world s).1 (p.played world s).2.2 := by
  induction p generalizing s with
  | ret r => rfl
  | fault => rfl
  | call c next ih => exact ⟨(world c s).2, h c s, ih (world c s).1 (world c s).2⟩

/-- what every event keeps is kept -/
theorem steps_keep {I : σ → Prop} (h : ∀ e ∈ t, ∀ s s', I s → step s e s' → I s') (ht : Steps step s t s')
    (hs : I s) : I s' := by
  induction t generalizing s with
  | nil => exact ht ▸ hs
  | cons e t ih =>
    obtain ⟨s₁, he, ht⟩ := ht
    exact ih (fun e' he' => h e' (List.mem_cons_of_mem _ he')) ht (h e List.mem_cons_self s s₁ hs he)

/-- from a state of `I` a run that ends leaves the world in a state of `Q` -/
def Hoare (step : σ → Event A → σ → Prop) (I : σ → Prop) (p : Prog A R) (Q : R → σ → Prop) : Prop :=
  ∀ s t s' r, I s → p.Run t (some r) → Steps step s t s' → Q r s'

variable {I J : σ → Prop} {Q : R → σ → Prop} {T : S → σ → Prop}

theorem hoare_pure {r : R} (h : ∀ s, I s → Q r s) : Hoare step I (pure r) Q := by
  rintro s t s' _ hs ⟨rfl, ⟨⟩⟩ rfl
  exact h s hs

/-- a condition on the state that does not depend on it -/
theorem hoare_and {φ : Prop} (h : φ → Hoare step I p Q) : Hoare step (fun s => I s ∧ φ) p Q :=
  fun s t s' r hs => h hs.2 s t s' r hs.1

theorem hoare_fault : Hoare step I (fault : Prog A R) Q := by
  rintro s t s' r hs ⟨-, ⟨⟩⟩

theorem hoare_bind (hp : Hoare step I p Q) (hf : ∀ r, Hoare step (Q r) (f r) T) : Hoare step I (p >>= f) T := by
  intro s t s' r hs h ht
  rcases run_bind.1 h with ⟨t₁, t₂, r₁, rfl, h₁, h₂⟩ | ⟨-, hnone⟩
  · obtain ⟨s₁, ht₁, ht₂⟩ := steps_append.1 ht
    exact hf r₁ s₁ t₂ s' r (hp s t₁ s₁ r₁ hs h₁ ht₁) h₂ ht₂
  · cases hnone

theorem hoare_call {J : A c → σ → Prop} {f : A c → Prog A R} (hc : ∀ a s s', I s → step s ⟨c, a⟩ s' → J a s')
    (hf : ∀ a, Hoare step (J a) (f a) Q) : Hoare step I (ask c >>= f) Q := by
  rintro s _ s' r hs ⟨a, t, rfl, h⟩ ⟨s₁, he, ht⟩
  exact hf a s₁ t s' r (hc a s s₁ hs he) h ht

/-- a program that makes only calls which keep `I` -/
theorem hoare_confined {P : C → Prop} {B : Event A → Prop} (hp : Confined P B p)
    (h : ∀ e : Event A, P e.1 → ∀ s s', I s → step s e s' → I s') : Hoare step I p fun _ => I := fun _ t _ _ hs hr ht =>
  steps_keep (fun e he => h e ((hp t _ hr).1 e he)) ht hs

end Prog

/-! ## Ledgers -/

/-- what a call needs without giving it back, what it gives back, and what its answer hands out -/
structure Ledger {C : Type u} (A : C → Type v) (ρ : Type*) where
  uses : C → Multiset ρ
  takes : C → Multiset ρ
  gives : (c : C) → A c → Multiset ρ

namespace Ledger

variable {C : Type u} {A : C → Type v} {R S : Type v} {ρ : Type*} [DecidableEq ρ] (L : Ledger A ρ) {c : C}
  {e : Event A} {t t₁ t₂ : List (Event A)} {held k m n : Multiset ρ}

/-- `none`: the call needs or gives back what is not held -/
def book (held : Multiset ρ) (e : Event A) : Option (Multiset ρ) :=
  if L.uses e.1 + L.takes e.1 ≤ held then some (held - L.takes e.1 + L.gives e.1 e.2) else none

def books : List (Event A) → Multiset ρ → Option (Multiset ρ)
  | [], held => some held
  | e :: t, held => (L.book held e).bind (books t)

/-- the events turn the holdings `m` into `n`, whatever else is held -/
def Moves (t : List (Event A)) (m n : Multiset ρ) : Prop := ∀ k, L.books t (m + k) = some (n + k)

theorem books_append : L.books (t₁ ++ t₂) held = (L.books t₁ held).bind (L.books t₂) := by
  induction t₁ generalizing held with
  | nil => rfl
  | cons e t₁ ih =>
    rw [List.cons_append, books, books, Option.bind_assoc]
    exact congrArg _ (funext fun _ => ih)

theorem Moves.books (h : L.Moves t m n) : L.books t m = some n := by
  simpa using h 0

theorem moves_nil : L.Moves [] m m := fun _ => rfl

theorem Moves.append (h₁ : L.Moves t₁ k m) (h₂ : L.Moves t₂ m n) : L.Moves (t₁ ++ t₂) k n := fun other => by
  rw [books_append, h₁ other]
  exact h₂ other

theorem Moves.frame (h : L.Moves t m n) (k : Multiset ρ) : L.Moves t (m + k) (n + k) := fun other => by
  rw [add_assoc, add_assoc]
  exact h (k + other)

theorem moves_event : L.Moves [e] (L.uses e.1 + L.takes e.1) (L.uses e.1 + L.gives e.1 e.2) := fun k => by
  have hle : L.uses e.1 + L.takes e.1 ≤ L.uses e.1 + L.takes e.1 + k := Multiset.le_add_right _ _
  have hrest : L.uses e.1 + L.takes e.1 + k - L.takes e.1 = L.uses e.1 + k := by
    rw [add_right_comm, Multiset.add_sub_cancel_right]
  rw [Ledger.books, book, if_pos hle, hrest, add_right_comm]
  rfl

/-- what is never given back stays held -/
theorem kept {P : ρ → Prop} [DecidablePred P] (ht : ∀ e ∈ t, (L.takes e.1).filter P = 0) (h : L.books t m = some n) :
    n.filter P = m.filter P + (t.map fun e => (L.gives e.1 e.2).filter P).sum := by
  induction t generalizing m with
  | nil =>
    cases h
    simp
  | cons e t ih =>
    obtain ⟨m', he, h⟩ := Option.bind_eq_some_iff.1 h
    have hstep : m' = m - L.takes e.1 + L.gives e.1 e.2 := by
      unfold book at he
      split at he
      · exact (Option.some.inj he).symm
      · cases he
    rw [ih (fun e he => ht e (List.mem_cons_of_mem _ he)) h, hstep, Multiset.filter_add, Multiset.filter_sub,
      ht e List.mem_cons_self, Multiset.sub_zero, List.map_cons, List.sum_cons, add_assoc]

/-! ### Programs -/

/-- from the holdings `m` no run needs or gives back what is not held, and a run that ends does with the holdings of
`Q` -/
def Triple (m : Multiset ρ) (p : Prog A R) (Q : R → Multiset ρ → Prop) : Prop :=
  ∀ t o, p.Run t o → ∃ n, L.Moves t m n ∧ ∀ r, o = some r → Q r n

variable {p : Prog A R} {f : R → Prog A S} {Q Q' : R → Multiset ρ → Prop} {T : S → Multiset ρ → Prop}

theorem triple_pure {r : R} (h : Q r m) : L.Triple m (pure r) Q := by
  rintro t o ⟨rfl, rfl⟩
  refine ⟨m, L.moves_nil, ?_⟩
  rintro _ ⟨⟩
  exact h

theorem triple_fault : L.Triple m Prog.fault Q := by
  rintro t o ⟨rfl, rfl⟩
  exact ⟨m, L.moves_nil, nofun⟩

theorem triple_bind (hp : L.Triple m p Q) (hf : ∀ r n, Q r n → L.Triple n (f r) T) :
    L.Triple m (p >>= f) T := by
  intro t o h
  rcases Prog.run_bind.1 h with ⟨t₁, t₂, r, rfl, h₁, h₂⟩ | ⟨h₁, rfl⟩
  · obtain ⟨n, hn, hQ⟩ := hp _ _ h₁
    obtain ⟨n', hn', hT⟩ := hf r n (hQ r rfl) _ _ h₂
    exact ⟨n', hn.append L hn', hT⟩
  · obtain ⟨n, hn, -⟩ := hp _ _ h₁
    exact ⟨n, hn, nofun⟩

theorem triple_mono (hp : L.Triple m p Q) (h : ∀ r n, Q r n → Q' r n) : L.Triple m p Q' := by
  intro t o ht
  obtain ⟨n, hn, hQ⟩ := hp t o ht
  exact ⟨n, hn, fun r hr => h r n (hQ r hr)⟩

theorem triple_eq (hmn : m = n) (hp : L.Triple n p Q) : L.Triple m p Q := hmn ▸ hp

/-- **The frame rule.** What a program does not need stays held. -/
theorem triple_frame (hp : L.Triple m p Q) (k : Multiset ρ) :
    L.Triple (m + k) p fun r n => ∃ n', n = n' + k ∧ Q r n' := by
  intro t o ht
  obtain ⟨n, hn, hQ⟩ := hp t o ht
  exact ⟨n + k, hn.frame L k, fun r hr => ⟨n, rfl, hQ r hr⟩⟩

/-- the holdings are those of `Q`, up to things of `P` that are left over -/
def UpTo (P : ρ → Prop) (Q : R → Multiset ρ → Prop) (r : R) (n : Multiset ρ) : Prop :=
  ∃ n' k, n = n' + k ∧ (∀ x ∈ k, P x) ∧ Q r n'

variable {P : ρ → Prop}

omit [DecidableEq ρ] in
theorem upTo_self {r : R} (h : Q r n) : UpTo P Q r n := ⟨n, 0, (add_zero n).symm, nofun, h⟩

/-- what is left over before a program is left over after it -/
theorem triple_drop (hk : ∀ x ∈ k, P x) (hp : L.Triple m p (UpTo P Q)) : L.Triple (m + k) p (UpTo P Q) := by
  refine L.triple_mono (L.triple_frame hp k) ?_
  rintro r _ ⟨_, rfl, n, k', rfl, hk', hQ⟩
  refine ⟨n, k' + k, add_assoc _ _ _, fun x hx => ?_, hQ⟩
  exact (Multiset.mem_add.1 hx).elim (hk' x) (hk x)

theorem triple_bind_upTo (hp : L.Triple m p (UpTo P Q)) (hf : ∀ r n, Q r n → L.Triple n (f r) (UpTo P T)) :
    L.Triple m (p >>= f) (UpTo P T) := by
  refine L.triple_bind hp ?_
  rintro r _ ⟨n, k, rfl, hk, hQ⟩
  exact L.triple_drop hk (hf r n hQ)

theorem triple_ask : L.Triple (L.uses c + L.takes c) (Prog.ask c) fun a n => n = L.uses c + L.gives c a := by
  rintro t o ⟨a, t', rfl, rfl, rfl⟩
  refine ⟨_, L.moves_event, ?_⟩
  rintro _ ⟨⟩
  rfl

/-- a call of which the holdings `k` are no part -/
theorem triple_beside (k : Multiset ρ) (hm : m = L.uses c + L.takes c + k) :
    L.Triple m (Prog.ask c) fun a n => n = L.uses c + L.gives c a + k := by
  subst hm
  refine L.triple_mono (L.triple_frame L.triple_ask k) ?_
  rintro a n ⟨_, rfl, rfl⟩
  rfl

/-- such a call, and what comes after it -/
theorem triple_call {f : A c → Prog A R} (k : Multiset ρ) (hm : m = L.uses c + L.takes c + k)
    (hf : ∀ a, L.Triple (L.uses c + L.gives c a + k) (f a) Q) : L.Triple m (Prog.ask c >>= f) Q := by
  refine L.triple_bind (L.triple_beside k hm) ?_
  rintro a n rfl
  exact hf a

/-- the rule for loops, with the invariant `I` -/
theorem triple_count {body : ℕ → R → Prog A R} {I : R → Multiset ρ → Prop} {i j : ℕ} {r : R}
    (hbody : ∀ i r n, I r n → L.Triple n (body i r) I) (h : I r m) : L.Triple m (Prog.count body j i r) I := by
  induction j generalizing i r m with
  | zero => exact L.triple_pure h
  | succ j ih => exact L.triple_bind (hbody i r m h) fun _ _ h => ih h

theorem triple_each {α : Type*} {body : α → R → Prog A R} {I : R → Multiset ρ → Prop} {xs : List α} {r : R}
    (hbody : ∀ x ∈ xs, ∀ r n, I r n → L.Triple n (body x r) I) (h : I r m) : L.Triple m (Prog.each body xs r) I := by
  induction xs generalizing r m with
  | nil => exact L.triple_pure h
  | cons x xs ih =>
    refine L.triple_bind (hbody x List.mem_cons_self r m h) fun _ _ h => ?_
    exact ih (fun x hx => hbody x (List.mem_cons_of_mem _ hx)) h

end Ledger

end Hodgepodge.Core
