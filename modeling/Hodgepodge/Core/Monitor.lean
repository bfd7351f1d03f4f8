/-
Mutexes and condition variables. An activity locks its mutex, runs its section, and either sleeps on a condition
variable (the predicate it waits for is false; the mutex is released) or changes the shared state, notifies condition
variables and leaves with a result. A sleeper that is woken, by a notification or spuriously, queues for the mutex
again and re-runs its section, which re-evaluates the predicate. Only the owner of a mutex runs a section that locks
it, so a section is one operation; taking the mutex and running the section are two, and any other thread may move
between them.

`sec a w sh` is the section of activity `a` on the shared state `sh`; `w` says that the thread comes from a wait, so
that what stands before the wait is not run twice.

- `Move`: the inversion of every operation.
- `Move.owned`: a mutex is owned by exactly the thread that runs a section on it.
- `Move.sleeps`: the rule for lost wake-ups. If a section sleeps only when `W` holds of it, and every section that
  makes a sleeper's `W` false notifies the condition variable it sleeps on, then `W` holds of every sleeper.
- `Move.replay`: the sections that have left, run one after another, give the shared state.
- `Move.follows`, `Move.followed`: if a thread starts only what it is permitted to start after what it has completed,
  every activity in progress and every completed one was permitted.
-/
import Mathlib.Data.Fintype.Defs
import Mathlib.Logic.Function.Basic
import Mathlib.Tactic.Common
import Hodgepodge.Core.Lts

namespace Hodgepodge.Core

open Function

/-- what a section does once it holds the mutex -/
inductive Sec (κ σ ρ : Type*) where
  | wait (c : κ)
  /-- `wake c`: every sleeper on `c` is notified -/
  | leave (sh : σ) (wake : κ → Bool) (r : ρ)

/-- the mutex and the section of every activity -/
structure Monitor (M κ A σ ρ : Type*) where
  mon : A → M
  sec : A → Bool → σ → Sec κ σ ρ

/-- where a thread is; the Bool of `entry` and `held`: it comes from a wait -/
inductive Ph (κ A : Type*) where
  | out
  | entry (a : A) (w : Bool)
  | held (a : A) (w : Bool)
  | asleep (a : A) (c : κ)
deriving DecidableEq

/-- the activity a thread is in -/
def Ph.act {κ A : Type*} : Ph κ A → Option A
  | .out => none
  | .entry a _ | .held a _ | .asleep a _ => some a

@[simp] theorem Ph.act_eq_none {κ A : Type*} {p : Ph κ A} : p.act = none ↔ p = .out := by
  cases p <;> simp [Ph.act]

/-- asleep on `c` -/
def Ph.sleepsOn {κ A : Type*} [DecidableEq κ] (c : κ) : Ph κ A → Bool
  | .asleep _ d => d == c
  | _ => false

structure Cfg (ι M κ A σ ρ : Type*) where
  sh : σ
  owner : M → Option ι
  ph : ι → Ph κ A
  /-- the sections that have left, in order: thread, activity, result -/
  hist : List (ι × A × ρ)

namespace Monitor

variable {ι M κ A σ ρ : Type*}

/-! ## Phases under a notification -/

/-- the sleepers on the chosen condition variables queue for their mutex -/
def wakeAll (wake : κ → Bool) (ph : ι → Ph κ A) (t : ι) : Ph κ A :=
  match ph t with
  | .asleep a c => if wake c then .entry a true else .asleep a c
  | p => p

theorem wakeAll_cases (f : κ → Bool) (ph : ι → Ph κ A) (t : ι) :
    wakeAll f ph t = ph t ∨ ∃ a c, ph t = .asleep a c ∧ f c = true ∧ wakeAll f ph t = .entry a true := by
  unfold wakeAll
  split
  · rename_i a c hp
    split
    · rename_i hf; exact Or.inr ⟨a, c, hp, hf, rfl⟩
    · exact Or.inl hp.symm
  · exact Or.inl rfl

theorem wakeAll_asleep {f : κ → Bool} {ph : ι → Ph κ A} {t : ι} {a : A} {c : κ} :
    wakeAll f ph t = .asleep a c ↔ ph t = .asleep a c ∧ f c = false := by
  unfold wakeAll
  split
  · rename_i b d hp
    rw [hp]
    split
    · rename_i hf
      simp only [reduceCtorEq, Ph.asleep.injEq, false_iff, not_and, Bool.not_eq_false, and_imp]
      rintro rfl rfl; exact hf
    · rename_i hf
      simp only [Ph.asleep.injEq, iff_self_and, and_imp]
      rintro rfl rfl; simpa using hf
  · rename_i hp
    exact ⟨fun h => absurd h (hp a c), fun h => absurd h.1 (hp a c)⟩

theorem wakeAll_held {f : κ → Bool} {ph : ι → Ph κ A} {t : ι} {a : A} {w : Bool} :
    wakeAll f ph t = .held a w ↔ ph t = .held a w := by
  unfold wakeAll
  split
  · rename_i hp; split <;> simp [hp]
  · rfl

theorem wakeAll_act (f : κ → Bool) (ph : ι → Ph κ A) (t : ι) : (wakeAll f ph t).act = (ph t).act := by
  rcases wakeAll_cases f ph t with h | ⟨a, c, h, -, h'⟩
  · rw [h]
  · rw [h, h']; rfl

theorem wakeAll_sleepsOn [DecidableEq κ] (f : κ → Bool) (ph : ι → Ph κ A) (t : ι) (c : κ) :
    (wakeAll f ph t).sleepsOn c = ((ph t).sleepsOn c && !f c) := by
  unfold wakeAll
  split
  · rename_i a d hp
    rw [hp]
    by_cases hd : d = c
    · subst hd; cases h : f d <;> simp [Ph.sleepsOn]
    · split <;> simp [Ph.sleepsOn, hd]
  · rename_i hp
    have : (ph t).sleepsOn c = false := by
      cases hq : ph t with
      | asleep a d => exact absurd hq (hp a d)
      | _ => rfl
    simp [this]

/-! ## Operations -/

variable [DecidableEq ι]

/-- to queue for the mutex, to get it, to sleep and to wake up is not a change of activity -/
theorem act_update {ph : ι → Ph κ A} {t : ι} {p : Ph κ A} (h : p.act = (ph t).act) (u : ι) :
    (update ph t p u).act = (ph u).act := by
  by_cases hu : u = t
  · subst hu; rw [update_self, h]
  · rw [update_of_ne hu]

def call (s : Cfg ι M κ A σ ρ) (t : ι) (a : A) : Option (Cfg ι M κ A σ ρ) :=
  match s.ph t with
  | .out => some { s with ph := update s.ph t (.entry a false) }
  | _ => none

/-- a sleeper stops waiting -/
def wake (s : Cfg ι M κ A σ ρ) (t : ι) : Option (Cfg ι M κ A σ ρ) :=
  match s.ph t with
  | .asleep a _ => some { s with ph := update s.ph t (.entry a true) }
  | _ => none

/-- a notify_all issued outside the section -/
def notifyAll [DecidableEq κ] (s : Cfg ι M κ A σ ρ) (c : κ) : Cfg ι M κ A σ ρ :=
  { s with ph := wakeAll (· == c) s.ph }

/-- a notify_one issued outside the section: it wakes one sleeper on `c`, and nobody only if there is none -/
def notifyOne [DecidableEq κ] [Fintype ι] (s : Cfg ι M κ A σ ρ) (c : κ) :
    Option ι → Option (Cfg ι M κ A σ ρ)
  | some t => if (s.ph t).sleepsOn c then wake s t else none
  | none => if ∀ t, (s.ph t).sleepsOn c = false then some s else none

theorem call_eq {s s' : Cfg ι M κ A σ ρ} {t : ι} {a : A} (h : call s t a = some s') :
    s.ph t = .out ∧ s' = { s with ph := update s.ph t (.entry a false) } := by
  unfold call at h
  split at h
  · rename_i hp; exact ⟨hp, by simpa using h.symm⟩
  · cases h

theorem wake_eq {s s' : Cfg ι M κ A σ ρ} {t : ι} (h : wake s t = some s') :
    ∃ a c, s.ph t = .asleep a c ∧ s' = { s with ph := update s.ph t (.entry a true) } := by
  unfold wake at h
  split at h
  · rename_i a c hp; exact ⟨a, c, hp, by simpa using h.symm⟩
  · cases h

theorem notifyOne_eq [DecidableEq κ] [Fintype ι] {s s' : Cfg ι M κ A σ ρ} {c : κ} {t : ι}
    (h : notifyOne s c (some t) = some s') :
    ∃ a, s.ph t = .asleep a c ∧ s' = { s with ph := update s.ph t (.entry a true) } := by
  simp only [notifyOne] at h
  split_ifs at h with ht
  obtain ⟨a, d, hp, rfl⟩ := wake_eq h
  obtain rfl : d = c := by simpa [hp, Ph.sleepsOn] using ht
  exact ⟨a, hp, rfl⟩

theorem notifyNobody_eq [DecidableEq κ] [Fintype ι] {s s' : Cfg ι M κ A σ ρ} {c : κ}
    (h : notifyOne s c none = some s') : (∀ t, (s.ph t).sleepsOn c = false) ∧ s' = s := by
  simp only [notifyOne] at h
  split_ifs at h with hn
  exact ⟨hn, by simpa using h.symm⟩

/-- a notify_one always has somebody to wake, or nobody to wake -/
theorem notifyOne_isSome [DecidableEq κ] [Fintype ι] (s : Cfg ι M κ A σ ρ) (c : κ) : ∃ t, (notifyOne s c t).isSome := by
  by_cases h : ∀ t, (s.ph t).sleepsOn c = false
  · exact ⟨none, by simp [notifyOne, h]⟩
  · obtain ⟨t, ht⟩ := not_forall.1 h
    refine ⟨some t, ?_⟩
    cases hp : s.ph t <;> simp_all [notifyOne, wake, Ph.sleepsOn]

variable [DecidableEq M]

def lock (X : Monitor M κ A σ ρ) (s : Cfg ι M κ A σ ρ) (t : ι) : Option (Cfg ι M κ A σ ρ) :=
  match s.ph t with
  | .entry a w =>
    if (s.owner (X.mon a)).isNone then
      some { s with owner := update s.owner (X.mon a) (some t), ph := update s.ph t (.held a w) }
    else none
  | _ => none

/-- the section of a thread that holds its mutex -/
def exec (X : Monitor M κ A σ ρ) (s : Cfg ι M κ A σ ρ) (t : ι) : Option (Cfg ι M κ A σ ρ) :=
  match s.ph t with
  | .held a w =>
    match X.sec a w s.sh with
    | .wait c => some { s with owner := update s.owner (X.mon a) none, ph := update s.ph t (.asleep a c) }
    | .leave sh wake r =>
      some ⟨sh, update s.owner (X.mon a) none, update (wakeAll wake s.ph) t .out, s.hist ++ [(t, a, r)]⟩
  | _ => none

/-- the activity and result with which `t` leaves if it runs its section now -/
def result (X : Monitor M κ A σ ρ) (s : Cfg ι M κ A σ ρ) (t : ι) : Option (A × ρ) :=
  match s.ph t with
  | .held a w =>
    match X.sec a w s.sh with
    | .wait _ => none
    | .leave _ _ r => some (a, r)
  | _ => none

/-! ## Inversion -/

/-- what one operation does to a configuration -/
inductive Move (X : Monitor M κ A σ ρ) (s : Cfg ι M κ A σ ρ) : Cfg ι M κ A σ ρ → Prop
  | call {t a} (h : s.ph t = .out) : Move X s { s with ph := update s.ph t (.entry a false) }
  | lock {t a w} (h : s.ph t = .entry a w) (ho : s.owner (X.mon a) = none) :
      Move X s { s with owner := update s.owner (X.mon a) (some t), ph := update s.ph t (.held a w) }
  | sleep {t a w c} (h : s.ph t = .held a w) (hs : X.sec a w s.sh = .wait c) :
      Move X s { s with owner := update s.owner (X.mon a) none, ph := update s.ph t (.asleep a c) }
  | leave {t a w sh wake r} (h : s.ph t = .held a w) (hs : X.sec a w s.sh = .leave sh wake r) :
      Move X s ⟨sh, update s.owner (X.mon a) none, update (wakeAll wake s.ph) t .out, s.hist ++ [(t, a, r)]⟩
  | wake {t a c} (h : s.ph t = .asleep a c) : Move X s { s with ph := update s.ph t (.entry a true) }
  | wakeAll (f : κ → Bool) : Move X s { s with ph := Monitor.wakeAll f s.ph }

theorem lock_eq {X : Monitor M κ A σ ρ} {s s' : Cfg ι M κ A σ ρ} {t : ι} (h : lock X s t = some s') :
    ∃ a w, s.ph t = .entry a w ∧ s.owner (X.mon a) = none ∧
      s' = { s with owner := update s.owner (X.mon a) (some t), ph := update s.ph t (.held a w) } := by
  unfold lock at h
  split at h
  · rename_i a w hp
    split at h
    · rename_i ho; exact ⟨a, w, hp, by simpa using ho, by simpa using h.symm⟩
    · cases h
  · cases h

theorem exec_eq {X : Monitor M κ A σ ρ} {s s' : Cfg ι M κ A σ ρ} {t : ι} (h : exec X s t = some s') :
    ∃ a w, s.ph t = .held a w ∧
      ((∃ c, X.sec a w s.sh = .wait c ∧ result X s t = none ∧
          s' = { s with owner := update s.owner (X.mon a) none, ph := update s.ph t (.asleep a c) }) ∨
        ∃ sh wake r, X.sec a w s.sh = .leave sh wake r ∧ result X s t = some (a, r) ∧
          s' = ⟨sh, update s.owner (X.mon a) none, update (wakeAll wake s.ph) t .out, s.hist ++ [(t, a, r)]⟩) := by
  unfold exec at h
  split at h
  · rename_i a w hp
    refine ⟨a, w, hp, ?_⟩
    split at h
    · rename_i c hs; exact Or.inl ⟨c, hs, by simp [result, hp, hs], by simpa using h.symm⟩
    · rename_i sh wk r hs; exact Or.inr ⟨sh, wk, r, hs, by simp [result, hp, hs], by simpa using h.symm⟩
  · cases h

theorem call_move {X : Monitor M κ A σ ρ} {s s' : Cfg ι M κ A σ ρ} {t : ι} {a : A} (h : call s t a = some s') :
    Move X s s' := by
  obtain ⟨hp, rfl⟩ := call_eq h
  exact .call hp

theorem lock_move {X : Monitor M κ A σ ρ} {s s' : Cfg ι M κ A σ ρ} {t : ι} (h : lock X s t = some s') :
    Move X s s' := by
  obtain ⟨a, w, hp, ho, rfl⟩ := lock_eq h
  exact .lock hp ho

theorem exec_move {X : Monitor M κ A σ ρ} {s s' : Cfg ι M κ A σ ρ} {t : ι} (h : exec X s t = some s') :
    Move X s s' := by
  obtain ⟨a, w, hp, ⟨c, hs, -, rfl⟩ | ⟨sh, wk, r, hs, -, rfl⟩⟩ := exec_eq h
  · exact .sleep hp hs
  · exact .leave hp hs

theorem wake_move {X : Monitor M κ A σ ρ} {s s' : Cfg ι M κ A σ ρ} {t : ι} (h : wake s t = some s') :
    Move X s s' := by
  obtain ⟨a, c, hp, rfl⟩ := wake_eq h
  exact .wake hp

/-! ## Mutual exclusion -/

/-- a mutex is owned by exactly the thread that runs a section on it -/
def Owned (X : Monitor M κ A σ ρ) (s : Cfg ι M κ A σ ρ) : Prop :=
  ∀ m t, s.owner m = some t ↔ ∃ a w, s.ph t = .held a w ∧ X.mon a = m

variable {X : Monitor M κ A σ ρ} {s s' : Cfg ι M κ A σ ρ}

omit [DecidableEq M] in
/-- a thread outside every section stays outside -/
theorem Owned.same (ho : Owned X s) {t : ι} {p : Ph κ A} (hp : ∀ b v, p ≠ .held b v) (ht : ∀ b v, s.ph t ≠ .held b v)
    (m : M) (u : ι) : s.owner m = some u ↔ ∃ b v, update s.ph t p u = .held b v ∧ X.mon b = m := by
  by_cases hu : u = t
  · subst hu; rw [ho]; simp [hp, ht]
  · rw [update_of_ne hu]; exact ho m u

/-- the owner leaves its section and releases the mutex -/
theorem Owned.release (ho : Owned X s) {t : ι} {a : A} {w : Bool} {p : Ph κ A} {ph : ι → Ph κ A}
    (ht : s.ph t = .held a w) (hp : ∀ b v, p ≠ .held b v) (hph : ∀ u b v, ph u = .held b v ↔ s.ph u = .held b v)
    (m : M) (u : ι) :
    update s.owner (X.mon a) none m = some u ↔ ∃ b v, update ph t p u = .held b v ∧ X.mon b = m := by
  have hown : s.owner (X.mon a) = some t := (ho _ _).2 ⟨a, w, ht, rfl⟩
  by_cases hu : u = t
  · subst hu
    simp only [update_self, hp, false_and, exists_false, iff_false]
    by_cases hm : m = X.mon a
    · simp [hm]
    · rw [update_of_ne hm]
      intro hmu
      obtain ⟨b, v, hb, rfl⟩ := (ho _ _).1 hmu
      rw [ht] at hb
      simp only [Ph.held.injEq] at hb
      exact hm (by rw [hb.1])
  · rw [update_of_ne hu]
    simp only [hph]
    by_cases hm : m = X.mon a
    · subst hm
      simp only [update_self, reduceCtorEq, false_iff]
      intro hx
      rw [← ho, hown] at hx
      exact hu (by simpa using hx.symm)
    · rw [update_of_ne hm]; exact ho m u

/-- a thread takes a free mutex and enters its section -/
theorem Owned.acquire (ho : Owned X s) {t : ι} {a : A} {w : Bool} (ht : s.ph t = .entry a w)
    (hn : s.owner (X.mon a) = none) (m : M) (u : ι) :
    update s.owner (X.mon a) (some t) m = some u ↔
      ∃ b v, update s.ph t (.held a w) u = .held b v ∧ X.mon b = m := by
  by_cases hu : u = t
  · subst hu
    by_cases hm : m = X.mon a
    · subst hm; simp
    · rw [update_of_ne hm, ho]
      simp only [ht, reduceCtorEq, false_and, exists_false, update_self, Ph.held.injEq, false_iff, not_exists,
        not_and, and_imp]
      rintro b v rfl - hb; exact hm hb.symm
  · rw [update_of_ne hu]
    by_cases hm : m = X.mon a
    · subst hm
      simp only [update_self, Option.some.injEq]
      rw [← ho, hn]
      simp [Ne.symm hu]
    · rw [update_of_ne hm]; exact ho m u

theorem Move.owned (h : Move X s s') (ho : Owned X s) : Owned X s' := by
  cases h with
  | call h => exact ho.same (by simp) (by simp [h])
  | wake h => exact ho.same (by simp) (by simp [h])
  | wakeAll f =>
    intro m u
    simp only [wakeAll_held]
    exact ho m u
  | sleep h _ => exact ho.release h (by simp) (fun _ _ _ => Iff.rfl)
  | leave h _ => exact ho.release h (by simp) (fun _ _ _ => wakeAll_held)
  | lock h hn => exact ho.acquire h hn

/-- a thread that runs a section can finish it -/
theorem exec_isSome {t : ι} {a : A} {w : Bool} (h : s.ph t = .held a w) : (exec X s t).isSome := by
  unfold exec
  rw [h]
  cases hs : X.sec a w s.sh <;> simp [hs]

theorem lock_isSome {t : ι} {a : A} {w : Bool} (h : s.ph t = .entry a w) (ho : s.owner (X.mon a) = none) :
    (lock X s t).isSome := by
  unfold lock
  rw [h]
  simp [ho]

/-! ## Lost wake-ups -/

/-- `W a c sh` holds of every sleeper: thread asleep in activity `a` on `c` -/
def Sleeps (W : A → κ → σ → Prop) (s : Cfg ι M κ A σ ρ) : Prop := ∀ t a c, s.ph t = .asleep a c → W a c s.sh

/-- **No lost wake-up.** A section sleeps only when `W` holds of it, and a section that leaves keeps `W` of every other
sleeper that it does not notify. -/
theorem Move.sleeps {W : A → κ → σ → Prop} (h : Move X s s')
    (hwait : ∀ a w sh c, X.sec a w sh = .wait c → W a c sh)
    (hkeep : ∀ t a w sh wake r, s.ph t = .held a w → X.sec a w s.sh = .leave sh wake r →
      s'.hist = s.hist ++ [(t, a, r)] → ∀ u b c, s.ph u = .asleep b c → W b c s.sh → wake c = true ∨ W b c sh)
    (hs : Sleeps W s) : Sleeps W s' := by
  have same : ∀ {t} {p : Ph κ A}, (∀ b c, p = .asleep b c → W b c s.sh) →
      ∀ u b c, update s.ph t p u = .asleep b c → W b c s.sh := by
    intro t p hp u b c hu
    by_cases hut : u = t
    · subst hut; rw [update_self] at hu; exact hp b c hu
    · rw [update_of_ne hut] at hu; exact hs u b c hu
  cases h with
  | call h => exact same (by simp)
  | lock h _ => exact same (by simp)
  | wake h => exact same (by simp)
  | wakeAll f => exact fun u b c hu => hs u b c (wakeAll_asleep.1 hu).1
  | @sleep t a w c h hsec =>
    refine same fun b d hbd => ?_
    simp only [Ph.asleep.injEq] at hbd
    obtain ⟨rfl, rfl⟩ := hbd
    exact hwait a w s.sh c hsec
  | @leave t a w sh wake r h hsec =>
    intro u b c hu
    dsimp only at hu
    by_cases hut : u = t
    · subst hut; simp at hu
    · rw [update_of_ne hut] at hu
      obtain ⟨hu, hc⟩ := wakeAll_asleep.1 hu
      rcases hkeep t a w sh wake r h hsec rfl u b c hu (hs u b c hu) with hw | hw
      · rw [hc] at hw; cases hw
      · exact hw

/-! ## The history -/

/-- the sections of the history, run one after another from `sh0`, end in `sh` -/
inductive Replay (X : Monitor M κ A σ ρ) (sh0 : σ) : List (ι × A × ρ) → σ → Prop
  | nil : Replay X sh0 [] sh0
  | snoc {h sh t a w sh' wake r} (hr : Replay X sh0 h sh) (hs : X.sec a w sh = .leave sh' wake r) :
      Replay X sh0 (h ++ [(t, a, r)]) sh'

/-- **Sections are atomic.** The shared state is what the completed sections give in the order they left. -/
theorem Move.replay {sh0 : σ} (h : Move X s s') (hr : Replay X sh0 s.hist s.sh) : Replay X sh0 s'.hist s'.sh := by
  cases h with
  | leave _ hs => exact hr.snoc hs
  | _ => exact hr

/-- what `t` has completed -/
def past (t : ι) (h : List (ι × A × ρ)) : List (A × ρ) := (h.filter (·.1 = t)).map Prod.snd

theorem past_snoc (t u : ι) (h : List (ι × A × ρ)) (e : A × ρ) :
    past t (h ++ [(u, e)]) = if u = t then past t h ++ [e] else past t h := by
  by_cases hu : u = t <;> simp [past, List.filter_append, hu]

/-- every activity in progress is one that its thread was permitted to start -/
def Follows (P : ι → List (A × ρ) → A → Prop) (s : Cfg ι M κ A σ ρ) : Prop :=
  ∀ t a, (s.ph t).act = some a → P t (past t s.hist) a

theorem Move.follows {P : ι → List (A × ρ) → A → Prop} (h : Move X s s')
    (hcall : ∀ t a, s.ph t = .out → s'.ph t = .entry a false → P t (past t s.hist) a) (hf : Follows P s) :
    Follows P s' := by
  have same : ∀ {t} {p : Ph κ A}, (∀ a, p.act = some a → P t (past t s.hist) a) →
      ∀ u b, (update s.ph t p u).act = some b → P u (past u s.hist) b := by
    intro t p hp u b hu
    by_cases hut : u = t
    · subst hut; rw [update_self] at hu; exact hp b hu
    · rw [update_of_ne hut] at hu; exact hf u b hu
  have busy : ∀ {t} {q p : Ph κ A}, s.ph t = q → p.act = q.act → ∀ b, p.act = some b → P t (past t s.hist) b := by
    intro t q p hq hp b hb
    exact hf t b (by rw [hq, ← hp, hb])
  cases h with
  | @call t a h =>
    refine same fun b hb => hcall t b h ?_
    obtain rfl : a = b := by simpa [Ph.act] using hb
    simp
  | lock h _ => exact same (busy h rfl)
  | sleep h _ => exact same (busy h rfl)
  | wake h => exact same (busy h rfl)
  | wakeAll f =>
    intro u b hu
    rw [wakeAll_act] at hu
    exact hf u b hu
  | @leave t a w sh wk r h _ =>
    intro u b hu
    dsimp only at hu ⊢
    by_cases hut : u = t
    · subst hut; simp [Ph.act] at hu
    · rw [update_of_ne hut, wakeAll_act] at hu
      simp only [past_snoc, Ne.symm hut, if_false]
      exact hf u b hu

/-- every completed activity was one that its thread was permitted to start -/
def Followed (P : ι → List (A × ρ) → A → Prop) (h : List (ι × A × ρ)) : Prop :=
  ∀ h1 h2 t a r, h = h1 ++ (t, a, r) :: h2 → P t (past t h1) a

theorem Followed.snoc {P : ι → List (A × ρ) → A → Prop} {h : List (ι × A × ρ)} {t : ι} {a : A} {r : ρ}
    (hd : Followed P h) (ha : P t (past t h) a) : Followed P (h ++ [(t, a, r)]) := by
  intro h1 h2 u b v hh
  rcases snoc_eq_append_cons hh with ⟨-, rfl, he⟩ | ⟨h3, -, h0⟩
  · cases he; exact ha
  · exact hd h1 h3 u b v h0

theorem Followed.of_snoc {P : ι → List (A × ρ) → A → Prop} {h : List (ι × A × ρ)} {t : ι} {a : A} {r : ρ}
    (hd : Followed P (h ++ [(t, a, r)])) : Followed P h ∧ P t (past t h) a :=
  ⟨fun h1 h2 u b v hh => hd h1 (h2 ++ [(t, a, r)]) u b v (by simp [hh]), hd h [] t a r rfl⟩

theorem Move.followed {P : ι → List (A × ρ) → A → Prop} (h : Move X s s') (hf : Follows P s)
    (hd : Followed P s.hist) : Followed P s'.hist := by
  cases h with
  | @leave t a w _ _ _ h _ => exact hd.snoc (hf t a (by rw [h]; rfl))
  | _ => exact hd

/-! ## Threads that do nothing but start activities -/

inductive Op (ι A : Type*) where
  | call (t : ι) (a : A)
  | lock (t : ι)
  | exec (t : ι)
  /-- a wake-up without a notification -/
  | spurious (t : ι)
deriving DecidableEq

/-- all threads start outside; every thread starts any activity at any time -/
def lts (ι : Type*) [DecidableEq ι] (X : Monitor M κ A σ ρ) (sh0 : σ) : Lts (Cfg ι M κ A σ ρ) (Op ι A) where
  init := ⟨sh0, fun _ => none, fun _ => .out, []⟩
  step s
    | .call t a => call s t a
    | .lock t => lock X s t
    | .exec t => exec X s t
    | .spurious t => wake s t

theorem step_move {sh0 : σ} {o : Op ι A} (h : (lts ι X sh0).step s o = some s') : Move X s s' := by
  cases o with
  | call t a => exact call_move h
  | lock t => exact lock_move h
  | exec t => exact exec_move h
  | spurious t => exact wake_move h

/-- the history grows only when a section leaves -/
theorem step_hist {sh0 : σ} {o : Op ι A} (h : (lts ι X sh0).step s o = some s') :
    s'.hist = s.hist ∨ ∃ t a r, o = .exec t ∧ result X s t = some (a, r) ∧ s'.hist = s.hist ++ [(t, a, r)] := by
  cases o with
  | call t a => obtain ⟨-, rfl⟩ := call_eq h; exact Or.inl rfl
  | lock t => obtain ⟨a, w, -, -, rfl⟩ := lock_eq h; exact Or.inl rfl
  | spurious t => obtain ⟨a, c, -, rfl⟩ := wake_eq h; exact Or.inl rfl
  | exec t =>
    obtain ⟨a, w, -, ⟨c, -, -, rfl⟩ | ⟨sh, wk, r, -, hres, rfl⟩⟩ := exec_eq h
    · exact Or.inl rfl
    · exact Or.inr ⟨t, a, r, rfl, hres, rfl⟩

/-- **The moment of an event.** Every event of the history is one section of the run, which found the history as it
was before the event. -/
theorem moment {sh0 : σ} {ops : List (Op ι A)} (hr : (lts ι X sh0).run (lts ι X sh0).init ops = some s)
    {h1 h2 : List (ι × A × ρ)} {e : ι × A × ρ} (hh : s.hist = h1 ++ e :: h2) :
    ∃ pre post s1, ops = pre ++ .exec e.1 :: post ∧ (lts ι X sh0).run (lts ι X sh0).init pre = some s1 ∧
      s1.hist = h1 ∧ result X s1 e.1 = some e.2 := by
  induction ops using List.reverseRecOn generalizing s h2 with
  | nil =>
    obtain rfl : (lts ι X sh0).init = s := by simpa using hr
    simp [lts] at hh
  | append_singleton ops o ih =>
    obtain ⟨s0, hr0, hs⟩ := (lts ι X sh0).run_snoc.1 hr
    have earlier : (∃ h3, s0.hist = h1 ++ e :: h3) → ∃ pre post s1, ops ++ [o] = pre ++ .exec e.1 :: post ∧
        (lts ι X sh0).run (lts ι X sh0).init pre = some s1 ∧ s1.hist = h1 ∧ result X s1 e.1 = some e.2 := by
      rintro ⟨h3, h0⟩
      obtain ⟨pre, post, s1, rfl, hrest⟩ := ih hr0 h0
      exact ⟨pre, post ++ [o], s1, by simp, hrest⟩
    rcases step_hist hs with h | ⟨t, a, r, rfl, hres, h⟩
    · exact earlier ⟨h2, by rw [← h, hh]⟩
    · rw [hh] at h
      rcases snoc_eq_append_cons h.symm with ⟨-, rfl, rfl⟩ | ⟨h3, -, h0⟩
      · exact ⟨ops, [], s0, rfl, hr0, rfl, hres⟩
      · exact earlier ⟨h3, h0⟩

end Monitor

end Hodgepodge.Core
