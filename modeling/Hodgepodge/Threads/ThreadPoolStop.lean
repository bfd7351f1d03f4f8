/-
Stopping a `ThreadPool`. The predicate that an enqueue waits for, `stop || tasks.size() < work_limits`, becomes true by
a pop and by a stop. A pop notifies `condition_notfull`; `stop_all` and the destructor notify only `condition`. An
enqueue that is asleep on a full queue when `stop` is set stays asleep, although a comment in `enqueue` says that
workers may still enqueue then; if its caller is a worker, the join of that worker does not return.

Results:
- `step_blocked`: while no section sets `stop` over a sleeper, every thread asleep on `condition_notfull` waits rightly.
- `stop_wakes_blocked_enqueues`: in every run in which `stop` is set only while no thread is asleep on the pool's
  `condition_notfull`, no thread is ever asleep there with its predicate true, and none at all once the notifications
  of a stop are out.
- `stop_strands_sleeper`: a thread that is asleep there when `stop` is set still is when they are out.
- `stop_all_hangs`: one worker, limit 1, a task that enqueues into the full queue: stop_all waits for the worker, the
  worker for a notification, and nothing but a spurious wake-up can happen.
-/
import Hodgepodge.Threads.ThreadPool

namespace Hodgepodge.ThreadPool

open Function Hodgepodge.Core Hodgepodge.Core.Monitor

variable {π E : Type*} [DecidableEq π] [DecidableEq E] {cfg : Config π}

/-! ## Sleepers -/

/-- what is true of a sleeper: a worker sleeps on the `condition` of its pool, an enqueue on its `condition_notfull`
with its predicate false -/
def Blocked (cfg : Config π) : Act π → Cv π → (π → Pool) → Prop
  | .fetch p, .condition q, _ => q = p
  | .enqueue p _, .conditionNotfull q, s => q = p ∧ accepts (cfg.workLimits p) (s p) = false
  | _, _, _ => False

theorem blocked_of_wait (a : Act π) (w : Bool) (sh : π → Pool) (c : Cv π)
    (h : (monitor cfg).sec a w sh = .wait c) : Blocked cfg a c sh := by
  cases a with
  | fetch p => obtain ⟨rfl, -, -⟩ := fetch_wait h; exact rfl
  | enqueue p task => obtain ⟨rfl, ha⟩ := enqueue_wait h; exact ⟨rfl, ha⟩
  | stop p clear => cases h

omit [DecidableEq π] in
/-- a section that leaves pool `q` as it was, or keeps its predicate false, keeps its sleepers -/
theorem Blocked.keep {b : Act π} {c : Cv π} {sh sh' : π → Pool} (hb : Blocked cfg b c sh)
    (h : ∀ q, c = .conditionNotfull q → accepts (cfg.workLimits q) (sh q) = false →
      accepts (cfg.workLimits q) (sh' q) = false) : Blocked cfg b c sh' := by
  unfold Blocked at hb ⊢
  split at hb
  · exact hb
  · obtain ⟨rfl, ha⟩ := hb
    exact ⟨rfl, h _ rfl ha⟩
  · exact hb

/-- only a section that sets `stop` makes the predicate of a sleeper true without notifying it -/
theorem blocked_keep {a : Act π} {w : Bool} {sh sh' : π → Pool} {wk : Cv π → Bool} {r : Res}
    (h : (monitor cfg).sec a w sh = .leave sh' wk r) {b : Act π} {c : Cv π} (hb : Blocked cfg b c sh)
    (hstop : ∀ p clear, a = .stop p clear → c ≠ .conditionNotfull p) : wk c = true ∨ Blocked cfg b c sh' := by
  cases a with
  | fetch p =>
    rcases fetch_leave h with ⟨task, tasks, -, rfl, rfl, -⟩ | ⟨-, -, rfl, -⟩
    · by_cases hc : c = .conditionNotfull p
      · exact Or.inl (by simp [hc])
      · refine Or.inr (hb.keep fun q hq ha => ?_)
        have hqp : q ≠ p := fun he => hc (he ▸ hq)
        rwa [update_of_ne hqp]
    · exact Or.inr hb
  | enqueue p task =>
    obtain ⟨rfl, rfl, -⟩ := enqueue_leave h
    refine Or.inr (hb.keep fun q _ ha => ?_)
    by_cases hqp : q = p
    · subst hqp
      simp only [accepts, Bool.or_eq_false_iff, decide_eq_false_iff_not, not_lt] at ha
      simp only [accepts, update_self, List.length_append, List.length_singleton, Bool.or_eq_false_iff,
        decide_eq_false_iff_not, not_lt]
      exact ⟨ha.1, by omega⟩
    · rwa [update_of_ne hqp]
  | stop p clear =>
    obtain ⟨rfl, rfl, -⟩ := stop_leave h
    refine Or.inr (hb.keep fun q hq ha => ?_)
    have hqp : q ≠ p := fun he => hstop p clear rfl (he ▸ hq)
    rwa [update_of_ne hqp]

variable [Fintype π] [Fintype E]

/-- the operation does not set the `stop` of a pool with a thread asleep on its `condition_notfull` -/
def calm (s : St cfg E) : Op cfg E → Bool
  | .exec t =>
    match s.mon.ph t with
    | .held (.stop p _) _ => decide (∀ u, (s.mon.ph u).sleepsOn (.conditionNotfull p) = false)
    | _ => true
  | _ => true

variable {s s' : St cfg E} {o : Op cfg E}

theorem step_blocked (h : Step s o s') (hC : calm s o) (hb : Sleeps (Blocked cfg) s.mon) :
    Sleeps (Blocked cfg) s'.mon := by
  rcases step_mon h with he | hm
  · rwa [he]
  · refine hm.sleeps blocked_of_wait (fun t a w sh wk r hp hs hh u b c hu hbu => ?_) hb
    refine blocked_keep hs hbu fun p clear ha hc => ?_
    -- the section sets the stop of the pool on which `u` sleeps
    obtain rfl := step_hist h hh
    subst ha hc
    simp only [calm, hp, decide_eq_true_eq] at hC
    have := hC u
    simp [hu, Ph.sleepsOn] at this

/-! ## Stop -/

omit [Fintype π] [Fintype E] in
/-- `stop` is never reset -/
theorem step_stop (h : Step s o s') {p : π} (hp : (s.mon.sh p).stop = true) : (s'.mon.sh p).stop = true := by
  cases h with
  | @leave t a w sh wk r hph hs =>
    cases a with
    | fetch q =>
      rcases fetch_leave hs with ⟨task, tasks, -, rfl, -, -⟩ | ⟨-, -, rfl, -⟩
      · by_cases hq : p = q
        · subst hq; simpa using hp
        · simpa [update_of_ne hq] using hp
      · exact hp
    | enqueue q task =>
      obtain ⟨rfl, -, -⟩ := enqueue_leave hs
      by_cases hq : p = q
      · subst hq; simpa using hp
      · simpa [update_of_ne hq] using hp
    | stop q clear =>
      obtain ⟨rfl, -, -⟩ := stop_leave hs
      by_cases hq : p = q
      · subst hq; simp
      · simpa [update_of_ne hq] using hp
  | _ => exact hp

/-- who has notified, or is about to, has set `stop` -/
structure Stopping (s : St cfg E) : Prop where
  notifies : ∀ t p clear, (s.loc t).pt = .notifyAll p clear → (s.mon.sh p).stop = true
  announced : ∀ p, s.announced p = true → (s.mon.sh p).stop = true

omit [Fintype π] [Fintype E] in
theorem step_stopping (h : Step s o s') (hi : Stopping s) : Stopping s' := by
  have other : ∀ {t l}, (∀ p clear, l ≠ .notifyAll p clear) → ∀ u p clear,
      (goto s t l u).pt = .notifyAll p clear → (s.mon.sh p).stop = true := by
    intro t l hl u p clear hu
    by_cases hut : u = t
    · subst hut; simp only [goto, update_self] at hu; exact absurd hu (hl p clear)
    · simp only [goto, update_of_ne hut] at hu; exact hi.notifies u p clear hu
  have hsh := fun p => step_stop h (p := p)
  cases h with
  | @announce t q clear hl =>
    refine ⟨other (by simp), fun p hp => ?_⟩
    by_cases hq : p = q
    · subst hq; exact hi.notifies _ _ _ hl
    · dsimp only at hp
      rw [update_of_ne hq] at hp; exact hi.announced p hp
  | notify _ _ | notifyNobody _ _ | join _ _ _ _ | joined _ _ | await _ _ | resume _ _ =>
    exact ⟨other (by simp), hi.announced⟩
  | @finish t task _ _ =>
    refine ⟨fun u p clear hu => ?_, hi.announced⟩
    by_cases hut : u = t
    · subst hut; simp only [update_self] at hu; exact hi.notifies u p clear hu
    · simp only [update_of_ne hut] at hu; exact hi.notifies u p clear hu
  | @leave t a w sh wk r hph hs =>
    refine ⟨fun u p clear hu => ?_, fun p hp => hsh p (hi.announced p hp)⟩
    by_cases hut : u = t
    · subst hut
      simp only [update_self] at hu
      cases a with
      | fetch q =>
        rcases fetch_leave hs with ⟨task, tasks, -, rfl, -, rfl⟩ | ⟨-, -, rfl, rfl⟩
        · exact hsh p (hi.notifies u p clear hu)
        · cases hu
      | enqueue q task =>
        obtain ⟨-, -, rfl⟩ := enqueue_leave hs
        cases hu
      | stop q clear' =>
        obtain ⟨rfl, -, rfl⟩ := stop_leave hs
        cases hu; simp
    · simp only [update_of_ne hut] at hu
      exact hsh p (hi.notifies u p clear hu)
  | _ => exact ⟨hi.notifies, hi.announced⟩

omit [DecidableEq π] [DecidableEq E] [Fintype π] [Fintype E] in
theorem init_stopping : Stopping (init cfg E) := ⟨fun _ _ _ h => by simp [init] at h, fun _ h => by simp [init] at h⟩

/-- **A stop over no sleepers wakes everybody.** In every run in which `stop` is set only while no thread is asleep on
the pool's `condition_notfull`, in every reachable state: a thread asleep on `condition_notfull` waits with its
predicate false; when a stop_all or a destructor has set `stop` and notified, no thread is asleep there, so no worker
that is to be joined is. -/
theorem stop_wakes_blocked_enqueues (cfg : Config π) (ops : List (Op cfg E)) (s : St cfg E)
    (hC : (pools cfg E).Along (calm · ·) (init cfg E) ops) (hr : (pools cfg E).run (init cfg E) ops = some s) :
    (∀ t a p, s.mon.ph t = .asleep a (.conditionNotfull p) → accepts (cfg.workLimits p) (s.mon.sh p) = false) ∧
      ∀ p, s.announced p = true → (s.mon.sh p).stop = true ∧ ∀ t a, s.mon.ph t ≠ .asleep a (.conditionNotfull p) := by
  have hb : Sleeps (Blocked cfg) s.mon ∧ Stopping s :=
    (pools cfg E).along_inv (I := fun s => Sleeps (Blocked cfg) s.mon ∧ Stopping s)
      (fun _ _ _ hi hC hs => ⟨step_blocked (step_eq hs) hC hi.1, step_stopping (step_eq hs) hi.2⟩)
      ⟨fun _ _ _ h => by simp [init] at h, init_stopping⟩ hC hr
  have right : ∀ t a p, s.mon.ph t = .asleep a (.conditionNotfull p) →
      accepts (cfg.workLimits p) (s.mon.sh p) = false := by
    intro t a p hp
    have h := hb.1 t a _ hp
    cases a with
    | enqueue q task => obtain ⟨rfl, h⟩ := h; exact h
    | _ => exact h.elim
  refine ⟨right, fun p hp => ⟨hb.2.announced p hp, fun t a ht => ?_⟩⟩
  have ha := right t a p ht
  simp [accepts, hb.2.announced p hp] at ha

/-- **A stop over a sleeper strands it.** When `stop` is set over a thread asleep on `condition_notfull`, the thread is
still asleep, with its predicate true, after the notifications. -/
theorem stop_strands_sleeper {s : St cfg E} {t u : Tid cfg E} {p : π} {clear w : Bool} {a : Act π}
    (ht : s.mon.ph t = .held (.stop p clear) w) (hu : s.mon.ph u = .asleep a (.conditionNotfull p)) :
    ∃ s', (pools cfg E).run s [.exec t, .announce t] = some s' ∧ s'.announced p = true ∧
      s'.mon.ph u = .asleep a (.conditionNotfull p) ∧ accepts (cfg.workLimits p) (s'.mon.sh p) = true := by
  have hut : u ≠ t := by
    rintro rfl
    rw [ht] at hu; cases hu
  have hexec : exec (monitor cfg) s.mon t = some ⟨update s.mon.sh p { s.mon.sh p with stop := true },
      update s.mon.owner p none, update (wakeAll (fun _ => false) s.mon.ph) t .out,
      s.mon.hist ++ [(t, .stop p clear, .stopped)]⟩ := by
    simp [exec, ht, monitor, stop]
  have hres : result (monitor cfg) s.mon t = some (.stop p clear, .stopped) := by
    simp [result, ht, monitor, stop]
  refine ⟨_, ((pools cfg E).run_cons).2 ⟨_, by simp only [pools, step, hexec, hres, Option.map_some]; rfl,
    ((pools cfg E).run_cons).2 ⟨_, by simp only [pools, step, after, update_self]; rfl, rfl⟩⟩, ?_, ?_, ?_⟩
  · exact update_self ..
  · simp [notifyAll, wakeAll, update_of_ne hut, hu]
  · simp [notifyAll, accepts]

/-- one pool with one worker and limit 1, one thread outside -/
def oneByOne : Config Unit := ⟨fun _ => 1, fun _ => 1⟩

abbrev worker : Tid oneByOne Unit := .inl ⟨(), ⟨0, by decide⟩⟩

abbrev outer : Tid oneByOne Unit := .inr ()

/-- the worker runs task 0, and task 1 fills the queue -/
def fillOps : List (Op oneByOne Unit) :=
  [.enqueue outer () [], .lock outer, .exec outer, .notify outer none, .fetch () ⟨0, by decide⟩, .lock worker,
    .exec worker, .enqueue outer () [], .lock outer, .exec outer, .notify outer none]

def stopOps : List (Op oneByOne Unit) := [.stop outer () true, .lock outer, .exec outer, .announce outer]

/-- task 0 only runs: the stop finds nobody asleep -/
theorem stop_over_full_queue :
    ∃ s, (pools oneByOne Unit).run (init oneByOne Unit) (fillOps ++ stopOps) = some s ∧
      s.announced () = true ∧ (s.mon.sh ()).stop = true ∧ ∀ t a, s.mon.ph t ≠ .asleep a (.conditionNotfull ()) :=
  ⟨_, rfl, rfl, (stop_wakes_blocked_enqueues oneByOne (fillOps ++ stopOps) _ (by decide) rfl).2 () rfl⟩

/-- task 0 enqueues into the full queue -/
def hangOps : List (Op oneByOne Unit) := fillOps ++ [.enqueue worker () [], .lock worker, .exec worker] ++ stopOps

theorem worker_or_outer : ∀ t : Tid oneByOne Unit, t = worker ∨ t = outer := by decide

/-- a worker asleep in its task, and a stop_all that waits for it: only the worker's spurious wake-up is left -/
theorem only_spurious {s s' : St oneByOne Unit} {o : Op oneByOne Unit} {a : Act Unit} {c : Cv Unit} {task : Task}
    {clear : Bool} (hw : s.mon.ph worker = .asleep a c) (hlw : s.loc worker = ⟨some task, .free⟩)
    (ho : s.mon.ph outer = .out) (hlo : s.loc outer = ⟨none, .join () 0 clear⟩) (hc : s.cleared () = false)
    (h : Step s o s') : o = .spurious worker := by
  have not_outside : ∀ t, outside s t = true → False := by
    intro t ht
    rcases worker_or_outer t with rfl | rfl
    · have := (outside_iff.1 ht).1
      rw [hw] at this; cases this
    · have := (outside_iff.1 ht).2.1
      rw [hlo] at this; cases this
  have job : ∀ t, (s.loc t).pt = .free ∨ (s.loc t).pt = .join () 0 clear := by
    intro t
    rcases worker_or_outer t with rfl | rfl
    · exact Or.inl (by rw [hlw])
    · exact Or.inr (by rw [hlo])
  have phase : ∀ t, s.mon.ph t = .asleep a c ∨ s.mon.ph t = .out := by
    intro t
    rcases worker_or_outer t with rfl | rfl
    · exact Or.inl hw
    · exact Or.inr ho
  cases h with
  | enqueue h _ _ | stop h _ _ | await h _ | finish _ h => exact (not_outside _ h).elim
  | @fetch p i h _ =>
    rcases worker_or_outer (.inl ⟨p, i⟩) with he | he
    · rw [he, hlw] at h; cases h
    · cases he
  | @lock t _ _ h _ | @sleep t _ _ _ h _ | @leave t _ _ _ _ _ h _ =>
    rcases phase t with hp | hp <;> · rw [hp] at h; cases h
  | @notify t _ _ _ _ h _ | @notifyNobody t _ _ h _ | @announce t _ _ h | @resume t _ h _ =>
    rcases job t with hp | hp <;> · rw [hp] at h; cases h
  | @spurious t _ _ h =>
    rcases worker_or_outer t with rfl | rfl
    · rfl
    · rw [ho] at h; cases h
  | @join t p i _ h hi _ hx =>
    rcases job (.inl ⟨p, ⟨i, hi⟩⟩) with hp | hp <;> · rw [hp] at hx; cases hx
  | @joined t p i _ h hi =>
    rcases job t with hp | hp
    · rw [hp] at h; cases h
    · rw [hp] at h; cases h
      exact absurd ⟨by decide, hc⟩ hi

/-- **stop_all hangs.** The stop and its notifications are out, the worker is asleep in enqueue with its predicate
true, and no operation is left but its spurious wake-up: stop_all waits in the join of the worker. -/
theorem stop_all_hangs :
    (∃ s, (pools oneByOne Unit).run (init oneByOne Unit) hangOps = some s ∧ s.announced () = true ∧
      (s.loc outer).pt = .join () 0 true ∧ ∀ o s', step s o = some s' → o = .spurious worker) ∧
    ¬ ∀ ops s, (pools oneByOne Unit).run (init oneByOne Unit) ops = some s → ∀ t a p, s.announced p = true →
      s.mon.ph t = .asleep a (.conditionNotfull p) → accepts (oneByOne.workLimits p) (s.mon.sh p) = false := by
  constructor
  · exact ⟨_, rfl, rfl, rfl, fun o s' h => only_spurious rfl rfl rfl rfl rfl (step_eq h)⟩
  · intro h
    have := h hangOps _ rfl worker (.enqueue () ⟨2, []⟩) () rfl rfl
    cases this

end Hodgepodge.ThreadPool
