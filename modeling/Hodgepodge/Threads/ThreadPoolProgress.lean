/-
A `ThreadPool` that is not stopped does not get stuck. Threads outside enqueue; a task may wait for the futures among
its arguments, which are those of tasks whose enqueue has returned earlier, in any of the pools.

An enqueue notifies one worker after it has released the lock, so a worker may be asleep while the queue holds tasks.
Every such task has a credit: an enqueue that has not notified yet, or a worker of the pool that is on its way to the
queue. A task that waits is waiting for a task that was pushed before it; the first unfinished task waits for nobody.

Results:
- `Inv`, `step_inv`, `run_inv`: what such runs maintain.
- `unfinished_moves`: while an accepted task is unfinished, some thread can take a step.
- `never_stuck`: while an enqueue has not returned or an accepted task is unfinished, some thread can take a step, for
  any number of pools, workers and threads outside, every limit from 1 on, and whoever notify_one wakes.
-/
import Hodgepodge.Threads.ThreadPoolStop

namespace Hodgepodge.ThreadPool

open Function Hodgepodge.Core Hodgepodge.Core.Monitor

variable {π E : Type*} {cfg : Config π}

/-! ## What the threads do -/

/-- tasks do not enqueue, nobody stops a pool, a task waits for futures that it was given -/
def plain [DecidableEq π] (s : St cfg E) : Op cfg E → Bool
  | .enqueue t _ _ => t.isRight
  | .stop _ _ _ => false
  | .await t d =>
    match (s.loc t).job with
    | some task => decide (d ∈ task.futures)
    | none => true
  | _ => true

/-- the tasks that were pushed, in order -/
def ids (s : St cfg E) : List ℕ := (accepted s.mon.hist).map (·.2.id)

/-- what a thread does, by its activity and its place; `acc` are the tasks that were pushed, `tk` the taken ones -/
inductive Doing (acc : List ℕ) (tk : List (π × Task)) : Tid cfg E → Option (Act π) → Loc π → Prop
  | top {p i} : Doing acc tk (.inl ⟨p, i⟩) none ⟨none, .free⟩
  | fetching {p i} : Doing acc tk (.inl ⟨p, i⟩) (some (.fetch p)) ⟨none, .free⟩
  | running {p i task} (hk : (p, task) ∈ tk) : Doing acc tk (.inl ⟨p, i⟩) none ⟨some task, .free⟩
  | awaiting {p i task d} (hk : (p, task) ∈ tk) (hd : d ∈ task.futures) :
      Doing acc tk (.inl ⟨p, i⟩) none ⟨some task, .await d⟩
  | idle {e} : Doing acc tk (.inr e) none ⟨none, .free⟩
  | waiting {e d} : Doing acc tk (.inr e) none ⟨none, .await d⟩
  | enqueuing {e p task} (hf : ∀ d ∈ task.futures, d ∈ acc) :
      Doing acc tk (.inr e) (some (.enqueue p task)) ⟨none, .free⟩
  | notifying {e p d} (hd : d ∈ acc) : Doing acc tk (.inr e) none ⟨none, .notifyOne p d⟩

theorem Doing.mono {acc acc' : List ℕ} {tk tk' : List (π × Task)} (ha : ∀ d ∈ acc, d ∈ acc') (ht : ∀ k ∈ tk, k ∈ tk')
    {t : Tid cfg E} {a : Option (Act π)} {l : Loc π} (h : Doing acc tk t a l) : Doing acc' tk' t a l := by
  cases h with
  | top => exact .top
  | fetching => exact .fetching
  | running hk => exact .running (ht _ hk)
  | awaiting hk hd => exact .awaiting (ht _ hk) hd
  | idle => exact .idle
  | waiting => exact .waiting
  | enqueuing hf => exact .enqueuing fun d hd => ha d (hf d hd)
  | notifying hd => exact .notifying (ha _ hd)

/-! ## Credits -/

section

variable [DecidableEq π]

/-- a credit of pool `p`: a worker of `p` on its way to the queue, or an enqueue that has yet to notify -/
def earns (p : π) (t : Tid cfg E) (ph : Ph (Cv π) (Act π)) (l : Loc π) : Bool :=
  match t with
  | .inl w => decide (w.1 = p) && decide (l = ⟨none, .free⟩) && !ph.sleepsOn (.condition p)
  | .inr _ =>
    match l.pt with
    | .notifyOne q _ => decide (q = p)
    | _ => false

variable [Fintype π] [Fintype E]

def credit (s : St cfg E) (p : π) : Finset (Tid cfg E) :=
  Finset.univ.filter fun t => earns p t (s.mon.ph t) (s.loc t) = true

theorem mem_credit {s : St cfg E} {p : π} {t : Tid cfg E} :
    t ∈ credit s p ↔ earns p t (s.mon.ph t) (s.loc t) = true := by simp [credit]

/-- a worker of `p` is asleep -/
def Sleeper (s : St cfg E) (p : π) : Prop := ∃ t, (s.mon.ph t).sleepsOn (.condition p) = true

/-- while a worker of `p` is asleep, every task in the queue has a credit -/
def Credited (s : St cfg E) (p : π) : Prop := Sleeper s p → (s.mon.sh p).tasks.length ≤ (credit s p).card

/-- no task was added, no sleeper came and no credit went -/
theorem Credited.keep {s s' : St cfg E} {p : π} (h : Credited s p) (hsl : Sleeper s' p → Sleeper s p)
    (hlen : (s'.mon.sh p).tasks.length ≤ (s.mon.sh p).tasks.length)
    (hearn : ∀ t, earns p t (s.mon.ph t) (s.loc t) = true → earns p t (s'.mon.ph t) (s'.loc t) = true) :
    Credited s' p := by
  intro hs
  have hsub : credit s p ⊆ credit s' p := fun t ht => mem_credit.2 (hearn t (mem_credit.1 ht))
  calc (s'.mon.sh p).tasks.length ≤ (s.mon.sh p).tasks.length := hlen
    _ ≤ (credit s p).card := h (hsl hs)
    _ ≤ (credit s' p).card := Finset.card_le_card hsub

end

/-! ## The invariant -/

variable [DecidableEq π] [Fintype π] [Fintype E]

structure Inv (s : St cfg E) : Prop where
  owned : Owned (monitor cfg) s.mon
  replayed : Replayed s
  blocked : Sleeps (Blocked cfg) s.mon
  opened : ∀ p, (s.mon.sh p).stop = false
  doing : ∀ t, Doing (ids s) (taken s.mon.hist) t (s.mon.ph t).act (s.loc t)
  returned : ∀ d ∈ s.returned, d ∈ ids s
  /-- a task was given futures of tasks that were pushed before it -/
  before : ∀ l1 p task l2, accepted s.mon.hist = l1 ++ (p, task) :: l2 → ∀ d ∈ task.futures, d ∈ l1.map (·.2.id)
  jobs : ∀ p task, (p, task) ∈ taken s.mon.hist → task.id ∈ s.finished ∨ ∃ t, (s.loc t).job = some task
  credited : ∀ p, Credited s p

variable {s s' : St cfg E} {o : Op cfg E}

theorem init_inv : Inv (init cfg E) where
  owned m t := by simp [init]
  replayed := .nil
  blocked t a c h := by simp [init] at h
  opened p := rfl
  doing t := by
    rcases t with ⟨p, i⟩ | e
    · exact .top
    · exact .idle
  returned d h := by simp [init] at h
  before l1 p task l2 h := by simp [init, accepted] at h
  jobs p task h := by simp [init, taken] at h
  credited p h := by
    obtain ⟨t, ht⟩ := h
    simp [init, Ph.sleepsOn] at ht

/-- a section that leaves in such a run is a pop or a push -/
theorem leave_plain (hi : Inv s) {t : Tid cfg E} {a : Act π} {w : Bool} {sh : π → Pool} {wk : Cv π → Bool} {r : Res}
    (hp : s.mon.ph t = .held a w) (hs : (monitor cfg).sec a w s.mon.sh = .leave sh wk r) :
    (∃ p i task tasks, t = .inl ⟨p, i⟩ ∧ a = .fetch p ∧ s.loc t = ⟨none, .free⟩ ∧
        (s.mon.sh p).tasks = task :: tasks ∧ sh = update s.mon.sh p { s.mon.sh p with tasks := tasks } ∧
        wk = (· == .conditionNotfull p) ∧ r = .task task) ∨
      ∃ e p task, t = .inr e ∧ a = .enqueue p task ∧ s.loc t = ⟨none, .free⟩ ∧ (∀ d ∈ task.futures, d ∈ ids s) ∧
        sh = update s.mon.sh p { s.mon.sh p with tasks := (s.mon.sh p).tasks ++ [task] } ∧
        wk = (fun _ => false) ∧ r = .pushed := by
  have hd := hi.doing t
  rw [hp] at hd
  generalize hl : s.loc t = l at hd
  cases hd with
  | @fetching p i =>
    rcases fetch_leave hs with ⟨task, tasks, ht, hsh, hwk, hr⟩ | ⟨-, hstop, -, -⟩
    · exact Or.inl ⟨p, i, task, tasks, rfl, rfl, rfl, ht, hsh, hwk, hr⟩
    · rw [hi.opened p] at hstop; cases hstop
  | @enqueuing e p task hf =>
    obtain ⟨hsh, hwk, hr⟩ := enqueue_leave hs
    exact Or.inr ⟨e, p, task, rfl, rfl, rfl, hf, hsh, hwk, hr⟩

theorem plain_calm (hi : Inv s) : calm s o = true := by
  unfold calm
  split
  · rename_i t
    split
    · rename_i p clear w hp
      have hd := hi.doing t
      rw [hp] at hd
      cases hd
    · rfl
  · rfl

/-- a thread in its own code -/
theorem outside_doing (hi : Inv s) {t : Tid cfg E} (h : outside s t = true) :
    (∃ p i task, t = .inl ⟨p, i⟩ ∧ s.loc t = ⟨some task, .free⟩ ∧ (p, task) ∈ taken s.mon.hist) ∨
      ∃ e, t = .inr e ∧ s.loc t = ⟨none, .free⟩ := by
  obtain ⟨hp, hf, hj⟩ := outside_iff.1 h
  have hd := hi.doing t
  rw [hp] at hd
  generalize s.loc t = l at hd hf hj
  cases hd with
  | top => simp at hj
  | @running p i task hk => exact Or.inl ⟨p, i, task, rfl, rfl, hk⟩
  | @idle e => exact Or.inr ⟨e, rfl, rfl⟩
  | awaiting _ _ | waiting | notifying _ => cases hf

/-- only a thread outside has a notify_one to make -/
theorem notifier (hi : Inv s) {t : Tid cfg E} {p : π} {d : ℕ} (h : (s.loc t).pt = .notifyOne p d) :
    ∃ e, t = .inr e ∧ s.mon.ph t = .out ∧ s.loc t = ⟨none, .notifyOne p d⟩ ∧ d ∈ ids s := by
  have hd := hi.doing t
  generalize ha : (s.mon.ph t).act = a at hd
  generalize s.loc t = l at hd h ⊢
  cases hd with
  | @notifying e q d' hd =>
    cases h
    exact ⟨e, rfl, Ph.act_eq_none.1 ha, rfl, hd⟩
  | _ => cases h

/-- a worker asleep on `condition` belongs to the pool and has nothing else to do -/
theorem sleeper_worker (hi : Inv s) {t : Tid cfg E} {p : π} {a : Act π} (h : s.mon.ph t = .asleep a (.condition p)) :
    ∃ i, t = .inl ⟨p, i⟩ ∧ s.loc t = ⟨none, .free⟩ := by
  have hb := hi.blocked t a _ h
  have hd := hi.doing t
  rw [h] at hd
  cases a with
  | fetch q =>
    obtain rfl : p = q := hb
    generalize s.loc t = l at hd ⊢
    cases hd with
    | @fetching _ i => exact ⟨i, rfl, rfl⟩
  | _ => exact hb.elim

variable [DecidableEq E]

omit [Fintype π] [Fintype E] in
/-- thread `t` moved; the others are where they were -/
theorem doing_update {s s' : St cfg E} (hi : ∀ u, Doing (ids s) (taken s.mon.hist) u (s.mon.ph u).act (s.loc u))
    (hacc : ∀ d ∈ ids s, d ∈ ids s') (htk : ∀ k ∈ taken s.mon.hist, k ∈ taken s'.mon.hist) (t : Tid cfg E)
    (hother : ∀ u, u ≠ t → (s'.mon.ph u).act = (s.mon.ph u).act ∧ s'.loc u = s.loc u)
    (hnew : Doing (ids s') (taken s'.mon.hist) t (s'.mon.ph t).act (s'.loc t)) :
    ∀ u, Doing (ids s') (taken s'.mon.hist) u (s'.mon.ph u).act (s'.loc u) := by
  intro u
  by_cases hu : u = t
  · subst hu; exact hnew
  · obtain ⟨ha, hl⟩ := hother u hu
    rw [ha, hl]
    exact (hi u).mono hacc htk

theorem step_doing (h : Step s o s') (hC : plain s o) (hi : Inv s) :
    ∀ u, Doing (ids s') (taken s'.mon.hist) u (s'.mon.ph u).act (s'.loc u) := by
  have same : ∀ {t p}, p.act = (s.mon.ph t).act →
      ∀ u, Doing (ids s) (taken s.mon.hist) u (update s.mon.ph t p u).act (s.loc u) := by
    intro t p hp u
    rw [act_update hp]
    exact hi.doing u
  -- `t` goes to `l` without a change of activity
  have move : ∀ {t : Tid cfg E} {l : Loc π}, Doing (ids s) (taken s.mon.hist) t (s.mon.ph t).act l →
      ∀ u, Doing (ids s) (taken s.mon.hist) u (s.mon.ph u).act (update s.loc t l u) := by
    intro t l hnew u
    by_cases hu : u = t
    · subst hu; rw [update_self]; exact hnew
    · rw [update_of_ne hu]; exact hi.doing u
  cases h with
  | @fetch p i hl hp =>
    refine doing_update hi.doing (fun _ => id) (fun _ => id) (.inl ⟨p, i⟩) (fun u hu => ⟨?_, rfl⟩) ?_
    · dsimp only
      rw [update_of_ne hu]
    · dsimp only
      rw [update_self, hl]; exact .fetching
  | @enqueue t p futures ho hf hp =>
    refine doing_update hi.doing (fun _ => id) (fun _ => id) t (fun u hu => ⟨?_, rfl⟩) ?_
    · dsimp only
      rw [update_of_ne hu]
    · dsimp only
      rcases outside_doing hi ho with ⟨p, i, task, rfl, -, -⟩ | ⟨e, rfl, hl⟩
      · cases hC
      · rw [update_self, hl]
        exact .enqueuing fun d hd => hi.returned d (hf d hd)
  | stop _ _ _ => cases hC
  | lock hp _ => exact same (by rw [hp]; rfl)
  | sleep hp _ => exact same (by rw [hp]; rfl)
  | spurious hp => exact same (by rw [hp]; rfl)
  | @leave t a w sh wk r hp hs =>
    rcases leave_plain hi hp hs with ⟨p, i, task, tasks, rfl, rfl, hl, ht, rfl, rfl, rfl⟩ |
      ⟨e, p, task, rfl, rfl, hl, hf, rfl, rfl, rfl⟩
    · refine doing_update hi.doing (by simp [ids]) (fun k hk => by simp [hk]) (.inl ⟨p, i⟩)
        (fun u hu => ⟨?_, update_of_ne hu ..⟩) ?_
      · dsimp only
        rw [update_of_ne hu, wakeAll_act]
      · simp only [update_self, hl, after]
        exact .running (by simp)
    · refine doing_update hi.doing (fun d hd => ?_) (by simp) (.inr e) (fun u hu => ⟨?_, update_of_ne hu ..⟩) ?_
      · simp only [ids, accepted_pushed, List.map_append]
        exact List.mem_append_left _ hd
      · dsimp only
        rw [update_of_ne hu, wakeAll_act]
      · simp only [update_self, hl, after]
        exact .notifying (by simp [ids])
  | @notify t p task u a hl hu =>
    obtain ⟨e, rfl, hp, hlt, -⟩ := notifier hi hl
    intro v
    dsimp only
    rw [act_update (by rw [hu]; rfl)]
    exact move (by rw [hp, hlt]; exact .idle) v
  | @notifyNobody t p task hl _ =>
    obtain ⟨e, rfl, hp, hlt, -⟩ := notifier hi hl
    exact move (by rw [hp, hlt]; exact .idle)
  | @announce t p clear hl | @join t p i clear hl _ _ _ | @joined t p i clear hl _ =>
    -- nobody stops the pool
    have hd := hi.doing t
    generalize (s.mon.ph t).act = b, s.loc t = l at hd hl
    cases hd <;> cases hl
  | @await t d ho _ =>
    have hp := (outside_iff.1 ho).1
    refine move ?_
    rw [hp]
    rcases outside_doing hi ho with ⟨p, i, task, rfl, hl, hk⟩ | ⟨e, rfl, hl⟩
    · rw [hl]
      exact .awaiting hk (by simpa [plain, hl] using hC)
    · rw [hl]; exact .waiting
  | @resume t d hl _ =>
    have hd := hi.doing t
    refine move ?_
    generalize (s.mon.ph t).act = b, s.loc t = l at hd hl ⊢
    cases hd with
    | awaiting hk _ => exact .running hk
    | waiting => exact .idle
    | _ => cases hl
  | @finish t task hl ho =>
    have hp := (outside_iff.1 ho).1
    refine move ?_
    rw [hp]
    rcases outside_doing hi ho with ⟨p, i, task, rfl, hl, hk⟩ | ⟨e, rfl, hl'⟩
    · rw [hl]; exact .top
    · rw [hl'] at hl; cases hl

/-! ## The other parts -/

theorem step_opened (h : Step s o s') (hi : Inv s) (p : π) : (s'.mon.sh p).stop = false := by
  cases h with
  | leave hp hs =>
    rcases leave_plain hi hp hs with ⟨q, i, task, tasks, -, -, -, -, rfl, -, -⟩ |
      ⟨e, q, task, -, -, -, -, rfl, -, -⟩ <;>
    · by_cases hq : p = q
      · subst hq; simpa using hi.opened p
      · simpa [update_of_ne hq] using hi.opened p
  | _ => exact hi.opened p

/-- pushed tasks stay pushed -/
theorem step_ids (h : Step s o s') (hi : Inv s) {d : ℕ} (hd : d ∈ ids s) : d ∈ ids s' := by
  cases h with
  | leave hp hs =>
    rcases leave_plain hi hp hs with ⟨q, i, task, tasks, -, rfl, -, -, -, -, -⟩ |
      ⟨e, q, task, -, rfl, -, -, -, -, rfl⟩
    · simpa [ids] using hd
    · simp only [ids, accepted_pushed, List.map_append]
      exact List.mem_append_left _ hd
  | _ => exact hd

theorem step_returned (h : Step s o s') (hi : Inv s) : ∀ d ∈ s'.returned, d ∈ ids s' := by
  intro d hd
  have hids := fun {d} => step_ids h hi (d := d)
  have notified : ∀ {t p task}, (s.loc t).pt = .notifyOne p task → d ∈ s.returned ++ [task] → d ∈ ids s := by
    intro t p task hl hm
    rcases List.mem_append.1 hm with hm | hm
    · exact hi.returned d hm
    · obtain ⟨e, -, -, -, hk⟩ := notifier hi hl
      rwa [List.mem_singleton.1 hm]
  cases h with
  | notify hl _ | notifyNobody hl _ => exact hids (notified hl hd)
  | _ => exact hids (hi.returned d hd)

theorem step_before (h : Step s o s') (hi : Inv s) : ∀ l1 p task l2, accepted s'.mon.hist = l1 ++ (p, task) :: l2 →
    ∀ d ∈ task.futures, d ∈ l1.map (·.2.id) := by
  cases h with
  | leave hp hs =>
    rcases leave_plain hi hp hs with ⟨q, i, k, tasks, -, rfl, -, -, -, -, -⟩ | ⟨e, q, k, -, rfl, -, hf, -, -, rfl⟩
    · simpa using hi.before
    · intro l1 p task l2 hl d hd
      dsimp only at hl
      rw [accepted_pushed] at hl
      rcases snoc_eq_append_cons hl with ⟨-, rfl, he⟩ | ⟨l3, -, hl⟩
      · cases he; exact hf d hd
      · exact hi.before l1 p task l3 hl d hd
  | _ => exact hi.before

theorem step_jobs (h : Step s o s') (hi : Inv s) : ∀ p task, (p, task) ∈ taken s'.mon.hist →
    task.id ∈ s'.finished ∨ ∃ t, (s'.loc t).job = some task := by
  -- the workers keep their tasks
  have keep : ∀ {l : Tid cfg E → Loc π}, (∀ u, (l u).job = (s.loc u).job) → ∀ p task, (p, task) ∈ taken s.mon.hist →
      task.id ∈ s.finished ∨ ∃ t, (l t).job = some task := by
    intro l hl p task hm
    simpa only [hl] using hi.jobs p task hm
  have place : ∀ (t : Tid cfg E) pt u, (goto s t pt u).job = (s.loc u).job := by
    intro t pt u
    by_cases hu : u = t
    · subst hu; simp [goto]
    · simp [goto, update_of_ne hu]
  cases h with
  | notify _ _ | notifyNobody _ _ | announce _ | join _ _ _ _ | joined _ _ | await _ _ | resume _ _ =>
    exact keep (place _ _)
  | @leave t a w sh wk r hp hs =>
    rcases leave_plain hi hp hs with ⟨q, i, k, tasks, -, rfl, hl, -, -, -, rfl⟩ | ⟨e, q, k, -, rfl, hl, -, -, -, rfl⟩
    · intro p task hm
      dsimp only at hm
      rw [taken_task] at hm
      rcases List.mem_append.1 hm with hm | hm
      · rcases hi.jobs p task hm with hf | ⟨u, hu⟩
        · exact Or.inl hf
        · refine Or.inr ⟨u, ?_⟩
          have hut : u ≠ t := by
            rintro rfl
            rw [hl] at hu; cases hu
          simpa [update_of_ne hut] using hu
      · cases List.mem_singleton.1 hm
        exact Or.inr ⟨t, by simp [after]⟩
    · intro p task hm
      dsimp only at hm
      rw [taken_enqueue] at hm
      refine keep (fun u => ?_) p task hm
      by_cases hu : u = t
      · subst hu; simp [after]
      · simp [update_of_ne hu]
  | @finish t task hl ho =>
    intro p k hm
    rcases hi.jobs p k hm with hf | ⟨u, hu⟩
    · exact Or.inl (List.mem_append_left _ hf)
    · by_cases hut : u = t
      · subst hut
        rw [hl] at hu
        cases hu
        exact Or.inl (by simp)
      · exact Or.inr ⟨u, by simpa [update_of_ne hut] using hu⟩
  | _ => exact hi.jobs

/-! ## The credits -/

omit [Fintype π] [Fintype E] [DecidableEq E] in
theorem earns_congr {p : π} {t : Tid cfg E} {ph ph' : Ph (Cv π) (Act π)} (l : Loc π)
    (h : ph'.sleepsOn (.condition p) = ph.sleepsOn (.condition p)) : earns p t ph' l = earns p t ph l := by
  unfold earns
  rw [h]

omit [DecidableEq E] in
/-- thread `t` moved: it did not fall asleep on the `condition` of `p` and it was no credit of `p`, or still is one -/
theorem Credited.moved {s s' : St cfg E} {p : π} (h : Credited s p) (t : Tid cfg E)
    (hlen : (s'.mon.sh p).tasks.length ≤ (s.mon.sh p).tasks.length)
    (hother : ∀ u, u ≠ t → (s'.mon.ph u).sleepsOn (.condition p) = (s.mon.ph u).sleepsOn (.condition p) ∧
      s'.loc u = s.loc u)
    (hsleep : (s'.mon.ph t).sleepsOn (.condition p) = true → Sleeper s p)
    (hearn : earns p t (s.mon.ph t) (s.loc t) = true → earns p t (s'.mon.ph t) (s'.loc t) = true) :
    Credited s' p := by
  refine h.keep ?_ hlen fun u hu => ?_
  · rintro ⟨u, hu⟩
    by_cases hut : u = t
    · exact hsleep (hut ▸ hu)
    · exact ⟨u, (hother u hut).1 ▸ hu⟩
  · by_cases hut : u = t
    · rw [hut] at hu ⊢; exact hearn hu
    · obtain ⟨hs, hl⟩ := hother u hut
      rwa [hl, earns_congr _ hs]

/-- thread `t` changed its phase only -/
theorem Credited.phase {s s' : St cfg E} {p : π} (h : Credited s p) {t : Tid cfg E} {ph : Ph (Cv π) (Act π)}
    (hsh : s'.mon.sh = s.mon.sh) (hph : s'.mon.ph = update s.mon.ph t ph) (hloc : s'.loc = s.loc)
    (hsleep : ph.sleepsOn (.condition p) = true → Sleeper s p)
    (hearn : earns p t (s.mon.ph t) (s.loc t) = true → earns p t ph (s.loc t) = true) : Credited s' p := by
  refine h.moved t (by rw [hsh]) (fun u hu => ⟨by rw [hph, update_of_ne hu], by rw [hloc]⟩) ?_ ?_
  · rw [hph, update_self]; exact hsleep
  · rw [hph, hloc, update_self]; exact hearn

/-- thread `t` changed its place only -/
theorem Credited.place {s s' : St cfg E} {p : π} (h : Credited s p) {t : Tid cfg E} {l : Loc π} (hmon : s'.mon = s.mon)
    (hloc : s'.loc = update s.loc t l)
    (hearn : earns p t (s.mon.ph t) (s.loc t) = true → earns p t (s.mon.ph t) l = true) : Credited s' p := by
  refine h.moved t (by rw [hmon]) (fun u hu => ⟨by rw [hmon], by rw [hloc, update_of_ne hu]⟩) ?_ ?_
  · rw [hmon]; exact fun hs => ⟨t, hs⟩
  · rw [hmon, hloc, update_self]; exact hearn

/-- a pop takes a task and the credit of the worker that pops -/
theorem Credited.pop {s s' : St cfg E} {p : π} (h : Credited s p) {t : Tid cfg E}
    (ht : earns p t (s.mon.ph t) (s.loc t) = true)
    (hlen : (s'.mon.sh p).tasks.length + 1 = (s.mon.sh p).tasks.length) (hout : s'.mon.ph t = .out)
    (hother : ∀ u, u ≠ t → (s'.mon.ph u).sleepsOn (.condition p) = (s.mon.ph u).sleepsOn (.condition p) ∧
      s'.loc u = s.loc u) : Credited s' p := by
  rintro ⟨u, hu⟩
  have hut : u ≠ t := by
    rintro rfl
    rw [hout] at hu; cases hu
  have hle := h ⟨u, (hother u hut).1 ▸ hu⟩
  have hsub : (credit s p).erase t ⊆ credit s' p := by
    intro v hv
    obtain ⟨hvt, hv⟩ := Finset.mem_erase.1 hv
    obtain ⟨hs, hl⟩ := hother v hvt
    rw [mem_credit, hl, earns_congr _ hs]
    exact mem_credit.1 hv
  have hcard := Finset.card_erase_of_mem (mem_credit.2 ht)
  have hle' := Finset.card_le_card hsub
  omega

/-- a push brings a task and its own credit -/
theorem Credited.push {s s' : St cfg E} {p : π} (h : Credited s p) {t : Tid cfg E}
    (ht : earns p t (s.mon.ph t) (s.loc t) = false) (ht' : earns p t (s'.mon.ph t) (s'.loc t) = true)
    (hlen : (s'.mon.sh p).tasks.length = (s.mon.sh p).tasks.length + 1) (hout : s'.mon.ph t = .out)
    (hother : ∀ u, u ≠ t → (s'.mon.ph u).sleepsOn (.condition p) = (s.mon.ph u).sleepsOn (.condition p) ∧
      s'.loc u = s.loc u) : Credited s' p := by
  rintro ⟨u, hu⟩
  have hut : u ≠ t := by
    rintro rfl
    rw [hout] at hu; cases hu
  have hle := h ⟨u, (hother u hut).1 ▸ hu⟩
  have hsub : insert t (credit s p) ⊆ credit s' p := by
    refine Finset.insert_subset (mem_credit.2 ht') fun v hv => ?_
    by_cases hvt : v = t
    · rw [hvt]; exact mem_credit.2 ht'
    · obtain ⟨hs, hl⟩ := hother v hvt
      rw [mem_credit, hl, earns_congr _ hs]
      exact mem_credit.1 hv
  have hnot : t ∉ credit s p := by rw [mem_credit, ht]; exact Bool.false_ne_true
  have hcard := Finset.card_insert_of_notMem hnot
  have hle' := Finset.card_le_card hsub
  omega

/-- a notify_one passes the credit of the enqueue on to the worker that it wakes -/
theorem Credited.pass {s s' : St cfg E} {p : π} (h : Credited s p) {t u : Tid cfg E}
    (ht : earns p t (s.mon.ph t) (s.loc t) = true) (hu : (s.mon.ph u).sleepsOn (.condition p) = true)
    (hnu : earns p u (s.mon.ph u) (s.loc u) = false) (hu' : earns p u (s'.mon.ph u) (s'.loc u) = true)
    (hlen : (s'.mon.sh p).tasks.length = (s.mon.sh p).tasks.length)
    (hother : ∀ v, v ≠ t → v ≠ u → s'.mon.ph v = s.mon.ph v ∧ s'.loc v = s.loc v) : Credited s' p := by
  intro _
  have hle := h ⟨u, hu⟩
  have hsub : insert u ((credit s p).erase t) ⊆ credit s' p := by
    refine Finset.insert_subset (mem_credit.2 hu') fun v hv => ?_
    obtain ⟨hvt, hv⟩ := Finset.mem_erase.1 hv
    by_cases hvu : v = u
    · rw [hvu]; exact mem_credit.2 hu'
    · obtain ⟨hp, hl⟩ := hother v hvt hvu
      rw [mem_credit, hp, hl]
      exact mem_credit.1 hv
  have hnot : u ∉ (credit s p).erase t := fun hm => by
    have := mem_credit.1 (Finset.mem_of_mem_erase hm)
    rw [hnu] at this; cases this
  have hcard := Finset.card_insert_of_notMem hnot
  have hcard' := Finset.card_erase_add_one (mem_credit.2 ht)
  have hle' := Finset.card_le_card hsub
  omega

/-- a task comes with its credit, and goes with one -/
theorem leave_credited (hi : Inv s) {t : Tid cfg E} {a : Act π} {w : Bool} {sh : π → Pool} {wk : Cv π → Bool} {r : Res}
    (hp : s.mon.ph t = .held a w) (hs : (monitor cfg).sec a w s.mon.sh = .leave sh wk r) (p : π) :
    Credited { s with
      mon := ⟨sh, update s.mon.owner ((monitor cfg).mon a) none, update (wakeAll wk s.mon.ph) t .out,
        s.mon.hist ++ [(t, a, r)]⟩
      loc := update s.loc t (after (s.loc t) (some (a, r))) } p := by
  have hcr := hi.credited p
  rcases leave_plain hi hp hs with ⟨q, i, task, tasks, rfl, rfl, hl, ht, rfl, rfl, rfl⟩ |
    ⟨e, q, task, rfl, rfl, hl, -, rfl, rfl, rfl⟩
  · have hother : ∀ u, u ≠ .inl ⟨q, i⟩ →
        (update (wakeAll (· == .conditionNotfull q) s.mon.ph) (.inl ⟨q, i⟩) .out u).sleepsOn (.condition p) =
          (s.mon.ph u).sleepsOn (.condition p) ∧
        update s.loc (.inl ⟨q, i⟩) (after (s.loc (.inl ⟨q, i⟩)) (some (.fetch q, .task task))) u = s.loc u := by
      intro u hu
      rw [update_of_ne hu, update_of_ne hu, wakeAll_sleepsOn]
      simp
    by_cases hq : p = q
    · subst hq
      exact hcr.pop (by simp [earns, hp, hl, Ph.sleepsOn]) (by simp [ht]) (update_self ..) hother
    · refine hcr.moved _ ?_ hother ?_ ?_
      · simp [update_of_ne hq]
      · simp [Ph.sleepsOn]
      · simp [earns, Ne.symm hq]
  · have hother : ∀ u, u ≠ .inr e →
        (update (wakeAll (fun _ => false) s.mon.ph) (.inr e) .out u).sleepsOn (.condition p) =
          (s.mon.ph u).sleepsOn (.condition p) ∧
        update s.loc (.inr e) (after (s.loc (.inr e)) (some (.enqueue q task, .pushed))) u = s.loc u := by
      intro u hu
      rw [update_of_ne hu, update_of_ne hu, wakeAll_sleepsOn]
      simp
    by_cases hq : p = q
    · subst hq
      exact hcr.push (by simp [earns, hl]) (by simp [earns, after]) (by simp) (update_self ..) hother
    · refine hcr.moved _ ?_ hother ?_ ?_
      · simp [update_of_ne hq]
      · simp [Ph.sleepsOn]
      · simp [earns, hl]

/-- a notify_one hands the credit over, or finds no sleeper of its own pool to hand it to -/
theorem notify_credited (hi : Inv s) {t u : Tid cfg E} {q : π} {task : ℕ} {a : Act π}
    (hl : (s.loc t).pt = .notifyOne q task) (hu : s.mon.ph u = .asleep a (.condition q)) (p : π) :
    Credited { s with
      mon := { s.mon with ph := update s.mon.ph u (.entry a true) }
      loc := goto s t .free
      returned := s.returned ++ [task] } p := by
  have hcr := hi.credited p
  obtain ⟨e, rfl, hp, hlt, -⟩ := notifier hi hl
  obtain ⟨i, rfl, hlu⟩ := sleeper_worker hi hu
  by_cases hq : p = q
  · subst hq
    refine hcr.pass (t := .inr e) (u := .inl ⟨p, i⟩) ?_ ?_ ?_ ?_ rfl fun v hvt hvu => ⟨?_, ?_⟩
    · simp [earns, hlt]
    · simp [hu, Ph.sleepsOn]
    · simp [earns, hu, Ph.sleepsOn]
    · simp [earns, goto, hlu, Ph.sleepsOn]
    · exact update_of_ne hvu ..
    · exact update_of_ne hvt ..
  · have hsl : ∀ v, (update s.mon.ph (.inl ⟨q, i⟩) (.entry a true) v).sleepsOn (.condition p) =
        (s.mon.ph v).sleepsOn (.condition p) := by
      intro v
      by_cases hv : v = .inl ⟨q, i⟩
      · subst hv; simp [hu, Ph.sleepsOn, Ne.symm hq]
      · rw [update_of_ne hv]
    refine hcr.moved (.inr e) le_rfl (fun v hv => ⟨hsl v, update_of_ne hv ..⟩) ?_ ?_
    · exact fun hs => ⟨_, (hsl _) ▸ hs⟩
    · simp [earns, hlt, Ne.symm hq]

theorem step_credited (h : Step s o s') (hC : plain s o) (hi : Inv s) (p : π) : Credited s' p := by
  have hcr := hi.credited p
  cases h with
  | fetch hl hp => exact hcr.phase rfl rfl rfl (by simp [Ph.sleepsOn]) (by simp [earns, hp, Ph.sleepsOn])
  | enqueue ho hf hp => exact hcr.phase rfl rfl rfl (by simp [Ph.sleepsOn]) (by simp [earns, hp, Ph.sleepsOn])
  | stop _ _ _ => cases hC
  | lock hp ho => exact hcr.phase rfl rfl rfl (by simp [Ph.sleepsOn]) (by simp [earns, hp, Ph.sleepsOn])
  | @sleep t a w c hp hs =>
    by_cases hc : c = .condition p
    · -- only a worker sleeps there, over an empty queue
      subst hc
      have hempty : (s.mon.sh p).tasks = [] := by
        cases a with
        | fetch q => obtain ⟨hq, ht, -⟩ := fetch_wait hs; cases hq; exact ht
        | enqueue q task => obtain ⟨hq, -⟩ := enqueue_wait hs; cases hq
        | stop q clear => cases hs
      intro _
      simp [hempty]
    · refine hcr.phase rfl rfl rfl (by simp [Ph.sleepsOn, hc]) fun he => ?_
      rwa [earns_congr]
      simp [hp, Ph.sleepsOn, hc]
  | leave hp hs => exact leave_credited hi hp hs p
  | spurious hp =>
    refine hcr.phase rfl rfl rfl (by simp [Ph.sleepsOn]) ?_
    unfold earns; split <;> simp +contextual [Ph.sleepsOn]
  | notify hl hu => exact notify_credited hi hl hu p
  | @notifyNobody t q task hl hu =>
    obtain ⟨e, rfl, hp, hlt, -⟩ := notifier hi hl
    by_cases hq : p = q
    · subst hq
      rintro ⟨v, hv⟩
      rw [hu v] at hv; cases hv
    · exact hcr.place rfl rfl (by simp [earns, hlt, Ne.symm hq])
  | @announce t p clear hl | @join t p i clear hl _ _ _ | @joined t p i clear hl _ =>
    have hd := hi.doing t
    generalize (s.mon.ph t).act = b, s.loc t = l at hd hl
    cases hd <;> cases hl
  | @await t d ho _ =>
    refine hcr.place rfl rfl ?_
    rcases outside_doing hi ho with ⟨q, i, task, rfl, hl, -⟩ | ⟨e, rfl, hl⟩ <;> simp [earns, hl]
  | @resume t d hl _ =>
    -- who waits for a future is no credit
    refine hcr.place rfl rfl fun he => ?_
    exfalso
    unfold earns at he
    split at he
    · simp only [Bool.and_eq_true, decide_eq_true_eq] at he
      rw [he.1.2] at hl; cases hl
    · rw [hl] at he; cases he
  | @finish t task hl ho =>
    refine hcr.place rfl rfl ?_
    rcases outside_doing hi ho with ⟨q, i, task, rfl, hl, -⟩ | ⟨e, rfl, hl⟩ <;> simp [earns, hl]

theorem step_inv (h : Step s o s') (hC : plain s o) (hi : Inv s) : Inv s' where
  owned := step_owned h hi.owned
  replayed := step_replayed h hi.replayed
  blocked := step_blocked h (plain_calm hi) hi.blocked
  opened := step_opened h hi
  doing := step_doing h hC hi
  returned := step_returned h hi
  before := step_before h hi
  jobs := step_jobs h hi
  credited := step_credited h hC hi

theorem run_inv {ops : List (Op cfg E)} (hC : (pools cfg E).Along (plain · ·) (init cfg E) ops)
    (hr : (pools cfg E).run (init cfg E) ops = some s) : Inv s :=
  (pools cfg E).along_inv (fun _ _ _ hi hC hs => step_inv (step_eq hs) hC hi) init_inv hC hr

/-! ## Progress -/

/-- steps of a thread that has something to do: no new enqueue, stop or wait for a future, no spurious wake-up -/
def goesOn : Op cfg E → Bool
  | .fetch _ _ | .lock _ | .exec _ | .notify _ _ | .resume _ | .finish _ => true
  | _ => false

/-- some thread can take a step -/
def Moves (s : St cfg E) : Prop := ∃ o s', goesOn o = true ∧ step s o = some s'

/-- who runs a section finishes it; who queues for a mutex gets it, or its owner runs a section -/
theorem busy_moves (hi : Inv s) {t : Tid cfg E} {a : Act π} {w : Bool}
    (h : s.mon.ph t = .entry a w ∨ s.mon.ph t = .held a w) : Moves s := by
  have held : ∀ {u b v}, s.mon.ph u = .held b v → Moves s := by
    intro u b v hu
    obtain ⟨m, hm⟩ := Option.isSome_iff_exists.1 (exec_isSome (X := monitor cfg) hu)
    exact ⟨.exec u, _, rfl, by simp only [step, hm]; rfl⟩
  rcases h with h | h
  · cases ho : s.mon.owner ((monitor cfg).mon a) with
    | none =>
      obtain ⟨m, hm⟩ := Option.isSome_iff_exists.1 (lock_isSome (X := monitor cfg) h ho)
      exact ⟨.lock t, _, rfl, by simp only [step, hm]; rfl⟩
    | some u =>
      obtain ⟨b, v, hu, -⟩ := (hi.owned _ _).1 ho
      exact held hu
  · exact held h

theorem notifyOne_moves {t : Tid cfg E} {p : π} {d : ℕ}
    (h : (s.loc t).pt = .notifyOne p d) : Moves s := by
  obtain ⟨u, hu⟩ := notifyOne_isSome s.mon (.condition p)
  obtain ⟨m, hm⟩ := Option.isSome_iff_exists.1 hu
  exact ⟨.notify t u, _, rfl, by simp only [step, h, hm]; rfl⟩

theorem resume_moves {t : Tid cfg E} {d : ℕ} (h : (s.loc t).pt = .await d) (hd : d ∈ s.finished) : Moves s :=
  ⟨.resume t, _, rfl, by simp only [step, h, hd]; rfl⟩

/-- a worker can go on, or sleeps over an empty queue, or its task waits for an unfinished one -/
theorem worker_moves (hi : Inv s) (p : π) (i : Fin (cfg.threads p)) :
    Moves s ∨ (s.mon.ph (.inl ⟨p, i⟩)).sleepsOn (.condition p) = true ∨
      ∃ task d, (p, task) ∈ taken s.mon.hist ∧ s.loc (.inl ⟨p, i⟩) = ⟨some task, .await d⟩ ∧ d ∈ task.futures ∧
        d ∉ s.finished := by
  have hd := hi.doing (.inl ⟨p, i⟩)
  generalize ha : (s.mon.ph (.inl ⟨p, i⟩)).act = a, hl : s.loc (.inl ⟨p, i⟩) = l at hd
  cases hd with
  | top =>
    exact Or.inl ⟨.fetch p i, _, rfl, by simp only [step, hl, call, Ph.act_eq_none.1 ha]; rfl⟩
  | fetching =>
    cases hp : s.mon.ph (.inl ⟨p, i⟩) with
    | out => rw [hp] at ha; cases ha
    | entry b w => exact Or.inl (busy_moves hi (Or.inl hp))
    | held b w => exact Or.inl (busy_moves hi (Or.inr hp))
    | asleep b c =>
      have hb := hi.blocked _ b c hp
      rw [hp] at ha
      obtain rfl : b = .fetch p := by simpa [Ph.act] using ha
      cases c with
      | condition q => obtain rfl : q = p := hb; exact Or.inr (Or.inl (by simp [Ph.sleepsOn]))
      | conditionNotfull q => exact hb.elim
  | @running _ _ task hk =>
    have ho : outside s (.inl ⟨p, i⟩) = true := outside_iff.2 ⟨Ph.act_eq_none.1 ha, by rw [hl], by simp [hl]⟩
    exact Or.inl ⟨.finish (.inl ⟨p, i⟩), _, rfl, by simp only [step, hl, ho]; rfl⟩
  | @awaiting _ _ task d hk hd =>
    by_cases hf : d ∈ s.finished
    · exact Or.inl (resume_moves (by rw [hl]) hf)
    · exact Or.inr (Or.inr ⟨task, d, hk, rfl, hd, hf⟩)

/-- a task is queued: somebody can go on, or a worker of the pool runs a task that waits -/
theorem queued_moves (hi : Inv s) {p : π} (hthreads : 0 < cfg.threads p) (hq : (s.mon.sh p).tasks ≠ []) :
    Moves s ∨ ∃ task d, (p, task) ∈ taken s.mon.hist ∧ d ∈ task.futures ∧ d ∉ s.finished := by
  by_cases hsl : Sleeper s p
  · left
    have hpos : 0 < (credit s p).card := by
      have := hi.credited p hsl
      have := List.length_pos_iff.2 hq
      omega
    obtain ⟨t, ht⟩ := Finset.card_pos.1 hpos
    replace ht := mem_credit.1 ht
    rcases t with ⟨q, i⟩ | e
    · simp only [earns, Bool.and_eq_true, decide_eq_true_eq, Bool.not_eq_true'] at ht
      obtain ⟨⟨rfl, hl⟩, hs⟩ := ht
      rcases worker_moves hi q i with h | h | ⟨task, d, -, hl', -⟩
      · exact h
      · rw [h] at hs; cases hs
      · rw [hl'] at hl; cases hl
    · cases hpt : (s.loc (.inr e)).pt with
      | notifyOne q d => exact notifyOne_moves hpt
      | _ => simp [earns, hpt] at ht
  · rcases worker_moves hi p ⟨0, hthreads⟩ with h | h | ⟨task, d, hk, -, hd, hf⟩
    · exact Or.inl h
    · exact absurd ⟨_, h⟩ hsl
    · exact Or.inr ⟨task, d, hk, hd, hf⟩

/-- **The first unfinished task waits for nobody.** Its worker can finish it or go on; if it is still queued, the tasks
before it in its pool wait for nobody either, so a worker of the pool is free for it. -/
theorem unfinished_moves (hi : Inv s) (hthreads : ∀ p, 0 < cfg.threads p) {d : ℕ} (hd : d ∈ ids s)
    (hf : d ∉ s.finished) : Moves s := by
  obtain ⟨⟨p, task⟩, l1, l2, hacc, hunf, hfirst⟩ : ∃ k l1 l2, accepted s.mon.hist = l1 ++ k :: l2 ∧
      k.2.id ∉ s.finished ∧ ∀ j ∈ l1, j.2.id ∈ s.finished := by
    obtain ⟨k, hk, rfl⟩ := List.mem_map.1 hd
    cases hfind : (accepted s.mon.hist).find? (fun j => decide (j.2.id ∉ s.finished)) with
    | none => exact absurd (by simpa using hf) (List.find?_eq_none.1 hfind k hk)
    | some j =>
      obtain ⟨hj, l1, l2, hacc, hl⟩ := List.find?_eq_some_iff_append.1 hfind
      exact ⟨j, l1, l2, hacc, by simpa using hj, fun i hm => by simpa using hl i hm⟩
  -- what a task waits for was pushed before it; up to here all is finished
  have waits : ∀ q k, (q, k) ∈ l1 → ∀ e ∈ k.futures, e ∈ s.finished := by
    intro q k hk e he
    obtain ⟨a, b, rfl⟩ := List.append_of_mem hk
    have hm := hi.before a q k (b ++ (p, task) :: l2) (by rw [hacc]; simp) e he
    obtain ⟨j, hj, rfl⟩ := List.mem_map.1 hm
    exact hfirst j (List.mem_append_left _ hj)
  by_cases htk : (p, task) ∈ taken s.mon.hist
  · obtain ⟨t, ht⟩ := (hi.jobs p task htk).resolve_left hunf
    have hdo := hi.doing t
    generalize ha : (s.mon.ph t).act = a, hl : s.loc t = l at hdo
    rw [hl] at ht
    cases hdo with
    | @running q i k hk =>
      rcases worker_moves hi q i with h | h | ⟨k', e, -, hl', -⟩
      · exact h
      · simp [Ph.act_eq_none.1 ha, Ph.sleepsOn] at h
      · rw [hl'] at hl; cases hl
    | @awaiting q i k e hk he =>
      obtain rfl : k = task := by simpa using ht
      have hm := hi.before l1 p k l2 hacc e he
      obtain ⟨j, hj, rfl⟩ := List.mem_map.1 hm
      exact resume_moves (by rw [hl]) (hfirst j hj)
    | _ => cases ht
  · have hsplit := fifo hi.replayed p
    have hnot : task ∉ ofPool p (taken s.mon.hist) := fun hm => htk (mem_ofPool.1 hm)
    rw [hacc, ofPool_append, ofPool_cons, if_pos rfl] at hsplit
    -- everything that was taken from the pool stands before `task`
    have hsub : ∀ k ∈ ofPool p (taken s.mon.hist), k ∈ ofPool p l1 := by
      rcases List.append_eq_append_iff.1 hsplit with ⟨c, hc, hc'⟩ | ⟨c, hc, -⟩
      · cases c with
        | nil => rw [hc, List.append_nil]; exact fun k hk => hk
        | cons x c =>
          simp only [List.cons_append, List.cons.injEq] at hc'
          exact absurd (by rw [hc, hc'.1]; simp) hnot
      · rw [hc]; exact fun k hk => List.mem_append_left _ hk
    have hq : (s.mon.sh p).tasks ≠ [] := by
      intro hnil
      rw [hnil, List.append_nil] at hsplit
      exact hnot (by rw [← hsplit]; simp)
    rcases queued_moves hi (hthreads p) hq with h | ⟨k, e, hk, he, hef⟩
    · exact h
    · exact absurd (waits p k (mem_ofPool.1 (hsub k (mem_ofPool.2 hk))) e he) hef

/-- the thread is in an enqueue -/
def Enqueuing (s : St cfg E) (t : Tid cfg E) : Prop :=
  (∃ p task, (s.mon.ph t).act = some (.enqueue p task)) ∨ ∃ p task, (s.loc t).pt = .notifyOne p task

/-- **Never stuck.** Any pools, each with a worker and a limit of at least 1, any threads outside that enqueue, tasks
that wait only for the futures they were given. In every reachable state in which an enqueue has not returned or an
accepted task is unfinished, some thread can take a step. -/
theorem never_stuck (cfg : Config π) (hthreads : ∀ p, 0 < cfg.threads p) (hlimits : ∀ p, 0 < cfg.workLimits p)
    (ops : List (Op cfg E)) (s : St cfg E) (hC : (pools cfg E).Along (plain · ·) (init cfg E) ops)
    (hr : (pools cfg E).run (init cfg E) ops = some s)
    (hpend : (∃ t, Enqueuing s t) ∨ ∃ p task, (p, task) ∈ accepted s.mon.hist ∧ task.id ∉ s.finished) :
    ∃ o s', goesOn o = true ∧ step s o = some s' := by
  have hi := run_inv hC hr
  rcases hpend with ⟨t, ⟨p, task, ha⟩ | ⟨p, d, hl⟩⟩ | ⟨p, task, hacc, hf⟩
  · cases hp : s.mon.ph t with
    | out => rw [hp] at ha; cases ha
    | entry b w => exact busy_moves hi (Or.inl hp)
    | held b w => exact busy_moves hi (Or.inr hp)
    | asleep b c =>
      -- the queue is at its limit, so it holds a task
      have hb := hi.blocked t b c hp
      rw [hp] at ha
      obtain rfl : b = .enqueue p task := by simpa [Ph.act] using ha
      cases c with
      | condition q => exact hb.elim
      | conditionNotfull q =>
        obtain ⟨-, hfull⟩ := hb
        simp only [accepts, Bool.or_eq_false_iff, decide_eq_false_iff_not, not_lt] at hfull
        have hq : (s.mon.sh p).tasks ≠ [] := by
          have := hlimits p
          intro hnil
          rw [hnil, List.length_nil] at hfull
          omega
        rcases queued_moves hi (hthreads p) hq with h | ⟨k, d, hk, hd, hf⟩
        · exact h
        · have hm : (p, k) ∈ accepted s.mon.hist := by
            rw [← mem_ofPool, fifo hi.replayed p]
            exact List.mem_append_left _ (mem_ofPool.2 hk)
          obtain ⟨l1, l2, hl⟩ := List.append_of_mem hm
          have hid := hi.before l1 p k l2 hl d hd
          refine unfinished_moves hi hthreads ?_ hf
          rw [ids, hl, List.map_append]
          exact List.mem_append_left _ hid
  · exact notifyOne_moves hl
  · exact unfinished_moves hi hthreads (List.mem_map.2 ⟨(p, task), hacc, rfl⟩) hf

/-- two pools as in test4: `false` tracks, `true` detects -/
def trackAndDetect : Config Bool := ⟨fun _ => 1, fun _ => 10⟩

abbrev tracker : Tid trackAndDetect Unit := .inl ⟨false, ⟨0, by decide⟩⟩

/-- the thread outside enqueues a detection and a tracking task that gets its future; the tracker waits for it -/
def trackOps : List (Op trackAndDetect Unit) :=
  [.enqueue (.inr ()) true [], .lock (.inr ()), .exec (.inr ()), .notify (.inr ()) none, .enqueue (.inr ()) false [0],
    .lock (.inr ()), .exec (.inr ()), .notify (.inr ()) none, .fetch false ⟨0, by decide⟩, .lock tracker, .exec tracker,
    .await tracker 0]

theorem tracker_not_stuck :
    ∃ s, (pools trackAndDetect Unit).run (init trackAndDetect Unit) trackOps = some s ∧
      (s.loc tracker).pt = .await 0 ∧ s.finished = [] ∧ ∃ o s', goesOn o = true ∧ step s o = some s' :=
  ⟨_, rfl, rfl, rfl, never_stuck trackAndDetect (by decide) (by decide) trackOps _ (by decide) rfl
    (Or.inr ⟨true, ⟨0, []⟩, by decide, by decide⟩)⟩

end Hodgepodge.ThreadPool
