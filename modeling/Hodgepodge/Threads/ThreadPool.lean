/-
`ThreadPool` (thread_pool.h): any number of pools, each with its workers, a task queue, a mutex and two condition
variables. `enqueue` waits while the queue is at `work_limits` and the pool is not stopped; it notifies one worker after
it has released the lock. `stop_all` and the destructor set `stop`, notify all workers and join them.

The code under the lock is a section of a `Core.Monitor`, with one mutex a pool; what a thread does between its sections
(the notification of an enqueue, the loop over the joins, the task that a worker runs, the future it waits for) is its
`Loc`. A task is known by its number and the futures among its arguments; when and what a running task enqueues, stops
or waits for is up to the run. Joining oneself is not modelled: no task stops the pool whose worker runs it.

Results:
- `Step`: the inversion of every operation.
- `step_mon`: every operation moves the monitor or leaves it alone.
- `fifo`: the tasks that were pushed are the tasks that were popped, in the same order, followed by the queue.
-/
import Mathlib.Data.Fintype.Sum
import Mathlib.Data.Fintype.Sigma
import Hodgepodge.Core.Monitor

namespace Hodgepodge.ThreadPool

open Function Hodgepodge.Core Hodgepodge.Core.Monitor

variable {π E : Type*}

/-! ## Sections -/

/-- the constructor's arguments, for every pool -/
structure Config (π : Type*) where
  threads : π → ℕ
  workLimits : π → ℕ

structure Task where
  id : ℕ
  /-- the tasks whose futures are among its arguments -/
  futures : List ℕ
deriving DecidableEq

/-- the fields that the methods change under the lock -/
structure Pool where
  tasks : List Task
  stop : Bool

inductive Cv (π : Type*) where
  | condition (p : π)
  | conditionNotfull (p : π)
deriving DecidableEq

/-- `fetch`: the locked part of the worker loop; `clear`: stop_all, not the destructor -/
inductive Act (π : Type*) where
  | fetch (p : π)
  | enqueue (p : π) (task : Task)
  | stop (p : π) (clear : Bool)
deriving DecidableEq

inductive Res where
  | task (task : Task)
  | exit
  | pushed
  | stopped
deriving DecidableEq

/-- `this->stop || tasks.size() < work_limits` -/
def accepts (workLimits : ℕ) (s : Pool) : Bool := s.stop || decide (s.tasks.length < workLimits)

variable [DecidableEq π]

def fetch (p : π) (s : π → Pool) : Sec (Cv π) (π → Pool) Res :=
  match (s p).tasks, (s p).stop with
  | [], false => .wait (.condition p)
  | [], true => .leave s (fun _ => false) .exit
  | task :: tasks, _ => .leave (update s p { s p with tasks := tasks }) (· == .conditionNotfull p) (.task task)

def enqueue (cfg : Config π) (p : π) (task : Task) (s : π → Pool) : Sec (Cv π) (π → Pool) Res :=
  if accepts (cfg.workLimits p) (s p) then
    .leave (update s p { s p with tasks := (s p).tasks ++ [task] }) (fun _ => false) .pushed
  else .wait (.conditionNotfull p)

def stop (p : π) (s : π → Pool) : Sec (Cv π) (π → Pool) Res :=
  .leave (update s p { s p with stop := true }) (fun _ => false) .stopped

def monitor (cfg : Config π) : Monitor π (Cv π) (Act π) (π → Pool) Res where
  mon
    | .fetch p | .enqueue p _ | .stop p _ => p
  sec
    | .fetch p, _, s => fetch p s
    | .enqueue p task, _, s => enqueue cfg p task s
    | .stop p _, _, s => stop p s

/-! ## Threads -/

/-- a worker, by its pool and its index in `workers`, or a thread that is in no pool -/
abbrev Tid (cfg : Config π) (E : Type*) := (Σ p, Fin (cfg.threads p)) ⊕ E

/-- where a thread stands between its sections -/
inductive Pt (π : Type*) where
  | free
  /-- `condition.notify_one()` of an enqueue -/
  | notifyOne (p : π) (task : ℕ)
  /-- `condition.notify_all()` -/
  | notifyAll (p : π) (clear : Bool)
  /-- the loop over the joins, at worker `i` -/
  | join (p : π) (i : ℕ) (clear : Bool)
  /-- `get` on the future of `task` -/
  | await (task : ℕ)
  /-- the worker loop has returned -/
  | exited
deriving DecidableEq

/-- `job`: the task that a worker runs -/
structure Loc (π : Type*) where
  job : Option Task
  pt : Pt π
deriving DecidableEq

structure St (cfg : Config π) (E : Type*) where
  mon : Cfg (Tid cfg E) π (Cv π) (Act π) (π → Pool) Res
  loc : Tid cfg E → Loc π
  /-- number of the next task -/
  fresh : ℕ
  /-- tasks whose enqueue has returned the future -/
  returned : List ℕ
  finished : List ℕ
  /-- a stop_all or a destructor has notified the workers -/
  announced : π → Bool
  /-- `workers` was cleared -/
  cleared : π → Bool

inductive Op (cfg : Config π) (E : Type*) where
  | fetch (p : π) (i : Fin (cfg.threads p))
  | enqueue (t : Tid cfg E) (p : π) (futures : List ℕ)
  | stop (t : Tid cfg E) (p : π) (clear : Bool)
  | lock (t : Tid cfg E)
  | exec (t : Tid cfg E)
  | spurious (t : Tid cfg E)
  /-- the notify_one and return of an enqueue; `woken`: the waiter it wakes -/
  | notify (t : Tid cfg E) (woken : Option (Tid cfg E))
  | announce (t : Tid cfg E)
  | join (t : Tid cfg E)
  | await (t : Tid cfg E) (task : ℕ)
  | resume (t : Tid cfg E)
  | finish (t : Tid cfg E)

variable {cfg : Config π}

/-- the thread is a worker of `p` -/
def worksFor (p : π) : Tid cfg E → Bool
  | .inl w => w.1 = p
  | .inr _ => false

/-- the thread is in code that is not the pool's: a task, or a thread outside -/
def outside (s : St cfg E) (t : Tid cfg E) : Bool :=
  (s.mon.ph t).act.isNone && (s.loc t).pt == .free && (t.isRight || (s.loc t).job.isSome)

/-- where the thread goes on after its section -/
def after (l : Loc π) : Option (Act π × Res) → Loc π
  | some (_, .task task) => { l with job := some task }
  | some (_, .exit) => { l with pt := .exited }
  | some (.enqueue p task, .pushed) => { l with pt := .notifyOne p task.id }
  | some (.stop p clear, .stopped) => { l with pt := .notifyAll p clear }
  | _ => l

variable [DecidableEq E]

def goto (s : St cfg E) (t : Tid cfg E) (pt : Pt π) : Tid cfg E → Loc π := update s.loc t { s.loc t with pt := pt }

def step [Fintype π] [Fintype E] (s : St cfg E) : Op cfg E → Option (St cfg E)
  | .fetch p i =>
    if s.loc (.inl ⟨p, i⟩) = ⟨none, .free⟩ then
      (call s.mon (.inl ⟨p, i⟩) (.fetch p)).map fun m => { s with mon := m }
    else none
  | .enqueue t p futures =>
    if outside s t ∧ ∀ d ∈ futures, d ∈ s.returned then
      (call s.mon t (.enqueue p ⟨s.fresh, futures⟩)).map fun m => { s with mon := m, fresh := s.fresh + 1 }
    else none
  | .stop t p clear =>
    if outside s t ∧ worksFor p t = false then
      (call s.mon t (.stop p clear)).map fun m => { s with mon := m }
    else none
  | .lock t => (lock (monitor cfg) s.mon t).map fun m => { s with mon := m }
  | .exec t =>
    (exec (monitor cfg) s.mon t).map fun m =>
      { s with mon := m, loc := update s.loc t (after (s.loc t) (result (monitor cfg) s.mon t)) }
  | .spurious t => (wake s.mon t).map fun m => { s with mon := m }
  | .notify t woken =>
    match (s.loc t).pt with
    | .notifyOne p task =>
      (notifyOne s.mon (.condition p) woken).map fun m =>
        { s with mon := m, loc := goto s t .free, returned := s.returned ++ [task] }
    | _ => none
  | .announce t =>
    match (s.loc t).pt with
    | .notifyAll p clear =>
      some { s with
        mon := notifyAll s.mon (.condition p)
        loc := goto s t (.join p 0 clear)
        announced := update s.announced p true }
    | _ => none
  | .join t =>
    match (s.loc t).pt with
    | .join p i clear =>
      if h : i < cfg.threads p ∧ s.cleared p = false then
        if (s.loc (.inl ⟨p, ⟨i, h.1⟩⟩)).pt = .exited then some { s with loc := goto s t (.join p (i + 1) clear) }
        else none
      else some { s with loc := goto s t .free, cleared := update s.cleared p (s.cleared p || clear) }
    | _ => none
  | .await t task =>
    if outside s t ∧ task ∈ s.returned then some { s with loc := goto s t (.await task) } else none
  | .resume t =>
    match (s.loc t).pt with
    | .await task => if task ∈ s.finished then some { s with loc := goto s t .free } else none
    | _ => none
  | .finish t =>
    match (s.loc t).job with
    | some task =>
      if outside s t then
        some { s with loc := update s.loc t { s.loc t with job := none }, finished := s.finished ++ [task.id] }
      else none
    | none => none

/-- all pools are new, all workers at the top of their loop -/
def init (cfg : Config π) (E : Type*) : St cfg E where
  mon := ⟨fun _ => ⟨[], false⟩, fun _ => none, fun _ => .out, []⟩
  loc _ := ⟨none, .free⟩
  fresh := 0
  returned := []
  finished := []
  announced _ := false
  cleared _ := false

def pools [Fintype π] (cfg : Config π) (E : Type*) [DecidableEq E] [Fintype E] : Lts (St cfg E) (Op cfg E) :=
  ⟨init cfg E, step⟩

/-! ## Inversion -/

/-- what one operation does -/
inductive Step (s : St cfg E) : Op cfg E → St cfg E → Prop
  | fetch {p i} (hl : s.loc (.inl ⟨p, i⟩) = ⟨none, .free⟩) (hp : s.mon.ph (.inl ⟨p, i⟩) = .out) :
      Step s (.fetch p i) { s with mon := { s.mon with ph := update s.mon.ph (.inl ⟨p, i⟩) (.entry (.fetch p) false) } }
  | enqueue {t p futures} (ho : outside s t = true) (hf : ∀ d ∈ futures, d ∈ s.returned) (hp : s.mon.ph t = .out) :
      Step s (.enqueue t p futures) { s with
        mon := { s.mon with ph := update s.mon.ph t (.entry (.enqueue p ⟨s.fresh, futures⟩) false) }
        fresh := s.fresh + 1 }
  | stop {t p clear} (ho : outside s t = true) (hw : worksFor p t = false) (hp : s.mon.ph t = .out) :
      Step s (.stop t p clear) { s with mon := { s.mon with ph := update s.mon.ph t (.entry (.stop p clear) false) } }
  | lock {t a w} (hp : s.mon.ph t = .entry a w) (ho : s.mon.owner ((monitor cfg).mon a) = none) :
      Step s (.lock t) { s with mon := { s.mon with
        owner := update s.mon.owner ((monitor cfg).mon a) (some t), ph := update s.mon.ph t (.held a w) } }
  | sleep {t a w c} (hp : s.mon.ph t = .held a w) (hs : (monitor cfg).sec a w s.mon.sh = .wait c) :
      Step s (.exec t) { s with mon := { s.mon with
        owner := update s.mon.owner ((monitor cfg).mon a) none, ph := update s.mon.ph t (.asleep a c) } }
  | leave {t a w sh wake r} (hp : s.mon.ph t = .held a w) (hs : (monitor cfg).sec a w s.mon.sh = .leave sh wake r) :
      Step s (.exec t) { s with
        mon := ⟨sh, update s.mon.owner ((monitor cfg).mon a) none, update (wakeAll wake s.mon.ph) t .out,
          s.mon.hist ++ [(t, a, r)]⟩
        loc := update s.loc t (after (s.loc t) (some (a, r))) }
  | spurious {t a c} (hp : s.mon.ph t = .asleep a c) :
      Step s (.spurious t) { s with mon := { s.mon with ph := update s.mon.ph t (.entry a true) } }
  | notify {t p task u a} (hl : (s.loc t).pt = .notifyOne p task) (hu : s.mon.ph u = .asleep a (.condition p)) :
      Step s (.notify t (some u)) { s with
        mon := { s.mon with ph := update s.mon.ph u (.entry a true) }
        loc := goto s t .free
        returned := s.returned ++ [task] }
  | notifyNobody {t p task} (hl : (s.loc t).pt = .notifyOne p task)
      (hu : ∀ u, (s.mon.ph u).sleepsOn (.condition p) = false) :
      Step s (.notify t none) { s with loc := goto s t .free, returned := s.returned ++ [task] }
  | announce {t p clear} (hl : (s.loc t).pt = .notifyAll p clear) :
      Step s (.announce t) { s with
        mon := notifyAll s.mon (.condition p)
        loc := goto s t (.join p 0 clear)
        announced := update s.announced p true }
  | join {t p i clear} (hl : (s.loc t).pt = .join p i clear) (hi : i < cfg.threads p) (hc : s.cleared p = false)
      (hx : (s.loc (.inl ⟨p, ⟨i, hi⟩⟩)).pt = .exited) :
      Step s (.join t) { s with loc := goto s t (.join p (i + 1) clear) }
  | joined {t p i clear} (hl : (s.loc t).pt = .join p i clear) (hi : ¬ (i < cfg.threads p ∧ s.cleared p = false)) :
      Step s (.join t) { s with loc := goto s t .free, cleared := update s.cleared p (s.cleared p || clear) }
  | await {t task} (ho : outside s t = true) (hd : task ∈ s.returned) :
      Step s (.await t task) { s with loc := goto s t (.await task) }
  | resume {t task} (hl : (s.loc t).pt = .await task) (hd : task ∈ s.finished) :
      Step s (.resume t) { s with loc := goto s t .free }
  | finish {t task} (hl : (s.loc t).job = some task) (ho : outside s t = true) :
      Step s (.finish t) { s with
        loc := update s.loc t { s.loc t with job := none }, finished := s.finished ++ [task.id] }

omit [DecidableEq E] in
theorem outside_iff {s : St cfg E} {t : Tid cfg E} : outside s t = true ↔
    s.mon.ph t = .out ∧ (s.loc t).pt = .free ∧ (t.isRight = true ∨ (s.loc t).job.isSome = true) := by
  cases h : s.mon.ph t <;> simp [outside, h, Ph.act]

theorem step_eq [Fintype π] [Fintype E] {s s' : St cfg E} {o : Op cfg E} (h : step s o = some s') : Step s o s' := by
  cases o with
  | fetch p i =>
    simp only [step] at h
    split_ifs at h with hl
    obtain ⟨m, hm, rfl⟩ := Option.map_eq_some_iff.1 h
    obtain ⟨hp, rfl⟩ := call_eq hm
    exact .fetch hl hp
  | enqueue t p futures =>
    simp only [step] at h
    split_ifs at h with ho
    obtain ⟨m, hm, rfl⟩ := Option.map_eq_some_iff.1 h
    obtain ⟨hp, rfl⟩ := call_eq hm
    exact .enqueue ho.1 ho.2 hp
  | stop t p clear =>
    simp only [step] at h
    split_ifs at h with ho
    obtain ⟨m, hm, rfl⟩ := Option.map_eq_some_iff.1 h
    obtain ⟨hp, rfl⟩ := call_eq hm
    exact .stop ho.1 ho.2 hp
  | lock t =>
    obtain ⟨m, hm, rfl⟩ := Option.map_eq_some_iff.1 h
    obtain ⟨a, w, hp, ho, rfl⟩ := lock_eq hm
    exact .lock hp ho
  | exec t =>
    obtain ⟨m, hm, rfl⟩ := Option.map_eq_some_iff.1 h
    obtain ⟨a, w, hp, ⟨c, hs, hres, rfl⟩ | ⟨sh, wk, r, hs, hres, rfl⟩⟩ := exec_eq hm
    · have := Step.sleep hp hs
      simpa only [hres, after, update_eq_self] using this
    · have := Step.leave hp hs
      simpa only [hres] using this
  | spurious t =>
    obtain ⟨m, hm, rfl⟩ := Option.map_eq_some_iff.1 h
    obtain ⟨a, c, hp, rfl⟩ := wake_eq hm
    exact .spurious hp
  | notify t woken =>
    simp only [step] at h
    split at h
    · rename_i p task hl
      obtain ⟨m, hm, rfl⟩ := Option.map_eq_some_iff.1 h
      cases woken with
      | some u =>
        obtain ⟨a, hu, rfl⟩ := notifyOne_eq hm
        exact .notify hl hu
      | none =>
        obtain ⟨hn, rfl⟩ := notifyNobody_eq hm
        exact .notifyNobody hl hn
    · cases h
  | announce t =>
    simp only [step] at h
    split at h
    · rename_i hl; cases h; exact .announce hl
    · cases h
  | join t =>
    simp only [step] at h
    split at h
    · rename_i hl
      split_ifs at h with hi hx
      · cases h; exact .join hl hi.1 hi.2 hx
      · cases h; exact .joined hl hi
    · cases h
  | await t task =>
    simp only [step] at h
    split_ifs at h with ho
    cases h
    exact .await ho.1 ho.2
  | resume t =>
    simp only [step] at h
    split at h
    · rename_i hl
      split_ifs at h with hd
      cases h
      exact .resume hl hd
    · cases h
  | finish t =>
    simp only [step] at h
    split at h
    · rename_i hl
      split_ifs at h with ho
      cases h
      exact .finish hl ho
    · cases h

/-! ## The monitor's invariants -/

variable {s s' : St cfg E} {o : Op cfg E}

theorem step_mon (h : Step s o s') : s'.mon = s.mon ∨ Move (monitor cfg) s.mon s'.mon := by
  cases h with
  | fetch _ hp | enqueue _ _ hp | stop _ _ hp => exact Or.inr (.call hp)
  | lock hp ho => exact Or.inr (.lock hp ho)
  | sleep hp hs => exact Or.inr (.sleep hp hs)
  | leave hp hs => exact Or.inr (.leave hp hs)
  | spurious hp | notify _ hp => exact Or.inr (.wake hp)
  | announce _ => exact Or.inr (.wakeAll _)
  | _ => exact Or.inl rfl

/-- the history grows by the section that an `exec` finishes -/
theorem step_hist (h : Step s o s') {t : Tid cfg E} {a : Act π} {r : Res}
    (hh : s'.mon.hist = s.mon.hist ++ [(t, a, r)]) : o = .exec t := by
  cases h with
  | @leave u b w sh wake v hp hs =>
    have : (u, b, v) = (t, a, r) := by simpa using hh
    cases this; rfl
  | _ => simp [notifyAll] at hh

theorem step_owned (h : Step s o s') (ho : Owned (monitor cfg) s.mon) : Owned (monitor cfg) s'.mon := by
  rcases step_mon h with he | hm
  · rwa [he]
  · exact hm.owned ho

abbrev Hist (cfg : Config π) (E : Type*) := List (Tid cfg E × Act π × Res)

/-- the sections that have left, run one after another, give the pools -/
abbrev Replayed (s : St cfg E) : Prop := Replay (monitor cfg) (fun _ => ⟨[], false⟩) s.mon.hist s.mon.sh

theorem step_replayed (h : Step s o s') (hr : Replayed s) : Replayed s' := by
  rcases step_mon h with he | hm
  · unfold Replayed; rwa [he]
  · exact hm.replay hr

/-! ## What a section does -/

omit [DecidableEq E]

variable {sh sh' : π → Pool} {p : π} {wk : Cv π → Bool} {r : Res} {c : Cv π}

theorem fetch_wait (h : fetch p sh = .wait c) : c = .condition p ∧ (sh p).tasks = [] ∧ (sh p).stop = false := by
  unfold fetch at h
  split at h
  · rename_i ht hs; cases h; exact ⟨rfl, ht, hs⟩
  · cases h
  · cases h

theorem fetch_leave (h : fetch p sh = .leave sh' wk r) :
    (∃ task tasks, (sh p).tasks = task :: tasks ∧ sh' = update sh p { sh p with tasks := tasks } ∧
        wk = (· == .conditionNotfull p) ∧ r = .task task) ∨
      ((sh p).tasks = [] ∧ (sh p).stop = true ∧ sh' = sh ∧ r = .exit) := by
  unfold fetch at h
  split at h
  · cases h
  · rename_i ht hs; cases h; exact Or.inr ⟨ht, hs, rfl, rfl⟩
  · rename_i task tasks ht; cases h; exact Or.inl ⟨task, tasks, ht, rfl, rfl, rfl⟩

theorem enqueue_wait {task : Task} (h : enqueue cfg p task sh = .wait c) :
    c = .conditionNotfull p ∧ accepts (cfg.workLimits p) (sh p) = false := by
  unfold enqueue at h
  split_ifs at h with ha
  cases h; exact ⟨rfl, by simpa using ha⟩

theorem enqueue_leave {task : Task} (h : enqueue cfg p task sh = .leave sh' wk r) :
    sh' = update sh p { sh p with tasks := (sh p).tasks ++ [task] } ∧ wk = (fun _ => false) ∧ r = .pushed := by
  unfold enqueue at h
  split_ifs at h
  cases h; exact ⟨rfl, rfl, rfl⟩

theorem stop_leave (h : stop p sh = .leave sh' wk r) :
    sh' = update sh p { sh p with stop := true } ∧ wk = (fun _ => false) ∧ r = .stopped := by
  cases h; exact ⟨rfl, rfl, rfl⟩

/-! ## First in, first out -/

/-- the tasks that were pushed, in order, with their pools -/
def accepted (h : Hist cfg E) : List (π × Task) :=
  h.filterMap fun
    | (_, .enqueue p task, .pushed) => some (p, task)
    | _ => none

/-- the tasks that the workers took, in order, with their pools -/
def taken (h : Hist cfg E) : List (π × Task) :=
  h.filterMap fun
    | (_, .fetch p, .task task) => some (p, task)
    | _ => none

/-- the part of one pool -/
def ofPool (p : π) (l : List (π × Task)) : List Task := (l.filter (·.1 = p)).map Prod.snd

@[simp] theorem ofPool_nil (p : π) : ofPool p [] = [] := rfl

@[simp] theorem ofPool_append (p : π) (l l' : List (π × Task)) : ofPool p (l ++ l') = ofPool p l ++ ofPool p l' := by
  simp [ofPool]

theorem ofPool_cons (p q : π) (task : Task) (l : List (π × Task)) :
    ofPool p ((q, task) :: l) = if q = p then task :: ofPool p l else ofPool p l := by
  by_cases hq : q = p <;> simp [ofPool, hq]

theorem mem_ofPool {p : π} {task : Task} {l : List (π × Task)} : task ∈ ofPool p l ↔ (p, task) ∈ l := by
  simp only [ofPool, List.mem_map, List.mem_filter, decide_eq_true_eq]
  constructor
  · rintro ⟨⟨q, k⟩, ⟨hm, rfl⟩, rfl⟩; exact hm
  · intro hm; exact ⟨(p, task), ⟨hm, rfl⟩, rfl⟩

section

omit [DecidableEq π]

variable (h : Hist cfg E) (t : Tid cfg E) (task : Task)

@[simp] theorem accepted_fetch (r : Res) : accepted (h ++ [(t, .fetch p, r)]) = accepted h := by simp [accepted]

@[simp] theorem accepted_stop (clear : Bool) (r : Res) : accepted (h ++ [(t, .stop p clear, r)]) = accepted h := by
  simp [accepted]

@[simp] theorem accepted_pushed : accepted (h ++ [(t, .enqueue p task, .pushed)]) = accepted h ++ [(p, task)] := by
  simp [accepted]

@[simp] theorem taken_task : taken (h ++ [(t, .fetch p, .task task)]) = taken h ++ [(p, task)] := by simp [taken]

@[simp] theorem taken_exit : taken (h ++ [(t, .fetch p, .exit)]) = taken h := by simp [taken]

@[simp] theorem taken_enqueue (r : Res) : taken (h ++ [(t, .enqueue p task, r)]) = taken h := by simp [taken]

@[simp] theorem taken_stop (clear : Bool) (r : Res) : taken (h ++ [(t, .stop p clear, r)]) = taken h := by simp [taken]

end

/-- **First in, first out.** In every pool the pushed tasks are the taken ones, in the same order, then the queue. -/
theorem fifo {h : Hist cfg E} {sh : π → Pool} (hr : Replay (monitor cfg) (fun _ => ⟨[], false⟩) h sh) (p : π) :
    ofPool p (accepted h) = ofPool p (taken h) ++ (sh p).tasks := by
  induction hr with
  | nil => rfl
  | @snoc h sh t a w sh' wk r _ hs ih =>
    cases a with
    | fetch q =>
      rcases fetch_leave hs with ⟨task, tasks, hq, rfl, -, rfl⟩ | ⟨-, -, rfl, rfl⟩
      · by_cases hp : p = q
        · subst hp; simp [ih, hq, ofPool_cons]
        · simp [ih, ofPool_cons, update_of_ne hp, Ne.symm hp]
      · simpa using ih
    | enqueue q task =>
      obtain ⟨rfl, -, rfl⟩ := enqueue_leave hs
      by_cases hp : p = q
      · subst hp; simp [ih, ofPool_cons]
      · simp [ih, ofPool_cons, update_of_ne hp, Ne.symm hp]
    | stop q clear =>
      obtain ⟨rfl, -, rfl⟩ := stop_leave hs
      by_cases hp : p = q
      · subst hp; simp [ih]
      · simp [ih, update_of_ne hp]

end Hodgepodge.ThreadPool
