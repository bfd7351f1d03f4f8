/-
A `ThreadPool` that is stopped drains. `enqueue` does not refuse a task after `stop` is set, so that "worker thread may
enqueue other task to fully complete their work even after stop=true"; a worker returns when it finds `stop` set and the
queue empty, which may be while other workers are still running tasks that enqueue more.

The last worker of a pool to return finds the queue empty when nobody is left who runs a task of the pool. What was
pushed before `stop` was set, or by one of the workers, has been taken by then.

Results:
- `Change`, `step_change`: every operation by what it does to the activities, places and tasks.
- `Numbered`, `Executed`: every task has its own number; a taken task is with its worker or finished.
- `Drained`: when all workers of a pool have returned, they have taken every task that they owed.
- `stop_all_drains`: in every run, tasks leave a queue in the order in which they were pushed, each at most once; after a
  stop_all has returned, every task that was owed has been executed exactly once.
-/
import Hodgepodge.Threads.ThreadPoolProgress

namespace Hodgepodge.ThreadPool

open Function Hodgepodge.Core Hodgepodge.Core.Monitor

variable {π E : Type*} [DecidableEq π] [DecidableEq E] {cfg : Config π}

/-! ## Changes -/

/-- the method that a thread is in -/
def acts (s : St cfg E) (t : Tid cfg E) : Option (Act π) := (s.mon.ph t).act

/-- nothing was pushed, taken or finished, and no number given out -/
structure Quiet (s s' : St cfg E) : Prop where
  hist : s'.mon.hist = s.mon.hist
  finished : s'.finished = s.finished
  fresh : s'.fresh = s.fresh

/-- what one operation changes, but for locks, sleepers and joins -/
inductive Change (s s' : St cfg E) : Prop
  | fetch (p i) (hl : s.loc (.inl ⟨p, i⟩) = ⟨none, .free⟩) (hloc : s'.loc = s.loc)
      (ha : acts s' = update (acts s) (.inl ⟨p, i⟩) (some (.fetch p))) (hq : Quiet s s')
  | enqueue (t p futures) (hl : (s.loc t).pt = .free) (hloc : s'.loc = s.loc)
      (ha : acts s' = update (acts s) t (some (.enqueue p ⟨s.fresh, futures⟩)))
      (hh : s'.mon.hist = s.mon.hist) (hf : s'.finished = s.finished) (hn : s'.fresh = s.fresh + 1)
  | stop (t p clear) (hl : (s.loc t).pt = .free) (hloc : s'.loc = s.loc)
      (ha : acts s' = update (acts s) t (some (.stop p clear))) (hq : Quiet s s')
  | stay (hloc : s'.loc = s.loc) (ha : acts s' = acts s) (hq : Quiet s s')
  | goto (t pt) (hx : pt ≠ .exited) (ho : (s.loc t).pt ≠ .free ∨ acts s t = none) (hn : (s.loc t).pt ≠ .exited)
      (hloc : s'.loc = ThreadPool.goto s t pt) (ha : acts s' = acts s) (hq : Quiet s s')
  | finish (t task) (hl : (s.loc t).job = some task) (ho : acts s t = none)
      (hloc : s'.loc = update s.loc t { s.loc t with job := none })
      (ha : acts s' = acts s) (hh : s'.mon.hist = s.mon.hist) (hf : s'.finished = s.finished ++ [task.id])
      (hn : s'.fresh = s.fresh)
  | pop (t p task tasks) (hp : acts s t = some (.fetch p)) (ht : (s.mon.sh p).tasks = task :: tasks)
      (hloc : s'.loc = update s.loc t { s.loc t with job := some task }) (ha : acts s' = update (acts s) t none)
      (hh : s'.mon.hist = s.mon.hist ++ [(t, .fetch p, .task task)]) (hf : s'.finished = s.finished)
      (hn : s'.fresh = s.fresh)
  | exit (t p) (hp : acts s t = some (.fetch p)) (ht : (s.mon.sh p).tasks = []) (hs : (s.mon.sh p).stop = true)
      (hloc : s'.loc = ThreadPool.goto s t .exited) (ha : acts s' = update (acts s) t none)
      (hh : s'.mon.hist = s.mon.hist ++ [(t, .fetch p, .exit)]) (hf : s'.finished = s.finished)
      (hn : s'.fresh = s.fresh)
  | push (t p task) (hp : acts s t = some (.enqueue p task))
      (hloc : s'.loc = ThreadPool.goto s t (.notifyOne p task.id)) (ha : acts s' = update (acts s) t none)
      (hh : s'.mon.hist = s.mon.hist ++ [(t, .enqueue p task, .pushed)]) (hf : s'.finished = s.finished)
      (hn : s'.fresh = s.fresh)
  | stopped (t p clear) (hp : acts s t = some (.stop p clear))
      (hloc : s'.loc = ThreadPool.goto s t (.notifyAll p clear)) (ha : acts s' = update (acts s) t none)
      (hh : s'.mon.hist = s.mon.hist ++ [(t, .stop p clear, .stopped)]) (hf : s'.finished = s.finished)
      (hn : s'.fresh = s.fresh)

variable {s s' : St cfg E} {o : Op cfg E}

theorem acts_update {t : Tid cfg E} {p : Ph (Cv π) (Act π)} {a : Option (Act π)}
    (h : s'.mon.ph = update s.mon.ph t p) (hp : p.act = a) : acts s' = update (acts s) t a := by
  funext u
  by_cases hu : u = t
  · subst hu; simp [acts, h, hp]
  · simp [acts, h, hu]

theorem acts_same {t : Tid cfg E} {p : Ph (Cv π) (Act π)} (h : s'.mon.ph = update s.mon.ph t p)
    (hp : p.act = acts s t) : acts s' = acts s := by
  rw [acts_update h hp, update_eq_self]

theorem step_change (h : Step s o s') : Change s s' := by
  cases h with
  | fetch hl hp => exact .fetch _ _ hl rfl (acts_update rfl rfl) ⟨rfl, rfl, rfl⟩
  | enqueue ho hf hp => exact .enqueue _ _ _ (outside_iff.1 ho).2.1 rfl (acts_update rfl rfl) rfl rfl rfl
  | stop ho hw hp => exact .stop _ _ _ (outside_iff.1 ho).2.1 rfl (acts_update rfl rfl) ⟨rfl, rfl, rfl⟩
  | lock hp ho => exact .stay rfl (acts_same rfl (by simp [acts, hp, Ph.act])) ⟨rfl, rfl, rfl⟩
  | sleep hp hs => exact .stay rfl (acts_same rfl (by simp [acts, hp, Ph.act])) ⟨rfl, rfl, rfl⟩
  | spurious hp => exact .stay rfl (acts_same rfl (by simp [acts, hp, Ph.act])) ⟨rfl, rfl, rfl⟩
  | notify hl hu =>
    exact .goto _ .free (by simp) (Or.inl (by simp [hl])) (by simp [hl]) rfl
      (acts_same rfl (by simp [acts, hu, Ph.act])) ⟨rfl, rfl, rfl⟩
  | notifyNobody hl hu =>
    exact .goto _ .free (by simp) (Or.inl (by simp [hl])) (by simp [hl]) rfl rfl ⟨rfl, rfl, rfl⟩
  | announce hl =>
    exact .goto _ _ (by simp) (Or.inl (by simp [hl])) (by simp [hl]) rfl (funext fun u => wakeAll_act _ _ u)
      ⟨rfl, rfl, rfl⟩
  | join hl _ _ _ | joined hl _ | resume hl _ =>
    exact .goto _ _ (by simp) (Or.inl (by simp [hl])) (by simp [hl]) rfl rfl ⟨rfl, rfl, rfl⟩
  | await ho hd =>
    obtain ⟨hp, hl, -⟩ := outside_iff.1 ho
    exact .goto _ _ (by simp) (Or.inr (by simp [acts, hp, Ph.act])) (by simp [hl]) rfl rfl ⟨rfl, rfl, rfl⟩
  | finish hl ho => exact .finish _ _ hl (by simp [acts, (outside_iff.1 ho).1, Ph.act]) rfl rfl rfl rfl rfl
  | @leave t a w sh wk r hp hs =>
    have hact : acts s t = some a := by simp [acts, hp, Ph.act]
    have hacts : (fun u => (update (wakeAll wk s.mon.ph) t .out u).act) = update (acts s) t none := by
      funext u
      by_cases hu : u = t
      · subst hu; simp [Ph.act]
      · simp [hu, wakeAll_act, acts]
    cases a with
    | fetch p =>
      rcases fetch_leave hs with ⟨task, tasks, ht, rfl, -, rfl⟩ | ⟨ht, hst, rfl, rfl⟩
      · exact .pop t p task tasks hact ht rfl hacts rfl rfl rfl
      · exact .exit t p hact ht hst rfl hacts rfl rfl rfl
    | enqueue p task =>
      obtain ⟨rfl, -, rfl⟩ := enqueue_leave hs
      exact .push t p task hact rfl hacts rfl rfl rfl
    | stop p clear =>
      obtain ⟨rfl, -, rfl⟩ := stop_leave hs
      exact .stopped t p clear hact rfl hacts rfl rfl rfl

/-! ## Where the threads are -/

/-- only workers fetch, and a thread that is in a method, or has returned from its loop, does nothing else -/
structure Roles (s : St cfg E) : Prop where
  fetching : ∀ t p, acts s t = some (.fetch p) → (∃ i, t = .inl ⟨p, i⟩) ∧ (s.loc t).job = none
  free : ∀ t a, acts s t = some a → (s.loc t).pt = .free
  exited : ∀ t, (s.loc t).pt = .exited → (s.loc t).job = none

omit [DecidableEq π] [DecidableEq E] in
theorem Roles.out (h : Roles s) {t : Tid cfg E} (hl : (s.loc t).pt ≠ .free) : acts s t = none := by
  cases ha : acts s t with
  | none => rfl
  | some a => exact absurd (h.free t a ha) hl

/-- a thread goes to `l`, in no method -/
theorem Roles.goes (h : Roles s) {t : Tid cfg E} {l : Loc π} (hl : l.pt = .exited → l.job = none)
    (hloc : s'.loc = update s.loc t l) (ha : acts s' = update (acts s) t none) : Roles s' := by
  have before : ∀ u a, acts s' u = some a → s'.loc u = s.loc u ∧ acts s u = some a := by
    intro u a hu
    rw [ha] at hu
    have hut : u ≠ t := by
      rintro rfl
      simp at hu
    exact ⟨by rw [hloc, update_of_ne hut], by simpa [hut] using hu⟩
  refine ⟨fun u p hu => ?_, fun u a hu => ?_, fun u hu => ?_⟩
  · obtain ⟨hlu, hu⟩ := before u _ hu
    rw [hlu]
    exact h.fetching u p hu
  · obtain ⟨hlu, hu⟩ := before u a hu
    rw [hlu]
    exact h.free u a hu
  · rw [hloc] at hu ⊢
    by_cases hut : u = t
    · subst hut
      rw [update_self] at hu ⊢
      exact hl hu
    · rw [update_of_ne hut] at hu ⊢
      exact h.exited u hu

/-- a thread calls a method -/
theorem Roles.calls (h : Roles s) {t : Tid cfg E} {a : Act π} (hl : (s.loc t).pt = .free)
    (hf : ∀ p, a = .fetch p → (∃ i, t = .inl ⟨p, i⟩) ∧ (s.loc t).job = none) (hloc : s'.loc = s.loc)
    (ha : acts s' = update (acts s) t (some a)) : Roles s' := by
  refine ⟨fun u p hu => ?_, fun u b hu => ?_, by rw [hloc]; exact h.exited⟩ <;> rw [ha] at hu <;> rw [hloc]
  · by_cases hut : u = t
    · subst hut
      exact hf p (by simpa using hu)
    · exact h.fetching u p (by simpa [hut] using hu)
  · by_cases hut : u = t
    · subst hut; exact hl
    · exact h.free u b (by simpa [hut] using hu)

theorem Change.roles (h : Change s s') (hi : Roles s) : Roles s' := by
  cases h with
  | fetch p i hl hloc ha hq =>
    refine hi.calls (by rw [hl]) (fun q hp => ?_) hloc ha
    cases hp
    exact ⟨⟨i, rfl⟩, by rw [hl]⟩
  | enqueue t p futures hl hloc ha hh hf hn => exact hi.calls hl (by simp) hloc ha
  | stop t p clear hl hloc ha hq => exact hi.calls hl (by simp) hloc ha
  | stay hloc ha hq =>
    refine ⟨?_, ?_, ?_⟩ <;> rw [hloc]
    · rw [ha]; exact hi.fetching
    · rw [ha]; exact hi.free
    · exact hi.exited
  | goto t pt hx ho hn hloc ha hq =>
    have hout : acts s t = none := ho.elim hi.out id
    exact hi.goes (fun he => absurd he hx) hloc (by rw [ha, ← hout, update_eq_self])
  | finish t task hl ho hloc ha hh hf hn =>
    exact hi.goes (fun _ => rfl) hloc (by rw [ha, ← ho, update_eq_self])
  | pop t p task tasks hp ht hloc ha hh hf hn =>
    have hfree := hi.free t _ hp
    exact hi.goes (fun he => by rw [hfree] at he; cases he) hloc ha
  | exit t p hp ht hs hloc ha hh hf hn =>
    exact hi.goes (l := { s.loc t with pt := .exited }) (fun _ => (hi.fetching t p hp).2) hloc ha
  | push t p task hp hloc ha hh hf hn => exact hi.goes (fun he => by cases he) hloc ha
  | stopped t p clear hp hloc ha hh hf hn => exact hi.goes (fun he => by cases he) hloc ha

/-! ## Numbers -/

/-- every task has its own number -/
structure Numbered (s : St cfg E) : Prop where
  pending : ∀ t p k, acts s t = some (.enqueue p k) → k.id < s.fresh ∧ k.id ∉ ids s
  once : ∀ t u p q k l, acts s t = some (.enqueue p k) → acts s u = some (.enqueue q l) → k.id = l.id → t = u
  old : ∀ d ∈ ids s, d < s.fresh
  nodup : (ids s).Nodup

omit [DecidableEq π] [DecidableEq E] in
/-- no enqueue came, nothing was pushed -/
theorem Numbered.same (h : Numbered s) (ha : ∀ t p k, acts s' t = some (.enqueue p k) → acts s t = some (.enqueue p k))
    (hids : ids s' = ids s) (hn : s'.fresh = s.fresh) : Numbered s' where
  pending t p k ht := by rw [hids, hn]; exact h.pending t p k (ha t p k ht)
  once t u p q k l ht hu := h.once t u p q k l (ha t p k ht) (ha u q l hu)
  old := by rw [hids, hn]; exact h.old
  nodup := by rw [hids]; exact h.nodup

theorem Change.numbered (h : Change s s') (hi : Numbered s) : Numbered s' := by
  have quiet : Quiet s s' → ids s' = ids s ∧ s'.fresh = s.fresh := fun hq => ⟨by rw [ids, hq.hist, ids], hq.fresh⟩
  -- a thread that turns to something else than an enqueue
  have other : ∀ {t b}, (∀ p k, b ≠ some (.enqueue p k)) → acts s' = update (acts s) t b →
      ∀ u p k, acts s' u = some (.enqueue p k) → acts s u = some (.enqueue p k) := by
    intro t b hb ha u p k hu
    rw [ha] at hu
    by_cases hut : u = t
    · subst hut; exact absurd (by simpa using hu) (hb p k)
    · simpa [hut] using hu
  cases h with
  | fetch p i hl hloc ha hq => exact hi.same (other (by simp) ha) (quiet hq).1 (quiet hq).2
  | stop t p clear hl hloc ha hq => exact hi.same (other (by simp) ha) (quiet hq).1 (quiet hq).2
  | stay hloc ha hq => exact hi.same (by rw [ha]; simp) (quiet hq).1 (quiet hq).2
  | goto t pt hx ho hn hloc ha hq => exact hi.same (by rw [ha]; simp) (quiet hq).1 (quiet hq).2
  | finish t task hl ho hloc ha hh hf hn => exact hi.same (by rw [ha]; simp) (by rw [ids, hh, ids]) hn
  | pop t p task tasks hp ht hloc ha hh hf hn => exact hi.same (other (by simp) ha) (by simp [ids, hh]) hn
  | exit t p hp ht hs hloc ha hh hf hn => exact hi.same (other (by simp) ha) (by simp [ids, hh]) hn
  | stopped t p clear hp hloc ha hh hf hn => exact hi.same (other (by simp) ha) (by simp [ids, hh]) hn
  | enqueue t p futures hl hloc ha hh hf hn =>
    have hids : ids s' = ids s := by rw [ids, hh, ids]
    have new : ∀ u q k, acts s' u = some (.enqueue q k) →
        (u = t ∧ k.id = s.fresh) ∨ (u ≠ t ∧ acts s u = some (.enqueue q k)) := by
      intro u q k hu
      rw [ha] at hu
      by_cases hut : u = t
      · subst hut
        simp only [update_self, Option.some.injEq, Act.enqueue.injEq] at hu
        exact Or.inl ⟨rfl, by rw [← hu.2]⟩
      · exact Or.inr ⟨hut, by simpa [hut] using hu⟩
    refine ⟨fun u q k hu => ?_, fun u v q r k l hu hv he => ?_, fun d hd => ?_, by rw [hids]; exact hi.nodup⟩
    · rw [hids, hn]
      rcases new u q k hu with ⟨-, hk⟩ | ⟨-, hu⟩
      · exact ⟨by omega, fun hm => absurd (hi.old _ hm) (by omega)⟩
      · exact ⟨Nat.lt_succ_of_lt (hi.pending u q k hu).1, (hi.pending u q k hu).2⟩
    · rcases new u q k hu with ⟨rfl, hk⟩ | ⟨-, hu⟩ <;> rcases new v r l hv with ⟨rfl, hl⟩ | ⟨-, hv⟩
      · rfl
      · exact absurd (hi.pending v r l hv).1 (by omega)
      · exact absurd (hi.pending u q k hu).1 (by omega)
      · exact hi.once u v q r k l hu hv he
    · rw [hids] at hd
      rw [hn]
      exact Nat.lt_succ_of_lt (hi.old d hd)
  | push t p task hp hloc ha hh hf hn =>
    have hids : ids s' = ids s ++ [task.id] := by simp [ids, hh]
    obtain ⟨hlt, hnew⟩ := hi.pending t p task hp
    have before : ∀ u q k, acts s' u = some (.enqueue q k) → u ≠ t ∧ acts s u = some (.enqueue q k) := by
      intro u q k hu
      rw [ha] at hu
      have hut : u ≠ t := by
        rintro rfl
        simp at hu
      exact ⟨hut, by simpa [hut] using hu⟩
    refine ⟨fun u q k hu => ?_, fun u v q r k l hu hv => ?_, fun d hd => ?_, ?_⟩
    · obtain ⟨hut, hu⟩ := before u q k hu
      obtain ⟨hk, hm⟩ := hi.pending u q k hu
      refine ⟨by rw [hn]; exact hk, fun hm' => ?_⟩
      rw [hids] at hm'
      rcases List.mem_append.1 hm' with hm' | hm'
      · exact hm hm'
      · exact hut (hi.once u t q p k task hu hp (List.mem_singleton.1 hm'))
    · exact hi.once u v q r k l (before u q k hu).2 (before v r l hv).2
    · rw [hids] at hd
      rw [hn]
      rcases List.mem_append.1 hd with hd | hd
      · exact hi.old d hd
      · rw [List.mem_singleton.1 hd]; exact hlt
    · rw [hids]
      exact List.concat_eq_append ▸ hi.nodup.concat hnew

/-! ## Execution -/

def takenIds (s : St cfg E) : List ℕ := (taken s.mon.hist).map (·.2.id)

omit [DecidableEq E] in
/-- what the workers took was pushed -/
theorem taken_accepted (hr : Replayed s) {p : π} {task : Task} (h : (p, task) ∈ taken s.mon.hist) :
    (p, task) ∈ accepted s.mon.hist := by
  rw [← mem_ofPool] at h ⊢
  rw [fifo hr p]
  exact List.mem_append_left _ h

omit [DecidableEq E] in
/-- the front of a queue has not been taken -/
theorem front_new (hi : Numbered s) (hr : Replayed s) {p : π} {task : Task} {tasks : List Task}
    (ht : (s.mon.sh p).tasks = task :: tasks) : task.id ∉ takenIds s := by
  have hfifo := fifo hr p
  rw [ht] at hfifo
  have hfront : (p, task) ∈ accepted s.mon.hist := by rw [← mem_ofPool, hfifo]; simp
  have hsub : ((ofPool p (accepted s.mon.hist)).map Task.id).Sublist (ids s) := by
    rw [ofPool, List.map_map]
    exact List.filter_sublist.map _
  have hnodup : (ofPool p (accepted s.mon.hist)).Nodup := List.Nodup.of_map _ (hi.nodup.sublist hsub)
  intro hm
  obtain ⟨⟨q, k⟩, hk, hid⟩ := List.mem_map.1 hm
  obtain ⟨rfl, rfl⟩ : q = p ∧ k = task :=
    Prod.mk.inj (List.inj_on_of_nodup_map hi.nodup (taken_accepted hr hk) hfront hid)
  rw [hfifo] at hnodup
  exact List.disjoint_of_nodup_append hnodup (mem_ofPool.2 hk) List.mem_cons_self

/-- a taken task is with its worker until it is finished -/
structure Executed (s : St cfg E) : Prop where
  takenOnce : (takenIds s).Nodup
  done : ∀ p k, (p, k) ∈ taken s.mon.hist → k.id ∈ s.finished ∨ ∃ i, (s.loc (.inl ⟨p, i⟩)).job = some k
  job : ∀ t k, (s.loc t).job = some k → k.id ∈ takenIds s ∧ k.id ∉ s.finished
  once : ∀ t u k l, (s.loc t).job = some k → (s.loc u).job = some l → k.id = l.id → t = u
  finished : ∀ d ∈ s.finished, d ∈ takenIds s
  nodup : s.finished.Nodup

omit [DecidableEq π] [DecidableEq E] in
theorem Executed.same (h : Executed s) (hj : ∀ t, (s'.loc t).job = (s.loc t).job)
    (ht : taken s'.mon.hist = taken s.mon.hist) (hf : s'.finished = s.finished) : Executed s' := by
  have hids : takenIds s' = takenIds s := by rw [takenIds, ht, takenIds]
  refine ⟨?_, ?_, ?_, ?_, ?_, ?_⟩
  · rw [hids]; exact h.takenOnce
  · simpa only [ht, hf, hj] using h.done
  · simpa only [hids, hf, hj] using h.job
  · simpa only [hj] using h.once
  · rw [hids, hf]; exact h.finished
  · rw [hf]; exact h.nodup

@[simp] theorem goto_job (t u : Tid cfg E) (pt : Pt π) : (goto s t pt u).job = (s.loc u).job := by
  by_cases hu : u = t
  · subst hu; simp [goto]
  · simp [goto, hu]

theorem Change.executed (h : Change s s') (hn : Numbered s) (hr : Replayed s) (hx : Roles s) (hi : Executed s) :
    Executed s' := by
  cases h with
  | fetch p i hl hloc ha hq => exact hi.same (by simp [hloc]) (by rw [hq.hist]) hq.finished
  | enqueue t p futures hl hloc ha hh hf hn => exact hi.same (by simp [hloc]) (by rw [hh]) hf
  | stop t p clear hl hloc ha hq => exact hi.same (by simp [hloc]) (by rw [hq.hist]) hq.finished
  | stay hloc ha hq => exact hi.same (by simp [hloc]) (by rw [hq.hist]) hq.finished
  | goto t pt hx ho hn hloc ha hq => exact hi.same (by simp [hloc]) (by rw [hq.hist]) hq.finished
  | exit t p hp ht hs hloc ha hh hf hn => exact hi.same (by simp [hloc]) (by simp [hh]) hf
  | push t p task hp hloc ha hh hf hn => exact hi.same (by simp [hloc]) (by simp [hh]) hf
  | stopped t p clear hp hloc ha hh hf hn => exact hi.same (by simp [hloc]) (by simp [hh]) hf
  | pop t p task tasks hp ht hloc ha hh hf hn' =>
    have hnew := front_new hn hr ht
    have hids : takenIds s' = takenIds s ++ [task.id] := by simp [takenIds, hh]
    obtain ⟨⟨i, rfl⟩, hnone⟩ := hx.fetching t p hp
    have jobs : ∀ u k, (s'.loc u).job = some k →
        (u = .inl ⟨p, i⟩ ∧ k = task) ∨ (u ≠ .inl ⟨p, i⟩ ∧ (s.loc u).job = some k) := by
      intro u k hu
      rw [hloc] at hu
      by_cases hut : u = .inl ⟨p, i⟩
      · subst hut; exact Or.inl ⟨rfl, by simpa using hu.symm⟩
      · exact Or.inr ⟨hut, by simpa [hut] using hu⟩
    have keeps : ∀ u, u ≠ .inl ⟨p, i⟩ → s'.loc u = s.loc u := fun u hu => by rw [hloc, update_of_ne hu]
    refine ⟨?_, fun q k hk => ?_, fun u k hu => ?_, fun u v k l hu hv he => ?_, fun d hd => ?_,
      by rw [hf]; exact hi.nodup⟩
    · rw [hids]
      exact List.concat_eq_append ▸ hi.takenOnce.concat hnew
    · rw [hh, taken_task] at hk
      rw [hf]
      rcases List.mem_append.1 hk with hk | hk
      · refine (hi.done q k hk).imp_right ?_
        rintro ⟨j, hj⟩
        refine ⟨j, ?_⟩
        rw [keeps _ fun he => ?_]
        · exact hj
        · rw [he, hnone] at hj; cases hj
      · cases List.mem_singleton.1 hk
        exact Or.inr ⟨i, by simp [hloc]⟩
    · rw [hids, hf]
      rcases jobs u k hu with ⟨-, rfl⟩ | ⟨-, hu⟩
      · exact ⟨by simp, fun hm => hnew (hi.finished _ hm)⟩
      · exact ⟨List.mem_append_left _ (hi.job u k hu).1, (hi.job u k hu).2⟩
    · rcases jobs u k hu with ⟨rfl, rfl⟩ | ⟨-, hu⟩ <;> rcases jobs v l hv with ⟨rfl, rfl⟩ | ⟨-, hv⟩
      · rfl
      · exact absurd (he ▸ (hi.job v l hv).1) hnew
      · exact absurd (he ▸ (hi.job u k hu).1) hnew
      · exact hi.once u v k l hu hv he
    · rw [hids]
      rw [hf] at hd
      exact List.mem_append_left _ (hi.finished d hd)
  | finish t task hl ho hloc ha hh hf hn =>
    have hids : takenIds s' = takenIds s := by rw [takenIds, hh, takenIds]
    obtain ⟨hmem, hnew⟩ := hi.job t task hl
    have jobs : ∀ u k, (s'.loc u).job = some k → u ≠ t ∧ (s.loc u).job = some k := by
      intro u k hu
      rw [hloc] at hu
      have hut : u ≠ t := by
        rintro rfl
        simp at hu
      exact ⟨hut, by simpa [hut] using hu⟩
    refine ⟨by rw [hids]; exact hi.takenOnce, fun q k hk => ?_, fun u k hu => ?_, fun u v k l hu hv => ?_,
      fun d hd => ?_, ?_⟩
    · rw [hh] at hk
      rw [hf]
      rcases hi.done q k hk with hk | ⟨i, hj⟩
      · exact Or.inl (List.mem_append_left _ hk)
      · by_cases hw : (.inl ⟨q, i⟩ : Tid cfg E) = t
        · rw [hw, hl] at hj
          cases hj
          exact Or.inl (by simp)
        · exact Or.inr ⟨i, by rw [hloc, update_of_ne hw]; exact hj⟩
    · obtain ⟨hut, hu⟩ := jobs u k hu
      rw [hids, hf]
      refine ⟨(hi.job u k hu).1, fun hm => ?_⟩
      rcases List.mem_append.1 hm with hm | hm
      · exact (hi.job u k hu).2 hm
      · exact hut (hi.once u t k task hu hl (List.mem_singleton.1 hm))
    · exact hi.once u v k l (jobs u k hu).2 (jobs v l hv).2
    · rw [hids]
      rw [hf] at hd
      rcases List.mem_append.1 hd with hd | hd
      · exact hi.finished d hd
      · rw [List.mem_singleton.1 hd]; exact hmem
    · rw [hf]
      exact List.concat_eq_append ▸ hi.nodup.concat hnew

/-! ## What the workers owe -/

/-- no section has set the `stop` of the pool -/
def NeverStopped (p : π) (h : Hist cfg E) : Prop := ∀ e ∈ h, ∀ clear, e.2.1 ≠ .stop p clear

/-- the workers owe a task that was pushed before `stop` was set, or by one of them -/
def Owed (p : π) (h : Hist cfg E) (task : Task) : Prop :=
  ∃ h1 t h2, h = h1 ++ (t, .enqueue p task, .pushed) :: h2 ∧ (worksFor p t = true ∨ NeverStopped p h1)

omit [DecidableEq E] in
theorem owed_snoc {h : Hist cfg E} {e : Tid cfg E × Act π × Res} {p : π} {task : Task} (ho : Owed p (h ++ [e]) task) :
    Owed p h task ∨ ∃ t, e = (t, .enqueue p task, .pushed) ∧ (worksFor p t = true ∨ NeverStopped p h) := by
  obtain ⟨h1, t, h2, hh, hw⟩ := ho
  rcases snoc_eq_append_cons hh with ⟨-, rfl, rfl⟩ | ⟨h3, -, rfl⟩
  · exact Or.inr ⟨t, rfl, hw⟩
  · exact Or.inl ⟨h1, t, h3, rfl, hw⟩

omit [DecidableEq E] in
theorem owed_accepted {h : Hist cfg E} {p : π} {task : Task} (ho : Owed p h task) : (p, task) ∈ accepted h := by
  obtain ⟨h1, t, h2, rfl, -⟩ := ho
  exact List.mem_filterMap.2 ⟨(t, .enqueue p task, .pushed), List.mem_append_right h1 List.mem_cons_self, rfl⟩

omit [DecidableEq E] in
/-- a pool with `stop` set was stopped by a section -/
theorem stopped_mem {h : Hist cfg E} {sh : π → Pool} (hr : Replay (monitor cfg) (fun _ => ⟨[], false⟩) h sh) {p : π}
    (hs : (sh p).stop = true) : ¬ NeverStopped p h := by
  induction hr with
  | nil => cases hs
  | @snoc h sh t a w sh' wk r _ hsec ih =>
    have before : (sh p).stop = true → ¬ NeverStopped p (h ++ [(t, a, r)]) :=
      fun hs hn => ih hs fun e he => hn e (List.mem_append_left _ he)
    cases a with
    | fetch q =>
      rcases fetch_leave hsec with ⟨task, tasks, -, rfl, -, -⟩ | ⟨-, -, rfl, -⟩
      · by_cases hp : p = q
        · subst hp; exact before (by simpa using hs)
        · exact before (by simpa [hp] using hs)
      · exact before hs
    | enqueue q task =>
      obtain ⟨rfl, -, -⟩ := enqueue_leave hsec
      by_cases hp : p = q
      · subst hp; exact before (by simpa using hs)
      · exact before (by simpa [hp] using hs)
    | stop q clear =>
      obtain ⟨rfl, -, -⟩ := stop_leave hsec
      by_cases hp : p = q
      · subst hp
        exact fun hn => hn _ (List.mem_append_right _ (List.mem_singleton_self _)) clear rfl
      · exact before (by simpa [hp] using hs)

/-- a worker that has returned stays there -/
theorem Change.exited (h : Change s s') (hi : Roles s) {t : Tid cfg E} (ht : (s.loc t).pt = .exited) :
    (s'.loc t).pt = .exited := by
  have hout : acts s t = none := hi.out (by rw [ht]; simp)
  have other : ∀ {u l}, u ≠ t → s'.loc = update s.loc u l → (s'.loc t).pt = .exited := by
    intro u l hu hloc
    rw [hloc, update_of_ne (Ne.symm hu)]
    exact ht
  have busy : ∀ {u a}, acts s u = some a → u ≠ t := by
    rintro u a hu rfl
    rw [hout] at hu; cases hu
  cases h with
  | fetch p i hl hloc ha hq => rw [hloc]; exact ht
  | enqueue u p futures hl hloc ha hh hf hn => rw [hloc]; exact ht
  | stop u p clear hl hloc ha hq => rw [hloc]; exact ht
  | stay hloc ha hq => rw [hloc]; exact ht
  | goto u pt hx ho hn hloc ha hq => exact other (by rintro rfl; exact hn ht) hloc
  | finish u task hl ho hloc ha hh hf hn =>
    refine other ?_ hloc
    rintro rfl
    rw [hi.exited u ht] at hl; cases hl
  | pop u p task tasks hp _ hloc _ _ _ _ => exact other (busy hp) hloc
  | exit u p hp _ _ hloc _ _ _ _ => exact other (busy hp) hloc
  | push u p task hp hloc _ _ _ _ => exact other (busy hp) hloc
  | stopped u p clear hp hloc _ _ _ _ => exact other (busy hp) hloc

/-- a worker returns when `stop` is set and the queue empty -/
theorem Change.exits (h : Change s s') (hi : Roles s) {p : π} {i : Fin (cfg.threads p)}
    (hx : (s'.loc (.inl ⟨p, i⟩)).pt = .exited) : (s.loc (.inl ⟨p, i⟩)).pt = .exited ∨
      (s.mon.sh p).tasks = [] ∧ (s.mon.sh p).stop = true := by
  have other : ∀ {u l}, s'.loc = update s.loc u l → l.pt ≠ .exited → (s.loc (.inl ⟨p, i⟩)).pt = .exited := by
    intro u l hloc hl
    rw [hloc] at hx
    by_cases hu : (.inl ⟨p, i⟩ : Tid cfg E) = u
    · rw [← hu, update_self] at hx
      exact absurd hx hl
    · rwa [update_of_ne hu] at hx
  cases h with
  | fetch q j hl hloc ha hq => exact Or.inl (by rwa [hloc] at hx)
  | enqueue u q futures hl hloc ha hh hf hn => exact Or.inl (by rwa [hloc] at hx)
  | stop u q clear hl hloc ha hq => exact Or.inl (by rwa [hloc] at hx)
  | stay hloc ha hq => exact Or.inl (by rwa [hloc] at hx)
  | goto u pt hpt ho hn hloc ha hq => exact Or.inl (other hloc hpt)
  | finish u task hl ho hloc ha hh hf hn =>
    refine Or.inl (other hloc fun he => ?_)
    rw [hi.exited u he] at hl; cases hl
  | pop u q task tasks hp _ hloc _ _ _ _ => exact Or.inl (other hloc (by simp [hi.free u _ hp]))
  | push u q task hp hloc _ _ _ _ => exact Or.inl (other hloc (by simp))
  | stopped u q clear hp hloc _ _ _ _ => exact Or.inl (other hloc (by simp))
  | exit u q hp ht hs hloc _ _ _ _ =>
    obtain ⟨⟨j, rfl⟩, -⟩ := hi.fetching u q hp
    by_cases hpq : p = q
    · subst hpq
      exact Or.inr ⟨ht, hs⟩
    · have hne : (.inl ⟨p, i⟩ : Tid cfg E) ≠ .inl ⟨q, j⟩ := fun he => hpq (congrArg Sigma.fst (Sum.inl.inj he))
      rw [hloc, ThreadPool.goto, update_of_ne hne] at hx
      exact Or.inl hx

theorem Change.owed (h : Change s s') {p : π} {task : Task} (ho : Owed p s'.mon.hist task) :
    Owed p s.mon.hist task ∨
      ∃ t, (s'.loc t).pt = .notifyOne p task.id ∧ (worksFor p t = true ∨ NeverStopped p s.mon.hist) := by
  have other : ∀ {t : Tid cfg E} {a : Act π} {r : Res}, s'.mon.hist = s.mon.hist ++ [(t, a, r)] →
      a ≠ .enqueue p task → Owed p s.mon.hist task := by
    intro t a r hh ha
    rw [hh] at ho
    rcases owed_snoc ho with ho | ⟨u, he, -⟩
    · exact ho
    · exact absurd (congrArg (·.2.1) he) ha
  cases h with
  | fetch _ _ _ _ _ hq | stop _ _ _ _ _ _ hq | stay _ _ hq | goto _ _ _ _ _ _ _ hq => exact Or.inl (hq.hist ▸ ho)
  | enqueue _ _ _ _ _ _ hh _ _ | finish _ _ _ _ _ _ hh _ _ => exact Or.inl (hh ▸ ho)
  | pop _ _ _ _ _ _ _ _ hh _ _ | exit _ _ _ _ _ _ _ hh _ _ | stopped _ _ _ _ _ _ hh _ _ =>
    exact Or.inl (other hh (by simp))
  | push t q k hp hloc ha hh hf hn =>
    rw [hh] at ho
    rcases owed_snoc ho with ho | ⟨u, he, hw⟩
    · exact Or.inl ho
    · simp only [Prod.mk.injEq, Act.enqueue.injEq, and_true] at he
      obtain ⟨rfl, rfl, rfl⟩ := he
      exact Or.inr ⟨t, by rw [hloc]; simp [ThreadPool.goto], hw⟩

theorem Change.taken_mono (h : Change s s') {k : π × Task} (hk : k ∈ taken s.mon.hist) : k ∈ taken s'.mon.hist := by
  cases h with
  | fetch _ _ _ _ _ hq | stop _ _ _ _ _ _ hq | stay _ _ hq | goto _ _ _ _ _ _ _ hq => rwa [hq.hist]
  | enqueue _ _ _ _ _ _ hh _ _ | finish _ _ _ _ _ _ hh _ _ => rwa [hh]
  | pop _ _ _ _ _ _ _ _ hh _ _ => rw [hh, taken_task]; exact List.mem_append_left _ hk
  | exit _ _ _ _ _ _ _ hh _ _ | stopped _ _ _ _ _ _ hh _ _ | push _ _ _ _ _ _ hh _ _ => simpa [hh] using hk

/-- when all workers of a pool have returned, they have taken what they owe -/
structure Drained (s : St cfg E) : Prop where
  stopped : ∀ p i, (s.loc (.inl ⟨p, i⟩)).pt = .exited → (s.mon.sh p).stop = true
  drained : ∀ p, 0 < cfg.threads p → (∀ i, (s.loc (.inl ⟨p, i⟩)).pt = .exited) →
    ∀ task, Owed p s.mon.hist task → (p, task) ∈ taken s.mon.hist

theorem step_drained (hs : Step s o s') (hx : Roles s) (hr : Replayed s) (hi : Drained s) : Drained s' := by
  have h := step_change hs
  have stopped : ∀ p i, (s'.loc (.inl ⟨p, i⟩)).pt = .exited → (s.mon.sh p).stop = true := fun p i hp =>
    (h.exits hx hp).elim (hi.stopped p i) And.right
  refine ⟨fun p i hp => step_stop hs (stopped p i hp), fun p hpos hall task ho => ?_⟩
  rcases h.owed ho with ho | ⟨t, ht, hw | hn⟩
  · by_cases hold : ∀ i, (s.loc (.inl ⟨p, i⟩)).pt = .exited
    · exact h.taken_mono (hi.drained p hpos hold task ho)
    · -- the last worker returns now: the queue is empty
      obtain ⟨i, hni⟩ := not_forall.1 hold
      obtain ⟨hempty, -⟩ := (h.exits hx (hall i)).resolve_left hni
      have hfifo := fifo hr p
      rw [hempty, List.append_nil] at hfifo
      exact h.taken_mono (mem_ofPool.1 (hfifo ▸ mem_ofPool.2 (owed_accepted ho)))
  · -- the worker that pushed has not returned
    rcases t with ⟨q, i⟩ | e
    · obtain rfl : q = p := by simpa [worksFor] using hw
      rw [hall i] at ht; cases ht
    · cases hw
  · exact absurd hn (stopped_mem hr (stopped p ⟨0, hpos⟩ (hall _)))

/-- a stop has joined the workers before `i`, and all when it is done -/
structure Joins (s : St cfg E) : Prop where
  joining : ∀ t p n clear, (s.loc t).pt = .join p n clear →
    ∀ i : Fin (cfg.threads p), i.val < n → (s.loc (.inl ⟨p, i⟩)).pt = .exited
  cleared : ∀ p, s.cleared p = true → ∀ i, (s.loc (.inl ⟨p, i⟩)).pt = .exited

theorem step_joins (hs : Step s o s') (hx : Roles s) (hi : Joins s) : Joins s' := by
  have stays : ∀ {u : Tid cfg E}, (s.loc u).pt = .exited → (s'.loc u).pt = .exited := (step_change hs).exited hx
  have kept : ∀ p, s.cleared p = true → ∀ i, (s'.loc (.inl ⟨p, i⟩)).pt = .exited :=
    fun p hp i => stays (hi.cleared p hp i)
  -- a thread goes to a place that is not in the loop over the joins
  have other : ∀ {t : Tid cfg E} {l}, s'.loc = update s.loc t l → (∀ p n clear, l.pt ≠ .join p n clear) →
      ∀ u p n clear, (s'.loc u).pt = .join p n clear →
        ∀ i : Fin (cfg.threads p), i.val < n → (s'.loc (.inl ⟨p, i⟩)).pt = .exited := by
    intro t l hloc hl u p n clear hu i hin
    refine stays ?_
    rw [hloc] at hu
    by_cases hut : u = t
    · subst hut
      rw [update_self] at hu
      exact absurd hu (hl p n clear)
    · rw [update_of_ne hut] at hu
      exact hi.joining u p n clear hu i hin
  cases hs with
  | fetch | enqueue | stop | lock | sleep | spurious => exact ⟨hi.joining, hi.cleared⟩
  | notify _ _ | notifyNobody _ _ | await _ _ | resume _ _ => exact ⟨other rfl (by simp), kept⟩
  | @announce t p clear hl =>
    refine ⟨fun u q n c hu i hin => stays ?_, kept⟩
    by_cases hut : u = t
    · subst hut
      simp only [goto, update_self, Pt.join.injEq] at hu
      omega
    · exact hi.joining u q n c (by simpa [goto, hut] using hu) i hin
  | @join t p n clear hl hn hc hx' =>
    refine ⟨fun u q m c hu i him => stays ?_, kept⟩
    by_cases hut : u = t
    · subst hut
      simp only [goto, update_self, Pt.join.injEq] at hu
      obtain ⟨rfl, rfl, rfl⟩ := hu
      rcases Nat.lt_succ_iff_lt_or_eq.1 him with him | him
      · exact hi.joining u p n clear hl i him
      · obtain rfl : i = ⟨n, hn⟩ := Fin.ext him
        exact hx'
    · exact hi.joining u q m c (by simpa [goto, hut] using hu) i him
  | @joined t p n clear hl hn =>
    refine ⟨other rfl (by simp), fun q hq i => ?_⟩
    by_cases hqp : q = p
    · subst hqp
      rcases Bool.eq_false_or_eq_true (s.cleared q) with hc | hc
      · exact kept q hc i
      · have : ¬ n < cfg.threads q := fun h => hn ⟨h, hc⟩
        exact stays (hi.joining t q n clear hl i (by omega))
    · exact kept q (by simpa [hqp] using hq) i
  | @finish t task hl ho =>
    refine ⟨other rfl fun p n clear he => ?_, kept⟩
    rw [(outside_iff.1 ho).2.1] at he; cases he
  | @leave t a w sh wk r hp hs =>
    have hfree := hx.free t a (by simp [acts, hp, Ph.act])
    refine ⟨other rfl fun p n clear he => ?_, kept⟩
    unfold after at he
    split at he <;> simp [hfree] at he

/-! ## Runs -/

structure Draining (s : St cfg E) : Prop where
  replayed : Replayed s
  roles : Roles s
  numbered : Numbered s
  executed : Executed s
  drained : Drained s
  joins : Joins s

omit [DecidableEq E] in
theorem init_draining : Draining (init cfg E) where
  replayed := .nil
  roles := ⟨by simp [acts, init, Ph.act], by simp [acts, init, Ph.act], by simp [init]⟩
  numbered := ⟨by simp [acts, init, Ph.act], by simp [acts, init, Ph.act], by simp [ids, init, accepted],
    by simp [ids, init, accepted]⟩
  executed := ⟨by simp [takenIds, init, taken], by simp [init, taken], by simp [init], by simp [init], by simp [init],
    by simp [init]⟩
  drained := ⟨by simp [init], fun p hpos h => by simpa [init] using h ⟨0, hpos⟩⟩
  joins := ⟨by simp [init], by simp [init]⟩

theorem step_draining (hs : Step s o s') (hi : Draining s) : Draining s' where
  replayed := step_replayed hs hi.replayed
  roles := (step_change hs).roles hi.roles
  numbered := (step_change hs).numbered hi.numbered
  executed := (step_change hs).executed hi.numbered hi.replayed hi.roles hi.executed
  drained := step_drained hs hi.roles hi.replayed hi.drained
  joins := step_joins hs hi.roles hi.joins

/-- **Stopping loses no task.** In every run: the tasks leave the queue of a pool in the order in which they were pushed,
each at most once; and when a stop_all of a pool with a worker has returned, every task that was pushed before `stop`
was set, or by one of the workers, has been taken once and executed once. -/
theorem stop_all_drains [Fintype π] [Fintype E] (cfg : Config π) (ops : List (Op cfg E)) (s : St cfg E)
    (hr : (pools cfg E).run (init cfg E) ops = some s) :
    (∀ p, ofPool p (accepted s.mon.hist) = ofPool p (taken s.mon.hist) ++ (s.mon.sh p).tasks) ∧
      ((taken s.mon.hist).map (·.2.id)).Nodup ∧
      ∀ p, 0 < cfg.threads p → s.cleared p = true → ∀ task, Owed p s.mon.hist task →
        (ofPool p (taken s.mon.hist)).count task = 1 ∧ s.finished.count task.id = 1 := by
  have hi : Draining s := (pools cfg E).run_inv (fun _ _ _ hi hs => step_draining (step_eq hs) hi) init_draining hr
  refine ⟨fifo hi.replayed, hi.executed.takenOnce, fun p hpos hc task ho => ?_⟩
  have hexited := hi.joins.cleared p hc
  have htaken := hi.drained.drained p hpos hexited task ho
  have hnodup : (ofPool p (taken s.mon.hist)).Nodup := by
    refine List.Nodup.of_map Task.id (hi.executed.takenOnce.sublist ?_)
    rw [ofPool, List.map_map]
    exact List.filter_sublist.map _
  refine ⟨List.count_eq_one_of_mem hnodup (mem_ofPool.2 htaken), List.count_eq_one_of_mem hi.executed.nodup ?_⟩
  rcases hi.executed.done p task htaken with hf | ⟨i, hj⟩
  · exact hf
  · rw [hi.roles.exited _ (hexited i)] at hj; cases hj

theorem one_worker : 0 < oneByOne.threads () := by decide

/-- the worker of the pool is stopped while task 0 runs; task 0 pushes task 1, which runs as well -/
def drainOps : List (Op oneByOne Unit) :=
  [.enqueue outer () [], .lock outer, .exec outer, .notify outer none, .fetch () ⟨0, one_worker⟩, .lock worker,
    .exec worker] ++ stopOps ++
  [.enqueue worker () [], .lock worker, .exec worker, .notify worker none, .finish worker,
    .fetch () ⟨0, one_worker⟩, .lock worker, .exec worker, .finish worker,
    .fetch () ⟨0, one_worker⟩, .lock worker, .exec worker, .join outer, .join outer]

theorem stop_all_drains_spawned :
    ∃ s, (pools oneByOne Unit).run (init oneByOne Unit) drainOps = some s ∧ s.cleared () = true ∧
      s.finished.count 1 = 1 :=
  ⟨_, rfl, rfl, ((stop_all_drains oneByOne drainOps _ rfl).2.2 () (by decide) rfl ⟨1, []⟩
    ⟨[(outer, .enqueue () ⟨0, []⟩, .pushed), (worker, .fetch (), .task ⟨0, []⟩), (outer, .stop () true, .stopped)],
      worker, _, rfl, Or.inl rfl⟩).2⟩

end Hodgepodge.ThreadPool
