/-
`blocking_queue` (thread_queue.h): a bounded deque behind one mutex, with the condition variable `_cv` for consumers and
`_cv_notfull` for producers. Consumers pass a filter and take the oldest element it accepts; `close` makes consumers
that find nothing return false.

The code under the lock of each method is a section of a `Core.Monitor`; every number of threads runs any sequence of
calls. An `int` compared with a `size_t` is converted to unsigned, so a negative limit is a huge one.

Results:
- `legal`: the calls, in the order in which they held the lock, are a history of the queue with filtered takes of
  `Core.FilterFifo`, and `_q` is what that history leaves.
- `delivers_each_once_in_order`: accepted elements are received elements plus the queue; the queue stands in put order;
  a get returns the oldest element its filter accepts at that moment; a consumer that always uses the same filter
  receives in put order.
- `no_lost_wakeup`: no consumer is asleep while the queue holds an element for it or is closed, and no producer is
  asleep while there is room.
-/
import Mathlib.Data.Multiset.AddSub
import Hodgepodge.Core.FilterFifo
import Hodgepodge.Core.Monitor

namespace Hodgepodge.BlockingQueue

open Hodgepodge.Core Hodgepodge.Core.Monitor
open List (Perm Sublist)

variable {ι α : Type*}

/-! ## Model -/

/-- an `int` operand of a comparison with a `size_t` -/
def sizeT (i : Int32) : ℕ := (i.toInt % 2 ^ 64).toNat

/-- the fields that the methods change -/
structure Fields (α : Type*) where
  q : List α
  maxSize : Int32
  closed : Bool

def Fields.empty : Fields α := ⟨[], 0, false⟩

/-- `_cv` and `_cv_notfull` -/
inductive Cv where
  | cv
  | cvNotfull
deriving DecidableEq

inductive Call (α : Type*) where
  | get (filter : α → Bool)
  | put (obj : α) (blocking : Bool)
  | close
  | size

/-- `get none`: get returned false -/
inductive Ret (α : Type*) where
  | get (ret : Option α)
  | put (ok : Bool)
  | close
  | size (n : Int32)

/-- `_q.size() < _size_limit` -/
def below (sizeLimit : Int32) (q : List α) : Bool := q.length < sizeT sizeLimit

/-- `if(_q.size() > _max_size) _max_size = _q.size();` -/
def mark (s : Fields α) : Fields α :=
  if sizeT s.maxSize < s.q.length then { s with maxSize := Int32.ofNat s.q.length } else s

/-- `findIdx?` is the scan of the wait predicate, `some it` an iterator before `_q.end()` -/
def get (sizeLimit : Int32) (filter : α → Bool) (s : Fields α) : Sec Cv (Fields α) (Ret α) :=
  match s.q.findIdx? filter, s.closed with
  | none, false => .wait .cv
  | none, true => .leave (mark s) (fun _ => false) (.get none)
  | some it, _ =>
    let q := s.q.eraseIdx it
    .leave { mark s with q := q } (fun c => c == .cvNotfull && below sizeLimit q) (.get s.q[it]?)

/-- `again`: the call is past the test of `blocking` and comes from the wait -/
def put (sizeLimit : Int32) (obj : α) (blocking again : Bool) (s : Fields α) : Sec Cv (Fields α) (Ret α) :=
  if !again && !blocking && !below sizeLimit s.q then .leave s (fun _ => false) (.put false)
  else if below sizeLimit s.q then .leave { s with q := s.q ++ [obj] } (fun c => c == .cv) (.put true)
  else .wait .cvNotfull

def close (s : Fields α) : Sec Cv (Fields α) (Ret α) := .leave { s with closed := true } (fun c => c == .cv) .close

def size (s : Fields α) : Sec Cv (Fields α) (Ret α) :=
  .leave s (fun _ => false) (.size (Int32.ofNat s.q.length))

/-- `get` without a filter -/
def Call.getAny : Call α := .get fun _ => true

def monitor (sizeLimit : Int32) : Monitor Unit Cv (Call α) (Fields α) (Ret α) where
  mon _ := ()
  sec
    | .get filter, _, s => get sizeLimit filter s
    | .put obj blocking, again, s => put sizeLimit obj blocking again s
    | .close, _, s => close s
    | .size, _, s => size s

abbrev St (ι α : Type*) := Cfg ι Unit Cv (Call α) (Fields α) (Ret α)

abbrev Hist (ι α : Type*) := List (ι × Call α × Ret α)

/-- any threads, any calls, from a new queue -/
def queue (ι α : Type*) [DecidableEq ι] (sizeLimit : Int32) : Lts (St ι α) (Op ι (Call α)) :=
  Monitor.lts ι (monitor sizeLimit) Fields.empty

/-! ## What a section does -/

@[simp] theorem mark_q (s : Fields α) : (mark s).q = s.q := by unfold mark; split <;> rfl

@[simp] theorem mark_closed (s : Fields α) : (mark s).closed = s.closed := by unfold mark; split <;> rfl

theorem find_of_findIdx {q : List α} {f : α → Bool} {i : ℕ} (h : q.findIdx? f = some i) : q.find? f = q[i]? := by
  rw [List.find?_eq_bind_findIdx?_getElem?, h]; rfl

theorem find_none_of_findIdx {q : List α} {f : α → Bool} (h : q.findIdx? f = none) : q.find? f = none := by
  rw [List.find?_eq_bind_findIdx?_getElem?, h]; rfl

/-- a get sleeps on `_cv` when nothing fits and the queue is open -/
theorem get_wait {lim : Int32} {f : α → Bool} {s : Fields α} {c : Cv} (h : get lim f s = .wait c) :
    c = .cv ∧ s.q.find? f = none ∧ s.closed = false := by
  unfold get at h
  split at h
  · rename_i hn hc; cases h; exact ⟨rfl, find_none_of_findIdx hn, hc⟩
  · cases h
  · cases h

/-- a get leaves with the oldest element that fits, or empty-handed from a closed queue that holds none -/
theorem get_leave {lim : Int32} {f : α → Bool} {s s' : Fields α} {wake : Cv → Bool} {r : Ret α}
    (h : get lim f s = .leave s' wake r) :
    (∃ x, s.q.find? f = some x ∧ r = .get (some x) ∧ s'.q = s.q.eraseP f ∧ s'.closed = s.closed ∧
        wake .cvNotfull = below lim s'.q) ∨
      (s.q.find? f = none ∧ s.closed = true ∧ r = .get none ∧ s'.q = s.q ∧ s'.closed = s.closed) := by
  unfold get at h
  split at h
  · cases h
  · rename_i hn hc; cases h
    exact Or.inr ⟨find_none_of_findIdx hn, hc, rfl, mark_q s, mark_closed s⟩
  · rename_i it hi; cases h
    obtain ⟨hlt, hx⟩ := List.findIdx?_eq_some_iff_getElem.1 hi
    refine Or.inl ⟨s.q[it], ?_, ?_, ?_, mark_closed s, ?_⟩
    · rw [find_of_findIdx hi, List.getElem?_eq_getElem hlt]
    · rw [List.getElem?_eq_getElem hlt]
    · rw [List.eraseP_eq_eraseIdx, hi]
    · simp

theorem put_wait {lim : Int32} {obj : α} {b w : Bool} {s : Fields α} {c : Cv} (h : put lim obj b w s = .wait c) :
    c = .cvNotfull ∧ below lim s.q = false := by
  unfold put at h
  split_ifs at h with h1 h2
  cases h; exact ⟨rfl, by simpa using h2⟩

theorem put_leave {lim : Int32} {obj : α} {b w : Bool} {s s' : Fields α} {wake : Cv → Bool} {r : Ret α}
    (h : put lim obj b w s = .leave s' wake r) :
    (below lim s.q = true ∧ s' = { s with q := s.q ++ [obj] } ∧ wake = (fun c => c == .cv) ∧ r = .put true) ∨
      (below lim s.q = false ∧ s' = s ∧ b = false ∧ r = .put false) := by
  unfold put at h
  split_ifs at h with h1 h2
  · cases h; simp at h1; exact Or.inr ⟨h1.2, rfl, h1.1.2, rfl⟩
  · cases h; exact Or.inl ⟨h2, rfl, rfl, rfl⟩

/-! ## The queue is a queue with filtered takes -/

/-- what a completed call did to the queue -/
def event : ι × Call α × Ret α → Option (FilterFifo.Ev ι α)
  | (_, .put obj _, .put true) => some (.put obj)
  | (t, .get f, .get (some x)) => some (.take t f x)
  | _ => none

/-- **Refinement.** The completed calls, in the order in which they held the lock, are a history of the queue with
filtered takes; `_q` is what it leaves. -/
theorem legal {lim : Int32} {h : Hist ι α} {s : Fields α} (hr : Replay (monitor lim) Fields.empty h s) :
    FilterFifo.Legal (h.filterMap event) s.q := by
  induction hr with
  | nil => exact .nil
  | @snoc h s t a w s' wake r _ hs ih =>
    rw [List.filterMap_append]
    have same : event (t, a, r) = none → s'.q = s.q →
        FilterFifo.Legal (h.filterMap event ++ [(t, a, r)].filterMap event) s'.q := by
      intro he hq
      simpa [List.filterMap_cons, he, hq] using ih
    cases a with
    | get f =>
      rcases get_leave hs with ⟨x, hx, rfl, hq, -, -⟩ | ⟨-, -, rfl, hq, -⟩
      · rw [hq]; exact ih.take t hx
      · exact same rfl hq
    | put obj b =>
      rcases put_leave hs with ⟨-, rfl, -, rfl⟩ | ⟨-, rfl, -, rfl⟩
      · exact ih.put obj
      · exact same rfl rfl
    | close => cases hs; exact same rfl rfl
    | size => cases hs; exact same rfl rfl

/-- elements of the puts that returned true, in order -/
def accepted (h : Hist ι α) : List α :=
  h.filterMap fun
    | (_, .put obj _, .put true) => some obj
    | _ => none

/-- elements of the gets that returned true, in order -/
def received (h : Hist ι α) : List α :=
  h.filterMap fun
    | (_, .get _, .get (some x)) => some x
    | _ => none

/-- elements that the gets of thread `t` returned, in order -/
def receivedBy [DecidableEq ι] (t : ι) (h : Hist ι α) : List α := received (h.filter (·.1 = t))

theorem puts_event (h : Hist ι α) : FilterFifo.puts (h.filterMap event) = accepted h := by
  unfold FilterFifo.puts accepted
  rw [List.filterMap_filterMap]
  congr 1
  funext e
  unfold event
  split <;> simp [FilterFifo.Ev.putVal]

theorem takes_event (h : Hist ι α) : FilterFifo.takes (h.filterMap event) = received h := by
  unfold FilterFifo.takes received
  rw [List.filterMap_filterMap]
  congr 1
  funext e
  unfold event
  split <;> simp [FilterFifo.Ev.takeVal]

theorem takesBy_event [DecidableEq ι] (t : ι) (h : Hist ι α) :
    FilterFifo.takesBy t (h.filterMap event) = receivedBy t h := by
  unfold FilterFifo.takesBy receivedBy received
  rw [List.filterMap_filterMap, List.filterMap_filter]
  congr 1
  funext e
  unfold event
  split
  · split <;> simp_all [FilterFifo.Ev.takeValBy]
  · split <;> simp_all [FilterFifo.Ev.takeValBy]
  · split <;> simp_all

theorem event_take {h : Hist ι α} {t : ι} {f : α → Bool} {x : α}
    (he : FilterFifo.Ev.take t f x ∈ h.filterMap event) : (t, .get f, .get (some x)) ∈ h := by
  obtain ⟨e, hm, he⟩ := List.mem_filterMap.1 he
  unfold event at he
  split at he
  · cases he
  · cases he; exact hm
  · cases he

/-! ## Exactly once, in order -/

section

variable [DecidableEq ι] {sizeLimit : Int32} {s : St ι α}

theorem reach_replay (hr : (queue ι α sizeLimit).Reach s) : Replay (monitor sizeLimit) Fields.empty s.hist s.sh :=
  (queue ι α sizeLimit).reach_inv (I := fun s => Replay (monitor sizeLimit) Fields.empty s.hist s.sh) .nil
    (fun _ _ _ h hs => (step_move hs).replay h) hr

theorem reach_legal (hr : (queue ι α sizeLimit).Reach s) : FilterFifo.Legal (s.hist.filterMap event) s.sh.q :=
  legal (reach_replay hr)

omit [DecidableEq ι] in
/-- a get that returns `x` found `x` as the oldest element that its filter accepts -/
theorem result_get {t : ι} {f : α → Bool} {x : α}
    (h : result (monitor sizeLimit) s t = some (.get f, .get (some x))) : s.sh.q.find? f = some x := by
  unfold result at h
  split at h
  · rename_i a w hp
    split at h
    · cases h
    · rename_i s' wake r hs
      cases h
      rcases get_leave hs with ⟨y, hy, hr, -⟩ | ⟨-, -, hr, -⟩
      · cases hr; exact hy
      · cases hr
  · cases h

/-- **Exactly once, in order.** In every reachable state: the accepted elements are the received ones plus the queue;
the queue stands in put order; every successful get returned, at its moment of the run, the oldest element that its
filter accepts; a consumer that always uses the same filter received its elements in put order. -/
theorem delivers_each_once_in_order (sizeLimit : Int32) (ops : List (Op ι (Call α))) (s : St ι α)
    (hr : (queue ι α sizeLimit).run (queue ι α sizeLimit).init ops = some s) :
    (accepted s.hist : Multiset α) = received s.hist + s.sh.q ∧ s.sh.q.Sublist (accepted s.hist) ∧
      (∀ h1 h2 t f x, s.hist = h1 ++ (t, .get f, .get (some x)) :: h2 →
        ∃ pre post s1, ops = pre ++ .exec t :: post ∧
          (queue ι α sizeLimit).run (queue ι α sizeLimit).init pre = some s1 ∧ s1.hist = h1 ∧
          s1.sh.q.find? f = some x) ∧
      ∀ t f, (∀ c r, (t, c, r) ∈ s.hist → ∀ g, c = .get g → g = f) →
        (receivedBy t s.hist).Sublist (accepted s.hist) := by
  have hl := reach_legal ⟨ops, hr⟩
  refine ⟨?_, ?_, ?_, ?_⟩
  · have hp := hl.perm
    rw [puts_event, takes_event] at hp
    exact (Multiset.coe_eq_coe.2 hp).trans (Multiset.coe_add _ _).symm
  · rw [← puts_event]; exact hl.sublist
  · intro h1 h2 t f x hh
    obtain ⟨pre, post, s1, rfl, hr1, hh1, hres⟩ := Monitor.moment hr hh
    exact ⟨pre, post, s1, rfl, hr1, hh1, result_get hres⟩
  · intro t f hf
    rw [← puts_event, ← takesBy_event]
    exact hl.taken_in_order fun g x hm => hf _ _ (event_take hm) g rfl

end

/-- the filtered get of thread 1 finds only 5 and sleeps; the put of 7 wakes it, and it takes 7 from behind 5 -/
def middleOps : List (Op ℕ (Call ℕ)) :=
  [.call 0 (.put 5 true), .lock 0, .exec 0, .call 1 (.get (6 ≤ ·)), .lock 1, .exec 1, .call 0 (.put 7 false), .lock 0,
    .exec 0, .lock 1, .exec 1]

theorem delivers_from_the_middle :
    ∃ s, (queue ℕ ℕ 2).run (queue ℕ ℕ 2).init middleOps = some s ∧ received s.hist = [7] ∧ s.sh.q = [5] ∧
      (accepted s.hist : Multiset ℕ) = received s.hist + s.sh.q ∧ (receivedBy 1 s.hist).Sublist (accepted s.hist) :=
  ⟨_, rfl, by decide, by decide, (delivers_each_once_in_order 2 middleOps _ rfl).1,
    (delivers_each_once_in_order 2 middleOps _ rfl).2.2.2 1 (6 ≤ ·) (by
      intro c r hm g hg
      subst hg
      rcases List.mem_cons.1 hm with h | hm
      · cases h
      rcases List.mem_cons.1 hm with h | hm
      · cases h
      obtain h := List.mem_singleton.1 hm
      cases h; rfl)⟩

/-! ## Wake-ups -/

/-- what is true of a sleeper: a get found nothing in an open queue, a put found no room -/
def Waits (sizeLimit : Int32) : Call α → Cv → Fields α → Prop
  | .get f, .cv, s => s.q.find? f = none ∧ s.closed = false
  | .put _ _, .cvNotfull, s => below sizeLimit s.q = false
  | _, _, _ => False

theorem waits_of_wait {lim : Int32} (a : Call α) (w : Bool) (s : Fields α) (c : Cv)
    (h : (monitor lim).sec a w s = .wait c) : Waits lim a c s := by
  cases a with
  | get f => obtain ⟨rfl, hf, hc⟩ := get_wait h; exact ⟨hf, hc⟩
  | put obj b => obtain ⟨rfl, hb⟩ := put_wait h; exact hb
  | close => cases h
  | size => cases h

/-- a section that leaves notifies every sleeper for which it changes the answer -/
theorem waits_keep {lim : Int32} {a : Call α} {w : Bool} {s s' : Fields α} {wake : Cv → Bool} {r : Ret α}
    (h : (monitor lim).sec a w s = .leave s' wake r) (b : Call α) (c : Cv) (hb : Waits lim b c s) :
    wake c = true ∨ Waits lim b c s' := by
  have same : s'.q = s.q → s'.closed = s.closed → Waits lim b c s' := by
    intro hq hc
    unfold Waits at hb ⊢
    split <;> simp_all
  cases a with
  | get f =>
    rcases get_leave h with ⟨x, -, -, hq, hc, hw⟩ | ⟨-, -, -, hq, hc⟩
    · -- an erase leaves a consumer's scan empty; it makes room exactly when it notifies
      unfold Waits at hb ⊢
      split at hb
      · refine Or.inr ⟨?_, by rw [hc]; exact hb.2⟩
        rw [List.find?_eq_none] at hb ⊢
        exact fun y hy => hb.1 y (List.eraseP_sublist.subset (hq ▸ hy))
      · rw [hw]
        cases hbl : below lim s'.q
        · exact Or.inr rfl
        · exact Or.inl rfl
      · exact hb.elim
    · exact Or.inr (same hq hc)
  | put obj b' =>
    rcases put_leave h with ⟨-, rfl, rfl, -⟩ | ⟨-, rfl, -, -⟩
    · cases c with
      | cv => exact Or.inl rfl
      | cvNotfull =>
        right
        unfold Waits at hb ⊢
        split at hb
        · rename_i hc; cases hc
        · simp only [below, decide_eq_false_iff_not, not_lt, List.length_append, List.length_singleton] at hb ⊢
          omega
        · exact hb
    · exact Or.inr (same rfl rfl)
  | close =>
    cases h
    cases c with
    | cv => exact Or.inl rfl
    | cvNotfull => right; unfold Waits at hb ⊢; split <;> simp_all
  | size => cases h; exact Or.inr (same rfl rfl)

/-- **No lost wake-up.** In every reachable state, whoever holds the mutex and whatever wake-ups are pending, a thread
that is asleep on `_cv` is a consumer, nothing in the queue satisfies its filter and the queue is not closed; a thread
that is asleep on `_cv_notfull` is a producer, and the queue has reached the limit. -/
theorem no_lost_wakeup [DecidableEq ι] (sizeLimit : Int32) (s : St ι α) (hr : (queue ι α sizeLimit).Reach s) (t : ι)
    (a : Call α) :
    (s.ph t = .asleep a .cv → ∃ f, a = .get f ∧ (∀ x ∈ s.sh.q, f x = false) ∧ s.sh.closed = false) ∧
      (s.ph t = .asleep a .cvNotfull → ∃ obj b, a = .put obj b ∧ ¬ s.sh.q.length < sizeT sizeLimit) := by
  have hs : Sleeps (Waits sizeLimit) s :=
    (queue ι α sizeLimit).reach_inv (I := Sleeps (Waits sizeLimit)) (fun _ _ _ h => by simp [queue, lts] at h)
      (fun _ _ _ h hstep => (step_move hstep).sleeps waits_of_wait
        (fun _ _ _ _ _ _ _ hsec _ _ b c _ hb => waits_keep hsec b c hb) h) hr
  constructor
  · intro h
    have hw := hs t a _ h
    cases a with
    | get f => exact ⟨f, rfl, fun x hx => by simpa using List.find?_eq_none.1 hw.1 x hx, hw.2⟩
    | _ => exact hw.elim
  · intro h
    have hw := hs t a _ h
    cases a with
    | put obj b => exact ⟨obj, b, rfl, by simpa [Waits, below] using hw⟩
    | _ => exact hw.elim

/-- before 7 comes, the consumer sleeps, rightly -/
theorem sleeps_before_seven :
    ∃ s, (queue ℕ ℕ 2).run (queue ℕ ℕ 2).init (middleOps.take 6) = some s ∧ s.ph 1 = .asleep (.get (6 ≤ ·)) .cv ∧
      ∃ f, Call.get (6 ≤ ·) = .get f ∧ (∀ x ∈ s.sh.q, f x = false) ∧ s.sh.closed = false :=
  ⟨_, rfl, rfl, (no_lost_wakeup 2 _ ⟨middleOps.take 6, rfl⟩ 1 (.get (6 ≤ ·))).1 rfl⟩

end Hodgepodge.BlockingQueue
