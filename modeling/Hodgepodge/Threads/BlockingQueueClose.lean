/-
Closing a `blocking_queue`. The comments in `get` say that what a closed queue does not hold "will never found in the
future". `put` does not look at `_closed`: a put issued after close, or one that was asleep on a full queue when close
ran, still stores its element.

Results:
- `closed_queue_still_accepts`: both schedules. A get has returned false, and an element that its filter accepts is in
  the queue afterwards.
- `false_get_is_final`: in every run in which no put stores an element while the queue is closed, a false result is
  final: the queue never holds an element that the filter accepts again.
- `consumers_drain`: one producer that closes after its puts, and consumers that each loop on `get` with their own
  filter until it returns false. When all have left, what is still in the queue fits no consumer, and every accepted
  element that fits some consumer was received exactly once. The producer's program meets the condition above.
-/
import Hodgepodge.Threads.BlockingQueue

namespace Hodgepodge.BlockingQueue

open Hodgepodge.Core Hodgepodge.Core.Monitor

variable {ι α : Type*} [DecidableEq ι]

/-! ## A false result -/

/-- the operation is not a put that stores its element in a closed queue -/
def storesOpen (sizeLimit : Int32) (s : St ι α) : Op ι (Call α) → Bool
  | .exec t =>
    match s.ph t with
    | .held (.put _ _) _ => !below sizeLimit s.sh.q || !s.sh.closed
    | _ => true
  | _ => true

/-- every get that returned false found the queue closed, and nothing has come for it since -/
def FalseFinal (s : St ι α) : Prop :=
  ∀ t f, (t, .get f, .get none) ∈ s.hist → s.sh.closed = true ∧ ∀ x ∈ s.sh.q, f x = false

theorem step_falseFinal {lim : Int32} {s s' : St ι α} {o : Op ι (Call α)} (h : FalseFinal s)
    (hC : storesOpen lim s o) (hs : (queue ι α lim).step s o = some s') : FalseFinal s' := by
  cases o with
  | call t a => obtain ⟨-, rfl⟩ := call_eq hs; exact h
  | lock t => obtain ⟨a, w, -, -, rfl⟩ := lock_eq hs; exact h
  | spurious t => obtain ⟨a, c, -, rfl⟩ := wake_eq hs; exact h
  | exec t =>
    obtain ⟨a, w, hp, ⟨c, -, -, rfl⟩ | ⟨sh, wk, r, hsec, -, rfl⟩⟩ := exec_eq hs
    · exact h
    have keep : sh.closed = s.sh.closed → (∀ x ∈ sh.q, x ∈ s.sh.q) → ∀ u f, (u, .get f, .get none) ∈ s.hist →
        sh.closed = true ∧ ∀ x ∈ sh.q, f x = false := fun hc hq u f hm =>
      ⟨hc ▸ (h u f hm).1, fun x hx => (h u f hm).2 x (hq x hx)⟩
    intro u f hm
    simp only [List.mem_append, List.mem_singleton, Prod.mk.injEq] at hm
    cases a with
    | get g =>
      rcases get_leave hsec with ⟨x, -, rfl, hq, hc, -⟩ | ⟨hn, hcl, rfl, hq, hc⟩
      · rcases hm with hm | ⟨-, -, hr⟩
        · exact keep hc (fun y hy => List.eraseP_sublist.subset (hq ▸ hy)) u f hm
        · cases hr
      · rcases hm with hm | ⟨-, hf, -⟩
        · exact keep hc (fun y hy => hq ▸ hy) u f hm
        · cases hf
          exact ⟨hc.trans hcl, fun x hx => by simpa using List.find?_eq_none.1 hn x (hq ▸ hx)⟩
    | put obj b =>
      rcases put_leave hsec with ⟨hb, rfl, -, rfl⟩ | ⟨-, rfl, -, rfl⟩
      · -- the queue is open, so no get has returned false yet
        rcases hm with hm | ⟨-, hf, -⟩
        · have := (h u f hm).1
          simp [storesOpen, hp, hb, this] at hC
        · cases hf
      · rcases hm with hm | ⟨-, hf, -⟩
        · exact h u f hm
        · cases hf
    | close =>
      cases hsec
      rcases hm with hm | ⟨-, hf, -⟩
      · exact ⟨rfl, (h u f hm).2⟩
      · cases hf
    | size =>
      cases hsec
      rcases hm with hm | ⟨-, hf, -⟩
      · exact h u f hm
      · cases hf

theorem run_falseFinal {lim : Int32} {ops : List (Op ι (Call α))} {s : St ι α}
    (hC : (queue ι α lim).Along (storesOpen lim · ·) (queue ι α lim).init ops)
    (hr : (queue ι α lim).run (queue ι α lim).init ops = some s) : FalseFinal s :=
  (queue ι α lim).along_inv (fun _ _ _ => step_falseFinal) (fun t f hm => by simp [queue, lts] at hm) hC hr

/-- **A false get is final while nothing is stored in the closed queue.** In every run in which no put stores an element
while the queue is closed: once a get with filter `f` has returned false, no element that `f` accepts is in the queue,
in any later state. -/
theorem false_get_is_final (sizeLimit : Int32) (ops : List (Op ι (Call α))) (s : St ι α)
    (hC : (queue ι α sizeLimit).Along (storesOpen sizeLimit · ·) (queue ι α sizeLimit).init ops)
    (hr : (queue ι α sizeLimit).run (queue ι α sizeLimit).init ops = some s) :
    ∀ t f, (t, .get f, .get none) ∈ s.hist → ∀ x ∈ s.sh.q, f x = false :=
  fun t f hm => (run_falseFinal hC hr t f hm).2

/-- a queue that holds 5 is closed; the filtered get of thread 1 returns false, its plain get takes 5 -/
def earlyPut : List (Op ℕ (Call ℕ)) :=
  [.call 0 (.put 5 true), .lock 0, .exec 0, .call 0 .close, .lock 0, .exec 0, .call 1 (.get (6 ≤ ·)), .lock 1,
    .exec 1, .call 1 .getAny, .lock 1, .exec 1]

theorem early_put_is_final :
    ∃ s, (queue ℕ ℕ 2).run (queue ℕ ℕ 2).init earlyPut = some s ∧
      ∀ t f, (t, .get f, .get none) ∈ s.hist → ∀ x ∈ s.sh.q, f x = false :=
  ⟨_, rfl, false_get_is_final 2 earlyPut _ (by decide) rfl⟩

/-- thread 0 closes, the get of thread 1 returns false, thread 0 puts 7 -/
def latePut : List (Op ℕ (Call ℕ)) :=
  [.call 0 .close, .lock 0, .exec 0, .call 1 .getAny, .lock 1, .exec 1, .call 0 (.put 7 true), .lock 0, .exec 0]

/-- limit 1: the put of 7 is asleep on the full queue when thread 0 closes; the filtered get of thread 1 returns false,
then its plain get takes 5 and wakes the producer -/
def sleepingPut : List (Op ℕ (Call ℕ)) :=
  [.call 0 (.put 5 true), .lock 0, .exec 0, .call 2 (.put 7 true), .lock 2, .exec 2, .call 0 .close, .lock 0, .exec 0,
    .call 1 (.get (6 ≤ ·)), .lock 1, .exec 1, .call 1 .getAny, .lock 1, .exec 1, .lock 2, .exec 2]

/-- **Closed queue, new element.** After both schedules a get with a filter that accepts 7 has returned false and 7 is
in the queue. -/
theorem closed_queue_still_accepts :
    ¬ (∀ (ops : List (Op ℕ (Call ℕ))) s, (queue ℕ ℕ 0x7FFFFFFF).run (queue ℕ ℕ 0x7FFFFFFF).init ops = some s →
        ∀ t f, (t, .get f, .get none) ∈ s.hist → ∀ x ∈ s.sh.q, f x = false) ∧
      ¬ ∀ (ops : List (Op ℕ (Call ℕ))) s, (queue ℕ ℕ 1).run (queue ℕ ℕ 1).init ops = some s →
        ∀ t f, (t, .get f, .get none) ∈ s.hist → ∀ x ∈ s.sh.q, f x = false := by
  constructor
  · intro h
    have := h latePut _ rfl 1 (fun _ => true) (.tail _ (.head _)) 7 (.head _)
    cases this
  · intro h
    have := h sleepingPut _ rfl 1 (6 ≤ ·) (.tail _ (.tail _ (.head _))) 7 (.head _)
    cases this

/-! ## One producer, then close -/

section Drain

variable (p : ι) (script : List (α × Bool)) (consumers : Finset ι) (filter : ι → α → Bool)

/-- the producer's calls: its puts, then close -/
def producerCalls : List (Call α) := script.map (fun e => .put e.1 e.2) ++ [.close]

/-- a get has returned false -/
def gaveUp : Call α × Ret α → Bool
  | (.get _, .get none) => true
  | _ => false

/-- the next call of a thread that has completed `past`: producer `p` works through its calls, a consumer gets until a
get returns false, and nobody else calls -/
def nextCall (t : ι) (past : List (Call α × Ret α)) : Option (Call α) :=
  if t = p then (producerCalls script)[past.length]?
  else if t ∈ consumers ∧ past.any gaveUp = false then some (.get (filter t))
  else none

/-- the calls follow the threads' programs -/
def Programs (s : St ι α) : Op ι (Call α) → Prop
  | .call t c => nextCall p script consumers filter t (past t s.hist) = some c
  | _ => True

/-- the consumer has left its loop -/
def Left (t : ι) (s : St ι α) : Prop := ∃ f, (t, .get f, .get none) ∈ s.hist

abbrev Permits (t : ι) (past : List (Call α × Ret α)) (c : Call α) : Prop :=
  nextCall p script consumers filter t past = some c

variable {p script consumers filter} {s : St ι α} {lim : Int32} {h : Hist ι α}

theorem nextCall_get {t : ι} {past : List (Call α × Ret α)} {f : α → Bool}
    (hn : nextCall p script consumers filter t past = some (.get f)) : t ∈ consumers ∧ f = filter t := by
  unfold nextCall at hn
  split_ifs at hn with h1 h2
  · have hm := List.mem_of_getElem? hn
    simp [producerCalls] at hm
  · simp only [Option.some.injEq, Call.get.injEq] at hn
    exact ⟨h2.1, hn.symm⟩

theorem nextCall_producer {t : ι} {past : List (Call α × Ret α)} {c : Call α} (hc : ∀ f, c ≠ .get f)
    (hn : nextCall p script consumers filter t past = some c) :
    t = p ∧ (producerCalls script)[past.length]? = some c := by
  unfold nextCall at hn
  split_ifs at hn with h1 h2
  · exact ⟨h1, hn⟩
  · exact absurd (by simpa using hn.symm) (hc (filter t))

/-- every completed get is one of a consumer, with its filter -/
theorem get_by_consumer (hd : Followed (Permits p script consumers filter) h) {t : ι} {f : α → Bool} {r : Ret α}
    (hm : (t, .get f, r) ∈ h) : t ∈ consumers ∧ f = filter t := by
  obtain ⟨h1, h2, rfl⟩ := List.append_of_mem hm
  exact nextCall_get (hd h1 h2 _ _ _ rfl)

/-- every other completed call is the producer's -/
theorem other_by_producer (hd : Followed (Permits p script consumers filter) h) {t : ι} {c : Call α} {r : Ret α}
    (hm : (t, c, r) ∈ h) (hc : ∀ f, c ≠ .get f) : t = p := by
  obtain ⟨h1, h2, rfl⟩ := List.append_of_mem hm
  exact (nextCall_producer hc (hd h1 h2 _ _ _ rfl)).1

/-- the producer has completed a prefix of its calls -/
theorem producer_completed (hd : Followed (Permits p script consumers filter) h) :
    (past p h).map Prod.fst <+: producerCalls script := by
  induction h using List.reverseRecOn with
  | nil => exact List.nil_prefix
  | append_singleton h e ih =>
    obtain ⟨t, c, r⟩ := e
    obtain ⟨hd, hc⟩ := hd.of_snoc
    rw [past_snoc]
    split_ifs with ht
    · subst ht
      have hget : (producerCalls script)[(past t h).length]? = some c := by
        simpa [Permits, nextCall] using hc
      obtain ⟨l, hl⟩ := ih hd
      rw [← hl, List.getElem?_append_right (by simp)] at hget
      obtain ⟨l', rfl⟩ : ∃ l', l = c :: l' := by
        cases l with
        | nil => simp at hget
        | cons x l' => exact ⟨l', by simpa using hget⟩
      exact ⟨l', by rw [← hl]; simp⟩
    · exact ih hd

/-- after close the producer has completed all its calls -/
theorem producer_done (hd : Followed (Permits p script consumers filter) h) {t : ι} {r : Ret α}
    (hm : (t, .close, r) ∈ h) : (past p h).map Prod.fst = producerCalls script := by
  obtain rfl := other_by_producer hd hm (by simp)
  obtain ⟨l, hl⟩ := producer_completed hd
  have hmem : Call.close ∈ (past t h).map Prod.fst := by
    simp only [past, List.map_map, List.mem_map, List.mem_filter]
    exact ⟨_, ⟨hm, by simp⟩, rfl⟩
  rcases List.eq_nil_or_concat l with rfl | ⟨l', x, rfl⟩
  · simpa using hl
  · -- a call after close would put close among the puts
    exfalso
    have hput := (List.append_inj' (by simpa [producerCalls] using hl :
      ((past t h).map Prod.fst ++ l') ++ [x] = script.map (fun e => .put e.1 e.2) ++ [.close]) rfl).1
    have : Call.close ∈ script.map (fun e : α × Bool => Call.put e.1 e.2) := hput ▸ List.mem_append_left _ hmem
    simp at this

omit [DecidableEq ι] in
/-- the queue is closed by a completed close -/
theorem closed_by_close {s : Fields α} (hr : Replay (monitor lim) Fields.empty h s) (hc : s.closed = true) :
    ∃ t r, (t, .close, r) ∈ h := by
  induction hr with
  | nil => cases hc
  | @snoc h s t a w s' wake r _ hs ih =>
    have old : s.closed = true → ∃ u v, (u, .close, v) ∈ h ++ [(t, a, r)] := fun hs =>
      let ⟨u, v, hm⟩ := ih hs
      ⟨u, v, List.mem_append_left _ hm⟩
    cases a with
    | get f =>
      rcases get_leave hs with ⟨x, -, -, -, hcl, -⟩ | ⟨-, hcl, -⟩
      · exact old (hcl ▸ hc)
      · exact old hcl
    | put obj b =>
      rcases put_leave hs with ⟨-, rfl, -⟩ | ⟨-, rfl, -⟩
      · exact old hc
      · exact old hc
    | close => exact ⟨t, r, by simp⟩
    | size => cases hs; exact old hc

omit [DecidableEq ι] in
/-- only a put that does not block returns false -/
theorem put_result {s : Fields α} (hr : Replay (monitor lim) Fields.empty h s) {t : ι} {obj : α} {b : Bool} {r : Ret α}
    (hm : (t, .put obj b, r) ∈ h) : r = .put true ∨ b = false := by
  induction hr with
  | nil => cases hm
  | snoc _ hs ih =>
    rcases List.mem_append.1 hm with hm | hm
    · exact ih hm
    · simp only [List.mem_singleton, Prod.mk.injEq] at hm
      obtain ⟨-, rfl, rfl⟩ := hm
      rcases put_leave hs with ⟨-, -, -, hr⟩ | ⟨-, -, hb, -⟩
      · exact Or.inl hr
      · exact Or.inr hb

/-- with blocking puts only, what was accepted is what the producer has put so far -/
theorem accepted_producer {s : Fields α} (hr : Replay (monitor lim) Fields.empty h s)
    (hd : Followed (Permits p script consumers filter) h) (hb : ∀ e ∈ script, e.2 = true) :
    accepted h = ((past p h).map Prod.fst).filterMap (fun | .put obj _ => some obj | _ => none) := by
  unfold accepted past
  rw [List.map_map, List.filterMap_map, List.filterMap_filter]
  refine List.filterMap_congr fun e he => ?_
  obtain ⟨t, c, r⟩ := e
  cases c with
  | put obj b =>
    obtain rfl : t = p := other_by_producer hd he (by simp)
    have hmem : Call.put obj b ∈ producerCalls script := by
      refine (producer_completed hd).subset ?_
      simp only [past, List.map_map, List.mem_map, List.mem_filter]
      exact ⟨_, ⟨he, by simp⟩, rfl⟩
    have hscript : (obj, b) ∈ script := by
      simp only [producerCalls, List.mem_append, List.mem_map, Call.put.injEq, List.mem_singleton, reduceCtorEq,
        or_false] at hmem
      obtain ⟨e, hmem, rfl, rfl⟩ := hmem
      exact hmem
    obtain rfl : r = .put true := by
      rcases put_result hr he with h | h
      · exact h
      · have := hb _ hscript
        rw [h] at this; cases this
    simp
  | _ => simp

/-- what a run of the programs maintains -/
structure ProgInv (p : ι) (script : List (α × Bool)) (consumers : Finset ι) (filter : ι → α → Bool) (lim : Int32)
    (s : St ι α) : Prop where
  follows : Follows (Permits p script consumers filter) s
  followed : Followed (Permits p script consumers filter) s.hist
  replay : Replay (monitor lim) Fields.empty s.hist s.sh

theorem step_progInv {s' : St ι α} {o : Op ι (Call α)} (h : ProgInv p script consumers filter lim s)
    (hC : Programs p script consumers filter s o) (hs : (queue ι α lim).step s o = some s') :
    ProgInv p script consumers filter lim s' := by
  have hm := step_move hs
  refine ⟨hm.follows ?_ h.follows, hm.followed h.follows h.followed, hm.replay h.replay⟩
  intro t a hout hin
  cases o with
  | call u c =>
    obtain ⟨-, rfl⟩ := call_eq hs
    by_cases hu : t = u
    · subst hu
      simp only [Function.update_self, Ph.entry.injEq, and_true] at hin
      exact hin ▸ hC
    · simp [Function.update_of_ne hu, hout] at hin
  | lock u =>
    obtain ⟨b, w, hb, -, rfl⟩ := lock_eq hs
    by_cases hu : t = u
    · subst hu; rw [hout] at hb; cases hb
    · simp [Function.update_of_ne hu, hout] at hin
  | spurious u =>
    obtain ⟨b, c, hb, rfl⟩ := wake_eq hs
    by_cases hu : t = u
    · subst hu; rw [hout] at hb; cases hb
    · simp [Function.update_of_ne hu, hout] at hin
  | exec u =>
    obtain ⟨b, w, hb, ⟨c, -, -, rfl⟩ | ⟨sh, wk, r, -, -, rfl⟩⟩ := exec_eq hs <;>
    · by_cases hu : t = u
      · subst hu; rw [hout] at hb; cases hb
      · simp [Function.update_of_ne hu, hout, wakeAll] at hin

/-- the programs put nothing into the closed queue -/
theorem programs_storesOpen {o : Op ι (Call α)} (h : ProgInv p script consumers filter lim s) :
    storesOpen lim s o = true := by
  cases o with
  | exec t =>
    simp only [storesOpen]
    split
    · rename_i obj b w hp
      by_contra hcon
      simp only [Bool.or_eq_true, Bool.not_eq_true', not_or, Bool.not_eq_false] at hcon
      obtain ⟨u, r, hm⟩ := closed_by_close h.replay hcon.2
      obtain ⟨rfl, hget⟩ := nextCall_producer (by simp) (h.follows t (.put obj b) (by rw [hp]; rfl))
      rw [← producer_done h.followed hm] at hget
      simp at hget
    · rfl
  | _ => rfl

end Drain

/-- **Consumers drain the queue before they leave.** A producer makes any sequence of puts and then closes; every
consumer loops on get with its own filter until get returns false. When all consumers have left, in any later state:
nothing in the queue fits a consumer; the accepted elements that fit some consumer are, occurrence for occurrence, the
received ones; and if some consumer takes everything, the queue is empty, the consumers' counts add up to the number
of accepted elements, which are all the puts if these are blocking. -/
theorem consumers_drain (sizeLimit : Int32) (p : ι) (script : List (α × Bool)) (consumers : Finset ι)
    (filter : ι → α → Bool) (ops : List (Op ι (Call α))) (s : St ι α)
    (hC : (queue ι α sizeLimit).Along (Programs p script consumers filter) (queue ι α sizeLimit).init ops)
    (hr : (queue ι α sizeLimit).run (queue ι α sizeLimit).init ops = some s)
    (hleft : ∀ c ∈ consumers, Left c s) :
    (∀ c ∈ consumers, ∀ x ∈ s.sh.q, filter c x = false) ∧
      ((accepted s.hist).filter fun x => decide (∃ c ∈ consumers, filter c x = true)).Perm
        ((received s.hist).filter fun x => decide (∃ c ∈ consumers, filter c x = true)) ∧
      ((∃ c ∈ consumers, ∀ x, filter c x = true) →
        s.sh.q = [] ∧ ∑ c ∈ consumers, (receivedBy c s.hist).length = (accepted s.hist).length ∧
          ((∀ e ∈ script, e.2 = true) → accepted s.hist = script.map Prod.fst)) := by
  have h0 : ProgInv p script consumers filter sizeLimit (queue ι α sizeLimit).init :=
    ⟨fun t a h => by simp [queue, lts, Ph.act] at h, fun h1 h2 t a r h => by simp [queue, lts] at h, .nil⟩
  have hstep : ∀ (s : St ι α) o s', ProgInv p script consumers filter sizeLimit s →
      Programs p script consumers filter s o → (queue ι α sizeLimit).step s o = some s' →
      ProgInv p script consumers filter sizeLimit s' := fun _ _ _ => step_progInv
  have hinv := (queue ι α sizeLimit).along_inv hstep h0 hC hr
  have hfinal : FalseFinal s :=
    run_falseFinal (Lts.Along.of_inv _ hstep (fun _ _ h _ => programs_storesOpen h) h0 hC) hr
  have hl := legal hinv.replay
  have hq : ∀ c ∈ consumers, ∀ x ∈ s.sh.q, filter c x = false := by
    intro c hc x hx
    obtain ⟨f, hm⟩ := hleft c hc
    have hf := (get_by_consumer hinv.followed hm).2
    exact hf ▸ (hfinal c f hm).2 x hx
  refine ⟨hq, ?_, ?_⟩
  · have hd := hl.drained (p := fun x => decide (∃ c ∈ consumers, filter c x = true)) fun x hx => by
      simp only [decide_eq_false_iff_not, not_exists, not_and, Bool.not_eq_true]
      exact fun c hc => hq c hc x hx
    rwa [puts_event, takes_event] at hd
  · rintro ⟨c, hc, hall⟩
    have hnil : s.sh.q = [] := by
      rw [List.eq_nil_iff_forall_not_mem]
      intro x hx
      have := hq c hc x hx
      rw [hall] at this; cases this
    refine ⟨hnil, ?_, ?_⟩
    · have hsum := FilterFifo.sum_takesBy consumers (h := s.hist.filterMap event) fun t g x hm =>
        (get_by_consumer hinv.followed (event_take hm)).1
      have hlen := hl.perm.length_eq
      rw [puts_event, takes_event, hnil, List.append_nil] at hlen
      simp only [takesBy_event, takes_event] at hsum
      rw [hsum, hlen]
    · intro hb
      obtain ⟨f, hm⟩ := hleft c hc
      obtain ⟨t, r, hm⟩ := closed_by_close hinv.replay (hfinal c f hm).1
      rw [accepted_producer hinv.replay hinv.followed hb, producer_done hinv.followed hm]
      simp [producerCalls, List.filterMap_append, List.filterMap_map]

/-- consumer 1 takes numbers from 6 on, consumer 2 anything -/
def drainFilter (c x : ℕ) : Bool := if c = 1 then 6 ≤ x else true

/-- a producer of 5 and 7, and both consumers -/
def drainOps : List (Op ℕ (Call ℕ)) :=
  [.call 1 (.get (drainFilter 1)), .lock 1, .exec 1, .call 0 (.put 5 true), .lock 0, .exec 0, .call 0 (.put 7 true),
    .lock 0, .exec 0, .lock 1, .exec 1, .call 2 (.get (drainFilter 2)), .lock 2, .exec 2, .call 0 .close, .lock 0,
    .exec 0, .call 2 (.get (drainFilter 2)), .lock 2, .exec 2, .call 1 (.get (drainFilter 1)), .lock 1, .exec 1]

theorem five_and_seven_drained :
    ∃ s, (queue ℕ ℕ 2).run (queue ℕ ℕ 2).init drainOps = some s ∧ s.sh.q = [] ∧
      ∑ c ∈ {1, 2}, (receivedBy c s.hist).length = (accepted s.hist).length ∧
      ((∀ e ∈ [(5, true), (7, true)], e.2 = true) → accepted s.hist = [5, 7]) := by
  refine ⟨_, rfl, (consumers_drain 2 0 [(5, true), (7, true)] {1, 2} drainFilter drainOps _ ?_ rfl ?_).2.2
    ⟨2, by decide, fun _ => rfl⟩⟩
  · repeat' first
      | exact Lts.along_nil _
      | refine Lts.along_step _ rfl rfl ?_
      | refine Lts.along_step _ rfl trivial ?_
  · intro c hc
    simp only [Finset.mem_insert, Finset.mem_singleton] at hc
    rcases hc with rfl | rfl
    · exact ⟨drainFilter 1, by simp⟩
    · exact ⟨drainFilter 2, by simp⟩

end Hodgepodge.BlockingQueue
