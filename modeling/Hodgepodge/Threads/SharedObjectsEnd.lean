/-
What `test3` comes to.

Results:
- `objects_shared`: no pointer ever points to an object that is gone, and the counts are the numbers of pointers.
- `test3_prints`: the line that the main thread prints.
- `test3_ends`: every schedule leads there.
-/
import Mathlib.Algebra.BigOperators.Option
import Mathlib.Algebra.Order.BigOperators.Group.Finset
import Mathlib.Data.Fintype.Option
import Hodgepodge.Threads.SharedObjectsInv

namespace Hodgepodge.SharedObjects

open Function Hodgepodge.Core Hodgepodge.Core.Monitor Hodgepodge.BlockingQueue

variable {m n : ℕ} {O : Type*} [DecidableEq O] {sizeLimit : Int32} {s s' : St m O} {o : Op m O}

/-! ## The objects -/

/-- **Shared objects.** In every state of every run: no pointer to an object that was gone was ever copied or
destroyed; every object that a pointer in a frame or in the queue points to is there, and its count is the number of
these pointers; and the objects that were made and not destroyed are exactly as many as are pointed to. -/
theorem objects_shared (sizeLimit : Int32) (n m : ℕ) (ops : List (Op m O)) (s : St m O)
    (hr : (program sizeLimit n m O).run (init n m O) ops = some s) :
    s.heap.fault = false ∧
      (∀ o ∈ held s.frame s.sque.sh.q, s.heap.count o = (held s.frame s.sque.sh.q).count o ∧ 0 < s.heap.count o) ∧
      s.heap.made = s.heap.destroyed + (held s.frame s.sque.sh.q).toFinset.card :=
  have hc := (run_inv hr).counted
  ⟨hc.sound, fun _ ho => hc.counted ho, hc.books⟩

/-- one turn and one worker; the worker sleeps before the put, and takes the pair when the main thread has let go of
its own pointers -/
def oneTurn : List (Op 1 ℕ) :=
  [.call (some 0), .lock (some 0), .exec (some 0), .make none 10, .make none 11, .run none, .run none, .call none,
    .lock none, .exec none, .run none, .run none, .run none, .run none, .call none, .lock none, .exec none,
    .lock (some 0), .exec (some 0), .run (some 0), .run (some 0), .run (some 0), .call (some 0), .lock (some 0),
    .exec (some 0), .run none]

theorem objects_shared_oneTurn : ∃ s, (program 0x7FFFFFFF 1 1 ℕ).run (init 1 1 ℕ) (oneTurn.take 19) = some s ∧
    s.frame (some 0) = [11, 10] ∧ s.heap.fault = false :=
  ⟨_, rfl, rfl, (objects_shared 0x7FFFFFFF 1 1 (oneTurn.take 19) _ rfl).1⟩

/-! ## The line that is printed -/

theorem returned_sque (s : St m O) (t : Thread m) (r : Option (Call (O × O) × Ret (O × O))) :
    (returned s t r).sque = s.sque := by
  unfold returned
  split <;> rfl

theorem step_sque (h : step sizeLimit s o = some s') :
    s'.sque = s.sque ∨ Move (monitor sizeLimit) s.sque s'.sque := by
  cases o with
  | make t o =>
    simp only [step] at h
    split at h
    · split_ifs at h
      cases h
      exact Or.inl rfl
    · cases h
  | run t =>
    simp only [step] at h
    split at h
    · obtain ⟨_, -, rfl⟩ := Option.map_eq_some_iff.1 h
      exact Or.inl rfl
    · split at h <;> cases h
      exact Or.inl rfl
    · obtain ⟨_, -, rfl⟩ := Option.map_eq_some_iff.1 h
      exact Or.inl rfl
    · split_ifs at h
      cases h
      exact Or.inl rfl
    · cases h
  | call t =>
    simp only [step] at h
    split at h
    · obtain ⟨a, -, h⟩ := Option.bind_eq_some_iff.1 h
      obtain ⟨q, hq, rfl⟩ := Option.map_eq_some_iff.1 h
      exact Or.inr (call_move hq)
    · cases h
  | lock t =>
    obtain ⟨q, hq, rfl⟩ := Option.map_eq_some_iff.1 h
    exact Or.inr (lock_move hq)
  | exec t =>
    obtain ⟨q, hq, rfl⟩ := Option.map_eq_some_iff.1 h
    rw [returned_sque]
    exact Or.inr (exec_move hq)
  | spurious t =>
    obtain ⟨q, hq, rfl⟩ := Option.map_eq_some_iff.1 h
    exact Or.inr (wake_move hq)

/-- the invariant, with the mutex and the sleepers of the queue -/
structure Live (n : ℕ) (sizeLimit : Int32) (s : St m O) : Prop extends Inv n s where
  owned : Owned (monitor sizeLimit) s.sque
  sleeps : Sleeps (Waits sizeLimit) s.sque

theorem live_init : Live n sizeLimit (init n m O) where
  toInv := inv_init
  owned u t := by simp [init]
  sleeps t a c h := by cases h

theorem step_live (hi : Live n sizeLimit s) (h : step sizeLimit s o = some s') : Live n sizeLimit s' := by
  rcases step_sque h with hq | hq
  · exact ⟨step_inv hi.toInv h, hq ▸ hi.owned, hq ▸ hi.sleeps⟩
  · exact ⟨step_inv hi.toInv h, hq.owned hi.owned, hq.sleeps waits_of_wait
      (fun _ _ _ _ _ _ _ hsec _ _ b c _ hb => waits_keep hsec b c hb) hi.sleeps⟩

/-- an operation that is no spurious wake-up -/
def goesOn : Op m O → Bool
  | .spurious _ => false
  | _ => true

/-- some thread can move -/
def Moves (sizeLimit : Int32) (s : St m O) : Prop := ∃ o s', goesOn o = true ∧ step sizeLimit s o = some s'

theorem moves_of_isSome {o : Op m O} (ho : goesOn o = true) (h : (step sizeLimit s o).isSome = true) :
    Moves sizeLimit s :=
  ⟨o, (step sizeLimit s o).get h, ho, (Option.some_get h).symm⟩

theorem held_moves {t : Thread m} {a : Call (O × O)} {w : Bool} (hp : s.sque.ph t = .held a w) :
    Moves sizeLimit s := by
  refine moves_of_isSome (o := .exec t) rfl ?_
  simp only [step, Option.isSome_map]
  exact exec_isSome hp

theorem entry_moves (hi : Live n sizeLimit s) {t : Thread m} {a : Call (O × O)} {w : Bool}
    (hp : s.sque.ph t = .entry a w) : Moves sizeLimit s := by
  cases ho : s.sque.owner () with
  | none =>
    refine moves_of_isSome (o := .lock t) rfl ?_
    simp only [step, Option.isSome_map]
    exact lock_isSome hp ho
  | some u =>
    obtain ⟨b, v, hu, -⟩ := (hi.owned () u).1 ho
    exact held_moves hu

theorem call_moves {t : Thread m} {stmt : Stmt m} {code : List (Stmt m)} {a : Call (O × O)}
    (hp : s.sque.ph t = .out) (hc : s.code t = stmt :: code) (ha : callOf (s.frame t) stmt = some a) :
    Moves sizeLimit s := by
  refine moves_of_isSome (o := .call t) rfl ?_
  simp only [step, hc, ha, Option.bind_some, Option.isSome_map, call, hp, Option.isSome_some]

/-- a thread that is neither through nor asleep can move, or waits for a worker to leave -/
theorem thread_moves [Infinite O] (hi : Live n sizeLimit s) {t : Thread m} (ht : s.code t ≠ []) :
    Moves sizeLimit s ∨ (∃ a c, s.sque.ph t = .asleep a c) ∨
      ∃ w code, s.code t = .join w :: code ∧ s.code (some w) ≠ [] := by
  cases hp : s.sque.ph t with
  | entry a w => exact Or.inl (entry_moves hi hp)
  | held a w => exact Or.inl (held_moves hp)
  | asleep a c => exact Or.inr (Or.inl ⟨a, c, rfl⟩)
  | out =>
    obtain ⟨stmt, code, hc⟩ := List.exists_cons_of_ne_nil ht
    have hfit := hi.fits t
    rw [hc] at hfit
    cases stmt with
    | make =>
      -- `new` finds an address with no object
      obtain ⟨o, ho⟩ := Infinite.exists_notMem_finset (held s.frame s.sque.sh.q).toFinset
      have hfree : s.heap.count o = 0 := by
        rw [hi.counted.count]
        exact Multiset.count_eq_zero.2 fun hm => ho (Multiset.mem_toFinset.2 hm)
      exact Or.inl (moves_of_isSome (o := .make t o) rfl (by simp [step, hc, hfree]))
    | copy k =>
      obtain ⟨o, hk⟩ : ∃ o, (s.frame t)[k]? = some o := ⟨_, List.getElem?_eq_getElem hfit.1⟩
      exact Or.inl (moves_of_isSome (o := .run t) rfl (by simp [step, hc, hk]))
    | drop =>
      obtain ⟨o, frame, hf⟩ := List.exists_cons_of_ne_nil (List.length_pos_iff.1 hfit.1)
      exact Or.inl (moves_of_isSome (o := .run t) rfl (by simp [step, hc, hf]))
    | put =>
      have htwo := hfit.1
      cases hf : s.frame t with
      | nil => rw [hf] at htwo; simp at htwo
      | cons o₂ frame =>
        cases frame with
        | nil => rw [hf] at htwo; simp at htwo
        | cons o₁ frame => exact Or.inl (call_moves hp hc (a := .put (o₁, o₂) true) (by rw [hf]; rfl))
    | get => exact Or.inl (call_moves hp hc (a := .getAny) rfl)
    | close => exact Or.inl (call_moves hp hc (a := .close) rfl)
    | count =>
      cases t with
      | none =>
        have hm := hi.codes.main.subset (hc ▸ List.mem_cons_self)
        simp [test3, turn] at hm
      | some w => exact Or.inl (moves_of_isSome (o := .run (some w)) rfl (by simp [step, hc]))
    | join w =>
      by_cases hw : s.code (some w) = []
      · exact Or.inl (moves_of_isSome (o := .run t) rfl (by simp [step, hc, hw]))
      · exact Or.inr (Or.inr ⟨w, code, hc, hw⟩)

/-- a thread in a call of the queue is at the statement of the call -/
theorem Inv.asleep (hi : Inv n s) {t : Thread m} {a : Call (O × O)} {c : Cv} (hp : s.sque.ph t = .asleep a c) :
    ∃ stmt code, s.code t = stmt :: code ∧ callOf (s.frame t) stmt = some a := hi.calls t a (by rw [hp]; rfl)

/-- a worker that sleeps has found an open, empty queue -/
theorem worker_sleeps (hi : Live n sizeLimit s) {w : Fin m} {a : Call (O × O)} {c : Cv}
    (hp : s.sque.ph (some w) = .asleep a c) : s.sque.sh.q = [] ∧ s.sque.sh.closed = false := by
  have hwaits := hi.sleeps _ _ _ hp
  obtain ⟨stmt, code, hc, ha⟩ := hi.asleep hp
  rcases callOf_cases ha with ⟨o₁, o₂, rest, rfl, -, -⟩ | ⟨rfl, rfl⟩ | ⟨rfl, -⟩
  · exact absurd (hi.is_main hc (by simp [round])) (Option.some_ne_none w)
  · cases c with
    | cv =>
      obtain ⟨hnone, hopen⟩ := hwaits
      refine ⟨?_, hopen⟩
      cases hq : s.sque.sh.q with
      | nil => rfl
      | cons x q => rw [hq] at hnone; cases hnone
    | cvNotfull => exact hwaits.elim
  · exact absurd (hi.is_main hc (by simp [round])) (Option.some_ne_none w)

/-- the main thread sleeps only in a put, before a queue at its limit -/
theorem main_sleeps (hi : Live n sizeLimit s) {a : Call (O × O)} {c : Cv} (hp : s.sque.ph none = .asleep a c) :
    below sizeLimit s.sque.sh.q = false ∧ s.sque.sh.closed = false := by
  have hwaits := hi.sleeps _ _ _ hp
  obtain ⟨stmt, code, hc, ha⟩ := hi.asleep hp
  rcases callOf_cases ha with ⟨o₁, o₂, rest, rfl, -, rfl⟩ | ⟨rfl, -⟩ | ⟨rfl, rfl⟩
  · cases c with
    | cv => exact hwaits.elim
    | cvNotfull =>
      refine ⟨hwaits, ?_⟩
      rw [Bool.eq_false_iff, ne_eq, hi.closed, not_not, hc]
      exact List.mem_cons_of_mem _ (close_of_put (hc ▸ hi.codes.main))
  · obtain ⟨w, hw, -⟩ := hi.is_worker hc
    cases hw
  · cases c <;> exact hwaits.elim

/-- a worker that has not left can move, if the queue is closed or holds a pair -/
theorem worker_moves [Infinite O] (hi : Live n sizeLimit s) {w : Fin m} (hw : s.code (some w) ≠ [])
    (hq : s.sque.sh.closed = true ∨ s.sque.sh.q ≠ []) : Moves sizeLimit s := by
  rcases thread_moves hi hw with h | ⟨a, c, hp⟩ | ⟨v, code, hc, -⟩
  · exact h
  · obtain ⟨hnil, hopen⟩ := worker_sleeps hi hp
    rcases hq with hq | hq
    · rw [hopen] at hq
      cases hq
    · exact absurd hnil hq
  · exact absurd (hi.is_main hc (by simp [round])) (Option.some_ne_none w)

theorem main_moves [Infinite O] (hi : Live n sizeLimit s) (hlim : 0 < sizeT sizeLimit) (hm : 0 < m)
    (hne : s.code none ≠ []) : Moves sizeLimit s := by
  rcases thread_moves hi hne with h | ⟨a, c, hp⟩ | ⟨w, code, hc, hw⟩
  · exact h
  · -- the queue is full, so it is not empty, and no worker has left
    obtain ⟨hfull, hopen⟩ := main_sleeps hi hp
    have hq : s.sque.sh.q ≠ [] := by
      intro hnil
      rw [hnil, below, decide_eq_false_iff_not] at hfull
      exact hfull hlim
    refine worker_moves hi (w := ⟨0, hm⟩) (fun hleft => ?_) (Or.inr hq)
    exact hq (hi.left _ hleft).2
  · -- the queue was closed before the first join
    refine worker_moves hi hw (Or.inl (hi.closed.2 ?_))
    have hclosed := closed_of_join (hc ▸ hi.codes.main)
    rw [hc]
    intro hmem
    rcases List.mem_cons.1 hmem with h | h
    · cases h
    · exact hclosed h

/-! ## How long it takes -/

def phase : Ph Cv (Call (O × O)) → ℕ
  | .out => 3
  | .entry _ _ => 2
  | .held _ _ => 1
  | .asleep _ _ => 0

/-- a put makes the work of the pair, too -/
def weight : Stmt m → ℕ
  | .put => 5
  | _ => 1

def load (code : List (Stmt m)) : ℕ := (code.map weight).sum

/-- what is left to do: every statement and every pair weighs more than the sleepers that a notification wakes -/
def work (s : St m O) : ℕ :=
  (2 * m + 3) * (∑ t, load (s.code t) + 4 * s.sque.sh.q.length) + ∑ t, phase (s.sque.ph t)

omit [DecidableEq O] in
theorem load_update (code : Thread m → List (Stmt m)) (t : Thread m) (rest : List (Stmt m)) :
    ∑ u, load (update code t rest u) + load (code t) = ∑ u, load (code u) + load rest := by
  obtain ⟨others, hold, hnew⟩ := sum_apart (f := fun u => load (code u)) (g := fun u => load (update code t rest u)) t
    fun u hu => by rw [update_of_ne hu]
  rw [hold, hnew, update_self]
  omega

omit [DecidableEq O] in
theorem load_go {code : Thread m → List (Stmt m)} {t : Thread m} {stmt : Stmt m} {rest : List (Stmt m)}
    (hc : code t = stmt :: rest) : ∑ u, load (update code t rest u) + weight stmt = ∑ u, load (code u) := by
  have heq := load_update code t rest
  have hload : load (code t) = weight stmt + load rest := by rw [hc]; rfl
  omega

omit [DecidableEq O] in
theorem phase_update (ph : Thread m → Ph Cv (Call (O × O))) (t : Thread m) (p : Ph Cv (Call (O × O))) :
    ∑ u, phase (update ph t p u) + phase (ph t) = ∑ u, phase (ph u) + phase p := by
  obtain ⟨others, hold, hnew⟩ := sum_apart (f := fun u => phase (ph u)) (g := fun u => phase (update ph t p u)) t
    fun u hu => by rw [update_of_ne hu]
  rw [hold, hnew, update_self]
  omega

omit [DecidableEq O] in
/-- a section that leaves wakes at most every thread -/
theorem phase_left {q : BlockingQueue.St (Thread m) (O × O)} {t : Thread m} {a : Call (O × O)} {w : Bool}
    (hp : q.ph t = .held a w) (sh : Fields (O × O)) (wk : Cv → Bool) (r : Ret (O × O)) :
    ∑ u, phase ((left q t sh wk a r).ph u) ≤ ∑ u, phase (q.ph u) + 2 * (m + 1) := by
  have hone : ∀ u, phase ((left q t sh wk a r).ph u) ≤ phase (q.ph u) + 2 := by
    intro u
    simp only [left]
    by_cases hu : u = t
    · subst hu
      rw [update_self, hp]
      exact Nat.le_refl 3
    · rw [update_of_ne hu]
      rcases wakeAll_cases wk q.ph u with h | ⟨b, c, h, -, h'⟩
      · rw [h]
        exact Nat.le_add_right _ 2
      · rw [h, h']
        exact Nat.le_refl _
  calc ∑ u, phase ((left q t sh wk a r).ph u) ≤ ∑ u, (phase (q.ph u) + 2) := Finset.sum_le_sum fun u _ => hone u
    _ = ∑ u, phase (q.ph u) + 2 * (m + 1) := by
      rw [Finset.sum_add_distrib, Finset.sum_const, Finset.card_univ, Fintype.card_option, Fintype.card_fin,
        smul_eq_mul, Nat.mul_comm]

/-- a statement or a pair less outweighs everybody who was woken -/
theorem less_work {A B P Q : ℕ} (h : A + 1 ≤ B) (hP : P ≤ Q + 2 * (m + 1)) :
    (2 * m + 3) * A + P + 1 ≤ (2 * m + 3) * B + Q := by
  have hmul := Nat.mul_le_mul_left (2 * m + 3) h
  rw [Nat.mul_succ] at hmul
  omega

theorem step_work (h : Step sizeLimit s o s') (hi : Inv n s) :
    if goesOn o = true then work s' + 1 ≤ work s else work s' ≤ work s + 2 := by
  have goes : ∀ {t : Thread m} {stmt : Stmt m} {code : List (Stmt m)}, s.code t = stmt :: code → weight stmt = 1 →
      ∑ u, load (update s.code t code u) + 4 * s.sque.sh.q.length + 1 ≤
        ∑ u, load (s.code u) + 4 * s.sque.sh.q.length := by
    intro t stmt code hc hw
    have := load_go hc
    omega
  cases h with
  | make hc ho => exact less_work (goes hc rfl) (Nat.le_add_right _ _)
  | copy hc hk => exact less_work (goes hc rfl) (Nat.le_add_right _ _)
  | drop hc hf => exact less_work (goes hc rfl) (Nat.le_add_right _ _)
  | count hc => exact less_work (goes hc rfl) (Nat.le_add_right _ _)
  | join hc hw => exact less_work (goes hc rfl) (Nat.le_add_right _ _)
  | @call t stmt code a hc ha hp =>
    have heq := phase_update s.sque.ph t (.entry a false)
    rw [hp] at heq
    simp only [goesOn, work, phase, if_true] at heq ⊢
    omega
  | @lock t a w hp ho =>
    have heq := phase_update s.sque.ph t (.held a w)
    rw [hp] at heq
    simp only [goesOn, work, phase, if_true] at heq ⊢
    omega
  | @sleep t a w c hp hs =>
    have heq := phase_update s.sque.ph t (.asleep a c)
    rw [hp] at heq
    simp only [goesOn, work, phase, if_true] at heq ⊢
    omega
  | @spurious t a c hp =>
    have heq := phase_update s.sque.ph t (.entry a true)
    rw [hp] at heq
    simp only [goesOn, work, phase, Bool.false_eq_true, if_false] at heq ⊢
    omega
  | put hc hf hp =>
    refine less_work ?_ (phase_left hp _ _ _)
    have := load_go hc
    simp only [weight] at this
    simp only [St.next, left, List.length_append, List.length_singleton]
    omega
  | @got t w o₁ o₂ code sh wk hc hp hq hcl =>
    refine less_work ?_ (phase_left hp _ _ _)
    obtain ⟨v, rfl, rfl⟩ := hi.is_worker hc
    have := load_update s.code (some v) round
    have hround : load (round : List (Stmt m)) = 4 := rfl
    have hget : load (s.code (some v)) = 1 := by rw [hc]; rfl
    simp only [St.next, left, hq, List.length_cons]
    omega
  | @gaveUp t w code sh wk hc hp hq hcl hsh =>
    refine less_work ?_ (phase_left hp _ _ _)
    obtain ⟨v, rfl, rfl⟩ := hi.is_worker hc
    have := load_go hc
    simp only [weight] at this
    simp only [St.next, left, hsh, hq]
    omega
  | closed hc hp => exact less_work (goes hc rfl) (phase_left hp _ _ _)

omit [DecidableEq O] in
theorem load_append (a b : List (Stmt m)) : load (a ++ b) = load a + load b := by
  rw [load, List.map_append, List.sum_append, load, load]

theorem load_turns (n : ℕ) : load (List.replicate n (turn : List (Stmt m))).flatten = n * 13 := by
  induction n with
  | zero => rfl
  | succ n ih =>
    rw [List.replicate_succ, List.flatten_cons, load_append, ih, Nat.succ_mul, Nat.add_comm]
    rfl

theorem load_joins (l : List (Fin m)) : load (l.map Stmt.join) = l.length := by
  induction l with
  | nil => rfl
  | cons w l ih =>
    have hcons : load ((w :: l).map Stmt.join) = 1 + load (l.map Stmt.join) := rfl
    rw [hcons, ih, List.length_cons, Nat.add_comm]

omit [DecidableEq O] in
theorem work_init : work (init n m O) = (2 * m + 3) * (13 * n + 2 * m + 1) + 3 * (m + 1) := by
  have hmain : load (test3 n m) = n * 13 + (1 + m) := by
    have hcons : load (.close :: (List.finRange m).map Stmt.join) = 1 + load ((List.finRange m).map Stmt.join) := rfl
    rw [test3, load_append, load_turns, hcons, load_joins, List.length_finRange]
  have hcode : ∑ t, load ((init n m O).code t) = n * 13 + (1 + m) + m := by
    rw [Fintype.sum_option]
    simp only [init, hmain]
    rw [Finset.sum_const, Finset.card_univ, Fintype.card_fin, smul_eq_mul]
    exact congrArg (n * 13 + (1 + m) + ·) (Nat.mul_one m)
  have hphase : ∑ t, phase ((init n m O).sque.ph t) = (m + 1) * 3 := by
    simp only [init, phase]
    rw [Finset.sum_const, Finset.card_univ, Fintype.card_option, Fintype.card_fin, smul_eq_mul]
  have hsum : ∑ t, load ((init n m O).code t) + 4 * (init n m O).sque.sh.q.length = 13 * n + 2 * m + 1 := by
    rw [hcode]
    simp only [init, Fields.empty, List.length_nil]
    omega
  rw [work, hsum, hphase, Nat.mul_comm 3]

/-- **`test3` ends.** Whatever the order in which the threads move, and wherever `new` finds room: the steps of a run
are bounded, but for spurious wake-ups, each of which costs at most two more; and as long as the main thread is not
through, some thread can take one. -/
theorem test3_ends [Infinite O] (sizeLimit : Int32) (hlim : 0 < sizeT sizeLimit) (n m : ℕ) (hm : 0 < m)
    (ops : List (Op m O)) (s : St m O) (hr : (program sizeLimit n m O).run (init n m O) ops = some s) :
    ops.countP goesOn ≤
        (2 * m + 3) * (13 * n + 2 * m + 1) + 3 * (m + 1) + 2 * ops.countP (fun o => !goesOn o) ∧
      (s.code none = [] ∨ ∃ o s', goesOn o = true ∧ step sizeLimit s o = some s') := by
  have hlive := (program sizeLimit n m O).run_inv (fun _ _ _ hi hs => step_live hi hs) live_init hr
  constructor
  · have hwork := (program sizeLimit n m O).run_budget
      (fun s o s' (hi : Inv n s) hs => ⟨step_inv hi hs, step_work (step_eq hi.calls hs) hi⟩) inv_init hr
    rw [work_init] at hwork
    exact (Nat.le_add_left _ _).trans hwork
  · by_cases hend : s.code none = []
    · exact Or.inl hend
    · exact Or.inr (main_moves hlive hlim hm hend)

theorem test3_ends_oneTurn : oneTurn.countP goesOn ≤ 86 + 2 * oneTurn.countP (fun o => !goesOn o) := by
  obtain ⟨s, hs⟩ : ∃ s, (program 0x7FFFFFFF 1 1 ℕ).run (init 1 1 ℕ) oneTurn = some s := ⟨_, rfl⟩
  exact (test3_ends 0x7FFFFFFF (by decide) 1 1 Nat.one_pos oneTurn s hs).1

end Hodgepodge.SharedObjects
