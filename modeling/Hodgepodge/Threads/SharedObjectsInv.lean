/-
What every run of `test3` keeps, whatever the order in which the threads move.

- `Fits`: the stack discipline of the frames.
- `held`: the pointers that the threads and the elements of the queue hold.
- `Inv`, `step_inv`: the counts of the objects are the numbers of pointers held; the main thread is on its way through
  `test3`, the workers through their loop; a worker has left its loop only if the queue is closed and empty; every pair
  that was put is in the queue or was counted.
-/
import Mathlib.Algebra.BigOperators.Group.Finset.Basic
import Hodgepodge.Threads.SharedObjects

namespace Hodgepodge.SharedObjects

open Function Hodgepodge.Core Hodgepodge.Core.Monitor Hodgepodge.BlockingQueue

variable {m n : ℕ} {O : Type*}

/-! ## The programs -/

/-- no statement takes a pointer that a frame of `n` pointers does not have, and none is left at the end -/
def Fits : ℕ → List (Stmt m) → Prop
  | n, [] => n = 0
  | n, .make :: code => Fits (n + 1) code
  | n, .copy k :: code => k < n ∧ Fits (n + 1) code
  | n, .drop :: code => 0 < n ∧ Fits (n - 1) code
  | n, .put :: code => 2 ≤ n ∧ Fits n code
  | n, .get :: code => n = 0 ∧ code = []
  | n, .count :: code | n, .close :: code | n, .join _ :: code => Fits n code

theorem fits_joins (l : List (Fin m)) : Fits 0 (l.map Stmt.join) := by
  induction l with
  | nil => rfl
  | cons w l ih => exact ih

theorem fits_test3 : Fits 0 (test3 n m) := by
  unfold test3
  induction n with
  | zero => exact fits_joins _
  | succ n ih =>
    rw [List.replicate_succ, List.flatten_cons, List.append_assoc]
    exact ⟨by decide, by decide, by decide, by decide, by decide, by decide, by decide, ih⟩

theorem count_test3 (stmt : Stmt m) : (test3 n m).count stmt =
    n * turn.count stmt + (Stmt.close :: (List.finRange m).map Stmt.join).count stmt := by
  rw [test3, List.count_append, List.count_flatten, List.map_replicate, List.sum_replicate, smul_eq_mul]

/-- what only the turns hold -/
theorem count_turns {stmt : Stmt m} (hc : stmt ≠ .close) (hj : ∀ w, stmt ≠ .join w) :
    (test3 n m).count stmt = n * turn.count stmt := by
  have hzero : (Stmt.close :: (List.finRange m).map Stmt.join).count stmt = 0 := by
    refine List.count_eq_zero.2 fun hm => ?_
    rcases List.mem_cons.1 hm with hm | hm
    · exact hc hm
    · obtain ⟨w, -, hw⟩ := List.mem_map.1 hm
      exact hj w hw.symm
  rw [count_test3, hzero, Nat.add_zero]

theorem suffix_test3 {l : List (Stmt m)} (h : l <:+ test3 n m) :
    l <:+ .close :: (List.finRange m).map .join ∨ .close :: (List.finRange m).map .join <:+ l :=
  List.suffix_or_suffix_of_suffix h (List.suffix_append _ _)

/-- the main thread closes the queue after its last put -/
theorem close_of_put {code : List (Stmt m)} (h : .put :: code <:+ test3 n m) : .close ∈ code := by
  rcases suffix_test3 h with h | h
  · have := h.subset List.mem_cons_self
    simp at this
  · have := h.subset List.mem_cons_self
    simpa using this

/-- it closes the queue once -/
theorem close_once {code : List (Stmt m)} (h : .close :: code <:+ test3 n m) : .close ∉ code := by
  have hcount : (test3 n m).count .close = 1 := by
    have hzero : ((List.finRange m).map Stmt.join).count .close = 0 := List.count_eq_zero.2 (by simp)
    rw [count_test3, List.count_cons_self, hzero]
    rfl
  have hle := h.sublist.count_le .close
  rw [hcount, List.count_cons_self] at hle
  exact List.count_eq_zero.1 (by omega)

/-- it joins the workers after that -/
theorem closed_of_join {w : Fin m} {code : List (Stmt m)} (h : .join w :: code <:+ test3 n m) : .close ∉ code := by
  rcases suffix_test3 h with h' | h'
  · rcases List.suffix_cons_iff.1 h' with h' | h'
    · cases h'
    · intro hm
      have := h'.subset (List.mem_cons_of_mem _ hm)
      simp at this
  · -- else it would join `w` twice
    have hnodup : ((List.finRange m).map Stmt.join).Nodup := (List.nodup_finRange m).map fun _ _ => Stmt.join.inj
    have hmem : .join w ∈ code := by
      rcases List.suffix_cons_iff.1 h' with h' | h'
      · cases h'
      · exact h'.subset (by simp)
    have hcount : (test3 n m).count (.join w) = ((List.finRange m).map Stmt.join).count (.join w) := by
      rw [count_test3, List.count_cons_of_ne (by simp)]
      exact Nat.zero_add _
    have hle := h.sublist.count_le (.join w)
    rw [List.count_cons_self, hcount] at hle
    have := List.nodup_iff_count_le_one.1 hnodup (.join w)
    have := List.count_pos_iff.2 hmem
    omega

/-! ## The pointers there are -/

/-- two sums that differ in one term -/
theorem sum_apart {ι M : Type*} [Fintype ι] [DecidableEq ι] [AddCommMonoid M] {f g : ι → M} (t : ι)
    (h : ∀ u, u ≠ t → g u = f u) : ∃ rest, ∑ u, f u = f t + rest ∧ ∑ u, g u = g t + rest := by
  refine ⟨∑ u ∈ Finset.univ.erase t, f u, (Finset.add_sum_erase _ f (Finset.mem_univ t)).symm, ?_⟩
  rw [← Finset.add_sum_erase _ g (Finset.mem_univ t)]
  exact congrArg (g t + ·) (Finset.sum_congr rfl fun u hu => h u (Finset.ne_of_mem_erase hu))

/-- the two pointers of every element -/
def pointers (q : List (O × O)) : Multiset O := (q.flatMap fun x => [x.1, x.2] : List O)

/-- the pointers in the frames and in the queue -/
def held (frame : Thread m → List O) (q : List (O × O)) : Multiset O := ∑ t, (frame t : Multiset O) + pointers q

theorem held_update (frame : Thread m → List O) (t : Thread m) : ∃ rest,
    (∀ q, held frame q = (frame t : Multiset O) + rest + pointers q) ∧
      ∀ l q, held (update frame t l) q = (l : Multiset O) + rest + pointers q := by
  obtain ⟨rest, hrest, -⟩ := sum_apart (f := fun u => (frame u : Multiset O)) t fun _ _ => rfl
  refine ⟨rest, fun q => by rw [held, hrest], fun l q => ?_⟩
  obtain ⟨rest', hf, hg⟩ := sum_apart (f := fun u => (frame u : Multiset O))
    (g := fun u => (update frame t l u : Multiset O)) t fun u hu => by rw [update_of_ne hu]
  obtain rfl : rest' = rest := add_left_cancel (hf.symm.trans hrest)
  rw [held, hg, update_self]

theorem mem_held {frame : Thread m → List O} {q : List (O × O)} {t : Thread m} {o : O} (h : o ∈ frame t) :
    o ∈ held frame q := by
  obtain ⟨rest, hheld, -⟩ := held_update frame t
  rw [hheld]
  exact Multiset.mem_add.2 (Or.inl (Multiset.mem_add.2 (Or.inl h)))

/-! ## The invariant -/

/-- how far the threads are -/
structure Codes (n : ℕ) (code : Thread m → List (Stmt m)) : Prop where
  main : code none <:+ test3 n m
  worker : ∀ w, code (some w) <:+ round
  joined : ∀ w, .join w ∉ code none → code (some w) = []

/-- what a worker has counted, or is about to -/
def tally (cnt : Fin m → ℕ) (code : Thread m → List (Stmt m)) (w : Fin m) : ℕ := cnt w + (code (some w)).count .count

variable [DecidableEq O]

structure Inv (n : ℕ) (s : St m O) : Prop where
  calls : AtCall s
  counted : Counted s.heap (held s.frame s.sque.sh.q)
  fits : ∀ t, Fits (s.frame t).length (s.code t)
  codes : Codes n s.code
  closed : s.sque.sh.closed = true ↔ .close ∉ s.code none
  left : ∀ w, s.code (some w) = [] → s.sque.sh.closed = true ∧ s.sque.sh.q = []
  made : s.heap.made + (s.code none).count .make = 2 * n
  books : ∑ w, tally s.cnt s.code w + s.sque.sh.q.length + (s.code none).count .put = n

variable {sizeLimit : Int32} {s s' : St m O} {o : Op m O}

theorem inv_init : Inv n (init n m O) where
  calls t a h := by cases h
  counted := by
    have hheld : held (fun _ : Thread m => ([] : List O)) [] = 0 := by simp [held, pointers]
    exact hheld.symm ▸ counted_empty
  fits t := by
    cases t with
    | none => exact fits_test3
    | some w => exact ⟨rfl, rfl⟩
  codes := ⟨List.suffix_rfl, fun w => ⟨[.count, .drop, .drop], rfl⟩, fun w h => by simp [init, test3] at h⟩
  closed := by simp [init, test3, Fields.empty]
  left w h := by cases h
  made := by
    have hmake : (test3 n m).count .make = n * 2 := count_turns (by simp) (by simp)
    simp only [init, Heap.empty, hmake]
    omega
  books := by
    have hput : (test3 n m).count .put = n * 1 := count_turns (by simp) (by simp)
    simp [init, Fields.empty, tally, hput]

/-! ## Who is where -/

/-- a statement of a thread that is not in the loop of the workers -/
theorem Inv.is_main (hi : Inv n s) {t : Thread m} {stmt : Stmt m} {code : List (Stmt m)} (hc : s.code t = stmt :: code)
    (hs : stmt ∉ round) : t = none := by
  cases t with
  | none => rfl
  | some w => exact absurd ((hi.codes.worker w).subset (hc ▸ List.mem_cons_self)) hs

theorem Inv.is_worker (hi : Inv n s) {t : Thread m} {code : List (Stmt m)} (hc : s.code t = .get :: code) :
    ∃ w, t = some w ∧ code = [] := by
  cases t with
  | none =>
    have hm := hi.codes.main.subset (hc ▸ List.mem_cons_self)
    simp [test3, turn] at hm
  | some w =>
    refine ⟨w, rfl, ?_⟩
    have hf := hi.fits (some w)
    rw [hc] at hf
    exact hf.2

omit [DecidableEq O] in
/-- a thread at a statement of its own is in no call -/
theorem AtCall.not_in_call (hi : AtCall s) {t : Thread m} {stmt : Stmt m} {code : List (Stmt m)}
    (hc : s.code t = stmt :: code) (hs : ∀ frame : List O, callOf frame stmt = none) : (s.sque.ph t).act = none := by
  cases ha : (s.sque.ph t).act with
  | none => rfl
  | some a =>
    obtain ⟨stmt', code', hc', ha'⟩ := hi t a ha
    obtain ⟨rfl, -⟩ := List.cons.inj (hc.symm.trans hc')
    rw [hs] at ha'
    cases ha'

omit [DecidableEq O] in
/-- `t` goes on, in no call; the other threads stay where they are -/
theorem AtCall.next (hi : AtCall s) {t : Thread m} (ht : (s'.sque.ph t).act = none)
    (hother : ∀ u, u ≠ t → (s'.sque.ph u).act = (s.sque.ph u).act ∧ s'.code u = s.code u ∧ s'.frame u = s.frame u) :
    AtCall s' := by
  intro u a ha
  by_cases hu : u = t
  · subst hu
    rw [ht] at ha
    cases ha
  · obtain ⟨hact, hcode, hframe⟩ := hother u hu
    rw [hcode, hframe]
    exact hi u a (hact ▸ ha)

omit [DecidableEq O] in
theorem left_act (q : BlockingQueue.St (Thread m) (O × O)) (t : Thread m) (sh : Fields (O × O)) (wk : Cv → Bool)
    (a : Call (O × O)) (r : Ret (O × O)) (u : Thread m) :
    ((left q t sh wk a r).ph u).act = if u = t then none else (q.ph u).act := by
  simp only [left]
  split_ifs with hu
  · subst hu
    rw [update_self]
    rfl
  · rw [update_of_ne hu, wakeAll_act]

theorem step_calls (h : Step sizeLimit s o s') (hi : AtCall s) : AtCall s' := by
  have local' : ∀ {t : Thread m} {stmt : Stmt m} {code : List (Stmt m)} (frame' code' heap cnt),
      s.code t = stmt :: code → (∀ frame : List O, callOf frame stmt = none) →
      AtCall { s.next t frame' code' with heap := heap, cnt := cnt } := by
    intro t stmt code frame' code' heap cnt hc hs
    exact hi.next (hi.not_in_call hc hs) fun u hu => ⟨rfl, update_of_ne hu _ _, update_of_ne hu _ _⟩
  have phase : ∀ {t : Thread m} {p : Ph Cv (Call (O × O))} (owner), p.act = (s.sque.ph t).act →
      AtCall { s with sque := { s.sque with owner := owner, ph := update s.sque.ph t p } } := by
    intro t p owner hp u a ha
    exact hi u a (by rw [← act_update hp]; exact ha)
  have leaves : ∀ (t : Thread m) (frame' code' heap sh wk a r),
      AtCall { s.next t frame' code' with sque := left s.sque t sh wk a r, heap := heap } := by
    intro t frame' code' heap sh wk a r
    refine hi.next (by rw [left_act, if_pos rfl]) fun u hu => ⟨?_, update_of_ne hu _ _, update_of_ne hu _ _⟩
    rw [left_act, if_neg hu]
  cases h with
  | make hc _ => exact local' _ _ _ _ hc fun _ => rfl
  | copy hc _ => exact local' _ _ _ _ hc fun _ => rfl
  | drop hc _ => exact local' _ _ _ _ hc fun _ => rfl
  | count hc => exact local' _ _ _ _ hc fun _ => rfl
  | join hc _ => exact local' _ _ _ _ hc fun _ => rfl
  | @call t stmt code a hc ha hp =>
    intro u b hb
    by_cases hu : u = t
    · subst hu
      obtain rfl : a = b := by simpa [Ph.act] using hb
      exact ⟨stmt, code, hc, ha⟩
    · exact hi u b (by simpa [update_of_ne hu] using hb)
  | lock hp _ => exact phase _ (by rw [hp]; rfl)
  | sleep hp _ => exact phase _ (by rw [hp]; rfl)
  | spurious hp => exact phase _ (by rw [hp]; rfl)
  | put | got | gaveUp | closed => exact leaves _ _ _ _ _ _ _ _

/-! ## The steps -/

omit [DecidableEq O] in
theorem held_push (frame : Thread m → List O) (t : Thread m) (o : O) (q : List (O × O)) :
    held (update frame t (o :: frame t)) q = o ::ₘ held frame q := by
  obtain ⟨rest, hold, hnew⟩ := held_update frame t
  rw [hold, hnew, ← Multiset.cons_coe, Multiset.cons_add, Multiset.cons_add]

omit [DecidableEq O] in
theorem held_pop {frame : Thread m → List O} {t : Thread m} {o : O} {l : List O} (hf : frame t = o :: l)
    (q : List (O × O)) : held frame q = o ::ₘ held (update frame t l) q := by
  obtain ⟨rest, hold, hnew⟩ := held_update frame t
  rw [hold, hnew, hf, ← Multiset.cons_coe, Multiset.cons_add, Multiset.cons_add]

omit [DecidableEq O] in
theorem held_put (frame : Thread m → List O) (q : List (O × O)) (o₁ o₂ : O) :
    held frame (q ++ [(o₁, o₂)]) = o₂ ::ₘ o₁ ::ₘ held frame q := by
  have hq : pointers (q ++ [(o₁, o₂)]) = o₂ ::ₘ o₁ ::ₘ pointers q := by
    simp only [pointers, List.flatMap_append, List.flatMap_cons, List.flatMap_nil, List.append_nil, ← Multiset.coe_add,
      ← Multiset.cons_coe]
    rw [add_comm, Multiset.cons_add, Multiset.cons_add, Multiset.cons_swap]
    simp
  rw [held, hq, Multiset.add_cons, Multiset.add_cons, held]

omit [DecidableEq O] in
/-- a get takes the pointers of the pair from the queue to the frame -/
theorem held_got (frame : Thread m → List O) (t : Thread m) (q : List (O × O)) (o₁ o₂ : O) :
    held (update frame t (o₂ :: o₁ :: frame t)) q = held frame ((o₁, o₂) :: q) := by
  obtain ⟨rest, hold, hnew⟩ := held_update frame t
  have hq : pointers ((o₁, o₂) :: q) = o₁ ::ₘ o₂ ::ₘ pointers q := rfl
  rw [hold, hnew, hq, Multiset.add_cons, Multiset.add_cons, ← Multiset.cons_coe, ← Multiset.cons_coe,
    Multiset.cons_swap]
  simp only [Multiset.cons_add]

theorem step_counted (h : Step sizeLimit s o s') (hi : Inv n s) :
    Counted s'.heap (held s'.frame s'.sque.sh.q) := by
  have hcounted := hi.counted
  cases h with
  | make hc ho =>
    simp only [St.next, held_push]
    exact hcounted.make ho
  | copy hc hk =>
    simp only [St.next, held_push]
    exact hcounted.copy (mem_held (List.mem_of_getElem? hk))
  | drop hc hf =>
    simp only [St.next]
    exact (held_pop hf s.sque.sh.q ▸ hcounted).drop
  | count | join | closed =>
    simp only [St.next, update_eq_self]
    exact hcounted
  | gaveUp hc hp hq hcl hsh =>
    simp only [St.next, update_eq_self, left, hsh]
    exact hq ▸ hcounted
  | call | lock | sleep | spurious => exact hcounted
  | put hc hf hp =>
    simp only [St.next, update_eq_self, left, held_put]
    have ho₁ := mem_held (q := s.sque.sh.q) (hf ▸ List.mem_cons_of_mem _ List.mem_cons_self)
    have ho₂ := mem_held (q := s.sque.sh.q) (hf ▸ List.mem_cons_self)
    exact (hcounted.copy ho₁).copy (Multiset.mem_cons_of_mem ho₂)
  | @got t w o₁ o₂ code sh wk hc hp hq hcl =>
    simp only [St.next, left, held_got, ← hq]
    have hmem : ∀ o ∈ [o₁, o₂], o ∈ held s.frame s.sque.sh.q := by
      intro o ho
      refine Multiset.mem_add.2 (Or.inr ?_)
      rw [hq]
      exact List.mem_flatMap.2 ⟨(o₁, o₂), List.mem_cons_self, ho⟩
    -- the deque's pair goes only after `ret` has its pointers
    exact ((hcounted.copy (hmem o₁ (by simp))).copy (Multiset.mem_cons_of_mem (hmem o₂ (by simp)))).drop.drop

/-- a thread goes on to a code that its frame is enough for -/
theorem fits_next (hi : Inv n s) {t : Thread m} {frame : List O} {code : List (Stmt m)} (h : Fits frame.length code)
    (u : Thread m) : Fits (update s.frame t frame u).length (update s.code t code u) := by
  by_cases hu : u = t
  · subst hu
    rwa [update_self, update_self]
  · rw [update_of_ne hu, update_of_ne hu]
    exact hi.fits u

theorem step_fits (h : Step sizeLimit s o s') (hi : Inv n s) (u : Thread m) :
    Fits (s'.frame u).length (s'.code u) := by
  have here : ∀ {t : Thread m} {code}, s.code t = code → Fits (s.frame t).length code := fun hc => hc ▸ hi.fits _
  cases h with
  | @make t o code hc ho =>
    have hfit : Fits (o :: s.frame t).length code := here hc
    exact fits_next hi hfit u
  | @copy t k o code hc hk =>
    have hfit : Fits (o :: s.frame t).length code := (here hc).2
    exact fits_next hi hfit u
  | @drop t o frame code hc hf =>
    have hfit := (here hc).2
    rw [hf] at hfit
    exact fits_next hi hfit u
  | @count t code hc | @join t _ code hc _ | @closed t _ code hc _ =>
    have hfit := here hc
    change Fits (s.frame t).length code at hfit
    exact fits_next hi hfit u
  | @put t _ o₁ o₂ frame code hc hf hp =>
    have hfit : Fits (s.frame t).length code := (here hc).2
    exact fits_next hi hfit u
  | @got t _ o₁ o₂ code sh wk hc hp hq hcl =>
    -- the pair comes into an empty frame
    have hfit : Fits (o₂ :: o₁ :: s.frame t).length (round : List (Stmt m)) := by
      rw [List.length_cons, List.length_cons, (here hc).1]
      exact ⟨by decide, by decide, rfl, rfl⟩
    exact fits_next hi hfit u
  | @gaveUp t _ code sh wk hc hp hq hcl hsh =>
    have hfit : Fits (s.frame t).length ([] : List (Stmt m)) := (here hc).1
    exact fits_next hi hfit u
  | call | lock | sleep | spurious => exact hi.fits u

omit [DecidableEq O] in
/-- a thread goes past a statement; nobody is joined before it has left its loop -/
theorem Codes.go {code : Thread m → List (Stmt m)} (hi : Codes n code) {t : Thread m} {stmt : Stmt m}
    {rest : List (Stmt m)} (hc : code t = stmt :: rest) (hj : ∀ w, stmt = .join w → code (some w) = []) :
    Codes n (update code t rest) := by
  have hsuffix : rest <:+ code t := hc ▸ List.suffix_cons stmt rest
  cases t with
  | none =>
    refine ⟨?_, fun w => ?_, fun w hw => ?_⟩
    · rw [update_self]
      exact hsuffix.trans hi.main
    · rw [update_of_ne (Option.some_ne_none w)]
      exact hi.worker w
    · rw [update_self] at hw
      rw [update_of_ne (Option.some_ne_none w)]
      by_cases hs : stmt = .join w
      · exact hj w hs
      · refine hi.joined w fun hm => ?_
        rcases List.mem_cons.1 (hc ▸ hm) with hm | hm
        · exact hs hm.symm
        · exact hw hm
  | some v =>
    refine ⟨?_, fun w => ?_, fun w hw => ?_⟩
    · rw [update_of_ne (Option.some_ne_none v).symm]
      exact hi.main
    · by_cases hv : w = v
      · subst hv
        rw [update_self]
        exact hsuffix.trans (hi.worker w)
      · rw [update_of_ne (by simpa using hv)]
        exact hi.worker w
    · rw [update_of_ne (Option.some_ne_none v).symm] at hw
      have hleft := hi.joined w hw
      by_cases hv : w = v
      · subst hv
        rw [hc] at hleft
        cases hleft
      · rwa [update_of_ne (by simpa using hv)]

omit [DecidableEq O] in
/-- a worker at its get goes round again, or leaves -/
theorem Codes.loop {code : Thread m → List (Stmt m)} (hi : Codes n code) {v : Fin m} {rest : List (Stmt m)}
    (hne : code (some v) ≠ []) (hr : rest <:+ round) : Codes n (update code (some v) rest) := by
  refine ⟨?_, fun w => ?_, fun w hw => ?_⟩
  · rw [update_of_ne (Option.some_ne_none v).symm]
    exact hi.main
  · by_cases hv : w = v
    · subst hv
      rwa [update_self]
    · rw [update_of_ne (by simpa using hv)]
      exact hi.worker w
  · rw [update_of_ne (Option.some_ne_none v).symm] at hw
    have hleft := hi.joined w hw
    have hv : w ≠ v := by
      rintro rfl
      exact hne hleft
    rwa [update_of_ne (by simpa using hv)]

theorem step_codes (h : Step sizeLimit s o s') (hi : Inv n s) : Codes n s'.code := by
  cases h with
  | make hc ho => exact hi.codes.go hc nofun
  | copy hc hk => exact hi.codes.go hc nofun
  | drop hc hf => exact hi.codes.go hc nofun
  | count hc => exact hi.codes.go hc nofun
  | put hc hf hp => exact hi.codes.go hc nofun
  | closed hc hp => exact hi.codes.go hc nofun
  | @join t v code hc hw =>
    refine hi.codes.go hc fun w hv => ?_
    obtain rfl := Stmt.join.inj hv
    exact hw
  | got hc hp hq hcl =>
    obtain ⟨w, rfl, rfl⟩ := hi.is_worker hc
    exact hi.codes.loop (by rw [hc]; nofun) List.suffix_rfl
  | gaveUp hc hp hq hcl hsh =>
    obtain ⟨w, rfl, rfl⟩ := hi.is_worker hc
    exact hi.codes.loop (by rw [hc]; nofun) List.nil_suffix
  | call | lock | sleep | spurious => exact hi.codes

omit [DecidableEq O] in
/-- what the main thread has yet to do, after a thread has gone past another statement -/
theorem count_go {code : Thread m → List (Stmt m)} {t : Thread m} {stmt x : Stmt m} {rest : List (Stmt m)}
    (hc : code t = stmt :: rest) (hs : stmt ≠ x) : (update code t rest none).count x = (code none).count x := by
  cases t with
  | none => rw [update_self, hc, List.count_cons_of_ne hs]
  | some v => rw [update_of_ne (Option.some_ne_none v).symm]

theorem close_go {t : Thread m} {stmt : Stmt m} {rest : List (Stmt m)} (hi : Inv n s) (hc : s.code t = stmt :: rest)
    (hs : stmt ≠ .close) : s.sque.sh.closed = true ↔ .close ∉ update s.code t rest none := by
  rw [hi.closed, ← List.count_eq_zero, ← List.count_eq_zero, count_go hc hs]

theorem step_closed (h : Step sizeLimit s o s') (hi : Inv n s) :
    s'.sque.sh.closed = true ↔ .close ∉ s'.code none := by
  cases h with
  | make hc ho => exact close_go hi hc nofun
  | copy hc hk => exact close_go hi hc nofun
  | drop hc hf => exact close_go hi hc nofun
  | count hc => exact close_go hi hc nofun
  | join hc hw => exact close_go hi hc nofun
  | put hc hf hp => exact close_go hi hc nofun
  | got hc hp hq hcl =>
    obtain ⟨w, rfl, rfl⟩ := hi.is_worker hc
    simp only [left, St.next, hcl, update_of_ne (Option.some_ne_none w).symm]
    exact hi.closed
  | gaveUp hc hp hq hcl hsh hsh' =>
    obtain ⟨w, rfl, rfl⟩ := hi.is_worker hc
    simp only [left, St.next, hsh', update_of_ne (Option.some_ne_none w).symm]
    exact iff_of_true trivial (hi.closed.1 hcl)
  | closed hc hp =>
    obtain rfl := hi.is_main hc (by simp [round])
    simp only [left, St.next, update_self]
    exact iff_of_true trivial (close_once (hc ▸ hi.codes.main))
  | call | lock | sleep | spurious => exact hi.closed

/-- a worker leaves its loop only at a get -/
theorem Inv.still (hi : Inv n s) {t : Thread m} {stmt : Stmt m} {rest : List (Stmt m)} (hc : s.code t = stmt :: rest)
    (hs : stmt ≠ .get) {w : Fin m} (hw : update s.code t rest (some w) = []) : s.code (some w) = [] := by
  by_cases ht : some w = t
  · subst ht
    rw [update_self] at hw
    subst hw
    have hround := hc ▸ hi.codes.worker w
    simp [round, List.suffix_cons_iff] at hround
    exact absurd hround hs
  · rwa [update_of_ne ht] at hw

theorem step_left (h : Step sizeLimit s o s') (hi : Inv n s) (w : Fin m) (hw : s'.code (some w) = []) :
    s'.sque.sh.closed = true ∧ s'.sque.sh.q = [] := by
  cases h with
  | make hc ho => exact hi.left w (hi.still hc nofun hw)
  | copy hc hk => exact hi.left w (hi.still hc nofun hw)
  | drop hc hf => exact hi.left w (hi.still hc nofun hw)
  | count hc => exact hi.left w (hi.still hc nofun hw)
  | join hc hj => exact hi.left w (hi.still hc nofun hw)
  | closed hc hp => exact ⟨rfl, (hi.left w (hi.still hc nofun hw)).2⟩
  | gaveUp hc hp hq hcl hsh hsh' => exact ⟨hsh', hsh⟩
  | put hc hf hp =>
    -- it would be put into the closed queue
    have hclosed := (hi.left w (hi.still hc nofun hw)).1
    obtain rfl := hi.is_main hc (by simp [round])
    refine absurd ?_ (hi.closed.1 hclosed)
    rw [hc]
    exact List.mem_cons_of_mem _ (close_of_put (hc ▸ hi.codes.main))
  | @got t _ _ _ _ _ _ hc hp hq hcl =>
    by_cases ht : some w = t
    · subst ht
      simp [St.next, round] at hw
    · have hnil := (hi.left w (by simpa only [St.next, update_of_ne ht] using hw)).2
      rw [hq] at hnil
      cases hnil
  | call | lock | sleep | spurious => exact hi.left w hw

theorem step_made (h : Step sizeLimit s o s') (hi : Inv n s) : s'.heap.made + (s'.code none).count .make = 2 * n := by
  have hmade := hi.made
  cases h with
  | make hc ho =>
    obtain rfl := hi.is_main hc (by simp [round])
    rw [hc, List.count_cons_self] at hmade
    simp only [St.next, update_self, Heap.make_made]
    omega
  | copy hc hk => simpa only [St.next, count_go (x := .make) hc nofun, Heap.copy_made] using hmade
  | drop hc hf => simpa only [St.next, count_go (x := .make) hc nofun, Heap.drop_made] using hmade
  | count hc => simpa only [St.next, count_go (x := .make) hc nofun] using hmade
  | join hc hw => simpa only [St.next, count_go (x := .make) hc nofun] using hmade
  | put hc hf hp => simpa only [St.next, count_go (x := .make) hc nofun, Heap.copy_made] using hmade
  | closed hc hp => simpa only [St.next, count_go (x := .make) hc nofun] using hmade
  | got hc hp hq hcl =>
    obtain ⟨w, rfl, rfl⟩ := hi.is_worker hc
    simpa only [St.next, update_of_ne (Option.some_ne_none w).symm, Heap.copy_made, Heap.drop_made] using hmade
  | gaveUp hc hp hq hcl hsh =>
    obtain ⟨w, rfl, rfl⟩ := hi.is_worker hc
    simpa only [St.next, update_of_ne (Option.some_ne_none w).symm] using hmade
  | call | lock | sleep | spurious => exact hmade

omit [DecidableEq O] in
/-- what `w` has counted, or is about to, changes with its own counter and code -/
theorem tally_update (cnt : Fin m → ℕ) (code : Thread m → List (Stmt m)) (w : Fin m) (k : ℕ) (rest : List (Stmt m)) :
    ∑ v, tally (update cnt w k) (update code (some w) rest) v + tally cnt code w =
      ∑ v, tally cnt code v + (k + rest.count .count) := by
  obtain ⟨others, hold, hnew⟩ := sum_apart (f := tally cnt code)
    (g := tally (update cnt w k) (update code (some w) rest)) w fun v hv => by
      rw [tally, tally, update_of_ne hv, update_of_ne (by simpa using hv)]
  rw [hold, hnew, tally, update_self, update_self]
  omega

theorem step_books (h : Step sizeLimit s o s') (hi : Inv n s) :
    ∑ w, tally s'.cnt s'.code w + s'.sque.sh.q.length + (s'.code none).count .put = n := by
  have hbooks := hi.books
  have goes : ∀ {t : Thread m} {stmt : Stmt m} {code : List (Stmt m)}, s.code t = stmt :: code → stmt ≠ .count →
      tally s.cnt (update s.code t code) = tally s.cnt s.code := by
    intro t stmt code hc hs
    funext w
    by_cases hw : some w = t
    · subst hw
      rw [tally, tally, update_self, hc, List.count_cons_of_ne hs]
    · rw [tally, tally, update_of_ne hw]
  -- a worker at its get
  have loop : ∀ {w : Fin m} (rest), s.code (some w) = [.get] →
      ∑ u, tally s.cnt (update s.code (some w) rest) u = ∑ u, tally s.cnt s.code u + rest.count .count := by
    intro w rest hc
    have heq := tally_update s.cnt s.code w (s.cnt w) rest
    have hget : tally s.cnt s.code w = s.cnt w := by rw [tally, hc]; rfl
    rw [update_eq_self, hget] at heq
    omega
  cases h with
  | make hc ho => simpa only [St.next, goes hc nofun, count_go (x := .put) hc nofun] using hbooks
  | copy hc hk => simpa only [St.next, goes hc nofun, count_go (x := .put) hc nofun] using hbooks
  | drop hc hf => simpa only [St.next, goes hc nofun, count_go (x := .put) hc nofun] using hbooks
  | join hc hw => simpa only [St.next, goes hc nofun, count_go (x := .put) hc nofun] using hbooks
  | closed hc hp => simpa only [St.next, left, goes hc nofun, count_go (x := .put) hc nofun] using hbooks
  | @count w code hc =>
    have heq := tally_update s.cnt s.code w (s.cnt w + 1) code
    have hcount : tally s.cnt s.code w = s.cnt w + (code.count .count + 1) := by rw [tally, hc, List.count_cons_self]
    simp only [St.next, count_go (x := .put) hc nofun]
    omega
  | put hc hf hp =>
    obtain rfl := hi.is_main hc (by simp [round])
    rw [hc, List.count_cons_self] at hbooks
    simp only [St.next, left, goes hc nofun, update_self, List.length_append, List.length_singleton]
    omega
  | got hc hp hq hcl =>
    obtain ⟨w, rfl, rfl⟩ := hi.is_worker hc
    rw [hq, List.length_cons] at hbooks
    simp only [St.next, left, loop _ hc, update_of_ne (Option.some_ne_none w).symm]
    have hround : (round : List (Stmt m)).count .count = 1 := rfl
    omega
  | gaveUp hc hp hq hcl hsh =>
    obtain ⟨w, rfl, rfl⟩ := hi.is_worker hc
    rw [hq] at hbooks
    simpa only [St.next, left, loop _ hc, update_of_ne (Option.some_ne_none w).symm, hsh, List.count_nil,
      Nat.add_zero] using hbooks
  | call | lock | sleep | spurious => exact hbooks

/-- **The invariant.** -/
theorem step_inv (hi : Inv n s) (h : step sizeLimit s o = some s') : Inv n s' :=
  have hs := step_eq hi.calls h
  ⟨step_calls hs hi.calls, step_counted hs hi, step_fits hs hi, step_codes hs hi, step_closed hs hi, step_left hs hi,
    step_made hs hi, step_books hs hi⟩

theorem run_inv {ops : List (Op m O)} (hr : (program sizeLimit n m O).run (init n m O) ops = some s) : Inv n s :=
  (program sizeLimit n m O).run_inv (fun _ _ _ hi hs => step_inv hi hs) inv_init hr

end Hodgepodge.SharedObjects
