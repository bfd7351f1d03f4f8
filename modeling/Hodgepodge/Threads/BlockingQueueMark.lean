/-
The high-water mark of `blocking_queue` (thread_queue.h). `_max_size` is written in one place only, in get, before the
erase: a put that makes the queue longer than it ever was leaves the mark behind. It is behind only while the queue is
as long as its peak, for the queue shrinks in get alone, and get brings the mark up first.

`level`, the larger of the mark and the current size, therefore is the peak of the run; and `put` appends only below
the limit, so the peak is within it. The limit is an `int` that is compared with `_q.size()` as a `size_t`; the results
are for limits that are not negative.

Results:
- `leave_level`: a section raises the level to the new size if that is more, and lowers it never.
- `high_water_mark`: in every reachable state the size is within the limit, the level is the peak, and when the queue
  is empty `max_size()` is the peak.
-/
import Hodgepodge.Threads.BlockingQueue

namespace Hodgepodge.BlockingQueue

open Hodgepodge.Core Hodgepodge.Core.Monitor

variable {ι α : Type*} {sizeLimit : Int32}

/-- `max_size()`, which does not take the mutex -/
def maxSize (s : Fields α) : Int32 := s.maxSize

/-- the larger of `_max_size` and the current size -/
def level (s : Fields α) : ℕ := max (maxSize s).toInt.toNat s.q.length

/-- the mark and the size are within the limit -/
structure Bounded (sizeLimit : Int32) (s : Fields α) : Prop where
  nonneg : 0 ≤ (maxSize s).toInt
  mark : (maxSize s).toInt ≤ sizeLimit.toInt
  size : (s.q.length : ℤ) ≤ sizeLimit.toInt

/-! ## One section -/

theorem sizeT_of_nonneg {i : Int32} (h : 0 ≤ i.toInt) : sizeT i = i.toInt.toNat := by
  have := i.toInt_lt
  unfold sizeT
  rw [Int.emod_eq_of_lt h (by omega)]

theorem toInt_ofNat {n : ℕ} (h : (n : ℤ) ≤ sizeLimit.toInt) : (Int32.ofNat n).toInt = n := by
  have := sizeLimit.toInt_lt
  exact Int32.toInt_ofNat_of_lt (by omega)

/-- after `mark` the stored mark is the level -/
theorem maxSize_mark {s : Fields α} (h : Bounded sizeLimit s) : (maxSize (mark s)).toInt = level s := by
  have hsize : sizeT s.maxSize = (maxSize s).toInt.toNat := sizeT_of_nonneg h.nonneg
  unfold mark level
  split
  · rename_i hlt
    rw [max_eq_right (hsize ▸ hlt.le)]
    exact toInt_ofNat h.size
  · rename_i hle
    rw [max_eq_left (hsize ▸ not_lt.1 hle)]
    exact (Int.toNat_of_nonneg h.nonneg).symm

/-- a get that leaves brings the mark up first and takes at most one element -/
theorem get_leave_mark {f : α → Bool} {s s' : Fields α} {wake : Cv → Bool} {r : Ret α}
    (h : get sizeLimit f s = .leave s' wake r) : maxSize s' = maxSize (mark s) ∧ s'.q.length ≤ s.q.length := by
  unfold get at h
  split at h
  · cases h
  · cases h; exact ⟨rfl, by rw [mark_q]⟩
  · cases h; exact ⟨rfl, List.length_eraseIdx_le _ _⟩

theorem get_level {f : α → Bool} {s s' : Fields α} {wake : Cv → Bool} {r : Ret α} (hb : Bounded sizeLimit s)
    (h : get sizeLimit f s = .leave s' wake r) :
    Bounded sizeLimit s' ∧ level s' = max (level s) s'.q.length := by
  obtain ⟨hm, hl⟩ := get_leave_mark h
  have hmark : (maxSize s').toInt = level s := by rw [hm, maxSize_mark hb]
  have hn := hb.nonneg
  have hlim := hb.mark
  have hsize := hb.size
  have hlevel : (level s : ℤ) ≤ sizeLimit.toInt := by unfold level; omega
  refine ⟨⟨by omega, by omega, by omega⟩, ?_⟩
  calc level s' = max (maxSize s').toInt.toNat s'.q.length := rfl
    _ = max (level s) s'.q.length := by rw [hmark, Int.toNat_natCast]

theorem put_level {obj : α} {b w : Bool} {s s' : Fields α} {wake : Cv → Bool} {r : Ret α}
    (hb : Bounded sizeLimit s) (h : put sizeLimit obj b w s = .leave s' wake r) :
    Bounded sizeLimit s' ∧ level s' = max (level s) s'.q.length := by
  have hn := hb.nonneg
  have hlim := hb.mark
  rcases put_leave h with ⟨hroom, rfl, -, -⟩ | ⟨-, rfl, -, -⟩
  · have hlt : s.q.length < sizeLimit.toInt.toNat := by
      rw [← sizeT_of_nonneg (hn.trans hlim)]
      simpa [below] using hroom
    refine ⟨⟨hn, hlim, ?_⟩, ?_⟩
    · simp only [List.length_append, List.length_singleton]
      omega
    · simp only [level, maxSize, List.length_append, List.length_singleton]
      omega
  · refine ⟨hb, ?_⟩
    unfold level
    omega

/-- **A section.** The bounds are kept, and the level is raised to the new size if that is more. -/
theorem leave_level {a : Call α} {w : Bool} {s s' : Fields α} {wake : Cv → Bool} {r : Ret α}
    (hb : Bounded sizeLimit s) (h : (monitor sizeLimit).sec a w s = .leave s' wake r) :
    Bounded sizeLimit s' ∧ level s' = max (level s) s'.q.length := by
  have same : ∀ {t : Fields α}, maxSize t = maxSize s → t.q = s.q → Bounded sizeLimit t ∧
      level t = max (level s) t.q.length := by
    intro t hm hq
    refine ⟨⟨hm ▸ hb.nonneg, hm ▸ hb.mark, hq ▸ hb.size⟩, ?_⟩
    unfold level
    rw [hm, hq]
    omega
  cases a with
  | get f => exact get_level hb h
  | put obj b => exact put_level hb h
  | close => cases h; exact same rfl rfl
  | size => cases h; exact same rfl rfl

/-! ## The run -/

variable [DecidableEq ι]

theorem step_level {s s' : St ι α} {o : Op ι (Call α)} (hb : Bounded sizeLimit s.sh)
    (h : (queue ι α sizeLimit).step s o = some s') :
    Bounded sizeLimit s'.sh ∧ level s'.sh = max (level s.sh) s'.sh.q.length := by
  have same : Bounded sizeLimit s.sh ∧ level s.sh = max (level s.sh) s.sh.q.length :=
    ⟨hb, (max_eq_left (le_max_right _ _)).symm⟩
  cases step_move h with
  | leave hp hs => exact leave_level hb hs
  | call => exact same
  | lock => exact same
  | sleep => exact same
  | wake => exact same
  | wakeAll => exact same

/-- **The high-water mark is exact and the limit is kept.** After every run of any threads: the queue is within the
limit, and so is `max_size()`; the larger of `max_size()` and the size is the largest size that the queue has had in
the run; when the queue is empty, `max_size()` alone is. -/
theorem high_water_mark (sizeLimit : Int32) (hlim : 0 ≤ sizeLimit.toInt) (ops : List (Op ι (Call α))) (s : St ι α)
    (hr : (queue ι α sizeLimit).run (queue ι α sizeLimit).init ops = some s) :
    (s.sh.q.length : ℤ) ≤ sizeLimit.toInt ∧
      ∃ m : ℕ, (maxSize s.sh).toInt = m ∧ (m : ℤ) ≤ sizeLimit.toInt ∧
        (queue ι α sizeLimit).Peak (·.sh.q.length) (queue ι α sizeLimit).init ops (max m s.sh.q.length) ∧
        (s.sh.q = [] → (queue ι α sizeLimit).Peak (·.sh.q.length) (queue ι α sizeLimit).init ops m) := by
  have h0 : Bounded sizeLimit (queue ι α sizeLimit).init.sh := ⟨le_rfl, hlim, hlim⟩
  obtain ⟨hb, hp⟩ := Lts.peak_of_step (L := queue ι α sizeLimit) (I := fun s => Bounded sizeLimit s.sh)
    (f := fun s => s.sh.q.length) (μ := fun s => level s.sh) (fun _ _ _ => step_level) h0 rfl hr
  have hm : (maxSize s.sh).toInt = (maxSize s.sh).toInt.toNat := (Int.toNat_of_nonneg hb.nonneg).symm
  refine ⟨hb.size, _, hm, hm ▸ hb.mark, hp, fun hq => ?_⟩
  simpa [level, hq] using hp

/-- two puts, a get, a put and two gets: the queue held two elements at most -/
def upAndDown : List (Op ℕ (Call ℕ)) :=
  [.call 0 (.put 5 true), .lock 0, .exec 0, .call 0 (.put 7 true), .lock 0, .exec 0, .call 1 .getAny, .lock 1, .exec 1,
    .call 0 (.put 9 true), .lock 0, .exec 0, .call 1 .getAny, .lock 1, .exec 1, .call 1 .getAny, .lock 1, .exec 1]

theorem upAndDown_peak :
    ∃ s, (queue ℕ ℕ 2).run (queue ℕ ℕ 2).init upAndDown = some s ∧ s.sh.q = [] ∧ maxSize s.sh = 2 ∧
      (queue ℕ ℕ 2).Peak (·.sh.q.length) (queue ℕ ℕ 2).init upAndDown 2 := by
  have hrun : ((queue ℕ ℕ 2).run (queue ℕ ℕ 2).init upAndDown).map (fun s => (s.sh.q, maxSize s.sh)) =
      some ([], 2) := by decide +kernel
  obtain ⟨s, hr, hs⟩ := Option.map_eq_some_iff.1 hrun
  simp only [Prod.mk.injEq] at hs
  refine ⟨s, hr, hs.1, hs.2, ?_⟩
  obtain ⟨m, hm, -, -, hp⟩ := (high_water_mark 2 (by decide) upAndDown s hr).2
  have h2 : (2 : ℤ) = m := by rw [← hm, hs.2]; rfl
  obtain rfl : m = 2 := by omega
  exact hp hs.1

end Hodgepodge.BlockingQueue
