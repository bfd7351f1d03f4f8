/-
The progress line of `server_tst1` (tipc.cpp). After every block the loop reads the elapsed time. It prints when more
than a second has passed since the last line, and always after the last block: `ms0` takes the reading, and the line
shows `id`, a percentage and a rate, whose divisor is `ms0 * 1024 * 1024 / 1000`.

All of this is `int` arithmetic, apart from the percentage. The last line of a transfer that took less than a
millisecond divides by zero; a line printed 2048 ms after the start or later overflows in `ms0 * 1024 * 1024`.

Model: the readings, one for each block received; there are fewer than blocks if the transfer was aborted. An operation
without a defined result is `none`.

Results:
- `progress_eq`: what one pass of the loop does.
- `tst1_arithmetic_iff`: the transfers whose arithmetic is defined.
- `fast_transfer_divides_by_zero`: two that are not.
-/
import Mathlib.Data.List.Pairwise
import Hodgepodge.Core.Checked

namespace Hodgepodge.Ipc.Tst1

open Hodgepodge.Core.Checked

/-! ## Model -/

/-- `sizeof(buff_rx)` -/
abbrev sizeofBuffRx : ℤ := 1024

/-- what a line shows -/
structure Line where
  id : ℤ
  total : ℤ
  percent : ℤ
  rate : ℤ
deriving DecidableEq

structure St where
  id : ℤ
  ms0 : ℤ
  lines : List Line
deriving DecidableEq

/-- `ms.count() > ms0 + 1000 || id >= total`, and the line -/
def progress (total ms : ℤ) (s : St) : Option St :=
  (int (s.ms0 + 1000)).bind fun limit =>
    if limit < ms ∨ total ≤ s.id then
      (int64 (s.id * 100)).bind fun hundred =>
      (quot half64 hundred total).bind fun percent =>
      (int (ms * 1024)).bind fun kilo =>
      (int (kilo * 1024)).bind fun mega =>
      (quot half32 mega 1000).bind fun divisor =>
      (quot half32 s.id divisor).map fun rate =>
        ⟨s.id, ms, s.lines ++ [⟨s.id, total, percent, rate⟩]⟩
    else some s

/-- `len` -/
def len (total id : ℤ) : ℤ := if total - id < sizeofBuffRx then total - id else sizeofBuffRx

/-- the passes of the loop that read a block; the list holds the reading of each -/
def passes (total : ℤ) : List ℤ → St → Option St
  | [], s => some s
  | ms :: readings, s =>
    if s.id < total then (progress total ms { s with id := s.id + len total s.id }).bind (passes total readings)
    else some s

def serverTst1 (total : ℤ) (readings : List ℤ) : Option St := passes total readings ⟨0, 0, []⟩

/-- the number of passes that a transfer of `total` bytes needs -/
def blocks (total : ℤ) : ℕ := ((total + 1023) / 1024).toNat

/-! ## One pass -/

variable {total ms m : ℤ} {readings : List ℤ} {s : St}

/-- between two passes; `ms0` is a reading that was printed without an overflow, or still 0 -/
structure Good (total : ℤ) (s : St) : Prop where
  id : 0 ≤ s.id
  total : s.id ≤ total
  ms0 : 0 ≤ s.ms0
  printed : s.ms0 ≤ 2047

theorem Good.limit (h : Good total s) : int (s.ms0 + 1000) = some (s.ms0 + 1000) := by
  have := h.ms0
  have := h.printed
  exact signed_fits (by unfold Fits half32; omega)

theorem progress_quiet (h : Good total s) (hq : ms ≤ s.ms0 + 1000) (hid : s.id < total) :
    progress total ms s = some s := by
  unfold progress
  rw [h.limit, Option.bind_some, if_neg (by omega)]

/-- the percentage has a value -/
theorem percent_eq (h : Good total s) (h0 : 0 < s.id) (ht : total < half32) :
    (int64 (s.id * 100)).bind (fun hundred => quot half64 hundred total) = some (s.id * 100 / total) := by
  have := h.total
  unfold half32 at ht
  rw [int64, signed_fits (by unfold Fits half64; omega), Option.bind_some]
  exact quot_nat (by omega) (by omega) (by unfold half64; omega)

/-- a line can be printed exactly from 1 to 2047 ms -/
theorem progress_due (h : Good total s) (h0 : 0 < s.id) (ht : total < half32)
    (hdue : s.ms0 + 1000 < ms ∨ total ≤ s.id) (hms : 1 ≤ ms) (hms' : ms ≤ 2047) :
    ∃ lines, progress total ms s = some ⟨s.id, ms, lines⟩ := by
  have hkilo : int (ms * 1024) = some (ms * 1024) := signed_fits (by unfold Fits half32; omega)
  have hmega : int (ms * 1024 * 1024) = some (ms * 1024 * 1024) := signed_fits (by unfold Fits half32; omega)
  have hdivisor : quot half32 (ms * 1024 * 1024) 1000 = some (ms * 1024 * 1024 / 1000) :=
    quot_nat (by omega) (by omega) (by unfold half32; omega)
  have hrate : quot half32 s.id (ms * 1024 * 1024 / 1000) = some (s.id / (ms * 1024 * 1024 / 1000)) :=
    quot_nat h.id (by omega) (by have := h.total; omega)
  obtain ⟨hundred, hh, hp⟩ := Option.bind_eq_some_iff.1 (percent_eq h h0 ht)
  unfold progress
  rw [h.limit, Option.bind_some, if_pos hdue, hh, Option.bind_some, hp, Option.bind_some, hkilo, Option.bind_some,
    hmega, Option.bind_some, hdivisor, Option.bind_some, hrate]
  exact ⟨_, rfl⟩

/-- and at no other reading: at 0 the divisor is 0, from 2048 on the product overflows -/
theorem progress_defined {s' : St} (h0 : 0 ≤ ms) (hdue : s.ms0 + 1000 < ms ∨ total ≤ s.id)
    (h : progress total ms s = some s') : 1 ≤ ms ∧ ms ≤ 2047 := by
  simp only [progress, Option.bind_eq_some_iff] at h
  obtain ⟨limit, hlimit, h⟩ := h
  obtain ⟨rfl, -⟩ := signed_eq.1 hlimit
  rw [if_pos hdue] at h
  simp only [Option.bind_eq_some_iff, Option.map_eq_some_iff] at h
  obtain ⟨-, -, -, -, kilo, hkilo, mega, hmega, divisor, hdivisor, rate, hrate, -⟩ := h
  obtain ⟨rfl, -⟩ := signed_eq.1 hkilo
  obtain ⟨rfl, hfits⟩ := signed_eq.1 hmega
  obtain ⟨-, rfl, -⟩ := quot_eq.1 hdivisor
  obtain ⟨hne, -⟩ := quot_eq.1 hrate
  refine ⟨?_, ?_⟩
  · by_contra hlt
    obtain rfl : ms = 0 := by omega
    exact hne rfl
  · unfold Fits half32 at hfits
    omega

/-! ## The lines of a transfer -/

/-- the readings that are more than a second behind the last line, from a line at `m` on -/
def due (m : ℤ) : List ℤ → List ℤ
  | [] => []
  | ms :: readings => if m + 1000 < ms then ms :: due ms readings else due m readings

theorem due_subset (h : ms ∈ due m readings) : ms ∈ readings := by
  induction readings generalizing m with
  | nil => exact h
  | cons x readings ih =>
    rw [due] at h
    split_ifs at h
    · rcases List.mem_cons.1 h with rfl | h
      · exact List.mem_cons_self
      · exact List.mem_cons_of_mem _ (ih h)
    · exact List.mem_cons_of_mem _ (ih h)

/-- the next line is the first reading that is due, and the lines after it do not depend on the readings before it -/
theorem due_eq (h : readings.Pairwise (· ≤ ·)) :
    due m readings =
      match readings.find? (fun ms => decide (m + 1000 < ms)) with
      | none => []
      | some a => a :: due a readings := by
  induction readings generalizing m with
  | nil => rfl
  | cons ms readings ih =>
    obtain ⟨hle, hrest⟩ := List.pairwise_cons.1 h
    have skip : ∀ a, ms ≤ a → due a (ms :: readings) = due a readings := by
      intro a ha
      rw [due, if_neg (by omega)]
    by_cases hdue : m + 1000 < ms
    · rw [due, if_pos hdue, List.find?_cons_of_pos (by simpa using hdue)]
      simp only [skip ms (Int.le_refl ms)]
    · rw [due, if_neg hdue, List.find?_cons_of_neg (by simpa using hdue), ih hrest]
      split
      · rfl
      · rename_i a ha
        rw [skip a (hle a (List.mem_of_find?_eq_some ha))]

/-- no line is due after 2047 ms: the first reading above 1000 ms, the first one more than 1000 ms above that, and then
none -/
def Throttled (readings : List ℤ) : Prop :=
  ∀ a, readings.find? (fun ms => decide (1000 < ms)) = some a → a ≤ 2047 ∧
    ∀ b, readings.find? (fun ms => decide (a + 1000 < ms)) = some b → b ≤ 2047 ∧ ∀ c ∈ readings, c ≤ b + 1000

theorem throttled_iff (h : readings.Pairwise (· ≤ ·)) : Throttled readings ↔ ∀ ms ∈ due 0 readings, ms ≤ 2047 := by
  unfold Throttled
  rw [due_eq h]
  simp only [zero_add]
  split
  · rename_i hnone
    simp [hnone]
  · rename_i a ha
    have ha0 : 1000 < a := by simpa using List.find?_some ha
    simp only [ha, Option.some.injEq, forall_eq', List.forall_mem_cons]
    refine and_congr_right ?_
    intro _
    rw [due_eq h]
    split
    · rename_i hnone
      simp [hnone]
    · rename_i b hb
      have hab : a + 1000 < b := by simpa using List.find?_some hb
      simp only [hb, Option.some.injEq, forall_eq', List.forall_mem_cons]
      refine and_congr_right ?_
      intro _
      -- the second line stands above 2000 ms, so a third would stand above 3000
      rw [due_eq h]
      split
      · rename_i hnone
        rw [List.find?_eq_none] at hnone
        exact iff_of_true (fun c hc => by simpa using hnone c hc) (List.forall_mem_nil _)
      · rename_i c hc
        have hbc : b + 1000 < c := by simpa using List.find?_some hc
        refine iff_of_false (fun hall => ?_) (fun hall => ?_)
        · have := hall c (List.mem_of_find?_eq_some hc); omega
        · have := hall c List.mem_cons_self; omega

theorem passes_append (a b : List ℤ) : passes total (a ++ b) s = (passes total a s).bind (passes total b) := by
  induction a generalizing s with
  | nil => rfl
  | cons ms a ih =>
    simp only [List.cons_append, passes]
    split
    · cases progress total ms { s with id := s.id + len total s.id } with
      | none => rfl
      | some s' => exact ih
    · rename_i hid
      cases b with
      | nil => rfl
      | cons x b => rw [Option.bind_some, passes, if_neg hid]

/-- a block that is not the last -/
theorem Good.block (h : Good total s) (hid : s.id + 1024 < total) :
    Good total { s with id := s.id + len total s.id } ∧ s.id + len total s.id = s.id + 1024 := by
  have hlen : len total s.id = 1024 := if_neg (by unfold sizeofBuffRx; omega)
  have := h.id
  rw [hlen]
  exact ⟨⟨by simp only; omega, by simp only; omega, h.ms0, h.printed⟩, rfl⟩

/-- passes that do not reach the last block print the readings that are due -/
theorem passes_throttled (h : Good total s) (ht : total < half32) (hid : s.id + 1024 * readings.length < total)
    (hrange : ∀ ms ∈ readings, 0 ≤ ms) (hdue : ∀ ms ∈ due s.ms0 readings, ms ≤ 2047) :
    ∃ s', passes total readings s = some s' ∧ Good total s' ∧ s'.id = s.id + 1024 * readings.length := by
  induction readings generalizing s with
  | nil => exact ⟨s, rfl, h, by simp⟩
  | cons ms readings ih =>
    obtain ⟨h0, hrange⟩ := List.forall_mem_cons.1 hrange
    rw [List.length_cons] at hid ⊢
    obtain ⟨hgood, hblock⟩ := h.block (by omega)
    have hid0 := h.id
    have hms0 := h.ms0
    rw [passes, if_pos (by omega)]
    rw [due] at hdue
    split_ifs at hdue with hlate
    · obtain ⟨hms, hdue⟩ := List.forall_mem_cons.1 hdue
      obtain ⟨lines, hp⟩ := progress_due hgood (by simp only; omega) ht (Or.inl hlate) (by omega) hms
      have hgood' : Good total ⟨s.id + len total s.id, ms, lines⟩ := ⟨hgood.id, hgood.total, h0, hms⟩
      obtain ⟨s', hs', hg, he⟩ := ih hgood' (by simp only; omega) hrange hdue
      refine ⟨s', by rw [hp]; exact hs', hg, ?_⟩
      simp only at he
      omega
    · have hp := progress_quiet hgood (Int.not_lt.1 hlate) (by simp only; omega)
      obtain ⟨s', hs', hg, he⟩ := ih hgood (by simp only; omega) hrange hdue
      refine ⟨s', by rw [hp]; exact hs', hg, ?_⟩
      simp only at he
      omega

/-- passes that are due a line after 2047 ms have no result -/
theorem passes_overdue (h : Good total s) (ht : total < half32) (hid : s.id + 1024 * readings.length < total)
    (hrange : ∀ ms ∈ readings, 0 ≤ ms) (hdue : ∃ ms ∈ due s.ms0 readings, 2047 < ms) :
    passes total readings s = none := by
  induction readings generalizing s with
  | nil => obtain ⟨ms, hm, -⟩ := hdue; cases hm
  | cons ms readings ih =>
    obtain ⟨h0, hrange⟩ := List.forall_mem_cons.1 hrange
    rw [List.length_cons] at hid
    obtain ⟨hgood, hblock⟩ := h.block (by omega)
    have hid0 := h.id
    have hms0 := h.ms0
    rw [passes, if_pos (by omega)]
    rw [due] at hdue
    split_ifs at hdue with hlate
    · by_cases hms : ms ≤ 2047
      · obtain ⟨lines, hp⟩ := progress_due hgood (by simp only; omega) ht (Or.inl hlate) (by omega) hms
        have hgood' : Good total ⟨s.id + len total s.id, ms, lines⟩ := ⟨hgood.id, hgood.total, h0, hms⟩
        obtain ⟨p, hp', hlt⟩ := hdue
        have hrest : ∃ p ∈ due ms readings, 2047 < p :=
          ⟨p, (List.mem_cons.1 hp').resolve_left (by omega), hlt⟩
        rw [hp, Option.bind_some]
        exact ih hgood' (by simp only; omega) hrange hrest
      · rw [Option.bind_eq_none_iff]
        intro s' hp
        have hdefined := progress_defined (s := { s with id := s.id + len total s.id }) h0 (Or.inl hlate) hp
        exact absurd hdefined.2 hms
    · rw [progress_quiet hgood (Int.not_lt.1 hlate) (by simp only; omega), Option.bind_some]
      exact ih hgood (by simp only; omega) hrange hdue

/-- the pass with the last block always prints -/
theorem passes_last (h : Good total s) (ht : total < half32) (hid : s.id < total) (hlast : total ≤ s.id + 1024)
    (h0 : 0 ≤ ms) : (passes total [ms] s).isSome ↔ 1 ≤ ms ∧ ms ≤ 2047 := by
  have hlen : s.id + len total s.id = total := by
    unfold len sizeofBuffRx
    split <;> omega
  have hpos := h.id
  have hgood : Good total { s with id := s.id + len total s.id } :=
    ⟨by simp only; omega, by simp only; omega, h.ms0, h.printed⟩
  have hdue : total ≤ s.id + len total s.id := Int.le_of_eq hlen.symm
  rw [passes, if_pos hid]
  constructor
  · intro hs
    obtain ⟨s', hs⟩ := Option.isSome_iff_exists.1 hs
    obtain ⟨s'', hp, -⟩ := Option.bind_eq_some_iff.1 hs
    exact progress_defined h0 (Or.inr hdue) hp
  · rintro ⟨hms, hms'⟩
    obtain ⟨lines, hp⟩ := progress_due hgood (by simp only; omega) ht (Or.inr hdue) hms hms'
    rw [hp]
    rfl

/-! ## All transfers -/

theorem start_good (h : 0 ≤ total) : Good total ⟨0, 0, []⟩ := ⟨Int.le_refl 0, h, Int.le_refl 0, by simp only; omega⟩

/-- **The arithmetic of the progress line.** For every total and every sequence of readings that does not decrease, one
for each block received: every expression of every pass has a value exactly if, for a transfer that was completed, there
was no block or the last reading is between 1 and 2047 ms, and, for one that was aborted before, no line was due after
2047 ms. -/
theorem tst1_arithmetic_iff (total : ℤ) (readings : List ℤ) (ht : Fits half32 total)
    (hrange : ∀ ms ∈ readings, 0 ≤ ms ∧ ms < half32) (hmono : readings.Pairwise (· ≤ ·))
    (hlen : readings.length ≤ blocks total) :
    (serverTst1 total readings).isSome ↔
      if readings.length = blocks total then ∀ ms ∈ readings.getLast?, 1 ≤ ms ∧ ms ≤ 2047 else Throttled readings := by
  have hmax := ht.2
  have hnonneg : ∀ ms ∈ readings, 0 ≤ ms := fun ms hms => (hrange ms hms).1
  unfold serverTst1
  unfold blocks at hlen ⊢
  split
  · rename_i hdone
    rcases List.eq_nil_or_concat readings with rfl | ⟨before, last, rfl⟩
    · simp [passes]
    rw [List.concat_eq_append] at *
    rw [List.length_append, List.length_singleton] at hdone
    have hid : (0 : ℤ) + 1024 * before.length < total := by omega
    have h : Good total ⟨0, 0, []⟩ := start_good (by omega)
    obtain ⟨-, hpast, hend⟩ := List.pairwise_append.1 hmono
    have hlast : ∀ p ∈ before, p ≤ last := fun p hp => hend p hp last List.mem_cons_self
    have hbefore : ∀ ms ∈ before, 0 ≤ ms := fun ms hms => hnonneg ms (List.mem_append_left _ hms)
    have h0 : 0 ≤ last := hnonneg last (by simp)
    have hcond : (∀ ms ∈ (before ++ [last]).getLast?, 1 ≤ ms ∧ ms ≤ 2047) ↔ 1 ≤ last ∧ last ≤ 2047 := by
      simp
    rw [passes_append, hcond]
    by_cases hdue : ∀ p ∈ due 0 before, p ≤ 2047
    · obtain ⟨s', hs', hgood, hid'⟩ := passes_throttled h hmax hid hbefore hdue
      rw [hs', Option.bind_some]
      simp only at hid'
      exact passes_last hgood hmax (by omega) (by omega) h0
    · -- a line was due after 2047 ms, and the last reading is not below it
      simp only [not_forall, Int.not_le] at hdue
      obtain ⟨p, hp, hlt⟩ := hdue
      rw [passes_overdue h hmax hid hbefore ⟨p, hp, hlt⟩]
      have hle := hlast p (due_subset hp)
      exact iff_of_false Bool.false_ne_true (by omega)
  · rename_i hpart
    have hid : (0 : ℤ) + 1024 * readings.length < total := by omega
    have h : Good total ⟨0, 0, []⟩ := start_good (by omega)
    rw [throttled_iff hmono]
    constructor
    · intro hs
      by_contra hcon
      simp only [not_forall, Int.not_le] at hcon
      obtain ⟨ms, hms, hlt⟩ := hcon
      rw [passes_overdue h hmax hid hnonneg ⟨ms, hms, hlt⟩] at hs
      cases hs
    · intro hdue
      obtain ⟨s', hs', -⟩ := passes_throttled h hmax hid hnonneg hdue
      rw [hs']
      rfl

/-- three blocks in a second and a half -/
theorem three_blocks : (serverTst1 2500 [300, 1100, 1500]).isSome := by
  refine (tst1_arithmetic_iff 2500 [300, 1100, 1500] (by decide) (by decide) (by decide) (by decide)).2 ?_
  rw [if_pos (by decide)]
  intro ms hms
  cases hms
  decide

/-- **A fast transfer divides by zero**, and a slow one overflows: one byte, received at once or after two seconds. -/
theorem fast_transfer_divides_by_zero :
    (¬ ∀ (total : ℤ) (readings : List ℤ), Fits half32 total → (∀ ms ∈ readings, 0 ≤ ms ∧ ms < half32) →
        readings.Pairwise (· ≤ ·) → readings.length ≤ blocks total → (serverTst1 total readings).isSome) ∧
      serverTst1 1 [2048] = none := by
  refine ⟨fun h => ?_, by decide⟩
  have := h 1 [0] (by decide) (by decide) (by decide) (by decide)
  revert this
  decide

end Hodgepodge.Ipc.Tst1
