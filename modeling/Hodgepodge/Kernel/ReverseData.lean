/-
What the reads of the character device of kernel_module/hello.c return. A write replaces what is left of the payload
before; the reads after it take the bytes between `read_ptr` and `end`, each as many as it asked for and are there. A
copy to user space that faults leaves `read_ptr` where it is.

Copies from user space do not fault here: a payload that faults half way has overwritten the buffer of the one before.

Results:
- `Delivery`, `step_delivery`: what the reads since the last write have returned, and the bytes between the pointers, are
  the payload of that write.
- `since_segment`: the reads between two writes.
- `payload_once`: for every run, with any number of processes, sizes and faulting reads.
-/
import Hodgepodge.Kernel.Reverse

namespace Hodgepodge.Reverse

open Function Hodgepodge.Core

/-! ## The log -/

/-- what a read has returned -/
def Event.bytes : Event → List UInt8
  | .wrote _ => []
  | .got bytes => bytes

/-- the payload of the last write, and what has been read of it -/
def since (log : List Event) : Option (List UInt8 × List UInt8) :=
  log.foldl (fun acc e =>
    match e with
    | .wrote w => some (w, [])
    | .got bytes => acc.map fun x => (x.1, x.2 ++ bytes)) none

@[simp] theorem since_wrote (log : List Event) (w : List UInt8) : since (log ++ [.wrote w]) = some (w, []) := by
  simp [since]

@[simp] theorem since_got (log : List Event) (bytes : List UInt8) :
    since (log ++ [.got bytes]) = (since log).map fun x => (x.1, x.2 ++ bytes) := by simp [since]

/-- the reads between two writes -/
theorem since_segment (pre : List Event) (w : List UInt8) (mid : List Event) (hm : ∀ e ∈ mid, ∃ b, e = .got b) :
    since (pre ++ .wrote w :: mid) = some (w, mid.flatMap Event.bytes) := by
  induction mid using List.reverseRecOn with
  | nil => simp
  | append_singleton mid e ih =>
    obtain ⟨b, rfl⟩ := hm e (by simp)
    have ih := ih fun e he => hm e (by simp [he])
    have hcat : pre ++ .wrote w :: (mid ++ [.got b]) = (pre ++ .wrote w :: mid) ++ [.got b] := by simp
    rw [hcat, since_got, ih]
    simp [Event.bytes]

theorem since_none {log : List Event} (h : since log = none) (w : List UInt8) : .wrote w ∉ log := by
  induction log using List.reverseRecOn with
  | nil => simp
  | append_singleton log e ih =>
    cases e with
    | wrote v => simp at h
    | got b =>
      simp only [since_got, Option.map_eq_none_iff] at h
      simpa using ih h

/-! ## The memory -/

theorem window_add (mem : ℕ → UInt8) (a m n : ℕ) : window mem a (m + n) = window mem a m ++ window mem (a + m) n := by
  simp [window, List.range_add, Nat.add_assoc]

theorem window_poke (mem : ℕ → UInt8) (a : ℕ) (w : List UInt8) : window (poke mem a w) a w.length = w := by
  refine List.ext_getElem (by simp) fun i hi hi' => ?_
  simp [window, poke, hi']

variable {P : Type*} {D : Device} {s s' : St P} {o : Op P} {p q : P} {pc : Pc}

/-- a writer has put its payload into the buffer, and the pointers are not there yet -/
def Pc.storing : Pc → Bool
  | .writeEnd _ | .writePtr _ => true
  | _ => false

/-- what a process has in hand -/
def Carries (D : Device) (s : St P) : Pc → Prop
  | .writeEnd w | .writePtr w => window s.mem D.data w.length = w
  | .readAdvance bytes => bytes = window s.mem s.readPtr bytes.length
  | _ => True

/-- what is between the pointers is what is left of the last payload -/
def Left (D : Device) (s : St P) : Prop :=
  since s.log = none ∧ s.readPtr = 0 ∧ s.endPtr = 0 ∨
    ∃ w r, since s.log = some (w, r) ∧ D.data ≤ s.readPtr ∧ w = r ++ window s.mem s.readPtr (s.endPtr - s.readPtr)

structure Delivery (D : Device) (s : St P) : Prop where
  left : (∀ p, (s.pc p).storing = false) → Left D s
  carries : ∀ p, Carries D s (s.pc p)
  /-- at any time so far -/
  delivered : ∀ log, log <+: s.log → ∀ w r, since log = some (w, r) → r <+: w

theorem Moves.storing {a b : Pc} (h : Moves D s a b) : a.storing = false := by
  cases h with
  | signal hi => cases a <;> first | rfl | cases hi
  | _ => rfl

theorem Moves.carries {a b : Pc} (h : Moves D s a b) : Carries D s b := by
  cases h with
  | copyToUser => simp [Carries]
  | _ => trivial

theorem Carries.other {pc : Pc} (h : Carries D s pc) (hc : pc.critical = false) : Carries D s' pc := by
  cases pc <;> first | exact h | cases hc

theorem Carries.same {pc : Pc} (h : Carries D s pc) (hm : s'.mem = s.mem) (hr : s'.readPtr = s.readPtr) :
    Carries D s' pc := by
  cases pc <;> simp only [Carries, hm, hr] at h ⊢ <;> exact h

theorem Carries.woken {pc : Pc} (h : Carries D s pc) : Carries D s pc.woken := by cases pc <;> exact h

theorem woken_storing (pc : Pc) : pc.woken.storing = pc.storing := by cases pc <;> rfl

theorem Locked.not_storing (h : Locked s) (hp : (s.pc p).critical = true) (ht : (s.pc p).storing = false) (q : P) :
    (s.pc q).storing = false := by
  cases hq : (s.pc q).storing with
  | false => rfl
  | true =>
    have hc : (s.pc q).critical = true := by
      cases hpc : s.pc q <;> rw [hpc] at hq <;> first | rfl | cases hq
    rw [h.only hp hc, hq] at ht; cases ht

variable [DecidableEq P]

/-- a process moves, and pointers, buffer and log stay -/
theorem Delivery.move (h : Delivery D s) (hpc : s'.pc = update s.pc p pc) (hr : s'.readPtr = s.readPtr)
    (he : s'.endPtr = s.endPtr) (hm : s'.mem = s.mem) (hlog : s'.log = s.log) (ht : (s.pc p).storing = false)
    (hf : Carries D s pc) : Delivery D s' := by
  refine ⟨fun hall => ?_, fun q => ?_, by rw [hlog]; exact h.delivered⟩
  · unfold Left
    rw [hr, he, hm, hlog]
    refine h.left fun q => ?_
    by_cases hq : q = p
    · subst hq; exact ht
    · simpa [hpc, hq] using hall q
  · rw [hpc]
    exact forall_update (fun q _ => (h.carries q).same hm hr) (hf.same hm hr) q

/-- a process moves in its critical section -/
theorem Delivery.store (h : Delivery D s) (hl : Locked s) (hp : (s.pc p).critical = true)
    (hpc : s'.pc = update s.pc p pc) (hf : Carries D s' pc) (hleft : pc.storing = false → Left D s')
    (hd : ∀ log, log <+: s'.log → ∀ w r, since log = some (w, r) → r <+: w) : Delivery D s' := by
  refine ⟨fun hall => hleft ?_, fun q => ?_, hd⟩
  · simpa [hpc] using hall p
  · rw [hpc]
    refine forall_update (fun q hq => (h.carries q).other ?_) hf q
    cases hc : (s.pc q).critical with
    | false => rfl
    | true => exact absurd (hl.only hc hp) hq

omit [DecidableEq P] in
/-- the log grows by a read or a write -/
theorem Delivery.grow (h : Delivery D s) {e : Event}
    (he : ∀ w r, since (s.log ++ [e]) = some (w, r) → r <+: w) :
    ∀ log, log <+: s.log ++ [e] → ∀ w r, since log = some (w, r) → r <+: w := by
  intro log hlog
  rcases List.prefix_concat_iff.1 hlog with rfl | hlog
  · exact he
  · exact h.delivered log hlog

/-- the copy from user space does not fault -/
def readable : Op P → Bool
  | .copyFromUser _ (some _) => false
  | _ => true

theorem step_delivery (hs : Step D s o s') (hC : readable o = true) (hl : Locked s) (hw : Window D s)
    (h : Delivery D s) : Delivery D s' := by
  cases hs with
  | move hm => exact h.move rfl rfl rfl rfl rfl hm.storing hm.carries
  | lockRead ho hp | lockWrite ho hp => exact h.move rfl rfl rfl rfl rfl (by rw [hp]; rfl) trivial
  | empty hp hpc =>
    refine h.move goto_mutexUnlock_pc mutexUnlock_readPtr mutexUnlock_endPtr mutexUnlock_mem mutexUnlock_log
      (by rw [hp]; rfl) ?_
    rcases hpc with rfl | rfl <;> trivial
  | outUnlock hp =>
    exact h.move goto_mutexUnlock_pc mutexUnlock_readPtr mutexUnlock_endPtr mutexUnlock_mem mutexUnlock_log
      (by rw [hp]; rfl) trivial
  | @advance p bytes hp =>
    have hc : (s.pc p).critical = true := by rw [hp]; rfl
    have hle := hw.fits p
    have hbytes := h.carries p
    rw [hp] at hle hbytes
    have hle : s.readPtr + bytes.length ≤ s.endPtr := hle
    have hbytes : bytes = window s.mem s.readPtr bytes.length := hbytes
    have hleft := h.left (hl.not_storing hc (by rw [hp]; rfl))
    -- the bytes are the first of what is left
    have hnew : Left D { goto s p (.outUnlock (.size bytes.length)) with
        readPtr := s.readPtr + bytes.length, log := s.log ++ [.got bytes] } := by
      rcases hleft with ⟨hs, hr, he⟩ | ⟨w, r, hs, hd, hw⟩
      · refine Or.inl ⟨by simp [hs], ?_, he⟩
        dsimp only
        omega
      · refine Or.inr ⟨w, r ++ bytes, by simp [hs], Nat.le_add_right_of_le hd, ?_⟩
        have hsplit : s.endPtr - s.readPtr = bytes.length + (s.endPtr - (s.readPtr + bytes.length)) := by omega
        rw [hsplit, window_add, ← hbytes] at hw
        rw [List.append_assoc]
        exact hw
    refine h.store hl hc rfl trivial (fun _ => hnew) (h.grow fun w r hsince => ?_)
    rcases hnew with ⟨hs, -⟩ | ⟨w', r', hs, -, hw'⟩
    · rw [hs] at hsince; cases hsince
    · rw [hs] at hsince; cases hsince
      exact ⟨_, hw'.symm⟩
  | @copyFromUser p w hp =>
    exact h.store hl (by rw [hp]; rfl) rfl (window_poke ..) (fun ht => by cases ht) h.delivered
  | fault hp => cases hC
  | @storeEnd p w hp =>
    have hin := h.carries p
    rw [hp] at hin
    exact h.store hl (by rw [hp]; rfl) rfl hin (fun ht => by cases ht) h.delivered
  | @storeReadPtr p w hp =>
    have hin := h.carries p
    have hfit := hw.fits p
    rw [hp] at hin hfit
    have hin : window s.mem D.data w.length = w := hin
    refine h.store hl (by rw [hp]; rfl) rfl trivial (fun _ => Or.inr ⟨w, [], by simp, Nat.le_refl _, ?_⟩)
      (h.grow fun v r hsince => ?_)
    · have hlen : s.endPtr - D.data = w.length := by rw [hfit.2, Nat.add_sub_cancel_left]
      dsimp only [goto]
      rw [hlen, hin, List.nil_append]
    · rw [since_wrote] at hsince
      cases hsince
      exact List.nil_prefix
  | @wakeUp p w hp =>
    have hw : Delivery D { s with pc := fun q => (s.pc q).woken } :=
      ⟨fun hall => h.left fun q => by simpa [woken_storing] using hall q, fun q => (h.carries q).woken, h.delivered⟩
    exact hw.move rfl rfl rfl rfl rfl (by rw [woken_storing, hp]; rfl) trivial

theorem run_delivery {mem : ℕ → UInt8} {ops : List (Op P)}
    (hC : (device D P mem).Along (fun _ o => readable o) (device D P mem).init ops)
    (hr : (device D P mem).run (device D P mem).init ops = some s) : Inv D s ∧ Delivery D s := by
  refine (device D P mem).along_inv (I := fun s => Inv D s ∧ Delivery D s) (fun s o t hi hC hs => ?_)
    ⟨init_inv mem, ?_, ?_, ?_⟩ hC hr
  · have hs := step_eq hs
    exact ⟨step_inv hs hi.1, step_delivery hs hC hi.1.locked hi.1.window hi.2⟩
  · exact fun _ => Or.inl ⟨rfl, rfl, rfl⟩
  · exact fun _ => trivial
  · intro log hlog w r hs
    rw [List.prefix_nil.1 hlog] at hs
    cases hs

/-- **Each payload once, in order.** In every run in which copies from user space do not fault: while the mutex is free,
nothing was ever written or the pointers delimit a part of the buffer; the reads between a write and the next return, in
the order of their critical sections, a prefix of its payload; and a read that faults leaves everything where it was. -/
theorem payload_once (D : Device) (mem : ℕ → UInt8) (ops : List (Op P)) (s : St P)
    (hC : (device D P mem).Along (fun _ o => readable o) (device D P mem).init ops)
    (hr : (device D P mem).run (device D P mem).init ops = some s) :
    (s.owner = none → (∀ w, .wrote w ∉ s.log) ∨
        D.data ≤ s.readPtr ∧ s.readPtr ≤ s.endPtr ∧ s.endPtr ≤ D.data + D.bufferSize) ∧
      (∀ pre w mid post, s.log = pre ++ .wrote w :: mid ++ post → (∀ e ∈ mid, ∃ b, e = .got b) →
        mid.flatMap Event.bytes <+: w) ∧
      ∀ p s', step D s (.copyToUser p false) = some s' →
        s'.readPtr = s.readPtr ∧ s'.endPtr = s.endPtr ∧ s'.mem = s.mem ∧ s'.log = s.log := by
  obtain ⟨hi, hd⟩ := run_delivery hC hr
  refine ⟨fun ho => ?_, fun pre w mid post hlog hm => ?_, fun p s' hs => ?_⟩
  · -- nobody is in a critical section
    have hout : ∀ p, (s.pc p).critical = false := fun p => by
      cases hc : (s.pc p).critical with
      | false => rfl
      | true => rw [(hi.locked.owner p).2 hc] at ho; cases ho
    have hin : Inside D s := hi.window.inside fun p => by
      have := hout p
      cases hp : s.pc p <;> rw [hp] at this <;> first | rfl | cases this
    have hleft : Left D s := hd.left fun p => by
      have := hout p
      cases hp : s.pc p <;> rw [hp] at this <;> first | rfl | cases this
    rcases hleft with ⟨hs, -⟩ | ⟨w, r, -, hdata, -⟩
    · exact Or.inl (since_none hs)
    · refine Or.inr (hin.resolve_left fun hnull => ?_)
      have := D.data_pos
      omega
  · exact hd.delivered _ ⟨post, hlog.symm⟩ w _ (since_segment pre w mid hm)
  · simp only [step] at hs
    split at hs <;> cases hs
    exact ⟨rfl, rfl, rfl, rfl⟩

/-- one payload, two readers, of which one faults first -/
def twoReaderOps : List (Op Bool) :=
  [.write true [1, 2, 3], .lock true, .copyFromUser true none, .run true, .run true, .run true, .run true,
    .read false 2 false, .lock false, .run false, .copyToUser false false, .run false,
    .read false 2 false, .lock false, .run false, .copyToUser false true, .run false, .run false,
    .read true 2 true, .lock true, .run true, .copyToUser true true, .run true, .run true]

theorem payload_once_two_readers :
    ∃ s, (device smallDevice Bool fun _ => 0).run (device smallDevice Bool fun _ => 0).init twoReaderOps = some s ∧
      s.log = [.wrote [1, 2, 3], .got [1, 2], .got [3]] ∧
        [Event.got [1, 2], Event.got [3]].flatMap Event.bytes <+: [1, 2, 3] :=
  ⟨_, rfl, by decide, (payload_once smallDevice (fun _ => 0) twoReaderOps _ (by decide) rfl).2.1 [] [1, 2, 3]
    [.got [1, 2], .got [3]] [] (by decide) (by simp)⟩

end Hodgepodge.Reverse
