/-
A write that fails, in kernel_module/hello.c. `reverse_write` copies the payload straight to the start of the buffer,
where the unread bytes stand after a write, and moves the pointers afterwards. A copy_from_user that faults leaves its
bytes there, and zeroes behind them; the call returns -EFAULT, and the pointers still delimit what was unread.

Model: one call that fails, from any reachable state, whatever the other processes are in the middle of; after it they
go on in any way. The device with the failed call and the device without it are compared operation by operation.

Results:
- `Sim`, `step_sim`: two states that differ in no byte that can still be read.
- `differs_read`: a byte that differs can be read.
- `failed_write_harmless_iff`: the failing calls that leave the readable data untouched.
- `failed_write_garbles`: one that does not.
-/
import Hodgepodge.Kernel.Reverse

namespace Hodgepodge.Reverse

open Function Hodgepodge.Core

variable {P : Type*} [DecidableEq P] {D : Device} {s t s' t' : St P} {p q : P} {a b : Pc}

/-! ## States that cannot be told apart -/

/-- the same place, whatever the last call has returned -/
def Alike (a b : Pc) : Prop := b = a ∨ (∃ r, a = .user r) ∧ ∃ r, b = .user r

/-- the payload that a writer has copied and not yet published -/
def Pc.stored : Pc → Option (List UInt8)
  | .writeEnd w | .writePtr w => some w
  | _ => none

/-- no byte that differs can still be read: not an unread one, and not one of a payload that is being published -/
structure Sim (D : Device) (s t : St P) : Prop where
  owner : t.owner = s.owner
  readPtr : t.readPtr = s.readPtr
  endPtr : t.endPtr = s.endPtr
  log : t.log = s.log
  fault : t.fault = s.fault
  pc : ∀ q, Alike (s.pc q) (t.pc q)
  unread : (∀ q, (s.pc q).torn = false) → ∀ x, s.readPtr ≤ x → x < s.endPtr → t.mem x = s.mem x
  written : ∀ q w, (s.pc q).stored = some w → ∀ x, D.data ≤ x → x < D.data + w.length → t.mem x = s.mem x

theorem Alike.refl (a : Pc) : Alike a a := Or.inl rfl

theorem Alike.user (r r' : Option Result) : Alike (.user r) (.user r') := Or.inr ⟨⟨r, rfl⟩, r', rfl⟩

theorem Alike.eq (h : Alike a b) (ha : ∀ r, a ≠ .user r) : b = a :=
  h.resolve_right fun ⟨⟨r, hr⟩, _⟩ => ha r hr

theorem Alike.of_user {r : Option Result} (h : Alike (.user r) b) : ∃ r', b = .user r' := by
  rcases h with rfl | ⟨-, h⟩
  · exact ⟨r, rfl⟩
  · exact h

theorem Alike.woken (h : Alike a b) : Alike a.woken b.woken := by
  rcases h with rfl | ⟨⟨r, rfl⟩, r', rfl⟩
  · exact .refl _
  · exact .user r r'

@[simp] theorem woken_stored (pc : Pc) : pc.woken.stored = pc.stored := by cases pc <;> rfl

theorem alike_update {pc pc' : P → Pc} (h : ∀ q, Alike (pc q) (pc' q)) (hab : Alike a b) (q : P) :
    Alike (update pc p a q) (update pc' p b q) := by
  by_cases hq : q = p
  · subst hq; simpa using hab
  · simpa [hq] using h q

/-- both processes move -/
theorem Sim.goto (h : Sim D s t) (hab : Alike a b) (hold : (s.pc p).torn = false)
    (hnew : ∀ w, a.stored = some w → ∀ x, D.data ≤ x → x < D.data + w.length → t.mem x = s.mem x) :
    Sim D (goto s p a) (goto t p b) where
  owner := h.owner
  readPtr := h.readPtr
  endPtr := h.endPtr
  log := h.log
  fault := h.fault
  pc := alike_update h.pc hab
  unread := fun hall => h.unread fun q => by
    by_cases hq : q = p
    · rw [hq]; exact hold
    · simpa [Reverse.goto, hq] using hall q
  written := by
    intro q w hw
    by_cases hq : q = p
    · subst hq
      exact hnew w (by simpa [Reverse.goto] using hw)
    · exact h.written q w (by simpa [Reverse.goto, hq] using hw)

/-- both processes move to a place where nothing is being published -/
theorem Sim.move (h : Sim D s t) (hab : Alike a b) (hold : (s.pc p).torn = false) (hnew : a.stored = none) :
    Sim D (Reverse.goto s p a) (Reverse.goto t p b) :=
  h.goto hab hold fun w hw => by rw [hnew] at hw; cases hw

theorem Sim.unlock (h : Sim D s t) (p : P) : Sim D (mutexUnlock s p) (mutexUnlock t p) := by
  unfold mutexUnlock
  rw [h.owner]
  split
  · exact { h with owner := rfl }
  · exact { h with owner := rfl, fault := rfl }

omit [DecidableEq P] in
theorem Sim.avail_eq (h : Sim D s t) : avail t = avail s := by
  unfold avail
  rw [h.readPtr, h.endPtr]

omit [DecidableEq P] in
/-- what a reader copies stands between the pointers -/
theorem Sim.window_eq (h : Sim D s t) (hin : Inside D s) (ht : ∀ q, (s.pc q).torn = false) (n : ℕ) :
    window t.mem s.readPtr (min n (avail s)) = window s.mem s.readPtr (min n (avail s)) := by
  have ha := Reverse.avail_eq hin
  unfold window
  refine List.map_congr_left ?_
  intro i hi
  have hlt := List.mem_range.1 hi
  exact h.unread ht _ (Nat.le_add_right _ _) (by omega)

theorem poke_inside (m m' : ℕ → UInt8) {n : ℕ} {bytes : List UInt8} {x : ℕ} (hx : n ≤ x) (hx' : x < n + bytes.length) :
    poke m' n bytes x = poke m n bytes x := by
  unfold poke
  rw [if_pos hx, if_pos hx, List.getElem?_eq_getElem (by omega)]
  rfl

/-- the same bytes stored in both memories make no difference -/
theorem poke_congr {m m' : ℕ → UInt8} {n x : ℕ} (bytes : List UInt8) (h : m' x = m x) :
    poke m' n bytes x = poke m n bytes x := by
  unfold poke
  rw [h]

omit [DecidableEq P] in
/-- a payload is copied into both memories -/
theorem Sim.poke (h : Sim D s t) (n : ℕ) (bytes : List UInt8) :
    Sim D { s with mem := Reverse.poke s.mem n bytes } { t with mem := Reverse.poke t.mem n bytes } :=
  { h with
    unread := fun hall x hr he => poke_congr bytes (h.unread hall x hr he)
    written := fun q w hw x hx hx' => poke_congr bytes (h.written q w hw x hx hx') }

omit [DecidableEq P] in
/-- everything that is queued is woken -/
theorem Sim.wakeUp (h : Sim D s t) :
    Sim D { s with pc := fun q => (s.pc q).woken } { t with pc := fun q => (t.pc q).woken } :=
  { h with
    pc := fun q => (h.pc q).woken
    unread := fun hall => h.unread fun q => by simpa using hall q
    written := fun q w hw => h.written q w (by simpa using hw) }

/-- a reader takes its bytes -/
theorem Sim.advance (h : Sim D s t) {bytes : List UInt8} (hp : s.pc p = .readAdvance bytes) :
    Sim D { Reverse.goto s p (.outUnlock (.size bytes.length)) with
        readPtr := s.readPtr + bytes.length, log := s.log ++ [.got bytes] }
      { Reverse.goto t p (.outUnlock (.size bytes.length)) with
        readPtr := t.readPtr + bytes.length, log := t.log ++ [.got bytes] } := by
  have hm := h.move (p := p) (.refl (.outUnlock (.size bytes.length))) (by rw [hp]; rfl) rfl
  exact { hm with
    readPtr := by rw [h.readPtr]
    log := by rw [h.log]
    unread := fun hall x hr he => hm.unread hall x (Nat.le_trans (Nat.le_add_right _ _) hr) he }

/-- a writer stores `end`: what it has copied is about to be published -/
theorem Sim.storeEnd (h : Sim D s t) {w : List UInt8} (hp : s.pc p = .writeEnd w) :
    Sim D { Reverse.goto s p (.writePtr w) with endPtr := D.data + w.length }
      { Reverse.goto t p (.writePtr w) with endPtr := D.data + w.length } := by
  have hm := h.goto (p := p) (.refl (.writePtr w)) (by rw [hp]; rfl) fun w' hw' => by
    cases hw'
    exact h.written p w (by rw [hp]; rfl)
  exact { hm with
    endPtr := rfl
    unread := fun hall => absurd (hall p) (by simp [Reverse.goto, Pc.torn]) }

/-- a writer stores `read_ptr`: what it has copied is unread now -/
theorem Sim.storeReadPtr (h : Sim D s t) (hw : Window D s) {w : List UInt8} (hp : s.pc p = .writePtr w) :
    Sim D { Reverse.goto s p (.writeWake w) with readPtr := D.data, log := s.log ++ [.wrote w] }
      { Reverse.goto t p (.writeWake w) with readPtr := D.data, log := t.log ++ [.wrote w] } where
  owner := h.owner
  readPtr := rfl
  endPtr := h.endPtr
  log := by rw [h.log]
  fault := h.fault
  pc := alike_update h.pc (.refl _)
  unread := by
    intro _ x hr he
    have hend : s.endPtr = D.data + w.length := by
      have hf := hw.fits p
      rw [hp] at hf
      exact hf.2
    exact h.written p w (by rw [hp]; rfl) x hr (hend ▸ he)
  written := by
    intro q w' hw'
    by_cases hq : q = p
    · subst hq
      simp [Reverse.goto, Pc.stored] at hw'
    · exact h.written q w' (by simpa [Reverse.goto, hq] using hw')

theorem next_sim (h : Sim D s t) (hw : Window D s) (p : P) : Option.Rel (Sim D) (next D s p) (next D t p) := by
  unfold next
  by_cases hu : ∃ r, s.pc p = .user r
  · obtain ⟨r, hr⟩ := hu
    obtain ⟨r', hr'⟩ := (hr ▸ h.pc p).of_user
    rw [hr, hr']
    exact .none
  rw [(h.pc p).eq fun r hr => hu ⟨r, hr⟩]
  cases hpc : s.pc p with
  | readTest c =>
    rw [h.readPtr, h.endPtr]
    exact .some (h.move (.refl _) (by rw [hpc]; rfl) (by split <;> rfl))
  | readEmpty c =>
    refine .some ((h.unlock p).move (.refl _) (by rw [mutexUnlock_pc, hpc]; rfl) ?_)
    split <;> rfl
  | prepare c => exact .some (h.move (.refl _) (by rw [hpc]; rfl) rfl)
  | queued c w seen =>
    cases seen with
    | nothing => exact .none
    | readPtr r =>
      rw [h.endPtr]
      exact .some (h.move (.refl _) (by rw [hpc]; rfl) (by split <;> rfl))
    | endPtr e =>
      rw [h.readPtr]
      exact .some (h.move (.refl _) (by rw [hpc]; rfl) (by split <;> rfl))
    | empty => exact .some (h.move (.refl _) (by rw [hpc]; rfl) (by split <;> rfl))
  | readAdvance bytes => exact .some (h.advance hpc)
  | writeEnd w => exact .some (h.storeEnd hpc)
  | writePtr w => exact .some (h.storeReadPtr hw hpc)
  | writeWake w => exact .some (h.wakeUp.move (.refl _) (by rw [woken_torn, hpc]; rfl) rfl)
  | outUnlock r => exact .some ((h.unlock p).move (.refl _) (by rw [mutexUnlock_pc, hpc]; rfl) rfl)
  | user r => exact absurd ⟨r, hpc⟩ hu
  | _ => exact .none

/-- the process that an operation is about -/
def Op.who : Op P → P
  | .read p _ _ | .write p _ | .lock p | .signal p | .load p _ | .spurious p | .copyToUser p _ | .copyFromUser p _
  | .run p => p

/-- a process outside can call the device on both sides, and nothing else -/
theorem user_sim (h : Sim D s t) {o : Op P} {r : Option Result} (hr : s.pc o.who = .user r) :
    Option.Rel (Sim D) (step D s o) (step D t o) := by
  obtain ⟨r', hr'⟩ := (hr ▸ h.pc o.who).of_user
  cases o with
  | read p size nonblock =>
    simp only [Op.who] at hr hr'
    simp only [step, hr, hr']
    exact .some (h.move (.refl _) (by rw [hr]; rfl) rfl)
  | write p payload =>
    simp only [Op.who] at hr hr'
    simp only [step, hr, hr']
    exact .some (h.move (.refl _) (by rw [hr]; rfl) (by split <;> rfl))
  | run p =>
    simp only [Op.who] at hr hr'
    simp only [step, next, hr, hr']
    exact .none
  | _ =>
    simp only [Op.who] at hr hr'
    simp only [step, hr, hr', ite_self, Pc.interruptible, Bool.false_eq_true, if_false]
    exact .none

/-- the two devices can do the same next, and cannot be told apart afterwards -/
theorem step_sim (h : Sim D s t) (hi : Inv D s) (o : Op P) : Option.Rel (Sim D) (step D s o) (step D t o) := by
  by_cases hu : ∃ r, s.pc o.who = .user r
  · obtain ⟨r, hr⟩ := hu
    exact user_sim h hr
  have hp : t.pc o.who = s.pc o.who := (h.pc o.who).eq fun r hr => hu ⟨r, hr⟩
  cases o with
  | read p size nonblock =>
    simp only [Op.who] at hp hu
    simp only [step, hp]
    split
    · rename_i r hpc; exact absurd ⟨r, hpc⟩ hu
    · exact .none
  | write p payload =>
    simp only [Op.who] at hp hu
    simp only [step, hp]
    split
    · rename_i r hpc; exact absurd ⟨r, hpc⟩ hu
    · exact .none
  | lock p =>
    simp only [Op.who] at hp
    simp only [step, hp, h.owner]
    split_ifs
    · cases hpc : s.pc p with
      | readLock c => exact .some { h.move (p := p) (.refl (.readTest c)) (by rw [hpc]; rfl) rfl with owner := rfl }
      | writeLock w => exact .some { h.move (p := p) (.refl (.writeCopy w)) (by rw [hpc]; rfl) rfl with owner := rfl }
      | _ => exact .none
    · exact .none
  | signal p =>
    simp only [Op.who] at hp
    simp only [step, hp]
    split_ifs with hint
    · refine .some (h.move (.refl _) ?_ rfl)
      cases hpc : s.pc p <;> rw [hpc] at hint <;> first | rfl | cases hint
    · exact .none
  | load p readFirst =>
    simp only [Op.who] at hp
    simp only [step, hp, h.readPtr, h.endPtr]
    cases hpc : s.pc p with
    | queued c w seen =>
      cases seen with
      | nothing => exact .some (h.move (.refl _) (by rw [hpc]; rfl) rfl)
      | _ => exact .none
    | _ => exact .none
  | spurious p =>
    simp only [Op.who] at hp
    simp only [step, hp]
    cases hpc : s.pc p with
    | asleep c => exact .some (h.move (.refl _) (by rw [hpc]; rfl) rfl)
    | _ => exact .none
  | copyToUser p ok =>
    simp only [Op.who] at hp
    simp only [step, hp, h.readPtr, h.avail_eq]
    cases hpc : s.pc p with
    | readCopy c =>
      -- the reader holds the mutex, so no writer is between its stores
      have ht := hi.locked.not_torn (p := p) (by rw [hpc]; rfl) (by rw [hpc]; rfl)
      simp only [h.window_eq (hi.window.inside ht) ht]
      exact .some (h.move (.refl _) (by rw [hpc]; rfl) (by split <;> rfl))
    | _ => exact .none
  | copyFromUser p fault =>
    simp only [Op.who] at hp
    simp only [step, hp]
    cases hpc : s.pc p with
    | writeCopy w =>
      cases fault with
      | none =>
        refine .some ((h.poke D.data w).goto (p := p) (.refl (.writeEnd w)) (by rw [hpc]; rfl) fun w' hw' => ?_)
        cases hw'
        exact fun x hx hx' => poke_inside s.mem t.mem hx hx'
      | some k =>
        simp only
        split_ifs
        · exact .some ((h.poke D.data (faulted k w)).move (.refl _) (by rw [hpc]; rfl) rfl)
        · exact .none
    | _ => exact .none
  | run p => exact next_sim h hi.window p

/-! ## A call that fails -/

/-- how `reverse_write` fails -/
inductive Failure where
  | efbig
  | signal
  | fault (k : ℕ)
deriving DecidableEq

/-- the steps of the call -/
def failingWrite (p : P) (payload : List UInt8) : Failure → List (Op P)
  | .efbig => [.write p payload]
  | .signal => [.write p payload, .signal p]
  | .fault k => [.write p payload, .lock p, .copyFromUser p (some k), .run p]

/-- no unread byte is overwritten by another one -/
def Untouched (D : Device) (s : St P) (payload : List UInt8) : Failure → Prop
  | .efbig | .signal => True
  | .fault k => ∀ i b, (faulted k payload)[i]? = some b → s.readPtr ≤ D.data + i → D.data + i < s.endPtr →
      s.mem (D.data + i) = b

/-- what the call leaves in the memory -/
def Failure.memory (D : Device) (mem : ℕ → UInt8) (payload : List UInt8) : Failure → ℕ → UInt8
  | .efbig | .signal => mem
  | .fault k => poke mem D.data (faulted k payload)

/-- what a failing call changes: its result and the memory; one that faults had the mutex to itself -/
structure FailedWrite (D : Device) (s s' : St P) (p : P) (payload : List UInt8) (f : Failure) : Prop where
  called : ∃ r, s.pc p = .user r
  owner : s'.owner = s.owner
  readPtr : s'.readPtr = s.readPtr
  endPtr : s'.endPtr = s.endPtr
  log : s'.log = s.log
  fault : s'.fault = s.fault
  pc : ∃ e, s'.pc = update s.pc p (.user (some e))
  mem : s'.mem = f.memory D s.mem payload
  free : ∀ k, f = .fault k → s.owner = none

variable {mem : ℕ → UInt8} {payload : List UInt8} {f : Failure}

theorem write_eq (h : step D s (.write p payload) = some s') :
    (∃ r, s.pc p = .user r) ∧
      s' = goto s p (if D.bufferSize < payload.length then .user (some .efbig) else .writeLock payload) := by
  simp only [step] at h
  split at h
  · rename_i r hr; cases h; exact ⟨⟨r, hr⟩, rfl⟩
  · cases h

theorem failedWrite {e : Result} (hf : (device D P mem).run s (failingWrite p payload f) = some s')
    (he : s'.pc p = .user (some e)) : FailedWrite D s s' p payload f := by
  cases f with
  | efbig =>
    simp only [failingWrite, Lts.run_cons, Lts.run_nil, device, Option.some.injEq, exists_eq_right] at hf
    obtain ⟨hr, rfl⟩ := write_eq hf
    simp only [goto, update_self] at he
    exact ⟨hr, rfl, rfl, rfl, rfl, rfl, ⟨e, by simp only [goto, he]⟩, rfl, fun _ hk => Failure.noConfusion hk⟩
  | signal =>
    simp only [failingWrite, Lts.run_cons, Lts.run_nil, device, Option.some.injEq, exists_eq_right] at hf
    obtain ⟨s₁, h₁, h₂⟩ := hf
    obtain ⟨hr, rfl⟩ := write_eq h₁
    simp only [step, Option.ite_none_right_eq_some, Option.some.injEq] at h₂
    obtain ⟨-, rfl⟩ := h₂
    exact ⟨hr, rfl, rfl, rfl, rfl, rfl, ⟨.erestartsys, by simp only [goto, update_idem]⟩, rfl,
      fun _ hk => Failure.noConfusion hk⟩
  | fault k =>
    simp only [failingWrite, Lts.run_cons, Lts.run_nil, device, Option.some.injEq, exists_eq_right] at hf
    obtain ⟨s₁, h₁, s₂, h₂, s₃, h₃, h₄⟩ := hf
    obtain ⟨hr, rfl⟩ := write_eq h₁
    by_cases hbig : D.bufferSize < payload.length
    · simp [step, goto, hbig] at h₂
    simp only [step, goto, if_neg hbig, update_self, update_idem, Option.ite_none_right_eq_some,
      Option.some.injEq] at h₂
    obtain ⟨ho, rfl⟩ := h₂
    simp only [step, goto, update_self, update_idem, Option.ite_none_right_eq_some, Option.some.injEq] at h₃
    obtain ⟨-, rfl⟩ := h₃
    simp only [step, next, goto, mutexUnlock, update_self, update_idem, if_true, Option.some.injEq] at h₄
    subst h₄
    exact ⟨hr, ho.symm, rfl, rfl, rfl, rfl, ⟨.efault, rfl⟩, rfl, fun _ _ => ho⟩

omit [DecidableEq P] in
/-- nobody is publishing a payload while the mutex is free -/
theorem Locked.none_stored (h : Locked s) (ho : s.owner = none) (q : P) :
    (s.pc q).stored = none ∧ (s.pc q).torn = false := by
  have hc : (s.pc q).critical ≠ true := by
    intro hc
    have := (h.owner q).2 hc
    rw [ho] at this
    cases this
  cases hpc : s.pc q <;> rw [hpc] at hc <;> first | exact ⟨rfl, rfl⟩ | exact absurd rfl hc

/-- a failing call that leaves the unread bytes alone cannot be told from no call -/
theorem FailedWrite.sim (h : FailedWrite D s s' p payload f) (hi : Inv D s) (hu : Untouched D s payload f) :
    Sim D s s' where
  owner := h.owner
  readPtr := h.readPtr
  endPtr := h.endPtr
  log := h.log
  fault := h.fault
  pc := by
    obtain ⟨r, hr⟩ := h.called
    obtain ⟨e, he⟩ := h.pc
    rw [he]
    intro q
    by_cases hq : q = p
    · subst hq; rw [hr, update_self]; exact .user _ _
    · rw [update_of_ne hq]; exact .refl _
  unread := by
    intro _ x hr he
    rw [h.mem]
    cases f with
    | fault k =>
      simp only [Failure.memory, poke]
      split_ifs with hx
      · cases hb : (faulted k payload)[x - D.data]? with
        | none => rfl
        | some b =>
          have := hu (x - D.data) b hb
          rw [Nat.add_sub_cancel' hx] at this
          exact (this hr he).symm
      · rfl
    | _ => rfl
  written := by
    intro q w hw x _ _
    rw [h.mem]
    cases f with
    | fault k =>
      rw [(hi.locked.none_stored (h.free k rfl) q).1] at hw
      cases hw
    | _ => rfl

/-- a call of read that takes everything -/
def readAll (s : St P) (p : P) : List (Op P) :=
  [.read p (s.endPtr - s.readPtr) false, .lock p, .run p, .copyToUser p true, .run p]

theorem readAll_log (hin : Inside D s) (ho : s.owner = none) (hp : ∃ r, s.pc p = .user r) (hlt : s.readPtr < s.endPtr) :
    ((device D P mem).run s (readAll s p)).map (·.log) =
      some (s.log ++ [.got (window s.mem s.readPtr (s.endPtr - s.readPtr))]) := by
  obtain ⟨r, hr⟩ := hp
  have hne : ¬ s.readPtr = s.endPtr := Nat.ne_of_lt hlt
  have havail : ∀ u : St P, u.readPtr = s.readPtr → u.endPtr = s.endPtr → avail u = s.endPtr - s.readPtr := by
    intro u hr he
    rw [← (avail_eq hin).1, avail, avail, hr, he]
  simp [readAll, Lts.run, device, step, next, goto, hr, ho, hne, havail]

/-- if the logs of every continuation agree, the call has left every unread byte alone -/
theorem differs_read (hs : Inv D s) (hs' : Inv D s') (h : FailedWrite D s s' p payload f) (ho : s.owner = none)
    (hlogs : ∀ cont, ((device D P mem).run s cont).map (·.log) = ((device D P mem).run s' cont).map (·.log)) {x : ℕ}
    (hr : s.readPtr ≤ x) (he : x < s.endPtr) : s'.mem x = s.mem x := by
  have hin : Inside D s := hs.window.inside fun q => (hs.locked.none_stored ho q).2
  have ho' : s'.owner = none := h.owner.trans ho
  have hin' : Inside D s' := hs'.window.inside fun q => (hs'.locked.none_stored ho' q).2
  have hp' : ∃ r, s'.pc p = .user r := by
    obtain ⟨e, he⟩ := h.pc
    exact ⟨some e, by rw [he, update_self]⟩
  have hall := hlogs (readAll s p)
  have hsame : readAll s p = readAll s' p := by rw [readAll, readAll, h.readPtr, h.endPtr]
  rw [readAll_log hin ho h.called (by omega), hsame,
    readAll_log hin' ho' hp' (by rw [h.readPtr, h.endPtr]; omega), h.log, h.readPtr, h.endPtr] at hall
  simp only [Option.some.injEq, List.append_cancel_left_eq, List.cons.injEq, Event.got.injEq, and_true] at hall
  have hget := congrArg (fun l => l[x - s.readPtr]?) hall
  simp only [window, List.getElem?_map, List.getElem?_range (show x - s.readPtr < s.endPtr - s.readPtr by omega),
    Option.map_some, Option.some.injEq, Nat.add_sub_cancel' hr] at hget
  exact hget.symm

/-- **A failing write.** From every state that the device can reach, and for every payload and every way to fail: what
all processes read afterwards, in every continuation, is what they would have read without the call, exactly if the
call fails before the copy, or every unread byte among the first `size` of the buffer is the byte that the copy left
there. -/
theorem failed_write_harmless_iff (D : Device) (mem : ℕ → UInt8) (ops : List (Op P)) (s s' : St P) (p : P)
    (payload : List UInt8) (f : Failure) (e : Result)
    (hr : (device D P mem).run (device D P mem).init ops = some s)
    (hf : (device D P mem).run s (failingWrite p payload f) = some s') (he : s'.pc p = .user (some e)) :
    (∀ cont, ((device D P mem).run s cont).map (·.log) = ((device D P mem).run s' cont).map (·.log)) ↔
      Untouched D s payload f := by
  have hs := run_inv hr
  have hs' : Inv D s' := run_inv (((device D P mem).run_append).2 ⟨s, hr, hf⟩)
  have h := failedWrite hf he
  constructor
  · intro hlogs
    cases f with
    | fault k =>
      intro i b hb hri hie
      have hmem := differs_read hs hs' h (h.free k rfl) hlogs hri hie
      rw [← hmem, h.mem]
      simp [Failure.memory, poke, hb]
    | _ => trivial
  · intro hu cont
    have hrel := Lts.run_rel (L := device D P mem) (M := device D P mem) (I := Inv D) (R := Sim D)
      (fun _ _ _ hi hst => step_inv (step_eq hst) hi) (fun _ _ o hi hsim => step_sim hsim hi o) hs (h.sim hs hu) cont
    generalize (device D P mem).run s cont = u at hrel
    generalize (device D P mem).run s' cont = u' at hrel
    cases hrel with
    | none => rfl
    | some h => rw [Option.map_some, Option.map_some, h.log]

/-- process `true` writes three bytes, and process `false` takes them -/
def drainedOps : List (Op Bool) :=
  [.write true [1, 2, 3], .lock true, .copyFromUser true none, .run true, .run true, .run true, .run true,
    .read false 8 false, .lock false, .run false, .copyToUser false true, .run false, .run false]

/-- nothing is unread, and a fault does no harm -/
theorem drained_write_harmless :
    ∃ s s' : St Bool,
      (device smallDevice Bool fun _ => 0).run (device smallDevice Bool fun _ => 0).init drainedOps = some s ∧
      (device smallDevice Bool fun _ => 0).run s (failingWrite true [9, 9] (.fault 1)) = some s' ∧
      ∀ cont, ((device smallDevice Bool fun _ => 0).run s cont).map (·.log) =
        ((device smallDevice Bool fun _ => 0).run s' cont).map (·.log) := by
  refine ⟨_, _, rfl, rfl, ?_⟩
  refine (failed_write_harmless_iff smallDevice (fun _ => 0) drainedOps _ _ true [9, 9] (.fault 1) .efault rfl rfl
    rfl).2 ?_
  intro i b _ hr he
  exact absurd (Nat.lt_of_le_of_lt hr he) (by decide)

/-- **A failed write garbles the unread bytes.** Three bytes are unread; a write of two faults after one. -/
theorem failed_write_garbles :
    ¬ ∀ (D : Device) (mem : ℕ → UInt8) (ops : List (Op Bool)) (s s' : St Bool) (p : Bool) (payload : List UInt8)
        (f : Failure) (e : Result), (device D Bool mem).run (device D Bool mem).init ops = some s →
        (device D Bool mem).run s (failingWrite p payload f) = some s' → s'.pc p = .user (some e) →
        ∀ cont, ((device D Bool mem).run s cont).map (·.log) = ((device D Bool mem).run s' cont).map (·.log) := by
  intro h
  have := h smallDevice (fun _ => 0) (drainedOps.take 7) _ _ true [9, 9] (.fault 1) .efault rfl rfl rfl
    [.read false 8 false, .lock false, .run false, .copyToUser false true, .run false]
  revert this
  decide

end Hodgepodge.Reverse
