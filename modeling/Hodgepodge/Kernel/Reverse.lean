/-
The character device of kernel_module/hello.c. A writer copies its payload to the start of the buffer and sets `end` and
`read_ptr`, one after the other, under the mutex; then it wakes the read queue. A reader that finds `read_ptr == end`
under the mutex releases it and waits in `wait_event_interruptible`, which looks at the two pointers without the mutex,
and takes the mutex again. Every lock and every wait can end by a signal, with nothing held.

Model: any number of processes, each with a program counter; every access to the mutex, the two pointers, the buffer and
the queue is a step of its own. `wait_event_interruptible` queues the task before it loads the pointers, in either order;
`wake_up_interruptible` wakes everything that is queued, and a task that is woken before it sleeps does not sleep. A
sleeper may also be woken for no reason. `kzalloc` has returned a buffer at `data`, and both pointers are NULL at first.

Results:
- `Step`, `step_eq`: the inversion of every operation.
- `Locked`, `step_locked`: the owner of the mutex is the process in a critical section, and no other unlocks it.
- `Window`, `step_window`: the pointers delimit a part of the buffer, but between the two stores of a writer.
- `Attentive`, `step_attentive`: a queued task that has missed a write has been woken or is going to be.
- `blocking_sound`: the three together, for every run.
-/
import Mathlib.Algebra.Group.Int.Defs
import Mathlib.Algebra.Group.Nat.Defs
import Mathlib.Logic.Function.Basic
import Hodgepodge.Core.Lts

namespace Hodgepodge.Reverse

open Function Hodgepodge.Core

/-! ## The device -/

/-- the buffer that `buffer_alloc` returned -/
structure Device where
  data : ℕ
  bufferSize : ℕ
  data_pos : 0 < data
  fits : data + bufferSize < 2 ^ 64

inductive Result where
  | eagain
  | erestartsys
  | efault
  | efbig
  | size (n : ℕ)
deriving DecidableEq

/-- the arguments of reverse_read; `nonblock`: O_NONBLOCK -/
structure ReadCall where
  size : ℕ
  nonblock : Bool
deriving DecidableEq

/-- what the condition of wait_event_interruptible has loaded -/
inductive Seen where
  | nothing
  | readPtr (r : ℕ)
  | endPtr (e : ℕ)
  /-- both, and they were equal -/
  | empty
deriving DecidableEq

/-- where a process stands -/
inductive Pc where
  /-- outside, with the result of its last call -/
  | user (r : Option Result)
  /-- at mutex_lock_interruptible, at the start or after a wait -/
  | readLock (c : ReadCall)
  /-- at the condition of the while loop -/
  | readTest (c : ReadCall)
  /-- at the mutex_unlock in the loop -/
  | readEmpty (c : ReadCall)
  /-- before it is queued -/
  | prepare (c : ReadCall)
  | queued (c : ReadCall) (woken : Bool) (seen : Seen)
  | asleep (c : ReadCall)
  | readCopy (c : ReadCall)
  /-- at `read_ptr += size` -/
  | readAdvance (bytes : List UInt8)
  | writeLock (payload : List UInt8)
  | writeCopy (payload : List UInt8)
  /-- at the store to `end` -/
  | writeEnd (payload : List UInt8)
  /-- at the store to `read_ptr` -/
  | writePtr (payload : List UInt8)
  /-- at wake_up_interruptible -/
  | writeWake (payload : List UInt8)
  /-- at out_unlock -/
  | outUnlock (r : Result)
deriving DecidableEq

/-- the successful calls, in the order of their critical sections -/
inductive Event where
  | wrote (payload : List UInt8)
  | got (bytes : List UInt8)
deriving DecidableEq

structure St (P : Type*) where
  owner : Option P
  readPtr : ℕ
  endPtr : ℕ
  mem : ℕ → UInt8
  pc : P → Pc
  log : List Event
  /-- mutex_unlock was called without the mutex -/
  fault : Bool

inductive Op (P : Type*) where
  | read (p : P) (size : ℕ) (nonblock : Bool)
  | write (p : P) (payload : List UInt8)
  | lock (p : P)
  | signal (p : P)
  /-- the condition of the wait loads its first pointer -/
  | load (p : P) (readFirst : Bool)
  | spurious (p : P)
  | copyToUser (p : P) (ok : Bool)
  /-- `fault`: the number of bytes that were copied before a fault, fewer than there are -/
  | copyFromUser (p : P) (fault : Option ℕ)
  | run (p : P)
deriving DecidableEq

variable {P : Type*}

/-- the `n` bytes from address `a` on -/
def window (mem : ℕ → UInt8) (a n : ℕ) : List UInt8 := (List.range n).map fun i => mem (a + i)

/-- the memory with `bytes` from address `a` on -/
def poke (mem : ℕ → UInt8) (a : ℕ) (bytes : List UInt8) (x : ℕ) : UInt8 :=
  if a ≤ x then (bytes[x - a]?).getD (mem x) else mem x

/-- `(size_t) (buf->end - buf->read_ptr)` -/
def avail (s : St P) : ℕ := (((s.endPtr : ℤ) - s.readPtr) % 2 ^ 64).toNat

/-- what a copy_from_user that faults after `k` bytes stores: it fills up with zeroes -/
def faulted (k : ℕ) (payload : List UInt8) : List UInt8 := payload.take k ++ List.replicate (payload.length - k) 0

/-- the places where a signal ends the call -/
def Pc.interruptible : Pc → Bool
  | .readLock _ | .prepare _ | .queued .. | .asleep _ | .writeLock _ => true
  | _ => false

/-- wake_up_interruptible, for one process -/
def Pc.woken : Pc → Pc
  | .queued c _ seen => .queued c true seen
  | .asleep c => .prepare c
  | pc => pc

variable [DecidableEq P]

def goto (s : St P) (p : P) (pc : Pc) : St P := { s with pc := update s.pc p pc }

def mutexUnlock (s : St P) (p : P) : St P :=
  if s.owner = some p then { s with owner := none } else { s with fault := true }

/-- the step of a process that depends on nothing else -/
def next (D : Device) (s : St P) (p : P) : Option (St P) :=
  match s.pc p with
  | .readTest c => some (goto s p (if s.readPtr = s.endPtr then .readEmpty c else .readCopy c))
  | .readEmpty c => some (goto (mutexUnlock s p) p (if c.nonblock then .user (some .eagain) else .prepare c))
  | .prepare c => some (goto s p (.queued c false .nothing))
  | .queued c w (.readPtr r) => some (goto s p (if r = s.endPtr then .queued c w .empty else .readLock c))
  | .queued c w (.endPtr e) => some (goto s p (if s.readPtr = e then .queued c w .empty else .readLock c))
  -- schedule() returns at once in a task that was woken
  | .queued c w .empty => some (goto s p (if w then .prepare c else .asleep c))
  | .readAdvance bytes =>
    some { goto s p (.outUnlock (.size bytes.length)) with
      readPtr := s.readPtr + bytes.length, log := s.log ++ [.got bytes] }
  | .writeEnd w => some { goto s p (.writePtr w) with endPtr := D.data + w.length }
  | .writePtr w => some { goto s p (.writeWake w) with readPtr := D.data, log := s.log ++ [.wrote w] }
  | .writeWake w => some (goto { s with pc := fun q => (s.pc q).woken } p (.outUnlock (.size w.length)))
  | .outUnlock r => some (goto (mutexUnlock s p) p (.user (some r)))
  | _ => none

def step (D : Device) (s : St P) : Op P → Option (St P)
  | .read p size nonblock =>
    match s.pc p with
    | .user _ => some (goto s p (.readLock ⟨size, nonblock⟩))
    | _ => none
  | .write p payload =>
    match s.pc p with
    | .user _ => some (goto s p (if D.bufferSize < payload.length then .user (some .efbig) else .writeLock payload))
    | _ => none
  | .lock p =>
    if s.owner = none then
      match s.pc p with
      | .readLock c => some { goto s p (.readTest c) with owner := some p }
      | .writeLock w => some { goto s p (.writeCopy w) with owner := some p }
      | _ => none
    else none
  | .signal p => if (s.pc p).interruptible then some (goto s p (.user (some .erestartsys))) else none
  | .load p readFirst =>
    match s.pc p with
    | .queued c w .nothing => some (goto s p (.queued c w (if readFirst then .readPtr s.readPtr else .endPtr s.endPtr)))
    | _ => none
  | .spurious p =>
    match s.pc p with
    | .asleep c => some (goto s p (.prepare c))
    | _ => none
  | .copyToUser p ok =>
    match s.pc p with
    | .readCopy c =>
      some (goto s p (if ok then .readAdvance (window s.mem s.readPtr (min c.size (avail s))) else .outUnlock .efault))
    | _ => none
  | .copyFromUser p fault =>
    match s.pc p with
    | .writeCopy w =>
      match fault with
      | none => some { goto s p (.writeEnd w) with mem := poke s.mem D.data w }
      | some k =>
        if k < w.length then some { goto s p (.outUnlock .efault) with mem := poke s.mem D.data (faulted k w) }
        else none
    | _ => none
  | .run p => next D s p

/-- no call has been made, the memory is whatever kzalloc left -/
def device (D : Device) (P : Type*) [DecidableEq P] (mem : ℕ → UInt8) : Lts (St P) (Op P) :=
  ⟨⟨none, 0, 0, mem, fun _ => .user none, [], false⟩, step D⟩

/-! ## Inversion -/

/-- the steps of process `p` that change nothing but its place -/
inductive Moves (D : Device) (s : St P) : Pc → Pc → Prop
  | read {r c} : Moves D s (.user r) (.readLock c)
  | tooBig {r} : Moves D s (.user r) (.user (some .efbig))
  | write {r w} (hw : w.length ≤ D.bufferSize) : Moves D s (.user r) (.writeLock w)
  | signal {pc} (h : pc.interruptible = true) : Moves D s pc (.user (some .erestartsys))
  | testEmpty {c} (h : s.readPtr = s.endPtr) : Moves D s (.readTest c) (.readEmpty c)
  | testData {c} (h : s.readPtr ≠ s.endPtr) : Moves D s (.readTest c) (.readCopy c)
  | prepare {c} : Moves D s (.prepare c) (.queued c false .nothing)
  | loadReadPtr {c w} : Moves D s (.queued c w .nothing) (.queued c w (.readPtr s.readPtr))
  | loadEndPtr {c w} : Moves D s (.queued c w .nothing) (.queued c w (.endPtr s.endPtr))
  | emptyReadFirst {c w r} (h : r = s.endPtr) : Moves D s (.queued c w (.readPtr r)) (.queued c w .empty)
  | dataReadFirst {c w r} : Moves D s (.queued c w (.readPtr r)) (.readLock c)
  | emptyEndFirst {c w e} (h : s.readPtr = e) : Moves D s (.queued c w (.endPtr e)) (.queued c w .empty)
  | dataEndFirst {c w e} : Moves D s (.queued c w (.endPtr e)) (.readLock c)
  | stayAwake {c} : Moves D s (.queued c true .empty) (.prepare c)
  | sleep {c} : Moves D s (.queued c false .empty) (.asleep c)
  | spurious {c} : Moves D s (.asleep c) (.prepare c)
  | copyToUser {c} : Moves D s (.readCopy c) (.readAdvance (window s.mem s.readPtr (min c.size (avail s))))
  | fault {c} : Moves D s (.readCopy c) (.outUnlock .efault)

/-- what one operation does -/
inductive Step (D : Device) (s : St P) : Op P → St P → Prop
  | move {o p pc} (h : Moves D s (s.pc p) pc) : Step D s o (goto s p pc)
  | lockRead {p c} (ho : s.owner = none) (hp : s.pc p = .readLock c) :
      Step D s (.lock p) { goto s p (.readTest c) with owner := some p }
  | lockWrite {p w} (ho : s.owner = none) (hp : s.pc p = .writeLock w) :
      Step D s (.lock p) { goto s p (.writeCopy w) with owner := some p }
  | empty {p c pc} (hp : s.pc p = .readEmpty c) (hpc : pc = .user (some .eagain) ∨ pc = .prepare c) :
      Step D s (.run p) (goto (mutexUnlock s p) p pc)
  | outUnlock {p r} (hp : s.pc p = .outUnlock r) :
      Step D s (.run p) (goto (mutexUnlock s p) p (.user (some r)))
  | advance {p bytes} (hp : s.pc p = .readAdvance bytes) :
      Step D s (.run p) { goto s p (.outUnlock (.size bytes.length)) with
        readPtr := s.readPtr + bytes.length, log := s.log ++ [.got bytes] }
  | copyFromUser {p w} (hp : s.pc p = .writeCopy w) :
      Step D s (.copyFromUser p none) { goto s p (.writeEnd w) with mem := poke s.mem D.data w }
  | fault {p w k} (hp : s.pc p = .writeCopy w) :
      Step D s (.copyFromUser p (some k)) { goto s p (.outUnlock .efault) with mem := poke s.mem D.data (faulted k w) }
  | storeEnd {p w} (hp : s.pc p = .writeEnd w) :
      Step D s (.run p) { goto s p (.writePtr w) with endPtr := D.data + w.length }
  | storeReadPtr {p w} (hp : s.pc p = .writePtr w) :
      Step D s (.run p) { goto s p (.writeWake w) with readPtr := D.data, log := s.log ++ [.wrote w] }
  | wakeUp {p w} (hp : s.pc p = .writeWake w) :
      Step D s (.run p) (goto { s with pc := fun q => (s.pc q).woken } p (.outUnlock (.size w.length)))

variable {D : Device} {s s' : St P} {o : Op P} {p q : P} {pc : Pc}

theorem next_eq (h : next D s p = some s') : Step D s (.run p) s' := by
  have move : ∀ {a b}, s.pc p = a → Moves D s a b → Step D s (.run p) (goto s p b) := fun hp hm => .move (hp ▸ hm)
  unfold next at h
  split at h <;> cases h
  · rename_i c hp
    split_ifs with he
    · exact move hp (.testEmpty he)
    · exact move hp (.testData he)
  · rename_i c hp
    exact .empty hp (by split_ifs <;> simp)
  · rename_i c hp
    exact move hp .prepare
  · rename_i c w r hp
    split_ifs with he
    · exact move hp (.emptyReadFirst he)
    · exact move hp .dataReadFirst
  · rename_i c w e hp
    split_ifs with he
    · exact move hp (.emptyEndFirst he)
    · exact move hp .dataEndFirst
  · rename_i c w hp
    cases w with
    | true => exact move hp .stayAwake
    | false => exact move hp .sleep
  · rename_i bytes hp; exact .advance hp
  · rename_i w hp; exact .storeEnd hp
  · rename_i w hp; exact .storeReadPtr hp
  · rename_i w hp; exact .wakeUp hp
  · rename_i r hp; exact .outUnlock hp

theorem step_eq (h : step D s o = some s') : Step D s o s' := by
  have move : ∀ {o p a b}, s.pc p = a → Moves D s a b → Step D s o (goto s p b) := fun hp hm => .move (hp ▸ hm)
  cases o with
  | read p size nonblock =>
    simp only [step] at h
    split at h <;> cases h
    rename_i hp
    exact move hp .read
  | write p payload =>
    simp only [step] at h
    split at h <;> cases h
    rename_i hp
    split_ifs with hw
    · exact move hp .tooBig
    · exact move hp (.write (Nat.not_lt.1 hw))
  | lock p =>
    simp only [step] at h
    split_ifs at h with ho
    split at h <;> cases h
    · rename_i hp; exact .lockRead ho hp
    · rename_i hp; exact .lockWrite ho hp
  | signal p =>
    simp only [step] at h
    split_ifs at h with hi
    cases h
    exact .move (.signal hi)
  | load p readFirst =>
    simp only [step] at h
    split at h <;> cases h
    rename_i hp
    cases readFirst with
    | true => exact move hp .loadReadPtr
    | false => exact move hp .loadEndPtr
  | spurious p =>
    simp only [step] at h
    split at h <;> cases h
    rename_i hp
    exact move hp .spurious
  | copyToUser p ok =>
    simp only [step] at h
    split at h <;> cases h
    rename_i hp
    cases ok with
    | true => exact move hp .copyToUser
    | false => exact move hp .fault
  | copyFromUser p fault =>
    simp only [step] at h
    split at h
    · rename_i hp
      cases fault with
      | none => cases h; exact .copyFromUser hp
      | some k =>
        simp only at h
        split_ifs at h
        cases h
        exact .fault hp
    · cases h
  | run p => exact next_eq h

/-! ## The mutex -/

/-- the process is between a lock and an unlock -/
def Pc.critical : Pc → Bool
  | .readTest _ | .readEmpty _ | .readCopy _ | .readAdvance _ | .writeCopy _ | .writeEnd _ | .writePtr _ | .writeWake _
  | .outUnlock _ => true
  | _ => false

/-- the owner is in a critical section, and who is in one is the owner -/
structure Locked (s : St P) : Prop where
  owner : ∀ p, s.owner = some p ↔ (s.pc p).critical = true
  fault : s.fault = false

omit [DecidableEq P] in
theorem Moves.critical {a b : Pc} (h : Moves D s a b) : b.critical = a.critical := by
  cases h with
  | signal hi => cases a <;> first | rfl | cases hi
  | _ => rfl

@[simp] theorem woken_critical (pc : Pc) : pc.woken.critical = pc.critical := by cases pc <;> rfl

theorem Locked.move (h : Locked s) (hc : pc.critical = (s.pc p).critical) (hpc : s'.pc = update s.pc p pc)
    (ho : s'.owner = s.owner) (hf : s'.fault = s.fault) : Locked s' := by
  refine ⟨fun q => ?_, by rw [hf]; exact h.fault⟩
  rw [ho, hpc, h.owner q]
  by_cases hq : q = p
  · subst hq; simp [hc]
  · simp [hq]

theorem Locked.acquire (h : Locked s) (ho : s.owner = none) (hc : pc.critical = true)
    (hpc : s'.pc = update s.pc p pc) (ho' : s'.owner = some p) (hf : s'.fault = s.fault) : Locked s' := by
  refine ⟨fun q => ?_, by rw [hf]; exact h.fault⟩
  rw [ho', hpc]
  by_cases hq : q = p
  · subst hq; simp [hc]
  · have hout : (s.pc q).critical ≠ true := fun hcr => by
      rw [(h.owner q).2 hcr] at ho; cases ho
    simp [hq, hout, Ne.symm hq]

theorem Locked.release (h : Locked s) (hp : (s.pc p).critical = true) (hc : pc.critical = false) :
    Locked (goto (mutexUnlock s p) p pc) := by
  have ho := (h.owner p).2 hp
  rw [mutexUnlock, if_pos ho]
  refine ⟨fun q => ?_, h.fault⟩
  by_cases hq : q = p
  · subst hq; simp [goto, hc]
  · have hout : (s.pc q).critical ≠ true := fun hcr => by
      rw [(h.owner q).2 hcr] at ho
      exact hq (Option.some.inj ho)
    simp [goto, hq, hout]

theorem step_locked (hs : Step D s o s') (h : Locked s) : Locked s' := by
  cases hs with
  | move hm => exact h.move hm.critical rfl rfl rfl
  | lockRead ho hp => exact h.acquire ho rfl rfl rfl rfl
  | lockWrite ho hp => exact h.acquire ho rfl rfl rfl rfl
  | empty hp hpc => exact h.release (by rw [hp]; rfl) (by rcases hpc with rfl | rfl <;> rfl)
  | outUnlock hp => exact h.release (by rw [hp]; rfl) rfl
  | advance hp | copyFromUser hp | fault hp | storeEnd hp | storeReadPtr hp =>
    exact h.move (by rw [hp]; rfl) rfl rfl rfl
  | @wakeUp p w hp =>
    have hw : Locked { s with pc := fun q => (s.pc q).woken } :=
      ⟨fun q => by rw [woken_critical]; exact h.owner q, h.fault⟩
    exact hw.move (by rw [woken_critical, hp]; rfl) rfl rfl rfl

omit [DecidableEq P] in
/-- two processes are not in critical sections at the same time -/
theorem Locked.only (h : Locked s) (hp : (s.pc p).critical = true) (hq : (s.pc q).critical = true) : p = q :=
  Option.some.inj (((h.owner p).2 hp).symm.trans ((h.owner q).2 hq))

/-! ## The pointers -/

/-- the pointers are NULL, or delimit a part of the buffer -/
def Inside (D : Device) (s : St P) : Prop :=
  s.readPtr = 0 ∧ s.endPtr = 0 ∨
    D.data ≤ s.readPtr ∧ s.readPtr ≤ s.endPtr ∧ s.endPtr ≤ D.data + D.bufferSize

/-- a writer is between its two stores -/
def Pc.torn : Pc → Bool
  | .writePtr _ => true
  | _ => false

/-- what a process relies on -/
def Fits (D : Device) (s : St P) : Pc → Prop
  | .readAdvance bytes => s.readPtr + bytes.length ≤ s.endPtr
  | .writeLock w | .writeCopy w | .writeEnd w => w.length ≤ D.bufferSize
  | .writePtr w => w.length ≤ D.bufferSize ∧ s.endPtr = D.data + w.length
  | _ => True

structure Window (D : Device) (s : St P) : Prop where
  inside : (∀ p, (s.pc p).torn = false) → Inside D s
  fits : ∀ p, Fits D s (s.pc p)

@[simp] theorem mutexUnlock_readPtr : (mutexUnlock s p).readPtr = s.readPtr := by unfold mutexUnlock; split_ifs <;> rfl

@[simp] theorem mutexUnlock_endPtr : (mutexUnlock s p).endPtr = s.endPtr := by unfold mutexUnlock; split_ifs <;> rfl

@[simp] theorem mutexUnlock_mem : (mutexUnlock s p).mem = s.mem := by unfold mutexUnlock; split_ifs <;> rfl

@[simp] theorem mutexUnlock_log : (mutexUnlock s p).log = s.log := by unfold mutexUnlock; split_ifs <;> rfl

@[simp] theorem mutexUnlock_pc : (mutexUnlock s p).pc = s.pc := by unfold mutexUnlock; split_ifs <;> rfl

@[simp] theorem goto_mutexUnlock_pc : (goto (mutexUnlock s p) p pc).pc = update s.pc p pc := by simp [goto]

theorem forall_update {Q : Pc → Prop} (h : ∀ q, q ≠ p → Q (s.pc q)) (hp : Q pc) (q : P) : Q (update s.pc p pc q) := by
  by_cases hq : q = p
  · subst hq; rwa [update_self]
  · rw [update_of_ne hq]; exact h q hq

omit [DecidableEq P] in
theorem Moves.torn {a b : Pc} (h : Moves D s a b) : a.torn = false := by
  cases h with
  | signal hi =>
    cases a with
    | writePtr w => cases hi
    | _ => rfl
  | _ => rfl

@[simp] theorem woken_torn (pc : Pc) : pc.woken.torn = pc.torn := by cases pc <;> rfl

omit [DecidableEq P] in
theorem Fits.woken {pc : Pc} (h : Fits D s pc) : Fits D s pc.woken := by cases pc <;> exact h

omit [DecidableEq P] in
/-- outside the critical sections nobody relies on the pointers -/
theorem Fits.other {pc : Pc} (h : Fits D s pc) (hc : pc.critical = false) : Fits D s' pc := by
  cases pc with
  | readAdvance bytes => cases hc
  | writePtr w => cases hc
  | _ => exact h

omit [DecidableEq P] in
theorem Fits.same {pc : Pc} (h : Fits D s pc) (hr : s'.readPtr = s.readPtr) (he : s'.endPtr = s.endPtr) :
    Fits D s' pc := by
  cases pc <;> simp only [Fits, hr, he] at h ⊢ <;> exact h

omit [DecidableEq P] in
theorem avail_eq (h : Inside D s) : avail s = s.endPtr - s.readPtr ∧ s.readPtr ≤ s.endPtr := by
  have hfits := D.fits
  unfold avail
  rcases h with ⟨hr, he⟩ | ⟨hd, hle, hb⟩ <;> omega

@[simp] theorem window_length (mem : ℕ → UInt8) (a n : ℕ) : (window mem a n).length = n := by simp [window]

omit [DecidableEq P] in
theorem Moves.fits {a b : Pc} (h : Moves D s a b) (hin : a.critical = true → Inside D s) : Fits D s b := by
  cases h with
  | write hw => exact hw
  | copyToUser =>
    obtain ⟨ha, hle⟩ := avail_eq (hin rfl)
    simp only [Fits, window_length]
    omega
  | _ => trivial

omit [DecidableEq P] in
/-- in a critical section, the pointers are torn by its own process or not at all -/
theorem Locked.not_torn (h : Locked s) (hp : (s.pc p).critical = true) (ht : (s.pc p).torn = false) (q : P) :
    (s.pc q).torn = false := by
  cases hq : (s.pc q).torn with
  | false => rfl
  | true =>
    have hc : (s.pc q).critical = true := by
      cases hpc : s.pc q <;> rw [hpc] at hq <;> first | rfl | cases hq
    rw [h.only hp hc, hq] at ht; cases ht

/-- a process moves, and the pointers stay -/
theorem Window.move (h : Window D s) (hpc : s'.pc = update s.pc p pc) (hr : s'.readPtr = s.readPtr)
    (he : s'.endPtr = s.endPtr) (ht : (s.pc p).torn = false) (hf : Fits D s pc) : Window D s' := by
  refine ⟨fun hall => ?_, fun q => ?_⟩
  · unfold Inside
    rw [hr, he]
    refine h.inside fun q => ?_
    by_cases hq : q = p
    · subst hq; exact ht
    · simpa [hpc, hq] using hall q
  · rw [hpc]
    exact forall_update (fun q _ => (h.fits q).same hr he) (hf.same hr he) q

/-- a process moves in its critical section: nobody else relies on the pointers -/
theorem Window.store (h : Window D s) (hl : Locked s) (hp : (s.pc p).critical = true)
    (hpc : s'.pc = update s.pc p pc) (hf : Fits D s' pc) (hin : pc.torn = false → Inside D s') : Window D s' := by
  refine ⟨fun hall => hin ?_, fun q => ?_⟩
  · simpa [hpc] using hall p
  · rw [hpc]
    refine forall_update (fun q hq => (h.fits q).other ?_) hf q
    cases hc : (s.pc q).critical with
    | false => rfl
    | true => exact absurd (hl.only hc hp) hq

theorem step_window (hs : Step D s o s') (hl : Locked s) (h : Window D s) : Window D s' := by
  cases hs with
  | @move o p pc hm =>
    refine h.move rfl rfl rfl hm.torn (hm.fits fun hc => h.inside (hl.not_torn hc hm.torn))
  | lockRead ho hp => exact h.move rfl rfl rfl (by rw [hp]; rfl) trivial
  | @lockWrite p w ho hp =>
    have hf := h.fits p
    rw [hp] at hf
    exact h.move rfl rfl rfl (by rw [hp]; rfl) hf
  | empty hp hpc =>
    refine h.move goto_mutexUnlock_pc mutexUnlock_readPtr mutexUnlock_endPtr (by rw [hp]; rfl) ?_
    rcases hpc with rfl | rfl <;> trivial
  | outUnlock hp => exact h.move goto_mutexUnlock_pc mutexUnlock_readPtr mutexUnlock_endPtr (by rw [hp]; rfl) trivial
  | @advance p bytes hp =>
    have hf := h.fits p
    rw [hp] at hf
    have hc : (s.pc p).critical = true := by rw [hp]; rfl
    have ht : (s.pc p).torn = false := by rw [hp]; rfl
    refine h.store hl hc rfl trivial fun _ => ?_
    have hle : s.readPtr + bytes.length ≤ s.endPtr := hf
    unfold Inside
    dsimp only [goto]
    rcases h.inside (hl.not_torn hc ht) with ⟨hr, he⟩ | ⟨hd, -, hb⟩
    · exact Or.inl ⟨by omega, he⟩
    · exact Or.inr ⟨by omega, hle, hb⟩
  | @copyFromUser p w hp =>
    have hf := h.fits p
    rw [hp] at hf
    exact h.move rfl rfl rfl (by rw [hp]; rfl) hf
  | fault hp => exact h.move rfl rfl rfl (by rw [hp]; rfl) trivial
  | @storeEnd p w hp =>
    have hf := h.fits p
    rw [hp] at hf
    exact h.store hl (by rw [hp]; rfl) rfl ⟨hf, rfl⟩ fun ht => by cases ht
  | @storeReadPtr p w hp =>
    have hf := h.fits p
    rw [hp] at hf
    obtain ⟨hw, he⟩ := hf
    refine h.store hl (by rw [hp]; rfl) rfl trivial fun _ => Or.inr ⟨Nat.le_refl _, ?_, ?_⟩
    · dsimp only [goto]; omega
    · dsimp only [goto]; omega
  | @wakeUp p w hp =>
    have hw : Window D { s with pc := fun q => (s.pc q).woken } :=
      ⟨fun hall => h.inside fun q => by simpa using hall q, fun q => (h.fits q).woken⟩
    exact hw.move rfl rfl rfl (by rw [woken_torn, hp]; rfl) trivial

/-! ## The queue -/

/-- a writer has touched the pointers and has yet to wake the queue -/
def Pc.waking : Pc → Bool
  | .writePtr _ | .writeWake _ => true
  | _ => false

/-- what a task that has not been woken may have seen, when no writer is about to wake it -/
def Attentive (s : St P) : Pc → Prop
  | .queued _ false (.readPtr r) => r ≤ s.readPtr
  | .queued _ false (.endPtr e) => e = s.endPtr
  | .queued _ false .empty | .asleep _ => s.readPtr = s.endPtr
  | _ => True

/-- no queued task has missed a write without having been woken, or being about to be -/
def Wakeful (s : St P) : Prop := (∀ p, (s.pc p).waking = false) → ∀ p, Attentive s (s.pc p)

omit [DecidableEq P] in
theorem Moves.waking {a b : Pc} (h : Moves D s a b) : a.waking = false := by
  cases h with
  | signal hi => cases a <;> first | rfl | cases hi
  | _ => rfl

omit [DecidableEq P] in
theorem Attentive.same {pc : Pc} (h : Attentive s pc) (hr : s'.readPtr = s.readPtr) (he : s'.endPtr = s.endPtr) :
    Attentive s' pc := by
  unfold Attentive at h ⊢
  split at h <;> simp only [hr, he] <;> exact h

omit [DecidableEq P] in
/-- a reader that takes bytes leaves an empty buffer empty -/
theorem Attentive.advance {pc : Pc} {n : ℕ} (h : Attentive s pc) (hr : s'.readPtr = s.readPtr + n)
    (he : s'.endPtr = s.endPtr) (hle : s.readPtr + n ≤ s.endPtr) : Attentive s' pc := by
  unfold Attentive at h ⊢
  split at h <;> simp only [hr, he]
  · exact Nat.le_add_right_of_le h
  · exact h
  · omega
  · omega

omit [DecidableEq P] in
/-- the two loads: `read_ptr` only grows up to `end`, and `end` stays -/
theorem Moves.attentive {a b : Pc} (h : Moves D s a b) (hle : s.readPtr ≤ s.endPtr) (ha : Attentive s a) :
    Attentive s b := by
  cases h with
  | @loadReadPtr c w =>
    cases w with
    | true => trivial
    | false => exact Nat.le_refl _
  | @loadEndPtr c w =>
    cases w with
    | true => trivial
    | false => exact rfl
  | @emptyReadFirst c w r he =>
    cases w with
    | true => trivial
    | false =>
      have hr : r ≤ s.readPtr := ha
      exact Nat.le_antisymm hle (he ▸ hr)
  | @emptyEndFirst c w e he =>
    cases w with
    | true => trivial
    | false =>
      have hend : e = s.endPtr := ha
      exact he.trans hend
  | sleep => exact ha
  | _ => trivial

omit [DecidableEq P] in
theorem Window.le (h : Window D s) (hq : ∀ p, (s.pc p).waking = false) : s.readPtr ≤ s.endPtr := by
  have hin : Inside D s := h.inside fun p => by
    have := hq p
    cases hp : s.pc p <;> rw [hp] at this <;> first | rfl | cases this
  rcases hin with ⟨hr, he⟩ | ⟨-, hle, -⟩
  · omega
  · exact hle

/-- a process moves to a place that waits for nothing, and the pointers stay -/
theorem Wakeful.move (h : Wakeful s) (hpc : s'.pc = update s.pc p pc) (hr : s'.readPtr = s.readPtr)
    (he : s'.endPtr = s.endPtr) (hw : (s.pc p).waking = false)
    (hf : (∀ q, (s.pc q).waking = false) → Attentive s pc) : Wakeful s' := by
  intro hall
  have hold : ∀ q, (s.pc q).waking = false := fun q => by
    by_cases hq : q = p
    · subst hq; exact hw
    · simpa [hpc, hq] using hall q
  rw [hpc]
  exact forall_update (fun q _ => (h hold q).same hr he) ((hf hold).same hr he)

theorem step_wakeful (hs : Step D s o s') (hw : Window D s) (h : Wakeful s) : Wakeful s' := by
  cases hs with
  | @move o p pc hm => exact h.move rfl rfl rfl hm.waking fun hq => hm.attentive (hw.le hq) (h hq p)
  | lockRead ho hp | lockWrite ho hp | copyFromUser hp | fault hp =>
    exact h.move rfl rfl rfl (by rw [hp]; rfl) fun _ => trivial
  | empty hp hpc =>
    refine h.move goto_mutexUnlock_pc mutexUnlock_readPtr mutexUnlock_endPtr (by rw [hp]; rfl) fun _ => ?_
    rcases hpc with rfl | rfl <;> trivial
  | outUnlock hp =>
    exact h.move goto_mutexUnlock_pc mutexUnlock_readPtr mutexUnlock_endPtr (by rw [hp]; rfl) fun _ => trivial
  | @advance p bytes hp =>
    have hf := hw.fits p
    rw [hp] at hf
    intro hall
    have hold : ∀ q, (s.pc q).waking = false := fun q => by
      by_cases hq : q = p
      · subst hq; rw [hp]; rfl
      · simpa [goto, hq] using hall q
    exact forall_update (fun q _ => (h hold q).advance rfl rfl hf) trivial
  | @storeEnd p w hp => exact fun hall => absurd (hall p) (by simp [goto, Pc.waking])
  | @storeReadPtr p w hp => exact fun hall => absurd (hall p) (by simp [goto, Pc.waking])
  | @wakeUp p w hp =>
    -- everything that was queued is woken
    intro _
    have woken : ∀ pc : Pc, Attentive s pc.woken := fun pc => by cases pc <;> trivial
    exact forall_update (s := { s with pc := fun q => (s.pc q).woken }) (fun q _ => woken (s.pc q)) trivial

/-! ## Runs -/

structure Inv (D : Device) (s : St P) : Prop where
  locked : Locked s
  window : Window D s
  wakeful : Wakeful s

theorem step_inv (hs : Step D s o s') (h : Inv D s) : Inv D s' :=
  ⟨step_locked hs h.locked, step_window hs h.locked h.window, step_wakeful hs h.window h.wakeful⟩

theorem init_inv (mem : ℕ → UInt8) : Inv D (device D P mem).init where
  locked := ⟨fun p => by simp [device, Pc.critical], rfl⟩
  window := ⟨fun _ => Or.inl ⟨rfl, rfl⟩, fun _ => trivial⟩
  wakeful := fun _ _ => trivial

theorem run_inv {mem : ℕ → UInt8} {ops : List (Op P)} (hr : (device D P mem).run (device D P mem).init ops = some s) :
    Inv D s :=
  (device D P mem).run_inv (I := Inv D) (fun _ _ _ hi hs => step_inv (step_eq hs) hi) (init_inv mem) hr

/-- **The blocking protocol is sound.** In every run: the mutex is never unlocked by a process that does not hold it; a
process that has returned, or sleeps, does not hold it; and while a reader is asleep and the buffer is not empty, a
writer is between its first store to the pointers and its wake-up. -/
theorem blocking_sound (D : Device) (mem : ℕ → UInt8) (ops : List (Op P)) (s : St P)
    (hr : (device D P mem).run (device D P mem).init ops = some s) :
    s.fault = false ∧
      (∀ p, (∃ r, s.pc p = .user r) ∨ (∃ c, s.pc p = .asleep c) → s.owner ≠ some p) ∧
      ∀ p c, s.pc p = .asleep c → s.readPtr ≠ s.endPtr → ∃ q w, s.pc q = .writePtr w ∨ s.pc q = .writeWake w := by
  have h := run_inv hr
  refine ⟨h.locked.fault, fun p hp ho => ?_, fun p c hp hne => ?_⟩
  · have hc := (h.locked.owner p).1 ho
    rcases hp with ⟨r, hp⟩ | ⟨c, hp⟩ <;> rw [hp] at hc <;> cases hc
  · by_contra hno
    refine hne ?_
    have hq : ∀ q, (s.pc q).waking = false := fun q => by
      cases hpq : s.pc q with
      | writePtr w => exact absurd ⟨q, w, Or.inl hpq⟩ hno
      | writeWake w => exact absurd ⟨q, w, Or.inr hpq⟩ hno
      | _ => rfl
    have ha := h.wakeful hq p
    rwa [hp] at ha

/-- a buffer of 8 bytes -/
def smallDevice : Device := ⟨4096, 8, by decide, by decide⟩

/-- a reader falls asleep, and a writer has stored `end` -/
def sleeperOps : List (Op Bool) :=
  [.read false 4 false, .lock false, .run false, .run false, .run false, .load false true, .run false, .run false,
    .write true [1, 2, 3], .lock true, .copyFromUser true none, .run true]

theorem blocking_sound_sleeper :
    ∃ s, (device smallDevice Bool fun _ => 0).run (device smallDevice Bool fun _ => 0).init sleeperOps = some s ∧
      s.pc false = .asleep ⟨4, false⟩ ∧ ∃ q w, s.pc q = .writePtr w ∨ s.pc q = .writeWake w :=
  ⟨_, rfl, rfl, (blocking_sound smallDevice (fun _ => 0) sleeperOps _ rfl).2.2 false ⟨4, false⟩ rfl (by decide)⟩

end Hodgepodge.Reverse
