/-
`ipc_connection_win_namedpipe` (tipc.cpp): `read`, `notify` and `trigger_async_cache_read`. To learn of new data, the
connection keeps a ReadFile of one byte outstanding. Its byte goes to `m_cache_byte0`. When its completion is
dispatched, `notify` clears `m_cache_empty` and calls `on_read`; after that, the next ReadFile of one byte is issued.
`read` takes the cached byte first and the rest of its buffer by ReadFile of its own.

A `read` outside `on_read`, which the interface allows from any other thread, finds the cache empty while that ReadFile
is outstanding or its completion waits. Its own ReadFile then gets the bytes behind the cached one, and it returns them
first.

Model: any number of threads besides the one of the service; each access to the two members, each ReadFile and each
completion is a step. The requests of a pipe complete in the order in which they were issued, with any number of bytes
up to their size. `m_sync_overlapped` is one for all calls: `sync` is the count of the request that completed last,
until the next is issued. A pointer fits the `unsigned long` that it is cast to, as it does where both have 32 bits.
Errors of the pipe, its end and `write` are left out.

Results:
- `Step`, `step_eq`: the inversion of every operation.
- `Shape`, `step_inv`: what was written is what was returned, then what the call that takes bytes has, then the byte at
  the side, then what is unread.
- `reads_in_order`: for every run in which calls go for bytes one after the other and none issues a ReadFile while a
  byte is at the side or on its way there.
- `reads_out_of_order`: one byte of two, read by another thread.
- `on_read_suffices`: a run that reads inside `on_read` only meets the condition.
-/
import Mathlib.Algebra.Group.Int.Defs
import Mathlib.Data.Fintype.Option
import Mathlib.Logic.Function.Basic
import Hodgepodge.Core.Lts

namespace Hodgepodge.Ipc.NamedPipe

open Function Hodgepodge.Core

/-! ## Model -/

/-- where a call of `read` stands -/
inductive Pc where
  /-- at `if (!m_cache_empty)` -/
  | test
  | copy
  /-- at `m_cache_empty = true` -/
  | clear
  /-- at `if (lp_cnt)` -/
  | peek
  /-- at the condition of the loop -/
  | loop
  /-- behind ReadFile -/
  | wait
deriving DecidableEq

structure Call where
  pc : Pc
  buffer : List UInt8
  cnt : ℕ
  lpCnt : Bool
  bytesAvail : ℤ
deriving DecidableEq

/-- where the thread of the service stands -/
inductive Service where
  /-- at GetQueuedCompletionStatus -/
  | wait
  /-- in `notify`, behind `m_cache_empty = false` -/
  | notify
  /-- in the handler; `newData` is `b_new_data_arrived` -/
  | onRead (newData : Bool)
  /-- about to call `trigger_async_cache_read` -/
  | trigger
  /-- an assertion has failed -/
  | aborted
deriving DecidableEq

def Service.inHandler : Service → Bool
  | .onRead _ => true
  | _ => false

variable {T : Type*}

/-- a ReadFile that has not completed; `none` is the thread of the service -/
inductive Request (T : Type*) where
  | cache
  | sync (t : Option T) (offset size : ℕ)
deriving DecidableEq

structure St (T : Type*) where
  written : List UInt8
  unread : List UInt8
  requests : List (Request T)
  /-- the completions of cache reads in the port -/
  packets : ℕ
  cacheByte0 : UInt8
  cacheEmpty : Bool
  sync : Option ℕ
  service : Service
  call : Option T → Option Call
  /-- the bytes that calls have returned -/
  returned : List UInt8

inductive Op (T : Type*) where
  /-- the peer writes -/
  | write (bytes : List UInt8)
  /-- the oldest request completes with `k` bytes -/
  | complete (k : ℕ)
  | notify
  | onRead
  | onReadReturn
  | triggerAsyncCacheRead
  /-- a call of `read`; the buffer holds anything -/
  | read (t : Option T) (buffer : List UInt8) (lpCnt : Bool)
  /-- the next step of a call; `peeked`: what PeekNamedPipe returns -/
  | turn (t : Option T) (peeked : Bool)
deriving DecidableEq

/-- the kernel stores `bytes` in the buffer -/
def Call.store (c : Call) (offset : ℕ) (bytes : List UInt8) : Call :=
  { c with buffer := c.buffer.take offset ++ bytes ++ c.buffer.drop (offset + bytes.length) }

/-- `io_cnt` -/
def Call.ioCnt (c : Call) : ℕ :=
  if 0 < c.bytesAvail then min c.bytesAvail.toNat (c.buffer.length - c.cnt) else c.buffer.length - c.cnt

variable [DecidableEq T]

def St.goto (s : St T) (t : Option T) (c : Call) : St T := { s with call := update s.call t (some c) }

def St.finish (s : St T) (t : Option T) (c : Call) : St T :=
  { s with call := update s.call t none, returned := s.returned ++ c.buffer.take c.cnt }

/-- a step of `read` -/
def turn (s : St T) (t : Option T) (peeked : Bool) (c : Call) : Option (St T) :=
  match c.pc with
  | .test => some (s.goto t { c with pc := if s.cacheEmpty then .peek else .copy })
  | .copy => some (s.goto t { c with buffer := c.buffer.set c.cnt s.cacheByte0, cnt := c.cnt + 1, pc := .clear })
  | .clear =>
    let s := { s with cacheEmpty := true }
    some (s.goto t { c with pc := .peek })
  | .peek =>
    if c.lpCnt then
      let bytesAvail : ℤ := if peeked then s.unread.length else -1
      if bytesAvail = 0 then some (s.finish t c)
      else some (s.goto t { c with bytesAvail := bytesAvail, pc := .loop })
    else some (s.goto t { c with pc := .loop })
  | .loop =>
    if c.cnt < c.buffer.length then
      let s := { s with requests := s.requests ++ [Request.sync t c.cnt c.ioCnt], sync := none }
      some (s.goto t { c with pc := .wait })
    else some (s.finish t c)
  | .wait => s.sync.map fun n =>
    let c := { c with cnt := c.cnt + n, pc := .loop }
    if c.lpCnt && decide (0 < c.cnt) then s.finish t c else s.goto t c

/-- `read` inside the handler is a call of the service's thread -/
def act (s : St T) : Op T → Option (St T)
  | .write bytes => some { s with written := s.written ++ bytes, unread := s.unread ++ bytes }
  | .complete k =>
    match s.requests, s.unread with
    | .cache :: requests, byte :: unread =>
      if k = 1 then
        some { s with requests := requests, unread := unread, packets := s.packets + 1, cacheByte0 := byte }
      else none
    | .sync t offset size :: requests, unread =>
      if 0 < k ∧ k ≤ size ∧ k ≤ unread.length then
        some { s with
          requests := requests
          unread := unread.drop k
          sync := some k
          call := update s.call t ((s.call t).map fun c => c.store offset (unread.take k)) }
      else none
    | _, _ => none
  | .notify =>
    if s.service = .wait ∧ 0 < s.packets then
      some { s with packets := s.packets - 1, cacheEmpty := false, service := .notify }
    else none
  | .onRead => if s.service = .notify then some { s with service := .onRead (!s.cacheEmpty) } else none
  | .onReadReturn =>
    match s.service with
    | .onRead newData =>
      if s.call none = none then
        some { s with service := if newData && !s.cacheEmpty then .aborted else .trigger }
      else none
    | _ => none
  | .triggerAsyncCacheRead =>
    if s.service = .trigger then
      if s.cacheEmpty then some { s with requests := s.requests ++ [.cache], service := .wait }
      else some { s with service := .aborted }
    else none
  | .read t buffer lpCnt =>
    if s.call t = none ∧ buffer ≠ [] ∧ (t = none → s.service.inHandler = true) then
      some (s.goto t ⟨.test, buffer, 0, lpCnt, -1⟩)
    else none
  | .turn t peeked => (s.call t).bind (turn s t peeked)

/-- nothing goes on behind a failed assertion -/
def step (s : St T) (o : Op T) : Option (St T) := if s.service = .aborted then none else act s o

/-- connected, and before the first cache read -/
def init (T : Type*) : St T := ⟨[], [], [], 0, 0, true, none, .trigger, fun _ => none, []⟩

def pipe (T : Type*) [DecidableEq T] : Lts (St T) (Op T) := ⟨init T, step⟩

/-- no byte is at the side, or on its way there -/
def Quiet (s : St T) : Prop := .cache ∉ s.requests ∧ s.packets = 0 ∧ s.cacheEmpty = true

instance (s : St T) : Decidable (Quiet s) := by unfold Quiet; infer_instance

/-- a call that has taken no byte and asked for none -/
def Call.Fresh (c : Call) : Prop := c.cnt = 0 ∧ c.buffer ≠ [] ∧ (c.pc = .test ∨ c.pc = .peek ∨ c.pc = .loop)

instance (c : Call) : Decidable c.Fresh := by unfold Call.Fresh; infer_instance

/-- the next step of the call goes for a byte: the cached one, or those that it issues a ReadFile for -/
def Call.Takes (c : Call) (empty : Bool) : Prop :=
  c.pc = .test ∧ empty = false ∨ c.pc = .loop ∧ c.cnt < c.buffer.length

instance (c : Call) (empty : Bool) : Decidable (c.Takes empty) := by unfold Call.Takes; infer_instance

/-- a call goes for a byte only while no other call in progress has taken one or asked for one, and it issues a ReadFile
only while no byte is at the side or on its way there -/
def Allowed (s : St T) : Op T → Prop
  | .turn t _ => ∀ c, s.call t = some c → c.Takes s.cacheEmpty →
      (∀ t', t' ≠ t → ∀ c', s.call t' = some c' → c'.Fresh) ∧ (c.pc = .loop → Quiet s)
  | _ => True

instance decAllowed [Fintype T] (s : St T) : (o : Op T) → Decidable (Allowed s o)
  | .turn t _ => inferInstanceAs (Decidable (∀ c ∈ s.call t, c.Takes s.cacheEmpty →
      (∀ t', t' ≠ t → ∀ c' ∈ s.call t', c'.Fresh) ∧ (c.pc = .loop → Quiet s)))
  | .write _ | .complete _ | .notify | .onRead | .onReadReturn | .triggerAsyncCacheRead | .read _ _ _ => isTrue trivial

/-! ## Inversion -/

/-- what one operation does -/
inductive Step (s : St T) : Op T → St T → Prop
  | write {bytes} : Step s (.write bytes) { s with written := s.written ++ bytes, unread := s.unread ++ bytes }
  | completeCache {requests byte unread} (hr : s.requests = .cache :: requests) (hu : s.unread = byte :: unread) :
      Step s (.complete 1) { s with
        requests := requests, unread := unread, packets := s.packets + 1, cacheByte0 := byte }
  | completeSync {t offset size requests k} (hr : s.requests = .sync t offset size :: requests) (h0 : 0 < k)
      (hk : k ≤ size) (hu : k ≤ s.unread.length) :
      Step s (.complete k) { s with
        requests := requests
        unread := s.unread.drop k
        sync := some k
        call := update s.call t ((s.call t).map fun c => c.store offset (s.unread.take k)) }
  | notify (hs : s.service = .wait) (hp : 0 < s.packets) :
      Step s .notify { s with packets := s.packets - 1, cacheEmpty := false, service := .notify }
  | onRead (hs : s.service = .notify) : Step s .onRead { s with service := .onRead (!s.cacheEmpty) }
  | onReadReturn {newData} (hs : s.service = .onRead newData) (hc : s.call none = none) :
      Step s .onReadReturn { s with service := if newData && !s.cacheEmpty then .aborted else .trigger }
  | trigger (hs : s.service = .trigger) (he : s.cacheEmpty = true) :
      Step s .triggerAsyncCacheRead { s with requests := s.requests ++ [.cache], service := .wait }
  | triggerAbort (hs : s.service = .trigger) (he : s.cacheEmpty = false) :
      Step s .triggerAsyncCacheRead { s with service := .aborted }
  | read {t buffer lpCnt} (hc : s.call t = none) (hb : buffer ≠ []) (hh : t = none → s.service.inHandler = true) :
      Step s (.read t buffer lpCnt) (s.goto t ⟨.test, buffer, 0, lpCnt, -1⟩)
  | turn {t peeked c s'} (hc : s.call t = some c) (ht : turn s t peeked c = some s') : Step s (.turn t peeked) s'

variable {s s' : St T} {o : Op T} {t : Option T} {c : Call} {peeked : Bool}

theorem act_eq (h : act s o = some s') : Step s o s' := by
  cases o with
  | write bytes => cases h; exact .write
  | complete k =>
    simp only [act] at h
    split at h
    · rename_i requests byte unread hr hu
      split_ifs at h with hk
      cases h
      rw [hk]
      exact .completeCache hr hu
    · rename_i t offset size requests unread hr
      split_ifs at h with hk
      cases h
      exact .completeSync hr hk.1 hk.2.1 hk.2.2
    · cases h
  | notify =>
    simp only [act] at h
    split_ifs at h with hs
    cases h
    exact .notify hs.1 hs.2
  | onRead =>
    simp only [act] at h
    split_ifs at h with hs
    cases h
    exact .onRead hs
  | onReadReturn =>
    simp only [act] at h
    split at h
    · rename_i newData hs
      by_cases hc : s.call none = none
      · rw [if_pos hc] at h
        cases h
        exact .onReadReturn hs hc
      · rw [if_neg hc] at h; cases h
    · cases h
  | triggerAsyncCacheRead =>
    simp only [act] at h
    split_ifs at h with hs he
    · cases h
      exact .trigger hs he
    · cases h
      exact .triggerAbort hs (Bool.eq_false_iff.2 he)
  | read t buffer lpCnt =>
    simp only [act] at h
    split_ifs at h with hc
    cases h
    exact .read hc.1 hc.2.1 hc.2.2
  | turn t peeked =>
    obtain ⟨c, hc, ht⟩ := Option.bind_eq_some_iff.1 h
    exact .turn hc ht

theorem step_eq (h : step s o = some s') : s.service ≠ .aborted ∧ Step s o s' := by
  unfold step at h
  split_ifs at h with ha
  exact ⟨ha, act_eq h⟩

/-! ## The invariant -/

/-- the calls in progress: one that has taken bytes or asked for some, and fresh ones -/
structure Calls (call : Option T → Option Call) (cur : Option (Option T × Call)) : Prop where
  held : ∀ t c, cur = some (t, c) → call t = some c
  others : ∀ t c, call t = some c → cur = some (t, c) ∨ c.Fresh

/-- the cache, by the requests for it, the completions in the port, `m_cache_empty`, the thread of the service, and the
byte at the side -/
inductive Phase (byte0 : UInt8) : Bool → ℕ → Bool → Service → List UInt8 → Prop
  | quiet {service} (hs : service ≠ .wait) : Phase byte0 false 0 true service []
  | armed : Phase byte0 true 0 true .wait []
  | completed : Phase byte0 false 1 true .wait [byte0]
  | full {service} (hs : service = .notify ∨ service = .onRead true ∨ service = .aborted) :
      Phase byte0 false 0 false service [byte0]

/-- the call that takes bytes, by its request and the bytes that come before the unread ones: its own and the byte at
the side -/
inductive Own (empty : Bool) (byte0 : UInt8) (sync : Option ℕ) (side : List UInt8) :
    Option (Option T × Call) → List (Request T) → List UInt8 → Prop
  | idle : Own empty byte0 sync side none [] side
  | copy {t : Option T} {c : Call} (hp : c.pc = .copy) (hc : c.cnt = 0) (hb : c.buffer ≠ []) (he : empty = false) :
      Own empty byte0 sync side (some (t, c)) [] side
  /-- the byte is in the buffer and at the side -/
  | clear {t : Option T} {c : Call} (hp : c.pc = .clear) (hc : c.cnt = 1) (hb : c.buffer.take 1 = [byte0])
      (he : empty = false) :
      Own empty byte0 sync side (some (t, c)) [] (c.buffer.take c.cnt)
  | ready {t : Option T} {c : Call} (hp : c.pc = .peek ∨ c.pc = .loop) (h0 : 0 < c.cnt)
      (hc : c.cnt ≤ c.buffer.length) :
      Own empty byte0 sync side (some (t, c)) [] (c.buffer.take c.cnt ++ side)
  | pending {t : Option T} {c : Call} {size : ℕ} (hp : c.pc = .wait) (hs : sync = none) (hside : side = [])
      (hc : c.cnt + size ≤ c.buffer.length) :
      Own empty byte0 sync side (some (t, c)) [.sync t c.cnt size] (c.buffer.take c.cnt)
  | done {t : Option T} {c : Call} {n : ℕ} (hp : c.pc = .wait) (hs : sync = some n) (h0 : 0 < n)
      (hc : c.cnt + n ≤ c.buffer.length) :
      Own empty byte0 sync side (some (t, c)) [] (c.buffer.take (c.cnt + n) ++ side)

/-- `armed`: a cache read is outstanding, behind the request of the call -/
structure Shape (s : St T) (cur : Option (Option T × Call)) (own : List (Request T)) (armed : Bool)
    (side bytes : List UInt8) : Prop where
  calls : Calls s.call cur
  requests : s.requests = own ++ if armed then [.cache] else []
  phase : Phase s.cacheByte0 armed s.packets s.cacheEmpty s.service side
  own : Own s.cacheEmpty s.cacheByte0 s.sync side cur own bytes
  bytes : s.written = s.returned ++ bytes ++ s.unread

def Inv (s : St T) : Prop := ∃ cur own armed side bytes, Shape s cur own armed side bytes

variable {byte0 : UInt8} {armed empty : Bool} {packets : ℕ} {service : Service} {side bytes : List UInt8}
  {sync : Option ℕ} {cur : Option (Option T × Call)} {own : List (Request T)}

omit [DecidableEq T] in
theorem Calls.rest {call : Option T → Option Call} (h : Calls call (some (t, c))) :
    ∀ t', t' ≠ t → ∀ c', call t' = some c' → c'.Fresh := by
  intro t' ht c' hc
  refine (h.others t' c' hc).resolve_left fun hcur => ht ?_
  cases hcur
  rfl

/-- a call goes on as the one that takes bytes -/
theorem Calls.take {call : Option T → Option Call} (h : ∀ t', t' ≠ t → ∀ c', call t' = some c' → c'.Fresh)
    (c : Call) : Calls (update call t (some c)) (some (t, c)) := by
  constructor
  · intro t' c' hcur
    cases hcur
    exact update_self _ _ _
  · intro t' c' hc
    by_cases ht : t' = t
    · subst ht
      rw [update_self] at hc
      cases hc
      exact Or.inl rfl
    · rw [update_of_ne ht] at hc
      exact Or.inr (h t' ht c' hc)

/-- it returns -/
theorem Calls.finish {call : Option T → Option Call} (h : Calls call (some (t, c))) :
    Calls (update call t none) none := by
  constructor
  · intro t' c' hcur
    cases hcur
  · intro t' c' hc
    by_cases ht : t' = t
    · subst ht
      rw [update_self] at hc
      cases hc
    · rw [update_of_ne ht] at hc
      exact Or.inr (h.rest t' ht c' hc)

/-- another call starts, goes on without taking bytes, or returns without any -/
theorem Calls.other {call : Option T → Option Call} {x : Option Call} (h : Calls call cur)
    (ht : ∀ c, cur ≠ some (t, c)) (hx : ∀ c, x = some c → c.Fresh) : Calls (update call t x) cur := by
  constructor
  · intro t' c' hcur
    have hne : t' ≠ t := by
      rintro rfl
      exact ht c' hcur
    rw [update_of_ne hne]
    exact h.held t' c' hcur
  · intro t' c' hc
    by_cases hne : t' = t
    · subst hne
      rw [update_self] at hc
      exact Or.inr (hx c' hc)
    · rw [update_of_ne hne] at hc
      exact h.others t' c' hc

omit [DecidableEq T] in
theorem Calls.none_held {call : Option T → Option Call} (h : Calls call cur) (hnone : ∀ t, call t = none) :
    cur = none := by
  cases cur with
  | none => rfl
  | some p =>
    have := h.held p.1 p.2 rfl
    rw [hnone] at this
    cases this

/-! ## The cache -/

theorem Phase.of_armed (h : Phase byte0 true packets empty service side) :
    packets = 0 ∧ empty = true ∧ service = .wait ∧ side = [] := by
  cases h
  exact ⟨rfl, rfl, rfl, rfl⟩

theorem Phase.of_packets (hp : 0 < packets) (h : Phase byte0 armed packets empty service side) :
    armed = false ∧ packets = 1 ∧ empty = true ∧ side = [byte0] := by
  cases h with
  | completed => exact ⟨rfl, rfl, rfl, rfl⟩
  | _ => exact absurd hp (Nat.lt_irrefl 0)

theorem Phase.of_full (h : Phase byte0 armed packets false service side) :
    armed = false ∧ packets = 0 ∧ side = [byte0] ∧ service ≠ .wait := by
  cases h with
  | full hs => exact ⟨rfl, rfl, rfl, by rintro rfl; simp at hs⟩

theorem Phase.of_trigger (h : Phase byte0 armed packets empty .trigger side) :
    armed = false ∧ packets = 0 ∧ empty = true ∧ side = [] := by
  cases h with
  | quiet hs => exact ⟨rfl, rfl, rfl, rfl⟩
  | full hs => simp at hs

/-- the handler is called -/
theorem Phase.onRead (h : Phase byte0 armed packets empty .notify side) :
    Phase byte0 armed packets empty (.onRead (!empty)) side := by
  cases h with
  | quiet hs => exact .quiet (by simp)
  | full hs => exact .full (Or.inr (Or.inl rfl))

/-- the handler has returned -/
theorem Phase.onReadReturn {newData : Bool} (h : Phase byte0 armed packets empty (.onRead newData) side) :
    Phase byte0 armed packets empty (if newData && !empty then .aborted else .trigger) side := by
  cases h with
  | quiet hs => exact .quiet (by simp)
  | full hs =>
    obtain rfl : newData = true := by simpa using hs
    exact .full (Or.inr (Or.inr rfl))

theorem Phase.side_eq (h : Phase byte0 armed packets empty service side) :
    side = if packets = 0 ∧ empty = true then [] else [byte0] := by
  cases h <;> rfl

omit [DecidableEq T] in
/-- a byte comes to the side -/
theorem Own.fill {byte : UInt8} (h : Own true byte0 sync [] cur [] bytes) :
    Own true byte sync [byte] cur [] (bytes ++ [byte]) := by
  cases h with
  | idle => exact .idle
  | copy hp hc hb he => cases he
  | clear hp hc hb he => cases he
  | ready hp h0 hc =>
    rw [List.append_nil]
    exact .ready hp h0 hc
  | done hp hs h0 hc =>
    rw [List.append_nil]
    exact .done hp hs h0 hc

omit [DecidableEq T] in
/-- it is announced -/
theorem Own.announce (h : Own true byte0 sync side cur own bytes) : Own false byte0 sync side cur own bytes := by
  cases h with
  | idle => exact .idle
  | copy hp hc hb he => cases he
  | clear hp hc hb he => cases he
  | ready hp h0 hc => exact .ready hp h0 hc
  | pending hp hs hside hc => exact .pending hp hs hside hc
  | done hp hs h0 hc => exact .done hp hs h0 hc

omit [DecidableEq T] in
/-- the call that takes bytes is not fresh -/
theorem Own.not_fresh (h : Own empty byte0 sync side (some (t, c)) own bytes) : ¬ c.Fresh := by
  rintro ⟨hcnt, -, hp⟩
  cases h with
  | copy hp' hc hb he => simp [hp'] at hp
  | clear hp' hc hb he => simp [hp'] at hp
  | ready hp' h0 hc => omega
  | pending hp' hs hside hc => simp [hp'] at hp
  | done hp' hs h0 hc => simp [hp'] at hp

/-! ## Completions -/

omit [DecidableEq T] in
/-- the oldest request is for the cache, so no request of a call is outstanding -/
theorem Shape.cache_first {requests : List (Request T)} (h : Shape s cur own armed side bytes)
    (hr : s.requests = .cache :: requests) : own = [] ∧ armed = true ∧ requests = [] := by
  have hreq := h.requests
  rw [hr] at hreq
  have hown : own = [] := by
    cases h.own with
    | pending => cases hreq
    | _ => rfl
  subst hown
  cases armed with
  | false => cases hreq
  | true => exact ⟨rfl, rfl, (List.cons.inj hreq).2⟩

omit [DecidableEq T] in
theorem Shape.completeCache {requests : List (Request T)} {byte : UInt8} {unread : List UInt8}
    (h : Shape s cur own armed side bytes) (hr : s.requests = .cache :: requests) (hu : s.unread = byte :: unread) :
    Inv { s with requests := requests, unread := unread, packets := s.packets + 1, cacheByte0 := byte } := by
  obtain ⟨rfl, rfl, rfl⟩ := h.cache_first hr
  have hphase := h.phase
  have hown := h.own
  obtain ⟨hp, he, hv, rfl⟩ := hphase.of_armed
  rw [he] at hown
  refine ⟨cur, [], false, [byte], bytes ++ [byte], h.calls, rfl, ?_, ?_, ?_⟩
  · simp only [hp, he, hv]
    exact .completed
  · simp only [he]
    exact hown.fill
  · rw [h.bytes, hu]
    simp

@[simp] theorem store_cnt (c : Call) (offset : ℕ) (stored : List UInt8) : (c.store offset stored).cnt = c.cnt := rfl

theorem store_length {offset : ℕ} {stored : List UInt8} (h : offset + stored.length ≤ c.buffer.length) :
    (c.store offset stored).buffer.length = c.buffer.length := by
  simp only [Call.store, List.length_append, List.length_take, List.length_drop]
  omega

theorem store_take {offset : ℕ} (stored : List UInt8) (h : offset ≤ c.buffer.length) :
    (c.store offset stored).buffer.take (offset + stored.length) = c.buffer.take offset ++ stored := by
  have hlen : (c.buffer.take offset ++ stored).length = offset + stored.length := by
    rw [List.length_append, List.length_take_of_le h]
  rw [Call.store, ← hlen, List.take_left]

/-- the oldest request is that of the call that takes bytes -/
theorem Shape.completeSync {offset size k : ℕ} {requests : List (Request T)} (h : Shape s cur own armed side bytes)
    (hr : s.requests = .sync t offset size :: requests) (h0 : 0 < k) (hk : k ≤ size) (hu : k ≤ s.unread.length) :
    Inv { s with
      requests := requests
      unread := s.unread.drop k
      sync := some k
      call := update s.call t ((s.call t).map fun c => c.store offset (s.unread.take k)) } := by
  have hreq := h.requests
  have hcalls := h.calls
  have hbytes := h.bytes
  rw [hr] at hreq
  cases h.own with
  | @pending t' c size' hp hs hside hc =>
    cases hreq
    have hlen : (s.unread.take k).length = k := List.length_take_of_le hu
    have hold : s.call t = some c := hcalls.held t c rfl
    have htake := store_take (s.unread.take k) (by omega : c.cnt ≤ c.buffer.length)
    rw [hlen] at htake
    refine ⟨some (t, c.store c.cnt (s.unread.take k)), [], armed, side, _, ?_, rfl, h.phase, .done hp rfl h0 ?_, ?_⟩
    · simp only [hold, Option.map_some]
      exact .take hcalls.rest _
    · rw [store_cnt, store_length (by rw [hlen]; omega)]
      omega
    · simp only [store_cnt, htake, hside, hbytes]
      simp
  | _ => cases armed <;> cases hreq

/-! ## The turns of a call -/

/-- the call that takes bytes returns its first `n` -/
theorem Shape.finish {n : ℕ} (h : Shape s (some (t, c)) [] armed side (c.buffer.take n ++ side)) {c' : Call}
    (hc : c'.buffer = c.buffer) (hn : c'.cnt = n) : Inv (s.finish t c') := by
  refine ⟨none, [], armed, side, side, h.calls.finish, h.requests, h.phase, .idle, ?_⟩
  show s.written = s.returned ++ c'.buffer.take c'.cnt ++ side ++ s.unread
  rw [h.bytes, hc, hn]
  simp

/-- it goes on with the same bytes -/
theorem Shape.goto (h : Shape s (some (t, c)) own armed side bytes) {c' : Call}
    (hown : Own s.cacheEmpty s.cacheByte0 s.sync side (some (t, c')) own bytes) : Inv (s.goto t c') :=
  ⟨some (t, c'), own, armed, side, bytes, .take h.calls.rest c', h.requests, h.phase, hown, h.bytes⟩

/-- a fresh call goes on -/
theorem Shape.gotoFresh (h : Shape s cur own armed side bytes) (ht : ∀ c, cur ≠ some (t, c)) {c' : Call}
    (hc : c'.Fresh) : Inv (s.goto t c') :=
  ⟨cur, own, armed, side, bytes, h.calls.other ht (fun _ hx => Option.some.inj hx ▸ hc), h.requests, h.phase, h.own,
    h.bytes⟩

/-- it returns without a byte -/
theorem Shape.finishFresh (h : Shape s cur own armed side bytes) (ht : ∀ c, cur ≠ some (t, c)) (hc : c.cnt = 0) :
    Inv (s.finish t c) := by
  refine ⟨cur, own, armed, side, bytes, h.calls.other ht ?_, h.requests, h.phase, h.own, ?_⟩
  · intro c' hx
    cases hx
  · show s.written = s.returned ++ c.buffer.take c.cnt ++ bytes ++ s.unread
    rw [hc, List.take_zero, List.append_nil]
    exact h.bytes

omit [DecidableEq T] in
/-- a fresh call that is allowed to take a byte is the only one that does -/
theorem Shape.alone (h : Shape s cur own armed side bytes) (ht : ∀ c, cur ≠ some (t, c))
    (hfresh : ∀ t', t' ≠ t → ∀ c', s.call t' = some c' → c'.Fresh) : cur = none ∧ own = [] ∧ bytes = side := by
  have hcur : cur = none := by
    cases cur with
    | none => rfl
    | some p =>
      obtain ⟨t', c'⟩ := p
      have hne : t' ≠ t := fun heq => ht c' (by rw [heq])
      exact absurd (hfresh t' hne c' (h.calls.held t' c' rfl)) h.own.not_fresh
  subst hcur
  cases h.own with
  | idle => exact ⟨rfl, rfl, rfl⟩

omit [DecidableEq T] in
/-- nothing is at the side or on its way there -/
theorem Shape.quiet (h : Shape s cur own armed side bytes) (hq : Quiet s) : armed = false ∧ side = [] := by
  obtain ⟨hr, hp, he⟩ := hq
  constructor
  · cases armed with
    | false => rfl
    | true => exact absurd (by rw [h.requests]; simp) hr
  · rw [h.phase.side_eq, if_pos ⟨hp, he⟩]

theorem ioCnt_le (h : c.cnt ≤ c.buffer.length) : c.cnt + c.ioCnt ≤ c.buffer.length := by
  unfold Call.ioCnt
  split_ifs <;> omega

/-- `m_cache_byte0` is copied -/
theorem Shape.copy (h : Shape s (some (t, c)) [] armed side side) (hc : c.cnt = 0) (hb : c.buffer ≠ [])
    (he : s.cacheEmpty = false) :
    Inv (s.goto t { c with buffer := c.buffer.set c.cnt s.cacheByte0, cnt := c.cnt + 1, pc := .clear }) := by
  have hphase := h.phase
  rw [he] at hphase
  obtain ⟨-, -, hside, -⟩ := hphase.of_full
  have hone : (c.buffer.set c.cnt s.cacheByte0).take 1 = [s.cacheByte0] := by
    rw [hc]
    cases hbuffer : c.buffer with
    | nil => exact absurd hbuffer hb
    | cons b bs => rfl
  have hown : Own s.cacheEmpty s.cacheByte0 s.sync side
      (some (t, { c with buffer := c.buffer.set c.cnt s.cacheByte0, cnt := c.cnt + 1, pc := .clear })) []
      ((c.buffer.set c.cnt s.cacheByte0).take (c.cnt + 1)) := .clear rfl (by simp only [hc]) hone he
  have htake : (c.buffer.set c.cnt s.cacheByte0).take (c.cnt + 1) = side := by
    rw [hside, ← hone, hc]
  rw [htake] at hown
  exact h.goto hown

/-- `m_cache_empty = true` -/
theorem Shape.clear (h : Shape s (some (t, c)) [] armed side (c.buffer.take c.cnt)) (h0 : 0 < c.cnt)
    (hle : c.cnt ≤ c.buffer.length) (he : s.cacheEmpty = false) :
    Inv ({ s with cacheEmpty := true }.goto t { c with pc := .peek }) := by
  have hphase := h.phase
  rw [he] at hphase
  obtain ⟨rfl, hp, -, hv⟩ := hphase.of_full
  have hquiet : Phase s.cacheByte0 false s.packets true s.service [] := by
    rw [hp]
    exact .quiet hv
  refine ⟨some (t, { c with pc := .peek }), [], false, [], c.buffer.take c.cnt ++ [], .take h.calls.rest _, h.requests,
    hquiet, .ready (Or.inl rfl) h0 hle, ?_⟩
  rw [List.append_nil]
  exact h.bytes

/-- a ReadFile is issued, with nothing at the side -/
theorem Shape.issue (h : Shape s cur [] armed side (c.buffer.take c.cnt ++ side)) (hle : c.cnt ≤ c.buffer.length)
    (hfresh : ∀ t', t' ≠ t → ∀ c', s.call t' = some c' → c'.Fresh) (hq : Quiet s) :
    Inv ({ s with requests := s.requests ++ [Request.sync t c.cnt c.ioCnt], sync := none }.goto t
      { c with pc := .wait }) := by
  obtain ⟨rfl, rfl⟩ := h.quiet hq
  refine ⟨some (t, { c with pc := .wait }), [.sync t c.cnt c.ioCnt], false, [], c.buffer.take c.cnt, .take hfresh _, ?_,
    h.phase, .pending rfl rfl rfl (ioCnt_le hle), ?_⟩
  · show s.requests ++ _ = _
    rw [h.requests]
    rfl
  · show s.written = _
    rw [h.bytes, List.append_nil]
    rfl

/-- a turn of the call that takes bytes -/
theorem Shape.turn (h : Shape s (some (t, c)) own armed side bytes) (ht : turn s t peeked c = some s')
    (hC : c.pc = .loop → c.cnt < c.buffer.length → Quiet s) : Inv s' := by
  cases h.own with
  | copy hp hc hb he =>
    simp only [NamedPipe.turn, hp] at ht
    cases ht
    exact h.copy hc hb he
  | clear hp hc hb he =>
    simp only [NamedPipe.turn, hp] at ht
    cases ht
    have hle := congrArg List.length hb
    rw [List.length_take, List.length_singleton] at hle
    exact h.clear (by omega) (by omega) he
  | ready hp h0 hc =>
    rcases hp with hp | hp
    · simp only [NamedPipe.turn, hp] at ht
      split_ifs at ht
      all_goals cases ht
      all_goals first
        | exact h.finish rfl rfl
        | exact h.goto (.ready (Or.inr rfl) h0 hc)
    · simp only [NamedPipe.turn, hp] at ht
      split_ifs at ht with hlt
      · cases ht
        exact h.issue hc h.calls.rest (hC hp hlt)
      · cases ht
        exact h.finish rfl rfl
  | pending hp hs hside hc =>
    simp only [NamedPipe.turn, hp, hs] at ht
    cases ht
  | @done t c n hp hs h0 hc =>
    simp only [NamedPipe.turn, hp, hs, Option.map_some] at ht
    split_ifs at ht
    · cases ht
      exact h.finish rfl rfl
    · cases ht
      exact h.goto (.ready (Or.inr rfl) (Nat.lt_of_lt_of_le h0 (Nat.le_add_left _ _)) hc)

/-- a turn of a fresh call -/
theorem Shape.turnFresh (h : Shape s cur own armed side bytes) (hcur : ∀ c, cur ≠ some (t, c)) (hc : c.Fresh)
    (ht : NamedPipe.turn s t peeked c = some s')
    (hC : c.Takes s.cacheEmpty →
      (∀ t', t' ≠ t → ∀ c', s.call t' = some c' → c'.Fresh) ∧ (c.pc = .loop → Quiet s)) : Inv s' := by
  obtain ⟨hcnt, hb, hp | hp | hp⟩ := hc
  · simp only [NamedPipe.turn, hp] at ht
    cases ht
    cases he : s.cacheEmpty with
    | true => exact h.gotoFresh hcur ⟨hcnt, hb, Or.inr (Or.inl rfl)⟩
    | false =>
      obtain ⟨hfresh, -⟩ := hC (Or.inl ⟨hp, he⟩)
      obtain ⟨rfl, rfl, rfl⟩ := h.alone hcur hfresh
      exact ⟨some (t, { c with pc := .copy }), [], armed, bytes, bytes, .take hfresh _, h.requests, h.phase,
        .copy rfl hcnt hb he, h.bytes⟩
  · simp only [NamedPipe.turn, hp] at ht
    split_ifs at ht
    all_goals cases ht
    all_goals first
      | exact h.finishFresh hcur hcnt
      | exact h.gotoFresh hcur ⟨hcnt, hb, Or.inr (Or.inr rfl)⟩
  · have hlt : c.cnt < c.buffer.length := by
      rw [hcnt]
      exact List.length_pos_iff.2 hb
    obtain ⟨hfresh, hq⟩ := hC (Or.inr ⟨hp, hlt⟩)
    obtain ⟨rfl, rfl, rfl⟩ := h.alone hcur hfresh
    simp only [NamedPipe.turn, hp, if_pos hlt] at ht
    cases ht
    have htake : c.buffer.take c.cnt ++ bytes = bytes := by
      rw [hcnt]
      rfl
    have hshape : Shape s none [] armed bytes (c.buffer.take c.cnt ++ bytes) := by
      rw [htake]
      exact h
    exact hshape.issue (Nat.le_of_lt hlt) hfresh (hq hp)

/-! ## A step -/

theorem step_inv (h : Inv s) (hC : Allowed s o) (hstep : step s o = some s') : Inv s' := by
  obtain ⟨cur, own, armed, side, bytes, h⟩ := h
  obtain ⟨-, hstep⟩ := step_eq hstep
  cases hstep with
  | @write written =>
    refine ⟨cur, own, armed, side, bytes, h.calls, h.requests, h.phase, h.own, ?_⟩
    rw [h.bytes, List.append_assoc]
  | completeCache hr hu => exact h.completeCache hr hu
  | completeSync hr h0 hk hu => exact h.completeSync hr h0 hk hu
  | notify hs hp =>
    have hphase := h.phase
    have hown := h.own
    obtain ⟨rfl, hp, he, rfl⟩ := hphase.of_packets hp
    rw [he] at hown
    refine ⟨cur, own, false, _, bytes, h.calls, h.requests, ?_, hown.announce, h.bytes⟩
    simp only [hp]
    exact .full (Or.inl rfl)
  | onRead hs =>
    have hphase := h.phase
    rw [hs] at hphase
    exact ⟨cur, own, armed, side, bytes, h.calls, h.requests, hphase.onRead, h.own, h.bytes⟩
  | onReadReturn hs hc =>
    have hphase := h.phase
    rw [hs] at hphase
    exact ⟨cur, own, armed, side, bytes, h.calls, h.requests, hphase.onReadReturn, h.own, h.bytes⟩
  | trigger hs he =>
    have hphase := h.phase
    rw [hs] at hphase
    obtain ⟨rfl, hp, -, rfl⟩ := hphase.of_trigger
    refine ⟨cur, own, true, [], bytes, h.calls, ?_, ?_, h.own, h.bytes⟩
    · simp only [h.requests, Bool.false_eq_true, if_false, if_true, List.append_nil]
    · simp only [hp, he]
      exact .armed
  | triggerAbort hs he =>
    have hphase := h.phase
    rw [hs] at hphase
    obtain ⟨-, -, he', -⟩ := hphase.of_trigger
    rw [he] at he'
    cases he'
  | @read t buffer lpCnt hc hb hh =>
    have hnot : ∀ c, cur ≠ some (t, c) := by
      intro c hcur
      rw [h.calls.held t c hcur] at hc
      cases hc
    exact h.gotoFresh hnot ⟨rfl, hb, Or.inl rfl⟩
  | @turn t peeked c _ hc ht =>
    by_cases hcur : cur = some (t, c)
    · subst hcur
      exact h.turn ht fun hp hlt => (hC c hc (Or.inr ⟨hp, hlt⟩)).2 hp
    · have hnot : ∀ c', cur ≠ some (t, c') := by
        intro c' hcur'
        have := h.calls.held t c' hcur'
        rw [hc] at this
        cases this
        exact hcur hcur'
      exact h.turnFresh hnot ((h.calls.others t c hc).resolve_left hcur) ht (hC c hc)

omit [DecidableEq T] in
theorem init_inv : Inv (init T) := by
  refine ⟨none, [], false, [], [], ⟨?_, ?_⟩, rfl, .quiet Service.noConfusion, .idle, rfl⟩
  · intro t c hcur
    cases hcur
  · intro t c hc
    cases hc

/-! ## Every run -/

/-- the byte at the side -/
def St.cached (s : St T) : List UInt8 := if s.packets = 0 ∧ s.cacheEmpty = true then [] else [s.cacheByte0]

/-- the bytes that were returned are the first that were written; between two calls the byte at the side comes next, and
then what is unread -/
def InOrder (s : St T) : Prop :=
  s.returned <+: s.written ∧ ((∀ t, s.call t = none) → s.written = s.returned ++ s.cached ++ s.unread)

omit [DecidableEq T] in
theorem Inv.inOrder (h : Inv s) : InOrder s := by
  obtain ⟨cur, own, armed, side, bytes, h⟩ := h
  constructor
  · rw [h.bytes, List.append_assoc]
    exact List.prefix_append _ _
  · intro hcalls
    obtain rfl := h.calls.none_held hcalls
    have hbytes := h.bytes
    cases h.own with
    | idle =>
      rw [hbytes, h.phase.side_eq]
      rfl

/-- **Bytes in order.** In every run in which calls go for bytes one after the other, and none issues a ReadFile while a
byte is at the side or on its way there, the bytes that were returned are at every moment the first of those that the
peer has written, and no byte is lost or comes twice. -/
theorem reads_in_order (T : Type*) [DecidableEq T] (ops : List (Op T)) (h : (pipe T).Along Allowed (init T) ops) :
    (pipe T).Always InOrder (init T) ops := by
  intro pre post s hops hs
  have hinv : ∀ s o s', Inv s → Allowed s o → (pipe T).step s o = some s' → Inv s' := by
    intro s o s' hI hC hstep
    exact step_inv hI hC hstep
  have hall := (pipe T).along_always hinv init_inv h
  exact (hall pre post s hops hs).inOrder

/-- another thread reads two bytes while the handler waits for it -/
theorem read_in_time :
    ((pipe Unit).run (init Unit) [.triggerAsyncCacheRead, .write [1, 2], .complete 1, .notify, .onRead,
      .read (some ()) [0, 0] false, .turn (some ()) true, .turn (some ()) true, .turn (some ()) true,
      .turn (some ()) true, .turn (some ()) true, .complete 1, .turn (some ()) true, .turn (some ()) true,
      .onReadReturn, .triggerAsyncCacheRead]).map St.returned = some [1, 2] ∧
    (pipe Unit).Always InOrder (init Unit) [.triggerAsyncCacheRead, .write [1, 2], .complete 1, .notify, .onRead,
      .read (some ()) [0, 0] false, .turn (some ()) true, .turn (some ()) true, .turn (some ()) true,
      .turn (some ()) true, .turn (some ()) true, .complete 1, .turn (some ()) true, .turn (some ()) true,
      .onReadReturn, .triggerAsyncCacheRead] :=
  ⟨by decide +kernel, reads_in_order Unit _ (by decide +kernel)⟩

/-- **Out of order.** Another thread reads a byte while the cache read is outstanding. Its ReadFile completes with the
second byte; the first is at the side. -/
theorem reads_out_of_order :
    ¬ ∀ (T : Type) [DecidableEq T] (ops : List (Op T)) (s : St T),
        (pipe T).run (init T) ops = some s → s.returned <+: s.written := by
  intro h
  have hrun : ((pipe Unit).run (init Unit) [.triggerAsyncCacheRead, .read (some ()) [0] false, .turn (some ()) true,
      .turn (some ()) true, .turn (some ()) true, .write [1, 2], .complete 1, .complete 1, .turn (some ()) true,
      .turn (some ()) true]).map (fun s => (s.returned, s.written)) = some ([2], [1, 2]) := by decide +kernel
  obtain ⟨s, hs, hbytes⟩ := Option.map_eq_some_iff.1 hrun
  obtain ⟨hreturned, hwritten⟩ := Prod.mk.inj hbytes
  have := h Unit _ s hs
  rw [hreturned, hwritten] at this
  revert this
  decide

/-! ## Reads inside the handler -/

/-- a call has found the cache empty, or has emptied it -/
def Call.Behind (c : Call) (empty : Bool) : Prop := c.pc = .peek ∨ c.pc = .loop ∨ c.pc = .wait → empty = true

/-- only the handler reads -/
structure Inside (s : St T) : Prop where
  inv : Inv s
  others : ∀ t, s.call (some t) = none
  handler : ∀ c, s.call none = some c → s.service.inHandler = true ∧ c.Behind s.cacheEmpty

/-- a call of another thread -/
def Op.outside : Op T → Bool
  | .read t _ _ => t.isSome
  | _ => false

omit [DecidableEq T] in
theorem Inside.no_call (h : Inside s) (hs : s.service.inHandler = false) : s.call none = none := by
  cases hc : s.call none with
  | none => rfl
  | some c =>
    have := (h.handler c hc).1
    rw [hs] at this
    cases this

/-- a turn changes its own call only, and keeps the cache as the call has found it -/
theorem turn_call (ht : turn s t peeked c = some s') (hb : c.Behind s.cacheEmpty) :
    s'.service = s.service ∧ ∃ x, s'.call = update s.call t x ∧ ∀ c', x = some c' → c'.Behind s'.cacheEmpty := by
  cases hp : c.pc with
  | test =>
    simp only [turn, hp] at ht
    cases ht
    refine ⟨rfl, _, rfl, ?_⟩
    intro c' hc' hpc
    cases hc'
    show s.cacheEmpty = true
    by_contra he
    simp [he] at hpc
  | copy =>
    simp only [turn, hp] at ht
    cases ht
    refine ⟨rfl, _, rfl, ?_⟩
    intro c' hc' hpc
    cases hc'
    simp at hpc
  | clear =>
    simp only [turn, hp] at ht
    cases ht
    exact ⟨rfl, _, rfl, fun c' hc' _ => rfl⟩
  | peek =>
    have he : s.cacheEmpty = true := hb (Or.inl hp)
    simp only [turn, hp] at ht
    split_ifs at ht
    all_goals cases ht
    all_goals exact ⟨rfl, _, rfl, fun c' hc' _ => he⟩
  | loop =>
    have he : s.cacheEmpty = true := hb (Or.inr (Or.inl hp))
    simp only [turn, hp] at ht
    split_ifs at ht
    all_goals cases ht
    all_goals exact ⟨rfl, _, rfl, fun c' hc' _ => he⟩
  | wait =>
    have he : s.cacheEmpty = true := hb (Or.inr (Or.inr hp))
    simp only [turn, hp] at ht
    obtain ⟨n, -, rfl⟩ := Option.map_eq_some_iff.1 ht
    split_ifs
    · exact ⟨rfl, _, rfl, fun c' hc' _ => he⟩
    · exact ⟨rfl, _, rfl, fun c' hc' _ => he⟩

theorem Phase.of_handler (hs : service.inHandler = true) (h : Phase byte0 armed packets empty service side) :
    armed = false ∧ packets = 0 := by
  cases h with
  | quiet => exact ⟨rfl, rfl⟩
  | full => exact ⟨rfl, rfl⟩
  | _ => cases hs

omit [DecidableEq T] in
/-- a ReadFile of the handler finds nothing at the side -/
theorem Inside.quiet (h : Inside s) (hc : s.call none = some c) (hp : c.pc = .loop) : Quiet s := by
  obtain ⟨hs, hb⟩ := h.handler c hc
  obtain ⟨cur, own, armed, side, bytes, hshape⟩ := h.inv
  obtain ⟨rfl, hpackets⟩ := hshape.phase.of_handler hs
  have hrequests := hshape.requests
  have hcalls := hshape.calls
  refine ⟨?_, hpackets, hb (Or.inr (Or.inl hp))⟩
  cases hshape.own with
  | pending => rw [hrequests]; simp
  | _ => rw [hrequests]; exact List.not_mem_nil

theorem Inside.allowed (h : Inside s) (hstep : step s o = some s') : Allowed s o := by
  cases (step_eq hstep).2 with
  | @turn t peeked c _ hc ht =>
    cases t with
    | some t => rw [h.others t] at hc; cases hc
    | none =>
      intro c hc _
      refine ⟨?_, h.quiet hc⟩
      intro t' ht' c' hc'
      cases t' with
      | none => exact absurd rfl ht'
      | some t' => rw [h.others t'] at hc'; cases hc'
  | _ => trivial

omit [DecidableEq T] in
/-- a step that leaves the calls alone, and the thread of the service unless no call is in progress -/
theorem Inside.keep (h : Inside s) (hinv : Inv s') (hcall : s'.call = s.call)
    (hcache : s.call none = none ∨ s'.service = s.service ∧ s'.cacheEmpty = s.cacheEmpty) : Inside s' := by
  refine ⟨hinv, ?_, ?_⟩
  · intro t
    rw [hcall]
    exact h.others t
  · intro c hc
    rw [hcall] at hc
    rcases hcache with hnone | ⟨hs, he⟩
    · rw [hnone] at hc; cases hc
    · rw [hs, he]
      exact h.handler c hc

/-- a step of the handler's own call -/
theorem Inside.moved (h : Inside s) (hinv : Inv s') {x : Option Call} (hcall : s'.call = update s.call none x)
    (hx : ∀ c, x = some c → s'.service.inHandler = true ∧ c.Behind s'.cacheEmpty) : Inside s' := by
  refine ⟨hinv, ?_, ?_⟩
  · intro t
    rw [hcall, update_of_ne (Option.some_ne_none t)]
    exact h.others t
  · intro c hc
    rw [hcall, update_self] at hc
    exact hx c hc

theorem step_inside (h : Inside s) (ho : o.outside = false) (hstep : step s o = some s') : Inside s' := by
  have hinv := step_inv h.inv (h.allowed hstep) hstep
  cases (step_eq hstep).2 with
  | write => exact h.keep hinv rfl (Or.inr ⟨rfl, rfl⟩)
  | completeCache hr hu => exact h.keep hinv rfl (Or.inr ⟨rfl, rfl⟩)
  | @completeSync t offset size requests k hr h0 hk hu =>
    cases t with
    | some t =>
      refine h.keep hinv ?_ (Or.inr ⟨rfl, rfl⟩)
      show update s.call (some t) _ = s.call
      rw [h.others t, Option.map_none, ← h.others t]
      exact update_eq_self _ _
    | none =>
      refine h.moved hinv rfl ?_
      intro c hc
      obtain ⟨c', hc', rfl⟩ := Option.map_eq_some_iff.1 hc
      exact h.handler c' hc'
  | notify hs hp => exact h.keep hinv rfl (Or.inl (h.no_call (by rw [hs]; rfl)))
  | onRead hs => exact h.keep hinv rfl (Or.inl (h.no_call (by rw [hs]; rfl)))
  | onReadReturn hs hc => exact h.keep hinv rfl (Or.inl hc)
  | trigger hs he => exact h.keep hinv rfl (Or.inl (h.no_call (by rw [hs]; rfl)))
  | triggerAbort hs he => exact h.keep hinv rfl (Or.inl (h.no_call (by rw [hs]; rfl)))
  | @read t buffer lpCnt hc hb hh =>
    cases t with
    | some t => cases ho
    | none =>
      refine h.moved hinv rfl ?_
      intro c hc
      cases hc
      exact ⟨hh rfl, fun hp => by simp at hp⟩
  | @turn t peeked c _ hc ht =>
    cases t with
    | some t => rw [h.others t] at hc; cases hc
    | none =>
      obtain ⟨hs, hb⟩ := h.handler c hc
      obtain ⟨hservice, x, hcall, hx⟩ := turn_call ht hb
      exact h.moved hinv hcall fun c' hc' => ⟨by rw [hservice]; exact hs, hx c' hc'⟩

/-- **Reads inside `on_read`.** A run in which only the handler reads is one of those. -/
theorem on_read_suffices (ops : List (Op T)) (s : St T) (ho : ∀ o ∈ ops, o.outside = false)
    (hr : (pipe T).run (init T) ops = some s) : (pipe T).Along Allowed (init T) ops := by
  have hinit : Inside (init T) := by
    refine ⟨init_inv, fun _ => rfl, ?_⟩
    intro c hc
    cases hc
  have hnext : ∀ s o s', Inside s → o.outside = false → (pipe T).step s o = some s' → Allowed s o ∧ Inside s' := by
    intro s o s' hI ho hstep
    exact ⟨hI.allowed hstep, step_inside hI ho hstep⟩
  exact (pipe T).along_of_run hnext hinit ho hr

end Hodgepodge.Ipc.NamedPipe
