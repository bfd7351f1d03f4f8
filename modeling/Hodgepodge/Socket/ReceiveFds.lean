/-
`receiveFdsThroughSocket` (SocketHelper.cpp) on a socket that carries any messages. The loop sets the message header and
the control buffer up once, and reads `*(int*)CMSG_DATA(cmsg)` after every recvmsg that returns data; it does not look
at what recvmsg put into `msg.msg_controllen`. A message without a descriptor leaves the buffer as it is, so the loop
stores what stood there before: the descriptor of the message before, or memory that was never set. It also leaves
`msg_controllen` at 0, so that the kernel discards the descriptor of every later message.

A call that fails after it has stored descriptors returns 0 or -1, as its comment says, and leaves them open.

Model: one call; the list holds what its recvmsg calls did, up to the one with which it returns. A descriptor is
installed under a number that is free; nobody else opens or closes descriptors meanwhile. `data` starts as any int.

Results:
- `arrive_eq`: what a message does to the control buffer.
- `stores_own_iff`: every stored value is the descriptor of its own message, and none is stored twice, exactly if every
  message brought one, or the first brought none and the buffer held a negative int.
- `stores_twice`: a message with a descriptor, then one without.
- `failing_keeps_opened_iff`: a call that returns 0 or -1 leaves the open descriptors as they were exactly if its first
  message brought none.
- `failing_leaks`: a message with a descriptor, then the end of the stream.
-/
import Mathlib.Data.List.Nodup
import Hodgepodge.Core.Loop
import Hodgepodge.Socket.Descriptors

namespace Hodgepodge.SocketHelper.Receive

open Function Hodgepodge.Core

/-! ## Model -/

/-- what recvmsg does; `record fd`: a message with an SCM_RIGHTS record that is delivered as `fd` -/
inductive Outcome where
  | record (fd : Int)
  | plain
  | eof
  | error (errno : Int)
deriving DecidableEq

def Outcome.isMessage : Outcome → Bool
  | .record _ | .plain => true
  | .eof | .error _ => false

/-- the variables of the loop, and the open descriptors of the process -/
structure Call where
  /-- `msg.msg_controllen` -/
  controllen : ℕ
  /-- `*(int*)CMSG_DATA(cmsg)` -/
  data : Int
  /-- `fds[0], …, fds[cnt - 1]`, each with the descriptor that its recvmsg installed -/
  stores : List (Int × Option Int)
  opened : Int → Bool

/-- the control part of a message that has a record -/
def install (c : Call) (fd : Int) : Option (Call × Option Int) :=
  if c.controllen < cmsgLen then some ({ c with controllen := 0 }, none)
  else if fd < 0 then some ({ c with controllen := cmsgLen, data := fd }, none)
  else if c.opened fd then none
  else some ({ c with controllen := cmsgLen, data := fd, opened := update c.opened fd true }, some fd)

/-- the control part of a message, and the descriptor that was installed -/
def arrive (c : Call) : Outcome → Option (Call × Option Int)
  | .record fd => install c fd
  | .plain => some ({ c with controllen := 0 }, none)
  | .eof | .error _ => none

/-- `fds[cnt] = rfd; cnt++` -/
def Call.push (c : Call) (own : Option Int) : Call := { c with stores := c.stores ++ [(c.data, own)] }

/-- the loop body after a recvmsg that returned data, and the condition of the loop -/
def store (fdNum : Int) (c : Call) (own : Option Int) : Turn Call (Int × Call) :=
  if c.data < 0 then .out (-1, c)
  else if ((c.push own).stores.length : Int) < fdNum then .on (c.push own)
  else .out ((c.push own).stores.length, c.push own)

def turn (fdNum : Int) (c : Call) : Outcome → Option (Turn Call (Int × Call))
  | .eof => some (.out (0, c))
  | .error errno => if errno ≤ 0 then none else if hardError errno then some (.out (-1, c)) else some (.on c)
  | o => (arrive c o).map fun (c, own) => store fdNum c own

/-- the return value, and what the call leaves; `fds == NULL` is a call with `fdNum = 0` -/
def receiveFdsThroughSocket (socket fdNum data : Int) (opened : Int → Bool) (outcomes : List Outcome) :
    Option (Int × Call) :=
  if socket ≤ 0 ∨ fdNum ≤ 0 then if outcomes = [] then some (-1, ⟨cmsgLen, data, [], opened⟩) else none
  else Turn.loop (turn fdNum) ⟨cmsgLen, data, [], opened⟩ outcomes

/-! ## A turn -/

variable {fdNum v : Int} {c c' a : Call} {o : Outcome} {own : Option Int}

/-- no descriptor: nothing was sent, or there was no room for it; an int that is no descriptor; a new descriptor -/
theorem arrive_eq (h : arrive c o = some (a, own)) :
    ((o = .plain ∨ c.controllen < cmsgLen) ∧ a = { c with controllen := 0 } ∧ own = none) ∨
      ∃ fd, o = .record fd ∧ cmsgLen ≤ c.controllen ∧
        (fd < 0 ∧ a = { c with controllen := cmsgLen, data := fd } ∧ own = none ∨
          0 ≤ fd ∧ c.opened fd = false ∧ own = some fd ∧
            a = { c with controllen := cmsgLen, data := fd, opened := update c.opened fd true }) := by
  cases o with
  | record fd =>
    simp only [arrive, install] at h
    split_ifs at h with hroom hneg hopen
    · cases h; exact Or.inl ⟨Or.inr hroom, rfl, rfl⟩
    · cases h; exact Or.inr ⟨_, rfl, Nat.not_lt.1 hroom, Or.inl ⟨hneg, rfl, rfl⟩⟩
    · cases h
      exact Or.inr ⟨_, rfl, Nat.not_lt.1 hroom, Or.inr ⟨Int.not_lt.1 hneg, by simpa using hopen, rfl, rfl⟩⟩
  | plain => cases h; exact Or.inl ⟨Or.inl rfl, rfl, rfl⟩
  | eof => cases h
  | error errno => cases h

theorem arrive_stores (h : arrive c o = some (a, own)) : a.stores = c.stores := by
  rcases arrive_eq h with ⟨-, rfl, -⟩ | ⟨fd, -, -, ⟨-, rfl, -⟩ | ⟨-, -, -, rfl⟩⟩ <;> rfl

theorem arrive_push (h : arrive c o = some (a, own)) : ∀ e ∈ c.stores, e ∈ (a.push own).stores := by
  intro e he
  rw [Call.push, arrive_stores h]
  exact List.mem_append_left _ he

theorem store_on (h : store fdNum c own = .on c') : 0 ≤ c.data ∧ c' = c.push own := by
  simp only [store] at h
  split_ifs at h with hneg hcnt
  cases h
  exact ⟨Int.not_lt.1 hneg, rfl⟩

theorem store_out (h : store fdNum c own = .out (v, c')) :
    c.data < 0 ∧ c' = c ∨ 0 ≤ c.data ∧ c' = c.push own ∧ 0 < v := by
  simp only [store] at h
  split_ifs at h with hneg hcnt
  · cases h; exact Or.inl ⟨hneg, rfl⟩
  · cases h
    refine Or.inr ⟨Int.not_lt.1 hneg, rfl, ?_⟩
    simp only [Call.push, List.length_append, List.length_singleton]
    omega

theorem turn_message (h : o.isMessage = true) :
    turn fdNum c o = (arrive c o).map fun (c, own) => store fdNum c own := by
  cases o with
  | record fd => rfl
  | plain => rfl
  | eof => cases h
  | error errno => cases h

theorem turn_silent {t : Turn Call (Int × Call)} (h : o.isMessage = false) (ht : turn fdNum c o = some t) :
    t = .on c ∨ ∃ v, t = .out (v, c) := by
  cases o with
  | record fd => cases h
  | plain => cases h
  | eof => cases ht; exact Or.inr ⟨0, rfl⟩
  | error errno =>
    simp only [turn] at ht
    split_ifs at ht
    · cases ht; exact Or.inr ⟨-1, rfl⟩
    · cases ht; exact Or.inl rfl

/-- the turns that go on: nothing happened, or a message came and a value that is not negative was stored -/
theorem turn_on (h : turn fdNum c o = some (.on c')) :
    o.isMessage = false ∧ c' = c ∨
      ∃ a own, o.isMessage = true ∧ arrive c o = some (a, own) ∧ 0 ≤ a.data ∧ c' = a.push own := by
  cases hm : o.isMessage with
  | false =>
    rcases turn_silent hm h with h | ⟨v, h⟩
    · cases h; exact Or.inl ⟨rfl, rfl⟩
    · cases h
  | true =>
    rw [turn_message hm] at h
    obtain ⟨⟨a, own⟩, ha, hs⟩ := Option.map_eq_some_iff.1 h
    exact Or.inr ⟨a, own, rfl, ha, store_on hs⟩

/-- the turns that return: without a message, on a negative value, or with the last value stored -/
theorem turn_out (h : turn fdNum c o = some (.out (v, c'))) :
    o.isMessage = false ∧ c' = c ∨
      ∃ a own, o.isMessage = true ∧ arrive c o = some (a, own) ∧
        (a.data < 0 ∧ c' = a ∨ 0 ≤ a.data ∧ c' = a.push own ∧ 0 < v) := by
  cases hm : o.isMessage with
  | false =>
    rcases turn_silent hm h with h | ⟨v, h⟩
    · cases h
    · cases h; exact Or.inl ⟨rfl, rfl⟩
  | true =>
    rw [turn_message hm] at h
    obtain ⟨⟨a, own⟩, ha, hs⟩ := Option.map_eq_some_iff.1 h
    exact Or.inr ⟨a, own, rfl, ha, store_out hs⟩

/-! ## Stored values -/

/-- the first message of the outcomes -/
def firstMessage (outcomes : List Outcome) : Option Outcome := outcomes.find? Outcome.isMessage

variable {before : List Outcome}

theorem first_silent (h : o.isMessage = false) : firstMessage (before ++ [o]) = firstMessage before := by
  simp [firstMessage, List.find?_append, h]

theorem first_message (h : o.isMessage = true) :
    firstMessage (before ++ [o]) = some ((firstMessage before).getD o) := by
  simp only [firstMessage, List.find?_append, List.find?_cons_of_pos h]
  cases before.find? Outcome.isMessage <;> rfl

/-- every stored value is the descriptor that its own recvmsg installed, and none is stored twice -/
def OwnStores (stores : List (Int × Option Int)) : Prop :=
  (∀ e ∈ stores, e.2 = some e.1) ∧ (stores.map Prod.fst).Nodup

/-- every message brought a descriptor, or the first one brought none and the buffer held a negative int -/
def Brought (data : Int) (outcomes : List Outcome) : Prop :=
  .plain ∉ outcomes ∨ data < 0 ∧ firstMessage outcomes = some .plain

/-- so far every message brought a descriptor -/
structure Own (data : Int) (before : List Outcome) (c : Call) : Prop where
  plain : .plain ∉ before
  controllen : c.controllen = cmsgLen
  stores : OwnStores c.stores
  opened : ∀ e ∈ c.stores, c.opened e.1 = true
  first : firstMessage before = none → c.data = data
  later : firstMessage before ≠ none → 0 ≤ c.data

/-- a value was stored that its message did not bring -/
structure Foreign (data : Int) (before : List Outcome) (c : Call) : Prop where
  stores : ∃ e ∈ c.stores, e.2 ≠ some e.1
  plain : ¬ Brought data before
  message : firstMessage before ≠ none

variable {data : Int}

theorem Foreign.snoc (h : Foreign data before c) (hs : ∀ e ∈ c.stores, e ∈ c'.stores) (o : Outcome) :
    Foreign data (before ++ [o]) c' := by
  obtain ⟨e, he, hne⟩ := h.stores
  have hfirst : firstMessage (before ++ [o]) = firstMessage before := by
    cases hm : o.isMessage with
    | false => exact first_silent hm
    | true =>
      obtain ⟨m, hm'⟩ := Option.ne_none_iff_exists'.1 h.message
      rw [first_message hm, hm', Option.getD_some]
  refine ⟨⟨e, hs e he, hne⟩, ?_, hfirst ▸ h.message⟩
  intro hb
  apply h.plain
  rcases hb with hb | ⟨hneg, hb⟩
  · exact Or.inl fun hp => hb (List.mem_append_left _ hp)
  · exact Or.inr ⟨hneg, hfirst ▸ hb⟩

theorem Own.silent (h : Own data before c) (ho : o.isMessage = false) : Own data (before ++ [o]) c := by
  refine ⟨?_, h.controllen, h.stores, h.opened, ?_, ?_⟩
  · intro hp
    rcases List.mem_append.1 hp with hp | hp
    · exact h.plain hp
    · rw [← List.mem_singleton.1 hp] at ho; cases ho
  · rw [first_silent ho]; exact h.first
  · rw [first_silent ho]; exact h.later

/-- a message whose value is stored -/
theorem Own.push (h : Own data before c) (ha : arrive c o = some (a, own)) (hd : 0 ≤ a.data) (ho : o.isMessage = true) :
    Own data (before ++ [o]) (a.push own) ∨ Foreign data (before ++ [o]) (a.push own) := by
  rcases arrive_eq ha with ⟨hplain, rfl, rfl⟩ | ⟨fd, rfl, -, ⟨hneg, rfl, -⟩ | ⟨hpos, hfree, rfl, rfl⟩⟩
  · -- the value of the message before, or what stood in the buffer at the start
    obtain rfl : o = .plain := hplain.resolve_right (by rw [h.controllen]; exact Nat.lt_irrefl _)
    refine Or.inr ⟨⟨(c.data, none), by simp [Call.push], by simp⟩, ?_, by rw [first_message ho]; simp⟩
    rintro (hb | ⟨hneg, hb⟩)
    · exact hb (by simp)
    · rw [first_message ho, Option.some.injEq] at hb
      cases hf : firstMessage before with
      | none =>
        have hdata := h.first hf
        simp only at hd
        omega
      | some m =>
        rw [hf, Option.getD_some] at hb
        subst hb
        exact h.plain (List.mem_of_find?_eq_some hf)
  · exact absurd hneg (Int.not_lt.2 hd)
  · have hnew : fd ∉ c.stores.map Prod.fst := by
      intro hm
      obtain ⟨e, he, rfl⟩ := List.mem_map.1 hm
      rw [h.opened e he] at hfree
      cases hfree
    refine Or.inl ⟨?_, rfl, ⟨?_, ?_⟩, ?_, ?_, fun _ => hpos⟩
    · simp [h.plain]
    · simp only [Call.push, List.forall_mem_append, List.forall_mem_singleton]
      exact ⟨h.stores.1, trivial⟩
    · simp only [Call.push, List.map_append, List.map_cons, List.map_nil]
      rw [List.nodup_append]
      refine ⟨h.stores.2, List.nodup_singleton _, ?_⟩
      intro x hx y hy hxy
      rw [List.mem_singleton] at hy
      rw [hxy, hy] at hx
      exact hnew hx
    · simp only [Call.push, List.forall_mem_append, List.forall_mem_singleton, update_self, and_true]
      intro e he
      have hne : e.1 ≠ fd := fun heq => hnew (heq ▸ List.mem_map_of_mem (f := Prod.fst) he)
      rw [update_of_ne hne]
      exact h.opened e he
    · rw [first_message ho]
      exact fun h => by cases h

/-- a message whose value is negative: a negative int, or none of its own and the buffer was never set -/
theorem Own.refused (h : Own data before c) (ha : arrive c o = some (a, own)) (hd : a.data < 0)
    (ho : o.isMessage = true) : OwnStores a.stores ∧ Brought data (before ++ [o]) := by
  rw [arrive_stores ha]
  refine ⟨h.stores, ?_⟩
  rcases arrive_eq ha with ⟨hplain, rfl, -⟩ | ⟨fd, rfl, -, -⟩
  · obtain rfl : o = .plain := hplain.resolve_right (by rw [h.controllen]; exact Nat.lt_irrefl _)
    have hnone : firstMessage before = none := by
      by_contra hf
      exact absurd hd (Int.not_lt.2 (h.later hf))
    refine Or.inr ⟨h.first hnone ▸ hd, ?_⟩
    rw [first_message ho, hnone, Option.getD_none]
  · exact Or.inl (by simp [h.plain])

theorem Own.brought (h : Own data before c) : OwnStores c.stores ↔ Brought data before :=
  iff_of_true h.stores (Or.inl h.plain)

theorem Foreign.brought (h : Foreign data before c) : OwnStores c.stores ↔ Brought data before := by
  obtain ⟨e, he, hne⟩ := h.stores
  exact iff_of_false (fun ho => hne (ho.1 e he)) h.plain

/-- **Stored values.** A call of any `fdNum`, on any socket and any messages, errors and ends: every value that it
stores is the descriptor that its own recvmsg installed, and none is stored twice, exactly if every message brought a
descriptor, or the first message brought none and the control buffer held a negative int before the call. -/
theorem stores_own_iff (socket fdNum data : Int) (opened : Int → Bool) (outcomes : List Outcome) (v : Int) (c : Call)
    (hr : receiveFdsThroughSocket socket fdNum data opened outcomes = some (v, c)) :
    OwnStores c.stores ↔ Brought data outcomes := by
  unfold receiveFdsThroughSocket at hr
  split_ifs at hr with hguard hnil
  · cases hr
    subst hnil
    exact iff_of_true ⟨List.forall_mem_nil _, List.nodup_nil⟩ (Or.inl List.not_mem_nil)
  have hstart : Own data [] ⟨cmsgLen, data, [], opened⟩ :=
    ⟨List.not_mem_nil, rfl, ⟨List.forall_mem_nil _, List.nodup_nil⟩, List.forall_mem_nil _, fun _ => rfl,
      fun h => absurd rfl h⟩
  have hend := Turn.loop_ends (P := fun before c => Own data before c ∨ Foreign data before c)
    (fun before c o c' h ht => by
      rcases turn_on ht with ⟨ho, rfl⟩ | ⟨a, own, ho, ha, hd, rfl⟩
      · exact h.imp (·.silent ho) (·.snoc (fun _ => id) o)
      · rcases h with h | h
        · exact h.push ha hd ho
        · exact Or.inr (h.snoc (arrive_push ha) o)) (Or.inl hstart) hr
  obtain ⟨before, last, c₁, rfl, hinv, hlast⟩ := hend
  rcases turn_out hlast with ⟨ho, rfl⟩ | ⟨a, own, ho, ha, hout⟩
  · exact hinv.elim (fun h => (h.silent ho).brought) (fun h => (h.snoc (fun _ => id) last).brought)
  rcases hinv with h | h
  · rcases hout with ⟨hd, rfl⟩ | ⟨hd, rfl, -⟩
    · exact iff_of_true (h.refused ha hd ho).1 (h.refused ha hd ho).2
    · exact (h.push ha hd ho).elim Own.brought Foreign.brought
  · rcases hout with ⟨-, rfl⟩ | ⟨-, rfl, -⟩
    · exact (h.snoc (fun e he => (arrive_stores ha).symm ▸ he) last).brought
    · exact (h.snoc (arrive_push ha) last).brought

/-- two descriptors, with an interrupted call between them -/
theorem two_records :
    ∃ c, receiveFdsThroughSocket 4 2 0 (fun _ => false) [.record 5, .error EINTR, .record 6] = some (2, c) ∧
      OwnStores c.stores :=
  ⟨_, rfl, (stores_own_iff 4 2 0 (fun _ => false) [.record 5, .error EINTR, .record 6] 2 _ rfl).2
    (Or.inl (by decide))⟩

/-- **A descriptor is stored twice.** The second message brings none; the call counts the first one again. -/
theorem stores_twice :
    ¬ ∀ (socket fdNum data : Int) (opened : Int → Bool) (outcomes : List Outcome) (v : Int) (c : Call),
        receiveFdsThroughSocket socket fdNum data opened outcomes = some (v, c) → OwnStores c.stores := by
  intro h
  have := (h 4 2 0 (fun _ => false) [.record 5, .plain] 2 _ rfl).2
  revert this
  decide

/-! ## Open descriptors -/

/-- no message has come; the first brought a descriptor, which is open now; the first brought none, and no later
message can bring one -/
inductive Opened (opened : Int → Bool) (before : List Outcome) (c : Call) : Prop where
  | fresh (first : firstMessage before = none) (same : c.opened = opened) (room : c.controllen = cmsgLen)
  | grown (first : ∃ fd, 0 ≤ fd ∧ firstMessage before = some (.record fd))
      (more : ∃ fd, opened fd = false ∧ c.opened fd = true)
  | closed (first : firstMessage before = some .plain) (same : c.opened = opened) (room : c.controllen = 0)

variable {opened : Int → Bool}

/-- the first message brings no descriptor -/
def FirstBringsNone (outcomes : List Outcome) : Prop := ∀ fd, 0 ≤ fd → firstMessage outcomes ≠ some (.record fd)

theorem Opened.keeps_iff (h : Opened opened before c) : c.opened = opened ↔ FirstBringsNone before := by
  cases h with
  | fresh first same room => exact iff_of_true same fun fd _ hf => by rw [first] at hf; cases hf
  | grown first more =>
    obtain ⟨fd, hfd, hf⟩ := first
    obtain ⟨x, hx, hx'⟩ := more
    refine iff_of_false (fun heq => ?_) fun hnone => hnone fd hfd hf
    rw [heq, hx] at hx'
    cases hx'
  | closed first same room => exact iff_of_true same fun fd _ hf => by rw [first] at hf; cases hf

theorem Opened.silent (h : Opened opened before c) (ho : o.isMessage = false) : Opened opened (before ++ [o]) c := by
  have hfirst : firstMessage (before ++ [o]) = firstMessage before := first_silent ho
  cases h with
  | fresh first same room => exact .fresh (hfirst.trans first) same room
  | grown first more => exact .grown (first.imp fun fd h => ⟨h.1, hfirst.trans h.2⟩) more
  | closed first same room => exact .closed (hfirst.trans first) same room

theorem first_stays {m : Outcome} (ho : o.isMessage = true) (h : firstMessage before = some m) :
    firstMessage (before ++ [o]) = some m := by
  rw [first_message ho, h, Option.getD_some]

/-- a message, apart from a first one that brings a negative int -/
theorem Opened.message (h : Opened opened before c) (ha : arrive c o = some (a, own)) (ho : o.isMessage = true) :
    Opened opened (before ++ [o]) a ∨ a.data < 0 ∧ a.opened = opened ∧ FirstBringsNone (before ++ [o]) := by
  have hcases := arrive_eq ha
  cases h with
  | fresh first same room =>
    have hfirst : firstMessage (before ++ [o]) = some o := by rw [first_message ho, first, Option.getD_none]
    rcases hcases with ⟨hplain, rfl, -⟩ | ⟨fd, rfl, -, ⟨hneg, rfl, -⟩ | ⟨hpos, hfree, -, rfl⟩⟩
    · obtain rfl : o = .plain := hplain.resolve_right (by rw [room]; exact Nat.lt_irrefl _)
      exact Or.inl (.closed hfirst same rfl)
    · refine Or.inr ⟨hneg, same, fun fd' hfd' hf => ?_⟩
      rw [hfirst] at hf
      cases hf
      exact absurd hneg (Int.not_lt.2 hfd')
    · exact Or.inl (.grown ⟨fd, hpos, hfirst⟩ ⟨fd, same ▸ hfree, update_self ..⟩)
  | grown first more =>
    obtain ⟨fd, hfd, hf⟩ := first
    obtain ⟨x, hx, hx'⟩ := more
    refine Or.inl (.grown ⟨fd, hfd, first_stays ho hf⟩ ⟨x, hx, ?_⟩)
    rcases hcases with ⟨-, rfl, -⟩ | ⟨fd', -, -, ⟨-, rfl, -⟩ | ⟨-, -, -, rfl⟩⟩
    · exact hx'
    · exact hx'
    · by_cases hxf : x = fd'
      · rw [hxf]; exact update_self ..
      · simp only [update_of_ne hxf, hx']
  | closed first same room =>
    rcases hcases with ⟨-, rfl, -⟩ | ⟨fd, -, hroom, -⟩
    · exact Or.inl (.closed (first_stays ho first) same rfl)
    · rw [room] at hroom
      exact absurd hroom (by decide)

theorem Opened.push (h : Opened opened before c) (own : Option Int) : Opened opened before (c.push own) := by
  cases h with
  | fresh first same room => exact .fresh first same room
  | grown first more => exact .grown first more
  | closed first same room => exact .closed first same room

/-- **What a failing call leaves open.** For every `fdNum` and all outcomes of recvmsg that end in a return value of 0
or -1: the descriptors that are open afterwards are those that were open before exactly if the first message of the
call, if there was one, brought no descriptor. -/
theorem failing_keeps_opened_iff (socket fdNum data : Int) (opened : Int → Bool) (outcomes : List Outcome) (v : Int)
    (c : Call) (hr : receiveFdsThroughSocket socket fdNum data opened outcomes = some (v, c)) (hv : v = 0 ∨ v = -1) :
    c.opened = opened ↔ FirstBringsNone outcomes := by
  unfold receiveFdsThroughSocket at hr
  split_ifs at hr with hguard hnil
  · cases hr
    subst hnil
    exact iff_of_true rfl fun fd _ hf => by cases hf
  have hend := Turn.loop_ends (P := Opened opened)
    (fun before c o c' h ht => by
      rcases turn_on ht with ⟨ho, rfl⟩ | ⟨a, own, ho, ha, hd, rfl⟩
      · exact h.silent ho
      · exact ((h.message ha ho).resolve_right fun hneg => absurd hneg.1 (Int.not_lt.2 hd)).push own)
    (.fresh rfl rfl rfl) hr
  obtain ⟨before, last, c₁, rfl, hinv, hlast⟩ := hend
  rcases turn_out hlast with ⟨ho, rfl⟩ | ⟨a, own, ho, ha, ⟨hd, rfl⟩ | ⟨-, -, hpos⟩⟩
  · exact (hinv.silent ho).keeps_iff
  · rcases hinv.message ha ho with h | ⟨-, hsame, hnone⟩
    · exact h.keeps_iff
    · exact iff_of_true hsame hnone
  · omega

/-- the first message brings no descriptor, and the memory of the control buffer is negative -/
theorem refused_at_once :
    ∃ c, receiveFdsThroughSocket 4 2 (-1) (fun _ => false) [.error EAGAIN, .plain] = some (-1, c) ∧
      c.opened = fun _ => false :=
  ⟨_, rfl, (failing_keeps_opened_iff 4 2 (-1) (fun _ => false) [.error EAGAIN, .plain] (-1) _ rfl (Or.inr rfl)).2
    fun fd _ hf => by cases hf⟩

/-- **A failing call leaks.** One descriptor comes, then the end of the stream: 0, and the descriptor stays open. -/
theorem failing_leaks :
    ¬ ∀ (socket fdNum data : Int) (opened : Int → Bool) (outcomes : List Outcome) (v : Int) (c : Call),
        receiveFdsThroughSocket socket fdNum data opened outcomes = some (v, c) → v = 0 ∨ v = -1 →
          c.opened = opened := by
  intro h
  have := congrFun (h 4 2 0 (fun _ => false) [.record 5, .eof] 0 _ rfl (Or.inl rfl)) 5
  revert this
  decide

end Hodgepodge.SocketHelper.Receive
