/-
`sendFdsThroughSocket` and `receiveFdsThroughSocket` (SocketHelper.cpp). A sender puts one descriptor after the other into
its control buffer and calls sendmsg until that succeeds; a receiver calls recvmsg into one control buffer and stores
what it finds there. Both keep one msghdr for all their system calls, and recvmsg writes the control length that it
filled back into it: a length that is too short for a descriptor would lose the next one.

Model: one process at each end, each with any sequence of calls; every system call and every access to a control buffer
is a step of its own. A descriptor in flight is the open file that it stood for when it was sent; the receiver gets it
under a number that is free. sendmsg and recvmsg can fail with EINTR or EAGAIN at any time. What else the processes do
with their descriptors, opening and closing, is up to the run, except that nobody touches a received descriptor before
its call has stored it. A call has a positive socket, an array and at least one element: the others are refused at once
with EINVAL, which is one of the other errors.

Results:
- `Step`, `step_eq`: the inversion of every operation.
- `Inv`, `step_inv`: the control length stays, and what was sent is what was received, then what is in flight.
- `descriptors_in_order`: for every run.
-/
import Mathlib.Algebra.Group.Int.Defs
import Mathlib.Logic.Function.Basic
import Hodgepodge.Core.Lts

namespace Hodgepodge.SocketHelper

open Function Hodgepodge.Core

/-! ## The two loops -/

/-- `CMSG_LEN(sizeof(int))` -/
def cmsgLen : ℕ := 20

/-- a call of sendFdsThroughSocket; `fds` has `fdNum` elements -/
structure SendCall where
  fds : List Int
  cnt : ℕ
  /-- `*(int *)CMSG_DATA(cmsg)` -/
  data : Int
  /-- `fds[cnt]` is in the control buffer -/
  filled : Bool
deriving DecidableEq

/-- a call of receiveFdsThroughSocket -/
structure ReceiveCall where
  fdNum : ℕ
  cnt : ℕ
  /-- `msg.msg_controllen` -/
  controllen : ℕ
  data : Int
  /-- recvmsg has succeeded -/
  filled : Bool
deriving DecidableEq

structure St (F : Type*) where
  /-- the open files of the two processes, by descriptor -/
  senderFiles : Int → Option F
  receiverFiles : Int → Option F
  sender : Option SendCall
  receiver : Option ReceiveCall
  /-- the records in the socket -/
  queue : List F
  /-- the descriptors that the calls were given -/
  asked : List Int
  sent : List (Int × F)
  /-- the descriptors that the calls stored, with their files -/
  received : List (Int × Option F)
  /-- `fdNum` and the return value of every call that has returned -/
  returned : List (ℕ × Int)

inductive Op (F : Type*) where
  /-- the sender opens or closes a descriptor -/
  | open (fd : Int) (file : Option F)
  /-- the receiver opens or closes a descriptor -/
  | reopen (fd : Int) (file : Option F)
  | send (fds : List Int) (data : Int)
  | fill
  /-- `ok`: not EINTR or EAGAIN -/
  | sendmsg (ok : Bool)
  | sendReturn
  | receive (fdNum : ℕ) (data : Int)
  /-- `fd`: the descriptor that the kernel gives out; none: EINTR or EAGAIN -/
  | recvmsg (fd : Option Int)
  | store
  | receiveReturn
deriving DecidableEq

variable {F : Type*}

/-- the descriptor that recvmsg has put into the control buffer -/
def pending (s : St F) : Option Int := s.receiver.bind fun c => if c.filled then some c.data else none

def step (s : St F) : Op F → Option (St F)
  | .open fd file => some { s with senderFiles := update s.senderFiles fd file }
  | .reopen fd file =>
    if pending s = some fd then none else some { s with receiverFiles := update s.receiverFiles fd file }
  | .send fds data =>
    if s.sender = none ∧ fds ≠ [] then some { s with sender := some ⟨fds, 0, data, false⟩, asked := s.asked ++ fds }
    else none
  | .fill => s.sender.bind fun c =>
    if c.filled then none
    else (c.fds[c.cnt]?).map fun fd => { s with sender := some { c with data := fd, filled := true } }
  | .sendmsg ok => s.sender.bind fun c =>
    if c.filled then
      if ok then
        (s.senderFiles c.data).map fun file =>
          { s with
            sender := some { c with cnt := c.cnt + 1, filled := false }
            queue := s.queue ++ [file]
            sent := s.sent ++ [(c.data, file)] }
      else some { s with sender := some { c with filled := false } }
    else none
  | .sendReturn => s.sender.bind fun c =>
    if c.cnt < c.fds.length then none
    else some { s with sender := none, returned := s.returned ++ [(c.fds.length, (c.cnt : Int))] }
  | .receive fdNum data =>
    if s.receiver = none ∧ 0 < fdNum then some { s with receiver := some ⟨fdNum, 0, cmsgLen, data, false⟩ } else none
  | .recvmsg fd => s.receiver.bind fun c =>
    if c.cnt < c.fdNum ∧ c.filled = false then
      match fd, s.queue with
      | none, _ => some s
      | some _, [] => none
      | some fd, file :: queue =>
        if cmsgLen ≤ c.controllen then
          if 0 ≤ fd ∧ (s.receiverFiles fd).isNone then
            some { s with
              receiver := some { c with data := fd, controllen := cmsgLen, filled := true }
              receiverFiles := update s.receiverFiles fd (some file)
              queue := queue }
          else none
        -- no room for a descriptor: MSG_CTRUNC, and it is closed
        else some { s with receiver := some { c with controllen := 0, filled := true }, queue := queue }
    else none
  | .store => s.receiver.bind fun c =>
    if c.filled then
      if c.data < 0 then some { s with receiver := none, returned := s.returned ++ [(c.fdNum, -1)] }
      else
        some { s with
          receiver := some { c with cnt := c.cnt + 1, filled := false }
          received := s.received ++ [(c.data, s.receiverFiles c.data)] }
    else none
  | .receiveReturn => s.receiver.bind fun c =>
    if c.cnt < c.fdNum then none
    else some { s with receiver := none, returned := s.returned ++ [(c.fdNum, (c.cnt : Int))] }

/-- a new socket pair between two processes with open files -/
def socketPair (senderFiles receiverFiles : Int → Option F) : Lts (St F) (Op F) :=
  ⟨⟨senderFiles, receiverFiles, none, none, [], [], [], [], []⟩, step⟩

/-! ## Inversion -/

/-- what one operation does -/
inductive Step (s : St F) : Op F → St F → Prop
  | open {fd file} : Step s (.open fd file) { s with senderFiles := update s.senderFiles fd file }
  | reopen {fd file} (hp : pending s ≠ some fd) :
      Step s (.reopen fd file) { s with receiverFiles := update s.receiverFiles fd file }
  | send {fds data} (hs : s.sender = none) :
      Step s (.send fds data) { s with sender := some ⟨fds, 0, data, false⟩, asked := s.asked ++ fds }
  | fill {c fd} (hs : s.sender = some c) (hfd : c.fds[c.cnt]? = some fd) :
      Step s .fill { s with sender := some { c with data := fd, filled := true } }
  | sendmsg {c file} (hs : s.sender = some c) (hc : c.filled = true) (hf : s.senderFiles c.data = some file) :
      Step s (.sendmsg true) { s with
        sender := some { c with cnt := c.cnt + 1, filled := false }
        queue := s.queue ++ [file]
        sent := s.sent ++ [(c.data, file)] }
  | sendRetry {c} (hs : s.sender = some c) :
      Step s (.sendmsg false) { s with sender := some { c with filled := false } }
  | sendReturn {c} (hs : s.sender = some c) (hc : c.fds.length ≤ c.cnt) :
      Step s .sendReturn { s with sender := none, returned := s.returned ++ [(c.fds.length, (c.cnt : Int))] }
  | receive {fdNum data} (hr : s.receiver = none) :
      Step s (.receive fdNum data) { s with receiver := some ⟨fdNum, 0, cmsgLen, data, false⟩ }
  | receiveRetry : Step s (.recvmsg none) s
  | recvmsg {c fd file queue} (hr : s.receiver = some c) (hn : c.cnt < c.fdNum) (hc : c.filled = false)
      (hq : s.queue = file :: queue) (hfd : 0 ≤ fd) (hfree : s.receiverFiles fd = none) :
      Step s (.recvmsg (some fd)) { s with
        receiver := some { c with data := fd, controllen := cmsgLen, filled := true }
        receiverFiles := update s.receiverFiles fd (some file)
        queue := queue }
  | truncated {c fd file queue} (hr : s.receiver = some c) (hl : c.controllen < cmsgLen) (hq : s.queue = file :: queue) :
      Step s (.recvmsg (some fd)) { s with receiver := some { c with controllen := 0, filled := true }, queue := queue }
  | negative {c} (hr : s.receiver = some c) (hc : c.filled = true) (hd : c.data < 0) :
      Step s .store { s with receiver := none, returned := s.returned ++ [(c.fdNum, -1)] }
  | store {c} (hr : s.receiver = some c) (hc : c.filled = true) :
      Step s .store { s with
        receiver := some { c with cnt := c.cnt + 1, filled := false }
        received := s.received ++ [(c.data, s.receiverFiles c.data)] }
  | receiveReturn {c} (hr : s.receiver = some c) (hc : c.fdNum ≤ c.cnt) :
      Step s .receiveReturn { s with receiver := none, returned := s.returned ++ [(c.fdNum, (c.cnt : Int))] }

variable {s s' : St F} {o : Op F}

theorem step_eq (h : step s o = some s') : Step s o s' := by
  cases o with
  | «open» fd file => cases h; exact .open
  | reopen fd file =>
    simp only [step] at h
    split_ifs at h with hp
    cases h
    exact .reopen hp
  | send fds data =>
    simp only [step] at h
    split_ifs at h with hs
    cases h
    exact .send hs.1
  | fill =>
    simp only [step, Option.bind_eq_some_iff] at h
    obtain ⟨c, hs, h⟩ := h
    split_ifs at h
    obtain ⟨fd, hfd, rfl⟩ := Option.map_eq_some_iff.1 h
    exact .fill hs hfd
  | sendmsg ok =>
    simp only [step, Option.bind_eq_some_iff] at h
    obtain ⟨c, hs, h⟩ := h
    by_cases hc : c.filled = true
    · rw [if_pos hc] at h
      cases ok with
      | true =>
        obtain ⟨file, hf, rfl⟩ := Option.map_eq_some_iff.1 h
        exact .sendmsg hs hc hf
      | false => cases h; exact .sendRetry hs
    · rw [if_neg hc] at h; cases h
  | sendReturn =>
    simp only [step, Option.bind_eq_some_iff] at h
    obtain ⟨c, hs, h⟩ := h
    split_ifs at h with hc
    cases h
    exact .sendReturn hs (Nat.not_lt.1 hc)
  | receive fdNum data =>
    simp only [step] at h
    split_ifs at h with hr
    cases h
    exact .receive hr.1
  | recvmsg fd =>
    simp only [step, Option.bind_eq_some_iff] at h
    obtain ⟨c, hr, h⟩ := h
    by_cases hc : c.cnt < c.fdNum ∧ c.filled = false
    · rw [if_pos hc] at h
      split at h
      · cases h; exact .receiveRetry
      · cases h
      · rename_i fd file queue hq
        split_ifs at h with hl hfd
        · cases h
          exact .recvmsg hr hc.1 hc.2 hq hfd.1 (by simpa using hfd.2)
        · cases h
          exact .truncated hr (Nat.not_le.1 hl) hq
    · rw [if_neg hc] at h; cases h
  | store =>
    simp only [step, Option.bind_eq_some_iff] at h
    obtain ⟨c, hr, h⟩ := h
    split_ifs at h with hc hd
    · cases h; exact .negative hr hc hd
    · cases h; exact .store hr hc
  | receiveReturn =>
    simp only [step, Option.bind_eq_some_iff] at h
    obtain ⟨c, hr, h⟩ := h
    split_ifs at h with hc
    cases h
    exact .receiveReturn hr (Nat.not_lt.1 hc)

/-! ## The invariant -/

/-- what was sent and not yet stored -/
def flight (s : St F) : List (Option F) := (pending s).toList.map s.receiverFiles ++ s.queue.map some

structure Inv (s : St F) : Prop where
  /-- the descriptors of a call are sent from the front -/
  sending : ∀ c, s.sender = some c → c.cnt ≤ c.fds.length ∧ s.asked = s.sent.map Prod.fst ++ c.fds.drop c.cnt ∧
    (c.filled = true → c.fds[c.cnt]? = some c.data)
  idle : s.sender = none → s.asked = s.sent.map Prod.fst
  receiving : ∀ c, s.receiver = some c → c.cnt ≤ c.fdNum ∧ c.controllen = cmsgLen ∧
    (c.filled = true → c.cnt < c.fdNum ∧ 0 ≤ c.data)
  order : s.sent.map (fun x => some x.2) = s.received.map Prod.snd ++ flight s
  returned : ∀ x ∈ s.returned, x.2 = x.1

theorem flight_eq {c : ReceiveCall} (hr : s.receiver = some c) (hc : c.filled = true) :
    flight s = s.receiverFiles c.data :: s.queue.map some := by
  simp [flight, pending, hr, hc]

theorem flight_none (hp : pending s = none) : flight s = s.queue.map some := by simp [flight, hp]

theorem returned_snoc {l : List (ℕ × Int)} (h : ∀ x ∈ l, x.2 = x.1) {n m : ℕ} (he : n = m) :
    ∀ x ∈ l ++ [(n, (m : Int))], x.2 = x.1 := by
  intro x hx
  rcases List.mem_append.1 hx with hx | hx
  · exact h x hx
  · rw [List.mem_singleton.1 hx, he]

theorem step_inv (hs : Step s o s') (h : Inv s) : Inv s' := by
  cases hs with
  | «open» => exact ⟨h.sending, h.idle, h.receiving, h.order, h.returned⟩
  | @reopen fd file hp =>
    refine ⟨h.sending, h.idle, h.receiving, ?_, h.returned⟩
    rw [h.order]
    -- the descriptor in the control buffer is another one
    have hmap : (pending s).toList.map (update s.receiverFiles fd file) = (pending s).toList.map s.receiverFiles := by
      cases hpe : pending s with
      | none => rfl
      | some d =>
        have hd : d ≠ fd := by rintro rfl; exact hp hpe
        simp [hd]
    simp only [flight]
    exact congrArg (fun l => s.received.map Prod.snd ++ (l ++ s.queue.map some)) hmap.symm
  | @send fds data hs =>
    refine ⟨fun c hc => ?_, fun hn => (by cases hn), h.receiving, h.order, h.returned⟩
    obtain rfl := Option.some.inj hc
    exact ⟨Nat.zero_le _, by rw [h.idle hs]; rfl, fun hf => by cases hf⟩
  | @fill c fd hs hfd =>
    refine ⟨fun d hd => ?_, fun hn => (by cases hn), h.receiving, h.order, h.returned⟩
    obtain rfl := Option.some.inj hd
    obtain ⟨hle, ha, -⟩ := h.sending c hs
    exact ⟨hle, ha, fun _ => hfd⟩
  | @sendmsg c file hs hc hf =>
    obtain ⟨hle, ha, hdata⟩ := h.sending c hs
    obtain ⟨hlt, hget⟩ := List.getElem?_eq_some_iff.1 (hdata hc)
    refine ⟨fun d hd => ?_, fun hn => (by cases hn), h.receiving, ?_, h.returned⟩
    · obtain rfl := Option.some.inj hd
      refine ⟨hlt, ?_, fun hf => by cases hf⟩
      rw [ha, List.drop_eq_getElem_cons hlt, hget]
      simp
    · have hflight : flight s ++ [some file] = flight (F := F) { s with queue := s.queue ++ [file] } := by
        simp [flight, pending]
      simp only [List.map_append, h.order, List.append_assoc, List.map_cons, List.map_nil]
      rw [hflight]
      rfl
  | @sendRetry c hs =>
    refine ⟨fun d hd => ?_, fun hn => (by cases hn), h.receiving, h.order, h.returned⟩
    obtain rfl := Option.some.inj hd
    obtain ⟨hle, ha, -⟩ := h.sending c hs
    exact ⟨hle, ha, fun hf => by cases hf⟩
  | @sendReturn c hs hc =>
    obtain ⟨hle, ha, -⟩ := h.sending c hs
    refine ⟨fun d hd => (by cases hd), fun _ => ?_, h.receiving, h.order, returned_snoc h.returned (by omega)⟩
    rw [ha, List.drop_of_length_le hc, List.append_nil]
  | @receive fdNum data hr =>
    refine ⟨h.sending, h.idle, fun c hc => ?_, ?_, h.returned⟩
    · obtain rfl := Option.some.inj hc
      exact ⟨Nat.zero_le _, rfl, fun hf => by cases hf⟩
    · rw [h.order, flight_none (by simp [pending, hr]), flight_none (by simp [pending])]
  | receiveRetry => exact h
  | @recvmsg c fd file queue hr hn hc hq hfd hfree =>
    refine ⟨h.sending, h.idle, fun d hd => ?_, ?_, h.returned⟩
    · obtain rfl := Option.some.inj hd
      exact ⟨Nat.le_of_lt hn, rfl, fun _ => ⟨hn, hfd⟩⟩
    · rw [h.order, flight_none (by simp [pending, hr, hc]), flight_eq rfl rfl, hq]
      simp
  | @truncated c fd file queue hr hl hq =>
    obtain ⟨-, hlen, -⟩ := h.receiving c hr
    omega
  | @negative c hr hc hd =>
    obtain ⟨-, -, hdata⟩ := h.receiving c hr
    have := (hdata hc).2
    omega
  | @store c hr hc =>
    obtain ⟨-, hlen, hdata⟩ := h.receiving c hr
    refine ⟨h.sending, h.idle, fun d hd => ?_, ?_, h.returned⟩
    · obtain rfl := Option.some.inj hd
      exact ⟨(hdata hc).1, hlen, fun hf => by cases hf⟩
    · rw [h.order, flight_eq hr hc, flight_none (by simp [pending])]
      simp
  | @receiveReturn c hr hc =>
    obtain ⟨hle, -, hdata⟩ := h.receiving c hr
    refine ⟨h.sending, h.idle, fun d hd => (by cases hd), ?_, returned_snoc h.returned (by omega)⟩
    have hf : c.filled ≠ true := fun hf => absurd (hdata hf).1 (Nat.not_lt.2 hc)
    rw [h.order, flight_none (by simp [pending, hr, hf]), flight_none (by simp [pending])]

/-- **Descriptors in order.** In every run: a call that has returned has returned its `fdNum`; what was sent is the
calls' descriptors, from the front; and the files of the received descriptors are those of the sent ones, position by
position, followed by what is still in flight. -/
theorem descriptors_in_order (senderFiles receiverFiles : Int → Option F) (ops : List (Op F)) (s : St F)
    (hr : (socketPair senderFiles receiverFiles).run (socketPair senderFiles receiverFiles).init ops = some s) :
    (∀ x ∈ s.returned, x.2 = x.1) ∧ s.sent.map Prod.fst <+: s.asked ∧
      s.received.map Prod.snd <+: s.sent.map (fun x => some x.2) ∧
      s.sent.map (fun x => some x.2) = s.received.map Prod.snd ++ flight s := by
  have h : Inv s := by
    refine (socketPair senderFiles receiverFiles).run_inv (fun _ _ _ hi hs => step_inv (step_eq hs) hi) ?_ hr
    exact ⟨fun c hc => (by cases hc), fun _ => rfl, fun c hc => (by cases hc), rfl, by simp [socketPair]⟩
  refine ⟨h.returned, ?_, ⟨flight s, h.order.symm⟩, h.order⟩
  cases hs : s.sender with
  | none => exact ⟨[], (List.append_nil _).trans (h.idle hs).symm⟩
  | some c => exact ⟨_, (h.sending c hs).2.1.symm⟩

/-- three descriptors in one call are received by two; a sendmsg and a recvmsg are interrupted -/
def splitOps : List (Op ℕ) :=
  [.receive 1 0, .recvmsg none, .send [3, 4, 5] 0, .fill, .sendmsg false, .fill, .sendmsg true, .fill, .sendmsg true,
    .recvmsg (some 7), .store, .receiveReturn, .fill, .sendmsg true, .sendReturn, .receive 2 0, .recvmsg (some 8),
    .store, .recvmsg none, .recvmsg (some 9), .store, .receiveReturn]

theorem descriptors_in_order_split :
    ∃ s, (socketPair (fun fd => some fd.toNat) fun _ => none).run
        (socketPair (fun fd => some fd.toNat) fun _ => none).init splitOps = some s ∧
      s.received.map Prod.fst = [7, 8, 9] ∧ s.received.map Prod.snd <+: s.sent.map fun x => some x.2 :=
  ⟨_, rfl, rfl, (descriptors_in_order (fun fd => some fd.toNat) (fun _ => none) splitOps _ rfl).2.2.1⟩

end Hodgepodge.SocketHelper
