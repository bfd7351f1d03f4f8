/-
`ipc_connection_linux_UDS::notify` (tipc.cpp) and the end of a connection. The service thread waits in epoll_wait and
passes the event mask that it got to `notify`. epoll is level-triggered: it reports EPOLLIN while bytes are unread and
EPOLLRDHUP once the peer has closed. `notify` looks at EPOLLRDHUP before EPOLLIN, so bytes that are still unread when
the peer has closed are dropped with the connection that `on_close` deletes, although the comment at the top of
`notify` says to "do on_read on EPOLLIN".

Model: one communication socket. The peer writes and closes; epoll_wait, the dispatch of its event, the reads of the
handler and its return are steps of their own, and the peer moves between any two of them. A read takes any number of
the unread bytes.

Results:
- `branch`: the tests of `notify` on the mask.
- `closes_drained_iff`: a run that ends in on_close has offered everything to on_read exactly if epoll_wait never
  returned an event while the peer had closed and bytes were unread.
- `close_drops_unread`: a peer that writes and closes before the service thread looks.
-/
import Hodgepodge.Core.Lts

namespace Hodgepodge.Ipc

open Hodgepodge.Core

/-- the bits of an event mask that `notify` tests -/
structure Events where
  epollIn : Bool
  epollRdhup : Bool
deriving DecidableEq

inductive Branch where
  | accept
  | close
  | read
  | ignore
deriving DecidableEq

/-- the branch that `notify` takes -/
def branch (listening : Bool) (hint : Events) : Branch :=
  if listening && hint.epollIn then .accept
  else if hint.epollRdhup then .close
  else if hint.epollIn then .read
  else .ignore

namespace Stream

/-- the service thread, as far as it concerns the connection -/
inductive Svc where
  | epollWait
  /-- `notify` is about to be called -/
  | notify (hint : Events)
  | onRead
  /-- `on_close` has deleted the connection -/
  | deleted
deriving DecidableEq

structure St where
  /-- what the peer has written -/
  written : List UInt8
  /-- what on_read has read -/
  received : List UInt8
  unread : List UInt8
  /-- the peer has closed -/
  closed : Bool
  svc : Svc
deriving DecidableEq

inductive Op where
  | write (bytes : List UInt8)
  | peerClose
  | epollWait (hint : Events)
  | notify
  /-- read(2) takes `n` bytes -/
  | read (n : ℕ)
  | return
deriving DecidableEq

/-- what a level-triggered epoll reports: end of file may count as readable -/
def levelTriggered (s : St) (hint : Events) : Bool :=
  hint.epollRdhup == s.closed && (s.unread.isEmpty || hint.epollIn) &&
    (!hint.epollIn || !s.unread.isEmpty || s.closed) && (hint.epollIn || hint.epollRdhup)

def step (s : St) : Op → Option St
  | .write bytes =>
    if s.closed then none else some { s with written := s.written ++ bytes, unread := s.unread ++ bytes }
  | .peerClose => if s.closed then none else some { s with closed := true }
  | .epollWait hint => if s.svc = .epollWait ∧ levelTriggered s hint then some { s with svc := .notify hint } else none
  | .notify =>
    match s.svc with
    | .notify hint =>
      match branch false hint with
      | .close => some { s with svc := .deleted }
      | .read => some { s with svc := .onRead }
      | _ => some { s with svc := .epollWait }
    | _ => none
  | .read n =>
    if s.svc = .onRead ∧ n ≤ s.unread.length then
      some { s with received := s.received ++ s.unread.take n, unread := s.unread.drop n }
    else none
  | .return => if s.svc = .onRead then some { s with svc := .epollWait } else none

def connection : Lts St Op := ⟨⟨[], [], [], false, .epollWait⟩, step⟩

/-- epoll_wait does not report a closed peer over unread bytes -/
def drained (s : St) : Op → Bool
  | .epollWait _ => !s.closed || s.unread.isEmpty
  | _ => true

/-! ## Nothing is lost or made up -/

theorem step_bytes {s s' : St} {o : Op} (h : s.written = s.received ++ s.unread) (hs : step s o = some s') :
    s'.written = s'.received ++ s'.unread := by
  cases o with
  | write bytes =>
    simp only [step] at hs
    split_ifs at hs
    cases hs
    simp [h]
  | read n =>
    simp only [step] at hs
    split_ifs at hs
    cases hs
    simp [h]
  | notify =>
    simp only [step] at hs
    split at hs
    · split at hs <;> · cases hs; exact h
    · cases hs
  | _ =>
    simp only [step] at hs
    split_ifs at hs
    cases hs
    exact h

/-- **Byte accounting.** What the peer wrote is what on_read got, in order, and what is still unread. -/
theorem run_bytes {ops : List Op} {s : St} (hr : connection.run connection.init ops = some s) :
    s.written = s.received ++ s.unread :=
  connection.run_inv (I := fun s => s.written = s.received ++ s.unread) (fun _ _ _ => step_bytes) rfl hr

/-! ## on_close -/

/-- `notify` is about to call on_close, or has called it -/
def Svc.ending : Svc → Bool
  | .notify hint => hint.epollRdhup
  | .deleted => true
  | _ => false

theorem branch_close {hint : Events} : branch false hint = .close ↔ hint.epollRdhup = true := by
  obtain ⟨epollIn, epollRdhup⟩ := hint
  cases epollIn <;> cases epollRdhup <;> simp [branch]

/-- when on_close is near, the peer has closed, and nobody writes, reads or waits any more -/
theorem step_ending {s s' : St} {o : Op} (hc : s.closed = true) (he : s.svc.ending = true) (hs : step s o = some s') :
    s'.closed = true ∧ s'.svc.ending = true ∧ s'.unread = s.unread := by
  cases o with
  | notify =>
    simp only [step] at hs
    split at hs
    · rename_i hint hsvc
      rw [hsvc] at he
      rw [branch_close.2 he] at hs
      cases hs
      exact ⟨hc, rfl, rfl⟩
    · cases hs
  | write bytes | peerClose =>
    simp [step, hc] at hs
  | epollWait hint | read n | «return» =>
    simp only [step] at hs
    split_ifs at hs with h
    cases hs
    simp_all [Svc.ending]

/-- on_close comes near when epoll_wait reports that the peer has closed -/
theorem step_to_ending {s s' : St} {o : Op} (hn : s.svc.ending = false) (he : s'.svc.ending = true)
    (hs : step s o = some s') : (∃ hint, o = .epollWait hint) ∧ s.closed = true ∧ s'.closed = true ∧
      s'.unread = s.unread := by
  cases o with
  | epollWait hint =>
    simp only [step] at hs
    split_ifs at hs with h
    cases hs
    have hcl : s.closed = true := by
      have := h.2
      simp only [levelTriggered, Bool.and_eq_true, beq_iff_eq] at this
      rw [← this.1.1.1]
      exact he
    exact ⟨⟨hint, rfl⟩, hcl, hcl, rfl⟩
  | notify =>
    simp only [step] at hs
    split at hs
    · rename_i hint hsvc
      rw [hsvc] at hn
      split at hs
      · rename_i hb
        rw [Svc.ending, branch_close.1 hb] at hn
        cases hn
      · cases hs; cases he
      · cases hs; cases he
    · cases hs
  | write bytes | peerClose | read n | «return» =>
    simp only [step] at hs
    split_ifs at hs with h
    cases hs
    simp_all [Svc.ending]

/-- the connection ends with nothing unread, if it ends -/
def Drained (s : St) : Prop := s.svc.ending = true → s.closed = true ∧ s.unread = []

/-- the connection ends with bytes unread -/
def Dropped (s : St) : Prop := s.svc.ending = true ∧ s.closed = true ∧ s.unread ≠ []

theorem step_drained {s s' : St} {o : Op} (h : Drained s) (hC : drained s o) (hs : step s o = some s') :
    Drained s' := by
  intro he
  cases hn : s.svc.ending with
  | true =>
    obtain ⟨hc, hu⟩ := h hn
    obtain ⟨hc', -, hu'⟩ := step_ending hc hn hs
    exact ⟨hc', hu'.trans hu⟩
  | false =>
    obtain ⟨⟨hint, rfl⟩, hc, hc', hu⟩ := step_to_ending hn he hs
    refine ⟨hc', hu.trans ?_⟩
    simpa [drained, hc] using hC

theorem step_dropped {s s' : St} {o : Op} (h : Dropped s) (hs : step s o = some s') : Dropped s' := by
  obtain ⟨he, hc, hu⟩ := h
  obtain ⟨hc', he', hu'⟩ := step_ending hc he hs
  exact ⟨he', hc', by rwa [hu']⟩

/-- a report of the closed peer over unread bytes cannot be taken back -/
theorem dropped_of_not_drained {s s' : St} {o : Op} (hC : ¬ drained s o) (hs : step s o = some s') : Dropped s' := by
  cases o with
  | epollWait hint =>
    simp only [drained, Bool.or_eq_true, Bool.not_eq_true', List.isEmpty_iff, not_or, Bool.not_eq_false] at hC
    simp only [step] at hs
    split_ifs at hs with h
    cases hs
    have hl := h.2
    simp only [levelTriggered, Bool.and_eq_true, beq_iff_eq] at hl
    exact ⟨hl.1.1.1.trans hC.1, hC.1, hC.2⟩
  | _ => exact absurd rfl hC

/-- **Everything is offered before on_close, if epoll_wait says so in time.** A run that ends in on_close has offered
all that the peer wrote to on_read, and left nothing unread, exactly if in no state in which epoll_wait returned an
event for the connection the peer had closed with bytes unread. -/
theorem closes_drained_iff (ops : List Op) (s : St) (hr : connection.run connection.init ops = some s)
    (hd : s.svc = .deleted) :
    (s.unread = [] ∧ s.received = s.written) ↔ connection.Along (drained · ·) connection.init ops := by
  have hb := run_bytes hr
  constructor
  · rintro ⟨hu, -⟩
    rcases connection.along_or (I := fun _ => True) (fun _ _ _ _ _ => trivial) (fun _ _ _ _ => dropped_of_not_drained)
      (fun _ _ _ _ => step_dropped) trivial hr with h | h
    · exact h
    · exact absurd hu h.2.2
  · intro hC
    have h : Drained s := connection.along_inv (fun _ _ _ => step_drained) (fun h => by cases h) hC hr
    have hu := (h (by rw [hd]; rfl)).2
    exact ⟨hu, by rw [hb, hu, List.append_nil]⟩

/-- the handler reads both bytes, then the peer closes -/
def readThenClose : List Op :=
  [.write [1, 2], .epollWait ⟨true, false⟩, .notify, .read 2, .return, .peerClose, .epollWait ⟨true, true⟩, .notify]

theorem closes_after_reading :
    ∃ s, connection.run connection.init readThenClose = some s ∧ s.svc = .deleted ∧ s.received = s.written :=
  ⟨_, rfl, rfl, ((closes_drained_iff readThenClose _ rfl rfl).2 (by decide)).2⟩

/-- **Dropped bytes.** The peer writes and closes before epoll_wait returns: one event with both bits, and on_close
deletes the connection over two unread bytes. -/
theorem close_drops_unread :
    ¬ ∀ ops s, connection.run connection.init ops = some s → s.svc = .deleted → s.unread = [] := by
  intro h
  have := h [.write [1, 2], .peerClose, .epollWait ⟨true, true⟩, .notify] _ rfl rfl
  cases this

end Stream

end Hodgepodge.Ipc
