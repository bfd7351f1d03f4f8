/-
The socket constructors of SocketHelper.cpp: `createStreamSocket`, and the three pairs of `setupListenSocket`,
`setupConnectionSocket` and `acceptConnectSocket`. Each gets one descriptor, from socket() or accept(), and then makes
calls that can fail; on a failure it closes the descriptor and returns a negative value.

`createStreamSocket` fails with a negative value. The two functions that call it test `newSocket <= 0`: when the kernel
hands out descriptor 0, which it does if the process has closed its standard input, they return -1 and leave it open.

Model: sequences of calls, with what the system calls of each return; a new descriptor is any number that is free. A
close() gives the number back whatever it returns. Between the calls the process may do with its descriptors what it
likes. Names, addresses, the uid and errno have no part in this.

Results:
- `Owns`: what a caller is promised, by the return value and the open descriptors before and after.
- `Owns.checked`: the failing exits.
- `owns_iff`: one call.
- `sockets_owned_iff`: in a run, every call keeps the promise exactly if none of those two functions gets descriptor 0.
- `descriptor_zero_leaks`: one call.
-/
import Mathlib.Algebra.Group.Int.Defs
import Mathlib.Logic.Function.Basic
import Hodgepodge.Core.Lts

namespace Hodgepodge.SocketHelper.Setup

open Function Hodgepodge.Core

/-! ## Model -/

/-- the open descriptors of the process -/
abbrev Opened := Int → Bool

/-- what the system calls of a call return, if it comes to them -/
structure Calls where
  socket : Int
  accept : Int
  setsockopt : Int
  bind : Int
  /-- F_SETFL -/
  fcntl : Int
  listen : Int
  connect : Int
  stat : Int
  /-- `S_ISSOCK(statbuf.st_mode)` -/
  isSock : Int
deriving DecidableEq

/-- the descriptor that socket() or accept() returned is open -/
def install (opened : Opened) (fd : Int) : Opened := if fd < 0 then opened else update opened fd true

/-- calls that may have failed, each with the value that is returned then, behind a close() of the descriptor -/
def checked (opened : Opened) (fd : Int) : List (Bool × Int) → Int × Opened
  | [] => (fd, opened)
  | (failed, rval) :: rest => if failed then (rval, update opened fd false) else checked opened fd rest

def createStreamSocket (k : Calls) (opened : Opened) : Int × Opened :=
  let newSocket := k.socket
  let opened := install opened newSocket
  if newSocket < 0 then (newSocket, opened) else checked opened newSocket [(decide (k.setsockopt < 0), -1)]

def setSocketBlockMode (k : Calls) : Bool := if k.fcntl < 0 then false else true

/-- `setupListenSocket(listenPort, maxConnNum, makeNonBlocking)` -/
def setupListenSocketPort (k : Calls) (opened : Opened) : Int × Opened :=
  let (newSocket, opened) := createStreamSocket k opened
  if newSocket ≤ 0 then (-1, opened)
  else checked opened newSocket
    [(decide (k.bind ≠ 0), -1), (!setSocketBlockMode k, -1), (decide (k.listen < 0), -1)]

/-- `acceptConnectSocket(listenfd, clientAddr)` -/
def acceptConnectSocketAddr (k : Calls) (opened : Opened) : Int × Opened := (k.accept, install opened k.accept)

/-- `setupConnectionSocket(remoteIP, connectPort)` -/
def setupConnectionSocketIp (k : Calls) (opened : Opened) : Int × Opened :=
  let (newSocket, opened) := createStreamSocket k opened
  if newSocket ≤ 0 then (-1, opened) else checked opened newSocket [(decide (k.connect ≠ 0), -1)]

/-- `setupListenSocket(serverName, maxConnNum)` -/
def setupListenSocketName (k : Calls) (opened : Opened) : Int × Opened :=
  let fd := k.socket
  let opened := install opened fd
  if fd < 0 then (-1, opened) else checked opened fd [(decide (k.bind < 0), -2), (decide (k.listen < 0), -3)]

/-- `acceptConnectSocket(listenfd, uidptr)` -/
def acceptConnectSocketUid (k : Calls) (opened : Opened) : Int × Opened :=
  let clifd := k.accept
  let opened := install opened clifd
  if clifd < 0 then (-1, opened) else checked opened clifd [(decide (k.stat < 0), -2), (decide (k.isSock = 0), -3)]

/-- `setupConnectionSocket(serverName)` -/
def setupConnectionSocketName (k : Calls) (opened : Opened) : Int × Opened :=
  let fd := k.socket
  let opened := install opened fd
  if fd < 0 then (-1, opened) else checked opened fd [(decide (k.bind < 0), -2), (decide (k.connect < 0), -4)]

inductive Constructor where
  | createStreamSocket
  | setupListenSocketPort
  | acceptConnectSocketAddr
  | setupConnectionSocketIp
  | setupListenSocketName
  | acceptConnectSocketUid
  | setupConnectionSocketName
deriving DecidableEq

/-- the return value, and the descriptors that are open then -/
def Constructor.call : Constructor → Calls → Opened → Int × Opened
  | .createStreamSocket => Setup.createStreamSocket
  | .setupListenSocketPort => Setup.setupListenSocketPort
  | .acceptConnectSocketAddr => Setup.acceptConnectSocketAddr
  | .setupConnectionSocketIp => Setup.setupConnectionSocketIp
  | .setupListenSocketName => Setup.setupListenSocketName
  | .acceptConnectSocketUid => Setup.acceptConnectSocketUid
  | .setupConnectionSocketName => Setup.setupConnectionSocketName

inductive Op where
  | call (f : Constructor) (k : Calls)
  /-- whatever else the process does with its descriptors -/
  | process (opened : Opened)

/-- socket() and accept() fail or return a number that is free -/
def Possible (opened : Opened) (k : Calls) : Prop :=
  (k.socket < 0 ∨ opened k.socket = false) ∧ (k.accept < 0 ∨ opened k.accept = false)

instance (opened : Opened) (k : Calls) : Decidable (Possible opened k) := by unfold Possible; infer_instance

def step (opened : Opened) : Op → Option Opened
  | .call f k => if Possible opened k then some (f.call k opened).2 else none
  | .process opened' => some opened'

def sockets (opened : Opened) : Lts Opened Op := ⟨opened, step⟩

/-! ## The promise -/

/-- a negative value with the descriptors as they were, or a new descriptor and no other -/
structure Owns (opened : Opened) (r : Int × Opened) : Prop where
  failed : r.1 < 0 → r.2 = opened
  returned : 0 ≤ r.1 → opened r.1 = false ∧ r.2 = update opened r.1 true

/-- the operation keeps the promise, if it is a call -/
def Owning (opened : Opened) : Op → Prop
  | .call f k => Owns opened (f.call k opened)
  | .process _ => True

/-- the functions that take a descriptor from `createStreamSocket` -/
def Constructor.usesStream : Constructor → Bool
  | .setupListenSocketPort | .setupConnectionSocketIp => true
  | _ => false

/-- it is not one of those with descriptor 0 for a socket that was set up -/
def Allowed (_ : Opened) : Op → Prop
  | .call f k => ¬ (f.usesStream = true ∧ k.socket = 0 ∧ 0 ≤ k.setsockopt)
  | .process _ => True

instance (opened : Opened) : (o : Op) → Decidable (Allowed opened o)
  | .call f k => inferInstanceAs (Decidable (¬ (f.usesStream = true ∧ k.socket = 0 ∧ 0 ≤ k.setsockopt)))
  | .process _ => isTrue trivial

/-! ## One call -/

variable {opened s' : Opened} {fd : Int} {k : Calls} {f : Constructor} {checks : List (Bool × Int)}

theorem install_of_nonneg (h : 0 ≤ fd) : install opened fd = update opened fd true := if_neg (by omega)

theorem install_of_neg (h : fd < 0) : install opened fd = opened := if_pos h

theorem Owns.none {v : Int} (h : v < 0) : Owns opened (v, opened) where
  failed _ := rfl
  returned h' := absurd h' (by dsimp only; omega)

theorem Owns.new (h0 : 0 ≤ fd) (hfree : opened fd = false) : Owns opened (fd, update opened fd true) where
  failed h := absurd h (by dsimp only; omega)
  returned _ := ⟨hfree, rfl⟩

/-- a descriptor that was opened and closed -/
theorem close_install (hfree : opened fd = false) : update (update opened fd true) fd false = opened := by
  rw [update_idem, ← hfree, update_eq_self]

/-- **The failing exits.** -/
theorem Owns.checked (h0 : 0 ≤ fd) (hfree : opened fd = false) (hneg : ∀ e ∈ checks, e.2 < 0) :
    Owns opened (Setup.checked (update opened fd true) fd checks) := by
  induction checks with
  | nil => exact Owns.new h0 hfree
  | cons e checks ih =>
    obtain ⟨failed, rval⟩ := e
    unfold Setup.checked
    by_cases hfailed : failed = true
    · rw [if_pos hfailed, close_install hfree]
      exact Owns.none (hneg (failed, rval) List.mem_cons_self)
    · rw [if_neg hfailed]
      exact ih fun e he => hneg e (List.mem_cons_of_mem _ he)

/-- a descriptor that the function opens itself, with its own test -/
theorem own_socket {v : Int} (hv : fd < 0 → v < 0) (hfree : fd < 0 ∨ opened fd = false) (hneg : ∀ e ∈ checks, e.2 < 0) :
    Owns opened (if fd < 0 then (v, install opened fd) else Setup.checked (install opened fd) fd checks) := by
  by_cases h0 : fd < 0
  · rw [if_pos h0, install_of_neg h0]
    exact Owns.none (hv h0)
  · have h0' : 0 ≤ fd := Int.not_lt.1 h0
    rw [if_neg h0, install_of_nonneg h0']
    exact Owns.checked h0' (hfree.resolve_left h0) hneg

/-- what `createStreamSocket` gives its callers: nothing, or the descriptor of socket() -/
theorem stream_cases (h : Possible opened k) :
    (∃ v < 0, createStreamSocket k opened = (v, opened) ∧ (k.socket < 0 ∨ k.setsockopt < 0)) ∨
      0 ≤ k.socket ∧ 0 ≤ k.setsockopt ∧ createStreamSocket k opened = (k.socket, update opened k.socket true) := by
  unfold createStreamSocket
  by_cases h0 : k.socket < 0
  · exact Or.inl ⟨k.socket, h0, by simp only [if_pos h0, install_of_neg h0], Or.inl h0⟩
  · have h0' : 0 ≤ k.socket := Int.not_lt.1 h0
    simp only [if_neg h0, install_of_nonneg h0', Setup.checked]
    by_cases hs : k.setsockopt < 0
    · refine Or.inl ⟨-1, by decide, ?_, Or.inr hs⟩
      rw [if_pos (by simpa using hs), close_install (h.1.resolve_left h0)]
    · exact Or.inr ⟨h0', Int.not_lt.1 hs, if_neg (by simpa using hs)⟩

/-- **The other test.** A function that takes its descriptor from `createStreamSocket` and tests for `<= 0` -/
theorem stream_owns_iff (h : Possible opened k) (hneg : ∀ e ∈ checks, e.2 < 0) :
    Owns opened (if (createStreamSocket k opened).1 ≤ 0 then (-1, (createStreamSocket k opened).2)
      else Setup.checked (createStreamSocket k opened).2 (createStreamSocket k opened).1 checks) ↔
        ¬ (k.socket = 0 ∧ 0 ≤ k.setsockopt) := by
  rcases stream_cases h with ⟨v, hv, hcreate, hcause⟩ | ⟨h0, hset, hcreate⟩
  · rw [hcreate, if_pos (by dsimp only; omega)]
    exact iff_of_true (Owns.none (by decide)) (by omega)
  · rw [hcreate]
    have hfree : opened k.socket = false := h.1.resolve_left (by omega)
    by_cases hzero : k.socket ≤ 0
    · rw [if_pos hzero]
      refine iff_of_false ?_ (fun hnot => hnot ⟨by omega, hset⟩)
      -- the call returns -1, and descriptor 0 is open
      intro howns
      have hsame := congrFun (howns.failed (by dsimp only; omega)) k.socket
      simp [hfree] at hsame
    · rw [if_neg hzero]
      exact iff_of_true (Owns.checked h0 hfree hneg) (by omega)

/-- **One call.** -/
theorem owns_iff (h : Possible opened k) :
    Owns opened (f.call k opened) ↔ ¬ (f.usesStream = true ∧ k.socket = 0 ∧ 0 ≤ k.setsockopt) := by
  cases f with
  | createStreamSocket => exact iff_of_true (own_socket id h.1 (by simp)) (by simp [Constructor.usesStream])
  | setupListenSocketPort =>
    refine (stream_owns_iff h ?_).trans (by simp [Constructor.usesStream])
    simp
  | acceptConnectSocketAddr =>
    have howns : Owns opened (if k.accept < 0 then (k.accept, install opened k.accept)
        else Setup.checked (install opened k.accept) k.accept []) := own_socket id h.2 (by simp)
    rw [Setup.checked, ite_self] at howns
    exact iff_of_true howns (by simp [Constructor.usesStream])
  | setupConnectionSocketIp =>
    refine (stream_owns_iff h ?_).trans (by simp [Constructor.usesStream])
    simp
  | setupListenSocketName =>
    exact iff_of_true (own_socket (fun _ => by decide) h.1 (by simp)) (by simp [Constructor.usesStream])
  | acceptConnectSocketUid =>
    exact iff_of_true (own_socket (fun _ => by decide) h.2 (by simp)) (by simp [Constructor.usesStream])
  | setupConnectionSocketName =>
    exact iff_of_true (own_socket (fun _ => by decide) h.1 (by simp)) (by simp [Constructor.usesStream])

/-! ## The result -/

/-- **Who owns the sockets.** For every set of open descriptors and every run of calls, whatever their system calls
return: every call that returns a negative value leaves the open descriptors as they were, and every other one has
added exactly the descriptor that it returns, exactly if no `setupListenSocket` with a port and no
`setupConnectionSocket` with an address has descriptor 0 for a socket that was set up. -/
theorem sockets_owned_iff (opened s' : Opened) (ops : List Op) (hr : (sockets opened).run opened ops = some s') :
    (sockets opened).Along Owning opened ops ↔ (sockets opened).Along Allowed opened ops := by
  refine (sockets opened).along_congr ?_ hr
  intro s o t hs
  cases o with
  | call f k =>
    simp only [sockets, step, Option.ite_none_right_eq_some] at hs
    exact owns_iff hs.1
  | process opened' => exact Iff.rfl

/-- 0, 1 and 2 are open -/
def standard : Opened := fun fd => decide (0 ≤ fd ∧ fd < 3)

/-- system calls that succeed, with this descriptor -/
def succeeding (fd : Int) : Calls := ⟨fd, fd, 0, 0, 0, 0, 0, 0, 1⟩

/-- a listening socket, a connection whose connect() fails, and an accepted one -/
theorem three_calls_owned : (sockets standard).Along Owning standard
    [.call .setupListenSocketPort (succeeding 3), .call .setupConnectionSocketName { succeeding 4 with connect := -1 },
      .call .acceptConnectSocketUid (succeeding 4)] := by
  refine (sockets_owned_iff standard _ _ rfl).2 ?_
  decide

/-- **Descriptor 0 leaks.** The standard input is closed, and a listening socket is set up. -/
theorem descriptor_zero_leaks :
    ¬ ∀ (opened s' : Opened) (ops : List Op), (sockets opened).run opened ops = some s' →
        (sockets opened).Along Owning opened ops := by
  intro h
  have hpossible : Possible (fun _ => false) (succeeding 0) := ⟨Or.inr rfl, Or.inr rfl⟩
  have howning : Owning (fun _ => false) (.call .setupListenSocketPort (succeeding 0)) :=
    h (fun _ => false) _ [.call .setupListenSocketPort (succeeding 0)] rfl [] _ [] _ rfl rfl
  exact (owns_iff hpossible).1 howning ⟨rfl, rfl, by decide⟩

end Hodgepodge.SocketHelper.Setup
