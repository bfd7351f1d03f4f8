/-
How a server accepts clients through a named pipe (tipc.cpp, Windows): `listen`, `wait_for_connection`, the branch of
`notify` for `m_waitconn_overlapped`, `trigger_async_cache_read` and the loop of `ipc_io_service::run`. An instance of
the pipe serves one client. When it has one, `notify` gives its handle to a new connection, associates that with it, and
listens on a new instance. It calls ConnectNamedPipe for it twice, once inside `listen` and once after `on_accept`, so
that every instance but the first puts two packets into the completion port. The second finds the new connection under
its key, whose `m_waitconn_overlapped` is another one, and is ignored.

A connection that has been accepted reads ahead: `trigger_async_cache_read` asks for one byte, `notify` puts it into the
cache and calls `on_read`, which has to read it ("user must atleast read one byte inside the callback"), and asks for the
next one. Two assertions check that the cache is empty then; a third one, that one byte or none has come, holds of every
ReadFile of one byte.

Model: a step of the service's thread ends at each call to the kernel and at each callback; clients come, go and have
their bytes read in between. An instance that gets its client completes all pending ConnectNamedPipe. The port is a
queue. Closing a handle completes what is pending on it; the kernel may give the handle, and `new` the address, to the
next one who asks. `main` calls `listen` before there is any packet. `on_accept`, `on_read` and `on_close` are set; in
them the user may delete connections, and an error other than ERROR_BROKEN_PIPE makes `on_read` throw. The byte in a
cache may be read at any time, in a callback or in another thread. ConnectNamedPipe takes any value for an event. A
pointer fits the `unsigned long` that it is cast to, as it does where both have 32 bits. What the bytes are, what else
`read` takes, `connect`, `close` without `delete`, and calls that fail for want of resources are left out.

Result:
- `Step`, `step_eq`: the inversion of every operation.
-/
import Mathlib.Logic.Function.Basic
import Hodgepodge.Core.Lts
import Hodgepodge.Ipc.HandleMap

namespace Hodgepodge.Ipc.PipeAccept

open Function Hodgepodge.Core

/-! ## Model -/

/-- the other end of an instance; the clients are numbered as they come -/
inductive Peer where
  | nobody
  | here (k : ℕ)
  | gone (k : ℕ)
deriving DecidableEq

def Peer.client : Peer → Option ℕ
  | .nobody => none
  | .here k | .gone k => some k

/-- the OVERLAPPED of a packet, as a member of its owner -/
inductive Member where
  | waitconn
  | cache
  | error
deriving DecidableEq

/-- how a request has ended; a ReadFile of one byte that is `ok` has transferred it -/
inductive Result where
  | ok
  /-- a ReadFile that met a write of no bytes -/
  | empty
  | brokenPipe
  | other
deriving DecidableEq

variable {C : Type*}

/-- a packet in the completion port -/
structure Packet (C : Type*) where
  key : Int32
  owner : C
  member : Member
  result : Result
deriving DecidableEq

/-- an instance of the pipe -/
structure Instance (C : Type*) where
  peer : Peer
  /-- CreateIoCompletionPort has been called for it -/
  registered : Bool
  /-- the pending ConnectNamedPipe -/
  waiting : List C
  /-- the pending ReadFile -/
  reading : Option C
deriving DecidableEq

/-- where the thread of the service stands; `pconn` is the new connection, `none` if `main` calls `listen` -/
inductive Service (C : Type*) where
  /-- at GetQueuedCompletionStatus -/
  | wait
  /-- in `listen` -/
  | create (pconn : Option C)
  /-- in `wait_for_connection`, called by `listen` -/
  | connect (pconn : Option C)
  | onAccept (pconn : C)
  /-- in `wait_for_connection`, called by `notify` -/
  | connectAgain (pconn : C)
  /-- about to call `trigger_async_cache_read` -/
  | trigger (pconn : C)
  | onRead (pconn : C)
  | onClose (pconn : C)
  /-- a failed assertion, a pointer to a deleted connection or an exception -/
  | fault
deriving DecidableEq

/-- the connection that the thread works for -/
def Service.pconn : Service C → Option C
  | .create pconn | .connect pconn => pconn
  | .onAccept c | .connectAgain c | .trigger c | .onRead c | .onClose c => some c
  | .wait | .fault => none

def Service.creates : Service C → Bool
  | .create _ => true
  | _ => false

/-- the new instance has not been waited on -/
def Service.connects : Service C → Bool
  | .connect _ => true
  | _ => false

structure St (C : Type*) where
  instances : Int32 → Option (Instance C)
  port : List (Packet C)
  table : Table C
  /-- `m_oshd` of the connections that exist -/
  oshd : C → Option Int32
  service : Service C
  /-- `m_cache_empty` -/
  cacheEmpty : C → Bool
  /-- `b_new_data_arrived` of the last `notify` that has called `on_read` -/
  newDataArrived : Bool
  /-- how many clients have come -/
  clients : ℕ
  /-- the clients of the connections that were passed to `on_accept` -/
  accepted : List (Option ℕ)

inductive Op (C : Type*) where
  /-- a client opens the pipe -/
  | open (h : Int32)
  /-- the client closes it -/
  | leave (h : Int32)
  /-- the pending ReadFile completes -/
  | read (h : Int32) (result : Result)
  | createNamedPipe (h : Int32)
  | connectNamedPipe
  /-- `pconn`: what `new` returns if there is a client -/
  | notify (pconn : C)
  /-- `failed`: ReadFile fails at once -/
  | triggerAsyncCacheRead (failed : Bool)
  /-- a call of `read` takes the byte from the cache -/
  | takeByte (c : C)
  /-- the user deletes a connection -/
  | delete (c : C)
  /-- a callback returns -/
  | back
deriving DecidableEq

section Steps

variable [DecidableEq C] (acceptor : C) (event : Bool) (s : St C)

def St.fail : St C := { s with service := .fault }

def St.setInstance (h : Int32) (i : Instance C) : St C := { s with instances := update s.instances h (some i) }

/-- completions get to the port if the handle is registered there -/
def Instance.packets (i : Instance C) (h : Int32) (waiting reading : Result) : List (Packet C) :=
  if i.registered then
    i.waiting.map (⟨h, ·, .waitconn, waiting⟩) ++ i.reading.toList.map (⟨h, ·, .cache, reading⟩)
  else []

/-- a client opens an instance that waits for one -/
def openPipe (h : Int32) (i : Instance C) : St C :=
  { s.setInstance h { i with peer := .here s.clients, waiting := [] } with
    port := s.port ++ { i with reading := none }.packets h .ok .ok
    clients := s.clients + 1 }

def completeRead (h : Int32) (result : Result) (i : Instance C) : St C :=
  { s.setInstance h { i with reading := none } with
    port := s.port ++ { i with waiting := [] }.packets h result result }

def listen (pconn : Option C) (h : Int32) : St C :=
  let associated := Handles.associate .windows s.table acceptor h true
  { s.setInstance h ⟨.nobody, associated.1 = .registered h, [], none⟩ with
    oshd := update s.oshd acceptor (some h)
    table := associated.2
    service := .connect pconn }

/-- a second client is not possible, and the error of a client that has left is ignored -/
def waitForConnection (service : Service C) : St C :=
  match s.oshd acceptor with
  | none => s.fail
  | some h =>
    -- the assertion
    if h = invalidOsHandle then s.fail
    else match s.instances h with
    | none => { s with service := service }
    | some i =>
      match i.peer with
      | .nobody => { s.setInstance h { i with waiting := i.waiting ++ [acceptor] } with service := service }
      | .here _ => { s with port := s.port ++ [⟨h, acceptor, .waitconn, .ok⟩], service := service }
      | .gone _ => { s with service := service }

/-- `new ipc_connection_win_namedpipe(get_service(), native_handle())` -/
def newConnection (pconn : C) (h : Int32) : St C :=
  { s with
    oshd := update s.oshd pconn (some h)
    table := (Handles.associate .windows s.table pconn h true).2
    cacheEmpty := update s.cacheEmpty pconn true
    service := .create (some pconn)
    accepted := s.accepted ++ [(s.instances h).bind fun i => i.peer.client] }

/-- `notify` of `c` -/
def notify (pconn c : C) (p : Packet C) : Option (St C) :=
  if p.owner = c then
    match p.member with
    | .waitconn =>
      if c = acceptor then
        if s.oshd pconn = none then (s.oshd acceptor).map (newConnection s pconn) else none
      else some s
    | .cache | .error =>
      match p.result with
      | .ok =>
        some { s with cacheEmpty := update s.cacheEmpty c false, newDataArrived := true, service := .onRead c }
      | .empty => some { s with newDataArrived := !s.cacheEmpty c, service := .onRead c }
      | .brokenPipe => some { s with service := .onClose c }
      | .other => some s.fail
  else some s

/-- a packet is dispatched; `event`: `m_waitconn_overlapped.hEvent`, which no constructor sets, is not zero -/
def dispatch (pconn : C) (p : Packet C) : Option (St C) :=
  match s.oshd p.owner with
  | none => some s.fail
  | some _ =>
    if p.member = .waitconn ∧ event then some s
    else
      let got := s.table.get p.key
      match got.1 with
      | none => some s.fail
      | some c => notify acceptor { s with table := got.2 } pconn c p

def triggerAsyncCacheRead (failed : Bool) (c : C) : Option (St C) :=
  match s.oshd c with
  | none => some s.fail
  | some h =>
    -- the assertion
    if s.cacheEmpty c = false then some s.fail
    else match s.instances h, failed with
    | some i, false =>
      if i.peer = .nobody then none else some { s.setInstance h { i with reading := some c } with service := .wait }
    | some ⟨.here _, _, _, _⟩, true => none
    | some ⟨.gone _, _, _, _⟩, true =>
      some { s with port := s.port ++ [⟨h, c, .error, .brokenPipe⟩], service := .wait }
    | some ⟨.nobody, _, _, _⟩, true | none, _ =>
      some { s with port := s.port ++ [⟨h, c, .error, .other⟩], service := .wait }

/-- the destructor -/
def deleteConnection (c : C) (h : Int32) : St C :=
  { s with
    instances := update s.instances h none
    port := s.port ++ ((s.instances h).map fun i => i.packets h .other .other).getD []
    table := (Handles.unassociate .windows s.table h).2
    oshd := update s.oshd c none }

/-- what the assertion behind `on_read` excludes -/
def St.byteLeft (c : C) : Bool := s.newDataArrived && !s.cacheEmpty c

def step : Op C → Option (St C)
  | .open h => (s.instances h).bind fun i => if i.peer = .nobody then some (openPipe s h i) else none
  | .leave h => (s.instances h).bind fun i =>
    match i.peer with
    | .here k => some (s.setInstance h { i with peer := .gone k })
    | _ => none
  | .read h result => (s.instances h).bind fun i =>
    match i.reading, i.peer, result with
    | some _, .here _, .ok | some _, .gone _, .ok | some _, .here _, .empty | some _, .gone _, .empty
    | some _, .gone _, .brokenPipe => some (completeRead s h result i)
    | _, _, _ => none
  | .createNamedPipe h =>
    match s.service with
    | .create pconn => if s.instances h = none ∧ h ≠ invalidOsHandle then some (listen acceptor s pconn h) else none
    | _ => none
  | .connectNamedPipe =>
    match s.service with
    | .connect none => some (waitForConnection acceptor s .wait)
    | .connect (some c) => some (waitForConnection acceptor s (.onAccept c))
    | .connectAgain c => some (waitForConnection acceptor s (.trigger c))
    | _ => none
  | .notify pconn =>
    match s.service, s.port with
    | .wait, p :: port => dispatch acceptor event { s with port := port } pconn p
    | _, _ => none
  | .triggerAsyncCacheRead failed =>
    match s.service with
    | .trigger c => triggerAsyncCacheRead s failed c
    | _ => none
  | .takeByte c => (s.oshd c).map fun _ => { s with cacheEmpty := update s.cacheEmpty c true }
  | .delete c =>
    match s.service with
    | .onAccept _ | .onRead _ | .onClose _ => if c = acceptor then none else (s.oshd c).map (deleteConnection s c)
    | _ => none
  | .back =>
    match s.service with
    | .onAccept c => some { s with service := .connectAgain c }
    | .onRead c => some { s with service := if s.oshd c = none ∨ s.byteLeft c = true then .fault else .trigger c }
    | .onClose _ => some { s with service := .wait }
    | _ => none

/-- before `listen` -/
def init : St C :=
  { instances := fun _ => none
    port := []
    table := .empty
    oshd := update (fun _ => none) acceptor (some invalidOsHandle)
    service := .create none
    cacheEmpty := fun _ => true
    newDataArrived := false
    clients := 0
    accepted := [] }

def server : Lts (St C) (Op C) := ⟨init acceptor, step acceptor event⟩

/-- nothing is pending for `c`, and the thread does not go on with it -/
def Idle (c : C) : Prop := s.service ≠ .onAccept c ∧ s.service ≠ .onRead c ∧
  ∀ h ∈ s.oshd c, (∀ p ∈ s.port, p.key ≠ h) ∧ ∀ i ∈ s.instances h, i.waiting = [] ∧ i.reading = none

instance (c : C) : Decidable (Idle s c) :=
  -- of the handle of `c`, not of every handle there is
  have := Option.decidableForallMem (p := fun h => (∀ p ∈ s.port, p.key ≠ h) ∧
    ∀ i ∈ s.instances h, i.waiting = [] ∧ i.reading = none) (s.oshd c)
  inferInstanceAs (Decidable (_ ∧ _ ∧ _))

/-- an `on_read` that was called for a byte has read it -/
def St.byteRead : Bool :=
  match s.service with
  | .onRead c => !s.byteLeft c
  | _ => true

/-- only idle connections are deleted, and `on_read` reads its byte before it returns -/
def Clean (s : St C) : Op C → Prop
  | .delete c => Idle s c
  | .back => s.byteRead = true
  | _ => True

instance decClean (s : St C) : (o : Op C) → Decidable (Clean s o)
  | .delete c => inferInstanceAs (Decidable (Idle s c))
  | .back => inferInstanceAs (Decidable (s.byteRead = true))
  | .open _ | .leave _ | .read _ _ | .createNamedPipe _ | .connectNamedPipe | .notify _ | .triggerAsyncCacheRead _
  | .takeByte _ => isTrue trivial

/-- the client does not come and leave before the first ConnectNamedPipe -/
def Stays (s : St C) : Op C → Prop
  | .leave h => ¬ (s.oshd acceptor = some h ∧ s.service.connects = true)
  | _ => True

instance decStays (s : St C) : (o : Op C) → Decidable (Stays acceptor s o)
  | .leave h => inferInstanceAs (Decidable (¬ (s.oshd acceptor = some h ∧ s.service.connects = true)))
  | .open _ | .read _ _ | .createNamedPipe _ | .connectNamedPipe | .notify _ | .triggerAsyncCacheRead _ | .takeByte _
  | .delete _ | .back => isTrue trivial

end Steps

/-! ## Inversion -/

/-- the thread behind `wait_for_connection` -/
inductive Waited : Service C → Service C → Prop
  | main : Waited (.connect none) .wait
  | listen {c} : Waited (.connect (some c)) (.onAccept c)
  | notify {c} : Waited (.connectAgain c) (.trigger c)

theorem creates_of_connects {a : Service C} (h : a.connects = true) : a.creates = false := by
  cases a <;> first | rfl | cases h

theorem Waited.pconn {a b : Service C} (h : Waited a b) : b.pconn = a.pconn := by cases h <;> rfl

theorem Waited.creates {a b : Service C} (h : Waited a b) : a.creates = false ∧ b.creates = false := by
  cases h <;> exact ⟨rfl, rfl⟩

theorem Waited.connects {a b : Service C} (h : Waited a b) : b.connects = false := by cases h <;> rfl

theorem Waited.ne {a b : Service C} (h : Waited a b) : (∀ c, a ≠ .onClose c ∧ b ≠ .onClose c) ∧ b ≠ .fault := by
  cases h <;> exact ⟨fun _ => ⟨nofun, nofun⟩, nofun⟩

section Inversion

variable [DecidableEq C] (acceptor : C) (event : Bool)

/-- what one operation does -/
inductive Step (s : St C) : Op C → St C → Prop
  | open {h i} (hi : s.instances h = some i) (hp : i.peer = .nobody) : Step s (.open h) (openPipe s h i)
  | leave {h i k} (hi : s.instances h = some i) (hp : i.peer = .here k) :
      Step s (.leave h) (s.setInstance h { i with peer := .gone k })
  | read {h i c result} (hi : s.instances h = some i) (hr : i.reading = some c) (hres : result ≠ .other) :
      Step s (.read h result) (completeRead s h result i)
  | create {pconn h} (hs : s.service = .create pconn) (hi : s.instances h = none) (hh : h ≠ invalidOsHandle) :
      Step s (.createNamedPipe h) (listen acceptor s pconn h)
  | connect {service} (hs : Waited s.service service) :
      Step s .connectNamedPipe (waitForConnection acceptor s service)
  | notify {pconn p port s'} (hs : s.service = .wait) (hp : s.port = p :: port)
      (hd : dispatch acceptor event { s with port := port } pconn p = some s') : Step s (.notify pconn) s'
  | trigger {failed c s'} (hs : s.service = .trigger c) (ht : triggerAsyncCacheRead s failed c = some s') :
      Step s (.triggerAsyncCacheRead failed) s'
  | takeByte {c} (ho : s.oshd c ≠ none) :
      Step s (.takeByte c) { s with cacheEmpty := update s.cacheEmpty c true }
  | delete {c h c'} (hs : s.service = .onAccept c' ∨ s.service = .onRead c' ∨ s.service = .onClose c')
      (hc : c ≠ acceptor) (ho : s.oshd c = some h) : Step s (.delete c) (deleteConnection s c h)
  | backAccept {c} (hs : s.service = .onAccept c) : Step s .back { s with service := .connectAgain c }
  | backRead {c} (hs : s.service = .onRead c) :
      Step s .back { s with service := if s.oshd c = none ∨ s.byteLeft c = true then .fault else .trigger c }
  | backClose {c} (hs : s.service = .onClose c) : Step s .back { s with service := .wait }

variable {acceptor event} {s s' : St C} {o : Op C}

theorem step_eq (hstep : step acceptor event s o = some s') : Step acceptor event s o s' := by
  cases o with
  | «open» h =>
    obtain ⟨i, hi, hstep⟩ := Option.bind_eq_some_iff.1 hstep
    split_ifs at hstep with hp
    cases hstep
    exact .open hi hp
  | leave h =>
    obtain ⟨i, hi, hstep⟩ := Option.bind_eq_some_iff.1 hstep
    split at hstep
    · rename_i k hp
      cases hstep
      exact .leave hi hp
    · cases hstep
  | read h result =>
    obtain ⟨i, hi, hstep⟩ := Option.bind_eq_some_iff.1 hstep
    split at hstep <;> cases hstep
    · exact .read hi ‹_› nofun
    · exact .read hi ‹_› nofun
    · exact .read hi ‹_› nofun
    · exact .read hi ‹_› nofun
    · exact .read hi ‹_› nofun
  | createNamedPipe h =>
    simp only [step] at hstep
    split at hstep
    · rename_i pconn hs
      split_ifs at hstep with hh
      cases hstep
      exact .create hs hh.1 hh.2
    · cases hstep
  | connectNamedPipe =>
    simp only [step] at hstep
    split at hstep <;> cases hstep
    · rename_i hs
      exact .connect (hs ▸ .main)
    · rename_i c hs
      exact .connect (hs ▸ .listen)
    · rename_i c hs
      exact .connect (hs ▸ .notify)
  | notify pconn =>
    simp only [step] at hstep
    split at hstep
    · exact .notify ‹_› ‹_› hstep
    · cases hstep
  | triggerAsyncCacheRead failed =>
    simp only [step] at hstep
    split at hstep
    · exact .trigger ‹_› hstep
    · cases hstep
  | takeByte c =>
    obtain ⟨h, ho, rfl⟩ := Option.map_eq_some_iff.1 hstep
    exact .takeByte (by rw [ho]; nofun)
  | delete c =>
    simp only [step] at hstep
    split at hstep
    · split_ifs at hstep with hc
      obtain ⟨h, ho, rfl⟩ := Option.map_eq_some_iff.1 hstep
      exact .delete (Or.inl ‹_›) hc ho
    · split_ifs at hstep with hc
      obtain ⟨h, ho, rfl⟩ := Option.map_eq_some_iff.1 hstep
      exact .delete (Or.inr (Or.inl ‹_›)) hc ho
    · split_ifs at hstep with hc
      obtain ⟨h, ho, rfl⟩ := Option.map_eq_some_iff.1 hstep
      exact .delete (Or.inr (Or.inr ‹_›)) hc ho
    · cases hstep
  | back =>
    simp only [step] at hstep
    split at hstep <;> cases hstep
    · exact .backAccept ‹_›
    · exact .backRead ‹_›
    · exact .backClose ‹_›

end Inversion

end Hodgepodge.Ipc.PipeAccept
