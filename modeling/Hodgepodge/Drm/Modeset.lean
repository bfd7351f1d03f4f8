/-
The device setup of `tdrm1.c`. `modeset_prepare` gives every connected connector a device: a CRTC that no other device
has and a buffer that is mapped into memory. What libdrm and the kernel answer is left open.

Results:
- `triple_prepare`: whatever is answered, what is held after the setup is what the devices in the list own.
-/
import Hodgepodge.Core.Calls
import Mathlib.Tactic.Abel

namespace Hodgepodge.Drm

open Hodgepodge.Core

/-! ## Data -/

/-- the `errno` of a call that has failed, never 0 -/
inductive Errno where
  | ENOENT
  | EFAULT
  | EOPNOTSUPP
  | other (code : ℕ)
deriving DecidableEq

abbrev Fd := ℕ

/-- an address other than `NULL` -/
abbrev Ptr := ℕ

/-- what a library call has allocated -/
structure Ref (α : Type) where
  addr : Ptr
  val : α
deriving DecidableEq

/-- `drmModeModeInfo`; `timing` stands for the fields that the program passes on unread -/
structure Mode where
  hdisplay : UInt16
  vdisplay : UInt16
  timing : ℕ
deriving DecidableEq

inductive Connection where
  | connected
  | disconnected
  | unknown
deriving DecidableEq

structure Connector where
  connectorId : UInt32
  encoderId : UInt32
  connection : Connection
  modes : List Mode
  encoders : List UInt32
deriving DecidableEq

structure Encoder where
  crtcId : UInt32
  possibleCrtcs : UInt32
deriving DecidableEq

/-- `drmModeRes`; the kernel has at most as many CRTCs as `possible_crtcs` has bits -/
structure Res where
  connectors : List UInt32
  crtcs : List UInt32
  crtcs_le : crtcs.length ≤ 32
deriving DecidableEq

structure Crtc where
  crtcId : UInt32
  bufferId : UInt32
  x : UInt32
  y : UInt32
  mode : Mode
deriving DecidableEq

/-- the answer to `DRM_IOCTL_MODE_CREATE_DUMB` -/
structure Dumb where
  pitch : UInt32
  size : UInt64
  handle : UInt32
deriving DecidableEq

/-- `modeset_dev`, at the address `ptr` -/
structure Dev where
  ptr : Ptr
  width : UInt32
  height : UInt32
  stride : UInt32
  size : UInt32
  handle : UInt32
  map : Ptr
  mode : Mode
  fb : UInt32
  conn : UInt32
  crtc : UInt32
  savedCrtc : Option (Ref Crtc)
deriving DecidableEq

/-- after `memset` -/
def Dev.zero (ptr : Ptr) : Dev := ⟨ptr, 0, 0, 0, 0, 0, 0, ⟨0, 0, 0⟩, 0, 0, 0, none⟩

/-! ## Calls -/

/-- the three names that libdrm has for a device -/
inductive DeviceName where
  | primary
  | render
  | device
deriving DecidableEq

inductive Call where
  | openNode (node : String)
  | getName (name : DeviceName) (fd : Fd)
  | getCapDumb (fd : Fd)
  | close (fd : Fd)
  | getResources (fd : Fd)
  | freeResources (res : Ptr)
  | getConnector (fd : Fd) (id : UInt32)
  | freeConnector (conn : Ptr)
  | malloc
  | free (ptr : Ptr)
  | getEncoder (fd : Fd) (id : UInt32)
  | freeEncoder (enc : Ptr)
  | createDumb (fd : Fd) (width height bpp : UInt32)
  | addFB (fd : Fd) (width height : UInt32) (depth bpp : ℕ) (pitch handle : UInt32)
  | mapDumb (fd : Fd) (handle : UInt32)
  | mmap (fd : Fd) (size : UInt32) (offset : UInt64)
  | munmap (map : Ptr) (size : UInt32)
  | rmFB (fd : Fd) (fb : UInt32)
  | destroyDumb (fd : Fd) (handle : UInt32)
  | getCrtc (fd : Fd) (id : UInt32)
  | setCrtc (fd : Fd) (crtc fb x y : UInt32) (conn : List UInt32) (mode : Mode)
  | freeCrtc (crtc : Ptr)
  | clear (map : Ptr) (size : UInt32)
  | store (map : Ptr) (off : UInt32) (v : UInt32)
  | rand
deriving DecidableEq

/-- `none` stands for `NULL`, and for a result below 0 where the program reads no `errno` -/
@[reducible] def Answer : Call → Type
  | .openNode _ => Except Errno Fd
  | .getName _ _ => Option Ptr
  | .getCapDumb _ => Option UInt64
  | .getResources _ => Except Errno (Ref Res)
  | .getConnector _ _ => Option (Ref Connector)
  | .malloc => Option Ptr
  | .getEncoder _ _ => Option (Ref Encoder)
  | .createDumb _ _ _ _ => Except Errno Dumb
  | .addFB _ _ _ _ _ _ _ => Except Errno UInt32
  | .mapDumb _ _ => Except Errno UInt64
  | .mmap _ _ _ => Except Errno Ptr
  | .getCrtc _ _ => Option (Ref Crtc)
  | .setCrtc _ _ _ _ _ _ _ => Except Errno Unit
  | .rand => UInt32
  | _ => Unit

abbrev ask (c : Call) : Prog Answer (Answer c) := Prog.ask c

/-- a card with one screen of one pixel, on connector 31, encoder 51 and CRTC 41, on which all goes well -/
def oneScreen : Prog.World Answer Unit
  | .openNode _, s => (.ok 3, s)
  | .getName _ _, s => (some 100, s)
  | .getCapDumb _, s => (some 1, s)
  | .getResources _, s => (.ok ⟨200, ⟨[31], [41], Nat.le_add_left 1 31⟩⟩, s)
  | .getConnector _ _, s => (some ⟨300, ⟨31, 51, .connected, [⟨1, 1, 60⟩], [51]⟩⟩, s)
  | .malloc, s => (some 400, s)
  | .getEncoder _ _, s => (some ⟨500, ⟨41, 1⟩⟩, s)
  | .createDumb _ _ _ _, s => (.ok ⟨64, 4096, 71⟩, s)
  | .addFB _ _ _ _ _ _ _, s => (.ok 61, s)
  | .mapDumb _ _, s => (.ok 0, s)
  | .mmap _ _ _, s => (.ok 600, s)
  | .getCrtc _ id, s => (some ⟨700, ⟨id, 60, 0, 0, ⟨1, 1, 60⟩⟩⟩, s)
  | .setCrtc _ _ _ _ _ _ _, s => (.ok (), s)
  | .rand, s => (7, s)
  | .close _, s | .freeResources _, s | .freeConnector _, s | .free _, s | .freeEncoder _, s | .munmap _ _, s
  | .rmFB _ _, s | .destroyDumb _ _, s | .freeCrtc _, s | .clear _ _, s | .store _ _ _, s => ((), s)

/-! ## The CRTC of a connector -/

/-- the loop over `modeset_list` -/
def unused : List Dev → Int32 → Int32
  | [], crtc => crtc
  | iter :: list, crtc => if iter.crtc = crtc.toUInt32 then -1 else unused list crtc

def currentEncoder (fd : Fd) (conn : Connector) : Prog Answer (Option (Ref Encoder)) :=
  if conn.encoderId ≠ 0 then ask (.getEncoder fd conn.encoderId) else pure none

/-- the first part: the encoder and the CRTC that the connector has -/
def currentCrtc (fd : Fd) (list : List Dev) (conn : Connector) : Prog Answer (Option UInt32) := do
  match ← currentEncoder fd conn with
  | none => pure none
  | some enc =>
    let crtc := unused list enc.val.crtcId.toInt32
    if enc.val.crtcId ≠ 0 ∧ 0 ≤ crtc then do
      ask (.freeEncoder enc.addr)
      return some crtc.toUInt32
    else do
      ask (.freeEncoder enc.addr)
      return none

/-- the loop over the CRTCs, from number `j` on -/
def tryCrtcs (list : List Dev) (possibleCrtcs : UInt32) : ℕ → List UInt32 → Option UInt32
  | _, [] => none
  | j, id :: crtcs =>
    if possibleCrtcs &&& (1 <<< j.toUInt32) = 0 then tryCrtcs list possibleCrtcs (j + 1) crtcs
    else
      let crtc := unused list id.toInt32
      if 0 ≤ crtc then some crtc.toUInt32 else tryCrtcs list possibleCrtcs (j + 1) crtcs

/-- the loop over the encoders -/
def tryEncoders (fd : Fd) (list : List Dev) (res : Res) : List UInt32 → Prog Answer (Option UInt32)
  | [] => pure none
  | id :: encoders => do
    match ← ask (.getEncoder fd id) with
    | none => tryEncoders fd list res encoders
    | some enc =>
      match tryCrtcs list enc.val.possibleCrtcs 0 res.crtcs with
      | some crtc => do
        ask (.freeEncoder enc.addr)
        return some crtc
      | none => do
        ask (.freeEncoder enc.addr)
        tryEncoders fd list res encoders

def modesetFindCrtc (fd : Fd) (list : List Dev) (res : Res) (conn : Connector) (dev : Dev) :
    Prog Answer (Except Errno Dev) := do
  match ← currentCrtc fd list conn with
  | some crtc => return .ok { dev with crtc := crtc }
  | none =>
    match ← tryEncoders fd list res conn.encoders with
    | some crtc => return .ok { dev with crtc := crtc }
    | none => return .error .ENOENT

/-! ## The buffer and the list of devices -/

/-- the label `err_destroy` -/
def errDestroy (fd : Fd) (dev : Dev) (ret : Errno) : Prog Answer (Except Errno Dev) := do
  ask (.destroyDumb fd dev.handle)
  return .error ret

/-- the label `err_fb` -/
def errFb (fd : Fd) (dev : Dev) (ret : Errno) : Prog Answer (Except Errno Dev) := do
  ask (.rmFB fd dev.fb)
  errDestroy fd dev ret

def modesetCreateFb (fd : Fd) (dev : Dev) : Prog Answer (Except Errno Dev) := do
  match ← ask (.createDumb fd dev.width dev.height 32) with
  | .error ret => return .error ret
  | .ok creq =>
    -- the size has 64 bits, the field 32
    let dev := { dev with stride := creq.pitch, size := creq.size.toUInt32, handle := creq.handle }
    match ← ask (.addFB fd dev.width dev.height 24 32 dev.stride dev.handle) with
    | .error ret => errDestroy fd dev ret
    | .ok fb =>
      let dev := { dev with fb := fb }
      match ← ask (.mapDumb fd dev.handle) with
      | .error ret => errFb fd dev ret
      | .ok offset =>
        match ← ask (.mmap fd dev.size offset) with
        | .error ret => errFb fd dev ret
        | .ok map => do
          ask (.clear map dev.size)
          return .ok { dev with map := map }

def modesetSetupDev (fd : Fd) (list : List Dev) (res : Res) (conn : Connector) (dev : Dev) :
    Prog Answer (Except Errno Dev) :=
  if conn.connection ≠ .connected then return .error .ENOENT
  else match conn.modes with
  | [] => return .error .EFAULT
  | mode :: _ => do
    let dev := { dev with mode := mode, width := mode.hdisplay.toUInt32, height := mode.vdisplay.toUInt32 }
    match ← modesetFindCrtc fd list res conn dev with
    | .error ret => return .error ret
    | .ok dev => modesetCreateFb fd dev

/-- one turn of the loop over the connectors -/
def prepareConnector (fd : Fd) (res : Res) (list : List Dev) (id : UInt32) : Prog Answer (List Dev) := do
  match ← ask (.getConnector fd id) with
  | none => return list
  | some conn =>
    match ← ask .malloc with
    | none => Prog.fault -- `memset` writes to the address that `malloc` returned
    | some ptr =>
      match ← modesetSetupDev fd list res conn.val { Dev.zero ptr with conn := conn.val.connectorId } with
      | .error _ => do
        ask (.free ptr)
        ask (.freeConnector conn.addr)
        return list
      | .ok dev => do
        ask (.freeConnector conn.addr)
        return dev :: list

def prepareConnectors (fd : Fd) (res : Res) : List UInt32 → List Dev → Prog Answer (List Dev)
  | [], list => pure list
  | id :: connectors, list => do
    let list ← prepareConnector fd res list id
    prepareConnectors fd res connectors list

/-- the new `modeset_list` -/
def modesetPrepare (fd : Fd) (list : List Dev) : Prog Answer (Except Errno (List Dev)) := do
  match ← ask (.getResources fd) with
  | .error ret => return .error ret
  | .ok res =>
    let list ← prepareConnectors fd res.val res.val.connectors list
    ask (.freeResources res.addr)
    return .ok list

/-! ## What is held -/

/-- what a call hands out: most of it another call takes back, the rest is numbers that may be passed on -/
inductive Thing where
  | fd (fd : Fd)
  | name (ptr : Ptr)
  | resources (ptr : Ptr)
  | connector (ptr : Ptr)
  | encoder (ptr : Ptr)
  | crtc (ptr : Ptr)
  | memory (ptr : Ptr)
  | buffer (handle : UInt32)
  | framebuffer (fb : UInt32)
  | mapping (map : Ptr)
  /-- the mapping has this size -/
  | extent (map : Ptr) (size : UInt32)
  /-- the number of a framebuffer of the program, or of one that a CRTC was reported to show -/
  | scanout (fb : UInt32)
  /-- the number of a connector that was answered -/
  | sink (id : UInt32)
deriving DecidableEq

def ledger : Ledger Answer Thing where
  uses
    | .getName _ fd | .getCapDumb fd | .getResources fd | .getConnector fd _ | .getEncoder fd _ | .createDumb fd _ _ _
    | .mmap fd _ _ | .rmFB fd _ | .destroyDumb fd _ | .getCrtc fd _ => {.fd fd}
    | .setCrtc fd _ fb _ _ conn _ => {.fd fd} + {.scanout fb} + (conn : Multiset UInt32).map .sink
    | .addFB fd _ _ _ _ _ handle | .mapDumb fd handle => {.fd fd} + {.buffer handle}
    | .clear map size => {.mapping map} + {.extent map size}
    | .store map _ _ => {.mapping map}
    | _ => 0
  takes
    | .close fd => {.fd fd}
    | .freeResources ptr => {.resources ptr}
    | .freeConnector ptr => {.connector ptr}
    | .freeEncoder ptr => {.encoder ptr}
    | .freeCrtc ptr => {.crtc ptr}
    | .free ptr => {.memory ptr}
    | .munmap map size => {.mapping map} + {.extent map size}
    | .rmFB _ fb => {.framebuffer fb} + {.scanout fb}
    | .destroyDumb _ handle => {.buffer handle}
    | _ => 0
  gives
    | .openNode _, .ok fd => {.fd fd}
    | .getName _ _, some ptr => {.name ptr}
    | .getResources _, .ok res => {.resources res.addr}
    | .getConnector _ _, some conn => {.connector conn.addr} + {.sink conn.val.connectorId}
    | .malloc, some ptr => {.memory ptr}
    | .getEncoder _ _, some enc => {.encoder enc.addr}
    | .createDumb _ _ _ _, .ok creq => {.buffer creq.handle}
    | .addFB _ _ _ _ _ _ _, .ok fb => {.framebuffer fb} + {.scanout fb}
    | .mmap _ size _, .ok map => {.mapping map} + {.extent map size}
    | .getCrtc _ _, some crtc => {.crtc crtc.addr} + {.scanout crtc.val.bufferId}
    | _, _ => 0

/-- the names of the card and the numbers; nothing takes them back, but that `rmFB` takes the one of its framebuffer -/
def Thing.stays : Thing → Bool
  | .name _ | .scanout _ | .sink _ => true
  | _ => false

/-- the holdings are those of `Q`, up to names and numbers -/
abbrev Left {α : Type} (Q : α → Multiset Thing → Prop) : α → Multiset Thing → Prop :=
  Ledger.UpTo (fun x => x.stays = true) Q

/-- the buffer of a device with its framebuffer and its mapping -/
def Dev.surface (dev : Dev) : Multiset Thing :=
  {.buffer dev.handle} + ({.framebuffer dev.fb} + {.scanout dev.fb}) + {.mapping dev.map} + {.extent dev.map dev.size}

/-- the configuration that a device has saved -/
def Dev.saved (dev : Dev) : Multiset Thing :=
  match dev.savedCrtc with
  | some crtc => {.crtc crtc.addr} + {.scanout crtc.val.bufferId}
  | none => 0

/-- what a device owns -/
def Dev.owns (dev : Dev) : Multiset Thing := {.memory dev.ptr} + {.sink dev.conn} + dev.surface + dev.saved

def owned (list : List Dev) : Multiset Thing := (list.map Dev.owns).sum

variable {fd : Fd} {list : List Dev} {res : Res} {conn : Connector} {dev : Dev} {k : Multiset Thing}

theorem Dev.owns_new (h : dev.savedCrtc = none) : dev.owns = {.memory dev.ptr} + {.sink dev.conn} + dev.surface := by
  rw [Dev.owns, Dev.saved, h, add_zero]

theorem owned_cons : owned (dev :: list) = dev.owns + owned list := by
  rw [owned, List.map_cons, List.sum_cons, owned]

theorem triple_freeEncoder {α : Type} {enc : Ptr} {p : Prog Answer α} {Q : α → Multiset Thing → Prop}
    (h : ledger.Triple {.fd fd} p Q) :
    ledger.Triple ({.fd fd} + {.encoder enc}) (ask (.freeEncoder enc) >>= fun _ => p) Q := by
  refine ledger.triple_call {.fd fd} ?_ fun _ => ?_
  · exact add_comm _ _
  · exact h

theorem triple_currentCrtc :
    ledger.Triple {.fd fd} (currentCrtc fd list conn) fun _ n => n = {.fd fd} := by
  unfold currentCrtc currentEncoder
  apply ledger.triple_bind (Q := fun enc n => n = {.fd fd} + ledger.gives (.getEncoder fd conn.encoderId) enc)
  · split_ifs with h
    · exact ledger.triple_ask
    · exact ledger.triple_pure rfl
  · rintro enc n rfl
    cases enc with
    | none => exact ledger.triple_pure rfl
    | some enc =>
      dsimp only
      split_ifs with h
      · exact triple_freeEncoder (ledger.triple_pure rfl)
      · exact triple_freeEncoder (ledger.triple_pure rfl)

theorem triple_tryEncoders {encoders : List UInt32} :
    ledger.Triple {.fd fd} (tryEncoders fd list res encoders) fun _ n => n = {.fd fd} := by
  induction encoders with
  | nil => exact ledger.triple_pure rfl
  | cons id encoders ih =>
    unfold tryEncoders
    refine ledger.triple_call 0 rfl fun enc => ?_
    cases enc with
    | none => exact ih
    | some enc =>
      dsimp only
      split
      · exact triple_freeEncoder (ledger.triple_pure rfl)
      · exact triple_freeEncoder ih

/-- what the setup of a device leaves held, and the fields that it keeps -/
def SetUp (fd : Fd) (dev : Dev) (surface : Dev → Multiset Thing) : Except Errno Dev → Multiset Thing → Prop
  | .error _, n => n = {.fd fd}
  | .ok dev', n => n = {.fd fd} + surface dev' ∧ dev'.ptr = dev.ptr ∧ dev'.conn = dev.conn ∧
      dev'.savedCrtc = dev.savedCrtc

theorem triple_findCrtc :
    ledger.Triple {.fd fd} (modesetFindCrtc fd list res conn dev) (SetUp fd dev fun _ => 0) := by
  unfold modesetFindCrtc
  apply ledger.triple_bind triple_currentCrtc
  rintro (_ | crtc) n rfl
  · apply ledger.triple_bind triple_tryEncoders
    rintro (_ | crtc) n rfl
    · exact ledger.triple_pure rfl
    · exact ledger.triple_pure ⟨rfl, rfl, rfl, rfl⟩
  · exact ledger.triple_pure ⟨rfl, rfl, rfl, rfl⟩

theorem triple_errDestroy {ret : Errno} {surface : Dev → Multiset Thing} {dev' : Dev} :
    ledger.Triple ({.fd fd} + {.buffer dev.handle}) (errDestroy fd dev ret) (SetUp fd dev' surface) :=
  ledger.triple_call 0 rfl fun _ => ledger.triple_pure rfl

theorem triple_errFb {ret : Errno} {surface : Dev → Multiset Thing} {dev' : Dev} :
    ledger.Triple ({.fd fd} + {.buffer dev.handle} + ({.framebuffer dev.fb} + {.scanout dev.fb})) (errFb fd dev ret)
      (SetUp fd dev' surface) := by
  refine ledger.triple_call {.buffer dev.handle} (add_right_comm _ _ _) fun _ => triple_errDestroy

theorem triple_createFb : ledger.Triple {.fd fd} (modesetCreateFb fd dev) (SetUp fd dev Dev.surface) := by
  unfold modesetCreateFb
  refine ledger.triple_call 0 rfl fun creq => ?_
  rcases creq with ret | creq
  · exact ledger.triple_pure rfl
  refine ledger.triple_call 0 rfl fun fb => ?_
  rcases fb with ret | fb
  · exact triple_errDestroy
  refine ledger.triple_call ({.framebuffer fb} + {.scanout fb}) rfl fun offset => ?_
  rcases offset with ret | offset
  · exact triple_errFb
  refine ledger.triple_call ({.buffer creq.handle} + ({.framebuffer fb} + {.scanout fb})) (add_assoc _ _ _) fun map => ?_
  rcases map with ret | map
  · exact ledger.triple_eq (add_assoc _ _ _).symm triple_errFb
  refine ledger.triple_call ({.fd fd} + ({.buffer creq.handle} + ({.framebuffer fb} + {.scanout fb}))) ?_ fun _ => ?_
  · simp only [ledger]
    abel
  · refine ledger.triple_pure ⟨?_, rfl, rfl, rfl⟩
    simp only [ledger, Dev.surface]
    abel

theorem triple_setupDev :
    ledger.Triple {.fd fd} (modesetSetupDev fd list res conn dev) (SetUp fd dev Dev.surface) := by
  unfold modesetSetupDev
  split_ifs with h
  · exact ledger.triple_pure rfl
  split
  · exact ledger.triple_pure rfl
  · apply ledger.triple_bind triple_findCrtc
    rintro (ret | dev') n hn
    · exact ledger.triple_pure hn
    · obtain ⟨rfl, hptr, hconn, hcrtc⟩ := hn
      refine ledger.triple_mono triple_createFb ?_
      rintro (ret | dev'') n hn
      · exact hn
      · exact ⟨hn.1, hn.2.1.trans hptr, hn.2.2.1.trans hconn, hn.2.2.2.trans hcrtc⟩

/-- the list as the setup makes it: what is held is what its devices own -/
def Prepared (fd : Fd) (list : List Dev) (n : Multiset Thing) : Prop :=
  n = {.fd fd} + owned list ∧ ∀ dev ∈ list, dev.savedCrtc = none

theorem triple_prepareConnector {id : UInt32} (hnew : ∀ dev ∈ list, dev.savedCrtc = none) :
    ledger.Triple ({.fd fd} + owned list) (prepareConnector fd res list id) (Left (Prepared fd)) := by
  unfold prepareConnector
  refine ledger.triple_call (owned list) rfl fun conn => ?_
  rcases conn with _ | conn
  · exact ledger.triple_pure (Ledger.upTo_self ⟨rfl, hnew⟩)
  refine ledger.triple_call ({.fd fd} + ({.connector conn.addr} + {.sink conn.val.connectorId}) + owned list)
    (zero_add _).symm fun ptr => ?_
  rcases ptr with _ | ptr
  · exact ledger.triple_fault
  apply ledger.triple_bind
  · refine ledger.triple_eq ?_ (ledger.triple_frame triple_setupDev
      ({.memory ptr} + {.connector conn.addr} + {.sink conn.val.connectorId} + owned list))
    simp only [ledger]
    abel
  rintro (ret | dev) n ⟨n', rfl, hn⟩
  · obtain rfl := hn
    refine ledger.triple_call ({.fd fd} + {.connector conn.addr} + {.sink conn.val.connectorId} + owned list) ?_
      fun _ => ?_
    · simp only [ledger]
      abel
    refine ledger.triple_call ({.fd fd} + owned list + {.sink conn.val.connectorId}) ?_ fun _ => ledger.triple_pure ?_
    · simp only [ledger]
      abel
    · -- the number of a connector that is not used
      refine ⟨{.fd fd} + owned list, {.sink conn.val.connectorId}, by simp only [ledger, zero_add], fun x hx => ?_, rfl,
        hnew⟩
      rw [Multiset.mem_singleton.1 hx]
      rfl
  · obtain ⟨rfl, hptr, hconn, hcrtc⟩ := hn
    refine ledger.triple_call ({.fd fd} + dev.surface + {.memory ptr} + {.sink conn.val.connectorId} + owned list) ?_
      fun _ => ?_
    · simp only [ledger]
      abel
    refine ledger.triple_pure (Ledger.upTo_self ⟨?_, List.forall_mem_cons.2 ⟨hcrtc, hnew⟩⟩)
    rw [owned_cons, dev.owns_new hcrtc, hptr, hconn]
    simp only [ledger, Dev.zero]
    abel

theorem triple_prepareConnectors {connectors : List UInt32} (hnew : ∀ dev ∈ list, dev.savedCrtc = none) :
    ledger.Triple ({.fd fd} + owned list) (prepareConnectors fd res connectors list) (Left (Prepared fd)) := by
  induction connectors generalizing list with
  | nil => exact ledger.triple_pure (Ledger.upTo_self ⟨rfl, hnew⟩)
  | cons id connectors ih =>
    apply ledger.triple_bind_upTo (triple_prepareConnector hnew)
    rintro list' n ⟨rfl, hnew'⟩
    exact ih hnew'

/-- **The setup holds what its devices own.** Whatever is answered, nothing is used or given back that is not held, and
no more is held in the end, beside numbers. -/
theorem triple_prepare (fd : Fd) (list : List Dev) (hnew : ∀ dev ∈ list, dev.savedCrtc = none) :
    ledger.Triple ({.fd fd} + owned list) (modesetPrepare fd list) (Left fun r n =>
      match r with
      | .error _ => n = {.fd fd} + owned list
      | .ok list' => Prepared fd list' n) := by
  unfold modesetPrepare
  refine ledger.triple_call (owned list) rfl fun res => ?_
  rcases res with ret | res
  · exact ledger.triple_pure (Ledger.upTo_self rfl)
  apply ledger.triple_bind
  · refine ledger.triple_eq ?_ (ledger.triple_frame (triple_prepareConnectors hnew) {.resources res.addr})
    exact add_right_comm _ _ _
  rintro list' n ⟨_, rfl, n', k, rfl, hk, rfl, hnew'⟩
  refine ledger.triple_call ({.fd fd} + owned list' + k) ?_ fun _ => ledger.triple_pure ?_
  · simp only [ledger]
    abel
  · refine ⟨{.fd fd} + owned list', k, ?_, hk, rfl, hnew'⟩
    simp only [ledger, zero_add]

end Hodgepodge.Drm
