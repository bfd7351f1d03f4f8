/-
The program `tdrm1.c`: it opens the card, sets up its devices, shows them, draws for a while and puts everything back.

Results:
- `main_books`: whatever is answered, nothing is used or given back that is not held, and a run that ends has given
  everything back but the names of the card. Numbers may be known for longer than what they stand for.
- `main_faults`: a run goes wrong if and only if `malloc` or `drmModeGetCrtc` answers `NULL`.
-/
import Hodgepodge.Drm.Modeset

namespace Hodgepodge.Drm

open Hodgepodge.Core

/-! ## Drawing -/

/-- `next_color`, with what `rand` returned -/
def nextColor (up : Bool) (cur : UInt8) (mod rand : UInt32) : Bool × UInt8 :=
  let next := (cur.toUInt32 + (if up then 1 else -1) * (rand % mod)).toUInt8
  if up ∧ next < cur ∨ ¬ up ∧ next > cur then (!up, cur) else (up, next)

/-- the variables of `modeset_draw` -/
structure Colors where
  r : UInt8
  g : UInt8
  b : UInt8
  rUp : Bool
  gUp : Bool
  bUp : Bool
deriving DecidableEq

def Colors.pixel (c : Colors) : UInt32 := c.r.toUInt32 <<< 16 ||| c.g.toUInt32 <<< 8 ||| c.b.toUInt32

def firstColors : Prog Answer Colors := do
  let r ← ask .rand
  let g ← ask .rand
  let b ← ask .rand
  return ⟨(r % 0xff).toUInt8, (g % 0xff).toUInt8, (b % 0xff).toUInt8, true, true, true⟩

def nextColors (c : Colors) : Prog Answer Colors := do
  let r := nextColor c.rUp c.r 20 (← ask .rand)
  let g := nextColor c.gUp c.g 10 (← ask .rand)
  let b := nextColor c.bUp c.b 5 (← ask .rand)
  return ⟨r.2, g.2, b.2, r.1, g.1, b.1⟩

/-- the loops over the lines of a device and over the pixels of a line -/
def drawDev (v : UInt32) (dev : Dev) : Prog Answer Unit :=
  Prog.count (fun j => Prog.count (fun k _ =>
    ask (.store dev.map (dev.stride * j.toUInt32 + k.toUInt32 * 4) v)) dev.width.toNat 0) dev.height.toNat 0 ()

def drawRound (list : List Dev) (c : Colors) : Prog Answer Colors := do
  let c ← nextColors c
  Prog.each (fun dev _ => drawDev c.pixel dev) list ()
  return c

def modesetDraw (list : List Dev) : Prog Answer Unit := do
  let c ← firstColors
  let _ ← Prog.count (fun _ => drawRound list) 50 0 c
  return ()

/-! ## The program -/

def modesetOpen (node : String) : Prog Answer (Except Errno Fd) := do
  match ← ask (.openNode node) with
  | .error ret => return .error ret
  | .ok fd =>
    let _ ← ask (.getName .primary fd)
    let _ ← ask (.getName .render fd)
    let _ ← ask (.getName .device fd)
    let cap ← ask (.getCapDumb fd)
    if cap = none ∨ cap = some 0 then do
      ask (.close fd)
      return .error .EOPNOTSUPP
    else return .ok fd

/-- the loop of `main` over `modeset_list` -/
def modesetShow (fd : Fd) : List Dev → Prog Answer (List Dev)
  | [] => pure []
  | iter :: list => do
    let saved ← ask (.getCrtc fd iter.crtc)
    let _ ← ask (.setCrtc fd iter.crtc iter.fb 0 0 [iter.conn] iter.mode)
    let list ← modesetShow fd list
    return { iter with savedCrtc := saved } :: list

def modesetCleanup (fd : Fd) : List Dev → Prog Answer Unit
  | [] => pure ()
  | iter :: list =>
    match iter.savedCrtc with
    | none => Prog.fault
    | some saved => do
      let _ ← ask (.setCrtc fd saved.val.crtcId saved.val.bufferId saved.val.x saved.val.y [iter.conn] saved.val.mode)
      ask (.freeCrtc saved.addr)
      ask (.munmap iter.map iter.size)
      ask (.rmFB fd iter.fb)
      ask (.destroyDumb fd iter.handle)
      ask (.free iter.ptr)
      modesetCleanup fd list

/-- what `main` does with the devices -/
def present (fd : Fd) (list : List Dev) : Prog Answer Unit := do
  let list ← modesetShow fd list
  modesetDraw list
  modesetCleanup fd list

/-- the device node that the arguments name -/
def card : List String → String
  | _ :: node :: _ => node
  | _ => "/dev/dri/card0"

def main (argv : List String) : Prog Answer (Except Errno Unit) := do
  match ← modesetOpen (card argv) with
  | .error ret => return .error ret
  | .ok fd =>
    match ← modesetPrepare fd [] with
    | .error ret => do
      ask (.close fd)
      return .error ret
    | .ok list => do
      present fd list
      ask (.close fd)
      return .ok ()

/-! ## What is held -/

variable {fd : Fd} {list : List Dev} {dev : Dev} {m : Multiset Thing}

theorem triple_nextColors {c : Colors} : ledger.Triple m (nextColors c) fun _ n => n = m := by
  have hm : m = 0 + 0 + m := by simp
  refine ledger.triple_call m hm fun _ => ledger.triple_call m rfl fun _ => ledger.triple_call m rfl fun _ => ?_
  exact ledger.triple_pure hm.symm

theorem triple_firstColors : ledger.Triple m firstColors fun _ n => n = m := by
  have hm : m = 0 + 0 + m := by simp
  refine ledger.triple_call m hm fun _ => ledger.triple_call m rfl fun _ => ledger.triple_call m rfl fun _ => ?_
  exact ledger.triple_pure hm.symm

theorem mapping_of_mem (hdev : dev ∈ list) : ∃ k, owned list = {.mapping dev.map} + k := by
  induction list with
  | nil => cases hdev
  | cons dev' list ih =>
    rw [owned_cons]
    rcases List.mem_cons.1 hdev with rfl | hdev
    · refine ⟨{.memory dev.ptr} + {.sink dev.conn} + {.buffer dev.handle} + {.framebuffer dev.fb} + {.scanout dev.fb} +
        {.extent dev.map dev.size} + dev.saved + owned list, ?_⟩
      rw [Dev.owns, Dev.surface]
      abel
    · obtain ⟨k, hk⟩ := ih hdev
      exact ⟨dev'.owns + k, by rw [hk]; abel⟩

theorem triple_drawDev {v : UInt32} (h : ∃ k, m = {.mapping dev.map} + k) :
    ledger.Triple m (drawDev v dev) fun _ n => n = m := by
  obtain ⟨k, rfl⟩ := h
  refine ledger.triple_count (fun j _ n hn => ?_) rfl
  refine ledger.triple_count (fun i _ n hn => ?_) hn
  exact ledger.triple_beside k hn

theorem triple_draw : ledger.Triple ({.fd fd} + owned list) (modesetDraw list) fun _ n => n = {.fd fd} + owned list := by
  apply ledger.triple_bind triple_firstColors
  rintro c n rfl
  apply ledger.triple_bind (Q := fun _ n => n = {.fd fd} + owned list)
  · refine ledger.triple_count (fun i c n hn => ?_) rfl
    subst hn
    apply ledger.triple_bind triple_nextColors
    rintro c n rfl
    apply ledger.triple_bind (Q := fun _ n => n = {.fd fd} + owned list)
    · refine ledger.triple_each (fun dev hdev _ n hn => ?_) rfl
      subst hn
      refine triple_drawDev ?_
      obtain ⟨k, hk⟩ := mapping_of_mem hdev
      exact ⟨{.fd fd} + k, by rw [hk]; abel⟩
    · rintro _ n rfl
      exact ledger.triple_pure rfl
  · rintro _ n rfl
    exact ledger.triple_pure rfl

theorem Dev.owns_saved (fd : Fd) (saved : Option (Ref Crtc)) (h : dev.savedCrtc = none) :
    Dev.owns { dev with savedCrtc := saved } = dev.owns + ledger.gives (.getCrtc fd dev.crtc) saved := by
  rw [dev.owns_new h]
  cases saved
  · rfl
  · rfl

/-- what a device is shown with, and the rest of what it owns -/
theorem Dev.owns_shown (h : dev.savedCrtc = none) : dev.owns = {.scanout dev.fb} + {.sink dev.conn} +
    ({.memory dev.ptr} + {.buffer dev.handle} + {.framebuffer dev.fb} + {.mapping dev.map} +
      {.extent dev.map dev.size}) := by
  rw [dev.owns_new h, Dev.surface]
  abel

theorem triple_show (hnew : ∀ dev ∈ list, dev.savedCrtc = none) :
    ledger.Triple ({.fd fd} + owned list) (modesetShow fd list) fun list' n => n = {.fd fd} + owned list' := by
  induction list with
  | nil => exact ledger.triple_pure rfl
  | cons dev list ih =>
    obtain ⟨hdev, hnew⟩ := List.forall_mem_cons.1 hnew
    refine ledger.triple_call (owned (dev :: list)) rfl fun saved => ?_
    set given := ledger.gives (.getCrtc fd dev.crtc) saved with hgiven
    refine ledger.triple_call (given + ({.memory dev.ptr} + {.buffer dev.handle} + {.framebuffer dev.fb} +
      {.mapping dev.map} + {.extent dev.map dev.size}) + owned list) ?_ fun _ => ?_
    · rw [owned_cons, dev.owns_shown hdev]
      simp only [ledger, Multiset.coe_singleton, Multiset.map_singleton]
      abel
    apply ledger.triple_bind
    · refine ledger.triple_eq ?_ (ledger.triple_frame (ih hnew) (dev.owns + given))
      rw [dev.owns_shown hdev]
      simp only [ledger, Multiset.coe_singleton, Multiset.map_singleton]
      abel
    rintro list' n ⟨_, rfl, rfl⟩
    refine ledger.triple_pure ?_
    rw [owned_cons, Dev.owns_saved fd saved hdev]
    abel

theorem triple_cleanup :
    ledger.Triple ({.fd fd} + owned list) (modesetCleanup fd list) (Left fun _ n => n = {.fd fd}) := by
  induction list with
  | nil => exact ledger.triple_pure (Ledger.upTo_self (add_zero _))
  | cons dev list ih =>
    unfold modesetCleanup
    split
    · exact ledger.triple_fault
    case _ saved hsaved =>
      have howns : owned (dev :: list) = {.memory dev.ptr} + {.sink dev.conn} + dev.surface +
          ({.crtc saved.addr} + {.scanout saved.val.bufferId}) + owned list := by
        rw [owned_cons, Dev.owns, Dev.saved, hsaved]
      rw [howns, Dev.surface]
      refine ledger.triple_call ({.memory dev.ptr} + dev.surface + {.crtc saved.addr} + owned list) ?_ fun _ => ?_
      · simp only [ledger, Dev.surface, Multiset.coe_singleton, Multiset.map_singleton]
        abel
      -- the numbers are left, the rest is given back
      have hleft : ∀ x ∈ ({.scanout saved.val.bufferId} + {.sink dev.conn} : Multiset Thing), x.stays = true := by
        intro x hx
        rcases Multiset.mem_add.1 hx with hx | hx
        · rw [Multiset.mem_singleton.1 hx]
          rfl
        · rw [Multiset.mem_singleton.1 hx]
          rfl
      refine ledger.triple_eq (n := {.fd fd} + {.memory dev.ptr} + dev.surface + {.crtc saved.addr} + owned list +
        ({.scanout saved.val.bufferId} + {.sink dev.conn})) ?_ (ledger.triple_drop hleft ?_)
      · simp only [ledger, Multiset.coe_singleton, Multiset.map_singleton]
        abel
      refine ledger.triple_call ({.fd fd} + {.memory dev.ptr} + dev.surface + owned list) ?_ fun _ => ?_
      · simp only [ledger]
        abel
      refine ledger.triple_call ({.fd fd} + {.memory dev.ptr} + {.buffer dev.handle} +
        ({.framebuffer dev.fb} + {.scanout dev.fb}) + owned list) ?_ fun _ => ?_
      · simp only [ledger, Dev.surface]
        abel
      refine ledger.triple_call ({.memory dev.ptr} + {.buffer dev.handle} + owned list) ?_ fun _ => ?_
      · simp only [ledger]
        abel
      refine ledger.triple_call ({.memory dev.ptr} + owned list) ?_ fun _ => ?_
      · simp only [ledger]
        abel
      refine ledger.triple_call ({.fd fd} + owned list) ?_ fun _ => ?_
      · simp only [ledger]
        abel
      exact ledger.triple_eq (zero_add _) ih

theorem triple_present (hnew : ∀ dev ∈ list, dev.savedCrtc = none) :
    ledger.Triple ({.fd fd} + owned list) (present fd list) (Left fun _ n => n = {.fd fd}) := by
  apply ledger.triple_bind (triple_show hnew)
  rintro list' n rfl
  apply ledger.triple_bind triple_draw
  rintro _ n rfl
  exact triple_cleanup

/-- the names of the card; nothing takes them back -/
def Thing.isName : Thing → Bool
  | .name _ => true
  | _ => false

/-- the numbers of framebuffers and connectors -/
def Thing.isNumber : Thing → Bool
  | .scanout _ | .sink _ => true
  | _ => false

theorem stays_of_isName {x : Thing} (h : x.isName = true) : x.stays = true := by
  cases x <;> first | rfl | cases h

theorem isName_iff {x : Thing} (h : x.stays = true) : x.isNumber = false ↔ x.isName = true := by
  cases x <;> simp_all [Thing.stays, Thing.isNumber, Thing.isName]

/-- the names that were handed out -/
def names (t : List (Event Answer)) : List Thing := t.filterMap fun
  | ⟨.getName _ _, some ptr⟩ => some (.name ptr)
  | _ => none

theorem names_given (name : DeviceName) (ptr : Option Ptr) :
    ∀ x ∈ ledger.gives (.getName name fd) ptr, x.isName = true := by
  intro x hx
  cases ptr with
  | none => exact absurd hx (Multiset.notMem_zero x)
  | some ptr =>
    rw [Multiset.mem_singleton.1 hx]
    rfl

theorem triple_open (node : String) :
    ledger.Triple 0 (modesetOpen node) (Left fun r n => n = match r with
      | .error _ => 0
      | .ok fd => {.fd fd}) := by
  unfold modesetOpen
  refine ledger.triple_call 0 rfl fun fd => ?_
  rcases fd with ret | fd
  · exact ledger.triple_pure (Ledger.upTo_self rfl)
  refine ledger.triple_call 0 rfl fun primary => ?_
  refine ledger.triple_call (ledger.gives (.getName .primary fd) primary) (add_right_comm _ _ _) fun render => ?_
  refine ledger.triple_call
    (ledger.gives (.getName .primary fd) primary + ledger.gives (.getName .render fd) render) ?_ fun device => ?_
  · simp only [ledger]
    abel
  set given := ledger.gives (.getName .primary fd) primary + ledger.gives (.getName .render fd) render +
    ledger.gives (.getName .device fd) device with hdef
  have hgiven : ∀ x ∈ given, x.stays = true := by
    intro x hx
    refine stays_of_isName ?_
    rcases Multiset.mem_add.1 hx with hx | hx
    · rcases Multiset.mem_add.1 hx with hx | hx
      · exact names_given _ _ x hx
      · exact names_given _ _ x hx
    · exact names_given _ _ x hx
  refine ledger.triple_call given ?_ fun cap => ?_
  · rw [hdef]
    simp only [ledger]
    abel
  split_ifs with hcap
  · refine ledger.triple_call given rfl fun _ => ledger.triple_pure ⟨0, given, ?_, hgiven, rfl⟩
    simp only [ledger, add_zero]
  · refine ledger.triple_pure ⟨{.fd fd}, given, ?_, hgiven, rfl⟩
    simp only [ledger, add_zero]

theorem triple_main (argv : List String) : ledger.Triple 0 (main argv) (Left fun _ n => n = 0) := by
  unfold main
  apply ledger.triple_bind_upTo (triple_open _)
  rintro (ret | fd) n rfl
  · exact ledger.triple_pure (Ledger.upTo_self rfl)
  apply ledger.triple_bind_upTo (triple_prepare fd [] nofun)
  rintro (ret | list) n hn
  · obtain rfl := hn
    exact ledger.triple_call 0 rfl fun _ => ledger.triple_pure (Ledger.upTo_self rfl)
  obtain ⟨rfl, hnew⟩ := hn
  apply ledger.triple_bind_upTo (triple_present hnew)
  rintro _ n rfl
  exact ledger.triple_call 0 rfl fun _ => ledger.triple_pure (Ledger.upTo_self rfl)

theorem takes_name (e : Event Answer) : (ledger.takes e.1).filter (fun x => x.isName = true) = 0 := by
  obtain ⟨c, a⟩ := e
  cases c <;> rfl

theorem gives_name (e : Event Answer) :
    (ledger.gives e.1 e.2).filter (fun x => x.isName = true) = ↑(names [e]) := by
  obtain ⟨c, a⟩ := e
  cases c
  case getName name fd =>
    cases a with
    | none => rfl
    | some ptr => exact Multiset.filter_eq_self.2 (names_given name (some ptr))
  all_goals first | rfl | (cases a <;> rfl)

theorem gives_names (t : List (Event Answer)) :
    (t.map fun e => (ledger.gives e.1 e.2).filter fun x => x.isName = true).sum = ↑(names t) := by
  induction t with
  | nil => rfl
  | cons e t ih =>
    rw [List.map_cons, List.sum_cons, ih, gives_name, Multiset.coe_add]
    exact congrArg _ List.filterMap_append.symm

/-- **The program gives everything back but the names of the card.** Whatever is answered, nothing is used or given back
that is not held, and a CRTC is only set to a framebuffer of the program or one that a CRTC was reported to show, and to
a connector that was answered. -/
theorem main_books (argv : List String) (t : List (Event Answer)) (o : Option (Except Errno Unit))
    (h : (main argv).Run t o) : ∃ held, ledger.books t 0 = some held ∧
      (o ≠ none → held.filter (fun x => x.isNumber = false) = ↑(names t)) := by
  obtain ⟨held, hmoves, hpost⟩ := triple_main argv t o h
  refine ⟨held, hmoves.books, fun hsome => ?_⟩
  obtain ⟨r, hr⟩ := Option.ne_none_iff_exists'.1 hsome
  obtain ⟨_, k, rfl, hk, rfl⟩ := hpost r hr
  have hkept := ledger.kept (P := fun x => x.isName = true) (fun e _ => takes_name e) hmoves.books
  rw [Multiset.filter_zero, zero_add, gives_names, zero_add] at hkept
  rw [zero_add, ← hkept]
  exact Multiset.filter_congr fun x hx => isName_iff (hk x hx)

set_option maxRecDepth 4000 in
theorem main_books_oneScreen : ∃ held, ledger.books ((main []).played oneScreen ()).1 0 = some held ∧
    (some (.ok ()) ≠ (none : Option (Except Errno Unit)) →
      held.filter (fun x => x.isNumber = false) = ↑[Thing.name 100, .name 100, .name 100]) :=
  main_books [] _ (some (.ok ())) (Prog.run_played oneScreen (main []) ())

/-! ## Faults -/

/-- an answer that the program does not look at before it goes to the address -/
def isNull : Event Answer → Bool
  | ⟨.malloc, none⟩ => true
  | ⟨.getCrtc _ _, none⟩ => true
  | _ => false

theorem isNull_iff {e : Event Answer} : isNull e = true ↔ e = ⟨.malloc, none⟩ ∨ ∃ fd id, e = ⟨.getCrtc fd id, none⟩ := by
  constructor
  · intro h
    unfold isNull at h
    split at h
    · exact Or.inl rfl
    · exact Or.inr ⟨_, _, rfl⟩
    · cases h
  · rintro (rfl | ⟨fd, id, rfl⟩)
    · rfl
    · rfl

/-- the calls that a device is drawn with -/
def Call.draws : Call → Bool
  | .store _ _ _ | .rand => true
  | _ => false

/-- the calls of the setup -/
def Call.setsUp : Call → Bool
  | .munmap _ _ | .getCrtc _ _ | .setCrtc _ _ _ _ _ _ _ | .freeCrtc _ | .store _ _ _ | .rand => false
  | _ => true

/-- the calls that look at the card -/
def Call.looks : Call → Bool
  | .openNode _ | .getName _ _ | .getCapDumb _ | .close _ | .getEncoder _ _ | .freeEncoder _ => true
  | _ => false

theorem setsUp_of_looks {c : Call} (h : c.looks = true) : c.setsUp = true := by
  cases c <;> first | rfl | cases h

theorem draws_of_setsUp {c : Call} (h : c.setsUp = true) : c.draws = false := by
  cases c <;> first | rfl | cases h

/-- a program with these calls, which faults in the runs with such an answer and in no others -/
abbrev Sure {α : Type} (calls : Call → Bool) (p : Prog Answer α) : Prop :=
  Prog.Confined (fun c => calls c = true) (fun e => isNull e = true) p

variable {res : Res} {conn : Connector}

theorem sure_open (node : String) : Sure Call.looks (modesetOpen node) := by
  refine Prog.confined_next rfl (fun _ => nofun) fun fd => ?_
  rcases fd with ret | fd
  · exact Prog.confined_pure
  refine Prog.confined_next rfl (fun _ => nofun) fun _ => Prog.confined_next rfl (fun _ => nofun) fun _ =>
    Prog.confined_next rfl (fun _ => nofun) fun _ => Prog.confined_next rfl (fun _ => nofun) fun cap => ?_
  split_ifs
  · exact Prog.confined_next rfl (fun _ => nofun) fun _ => Prog.confined_pure
  · exact Prog.confined_pure

theorem sure_tryEncoders {encoders : List UInt32} : Sure Call.looks (tryEncoders fd list res encoders) := by
  induction encoders with
  | nil => exact Prog.confined_pure
  | cons id encoders ih =>
    refine Prog.confined_next rfl (fun _ => nofun) fun enc => ?_
    rcases enc with _ | enc
    · exact ih
    dsimp only
    split
    · exact Prog.confined_next rfl (fun _ => nofun) fun _ => Prog.confined_pure
    · exact Prog.confined_next rfl (fun _ => nofun) fun _ => ih

theorem sure_currentCrtc : Sure Call.looks (currentCrtc fd list conn) := by
  refine Prog.confined_bind ?_ fun enc => ?_
  · unfold currentEncoder
    split_ifs
    · exact Prog.confined_ask rfl fun _ => nofun
    · exact Prog.confined_pure
  · rcases enc with _ | enc
    · exact Prog.confined_pure
    dsimp only
    split_ifs
    · exact Prog.confined_next rfl (fun _ => nofun) fun _ => Prog.confined_pure
    · exact Prog.confined_next rfl (fun _ => nofun) fun _ => Prog.confined_pure

theorem sure_findCrtc : Sure Call.looks (modesetFindCrtc fd list res conn dev) := by
  refine Prog.confined_bind sure_currentCrtc fun crtc => ?_
  rcases crtc with _ | crtc
  · refine Prog.confined_bind sure_tryEncoders fun crtc => ?_
    rcases crtc with _ | crtc
    · exact Prog.confined_pure
    · exact Prog.confined_pure
  · exact Prog.confined_pure

theorem sure_errDestroy {ret : Errno} : Sure Call.setsUp (errDestroy fd dev ret) :=
  Prog.confined_next rfl (fun _ => nofun) fun _ => Prog.confined_pure

theorem sure_errFb {ret : Errno} : Sure Call.setsUp (errFb fd dev ret) :=
  Prog.confined_next rfl (fun _ => nofun) fun _ => sure_errDestroy

theorem sure_createFb : Sure Call.setsUp (modesetCreateFb fd dev) := by
  refine Prog.confined_next rfl (fun _ => nofun) fun creq => ?_
  rcases creq with ret | creq
  · exact Prog.confined_pure
  refine Prog.confined_next rfl (fun _ => nofun) fun fb => ?_
  rcases fb with ret | fb
  · exact sure_errDestroy
  refine Prog.confined_next rfl (fun _ => nofun) fun offset => ?_
  rcases offset with ret | offset
  · exact sure_errFb
  refine Prog.confined_next rfl (fun _ => nofun) fun map => ?_
  rcases map with ret | map
  · exact sure_errFb
  · exact Prog.confined_next rfl (fun _ => nofun) fun _ => Prog.confined_pure

theorem sure_setupDev : Sure Call.setsUp (modesetSetupDev fd list res conn dev) := by
  unfold modesetSetupDev
  split_ifs
  · exact Prog.confined_pure
  split
  · exact Prog.confined_pure
  · refine Prog.confined_bind (sure_findCrtc.mono fun _ => setsUp_of_looks) fun r => ?_
    rcases r with ret | dev'
    · exact Prog.confined_pure
    · exact sure_createFb

theorem sure_prepareConnector {id : UInt32} : Sure Call.setsUp (prepareConnector fd res list id) := by
  refine Prog.confined_next rfl (fun _ => nofun) fun conn => ?_
  rcases conn with _ | conn
  · exact Prog.confined_pure
  refine Prog.confined_call rfl (fun ptr hptr => ?_) fun ptr hptr => ?_
  · rcases ptr with _ | ptr
    · exact absurd rfl hptr
    refine Prog.confined_bind sure_setupDev fun r => ?_
    rcases r with ret | dev'
    · exact Prog.confined_next rfl (fun _ => nofun) fun _ => Prog.confined_next rfl (fun _ => nofun) fun _ => Prog.confined_pure
    · exact Prog.confined_next rfl (fun _ => nofun) fun _ => Prog.confined_pure
  · rcases ptr with _ | ptr
    · rfl
    · exact nomatch hptr

theorem sure_prepareConnectors {connectors : List UInt32} : Sure Call.setsUp (prepareConnectors fd res connectors list) := by
  induction connectors generalizing list with
  | nil => exact Prog.confined_pure
  | cons id connectors ih => exact Prog.confined_bind sure_prepareConnector fun _ => ih

theorem sure_prepare : Sure Call.setsUp (modesetPrepare fd list) := by
  refine Prog.confined_next rfl (fun _ => nofun) fun res => ?_
  rcases res with ret | res
  · exact Prog.confined_pure
  · refine Prog.confined_bind sure_prepareConnectors fun _ => ?_
    exact Prog.confined_next rfl (fun _ => nofun) fun _ => Prog.confined_pure

/-- drawing asks for random numbers and stores -/
theorem confined_draw {B : Event Answer → Prop} (hrand : ∀ a, ¬ B ⟨.rand, a⟩)
    (hstore : ∀ map off v a, ¬ B ⟨.store map off v, a⟩) :
    Prog.Confined (fun c => c.draws = true) B (modesetDraw list) := by
  refine Prog.confined_bind ?_ fun c => Prog.confined_bind ?_ fun _ => Prog.confined_pure
  · exact Prog.confined_next rfl hrand fun _ => Prog.confined_next rfl hrand fun _ => Prog.confined_next rfl hrand fun _ =>
      Prog.confined_pure
  · refine Prog.confined_count fun i c => Prog.confined_bind ?_ fun c => Prog.confined_bind ?_ fun _ => ?_
    · exact Prog.confined_next rfl hrand fun _ => Prog.confined_next rfl hrand fun _ => Prog.confined_next rfl hrand fun _ =>
        Prog.confined_pure
    · refine Prog.confined_each fun dev _ => Prog.confined_count fun j _ => Prog.confined_count fun k _ => ?_
      exact Prog.confined_ask rfl (hstore _ _ _)
    · exact Prog.confined_pure

/-- the configurations that could not be read are the ones missing -/
theorem show_run {t : List (Event Answer)} {o : Option (List Dev)} (h : (modesetShow fd list).Run t o) :
    ∃ list', o = some list' ∧ ((∃ dev ∈ list', dev.savedCrtc = none) ↔ ∃ e ∈ t, isNull e = true) := by
  induction list generalizing t o with
  | nil =>
    obtain ⟨rfl, rfl⟩ := h
    exact ⟨[], rfl, by simp⟩
  | cons dev list ih =>
    obtain ⟨saved, t, rfl, set, t, rfl, h⟩ := h
    rcases (Prog.run_bind (p := modesetShow fd list)).1 h with ⟨t₁, t₂, list', rfl, h₁, h₂⟩ | ⟨h₁, rfl⟩
    · obtain ⟨_, hsome, hiff⟩ := ih h₁
      cases hsome
      obtain ⟨rfl, rfl⟩ := h₂
      refine ⟨_, rfl, ?_⟩
      cases saved
      · simp [isNull]
      · simpa [isNull] using hiff
    · obtain ⟨_, hsome, -⟩ := ih h₁
      cases hsome

/-- the devices as the setup has left them -/
def Dev.bare (dev : Dev) : Dev := { dev with savedCrtc := none }

/-- a look at the configuration changes nothing else of a device, and nothing is drawn yet -/
theorem show_bare {t : List (Event Answer)} {list' : List Dev} (h : (modesetShow fd list).Run t (some list')) :
    list'.map Dev.bare = list.map Dev.bare ∧ ∀ e ∈ t, e.1.draws = false := by
  induction list generalizing t list' with
  | nil =>
    obtain ⟨rfl, hret⟩ := h
    cases hret
    exact ⟨rfl, nofun⟩
  | cons dev list ih =>
    obtain ⟨saved, t, rfl, set, t, rfl, h⟩ := h
    rcases (Prog.run_bind (p := modesetShow fd list)).1 h with ⟨t₁, t₂, list₁, rfl, h₁, rfl, hret⟩ | ⟨-, hfault⟩
    · cases hret
      obtain ⟨hbare, hall⟩ := ih h₁
      refine ⟨by rw [List.map_cons, hbare]; rfl, ?_⟩
      simpa [Call.draws] using hall
    · cases hfault

theorem cleanup_run {t : List (Event Answer)} {o : Option Unit} (h : (modesetCleanup fd list).Run t o) :
    (o = none ↔ ∃ dev ∈ list, dev.savedCrtc = none) ∧ ∀ e ∈ t, isNull e = false := by
  induction list generalizing t with
  | nil =>
    obtain ⟨rfl, rfl⟩ := h
    simp
  | cons dev list ih =>
    unfold modesetCleanup at h
    cases hsaved : dev.savedCrtc with
    | none =>
      rw [hsaved] at h
      obtain ⟨rfl, rfl⟩ := h
      simp [hsaved]
    | some saved =>
      rw [hsaved] at h
      obtain ⟨_, t, rfl, _, t, rfl, _, t, rfl, _, t, rfl, _, t, rfl, _, t, rfl, h⟩ := h
      obtain ⟨hiff, hall⟩ := ih h
      refine ⟨by simp [hiff, hsaved], ?_⟩
      simpa [isNull] using hall

theorem sure_present : Prog.Confined (fun _ => True) (fun e => isNull e = true) (present fd list) := by
  intro t o h
  refine ⟨fun _ _ => trivial, ?_⟩
  rcases Prog.run_bind.1 h with ⟨t₁, t₂, list', rfl, h₁, h₂⟩ | ⟨h₁, -⟩
  swap
  · obtain ⟨_, hsome, -⟩ := show_run h₁
    cases hsome
  obtain ⟨_, hsome, hshow⟩ := show_run h₁
  cases hsome
  rcases Prog.run_bind.1 h₂ with ⟨t₂, t₃, _, rfl, h₂, h₃⟩ | ⟨h₂, -⟩
  swap
  · have hnever := (confined_draw (B := fun _ => False) (fun _ => id) (fun _ _ _ _ => id) _ _ h₂).2.1 rfl
    simp at hnever
  have hdraw : ¬ ∃ e ∈ t₂, isNull e = true := by
    rw [← (confined_draw (fun _ => nofun) (fun _ _ _ _ => nofun) _ _ h₂).2]
    exact nofun
  obtain ⟨hiff, hall⟩ := cleanup_run h₃
  rw [hiff, hshow]
  simp only [List.mem_append]
  constructor
  · rintro ⟨e, he, hnull⟩
    exact ⟨e, Or.inl he, hnull⟩
  · rintro ⟨e, he | he | he, hnull⟩
    · exact ⟨e, he, hnull⟩
    · exact absurd ⟨e, he, hnull⟩ hdraw
    · exact absurd hnull (by simp [hall e he])

/-- **When the program goes wrong.** It goes through an address that is `NULL` if and only if it is given one by `malloc`
or by `drmModeGetCrtc`. -/
theorem main_faults (argv : List String) (t : List (Event Answer)) (o : Option (Except Errno Unit))
    (h : (main argv).Run t o) : o = none ↔
      ⟨.malloc, none⟩ ∈ t ∨ ∃ fd id, (⟨.getCrtc fd id, none⟩ : Event Answer) ∈ t := by
  have hmain : Prog.Confined (fun _ => True) (fun e => isNull e = true) (main argv) := by
    refine Prog.confined_bind ((sure_open _).mono fun _ _ => trivial) fun fd => ?_
    rcases fd with ret | fd
    · exact Prog.confined_pure
    refine Prog.confined_bind (sure_prepare.mono fun _ _ => trivial) fun list => ?_
    rcases list with ret | list
    · exact Prog.confined_next trivial (fun _ => nofun) fun _ => Prog.confined_pure
    · refine Prog.confined_bind sure_present fun _ => ?_
      exact Prog.confined_next trivial (fun _ => nofun) fun _ => Prog.confined_pure
  rw [(hmain t o h).2]
  constructor
  · rintro ⟨e, he, hnull⟩
    rcases isNull_iff.1 hnull with rfl | ⟨fd, id, rfl⟩
    · exact Or.inl he
    · exact Or.inr ⟨fd, id, he⟩
  · rintro (he | ⟨fd, id, he⟩)
    · exact ⟨_, he, rfl⟩
    · exact ⟨_, he, rfl⟩

/-- the card with one screen, without memory for a device -/
def noMemory : Prog.World Answer Unit
  | .malloc, s => (none, s)
  | c, s => oneScreen c s

set_option maxRecDepth 4000 in
theorem main_faults_noMemory : ((main []).played noMemory ()).2.1 = none ∧
    ¬ (⟨.malloc, none⟩ ∈ ((main []).played oneScreen ()).1 ∨
      ∃ fd id, (⟨.getCrtc fd id, none⟩ : Event Answer) ∈ ((main []).played oneScreen ()).1) := by
  constructor
  · exact (main_faults [] _ _ (Prog.run_played noMemory (main []) ())).2 (Or.inl (List.mem_of_getElem? (i := 7) rfl))
  · intro h
    cases (main_faults [] _ (some (.ok ())) (Prog.run_played oneScreen (main []) ())).2 h

end Hodgepodge.Drm
