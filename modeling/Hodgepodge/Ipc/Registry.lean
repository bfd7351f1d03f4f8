/-
The handle table of `ipc_io_service`, the epoll set and the Linux connections (tipc.cpp). The service finds a connection
by its descriptor: in the array `m_map_fast` below 1024, else in the map `m_map`. The constructors associate, the
destructor unassociates and closes; the public `close()` closes the descriptor and resets `m_fd`, but does not
unassociate (on Windows it does). The entry it leaves behind outlives the descriptor: the next connection with that
number finds an entry in the table, is not added to the epoll set, and never gets an event.

A connection is known by its address, which may be reused after it is destroyed; the kernel hands out any free
descriptor and takes closed ones out of the epoll set. Which calls fail is up to the run.

Results:
- `find_assign`, `find_erase`: the table is a map from handles to connections.
- `in_step_iff`: in a run, table, epoll set and lifetimes stay in step exactly if `close()` is never called on a
  connection that has a descriptor.
- `closed_entry_outlives`: two connections and one `close()`; the second has an open descriptor and no events.
-/
import Mathlib.Algebra.Group.Int.Defs
import Mathlib.Logic.Function.Basic
import Hodgepodge.Ipc.Notify

namespace Hodgepodge.Ipc

open Function Hodgepodge.Core

variable {C : Type*}

/-! ## The handle table -/

/-- `(unsigned long)oshd` -/
def unsignedLong (oshd : Int32) : ℕ := (oshd.toInt % 2 ^ 64).toNat

def mapFastSize : ℕ := 1024

def fastIndex (oshd : Int32) : Option (Fin mapFastSize) :=
  if h : unsignedLong oshd < mapFastSize then some ⟨unsignedLong oshd, h⟩ else none

/-- `m_map_fast` and `m_map`; NULL is `none`, also as the value of an entry of the map -/
structure Table (C : Type*) where
  fast : Fin mapFastSize → Option C
  map : Int32 → Option (Option C)

namespace Table

def empty : Table C := ⟨fun _ => none, fun _ => none⟩

/-- `get(oshd)` as a value; a handle that the map does not have gets an entry -/
def get (t : Table C) (oshd : Int32) : Option C × Table C :=
  match fastIndex oshd with
  | some v => (t.fast v, t)
  | none =>
    match t.map oshd with
    | some p => (p, t)
    | none => (none, { t with map := update t.map oshd (some none) })

/-- `get(oshd) = p` -/
def assign (t : Table C) (oshd : Int32) (p : Option C) : Table C :=
  match fastIndex oshd with
  | some v => { t with fast := update t.fast v p }
  | none => { t with map := update t.map oshd (some p) }

def erase (t : Table C) (oshd : Int32) : Table C :=
  match fastIndex oshd with
  | some v => { t with fast := update t.fast v none }
  | none => { t with map := update t.map oshd none }

/-- the connection that `get` finds -/
def find (t : Table C) (oshd : Int32) : Option C := (t.get oshd).1

theorem unsignedLong_inj {a b : Int32} (h : unsignedLong a = unsignedLong b) : a = b := by
  have ha := a.toInt_lt
  have ha' := a.le_toInt
  have hb := b.toInt_lt
  have hb' := b.le_toInt
  unfold unsignedLong at h
  apply Int32.toInt_inj.1
  omega

theorem fastIndex_inj {a b : Int32} {v : Fin mapFastSize} (ha : fastIndex a = some v) (hb : fastIndex b = some v) :
    a = b := by
  unfold fastIndex at ha hb
  split_ifs at ha hb
  apply unsignedLong_inj
  simp only [Option.some.injEq] at ha hb
  exact Fin.mk.inj (ha.trans hb.symm)

theorem find_eq (t : Table C) (oshd : Int32) : t.find oshd =
    match fastIndex oshd with
    | some v => t.fast v
    | none => (t.map oshd).getD none := by
  unfold find get
  cases fastIndex oshd with
  | some v => rfl
  | none => cases h : t.map oshd <;> simp

theorem find_get (t : Table C) (oshd f : Int32) : (t.get oshd).2.find f = t.find f := by
  rw [find_eq, find_eq]
  unfold get
  cases fastIndex oshd with
  | some v => rfl
  | none =>
    cases h : t.map oshd with
    | some p => rfl
    | none =>
      by_cases hf : f = oshd
      · subst hf; simp [h]
      · simp [update_of_ne hf]

theorem find_assign (t : Table C) (oshd f : Int32) (p : Option C) :
    (t.assign oshd p).find f = if f = oshd then p else t.find f := by
  rw [find_eq, find_eq]
  unfold assign
  by_cases hf : f = oshd
  · subst hf
    cases fastIndex f <;> simp
  · rw [if_neg hf]
    cases ho : fastIndex oshd with
    | some v =>
      cases hi : fastIndex f with
      | some w =>
        have hw : w ≠ v := fun he => hf (fastIndex_inj hi (he ▸ ho))
        simp [update_of_ne hw]
      | none => rfl
    | none => simp [update_of_ne hf]

/-- for `get`, an erased entry is an entry that holds NULL -/
theorem find_erase (t : Table C) (oshd f : Int32) :
    (t.erase oshd).find f = if f = oshd then none else t.find f := by
  rw [← find_assign t oshd f none, find_eq, find_eq]
  unfold erase assign
  cases fastIndex oshd with
  | some v => rfl
  | none =>
    by_cases hf : f = oshd
    · subst hf; simp
    · simp [update_of_ne hf]

@[simp] theorem find_empty (f : Int32) : (empty : Table C).find f = none := by
  rw [find_eq]
  cases fastIndex f <;> rfl

end Table

/-! ## Connections -/

/-- `m_fd` and `m_listening` -/
structure Conn where
  fd : Int32
  listening : Bool
deriving DecidableEq

structure St (C : Type*) where
  table : Table C
  /-- the descriptors in the epoll set -/
  epoll : Int32 → Bool
  /-- the open descriptors of the process -/
  opened : Int32 → Bool
  /-- the live connections, by address -/
  conns : C → Option Conn

/-- the ends of a constructor with a name -/
inductive Constructed where
  | socketFailed
  | bindFailed (fd : Int32)
  | ok (fd : Int32)
deriving DecidableEq

/-- the ends of the accept branch; `rejected`: stat failed or the path is no socket; `ok`: the new connection -/
inductive Accepted (C : Type*) where
  | failed
  | noCallback (clifd : Int32)
  | rejected (clifd : Int32)
  | ok (clifd : Int32) (conn : C)
deriving DecidableEq

inductive Op (C : Type*) where
  | construct (a : C) (r : Constructed)
  | listen (a : C) (ok : Bool)
  | notify (a : C) (hint : Events) (r : Accepted C)
  | close (a : C)
  | destroy (a : C)
deriving DecidableEq

def invalidOsHandle : Int32 := -1

/-- a descriptor that the kernel may hand out -/
def St.free (s : St C) (fd : Int32) : Bool := decide (0 ≤ fd) && !s.opened fd

def openFd (s : St C) (fd : Int32) : St C := { s with opened := update s.opened fd true }

/-- `::close`, which takes the descriptor out of the epoll set -/
def closeFd (s : St C) (fd : Int32) : St C :=
  { s with opened := update s.opened fd false, epoll := update s.epoll fd false }

/-- EPOLL_CTL_ADD and EPOLL_CTL_DEL, which fail on a descriptor that is not open -/
def epollCtl (s : St C) (fd : Int32) (add : Bool) : St C :=
  if s.opened fd then { s with epoll := update s.epoll fd add } else s

def associate (s : St C) (a : C) (oshd : Int32) : St C :=
  if oshd = invalidOsHandle then s
  else
    let p := s.table.get oshd
    let s := { s with table := p.2 }
    let s := if p.1.isNone then epollCtl s oshd true else s
    { s with table := s.table.assign oshd (some a) }

def unassociate (s : St C) (oshd : Int32) : St C :=
  if oshd = invalidOsHandle then s
  else
    let s := epollCtl s oshd false
    { s with table := s.table.erase oshd }

variable [DecidableEq C]

/-- the part of the constructors after the descriptor is there -/
def create (s : St C) (a : C) (fd : Int32) : St C :=
  associate { s with conns := update s.conns a (some ⟨fd, false⟩) } a fd

/-- the public close(): `m_fd` is closed and reset -/
def close (s : St C) (a : C) (c : Conn) : St C :=
  if 0 ≤ c.fd then { closeFd s c.fd with conns := update s.conns a (some { c with fd := -1 }) } else s

/-- the destructor -/
def destroy (s : St C) (a : C) (c : Conn) : St C :=
  let s := close (unassociate s c.fd) a c
  { s with conns := update s.conns a none }

def accept (s : St C) (c : Conn) : Accepted C → Option (St C)
  | .failed => some s
  | .noCallback clifd => if s.opened c.fd ∧ s.free clifd then some (openFd s clifd) else none
  | .rejected clifd => if s.opened c.fd ∧ s.free clifd then some (closeFd (openFd s clifd) clifd) else none
  | .ok clifd conn =>
    if s.opened c.fd ∧ s.free clifd ∧ (s.conns conn).isNone then some (create (openFd s clifd) conn clifd) else none

def step (s : St C) : Op C → Option (St C)
  | .construct a r =>
    if (s.conns a).isNone then
      match r with
      | .socketFailed => some s
      | .bindFailed fd => if s.free fd then some (openFd s fd) else none
      | .ok fd => if s.free fd then some (create (openFd s fd) a fd) else none
    else none
  | .listen a ok => (s.conns a).map fun c =>
    if !c.listening && ok then { s with conns := update s.conns a (some { c with listening := true }) } else s
  | .notify a hint r => (s.conns a).bind fun c =>
    match branch c.listening hint with
    | .accept => accept s c r
    | _ => some s
  | .close a => (s.conns a).map fun c => close s a c
  | .destroy a => (s.conns a).map fun c => destroy s a c

/-- a service with an empty table, in a process that has other descriptors open -/
def service (C : Type*) [DecidableEq C] (opened : Int32 → Bool) : Lts (St C) (Op C) :=
  ⟨⟨.empty, fun _ => false, opened, fun _ => none⟩, step⟩

/-! ## In step -/

/-- a connection with an open descriptor gets its events, and the table has live connections only -/
structure InStep (s : St C) : Prop where
  registered : ∀ a c, s.conns a = some c → s.opened c.fd = true → s.epoll c.fd = true ∧ s.table.find c.fd = some a
  live : ∀ f a, s.table.find f = some a → ∃ c, s.conns a = some c ∧ c.fd = f

/-- the operation is not a close() of a connection that has a descriptor -/
def keepsOpen (s : St C) : Op C → Bool
  | .close a =>
    match s.conns a with
    | some c => decide (c.fd < 0)
    | none => true
  | _ => true

structure Inv (s : St C) : Prop extends InStep s where
  owned : ∀ a c, s.conns a = some c → 0 ≤ c.fd ∧ s.opened c.fd = true

variable {s s' : St C} {o : Op C} {a : C} {c : Conn} {fd : Int32}

omit [DecidableEq C] in
theorem ne_invalid (h : 0 ≤ fd) : fd ≠ invalidOsHandle := by
  rintro rfl
  exact absurd h (by decide)

omit [DecidableEq C] in
theorem free_iff : s.free fd = true ↔ 0 ≤ fd ∧ s.opened fd = false := by simp [St.free]

/-- a constructor on a descriptor that the table does not know -/
theorem create_eq (hfd : 0 ≤ fd) (hnew : s.table.find fd = none) :
    (create (openFd s fd) a fd).opened = update s.opened fd true ∧
      (create (openFd s fd) a fd).epoll = update s.epoll fd true ∧
      (create (openFd s fd) a fd).conns = update s.conns a (some ⟨fd, false⟩) ∧
      ∀ f, (create (openFd s fd) a fd).table.find f = if f = fd then some a else s.table.find f := by
  have hnull : (s.table.get fd).1.isNone = true := by rw [Option.isNone_iff_eq_none]; exact hnew
  simp [create, associate, ne_invalid hfd, openFd, hnull, epollCtl, Table.find_assign, Table.find_get]

theorem destroy_eq (hfd : 0 ≤ c.fd) :
    (destroy s a c).opened = update s.opened c.fd false ∧ (destroy s a c).epoll c.fd = false ∧
      (∀ f, f ≠ c.fd → (destroy s a c).epoll f = s.epoll f) ∧
      (∀ b, (destroy s a c).conns b = if b = a then none else s.conns b) ∧
      ∀ f, (destroy s a c).table.find f = if f = c.fd then none else s.table.find f := by
  have hconns : ∀ b, (destroy s a c).conns b = if b = a then none else s.conns b := by
    intro b
    by_cases hb : b = a
    · simp [destroy, hb]
    · by_cases ho : s.opened c.fd <;>
        simp [destroy, close, hfd, unassociate, ne_invalid hfd, closeFd, epollCtl, ho, hb]
  by_cases ho : s.opened c.fd <;>
    simp +contextual [destroy, close, hfd, unassociate, ne_invalid hfd, closeFd, epollCtl, ho, Table.find_erase,
      update_of_ne] at hconns ⊢ <;>
    exact hconns

omit [DecidableEq C] in
/-- the table does not know a free descriptor -/
theorem Inv.find_free (h : Inv s) (hf : s.opened fd = false) : s.table.find fd = none := by
  cases hfind : s.table.find fd with
  | none => rfl
  | some a =>
    obtain ⟨c, hc, rfl⟩ := h.live fd a hfind
    rw [(h.owned a c hc).2] at hf; cases hf

/-- a new connection on a free descriptor -/
theorem create_inv (h : Inv s) (hfree : s.free fd = true) (hnew : s.conns a = none) :
    Inv (create (openFd s fd) a fd) := by
  obtain ⟨hfd, hf⟩ := free_iff.1 hfree
  obtain ⟨hopened, hepoll, hconns, hfind⟩ := create_eq (a := a) hfd (h.find_free hf)
  have split : ∀ b d, (create (openFd s fd) a fd).conns b = some d →
      (b = a ∧ d = ⟨fd, false⟩) ∨ (s.conns b = some d ∧ d.fd ≠ fd) := by
    intro b d hb
    rw [hconns] at hb
    by_cases hba : b = a
    · subst hba
      rw [update_self] at hb
      exact Or.inl ⟨rfl, by simpa using hb.symm⟩
    · rw [update_of_ne hba] at hb
      refine Or.inr ⟨hb, fun he => ?_⟩
      rw [← he, (h.owned b d hb).2] at hf; cases hf
  refine ⟨⟨fun b d hb _ => ?_, fun f b hb => ?_⟩, fun b d hb => ?_⟩
  · rw [hepoll, hfind]
    rcases split b d hb with ⟨rfl, rfl⟩ | ⟨hb, hne⟩
    · simp
    · rw [update_of_ne hne, if_neg hne]
      exact h.registered b d hb (h.owned b d hb).2
  · rw [hfind] at hb
    rw [hconns]
    split_ifs at hb with hf
    · cases hb
      exact ⟨⟨fd, false⟩, by simp, hf.symm⟩
    · obtain ⟨d, hd, hdf⟩ := h.live f b hb
      have hba : b ≠ a := by
        rintro rfl
        rw [hnew] at hd; cases hd
      exact ⟨d, by rw [update_of_ne hba, hd], hdf⟩
  · rw [hopened]
    rcases split b d hb with ⟨rfl, rfl⟩ | ⟨hb, hne⟩
    · exact ⟨hfd, by simp⟩
    · rw [update_of_ne hne]
      exact h.owned b d hb

theorem destroy_inv (h : Inv s) (ha : s.conns a = some c) : Inv (destroy s a c) := by
  obtain ⟨hfd, ho⟩ := h.owned a c ha
  obtain ⟨hopened, -, hepoll, hconns, hfind⟩ := destroy_eq (s := s) (a := a) hfd
  have split : ∀ b d, (destroy s a c).conns b = some d → b ≠ a ∧ s.conns b = some d ∧ d.fd ≠ c.fd := by
    intro b d hb
    rw [hconns] at hb
    split_ifs at hb with hba
    refine ⟨hba, hb, fun he => hba ?_⟩
    have h1 := (h.registered a c ha ho).2
    rw [← he, (h.registered b d hb (h.owned b d hb).2).2] at h1
    exact Option.some.inj h1
  refine ⟨⟨fun b d hb _ => ?_, fun f b hb => ?_⟩, fun b d hb => ?_⟩
  · obtain ⟨-, hb, hne⟩ := split b d hb
    rw [hepoll _ hne, hfind, if_neg hne]
    exact h.registered b d hb (h.owned b d hb).2
  · rw [hfind] at hb
    split_ifs at hb with hf
    obtain ⟨d, hd, rfl⟩ := h.live f b hb
    have hba : b ≠ a := by
      rintro rfl
      rw [ha] at hd
      exact hf (by rw [Option.some.inj hd])
    exact ⟨d, by rw [hconns, if_neg hba, hd], rfl⟩
  · obtain ⟨-, hb, hne⟩ := split b d hb
    rw [hopened, update_of_ne hne]
    exact h.owned b d hb

omit [DecidableEq C] in
/-- a descriptor that no connection owns comes or goes -/
theorem Inv.other (h : Inv s) (hf : s.opened fd = false) : Inv (openFd s fd) ∧ Inv (closeFd (openFd s fd) fd) := by
  have hne : ∀ b d, s.conns b = some d → d.fd ≠ fd := by
    rintro b d hb rfl
    rw [(h.owned b d hb).2] at hf; cases hf
  refine ⟨⟨⟨fun b d hb _ => h.registered b d hb (h.owned b d hb).2, h.live⟩, fun b d hb => ?_⟩,
    ⟨⟨fun b d hb _ => ?_, h.live⟩, fun b d hb => ?_⟩⟩
  · simp only [openFd, update_of_ne (hne b d hb)]
    exact h.owned b d hb
  · simp only [closeFd, openFd, update_of_ne (hne b d hb)]
    exact h.registered b d hb (h.owned b d hb).2
  · simp only [closeFd, openFd, update_of_ne (hne b d hb)]
    exact h.owned b d hb

theorem accept_inv (h : Inv s) {r : Accepted C} (hs : accept s c r = some s') : Inv s' := by
  cases r with
  | failed => cases hs; exact h
  | noCallback clifd =>
    simp only [accept] at hs
    split_ifs at hs with hf
    cases hs
    exact (h.other (free_iff.1 hf.2).2).1
  | rejected clifd =>
    simp only [accept] at hs
    split_ifs at hs with hf
    cases hs
    exact (h.other (free_iff.1 hf.2).2).2
  | ok clifd conn =>
    simp only [accept] at hs
    split_ifs at hs with hf
    cases hs
    exact create_inv h hf.2.1 (by simpa using hf.2.2)

/-- `m_listening` is nobody's descriptor -/
theorem Inv.listening (h : Inv s) (ha : s.conns a = some c) {l : Bool} :
    Inv { s with conns := update s.conns a (some { c with listening := l }) } := by
  have same : ∀ b d, update s.conns a (some { c with listening := l }) b = some d →
      ∃ e, s.conns b = some e ∧ e.fd = d.fd := by
    intro b d hb
    by_cases hba : b = a
    · subst hba
      rw [update_self] at hb
      exact ⟨c, ha, by rw [← Option.some.inj hb]⟩
    · rw [update_of_ne hba] at hb
      exact ⟨d, hb, rfl⟩
  refine ⟨⟨fun b d hb ho => ?_, fun f b hb => ?_⟩, fun b d hb => ?_⟩
  · obtain ⟨e, he, hed⟩ := same b d hb
    rw [← hed] at ho ⊢
    exact h.registered b e he ho
  · obtain ⟨d, hd, rfl⟩ := h.live f b hb
    by_cases hba : b = a
    · subst hba
      rw [ha] at hd
      exact ⟨_, update_self .., by rw [← Option.some.inj hd]⟩
    · exact ⟨d, by simpa only [update_of_ne hba] using hd, rfl⟩
  · obtain ⟨e, he, hed⟩ := same b d hb
    rw [← hed]
    exact h.owned b e he

theorem step_inv (h : Inv s) (hC : keepsOpen s o) (hs : step s o = some s') : Inv s' := by
  cases o with
  | construct a r =>
    simp only [step] at hs
    split_ifs at hs with hnew
    split at hs
    · cases hs; exact h
    · split_ifs at hs with hf
      cases hs
      exact (h.other (free_iff.1 hf).2).1
    · split_ifs at hs with hf
      cases hs
      exact create_inv h hf (by simpa using hnew)
  | listen a ok =>
    obtain ⟨c, hc, rfl⟩ := Option.map_eq_some_iff.1 hs
    split_ifs
    · exact h.listening hc
    · exact h
  | notify a hint r =>
    obtain ⟨c, hc, hs⟩ := Option.bind_eq_some_iff.1 hs
    split at hs
    · exact accept_inv h hs
    · cases hs; exact h
  | close a =>
    obtain ⟨c, hc, rfl⟩ := Option.map_eq_some_iff.1 hs
    have hneg : c.fd < 0 := by simpa [keepsOpen, hc] using hC
    exact absurd (h.owned a c hc).1 (Int32.not_le.2 hneg)
  | destroy a =>
    obtain ⟨c, hc, rfl⟩ := Option.map_eq_some_iff.1 hs
    exact destroy_inv h hc

/-- the entry of a connection that was closed holds a connection without a descriptor -/
theorem closed_stale (h : Inv s) (hC : ¬ keepsOpen s o) (hs : step s o = some s') : ¬ InStep s' := by
  cases o with
  | close a =>
    obtain ⟨c, hc, rfl⟩ := Option.map_eq_some_iff.1 hs
    obtain ⟨hfd, ho⟩ := h.owned a c hc
    have hfind : (close s a c).table.find c.fd = some a := by
      simpa [close, hfd, closeFd] using (h.registered a c hc ho).2
    intro hin
    obtain ⟨d, hd, hdf⟩ := hin.live c.fd a hfind
    have hd' : d = { c with fd := -1 } := by simpa [close, hfd] using hd.symm
    rw [hd'] at hdf
    exact ne_invalid hfd hdf.symm
  | _ => exact absurd rfl hC

/-- **In step, exactly without close().** A run passes only through states in which table, epoll set and lifetimes are
in step, exactly if it never calls close() on a connection that has a descriptor. -/
theorem in_step_iff (opened : Int32 → Bool) (ops : List (Op C)) (s : St C)
    (hr : (service C opened).run (service C opened).init ops = some s) :
    (service C opened).Always InStep (service C opened).init ops ↔
      (service C opened).Along (keepsOpen · ·) (service C opened).init ops := by
  refine Lts.always_iff_along _ (fun _ h => h.toInStep) (fun _ _ _ => step_inv) (fun _ _ _ => closed_stale) ?_ hr
  exact ⟨⟨fun a c h => by simp [service] at h, fun f a h => by simp [service] at h⟩,
    fun a c h => by simp [service] at h⟩

/-- a server accepts a client and deletes the connection -/
def acceptAndDelete : List (Op ℕ) :=
  [.construct 1 (.ok 5), .listen 1 true, .notify 1 ⟨true, false⟩ (.ok 6 2), .destroy 2, .construct 3 (.ok 6)]

theorem in_step_accept_and_delete :
    (service ℕ (· ≤ 4)).Always InStep (service ℕ (· ≤ 4)).init acceptAndDelete :=
  (in_step_iff (· ≤ 4) acceptAndDelete _ rfl).2 (by decide)

/-- **A closed connection leaves its entry behind.** -/
theorem closed_entry_outlives :
    ¬ ∀ (ops : List (Op ℕ)) s, (service ℕ (· ≤ 4)).run (service ℕ (· ≤ 4)).init ops = some s → InStep s := by
  intro h
  have := ((h [.construct 1 (.ok 5), .close 1, .construct 2 (.ok 5)] _ rfl).registered 2 ⟨5, false⟩ rfl rfl).1
  cases this

end Hodgepodge.Ipc
