/-
The batches of `ipc_io_service::run` on Linux (tipc.cpp). epoll_wait returns up to 100 events; each carries only the
descriptor, and `run` looks the connection up when the turn of the event comes. The callbacks of the events before it
have run by then: a connection that they delete leaves NULL in the table, or, if close() came first, its old address;
and a connection that they create on the freed descriptor takes the place of the old one. `run` asserts that there is a
connection and calls `notify`; the Windows `run` has the assertion and a test behind it.

An address may be reused, so a connection is an address and the number of connections that have died there.

Results:
- `Tracked`, `step_tracked`: whatever is called, a descriptor in the epoll set leads to the live connection on it.
- `batches_right_iff`: in a run, every event reaches the connection that it was reported for exactly if no connection
  is deleted while an event for it is pending and none is created on the descriptor of a pending event.
- `deleted_while_pending`: one on_close that deletes the connection of the next event.
-/
import Hodgepodge.Ipc.Leaks

namespace Hodgepodge.Ipc

open Function Hodgepodge.Core

variable {C : Type*}

/-! ## The loop of run -/

/-- a connection: its address, and how many have died there before -/
abbrev Life (C : Type*) := C × ℕ

/-- an event of the batch; `target` is the connection that was registered when epoll_wait returned -/
structure Event (C : Type*) where
  fd : Int32
  hint : Events
  target : Option (Life C)
deriving DecidableEq

/-- what the lookup of an event yields -/
inductive Found (C : Type*) where
  | null
  /-- the address of a connection that is no more -/
  | dangling (a : C)
  | conn (l : Life C)
deriving DecidableEq

structure Batch (C : Type*) where
  service : St C
  /-- how many connections have died at an address -/
  gen : C → ℕ
  /-- the events of the batch whose turn has not come -/
  events : List (Event C)
  /-- the events whose turn has come -/
  delivered : List (Event C × Found C)
  crashed : Bool

inductive BatchOp (C : Type*) where
  | epollWait (ready : List (Int32 × Events))
  /-- the body of the for loop; `r` is the end of the accept branch -/
  | dispatch (r : Accepted C)
  /-- a call that a callback makes, or another thread -/
  | act (o : Op C)
deriving DecidableEq

def maxEpollEvents : ℕ := 100

def Op.notifies : Op C → Bool
  | .notify .. => true
  | _ => false

variable [DecidableEq C]

/-- an operation of the service; a destructor ends a life -/
def Batch.perform (s : Batch C) (o : Op C) : Option (Batch C) :=
  (step s.service o).map fun t =>
    { s with
      service := t
      gen := match o with
        | .destroy a => update s.gen a (s.gen a + 1)
        | _ => s.gen }

def Batch.event (s : Batch C) (p : Int32 × Events) : Event C :=
  ⟨p.1, p.2, (s.service.table.find p.1).map fun a => (a, s.gen a)⟩

/-- the turn of an event: `get` yields `x`, and may leave an entry behind -/
def Batch.turn (s : Batch C) (e : Event C) (es : List (Event C)) (x : Found C) : Batch C :=
  { s with
    service := { s.service with table := (s.service.table.get e.fd).2 }
    events := es
    delivered := s.delivered ++ [(e, x)] }

def batchStep (s : Batch C) : BatchOp C → Option (Batch C)
  | .epollWait ready =>
    if s.crashed = false ∧ s.events = [] ∧ ready.length ≤ maxEpollEvents ∧ (ready.map Prod.fst).Nodup ∧
        ∀ p ∈ ready, s.service.epoll p.1 = true then
      some { s with events := ready.map s.event }
    else none
  | .dispatch r =>
    if s.crashed then none
    else
      match s.events with
      | [] => none
      | e :: es =>
        match (s.service.table.get e.fd).1 with
        -- assert(pconn), and NULL->notify without it
        | none => some { s.turn e es .null with crashed := true }
        | some a =>
          match s.service.conns a with
          | none => some { s.turn e es (.dangling a) with crashed := true }
          | some _ => (s.turn e es (.conn (a, s.gen a))).perform (.notify a e.hint r)
  | .act o => if s.crashed || o.notifies then none else s.perform o

/-- `run` on a service with an empty table -/
def batches (C : Type*) [DecidableEq C] (opened : Int32 → Bool) : Lts (Batch C) (BatchOp C) :=
  ⟨⟨(service C opened).init, fun _ => 0, [], [], false⟩, batchStep⟩

/-- the event reached the connection that it was reported for -/
def right (d : Event C × Found C) : Bool :=
  match d.2 with
  | .conn l => decide (d.1.target = some l)
  | _ => false

/-- every event so far reached its connection, and no lookup yielded NULL or an old address -/
def Batch.Right (s : Batch C) : Prop := s.crashed = false ∧ ∀ d ∈ s.delivered, right d = true

/-- the descriptor on which the operation creates a connection -/
def creates (s : St C) : Op C → Option Int32
  | .construct _ (.ok fd) => some fd
  | .notify a hint (.ok fd _) =>
    match s.conns a with
    | some c => if branch c.listening hint = .accept then some fd else none
    | none => none
  | _ => none

/-- the operation leaves the events to come alone -/
def Batch.harmless (s : Batch C) (o : Op C) : Bool :=
  s.events.all fun e =>
    decide (creates s.service o ≠ some e.fd) &&
      match o with
      | .destroy a => decide (e.target ≠ some (a, s.gen a))
      | _ => true

/-- no connection is deleted while an event for it is pending, none is created on the descriptor of a pending event -/
def spares (s : Batch C) : BatchOp C → Bool
  | .epollWait _ => true
  | .dispatch r =>
    match s.events with
    | [] => true
    | e :: es =>
      match s.service.table.find e.fd with
      | some a => ({ s with events := es }).harmless (.notify a e.hint r)
      | none => true
  | .act o => s.harmless o

/-! ## The epoll set -/

/-- a descriptor in the epoll set leads to the live connection on it -/
structure Tracked (s : St C) : Prop where
  registered : ∀ f, s.epoll f = true → ∃ a, Holds s a f ∧ s.table.find f = some a
  entry : ∀ a f, Holds s a f → s.opened f = true ∧ s.table.find f = some a
  fd : ∀ a c, s.conns a = some c → 0 ≤ c.fd ∨ c.fd = invalidOsHandle

variable {s s' : St C} {o : Op C} {a b : C} {c : Conn} {fd f : Int32}

theorem create_find (hfd : 0 ≤ fd) :
    (create (openFd s fd) a fd).table.find f = if f = fd then some a else s.table.find f := by
  simp only [create, associate, ne_invalid hfd, if_false, Table.find_assign]
  split_ifs <;> simp [epollCtl, openFd, Table.find_get]

theorem create_epoll (h : (create (openFd s fd) a fd).epoll f = true) : f = fd ∨ s.epoll f = true := by
  by_cases hf : f = fd
  · exact Or.inl hf
  · refine Or.inr ?_
    unfold create associate at h
    dsimp only at h
    split_ifs at h
    · exact h
    · simpa [epollCtl, openFd, hf] using h
    · exact h

omit [DecidableEq C] in
theorem holds_iff (ha : s.conns a = some c) : Holds s a f ↔ 0 ≤ c.fd ∧ f = c.fd := by
  constructor
  · rintro ⟨d, hd, rfl, hf⟩
    rw [ha] at hd; cases hd
    exact ⟨hf, rfl⟩
  · rintro ⟨hf, rfl⟩
    exact ⟨c, ha, rfl, hf⟩

theorem close_epoll (ha : s.conns a = some c) (h : (close s a c).epoll f = true) :
    s.epoll f = true ∧ ¬ Holds s a f := by
  rw [holds_iff ha]
  unfold close at h
  split_ifs at h with hc
  · by_cases hf : f = c.fd
    · subst hf; simp [closeFd] at h
    · exact ⟨by simpa [closeFd, hf] using h, fun hm => hf hm.2⟩
  · exact ⟨h, fun hm => hc hm.1⟩

omit [DecidableEq C] in
theorem unassociate_epoll (h : (unassociate s fd).epoll f = true) : s.epoll f = true := by
  unfold unassociate epollCtl at h
  dsimp only at h
  split_ifs at h
  · exact h
  · by_cases hf : f = fd
    · subst hf; simp at h
    · simpa [hf] using h
  · exact h

theorem destroy_epoll (ha : s.conns a = some c) (h : (destroy s a c).epoll f = true) :
    s.epoll f = true ∧ ¬ Holds s a f := by
  have ha' : (unassociate s c.fd).conns a = some c := by simpa using ha
  obtain ⟨he, hn⟩ := close_epoll ha' h
  exact ⟨unassociate_epoll he, by simpa [Holds] using hn⟩

/-- the destructor erases the entry of its descriptor, if it still has one -/
theorem destroy_find (h : Tracked s) (ha : s.conns a = some c) :
    (Holds s a f ∧ (destroy s a c).table.find f = none) ∨
      (¬ Holds s a f ∧ (destroy s a c).table.find f = s.table.find f) := by
  simp only [holds_iff ha]
  rcases h.fd a c ha with hc | hc
  · rw [(destroy_eq (s := s) (a := a) hc).2.2.2.2 f]
    by_cases hf : f = c.fd <;> simp [hf, hc]
  · have hneg : ¬ 0 ≤ c.fd := by rw [hc]; decide
    exact Or.inr ⟨fun hm => hneg hm.1, by simp only [destroy, close, unassociate, if_pos hc, if_neg hneg]⟩

omit [DecidableEq C] in
/-- two connections are never on one descriptor -/
theorem Tracked.once (h : Tracked s) (ha : Holds s a f) (hb : Holds s b f) : a = b :=
  Option.some.inj ((h.entry a f ha).2.symm.trans (h.entry b f hb).2)

/-- a new connection on a new descriptor -/
theorem create_tracked (h : Tracked s) (ha : s.conns a = none) (hf : s.free fd = true) :
    Tracked (create (openFd s fd) a fd) := by
  obtain ⟨hfd, hf⟩ := free_iff.1 hf
  have hnew : ∀ b, ¬ Holds s b fd := fun b hb => by
    rw [(h.entry b fd hb).1] at hf; cases hf
  refine ⟨fun f he => ?_, fun b f hb => ?_, fun b d hb => ?_⟩
  · rw [create_find hfd]
    rcases create_epoll he with rfl | he
    · exact ⟨a, (create_holds ha hfd).2 (Or.inl ⟨rfl, rfl⟩), if_pos rfl⟩
    · obtain ⟨b, hb, hfind⟩ := h.registered f he
      have hne : f ≠ fd := by rintro rfl; exact hnew b hb
      exact ⟨b, (create_holds ha hfd).2 (Or.inr hb), by rw [if_neg hne, hfind]⟩
  · rw [create_find hfd, create_opened]
    rcases (create_holds ha hfd).1 hb with ⟨rfl, rfl⟩ | hb
    · simp
    · have hne : f ≠ fd := fun he => hnew b (he ▸ hb)
      rw [update_of_ne hne, if_neg hne]
      exact h.entry b f hb
  · rw [create_conns] at hb
    by_cases hba : b = a
    · subst hba
      rw [update_self] at hb; cases hb
      exact Or.inl hfd
    · rw [update_of_ne hba] at hb
      exact h.fd b d hb

omit [DecidableEq C] in
/-- a connection gives up its descriptor -/
theorem Tracked.lose (h : Tracked s) (ha : s.conns a = some c)
    (ho : s'.opened = if 0 ≤ c.fd then update s.opened c.fd false else s.opened)
    (hh : ∀ b f, Holds s' b f ↔ b ≠ a ∧ Holds s b f)
    (he : ∀ f, s'.epoll f = true → s.epoll f = true ∧ ¬ Holds s a f)
    (ht : ∀ f, ¬ Holds s a f → s'.table.find f = s.table.find f)
    (hfd : ∀ b d, s'.conns b = some d → 0 ≤ d.fd ∨ d.fd = invalidOsHandle) : Tracked s' := by
  refine ⟨fun f hf => ?_, fun b f hb => ?_, hfd⟩
  · obtain ⟨hf, hn⟩ := he f hf
    obtain ⟨b, hb, hfind⟩ := h.registered f hf
    have hba : b ≠ a := by rintro rfl; exact hn hb
    exact ⟨b, (hh b f).2 ⟨hba, hb⟩, by rw [ht f hn, hfind]⟩
  · obtain ⟨hba, hb⟩ := (hh b f).1 hb
    have hn : ¬ Holds s a f := fun hm => hba (h.once hb hm)
    rw [ht f hn, ho]
    refine ⟨?_, (h.entry b f hb).2⟩
    split_ifs with hc
    · rw [update_of_ne fun hf => hn ((holds_iff ha).2 ⟨hc, hf⟩)]
      exact (h.entry b f hb).1
    · exact (h.entry b f hb).1

theorem close_tracked (h : Tracked s) (ha : s.conns a = some c) : Tracked (close s a c) := by
  refine h.lose ha close_opened (fun _ _ => close_holds ha) (fun _ => close_epoll ha) (fun f _ => ?_) fun b d hb => ?_
  · unfold close; split_ifs <;> rfl
  · unfold close at hb
    split_ifs at hb
    · by_cases hba : b = a
      · subst hba
        simp only [update_self, Option.some.injEq] at hb
        exact Or.inr (by rw [← hb]; rfl)
      · exact h.fd b d (by simpa [hba] using hb)
    · exact h.fd b d hb

theorem destroy_tracked (h : Tracked s) (ha : s.conns a = some c) : Tracked (destroy s a c) := by
  refine h.lose ha destroy_opened (fun _ _ => destroy_holds ha) (fun _ => destroy_epoll ha) (fun f hn => ?_)
    fun b d hb => ?_
  · rcases destroy_find (f := f) h ha with ⟨hm, -⟩ | ⟨-, hfind⟩
    · exact absurd hm hn
    · exact hfind
  · by_cases hba : b = a
    · subst hba
      simp [destroy] at hb
    · refine h.fd b d ?_
      unfold destroy close at hb
      split_ifs at hb <;> simpa [closeFd, hba] using hb

omit [DecidableEq C] in
/-- a descriptor that belongs to nobody -/
theorem Tracked.other (h : Tracked s) (hf : s.opened fd = false) :
    Tracked (openFd s fd) ∧ Tracked (closeFd (openFd s fd) fd) := by
  have hnew : ∀ b f, Holds s b f → f ≠ fd := by
    rintro b f hb rfl
    rw [(h.entry b f hb).1] at hf; cases hf
  refine ⟨⟨h.registered, fun b f hb => ?_, h.fd⟩, ⟨fun f he => ?_, fun b f hb => ?_, h.fd⟩⟩
  · simpa only [openFd, update_of_ne (hnew b f hb)] using h.entry b f hb
  · by_cases hne : f = fd
    · subst hne; simp [closeFd] at he
    · exact h.registered f (by simpa [closeFd, openFd, hne] using he)
  · simpa only [closeFd, openFd, update_of_ne (hnew b f hb)] using h.entry b f hb

/-- **The epoll set stays in step.** Even across close(): it keeps an entry, but no event comes through it. -/
theorem step_tracked (h : Tracked s) (hs : step s o = some s') : Tracked s' := by
  cases step_eq hs with
  | socketFailed | ignore | acceptFailed => exact h
  | bindFailed _ hf => exact (h.other (free_iff.1 hf).2).1
  | construct ha hf => exact create_tracked h ha hf
  | @listen a c ok ha =>
    refine ⟨fun f he => ?_, fun b f hb => h.entry b f ((listen_holds ha).1 hb), fun b d hb => ?_⟩
    · obtain ⟨b, hb, hfind⟩ := h.registered f he
      exact ⟨b, (listen_holds ha).2 hb, hfind⟩
    · by_cases hba : b = a
      · subst hba
        simp only [update_self, Option.some.injEq] at hb
        rw [← hb]
        exact h.fd b c ha
      · exact h.fd b d (by simpa [hba] using hb)
  | noCallback _ _ hf => exact (h.other (free_iff.1 hf).2).1
  | rejected _ _ hf => exact (h.other (free_iff.1 hf).2).2
  | accepted _ _ hf hn => exact create_tracked h hn hf
  | close ha => exact close_tracked h ha
  | destroy ha => exact destroy_tracked h ha

/-! ## What an operation does to an entry -/

/-- a new connection takes the entry of its descriptor -/
theorem step_find_creates (hs : step s o = some s') (hc : creates s o = some f) :
    ∃ b, s.conns b = none ∧ s'.table.find f = some b := by
  cases step_eq hs with
  | @construct a fd ha hf =>
    cases hc
    exact ⟨a, ha, by rw [create_find (free_iff.1 hf).1, if_pos rfl]⟩
  | @accepted a c hint clifd conn ha hb hf hn =>
    simp only [creates, ha, hb, if_true, Option.some.injEq] at hc
    subst hc
    exact ⟨conn, hn, by rw [create_find (free_iff.1 hf).1, if_pos rfl]⟩
  | @ignore a c hint r ha hb =>
    cases r <;> simp [creates, ha, hb] at hc
  | _ => cases hc

/-- every other entry stays, or goes with its connection -/
theorem step_find_stays (h : Tracked s) (hs : step s o = some s') (hc : creates s o ≠ some f) :
    s'.table.find f = s.table.find f ∨
      ∃ a, o = .destroy a ∧ s.table.find f = some a ∧ s'.table.find f = none := by
  cases step_eq hs with
  | @construct a fd ha hf =>
    rw [create_find (free_iff.1 hf).1, if_neg fun he => hc (by rw [he]; rfl)]
    exact Or.inl rfl
  | @accepted a c hint clifd conn ha hb hf hn =>
    rw [create_find (free_iff.1 hf).1, if_neg fun he => hc (by simp [creates, ha, hb, he])]
    exact Or.inl rfl
  | @close a c ha => exact Or.inl (by unfold close; split_ifs <;> rfl)
  | @destroy a c ha =>
    rcases destroy_find (f := f) h ha with ⟨hm, hf⟩ | ⟨-, hf⟩
    · exact Or.inr ⟨a, rfl, (h.entry a f hm).2, hf⟩
    · exact Or.inl hf
  | _ => exact Or.inl rfl

/-- only a destructor ends a life -/
theorem step_lives (hs : step s o = some s') (ho : o ≠ .destroy a) (ha : s.conns a ≠ none) : s'.conns a ≠ none := by
  have added : ∀ (b : C) (d : Conn), update s.conns b (some d) a ≠ none := fun b d => by
    by_cases hab : a = b
    · subst hab; simp
    · rwa [update_of_ne hab]
  cases step_eq hs with
  | construct | accepted => rw [create_conns]; exact added _ _
  | listen => exact added _ _
  | close =>
    unfold close
    split_ifs
    · exact added _ _
    · exact ha
  | @destroy b c hb =>
    have hab : a ≠ b := by rintro rfl; exact ho rfl
    unfold destroy close
    split_ifs <;> simpa [hab, closeFd] using ha
  | _ => exact ha

/-! ## Sound and doomed events -/

/-- what one step of the loop does -/
inductive BatchStep (t : Batch C) : BatchOp C → Batch C → Prop
  | epollWait {ready} (hc : t.crashed = false) (he : t.events = [])
      (hr : ∀ p ∈ ready, t.service.epoll p.1 = true) :
      BatchStep t (.epollWait ready) { t with events := ready.map t.event }
  | null {e es r} (he : t.events = e :: es) (hf : t.service.table.find e.fd = none) :
      BatchStep t (.dispatch r) { t.turn e es .null with crashed := true }
  | dangling {e es r a} (he : t.events = e :: es) (hf : t.service.table.find e.fd = some a)
      (ha : t.service.conns a = none) : BatchStep t (.dispatch r) { t.turn e es (.dangling a) with crashed := true }
  | deliver {e es r a t'} (he : t.events = e :: es) (hf : t.service.table.find e.fd = some a)
      (ha : t.service.conns a ≠ none) (hc : t.crashed = false)
      (hp : (t.turn e es (.conn (a, t.gen a))).perform (.notify a e.hint r) = some t') :
      BatchStep t (.dispatch r) t'
  | act {o t'} (hc : t.crashed = false) (hp : t.perform o = some t') : BatchStep t (.act o) t'

variable {t t' : Batch C} {p : BatchOp C} {r : Accepted C} {e : Event C} {es : List (Event C)} {x : Found C}

omit [DecidableEq C] in
theorem turn_tracked (h : Tracked t.service) : Tracked (t.turn e es x).service := by
  refine ⟨fun f he => ?_, fun a f ha => ?_, h.fd⟩
  · obtain ⟨a, ha, hf⟩ := h.registered f he
    exact ⟨a, ha, by simpa [Batch.turn, Table.find_get] using hf⟩
  · obtain ⟨ho, hf⟩ := h.entry a f ha
    exact ⟨ho, by simpa [Batch.turn, Table.find_get] using hf⟩

theorem batchStep_eq (h : batchStep t p = some t') : BatchStep t p t' := by
  cases p with
  | epollWait ready =>
    simp only [batchStep] at h
    split_ifs at h with hc
    cases h
    exact .epollWait hc.1 hc.2.1 hc.2.2.2.2
  | dispatch r =>
    simp only [batchStep] at h
    split_ifs at h with hc
    split at h
    · cases h
    · rename_i e es he
      split at h
      · rename_i hf
        cases h
        exact .null he hf
      · rename_i a hf
        split at h
        · rename_i ha
          cases h
          exact .dangling he hf ha
        · rename_i c ha
          exact .deliver he hf (by rw [ha]; exact Option.some_ne_none c) (by simpa using hc) h
  | act o =>
    simp only [batchStep] at h
    split_ifs at h with hc
    simp only [Bool.or_eq_true, not_or, Bool.not_eq_true] at hc
    exact .act hc.1 h

/-- the event finds its connection now -/
def Sound (t : Batch C) (e : Event C) : Prop :=
  ∃ a, e.target = some (a, t.gen a) ∧ t.service.table.find e.fd = some a ∧ t.service.conns a ≠ none

/-- the event will not find its connection: it is gone, or another one has its entry -/
def Doomed (t : Batch C) (e : Event C) : Prop :=
  ∃ l : Life C, e.target = some l ∧
    (l.2 < t.gen l.1 ∨ l.2 = t.gen l.1 ∧ t.service.conns l.1 ≠ none ∧ t.service.table.find e.fd ≠ some l.1)

/-- the event was reported for a connection that was alive -/
def Known (t : Batch C) (e : Event C) : Prop :=
  ∃ l : Life C, e.target = some l ∧ (l.2 < t.gen l.1 ∨ l.2 = t.gen l.1 ∧ t.service.conns l.1 ≠ none)

theorem perform_eq (h : t.perform o = some t') :
    step t.service o = some t'.service ∧ t'.events = t.events ∧ t'.delivered = t.delivered ∧
      t'.crashed = t.crashed ∧ (∀ a, o ≠ .destroy a → t'.gen a = t.gen a) ∧
      ∀ a, o = .destroy a → t'.gen a = t.gen a + 1 := by
  obtain ⟨u, hu, rfl⟩ := Option.map_eq_some_iff.1 h
  refine ⟨hu, rfl, rfl, rfl, fun a ha => ?_, ?_⟩
  · cases o with
    | destroy b => exact update_of_ne (fun he => ha (by rw [he])) ..
    | _ => rfl
  · rintro a rfl
    exact update_self ..

theorem perform_gen (h : t.perform o = some t') (a : C) : t.gen a ≤ t'.gen a := by
  obtain ⟨-, -, -, -, hsame, hnext⟩ := perform_eq h
  by_cases ha : o = .destroy a
  · rw [hnext a ha]; exact Nat.le_succ _
  · exact Nat.le_of_eq (hsame a ha).symm

theorem perform_known (h : t.perform o = some t') (he : Known t e) : Known t' e := by
  obtain ⟨hs, -, -, -, hsame, hnext⟩ := perform_eq h
  obtain ⟨⟨a, g⟩, ht, hl | ⟨hg, hl⟩⟩ := he
  · exact ⟨(a, g), ht, Or.inl (Nat.lt_of_lt_of_le hl (perform_gen h a))⟩
  · dsimp only at hg hl
    by_cases ha : o = .destroy a
    · exact ⟨(a, g), ht, Or.inl (by dsimp only; rw [hnext a ha]; omega)⟩
    · exact ⟨(a, g), ht, Or.inr ⟨by rw [hsame a ha]; exact hg, step_lives hs ha hl⟩⟩

/-- an operation that spares the event keeps it sound -/
theorem perform_sound (hT : Tracked t.service) (h : t.perform o = some t') (hc : creates t.service o ≠ some e.fd)
    (hd : ∀ a, o = .destroy a → e.target ≠ some (a, t.gen a)) (he : Sound t e) : Sound t' e := by
  obtain ⟨hs, -, -, -, hsame, -⟩ := perform_eq h
  obtain ⟨a, ht, hf, hl⟩ := he
  have ha : o ≠ .destroy a := fun ho => hd a ho ht
  refine ⟨a, by rw [hsame a ha]; exact ht, ?_, step_lives hs ha hl⟩
  rcases step_find_stays hT hs hc with hst | ⟨b, ho, hb, -⟩
  · rw [hst, hf]
  · rw [hf] at hb; cases hb
    exact absurd ho ha

/-- once doomed, always doomed: a connection only gets an entry when it is created -/
theorem perform_doomed (hT : Tracked t.service) (h : t.perform o = some t') (he : Doomed t e) : Doomed t' e := by
  obtain ⟨hs, -, -, -, hsame, hnext⟩ := perform_eq h
  obtain ⟨⟨a, g⟩, ht, hl | ⟨hg, hl, hf⟩⟩ := he
  · exact ⟨(a, g), ht, Or.inl (Nat.lt_of_lt_of_le hl (perform_gen h a))⟩
  dsimp only at hg hl hf
  by_cases ha : o = .destroy a
  · exact ⟨(a, g), ht, Or.inl (by dsimp only; rw [hnext a ha]; omega)⟩
  refine ⟨(a, g), ht, Or.inr ⟨by rw [hsame a ha]; exact hg, step_lives hs ha hl, fun hf' => ?_⟩⟩
  by_cases hc : creates t.service o = some e.fd
  · obtain ⟨b, hb, hfb⟩ := step_find_creates hs hc
    rw [hf'] at hfb; cases hfb
    exact hl hb
  · rcases step_find_stays hT hs hc with hst | ⟨b, -, -, hst⟩
    · exact hf (hst ▸ hf')
    · rw [hf'] at hst; cases hst

/-- an operation that does not spare an event dooms it -/
theorem perform_dooms (h : t.perform o = some t') (he : Known t e)
    (hb : creates t.service o = some e.fd ∨ ∃ a, o = .destroy a ∧ e.target = some (a, t.gen a)) : Doomed t' e := by
  obtain ⟨hs, -, -, -, hsame, hnext⟩ := perform_eq h
  rcases hb with hc | ⟨a, ha, ht⟩
  · obtain ⟨⟨a, g⟩, ht, hl | ⟨hg, hl⟩⟩ := he
    · exact ⟨(a, g), ht, Or.inl (Nat.lt_of_lt_of_le hl (perform_gen h a))⟩
    dsimp only at hg hl
    have ha : o ≠ .destroy a := by rintro rfl; cases hc
    refine ⟨(a, g), ht, Or.inr ⟨by rw [hsame a ha]; exact hg, step_lives hs ha hl, fun hf => ?_⟩⟩
    obtain ⟨b, hb, hfb⟩ := step_find_creates hs hc
    rw [hf] at hfb; cases hfb
    exact hl hb
  · exact ⟨(a, t.gen a), ht, Or.inl (by dsimp only; rw [hnext a ha]; omega)⟩

/-! ## Runs -/

structure BatchInv (t : Batch C) : Prop where
  tracked : Tracked t.service
  known : ∀ e ∈ t.events, Known t e
  crash : t.crashed = true → ∃ d ∈ t.delivered, right d = false

theorem harmless_iff : t.harmless o = true ↔ ∀ e ∈ t.events,
    creates t.service o ≠ some e.fd ∧ ∀ a, o = .destroy a → e.target ≠ some (a, t.gen a) := by
  simp only [Batch.harmless, List.all_eq_true, Bool.and_eq_true, decide_eq_true_eq]
  refine forall₂_congr fun e _ => and_congr_right fun _ => ?_
  cases o <;> simp

theorem perform_inv (h : BatchInv t) (hp : t.perform o = some t') : BatchInv t' := by
  obtain ⟨hs, he, hd, hc, -⟩ := perform_eq hp
  refine ⟨step_tracked h.tracked hs, fun e hm => ?_, fun hcr => ?_⟩
  · exact perform_known hp (h.known e (he ▸ hm))
  · rw [hd]
    exact h.crash (hc ▸ hcr)

/-- a lookup changes nothing for the events to come -/
theorem turn_inv (h : BatchInv t) (he : t.events = e :: es) : BatchInv (t.turn e es x) := by
  refine ⟨turn_tracked h.tracked, fun d hd => h.known d (by rw [he]; exact List.mem_cons_of_mem e hd), fun hc => ?_⟩
  obtain ⟨d, hd, hr⟩ := h.crash hc
  exact ⟨d, List.mem_append_left _ hd, hr⟩

omit [DecidableEq C] in
/-- an event that epoll_wait returns finds its connection -/
theorem event_sound (h : Tracked t.service) {p : Int32 × Events} (hp : t.service.epoll p.1 = true) :
    Sound t (t.event p) := by
  obtain ⟨a, ⟨c, hc, -⟩, hf⟩ := h.registered p.1 hp
  exact ⟨a, by simp [Batch.event, hf], hf, by rw [hc]; exact Option.some_ne_none c⟩

omit [DecidableEq C] in
theorem Sound.known (h : Sound t e) : Known t e := by
  obtain ⟨a, ht, -, hl⟩ := h
  exact ⟨(a, t.gen a), ht, Or.inr ⟨rfl, hl⟩⟩

theorem batchStep_inv (h : BatchInv t) (hs : batchStep t p = some t') : BatchInv t' := by
  cases batchStep_eq hs with
  | epollWait hc he hr =>
    refine ⟨h.tracked, fun e hm => ?_, fun hcr => by rw [hc] at hcr; cases hcr⟩
    obtain ⟨p, hp, rfl⟩ := List.mem_map.1 hm
    exact (event_sound h.tracked (hr p hp)).known
  | @null e es r he hf =>
    have hi := turn_inv (x := .null) h he
    exact ⟨hi.tracked, hi.known, fun _ => ⟨_, List.mem_append_right _ (List.mem_singleton_self _), rfl⟩⟩
  | @dangling e es r a he hf ha =>
    have hi := turn_inv (x := .dangling a) h he
    exact ⟨hi.tracked, hi.known, fun _ => ⟨_, List.mem_append_right _ (List.mem_singleton_self _), rfl⟩⟩
  | deliver he hf ha hc hp => exact perform_inv (turn_inv h he) hp
  | act hc hp => exact perform_inv h hp

/-- nothing went wrong, and the events to come will find their connections -/
structure Calm (t : Batch C) : Prop extends BatchInv t where
  sound : ∀ e ∈ t.events, Sound t e
  right : ∀ d ∈ t.delivered, right d = true

omit [DecidableEq C] in
theorem turn_sound {d : Event C} (h : Sound t d) : Sound (t.turn e es x) d := by
  obtain ⟨a, ht, hf, hl⟩ := h
  exact ⟨a, ht, by simpa [Batch.turn, Table.find_get] using hf, hl⟩

omit [DecidableEq C] in
theorem turn_doomed {d : Event C} (h : Doomed t d) : Doomed (t.turn e es x) d := by
  obtain ⟨l, ht, hl⟩ := h
  exact ⟨l, ht, by simpa [Batch.turn, Table.find_get] using hl⟩

theorem perform_calm (h : Calm t) (hC : t.harmless o = true) (hp : t.perform o = some t') : Calm t' := by
  obtain ⟨hs, he, hd, -⟩ := perform_eq hp
  refine ⟨perform_inv h.toBatchInv hp, fun e hm => ?_, by rw [hd]; exact h.right⟩
  rw [he] at hm
  obtain ⟨hc, hx⟩ := harmless_iff.1 hC e hm
  exact perform_sound h.tracked hp hc hx (h.sound e hm)

theorem step_calm (h : Calm t) (hC : spares t p = true) (hs : batchStep t p = some t') : Calm t' := by
  have hi := batchStep_inv h.toBatchInv hs
  cases batchStep_eq hs with
  | epollWait hc he hr =>
    refine ⟨hi, fun e hm => ?_, h.right⟩
    obtain ⟨p, hp, rfl⟩ := List.mem_map.1 hm
    exact event_sound h.tracked (hr p hp)
  | @null e es r he hf =>
    obtain ⟨a, -, hfe, -⟩ := h.sound e (by rw [he]; exact List.mem_cons_self)
    rw [hf] at hfe; cases hfe
  | @dangling e es r a he hf ha =>
    obtain ⟨b, -, hfe, hl⟩ := h.sound e (by rw [he]; exact List.mem_cons_self)
    rw [hf] at hfe; cases hfe
    exact absurd ha hl
  | @deliver e es r a t' he hf ha hc hp =>
    have hC : ({ t with events := es } : Batch C).harmless (.notify a e.hint r) = true := by
      simpa only [spares, he, hf] using hC
    refine perform_calm ⟨turn_inv h.toBatchInv he, fun d hd => ?_, fun d hd => ?_⟩ hC hp
    · exact turn_sound (h.sound d (by rw [he]; exact List.mem_cons_of_mem e hd))
    · rcases List.mem_append.1 hd with hd | hd
      · exact h.right d hd
      · obtain ⟨b, ht, hfe, -⟩ := h.sound e (by rw [he]; exact List.mem_cons_self)
        rw [hf] at hfe; cases hfe
        rw [List.mem_singleton.1 hd]
        exact decide_eq_true ht
  | act hc hp => exact perform_calm h hC hp

/-- an event went wrong or will -/
def Marked (t : Batch C) : Prop := (∃ e ∈ t.events, Doomed t e) ∨ ∃ d ∈ t.delivered, Ipc.right d = false

theorem perform_marked (h : BatchInv t) (hm : Marked t) (hp : t.perform o = some t') : Marked t' := by
  obtain ⟨hs, he, hd, -⟩ := perform_eq hp
  unfold Marked
  rw [he, hd]
  refine hm.imp_left ?_
  rintro ⟨e, hm, hx⟩
  exact ⟨e, hm, perform_doomed h.tracked hp hx⟩

theorem perform_marks (h : BatchInv t) (hC : ¬ t.harmless o = true) (hp : t.perform o = some t') : Marked t' := by
  obtain ⟨hs, he, hd, -⟩ := perform_eq hp
  rw [harmless_iff] at hC
  push Not at hC
  obtain ⟨e, hm, hx⟩ := hC
  refine Or.inl ⟨e, he ▸ hm, perform_dooms hp (h.known e hm) ?_⟩
  by_cases hc : creates t.service o = some e.fd
  · exact Or.inl hc
  · exact Or.inr (hx hc)

theorem step_marked (h : BatchInv t) (hm : Marked t) (hs : batchStep t p = some t') : Marked t' := by
  have wrong : ∀ {e x}, Ipc.right (e, x) = false → ∃ d ∈ t.delivered ++ [(e, x)], Ipc.right d = false :=
    fun hx => ⟨_, List.mem_append_right _ (List.mem_singleton_self _), hx⟩
  cases batchStep_eq hs with
  | epollWait hc he hr =>
    rcases hm with ⟨e, hm, -⟩ | hm
    · rw [he] at hm; cases hm
    · exact Or.inr hm
  | null he hf => exact Or.inr (wrong rfl)
  | dangling he hf ha => exact Or.inr (wrong rfl)
  | @deliver e es r a t' he hf ha hc hp =>
    refine perform_marked (turn_inv h he) ?_ hp
    rcases hm with ⟨d, hd, hx⟩ | ⟨d, hd, hx⟩
    · rw [he] at hd
      rcases List.mem_cons.1 hd with rfl | hd
      · refine Or.inr (wrong (decide_eq_false fun ht => ?_))
        obtain ⟨l, hl, hx⟩ := hx
        rw [ht] at hl; cases hl
        rcases hx with hx | ⟨-, -, hx⟩
        · exact Nat.lt_irrefl _ hx
        · exact hx hf
      · exact Or.inl ⟨d, hd, turn_doomed hx⟩
    · exact Or.inr ⟨d, List.mem_append_left _ hd, hx⟩
  | act hc hp => exact perform_marked h hm hp

theorem step_marks (h : BatchInv t) (hC : ¬ spares t p = true) (hs : batchStep t p = some t') : Marked t' := by
  cases batchStep_eq hs with
  | epollWait => exact absurd rfl hC
  | null he hf => exact absurd (by simp only [spares, he, hf]) hC
  | dangling he hf ha =>
    exact Or.inr ⟨_, List.mem_append_right _ (List.mem_singleton_self _), rfl⟩
  | @deliver e es r a t' he hf ha hc hp =>
    refine perform_marks (turn_inv h he) (fun hh => hC ?_) hp
    simp only [spares, he, hf]
    exact hh
  | act hc hp => exact perform_marks h hC hp

/-- **Every event to its connection, exactly while the events to come are spared.** In a run of batches with any calls in
between, the events so far have reached the connections that they were reported for, and no lookup has yielded NULL or
the address of a dead connection, if every step spared the events to come; and at the end of a batch, or after a crash,
only if. -/
theorem batches_right_iff (opened : Int32 → Bool) (ps : List (BatchOp C)) (t : Batch C)
    (hr : (batches C opened).run (batches C opened).init ps = some t) :
    ((batches C opened).Along (spares · ·) (batches C opened).init ps → t.Right) ∧
      (t.events = [] ∨ t.crashed = true →
        (t.Right ↔ (batches C opened).Along (spares · ·) (batches C opened).init ps)) := by
  have h0 : Calm (batches C opened).init := by
    refine ⟨⟨⟨?_, ?_, ?_⟩, ?_, ?_⟩, ?_, ?_⟩ <;> simp [batches, service, Holds]
  have hok : (batches C opened).Along (spares · ·) (batches C opened).init ps → t.Right := by
    intro hC
    have h : Calm t := (batches C opened).along_inv (fun _ _ _ => step_calm) h0 hC hr
    refine ⟨?_, h.right⟩
    cases hc : t.crashed with
    | false => rfl
    | true =>
      obtain ⟨d, hd, hx⟩ := h.crash hc
      rw [h.right d hd] at hx; cases hx
  refine ⟨hok, fun hend => ⟨fun hR => ?_, hok⟩⟩
  rcases (batches C opened).along_or (I := BatchInv) (fun _ _ _ => batchStep_inv) (fun _ _ _ => step_marks)
    (fun _ _ _ => step_marked) h0.toBatchInv hr with hC | ⟨e, he, -⟩ | ⟨d, hd, hx⟩
  · exact hC
  · rcases hend with hend | hend
    · rw [hend] at he; cases he
    · rw [hR.1] at hend; cases hend
  · rw [hR.2 d hd] at hx; cases hx

/-- a server accepts a client in a batch with an event of another, which is served and then deleted by its on_close -/
def serveBatches : List (BatchOp ℕ) :=
  [.act (.construct 1 (.ok 5)), .act (.listen 1 true), .epollWait [(5, ⟨true, false⟩)], .dispatch (.ok 6 2),
    .epollWait [(5, ⟨true, false⟩), (6, ⟨true, false⟩)], .dispatch (.ok 7 3), .act (.close 3), .dispatch .failed,
    .epollWait [(6, ⟨true, true⟩)], .dispatch .failed, .act (.destroy 2)]

theorem batches_right_serve :
    ∃ t, (batches ℕ (· ≤ 4)).run (batches ℕ (· ≤ 4)).init serveBatches = some t ∧ t.Right :=
  ⟨_, rfl, (batches_right_iff (· ≤ 4) serveBatches _ rfl).1 (by decide)⟩

/-- **A connection deleted while its event is pending.** Two peers close; the on_close of the first connection deletes
the second, and its event finds NULL. -/
theorem deleted_while_pending :
    ¬ ∀ (ps : List (BatchOp ℕ)) t, (batches ℕ (· ≤ 4)).run (batches ℕ (· ≤ 4)).init ps = some t → t.Right := by
  intro h
  have := (h [.act (.construct 1 (.ok 5)), .act (.construct 2 (.ok 6)),
    .epollWait [(5, ⟨true, true⟩), (6, ⟨true, true⟩)], .dispatch .failed, .act (.destroy 2), .dispatch .failed] _ rfl).1
  cases this

end Hodgepodge.Ipc
