/-
Who owns the descriptors of the Linux connections (tipc.cpp). A descriptor comes from socket() in a constructor or from
accept() in `notify`; it belongs to the connection that is built on it, until close() or the destructor closes it. Two
paths give a descriptor to nobody: a constructor whose bind() fails throws, so its destructor does not run, and the
accept branch does nothing with the new descriptor when `on_accept` is not set. On every other failure the descriptor
is closed, as the setup functions of SocketHelper.cpp do after a failed bind().

Results:
- `Step`, `step_eq`: the inversion of every operation of the service.
- `create_holds`, `close_holds`, `destroy_holds`: what the operations do to the owners.
- `no_leak_iff`: in a run, every descriptor has one owner throughout exactly if no constructor fails in bind() and no
  accept finds `on_accept` unset.
- `bind_failure_leaks`: the shortest leak.
-/
import Hodgepodge.Ipc.Registry

namespace Hodgepodge.Ipc

open Function Hodgepodge.Core

variable {C : Type*} [DecidableEq C]

/-! ## Inversion -/

/-- what one operation does -/
inductive Step (s : St C) : Op C → St C → Prop
  | socketFailed {a} (ha : s.conns a = none) : Step s (.construct a .socketFailed) s
  | bindFailed {a fd} (ha : s.conns a = none) (hf : s.free fd = true) :
      Step s (.construct a (.bindFailed fd)) (openFd s fd)
  | construct {a fd} (ha : s.conns a = none) (hf : s.free fd = true) :
      Step s (.construct a (.ok fd)) (create (openFd s fd) a fd)
  | listen {a c ok} (ha : s.conns a = some c) :
      Step s (.listen a ok) { s with conns := update s.conns a (some { c with listening := c.listening || ok }) }
  | ignore {a c hint r} (ha : s.conns a = some c) (hb : branch c.listening hint ≠ .accept) :
      Step s (.notify a hint r) s
  | acceptFailed {a c hint} (ha : s.conns a = some c) (hb : branch c.listening hint = .accept) :
      Step s (.notify a hint .failed) s
  | noCallback {a c hint clifd} (ha : s.conns a = some c) (hb : branch c.listening hint = .accept)
      (hf : s.free clifd = true) : Step s (.notify a hint (.noCallback clifd)) (openFd s clifd)
  | rejected {a c hint clifd} (ha : s.conns a = some c) (hb : branch c.listening hint = .accept)
      (hf : s.free clifd = true) : Step s (.notify a hint (.rejected clifd)) (closeFd (openFd s clifd) clifd)
  | accepted {a c hint clifd conn} (ha : s.conns a = some c) (hb : branch c.listening hint = .accept)
      (hf : s.free clifd = true) (hn : s.conns conn = none) :
      Step s (.notify a hint (.ok clifd conn)) (create (openFd s clifd) conn clifd)
  | close {a c} (ha : s.conns a = some c) : Step s (.close a) (close s a c)
  | destroy {a c} (ha : s.conns a = some c) : Step s (.destroy a) (destroy s a c)

variable {s s' : St C} {o : Op C} {a b : C} {c : Conn} {fd f : Int32}

theorem step_eq (h : step s o = some s') : Step s o s' := by
  cases o with
  | construct a r =>
    simp only [step] at h
    split_ifs at h with ha
    have ha : s.conns a = none := by simpa using ha
    cases r with
    | socketFailed => cases h; exact .socketFailed ha
    | bindFailed fd =>
      simp only at h
      split_ifs at h with hf
      cases h
      exact .bindFailed ha hf
    | ok fd =>
      simp only at h
      split_ifs at h with hf
      cases h
      exact .construct ha hf
  | listen a ok =>
    obtain ⟨c, ha, rfl⟩ := Option.map_eq_some_iff.1 h
    have hl : Step s (.listen a ok) _ := .listen ha
    split_ifs with hc
    · obtain ⟨hc, rfl⟩ : c.listening = false ∧ ok = true := by simpa using hc
      simpa [hc] using hl
    · have he : (c.listening || ok) = c.listening := by
        cases hc' : c.listening <;> cases ok <;> simp_all
      have hs : update s.conns a (some c) = s.conns := by rw [← ha, update_eq_self]
      simpa only [he, hs] using hl
  | notify a hint r =>
    obtain ⟨c, ha, h⟩ := Option.bind_eq_some_iff.1 h
    split at h
    · rename_i hb
      cases r with
      | failed => cases h; exact .acceptFailed ha hb
      | noCallback clifd =>
        simp only [accept] at h
        split_ifs at h with hf
        cases h
        exact .noCallback ha hb hf.2
      | rejected clifd =>
        simp only [accept] at h
        split_ifs at h with hf
        cases h
        exact .rejected ha hb hf.2
      | ok clifd conn =>
        simp only [accept] at h
        split_ifs at h with hf
        cases h
        exact .accepted ha hb hf.2.1 (by simpa using hf.2.2)
    · rename_i hb
      cases h
      exact .ignore ha hb
  | close a =>
    obtain ⟨c, ha, rfl⟩ := Option.map_eq_some_iff.1 h
    exact .close ha
  | destroy a =>
    obtain ⟨c, ha, rfl⟩ := Option.map_eq_some_iff.1 h
    exact .destroy ha

/-! ## Owners -/

/-- `a` is a live connection with the descriptor `fd` -/
def Holds (s : St C) (a : C) (fd : Int32) : Prop := ∃ c, s.conns a = some c ∧ c.fd = fd ∧ 0 ≤ fd

omit [DecidableEq C] in
@[simp] theorem epollCtl_opened (add : Bool) : (epollCtl s fd add).opened = s.opened := by
  unfold epollCtl; split_ifs <;> rfl

omit [DecidableEq C] in
@[simp] theorem epollCtl_conns (add : Bool) : (epollCtl s fd add).conns = s.conns := by
  unfold epollCtl; split_ifs <;> rfl

omit [DecidableEq C] in
@[simp] theorem associate_opened : (associate s a fd).opened = s.opened := by
  unfold associate
  split_ifs
  · rfl
  · dsimp only; split_ifs <;> simp

omit [DecidableEq C] in
@[simp] theorem associate_conns : (associate s a fd).conns = s.conns := by
  unfold associate
  split_ifs
  · rfl
  · dsimp only; split_ifs <;> simp

omit [DecidableEq C] in
@[simp] theorem unassociate_opened : (unassociate s fd).opened = s.opened := by
  unfold unassociate; split_ifs <;> simp

omit [DecidableEq C] in
@[simp] theorem unassociate_conns : (unassociate s fd).conns = s.conns := by
  unfold unassociate; split_ifs <;> simp

@[simp] theorem create_opened : (create (openFd s fd) a fd).opened = update s.opened fd true := by
  simp [create, openFd]

@[simp] theorem create_conns : (create (openFd s fd) a fd).conns = update s.conns a (some ⟨fd, false⟩) := by
  simp [create, openFd]

theorem create_holds (ha : s.conns a = none) (hfd : 0 ≤ fd) :
    Holds (create (openFd s fd) a fd) b f ↔ (b = a ∧ f = fd) ∨ Holds s b f := by
  unfold Holds
  rw [create_conns]
  by_cases hb : b = a
  · subst hb
    simp only [update_self, Option.some.injEq, ha, reduceCtorEq, false_and, exists_false, or_false, true_and]
    constructor
    · rintro ⟨c, rfl, rfl, -⟩; rfl
    · rintro rfl; exact ⟨⟨f, false⟩, rfl, rfl, hfd⟩
  · simp [hb]

theorem listen_holds (ha : s.conns a = some c) {l : Bool} :
    Holds { s with conns := update s.conns a (some { c with listening := l }) } b f ↔ Holds s b f := by
  unfold Holds
  dsimp only
  by_cases hb : b = a
  · subst hb; simp [ha]
  · simp [hb]

/-- close() takes the descriptor from its owner -/
theorem close_holds (ha : s.conns a = some c) : Holds (close s a c) b f ↔ b ≠ a ∧ Holds s b f := by
  unfold Holds close
  by_cases hb : b = a
  · subst hb
    split_ifs with hfd
    · simp only [update_self, Option.some.injEq, ne_eq, not_true_eq_false, false_and, iff_false, not_exists, not_and]
      rintro d rfl rfl
      exact (by decide : ¬(0 : Int32) ≤ -1)
    · simp only [ha, Option.some.injEq, ne_eq, not_true_eq_false, false_and, iff_false, not_exists, not_and]
      rintro d rfl rfl
      exact hfd
  · split_ifs <;> simp [hb]

theorem close_opened : (close s a c).opened = if 0 ≤ c.fd then update s.opened c.fd false else s.opened := by
  unfold close; split_ifs <;> rfl

theorem destroy_opened : (destroy s a c).opened = if 0 ≤ c.fd then update s.opened c.fd false else s.opened := by
  simp [destroy, close_opened]

theorem destroy_holds (ha : s.conns a = some c) : Holds (destroy s a c) b f ↔ b ≠ a ∧ Holds s b f := by
  have hu : Holds (unassociate s c.fd) b f ↔ Holds s b f := by simp [Holds]
  have hc := close_holds (s := unassociate s c.fd) (b := b) (f := f) (by simpa using ha)
  rw [← hu]
  by_cases hb : b = a
  · subst hb; simp [Holds, destroy]
  · rw [← hc]
    simp [Holds, destroy, hb]

/-! ## No leaks -/

/-- the descriptors that are open beyond those of the process before belong to the live connections, one each -/
structure NoLeak (opened : Int32 → Bool) (s : St C) : Prop where
  owned : ∀ fd, (s.opened fd = true ∧ opened fd = false) ↔ ∃ a, Holds s a fd
  once : ∀ a b fd, Holds s a fd → Holds s b fd → a = b

/-- the operation hands a new descriptor to a connection or closes it -/
def handsOver (s : St C) : Op C → Bool
  | .construct _ (.bindFailed _) => false
  | .notify a hint (.noCallback _) =>
    match s.conns a with
    | some c => decide (branch c.listening hint ≠ .accept)
    | none => true
  | _ => true

/-- the descriptors of the process stay open -/
structure Kept (opened : Int32 → Bool) (s : St C) : Prop extends NoLeak opened s where
  before : ∀ fd, opened fd = true → s.opened fd = true

variable {opened : Int32 → Bool}

omit [DecidableEq C] in
theorem Kept.same (h : Kept opened s) (ho : s'.opened = s.opened) (hh : ∀ b f, Holds s' b f ↔ Holds s b f) :
    Kept opened s' where
  owned f := by simpa only [ho, hh] using h.owned f
  once b d f := by simpa only [hh] using h.once b d f
  before f := by simpa only [ho] using h.before f

omit [DecidableEq C] in
/-- the process has no owner's descriptor, and none that is free -/
theorem Kept.foreign (h : Kept opened s) (hf : s.opened fd = false) : opened fd = false ∧ ∀ a, ¬ Holds s a fd := by
  constructor
  · cases ho : opened fd with
    | false => rfl
    | true => rw [h.before fd ho] at hf; cases hf
  · intro a ha
    rw [((h.owned fd).2 ⟨a, ha⟩).1] at hf; cases hf

omit [DecidableEq C] in
/-- a new connection on a new descriptor -/
theorem Kept.gain (h : Kept opened s) (hf : s.opened fd = false) (ho : s'.opened = update s.opened fd true)
    (hh : ∀ b f, Holds s' b f ↔ (b = a ∧ f = fd) ∨ Holds s b f) : Kept opened s' := by
  obtain ⟨hout, hnew⟩ := h.foreign hf
  refine ⟨⟨fun f => ?_, fun b d f hb hd => ?_⟩, fun f hp => ?_⟩
  · by_cases hfd : f = fd
    · subst hfd
      simp only [ho, update_self, hout, and_self, true_iff]
      exact ⟨a, (hh a f).2 (Or.inl ⟨rfl, rfl⟩)⟩
    · simp only [ho, update_of_ne hfd, hh, hfd, and_false, false_or]
      exact h.owned f
  · rcases (hh b f).1 hb with ⟨rfl, rfl⟩ | hb <;> rcases (hh d f).1 hd with ⟨rfl, hfd⟩ | hd
    · rfl
    · exact absurd hd (hnew d)
    · exact absurd (hfd ▸ hb) (hnew b)
    · exact h.once b d f hb hd
  · by_cases hfd : f = fd
    · rw [ho, hfd, update_self]
    · rw [ho, update_of_ne hfd]
      exact h.before f hp

omit [DecidableEq C] in
/-- a connection gives up what it has -/
theorem Kept.lose (h : Kept opened s) (ha : s.conns a = some c)
    (ho : s'.opened = if 0 ≤ c.fd then update s.opened c.fd false else s.opened)
    (hh : ∀ b f, Holds s' b f ↔ b ≠ a ∧ Holds s b f) : Kept opened s' := by
  have mine : ∀ f, Holds s a f ↔ 0 ≤ c.fd ∧ f = c.fd := by
    intro f
    constructor
    · rintro ⟨d, hd, rfl, hf⟩
      rw [ha] at hd; cases hd
      exact ⟨hf, rfl⟩
    · rintro ⟨hf, rfl⟩
      exact ⟨c, ha, rfl, hf⟩
  refine ⟨⟨fun f => ?_, fun b d f hb hd => h.once b d f ((hh b f).1 hb).2 ((hh d f).1 hd).2⟩, fun f hp => ?_⟩
  · rw [ho]
    by_cases hm : 0 ≤ c.fd ∧ f = c.fd
    · obtain ⟨hc, rfl⟩ := hm
      simp only [if_pos hc, update_self, Bool.false_eq_true, false_and, false_iff, not_exists, hh]
      exact fun b hb => hb.1 (h.once b a c.fd hb.2 ((mine _).2 ⟨hc, rfl⟩))
    · have hsame : (if 0 ≤ c.fd then update s.opened c.fd false else s.opened) f = s.opened f := by
        split_ifs with hc
        · exact update_of_ne (fun hf => hm ⟨hc, hf⟩) ..
        · rfl
      rw [hsame, h.owned f]
      constructor
      · rintro ⟨b, hb⟩
        refine ⟨b, (hh b f).2 ⟨?_, hb⟩⟩
        rintro rfl
        exact hm ((mine f).1 hb)
      · rintro ⟨b, hb⟩
        exact ⟨b, ((hh b f).1 hb).2⟩
  · have hne : ¬(0 ≤ c.fd ∧ f = c.fd) := fun hm => by
      have := ((h.owned f).2 ⟨a, (mine f).2 hm⟩).2
      rw [hp] at this; cases this
    rw [ho]
    split_ifs with hc
    · rw [update_of_ne fun hf => hne ⟨hc, hf⟩]
      exact h.before f hp
    · exact h.before f hp

omit [DecidableEq C] in
/-- a descriptor that nobody gets is leaked -/
theorem Kept.leak (h : Kept opened s) (hf : s.opened fd = false) : ¬ NoLeak opened (openFd s fd) := by
  intro hn
  obtain ⟨hout, hnew⟩ := h.foreign hf
  obtain ⟨a, ha⟩ := (hn.owned fd).1 ⟨update_self .., hout⟩
  exact hnew a ha

theorem step_kept (h : Kept opened s) (hC : handsOver s o) (hs : step s o = some s') : Kept opened s' := by
  cases step_eq hs with
  | socketFailed | ignore | acceptFailed => exact h
  | bindFailed _ _ => cases hC
  | construct ha hf =>
    obtain ⟨hfd, hf⟩ := free_iff.1 hf
    exact h.gain hf create_opened fun _ _ => create_holds ha hfd
  | listen ha => exact h.same rfl fun _ _ => listen_holds ha
  | noCallback ha hb hf => simp [handsOver, ha, hb] at hC
  | @rejected a c hint clifd ha hb hf =>
    refine h.same ?_ fun _ _ => Iff.rfl
    rw [← update_eq_self clifd s.opened, (free_iff.1 hf).2]
    simp [closeFd, openFd]
  | accepted ha hb hf hn =>
    obtain ⟨hfd, hf⟩ := free_iff.1 hf
    exact h.gain hf create_opened fun _ _ => create_holds hn hfd
  | close ha => exact h.lose ha close_opened fun _ _ => close_holds ha
  | destroy ha => exact h.lose ha destroy_opened fun _ _ => destroy_holds ha

theorem step_leaks (h : Kept opened s) (hC : ¬ handsOver s o) (hs : step s o = some s') : ¬ NoLeak opened s' := by
  cases step_eq hs with
  | bindFailed _ hf => exact h.leak (free_iff.1 hf).2
  | noCallback _ _ hf => exact h.leak (free_iff.1 hf).2
  | @ignore a c hint r ha hb =>
    refine absurd ?_ hC
    cases r with
    | noCallback clifd => simp [handsOver, ha, hb]
    | _ => rfl
  | _ => exact absurd rfl hC

/-- **One owner each, exactly without the two leaks.** A run passes only through states in which the descriptors that are
open are the descriptors of the live connections, one each, exactly if none of its constructors fails in bind() and none
of its accepts finds `on_accept` unset. -/
theorem no_leak_iff (opened : Int32 → Bool) (ops : List (Op C)) (s : St C)
    (hr : (service C opened).run (service C opened).init ops = some s) :
    (service C opened).Always (NoLeak opened) (service C opened).init ops ↔
      (service C opened).Along (handsOver · ·) (service C opened).init ops := by
  refine Lts.always_iff_along _ (fun _ h => h.toNoLeak) (fun _ _ _ => step_kept) (fun _ _ _ => step_leaks) ?_ hr
  have hnone : ∀ a fd, ¬ Holds (service C opened).init a fd := by
    rintro a fd ⟨c, hc, -⟩
    cases hc
  refine ⟨⟨fun fd => ?_, fun a b fd ha => absurd ha (hnone a fd)⟩, fun fd h => h⟩
  simp only [hnone, exists_false, iff_false]
  exact fun ⟨ho, hn⟩ => Bool.false_ne_true (hn.symm.trans ho)

/-- a socket() and an accept() fail, a client fails the check, another is served and closed, a third is destroyed -/
def failAndServe : List (Op ℕ) :=
  [.construct 1 .socketFailed, .construct 1 (.ok 5), .listen 1 true, .notify 1 ⟨true, false⟩ .failed,
    .notify 1 ⟨true, false⟩ (.rejected 6), .notify 1 ⟨true, false⟩ (.ok 6 2), .notify 1 ⟨true, false⟩ (.ok 7 3),
    .close 2, .destroy 3]

theorem no_leak_fail_and_serve : (service ℕ (· ≤ 4)).Always (NoLeak (· ≤ 4)) (service ℕ (· ≤ 4)).init failAndServe :=
  (no_leak_iff (· ≤ 4) failAndServe _ rfl).2 (by decide)

/-- **A constructor that throws leaks.** -/
theorem bind_failure_leaks :
    ¬ ∀ (ops : List (Op ℕ)) s, (service ℕ (· ≤ 4)).run (service ℕ (· ≤ 4)).init ops = some s → NoLeak (· ≤ 4) s := by
  intro h
  obtain ⟨a, c, hc, -⟩ := ((h [.construct 1 (.bindFailed 5)] _ rfl).owned 5).1 (by decide)
  cases hc

end Hodgepodge.Ipc
