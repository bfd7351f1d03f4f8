/-
The path handshake of the Linux connections (tipc.cpp). A client constructor unlinks and binds `/var/tmp/<pid>`; when
the server has accepted the client, `notify` checks that the path of the peer exists and is a socket, unlinks it, and
calls on_accept with the new connection; if the check fails it closes the new descriptor. All clients of one process
share one path, and two of them may need it at the same time: the constructor of one removes the path of another, and
the server removes the path of both with the first that it accepts.

Model: one listening server and any clients, each with the pid of its process. Every system call is a step: the unlink
and the bind of the constructor, connect, accept, stat, the server's unlink, on_accept. accept returns the path that the
peer was bound to, also when the path is gone or the peer is dead.

Results:
- `Inv`, `step_inv`: while no constructor unlinks a path that a client still needs, every pending client has its path.
- `handshake_accepts_all`: in such runs no accepted client is rejected, every accept ends in on_accept for its client,
  in the order of the accepts, and an accept in progress can always be finished.
- `same_pid_rejected`: two clients of one process; the second, alive and connected, is closed.
-/
import Mathlib.Data.Fintype.Basic
import Mathlib.Logic.Function.Basic
import Hodgepodge.Core.Lts

namespace Hodgepodge.Ipc.Handshake

open Function Hodgepodge.Core

variable {K : Type*}

/-- `CLI_PATH` and the pid, filled with zeros to width 5 -/
def cliPath (pid : ℕ) : List Char :=
  let digits := Nat.toDigits 10 pid
  ['/', 'v', 'a', 'r', '/', 't', 'm', 'p', '/'] ++ List.replicate (5 - digits.length) '0' ++ digits

inductive File where
  | socket
  | other
deriving DecidableEq

/-- where a client is: `unlinked` between the unlink and the bind of its constructor, `connected` from a connect that
returned 0, `dead` when it is destroyed or its constructor has thrown -/
inductive Client where
  | unborn
  | unlinked
  | bound
  | connected
  | dead
deriving DecidableEq

/-- where the service thread is in the accept branch -/
inductive Svc (K : Type*) where
  | idle
  /-- before stat -/
  | accepted (k : K)
  /-- before unlink -/
  | checked (k : K)
  /-- before on_accept -/
  | unlinked (k : K)
deriving DecidableEq

/-- the client of the accept in progress -/
def Svc.inHand : Svc K → List K
  | .idle => []
  | .accepted k | .checked k | .unlinked k => [k]

structure St (K : Type*) where
  fs : List Char → Option File
  client : K → Client
  /-- connected clients that wait for accept -/
  backlog : List K
  svc : Svc K
  /-- the accepted clients, in order -/
  taken : List K
  /-- the clients for whose connection on_accept was called, in order -/
  served : List K
  /-- the clients whose connection was closed by the check -/
  rejected : List K

inductive Op (K : Type*) where
  | unlink (k : K)
  | bind (k : K)
  | connect (k : K)
  | destroy (k : K)
  /-- the listening socket is readable while a client waits -/
  | accept
  | stat
  | unlinkPeer
  | onAccept
deriving DecidableEq

variable [DecidableEq K]

def step (pid : K → ℕ) (s : St K) : Op K → Option (St K)
  | .unlink k =>
    if s.client k = .unborn then
      some { s with fs := update s.fs (cliPath (pid k)) none, client := update s.client k .unlinked }
    else none
  | .bind k =>
    if s.client k = .unlinked then
      match s.fs (cliPath (pid k)) with
      | none => some { s with
          fs := update s.fs (cliPath (pid k)) (some .socket)
          client := update s.client k .bound }
      | some _ => some { s with client := update s.client k .dead }
    else none
  | .connect k =>
    if s.client k = .bound then
      some { s with client := update s.client k .connected, backlog := s.backlog ++ [k] }
    else none
  | .destroy k =>
    if s.client k = .bound ∨ s.client k = .connected then some { s with client := update s.client k .dead } else none
  | .accept =>
    match s.svc, s.backlog with
    | .idle, k :: backlog => some { s with svc := .accepted k, backlog := backlog, taken := s.taken ++ [k] }
    | _, _ => none
  | .stat =>
    match s.svc with
    | .accepted k =>
      match s.fs (cliPath (pid k)) with
      | some .socket => some { s with svc := .checked k }
      | _ => some { s with svc := .idle, rejected := s.rejected ++ [k] }
    | _ => none
  | .unlinkPeer =>
    match s.svc with
    | .checked k => some { s with svc := .unlinked k, fs := update s.fs (cliPath (pid k)) none }
    | _ => none
  | .onAccept =>
    match s.svc with
    | .unlinked k => some { s with svc := .idle, served := s.served ++ [k] }
    | _ => none

/-- a server that listens and no clients; `fs` is what earlier processes have left behind -/
def server (pid : K → ℕ) (fs : List Char → Option File) : Lts (St K) (Op K) :=
  ⟨⟨fs, fun _ => .unborn, [], .idle, [], [], []⟩, step pid⟩

/-- the server has yet to unlink the client's path: the client is bound, or the server is going to check it -/
def Pending (s : St K) (k : K) : Prop :=
  s.client k = .bound ∨ k ∈ s.backlog ∨ s.svc = .accepted k ∨ s.svc = .checked k

instance (s : St K) (k : K) : Decidable (Pending s k) := by unfold Pending; infer_instance

/-- the operation is not the unlink of a constructor on the path of a pending client -/
def undisturbed (pid : K → ℕ) (s : St K) : Op K → Prop
  | .unlink k => ∀ j, Pending s j → cliPath (pid j) ≠ cliPath (pid k)
  | _ => True

instance [Fintype K] (pid : K → ℕ) (s : St K) (o : Op K) : Decidable (undisturbed pid s o) := by
  cases o <;> unfold undisturbed <;> infer_instance

/-! ## The invariant -/

structure Inv (pid : K → ℕ) (s : St K) : Prop where
  held : ∀ k, Pending s k → s.fs (cliPath (pid k)) = some .socket
  /-- no two pending clients share a path -/
  apart : ∀ j k, Pending s j → Pending s k → cliPath (pid j) = cliPath (pid k) → j = k
  once : (s.svc.inHand ++ s.backlog).Nodup
  past : ∀ k ∈ s.svc.inHand ++ s.backlog, s.client k = .connected ∨ s.client k = .dead
  rejected : s.rejected = []
  taken : s.taken = s.served ++ s.svc.inHand

variable {pid : K → ℕ} {s s' : St K} {o : Op K}

/-- a client on its way to the server moves on, is destroyed, or was not on its way -/
theorem Inv.past_update (h : Inv pid s) {k : K} {p : Client}
    (hp : (s.client k ≠ .connected ∧ s.client k ≠ .dead) ∨ p = .connected ∨ p = .dead) :
    ∀ j ∈ s.svc.inHand ++ s.backlog, update s.client k p j = .connected ∨ update s.client k p j = .dead := by
  intro j hj
  by_cases hjk : j = k
  · subst hjk
    rw [update_self]
    rcases hp with ⟨hc, hd⟩ | hp
    · rcases h.past j hj with hj | hj
      · exact absurd hj hc
      · exact absurd hj hd
    · exact hp
  · rw [update_of_ne hjk]
    exact h.past j hj

/-- a client that leaves its place, if not by binding, does not become pending -/
theorem pending_of_update {k j : K} {p : Client} (fs : List Char → Option File) (hp : p ≠ .bound)
    (hj : Pending { s with fs := fs, client := update s.client k p } j) : Pending s j := by
  rcases hj with hj | hj
  · by_cases hjk : j = k
    · subst hjk
      exact absurd (by simpa using hj) hp
    · exact Or.inl (by simpa [update_of_ne hjk] using hj)
  · exact Or.inr hj

theorem client_inv (h : Inv pid s) {k : K} {p : Client} (hb : p ≠ .bound)
    (hp : (s.client k ≠ .connected ∧ s.client k ≠ .dead) ∨ p = .connected ∨ p = .dead) :
    Inv pid { s with client := update s.client k p } where
  held j hj := h.held j (pending_of_update s.fs hb hj)
  apart i j hi hj := h.apart i j (pending_of_update s.fs hb hi) (pending_of_update s.fs hb hj)
  once := h.once
  past := h.past_update hp
  rejected := h.rejected
  taken := h.taken

theorem unlink_inv (h : Inv pid s) {k : K} (hk : s.client k = .unborn)
    (hC : ∀ j, Pending s j → cliPath (pid j) ≠ cliPath (pid k)) :
    Inv pid { s with fs := update s.fs (cliPath (pid k)) none, client := update s.client k .unlinked } where
  held j hj := by
    have hj := pending_of_update _ (by simp) hj
    dsimp only
    rw [update_of_ne (hC j hj)]
    exact h.held j hj
  apart i j hi hj := h.apart i j (pending_of_update _ (by simp) hi) (pending_of_update _ (by simp) hj)
  once := h.once
  past := h.past_update (Or.inl (by simp [hk]))
  rejected := h.rejected
  taken := h.taken

/-- a bind that succeeds finds no pending client on its path -/
theorem bind_inv (h : Inv pid s) {k : K} (hk : s.client k = .unlinked) (hfs : s.fs (cliPath (pid k)) = none) :
    Inv pid { s with fs := update s.fs (cliPath (pid k)) (some .socket), client := update s.client k .bound } := by
  have hne : ∀ j, Pending s j → cliPath (pid j) ≠ cliPath (pid k) := by
    intro j hj he
    have := h.held j hj
    rw [he, hfs] at this; cases this
  have split : ∀ fs j, Pending { s with fs := fs, client := update s.client k .bound } j → j = k ∨ Pending s j := by
    rintro fs j (hj | hj)
    · by_cases hjk : j = k
      · exact Or.inl hjk
      · exact Or.inr (Or.inl (by simpa [update_of_ne hjk] using hj))
    · exact Or.inr (Or.inr hj)
  refine ⟨fun j hj => ?_, fun i j hi hj he => ?_, h.once, h.past_update (Or.inl (by simp [hk])), h.rejected, h.taken⟩
  · dsimp only
    rcases split _ j hj with rfl | hj
    · rw [update_self]
    · rw [update_of_ne (hne j hj)]
      exact h.held j hj
  · rcases split _ i hi with hi' | hi' <;> rcases split _ j hj with hj' | hj'
    · rw [hi', hj']
    · exact absurd (hi' ▸ he.symm) (hne j hj')
    · exact absurd (hj' ▸ he) (hne i hi')
    · exact h.apart i j hi' hj' he

theorem connect_inv (h : Inv pid s) {k : K} (hk : s.client k = .bound) :
    Inv pid { s with client := update s.client k .connected, backlog := s.backlog ++ [k] } := by
  have hnot : k ∉ s.svc.inHand ++ s.backlog := by
    intro hm
    rcases h.past k hm with hc | hc <;> · rw [hk] at hc; cases hc
  have hpend : ∀ j, Pending { s with client := update s.client k .connected, backlog := s.backlog ++ [k] } j →
      Pending s j := by
    rintro j (hj | hj | hj)
    · exact pending_of_update (k := k) (p := .connected) s.fs (by simp) (Or.inl hj)
    · rcases List.mem_append.1 hj with hj | hj
      · exact Or.inr (Or.inl hj)
      · rw [List.mem_singleton.1 hj]; exact Or.inl hk
    · exact Or.inr (Or.inr hj)
  refine ⟨fun j hj => h.held j (hpend j hj), fun i j hi hj => h.apart i j (hpend i hi) (hpend j hj), ?_, ?_,
    h.rejected, h.taken⟩
  · rw [← List.append_assoc]
    refine List.nodup_append.2 ⟨h.once, List.nodup_singleton k, ?_⟩
    intro i hi j hj he
    rw [List.mem_singleton.1 hj] at he
    exact hnot (he ▸ hi)
  · intro j hj
    rw [← List.append_assoc] at hj
    rcases List.mem_append.1 hj with hj | hj
    · exact h.past_update (Or.inr (Or.inl rfl)) j hj
    · rw [List.mem_singleton.1 hj]
      exact Or.inl (by simp)

omit [DecidableEq K] in
/-- a step of the server that unlinks nothing and makes nobody pending; the clients that it has left are those before,
in order, or fewer -/
theorem Inv.server (h : Inv pid s) (hfs : s'.fs = s.fs) (hclient : s'.client = s.client)
    (hpend : ∀ j, Pending s' j → Pending s j) (hsub : (s'.svc.inHand ++ s'.backlog).Sublist (s.svc.inHand ++ s.backlog))
    (hrejected : s'.rejected = s.rejected) (htaken : s'.taken = s'.served ++ s'.svc.inHand) : Inv pid s' where
  held j hj := by rw [hfs]; exact h.held j (hpend j hj)
  apart i j hi hj := h.apart i j (hpend i hi) (hpend j hj)
  once := h.once.sublist hsub
  past j hj := by rw [hclient]; exact h.past j (hsub.subset hj)
  rejected := hrejected.trans h.rejected
  taken := htaken

omit [DecidableEq K] in
theorem accept_inv (h : Inv pid s) {k : K} {backlog : List K} (hsvc : s.svc = .idle) (hb : s.backlog = k :: backlog) :
    Inv pid { s with svc := .accepted k, backlog := backlog, taken := s.taken ++ [k] } := by
  refine h.server rfl rfl ?_ (by simp [Svc.inHand, hsvc, hb]) rfl (by simp [Svc.inHand, h.taken, hsvc])
  rintro j (hj | hj | hj | hj)
  · exact Or.inl hj
  · exact Or.inr (Or.inl (by rw [hb]; exact .tail _ hj))
  · cases hj
    exact Or.inr (Or.inl (by rw [hb]; exact .head _))
  · cases hj

omit [DecidableEq K] in
theorem stat_inv (h : Inv pid s) {k : K} (hsvc : s.svc = .accepted k) : Inv pid { s with svc := .checked k } := by
  refine h.server rfl rfl ?_ (by simp [Svc.inHand, hsvc]) rfl (by simp [Svc.inHand, h.taken, hsvc])
  rintro j (hj | hj | hj | hj)
  · exact Or.inl hj
  · exact Or.inr (Or.inl hj)
  · cases hj
  · cases hj
    exact Or.inr (Or.inr (Or.inl hsvc))

omit [DecidableEq K] in
/-- the server removes the path of nobody else -/
theorem unlinkPeer_inv (h : Inv pid s) {k : K} (hsvc : s.svc = .checked k) :
    Inv pid { s with svc := .unlinked k, fs := update s.fs (cliPath (pid k)) none } := by
  have honce := h.once
  have hpast := h.past
  have htaken := h.taken
  rw [hsvc] at honce hpast htaken
  have hk : Pending s k := Or.inr (Or.inr (Or.inr hsvc))
  have hpend : ∀ j, Pending { s with svc := .unlinked k, fs := update s.fs (cliPath (pid k)) none } j →
      Pending s j ∧ j ≠ k := by
    rintro j (hj | hj | hj | hj)
    · refine ⟨Or.inl hj, ?_⟩
      rintro rfl
      rcases hpast j (.head _) with hc | hc <;> · rw [hj] at hc; cases hc
    · refine ⟨Or.inr (Or.inl hj), ?_⟩
      rintro rfl
      exact (List.nodup_cons.1 honce).1 hj
    · cases hj
    · cases hj
  refine ⟨fun j hj => ?_, fun i j hi hj => h.apart i j (hpend i hi).1 (hpend j hj).1, honce, hpast, h.rejected, htaken⟩
  obtain ⟨hj, hne⟩ := hpend j hj
  have hpath : cliPath (pid j) ≠ cliPath (pid k) := fun he => hne (h.apart j k hj hk he)
  dsimp only
  rw [update_of_ne hpath]
  exact h.held j hj

omit [DecidableEq K] in
theorem onAccept_inv (h : Inv pid s) {k : K} (hsvc : s.svc = .unlinked k) :
    Inv pid { s with svc := .idle, served := s.served ++ [k] } := by
  refine h.server rfl rfl ?_ (by simp [Svc.inHand, hsvc]) rfl (by simp [Svc.inHand, h.taken, hsvc])
  rintro j (hj | hj | hj | hj)
  · exact Or.inl hj
  · exact Or.inr (Or.inl hj)
  · cases hj
  · cases hj

theorem step_inv (h : Inv pid s) (hC : undisturbed pid s o) (hs : step pid s o = some s') : Inv pid s' := by
  cases o with
  | unlink k =>
    simp only [step] at hs
    split_ifs at hs with hk
    cases hs
    exact unlink_inv h hk hC
  | bind k =>
    simp only [step] at hs
    split_ifs at hs with hk
    split at hs
    · rename_i hfs
      cases hs
      exact bind_inv h hk hfs
    · cases hs
      exact client_inv h (by simp) (Or.inr (Or.inr rfl))
  | connect k =>
    simp only [step] at hs
    split_ifs at hs with hk
    cases hs
    exact connect_inv h hk
  | destroy k =>
    simp only [step] at hs
    split_ifs at hs
    cases hs
    exact client_inv h (by simp) (Or.inr (Or.inr rfl))
  | accept =>
    simp only [step] at hs
    split at hs
    · rename_i hsvc hb
      cases hs
      exact accept_inv h hsvc hb
    · cases hs
  | stat =>
    simp only [step] at hs
    split at hs
    · rename_i k hsvc
      rw [h.held k (Or.inr (Or.inr (Or.inl hsvc)))] at hs
      cases hs
      exact stat_inv h hsvc
    · cases hs
  | unlinkPeer =>
    simp only [step] at hs
    split at hs
    · rename_i k hsvc
      cases hs
      exact unlinkPeer_inv h hsvc
    · cases hs
  | onAccept =>
    simp only [step] at hs
    split at hs
    · rename_i k hsvc
      cases hs
      exact onAccept_inv h hsvc
    · cases hs

theorem run_inv {fs : List Char → Option File} {ops : List (Op K)}
    (hC : (server pid fs).Along (undisturbed pid) (server pid fs).init ops)
    (hr : (server pid fs).run (server pid fs).init ops = some s) : Inv pid s := by
  refine (server pid fs).along_inv (fun _ _ _ => step_inv) ?_ hC hr
  have hnone : ∀ k, ¬ Pending (server pid fs).init k := by simp [Pending, server]
  exact ⟨fun k hk => absurd hk (hnone k), fun j k hj => absurd hj (hnone j), by simp [server, Svc.inHand],
    by simp [server, Svc.inHand], rfl, rfl⟩

/-! ## Everybody is accepted -/

/-- an accept in progress is finished by the server's next steps -/
theorem finish_accept {fs : List Char → Option File} (h : Inv pid s) {k : K} (hk : k ∈ s.svc.inHand) :
    ∃ rest s', rest <:+ [.stat, .unlinkPeer, .onAccept] ∧ (server pid fs).run s rest = some s' ∧
      s'.served = s.served ++ [k] := by
  cases hsvc : s.svc with
  | idle => rw [hsvc] at hk; cases hk
  | accepted j =>
    obtain rfl : k = j := by rw [hsvc] at hk; exact List.mem_singleton.1 hk
    have hfs := h.held k (Or.inr (Or.inr (Or.inl hsvc)))
    exact ⟨[.stat, .unlinkPeer, .onAccept], _, List.suffix_rfl, by simp [Lts.run, server, step, hsvc, hfs]; rfl, rfl⟩
  | checked j =>
    obtain rfl : k = j := by rw [hsvc] at hk; exact List.mem_singleton.1 hk
    exact ⟨[.unlinkPeer, .onAccept], _, ⟨[.stat], rfl⟩, by simp [Lts.run, server, step, hsvc]; rfl, rfl⟩
  | unlinked j =>
    obtain rfl : k = j := by rw [hsvc] at hk; exact List.mem_singleton.1 hk
    exact ⟨[.onAccept], _, ⟨[.stat, .unlinkPeer], rfl⟩, by simp [Lts.run, server, step, hsvc]; rfl, rfl⟩

/-- **Everybody is accepted.** In every run in which no client constructor unlinks the path of a pending client: no
client is rejected; the accepts that have ended have ended in on_accept for their clients, in order; and an accept in
progress ends there with the server's next steps. -/
theorem handshake_accepts_all (pid : K → ℕ) (fs : List Char → Option File) (ops : List (Op K)) (s : St K)
    (hC : (server pid fs).Along (undisturbed pid) (server pid fs).init ops)
    (hr : (server pid fs).run (server pid fs).init ops = some s) :
    s.rejected = [] ∧ s.taken = s.served ++ s.svc.inHand ∧
      ∀ k ∈ s.svc.inHand, ∃ rest s', rest <:+ [.stat, .unlinkPeer, .onAccept] ∧
        (server pid fs).run s rest = some s' ∧ s'.served = s.served ++ [k] := by
  have h := run_inv hC hr
  exact ⟨h.rejected, h.taken, fun k hk => finish_accept h hk⟩

/-- two clients, of the processes 7 and 8 -/
def twoPids : List (Op (Fin 2)) :=
  [.unlink 0, .bind 0, .connect 0, .unlink 1, .bind 1, .connect 1, .accept, .stat, .unlinkPeer, .onAccept, .accept]

theorem two_pids_accepted :
    ∃ s, (server (fun k : Fin 2 => k.val + 7) fun _ => none).run (server (fun k : Fin 2 => k.val + 7) fun _ => none).init
        twoPids = some s ∧ s.served = [0] ∧ s.svc = .accepted 1 ∧ s.rejected = [] :=
  ⟨_, rfl, rfl, rfl, (handshake_accepts_all (fun k : Fin 2 => k.val + 7) (fun _ => none) twoPids _ (by decide) rfl).1⟩

/-- two clients of one process, both connected before the server looks -/
def samePid : List (Op (Fin 2)) :=
  [.unlink 0, .bind 0, .connect 0, .unlink 1, .bind 1, .connect 1, .accept, .stat, .unlinkPeer, .onAccept, .accept,
    .stat]

/-- **A live client is rejected.** -/
theorem same_pid_rejected :
    ¬ ∀ ops s, (server (fun _ : Fin 2 => 7) fun _ => none).run (server (fun _ => 7) fun _ => none).init ops = some s →
      ∀ k ∈ s.rejected, s.client k ≠ .connected := by
  intro h
  exact h samePid _ rfl 1 (.head _) rfl

end Hodgepodge.Ipc.Handshake
