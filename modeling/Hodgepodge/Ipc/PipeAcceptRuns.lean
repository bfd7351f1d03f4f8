/-
The server with a named pipe over whole runs.

Results:
- `deaf_iff`: which step makes the acceptor deaf.
- `accepts_in_order`: every client is accepted once, in the order in which they come.
- `accepts_all_iff`: the server accepts all clients exactly if none came and left before the first ConnectNamedPipe.
- `sound_iff`: nothing dangles exactly if only idle connections are deleted and `on_read` reads its byte.
- `on_close_suffices`: a connection is idle in its own `on_close`.
-/
import Hodgepodge.Ipc.PipeAcceptInv

namespace Hodgepodge.Ipc.PipeAccept

open Function Hodgepodge.Core

variable {C : Type*}

section Runs

variable {acceptor : C} {event : Bool} {s s' : St C} {h : Int32} {c : C} {i : Instance C} {service : Service C}
  {line : List (Packet C)} [DecidableEq C]

/-! ## All clients are accepted -/

/-- the client has come and left, and there is no packet of it -/
def Deaf (acceptor : C) (s : St C) : Prop :=
  ∃ h i k, s.table.find h = some acceptor ∧ s.instances h = some i ∧ i.peer = .gone k ∧
    (s.service.connects = true ∨ s.line h = [])

omit [DecidableEq C] in
theorem deaf_congr (hfind : ∀ h, s'.table.find h = some acceptor ↔ s.table.find h = some acceptor)
    (hsame : ∀ h, s.table.find h = some acceptor → s'.instances h = s.instances h ∧ s'.line h = s.line h)
    (hconnects : s'.service.connects = s.service.connects) : Deaf acceptor s' ↔ Deaf acceptor s := by
  have hiff : ∀ h i k, (s'.table.find h = some acceptor ∧ s'.instances h = some i ∧ i.peer = .gone k ∧
      (s'.service.connects = true ∨ s'.line h = [])) ↔ (s.table.find h = some acceptor ∧ s.instances h = some i ∧
      i.peer = .gone k ∧ (s.service.connects = true ∨ s.line h = [])) := by
    intro h i k
    rw [hfind, hconnects]
    refine and_congr_right fun hc => ?_
    rw [(hsame h hc).1, (hsame h hc).2]
  exact exists_congr fun h => exists_congr fun i => exists_congr fun k => hiff h i k

omit [DecidableEq C] in
/-- what happens to the handle of another connection -/
theorem deaf_other (hc : s.table.find h = some c) (hca : c ≠ acceptor)
    (hfind : ∀ f, f ≠ h → s'.table.find f = s.table.find f) (hgone : s'.table.find h ≠ some acceptor)
    (hinst : ∀ f, f ≠ h → s'.instances f = s.instances f) (hline : ∀ f, f ≠ h → s'.line f = s.line f)
    (hconnects : s'.service.connects = s.service.connects) : Deaf acceptor s' ↔ Deaf acceptor s := by
  have hne : ∀ f, s.table.find f = some acceptor → f ≠ h := by
    rintro f hf rfl
    exact hca (Option.some.inj (hc.symm.trans hf))
  refine deaf_congr (fun f => ?_) (fun f hf => ⟨hinst f (hne f hf), hline f (hne f hf)⟩) hconnects
  by_cases hfh : f = h
  · subst hfh
    exact iff_of_false hgone fun hf => hne f hf rfl
  · rw [hfind f hfh]

omit [DecidableEq C] in
theorem not_deaf_of_creates (hs : Inv acceptor event s) (hcr : s.service.creates = true) : ¬ Deaf acceptor s := by
  rintro ⟨h, -, -, hc, -⟩
  exact (hs.creates hcr).2 h hc

omit [DecidableEq C] in
theorem not_deaf_of_peer (hs : Inv acceptor event s) (hc : s.table.find h = some acceptor) (hi : s.instances h = some i)
    (hp : ∀ k, i.peer ≠ .gone k) : ¬ Deaf acceptor s := by
  rintro ⟨f, i', k, hf, hi', hk, -⟩
  obtain rfl := hs.find_inj hf hc
  rw [hi] at hi'
  cases hi'
  exact hp k hk

omit [DecidableEq C] in
/-- a client that is there has a packet -/
theorem Kept.ne_nil (hk : Kept acceptor false h service acceptor i line) {k : ℕ} (hp : i.peer = .here k)
    (hconnects : service.connects = false) : line ≠ [] := by
  cases hk with
  | listening => cases hp
  | served hne => exact absurd rfl hne
  | @arrived peer n _ _ hpos =>
    have hpeer : peer = .here k := hp
    rcases hpos hconnects with he | ⟨k', hk'⟩ | hpos
    · cases he
    · rw [hpeer] at hk'
      cases hk'
    · cases n with
      | zero => exact absurd hpos (Nat.lt_irrefl 0)
      | succ n => exact List.cons_ne_nil _ _

omit [DecidableEq C] in
theorem deaf_leave (hs : Inv acceptor false s) (hi : s.instances h = some i) {k : ℕ} (hp : i.peer = .here k) :
    Deaf acceptor (s.setInstance h { i with peer := .gone k }) ↔
      Deaf acceptor s ∨ s.oshd acceptor = some h ∧ s.service.connects = true := by
  obtain ⟨-, c, hc, hk⟩ := hs.kept h i hi
  by_cases hca : c = acceptor
  · subst hca
    have hnot : ¬ Deaf c s := not_deaf_of_peer hs hc hi fun k hk => by rw [hp] at hk; cases hk
    have hinst : (s.setInstance h { i with peer := .gone k }).instances h = some { i with peer := .gone k } :=
      update_self _ _ _
    rw [or_iff_right hnot, and_iff_right (hs.find h c hc).1]
    refine ⟨?_, fun hconnects => ⟨h, _, k, hc, hinst, rfl, Or.inl hconnects⟩⟩
    rintro ⟨f, -, -, hf, -, -, hdeaf⟩
    obtain rfl : f = h := hs.find_inj hf hc
    by_contra hconnects
    exact hdeaf.elim hconnects (hk.ne_nil hp (Bool.eq_false_iff.2 hconnects))
  · have hnot : ¬ (s.oshd acceptor = some h ∧ s.service.connects = true) := by
      rintro ⟨ho, hconnects⟩
      have hcr : s.service.creates = false := creates_of_connects hconnects
      exact hca (Option.some.inj (hc.symm.trans (hs.oshd acceptor h ho (Or.inr hcr))))
    rw [or_iff_left hnot]
    exact deaf_other hc hca (fun _ _ => rfl) (fun hf => hca (Option.some.inj (hc.symm.trans hf)))
      (fun f hf => update_of_ne hf _ _) (fun _ _ => rfl) rfl

omit [DecidableEq C] in
theorem deaf_connect (hs : Inv acceptor event s) (hw : Waited s.service service) :
    Deaf acceptor (waitForConnection acceptor s service) ↔ Deaf acceptor s := by
  obtain ⟨h, i, ho, hc, hi, hk⟩ := hs.of_acceptor hw.creates.1
  have hh := (hs.kept h i hi).1
  have hs' := inv_connect hs hw
  unfold waitForConnection at hs' ⊢
  simp only [ho, hi, if_neg hh] at hs' ⊢
  cases hp : i.peer with
  | nobody =>
    simp only [hp] at hs' ⊢
    exact iff_of_false (not_deaf_of_peer hs' hc (update_self _ _ _) fun _ => nofun)
      (not_deaf_of_peer hs hc hi fun k hk => by rw [hp] at hk; cases hk)
  | here k =>
    simp only [hp] at hs' ⊢
    exact iff_of_false (not_deaf_of_peer hs' hc hi fun k hk => by rw [hp] at hk; cases hk)
      (not_deaf_of_peer hs hc hi fun k hk => by rw [hp] at hk; cases hk)
  | gone k =>
    simp only
    have hnil : s.service.connects = true → s.line h = [] := by
      intro hconnects
      generalize s.line h = line at hk
      cases hk with
      | listening => cases hp
      | served hne => exact absurd rfl hne
      | arrived _ hz => rw [hz hconnects]; rfl
    constructor
    · rintro ⟨f, i', k', hf, hi', hk', hdeaf⟩
      refine ⟨f, i', k', hf, hi', hk', Or.inr (hdeaf.resolve_left ?_)⟩
      rw [hw.connects]
      nofun
    · rintro ⟨f, i', k', hf, hi', hk', hdeaf⟩
      obtain rfl := hs.find_inj hf hc
      exact ⟨f, i', k', hf, hi', hk', Or.inr (hdeaf.elim hnil id)⟩

theorem deaf_dispatch {pconn : C} {p : Packet C} {port : List (Packet C)} (hs : Inv acceptor false s)
    (hservice : s.service = .wait) (hp : s.port = p :: port)
    (hd : dispatch acceptor false { s with port := port } pconn p = some s') : Deaf acceptor s' ↔ Deaf acceptor s := by
  have hs' := inv_dispatch hs hservice hp hd
  obtain ⟨c, i, hc, hi, hd⟩ := dispatched hs hp hd
  have hothers : ∀ t : St C, t.port = port → ∀ f, f ≠ p.key → t.line f = s.line f :=
    fun t ht f hf => by rw [← line_pop_ne hp hf, ← ht]; rfl
  generalize (port.filter fun q => q.key = p.key) = line at hd
  cases hd with
  | skip he => cases he
  | accept he hpeer hfresh ht =>
    refine iff_of_false (not_deaf_of_creates hs' rfl) ?_
    rintro ⟨f, -, -, hf, -, -, hconnects | hnil⟩
    · rw [hservice] at hconnects
      cases hconnects
    · obtain rfl := hs.find_inj hf hc
      rw [line_pop hp] at hnil
      cases hnil
  | again hca hk ht =>
    exact deaf_other hc hca (fun f _ => ht f) (fun hf => hca (Option.some.inj (hc.symm.trans (ht _ ▸ hf))))
      (fun _ _ => rfl) (hothers _ rfl) rfl
  | run hca hpeer ht hw _ =>
    refine deaf_other hc hca (fun f _ => ht f) (fun hf => hca (Option.some.inj (hc.symm.trans (ht _ ▸ hf))))
      (fun _ _ => rfl) (hothers _ rfl) ?_
    rw [hservice]
    rcases hw with rfl | rfl <;> rfl

theorem deaf_iff {o : Op C} (hsafe : Safe acceptor false s) (hclean : Clean s o)
    (hstep : step acceptor false s o = some s') : Deaf acceptor s' ↔ Deaf acceptor s ∨ ¬ Stays acceptor s o := by
  have hs := hsafe.toInv
  have hs' := (step_safe hsafe hclean hstep).toInv
  cases step_eq hstep with
  | @«open» h i hi hp =>
    simp only [Stays, not_true_eq_false, or_false]
    obtain ⟨-, c, hc, hk⟩ := hs.kept h i hi
    have hca : c = acceptor := by
      generalize s.line h = line at hk
      cases hk with
      | listening => rfl
      | arrived hne | served _ hne => exact absurd hp hne
    exact iff_of_false (not_deaf_of_peer hs' (hca ▸ hc) (update_self _ _ _) fun _ => nofun)
      (not_deaf_of_peer hs (hca ▸ hc) hi fun k hk => by rw [hp] at hk; cases hk)
  | leave hi hp =>
    rw [Stays, not_not]
    exact deaf_leave hs hi hp
  | @read h i c result hi hr =>
    simp only [Stays, not_true_eq_false, or_false]
    obtain ⟨-, c', hc, hk⟩ := hs.kept h i hi
    have hca : c' ≠ acceptor := by
      generalize s.line h = line at hk
      cases hk with
      | listening | arrived => cases hr
      | served hca => exact hca
    exact deaf_other hc hca (fun _ _ => rfl) (fun hf => hca (Option.some.inj (hc.symm.trans hf)))
      (fun f hf => update_of_ne hf _ _) (line_append_ne rfl Instance.packets_key) rfl
  | @create pconn h hservice hi hh =>
    simp only [Stays, not_true_eq_false, or_false]
    have hc : (listen acceptor s pconn h).table.find h = some acceptor := (find_associate hh).trans (if_pos rfl)
    exact iff_of_false (not_deaf_of_peer hs' hc (update_self _ _ _) fun _ => nofun)
      (not_deaf_of_creates hs (by rw [hservice]; rfl))
  | connect hw =>
    simp only [Stays, not_true_eq_false, or_false]
    exact deaf_connect hs hw
  | notify hservice hp hd =>
    simp only [Stays, not_true_eq_false, or_false]
    exact deaf_dispatch hs hservice hp hd
  | @trigger failed c s' hservice ht =>
    simp only [Stays, not_true_eq_false, or_false]
    have hw : s.service.pconn = some c := by rw [hservice]; rfl
    obtain ⟨h, peer, n, ho, hc, hp, hi, -⟩ := hs.of_pconn hw (by rw [hservice]; nofun)
    have hca := (hs.thread c hw).1
    have hgone : s.table.find h ≠ some acceptor := fun hf => hca (Option.some.inj (hc.symm.trans hf))
    have hempty : s.cacheEmpty c = true := hsafe.cached.empty (by rw [ho]; nofun) (by rw [hservice]; nofun)
    unfold triggerAsyncCacheRead at ht
    simp only [ho, hi, hempty, Bool.true_eq_false, if_false] at ht
    cases failed with
    | false =>
      simp only [if_neg hp] at ht
      cases ht
      exact deaf_other hc hca (fun _ _ => rfl) hgone (fun f hf => update_of_ne hf _ _) (fun _ _ => rfl)
        (by rw [hservice]; rfl)
    | true =>
      cases peer with
      | nobody => exact absurd rfl hp
      | here k => cases ht
      | gone k =>
        cases ht
        exact deaf_other hc hca (fun _ _ => rfl) hgone (fun _ _ => rfl) (line_append_ne rfl (by simp))
          (by rw [hservice]; rfl)
  | @delete c h c' hservice hca ho =>
    simp only [Stays, not_true_eq_false, or_false]
    have hc := hs.oshd c h ho (Or.inl hca)
    obtain ⟨i, hi⟩ := Option.ne_none_iff_exists'.1 (hs.find h c hc).2
    have hh := (hs.kept h i hi).1
    have hfind : ∀ f, (deleteConnection s c h).table.find f = if f = h then none else s.table.find f :=
      fun f => find_unassociate hh
    refine deaf_other hc hca (fun f hf => (hfind f).trans (if_neg hf)) ?_ (fun f hf => update_of_ne hf _ _) ?_ rfl
    · rw [hfind, if_pos rfl]
      nofun
    · refine line_append_ne rfl ?_
      rw [hi]
      exact Instance.packets_key
  | takeByte =>
    simp only [Stays, not_true_eq_false, or_false]
    exact deaf_congr (fun _ => Iff.rfl) (fun _ _ => ⟨rfl, rfl⟩) rfl
  | backAccept hservice | backClose hservice =>
    simp only [Stays, not_true_eq_false, or_false]
    exact deaf_congr (fun _ => Iff.rfl) (fun _ _ => ⟨rfl, rfl⟩) (by rw [hservice]; rfl)
  | backRead hservice =>
    simp only [Stays, not_true_eq_false, or_false]
    refine deaf_congr (fun _ => Iff.rfl) (fun _ _ => ⟨rfl, rfl⟩) ?_
    rw [hservice]
    dsimp only
    split_ifs <;> rfl

/-! ## When connections may be deleted -/

/-- the connections that the table, the port, the kernel and the thread know of exist, and so do the handles; only their
own `on_close` goes on when they are deleted, and then nothing more is done with them. No assertion has failed. -/
structure Sound (s : St C) : Prop where
  table : ∀ h c, s.table.find h = some c → s.oshd c ≠ none
  port : ∀ p ∈ s.port, s.oshd p.owner ≠ none ∧ s.table.find p.key ≠ none
  pending : ∀ h i, s.instances h = some i → s.table.find h ≠ none ∧ (∀ c ∈ i.waiting, s.oshd c ≠ none) ∧
    ∀ c ∈ i.reading, s.oshd c ≠ none
  thread : ∀ c, s.service.pconn = some c → s.oshd c = none → s.service = .onClose c
  running : s.service ≠ .fault

omit [DecidableEq C] in
theorem Kept.owner (hk : Kept acceptor event h service c i line) : i.registered = true ∧
    (∀ p ∈ line, p.owner = acceptor ∨ p.owner = c) ∧ (∀ c' ∈ i.waiting, c' = acceptor) ∧ ∀ c' ∈ i.reading, c' = c := by
  have haccepts : ∀ n, ∀ p ∈ accepts acceptor h n, p.owner = acceptor :=
    fun n p hp => by rw [List.eq_of_mem_replicate hp]
  cases hk with
  | listening => exact ⟨rfl, nofun, fun c' hc' => List.eq_of_mem_replicate hc', nofun⟩
  | arrived => exact ⟨rfl, fun p hp => Or.inl (haccepts _ p hp), nofun, nofun⟩
  | served _ _ _ ht =>
    have htail : ∀ tail : List (Packet C), (∀ p ∈ tail, p.owner = c) →
        ∀ n, ∀ p ∈ accepts acceptor h n ++ tail, p.owner = acceptor ∨ p.owner = c :=
      fun tail htail n p hp => (List.mem_append.1 hp).imp (haccepts n p) (htail p)
    cases ht with
    | thread | finished => exact ⟨rfl, htail [] (by simp) _, nofun, nofun⟩
    | pending => exact ⟨rfl, htail [] (by simp) _, nofun, fun c' hc' => (Option.some.inj hc').symm⟩
    | packet => exact ⟨rfl, htail _ (by simp) _, nofun, nofun⟩

omit [DecidableEq C] in
theorem Inv.sound (hs : Inv acceptor event s) : Sound s where
  table h c hc := by
    rw [(hs.find h c hc).1]
    nofun
  port p hp := by
    obtain ⟨i, hi⟩ := Option.ne_none_iff_exists'.1 (hs.port p hp)
    obtain ⟨-, c, hc, hk⟩ := hs.kept _ i hi
    refine ⟨?_, by rw [hc]; nofun⟩
    have hline : p ∈ s.line p.key := List.mem_filter.2 ⟨hp, by simp⟩
    rcases hk.owner.2.1 p hline with heq | heq
    · exact heq ▸ hs.has
    · rw [heq, (hs.find _ c hc).1]
      nofun
  pending h i hi := by
    obtain ⟨-, c, hc, hk⟩ := hs.kept h i hi
    obtain ⟨-, -, hwaiting, hreading⟩ := hk.owner
    refine ⟨by rw [hc]; nofun, fun c' hc' => hwaiting c' hc' ▸ hs.has, fun c' hc' => ?_⟩
    rw [hreading c' hc', (hs.find h c hc).1]
    nofun
  thread c hw := (hs.thread c hw).2
  running := hs.running

/-- ConnectNamedPipe is pending for an instance that has no client -/
def Listening (acceptor : C) (s : St C) : Prop :=
  ∃ h i, s.oshd acceptor = some h ∧ s.instances h = some i ∧ i.peer = .nobody ∧ acceptor ∈ i.waiting

end Runs

variable [DecidableEq C]

/-- two clients come, the second one while the first is served; the first writes a byte and leaves -/
def twoClients : List (Op ℕ) :=
  [.createNamedPipe 5, .connectNamedPipe, .open 5, .notify 1, .createNamedPipe 6, .connectNamedPipe, .back,
    .connectNamedPipe, .triggerAsyncCacheRead false, .open 6, .notify 2, .createNamedPipe 7, .connectNamedPipe, .back,
    .connectNamedPipe, .triggerAsyncCacheRead false, .notify 3, .read 5 .ok, .notify 3, .takeByte 1, .back,
    .triggerAsyncCacheRead false, .leave 5, .read 5 .brokenPipe, .notify 3, .delete 1, .back]

/-- **When the server goes on accepting.** At rest it has accepted all clients and listens for the next one, exactly if
none of them came and left before the first ConnectNamedPipe. -/
theorem accepts_all_iff (acceptor : C) (ops : List (Op C)) (s : St C)
    (hr : (server acceptor false).run (init acceptor) ops = some s)
    (hclean : (server acceptor false).Along Clean (init acceptor) ops) (hwait : s.service = .wait)
    (hport : s.port = []) :
    s.accepted.length = s.clients ∧ Listening acceptor s ↔
      (server acceptor false).Along (Stays acceptor) (init acceptor) ops := by
  have hinit : ¬ Deaf acceptor (init acceptor) := not_deaf_of_creates (inv_init : Inv acceptor false _) rfl
  obtain ⟨⟨hs, -⟩, hdeaf⟩ := Lts.along_mark (B := Clean) (D := Deaf acceptor) (C := Stays acceptor) _
    (fun _ _ _ hs hc hstep => ⟨step_safe hs hc hstep, deaf_iff hs hc hstep⟩) safe_init hclean hr
  rw [or_iff_right hinit] at hdeaf
  rw [← not_iff_not, ← hdeaf]
  obtain ⟨h, i, ho, hc, hi, hk⟩ := hs.of_acceptor (by rw [hwait]; rfl)
  have hnum := hs.number h i hc hi
  have hnil : s.line h = [] := by rw [St.line, hport]; rfl
  have hconnects : s.service.connects = false := by rw [hwait]; rfl
  cases hp : i.peer with
  | nobody =>
    refine iff_of_false (not_not_intro ⟨?_, h, i, ho, hi, hp, ?_⟩)
      (not_deaf_of_peer hs hc hi fun k hk => by rw [hp] at hk; cases hk)
    · rw [hp] at hnum
      exact hnum.symm
    · generalize s.line h = line at hk
      cases hk with
      | @listening n hn =>
        refine List.mem_replicate.2 ⟨fun hz => ?_, rfl⟩
        cases hconnects.symm.trans (hn.2 hz)
      | arrived hne | served _ hne => exact absurd hp hne
  | here k => exact absurd hnil (hk.ne_nil hp hconnects)
  | gone k =>
    refine iff_of_true (fun hall => ?_) ⟨h, i, k, hc, hi, hp, Or.inr hnil⟩
    obtain ⟨-, h', i', ho', hi', hp', -⟩ := hall
    obtain rfl := Option.some.inj (ho.symm.trans ho')
    obtain rfl := Option.some.inj (hi.symm.trans hi')
    rw [hp] at hp'
    cases hp'

theorem accepts_all_iff_twoClients : ∃ s, (server 0 false).run (init 0) twoClients = some s ∧ s.clients = 2 ∧
    s.accepted.length = s.clients ∧ Listening 0 s :=
  ⟨_, rfl, rfl, (accepts_all_iff 0 twoClients _ rfl (by decide) rfl rfl).2 (by decide)⟩

/-- a connection is idle in its own `on_close` -/
theorem on_close_suffices (acceptor : C) (event : Bool) (ops : List (Op C)) (huser : (server acceptor event).Along
      (fun s o => (∀ c, o = .delete c → s.service = .onClose c) ∧ (o = .back → s.byteRead = true)) (init acceptor)
      ops) :
    (server acceptor event).Along Clean (init acceptor) ops := by
  have hidle : ∀ s o, Safe acceptor event s →
      (∀ c, o = .delete c → s.service = .onClose c) ∧ (o = .back → s.byteRead = true) → Clean s o := by
    rintro s o hsafe ⟨ho, hread⟩
    have hs := hsafe.toInv
    cases o with
    | delete c =>
      have hservice := ho c rfl
      refine ⟨by rw [hservice]; nofun, by rw [hservice]; nofun, fun h hc => ?_⟩
      have hw : s.service.pconn = some c := by rw [hservice]; rfl
      have hca := (hs.thread c hw).1
      have hf := hs.oshd c h hc (Or.inl hca)
      obtain ⟨i, hi⟩ := Option.ne_none_iff_exists'.1 (hs.find h c hf).2
      obtain ⟨-, c', hc', hk⟩ := hs.kept h i hi
      obtain rfl : c = c' := Option.some.inj (hf.symm.trans hc')
      obtain ⟨peer, n, -, rfl, hl, hz⟩ := hk.of_pconn hca hw
      rw [hz hservice] at hl
      refine ⟨fun p hp hkey => ?_, fun i' hi' => ?_⟩
      · have hmem : p ∈ s.line h := List.mem_filter.2 ⟨hp, by simpa using hkey⟩
        rw [hl] at hmem
        cases hmem
      · obtain rfl := Option.some.inj (hi.symm.trans hi')
        exact ⟨rfl, rfl⟩
    | back => exact hread rfl
    | _ => trivial
  exact Lts.Along.of_inv _ (fun s o _ hs hc hstep => step_safe hs (hidle s o hs hc) hstep) hidle safe_init huser

end Hodgepodge.Ipc.PipeAccept
