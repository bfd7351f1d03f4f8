/-
The invariant of the server with a named pipe. Every handle has one connection and every connection has one handle, and
the packets of the ConnectNamedPipe of an instance are in the port before its first read is: an instance is not waited
on any more when it is given away, and the read comes after that. The cache of a connection is empty but in its
`on_read`.

Results:
- `Kept`: what an instance, its connection, its packets and the thread have to do with each other.
- `Cached`: when a cache holds a byte.
- `step_safe`: every step keeps both, if only idle connections are deleted and `on_read` reads its byte.
-/
import Hodgepodge.Ipc.PipeAccept

namespace Hodgepodge.Ipc.PipeAccept

open Function Hodgepodge.Core

variable {C : Type*}

/-! ## The packets of a handle -/

def St.line (s : St C) (h : Int32) : List (Packet C) := s.port.filter fun p => p.key = h

theorem filter_key {l : List (Packet C)} {h h' : Int32} (hl : ∀ p ∈ l, p.key = h) :
    (l.filter fun p => p.key = h') = if h' = h then l else [] := by
  split_ifs with heq
  · exact List.filter_eq_self.2 fun p hp => by simp [hl p hp, heq]
  · exact List.filter_eq_nil_iff.2 fun p hp => by simp [hl p hp, Ne.symm heq]

theorem Instance.packets_key {i : Instance C} {h : Int32} {waiting reading : Result} :
    ∀ p ∈ i.packets h waiting reading, p.key = h := by
  intro p hp
  unfold Instance.packets at hp
  split_ifs at hp with hreg
  · rcases List.mem_append.1 hp with hp | hp
    · obtain ⟨c, -, rfl⟩ := List.mem_map.1 hp
      rfl
    · obtain ⟨c, -, rfl⟩ := List.mem_map.1 hp
      rfl
  · cases hp

theorem find_associate {t : Table C} {c : C} {h f : Int32} (hh : h ≠ invalidOsHandle) :
    (Handles.associate .windows t c h true).2.find f = if f = h then some c else t.find f := by
  have href := (Handles.step_refines (p := .windows) (m := t.find) (fun _ => rfl) (.associate c h true)).2 f
  have hmap : (Handles.mapStep .windows t.find (.associate c h true)).2 = update t.find h (some c) := by
    by_cases hf : (t.find h).isSome <;> simp [Handles.mapStep, hh, hf]
  rwa [hmap, update_apply] at href

theorem associate_registered {t : Table C} {c : C} {h : Int32} (hh : h ≠ invalidOsHandle) (hf : t.find h = none) :
    (Handles.associate .windows t c h true).1 = .registered h := by
  have href := (Handles.step_refines (p := .windows) (m := t.find) (fun _ => rfl) (.associate c h true)).1
  simpa [Handles.step, Handles.mapStep, hh, hf] using href

theorem find_unassociate {t : Table C} {h f : Int32} (hh : h ≠ invalidOsHandle) :
    (Handles.unassociate .windows t h).2.find f = if f = h then none else t.find f := by
  have href := (Handles.step_refines (p := .windows) (m := t.find) (fun _ => rfl) (.unassociate h)).2 f
  simp only [Handles.mapStep, if_neg hh] at href
  rwa [update_apply] at href

/-! ## The invariant -/

/-- the clients are numbered by those that were accepted before -/
def Peer.Number (clients accepted : ℕ) : Peer → Prop
  | .nobody => clients = accepted
  | .here k | .gone k => k = accepted ∧ clients = k + 1

/-- the read of a connection: the thread is about to issue it or has its packet, it is pending, its packet is in the
port, or there is no more -/
inductive Token (h : Int32) (c : C) (works : Prop) : Option C → List (Packet C) → Prop
  | thread (hw : works) : Token h c works none []
  | pending (hw : ¬ works) : Token h c works (some c) []
  | packet {member result} (hw : ¬ works) (hm : member ≠ .waitconn) (hr : result ≠ .other) :
      Token h c works none [⟨h, c, member, result⟩]
  | finished (hw : ¬ works) : Token h c works none []

/-- the thread has the same to do with `c` -/
def Same (c : C) (a b : Service C) : Prop := (b.pconn = some c ↔ a.pconn = some c) ∧ (b = .onClose c → a = .onClose c)

theorem same_refl (c : C) (a : Service C) : Same c a a := ⟨Iff.rfl, id⟩

theorem same_of_none {c c' : C} {a b : Service C} (ha : a.pconn = some c) (hb : b.pconn = none) (hne : c' ≠ c) :
    Same c' a b := by
  refine ⟨?_, fun heq => by rw [heq] at hb; cases hb⟩
  rw [ha, hb]
  exact ⟨nofun, fun heq => absurd (Option.some.inj heq).symm hne⟩

theorem same_of_some {c c' : C} {a b : Service C} (ha : a.pconn = none) (hb : b.pconn = some c) (hne : c' ≠ c) :
    Same c' a b := by
  refine ⟨?_, fun heq => ?_⟩
  · rw [ha, hb]
    exact ⟨fun heq => absurd (Option.some.inj heq).symm hne, nofun⟩
  · rw [heq] at hb
    exact absurd (Option.some.inj hb) hne

section Invariant

variable (acceptor : C) (event : Bool)

/-- the packets of ConnectNamedPipe -/
def accepts (h : Int32) (n : ℕ) : List (Packet C) := List.replicate n ⟨h, acceptor, .waitconn, .ok⟩

/-- an instance with its connection and its packets -/
inductive Kept (h : Int32) (service : Service C) : C → Instance C → List (Packet C) → Prop
  | listening {n} (hn : service.connects = true ↔ n = 0) :
      Kept h service acceptor ⟨.nobody, true, List.replicate n acceptor, none⟩ []
  | arrived {peer n} (hp : peer ≠ .nobody) (hn : service.connects = true → n = 0)
      (hk : service.connects = false → event = true ∨ (∃ k, peer = .gone k) ∨ 0 < n) :
      Kept h service acceptor ⟨peer, true, [], none⟩ (accepts acceptor h n)
  | served {c peer n reading tail} (hc : c ≠ acceptor) (hp : peer ≠ .nobody) (hn : service = .onClose c → n = 0)
      (ht : Token h c (service.pconn = some c) reading tail) :
      Kept h service c ⟨peer, true, [], reading⟩ (accepts acceptor h n ++ tail)

/-- the first packet of a handle: a client of the acceptor, one that has been accepted already, or a read -/
inductive First (h : Int32) (service : Service C) : C → Instance C → Packet C → List (Packet C) → Prop
  | client {peer n} (hp : peer ≠ .nobody) :
      First h service acceptor ⟨peer, true, [], none⟩ ⟨h, acceptor, .waitconn, .ok⟩ (accepts acceptor h n)
  | again {c i line} (hc : c ≠ acceptor) (hk : Kept acceptor event h service c i line) :
      First h service c i ⟨h, acceptor, .waitconn, .ok⟩ line
  | read {c peer member result} (hc : c ≠ acceptor) (hp : peer ≠ .nobody) (hm : member ≠ .waitconn)
      (hr : result ≠ .other) : First h service c ⟨peer, true, [], none⟩ ⟨h, c, member, result⟩ []

structure Inv (s : St C) : Prop where
  find : ∀ h c, s.table.find h = some c → s.oshd c = some h ∧ s.instances h ≠ none
  oshd : ∀ c h, s.oshd c = some h → c ≠ acceptor ∨ s.service.creates = false → s.table.find h = some c
  /-- the acceptor has given its handle away -/
  creates : s.service.creates = true → s.clients = s.accepted.length ∧ ∀ h, s.table.find h ≠ some acceptor
  has : s.oshd acceptor ≠ none
  kept : ∀ h i, s.instances h = some i →
    h ≠ invalidOsHandle ∧ ∃ c, s.table.find h = some c ∧ Kept acceptor event h s.service c i (s.line h)
  port : ∀ p ∈ s.port, s.instances p.key ≠ none
  thread : ∀ c, s.service.pconn = some c → c ≠ acceptor ∧ (s.oshd c = none → s.service = .onClose c)
  running : s.service ≠ .fault
  accepted : s.accepted = (List.range s.accepted.length).map some
  number : ∀ h i, s.table.find h = some acceptor → s.instances h = some i →
    i.peer.Number s.clients s.accepted.length

/-- only the connection whose `on_read` runs has a byte, and this is new data -/
def Cached (s : St C) : Prop :=
  ∀ c, s.oshd c ≠ none → s.cacheEmpty c = false → s.service = .onRead c ∧ s.newDataArrived = true

variable {acceptor event} {s s' : St C} {h : Int32} {c : C} {i i' : Instance C} {service : Service C}
  {line : List (Packet C)}

theorem Inv.find_inj (hs : Inv acceptor event s) {h' : Int32} (hc : s.table.find h = some c)
    (hc' : s.table.find h' = some c) : h = h' :=
  Option.some.inj ((hs.find h c hc).1.symm.trans (hs.find h' c hc').1)

theorem Kept.mono (hk : Kept acceptor event h service c i line) {service' : Service C}
    (hw : Same c service service') (hn : service'.connects = service.connects ∨ c ≠ acceptor) :
    Kept acceptor event h service' c i line := by
  cases hk with
  | listening hz => exact .listening (hn.elim (fun hn => hn ▸ hz) fun hne => absurd rfl hne)
  | arrived hp hz hpos =>
    have hn : service'.connects = service.connects := hn.resolve_right fun hne => hne rfl
    exact .arrived hp (hn ▸ hz) (hn ▸ hpos)
  | served hc hp hz ht => exact .served hc hp (fun heq => hz (hw.2 heq)) (by rwa [propext hw.1])

/-- a step for one handle, which keeps its connection -/
theorem Inv.move (hs : Inv acceptor event s) (hc : s.table.find h = some c)
    (htable : ∀ f, s'.table.find f = s.table.find f) (hoshd : s'.oshd = s.oshd) (haccepted : s'.accepted = s.accepted)
    (hinst : s'.instances = update s.instances h (some i')) (hline : ∀ f, f ≠ h → s'.line f = s.line f)
    (hport : ∀ p ∈ s'.port, p ∈ s.port ∨ p.key = h)
    (hworks : ∀ c', c' ≠ c → Same c' s.service s'.service)
    (hcreates : s'.service.creates = s.service.creates)
    (hconnects : s'.service.connects = s.service.connects ∨ c = acceptor)
    (hthread : ∀ c', s'.service.pconn = some c' → c' ≠ acceptor ∧ (s.oshd c' = none → s'.service = .onClose c'))
    (hrunning : s'.service ≠ .fault) (hkept : Kept acceptor event h s'.service c i' (s'.line h))
    (hnumber : c = acceptor → i'.peer.Number s'.clients s.accepted.length)
    (hclients : c ≠ acceptor → s'.clients = s.clients) : Inv acceptor event s' where
  find f c' hf := by
    rw [htable] at hf
    obtain ⟨ho, hi⟩ := hs.find f c' hf
    refine ⟨hoshd ▸ ho, ?_⟩
    rw [hinst, update_apply]
    split_ifs
    · nofun
    · exact hi
  oshd c' f ho hne := by
    rw [htable]
    exact hs.oshd c' f (hoshd ▸ ho) (hcreates ▸ hne)
  creates hcr := by
    rw [hcreates] at hcr
    obtain ⟨hcl, hf⟩ := hs.creates hcr
    refine ⟨?_, fun f => htable f ▸ hf f⟩
    rw [haccepted, hclients fun heq => hf h (heq ▸ hc), hcl]
  has := hoshd ▸ hs.has
  kept f i hi := by
    rw [htable]
    by_cases hfh : f = h
    · subst hfh
      rw [hinst, update_self] at hi
      cases hi
      refine ⟨?_, c, hc, hkept⟩
      obtain ⟨i, hi⟩ := Option.ne_none_iff_exists'.1 (hs.find f c hc).2
      exact (hs.kept f i hi).1
    · rw [hinst, update_of_ne hfh] at hi
      obtain ⟨hne, c', hc', hk⟩ := hs.kept f i hi
      have hcc : c' ≠ c := fun heq => hfh (hs.find_inj (heq ▸ hc') hc)
      rw [hline f hfh]
      refine ⟨hne, c', hc', hk.mono (hworks c' hcc) (hconnects.imp_right ?_)⟩
      rintro rfl
      exact hcc
  port p hp := by
    rw [hinst, update_apply]
    split_ifs with hkey
    · nofun
    · exact hs.port p ((hport p hp).resolve_right hkey)
  thread := by rwa [hoshd]
  running := hrunning
  accepted := by rw [haccepted, ← hs.accepted]
  number f i hf hi := by
    rw [htable] at hf
    rw [haccepted]
    by_cases hca : c = acceptor
    · obtain rfl : f = h := hs.find_inj hf (hca ▸ hc)
      rw [hinst, update_self] at hi
      cases hi
      exact hnumber hca
    · have hfh : f ≠ h := fun heq => hca (Option.some.inj (hc.symm.trans (heq ▸ hf)))
      rw [hinst, update_of_ne hfh] at hi
      rw [hclients hca]
      exact hs.number f i hf hi

theorem line_append {packets : List (Packet C)} (hport : s'.port = s.port ++ packets)
    (hkey : ∀ p ∈ packets, p.key = h) (f : Int32) : s'.line f = s.line f ++ if f = h then packets else [] := by
  rw [St.line, hport, List.filter_append, filter_key hkey, St.line]

theorem line_append_ne {packets : List (Packet C)} (hport : s'.port = s.port ++ packets)
    (hkey : ∀ p ∈ packets, p.key = h) (f : Int32) (hf : f ≠ h) : s'.line f = s.line f := by
  rw [line_append hport hkey, if_neg hf, List.append_nil]

theorem mem_append {packets : List (Packet C)} (hport : s'.port = s.port ++ packets) (hkey : ∀ p ∈ packets, p.key = h) :
    ∀ p ∈ s'.port, p ∈ s.port ∨ p.key = h := by
  intro p hp
  rw [hport] at hp
  exact (List.mem_append.1 hp).imp_right (hkey p)

/-! ## The clients -/

theorem inv_open (hs : Inv acceptor event s) (hi : s.instances h = some i) (hp : i.peer = .nobody) :
    Inv acceptor event (openPipe s h i) := by
  obtain ⟨-, c, hc, hk⟩ := hs.kept h i hi
  have hnum := hs.number h i
  generalize hl : s.line h = line at hk
  cases hk with
  | arrived hne | served _ hne => exact absurd hp hne
  | @listening n hn =>
    have hport : (openPipe s h ⟨.nobody, true, List.replicate n acceptor, none⟩).port =
        s.port ++ accepts acceptor h n := by
      simp [openPipe, Instance.packets, accepts]
    have hkey : ∀ p ∈ accepts acceptor h n, p.key = h := fun p hp => by rw [List.eq_of_mem_replicate hp]
    refine hs.move hc (fun _ => rfl) rfl rfl rfl (line_append_ne hport hkey) (mem_append hport hkey)
      (fun _ _ => same_refl _ _) rfl (Or.inl rfl) hs.thread hs.running ?_ (fun _ => ⟨hnum hc hi, rfl⟩)
      (fun hne => absurd rfl hne)
    rw [line_append hport hkey, hl, if_pos rfl]
    refine .arrived nofun hn.1 fun hfalse => Or.inr (Or.inr (Nat.pos_of_ne_zero fun hz => ?_))
    cases hfalse.symm.trans (hn.2 hz)

theorem inv_leave (hs : Inv acceptor event s) (hi : s.instances h = some i) {k : ℕ} (hp : i.peer = .here k) :
    Inv acceptor event (s.setInstance h { i with peer := .gone k }) := by
  obtain ⟨-, c, hc, hk⟩ := hs.kept h i hi
  refine hs.move hc (fun _ => rfl) rfl rfl rfl (fun _ _ => rfl) (fun _ => Or.inl) (fun _ _ => same_refl _ _) rfl
    (Or.inl rfl) hs.thread hs.running ?_ (fun heq => ?_) (fun _ => rfl)
  · change Kept acceptor event h s.service c _ (s.line h)
    generalize s.line h = line at hk ⊢
    cases hk with
    | listening => cases hp
    | arrived hne hn => exact .arrived nofun hn fun _ => Or.inr (Or.inl ⟨k, rfl⟩)
    | served hca hne hz ht => exact .served hca nofun hz ht
  · have hnum := hs.number h i (heq ▸ hc) hi
    rw [hp] at hnum
    exact hnum

theorem inv_read (hs : Inv acceptor event s) (hi : s.instances h = some i) (hr : i.reading = some c) {result : Result}
    (hres : result ≠ .other) : Inv acceptor event (completeRead s h result i) := by
  obtain ⟨-, c', hc, hk⟩ := hs.kept h i hi
  generalize hl : s.line h = line at hk
  cases hk with
  | listening | arrived => cases hr
  | @served _ peer n _ tail hca hne hz ht =>
    cases hr
    cases ht with
    | pending hw =>
      have hport : (completeRead s h result ⟨peer, true, [], some c⟩).port = s.port ++ [⟨h, c, .cache, result⟩] := by
        simp [completeRead, Instance.packets]
      have hkey : ∀ p ∈ [(⟨h, c, .cache, result⟩ : Packet C)], p.key = h := by simp
      refine hs.move hc (fun _ => rfl) rfl rfl rfl (line_append_ne hport hkey) (mem_append hport hkey)
        (fun _ _ => same_refl _ _) rfl (Or.inl rfl) hs.thread hs.running ?_ (fun heq => absurd heq hca) (fun _ => rfl)
      rw [line_append hport hkey, hl, if_pos rfl, List.append_nil]
      exact .served hca hne hz (.packet hw nofun hres)

/-! ## The thread of the service -/

/-- the acceptor has an instance, unless it has given it away -/
theorem Inv.of_acceptor (hs : Inv acceptor event s) (hc : s.service.creates = false) :
    ∃ h i, s.oshd acceptor = some h ∧ s.table.find h = some acceptor ∧ s.instances h = some i ∧
      Kept acceptor event h s.service acceptor i (s.line h) := by
  obtain ⟨h, ho⟩ := Option.ne_none_iff_exists'.1 hs.has
  have hf := hs.oshd acceptor h ho (Or.inr hc)
  obtain ⟨i, hi⟩ := Option.ne_none_iff_exists'.1 (hs.find h acceptor hf).2
  obtain ⟨-, c, hc, hk⟩ := hs.kept h i hi
  rw [hf] at hc
  cases hc
  exact ⟨h, i, ho, hf, hi, hk⟩

/-- the instance of the connection that the thread works for -/
theorem Kept.of_pconn (hk : Kept acceptor event h service c i line) (hca : c ≠ acceptor)
    (hw : service.pconn = some c) :
    ∃ peer n, peer ≠ .nobody ∧ i = ⟨peer, true, [], none⟩ ∧ line = accepts acceptor h n ∧
      (service = .onClose c → n = 0) := by
  cases hk with
  | listening | arrived => exact absurd rfl hca
  | @served _ peer n _ _ _ hp hz ht =>
    cases ht with
    | thread => exact ⟨peer, n, hp, rfl, List.append_nil _, hz⟩
    | pending hne | packet hne | finished hne => exact absurd hw hne

/-- the connection that the thread works for has an instance unless it was deleted in `on_close` -/
theorem Inv.of_pconn (hs : Inv acceptor event s) (hw : s.service.pconn = some c) (hne : s.service ≠ .onClose c) :
    ∃ h peer n, s.oshd c = some h ∧ s.table.find h = some c ∧ peer ≠ .nobody ∧
      s.instances h = some ⟨peer, true, [], none⟩ ∧ s.line h = accepts acceptor h n := by
  obtain ⟨hca, halive⟩ := hs.thread c hw
  obtain ⟨h, ho⟩ := Option.ne_none_iff_exists'.1 fun ho => hne (halive ho)
  have hc := hs.oshd c h ho (Or.inl hca)
  obtain ⟨i, hi⟩ := Option.ne_none_iff_exists'.1 (hs.find h c hc).2
  obtain ⟨-, c', hc', hk⟩ := hs.kept h i hi
  rw [hc] at hc'
  cases hc'
  obtain ⟨peer, n, hp, rfl, hl, -⟩ := hk.of_pconn hca hw
  exact ⟨h, peer, n, ho, hc, hp, hi, hl⟩

/-- the thread goes on; a connection that it works for no longer has no read -/
theorem inv_service (hs : Inv acceptor event s) (hcreates : service.creates = s.service.creates)
    (hconnects : service.connects = s.service.connects)
    (hworks : (∀ c', Same c' s.service service) ∨ s.service.pconn = some c ∧ service.pconn = none)
    (hthread : ∀ c', service.pconn = some c' → c' ≠ acceptor ∧ (s.oshd c' = none → service = .onClose c'))
    (hrunning : service ≠ .fault) : Inv acceptor event { s with service := service } where
  find := hs.find
  oshd c' h ho hne := hs.oshd c' h ho (hcreates ▸ hne)
  creates hcr := hs.creates (hcreates ▸ hcr)
  has := hs.has
  kept h i hi := by
    obtain ⟨hne, c', hc', hk⟩ := hs.kept h i hi
    refine ⟨hne, c', hc', ?_⟩
    rcases hworks with hsame | ⟨hw, hnone⟩
    · exact hk.mono (hsame c') (Or.inl hconnects)
    by_cases hcc : c' = c
    · subst hcc
      obtain ⟨peer, n, hp, rfl, hl, -⟩ := hk.of_pconn (hs.thread c' hw).1 hw
      change Kept acceptor event h service c' _ (s.line h)
      rw [hl, ← List.append_nil (accepts acceptor h n)]
      exact .served (hs.thread c' hw).1 hp (fun heq => by rw [heq] at hnone; cases hnone) (.finished (by rw [hnone]; nofun))
    · exact hk.mono (same_of_none hw hnone hcc) (Or.inl hconnects)
  port := hs.port
  thread := hthread
  running := hrunning
  accepted := hs.accepted
  number := hs.number

theorem inv_connect (hs : Inv acceptor event s) (hw : Waited s.service service) :
    Inv acceptor event (waitForConnection acceptor s service) := by
  have hpconn : service.pconn = s.service.pconn := hw.pconn
  have hcreates := hw.creates
  have hthread : ∀ c, service.pconn = some c → c ≠ acceptor ∧ (s.oshd c = none → service = .onClose c) :=
    fun c hc => (hs.thread c (hpconn ▸ hc)).imp_right fun hnone ho => absurd (hnone ho) (hw.ne.1 c).1
  have hrunning := hw.ne.2
  have hworks : ∀ c', c' ≠ acceptor → Same c' s.service service :=
    fun c' _ => ⟨by rw [hpconn], fun heq => absurd heq (hw.ne.1 c').2⟩
  obtain ⟨h, i, ho, hc, hi, hk⟩ := hs.of_acceptor hcreates.1
  have hnum := hs.number h i hc hi
  have hh := (hs.kept h i hi).1
  unfold waitForConnection
  simp only [ho, hi, if_neg hh]
  generalize hl : s.line h = line at hk
  cases hk with
  | served hne => exact absurd rfl hne
  | @listening n =>
    refine hs.move hc (fun _ => rfl) rfl rfl rfl (fun _ _ => rfl) (fun _ => Or.inl) hworks
      (hcreates.2.trans hcreates.1.symm) (Or.inr rfl) hthread hrunning ?_ (fun _ => hnum) (fun hne => absurd rfl hne)
    change Kept acceptor event h service acceptor _ (s.line h)
    rw [hl, ← List.replicate_succ']
    exact .listening (iff_of_false (by rw [hw.connects]; nofun) n.succ_ne_zero)
  | @arrived peer n hp =>
    cases peer with
    | nobody => exact absurd rfl hp
    | here k =>
      have hkey : ∀ p ∈ [(⟨h, acceptor, .waitconn, .ok⟩ : Packet C)], p.key = h := by simp
      refine hs.move hc (fun _ => rfl) rfl rfl ((update_eq_self_iff.2 hi.symm).symm) (line_append_ne rfl hkey)
        (mem_append rfl hkey) hworks (hcreates.2.trans hcreates.1.symm) (Or.inr rfl) hthread hrunning ?_ (fun _ => hnum)
        (fun hne => absurd rfl hne)
      rw [line_append rfl hkey, hl, if_pos rfl, accepts, ← List.replicate_succ']
      exact .arrived nofun (by rw [hw.connects]; nofun) fun _ => Or.inr (Or.inr n.succ_pos)
    | gone k =>
      refine hs.move hc (fun _ => rfl) rfl rfl ((update_eq_self_iff.2 hi.symm).symm) (fun _ _ => rfl)
        (fun _ => Or.inl) hworks (hcreates.2.trans hcreates.1.symm) (Or.inr rfl) hthread hrunning ?_ (fun _ => hnum)
        (fun hne => absurd rfl hne)
      change Kept acceptor event h service acceptor _ (s.line h)
      rw [hl]
      exact .arrived nofun (by rw [hw.connects]; nofun) fun _ => Or.inr (Or.inl ⟨k, rfl⟩)

theorem Cached.empty (hs : Cached s) (ho : s.oshd c ≠ none) (hservice : s.service ≠ .onRead c) :
    s.cacheEmpty c = true := by
  by_contra hfull
  exact hservice (hs c ho (Bool.eq_false_of_not_eq_true hfull)).1

theorem inv_trigger (hs : Inv acceptor event s) (hcached : Cached s) {failed : Bool} (hservice : s.service = .trigger c)
    (ht : triggerAsyncCacheRead s failed c = some s') : Inv acceptor event s' := by
  have hw : s.service.pconn = some c := by rw [hservice]; rfl
  obtain ⟨h, peer, n, ho, hc, hp, hi, hl⟩ := hs.of_pconn hw (by rw [hservice]; nofun)
  have hca := (hs.thread c hw).1
  have hcreates : (Service.wait : Service C).creates = s.service.creates := by rw [hservice]; rfl
  have hconnects : (Service.wait : Service C).connects = s.service.connects := by rw [hservice]; rfl
  have hkey : ∀ p ∈ [(⟨h, c, .error, .brokenPipe⟩ : Packet C)], p.key = h := by simp
  have hempty : s.cacheEmpty c = true := hcached.empty (by rw [ho]; nofun) (by rw [hservice]; nofun)
  unfold triggerAsyncCacheRead at ht
  simp only [ho, hi, hempty, Bool.true_eq_false, if_false] at ht
  cases failed with
  | false =>
    simp only [if_neg hp] at ht
    cases ht
    refine hs.move hc (fun _ => rfl) rfl rfl rfl (fun _ _ => rfl) (fun _ => Or.inl) (fun _ => same_of_none hw rfl)
      hcreates (Or.inl hconnects) nofun nofun ?_ (fun heq => absurd heq hca) (fun _ => rfl)
    change Kept acceptor event h .wait c _ (s.line h)
    rw [hl, ← List.append_nil (accepts acceptor h n)]
    exact .served hca hp nofun (.pending nofun)
  | true =>
    cases peer with
    | nobody => exact absurd rfl hp
    | here k => cases ht
    | gone k =>
      cases ht
      refine hs.move hc (fun _ => rfl) rfl rfl (update_eq_self_iff.2 hi.symm).symm (line_append_ne rfl hkey)
        (mem_append rfl hkey) (fun _ => same_of_none hw rfl) hcreates (Or.inl hconnects) nofun nofun ?_
        (fun heq => absurd heq hca) (fun _ => rfl)
      rw [line_append rfl hkey, hl, if_pos rfl]
      exact .served hca hp nofun (.packet nofun nofun nofun)

theorem inv_backRead (hs : Inv acceptor event s) (hservice : s.service = .onRead c) (hread : s.byteRead = true) :
    Inv acceptor event
      { s with service := if s.oshd c = none ∨ s.byteLeft c = true then .fault else .trigger c } := by
  obtain ⟨hca, halive⟩ := hs.thread c (by rw [hservice]; rfl)
  have ho : s.oshd c ≠ none := by
    intro ho
    rw [hservice] at halive
    cases halive ho
  have hleft : s.byteLeft c = false := by simpa [St.byteRead, hservice] using hread
  rw [if_neg (not_or.2 ⟨ho, by rw [hleft]; nofun⟩)]
  refine inv_service (c := c) hs (by rw [hservice]; rfl) (by rw [hservice]; rfl)
    (Or.inl fun _ => ⟨by rw [hservice]; rfl, nofun⟩) ?_ nofun
  intro c' hc'
  cases hc'
  exact ⟨hca, fun hnone => absurd hnone ho⟩

theorem inv_backAccept (hs : Inv acceptor event s) (hservice : s.service = .onAccept c) :
    Inv acceptor event { s with service := .connectAgain c } := by
  obtain ⟨hca, halive⟩ := hs.thread c (by rw [hservice]; rfl)
  refine inv_service (c := c) hs (by rw [hservice]; rfl) (by rw [hservice]; rfl)
    (Or.inl fun _ => ⟨by rw [hservice]; rfl, nofun⟩) ?_ nofun
  intro c' hc'
  cases hc'
  refine ⟨hca, fun hnone => ?_⟩
  rw [hservice] at halive
  cases halive hnone

theorem inv_backClose (hs : Inv acceptor event s) (hservice : s.service = .onClose c) :
    Inv acceptor event { s with service := .wait } :=
  inv_service hs (by rw [hservice]; rfl) (by rw [hservice]; rfl) (Or.inr ⟨by rw [hservice]; rfl, rfl⟩) nofun nofun

variable [DecidableEq C]

theorem inv_listen (hs : Inv acceptor event s) {pconn : Option C} (hservice : s.service = .create pconn)
    (hi : s.instances h = none) (hh : h ≠ invalidOsHandle) : Inv acceptor event (listen acceptor s pconn h) := by
  obtain ⟨hclients, hgiven⟩ := hs.creates (by rw [hservice]; rfl)
  have hnone : s.table.find h = none := by
    cases hf : s.table.find h with
    | none => rfl
    | some c => exact absurd hi (hs.find h c hf).2
  have hfind : ∀ f, (listen acceptor s pconn h).table.find f = if f = h then some acceptor else s.table.find f :=
    fun f => find_associate hh
  have hinst : (listen acceptor s pconn h).instances = update s.instances h (some ⟨.nobody, true, [], none⟩) := by
    simp [listen, St.setInstance, associate_registered hh hnone]
  have hline : s.line h = [] :=
    List.filter_eq_nil_iff.2 fun p hp hkey => hs.port p hp (by simpa [of_decide_eq_true hkey])
  constructor
  case find =>
    intro f c hf
    rw [hfind] at hf
    rw [hinst, update_apply]
    split_ifs at hf ⊢ with hfh
    · cases hf
      exact ⟨by simp [listen, hfh], nofun⟩
    · obtain ⟨ho, hi⟩ := hs.find f c hf
      have hca : c ≠ acceptor := fun heq => hgiven f (heq ▸ hf)
      exact ⟨(update_of_ne hca _ _).trans ho, hi⟩
  case oshd =>
    intro c f ho _
    have ho' : update s.oshd acceptor (some h) c = some f := ho
    rw [update_apply] at ho'
    rw [hfind]
    split_ifs at ho' with hca
    · cases ho'
      rw [if_pos rfl, hca]
    · have hf := hs.oshd c f ho' (Or.inl hca)
      rwa [if_neg (fun heq => by rw [heq, hnone] at hf; cases hf)]
  case creates => exact fun h => nomatch h
  case has => simp [listen]
  case kept =>
    intro f i hi
    rw [hinst] at hi
    rw [hfind]
    by_cases hfh : f = h
    · subst hfh
      rw [update_self] at hi
      cases hi
      refine ⟨hh, acceptor, if_pos rfl, ?_⟩
      change Kept acceptor event f _ acceptor _ (s.line f)
      rw [hline]
      exact .listening (n := 0) (iff_of_true rfl rfl)
    · rw [update_of_ne hfh] at hi
      obtain ⟨hne, c, hc, hk⟩ := hs.kept f i hi
      rw [if_neg hfh]
      refine ⟨hne, c, hc, hk.mono ?_ (Or.inr fun heq => hgiven f (heq ▸ hc))⟩
      rw [hservice]
      exact ⟨Iff.rfl, nofun⟩
  case port =>
    intro p hp
    rw [hinst, update_apply]
    split_ifs
    · nofun
    · exact hs.port p hp
  case thread =>
    intro c hc
    have hthread := hs.thread c (by rw [hservice]; exact hc)
    refine ⟨hthread.1, fun ho => ?_⟩
    have ho' : s.oshd c = none := (update_of_ne hthread.1 _ _).symm.trans ho
    rw [hservice] at hthread
    cases hthread.2 ho'
  case running => nofun
  case accepted => exact hs.accepted
  case number =>
    intro f i hf hi
    rw [hfind] at hf
    have hfh : f = h := by
      by_contra hfh
      rw [if_neg hfh] at hf
      exact hgiven f hf
    subst hfh
    rw [hinst, update_self] at hi
    cases hi
    exact hclients

/-! ## Dispatching -/

omit [DecidableEq C] in
theorem line_pop {p : Packet C} {port : List (Packet C)} (hp : s.port = p :: port) :
    s.line p.key = p :: port.filter fun q => q.key = p.key := by
  rw [St.line, hp, List.filter_cons, if_pos (by simp)]

omit [DecidableEq C] in
theorem line_pop_ne {p : Packet C} {port : List (Packet C)} (hp : s.port = p :: port) {f : Int32} (hf : f ≠ p.key) :
    (port.filter fun q => q.key = f) = s.line f := by
  rw [St.line, hp, List.filter_cons, if_neg (by simpa using hf.symm)]

omit [DecidableEq C] in
theorem Kept.first {p : Packet C} (hk : Kept acceptor event h service c i (p :: line)) :
    First acceptor event h service c i p line := by
  generalize hl : p :: line = l at hk
  cases hk with
  | listening => cases hl
  | @arrived peer n hp =>
    cases n with
    | zero => cases hl
    | succ n =>
      rw [accepts, List.replicate_succ] at hl
      cases hl
      exact .client hp
  | @served _ peer n reading tail hc hp hz ht =>
    cases n with
    | zero =>
      cases ht with
      | thread | pending | finished => cases hl
      | packet hw hm hr =>
        cases hl
        exact .read hc hp hm hr
    | succ n =>
      rw [accepts, List.replicate_succ] at hl
      cases hl
      exact .again hc (.served hc hp (fun heq => absurd (hz heq) n.succ_ne_zero) ht)

theorem inv_newConnection {p : Packet C} {port : List (Packet C)} {table : Table C} {pconn : C} {peer : Peer} {n : ℕ}
    (hs : Inv acceptor event s) (hservice : s.service = .wait) (hp : s.port = p :: port) (hkey : p.key = h)
    (hc : s.table.find h = some acceptor) (hi : s.instances h = some ⟨peer, true, [], none⟩) (hpeer : peer ≠ .nobody)
    (hrest : (port.filter fun q => q.key = h) = accepts acceptor h n) (hfresh : s.oshd pconn = none)
    (htable : ∀ f, table.find f = s.table.find f) :
    Inv acceptor event (newConnection { s with port := port, table := table } pconn h) := by
  have hh := (hs.kept h _ hi).1
  have hne : pconn ≠ acceptor := fun heq => hs.has (heq ▸ hfresh)
  have hfind : ∀ f, (newConnection { s with port := port, table := table } pconn h).table.find f =
      if f = h then some pconn else s.table.find f := fun f => htable f ▸ find_associate hh
  have hgiven : ∀ f, f ≠ h → s.table.find f ≠ some acceptor := fun f hf heq => hf (hs.find_inj heq hc)
  obtain ⟨hk, hclients⟩ : peer.client = some s.accepted.length ∧ s.clients = s.accepted.length + 1 := by
    have hnum := hs.number h _ hc hi
    cases peer with
    | nobody => exact absurd rfl hpeer
    | here k | gone k =>
      obtain ⟨hk, hclients⟩ : k = s.accepted.length ∧ s.clients = k + 1 := hnum
      exact ⟨congrArg some hk, hk ▸ hclients⟩
  have haccepted : (newConnection { s with port := port, table := table } pconn h).accepted =
      s.accepted ++ [some s.accepted.length] := by
    simp [newConnection, hi, hk]
  constructor
  case find =>
    intro f c hf
    rw [hfind] at hf
    split_ifs at hf with hfh
    · cases hf
      subst hfh
      exact ⟨update_self _ _ _, by simp [newConnection, hi]⟩
    · obtain ⟨ho, hi⟩ := hs.find f c hf
      have hcp : c ≠ pconn := fun heq => by rw [heq, hfresh] at ho; cases ho
      exact ⟨(update_of_ne hcp _ _).trans ho, hi⟩
  case oshd =>
    intro c f ho hca
    have hca : c ≠ acceptor := hca.resolve_right nofun
    have ho' : update s.oshd pconn (some h) c = some f := ho
    rw [update_apply] at ho'
    rw [hfind]
    split_ifs at ho' with hcp
    · cases ho'
      rw [if_pos rfl, hcp]
    · have hf := hs.oshd c f ho' (Or.inl hca)
      rwa [if_neg (fun heq => by rw [heq, hc] at hf; exact hca (Option.some.inj hf).symm)]
  case creates =>
    refine fun _ => ⟨?_, fun f => ?_⟩
    · rw [haccepted, List.length_append]
      exact hclients
    · rw [hfind]
      split_ifs with hfh
      · exact fun heq => hne (Option.some.inj heq)
      · exact hgiven f hfh
  case has =>
    intro hnone
    have hnone' : update s.oshd pconn (some h) acceptor = none := hnone
    rw [update_of_ne hne.symm] at hnone'
    exact hs.has hnone'
  case kept =>
    intro f i hi'
    rw [hfind]
    by_cases hfh : f = h
    · subst hfh
      have hi' : s.instances f = some i := hi'
      rw [hi] at hi'
      cases hi'
      refine ⟨hh, pconn, if_pos rfl, ?_⟩
      change Kept acceptor event f _ pconn _ (port.filter fun q => q.key = f)
      rw [hrest, ← List.append_nil (accepts acceptor f n)]
      exact .served hne hpeer nofun (.thread rfl)
    · obtain ⟨hne, c, hcf, hk⟩ := hs.kept f i hi'
      have hcp : c ≠ pconn := fun heq => by
        have ho := (hs.find f c hcf).1
        rw [heq, hfresh] at ho
        cases ho
      rw [if_neg hfh]
      refine ⟨hne, c, hcf, ?_⟩
      change Kept acceptor event f _ c _ (port.filter fun q => q.key = f)
      rw [line_pop_ne hp (hkey ▸ hfh)]
      exact hk.mono (same_of_some (by rw [hservice]; rfl) rfl hcp) (Or.inl (by rw [hservice]; rfl))
  case port => exact fun p hmem => hs.port p (hp ▸ List.mem_cons_of_mem _ hmem)
  case thread =>
    intro c hc
    cases hc
    refine ⟨hne, fun hnone => ?_⟩
    have hnone' : update s.oshd pconn (some h) pconn = none := hnone
    rw [update_self] at hnone'
    cases hnone'
  case running => nofun
  case accepted =>
    rw [haccepted, List.length_append, List.length_singleton, List.range_succ, List.map_append, ← hs.accepted]
    rfl
  case number =>
    intro f i hf
    rw [hfind] at hf
    split_ifs at hf with hfh
    · exact absurd (Option.some.inj hf) hne
    · exact absurd hf (hgiven f hfh)

/-- what a packet does, by the instance of its key and the packets of it that are left -/
inductive Dispatched (acceptor : C) (event : Bool) (s : St C) (port : List (Packet C)) (h : Int32) (pconn : C) :
    C → Instance C → List (Packet C) → St C → Prop
  | skip {peer n} (he : event = true) (hp : peer ≠ .nobody) :
      Dispatched acceptor event s port h pconn acceptor ⟨peer, true, [], none⟩ (accepts acceptor h n)
        { s with port := port }
  | accept {peer n t} (he : event = false) (hp : peer ≠ .nobody) (hfresh : s.oshd pconn = none)
      (ht : ∀ f, t.find f = s.table.find f) :
      Dispatched acceptor event s port h pconn acceptor ⟨peer, true, [], none⟩ (accepts acceptor h n)
        (newConnection { s with port := port, table := t } pconn h)
  | again {c i line t} (hca : c ≠ acceptor) (hk : Kept acceptor event h s.service c i line)
      (ht : ∀ f, t.find f = s.table.find f) :
      Dispatched acceptor event s port h pconn c i line { s with port := port, table := t }
  | run {c peer t service cacheEmpty newData} (hca : c ≠ acceptor) (hp : peer ≠ .nobody)
      (ht : ∀ f, t.find f = s.table.find f) (hw : service = .onRead c ∨ service = .onClose c)
      (hcache : ∀ c', cacheEmpty c' = false → s.cacheEmpty c' = false ∨ service = .onRead c' ∧ newData = true) :
      Dispatched acceptor event s port h pconn c ⟨peer, true, [], none⟩ []
        { s with port := port, table := t, service := service, cacheEmpty := cacheEmpty, newDataArrived := newData }

theorem dispatched {pconn : C} {p : Packet C} {port : List (Packet C)} (hs : Inv acceptor event s)
    (hp : s.port = p :: port) (hd : dispatch acceptor event { s with port := port } pconn p = some s') :
    ∃ c i, s.table.find p.key = some c ∧ s.instances p.key = some i ∧
      Dispatched acceptor event s port p.key pconn c i (port.filter fun q => q.key = p.key) s' := by
  obtain ⟨i, hi⟩ := Option.ne_none_iff_exists'.1 (hs.port p (hp ▸ List.mem_cons_self))
  obtain ⟨-, c, hc, hk⟩ := hs.kept _ i hi
  rw [line_pop hp] at hk
  have hfirst := hk.first
  have hget : (s.table.get p.key).1 = some c := hc
  have ht : ∀ f, (s.table.get p.key).2.find f = s.table.find f := fun f => Table.find_get _ _ _
  obtain ⟨ho, -⟩ := hs.find p.key c hc
  refine ⟨c, i, hc, hi, ?_⟩
  obtain ⟨key, owner, member, result⟩ := p
  unfold dispatch at hd
  generalize (port.filter fun q => q.key = key) = line at hfirst ⊢
  cases hfirst with
  | @client peer n hpeer =>
    cases event with
    | true =>
      simp only [ho, and_self, if_pos] at hd
      cases hd
      exact .skip rfl hpeer
    | false =>
      simp only [ho, Bool.false_eq_true, and_false, if_false, hget, notify, if_true] at hd
      split_ifs at hd with hfresh
      simp only [Option.map_some, Option.some.injEq] at hd
      subst hd
      exact .accept rfl hpeer hfresh ht
  | again hca hk =>
    obtain ⟨h', ho'⟩ := Option.ne_none_iff_exists'.1 hs.has
    cases event with
    | true =>
      simp only [ho', and_self, if_pos] at hd
      cases hd
      exact .again hca hk fun _ => rfl
    | false =>
      simp only [ho', Bool.false_eq_true, and_false, if_false, hget, notify, Ne.symm hca] at hd
      cases hd
      exact .again hca hk ht
  | read hca hpeer hm hr =>
    simp only [ho, hm, false_and, if_false, hget, notify, if_true] at hd
    cases member with
    | waitconn => exact absurd rfl hm
    | cache | error =>
      cases result with
      | other => exact absurd rfl hr
      | ok =>
        cases hd
        refine .run hca hpeer ht (Or.inl rfl) fun c' hc' => ?_
        by_cases hcc : c' = c
        · exact Or.inr ⟨by rw [hcc], rfl⟩
        · exact Or.inl (by rwa [update_of_ne hcc] at hc')
      | empty =>
        cases hd
        exact .run hca hpeer ht (Or.inl rfl) fun _ => Or.inl
      | brokenPipe =>
        cases hd
        exact .run hca hpeer ht (Or.inr rfl) fun _ => Or.inl

theorem inv_dispatch {pconn : C} {p : Packet C} {port : List (Packet C)} (hs : Inv acceptor event s)
    (hservice : s.service = .wait) (hp : s.port = p :: port)
    (hd : dispatch acceptor event { s with port := port } pconn p = some s') : Inv acceptor event s' := by
  obtain ⟨c, i, hc, hi, hd⟩ := dispatched hs hp hd
  have hsame : s.instances = update s.instances p.key (some i) := (update_eq_self_iff.2 hi.symm).symm
  have hpop : ∀ q ∈ port, q ∈ s.port ∨ q.key = p.key := fun q hq => Or.inl (hp ▸ List.mem_cons_of_mem _ hq)
  have hrest : ∀ t : St C, t.port = port → t.line p.key = port.filter fun q => q.key = p.key :=
    fun t ht => by rw [← ht]; rfl
  have hothers : ∀ t : St C, t.port = port → ∀ f, f ≠ p.key → t.line f = s.line f :=
    fun t ht f hf => by rw [← line_pop_ne hp hf, ← ht]; rfl
  generalize hl : (port.filter fun q => q.key = p.key) = line at hd
  cases hd with
  | skip he hpeer =>
    have hnum := hs.number p.key _ hc hi
    refine hs.move hc (fun _ => rfl) rfl rfl hsame (hothers _ rfl) hpop (fun _ _ => same_refl _ _) rfl (Or.inl rfl)
      hs.thread hs.running ?_ (fun _ => hnum) (fun hne => absurd rfl hne)
    rw [hrest _ rfl, hl]
    exact .arrived hpeer (by rw [hservice]; nofun) fun _ => Or.inl he
  | accept he hpeer hfresh ht => exact inv_newConnection hs hservice hp rfl hc hi hpeer hl hfresh ht
  | again hca hk ht =>
    refine hs.move hc ht rfl rfl hsame (hothers _ rfl) hpop (fun _ _ => same_refl _ _) rfl (Or.inl rfl) hs.thread
      hs.running ?_ (fun heq => absurd heq hca) (fun _ => rfl)
    rw [hrest _ rfl, hl]
    exact hk
  | @run _ peer _ service _ _ hca hpeer ht hw _ =>
    have hpconn : service.pconn = some c := by rcases hw with rfl | rfl <;> rfl
    have hcreates : service.creates = s.service.creates := by rw [hservice]; rcases hw with rfl | rfl <;> rfl
    have hconnects : service.connects = s.service.connects := by rw [hservice]; rcases hw with rfl | rfl <;> rfl
    refine hs.move hc ht rfl rfl hsame (hothers _ rfl) hpop ?_ hcreates (Or.inl hconnects) ?_ ?_ ?_
      (fun heq => absurd heq hca) (fun _ => rfl)
    · exact fun c' hne => same_of_some (by rw [hservice]; rfl) hpconn hne
    · intro c' hc'
      obtain rfl : c = c' := Option.some.inj (hpconn.symm.trans hc')
      exact ⟨hca, fun hnone => by rw [(hs.find p.key c hc).1] at hnone; cases hnone⟩
    · rcases hw with rfl | rfl <;> nofun
    · rw [hrest _ rfl, hl]
      exact .served (n := 0) hca hpeer (fun _ => rfl) (.thread hpconn)

/-! ## Deleting -/

theorem inv_delete {c' : C} (hs : Inv acceptor event s)
    (hservice : s.service = .onAccept c' ∨ s.service = .onRead c' ∨ s.service = .onClose c') (hca : c ≠ acceptor)
    (ho : s.oshd c = some h) (hidle : Idle s c) : Inv acceptor event (deleteConnection s c h) := by
  obtain ⟨haccept, hread, hidle⟩ := hidle
  obtain ⟨hport, hinst⟩ := hidle h ho
  have hc := hs.oshd c h ho (Or.inl hca)
  obtain ⟨i, hi⟩ := Option.ne_none_iff_exists'.1 (hs.find h c hc).2
  have hh := (hs.kept h i hi).1
  obtain ⟨hwaiting, hreading⟩ := hinst i hi
  have hnone : i.packets h .other .other = [] := by simp [Instance.packets, hwaiting, hreading]
  have hp : (deleteConnection s c h).port = s.port := by simp [deleteConnection, hi, hnone]
  have hfind : ∀ f, (deleteConnection s c h).table.find f = if f = h then none else s.table.find f :=
    fun f => find_unassociate hh
  have hne : ∀ f c', s.table.find f = some c' → f ≠ h → c' ≠ c := by
    rintro f c' hf hfh rfl
    exact hfh (hs.find_inj hf hc)
  constructor
  case find =>
    intro f c' hf
    rw [hfind] at hf
    split_ifs at hf with hfh
    obtain ⟨ho, hi⟩ := hs.find f c' hf
    exact ⟨(update_of_ne (hne f c' hf hfh) _ _).trans ho, fun hnone => hi ((update_of_ne hfh _ _).symm.trans hnone)⟩
  case oshd =>
    intro c' f ho' hne'
    have ho' : update s.oshd c none c' = some f := ho'
    rw [update_apply] at ho'
    split_ifs at ho' with hcc
    have hf := hs.oshd c' f ho' hne'
    rw [hfind, if_neg]
    · exact hf
    · rintro rfl
      exact hcc (Option.some.inj (hf.symm.trans hc))
  case creates =>
    intro hcr
    have hcr : s.service.creates = true := hcr
    rcases hservice with hservice | hservice | hservice <;> rw [hservice] at hcr <;> cases hcr
  case has =>
    intro hnone'
    have hnone' : update s.oshd c none acceptor = none := hnone'
    rw [update_of_ne hca.symm] at hnone'
    exact hs.has hnone'
  case kept =>
    intro f i' hi'
    have hi' : update s.instances h none f = some i' := hi'
    rw [update_apply] at hi'
    split_ifs at hi' with hfh
    obtain ⟨hne, c', hc', hk⟩ := hs.kept f i' hi'
    rw [hfind, if_neg hfh, St.line, hp]
    exact ⟨hne, c', hc', hk⟩
  case port =>
    intro p hmem
    rw [hp] at hmem
    exact fun hnone => hs.port p hmem ((update_of_ne (hport p hmem) _ _).symm.trans hnone)
  case thread =>
    intro c' hw
    obtain ⟨hca', halive⟩ := hs.thread c' hw
    refine ⟨hca', fun hnone' => ?_⟩
    have hnone' : update s.oshd c none c' = none := hnone'
    rw [update_apply] at hnone'
    split_ifs at hnone' with hcc
    · subst hcc
      have hw : s.service.pconn = some c' := hw
      rcases hservice with hservice | hservice | hservice <;> rw [hservice] at hw <;> cases hw
      · exact absurd hservice haccept
      · exact absurd hservice hread
      · exact hservice
    · exact halive hnone'
  case running => exact hs.running
  case accepted => exact hs.accepted
  case number =>
    intro f i' hf hi'
    have hi' : update s.instances h none f = some i' := hi'
    rw [update_apply] at hi'
    rw [hfind] at hf
    split_ifs at hi' hf with hfh
    exact hs.number f i' hf hi'

theorem step_inv {o : Op C} (hs : Inv acceptor event s) (hcached : Cached s) (hclean : Clean s o)
    (hstep : step acceptor event s o = some s') : Inv acceptor event s' := by
  cases step_eq hstep with
  | «open» hi hp => exact inv_open hs hi hp
  | leave hi hp => exact inv_leave hs hi hp
  | read hi hr hres => exact inv_read hs hi hr hres
  | create hservice hi hh => exact inv_listen hs hservice hi hh
  | connect hw => exact inv_connect hs hw
  | notify hservice hp hd => exact inv_dispatch hs hservice hp hd
  | trigger hservice ht => exact inv_trigger hs hcached hservice ht
  | takeByte =>
    exact ⟨hs.find, hs.oshd, hs.creates, hs.has, hs.kept, hs.port, hs.thread, hs.running, hs.accepted, hs.number⟩
  | delete hservice hca ho => exact inv_delete hs hservice hca ho hclean
  | backAccept hservice => exact inv_backAccept hs hservice
  | backRead hservice => exact inv_backRead hs hservice hclean
  | backClose hservice => exact inv_backClose hs hservice

/-! ## The caches -/

omit [DecidableEq C] in
/-- a step that starts outside `on_read` and fills no cache -/
theorem Cached.keep (hs : Cached s) (hservice : ∀ c, s.service ≠ .onRead c)
    (hsame : ∀ c, s'.oshd c ≠ none → s'.cacheEmpty c = false → s.oshd c ≠ none ∧ s.cacheEmpty c = false) :
    Cached s' := fun c ho hfull =>
  absurd (hs c (hsame c ho hfull).1 (hsame c ho hfull).2).1 (hservice c)

omit [DecidableEq C] in
theorem waitForConnection_same (acceptor : C) (s : St C) (service : Service C) :
    (waitForConnection acceptor s service).oshd = s.oshd ∧
      (waitForConnection acceptor s service).cacheEmpty = s.cacheEmpty := by
  unfold waitForConnection
  split
  · exact ⟨rfl, rfl⟩
  · split_ifs
    · exact ⟨rfl, rfl⟩
    · split
      · exact ⟨rfl, rfl⟩
      · split <;> exact ⟨rfl, rfl⟩

omit [DecidableEq C] in
theorem triggerAsyncCacheRead_same {failed : Bool} (ht : triggerAsyncCacheRead s failed c = some s') :
    s'.oshd = s.oshd ∧ s'.cacheEmpty = s.cacheEmpty := by
  unfold triggerAsyncCacheRead at ht
  split at ht
  · cases ht
    exact ⟨rfl, rfl⟩
  · split_ifs at ht
    · cases ht
      exact ⟨rfl, rfl⟩
    · split at ht
      · split_ifs at ht
        cases ht
        exact ⟨rfl, rfl⟩
      all_goals cases ht <;> exact ⟨rfl, rfl⟩

theorem cached_dispatch {pconn : C} {p : Packet C} {port : List (Packet C)} (hs : Inv acceptor event s)
    (hcached : Cached s) (hservice : s.service = .wait) (hp : s.port = p :: port)
    (hd : dispatch acceptor event { s with port := port } pconn p = some s') : Cached s' := by
  have hwait : ∀ c, s.service ≠ .onRead c := fun c => by rw [hservice]; nofun
  obtain ⟨c, i, -, -, hd⟩ := dispatched hs hp hd
  generalize (port.filter fun q => q.key = p.key) = line at hd
  cases hd with
  | skip | again => exact hcached.keep hwait fun _ ho hfull => ⟨ho, hfull⟩
  | accept he hpeer hfresh ht =>
    refine hcached.keep hwait fun c' ho hfull => ?_
    have ho' : update s.oshd pconn (some p.key) c' ≠ none := ho
    have hfull' : update s.cacheEmpty pconn true c' = false := hfull
    rw [update_apply] at ho' hfull'
    split_ifs at ho' hfull' with hcc
    exact ⟨ho', hfull'⟩
  | run hca hpeer ht hw hcache =>
    intro c' ho hfull
    refine (hcache c' hfull).elim (fun hold => ?_) id
    exact absurd (hcached c' ho hold).1 (hwait c')

theorem step_cached {o : Op C} (hs : Inv acceptor event s) (hcached : Cached s) (hclean : Clean s o)
    (hstep : step acceptor event s o = some s') : Cached s' := by
  cases step_eq hstep with
  | «open» | leave | read => exact hcached
  | @create pconn h hservice =>
    refine hcached.keep (fun c => by rw [hservice]; nofun) fun c ho hfull => ⟨?_, hfull⟩
    have ho' : update s.oshd acceptor (some h) c ≠ none := ho
    rw [update_apply] at ho'
    split_ifs at ho' with hca
    · exact hca ▸ hs.has
    · exact ho'
  | @connect service hw =>
    obtain ⟨ho, hc⟩ := waitForConnection_same acceptor s service
    refine hcached.keep (fun c heq => ?_) fun c hoc hfull => ⟨ho ▸ hoc, hc ▸ hfull⟩
    rw [heq] at hw
    cases hw
  | notify hservice hp hd => exact cached_dispatch hs hcached hservice hp hd
  | trigger hservice ht =>
    obtain ⟨ho, hc⟩ := triggerAsyncCacheRead_same ht
    exact hcached.keep (fun c => by rw [hservice]; nofun) fun c hoc hfull => ⟨ho ▸ hoc, hc ▸ hfull⟩
  | @takeByte c =>
    intro c' ho hfull
    have hfull' : update s.cacheEmpty c true c' = false := hfull
    rw [update_apply] at hfull'
    split_ifs at hfull' with hcc
    exact hcached c' ho hfull'
  | @delete c h c' hservice =>
    intro c' ho hfull
    have ho' : update s.oshd c none c' ≠ none := ho
    rw [update_apply] at ho'
    split_ifs at ho' with hcc
    · exact absurd rfl ho'
    · exact hcached c' ho' hfull
  | backAccept hservice | backClose hservice =>
    exact hcached.keep (fun c => by rw [hservice]; nofun) fun _ ho hfull => ⟨ho, hfull⟩
  | @backRead c hservice =>
    intro c' ho hfull
    obtain ⟨hread, hnew⟩ := hcached c' ho hfull
    -- the byte would still be there
    have hbyte : s.byteRead = true := hclean
    rw [St.byteRead, hread] at hbyte
    have hfull' : s.cacheEmpty c' = false := hfull
    simp [St.byteLeft, hnew, hfull'] at hbyte

theorem inv_init : Inv acceptor event (init acceptor) := by
  have hfind : ∀ h, (init acceptor).table.find h = none := by
    intro h
    rw [init, Table.find_eq]
    cases fastIndex h <;> rfl
  constructor
  case find => exact fun h c hf => by rw [hfind] at hf; cases hf
  case oshd =>
    intro c h ho hne
    have ho : update (fun _ => none) acceptor (some invalidOsHandle) c = some h := ho
    rw [update_of_ne (hne.resolve_right nofun)] at ho
    cases ho
  case creates => exact fun _ => ⟨rfl, fun h => by rw [hfind]; nofun⟩
  case has => simp [init]
  case kept => nofun
  case port => nofun
  case thread => nofun
  case running => nofun
  case accepted => rfl
  case number => exact fun h i hf => by rw [hfind] at hf; cases hf

theorem cached_init : Cached (init acceptor) := fun _ _ hfull => nomatch hfull

variable (acceptor event) in
/-- both -/
structure Safe (s : St C) : Prop extends Inv acceptor event s where
  cached : Cached s

theorem step_safe {o : Op C} (hs : Safe acceptor event s) (hclean : Clean s o)
    (hstep : step acceptor event s o = some s') : Safe acceptor event s' :=
  ⟨step_inv hs.toInv hs.cached hclean hstep, step_cached hs.toInv hs.cached hclean hstep⟩

theorem safe_init : Safe acceptor event (init acceptor) := ⟨inv_init, cached_init⟩

end Invariant

end Hodgepodge.Ipc.PipeAccept
