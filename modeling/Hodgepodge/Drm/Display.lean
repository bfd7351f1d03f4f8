/-
The displays before and after `tdrm1.c`. The program saves the configuration of a CRTC before it changes it, and sets it
again in the end; what the calls do to the displays is assumed as far as it is documented.

Results:
- `main_restores`: a run that ends leaves every CRTC as it was, or off if it could not be set again.
-/
import Hodgepodge.Drm.Prepare
import Hodgepodge.Drm.Main

namespace Hodgepodge.Drm

open Hodgepodge.Core

/-- what a CRTC scans out -/
structure Scan where
  fb : UInt32
  x : UInt32
  y : UInt32
  mode : Mode
deriving DecidableEq

/-- the calls that may change a display or tell of it -/
def Call.display : Call → Bool
  | .addFB _ _ _ _ _ _ _ | .rmFB _ _ | .getCrtc _ _ | .setCrtc _ _ _ _ _ _ _ => true
  | _ => false

/-- a card: `scan` is what a CRTC scans out unless it is off, `route` the CRTC of a connector -/
structure Card (σ : Type) where
  step : σ → Event Answer → σ → Prop
  scan : σ → UInt32 → Option Scan
  route : σ → UInt32 → Option UInt32
  scan_fb : ∀ {s id c}, scan s id = some c → c.fb ≠ 0
  /-- a CRTC that is off has no buffer -/
  getCrtc : ∀ {s s' fd id crtc}, step s ⟨.getCrtc fd id, some crtc⟩ s' → crtc.val.crtcId = id ∧
    match scan s id with
    | some c => crtc.val = ⟨id, c.fb, c.x, c.y, c.mode⟩
    | none => crtc.val.bufferId = 0
  getCrtc_same : ∀ {s s' fd id a}, step s ⟨.getCrtc fd id, a⟩ s' → scan s' = scan s ∧ route s' = route s
  /-- the connector leaves the CRTC that it had and takes the place of the connectors of this one -/
  setCrtc : ∀ {s s' fd id fb x y conn mode}, step s ⟨.setCrtc fd id fb x y [conn] mode, .ok ()⟩ s' →
    scan s' id = (if fb = 0 then none else some ⟨fb, x, y, mode⟩) ∧
      (route s' conn = some id ∨ route s' conn = none) ∧
      (∀ conn', conn' ≠ conn → route s' conn' = route s conn' ∨ route s' conn' = none) ∧
      ∀ id', id' ≠ id → route s conn ≠ some id' → scan s' id' = scan s id'
  setCrtc_error : ∀ {s s' fd id fb x y conn mode e}, step s ⟨.setCrtc fd id fb x y conn mode, .error e⟩ s' →
    scan s' = scan s ∧ route s' = route s
  /-- a new framebuffer is scanned out nowhere -/
  addFB : ∀ {s s' fd width height depth bpp pitch handle fb},
    step s ⟨.addFB fd width height depth bpp pitch handle, .ok fb⟩ s' →
      scan s' = scan s ∧ route s' = route s ∧ ∀ id c, scan s id = some c → c.fb ≠ fb
  addFB_error : ∀ {s s' fd width height depth bpp pitch handle e},
    step s ⟨.addFB fd width height depth bpp pitch handle, .error e⟩ s' → scan s' = scan s ∧ route s' = route s
  /-- a CRTC does not go on without its framebuffer -/
  rmFB : ∀ {s s' fd fb a}, step s ⟨.rmFB fd fb, a⟩ s' →
    (∀ id, scan s' id = (scan s id).filter fun c => c.fb ≠ fb) ∧
      ∀ conn, route s' conn = route s conn ∨ route s' conn = none
  other : ∀ {s s' e}, e.1.display = false → step s e s' → scan s' = scan s ∧ route s' = route s

namespace Card

variable {σ : Type} (C : Card σ) {s₀ s s' : σ} {fd : Fd} {list : List Dev} {dev : Dev} {t : List (Event Answer)}

/-- no display has changed, though a connector may have lost its CRTC -/
def Keeps (s₀ s : σ) : Prop := C.scan s = C.scan s₀ ∧ ∀ conn, C.route s conn = C.route s₀ conn ∨ C.route s conn = none

/-- a framebuffer that no display needs -/
def Unseen (s : σ) (fb : UInt32) : Prop := ∀ id c, C.scan s id = some c → c.fb ≠ fb

variable {C}

theorem Keeps.refl : C.Keeps s s := ⟨rfl, fun _ => Or.inl rfl⟩

theorem Keeps.same (h : C.Keeps s₀ s) (hs : C.scan s' = C.scan s ∧ C.route s' = C.route s) : C.Keeps s₀ s' :=
  ⟨hs.1.trans h.1, fun conn => by rw [hs.2]; exact h.2 conn⟩

/-- it may be removed -/
theorem Unseen.filter {fb id : UInt32} {o : Option Scan} (h : C.Unseen s₀ fb) (ho : o = C.scan s₀ id ∨ o = none) :
    o.filter (fun c => c.fb ≠ fb) = o := by
  rcases ho with rfl | rfl
  · cases hc : C.scan s₀ id with
    | none => rfl
    | some c => simp [Option.filter, h id c hc]
  · rfl

theorem Keeps.rmFB {fb : UInt32} {a : Unit} (h : C.Keeps s₀ s) (hfb : C.Unseen s₀ fb)
    (hs : C.step s ⟨.rmFB fd fb, a⟩ s') : C.Keeps s₀ s' := by
  obtain ⟨hscan, hroute⟩ := C.rmFB hs
  refine ⟨funext fun id => ?_, fun conn => ?_⟩
  · rw [hscan, h.1, hfb.filter (Or.inl rfl)]
  · rcases hroute conn with hr | hr
    · rw [hr]
      exact h.2 conn
    · exact Or.inr hr

/-! ## The setup -/

variable {res : Res} {conn : Connector}

theorem hoare_quiet {α : Type} {calls : Call → Bool} {p : Prog Answer α} {I : σ → Prop} (hp : Sure calls p)
    (hcalls : ∀ c, calls c = true → c.display = false)
    (hI : ∀ s s', I s → C.scan s' = C.scan s ∧ C.route s' = C.route s → I s') : Prog.Hoare C.step I p fun _ => I :=
  Prog.hoare_confined hp fun e he s s' hs hstep => hI s s' hs (C.other (hcalls e.1 he) hstep)

theorem hoare_other {α : Type} {c : Call} {f : Answer c → Prog Answer α} {I : σ → Prop} {Q : α → σ → Prop}
    (hc : c.display = false) (hI : ∀ s s', I s → C.scan s' = C.scan s ∧ C.route s' = C.route s → I s')
    (hf : ∀ a, Prog.Hoare C.step I (f a) Q) : Prog.Hoare C.step I (ask c >>= f) Q :=
  Prog.hoare_call (J := fun _ => I) (fun _ s s' hs hstep => hI s s' hs (C.other hc hstep)) hf

theorem hoare_errDestroy {ret : Errno} {Q : Except Errno Dev → σ → Prop} (hQ : ∀ s, C.Keeps s₀ s → Q (.error ret) s) :
    Prog.Hoare C.step (C.Keeps s₀) (errDestroy fd dev ret) Q :=
  hoare_other rfl (fun _ _ => Keeps.same) fun _ => Prog.hoare_pure hQ

theorem hoare_errFb {ret : Errno} {Q : Except Errno Dev → σ → Prop} (hfb : C.Unseen s₀ dev.fb)
    (hQ : ∀ s, C.Keeps s₀ s → Q (.error ret) s) : Prog.Hoare C.step (C.Keeps s₀) (errFb fd dev ret) Q :=
  Prog.hoare_call (J := fun _ => C.Keeps s₀) (fun _ _ _ hs => hs.rmFB hfb) fun _ => hoare_errDestroy hQ

/-- a setup changes no display, and the framebuffer of a new device is shown nowhere -/
def SetUp (C : Card σ) (s₀ : σ) (r : Except Errno Dev) (s : σ) : Prop :=
  C.Keeps s₀ s ∧ ∀ dev, r = .ok dev → C.Unseen s₀ dev.fb

theorem hoare_createFb : Prog.Hoare C.step (C.Keeps s₀) (modesetCreateFb fd dev) (C.SetUp s₀) := by
  refine hoare_other rfl (fun _ _ => Keeps.same) fun creq => ?_
  rcases creq with ret | creq
  · exact Prog.hoare_pure fun s hs => ⟨hs, nofun⟩
  refine Prog.hoare_call (J := fun fb s => C.Keeps s₀ s ∧ ∀ fb', fb = .ok fb' → C.Unseen s₀ fb') ?_ fun fb => ?_
  · rintro (e | fb) s s' hs hstep
    · exact ⟨hs.same (C.addFB_error hstep), nofun⟩
    · obtain ⟨hscan, hroute, hnew⟩ := C.addFB hstep
      refine ⟨hs.same ⟨hscan, hroute⟩, ?_⟩
      rintro _ ⟨⟩ id c hc
      exact hnew id c (by rw [hs.1]; exact hc)
  refine Prog.hoare_and fun hnew => ?_
  rcases fb with ret | fb
  · exact hoare_errDestroy fun s hs => ⟨hs, nofun⟩
  have hfb := hnew fb rfl
  refine hoare_other rfl (fun _ _ => Keeps.same) fun offset => ?_
  rcases offset with ret | offset
  · exact hoare_errFb hfb fun s hs => ⟨hs, nofun⟩
  refine hoare_other rfl (fun _ _ => Keeps.same) fun map => ?_
  rcases map with ret | map
  · exact hoare_errFb hfb fun s hs => ⟨hs, nofun⟩
  refine hoare_other rfl (fun _ _ => Keeps.same) fun _ => Prog.hoare_pure fun s hs => ⟨hs, ?_⟩
  rintro _ ⟨⟩
  exact hfb

theorem display_of_looks (c : Call) (h : c.looks = true) : c.display = false := by
  cases c <;> first | rfl | cases h

theorem hoare_setupDev :
    Prog.Hoare C.step (C.Keeps s₀) (modesetSetupDev fd list res conn dev) (C.SetUp s₀) := by
  unfold modesetSetupDev
  split_ifs
  · exact Prog.hoare_pure fun s hs => ⟨hs, nofun⟩
  split
  · exact Prog.hoare_pure fun s hs => ⟨hs, nofun⟩
  refine Prog.hoare_bind (hoare_quiet sure_findCrtc display_of_looks fun _ _ => Keeps.same) fun r => ?_
  rcases r with ret | dev'
  · exact Prog.hoare_pure fun s hs => ⟨hs, nofun⟩
  · exact hoare_createFb

/-- all the framebuffers of the devices are shown nowhere -/
def AllUnseen (C : Card σ) (s₀ : σ) (list : List Dev) : Prop := ∀ dev ∈ list, C.Unseen s₀ dev.fb

theorem hoare_prepareConnector {id : UInt32} (hlist : C.AllUnseen s₀ list) :
    Prog.Hoare C.step (C.Keeps s₀) (prepareConnector fd res list id) fun list' s =>
      C.Keeps s₀ s ∧ C.AllUnseen s₀ list' := by
  refine hoare_other rfl (fun _ _ => Keeps.same) fun conn => ?_
  rcases conn with _ | conn
  · exact Prog.hoare_pure fun s hs => ⟨hs, hlist⟩
  refine hoare_other rfl (fun _ _ => Keeps.same) fun ptr => ?_
  rcases ptr with _ | ptr
  · exact Prog.hoare_fault
  refine Prog.hoare_bind hoare_setupDev fun r => Prog.hoare_and fun hnew => ?_
  rcases r with ret | dev
  · exact hoare_other rfl (fun _ _ => Keeps.same) fun _ => hoare_other rfl (fun _ _ => Keeps.same) fun _ =>
      Prog.hoare_pure fun s hs => ⟨hs, hlist⟩
  · exact hoare_other rfl (fun _ _ => Keeps.same) fun _ => Prog.hoare_pure fun s hs =>
      ⟨hs, List.forall_mem_cons.2 ⟨hnew dev rfl, hlist⟩⟩

theorem hoare_prepareConnectors {connectors : List UInt32} (hlist : C.AllUnseen s₀ list) :
    Prog.Hoare C.step (C.Keeps s₀) (prepareConnectors fd res connectors list) fun list' s =>
      C.Keeps s₀ s ∧ C.AllUnseen s₀ list' := by
  induction connectors generalizing list with
  | nil => exact Prog.hoare_pure fun s hs => ⟨hs, hlist⟩
  | cons id connectors ih =>
    exact Prog.hoare_bind (hoare_prepareConnector hlist) fun list' => Prog.hoare_and fun hlist' => ih hlist'

theorem hoare_prepare : Prog.Hoare C.step (C.Keeps s₀) (modesetPrepare fd []) fun r s =>
    C.Keeps s₀ s ∧ ∀ list, r = .ok list → C.AllUnseen s₀ list := by
  refine hoare_other rfl (fun _ _ => Keeps.same) fun res => ?_
  rcases res with ret | res
  · exact Prog.hoare_pure fun s hs => ⟨hs, nofun⟩
  refine Prog.hoare_bind (hoare_prepareConnectors nofun) fun list => Prog.hoare_and fun hlist => ?_
  refine hoare_other rfl (fun _ _ => Keeps.same) fun _ => Prog.hoare_pure fun s hs => ⟨hs, ?_⟩
  rintro _ ⟨⟩
  exact hlist

/-! ## The CRTCs that are set -/

/-- the connector has this CRTC or none -/
def Own (C : Card σ) (s : σ) (id conn : UInt32) : Prop := C.route s conn = none ∨ C.route s conn = some id

theorem Own.same {id conn : UInt32} (h : C.Own s id conn) (hr : C.route s' conn = C.route s conn ∨ C.route s' conn = none) :
    C.Own s' id conn := by
  rcases hr with hr | hr
  · rwa [Own, hr]
  · exact Or.inl hr

/-- a call that sets a CRTC does so or changes nothing -/
def IsSet (C : Card σ) (s s' : σ) (id : UInt32) (scan : Option Scan) : Except Errno Unit → Prop
  | .ok _ => C.scan s' id = scan
  | .error _ => C.scan s' id = C.scan s id

/-- a CRTC that is set for a connector of its own does not disturb the others -/
theorem setCrtc_step {id fb x y conn : UInt32} {mode : Mode} {a : Except Errno Unit} (hown : C.Own s id conn)
    (h : C.step s ⟨.setCrtc fd id fb x y [conn] mode, a⟩ s') :
    (∀ id', id' ≠ id → C.scan s' id' = C.scan s id') ∧ C.Own s' id conn ∧
      (∀ conn', conn' ≠ conn → ∀ id', C.Own s id' conn' → C.Own s' id' conn') ∧
      C.IsSet s s' id (if fb = 0 then none else some ⟨fb, x, y, mode⟩) a := by
  rcases a with e | ⟨⟩
  · obtain ⟨hscan, hroute⟩ := C.setCrtc_error h
    refine ⟨fun id' _ => by rw [hscan], hown.same (Or.inl (by rw [hroute])), fun conn' _ id' ho => ?_, congrFun hscan id⟩
    exact ho.same (Or.inl (by rw [hroute]))
  · obtain ⟨hscan, hconn, hothers, hsame⟩ := C.setCrtc h
    refine ⟨fun id' hne => hsame id' hne ?_, hconn.symm, fun conn' hne id' ho => ho.same (hothers conn' hne), hscan⟩
    rcases hown with ho | ho
    · rw [ho]
      exact nofun
    · rw [ho]
      exact fun heq => hne (Option.some.inj heq).symm

/-- what a device has saved is what its CRTC scanned out -/
def Saved (C : Card σ) (s₀ : σ) (dev : Dev) : Prop := ∀ saved, dev.savedCrtc = some saved →
  saved.val.crtcId = dev.crtc ∧
    match C.scan s₀ dev.crtc with
    | some c => saved.val = ⟨dev.crtc, c.fb, c.x, c.y, c.mode⟩
    | none => saved.val.bufferId = 0

/-- the CRTC of a device scans out what it did, the buffer of the device, or nothing -/
def Shown (C : Card σ) (s₀ s : σ) (dev : Dev) : Prop :=
  C.scan s dev.crtc = C.scan s₀ dev.crtc ∨ C.scan s dev.crtc = none ∨ ∃ c, C.scan s dev.crtc = some c ∧ c.fb = dev.fb

/-- the loop that shows the devices -/
theorem show_step {list' : List Dev} (hr : (modesetShow fd list).Run t (some list')) (ht : Prog.Steps C.step s t s')
    (hcrtcs : (list.map Dev.crtc).Nodup) (hconns : (list.map Dev.conn).Nodup)
    (hown : ∀ dev ∈ list, C.Own s dev.crtc dev.conn) (hscan : ∀ dev ∈ list, C.scan s dev.crtc = C.scan s₀ dev.crtc) :
    (∀ id, id ∉ list.map Dev.crtc → C.scan s' id = C.scan s id) ∧
      (∀ conn, conn ∉ list.map Dev.conn → ∀ id, C.Own s id conn → C.Own s' id conn) ∧
      ∀ dev ∈ list', C.Own s' dev.crtc dev.conn ∧ C.Saved s₀ dev ∧ C.Shown s₀ s' dev := by
  induction list generalizing s t list' with
  | nil =>
    obtain ⟨rfl, hret⟩ := hr
    cases hret
    obtain rfl := ht
    exact ⟨fun _ _ => rfl, fun _ _ _ ho => ho, nofun⟩
  | cons dev list ih =>
    obtain ⟨saved, t, rfl, set, t, rfl, hr⟩ := hr
    obtain ⟨s₁, hget, s₂, hset, ht⟩ := ht
    rcases (Prog.run_bind (p := modesetShow fd list)).1 hr with ⟨t₁, t₂, list₁, rfl, hr₁, rfl, hret⟩ | ⟨-, hfault⟩
    swap
    · cases hfault
    cases hret
    rw [List.append_nil] at ht
    simp only [List.map_cons, List.nodup_cons] at hcrtcs hconns
    obtain ⟨hown₁, hown⟩ := List.forall_mem_cons.1 hown
    obtain ⟨hscan₁, hscan⟩ := List.forall_mem_cons.1 hscan
    obtain ⟨hsame, hroute⟩ := C.getCrtc_same hget
    obtain ⟨hothers, hdev, hconn, hres⟩ := setCrtc_step (hown₁.same (Or.inl (by rw [hroute]))) hset
    have hne : ∀ d ∈ list, d.crtc ≠ dev.crtc ∧ d.conn ≠ dev.conn := fun d hd =>
      ⟨fun heq => hcrtcs.1 (heq ▸ List.mem_map_of_mem hd), fun heq => hconns.1 (heq ▸ List.mem_map_of_mem hd)⟩
    obtain ⟨hids, hroutes, hall⟩ := ih hr₁ ht hcrtcs.2 hconns.2
      (fun d hd => hconn _ (hne d hd).2 _ ((hown d hd).same (Or.inl (by rw [hroute]))))
      (fun d hd => by rw [hothers _ (hne d hd).1, hsame, hscan d hd])
    refine ⟨fun id hid => ?_, fun conn' hc id ho => ?_, List.forall_mem_cons.2 ⟨⟨?_, ?_, ?_⟩, hall⟩⟩
    · rw [List.map_cons, List.mem_cons, not_or] at hid
      rw [hids id hid.2, hothers id hid.1, hsame]
    · rw [List.map_cons, List.mem_cons, not_or] at hc
      exact hroutes conn' hc.2 id (hconn conn' hc.1 id (ho.same (Or.inl (by rw [hroute]))))
    · exact hroutes dev.conn hconns.1 dev.crtc hdev
    · rintro saved rfl
      have hlaw := C.getCrtc hget
      rwa [hscan₁] at hlaw
    · have hend : C.scan s' dev.crtc = C.scan s₂ dev.crtc := hids dev.crtc hcrtcs.1
      unfold Shown
      rw [hend]
      rcases set with e | ok
      · exact Or.inl (Eq.trans hres (by rw [hsame, hscan₁]))
      · rw [show C.scan s₂ dev.crtc = _ from hres]
        split_ifs with hzero
        · exact Or.inr (Or.inl rfl)
        · exact Or.inr (Or.inr ⟨_, rfl, rfl⟩)

theorem Shown.filter {fb : UInt32} (h : C.Shown s₀ s dev) (hfb : C.Unseen s₀ fb)
    (hs : C.scan s' dev.crtc = (C.scan s dev.crtc).filter fun c => c.fb ≠ fb) : C.Shown s₀ s' dev := by
  unfold Shown
  rw [hs]
  rcases h with h | h | ⟨c, hc, hdev⟩
  · rw [hfb.filter (Or.inl h)]
    exact Or.inl h
  · rw [h]
    exact Or.inr (Or.inl rfl)
  · rw [hc, Option.filter]
    split_ifs
    · exact Or.inr (Or.inr ⟨c, rfl, hdev⟩)
    · exact Or.inr (Or.inl rfl)

/-- the configuration of a CRTC that could not be set again -/
def Lost (C : Card σ) (s₀ : σ) (t : List (Event Answer)) (id : UInt32) : Prop :=
  ∃ fd c conn e, C.scan s₀ id = some c ∧ (⟨.setCrtc fd id c.fb c.x c.y [conn] c.mode, .error e⟩ : Event Answer) ∈ t

theorem Lost.mono {t' : List (Event Answer)} {id : UInt32} (h : C.Lost s₀ t id) (hsub : t ⊆ t') : C.Lost s₀ t' id := by
  obtain ⟨fd, c, conn, e, hc, hmem⟩ := h
  exact ⟨fd, c, conn, e, hc, hsub hmem⟩

/-- one device: its CRTC is set again, or it is off when its framebuffer is gone -/
theorem restore_step {saved : Ref Crtc} {a : Except Errno Unit} {id : UInt32} {s₁ s₂ : σ} (hid : saved.val.crtcId = id)
    (hsaved : dev.savedCrtc = some saved) (hdev : C.Saved s₀ dev) (hshown : C.Shown s₀ s dev) (heq : dev.crtc = id)
    (hunseen : C.Unseen s₀ dev.fb)
    (hres : C.IsSet s s₁ id (if saved.val.bufferId = 0 then none else
      some ⟨saved.val.bufferId, saved.val.x, saved.val.y, saved.val.mode⟩) a)
    (hrm : C.scan s₂ id = (C.scan s₁ id).filter fun c => c.fb ≠ dev.fb) :
    C.scan s₂ id = C.scan s₀ id ∨ C.scan s₂ id = none ∧ ∃ c e, C.scan s₀ id = some c ∧
      saved.val = ⟨id, c.fb, c.x, c.y, c.mode⟩ ∧ a = .error e := by
  subst heq
  obtain ⟨-, hlaw⟩ := hdev saved hsaved
  rcases a with e | ok
  · have hend : C.scan s₂ dev.crtc = C.scan s₀ dev.crtc ∨ C.scan s₂ dev.crtc = none := by
      rw [hrm, show C.scan s₁ dev.crtc = _ from hres]
      rcases hshown with h | h | ⟨c, hc, hfb⟩
      · rw [hunseen.filter (Or.inl h)]
        exact Or.inl h
      · rw [h]
        exact Or.inr rfl
      · rw [hc, Option.filter, if_neg (by simp [hfb])]
        exact Or.inr rfl
    rcases hend with h | h
    · exact Or.inl h
    · cases hc : C.scan s₀ dev.crtc with
      | none => exact Or.inl h
      | some c =>
        rw [hc] at hlaw
        exact Or.inr ⟨h, c, e, rfl, hlaw, rfl⟩
  · have hend : C.scan s₁ dev.crtc = C.scan s₀ dev.crtc := by
      rw [show C.scan s₁ dev.crtc = _ from hres]
      cases hc : C.scan s₀ dev.crtc with
      | none =>
        rw [hc] at hlaw
        exact if_pos hlaw
      | some c =>
        rw [hc] at hlaw
        rw [hlaw, if_neg (C.scan_fb hc)]
    rw [hrm, hunseen.filter (Or.inl hend)]
    exact Or.inl hend

/-- what the end of the program does to the displays -/
theorem cleanup_step (hr : (modesetCleanup fd list).Run t (some ()))
    (ht : Prog.Steps C.step s t s') (hcrtcs : (list.map Dev.crtc).Nodup) (hconns : (list.map Dev.conn).Nodup)
    (hunseen : C.AllUnseen s₀ list)
    (hall : ∀ dev ∈ list, C.Own s dev.crtc dev.conn ∧ C.Saved s₀ dev ∧ C.Shown s₀ s dev) :
    (∀ id, id ∉ list.map Dev.crtc → C.scan s id = C.scan s₀ id ∨ C.scan s id = none → C.scan s' id = C.scan s id) ∧
      ∀ dev ∈ list, C.scan s' dev.crtc = C.scan s₀ dev.crtc ∨ C.scan s' dev.crtc = none ∧ C.Lost s₀ t dev.crtc := by
  induction list generalizing s t with
  | nil =>
    obtain ⟨rfl, -⟩ := hr
    obtain rfl := ht
    exact ⟨fun _ _ _ => rfl, nofun⟩
  | cons dev list ih =>
    unfold modesetCleanup at hr
    cases hsaved : dev.savedCrtc with
    | none =>
      rw [hsaved] at hr
      cases hr.2
    | some saved =>
      rw [hsaved] at hr
      obtain ⟨a, t, rfl, _, t, rfl, _, t, rfl, _, t, rfl, _, t, rfl, _, t, rfl, hr⟩ := hr
      obtain ⟨s₁, hset, s₂, h₂, s₃, h₃, s₄, hrm, s₅, h₅, s₆, h₆, ht⟩ := ht
      simp only [List.map_cons, List.nodup_cons] at hcrtcs hconns
      obtain ⟨hunseen₁, hunseen⟩ := List.forall_mem_cons.1 hunseen
      obtain ⟨⟨hown, hdev, hshown⟩, hall⟩ := List.forall_mem_cons.1 hall
      have hid := (hdev saved hsaved).1
      rw [hid] at hset
      obtain ⟨hothers, -, hconn, hres⟩ := setCrtc_step hown hset
      have hfree := C.other rfl h₂
      have hunmap := C.other rfl h₃
      obtain ⟨hgone, hleft⟩ := C.rmFB hrm
      have hdestroy := C.other rfl h₅
      have hlast := C.other rfl h₆
      have hscan : ∀ id, C.scan s₆ id = (C.scan s₁ id).filter fun c => c.fb ≠ dev.fb := fun id => by
        rw [hlast.1, hdestroy.1, hgone, hunmap.1, hfree.1]
      have hroute : ∀ conn, C.route s₆ conn = C.route s₁ conn ∨ C.route s₆ conn = none := fun conn => by
        rw [hlast.2, hdestroy.2, ← hfree.2, ← hunmap.2]
        exact hleft conn
      have hne : ∀ d ∈ list, d.crtc ≠ dev.crtc ∧ d.conn ≠ dev.conn := fun d hd =>
        ⟨fun heq => hcrtcs.1 (heq ▸ List.mem_map_of_mem hd), fun heq => hconns.1 (heq ▸ List.mem_map_of_mem hd)⟩
      have hrestore := restore_step hid hsaved hdev hshown rfl hunseen₁ hres (hscan dev.crtc)
      obtain ⟨hids, hend⟩ := ih hr ht hcrtcs.2 hconns.2 hunseen fun d hd => by
        obtain ⟨hown, hsav, hsh⟩ := hall d hd
        refine ⟨(hconn _ (hne d hd).2 _ hown).same (hroute _), hsav, hsh.filter hunseen₁ ?_⟩
        rw [hscan, hothers _ (hne d hd).1]
      refine ⟨fun id hmem hid' => ?_, List.forall_mem_cons.2 ⟨?_, fun d hd => ?_⟩⟩
      · rw [List.map_cons, List.mem_cons, not_or] at hmem
        have hsame : C.scan s₆ id = C.scan s id := by
          rw [hscan, hothers id hmem.1, hunseen₁.filter hid']
        rw [hids id hmem.2 (hsame ▸ hid'), hsame]
      · rcases hrestore with h | ⟨h, c, e, hc, hval, rfl⟩
        · exact Or.inl ((hids dev.crtc hcrtcs.1 (Or.inl h)).trans h)
        · refine Or.inr ⟨(hids dev.crtc hcrtcs.1 (Or.inr h)).trans h, fd, c, dev.conn, e, hc, ?_⟩
          rw [hval]
          exact List.mem_cons_self
      · refine (hend d hd).imp_right fun h => ⟨h.1, h.2.mono fun e he => ?_⟩
        simp [he]

/-! ## The program -/

/-- no connector is given a CRTC while it has another -/
def Steady (C : Card σ) (s : σ) (t : List (Event Answer)) : Prop :=
  ∀ fd id fb x y conn mode a, (⟨.setCrtc fd id fb x y [conn] mode, a⟩ : Event Answer) ∈ t → C.Own s id conn

theorem show_sets {list' : List Dev} (hr : (modesetShow fd list).Run t (some list')) :
    ∀ dev ∈ list, ∃ a, (⟨.setCrtc fd dev.crtc dev.fb 0 0 [dev.conn] dev.mode, a⟩ : Event Answer) ∈ t := by
  induction list generalizing t list' with
  | nil => exact nofun
  | cons dev list ih =>
    obtain ⟨saved, t, rfl, set, t, rfl, hr⟩ := hr
    rcases (Prog.run_bind (p := modesetShow fd list)).1 hr with ⟨t₁, t₂, list₁, rfl, hr₁, rfl, -⟩ | ⟨-, hfault⟩
    · refine List.forall_mem_cons.2 ⟨⟨set, by simp⟩, fun d hd => ?_⟩
      obtain ⟨a, ha⟩ := ih hr₁ d hd
      exact ⟨a, by simp [ha]⟩
    · cases hfault

theorem display_of_draws (c : Call) (h : c.draws = true) : c.display = false := by
  cases c <;> first | rfl | cases h

/-- showing the devices, drawing and cleaning up -/
theorem present_step (hr : (present fd list).Run t (some ())) (ht : Prog.Steps C.step s t s') (hkeeps : C.Keeps s₀ s)
    (hunseen : C.AllUnseen s₀ list) (hsteady : C.Steady s₀ t) (hcrtcs : (list.map Dev.crtc).Nodup)
    (hconns : (list.map Dev.conn).Nodup) (id : UInt32) :
    C.scan s' id = C.scan s₀ id ∨ C.scan s' id = none ∧ C.Lost s₀ t id := by
  rcases Prog.run_bind.1 hr with ⟨t₁, t₂, list', rfl, hr₁, hr₂⟩ | ⟨-, hfault⟩
  swap
  · cases hfault
  rcases Prog.run_bind.1 hr₂ with ⟨t₂, t₃, _, rfl, hr₂, hr₃⟩ | ⟨-, hfault⟩
  swap
  · cases hfault
  obtain ⟨s₁, ht₁, ht₂⟩ := Prog.steps_append.1 ht
  obtain ⟨s₂, ht₂, ht₃⟩ := Prog.steps_append.1 ht₂
  have hown : ∀ dev ∈ list, C.Own s dev.crtc dev.conn := by
    intro dev hdev
    obtain ⟨a, ha⟩ := show_sets hr₁ dev hdev
    exact (hsteady _ _ _ _ _ _ _ _ (List.mem_append_left _ ha)).same (hkeeps.2 dev.conn)
  have hscan : ∀ dev ∈ list, C.scan s dev.crtc = C.scan s₀ dev.crtc := fun dev _ => by rw [hkeeps.1]
  obtain ⟨hids, -, hall⟩ := show_step hr₁ ht₁ hcrtcs hconns hown hscan
  have hdraw : C.scan s₂ = C.scan s₁ ∧ C.route s₂ = C.route s₁ := by
    refine Prog.steps_keep (I := fun s => C.scan s = C.scan s₁ ∧ C.route s = C.route s₁) (fun e he s s' hs hstep => ?_)
      ht₂ ⟨rfl, rfl⟩
    have hquiet := (confined_draw (B := fun _ => False) (fun _ h => h) (fun _ _ _ _ h => h) _ _ hr₂).1 e he
    obtain ⟨hscan, hroute⟩ := C.other (display_of_draws _ hquiet) hstep
    exact ⟨hscan.trans hs.1, hroute.trans hs.2⟩
  obtain ⟨hbare, -⟩ := show_bare hr₁
  have hmap : ∀ {α : Type} (key : Dev → α), (∀ dev : Dev, key dev.bare = key dev) → list'.map key = list.map key := by
    intro α key hkey
    have heq := congrArg (List.map key) hbare
    rw [List.map_map, List.map_map] at heq
    simpa only [Function.comp_def, hkey] using heq
  have hcrtc := hmap Dev.crtc fun _ => rfl
  have hunseen' : C.AllUnseen s₀ list' := by
    intro dev hdev
    have hfb : dev.fb ∈ list.map Dev.fb := hmap Dev.fb (fun _ => rfl) ▸ List.mem_map_of_mem hdev
    obtain ⟨dev', hdev', heq⟩ := List.mem_map.1 hfb
    exact heq ▸ hunseen dev' hdev'
  obtain ⟨hothers, hend⟩ := cleanup_step hr₃ ht₃ (hcrtc ▸ hcrtcs) (hmap Dev.conn (fun _ => rfl) ▸ hconns) hunseen'
    fun dev hdev => by
      obtain ⟨hown, hsaved, hshown⟩ := hall dev hdev
      exact ⟨hown.same (Or.inl (by rw [hdraw.2])), hsaved, by rwa [Shown, hdraw.1]⟩
  by_cases hid : id ∈ list'.map Dev.crtc
  · obtain ⟨dev, hdev, rfl⟩ := List.mem_map.1 hid
    exact (hend dev hdev).imp_right fun h => ⟨h.1, h.2.mono fun e he => by simp [he]⟩
  · have hsame : C.scan s₂ id = C.scan s₀ id := by
      rw [hdraw.1, hids id (hcrtc ▸ hid), hkeeps.1]
    exact Or.inl ((hothers id hid (Or.inl hsame)).trans hsame)

/-- **The displays are put back.** If no connector is given a CRTC while it has another, then after a run that ends every
CRTC scans out what it did before, or it is off because it could not be set again. -/
theorem main_restores (C : Card σ) (argv : List String) (t : List (Event Answer)) (r : Except Errno Unit) (s s' : σ)
    (hr : (main argv).Run t (some r)) (ht : Prog.Steps C.step s t s') (hsteady : C.Steady s t)
    (hconns : (connected t).Nodup) (id : UInt32) :
    C.scan s' id = C.scan s id ∨ C.scan s' id = none ∧ C.Lost s t id := by
  rcases Prog.run_bind.1 hr with ⟨t₁, t₂, fd, rfl, hopen, hrest⟩ | ⟨-, hfault⟩
  swap
  · cases hfault
  obtain ⟨s₁, ht₁, htrest⟩ := Prog.steps_append.1 ht
  have hkeeps₁ := hoare_quiet (C := C) (I := C.Keeps s) (sure_open _) display_of_looks (fun _ _ => Keeps.same) s t₁ s₁ _
    Keeps.refl hopen ht₁
  rcases fd with ret | fd
  · obtain ⟨rfl, -⟩ := hrest
    obtain rfl := htrest
    exact Or.inl (by rw [hkeeps₁.1])
  rcases (Prog.run_bind (p := modesetPrepare fd [])).1 hrest with ⟨t₂, t₃, list, rfl, hprepare, hmain⟩ | ⟨-, hfault⟩
  swap
  · cases hfault
  obtain ⟨s₂, ht₂, htmain⟩ := Prog.steps_append.1 htrest
  obtain ⟨hkeeps₂, hunseen⟩ := hoare_prepare s₁ t₂ s₂ _ hkeeps₁ hprepare ht₂
  rcases list with ret | list
  · obtain ⟨_, t₃, rfl, rfl, -⟩ := hmain
    obtain ⟨s₃, hclose, rfl⟩ := htmain
    exact Or.inl (by rw [(C.other rfl hclose).1, hkeeps₂.1])
  rcases (Prog.run_bind (p := present fd list)).1 hmain with ⟨t₃, t₄, _, rfl, hpresent, _, t₅, rfl, rfl, -⟩ | ⟨-, hfault⟩
  swap
  · cases hfault
  obtain ⟨s₃, ht₃, s₄, hclose, rfl⟩ := Prog.steps_append.1 htmain
  have hlist : ((list.map Dev.conn).reverse).Sublist (connected t₂) :=
    prepare_order (fun _ _ _ _ => Answered.mem_connected) hprepare
  have hsub : (connected t₂).Sublist (connected (t₁ ++ (t₂ ++ (t₃ ++ [⟨.close fd, ()⟩])))) :=
    List.Sublist.filterMap _ ((List.sublist_append_left _ _).trans (List.sublist_append_right _ _))
  have hnodup : (list.map Dev.conn).Nodup := List.nodup_reverse.1 (hconns.sublist (hlist.trans hsub))
  have hsteady' : C.Steady s t₃ := fun fd id fb x y conn mode a he => hsteady fd id fb x y conn mode a (by simp [he])
  rw [(C.other rfl hclose).1]
  refine (present_step hpresent ht₃ hkeeps₂ (hunseen list rfl) hsteady' (prepare_run hprepare).1 hnodup id).imp_right ?_
  exact fun h => ⟨h.1, h.2.mono fun e he => by simp [he]⟩

/-! ## A card with one CRTC -/

/-- CRTC 41 scans out the state, for connector 31 -/
def oneScan (s : Option Scan) (id : UInt32) : Option Scan := if id = 41 then s.filter fun c => c.fb ≠ 0 else none

def oneConfig (s : Option Scan) (id : UInt32) : Crtc :=
  match oneScan s id with
  | some c => ⟨id, c.fb, c.x, c.y, c.mode⟩
  | none => ⟨id, 0, 0, 0, ⟨0, 0, 0⟩⟩

def oneStep (s : Option Scan) : Event Answer → Option Scan → Prop
  | ⟨.getCrtc _ id, crtc⟩, s' => s' = s ∧ ∀ c, crtc = some c → c.val = oneConfig s id
  | ⟨.setCrtc _ id fb x y conn mode, .ok _⟩, s' => id = 41 ∧ conn = [31] ∧ fb ≠ 0 ∧ s' = some ⟨fb, x, y, mode⟩
  | ⟨.addFB _ _ _ _ _ _ _, fb⟩, s' => s' = s ∧ ∀ c, s = some c → fb ≠ .ok c.fb
  | ⟨.rmFB _ fb, _⟩, s' => s' = s.filter fun c => c.fb ≠ fb
  | _, s' => s' = s

def oneCard : Card (Option Scan) where
  step := oneStep
  scan := oneScan
  route _ conn := if conn = 31 then some 41 else none
  scan_fb := by
    intro s id c h
    unfold oneScan at h
    split_ifs at h
    simpa using (Option.filter_eq_some_iff.1 h).2
  getCrtc := by
    rintro s s' fd id crtc ⟨-, h⟩
    rw [h crtc rfl, oneConfig]
    cases oneScan s id
    · exact ⟨rfl, rfl⟩
    · exact ⟨rfl, rfl⟩
  getCrtc_same := by
    rintro s _ fd id a ⟨rfl, -⟩
    exact ⟨rfl, rfl⟩
  setCrtc := by
    rintro s _ fd id fb x y conn mode ⟨rfl, hconn, hfb, rfl⟩
    obtain rfl : conn = 31 := by simpa using hconn
    refine ⟨?_, Or.inl rfl, fun _ _ => Or.inl rfl, fun id' hne _ => ?_⟩
    · simp [oneScan, hfb]
    · rw [oneScan, oneScan, if_neg hne, if_neg hne]
  setCrtc_error := by
    rintro s _ fd id fb x y conn mode e rfl
    exact ⟨rfl, rfl⟩
  addFB := by
    rintro s _ fd width height depth bpp pitch handle fb ⟨rfl, h⟩
    refine ⟨rfl, rfl, fun id c hc heq => ?_⟩
    unfold oneScan at hc
    split_ifs at hc
    exact h c (Option.filter_eq_some_iff.1 hc).1 (by rw [heq])
  addFB_error := by
    rintro s _ fd width height depth bpp pitch handle e ⟨rfl, -⟩
    exact ⟨rfl, rfl⟩
  rmFB := by
    rintro s _ fd fb a rfl
    refine ⟨fun id => ?_, fun _ => Or.inl rfl⟩
    unfold oneScan
    split_ifs
    · rw [Option.filter_filter, Option.filter_filter]
      exact congrArg (fun p => Option.filter p s) (funext fun c => Bool.and_comm _ _)
    · rfl
  other := by
    rintro s s' ⟨c, a⟩ hc h
    cases c <;> first | (obtain rfl : s' = s := h; exact ⟨rfl, rfl⟩) | cases hc

/-- the screen of before, with the CRTC behind it -/
def oneDisplay : Prog.World Answer (Option Scan)
  | .getCrtc _ id, s => (some ⟨700, oneConfig s id⟩, s)
  | .setCrtc _ id fb x y conn mode, s =>
    if id = 41 ∧ conn = [31] ∧ fb ≠ 0 then (.ok (), some ⟨fb, x, y, mode⟩) else (.error .ENOENT, s)
  | .addFB _ _ _ _ _ _ _, s => if s.all fun c => c.fb ≠ 61 then (.ok 61, s) else (.error .EFAULT, s)
  | .rmFB _ fb, s => ((), s.filter fun c => c.fb ≠ fb)
  | c, s => ((oneScreen c ()).1, s)

theorem oneDisplay_step (c : Call) (s : Option Scan) : oneCard.step s ⟨c, (oneDisplay c s).1⟩ (oneDisplay c s).2 := by
  cases c
  case getCrtc fd id =>
    refine ⟨rfl, ?_⟩
    rintro _ ⟨⟩
    rfl
  case setCrtc fd id fb x y conn mode =>
    simp only [oneDisplay]
    split_ifs with h
    · exact ⟨h.1, h.2.1, h.2.2, rfl⟩
    · rfl
  case addFB fd width height depth bpp pitch handle =>
    simp only [oneDisplay]
    split_ifs with h
    · refine ⟨rfl, ?_⟩
      rintro c rfl heq
      have hfb : c.fb = 61 := (Except.ok.inj heq).symm
      simp [hfb] at h
    · exact ⟨rfl, fun c _ => nofun⟩
  all_goals rfl

/-- what was on the screen before -/
def before : Option Scan := some ⟨60, 0, 0, ⟨1, 1, 60⟩⟩

/-- connector 31 is set to CRTC 41 alone -/
def steady : Event Answer → Bool
  | ⟨.setCrtc _ id _ _ _ [conn] _, _⟩ => conn ≠ 31 || id = 41
  | _ => true

set_option maxRecDepth 4000 in
theorem main_restores_oneDisplay : oneCard.scan ((main []).played oneDisplay before).2.2 41 = oneCard.scan before 41 ∨
    oneCard.scan ((main []).played oneDisplay before).2.2 41 = none ∧
      oneCard.Lost before ((main []).played oneDisplay before).1 41 :=
  main_restores oneCard [] _ (.ok ()) before _ (Prog.run_played oneDisplay (main []) before)
    (Prog.steps_played oneDisplay_step (main []) before)
    (fun fd id fb x y conn mode a he => by
      have hall : ((main []).played oneDisplay before).1.all steady = true := by decide
      have hone := List.all_eq_true.1 hall _ he
      by_cases hconn : conn = 31
      · exact Or.inr (by simpa [steady, oneCard, hconn] using (show id = 41 by simpa [steady, hconn] using hone).symm)
      · exact Or.inl (if_neg hconn))
    (by decide) 41

end Card

end Hodgepodge.Drm
