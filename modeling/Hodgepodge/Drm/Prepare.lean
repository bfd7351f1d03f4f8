/-
What the setup of `tdrm1.c` arrives at: the CRTC that a connector gets, and the list of devices.

Results:
- `findCrtc_first`: a connector gets the first CRTC offered that no device has.
- `prepare_devices`: no two devices have the same CRTC, and each one is what was answered for its connector.
-/
import Hodgepodge.Drm.Modeset

namespace Hodgepodge.Drm

open Hodgepodge.Core

variable {fd : Fd} {list : List Dev} {res : Res} {conn : Connector} {dev : Dev}

/-! ## Which CRTC a connector gets -/

/-- a CRTC that no device has; the program keeps the number in a signed variable, where -1 stands for none -/
def Usable (list : List Dev) (crtc : UInt32) : Prop := crtc ∉ list.map Dev.crtc ∧ crtc.toNat < 2147483648

instance : DecidablePred (Usable list) := fun _ => by unfold Usable; infer_instance

/-- the CRTCs that an encoder can work with -/
def works (res : Res) (enc : Encoder) : List UInt32 :=
  (res.crtcs.zipIdx.filter fun crtc => enc.possibleCrtcs.toNat.testBit crtc.2).map Prod.fst

/-- the CRTC that an encoder has -/
def current (enc : Encoder) : List UInt32 := [enc.crtcId].filter (· ≠ 0)

/-- the CRTCs that a connector is offered in turn if these are the encoders the search has been told of -/
def offers (res : Res) (conn : Connector) (encs : List (Option Encoder)) : List UInt32 :=
  if conn.encoderId ≠ 0 then
    ((encs.take 1).filterMap id).flatMap current ++ (encs.tail.filterMap id).flatMap (works res)
  else (encs.filterMap id).flatMap (works res)

/-- the encoders that the search asks for if nothing is found before -/
def order (conn : Connector) : List UInt32 := [conn.encoderId].filter (· ≠ 0) ++ conn.encoders

/-- the encoders asked for in a run, with the answers -/
def asked (t : List (Event Answer)) : List (UInt32 × Option Encoder) := t.filterMap fun
  | ⟨.getEncoder _ id, enc⟩ => some (id, enc.map Ref.val)
  | _ => none

theorem nonneg_iff {crtc : UInt32} : 0 ≤ crtc.toInt32 ↔ crtc.toNat < 2147483648 := by
  have hlt := crtc.toNat_lt
  have hint : crtc.toInt32.toInt = crtc.toBitVec.toInt := rfl
  rw [Int32.le_iff_toInt_le, hint, BitVec.toInt_eq_toNat_cond]
  simp only [Int32.toInt_zero, UInt32.toNat_toBitVec]
  split <;> omega

theorem unused_eq {crtc : UInt32} :
    unused list crtc.toInt32 = if crtc ∈ list.map Dev.crtc then -1 else crtc.toInt32 := by
  induction list with
  | nil => rfl
  | cons dev list ih =>
    rw [unused, UInt32.toUInt32_toInt32, ih]
    by_cases h : dev.crtc = crtc
    · simp [h]
    · simp [h, Ne.symm h]

theorem unused_iff {crtc : UInt32} : 0 ≤ unused list crtc.toInt32 ↔ Usable list crtc := by
  rw [unused_eq, Usable]
  split_ifs with h
  · simp [h]
  · simp [h, nonneg_iff]

theorem Usable.unused_eq {crtc : UInt32} (h : Usable list crtc) : (unused list crtc.toInt32).toUInt32 = crtc := by
  rw [Drm.unused_eq, if_neg h.1, UInt32.toUInt32_toInt32]

/-- the test of a bit of `possible_crtcs` -/
theorem mask_eq_zero {mask : UInt32} {j : ℕ} (hj : j < 32) :
    mask &&& (1 <<< j.toUInt32) = 0 ↔ ¬ mask.toNat.testBit j := by
  have hmod : j.toUInt32.toNat % 32 = j := by
    have hof := UInt32.toNat_ofNat' (n := j)
    simp only [Nat.toUInt32]
    omega
  have hshift : (1 <<< j.toUInt32 : UInt32).toBitVec = BitVec.twoPow 32 j := by
    apply BitVec.eq_of_toNat_eq
    rw [UInt32.toNat_toBitVec, UInt32.toNat_shiftLeft, hmod, BitVec.toNat_twoPow, Nat.shiftLeft_eq]
    simp
  have hne : BitVec.twoPow 32 j ≠ 0 := by
    intro hzero
    have hbit := congrArg (fun bits => bits.getLsbD j) hzero
    simp [hj] at hbit
  have hmask : mask.toNat.testBit j = mask.toBitVec.getLsbD j := rfl
  rw [← UInt32.toBitVec_inj, UInt32.toBitVec_and, hshift, BitVec.and_twoPow, hmask, UInt32.toBitVec_zero]
  split <;> simp_all

theorem tryCrtcs_eq {mask : UInt32} {j : ℕ} {crtcs : List UInt32} (hj : j + crtcs.length ≤ 32) :
    tryCrtcs list mask j crtcs =
      (((crtcs.zipIdx j).filter fun crtc => mask.toNat.testBit crtc.2).map Prod.fst).find? (Usable list) := by
  induction crtcs generalizing j with
  | nil => rfl
  | cons id crtcs ih =>
    rw [List.length_cons] at hj
    have hrest := ih (j := j + 1) (by omega)
    rw [tryCrtcs, List.zipIdx_cons]
    simp only [mask_eq_zero (show j < 32 by omega), unused_iff]
    by_cases hbit : mask.toNat.testBit j
    · by_cases huse : Usable list id
      · simp [hbit, huse, huse.unused_eq]
      · simp [hbit, huse, hrest]
    · simp [hbit, hrest]

/-- the answers to a search, as `offers` takes them -/
def told (t : List (Event Answer)) : List (Option Encoder) := (asked t).map Prod.snd

@[simp] theorem asked_getEncoder {id : UInt32} {enc : Option (Ref Encoder)} {t : List (Event Answer)} :
    asked (⟨.getEncoder fd id, enc⟩ :: t) = (id, enc.map Ref.val) :: asked t := rfl

@[simp] theorem asked_freeEncoder {ptr : Ptr} {u : Unit} {t : List (Event Answer)} :
    asked (⟨.freeEncoder ptr, u⟩ :: t) = asked t := rfl

/-- the CRTCs that these encoders can work with -/
def worksAll (res : Res) (encs : List (Option Encoder)) : List UInt32 := (encs.filterMap id).flatMap (works res)

theorem mem_worksAll_dropLast {enc : Option Encoder} {encs : List (Option Encoder)} {crtc : UInt32}
    (h : crtc ∈ worksAll res (enc :: encs).dropLast) :
    crtc ∈ worksAll res [enc] ∨ crtc ∈ worksAll res encs.dropLast := by
  cases encs with
  | nil => cases h
  | cons enc' encs =>
    rw [List.dropLast_cons_cons, worksAll, List.filterMap_cons] at h
    cases enc with
    | none => exact Or.inr h
    | some enc => simpa [worksAll] using h

theorem tryEncoders_run {encoders : List UInt32} {t : List (Event Answer)} {o : Option (Option UInt32)}
    (h : (tryEncoders fd list res encoders).Run t o) :
    ∃ r, o = some r ∧ r = (worksAll res (told t)).find? (Usable list) ∧
      (∀ crtc ∈ worksAll res (told t).dropLast, ¬ Usable list crtc) ∧
      (asked t).map Prod.fst <+: encoders ∧ (r = none → (asked t).map Prod.fst = encoders) := by
  induction encoders generalizing t with
  | nil =>
    obtain ⟨rfl, rfl⟩ := h
    exact ⟨none, rfl, rfl, nofun, List.prefix_rfl, fun _ => rfl⟩
  | cons id encoders ih =>
    rw [tryEncoders, Prog.run_ask_bind] at h
    obtain ⟨enc, t, rfl, h⟩ := h
    rcases enc with _ | enc
    · obtain ⟨r, rfl, hr, hmin, hpre, hall⟩ := ih h
      refine ⟨r, rfl, by simpa [told, worksAll] using hr, fun crtc hcrtc => ?_, ?_, fun hnone => ?_⟩
      · exact (mem_worksAll_dropLast hcrtc).elim nofun (hmin crtc)
      · simpa using hpre
      · simpa using hall hnone
    have htry : tryCrtcs list enc.val.possibleCrtcs 0 res.crtcs = (works res enc.val).find? (Usable list) :=
      tryCrtcs_eq (by simpa using res.crtcs_le)
    dsimp only at h
    rw [htry] at h
    cases hfind : (works res enc.val).find? (Usable list) with
    | some crtc =>
      rw [hfind] at h
      obtain ⟨_, t, rfl, rfl, rfl⟩ := h
      refine ⟨some crtc, rfl, ?_, nofun, ?_, nofun⟩
      · simp [told, asked, worksAll, hfind]
      · simp [asked]
    | none =>
      rw [hfind] at h
      obtain ⟨_, t, rfl, h⟩ := h
      obtain ⟨r, rfl, hr, hmin, hpre, hall⟩ := ih h
      refine ⟨r, rfl, ?_, fun crtc hcrtc => ?_, ?_, fun hnone => ?_⟩
      · simpa [told, worksAll, hfind] using hr
      · rcases mem_worksAll_dropLast hcrtc with hcrtc | hcrtc
        · have hmem : crtc ∈ works res enc.val := by simpa [worksAll] using hcrtc
          simpa using List.find?_eq_none.1 hfind crtc hmem
        · exact hmin crtc hcrtc
      · simpa using hpre
      · simpa using hall hnone

theorem currentCrtc_run {t : List (Event Answer)} {o : Option (Option UInt32)}
    (h : (currentCrtc fd list conn).Run t o) :
    (asked t).map Prod.fst = [conn.encoderId].filter (· ≠ 0) ∧
      o = some ((((told t).filterMap id).flatMap current).find? (Usable list)) := by
  unfold currentCrtc currentEncoder at h
  by_cases hid : conn.encoderId = 0
  · rw [if_neg (not_not.2 hid)] at h
    obtain ⟨rfl, rfl⟩ := h
    exact ⟨by simp [hid, asked], rfl⟩
  rw [if_pos hid, Prog.run_ask_bind] at h
  obtain ⟨enc, t, rfl, h⟩ := h
  rcases enc with _ | enc
  · obtain ⟨rfl, rfl⟩ := h
    exact ⟨by simp [hid, asked], rfl⟩
  have hcur : (current enc.val).find? (Usable list) =
      if enc.val.crtcId ≠ 0 ∧ Usable list enc.val.crtcId then some enc.val.crtcId else none := by
    by_cases hzero : enc.val.crtcId = 0
    · simp [current, hzero]
    · by_cases huse : Usable list enc.val.crtcId
      · simp [current, hzero, huse]
      · simp [current, hzero, huse]
  simp only [unused_iff] at h
  split_ifs at h with huse
  · obtain ⟨_, t, rfl, rfl, rfl⟩ := h
    refine ⟨by simp [hid, asked], ?_⟩
    simp [told, asked, hcur, huse, huse.2.unused_eq]
  · obtain ⟨_, t, rfl, rfl, rfl⟩ := h
    refine ⟨by simp [hid, asked], ?_⟩
    simp [told, asked, hcur, huse]

theorem told_append {t₁ t₂ : List (Event Answer)} : told (t₁ ++ t₂) = told t₁ ++ told t₂ := by
  rw [told, asked, List.filterMap_append, List.map_append]
  rfl

/-- what was asked about the CRTC that the connector has comes first -/
theorem offers_append {t : List (Event Answer)} (h : (asked t).map Prod.fst = [conn.encoderId].filter (· ≠ 0))
    (encs : List (Option Encoder)) :
    offers res conn (told t ++ encs) = ((told t).filterMap id).flatMap current ++ worksAll res encs := by
  rw [offers]
  by_cases hid : conn.encoderId = 0
  · have hnil : told t = [] := by simpa [hid, told] using h
    rw [if_neg (not_not.2 hid), hnil]
    rfl
  · obtain ⟨enc, hone⟩ : ∃ enc, told t = [enc] := by
      have hlen := congrArg List.length h
      exact List.length_eq_one_iff.1 (by simpa [hid, told] using hlen)
    rw [if_pos hid, hone]
    rfl

/-- nothing is offered before the first answer -/
theorem offers_dropLast {t : List (Event Answer)} (h : (asked t).map Prod.fst = [conn.encoderId].filter (· ≠ 0)) :
    offers res conn (told t).dropLast = [] := by
  have hshort : (told t).dropLast = [] := by
    refine List.eq_nil_of_length_eq_zero ?_
    have hlen := congrArg List.length h
    have hle : ([conn.encoderId].filter (· ≠ 0)).length ≤ 1 := List.length_filter_le _ _
    rw [List.length_map] at hlen
    rw [List.length_dropLast, told, List.length_map]
    omega
  rw [hshort, offers]
  split_ifs <;> rfl

/-- **The search takes the first CRTC that it can.** It goes through what the connector has and through its encoders,
asks for the next one only while nothing that it was offered is usable, and gives up when it has asked for all of
them. -/
theorem findCrtc_first (fd : Fd) (list : List Dev) (res : Res) (conn : Connector) (dev : Dev) (t : List (Event Answer))
    (o : Option (Except Errno Dev)) (h : (modesetFindCrtc fd list res conn dev).Run t o) :
    (asked t).map Prod.fst <+: order conn ∧
      (∀ crtc ∈ offers res conn (told t).dropLast, ¬ Usable list crtc) ∧
      match (offers res conn (told t)).find? (Usable list) with
      | some crtc => o = some (.ok { dev with crtc := crtc })
      | none => o = some (.error .ENOENT) ∧ (asked t).map Prod.fst = order conn := by
  unfold modesetFindCrtc at h
  rcases Prog.run_bind.1 h with ⟨t₁, t₂, r₁, rfl, h₁, h⟩ | ⟨h₁, -⟩
  · obtain ⟨hids, hr⟩ := currentCrtc_run h₁
    have happ : (asked (t₁ ++ t₂)).map Prod.fst = [conn.encoderId].filter (· ≠ 0) ++ (asked t₂).map Prod.fst := by
      rw [asked, List.filterMap_append, List.map_append, ← hids]
      rfl
    rw [happ, told_append, offers_append hids, List.find?_append, ← Option.some.inj hr]
    rcases r₁ with _ | crtc
    · rcases Prog.run_bind.1 h with ⟨t₂, t₃, r₂, rfl, h₂, h⟩ | ⟨h₂, -⟩
      · obtain ⟨r, hr₂, hfind, hmin, hpre, hall⟩ := tryEncoders_run h₂
        obtain rfl := Option.some.inj hr₂
        have hbefore : ∀ crtc ∈ offers res conn (told t₁ ++ told t₂).dropLast, ¬ Usable list crtc := by
          intro crtc hcrtc
          by_cases hnil : told t₂ = []
          · rw [hnil, List.append_nil, offers_dropLast hids] at hcrtc
            cases hcrtc
          · rw [List.dropLast_append_of_ne_nil hnil, offers_append hids] at hcrtc
            rcases List.mem_append.1 hcrtc with hcrtc | hcrtc
            · simpa using List.find?_eq_none.1 (Option.some.inj hr).symm crtc hcrtc
            · exact hmin crtc hcrtc
        rcases r₂ with _ | crtc
        · obtain ⟨rfl, rfl⟩ := h
          rw [List.append_nil, ← hfind, hall rfl]
          exact ⟨List.prefix_rfl, hbefore, rfl, rfl⟩
        · obtain ⟨rfl, rfl⟩ := h
          rw [List.append_nil, ← hfind]
          exact ⟨(List.prefix_append_right_inj _).2 hpre, hbefore, rfl⟩
      · obtain ⟨r, hr, -⟩ := tryEncoders_run h₂
        cases hr
    · obtain ⟨rfl, rfl⟩ := h
      refine ⟨(List.prefix_append_right_inj _).2 List.nil_prefix, ?_, rfl⟩
      have hnone : told ([] : List (Event Answer)) = [] := rfl
      rw [hnone, List.append_nil, offers_dropLast hids]
      nofun
  · have hnone := (currentCrtc_run h₁).2
    cases hnone

/-- a card on which the connector has an encoder without a CRTC, and the one behind it is not asked for -/
def idleEncoder : Prog.World Answer Unit
  | .getEncoder _ id, s => (some ⟨500, ⟨0, if id = 51 then 2 else 1⟩⟩, s)
  | c, s => oneScreen c s

theorem findCrtc_first_idle : ((modesetFindCrtc 3 [] ⟨[31], [41, 42], by decide⟩
    ⟨31, 51, .connected, [⟨1, 1, 60⟩], [51, 52]⟩ (Dev.zero 7)).played idleEncoder ()).2.1 =
      some (.ok { Dev.zero 7 with crtc := 42 }) :=
  (findCrtc_first 3 [] ⟨[31], [41, 42], by decide⟩ ⟨31, 51, .connected, [⟨1, 1, 60⟩], [51, 52]⟩ (Dev.zero 7) _ _
    (Prog.run_played idleEncoder _ ())).2.2

/-! ## The devices of the list -/

/-- `crtc` is what some encoder had or can work with -/
def Offered (t : List (Event Answer)) (res : Res) (crtc : UInt32) : Prop :=
  ∃ enc, some enc ∈ told t ∧ (crtc ∈ current enc ∨ crtc ∈ works res enc)

/-- the calls that make the buffer of a device, with their answers -/
def bufferCalls (fd : Fd) (dev : Dev) (creq : Dumb) (offset : UInt64) : List (Event Answer) :=
  [⟨.createDumb fd dev.width dev.height 32, .ok creq⟩,
    ⟨.addFB fd dev.width dev.height 24 32 creq.pitch creq.handle, .ok dev.fb⟩,
    ⟨.mapDumb fd creq.handle, .ok offset⟩,
    ⟨.mmap fd creq.size.toUInt32 offset, .ok dev.map⟩,
    ⟨.clear dev.map creq.size.toUInt32, ()⟩]

/-- a device is what was answered for its connector; `setup` are the calls of its `modeset_setup_dev` -/
structure Fits (fd : Fd) (setup : List (Event Answer)) (res : Res) (conn : Connector) (dev : Dev) : Prop where
  connected : conn.connection = .connected
  mode : conn.modes.head? = some dev.mode
  size : dev.width = dev.mode.hdisplay.toUInt32 ∧ dev.height = dev.mode.vdisplay.toUInt32
  crtc : Offered setup res dev.crtc
  buffer : ∃ creq offset, bufferCalls fd dev creq offset <:+ setup ∧
    dev.stride = creq.pitch ∧ dev.size = creq.size.toUInt32 ∧ dev.handle = creq.handle

/-- a device of one of the connectors that were answered, from the calls that follow this answer -/
def Answered (fd : Fd) (t : List (Event Answer)) (res : Res) (dev : Dev) : Prop :=
  ∃ id conn ptr list setup,
    (⟨.getConnector fd id, some conn⟩ :: ⟨.malloc, some ptr⟩ :: setup : List (Event Answer)) <:+: t ∧
      (modesetSetupDev fd list res conn.val { Dev.zero ptr with conn := conn.val.connectorId }).Run setup
        (some (.ok dev)) ∧
      conn.val.connectorId = dev.conn ∧ Fits fd setup res conn.val dev

/-- the connectors that were answered to be connected -/
def connected (t : List (Event Answer)) : List UInt32 := t.filterMap fun
  | ⟨.getConnector _ _, some conn⟩ => if conn.val.connection = .connected then some conn.val.connectorId else none
  | _ => none

theorem told_subset {t t' : List (Event Answer)} (h : t ⊆ t') : told t ⊆ told t' :=
  List.map_subset _ (List.filterMap_subset _ h)

theorem Offered.mono {t t' : List (Event Answer)} {crtc : UInt32} (h : Offered t res crtc) (hsub : t ⊆ t') :
    Offered t' res crtc := by
  obtain ⟨enc, hmem, h⟩ := h
  exact ⟨enc, told_subset hsub hmem, h⟩

theorem Answered.mono {t t' : List (Event Answer)} (h : Answered fd t res dev) (hsub : t <:+: t') :
    Answered fd t' res dev := by
  obtain ⟨id, conn, ptr, list, setup, hsetup, h⟩ := h
  exact ⟨id, conn, ptr, list, setup, hsetup.trans hsub, h⟩

/-- the calls that make the buffer are among those of the run -/
theorem Answered.buffer {t : List (Event Answer)} (h : Answered fd t res dev) :
    ∃ creq offset, bufferCalls fd dev creq offset ⊆ t ∧ dev.stride = creq.pitch ∧ dev.size = creq.size.toUInt32 := by
  obtain ⟨id, conn, ptr, list, setup, hsetup, -, -, hfits⟩ := h
  obtain ⟨creq, offset, hcalls, hstride, hsize, -⟩ := hfits.buffer
  refine ⟨creq, offset, fun e he => hsetup.subset ?_, hstride, hsize⟩
  exact List.mem_cons_of_mem _ (List.mem_cons_of_mem _ (hcalls.subset he))

theorem findCrtc_run {t : List (Event Answer)} {dev' : Dev}
    (h : (modesetFindCrtc fd list res conn dev).Run t (some (.ok dev'))) :
    ∃ crtc, dev' = { dev with crtc := crtc } ∧ Usable list crtc ∧ Offered t res crtc := by
  unfold modesetFindCrtc at h
  rcases Prog.run_bind.1 h with ⟨t₁, t₂, r, rfl, h₁, h₂⟩ | ⟨-, hfault⟩
  swap
  · cases hfault
  rcases r with _ | crtc
  · rcases Prog.run_bind.1 h₂ with ⟨t₂, t₃, r, rfl, h₂, h₃⟩ | ⟨-, hfault⟩
    swap
    · cases hfault
    obtain ⟨_, hr, rfl, -⟩ := tryEncoders_run h₂
    rcases r with _ | crtc
    · cases h₃.2
    · obtain ⟨rfl, hok⟩ := h₃
      cases hok
      have hfind := (Option.some.inj hr).symm
      obtain ⟨enc, henc, hmem⟩ := List.mem_flatMap.1 (List.mem_of_find?_eq_some hfind)
      have htold : some enc ∈ told t₂ := by simpa using henc
      refine ⟨crtc, rfl, by simpa using List.find?_some hfind, enc, ?_, Or.inr hmem⟩
      simp [told_append, htold]
  · obtain ⟨rfl, hok⟩ := h₂
    cases hok
    have hfind := (Option.some.inj (currentCrtc_run h₁).2).symm
    obtain ⟨enc, henc, hmem⟩ := List.mem_flatMap.1 (List.mem_of_find?_eq_some hfind)
    have htold : some enc ∈ told t₁ := by simpa using henc
    exact ⟨crtc, rfl, by simpa using List.find?_some hfind, enc, by simp [htold], Or.inl hmem⟩

theorem createFb_run {t : List (Event Answer)} {dev' : Dev} (h : (modesetCreateFb fd dev).Run t (some (.ok dev'))) :
    ∃ creq offset, t = bufferCalls fd dev' creq offset ∧ dev' = { dev with
      stride := creq.pitch, size := creq.size.toUInt32, handle := creq.handle, fb := dev'.fb, map := dev'.map } := by
  obtain ⟨creq, t, rfl, h⟩ := h
  rcases creq with ret | creq
  · cases h.2
  obtain ⟨fb, t, rfl, h⟩ := h
  rcases fb with ret | fb
  · obtain ⟨_, t, rfl, rfl, h⟩ := h
    cases h
  obtain ⟨offset, t, rfl, h⟩ := h
  rcases offset with ret | offset
  · obtain ⟨_, t, rfl, _, t', rfl, rfl, h⟩ := h
    cases h
  obtain ⟨map, t, rfl, h⟩ := h
  rcases map with ret | map
  · obtain ⟨_, t, rfl, _, t', rfl, rfl, h⟩ := h
    cases h
  obtain ⟨_, t, rfl, rfl, h⟩ := h
  cases h
  exact ⟨creq, offset, rfl, rfl⟩

theorem setupDev_run {t : List (Event Answer)} {dev' : Dev}
    (h : (modesetSetupDev fd list res conn dev).Run t (some (.ok dev'))) :
    Fits fd t res conn dev' ∧ Usable list dev'.crtc ∧ dev'.conn = dev.conn := by
  unfold modesetSetupDev at h
  split_ifs at h with hconn
  · cases h.2
  split at h
  · cases h.2
  case _ mode modes hmodes =>
    rcases Prog.run_bind.1 h with ⟨t₁, t₂, r, rfl, h₁, h₂⟩ | ⟨-, hfault⟩
    swap
    · cases hfault
    rcases r with ret | dev₁
    · cases h₂.2
    obtain ⟨crtc, rfl, huse, hoffer⟩ := findCrtc_run h₁
    obtain ⟨creq, offset, rfl, hdev⟩ := createFb_run h₂
    rw [hdev]
    refine ⟨⟨not_not.1 hconn, by rw [hmodes]; rfl, ⟨rfl, rfl⟩, hoffer.mono (List.subset_append_left _ _), creq, offset,
      ?_, rfl, rfl, rfl⟩, huse, rfl⟩
    rw [hdev]
    exact List.suffix_append _ _

/-- one connector adds at most its own device -/
theorem prepareConnector_run {id : UInt32} {list' : List Dev} {t : List (Event Answer)}
    (h : (prepareConnector fd res list id).Run t (some list')) :
    list' = list ∨ ∃ dev, list' = dev :: list ∧ Usable list dev.crtc ∧ Answered fd t res dev := by
  obtain ⟨conn, t, rfl, h⟩ := h
  rcases conn with _ | conn
  · obtain ⟨rfl, hret⟩ := h
    cases hret
    exact Or.inl rfl
  obtain ⟨ptr, t, rfl, h⟩ := h
  rcases ptr with _ | ptr
  · cases h.2
  rcases (Prog.run_bind (p := modesetSetupDev _ _ _ _ _)).1 h with ⟨t₁, t₂, r, rfl, h₁, h₂⟩ | ⟨-, hfault⟩
  swap
  · cases hfault
  rcases r with ret | dev
  · obtain ⟨_, t, rfl, _, t', rfl, rfl, hret⟩ := h₂
    cases hret
    exact Or.inl rfl
  · obtain ⟨_, t, rfl, rfl, hret⟩ := h₂
    cases hret
    obtain ⟨hfits, huse, hid⟩ := setupDev_run h₁
    refine Or.inr ⟨dev, rfl, huse, id, conn, ptr, list, t₁, ?_, h₁, hid.symm, hfits⟩
    exact (List.prefix_append (⟨.getConnector fd id, some conn⟩ :: ⟨.malloc, some ptr⟩ :: t₁ : List (Event Answer))
      [⟨.freeConnector conn.addr, ()⟩]).isInfix

theorem prepareConnectors_run {connectors : List UInt32} {list' : List Dev} {t : List (Event Answer)}
    (h : (prepareConnectors fd res connectors list).Run t (some list')) (hnodup : (list.map Dev.crtc).Nodup) :
    (list'.map Dev.crtc).Nodup ∧ ∀ dev ∈ list', dev ∈ list ∨ dev.crtc.toNat < 2147483648 ∧ Answered fd t res dev := by
  induction connectors generalizing list t with
  | nil =>
    obtain ⟨rfl, hret⟩ := h
    cases hret
    exact ⟨hnodup, fun dev hdev => Or.inl hdev⟩
  | cons id connectors ih =>
    rcases Prog.run_bind.1 h with ⟨t₁, t₂, list₁, rfl, h₁, h₂⟩ | ⟨-, hfault⟩
    swap
    · cases hfault
    rcases prepareConnector_run h₁ with rfl | ⟨dev₁, rfl, huse, hans⟩
    · obtain ⟨hnd, hall⟩ := ih h₂ hnodup
      refine ⟨hnd, fun dev hdev => (hall dev hdev).imp_right fun hnew => ?_⟩
      exact ⟨hnew.1, hnew.2.mono (List.suffix_append _ _).isInfix⟩
    · obtain ⟨hnd, hall⟩ := ih h₂ (List.nodup_cons.2 ⟨huse.1, hnodup⟩)
      refine ⟨hnd, fun dev hdev => ?_⟩
      rcases hall dev hdev with hold | hnew
      · rcases List.mem_cons.1 hold with rfl | hold
        · exact Or.inr ⟨huse.2, hans.mono (List.prefix_append _ _).isInfix⟩
        · exact Or.inl hold
      · exact Or.inr ⟨hnew.1, hnew.2.mono (List.suffix_append _ _).isInfix⟩

theorem prepare_run {list' : List Dev} {t : List (Event Answer)} (h : (modesetPrepare fd []).Run t (some (.ok list'))) :
    (list'.map Dev.crtc).Nodup ∧ ∃ res, (⟨.getResources fd, .ok res⟩ : Event Answer) ∈ t ∧
      ∀ dev ∈ list', dev.crtc.toNat < 2147483648 ∧ Answered fd t res.val dev := by
  obtain ⟨res, t, rfl, h⟩ := h
  rcases res with ret | res
  · cases h.2
  rcases (Prog.run_bind (p := prepareConnectors _ _ _ _)).1 h with ⟨t₁, t₂, list₁, rfl, h₁, h₂⟩ | ⟨-, hfault⟩
  swap
  · cases hfault
  obtain ⟨_, t, rfl, rfl, hret⟩ := h₂
  cases hret
  obtain ⟨hnd, hall⟩ := prepareConnectors_run h₁ List.nodup_nil
  refine ⟨hnd, res, List.mem_cons_self, fun dev hdev => ?_⟩
  obtain ⟨hlt, hans⟩ := (hall dev hdev).resolve_left List.not_mem_nil
  exact ⟨hlt, hans.mono ((List.prefix_append _ _).isInfix.trans (List.suffix_cons _ _).isInfix)⟩

theorem Answered.mem_connected {t : List (Event Answer)} (h : Answered fd t res dev) : dev.conn ∈ connected t := by
  obtain ⟨id, conn, ptr, list, setup, hsetup, -, hid, hfits⟩ := h
  refine List.mem_filterMap.2 ⟨_, hsetup.subset List.mem_cons_self, ?_⟩
  simp [hfits.connected, hid]

/-- the devices are put in front of the list in the order of the connectors -/
theorem prepareConnectors_order {α : Type} {key : Dev → α} {seen : Event Answer → Option α}
    (hseen : ∀ fd t res dev, Answered fd t res dev → key dev ∈ t.filterMap seen) {connectors : List UInt32}
    {list' : List Dev} {t : List (Event Answer)} (h : (prepareConnectors fd res connectors list).Run t (some list')) :
    ((list'.map key).reverse).Sublist ((list.map key).reverse ++ t.filterMap seen) := by
  induction connectors generalizing list t with
  | nil =>
    obtain ⟨rfl, hret⟩ := h
    cases hret
    exact List.sublist_append_left _ _
  | cons id connectors ih =>
    rcases Prog.run_bind.1 h with ⟨t₁, t₂, list₁, rfl, h₁, h₂⟩ | ⟨-, hfault⟩
    swap
    · cases hfault
    refine (ih h₂).trans ?_
    rw [List.filterMap_append, ← List.append_assoc]
    refine List.Sublist.append_right ?_ _
    rcases prepareConnector_run h₁ with rfl | ⟨dev₁, rfl, -, hans⟩
    · exact List.sublist_append_left _ _
    · rw [List.map_cons, List.reverse_cons]
      exact List.Sublist.append_left (List.singleton_sublist.2 (hseen _ _ _ _ hans)) _

theorem prepare_order {α : Type} {key : Dev → α} {seen : Event Answer → Option α}
    (hseen : ∀ fd t res dev, Answered fd t res dev → key dev ∈ t.filterMap seen) {list' : List Dev}
    {t : List (Event Answer)} (h : (modesetPrepare fd []).Run t (some (.ok list'))) :
    ((list'.map key).reverse).Sublist (t.filterMap seen) := by
  obtain ⟨res, t, rfl, h⟩ := h
  rcases res with ret | res
  · cases h.2
  rcases (Prog.run_bind (p := prepareConnectors _ _ _ _)).1 h with ⟨t₁, t₂, list₁, rfl, h₁, h₂⟩ | ⟨-, hfault⟩
  swap
  · cases hfault
  obtain ⟨_, t, rfl, rfl, hret⟩ := h₂
  cases hret
  refine (prepareConnectors_order hseen h₁).trans (List.Sublist.filterMap _ ?_)
  exact (List.sublist_append_left _ _).trans (List.sublist_cons_self _ _)

/-- **The devices of the setup.** No two have the same CRTC, there is at most one for every connector that was answered
to be connected, and each is what the answers say in the calls of its own setup. -/
theorem prepare_devices (fd : Fd) (list : List Dev) (t : List (Event Answer))
    (h : (modesetPrepare fd []).Run t (some (.ok list))) :
    (list.map Dev.crtc).Nodup ∧ ((list.map Dev.conn).reverse).Sublist (connected t) ∧
      ∃ res, (⟨.getResources fd, .ok res⟩ : Event Answer) ∈ t ∧ ∀ dev ∈ list, Answered fd t res.val dev := by
  obtain ⟨hnd, res, hres, hall⟩ := prepare_run h
  exact ⟨hnd, prepare_order (fun _ _ _ _ => Answered.mem_connected) h, res, hres, fun dev hdev => (hall dev hdev).2⟩

/-- the device of the one screen -/
def oneDev : Dev := ⟨400, 1, 1, 64, 4096, 71, 600, ⟨1, 1, 60⟩, 61, 31, 41, none⟩

theorem prepare_oneScreen :
    (modesetPrepare 3 []).Run ((modesetPrepare 3 []).played oneScreen ()).1 (some (.ok [oneDev])) :=
  Prog.run_played oneScreen (modesetPrepare 3 []) ()

theorem prepare_devices_oneScreen : ([oneDev].map Dev.conn).reverse.Sublist [31] :=
  (prepare_devices 3 [oneDev] _ prepare_oneScreen).2.1

end Hodgepodge.Drm
