/-
The handle registry of `ipc_io_service` as a map (tipc.cpp), on both platforms. `associate` asks `get` whether the handle
is known, registers it with epoll or the completion port if it is not, and stores the connection; on Windows a failed
registration throws before that. A connection without a handle (`INVALID_OS_HANDLE`) is not associated with anything.
The Windows constructor zeroes `m_map_fast`; the Linux constructor leaves the 1024 pointers as the memory had them.

Model: the table of `Registry` on arbitrary memory. What a caller sees of an operation is its output: what `get` yields
and what is passed to the system. A Windows handle has 32 significant bits, as many as `unsigned long` there.

Results:
- `fastIndex_eq`: both platforms split the handles between array and map in the same way.
- `associate_eq`, `unassociate_eq`: the operations of `Registry` are the ones of this module.
- `Refines`, `step_refines`: the table simulates a map from handles to connections.
- `handle_map_iff`: for every sequence of operations the registry behaves as a map that starts empty, exactly if the
  constructor is the Windows one or the memory holds NULL.
- `stale_slot_found`: a pointer in the memory of a Linux service is a connection for `get`.
-/
import Hodgepodge.Ipc.Registry

namespace Hodgepodge.Ipc.Handles

open Function

variable {C : Type*}

/-! ## The registry -/

inductive Platform where
  | linux
  | windows
deriving DecidableEq

/-- the width of `unsigned long` -/
def Platform.longBits : Platform → ℕ
  | .linux => 64
  | .windows => 32

/-- the slot of a handle in `m_map_fast` -/
def Platform.fastIndex (p : Platform) (oshd : Int32) : Option (Fin mapFastSize) :=
  let v := (oshd.toInt % 2 ^ p.longBits).toNat
  if h : v < mapFastSize then some ⟨v, h⟩ else none

/-- The conversion of a negative handle is past the array at either width. -/
theorem fastIndex_eq (p : Platform) (oshd : Int32) : p.fastIndex oshd = Ipc.fastIndex oshd := by
  cases p with
  | linux => rfl
  | windows =>
    have hlt := oshd.toInt_lt
    have hle := oshd.le_toInt
    unfold Platform.fastIndex Ipc.fastIndex unsignedLong Platform.longBits mapFastSize
    dsimp only
    by_cases h : 0 ≤ oshd.toInt
    · have he : oshd.toInt % 2 ^ 32 = oshd.toInt % 2 ^ 64 := by omega
      simp only [he]
    · rw [dif_neg (by omega), dif_neg (by omega)]

/-- the constructor, on the memory `mem`; nothing has been put into `m_map` yet -/
def construct (p : Platform) (mem : Fin mapFastSize → Option C) : Table C :=
  match p with
  | .linux => ⟨mem, fun _ => none⟩
  | .windows => .empty

inductive Op (C : Type*) where
  /-- `ok`: CreateIoCompletionPort succeeds -/
  | associate (pconn : C) (oshd : Int32) (ok : Bool)
  | unassociate (oshd : Int32)
  | get (oshd : Int32)
  | erase (oshd : Int32)
deriving DecidableEq

/-- what an operation yields or passes to the system -/
inductive Out (C : Type*) where
  | done
  /-- EPOLL_CTL_ADD or CreateIoCompletionPort -/
  | registered (oshd : Int32)
  /-- CreateIoCompletionPort, which failed -/
  | threw (oshd : Int32)
  /-- EPOLL_CTL_DEL -/
  | unregistered (oshd : Int32)
  | found (p : Option C)
deriving DecidableEq

def associate (p : Platform) (t : Table C) (pconn : C) (oshd : Int32) (ok : Bool) : Out C × Table C :=
  if oshd = invalidOsHandle then (.done, t)
  else
    let q := t.get oshd
    match q.1 with
    | some _ => (.done, q.2.assign oshd (some pconn))
    | none =>
      match p with
      | .linux => (.registered oshd, q.2.assign oshd (some pconn))
      | .windows => if ok then (.registered oshd, q.2.assign oshd (some pconn)) else (.threw oshd, q.2)

def unassociate (p : Platform) (t : Table C) (oshd : Int32) : Out C × Table C :=
  if oshd = invalidOsHandle then (.done, t)
  else
    match p with
    | .linux => (.unregistered oshd, t.erase oshd)
    | .windows => (.done, t.erase oshd)

def step (p : Platform) (t : Table C) : Op C → Out C × Table C
  | .associate pconn oshd ok => associate p t pconn oshd ok
  | .unassociate oshd => unassociate p t oshd
  | .get oshd => (.found (t.get oshd).1, (t.get oshd).2)
  | .erase oshd => (.done, t.erase oshd)

def Op.handle : Op C → Int32
  | .associate _ oshd _ | .unassociate oshd | .get oshd | .erase oshd => oshd

/-- the outputs of a sequence of operations -/
def outputs {S : Type*} (step : S → Op C → Out C × S) : S → List (Op C) → List (Out C)
  | _, [] => []
  | s, o :: ops => (step s o).1 :: outputs step (step s o).2 ops

/-! ## The operations of the service -/

/-- the table of the service moves by `associate`, and the descriptor goes into the epoll set if that registers it -/
theorem associate_eq (s : St C) (a : C) (oshd : Int32) (ok : Bool) :
    (Ipc.associate s a oshd).table = (associate .linux s.table a oshd ok).2 ∧
      ((associate .linux s.table a oshd ok).1 = .registered oshd ∧
          (Ipc.associate s a oshd).epoll = (epollCtl s oshd true).epoll ∨
        (associate .linux s.table a oshd ok).1 = .done ∧ (Ipc.associate s a oshd).epoll = s.epoll) := by
  unfold Ipc.associate associate
  by_cases h : oshd = invalidOsHandle
  · simp [h]
  · cases hg : (s.table.get oshd).1 with
    | some b => simp [h, hg]
    | none => by_cases ho : s.opened oshd <;> simp [h, hg, epollCtl, ho]

theorem unassociate_eq (s : St C) (oshd : Int32) :
    (Ipc.unassociate s oshd).table = (unassociate .linux s.table oshd).2 := by
  unfold Ipc.unassociate unassociate epollCtl
  split_ifs <;> rfl

/-! ## The map -/

/-- the purpose of the registry: a map from handles to connections -/
def mapStep (p : Platform) (m : Int32 → Option C) : Op C → Out C × (Int32 → Option C)
  | .associate pconn oshd ok =>
    if oshd = invalidOsHandle then (.done, m)
    else if (m oshd).isSome then (.done, update m oshd (some pconn))
    else if p = .windows ∧ ok = false then (.threw oshd, m)
    else (.registered oshd, update m oshd (some pconn))
  | .unassociate oshd =>
    if oshd = invalidOsHandle then (.done, m)
    else (if p = .linux then .unregistered oshd else .done, update m oshd none)
  | .get oshd => (.found (m oshd), m)
  | .erase oshd => (.done, update m oshd none)

/-- `get` yields what the map has -/
def Refines (t : Table C) (m : Int32 → Option C) : Prop := ∀ f, t.find f = m f

variable {t : Table C} {m : Int32 → Option C} {p : Platform} {o : Op C} {f oshd : Int32}

theorem Refines.get (h : Refines t m) : Refines (t.get oshd).2 m := fun f => by rw [Table.find_get, h f]

theorem Refines.assign (h : Refines t m) (q : Option C) : Refines (t.assign oshd q) (update m oshd q) := by
  intro f
  rw [Table.find_assign]
  by_cases hf : f = oshd
  · subst hf; simp
  · rw [if_neg hf, update_of_ne hf, h f]

theorem Refines.erase (h : Refines t m) : Refines (t.erase oshd) (update m oshd none) := by
  intro f
  rw [Table.find_erase]
  by_cases hf : f = oshd
  · subst hf; simp
  · rw [if_neg hf, update_of_ne hf, h f]

/-- one operation yields the same of the table and of the map -/
theorem step_refines (h : Refines t m) (o : Op C) :
    (step p t o).1 = (mapStep p m o).1 ∧ Refines (step p t o).2 (mapStep p m o).2 := by
  cases o with
  | associate pconn oshd ok =>
    have hfind : (t.get oshd).1 = m oshd := h oshd
    have hget : Refines (t.get oshd).2 m := h.get
    have hput : Refines _ (update m oshd (some pconn)) := hget.assign (some pconn)
    simp only [step, associate, mapStep, hfind]
    by_cases hv : oshd = invalidOsHandle
    · simpa only [if_pos hv, true_and] using h
    · simp only [if_neg hv]
      cases hm : m oshd with
      | some b => exact ⟨rfl, hput⟩
      | none =>
        cases p with
        | linux => exact ⟨rfl, hput⟩
        | windows =>
          cases ok with
          | true => exact ⟨rfl, hput⟩
          | false => exact ⟨rfl, hget⟩
  | unassociate oshd =>
    simp only [step, unassociate, mapStep]
    split_ifs with hv hp
    · exact ⟨rfl, h⟩
    · subst hp; exact ⟨rfl, h.erase⟩
    · cases p with
      | linux => exact absurd rfl hp
      | windows => exact ⟨rfl, h.erase⟩
  | get oshd => exact ⟨congrArg Out.found (h oshd), h.get⟩
  | erase oshd => exact ⟨rfl, h.erase⟩

theorem outputs_refines (h : Refines t m) (ops : List (Op C)) :
    outputs (step p) t ops = outputs (mapStep p) m ops := by
  induction ops generalizing t m with
  | nil => rfl
  | cons o ops ih =>
    obtain ⟨ho, hr⟩ := step_refines (p := p) h o
    exact congrArg₂ List.cons ho (ih hr)

/-- an operation on one handle leaves the others alone -/
theorem step_other (p : Platform) (t : Table C) (o : Op C) (hf : f ≠ o.handle) :
    (step p t o).2.find f = t.find f := by
  obtain ⟨-, hr⟩ := step_refines (p := p) (fun _ => rfl : Refines t t.find) o
  rw [hr f]
  cases o with
  | associate pconn oshd ok =>
    have hf : f ≠ oshd := hf
    simp only [mapStep]
    split_ifs <;> simp [hf]
  | unassociate oshd =>
    have hf : f ≠ oshd := hf
    simp only [mapStep]
    split_ifs <;> simp [hf]
  | get oshd => rfl
  | erase oshd => exact update_of_ne hf ..

/-! ## The constructors -/

theorem construct_windows (mem : Fin mapFastSize → Option C) :
    Refines (construct .windows mem) fun _ => none := Table.find_empty

theorem construct_null {mem : Fin mapFastSize → Option C} (h : ∀ v, mem v = none) :
    Refines (construct .linux mem) fun _ => none := by
  obtain rfl : mem = fun _ => none := funext h
  exact Table.find_empty

/-- the handle of a slot -/
def handleOf (v : Fin mapFastSize) : Int32 := Int32.ofNat v

theorem fastIndex_handleOf (v : Fin mapFastSize) : Ipc.fastIndex (handleOf v) = some v := by
  have hv : (v : ℕ) < 2 ^ 31 := Nat.lt_of_lt_of_le v.2 (by decide)
  have hu : unsignedLong (handleOf v) = v := by
    unfold unsignedLong handleOf
    rw [Int32.toInt_ofNat_of_lt hv]
    have := v.2
    unfold mapFastSize at this
    omega
  unfold Ipc.fastIndex
  simp only [hu, v.2, dif_pos]

/-- **A map that starts empty, exactly on clean memory.** For every sequence of operations the registry yields and
registers what a map does that starts empty, exactly if the constructor is the Windows one or the memory holds NULL.
On any memory, an operation on one handle leaves what `get` yields for the others. -/
theorem handle_map_iff (p : Platform) (mem : Fin mapFastSize → Option C) :
    ((∀ ops, outputs (step p) (construct p mem) ops = outputs (mapStep p) (fun _ => none) ops) ↔
        p = .windows ∨ ∀ v, mem v = none) ∧
      ∀ (t : Table C) (o : Op C) f, f ≠ o.handle → (step p t o).2.find f = t.find f := by
  refine ⟨⟨fun h => ?_, fun h ops => ?_⟩, fun t o f => step_other p t o⟩
  · cases p with
    | windows => exact Or.inl rfl
    | linux =>
      refine Or.inr fun v => ?_
      have hget : Out.found ((construct .linux mem).find (handleOf v)) = .found none :=
        List.head_eq_of_cons_eq (h [.get (handleOf v)])
      rw [Out.found.injEq, Table.find_eq, fastIndex_handleOf] at hget
      exact hget
  · cases p with
    | windows => exact outputs_refines (construct_windows mem) ops
    | linux => exact outputs_refines (construct_null (h.resolve_left (by decide))) ops

/-- **Whatever the memory held.** A Linux service whose memory holds a pointer in slot 5: a connection with descriptor 5
is not registered with epoll. -/
theorem stale_slot_found :
    ¬ ∀ (mem : Fin mapFastSize → Option ℕ) (ops : List (Op ℕ)),
      outputs (step .linux) (construct .linux mem) ops = outputs (mapStep .linux) (fun _ => none) ops := by
  intro h
  have := h (fun v => if v.val = 5 then some 1 else none) [.associate 2 5 true]
  exact absurd this (by decide)

end Hodgepodge.Ipc.Handles
