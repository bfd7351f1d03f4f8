/-
The tuple of arguments of ttuple.cpp. Its elements are ArgContainers, each of an id; `tget<ID>` is a reference to the
value of the container with that id, and `Configuration` writes and reads through it.

Which element that is comes out of the compiler. `tuple_element_by_id` starts with the counter N - 1 and goes through
the tuple, one down for each element that does not have the id; the counter at the one that does is `position`. `tget`
takes the element N - position - 1. With two elements of one id it is the first; an id that does not occur has no `position`,
and the program is not compiled.

Model: a tuple type is a list of ids and types, a tuple is a function on its indices. The numbers of the templates are
integers: nothing is cut off at 0, and `std::get` checks its index.

Results:
- `tupleElementById_eq`: the recursion.
- `index_eq`, `tget_apart`: the element of an id, and two of different ids.
- `tget_selects`: every tuple type and every id in it, and every sequence of writes.
-/
import Mathlib.Algebra.Order.Group.Int
import Hodgepodge.Core.Lens

namespace Hodgepodge.Config

open Hodgepodge.Core

/-! ## Model -/

/-- the parameters of an `ArgContainer` -/
structure Container where
  x : ℤ
  type : Type

structure ArgContainer (T : Type) where
  value : T

structure ArgParameter (T : Type) where
  value : T
  parsed : Bool := false

/-- `std::tuple` of the containers, with values of type `F T`: `T` itself, or `ArgParameter<T>` -/
abbrev Tuple (F : Type → Type) (T : List Container) := ∀ i : Fin T.length, ArgContainer (F (T.get i).type)

/-- `tuple_element_by_id<XType<ID>, N, tuple<T...>>::position`, if it has one -/
def tupleElementById (ID : ℤ) : ℤ → List Container → Option ℤ
  | _, [] => none
  | N, head :: tail => if head.x = ID then some N else tupleElementById ID (N - 1) tail

/-- `std::get<i>` is compiled for the indices of the tuple -/
def stdGet (T : List Container) (i : ℤ) : Option (Fin T.length) :=
  if h : 0 ≤ i ∧ i < T.length then some ⟨i.toNat, by omega⟩ else none

/-- the element of `tget<ID>` -/
def index (T : List Container) (ID : ℤ) : Option (Fin T.length) := do
  let N : ℤ := T.length
  let position ← tupleElementById ID (N - 1) T
  stdGet T (N - position - 1)

def ArgContainer.valueOf {T : Type} : Lens (ArgContainer T) T where
  get c := c.value
  set c v := { c with value := v }
  get_set _ _ := rfl
  set_get _ := rfl
  set_set _ _ _ := rfl

def ArgParameter.valueOf {T : Type} : Lens (ArgParameter T) T where
  get c := c.value
  set c v := { c with value := v }
  get_set _ _ := rfl
  set_get _ := rfl
  set_set _ _ _ := rfl

def ArgParameter.parsedOf {T : Type} : Lens (ArgParameter T) Bool where
  get c := c.parsed
  set c v := { c with parsed := v }
  get_set _ _ := rfl
  set_get _ := rfl
  set_set _ _ _ := rfl

variable {F : Type → Type} {T : List Container}

/-- the program is compiled with this id -/
abbrev Compiles (T : List Container) (ID : ℤ) : Prop := (index T ID).isSome = true

/-- the `T` of the container that `tget<ID>` takes -/
abbrev typeOf (ID : ℤ) (h : Compiles T ID) : Type := (T.get ((index T ID).get h)).type

/-- the reference that `tget<ID>` returns -/
def tget (ID : ℤ) (h : Compiles T ID) : Lens (Tuple F T) (F (typeOf ID h)) :=
  (Lens.component ((index T ID).get h)).comp ArgContainer.valueOf

/-- `tget<INDEX>(data).value` -/
def tgetValue (INDEX : ℤ) (h : Compiles T INDEX) : Lens (Tuple ArgParameter T) (typeOf INDEX h) :=
  (tget INDEX h).comp ArgParameter.valueOf

/-- `tget<INDEX>(data).parsed` -/
def tgetParsed (INDEX : ℤ) (h : Compiles T INDEX) : Lens (Tuple ArgParameter T) Bool :=
  (tget INDEX h).comp ArgParameter.parsedOf

def setValue (INDEX : ℤ) (h : Compiles T INDEX) (data : Tuple ArgParameter T) (val : typeOf INDEX h) :
    Tuple ArgParameter T := (tgetValue INDEX h).set data val

def value (INDEX : ℤ) (h : Compiles T INDEX) (data : Tuple ArgParameter T) : typeOf INDEX h :=
  (tgetValue INDEX h).get data

def setParsed (INDEX : ℤ) (h : Compiles T INDEX) (data : Tuple ArgParameter T) (parsed : Bool := true) :
    Tuple ArgParameter T := (tgetParsed INDEX h).set data parsed

def isParsed (INDEX : ℤ) (h : Compiles T INDEX) (data : Tuple ArgParameter T) : Bool := (tgetParsed INDEX h).get data

/-- a call that is compiled -/
inductive Write (T : List Container) where
  | setValue (INDEX : ℤ) (h : Compiles T INDEX) (val : typeOf INDEX h)
  | setParsed (INDEX : ℤ) (h : Compiles T INDEX) (parsed : Bool)

def Write.apply (data : Tuple ArgParameter T) : Write T → Tuple ArgParameter T
  | .setValue INDEX h val => Config.setValue INDEX h data val
  | .setParsed INDEX h parsed => Config.setParsed INDEX h data parsed

def writes (data : Tuple ArgParameter T) (ws : List (Write T)) : Tuple ArgParameter T := ws.foldl Write.apply data

inductive EParameter where
  | images
  | model
  | plugin
  | pluginPaths
  | labelsFile
  | iterNum
  | topNum
  | perfCount
  | device
deriving DecidableEq

/-- the enumerators count from 0 -/
def EParameter.id (param : EParameter) : ℤ := param.ctorIdx

/-- `ConfigurationContainer<param, T>`, in a tuple of ArgParameters -/
def configurationContainer (param : EParameter) (type : Type) : Container := ⟨param.id, type⟩

/-- `data` of `Configuration` -/
def configuration : List Container :=
  [configurationContainer .images (List String), configurationContainer .model String,
    configurationContainer .plugin String, configurationContainer .pluginPaths (List String),
    configurationContainer .labelsFile String, configurationContainer .iterNum UInt64,
    configurationContainer .topNum UInt64, configurationContainer .perfCount Bool]

/-! ## The promise -/

/-- the call writes what `value<ID>` reads -/
def Write.SetsValue (ID : ℤ) : Write T → Prop
  | .setValue INDEX _ _ => INDEX = ID
  | .setParsed _ _ _ => False

/-- the call writes what `isParsed<ID>` reads -/
def Write.SetsParsed (ID : ℤ) : Write T → Prop
  | .setValue _ _ _ => False
  | .setParsed INDEX _ _ => INDEX = ID

/-- where the first container with the id is -/
def firstWith (T : List Container) (ID : ℤ) : ℕ := T.findIdx fun c => decide (c.x = ID)

/-- the recursion ends at the first container with the id -/
def Finds (T : List Container) (ID : ℤ) : Prop :=
  ∃ position : ℤ, tupleElementById ID (T.length - 1) T = some position ∧ 0 ≤ (T.length : ℤ) - position - 1 ∧
    (T.length : ℤ) - position - 1 < T.length ∧ (T.length : ℤ) - position - 1 = firstWith T ID

/-- `tget<ID>` is the value of that container: what was last written is read, and other writes leave it -/
structure Selects (T : List Container) (ID : ℤ) (h : Compiles T ID) : Prop where
  element : ((index T ID).get h : ℕ) = firstWith T ID
  assigned : ∀ (F : Type → Type) (data : Tuple F T) (v : F (typeOf ID h)),
    (tget ID h).get ((tget ID h).set data v) = v
  others : ∀ (F : Type → Type) (ID2 : ℤ) (h2 : Compiles T ID2), ID2 ≠ ID → ∀ (data : Tuple F T) (v : F (typeOf ID h)),
    (tget ID2 h2).get ((tget ID h).set data v) = (tget ID2 h2).get data
  value_last : ∀ (data : Tuple ArgParameter T) (pre post : List (Write T)) (val : typeOf ID h),
    (∀ w ∈ post, ¬ w.SetsValue ID) → value ID h (writes data (pre ++ .setValue ID h val :: post)) = val
  value_kept : ∀ (data : Tuple ArgParameter T) (ws : List (Write T)), (∀ w ∈ ws, ¬ w.SetsValue ID) →
    value ID h (writes data ws) = value ID h data
  parsed_last : ∀ (data : Tuple ArgParameter T) (pre post : List (Write T)) (parsed : Bool),
    (∀ w ∈ post, ¬ w.SetsParsed ID) → isParsed ID h (writes data (pre ++ .setParsed ID h parsed :: post)) = parsed
  parsed_kept : ∀ (data : Tuple ArgParameter T) (ws : List (Write T)), (∀ w ∈ ws, ¬ w.SetsParsed ID) →
    isParsed ID h (writes data ws) = isParsed ID h data

/-! ## The element -/

variable {ID ID2 : ℤ}

theorem firstWith_lt (h : ID ∈ T.map Container.x) : firstWith T ID < T.length := by
  obtain ⟨c, hc, hx⟩ := List.mem_map.1 h
  exact List.findIdx_lt_length_of_exists ⟨c, hc, decide_eq_true hx⟩

theorem firstWith_id (h : firstWith T ID < T.length) : (T.get ⟨firstWith T ID, h⟩).x = ID :=
  of_decide_eq_true (List.findIdx_getElem (w := h))

/-- **The recursion.** The counter has gone down by the number of the heads that were passed. -/
theorem tupleElementById_eq (h : ID ∈ T.map Container.x) (N : ℤ) :
    tupleElementById ID N T = some (N - firstWith T ID) := by
  induction T generalizing N with
  | nil => exact absurd h List.not_mem_nil
  | cons head tail ih =>
    rw [tupleElementById, firstWith, List.findIdx_cons]
    by_cases hx : head.x = ID
    · rw [if_pos hx, decide_eq_true hx, cond_true]
      congr 1
      omega
    · have htail : ID ∈ tail.map Container.x := (List.mem_cons.1 h).resolve_left fun heq => hx heq.symm
      rw [if_neg hx, decide_eq_false hx, cond_false, ih htail (N - 1), firstWith]
      congr 1
      omega

/-- an id that does not occur -/
theorem tupleElementById_none (h : ID ∉ T.map Container.x) (N : ℤ) : tupleElementById ID N T = none := by
  induction T generalizing N with
  | nil => rfl
  | cons head tail ih =>
    rw [List.map_cons, List.mem_cons, not_or] at h
    rw [tupleElementById, if_neg fun heq => h.1 heq.symm]
    exact ih h.2 (N - 1)

/-- the two subtractions cancel -/
theorem position_back (T : List Container) (ID : ℤ) :
    (T.length : ℤ) - (T.length - 1 - firstWith T ID) - 1 = firstWith T ID := by omega

/-- **The element of an id.** -/
theorem index_eq (h : ID ∈ T.map Container.x) : index T ID = some ⟨firstWith T ID, firstWith_lt h⟩ := by
  have hlt : firstWith T ID < T.length := firstWith_lt h
  have hrange : 0 ≤ (firstWith T ID : ℤ) ∧ (firstWith T ID : ℤ) < T.length := by omega
  simp only [index, tupleElementById_eq h, Option.bind_eq_bind, Option.bind_some, position_back, stdGet, dif_pos hrange,
    Int.toNat_natCast]

theorem compiles_iff : Compiles T ID ↔ ID ∈ T.map Container.x := by
  constructor
  · intro h
    by_contra hID
    simp [Compiles, index, tupleElementById_none hID] at h
  · intro h
    rw [Compiles, index_eq h]
    rfl

theorem index_get (h : Compiles T ID) : ((index T ID).get h : ℕ) = firstWith T ID := by
  have heq := index_eq (compiles_iff.1 h)
  simp only [heq, Option.get_some]

/-- the element of an id has that id -/
theorem index_id (h : Compiles T ID) : (T.get ((index T ID).get h)).x = ID := by
  have heq := index_eq (compiles_iff.1 h)
  simp only [heq, Option.get_some]
  exact firstWith_id (firstWith_lt (compiles_iff.1 h))

theorem finds (h : ID ∈ T.map Container.x) : Finds T ID := by
  have hlt : firstWith T ID < T.length := firstWith_lt h
  refine ⟨T.length - 1 - firstWith T ID, tupleElementById_eq h _, ?_⟩
  rw [position_back]
  exact ⟨by omega, by omega, rfl⟩

/-! ## Writes -/

/-- **Two ids.** They are two elements. -/
theorem tget_apart {h : Compiles T ID} {h2 : Compiles T ID2} (hne : ID2 ≠ ID) :
    (tget (F := F) ID2 h2).Apart (tget ID h) := by
  have helement : (index T ID2).get h2 ≠ (index T ID).get h := by
    intro heq
    apply hne
    rw [← index_id h2, heq, index_id h]
  have hcontainer : (Lens.component (F := fun i => ArgContainer (F (T.get i).type)) ((index T ID2).get h2)).Apart
      (Lens.component ((index T ID).get h)) := Lens.component_apart helement
  exact hcontainer.comp ArgContainer.valueOf ArgContainer.valueOf

theorem value_apart_parsed {A : Type} : (ArgParameter.valueOf (T := A)).Apart ArgParameter.parsedOf := fun _ _ => rfl

theorem parsed_apart_value {A : Type} : (ArgParameter.parsedOf (T := A)).Apart ArgParameter.valueOf := fun _ _ => rfl

/-- one call, and what `value<ID>` reads -/
theorem value_keeps {h : Compiles T ID} {w : Write T} (hw : ¬ w.SetsValue ID) :
    (tgetValue ID h).Keeps fun data => w.apply data := by
  cases w with
  | setValue INDEX h' val =>
    have hne : ID ≠ INDEX := fun heq => hw heq.symm
    exact (tget_apart hne).comp ArgParameter.valueOf ArgParameter.valueOf val
  | setParsed INDEX h' parsed =>
    by_cases heq : ID = INDEX
    · subst heq
      exact value_apart_parsed.comp_left (tget ID h) parsed
    · exact (tget_apart heq).comp ArgParameter.valueOf ArgParameter.parsedOf parsed

/-- one call, and what `isParsed<ID>` reads -/
theorem parsed_keeps {h : Compiles T ID} {w : Write T} (hw : ¬ w.SetsParsed ID) :
    (tgetParsed ID h).Keeps fun data => w.apply data := by
  cases w with
  | setValue INDEX h' val =>
    by_cases heq : ID = INDEX
    · subst heq
      exact parsed_apart_value.comp_left (tget ID h) val
    · exact (tget_apart heq).comp ArgParameter.parsedOf ArgParameter.valueOf val
  | setParsed INDEX h' parsed =>
    have hne : ID ≠ INDEX := fun heq => hw heq.symm
    exact (tget_apart hne).comp ArgParameter.parsedOf ArgParameter.parsedOf parsed

theorem selects (h : Compiles T ID) : Selects T ID h where
  element := index_get h
  assigned _ data v := (tget ID h).get_set data v
  others _ _ _ hne data v := tget_apart hne v data
  value_last data _ _ val hpost :=
    Lens.get_foldl_of_last (o := Write.setValue ID h val) (fun data => (tgetValue ID h).get_set data val)
      (fun w hw => value_keeps (hpost w hw)) data
  value_kept data _ hws := Lens.keeps_foldl (fun w hw => value_keeps (hws w hw)) data
  parsed_last data _ _ parsed hpost :=
    Lens.get_foldl_of_last (o := Write.setParsed ID h parsed) (fun data => (tgetParsed ID h).get_set data parsed)
      (fun w hw => parsed_keeps (hpost w hw)) data
  parsed_kept data _ hws := Lens.keeps_foldl (fun w hw => parsed_keeps (hws w hw)) data

/-! ## The result -/

/-- **The right container.** For every tuple type and every id that occurs in it: the recursion ends with a position
whose N - position - 1 is below N and is the first container with the id, and for every sequence of writes `value` and
`isParsed` of the id read what the last write for them wrote, or what they read before if there was none. -/
theorem tget_selects (T : List Container) (ID : ℤ) (hID : ID ∈ T.map Container.x) :
    Finds T ID ∧ ∃ h : Compiles T ID, Selects T ID h :=
  ⟨finds hID, compiles_iff.2 hID, selects _⟩

/-- the sixth of eight -/
theorem iterNum_selects : Finds configuration EParameter.iterNum.id ∧
    ∃ h : Compiles configuration EParameter.iterNum.id, Selects configuration EParameter.iterNum.id h :=
  tget_selects configuration EParameter.iterNum.id (by decide)

end Hodgepodge.Config
