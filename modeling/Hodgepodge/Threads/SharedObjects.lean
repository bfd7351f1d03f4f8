/-
`test3` of tthreads.cpp: pairs of `std::shared_ptr<MyObj>` go through a `blocking_queue` from the main thread to the
workers. The main thread makes two objects in every turn of its loop, puts a pair of pointers to them and lets all its
own pointers go out of scope; then it closes the queue, joins the workers and prints. A worker gets pairs until a get
returns false.

Every copy and every destructor of a pointer that a thread makes outside the queue is an operation of its own; those
that `put` and `get` make under the lock (the copy into the deque, the assignment to `ret`, the erase) belong to the
section. The pointers in the frame of a thread are a stack: a scope destroys its variables in the reverse order. The
counters are natural numbers: `cnt`, `cnt_ctor` and `cnt_dtor` are ints, and hold for the 1000 turns of the source, as
for any number below 2^30.

Results:
- `Step`: the inversion of every operation.
- `fits_test3`: no statement of the main thread takes a pointer from an empty frame.
-/
import Mathlib.Algebra.BigOperators.Fin
import Hodgepodge.Core.RefCount
import Hodgepodge.Threads.BlockingQueue

namespace Hodgepodge.SharedObjects

open Function Hodgepodge.Core Hodgepodge.Core.Monitor Hodgepodge.BlockingQueue

/-! ## The programs -/

/-- a statement, or what ends a scope; `m`: the number of workers -/
inductive Stmt (m : ℕ) where
  /-- `std::shared_ptr<MyObj> p(new MyObj)` -/
  | make
  /-- a copy of the `k`-th last pointer -/
  | copy (k : ℕ)
  /-- the last pointer goes out of scope -/
  | drop
  /-- `sque.put(d)`, `d` the pair of the last two pointers -/
  | put
  /-- `if(!sque.get(p)) break` -/
  | get
  /-- `cnt++` -/
  | count
  | close
  | join (w : Fin m)
deriving DecidableEq

variable {m : ℕ} {O : Type*}

/-- a turn of the loop of `test3`: `p1`, `p2`, `DataEle d(p1,p2)`, the put; then `d`, `p2` and `p1` go -/
def turn : List (Stmt m) := [.make, .make, .copy 1, .copy 1, .put, .drop, .drop, .drop, .drop]

def test3 (n m : ℕ) : List (Stmt m) :=
  (List.replicate n turn).flatten ++ .close :: (List.finRange m).map .join

/-- the loop of `worker_thread`, from a get that has returned true to the next one -/
def round : List (Stmt m) := [.count, .drop, .drop, .get]

/-- the main thread, and the workers -/
abbrev Thread (m : ℕ) := Option (Fin m)

structure St (m : ℕ) (O : Type*) where
  sque : BlockingQueue.St (Thread m) (O × O)
  heap : Heap O
  /-- the pointers in the scopes of a thread, the last one first -/
  frame : Thread m → List O
  /-- what a thread has yet to do -/
  code : Thread m → List (Stmt m)
  cnt : Fin m → ℕ

inductive Op (m : ℕ) (O : Type*) where
  /-- `o`: the address that `new` returns -/
  | make (t : Thread m) (o : O)
  /-- a statement that is no call of the queue -/
  | run (t : Thread m)
  | call (t : Thread m)
  | lock (t : Thread m)
  | exec (t : Thread m)
  | spurious (t : Thread m)

def callOf (frame : List O) : Stmt m → Option (Call (O × O))
  | .put =>
    match frame with
    | o₂ :: o₁ :: _ => some (.put (o₁, o₂) true)
    | _ => none
  | .get => some .getAny
  | .close => some .close
  | _ => none

/-- the thread goes on -/
def St.next (s : St m O) (t : Thread m) (frame : List O) (code : List (Stmt m)) : St m O :=
  { s with frame := update s.frame t frame, code := update s.code t code }

variable [DecidableEq O]

/-- what a section has done with the pointers, and where its thread goes on -/
def returned (s : St m O) (t : Thread m) : Option (Call (O × O) × Ret (O × O)) → St m O
  | some (.put (o₁, o₂) _, .put true) =>
    -- `_q.push_back(obj)`
    { s.next t (s.frame t) (s.code t).tail with heap := (s.heap.copy o₁).copy o₂ }
  | some (.get _, .get (some (o₁, o₂))) =>
    -- `ret = *it; _q.erase(it)`
    { s.next t (o₂ :: o₁ :: s.frame t) round with heap := (((s.heap.copy o₁).copy o₂).drop o₂).drop o₁ }
  | some (.get _, .get none) => s.next t (s.frame t) []
  | some (.close, _) => s.next t (s.frame t) (s.code t).tail
  | _ => s

section Steps

variable (sizeLimit : Int32)

def step (s : St m O) : Op m O → Option (St m O)
  | .make t o =>
    match s.code t with
    | .make :: code =>
      if s.heap.count o = 0 then some { s.next t (o :: s.frame t) code with heap := s.heap.make o } else none
    | _ => none
  | .run t =>
    match s.code t with
    | .copy k :: code =>
      (s.frame t)[k]?.map fun o => { s.next t (o :: s.frame t) code with heap := s.heap.copy o }
    | .drop :: code =>
      match s.frame t with
      | o :: frame => some { s.next t frame code with heap := s.heap.drop o }
      | [] => none
    | .count :: code => t.map fun w => { s.next t (s.frame t) code with cnt := update s.cnt w (s.cnt w + 1) }
    | .join w :: code => if s.code (some w) = [] then some (s.next t (s.frame t) code) else none
    | _ => none
  | .call t =>
    match s.code t with
    | stmt :: _ =>
      (callOf (s.frame t) stmt).bind fun a => (call s.sque t a).map fun q => { s with sque := q }
    | [] => none
  | .lock t => (lock (monitor sizeLimit) s.sque t).map fun q => { s with sque := q }
  | .exec t =>
    (exec (monitor sizeLimit) s.sque t).map fun q =>
      returned { s with sque := q } t (result (monitor sizeLimit) s.sque t)
  | .spurious t => (wake s.sque t).map fun q => { s with sque := q }

/-- `n` turns, `m` workers; the queue is new -/
def init (n m : ℕ) (O : Type*) : St m O where
  sque := ⟨Fields.empty, fun _ => none, fun _ => .out, []⟩
  heap := Heap.empty
  frame _ := []
  code
    | none => test3 n m
    | some _ => [.get]
  cnt _ := 0

def program (n m : ℕ) (O : Type*) [DecidableEq O] : Lts (St m O) (Op m O) := ⟨init n m O, step sizeLimit⟩

end Steps

/-! ## Inversion -/

/-- a thread that is in a call stands at the statement that makes it -/
def AtCall (s : St m O) : Prop := ∀ t a, (s.sque.ph t).act = some a →
  ∃ stmt code, s.code t = stmt :: code ∧ callOf (s.frame t) stmt = some a

/-- the queue after `t` has left its section -/
def left (q : BlockingQueue.St (Thread m) (O × O)) (t : Thread m) (sh : Fields (O × O)) (wk : Cv → Bool)
    (a : Call (O × O)) (r : Ret (O × O)) : BlockingQueue.St (Thread m) (O × O) :=
  ⟨sh, update q.owner () none, update (wakeAll wk q.ph) t .out, q.hist ++ [(t, a, r)]⟩

/-- what one operation does -/
inductive Step (sizeLimit : Int32) (s : St m O) : Op m O → St m O → Prop
  | make {t o code} (hc : s.code t = .make :: code) (ho : s.heap.count o = 0) :
      Step sizeLimit s (.make t o) { s.next t (o :: s.frame t) code with heap := s.heap.make o }
  | copy {t k o code} (hc : s.code t = .copy k :: code) (hk : (s.frame t)[k]? = some o) :
      Step sizeLimit s (.run t) { s.next t (o :: s.frame t) code with heap := s.heap.copy o }
  | drop {t o frame code} (hc : s.code t = .drop :: code) (hf : s.frame t = o :: frame) :
      Step sizeLimit s (.run t) { s.next t frame code with heap := s.heap.drop o }
  | count {w code} (hc : s.code (some w) = .count :: code) :
      Step sizeLimit s (.run (some w))
        { s.next (some w) (s.frame (some w)) code with cnt := update s.cnt w (s.cnt w + 1) }
  | join {t w code} (hc : s.code t = .join w :: code) (hw : s.code (some w) = []) :
      Step sizeLimit s (.run t) (s.next t (s.frame t) code)
  | call {t stmt code a} (hc : s.code t = stmt :: code) (ha : callOf (s.frame t) stmt = some a)
      (hp : s.sque.ph t = .out) :
      Step sizeLimit s (.call t) { s with sque := { s.sque with ph := update s.sque.ph t (.entry a false) } }
  | lock {t a w} (hp : s.sque.ph t = .entry a w) (ho : s.sque.owner () = none) :
      Step sizeLimit s (.lock t) { s with sque := { s.sque with
        owner := update s.sque.owner () (some t), ph := update s.sque.ph t (.held a w) } }
  | sleep {t a w c} (hp : s.sque.ph t = .held a w) (hs : (monitor sizeLimit).sec a w s.sque.sh = .wait c) :
      Step sizeLimit s (.exec t) { s with sque := { s.sque with
        owner := update s.sque.owner () none, ph := update s.sque.ph t (.asleep a c) } }
  | spurious {t a c} (hp : s.sque.ph t = .asleep a c) :
      Step sizeLimit s (.spurious t) { s with sque := { s.sque with ph := update s.sque.ph t (.entry a true) } }
  | put {t w o₁ o₂ frame code} (hc : s.code t = .put :: code) (hf : s.frame t = o₂ :: o₁ :: frame)
      (hp : s.sque.ph t = .held (.put (o₁, o₂) true) w) :
      Step sizeLimit s (.exec t) { s.next t (s.frame t) code with
        sque := left s.sque t { s.sque.sh with q := s.sque.sh.q ++ [(o₁, o₂)] } (· == .cv) (.put (o₁, o₂) true)
          (.put true)
        heap := (s.heap.copy o₁).copy o₂ }
  | got {t w o₁ o₂ code sh wk} (hc : s.code t = .get :: code) (hp : s.sque.ph t = .held .getAny w)
      (hq : s.sque.sh.q = (o₁, o₂) :: sh.q) (hcl : sh.closed = s.sque.sh.closed) :
      Step sizeLimit s (.exec t) { s.next t (o₂ :: o₁ :: s.frame t) round with
        sque := left s.sque t sh wk .getAny (.get (some (o₁, o₂)))
        heap := (((s.heap.copy o₁).copy o₂).drop o₂).drop o₁ }
  | gaveUp {t w code sh wk} (hc : s.code t = .get :: code) (hp : s.sque.ph t = .held .getAny w)
      (hq : s.sque.sh.q = []) (hcl : s.sque.sh.closed = true) (hsh : sh.q = []) (hsh' : sh.closed = true) :
      Step sizeLimit s (.exec t) { s.next t (s.frame t) [] with sque := left s.sque t sh wk .getAny (.get none) }
  | closed {t w code} (hc : s.code t = .close :: code) (hp : s.sque.ph t = .held .close w) :
      Step sizeLimit s (.exec t) { s.next t (s.frame t) code with
        sque := left s.sque t { s.sque.sh with closed := true } (· == .cv) .close .close }

variable {sizeLimit : Int32} {s s' : St m O}

omit [DecidableEq O] in
/-- the statement of a call -/
theorem callOf_cases {frame : List O} {stmt : Stmt m} {a : Call (O × O)} (h : callOf frame stmt = some a) :
    (∃ o₁ o₂ rest, stmt = .put ∧ frame = o₂ :: o₁ :: rest ∧ a = .put (o₁, o₂) true) ∨
      (stmt = .get ∧ a = .getAny) ∨ (stmt = .close ∧ a = .close) := by
  cases stmt with
  | put =>
    simp only [callOf] at h
    split at h
    · cases h
      exact Or.inl ⟨_, _, _, rfl, rfl, rfl⟩
    · cases h
  | get => exact Or.inr (Or.inl ⟨rfl, (Option.some.inj h).symm⟩)
  | close => exact Or.inr (Or.inr ⟨rfl, (Option.some.inj h).symm⟩)
  | make | copy | drop | count | join => cases h

theorem step_exec (hi : AtCall s) {t : Thread m} (h : step sizeLimit s (.exec t) = some s') :
    Step sizeLimit s (.exec t) s' := by
  obtain ⟨q, hq, rfl⟩ := Option.map_eq_some_iff.1 h
  obtain ⟨a, w, hp, ⟨c, hs, hres, rfl⟩ | ⟨sh, wk, r, hs, hres, rfl⟩⟩ := exec_eq hq
  · rw [hres]
    exact .sleep hp hs
  · rw [hres]
    obtain ⟨stmt, code, hc, ha⟩ := hi t a (by rw [hp]; rfl)
    rcases callOf_cases ha with ⟨o₁, o₂, rest, rfl, hf, rfl⟩ | ⟨rfl, rfl⟩ | ⟨rfl, rfl⟩
    · rcases put_leave hs with ⟨-, rfl, rfl, rfl⟩ | ⟨-, -, hb, -⟩
      · simp only [returned, hc, List.tail_cons]
        exact .put hc hf hp
      · cases hb
    · rcases get_leave hs with ⟨⟨o₁, o₂⟩, hx, rfl, hq, hcl, -⟩ | ⟨hx, hcl, rfl, hq, hcl'⟩
      · -- the filter takes the first element
        cases hsq : s.sque.sh.q with
        | nil => rw [hsq] at hx; cases hx
        | cons x rest =>
          rw [hsq] at hx hq
          obtain rfl : x = (o₁, o₂) := Option.some.inj hx
          exact .got hc hp (by rw [hsq, hq]; rfl) hcl
      · have hnil : s.sque.sh.q = [] := by
          cases hsq : s.sque.sh.q with
          | nil => rfl
          | cons x rest => rw [hsq] at hx; cases hx
        exact .gaveUp hc hp hnil hcl (hq.trans hnil) (hcl'.trans hcl)
    · cases hs
      simp only [returned, hc, List.tail_cons]
      exact .closed hc hp

theorem step_eq (hi : AtCall s) {o : Op m O} (h : step sizeLimit s o = some s') : Step sizeLimit s o s' := by
  cases o with
  | make t o =>
    simp only [step] at h
    split at h
    · rename_i code hc
      split_ifs at h with ho
      cases h
      exact .make hc ho
    · cases h
  | run t =>
    simp only [step] at h
    split at h
    · rename_i k code hc
      obtain ⟨o, hk, rfl⟩ := Option.map_eq_some_iff.1 h
      exact .copy hc hk
    · rename_i code hc
      split at h
      · rename_i o frame hf
        cases h
        exact .drop hc hf
      · cases h
    · rename_i code hc
      obtain ⟨w, rfl, rfl⟩ := Option.map_eq_some_iff.1 h
      exact .count hc
    · rename_i w code hc
      split_ifs at h with hw
      cases h
      exact .join hc hw
    · cases h
  | call t =>
    simp only [step] at h
    split at h
    · rename_i stmt code hc
      obtain ⟨a, ha, h⟩ := Option.bind_eq_some_iff.1 h
      obtain ⟨q, hq, rfl⟩ := Option.map_eq_some_iff.1 h
      obtain ⟨hp, rfl⟩ := call_eq hq
      exact .call hc ha hp
    · cases h
  | lock t =>
    obtain ⟨q, hq, rfl⟩ := Option.map_eq_some_iff.1 h
    obtain ⟨a, w, hp, ho, rfl⟩ := lock_eq hq
    exact .lock hp ho
  | exec t => exact step_exec hi h
  | spurious t =>
    obtain ⟨q, hq, rfl⟩ := Option.map_eq_some_iff.1 h
    obtain ⟨a, c, hp, rfl⟩ := wake_eq hq
    exact .spurious hp

end Hodgepodge.SharedObjects
