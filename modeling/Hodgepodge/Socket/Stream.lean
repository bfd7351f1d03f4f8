/-
`writeSocket` and `readSocket` (SocketHelper.cpp): loops around write(2) and read(2) that go on after a short count or a
transient error until the whole buffer is done. A reader that meets a hard error returns -1, also when it has taken bytes
from the stream before; the next call reads on behind them. A call on a descriptor that is not positive returns -1
without a system call, also on descriptor 0, which socket(2) and accept(2) hand out when it is free.

Model: one process at each end of a stream, each with any sequence of calls of any sizes. Every system call is a step;
its outcome is any count up to what it was asked for (and, for a read, what is there), a transient error or a hard one.
A read gets 0 at the end of the stream, after the writing end was closed and when nothing is unread.

Results:
- `Spans`: `ptr` and `leftBytes` always add up to the buffer.
- `Inv`, `step_inv`: what was written is what the reads have taken, then what is unread.
- `stream_reliable`: for every run; the buffers of the successful reads are a prefix of the stream unless a read has
  failed half way.
- `failed_read_loses`: a read that fails half way, and a successful one behind it; a read on descriptor 0.
-/
import Mathlib.Algebra.Group.Int.Defs
import Mathlib.Data.List.Flatten
import Hodgepodge.Core.Lts

namespace Hodgepodge.SocketHelper.Stream

open Hodgepodge.Core

/-! ## The two loops -/

/-- what a system call returns; `transient`: EINTR, EAGAIN or EWOULDBLOCK -/
inductive Outcome where
  | count (n : ℕ)
  | transient
  | hard
deriving DecidableEq

/-- a call of one of the two functions; `last` is the outcome of its last system call, if it has made one -/
structure Call where
  buffer : List UInt8
  ptr : ℕ
  leftBytes : Int
  last : Option Outcome
deriving DecidableEq

/-- a call that has returned -/
structure Returned where
  socket : Int
  call : Call
  value : Int
deriving DecidableEq

structure St where
  /-- what write has accepted -/
  written : List UInt8
  unread : List UInt8
  /-- the writing end is closed -/
  closed : Bool
  writer : Option Call
  reader : Option Call
  /-- the argument `socket` of the calls in progress -/
  writerSocket : Int
  readerSocket : Int
  writes : List Returned
  reads : List Returned
  /-- a system call was given memory outside the buffer -/
  outside : Bool
deriving DecidableEq

inductive Op where
  /-- `socket` is a descriptor of the writing end; `[]` is a null pointer or a size that is not positive -/
  | write (socket : Int) (buffer : List UInt8)
  | writeCall (r : Outcome)
  | writeReturn
  | close
  /-- the buffer holds anything -/
  | read (socket : Int) (buffer : List UInt8)
  | readCall (r : Outcome)
  | readReturn
deriving DecidableEq

def start (buffer : List UInt8) : Call := ⟨buffer, 0, buffer.length, none⟩

/-- the bytes that have gone through -/
def Call.moved (c : Call) : List UInt8 := c.buffer.take c.ptr

/-- `ptr += n; leftBytes -= n` -/
def Call.advance (c : Call) (n : ℕ) : Call :=
  { c with ptr := c.ptr + n, leftBytes := c.leftBytes - n, last := some (.count n) }

/-- `bytes` at `ptr` -/
def Call.fill (c : Call) (bytes : List UInt8) : Call :=
  { c with buffer := c.buffer.take c.ptr ++ bytes ++ c.buffer.drop (c.ptr + bytes.length) }

/-- the memory that a system call is given is not all in the buffer -/
def Call.overruns (c : Call) : Bool := decide ((c.buffer.length : Int) < c.ptr + c.leftBytes)

def step (s : St) : Op → Option St
  | .write socket buffer =>
    if s.writer ≠ none then none
    else if socket ≤ 0 ∨ buffer = [] then some { s with writes := s.writes ++ [⟨socket, start buffer, -1⟩] }
    else some { s with writer := some (start buffer), writerSocket := socket }
  | .writeCall r => s.writer.bind fun c =>
    if 0 < c.leftBytes then
      let s := { s with outside := s.outside || c.overruns }
      match r with
      | .count n =>
        if (n : Int) ≤ c.leftBytes ∧ s.closed = false then
          let bytes := (c.buffer.drop c.ptr).take n
          some { s with
            written := s.written ++ bytes, unread := s.unread ++ bytes, writer := some (c.advance n) }
        else none
      | .transient => some { s with writer := some { c with last := some .transient } }
      | .hard => some { s with writer := none, writes := s.writes ++ [⟨s.writerSocket, { c with last := some .hard }, -1⟩] }
    else none
  | .writeReturn => s.writer.bind fun c =>
    if 0 < c.leftBytes then none
    else some { s with writer := none, writes := s.writes ++ [⟨s.writerSocket, c, c.buffer.length - c.leftBytes⟩] }
  | .close => some { s with closed := true }
  | .read socket buffer =>
    if s.reader ≠ none then none
    else if socket ≤ 0 ∨ buffer = [] then some { s with reads := s.reads ++ [⟨socket, start buffer, -1⟩] }
    else some { s with reader := some (start buffer), readerSocket := socket }
  | .readCall r => s.reader.bind fun c =>
    if 0 < c.leftBytes then
      let s := { s with outside := s.outside || c.overruns }
      match r with
      | .count 0 =>
        if s.unread = [] ∧ s.closed = true then
          some { s with reader := none, reads := s.reads ++ [⟨s.readerSocket, { c with last := some (.count 0) }, 0⟩] }
        else none
      | .count n =>
        if (n : Int) ≤ c.leftBytes ∧ n ≤ s.unread.length then
          some { s with unread := s.unread.drop n, reader := some ((c.fill (s.unread.take n)).advance n) }
        else none
      | .transient => some { s with reader := some { c with last := some .transient } }
      | .hard => some { s with reader := none, reads := s.reads ++ [⟨s.readerSocket, { c with last := some .hard }, -1⟩] }
    else none
  | .readReturn => s.reader.bind fun c =>
    if 0 < c.leftBytes then none
    else some { s with reader := none, reads := s.reads ++ [⟨s.readerSocket, c, c.buffer.length - c.leftBytes⟩] }

def stream : Lts St Op := ⟨⟨[], [], false, none, none, 0, 0, [], [], false⟩, step⟩

/-- the buffers of the successful reads, one after the other -/
def received (s : St) : List UInt8 := (s.reads.filter fun x => decide (0 < x.value)).flatMap fun x => x.call.buffer

/-! ## Inversion -/

/-- what one operation does -/
inductive Step (s : St) : Op → St → Prop
  | writeRefused {socket buffer} (hg : socket ≤ 0 ∨ buffer = []) :
      Step s (.write socket buffer) { s with writes := s.writes ++ [⟨socket, start buffer, -1⟩] }
  | write {socket buffer} (hw : s.writer = none) (hs : 0 < socket) (hb : buffer ≠ []) :
      Step s (.write socket buffer) { s with writer := some (start buffer), writerSocket := socket }
  | writeCount {c} {n : ℕ} (hw : s.writer = some c) (hn : (n : Int) ≤ c.leftBytes) (hc : s.closed = false) :
      Step s (.writeCall (.count n)) { s with
        outside := s.outside || c.overruns
        written := s.written ++ (c.buffer.drop c.ptr).take n
        unread := s.unread ++ (c.buffer.drop c.ptr).take n
        writer := some (c.advance n) }
  | writeTransient {c} (hw : s.writer = some c) :
      Step s (.writeCall .transient) { s with
        outside := s.outside || c.overruns, writer := some { c with last := some .transient } }
  | writeHard {c} (hw : s.writer = some c) :
      Step s (.writeCall .hard) { s with
        outside := s.outside || c.overruns
        writer := none
        writes := s.writes ++ [⟨s.writerSocket, { c with last := some .hard }, -1⟩] }
  | writeReturn {c} (hw : s.writer = some c) (hl : c.leftBytes ≤ 0) :
      Step s .writeReturn { s with writer := none, writes := s.writes ++ [⟨s.writerSocket, c, c.buffer.length - c.leftBytes⟩] }
  | close : Step s .close { s with closed := true }
  | readRefused {socket buffer} (hr : s.reader = none) (hg : socket ≤ 0 ∨ buffer = []) :
      Step s (.read socket buffer) { s with reads := s.reads ++ [⟨socket, start buffer, -1⟩] }
  | read {socket buffer} (hr : s.reader = none) (hs : 0 < socket) (hb : buffer ≠ []) :
      Step s (.read socket buffer) { s with reader := some (start buffer), readerSocket := socket }
  | readEnd {c} (hr : s.reader = some c) (hu : s.unread = []) (hc : s.closed = true) :
      Step s (.readCall (.count 0)) { s with
        outside := s.outside || c.overruns
        reader := none
        reads := s.reads ++ [⟨s.readerSocket, { c with last := some (.count 0) }, 0⟩] }
  | readCount {c} {n : ℕ} (hr : s.reader = some c) (hn : (n : Int) ≤ c.leftBytes) (h0 : 0 < n)
      (hu : n ≤ s.unread.length) :
      Step s (.readCall (.count n)) { s with
        outside := s.outside || c.overruns
        unread := s.unread.drop n
        reader := some ((c.fill (s.unread.take n)).advance n) }
  | readTransient {c} (hr : s.reader = some c) :
      Step s (.readCall .transient) { s with
        outside := s.outside || c.overruns, reader := some { c with last := some .transient } }
  | readHard {c} (hr : s.reader = some c) :
      Step s (.readCall .hard) { s with
        outside := s.outside || c.overruns
        reader := none
        reads := s.reads ++ [⟨s.readerSocket, { c with last := some .hard }, -1⟩] }
  | readReturn {c} (hr : s.reader = some c) (hl : c.leftBytes ≤ 0) :
      Step s .readReturn { s with reader := none, reads := s.reads ++ [⟨s.readerSocket, c, c.buffer.length - c.leftBytes⟩] }

variable {s s' : St} {o : Op} {c : Call}

theorem step_eq (h : step s o = some s') : Step s o s' := by
  cases o with
  | write socket buffer =>
    simp only [step] at h
    split_ifs at h with hw hg
    · cases h
      exact .writeRefused hg
    · cases h
      rw [not_or, Int.not_le] at hg
      exact .write (not_not.1 hw) hg.1 hg.2
  | writeCall r =>
    simp only [step, Option.bind_eq_some_iff] at h
    obtain ⟨c, hw, h⟩ := h
    by_cases hl : 0 < c.leftBytes
    · rw [if_pos hl] at h
      cases r with
      | count n =>
        simp only at h
        split_ifs at h with hn
        cases h
        exact .writeCount hw hn.1 hn.2
      | transient => cases h; exact .writeTransient hw
      | hard => cases h; exact .writeHard hw
    · rw [if_neg hl] at h; cases h
  | writeReturn =>
    simp only [step, Option.bind_eq_some_iff] at h
    obtain ⟨c, hw, h⟩ := h
    split_ifs at h with hl
    cases h
    exact .writeReturn hw (Int.not_lt.1 hl)
  | close => cases h; exact .close
  | read socket buffer =>
    simp only [step] at h
    split_ifs at h with hr hg
    · cases h
      exact .readRefused (not_not.1 hr) hg
    · cases h
      rw [not_or, Int.not_le] at hg
      exact .read (not_not.1 hr) hg.1 hg.2
  | readCall r =>
    simp only [step, Option.bind_eq_some_iff] at h
    obtain ⟨c, hr, h⟩ := h
    by_cases hl : 0 < c.leftBytes
    · rw [if_pos hl] at h
      cases r with
      | count n =>
        cases n with
        | zero =>
          simp only at h
          split_ifs at h with hu
          cases h
          exact .readEnd hr hu.1 hu.2
        | succ n =>
          simp only at h
          split_ifs at h with hn
          cases h
          exact .readCount hr hn.1 (Nat.succ_pos n) hn.2
      | transient => cases h; exact .readTransient hr
      | hard => cases h; exact .readHard hr
    · rw [if_neg hl] at h; cases h
  | readReturn =>
    simp only [step, Option.bind_eq_some_iff] at h
    obtain ⟨c, hr, h⟩ := h
    split_ifs at h with hl
    cases h
    exact .readReturn hr (Int.not_lt.1 hl)

/-! ## One call -/

/-- what is done and what is left are the buffer -/
structure Spans (c : Call) : Prop where
  sum : (c.ptr : Int) + c.leftBytes = c.buffer.length
  left : 0 ≤ c.leftBytes
  size : 0 < c.buffer.length

theorem start_spans {buffer : List UInt8} (hb : buffer ≠ []) : Spans (start buffer) :=
  ⟨by simp [start], by simp [start], List.length_pos_iff.2 hb⟩

theorem Spans.overruns (h : Spans c) : c.overruns = false := by
  have := h.sum
  simp [Call.overruns]
  omega

theorem Spans.advance (h : Spans c) {n : ℕ} (hn : (n : Int) ≤ c.leftBytes) : Spans (c.advance n) := by
  have := h.sum
  refine ⟨?_, ?_, h.size⟩ <;> simp only [Call.advance] <;> omega

theorem Spans.fill_length (h : Spans c) {bytes : List UInt8} (hn : (bytes.length : Int) ≤ c.leftBytes) :
    (c.fill bytes).buffer.length = c.buffer.length := by
  have := h.sum
  simp only [Call.fill, List.length_append, List.length_take, List.length_drop]
  omega

theorem Spans.fill (h : Spans c) {bytes : List UInt8} (hn : (bytes.length : Int) ≤ c.leftBytes) :
    Spans (c.fill bytes) := by
  have hlen := h.fill_length hn
  refine ⟨?_, h.left, by rw [hlen]; exact h.size⟩
  rw [hlen]
  exact h.sum

/-- a call whose loop has ended has done its buffer -/
theorem Spans.done (h : Spans c) (hl : c.leftBytes ≤ 0) : c.ptr = c.buffer.length ∧ c.leftBytes = 0 := by
  have := h.sum
  have := h.left
  omega

theorem moved_write (c : Call) (n : ℕ) : (c.advance n).moved = c.moved ++ (c.buffer.drop c.ptr).take n := by
  simp [Call.moved, Call.advance, List.take_add]

theorem Spans.moved_read (h : Spans c) {bytes : List UInt8} :
    ((c.fill bytes).advance bytes.length).moved = c.moved ++ bytes := by
  have hsum := h.sum
  have hleft := h.left
  have hlen : (c.buffer.take c.ptr ++ bytes).length = c.ptr + bytes.length := by
    rw [List.length_append, List.length_take]; omega
  simp only [Call.moved, Call.advance, Call.fill]
  rw [← hlen, List.take_left]

theorem moved_nil (hp : c.ptr = 0) : c.moved = [] := by simp [Call.moved, hp]

theorem Spans.moved_done (h : Spans c) (hl : c.leftBytes ≤ 0) : c.moved = c.buffer := by
  rw [Call.moved, (h.done hl).1, List.take_length]

/-! ## The invariant -/

/-- the bytes that a call has moved so far -/
def inHand (c : Option Call) : List UInt8 := c.toList.flatMap Call.moved

def Returned.moved (x : Returned) : List UInt8 := x.call.moved

/-- the guard at the top of both functions -/
def Returned.Refused (x : Returned) : Prop := x.socket ≤ 0 ∨ x.call.buffer = []

/-- a refused call returns -1 and has made no system call; any other returns its size with the buffer done, 0 at the end
of the stream, or -1 after a hard error -/
def Returned.Sound (x : Returned) : Prop :=
  x.Refused ∧ x.value = -1 ∧ x.call.last = none ∧ x.moved = [] ∨
    ¬ x.Refused ∧ (x.value = x.call.buffer.length ∧ 0 < x.value ∧ x.moved = x.call.buffer ∨
      x.value = 0 ∧ x.call.last = some (.count 0) ∨ x.value = -1 ∧ x.call.last = some .hard)

structure Inv (s : St) : Prop where
  inside : s.outside = false
  writing : ∀ c, s.writer = some c → Spans c ∧ 0 < s.writerSocket
  reading : ∀ c, s.reader = some c → Spans c ∧ 0 < s.readerSocket
  writes : ∀ x ∈ s.writes, x.Sound ∧ x.value ≠ 0
  reads : ∀ x ∈ s.reads, x.Sound
  written : s.written = s.writes.flatMap Returned.moved ++ inHand s.writer
  taken : s.written = s.reads.flatMap Returned.moved ++ inHand s.reader ++ s.unread
  ended : (∃ x ∈ s.reads, x.value = 0) → s.closed = true ∧ s.unread = [] ∧ ∀ c, s.reader = some c → c.ptr = 0

theorem Inv.in_writes (h : Inv s) {x : Returned} (hx : x.Sound) (h0 : x.value ≠ 0) :
    ∀ y ∈ s.writes ++ [x], y.Sound ∧ y.value ≠ 0 := by
  intro y hy
  rcases List.mem_append.1 hy with hy | hy
  · exact h.writes y hy
  · rw [List.mem_singleton.1 hy]; exact ⟨hx, h0⟩

theorem Inv.in_reads (h : Inv s) {x : Returned} (hx : x.Sound) : ∀ y ∈ s.reads ++ [x], y.Sound := by
  intro y hy
  rcases List.mem_append.1 hy with hy | hy
  · exact h.reads y hy
  · rw [List.mem_singleton.1 hy]; exact hx

/-- a read that is not at the end of the stream returns -/
theorem Inv.still_ended (h : Inv s) {x : Returned} (hx : x.value ≠ 0) (he : ∃ y ∈ s.reads ++ [x], y.value = 0) :
    s.closed = true ∧ s.unread = [] := by
  obtain ⟨y, hy, h0⟩ := he
  rcases List.mem_append.1 hy with hy | hy
  · exact ⟨(h.ended ⟨y, hy, h0⟩).1, (h.ended ⟨y, hy, h0⟩).2.1⟩
  · rw [List.mem_singleton.1 hy] at h0
    exact absurd h0 hx

theorem refused_sound {socket : Int} {buffer : List UInt8} (hg : socket ≤ 0 ∨ buffer = []) :
    (⟨socket, start buffer, -1⟩ : Returned).Sound := Or.inl ⟨hg, rfl, rfl, moved_nil rfl⟩

theorem Spans.not_refused (h : Spans c) {socket : Int} (hs : 0 < socket) (v : Int) :
    ¬ (⟨socket, c, v⟩ : Returned).Refused := by
  rintro (hneg | hnil)
  · exact absurd hneg (Int.not_le.2 hs)
  · exact absurd hnil (List.ne_nil_of_length_pos h.size)

theorem Spans.returned (h : Spans c) {socket : Int} (hs : 0 < socket) (hl : c.leftBytes ≤ 0) :
    (⟨socket, c, c.buffer.length - c.leftBytes⟩ : Returned).Sound ∧ (c.buffer.length - c.leftBytes : Int) ≠ 0 := by
  have hsize := h.size
  obtain ⟨-, hz⟩ := h.done hl
  refine ⟨Or.inr ⟨h.not_refused hs _, Or.inl ⟨?_, ?_, h.moved_done hl⟩⟩, by omega⟩ <;> dsimp only <;> omega

theorem Spans.hard (h : Spans c) {socket : Int} (hs : 0 < socket) :
    (⟨socket, { c with last := some .hard }, -1⟩ : Returned).Sound :=
  Or.inr ⟨h.not_refused hs (-1), Or.inr (Or.inr ⟨rfl, rfl⟩)⟩

theorem step_inv (hs : Step s o s') (h : Inv s) : Inv s' := by
  have quiet : ∀ {c}, Spans c → (s.outside || c.overruns) = false := fun hc => by rw [h.inside, hc.overruns]; rfl
  have hneg : (-1 : Int) ≠ 0 := by decide
  cases hs with
  | @writeRefused socket buffer hg =>
    refine ⟨h.inside, h.writing, h.reading, h.in_writes (refused_sound hg) hneg, h.reads, ?_, h.taken, h.ended⟩
    rw [h.written]
    simp [Returned.moved, moved_nil, start]
  | @write socket buffer hw hs hb =>
    refine ⟨h.inside, fun c hc => ?_, h.reading, h.writes, h.reads, ?_, h.taken, h.ended⟩
    · obtain rfl := Option.some.inj hc
      exact ⟨start_spans hb, hs⟩
    · rw [h.written, hw]
      simp [inHand, moved_nil, start]
  | @writeCount c n hw hn hc =>
    obtain ⟨hsp, hpos⟩ := h.writing c hw
    refine ⟨quiet hsp, fun d hd => ?_, h.reading, h.writes, h.reads, ?_, ?_, fun he => ?_⟩
    · obtain rfl := Option.some.inj hd
      exact ⟨hsp.advance hn, hpos⟩
    · rw [h.written, hw]
      simp [inHand, moved_write]
    · dsimp only
      rw [h.taken]
      simp
    · -- nothing is written after the end of the stream
      rw [(h.ended he).1] at hc; cases hc
  | @writeTransient c hw =>
    obtain ⟨hsp, hpos⟩ := h.writing c hw
    refine ⟨quiet hsp, fun d hd => ?_, h.reading, h.writes, h.reads, ?_, h.taken, h.ended⟩
    · obtain rfl := Option.some.inj hd
      exact ⟨⟨hsp.sum, hsp.left, hsp.size⟩, hpos⟩
    · rw [h.written, hw]; rfl
  | @writeHard c hw =>
    obtain ⟨hsp, hpos⟩ := h.writing c hw
    refine ⟨quiet hsp, fun d hd => (by cases hd), h.reading, h.in_writes (hsp.hard hpos) hneg, h.reads, ?_, h.taken,
      h.ended⟩
    rw [h.written, hw]
    simp [inHand, Returned.moved, Call.moved]
  | @writeReturn c hw hl =>
    obtain ⟨hsp, hpos⟩ := h.writing c hw
    obtain ⟨hsound, h0⟩ := hsp.returned hpos hl
    refine ⟨h.inside, fun d hd => (by cases hd), h.reading, h.in_writes hsound h0, h.reads, ?_, h.taken, h.ended⟩
    rw [h.written, hw]
    simp [inHand, Returned.moved]
  | close => exact ⟨h.inside, h.writing, h.reading, h.writes, h.reads, h.written, h.taken,
      fun he => ⟨rfl, (h.ended he).2⟩⟩
  | @readRefused socket buffer hr hg =>
    refine ⟨h.inside, h.writing, h.reading, h.writes, h.in_reads (refused_sound hg), h.written, ?_, fun he => ?_⟩
    · rw [h.taken]
      simp [Returned.moved, moved_nil, start]
    · obtain ⟨hcl, hu⟩ := h.still_ended (x := ⟨socket, start buffer, -1⟩) hneg he
      exact ⟨hcl, hu, fun d hd => by rw [hr] at hd; cases hd⟩
  | @read socket buffer hr hs hb =>
    refine ⟨h.inside, h.writing, fun c hc => ?_, h.writes, h.reads, h.written, ?_, fun he => ?_⟩
    · obtain rfl := Option.some.inj hc
      exact ⟨start_spans hb, hs⟩
    · rw [h.taken, hr]
      simp [inHand, moved_nil, start]
    · obtain ⟨hcl, hu, -⟩ := h.ended he
      refine ⟨hcl, hu, fun c hc => ?_⟩
      obtain rfl := Option.some.inj hc
      rfl
  | @readEnd c hr hu hc =>
    obtain ⟨hsp, hpos⟩ := h.reading c hr
    have hsound : (⟨s.readerSocket, { c with last := some (.count 0) }, 0⟩ : Returned).Sound :=
      Or.inr ⟨hsp.not_refused hpos 0, Or.inr (Or.inl ⟨rfl, rfl⟩)⟩
    refine ⟨quiet hsp, h.writing, fun d hd => (by cases hd), h.writes, h.in_reads hsound, h.written, ?_,
      fun _ => ⟨hc, hu, fun d hd => by cases hd⟩⟩
    rw [h.taken, hr]
    simp [inHand, Returned.moved, Call.moved]
  | @readCount c n hr hn h0 hu =>
    obtain ⟨hsp, hpos⟩ := h.reading c hr
    have hlen : (s.unread.take n).length = n := List.length_take_of_le hu
    refine ⟨quiet hsp, h.writing, fun d hd => ?_, h.writes, h.reads, h.written, ?_, fun he => ?_⟩
    · obtain rfl := Option.some.inj hd
      exact ⟨(hsp.fill (by rw [hlen]; exact hn)).advance hn, hpos⟩
    · have hmoved : ((c.fill (s.unread.take n)).advance (s.unread.take n).length).moved = _ := hsp.moved_read
      rw [hlen] at hmoved
      rw [h.taken, hr]
      simp [inHand, hmoved]
    · -- there is something to read
      rw [(h.ended he).2.1] at hu
      simp at hu
      omega
  | @readTransient c hr =>
    obtain ⟨hsp, hpos⟩ := h.reading c hr
    refine ⟨quiet hsp, h.writing, fun d hd => ?_, h.writes, h.reads, h.written, ?_, fun he => ?_⟩
    · obtain rfl := Option.some.inj hd
      exact ⟨⟨hsp.sum, hsp.left, hsp.size⟩, hpos⟩
    · rw [h.taken, hr]; rfl
    · obtain ⟨hcl, hu, hp⟩ := h.ended he
      refine ⟨hcl, hu, fun d hd => ?_⟩
      obtain rfl := Option.some.inj hd
      exact hp c hr
  | @readHard c hr =>
    obtain ⟨hsp, hpos⟩ := h.reading c hr
    refine ⟨quiet hsp, h.writing, fun d hd => (by cases hd), h.writes, h.in_reads (hsp.hard hpos), h.written, ?_,
      fun he => ?_⟩
    · rw [h.taken, hr]
      simp [inHand, Returned.moved, Call.moved]
    · obtain ⟨hcl, hu⟩ := h.still_ended (x := ⟨s.readerSocket, { c with last := some .hard }, -1⟩) hneg he
      exact ⟨hcl, hu, fun d hd => by cases hd⟩
  | @readReturn c hr hl =>
    obtain ⟨hsp, hpos⟩ := h.reading c hr
    obtain ⟨hsound, h0⟩ := hsp.returned hpos hl
    refine ⟨h.inside, h.writing, fun d hd => (by cases hd), h.writes, h.in_reads hsound, h.written, ?_, fun he => ?_⟩
    · rw [h.taken, hr]
      simp [inHand, Returned.moved]
    · obtain ⟨hcl, hu⟩ := h.still_ended h0 he
      exact ⟨hcl, hu, fun d hd => by cases hd⟩

/-! ## The prefix -/

/-- unless a read has failed half way, what the reads have taken is what they have returned, but for a rest that was
taken before the end of the stream -/
def InOrder (s : St) : Prop := (∀ x ∈ s.reads, x.value = -1 → x.moved = []) →
  ∃ rest, s.reads.flatMap Returned.moved = received s ++ rest ∧ (rest ≠ [] → ∃ x ∈ s.reads, x.value = 0)

theorem received_snoc {x : Returned} (hr : s'.reads = s.reads ++ [x]) :
    received s' = received s ++ if 0 < x.value then x.call.buffer else [] := by
  rw [received, hr, received]
  by_cases hv : 0 < x.value <;> simp [hv]

/-- a read returns -1: if it has taken bytes, nothing is promised any more -/
theorem InOrder.failed (h : InOrder s) {x : Returned} (hr : s'.reads = s.reads ++ [x]) (hneg : x.value = -1) :
    InOrder s' := by
  intro hno
  rw [hr] at hno
  obtain ⟨rest, htaken, hrest⟩ := h fun y hy => hno y (List.mem_append_left _ hy)
  have hm : x.moved = [] := hno x (by simp) hneg
  have hcat : s'.reads.flatMap Returned.moved = received s ++ rest := by
    rw [hr, List.flatMap_append, htaken]; simp [hm]
  rw [hcat, received_snoc hr, hr]
  refine ⟨rest, by simp [hneg], fun hne => ?_⟩
  obtain ⟨y, hy, h0⟩ := hrest hne
  exact ⟨y, List.mem_append_left _ hy, h0⟩

/-- the read `c` returns: refused or after a hard error, successfully, or at the end of the stream -/
theorem InOrder.snoc (h : InOrder s) (hi : Inv s) {x : Returned} (hr : s'.reads = s.reads ++ [x]) (hx : x.Sound)
    (hc : s.reader = some c) (hb : x.call.buffer = c.buffer) (hp : x.call.ptr = c.ptr) : InOrder s' := by
  rcases hx with ⟨-, hneg, -⟩ | ⟨-, ⟨-, hpos, hm⟩ | ⟨h0, -⟩ | ⟨hneg, -⟩⟩
  · exact h.failed hr hneg
  · intro hno
    rw [hr] at hno
    obtain ⟨rest, htaken, hrest⟩ := h fun y hy => hno y (List.mem_append_left _ hy)
    -- after the end of the stream a read does not fill its buffer
    have hnil : rest = [] := by
      by_contra hne
      have hzero : x.moved = [] := moved_nil (hp.trans ((hi.ended (hrest hne)).2.2 c hc))
      have hsize := (hi.reading c hc).1.size
      rw [← hb, ← hm, hzero] at hsize
      exact absurd hsize (Nat.lt_irrefl 0)
    have hcat : s'.reads.flatMap Returned.moved = received s ++ x.moved := by
      rw [hr, List.flatMap_append, htaken]; simp [hnil]
    rw [hcat, received_snoc hr, hr]
    exact ⟨[], by simp [hpos, hm], fun hne => absurd rfl hne⟩
  · intro hno
    rw [hr] at hno
    obtain ⟨rest, htaken, -⟩ := h fun y hy => hno y (List.mem_append_left _ hy)
    have hcat : s'.reads.flatMap Returned.moved = received s ++ (rest ++ x.moved) := by
      rw [hr, List.flatMap_append, htaken]; simp
    rw [hcat, received_snoc hr, hr]
    exact ⟨rest ++ x.moved, by simp [h0], fun _ => ⟨x, by simp, h0⟩⟩
  · exact h.failed hr hneg

theorem step_inOrder (hs : Step s o s') (hi : Inv s) (h : InOrder s) : InOrder s' := by
  have hi' := step_inv hs hi
  cases hs with
  | readRefused hr hg => exact h.failed rfl rfl
  | readEnd hr _ _ | readHard hr | readReturn hr _ => exact h.snoc hi rfl (hi'.reads _ (by simp)) hr rfl rfl
  | _ => exact h

theorem run_inv {ops : List Op} (hr : stream.run stream.init ops = some s) : Inv s ∧ InOrder s := by
  refine stream.run_inv (I := fun s => Inv s ∧ InOrder s)
    (fun _ _ _ h hs => ⟨step_inv (step_eq hs) h.1, step_inOrder (step_eq hs) h.1 h.2⟩) ⟨?_, ?_⟩ hr
  · refine ⟨rfl, fun c hc => (by cases hc), fun c hc => (by cases hc), ?_, ?_, rfl, rfl, ?_⟩ <;> simp [stream]
  · exact fun _ => ⟨[], rfl, fun h => absurd rfl h⟩

/-- **A reliable stream.** In every run: no system call is given memory outside its buffer; a call with a positive
descriptor and a buffer returns its size with the whole buffer moved, or a write returns -1 after a hard error, a read 0
at the end of the stream or -1 after a hard error, and any other call returns -1 and makes no system call; the calls of
writeSocket have put their bytes into the stream, in order; and the buffers of the successful reads are a prefix of the
stream, unless a read has returned -1 with bytes that it had taken. -/
theorem stream_reliable (ops : List Op) (s : St) (hr : stream.run stream.init ops = some s) :
    s.outside = false ∧ (∀ x ∈ s.writes ++ s.reads, x.Sound) ∧ (∀ x ∈ s.writes, x.value ≠ 0) ∧
      ((∃ x ∈ s.reads, x.value = 0) → s.closed = true ∧ s.unread = []) ∧
      s.written = s.writes.flatMap Returned.moved ++ inHand s.writer ∧
      ((∀ x ∈ s.reads, x.value = -1 → x.moved = []) → received s <+: s.written) := by
  obtain ⟨h, ho⟩ := run_inv hr
  refine ⟨h.inside, fun x hx => ?_, fun x hx => (h.writes x hx).2, fun he => ⟨(h.ended he).1, (h.ended he).2.1⟩,
    h.written, fun hno => ?_⟩
  · rcases List.mem_append.1 hx with hx | hx
    · exact (h.writes x hx).1
    · exact h.reads x hx
  · obtain ⟨rest, htaken, -⟩ := ho hno
    rw [h.taken, htaken]
    simp only [List.append_assoc]
    exact List.prefix_append _ _

/-- two writes, of 3 and 2 bytes, and two reads, of 1 and 4 bytes; the last write is cut, the last read interrupted -/
def cutOps : List Op :=
  [.write 4 [1, 2, 3], .writeCall (.count 3), .writeReturn, .read 5 [0], .readCall (.count 1), .readReturn,
    .write 4 [4, 5], .read 5 [0, 0, 0, 0], .readCall .transient, .writeCall (.count 1), .readCall (.count 3),
    .writeCall .transient, .writeCall (.count 1), .writeReturn, .readCall (.count 1), .readReturn]

theorem stream_reliable_cut : ∃ s, stream.run stream.init cutOps = some s ∧ received s = [1, 2, 3, 4, 5] ∧
    received s <+: s.written :=
  ⟨_, rfl, rfl, (stream_reliable cutOps _ rfl).2.2.2.2.2 (by decide)⟩

/-- a read of 2 bytes takes one and fails; the next one returns the two behind it -/
def failedOps : List Op :=
  [.write 4 [1, 2, 3], .writeCall (.count 3), .writeReturn, .read 5 [0, 0], .readCall (.count 1), .readCall .hard,
    .read 5 [0, 0], .readCall (.count 2), .readReturn]

/-- **A failed read loses bytes**, and a read on descriptor 0 fails without an error. -/
theorem failed_read_loses : (¬ ∀ ops s, stream.run stream.init ops = some s → received s <+: s.written) ∧
    ¬ ∀ ops s, stream.run stream.init ops = some s → ∀ x ∈ s.reads, x.call.buffer ≠ [] → x.value = -1 →
      x.call.last = some .hard := by
  constructor
  · intro h
    exact absurd (h failedOps _ rfl) (by decide)
  · intro h
    exact absurd (h [.read 0 [0]] _ rfl ⟨0, start [0], -1⟩ (by decide) (by decide) rfl) (by decide)

end Hodgepodge.SocketHelper.Stream
