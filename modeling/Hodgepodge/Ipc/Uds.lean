/-
`ipc_connection_linux_UDS::read` and `write` (tipc.cpp). Both are loops around a system call, with the variables of
`readSocket` and `writeSocket`: `ptr` and `leftBytes` move by what the call returns, EINTR, EAGAIN and EWOULDBLOCK are
retried, and any other error leaves the loop with `err = errno`. With a count pointer a read stops after one turn and
stores the count in `*lp_cnt`.

A `::read` that returns 0 leaves the loop too, and leaves `err` at 0. A blocking read that meets the end of the stream
before its buffer is full therefore reports success, as a full one does, and without a count pointer its caller cannot
tell: `server_tst1` goes on to compare bytes that were not received. On Windows `read` returns the error of the broken
pipe in the same place.

Model: a turn of a loop takes what its system call returns. `stream` is what has not been read yet: a read takes from
its front, a write appends.

Results:
- `readTurn_on`, `readTurn_out`, `writeTurn_on`, `writeTurn_out`: what a turn does.
- `read_fills_iff`: a blocking read that returns 0 has filled its buffer from the stream exactly if none of its system
  calls met the end of the stream.
- `short_read_succeeds`: one byte of two, then the end.
- `write_completes`: a write that returns 0 has written its buffer.
-/
import Hodgepodge.Core.Loop
import Hodgepodge.Socket.Stream

namespace Hodgepodge.Ipc.Uds

open Hodgepodge.Core
open Hodgepodge.SocketHelper.Stream (Call start Spans)

/-! ## Model -/

/-- what `::read` and `::write` return: a count, or -1 with `errno` -/
inductive Outcome where
  | count (n : ℕ)
  | error (errno : Int)
deriving DecidableEq

/-- a call on its way, and the stream that it reads or writes -/
structure Io where
  call : Call
  stream : List UInt8
deriving DecidableEq

/-- the loop goes on, or it is left with `err` -/
abbrev IoTurn := Turn Io (Int × Io)

/-- the end of the loop body and the condition of the loop; `once`: the body ends with a break -/
def next (once : Bool) (io : Io) : IoTurn :=
  if once || decide (io.call.leftBytes ≤ 0) then .out (0, io) else .on io

/-- what both loops do with -1; `errno` is positive -/
def failed (once : Bool) (io : Io) (errno : Int) : Option IoTurn :=
  if errno ≤ 0 then none
  else if hardError errno then some (.out (errno, io))
  else some (next once io)

def Io.take (io : Io) (n : ℕ) : Io := ⟨(io.call.fill (io.stream.take n)).advance n, io.stream.drop n⟩

def Io.put (io : Io) (n : ℕ) : Io := ⟨io.call.advance n, io.stream ++ (io.call.buffer.drop io.call.ptr).take n⟩

/-- `::read` returns 0 at the end of the stream only -/
def readTurn (lpCnt : Bool) (io : Io) : Outcome → Option IoTurn
  | .count 0 => if io.stream = [] then some (.out (0, io)) else none
  | .count n =>
    if (n : Int) ≤ io.call.leftBytes ∧ n ≤ io.stream.length then some (next lpCnt (io.take n)) else none
  | .error errno => failed lpCnt io errno

def writeTurn (io : Io) : Outcome → Option IoTurn
  | .count n => if (n : Int) ≤ io.call.leftBytes then some (next false (io.put n)) else none
  | .error errno => failed false io errno

/-- what a call returns and leaves behind; `cnt` is `*lp_cnt`, if it is written -/
structure Reply where
  err : Int
  buffer : List UInt8
  stream : List UInt8
  cnt : Option Int
deriving DecidableEq

def reply (lpCnt : Bool) (r : Int × Io) : Reply :=
  ⟨r.1, r.2.call.buffer, r.2.stream, if lpCnt then some (r.2.call.buffer.length - r.2.call.leftBytes) else none⟩

/-- `m_fd <= 0 || !buffer || bufferSize <= 0`: no system call is made -/
def refused (buffer stream : List UInt8) (outcomes : List Outcome) : Option Reply :=
  if outcomes = [] then some ⟨-1, buffer, stream, none⟩ else none

/-- `buffer` is the memory of `bufferSize` bytes, `[]` a null pointer or a size that is not positive -/
def read (fd : Int) (lpCnt : Bool) (buffer stream : List UInt8) (outcomes : List Outcome) : Option Reply :=
  if fd ≤ 0 ∨ buffer = [] then refused buffer stream outcomes
  else (Turn.loop (readTurn lpCnt) ⟨start buffer, stream⟩ outcomes).map (reply lpCnt)

def write (fd : Int) (buffer stream : List UInt8) (outcomes : List Outcome) : Option Reply :=
  if fd ≤ 0 ∨ buffer = [] then refused buffer stream outcomes
  else (Turn.loop writeTurn ⟨start buffer, stream⟩ outcomes).map (reply false)

/-! ## A turn -/

variable {lpCnt once : Bool} {io io' : Io} {o : Outcome} {err errno : Int}

theorem next_on (h : next once io = .on io') : io' = io ∧ 0 < io.call.leftBytes := by
  unfold next at h
  split_ifs at h with hl
  cases h
  simp only [Bool.or_eq_true, decide_eq_true_eq, not_or, Int.not_le] at hl
  exact ⟨rfl, hl.2⟩

theorem next_out (h : next once io = .out (err, io')) :
    err = 0 ∧ io' = io ∧ (once = true ∨ io.call.leftBytes ≤ 0) := by
  unfold next at h
  split_ifs at h with hl
  cases h
  exact ⟨rfl, rfl, by simpa using hl⟩

theorem failed_on (h : failed once io errno = some (.on io')) : io' = io ∧ 0 < io.call.leftBytes := by
  unfold failed at h
  split_ifs at h
  · cases h
  · exact next_on (Option.some.inj h)

/-- the loop is left with an error other than 0, or after a transient error because it turns once only -/
theorem failed_out (hl : 0 < io.call.leftBytes) (h : failed once io errno = some (.out (err, io'))) :
    io' = io ∧ (err ≠ 0 ∨ once = true) := by
  unfold failed at h
  split_ifs at h with hpos
  · cases h
    exact ⟨rfl, Or.inl fun h0 => hpos (Int.le_of_eq h0)⟩
  · obtain ⟨-, rfl, hdone⟩ := next_out (Option.some.inj h)
    exact ⟨rfl, Or.inr (hdone.resolve_right (Int.not_le.2 hl))⟩

/-- a read that has gone from `io` to `io'`: it has taken from the front of the stream what its buffer has gained -/
structure Takes (io io' : Io) : Prop where
  spans : Spans io'.call
  size : io'.call.buffer.length = io.call.buffer.length
  moved : io'.call.moved ++ io'.stream = io.call.moved ++ io.stream

theorem Takes.refl (h : Spans io.call) : Takes io io := ⟨h, rfl, rfl⟩

theorem Takes.trans {io'' : Io} (h : Takes io io') (h' : Takes io' io'') : Takes io io'' :=
  ⟨h'.spans, h'.size.trans h.size, h'.moved.trans h.moved⟩

theorem Takes.take (h : Spans io.call) {n : ℕ} (hn : (n : Int) ≤ io.call.leftBytes) (hlen : n ≤ io.stream.length) :
    Takes io (io.take n) := by
  have htake : (io.stream.take n).length = n := List.length_take_of_le hlen
  have hfit : ((io.stream.take n).length : Int) ≤ io.call.leftBytes := by rw [htake]; exact hn
  refine ⟨(h.fill hfit).advance hn, h.fill_length hfit, ?_⟩
  have hmoved : ((io.call.fill (io.stream.take n)).advance (io.stream.take n).length).moved =
      io.call.moved ++ io.stream.take n := h.moved_read
  rw [htake] at hmoved
  simp only [Io.take]
  rw [hmoved, List.append_assoc, List.take_append_drop]

/-- the end of the stream does not let a read go on -/
theorem readTurn_on (h : Spans io.call) (ht : readTurn lpCnt io o = some (.on io')) :
    Takes io io' ∧ 0 < io'.call.leftBytes ∧ o ≠ .count 0 := by
  unfold readTurn at ht
  split at ht
  · split_ifs at ht; cases ht
  · rename_i n hn0
    split_ifs at ht with hn
    obtain ⟨rfl, hl⟩ := next_on (Option.some.inj ht)
    exact ⟨.take h hn.1 hn.2, hl, fun h0 => hn0 (by cases h0; rfl)⟩
  · obtain ⟨rfl, hl⟩ := failed_on ht
    exact ⟨.refl h, hl, Outcome.noConfusion⟩

/-- a read is left at the end of the stream, with success, or else with success only if the buffer is done or it
turns once only -/
theorem readTurn_out (h : Spans io.call) (hl : 0 < io.call.leftBytes)
    (ht : readTurn lpCnt io o = some (.out (err, io'))) :
    Takes io io' ∧
      (o = .count 0 ∧ err = 0 ∧ io'.stream = [] ∧ 0 < io'.call.leftBytes ∨
        o ≠ .count 0 ∧ (err = 0 → lpCnt = true ∨ io'.call.leftBytes ≤ 0)) := by
  unfold readTurn at ht
  split at ht
  · split_ifs at ht with hs
    cases ht
    exact ⟨.refl h, Or.inl ⟨rfl, rfl, hs, hl⟩⟩
  · rename_i n hn0
    split_ifs at ht with hn
    obtain ⟨-, rfl, hdone⟩ := next_out (Option.some.inj ht)
    exact ⟨.take h hn.1 hn.2, Or.inr ⟨fun h0 => hn0 (by cases h0; rfl), fun _ => hdone⟩⟩
  · obtain ⟨rfl, hdone⟩ := failed_out hl ht
    exact ⟨.refl h, Or.inr ⟨Outcome.noConfusion, fun h0 => Or.inl (hdone.resolve_left (not_not_intro h0))⟩⟩

/-- a write that has gone from `io` to `io'`: it has appended to the stream what it has moved -/
structure Appends (io io' : Io) : Prop where
  spans : Spans io'.call
  buffer : io'.call.buffer = io.call.buffer
  moved : ∃ bytes, io'.stream = io.stream ++ bytes ∧ io'.call.moved = io.call.moved ++ bytes

theorem Appends.refl (h : Spans io.call) : Appends io io :=
  ⟨h, rfl, [], (List.append_nil _).symm, (List.append_nil _).symm⟩

theorem Appends.trans {io'' : Io} (h : Appends io io') (h' : Appends io' io'') : Appends io io'' := by
  obtain ⟨a, ha, hma⟩ := h.moved
  obtain ⟨b, hb, hmb⟩ := h'.moved
  refine ⟨h'.spans, h'.buffer.trans h.buffer, a ++ b, ?_, ?_⟩
  · rw [hb, ha, List.append_assoc]
  · rw [hmb, hma, List.append_assoc]

theorem Appends.put (h : Spans io.call) {n : ℕ} (hn : (n : Int) ≤ io.call.leftBytes) : Appends io (io.put n) :=
  ⟨h.advance hn, rfl, _, rfl, SocketHelper.Stream.moved_write io.call n⟩

theorem writeTurn_on (h : Spans io.call) (ht : writeTurn io o = some (.on io')) :
    Appends io io' ∧ 0 < io'.call.leftBytes := by
  unfold writeTurn at ht
  split at ht
  · split_ifs at ht with hn
    obtain ⟨rfl, hl⟩ := next_on (Option.some.inj ht)
    exact ⟨.put h hn, hl⟩
  · obtain ⟨rfl, hl⟩ := failed_on ht
    exact ⟨.refl h, hl⟩

/-- a write is left with success only if the buffer is done -/
theorem writeTurn_out (h : Spans io.call) (hl : 0 < io.call.leftBytes) (ht : writeTurn io o = some (.out (err, io'))) :
    Appends io io' ∧ (err = 0 → io'.call.leftBytes ≤ 0) := by
  unfold writeTurn at ht
  split at ht
  · split_ifs at ht with hn
    obtain ⟨-, rfl, hdone⟩ := next_out (Option.some.inj ht)
    exact ⟨.put h hn, fun _ => hdone.resolve_left Bool.false_ne_true⟩
  · obtain ⟨rfl, hdone⟩ := failed_out hl ht
    exact ⟨.refl h, fun h0 => absurd h0 (hdone.resolve_right Bool.false_ne_true)⟩

/-! ## The loops -/

theorem start_left {buffer : List UInt8} (hb : buffer ≠ []) : 0 < (start buffer).leftBytes := by
  have := List.length_pos_iff.2 hb
  simp only [start]
  omega

/-- the buffer holds the next bytes of the stream, and the stream stands behind them -/
def Filled (buffer stream : List UInt8) (r : Reply) : Prop :=
  buffer.length ≤ stream.length ∧ r.buffer = stream.take buffer.length ∧ r.stream = stream.drop buffer.length

instance (buffer stream : List UInt8) (r : Reply) : Decidable (Filled buffer stream r) := by
  unfold Filled; infer_instance

theorem start_moved (buffer : List UInt8) : (start buffer).moved = [] := SocketHelper.Stream.moved_nil rfl

theorem Takes.filled {buffer stream : List UInt8} (h : Takes ⟨start buffer, stream⟩ io) (hl : io.call.leftBytes ≤ 0) :
    Filled buffer stream (reply lpCnt (err, io)) := by
  have hsize : io.call.buffer.length = buffer.length := h.size
  have hmoved : io.call.buffer ++ io.stream = stream := by
    have := h.moved
    rwa [h.spans.moved_done hl, start_moved, List.nil_append] at this
  refine ⟨?_, ?_, ?_⟩
  · rw [← hmoved, ← hsize, List.length_append]
    exact Nat.le_add_right _ _
  · rw [← hmoved, ← hsize, List.take_left]; rfl
  · rw [← hmoved, ← hsize, List.drop_left]; rfl

/-- a read that ends early at the end of the stream has met a stream shorter than its buffer -/
theorem Takes.not_filled {buffer stream : List UInt8} (h : Takes ⟨start buffer, stream⟩ io) (hs : io.stream = [])
    (hl : 0 < io.call.leftBytes) {r : Reply} : ¬ Filled buffer stream r := by
  intro hfill
  have hmoved : io.call.moved = stream := by
    have := h.moved
    rwa [hs, List.append_nil, start_moved, List.nil_append] at this
  have hlen : buffer.length ≤ io.call.ptr := by
    calc buffer.length ≤ stream.length := hfill.1
      _ ≤ io.call.ptr := by rw [← hmoved, Call.moved, List.length_take]; exact Nat.min_le_left _ _
  have hsum := h.spans.sum
  have hsize : io.call.buffer.length = buffer.length := h.size
  omega

/-- **A blocking read and its buffer.** A blocking read of any size, from any stream, however its system calls cut it
up, fills its buffer whenever it returns 0 exactly if none of them met the end of the stream. -/
theorem read_fills_iff (fd : Int) (buffer stream : List UInt8) (outcomes : List Outcome) (r : Reply)
    (hb : buffer ≠ []) (hr : read fd false buffer stream outcomes = some r) :
    (r.err = 0 → Filled buffer stream r) ↔ Outcome.count 0 ∉ outcomes := by
  unfold read refused at hr
  split_ifs at hr with hguard hnil
  · cases hr
    simp [hnil]
  obtain ⟨⟨err, io⟩, hloop, rfl⟩ := Option.map_eq_some_iff.1 hr
  -- the turns before the last did not meet the end of the stream
  have hend := Turn.loop_ends
    (P := fun before io =>
      .count 0 ∉ before ∧ Takes ⟨start buffer, stream⟩ io ∧ 0 < io.call.leftBytes)
    (fun before io o io' ⟨hbefore, htakes, _⟩ ht => by
      obtain ⟨htakes', hleft, hne⟩ := readTurn_on htakes.spans ht
      exact ⟨by simp [hbefore, hne.symm], htakes.trans htakes', hleft⟩)
    ⟨List.not_mem_nil, .refl (SocketHelper.Stream.start_spans hb), start_left hb⟩ hloop
  obtain ⟨before, last, io₁, rfl, ⟨hbefore, htakes, hleft⟩, hlast⟩ := hend
  obtain ⟨htakes', ⟨h0, herr, hs, hl⟩ | ⟨hne, hdone⟩⟩ := readTurn_out htakes.spans hleft hlast
  · refine iff_of_false (fun hfill => ?_) (by simp [h0])
    exact (htakes.trans htakes').not_filled hs hl (hfill herr)
  · refine iff_of_true (fun herr => ?_) (by simpa [hne.symm] using hbefore)
    exact (htakes.trans htakes').filled ((hdone herr).resolve_left Bool.false_ne_true)

theorem one_full_read :
    ∃ r, read 3 false [0, 0] [7, 8, 9] [.count 1, .error EINTR, .count 1] = some r ∧
      (r.err = 0 → Filled [0, 0] [7, 8, 9] r) :=
  ⟨_, rfl, (read_fills_iff 3 [0, 0] [7, 8, 9] [.count 1, .error EINTR, .count 1] _ (by decide) rfl).2 (by decide)⟩

/-- **A short read succeeds.** One byte arrives, then the stream ends: 0, with one byte of two. -/
theorem short_read_succeeds :
    ¬ ∀ (fd : Int) (buffer stream : List UInt8) (outcomes : List Outcome) (r : Reply), buffer ≠ [] →
        read fd false buffer stream outcomes = some r → r.err = 0 → Filled buffer stream r := by
  intro h
  have := h 3 [0, 0] [7] [.count 1, .count 0] ⟨0, [7, 0], [], none⟩ (by decide) (by decide) rfl
  revert this
  decide

/-- a write that returns 0 has written its buffer -/
theorem write_completes {fd : Int} {buffer stream : List UInt8} {outcomes : List Outcome} {r : Reply}
    (hr : write fd buffer stream outcomes = some r) (h0 : r.err = 0) : r.stream = stream ++ buffer := by
  unfold write refused at hr
  split_ifs at hr with hguard
  · cases hr; cases h0
  have hb : buffer ≠ [] := fun h => hguard (Or.inr h)
  obtain ⟨⟨err, io⟩, hloop, rfl⟩ := Option.map_eq_some_iff.1 hr
  have hend := Turn.loop_ends (P := fun _ io => Appends ⟨start buffer, stream⟩ io ∧ 0 < io.call.leftBytes)
    (fun _ io o io' ⟨happends, _⟩ ht =>
      ⟨happends.trans (writeTurn_on happends.spans ht).1, (writeTurn_on happends.spans ht).2⟩)
    ⟨.refl (SocketHelper.Stream.start_spans hb), start_left hb⟩ hloop
  obtain ⟨-, last, io₁, -, ⟨happends, hleft⟩, hlast⟩ := hend
  obtain ⟨hturn, hdone⟩ := writeTurn_out happends.spans hleft hlast
  obtain ⟨bytes, hs, hm⟩ := (happends.trans hturn).moved
  have hall : io.call.moved = buffer := by
    rw [hturn.spans.moved_done (hdone h0)]
    exact (happends.trans hturn).buffer
  rw [hall, start_moved, List.nil_append] at hm
  rw [hm]
  exact hs

end Hodgepodge.Ipc.Uds
