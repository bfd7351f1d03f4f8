/-
The bulk transfer of tipc.cpp: the client's answer to the input "tst1", and `server_tst1`. The client writes an `int`,
then that many bytes, which count up from 0, in packets of random lengths. The server reads the `int`, then blocks of
`sizeof(buff_rx)` bytes, the last one shorter, and compares every byte with `(char)id`.

Model: from the moment the server has read the request. A step is a system call of one of the two sides, with any
outcome, or the start of a packet or a block; the client may write anything afterwards. The client does not look at what
its writes return, and the server does not at what its first read returns. The progress line is that of `Tst1Progress`.

Results:
- `readTurn_step`, `writeTurn_step`: what a system call does in a run without an end of the stream or a hard error.
- `Inv`, `step_inv`: what is written is what the server has taken, then what is unread; the server counts along.
- `step_work`, `Inv.either_moves`: a step that moves a byte, or starts a packet or a block, uses up work, and until the
  transfer has ended there is one.
- `transfer_exact`: for every total and every run.
-/
import Hodgepodge.Core.Lts
import Hodgepodge.Ipc.Tst1Progress
import Hodgepodge.Ipc.Uds

namespace Hodgepodge.Ipc.ServerTst1

open Hodgepodge.Core Hodgepodge.Core.Checked
open Hodgepodge.Ipc.Uds (Outcome Io IoTurn readTurn writeTurn)
open Hodgepodge.SocketHelper.Stream (Call start Spans)

/-! ## Numbers as bytes -/

/-- `(char)id` -/
def char (id : ℤ) : UInt8 := UInt8.ofNat (id % 256).toNat

/-- the memory of an `int`, the lowest byte first -/
def intBytes (i : ℤ) : List UInt8 := [char i, char (i / 256), char (i / 65536), char (i / 16777216)]

/-- the `int` in four bytes -/
def intOf (bytes : List UInt8) : ℤ := wrap (bytes.foldr (fun byte i => byte.toNat + 256 * i) 0)

/-! ## Model -/

/-- `sizeof(buff_tx)` -/
abbrev sizeofBuffTx : ℕ := 1024

/-- `for (k = 0; k < len && id < total; k++, id++) buff_tx[k] = id`: what is stored, and `id` -/
def fill (total : ℤ) : ℕ → ℤ → List UInt8 × ℤ
  | 0, id => ([], id)
  | len + 1, id =>
    if id < total then
      let rest := fill total len (id + 1)
      (char id :: rest.1, rest.2)
    else ([], id)

/-- `for (int k = 0; k < len && id < total; k++, id++)` over a block; `none`: the exception, at a byte other than
`(char)id` -/
def compare (total : ℤ) : List UInt8 → ℤ → Option ℤ
  | [], id => some id
  | byte :: bytes, id =>
    if id < total then
      if byte ≠ char id then none else compare total bytes (id + 1)
    else some id

inductive Client where
  /-- in `client->write`: of `total`, with `id` at 0, or of a packet, with `id` behind it -/
  | write (id : ℤ) (call : Call)
  /-- about to fill a packet -/
  | packet (id : ℤ)
  /-- the transfer is written -/
  | input
deriving DecidableEq

inductive Server where
  /-- in the read of `total` -/
  | total (call : Call)
  /-- about to read a block -/
  | loop (total id : ℤ)
  | block (total id : ℤ) (call : Call)
  /-- behind the loop -/
  | done (total id : ℤ)
  | aborted (err : ℤ)
  /-- "tst1 failed" -/
  | failed
deriving DecidableEq

structure St where
  client : Client
  server : Server
  stream : List UInt8
  /-- all that the client has written -/
  written : List UInt8
deriving DecidableEq

inductive Op where
  /-- `rand()` is `r` -/
  | packet (r : ℕ)
  | writeCall (o : Outcome)
  | later (bytes : List UInt8)
  /-- `memory` is what the first `len` bytes of `buff_rx` hold -/
  | block (memory : List UInt8)
  | readCall (o : Outcome)
deriving DecidableEq

/-- the client at `while (id < total)` -/
def Client.next (total id : ℤ) : Client := if id < total then .packet id else .input

/-- the server at `while (id < total)` -/
def Server.next (total id : ℤ) : Server := if id < total then .loop total id else .done total id

def io : IoTurn → Io
  | .on io => io
  | .out (_, io) => io

def Client.wrote (total id : ℤ) : IoTurn → Client
  | .on io => .write id io.call
  | .out _ => .next total id

/-- `int id = 0` comes next -/
def Server.readTotal : IoTurn → Server
  | .on io => .total io.call
  | .out (_, io) => .next (intOf io.call.buffer) 0

def Server.readBlock (total id : ℤ) : IoTurn → Server
  | .on io => .block total id io.call
  | .out (err, io) =>
    if err ≠ 0 then .aborted err
    else match compare total io.call.buffer id with
      | some id => .next total id
      | none => .failed

variable (total : ℤ)

def step (s : St) : Op → Option St
  | .packet r =>
    match s.client with
    | .packet id =>
      let p := fill total (r % sizeofBuffTx + 1) id
      some { s with client := .write p.2 (start p.1) }
    | _ => none
  | .writeCall o =>
    match s.client with
    | .write id call => (writeTurn ⟨call, s.stream⟩ o).map fun t =>
      { s with
        client := .wrote total id t
        stream := (io t).stream
        written := s.written ++ (io t).stream.drop s.stream.length }
    | _ => none
  | .later bytes =>
    if s.client = .input then some { s with stream := s.stream ++ bytes, written := s.written ++ bytes } else none
  | .block memory =>
    match s.server with
    | .loop n id =>
      if (memory.length : ℤ) = Tst1.len n id then some { s with server := .block n id (start memory) } else none
    | _ => none
  | .readCall o =>
    match s.server with
    | .total call => (readTurn false ⟨call, s.stream⟩ o).map fun t =>
      { s with server := .readTotal t, stream := (io t).stream }
    | .block n id call => (readTurn false ⟨call, s.stream⟩ o).map fun t =>
      { s with server := .readBlock n id t, stream := (io t).stream }
    | _ => none

/-- `int total = 0` is what the server's first read fills -/
def tst1 : Lts St Op := ⟨⟨.write 0 (start (intBytes total)), .total (start (intBytes 0)), [], []⟩, step total⟩

/-- no end of the stream and no hard error -/
def Op.undisturbed : Op → Bool
  | .writeCall (.error errno) | .readCall (.error errno) => !hardError errno
  | .readCall (.count n) => decide (n ≠ 0)
  | _ => true

/-- a step that brings the transfer forward -/
def Op.moves : Op → Bool
  | .packet _ | .block _ => true
  | .writeCall (.count n) | .readCall (.count n) => decide (n ≠ 0)
  | _ => false

/-! ## Inversion -/

/-- what one operation does -/
inductive Step (s : St) : Op → St → Prop
  | packet {r id} (hc : s.client = .packet id) :
      Step s (.packet r) { s with
        client := .write (fill total (r % sizeofBuffTx + 1) id).2 (start (fill total (r % sizeofBuffTx + 1) id).1) }
  | writeCall {o id call t} (hc : s.client = .write id call) (ht : writeTurn ⟨call, s.stream⟩ o = some t) :
      Step s (.writeCall o) { s with
        client := .wrote total id t
        stream := (io t).stream
        written := s.written ++ (io t).stream.drop s.stream.length }
  | later {bytes} (hc : s.client = .input) :
      Step s (.later bytes) { s with stream := s.stream ++ bytes, written := s.written ++ bytes }
  | block {memory n id} (hs : s.server = .loop n id) (hm : (memory.length : ℤ) = Tst1.len n id) :
      Step s (.block memory) { s with server := .block n id (start memory) }
  | readTotal {o call t} (hs : s.server = .total call) (ht : readTurn false ⟨call, s.stream⟩ o = some t) :
      Step s (.readCall o) { s with server := .readTotal t, stream := (io t).stream }
  | readBlock {o n id call t} (hs : s.server = .block n id call) (ht : readTurn false ⟨call, s.stream⟩ o = some t) :
      Step s (.readCall o) { s with server := .readBlock n id t, stream := (io t).stream }

variable {total : ℤ} {s s' : St} {o : Op}

theorem step_eq (h : step total s o = some s') : Step total s o s' := by
  cases o with
  | packet r =>
    simp only [step] at h
    split at h
    · rename_i id hc
      cases h
      exact .packet hc
    · cases h
  | writeCall o =>
    simp only [step] at h
    split at h
    · rename_i id call hc
      obtain ⟨t, ht, rfl⟩ := Option.map_eq_some_iff.1 h
      exact .writeCall hc ht
    · cases h
  | later bytes =>
    simp only [step] at h
    split_ifs at h with hc
    cases h
    exact .later hc
  | block memory =>
    simp only [step] at h
    split at h
    · rename_i n id hs
      split_ifs at h with hm
      cases h
      exact .block hs hm
    · cases h
  | readCall o =>
    simp only [step] at h
    split at h
    · rename_i call hs
      obtain ⟨t, ht, rfl⟩ := Option.map_eq_some_iff.1 h
      exact .readTotal hs ht
    · rename_i n id call hs
      obtain ⟨t, ht, rfl⟩ := Option.map_eq_some_iff.1 h
      exact .readBlock hs ht
    · cases h

/-! ## A turn without the end of the stream or a hard error -/

/-- the loop goes on with bytes left, or is left with none and 0 -/
def Ends : IoTurn → Prop
  | .on io => 0 < io.call.leftBytes
  | .out (err, io) => err = 0 ∧ io.call.leftBytes ≤ 0

theorem next_ends (i : Io) : Ends (Uds.next false i) ∧ io (Uds.next false i) = i := by
  unfold Uds.next
  split_ifs with h
  · exact ⟨⟨rfl, by simpa using h⟩, rfl⟩
  · exact ⟨by simpa [Ends] using h, rfl⟩

theorem next_on {i : Io} (h : 0 < i.call.leftBytes) : Uds.next false i = .on i := by
  rw [Uds.next, if_neg]
  simpa using h

theorem failed_soft {i : Io} {errno : ℤ} {t : IoTurn} (hl : 0 < i.call.leftBytes) (he : hardError errno = false)
    (ht : Uds.failed false i errno = some t) : t = .on i := by
  unfold Uds.failed at ht
  rw [he, if_neg Bool.false_ne_true, next_on hl] at ht
  split_ifs at ht
  exact (Option.some.inj ht).symm

variable {call : Call} {t : IoTurn} {r : Outcome}

/-- a turn of a read that has gone as far as `t`; `moves`: it has taken bytes -/
structure Read (moves : Bool) (i : Io) (t : IoTurn) : Prop where
  takes : Uds.Takes i (io t)
  ends : Ends t
  still : moves = false → t = .on i
  less : moves = true → (io t).stream.length < i.stream.length

theorem readTurn_step {i : Io} (h : Spans i.call) (hl : 0 < i.call.leftBytes)
    (hu : (Op.readCall r).undisturbed = true) (ht : readTurn false i r = some t) :
    Read (Op.readCall r).moves i t := by
  unfold readTurn at ht
  split at ht
  · cases hu
  · rename_i n hn0
    split_ifs at ht with hn
    obtain rfl := Option.some.inj ht
    have hpos : n ≠ 0 := fun h0 => hn0 (by rw [h0])
    obtain ⟨hends, hio⟩ := next_ends (i.take n)
    refine ⟨?_, hends, ?_, ?_⟩
    · rw [hio]; exact .take h hn.1 hn.2
    · intro hm
      simp [Op.moves, hpos] at hm
    · intro _
      rw [hio]
      simp only [Io.take, List.length_drop]
      omega
  · rename_i errno
    obtain rfl := failed_soft hl (by simpa [Op.undisturbed] using hu) ht
    exact ⟨.refl h, hl, fun _ => rfl, fun hm => absurd hm (by simp [Op.moves])⟩

/-- the same of a write -/
structure Write (moves : Bool) (i : Io) (t : IoTurn) : Prop where
  appends : Uds.Appends i (io t)
  ends : Ends t
  still : moves = false → ∃ i', t = .on i'
  more : moves = true → i.stream.length < (io t).stream.length

theorem writeTurn_step {i : Io} (h : Spans i.call) (hl : 0 < i.call.leftBytes)
    (hu : (Op.writeCall r).undisturbed = true) (ht : writeTurn i r = some t) :
    Write (Op.writeCall r).moves i t := by
  unfold writeTurn at ht
  split at ht
  · rename_i n
    split_ifs at ht with hn
    obtain rfl := Option.some.inj ht
    obtain ⟨hends, hio⟩ := next_ends (i.put n)
    refine ⟨?_, hends, ?_, ?_⟩
    · rw [hio]; exact .put h hn
    · intro hm
      obtain rfl : n = 0 := by simpa [Op.moves] using hm
      exact ⟨i.put 0, next_on (by simpa [Io.put, SocketHelper.Stream.Call.advance] using hl)⟩
    · intro hm
      have hpos : n ≠ 0 := by simpa [Op.moves] using hm
      have hsum := h.sum
      rw [hio]
      simp only [Io.put, List.length_append, List.length_take, List.length_drop]
      omega
  · rename_i errno
    obtain rfl := failed_soft hl (by simpa [Op.undisturbed] using hu) ht
    exact ⟨.refl h, hl, fun _ => ⟨i, rfl⟩, fun hm => absurd hm (by simp [Op.moves])⟩

/-! ## The bytes of a transfer -/

/-- `n` numbers from `id` on -/
def numbers (id : ℤ) : ℕ → List UInt8
  | 0 => []
  | n + 1 => char id :: numbers (id + 1) n

@[simp] theorem numbers_length (id : ℤ) (n : ℕ) : (numbers id n).length = n := by
  induction n generalizing id with
  | zero => rfl
  | succ n ih => rw [numbers, List.length_cons, ih]

theorem numbers_add (id : ℤ) (m n : ℕ) : numbers id (m + n) = numbers id m ++ numbers (id + m) n := by
  induction m generalizing id with
  | zero => simp [numbers]
  | succ m ih =>
    have hid : id + ((m + 1 : ℕ) : ℤ) = id + 1 + m := by omega
    rw [Nat.succ_add, numbers, ih, hid]
    rfl

/-- a packet holds the next numbers, one at least, and none from `total` on -/
theorem fill_eq {id : ℤ} (h : id ≤ total) (len : ℕ) :
    ∃ k : ℕ, fill total len id = (numbers id k, id + k) ∧ id + k ≤ total ∧ (id < total → 0 < len → 0 < k) := by
  induction len generalizing id with
  | zero => exact ⟨0, by simp [fill, numbers], by omega, fun _ h0 => absurd h0 (Nat.lt_irrefl 0)⟩
  | succ len ih =>
    by_cases hid : id < total
    · obtain ⟨k, hk, hle, -⟩ := ih (by omega : id + 1 ≤ total)
      have hnext : id + 1 + (k : ℤ) = id + ((k + 1 : ℕ) : ℤ) := by omega
      refine ⟨k + 1, ?_, by omega, fun _ _ => Nat.succ_pos k⟩
      rw [fill, if_pos hid, hk, hnext]
      rfl
    · refine ⟨0, ?_, by omega, fun h0 => absurd h0 hid⟩
      rw [fill, if_neg hid]
      simp [numbers]

/-- the comparison of a block that holds the right numbers gets through it -/
theorem compare_numbers {id : ℤ} {k : ℕ} (h : id + k ≤ total) : compare total (numbers id k) id = some (id + k) := by
  induction k generalizing id with
  | zero => simp [numbers, compare]
  | succ k ih =>
    have hid : id < total := by omega
    have hnext : id + 1 + (k : ℤ) = id + ((k + 1 : ℕ) : ℤ) := by omega
    rw [numbers, compare, if_pos hid, if_neg (not_not_intro rfl), ih (by omega), hnext]

theorem char_toNat (i : ℤ) : ((char i).toNat : ℤ) = i % 256 := by
  have hlt : (i % 256).toNat < 256 := by omega
  rw [char, UInt8.toNat_ofNat', Nat.mod_eq_of_lt hlt]
  omega

theorem intOf_intBytes (h : Fits half32 total) : intOf (intBytes total) = total := by
  unfold Fits half32 at h
  simp only [intOf, intBytes, List.foldr_cons, List.foldr_nil, char_toNat, wrap, half32]
  omega

/-- what the client has sent when it has sent the numbers below `id` -/
def sent (total id : ℤ) : List UInt8 := intBytes total ++ numbers 0 id.toNat

theorem sent_length (total id : ℤ) : (sent total id).length = 4 + id.toNat := by
  rw [sent, List.length_append, numbers_length]
  rfl

theorem sent_add {id : ℤ} (h : 0 ≤ id) (k : ℕ) : sent total id ++ numbers id k = sent total (id + k) := by
  have hid : (id + (k : ℤ)).toNat = id.toNat + k := by omega
  have h0 : (0 : ℤ) + (id.toNat : ℤ) = id := by omega
  rw [sent, sent, hid, numbers_add, h0, List.append_assoc]

theorem sent_grows {id : ℤ} (h0 : 0 ≤ id) (h : id ≤ total) : sent total id <+: sent total total := by
  refine ⟨numbers id (total - id).toNat, ?_⟩
  rw [sent_add h0]
  congr 1
  omega

/-- a block is not empty and does not go beyond `total` -/
theorem len_bounds {id : ℤ} (h : id < total) : 0 < Tst1.len total id ∧ id + Tst1.len total id ≤ total := by
  unfold Tst1.len Tst1.sizeofBuffRx
  split_ifs <;> omega

/-! ## The invariant -/

/-- the client, by its place and all that it has written -/
def Client.Sends (total : ℤ) (written : List UInt8) : Client → Prop
  | .write id call => Spans call ∧ 0 < call.leftBytes ∧ 0 ≤ id ∧ id ≤ total ∧
      ∃ before, written = before ++ call.moved ∧ before ++ call.buffer = sent total id
  | .packet id => 0 ≤ id ∧ id < total ∧ written = sent total id
  | .input => ∃ rest, written = sent total total ++ rest

/-- the server, by its place and the bytes that it has taken -/
def Server.Reads (total : ℤ) (taken : List UInt8) : Server → Prop
  | .total call => Spans call ∧ 0 < call.leftBytes ∧ call.buffer.length = 4 ∧ taken = call.moved
  | .loop n id => n = total ∧ 0 ≤ id ∧ id < total ∧ taken = sent total id
  | .block n id call => n = total ∧ 0 ≤ id ∧ id < total ∧ Spans call ∧ 0 < call.leftBytes ∧
      (call.buffer.length : ℤ) = Tst1.len total id ∧ taken = sent total id ++ call.moved
  | .done n id => n = total ∧ id = total ∧ taken = sent total total
  | .aborted _ | .failed => False

structure Inv (total : ℤ) (s : St) : Prop where
  sends : s.client.Sends total s.written
  reads : ∃ taken, s.server.Reads total taken ∧ s.written = taken ++ s.stream

theorem Client.next_sends {id : ℤ} (h0 : 0 ≤ id) (h : id ≤ total) :
    (Client.next total id).Sends total (sent total id) := by
  unfold Client.next
  split_ifs with hid
  · exact ⟨h0, hid, rfl⟩
  · obtain rfl : id = total := by omega
    exact ⟨[], (List.append_nil _).symm⟩

theorem Server.next_reads {id : ℤ} (h0 : 0 ≤ id) (h : id ≤ total) :
    (Server.next total id).Reads total (sent total id) := by
  unfold Server.next
  split_ifs with hid
  · exact ⟨rfl, h0, hid, rfl⟩
  · obtain rfl : id = total := by omega
    exact ⟨rfl, rfl, rfl⟩

/-- what is written is the beginning of the transfer, or all of it and more -/
theorem Client.Sends.comparable {c : Client} {written : List UInt8} (h : c.Sends total written) :
    written <+: sent total total ∨ sent total total <+: written := by
  cases c with
  | write id call =>
    obtain ⟨-, -, h0, hid, before, rfl, hall⟩ := h
    refine Or.inl (List.IsPrefix.trans ?_ (sent_grows h0 hid))
    rw [← hall]
    exact (List.prefix_append_right_inj before).2 (List.take_prefix _ _)
  | packet id =>
    obtain ⟨h0, hid, rfl⟩ := h
    exact Or.inl (sent_grows h0 (Int.le_of_lt hid))
  | input =>
    obtain ⟨rest, rfl⟩ := h
    exact Or.inr (List.prefix_append _ _)

/-- bytes that the server has taken, as many as the numbers below `id` need, are those numbers -/
theorem Client.Sends.taken {c : Client} {taken rest : List UInt8} {id : ℤ} (h : c.Sends total (taken ++ rest))
    (h0 : 0 ≤ id) (hid : id ≤ total) (hlen : taken.length = 4 + id.toNat) : taken = sent total id := by
  have hwhole : taken <+: sent total total := by
    rcases h.comparable with hc | hc
    · exact (List.prefix_append _ _).trans hc
    · refine List.prefix_of_prefix_length_le (List.prefix_append _ _) hc ?_
      rw [hlen, sent_length]
      omega
  have hsent : taken <+: sent total id := by
    refine List.prefix_of_prefix_length_le hwhole (sent_grows h0 hid) ?_
    rw [hlen, sent_length]
  exact hsent.eq_of_length (by rw [hlen, sent_length])

/-! ## Each operation -/

theorem start_sends {id : ℤ} {written packet : List UInt8} (h0 : 0 ≤ id) (hid : id ≤ total) (hp : packet ≠ [])
    (hall : written ++ packet = sent total id) : (Client.write id (start packet)).Sends total written :=
  ⟨SocketHelper.Stream.start_spans hp, Uds.start_left hp, h0, hid, written, by rw [Uds.start_moved, List.append_nil],
    hall⟩

/-- the next packet, whatever its length -/
theorem Client.Sends.packet {id : ℤ} {written : List UInt8} {len : ℕ} (hlen : 0 < len)
    (h : (Client.packet id).Sends total written) :
    (Client.write (fill total len id).2 (start (fill total len id).1)).Sends total written ∧
      id < (fill total len id).2 ∧ (fill total len id).2 ≤ total := by
  obtain ⟨h0, hid, rfl⟩ := h
  obtain ⟨k, hk, hle, hpos⟩ := fill_eq (Int.le_of_lt hid) len
  have hkpos := hpos hid hlen
  have hnil : numbers id k ≠ [] := by
    rw [← List.length_pos_iff, numbers_length]
    exact hkpos
  rw [hk]
  refine ⟨start_sends (by omega) hle hnil (sent_add h0 k), ?_, hle⟩
  simp only
  omega

/-- a turn of the client's loop -/
theorem Client.Sends.wrote {id : ℤ} {written stream : List UInt8} {moves : Bool}
    (h : (Client.write id call).Sends total written) (hw : Write moves ⟨call, stream⟩ t) :
    (Client.wrote total id t).Sends total (written ++ (io t).stream.drop stream.length) := by
  obtain ⟨-, -, h0, hid, before, rfl, hall⟩ := h
  obtain ⟨bytes, hstream, hmoved⟩ := hw.appends.moved
  have hbuffer : (io t).call.buffer = call.buffer := hw.appends.buffer
  have hnew : before ++ call.moved ++ (io t).stream.drop stream.length = before ++ (io t).call.moved := by
    rw [hstream, hmoved, List.drop_left, List.append_assoc]
  rw [hnew]
  cases t with
  | on i => exact ⟨hw.appends.spans, hw.ends, h0, hid, before, rfl, by rw [← hall]; exact congrArg _ hbuffer⟩
  | out r =>
    obtain ⟨err, i⟩ := r
    have hdone : i.call.moved = i.call.buffer := hw.appends.spans.moved_done hw.ends.2
    have hsent : before ++ i.call.moved = sent total id := by
      rw [hdone, ← hall]
      exact congrArg _ hbuffer
    simp only [Client.wrote, io, hsent]
    exact Client.next_sends h0 hid

/-- a turn of the server's first loop; behind it stands the client's `total` -/
theorem Server.Reads.readTotal {taken stream : List UInt8} {c : Client} {moves : Bool} (hf : Fits half32 total)
    (h0 : 0 ≤ total) (h : (Server.total call).Reads total taken) (hc : c.Sends total (taken ++ stream))
    (hr : Read moves ⟨call, stream⟩ t) :
    ∃ taken', (Server.readTotal t).Reads total taken' ∧ taken ++ stream = taken' ++ (io t).stream := by
  obtain ⟨-, -, hsize, rfl⟩ := h
  have hmoved : (io t).call.moved ++ (io t).stream = call.moved ++ stream := hr.takes.moved
  have hbuffer : (io t).call.buffer.length = 4 := hr.takes.size.trans hsize
  cases t with
  | on i => exact ⟨i.call.moved, ⟨hr.takes.spans, hr.ends, hbuffer, rfl⟩, hmoved.symm⟩
  | out r =>
    obtain ⟨err, i⟩ := r
    have hdone : i.call.moved = i.call.buffer := hr.takes.spans.moved_done hr.ends.2
    simp only [io, hdone] at hmoved hbuffer
    rw [← hmoved] at hc
    have htotal : i.call.buffer = sent total 0 := hc.taken (Int.le_refl 0) h0 hbuffer
    have hint : intOf i.call.buffer = total := by
      rw [htotal]
      exact intOf_intBytes hf
    refine ⟨sent total 0, ?_, by rw [← htotal]; exact hmoved.symm⟩
    simp only [Server.readTotal, hint]
    exact Server.next_reads (Int.le_refl 0) h0

/-- a turn of the server's loop for a block; every comparison that comes behind it succeeds -/
theorem Server.Reads.readBlock {n id : ℤ} {taken stream : List UInt8} {c : Client} {moves : Bool}
    (h : (Server.block n id call).Reads total taken) (hc : c.Sends total (taken ++ stream))
    (hr : Read moves ⟨call, stream⟩ t) :
    ∃ taken', (Server.readBlock n id t).Reads total taken' ∧ taken ++ stream = taken' ++ (io t).stream := by
  obtain ⟨rfl, h0, hid, -, -, hsize, rfl⟩ := h
  have hmoved : (io t).call.moved ++ (io t).stream = call.moved ++ stream := hr.takes.moved
  have hbuffer : ((io t).call.buffer.length : ℤ) = Tst1.len n id := by
    rw [← hsize]
    exact congrArg _ hr.takes.size
  have hall : sent n id ++ call.moved ++ stream = sent n id ++ (io t).call.moved ++ (io t).stream := by
    rw [List.append_assoc, ← hmoved, List.append_assoc]
  cases t with
  | on i => exact ⟨_, ⟨rfl, h0, hid, hr.takes.spans, hr.ends, hbuffer, rfl⟩, hall⟩
  | out r =>
    obtain ⟨err, i⟩ := r
    obtain ⟨rfl, hl⟩ : err = 0 ∧ i.call.leftBytes ≤ 0 := hr.ends
    have hdone : i.call.moved = i.call.buffer := hr.takes.spans.moved_done hl
    simp only [io, hdone] at hall hbuffer
    rw [hall] at hc ⊢
    have hle : id + (i.call.buffer.length : ℤ) ≤ n := by
      rw [hbuffer]
      exact (len_bounds hid).2
    -- the block holds the numbers from `id` on
    have hnumbers : i.call.buffer = numbers id i.call.buffer.length := by
      have htaken : sent n id ++ i.call.buffer = sent n (id + i.call.buffer.length) := by
        refine hc.taken (by omega) hle ?_
        rw [List.length_append, sent_length]
        omega
      rw [← sent_add h0] at htaken
      exact List.append_cancel_left htaken
    have hcompare : compare n i.call.buffer id = some (id + i.call.buffer.length) := by
      have := compare_numbers hle
      rwa [← hnumbers] at this
    refine ⟨sent n (id + i.call.buffer.length), ?_, ?_⟩
    · simp only [Server.readBlock, ne_eq, not_true_eq_false, if_false, hcompare]
      exact Server.next_reads (by omega) hle
    · rw [← sent_add h0, ← hnumbers]
      rfl

/-! ## A step -/

theorem step_inv (hf : Fits half32 total) (h0 : 0 ≤ total) (h : Inv total s) (hu : o.undisturbed = true)
    (hstep : step total s o = some s') : Inv total s' := by
  obtain ⟨taken, hreads, hbytes⟩ := h.reads
  have hsends := h.sends
  cases step_eq hstep with
  | packet hc =>
    rw [hc] at hsends
    exact ⟨(hsends.packet (Nat.succ_pos _)).1, taken, hreads, hbytes⟩
  | @writeCall _ id call t hc ht =>
    rw [hc] at hsends
    have hw := writeTurn_step hsends.1 hsends.2.1 hu ht
    obtain ⟨bytes, hstream, -⟩ := hw.appends.moved
    refine ⟨hsends.wrote hw, taken, hreads, ?_⟩
    simp only
    rw [hstream, List.drop_left, hbytes, List.append_assoc]
  | @later bytes hc =>
    rw [hc] at hsends
    obtain ⟨rest, hrest⟩ := hsends
    refine ⟨?_, taken, hreads, ?_⟩
    · rw [hc]
      exact ⟨rest ++ bytes, by rw [hrest, List.append_assoc]⟩
    · rw [hbytes, List.append_assoc]
  | @block memory n id hs hm =>
    rw [hs] at hreads
    obtain ⟨rfl, h0, hid, rfl⟩ := hreads
    have hpos : memory ≠ [] := by
      rintro rfl
      have := (len_bounds hid).1
      rw [← hm] at this
      exact absurd this (Int.lt_irrefl 0)
    refine ⟨hsends, sent n id, ⟨rfl, h0, hid, ?_, Uds.start_left hpos, hm, ?_⟩, hbytes⟩
    · exact SocketHelper.Stream.start_spans hpos
    · rw [Uds.start_moved, List.append_nil]
  | readTotal hs ht =>
    rw [hs] at hreads
    have hr := readTurn_step hreads.1 hreads.2.1 hu ht
    have hsends' := hsends
    rw [hbytes] at hsends'
    obtain ⟨taken', hreads', hbytes'⟩ := hreads.readTotal hf h0 hsends' hr
    exact ⟨hsends, taken', hreads', hbytes.trans hbytes'⟩
  | readBlock hs ht =>
    rw [hs] at hreads
    have hr := readTurn_step hreads.2.2.2.1 hreads.2.2.2.2.1 hu ht
    have hsends' := hsends
    rw [hbytes] at hsends'
    obtain ⟨taken', hreads', hbytes'⟩ := hreads.readBlock hsends' hr
    exact ⟨hsends, taken', hreads', hbytes.trans hbytes'⟩

theorem init_inv (h0 : 0 ≤ total) : Inv total (tst1 total).init where
  sends := start_sends (Int.le_refl 0) h0 (List.cons_ne_nil _ _) (List.append_nil _).symm
  reads := ⟨[], ⟨SocketHelper.Stream.start_spans (List.cons_ne_nil _ _), Uds.start_left (List.cons_ne_nil _ _), rfl,
    (Uds.start_moved _).symm⟩, rfl⟩

/-! ## Work -/

/-- the numbers that are in no packet yet -/
def Client.left (total : ℤ) : Client → ℕ
  | .write id _ | .packet id => (total - id).toNat
  | .input => 0

def Server.waits : Server → ℕ
  | .loop _ _ => 1
  | _ => 0

/-- bytes to be taken, a block to be begun, bytes to be written, numbers to be put into packets -/
def work (total : ℤ) (s : St) : ℕ :=
  2 * (4 + total.toNat - (s.written.length - s.stream.length)) + s.server.waits +
    (4 + total.toNat - s.written.length) + s.client.left total

theorem Client.next_left (total id : ℤ) : (Client.next total id).left total ≤ (total - id).toNat := by
  unfold Client.next
  split_ifs
  · exact Nat.le_refl _
  · exact Nat.zero_le _

theorem Server.waits_le (server : Server) : server.waits ≤ 1 := by
  cases server <;> simp [Server.waits]

/-- a write in progress has bytes of the transfer left -/
theorem Client.Sends.unwritten {id : ℤ} {written : List UInt8} (h : (Client.write id call).Sends total written) :
    written.length < 4 + total.toNat := by
  obtain ⟨hspans, hl, h0, hid, before, rfl, hall⟩ := h
  have hlen := congrArg List.length hall
  have hsum := hspans.sum
  rw [List.length_append, sent_length] at hlen
  rw [List.length_append, SocketHelper.Stream.Call.moved, List.length_take]
  omega

/-- the server takes no byte behind the transfer, and has all of it only at its end -/
theorem Server.Reads.taken_le {server : Server} {taken : List UInt8} (h0 : 0 ≤ total)
    (h : server.Reads total taken) :
    taken.length ≤ 4 + total.toNat ∧ (taken.length = 4 + total.toNat → server = .done total total) := by
  cases server with
  | total call =>
    obtain ⟨hspans, hl, hsize, rfl⟩ := h
    have hsum := hspans.sum
    rw [SocketHelper.Stream.Call.moved, List.length_take]
    omega
  | loop n id =>
    obtain ⟨rfl, hid0, hid, rfl⟩ := h
    rw [sent_length]
    omega
  | block n id call =>
    obtain ⟨rfl, hid0, hid, hspans, hl, hsize, rfl⟩ := h
    have hsum := hspans.sum
    have hle := (len_bounds hid).2
    rw [List.length_append, sent_length, SocketHelper.Stream.Call.moved, List.length_take]
    omega
  | done n id =>
    obtain ⟨rfl, rfl, rfl⟩ := h
    rw [sent_length]
    exact ⟨Nat.le_refl _, fun _ => rfl⟩
  | aborted err => exact h.elim
  | failed => exact h.elim

/-- a read that moves pays for the block that may come next -/
theorem Read.waits {i : Io} {moves : Bool} (server : IoTurn → Server) (hon : ∀ i, (server (.on i)).waits = 0)
    (hr : Read moves i t) :
    (io t).stream.length ≤ i.stream.length ∧
      (server t).waits + (if moves = true then 1 else 0) ≤ 2 * (i.stream.length - (io t).stream.length) := by
  by_cases hm : moves = true
  · have hless := hr.less hm
    have hle := (server t).waits_le
    rw [if_pos hm]
    omega
  · rw [hr.still (Bool.eq_false_iff.2 hm), hon, if_neg hm]
    exact ⟨Nat.le_refl _, Nat.zero_le _⟩

/-- a step does not add work, and one that moves uses some up -/
theorem step_work (hf : Fits half32 total) (h0 : 0 ≤ total) (h : Inv total s) (hu : o.undisturbed = true)
    (hstep : step total s o = some s') : work total s' + (if o.moves = true then 1 else 0) ≤ work total s := by
  obtain ⟨taken, hreads, hbytes⟩ := h.reads
  obtain ⟨taken', hreads', hbytes'⟩ := (step_inv hf h0 h hu hstep).reads
  have htaken := (hreads.taken_le h0).1
  have htaken' := (hreads'.taken_le h0).1
  have hlen := congrArg List.length hbytes
  have hlen' := congrArg List.length hbytes'
  rw [List.length_append] at hlen hlen'
  have hsends := h.sends
  cases step_eq hstep with
  | @packet r id hc =>
    rw [hc] at hsends
    obtain ⟨-, hlt, hle⟩ := hsends.packet (by omega : 0 < r % sizeofBuffTx + 1)
    simp only [work, hc, Client.left, Op.moves, if_true]
    omega
  | @writeCall o id call t hc ht =>
    rw [hc] at hsends
    have hw := writeTurn_step hsends.1 hsends.2.1 hu ht
    have hunwritten := hsends.unwritten
    obtain ⟨bytes, hstream, -⟩ := hw.appends.moved
    have hleft : s.client.left total = (total - id).toNat := by rw [hc]; rfl
    have hnext : (Client.wrote total id t).left total ≤ (total - id).toNat := by
      cases t with
      | on i => exact Nat.le_refl _
      | out r => exact Client.next_left total id
    simp only [hstream, List.drop_left, List.length_append] at hlen'
    simp only [work, hstream, List.drop_left, List.length_append, hleft]
    split_ifs with hm
    · have hmore := hw.more hm
      rw [hstream, List.length_append] at hmore
      omega
    · omega
  | later hc =>
    simp only [work, List.length_append, Op.moves, Bool.false_eq_true, if_false]
    omega
  | block hs hm =>
    simp only [work, hs, Server.waits, Op.moves, if_true]
    omega
  | readTotal hs ht =>
    rw [hs] at hreads
    obtain ⟨hle, hwaits⟩ := (readTurn_step hreads.1 hreads.2.1 hu ht).waits Server.readTotal fun _ => rfl
    simp only [work] at hlen' hle hwaits ⊢
    omega
  | @readBlock o n id call t hs ht =>
    rw [hs] at hreads
    obtain ⟨hle, hwaits⟩ :=
      (readTurn_step hreads.2.2.2.1 hreads.2.2.2.2.1 hu ht).waits (Server.readBlock n id) fun _ => rfl
    simp only [work] at hlen' hle hwaits ⊢
    omega

/-! ## The transfer -/

theorem read_possible {stream : List UInt8} (hl : 0 < call.leftBytes) (hs : stream ≠ []) :
    ∃ t, readTurn false ⟨call, stream⟩ (.count 1) = some t := by
  have hpos := List.length_pos_iff.2 hs
  exact ⟨_, if_pos ⟨by simp only; omega, hpos⟩⟩

theorem write_possible (stream : List UInt8) (hl : 0 < call.leftBytes) :
    ∃ t, writeTurn ⟨call, stream⟩ (.count 1) = some t :=
  ⟨_, if_pos (by simp only; omega)⟩

/-- while the transfer is not all written, the client can move -/
theorem Inv.client_moves (h : Inv total s) (hlen : s.written.length < 4 + total.toNat) :
    ∃ o s', o.undisturbed = true ∧ o.moves = true ∧ step total s o = some s' := by
  have hsends := h.sends
  cases hc : s.client with
  | write id call =>
    rw [hc] at hsends
    obtain ⟨t, ht⟩ := write_possible s.stream hsends.2.1
    exact ⟨.writeCall (.count 1), _, rfl, rfl, by simp only [step, hc, ht]; rfl⟩
  | packet id => exact ⟨.packet 0, _, rfl, rfl, by simp only [step, hc]; rfl⟩
  | input =>
    rw [hc] at hsends
    obtain ⟨rest, hrest⟩ := hsends
    rw [hrest, List.length_append, sent_length] at hlen
    omega

/-- until the server's loop has ended, one of the two sides can move -/
theorem Inv.either_moves (h0 : 0 ≤ total) (h : Inv total s) :
    s.server = .done total total ∨
      ∃ o s', o.undisturbed = true ∧ o.moves = true ∧ step total s o = some s' := by
  obtain ⟨taken, hreads, hbytes⟩ := h.reads
  by_cases hdone : s.server = .done total total
  · exact Or.inl hdone
  refine Or.inr ?_
  by_cases hs : s.stream = []
  · -- what is written is taken, and the server wants more
    obtain ⟨hle, hall⟩ := hreads.taken_le h0
    have hne : taken.length ≠ 4 + total.toNat := fun heq => hdone (hall heq)
    refine h.client_moves ?_
    rw [hbytes, hs, List.append_nil]
    omega
  · cases hserver : s.server with
    | total call =>
      rw [hserver] at hreads
      obtain ⟨t, ht⟩ := read_possible hreads.2.1 hs
      exact ⟨.readCall (.count 1), _, rfl, rfl, by simp only [step, hserver, ht]; rfl⟩
    | loop n id =>
      rw [hserver] at hreads
      obtain ⟨rfl, -, hid, -⟩ := hreads
      have hpos := (len_bounds hid).1
      have hlen : ((List.replicate (Tst1.len n id).toNat (0 : UInt8)).length : ℤ) = Tst1.len n id := by
        rw [List.length_replicate]
        omega
      exact ⟨.block _, _, rfl, rfl, by simp only [step, hserver]; exact if_pos hlen⟩
    | block n id call =>
      rw [hserver] at hreads
      obtain ⟨t, ht⟩ := read_possible hreads.2.2.2.2.1 hs
      exact ⟨.readCall (.count 1), _, rfl, rfl, by simp only [step, hserver, ht]; rfl⟩
    | done n id =>
      rw [hserver] at hreads
      obtain ⟨rfl, rfl, -⟩ := hreads
      exact absurd hserver hdone
    | aborted err => rw [hserver] at hreads; exact hreads.elim
    | failed => rw [hserver] at hreads; exact hreads.elim

/-- **The transfer.** For every total, every choice of packet lengths and every fragmentation of the writes and the
reads, with any transient errors: no comparison fails; when the server's loop ends, `id` is `total` and the server has
taken the `int` and the numbers and nothing that was written behind them; and the loop does end, since until then one of
the two sides can move, and they move a bounded number of times. -/
theorem transfer_exact (total : ℤ) (ops : List Op) (s : St) (h0 : 0 ≤ total) (hf : total < half32)
    (hu : ∀ o ∈ ops, o.undisturbed = true) (hr : (tst1 total).run (tst1 total).init ops = some s) :
    (s.server ≠ .failed ∧ ∀ err, s.server ≠ .aborted err) ∧
      (∀ n id, s.server = .done n id → n = total ∧ id = total ∧
        s.written = intBytes total ++ numbers 0 total.toNat ++ s.stream ∧
        s.written.length = 4 + total.toNat + s.stream.length) ∧
      ops.countP Op.moves ≤ 12 + 4 * total.toNat ∧
      ((∃ n id, s.server = .done n id) ∨
        ∃ o s', o.undisturbed = true ∧ o.moves = true ∧ (tst1 total).step s o = some s') := by
  have hfits : Fits half32 total := by
    unfold Fits half32 at *
    omega
  obtain ⟨hinv, hwork⟩ := (tst1 total).run_work (I := Inv total) (C := fun o => o.undisturbed = true) (μ := work total)
    (p := Op.moves) (fun s o s' h hu hs => ⟨step_inv hfits h0 h hu hs, step_work hfits h0 h hu hs⟩) (init_inv h0) hu hr
  obtain ⟨taken, hreads, hbytes⟩ := hinv.reads
  refine ⟨⟨?_, ?_⟩, ?_, ?_, ?_⟩
  · intro hs
    rw [hs] at hreads
    exact hreads
  · intro err hs
    rw [hs] at hreads
    exact hreads
  · intro n id hs
    rw [hs] at hreads
    obtain ⟨hn, hid, rfl⟩ := hreads
    exact ⟨hn, hid, hbytes, by rw [hbytes, List.length_append, sent_length]⟩
  · have hinit : work total (tst1 total).init = 12 + 4 * total.toNat := by
      simp only [work, tst1, Client.left, Server.waits, List.length_nil]
      omega
    rw [← hinit]
    exact Nat.le_trans (Nat.le_add_left _ _) hwork
  · rcases hinv.either_moves h0 with hdone | hmove
    · exact Or.inl ⟨total, total, hdone⟩
    · exact Or.inr hmove

/-- packets of 600 and 430 bytes, blocks of 1024 and 6; the `int` is cut in two on both sides -/
def twoBlocks : List Op :=
  [.writeCall (.count 3), .readCall (.count 2), .writeCall (.error EINTR), .writeCall (.count 1), .packet 599,
    .readCall (.count 2), .block (List.replicate 1024 5), .writeCall (.count 500), .readCall (.count 400),
    .writeCall (.count 100), .packet 2047, .writeCall (.count 430), .later [9], .readCall (.error EAGAIN),
    .readCall (.count 624), .block (List.replicate 6 5), .readCall (.count 6)]

theorem two_blocks_transferred : ∃ s, (tst1 1030).run (tst1 1030).init twoBlocks = some s ∧
    s.server = .done 1030 1030 ∧ s.written = intBytes 1030 ++ numbers 0 1030 ++ s.stream := by
  have hr : (tst1 1030).run (tst1 1030).init twoBlocks =
      some ⟨.input, .done 1030 1030, [9], intBytes 1030 ++ numbers 0 1030 ++ [9]⟩ := by decide +kernel
  exact ⟨_, hr, rfl, ((transfer_exact 1030 _ _ (by decide) (by decide) (by decide) hr).2.1 1030 1030 rfl).2.2.1⟩

end Hodgepodge.Ipc.ServerTst1
