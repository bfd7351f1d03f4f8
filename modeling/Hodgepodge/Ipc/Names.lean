/-
The server names of the Linux `ipc_connection_linux_UDS` (tipc.cpp). The constructor removes what an earlier server has
left and binds its socket; `connect` goes to the server of that name. unlink() is given the string. bind() and connect()
are given a sockaddr_un: `string_copy` copies the string to its `sun_path`, an array of 108 bytes, and the length of the
address is counted from what was copied.

`string_copy` copies what fits. A name of more than 107 bytes is bound, and connected to, under its first 107; what is
removed is still the file with the whole name. The socket that a server leaves behind stays, the next bind() finds the
address in use, and a file with the longer name is gone.

Model: bytes, with the kernel's reading of a sockaddr_un: the bytes within the length, up to the first NUL. `resolve` is
the directory entry that a path leads to, which is the same for all processes; symbolic links, permissions and
directories that come and go are left out.

Results:
- `stringCopy_eq`: what is in the array.
- `address_path`: the path in the address, for every name.
- `onePath_iff`, `restarts_iff`: what is removed is what is bound, and every start succeeds, exactly for the names of at
  most 107 bytes.
- `second_start_fails`, `other_file_removed`: starts under a longer name.
- `one_path_iff`: the two together.
-/
import Mathlib.Data.List.Basic
import Mathlib.Data.List.TakeWhile
import Mathlib.Logic.Function.Basic
import Hodgepodge.Core.Lts

namespace Hodgepodge.Ipc.Names

open Function Hodgepodge.Core

/-! ## Model -/

/-- the bytes of a std::string -/
abbrev Bytes := List UInt8

/-- `char[n]` -/
abbrev Chars (n : ℕ) := { bytes : Bytes // bytes.length = n }

/-- the bytes from the start of an array on; what is behind the end of the array is dropped -/
def Chars.store {n : ℕ} (dest : Chars n) (bytes : Bytes) : Chars n :=
  ⟨(bytes ++ dest.1.drop bytes.length).take n, by have := dest.2; simp; omega⟩

def Chars.set {n : ℕ} (dest : Chars n) (i : ℕ) (byte : UInt8) : Chars n := ⟨dest.1.set i byte, by simp [dest.2]⟩

/-- `str.copy(dest, count, pos)`; it throws if `pos` is behind the end -/
def copy {n : ℕ} (str : Bytes) (dest : Chars n) (count pos : ℕ) : Option (ℕ × Chars n) :=
  if str.length < pos then none
  else some (min (str.length - pos) count, dest.store ((str.drop pos).take count))

/-- the number of bytes, and `dest` -/
def stringCopy {destsz : ℕ} (dest : Chars destsz) (str : Bytes) (pos : ℕ) : Option (ℕ × Chars destsz) := do
  let (cnt, dest) ← copy str dest (destsz - 1) pos
  let cnt := min cnt (destsz - 1)
  pure (cnt, dest.set cnt 0)

structure SockaddrUn where
  sunFamily : ℕ
  sunPath : Chars 108
deriving DecidableEq

/-- `AF_UNIX` -/
def afUnix : ℕ := 1

/-- `offsetof(sockaddr_un, sun_path)` -/
def offsetofSunPath : ℕ := 2

/-- `sizeof(sockaddr_un)` -/
def sizeofSockaddrUn : ℕ := 110

/-- `addr = {}` -/
def SockaddrUn.zero : SockaddrUn := ⟨0, ⟨List.replicate 108 0, List.length_replicate⟩⟩

/-- `CLI_PATH` -/
def cliPath : Bytes := "/var/tmp/".toList.map fun c => c.toNat.toUInt8

/-- the number with `std::setw(5) << std::setfill('0')` -/
def decimal5 (n : ℕ) : Bytes := ((Nat.toDigits 10 n).leftpad 5 '0').map fun c => c.toNat.toUInt8

/-- the name of the socket; a client has none, and gets one from its pid -/
def sunPath (pid : ℕ) (serverName : Bytes) : Bytes := if serverName = [] then cliPath ++ decimal5 pid else serverName

/-- `str.c_str()`, as unlink() reads it -/
def cStr (str : Bytes) : Bytes := str.takeWhile (· ≠ 0)

/-- the address of a name, and its length; the same lines in the constructor and in `connect` -/
def address (name : Bytes) : Option (SockaddrUn × ℕ) := do
  let addr := { SockaddrUn.zero with sunFamily := afUnix }
  let (cnt, path) ← stringCopy addr.sunPath name 0
  pure ({ addr with sunPath := path }, offsetofSunPath + cnt + 1)

/-- what an address means to the kernel -/
inductive Target where
  | invalid
  /-- a name that is not in the file system -/
  | abstract
  | path (p : Bytes)
deriving DecidableEq

def SockaddrUn.target (addr : SockaddrUn) (len : ℕ) : Target :=
  if addr.sunFamily ≠ afUnix ∨ len ≤ offsetofSunPath ∨ sizeofSockaddrUn < len then .invalid
  else
    match (addr.sunPath.1.take (len - offsetofSunPath)).takeWhile (· ≠ 0) with
    | [] => .abstract
    | p => .path p

inductive File where
  | socket
  | directory
  | other
deriving DecidableEq

inductive Errno where
  | EINVAL
  | ENOENT
  | EADDRINUSE
  | ECONNREFUSED
deriving DecidableEq

/-- what the constructor throws -/
inductive Failure where
  | outOfRange
  | socket
  | bind (errno : Errno)
deriving DecidableEq

/-- what the directory entries hold -/
abbrev Files (E : Type) := E → Option File

section Kernel

variable {E : Type} [DecidableEq E]

/-- the result of unlink() is not looked at -/
def unlink (resolve : Bytes → Option E) (files : Files E) (path : Bytes) : Files E :=
  match resolve path with
  | none => files
  | some e => if files e = some .directory then files else update files e none

/-- the error, if there is one -/
def bind (resolve : Bytes → Option E) (files : Files E) (addr : SockaddrUn) (len : ℕ) : Option Errno × Files E :=
  match addr.target len with
  | .invalid => (some .EINVAL, files)
  | .abstract => (none, files)
  | .path p =>
    match resolve p with
    | none => (some .ENOENT, files)
    | some e => if (files e).isSome then (some .EADDRINUSE, files) else (none, update files e (some .socket))

/-- `ipc_connection_linux_UDS(service, serverName)`; `fd` is what socket() returns -/
def construct (resolve : Bytes → Option E) (fd : ℤ) (pid : ℕ) (serverName : Bytes) (files : Files E) :
    Except Failure Unit × Files E :=
  if fd < 0 then (.error .socket, files)
  else
    let path := sunPath pid serverName
    let files := unlink resolve files (cStr path)
    match address path with
    | none => (.error .outOfRange, files)
    | some (addr, len) =>
      match bind resolve files addr len with
      | (some errno, files) => (.error (.bind errno), files)
      | (none, files) => (.ok (), files)

/-- the entry whose listener `connect` asks, or the error; the listener may refuse -/
def connect (resolve : Bytes → Option E) (listens : E → Bool) (files : Files E) (serverName : Bytes) :
    Option (Except Errno E) := do
  let (addr, len) ← address serverName
  match addr.target len with
  | .invalid => some (.error .EINVAL)
  | .abstract => some (.error .ECONNREFUSED)
  | .path p =>
    match resolve p with
    | none => some (.error .ENOENT)
    | some e =>
      match files e with
      | none => some (.error .ENOENT)
      | some file => if file = .socket ∧ listens e then some (.ok e) else some (.error .ECONNREFUSED)

inductive Op (E : Type) where
  /-- the server is started; its predecessor has ended -/
  | start (fd : ℤ) (pid : ℕ)
  /-- whatever else happens to the files -/
  | others (files : Files E)

/-- the server whose socket is at `e`; nobody puts a directory there -/
def step (resolve : Bytes → Option E) (name : Bytes) (e : E) (files : Files E) : Op E → Option (Files E)
  | .start fd pid => some (construct resolve fd pid name files).2
  | .others files' => if files' e = some .directory then none else some files'

def server (resolve : Bytes → Option E) (name : Bytes) (e : E) : Lts (Files E) (Op E) :=
  ⟨fun _ => none, step resolve name e⟩

/-! ## The promise -/

/-- if socket() succeeds a start does, and its socket is where `connect` goes; no other entry changes -/
def Starts (resolve : Bytes → Option E) (name : Bytes) (e : E) (files : Files E) : Op E → Prop
  | .start fd pid =>
    (0 ≤ fd → (construct resolve fd pid name files).1 = .ok () ∧ ∀ listens : E → Bool, listens e = true →
      connect resolve listens (construct resolve fd pid name files).2 name = some (.ok e)) ∧
    ∀ e', e' ≠ e → (construct resolve fd pid name files).2 e' = files e'
  | .others _ => True

end Kernel

/-- the path that bind() or connect() gets for a name -/
def pathOf (name : Bytes) : Option Bytes := do
  let (addr, len) ← address name
  match addr.target len with
  | .path p => some p
  | _ => none

/-- an address that consists of the path and its terminator -/
structure Covers (addr : SockaddrUn) (len : ℕ) (p : Bytes) : Prop where
  counts : len = offsetofSunPath + (p.length + 1)
  fits : len ≤ sizeofSockaddrUn
  bytes : addr.sunPath.1.take (p.length + 1) = p ++ [0]

/-- what is removed is what is bound and what is connected to -/
structure OnePath (pid : ℕ) (name p : Bytes) : Prop where
  removed : cStr (sunPath pid name) = p
  bound : pathOf (sunPath pid name) = some p
  connected : pathOf name = some p
  covers : ∀ addr len, address (sunPath pid name) = some (addr, len) ∨ address name = some (addr, len) →
    Covers addr len p

/-- every start of every run finds its path free, whatever the directories are -/
def Restarts (name : Bytes) : Prop :=
  ∀ (E : Type) [DecidableEq E] (resolve : Bytes → Option E) (e : E) (files files' : Files E) (ops : List (Op E)),
    (pathOf name).bind resolve = some e → files e ≠ some .directory →
      (server resolve name e).run files ops = some files' → (server resolve name e).Along (Starts resolve name e) files ops

/-! ## The array and the address -/

variable {name : Bytes} {pid : ℕ}

theorem Chars.store_eq {n : ℕ} {dest : Chars n} {bytes : Bytes} (h : bytes.length ≤ n) :
    (dest.store bytes).1 = bytes ++ dest.1.drop bytes.length := by
  refine List.take_of_length_le ?_
  rw [List.length_append, List.length_drop, dest.2]
  omega

/-- writing a byte behind the bytes that were stored -/
theorem Chars.set_store {n : ℕ} {dest : Chars n} {bytes : Bytes} {byte : UInt8} (h : bytes.length < n) :
    ((dest.store bytes).set bytes.length byte).1 = bytes ++ byte :: dest.1.drop (bytes.length + 1) := by
  obtain ⟨b, hdrop⟩ : ∃ b, dest.1.drop bytes.length = b :: dest.1.drop (bytes.length + 1) :=
    ⟨_, List.drop_eq_getElem_cons (by rw [dest.2]; exact h)⟩
  change (dest.store bytes).1.set bytes.length byte = _
  rw [Chars.store_eq h.le, hdrop, List.set_append_right _ _ le_rfl, Nat.sub_self, List.set_cons_zero]

/-- **What is in the array.** As much of the string as fits, a NUL, and what was there. -/
theorem stringCopy_eq {destsz : ℕ} (dest : Chars destsz) (str : Bytes) {pos : ℕ} (hpos : pos ≤ str.length)
    (h0 : 0 < destsz) : ∃ d : Chars destsz,
      stringCopy dest str pos = some (((str.drop pos).take (destsz - 1)).length, d) ∧
      d.1 = (str.drop pos).take (destsz - 1) ++ 0 :: dest.1.drop (((str.drop pos).take (destsz - 1)).length + 1) := by
  set copied := (str.drop pos).take (destsz - 1) with hcopied
  have hlen : copied.length = min (str.length - pos) (destsz - 1) := by
    rw [hcopied, List.length_take, List.length_drop, Nat.min_comm]
  have hcopy : copy str dest (destsz - 1) pos = some (copied.length, dest.store copied) := by
    rw [copy, if_neg (Nat.not_lt.2 hpos), hlen]
  refine ⟨(dest.store copied).set copied.length 0, ?_, Chars.set_store (by omega)⟩
  have hcnt : min copied.length (destsz - 1) = copied.length := by omega
  simp only [stringCopy, hcopy, Option.bind_eq_bind, Option.bind_some, hcnt, Option.pure_def]

/-- the first 107 bytes of a name, which is all that the kernel sees of it -/
def seen (name : Bytes) : Bytes := name.take 107

theorem seen_length : (seen name).length ≤ 107 := List.length_take_le 107 name

theorem seen_ne_nil (hne : name ≠ []) : seen name ≠ [] := by
  intro h
  exact hne ((List.take_eq_nil_iff.1 h).resolve_left (by decide))

theorem seen_eq_iff : seen name = name ↔ name.length ≤ 107 := by
  constructor
  · intro h
    rw [← h]
    exact seen_length
  · exact List.take_of_length_le

theorem address_eq (name : Bytes) : ∃ addr, address name = some (addr, offsetofSunPath + (seen name).length + 1) ∧
    addr.sunFamily = afUnix ∧ ∃ rest, addr.sunPath.1 = seen name ++ 0 :: rest := by
  obtain ⟨d, hcopy, hd⟩ := stringCopy_eq SockaddrUn.zero.sunPath name (Nat.zero_le name.length) (by decide)
  rw [List.drop_zero] at hcopy hd
  refine ⟨⟨afUnix, d⟩, ?_, rfl, _, hd⟩
  simp only [address, hcopy, Option.bind_eq_bind, Option.bind_some, Option.pure_def]
  rfl

theorem byte_ne_nul {p : Bytes} (hnul : 0 ∉ p) : ∀ b ∈ p, decide (b ≠ 0) = true := by
  intro b hb
  exact decide_eq_true fun h => hnul (h ▸ hb)

/-- a name without a NUL is read up to the terminator -/
theorem takeWhile_terminated {p rest : Bytes} (hnul : 0 ∉ p) : (p ++ 0 :: rest).takeWhile (· ≠ 0) = p := by
  rw [List.takeWhile_append_of_pos (byte_ne_nul hnul), List.takeWhile_cons_of_neg (by decide), List.append_nil]

theorem seen_nul (hnul : 0 ∉ name) : 0 ∉ seen name := fun h => hnul (List.mem_of_mem_take h)

/-- **The path in the address.** -/
theorem address_path (hne : name ≠ []) (hnul : 0 ∉ name) : ∃ addr len, address name = some (addr, len) ∧
    addr.target len = .path (seen name) ∧ Covers addr len (seen name) := by
  obtain ⟨addr, haddr, hfamily, rest, hpath⟩ := address_eq name
  have hlen : (seen name).length ≤ 107 := seen_length
  have hbytes : addr.sunPath.1.take ((seen name).length + 1) = seen name ++ [0] := by
    rw [hpath, List.take_length_add_append, List.take_succ_cons, List.take_zero]
  refine ⟨addr, _, haddr, ?_, rfl, ?_, hbytes⟩
  · have hvalid : ¬ (addr.sunFamily ≠ afUnix ∨ offsetofSunPath + (seen name).length + 1 ≤ offsetofSunPath ∨
        sizeofSockaddrUn < offsetofSunPath + (seen name).length + 1) := by
      unfold sizeofSockaddrUn offsetofSunPath
      omega
    have hread : (addr.sunPath.1.take (offsetofSunPath + (seen name).length + 1 - offsetofSunPath)).takeWhile (· ≠ 0) =
        seen name := by
      rw [Nat.add_assoc, Nat.add_sub_cancel_left, hbytes]
      exact takeWhile_terminated (seen_nul hnul)
    rw [SockaddrUn.target, if_neg hvalid, hread]
    cases hseen : seen name with
    | nil => exact absurd hseen (seen_ne_nil hne)
    | cons b p => rfl
  · unfold sizeofSockaddrUn offsetofSunPath
    omega

theorem pathOf_eq (hne : name ≠ []) (hnul : 0 ∉ name) : pathOf name = some (seen name) := by
  obtain ⟨addr, len, haddr, htarget, -⟩ := address_path hne hnul
  simp only [pathOf, haddr, Option.bind_eq_bind, Option.bind_some, htarget]

theorem sunPath_eq (hne : name ≠ []) : sunPath pid name = name := if_neg hne

theorem cStr_eq (hnul : 0 ∉ name) : cStr name = name := List.takeWhile_eq_self_iff.2 (byte_ne_nul hnul)

/-! ## One start -/

section Start

variable {E : Type} {resolve : Bytes → Option E} {files : Files E} {e : E} {p : Bytes}

theorem connect_eq {listens : E → Bool} (hne : name ≠ []) (hnul : 0 ∉ name) (he : resolve (seen name) = some e)
    (hsocket : files e = some .socket) (hlistens : listens e = true) :
    connect resolve listens files name = some (.ok e) := by
  obtain ⟨addr, len, haddr, htarget, -⟩ := address_path hne hnul
  simp only [connect, haddr, Option.bind_eq_bind, Option.bind_some, htarget, he, hsocket, hlistens, and_self, if_true]

variable [DecidableEq E]

/-- a file that is not a directory is removed -/
theorem unlink_eq (hp : resolve p = some e) (hdir : files e ≠ some .directory) :
    unlink resolve files p = update files e none := by
  simp only [unlink, hp, if_neg hdir]

/-- a start whose path, as bind() sees it, leads to `e` -/
theorem construct_eq {fd : ℤ} (hne : name ≠ []) (hnul : 0 ∉ name) (hfd : 0 ≤ fd) (he : resolve (seen name) = some e) :
    construct resolve fd pid name files =
      if (unlink resolve files name e).isSome then (.error (.bind .EADDRINUSE), unlink resolve files name)
      else (.ok (), update (unlink resolve files name) e (some .socket)) := by
  obtain ⟨addr, len, haddr, htarget, -⟩ := address_path hne hnul
  rw [construct, if_neg (Int.not_lt.2 hfd)]
  simp only [sunPath_eq hne, cStr_eq hnul, haddr, bind, htarget, he]
  split_ifs <;> rfl

/-- a name that fits: the start succeeds -/
theorem construct_short {fd : ℤ} (hne : name ≠ []) (hnul : 0 ∉ name) (hfd : 0 ≤ fd) (hshort : seen name = name)
    (he : resolve (seen name) = some e) (hdir : files e ≠ some .directory) :
    construct resolve fd pid name files = (.ok (), update files e (some .socket)) := by
  have hunlink : unlink resolve files name = update files e none := unlink_eq (hshort ▸ he) hdir
  rw [construct_eq hne hnul hfd he, hunlink, update_self, if_neg (by decide), update_idem]

theorem starts_short (hne : name ≠ []) (hnul : 0 ∉ name) (hshort : seen name = name) (he : resolve (seen name) = some e)
    (hdir : files e ≠ some .directory) (o : Op E) : Starts resolve name e files o := by
  cases o with
  | start fd pid =>
    by_cases hfd : fd < 0
    · have hfail : construct resolve fd pid name files = (.error .socket, files) := if_pos hfd
      exact ⟨fun h => absurd hfd (Int.not_lt.2 h), fun e' _ => by rw [hfail]⟩
    · have hok : construct resolve fd pid name files = (.ok (), update files e (some .socket)) :=
        construct_short hne hnul (Int.not_lt.1 hfd) hshort he hdir
      rw [Starts, hok]
      refine ⟨fun _ => ⟨rfl, fun listens hlistens => ?_⟩, fun e' he' => update_of_ne he' _ _⟩
      exact connect_eq hne hnul he (update_self _ _ _) hlistens
  | others files' => trivial

/-! ### Runs -/

/-- **Every start** under a name that fits. -/
theorem starts_along {ops : List (Op E)} (hne : name ≠ []) (hnul : 0 ∉ name)
    (hshort : seen name = name) (he : resolve (seen name) = some e) (hdir : files e ≠ some .directory) :
    (server resolve name e).Along (Starts resolve name e) files ops := by
  have hstep : ∀ (s : Files E) (o : Op E) (t : Files E), s e ≠ some .directory →
      (server resolve name e).step s o = some t → t e ≠ some .directory := by
    intro s o t hs hst
    cases o with
    | start fd pid =>
      obtain rfl : (construct resolve fd pid name s).2 = t := Option.some.inj hst
      by_cases hfd : fd < 0
      · rw [construct, if_pos hfd]
        exact hs
      · rw [construct_short hne hnul (Int.not_lt.1 hfd) hshort he hs]
        change update s e (some .socket) e ≠ some .directory
        rw [update_self]
        decide
    | others files' =>
      simp only [server, step, Option.ite_none_left_eq_some, Option.some.injEq] at hst
      exact hst.2 ▸ hst.1
  intro pre o post t _ ht
  exact starts_short hne hnul hshort he ((server resolve name e).run_inv hstep hdir ht) o

/-- unlink() of another path -/
theorem unlink_of_ne (hp : resolve p ≠ some e) : unlink resolve files p e = files e := by
  unfold unlink
  cases hp' : resolve p with
  | none => rfl
  | some e' =>
    have hne : e ≠ e' := fun h => hp (h ▸ hp')
    by_cases hdir : files e' = some .directory
    · simp only [if_pos hdir]
    · simp only [if_neg hdir, update_of_ne hne]

/-- **The second start** under a name whose first 107 bytes lead elsewhere: the socket of the first is still there. -/
theorem second_start_fails {fd fd' : ℤ} {pid' : ℕ} (hne : name ≠ []) (hnul : 0 ∉ name) (hfd : 0 ≤ fd) (hfd' : 0 ≤ fd')
    (he : resolve (seen name) = some e) (hname : resolve name ≠ some e) (hfree : files e = none) :
    (construct resolve fd' pid' name (construct resolve fd pid name files).2).1 = .error (.bind .EADDRINUSE) := by
  have hfirst : (construct resolve fd pid name files).2 e = some .socket := by
    rw [construct_eq hne hnul hfd he, unlink_of_ne hname, hfree, if_neg (by decide)]
    exact update_self _ _ _
  rw [construct_eq hne hnul hfd' he, unlink_of_ne hname, hfirst, if_pos Option.isSome_some]

/-- and what the whole name leads to is gone -/
theorem other_file_removed {fd : ℤ} {e' : E} (hne : name ≠ []) (hnul : 0 ∉ name) (hfd : 0 ≤ fd)
    (he : resolve (seen name) = some e) (he' : resolve name = some e') (hother : e' ≠ e)
    (hdir : files e' ≠ some .directory) : (construct resolve fd pid name files).2 e' = none := by
  rw [construct_eq hne hnul hfd he, unlink_eq he' hdir]
  split_ifs
  · exact update_self _ _ _
  · exact (update_of_ne hother _ _).trans (update_self _ _ _)

end Start

/-! ## The result -/

theorem onePath_iff (hne : name ≠ []) (hnul : 0 ∉ name) : (∃ p, OnePath pid name p) ↔ name.length ≤ 107 := by
  rw [← seen_eq_iff]
  constructor
  · rintro ⟨p, h⟩
    have hconnected : some (seen name) = some p := (pathOf_eq hne hnul).symm.trans h.connected
    have hremoved : name = p := by rw [← h.removed, sunPath_eq hne, cStr_eq hnul]
    exact (Option.some.inj hconnected).trans hremoved.symm
  · intro hshort
    obtain ⟨addr, len, haddr, -, hcovers⟩ := address_path hne hnul
    refine ⟨name, ?_, ?_, ?_, ?_⟩
    · rw [sunPath_eq hne, cStr_eq hnul]
    · rw [sunPath_eq hne, pathOf_eq hne hnul, hshort]
    · rw [pathOf_eq hne hnul, hshort]
    · intro addr' len' h
      rw [sunPath_eq hne, or_self, haddr] at h
      cases h
      exact hshort ▸ hcovers

theorem restarts_iff (hne : name ≠ []) (hnul : 0 ∉ name) : Restarts name ↔ name.length ≤ 107 := by
  rw [← seen_eq_iff]
  constructor
  · intro h
    by_contra hlong
    -- every path is an entry of its own
    have hrun := h Bytes some (seen name) (fun _ => none) _ [.start 0 0, .start 0 0]
      (by rw [pathOf_eq hne hnul]; rfl) (by decide) rfl
    obtain ⟨hok, -⟩ := hrun [.start 0 0] (.start 0 0) [] _ rfl rfl
    have hfails : (construct some 0 0 name (construct some 0 0 name fun _ => none).2).1 = .error (.bind .EADDRINUSE) :=
      second_start_fails hne hnul le_rfl le_rfl rfl (fun heq => hlong (Option.some.inj heq).symm) rfl
    rw [hfails] at hok
    cases (hok le_rfl).1
  · intro hshort E _ resolve e files files' ops he hdir hr
    rw [pathOf_eq hne hnul, Option.bind_some] at he
    exact starts_along hne hnul hshort he hdir

/-- **One name, one path.** For every name without a NUL that is not empty: unlink(), bind() and connect() get the same
path, with an address that ends behind its terminator, and in every run, with any directories and whatever else happens
to the files, every start for which socket() succeeds binds its socket and touches no other file, exactly if the name
has at most 107 bytes. -/
theorem one_path_iff (name : Bytes) (hne : name ≠ []) (hnul : 0 ∉ name) :
    ((∀ pid, ∃ p, OnePath pid name p) ∧ Restarts name) ↔ name.length ≤ 107 := by
  constructor
  · intro h
    exact (restarts_iff hne hnul).1 h.2
  · intro h
    exact ⟨fun pid => (onePath_iff hne hnul).2 h, (restarts_iff hne hnul).2 h⟩

/-- `/tmp/server` -/
def tmpServer : Bytes := "/tmp/server".toList.map fun c => c.toNat.toUInt8

theorem tmpServer_one_path : (∀ pid, ∃ p, OnePath pid tmpServer p) ∧ Restarts tmpServer :=
  (one_path_iff tmpServer (by decide) (by decide)).2 (by decide)

/-- **One byte too long.** A name of 108 bytes: the server cannot be started again. -/
theorem long_name_fails :
    ¬ ∀ name : Bytes, name ≠ [] → 0 ∉ name → (∀ pid, ∃ p, OnePath pid name p) ∧ Restarts name := by
  intro h
  have hlong := h (List.replicate 108 97) (by decide) (by decide)
  exact absurd ((restarts_iff (by decide) (by decide)).1 hlong.2) (by decide)

end Hodgepodge.Ipc.Names
