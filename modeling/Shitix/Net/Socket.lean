import Mathlib.Data.Fintype.Basic
import Shitix.Lib.Ring
import Shitix.Lib.Run
import Shitix.Lib.Search

/-!
# Sockets

The sockets of `net/socket.rs`: four slots, a table of descriptors that all tasks share, and for
each slot a page of bytes that were sent to it.  A page is a list of 4096 cells here; it is
reached at its own address, over which no task has mapped anything.

The other tables of descriptors are those of the caller, and only say which descriptors a new
socket cannot get (`elsewhere`).  `get_free_page` is what the rest of the kernel makes of it: a
call that may want a page comes with the page it would get, 0 for none.
-/

namespace Shitix.Net

open Function

/-- `MAX_SOCKETS` slots. -/
abbrev Slot : Type := Fin 4

def sockBufSz : ℕ := 4096

def maxSockFd : ℕ := 32

def enomem : ℤ := 12

def ebadf : ℤ := 9

def efault : ℤ := 14

def esocktnosupport : ℤ := 94

def eafnosupport : ℤ := 97

def afUnix : ℕ := 1

def afInet : ℕ := 2

def sockStream : ℕ := 1

def sockDgram : ℕ := 2

/-- A slot. -/
structure SockEntry where
  family : ℕ
  sockType : ℕ
  protocol : ℕ
  used : Bool
  peer : Option Slot
  /-- 0 for none -/
  bufPage : ℕ
  bufLen : ℕ
  bufRead : ℕ

/-- A slot of `ensure_inited`. -/
def SockEntry.blank : SockEntry := ⟨0, 0, 0, false, none, 0, 0, 0⟩

/-- The tables and the pages.  The rest is what they are judged by. -/
structure Sockets where
  socks : Slot → SockEntry
  /-- `SOCK_FD_MAP` -/
  fdMap : ℕ → Option Slot
  /-- the bytes of the pages -/
  mem : ℕ → ℕ → UInt8
  /-- the pages that were taken and not given back -/
  pages : ℕ → Bool
  /-- how often a slot was taken -/
  life : Slot → ℕ
  /-- which life of its peer a slot was connected to -/
  met : Slot → ℕ
  /-- what was reported as sent to a slot in this life -/
  sent : Slot → List UInt8
  /-- what was received from a slot in this life -/
  received : Slot → List UInt8

/-- Before the first call. -/
def Sockets.start : Sockets where
  socks _ := .blank
  fdMap _ := none
  mem _ _ := 0
  pages _ := false
  life _ := 0
  met _ := 0
  sent _ := []
  received _ := []

/-- What a call returns, the descriptors and bytes it copies out, and the ranges of buffer pages it
reads or writes. -/
structure Reply where
  value : ℤ
  fds : List ℕ
  bytes : List UInt8
  touched : List (ℕ × ℕ)

/-- A call that returns a number and nothing else. -/
def Reply.of (value : ℤ) : Reply := ⟨value, [], [], []⟩

namespace Sockets

variable (s : Sockets)

/-! ## Slots, pages and descriptors -/

/-- The slot is changed. -/
def modify (i : Slot) (f : SockEntry → SockEntry) : Sockets :=
  { s with socks := update s.socks i (f (s.socks i)) }

def allocBuf (i : Slot) (page : ℕ) : Bool × Sockets :=
  if (s.socks i).bufPage = 0 then
    if page = 0 then (false, s)
    else (true, { s.modify i fun entry => { entry with bufPage := page } with
      mem := update s.mem page fun _ => 0
      pages := update s.pages page true })
  else (true, s)

/-- `register_fd`, and with `none` `unregister_fd` -/
def registerFd (fd : ℕ) (entry : Option Slot) : Sockets :=
  if fd < maxSockFd then { s with fdMap := update s.fdMap fd entry } else s

def fdToSock (fd : ℕ) : Option Slot := if fd < maxSockFd then s.fdMap fd else none

def fdIsSocket (fd : ℕ) : Bool := (s.fdToSock fd).isSome

/-- `free_page` of the page of a slot, if it has one. -/
def freeBuf (i : Slot) : Sockets :=
  if (s.socks i).bufPage = 0 then s
  else { s.modify i fun entry => { entry with bufPage := 0 } with
    pages := update s.pages (s.socks i).bufPage false }

def closeSocket (fd : ℕ) : Sockets :=
  match s.fdToSock fd with
  | none => s
  | some i => (s.freeBuf i).registerFd fd none

/-- The slot is taken. -/
def take (i : Slot) : Sockets :=
  { s.modify i fun _ => { SockEntry.blank with used := true } with
    life := update s.life i (s.life i + 1)
    sent := update s.sent i []
    received := update s.received i [] }

def allocSock : Option (Slot × Sockets) :=
  ((List.finRange 4).find? fun i => !(s.socks i).used).map fun i => (i, s.take i)

/-- The descriptor can be a socket. -/
def unused (elsewhere : ℕ → Bool) (fd : ℕ) : Bool := !s.fdIsSocket fd && !elsewhere fd

def findFreeFd (elsewhere : ℕ → Bool) : Option ℕ := search (s.unused elsewhere) 3 maxSockFd

/-- One end is connected to the other. -/
def connect (i j : Slot) : Sockets :=
  { s.modify i fun entry => { entry with peer := some j } with
    met := update s.met i (s.life j) }

/-! ## The calls -/

/-- The end of `sys_socket` and `sys_accept`: the new socket gets a descriptor if there is one. -/
def offer (i : Slot) (elsewhere : ℕ → Bool) : Reply × Sockets :=
  match s.findFreeFd elsewhere with
  | none => (.of (-enomem), s)
  | some fd => (.of fd, s.registerFd fd (some i))

def sysSocket (family sockType protocol : ℕ) (elsewhere : ℕ → Bool) : Reply × Sockets :=
  if family ≠ afInet ∧ family ≠ afUnix then (.of (-eafnosupport), s)
  else if sockType ≠ sockStream ∧ sockType ≠ sockDgram then (.of (-esocktnosupport), s)
  else
    match s.allocSock with
    | none => (.of (-enomem), s)
    | some (i, s) =>
      let s := s.modify i fun entry =>
        { entry with family := family, sockType := sockType, protocol := protocol }
      s.offer i elsewhere

def sysAccept (fd : ℕ) (elsewhere : ℕ → Bool) : Reply × Sockets :=
  match s.fdToSock fd with
  | none => (.of (-ebadf), s)
  | some i =>
    match s.allocSock with
    | none => (.of (-enomem), s)
    | some (new, s) =>
      let s := s.modify new fun entry => { entry with
        family := (s.socks i).family
        sockType := (s.socks i).sockType
        protocol := (s.socks i).protocol }
      let s := (s.connect new i).connect i new
      s.offer new elsewhere

/-- `sys_socketpair` from the second socket on; the two `unwrap` cannot fail -/
def pairWith (fd family sockType protocol : ℕ) (elsewhere : ℕ → Bool) : Reply × Sockets :=
  match s.sysSocket family sockType protocol elsewhere with
  | (s2, s) =>
    if s2.value < 0 then (s2, s.registerFd fd none)
    else
      match s.fdToSock fd, s.fdToSock s2.value.toNat with
      | some i, some j => (⟨0, [fd, s2.value.toNat], [], []⟩, (s.connect i j).connect j i)
      | _, _ => (.of 0, s)

def sysSocketpair (family sockType protocol : ℕ) (null : Bool) (elsewhere : ℕ → Bool) :
    Reply × Sockets :=
  if null then (.of (-efault), s)
  else
    match s.sysSocket family sockType protocol elsewhere with
    | (s1, s) =>
      if s1.value < 0 then (s1, s)
      else s.pairWith s1.value.toNat family sockType protocol elsewhere

/-- The copy of `sys_sendto` into the page of `j`, in two parts if it would go around. -/
def pour (j : Slot) (data : List UInt8) : List (ℕ × ℕ) × Sockets :=
  let p := s.socks j
  let n := data.length
  let grown := { s.modify j fun entry => { entry with bufLen := entry.bufLen + n } with
    sent := update s.sent j (s.sent j ++ data) }
  if p.bufLen + n ≤ sockBufSz then
    ([(p.bufLen, n)], { grown with
      mem := update s.mem p.bufPage (store (s.mem p.bufPage) p.bufLen data) })
  else
    let first := sockBufSz - p.bufLen
    ([(p.bufLen, first), (0, n - first)], { grown with
      mem := update s.mem p.bufPage
        (store (store (s.mem p.bufPage) p.bufLen (data.take first)) 0 (data.drop first)) })

/-- `sys_sendto`; without a peer the bytes are dropped -/
def sysSendto (fd : ℕ) (null : Bool) (data : List UInt8) (page : ℕ) : Reply × Sockets :=
  if null then (.of (-efault), s)
  else
    match s.fdToSock fd with
    | none => (.of (-ebadf), s)
    | some i =>
      match (s.socks i).peer with
      | none => (.of data.length, s)
      | some j =>
        match s.allocBuf j page with
        | (false, s) => (.of (-enomem), s)
        | (true, s) =>
          let n := min data.length (sockBufSz - (s.socks j).bufLen)
          if 0 < n then
            let (touched, s) := s.pour j (data.take n)
            (⟨n, [], [], touched⟩, s)
          else (.of n, s)

/-- The copy of `sys_recvfrom` out of the page of `i`. -/
def draw (i : Slot) (n : ℕ) : List (ℕ × ℕ) × List UInt8 :=
  let p := s.socks i
  if p.bufRead + n ≤ sockBufSz then ([(p.bufRead, n)], cellsFrom (s.mem p.bufPage) p.bufRead n)
  else
    let first := sockBufSz - p.bufRead
    ([(p.bufRead, first), (0, n - first)],
      cellsFrom (s.mem p.bufPage) p.bufRead first ++ cellsFrom (s.mem p.bufPage) 0 (n - first))

def sysRecvfrom (fd : ℕ) (null : Bool) (len : ℕ) : Reply × Sockets :=
  if null then (.of (-efault), s)
  else
    match s.fdToSock fd with
    | none => (.of (-ebadf), s)
    | some i =>
      let p := s.socks i
      if p.bufPage = 0 ∨ p.bufLen = 0 then (.of 0, s)
      else
        let n := min len p.bufLen
        let (touched, bytes) := s.draw i n
        (⟨n, [], bytes, touched⟩, { s.modify i fun entry => { entry with
            bufRead := (entry.bufRead + n) % sockBufSz, bufLen := entry.bufLen - n } with
          received := update s.received i (s.received i ++ bytes) })

end Sockets

/-- The calls. -/
inductive Call where
  | socket (family sockType protocol : ℕ) (elsewhere : ℕ → Bool)
  | socketpair (family sockType protocol : ℕ) (null : Bool) (elsewhere : ℕ → Bool)
  | accept (fd : ℕ) (elsewhere : ℕ → Bool)
  | close (fd : ℕ)
  | sendto (fd : ℕ) (null : Bool) (data : List UInt8) (page : ℕ)
  | recvfrom (fd : ℕ) (null : Bool) (len : ℕ)

/-- A call.  `close` comes here only for sockets and returns 0 then. -/
def Sockets.call (s : Sockets) : Call → Reply × Sockets
  | .socket family sockType protocol elsewhere => s.sysSocket family sockType protocol elsewhere
  | .socketpair family sockType protocol null elsewhere =>
    s.sysSocketpair family sockType protocol null elsewhere
  | .accept fd elsewhere => s.sysAccept fd elsewhere
  | .close fd => (.of 0, if s.fdIsSocket fd then s.closeSocket fd else s)
  | .sendto fd null data page => s.sysSendto fd null data page
  | .recvfrom fd null len => s.sysRecvfrom fd null len

/-- No call stops the kernel. -/
def Sockets.step (s : Sockets) (c : Call) : Except Empty Sockets := .ok (s.call c).2

/-! ## What the operations change -/

variable {s s' : Sockets} {i j : Slot} {fd fd' : ℕ} {f : SockEntry → SockEntry}
  {elsewhere : ℕ → Bool}

theorem socks_modify (s : Sockets) (i : Slot) (f : SockEntry → SockEntry) (j : Slot) :
    (s.modify i f).socks j = if j = i then f (s.socks i) else s.socks j :=
  update_apply ..

theorem socks_take (s : Sockets) (i j : Slot) :
    (s.take i).socks j = if j = i then { SockEntry.blank with used := true } else s.socks j :=
  socks_modify s i (fun _ => { SockEntry.blank with used := true }) j

theorem socks_connect (s : Sockets) (i j k : Slot) :
    (s.connect i j).socks k = if k = i then { s.socks i with peer := some j } else s.socks k :=
  socks_modify s i (fun entry => { entry with peer := some j }) k

theorem fdToSock_lt (h : s.fdToSock fd = some i) : fd < maxSockFd := by
  unfold Sockets.fdToSock at h
  split_ifs at h with hlt
  exact hlt

theorem socks_registerFd (entry : Option Slot) : (s.registerFd fd entry).socks = s.socks := by
  unfold Sockets.registerFd
  split_ifs <;> rfl

theorem fdToSock_registerFd (hfd : fd < maxSockFd) (entry : Option Slot) (fd' : ℕ) :
    (s.registerFd fd entry).fdToSock fd' = if fd' = fd then entry else s.fdToSock fd' := by
  unfold Sockets.registerFd Sockets.fdToSock
  rw [if_pos hfd]
  dsimp only
  rw [update_apply]
  by_cases heq : fd' = fd
  · rw [if_pos heq, if_pos heq, if_pos (heq ▸ hfd)]
  · rw [if_neg heq, if_neg heq]

theorem allocSock_eq (h : s.allocSock = some (i, s')) :
    (s.socks i).used = false ∧ s' = s.take i := by
  obtain ⟨j, hfind, hpair⟩ := Option.map_eq_some_iff.mp h
  obtain ⟨rfl, rfl⟩ := Prod.mk.inj hpair
  have hfree := List.find?_some hfind
  rw [Bool.not_eq_true'] at hfree
  exact ⟨hfree, rfl⟩

theorem allocSock_eq_none_iff : s.allocSock = none ↔ ∀ i, (s.socks i).used = true := by
  simp [Sockets.allocSock]

theorem findFreeFd_eq (h : s.findFreeFd elsewhere = some fd) :
    IsFirst (fun fd => s.unused elsewhere fd = true) 3 maxSockFd fd :=
  (search_eq_some fun _ => Iff.rfl).mp h

theorem fdToSock_of_unused (h : s.unused elsewhere fd = true) : s.fdToSock fd = none := by
  simp only [Sockets.unused, Sockets.fdIsSocket, Bool.and_eq_true, Bool.not_eq_true',
    Option.isSome_eq_false_iff, Option.isNone_iff_eq_none] at h
  exact h.1

theorem findFreeFd_eq_none : s.findFreeFd elsewhere = none ↔
      ¬ ∃ fd, 3 ≤ fd ∧ fd < maxSockFd ∧ s.unused elsewhere fd = true := by
  constructor
  · rintro hnone ⟨fd, hlow, hhigh, hunused⟩
    exact not_of_search_none (fun _ => Iff.rfl) hnone hlow hhigh hunused
  · intro hnot
    refine (search_eq_none fun _ => Iff.rfl).mpr fun fd hfirst => hnot ?_
    exact ⟨fd, hfirst.low_le, hfirst.lt_high, hfirst.holds⟩

end Shitix.Net
