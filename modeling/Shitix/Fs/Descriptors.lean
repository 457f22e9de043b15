import Mathlib.Data.Fintype.Basic
import Shitix.Lib.Search

/-!
# Descriptor tables

Four tables say what a descriptor stands for: `TASK_FILP` (`fs/open.rs`) and the maps of
`fs/pipe.rs`, `net/socket.rs` and `fs/event.rs`.  All but that of the sockets are per task; the
first has 64 entries a task, the others 32, and writing beyond the width of a table does nothing.

Every call that hands out a descriptor looks for a free one in its own way.  Here are these
calls, `dup`, `dup2`, `fcntl(F_DUPFD)` and `close`, and what `fork` and `exit` do with the tables.
Of the objects behind the descriptors there is what the calls decide by: the counts of open
files and pipe ends, and which socket slots are taken.
-/

namespace Shitix.Fd

open Function

/-- A slot of the task table (`NR_TASKS` of them). -/
abbrev Task : Type := Fin 64

def nrOpen : ℕ := 64

def maxPipeFd : ℕ := 32

def maxSockFd : ℕ := 32

def maxEvFd : ℕ := 32

def nrFile : ℕ := 32

def maxPipes : ℕ := 4

def maxSockets : ℕ := 4

def maxObjs : ℕ := 16

def ebadf : ℤ := 9

def eagain : ℤ := 11

def enomem : ℤ := 12

def efault : ℤ := 14

def enfile : ℤ := 23

def emfile : ℤ := 24

def enosys : ℤ := 38

def esocktnosupport : ℤ := 94

def eafnosupport : ℤ := 97

/-- The end of a pipe: `PIPE_DIR_READ`, `PIPE_DIR_WRITE`. -/
inductive Dir where
  | read
  | write
deriving DecidableEq, Repr

/-- The counts of a pipe, `u8` each. -/
structure Pipe where
  readers : ℕ
  writers : ℕ
deriving DecidableEq, Repr

/-- One more descriptor of an end, up to 255. -/
def Pipe.more (p : Pipe) : Dir → Pipe
  | .read => { p with readers := min 255 (p.readers + 1) }
  | .write => { p with writers := min 255 (p.writers + 1) }

/-- One descriptor of an end less. -/
def Pipe.less (p : Pipe) : Dir → Pipe
  | .read => { p with readers := p.readers - 1 }
  | .write => { p with writers := p.writers - 1 }

/-- The tables, and what is kept of the objects. -/
structure Fds where
  /-- `TASK_FILP` -/
  filp : Task → ℕ → Option ℕ
  /-- `PIPE_FD_MAP` and `PIPE_FD_DIR` -/
  pipe : Task → ℕ → Option (ℕ × Dir)
  /-- `SOCK_FD_MAP` -/
  sock : ℕ → Option ℕ
  /-- `FD_MAP` -/
  event : Task → ℕ → Option ℕ
  /-- `f_count` of the open files -/
  fCount : ℕ → ℕ
  /-- `PIPE_PAGES` -/
  pipes : ℕ → Option Pipe
  /-- `used` of the sockets -/
  used : ℕ → Bool

/-- No descriptor is bound. -/
def Fds.boot : Fds where
  filp _ _ := none
  pipe _ _ := none
  sock _ := none
  event _ _ := none
  fCount _ := 0
  pipes _ := none
  used _ := false

/-- An entry of a table with a row for each task. -/
def setEntry {α : Type*} (table : Task → ℕ → α) (t : Task) (fd : ℕ) (value : α) : Task → ℕ → α :=
  update table t (update (table t) fd value)

namespace Fds

variable (s : Fds) (t : Task) (fd : ℕ)

/-! ## Files -/

/-- `fd_to_filp`, `task_fd` -/
def fdToFilp : Option ℕ := if nrOpen ≤ fd then none else s.filp t fd

/-- `set_fd`, `set_task_fd` -/
def setFd (f : Option ℕ) : Fds :=
  if fd < nrOpen then { s with filp := setEntry s.filp t fd f } else s

/-- `f_count` becomes `n`. -/
def setCount (f n : ℕ) : Fds := { s with fCount := update s.fCount f n }

def getEmptyFilp : Option ℕ := search (fun f => s.fCount f = 0) 0 nrFile

def putFilp (f : ℕ) : Fds := if s.fCount f = 0 then s else s.setCount f (s.fCount f - 1)

/-! ## Pipes -/

/-- `fd_to_pipe`, with the direction of `fd_dir` -/
def fdToPipe : Option (ℕ × Dir) := if fd < maxPipeFd then s.pipe t fd else none

def fdIsPipe : Bool := (s.fdToPipe t fd).isSome

/-- `register_fd` of pipes, and with `none` `unregister_fd` -/
def setPipe (entry : Option (ℕ × Dir)) : Fds :=
  if fd < maxPipeFd then { s with pipe := setEntry s.pipe t fd entry } else s

/-- The pipe becomes `pipe`. -/
def putPipe (i : ℕ) (pipe : Option Pipe) : Fds :=
  { s with pipes := update s.pipes i pipe }

/-- `alloc_pipe`; `page` says whether there is a page for it -/
def allocPipe (page : Bool) : Option (ℕ × Fds) :=
  match search (fun i => (s.pipes i).isNone) 0 maxPipes with
  | none => none
  | some i => if page then some (i, s.putPipe i (some ⟨1, 1⟩)) else none

def dupFd (newfd : ℕ) : Bool × Fds :=
  match s.fdToPipe t fd with
  | none => (false, s)
  | some (i, dir) =>
    let s := s.setPipe t newfd (some (i, dir))
    match s.pipes i with
    | none => (true, s)
    | some pipe => (true, s.putPipe i (some (pipe.more dir)))

def closeFd : Fds :=
  match s.fdToPipe t fd with
  | none => s
  | some (i, dir) =>
    let s :=
      match s.pipes i with
      | none => s
      | some pipe =>
        let pipe := pipe.less dir
        s.putPipe i (if pipe.readers = 0 ∧ pipe.writers = 0 then none else some pipe)
    s.setPipe t fd none

/-! ## Sockets -/

def fdToSock : Option ℕ := if fd < maxSockFd then s.sock fd else none

def fdIsSocket : Bool := (s.fdToSock fd).isSome

/-- `register_fd` of sockets, and with `none` `unregister_fd` -/
def setSock (entry : Option ℕ) : Fds :=
  if fd < maxSockFd then { s with sock := update s.sock fd entry } else s

/-- `close_socket`; the slot of the socket stays taken -/
def closeSocket : Fds := if (s.fdToSock fd).isSome then s.setSock fd none else s

def allocSock : Option (ℕ × Fds) :=
  (search (fun i => s.used i = false) 0 maxSockets).map fun i =>
    (i, { s with used := update s.used i true })

/-! ## Events -/

def fdToObj : Option ℕ := if fd < maxEvFd then s.event t fd else none

def fdIsEvent : Bool := (s.fdToObj t fd).isSome

/-- `register_fd` of events, and with `none` `unregister_fd` -/
def setEvent (entry : Option ℕ) : Fds :=
  if fd < maxEvFd then { s with event := setEntry s.event t fd entry } else s

def slotUsed (i : ℕ) : Bool :=
  (List.finRange 64).any fun t => (List.range maxEvFd).any fun fd => s.event t fd = some i

/-- `alloc` -/
def allocObj : Option ℕ := search (fun i => !s.slotUsed i) 0 maxObjs

/-! ## Free descriptors -/

/-- What `get_unused_fd`, `sys_dup` and `fcntl` take for free, and `find_free_fd` too. -/
def unused : Bool := (s.fdToFilp t fd).isNone && !s.fdIsPipe t fd && !s.fdIsSocket fd

/-- What `pipe` takes for free. -/
def unusedByPipe : Bool := !s.fdIsPipe t fd && (s.fdToFilp t fd).isNone

/-- What `alloc_event_fd` takes for free. -/
def unusedByEvent : Bool := s.unused t fd && !s.fdIsEvent t fd

def getUnusedFd : Option ℕ := search (s.unused t) 0 nrOpen

def findFreeFd : Option ℕ := search (s.unused t) 3 maxSockFd

end Fds

/-! ## The calls -/

/-- What a call returns: an error, or the descriptors it hands out. -/
abbrev Reply : Type := Except ℤ (List ℕ)

/-- The calls.  An `open` comes with what `open_namei` and the driver make of it, a call that
may want a page with whether there is one, and one that writes to a user pointer with whether
that is null. -/
inductive Call where
  | «open» (outcome : Except ℤ Unit)
  | pipe (null page : Bool)
  | socket (family sockType : ℕ)
  | socketpair (family sockType : ℕ) (null : Bool)
  | accept (fd : ℕ)
  | createEvent
  | dup (fd : ℕ)
  | dup2 (oldfd newfd : ℕ)
  | dupfd (fd start : ℕ)
  | close (fd : ℕ)

namespace Fds

variable (s : Fds) (t : Task)

def sysOpen (outcome : Except ℤ Unit) : Reply × Fds :=
  match s.getUnusedFd t with
  | none => (.error emfile, s)
  | some fd =>
    match s.getEmptyFilp with
    | none => (.error enfile, s)
    | some f =>
      let s := (s.setCount f 1).setFd t fd (some f)
      match outcome with
      | .error e => (.error e, (s.setFd t fd none).setCount f 0)
      | .ok () => (.ok [fd], s)

/-- `pipe` -/
def sysPipe (null page : Bool) : Reply × Fds :=
  if null then (.error efault, s)
  else
    match s.allocPipe page with
    | none => (.error enosys, s)
    | some (i, s) =>
      match search (s.unusedByPipe t) 3 nrOpen with
      | none => (.error enfile, s)
      | some r =>
        match search (s.unusedByPipe t) (r + 1) nrOpen with
        | none => (.error enfile, s)
        | some w => (.ok [r, w], (s.setPipe t r (some (i, .read))).setPipe t w (some (i, .write)))

/-- A socket for the caller, in a slot that was free. -/
def newSocket : Reply × Fds :=
  match s.allocSock with
  | none => (.error enomem, s)
  | some (i, s) =>
    match s.findFreeFd t with
    | none => (.error enomem, s)
    | some fd => (.ok [fd], s.setSock fd (some i))

/-- `sys_socket`: `AF_UNIX` or `AF_INET`, `SOCK_STREAM` or `SOCK_DGRAM` -/
def sysSocket (family sockType : ℕ) : Reply × Fds :=
  if family ≠ 2 ∧ family ≠ 1 then (.error eafnosupport, s)
  else if sockType ≠ 1 ∧ sockType ≠ 2 then (.error esocktnosupport, s)
  else s.newSocket t

def sysSocketpair (family sockType : ℕ) (null : Bool) : Reply × Fds :=
  if null then (.error efault, s)
  else
    match s.sysSocket t family sockType with
    | (.error e, s) => (.error e, s)
    | (.ok first, s) =>
      match s.sysSocket t family sockType with
      | (.error e, s) => (.error e, first.foldl (fun s fd => s.setSock fd none) s)
      | (.ok second, s) => (.ok (first ++ second), s)

def sysAccept (fd : ℕ) : Reply × Fds :=
  if s.fdIsSocket fd then s.newSocket t else (.error ebadf, s)

/-- `eventfd`, `timerfd_create`, `signalfd`, `epoll_create` and `inotify_init`: `alloc`, then
`alloc_event_fd` -/
def createEvent : Reply × Fds :=
  match s.allocObj with
  | none => (.error emfile, s)
  | some i =>
    match search (s.unusedByEvent t) 3 64 with
    | none => (.error emfile, s)
    | some fd => (.ok [fd], s.setEvent t fd (some i))

/-- `sys_close`: of a file -/
def sysClose (fd : ℕ) : Reply × Fds :=
  match s.fdToFilp t fd with
  | none => (.error ebadf, s)
  | some f => (.ok [], (s.setFd t fd none).putFilp f)

/-- `sys_dup` from 0, `fcntl(F_DUPFD)` from its argument -/
def dupFrom (fd start : ℕ) : Reply × Fds :=
  if s.fdIsPipe t fd then
    match search (s.unused t) start nrOpen with
    | none => (.error emfile, s)
    | some new => (.ok [new], (s.dupFd t fd new).2)
  else
    match s.fdToFilp t fd with
    | none => (.error ebadf, s)
    | some f =>
      match search (s.unused t) start nrOpen with
      | none => (.error emfile, s)
      | some new => (.ok [new], (s.setCount f (s.fCount f + 1)).setFd t new (some f))

/-- What `sys_dup2` closes before it binds the new descriptor. -/
def closeTarget (fd : ℕ) : Fds :=
  if s.fdIsPipe t fd then s.closeFd t fd
  else if (s.fdToFilp t fd).isSome then (s.sysClose t fd).2
  else s

def sysDup2 (oldfd newfd : ℕ) : Reply × Fds :=
  if nrOpen ≤ newfd then (.error ebadf, s)
  else if s.fdIsPipe t oldfd then
    if oldfd = newfd then (.ok [newfd], s)
    else (.ok [newfd], ((s.closeTarget t newfd).dupFd t oldfd newfd).2)
  else
    match s.fdToFilp t oldfd with
    | none => (.error ebadf, s)
    | some f =>
      if oldfd = newfd then (.ok [newfd], s)
      else
        let s := s.closeTarget t newfd
        (.ok [newfd], (s.setCount f (s.fCount f + 1)).setFd t newfd (some f))

def close (fd : ℕ) : Reply × Fds :=
  let pipe := s.fdIsPipe t fd
  let s := if pipe then s.closeFd t fd else s
  let sock := s.fdIsSocket fd
  let s := if sock then s.closeSocket fd else s
  let event := s.fdIsEvent t fd
  let s := if event then s.setEvent t fd none else s
  if pipe || sock || event then (.ok [], s) else s.sysClose t fd

/-- A call of a task. -/
def call : Call → Reply × Fds
  | .open outcome => s.sysOpen t outcome
  | .pipe null page => s.sysPipe t null page
  | .socket family sockType => s.sysSocket t family sockType
  | .socketpair family sockType null => s.sysSocketpair t family sockType null
  | .accept fd => s.sysAccept t fd
  | .createEvent => s.createEvent t
  | .dup fd => s.dupFrom t fd 0
  | .dup2 oldfd newfd => s.sysDup2 t oldfd newfd
  | .dupfd fd start => s.dupFrom t fd start
  | .close fd => s.close t fd

/-! ## `fork` and `exit` -/

def cloneFds (child : Task) : Fds := { s with filp := update s.filp child (s.filp t) }

/-- An end counted up without saturation.  The overflow check of the default build stops the
kernel (`none`); the release build, which is not modelled here, wraps to 0. -/
def countEnd (i : ℕ) (dir : Dir) : Option Fds :=
  match s.pipes i, dir with
  | none, _ => some s
  | some pipe, .read =>
    if pipe.readers < 255 then some (s.putPipe i (some { pipe with readers := pipe.readers + 1 }))
    else none
  | some pipe, .write =>
    if pipe.writers < 255 then some (s.putPipe i (some { pipe with writers := pipe.writers + 1 }))
    else none

def clonePipeFds (child : Task) : Option Fds :=
  (List.range maxPipeFd).foldlM
    (fun s fd =>
      match s.pipe child fd with
      | none => some s
      | some (i, dir) => s.countEnd i dir)
    { s with pipe := update s.pipe child (s.pipe t) }

/-- The open files of the child are counted. -/
def countFiles (child : Task) : Fds :=
  (List.range nrOpen).foldl
    (fun s fd =>
      match s.fdToFilp child fd with
      | none => s
      | some f => s.setCount f (s.fCount f + 1))
    s

/-- The descriptors of a new child, in `fork` and `clone`. -/
def inherit (child : Task) : Option Fds :=
  ((s.cloneFds t child).clonePipeFds t child).map fun s => s.countFiles child

/-- One round of `close_all`. -/
def closeOne (fd : ℕ) : Fds :=
  let s := if s.fdIsPipe t fd then s.closeFd t fd else s
  let s := if s.fdIsSocket fd then s.closeSocket fd else s
  if (s.fdToFilp t fd).isSome then (s.sysClose t fd).2 else s

def closeAll : Fds := (List.range nrOpen).foldl (fun s fd => s.closeOne t fd) s

end Fds

end Shitix.Fd
