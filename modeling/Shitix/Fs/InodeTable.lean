import Shitix.Fs.MinixBitmap
import Shitix.Lib.Coop
import Shitix.Lib.RefCount

/-!
# The inode table

`iget_cross`, `iput`, `get_empty_inode`, `read_inode` and `write_inode` of `fs/inode.rs`,
with `new_inode`, `free_inode`, `put_inode`, `read_inode` and `write_inode` of the minix
file system below them, as code of cooperative threads.  A frame is a place where one of
these functions is entered, waits for a callee, or is asleep; the code between two such
places runs without interruption.  The sleep points are `wait_on_inode` on a locked inode,
`get_empty_inode` without a free slot, and the disk transfers of reading an inode,
writing it back, and truncating a file.

Tasks use the table as its contracts ask: a super block they pass is mounted, and they put
back only references they hold.  `held` keeps track of those references, and `pinned` of
the ones mounts keep; the code never looks at either.
-/

namespace Shitix.Inodes

open Minix Function

def nrInode : ℕ := 64

def nrSuper : ℕ := 4

abbrev nrTasks : ℕ := 64

/-- The file type in `i_mode`; `unknown` for none of the four the code asks for. -/
inductive FileType where
  | unknown | regular | directory | charDevice | blockDevice
deriving DecidableEq, Repr

/-- `FsType`: which operations an inode has -/
inductive FsType where
  | none | minix | ext2 | chr | blk | proc | tmpfs
deriving DecidableEq, Repr

/-- `Inode`, as far as the table looks at it; `NIL` is `none`. -/
structure Inode where
  dev : ℕ
  ino : ℕ
  mode : FileType
  nlink : ℕ
  count : ℕ
  dirt : Bool
  lock : Bool
  sb : Option ℕ
  mount : Option ℕ
  op : FsType
  inUse : Bool

/-- `Inode::new` -/
def Inode.new : Inode :=
  { dev := 0, ino := 0, mode := .unknown, nlink := 0, count := 0, dirt := false, lock := false
    sb := none, mount := none, op := .none, inUse := false }

/-- `SuperBlock`, as far as the table looks at it. -/
structure Super where
  /-- 0 for a free slot -/
  dev : ℕ
  /-- `s_magic == 0xEF53` -/
  ext4 : Bool
  /-- `s_flags & MS_RDONLY` -/
  readOnly : Bool
  ninodes : ℕ
  imap : Bitmap

/-- What the table takes from an inode on disk. -/
structure RawInode where
  mode : FileType
  nlink : ℕ

/-- The inode table, the super blocks, and the disks. -/
structure Table where
  inodes : ℕ → Inode
  supers : ℕ → Super
  /-- the inodes on the disks, by device and number; `none` if one cannot be read -/
  disk : ℕ → ℕ → Option RawInode
  /-- references tasks hold -/
  held : ℕ → ℕ
  /-- references mounts hold -/
  pinned : ℕ → ℕ

/-- Why the kernel stops. -/
inductive Panic where
  /-- an index past the end of a table -/
  | outOfRange (n : ℕ)
deriving DecidableEq, Repr

/-- Who asks `get_empty_inode` for a slot. -/
inductive Purpose where
  | iget (sb dev ino : ℕ)
  | newInode (sb : ℕ)
deriving DecidableEq, Repr

/-- Where a call stands. -/
inductive Frame where
  /-- `iget_cross` -/
  | iget (sb ino : ℕ) (cross : Bool)
  /-- `iget_cross`, at the head of its loop -/
  | igetLoop (sb dev ino : ℕ) (cross : Bool)
  /-- `iget_cross`, in `wait_on_inode(found)` -/
  | igetFound (sb dev ino : ℕ) (cross : Bool) (found : ℕ)
  /-- `iget_cross`, in `wait_on_inode(m)` -/
  | igetMounted (m : ℕ)
  /-- `get_empty_inode`, at the head of its loop -/
  | getEmptyInode (purpose : Purpose)
  /-- `get_empty_inode`, in `wait_on_inode(best)` -/
  | getEmptyWait (purpose : Purpose) (best : ℕ)
  /-- `read_inode`, the end of `iget_cross` -/
  | readInode (n : ℕ)
  /-- `read_inode`, after the transfer -/
  | readInodeDone (n : ℕ)
  | writeInode (n : ℕ)
  /-- `write_inode`, in `lock_inode` -/
  | writeInodeLock (n : ℕ)
  /-- `write_inode`, after the transfer -/
  | writeInodeDone (n : ℕ)
  | iput (n : Option ℕ)
  /-- `iput`, in `wait_on_inode` after `write_inode` -/
  | iputWritten (n : ℕ)
  /-- `iput`, in `put_inode` after `truncate` -/
  | iputTruncated (n : ℕ)
  | newInode (dir : Option ℕ)
  /-- `new_inode`, after `iput` of a slot it cannot use -/
  | newInodeFailed
deriving DecidableEq, Repr

/-- What the calls return. -/
inductive Value where
  | unit
  | slot (n : Option ℕ)
deriving DecidableEq, Repr

/-- One stretch of a call, and how it ends. -/
abbrev Stretch : Type := Except Panic (Table × Next Frame Value)

namespace Table

/-- Write one slot. -/
def modify (k : Table) (n : ℕ) (f : Inode → Inode) : Table :=
  { k with inodes := update k.inodes n (f (k.inodes n)) }

/-- Write the inode map of one super block. -/
def writeImap (k : Table) (s i j : ℕ) (value : Bool) : Table :=
  { k with
    supers := update k.supers s
      { k.supers s with imap := writeBit (k.supers s).imap i j value } }

/-- `i_count += 1` -/
def bump (k : Table) (n : ℕ) : Table :=
  k.modify n fun inode => { inode with count := inc16 inode.count }

/-- `i_count -= 1` -/
def drop (k : Table) (n : ℕ) : Table :=
  k.modify n fun inode => { inode with count := inode.count - 1 }

/-- The lookup of `iget_cross`: the first slot in use that has the key. -/
def lookup (k : Table) (dev ino : ℕ) : Option ℕ :=
  (List.range nrInode).find? fun n =>
    (k.inodes n).inUse && (k.inodes n).dev == dev && (k.inodes n).ino == ino

/-- The choice of `get_empty_inode`: a free slot, clean and unlocked if there is one. -/
def bestEmpty (k : Table) : Option ℕ :=
  let free := fun n => (k.inodes n).count == 0
  let clean := fun n => !(k.inodes n).dirt && !(k.inodes n).lock
  ((List.range nrInode).find? fun n => free n && clean n).or ((List.range nrInode).find? free)

/-- The end of `get_empty_inode`: the slot is cleared and taken. -/
def take (k : Table) (n : ℕ) : Table :=
  k.modify n fun _ => { Inode.new with count := 1, nlink := 1, inUse := true }

/-- `free_inode` of the minix file system -/
def freeInode (k : Table) (n : ℕ) : Table :=
  let inode := k.inodes n
  match inode.sb with
  | none => k
  | some s =>
    if inode.dev = 0 ∨ inode.count ≠ 1 ∨ inode.nlink ≠ 0 then k
    else if inode.ino < 1 ∨ (k.supers s).ninodes ≤ inode.ino then k
    else if mapSlots ≤ inode.ino / bitsPerBlock then k
    else if ((k.supers s).imap (inode.ino / bitsPerBlock)).isNone then k
    else (k.modify n fun _ => Inode.new).writeImap s (inode.ino / bitsPerBlock)
      (inode.ino % bitsPerBlock) false

end Table

/-- The operations `read_inode` of the minix file system gives an inode. -/
def minixOp : FileType → FsType
  | .regular | .directory => .minix
  | .charDevice => .chr
  | .blockDevice => .blk
  | .unknown => .none

/-- The operations `read_inode` of ext4 gives an inode. -/
def ext4Op : FileType → FsType
  | .charDevice => .chr
  | .blockDevice => .blk
  | _ => .ext2

/-- A stretch that reads a slot and decides. -/
def withInode (k : Table) (n : ℕ) (f : Inode → Stretch) : Stretch :=
  if n < nrInode then f (k.inodes n) else .error (.outOfRange n)

/-- `wait_on_inode`: go on if the inode is not locked, else sleep and look again. -/
def waitOnInode (k : Table) (n : ℕ) (here : Frame) (f : Inode → Stretch) : Stretch :=
  withInode k n fun inode => if inode.lock then .ok (k, .sleep here) else f inode

/-- Return a slot to the task that asked for it, which holds a reference from now on. -/
def handOut (k : Table) (n : ℕ) : Stretch :=
  .ok ({ k with held := update k.held n (k.held n + 1) }, .ret (.slot (some n)))

/-- The end of `read_inode` and of `iget_cross`: unlock the inode and return it. -/
def finishRead (k : Table) (n : ℕ) (f : Inode → Inode) : Stretch :=
  handOut (k.modify n fun inode => { f inode with lock := false }) n

/-- The end of `write_inode`. -/
def finishWrite (k : Table) (n : ℕ) : Stretch :=
  .ok (k.modify n ({ · with dirt := false, lock := false }), .ret .unit)

/-- The fields `new_inode` gives a new inode. -/
def Inode.create (s dev ino : ℕ) (inode : Inode) : Inode :=
  { inode with
    sb := some s, count := 1, nlink := 1, dev := dev, ino := ino, dirt := true, op := .none
    inUse := true }

/-- The rest of `new_inode` once it has a slot: find an inode number, or give the slot back. -/
def newInodeAt (k : Table) (s n : ℕ) : Stretch :=
  match findFree (k.supers s).imap with
  | none => .ok (k, .call (.iput (some n)) .newInodeFailed)
  | some (i, j) =>
    let marked := k.writeImap s i j true
    let ino := j + i * bitsPerBlock
    if ino = 0 ∨ (k.supers s).ninodes ≤ ino then
      .ok (marked, .call (.iput (some n)) .newInodeFailed)
    else handOut (marked.modify n (.create s (k.supers s).dev ino)) n

/-- What the caller of `get_empty_inode` does with the slot. -/
def fill (k : Table) (n : ℕ) : Purpose → Stretch
  | .iget s dev ino =>
    .ok (k.modify n ({ · with sb := some s, dev := dev, ino := ino }), .goto (.readInode n))
  | .newInode s => newInodeAt k s n

/-- The end of the loop of `iput`: write the inode back, or let go of it. -/
def iputRest (k : Table) (n : ℕ) : Stretch :=
  let inode := k.inodes n
  if inode.dirt then .ok (k, .call (.writeInode n) (.iputWritten n))
  else
    .ok (k.modify n fun inode =>
      { inode with
        count := inode.count - 1, inUse := if inode.count - 1 = 0 then false else inode.inUse },
      .ret .unit)

/-- The loop of `iput`. -/
def iputLoop (k : Table) (n : ℕ) : Stretch :=
  let inode := k.inodes n
  if 1 < inode.count then .ok (k.drop n, .ret .unit)
  -- `put_inode` truncates a file without links, and frees its inode after that
  else if inode.sb.isSome ∧ inode.op = .minix ∧ inode.nlink = 0 then
    .ok (k, .sleep (.iputTruncated n))
  else iputRest k n

/-- The code of the calls. -/
def code : Frame → Value → Table → Stretch
  | .iget s ino cross, _, k =>
    if s < nrSuper then .ok (k, .goto (.igetLoop s (k.supers s).dev ino cross))
    else .error (.outOfRange s)
  | .igetLoop s dev ino cross, _, k =>
    match k.lookup dev ino with
    | some found => .ok (k.bump found, .goto (.igetFound s dev ino cross found))
    | none => .ok (k, .goto (.getEmptyInode (.iget s dev ino)))
  | .igetFound s dev ino cross found, _, k =>
    waitOnInode k found (.igetFound s dev ino cross found) fun inode =>
      -- `VFS: inode changed from under us`
      if inode.dev ≠ dev ∨ inode.ino ≠ ino then
        .ok (k, .call (.iput (some found)) (.igetLoop s dev ino cross))
      else
        match inode.mount with
        | none => handOut k found
        | some m =>
          if cross then withInode k m fun _ =>
            .ok (k.bump m, .call (.iput (some found)) (.igetMounted m))
          else handOut k found
  | .igetMounted m, _, k => waitOnInode k m (.igetMounted m) fun _ => handOut k m
  | .getEmptyInode purpose, _, k =>
    match k.bestEmpty with
    | none => .ok (k, .sleep (.getEmptyInode purpose))
    | some best => withInode k best fun inode =>
      if inode.lock then .ok (k, .sleep (.getEmptyWait purpose best))
      else if inode.dirt then .ok (k, .call (.writeInode best) (.getEmptyInode purpose))
      -- nothing has slept since the choice, so the slot is still free
      else fill (k.take best) best purpose
  | .getEmptyWait purpose best, _, k =>
    waitOnInode k best (.getEmptyWait purpose best) fun _ => .ok (k, .goto (.getEmptyInode purpose))
  | .readInode n, _, k => waitOnInode k n (.readInode n) fun inode =>
    match inode.sb with
    | none => finishRead k n id
    | some s =>
      if (k.supers s).ext4 then
        .ok (k.modify n ({ · with lock := true }), .sleep (.readInodeDone n))
      else if inode.ino = 0 ∨ (k.supers s).ninodes ≤ inode.ino then
        finishRead k n ({ · with op := .none, mode := .unknown })
      else
        .ok (k.modify n ({ · with lock := true, op := .none, mode := .unknown }),
          .sleep (.readInodeDone n))
  | .readInodeDone n, _, k => withInode k n fun inode =>
    match k.disk inode.dev inode.ino, inode.sb with
    | some raw, some s =>
      if (k.supers s).ext4 then
        finishRead k n ({ · with mode := raw.mode, op := ext4Op raw.mode, nlink := raw.nlink })
      else
        finishRead k n
          ({ · with mode := raw.mode, op := minixOp raw.mode, nlink := raw.nlink, inUse := true })
    | _, _ => finishRead k n id
  | .writeInode n, _, k => withInode k n fun inode =>
    if inode.dirt then .ok (k, .goto (.writeInodeLock n)) else .ok (k, .ret .unit)
  | .writeInodeLock n, _, k => waitOnInode k n (.writeInodeLock n) fun inode =>
    match inode.sb with
    | none => finishWrite k n
    | some s =>
      if (k.supers s).readOnly then finishWrite k n
      else if ¬ (k.supers s).ext4 ∧ (inode.ino = 0 ∨ (k.supers s).ninodes ≤ inode.ino) then
        finishWrite k n
      else .ok (k.modify n ({ · with lock := true }), .sleep (.writeInodeDone n))
  | .writeInodeDone n, _, k => withInode k n fun inode =>
    -- nothing is written if the block of the inode cannot be read
    if (k.disk inode.dev inode.ino).isSome then
      finishWrite { k with
        disk := update k.disk inode.dev (update (k.disk inode.dev) inode.ino
          (some { mode := inode.mode, nlink := inode.nlink })) } n
    else finishWrite k n
  | .iput none, _, k => .ok (k, .ret .unit)
  | .iput (some n), _, k => waitOnInode k n (.iput (some n)) fun inode =>
    -- `VFS: iput: trying to free free inode`
    if inode.count = 0 then .ok (k, .ret .unit) else iputLoop k n
  | .iputWritten n, _, k => waitOnInode k n (.iputWritten n) fun _ => iputLoop k n
  | .iputTruncated n, _, k => withInode k n fun _ =>
    let freed := (k.modify n ({ · with dirt := true })).freeInode n
    if (freed.inodes n).nlink = 0 then .ok (freed, .ret .unit) else iputRest freed n
  | .newInode none, _, k => .ok (k, .ret (.slot none))
  | .newInode (some dir), _, k => withInode k dir fun inode =>
    match inode.sb with
    | none => .ok (k, .ret (.slot none))
    | some s => .ok (k, .goto (.getEmptyInode (.newInode s)))
  | .newInodeFailed, _, k => .ok (k, .ret (.slot none))

/-- What comes from outside the calls, while no task is inside a stretch of one. -/
inductive Outside where
  /-- a task changes an inode it holds and marks it dirty -/
  | change (n : ℕ) (mode : FileType) (nlink : ℕ) (op : FsType)
  /-- a file system with root `m` is mounted on directory `n` -/
  | mount (n m : ℕ)
  /-- an inode on disk changes, or cannot be read any more -/
  | disk (dev ino : ℕ) (raw : Option RawInode)

/-- `i_mount = m` on directory `n`; the mount keeps the reference to the root that the caller
got from `iget`. -/
def Table.pin (k : Table) (n m : ℕ) : Table :=
  { k with
    inodes := (k.modify n ({ · with mount := some m })).inodes
    held := update k.held m (k.held m - 1)
    pinned := update k.pinned m (k.pinned m + 1) }

/-- What comes from outside acts on the table. -/
def outside (k : Table) : Outside → Except Panic Table
  | .change n mode nlink op =>
    if 0 < k.held n then
      .ok (k.modify n ({ · with mode := mode, nlink := nlink, op := op, dirt := true }))
    else .ok k
  | .mount n m =>
    if 0 < k.held n ∧ 0 < k.held m ∧ (k.inodes n).mount = none then
      .ok (k.pin n m)
    else .ok k
  | .disk dev ino raw =>
    .ok { k with disk := update k.disk dev (update (k.disk dev) ino raw) }

/-- The tasks of the system. -/
abbrev Task : Type := Fin nrTasks

/-- The table with the tasks that use it. -/
abbrev System : Type := Coop Table Frame Value Task

/-- The calls tasks make. -/
inductive Call where
  | iget (sb ino : ℕ) (cross : Bool)
  | iput (n : Option ℕ)
  | newInode (dir : Option ℕ)
deriving DecidableEq, Repr

/-- The frame a call starts in. -/
def Call.frame : Call → Frame
  | .iget s ino cross => .iget s ino cross
  | .iput n => .iput n
  | .newInode dir => .newInode dir

/-- The table when a call starts, if its contract allows the call: the super block is mounted,
the task holds the reference it puts back, and the directory. -/
def Table.grant (k : Table) : Call → Option Table
  | .iget s _ _ => if s < nrSuper ∧ (k.supers s).dev ≠ 0 then some k else none
  | .iput none | .newInode none => some k
  | .iput (some n) =>
    if 0 < k.held n then some { k with held := update k.held n (k.held n - 1) } else none
  | .newInode (some dir) => if 0 < k.held dir then some k else none

/-- What happens next. -/
inductive Event where
  /-- a task calls a function of the table -/
  | call (t : Task) (call : Call)
  /-- the scheduler picks a task -/
  | go (t : Task)
  | env (input : Outside)

/-- One event of the system.  What cannot happen now changes nothing. -/
def step (s : System) : Event → Except Panic System
  | .call t call =>
    if s.running = none ∧ (s.stack t).isEmpty then
      match s.shared.grant call with
      | some k => Coop.step code outside { s with shared := k } (.call t call.frame)
      | none => .ok s
    else .ok s
  | .go t => Coop.step code outside s (.go t)
  | .env input => if s.running = none then Coop.step code outside s (.env input) else .ok s

/-- The table `init` leaves, over mounted super blocks. -/
def Table.init (supers : ℕ → Super) (disk : ℕ → ℕ → Option RawInode) : Table :=
  { inodes := fun _ => .new, supers := supers, disk := disk, held := fun _ => 0
    pinned := fun _ => 0 }

end Shitix.Inodes
