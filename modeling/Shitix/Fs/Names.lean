import Shitix.Fs.InodeTable

/-!
# Names

Path names are resolved by `fs/namei.rs` over the directories of four file systems: minix, ext4
(`FsType::Ext2`, in a kernel with `extra-drivers`), `/proc` and tmpfs.  A `Tree` is what the
resolution reads: the inodes, the entries of the directories, the targets of symbolic links, the
mounts, and the credentials of the caller.  An inode is named by its file system and number, as the
inode table is searched by them, and `count` is the `i_count` it has in the table, 0 if it is not
in it.  An entry of `/proc` gets a new inode at every lookup; these are counted together.

What the blocks below a directory answer is not decided here: `trouble` is the error with which no
entry can be added, and `reaches` says whether `remove_entry` of ext4, which reads 1024 bytes at a
time, comes across an entry.

Every function returns its result together with the state it leaves, also when it fails.
-/

namespace Shitix.Names

open Function

open Inodes (FsType)

/-- The error codes of `klib/errno.rs` that the functions use. -/
inductive Errno where
  | eperm | enoent | eio | ebadf | eacces | efault | ebusy | eexist | enotdir | eisdir | einval
  | enospc | erofs | emlink | enametoolong | enotempty | eloop
deriving DecidableEq, Repr

def Errno.code : Errno → ℤ
  | eperm => 1
  | enoent => 2
  | eio => 5
  | ebadf => 9
  | eacces => 13
  | efault => 14
  | ebusy => 16
  | eexist => 17
  | enotdir => 20
  | eisdir => 21
  | einval => 22
  | enospc => 28
  | erofs => 30
  | emlink => 31
  | enametoolong => 36
  | enotempty => 39
  | eloop => 40

inductive ProcKind where
  | root | version | meminfo | stat | filesystems | selfLink | pidDir | pidExe | pidMaps
  | pidStatus | pidFdDir | pidCmdline
deriving DecidableEq, Repr

/-- An inode, as the inode table finds it. -/
inductive Id where
  | disk (sb ino : ℕ)
  | proc (kind : ProcKind) (pid : ℕ)
  | tmpfs (n : ℕ)
deriving DecidableEq, Repr

/-- `i_sb` -/
def Id.sb : Id → Option ℕ
  | disk sb _ => some sb
  | _ => none

abbrev Name : Type := List UInt8

/-- The bytes of a text. -/
def ascii (text : List Char) : Name := text.map fun c => UInt8.ofNat c.toNat

/-- `/` -/
def slash : UInt8 := 47

/-- `.` -/
def dot : Name := [46]

/-- `..` -/
def dotdot : Name := [46, 46]

/-! ## Modes -/

abbrev Mode : Type := BitVec 16

def sIfmt : Mode := 0o170000#16

def sIflnk : Mode := 0o120000#16

def sIfreg : Mode := 0o100000#16

def sIfblk : Mode := 0o060000#16

def sIfdir : Mode := 0o040000#16

def sIfchr : Mode := 0o020000#16

def sIsgid : Mode := 0o002000#16

def mayExec : Mode := 1#16

def mayWrite : Mode := 2#16

def mayRead : Mode := 4#16

/-- An inode in the table, but for its count. -/
structure Inode where
  mode : Mode
  uid : ℕ
  gid : ℕ
  nlink : ℕ
  size : ℕ
  op : FsType
  mount : Option Id
deriving DecidableEq, Repr

namespace Inode

/-- `Inode::new` -/
def new : Inode :=
  { mode := 0#16, uid := 0, gid := 0, nlink := 0, size := 0, op := .none, mount := none }

variable (inode : Inode)

def isLnk : Prop := inode.mode &&& sIfmt = sIflnk

def isReg : Prop := inode.mode &&& sIfmt = sIfreg

def isDir : Prop := inode.mode &&& sIfmt = sIfdir

def isChr : Prop := inode.mode &&& sIfmt = sIfchr

def isBlk : Prop := inode.mode &&& sIfmt = sIfblk

instance : Decidable inode.isLnk := inferInstanceAs (Decidable (_ = _))

instance : Decidable inode.isReg := inferInstanceAs (Decidable (_ = _))

instance : Decidable inode.isDir := inferInstanceAs (Decidable (_ = _))

instance : Decidable inode.isChr := inferInstanceAs (Decidable (_ = _))

instance : Decidable inode.isBlk := inferInstanceAs (Decidable (_ = _))

end Inode

/-- The inode that `proc_iget` makes. -/
def procInode (kind : ProcKind) : Inode :=
  { Inode.new with
    op := .proc
    nlink := if kind = .root ∨ kind = .pidDir ∨ kind = .pidFdDir then 2 else 1
    mode :=
      if kind = .root ∨ kind = .pidDir ∨ kind = .pidFdDir then sIfdir ||| 0o555#16
      else if kind = .selfLink ∨ kind = .pidExe then sIflnk ||| 0o777#16
      else sIfreg ||| 0o444#16 }

/-! ## The tree -/

/-- An entry of a directory; 0 is no inode. -/
structure Entry where
  ino : ℕ
  name : Name
deriving DecidableEq, Repr

/-- An entry of the table of tmpfs. -/
structure TmpEntry where
  name : Name
  inode : Id
  parent : Option Id

/-- A super block. -/
structure Super where
  dev : ℕ
  /-- `s_flags & MS_RDONLY` -/
  readOnly : Bool
  /-- `s_mounted` -/
  mounted : Option Id
  /-- `s_covered` -/
  covered : Option Id
  /-- `s_namelen`, of minix -/
  namelen : ℕ
  /-- `s_ninodes`, of minix -/
  ninodes : ℕ
  /-- `fs_block_size`, of ext4 -/
  blockSize : ℕ
  /-- the inode numbers that the bitmaps have to give, in order -/
  free : List ℕ

/-- What paths are resolved in. -/
structure Tree where
  nodes : Id → Inode
  entries : Id → List Entry
  /-- what `read_symlink` of ext4 reads -/
  target : Id → Option Name
  trouble : Id → Option Errno
  reaches : Id → Name → Bool
  supers : ℕ → Super
  tmpEntries : List TmpEntry
  /-- `root_inode` -/
  root : Option Id
  /-- `pwd_inode` -/
  pwd : Option Id
  euid : ℕ
  egid : ℕ
  /-- the slot of the current task -/
  current : ℕ

namespace Tree

variable (t : Tree)

/-- The inode that the table has, or reads. -/
def inode : Id → Inode
  | .proc kind _ => procInode kind
  | id => t.nodes id

def isRdonly (id : Id) : Bool :=
  match id.sb with
  | none => false
  | some sb => (t.supers sb).readOnly

/-- `i_dev` -/
def dev : Id → ℕ
  | .disk sb _ => (t.supers sb).dev
  | .proc _ _ => 1
  | .tmpfs _ => 2

def permission (id : Id) (mask : Mode) : Bool :=
  let inode := t.inode id
  if mask &&& mayWrite ≠ 0#16 ∧ t.isRdonly id ∧ (inode.isReg ∨ inode.isDir ∨ inode.isLnk) then
    false
  else
    let mode :=
      if t.euid = inode.uid then inode.mode >>> 6
      else if t.egid = inode.gid then inode.mode >>> 3
      else inode.mode
    mode &&& mask &&& 7#16 = mask ∨ t.euid = 0

/-- The first entry with a name. -/
def findIn (entries : List Entry) (name : Name) : Option ℕ :=
  (entries.find? fun entry => entry.ino ≠ 0 ∧ entry.name = name).map Entry.ino

/-- `find_entry` of minix, which cuts off what is too long -/
def minixFind (dir : Id) (name : Name) : Option ℕ :=
  match dir.sb with
  | none => none
  | some sb => findIn (t.entries dir) (name.take (t.supers sb).namelen)

def ext4NameLen : ℕ := 255

/-- `find_entry` of ext4 -/
def ext4Find (dir : Id) (name : Name) : Option ℕ :=
  if ext4NameLen < name.length then none else findIn (t.entries dir) name

def readSymlinkTarget (id : Id) : Option Name :=
  if (t.inode id).isLnk ∧ (t.inode id).op = .ext2 then t.target id else none

def parseU32 (name : Name) : Option ℕ :=
  if name = [] ∨ 10 < name.length then none
  else name.foldl
    (fun value byte => value.bind fun v =>
      if 48 ≤ byte.toNat ∧ byte.toNat ≤ 57 ∧ v * 10 + (byte.toNat - 48) < 2 ^ 32 then
        some (v * 10 + (byte.toNat - 48))
      else none)
    (some 0)

/-- `lookup_root` -/
def procLookupRoot (name : Name) : Except Errno Id :=
  if name = ascii ['s', 'e', 'l', 'f'] then .ok (.proc .selfLink t.current)
  else if name = ascii ['v', 'e', 'r', 's', 'i', 'o', 'n'] then .ok (.proc .version 0)
  else if name = ascii ['m', 'e', 'm', 'i', 'n', 'f', 'o'] then .ok (.proc .meminfo 0)
  else if name = ascii ['s', 't', 'a', 't'] then .ok (.proc .stat 0)
  else if name = ascii ['f', 'i', 'l', 'e', 's', 'y', 's', 't', 'e', 'm', 's'] then .ok (.proc .filesystems 0)
  else
    match parseU32 name with
    | some pid => if 0 < pid ∧ pid < 64 then .ok (.proc .pidDir pid) else .error .enoent
    | none => .error .enoent

/-- `lookup_pid_dir` -/
def procLookupPidDir (pid : ℕ) (name : Name) : Except Errno Id :=
  if name = ascii ['e', 'x', 'e'] then .ok (.proc .pidExe pid)
  else if name = ascii ['m', 'a', 'p', 's'] then .ok (.proc .pidMaps pid)
  else if name = ascii ['s', 't', 'a', 't', 'u', 's'] then .ok (.proc .pidStatus pid)
  else if name = ascii ['c', 'm', 'd', 'l', 'i', 'n', 'e'] then .ok (.proc .pidCmdline pid)
  else if name = ascii ['f', 'd'] then .ok (.proc .pidFdDir pid)
  else .error .enoent

/-- What `lookup` of `/proc` finds. -/
def procFind (name : Name) : Id → Except Errno Id
  | .proc .root _ => t.procLookupRoot name
  | .proc .pidDir pid => procLookupPidDir pid name
  | _ => .error .enotdir

/-- What `lookup` of tmpfs finds. -/
def tmpfsFind (dir : Id) (name : Name) : Except Errno Id :=
  if name = dot then .ok dir
  else if name = dotdot then
    match t.tmpEntries.findSome? fun e => if e.inode = dir then e.parent else none with
    | some parent => .ok parent
    | none => .ok dir
  else
    match t.tmpEntries.find? fun e => e.parent = some dir ∧ e.name = name with
    | some e => .ok e.inode
    | none => .error .enoent

end Tree

/-! ## References -/

/-- The tree, and the references to its inodes. -/
structure Vfs extends Tree where
  count : Id → ℕ

namespace Vfs

variable (s : Vfs)

/-- `i_count += 1` -/
def bump (id : Id) : Vfs := { s with count := update s.count id (inc16 (s.count id)) }

/-- `i_count -= 1` -/
def drop (id : Id) : Vfs := { s with count := update s.count id (s.count id - 1) }

def setNode (id : Id) (inode : Inode) : Vfs := { s with nodes := update s.nodes id inode }

def setEntries (dir : Id) (entries : List Entry) : Vfs :=
  { s with entries := update s.entries dir entries }

def setFree (sb : ℕ) (free : List ℕ) : Vfs :=
  { s with supers := update s.supers sb { s.supers sb with free := free } }

/-- `put_inode` of minix for an inode without links: its blocks and its number are given back, and
it is cleared.  A number that is not in the map stays as it is. -/
def putInode : Id → Vfs
  | .disk sb ino =>
    if ino < 1 ∨ (s.supers sb).ninodes ≤ ino then s
    else
      let s := { s with count := update s.count (.disk sb ino) 0 }
      ((s.setNode (.disk sb ino) .new).setEntries (.disk sb ino) []).setFree sb
        (ino :: (s.supers sb).free)
  | _ => s

def iput (id : Id) : Vfs :=
  -- `VFS: iput: trying to free free inode`
  if s.count id = 0 then s
  else if 1 < s.count id then s.drop id
  else if id.sb.isSome ∧ (s.inode id).op = .minix ∧ (s.inode id).nlink = 0 then s.putInode id
  else s.drop id

def igetCross (sb ino : ℕ) (cross : Bool) : Id × Vfs :=
  let id := .disk sb ino
  let s := s.bump id
  match (s.inode id).mount with
  | none => (id, s)
  | some m => if cross then (m, (s.bump m).iput id) else (id, s)

def iget (sb ino : ℕ) : Id × Vfs := s.igetCross sb ino true

end Vfs

/-- What a function that can fail returns, and the state it leaves. -/
abbrev Outcome (α : Type) : Type := Except Errno α × Vfs

/-! ## Lookup -/

namespace Vfs

variable (s : Vfs)

/-- The inode with the number that an entry has. -/
def igetEntry (dir : Id) (ino : Option ℕ) : Outcome Id :=
  match dir.sb, ino with
  | some sb, some ino =>
    let (id, s) := s.iget sb ino
    (.ok id, s)
  | _, _ => (.error .enoent, s)

/-- `lookup` of minix -/
def minixLookup (dir : Id) (name : Name) : Outcome Id :=
  if ¬ (s.inode dir).isDir then (.error .enotdir, s)
  else s.igetEntry dir (s.minixFind dir name)

/-- `lookup` of ext4 -/
def ext4Lookup (dir : Id) (name : Name) : Outcome Id :=
  if ¬ (s.inode dir).isDir then (.error .enotdir, s)
  else s.igetEntry dir (s.ext4Find dir name)

/-- A reference to what was found. -/
def refer : Except Errno Id → Outcome Id
  | .ok id => (.ok id, s.bump id)
  | .error e => (.error e, s)

/-- The part of `lookup_one` that asks the file system. -/
def lookupIn (dir : Id) (name : Name) : Outcome Id :=
  if s.permission dir mayExec = false then (.error .eacces, s)
  else
    match (s.inode dir).op with
    | .minix => s.minixLookup dir name
    | .ext2 => s.ext4Lookup dir name
    | .proc => s.refer (s.procFind name dir)
    | .tmpfs => s.refer (s.tmpfsFind dir name)
    | _ => (.error .enotdir, s)

end Vfs

/-- The directory that the root of a mounted file system covers. -/
def Tree.coveredBy (t : Tree) (dir : Id) : Option Id :=
  match dir.sb with
  | none => none
  | some sb =>
    if (t.supers sb).mounted = some dir then (t.supers sb).covered.filter (· ≠ dir) else none

namespace Vfs

/-- `lookup_one`.  There are no more mounts on top of each other than super blocks. -/
def lookupOne : ℕ → Vfs → Id → Name → Outcome Id
  | fuel, s, dir, name =>
    if ¬ (s.inode dir).isDir then (.error .enotdir, s)
    else if name = dot ∨ name = [] then (.ok dir, s.bump dir)
    else if name = dotdot then
      if s.root = some dir then (.ok dir, s.bump dir)
      else
        match fuel, s.coveredBy dir with
        | fuel + 1, some covered =>
          let (r, s) := lookupOne fuel (s.bump covered) covered dotdot
          (r, s.iput covered)
        | _, _ => s.lookupIn dir name
    else s.lookupIn dir name

def nrSuper : ℕ := 4

/-! ## Paths -/

def nameMax : ℕ := 32

end Vfs

def components (path : Name) : List Name := (path.splitOn slash).filter (· ≠ [])

/-- What comes before the last `/`, and what comes after it. -/
def splitLast (path : Name) : Name × Name :=
  match path.reverse.dropWhile (· ≠ slash) with
  | [] => ([], path)
  | _ :: before => (before.reverse, (path.reverse.takeWhile (· ≠ slash)).reverse)

namespace Vfs

/-- How a link is followed: from the directory it is in, and with a reference to both. -/
abbrev Follow : Type := Vfs → Id → Id → Outcome Id

/-- The loop of `dir_namei_base` over the components before the last. -/
def walk (follow : Follow) : Vfs → List Name → Id → Outcome Id
  | s, [], cur => (.ok cur, s)
  | s, comp :: rest, cur =>
    if nameMax < comp.length then (.error .enametoolong, s.iput cur)
    else if ¬ (s.inode cur).isDir then (.error .enotdir, s.iput cur)
    else if s.permission cur mayExec = false then (.error .eacces, s.iput cur)
    else
      match s.lookupOne nrSuper cur comp with
      | (.error e, s) => (.error e, s.iput cur)
      | (.ok next, s) =>
        match follow s cur next with
        | (.error e, s) => (.error e, s)
        | (.ok followed, s) => walk follow s rest followed

def dirNameiBase (follow : Follow) (s : Vfs) (path : Name) (start : Id) : Outcome (Id × Name) :=
  match walk follow (s.bump start) (components (splitLast path).1) start with
  | (.error e, s) => (.error e, s)
  | (.ok cur, s) =>
    if ¬ (s.inode cur).isDir then (.error .enotdir, s.iput cur)
    else (.ok (cur, (splitLast path).2), s)

/-- `_namei` -/
def nameiBase (follow : Follow) (followLinks : Bool) (s : Vfs) (path : Name) (base : Id) :
    Outcome Id :=
  match dirNameiBase follow s path base with
  | (.error e, s) => (.error e, s)
  | (.ok (dir, last), s) =>
    if last = [] then (.ok dir, s)
    else
      match s.lookupOne nrSuper dir last with
      | (.error e, s) => (.error e, s.iput dir)
      | (.ok inode, s) =>
        if followLinks then follow s dir inode else (.ok inode, s.iput dir)

/-- `follow_link`, with so many links still to follow -/
def followLink : ℕ → Follow
  | depth, s, dir, inode =>
    if ¬ (s.inode inode).isLnk then (.ok inode, s.iput dir)
    else
      match depth with
      | 0 => (.error .eloop, (s.iput dir).iput inode)
      | depth + 1 =>
        match s.readSymlinkTarget inode with
        | none => (.error .eio, (s.iput dir).iput inode)
        | some target =>
          if target.head? = some slash then
            let s := s.iput dir
            match s.root with
            | none => (.error .enoent, s.iput inode)
            | some root =>
              let (r, s) := nameiBase (followLink depth) true s target root
              (r, s.iput inode)
          else
            let (r, s) := nameiBase (followLink depth) true s target dir
            (r, s.iput inode)

/-- Links are followed while `link_count` is not above 5. -/
def linkMax : ℕ := 6

end Vfs

/-- Where a path starts. -/
def Tree.start (t : Tree) (path : Name) : Option Id :=
  if path.head? = some slash then t.root else t.pwd

namespace Vfs

variable (s : Vfs) (path : Name)

def dirNamei : Outcome (Id × Name) :=
  match s.start path with
  | none => (.error .enoent, s)
  | some start => dirNameiBase (followLink linkMax) s path start

/-- `namei` and `lnamei` -/
def nameiFrom (followLinks : Bool) : Outcome Id :=
  match s.start path with
  | none => (.error .enoent, s)
  | some start => nameiBase (followLink linkMax) followLinks s path start

def namei : Outcome Id := s.nameiFrom path true

def lnamei : Outcome Id := s.nameiFrom path false

end Vfs

end Shitix.Names
