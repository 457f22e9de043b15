import Shitix.Fs.Names

/-!
# Directories

The operations of minix (`fs/minix/namei.rs`) and ext4 (`fs/ext4/namei.rs`) that create a file, and
`open_namei` of `fs/namei.rs`, which calls them.
-/

namespace Shitix.Names

open Inodes (FsType)

/-- `i_ino` -/
def Id.ino : Id → ℕ
  | .disk _ ino => ino
  | _ => 0

/-! ## Entries -/

/-- A new entry in the first place that is free; `none` if the name is met before. -/
def place (ino : ℕ) (name : Name) : List Entry → Option (List Entry)
  | [] => some [⟨ino, name⟩]
  | entry :: rest =>
    if entry.ino = 0 then some (⟨ino, name⟩ :: rest)
    else if entry.name = name then none
    else (place ino name rest).map (entry :: ·)

namespace Vfs

variable (s : Vfs)

/-- A change of the fields of an inode. -/
def modifyNode (id : Id) (f : Inode → Inode) : Vfs := s.setNode id (f (s.inode id))

/-- The group of a new inode. -/
def newGid (dir : Id) : ℕ :=
  if (s.inode dir).mode &&& sIsgid ≠ 0#16 then (s.inode dir).gid else s.egid % 2 ^ 16

/-! ## minix -/

/-- `new_inode` -/
def minixNewInode (dir : Id) : Option Id × Vfs :=
  match dir.sb with
  | none => (none, s)
  | some sb =>
    match (s.supers sb).free with
    | [] => (none, s)
    | ino :: rest =>
      -- a number that is out of range stays marked
      if ino = 0 ∨ (s.supers sb).ninodes ≤ ino then (none, s.setFree sb rest)
      else
        let id := .disk sb ino
        (some id, (((s.setFree sb rest).bump id).setEntries id []).setNode id
          { Inode.new with nlink := 1, uid := s.euid % 2 ^ 16, gid := s.newGid dir })

/-- `add_entry`, with the number that the callers write into the entry -/
def minixAddEntry (dir : Id) (name : Name) (ino : ℕ) : Except Errno Vfs :=
  match dir.sb with
  | none => .error .enoent
  | some sb =>
    if name = [] then .error .enoent
    else if (s.supers sb).namelen < name.length then .error .enametoolong
    else
      match s.trouble dir with
      | some e => .error e
      | none =>
        match place ino name (s.entries dir) with
        | none => .error .eexist
        | some entries => .ok (s.setEntries dir entries)

/-- The operations of a new inode. -/
def minixOp (mode : Mode) : FsType :=
  if mode &&& sIfmt = sIfreg ∨ mode &&& sIfmt = sIfdir then .minix
  else if mode &&& sIfmt = sIfchr then .chr
  else if mode &&& sIfmt = sIfblk then .blk
  else .none

/-- The entry of a new inode, which is given back if there is no room for one. -/
def minixEnter (dir : Id) (name : Name) (id : Id) : Outcome Id :=
  match s.minixAddEntry dir name (id.ino % 2 ^ 16) with
  | .ok s => (.ok id, s)
  | .error e => (.error e, (s.modifyNode id ({ · with nlink := 0 })).iput id)

/-- `mknod` -/
def minixMknod (dir : Id) (name : Name) (mode : Mode) : Outcome Id :=
  if ¬ (s.inode dir).isDir then (.error .enotdir, s)
  else if s.isRdonly dir then (.error .eperm, s)
  else if (s.minixFind dir name).isSome then (.error .eexist, s)
  else
    match s.minixNewInode dir with
    | (none, s) => (.error .enospc, s)
    | (some id, s) =>
      (s.modifyNode id ({ · with mode := mode, op := minixOp mode })).minixEnter dir name id

/-- `create` -/
def minixCreate (dir : Id) (name : Name) (mode : Mode) : Outcome Id :=
  s.minixMknod dir name (mode &&& ~~~sIfmt ||| sIfreg)

/-! ## ext4 -/

/-- `add_entry`.  Which place it takes makes no difference to a lookup. -/
def ext4AddEntry (dir : Id) (ino : ℕ) (name : Name) : Except Errno Vfs :=
  match s.trouble dir with
  | some e => .error e
  | none => .ok (s.setEntries dir (s.entries dir ++ [⟨ino, name⟩]))

/-- The fields of a new inode, and its entry. -/
def ext4Enter (dir : Id) (name : Name) (mode : Mode) (ino : ℕ) (id : Id) : Outcome Id :=
  let s := s.modifyNode id ({ · with
    mode := mode, nlink := 1, uid := s.euid % 2 ^ 16, gid := s.newGid dir, size := 0, op := .ext2 })
  match s.ext4AddEntry dir ino name with
  -- the inode and the reference to it stay
  | .error e => (.error e, s)
  | .ok s => (.ok id, s)

/-- `mknod` -/
def ext4Mknod (dir : Id) (name : Name) (mode : Mode) : Outcome Id :=
  if Tree.ext4NameLen < name.length then (.error .enametoolong, s)
  else
    match dir.sb with
    | none => (.error .eio, s)
    | some sb =>
      if (s.ext4Find dir name).isSome then (.error .eexist, s)
      else
        match (s.supers sb).free with
        | [] => (.error .enospc, s)
        | ino :: rest =>
          let (id, s) := (s.setFree sb rest).iget sb ino
          s.ext4Enter dir name mode ino id

/-- `create` -/
def ext4Create (dir : Id) (name : Name) (mode : Mode) : Outcome Id :=
  s.ext4Mknod dir name (mode &&& ~~~sIfmt ||| sIfreg)

/-! ## `open` -/

variable (path : Name)

def oCreat : BitVec 32 := 0o100#32

def oExcl : BitVec 32 := 0o200#32

def oTrunc : BitVec 32 := 0o1000#32

/-- The permissions that `open` needs; the lowest two bits of the flags are `O_ACCMODE`. -/
def openMask (flags : BitVec 32) : Option Mode :=
  let mask :=
    if flags &&& 3#32 = 0#32 then some mayRead
    else if flags &&& 3#32 = 1#32 then some mayWrite
    else if flags &&& 3#32 = 2#32 then some (mayRead ||| mayWrite)
    else none
  mask.map fun mask => if flags &&& oTrunc ≠ 0#32 then mask ||| mayWrite else mask

def isDevice (id : Id) : Prop := (s.inode id).isChr ∨ (s.inode id).isBlk

instance (id : Id) : Decidable (s.isDevice id) := inferInstanceAs (Decidable (_ ∨ _))

/-- The end of `open_namei`, for a file that is there. -/
def openExisting (flags : BitVec 32) (mask : Mode) (id : Id) : Outcome Id :=
  if (s.inode id).isDir ∧ mask &&& mayWrite ≠ 0#16 then (.error .eisdir, s.iput id)
  else if s.permission id mask = false then (.error .eacces, s.iput id)
  else if mask &&& mayWrite ≠ 0#16 ∧ s.isRdonly id ∧ ¬ s.isDevice id then (.error .erofs, s.iput id)
  else if flags &&& oTrunc ≠ 0#32 ∧ (s.inode id).isReg then
    (.ok id, s.modifyNode id ({ · with size := 0 }))
  else (.ok id, s)

/-- The part of `open_namei` that creates a file. -/
def openCreate (dir : Id) (last : Name) (mode : Mode) : Outcome Id :=
  if s.permission dir mayWrite = false then (.error .eacces, s.iput dir)
  else
    let (r, s) :=
      match (s.inode dir).op with
      | .minix => s.minixCreate dir last mode
      | .ext2 => s.ext4Create dir last mode
      | _ => (.error .enotdir, s)
    (r, s.iput dir)

def openNamei (flags : BitVec 32) (mode : Mode) : Outcome Id :=
  match openMask flags with
  | none => (.error .einval, s)
  | some mask =>
    match s.dirNamei path with
    | (.error e, s) => (.error e, s)
    | (.ok (dir, last), s) =>
      if last = [] then
        if mask &&& mayWrite ≠ 0#16 then (.error .eisdir, s.iput dir) else (.ok dir, s)
      else
        match s.lookupOne nrSuper dir last with
        | (.ok id, s) =>
          if flags &&& oCreat ≠ 0#32 ∧ flags &&& oExcl ≠ 0#32 then
            (.error .eexist, (s.iput id).iput dir)
          else
            match followLink linkMax s dir id with
            | (.error e, s) => (.error e, s)
            | (.ok id, s) => s.openExisting flags mask id
        | (.error e, s) =>
          if e ≠ .enoent ∨ flags &&& oCreat = 0#32 then (.error e, s.iput dir)
          else s.openCreate dir last mode

end Vfs

end Shitix.Names
