import Shitix.Fs.Balance
import Shitix.Fs.Descriptors

/-!
# Asking about a file

`fstat`, `newfstatat` and `statx` (`syscall/sys.rs`, `fs/stat.rs`) report what an inode says.  They
should leave everything as it is.  `newfstatat` and `statx` give back a reference in the end, and
they have taken one if they resolved a path.  If they are asked about a descriptor the inode is
that of the open file, and the reference they give back is that of the open file.
-/

namespace Shitix.Names

open Fd (Fds Task)

/-! ## User memory -/

/-- What there is behind the pointers of the caller. -/
structure User where
  bytes : ℕ → UInt8
  /-- `verify_area` with the page tables that are loaded -/
  mapped : ℕ → ℕ → Bool
  /-- `verify_area` with the page tables of the task -/
  readable : ℕ → ℕ → Bool

namespace User

variable (u : User) (ptr : ℕ)

def identityLimit : ℕ := 0xC0000000

def checkRange (len : ℕ) : Bool :=
  ptr ≠ 0 ∧ (len ≤ identityLimit ∧ ptr + len ≤ identityLimit ∨ u.mapped ptr len)

/-- `user_ok`, for reading -/
def userOk (len : ℕ) : Bool := u.checkRange ptr len || u.readable ptr len

def strnlen : ℕ → ℕ → ℕ
  | _, 0 => 0
  | ptr, count + 1 => if u.bytes ptr = 0 then 0 else strnlen (ptr + 1) count + 1

def pathMax : ℕ := 4096

def userPath : Except ℤ Name :=
  let n := u.strnlen ptr pathMax
  if u.userOk ptr 1 = false then .error (-Errno.efault.code)
  else if n = 0 ∨ pathMax ≤ n then .error (-Errno.einval.code)
  else if u.userOk ptr n = false then .error (-Errno.efault.code)
  else .ok ((List.range n).map fun i => u.bytes (ptr + i))

def pathEmpty : Bool := ptr ≠ 0 ∧ u.checkRange ptr 1 ∧ u.bytes ptr = 0

end User

/-! ## Reports -/

/-- What an inode has beside the fields of `Inode`. -/
structure Attrs where
  /-- the number that `alloc_ino` gave to an inode of `/proc` or tmpfs -/
  number : ℕ
  rdev : ℕ
  blksize : ℕ
  atime : ℕ
  mtime : ℕ
  ctime : ℕ

structure Stat64 where
  dev : ℕ
  ino : ℕ
  nlink : ℕ
  mode : Mode
  uid : ℕ
  gid : ℕ
  rdev : ℕ
  size : ℕ
  blksize : ℕ
  blocks : ℕ
  atime : ℕ
  mtime : ℕ
  ctime : ℕ
deriving DecidableEq, Repr

def Stat64.zeroed : Stat64 :=
  { dev := 0, ino := 0, nlink := 0, mode := 0#16, uid := 0, gid := 0, rdev := 0, size := 0
    blksize := 0, blocks := 0, atime := 0, mtime := 0, ctime := 0 }

structure Statx where
  mask : ℕ
  blksize : ℕ
  nlink : ℕ
  uid : ℕ
  gid : ℕ
  mode : Mode
  ino : ℕ
  size : ℕ
  blocks : ℕ
  atime : ℕ
  ctime : ℕ
  mtime : ℕ
  rdevMajor : ℕ
  rdevMinor : ℕ
  devMajor : ℕ
  devMinor : ℕ
deriving DecidableEq, Repr

def statxBasicStats : ℕ := 0x7ff

def Statx.fromStat64 (st : Stat64) : Statx where
  mask := statxBasicStats
  blksize := st.blksize
  nlink := st.nlink
  uid := st.uid
  gid := st.gid
  mode := st.mode
  ino := st.ino
  size := st.size
  blocks := st.blocks
  atime := st.atime
  ctime := st.ctime
  mtime := st.mtime
  rdevMajor := st.rdev / 2 ^ 8
  rdevMinor := st.rdev % 2 ^ 8
  devMajor := st.dev / 2 ^ 8
  devMinor := st.dev % 2 ^ 8

/-- What is written to the caller's buffer. -/
inductive Report where
  | stat (st : Stat64)
  | statx (st : Statx)
deriving DecidableEq, Repr

/-- The inodes, the descriptors and the open files. -/
structure Files where
  vfs : Vfs
  attrs : Id → Attrs
  fds : Fds
  fInode : ℕ → Option Id
  /-- the slot of the caller -/
  task : Task

/-- What a call returns, what it writes and where, and what it leaves. -/
structure Reply where
  value : ℤ
  written : Option (ℕ × Report)
  files : Files

namespace Files

variable (s : Files) (u : User)

/-- `st_ino` -/
def number : Id → ℕ
  | .disk _ ino => ino
  | id => (s.attrs id).number

def blockSize : ℕ := 1024

def cpNewStat (id : Id) : Stat64 :=
  let inode := s.vfs.inode id
  let attrs := s.attrs id
  { dev := s.vfs.dev id
    ino := s.number id
    nlink := inode.nlink
    mode := inode.mode
    uid := inode.uid
    gid := inode.gid
    rdev := attrs.rdev
    size := inode.size
    blksize := if attrs.blksize = 0 then blockSize else attrs.blksize
    blocks := (inode.size + 511) / 512
    atime := attrs.atime
    mtime := attrs.mtime
    ctime := attrs.ctime }

def refuse (value : ℤ) : Reply := ⟨value, none, s⟩

def sysFstat (fd : ℕ) : Except ℤ Stat64 :=
  if s.fds.fdIsPipe s.task fd then .ok { Stat64.zeroed with mode := 0o010600#16, nlink := 1 }
  else if s.fds.fdIsSocket fd then .ok { Stat64.zeroed with mode := 0o140600#16, nlink := 1 }
  else
    match s.fds.fdToFilp s.task fd with
    | none => .error (-Errno.ebadf.code)
    | some f =>
      match s.fInode f with
      | none => .error (-Errno.ebadf.code)
      | some id => .ok (s.cpNewStat id)

/-- The size of a `Stat64`. -/
def stat64Size : ℕ := 144

/-- The size of a `Statx`. -/
def statxSize : ℕ := 256

def fstat (fd buf : BitVec 64) : Reply :=
  if fd.toInt < 0 then s.refuse (-Errno.ebadf.code)
  else if u.checkRange buf.toNat stat64Size = false then s.refuse (-Errno.efault.code)
  else
    match s.sysFstat fd.toNat with
    | .error e => s.refuse e
    | .ok st => ⟨0, some (buf.toNat, .stat st), s⟩

/-- What `newfstatat` and `statx` are asked about. -/
inductive Subject where
  | nothing (value : ℤ)
  | path (name : Name)
  | file (f : ℕ)
deriving DecidableEq

def atFdcwd : BitVec 32 := -100#32

/-- How `newfstatat` and `statx` read their first two arguments. -/
def subject (dirfd : BitVec 32) (path : ℕ) : Subject :=
  if path ≠ 0 ∧ u.pathEmpty path = false ∧ dirfd = atFdcwd then
    match u.userPath path with
    | .error e => .nothing e
    | .ok name => .path name
  else if path = 0 ∨ u.pathEmpty path then
    match s.fds.fdToFilp s.task (dirfd.signExtend 64).toNat with
    | none => .nothing (-Errno.ebadf.code)
    | some f => .file f
  else .nothing (-Errno.einval.code)

/-- `iput`, which does nothing for `NIL` -/
def iput : Option Id → Files
  | none => s
  | some id => { s with vfs := s.vfs.iput id }

/-- The end of `newfstatat` and `statx`.  There is no inode `NIL`, and the kernel stops if it is
asked for one. -/
def report (form : Stat64 → Report) (buf size : ℕ) (inr : Option Id) : Option Reply :=
  if u.checkRange buf size = false then some ⟨-Errno.efault.code, none, s.iput inr⟩
  else
    match inr with
    | none => none
    | some id => some ⟨0, some (buf, form (s.cpNewStat id)), s.iput inr⟩

/-- What `newfstatat` and `statx` do. -/
def statAt (form : Stat64 → Report) (buf size : ℕ) : Subject → Option Reply
  | .nothing value => some (s.refuse value)
  | .path name =>
    match s.vfs.namei name with
    | (.error e, vfs) => some ⟨e.code, none, { s with vfs }⟩
    | (.ok id, vfs) => { s with vfs }.report u form buf size (some id)
  | .file f => s.report u form buf size (s.fInode f)

def newfstatat (dirfd path buf _flags : BitVec 64) : Option Reply :=
  if buf = 0#64 then some (s.refuse (-Errno.efault.code))
  else s.statAt u .stat buf.toNat stat64Size (s.subject u (dirfd.setWidth 32) path.toNat)

def statx (dirfd path _flags _mask buf : BitVec 64) : Option Reply :=
  if buf = 0#64 then some (s.refuse (-Errno.efault.code))
  else
    s.statAt u (fun st => .statx (.fromStat64 st)) buf.toNat statxSize
      (s.subject u (dirfd.setWidth 32) path.toNat)

end Files

/-! ## What a query changes -/

namespace Vfs

variable {s : Vfs} {l : List Id} {id : Id}

theorem hold_eq_self_iff : s.hold l = s ↔ l = [] := by
  constructor
  · intro heq
    refine List.eq_nil_iff_forall_not_mem.mpr fun id hmem => ?_
    have hcount : s.count id + l.count id = s.count id := by rw [← hold_count, heq]
    have hpos : 0 < l.count id := List.count_pos_iff.mpr hmem
    omega
  · rintro rfl
    rfl

theorem count_drop : (s.drop id).count id = s.count id - 1 := Function.update_self ..

theorem count_putInode (h : InRange s id) (hsb : id.sb.isSome) : (s.putInode id).count id = 0 := by
  cases id with
  | disk sb ino =>
    simp only [putInode]
    rw [if_neg h]
    exact Function.update_self ..
  | proc kind pid | tmpfs n => cases hsb

/-- A reference that is given back without having been taken is missed, unless the inode stays as it
is anyway. -/
theorem iput_eq_self_iff : s.iput id = s ↔ s.count id = 0 ∨ ¬ Releases s id := by
  constructor
  · intro heq
    by_contra hnot
    obtain ⟨hcount, hreleases⟩ := not_or.mp hnot
    have hless : (s.iput id).count id < s.count id := by
      unfold iput
      split_ifs with hmore hfree
      · rw [count_drop]
        omega
      · have hrange : InRange s id := by
          rcases not_not.mp hreleases with hmore' | hrange
          · exact absurd hmore' hmore
          · exact hrange hfree.2.1 hfree.2.2
        rw [count_putInode hrange hfree.1]
        omega
      · rw [count_drop]
        omega
    rw [heq] at hless
    exact lt_irrefl _ hless
  · rintro (hzero | hkept)
    · unfold iput
      rw [if_pos hzero]
    · obtain ⟨hmore, hfree⟩ := not_or.mp hkept
      obtain ⟨hop, hrest⟩ := Classical.not_imp.mp hfree
      obtain ⟨hnlink, hrange⟩ := Classical.not_imp.mp hrest
      cases id with
      | disk sb ino =>
        have hout : ino < 1 ∨ (s.supers sb).ninodes ≤ ino := not_not.mp hrange
        unfold iput
        split_ifs with hzero hlast
        · rfl
        · simp only [putInode]
          rw [if_pos hout]
        · exact absurd ⟨rfl, hop, hnlink⟩ hlast
      | proc kind pid | tmpfs n => exact absurd trivial hrange

end Vfs

/-- The calls that ask about a file. -/
inductive Query where
  | fstat (fd buf : BitVec 64)
  | newfstatat (dirfd path buf flags : BitVec 64)
  | statx (dirfd path flags mask buf : BitVec 64)

def Query.run (s : Files) (u : User) : Query → Option Reply
  | fstat fd buf => some (s.fstat u fd buf)
  | newfstatat dirfd path buf flags => s.newfstatat u dirfd path buf flags
  | statx dirfd path flags mask buf => s.statx u dirfd path flags mask buf

/-- The call returns, and all is as it was. -/
def Unchanged (s : Files) (reply : Option Reply) : Prop := ∃ r, reply = some r ∧ r.files = s

/-- No link with a relative target is followed on the path, and no reference of an open file can be
given back. -/
def Files.Harmless (s : Files) (u : User) (buf size : ℕ) : Files.Subject → Prop
  | .nothing _ => True
  | .path name => (s.vfs.resolveFrom name true).2 = []
  | .file f =>
    match s.fInode f with
    | none => u.checkRange buf size = false
    | some id => s.vfs.count id = 0 ∨ ¬ Releases s.vfs id

/-- A descriptor is asked about with `fstat`. -/
def Query.Harmless (s : Files) (u : User) : Query → Prop
  | fstat _ _ => True
  | newfstatat dirfd path buf _ =>
    buf = 0#64 ∨
      s.Harmless u buf.toNat Files.stat64Size (s.subject u (dirfd.setWidth 32) path.toNat)
  | statx dirfd path _ _ buf =>
    buf = 0#64 ∨
      s.Harmless u buf.toNat Files.statxSize (s.subject u (dirfd.setWidth 32) path.toNat)

/-- The counts have room for what the resolution of the path takes and leaves. -/
def Files.Room (s : Files) : Files.Subject → Prop
  | .path name => s.vfs.Ready (Vfs.spare + (s.vfs.resolveFrom name true).2.length)
  | _ => True

def Query.Room (s : Files) (u : User) : Query → Prop
  | fstat _ _ => True
  | newfstatat dirfd path buf _ | statx dirfd path _ _ buf =>
    buf ≠ 0#64 → s.Room (s.subject u (dirfd.setWidth 32) path.toNat)

section Unchanged

variable {s : Files} {u : User} {form : Stat64 → Report} {buf size : ℕ}

theorem unchanged_some {r : Reply} : Unchanged s (some r) ↔ r.files = s := by
  constructor
  · rintro ⟨r', hr, hfiles⟩
    rwa [Option.some.inj hr]
  · intro hfiles
    exact ⟨r, rfl, hfiles⟩

theorem not_unchanged_none : ¬ Unchanged s none := by
  rintro ⟨r, hr, -⟩
  cases hr

theorem vfs_eq_iff {vfs : Vfs} : { s with vfs } = s ↔ vfs = s.vfs := by
  constructor
  · intro heq
    exact congrArg Files.vfs heq
  · rintro rfl
    rfl

/-- The end of a query gives one reference back, whatever it reports. -/
theorem report_unchanged_iff {t : Files} {id : Id} :
    Unchanged s (t.report u form buf size (some id)) ↔ t.iput (some id) = s := by
  unfold Files.report
  split_ifs
  · exact unchanged_some
  · exact unchanged_some

theorem report_nil_unchanged_iff :
    Unchanged s (s.report u form buf size none) ↔ u.checkRange buf size = false := by
  unfold Files.report
  split_ifs with hrange
  · exact iff_of_true (unchanged_some.mpr rfl) hrange
  · exact iff_of_false not_unchanged_none hrange

theorem fstat_files (fd buf : BitVec 64) : (s.fstat u fd buf).files = s := by
  unfold Files.fstat
  split_ifs
  · rfl
  · rfl
  · cases s.sysFstat fd.toNat with
    | error e => rfl
    | ok st => rfl

theorem statAt_path_unchanged_iff (name : Name) (h : s.Room (.path name)) :
    Unchanged s (s.statAt u form buf size (.path name)) ↔ (s.vfs.resolveFrom name true).2 = [] := by
  have hset : s.vfs.Settled := h.settled
  have heq : s.vfs.namei name = s.vfs.charge id (s.vfs.resolveFrom name true) :=
    Vfs.nameiFrom_eq name true h
  simp only [Files.statAt]
  rw [heq]
  obtain ⟨r, links⟩ := s.vfs.resolveFrom name true
  cases r with
  | error e =>
    dsimp only [Vfs.charge]
    rw [unchanged_some, vfs_eq_iff]
    exact Vfs.hold_eq_self_iff
  | ok n =>
    have hput : (s.vfs.hold (n :: links)).iput n = s.vfs.hold links :=
      Vfs.iput_hold hset (List.Perm.refl _)
    dsimp only [Vfs.charge, id]
    rw [report_unchanged_iff]
    dsimp only [Files.iput]
    rw [vfs_eq_iff, hput]
    exact Vfs.hold_eq_self_iff

theorem statAt_unchanged_iff (subject : Files.Subject) (h : s.Room subject) :
    Unchanged s (s.statAt u form buf size subject) ↔ s.Harmless u buf size subject := by
  cases subject with
  | nothing value => exact iff_of_true (unchanged_some.mpr rfl) trivial
  | path name => exact statAt_path_unchanged_iff name h
  | file f =>
    simp only [Files.statAt, Files.Harmless]
    cases s.fInode f with
    | none => exact report_nil_unchanged_iff
    | some id =>
      rw [report_unchanged_iff]
      dsimp only [Files.iput]
      rw [vfs_eq_iff]
      exact Vfs.iput_eq_self_iff

end Unchanged

/-- The file of `twoLinks` is open as descriptor 3. -/
def openFile : Files where
  vfs :=
    { twoLinks with
      count
        | .disk 0 1 => 2
        | .disk 0 2 => 1
        | _ => 0 }
  attrs _ := { number := 0, rdev := 0, blksize := 0, atime := 0, mtime := 0, ctime := 0 }
  fds :=
    { Fds.boot with
      filp := fun _ fd => if fd = 3 then some 0 else none
      fCount := fun f => if f = 0 then 1 else 0 }
  fInode f := if f = 0 then some (.disk 0 2) else none
  task := ⟨1, by decide⟩

/-- The text `/a` at 4096, the text `/l` at 4100, and an empty one at 8192. -/
def threePaths : User where
  bytes ptr := (ascii ['/', 'a', '\x00', '\x00', '/', 'l']).getD (ptr - 4096) 0
  mapped _ _ := false
  readable _ _ := false

theorem openFile_settled : openFile.vfs.Settled := by
  intro n _ hsb hop
  cases n with
  | disk sb ino =>
    simp only [openFile, twoLinks, Tree.inode] at hop
    split at hop <;> cases hop
  | proc kind pid | tmpfs i => cases hsb

end Shitix.Names
