import Shitix.Fs.InodeTable

/-!
# Files of the minix file system

`new_block` and `free_block` of `fs/minix/bitmap.rs`, the block map of
`fs/minix/inode_ops.rs`, `read` and `write` of `fs/minix/file.rs` and `truncate` of
`fs/minix/truncate.rs`, on a volume whose transfers succeed and whose buffers nobody else
holds.  Then a block has one content, the one its buffer shows, and the loops that look
again after a sleep go round once.  `NIL` for a buffer that was not found is block 0 here,
which no file has.
-/

namespace Shitix.Minix

open Function

open Inodes (FileType)

def blockSize : ℕ := 1024

def zonesPerBlock : ℕ := 512

def directZones : ℕ := 7

def indZone : ℕ := 7

def dindZone : ℕ := 8

def maxFileBlocks : ℕ := directZones + zonesPerBlock + zonesPerBlock * zonesPerBlock

/-- The content of a block, byte by byte. -/
abbrev Block : Type := ℕ → UInt8

/-- `read_u16`, little endian -/
def readU16 (block : Block) (off : ℕ) : ℕ := (block off).toNat + 256 * (block (off + 1)).toNat

def writeU16 (block : Block) (off value : ℕ) : Block :=
  update (update block off (.ofNat value)) (off + 1) (.ofNat (value / 256))

/-- An inode of the volume, as its slot of the inode table shows it. -/
structure Inode where
  mode : FileType
  nlink : ℕ
  size : ℕ
  /-- `i_zone`: seven blocks, an indirect and a doubly indirect one -/
  zones : ℕ → ℕ
  /-- `i_count`: references to the slot, 0 without one -/
  count : ℕ

/-- The size after a write that ends at `last`. -/
def Inode.extend (last : ℕ) (inode : Inode) : Inode := { inode with size := max inode.size last }

/-- A new size. -/
def Inode.resize (size : ℕ) (inode : Inode) : Inode := { inode with size := size }

/-- What the super block says about the volume, and what follows from its format. -/
structure Geometry where
  firstZone : ℕ
  nzones : ℕ
  ninodes : ℕ
  maxSize : ℕ
  /-- `s_nzones` is a `u16` -/
  nzones_lt : nzones < 0x10000

/-- A mounted volume. -/
structure Volume where
  geo : Geometry
  zmap : Bitmap
  imap : Bitmap
  blocks : ℕ → Block
  inodes : ℕ → Inode

namespace Volume

/-- Write one inode. -/
def modify (v : Volume) (n : ℕ) (f : Inode → Inode) : Volume :=
  { v with inodes := update v.inodes n (f (v.inodes n)) }

/-- Write one block. -/
def store (v : Volume) (b : ℕ) (content : Block) : Volume :=
  { v with blocks := update v.blocks b content }

/-- `i_zone[nr] = z` -/
def setZone (v : Volume) (n nr z : ℕ) : Volume :=
  v.modify n fun inode => { inode with zones := update inode.zones nr z }

/-- An entry of an indirect block. -/
def entry (v : Volume) (ind nr : ℕ) : ℕ := readU16 (v.blocks ind) (nr * 2)

/-- Write an entry of an indirect block. -/
def setEntry (v : Volume) (ind nr z : ℕ) : Volume :=
  v.store ind (writeU16 (v.blocks ind) (nr * 2) z)

/-- The number of the bit of a zone in the zone map; bit 0 is never free. -/
def zoneBit (v : Volume) (b : ℕ) : ℕ := b - v.geo.firstZone + 1

/-- `new_block`: a zeroed block, or 0 -/
def newBlock (v : Volume) : Volume × ℕ :=
  match findFree v.zmap with
  | none => (v, 0)
  | some (i, j) =>
    let marked := { v with zmap := writeBit v.zmap i j true }
    let number := j + i * bitsPerBlock + v.geo.firstZone
    let block := number - 1
    -- 0 - 1 is a large number, or stops the build with overflow checks
    if number = 0 ∨ block < v.geo.firstZone ∨ v.geo.nzones ≤ block then
      -- a bit behind the end of the volume is given back
      ({ v with zmap := writeBit marked.zmap i j false }, 0)
    else (marked.store block fun _ => 0, block)

def freeBlock (v : Volume) (b : ℕ) : Volume :=
  if b < v.geo.firstZone ∨ v.geo.nzones ≤ b then v
  else
    let zone := v.zoneBit b
    if mapSlots ≤ zone / bitsPerBlock then v
    else { v with zmap := writeBit v.zmap (zone / bitsPerBlock) (zone % bitsPerBlock) false }

def inodeGetblk (v : Volume) (n nr : ℕ) (create : Bool) : Volume × ℕ :=
  let tmp := (v.inodes n).zones nr
  if tmp ≠ 0 then (v, tmp)
  else if ¬ create then (v, 0)
  else
    let (v, tmp) := v.newBlock
    if tmp = 0 then (v, 0) else (v.setZone n nr tmp, tmp)

def blockGetblk (v : Volume) (ind nr : ℕ) (create : Bool) : Volume × ℕ :=
  if ind = 0 then (v, 0)
  else if blockSize < nr * 2 + 2 then (v, 0)
  else
    let tmp := v.entry ind nr
    if tmp ≠ 0 then (v, tmp)
    else if ¬ create then (v, 0)
    else
      let (v, tmp) := v.newBlock
      if tmp = 0 then (v, 0) else (v.setEntry ind nr tmp, tmp)

def getBlock (v : Volume) (n block : ℕ) (create : Bool) : Volume × ℕ :=
  if maxFileBlocks ≤ block then (v, 0)
  else if block < directZones then v.inodeGetblk n block create
  else if block - directZones < zonesPerBlock then
    let (v, ind) := v.inodeGetblk n indZone create
    v.blockGetblk ind (block - directZones) create
  else
    let rest := block - directZones - zonesPerBlock
    let (v, dind) := v.inodeGetblk n dindZone create
    let (v, mid) := v.blockGetblk dind (rest / zonesPerBlock) create
    v.blockGetblk mid (rest % zonesPerBlock) create

/-- The bytes of one chunk of a `read`; a hole reads as zeros. -/
def chunkAt (v : Volume) (n pos chunk : ℕ) : List UInt8 :=
  let b := (v.getBlock n (pos / blockSize) false).2
  if b = 0 then List.replicate chunk 0
  else (List.range chunk).map fun k => v.blocks b (pos % blockSize + k)

/-- The loop of `read`; each round reads at least one byte, so `want` rounds are enough. -/
def readLoop (v : Volume) (n : ℕ) : ℕ → ℕ → ℕ → List UInt8
  | 0, _, _ => []
  | fuel + 1, pos, want =>
    if want = 0 then []
    else
      let chunk := min (blockSize - pos % blockSize) want
      v.chunkAt n pos chunk ++ readLoop v n fuel (pos + chunk) (want - chunk)

/-- `read`: the bytes it puts into a buffer of a given length -/
def read (v : Volume) (n pos len : ℕ) : List UInt8 :=
  let size := (v.inodes n).size
  if size ≤ pos then [] else v.readLoop n (min len (size - pos)) pos (min len (size - pos))

/-- Copy bytes into a block. -/
def patch (block : Block) (off : ℕ) (bytes : List UInt8) : Block := fun k =>
  if off ≤ k then bytes.getD (k - off) (block k) else block k

/-- The loop of `write`: the volume, and how many bytes were written. -/
def writeLoop (n : ℕ) : ℕ → Volume → ℕ → List UInt8 → Volume × ℕ
  | 0, v, _, _ => (v, 0)
  | fuel + 1, v, pos, bytes =>
    if bytes.length = 0 then (v, 0)
    else
      let chunk := min (blockSize - pos % blockSize) bytes.length
      let (v, b) := v.getBlock n (pos / blockSize) true
      if b = 0 then (v, 0)
      else
        let v := v.store b (patch (v.blocks b) (pos % blockSize) (bytes.take chunk))
        let (v, done) := writeLoop n fuel v (pos + chunk) (bytes.drop chunk)
        (v, chunk + done)

/-- Why `write` fails. -/
inductive Errno where
  | EINVAL | ENOSPC
deriving DecidableEq, Repr

def write (v : Volume) (n pos : ℕ) (bytes : List UInt8) : Volume × Except Errno ℕ :=
  if v.geo.maxSize ≤ pos then (v, .error .EINVAL)
  else
    let wanted := bytes.take (v.geo.maxSize - pos)
    let (v, done) := writeLoop n wanted.length v pos wanted
    if done = 0 ∧ wanted.length ≠ 0 then (v, .error .ENOSPC)
    else
      (v.modify n (Inode.extend (pos + done)), .ok done)

/-- The numbers from `first` up to but not including `last`. -/
def upTo (first last : ℕ) : List ℕ := List.range' first (last - first)

/-- A round of `trunc_direct`. -/
def cutZone (n : ℕ) (v : Volume) (k : ℕ) : Volume :=
  let z := (v.inodes n).zones k
  if z = 0 then v else (v.setZone n k 0).freeBlock z

def truncDirect (v : Volume) (n first : ℕ) : Volume :=
  (upTo (min first directZones) directZones).foldl (cutZone n) v

/-- Whether an indirect block is empty. -/
def allZero (v : Volume) (ind : ℕ) : Bool :=
  (List.range zonesPerBlock).all fun k => v.entry ind k == 0

/-- A round of `trunc_indirect`. -/
def cutEntry (ind : ℕ) (v : Volume) (k : ℕ) : Volume :=
  let z := v.entry ind k
  if z = 0 then v else (v.setEntry ind k 0).freeBlock z

/-- `trunc_indirect`; it returns whether the indirect block is empty then, `allZero` -/
def truncIndirect (v : Volume) (first ind : ℕ) : Volume :=
  (upTo (min first zonesPerBlock) zonesPerBlock).foldl (cutEntry ind) v

/-- A round of `trunc_dindirect`. -/
def cutMiddle (first dind : ℕ) (v : Volume) (k : ℕ) : Volume :=
  let startMid := first / zonesPerBlock
  let mid := v.entry dind k
  if mid = 0 then v
  else
    let innerFirst := if k = startMid then first % zonesPerBlock else 0
    let v := v.truncIndirect innerFirst mid
    if v.allZero mid then (v.setEntry dind k 0).freeBlock mid else v

def truncDindirect (v : Volume) (n first : ℕ) : Volume :=
  let dind := (v.inodes n).zones dindZone
  if dind = 0 then v
  else
    let v := (upTo (first / zonesPerBlock) zonesPerBlock).foldl (cutMiddle first dind) v
    if v.allZero dind then (v.setZone n dindZone 0).freeBlock dind else v

/-- The part of `truncate` about the indirect block. -/
def cutIndirect (v : Volume) (n first : ℕ) : Volume :=
  let ind := (v.inodes n).zones indZone
  if ind = 0 then v
  else
    let v := v.truncIndirect first ind
    if v.allZero ind then (v.setZone n indZone 0).freeBlock ind else v

/-- `truncate`: free the blocks behind `i_size` -/
def truncate (v : Volume) (n : ℕ) : Volume :=
  let keep := ((v.inodes n).size + blockSize - 1) / blockSize
  let v := v.truncDirect n keep
  let v := v.cutIndirect n (keep - directZones)
  v.truncDindirect n (keep - (directZones + zonesPerBlock))

/-- `sys_truncate` of a regular file: the new size, then `truncate` -/
def setSize (v : Volume) (n size : ℕ) : Volume :=
  (v.modify n (Inode.resize size)).truncate n

end Volume

end Shitix.Minix
