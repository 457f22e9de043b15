import Mathlib.Algebra.Group.Nat.Defs
import Mathlib.Logic.Function.Basic

/-!
# The buffer cache: heads, hash chains, free ring

The model of the table of `fs/buffer.rs` and of the five routines that edit its
two intrusive lists.  A hash chain is a doubly linked list that starts in
`HASH_TABLE` and ends at `NIL`; the free ring is a circular doubly linked list
through every built head.  Links are table indices, as in the source, and every
access through `bh` or `buf_ptr` first asserts its index.

A buffer's data area is a 1024-byte area of its own (`init` hands out disjoint
quarters of fresh pages), so a head carries its contents.  The wait queues are
not kept: a sleeper may be resumed at any time and checks again itself.  The ring
walk of `check_free_ring`, made in debug builds only, is left out.
-/

namespace Shitix.Buffer

def blockSize : ℕ := 1024

def nrBuffers : ℕ := 64

def nrHash : ℕ := 61

/-- `NIL`: `usize::MAX`, the index that stands for no head. -/
def nil : ℕ := 2 ^ 64 - 1

/-- How many buffers one page holds. -/
def perPage : ℕ := 4

/-- The contents of a block. -/
abbrev Block : Type := Vector UInt8 1024

structure BufferHead where
  data : Block
  size : ℕ
  blocknr : UInt32
  dev : UInt16
  count : UInt16
  uptodate : Bool
  dirt : Bool
  lock : Bool
  req : Bool
  prev : ℕ
  next : ℕ
  prevFree : ℕ
  nextFree : ℕ

/-- `BufferHead::new()`, over whatever its data area holds. -/
def BufferHead.new (data : Block) : BufferHead :=
  { data := data, size := 0, blocknr := 0, dev := 0, count := 0, uptodate := false, dirt := false
    lock := false, req := false, prev := nil, next := nil, prevFree := nil, nextFree := nil }

/-- The static tables of the cache. -/
structure Cache where
  /-- `BUFFERS` -/
  heads : ℕ → BufferHead
  hashTable : ℕ → ℕ
  freeList : ℕ
  /-- `NR_BUFFERS_USED` -/
  used : ℕ

/-- What stops the kernel in this code. -/
inductive Panic where
  /-- `buf_ptr(): index … out of range`, or `free list corrupt` -/
  | badIndex (index : ℕ)
  /-- `VFS: Free block list corrupted` -/
  | freeListCorrupted
  /-- `VFS: Unable to initialize buffer free list!` -/
  | noBuffers
  /-- a walk along a hash chain that never reaches its end -/
  | endlessChain
deriving DecidableEq, Repr

def hashfn (dev : UInt16) (block : UInt32) : ℕ := (dev.toUInt32 ^^^ block).toNat % nrHash

namespace Cache

/-- `bh`, `buf_ptr`: the head at an asserted index. -/
def bh (c : Cache) (n : ℕ) : Except Panic BufferHead :=
  if n < nrBuffers then .ok (c.heads n) else .error (.badIndex n)

/-- Change a head in place. -/
def put (c : Cache) (n : ℕ) (f : BufferHead → BufferHead) : Cache :=
  { c with heads := Function.update c.heads n (f (c.heads n)) }

/-- Write fields of the head at an asserted index. -/
def modify (c : Cache) (n : ℕ) (f : BufferHead → BufferHead) : Except Panic Cache :=
  if n < nrBuffers then .ok (c.put n f) else .error (.badIndex n)

/-- Write fields of the head a link points at, if it points at one. -/
def modifyLinked (c : Cache) (n : ℕ) (f : BufferHead → BufferHead) : Except Panic Cache :=
  if n = nil then .ok c else c.modify n f

/-- Write a bucket of the hash table. -/
def setHash (c : Cache) (bucket : ℕ) (n : ℕ) : Cache :=
  { c with hashTable := Function.update c.hashTable bucket n }

/-- A bucket that starts with a head moves on to the next one. -/
def advanceHash (c : Cache) (bucket n next : ℕ) : Cache :=
  if c.hashTable bucket = n then c.setHash bucket next else c

/-- A `FREE_LIST` that points at a head moves on to the next one. -/
def advanceFree (c : Cache) (n next : ℕ) : Cache :=
  if c.freeList = n then { c with freeList := next } else c

/-! ## The list routines -/

def removeFromHashQueue (c : Cache) (n : ℕ) : Except Panic Cache := do
  let head ← c.bh n
  let c ← c.modifyLinked head.next ({ · with prev := head.prev })
  let c ← c.modifyLinked head.prev ({ · with next := head.next })
  let c := c.advanceHash (hashfn head.dev head.blocknr) n head.next
  c.modify n ({ · with prev := nil, next := nil })

def removeFromFreeList (c : Cache) (n : ℕ) : Except Panic Cache := do
  let head ← c.bh n
  if head.prevFree = nil ∨ head.nextFree = nil then throw .freeListCorrupted
  let c ← c.modify head.prevFree ({ · with nextFree := head.nextFree })
  let c ← c.modify head.nextFree ({ · with prevFree := head.prevFree })
  let c := c.advanceFree n head.nextFree
  c.modify n ({ · with nextFree := nil, prevFree := nil })

def removeFromQueues (c : Cache) (n : ℕ) : Except Panic Cache := do
  let c ← c.removeFromHashQueue n
  c.removeFromFreeList n

def insertAtFreeTail (c : Cache) (n : ℕ) : Except Panic Cache := do
  let head := c.freeList
  let first ← c.bh head
  let tail := first.prevFree
  let c ← c.modify n ({ · with nextFree := head, prevFree := tail })
  let c ← c.modify tail ({ · with nextFree := n })
  c.modify head ({ · with prevFree := n })

def putLastFree (c : Cache) (n : ℕ) : Except Panic Cache := do
  if c.freeList = n then
    let head ← c.bh n
    return { c with freeList := head.nextFree }
  let c ← c.removeFromFreeList n
  c.insertAtFreeTail n

def insertIntoQueues (c : Cache) (n : ℕ) : Except Panic Cache := do
  let c ← c.insertAtFreeTail n
  let c ← c.modify n ({ · with prev := nil, next := nil })
  let head ← c.bh n
  if head.dev = 0 then return c
  let bucket := hashfn head.dev head.blocknr
  let old := c.hashTable bucket
  let c ← c.modify n ({ · with next := old })
  let c := c.setHash bucket n
  c.modifyLinked old ({ · with prev := n })

/-! ## Lookup -/

/-- The loop of `find_buffer`, given how many heads a chain can have. -/
def findFrom (c : Cache) (dev : UInt16) (block : UInt32) (size : ℕ) :
    ℕ → ℕ → Except Panic (Option ℕ)
  | 0, _ => .error .endlessChain
  | fuel + 1, p => do
    if p = nil then return none
    let head ← c.bh p
    if head.dev = dev ∧ head.blocknr = block then
      -- a block of another size: `Wrong blocksize on device`
      return if head.size = size then some p else none
    c.findFrom dev block size fuel head.next

def findBuffer (c : Cache) (dev : UInt16) (block : UInt32) (size : ℕ) :
    Except Panic (Option ℕ) :=
  c.findFrom dev block size (nrBuffers + 1) (c.hashTable (hashfn dev block))

/-- `badness`: dirty is twice as bad as locked. -/
def badness (head : BufferHead) : ℕ := 2 * head.dirt.toNat + head.lock.toNat

/-- The scan of `getblk` along the free ring for the least bad unreferenced buffer. -/
def scanFree (c : Cache) (size : ℕ) : ℕ → ℕ → ℕ → Except Panic ℕ
  | 0, _, best => .ok best
  | fuel + 1, p, best => do
    if p = nil then return best
    let head ← c.bh p
    let chosen := head.count = 0 ∧ head.size = size ∧
      (best = nil ∨ badness head < badness (c.heads best))
    let best := if chosen then p else best
    if chosen ∧ badness head = 0 then return best
    let p := head.nextFree
    if p ≠ nil ∧ ¬ p < nrBuffers then throw (.badIndex p)
    c.scanFree size fuel p best

/-! ## Initialisation -/

/-- The tables before `init`. -/
def empty (contents : ℕ → Block) : Cache :=
  { heads := fun n => .new (contents n), hashTable := fun _ => nil, freeList := nil, used := 0 }

/-- The body of the loop of `init`: one head gets its data area and joins the ring. -/
def addHead (c : Cache) (n : ℕ) : Except Panic Cache := do
  let c ← c.modify n ({ · with size := blockSize, dev := 0, count := 0 })
  if c.freeList = nil then
    let c ← c.modify n ({ · with nextFree := n, prevFree := n })
    return { c with freeList := n }
  c.insertAtFreeTail n

/-- The first `n` rounds of the loop of `init`. -/
def build (contents : ℕ → Block) : ℕ → Except Panic Cache
  | 0 => .ok (empty contents)
  | n + 1 => do
    let c ← build contents n
    c.addHead n

/-- `init`, when the page allocator has `pages` pages to give. -/
def init (contents : ℕ → Block) (pages : ℕ) : Except Panic Cache := do
  let built := min (perPage * pages) nrBuffers
  if built = 0 then throw .noBuffers
  let c ← build contents built
  return { c with used := built }

end Cache

end Shitix.Buffer
