import Shitix.Fs.Buffer

/-!
# Block requests

The model of the request pool and of the queues of `drivers/block/ll_rw.rs`.  A
queue is the list of its requests in order; a request is for one buffer, which is
all the callers ever ask for, so the cursor fields of the source (`nr_sectors`,
`buffer`, `b_reqnext`) have nothing left to say.  `READA` and `WRITEA` have no
caller.

The device moves the data of the request at the head of its queue at a moment of
its own (`transfer`) and reports later (`endRequest`).  The two drivers in the
tree do both inside `request_fn`; in the model those are the runs in which the two
events follow the request at once.
-/

namespace Shitix.Buffer

open Function

def nrRequest : ℕ := 16

def maxBlkdev : ℕ := 32

/-- `READ`, `WRITE`. -/
inductive Rw where
  | read
  | write
deriving DecidableEq, Repr

/-- `Request`; `none` as its device marks a free slot. -/
structure Request where
  dev : Option UInt16
  cmd : Rw
  sector : UInt32
  bh : ℕ
  /-- The device has moved the data. -/
  moved : Bool

/-- `Request::new()`. -/
def Request.new : Request :=
  { dev := none, cmd := .read, sector := 0, bh := nil, moved := false }

def major (dev : UInt16) : ℕ := dev.toNat / 256

def minor (dev : UInt16) : ℕ := dev.toNat % 256

/-- The cache, the request layer and the devices behind it. -/
structure BlockIo where
  cache : Cache
  /-- `ALL_REQUESTS` -/
  requests : ℕ → Request
  /-- `BLK_DEV[..].current_request`, followed along `next` -/
  queue : ℕ → List ℕ
  /-- whether `BLK_DEV[..].request_fn` is registered -/
  requestFn : ℕ → Bool
  blkSize : ℕ → Option UInt32
  roBits : ℕ → ℕ → Bool
  /-- what the devices hold, by the first sector of a block -/
  disk : UInt16 → UInt32 → Block

/-- `blk_size`. -/
def BlockIo.capacity (io : BlockIo) (m : ℕ) : Option UInt32 :=
  if m < maxBlkdev then io.blkSize m else none

def BlockIo.isReadOnly (io : BlockIo) (dev : UInt16) : Bool :=
  if major dev < maxBlkdev ∧ minor dev < 32 then io.roBits (major dev) (minor dev) else false

/-- `sector` of `make_request`: the first sector of a buffer's block. -/
def sectorOf (head : BufferHead) : UInt32 := head.blocknr * UInt32.ofNat (head.size / 512)

namespace BlockIo

/-- Write fields of a buffer head. -/
def putHead (io : BlockIo) (n : ℕ) (f : BufferHead → BufferHead) : BlockIo :=
  { io with cache := io.cache.put n f }

/-- The free slot `get_request` finds among the first `limit`. -/
def freeRequest (io : BlockIo) (limit : ℕ) : Option ℕ :=
  (List.range (min limit nrRequest)).find? fun r => (io.requests r).dev.isNone

/-- The end of `make_request`: the slot is filled and queued; `add_request` clears the dirt. -/
def addRequest (io : BlockIo) (rw : Rw) (n r : ℕ) : BlockIo :=
  let head := io.cache.heads n
  { io with
    cache := io.cache.put n ({ · with dirt := false })
    requests := update io.requests r
      { dev := some head.dev, cmd := rw, sector := sectorOf head, bh := n, moved := false }
    queue := update io.queue (major head.dev) (io.queue (major head.dev) ++ [r]) }

/-- The device moves the data of the request at the head of a queue. -/
def transfer (io : BlockIo) (m : ℕ) : BlockIo :=
  match io.queue m with
  | [] => io
  | r :: _ =>
    let q := io.requests r
    let dev := q.dev.getD 0
    if q.moved then io
    else
      let requests := update io.requests r { q with moved := true }
      match q.cmd with
      | .write =>
        { io with
          requests := requests
          disk := update io.disk dev
            (update (io.disk dev) q.sector (io.cache.heads q.bh).data) }
      | .read =>
        { io with
          requests := requests
          cache := io.cache.put q.bh ({ · with data := io.disk dev q.sector }) }

/-- `end_request`; a device reports success only after it has moved the data. -/
def endRequest (io : BlockIo) (m : ℕ) (uptodate : Bool) : BlockIo :=
  match io.queue m with
  | [] => io
  | r :: rest =>
    let q := io.requests r
    if uptodate ∧ ¬ q.moved then io
    else
      { io with
        cache := io.cache.put q.bh fun head =>
          { head with
            uptodate := uptodate
            dirt := if q.cmd = .write ∧ uptodate then false else head.dirt
            lock := false }
        requests := update io.requests r { q with dev := none }
        queue := update io.queue m rest }

end BlockIo

end Shitix.Buffer
