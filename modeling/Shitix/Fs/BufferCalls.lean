import Shitix.Drivers.LlRw
import Shitix.Lib.Coop

/-!
# The calls of the buffer cache

`getblk`, `bread`, `brelse`, `sync_buffers` and `invalidate_buffers` of
`fs/buffer.rs`, with `wait_on_buffer`, `get_hash_table`, `ll_rw_block` and
`make_request` below them, as code of cooperative threads.  Every frame is a place
where one of these functions stands between two calls or is asleep; the sleep
points are those of the source: `wait_on_buffer` on a locked buffer, `getblk`
without a free buffer, `make_request` without a free slot.

What tasks do with a buffer they hold, and what the devices do, comes from outside
(`Outside`).
-/

namespace Shitix.Buffer

/-- Where a call stands. -/
inductive Frame where
  | waitOnBuffer (n : ℕ)
  /-- `wait_on_buffer`, queued on `b_wait` with the buffer referenced -/
  | waiting (n : ℕ)
  | getHashTable (dev : UInt16) (block : UInt32) (size : ℕ)
  /-- `get_hash_table`, after `wait_on_buffer(n)` -/
  | getHashTableCheck (dev : UInt16) (block : UInt32) (size n : ℕ)
  | getblk (dev : UInt16) (block : UInt32) (size : ℕ)
  /-- `getblk`, after `get_hash_table` -/
  | getblkLookedUp (dev : UInt16) (block : UInt32) (size : ℕ)
  /-- `getblk`, after `wait_on_buffer(best)` -/
  | getblkBest (dev : UInt16) (block : UInt32) (size best : ℕ)
  /-- `getblk`, after `sync_buffers(0, false)` -/
  | getblkSynced (dev : UInt16) (block : UInt32) (size best : ℕ)
  | bread (dev : UInt16) (block : UInt32) (size : ℕ)
  /-- `bread`, after `getblk` -/
  | breadGot
  /-- `bread`, after `ll_rw_block(READ, n)` -/
  | breadIssued (n : ℕ)
  /-- `bread`, after `wait_on_buffer(n)` -/
  | breadWaited (n : ℕ)
  /-- `bread`, after `brelse(n)` of a buffer that could not be read -/
  | breadFailed
  | brelse (n : ℕ)
  /-- `brelse`, after `wait_on_buffer(n)` -/
  | brelseWaited (n : ℕ)
  | syncBuffers (dev : UInt16) (wait : Bool)
  /-- `sync_buffers`, at a slot of a pass -/
  | syncSlot (dev : UInt16) (wait : Bool) (pass slot : ℕ) (retry err : Bool)
  /-- `sync_buffers`, past the lock of the slot -/
  | syncUnlocked (dev : UInt16) (wait : Bool) (pass slot : ℕ) (retry err : Bool)
  /-- `sync_buffers`, after `ll_rw_block(WRITE, slot)` -/
  | syncWrote (dev : UInt16) (wait : Bool) (pass slot : ℕ) (err : Bool)
  /-- `invalidate_buffers`, at a slot -/
  | invalidate (dev : UInt16) (slot : ℕ)
  /-- `invalidate_buffers`, after `wait_on_buffer(slot)` -/
  | invalidateWaited (dev : UInt16) (slot : ℕ)
  | llRwBlock (rw : Rw) (n : ℕ)
  | makeRequest (rw : Rw) (n : ℕ)
  /-- `make_request`, in `lock_buffer` after `wait_on_buffer(n)` -/
  | makeRequestLock (rw : Rw) (n : ℕ)
  /-- `make_request`, looking for a slot -/
  | makeRequestSlot (rw : Rw) (n : ℕ)
deriving DecidableEq, Repr

/-- What the calls return. -/
inductive Value where
  | unit
  | buffer (n : Option ℕ)
  | flag (err : Bool)
deriving DecidableEq, Repr

/-- What comes from outside the calls. -/
inductive Outside where
  /-- a task fills a buffer it holds and marks it dirty -/
  | store (n : ℕ) (data : Block)
  /-- a device moves the data of its first request -/
  | transfer (m : ℕ)
  /-- a device reports its first request -/
  | endRequest (m : ℕ) (uptodate : Bool)

/-- One stretch of a call, and how it ends. -/
abbrev Stretch : Type := Except Panic (BlockIo × Next Frame Value)

/-- A stretch that only writes fields of a head. -/
def writeHead (io : BlockIo) (n : ℕ) (f : BufferHead → BufferHead) (next : Next Frame Value) :
    Stretch := do
  let cache ← io.cache.modify n f
  return ({ io with cache := cache }, next)

/-- A stretch that reads a head and decides. -/
def withHead (io : BlockIo) (n : ℕ) (k : BufferHead → Stretch) : Stretch := do
  let head ← io.cache.bh n
  k head

/-- `ll_rw_block` and `make_request` give a buffer up: neither dirty nor valid. -/
def giveUp (io : BlockIo) (n : ℕ) : Stretch :=
  writeHead io n ({ · with dirt := false, uptodate := false }) (.ret .unit)

/-- The rest of `getblk` once no buffer holds the block: pick a victim, or sleep. -/
def getblkScan (io : BlockIo) (dev : UInt16) (block : UInt32) (size : ℕ) : Stretch := do
  let best ← io.cache.scanFree size io.cache.used io.cache.freeList nil
  if best = nil then return (io, .sleep (.getblk dev block size))
  return (io, .call (.waitOnBuffer best) (.getblkBest dev block size best))

/-- The end of `getblk`: the victim gets its new key and its place in the queues. -/
def rekey (c : Cache) (best : ℕ) (dev : UInt16) (block : UInt32) : Except Panic Cache := do
  let c ← c.modify best
    ({ · with count := 1, dirt := false, uptodate := false, req := false })
  let c ← c.removeFromQueues best
  let c ← c.modify best ({ · with dev := dev, blocknr := block })
  c.insertIntoQueues best

/-- The end of a pass of `sync_buffers`. -/
def syncPassEnd (dev : UInt16) (wait : Bool) (pass : ℕ) (retry err : Bool) : Next Frame Value :=
  if wait ∧ retry ∧ pass < 2 then .goto (.syncSlot dev wait (pass + 1) 0 false err)
  else .ret (.flag err)

/-- The code of the calls. -/
def code : Frame → Value → BlockIo → Stretch
  | .waitOnBuffer n, _, io => withHead io n fun head =>
    if head.lock then writeHead io n (fun h => { h with count := h.count + 1 }) (.goto (.waiting n))
    else .ok (io, .ret .unit)
  | .waiting n, _, io => withHead io n fun head =>
    if head.lock then .ok (io, .sleep (.waiting n))
    else writeHead io n (fun h => { h with count := h.count - 1 }) (.ret .unit)
  | .getHashTable dev block size, _, io => do
    match ← io.cache.findBuffer dev block size with
    | none => return (io, .ret (.buffer none))
    | some n =>
      writeHead io n (fun h => { h with count := h.count + 1 })
        (.call (.waitOnBuffer n) (.getHashTableCheck dev block size n))
  | .getHashTableCheck dev block size n, _, io => withHead io n fun head =>
    if head.dev = dev ∧ head.blocknr = block ∧ head.size = size then
      .ok (io, .ret (.buffer (some n)))
    else
      writeHead io n (fun h => { h with count := h.count - 1 }) (.goto (.getHashTable dev block size))
  | .getblk dev block size, _, io =>
    .ok (io, .call (.getHashTable dev block size) (.getblkLookedUp dev block size))
  | .getblkLookedUp dev block size, value, io =>
    match value with
    | .buffer (some n) => withHead io n fun head => do
      if head.uptodate ∧ ¬ head.dirt then
        let cache ← io.cache.putLastFree n
        return ({ io with cache := cache }, .ret (.buffer (some n)))
      return (io, .ret (.buffer (some n)))
    | _ => getblkScan io dev block size
  | .getblkBest dev block size best, _, io => withHead io best fun head => do
    if head.count ≠ 0 ∨ head.size ≠ size then return (io, .goto (.getblk dev block size))
    if head.dirt then
      return (io, .call (.syncBuffers 0 false) (.getblkSynced dev block size best))
    -- someone may have read the block in while this task slept
    if (← io.cache.findBuffer dev block size).isSome then
      return (io, .goto (.getblk dev block size))
    let cache ← rekey io.cache best dev block
    return ({ io with cache := cache }, .ret (.buffer (some best)))
  | .getblkSynced dev block size best, _, io =>
    writeHead io best ({ · with dirt := false }) (.goto (.getblk dev block size))
  | .bread dev block size, _, io => .ok (io, .call (.getblk dev block size) .breadGot)
  | .breadGot, value, io =>
    match value with
    | .buffer (some n) => withHead io n fun head =>
      if head.uptodate then .ok (io, .ret (.buffer (some n)))
      else .ok (io, .call (.llRwBlock .read n) (.breadIssued n))
    | _ => .ok (io, .ret (.buffer none))
  | .breadIssued n, _, io => .ok (io, .call (.waitOnBuffer n) (.breadWaited n))
  | .breadWaited n, _, io => withHead io n fun head =>
    if head.uptodate then .ok (io, .ret (.buffer (some n)))
    else .ok (io, .call (.brelse n) .breadFailed)
  | .breadFailed, _, io => .ok (io, .ret (.buffer none))
  | .brelse n, _, io =>
    if n = nil then .ok (io, .ret .unit)
    else .ok (io, .call (.waitOnBuffer n) (.brelseWaited n))
  | .brelseWaited n, _, io => withHead io n fun head =>
    -- `brelse: Trying to free free buffer`
    if head.count = 0 then .ok (io, .ret .unit)
    else writeHead io n (fun h => { h with count := h.count - 1 }) (.ret .unit)
  | .syncBuffers dev wait, _, io => .ok (io, .goto (.syncSlot dev wait 0 0 false false))
  | .syncSlot dev wait pass slot retry err, _, io =>
    if ¬ slot < nrBuffers then .ok (io, syncPassEnd dev wait pass retry err)
    else withHead io slot fun head =>
      if head.size = 0 then .ok (io, .goto (.syncSlot dev wait pass (slot + 1) retry err))
      else if 0 < io.cache.used ∧ io.cache.used ≤ slot then
        .ok (io, syncPassEnd dev wait pass retry err)
      else if dev ≠ 0 ∧ head.dev ≠ dev then
        .ok (io, .goto (.syncSlot dev wait pass (slot + 1) retry err))
      else if head.lock then
        if ¬ wait ∨ pass = 0 then .ok (io, .goto (.syncSlot dev wait pass (slot + 1) true err))
        else .ok (io, .call (.waitOnBuffer slot) (.syncUnlocked dev wait pass slot retry err))
      else .ok (io, .goto (.syncUnlocked dev wait pass slot retry err))
  | .syncUnlocked dev wait pass slot retry err, _, io => withHead io slot fun head =>
    if wait ∧ head.req ∧ ¬ head.lock ∧ ¬ head.dirt ∧ ¬ head.uptodate then
      .ok (io, .goto (.syncSlot dev wait pass (slot + 1) retry true))
    else if ¬ head.dirt ∨ 2 ≤ pass then
      .ok (io, .goto (.syncSlot dev wait pass (slot + 1) retry err))
    else
      writeHead io slot (fun h => { h with count := h.count + 1 })
        (.call (.llRwBlock .write slot) (.syncWrote dev wait pass slot err))
  | .syncWrote dev wait pass slot err, _, io =>
    writeHead io slot (fun h => { h with count := h.count - 1, dirt := false })
      (.goto (.syncSlot dev wait pass (slot + 1) true err))
  | .invalidate dev slot, _, io =>
    if ¬ slot < nrBuffers then .ok (io, .ret .unit)
    else withHead io slot fun head =>
      if head.size = 0 then .ok (io, .goto (.invalidate dev (slot + 1)))
      else if 0 < io.cache.used ∧ io.cache.used ≤ slot then .ok (io, .ret .unit)
      else if head.dev ≠ dev then .ok (io, .goto (.invalidate dev (slot + 1)))
      else .ok (io, .call (.waitOnBuffer slot) (.invalidateWaited dev slot))
  | .invalidateWaited dev slot, _, io => withHead io slot fun head =>
    if head.dev = dev then
      writeHead io slot ({ · with uptodate := false, dirt := false, req := false })
        (.goto (.invalidate dev (slot + 1)))
    else .ok (io, .goto (.invalidate dev (slot + 1)))
  | .llRwBlock rw n, _, io => withHead io n fun head =>
    if ¬ (major head.dev < maxBlkdev ∧ io.requestFn (major head.dev)) then giveUp io n
    else if head.size ≠ blockSize then giveUp io n
    else if rw = .write ∧ io.isReadOnly head.dev then giveUp io n
    else writeHead io n ({ · with req := true }) (.goto (.makeRequest rw n))
  | .makeRequest rw n, _, io => withHead io n fun head =>
    let count := UInt32.ofNat (head.size / 512)
    match io.capacity (major head.dev) with
    | some cap =>
      if cap < (sectorOf head + count) >>> 1 then giveUp io n
      else .ok (io, .call (.waitOnBuffer n) (.makeRequestLock rw n))
    | none => .ok (io, .call (.waitOnBuffer n) (.makeRequestLock rw n))
  | .makeRequestLock rw n, _, io => withHead io n fun head =>
    -- locked, then unlocked at once if there is nothing to do
    if (rw = .write ∧ ¬ head.dirt) ∨ (rw = .read ∧ head.uptodate) then
      writeHead io n ({ · with lock := false }) (.ret .unit)
    else writeHead io n ({ · with lock := true }) (.goto (.makeRequestSlot rw n))
  | .makeRequestSlot rw n, _, io => withHead io n fun _ =>
    let maxReq := if rw = .read then nrRequest else nrRequest * 2 / 3
    match io.freeRequest maxReq with
    | none => .ok (io, .sleep (.makeRequestSlot rw n))
    | some r => .ok (io.addRequest rw n r, .ret .unit)

/-- What comes from outside acts on the cache. -/
def outside (io : BlockIo) : Outside → Except Panic BlockIo
  | .store n data =>
    -- only a buffer someone holds
    if n < io.cache.used ∧ (io.cache.heads n).count ≠ 0 then
      .ok (io.putHead n ({ · with data := data, uptodate := true, dirt := true }))
    else .ok io
  | .transfer m => .ok (io.transfer m)
  | .endRequest m uptodate => .ok (io.endRequest m uptodate)

/-- The tasks of the system. -/
abbrev Task : Type := ℕ

/-- The cache with the tasks that use it. -/
abbrev System : Type := Coop BlockIo Frame Value Task

/-- One event of the system.  Devices interrupt at any time; a task stores only while it has
the processor, so not while another one is inside a call. -/
def System.step (s : System) : Coop.Event Frame Task Outside → Except Panic System
  | .env (.store n data) =>
    if s.running = none then Coop.step code outside s (.env (.store n data)) else .ok s
  | event => Coop.step code outside s event

end Shitix.Buffer
