import Mathlib.Data.Nat.Bitwise
import Shitix.Mm.Page

/-!
# The page-frame allocator

The model of `mm/page_alloc.rs`, with the part of `mm/page_ref.rs` it calls.

The free list is threaded through the free pages: the first word of a free page
holds the address of the next one, the second a cookie, the third the complement
of the first.  `State.word` is physical memory, read and written through the
direct map one 64-bit word at a time.  The `mem_map` and `page_ref` tables are
kept apart from it, as arrays of their own: `init` carves them out below the
first page it ever releases (`init_layout` in `PageAllocRun.lean`).

Every assertion of the source is a `Panic`.  `debug` is `cfg!(debug_assertions)`:
with it the allocator also checks its guards, the cookie and the mirrored link.
-/

namespace Shitix.PageAlloc

open Function

/-! ## Constants -/

/-- `MAP_PAGE_RESERVED`: the bit of a `mem_map` entry that marks a reserved page. -/
def mapPageReserved : ℕ := 0x8000

/-- `FREE_COOKIE`: the second word of every free page. -/
def freeCookie : ℕ := 0xF0F0C0DEF0F0C0DE

/-- `GUARD_PAT`: the pattern of the guard words around the allocator's globals. -/
def guardPat : ℕ := 0xA110C8DEADBEEF

/-- `LOW_MAPPED_LIMIT`: only the identity-mapped low gigabyte is managed. -/
def lowMappedLimit : ℕ := 2 ^ 30

/-- `MIN_USABLE_PHYS`: the low megabyte never enters the free list. -/
def minUsablePhys : ℕ := 0x100000

/-- `KSTACK_POOL_BYTES` of `sched/mod.rs`: eight kernel stacks of four pages. -/
def kstackPoolBytes : ℕ := 8 * (4 * 4096)

/-- The bitwise complement of a 64-bit word. -/
def complement (word : ℕ) : ℕ := 2 ^ 64 - 1 - word

/-- A `mem_map` entry with the reserved bit set. -/
def isReserved (entry : ℕ) : Bool := entry.testBit 15

/-- The failed assertions of the allocator, with what their messages print. -/
inductive Panic where
  /-- `page_alloc guard … smashed`, at the named caller -/
  | guardSmashed (tag : String)
  /-- `mm_ent(nr): out of range` -/
  | outOfRange (nr len : ℕ)
  /-- `push_free: bad page` -/
  | badPage (base highMemory : ℕ)
  /-- `page … freed twice (already on free list)` -/
  | freedTwice (base : ℕ)
  /-- `free page list empty but nr_free_pages=…` -/
  | listTruncated (nrFreePages : ℕ)
  /-- `free page list corrupt` -/
  | listCorrupt (head highMemory nrFreePages : ℕ)
  /-- `free page …: next=… but mirror=…` -/
  | linkOverwritten (page next mirror : ℕ)
  /-- `page … on free list was written after being freed` -/
  | writtenAfterFree (page cookie next : ℕ)
  /-- `get_free_page: page … on free list but mem_map=…` -/
  | stillReferenced (page entry : ℕ)
deriving DecidableEq, Repr

/-- The allocator's globals and the physical memory it threads its list through. -/
structure State where
  /-- the 64-bit word stored at a physical address -/
  word : ℕ → ℕ
  /-- `MEM_MAP`, the table's address; 0 is the null pointer -/
  memMapBase : ℕ
  memMapLen : ℕ
  /-- the `u16` entries of `mem_map` -/
  memMap : ℕ → ℕ
  /-- `REF_BASE` of `page_ref.rs`; 0 is the null pointer -/
  refBase : ℕ
  /-- `REF_LEN` of `page_ref.rs` -/
  refLen : ℕ
  /-- the `u32` counters of `page_ref.rs`: a 16-bit count and the COW flag in bit 31 -/
  pageRef : ℕ → ℕ
  highMemory : ℕ
  freePageList : ℕ
  nrFreePages : ℕ
  /-- `GUARD_BEFORE` and `GUARD_AFTER` -/
  guards : List ℕ

/-! ## The reference counts of `page_ref.rs` -/

/-- The COW flag of a counter, kept by `page_ref_set`. -/
def cowFlag (counter : ℕ) : ℕ := if counter.testBit 31 then 2 ^ 31 else 0

/-- The value `page_ref_set` stores over a counter. -/
def setCount (count counter : ℕ) : ℕ := count % 65536 + cowFlag counter

/-- The count field of a counter. -/
def refCount (counter : ℕ) : ℕ := counter % 65536

/-- `page_ref_set`: a frame without a slot is ignored. -/
def pageRefSet (s : State) (pfn count : ℕ) : State :=
  if s.refBase = 0 ∨ s.refLen ≤ pfn then s
  else { s with pageRef := update s.pageRef pfn (setCount count (s.pageRef pfn)) }

/-! ## The free list -/

/-- `check_guards` passes. -/
def guardsIntact (s : State) : Bool := s.guards.all (· == guardPat)

/-- `mm_ent`: the entry of a frame, checked against the table. -/
def mmEnt (s : State) (nr : ℕ) : Except Panic ℕ :=
  if s.memMapBase ≠ 0 ∧ nr < s.memMapLen then .ok (s.memMap nr)
  else .error (.outOfRange nr s.memMapLen)

/-- Write one `mem_map` entry. -/
def setEnt (s : State) (nr entry : ℕ) : State :=
  { s with memMap := update s.memMap nr entry }

/-- `push_free`: put a page back in front of the list. -/
def pushFree (debug : Bool) (s : State) (base : ℕ) : Except Panic State :=
  if debug ∧ ¬ guardsIntact s then .error (.guardSmashed "push_free")
  else if ¬ (base % pageSize = 0 ∧ minUsablePhys ≤ base ∧ base < s.highMemory) then
    .error (.badPage base s.highMemory)
  else if debug ∧ s.word (base + 8) = freeCookie then .error (.freedTwice base)
  else
    let head := s.freePageList
    .ok { s with
      word := update (update (update s.word base head)
        (base + 8) freeCookie) (base + 16) (complement head)
      freePageList := base }

/-- `get_free_page_locked`, the body of `get_free_page_raw`; page 0 means that no
page is left. -/
def getFreePageLocked (debug : Bool) (s : State) : Except Panic (ℕ × State) :=
  if debug ∧ ¬ guardsIntact s then .error (.guardSmashed "get_free_page")
  else
    let page := s.freePageList
    if page = 0 then
      if s.nrFreePages = 0 then .ok (0, s) else .error (.listTruncated s.nrFreePages)
    else if page % pageSize ≠ 0 ∨ s.highMemory ≤ page ∨ page < minUsablePhys then
      .error (.listCorrupt page s.highMemory s.nrFreePages)
    else
      let next := s.word page
      let mirror := s.word (page + 16)
      let cookie := s.word (page + 8)
      if debug ∧ mirror ≠ complement next then .error (.linkOverwritten page next mirror)
      else if debug ∧ cookie ≠ freeCookie then .error (.writtenAfterFree page cookie next)
      else
        let nr := mapNr page
        let s := { s with freePageList := next, nrFreePages := s.nrFreePages - 1 }
        match mmEnt s nr with
        | .error panic => .error panic
        | .ok entry =>
          if debug ∧ entry ≠ 0 then .error (.stillReferenced page entry)
          else
            -- the cookie is wiped, so that a second free of this page is noticed
            let s := { s with word := update s.word (page + 8) 0 }
            .ok (page, pageRefSet (setEnt s nr 1) nr 1)

/-- `free_page_locked`, the body of `free_page`. -/
def freePageLocked (debug : Bool) (s : State) (addr : ℕ) : Except Panic State :=
  if s.highMemory ≤ addr ∨ s.memMapBase = 0 then .ok s
  else
    let nr := mapNr addr
    match mmEnt s nr with
    | .error panic => .error panic
    | .ok entry =>
      if entry = 0 then .ok s
      else if isReserved entry then .ok s
      else
        let s := setEnt s nr (entry - 1)
        if s.memMap nr = 0 then
          match pushFree debug s (pageBase addr) with
          | .error panic => .error panic
          | .ok s => .ok (pageRefSet { s with nrFreePages := s.nrFreePages + 1 } nr 0)
        else .ok s

/-- `get_page`: one more hold on a page. -/
def getPage (s : State) (addr : ℕ) : Except Panic State :=
  if s.highMemory ≤ addr ∨ s.memMapBase = 0 then .ok s
  else
    let nr := mapNr addr
    match mmEnt s nr with
    | .error panic => .error panic
    | .ok entry => if isReserved entry then .ok s else .ok (setEnt s nr (entry + 1))

/-! ## `init` -/

/-- `MemInfo`, the statistics `init` returns. -/
structure MemInfo where
  available : ℕ
  highMemory : ℕ
  kernelPages : ℕ
  reservedPages : ℕ
  memMapAddr : ℕ
  pageRefAddr : ℕ
  kstackAddr : ℕ
  nrPages : ℕ
deriving DecidableEq, Repr

/-- A usable range of the firmware's memory map.  Physical addresses have at most
52 bits, so the roundings of `init` cannot wrap. -/
structure Region where
  base : ℕ
  len : ℕ
  bounded : base + len < 2 ^ 52
deriving DecidableEq, Repr

/-- `u64::saturating_add`. -/
def saturatingAdd (a b : ℕ) : ℕ := min (a + b) (2 ^ 64 - 1)

/-- The first loop of `init`: the highest end of a region, within the managed range. -/
def highOf (regions : List Region) : ℕ :=
  regions.foldl (fun high region =>
    let stop := min (saturatingAdd region.base region.len) lowMappedLimit
    if high < stop then stop else high) 0

/-- The addresses `init` lays its tables out at, for a kernel image ending at
`kernelEnd` and `nrPages` managed pages. -/
structure Layout where
  mapAddr : ℕ
  refAddr : ℕ
  kstackAddr : ℕ
  mapEnd : ℕ
deriving DecidableEq, Repr

/-- Where `init` places `mem_map`, the reference counts and the kernel stacks, and
the lowest address it releases. -/
def layout (kernelEnd nrPages : ℕ) : Layout :=
  let mapAddr := max (pageAlign kernelEnd) minUsablePhys
  let refAddr := pageAlign (mapAddr + nrPages * 2)
  let kstackAddr := max (pageAlign (refAddr + nrPages * 4)) minUsablePhys
  { mapAddr, refAddr, kstackAddr
    mapEnd := max (pageAlign (kstackAddr + kstackPoolBytes)) minUsablePhys }

/-- The pages `start, start + 4096, …` below `stop`. -/
def pagesFrom (start stop : ℕ) : List ℕ :=
  (List.range ((stop - start + 4095) / 4096)).map fun i => start + i * 4096

/-- Clear the entries of the whole pages of one usable region. -/
def releaseRegion (mapEnd high : ℕ) (map : ℕ → ℕ) (region : Region) : ℕ → ℕ :=
  let start := max (pageAlign region.base) mapEnd
  let stop := min (pageBase (saturatingAdd region.base region.len)) high
  (pagesFrom start stop).foldl (fun map addr => update map (mapNr addr) 0) map

/-- One turn of the loop that builds the free list, with its two tallies. -/
def buildStep (debug : Bool) (acc : State × ℕ × ℕ) (addr : ℕ) : Except Panic (State × ℕ × ℕ) :=
  let (s, reserved, free) := acc
  if s.memMap (mapNr addr) ≠ 0 then .ok (s, reserved + 1, free)
  else
    match pushFree debug s addr with
    | .error panic => .error panic
    | .ok s => .ok (s, reserved, free + 1)

/-- The loop that builds the free list. -/
def buildFreeList (debug : Bool) : List ℕ → State × ℕ × ℕ → Except Panic (State × ℕ × ℕ)
  | [], acc => .ok acc
  | addr :: rest, acc =>
    match buildStep debug acc addr with
    | .error panic => .error panic
    | .ok acc => buildFreeList debug rest acc

/-- The state of `init` just before it builds the free list: every page is
reserved but those of the regions, the counters and the stack pool are cleared,
the guards are stamped and the list is empty. -/
def preBuild (kernelEnd : ℕ) (regions : List Region) (word : ℕ → ℕ) : State :=
  let high := pageBase (highOf regions)
  let nrPages := mapNr high
  let place := layout kernelEnd nrPages
  { word := fun addr =>
      if place.kstackAddr ≤ addr ∧ addr < place.kstackAddr + kstackPoolBytes then 0 else word addr
    memMapBase := place.mapAddr
    memMapLen := nrPages
    memMap := regions.foldl (releaseRegion place.mapEnd high) fun _ => mapPageReserved
    refBase := place.refAddr
    refLen := nrPages
    pageRef := fun _ => 0
    highMemory := high
    freePageList := 0
    nrFreePages := 0
    guards := List.replicate 8 guardPat }

/-- `init`, run on a memory of any contents. -/
def init (debug : Bool) (kernelEnd : ℕ) (regions : List Region) (word : ℕ → ℕ) :
    Except Panic (MemInfo × State) :=
  let s := preBuild kernelEnd regions word
  let place := layout kernelEnd s.memMapLen
  match buildFreeList debug (pagesFrom 0 s.highMemory) (s, 0, 0) with
  | .error panic => .error panic
  | .ok (s, reserved, free) =>
    .ok ({ available := free * 4096
           highMemory := s.highMemory
           kernelPages := mapNr place.mapEnd
           reservedPages := reserved
           memMapAddr := place.mapAddr
           pageRefAddr := place.refAddr
           kstackAddr := place.kstackAddr
           nrPages := s.memMapLen },
         { s with nrFreePages := free })

end Shitix.PageAlloc
