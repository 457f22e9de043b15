import Shitix.Lib.Loop
import Shitix.Mm.Memory

/-!
# Page tables

The model of `mm/paging.rs` and of the copy-on-write fault handler
`try_handle_cow_fault` in `umm/mod.rs`.

A table is a frame, an address space is the frame of its PML4, a virtual address
is a number.  The functions that follow the four levels down without changing
them differ only in what they do at the end, so the way down is written once, as
`walk`; `is_reserved` goes down without looking at `HUGE` and keeps its own body.
The functions that build missing levels share `leafTable`.

The translation look-aside buffer is not modelled: the code invalidates the pages
it changes, on a single processor.
-/

namespace Shitix.Paging

open Mem

/-! ## Indices -/

def pml4Index (va : ℕ) : ℕ := va / 2 ^ 39 % 512

def pdptIndex (va : ℕ) : ℕ := va / 2 ^ 30 % 512

def pdIndex (va : ℕ) : ℕ := va / 2 ^ 21 % 512

def ptIndex (va : ℕ) : ℕ := va / 2 ^ 12 % 512

/-- The address with the given indices, as `cow_copy_page_table` puts it together. -/
def vaddrOf (pml4I pdptI pdI ptI : ℕ) : ℕ :=
  pml4I * 2 ^ 39 + pdptI * 2 ^ 30 + pdI * 2 ^ 21 + ptI * 2 ^ 12

/-- `flags::SHARED`. -/
def sharedFlags : Flags := { present := true, rw := true, user := true }

/-! ## Going down -/

/-- Where the way down ends: at a missing entry, at a page of 1 GiB or 2 MiB, or
at the last-level table. -/
inductive Walk where
  | absent
  | huge1G (e : Pte)
  | huge2M (e : Pte)
  | table (pt : Frame)

/-- Follow the tables of `pml4` down towards an address. -/
def walk (s : Mem) (pml4 : Frame) (va : ℕ) : Walk :=
  let e := s.entry pml4 (pml4Index va)
  if !e.present then .absent
  else
    let e := s.entry e.frame (pdptIndex va)
    if !e.present then .absent
    else if e.huge then .huge1G e
    else
      let e := s.entry e.frame (pdIndex va)
      if !e.present then .absent
      else if e.huge then .huge2M e
      else .table e.frame

/-- `translate`: the physical address. -/
def translate (s : Mem) (pml4 : Frame) (va : ℕ) : Option ℕ :=
  match walk s pml4 va with
  | .absent => none
  | .huge1G e => some (e.frame.toNat * 4096 ||| va % 2 ^ 30)
  | .huge2M e => some (e.frame.toNat * 4096 ||| va % 2 ^ 21)
  | .table pt =>
    let e := s.entry pt (ptIndex va)
    if e.present then some (e.frame.toNat * 4096 ||| va % 4096) else none

/-- `is_user_mapped`: the last entry is present and accessible to user mode. -/
def isUserMapped (s : Mem) (pml4 : Frame) (va : ℕ) : Bool :=
  match walk s pml4 va with
  | .absent => false
  | .huge1G e | .huge2M e => e.user
  | .table pt => (s.entry pt (ptIndex va)).present && (s.entry pt (ptIndex va)).user

def isReserved (s : Mem) (pml4 : Frame) (va : ℕ) : Bool :=
  let e := s.entry pml4 (pml4Index va)
  if !e.present then false
  else
    let e := s.entry e.frame (pdptIndex va)
    if !e.present then false
    else
      let e := s.entry e.frame (pdIndex va)
      if !e.present then false
      else (s.entry e.frame (ptIndex va)).reserved

/-- `get_page_flags`: the bits of a present last-level entry outside its address. -/
def getPageFlags (s : Mem) (pml4 : Frame) (va : ℕ) : Option Flags :=
  match walk s pml4 va with
  | .table pt =>
    let e := s.entry pt (ptIndex va)
    if e.present then some e.toFlags else none
  | _ => none

/-- `set_page_flags`: replace them. -/
def setPageFlags (s : Mem) (pml4 : Frame) (va : ℕ) (newFlags : Flags) : Bool × Mem :=
  match walk s pml4 va with
  | .table pt =>
    let e := s.entry pt (ptIndex va)
    if e.present then
      (true, s.setEntry pt (ptIndex va) ⟨{ newFlags with present := true }, e.frame⟩)
    else (false, s)
  | _ => (false, s)

/-- `unmap_page`: clear a present last-level entry and return its frame. -/
def unmapPage (s : Mem) (pml4 : Frame) (va : ℕ) : Option Frame × Mem :=
  match walk s pml4 va with
  | .table pt =>
    let e := s.entry pt (ptIndex va)
    if e.present then (some e.frame, s.setEntry pt (ptIndex va) { frame := 0 }) else (none, s)
  | _ => (none, s)

/-! ## Building -/

/-- The flags `next_level` gives the 512 entries that replace a huge page. -/
def splitFlags (e : Pte) : Flags :=
  { e.toFlags with present := true, huge := false, isGlobal := false }

/-- The loop of `next_level` that fills the table of a split page. -/
def splitInto (s : Mem) (pt : Frame) (e : Pte) : Mem :=
  (List.range 512).foldl
    (fun s i => s.setEntry pt i ⟨splitFlags e, e.frame + BitVec.ofNat 40 i⟩) s

/-- `next_level`: one level down, building the table that is missing there. -/
def nextLevel (s : Mem) (table : Frame) (idx : ℕ) (user : Bool) : Option Frame × Mem :=
  let e := s.entry table idx
  if e.present then
    if e.huge then
      match s.getFreePage with
      | none => (none, s)
      | some (pt, s) =>
        let s := splitInto s pt e
        (some pt, s.setEntry table idx
          ⟨{ splitFlags e with user := (splitFlags e).user || user }, pt⟩)
    else
      (some e.frame, if user && !e.user then s.setEntry table idx { e with user := true } else s)
  else
    match s.getFreePage with
    | none => (none, s)
    | some (page, s) =>
      (some page, s.setEntry table idx ⟨{ present := true, rw := true, user := user }, page⟩)

/-- The way down to the last-level table, building what is missing. -/
def leafTable (s : Mem) (pml4 : Frame) (va : ℕ) (user : Bool) : Option Frame × Mem :=
  match nextLevel s pml4 (pml4Index va) user with
  | (none, s) => (none, s)
  | (some pdpt, s) =>
    match nextLevel s pdpt (pdptIndex va) user with
    | (none, s) => (none, s)
    | (some pd, s) => nextLevel s pd (pdIndex va) user

def mapPage (s : Mem) (pml4 : Frame) (va : ℕ) (page : Frame) (prot : Flags) : Bool × Mem :=
  match leafTable s pml4 va prot.user with
  | (none, s) => (false, s)
  | (some pt, s) => (true, s.setEntry pt (ptIndex va) ⟨{ prot with present := true }, page⟩)

/-- The entry of a reserved page: no frame yet, only the rights it will get. -/
def reservedEntry (prot : Flags) : Pte :=
  ⟨{ reserved := true, rw := prot.rw, user := prot.user, noExec := prot.noExec }, 0⟩

def mapReserved (s : Mem) (pml4 : Frame) (va : ℕ) (prot : Flags) : Bool × Mem :=
  match leafTable s pml4 va prot.user with
  | (none, s) => (false, s)
  | (some pt, s) => (true, s.setEntry pt (ptIndex va) (reservedEntry prot))

/-- `resolve_reserved`: give a reserved page its frame. -/
def resolveReserved (s : Mem) (pml4 : Frame) (va : ℕ) : Bool × Mem :=
  match leafTable s pml4 va true with
  | (none, s) => (false, s)
  | (some pt, s) =>
    let leaf := s.entry pt (ptIndex va)
    if !leaf.reserved then (false, s)
    else
      match s.getFreePage with
      | none => (false, s)
      | some (pg, s) =>
        (true, s.setEntry pt (ptIndex va)
          ⟨{ present := true, rw := leaf.rw, user := leaf.user, noExec := leaf.noExec }, pg⟩)

/-! ## Address spaces -/

/-- The frame of the boot PML4, at `0x4000`. -/
def bootPml4 : Frame := 4

/-- The frame of the boot page directory, at `0x6000`: 512 pages of 2 MiB. -/
def bootPd : Frame := 6

/-- A page, or the page 0 that stands for failure. -/
def take (s : Mem) : Option Frame × Mem :=
  match s.getFreePage with
  | none => (none, s)
  | some (page, s) => (some page, s)

/-- `free_page` of a page that may be missing. -/
def release (s : Mem) : Option Frame → Mem
  | none => s
  | some page => s.freePage page

/-- `alloc_pml4`.  The page comes zeroed and is cleared once more.  The second time
the stores go to its physical address, where the caller may have a page of its own
(see `Exec/Stack.lean`); here they are taken to reach the page. -/
def allocPml4 (s : Mem) : Option Frame × Mem :=
  match s.getFreePage with
  | none => (none, s)
  | some (page, s) => (some page, s.fill page fun _ => 0)

/-- `clone_kernel_pdpt`: the kernel's mappings of a new address space.  It gets
directories of its own for the low gigabyte and shares the direct map. -/
def cloneKernelPdpt (s : Mem) (dst : Frame) : Bool × Mem :=
  if dst = 0 then (false, s)
  else
    let (pdpt, s) := take s
    let (pd, s) := take s
    match pdpt, pd with
    | some pdpt, some pd =>
      let s := s.fill pd (s.word bootPd)
      let s := s.setEntry dst 0 ⟨{ present := true, rw := true }, pdpt⟩
      let s := s.setEntry pdpt 0 ⟨{ present := true, rw := true }, pd⟩
      (true, s.setEntry dst 256 (s.entry bootPml4 256))
    | pdpt, pd => (false, release (release s pdpt) pd)

/-- The innermost body of `free_user_pages`: drop one mapping. -/
def freeLeaf (s : Mem) (pte : Pte) : Mem :=
  if pte.reserved then s
  else if !pte.present || !pte.user then s
  else
    let (count, s) := s.pageRefDec pte.frame
    if count = 0 then s.freePage pte.frame else s

/-- The loops of `free_user_pages` over one table and everything below it. -/
def freeTable (s : Mem) (table : Frame) (size : ℕ) (below : Mem → Frame → Mem) : Mem :=
  (List.range size).foldl
    (fun s i =>
      let e := s.entry table i
      if !e.present then s
      else if e.huge then s
      else (below s e.frame).freePage e.frame) s

/-- The loop of `free_user_pages` over a last-level table. -/
def freePt (s : Mem) (pt : Frame) : Mem :=
  (List.range 512).foldl (fun s i => freeLeaf s (s.entry pt i)) s

/-- `free_user_pages`: drop all user mappings of an address space and free its
tables, except for the PML4 itself. -/
def freeUserPages (s : Mem) (pml4 : Frame) : Mem :=
  freeTable s pml4 256 fun s pdpt =>
    freeTable s pdpt 512 fun s pd =>
      freeTable s pd 512 freePt

/-! ## Fork -/

/-- The flags both sides of a fork get for a shared page. -/
def cowFlags (pte : Pte) : Flags :=
  { pte.toFlags with rw := false, present := true, user := true }

/-- The innermost body of `cow_copy_page_table`. -/
def cowLeaf (src dst : Frame) (va : ℕ) (pte : Pte) (s : Mem) : Bool × Mem :=
  if pte.reserved then mapReserved s dst va pte.toFlags
  else if !pte.present || !pte.user then (true, s)
  else
    let s := s.pageRefInc pte.frame
    let s := (setPageFlags s src va (cowFlags pte)).2
    mapPage s dst va pte.frame (cowFlags pte)

/-- One of the outer loops of `cow_copy_page_table`.  Huge pages are skipped below
the PML4, where `huge` is true. -/
def cowTable (table : Frame) (size : ℕ) (huge : Bool) (below : ℕ → Frame → Mem → Bool × Mem)
    (s : Mem) : Bool × Mem :=
  forEach (fun i s =>
    let e := s.entry table i
    if !e.present || !e.user then (true, s)
    else if huge && e.huge then (true, s)
    else below i e.frame s) (List.range size) s

/-- The innermost loop of `cow_copy_page_table`. -/
def cowPt (src dst : Frame) (pml4I pdptI pdI : ℕ) (pt : Frame) (s : Mem) : Bool × Mem :=
  forEach (fun ptI s => cowLeaf src dst (vaddrOf pml4I pdptI pdI ptI) (s.entry pt ptI) s)
    (List.range 512) s

/-- `cow_copy_page_table`: share the user pages of `src` with `dst`, write-protected
on both sides. -/
def cowCopyPageTable (s : Mem) (src dst : Frame) : Bool × Mem :=
  cowTable src 256 false (fun pml4I pdpt =>
    cowTable pdpt 512 true fun pdptI pd =>
      cowTable pd 512 true fun pdI pt => cowPt src dst pml4I pdptI pdI pt) s

/-! ## The write fault -/

/-- `try_handle_cow_fault`.  `some true` means that the write may be retried,
`some false` that the fault is not one of these, `none` that memory ran out. -/
def tryHandleCowFault (s : Mem) (va : ℕ) (pml4 : Frame) : Option Bool × Mem :=
  if 0x0000800000000000 ≤ va then (some false, s)
  else if !isUserMapped s pml4 va then (some false, s)
  else
    match translate s pml4 va with
    | none => (some false, s)
    | some phys =>
      let frame := BitVec.ofNat 40 (phys / 4096)
      if 1 < s.pageRefCount frame then
        let origFlags := (getPageFlags s pml4 va).getD sharedFlags
        match s.getFreePage with
        | none => (none, s)
        | some (newPage, s) =>
          let s := s.fill newPage (s.word frame)
          let s := (unmapPage s pml4 va).2
          match mapPage s pml4 va newPage { origFlags with rw := true } with
          | (false, s) => (none, s)
          | (true, s) => (some true, (s.pageRefDec frame).2)
      else
        match getPageFlags s pml4 va with
        | none => (some true, s)
        | some flags =>
          match setPageFlags s pml4 va { flags with rw := true } with
          | (false, s) => (none, s)
          | (true, s) => (some true, s)

end Shitix.Paging
