import Shitix.Mm.Paging

/-!
# The memory system calls

The model of `mmap`, `munmap`, `mprotect` and `brk` of `syscall/sys.rs`.

Arguments are 64-bit words, and sums wrap as they do in the release profile.  A
debug build stops at an overflow instead, which need not be before anything is
changed: the sums in a loop over pages may overflow after its first rounds.  Of the
calling task the calls use the PML4, the break and the lower end of the mapping
area.  A file is what a file-backed mapping finds in it: the words of each page.
-/

namespace Shitix.Syscall

open Paging

/-! ## Numbers -/

/-- A sum of two words. -/
def wrapAdd (a b : ℕ) : ℕ := (a + b) % 2 ^ 64

/-- `page_align` of a word. -/
def pageAlignW (addr : ℕ) : ℕ := wrapAdd addr 4095 / 4096 * 4096

/-- `(len + PAGE_SIZE - 1) / PAGE_SIZE`. -/
def pageCount (len : ℕ) : ℕ := wrapAdd len 4095 / 4096

def ebadf : ℤ := 9

def enomem : ℤ := 12

def einval : ℤ := 22

def enosys : ℤ := 38

theorem neg_errno : ∀ e ∈ [einval, enomem, ebadf, enosys], -e < 0 := by decide

/-- What the calls use of the calling task. -/
structure Task where
  pml4 : Frame
  brk : ℕ
  mmapBase : ℕ

/-- The tables a call works on: kernel threads use the boot PML4. -/
def Task.tables (t : Task) : Frame := if t.pml4 = 0 then bootPml4 else t.pml4

/-! ## `munmap` -/

/-- The body of the loop of `munmap`: a page is unmapped and freed if the tables
have any page there. -/
def unmapOne (pml4 : Frame) (s : Mem) (va : ℕ) : Mem :=
  match translate s pml4 va with
  | none => s
  | some phys => (unmapPage s pml4 va).2.freePage (BitVec.ofNat 40 (phys / 4096))

/-- The pages `addr`, `addr + 4096`, … of a call. -/
def pageRange (addr npages : ℕ) : List ℕ :=
  (List.range npages).map fun i => wrapAdd addr (i * 4096)

def munmap (s : Mem) (t : Task) (addr len : ℕ) : ℤ × Mem :=
  if addr % 4096 ≠ 0 ∨ len = 0 then (-einval, s)
  else (0, (pageRange addr (pageCount len)).foldl (unmapOne t.tables) s)

/-! ## `mprotect` -/

/-- The flags `mprotect` sets: bits 1 and 2 of `prot` are `PROT_WRITE` and
`PROT_EXEC`. -/
def protFlags (prot : ℕ) : Flags :=
  { user := true, rw := prot.testBit 1, noExec := !prot.testBit 2 }

/-- The pages from `start` up to `stop`, both page-aligned. -/
def pagesBetween (start stop : ℕ) : List ℕ :=
  (List.range ((stop - start) / 4096)).map fun i => start + i * 4096

/-- `mprotect`, on the tables `cr3` points at. -/
def mprotect (s : Mem) (cr3 : Frame) (addr len prot : ℕ) : ℤ × Mem :=
  if len = 0 then (-einval, s)
  else if cr3 = 0 then (0, s)
  else
    (0, (pagesBetween (pageBase addr) (pageAlignW (wrapAdd addr len))).foldl
      (fun s va => (setPageFlags s cr3 va (protFlags prot)).2) s)

/-! ## `mmap` -/

/-- A fresh page mapped at an address, by `mmap` and by `execve`; `none` is a want of
memory, for the page or for the tables. -/
def mapFresh (s : Mem) (pml4 : Frame) (va : ℕ) (prot : Flags) : Option Frame × Mem :=
  match s.getFreePage with
  | none => (none, s)
  | some (page, s) =>
    match mapPage s pml4 va page prot with
    | (false, s) => (none, s.freePage page)
    | (true, s) => (some page, s)

/-- The flags of a mapped page. -/
def mmapFlags (prot : ℕ) : Flags := { present := true, user := true, rw := prot.testBit 1 }

/-- The loop over the pages of a file-backed mapping, with its roll-back. -/
def mapFile (pml4 : Frame) (mapAddr prot : ℕ) (contents : ℕ → ℕ → BitVec 64) (npages : ℕ)
    (s : Mem) : Bool × Mem :=
  forEach (fun i s =>
    match mapFresh s pml4 (wrapAdd mapAddr (i * 4096)) (mmapFlags prot) with
    | (none, s) => (false, (pageRange mapAddr i).foldl (unmapOne pml4) s)
    | (some pg, s) => (true, s.fill pg (contents i))) (List.range npages) s

/-- The loop over the pages of an anonymous mapping. -/
def mapAnonymous (pml4 : Frame) (mapAddr prot npages : ℕ) (s : Mem) : Bool × Mem :=
  forEach (fun i s => mapReserved s pml4 (wrapAdd mapAddr (i * 4096)) (mmapFlags prot))
    (List.range npages) s

/-- The arguments of `mmap`; `file` is the file of the descriptor, if it has one. -/
structure MmapArgs where
  addr : ℕ
  len : ℕ
  prot : ℕ
  flags : ℕ
  file : Option (ℕ → ℕ → BitVec 64)

/-- Where a mapping goes, and the task after it was placed; `none` is `ENOMEM`. -/
def placeMapping (t : Task) (addr len : ℕ) : Option (ℕ × Task) :=
  if addr ≠ 0 then some (pageBase addr, t)
  else
    let allocEnd := if t.mmapBase < len then 0 else pageBase (t.mmapBase - len)
    if allocEnd = 0 then none else some (allocEnd, { t with mmapBase := allocEnd })

def mmap (s : Mem) (t : Task) (args : MmapArgs) : ℤ × Task × Mem :=
  if args.len = 0 then (-einval, t, s)
  else
    match placeMapping t args.addr args.len with
    | none => (-enomem, t, s)
    | some (mapAddr, t) =>
      if !args.flags.testBit 5 && args.flags.testBit 1 then
        match args.file with
        | none => (-ebadf, t, s)
        | some contents =>
          match mapFile t.tables mapAddr args.prot contents (pageCount args.len) s with
          | (false, s) => (-enomem, t, s)
          | (true, s) => (mapAddr, t, s)
      else if !args.flags.testBit 5 then (-enosys, t, s)
      else
        match mapAnonymous t.tables mapAddr args.prot (pageCount args.len) s with
        | (false, s) => (-enomem, t, s)
        | (true, s) => (mapAddr, t, s)

/-! ## `brk` -/

/-- `USERSPACE_START + 0x3000`, the break of a task that never had one. -/
def heapBase : ℕ := 0x40003000

/-- The body of the growing loop of `brk`. -/
def growOne (pml4 : Frame) (va : ℕ) (s : Mem) : Bool × Mem :=
  if !isUserMapped s pml4 va && !isReserved s pml4 va then mapReserved s pml4 va sharedFlags
  else (true, s)

/-- The body of the shrinking loop of `brk`: only user pages are freed. -/
def shrinkOne (pml4 : Frame) (s : Mem) (va : ℕ) : Mem :=
  if isUserMapped s pml4 va then unmapOne pml4 s va else s

def brk (s : Mem) (t : Task) (newBrk : ℕ) : ℤ × Task × Mem :=
  if newBrk = 0 then (t.brk, t, s)
  else if newBrk = t.brk then (newBrk, t, s)
  else if t.pml4 = 0 then (newBrk, { t with brk := newBrk }, s)
  else
    let curBrk := if t.brk = 0 then heapBase else t.brk
    if curBrk < newBrk then
      match forEach (growOne t.pml4)
          (pagesBetween (pageAlignW curBrk) (pageAlignW (wrapAdd newBrk 4095))) s with
      | (false, s) => (-enomem, { t with brk := curBrk }, s)
      | (true, s) => (newBrk, { t with brk := newBrk }, s)
    else
      (newBrk, { t with brk := newBrk },
        (pagesBetween (pageAlignW newBrk) (pageAlignW (wrapAdd curBrk 4095))).reverse.foldl
          (shrinkOne t.pml4) s)

end Shitix.Syscall
