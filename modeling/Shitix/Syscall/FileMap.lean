import Shitix.Lib.ByteMem
import Shitix.Syscall.Memory

/-!
# `mmap` and the file position

`mmap` fills the pages of a file-backed mapping by `lseek` and `read` on the descriptor, one page
after the other.  `mmapFd` is `mmap` with these calls: it starts from a file position and
returns the one it leaves.  `mmapFd_eq` says that it does to the task and to memory what `mmap`
does with the words that the reads deliver.
-/

namespace Shitix

/-- Two loops over `0 … n - 1` in step. -/
theorem forEach_range_sim {σ τ : Type*} (Rel : ℕ → σ → τ → Prop) (Same : σ → τ → Prop)
    {body : ℕ → σ → Bool × σ} {body' : ℕ → τ → Bool × τ} {n : ℕ} {a : σ} {b : τ}
    (hstart : Rel 0 a b) (hlast : ∀ a b, Rel n a b → Same a b)
    (hbody : ∀ k a b, k < n → Rel k a b → (body k a).1 = (body' k b).1 ∧
      ((body k a).1 = true → Rel (k + 1) (body k a).2 (body' k b).2) ∧
      ((body k a).1 = false → Same (body k a).2 (body' k b).2)) :
    (forEach body (List.range n) a).1 = (forEach body' (List.range n) b).1 ∧
      Same (forEach body (List.range n) a).2 (forEach body' (List.range n) b).2 := by
  -- the second loop, followed as a list of the same items
  suffices hsuffix : ∀ (items : List ℕ) (a : σ) (b : τ), items <:+ List.range n →
      Rel (n - items.length) a b → (forEach body items a).1 = (forEach body' items b).1 ∧
        Same (forEach body items a).2 (forEach body' items b).2 by
    exact hsuffix _ a b List.suffix_rfl (by simpa using hstart)
  intro items
  induction items with
  | nil =>
    intro a b _ hrel
    exact ⟨rfl, hlast a b (by simpa using hrel)⟩
  | cons k rest ih =>
    intro a b hsuffix hrel
    obtain ⟨hlength, hlt⟩ := suffix_range hsuffix
    rw [show n - (k :: rest).length = k by simp only [List.length_cons]; omega] at hrel
    obtain ⟨hsame, hnext, hstop⟩ := hbody k a b hlt hrel
    rcases hleft : body k a with ⟨done, a'⟩
    rcases hright : body' k b with ⟨done', b'⟩
    simp only [hleft, hright] at hsame hnext hstop
    subst hsame
    cases done with
    | true =>
      simp only [forEach, hleft, hright]
      refine ih a' b' ((List.suffix_cons k rest).trans hsuffix) ?_
      rw [show n - rest.length = k + 1 by omega]
      exact hnext rfl
    | false =>
      simp only [forEach, hleft, hright]
      exact ⟨trivial, hstop rfl⟩

end Shitix

namespace Shitix.Syscall

open Paging

/-! ## Files -/

/-- An open file, as far as `lseek` and `read` look at it. -/
structure OpenFile where
  /-- `i_size` -/
  size : BitVec 32
  /-- `lseek` refuses terminals -/
  seekable : Bool
  /-- what `read` puts into a buffer of a length, from a position; nothing when it fails -/
  fetch : ℕ → ℕ → List UInt8
  fetch_le : ∀ pos count, (fetch pos count).length ≤ count

namespace OpenFile

/-- `lseek` with `SEEK_SET`: the new position. -/
def lseek (file : OpenFile) (pos offset : ℕ) : ℕ :=
  if file.seekable && offset < 2 ^ 63 then offset else pos

/-- The loop of `mmap` that fills a buffer: `read` until the buffer is full or nothing
comes.  Each round reads a byte or more, so `left` rounds are enough. -/
def readAll (file : OpenFile) : ℕ → ℕ → ℕ → List UInt8 × ℕ
  | 0, pos, _ => ([], pos)
  | rounds + 1, pos, left =>
    let bytes := file.fetch pos left
    if bytes.length = 0 then ([], pos)
    else
      let rest := readAll file rounds (wrapAdd pos bytes.length) (left - bytes.length)
      (bytes ++ rest.1, rest.2)

end OpenFile

/-! ## Pages of a file -/

/-- `file_off`: where page `i` of a mapping starts in the file. -/
def fileOffset (offset i : ℕ) : ℕ := wrapAdd offset (i * 4096)

/-- `read_len`: how much of page `i` there is in the file and in the mapping. -/
def readLen (file : OpenFile) (offset len i : ℕ) : ℕ :=
  min (min 4096 (len - i * 4096)) (file.size.toNat - fileOffset offset i)

/-- The bytes of page `i`, and the file position after it was read. -/
def readPage (file : OpenFile) (offset len i pos : ℕ) : List UInt8 × ℕ :=
  if readLen file offset len i = 0 then ([], pos)
  else
    file.readAll (readLen file offset len i) (file.lseek pos (fileOffset offset i))
      (readLen file offset len i)

/-- A page that starts with these bytes, as words; the rest is zero. -/
def pageWords (bytes : List UInt8) (k : ℕ) : BitVec 64 :=
  BitVec.ofNat 64 (leValue ((bytes.drop (8 * k)).take 8))

/-! ## The call -/

/-- The arguments of `mmap`; `file` is the open file of the descriptor, if it has one. -/
structure MapCall where
  addr : ℕ
  len : ℕ
  prot : ℕ
  flags : ℕ
  offset : ℕ
  file : Option OpenFile

/-- A private mapping of a file: `MAP_PRIVATE` without `MAP_ANONYMOUS`. -/
def MapCall.fileBacked (call : MapCall) : Bool := !call.flags.testBit 5 && call.flags.testBit 1

/-- The body of the loop over the pages of a file. -/
def mapFilePage (pml4 : Frame) (mapAddr : ℕ) (call : MapCall) (file : OpenFile) (i : ℕ)
    (state : Mem × ℕ) : Bool × (Mem × ℕ) :=
  match mapFresh state.1 pml4 (wrapAdd mapAddr (i * 4096)) (mmapFlags call.prot) with
  | (none, s) => (false, ((pageRange mapAddr i).foldl (unmapOne pml4) s, state.2))
  | (some pg, s) =>
    let page := readPage file call.offset call.len i state.2
    (true, (s.fill pg (pageWords page.1), page.2))

/-- The loop over the pages of a file. -/
def mapFileFd (pml4 : Frame) (mapAddr : ℕ) (call : MapCall) (file : OpenFile)
    (state : Mem × ℕ) : Bool × (Mem × ℕ) :=
  forEach (mapFilePage pml4 mapAddr call file) (List.range (pageCount call.len)) state

/-- What a call leaves: its result, the task, memory and the file position. -/
structure MapOutcome where
  result : ℤ
  task : Task
  mem : Mem
  pos : ℕ

/-- The part of `mmap` after the address was chosen. -/
def mapPlaced (s : Mem) (t : Task) (mapAddr : ℕ) (call : MapCall) (pos : ℕ) : MapOutcome :=
  if call.fileBacked then
    match call.file with
    | none => ⟨-ebadf, t, s, pos⟩
    | some file =>
      match mapFileFd t.tables mapAddr call file (s, pos) with
      | (false, (s, pos)) => ⟨-enomem, t, s, pos⟩
      | (true, (s, pos)) => ⟨mapAddr, t, s, pos⟩
  else if !call.flags.testBit 5 then ⟨-enosys, t, s, pos⟩
  else
    match mapAnonymous t.tables mapAddr call.prot (pageCount call.len) s with
    | (false, s) => ⟨-enomem, t, s, pos⟩
    | (true, s) => ⟨mapAddr, t, s, pos⟩

/-- `mmap`, with the position of the file. -/
def mmapFd (s : Mem) (t : Task) (call : MapCall) (pos : ℕ) : MapOutcome :=
  if call.len = 0 then ⟨-einval, t, s, pos⟩
  else
    match placeMapping t call.addr call.len with
    | none => ⟨-enomem, t, s, pos⟩
    | some (mapAddr, t) => mapPlaced s t mapAddr call pos

/-! ## Without the position -/

/-- The file position once `n` pages were read. -/
def posAfter (file : OpenFile) (offset len pos : ℕ) : ℕ → ℕ
  | 0 => pos
  | i + 1 => (readPage file offset len i (posAfter file offset len pos i)).2

/-- The words of the pages. -/
def fileContents (call : MapCall) (pos : ℕ) (file : OpenFile) (i : ℕ) : ℕ → BitVec 64 :=
  pageWords (readPage file call.offset call.len i (posAfter file call.offset call.len pos i)).1

/-- The same call with the words of its file. -/
def MapCall.args (call : MapCall) (pos : ℕ) : MmapArgs where
  addr := call.addr
  len := call.len
  prot := call.prot
  flags := call.flags
  file := call.file.map (fileContents call pos)

theorem mapFileFd_eq (pml4 : Frame) (mapAddr : ℕ) (call : MapCall) (file : OpenFile) (s : Mem)
    (pos : ℕ) :
    (mapFileFd pml4 mapAddr call file (s, pos)).1 =
        (mapFile pml4 mapAddr call.prot (fileContents call pos file) (pageCount call.len) s).1 ∧
      (mapFileFd pml4 mapAddr call file (s, pos)).2.1 =
        (mapFile pml4 mapAddr call.prot (fileContents call pos file) (pageCount call.len) s).2 := by
  refine forEach_range_sim (fun k (a : Mem × ℕ) b => a.1 = b ∧
    a.2 = posAfter file call.offset call.len pos k) (fun a b => a.1 = b) ⟨rfl, rfl⟩
    (fun _ _ h => h.1) ?_
  rintro k ⟨s, p⟩ b - ⟨rfl, rfl⟩
  rcases hfresh : mapFresh s pml4 (wrapAdd mapAddr (k * 4096)) (mmapFlags call.prot) with ⟨pg, s'⟩
  cases pg with
  | none => simp [mapFilePage, hfresh]
  | some pg => simp [mapFilePage, hfresh, fileContents, posAfter]

/-- `mmapFd` is `mmap` with the words its reads deliver. -/
theorem mmapFd_eq (s : Mem) (t : Task) (call : MapCall) (pos : ℕ) :
    ((mmapFd s t call pos).result, (mmapFd s t call pos).task, (mmapFd s t call pos).mem) =
      mmap s t (call.args pos) := by
  unfold mmapFd mmap mapPlaced
  by_cases hlen : call.len = 0
  · simp [MapCall.args, hlen]
  simp only [MapCall.args, MapCall.fileBacked, hlen, if_false]
  rcases placeMapping t call.addr call.len with _ | ⟨mapAddr, t'⟩
  dsimp only
  by_cases hfile : (!call.flags.testBit 5 && call.flags.testBit 1) = true
  · simp only [hfile]
    cases call.file with
    | none => rfl
    | some file =>
      obtain ⟨hresult, hmem⟩ := mapFileFd_eq t'.tables mapAddr call file s pos
      rcases hleft : mapFileFd t'.tables mapAddr call file (s, pos) with ⟨done, s₁, pos₁⟩
      rcases hright : mapFile t'.tables mapAddr call.prot (fileContents call pos file)
        (pageCount call.len) s with ⟨done', s₂⟩
      simp only [hright] at hresult hmem
      subst hresult hmem
      simp only [hleft, hright, Option.map_some]
      cases done <;> rfl
  · simp only [hfile]
    by_cases hnosys : (!call.flags.testBit 5) = true
    · simp only [hnosys]
      rfl
    · simp only [hnosys]
      rcases mapAnonymous t'.tables mapAddr call.prot (pageCount call.len) s with ⟨done, s₁⟩
      cases done <;> rfl

end Shitix.Syscall
