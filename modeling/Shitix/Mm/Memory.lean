import Shitix.Mm.Frames
import Shitix.Mm.Pte

/-!
# Physical memory

The state the paging code works on: the words of physical memory, which the
kernel reaches through the direct map at `PHYS_MAP_BASE`, and the page-frame
allocator.  The allocator is the one of `Frames.lean`, a list of frames; that the
words it threads through free pages behave like this list is what the simulation
theorems there say, so the contents of a free frame mean nothing here.

`get_free_page` is `get_free_page_raw` followed by a fill with zeros.
-/

namespace Shitix

open Function

/-- The managed frames lie in the low gigabyte. -/
structure Frames.Bounded (f : Frames) : Prop where
  nrPages_le : f.nrPages ≤ 2 ^ 18
  free_lt : ∀ pfn ∈ f.free, pfn < f.nrPages

namespace Frames

variable {f f' : Frames} {pfn : ℕ}

theorem Bounded.getFreePage (hf : f.Bounded) (h : f.getFreePage = some (pfn, f')) : f'.Bounded := by
  obtain ⟨hfree, hf'⟩ := getFreePage_eq_some h
  have hnr : f'.nrPages = f.nrPages := by rw [hf']; rfl
  refine ⟨hnr ▸ hf.nrPages_le, fun other hother => hnr ▸ hf.free_lt other ?_⟩
  rw [hfree]
  exact List.mem_cons_of_mem _ hother

theorem Bounded.freePage (hf : f.Bounded) (pfn : ℕ) : (f.freePage pfn).Bounded := by
  unfold Frames.freePage
  split_ifs with hmanaged
  · exact hf
  · exact hf
  · exact hf
  · refine ⟨hf.nrPages_le, fun other hother => ?_⟩
    rcases List.mem_cons.mp hother with rfl | hother
    · exact not_le.mp hmanaged
    · exact hf.free_lt other hother
  · exact ⟨hf.nrPages_le, hf.free_lt⟩

theorem Bounded.pageRefInc (hf : f.Bounded) (pfn : ℕ) : (f.pageRefInc pfn).Bounded := by
  unfold Frames.pageRefInc
  split_ifs
  · exact ⟨hf.nrPages_le, hf.free_lt⟩
  · exact hf

theorem Bounded.pageRefDec (hf : f.Bounded) (pfn : ℕ) : (f.pageRefDec pfn).2.Bounded := by
  unfold Frames.pageRefDec
  split_ifs
  · exact ⟨hf.nrPages_le, hf.free_lt⟩
  · exact hf

theorem Consistent.pageRefInc (hf : f.Consistent) (pfn : ℕ) :
    (f.pageRefInc pfn).nrPages = f.nrPages ∧ (f.pageRefInc pfn).memMap = f.memMap ∧
      (f.pageRefInc pfn).Consistent := by
  unfold Frames.pageRefInc
  split_ifs
  · exact ⟨rfl, rfl, hf.nodup, hf.managed, hf.mem_iff, hf.usable⟩
  · exact ⟨rfl, rfl, hf⟩

theorem Consistent.pageRefDec (hf : f.Consistent) (pfn : ℕ) :
    (f.pageRefDec pfn).2.nrPages = f.nrPages ∧ (f.pageRefDec pfn).2.memMap = f.memMap ∧
      (f.pageRefDec pfn).2.Consistent := by
  unfold Frames.pageRefDec
  split_ifs
  · exact ⟨rfl, rfl, hf.nodup, hf.managed, hf.mem_iff, hf.usable⟩
  · exact ⟨rfl, rfl, hf⟩

end Frames

/-- Physical memory and the allocator. -/
structure Mem where
  /-- the 512 words of a frame -/
  word : Frame → ℕ → BitVec 64
  frames : Frames
  bounded : frames.Bounded

namespace Mem

/-- `entry`: read a page-table entry. -/
def entry (s : Mem) (table : Frame) (idx : ℕ) : Pte := Pte.decode (s.word table idx)

/-- Store one word. -/
def setWord (s : Mem) (frame : Frame) (idx : ℕ) (value : BitVec 64) : Mem :=
  { s with word := update s.word frame (update (s.word frame) idx value) }

/-- `set_entry`: write a page-table entry. -/
def setEntry (s : Mem) (table : Frame) (idx : ℕ) (e : Pte) : Mem := s.setWord table idx e.encode

/-- Replace the contents of a frame. -/
def fill (s : Mem) (frame : Frame) (words : ℕ → BitVec 64) : Mem :=
  { s with word := update s.word frame words }

/-- `get_free_page`: a zeroed page. -/
def getFreePage (s : Mem) : Option (Frame × Mem) :=
  match h : s.frames.getFreePage with
  | none => none
  | some (pfn, frames) =>
    some (BitVec.ofNat 40 pfn,
      { word := update s.word (BitVec.ofNat 40 pfn) fun _ => 0
        frames := frames
        bounded := s.bounded.getFreePage h })

def freePage (s : Mem) (frame : Frame) : Mem :=
  { s with
    frames := s.frames.freePage frame.toNat
    bounded := s.bounded.freePage frame.toNat }

def pageRefCount (s : Mem) (frame : Frame) : ℕ := s.frames.pageRefCount frame.toNat

def pageRefInc (s : Mem) (frame : Frame) : Mem :=
  { s with
    frames := s.frames.pageRefInc frame.toNat
    bounded := s.bounded.pageRefInc frame.toNat }

def pageRefDec (s : Mem) (frame : Frame) : ℕ × Mem :=
  ((s.frames.pageRefDec frame.toNat).1,
    { s with
      frames := (s.frames.pageRefDec frame.toNat).2
      bounded := s.bounded.pageRefDec frame.toNat })

/-! ## Reading after writing -/

variable {s s' : Mem} {table other page : Frame} {idx i : ℕ} {e : Pte}

@[simp]
theorem entry_setEntry_self : (s.setEntry table idx e).entry table idx = e := by
  simp [entry, setEntry, setWord, Pte.decode_encode]

theorem entry_setEntry_of_ne (h : other = table → i ≠ idx) :
    (s.setEntry table idx e).entry other i = s.entry other i := by
  simp only [entry, setEntry, setWord]
  by_cases heq : other = table
  · subst heq
    rw [update_self, update_of_ne (h rfl)]
  · rw [update_of_ne heq]

@[simp]
theorem frames_setEntry : (s.setEntry table idx e).frames = s.frames := rfl

@[simp]
theorem word_fill (words : ℕ → BitVec 64) :
    (s.fill table words).word = update s.word table words := rfl

@[simp]
theorem freePage_frames : (s.freePage table).frames = s.frames.freePage table.toNat := rfl

/-- The entry of a zeroed page. -/
theorem decode_zero : Pte.decode 0 = { frame := 0 } := by decide

theorem getFreePage_eq_none : s.getFreePage = none ↔ s.frames.free = [] := by
  rw [← Frames.getFreePage_eq_none]
  unfold getFreePage
  split <;> simp_all

section

variable (h : s.getFreePage = some (page, s'))

include h

/-- What `get_free_page` does: it takes the first free frame and zeroes it. -/
theorem getFreePage_eq_some : s.frames.getFreePage = some (page.toNat, s'.frames) ∧
      s'.word = update s.word page fun _ => 0 := by
  unfold getFreePage at h
  split at h
  · cases h
  · next pfn frames hget =>
    cases h
    have hlt : pfn < 2 ^ 40 := by
      have hmem : pfn ∈ s.frames.free := by
        rw [(Frames.getFreePage_eq_some hget).1]
        exact List.mem_cons_self
      have := s.bounded.free_lt pfn hmem
      have := s.bounded.nrPages_le
      omega
    have hnat : (BitVec.ofNat 40 pfn).toNat = pfn := by
      rw [BitVec.toNat_ofNat, Nat.mod_eq_of_lt hlt]
    exact ⟨hget.trans (by rw [hnat]), rfl⟩

theorem entry_getFreePage_self : s'.entry page i = { frame := 0 } := by
  rw [entry, (getFreePage_eq_some h).2, update_self]
  exact decode_zero

theorem entry_getFreePage_of_ne (hne : other ≠ page) : s'.entry other i = s.entry other i := by
  rw [entry, (getFreePage_eq_some h).2, update_of_ne hne, entry]

end

end Mem

end Shitix
