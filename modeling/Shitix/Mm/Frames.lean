import Shitix.Lib.Threaded
import Shitix.Mm.PageAlloc

/-!
# The allocator as a list of frames

What the page-frame allocator is for: a list of free frames, a hold count for
every frame and a sharing count for every frame.  `Frames` says this with an
actual list; the words that thread the list through the free pages, the cookie
and the mirror are gone.  The rest of the memory management is modelled over it.

`Represents s f` ties a state `s` of `page_alloc.rs` to the frames `f` it stands
for, and the three simulation theorems say that the code's operations are those
of `Frames`:

* `getFreePageLocked_represents`: taking a page takes the first free frame;
* `freePageLocked_represents`: freeing any address frees its frame;
* `getPage_represents`: another hold.

None of them can fail: on a represented state the allocator meets every one of
its own assertions.
-/

namespace Shitix

open Function List

/-- The frames of physical memory, as the allocator accounts for them. -/
structure Frames where
  /-- the free frames, first to be handed out first -/
  free : List ℕ
  /-- the `mem_map` entry of a frame: its hold count, or the reserved mark -/
  memMap : ℕ → ℕ
  /-- the `page_ref` counter of a frame -/
  pageRef : ℕ → ℕ
  /-- the number of managed frames -/
  nrPages : ℕ

namespace Frames

open PageAlloc

/-- The counts of one frame replaced. -/
def setCounts (f : Frames) (pfn entry count : ℕ) : Frames :=
  { f with
    memMap := update f.memMap pfn entry
    pageRef := update f.pageRef pfn (setCount count (f.pageRef pfn)) }

/-- `get_free_page_raw`: the first free frame, with one hold and one mapping. -/
def getFreePage (f : Frames) : Option (ℕ × Frames) :=
  match f.free with
  | [] => none
  | pfn :: rest => some (pfn, { f.setCounts pfn 1 1 with free := rest })

/-- `free_page` of any address in frame `pfn`. -/
def freePage (f : Frames) (pfn : ℕ) : Frames :=
  if f.nrPages ≤ pfn then f
  else if f.memMap pfn = 0 then f
  else if isReserved (f.memMap pfn) then f
  else if f.memMap pfn = 1 then { f.setCounts pfn 0 0 with free := pfn :: f.free }
  else { f with memMap := update f.memMap pfn (f.memMap pfn - 1) }

/-- `get_page` of any address in frame `pfn`. -/
def getPage (f : Frames) (pfn : ℕ) : Frames :=
  if f.nrPages ≤ pfn then f
  else if isReserved (f.memMap pfn) then f
  else { f with memMap := update f.memMap pfn (f.memMap pfn + 1) }

def pageRefCount (f : Frames) (pfn : ℕ) : ℕ :=
  if pfn < f.nrPages then refCount (f.pageRef pfn) else 0

/-- `page_ref_inc`, without the new count, which no caller reads. -/
def pageRefInc (f : Frames) (pfn : ℕ) : Frames :=
  if pfn < f.nrPages then
    { f with pageRef := update f.pageRef pfn ((f.pageRef pfn + 1) % 2 ^ 32) }
  else f

/-- `page_ref_dec`: the new count and the frames after it. -/
def pageRefDec (f : Frames) (pfn : ℕ) : ℕ × Frames :=
  if pfn < f.nrPages then
    let counter := (f.pageRef pfn + (2 ^ 32 - 1)) % 2 ^ 32
    (refCount counter, { f with pageRef := update f.pageRef pfn counter })
  else (0, f)

/-! ## Consistency -/

/-- The list and the `mem_map` agree: a managed frame is free exactly when its
entry is 0, and the low megabyte is reserved. -/
structure Consistent (f : Frames) : Prop where
  nodup : f.free.Nodup
  managed : ∀ pfn ∈ f.free, pfn < f.nrPages
  mem_iff : ∀ pfn < f.nrPages, pfn ∈ f.free ↔ f.memMap pfn = 0
  usable : ∀ pfn < f.nrPages, isReserved (f.memMap pfn) = false → 256 ≤ pfn

theorem Consistent.above {f : Frames} (hf : f.Consistent) {pfn : ℕ} (h : pfn ∈ f.free) :
    256 ≤ pfn := by
  have hmanaged := hf.managed pfn h
  refine hf.usable pfn hmanaged ?_
  rw [(hf.mem_iff pfn hmanaged).mp h]
  decide

theorem getFreePage_eq_some {f f' : Frames} {pfn : ℕ} (h : f.getFreePage = some (pfn, f')) :
    f.free = pfn :: f'.free ∧ f' = { f.setCounts pfn 1 1 with free := f'.free } := by
  unfold getFreePage at h
  split at h
  · cases h
  · next first rest hfree =>
      cases h
      exact ⟨hfree, rfl⟩

theorem getFreePage_eq_none {f : Frames} : f.getFreePage = none ↔ f.free = [] := by
  unfold getFreePage
  split <;> simp_all

theorem Consistent.getFreePage {f f' : Frames} {pfn : ℕ} (hf : f.Consistent)
    (h : f.getFreePage = some (pfn, f')) : f'.Consistent := by
  obtain ⟨hfree, hf'⟩ := getFreePage_eq_some h
  have hmem : pfn ∈ f.free := by rw [hfree]; exact mem_cons_self
  have hnodup := hf.nodup
  rw [hfree, nodup_cons] at hnodup
  have hsub : ∀ other ∈ f'.free, other ∈ f.free := fun other hother => by
    rw [hfree]; exact mem_cons_of_mem _ hother
  have hnr : f'.nrPages = f.nrPages := by rw [hf']; rfl
  have hmap : f'.memMap = update f.memMap pfn 1 := by rw [hf']; rfl
  refine ⟨hnodup.2, fun other hother => hnr ▸ hf.managed other (hsub other hother),
    fun other hother => ?_, fun other hother hreserved => ?_⟩
  all_goals rw [hnr] at hother
  · rw [hmap]
    by_cases hother' : other = pfn
    · subst hother'
      simp [hnodup.1]
    · rw [update_of_ne hother', ← hf.mem_iff other hother, hfree, mem_cons]
      exact ⟨.inr, fun h => h.resolve_left hother'⟩
  · by_cases hother' : other = pfn
    · exact hother' ▸ hf.above hmem
    · rw [hmap, update_of_ne hother'] at hreserved
      exact hf.usable other hother hreserved

/-- The entry of one frame that is not reserved changes, and the list with it. -/
theorem Consistent.setEntry {f : Frames} (hf : f.Consistent) {pfn entry : ℕ}
    (hmanaged : pfn < f.nrPages) (hreserved : isReserved (f.memMap pfn) = false)
    {free : List ℕ} {pageRef : ℕ → ℕ} (hnodup : free.Nodup)
    (hself : pfn ∈ free ↔ entry = 0) (hother : ∀ other ≠ pfn, other ∈ free ↔ other ∈ f.free) :
    Consistent ⟨free, update f.memMap pfn entry, pageRef, f.nrPages⟩ := by
  refine ⟨hnodup, fun other hmem => ?_, fun other hlt => ?_, fun other hlt hother' => ?_⟩
  · by_cases heq : other = pfn
    · exact heq ▸ hmanaged
    · exact hf.managed other ((hother other heq).mp hmem)
  · by_cases heq : other = pfn
    · subst heq
      simpa using hself
    · simp only [update_of_ne heq]
      exact (hother other heq).trans (hf.mem_iff other hlt)
  · by_cases heq : other = pfn
    · exact heq ▸ hf.usable pfn hmanaged hreserved
    · simp only [update_of_ne heq] at hother'
      exact hf.usable other hlt hother'

theorem Consistent.freePage {f : Frames} (hf : f.Consistent) (pfn : ℕ) :
    (f.freePage pfn).Consistent := by
  unfold Frames.freePage
  split
  · exact hf
  next hmanaged =>
  split
  · exact hf
  next hheld =>
  split
  · exact hf
  next hreserved =>
  have hlt : pfn < f.nrPages := not_le.mp hmanaged
  have hmem : pfn ∉ f.free := fun h => hheld ((hf.mem_iff pfn hlt).mp h)
  split
  · refine hf.setEntry hlt (by simpa using hreserved) (nodup_cons.mpr ⟨hmem, hf.nodup⟩)
      (by simp) fun other hother => ?_
    rw [mem_cons, or_iff_right hother]
  · refine hf.setEntry hlt (by simpa using hreserved) hf.nodup ?_ fun _ _ => Iff.rfl
    exact ⟨fun h => absurd h hmem, fun h => by omega⟩

theorem Consistent.getPage {f : Frames} (hf : f.Consistent) {pfn : ℕ} (hheld : f.memMap pfn ≠ 0) :
    (f.getPage pfn).Consistent := by
  unfold Frames.getPage
  split
  · exact hf
  next hmanaged =>
  split
  · exact hf
  · next hreserved =>
    have hlt : pfn < f.nrPages := not_le.mp hmanaged
    have hmem : pfn ∉ f.free := fun h => hheld ((hf.mem_iff pfn hlt).mp h)
    refine hf.setEntry hlt (by simpa using hreserved) hf.nodup ?_ fun _ _ => Iff.rfl
    simp [hmem]

end Frames

namespace PageAlloc

/-! ## The code's state and the frames it stands for -/

/-- The state `s` holds exactly the frames `f`: its list is threaded through the
free pages, which carry the cookie and the mirrored link, its counter is the
length of the list, and its tables are those of `f`. -/
structure Represents (s : State) (f : Frames) : Prop where
  threaded : Threaded s.word 0 s.freePageList (f.free.map (· * 4096))
  cookie : ∀ pfn ∈ f.free, s.word (pfn * 4096 + 8) = freeCookie
  mirror : ∀ pfn ∈ f.free, s.word (pfn * 4096 + 16) = complement (s.word (pfn * 4096))
  count : s.nrFreePages = f.free.length
  memMap : s.memMap = f.memMap
  pageRef : s.pageRef = f.pageRef
  high : s.highMemory = f.nrPages * 4096
  memMapLen : s.memMapLen = f.nrPages
  refLen : s.refLen = f.nrPages
  memMapBase : s.memMapBase ≠ 0
  refBase : s.refBase ≠ 0
  guards : guardsIntact s = true

variable {s : State} {f : Frames} {debug : Bool}

theorem Represents.mmEnt (h : Represents s f) {nr : ℕ} (hnr : nr < f.nrPages) :
    mmEnt s nr = .ok (f.memMap nr) := by
  simp [PageAlloc.mmEnt, h.memMapBase, h.memMapLen, hnr, h.memMap]

/-- The state after the first page of the list was taken: unlinked, its cookie
wiped, its counts set to one. -/
def taken (s : State) (pfn : ℕ) : State :=
  { s with
    word := update s.word (pfn * 4096 + 8) 0
    memMap := update s.memMap pfn 1
    pageRef := update s.pageRef pfn (setCount 1 (s.pageRef pfn))
    freePageList := s.word (pfn * 4096)
    nrFreePages := s.nrFreePages - 1 }

/-- The state after a page whose last hold is gone was put back. -/
def pushed (s : State) (pfn : ℕ) : State :=
  { s with
    word := update (update (update s.word (pfn * 4096) s.freePageList)
      (pfn * 4096 + 8) freeCookie) (pfn * 4096 + 16) (complement s.freePageList)
    freePageList := pfn * 4096 }

theorem page_div {pfn k : ℕ} (hk : k < 4096) : (pfn * 4096 + k) / 4096 = pfn := by
  omega

theorem getFreePageLocked_empty (debug : Bool) (h : Represents s f) (hfree : f.free = []) :
    getFreePageLocked debug s = .ok (0, s) := by
  have hthreaded := h.threaded
  have hcount := h.count
  rw [hfree] at hthreaded hcount
  have hhead : s.freePageList = 0 := hthreaded
  simp [getFreePageLocked, h.guards, hhead, hcount]

/-- Taking a page of a non-empty list meets every assertion of the source. -/
theorem getFreePageLocked_eq (h : Represents s f) (hf : f.Consistent) {pfn : ℕ} {rest : List ℕ}
    (hfree : f.free = pfn :: rest) : getFreePageLocked debug s = .ok (pfn * 4096, taken s pfn) := by
  have hmem : pfn ∈ f.free := by rw [hfree]; exact mem_cons_self
  have habove := hf.above hmem
  have hmanaged := hf.managed pfn hmem
  have hentry : f.memMap pfn = 0 := (hf.mem_iff pfn hmanaged).mp hmem
  have hhead : s.freePageList = pfn * 4096 := by
    have := h.threaded
    rw [hfree] at this
    exact this.1
  have hnr : mapNr (pfn * 4096) = pfn := by unfold mapNr; omega
  have hbad : ¬ (pfn * 4096 % pageSize ≠ 0 ∨ s.highMemory ≤ pfn * 4096 ∨
      pfn * 4096 < minUsablePhys) := by
    have := h.high
    simp only [minUsablePhys, pageSize]
    omega
  have hslot : ¬ (s.refBase = 0 ∨ s.refLen ≤ pfn) := by
    have := h.refBase
    have := h.refLen
    omega
  have hent : mmEnt { s with
      freePageList := s.word (pfn * 4096)
      nrFreePages := s.nrFreePages - 1 } pfn = .ok 0 := by
    simp [mmEnt, h.memMapBase, h.memMapLen, hmanaged, h.memMap, hentry]
  simp only [getFreePageLocked, h.guards, hhead, hnr]
  rw [if_neg (by simp), if_neg (by omega), if_neg hbad, if_neg (by simp [h.mirror pfn hmem]),
    if_neg (by simp [h.cookie pfn hmem]), hent]
  simp [pageRefSet, setEnt, hslot, taken]

/-- A memory that agrees on the first three words of the free pages still
threads the same list. -/
theorem Represents.of_word (h : Represents s f) {word : ℕ → ℕ}
    (hsame : ∀ addr, addr / 4096 ∈ f.free → word addr = s.word addr) :
    Represents { s with word := word } f where
  threaded := by
    refine h.threaded.congr fun node hnode => ?_
    obtain ⟨pfn, hpfn, rfl⟩ := mem_map.mp hnode
    exact hsame _ (by rwa [Nat.mul_div_cancel _ (by omega)])
  cookie := fun pfn hpfn => (hsame _ (by rwa [page_div (by omega)])).trans (h.cookie pfn hpfn)
  mirror := fun pfn hpfn => by
    refine (hsame _ (by rwa [page_div (by omega)])).trans ((h.mirror pfn hpfn).trans ?_)
    exact congrArg complement (hsame _ (by rwa [Nat.mul_div_cancel _ (by omega)])).symm
  count := h.count
  memMap := h.memMap
  pageRef := h.pageRef
  high := h.high
  memMapLen := h.memMapLen
  refLen := h.refLen
  memMapBase := h.memMapBase
  refBase := h.refBase
  guards := h.guards

/-- Taking a page hands out the first free frame. -/
theorem getFreePageLocked_represents (debug : Bool) (h : Represents s f) (hf : f.Consistent)
    {pfn : ℕ} {f' : Frames} (hget : f.getFreePage = some (pfn, f')) :
    getFreePageLocked debug s = .ok (pfn * 4096, taken s pfn) ∧ Represents (taken s pfn) f' := by
  obtain ⟨hfree, hf'⟩ := Frames.getFreePage_eq_some hget
  refine ⟨getFreePageLocked_eq h hf hfree, ?_⟩
  have hnodup := hf.nodup
  rw [hfree, nodup_cons] at hnodup
  have hmemrest : ∀ other ∈ f'.free, other ∈ f.free := fun other hother => by
    rw [hfree]; exact mem_cons_of_mem _ hother
  -- the wiped cookie is outside the remaining list
  have hkeep : ∀ addr, addr / 4096 ∈ f'.free → (taken s pfn).word addr = s.word addr := by
    intro addr haddr
    have : addr / 4096 ≠ pfn := fun heq => hnodup.1 (heq ▸ haddr)
    exact update_of_ne (by omega) _ _
  have hthreaded := h.threaded
  rw [hfree] at hthreaded
  constructor
  · refine hthreaded.2.2.congr fun node hnode => ?_
    obtain ⟨other, hother, rfl⟩ := mem_map.mp hnode
    exact hkeep _ (by rwa [Nat.mul_div_cancel _ (by omega)])
  · intro other hother
    exact (hkeep _ (by rwa [page_div (by omega)])).trans (h.cookie other (hmemrest other hother))
  · intro other hother
    refine (hkeep _ (by rwa [page_div (by omega)])).trans
      ((h.mirror other (hmemrest other hother)).trans ?_)
    exact congrArg complement (hkeep _ (by rwa [Nat.mul_div_cancel _ (by omega)])).symm
  · simp [taken, h.count, hfree]
  · rw [hf']; simp [taken, h.memMap, Frames.setCounts]
  · rw [hf']; simp [taken, h.pageRef, Frames.setCounts]
  · rw [hf']; exact h.high
  · rw [hf']; exact h.memMapLen
  · rw [hf']; exact h.refLen
  · exact h.memMapBase
  · exact h.refBase
  · exact h.guards

/-- Putting a page on the list, whatever the free-page counter is before. -/
theorem pushFree_represents {free : ℕ} (h : Represents { s with nrFreePages := free } f)
    {pfn : ℕ} (habove : 256 ≤ pfn)
    (hmanaged : pfn < f.nrPages) (hmem : pfn ∉ f.free)
    (hcookie : debug = true → s.word (pfn * 4096 + 8) ≠ freeCookie) :
    pushFree debug s (pfn * 4096) = .ok (pushed s pfn) ∧
      Represents { pushed s pfn with nrFreePages := free + 1 }
        { f with free := pfn :: f.free } := by
  have hgood : pfn * 4096 % pageSize = 0 ∧ minUsablePhys ≤ pfn * 4096 ∧
      pfn * 4096 < s.highMemory := by
    have : s.highMemory = f.nrPages * 4096 := h.high
    simp only [minUsablePhys, pageSize]
    omega
  have hkeep : ∀ addr, addr / 4096 ∈ f.free → (pushed s pfn).word addr = s.word addr := by
    intro addr haddr
    have : addr / 4096 ≠ pfn := fun heq => hmem (heq ▸ haddr)
    simp only [pushed]
    rw [update_of_ne (by omega), update_of_ne (by omega),
      update_of_ne (by omega)]
  have hlink : (pushed s pfn).word (pfn * 4096) = s.freePageList := by
    simp only [pushed]
    rw [update_of_ne (by omega), update_of_ne (by omega), update_self]
  have hcookie' : (pushed s pfn).word (pfn * 4096 + 8) = freeCookie := by
    simp only [pushed]
    rw [update_of_ne (by omega), update_self]
  have hmirror : (pushed s pfn).word (pfn * 4096 + 16) = complement s.freePageList :=
    update_self _ _ _
  have hthreaded : Threaded (pushed s pfn).word 0 (pfn * 4096)
      (pfn * 4096 :: f.free.map (· * 4096)) := by
    refine h.threaded.push (by omega) hlink fun node hnode => ?_
    obtain ⟨other, hother, rfl⟩ := mem_map.mp hnode
    exact hkeep _ (by rwa [Nat.mul_div_cancel _ (by omega)])
  constructor
  · have hguards : guardsIntact s = true := h.guards
    simp only [pushFree, hguards]
    rw [if_neg (by simp), if_neg (by simpa using hgood), if_neg (by simpa using hcookie)]
    rfl
  constructor
  · exact hthreaded
  · intro other hother
    dsimp only
    rcases mem_cons.mp hother with heq | hother
    · rw [heq, hcookie']
    · exact (hkeep _ (by rwa [page_div (by omega)])).trans (h.cookie other hother)
  · intro other hother
    dsimp only
    rcases mem_cons.mp hother with heq | hother
    · rw [heq, hmirror, hlink]
    · refine (hkeep _ (by rwa [page_div (by omega)])).trans ((h.mirror other hother).trans ?_)
      exact congrArg complement (hkeep _ (by rwa [Nat.mul_div_cancel _ (by omega)])).symm
  · have : free = f.free.length := h.count
    simp [this]
  · exact h.memMap
  · exact h.pageRef
  · exact h.high
  · exact h.memMapLen
  · exact h.refLen
  · exact h.memMapBase
  · exact h.refBase
  · exact h.guards

theorem Represents.setEnt (h : Represents s f) (nr entry : ℕ) :
    Represents (setEnt s nr entry) { f with memMap := update f.memMap nr entry } :=
  { h with memMap := by simp [PageAlloc.setEnt, h.memMap] }

theorem Represents.pageRefSet (h : Represents s f) {pfn : ℕ} (hmanaged : pfn < f.nrPages)
    (count : ℕ) :
    Represents (pageRefSet s pfn count)
      { f with pageRef := update f.pageRef pfn (setCount count (f.pageRef pfn)) } := by
  have hslot : ¬ (s.refBase = 0 ∨ s.refLen ≤ pfn) := by
    have := h.refBase
    have := h.refLen
    omega
  rw [PageAlloc.pageRefSet, if_neg hslot]
  exact { h with pageRef := by simp [h.pageRef] }

@[simp]
theorem setEnt_memMap_self (nr entry : ℕ) : (setEnt s nr entry).memMap nr = entry :=
  update_self _ _ _

@[simp]
theorem pageRefSet_word (pfn count : ℕ) : (pageRefSet s pfn count).word = s.word := by
  unfold pageRefSet
  split_ifs <;> rfl

theorem Represents.lt_high (h : Represents s f) (addr : ℕ) :
    addr < s.highMemory ↔ mapNr addr < f.nrPages := by
  have := h.high
  unfold mapNr
  omega

/-- Freeing any address frees its frame.  A page about to enter the list must
lie above the low megabyte and must not already carry the cookie; only then is
anything written. -/
theorem freePageLocked_represents (debug : Bool) (h : Represents s f) (hf : f.Consistent)
    (addr : ℕ)
    (hlast : mapNr addr < f.nrPages → f.memMap (mapNr addr) = 1 →
      256 ≤ mapNr addr ∧ (debug = true → s.word (mapNr addr * 4096 + 8) ≠ freeCookie)) :
    ∃ s', freePageLocked debug s addr = .ok s' ∧ Represents s' (f.freePage (mapNr addr)) ∧
      ∀ a, (a / 4096 = mapNr addr → f.memMap (mapNr addr) ≠ 1) → s'.word a = s.word a := by
  have hbase := h.memMapBase
  unfold freePageLocked Frames.freePage
  by_cases hmanaged : mapNr addr < f.nrPages
  · have hlt := (h.lt_high addr).mpr hmanaged
    rw [if_neg (by omega), if_neg (by omega)]
    simp only [h.mmEnt hmanaged, setEnt_memMap_self]
    by_cases hzero : f.memMap (mapNr addr) = 0
    · exact ⟨s, by rw [if_pos hzero], by rwa [if_pos hzero], fun _ _ => rfl⟩
    by_cases hreserved : isReserved (f.memMap (mapNr addr)) = true
    · rw [if_neg hzero, if_pos hreserved, if_neg hzero, if_pos hreserved]
      exact ⟨s, rfl, h, fun _ _ => rfl⟩
    rw [if_neg hzero, if_neg hreserved, if_neg hzero, if_neg hreserved]
    by_cases hone : f.memMap (mapNr addr) = 1
    · -- the last hold goes: the entry becomes 0 and the page enters the list
      obtain ⟨habove, hcookie⟩ := hlast hmanaged hone
      have hmem : mapNr addr ∉ f.free := fun hin => hzero ((hf.mem_iff _ hmanaged).mp hin)
      obtain ⟨hpush, hrep⟩ := pushFree_represents (s := setEnt s (mapNr addr) 0)
        (h.setEnt (mapNr addr) 0) habove hmanaged hmem hcookie
      rw [pageBase_eq, hone, hpush]
      refine ⟨_, rfl, hrep.pageRefSet hmanaged 0, fun a ha => ?_⟩
      rw [pageRefSet_word]
      simp only [pushed]
      rw [update_of_ne (by omega), update_of_ne (by omega),
        update_of_ne (by omega)]
      rfl
    · rw [if_neg (by omega), if_neg hone]
      exact ⟨_, rfl, h.setEnt _ _, fun _ _ => rfl⟩
  · have hlt := (h.lt_high addr).not.mpr hmanaged
    rw [if_pos (by omega), if_pos (by omega)]
    exact ⟨s, rfl, h, fun _ _ => rfl⟩

/-- Another hold on the page of any address. -/
theorem getPage_represents (h : Represents s f) (addr : ℕ) :
    ∃ s', getPage s addr = .ok s' ∧ Represents s' (f.getPage (mapNr addr)) ∧ s'.word = s.word := by
  have hbase := h.memMapBase
  unfold getPage Frames.getPage
  by_cases hmanaged : mapNr addr < f.nrPages
  · have hlt := (h.lt_high addr).mpr hmanaged
    rw [if_neg (by omega), if_neg (by omega)]
    simp only [h.mmEnt hmanaged]
    split_ifs with hreserved
    · exact ⟨s, rfl, h, rfl⟩
    · exact ⟨_, rfl, h.setEnt _ _, rfl⟩
  · have hlt := (h.lt_high addr).not.mpr hmanaged
    rw [if_pos (by omega), if_pos (by omega)]
    exact ⟨s, rfl, h, rfl⟩

end PageAlloc

end Shitix
