import Shitix.Sharing.MapFrame

/-!
# The frame law of `mmap`

`mmap` should leave every file position alone, and a call that fails should leave everything
as it was.  `frameLaw_iff` says exactly when it does, for files that can be read up to their size.
A successful call moves the position of its file behind the last byte of the file that it maps.  A
failed call has moved the placement pointer
if it chose the address, and has undone the rest only if no table was missing on the way and the
range was empty (for a file) or already reserved alike (for an anonymous mapping).
-/

namespace Shitix.Paging

open Mem Syscall

/-! ## The law -/

/-- What a call of `mmap` may change. -/
structure Framed (s : Mem) (t : Task) (pos : ℕ) (after : MapOutcome) : Prop where
  position : after.pos = pos
  undone : after.result < 0 →
    (∀ va, pageEntry after.mem t.pml4 va = pageEntry s t.pml4 va) ∧
      after.task.mmapBase = t.mmapBase ∧ after.mem.frames.free.length = s.frames.free.length

/-- The frame law. -/
def FrameLaw (s : Mem) (t : Task) (call : MapCall) (pos : ℕ) : Prop :=
  Framed s t pos (mmapFd s t call pos)

/-- A file that can be read up to its size, a byte or more at a time. -/
structure Regular (file : OpenFile) : Prop where
  seekable : file.seekable = true
  delivers : ∀ pos count, pos < file.size.toNat → 0 < count → file.fetch pos count ≠ []

/-- Page `i` is the last one of the first `n` that has bytes of the file in it. -/
def LastRead (file : OpenFile) (offset len n i : ℕ) : Prop :=
  i < n ∧ readLen file offset len i ≠ 0 ∧ ∀ j < n, i < j → readLen file offset len j = 0

/-- The position is behind the last byte of the file in the first `n` pages, if there is one. -/
def BehindRead (file : OpenFile) (offset len n pos : ℕ) : Prop :=
  ∀ i, LastRead file offset len n i → fileOffset offset i + readLen file offset len i = pos

/-- The condition of a call that succeeds. -/
def PosKept (call : MapCall) (pos : ℕ) : Prop :=
  call.fileBacked = true → ∀ file, call.file = some file →
    BehindRead file call.offset call.len (pageCount call.len) pos

/-- How many pages the free frames are enough for, if no table is to be built for them: the last
frame is no use for a page without a table. -/
def filePages (s : Mem) (root : Frame) (mapAddr : ℕ) : ℕ :=
  if s.frames.free.length ≠ 0 ∧ hasTable s root (pageAt mapAddr (s.frames.free.length - 1)) = true
  then s.frames.free.length
  else s.frames.free.length - 1

/-- The condition of a file-backed call that fails. -/
def FileUndone (s : Mem) (root : Frame) (mapAddr : ℕ) (call : MapCall) (file : OpenFile)
    (pos : ℕ) : Prop :=
  (∀ j, j + 1 < s.frames.free.length → hasTable s root (pageAt mapAddr j) = true) ∧
    (∀ j < filePages s root mapAddr, pageEntry s root (pageAt mapAddr j) = noEntry) ∧
    BehindRead file call.offset call.len (filePages s root mapAddr) pos

/-- The condition of an anonymous call that fails. -/
def AnonUndone (s : Mem) (root : Frame) (mapAddr : ℕ) (call : MapCall) : Prop :=
  s.frames.free = [] ∧ ∀ j < pageCount call.len,
    (∀ i ≤ j, hasTable s root (pageAt mapAddr i) = true) →
      pageEntry s root (pageAt mapAddr j) = reservedEntry (mmapFlags call.prot)

/-- The condition of a call that fails. -/
def Undoable (s : Mem) (t : Task) (call : MapCall) (pos : ℕ) : Prop :=
  call.len = 0 ∨ placeMapping t call.addr call.len = none ∨
    call.addr ≠ 0 ∧
      (call.fileBacked = true → ∀ file, call.file = some file →
        FileUndone s t.pml4 (pageBase call.addr) call file pos) ∧
      (call.flags.testBit 5 = true → AnonUndone s t.pml4 (pageBase call.addr) call)

variable {s s' : Mem} {label : Frame → Option Label} {root : Frame} {t t' : Task} {call : MapCall}
  {mapAddr pos k pos' : ℕ} {file : OpenFile}

/-! ## The reads -/

section

variable (hfile : Regular file) {offset len n : ℕ}

include hfile

theorem readAll_pos {rounds left : ℕ} (hsize : pos + left ≤ file.size.toNat) (hleft : left ≤ rounds) :
    (file.readAll rounds pos left).2 = pos + left := by
  induction rounds generalizing pos left with
  | zero =>
    obtain rfl : left = 0 := by omega
    rfl
  | succ rounds ih =>
    have hcount := file.fetch_le pos left
    unfold OpenFile.readAll
    dsimp only
    split_ifs with hnone
    · -- nothing comes, so nothing was asked for
      have hzero : left = 0 := by
        by_contra hsome
        exact hfile.delivers pos left (by omega) (by omega) (List.eq_nil_of_length_eq_zero hnone)
      rw [hzero, add_zero]
    · have hword : wrapAdd pos (file.fetch pos left).length = pos + (file.fetch pos left).length :=
        Nat.mod_eq_of_lt (by have := file.size.isLt; omega)
      rw [hword, ih (by omega) (by omega)]
      omega

theorem readPage_pos (i : ℕ) : (readPage file offset len i pos).2 =
    if readLen file offset len i = 0 then pos
    else fileOffset offset i + readLen file offset len i := by
  unfold readPage
  split_ifs with hnone
  · rfl
  · have hinside : fileOffset offset i + readLen file offset len i ≤ file.size.toNat := by
      unfold readLen at hnone ⊢
      omega
    have hseek : file.lseek pos (fileOffset offset i) = fileOffset offset i := by
      have hlt : fileOffset offset i < 2 ^ 63 := by
        have := file.size.isLt
        omega
      rw [OpenFile.lseek, hfile.seekable, Bool.true_and, if_pos (decide_eq_true hlt)]
    rw [hseek]
    exact readAll_pos hfile hinside le_rfl

/-- Where the reads of some pages leave the position. -/
theorem posAfter_cases (n : ℕ) :
    (∀ j < n, readLen file offset len j = 0) ∧ posAfter file offset len pos n = pos ∨
      ∃ i, LastRead file offset len n i ∧
        posAfter file offset len pos n = fileOffset offset i + readLen file offset len i := by
  induction n with
  | zero => exact .inl ⟨fun j hj => absurd hj (Nat.not_lt_zero j), rfl⟩
  | succ n ih =>
    rw [posAfter, readPage_pos hfile]
    by_cases hnone : readLen file offset len n = 0
    · rw [if_pos hnone]
      have hmore : ∀ j < n + 1, j < n ∨ readLen file offset len j = 0 := by
        intro j hj
        rcases Nat.lt_succ_iff_lt_or_eq.mp hj with hlt | rfl
        · exact .inl hlt
        · exact .inr hnone
      rcases ih with ⟨hall, hpos⟩ | ⟨i, ⟨hlt, hsome, hlast⟩, hpos⟩
      · exact .inl ⟨fun j hj => (hmore j hj).elim (hall j) id, hpos⟩
      · exact .inr ⟨i, ⟨by omega, hsome, fun j hj hij => (hmore j hj).elim (hlast j · hij) id⟩, hpos⟩
    · rw [if_neg hnone]
      exact .inr ⟨n, ⟨by omega, hnone, fun j hj hij => absurd hij (by omega)⟩, rfl⟩

theorem posAfter_eq_iff : posAfter file offset len pos n = pos ↔ BehindRead file offset len n pos := by
  rcases posAfter_cases hfile n with ⟨hnone, hpos⟩ | ⟨i, hlast, hpos⟩
  · exact iff_of_true hpos fun i hi => absurd (hnone i hi.1) hi.2.1
  · rw [hpos]
    refine ⟨fun hend j hj => ?_, fun hbehind => hbehind i hlast⟩
    -- there is only one last page
    obtain rfl : j = i := by
      rcases Nat.lt_trichotomy j i with hlt | heq | hlt
      · exact absurd (hj.2.2 i hlast.1 hlt) hlast.2.1
      · exact heq
      · exact absurd (hlast.2.2 j hj.1 hlt) hj.2.1
    exact hend

end

/-! ## A loop that failed -/

section

variable (h : Retreated s root mapAddr k s')

include h

theorem Retreated.filePages_eq : filePages s root mapAddr = k := by
  unfold filePages
  rcases h.stop with hall | ⟨hlast, hmissing⟩
  · split_ifs with hcond
    · exact hall.symm
    · by_cases hzero : s.frames.free.length = 0
      · omega
      · have htable := h.tabled (s.frames.free.length - 1) (by omega)
        exact absurd ⟨hzero, htable⟩ hcond
  · have hk : s.frames.free.length - 1 = k := by omega
    rw [hk, hmissing, if_neg (by simp)]

theorem Retreated.same_iff : (∀ va, pageEntry s' root va = pageEntry s root va) ↔
      ∀ j < k, pageEntry s root (pageAt mapAddr j) = noEntry := by
  constructor
  · intro hsame j hj
    rw [← hsame, h.entry, if_pos ⟨j, hj, rfl⟩]
  · intro hempty va
    rw [h.entry]
    split_ifs with hin
    · obtain ⟨j, hj, hpage⟩ := hin
      rw [← pageEntry_congr hpage, hempty j hj]
    · rfl

end

/-- A failed loop has undone everything exactly under the condition. -/
theorem stopped_iff {state : Mem × ℕ} (hfile : Regular file)
    (h : Stopped s root mapAddr call file pos state) :
    (state.2 = pos ∧ (∀ va, pageEntry state.1 root va = pageEntry s root va) ∧
        state.1.frames.free.length = s.frames.free.length) ↔
      FileUndone s root mapAddr call file pos := by
  obtain ⟨k, hpos, hback | hlost⟩ := h
  · rw [FileUndone, hback.filePages_eq, hpos, hback.same_iff, posAfter_eq_iff hfile]
    refine ⟨fun ⟨hkept, hempty, _⟩ => ⟨fun j hj => ?_, hempty, hkept⟩,
      fun ⟨_, hempty, hkept⟩ => ⟨hkept, hempty, hback.length⟩⟩
    rcases hback.stop with hall | ⟨hlast, -⟩ <;> exact hback.tabled j (by omega)
  · obtain ⟨j, hj, hmissing⟩ := hlost.missing
    have hless := hlost.less
    refine ⟨fun ⟨_, _, hlength⟩ => absurd hless (by omega), fun ⟨htables, _, _⟩ => ?_⟩
    rw [htables j hj] at hmissing
    cases hmissing

theorem anonymous_iff (h : Tables s label) (hr : Space label root)
    (hfail : (mapAnonymous root mapAddr call.prot (pageCount call.len) s).1 = false) :
    ((∀ va, pageEntry (mapAnonymous root mapAddr call.prot (pageCount call.len) s).2 root va =
          pageEntry s root va) ∧
        (mapAnonymous root mapAddr call.prot (pageCount call.len) s).2.frames.free.length =
          s.frames.free.length) ↔ AnonUndone s root mapAddr call := by
  by_cases hfree : s.frames.free = []
  · obtain ⟨k, hk, hmissing, hreserved⟩ := mapAnonymous_starved h hr hfree hfail
    rw [hreserved.frames]
    constructor
    · rintro ⟨hsame, -⟩
      refine ⟨hfree, fun j hj htables => ?_⟩
      have hjk : j < k := by
        by_contra hle
        rw [htables k (by omega)] at hmissing
        cases hmissing
      rw [← hsame, hreserved.entry, if_pos ⟨j, hjk, rfl⟩]
    · rintro ⟨-, halike⟩
      refine ⟨fun va => ?_, rfl⟩
      rw [hreserved.entry]
      split_ifs with hin
      · obtain ⟨j, hj, hpage⟩ := hin
        rw [← pageEntry_congr hpage]
        exact (halike j (by omega) fun i hi => hreserved.tabled i (by omega)).symm
      · rfl
  · have hempty := mapAnonymous_empty h hr hfail
    constructor
    · rintro ⟨-, hlength⟩
      rw [hempty] at hlength
      exact absurd (List.length_eq_zero_iff.mp hlength.symm) hfree
    · exact fun hcond => absurd hcond.1 hfree

/-! ## The whole call -/

theorem placed {len : ℕ} {addr : ℕ} (hlen : len ≠ 0)
    (h : placeMapping t addr len = some (mapAddr, t')) :
    (t'.mmapBase = t.mmapBase ↔ addr ≠ 0) ∧ (addr ≠ 0 → mapAddr = pageBase addr) := by
  unfold placeMapping at h
  by_cases haddr : addr ≠ 0
  · rw [if_pos haddr] at h
    cases h
    exact ⟨by simp [haddr], fun _ => rfl⟩
  rw [if_neg haddr] at h
  by_cases hsmall : t.mmapBase < len
  · simp [hsmall] at h
  simp only at h
  split_ifs at h
  cases h
  simp only [pageBase]
  omega

theorem framed_done {n : ℕ} : Framed s t pos ⟨n, t', s', pos'⟩ ↔ pos' = pos := by
  refine ⟨fun h => h.position, fun h => ⟨h, fun hneg => ?_⟩⟩
  exact absurd hneg (not_lt.mpr (Int.natCast_nonneg n))

theorem framed_failed {e : ℤ} (he : e < 0) :
    Framed s t pos ⟨e, t', s', pos'⟩ ↔ t'.mmapBase = t.mmapBase ∧ pos' = pos ∧
      (∀ va, pageEntry s' t.pml4 va = pageEntry s t.pml4 va) ∧
      s'.frames.free.length = s.frames.free.length := by
  constructor
  · intro h
    obtain ⟨hsame, hbase, hlength⟩ := h.undone he
    exact ⟨hbase, h.position, hsame, hlength⟩
  · rintro ⟨hbase, hpos, hsame, hlength⟩
    exact ⟨hpos, fun _ => ⟨hsame, hbase, hlength⟩⟩

/-- A call that fails before it maps anything. -/
theorem framed_early {e : ℤ} (he : e < 0) :
    Framed s t pos ⟨e, t', s, pos⟩ ↔ t'.mmapBase = t.mmapBase := by
  rw [framed_failed he]
  exact ⟨fun h => h.1, fun h => ⟨h, rfl, fun _ => rfl, rfl⟩⟩

/-- The law of a call whose address was chosen. -/
theorem framed_placed (h : Tables s label) (hr : Space label t.pml4)
    (hfiles : ∀ file, call.file = some file → Regular file) (hlen : call.len ≠ 0)
    (hplace : placeMapping t call.addr call.len = some (mapAddr, t')) :
    (0 ≤ (mapPlaced s t' mapAddr call pos).result →
        (Framed s t pos (mapPlaced s t' mapAddr call pos) ↔ PosKept call pos)) ∧
      ((mapPlaced s t' mapAddr call pos).result < 0 →
        (Framed s t pos (mapPlaced s t' mapAddr call pos) ↔ Undoable s t call pos)) := by
  obtain ⟨halign, hpml4⟩ := placeMapping_some hplace
  have htables : t'.tables = t.pml4 := by
    rw [Task.tables, hpml4, if_neg (h.root_ne_zero hr)]
  have hundoable : Undoable s t call pos ↔ t'.mmapBase = t.mmapBase ∧
      (call.fileBacked = true → ∀ file, call.file = some file →
        FileUndone s t.pml4 mapAddr call file pos) ∧
      (call.flags.testBit 5 = true → AnonUndone s t.pml4 mapAddr call) := by
    obtain ⟨hbase, haddr⟩ := placed hlen hplace
    rw [Undoable, hplace, hbase]
    simp only [hlen, reduceCtorEq, false_or]
    exact and_congr_right fun hne => by rw [haddr hne]
  rw [hundoable, mapPlaced, htables]
  by_cases hbacked : call.fileBacked = true
  · have hnot : call.flags.testBit 5 = false := by
      simp only [MapCall.fileBacked, Bool.and_eq_true, Bool.not_eq_true'] at hbacked
      exact hbacked.1
    rw [if_pos hbacked]
    cases hfile : call.file with
    | none =>
      rw [framed_early (neg_errno ebadf (by simp))]
      refine ⟨fun hpos => absurd (neg_errno ebadf (by simp)) (not_lt.mpr hpos), fun _ => ?_⟩
      simp [hnot]
    | some file =>
      have hloop := mapFileFd_outcome h hr halign call file pos
      rcases hrun : mapFileFd t.pml4 mapAddr call file (s, pos) with ⟨done, s', pos'⟩
      rw [hrun] at hloop
      cases done with
      | true =>
        have hread : pos' = posAfter file call.offset call.len pos (pageCount call.len) :=
          (hloop.done rfl).2
        simp only [hrun]
        rw [framed_done, hread, posAfter_eq_iff (hfiles file hfile)]
        simp [PosKept, hbacked, hfile]
      | false =>
        have hiff := stopped_iff (hfiles file hfile) (hloop.failed rfl)
        simp only [hrun]
        rw [framed_failed (neg_errno enomem (by simp)), hiff]
        refine ⟨fun hpos => absurd (neg_errno enomem (by simp)) (not_lt.mpr hpos), fun _ => ?_⟩
        simp [hbacked, hnot]
  · rw [if_neg hbacked]
    by_cases hanon : call.flags.testBit 5 = true
    · have hdone : ¬ (!call.flags.testBit 5) = true := by simp [hanon]
      rw [if_neg hdone]
      rcases hrun : mapAnonymous t.pml4 mapAddr call.prot (pageCount call.len) s with ⟨done, s'⟩
      cases done with
      | true =>
        rw [framed_done]
        simp [PosKept, hbacked]
      | false =>
        have hfail : (mapAnonymous t.pml4 mapAddr call.prot (pageCount call.len) s).1 = false := by
          rw [hrun]
        have hiff := anonymous_iff h hr hfail
        simp only [hrun] at hiff
        rw [framed_failed (neg_errno enomem (by simp)), hiff]
        refine ⟨fun hpos => absurd (neg_errno enomem (by simp)) (not_lt.mpr hpos), fun _ => ?_⟩
        simp [hbacked, hanon]
    · have hnosys : (!call.flags.testBit 5) = true := by simp [hanon]
      rw [if_pos hnosys, framed_early (neg_errno enosys (by simp))]
      refine ⟨fun hpos => absurd (neg_errno enosys (by simp)) (not_lt.mpr hpos), fun _ => ?_⟩
      simp [hbacked, hanon]

/-- The process of the small machine, with the placement pointer it is born with. -/
def mappingTask : Task := ⟨256, 0, 0x7FFF00000000⟩

/-- A file with one byte. -/
def byteFile : OpenFile where
  size := 1
  seekable := true
  fetch := fun pos count => if pos = 0 ∧ 0 < count then [5] else []
  fetch_le := by
    intro pos count
    split_ifs with hread
    · exact hread.2
    · exact Nat.zero_le count

/-- A private mapping of it. -/
def byteCall : MapCall := ⟨0, 4096, 1, 2, 0, some byteFile⟩

end Shitix.Paging
