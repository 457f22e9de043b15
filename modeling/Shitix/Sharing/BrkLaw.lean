import Shitix.Sharing.Heap

/-!
# The law of `brk`

`BrkLaw` says what a call may do: a growing call makes the pages up to the new break usable, with
zeros in them; a shrinking call takes the pages above the new break away and gives up their
frames; nothing else changes; a call that fails for want of memory changes nothing; and rounding up
does not overflow.

The code rounds the upper end of its range up twice, so it visits the first page above the break
as well.  It does not look at reserved pages when it shrinks, frees shared frames, and leaves the
pages it has reserved when memory runs out.  And it takes a huge page of the kernel for a table when
it looks for reserved pages, so a page may pass for reserved that is not.  `GrowFits`, `ShrinkFits`
and `FailFits` are the states and arguments where none of this shows.
-/

namespace Shitix.Paging

open Mem Syscall

/-- The break a call starts from. -/
def curBrk (t : Task) : ℕ := if t.brk = 0 then heapBase else t.brk

/-- The value of a system call in `rax`. -/
def returned (result : ℤ) : BitVec 64 := BitVec.ofInt 64 result

/-- The first page that starts at an address or above it. -/
def pageUp (addr : ℕ) : ℕ := (addr + 4095) / 4096 * 4096

/-- The pages that start between two addresses. -/
def heapPages (low high : ℕ) : List ℕ := pagesBetween (pageUp low) (pageUp high)

/-- The pages a growing call visits. -/
def growRange (t : Task) (newBrk : ℕ) : List ℕ :=
  pagesBetween (pageAlignW (curBrk t)) (pageAlignW (wrapAdd newBrk 4095))

/-- The pages a shrinking call visits. -/
def shrinkRange (t : Task) (newBrk : ℕ) : List ℕ :=
  pagesBetween (pageAlignW newBrk) (pageAlignW (wrapAdd (curBrk t) 4095))

/-- The pages a call is about, in a heap that starts at `start`. -/
def brkPages (start : ℕ) (t : Task) (newBrk : ℕ) : List ℕ :=
  if curBrk t < newBrk then heapPages (curBrk t) newBrk
  else heapPages (max newBrk start) (curBrk t)

/-- `page_align`, if its sum is a word. -/
def pageAlignChecked (addr : ℕ) : Option ℕ :=
  if addr + 4096 < 2 ^ 64 then some (pageAlignW addr) else none

/-- The ends of the range that a call visits, if all sums on the way are words. -/
def rangeChecked (low high : ℕ) : Option (ℕ × ℕ) :=
  match pageAlignChecked low, if high + 4096 < 2 ^ 64 then pageAlignChecked (high + 4095) else none with
  | some first, some stop => some (first, stop)
  | _, _ => none

/-- One mapping of the frame was given up: it is free, or counted once less. -/
def ReleasedOnce (s s' : Mem) (f : Frame) : Prop :=
  if s.pageRefCount f = 1 then s'.frames.memMap f.toNat = 0
  else s'.frames.memMap f.toNat = s.frames.memMap f.toNat ∧
    s'.pageRefCount f + 1 = s.pageRefCount f

/-- A byte user mode can use, and finds to be zero. -/
def ReadsZero (s : Mem) (pml4 : Frame) (va : ℕ) : Prop :=
  Accessible s pml4 va ∧ (isUserMapped s pml4 va = true ∨ s.frames.free ≠ [] →
    userByte (demandPage s pml4 va) pml4 va = some 0)

/-- The law, for a heap that starts at `start`. -/
structure BrkLaw (start : ℕ) (s : Mem) (t : Task) (newBrk : ℕ) : Prop where
  fits : newBrk ≠ 0 → newBrk ≠ t.brk →
    (rangeChecked (min (curBrk t) newBrk) (max (curBrk t) newBrk)).isSome
  grown : curBrk t < newBrk → returned (brk s t newBrk).1 = BitVec.ofNat 64 newBrk →
    ∀ va ∈ heapPages (curBrk t) newBrk, ∀ k < 4096,
      ReadsZero (brk s t newBrk).2.2 t.pml4 (va + k)
  shrunk : newBrk ≠ 0 → newBrk < curBrk t →
    ∀ va ∈ heapPages (max newBrk start) (curBrk t),
      ¬ Accessible (brk s t newBrk).2.2 t.pml4 va ∧
        ∀ f, userFrame (pageEntry s t.pml4 va) = some f → ReleasedOnce s (brk s t newBrk).2.2 f
  framed : returned (brk s t newBrk).1 = BitVec.ofNat 64 newBrk →
    ∀ va, (∀ w ∈ brkPages start t newBrk, vpage w ≠ vpage va) →
      pageEntry (brk s t newBrk).2.2 t.pml4 va = pageEntry s t.pml4 va
  undone : returned (brk s t newBrk).1 = returned (-enomem) →
    (brk s t newBrk).2.1.brk = t.brk ∧
      ∀ va, pageEntry (brk s t newBrk).2.2 t.pml4 va = pageEntry s t.pml4 va

/-! ## The conditions -/

/-- The pages of a range are in the lower half, and those below huge pages of the kernel are not
taken for reserved ones: the frame read as a table is in use, is no table of the process, and
has no such bit. -/
structure Readable (s : Mem) (pml4 : Frame) (pages : List ℕ) : Prop where
  low : ∀ w ∈ pages, LowerHalf w
  huge : ∀ w ∈ pages, ∀ e, walk s pml4 w = .huge2M e →
    s.frames.memMap e.frame.toNat ≠ 0 ∧ e.frame ∉ tablePages s pml4 ∧ isReserved s pml4 w = false

/-- What a growing call asks `is_reserved` about is read right. -/
def Legible (s : Mem) (t : Task) (newBrk : ℕ) : Prop :=
  curBrk t < newBrk → Readable s t.pml4 (growRange t newBrk)

/-- A growing call that succeeds meets the law. -/
structure GrowFits (s : Mem) (t : Task) (newBrk : ℕ) : Prop where
  legible : Legible s t newBrk
  fits : newBrk + 8191 < 2 ^ 64
  zero : ∀ va ∈ heapPages (curBrk t) newBrk, isUserMapped s t.pml4 va = true →
    ∀ k < 4096, userByte s t.pml4 (va + k) = some 0
  last : newBrk % 4096 = 1 ∨ Accessible s t.pml4 (pageUp newBrk)

/-- A growing call that runs out of memory meets the law: it does so at the first page it wants. -/
structure FailFits (s : Mem) (t : Task) (newBrk : ℕ) : Prop where
  legible : Legible s t newBrk
  fits : newBrk + 8191 < 2 ^ 64
  set : t.brk ≠ 0
  first : ∃ done va rest, growRange t newBrk = done ++ va :: rest ∧
    (∀ w ∈ done, Accessible s t.pml4 w) ∧ ¬ Accessible s t.pml4 va ∧
    (leafTable s t.pml4 va true).1 = none

/-- A shrinking call meets the law. -/
structure ShrinkFits (start : ℕ) (s : Mem) (t : Task) (newBrk : ℕ) : Prop where
  fits : curBrk t + 8191 < 2 ^ 64
  unreserved : ∀ va ∈ heapPages (max newBrk start) (curBrk t),
    (pageEntry s t.pml4 va).reserved = false
  unshared : ∀ va ∈ heapPages (max newBrk start) (curBrk t), ∀ f,
    userFrame (pageEntry s t.pml4 va) = some f → s.pageRefCount f = 1
  outside : ∀ w ∈ shrinkRange t newBrk,
    (∀ va ∈ heapPages (max newBrk start) (curBrk t), vpage va ≠ vpage w) →
      isUserMapped s t.pml4 w = false

/-- A call that does not run out of memory meets the law. -/
def BrkFits (start : ℕ) (s : Mem) (t : Task) (newBrk : ℕ) : Prop :=
  newBrk ≠ 0 → newBrk ≠ t.brk → (curBrk t < newBrk → GrowFits s t newBrk) ∧
    (newBrk ≤ curBrk t → ShrinkFits start s t newBrk)

variable {s s' : Mem} {live : List Frame} {label label' : Frame → Option Label} {origin : Frames}
  {t : Task} {start newBrk va w low high : ℕ}

/-! ## The ranges -/

theorem mem_heapPages : w ∈ heapPages low high ↔ w % 4096 = 0 ∧ low ≤ w ∧ w < high := by
  simp only [heapPages, pageUp, pagesBetween, List.mem_map, List.mem_range]
  constructor
  · omega
  · rintro ⟨halign, hle, hlt⟩
    exact ⟨(w - (low + 4095) / 4096 * 4096) / 4096, by omega, by omega⟩

/-- The range of the code, when rounding up does not overflow. -/
theorem pagesBetween_eq (hlow : low + 4095 < 2 ^ 64) (hhigh : high + 8191 < 2 ^ 64) :
    pagesBetween (pageAlignW low) (pageAlignW (wrapAdd high 4095)) =
      heapPages low (high + 4095) := by
  have hwrap : wrapAdd high 4095 = high + 4095 := Nat.mod_eq_of_lt (by omega)
  have hround : ∀ a, a + 4095 < 2 ^ 64 → pageAlignW a = pageUp a := by
    intro a ha
    rw [pageAlignW, wrapAdd, Nat.mod_eq_of_lt ha, pageUp]
  rw [hwrap, heapPages, hround low hlow, hround _ (by omega)]

theorem rangeChecked_isSome (hle : low ≤ high) :
    (rangeChecked low high).isSome ↔ high + 8191 < 2 ^ 64 := by
  unfold rangeChecked pageAlignChecked
  by_cases hhigh : high + 8191 < 2 ^ 64
  · rw [if_pos (by omega), if_pos (by omega), if_pos (by omega)]
    exact iff_of_true rfl hhigh
  · refine iff_of_false ?_ hhigh
    split_ifs <;> first | omega | simp

theorem mem_growRange (hcur : curBrk t < newBrk) (hfits : newBrk + 8191 < 2 ^ 64) :
    w ∈ growRange t newBrk ↔ w % 4096 = 0 ∧ curBrk t ≤ w ∧ w < newBrk + 4095 := by
  rw [growRange, pagesBetween_eq (by omega) hfits]
  exact mem_heapPages

theorem BrkLaw.below (h : BrkLaw start s t newBrk) (hzero : newBrk ≠ 0) (hsame : newBrk ≠ t.brk) :
    max (curBrk t) newBrk + 8191 < 2 ^ 64 :=
  (rangeChecked_isSome (min_le_max)).mp (h.fits hzero hsame)

theorem brkLaw_fits (hbelow : max (curBrk t) newBrk + 8191 < 2 ^ 64) (_ : newBrk ≠ 0)
    (_ : newBrk ≠ t.brk) : (rangeChecked (min (curBrk t) newBrk) (max (curBrk t) newBrk)).isSome :=
  (rangeChecked_isSome min_le_max).mpr hbelow

/-- Pages of a range in the lower half are different pages. -/
theorem vpage_growRange_ne (hcur : curBrk t < newBrk) (hfits : newBrk + 8191 < 2 ^ 64)
    (hlow : ∀ w ∈ growRange t newBrk, LowerHalf w) (hva : va ∈ growRange t newBrk)
    (hw : w ∈ growRange t newBrk) (hlt : va < w) : vpage va ≠ vpage w := by
  have hva' := (mem_growRange hcur hfits).mp hva
  have hw' := (mem_growRange hcur hfits).mp hw
  intro hsame
  -- were they the same, a page between them would not be in the lower half
  have hmid : va + 2 ^ 47 < w → LowerHalf (va + 2 ^ 47) := fun hbetween =>
    hlow _ ((mem_growRange hcur hfits).mpr ⟨by omega, by omega, by omega⟩)
  have hfirst := hlow va hva
  simp only [LowerHalf, vpage] at hsame hmid hfirst
  omega

theorem vpage_add_lt {k : ℕ} (halign : va % 4096 = 0) (hk : k < 4096) :
    vpage va = vpage (va + k) := by
  simp only [vpage]
  omega

/-- The last page of the range is the first one above the break. -/
theorem pageUp_above (newBrk : ℕ) :
    pageUp newBrk % 4096 = 0 ∧ newBrk ≤ pageUp newBrk ∧
      (newBrk % 4096 ≠ 1 → pageUp newBrk < newBrk + 4095) ∧
      ∀ w, w % 4096 = 0 → newBrk ≤ w → w < newBrk + 4095 → w = pageUp newBrk := by
  unfold pageUp
  refine ⟨by omega, by omega, by omega, fun w halign hle hlt => by omega⟩

theorem Readable.steady {pages : List ℕ} (h : Readable s t.pml4 pages) (htables : Tables s label) :
    Steady s label t.pml4 pages := by
  intro w hw e hwalk
  obtain ⟨hheld, hnot, hread⟩ := h.huge w hw e hwalk
  exact ⟨⟨hheld, fun height pre hl =>
    hnot (Owns.mem_tablePages htables ⟨height, pre, hl⟩)⟩, hread⟩

/-! ## What a call returns -/

theorem returned_ne (hfits : newBrk + 8191 < 2 ^ 64) :
    returned newBrk ≠ returned (-enomem) ∧ returned (-enomem) ≠ BitVec.ofNat 64 newBrk ∧
      returned newBrk = BitVec.ofNat 64 newBrk := by
  have hnat : returned newBrk = BitVec.ofNat 64 newBrk := BitVec.ofInt_natCast 64 newBrk
  have hne : returned (-enomem) ≠ BitVec.ofNat 64 newBrk := by
    intro heq
    have hvalue := congrArg BitVec.toNat heq
    have hneg : (returned (-enomem)).toNat = 2 ^ 64 - 12 := by decide
    rw [BitVec.toNat_ofNat] at hvalue
    omega
  exact ⟨fun heq => hne (heq.symm.trans hnat), hne, hnat⟩

/-- The three ways through a call of a process that asks for a new break. -/
theorem brk_eq (hroot : t.pml4 ≠ 0) (hzero : newBrk ≠ 0) (hsame : newBrk ≠ t.brk) :
    brk s t newBrk =
      if curBrk t < newBrk then
        match forEach (growOne t.pml4) (growRange t newBrk) s with
        | (false, s) => (-enomem, { t with brk := curBrk t }, s)
        | (true, s) => ((newBrk : ℤ), { t with brk := newBrk }, s)
      else ((newBrk : ℤ), { t with brk := newBrk },
        (shrinkRange t newBrk).reverse.foldl (shrinkOne t.pml4) s) := by
  unfold brk
  rw [if_neg hzero, if_neg hsame, if_neg hroot]
  rfl

/-! ## Growing -/

section Growing

variable {root : Frame} {pages done : List ℕ}
  (hg : Growing s label root pages done s' label') (h : Sane s live label origin)
  (hroot : root ∈ live)
include hg h hroot

/-- A page that was mapped is as it was. -/
theorem Growing.mapped (hmapped : isUserMapped s root va = true) :
    isUserMapped s' root va = true ∧ demandPage s' root va = s' ∧
      userByte s' root va = userByte s root va := by
  have hboth := user_of_isUserMapped h hroot hmapped
  have hentry := hg.others va (.inr (.inl hboth))
  have hmapped' : isUserMapped s' root va = true := by
    rw [isUserMapped_eq hg.tables hg.space, hentry, hboth.1, hboth.2]
    rfl
  obtain ⟨-, hone, hlabel, -⟩ := h.mapped hroot (userFrame_eq_some.mpr ⟨hboth.1, hboth.2, rfl⟩)
  refine ⟨hmapped', ?_, ?_⟩
  · unfold demandPage
    rw [translate_eq hg.tables hg.space, hentry, if_pos hboth.1]
    rfl
  · rw [userByte, userByte, hmapped, hmapped', hentry, (hg.data _ ⟨hlabel, hone⟩).2]

/-- A page that was visited reads as zero, unless it was mapped and did not. -/
theorem Growing.readsZero (hvisited : ∃ w ∈ done, vpage w = vpage va)
    (hzero : isUserMapped s root va = true → userByte s root va = some 0) :
    ReadsZero s' root va := by
  by_cases hmapped : isUserMapped s root va = true
  · obtain ⟨hmapped', hdemand, hbyte⟩ := hg.mapped h hroot hmapped
    refine ⟨.inl ?_, fun _ => by rw [hdemand, hbyte, hzero hmapped]⟩
    rwa [isUserMapped_eq hg.tables hg.space, Bool.and_eq_true] at hmapped'
  -- otherwise it is reserved now
  have hreserved : (pageEntry s' root va).reserved = true ∧ (pageEntry s' root va).user = true := by
    by_cases haccess : Accessible s root va
    · rw [hg.others va (.inr haccess)]
      rcases haccess with hboth | hres
      · refine absurd ?_ hmapped
        rw [isUserMapped_eq h.tables (h.space root hroot), hboth.1, hboth.2]
        rfl
      · exact ⟨hres, (h.pages root hroot va).1 hres⟩
    · rw [hg.reserved va hvisited haccess]
      exact ⟨rfl, rfl⟩
  refine ⟨.inr hreserved.1, fun hroom => ?_⟩
  refine userByte_reserved hg.tables hg.space hreserved.2 hreserved.1 (hroom.resolve_left ?_)
  rw [isUserMapped_eq hg.tables hg.space, absent_of_reserved hg.tables hg.space hreserved.1]
  simp

end Growing

section Brk

variable (h : Sane s live label origin) (ht : t.pml4 ∈ live) (hzero : newBrk ≠ 0)
  (hsame : newBrk ≠ t.brk)
include h ht hzero hsame

section

variable (hread : Readable s t.pml4 (growRange t newBrk)) (hcur : curBrk t < newBrk)

include hread hcur

/-- A growing call that succeeds. -/
theorem brkLaw_grown (hdone : forEach (growOne t.pml4) (growRange t newBrk) s = (true, s')) :
    BrkLaw start s t newBrk ↔ GrowFits s t newBrk := by
  have hbrk : brk s t newBrk = ((newBrk : ℤ), { t with brk := newBrk }, s') := by
    rw [brk_eq (h.root_ne_zero ht) hzero hsame, if_pos hcur, hdone]
  have hloop := growAll_outcome h.tables (h.space _ ht) (hread.steady h.tables) hread.low
  rw [hdone] at hloop
  obtain ⟨label', hg⟩ := hloop.done rfl
  constructor
  · intro hlaw
    have hfits : newBrk + 8191 < 2 ^ 64 := max_eq_right hcur.le ▸ hlaw.below hzero hsame
    obtain ⟨-, -, hret⟩ := returned_ne hfits
    have hret' : returned (brk s t newBrk).1 = BitVec.ofNat 64 newBrk := by rw [hbrk, hret]
    refine ⟨fun _ => hread, hfits, fun va hva hmapped k hk => ?_, ?_⟩
    · obtain ⟨halign, -⟩ := mem_heapPages.mp hva
      have hmapped' : isUserMapped s t.pml4 (va + k) = true := by
        rwa [isUserMapped_eq h.tables (h.space _ ht), ← pageEntry_congr (vpage_add_lt halign hk),
          ← isUserMapped_eq h.tables (h.space _ ht)]
      obtain ⟨hafter, hdemand, hbyte⟩ := hg.mapped h ht hmapped'
      have hreads := hlaw.grown hcur hret' va hva k hk
      rw [hbrk] at hreads
      have hvalue := hreads.2 (.inl hafter)
      rwa [hdemand, hbyte] at hvalue
    · obtain ⟨halign, hle, hlt, -⟩ := pageUp_above newBrk
      by_contra hlast
      rw [not_or] at hlast
      have hmem : pageUp newBrk ∈ growRange t newBrk :=
        (mem_growRange hcur hfits).mpr ⟨halign, by omega, hlt hlast.1⟩
      -- the page above the break was reserved
      have hframed := hlaw.framed hret' (pageUp newBrk) fun w hw => by
        rw [brkPages, if_pos hcur] at hw
        obtain ⟨hw₁, hw₂, hw₃⟩ := mem_heapPages.mp hw
        have hmem' := (mem_growRange hcur hfits).mpr ⟨hw₁, hw₂, by omega⟩
        exact vpage_growRange_ne hcur hfits hread.low hmem' hmem (by omega)
      rw [hbrk] at hframed
      have hreserved := hg.reserved _ ⟨_, hmem, rfl⟩ hlast.2
      refine hlast.2 (.inr ?_)
      rw [← hframed]
      rw [hreserved]
      rfl
  · intro hfit
    obtain ⟨hne, -, hret⟩ := returned_ne hfit.fits
    have hfits := hfit.fits
    refine ⟨brkLaw_fits (by omega), fun _ _ va hva k hk => ?_, fun _ hlt => absurd hlt (by omega),
      fun _ va hva => ?_, fun hfail => ?_⟩
    · obtain ⟨halign, hle, hlt⟩ := mem_heapPages.mp hva
      have hpage := vpage_add_lt halign hk
      rw [hbrk]
      refine hg.readsZero h ht ⟨va, (mem_growRange hcur hfits).mpr ⟨halign, hle, by omega⟩, hpage⟩
        fun hmapped => hfit.zero va hva ?_ k hk
      rwa [isUserMapped_eq h.tables (h.space _ ht), pageEntry_congr hpage,
        ← isUserMapped_eq h.tables (h.space _ ht)]
    · rw [hbrk]
      rw [brkPages, if_pos hcur] at hva
      refine hg.others va ?_
      by_cases hvisited : ∃ w ∈ growRange t newBrk, vpage w = vpage va
      · -- the page above the break, and it was there already
        obtain ⟨w, hw, hpage⟩ := hvisited
        obtain ⟨halign, hle, hlt⟩ := (mem_growRange hcur hfits).mp hw
        have habove : newBrk ≤ w := by
          by_contra hbelow
          exact hva w (mem_heapPages.mpr ⟨halign, hle, by omega⟩) hpage
        obtain ⟨-, -, -, honly⟩ := pageUp_above newBrk
        have hw' := honly w halign habove hlt
        rcases hfit.last with hone | haccess
        · omega
        · rw [← hw'] at haccess
          exact .inr (haccess.of_vpage hpage)
      · exact .inl fun w hw hpage => hvisited ⟨w, hw, hpage⟩
    · rw [hbrk] at hfail
      exact absurd hfail hne

/-- A growing call that runs out of memory. -/
theorem brkLaw_failed (hfail : forEach (growOne t.pml4) (growRange t newBrk) s = (false, s')) :
    BrkLaw start s t newBrk ↔ FailFits s t newBrk := by
  have hbrk : brk s t newBrk = (-enomem, { t with brk := curBrk t }, s') := by
    rw [brk_eq (h.root_ne_zero ht) hzero hsame, if_pos hcur, hfail]
  have hset : curBrk t = t.brk ↔ t.brk ≠ 0 := by
    unfold curBrk
    split_ifs with hunset
    · simp only [hunset]
      decide
    · simp [hunset]
  constructor
  · intro hlaw
    have hfits : newBrk + 8191 < 2 ^ 64 := max_eq_right hcur.le ▸ hlaw.below hzero hsame
    obtain ⟨hkept, hentries⟩ := hlaw.undone (by rw [hbrk])
    rw [hbrk] at hkept hentries
    refine ⟨fun _ => hread, hfits, hset.mp hkept, ?_⟩
    have hloop := growAll_outcome h.tables (h.space _ ht) (hread.steady h.tables) hread.low
    rw [hfail] at hloop
    obtain ⟨done, va, rest, hsplit, hno, hroom, s₁, label₁, hg, hsame₁⟩ := hloop.failed rfl
    -- every page that was passed could be used before
    have hall : ∀ w ∈ done, Accessible s t.pml4 w := by
      intro w hw
      by_contra hbad
      have hreserved := (hentries w).symm.trans ((hsame₁ w).trans (hg.reserved w ⟨w, hw, rfl⟩ hbad))
      exact hbad (.inr (by rw [hreserved]; rfl))
    exact ⟨done, va, rest, hsplit, hall, hno, hroom hall⟩
  · rintro ⟨-, hfits, hunset, done, va, rest, hsplit, hall, hno, hroom⟩
    obtain ⟨-, hne, -⟩ := returned_ne hfits
    have hsteady := hread.steady h.tables
    rw [hsplit] at hsteady hfail
    have hstops := growAll_stops h.tables (h.space _ ht) hsteady hall hno hroom
    rw [hfail] at hstops
    refine ⟨brkLaw_fits (by omega), fun _ hret => ?_, fun _ hlt => absurd hlt (by omega),
      fun hret => ?_, fun _ => ?_⟩
    · rw [hbrk] at hret
      exact absurd hret hne
    · rw [hbrk] at hret
      exact absurd hret hne
    · rw [hbrk]
      exact ⟨hset.mpr hunset, hstops⟩

end

/-- A shrinking call. -/
theorem brkLaw_shrunk (hcur : newBrk ≤ curBrk t) :
    BrkLaw start s t newBrk ↔ ShrinkFits start s t newBrk := by
  have hbrk : brk s t newBrk = ((newBrk : ℤ), { t with brk := newBrk },
      (shrinkRange t newBrk).reverse.foldl (shrinkOne t.pml4) s) := by
    rw [brk_eq (h.root_ne_zero ht) hzero hsame, if_neg (not_lt.mpr hcur)]
  have hentry := shrinkAll_entry (h.inOrder ht) (shrinkRange t newBrk).reverse
  simp only [List.mem_reverse] at hentry
  have hregion : curBrk t + 8191 < 2 ^ 64 → ∀ va ∈ heapPages (max newBrk start) (curBrk t),
      newBrk < curBrk t ∧ va ∈ shrinkRange t newBrk := by
    intro hfits va hva
    obtain ⟨halign, hle, hlt⟩ := mem_heapPages.mp hva
    rw [shrinkRange, pagesBetween_eq (by omega) hfits]
    exact ⟨by omega, mem_heapPages.mpr ⟨halign, by omega, by omega⟩⟩
  constructor
  · intro hlaw
    have hfits : curBrk t + 8191 < 2 ^ 64 := max_eq_left hcur ▸ hlaw.below hzero hsame
    obtain ⟨-, -, hret⟩ := returned_ne (show newBrk + 8191 < 2 ^ 64 by omega)
    refine ⟨hfits, fun va hva => ?_, fun va hva f hf => ?_, fun w hw hother => ?_⟩
    · obtain ⟨hlt, hmem⟩ := hregion hfits va hva
      have hgone := (hlaw.shrunk hzero hlt va hva).1
      by_contra hreserved
      have hreserved : (pageEntry s t.pml4 va).reserved = true := by simpa using hreserved
      have habsent := absent_of_reserved h.tables (h.space _ ht) hreserved
      refine hgone (.inr ?_)
      rw [hbrk]
      rw [hentry, if_pos ⟨va, hmem, rfl⟩, emptied, habsent]
      exact hreserved
    · obtain ⟨hlt, hmem⟩ := hregion hfits va hva
      have hreleased := (hlaw.shrunk hzero hlt va hva).2 f hf
      have hfreed := shrinkAll_freed h ht (shrinkRange t newBrk).reverse
        ⟨va, List.mem_reverse.mpr hmem, rfl⟩ hf
      by_contra hshared
      rw [ReleasedOnce, if_neg hshared, hbrk] at hreleased
      have hheld := hreleased.1
      rw [hfreed, (h.mapped ht hf).2.1] at hheld
      cases hheld
    · have hframed := hlaw.framed (by rw [hbrk, hret]) w fun va hva => by
        rw [brkPages, if_neg (not_lt.mpr hcur)] at hva
        exact hother va hva
      rw [hbrk] at hframed
      rw [hentry, if_pos ⟨w, hw, rfl⟩] at hframed
      by_contra hmapped
      obtain ⟨hpresent, huser⟩ := user_of_isUserMapped h ht (by simpa using hmapped)
      rw [emptied, hpresent, huser] at hframed
      rw [← hframed] at hpresent
      cases hpresent
  · intro hfit
    have hfits := hfit.fits
    obtain ⟨hne, -, -⟩ := returned_ne (show newBrk + 8191 < 2 ^ 64 by omega)
    refine ⟨brkLaw_fits (by omega), fun hlt => absurd hlt (by omega), fun _ _ va hva => ?_,
      fun _ va hva => ?_, fun hret => ?_⟩
    · obtain ⟨-, hmem⟩ := hregion hfits va hva
      rw [hbrk]
      refine ⟨fun haccess => ?_, fun f hf => ?_⟩
      · rw [Accessible, hentry, if_pos ⟨va, hmem, rfl⟩, emptied] at haccess
        split_ifs at haccess with hmapped
        · simp at haccess
        · rw [hfit.unreserved va hva] at haccess
          simp only [Bool.false_eq_true, or_false] at haccess
          exact hmapped (by rw [haccess.1, haccess.2]; rfl)
      · rw [ReleasedOnce, if_pos (hfit.unshared va hva f hf)]
        exact shrinkAll_freed h ht _ ⟨va, List.mem_reverse.mpr hmem, rfl⟩ hf
    · rw [hbrk]
      rw [brkPages, if_neg (not_lt.mpr hcur)] at hva
      rw [hentry]
      split_ifs with hvisited
      · -- a page outside the heap, which is not mapped
        obtain ⟨w, hw, hpage⟩ := hvisited
        have hunmapped := hfit.outside w hw fun va' hva' => by
          rw [hpage]
          exact hva va' hva'
        rw [isUserMapped_eq h.tables (h.space _ ht), pageEntry_congr hpage] at hunmapped
        rw [emptied, hunmapped]
        rfl
      · rfl
    · rw [hbrk] at hret
      exact absurd hret hne

end Brk

/-- A call that asks for nothing. -/
theorem brkLaw_same (hnew : newBrk = 0 ∨ newBrk = t.brk) : BrkLaw start s t newBrk := by
  obtain ⟨result, hbrk⟩ : ∃ result : ℤ, brk s t newBrk = (result, t, s) := by
    unfold brk
    by_cases hzero : newBrk = 0
    · exact ⟨_, by rw [if_pos hzero]⟩
    · exact ⟨_, by rw [if_neg hzero, if_pos (hnew.resolve_left hzero)]⟩
  have hcur : newBrk ≠ 0 → curBrk t = newBrk := by
    intro hzero
    have hsame := hnew.resolve_left hzero
    rw [curBrk, if_neg (by rwa [← hsame]), hsame]
  refine ⟨fun hzero hsame => absurd hnew (not_or.mpr ⟨hzero, hsame⟩), fun hlt => ?_,
    fun hzero hlt => ?_, fun _ va _ => by rw [hbrk], fun _ => by rw [hbrk]; exact ⟨rfl, fun _ => rfl⟩⟩
  · omega
  · omega

/-- The process of the small machine, with a heap above its page. -/
def heapTask : Task := ⟨256, 0x8000001000, 0⟩

/-- The same process, with its break inside its page. -/
def innerTask : Task := ⟨256, 0x8000000800, 0⟩

theorem readable_touched (hlow : ∀ w ∈ growRange t newBrk, LowerHalf w)
    (htables : ∀ w ∈ growRange t newBrk, hasTable touchedVm.mem 256 w = true) :
    Readable touchedVm.mem 256 (growRange t newBrk) := by
  refine ⟨hlow, fun w hw e hwalk => ?_⟩
  obtain ⟨pt, htable⟩ := hasTable_iff.mp (htables w hw)
  rw [htable] at hwalk
  cases hwalk

end Shitix.Paging
