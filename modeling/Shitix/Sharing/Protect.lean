import Shitix.Sharing.Access
import Shitix.Sharing.Isolation

/-!
# `munmap`, `mprotect` and reserved pages

`munmap` asks `translate` for each page of its range and `mprotect` calls `set_page_flags`; both
pass over an entry that is not present, so a reserved page stays as it is.  For the pages
that were touched, `mprotect` sets the flags, and the fault handlers then give back the rights it
took.  `covers_iff_covered` says exactly when the two calls do what they are for.
-/

namespace Shitix.Paging

open Mem Syscall

/-! ## The law -/

/-- A call on a range of addresses. -/
inductive RangeCall where
  | munmap (addr len : BitVec 64)
  | mprotect (addr len : BitVec 64) (prot : BitVec 32)

/-- The call, made by a task. -/
def RangeCall.run (s : Mem) (t : Task) : RangeCall → ℤ × Mem
  | .munmap addr len => Syscall.munmap s t addr.toNat len.toNat
  | .mprotect addr len prot => Syscall.mprotect s t.pml4 addr.toNat len.toNat prot.toNat

/-- The access is one of those of `prot`: `PROT_READ`, `PROT_WRITE`, `PROT_EXEC`. -/
def grants (prot : BitVec 32) : Access → Bool
  | .read => prot.toNat.testBit 0
  | .write => prot.toNat.testBit 1
  | .exec => prot.toNat.testBit 2

/-- An address of the range, in the half of user mode. -/
def InRange (addr len : BitVec 64) (va : ℕ) : Prop :=
  addr.toNat ≤ va ∧ va < addr.toNat + len.toNat ∧ va < 2 ^ 47

/-- A call that succeeds deals with every page of its range. -/
def Covers (s : Mem) (t : Task) (call : RangeCall) : Prop :=
  (call.run s t).1 = 0 →
    match call with
    | .munmap addr len => ∀ va, InRange addr len va → ¬ Accessible (call.run s t).2 t.pml4 va
    | .mprotect addr len prot => ∀ va, InRange addr len va → Accessible s t.pml4 va →
        ∀ access, Allowed (call.run s t).2 t.pml4 va access ↔ grants prot access = true

/-- The pages of the range are touched, reserved or absent; none is the kernel's. -/
def UserPages (s : Mem) (t : Task) : RangeCall → Prop
  | .munmap addr len => ∀ va ∈ pageRange addr.toNat (pageCount len.toNat), NotKernel s t.pml4 va
  | .mprotect .. => True

/-- `mprotect` comes to the page: the end of the range may have wrapped. -/
def Visited (addr len : BitVec 64) (va : ℕ) : Prop :=
  pageBase va < pageAlignW (wrapAdd addr.toNat len.toNat)

/-- A write to a user page succeeds once `mprotect` is done. -/
def WriteServed (s : Mem) (t : Task) (addr len : BitVec 64) (prot : BitVec 32) (va : ℕ) : Prop :=
  Visited addr len va ∧ grants prot .write = true ∨
    ¬ Visited addr len va ∧ (pageEntry s t.pml4 va).rw = true ∨ ¬ Starved s t.pml4 va

/-- The condition under which the calls cover their range. -/
def Covered (s : Mem) (t : Task) : RangeCall → Prop
  | .munmap addr len => addr.toNat % 4096 = 0 → ∀ va, InRange addr len va →
      (pageEntry s t.pml4 va).reserved = false ∧
        (isUserMapped s t.pml4 va = true → len.toNat + 4095 < 2 ^ 64)
  | .mprotect addr len prot => ∀ va, InRange addr len va →
      (isUserMapped s t.pml4 va = true → grants prot .read = true ∧ grants prot .exec = true ∧
        (grants prot .write = true ↔ WriteServed s t addr len prot va)) ∧
      ((pageEntry s t.pml4 va).reserved = true →
        ∀ access, grants prot access = true ↔ s.frames.free ≠ [])

/-- An address space in order: user pages have frames of data, reserved pages are for user
mode. -/
structure InOrder (s : Mem) (label : Frame → Option Label) (root : Frame) : Prop where
  tables : Tables s label
  space : Space label root
  data : ∀ va f, userFrame (pageEntry s root va) = some f → label f = none
  reservedUser : ∀ va, (pageEntry s root va).reserved = true → (pageEntry s root va).user = true

variable {s s' : Mem} {live : List Frame} {label : Frame → Option Label} {origin : Frames}
  {root : Frame} {va va' : ℕ} {pages : List ℕ} {addr len : BitVec 64} {t : Task}

theorem Sane.inOrder (h : Sane s live label origin) (hroot : root ∈ live) :
    InOrder s label root where
  tables := h.tables
  space := h.space root hroot
  data := fun _ _ hf => (h.mapped hroot hf).2.2.1
  reservedUser := fun va => (h.pages root hroot va).1

/-! ## Loops over pages -/

/-- A loop that does the same to the entry of each page it comes to. -/
theorem pages_foldl (Inv : Mem → Prop) {op : Mem → ℕ → Mem} {change : Pte → Pte}
    (hidem : ∀ e, change (change e) = change e)
    (hstep : ∀ s, ∀ va ∈ pages, Inv s → Inv (op s va) ∧
      pageEntry (op s va) root va' =
        if vpage va = vpage va' then change (pageEntry s root va') else pageEntry s root va')
    (h : Inv s) :
    Inv (pages.foldl op s) ∧ pageEntry (pages.foldl op s) root va' =
      if ∃ va ∈ pages, vpage va = vpage va' then change (pageEntry s root va')
      else pageEntry s root va' := by
  induction pages generalizing s with
  | nil => simpa using h
  | cons va rest ih =>
    obtain ⟨hinv, hentry⟩ := hstep s va List.mem_cons_self h
    obtain ⟨hdone, hrest⟩ := ih (fun s va' hva' => hstep s va' (List.mem_cons_of_mem _ hva')) hinv
    refine ⟨hdone, ?_⟩
    rw [List.foldl_cons, hrest, hentry]
    by_cases hhere : vpage va = vpage va'
    · by_cases hlater : ∃ va ∈ rest, vpage va = vpage va' <;> simp [hhere, hidem]
    · simp [hhere]

/-! ## `munmap` -/

/-- What `munmap` makes of an entry. -/
def unmapped (e : Pte) : Pte := if e.present then noEntry else e

/-- A present page is a user page with a frame of data. -/
def Loose (s : Mem) (label : Frame → Option Label) (root : Frame) (va : ℕ) : Prop :=
  (pageEntry s root va).present = true →
    (pageEntry s root va).user = true ∧ label (pageEntry s root va).frame = none

theorem Tables.freePage (h : Tables s label) {page : Frame} (hlabel : label page = none) :
    Tables (s.freePage page) label := by
  have hsame : SameTables s label (s.freePage page) := fun _ _ _ => rfl
  have hne : ∀ t l, label t = some l → t.toNat ≠ page.toNat := fun t l hl heq => by
    rw [BitVec.eq_of_toNat_eq heq, hlabel] at hl
    cases hl
  refine hsame.tables h ?_ (fun t l hl => ?_) (h.consistent.freePage _)
  · rw [freePage_frames, Frames.freePage]
    split_ifs <;> rfl
  · rw [freePage_frames, Frames.freePage]
    split_ifs
    all_goals first
      | rfl
      | exact Function.update_of_ne (hne t l hl) _ _

section

variable (h : Tables s label) (hr : Space label root) (hloose : Loose s label root va)

include h hr hloose

theorem unmapOne_entry (va' : ℕ) : pageEntry (unmapOne root s va) root va' =
      if vpage va = vpage va' then unmapped (pageEntry s root va') else pageEntry s root va' := by
  unfold unmapOne
  rw [translate_eq h hr]
  by_cases hpresent : (pageEntry s root va).present = true
  · rw [if_pos hpresent]
    obtain ⟨s₁, hs₁, -, -, hput⟩ := unmapPage_spec h hr hpresent (hloose hpresent).1
    simp only [hs₁]
    change pageEntry s₁ root va' = _
    by_cases hsame : vpage va = vpage va'
    · rw [if_pos hsame, ← pageEntry_congr hsame, hput.self, ← pageEntry_congr hsame, unmapped,
        if_pos hpresent]
    · rw [if_neg hsame, hput.other root va' hr (.inl (symm hsame))]
  · rw [if_neg hpresent]
    by_cases hsame : vpage va = vpage va'
    · rw [if_pos hsame, ← pageEntry_congr hsame, unmapped, if_neg hpresent]
    · rw [if_neg hsame]

theorem unmapOne_tables : Tables (unmapOne root s va) label := by
  unfold unmapOne
  rw [translate_eq h hr]
  split_ifs with hpresent
  · obtain ⟨s₁, hs, -, -, hput⟩ := unmapPage_spec h hr hpresent (hloose hpresent).1
    simp only [hs, Sane.frame_of_phys]
    exact hput.tables.freePage (hloose hpresent).2
  · exact h

end

theorem Loose.unmapOne (hloose' : Loose s label root va') (h : Tables s label)
    (hr : Space label root) (hloose : Loose s label root va) :
    Loose (unmapOne root s va) label root va' := by
  intro hpresent
  rw [unmapOne_entry h hr hloose] at hpresent ⊢
  split_ifs at hpresent ⊢
  · by_cases hold : (pageEntry s root va').present = true
    · rw [unmapped, if_pos hold] at hpresent
      cases hpresent
    · rw [unmapped, if_neg hold] at hpresent
      exact absurd hpresent hold
  · exact hloose' hpresent

theorem unmapAll_entry (h : Tables s label) (hr : Space label root)
    (hloose : ∀ va ∈ pages, Loose s label root va) (va' : ℕ) :
    pageEntry (pages.foldl (unmapOne root) s) root va' =
      if ∃ va ∈ pages, vpage va = vpage va' then unmapped (pageEntry s root va')
      else pageEntry s root va' := by
  have hidem : ∀ e, unmapped (unmapped e) = unmapped e := by
    intro e
    by_cases hpresent : e.present = true <;> simp [unmapped, hpresent]
  refine (pages_foldl (fun s => Tables s label ∧ ∀ va ∈ pages, Loose s label root va) hidem ?_
    ⟨h, hloose⟩).2
  rintro s va hva ⟨h, hloose⟩
  have hhere := hloose va hva
  exact ⟨⟨unmapOne_tables h hr hhere, fun w hw => (hloose w hw).unmapOne h hr hhere⟩,
    unmapOne_entry h hr hhere va'⟩

/-- The pages `munmap` comes to: all of the range, or none when its length wraps. -/
theorem mem_pageRange_iff (halign : addr.toNat % 4096 = 0) (hva : InRange addr len va) :
    (∃ w ∈ pageRange addr.toNat (pageCount len.toNat), vpage w = vpage va) ↔
      len.toNat + 4095 < 2 ^ 64 := by
  obtain ⟨hlow, hhigh, hhalf⟩ := hva
  simp only [pageRange, List.mem_map, List.mem_range, pageCount, wrapAdd]
  constructor
  · omega
  · intro hlen
    refine ⟨_, ⟨(va - addr.toNat) / 4096, ?_, rfl⟩, ?_⟩
    · omega
    · simp only [vpage]
      omega

theorem einval_ne_zero : -einval ≠ 0 := by decide

theorem munmap_covers_iff (h : InOrder s label t.pml4) (hpages : UserPages s t (.munmap addr len)) :
    Covers s t (.munmap addr len) ↔ Covered s t (.munmap addr len) := by
  have htables : t.tables = t.pml4 := if_neg (h.tables.root_ne_zero h.space)
  have hloose : ∀ va ∈ pageRange addr.toNat (pageCount len.toNat), Loose s label t.pml4 va :=
    fun va hva hpresent => ⟨hpages va hva hpresent,
      h.data va _ (userFrame_eq_some.mpr ⟨hpresent, hpages va hva hpresent, rfl⟩)⟩
  simp only [Covers, Covered, RangeCall.run, munmap]
  by_cases halign : addr.toNat % 4096 = 0
  swap
  · rw [if_pos (.inl halign)]
    exact ⟨fun _ hzero => absurd hzero halign, fun _ hzero => absurd hzero einval_ne_zero⟩
  by_cases hlen : len.toNat = 0
  · rw [if_pos (.inr hlen)]
    refine ⟨fun _ _ va hva => ?_, fun _ hzero => absurd hzero einval_ne_zero⟩
    obtain ⟨hlow, hhigh, -⟩ := hva
    omega
  rw [if_neg (by simp [halign, hlen]), htables]
  simp only [halign, forall_const]
  refine forall₂_congr fun va hva => ?_
  have hvisited := mem_pageRange_iff halign hva
  rw [Accessible, unmapAll_entry h.tables h.space hloose, isUserMapped_eq h.tables h.space]
  by_cases hwrap : len.toNat + 4095 < 2 ^ 64
  · rw [if_pos (hvisited.mpr hwrap)]
    simp only [hwrap]
    by_cases hpresent : (pageEntry s t.pml4 va).present = true
    · simp [unmapped, hpresent, not_reserved_of_present h.tables h.space hpresent]
    · simp [unmapped, hpresent]
  · rw [if_neg (mt hvisited.mp hwrap)]
    simp only [hwrap]
    simp [and_comm]

/-! ## `mprotect` -/

/-- What `mprotect` makes of an entry. -/
def protect (newFlags : Flags) (e : Pte) : Pte :=
  if e.present then ⟨{ newFlags with present := true }, e.frame⟩ else e

section

variable (h : Tables s label) (hr : Space label root) {newFlags : Flags}
  (hflags : newFlags.reserved = false)

include h hr hflags

theorem setPageFlags_entry (hown : NotKernel s root va') (va : ℕ) :
    Tables (setPageFlags s root va newFlags).2 label ∧
      (setPageFlags s root va newFlags).2.frames = s.frames ∧
      pageEntry (setPageFlags s root va newFlags).2 root va' =
        if vpage va = vpage va' then protect newFlags (pageEntry s root va')
        else pageEntry s root va' := by
  rcases setPageFlags_spec h hr va hflags with
    ⟨hfail, hnone⟩ | ⟨s', hdone, -, hpresent, hframes, -, hput⟩
  · rw [hfail]
    refine ⟨h, rfl, ?_⟩
    split_ifs with hsame
    · have habsent : ¬ (pageEntry s root va').present = true := fun hpresent => by
        have huser := hown hpresent
        rw [← pageEntry_congr hsame] at hpresent huser
        rw [getPageFlags_of_user h hr hpresent huser] at hnone
        cases hnone
      rw [protect, if_neg habsent]
    · rfl
  · rw [hdone]
    refine ⟨hput.tables, hframes, ?_⟩
    split_ifs with hsame
    · rw [← pageEntry_congr hsame, hput.self, ← pageEntry_congr hsame, protect, if_pos hpresent]
    · exact hput.other root va' hr (.inl (symm hsame))

theorem protectAll_entry (huser : newFlags.user = true)
    (hown : NotKernel s root va') (pages : List ℕ) :
    let after := pages.foldl (fun s va => (setPageFlags s root va newFlags).2) s
    (Tables after label ∧ after.frames = s.frames) ∧ pageEntry after root va' =
      if ∃ va ∈ pages, vpage va = vpage va' then protect newFlags (pageEntry s root va')
      else pageEntry s root va' := by
  have hidem : ∀ e, protect newFlags (protect newFlags e) = protect newFlags e := by
    intro e
    by_cases hpresent : e.present = true <;> simp [protect, hpresent]
  refine And.imp_left (fun hdone => ⟨hdone.1, hdone.2.1⟩) (pages_foldl (fun s' => Tables s' label ∧
    s'.frames = s.frames ∧ NotKernel s' root va') hidem ?_ ⟨h, rfl, hown⟩)
  rintro s₁ va - ⟨h₁, hframes₁, hown₁⟩
  obtain ⟨htables, hframes, hentry⟩ := setPageFlags_entry h₁ hr hflags hown₁ va
  refine ⟨⟨htables, hframes.trans hframes₁, fun hpresent => ?_⟩, hentry⟩
  rw [hentry] at hpresent ⊢
  split_ifs at hpresent ⊢
  · unfold protect at hpresent ⊢
    split_ifs at hpresent ⊢
    · exact huser
    · contradiction
  · exact hown₁ hpresent

end

theorem visited_iff (hva : InRange addr len va) :
    (∃ w ∈ pagesBetween (pageBase addr.toNat) (pageAlignW (wrapAdd addr.toNat len.toNat)),
      vpage w = vpage va) ↔ Visited addr len va := by
  obtain ⟨hlow, -, hhalf⟩ := hva
  simp only [pagesBetween, List.mem_map, List.mem_range, Visited, pageAlignW, pageBase]
  constructor
  · rintro ⟨w, ⟨i, hi, rfl⟩, hpage⟩
    simp only [vpage] at hpage
    omega
  · intro hend
    refine ⟨_, ⟨(va / 4096) - addr.toNat / 4096, ?_, rfl⟩, ?_⟩
    · omega
    · simp only [vpage]
      omega

/-- The loop of `mprotect`, on the tables of a task. -/
def protectRange (s : Mem) (root : Frame) (addr len : BitVec 64) (prot : BitVec 32) : Mem :=
  (pagesBetween (pageBase addr.toNat) (pageAlignW (wrapAdd addr.toNat len.toNat))).foldl
    (fun s va => (setPageFlags s root va (protFlags prot.toNat)).2) s

/-- What the loop leaves of a page that is not the kernel's. -/
theorem protectRange_entry (h : InOrder s label root) (prot : BitVec 32) (hva : InRange addr len va)
    (hown : NotKernel s root va) : Tables (protectRange s root addr len prot) label ∧
      (protectRange s root addr len prot).frames = s.frames ∧
      (Visited addr len va → pageEntry (protectRange s root addr len prot) root va =
        protect (protFlags prot.toNat) (pageEntry s root va)) ∧
      (¬ Visited addr len va → pageEntry (protectRange s root addr len prot) root va =
        pageEntry s root va) := by
  obtain ⟨⟨htables, hframes⟩, hentry⟩ := protectAll_entry h.tables h.space
    (show (protFlags prot.toNat).reserved = false from rfl) rfl hown
    (pagesBetween (pageBase addr.toNat) (pageAlignW (wrapAdd addr.toNat len.toNat)))
  have hvisited := visited_iff hva
  refine ⟨htables, hframes, fun hv => ?_, fun hv => ?_⟩
  · rw [protectRange, hentry, if_pos (hvisited.mpr hv)]
  · rw [protectRange, hentry, if_neg (mt hvisited.mp hv)]

/-- A user page after `mprotect`: it can be read and executed, and written unless the page may
not be written and a copy cannot be made. -/
theorem allowed_protected (prot : BitVec 32) (h : InOrder s label t.pml4)
    (hva : InRange addr len va) (hmapped : isUserMapped s t.pml4 va = true) (access : Access) :
    Allowed (protectRange s t.pml4 addr len prot) t.pml4 va access ↔
      (access = .write → WriteServed s t addr len prot va) := by
  rw [isUserMapped_eq h.tables h.space, Bool.and_eq_true] at hmapped
  obtain ⟨hpresent, huser⟩ := hmapped
  obtain ⟨htables, hframes, hthere, hnot⟩ := protectRange_entry h prot hva fun _ => huser
  have hstarved : (pageEntry (protectRange s t.pml4 addr len prot) t.pml4 va).frame =
      (pageEntry s t.pml4 va).frame →
      (Starved (protectRange s t.pml4 addr len prot) t.pml4 va ↔ Starved s t.pml4 va) := by
    intro hframe
    rw [Starved, Starved, hframe, pageRefCount, pageRefCount, hframes]
  by_cases hvisited : Visited addr len va
  · have hentry := hthere hvisited
    rw [protect, if_pos hpresent] at hentry
    rw [allowed_user htables h.space hva.2.2 (by rw [hentry]) (by rw [hentry]; rfl),
      hstarved (by rw [hentry]), hentry]
    simp [WriteServed, hvisited, grants, protFlags]
  · have hentry := hnot hvisited
    rw [allowed_user htables h.space hva.2.2 (by rw [hentry, hpresent]) (by rw [hentry, huser]),
      hstarved (by rw [hentry]), hentry]
    simp [WriteServed, hvisited]

/-- A reserved page stays reserved. -/
theorem allowed_still_reserved (prot : BitVec 32) (h : InOrder s label root)
    (hva : InRange addr len va) (hreserved : (pageEntry s root va).reserved = true)
    (access : Access) :
    Allowed (protectRange s root addr len prot) root va access ↔ s.frames.free ≠ [] := by
  have habsent := absent_of_reserved h.tables h.space hreserved
  have hown : NotKernel s root va := fun hpresent => by
    rw [habsent] at hpresent
    cases hpresent
  obtain ⟨htables, hframes, hthere, hnot⟩ := protectRange_entry h prot hva hown
  have hsame : pageEntry (protectRange s root addr len prot) root va = pageEntry s root va := by
    by_cases hvisited : Visited addr len va
    · rw [hthere hvisited, protect, habsent]
      rfl
    · exact hnot hvisited
  have huser := h.reservedUser va hreserved
  rw [← hsame] at hreserved huser
  rw [allowed_reserved htables h.space hva.2.2 huser hreserved, hframes]

theorem mprotect_covers_iff {prot : BitVec 32} (h : InOrder s label t.pml4) :
    Covers s t (.mprotect addr len prot) ↔ Covered s t (.mprotect addr len prot) := by
  have hroot := h.tables.root_ne_zero h.space
  simp only [Covers, RangeCall.run, mprotect]
  by_cases hlen : len.toNat = 0
  · rw [if_pos hlen]
    refine ⟨fun _ va hva => ?_, fun _ hzero => absurd hzero einval_ne_zero⟩
    obtain ⟨hlow, hhigh, -⟩ := hva
    omega
  rw [if_neg hlen, if_neg hroot]
  simp only [forall_const]
  refine forall₂_congr fun va hva => ?_
  rw [Accessible, ← Bool.and_eq_true, ← isUserMapped_eq h.tables h.space, or_imp]
  refine and_congr ?_ ?_
  · refine forall_congr' fun hmapped => ?_
    have hallowed := allowed_protected prot h hva hmapped
    simp only [protectRange] at hallowed
    simp only [hallowed]
    constructor
    · intro hall
      exact ⟨(hall .read).mp (by simp), (hall .exec).mp (by simp), by simpa using (hall .write).symm⟩
    · rintro ⟨hread, hexec, hwrite⟩ access
      cases access with
      | read => simpa using hread
      | write => simpa using hwrite.symm
      | exec => simpa using hexec
  · refine forall_congr' fun hreserved => forall_congr' fun access => ?_
    rw [← allowed_still_reserved prot h hva hreserved access]
    exact comm

/-- The two calls cover their range exactly when the condition holds. -/
theorem covers_iff_covered {t : Task} (h : InOrder s label t.pml4) (call : RangeCall)
    (hpages : UserPages s t call) : Covers s t call ↔ Covered s t call := by
  cases call with
  | munmap addr len => exact munmap_covers_iff h hpages
  | mprotect addr len prot => exact mprotect_covers_iff h

/-! ## The small machine -/

/-- A process with a page at 512 GiB that it has touched. -/
def touchedVm : Vm := ((Vm.boot smallMem).step (.spawn 0 0)).step (.map 0 0x8000000000 true)

/-- A process with a page at 512 GiB that it has not touched yet. -/
def untouchedVm : Vm :=
  ((Vm.boot smallMem).step (.spawn 0 0)).step (.mmap 0 ⟨0x8000000000, 4096, 3, 0x22, none⟩)

/-- Their process. -/
def smallTask : Task := ⟨256, 0, 0⟩

theorem touchedVm_sane : VmSane smallMem.frames touchedVm := by
  have hspawned : VmSane smallMem.frames ((Vm.boot smallMem).step (.spawn 0 0)) :=
    (VmSane.boot smallFrames_bootable).spawn 0 0
  refine hspawned.step fun t ht => ?_
  have hpml4 : t.pml4 = 256 := pml4_eq ht (by decide +kernel)
  rw [CarefulCall, hpml4]
  exact ⟨by decide, by decide +kernel⟩

theorem vpage_of_small (h : InRange 0x8000000000 4096 va) : vpage 0x8000000000 = vpage va := by
  obtain ⟨hlow, hhigh, -⟩ := h
  have haddr : (0x8000000000 : BitVec 64).toNat = 0x8000000000 := rfl
  have hlen : (4096 : BitVec 64).toNat = 4096 := rfl
  simp only [vpage]
  omega

/-- The touched page is unmapped. -/
theorem covers_touched :
    UserPages touchedVm.mem smallTask (.munmap 0x8000000000 4096) ∧
      Covered touchedVm.mem smallTask (.munmap 0x8000000000 4096) ∧
      Covers touchedVm.mem smallTask (.munmap 0x8000000000 4096) := by
  obtain ⟨⟨label, hsane⟩, -, -⟩ := touchedVm_sane
  have hlive : smallTask.pml4 ∈ touchedVm.live := by decide +kernel
  have hpages : UserPages touchedVm.mem smallTask (.munmap 0x8000000000 4096) := by
    intro va hva _
    obtain rfl : va = 0x8000000000 := by simpa [pageRange, pageCount, wrapAdd] using hva
    decide +kernel
  have hcovered : Covered touchedVm.mem smallTask (.munmap 0x8000000000 4096) := by
    intro _ va hva
    rw [← pageEntry_congr (vpage_of_small hva)]
    exact ⟨by decide +kernel, fun _ => by decide⟩
  exact ⟨hpages, hcovered, (covers_iff_covered (hsane.inOrder hlive) _ hpages).mpr hcovered⟩

/-- The page that was not touched survives `munmap`. -/
theorem reserved_survives_munmap :
    UserPages untouchedVm.mem smallTask (.munmap 0x8000000000 4096) ∧
      ¬ Covers untouchedVm.mem smallTask (.munmap 0x8000000000 4096) := by
  refine ⟨fun va hva _ => ?_, fun hcovers => ?_⟩
  · obtain rfl : va = 0x8000000000 := by simpa [pageRange, pageCount, wrapAdd] using hva
    decide +kernel
  · have hrange : InRange 0x8000000000 4096 0x8000000000 := ⟨by decide, by decide, by decide⟩
    refine hcovers rfl 0x8000000000 hrange (.inr ?_)
    decide +kernel

end Shitix.Paging
