import Shitix.Sharing.Ops

/-!
# The memory system calls keep the accounts

The loops of `munmap`, `mprotect`, `mmap` and `brk`.  Each keeps `Sane` provided
that every page of its range meets the condition of the operation the loop makes
on it; since the loop changes other pages of the range before it comes to one,
the conditions are carried along: a page that is not shared stays so while other
pages are unmapped, protected or mapped (`Sole.rewritten`).
-/

namespace Shitix.Paging

open Mem Syscall List

variable {s s' : Mem} {live : List Frame} {label label' : Frame → Option Label} {origin : Frames}
  {root : Frame} {va va' mapAddr npages : ℕ} {e : Pte} {pages : List ℕ} {newFlags : Flags}

/-- A user page, if there is one, is the only one of its frame. -/
def Sole (s : Mem) (live : List Frame) (root : Frame) (va : ℕ) : Prop :=
  ∀ f, userFrame (pageEntry s root va) = some f → uses (view s live) f = 1

/-- A present page is a user page. -/
def NotKernel (s : Mem) (root : Frame) (va : ℕ) : Prop :=
  (pageEntry s root va).present = true → (pageEntry s root va).user = true

/-- The new frame of a page, if it has one, was mapped nowhere before. -/
def FreshFrame (s : Mem) (live : List Frame) (e : Pte) : Prop :=
  ∀ f, userFrame e = some f → ∀ x, view s live x ≠ some f

/-- A page that is not shared stays so when another one gets a fresh frame or none. -/
theorem Sole.rewritten (hsole : Sole s live root va') (h : Sane s live label origin)
    (hroot : root ∈ live) (hrewritten : Rewritten s s' live root va e) (hlow : LowerHalf va)
    (hne : vpage va' ≠ vpage va) (hfresh : FreshFrame s live e) : Sole s' live root va' := by
  intro f hf
  rw [hrewritten.2 root hroot va' (.inl hne)] at hf
  obtain ⟨-, huser, -⟩ := userFrame_eq_some.mp hf
  have hlow' := (h.pages root hroot va').2 huser
  have hx' := (view_slotOf hroot hlow').trans hf
  have hone := hsole f hf
  have hother : view s live (slotOf root va hlow) ≠ some f := fun hx => by
    have hslot := eq_of_uses_eq_one hone hx hx'
    exact hne (congrArg (fun x => x.2.val) hslot)
  rw [(hrewritten.view hroot hlow).1, uses_update_of_ne hother fun he => hfresh f he _ hx', hone]

theorem Sole.unchanged (hsole : Sole s live root va) (h : Unchanged s s' live)
    (hroot : root ∈ live) : Sole s' live root va := by
  intro f hf
  rw [h root hroot va] at hf
  rw [h.view.1]
  exact hsole f hf

theorem NotKernel.unchanged (huser : NotKernel s root va) (h : Unchanged s s' live)
    (hroot : root ∈ live) : NotKernel s' root va := by
  rw [NotKernel, h root hroot va]
  exact huser

namespace Sane

/-! ## `munmap` -/

/-- The body of `munmap` on a page that is not shared. -/
theorem unmapOne (h : Sane s live label origin) (hroot : root ∈ live)
    (huser : NotKernel s root va) (hsole : Sole s live root va) :
    Sane (Syscall.unmapOne root s va) live label origin ∧
      (Unchanged s (Syscall.unmapOne root s va) live ∨
        LowerHalf va ∧ Rewritten s (Syscall.unmapOne root s va) live root va noEntry) := by
  have hspace := h.space root hroot
  unfold Syscall.unmapOne
  rw [translate_eq h.tables hspace]
  by_cases hpresent : (pageEntry s root va).present = true
  · rw [if_pos hpresent]
    dsimp only
    rw [frame_of_phys]
    have hold := huser hpresent
    have hf := userFrame_eq_some.mpr ⟨hpresent, hold, rfl⟩
    have hlow := (h.pages root hroot va).2 hold
    obtain ⟨hlt, hmap, hlabel, -⟩ := h.mapped hroot hf
    have hx := (view_slotOf hroot hlow).trans hf
    obtain ⟨s₁, hs₁, hframes, -, hput⟩ := unmapPage_spec h.tables hspace hpresent hold
    rw [hs₁]
    have horderly := h.of_put hput hlow hroot nofun
    have hrewritten : Rewritten s (s₁.freePage (pageEntry s root va).frame) live root va noEntry :=
      hput.rewritten hlow h.space
    obtain ⟨hview, hwritable⟩ := hrewritten.view hroot hlow
    refine ⟨⟨horderly.freePage hlabel ?_ ?_, ?_⟩, .inr ⟨hlow, hrewritten⟩⟩
    · rwa [hframes]
    · rwa [hframes]
    · rw [hview, hwritable, freePage_frames, hframes]
      exact h.ledger.remove hx (hsole _ hf)
  · rw [if_neg hpresent]
    exact ⟨h, .inl fun _ _ _ => rfl⟩

end Sane

/-- Unmapping a page that is not shared does not make another one shared. -/
theorem Sole.unmapOne (hsole' : Sole s live root va') (h : Sane s live label origin)
    (hroot : root ∈ live) (huser : NotKernel s root va) (hsole : Sole s live root va) :
    Sole (Syscall.unmapOne root s va) live root va' := by
  obtain ⟨-, hunchanged | ⟨hlow, hrewritten⟩⟩ := h.unmapOne hroot huser hsole
  · exact hsole'.unchanged hunchanged hroot
  · by_cases hsame : vpage va' = vpage va
    · intro f hf
      rw [pageEntry_congr hsame, hrewritten.1] at hf
      cases hf
    · exact hsole'.rewritten h hroot hrewritten hlow hsame fun f hf => nomatch hf

theorem NotKernel.unmapOne (huser' : NotKernel s root va') (h : Sane s live label origin)
    (hroot : root ∈ live) (huser : NotKernel s root va) (hsole : Sole s live root va) :
    NotKernel (Syscall.unmapOne root s va) root va' := by
  obtain ⟨-, hunchanged | ⟨hlow, hrewritten⟩⟩ := h.unmapOne hroot huser hsole
  · exact huser'.unchanged hunchanged hroot
  · by_cases hsame : vpage va' = vpage va
    · rw [NotKernel, pageEntry_congr hsame, hrewritten.1]
      exact nofun
    · rw [NotKernel, hrewritten.2 root hroot va' (.inl hsame)]
      exact huser'

namespace Sane

section

variable (h : Sane s live label origin) (hroot : root ∈ live)

include h hroot

/-- Unmapping makes no page accessible. -/
theorem opens_unmapOne (huser : NotKernel s root va) (hsole : Sole s live root va) :
    Opens s (Syscall.unmapOne root s va) live root [] := by
  obtain ⟨-, hunchanged | ⟨-, hrewritten⟩⟩ := h.unmapOne hroot huser hsole
  · exact hunchanged.opens []
  · refine hrewritten.opens fun hva => ?_
    rw [Accessible, hrewritten.1] at hva
    simp at hva

/-- A loop of `unmapOne` over pages that are not shared. -/
theorem unmapAll (hpages : ∀ va ∈ pages, NotKernel s root va ∧ Sole s live root va) :
    Sane (pages.foldl (Syscall.unmapOne root) s) live label origin ∧
      Opens s (pages.foldl (Syscall.unmapOne root) s) live root [] := by
  refine (foldl_rule (fun rest s' => (Sane s' live label origin ∧ Opens s s' live root []) ∧
    ∀ va ∈ rest, NotKernel s' root va ∧ Sole s' live root va)
    ⟨⟨h, .refl⟩, hpages⟩ ?_).1
  rintro va rest s - ⟨⟨h, hopens⟩, hrest⟩
  obtain ⟨huser, hsole⟩ := hrest va mem_cons_self
  refine ⟨⟨(h.unmapOne hroot huser hsole).1, hopens.trans (h.opens_unmapOne hroot huser hsole)⟩,
    fun va' hva' => ?_⟩
  obtain ⟨huser', hsole'⟩ := hrest va' (mem_cons_of_mem _ hva')
  exact ⟨huser'.unmapOne h hroot huser hsole, hsole'.unmapOne h hroot huser hsole⟩

/-- The shrinking loop of `brk`, over pages that are not shared. -/
theorem shrinkAll (hpages : ∀ va ∈ pages, Sole s live root va) :
    Sane (pages.foldl (shrinkOne root) s) live label origin ∧
      Opens s (pages.foldl (shrinkOne root) s) live root [] := by
  refine (foldl_rule (fun rest s' => (Sane s' live label origin ∧ Opens s s' live root []) ∧
    ∀ va ∈ rest, Sole s' live root va) ⟨⟨h, .refl⟩, hpages⟩ ?_).1
  rintro va rest s - ⟨⟨h, hopens⟩, hrest⟩
  have hsole := hrest va mem_cons_self
  unfold shrinkOne
  split_ifs with hmapped
  · have huser : NotKernel s root va := fun _ => by
      rw [isUserMapped_eq h.tables (h.space root hroot)] at hmapped
      exact (Bool.and_eq_true_iff.mp hmapped).2
    exact ⟨⟨(h.unmapOne hroot huser hsole).1, hopens.trans (h.opens_unmapOne hroot huser hsole)⟩,
      fun va' hva' => (hrest va' (mem_cons_of_mem _ hva')).unmapOne h hroot huser hsole⟩
  · exact ⟨⟨h, hopens⟩, fun va' hva' => hrest va' (mem_cons_of_mem _ hva')⟩

end

end Sane

/-! ## `mprotect` -/

/-- A page with an entry of its own is a user page, and alone if it is to be written. -/
def Protectable (s : Mem) (live : List Frame) (root : Frame) (write : Bool) (va : ℕ) : Prop :=
  getPageFlags s root va ≠ none → (pageEntry s root va).user = true ∧
    (write = true → uses (view s live) (pageEntry s root va).frame = 1)

theorem getPageFlags_ne_none (hways : SameWays s label s') (hspace : Space label root)
    (hentry : pageEntry s' root va = pageEntry s root va) (h : getPageFlags s' root va ≠ none) :
    getPageFlags s root va ≠ none := by
  rw [Ne, getPageFlags_eq_none] at h ⊢
  rw [hentry] at h
  exact fun hold => h fun pt hwalk => hold pt ((hways root va pt hspace).mp hwalk)

theorem Protectable.setPageFlags (hok' : Protectable s live root newFlags.rw va')
    (h : Sane s live label origin) (hroot : root ∈ live) (hres : newFlags.reserved = false)
    (huser : newFlags.user = true) (hok : Protectable s live root newFlags.rw va) :
    Protectable (setPageFlags s root va newFlags).2 live root newFlags.rw va' := by
  intro hflags
  have hspace := h.space root hroot
  obtain ⟨-, hview, hways, hunchanged | ⟨hsome, hrewritten⟩⟩ := h.setPageFlags hroot hres huser hok
  · have hentry := hunchanged root hroot va'
    rw [hentry, hview]
    exact hok' (getPageFlags_ne_none hways hspace hentry hflags)
  · by_cases hsame : vpage va' = vpage va
    · rw [pageEntry_congr hsame, hrewritten.1, hview]
      exact ⟨huser, (hok hsome).2⟩
    · have hentry := hrewritten.2 root hroot va' (.inl hsame)
      rw [hentry, hview]
      exact hok' (getPageFlags_ne_none hways hspace hentry hflags)

section

variable (h : Sane s live label origin) (hroot : root ∈ live) (hres : newFlags.reserved = false)

include h hroot hres

/-- Protecting makes no page accessible. -/
theorem Sane.opens_setPageFlags (huser : newFlags.user = true)
    (hok : Protectable s live root newFlags.rw va) :
    Opens s (Paging.setPageFlags s root va newFlags).2 live root [] := by
  obtain ⟨-, -, -, hunchanged | ⟨hsome, hrewritten⟩⟩ := h.setPageFlags hroot hres huser hok
  · exact hunchanged.opens []
  · have hspace := h.space root hroot
    refine hrewritten.opens fun _ => .inl (.inl ⟨?_, (hok hsome).1⟩)
    rcases setPageFlags_spec h.tables hspace va hres with ⟨-, hnone⟩ | ⟨-, -, -, hpresent, -⟩
    · exact absurd hnone hsome
    · exact hpresent

theorem Sane.protectAll (huser : newFlags.user = true)
    (hpages : ∀ va ∈ pages, Protectable s live root newFlags.rw va) :
    Sane (pages.foldl (fun s va => (Paging.setPageFlags s root va newFlags).2) s) live label
        origin ∧
      Opens s (pages.foldl (fun s va => (Paging.setPageFlags s root va newFlags).2) s) live root
        [] := by
  refine (foldl_rule (fun rest s' => (Sane s' live label origin ∧ Opens s s' live root []) ∧
    ∀ va ∈ rest, Protectable s' live root newFlags.rw va)
    ⟨⟨h, .refl⟩, hpages⟩ ?_).1
  rintro va rest s - ⟨⟨h, hopens⟩, hrest⟩
  have hok := hrest va mem_cons_self
  exact ⟨⟨(h.setPageFlags hroot hres huser hok).1,
    hopens.trans (h.opens_setPageFlags hroot hres huser hok)⟩, fun va' hva' =>
    (hrest va' (mem_cons_of_mem _ hva')).setPageFlags h hroot hres huser hok⟩

end

/-! ## Reserving -/

/-- No user page is there. -/
def Vacant (s : Mem) (root : Frame) (va : ℕ) : Prop := userFrame (pageEntry s root va) = none

theorem Vacant.rewritten (hvacant : Vacant s root va') (h : Rewritten s s' live root va e)
    (hroot : root ∈ live) (hne : vpage va' = vpage va → userFrame e = none) :
    Vacant s' root va' := by
  by_cases hsame : vpage va' = vpage va
  · rw [Vacant, pageEntry_congr hsame, h.1]
    exact hne hsame
  · rw [Vacant, h.2 root hroot va' (.inl hsame)]
    exact hvacant

namespace Sane

theorem mapAnonymous (h : Sane s live label origin) (hroot : root ∈ live) {prot : ℕ}
    (hpages : ∀ va ∈ pageRange mapAddr npages, LowerHalf va ∧ Vacant s root va) :
    ∃ label', Sane (Syscall.mapAnonymous root mapAddr prot npages s).2 live label' origin ∧
      Opens s (Syscall.mapAnonymous root mapAddr prot npages s).2 live root
        (pageRange mapAddr npages) := by
  refine Outcome.both (forEach_range (fun _ s' => (∃ label, Sane s' live label origin ∧
      Opens s s' live root (pageRange mapAddr npages)) ∧
    ∀ va ∈ pageRange mapAddr npages, LowerHalf va ∧ Vacant s' root va)
    ⟨⟨label, h, .refl⟩, hpages⟩ ?_)
    (fun _ hdone => hdone.1) fun _ hfailed => hfailed
  rintro i s hi ⟨⟨label, h, hopens⟩, hpages⟩
  have hmem : wrapAdd mapAddr (i * 4096) ∈ pageRange mapAddr npages :=
    mem_map.mpr ⟨i, mem_range.mpr hi, rfl⟩
  obtain ⟨hlow, hvacant⟩ := hpages _ hmem
  obtain ⟨s', label', hsane, -, ⟨hfail, hunchanged, -⟩ | ⟨hdone, hrewritten⟩⟩ :=
    h.mapReserved hroot hlow hvacant (show (mmapFlags prot).user = true from rfl)
  · rw [hfail]
    exact .of_failed ⟨label', hsane, hopens.trans (hunchanged.opens _)⟩
  · rw [hdone]
    exact .of_done ⟨⟨label', hsane, hopens.trans (hrewritten.opens fun _ => .inr hmem)⟩,
      fun va hva =>
      ⟨(hpages va hva).1, (hpages va hva).2.rewritten hrewritten hroot fun _ => rfl⟩⟩

theorem growAll (h : Sane s live label origin) (hroot : root ∈ live)
    (hpages : ∀ va ∈ pages, LowerHalf va) :
    ∃ label', Sane (forEach (growOne root) pages s).2 live label' origin ∧
      Opens s (forEach (growOne root) pages s).2 live root pages := by
  refine Outcome.both (forEach_rule (fun rest s' => (∃ label, Sane s' live label origin ∧
      Opens s s' live root pages) ∧ ∀ va ∈ rest, LowerHalf va)
    ⟨⟨label, h, .refl⟩, hpages⟩ ?_)
    (fun _ hdone => hdone.1) fun _ hfailed => hfailed
  rintro va rest s hsuffix ⟨⟨label, h, hopens⟩, hrest⟩
  have hmem : va ∈ pages := hsuffix.subset mem_cons_self
  have hlow := hrest va mem_cons_self
  have hrest' : ∀ va ∈ rest, LowerHalf va := fun va hva => hrest va (mem_cons_of_mem _ hva)
  unfold growOne
  split_ifs with hfree
  · have hvacant : Vacant s root va := by
      rw [isUserMapped_eq h.tables (h.space root hroot)] at hfree
      have hnot := (Bool.and_eq_true_iff.mp hfree).1
      rw [Bool.not_eq_true'] at hnot
      simp [Vacant, userFrame, hnot]
    obtain ⟨s', label', hsane, -, ⟨hfail, hunchanged, -⟩ | ⟨hdone, hrewritten⟩⟩ :=
      h.mapReserved hroot hlow hvacant (show sharedFlags.user = true from rfl)
    · rw [hfail]
      exact .of_failed ⟨label', hsane, hopens.trans (hunchanged.opens _)⟩
    · rw [hdone]
      exact .of_done
        ⟨⟨label', hsane, hopens.trans (hrewritten.opens fun _ => .inr hmem)⟩, hrest'⟩
  · exact .of_done ⟨⟨label, h, hopens⟩, hrest'⟩

end Sane

/-! ## A file-backed `mmap` -/

/-- Pages of one range in the lower half are different pages. -/
theorem vpage_ne_of_lt (halign : mapAddr % 4096 = 0)
    (hlow : ∀ i < npages, LowerHalf (wrapAdd mapAddr (i * 4096))) {i j : ℕ} (hij : i < j)
    (hj : j < npages) :
    vpage (wrapAdd mapAddr (i * 4096)) ≠ vpage (wrapAdd mapAddr (j * 4096)) := by
  intro heq
  have hi := hlow i (by omega)
  -- were they the same, the pages between them would not all be in the lower half
  have hmid := hlow (i + 2 ^ 35)
  simp only [LowerHalf, vpage, wrapAdd] at heq hi hmid
  omega

/-- A page with a fresh frame is not shared. -/
theorem Sole.fresh {page : Frame} (h : Rewritten s s' live root va e) (hroot : root ∈ live)
    (hlow : LowerHalf va) (he : userFrame e = some page)
    (hfresh : ∀ x, view s live x ≠ some page) : Sole s' live root va := by
  intro f hf
  rw [h.1, he] at hf
  cases hf
  rw [(h.view hroot hlow).1, he, uses_update_add (hfresh _)]
  rw [uses_eq_zero.mpr hfresh]

namespace Sane

/-- The contents of a user page may be written. -/
theorem fill (h : Sane s live label origin) (hroot : root ∈ live) {f : Frame}
    (hf : userFrame (pageEntry s root va) = some f) (words : ℕ → BitVec 64) :
    Sane (s.fill f words) live label origin ∧ Unchanged s (s.fill f words) live := by
  obtain ⟨hlt, hone, hlabel, -⟩ := h.mapped hroot hf
  have hsame : SameTables s label (s.fill f words) := fun t l hl =>
    Function.update_of_ne (fun heq => by rw [heq, hlabel] at hl; cases hl) _ _
  have hunchanged := h.unchanged_same hsame
  refine ⟨⟨h.toOrderly.fill hlabel (h.ne_bootPml4 hlt hone) words, ?_⟩, hunchanged⟩
  rw [hunchanged.view.1, hunchanged.view.2]
  exact h.ledger

/-- The loop of a file-backed `mmap`, with its roll-back. -/
theorem mapFile (h : Sane s live label origin) (hroot : root ∈ live) (halign : mapAddr % 4096 = 0)
    (prot : ℕ) (contents : ℕ → ℕ → BitVec 64)
    (hlow : ∀ i < npages, LowerHalf (wrapAdd mapAddr (i * 4096)))
    (hvacant : ∀ i < npages, Vacant s root (wrapAdd mapAddr (i * 4096))) :
    ∃ label', Sane (Syscall.mapFile root mapAddr prot contents npages s).2 live label' origin ∧
      Opens s (Syscall.mapFile root mapAddr prot contents npages s).2 live root
        (pageRange mapAddr npages) := by
  refine Outcome.both (forEach_range (fun k s' => (∃ label, Sane s' live label origin ∧
      Opens s s' live root (pageRange mapAddr npages)) ∧
    (∀ i, k ≤ i → i < npages → Vacant s' root (wrapAdd mapAddr (i * 4096))) ∧
    ∀ i < k, NotKernel s' root (wrapAdd mapAddr (i * 4096)) ∧
      Sole s' live root (wrapAdd mapAddr (i * 4096)))
    ⟨⟨label, h, .refl⟩, fun i _ hi => hvacant i hi,
      nofun⟩ ?_)
    (fun _ hdone => hdone.1) fun _ hfailed => hfailed
  rintro k s hk ⟨⟨label, h, hopens⟩, hvacant, hmapped⟩
  have hne : ∀ i, i ≠ k → i < npages →
      vpage (wrapAdd mapAddr (i * 4096)) ≠ vpage (wrapAdd mapAddr (k * 4096)) := by
    intro i hik hi
    rcases lt_or_gt_of_ne hik with hlt | hgt
    · exact vpage_ne_of_lt halign hlow hlt hk
    · exact (vpage_ne_of_lt halign hlow hgt hi).symm
  obtain ⟨s', label', hsane, ⟨hfail, hunchanged⟩ | ⟨page, hdone, hrewritten, hfresh⟩⟩ :=
    h.mapFresh hroot (hlow k hk) (hvacant k (le_refl k) hk)
      (show (mmapFlags prot).user = true from rfl) rfl
  · -- out of memory: the pages mapped so far are unmapped again
    rw [hfail]
    obtain ⟨hback, hclosed⟩ := hsane.unmapAll hroot fun va hva => by
      obtain ⟨i, hi, rfl⟩ := mem_map.mp hva
      obtain ⟨huser, hsole⟩ := hmapped i (mem_range.mp hi)
      exact ⟨huser.unchanged hunchanged hroot, hsole.unchanged hunchanged hroot⟩
    exact .of_failed ⟨label', hback,
      (hopens.trans (hunchanged.opens _)).trans (hclosed.mono (nil_subset _))⟩
  · have hpage : userFrame (pageEntry s' root (wrapAdd mapAddr (k * 4096))) = some page := by
      rw [hrewritten.1]
      rfl
    obtain ⟨hfilled, hunchanged⟩ := hsane.fill hroot hpage (contents k)
    have hrewritten' := hrewritten.unchanged hunchanged hroot
    rw [hdone]
    have hmem : wrapAdd mapAddr (k * 4096) ∈ pageRange mapAddr npages :=
      mem_map.mpr ⟨k, mem_range.mpr hk, rfl⟩
    refine .of_done ⟨⟨label', hfilled, hopens.trans (hrewritten'.opens fun _ => .inr hmem)⟩,
      fun i hki hi => ?_, fun i hi => ?_⟩
    · have hother := hne i (by omega) hi
      exact (hvacant i (by omega) hi).rewritten hrewritten' hroot fun heq => absurd heq hother
    · rcases Nat.lt_succ_iff_lt_or_eq.mp hi with hlt | rfl
      · have hother := hne i (by omega) (by omega)
        obtain ⟨huser, hsole⟩ := hmapped i hlt
        refine ⟨?_, hsole.rewritten h hroot hrewritten' (hlow k hk) hother fun f hf x => ?_⟩
        · rw [NotKernel, hrewritten'.2 root hroot _ (.inl hother)]
          exact huser
        · cases hf
          exact hfresh x
      · refine ⟨fun _ => ?_, Sole.fresh hrewritten' hroot (hlow i hk) rfl hfresh⟩
        rw [hrewritten'.1]
        rfl

end Sane

end Shitix.Paging
