import Shitix.Sharing.Protect
import Shitix.Syscall.FileMap

/-!
# What a failed `mmap` leaves behind

A call that fails has moved the placement pointer, the file position and, unless it takes all
back, the page tables.  Tables that were built for the range stay, so the number of free
pages is the old one only if none was built; the pages of a file that were mapped are unmapped
again, so the entries are the old ones only if there were none; and pages that were
reserved stay reserved.

The loop over the pages of a file is followed by `Tight`, which holds as long as no table was
built and says which frame each page got, and `Lost`, which holds once a table was built.
-/

namespace Shitix.Paging

open Mem Syscall List Nat

variable {s s' s₀ s'' : Mem} {label label' : Frame → Option Label} {root page : Frame}
  {va va' mapAddr i j npages : ℕ}

/-! ## Frames taken on the way down -/

/-- The last-level table of an address exists. -/
def hasTable (s : Mem) (pml4 : Frame) (va : ℕ) : Bool :=
  match walk s pml4 va with
  | .table _ => true
  | _ => false

theorem hasTable_iff : hasTable s root va = true ↔ ∃ pt, walk s root va = .table pt := by
  unfold hasTable
  split
  · next pt hwalk => simp [hwalk]
  · next hother =>
    simp only [Bool.false_eq_true, false_iff]
    rintro ⟨pt, hwalk⟩
    exact hother pt hwalk

/-- The tables hang together as before. -/
def SameSlots (s s' : Mem) : Prop :=
  ∀ height t i, (slots s').slot height t i = (slots s).slot height t i

theorem SameSlots.trans (h : SameSlots s s') (h' : SameSlots s' s'') : SameSlots s s'' :=
  fun height t i => (h' height t i).trans (h height t i)

theorem SameSlots.reach (h : SameSlots s s') (height : ℕ) (t : Frame) (key : ℕ) :
    (slots s').reach 512 height t key = (slots s).reach 512 height t key := by
  induction height generalizing t with
  | zero => rfl
  | succ n ih =>
    rw [Radix.reach, Radix.reach, h]
    cases (slots s).slot (n + 1) t (key / 512 ^ (n + 1) % 512) with
    | inl next => exact ih next
    | inr values => rfl

theorem SameSlots.hasTable_eq (h : SameSlots s s') : hasTable s' root va = hasTable s root va := by
  have hreach := h.reach 3 root (va / 4096)
  rw [(walk_spec ..).2, (walk_spec ..).2] at hreach
  unfold hasTable
  split at hreach <;> split at hreach <;> simp_all

theorem sameSlots_user {t : Frame} {idx : ℕ} (hflat : (s.entry t idx).huge = false) :
    SameSlots s (s.setEntry t idx { s.entry t idx with user := true }) := by
  intro height x i
  by_cases hsame : x = t ∧ i = idx
  · obtain ⟨rfl, rfl⟩ := hsame
    simp only [slots, entry_setEntry_self, hflat]
    rfl
  · exact slot_congr (entry_setEntry_of_ne fun hx hi => hsame ⟨hx, hi⟩) _

theorem getFreePage_length (h : s.getFreePage = some (page, s')) :
    s.frames.free.length = s'.frames.free.length + 1 := by
  obtain ⟨hfree, hf'⟩ := Frames.getFreePage_eq_some (getFreePage_eq_some h).1
  rw [hfree, length_cons]

/-- No frame is taken and the tree is left alone, or frames are taken. -/
def Spends (s s' : Mem) : Prop :=
  SameSlots s s' ∧ s'.frames = s.frames ∨ s'.frames.free.length < s.frames.free.length

theorem Spends.refl (s : Mem) : Spends s s := .inl ⟨fun _ _ _ => rfl, rfl⟩

theorem Spends.le (h : Spends s s') : s'.frames.free.length ≤ s.frames.free.length := by
  rcases h with ⟨-, hframes⟩ | hless
  · rw [hframes]
  · exact le_of_lt hless

theorem Spends.trans (h : Spends s s') (h' : Spends s' s'') : Spends s s'' := by
  rcases h with ⟨hslots, hframes⟩ | hless
  · rcases h' with ⟨hslots', hframes'⟩ | hless'
    · exact .inl ⟨hslots.trans hslots', hframes'.trans hframes⟩
    · exact .inr (hframes ▸ hless')
  · exact .inr (lt_of_le_of_lt h'.le hless)

theorem Spends.of_taken {page : Frame} (hget : s.getFreePage = some (page, s'))
    {s'' : Mem} (hframes : s''.frames = s'.frames) : Spends s s'' := by
  refine .inr ?_
  rw [getFreePage_length hget, hframes]
  exact lt_add_one _

theorem nextLevel_spends (s : Mem) (t : Frame) (idx : ℕ) (user : Bool) :
    Spends s (nextLevel s t idx user).2 := by
  unfold nextLevel
  by_cases hpresent : (s.entry t idx).present = true
  · rw [if_pos hpresent]
    by_cases hhuge : (s.entry t idx).huge = true
    · rw [if_pos hhuge]
      cases hget : s.getFreePage with
      | none => exact .refl s
      | some taken =>
        refine .of_taken hget ?_
        rw [frames_setEntry, splitInto_frames]
    · split_ifs
      · exact .inl ⟨sameSlots_user (by simpa using hhuge), rfl⟩
      · exact .refl s
  · rw [if_neg hpresent]
    cases hget : s.getFreePage with
    | none => exact .refl s
    | some taken =>
      exact .of_taken hget frames_setEntry

theorem leafTable_spends (s : Mem) (pml4 : Frame) (va : ℕ) (user : Bool) :
    Spends s (leafTable s pml4 va user).2 := by
  unfold leafTable
  have hfirst := nextLevel_spends s pml4 (pml4Index va) user
  rcases hnext : nextLevel s pml4 (pml4Index va) user with ⟨pdpt, s₁⟩
  rw [hnext] at hfirst
  cases pdpt with
  | none => exact hfirst
  | some pdpt =>
    have hsecond := hfirst.trans (nextLevel_spends s₁ pdpt (pdptIndex va) user)
    dsimp only
    rcases hnext₁ : nextLevel s₁ pdpt (pdptIndex va) user with ⟨pd, s₂⟩
    rw [hnext₁] at hsecond
    cases pd with
    | none => exact hsecond
    | some pd => exact hsecond.trans (nextLevel_spends s₂ pd (pdIndex va) user)

section

variable (h : Tables s label) (hr : Space label root)

include h hr

/-- Without memory the way down changes nothing, and it ends where it ended before. -/
theorem leafTable_starved (hfree : s.frames.free = []) (va : ℕ) (user : Bool) :
    (leafTable s root va user).2.frames = s.frames ∧ SameSlots s (leafTable s root va user).2 ∧
      ((leafTable s root va user).1.isSome = true ↔ hasTable s root va = true) := by
  rcases leafTable_spends s root va user with ⟨hslots, hframes⟩ | hless
  · refine ⟨hframes, hslots, ?_⟩
    rw [← hslots.hasTable_eq, hasTable_iff]
    obtain ⟨s', label', -, ⟨hnone, -, hmissing⟩ | ⟨pt, hsome, hwalk⟩⟩ :=
      leafTable_spec h hr va user
    · rw [hnone]
      simpa using hmissing
    · rw [hsome]
      simpa using ⟨pt, hwalk⟩
  · rw [hfree] at hless
    exact absurd hless (not_lt_zero _)

/-- A table that is missing costs a frame, unless there is none. -/
theorem leafTable_missing (hfree : s.frames.free ≠ []) (hmissing : hasTable s root va = false)
    (user : Bool) : (leafTable s root va user).2.frames.free.length < s.frames.free.length := by
  rcases leafTable_spends s root va user with ⟨hslots, hframes⟩ | hless
  · rw [← hslots.hasTable_eq, ← Bool.not_eq_true, hasTable_iff] at hmissing
    obtain ⟨s', label', -, ⟨hnone, hempty, -⟩ | ⟨pt, hsome, hwalk⟩⟩ := leafTable_spec h hr va user
    · rw [hnone] at hframes
      exact absurd (hframes ▸ hempty) hfree
    · rw [hsome] at hmissing
      exact absurd ⟨pt, hwalk⟩ hmissing
  · exact hless

/-- Where the tables exist, the entry of a page is written without taking a frame. -/
theorem leafTable_ready (htable : hasTable s root va = true) (user : Bool) {e : Pte}
    (hclean : e.present = true → e.reserved = false) :
    ∃ pt s' label', leafTable s root va user = (some pt, s') ∧ s'.frames = s.frames ∧
      Put s label (s'.setEntry pt (ptIndex va) e) label' root va e ∧
      ∀ va', hasTable (s'.setEntry pt (ptIndex va) e) root va' = hasTable s root va' := by
  obtain ⟨pt, hwalk⟩ := hasTable_iff.mp htable
  have hframes := leafTable_frames h hr hwalk user
  have hslots : SameSlots s (leafTable s root va user).2 := by
    rcases leafTable_spends s root va user with ⟨hslots, -⟩ | hless
    · exact hslots
    · rw [hframes] at hless
      exact absurd hless (lt_irrefl _)
  obtain ⟨s', label', hgrown, ⟨-, -, hmissing⟩ | ⟨pt', hsome, hwalk'⟩⟩ := leafTable_spec h hr va user
  · exact absurd (hgrown.walk h hr hwalk) (hmissing pt)
  have hspace := hgrown.space hr
  rw [hsome] at hframes hslots
  refine ⟨pt', s', label', hsome, hframes,
    hgrown.put (put_setEntry hgrown.tables hspace hwalk' hclean), fun va' => ?_⟩
  have hways := sameWays_setEntry hgrown.tables (label_of_walk hgrown.tables hspace hwalk')
    (leafLabel_height root _) (ptIndex va) e
  rw [← hslots.hasTable_eq, Bool.eq_iff_iff, hasTable_iff, hasTable_iff]
  exact exists_congr fun x => hways root va' x hspace

end

theorem SameTables.hasTable_eq (hsame : SameTables s label s') (h : Tables s label)
    (hr : Space label root) : hasTable s' root va = hasTable s root va := by
  have hreach : (slots s').reach 512 3 root (va / 4096) = (slots s).reach 512 3 root (va / 4096) :=
    Radix.reach_write h.labelled (by omega)
      (fun _ _ _ i hl _ => slot_congr (hsame.entry hl i) _) hr rfl (va / 4096)
  rw [(walk_spec ..).2, (walk_spec ..).2] at hreach
  unfold hasTable
  split at hreach <;> split at hreach <;> simp_all

/-! ## The pages of a range -/

/-- Page `i` of a range. -/
def pageAt (mapAddr i : ℕ) : ℕ := wrapAdd mapAddr (i * 4096)

theorem vpage_pageAt_ne (halign : mapAddr % 4096 = 0) (hij : i ≠ j) (hi : i < 2 ^ 36)
    (hj : j < 2 ^ 36) : vpage (pageAt mapAddr i) ≠ vpage (pageAt mapAddr j) := by
  simp only [pageAt, vpage, wrapAdd]
  omega

/-- There are fewer frames than pages in an address space. -/
theorem free_length_lt (h : s.frames.Consistent) : s.frames.free.length < 2 ^ 36 := by
  have hsub : s.frames.free ⊆ range s.frames.nrPages := fun pfn hpfn =>
    mem_range.mpr (h.managed pfn hpfn)
  have hle := (subperm_of_subset h.nodup hsub).length_le
  rw [length_range] at hle
  have := s.bounded.nrPages_le
  omega

/-- The frame at a place of the free list. -/
def freeFrame (s : Mem) (j : ℕ) : Frame := BitVec.ofNat 40 (s.frames.free.getD j 0)

theorem toNat_freeFrame (hj : j < s.frames.free.length) :
    (freeFrame s j).toNat = s.frames.free[j] := by
  have hmem := s.bounded.free_lt _ (getElem_mem hj)
  have hle := s.bounded.nrPages_le
  rw [freeFrame, getD_eq_getElem _ _ hj, BitVec.toNat_ofNat, mod_eq_of_lt (by omega)]

theorem freeFrame_ne (h : s.frames.Consistent) (hij : i ≠ j) (hi : i < s.frames.free.length)
    (hj : j < s.frames.free.length) : (freeFrame s i).toNat ≠ (freeFrame s j).toNat := by
  rw [toNat_freeFrame hi, toNat_freeFrame hj, Ne, h.nodup.getElem_inj_iff]
  exact hij

/-! ## The loop over the pages of a file -/

/-- `k` pages were mapped, each to the next free frame, and no table was built. -/
structure Tight (s₀ : Mem) (root : Frame) (mapAddr : ℕ) (prot : Flags)
    (label : Frame → Option Label) (k : ℕ) (s : Mem) : Prop where
  tables : Tables s label
  space : Space label root
  le : k ≤ s₀.frames.free.length
  free : s.frames.free = s₀.frames.free.drop k
  nrPages : s.frames.nrPages = s₀.frames.nrPages
  ways : ∀ va, hasTable s root va = hasTable s₀ root va
  tabled : ∀ j < k, hasTable s₀ root (pageAt mapAddr j) = true
  held : ∀ j < k, s.frames.memMap (freeFrame s₀ j).toNat = 1
  data : ∀ j < k, label (freeFrame s₀ j) = none
  mapped : ∀ j < k, pageEntry s root (pageAt mapAddr j) =
    ⟨{ prot with present := true }, freeFrame s₀ j⟩
  others : ∀ va, (∀ j < k, vpage va ≠ vpage (pageAt mapAddr j)) →
    pageEntry s root va = pageEntry s₀ root va

/-- A table was built: a frame is gone for good. -/
structure Lost (s₀ : Mem) (root : Frame) (mapAddr k : ℕ) (s : Mem) : Prop where
  less : s.frames.free.length + k < s₀.frames.free.length
  missing : ∃ j, j + 1 < s₀.frames.free.length ∧ hasTable s₀ root (pageAt mapAddr j) = false

section FileLoop

variable {mapAddr k : ℕ} {prot : Flags}

theorem Tight.start (h : Tables s label) (hr : Space label root) :
    Tight s root mapAddr prot label 0 s where
  tables := h
  space := hr
  le := zero_le _
  free := rfl
  nrPages := rfl
  ways := fun _ => rfl
  tabled := nofun
  held := nofun
  data := nofun
  mapped := nofun
  others := fun _ _ => rfl

/-- The next frame is the one at place `k`. -/
theorem Tight.next (h : Tight s₀ root mapAddr prot label k s) {s₁ : Mem}
    (hget : s.getFreePage = some (page, s₁)) : k < s₀.frames.free.length ∧ page = freeFrame s₀ k ∧
      s₁.frames.free = s₀.frames.free.drop (k + 1) := by
  obtain ⟨hfree, -⟩ := Frames.getFreePage_eq_some (getFreePage_eq_some hget).1
  rw [h.free] at hfree
  have hk : k < s₀.frames.free.length := by
    by_contra hk
    rw [drop_eq_nil_of_le (by omega)] at hfree
    cases hfree
  rw [drop_eq_getElem_cons hk] at hfree
  obtain ⟨hhead, htail⟩ := cons.inj hfree
  refine ⟨hk, BitVec.eq_of_toNat_eq ?_, htail.symm⟩
  rw [toNat_freeFrame hk, hhead]

/-- A frame that is in use does not become a table. -/
theorem Alloc.label_of_held {scope : Label → Prop} (h : Alloc scope s label s' label') {f : Frame}
    (hnone : label f = none) (hone : s.frames.memMap f.toNat = 1) : label' f = none := by
  by_contra hsome
  have hzero := (h.taken f hnone hsome).1
  omega

theorem freePage_free (frames : Frames) {f : Frame} (hlt : f.toNat < frames.nrPages)
    (hone : frames.memMap f.toNat = 1) :
    (frames.freePage f.toNat).free = f.toNat :: frames.free := by
  have hnot : ¬ PageAlloc.isReserved (frames.memMap f.toNat) = true := by
    rw [hone]
    decide
  rw [Frames.freePage, if_neg (not_le.mpr hlt), if_neg (by omega), if_neg hnot, if_pos hone]

section

variable (h : Tight s₀ root mapAddr prot label k s) (hcons : s₀.frames.Consistent)

include h hcons

/-- The counts of the frames already mapped stay when another frame is taken. -/
theorem Tight.held_taken {s₁ : Mem} (hget : s.getFreePage = some (page, s₁)) :
    ∀ j < k + 1, s₁.frames.memMap (freeFrame s₀ j).toNat = 1 := by
  obtain ⟨hk, rfl, -⟩ := h.next hget
  obtain ⟨-, hself, -, hrest⟩ := Ledger.taken_counts (getFreePage_eq_some hget).1
  refine forall_lt_succ_right.mpr ⟨fun j hj => ?_, hself⟩
  have hne : freeFrame s₀ j ≠ freeFrame s₀ k := fun heq =>
    freeFrame_ne hcons hj.ne (by omega) hk (congrArg BitVec.toNat heq)
  rw [(hrest _ hne).1]
  exact h.held j hj

/-- A page whose table exists gets the next free frame. -/
theorem Tight.map (halign : mapAddr % 4096 = 0) (hprot : prot.reserved = false)
    (htable : hasTable s₀ root (pageAt mapAddr k) = true) {s₁ : Mem}
    (hget : s.getFreePage = some (page, s₁)) (words : ℕ → BitVec 64) :
    ∃ s₂ label', mapPage s₁ root (pageAt mapAddr k) page prot = (true, s₂) ∧
      Tight s₀ root mapAddr prot label' (k + 1) (s₂.fill page words) := by
  obtain ⟨hk, hpage, hfree₁⟩ := h.next hget
  have hheld := h.held_taken hcons hget
  have hlength := free_length_lt hcons
  obtain ⟨htables₁, hsame₁, hlabel, -⟩ := getFreePage_data h.tables hget
  have hways₁ : ∀ va, hasTable s₁ root va = hasTable s₀ root va := fun va =>
    (hsame₁.hasTable_eq h.tables h.space).trans (h.ways va)
  obtain ⟨pt, s', label', hleaf, hframes, hput, hways⟩ := leafTable_ready htables₁ h.space
    ((hways₁ _).trans htable) prot.user (e := ⟨{ prot with present := true }, page⟩) fun _ => hprot
  -- the frames that are in use stay out of the tables
  have hdata : ∀ j < k + 1, label' (freeFrame s₀ j) = none := by
    intro j hj
    refine hput.toAlloc.label_of_held ?_ (hheld j hj)
    exact forall_lt_succ_right.mpr ⟨h.data, hpage ▸ hlabel⟩ j hj
  have hfill : SameTables (s'.setEntry pt (ptIndex (pageAt mapAddr k))
      ⟨{ prot with present := true }, page⟩) label' ((s'.setEntry pt (ptIndex (pageAt mapAddr k))
      ⟨{ prot with present := true }, page⟩).fill page words) := by
    intro t l hl
    refine Function.update_of_ne (fun heq => ?_) _ _
    rw [heq, hpage, hdata k (lt_add_one k)] at hl
    cases hl
  have hspace := hput.keeps _ _ h.space
  have hentry : ∀ va, pageEntry _ root va = pageEntry _ root va :=
    hfill.pageEntry hput.tables hspace
  refine ⟨_, label', by rw [mapPage, hleaf], ?_⟩
  refine ⟨hfill.tables hput.tables rfl (fun _ _ _ => rfl) hput.tables.consistent, hspace, hk, ?_, ?_,
    fun va => ?_, forall_lt_succ_right.mpr ⟨h.tabled, htable⟩, ?_, hdata, ?_, ?_⟩
  · exact (congrArg Frames.free hframes).trans hfree₁
  · have hnr := (Ledger.taken_counts (getFreePage_eq_some hget).1).1
    exact (congrArg Frames.nrPages hframes).trans (hnr.trans h.nrPages)
  · rw [hfill.hasTable_eq hput.tables hspace, hways, hways₁]
  · intro j hj
    exact (congrArg (fun f : Frames => f.memMap (freeFrame s₀ j).toNat) hframes).trans (hheld j hj)
  · refine forall_lt_succ_right.mpr ⟨fun j hj => ?_, ?_⟩
    · have hne := vpage_pageAt_ne halign hj.ne (by omega) (by omega)
      rw [hentry, hput.other root _ h.space (.inl hne), hsame₁.pageEntry h.tables h.space]
      exact h.mapped j hj
    · rw [hentry, ← hpage]
      exact hput.self
  · intro va hva
    rw [hentry, hput.other root va h.space (.inl (hva k (lt_add_one k))),
      hsame₁.pageEntry h.tables h.space]
    exact h.others va fun j hj => hva j (by omega)

/-- The last frame is no use for a page whose table is missing: it is given back. -/
theorem Tight.stuck (hmissing : hasTable s₀ root (pageAt mapAddr k) = false) {s₁ : Mem}
    (hget : s.getFreePage = some (page, s₁)) (hlast : k + 1 = s₀.frames.free.length) :
    ∃ s₂ label', mapPage s₁ root (pageAt mapAddr k) page prot = (false, s₂) ∧
      Tight s₀ root mapAddr prot label' k (s₂.freePage page) := by
  obtain ⟨hk, hpage, hfree₁⟩ := h.next hget
  have hheld := h.held_taken hcons hget
  obtain ⟨htables₁, hsame₁, hlabel, hlt, -⟩ := getFreePage_data h.tables hget
  have hways₁ : ∀ va, hasTable s₁ root va = hasTable s₀ root va := fun va =>
    (hsame₁.hasTable_eq h.tables h.space).trans (h.ways va)
  have hempty : s₁.frames.free = [] := by
    rw [hfree₁]
    exact drop_eq_nil_of_le (by omega)
  obtain ⟨hframes, hslots, hfound⟩ := leafTable_starved htables₁ h.space hempty
    (pageAt mapAddr k) prot.user
  obtain ⟨s₂, label', hgrown, ⟨hnone, -, -⟩ | ⟨pt, hsome, -⟩⟩ :=
    leafTable_spec htables₁ h.space (pageAt mapAddr k) prot.user
  swap
  · rw [hsome, hways₁, hmissing] at hfound
    exact absurd (hfound.mp rfl) (by decide)
  rw [hnone] at hframes hslots
  have hone : s₂.frames.memMap page.toNat = 1 := by
    rw [hframes, hpage]
    exact hheld k (lt_add_one k)
  have hnr : s₂.frames.nrPages = s.frames.nrPages := by
    rw [hframes]
    exact (Ledger.taken_counts (getFreePage_eq_some hget).1).1
  have hmanaged : page.toNat < s₂.frames.nrPages := by rwa [hnr]
  have hlabel' : label' page = none := by
    refine hgrown.toAlloc.label_of_held hlabel ?_
    rw [← hframes]
    exact hone
  obtain ⟨hnr', -, hrest⟩ := Ledger.freed_counts s₂.frames hmanaged hone
  have hspace := hgrown.space h.space
  refine ⟨s₂, label', by rw [mapPage, hnone], ?_⟩
  refine ⟨hgrown.tables.freePage hlabel', hspace, h.le, ?_, ?_, fun va => ?_, h.tabled, ?_, ?_, ?_, ?_⟩
  · rw [freePage_frames, freePage_free _ hmanaged hone, hframes, hempty, hpage, toNat_freeFrame hk,
      drop_eq_getElem_cons hk, drop_eq_nil_of_le (by omega)]
  · rw [freePage_frames, hnr', hnr, h.nrPages]
  · exact (hslots.hasTable_eq).trans (hways₁ va)
  · intro j hj
    have hne : freeFrame s₀ j ≠ page := fun heq => by
      rw [hpage] at heq
      exact freeFrame_ne hcons (by omega) (by omega) hk (congrArg BitVec.toNat heq)
    rw [freePage_frames, (hrest _ hne).1, hframes]
    exact hheld j (by omega)
  · intro j hj
    exact hgrown.toAlloc.label_of_held (h.data j hj) (hheld j (by omega))
  · intro j hj
    exact (hgrown.pageEntry h.space _).trans
      ((hsame₁.pageEntry h.tables h.space _).trans (h.mapped j hj))
  · intro va hva
    exact (hgrown.pageEntry h.space _).trans
      ((hsame₁.pageEntry h.tables h.space _).trans (h.others va hva))

end

/-! ## Frames that are gone -/

theorem freePage_length_le (s : Mem) (f : Frame) :
    (s.freePage f).frames.free.length ≤ s.frames.free.length + 1 := by
  rw [freePage_frames, Frames.freePage]
  split_ifs <;> simp

/-- A fresh page costs a frame, and one that could not be mapped brings none. -/
theorem mapFresh_length (s : Mem) (root : Frame) (va : ℕ) (prot : Flags) :
    ((mapFresh s root va prot).1 ≠ none →
        (mapFresh s root va prot).2.frames.free.length + 1 ≤ s.frames.free.length) ∧
      (mapFresh s root va prot).2.frames.free.length ≤ s.frames.free.length := by
  unfold mapFresh
  cases hget : s.getFreePage with
  | none => exact ⟨fun hne => absurd rfl hne, le_rfl⟩
  | some taken =>
    obtain ⟨page, s₁⟩ := taken
    have hlength := getFreePage_length hget
    have hspent := (leafTable_spends s₁ root va prot.user).le
    dsimp only [mapPage]
    rcases hleaf : leafTable s₁ root va prot.user with ⟨pt, s₂⟩
    rw [hleaf] at hspent
    dsimp only at hspent
    cases pt with
    | none =>
      have hback := freePage_length_le s₂ page
      exact ⟨fun hne => absurd rfl hne, by dsimp only; omega⟩
    | some pt =>
      dsimp only [frames_setEntry]
      omega

/-- With a second frame at hand a missing table is built, and its frame does not come back. -/
theorem mapFresh_missing (h : Tables s label) (hr : Space label root)
    (hmissing : hasTable s root va = false) (hmore : 1 < s.frames.free.length) (prot : Flags) :
    ((mapFresh s root va prot).1 ≠ none →
        (mapFresh s root va prot).2.frames.free.length + 1 < s.frames.free.length) ∧
      (mapFresh s root va prot).2.frames.free.length < s.frames.free.length := by
  unfold mapFresh
  cases hget : s.getFreePage with
  | none =>
    rw [getFreePage_eq_none.mp hget] at hmore
    cases hmore
  | some taken =>
    obtain ⟨page, s₁⟩ := taken
    have hlength := getFreePage_length hget
    obtain ⟨htables₁, hsame₁, -⟩ := getFreePage_data h hget
    have hfree₁ : s₁.frames.free ≠ [] := fun hempty => by
      rw [hempty, length_nil] at hlength
      omega
    have hspent := leafTable_missing htables₁ hr hfree₁
      ((hsame₁.hasTable_eq h hr).trans hmissing) prot.user
    dsimp only [mapPage]
    rcases hleaf : leafTable s₁ root va prot.user with ⟨pt, s₂⟩
    rw [hleaf] at hspent
    dsimp only at hspent
    cases pt with
    | none =>
      have hback := freePage_length_le s₂ page
      exact ⟨fun hne => absurd rfl hne, by dsimp only; omega⟩
    | some pt =>
      dsimp only [frames_setEntry]
      omega

theorem unmapOne_length_le (root : Frame) (s : Mem) (va : ℕ) :
    (unmapOne root s va).frames.free.length ≤ s.frames.free.length + 1 := by
  have hframes : (unmapPage s root va).2.frames = s.frames := by
    unfold unmapPage
    split
    · dsimp only
      split_ifs <;> rfl
    · rfl
  unfold unmapOne
  split
  · omega
  · next phys _ =>
    have hback := freePage_length_le (unmapPage s root va).2 (BitVec.ofNat 40 (phys / 4096))
    rwa [hframes] at hback

theorem unmapAll_length_le (root : Frame) (pages : List ℕ) (s : Mem) :
    (pages.foldl (unmapOne root) s).frames.free.length ≤ s.frames.free.length + pages.length := by
  induction pages generalizing s with
  | nil => simp
  | cons va rest ih =>
    have hrest := ih (unmapOne root s va)
    have hhere := unmapOne_length_le root s va
    rw [foldl_cons, length_cons]
    omega

/-! ## The roll-back -/

/-- Unmapping a user page frees its frame. -/
theorem unmapOne_frames (h : Tables s label) (hr : Space label root)
    (hpresent : (pageEntry s root va).present = true)
    (huser : (pageEntry s root va).user = true) :
    (unmapOne root s va).frames = s.frames.freePage (pageEntry s root va).frame.toNat := by
  unfold unmapOne
  rw [translate_eq h hr, if_pos hpresent]
  dsimp only
  rw [Sane.frame_of_phys]
  obtain ⟨s₁, hs₁, hframes, -⟩ := unmapPage_spec h hr hpresent huser
  rw [hs₁, freePage_frames, hframes]

theorem mem_pageRange : va ∈ pageRange mapAddr k ↔ ∃ j < k, pageAt mapAddr j = va := by
  simp [pageRange, pageAt]

section

variable (h : Tight s₀ root mapAddr prot label k s)

include h

theorem Tight.loose (huser : prot.user = true) :
    ∀ va ∈ pageRange mapAddr k, Loose s label root va := by
  intro va hva _
  obtain ⟨j, hj, rfl⟩ := mem_pageRange.mp hva
  rw [h.mapped j hj]
  exact ⟨huser, h.data j hj⟩

/-- The pages are empty after the roll-back. -/
theorem Tight.rollback_entry (huser : prot.user = true) (va : ℕ) :
    pageEntry ((pageRange mapAddr k).foldl (unmapOne root) s) root va =
      if ∃ j < k, vpage (pageAt mapAddr j) = vpage va then noEntry else pageEntry s₀ root va := by
  rw [unmapAll_entry h.tables h.space (h.loose huser)]
  by_cases hin : ∃ j < k, vpage (pageAt mapAddr j) = vpage va
  · obtain ⟨j, hj, hsame⟩ := hin
    rw [if_pos ⟨_, mem_pageRange.mpr ⟨j, hj, rfl⟩, hsame⟩, if_pos ⟨j, hj, hsame⟩,
      ← pageEntry_congr hsame, h.mapped j hj]
    rfl
  · rw [if_neg, if_neg hin]
    · exact h.others va fun j hj heq => hin ⟨j, hj, heq.symm⟩
    · rintro ⟨w, hw, hsame⟩
      obtain ⟨j, hj, rfl⟩ := mem_pageRange.mp hw
      exact hin ⟨j, hj, hsame⟩

/-- Of `k` mapped pages the first `i` were unmapped. -/
structure Undone (s₀ : Mem) (root : Frame) (mapAddr : ℕ) (prot : Flags)
    (label : Frame → Option Label) (k i : ℕ) (s : Mem) : Prop where
  tables : Tables s label
  nrPages : s.frames.nrPages = s₀.frames.nrPages
  count : s.frames.free.length + k = s₀.frames.free.length + i
  still : ∀ j, i ≤ j → j < k → s.frames.memMap (freeFrame s₀ j).toNat = 1 ∧
    pageEntry s root (pageAt mapAddr j) = ⟨{ prot with present := true }, freeFrame s₀ j⟩

theorem Tight.undone : Undone s₀ root mapAddr prot label k 0 s := by
  have hle := h.le
  refine ⟨h.tables, h.nrPages, ?_, fun j _ hj => ⟨h.held j hj, h.mapped j hj⟩⟩
  rw [h.free, length_drop]
  omega

end

theorem Undone.step (h : Undone s₀ root mapAddr prot label k i s) (hr : Space label root)
    (hdata : ∀ j < k, label (freeFrame s₀ j) = none) (hcons : s₀.frames.Consistent)
    (hle : k ≤ s₀.frames.free.length) (halign : mapAddr % 4096 = 0) (huser : prot.user = true)
    (hi : i < k) :
    Undone s₀ root mapAddr prot label k (i + 1) (unmapOne root s (pageAt mapAddr i)) := by
  have hlength := free_length_lt hcons
  obtain ⟨hone, hentry⟩ := h.still i (le_refl i) hi
  have hloose : Loose s label root (pageAt mapAddr i) := fun _ => by
    rw [hentry]
    exact ⟨huser, hdata i hi⟩
  have hframes := unmapOne_frames h.tables hr (by rw [hentry]) (by rw [hentry]; exact huser)
  rw [hentry] at hframes
  have hmanaged : (freeFrame s₀ i).toNat < s.frames.nrPages := by
    rw [h.nrPages, toNat_freeFrame (by omega)]
    exact hcons.managed _ (getElem_mem _)
  obtain ⟨hnr, -, hrest⟩ := Ledger.freed_counts s.frames hmanaged hone
  refine ⟨unmapOne_tables h.tables hr hloose, ?_, ?_, fun j hij hj => ⟨?_, ?_⟩⟩
  · rw [hframes, hnr, h.nrPages]
  · have hcount := h.count
    rw [hframes, freePage_free _ hmanaged hone, length_cons]
    omega
  · have hne : freeFrame s₀ j ≠ freeFrame s₀ i := fun heq =>
      freeFrame_ne hcons (by omega) (by omega) (by omega) (congrArg BitVec.toNat heq)
    rw [hframes, (hrest _ hne).1]
    exact (h.still j (by omega) hj).1
  · have hne : vpage (pageAt mapAddr i) ≠ vpage (pageAt mapAddr j) :=
      vpage_pageAt_ne halign (by omega) (by omega) (by omega)
    rw [unmapOne_entry h.tables hr hloose, if_neg hne]
    exact (h.still j (by omega) hj).2

section

variable (h : Tight s₀ root mapAddr prot label k s) (hcons : s₀.frames.Consistent)
  (halign : mapAddr % 4096 = 0)

include h hcons halign

/-- All frames are free again. -/
theorem Tight.rollback_length (huser : prot.user = true) :
    ((pageRange mapAddr k).foldl (unmapOne root) s).frames.free.length =
      s₀.frames.free.length := by
  rw [pageRange, foldl_map]
  have hloop := foldl_range (Undone s₀ root mapAddr prot label k) h.undone fun i s hi hundone =>
    hundone.step h.space h.data hcons h.le halign huser hi
  exact add_right_cancel hloop.count

/-! ## How the loop ends -/

/-- The loop failed at page `k` and took everything back; no table was built. -/
structure Retreated (s₀ : Mem) (root : Frame) (mapAddr k : ℕ) (s : Mem) : Prop where
  entry : ∀ va, pageEntry s root va =
    if ∃ j < k, vpage (pageAt mapAddr j) = vpage va then noEntry else pageEntry s₀ root va
  length : s.frames.free.length = s₀.frames.free.length
  tabled : ∀ j < k, hasTable s₀ root (pageAt mapAddr j) = true
  stop : k = s₀.frames.free.length ∨
    k + 1 = s₀.frames.free.length ∧ hasTable s₀ root (pageAt mapAddr k) = false

end

theorem Lost.rollback (h : Lost s₀ root mapAddr k s) :
    Lost s₀ root mapAddr 0 ((pageRange mapAddr k).foldl (unmapOne root) s) := by
  have hle := unmapAll_length_le root (pageRange mapAddr k) s
  have hless := h.less
  rw [pageRange, length_map, length_range] at hle
  exact ⟨by rw [pageRange]; omega, h.missing⟩

/-- What `mapFresh` does to a loop that has built no table. -/
theorem Tight.mapFresh_cases (h : Tight s₀ root mapAddr prot label k s)
    (hcons : s₀.frames.Consistent) (halign : mapAddr % 4096 = 0) (hprot : prot.reserved = false) :
    (∃ page s', mapFresh s root (pageAt mapAddr k) prot = (some page, s') ∧
        ((∀ words, ∃ label', Tight s₀ root mapAddr prot label' (k + 1) (s'.fill page words)) ∨
          Lost s₀ root mapAddr (k + 1) s')) ∨
      ∃ s', mapFresh s root (pageAt mapAddr k) prot = (none, s') ∧
        ((∃ label', Tight s₀ root mapAddr prot label' k s' ∧ (k = s₀.frames.free.length ∨
            k + 1 = s₀.frames.free.length ∧ hasTable s₀ root (pageAt mapAddr k) = false)) ∨
          Lost s₀ root mapAddr k s') := by
  have hlength : s.frames.free.length = s₀.frames.free.length - k := by
    rw [h.free, length_drop]
  have hle := h.le
  cases hget : s.getFreePage with
  | none =>
    have hempty := getFreePage_eq_none.mp hget
    rw [hempty, length_nil] at hlength
    exact .inr ⟨s, by rw [mapFresh, hget], .inl ⟨label, h, .inl (by omega)⟩⟩
  | some taken =>
    obtain ⟨page, s₁⟩ := taken
    obtain ⟨hk, -, -⟩ := h.next hget
    cases htable : hasTable s₀ root (pageAt mapAddr k) with
    | true =>
      obtain ⟨s₂, -, hmap, -⟩ := h.map hcons halign hprot htable hget fun _ => 0
      refine .inl ⟨page, s₂, by simp only [mapFresh, hget, hmap], .inl fun words => ?_⟩
      obtain ⟨s₂', label', hmap', htight⟩ := h.map hcons halign hprot htable hget words
      rw [hmap] at hmap'
      cases hmap'
      exact ⟨label', htight⟩
    | false =>
      by_cases hlast : k + 1 = s₀.frames.free.length
      · obtain ⟨s₂, label', hmap, htight⟩ := h.stuck hcons htable hget hlast
        exact .inr ⟨s₂.freePage page, by simp only [mapFresh, hget, hmap],
          .inl ⟨label', htight, .inr ⟨hlast, rfl⟩⟩⟩
      · have hmissing := (h.ways (pageAt mapAddr k)).trans htable
        have hspent := mapFresh_missing h.tables h.space hmissing (by omega) prot
        have hwhy : ∃ j, j + 1 < s₀.frames.free.length ∧
            hasTable s₀ root (pageAt mapAddr j) = false := ⟨k, by omega, htable⟩
        rcases hmap : mapFresh s root (pageAt mapAddr k) prot with ⟨taken, s'⟩
        rw [hmap] at hspent
        cases taken with
        | none =>
          have hless := hspent.2
          dsimp only at hless
          exact .inr ⟨s', rfl, .inr ⟨by omega, hwhy⟩⟩
        | some page =>
          have hless := hspent.1 (Option.some_ne_none page)
          dsimp only at hless
          exact .inl ⟨page, s', rfl, .inr ⟨by omega, hwhy⟩⟩

/-- The same for a loop that has built one. -/
theorem Lost.mapFresh_cases (h : Lost s₀ root mapAddr k s) (va : ℕ) (prot : Flags) :
    (∃ page s', mapFresh s root va prot = (some page, s') ∧ Lost s₀ root mapAddr (k + 1) s') ∨
      ∃ s', mapFresh s root va prot = (none, s') ∧ Lost s₀ root mapAddr k s' := by
  have hspent := mapFresh_length s root va prot
  have hless := h.less
  rcases hmap : mapFresh s root va prot with ⟨taken, s'⟩
  rw [hmap] at hspent
  cases taken with
  | none =>
    have hle := hspent.2
    dsimp only at hle
    exact .inr ⟨s', rfl, by omega, h.missing⟩
  | some page =>
    have hle := hspent.1 (Option.some_ne_none page)
    dsimp only at hle
    exact .inl ⟨page, s', rfl, by omega, h.missing⟩

end FileLoop

/-- The state of the loop before page `k`. -/
def Looping (s₀ : Mem) (root : Frame) (mapAddr : ℕ) (call : MapCall) (file : OpenFile) (pos k : ℕ)
    (state : Mem × ℕ) : Prop :=
  ((∃ label, Tight s₀ root mapAddr (mmapFlags call.prot) label k state.1) ∨
    Lost s₀ root mapAddr k state.1) ∧ state.2 = posAfter file call.offset call.len pos k

/-- The state the loop leaves when it fails: everything was taken back, or a frame is
gone. -/
def Stopped (s₀ : Mem) (root : Frame) (mapAddr : ℕ) (call : MapCall) (file : OpenFile) (pos : ℕ)
    (state : Mem × ℕ) : Prop :=
  ∃ k, state.2 = posAfter file call.offset call.len pos k ∧
    (Retreated s₀ root mapAddr k state.1 ∨ Lost s₀ root mapAddr 0 state.1)

/-- The loop over the pages of a file. -/
theorem mapFileFd_outcome (h : Tables s label) (hr : Space label root) (halign : mapAddr % 4096 = 0)
    (call : MapCall) (file : OpenFile) (pos : ℕ) :
    Outcome (Looping s root mapAddr call file pos (pageCount call.len))
      (Stopped s root mapAddr call file pos) (mapFileFd root mapAddr call file (s, pos)) := by
  have hcons := h.consistent
  refine forEach_range (Looping s root mapAddr call file pos)
    ⟨.inl ⟨label, Tight.start h hr⟩, rfl⟩ ?_
  rintro k ⟨s', p⟩ - ⟨hstate, rfl⟩
  unfold mapFilePage
  rw [show wrapAdd mapAddr (k * 4096) = pageAt mapAddr k from rfl]
  rcases hstate with ⟨label', htight⟩ | hlost
  · rcases htight.mapFresh_cases hcons halign rfl with
      ⟨page, s₁, hmap, hnext⟩ | ⟨s₁, hmap, ⟨label₁, htight₁, hstop⟩ | hlost⟩
    · rw [hmap]
      refine .of_done ⟨?_, rfl⟩
      rcases hnext with hnext | hlost
      · exact .inl (hnext _)
      · exact .inr ⟨hlost.less, hlost.missing⟩
    · rw [hmap]
      exact .of_failed ⟨k, rfl, .inl ⟨htight₁.rollback_entry rfl,
        htight₁.rollback_length hcons halign rfl, htight₁.tabled, hstop⟩⟩
    · rw [hmap]
      exact .of_failed ⟨k, rfl, .inr hlost.rollback⟩
  · rcases hlost.mapFresh_cases (pageAt mapAddr k) (mmapFlags call.prot) with
      ⟨page, s₁, hmap, hnext⟩ | ⟨s₁, hmap, hlost₁⟩
    · rw [hmap]
      exact .of_done ⟨.inr ⟨hnext.less, hnext.missing⟩, rfl⟩
    · rw [hmap]
      exact .of_failed ⟨k, rfl, .inr hlost₁.rollback⟩

/-! ## The loop of an anonymous mapping -/

/-- `k` pages were reserved without taking a frame. -/
structure Reserved (s₀ : Mem) (root : Frame) (mapAddr : ℕ) (prot : Flags) (k : ℕ) (s : Mem) :
    Prop where
  tables : ∃ label, Tables s label ∧ Space label root
  frames : s.frames = s₀.frames
  ways : ∀ va, hasTable s root va = hasTable s₀ root va
  tabled : ∀ j < k, hasTable s₀ root (pageAt mapAddr j) = true
  entry : ∀ va, pageEntry s root va =
    if ∃ j < k, vpage (pageAt mapAddr j) = vpage va then reservedEntry prot
    else pageEntry s₀ root va

/-- Without memory, a page is reserved if its table exists; otherwise the loop fails. -/
theorem Reserved.step {k : ℕ} {prot : Flags} (h : Reserved s₀ root mapAddr prot k s)
    (hfree : s₀.frames.free = []) : (∃ s', mapReserved s root (pageAt mapAddr k) prot = (true, s') ∧
        Reserved s₀ root mapAddr prot (k + 1) s') ∨
      hasTable s₀ root (pageAt mapAddr k) = false ∧
        ∃ s', mapReserved s root (pageAt mapAddr k) prot = (false, s') ∧
          Reserved s₀ root mapAddr prot k s' := by
  obtain ⟨label, htables, hr⟩ := h.tables
  cases htable : hasTable s₀ root (pageAt mapAddr k) with
  | true =>
    obtain ⟨pt, s', label', hleaf, hframes, hput, hways⟩ := leafTable_ready htables hr
      ((h.ways _).trans htable) prot.user (e := reservedEntry prot) nofun
    refine .inl ⟨_, by rw [mapReserved, hleaf], ⟨label', hput.tables, hput.keeps _ _ hr⟩,
      hframes.trans h.frames, fun va => (hways va).trans (h.ways va),
      forall_lt_succ_right.mpr ⟨h.tabled, htable⟩, fun va => ?_⟩
    simp only [exists_lt_succ_right]
    by_cases hhere : vpage (pageAt mapAddr k) = vpage va
    · rw [if_pos (.inr hhere), ← pageEntry_congr hhere]
      exact hput.self
    · rw [hput.other root va hr (.inl (symm hhere)), h.entry]
      simp [hhere]
  | false =>
    have hempty : s.frames.free = [] := by rw [h.frames, hfree]
    obtain ⟨hframes, hslots, hfound⟩ :=
      leafTable_starved htables hr hempty (pageAt mapAddr k) prot.user
    obtain ⟨s', label', hgrown, ⟨hnone, -, -⟩ | ⟨pt, hsome, -⟩⟩ :=
      leafTable_spec htables hr (pageAt mapAddr k) prot.user
    · rw [hnone] at hframes hslots
      exact .inr ⟨rfl, s', by rw [mapReserved, hnone],
        ⟨label', hgrown.tables, hgrown.space hr⟩, hframes.trans h.frames,
        fun va => hslots.hasTable_eq.trans (h.ways va), h.tabled,
        fun va => (hgrown.pageEntry hr va).trans (h.entry va)⟩
    · rw [hsome, h.ways, htable] at hfound
      exact absurd (hfound.mp rfl) (by decide)

/-- The loop of an anonymous mapping fails with no memory left. -/
theorem mapAnonymous_empty (h : Tables s label) (hr : Space label root) {prot : ℕ}
    (hfail : (mapAnonymous root mapAddr prot npages s).1 = false) :
    (mapAnonymous root mapAddr prot npages s).2.frames.free = [] := by
  refine (@forEach_range _ (fun s => s.frames.free = []) _ _
    (fun _ s => ∃ label, Tables s label ∧ Space label root) _ ⟨label, h, hr⟩ ?_).failed hfail
  rintro k s - ⟨label, h, hr⟩
  obtain ⟨s', label', ⟨hnone, -, hempty, -⟩ | ⟨hdone, hput⟩⟩ :=
    mapReserved_spec h hr (wrapAdd mapAddr (k * 4096)) (mmapFlags prot)
  · rw [hnone]
    exact .of_failed hempty
  · rw [hdone]
    exact .of_done ⟨label', hput.tables, hput.keeps _ _ hr⟩

/-- Without memory it fails at the first page whose table is missing. -/
theorem mapAnonymous_starved (h : Tables s label) (hr : Space label root) {prot : ℕ}
    (hfree : s.frames.free = []) (hfail : (mapAnonymous root mapAddr prot npages s).1 = false) :
    ∃ k < npages, hasTable s root (pageAt mapAddr k) = false ∧
      Reserved s root mapAddr (mmapFlags prot) k
        (mapAnonymous root mapAddr prot npages s).2 := by
  refine (@forEach_range _ (fun s' => ∃ k < npages, hasTable s root (pageAt mapAddr k) = false ∧
    Reserved s root mapAddr (mmapFlags prot) k s') _ _ (Reserved s root mapAddr (mmapFlags prot))
    _ ?_ ?_).failed hfail
  · exact ⟨⟨label, h, hr⟩, rfl, fun _ => rfl, nofun,
      fun va => (if_neg fun ⟨j, hj, _⟩ => not_lt_zero j hj).symm⟩
  · intro k s' hk hreserved
    change Outcome _ _ (mapReserved s' root (pageAt mapAddr k) (mmapFlags prot))
    rcases hreserved.step hfree with ⟨s₁, hdone, hnext⟩ | ⟨hmissing, s₁, hnone, hstay⟩
    · rw [hdone]
      exact .of_done hnext
    · rw [hnone]
      exact .of_failed ⟨k, hk, hmissing, hstay⟩

end Shitix.Paging
