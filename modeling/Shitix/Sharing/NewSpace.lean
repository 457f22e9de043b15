import Shitix.Mm.Places
import Shitix.Sharing.Ops

/-!
# A new address space

`alloc_pml4` and `clone_kernel_pdpt` take three frames and give them all back if
one cannot be had.  `Borrowed` describes the state in between: some frames that
were free are held in addition, and nothing that was in use has changed.  If all
go well the three frames become the tables of an address space without user
pages (`Sane.newSpace`).
-/

namespace Shitix.Paging

open Mem Function List Option

variable {s s' s'' : Mem} {live : List Frame} {label : Frame → Option Label}
  {origin : Frames} {held : List Frame} {page : Frame}

/-- The frames `held` are held in addition, and all frames in use are as before. -/
structure Borrowed (s s' : Mem) (held : List Frame) : Prop where
  words : ∀ f : Frame, s.frames.memMap f.toNat ≠ 0 → s'.word f = s.word f
  taken : ∀ f ∈ held, s.frames.memMap f.toNat = 0 ∧ s'.frames.memMap f.toNat = 1 ∧
    f.toNat < s.frames.nrPages
  rest : ∀ f ∉ held, s'.frames.memMap f.toNat = s.frames.memMap f.toNat
  refs : ∀ f : Frame, s.frames.memMap f.toNat ≠ 0 →
    s'.frames.pageRef f.toNat = s.frames.pageRef f.toNat
  nrPages : s'.frames.nrPages = s.frames.nrPages
  consistent : s'.frames.Consistent

namespace Borrowed

theorem refl (h : s.frames.Consistent) : Borrowed s s [] :=
  ⟨fun _ _ => rfl, fun _ hf => absurd hf not_mem_nil, fun _ _ => rfl, fun _ _ => rfl, rfl, h⟩

theorem take (h : Borrowed s s' held) (hget : s'.getFreePage = some (page, s'')) :
    Borrowed s s'' (page :: held) ∧ page ∉ held ∧ s.frames.memMap page.toNat = 0 ∧
      s''.word = update s'.word page fun _ => 0 := by
  obtain ⟨hframes, hword⟩ := getFreePage_eq_some hget
  obtain ⟨hnr, hone, -, hrest⟩ := Ledger.taken_counts hframes
  have hmem : page.toNat ∈ s'.frames.free := by
    rw [(Frames.getFreePage_eq_some hframes).1]
    exact mem_cons_self
  have hlt := h.consistent.managed _ hmem
  have hzero' := (h.consistent.mem_iff _ hlt).mp hmem
  have hnot : page ∉ held := fun hheld => by
    have := (h.taken page hheld).2.1
    omega
  have hzero : s.frames.memMap page.toNat = 0 := (h.rest page hnot).symm.trans hzero'
  have hne : ∀ f : Frame, s.frames.memMap f.toNat ≠ 0 → f ≠ page := fun f hf heq =>
    hf (heq ▸ hzero)
  refine ⟨⟨fun f hf => ?_, fun f hf => ?_, fun f hf => ?_, fun f hf => ?_, hnr.trans h.nrPages,
    h.consistent.getFreePage hframes⟩, hnot, hzero, hword⟩
  · rw [hword, update_of_ne (hne f hf)]
    exact h.words f hf
  · rcases mem_cons.mp hf with rfl | hf
    · exact ⟨hzero, hone, h.nrPages ▸ hlt⟩
    · have hfp : f ≠ page := fun heq => hnot (heq ▸ hf)
      rw [(hrest f hfp).1]
      exact h.taken f hf
  · rw [mem_cons, not_or] at hf
    rw [(hrest f hf.1).1]
    exact h.rest f hf.2
  · rw [(hrest f (hne f hf)).2]
    exact h.refs f hf

theorem giveBack (h : Borrowed s s' (page :: held)) (hnot : page ∉ held) :
    Borrowed s (s'.freePage page) held := by
  obtain ⟨hzero, hone, hlt⟩ := h.taken page mem_cons_self
  obtain ⟨hnr, hfreed, hrest⟩ := Ledger.freed_counts s'.frames (h.nrPages.symm ▸ hlt) hone
  have hne : ∀ f : Frame, s.frames.memMap f.toNat ≠ 0 → f ≠ page := fun f hf heq =>
    hf (heq ▸ hzero)
  refine ⟨h.words, fun f hf => ?_, fun f hf => ?_, fun f hf => ?_, hnr.trans h.nrPages,
    h.consistent.freePage _⟩
  · have hfp : f ≠ page := fun heq => hnot (heq ▸ hf)
    rw [freePage_frames, (hrest f hfp).1]
    exact h.taken f (mem_cons_of_mem _ hf)
  · by_cases hfp : f = page
    · rw [hfp, freePage_frames, hfreed, hzero]
    · rw [freePage_frames, (hrest f hfp).1]
      exact h.rest f fun hmem => (mem_cons.mp hmem).elim hfp hf
  · rw [freePage_frames, (hrest f (hne f hf)).2]
    exact h.refs f hf

/-- The borrowed frames may be written. -/
theorem write (h : Borrowed s s' held) (hpage : page ∈ held) (words : ℕ → BitVec 64) :
    Borrowed s (s'.fill page words) held := by
  refine { h with words := fun f hf => ?_ }
  have hne : f ≠ page := fun heq => hf (heq ▸ (h.taken page hpage).1)
  exact (update_of_ne hne _ _).trans (h.words f hf)

/-- Everything was given back. -/
theorem sane (hborrowed : Borrowed s s' []) (h : Sane s live label origin) :
    Sane s' live label origin := by
  have hsame : SameTables s label s' := fun t l hl => hborrowed.words t (h.tables.held t l hl)
  have hmap := fun f => hborrowed.rest f not_mem_nil
  have hunchanged := h.unchanged_same hsame
  refine ⟨h.of_same hsame (hsame.tables h.tables hborrowed.nrPages (fun t _ _ => hmap t)
    hborrowed.consistent) (hborrowed.words _ h.boot.held) (by rw [hmap]; exact h.boot.held), ?_⟩
  rw [hunchanged.view.1, hunchanged.view.2]
  exact h.ledger.relabel (fun _ _ hl => hl)
    (fun _ _ hnone hsome => absurd (hnone.symm.trans hsome) (some_ne_none _).symm)
    (fun _ hnone hsome => absurd hnone hsome) (fun t _ => ⟨hmap t, hborrowed.refs t⟩) hborrowed.nrPages

end Borrowed

/-! ## The three frames -/

/-- A new address space with the kernel's mappings, or none. -/
def newSpace (s : Mem) : Option Frame × Mem :=
  match allocPml4 s with
  | (none, s) => (none, s)
  | (some pml4, s) =>
    match cloneKernelPdpt s pml4 with
    | (false, s) => (none, s.freePage pml4)
    | (true, s) => (some pml4, s)

/-- An entry for a table of the kernel's. -/
def tableEntry (table : Frame) : Pte := ⟨{ present := true, rw := true }, table⟩

/-- The tables of a new address space. -/
structure NewTables (s s' : Mem) (root pdpt pd : Frame) : Prop where
  borrowed : Borrowed s s' [pd, pdpt, root]
  distinct : root ≠ pdpt ∧ root ≠ pd ∧ pdpt ≠ pd
  pml4Entry : ∀ i, s'.entry root i =
    if i = 256 then s.entry bootPml4 256 else if i = 0 then tableEntry pdpt else noEntry
  pdptEntry : ∀ i, s'.entry pdpt i = if i = 0 then tableEntry pd else noEntry
  pdEntry : ∀ i, s'.entry pd i = s.entry bootPd i

/-- The writes of `clone_kernel_pdpt` to three zeroed frames. -/
theorem newTables_of_borrowed {root pdpt pd : Frame} (h : Borrowed s s' [pd, pdpt, root])
    (hdistinct : root ≠ pdpt ∧ root ≠ pd ∧ pdpt ≠ pd) (hroot : ∀ i, s'.entry root i = noEntry)
    (hpdpt : ∀ i, s'.entry pdpt i = noEntry) (hpml4 : s.frames.memMap bootPml4.toNat ≠ 0)
    (hpd : s.frames.memMap bootPd.toNat ≠ 0) {s₁ s₂ s₃ : Mem}
    (hs₁ : s₁ = s'.fill pd (s'.word bootPd)) (hs₂ : s₂ = s₁.setEntry root 0 (tableEntry pdpt))
    (hs₃ : s₃ = s₂.setEntry pdpt 0 (tableEntry pd)) :
    NewTables s (s₃.setEntry root 256 (s₃.entry bootPml4 256)) root pdpt pd := by
  obtain ⟨hrp, hrd, hpp⟩ := hdistinct
  have hb₁ : Borrowed s s₁ [pd, pdpt, root] := hs₁ ▸ h.write (by simp) _
  have hb₂ : Borrowed s s₂ [pd, pdpt, root] := hs₂ ▸ hb₁.write (by simp) _
  have hb₃ : Borrowed s s₃ [pd, pdpt, root] := hs₃ ▸ hb₂.write (by simp) _
  have hentry₁ : ∀ f i, f ≠ pd → s₁.entry f i = s'.entry f i := fun f i hf => by
    rw [hs₁, entry, word_fill, update_of_ne hf, entry]
  have hhigh : s₃.entry bootPml4 256 = s.entry bootPml4 256 := by
    rw [entry, hb₃.words _ hpml4, entry]
  refine ⟨hb₃.write (by simp) _, ⟨hrp, hrd, hpp⟩, fun i => ?_, fun i => ?_, fun i => ?_⟩
  · by_cases h256 : i = 256
    · subst h256
      rw [entry_setEntry_self, hhigh, if_pos rfl]
    · rw [entry_setEntry_of_ne fun _ => h256, if_neg h256, hs₃,
        entry_setEntry_of_ne fun heq => absurd heq hrp, hs₂]
      by_cases hzero : i = 0
      · subst hzero
        rw [entry_setEntry_self, if_pos rfl]
      · rw [entry_setEntry_of_ne fun _ => hzero, if_neg hzero, hentry₁ root i hrd, hroot]
  · rw [entry_setEntry_of_ne fun heq => absurd heq.symm hrp, hs₃]
    by_cases hzero : i = 0
    · subst hzero
      rw [entry_setEntry_self, if_pos rfl]
    · rw [entry_setEntry_of_ne fun _ => hzero, if_neg hzero, hs₂,
        entry_setEntry_of_ne fun heq => absurd heq.symm hrp, hentry₁ pdpt i hpp, hpdpt]
  · rw [entry_setEntry_of_ne fun heq => absurd heq.symm hrd, hs₃,
      entry_setEntry_of_ne fun heq => absurd heq.symm hpp, hs₂,
      entry_setEntry_of_ne fun heq => absurd heq.symm hrd, hs₁, entry, word_fill,
      update_self, h.words _ hpd, entry]

/-- The second clearing of `alloc_pml4` changes nothing. -/
theorem allocPml4_eq : allocPml4 s = take s := by
  unfold allocPml4 take
  cases hget : s.getFreePage with
  | none => rfl
  | some taken =>
    obtain ⟨page, s₁⟩ := taken
    have hzero := (getFreePage_eq_some hget).2
    have hsame : update s₁.word page (fun _ => 0) = s₁.word := by rw [hzero, update_idem]
    simp only [fill, hsame]

/-- `alloc_pml4` and `clone_kernel_pdpt` take three frames, or none. -/
theorem newSpace_cases (h : Orderly s live label) :
    (∃ s', newSpace s = (none, s') ∧ Borrowed s s' []) ∨
      ∃ root pdpt pd s', newSpace s = (some root, s') ∧ NewTables s s' root pdpt pd := by
  have hconsistent := h.tables.consistent
  have hstart := Borrowed.refl hconsistent
  unfold newSpace
  rw [allocPml4_eq]
  unfold take
  cases hget₁ : s.getFreePage with
  | none => exact .inl ⟨s, rfl, hstart⟩
  | some taken₁ =>
    obtain ⟨root, s₁⟩ := taken₁
    obtain ⟨h₁, -, hzero₁, hword₁⟩ := hstart.take hget₁
    have hne : root ≠ 0 := by
      rintro rfl
      have hmem := (Frames.getFreePage_eq_some (getFreePage_eq_some hget₁).1).1
      have := hconsistent.above (show 0 ∈ s.frames.free by rw [hmem]; exact mem_cons_self)
      omega
    simp only [cloneKernelPdpt, take, if_neg hne]
    cases hget₂ : s₁.getFreePage with
    | none =>
      simp only [hget₂]
      exact .inl ⟨_, rfl, h₁.giveBack not_mem_nil⟩
    | some taken₂ =>
      obtain ⟨pdpt, s₂⟩ := taken₂
      obtain ⟨h₂, hnot₂, hzero₂, hword₂⟩ := h₁.take hget₂
      cases hget₃ : s₂.getFreePage with
      | none =>
        exact .inl ⟨_, rfl, (h₂.giveBack hnot₂).giveBack not_mem_nil⟩
      | some taken₃ =>
        obtain ⟨pd, s₃⟩ := taken₃
        obtain ⟨h₃, hnot₃, hzero₃, hword₃⟩ := h₂.take hget₃
        have hdistinct : root ≠ pdpt ∧ root ≠ pd ∧ pdpt ≠ pd := by
          simp only [mem_cons, not_mem_nil, or_false, not_or] at hnot₂ hnot₃
          exact ⟨symm hnot₂, symm hnot₃.2, symm hnot₃.1⟩
        refine .inr ⟨root, pdpt, pd, _, rfl, ?_⟩
        refine newTables_of_borrowed h₃ hdistinct (fun i => ?_) (fun i => ?_) h.boot.held
          (h.tables.held _ _ h.boot.pdLabel) rfl rfl rfl
        · rw [entry, hword₃, update_of_ne hdistinct.2.1, hword₂,
            update_of_ne hdistinct.1, hword₁, update_self]
          exact decode_zero
        · rw [entry, hword₃, update_of_ne hdistinct.2.2, hword₂,
            update_self]
          exact decode_zero

/-! ## The address space -/

/-- The labels with those of the new tables. -/
def newLabels (label : Frame → Option Label) (root pdpt pd : Frame) : Frame → Option Label :=
  update (update (update label root (some (.own root 3 0))) pdpt
    (some (.own root 2 0))) pd (some (.own root 1 0))

section NewTables

variable {root pdpt pd t : Frame} (hnew : NewTables s s' root pdpt pd) {l : Label}
include hnew

omit hnew in
/-- A labelled frame is an old table or one of the three. -/
theorem newLabels_cases (hl : newLabels label root pdpt pd t = some l) :
    t = pd ∧ l = .own root 1 0 ∨ t = pdpt ∧ l = .own root 2 0 ∨ t = root ∧ l = .own root 3 0 ∨
      label t = some l := by
  unfold newLabels at hl
  by_cases h₁ : t = pd
  · subst h₁
    rw [update_self] at hl
    exact .inl ⟨rfl, (some.inj hl).symm⟩
  rw [update_of_ne h₁] at hl
  by_cases h₂ : t = pdpt
  · subst h₂
    rw [update_self] at hl
    exact .inr (.inl ⟨rfl, (some.inj hl).symm⟩)
  rw [update_of_ne h₂] at hl
  by_cases h₃ : t = root
  · subst h₃
    rw [update_self] at hl
    exact .inr (.inr (.inl ⟨rfl, (some.inj hl).symm⟩))
  rw [update_of_ne h₃] at hl
  exact .inr (.inr (.inr hl))

omit hnew in
theorem newLabels_new_or_old (hl : newLabels label root pdpt pd t = some l) :
    t ∈ [pd, pdpt, root] ∧ (∃ height pre, l = .own root height pre) ∨ label t = some l := by
  rcases newLabels_cases hl with ⟨rfl, rfl⟩ | ⟨rfl, rfl⟩ | ⟨rfl, rfl⟩ | hl
  · exact .inl ⟨by simp, _, _, rfl⟩
  · exact .inl ⟨by simp, _, _, rfl⟩
  · exact .inl ⟨by simp, _, _, rfl⟩
  · exact .inr hl

theorem NewTables.label_root : newLabels label root pdpt pd root = some (.own root 3 0) := by
  rw [newLabels, update_of_ne hnew.distinct.2.1, update_of_ne hnew.distinct.1,
    update_self]

theorem NewTables.label_pdpt : newLabels label root pdpt pd pdpt = some (.own root 2 0) := by
  rw [newLabels, update_of_ne hnew.distinct.2.2, update_self]

omit hnew in
theorem newLabels_pd : newLabels label root pdpt pd pd = some (.own root 1 0) :=
  update_self _ _ _

section

variable (ht : s.frames.memMap t.toNat ≠ 0)

include ht

theorem NewTables.not_mem : t ≠ root ∧ t ≠ pdpt ∧ t ≠ pd := by
  have htaken := fun f hf => (hnew.borrowed.taken f hf).1
  refine ⟨?_, ?_, ?_⟩ <;> rintro rfl <;> exact ht (htaken _ (by simp))

theorem NewTables.entry (i : ℕ) : s'.entry t i = s.entry t i := by
  rw [Mem.entry, hnew.borrowed.words t ht, Mem.entry]

theorem NewTables.memMap : s'.frames.memMap t.toNat = s.frames.memMap t.toNat := by
  obtain ⟨h₁, h₂, h₃⟩ := hnew.not_mem ht
  exact hnew.borrowed.rest t (by simp [h₁, h₂, h₃])

theorem NewTables.label_old : newLabels label root pdpt pd t = label t := by
  obtain ⟨h₁, h₂, h₃⟩ := hnew.not_mem ht
  rw [newLabels, update_of_ne h₃, update_of_ne h₂, update_of_ne h₁]

end

section

variable (h : Orderly s live label)

include h

theorem NewTables.label_keeps (t : Frame) (l : Label) (hl : label t = some l) :
    newLabels label root pdpt pd t = some l := by
  rw [hnew.label_old (h.tables.held t l hl), hl]

theorem NewTables.not_live : root ∉ live := fun hmem =>
  h.tables.held root _ (h.space root hmem) (hnew.borrowed.taken root (by simp)).1

/-- The new tables are well formed. -/
theorem NewTables.tables : Tables s' (newLabels label root pdpt pd) := by
  have hheld := h.tables.held
  have hold := hnew.label_keeps h
  -- the entries of a new PML4: the two slots of the kernel
  have hpml4 : ∀ i, (s'.entry root i).present = true →
      i = 256 ∧ s'.entry root i = s.entry bootPml4 256 ∨ i = 0 ∧ s'.entry root i = tableEntry pdpt := by
    intro i hp
    rw [hnew.pml4Entry] at hp ⊢
    split_ifs at hp ⊢ with h256 hzero
    · exact .inl ⟨h256, rfl⟩
    · exact .inr ⟨hzero, rfl⟩
  have hpdpt : ∀ i, (s'.entry pdpt i).present = true → i = 0 ∧ s'.entry pdpt i = tableEntry pd := by
    intro i hp
    rw [hnew.pdptEntry] at hp ⊢
    split_ifs at hp ⊢ with hzero
    exact ⟨hzero, rfl⟩
  refine ⟨?_, ?_, ?_, ?_, ?_, ?_, ?_, ?_, ?_, hnew.borrowed.consistent⟩
  · intro t l n i hl hn hi hp hh
    rcases newLabels_cases hl with ⟨rfl, rfl⟩ | ⟨rfl, rfl⟩ | ⟨rfl, rfl⟩ | hl
    · rw [hnew.pdEntry] at hp hh
      exact absurd (h.boot.pdHuge i hi hp) (by rw [hh]; decide)
    · obtain ⟨rfl, he⟩ := hpdpt i hp
      rw [he]
      exact newLabels_pd
    · rcases hpml4 i hp with ⟨rfl, he⟩ | ⟨rfl, he⟩
      · rw [he]
        exact hold _ _ h.boot.highLabel
      · rw [he]
        exact hnew.label_pdpt
    · rw [hnew.entry (hheld t l hl)] at hp hh ⊢
      exact hold _ _ (h.tables.child t l n i hl hn hi hp hh)
  · intro t l i hl hn hi hp
    rcases newLabels_cases hl with ⟨rfl, rfl⟩ | ⟨rfl, rfl⟩ | ⟨rfl, rfl⟩ | hl
    · simp only [Label.height] at hn
      omega
    · rw [(hpdpt i hp).2]
      rfl
    · rcases hpml4 i hp with ⟨-, he⟩ | ⟨-, he⟩
      · rw [he]
        exact h.boot.highFlat
      · rw [he]
        rfl
    · rw [hnew.entry (hheld t l hl)] at hp ⊢
      exact h.tables.flat t l i hl hn hi hp
  · intro t l i hl hn hi hp hh
    rcases newLabels_cases hl with ⟨rfl, rfl⟩ | ⟨rfl, rfl⟩ | ⟨rfl, rfl⟩ | hl
    · rw [hnew.pdEntry] at hp hh ⊢
      exact h.tables.huge _ _ i h.boot.pdLabel rfl hi hp hh
    · cases hn
    · cases hn
    · rw [hnew.entry (hheld t l hl)] at hp hh ⊢
      exact h.tables.huge t l i hl hn hi hp hh
  · intro t l i hl hn hi hp
    rcases newLabels_cases hl with ⟨rfl, rfl⟩ | ⟨rfl, rfl⟩ | ⟨rfl, rfl⟩ | hl
    · cases hn
    · cases hn
    · cases hn
    · rw [hnew.entry (hheld t l hl)] at hp ⊢
      exact h.tables.clean t l i hl hn hi hp
  · intro t r height pre hl
    rcases newLabels_cases hl with ⟨rfl, heq⟩ | ⟨rfl, heq⟩ | ⟨rfl, heq⟩ | hl
    · cases heq
      exact ⟨by omega, fun h3 => by omega⟩
    · cases heq
      exact ⟨by omega, fun h3 => by omega⟩
    · cases heq
      exact ⟨le_rfl, fun _ => ⟨rfl, rfl⟩⟩
    · exact h.tables.rooted t r height pre hl
  · intro t r height pre hl hlt
    rcases newLabels_cases hl with ⟨rfl, heq⟩ | ⟨rfl, heq⟩ | ⟨rfl, heq⟩ | hl
    · cases heq
      refine ⟨pdpt, hnew.label_pdpt, ?_⟩
      simp [slots, hnew.pdptEntry, tableEntry]
    · cases heq
      refine ⟨root, hnew.label_root, ?_⟩
      simp [slots, hnew.pml4Entry, tableEntry]
    · cases heq
      omega
    · obtain ⟨up, hup, hlink⟩ := h.tables.placed t r height pre hl hlt
      exact ⟨up, hold up _ hup,
        (slot_congr (hnew.entry (hheld up _ hup) _) _).trans hlink⟩
  · intro t l hl
    rw [hnew.borrowed.nrPages]
    rcases newLabels_new_or_old hl with ⟨hmem, -⟩ | hl
    · exact (hnew.borrowed.taken t hmem).2.2
    · exact h.tables.managed t l hl
  · intro t l hl
    rcases newLabels_new_or_old hl with ⟨hmem, -⟩ | hl
    · rw [(hnew.borrowed.taken t hmem).2.1]
      exact one_ne_zero
    · rw [hnew.memMap (hheld t l hl)]
      exact hheld t l hl
  · intro t r height pre hl
    rcases newLabels_new_or_old hl with ⟨hmem, -⟩ | hl
    · exact (hnew.borrowed.taken t hmem).2.1
    · rw [hnew.memMap (hheld t _ hl)]
      exact h.tables.own t r height pre hl

theorem NewTables.quiet (va : ℕ) : Quiet (pageEntry s' root va) := by
  have hwords : ∀ t height pre, label t = some (.shared height pre) → s'.word t = s.word t :=
    fun t _ _ ht => hnew.borrowed.words t (h.tables.held t _ ht)
  have hnone : Quiet noEntry := ⟨rfl, rfl⟩
  rw [pageEntry, Radix.lookup, pml4Index_eq]
  by_cases h256 : pml4Index va = 256
  · -- the direct map, shared with all address spaces
    have hslot : (slots s').slot (2 + 1) root (pml4Index va) =
        .inl (s.entry bootPml4 256).frame := by
      simp [slots, hnew.pml4Entry, h256, h.boot.highPresent]
    rw [hslot]
    dsimp only
    rw [lookup_shared h.tables hwords h.boot.highLabel]
    exact h.boot.highQuiet _
  by_cases hzero : pml4Index va = 0
  · have hslot : (slots s').slot (2 + 1) root (pml4Index va) = .inl pdpt := by
      simp [slots, hnew.pml4Entry, hzero, tableEntry]
    rw [hslot]
    dsimp only
    rw [Radix.lookup, pdptIndex_eq]
    by_cases hzero' : pdptIndex va = 0
    · -- the low gigabyte: huge pages of the kernel
      have hslot : (slots s').slot (1 + 1) pdpt (pdptIndex va) = .inl pd := by
        simp [slots, hnew.pdptEntry, hzero', tableEntry]
      rw [hslot]
      dsimp only
      rw [Radix.lookup, pdIndex_eq]
      have hi := pdIndex_lt va
      by_cases hp : (s.entry bootPd (pdIndex va)).present = true
      · have hh := h.boot.pdHuge _ hi hp
        obtain ⟨hu, hr, -⟩ := h.tables.huge _ _ _ h.boot.pdLabel rfl hi hp hh
        simp only [slots, hnew.pdEntry, hp, hh]
        exact ⟨hu, hr⟩
      · simp only [slots, hnew.pdEntry, hp]
        exact hnone
    · simp only [slots, hnew.pdptEntry, hzero']
      exact hnone
  · simp only [slots, hnew.pml4Entry, h256, hzero]
    exact hnone

theorem NewTables.unchanged : Unchanged s s' live :=
  h.unchanged_same fun t l hl => hnew.borrowed.words t (h.tables.held t l hl)

end

/-- A new address space, beside the others. -/
theorem NewTables.sane (h : Sane s live label origin) :
    Sane s' (root :: live) (newLabels label root pdpt pd) origin := by
  have hunchanged := hnew.unchanged h.toOrderly
  have hheld := h.tables.held
  have hold := hnew.label_keeps h.toOrderly
  refine ⟨⟨hnew.tables h.toOrderly, ?_, ?_, ?_, ?_, ?_⟩, ?_⟩
  · intro r hr
    rcases mem_cons.mp hr with rfl | hr
    · exact hnew.label_root
    · exact hold r _ (h.space r hr)
  · intro t r height pre hl
    rcases newLabels_new_or_old hl with ⟨-, _, _, heq⟩ | hl
    · cases heq
      exact mem_cons_self
    · exact mem_cons_of_mem _ (h.owner t r height pre hl)
  · intro r hr va
    rcases mem_cons.mp hr with rfl | hr
    · exact (hnew.quiet h.toOrderly va).pageOk
    · rw [hunchanged r hr va]
      exact h.pages r hr va
  · intro r hr
    rcases mem_cons.mp hr with rfl | hr
    · exact ⟨pd, newLabels_pd⟩
    · exact (h.identity r hr).imp fun pd => hold pd _
  · refine h.boot.congr h.tables (fun t _ _ ht => hold t _ ht)
      (hnew.borrowed.words _ h.boot.held)
      (fun t _ _ ht => hnew.borrowed.words t (hheld t _ ht)) ?_ ?_
    · rw [hnew.label_old h.boot.held, h.boot.unlabelled]
    · rw [hnew.memMap h.boot.held]
      exact h.boot.held
  · -- the slots of the new address space are empty
    have hview : view s' (root :: live) = view s live := by
      funext x
      by_cases hx : x.1 = root
      · have hnot : x.1 ∉ live := hx ▸ hnew.not_live h.toOrderly
        rw [view, view, if_neg hnot, if_pos (by rw [hx]; exact mem_cons_self), hx, userFrame,
          (hnew.quiet h.toOrderly _).1, Bool.and_false]
        rfl
      · rw [view, view]
        simp only [mem_cons, hx, false_or]
        split_ifs with hmem
        · rw [hunchanged x.1 hmem]
        · rfl
    rw [hview]
    have hledger := h.ledger.relabel hold (fun t l hnone hl => ?_) (fun t hnone hsome => ?_)
      (fun t hsame => ?_) hnew.borrowed.nrPages
    · refine hledger.mono fun x f hx hw => ?_
      have hmem : x.1 ∈ live := by
        unfold view at hx
        split_ifs at hx with hmem
        exact hmem
      unfold writable at hw ⊢
      rw [hunchanged x.1 hmem] at hw
      simp only [Bool.and_eq_true, decide_eq_true_eq] at hw ⊢
      exact ⟨hmem, hw.2⟩
    · rcases newLabels_new_or_old hl with ⟨-, height, pre, rfl⟩ | hl
      · exact ⟨_, _, _, rfl⟩
      · rw [hnone] at hl
        cases hl
    · obtain ⟨l, hl⟩ := ne_none_iff_exists'.mp hsome
      rcases newLabels_new_or_old hl with ⟨hmem, -⟩ | hl
      · exact ⟨(hnew.borrowed.taken t hmem).1, (hnew.borrowed.taken t hmem).2.1⟩
      · rw [hnone] at hl
        cases hl
    · refine ⟨hnew.borrowed.rest t fun hmem => ?_, hnew.borrowed.refs t⟩
      have hnone : label t = none := by
        by_contra hsome
        obtain ⟨l, hl⟩ := ne_none_iff_exists'.mp hsome
        exact hheld t l hl (hnew.borrowed.taken t hmem).1
      simp only [mem_cons, not_mem_nil, or_false] at hmem
      rcases hmem with rfl | rfl | rfl
      · rw [newLabels_pd, hnone] at hsame
        cases hsame
      · rw [hnew.label_pdpt, hnone] at hsame
        cases hsame
      · rw [hnew.label_root, hnone] at hsame
        cases hsame

end NewTables

end Shitix.Paging
