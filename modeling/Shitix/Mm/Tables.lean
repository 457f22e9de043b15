import Shitix.Mm.PageView

/-!
# Well-formed tables

`Tables s label` says that the labelled frames are page tables in the places the
labels give them: a slot of a table leads to the table of the label below, the
tables of an address space hang off its PML4, huge pages occur only as the
kernel's pages of 2 MiB, and the tables are held frames of a consistent
allocator.

`Grown` is the relation between a memory and the same memory with more tables
built: no page changes what governs it, and no frame but those of the new tables
is taken.  It is what `next_level`, and hence `leafTable`, does
(`nextLevel_spec`, `leafTable_spec`).
-/

namespace Shitix.Paging

open Mem Function List

/-- The labelled frames are page tables, in their places. -/
structure Tables (s : Mem) (label : Frame → Option Label) : Prop where
  child : ∀ t l n i, label t = some l → l.height = n + 1 → i < 512 →
    (s.entry t i).present = true → (s.entry t i).huge = false →
    label (s.entry t i).frame = some (l.step i)
  flat : ∀ t l i, label t = some l → 2 ≤ l.height → i < 512 →
    (s.entry t i).present = true → (s.entry t i).huge = false
  huge : ∀ t l i, label t = some l → l.height = 1 → i < 512 →
    (s.entry t i).present = true → (s.entry t i).huge = true →
    (s.entry t i).user = false ∧ (s.entry t i).reserved = false ∧
      (s.entry t i).frame.toNat % 512 = 0
  clean : ∀ t l i, label t = some l → l.height = 0 → i < 512 →
    (s.entry t i).present = true → (s.entry t i).reserved = false
  rooted : ∀ t root height pre, label t = some (.own root height pre) →
    height ≤ 3 ∧ (height = 3 → t = root ∧ pre = 0)
  placed : ∀ t root height pre, label t = some (.own root height pre) → height < 3 →
    ∃ up, label up = some (.own root (height + 1) (pre / 512)) ∧
      (slots s).slot (height + 1) up (pre % 512) = .inl t
  managed : ∀ t l, label t = some l → t.toNat < s.frames.nrPages
  held : ∀ t l, label t = some l → s.frames.memMap t.toNat ≠ 0
  own : ∀ t root height pre, label t = some (.own root height pre) →
    s.frames.memMap t.toNat = 1
  consistent : s.frames.Consistent

/-- Frames were taken for the newly labelled tables, and only tables with labels
in `scope` were written. -/
structure Alloc (scope : Label → Prop) (s : Mem) (label : Frame → Option Label) (s' : Mem)
    (label' : Frame → Option Label) : Prop where
  keeps : ∀ t l, label t = some l → label' t = some l
  fresh : ∀ t l, label t = none → label' t = some l → scope l
  taken : ∀ t, label t = none → label' t ≠ none →
    s.frames.memMap t.toNat = 0 ∧ s'.frames.memMap t.toNat = 1
  counts : ∀ t, label' t = label t →
    s'.frames.memMap t.toNat = s.frames.memMap t.toNat ∧
      s'.frames.pageRef t.toNat = s.frames.pageRef t.toNat
  links : ∀ t l n i next, label t = some l → l.height = n + 1 → i < 512 →
    (slots s).slot (n + 1) t i = .inl next → (slots s').slot (n + 1) t i = .inl next
  words : ∀ t, (∀ l, label' t = some l → ¬ scope l) → s'.word t = s.word t
  nrPages : s'.frames.nrPages = s.frames.nrPages

/-- More tables, and nothing else. -/
structure Grown (scope : Label → Prop) (s : Mem) (label : Frame → Option Label) (s' : Mem)
    (label' : Frame → Option Label) : Prop extends Alloc scope s label s' label' where
  tables : Tables s' label'
  views : ∀ t l key, label t = some l →
    (slots s').lookup 512 l.height t key = (slots s).lookup 512 l.height t key

namespace Tables

variable {s : Mem} {label : Frame → Option Label}

theorem labelled (h : Tables s label) :
    (slots s).Labelled 512 Label.step Label.height label where
  height_step := Label.height_step
  child := by
    intro t l n i next hl hn hi hslot
    simp only [slots] at hslot
    split_ifs at hslot with habsent hhuge
    cases hslot
    have hpresent : (s.entry t i).present = true := by simpa using habsent
    refine h.child t l n i hl hn hi hpresent ?_
    by_cases hthree : n + 1 = 3
    · exact h.flat t l i hl (by omega) hi hpresent
    · have : (n + 1 != 3) = true := by simpa using hthree
      simpa only [this, Bool.and_true, Bool.not_eq_true] using hhuge

/-- A free frame is not a table. -/
theorem label_of_free (h : Tables s label) {t : Frame} (hfree : t.toNat ∈ s.frames.free) :
    label t = none := by
  by_contra hlabel
  obtain ⟨l, hl⟩ := Option.ne_none_iff_exists'.mp hlabel
  exact h.held t l hl
    ((h.consistent.mem_iff _ (h.consistent.managed _ hfree)).mp hfree)

end Tables

variable {scope : Label → Prop} {s s' s'' : Mem} {label label' label'' : Frame → Option Label}

theorem Alloc.refl : Alloc scope s label s label where
  keeps := fun _ _ hl => hl
  fresh := fun t l hnone hl => by rw [hnone] at hl; cases hl
  taken := fun _ hnone hsome => absurd hnone hsome
  counts := fun _ _ => ⟨rfl, rfl⟩
  links := fun _ _ _ _ _ _ _ _ hslot => hslot
  words := fun _ _ => rfl
  nrPages := rfl

theorem Alloc.trans (h : Alloc scope s label s' label') (h' : Alloc scope s' label' s'' label'') :
    Alloc scope s label s'' label'' where
  keeps := fun t l hl => h'.keeps t l (h.keeps t l hl)
  fresh := by
    intro t l hnone hl
    cases hmid : label' t with
    | none => exact h'.fresh t l hmid hl
    | some l' =>
      have := (h'.keeps t l' hmid).symm.trans hl
      cases this
      exact h.fresh t l hnone hmid
  taken := by
    intro t hnone hsome
    cases hmid : label' t with
    | none =>
      have hcounts := h.counts t (hmid.trans hnone.symm)
      have htaken := h'.taken t hmid hsome
      exact ⟨hcounts.1.symm.trans htaken.1, htaken.2⟩
    | some l =>
      have htaken := h.taken t hnone (by rw [hmid]; exact Option.some_ne_none l)
      have hcounts := h'.counts t ((h'.keeps t l hmid).trans hmid.symm)
      exact ⟨htaken.1, hcounts.1.trans htaken.2⟩
  counts := by
    intro t hsame
    have hmid : label' t = label t := by
      cases hl : label t with
      | some l => exact h.keeps t l hl
      | none =>
        by_contra hsome
        obtain ⟨l, hl'⟩ := Option.ne_none_iff_exists'.mp hsome
        have := h'.keeps t l hl'
        rw [hsame, hl] at this
        cases this
    have hfirst := h.counts t hmid
    have hsecond := h'.counts t (hsame.trans hmid.symm)
    exact ⟨hsecond.1.trans hfirst.1, hsecond.2.trans hfirst.2⟩
  links := fun t l n i next hl hn hi hslot =>
    h'.links t l n i next (h.keeps t l hl) hn hi (h.links t l n i next hl hn hi hslot)
  words := fun t hout =>
    (h'.words t hout).trans (h.words t fun l hl => hout l (h'.keeps t l hl))
  nrPages := h'.nrPages.trans h.nrPages

theorem Grown.refl (h : Tables s label) : Grown scope s label s label where
  toAlloc := Alloc.refl
  tables := h
  views := fun _ _ _ _ => rfl

theorem Grown.trans (h : Grown scope s label s' label') (h' : Grown scope s' label' s'' label'') :
    Grown scope s label s'' label'' where
  toAlloc := h.toAlloc.trans h'.toAlloc
  tables := h'.tables
  views := fun t l key hl => (h'.views t l key (h.keeps t l hl)).trans (h.views t l key hl)

/-! ## `next_level` -/

section NextLevel

variable {scope : Label → Prop} {s : Mem} {label : Frame → Option Label} {t x page pt : Frame}
  {l : Label} {n idx : ℕ}

/-- Equal entries make equal slots. -/
theorem slot_congr {i : ℕ} (h : s'.entry x i = s.entry x i) (height : ℕ) :
    (slots s').slot height x i = (slots s).slot height x i := by
  simp [slots, h]

theorem splitInto_frames (s : Mem) (pt : Frame) (e : Pte) :
    (splitInto s pt e).frames = s.frames := by
  unfold splitInto
  induction range 512 generalizing s with
  | nil => rfl
  | cons i rest ih => exact ih _

theorem splitInto_word {e : Pte} (hx : x ≠ pt) : (splitInto s pt e).word x = s.word x := by
  unfold splitInto
  induction range 512 generalizing s with
  | nil => rfl
  | cons i rest ih => exact ih.trans (update_of_ne hx _ _)

/-- The loop of `next_level` fills the table with the shares of the huge page. -/
theorem splitInto_entry {e : Pte} {i : ℕ} (hi : i < 512) :
    (splitInto s pt e).entry pt i = slice e i := by
  have hloop : ∀ (is : List ℕ) (s : Mem), (s.entry pt i = slice e i ∨ i ∈ is) →
      (is.foldl (fun s i => s.setEntry pt i ⟨splitFlags e, e.frame + BitVec.ofNat 40 i⟩) s).entry
        pt i = slice e i := by
    intro is
    induction is with
    | nil => exact fun s h => h.resolve_right (by simp)
    | cons k rest ih =>
      intro s h
      refine ih _ ?_
      by_cases hk : i = k
      · subst hk
        exact .inl entry_setEntry_self
      · rw [entry_setEntry_of_ne fun _ => hk]
        exact h.imp_right fun hmem => (mem_cons.mp hmem).resolve_left hk
  exact hloop _ s (.inr (mem_range.mpr hi))

section

variable (h : Tables s label) (hl : label t = some l)

include h hl

/-- The rights of a slot may change without a change to the tree. -/
theorem grown_user (hscope : scope l) (hn : l.height = n + 1)
    (hhuge : (s.entry t idx).huge = false) :
    Grown scope s label (s.setEntry t idx { s.entry t idx with user := true }) label := by
  generalize hs' : s.setEntry t idx { s.entry t idx with user := true } = s'
  have hframes : s'.frames = s.frames := by rw [← hs']; rfl
  have hother : ∀ x i, (x = t → i ≠ idx) → s'.entry x i = s.entry x i := fun x i hne => by
    rw [← hs', entry_setEntry_of_ne hne]
  have hself : s'.entry t idx = { s.entry t idx with user := true } := by
    rw [← hs', entry_setEntry_self]
  -- only the bit `user` of a slot that is not huge differs
  have hsame : ∀ x i, (s'.entry x i).present = (s.entry x i).present ∧
      (s'.entry x i).huge = (s.entry x i).huge ∧ (s'.entry x i).frame = (s.entry x i).frame ∧
      (s'.entry x i).reserved = (s.entry x i).reserved ∧
      ((s.entry x i).huge = true → s'.entry x i = s.entry x i) := by
    intro x i
    by_cases heq : x = t ∧ i = idx
    · obtain ⟨rfl, rfl⟩ := heq
      rw [hself]
      exact ⟨rfl, rfl, rfl, rfl, fun hhuge' => by rw [hhuge] at hhuge'; cases hhuge'⟩
    · rw [hother x i fun hx hi => heq ⟨hx, hi⟩]
      exact ⟨rfl, rfl, rfl, rfl, fun _ => rfl⟩
  have hslot : ∀ x i height, (slots s').slot height x i = (slots s).slot height x i := by
    intro x i height
    obtain ⟨hpresent, hhuge', hframe, -, hall⟩ := hsame x i
    simp only [slots, hpresent, hhuge', hframe]
    by_cases hh : (s.entry x i).huge = true
    · rw [hall hh]
    · simp [hh]
  have hleaf : ∀ x l' i, label x = some l' → l'.height = 0 → s'.entry x i = s.entry x i := by
    intro x l' i hl' hzero
    refine hother x i fun hx => ?_
    rw [hx, hl] at hl'
    cases hl'
    omega
  refine ⟨⟨fun _ _ hx => hx, ?_, fun _ hnone hsome => absurd hnone hsome, ?_, ?_, ?_, ?_⟩, ?_, ?_⟩
  · intro x l' hnone hx
    rw [hnone] at hx
    cases hx
  · intro x _
    rw [hframes]
    exact ⟨rfl, rfl⟩
  · intro x l' m i next _ _ _ hnext
    rw [hslot, hnext]
  · intro x hx
    rw [← hs']
    have hne : x ≠ t := fun heq => hx l (heq ▸ hl) hscope
    exact update_of_ne hne _ _
  · rw [hframes]
  · refine ⟨?_, ?_, ?_, ?_, h.rooted, ?_, ?_, ?_, ?_, ?_⟩
    · intro x l' m i hx hm hi hpresent hhuge'
      obtain ⟨hp, hh, hf, -, -⟩ := hsame x i
      rw [hf]
      exact h.child x l' m i hx hm hi (hp ▸ hpresent) (hh ▸ hhuge')
    · intro x l' i hx hm hi hpresent
      obtain ⟨hp, hh, -, -, -⟩ := hsame x i
      rw [hh]
      exact h.flat x l' i hx hm hi (hp ▸ hpresent)
    · intro x l' i hx hm hi hpresent hhuge'
      obtain ⟨hp, hh, -, -, hall⟩ := hsame x i
      rw [hh] at hhuge'
      rw [hall hhuge']
      exact h.huge x l' i hx hm hi (hp ▸ hpresent) hhuge'
    · intro x l' i hx hm hi hpresent
      obtain ⟨hp, -, -, hr, -⟩ := hsame x i
      rw [hr]
      exact h.clean x l' i hx hm hi (hp ▸ hpresent)
    · intro x root height pre hx hlt
      obtain ⟨up, hup, hlink⟩ := h.placed x root height pre hx hlt
      exact ⟨up, hup, by rw [hslot, hlink]⟩
    · rw [hframes]; exact h.managed
    · rw [hframes]; exact h.held
    · rw [hframes]; exact h.own
    · rw [hframes]; exact h.consistent
  · intro x l' key hx
    exact Radix.lookup_expand h.labelled (by omega)
      (fun y ly m i _ _ _ => .inl (hslot y i (m + 1))) hleaf hx rfl key

/-- A slot that leads nowhere yet may be given a fresh table with the same values. -/
theorem grown_link {values : ℕ → Pte} (hscope : scope l) (hscope' : scope (l.step idx))
    (hn : l.height = n + 1) (hidx : idx < 512)
    (hget : s.frames.getFreePage = some (page.toNat, s'.frames))
    (hold : (slots s).slot (n + 1) t idx = .inr values) (hpresent : (s'.entry t idx).present = true)
    (hhuge : (s'.entry t idx).huge = false) (hframe : (s'.entry t idx).frame = page)
    (hwords : ∀ x, x ≠ t → x ≠ page → s'.word x = s.word x)
    (hother : ∀ i, i ≠ idx → s'.entry t i = s.entry t i)
    (hinside : ∀ i < 512, (s'.entry page i).present = true → n = 0 ∧ (s'.entry page i).reserved = false)

    (hvalues : ∀ key, key / 512 ^ (n + 1) % 512 = idx → (slots s').lookup 512 n page key = values key) :
     Grown scope s label s' (update label page (some (l.step idx))) := by
  obtain ⟨hfree, hf'⟩ := Frames.getFreePage_eq_some hget
  have hmem : page.toNat ∈ s.frames.free := by rw [hfree]; exact mem_cons_self
  have hpage : label page = none := h.label_of_free hmem
  have hne : ∀ x l', label x = some l' → x ≠ page := fun x l' hx heq => by
    rw [heq, hpage] at hx
    cases hx
  have hstep : (l.step idx).height = n := Label.height_step l n idx hn
  have hmap : s'.frames.memMap = update s.frames.memMap page.toNat 1 := by rw [hf']; rfl
  have hnr : s'.frames.nrPages = s.frames.nrPages := by rw [hf']; rfl
  have hentry : ∀ x i, x ≠ page → (x = t → i ≠ idx) → s'.entry x i = s.entry x i := by
    intro x i hx hxt
    by_cases heq : x = t
    · subst heq
      exact hother i (hxt rfl)
    · rw [entry, hwords x heq hx, entry]
  have hlabel : ∀ x l', label x = some l' →
      update label page (some (l.step idx)) x = some l' := fun x l' hx => by
    rw [update_of_ne (hne x l' hx), hx]
  have hmemMap : ∀ x : Frame, x ≠ page → s'.frames.memMap x.toNat = s.frames.memMap x.toNat := by
    intro x hx
    rw [hmap, update_of_ne (fun heq => hx (BitVec.eq_of_toNat_eq heq))]
  -- a labelled frame is the new table, or an old one with at most its one slot changed
  have hcases : ∀ x l', update label page (some (l.step idx)) x = some l' →
      x = page ∧ l' = l.step idx ∨ x ≠ page ∧ label x = some l' := by
    intro x l' hx
    by_cases heq : x = page
    · subst heq
      rw [update_self] at hx
      exact .inl ⟨rfl, (Option.some.inj hx).symm⟩
    · rw [update_of_ne heq] at hx
      exact .inr ⟨heq, hx⟩
  have hlinks : ∀ x l' m i next, label x = some l' → l'.height = m + 1 → i < 512 →
      (slots s).slot (m + 1) x i = .inl next → (slots s').slot (m + 1) x i = .inl next := by
    intro x l' m i next hx hm hi hnext
    rw [← hnext]
    refine slot_congr (hentry x i (hne x l' hx) fun hxt hit => ?_) _
    -- the changed slot led nowhere
    subst hxt hit
    rw [hl] at hx
    cases hx
    have hmn : m = n := by omega
    rw [hmn, hold] at hnext
    cases hnext
  have hnew : (slots s').slot (n + 1) t idx = .inl page := by
    simp [slots, hpresent, hhuge, hframe]
  have hslot : ∀ x l' i, update label page (some (l.step idx)) x = some l' → 0 < l'.height →
      i < 512 → (s'.entry x i).present = true →
      x = t ∧ i = idx ∧ l' = l ∨ label x = some l' ∧ s'.entry x i = s.entry x i := by
    intro x l' i hx hm hi hp
    rcases hcases x l' hx with ⟨rfl, rfl⟩ | ⟨hxp, hxl⟩
    · have := (hinside i hi hp).1
      omega
    · by_cases heq : x = t ∧ i = idx
      · exact .inl ⟨heq.1, heq.2, Option.some_inj.mp (hxl.symm.trans (heq.1 ▸ hl))⟩
      · exact .inr ⟨hxl, hentry x i hxp fun hx hi => heq ⟨hx, hi⟩⟩
  refine ⟨⟨hlabel, ?_, ?_, ?_, hlinks, ?_, hnr⟩, ⟨?_, ?_, ?_, ?_, ?_, ?_, ?_, ?_, ?_, ?_⟩, ?_⟩
  · intro x l' hnone hx
    rcases hcases x l' hx with ⟨-, rfl⟩ | ⟨-, hxl⟩
    · exact hscope'
    · rw [hnone] at hxl
      cases hxl
  · intro x hnone hsome
    have hx : x = page := by
      by_contra hx
      rw [update_of_ne hx] at hsome
      exact hsome hnone
    subst hx
    refine ⟨?_, by rw [hmap, update_self]⟩
    exact (h.consistent.mem_iff _ (h.consistent.managed _ hmem)).mp hmem
  · intro x hsame
    have hx : x ≠ page := fun hx => by
      rw [hx, update_self, hpage] at hsame
      cases hsame
    refine ⟨hmemMap x hx, ?_⟩
    rw [hf']
    exact update_of_ne (fun heq => hx (BitVec.eq_of_toNat_eq heq)) _ _
  · intro x hout
    refine hwords x (fun hxt => hout l (hlabel x l (hxt ▸ hl)) hscope) fun hx => ?_
    exact hout (l.step idx) (by rw [hx, update_self]) hscope'
  · intro x l' m i hx hm hi hp hh
    rcases hslot x l' i hx (by omega) hi hp with ⟨rfl, rfl, rfl⟩ | ⟨hxl, hsame⟩
    · rw [hframe, update_self]
    · rw [hsame] at hp hh ⊢
      exact hlabel _ _ (h.child x l' m i hxl hm hi hp hh)
  · intro x l' i hx hm hi hp
    rcases hslot x l' i hx (by omega) hi hp with ⟨rfl, rfl, rfl⟩ | ⟨hxl, hsame⟩
    · exact hhuge
    · rw [hsame] at hp ⊢
      exact h.flat x l' i hxl hm hi hp
  · intro x l' i hx hm hi hp hh
    rcases hslot x l' i hx (by omega) hi hp with ⟨rfl, rfl, rfl⟩ | ⟨hxl, hsame⟩
    · rw [hhuge] at hh
      cases hh
    · rw [hsame] at hp hh ⊢
      exact h.huge x l' i hxl hm hi hp hh
  · intro x l' i hx hm hi hp
    rcases hcases x l' hx with ⟨rfl, rfl⟩ | ⟨hxp, hxl⟩
    · exact (hinside i hi hp).2
    · have hsame := hentry x i hxp fun heq => by
        rw [heq, hl] at hxl
        cases hxl
        omega
      rw [hsame] at hp ⊢
      exact h.clean x l' i hxl hm hi hp
  · intro x root height pre hx
    rcases hcases x _ hx with ⟨rfl, hstep'⟩ | ⟨-, hxl⟩
    · obtain ⟨pre', rfl, rfl, -, -⟩ := Label.step_eq_own hstep'.symm hn
      have := (h.rooted t root _ pre' hl).1
      omega
    · exact h.rooted x root height pre hxl
  · intro x root height pre hx hlt
    rcases hcases x _ hx with ⟨rfl, hstep'⟩ | ⟨-, hxl⟩
    · -- the new table hangs off the slot that was changed
      obtain ⟨pre', rfl, rfl, rfl, -⟩ := Label.step_eq_own hstep'.symm hn
      have hdiv : (pre' * 512 + idx) / 512 = pre' := by omega
      have hmod : (pre' * 512 + idx) % 512 = idx := by omega
      refine ⟨t, ?_, ?_⟩
      · rw [hdiv]
        exact hlabel t _ hl
      · rw [hmod]
        exact hnew
    · obtain ⟨up, hup, hlink⟩ := h.placed x root height pre hxl hlt
      exact ⟨up, hlabel up _ hup, hlinks up _ height _ x hup rfl (Nat.mod_lt _ (by omega)) hlink⟩
  · intro x l' hx
    rw [hnr]
    rcases hcases x l' hx with ⟨rfl, -⟩ | ⟨-, hxl⟩
    · exact h.consistent.managed _ hmem
    · exact h.managed x l' hxl
  · intro x l' hx
    rcases hcases x l' hx with ⟨rfl, -⟩ | ⟨hxp, hxl⟩
    · rw [hmap, update_self]
      exact one_ne_zero
    · rw [hmemMap x hxp]
      exact h.held x l' hxl
  · intro x root height pre hx
    rcases hcases x _ hx with ⟨rfl, -⟩ | ⟨hxp, hxl⟩
    · rw [hmap, update_self]
    · rw [hmemMap x hxp]
      exact h.own x root height pre hxl
  · exact h.consistent.getFreePage hget
  · intro x l' key hx
    refine Radix.lookup_expand h.labelled (by omega) ?_ ?_ hx rfl key
    · intro y ly m i hy hm hi
      by_cases heq : y = t ∧ i = idx
      · obtain ⟨rfl, rfl⟩ := heq
        rw [hl] at hy
        cases hy
        have hmn : m = n := by omega
        subst hmn
        exact .inr ⟨values, page, hold, hnew, hvalues⟩
      · exact .inl (slot_congr (hentry y i (hne y ly hy) fun hy hi => heq ⟨hy, hi⟩) _)
    · intro y ly i hy hzero
      refine hentry y i (hne y ly hy) fun heq => ?_
      rw [heq, hl] at hy
      cases hy
      omega

theorem getFreePage_ne (hget : s.getFreePage = some (page, s')) : t ≠ page := by
  rintro rfl
  have hmem : t.toNat ∈ s.frames.free := by
    rw [(Frames.getFreePage_eq_some (getFreePage_eq_some hget).1).1]
    exact mem_cons_self
  rw [h.label_of_free hmem] at hl
  cases hl

end

/-- What `next_level` achieves when it returns a table. -/
def NextTable (scope : Label → Prop) (s : Mem) (label : Frame → Option Label) (t : Frame)
    (l : Label) (n idx : ℕ) (next : Frame) (s' : Mem) : Prop :=
  ∃ label', Grown scope s label s' label' ∧ label' next = some (l.step idx) ∧
    (slots s').slot (n + 1) t idx = .inl next

section

variable (h : Tables s label) (hl : label t = some l) (hscope : scope l)
  (hscope' : scope (l.step idx)) {s₁ : Mem}

include h hl hscope hscope'

/-- Splitting a huge page, which sits in a page directory. -/
theorem nextTable_split (hn : l.height = 0 + 1) (hidx : idx < 512)
    (hpresent : (s.entry t idx).present = true) (hhuge : (s.entry t idx).huge = true) (user : Bool)
    (hget : s.getFreePage = some (pt, s₁)) :
    NextTable scope s label t l 0 idx pt ((splitInto s₁ pt (s.entry t idx)).setEntry t idx
      ⟨{ splitFlags (s.entry t idx) with user := (splitFlags (s.entry t idx)).user || user },
        pt⟩) := by
  obtain ⟨hget', hword⟩ := getFreePage_eq_some hget
  obtain ⟨-, hreserved, -⟩ := h.huge t l idx hl hn hidx hpresent hhuge
  have hpt : t ≠ pt := getFreePage_ne h hl hget
  have hold : (slots s).slot (0 + 1) t idx =
      .inr fun key => slice (s.entry t idx) (key % 512 ^ (0 + 1)) := by
    simp [slots, hpresent, hhuge]
  refine ⟨update label pt (some (l.step idx)), ?_, update_self _ _ _, ?_⟩
  · refine grown_link h hl hscope hscope' hn hidx ?_ hold ?_ ?_ ?_ ?_ ?_ ?_ ?_
    · rw [frames_setEntry, splitInto_frames, hget']
    · rw [entry_setEntry_self]; rfl
    · rw [entry_setEntry_self]; rfl
    · rw [entry_setEntry_self]
    · intro x hxt hxp
      refine (update_of_ne hxt _ _).trans ?_
      rw [splitInto_word hxp, hword, update_of_ne hxp]
    · intro i hi
      rw [entry_setEntry_of_ne fun _ => hi, entry, splitInto_word hpt, hword,
        update_of_ne hpt, entry]
    · intro i hi _
      rw [entry_setEntry_of_ne fun heq => absurd heq.symm hpt, splitInto_entry hi]
      exact ⟨rfl, hreserved⟩
    · intro key _
      refine (entry_setEntry_of_ne fun heq => absurd heq.symm hpt).trans ?_
      rw [splitInto_entry (Nat.mod_lt _ (by omega)), pow_one]
  · simp [slots, splitFlags]

/-- A missing table is built empty. -/
theorem nextTable_new (hn : l.height = n + 1) (hidx : idx < 512)
    (habsent : (s.entry t idx).present = false) (user : Bool)
    (hget : s.getFreePage = some (page, s₁)) : NextTable scope s label t l n idx page
      (s₁.setEntry t idx ⟨{ present := true, rw := true, user := user }, page⟩) := by
  obtain ⟨hget', hword⟩ := getFreePage_eq_some hget
  have hpage : t ≠ page := getFreePage_ne h hl hget
  have hzero : ∀ i, (s₁.setEntry t idx
      ⟨{ present := true, rw := true, user := user }, page⟩).entry page i = noEntry := by
    intro i
    rw [entry_setEntry_of_ne fun heq => absurd heq.symm hpage, entry_getFreePage_self hget]
  have hold : (slots s).slot (n + 1) t idx = .inr fun _ => noEntry := by
    simp [slots, habsent]
  refine ⟨update label page (some (l.step idx)), ?_, update_self _ _ _, ?_⟩
  · refine grown_link h hl hscope hscope' hn hidx hget' hold ?_ ?_ ?_ ?_ ?_ ?_ ?_
    · rw [entry_setEntry_self]
    · rw [entry_setEntry_self]
    · rw [entry_setEntry_self]
    · intro x hxt hxp
      refine (update_of_ne hxt _ _).trans ?_
      rw [hword, update_of_ne hxp]
    · intro i hi
      rw [entry_setEntry_of_ne fun _ => hi, entry_getFreePage_of_ne hget hpage]
    · intro i _ hp
      rw [hzero i] at hp
      cases hp
    · intro key _
      cases n with
      | zero => exact hzero _
      | succ n => simp [Radix.lookup, slots, hzero]
  · simp [slots]

/-- `next_level` on a well-formed table: it fails only for want of memory for a
missing table, and otherwise returns the table of its slot, having built it if
need be. -/
theorem nextLevel_spec (hn : l.height = n + 1)
    (hidx : idx < 512) (user : Bool) :
    nextLevel s t idx user = (none, s) ∧ s.frames.free = [] ∧
        (∀ next, (slots s).slot (n + 1) t idx ≠ .inl next) ∨
      ∃ next s', nextLevel s t idx user = (some next, s') ∧
        NextTable scope s label t l n idx next s' := by
  unfold nextLevel
  by_cases hpresent : (s.entry t idx).present = true
  · by_cases hhuge : (s.entry t idx).huge = true
    · have hn0 : n = 0 := by
        by_contra hne
        have := h.flat t l idx hl (by omega) hidx hpresent
        rw [hhuge] at this
        cases this
      subst hn0
      simp only [hpresent, hhuge]
      cases hget : s.getFreePage with
      | none => exact .inl ⟨rfl, getFreePage_eq_none.mp hget, by simp [slots, hpresent, hhuge]⟩
      | some taken =>
        exact .inr ⟨_, _, rfl,
          nextTable_split h hl hscope hscope' hn hidx hpresent hhuge user hget⟩
    · -- an existing table: at most the bit `USER` of its slot is added
      have hhuge' : (s.entry t idx).huge = false := by simpa using hhuge
      rw [if_pos hpresent]
      have hslot : (slots s).slot (n + 1) t idx = .inl (s.entry t idx).frame := by
        simp [slots, hpresent, hhuge']
      have hnext := h.child t l n idx hl hn hidx hpresent hhuge'
      split_ifs
      · have hgrown := grown_user h hl hscope hn hhuge'
        exact .inr ⟨_, _, rfl, label, hgrown, hnext, hgrown.links t l n idx _ hl hn hidx hslot⟩
      · exact .inr ⟨_, s, rfl, label, Grown.refl h, hnext, hslot⟩
  · have habsent : (s.entry t idx).present = false := by simpa using hpresent
    simp only [habsent]
    cases hget : s.getFreePage with
    | none => exact .inl ⟨rfl, getFreePage_eq_none.mp hget, by simp [slots, habsent]⟩
    | some taken =>
      exact .inr ⟨_, _, rfl, nextTable_new h hl hscope hscope' hn hidx habsent user hget⟩

end

end NextLevel

end Shitix.Paging
