import Shitix.Mm.Tables

/-!
# Changing one page

The operations of `paging.rs` that change the mapping of a page build the missing
tables and then write one last-level entry.  `Put` is what such an operation does
to the memory as a whole: the page is governed by the new entry, and every page
the write does not reach keeps its own.  A page of the lower half belongs to one
address space alone; in the kernel half only the page number tells.

Each operation gets one specification in these terms.
-/

namespace Shitix.Paging

open Mem Paging Label Radix Function

/-! ## Page numbers -/

/-- The page number of an address, as far as the four levels look at it. -/
def vpage (va : ℕ) : ℕ := va / 4096 % 2 ^ 36

/-- The page is in the half of the address space that belongs to the process. -/
def LowerHalf (va : ℕ) : Prop := vpage va < 2 ^ 35

instance (va : ℕ) : Decidable (LowerHalf va) := inferInstanceAs (Decidable (_ < _))

theorem indices_of_vpage {va va' : ℕ} (h : vpage va = vpage va') :
    pml4Index va = pml4Index va' ∧ pdptIndex va = pdptIndex va' ∧ pdIndex va = pdIndex va' ∧
      ptIndex va = ptIndex va' ∧ va / 4096 % 512 ^ 2 = va' / 4096 % 512 ^ 2 := by
  simp only [vpage, pml4Index, pdptIndex, pdIndex, ptIndex] at *
  omega

/-- The tables look at nothing but the page number. -/
theorem pageEntry_congr {s : Mem} {pml4 : Frame} {va va' : ℕ} (h : vpage va = vpage va') :
    pageEntry s pml4 va = pageEntry s pml4 va' := by
  obtain ⟨h4, h3, h2, h1, h0⟩ := indices_of_vpage h
  simp only [(walk_spec ..).1, walk, h4, h3, h2, h1, h0]

theorem walk_congr {s : Mem} {pml4 : Frame} {va va' : ℕ} (h : vpage va = vpage va') :
    walk s pml4 va = walk s pml4 va' := by
  obtain ⟨h4, h3, h2, -⟩ := indices_of_vpage h
  simp [walk, h4, h3, h2]

/-! ## Address spaces -/

variable {scope : Label → Prop} {s s' : Mem} {label label' : Frame → Option Label} {root pt : Frame}
  {va frame offset : ℕ} {l : Label} {e : Pte}

/-- `root` is the PML4 of an address space. -/
def Space (label : Frame → Option Label) (root : Frame) : Prop := label root = some (.own root 3 0)

theorem Grown.pageEntry (h : Grown scope s label s' label') (hr : Space label root) (va : ℕ) :
    pageEntry s' root va = pageEntry s root va :=
  h.views root (.own root 3 0) (va / 4096) hr

/-- The label of the last-level table of a page. -/
theorem label_of_walk (h : Tables s label) (hr : Space label root)
    (hwalk : walk s root va = .table pt) : label pt = some (leafLabel root (va / 4096)) := by
  refine label_of_reach h.labelled (by omega) hr rfl ?_
  rw [(walk_spec ..).2, hwalk]

theorem leafLabel_height (root : Frame) (vpn : ℕ) : (leafLabel root vpn).height = 0 :=
  height_step _ 0 _ (height_step _ 1 _ (height_step _ 2 _ rfl))

/-- The tables an operation on an address may build and write: below the middle,
only those on the way down in its own address space. -/
def Within (root : Frame) (va : ℕ) (l : Label) : Prop :=
  LowerHalf va → ∃ height, l = .own root height (vpage va / 512 ^ (height + 1))

theorem pml4Index_lowerHalf (h : LowerHalf va) : pml4Index va < 256 := by
  simp only [LowerHalf, vpage, pml4Index] at *
  omega

section

variable (root : Frame) (va : ℕ)

theorem within_pml4 : Within root va (.own root 3 0) := by
  intro hlow
  refine ⟨3, ?_⟩
  rw [Nat.div_eq_of_lt (lt_trans hlow (by norm_num))]

theorem within_pdpt : Within root va ((own root 3 0).step (pml4Index va)) := by
  intro hlow
  have := pml4Index_lowerHalf hlow
  rw [step, if_neg (by omega)]
  simp only [vpage, pml4Index] at *
  norm_num
  omega

theorem within_pd : Within root va (((own root 3 0).step (pml4Index va)).step (pdptIndex va)) := by
  intro hlow
  have := pml4Index_lowerHalf hlow
  rw [step, if_neg (by omega), step]
  simp only [vpage, pml4Index, pdptIndex] at *
  norm_num
  omega

theorem within_pt : Within root va
    ((((own root 3 0).step (pml4Index va)).step (pdptIndex va)).step (pdIndex va)) := by
  intro hlow
  have := pml4Index_lowerHalf hlow
  rw [step, if_neg (by omega), step, if_neg (by omega), step]
  simp only [LowerHalf, vpage, pml4Index, pdptIndex, pdIndex] at *
  norm_num
  omega

end

/-- What a write to the entry of a page does to the memory. -/
structure Put (s : Mem) (label : Frame → Option Label) (s' : Mem)
    (label' : Frame → Option Label) (root : Frame) (va : ℕ) (e : Pte) : Prop
    extends Alloc (Within root va) s label s' label' where
  tables : Tables s' label'
  self : pageEntry s' root va = e
  other : ∀ root' va', Space label root' →
    (vpage va' ≠ vpage va ∨ root' ≠ root ∧ LowerHalf va) →
    pageEntry s' root' va' = pageEntry s root' va'

theorem Tables.setLeaf (h : Tables s label) (hl : label pt = some l) (hzero : l.height = 0) (i : ℕ)
    (hclean : e.present = true → e.reserved = false) : Tables (s.setEntry pt i e) label := by
  have hother : ∀ x l' k, label x = some l' → l'.height ≠ 0 →
      (s.setEntry pt i e).entry x k = s.entry x k := by
    intro x l' k hx hne
    refine entry_setEntry_of_ne fun heq => ?_
    rw [heq, hl] at hx
    cases hx
    exact absurd hzero hne
  refine ⟨?_, ?_, ?_, ?_, h.rooted, ?_, h.managed, h.held, h.own, h.consistent⟩
  · intro x l' n k hx hn hk
    rw [hother x l' k hx (by omega)]
    exact h.child x l' n k hx hn hk
  · intro x l' k hx hn hk
    rw [hother x l' k hx (by omega)]
    exact h.flat x l' k hx hn hk
  · intro x l' k hx hn hk
    rw [hother x l' k hx (by omega)]
    exact h.huge x l' k hx hn hk
  · intro x l' k hx hn hk
    by_cases heq : x = pt ∧ k = i
    · obtain ⟨rfl, rfl⟩ := heq
      rw [entry_setEntry_self]
      exact hclean
    · rw [entry_setEntry_of_ne fun hx hk => heq ⟨hx, hk⟩]
      exact h.clean x l' k hx hn hk
  · intro x root height pre hx hlt
    obtain ⟨up, hup, hlink⟩ := h.placed x root height pre hx hlt
    refine ⟨up, hup, (slot_congr (hother up _ _ hup ?_) _).trans hlink⟩
    exact Nat.succ_ne_zero height

/-- Writing the entry of a page whose tables exist. -/
theorem put_setEntry (h : Tables s label) (hr : Space label root)
    (hwalk : walk s root va = .table pt) (hclean : e.present = true → e.reserved = false) :
    Put s label (s.setEntry pt (ptIndex va) e) label root va e := by
  have hpt := label_of_walk h hr hwalk
  have hzero := leafLabel_height root (va / 4096)
  have hslot : ∀ x l n i, label x = some l → l.height = n + 1 →
      (slots (s.setEntry pt (ptIndex va) e)).slot (n + 1) x i = (slots s).slot (n + 1) x i := by
    intro x l n i hx hn
    refine slot_congr (entry_setEntry_of_ne fun heq => ?_) _
    rw [heq, hpt] at hx
    cases hx
    omega
  refine ⟨⟨fun _ _ hx => hx, fun x l hnone hx => (by rw [hnone] at hx; cases hx),
    fun _ hnone hsome => absurd hnone hsome, fun _ _ => ⟨rfl, rfl⟩,
    fun x l n i next hx hn _ hlink => (hslot x l n i hx hn).trans hlink, ?_, rfl⟩,
    h.setLeaf hpt hzero _ hclean, ?_, ?_⟩
  · intro x hout
    refine update_of_ne (fun heq => hout _ (heq ▸ hpt) fun hlow => ?_) _ _
    exact ⟨0, by rw [leafLabel_user hlow, pow_one, vpage]⟩
  · have hreach : (slots s).reach 512 3 root (va / 4096) = some pt := by rw [(walk_spec ..).2, hwalk]
    exact (lookup_of_reach ((reach_write h.labelled (by omega) hslot hr rfl _).trans hreach)).trans
      entry_setEntry_self
  · intro root' va' hr' hne
    refine lookup_write_of_ne h.labelled (by omega) hslot
      (fun x i hx => entry_setEntry_of_ne hx) hr' rfl fun hsame hidx => ?_
    -- the same label and the same index: the same page, of the same space below the middle
    have hlabel : leafLabel root (va / 4096) = leafLabel root' (va' / 4096) :=
      Option.some.inj (hpt.symm.trans hsame)
    have hidx' : va' / 4096 % 512 = va / 4096 % 512 := hidx
    by_cases hlow : LowerHalf va <;> by_cases hlow' : LowerHalf va'
    · rw [leafLabel_user hlow, leafLabel_user hlow'] at hlabel
      simp only [own.injEq] at hlabel
      have hpage : vpage va' = vpage va := by simp only [vpage]; omega
      rcases hne with hne | hne
      · exact hne hpage
      · exact hne.1 hlabel.1.symm
    · rw [leafLabel_user hlow, leafLabel_kernel (not_lt.mp hlow')] at hlabel
      cases hlabel
    · rw [leafLabel_user hlow', leafLabel_kernel (not_lt.mp hlow)] at hlabel
      cases hlabel
    · rw [leafLabel_kernel (not_lt.mp hlow), leafLabel_kernel (not_lt.mp hlow')] at hlabel
      simp only [shared.injEq] at hlabel
      have hpage : vpage va' = vpage va := by simp only [vpage]; omega
      exact hne.elim (fun hne => hne hpage) fun hne => hlow hne.2

theorem walk_of_reach (h : (slots s).reach 512 3 root (va / 4096) = some pt) :
    walk s root va = .table pt := by
  rw [(walk_spec ..).2] at h
  split at h
  · next hwalk =>
    cases h
    exact hwalk
  · cases h

/-- The ways down end in the same last-level tables. -/
def SameWays (s : Mem) (label : Frame → Option Label) (s' : Mem) : Prop :=
  ∀ root va pt, Space label root → (walk s' root va = .table pt ↔ walk s root va = .table pt)

theorem reach_of_walk (h : walk s root va = .table pt) :
    (slots s).reach 512 3 root (va / 4096) = some pt := by
  rw [(walk_spec ..).2, h]

theorem sameWays_setEntry (h : Tables s label) (hl : label pt = some l) (hzero : l.height = 0)
    (i : ℕ) (e : Pte) : SameWays s label (s.setEntry pt i e) := by
  intro root va x hr
  have hslots : ∀ y ly n k, label y = some ly → ly.height = n + 1 →
      (slots (s.setEntry pt i e)).slot (n + 1) y k = (slots s).slot (n + 1) y k := by
    intro y ly n k hy hn
    refine slot_congr (entry_setEntry_of_ne fun heq => ?_) _
    rw [heq, hl] at hy
    cases hy
    omega
  have hreach := reach_write h.labelled (by omega) hslots hr rfl (va / 4096)
  exact ⟨fun hwalk => walk_of_reach (hreach ▸ reach_of_walk hwalk),
    fun hwalk => walk_of_reach (hreach.trans (reach_of_walk hwalk))⟩

/-! ## Changes outside the tables -/

/-- Memory that differs outside the tables only. -/
def SameTables (s : Mem) (label : Frame → Option Label) (s' : Mem) : Prop :=
  ∀ t l, label t = some l → s'.word t = s.word t

theorem SameTables.entry (h : SameTables s label s') {t : Frame} (hl : label t = some l) (i : ℕ) :
    s'.entry t i = s.entry t i := by
  rw [Mem.entry, h t l hl, Mem.entry]

section

variable (hsame : SameTables s label s') (h : Tables s label)

include hsame h

theorem SameTables.pageEntry (hr : Space label root) (va : ℕ) : pageEntry s' root va =
    pageEntry s root va :=
  lookup_expand h.labelled (by omega)
    (fun _ _ _ i hl _ _ => .inl (slot_congr (hsame.entry hl i) _))
    (fun _ _ i hl _ => hsame.entry hl i) hr rfl (va / 4096)

theorem SameTables.walk (hr : Space label root) (hwalk : walk s root va = .table pt) :
    walk s' root va = .table pt := by
  have hreach : (slots s).reach 512 3 root (va / 4096) = some pt := by rw [(walk_spec ..).2, hwalk]
  exact walk_of_reach ((reach_write h.labelled (by omega)
    (fun _ _ _ i hl _ => slot_congr (hsame.entry hl i) _) hr rfl (va / 4096)).trans hreach)

theorem SameTables.tables (hnr : s'.frames.nrPages = s.frames.nrPages)
    (hmap : ∀ t l, label t = some l → s'.frames.memMap t.toNat = s.frames.memMap t.toNat)
    (hconsistent : s'.frames.Consistent) : Tables s' label where
  child := fun t l n i hl hn hi => by
    rw [hsame.entry hl]
    exact h.child t l n i hl hn hi
  flat := fun t l i hl hn hi => by
    rw [hsame.entry hl]
    exact h.flat t l i hl hn hi
  huge := fun t l i hl hn hi => by
    rw [hsame.entry hl]
    exact h.huge t l i hl hn hi
  clean := fun t l i hl hn hi => by
    rw [hsame.entry hl]
    exact h.clean t l i hl hn hi
  rooted := h.rooted
  placed := fun t root height pre hl hlt => by
    obtain ⟨up, hup, hlink⟩ := h.placed t root height pre hl hlt
    exact ⟨up, hup, (slot_congr (hsame.entry hup _) _).trans hlink⟩
  managed := fun t l hl => hnr ▸ h.managed t l hl
  held := fun t l hl => hmap t l hl ▸ h.held t l hl
  own := fun t root height pre hl => (hmap t _ hl).trans (h.own t root height pre hl)
  consistent := hconsistent

end

/-- A page taken for data: a free frame, hence no table. -/
theorem getFreePage_data (h : Tables s label) {page : Frame}
    (hget : s.getFreePage = some (page, s')) :
    Tables s' label ∧ SameTables s label s' ∧ label page = none ∧
      page.toNat < s.frames.nrPages ∧ s.frames.memMap page.toNat = 0 := by
  obtain ⟨hframes, hword⟩ := getFreePage_eq_some hget
  obtain ⟨hfree, hf'⟩ := Frames.getFreePage_eq_some hframes
  have hmem : page.toNat ∈ s.frames.free := by rw [hfree]; exact List.mem_cons_self
  have hlt := h.consistent.managed _ hmem
  have hne : ∀ t l, label t = some l → t ≠ page := fun t l hl heq => by
    rw [heq, h.label_of_free hmem] at hl
    cases hl
  have hsame : SameTables s label s' := fun t l hl => by
    rw [hword, update_of_ne (hne t l hl)]
  refine ⟨hsame.tables h (by rw [hf']; rfl) (fun t l hl => ?_) (h.consistent.getFreePage hframes),
    hsame, h.label_of_free hmem, hlt, (h.consistent.mem_iff _ hlt).mp hmem⟩
  rw [hf']
  exact update_of_ne (fun heq => hne t l hl (BitVec.eq_of_toNat_eq heq)) _ _

/-! ## Building the way down -/

/-- The slots on a way down that ends in a last-level table. -/
theorem slots_of_walk (h : Tables s label) (hr : Space label root)
    (hwalk : walk s root va = .table pt) :
    ∃ pdpt pd, label pdpt = some ((own root 3 0).step (pml4Index va)) ∧
      (slots s).slot 3 root (pml4Index va) = .inl pdpt ∧
      label pd = some (((own root 3 0).step (pml4Index va)).step (pdptIndex va)) ∧
      (slots s).slot 2 pdpt (pdptIndex va) = .inl pd ∧
      (slots s).slot 1 pd (pdIndex va) = .inl pt := by
  have hreach := reach_of_walk hwalk
  have hheight := height_step (.own root 3 0) 2 (pml4Index va) rfl
  simp only [reach, pml4Index_eq, pdptIndex_eq, pdIndex_eq] at hreach
  split at hreach
  · next pdpt hfirst =>
    have hl₁ := h.labelled.child root _ 2 _ pdpt hr rfl (pml4Index_lt va) hfirst
    split at hreach
    · next pd hsecond =>
      have hl₂ := h.labelled.child pdpt _ 1 _ pd hl₁ hheight (pdptIndex_lt va) hsecond
      split at hreach
      · next pt' hthird =>
        cases hreach
        exact ⟨pdpt, pd, hl₁, hfirst, hl₂, hsecond, hthird⟩
      · cases hreach
    · cases hreach
  · cases hreach

/-- `leafTable` fails only for want of memory for a missing table, and otherwise
returns the last-level table of the page. -/
theorem leafTable_spec (h : Tables s label) (hr : Space label root) (va : ℕ) (user : Bool) :
    ∃ s' label', Grown (Within root va) s label s' label' ∧
      (leafTable s root va user = (none, s') ∧ s'.frames.free = [] ∧
          (∀ pt, walk s' root va ≠ .table pt) ∨
        ∃ pt, leafTable s root va user = (some pt, s') ∧ walk s' root va = .table pt) := by
  unfold leafTable
  have hw₀ := within_pml4 root va
  have hw₁ := within_pdpt root va
  have hw₂ := within_pd root va
  have hw₃ := within_pt root va
  have hheight₁ := height_step (.own root 3 0) 2 (pml4Index va) rfl
  have hheight₂ := height_step _ 1 (pdptIndex va) hheight₁
  rcases nextLevel_spec h hr hw₀ hw₁ rfl (pml4Index_lt va) user with
    ⟨hnone, hfree, hmissing⟩ | ⟨pdpt, s₁, hsome, label₁, hgrown₁, hpdpt, hslot₁⟩
  · refine ⟨s, label, Grown.refl h, .inl ⟨by rw [hnone], hfree, fun pt hwalk => ?_⟩⟩
    obtain ⟨next, -, -, hfirst, -⟩ := slots_of_walk h hr hwalk
    exact hmissing next hfirst
  rcases nextLevel_spec hgrown₁.tables hpdpt hw₁ hw₂ hheight₁ (pdptIndex_lt va) user with
    ⟨hnone, hfree, hmissing⟩ | ⟨pd, s₂, hsome₂, label₂, hgrown₂, hpd, hslot₂⟩
  · refine ⟨s₁, label₁, hgrown₁,
      .inl ⟨by simp only [hsome, hnone], hfree, fun pt hwalk => ?_⟩⟩
    obtain ⟨next, next', -, hfirst, -, hsecond, -⟩ :=
      slots_of_walk hgrown₁.tables (hgrown₁.keeps _ _ hr) hwalk
    rw [hslot₁] at hfirst
    cases hfirst
    exact hmissing next' hsecond
  have hgrown₁₂ := hgrown₁.trans hgrown₂
  have hlink₁₂ := hgrown₂.links root _ 2 _ pdpt (hgrown₁.keeps _ _ hr) rfl (pml4Index_lt va) hslot₁
  rcases nextLevel_spec hgrown₂.tables hpd hw₂ hw₃ hheight₂ (pdIndex_lt va) user with
    ⟨hnone, hfree, hmissing⟩ | ⟨pt, s₃, hsome₃, label₃, hgrown₃, -, hslot₃⟩
  · refine ⟨s₂, label₂, hgrown₁₂,
      .inl ⟨by simp only [hsome, hsome₂, hnone], hfree, fun pt hwalk => ?_⟩⟩
    obtain ⟨next, next', -, hfirst, -, hsecond, hthird⟩ :=
      slots_of_walk hgrown₂.tables (hgrown₁₂.keeps _ _ hr) hwalk
    rw [hlink₁₂] at hfirst
    cases hfirst
    rw [hslot₂] at hsecond
    cases hsecond
    exact hmissing pt hthird
  refine ⟨s₃, label₃, hgrown₁₂.trans hgrown₃,
    .inr ⟨pt, by simp only [hsome, hsome₂, hsome₃], ?_⟩⟩
  -- the slots found on the way are still there at the end
  have hlink₁ := (hgrown₂.trans hgrown₃).links root _ 2 _ pdpt (hgrown₁.keeps _ _ hr) rfl
    (pml4Index_lt va) hslot₁
  have hlink₂ := hgrown₃.links pdpt _ 1 _ pd (hgrown₂.keeps _ _ hpdpt) hheight₁
    (pdptIndex_lt va) hslot₂
  refine walk_of_reach ?_
  simp only [reach, pml4Index_eq, pdptIndex_eq, pdIndex_eq, hlink₁, hlink₂, hslot₃]

/-- A way down stays when tables are built. -/
theorem Alloc.walk (h : Alloc scope s label s' label') (htables : Tables s label)
    (hr : Space label root) (hwalk : walk s root va = .table pt) : walk s' root va = .table pt := by
  obtain ⟨pdpt, pd, hl₁, hfirst, hl₂, hsecond, hthird⟩ := slots_of_walk htables hr hwalk
  have hheight₁ := height_step (.own root 3 0) 2 (pml4Index va) rfl
  have hheight₂ := height_step _ 1 (pdptIndex va) hheight₁
  refine walk_of_reach ?_
  simp only [reach, pml4Index_eq, pdptIndex_eq, pdIndex_eq,
    h.links root _ 2 _ pdpt hr rfl (pml4Index_lt va) hfirst,
    h.links pdpt _ 1 _ pd hl₁ hheight₁ (pdptIndex_lt va) hsecond,
    h.links pd _ 0 _ pt hl₂ hheight₂ (pdIndex_lt va) hthird]

theorem Grown.walk (h : Grown scope s label s' label') (htables : Tables s label)
    (hr : Space label root) (hwalk : walk s root va = .table pt) : walk s' root va = .table pt :=
  h.toAlloc.walk htables hr hwalk

theorem Grown.space (h : Grown scope s label s' label') (hr : Space label root) :
    Space label' root :=
  h.keeps root _ hr

/-- Building tables and then writing an entry. -/
theorem Grown.put {s'' : Mem} {label'' : Frame → Option Label}
    (h : Grown (Within root va) s label s' label') (hput : Put s' label' s'' label'' root va e) :
    Put s label s'' label'' root va e where
  toAlloc := h.toAlloc.trans hput.toAlloc
  tables := hput.tables
  self := hput.self
  other := fun root' va' hr' hne =>
    (hput.other root' va' (h.space hr') hne).trans (h.pageEntry hr' va')

/-! ## The operations -/

section

variable (h : Tables s label) (hr : Space label root) (va : ℕ)

include h hr

theorem mapPage_spec (page : Frame)
    {prot : Flags} (hprot : prot.reserved = false) :
    ∃ s' label',
      mapPage s root va page prot = (false, s') ∧ Grown (Within root va) s label s' label' ∧
        s'.frames.free = [] ∧ (∀ pt, walk s' root va ≠ .table pt) ∨
      mapPage s root va page prot = (true, s') ∧
        Put s label s' label' root va ⟨{ prot with present := true }, page⟩ := by
  obtain ⟨s', label', hgrown, ⟨hnone, hfree, hmissing⟩ | ⟨pt, hsome, hwalk⟩⟩ :=
    leafTable_spec h hr va prot.user
  · exact ⟨s', label', .inl ⟨by rw [mapPage, hnone], hgrown, hfree, hmissing⟩⟩
  · refine ⟨_, label', .inr ⟨by rw [mapPage, hsome], hgrown.put ?_⟩⟩
    exact put_setEntry hgrown.tables (hgrown.space hr) hwalk fun _ => hprot

theorem mapReserved_spec (prot : Flags) :
    ∃ s' label',
      mapReserved s root va prot = (false, s') ∧ Grown (Within root va) s label s' label' ∧
        s'.frames.free = [] ∧ (∀ pt, walk s' root va ≠ .table pt) ∨
      mapReserved s root va prot = (true, s') ∧
        Put s label s' label' root va (reservedEntry prot) := by
  obtain ⟨s', label', hgrown, ⟨hnone, hfree, hmissing⟩ | ⟨pt, hsome, hwalk⟩⟩ :=
    leafTable_spec h hr va prot.user
  · exact ⟨s', label', .inl ⟨by rw [mapReserved, hnone], hgrown, hfree, hmissing⟩⟩
  · refine ⟨_, label', .inr ⟨by rw [mapReserved, hsome], hgrown.put ?_⟩⟩
    exact put_setEntry hgrown.tables (hgrown.space hr) hwalk nofun

/-- The way down ends in a last-level table when the page has an entry of its own. -/
theorem walk_cases :
    walk s root va = .absent ∧ pageEntry s root va = noEntry ∨
      (∃ e, walk s root va = .huge2M e ∧ pageEntry s root va = slice e (ptIndex va) ∧
        e.user = false ∧ e.reserved = false ∧ e.frame.toNat % 512 = 0) ∨
      ∃ pt, walk s root va = .table pt ∧ pageEntry s root va = s.entry pt (ptIndex va) := by
  rw [(walk_spec ..).1]
  unfold walk
  dsimp only
  split_ifs with h4 h3 hhuge3 h2 hhuge2
  · exact .inl ⟨rfl, rfl⟩
  · exact .inl ⟨rfl, rfl⟩
  all_goals
    have hp4 : (s.entry root (pml4Index va)).present = true := by simpa using h4
    have hpdpt := h.child root _ 2 _ hr rfl (pml4Index_lt va) hp4
      (h.flat root _ _ hr (by simp [height]) (pml4Index_lt va) hp4)
    have hheight := height_step (.own root 3 0) 2 (pml4Index va) rfl
    have hp3 : (s.entry (s.entry root (pml4Index va)).frame (pdptIndex va)).present = true := by
      simpa using h3
    have hflat := h.flat _ _ _ hpdpt (by omega) (pdptIndex_lt va) hp3
  · rw [hflat] at hhuge3
    cases hhuge3
  · exact .inl ⟨rfl, rfl⟩
  · have hpd := h.child _ _ 1 _ hpdpt hheight (pdptIndex_lt va) hp3 hflat
    have hp2 : (s.entry (s.entry (s.entry root (pml4Index va)).frame (pdptIndex va)).frame
        (pdIndex va)).present = true := by simpa using h2
    have hfacts := h.huge _ _ _ hpd (height_step _ 1 _ hheight) (pdIndex_lt va) hp2 hhuge2
    exact .inr (.inl ⟨_, rfl, rfl, hfacts⟩)
  · exact .inr (.inr ⟨_, rfl, rfl⟩)

end

/-- The code joins a page's address and an offset with a bitwise or. -/
theorem page_or (h : offset < 4096) : frame * 4096 ||| offset = frame * 4096 + offset := by
  rw [mul_comm, show 4096 = 2 ^ 12 from rfl, ← Nat.two_pow_add_eq_or_of_lt h]

theorem huge_or (halign : frame % 512 = 0) (h : offset < 2 ^ 21) :
    frame * 4096 ||| offset = frame * 4096 + offset := by
  obtain ⟨block, rfl⟩ := Nat.dvd_of_mod_eq_zero halign
  rw [show 512 * block * 4096 = 2 ^ 21 * block by omega, ← Nat.two_pow_add_eq_or_of_lt h]

/-- A frame with a multiple of 512 as its number: the share of its huge page. -/
theorem toNat_slice {k : ℕ} (halign : e.frame.toNat % 512 = 0) (hk : k < 512) :
    (slice e k).frame.toNat = e.frame.toNat + k := by
  simp only [slice, BitVec.toNat_add, BitVec.toNat_ofNat]
  omega

section

variable (h : Tables s label) (hr : Space label root)

include h hr

/-- `translate`, read off the entry that governs the page. -/
theorem translate_eq (va : ℕ) :
    translate s root va =
      if (pageEntry s root va).present then
        some ((pageEntry s root va).frame.toNat * 4096 + va % 4096)
      else none := by
  unfold translate
  rcases walk_cases h hr va with ⟨hwalk, he⟩ | ⟨e, hwalk, he, -, -, halign⟩ | ⟨pt, hwalk, he⟩
  · simp [hwalk, he]
  · have hpresent : (slice e (ptIndex va)).present = true := rfl
    have hmod : va % 2 ^ 21 < 2 ^ 21 := Nat.mod_lt va (by decide)
    rw [he, if_pos hpresent, toNat_slice halign (ptIndex_lt va)]
    simp only [hwalk, huge_or halign hmod, ptIndex, Option.some.injEq]
    omega
  · have hmod : va % 4096 < 4096 := Nat.mod_lt va (by decide)
    simp [hwalk, he, page_or hmod]

/-- `is_user_mapped`, read off the entry that governs the page. -/
theorem isUserMapped_eq (va : ℕ) :
    isUserMapped s root va =
      ((pageEntry s root va).present && (pageEntry s root va).user) := by
  unfold isUserMapped
  rcases walk_cases h hr va with ⟨hwalk, he⟩ | ⟨e, hwalk, he, hu, -⟩ | ⟨pt, hwalk, he⟩
  · simp [hwalk, he]
  · simp [hwalk, he, slice, splitFlags]
  · simp [hwalk, he]

/-- A user page has an entry of its own. -/
theorem walk_of_user (huser : (pageEntry s root va).user = true) :
    ∃ pt, walk s root va = .table pt ∧ pageEntry s root va = s.entry pt (ptIndex va) := by
  rcases walk_cases h hr va with ⟨-, he⟩ | ⟨e, -, he, hu, -⟩ | hpt
  · rw [he] at huser
    cases huser
  · rw [he] at huser
    exact absurd (hu.symm.trans huser) (by decide)
  · exact hpt

/-- A reserved page has an entry of its own, which is not present. -/
theorem absent_of_reserved (hreserved : (pageEntry s root va).reserved = true) :
    (pageEntry s root va).present = false := by
  rcases walk_cases h hr va with ⟨-, he⟩ | ⟨e, -, he, -, hres, -⟩ | ⟨pt, hwalk, he⟩
  · rw [he]
  · rw [he] at hreserved
    exact absurd (hres.symm.trans hreserved) (by decide)
  · rw [he] at hreserved ⊢
    by_contra hpresent
    have := h.clean pt _ _ (label_of_walk h hr hwalk) (leafLabel_height root _) (ptIndex_lt va)
      (by simpa using hpresent)
    exact absurd (this.symm.trans hreserved) (by decide)

theorem not_reserved_of_present (hpresent : (pageEntry s root va).present = true) :
    (pageEntry s root va).reserved = false := by
  by_contra hreserved
  rw [absent_of_reserved h hr (by simpa using hreserved)] at hpresent
  cases hpresent

omit h hr in
/-- What `is_reserved` reads.  The frame of a huge page is taken for a table. -/
theorem isReserved_of_table
    (hwalk : walk s root va = .table pt ∨ ∃ e, walk s root va = .huge2M e ∧ e.frame = pt) :
    isReserved s root va = (s.entry pt (ptIndex va)).reserved := by
  rcases hwalk with hwalk | ⟨e, hwalk, rfl⟩ <;>
  · unfold walk at hwalk
    unfold isReserved
    dsimp only at hwalk ⊢
    split_ifs at hwalk ⊢
    cases hwalk
    rfl

omit h hr in
theorem isReserved_of_absent (hwalk : walk s root va = .absent) : isReserved s root va = false := by
  unfold walk at hwalk
  unfold isReserved
  dsimp only at hwalk ⊢
  split_ifs at hwalk ⊢ <;> rfl

/-- `is_reserved` of a page that is not present, read off its entry. -/
theorem isReserved_eq (habsent : (pageEntry s root va).present = false) :
    isReserved s root va = (pageEntry s root va).reserved := by
  rcases walk_cases h hr va with ⟨hwalk, he⟩ | ⟨e, -, he, -⟩ | ⟨pt, hwalk, he⟩
  · rw [he]
    exact isReserved_of_absent hwalk
  · rw [he] at habsent
    cases habsent
  · rw [he, isReserved_of_table (.inl hwalk)]

/-- `set_page_flags`: nothing happens unless the page has an entry of its own. -/
theorem setPageFlags_spec (va : ℕ)
    {newFlags : Flags} (hflags : newFlags.reserved = false) :
    setPageFlags s root va newFlags = (false, s) ∧ getPageFlags s root va = none ∨
      ∃ s', setPageFlags s root va newFlags = (true, s') ∧
        getPageFlags s root va = some (pageEntry s root va).toFlags ∧
        (pageEntry s root va).present = true ∧ s'.frames = s.frames ∧ SameWays s label s' ∧
        Put s label s' label root va
          ⟨{ newFlags with present := true }, (pageEntry s root va).frame⟩ := by
  unfold setPageFlags getPageFlags
  rcases walk_cases h hr va with ⟨hwalk, -⟩ | ⟨e, hwalk, -⟩ | ⟨pt, hwalk, he⟩
  · simp [hwalk]
  · simp [hwalk]
  · rw [hwalk, he]
    dsimp only
    split_ifs with hpresent
    · exact .inr ⟨_, rfl, rfl, hpresent, rfl,
        sameWays_setEntry h (label_of_walk h hr hwalk) (leafLabel_height root _) _ _,
        put_setEntry h hr hwalk fun _ => hflags⟩
    · exact .inl ⟨rfl, rfl⟩

/-- `unmap_page` of a user page. -/
theorem unmapPage_spec (hpresent : (pageEntry s root va).present = true)
    (huser : (pageEntry s root va).user = true) :
    ∃ s', unmapPage s root va = (some (pageEntry s root va).frame, s') ∧ s'.frames = s.frames ∧
      SameWays s label s' ∧ Put s label s' label root va noEntry := by
  obtain ⟨pt, hwalk, he⟩ := walk_of_user h hr huser
  rw [he] at hpresent ⊢
  simp only [unmapPage, hwalk, hpresent]
  exact ⟨_, rfl, rfl, sameWays_setEntry h (label_of_walk h hr hwalk) (leafLabel_height root _) _ _,
    put_setEntry h hr hwalk nofun⟩

end

theorem getPageFlags_eq_none :
    getPageFlags s root va = none ↔
      ∀ pt, walk s root va = .table pt → (pageEntry s root va).present = false := by
  rw [(walk_spec ..).1, getPageFlags]
  split
  · next pt hwalk => simp [hwalk]
  · next hother =>
    simp only [true_iff]
    exact fun pt hwalk => absurd hwalk (hother pt)

theorem getPageFlags_of_user (h : Tables s label) (hr : Space label root)
    (hpresent : (pageEntry s root va).present = true)
    (huser : (pageEntry s root va).user = true) :
    getPageFlags s root va = some (pageEntry s root va).toFlags := by
  obtain ⟨pt, hwalk, he⟩ := walk_of_user h hr huser
  rw [he] at hpresent
  simp [getPageFlags, hwalk, he, hpresent]

/-- The entry `resolve_reserved` gives a reserved page. -/
def resolvedEntry (leaf : Pte) (page : Frame) : Pte :=
  ⟨{ present := true, rw := leaf.rw, user := leaf.user, noExec := leaf.noExec }, page⟩

/-- `resolve_reserved`: a reserved page gets a fresh frame; otherwise, and when
memory runs out, at most tables are built. -/
theorem resolveReserved_spec (h : Tables s label) (hr : Space label root) (va : ℕ) :
    ∃ s₁ label', Grown (Within root va) s label s₁ label' ∧
      (resolveReserved s root va = (false, s₁) ∨
        ∃ page s₂ s', s₁.getFreePage = some (page, s₂) ∧
          resolveReserved s root va = (true, s') ∧ s'.frames = s₂.frames ∧
          Put s₂ label' s' label' root va (resolvedEntry (pageEntry s root va) page)) := by
  obtain ⟨s₁, label', hgrown, ⟨hnone, -⟩ | ⟨pt, hsome, hwalk⟩⟩ := leafTable_spec h hr va true
  · exact ⟨s₁, label', hgrown, .inl (by rw [resolveReserved, hnone])⟩
  have hentry : s₁.entry pt (ptIndex va) = pageEntry s root va := by
    rw [← hgrown.pageEntry hr va, (walk_spec ..).1, hwalk]
  refine ⟨s₁, label', hgrown, ?_⟩
  simp only [resolveReserved, hsome, hentry]
  cases hreserved : (pageEntry s root va).reserved with
  | false => exact .inl rfl
  | true =>
    cases hget : s₁.getFreePage with
    | none => exact .inl rfl
    | some taken =>
      obtain ⟨page, s₂⟩ := taken
      obtain ⟨htables, hsame, -⟩ := getFreePage_data hgrown.tables hget
      have hwalk₂ := hsame.walk hgrown.tables (hgrown.space hr) hwalk
      exact .inr ⟨page, s₂, _, rfl, rfl, rfl,
        put_setEntry htables (hgrown.space hr) hwalk₂ fun _ => rfl⟩

end Shitix.Paging
