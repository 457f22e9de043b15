import Shitix.Sharing.SuccessLaw

/-!
# The loops of `brk`

Growing visits the pages of a range from below and reserves those that user mode cannot use yet.
What it takes for reserved is what `is_reserved` finds, and that function follows a huge page of
the kernel as if it were a table.  So the loop does what it should provided that the words it
finds there do not look like reserved entries, and that they stay as they are while tables are
built: the frame is in use, and is no table of the process (`Steady`).

Shrinking visits the pages from above and frees those that are mapped.
-/

namespace Shitix.Paging

open Mem Syscall List

variable {s s' s₀ : Mem} {live : List Frame} {label label' label₀ : Frame → Option Label}
  {origin : Frames} {root f : Frame} {va va' w : ℕ} {e : Pte} {pages done : List ℕ}

/-- The test of the growing loop. -/
theorem wanted_iff (h : Tables s label) (hr : Space label root)
    (hlegible : ∀ e, walk s root va = .huge2M e → isReserved s root va = false) :
    (!isUserMapped s root va && !isReserved s root va) = true ↔ ¬ Accessible s root va := by
  rw [isUserMapped_eq h hr, Accessible]
  have hread : isReserved s root va = (pageEntry s root va).reserved := by
    rcases walk_cases h hr va with ⟨-, hentry⟩ | ⟨e, hwalk, hentry, -, hres, -⟩ |
      ⟨pt, hwalk, hentry⟩
    · exact isReserved_eq h hr (by rw [hentry])
    · rw [hlegible e hwalk, hentry]
      simp [slice, splitFlags, hres]
    · rw [isReserved_of_table (.inl hwalk), hentry]
  rw [hread]
  cases (pageEntry s root va).present <;> cases (pageEntry s root va).user <;>
    cases (pageEntry s root va).reserved <;> simp

/-! ## Huge pages while tables are built -/

/-- A frame in use that is no table of the address space. -/
def Settled (s : Mem) (label : Frame → Option Label) (root f : Frame) : Prop :=
  s.frames.memMap f.toNat ≠ 0 ∧ ∀ height pre, label f ≠ some (.own root height pre)

theorem Settled.alloc (h : Settled s label root f)
    (halloc : Alloc (Within root va) s label s' label') (hlow : LowerHalf va) :
    Settled s' label' root f ∧ s'.word f = s.word f := by
  have hlabel : label' f = label f := by
    cases hl : label f with
    | some l => exact halloc.keeps f l hl
    | none =>
      by_contra hne
      exact h.1 (halloc.taken f hl hne).1
  refine ⟨⟨?_, fun height pre => ?_⟩, halloc.words f fun l hl hwithin => ?_⟩
  · rw [(halloc.counts f hlabel).1]
    exact h.1
  · rw [hlabel]
    exact h.2 height pre
  · obtain ⟨height, rfl⟩ := hwithin hlow
    exact h.2 _ _ (hlabel.symm.trans hl)

/-- Huge pages are split, never made. -/
theorem huge_of_put (h : Tables s label) (hr : Space label root)
    (hput : Put s label s' label' root va e) (habsent : e.present = false) {big : Pte}
    (hwalk : walk s' root w = .huge2M big) :
    ∃ e₀, walk s root w = .huge2M e₀ ∧ e₀.frame = big.frame := by
  have hr' : Space label' root := hput.keeps _ _ hr
  obtain ⟨hentry', halign'⟩ : pageEntry s' root w = slice big (ptIndex w) ∧
      big.frame.toNat % 512 = 0 := by
    rcases walk_cases hput.tables hr' w with ⟨hwalk', -⟩ | ⟨e', hwalk', hentry', -, -, halign⟩ |
      ⟨pt, hwalk', -⟩
    · rw [hwalk'] at hwalk
      cases hwalk
    · rw [hwalk'] at hwalk
      cases hwalk
      exact ⟨hentry', halign⟩
    · rw [hwalk'] at hwalk
      cases hwalk
  -- it is not the page that got an entry
  have hother : vpage w ≠ vpage va := by
    intro hsame
    rw [pageEntry_congr hsame, hput.self] at hentry'
    rw [hentry'] at habsent
    cases habsent
  have hentry : pageEntry s root w = slice big (ptIndex w) :=
    (hput.other root w hr (.inl hother)).symm.trans hentry'
  rcases walk_cases h hr w with ⟨-, hnone⟩ | ⟨e₀, hwalk₀, hentry₀, -, -, halign₀⟩ | ⟨pt, htable, -⟩
  · rw [hnone] at hentry
    have hpresent := congrArg (fun e => e.present) hentry
    cases hpresent
  · refine ⟨e₀, hwalk₀, BitVec.eq_of_toNat_eq ?_⟩
    have hframe := congrArg (fun e => e.frame.toNat) (hentry₀.symm.trans hentry)
    simp only [toNat_slice halign₀ (ptIndex_lt w), toNat_slice halign' (ptIndex_lt w)] at hframe
    omega
  · rw [hput.toAlloc.walk h hr htable] at hwalk
    cases hwalk

/-- The pages below huge pages are read right, and stay so. -/
def Steady (s : Mem) (label : Frame → Option Label) (root : Frame) (pages : List ℕ) : Prop :=
  ∀ w ∈ pages, ∀ e, walk s root w = .huge2M e →
    Settled s label root e.frame ∧ isReserved s root w = false

theorem Steady.put (hsteady : Steady s label root pages) (h : Tables s label)
    (hr : Space label root) (hput : Put s label s' label' root va e) (hlow : LowerHalf va)
    (habsent : e.present = false) : Steady s' label' root pages := by
  intro w hw big hwalk
  obtain ⟨e₀, hwalk₀, hframe⟩ := huge_of_put h hr hput habsent hwalk
  obtain ⟨hsettled, hread⟩ := hsteady w hw e₀ hwalk₀
  rw [hframe] at hsettled
  obtain ⟨hsettled', hword⟩ := hsettled.alloc hput.toAlloc hlow
  refine ⟨hsettled', ?_⟩
  rw [isReserved_of_table (.inr ⟨_, hwalk₀, hframe⟩)] at hread
  rw [isReserved_of_table (.inr ⟨_, hwalk, rfl⟩), entry, hword]
  exact hread

/-! ## Growing -/

/-- The pages `done` were visited: those that user mode could not use are reserved. -/
structure Growing (s₀ : Mem) (label₀ : Frame → Option Label) (root : Frame)
    (pages done : List ℕ) (s : Mem) (label : Frame → Option Label) : Prop where
  tables : Tables s label
  space : Space label root
  steady : Steady s label root pages
  data : KeepsData s₀ label₀ s label
  reserved : ∀ va, (∃ w ∈ done, vpage w = vpage va) → ¬ Accessible s₀ root va →
    pageEntry s root va = reservedEntry sharedFlags
  others : ∀ va, (∀ w ∈ done, vpage w ≠ vpage va) ∨ Accessible s₀ root va →
    pageEntry s root va = pageEntry s₀ root va
  same : (∀ w ∈ done, Accessible s₀ root w) → s = s₀

theorem Growing.start (h : Tables s label) (hr : Space label root)
    (hsteady : Steady s label root pages) : Growing s label root pages [] s label where
  tables := h
  space := hr
  steady := hsteady
  data f hf := ⟨hf, rfl⟩
  reserved va hva := by
    obtain ⟨w, hw, -⟩ := hva
    exact absurd hw not_mem_nil
  others va _ := rfl
  same _ := rfl

/-- A page that user mode can use is left alone. -/
theorem Growing.skip (h : Growing s₀ label₀ root pages done s label)
    (haccess : Accessible s root va) : Growing s₀ label₀ root pages (done ++ [va]) s label where
  tables := h.tables
  space := h.space
  steady := h.steady
  data := h.data
  reserved va' hva' hno := by
    by_cases hbefore : ∃ w ∈ done, vpage w = vpage va'
    · exact h.reserved va' hbefore hno
    · have hnew : ∀ w ∈ done, vpage w ≠ vpage va' := fun w hw hsame => hbefore ⟨w, hw, hsame⟩
      obtain ⟨w, hw, hsame⟩ := hva'
      rcases mem_append.mp hw with hw | hw
      · exact absurd hsame (hnew w hw)
      · rw [mem_singleton.mp hw] at hsame
        have haccess' : Accessible s root va' := haccess.of_vpage hsame
        exact absurd (haccess'.congr (h.others va' (.inl hnew))) hno
  others va' hva' := by
    refine h.others va' (hva'.imp_left fun hno w hw => ?_)
    exact hno w (mem_append_left _ hw)
  same hall := h.same fun w hw => hall w (mem_append_left _ hw)

/-- A page that user mode could not use is reserved. -/
theorem Growing.reserve (h : Growing s₀ label₀ root pages done s label)
    (hno : ¬ Accessible s₀ root va) (hlow : LowerHalf va)
    (hput : Put s label s' label' root va (reservedEntry sharedFlags)) :
    Growing s₀ label₀ root pages (done ++ [va]) s' label' where
  tables := hput.tables
  space := hput.keeps _ _ h.space
  steady := h.steady.put h.tables h.space hput hlow rfl
  data := h.data.trans hput.toAlloc.keepsData
  reserved va' hva' hno' := by
    by_cases hsame : vpage va' = vpage va
    · rw [pageEntry_congr hsame, hput.self]
    · rw [hput.other root va' h.space (.inl hsame)]
      obtain ⟨w, hw, hw'⟩ := hva'
      rcases mem_append.mp hw with hw | hw
      · exact h.reserved va' ⟨w, hw, hw'⟩ hno'
      · rw [mem_singleton.mp hw] at hw'
        exact absurd hw'.symm hsame
  others va' hva' := by
    have hother : vpage va' ≠ vpage va := by
      intro hsame
      rcases hva' with hva' | haccess
      · exact hva' va (by simp) hsame.symm
      · exact hno (haccess.of_vpage hsame)
    rw [hput.other root va' h.space (.inl hother)]
    refine h.others va' (hva'.imp_left fun hne w hw => ?_)
    exact hne w (mem_append_left _ hw)
  same hall := absurd (hall va (by simp)) hno

/-- The loop stopped at a page for want of memory. -/
def Stuck (s₀ : Mem) (label₀ : Frame → Option Label) (root : Frame) (pages : List ℕ)
    (s' : Mem) : Prop :=
  ∃ done va rest, pages = done ++ va :: rest ∧ ¬ Accessible s₀ root va ∧
    ((∀ w ∈ done, Accessible s₀ root w) → (leafTable s₀ root va true).1 = none) ∧
    ∃ s label, Growing s₀ label₀ root pages done s label ∧
      ∀ w, pageEntry s' root w = pageEntry s root w

section

variable (h : Tables s label) (hr : Space label root)

include h hr

theorem growAll_outcome (hsteady : Steady s label root pages) (hlow : ∀ w ∈ pages, LowerHalf w) :
    Outcome (fun s' => ∃ label', Growing s label root pages pages s' label')
      (Stuck s label root pages) (forEach (growOne root) pages s) := by
  have hloop : Outcome (fun s' => ∃ done label', done ++ [] = pages ∧
        Growing s label root pages done s' label')
      (Stuck s label root pages) (forEach (growOne root) pages s) := by
    refine forEach_rule (fun rest s' => ∃ done label', done ++ rest = pages ∧
      Growing s label root pages done s' label') ⟨[], label, rfl, Growing.start h hr hsteady⟩ ?_
    rintro va rest s₁ - ⟨done, label₁, rfl, hgrowing⟩
    have hmem : va ∈ done ++ va :: rest := by simp
    have hwanted := wanted_iff hgrowing.tables hgrowing.space fun e hwalk =>
      (hgrowing.steady va hmem e hwalk).2
    unfold growOne
    by_cases haccess : Accessible s₁ root va
    · rw [if_neg fun hyes => hwanted.mp hyes haccess]
      exact .of_done ⟨done ++ [va], label₁, by simp, hgrowing.skip haccess⟩
    rw [if_pos (hwanted.mpr haccess)]
    have hno : ¬ Accessible s root va := fun hyes =>
      haccess (hyes.congr (hgrowing.others va (.inr hyes)).symm)
    obtain ⟨s₂, label₂, ⟨hfail, hgrown, -⟩ | ⟨hdone, hput⟩⟩ :=
      mapReserved_spec hgrowing.tables hgrowing.space va sharedFlags
    · rw [hfail]
      refine .of_failed ⟨done, va, rest, rfl, hno, fun hall => ?_, s₁, label₁, hgrowing,
        hgrown.pageEntry hgrowing.space⟩
      rw [hgrowing.same hall, mapReserved] at hfail
      rcases hleaf : leafTable s root va sharedFlags.user with ⟨_ | pt, s₃⟩
      · exact congrArg Prod.fst hleaf
      · rw [hleaf] at hfail
        cases hfail
    · rw [hdone]
      exact .of_done ⟨done ++ [va], label₂, by simp,
        hgrowing.reserve hno (hlow va hmem) hput⟩
  refine ⟨fun hdone => ?_, hloop.failed⟩
  obtain ⟨done, label', hall, hgrowing⟩ := hloop.done hdone
  rw [append_nil] at hall
  subst hall
  exact ⟨label', hgrowing⟩

/-- The loop stops at the first page it wants if there is no room for its tables. -/
theorem growAll_stops {rest : List ℕ} (hsteady : Steady s label root (done ++ va :: rest))
    (hall : ∀ w ∈ done, Accessible s root w) (hno : ¬ Accessible s root va)
    (hnone : (leafTable s root va true).1 = none) :
    ∀ w, pageEntry (forEach (growOne root) (done ++ va :: rest) s).2 root w =
      pageEntry s root w := by
  have hlegible : ∀ w ∈ done ++ va :: rest, ∀ e, walk s root w = .huge2M e →
      isReserved s root w = false := fun w hw e hwalk => (hsteady w hw e hwalk).2
  clear hsteady
  induction done with
  | nil =>
    have hwanted := (wanted_iff h hr (hlegible va (by simp))).mpr hno
    obtain ⟨s', label', ⟨hfail, hgrown, -⟩ | ⟨hdone, -⟩⟩ := mapReserved_spec h hr va sharedFlags
    · simp only [nil_append, forEach, growOne, hwanted, hfail]
      exact hgrown.pageEntry hr
    · rw [mapReserved] at hdone
      rcases hleaf : leafTable s root va sharedFlags.user with ⟨_ | pt, s₃⟩
      · rw [hleaf] at hdone
        cases hdone
      · have hsome : some pt = none := (congrArg Prod.fst hleaf).symm.trans hnone
        cases hsome
  | cons w done ih =>
    have hskip : (!isUserMapped s root w && !isReserved s root w) ≠ true := fun hyes =>
      (wanted_iff h hr (hlegible w (by simp))).mp hyes (hall w mem_cons_self)
    simp only [cons_append, forEach, growOne, hskip]
    exact ih (fun w' hw' => hall w' (mem_cons_of_mem _ hw')) fun w' hw' =>
      hlegible w' (mem_cons_of_mem _ hw')

/-! ## Shrinking -/

/-- What a shrinking `brk` makes of an entry. -/
def emptied (e : Pte) : Pte := if e.present && e.user then noEntry else e

theorem shrinkOne_entry (hdata : ∀ va f, userFrame (pageEntry s root va) = some f → label f = none)
    (va va' : ℕ) : Tables (shrinkOne root s va) label ∧ pageEntry (shrinkOne root s va) root va' =
      if vpage va = vpage va' then emptied (pageEntry s root va') else pageEntry s root va' := by
  unfold shrinkOne
  rw [isUserMapped_eq h hr]
  by_cases hmapped : ((pageEntry s root va).present && (pageEntry s root va).user) = true
  · obtain ⟨hpresent, huser⟩ := Bool.and_eq_true_iff.mp hmapped
    have hloose : Loose s label root va := fun _ =>
      ⟨huser, hdata va _ (userFrame_eq_some.mpr ⟨hpresent, huser, rfl⟩)⟩
    rw [if_pos hmapped]
    refine ⟨unmapOne_tables h hr hloose, ?_⟩
    rw [unmapOne_entry h hr hloose]
    by_cases hsame : vpage va = vpage va'
    · rw [if_pos hsame, if_pos hsame, ← pageEntry_congr hsame, unmapped, emptied, if_pos hpresent,
        if_pos hmapped]
    · rw [if_neg hsame, if_neg hsame]
  · rw [if_neg hmapped]
    refine ⟨h, ?_⟩
    split_ifs with hsame
    · rw [← pageEntry_congr hsame, emptied, if_neg hmapped]
    · rfl

end

theorem emptied_user (h : userFrame (emptied e) = some f) : emptied e = e := by
  unfold emptied at h ⊢
  split_ifs at h ⊢
  · cases h
  · rfl

theorem shrinkAll_entry (h : InOrder s label root) (pages : List ℕ) (va' : ℕ) :
    pageEntry (pages.foldl (shrinkOne root) s) root va' =
      if ∃ va ∈ pages, vpage va = vpage va' then emptied (pageEntry s root va')
      else pageEntry s root va' := by
  have hidem : ∀ e, emptied (emptied e) = emptied e := by
    intro e
    by_cases hmapped : (e.present && e.user) = true <;> simp [emptied, hmapped]
  refine (pages_foldl (fun s => Tables s label ∧ ∀ va f,
    userFrame (pageEntry s root va) = some f → label f = none) hidem ?_ ⟨h.tables, h.data⟩).2
  rintro s va - ⟨htables, hdata⟩
  refine ⟨⟨(shrinkOne_entry htables h.space hdata va va').1, fun w f hf => ?_⟩,
    (shrinkOne_entry htables h.space hdata va va').2⟩
  rw [(shrinkOne_entry htables h.space hdata va w).2] at hf
  split_ifs at hf
  · rw [emptied_user hf] at hf
    exact hdata w f hf
  · exact hdata w f hf

/-- An address space maps a frame once. -/
theorem Sane.vpage_eq (h : Sane s live label origin) (hroot : root ∈ live)
    (hf : userFrame (pageEntry s root va) = some f)
    (hf' : userFrame (pageEntry s root va') = some f) : vpage va = vpage va' := by
  have hlow := (h.pages root hroot va).2 (userFrame_eq_some.mp hf).2.1
  have hlow' := (h.pages root hroot va').2 (userFrame_eq_some.mp hf').2.1
  have honce := h.ledger.once root ⟨vpage va, hlow⟩ ⟨vpage va', hlow'⟩ f
    ((view_slotOf hroot hlow).trans hf) ((view_slotOf hroot hlow').trans hf')
  exact congrArg Fin.val honce

/-- A page of the process in the course of the loop: it is mapped as before and its frame in use,
or it is gone and its frame free. -/
def Kept (s₀ s : Mem) (root : Frame) (va : ℕ) : Prop :=
  (pageEntry s root va = pageEntry s₀ root va ∧
      ∀ f, userFrame (pageEntry s₀ root va) = some f → s.frames.memMap f.toNat = 1) ∨
    (userFrame (pageEntry s root va) = none ∧
      ∀ f, userFrame (pageEntry s₀ root va) = some f → s.frames.memMap f.toNat = 0)

theorem Kept.user (h : Kept s₀ s root va) (hf : userFrame (pageEntry s root va) = some f) :
    userFrame (pageEntry s₀ root va) = some f ∧ s.frames.memMap f.toNat = 1 := by
  rcases h with ⟨hentry, hone⟩ | ⟨hnone, -⟩
  · rw [hentry] at hf
    exact ⟨hf, hone f hf⟩
  · rw [hnone] at hf
    cases hf

theorem shrinkOne_kept (h : Sane s₀ live label origin) (hroot : root ∈ live)
    (htables : Tables s label) (hnr : s.frames.nrPages = s₀.frames.nrPages)
    (hkept : ∀ va, Kept s₀ s root va) (w : ℕ) :
    Tables (shrinkOne root s w) label ∧
      (shrinkOne root s w).frames.nrPages = s₀.frames.nrPages ∧
      ∀ va, Kept s₀ (shrinkOne root s w) root va := by
  have hspace := h.space root hroot
  have hdata : ∀ va f, userFrame (pageEntry s root va) = some f → label f = none := fun va f hf =>
    (h.mapped hroot ((hkept va).user hf).1).2.2.1
  have hentry := fun va => shrinkOne_entry htables hspace hdata w va
  by_cases hmapped : isUserMapped s root w = true
  swap
  · rw [shrinkOne, if_neg hmapped]
    exact ⟨htables, hnr, hkept⟩
  have hboth := hmapped
  rw [isUserMapped_eq htables hspace, Bool.and_eq_true] at hboth
  obtain ⟨hpresent, huser⟩ := hboth
  obtain ⟨hold, hone⟩ := (hkept w).user (userFrame_eq_some.mpr ⟨hpresent, huser, rfl⟩)
  have hframes : (shrinkOne root s w).frames =
      s.frames.freePage (pageEntry s root w).frame.toNat := by
    rw [shrinkOne, if_pos hmapped]
    exact unmapOne_frames htables hspace hpresent huser
  obtain ⟨hnr', hfreed, hrest⟩ := Ledger.freed_counts s.frames
    (by rw [hnr]; exact (h.mapped hroot hold).1) hone
  refine ⟨(hentry w).1, by rw [hframes, hnr', hnr], fun va => ?_⟩
  by_cases hsame : vpage w = vpage va
  · right
    rw [(hentry va).2, if_pos hsame, hframes, ← pageEntry_congr hsame, ← pageEntry_congr hsame]
    refine ⟨by simp [emptied, hpresent, huser, userFrame], fun f hf => ?_⟩
    rw [hold] at hf
    cases hf
    exact hfreed
  · -- another page has another frame
    have hother : ∀ f, userFrame (pageEntry s₀ root va) = some f →
        (shrinkOne root s w).frames.memMap f.toNat = s.frames.memMap f.toNat := by
      intro f hf
      rw [hframes]
      refine (hrest f fun heq => hsame ?_).1
      rw [heq] at hf
      exact h.vpage_eq hroot hold hf
    rw [Kept, (hentry va).2, if_neg hsame]
    refine (hkept va).imp (And.imp_right fun hone f hf => ?_) (And.imp_right fun hzero f hf => ?_)
    · rw [hother f hf, hone f hf]
    · rw [hother f hf, hzero f hf]

/-- The frames of the pages that were visited are free. -/
theorem shrinkAll_freed (h : Sane s live label origin) (hroot : root ∈ live) (pages : List ℕ)
    (hva : ∃ w ∈ pages, vpage w = vpage va) (hf : userFrame (pageEntry s root va) = some f) :
    (pages.foldl (shrinkOne root) s).frames.memMap f.toNat = 0 := by
  have hloop : Tables (pages.foldl (shrinkOne root) s) label ∧
      (pages.foldl (shrinkOne root) s).frames.nrPages = s.frames.nrPages ∧
      ∀ va, Kept s (pages.foldl (shrinkOne root) s) root va := by
    refine foldl_rule (fun _ s' => Tables s' label ∧ s'.frames.nrPages = s.frames.nrPages ∧
      ∀ va, Kept s s' root va) ⟨h.tables, rfl, fun va => .inl ⟨rfl, fun f hf => ?_⟩⟩ ?_
    · exact (h.mapped hroot hf).2.1
    · rintro w rest s' - ⟨htables, hnr, hkept⟩
      exact shrinkOne_kept h hroot htables hnr hkept w
  obtain ⟨hpresent, huser, -⟩ := userFrame_eq_some.mp hf
  rcases hloop.2.2 va with ⟨hsame, -⟩ | ⟨-, hzero⟩
  · rw [shrinkAll_entry (h.inOrder hroot), if_pos hva, emptied, hpresent, huser] at hsame
    rw [← hsame] at hpresent
    cases hpresent
  · exact hzero f hf

end Shitix.Paging
