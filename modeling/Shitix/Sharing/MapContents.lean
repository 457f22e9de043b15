import Shitix.Sharing.MapFrame

/-!
# What a mapping contains

The loop over the pages of a file gives each page a frame of its own and fills it; what comes
later leaves these frames alone, since they are neither free nor tables (`KeepsData`).  The loop of
an anonymous mapping leaves reserved entries, and a fault on one of these finds a zeroed frame.
-/

namespace Shitix.Paging

open Mem Syscall Function

variable {s s' s'' s₀ : Mem} {label label' label'' : Frame → Option Label} {root : Frame}
  {va va' : ℕ}

/-! ## Frames of data -/

/-- A frame that holds data: in use, and not a table. -/
def Data (s : Mem) (label : Frame → Option Label) (f : Frame) : Prop :=
  label f = none ∧ s.frames.memMap f.toNat = 1

/-- Frames of data are left alone. -/
def KeepsData (s : Mem) (label : Frame → Option Label) (s' : Mem)
    (label' : Frame → Option Label) : Prop :=
  ∀ f, Data s label f → Data s' label' f ∧ s'.word f = s.word f

theorem KeepsData.trans (h : KeepsData s label s' label') (h' : KeepsData s' label' s'' label'') :
    KeepsData s label s'' label'' := by
  intro f hf
  obtain ⟨hf', hword⟩ := h f hf
  obtain ⟨hf'', hword'⟩ := h' f hf'
  exact ⟨hf'', hword'.trans hword⟩

/-- Building tables and writing entries. -/
theorem Alloc.keepsData {scope : Label → Prop} (h : Alloc scope s label s' label') :
    KeepsData s label s' label' := by
  rintro f ⟨hnone, hone⟩
  have hnone' := h.label_of_held hnone hone
  refine ⟨⟨hnone', ?_⟩, h.words f fun l hl => ?_⟩
  · rw [(h.counts f (hnone'.trans hnone.symm)).1]
    exact hone
  · rw [hnone'] at hl
    cases hl

theorem getFreePage_keepsData (h : Tables s label) {page : Frame}
    (hget : s.getFreePage = some (page, s')) :
    KeepsData s label s' label ∧ Data s' label page ∧ ¬ Data s label page := by
  obtain ⟨-, -, hlabel, -, hzero⟩ := getFreePage_data h hget
  obtain ⟨hframes, hword⟩ := getFreePage_eq_some hget
  obtain ⟨-, hself, -, hrest⟩ := Ledger.taken_counts hframes
  refine ⟨?_, ⟨hlabel, hself⟩, fun hdata => ?_⟩
  · rintro f ⟨hnone, hone⟩
    have hne : f ≠ page := by
      rintro rfl
      omega
    exact ⟨⟨hnone, (hrest f hne).1.trans hone⟩, by rw [hword, update_of_ne hne]⟩
  · have hone := hdata.2
    omega

/-! ## A fresh page -/

/-- `mapFresh` maps a frame that held no data, or changes no entry. -/
theorem mapFresh_spec (h : Tables s label) (hr : Space label root) (va : ℕ) {prot : Flags}
    (hprot : prot.reserved = false) :
    ∃ s' label', Tables s' label' ∧ Space label' root ∧ KeepsData s label s' label' ∧
      (mapFresh s root va prot = (none, s') ∧
          (∀ va', pageEntry s' root va' = pageEntry s root va') ∨
        ∃ page, mapFresh s root va prot = (some page, s') ∧ Data s' label' page ∧
          ¬ Data s label page ∧ pageEntry s' root va = ⟨{ prot with present := true }, page⟩ ∧
          ∀ va', vpage va' ≠ vpage va → pageEntry s' root va' = pageEntry s root va') := by
  unfold mapFresh
  cases hget : s.getFreePage with
  | none =>
    exact ⟨s, label, h, hr, fun f hf => ⟨hf, rfl⟩, .inl ⟨rfl, fun _ => rfl⟩⟩
  | some taken =>
    obtain ⟨page, s₁⟩ := taken
    obtain ⟨htables₁, hsame₁, -⟩ := getFreePage_data h hget
    obtain ⟨hkeeps₁, hdata₁, hfresh⟩ := getFreePage_keepsData h hget
    have hentry₁ := hsame₁.pageEntry h hr
    obtain ⟨s₂, label₂, ⟨hfail, hgrown, -⟩ | ⟨hdone, hput⟩⟩ :=
      mapPage_spec htables₁ hr va page hprot
    · have hkeeps₂ := hgrown.toAlloc.keepsData
      have hdata₂ := (hkeeps₂ page hdata₁).1
      refine ⟨s₂.freePage page, label₂, hgrown.tables.freePage hdata₂.1, hgrown.space hr, ?_,
        .inl ⟨by simp only [hfail], fun va' => ?_⟩⟩
      · intro f hf
        obtain ⟨⟨hnone, hone⟩, hword⟩ := (hkeeps₁.trans hkeeps₂) f hf
        have hne : f ≠ page := by
          rintro rfl
          exact hfresh hf
        have hnr : page.toNat < s₂.frames.nrPages := by
          obtain ⟨-, -, -, hlt, -⟩ := getFreePage_data h hget
          rw [hgrown.nrPages, (Ledger.taken_counts (getFreePage_eq_some hget).1).1]
          exact hlt
        obtain ⟨-, -, hrest⟩ := Ledger.freed_counts s₂.frames hnr hdata₂.2
        exact ⟨⟨hnone, (hrest f hne).1.trans hone⟩, hword⟩
      · exact (hgrown.pageEntry hr va').trans (hentry₁ va')
    · have hkeeps₂ := hput.toAlloc.keepsData
      refine ⟨s₂, label₂, hput.tables, hput.keeps _ _ hr, hkeeps₁.trans hkeeps₂,
        .inr ⟨page, by simp only [hdone], (hkeeps₂ page hdata₁).1, hfresh, hput.self,
          fun va' hne => ?_⟩⟩
      exact (hput.other root va' hr (.inl hne)).trans (hentry₁ va')

/-! ## The pages of a file -/

/-- `k` pages were mapped, each to a frame with its contents. -/
structure FileMapped (s₀ : Mem) (root : Frame) (mapAddr : ℕ) (prot : Flags)
    (contents : ℕ → ℕ → BitVec 64) (label : Frame → Option Label) (k : ℕ) (s : Mem) : Prop where
  tables : Tables s label
  space : Space label root
  mapped : ∀ j < k, ∃ page, pageEntry s root (pageAt mapAddr j) =
      ⟨{ prot with present := true }, page⟩ ∧ Data s label page ∧ s.word page = contents j
  others : ∀ va, (∀ j < k, vpage va ≠ vpage (pageAt mapAddr j)) →
    pageEntry s root va = pageEntry s₀ root va

variable {mapAddr k npages : ℕ} {prot : Flags} {contents : ℕ → ℕ → BitVec 64}

section

variable (h : FileMapped s₀ root mapAddr prot contents label k s)

include h

theorem FileMapped.step (hprot : prot.reserved = false)
    (hdistinct : ∀ j < k, vpage (pageAt mapAddr j) ≠ vpage (pageAt mapAddr k)) :
    ∃ s' label', mapFresh s root (pageAt mapAddr k) prot = (none, s') ∧
        FileMapped s₀ root mapAddr prot contents label' k s' ∨
      ∃ page, mapFresh s root (pageAt mapAddr k) prot = (some page, s') ∧
        FileMapped s₀ root mapAddr prot contents label' (k + 1) (s'.fill page (contents k)) := by
  obtain ⟨s', label', htables, hspace, hkeeps, ⟨hfail, hsame⟩ |
    ⟨page, hdone, hdata, hfresh, hself, hother⟩⟩ :=
      mapFresh_spec h.tables h.space (pageAt mapAddr k) hprot
  · refine ⟨s', label', .inl ⟨hfail, htables, hspace, fun j hj => ?_, fun va hva => ?_⟩⟩
    · obtain ⟨page, hentry, hpage, hword⟩ := h.mapped j hj
      obtain ⟨hpage', hword'⟩ := hkeeps page hpage
      exact ⟨page, (hsame _).trans hentry, hpage', hword'.trans hword⟩
    · exact (hsame va).trans (h.others va hva)
  · have hfill : SameTables s' label' (s'.fill page (contents k)) := fun t l hl =>
      update_of_ne (fun heq => by rw [heq, hdata.1] at hl; cases hl) _ _
    have hentry := hfill.pageEntry htables hspace
    refine ⟨s', label', .inr ⟨page, hdone,
      hfill.tables htables rfl (fun _ _ _ => rfl) htables.consistent, hspace, ?_, fun va hva => ?_⟩⟩
    · refine Nat.forall_lt_succ_right.mpr
        ⟨fun j hj => ?_, page, (hentry _).trans hself, hdata, update_self ..⟩
      obtain ⟨page', hentry', hpage', hword'⟩ := h.mapped j hj
      obtain ⟨hpage'', hword''⟩ := hkeeps page' hpage'
      have hne : page' ≠ page := by
        rintro rfl
        exact hfresh hpage'
      refine ⟨page', ?_, hpage'', ?_⟩
      · rw [hentry, hother _ (hdistinct j hj), hentry']
      · exact (update_of_ne hne _ _).trans (hword''.trans hword')
    · rw [hentry, hother va (hva k (lt_add_one k))]
      exact h.others va fun j hj => hva j (by omega)

/-- The roll-back of `k` pages. -/
theorem FileMapped.rollback_entry (huser : prot.user = true) (va : ℕ)
    (hva : ∀ j < k, vpage va ≠ vpage (pageAt mapAddr j)) :
    pageEntry ((pageRange mapAddr k).foldl (unmapOne root) s) root va = pageEntry s₀ root va := by
  have hloose : ∀ w ∈ pageRange mapAddr k, Loose s label root w := by
    intro w hw _
    obtain ⟨j, hj, rfl⟩ := mem_pageRange.mp hw
    obtain ⟨page, hentry, hdata, -⟩ := h.mapped j hj
    rw [hentry]
    exact ⟨huser, hdata.1⟩
  rw [unmapAll_entry h.tables h.space hloose, if_neg]
  · exact h.others va hva
  · rintro ⟨w, hw, hsame⟩
    obtain ⟨j, hj, rfl⟩ := mem_pageRange.mp hw
    exact hva j hj hsame.symm

end

section

variable (h : Tables s label) (hr : Space label root)

include h hr

theorem mapFile_outcome (prot : ℕ)
    (hdistinct : ∀ i j, i < j → j < npages →
      vpage (pageAt mapAddr i) ≠ vpage (pageAt mapAddr j)) :
    Outcome (fun s' => ∃ label',
        FileMapped s root mapAddr (mmapFlags prot) contents label' npages s')
      (fun s' => ∀ va, (∀ j < npages, vpage va ≠ vpage (pageAt mapAddr j)) →
        pageEntry s' root va = pageEntry s root va)
      (mapFile root mapAddr prot contents npages s) := by
  refine forEach_range (fun k s' => ∃ label',
    FileMapped s root mapAddr (mmapFlags prot) contents label' k s') ?_ ?_
  · exact ⟨label, h, hr, nofun, fun _ _ => rfl⟩
  rintro k s' hk ⟨label', hmapped⟩
  rw [show wrapAdd mapAddr (k * 4096) = pageAt mapAddr k from rfl]
  obtain ⟨s₁, label₁, ⟨hfail, hstay⟩ | ⟨page, hdone, hnext⟩⟩ :=
    hmapped.step rfl fun j hj => hdistinct j k hj hk
  · rw [hfail]
    exact .of_failed fun va hva => hstay.rollback_entry rfl va fun j hj => hva j (by omega)
  · rw [hdone]
    exact .of_done ⟨label₁, hnext⟩

/-! ## Anonymous pages -/

theorem mapAnonymous_outcome (mapAddr prot npages : ℕ) :
    Outcome (fun s' => (∃ label', Tables s' label' ∧ Space label' root) ∧
        (∀ j < npages, pageEntry s' root (pageAt mapAddr j) = reservedEntry (mmapFlags prot)) ∧
        ∀ va, (∀ j < npages, vpage va ≠ vpage (pageAt mapAddr j)) →
          pageEntry s' root va = pageEntry s root va)
      (fun s' => ∀ va, (∀ j < npages, vpage va ≠ vpage (pageAt mapAddr j)) →
        pageEntry s' root va = pageEntry s root va)
      (mapAnonymous root mapAddr prot npages s) := by
  refine forEach_range (fun k s' => (∃ label', Tables s' label' ∧ Space label' root) ∧
    (∀ j < k, pageEntry s' root (pageAt mapAddr j) = reservedEntry (mmapFlags prot)) ∧
    ∀ va, (∀ j < k, vpage va ≠ vpage (pageAt mapAddr j)) →
      pageEntry s' root va = pageEntry s root va) ?_ ?_
  · exact ⟨⟨label, h, hr⟩, nofun, fun _ _ => rfl⟩
  rintro k s' hk ⟨⟨label', htables, hspace⟩, hdone, hothers⟩
  change Outcome _ _ (mapReserved s' root (pageAt mapAddr k) (mmapFlags prot))
  obtain ⟨s₁, label₁, ⟨hfail, hgrown, -⟩ | ⟨hmap, hput⟩⟩ :=
    mapReserved_spec htables hspace (pageAt mapAddr k) (mmapFlags prot)
  · rw [hfail]
    exact .of_failed fun va hva => (hgrown.pageEntry hspace va).trans
      (hothers va fun j hj => hva j (by omega))
  · rw [hmap]
    refine .of_done ⟨⟨label₁, hput.tables, hput.keeps _ _ hspace⟩, fun j hj => ?_,
      fun va hva => ?_⟩
    · by_cases hsame : vpage (pageAt mapAddr j) = vpage (pageAt mapAddr k)
      · rw [pageEntry_congr hsame]
        exact hput.self
      · have hjk : j ≠ k := fun heq => hsame (by rw [heq])
        rw [hput.other root _ hspace (.inl hsame)]
        exact hdone j (by omega)
    · rw [hput.other root va hspace (.inl (hva k (lt_add_one k)))]
      exact hothers va fun j hj => hva j (by omega)

theorem resolveReserved_zero (hdone : (resolveReserved s root va).1 = true) :
    (resolveReserved s root va).2.word
      (pageEntry (resolveReserved s root va).2 root va).frame = fun _ => 0 := by
  obtain ⟨s₁, label', hgrown, hfail | ⟨page, s₂, s', hget, hresolve, -, hput⟩⟩ :=
    resolveReserved_spec h hr va
  · rw [hfail] at hdone
    cases hdone
  rw [hresolve]
  rw [hput.self]
  obtain ⟨-, hdata, -⟩ := getFreePage_keepsData hgrown.tables hget
  change s'.word page = _
  rw [(hput.toAlloc.keepsData page hdata).2, (getFreePage_eq_some hget).2, update_self]

end

end Shitix.Paging
