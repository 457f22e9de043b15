import Shitix.Sharing.Run

/-!
# What a child inherits

`fork` gives the child no page that the parent did not have, and no other address space a new
one, also when it runs out of memory halfway.  `Inherits` is the state at any moment of the
copy; unlike the accounts of `Copying` it needs nothing but well-formed tables.
-/

namespace Shitix.Paging

open Mem Syscall List

variable {s₀ s s' : Mem} {live : List Frame} {label label' : Frame → Option Label}
  {origin : Frames} {src dst root : Frame} {va : ℕ} {e : Pte}

/-! ## Fork -/

/-- A state in the course of a copy of `src` to `dst`: the child has no page the parent did not
have, and no other address space has a new one. -/
structure Inherits (s₀ : Mem) (live : List Frame) (src dst : Frame) (s : Mem)
    (label : Frame → Option Label) : Prop where
  tables : Tables s label
  spaces : ∀ r ∈ dst :: live, Space label r
  old : ∀ r ∈ live, ∀ va, Accessible s r va → Accessible s₀ r va
  new : ∀ va, Accessible s dst va → Accessible s₀ src va

/-- The labels stay. -/
def Extends (label label' : Frame → Option Label) : Prop :=
  ∀ t l, label t = some l → label' t = some l

namespace Inherits

theorem space (h : Inherits s₀ live src dst s label) : Space label dst :=
  h.spaces dst mem_cons_self

theorem grown {scope : Label → Prop} (h : Inherits s₀ live src dst s label)
    (hgrown : Grown scope s label s' label') : Inherits s₀ live src dst s' label' where
  tables := hgrown.tables
  spaces r hr := hgrown.space (h.spaces r hr)
  old r hr va hva :=
    h.old r hr va (hva.congr (hgrown.pageEntry (h.spaces r (mem_cons_of_mem _ hr)) va))
  new va hva := h.new va (hva.congr (hgrown.pageEntry h.space va))

section

variable (h : Inherits s₀ live src dst s label)

include h

/-- A page of one of the address spaces gets an entry, and the parent had the page. -/
theorem put (hput : Put s label s' label' root va e)
    (hlow : LowerHalf va) (hroot : root = src ∧ dst ≠ src ∨ root = dst ∧ dst ∉ live)
    (hva : Accessible s₀ src va) : Inherits s₀ live src dst s' label' where
  tables := hput.tables
  spaces r hr := hput.keeps _ _ (h.spaces r hr)
  old r hr va' hva' := by
    have hspace := h.spaces r (mem_cons_of_mem _ hr)
    by_cases hsame : vpage va' = vpage va ∧ r = root
    · obtain ⟨hsame, rfl⟩ := hsame
      rcases hroot with ⟨rfl, -⟩ | ⟨rfl, hdst⟩
      · rwa [Accessible, pageEntry_congr hsame]
      · exact absurd hr hdst
    · refine h.old r hr va' (hva'.congr (hput.other r va' hspace ?_))
      exact (not_and_or.mp hsame).imp_right fun hne => ⟨hne, hlow⟩
  new va' hva' := by
    by_cases hsame : vpage va' = vpage va
    · rwa [Accessible, pageEntry_congr hsame]
    · exact h.new va' (hva'.congr (hput.other dst va' h.space (.inl hsame)))

theorem pageRefInc (f : Frame) :
    Inherits s₀ live src dst (s.pageRefInc f) label where
  tables := by
    obtain ⟨hnr, hmap, hinc⟩ := h.tables.consistent.pageRefInc f.toNat
    have hsame : SameTables s label (s.pageRefInc f) := fun _ _ _ => rfl
    exact hsame.tables h.tables hnr (fun t _ _ => congrFun hmap _) hinc
  spaces := h.spaces
  old := h.old
  new := h.new

theorem cowLeaf (hsrc : src ∈ live) (hdst : dst ∉ live)
    (hlow : LowerHalf va) (he : pageEntry s src va = e) :
    ∃ label', Extends label label' ∧
      Inherits s₀ live src dst (Paging.cowLeaf src dst va e s).2 label' := by
  have hne : dst ≠ src := fun heq => hdst (heq ▸ hsrc)
  have hspace := h.spaces src (mem_cons_of_mem _ hsrc)
  unfold Paging.cowLeaf
  split_ifs with hreserved hskip
  · have hva : Accessible s₀ src va := h.old src hsrc va (.inr (by rw [he]; exact hreserved))
    obtain ⟨s', label', ⟨hfail, hgrown, -⟩ | ⟨hdone, hput⟩⟩ :=
      mapReserved_spec h.tables h.space va e.toFlags
    · rw [hfail]
      exact ⟨label', hgrown.keeps, h.grown hgrown⟩
    · rw [hdone]
      exact ⟨label', hput.keeps, h.put hput hlow (.inr ⟨rfl, hdst⟩) hva⟩
  · exact ⟨label, fun _ _ hl => hl, h⟩
  · have hboth : e.present = true ∧ e.user = true := by simpa using hskip
    have hva : Accessible s₀ src va := h.old src hsrc va (.inl (by rw [he]; exact hboth))
    have hres : (cowFlags e).reserved = false := (Bool.not_eq_true _).mp hreserved
    have h₁ := h.pageRefInc e.frame
    -- the parent's page, which may have lost its right to write
    have h₂ : Inherits s₀ live src dst (setPageFlags (s.pageRefInc e.frame) src va (cowFlags e)).2
        label := by
      rcases setPageFlags_spec h₁.tables hspace va hres with ⟨hfail, -⟩ | ⟨s₂, hdone, -, -, -, -, hput⟩
      · rw [hfail]
        exact h₁
      · rw [hdone]
        exact h₁.put hput hlow (.inl ⟨rfl, hne⟩) hva
    obtain ⟨s', label', ⟨hfail, hgrown, -⟩ | ⟨hdone, hput⟩⟩ :=
      mapPage_spec h₂.tables h₂.space va e.frame hres
    · rw [hfail]
      exact ⟨label', hgrown.keeps, h₂.grown hgrown⟩
    · rw [hdone]
      exact ⟨label', hput.keeps, h₂.put hput hlow (.inr ⟨rfl, hdst⟩) hva⟩

end

end Inherits

/-- What a loop below a table of the parent does, whether it fails or not. -/
def InheritSpec (s₀ : Mem) (live : List Frame) (src dst : Frame) (n pre : ℕ)
    (body : Frame → Mem → Bool × Mem) : Prop :=
  ∀ t s label, label t = some (.own src n pre) → Inherits s₀ live src dst s label →
    ∃ label', Extends label label' ∧ Inherits s₀ live src dst (body t s).2 label'

section Loops

variable (hsrc : src ∈ live) (hdst : dst ∉ live)

include hsrc hdst in
theorem cowPt_inherits {a b c : ℕ} (ha : a < 256) (hb : b < 512) (hc : c < 512) :
    InheritSpec s₀ live src dst 0 ((a * 512 + b) * 512 + c) (cowPt src dst a b c) := by
  intro pt s label hpt h
  refine forEach_keeps (fun s' => ∃ label', Extends label label' ∧
    Inherits s₀ live src dst s' label') ⟨label, fun _ _ hl => hl, h⟩ ?_
  rintro i hmem s' ⟨label', hextends, h'⟩
  have hi : i < 512 := mem_range.mp hmem
  have hva := vpage_vaddrOf ha hb hc hi
  have hlow : LowerHalf (vaddrOf a b c i) := by
    rw [LowerHalf]
    omega
  have hindex : ptIndex (vaddrOf a b c i) = i := by
    have hdigit : ptIndex (vaddrOf a b c i) = vpage (vaddrOf a b c i) % 512 := by
      simp only [ptIndex, vpage]
      omega
    rw [hdigit, hva, digit_mod hi]
  have hentry : pageEntry s' src (vaddrOf a b c i) = s'.entry pt i := by
    rw [h'.tables.pageEntry_own (by rw [hva, digit_div hi]; exact hextends pt _ hpt),
      hindex]
  obtain ⟨label'', hextends', h''⟩ := h'.cowLeaf hsrc hdst hlow hentry
  exact ⟨label'', fun t l hl => hextends' t l (hextends t l hl), h''⟩

/-- The loop over a table, given what the inner loops do. -/
theorem cowTable_inherits {n pre size : ℕ} {huge : Bool} {below : ℕ → Frame → Mem → Bool × Mem}
    (hbelow : ∀ i < size, InheritSpec s₀ live src dst n (pre * 512 + i) (below i))
    (hsize : size ≤ 512) (hsize' : n = 2 → size ≤ 256) (hhuge : huge = true ∨ n = 2) :
    InheritSpec s₀ live src dst (n + 1) pre fun t => cowTable t size huge below := by
  intro t s label ht h
  refine forEach_keeps (fun s' => ∃ label', Extends label label' ∧
    Inherits s₀ live src dst s' label') ⟨label, fun _ _ hl => hl, h⟩ ?_
  rintro i hmem s' ⟨label', hextends, h'⟩
  have hi : i < size := mem_range.mp hmem
  have hl := hextends t _ ht
  dsimp only
  split_ifs with habsent hishuge
  · exact ⟨label', hextends, h'⟩
  · exact ⟨label', hextends, h'⟩
  · have hpresent : (s'.entry t i).present = true := by
      simp only [Bool.or_eq_true, Bool.not_eq_true', not_or, Bool.not_eq_false] at habsent
      exact habsent.1
    have hflat : (s'.entry t i).huge = false := by
      rcases hhuge with rfl | rfl
      · simpa using hishuge
      · exact h'.tables.flat t _ i hl (by simp [Label.height]) (by omega) hpresent
    have hslot : (slots s').slot (n + 1) t i = .inl (s'.entry t i).frame := by
      simp [slots, hpresent, hflat]
    have hchild := h'.tables.child_own hl (by omega) (fun hn => lt_of_lt_of_le hi (hsize' hn)) hslot
    obtain ⟨label'', hextends', h''⟩ := hbelow i hi _ s' label' hchild h'
    exact ⟨label'', fun t l hl => hextends' t l (hextends t l hl), h''⟩

include hsrc hdst in
theorem Inherits.cowCopyPageTable (h : Inherits s₀ live src dst s label) :
    ∃ label', Inherits s₀ live src dst (Paging.cowCopyPageTable s src dst).2 label' := by
  have hpd : ∀ a < 256, ∀ b < 512, InheritSpec s₀ live src dst 1 (a * 512 + b)
      fun pd => cowTable pd 512 true fun c pt => cowPt src dst a b c pt := by
    intro a ha b hb
    exact cowTable_inherits (fun c hc => cowPt_inherits hsrc hdst ha hb hc) le_rfl
      (fun hn => by omega) (.inl rfl)
  have hpdpt : ∀ a < 256, InheritSpec s₀ live src dst 2 (0 * 512 + a)
      fun pdpt => cowTable pdpt 512 true fun b pd => cowTable pd 512 true fun c pt =>
        cowPt src dst a b c pt := by
    intro a ha
    rw [zero_mul, zero_add]
    exact cowTable_inherits (hpd a ha) le_rfl (fun hn => by omega) (.inl rfl)
  obtain ⟨label', -, h'⟩ := cowTable_inherits hpdpt (by omega) (fun _ => le_rfl) (.inr rfl) src s
    label (h.spaces src (mem_cons_of_mem _ hsrc)) h
  exact ⟨label', h'⟩

end Loops

/-! ## All of it -/

/-- What `fork` opens, whether it fails or not. -/
theorem forkSpace_inherits (h : Sane s live label origin) (hsrc : src ∈ live) :
    (∀ r ∈ live, ∀ va, Accessible (forkSpace s src).2 r va → Accessible s r va) ∧
      ∀ dst, (forkSpace s src).1 = some dst →
        ∀ va, Accessible (forkSpace s src).2 dst va → Accessible s src va := by
  unfold forkSpace
  rcases newSpace_cases h.toOrderly with
    ⟨s', hnone, hborrowed⟩ | ⟨dst, pdpt, pd, s₁, hsome, hnew⟩
  · rw [hnone]
    refine ⟨fun r hr va hva => hva.congr ?_, fun dst hdst => absurd hdst (by simp)⟩
    exact h.unchanged_same (fun t l hl => hborrowed.words t (h.tables.held t l hl)) r hr va
  rw [hsome]
  have hsane := hnew.sane h
  have hstart : Inherits s live src dst s₁ (newLabels label dst pdpt pd) := by
    refine ⟨hsane.tables, hsane.space, fun r hr va hva => ?_, fun va hva => ?_⟩
    · exact hva.congr (hnew.unchanged h.toOrderly r hr va)
    · have hquiet := hnew.quiet h.toOrderly va
      rw [Accessible, hquiet.1, hquiet.2] at hva
      simp at hva
  obtain ⟨label', hend⟩ := hstart.cowCopyPageTable hsrc (hnew.not_live h.toOrderly)
  dsimp only
  rcases hcopy : cowCopyPageTable s₁ src dst with ⟨done, s₂⟩
  rw [hcopy] at hend
  cases done with
  | false => exact ⟨hend.old, fun dst hdst => absurd hdst (by simp)⟩
  | true =>
    refine ⟨hend.old, fun dst' hdst' => ?_⟩
    cases hdst'
    exact hend.new

end Shitix.Paging
