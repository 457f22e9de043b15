import Shitix.Mm.Spaces
import Shitix.Syscall.Memory

/-!
# The operations on one page keep the accounts

What mapping a fresh page, reserving a page, the two page faults, unmapping and
protecting do to the state of all address spaces.  Each of them changes one page
(`Rewritten`) or none (`Unchanged`), and keeps `Sane` under the condition that is
its hypothesis: a page is mapped or reserved where no user page is, and what is
unmapped or given the right to write is not shared.  The fault handlers need no
condition.
-/

namespace Shitix.Paging

open Mem Syscall Function

variable {s s' s'' : Mem} {live : List Frame} {label label' : Frame → Option Label}
  {origin : Frames} {root : Frame} {va : ℕ} {e : Pte} {prot : Flags}

theorem Unchanged.trans (h : Unchanged s s' live) (h' : Unchanged s' s'' live) :
    Unchanged s s'' live :=
  fun r hr va => (h' r hr va).trans (h r hr va)

theorem Unchanged.rewritten (h : Unchanged s s' live) (h' : Rewritten s' s'' live root va e) :
    Rewritten s s'' live root va e :=
  ⟨h'.1, fun r hr va' hne => (h'.2 r hr va' hne).trans (h r hr va')⟩

theorem Rewritten.unchanged (h : Rewritten s s' live root va e) (h' : Unchanged s' s'' live)
    (hroot : root ∈ live) : Rewritten s s'' live root va e :=
  ⟨(h' root hroot va).trans h.1, fun r hr va' hne => (h' r hr va').trans (h.2 r hr va' hne)⟩

theorem Rewritten.trans {e' : Pte} (h : Rewritten s s' live root va e)
    (h' : Rewritten s' s'' live root va e') : Rewritten s s'' live root va e' :=
  ⟨h'.1, fun r hr va' hne => (h'.2 r hr va' hne).trans (h.2 r hr va' hne)⟩

/-- An entry built from flags for user mode. -/
theorem userFrame_present {f : Flags} (h : f.user = true) (page : Frame) :
    userFrame ⟨{ f with present := true }, page⟩ = some page :=
  userFrame_eq_some.mpr ⟨rfl, h, rfl⟩

namespace Sane

/-! ## New pages -/

section

variable (h : Sane s live label origin) (hroot : root ∈ live) (hlow : LowerHalf va)
  (hempty : userFrame (pageEntry s root va) = none) (huser : prot.user = true)

include h hroot hlow hempty huser

theorem mapFresh (hprot : prot.reserved = false) :
    ∃ s' label', Sane s' live label' origin ∧
      (Syscall.mapFresh s root va prot = (none, s') ∧ Unchanged s s' live ∨
        ∃ page, Syscall.mapFresh s root va prot = (some page, s') ∧
          Rewritten s s' live root va ⟨{ prot with present := true }, page⟩ ∧
          ∀ x, view s live x ≠ some page) := by
  unfold Syscall.mapFresh
  cases hget : s.getFreePage with
  | none => exact ⟨s, label, h, .inl ⟨rfl, fun _ _ _ => rfl⟩⟩
  | some taken =>
    obtain ⟨page, s₁⟩ := taken
    obtain ⟨horderly, hsame, hlabel, hlt, hzero⟩ := h.getFreePage hget
    have hunchanged := h.unchanged_same hsame
    obtain ⟨hview, hwritable⟩ := hunchanged.view
    have hx := (view_slotOf hroot hlow).trans hempty
    -- the accounts with the page already in its slot
    have hledger := h.ledger.fresh hx (getFreePage_eq_some hget).1 hlt hzero hlabel prot.rw
    obtain ⟨s₂, label', ⟨hfail, hgrown, -⟩ | ⟨hdone, hput⟩⟩ :=
      mapPage_spec horderly.tables (horderly.space root hroot) va page hprot
    · -- there was no room for the tables: the page goes back
      have hbefore := hledger.alloc hgrown.toAlloc hlow
      have hself := update_self (slotOf root va hlow) (some page) (view s live)
      obtain ⟨hlt₂, hone₂, hlabel₂, -⟩ := hbefore.mapped _ page hself
      have horderly₂ := horderly.of_grown hgrown hlow hroot
      have hunchanged₂ := hunchanged.trans (horderly.unchanged_grown hgrown)
      have huses : uses (update (view s live) (slotOf root va hlow) (some page)) page
          = 1 := by
        rw [uses_update_add (h.ledger.unmapped hzero _)]
        by_contra hne
        obtain ⟨y, hy⟩ := uses_pos.mp (show 0 < uses (view s live) page by omega)
        exact h.ledger.unmapped hzero y hy
      have hafter := hbefore.remove hself huses
      rw [update_idem, ← hx, update_eq_self] at hafter
      refine ⟨s₂.freePage page, label', ⟨horderly₂.freePage hlabel₂ hlt₂ hone₂, ?_⟩,
        .inl ⟨by simp only [hfail], hunchanged₂⟩⟩
      have hsame₃ : Unchanged s (s₂.freePage page) live := hunchanged₂
      rw [hsame₃.view.1, hsame₃.view.2]
      refine hafter.mono fun y f hy hrw => ?_
      have hne : y ≠ slotOf root va hlow := fun heq => by
        rw [heq, hx] at hy
        cases hy
      rwa [update_of_ne hne, update_of_ne hne]
    · refine ⟨s₂, label', ?_, .inr ⟨page, by simp only [hdone],
        hunchanged.rewritten (hput.rewritten hlow horderly.space), h.ledger.unmapped hzero⟩⟩
      refine horderly.put hput hlow hroot (fun hreserved => ?_) ?_
      · exact absurd (hprot.symm.trans hreserved) (by decide)
      · rw [hview, hwritable, userFrame_present huser]
        exact hledger.alloc hput.toAlloc hlow

theorem mapReserved :
    ∃ s' label', Sane s' live label' origin ∧ Alloc (Within root va) s label s' label' ∧
      (Paging.mapReserved s root va prot = (false, s') ∧ Unchanged s s' live ∧
          s'.frames.free = [] ∧ (∀ pt, walk s' root va ≠ .table pt) ∨
        Paging.mapReserved s root va prot = (true, s') ∧
          Rewritten s s' live root va (reservedEntry prot)) := by
  obtain ⟨s', label', ⟨hfail, hgrown, hfree⟩ | ⟨hdone, hput⟩⟩ :=
    mapReserved_spec h.tables (h.space root hroot) va prot
  · exact ⟨s', label', h.grown hgrown hlow hroot, hgrown.toAlloc,
      .inl ⟨hfail, h.unchanged_grown hgrown, hfree⟩⟩
  · have hx := (view_slotOf hroot hlow).trans hempty
    refine ⟨s', label', h.put hput hlow hroot (fun _ => huser) ?_, hput.toAlloc,
      .inr ⟨hdone, hput.rewritten hlow h.space⟩⟩
    rw [show userFrame (reservedEntry prot) = none from rfl, ← hx, update_eq_self]
    refine (h.ledger.alloc hput.toAlloc hlow).mono fun y f hy hrw => ?_
    have hne : y ≠ slotOf root va hlow := fun heq => by
      rw [heq, hx] at hy
      cases hy
    rwa [update_of_ne hne] at hrw

end

/-! ## Protection -/

/-- The flags of a user page are replaced; the right to write may be given to the
only mapping of a frame. -/
theorem setPageFlags (h : Sane s live label origin) (hroot : root ∈ live) {newFlags : Flags}
    (hres : newFlags.reserved = false) (huser : newFlags.user = true)
    (hok : getPageFlags s root va ≠ none → (pageEntry s root va).user = true ∧
      (newFlags.rw = true → uses (view s live) (pageEntry s root va).frame = 1)) :
    Sane (Paging.setPageFlags s root va newFlags).2 live label origin ∧
      view (Paging.setPageFlags s root va newFlags).2 live = view s live ∧
      SameWays s label (Paging.setPageFlags s root va newFlags).2 ∧
      (Unchanged s (Paging.setPageFlags s root va newFlags).2 live ∨
        getPageFlags s root va ≠ none ∧
          Rewritten s (Paging.setPageFlags s root va newFlags).2 live root va
          ⟨{ newFlags with present := true }, (pageEntry s root va).frame⟩) := by
  have hspace := h.space root hroot
  rcases setPageFlags_spec h.tables hspace va hres with
    ⟨hfail, -⟩ | ⟨s', hdone, hflags, hpresent, hframes, hways, hput⟩
  · rw [hfail]
    exact ⟨h, rfl, fun _ _ _ _ => Iff.rfl, .inl fun _ _ _ => rfl⟩
  rw [hdone]
  have hsome : getPageFlags s root va ≠ none := by
    rw [hflags]
    exact Option.some_ne_none _
  obtain ⟨hold, hone⟩ := hok hsome
  have hlow := (h.pages root hroot va).2 hold
  have hx := (view_slotOf hroot hlow).trans (userFrame_eq_some.mpr ⟨hpresent, hold, rfl⟩)
  have hrewritten := hput.rewritten hlow h.space
  have hview := (hrewritten.view hroot hlow).1
  rw [userFrame_present huser, ← hx, update_eq_self] at hview
  refine ⟨h.put hput hlow hroot (fun hres' => ?_) ?_, hview, hways, .inr ⟨hsome, hrewritten⟩⟩
  · exact absurd (hres.symm.trans hres') (by decide)
  · rw [hframes, userFrame_present huser, ← hx, update_eq_self]
    refine h.ledger.retag fun hrw f hf => ?_
    rw [hx] at hf
    cases hf
    exact hone hrw

/-! ## Page faults -/

theorem resolveReserved (h : Sane s live label origin) (hroot : root ∈ live)
    (hreserved : (pageEntry s root va).reserved = true) :
    ∃ label', Sane (Paging.resolveReserved s root va).2 live label' origin ∧
      Opens s (Paging.resolveReserved s root va).2 live root [] := by
  have hspace := h.space root hroot
  have huser := (h.pages root hroot va).1 hreserved
  have hlow := (h.pages root hroot va).2 huser
  have hempty : userFrame (pageEntry s root va) = none := by
    simp [userFrame, absent_of_reserved h.tables hspace hreserved]
  obtain ⟨s₁, label', hgrown, hfail | ⟨page, s₂, s', hget, hdone, hframes, hput⟩⟩ :=
    resolveReserved_spec h.tables hspace va
  · rw [hfail]
    exact ⟨label', h.grown hgrown hlow hroot, (h.unchanged_grown hgrown).opens []⟩
  · have h₁ := h.grown hgrown hlow hroot
    obtain ⟨horderly, hsame, hlabel, hlt, hzero⟩ := h₁.getFreePage hget
    obtain ⟨hview, hwritable⟩ := (h₁.unchanged_same hsame).view
    have hx := (view_slotOf hroot hlow).trans (hgrown.pageEntry hspace va ▸ hempty)
    have hrewritten := ((h.unchanged_grown hgrown).trans (h₁.unchanged_same hsame)).rewritten
      (hput.rewritten hlow horderly.space)
    rw [hdone]
    refine ⟨label', horderly.put hput hlow hroot (nofun) ?_,
      hrewritten.opens fun _ => .inl (.inr hreserved)⟩
    rw [hview, hwritable, hframes, show userFrame (resolvedEntry (pageEntry s root va) page) =
      some page from userFrame_eq_some.mpr ⟨rfl, huser, rfl⟩]
    exact h₁.ledger.fresh hx (getFreePage_eq_some hget).1 hlt hzero hlabel _

/-- The frame of a translated address. -/
theorem frame_of_phys (f : Frame) (va : ℕ) :
    BitVec.ofNat 40 ((f.toNat * 4096 + va % 4096) / 4096) = f := by
  rw [show (f.toNat * 4096 + va % 4096) / 4096 = f.toNat by omega, BitVec.ofNat_toNat,
    BitVec.setWidth_eq]

end Sane

/-- Building tables does not notice the sharing counts. -/
theorem Alloc.pageRefDec {scope : Label → Prop} (h : Alloc scope s label s' label') (f : Frame) :
    Alloc scope (s.pageRefDec f).2 label (s'.pageRefDec f).2 label' := by
  have hmap : ∀ s : Mem, (s.pageRefDec f).2.frames.memMap = s.frames.memMap ∧
      (s.pageRefDec f).2.frames.nrPages = s.frames.nrPages := by
    intro s
    simp only [Mem.pageRefDec, Frames.pageRefDec]
    split_ifs <;> exact ⟨rfl, rfl⟩
  refine ⟨h.keeps, h.fresh, ?_, ?_, h.links, h.words, ?_⟩
  · intro t hnone hsome
    rw [(hmap s).1, (hmap s').1]
    exact h.taken t hnone hsome
  · intro t hsame
    rw [(hmap s).1, (hmap s').1]
    refine ⟨(h.counts t hsame).1, ?_⟩
    simp only [Mem.pageRefDec, Frames.pageRefDec, h.nrPages]
    split_ifs
    · by_cases heq : t.toNat = f.toNat
      · simp only [← heq, update_self, (h.counts t hsame).2]
      · simp [update_of_ne heq, (h.counts t hsame).2]
    · exact (h.counts t hsame).2
  · rw [(hmap s).2, (hmap s').2]
    exact h.nrPages

namespace Sane

/-- A write to a page that several address spaces share: the writer gets a copy. -/
theorem copyPage (h : Sane s live label origin) (hroot : root ∈ live)
    {f : Frame} (hf : userFrame (pageEntry s root va) = some f)
    (hshared : 1 < uses (view s live) f) {page : Frame} {s₁ : Mem}
    (hget : s.getFreePage = some (page, s₁)) (contents : ℕ → BitVec 64)
    (prot : Flags) (huser' : prot.user = true) (hprot : prot.reserved = false) :
    ∃ s' label', mapPage (unmapPage (s₁.fill page contents) root va).2 root va page prot =
      (true, s') ∧ Sane (s'.pageRefDec f).2 live label' origin ∧
        Opens s (s'.pageRefDec f).2 live root [] := by
  obtain ⟨hpresent, huser, hframe⟩ := userFrame_eq_some.mp hf
  have hlow := (h.pages root hroot va).2 huser
  have hspace := h.space root hroot
  have hx := (view_slotOf hroot hlow).trans hf
  obtain ⟨horderly₁, hsame₁, hlabel, hlt, hzero⟩ := h.getFreePage hget
  have hboot : page ≠ bootPml4 := fun heq => h.boot.held (heq ▸ hzero)
  have horderly₂ := horderly₁.fill hlabel hboot contents
  have hsame₂ : SameTables s label (s₁.fill page contents) := fun t l hl =>
    (update_of_ne (fun heq => by rw [heq, hlabel] at hl; cases hl) _ _).trans
      (hsame₁ t l hl)
  have hunchanged := h.unchanged_same hsame₂
  obtain ⟨pt, hwalk, -⟩ := walk_of_user h.tables hspace huser
  have hwalk₂ := hsame₂.walk h.tables hspace hwalk
  have hentry₂ := hunchanged root hroot va
  -- the page has an entry of its own, so it is unmapped, and its tables stay
  obtain ⟨s₃, hs₃, hframes₃, hways₃, hput₃⟩ :=
    unmapPage_spec horderly₂.tables hspace (hentry₂.symm ▸ hpresent) (hentry₂.symm ▸ huser)
  have horderly₃ := horderly₂.of_put hput₃ hlow hroot nofun
  obtain ⟨s₄, label', ⟨-, hgrown, -, hmissing⟩ | ⟨hdone, hput₄⟩⟩ :=
    mapPage_spec horderly₃.tables hspace va page hprot
  · exact absurd (hgrown.walk horderly₃.tables hspace ((hways₃ root va pt hspace).mpr hwalk₂))
      (hmissing pt)
  refine ⟨s₄, label', by rw [hs₃]; exact hdone, ?_⟩
  have horderly₄ := horderly₃.of_put hput₄ hlow hroot fun hres =>
    absurd (hprot.symm.trans hres) (by decide)
  have hunchanged₄ : Unchanged s₄ (s₄.pageRefDec f).2 live := fun _ _ _ => rfl
  have hrewritten := (hunchanged.rewritten (hput₃.rewritten hlow horderly₂.space)).trans
    ((hput₄.rewritten hlow horderly₃.space).unchanged hunchanged₄ hroot)
  refine ⟨⟨horderly₄.pageRefDec f, ?_⟩,
    hrewritten.opens fun _ => .inl (.inl ⟨hpresent, huser⟩)⟩
  obtain ⟨hview₃, hwritable₃⟩ := (hput₃.rewritten hlow horderly₂.space).view hroot hlow
  obtain ⟨hview₄, hwritable₄⟩ := (hput₄.rewritten hlow horderly₃.space).view hroot hlow
  rw [hunchanged₄.view.1, hunchanged₄.view.2, hview₄, hwritable₄, hview₃, hwritable₃,
    hunchanged.view.1, hunchanged.view.2, update_idem, update_idem,
    userFrame_present huser']
  have hcopy := h.ledger.copy hx hshared (getFreePage_eq_some hget).1 hlt hzero hlabel prot.rw
  rw [← show s₃.frames = s₁.frames from hframes₃] at hcopy
  exact Ledger.alloc hcopy (hput₄.toAlloc.pageRefDec f) hlow

/-- The flags of a page after `try_handle_cow_fault`. -/
def writableFlags (e : Pte) : Flags := { e.toFlags with rw := true }

theorem tryHandleCowFault (h : Sane s live label origin) (hroot : root ∈ live) (va : ℕ) :
    ∃ label', Sane (Paging.tryHandleCowFault s va root).2 live label' origin ∧
      Opens s (Paging.tryHandleCowFault s va root).2 live root [] := by
  have hspace := h.space root hroot
  unfold Paging.tryHandleCowFault
  rw [isUserMapped_eq h.tables hspace, translate_eq h.tables hspace]
  by_cases hhigh : 0x0000800000000000 ≤ va
  · rw [if_pos hhigh]
    exact ⟨label, h, .refl⟩
  rw [if_neg hhigh]
  by_cases hmapped : (!((pageEntry s root va).present && (pageEntry s root va).user)) = true
  · rw [if_pos hmapped]
    exact ⟨label, h, .refl⟩
  obtain ⟨hpresent, huser⟩ : (pageEntry s root va).present = true ∧
      (pageEntry s root va).user = true := by simpa using hmapped
  have hlow := (h.pages root hroot va).2 huser
  have hflags := getPageFlags_of_user h.tables hspace hpresent huser
  have hf := userFrame_eq_some.mpr ⟨hpresent, huser, rfl⟩
  obtain ⟨-, -, -, hcount⟩ := h.mapped hroot hf
  have hx := (view_slotOf hroot hlow).trans hf
  have hres := not_reserved_of_present h.tables hspace hpresent
  rw [if_pos hpresent]
  dsimp only
  rw [frame_of_phys, hcount, hflags]
  dsimp only [Option.getD_some]
  split_ifs with hshared
  · cases hget : s.getFreePage with
    | none => exact ⟨label, h, .refl⟩
    | some taken =>
      obtain ⟨page, s₁⟩ := taken
      obtain ⟨s', label', hdone, hsane, hopens⟩ := h.copyPage hroot hf hshared hget
        (s₁.word (pageEntry s root va).frame) (writableFlags (pageEntry s root va)) huser hres
      unfold writableFlags at hdone
      dsimp only
      rw [hdone]
      exact ⟨label', hsane, hopens⟩
  · -- the only mapping of its frame: it may be written
    obtain ⟨hsane, -, -, hwrites⟩ := h.setPageFlags hroot
      (show (writableFlags (pageEntry s root va)).reserved = false from hres) huser
      fun _ => ⟨huser, fun _ => by have := uses_pos.mpr ⟨_, hx⟩; omega⟩
    have hopens : Opens s (Paging.setPageFlags s root va (writableFlags (pageEntry s root va))).2
        live root [] := by
      rcases hwrites with hunchanged | ⟨-, hrewritten⟩
      · exact hunchanged.opens []
      · exact hrewritten.opens fun _ => .inl (.inl ⟨hpresent, huser⟩)
    refine ⟨label, ?_⟩
    unfold writableFlags at hsane hopens
    split <;> next s' heq =>
      rw [heq] at hsane hopens
      exact ⟨hsane, hopens⟩

end Sane

end Shitix.Paging
