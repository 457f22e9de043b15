import Mathlib.Data.FinEnum
import Shitix.Lib.RefCount
import Shitix.Mm.PageWrites

/-!
# Who maps which frame

What the sharing of pages between address spaces is about, apart from the
tables it is stored in: a table of *slots*, one for each page of the lower half
of each address space, that says which frame a user page maps and whether it may
be written.  `Ledger` ties it to the counts of the allocator:

* the sharing count of a mapped frame is the number of slots that map it;
* a slot that may be written is the only one of its frame;
* a frame is held exactly as long as a slot maps it, unless it is a page table or
  was in use by the kernel from the start.

`Ledger.change` is the one place where this is shown to survive a change: of one
slot, together with the counts of the frames it concerns.
-/

namespace Shitix.Paging

open PageAlloc Function BitVec Frames

/-- A page of the lower half of an address space. -/
abbrev Slot : Type := Frame × Fin (2 ^ 35)

/-- A frame that was in use when the kernel was set up. -/
def HeldAtBoot (origin : Frames) (f : Frame) : Prop := origin.memMap f.toNat ≠ 0

/-- The accounts are right; `origin` are the frames as they were at the start. -/
structure Ledger (map : Slot → Option Frame) (rw : Slot → Bool) (frames : Frames)
    (label : Frame → Option Label) (origin : Frames) : Prop where
  mapped : ∀ x f, map x = some f →
    f.toNat < frames.nrPages ∧ frames.memMap f.toNat = 1 ∧ label f = none ∧ ¬ HeldAtBoot origin f
  refs : ∀ x f, map x = some f → refCount (frames.pageRef f.toNat) = uses map f
  once : ∀ r v v' f, map (r, v) = some f → map (r, v') = some f → v = v'
  exclusive : ∀ x f, map x = some f → rw x = true → uses map f = 1
  noLeak : ∀ f : Frame, f.toNat < frames.nrPages → frames.memMap f.toNat ≠ 0 →
    HeldAtBoot origin f ∨ label f ≠ none ∨ ∃ x, map x = some f
  kernelHeld : ∀ f, HeldAtBoot origin f → frames.memMap f.toNat ≠ 0
  ownTables : ∀ t r height pre, label t = some (.own r height pre) → ¬ HeldAtBoot origin t
  sharedTables : ∀ t height pre, label t = some (.shared height pre) → HeldAtBoot origin t
  nrPages : frames.nrPages = origin.nrPages

namespace Ledger

variable {map : Slot → Option Frame} {rw : Slot → Bool} {frames frames' : Frames}
  {label label' : Frame → Option Label} {origin : Frames} {counter : ℕ} {f page : Frame} {x : Slot}

/-- One slot changes its frame from the old one, if any, to a new one, if any. -/
theorem change (h : Ledger map rw frames label origin) (x : Slot) (target : Option Frame)
    (write : Bool) (hnr : frames'.nrPages = frames.nrPages)
    (hother : ∀ f : Frame, map x ≠ some f → target ≠ some f →
      frames'.memMap f.toNat = frames.memMap f.toNat ∧
        frames'.pageRef f.toNat = frames.pageRef f.toNat)
    (hold : ∀ f, map x = some f → target ≠ some f →
      uses map f = 1 ∧ frames'.memMap f.toNat = 0 ∨
      1 < uses map f ∧ frames'.memMap f.toNat = 1 ∧
        refCount (frames'.pageRef f.toNat) + 1 = uses map f)
    (hnew : ∀ f, target = some f → map x ≠ some f ∧ f.toNat < frames.nrPages ∧
      frames'.memMap f.toNat = 1 ∧ label f = none ∧ ¬ HeldAtBoot origin f ∧
      refCount (frames'.pageRef f.toNat) = uses map f + 1 ∧ (∀ v, map (x.1, v) ≠ some f) ∧
      (∀ y, map y = some f → rw y = false ∧ write = false)) :
    Ledger (update map x target) (update rw x write) frames' label origin := by
  -- a slot of the new table is the changed one or an old one
  have hslot : ∀ y f, update map x target y = some f →
      y = x ∧ target = some f ∨ y ≠ x ∧ map y = some f := by
    intro y f hy
    by_cases heq : y = x
    · subst heq
      exact .inl ⟨rfl, by simpa using hy⟩
    · exact .inr ⟨heq, by rwa [update_of_ne heq] at hy⟩
  -- the three kinds of frames still mapped afterwards
  have hcases : ∀ y f, update map x target y = some f →
      target = some f ∨
      target ≠ some f ∧ map x = some f ∧ map y = some f ∧ y ≠ x ∨
      target ≠ some f ∧ map x ≠ some f ∧ map y = some f := by
    intro y f hy
    by_cases ht : target = some f
    · exact .inl ht
    · rcases hslot y f hy with ⟨-, h'⟩ | ⟨hne, h'⟩
      · exact absurd h' ht
      · by_cases hx : map x = some f
        · exact .inr (.inl ⟨ht, hx, h', hne⟩)
        · exact .inr (.inr ⟨ht, hx, h'⟩)
  -- another slot on the old frame: it was shared
  have hshared : ∀ y f, map x = some f → map y = some f → y ≠ x → 1 < uses map f := by
    intro y f hx hy hne
    by_contra hle
    have hpos := uses_pos.mpr ⟨x, hx⟩
    exact hne (eq_of_uses_eq_one (by omega) hx hy)
  refine ⟨?_, ?_, ?_, ?_, ?_, ?_, h.ownTables, h.sharedTables, hnr.trans h.nrPages⟩
  · intro y f hy
    rw [hnr]
    rcases hcases y f hy with ht | ⟨ht, hx, hy', hne⟩ | ⟨ht, hx, hy'⟩
    · obtain ⟨-, hlt, hmap, hlabel, hkernel, -⟩ := hnew f ht
      exact ⟨hlt, hmap, hlabel, hkernel⟩
    · obtain ⟨hlt, -, hlabel, hkernel⟩ := h.mapped y f hy'
      have := hshared y f hx hy' hne
      rcases hold f hx ht with ⟨hone, -⟩ | ⟨-, hmap, -⟩
      · omega
      · exact ⟨hlt, hmap, hlabel, hkernel⟩
    · obtain ⟨hlt, hmap, hlabel, hkernel⟩ := h.mapped y f hy'
      exact ⟨hlt, (hother f hx ht).1.trans hmap, hlabel, hkernel⟩
  · intro y f hy
    rcases hcases y f hy with ht | ⟨ht, hx, hy', hne⟩ | ⟨ht, hx, hy'⟩
    · obtain ⟨hx, -, -, -, -, hrefs, -⟩ := hnew f ht
      rw [hrefs, ht, uses_update_add hx]
    · have := hshared y f hx hy' hne
      have hremove := uses_update_remove hx ht
      rcases hold f hx ht with ⟨hone, -⟩ | ⟨-, -, hrefs⟩
      · omega
      · omega
    · rw [(hother f hx ht).2, h.refs y f hy', uses_update_of_ne hx ht]
  · intro r v v' f hv hv'
    rcases hslot (r, v) f hv with ⟨heq, ht⟩ | ⟨hne, hv⟩ <;>
      rcases hslot (r, v') f hv' with ⟨heq', ht'⟩ | ⟨hne', hv'⟩
    · exact congrArg Prod.snd (heq.trans heq'.symm)
    · obtain ⟨-, -, -, -, -, -, hspace, -⟩ := hnew f ht
      exact absurd (heq ▸ hv') (hspace v')
    · obtain ⟨-, -, -, -, -, -, hspace, -⟩ := hnew f ht'
      exact absurd (heq' ▸ hv) (hspace v)
    · exact h.once r v v' f hv hv'
  · intro y f hy hrw
    rcases hslot y f hy with ⟨rfl, ht⟩ | ⟨hne, hy'⟩
    · obtain ⟨hx, -, -, -, -, -, -, hreaders⟩ := hnew f ht
      rw [update_self] at hrw
      rw [ht, uses_update_add hx]
      have : uses map f = 0 := uses_eq_zero.mpr fun z hz => by
        rw [(hreaders z hz).2] at hrw
        cases hrw
      omega
    · rw [update_of_ne hne] at hrw
      have hone := h.exclusive y f hy' hrw
      by_cases ht : target = some f
      · obtain ⟨-, -, -, -, -, -, -, hreaders⟩ := hnew f ht
        rw [(hreaders y hy').1] at hrw
        cases hrw
      · have hx : map x ≠ some f := fun hx => hne (eq_of_uses_eq_one hone hx hy')
        rw [uses_update_of_ne hx ht, hone]
  · intro f hlt hmap
    rw [hnr] at hlt
    by_cases ht : target = some f
    · exact .inr (.inr ⟨x, by rw [update_self, ht]⟩)
    · by_cases hx : map x = some f
      · rcases hold f hx ht with ⟨-, hzero⟩ | ⟨hmany, -, -⟩
        · exact absurd hzero hmap
        · have hremove := uses_update_remove hx ht
          exact .inr (.inr (uses_pos.mp (by omega)))
      · rw [(hother f hx ht).1] at hmap
        refine (h.noLeak f hlt hmap).imp_right (Or.imp_right ?_)
        rintro ⟨y, hy⟩
        have hne : y ≠ x := fun heq => hx (heq ▸ hy)
        exact ⟨y, by rwa [update_of_ne hne]⟩
  · intro f hkernel
    have hx : map x ≠ some f := fun hx => (h.mapped x f hx).2.2.2 hkernel
    have ht : target ≠ some f := fun ht => (hnew f ht).2.2.2.2.1 hkernel
    rw [(hother f hx ht).1]
    exact h.kernelHeld f hkernel

/-! ## The changes the code makes -/

theorem refCount_setCount {count : ℕ} (h : count < 65536) (counter : ℕ) :
    refCount (setCount count counter) = count := by
  unfold refCount setCount cowFlag
  split_ifs <;> omega

theorem refCount_inc (h : refCount counter < 65535) :
    refCount ((counter + 1) % 2 ^ 32) = refCount counter + 1 := by
  unfold refCount at *
  omega

theorem refCount_dec (h : 0 < refCount counter) :
    refCount ((counter + (2 ^ 32 - 1)) % 2 ^ 32) + 1 = refCount counter := by
  unfold refCount at *
  omega

/-- A frame that is not held is mapped nowhere. -/
theorem unmapped (h : Ledger map rw frames label origin) (hzero : frames.memMap f.toNat = 0)
    (x : Slot) : map x ≠ some f := fun hx => by
  have := (h.mapped x f hx).2.1
  omega

/-- The counts of a frame just taken, and of all others. -/
theorem taken_counts (hget : frames.getFreePage = some (page.toNat, frames')) :
    frames'.nrPages = frames.nrPages ∧ frames'.memMap page.toNat = 1 ∧
      refCount (frames'.pageRef page.toNat) = 1 ∧
      ∀ f : Frame, f ≠ page → frames'.memMap f.toNat = frames.memMap f.toNat ∧
        frames'.pageRef f.toNat = frames.pageRef f.toNat := by
  obtain ⟨-, hf'⟩ := getFreePage_eq_some hget
  rw [hf']
  refine ⟨rfl, update_self _ _ _, ?_, fun f hf => ?_⟩
  · simp only [setCounts, update_self]
    exact refCount_setCount (by omega) _
  · have hne : f.toNat ≠ page.toNat := fun heq => hf (eq_of_toNat_eq heq)
    exact ⟨update_of_ne hne _ _, update_of_ne hne _ _⟩

section

variable (h : Ledger map rw frames label origin)

include h

/-- An empty slot gets a fresh frame. -/
theorem fresh (hx : map x = none) (hget : frames.getFreePage = some (page.toNat, frames'))
    (hlt : page.toNat < frames.nrPages) (hzero : frames.memMap page.toNat = 0)
    (hlabel : label page = none) (write : Bool) :
    Ledger (update map x (some page)) (update rw x write) frames' label
      origin := by
  obtain ⟨hnr, hmap, hrefs, hrest⟩ := taken_counts hget
  have hfree := h.unmapped hzero
  refine h.change x (some page) write hnr (fun f _ hf => hrest f fun heq => hf (by rw [heq])) ?_ ?_
  · intro f hf
    rw [hx] at hf
    cases hf
  · intro f hf
    cases hf
    have huses : uses map page = 0 := uses_eq_zero.mpr hfree
    exact ⟨hfree x, hlt, hmap, hlabel, fun hkernel => h.kernelHeld page hkernel hzero,
      by rw [hrefs, huses], fun v => hfree _, fun y hy => absurd hy (hfree y)⟩

/-- The right to write a slot is taken away, or given to the only slot of its frame. -/
theorem retag {write : Bool} (hwrite : write = true → ∀ f, map x = some f → uses map f = 1) :
    Ledger map (update rw x write) frames label origin := by
  refine { h with exclusive := fun y f hy hrw => ?_ }
  by_cases heq : y = x
  · subst heq
    rw [update_self] at hrw
    exact hwrite hrw f hy
  · rw [update_of_ne heq] at hrw
    exact h.exclusive y f hy hrw

/-- Write bits may always be taken away; those of empty slots mean nothing. -/
theorem mono {rw' : Slot → Bool}
    (hrw : ∀ x f, map x = some f → rw' x = true → rw x = true) :
    Ledger map rw' frames label origin :=
  { h with exclusive := fun x f hx hw => h.exclusive x f hx (hrw x f hx hw) }

/-- A slot of another address space joins in a frame that nobody may write. -/
theorem share {y : Slot} (hx : map x = none) (hy : map y = some f)
    (hspace : ∀ v, map (x.1, v) ≠ some f) (hreaders : ∀ z, map z = some f → rw z = false)
    (hfew : uses map f < 65535) : Ledger (update map x (some f)) (update rw x false)
      (frames.pageRefInc f.toNat) label origin := by
  obtain ⟨hlt, hmap, hlabel, hkernel⟩ := h.mapped y f hy
  have hrefs := h.refs y f hy
  have hinc : frames.pageRefInc f.toNat = { frames with
      pageRef := update frames.pageRef f.toNat
        ((frames.pageRef f.toNat + 1) % 2 ^ 32) } := by
    rw [pageRefInc, if_pos hlt]
  rw [hinc]
  refine h.change x (some f) false rfl ?_ ?_ ?_
  · intro g _ hg
    have hne : g.toNat ≠ f.toNat := fun heq => hg (by rw [eq_of_toNat_eq heq])
    exact ⟨rfl, update_of_ne hne _ _⟩
  · intro g hg
    rw [hx] at hg
    cases hg
  · intro g hg
    cases hg
    refine ⟨hspace x.2, hlt, hmap, hlabel, hkernel, ?_, hspace, fun z hz => ⟨hreaders z hz, rfl⟩⟩
    simp only [update_self]
    rw [refCount_inc (by omega), hrefs]

end

/-- The counts after `free_page` of a frame held once, and of all others. -/
theorem freed_counts (frames : Frames) (hlt : f.toNat < frames.nrPages)
    (hone : frames.memMap f.toNat = 1) : (frames.freePage f.toNat).nrPages = frames.nrPages ∧
      (frames.freePage f.toNat).memMap f.toNat = 0 ∧
      ∀ g : Frame, g ≠ f → (frames.freePage f.toNat).memMap g.toNat = frames.memMap g.toNat ∧
        (frames.freePage f.toNat).pageRef g.toNat = frames.pageRef g.toNat := by
  have hnot : ¬ PageAlloc.isReserved (frames.memMap f.toNat) = true := by
    rw [hone]
    decide
  rw [freePage, if_neg (not_le.mpr hlt), if_neg (by omega), if_neg hnot, if_pos hone]
  refine ⟨rfl, update_self _ _ _, fun g hg => ?_⟩
  have hne : g.toNat ≠ f.toNat := fun heq => hg (eq_of_toNat_eq heq)
  exact ⟨update_of_ne hne _ _, update_of_ne hne _ _⟩

section

variable (h : Ledger map rw frames label origin)

include h

/-- The only slot of a frame is emptied and the frame freed. -/
theorem remove (hx : map x = some f) (hone : uses map f = 1) :
    Ledger (update map x none) (update rw x false) (frames.freePage f.toNat)
      label origin := by
  obtain ⟨hlt, hmap, -⟩ := h.mapped x f hx
  obtain ⟨hnr, hzero, hrest⟩ := freed_counts frames hlt hmap
  refine h.change x none false hnr (fun g hg _ => hrest g fun heq => hg (heq ▸ hx)) ?_ nofun
  intro g hg _
  rw [hx] at hg
  cases hg
  exact .inl ⟨hone, hzero⟩

/-- A slot lets go of its frame: `page_ref_dec`, and `free_page` at 0. -/
theorem drop (hx : map x = some f) : Ledger (update map x none) (update rw x false)
      (if (frames.pageRefDec f.toNat).1 = 0 then (frames.pageRefDec f.toNat).2.freePage f.toNat
        else (frames.pageRefDec f.toNat).2) label origin := by
  obtain ⟨hlt, hmap, -⟩ := h.mapped x f hx
  have hrefs := h.refs x f hx
  have hpos := uses_pos.mpr ⟨x, hx⟩
  have hdec := refCount_dec (by rw [hrefs]; exact hpos)
  simp only [pageRefDec]
  have hother : ∀ g : Frame, map x ≠ some g → update frames.pageRef f.toNat
      ((frames.pageRef f.toNat + (2 ^ 32 - 1)) % 2 ^ 32) g.toNat = frames.pageRef g.toNat := by
    intro g hg
    exact update_of_ne (fun heq => hg (by rw [eq_of_toNat_eq heq, hx])) _ _
  split_ifs with hlast
  · obtain ⟨hnr, hzero, hrest⟩ := freed_counts { frames with
      pageRef := update frames.pageRef f.toNat
        ((frames.pageRef f.toNat + (2 ^ 32 - 1)) % 2 ^ 32) } hlt hmap
    refine h.change x none false hnr (fun g hg _ => ?_) ?_ nofun
    · have hne : g ≠ f := fun heq => hg (heq ▸ hx)
      exact ⟨(hrest g hne).1, (hrest g hne).2.trans (hother g hg)⟩
    · intro g hg _
      rw [hx] at hg
      cases hg
      exact .inl ⟨by omega, hzero⟩
  · refine h.change x none false rfl (fun g hg _ => ⟨rfl, hother g hg⟩) ?_ nofun
    intro g hg _
    rw [hx] at hg
    cases hg
    simp only [update_self]
    omega

/-- A slot trades its shared frame for a fresh one. -/
theorem copy (hx : map x = some f) (hshared : 1 < uses map f)
    (hget : frames.getFreePage = some (page.toNat, frames')) (hlt : page.toNat < frames.nrPages)
    (hzero : frames.memMap page.toNat = 0) (hlabel : label page = none) (write : Bool) :
    Ledger (update map x (some page)) (update rw x write)
      (frames'.pageRefDec f.toNat).2 label origin := by
  obtain ⟨hnr, hmap, hrefs, hrest⟩ := taken_counts hget
  have hfree := h.unmapped hzero
  obtain ⟨hltf, hmapf, -⟩ := h.mapped x f hx
  have hrefsf := h.refs x f hx
  have hne : f ≠ page := fun heq => hfree x (heq ▸ hx)
  have hne' : page.toNat ≠ f.toNat := fun heq => hne (eq_of_toNat_eq heq).symm
  have hdec := refCount_dec (by rw [hrefsf]; omega)
  simp only [pageRefDec, if_pos (hnr.symm ▸ hltf)]
  refine h.change x (some page) write hnr ?_ ?_ ?_
  · intro g hg hg'
    have hgp : g ≠ page := fun heq => hg' (by rw [heq])
    have hgf : g.toNat ≠ f.toNat := fun heq => hg (by rw [eq_of_toNat_eq heq, hx])
    exact ⟨(hrest g hgp).1, (update_of_ne hgf _ _).trans (hrest g hgp).2⟩
  · intro g hg _
    rw [hx] at hg
    cases hg
    refine .inr ⟨hshared, (hrest f hne).1.trans hmapf, ?_⟩
    simp only [update_self]
    rw [(hrest f hne).2]
    omega
  · intro g hg
    cases hg
    have huses : uses map page = 0 := uses_eq_zero.mpr hfree
    refine ⟨hfree x, hlt, hmap, hlabel, fun hkernel => h.kernelHeld page hkernel hzero, ?_,
      fun v => hfree _, fun y hy => absurd hy (hfree y)⟩
    simp only [update_of_ne hne']
    rw [hrefs, huses]

/-- Frames that were free become tables, and the counts of frames in use stay. -/
theorem relabel (hkeeps : ∀ t l, label t = some l → label' t = some l)
    (hown : ∀ t l, label t = none → label' t = some l → ∃ r height pre, l = .own r height pre)
    (htaken : ∀ t, label t = none → label' t ≠ none →
      frames.memMap t.toNat = 0 ∧ frames'.memMap t.toNat = 1)
    (hcounts : ∀ t, label' t = label t → frames'.memMap t.toNat = frames.memMap t.toNat ∧
      (frames.memMap t.toNat ≠ 0 → frames'.pageRef t.toNat = frames.pageRef t.toNat))
    (hnr : frames'.nrPages = frames.nrPages) : Ledger map rw frames' label' origin := by
  -- a mapped frame is held, so none of the new tables is one
  have hkeep : ∀ x f, map x = some f → label' f = none := by
    intro x f hx
    obtain ⟨-, hmap, hlabel, -⟩ := h.mapped x f hx
    by_contra hsome
    have := (htaken f hlabel hsome).1
    omega
  refine ⟨?_, ?_, h.once, h.exclusive, ?_, ?_, ?_, ?_, hnr.trans h.nrPages⟩
  · intro x f hx
    obtain ⟨hlt, hmap, hlabel, hkernel⟩ := h.mapped x f hx
    have hnone := hkeep x f hx
    exact ⟨hnr ▸ hlt, (hcounts f (hnone.trans hlabel.symm)).1.trans hmap, hnone, hkernel⟩
  · intro x f hx
    obtain ⟨-, hmap, hlabel, -⟩ := h.mapped x f hx
    rw [(hcounts f ((hkeep x f hx).trans hlabel.symm)).2 (by omega)]
    exact h.refs x f hx
  · intro f hlt hmap
    by_cases hsame : label' f = label f
    · rw [(hcounts f hsame).1] at hmap
      rw [hsame]
      exact h.noLeak f (hnr ▸ hlt) hmap
    · refine .inr (.inl fun hnone => hsame ?_)
      cases hl : label f with
      | none => exact hnone
      | some l => exact hkeeps f l hl
  · intro f hkernel
    by_cases hsame : label' f = label f
    · rw [(hcounts f hsame).1]
      exact h.kernelHeld f hkernel
    · cases hl : label f with
      | none =>
        rw [(htaken f hl (hl ▸ hsame)).2]
        exact one_ne_zero
      | some l => exact absurd ((hkeeps f l hl).trans hl.symm) hsame
  · intro t r height pre ht hkernel
    cases hl : label t with
    | none =>
      have hsome : label' t ≠ none := by rw [ht]; exact Option.some_ne_none _
      exact h.kernelHeld t hkernel (htaken t hl hsome).1
    | some l =>
      have := (hkeeps t l hl).symm.trans ht
      cases this
      exact h.ownTables t r height pre hl hkernel
  · intro t height pre ht
    cases hl : label t with
    | none =>
      obtain ⟨_, _, _, heq⟩ := hown t _ hl ht
      cases heq
    | some l =>
      have := (hkeeps t l hl).symm.trans ht
      cases this
      exact h.sharedTables t height pre hl

end

/-- Tables are built, in the lower half of an address space. -/
theorem alloc {s s' : Mem} {root : Frame} {va : ℕ} (h : Ledger map rw s.frames label origin)
    (halloc : Alloc (Within root va) s label s' label') (hlow : LowerHalf va) :
    Ledger map rw s'.frames label' origin := by
  refine h.relabel halloc.keeps (fun t l hnone hl => ?_) halloc.taken
    (fun t hsame => ⟨(halloc.counts t hsame).1, fun _ => (halloc.counts t hsame).2⟩) halloc.nrPages
  obtain ⟨height, heq⟩ := halloc.fresh t l hnone hl hlow
  exact ⟨root, height, _, heq⟩

/-- A table of an address space is freed. -/
theorem retire (h : Ledger map rw frames label origin) {t r : Frame} {height pre : ℕ}
    (ht : label t = some (.own r height pre)) (hlt : t.toNat < frames.nrPages)
    (hone : frames.memMap t.toNat = 1) (hnone : label' t = none)
    (hsame : ∀ x, x ≠ t → label' x = label x) :
    Ledger map rw (frames.freePage t.toNat) label' origin := by
  obtain ⟨hnr, hzero, hrest⟩ := freed_counts frames hlt hone
  have hne : ∀ x f, map x = some f → f ≠ t := fun x f hx heq => by
    have := (h.mapped x f hx).2.2.1
    rw [heq, ht] at this
    cases this
  have hold : ∀ x l, label' x = some l → label x = some l := by
    intro x l hx
    have hxt : x ≠ t := fun heq => by
      rw [heq, hnone] at hx
      cases hx
    rwa [hsame x hxt] at hx
  refine ⟨?_, ?_, h.once, h.exclusive, ?_, ?_, fun x r height pre hx => h.ownTables x r height pre
    (hold x _ hx), fun x height pre hx => h.sharedTables x height pre (hold x _ hx),
    hnr.trans h.nrPages⟩
  · intro x f hx
    obtain ⟨hltf, hmap, hlabel, hkernel⟩ := h.mapped x f hx
    have hft := hne x f hx
    exact ⟨hnr ▸ hltf, (hrest f hft).1.trans hmap, (hsame f hft).trans hlabel, hkernel⟩
  · intro x f hx
    rw [(hrest f (hne x f hx)).2]
    exact h.refs x f hx
  · intro f hltf hmap
    have hft : f ≠ t := fun heq => hmap (by rw [heq, hzero])
    rw [(hrest f hft).1] at hmap
    rw [hsame f hft]
    exact h.noLeak f (hnr ▸ hltf) hmap
  · intro f hkernel
    have hft : f ≠ t := fun heq => h.ownTables t r height pre ht (heq ▸ hkernel)
    rw [(hrest f hft).1]
    exact h.kernelHeld f hkernel

end Ledger

end Shitix.Paging
