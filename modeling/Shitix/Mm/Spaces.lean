import Shitix.Mm.Ledger

/-!
# Live address spaces

The state of all address spaces together.  `view` and `writable` read the table
of slots off the memory: which frame each user page of a live address space maps,
and whether it may be written.  `Sane` is the invariant of the whole: the tables
are well formed, every table belongs to a live address space or to the kernel,
and the accounts of `Ledger` are right.

A change of one page, as `Put` describes it, is a change of one slot, so `Sane`
is kept if the accounts are (`Orderly.put`).
-/

namespace Shitix.Paging

open Mem Function

/-! ## Slots -/

/-- The frame a user page maps. -/
def userFrame (e : Pte) : Option Frame := if e.present && e.user then some e.frame else none

theorem userFrame_eq_some {e : Pte} {f : Frame} :
    userFrame e = some f ↔ e.present = true ∧ e.user = true ∧ e.frame = f := by
  unfold userFrame
  split_ifs with h
  · simp_all
  · simp_all

/-- The frame a slot maps. -/
def view (s : Mem) (live : List Frame) (x : Slot) : Option Frame :=
  if x.1 ∈ live then userFrame (pageEntry s x.1 (x.2.val * 4096)) else none

/-- The write bit of a slot. -/
def writable (s : Mem) (live : List Frame) (x : Slot) : Bool :=
  x.1 ∈ live && (pageEntry s x.1 (x.2.val * 4096)).rw

/-- The slot of an address in the lower half. -/
def slotOf (root : Frame) (va : ℕ) (h : LowerHalf va) : Slot := (root, ⟨vpage va, h⟩)

theorem vpage_slot (v : Fin (2 ^ 35)) : vpage (v.val * 4096) = v.val := by
  simp only [vpage]
  omega

variable {scope : Label → Prop} {s s' : Mem} {live : List Frame}
  {label label' : Frame → Option Label} {origin : Frames} {root : Frame} {va : ℕ} {e : Pte}

theorem pageEntry_slotOf (s : Mem) (root : Frame) (h : LowerHalf va) :
    pageEntry s root ((slotOf root va h).2.val * 4096) = pageEntry s root va :=
  pageEntry_congr (vpage_slot _)

theorem view_slotOf (hroot : root ∈ live) (h : LowerHalf va) :
    view s live (slotOf root va h) = userFrame (pageEntry s root va) := by
  rw [← pageEntry_slotOf s root h, view]
  simp [slotOf, hroot]

/-- No page of the address spaces `live` is governed by another entry than before. -/
def Unchanged (s s' : Mem) (live : List Frame) : Prop :=
  ∀ r ∈ live, ∀ va, pageEntry s' r va = pageEntry s r va

/-- One page of them is governed by a new entry, all others by their old ones. -/
def Rewritten (s s' : Mem) (live : List Frame) (root : Frame) (va : ℕ) (e : Pte) : Prop :=
  pageEntry s' root va = e ∧ ∀ r ∈ live, ∀ va', (vpage va' ≠ vpage va ∨ r ≠ root) →
    pageEntry s' r va' = pageEntry s r va'

theorem Put.rewritten (hput : Put s label s' label' root va e) (hlow : LowerHalf va)
    (hspace : ∀ r ∈ live, Space label r) : Rewritten s s' live root va e :=
  ⟨hput.self, fun r hr va' hne =>
    hput.other r va' (hspace r hr) (hne.imp_right fun hne => ⟨hne, hlow⟩)⟩

/-- Memory with the same governing entries has the same slots. -/
theorem Unchanged.view (h : Unchanged s s' live) :
    view s' live = Paging.view s live ∧ writable s' live = writable s live := by
  constructor
  · funext x
    unfold Paging.view
    split_ifs with hx
    · rw [h x.1 hx]
    · rfl
  · funext x
    unfold writable
    by_cases hx : x.1 ∈ live
    · rw [h x.1 hx]
    · simp [hx]

/-- A change of one page is a change of its slot. -/
theorem Rewritten.view (h : Rewritten s s' live root va e) (hroot : root ∈ live)
    (hlow : LowerHalf va) :
    view s' live = update (Paging.view s live) (slotOf root va hlow) (userFrame e) ∧
      writable s' live = update (writable s live) (slotOf root va hlow) e.rw := by
  have hother : ∀ x : Slot, x ≠ slotOf root va hlow → x.1 ∈ live →
      pageEntry s' x.1 (x.2.val * 4096) = pageEntry s x.1 (x.2.val * 4096) := by
    intro x hne hx
    refine h.2 x.1 hx _ ?_
    by_contra hsame
    rw [not_or, not_not, not_not] at hsame
    refine hne (Prod.ext hsame.2 (Fin.ext ?_))
    rw [← vpage_slot x.2, hsame.1]
    rfl
  constructor
  · funext x
    by_cases heq : x = slotOf root va hlow
    · subst heq
      rw [update_self, view_slotOf hroot, h.1]
    · rw [update_of_ne heq]
      unfold Paging.view
      split_ifs with hx
      · rw [hother x heq hx]
      · rfl
  · funext x
    by_cases heq : x = slotOf root va hlow
    · subst heq
      rw [← h.1, ← pageEntry_slotOf _ root hlow, writable]
      simp [slotOf, hroot]
    · rw [update_of_ne heq]
      unfold writable
      by_cases hx : x.1 ∈ live
      · rw [hother x heq hx]
      · simp [hx]

/-! ## The pages user mode can use -/

/-- User mode can use the page, now or after a page fault. -/
def Accessible (s : Mem) (pml4 : Frame) (va : ℕ) : Prop :=
  (pageEntry s pml4 va).present = true ∧ (pageEntry s pml4 va).user = true ∨
    (pageEntry s pml4 va).reserved = true

/-- Only the given pages of `root` became accessible. -/
def Opens (s s' : Mem) (live : List Frame) (root : Frame) (pages : List ℕ) : Prop :=
  ∀ r ∈ live, ∀ va, Accessible s' r va →
    Accessible s r va ∨ r = root ∧ ∃ w ∈ pages, vpage va = vpage w

theorem Opens.refl {pages : List ℕ} : Opens s s live root pages := fun _ _ _ hva => .inl hva

theorem Accessible.congr (h : pageEntry s' root va = pageEntry s root va)
    (hva : Accessible s' root va) : Accessible s root va := by
  rwa [Accessible, h] at hva

theorem Accessible.of_vpage {va' : ℕ} (h : vpage va = vpage va')
    (hva : Accessible s root va) : Accessible s root va' := by
  rwa [Accessible, ← pageEntry_congr h]

theorem Opens.trans {s'' : Mem} {pages : List ℕ} (h : Opens s s' live root pages)
    (h' : Opens s' s'' live root pages) : Opens s s'' live root pages := by
  intro r hr va hva
  rcases h' r hr va hva with hva | hnew
  · exact h r hr va hva
  · exact .inr hnew

theorem Opens.mono {pages pages' : List ℕ} (h : Opens s s' live root pages)
    (hsub : pages ⊆ pages') : Opens s s' live root pages' := by
  intro r hr va hva
  rcases h r hr va hva with hva | ⟨hroot, w, hw, hsame⟩
  · exact .inl hva
  · exact .inr ⟨hroot, w, hsub hw, hsame⟩

theorem Unchanged.opens (h : Unchanged s s' live) (pages : List ℕ) : Opens s s' live root pages :=
  fun r hr va hva => .inl (hva.congr (h r hr va))

/-- A page that gets a new entry was accessible before, or is one of the given ones. -/
theorem Rewritten.opens {pages : List ℕ} (h : Rewritten s s' live root va e)
    (hpage : Accessible s' root va → Accessible s root va ∨ va ∈ pages) :
    Opens s s' live root pages := by
  intro r hr va' hva'
  by_cases hsame : vpage va' = vpage va ∧ r = root
  · obtain ⟨hsame, rfl⟩ := hsame
    rw [Accessible, pageEntry_congr hsame] at hva'
    rcases hpage hva' with hold | hmem
    · left
      rwa [Accessible, pageEntry_congr hsame]
    · exact .inr ⟨rfl, va, hmem, hsame⟩
  · exact .inl (hva'.congr (h.2 r hr va' (not_and_or.mp hsame)))

/-! ## The kernel's own tables -/

/-- The entry gives user mode nothing, now or later. -/
def Quiet (e : Pte) : Prop := e.user = false ∧ e.reserved = false

/-- What every new address space copies: the slot of the direct map in the boot
PML4, and the boot page directory with its huge pages. -/
structure Booted (s : Mem) (label : Frame → Option Label) : Prop where
  highPresent : (s.entry bootPml4 256).present = true
  highFlat : (s.entry bootPml4 256).huge = false
  highLabel : label (s.entry bootPml4 256).frame = some (.shared 2 256)
  unlabelled : label bootPml4 = none
  held : s.frames.memMap bootPml4.toNat ≠ 0
  pdLabel : label bootPd = some (.shared 1 131072)
  pdHuge : ∀ i < 512, (s.entry bootPd i).present = true → (s.entry bootPd i).huge = true
  highQuiet : ∀ key, Quiet ((slots s).lookup 512 2 (s.entry bootPml4 256).frame key)

/-- Nothing below a table of the kernel changes unless one of these does. -/
theorem lookup_shared (h : Tables s label)
    (hwords : ∀ t height pre, label t = some (.shared height pre) → s'.word t = s.word t)
    {t : Frame} {height pre : ℕ} (hl : label t = some (.shared height pre)) (key : ℕ) :
    (slots s').lookup 512 height t key = (slots s).lookup 512 height t key := by
  have hentry : ∀ i, s'.entry t i = s.entry t i := fun i => by
    rw [entry, hwords t height pre hl, entry]
  induction height generalizing t pre with
  | zero => exact hentry _
  | succ n ih =>
    simp only [Radix.lookup, slot_congr (hentry _)]
    split
    · next next hnext =>
      have hnext' := h.labelled.child t _ n _ next hl rfl (Nat.mod_lt _ (by omega)) hnext
      exact ih hnext' fun i => by rw [entry, hwords _ _ _ hnext', entry]
    · rfl

theorem Booted.congr (h : Booted s label) (htables : Tables s label)
    (hkeeps : ∀ t height pre, label t = some (.shared height pre) →
      label' t = some (.shared height pre))
    (hpml4 : s'.word bootPml4 = s.word bootPml4)
    (hshared : ∀ t height pre, label t = some (.shared height pre) → s'.word t = s.word t)
    (hnone : label' bootPml4 = none) (hheld : s'.frames.memMap bootPml4.toNat ≠ 0) :
    Booted s' label' := by
  have hentry4 : ∀ i, s'.entry bootPml4 i = s.entry bootPml4 i := fun i => by
    rw [entry, hpml4, entry]
  have hentry6 : ∀ i, s'.entry bootPd i = s.entry bootPd i := fun i => by
    rw [entry, hshared _ _ _ h.pdLabel, entry]
  refine ⟨?_, ?_, ?_, hnone, hheld, hkeeps _ _ _ h.pdLabel, ?_, ?_⟩
  · rw [hentry4]; exact h.highPresent
  · rw [hentry4]; exact h.highFlat
  · rw [hentry4]; exact hkeeps _ _ _ h.highLabel
  · intro i hi
    rw [hentry6]
    exact h.pdHuge i hi
  · intro key
    rw [hentry4, lookup_shared htables hshared h.highLabel]
    exact h.highQuiet key

/-! ## The invariant -/

/-- Reserved pages are reserved for user mode, and user mode has the lower half. -/
def PageOk (va : ℕ) (e : Pte) : Prop :=
  (e.reserved = true → e.user = true) ∧ (e.user = true → LowerHalf va)

theorem Quiet.pageOk (h : Quiet e) : PageOk va e :=
  ⟨fun hreserved => absurd (h.2.symm.trans hreserved) (by decide),
    fun huser => absurd (h.1.symm.trans huser) (by decide)⟩

/-- The tables of the address spaces `live` are in order. -/
structure Orderly (s : Mem) (live : List Frame) (label : Frame → Option Label) : Prop where
  tables : Tables s label
  space : ∀ r ∈ live, Space label r
  owner : ∀ t r height pre, label t = some (.own r height pre) → r ∈ live
  pages : ∀ r ∈ live, ∀ va, PageOk va (pageEntry s r va)
  identity : ∀ r ∈ live, ∃ pd, label pd = some (.own r 1 0)
  boot : Booted s label

/-- The address spaces `live` are in order, and so are the accounts. -/
structure Sane (s : Mem) (live : List Frame) (label : Frame → Option Label)
    (origin : Frames) : Prop extends Orderly s live label where
  ledger : Ledger (view s live) (writable s live) s.frames label origin

theorem Unchanged.pages (h : Unchanged s s' live)
    (hpages : ∀ r ∈ live, ∀ va, PageOk va (pageEntry s r va)) :
    ∀ r ∈ live, ∀ va, PageOk va (pageEntry s' r va) := fun r hr va => by
  rw [h r hr va]
  exact hpages r hr va

theorem Rewritten.pages (h : Rewritten s s' live root va e) (hlow : LowerHalf va)
    (he : e.reserved = true → e.user = true)
    (hpages : ∀ r ∈ live, ∀ va, PageOk va (pageEntry s r va)) :
    ∀ r ∈ live, ∀ va, PageOk va (pageEntry s' r va) := by
  intro r hr va'
  by_cases hsame : vpage va' = vpage va ∧ r = root
  · obtain ⟨hpage, rfl⟩ := hsame
    rw [pageEntry_congr hpage, h.1]
    exact ⟨he, fun _ => by rw [LowerHalf, hpage]; exact hlow⟩
  · rw [h.2 r hr va' (not_and_or.mp hsame)]
    exact hpages r hr va'

/-- The first frame is never the root of an address space. -/
theorem Tables.root_ne_zero (h : Tables s label) (hr : Space label root) : root ≠ 0 := by
  intro hzero
  have hlt := h.managed root _ hr
  have hone := h.own root root 3 0 hr
  have hlow := h.consistent.usable _ hlt (by rw [hone]; decide)
  rw [hzero] at hlow
  exact absurd hlow (by decide)

namespace Orderly

section

variable (h : Orderly s live label) {page : Frame}

include h

/-- Building tables in one address space leaves everything else in order. -/
theorem of_alloc (halloc : Alloc (Within root va) s label s' label')
    (hlow : LowerHalf va) (hroot : root ∈ live) (htables : Tables s' label')
    (hpages : ∀ r ∈ live, ∀ va, PageOk va (pageEntry s' r va)) : Orderly s' live label' := by
  have hnone : label' bootPml4 = none := by
    by_contra hsome
    exact h.boot.held (halloc.taken _ h.boot.unlabelled hsome).1
  refine ⟨htables, fun r hr => halloc.keeps r _ (h.space r hr), ?_, hpages,
    fun r hr => (h.identity r hr).imp fun pd => halloc.keeps pd _, ?_⟩
  · intro t r height pre ht
    cases hl : label t with
    | none =>
      obtain ⟨height', heq⟩ := halloc.fresh t _ hl ht hlow
      cases heq
      exact hroot
    | some l =>
      have := (halloc.keeps t l hl).symm.trans ht
      cases this
      exact h.owner t r height pre hl
  · refine h.boot.congr h.tables (fun t _ _ => halloc.keeps t _) (halloc.words _ ?_)
      (fun t height pre ht => halloc.words _ ?_) hnone ?_
    · intro l hl
      rw [hnone] at hl
      cases hl
    · intro l hl hwithin
      rw [halloc.keeps _ _ ht] at hl
      cases hl
      obtain ⟨_, heq⟩ := hwithin hlow
      cases heq
    · rw [(halloc.counts _ (hnone.trans h.boot.unlabelled.symm)).1]
      exact h.boot.held

theorem unchanged_same (hsame : SameTables s label s') : Unchanged s s' live :=
  fun r hr va => hsame.pageEntry h.tables (h.space r hr) va

theorem unchanged_grown (hgrown : Grown scope s label s' label') : Unchanged s s' live :=
  fun r hr va => hgrown.pageEntry (h.space r hr) va

/-- A change to the contents and counts of frames that are no tables. -/
theorem of_same (hsame : SameTables s label s')
    (htables : Tables s' label) (hpml4 : s'.word bootPml4 = s.word bootPml4)
    (hheld : s'.frames.memMap bootPml4.toNat ≠ 0) : Orderly s' live label :=
  ⟨htables, h.space, h.owner, (h.unchanged_same hsame).pages h.pages, h.identity,
    h.boot.congr h.tables (fun _ _ _ hl => hl) hpml4 (fun t _ _ ht => hsame t _ ht)
      h.boot.unlabelled hheld⟩

theorem of_grown (hgrown : Grown (Within root va) s label s' label')
    (hlow : LowerHalf va) (hroot : root ∈ live) : Orderly s' live label' :=
  h.of_alloc hgrown.toAlloc hlow hroot hgrown.tables ((h.unchanged_grown hgrown).pages h.pages)

theorem getFreePage (hget : s.getFreePage = some (page, s')) :
    Orderly s' live label ∧ SameTables s label s' ∧ label page = none ∧
      page.toNat < s.frames.nrPages ∧ s.frames.memMap page.toNat = 0 := by
  obtain ⟨htables, hsame, hlabel, hlt, hzero⟩ := getFreePage_data h.tables hget
  obtain ⟨hframes, hword⟩ := getFreePage_eq_some hget
  have hne : bootPml4 ≠ page := fun heq => h.boot.held (heq ▸ hzero)
  refine ⟨h.of_same hsame htables ?_ ?_, hsame, hlabel, hlt, hzero⟩
  · rw [hword, update_of_ne hne]
  · rw [((Ledger.taken_counts hframes).2.2.2 _ hne).1]
    exact h.boot.held

/-- A frame held once that is no table is not the boot PML4 either. -/
theorem ne_bootPml4 (hlt : page.toNat < s.frames.nrPages) (hone : s.frames.memMap page.toNat = 1) :
    page ≠ bootPml4 := by
  rintro rfl
  have := h.tables.consistent.usable _ hlt (by rw [hone]; decide)
  exact absurd this (by decide)

/-- Freeing a page of data, held once. -/
theorem freePage (hlabel : label page = none) (hlt : page.toNat < s.frames.nrPages)
    (hone : s.frames.memMap page.toNat = 1) : Orderly (s.freePage page) live label := by
  obtain ⟨hnr, -, hrest⟩ := Ledger.freed_counts s.frames hlt hone
  have hsame : SameTables s label (s.freePage page) := fun _ _ _ => rfl
  have hne : ∀ t l, label t = some l → t ≠ page := fun t l hl heq => by
    rw [heq, hlabel] at hl
    cases hl
  refine h.of_same hsame (hsame.tables h.tables hnr (fun t l hl => (hrest t (hne t l hl)).1)
    (h.tables.consistent.freePage _)) rfl ?_
  rw [freePage_frames, (hrest _ (h.ne_bootPml4 hlt hone).symm).1]
  exact h.boot.held

theorem fill (hlabel : label page = none) (hboot : page ≠ bootPml4) (words : ℕ → BitVec 64) :
    Orderly (s.fill page words) live label := by
  have hsame : SameTables s label (s.fill page words) := fun t l hl =>
    update_of_ne (fun heq => by rw [heq, hlabel] at hl; cases hl) _ _
  exact h.of_same hsame (hsame.tables h.tables rfl (fun _ _ _ => rfl) h.tables.consistent)
    (update_of_ne hboot.symm _ _) h.boot.held

/-- Counting references to pages changes nothing else. -/
theorem of_refs (hword : s'.word = s.word) (hframes : s'.frames.nrPages = s.frames.nrPages ∧
    s'.frames.memMap = s.frames.memMap ∧ s'.frames.Consistent) : Orderly s' live label := by
  have hsame : SameTables s label s' := fun t _ _ => congrFun hword t
  obtain ⟨hnr, hmap, hconsistent⟩ := hframes
  exact h.of_same hsame (hsame.tables h.tables hnr (fun t _ _ => congrFun hmap _) hconsistent)
    (congrFun hword _) ((congrFun hmap _).symm ▸ h.boot.held)

theorem pageRefInc (page : Frame) : Orderly (s.pageRefInc page) live label :=
  h.of_refs rfl (h.tables.consistent.pageRefInc page.toNat)

theorem pageRefDec (page : Frame) : Orderly (s.pageRefDec page).2 live label :=
  h.of_refs rfl (h.tables.consistent.pageRefDec page.toNat)

section

variable (hput : Put s label s' label' root va e) (hlow : LowerHalf va) (hroot : root ∈ live)
  (he : e.reserved = true → e.user = true)

include hput hlow hroot he

theorem of_put : Orderly s' live label' :=
  h.of_alloc hput.toAlloc hlow hroot hput.tables
    ((hput.rewritten hlow h.space).pages hlow he h.pages)

/-- A change of one page, with the accounts in order afterwards. -/
theorem put (hledger : Ledger (update (view s live) (slotOf root va hlow) (userFrame e))
      (update (writable s live) (slotOf root va hlow) e.rw) s'.frames label' origin) :
    Sane s' live label' origin := by
  obtain ⟨hview, hwritable⟩ := (hput.rewritten hlow h.space).view hroot hlow
  refine ⟨h.of_put hput hlow hroot he, ?_⟩
  rw [hview, hwritable]
  exact hledger

end

end

end Orderly

namespace Sane

section

variable (h : Sane s live label origin)

include h

theorem root_ne_zero (hroot : root ∈ live) : root ≠ 0 :=
  h.tables.root_ne_zero (h.space root hroot)

theorem grown (hgrown : Grown (Within root va) s label s' label') (hlow : LowerHalf va)
    (hroot : root ∈ live) : Sane s' live label' origin := by
  obtain ⟨hview, hwritable⟩ := (h.unchanged_grown hgrown).view
  refine ⟨h.of_grown hgrown hlow hroot, ?_⟩
  rw [hview, hwritable]
  exact h.ledger.alloc hgrown.toAlloc hlow

/-- A frame mapped by a user page: it is no table, and its count is right. -/
theorem mapped (hroot : root ∈ live) {f : Frame} (hf : userFrame (pageEntry s root va) = some f) :
    f.toNat < s.frames.nrPages ∧ s.frames.memMap f.toNat = 1 ∧ label f = none ∧
      s.pageRefCount f = uses (view s live) f := by
  obtain ⟨-, huser, -⟩ := userFrame_eq_some.mp hf
  have hlow := (h.pages root hroot va).2 huser
  have hx := (view_slotOf hroot hlow).trans hf
  obtain ⟨hlt, hmap, hlabel, -⟩ := h.ledger.mapped _ f hx
  refine ⟨hlt, hmap, hlabel, ?_⟩
  rw [pageRefCount, Frames.pageRefCount, if_pos hlt]
  exact h.ledger.refs _ f hx

end

end Sane

end Shitix.Paging
