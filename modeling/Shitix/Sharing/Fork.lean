import Shitix.Sharing.ForkRoom

/-!
# Fork

`cow_copy_page_table` goes through the user pages of the parent in the order of
their addresses.  `Copying` is the state when it has come to page `k`: the
accounts are right with the child as one more address space, whose pages so far
lie below `k` and map the frames that the parent maps at the same addresses.  As
no frame occurs twice in the parent, the child does not yet map the frame of the
page to come, and sharing it keeps the accounts (`Copying.cowLeaf`).
-/

namespace Shitix.Paging

open Mem Function List

/-- The copy of `src` to `dst` has come to page `k`. -/
structure Copying (s₀ : Mem) (label₀ : Frame → Option Label) (live : List Frame)
    (origin : Frames) (src dst : Frame) (k : ℕ) (s : Mem) (label : Frame → Option Label) :
    Prop where
  sane : Sane s (dst :: live) label origin
  plan : Plan s₀ label₀ src dst s label
  copied : ∀ v f, view s (dst :: live) (dst, v) = some f →
    v.val < k ∧ view s (dst :: live) (src, v) = some f

variable {s₀ s s' : Mem} {label₀ label label' : Frame → Option Label} {live : List Frame}
  {origin : Frames} {src dst f : Frame} {va k pre : ℕ}

theorem Copying.mono (h : Copying s₀ label₀ live origin src dst k s label) {k' : ℕ}
    (hk : k ≤ k') : Copying s₀ label₀ live origin src dst k' s label :=
  ⟨h.sane, h.plan, fun v f hv =>
    ⟨lt_of_lt_of_le (h.copied v f hv).1 hk, (h.copied v f hv).2⟩⟩

/-! ## One page -/

/-- A frame is shared by no more address spaces than there are. -/
theorem Ledger.uses_le {map : Slot → Option Frame} {rw : Slot → Bool} {frames : Frames}
    (h : Ledger map rw frames label origin) {spaces : List Frame}
    (hspaces : ∀ x f, map x = some f → x.1 ∈ spaces) (f : Frame) : uses map f ≤ spaces.length := by
  refine (uses_le_card Prod.fst spaces.toFinset
    (fun x hx => mem_toFinset.mpr (hspaces x f hx)) ?_).trans spaces.toFinset_card_le
  rintro ⟨r, v⟩ ⟨r', v'⟩ hx hx' heq
  subst heq
  rw [h.once r v v' f hx hx']

theorem mem_of_view {x : Slot} (h : view s live x = some f) : x.1 ∈ live := by
  unfold view at h
  split_ifs at h with hmem
  exact hmem

section Copy

variable (htables₀ : Tables s₀ label₀) (hsrc : src ∈ live) (hdst : dst ∉ live)
  (hfew : live.length < 65534) (henough : (tablePages s₀ src).ncard ≤ s₀.frames.free.length)
  {pt : Frame}

include hsrc hdst in
theorem dst_ne_src : dst ≠ src := fun heq => hdst (heq ▸ hsrc)

/-- The child has nothing yet where the copy has come to. -/
theorem Copying.vacant (h : Copying s₀ label₀ live origin src dst k s label)
    (hlow : LowerHalf va) (hk : vpage va = k) : userFrame (pageEntry s dst va) = none := by
  by_contra hsome
  obtain ⟨f, hf⟩ := Option.ne_none_iff_exists'.mp hsome
  have hview : view s (dst :: live) (slotOf dst va hlow) = some f := by
    rw [view_slotOf mem_cons_self, hf]
  have := (h.copied _ f hview).1
  simp only at this
  omega

include htables₀ hsrc hdst henough

/-- The copy never fails for want of a table. -/
theorem Copying.no_room (hplan : Plan s₀ label₀ src dst s label) (htables : Tables s label)
    (htables' : Tables s' label') (halloc : Alloc (Within dst va) s label s' label')
    (hlow : LowerHalf va) (hpt : label pt = some (.own src 0 (vpage va / 512)))
    (hfree : s'.frames.free = []) (hmissing : ∀ pt, walk s' dst va ≠ .table pt) : False :=
  (hplan.alloc htables htables' halloc (dst_ne_src hsrc hdst) hlow hpt).room htables₀ htables'
    henough hfree (halloc.keeps pt _ hpt) hmissing

theorem Copying.reserve (h : Copying s₀ label₀ live origin src dst k s label) (hlow : LowerHalf va)
    (hk : vpage va = k) (hpt : label pt = some (.own src 0 (vpage va / 512))) {prot : Flags}
    (huser : prot.user = true) : ∃ s' label', mapReserved s dst va prot = (true, s') ∧
      Copying s₀ label₀ live origin src dst (k + 1) s' label' := by
  have hmem : dst ∈ dst :: live := mem_cons_self
  have hvacant := h.vacant hlow hk
  obtain ⟨s', label', hsane, halloc, ⟨-, -, hfree, hmissing⟩ | ⟨hdone, hrewritten⟩⟩ :=
    h.sane.mapReserved hmem hlow hvacant huser
  · exact (no_room htables₀ hsrc hdst henough h.plan h.sane.tables hsane.tables halloc hlow
      hpt hfree hmissing).elim
  refine ⟨s', label', hdone, hsane, h.plan.alloc h.sane.tables hsane.tables halloc
    (dst_ne_src hsrc hdst) hlow hpt, ?_⟩
  have hview := (hrewritten.view hmem hlow).1
  have hx := (view_slotOf hmem hlow).trans hvacant
  rw [show userFrame (reservedEntry prot) = none from rfl, ← hx, update_eq_self] at hview
  rw [hview]
  exact fun v f hv => ⟨Nat.lt_succ_of_lt (h.copied v f hv).1, (h.copied v f hv).2⟩

include hfew

/-- A mapped page is shared with the child. -/
theorem Copying.share (h : Copying s₀ label₀ live origin src dst k s label) (hlow : LowerHalf va)
    (hk : vpage va = k) (hpt : label pt = some (.own src 0 (vpage va / 512)))
    (hf : userFrame (pageEntry s src va) = some f) (hres : (pageEntry s src va).reserved = false) :
    ∃ s' label', mapPage (setPageFlags (s.pageRefInc f) src va (cowFlags (pageEntry s src va))).2
        dst va f (cowFlags (pageEntry s src va)) = (true, s') ∧
      Copying s₀ label₀ live origin src dst (k + 1) s' label' := by
  have hne := dst_ne_src hsrc hdst
  have hmem : src ∈ dst :: live := mem_cons_of_mem _ hsrc
  have hmemDst : dst ∈ dst :: live := mem_cons_self
  obtain ⟨hpresent, huser, hframe⟩ := userFrame_eq_some.mp hf
  have hvacant := h.vacant hlow hk
  have hxs := (view_slotOf hmem hlow).trans hf
  have hxd : view s (dst :: live) (slotOf dst va hlow) = none := by
    rw [view_slotOf hmemDst, hvacant]
  -- the accounts: the parent loses the right to write, then the child joins in
  have hledger₁ : Ledger (view s (dst :: live)) (update (writable s (dst :: live))
      (slotOf src va hlow) false) s.frames label origin :=
    h.sane.ledger.retag nofun
  have hledger₂ := hledger₁.share hxd hxs ?_ ?_ ?_
  rotate_left
  · -- the child maps the frame nowhere yet
    intro v hv
    obtain ⟨hlt, hsame⟩ := h.copied v f hv
    have heq := h.sane.ledger.once src v _ f hsame hxs
    rw [heq] at hlt
    simp only at hlt
    omega
  · intro z hz
    by_cases heq : z = slotOf src va hlow
    · rw [heq, update_self]
    · rw [update_of_ne heq]
      by_contra hw
      have hone := h.sane.ledger.exclusive z f hz (by simpa using hw)
      exact heq (eq_of_uses_eq_one hone hxs hz)
  · have := h.sane.ledger.uses_le (fun x g hx => mem_of_view hx) f
    simp only [length_cons] at this
    omega
  -- the writes
  have horderly₁ := h.sane.pageRefInc f
  have hspace := horderly₁.space src hmem
  have hflags₁ : getPageFlags (s.pageRefInc f) src va ≠ none := by
    rw [getPageFlags_of_user horderly₁.tables hspace hpresent huser]
    exact Option.some_ne_none _
  rcases setPageFlags_spec horderly₁.tables hspace va
      (show (cowFlags (pageEntry s src va)).reserved = false from hres) with
    ⟨-, hnone⟩ | ⟨s₂, hs₂, -, -, hframes₂, -, hput₂⟩
  · exact absurd hnone hflags₁
  have horderly₂ := horderly₁.of_put hput₂ hlow hmem fun hres' =>
    absurd (hres.symm.trans hres') (by decide)
  have hplan₂ : Plan s₀ label₀ src dst s₂ label := by
    obtain ⟨hnr, hmap, -⟩ := h.sane.tables.consistent.pageRefInc f.toNat
    refine h.plan.congr (fun g => ?_) ?_
    · rw [hframes₂]
      exact congrFun hmap _
    · rw [hframes₂]
      exact hnr
  rw [hs₂]
  obtain ⟨s₃, label', ⟨-, hgrown, hfree, hmissing⟩ | ⟨hdone, hput₃⟩⟩ :=
    mapPage_spec horderly₂.tables (horderly₂.space dst hmemDst) va f
      (show (cowFlags (pageEntry s src va)).reserved = false from hres)
  · exact (no_room htables₀ hsrc hdst henough hplan₂ horderly₂.tables hgrown.tables
      hgrown.toAlloc hlow hpt hfree hmissing).elim
  -- the slots afterwards
  obtain ⟨hview₂, hwritable₂⟩ := (hput₂.rewritten hlow horderly₁.space).view hmem hlow
  have hframe₂ : (pageEntry (s.pageRefInc f) src va).frame = f := hframe
  have huserCow : (cowFlags (pageEntry s src va)).user = true := rfl
  rw [hframe₂, userFrame_present huserCow] at hview₂
  have hview₂' : view s₂ (dst :: live) = view s (dst :: live) := by
    rw [hview₂, ← hxs]
    exact update_eq_self _ _
  have hview₃ := ((hput₃.rewritten hlow horderly₂.space).view hmemDst hlow).1
  rw [hview₂'] at hview₃
  refine ⟨s₃, label', hdone, ?_, hplan₂.alloc horderly₂.tables hput₃.tables hput₃.toAlloc hne hlow
    hpt, ?_⟩
  · refine horderly₂.put hput₃ hlow hmemDst (fun hres' => ?_) ?_
    · exact absurd (hres.symm.trans hres') (by decide)
    · rw [hview₂', hwritable₂]
      have hframes : (s.frames.pageRefInc f.toNat) = s₂.frames := hframes₂.symm
      rw [hframes] at hledger₂
      exact hledger₂.alloc hput₃.toAlloc hlow
  · intro v g hv
    have hsame : view s₃ (dst :: live) (src, v) = view s (dst :: live) (src, v) := by
      rw [hview₃, update_of_ne]
      exact fun heq => hne (congrArg Prod.fst heq).symm
    rw [hsame]
    rw [hview₃] at hv
    by_cases heq : (dst, v) = slotOf dst va hlow
    · rw [heq, update_self] at hv
      obtain rfl : v = ⟨vpage va, hlow⟩ := congrArg Prod.snd heq
      cases hv
      exact ⟨by simp only; omega, hxs⟩
    · rw [update_of_ne heq] at hv
      exact ⟨Nat.lt_succ_of_lt (h.copied v g hv).1, (h.copied v g hv).2⟩

/-- The innermost body of `cow_copy_page_table`. -/
theorem Copying.cowLeaf {i : ℕ} (h : Copying s₀ label₀ live origin src dst (pre * 512 + i) s label)
    (hlow : LowerHalf va) (hva : vpage va = pre * 512 + i) (hi : i < 512)
    (hpt : label pt = some (.own src 0 pre)) :
    ∃ s' label', Paging.cowLeaf src dst va (s.entry pt i) s = (true, s') ∧
      Copying s₀ label₀ live origin src dst (pre * 512 + i + 1) s' label' := by
  have hmem : src ∈ dst :: live := mem_cons_of_mem _ hsrc
  have hpt' : label pt = some (.own src 0 (vpage va / 512)) := by rw [hva, digit_div hi, hpt]
  have hindex : ptIndex va = i := by
    rw [← digit_mod hi, ← hva]
    simp only [ptIndex, vpage]
    omega
  have hentry : s.entry pt i = pageEntry s src va := by
    rw [h.sane.tables.pageEntry_own hpt', hindex]
  unfold Paging.cowLeaf
  rw [hentry]
  by_cases hres : (pageEntry s src va).reserved = true
  · rw [if_pos hres]
    exact h.reserve htables₀ hsrc hdst henough hlow hva hpt' ((h.sane.pages src hmem va).1 hres)
  rw [if_neg hres]
  by_cases hskip : (!(pageEntry s src va).present || !(pageEntry s src va).user) = true
  · rw [if_pos hskip]
    exact ⟨s, label, rfl, h.mono (Nat.le_succ _)⟩
  · rw [if_neg hskip]
    have hboth : (pageEntry s src va).present = true ∧ (pageEntry s src va).user = true := by
      simpa using hskip
    exact h.share htables₀ hsrc hdst hfew henough hlow hva hpt'
      (userFrame_eq_some.mpr ⟨hboth.1, hboth.2, rfl⟩) (by simpa using hres)

end Copy

/-! ## The loops -/

/-- The copy has come to page `k`, with some labelling of the tables. -/
def CopyInv (s₀ : Mem) (label₀ : Frame → Option Label) (live : List Frame)
    (origin : Frames) (src dst : Frame) (k : ℕ) (s : Mem) : Prop :=
  ∃ label, Copying s₀ label₀ live origin src dst k s label

/-- The first page with the given leading digits, when `n` more digits follow. -/
def firstPage (n pre : ℕ) : ℕ := pre * 512 ^ n

theorem firstPage_succ (n pre : ℕ) : firstPage (n + 1) pre = firstPage n (pre * 512) := by
  rw [firstPage, firstPage, pow_succ', mul_assoc]

theorem firstPage_zero (pre : ℕ) : firstPage 0 pre = pre := by
  rw [firstPage, pow_zero, mul_one]

/-- What the loops below a table of the parent achieve: they come to the end of its
pages, without failing. -/
def CopySpec (s₀ : Mem) (label₀ : Frame → Option Label) (live : List Frame)
    (origin : Frames) (src dst : Frame) (n pre : ℕ) (body : Frame → Mem → Bool × Mem) :
    Prop :=
  ∀ t s, label₀ t = some (.own src n pre) →
    CopyInv s₀ label₀ live origin src dst (firstPage (n + 1) pre) s →
    Outcome (CopyInv s₀ label₀ live origin src dst (firstPage (n + 1) (pre + 1)))
      (fun _ => False) (body t s)

section Loops

variable (htables₀ : Tables s₀ label₀) (hsrc : src ∈ live) (hdst : dst ∉ live)

theorem vpage_vaddrOf {a b c i : ℕ} (ha : a < 256) (hb : b < 512) (hc : c < 512) (hi : i < 512) :
    vpage (vaddrOf a b c i) = ((a * 512 + b) * 512 + c) * 512 + i := by
  simp only [vpage, vaddrOf]
  omega

include htables₀ hsrc hdst in
theorem cowPt_spec (hfew : live.length < 65534)
    (henough : (tablePages s₀ src).ncard ≤ s₀.frames.free.length) {a b c : ℕ} (ha : a < 256)
    (hb : b < 512) (hc : c < 512) (hpre : pre = (a * 512 + b) * 512 + c) :
    CopySpec s₀ label₀ live origin src dst 0 pre (cowPt src dst a b c) := by
  intro pt s hpt hstart
  have hend : firstPage (0 + 1) (pre + 1) = firstPage 0 (pre * 512 + 512) := by
    rw [firstPage_succ, add_mul]
  rw [hend]
  refine forEach_range (fun i s => CopyInv s₀ label₀ live origin src dst
    (firstPage 0 (pre * 512 + i)) s) ?_ fun i s hi hinv => ?_
  · rw [add_zero, ← firstPage_succ]
    exact hstart
  · rw [firstPage_zero] at hinv
    obtain ⟨label, h⟩ := hinv
    have hva : vpage (vaddrOf a b c i) = pre * 512 + i := by
      rw [vpage_vaddrOf ha hb hc hi, hpre]
    have hlow : LowerHalf (vaddrOf a b c i) := by
      rw [LowerHalf]
      omega
    obtain ⟨s', label', hdone, hcopying⟩ := h.cowLeaf htables₀ hsrc hdst hfew henough hlow hva
      hi ((h.plan.source pt _ _).mpr hpt)
    rw [hdone, firstPage_zero, ← add_assoc]
    exact .of_done ⟨label', hcopying⟩

/-- The loop over a table, given what the inner loops achieve. -/
theorem cowTable_spec {n size : ℕ} {huge : Bool} {below : ℕ → Frame → Mem → Bool × Mem}
    (hbelow : ∀ i < size, CopySpec s₀ label₀ live origin src dst n (pre * 512 + i) (below i))
    (hsize : size ≤ 512) (hsize' : n = 2 → size ≤ 256) (hhuge : huge = true ∨ n = 2) {t : Frame}
    (ht : label₀ t = some (.own src (n + 1) pre))
    (hstart : CopyInv s₀ label₀ live origin src dst (firstPage (n + 2) pre) s) :
    Outcome (CopyInv s₀ label₀ live origin src dst (firstPage (n + 1) (pre * 512 + size)))
      (fun _ => False) (cowTable t size huge below s) := by
  refine forEach_range (fun i s => CopyInv s₀ label₀ live origin src dst
    (firstPage (n + 1) (pre * 512 + i)) s) ?_ fun i s hi hinv => ?_
  · rw [add_zero (pre * 512), ← firstPage_succ]
    exact hstart
  · have hskip : CopyInv s₀ label₀ live origin src dst
        (firstPage (n + 1) (pre * 512 + (i + 1))) s := by
      obtain ⟨label, h⟩ := hinv
      exact ⟨label, h.mono (Nat.mul_le_mul_right _ (by omega))⟩
    dsimp only
    split_ifs with habsent hishuge
    · exact .of_done hskip
    · exact .of_done hskip
    · obtain ⟨label, h⟩ := hinv
      have hl : label t = some (.own src (n + 1) pre) := (h.plan.source t _ _).mpr ht
      have hi' : i < 512 := by omega
      have hpresent : (s.entry t i).present = true := by
        simp only [Bool.or_eq_true, Bool.not_eq_true', not_or, Bool.not_eq_false] at habsent
        exact habsent.1
      have hflat : (s.entry t i).huge = false := by
        rcases hhuge with rfl | rfl
        · simpa using hishuge
        · exact h.sane.tables.flat t _ i hl (by simp [Label.height]) hi' hpresent
      have hslot : (slots s).slot (n + 1) t i = .inl (s.entry t i).frame := by
        simp [slots, hpresent, hflat]
      have hchild := h.sane.tables.child_own hl hi' (fun hn => lt_of_lt_of_le hi (hsize' hn)) hslot
      have hnext := hbelow i hi _ s ((h.plan.source _ _ _).mp hchild) ⟨label, h⟩
      rwa [add_assoc] at hnext

include htables₀ hsrc hdst in
/-- `cow_copy_page_table` with enough free frames succeeds and keeps the accounts. -/
theorem cowCopyPageTable_spec (hfew : live.length < 65534)
    (henough : (tablePages s₀ src).ncard ≤ s₀.frames.free.length) (hspace : Space label₀ src)
    (hstart : CopyInv s₀ label₀ live origin src dst 0 s) :
    ∃ s' label', cowCopyPageTable s src dst = (true, s') ∧
      Sane s' (dst :: live) label' origin := by
  have hpt : ∀ a < 256, ∀ b < 512, ∀ c < 512, CopySpec s₀ label₀ live origin src dst 0
      ((a * 512 + b) * 512 + c) (cowPt src dst a b c) := by
    intro a ha b hb c hc
    exact cowPt_spec htables₀ hsrc hdst hfew henough ha hb hc rfl
  have hpd : ∀ a < 256, ∀ b < 512, CopySpec s₀ label₀ live origin src dst 1 (a * 512 + b)
      fun pd => cowTable pd 512 true fun c pt => cowPt src dst a b c pt := by
    intro a ha b hb pd s hpd hinv
    rw [firstPage_succ, add_mul (a * 512 + b)]
    exact cowTable_spec (hpt a ha b hb) le_rfl (fun hn => by omega) (.inl rfl) hpd hinv
  have hpdpt : ∀ a < 256, CopySpec s₀ label₀ live origin src dst 2 (0 * 512 + a)
      fun pdpt => cowTable pdpt 512 true fun b pd => cowTable pd 512 true fun c pt =>
        cowPt src dst a b c pt := by
    intro a ha pdpt s hpdpt hinv
    rw [zero_mul, zero_add] at hpdpt hinv ⊢
    rw [firstPage_succ 2 (a + 1), add_mul]
    exact cowTable_spec (hpd a ha) le_rfl (fun hn => by omega) (.inl rfl) hpdpt hinv
  have hall : Outcome (CopyInv s₀ label₀ live origin src dst (firstPage (2 + 1) (0 * 512 + 256)))
      (fun _ => False) (cowCopyPageTable s src dst) :=
    cowTable_spec hpdpt (by omega) (fun _ => le_rfl) (.inr rfl) hspace
      (by rwa [firstPage, zero_mul])
  cases hdone : (cowCopyPageTable s src dst).1 with
  | true =>
    obtain ⟨label', h⟩ := hall.done hdone
    exact ⟨_, label', Prod.ext hdone rfl, h.sane⟩
  | false => exact (hall.failed hdone).elim

end Loops

/-! ## All of it -/

/-- The address space of a child: a new one and a copy of the parent's, or none. -/
def forkSpace (s : Mem) (src : Frame) : Option Frame × Mem :=
  match newSpace s with
  | (none, s) => (none, s)
  | (some dst, s) =>
    match cowCopyPageTable s src dst with
    | (false, s) => (none, s.freePage dst)
    | (true, s) => (some dst, s)

section NewTables

variable {pdpt pd : Frame} (hnew : NewTables s s' dst pdpt pd)
include hnew

/-- A new address space takes three frames. -/
theorem NewTables.three_free (hconsistent : s.frames.Consistent) : 3 ≤ s.frames.free.length := by
  obtain ⟨h₁, h₂, h₃⟩ := hnew.distinct
  have hnodup : ([pd, pdpt, dst].map BitVec.toNat).Nodup := by
    refine List.Nodup.map (fun f g => BitVec.eq_of_toNat_eq) ?_
    simp [h₁.symm, h₂.symm, h₃.symm]
  have hsubset : [pd, pdpt, dst].map BitVec.toNat ⊆ s.frames.free := by
    intro pfn hpfn
    obtain ⟨f, hf, rfl⟩ := mem_map.mp hpfn
    obtain ⟨hzero, -, hlt⟩ := hnew.borrowed.taken f hf
    exact (hconsistent.mem_iff _ hlt).mpr hzero
  exact (subperm_of_subset hnodup hsubset).length_le

/-- The start of the copy. -/
theorem NewTables.copyInv (h : Sane s live label origin) (hsrc : src ∈ live) :
    CopyInv s label live origin src dst 0 s' := by
  have hdst := hnew.not_live h.toOrderly
  have hne := dst_ne_src hsrc hdst
  have hold := hnew.label_keeps h.toOrderly
  refine ⟨newLabels label dst pdpt pd, hnew.sane h, ⟨fun t height pre => ?_,
    fun t height pre ht => ?_, fun f hlt hzero => ?_, hnew.borrowed.nrPages⟩, fun v f hv => ?_⟩
  · refine ⟨fun ht => ?_, hold t _⟩
    rcases newLabels_new_or_old ht with ⟨-, _, _, heq⟩ | ht
    · cases heq
      exact absurd rfl hne
    · exact ht
  · obtain ⟨low, hlow⟩ := h.identity src hsrc
    rcases newLabels_cases ht with ⟨-, heq⟩ | ⟨-, heq⟩ | ⟨-, heq⟩ | ht
    · cases heq
      exact ⟨low, hold low _ hlow⟩
    · cases heq
      obtain ⟨up, hup⟩ := h.tables.ancestor hlow 1 (by omega)
      exact ⟨up, hold up _ hup⟩
    · cases heq
      exact ⟨src, hold src _ (h.space src hsrc)⟩
    · exact absurd (h.owner t dst height pre ht) hdst
  · by_cases hf : f ∈ [pd, pdpt, dst]
    · refine .inr ?_
      simp only [mem_cons, not_mem_nil, or_false] at hf
      rcases hf with rfl | rfl | rfl
      · exact ⟨1, 0, newLabels_pd⟩
      · exact ⟨2, 0, hnew.label_pdpt⟩
      · exact ⟨3, 0, hnew.label_root⟩
    · exact .inl (by rw [hnew.borrowed.rest f hf, hzero])
  · have hquiet := hnew.quiet h.toOrderly (v.val * 4096)
    rw [view, if_pos mem_cons_self, userFrame, hquiet.1, Bool.and_false] at hv
    cases hv

end NewTables

/-- `fork` keeps the accounts, provided there are frames for the tables of the child
(or not even for a new address space). -/
theorem Sane.forkSpace (h : Sane s live label origin) (hsrc : src ∈ live)
    (hfew : live.length < 65534)
    (henough : s.frames.free.length < 3 ∨ (tablePages s src).ncard ≤ s.frames.free.length) :
    ∃ s' label', Paging.forkSpace s src = (none, s') ∧ Sane s' live label' origin ∨
      ∃ dst, Paging.forkSpace s src = (some dst, s') ∧ dst ∉ live ∧
        Sane s' (dst :: live) label' origin := by
  rcases newSpace_cases h.toOrderly with
    ⟨s', hnone, hborrowed⟩ | ⟨dst, pdpt, pd, s₁, hsome, hnew⟩
  · exact ⟨s', label, .inl ⟨by rw [Paging.forkSpace, hnone], hborrowed.sane h⟩⟩
  have hdst := hnew.not_live h.toOrderly
  have hthree := hnew.three_free h.tables.consistent
  obtain ⟨s', label', hdone, hsane⟩ := cowCopyPageTable_spec h.tables hsrc hdst hfew
    (henough.resolve_left (by omega)) (h.space src hsrc) (hnew.copyInv h hsrc)
  exact ⟨s', label', .inr ⟨dst, by simp only [Paging.forkSpace, hsome, hdone], hdst, hsane⟩⟩

end Shitix.Paging
