import Mathlib.Data.Set.Card
import Shitix.Sharing.NewSpace

/-!
# Room for a copy

The copy that `fork` makes has no more tables than its original: a table of the
copy is built on the way to a page of the original, and the original has a table
in the same place.  So if there are as many free frames as the original has
tables, the copy never runs out of memory (`Plan.room`).
-/

namespace Shitix.Paging

open Mem

variable {s₀ s s' : Mem} {label₀ label label' : Frame → Option Label} {src dst t pt : Frame}
  {va : ℕ}

/-- The frames of the tables of an address space: those on the way down to some page. -/
def tablePages (s : Mem) (root : Frame) : Set Frame :=
  { t | ∃ va, LowerHalf va ∧ t ∈ (slots s).path 512 3 root (va / 4096) }

/-- `t` is a table of the address space `r`. -/
def Owns (label : Frame → Option Label) (r t : Frame) : Prop :=
  ∃ height pre, label t = some (.own r height pre)

theorem Owns.mem_tablePages (h : Tables s label) {root : Frame} (ht : Owns label root t) :
    t ∈ tablePages s root := by
  obtain ⟨n, pre, ht⟩ := ht
  have hpow : 0 < 512 ^ (n + 1) := by positivity
  have hkey : pre * 512 ^ (n + 1) * 4096 / 4096 / 512 ^ (n + 1) = pre := by
    rw [Nat.mul_div_cancel _ (by omega), Nat.mul_div_cancel _ hpow]
  refine ⟨pre * 512 ^ (n + 1) * 4096, ?_, h.path_own ht hkey⟩
  rcases (h.height_le ht).lt_or_eq with hlt | rfl
  · have hlower := h.own_lower ht hlt
    simp only [LowerHalf, vpage]
    interval_cases n <;> norm_num at hlower ⊢ <;> omega
  · obtain ⟨-, rfl⟩ := (h.rooted t root 3 pre ht).2 rfl
    decide

/-- The tables on the way down to a page of the lower half are the address space's own. -/
theorem owns_of_mem_tablePages (h : Tables s label) {root : Frame} (hroot : Space label root)
    (ht : t ∈ tablePages s root) : Owns label root t := by
  obtain ⟨va, hlow, hpath⟩ := ht
  have hupper : va / 4096 / 512 ^ (2 + 1) % 512 < 256 := by
    simp only [LowerHalf, vpage] at hlow
    norm_num at hlow ⊢
    omega
  refine Radix.forall_path (P := fun n t => ∃ pre, label t = some (.own root n pre))
    (fun n up next hslot hup => ?_) ⟨0, hroot⟩ t hpath
  obtain ⟨pre, hup⟩ := hup
  have hnext := h.labelled.child up _ n _ next hup rfl (Nat.mod_lt _ (by norm_num)) hslot
  rw [Label.step, if_neg] at hnext
  · exact ⟨_, hnext⟩
  · rintro ⟨hheight, hhigh⟩
    obtain rfl : n = 2 := by omega
    omega

/-- The state of the tables while a copy is made. -/
structure Plan (s₀ : Mem) (label₀ : Frame → Option Label) (src dst : Frame) (s : Mem)
    (label : Frame → Option Label) : Prop where
  source : ∀ t height pre,
    label t = some (.own src height pre) ↔ label₀ t = some (.own src height pre)
  mirror : ∀ t height pre, label t = some (.own dst height pre) →
    ∃ t', label t' = some (.own src height pre)
  supply : ∀ f : Frame, f.toNat < s₀.frames.nrPages → s₀.frames.memMap f.toNat = 0 →
    s.frames.memMap f.toNat = 0 ∨ Owns label dst f
  nrPages : s.frames.nrPages = s₀.frames.nrPages

namespace Plan

theorem congr (h : Plan s₀ label₀ src dst s label)
    (hmap : ∀ f : Frame, s'.frames.memMap f.toNat = s.frames.memMap f.toNat)
    (hnr : s'.frames.nrPages = s.frames.nrPages) : Plan s₀ label₀ src dst s' label :=
  ⟨h.source, h.mirror, fun f hlt hzero => by rw [hmap]; exact h.supply f hlt hzero,
    hnr.trans h.nrPages⟩

/-- Tables for a page of the copy are built where the original has them. -/
theorem alloc (h : Plan s₀ label₀ src dst s label) (htables : Tables s label)
    (htables' : Tables s' label') (halloc : Alloc (Within dst va) s label s' label')
    (hne : dst ≠ src) (hlow : LowerHalf va) (hpt : label pt = some (.own src 0 (vpage va / 512))) :
    Plan s₀ label₀ src dst s' label' := by
  -- a new table is on the way down to the page
  have hfresh : ∀ t height pre r, label t = none → label' t = some (.own r height pre) →
      r = dst ∧ pre = vpage va / 512 ^ (height + 1) := by
    intro t height pre r hnone ht
    obtain ⟨height', heq⟩ := halloc.fresh t _ hnone ht hlow
    cases heq
    exact ⟨rfl, rfl⟩
  have hcases : ∀ t l, label' t = some l → label t = some l ∨ label t = none := by
    intro t l hl
    cases hold : label t with
    | none => exact .inr rfl
    | some l' => exact .inl ((halloc.keeps t l' hold).symm.trans hl)
  refine ⟨fun t height pre => ?_, fun t height pre ht => ?_, fun f hlt hzero => ?_,
    halloc.nrPages.trans h.nrPages⟩
  · rw [← h.source]
    refine ⟨fun ht => ?_, fun ht => halloc.keeps t _ ht⟩
    rcases hcases t _ ht with hold | hnone
    · exact hold
    · exact absurd (hfresh t height pre src hnone ht).1.symm hne
  · rcases hcases t _ ht with hold | hnone
    · obtain ⟨t', ht'⟩ := h.mirror t height pre hold
      exact ⟨t', halloc.keeps t' _ ht'⟩
    · obtain ⟨-, rfl⟩ := hfresh t height pre dst hnone ht
      obtain ⟨up, hup⟩ := htables'.ancestor (halloc.keeps pt _ hpt) height
        (by rw [zero_add]; exact htables'.height_le ht)
      refine ⟨up, ?_⟩
      rwa [zero_add, Nat.div_div_eq_div_mul, ← pow_succ'] at hup
  · rcases h.supply f hlt hzero with hfree | ⟨height, pre, hown⟩
    · have hnone : label f = none := by
        by_contra hsome
        obtain ⟨l, hl⟩ := Option.ne_none_iff_exists'.mp hsome
        exact htables.held f l hl hfree
      cases hl : label' f with
      | none => exact .inl (by rw [(halloc.counts f (hl.trans hnone.symm)).1, hfree])
      | some l =>
        obtain ⟨height, heq⟩ := halloc.fresh f l hnone hl hlow
        exact .inr ⟨height, _, hl.trans (congrArg some heq)⟩
    · exact .inr ⟨height, pre, halloc.keeps f _ hown⟩

open Classical in
/-- The tables of an address space, as a finite set. -/
noncomputable def owned (label : Frame → Option Label) (r : Frame) : Finset Frame :=
  Finset.univ.filter (Owns label r)

theorem mem_owned {r : Frame} : t ∈ owned label r ↔ Owns label r t := by
  simp [owned]

/-- A copy that lacks a table of the original has fewer tables. -/
theorem card_owned_lt (h : Plan s₀ label₀ src dst s label) (htables : Tables s label)
    {height pre : ℕ} (hpt : label pt = some (.own src height pre))
    (hlacks : ∀ t, label t ≠ some (.own dst height pre)) :
    (owned label dst).card < (owned label src).card := by
  have hmirror : ∀ t, ∃ t', ∀ height pre, label t = some (.own dst height pre) →
      label t' = some (.own src height pre) := by
    intro t
    by_cases ht : Owns label dst t
    · obtain ⟨height, pre, ht⟩ := ht
      obtain ⟨t', ht'⟩ := h.mirror t height pre ht
      refine ⟨t', fun height' pre' heq => ?_⟩
      rw [ht] at heq
      cases heq
      exact ht'
    · exact ⟨t, fun height pre heq => absurd ⟨height, pre, heq⟩ ht⟩
  choose twin htwin using hmirror
  have hmem : pt ∈ owned label src := mem_owned.mpr ⟨height, pre, hpt⟩
  have hle : (owned label dst).card ≤ ((owned label src).erase pt).card := by
    refine Finset.card_le_card_of_injOn twin (fun t ht => ?_) ?_
    · obtain ⟨height', pre', ht⟩ := mem_owned.mp ht
      have htwin' := htwin t height' pre' ht
      refine Finset.mem_erase.mpr ⟨fun heq => hlacks t ?_, mem_owned.mpr ⟨height', pre', htwin'⟩⟩
      rw [heq, hpt] at htwin'
      cases htwin'
      exact ht
    · intro t ht t' ht' heq
      obtain ⟨height', pre', ht⟩ := mem_owned.mp ht
      obtain ⟨height'', pre'', ht'⟩ := mem_owned.mp ht'
      have hone := htwin t height' pre' ht
      rw [heq, htwin t' height'' pre'' ht'] at hone
      cases hone
      exact htables.own_unique ht ht'
  have := Finset.card_erase_lt_of_mem hmem
  omega

/-- The free frames, as a finite set. -/
theorem free_le_card {set : Finset Frame} (hconsistent : s.frames.Consistent)
    (hset : ∀ f : Frame, f.toNat < s.frames.nrPages → s.frames.memMap f.toNat = 0 → f ∈ set) :
    s.frames.free.length ≤ set.card := by
  have hnat : ∀ pfn ∈ s.frames.free, (BitVec.ofNat 40 pfn).toNat = pfn := by
    intro pfn hpfn
    have := s.bounded.free_lt pfn hpfn
    have := s.bounded.nrPages_le
    rw [BitVec.toNat_ofNat, Nat.mod_eq_of_lt (by omega)]
  have hnodup : (s.frames.free.map (BitVec.ofNat 40)).Nodup := by
    refine List.Nodup.map_on (fun pfn hpfn pfn' hpfn' heq => ?_) hconsistent.nodup
    rw [← hnat pfn hpfn, heq, hnat pfn' hpfn']
  rw [← List.length_map (BitVec.ofNat 40), ← List.toFinset_card_of_nodup hnodup]
  refine Finset.card_le_card fun f hf => ?_
  obtain ⟨pfn, hpfn, rfl⟩ := List.mem_map.mp (List.mem_toFinset.mp hf)
  have hlt := hconsistent.managed pfn hpfn
  refine hset _ (by rwa [hnat pfn hpfn]) ?_
  rw [hnat pfn hpfn]
  exact (hconsistent.mem_iff pfn hlt).mp hpfn

/-- With as many free frames as the original has tables, memory does not run out while
the copy still lacks a table of the original. -/
theorem room (h : Plan s₀ label₀ src dst s label) (htables₀ : Tables s₀ label₀)
    (htables : Tables s label) (henough : (tablePages s₀ src).ncard ≤ s₀.frames.free.length)
    (hfree : s.frames.free = []) (hpt : label pt = some (.own src 0 (vpage va / 512)))
    (hmissing : ∀ pt, walk s dst va ≠ .table pt) : False := by
  have hlacks : ∀ t, label t ≠ some (.own dst 0 (vpage va / 512)) := fun t ht =>
    hmissing t (htables.walk_own ht)
  have hlt := h.card_owned_lt htables hpt hlacks
  have hsupply : s₀.frames.free.length ≤ (owned label dst).card := by
    refine free_le_card htables₀.consistent fun f hf hzero => mem_owned.mpr ?_
    refine (h.supply f hf hzero).resolve_left fun hzero' => ?_
    have hmem := (htables.consistent.mem_iff f.toNat (h.nrPages.symm ▸ hf)).mpr hzero'
    rw [hfree] at hmem
    cases hmem
  have hsource : (owned label src).card ≤ (tablePages s₀ src).ncard := by
    rw [← Set.ncard_coe_finset]
    refine Set.ncard_le_ncard (fun t ht => ?_) (Set.toFinite _)
    obtain ⟨height, pre, ht⟩ := mem_owned.mp ht
    exact Owns.mem_tablePages htables₀ ⟨height, pre, (h.source t height pre).mp ht⟩
  omega

end Plan

end Shitix.Paging
