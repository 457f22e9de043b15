import Shitix.Sharing.Run

/-!
# Copy-on-write isolation

What the accounts of `Ledger` mean in terms of what the hardware and the rest of
the kernel see: the translations of the pages of all live address spaces, the
sharing count of a frame and the free list.
-/

namespace Shitix.Paging

open Mem Syscall

/-- The user pages that map a frame, each an address space and a page number. -/
def mappings (vm : Vm) (f : Frame) : Set (Frame × ℕ) :=
  { x | x.1 ∈ vm.live ∧ x.2 < 2 ^ 36 ∧ isUserMapped vm.mem x.1 (x.2 * 4096) = true ∧
    translate vm.mem x.1 (x.2 * 4096) = some (f.toNat * 4096) }

/-- User mode may write to the page. -/
def UserWritable (s : Mem) (x : Frame × ℕ) : Prop :=
  ∃ flags, getPageFlags s x.1 (x.2 * 4096) = some flags ∧ flags.rw = true

/-- Shared pages are counted, written by nobody, and freed with their last mapping.
`origin` are the frames as they were before the first process. -/
structure CowIsolated (origin : Frames) (vm : Vm) : Prop where
  /-- the sharing count of a mapped frame is the number of its mappings -/
  counted : ∀ f, (mappings vm f).Nonempty → vm.mem.pageRefCount f = (mappings vm f).ncard
  /-- a page that may be written is mapped in no other address space -/
  exclusive : ∀ f, ∀ x ∈ mappings vm f, UserWritable vm.mem x → ∀ y ∈ mappings vm f, y.1 = x.1
  /-- a mapped frame came from the allocator and is not free -/
  held : ∀ f, (mappings vm f).Nonempty →
    f.toNat ∈ origin.free ∧ f.toNat ∉ vm.mem.frames.free
  /-- a frame from the allocator that is neither mapped nor a page table is free again -/
  returned : ∀ f : Frame, f.toNat ∈ origin.free → mappings vm f = ∅ →
    (∀ r ∈ vm.live, f ∉ tablePages vm.mem r) → f.toNat ∈ vm.mem.frames.free

section Accounts

variable {vm : Vm} {origin : Frames} {label : Frame → Option Label} {f : Frame}

/-- The mappings of a frame are the slots that map it. -/
theorem mappings_eq (h : Sane vm.mem vm.live label origin) (f : Frame) :
    mappings vm f = (fun x : Slot => (x.1, x.2.val)) '' { x | view vm.mem vm.live x = some f } := by
  ext ⟨r, v⟩
  constructor
  · rintro ⟨hr, hv, hmapped, htranslate⟩
    dsimp only at hr hv hmapped htranslate
    obtain ⟨hpresent, huser⟩ := user_of_isUserMapped h hr hmapped
    have hlow : LowerHalf (v * 4096) := (h.pages r hr _).2 huser
    have hpage : vpage (v * 4096) = v := by
      simp only [vpage]
      omega
    have hv' : v < 2 ^ 35 := by rwa [LowerHalf, hpage] at hlow
    refine ⟨(r, ⟨v, hv'⟩), ?_, rfl⟩
    rw [translate_eq h.tables (h.space r hr), if_pos hpresent, Option.some_inj] at htranslate
    have hframe : (pageEntry vm.mem r (v * 4096)).frame = f := BitVec.eq_of_toNat_eq (by omega)
    rw [Set.mem_ofPred_eq, view, if_pos hr]
    exact userFrame_eq_some.mpr ⟨hpresent, huser, hframe⟩
  · rintro ⟨⟨r', v'⟩, hview, heq⟩
    cases heq
    have hr : r' ∈ vm.live := mem_of_view hview
    rw [Set.mem_ofPred_eq, view, if_pos hr] at hview
    obtain ⟨hpresent, huser, hframe⟩ := userFrame_eq_some.mp hview
    refine ⟨hr, lt_trans v'.isLt (by norm_num), ?_, ?_⟩
    · rw [isUserMapped_eq h.tables (h.space _ hr), hpresent, huser]
      rfl
    · rw [translate_eq h.tables (h.space _ hr), if_pos hpresent, hframe]
      simp

theorem ncard_mappings (h : Sane vm.mem vm.live label origin) (f : Frame) :
    (mappings vm f).ncard = uses (view vm.mem vm.live) f := by
  have hinjective : Function.Injective fun x : Slot => (x.1, x.2.val) := by
    rintro ⟨r, v⟩ ⟨r', v'⟩ heq
    obtain ⟨hr, hv⟩ := Prod.mk.inj heq
    exact Prod.ext hr (Fin.ext hv)
  have hset : { x | view vm.mem vm.live x = some f } =
      ((Finset.univ.filter fun x => view vm.mem vm.live x = some f : Finset Slot) : Set Slot) := by
    simp
  rw [mappings_eq h, Set.ncard_image_of_injective _ hinjective, hset, Set.ncard_coe_finset]
  rfl

/-- Right accounts are isolation. -/
theorem VmSane.cowIsolated (h : VmSane origin vm) (horigin : origin.Consistent) :
    CowIsolated origin vm := by
  obtain ⟨label, hsane⟩ := h.sane
  have hconsistent := hsane.tables.consistent
  have hslot : ∀ f x, x ∈ mappings vm f → ∃ y : Slot, view vm.mem vm.live y = some f ∧
      (y.1, y.2.val) = x := fun f x hx => by rwa [mappings_eq hsane] at hx
  refine ⟨fun f hf => ?_, fun f x hx hwrite y hy => ?_, fun f hf => ?_,
    fun f hf hunmapped htables => ?_⟩
  · obtain ⟨x, hx⟩ := hf
    obtain ⟨y, hy, -⟩ := hslot f x hx
    rw [ncard_mappings hsane, pageRefCount, Frames.pageRefCount,
      if_pos (hsane.ledger.mapped y f hy).1]
    exact hsane.ledger.refs y f hy
  · obtain ⟨a, ha, rfl⟩ := hslot f x hx
    obtain ⟨b, hb, rfl⟩ := hslot f y hy
    have hlive := mem_of_view ha
    -- the flags of the page are those of its entry
    have hrw : writable vm.mem vm.live a = true := by
      obtain ⟨flags, hflags, hrw⟩ := hwrite
      rw [view, if_pos hlive] at ha
      obtain ⟨hpresent, huser, -⟩ := userFrame_eq_some.mp ha
      rw [getPageFlags_of_user hsane.tables (hsane.space _ hlive) hpresent huser,
        Option.some_inj] at hflags
      rw [writable, decide_eq_true hlive, Bool.true_and, ← hrw, ← hflags]
    have hone := hsane.ledger.exclusive a f ha hrw
    rw [eq_of_uses_eq_one hone ha hb]
  · obtain ⟨x, hx⟩ := hf
    obtain ⟨y, hy, -⟩ := hslot f x hx
    obtain ⟨hlt, hmap, -, hnot⟩ := hsane.ledger.mapped y f hy
    refine ⟨(horigin.mem_iff _ (hsane.ledger.nrPages ▸ hlt)).mpr (not_not.mp hnot), fun hfree => ?_⟩
    have := (hconsistent.mem_iff _ hlt).mp hfree
    omega
  · have hlt : f.toNat < vm.mem.frames.nrPages :=
      hsane.ledger.nrPages.symm ▸ horigin.managed _ hf
    have hnot : ¬ HeldAtBoot origin f :=
      not_not.mpr ((horigin.mem_iff _ (horigin.managed _ hf)).mp hf)
    rw [hconsistent.mem_iff _ hlt]
    by_contra hheld
    rcases hsane.ledger.noLeak f hlt hheld with hboot | hlabel | ⟨x, hx⟩
    · exact hnot hboot
    · obtain ⟨l, hl⟩ := Option.ne_none_iff_exists'.mp hlabel
      cases l with
      | own r height pre =>
        exact htables r (hsane.owner f r height pre hl)
          (Owns.mem_tablePages hsane.tables ⟨height, pre, hl⟩)
      | shared height pre => exact hnot (hsane.ledger.sharedTables f height pre hl)
    · have hmem : (x.1, x.2.val) ∈ mappings vm f := by
        rw [mappings_eq hsane]
        exact ⟨x, hx, rfl⟩
      rw [hunmapped] at hmem
      exact hmem

end Accounts

/-- In every run of careful steps from the state the kernel boots into, shared pages
are counted, written by nobody and freed with their last mapping. -/
theorem careful_run_cowIsolated (s : Mem) (hboot : Bootable s.frames) (ops : List VmOp)
    (hcareful : Guarded Vm.stepOk Careful ops (Vm.boot s)) :
    ∃ vm, run Vm.stepOk ops (Vm.boot s) = .ok vm ∧ CowIsolated s.frames vm := by
  have hstep : ∀ vm op, VmSane s.frames vm → Careful vm op →
      ∃ next, Vm.stepOk vm op = .ok next ∧ VmSane s.frames next :=
    fun vm op hsane hguard => ⟨vm.step op, rfl, hsane.step hguard⟩
  obtain ⟨vm, hrun, hsane⟩ := run_invariant hstep (VmSane.boot hboot) hcareful
  exact ⟨vm, hrun, hsane.cowIsolated hboot.consistent⟩

/-! ## A small machine -/

/-- A machine with sixteen frames above the first megabyte. -/
def smallFrames : Frames where
  free := List.range' 256 16
  memMap := fun pfn => if 256 ≤ pfn then 0 else PageAlloc.mapPageReserved
  pageRef := fun _ => 0
  nrPages := 272

/-- Its memory, before the boot tables are built. -/
def smallMem : Mem where
  word := fun _ _ => 0
  frames := smallFrames
  bounded := ⟨by decide, by decide⟩

theorem smallFrames_bootable : Bootable smallFrames where
  consistent := {
    nodup := by decide
    managed := by decide
    mem_iff := fun pfn hpfn => by
      have hnonzero : PageAlloc.mapPageReserved ≠ 0 := by decide
      simp only [smallFrames, List.mem_range'_1] at hpfn ⊢
      split_ifs <;> omega
    usable := fun pfn _ husable => by
      by_contra hlow
      rw [show smallFrames.memMap pfn = PageAlloc.mapPageReserved from if_neg hlow] at husable
      cases husable }
  low := by decide

/-- A process with a page at 512 GiB. -/
def smallStart : List VmOp := [.spawn 0 0, .map 0 0x8000000000 true]

/-- It forks; the child writes to the page, the parent unmaps it and exits. -/
def smallRun : List VmOp :=
  smallStart ++ [.fork 0, .writeFault 0 0x8000000000, .munmap 1 0x8000000000 4096, .exit 1]

theorem pml4_eq {vm : Vm} {i : ℕ} {t : Task} {pml4 : Frame} (ht : vm.tasks[i]? = some t)
    (hlive : vm.live[i]? = some pml4) : t.pml4 = pml4 := by
  rw [Vm.live, List.getElem?_map, ht] at hlive
  exact Option.some.inj hlive

/-- The tables of the process take the frames 256 to 262 at most. -/
theorem tablePages_smallStart {vm : Vm} (hsane : VmSane smallFrames vm) {r : Frame}
    (hr : r ∈ vm.live) (hnr : vm.mem.frames.nrPages = 272)
    (hheld : ∀ pfn < 272, vm.mem.frames.memMap pfn = 1 → pfn ∈ List.range' 256 7) :
    (tablePages vm.mem r).ncard ≤ 7 := by
  obtain ⟨label, hsane⟩ := hsane.sane
  have hsubset : (tablePages vm.mem r).image BitVec.toNat ⊆
      ((List.range' 256 7).toFinset : Set ℕ) := by
    rintro _ ⟨t, ht, rfl⟩
    obtain ⟨height, pre, hl⟩ := owns_of_mem_tablePages hsane.tables (hsane.space r hr) ht
    have hlt := hsane.tables.managed t _ hl
    rw [Finset.mem_coe, List.mem_toFinset]
    exact hheld _ (hnr ▸ hlt) (hsane.tables.own t _ _ _ hl)
  calc (tablePages vm.mem r).ncard
      = ((tablePages vm.mem r).image BitVec.toNat).ncard :=
        (Set.ncard_image_of_injective _ fun _ _ => BitVec.eq_of_toNat_eq).symm
    _ ≤ (((List.range' 256 7).toFinset : Finset ℕ) : Set ℕ).ncard :=
        Set.ncard_le_ncard hsubset (Finset.finite_toSet _)
    _ = 7 := by rw [Set.ncard_coe_finset]; decide

/-- The condition on a run, step by step. -/
theorem guarded_cons {vm : Vm} {op : VmOp} {ops : List VmOp} (hop : Careful vm op)
    (hrest : Guarded Vm.stepOk Careful ops (vm.step op)) :
    Guarded Vm.stepOk Careful (op :: ops) vm :=
  ⟨hop, fun _ hstep => Except.ok.inj hstep ▸ hrest⟩

theorem careful_run_cowIsolated_small :
    ∃ vm, run Vm.stepOk smallRun (Vm.boot smallMem) = .ok vm ∧ CowIsolated smallMem.frames vm := by
  refine careful_run_cowIsolated smallMem smallFrames_bootable smallRun ?_
  have hspawn : Careful (Vm.boot smallMem) (.spawn 0 0) := fun t ht => trivial
  have hmap : Careful ((Vm.boot smallMem).step (.spawn 0 0)) (.map 0 0x8000000000 true) := by
    intro t ht
    have hpml4 : t.pml4 = 256 := pml4_eq ht (by decide +kernel)
    rw [CarefulCall, hpml4]
    exact ⟨by decide, by decide +kernel⟩
  have hsane := ((VmSane.boot smallFrames_bootable).step hspawn).step hmap
  refine guarded_cons hspawn (guarded_cons hmap (guarded_cons (fun t ht => .inr ?_)
    (guarded_cons (fun t ht => trivial) (guarded_cons (fun t ht va hva _ => ?_)
      (guarded_cons (fun t ht => trivial) trivial)))))
  · have hfew := tablePages_smallStart hsane (VmSane.mem_live ht) (by decide +kernel)
      (by decide +kernel)
    exact hfew.trans (by decide +kernel)
  -- the parent's page is its own again after the child took its copy
  have hpml4 : t.pml4 = 256 := pml4_eq ht (by decide +kernel)
  obtain rfl : va = 0x8000000000 := by simpa [pageRange, pageCount, wrapAdd] using hva
  rw [hpml4]
  refine ⟨by decide +kernel, fun phys hphys => ?_⟩
  obtain rfl : 0x103000 = phys := by
    refine Option.some.inj (trans ?_ hphys)
    decide +kernel
  decide +kernel

/-- A process unmaps the address of the kernel's identity map that has the number of
its own page: the page is freed and stays mapped. -/
theorem munmap_identity_not_cowIsolated :
    ∃ vm, run Vm.stepOk (smallStart ++ [.munmap 0 0x103000 4096]) (Vm.boot smallMem) = .ok vm ∧
      ¬ CowIsolated smallMem.frames vm := by
  refine ⟨_, rfl, fun h => (h.held 259 ⟨(256, 0x8000000), ?_⟩).2 ?_⟩
  · exact ⟨by decide +kernel, by decide, by decide +kernel, by decide +kernel⟩
  · decide +kernel

end Shitix.Paging
