import Shitix.Sharing.Inherit

/-!
# The region below the `mmap` pointer

`mmap` without an address takes the pages just below a pointer that only moves down, and does not
look at what is there.  `Clear` says that nothing is: user mode has no page between a floor and the
pointer.  Every operation opens only the pages it was asked for (`Opens`) and a child has only the
pages of its parent, so `Clear` is kept by operations that stay out of the region: pages of a
program, of the heap and of mappings at a fixed address lie elsewhere (`StaysOut`).
-/

namespace Shitix.Paging

open Mem Syscall List

/-- User mode has no page between the floor and the pointer. -/
structure Clear (floor : ℕ) (s : Mem) (t : Task) : Prop where
  low : t.mmapBase ≤ 2 ^ 47
  empty : ∀ va, floor ≤ va → va < t.mmapBase → ¬ Accessible s t.pml4 va

/-- The page is not in the region. -/
def Outside (floor : ℕ) (t : Task) (w : ℕ) : Prop :=
  ∀ va, floor ≤ va → va < t.mmapBase → vpage va ≠ vpage w

/-- The condition on a call of `mmap`: the pages at a fixed address are empty and in the lower
half, and an address that is chosen is not below the floor. -/
structure Placed (floor : ℕ) (s : Mem) (t : Task) (addr len : ℕ) : Prop where
  fixed : addr ≠ 0 → ∀ w ∈ pageRange (pageBase addr) (pageCount len), Mappable s t.pml4 w
  chosen : addr = 0 → ∀ mapAddr t', placeMapping t addr len = some (mapAddr, t') → floor ≤ mapAddr

/-- The condition on the operations of one task. -/
def StaysOut (floor : ℕ) (s : Mem) (t : Task) : VmOp → Prop
  | .map i va writable => CarefulCall s t (.map i va writable) ∧ Outside floor t va
  | .mmap _ args => Placed floor s t args.addr args.len ∧ (args.addr ≠ 0 →
      ∀ w ∈ pageRange (pageBase args.addr) (pageCount args.len), Outside floor t w)
  | .brk i newBrk => CarefulCall s t (.brk i newBrk) ∧
      ∀ w ∈ VmOp.opened t (.brk i newBrk), Outside floor t w
  | op => CarefulCall s t op

/-- The condition on a step. -/
def Apart (floor : ℕ) (vm : Vm) : VmOp → Prop
  | .spawn _ mmapBase => mmapBase ≤ 2 ^ 47
  | op => ∀ t, vm.tasks[op.task]? = some t → StaysOut floor vm.mem t op

variable {s s' : Mem} {live : List Frame} {label : Frame → Option Label} {origin : Frames}
  {t t' : Task} {floor mapAddr addr len : ℕ} {op : VmOp}

/-! ## Where `mmap` puts its pages -/

/-- The address that is chosen: the mapping ends at or below the pointer. -/
theorem chosen_place (h : placeMapping t 0 len = some (mapAddr, t')) :
    mapAddr + len ≤ t.mmapBase ∧ t' = { t with mmapBase := mapAddr } := by
  unfold placeMapping at h
  rw [if_neg (by simp)] at h
  by_cases hsmall : t.mmapBase < len
  · simp [hsmall] at h
  simp only at h
  split_ifs at h
  cases h
  refine ⟨?_, rfl⟩
  unfold pageBase
  omega

theorem fixed_place (haddr : addr ≠ 0) (h : placeMapping t addr len = some (mapAddr, t')) :
    mapAddr = pageBase addr ∧ t' = t := by
  rw [placeMapping, if_pos haddr] at h
  cases h
  exact ⟨rfl, rfl⟩

/-- A page of a chosen range starts between its ends. -/
theorem chosen_page (hclear : Clear floor s t) (h : placeMapping t 0 len = some (mapAddr, t'))
    {w : ℕ} (hw : w ∈ pageRange mapAddr (pageCount len)) :
    mapAddr ≤ w ∧ w < t.mmapBase ∧ w % 4096 = 0 := by
  obtain ⟨hend, -⟩ := chosen_place h
  have halign := (placeMapping_some h).1
  have hlow := hclear.low
  obtain ⟨j, hj, rfl⟩ := mem_map.mp hw
  have hcount : j * 4096 < len := by
    have hj := mem_range.mp hj
    simp only [pageCount, wrapAdd] at hj
    omega
  have hwrap : wrapAdd mapAddr (j * 4096) = mapAddr + j * 4096 := Nat.mod_eq_of_lt (by omega)
  omega

/-- The pages of a call that is placed are empty and in the lower half. -/
theorem Placed.mappable (h : Placed floor s t addr len) (hsane : Sane s live label origin)
    (hroot : t.pml4 ∈ live) (hclear : Clear floor s t)
    (hplace : placeMapping t addr len = some (mapAddr, t')) :
    ∀ w ∈ pageRange mapAddr (pageCount len), Mappable s t.pml4 w := by
  intro w hw
  by_cases haddr : addr = 0
  · have hfloor := h.chosen haddr mapAddr t' hplace
    subst haddr
    obtain ⟨hle, hlt, -⟩ := chosen_page hclear hplace hw
    have hlow := hclear.low
    refine ⟨?_, ?_⟩
    · simp only [LowerHalf, vpage]
      omega
    · by_contra hmapped
      refine hclear.empty w (by omega) hlt (.inl ?_)
      exact user_of_isUserMapped hsane hroot (by simpa using hmapped)
  · obtain ⟨rfl, -⟩ := fixed_place haddr hplace
    exact h.fixed haddr w hw

theorem mmap_task (s : Mem) (t : Task) (args : MmapArgs) :
    (mmap s t args).2.1 = t ∧ (args.len = 0 ∨ placeMapping t args.addr args.len = none) ∨
      ∃ mapAddr t', placeMapping t args.addr args.len = some (mapAddr, t') ∧
        (mmap s t args).2.1 = t' := by
  unfold mmap
  by_cases hlen : args.len = 0
  · rw [if_pos hlen]
    exact .inl ⟨rfl, .inl hlen⟩
  rw [if_neg hlen]
  rcases placeMapping t args.addr args.len with _ | ⟨mapAddr, t'⟩
  · exact .inl ⟨rfl, .inr rfl⟩
  refine .inr ⟨mapAddr, t', rfl, ?_⟩
  dsimp only
  split_ifs
  · cases args.file with
    | none => rfl
    | some contents => dsimp only; split <;> rfl
  · rfl
  · split <;> rfl

/-! ## One call -/

/-- A call that stays out of the region is careful. -/
theorem StaysOut.careful (h : StaysOut floor s t op) (hsane : Sane s live label origin)
    (hroot : t.pml4 ∈ live) (hclear : Clear floor s t) : CarefulCall s t op := by
  cases op with
  | map i va writable | brk i newBrk => exact h.1
  | mmap i args => exact fun mapAddr t' hplace => h.1.mappable hsane hroot hclear hplace
  | _ => exact h

/-- What it opens lies outside, and the pointer does not move up. -/
theorem StaysOut.outside (h : StaysOut floor s t op) (hclear : Clear floor s t) :
    (op.call t s).1.mmapBase ≤ t.mmapBase ∧
      ∀ w ∈ op.opened t, Outside floor (op.call t s).1 w := by
  cases op with
  | map i va writable =>
    refine ⟨le_rfl, fun w hw => ?_⟩
    rw [mem_singleton.mp hw]
    exact h.2
  | brk i newBrk =>
    have htask : (Syscall.brk s t newBrk).2.1.mmapBase = t.mmapBase := by
      unfold brk
      dsimp only
      split_ifs <;> first | rfl | (split <;> rfl)
    refine ⟨htask.le, fun w hw va hfloor hva => ?_⟩
    exact h.2 w hw va hfloor (hva.trans_eq htask)
  | mmap i args =>
    rw [VmOp.call, VmOp.opened]
    rcases mmap_task s t args with ⟨htask, hnone⟩ | ⟨mapAddr, t', hplace, htask⟩
    · rw [htask]
      refine ⟨le_rfl, fun w hw => ?_⟩
      rcases hnone with hlen | hnone
      · have hcount : pageCount args.len = 0 := by rw [hlen]; rfl
        rcases hplace : placeMapping t args.addr args.len with _ | ⟨mapAddr, t'⟩
        · rw [hplace] at hw
          exact absurd hw not_mem_nil
        · rw [hplace, hcount] at hw
          exact absurd hw not_mem_nil
      · rw [hnone] at hw
        exact absurd hw not_mem_nil
    · rw [htask, hplace]
      by_cases haddr : args.addr = 0
      · rw [haddr] at hplace
        obtain ⟨hend, rfl⟩ := chosen_place hplace
        refine ⟨by dsimp only; omega, fun w hw va hfloor hva hsame => ?_⟩
        obtain ⟨hle, hlt, halign⟩ := chosen_page hclear hplace hw
        have hlow := hclear.low
        dsimp only at hva
        simp only [vpage] at hsame
        omega
      · obtain ⟨rfl, rfl⟩ := fixed_place haddr hplace
        exact ⟨le_rfl, h.2 haddr⟩
  | _ => exact ⟨le_rfl, fun w hw => absurd hw not_mem_nil⟩

/-- The region of another address space. -/
theorem Clear.opens (h : Clear floor s t) {root : Frame} {pages : List ℕ}
    (hopens : Opens s s' live root pages) (hmem : t.pml4 ∈ live)
    (hother : t.pml4 = root → ∀ w ∈ pages, Outside floor t w) : Clear floor s' t := by
  refine ⟨h.low, fun va hfloor hva haccess => ?_⟩
  rcases hopens _ hmem va haccess with hold | ⟨hroot, w, hw, hsame⟩
  · exact h.empty va hfloor hva hold
  · exact hother hroot w hw va hfloor hva hsame

/-- The region of a task after its own call. -/
theorem Clear.call (h : Clear floor s t) (hop : op.Single) (hstays : StaysOut floor s t op)
    (hsane : Sane s live label origin) (hroot : t.pml4 ∈ live) :
    Clear floor (op.call t s).2 (op.call t s).1 := by
  have hcareful := hstays.careful hsane hroot h
  obtain ⟨hpml4, -, -, hopens⟩ := hsane.call hroot hop hcareful
  obtain ⟨hle, houtside⟩ := hstays.outside h
  -- the region as it was, up to where the pointer is now
  have hold : Clear floor s (op.call t s).1 := by
    refine ⟨hle.trans h.low, fun va hfloor hva => ?_⟩
    rw [hpml4]
    exact h.empty va hfloor (hva.trans_le hle)
  exact hold.opens hopens (by rwa [hpml4]) fun _ => houtside

/-! ## The machine -/

/-- The regions of all tasks are clear. -/
structure VmClear (floor : ℕ) (origin : Frames) (vm : Vm) : Prop where
  sane : VmSane origin vm
  clear : ∀ t ∈ vm.tasks, Clear floor vm.mem t

namespace VmClear

variable {vm : Vm} {i : ℕ}

theorem mem_live (ht : t ∈ vm.tasks) : t.pml4 ∈ vm.live := mem_map.mpr ⟨t, ht, rfl⟩

/-- A step that stays out of the regions is careful. -/
theorem careful (h : VmClear floor origin vm) (hapart : Apart floor vm op) : Careful vm op := by
  intro t ht
  obtain ⟨label, hsane⟩ := h.sane.sane
  have hmem := mem_of_getElem? ht
  cases op with
  | spawn brk mmapBase => exact trivial
  | _ => exact (hapart t ht).careful hsane (mem_live hmem) (h.clear t hmem)

theorem call (h : VmClear floor origin vm) (hop : op.Single) (hapart : Apart floor vm op) :
    ∀ t ∈ (vm.step op).tasks, Clear floor (vm.step op).mem t := by
  rw [step_eq_onTask hop, Vm.onTask]
  cases ht : vm.tasks[op.task]? with
  | none => exact h.clear
  | some t =>
    obtain ⟨label, hsane⟩ := h.sane.sane
    have hmem := mem_of_getElem? ht
    have hstays : StaysOut floor vm.mem t op := by
      cases op with
      | spawn | fork | exit => exact absurd hop id
      | _ => exact hapart t ht
    have hclear := h.clear t hmem
    obtain ⟨-, -, -, hopens⟩ := hsane.call (mem_live hmem) hop
      (hstays.careful hsane (mem_live hmem) hclear)
    intro t' ht'
    obtain ⟨j, hj⟩ := mem_iff_getElem?.mp ht'
    by_cases hij : j = op.task
    · subst hij
      rw [getElem?_set_self (List.getElem?_eq_some_iff.mp ht).1] at hj
      cases hj
      exact hclear.call hop hstays hsane (mem_live hmem)
    · rw [getElem?_set_ne (fun heq => hij heq.symm)] at hj
      have hmem' := mem_of_getElem? hj
      -- the address space of another task
      refine (h.clear t' hmem').opens hopens (mem_live hmem') fun heq => ?_
      obtain ⟨_, hget⟩ := VmSane.live_get ht
      obtain ⟨_, hget'⟩ := VmSane.live_get hj
      exact absurd ((h.sane.nodup.getElem_inj_iff).mp (by rw [hget, hget', heq])) hij

/-- The region of a task in memory where its address space has no new page. -/
theorem of_inherits (h : Clear floor s t)
    (hold : ∀ va, Accessible s' t.pml4 va → Accessible s t.pml4 va) : Clear floor s' t :=
  ⟨h.low, fun va hfloor hva haccess => h.empty va hfloor hva (hold va haccess)⟩

section

variable (h : VmClear floor origin vm)

include h

theorem spawn {brk mmapBase : ℕ} (hlow : mmapBase ≤ 2 ^ 47) :
    ∀ t ∈ (vm.step (.spawn brk mmapBase)).tasks,
      Clear floor (vm.step (.spawn brk mmapBase)).mem t := by
  simp only [Vm.step]
  split_ifs
  · exact h.clear
  obtain ⟨label, hsane⟩ := h.sane.sane
  rcases newSpace_cases hsane.toOrderly with
    ⟨s', hnone, hborrowed⟩ | ⟨root, pdpt, pd, s', hsome, hnew⟩
  · rw [hnone]
    intro t ht
    have hunchanged := hsane.unchanged_same fun f l hl =>
      hborrowed.words f (hsane.tables.held f l hl)
    exact of_inherits (h.clear t ht) fun va hva => hva.congr (hunchanged _ (mem_live ht) va)
  · rw [hsome]
    intro t ht
    rcases mem_cons.mp ht with rfl | ht
    · refine ⟨hlow, fun va _ _ haccess => ?_⟩
      have hquiet := hnew.quiet hsane.toOrderly va
      rw [Accessible] at haccess
      dsimp only [Vm.adopt] at haccess
      rw [hquiet.1, hquiet.2] at haccess
      simp at haccess
    · exact of_inherits (h.clear t ht) fun va hva =>
        hva.congr (hnew.unchanged hsane.toOrderly _ (mem_live ht) va)

theorem fork : ∀ t ∈ (vm.step (.fork i)).tasks, Clear floor (vm.step (.fork i)).mem t := by
  simp only [Vm.step]
  cases ht : vm.tasks[i]? with
  | none => exact h.clear
  | some parent =>
    dsimp only
    split_ifs
    · exact h.clear
    obtain ⟨label, hsane⟩ := h.sane.sane
    have hmem := mem_of_getElem? ht
    obtain ⟨hold, hnew⟩ := forkSpace_inherits hsane (mem_live hmem)
    rcases hfork : forkSpace vm.mem parent.pml4 with ⟨_ | dst, s'⟩
    · rw [hfork] at hold
      exact fun t ht => of_inherits (h.clear t ht) (hold _ (mem_live ht))
    · rw [hfork] at hold hnew
      intro t ht
      rcases mem_cons.mp ht with rfl | ht
      · refine ⟨(h.clear parent hmem).low, fun va hfloor hva haccess => ?_⟩
        exact (h.clear parent hmem).empty va hfloor hva (hnew dst rfl va haccess)
      · exact of_inherits (h.clear t ht) (hold _ (mem_live ht))

theorem exit : ∀ t ∈ (vm.step (.exit i)).tasks, Clear floor (vm.step (.exit i)).mem t := by
  simp only [Vm.step]
  cases ht : vm.tasks[i]? with
  | none => exact h.clear
  | some t =>
    obtain ⟨label, hsane⟩ := h.sane.sane
    have hdropped := dropped_exitSpace hsane (mem_live (mem_of_getElem? ht))
    intro t' ht'
    refine of_inherits (h.clear t' (eraseIdx_subset ht')) fun va hva => hva.congr ?_
    have hslots : slots (exitSpace vm.mem t.pml4) = slots vm.mem := by
      unfold slots
      simp [hdropped.entry]
    rw [pageEntry, hslots, pageEntry]

theorem step (hapart : Apart floor vm op) : VmClear floor origin (vm.step op) := by
  refine ⟨h.sane.step (h.careful hapart), ?_⟩
  cases op with
  | spawn brk mmapBase => exact h.spawn hapart
  | fork i => exact h.fork
  | exit i => exact h.exit
  | _ => exact h.call trivial hapart

end

theorem run {ops : List VmOp} (hboot : Bootable s.frames)
    (hapart : Guarded Vm.stepOk (Apart floor) ops (Vm.boot s)) :
    ∃ vm, Shitix.run Vm.stepOk ops (Vm.boot s) = .ok vm ∧ VmClear floor s.frames vm := by
  refine run_invariant (fun vm op h hguard => ⟨vm.step op, rfl, h.step hguard⟩) ?_ hapart
  exact ⟨VmSane.boot hboot, fun t ht => absurd ht not_mem_nil⟩

end VmClear

end Shitix.Paging
