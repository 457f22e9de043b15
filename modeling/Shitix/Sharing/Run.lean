import Shitix.Lib.Run
import Shitix.Sharing.Boot
import Shitix.Sharing.Calls
import Shitix.Sharing.Exit
import Shitix.Sharing.Fork

/-!
# Every run of the virtual memory

The machine all processes share: memory with its allocator, and one task for each
live address space.  Its steps are what user mode can make the kernel do to page
tables: a new process, pages mapped by `execve`, the memory system calls, the two
page faults that are resolved, `fork` and `exit`.

`Careful` is the condition under which a step keeps the accounts.  It excludes

* mapping where a user page is mapped already, which forgets the old page;
* mapping, unmapping and protecting the kernel's pages;
* `munmap` and a shrinking `brk` on a shared page: they call `free_page` where
  `page_ref_dec` would be due;
* `mprotect` with `PROT_WRITE` on a shared page, which makes it writable without a
  copy;
* a `fork` that runs out of memory halfway, whose copy is not undone.

`CowIsolated` is what holds of every state that a run of such steps reaches.
-/

namespace Shitix.Paging

open Mem Syscall List

/-! ## The machine -/

/-- Memory, and the tasks with an address space of their own. -/
structure Vm where
  mem : Mem
  tasks : List Task

/-- The PML4s of the live address spaces. -/
def Vm.live (vm : Vm) : List Frame := vm.tasks.map Task.pml4

def nrTasks : ℕ := 64

/-- What can happen to the address spaces; `i` is the position of a task. -/
inductive VmOp where
  | spawn (brk mmapBase : ℕ)
  | map (i va : ℕ) (writable : Bool)
  | mmap (i : ℕ) (args : MmapArgs)
  | munmap (i addr len : ℕ)
  | mprotect (i addr len prot : ℕ)
  | brk (i newBrk : ℕ)
  | touch (i va : ℕ)
  | writeFault (i va : ℕ)
  | fork (i : ℕ)
  | exit (i : ℕ)

/-- A step of one task that keeps its address space. -/
def Vm.onTask (vm : Vm) (i : ℕ) (body : Task → Mem → Task × Mem) : Vm :=
  match vm.tasks[i]? with
  | none => vm
  | some t => ⟨(body t vm.mem).2, vm.tasks.set i (body t vm.mem).1⟩

/-- The flags `execve` maps the pages of a segment with. -/
def segmentProt (writable : Bool) : Flags := { present := true, user := true, rw := writable }

/-- The branch of `do_trap` for a page that is not present. -/
def demandPage (s : Mem) (pml4 : Frame) (va : ℕ) : Mem :=
  if (translate s pml4 va).isNone && isReserved s pml4 va then (resolveReserved s pml4 va).2 else s

/-- The machine after a new address space was asked for. -/
def Vm.adopt (vm : Vm) (brk mmapBase : ℕ) : Option Frame × Mem → Vm
  | (none, s) => ⟨s, vm.tasks⟩
  | (some pml4, s) => ⟨s, ⟨pml4, brk, mmapBase⟩ :: vm.tasks⟩

/-- One step. -/
def Vm.step (vm : Vm) : VmOp → Vm
  | .spawn brk mmapBase =>
    if nrTasks ≤ vm.tasks.length then vm else vm.adopt brk mmapBase (newSpace vm.mem)
  | .map i va writable =>
    vm.onTask i fun t s => (t, (mapFresh s t.pml4 va (segmentProt writable)).2)
  | .mmap i args => vm.onTask i fun t s => (Syscall.mmap s t args).2
  | .munmap i addr len => vm.onTask i fun t s => (t, (Syscall.munmap s t addr len).2)
  | .mprotect i addr len prot =>
    vm.onTask i fun t s => (t, (Syscall.mprotect s t.pml4 addr len prot).2)
  | .brk i newBrk => vm.onTask i fun t s => (Syscall.brk s t newBrk).2
  | .touch i va => vm.onTask i fun t s => (t, demandPage s t.pml4 va)
  | .writeFault i va => vm.onTask i fun t s => (t, (tryHandleCowFault s va t.pml4).2)
  | .fork i =>
    match vm.tasks[i]? with
    | none => vm
    | some t =>
      if nrTasks ≤ vm.tasks.length then vm
      else vm.adopt t.brk t.mmapBase (forkSpace vm.mem t.pml4)
  | .exit i =>
    match vm.tasks[i]? with
    | none => vm
    | some t => ⟨exitSpace vm.mem t.pml4, vm.tasks.eraseIdx i⟩

/-- The machine never fails. -/
def Vm.stepOk (vm : Vm) (op : VmOp) : Except Empty Vm := .ok (vm.step op)

/-- The machine after the kernel was set up. -/
def Vm.boot (s : Mem) : Vm := ⟨bootTables s, []⟩

/-! ## The condition -/

/-- A page may be mapped: it is one of the process's, and no user page is there. -/
def Mappable (s : Mem) (pml4 : Frame) (va : ℕ) : Prop :=
  LowerHalf va ∧ isUserMapped s pml4 va = false

/-- The frame of a page, if it has one, is not shared. -/
def Unshared (s : Mem) (pml4 : Frame) (va : ℕ) : Prop :=
  ∀ phys, translate s pml4 va = some phys → s.pageRefCount (BitVec.ofNat 40 (phys / 4096)) = 1

/-- The condition of a memory system call on the task that makes it. -/
def CarefulCall (s : Mem) (t : Task) : VmOp → Prop
  | .map _ va _ => Mappable s t.pml4 va
  | .mmap _ args => ∀ mapAddr t', placeMapping t args.addr args.len = some (mapAddr, t') →
      ∀ va ∈ pageRange mapAddr (pageCount args.len), Mappable s t.pml4 va
  | .munmap _ addr len => ∀ va ∈ pageRange addr (pageCount len),
      translate s t.pml4 va ≠ none → isUserMapped s t.pml4 va = true ∧ Unshared s t.pml4 va
  | .mprotect _ addr len prot =>
    ∀ va ∈ pagesBetween (pageBase addr) (pageAlignW (wrapAdd addr len)),
      getPageFlags s t.pml4 va ≠ none → isUserMapped s t.pml4 va = true ∧
        (prot.testBit 1 = true → Unshared s t.pml4 va)
  | .brk _ newBrk =>
    let curBrk := if t.brk = 0 then heapBase else t.brk
    (curBrk < newBrk →
      ∀ va ∈ pagesBetween (pageAlignW curBrk) (pageAlignW (wrapAdd newBrk 4095)), LowerHalf va) ∧
    (newBrk ≤ curBrk →
      ∀ va ∈ pagesBetween (pageAlignW newBrk) (pageAlignW (wrapAdd curBrk 4095)),
        isUserMapped s t.pml4 va = true → Unshared s t.pml4 va)
  | .fork _ => s.frames.free.length < 3 ∨ (tablePages s t.pml4).ncard ≤ s.frames.free.length
  | _ => True

/-- The task an operation is about. -/
def VmOp.task : VmOp → ℕ
  | .spawn .. => 0
  | .map i .. | .mmap i .. | .munmap i .. | .mprotect i .. | .brk i .. | .touch i .. |
    .writeFault i .. | .fork i | .exit i => i

/-- The condition of a step. -/
def Careful (vm : Vm) (op : VmOp) : Prop :=
  ∀ t, vm.tasks[op.task]? = some t → CarefulCall vm.mem t op

/-- What an operation does to the task that makes it, and to memory. -/
def VmOp.call : VmOp → Task → Mem → Task × Mem
  | .map _ va writable, t, s => (t, (mapFresh s t.pml4 va (segmentProt writable)).2)
  | .mmap _ args, t, s => (Syscall.mmap s t args).2
  | .munmap _ addr len, t, s => (t, (Syscall.munmap s t addr len).2)
  | .mprotect _ addr len prot, t, s => (t, (Syscall.mprotect s t.pml4 addr len prot).2)
  | .brk _ newBrk, t, s => (Syscall.brk s t newBrk).2
  | .touch _ va, t, s => (t, demandPage s t.pml4 va)
  | .writeFault _ va, t, s => (t, (tryHandleCowFault s va t.pml4).2)
  | .spawn .., t, s | .fork _, t, s | .exit _, t, s => (t, s)

/-- The operations that create or destroy no address space. -/
def VmOp.Single : VmOp → Prop
  | .spawn .. | .fork _ | .exit _ => False
  | _ => True

theorem step_eq_onTask {op : VmOp} (h : op.Single) (vm : Vm) :
    vm.step op = vm.onTask op.task op.call := by
  cases op with
  | spawn | fork | exit => exact absurd h id
  | _ => rfl

/-- The pages an operation may open to user mode. -/
def VmOp.opened (t : Task) : VmOp → List ℕ
  | .map _ va _ => [va]
  | .mmap _ args =>
    match placeMapping t args.addr args.len with
    | none => []
    | some (mapAddr, _) => pageRange mapAddr (pageCount args.len)
  | .brk _ newBrk =>
    let curBrk := if t.brk = 0 then heapBase else t.brk
    if curBrk < newBrk then pagesBetween (pageAlignW curBrk) (pageAlignW (wrapAdd newBrk 4095))
    else []
  | _ => []

/-! ## What the condition says of the pages -/

section Pages

variable {s : Mem} {live : List Frame} {label : Frame → Option Label} {origin : Frames}
  {root : Frame} {va : ℕ}

theorem Mappable.vacant (hmap : Mappable s root va) (h : Sane s live label origin)
    (hroot : root ∈ live) : Vacant s root va := by
  have hnot := hmap.2
  rw [isUserMapped_eq h.tables (h.space root hroot)] at hnot
  simp [Vacant, userFrame, hnot]

theorem Unshared.sole (hunshared : Unshared s root va) (h : Sane s live label origin)
    (hroot : root ∈ live) : Sole s live root va := by
  intro f hf
  obtain ⟨hpresent, -, hframe⟩ := userFrame_eq_some.mp hf
  have hcount := hunshared _ (by rw [translate_eq h.tables (h.space root hroot), if_pos hpresent])
  rw [Sane.frame_of_phys, hframe, (h.mapped hroot hf).2.2.2] at hcount
  exact hcount

section

variable (h : Sane s live label origin) (hroot : root ∈ live)

include h hroot

theorem user_of_isUserMapped (hmapped : isUserMapped s root va = true) :
    (pageEntry s root va).present = true ∧ (pageEntry s root va).user = true := by
  rw [isUserMapped_eq h.tables (h.space root hroot)] at hmapped
  exact Bool.and_eq_true_iff.mp hmapped

theorem translate_ne_none (hpresent : (pageEntry s root va).present = true) : translate s root va ≠
    none := by
  rw [translate_eq h.tables (h.space root hroot), if_pos hpresent]
  exact Option.some_ne_none _

/-- A shared page is nobody's own. -/
theorem sole_of_mapped (hok : isUserMapped s root va = true → Unshared s root va) : Sole s live root
    va := by
  intro f hf
  obtain ⟨hpresent, huser, -⟩ := userFrame_eq_some.mp hf
  refine (hok ?_).sole h hroot f hf
  rw [isUserMapped_eq h.tables (h.space root hroot), hpresent, huser]
  rfl

end

end Pages

/-! ## The system calls of one task -/

section Calls

variable {s : Mem} {live : List Frame} {label : Frame → Option Label} {origin : Frames} {t : Task}
  (h : Sane s live label origin) (ht : t.pml4 ∈ live) {addr len i : ℕ}
include h ht

omit h ht in
theorem placeMapping_some {mapAddr : ℕ} {t' : Task}
    (hplace : placeMapping t addr len = some (mapAddr, t')) :
    mapAddr % 4096 = 0 ∧ t'.pml4 = t.pml4 := by
  unfold placeMapping at hplace
  dsimp only at hplace
  split_ifs at hplace with haddr hshort hzero <;> cases hplace
  · exact ⟨pageBase_mod addr, rfl⟩
  · exact ⟨rfl, rfl⟩
  · exact ⟨pageBase_mod _, rfl⟩

theorem tables_of_live : t.tables = t.pml4 := if_neg (h.root_ne_zero ht)

theorem Sane.munmap (hcareful : CarefulCall s t (.munmap i addr len)) :
    Sane (Syscall.munmap s t addr len).2 live label origin ∧
      Opens s (Syscall.munmap s t addr len).2 live t.pml4 [] := by
  unfold Syscall.munmap
  split_ifs
  · exact ⟨h, .refl⟩
  · rw [tables_of_live h ht]
    refine h.unmapAll ht fun va hva => ⟨fun hpresent => ?_, sole_of_mapped h ht fun hmapped => ?_⟩
    · have huser := (hcareful va hva (translate_ne_none h ht hpresent)).1
      exact (user_of_isUserMapped h ht huser).2
    · have hpresent := (user_of_isUserMapped h ht hmapped).1
      exact (hcareful va hva (translate_ne_none h ht hpresent)).2

theorem Sane.mprotect {prot : ℕ} (hcareful : CarefulCall s t (.mprotect i addr len prot)) :
    Sane (Syscall.mprotect s t.pml4 addr len prot).2 live label origin ∧
      Opens s (Syscall.mprotect s t.pml4 addr len prot).2 live t.pml4 [] := by
  unfold Syscall.mprotect
  rw [if_neg (h.root_ne_zero ht)]
  split_ifs
  · exact ⟨h, .refl⟩
  · refine h.protectAll ht rfl rfl fun va hva hflags => ?_
    obtain ⟨hmapped, hunshared⟩ := hcareful va hva hflags
    obtain ⟨hpresent, huser⟩ := user_of_isUserMapped h ht hmapped
    exact ⟨huser, fun hwrite =>
      (hunshared hwrite).sole h ht _ (userFrame_eq_some.mpr ⟨hpresent, huser, rfl⟩)⟩

theorem Sane.mmap {args : MmapArgs} (hcareful : CarefulCall s t (.mmap i args)) :
    (Syscall.mmap s t args).2.1.pml4 = t.pml4 ∧
      ∃ label', Sane (Syscall.mmap s t args).2.2 live label' origin ∧
        Opens s (Syscall.mmap s t args).2.2 live t.pml4 (VmOp.opened t (.mmap i args)) := by
  have hstay : ∀ pages, Opens s s live t.pml4 pages := fun _ _ _ _ hva => .inl hva
  unfold Syscall.mmap
  by_cases hlen : args.len = 0
  · rw [if_pos hlen]
    exact ⟨rfl, label, h, hstay _⟩
  rw [if_neg hlen]
  cases hplace : placeMapping t args.addr args.len with
  | none => exact ⟨rfl, label, h, hstay _⟩
  | some placed =>
    obtain ⟨mapAddr, t'⟩ := placed
    have hok := hcareful mapAddr t' hplace
    obtain ⟨halign, hpml4⟩ := placeMapping_some hplace
    have htables : t'.tables = t.pml4 := by
      rw [Task.tables, hpml4]
      exact tables_of_live h ht
    have hmem : ∀ i < pageCount args.len,
        wrapAdd mapAddr (i * 4096) ∈ pageRange mapAddr (pageCount args.len) := fun i hi =>
      mem_map.mpr ⟨i, mem_range.mpr hi, rfl⟩
    have hopened : VmOp.opened t (.mmap i args) = pageRange mapAddr (pageCount args.len) := by
      rw [VmOp.opened, hplace]
    dsimp only
    rw [htables, hopened]
    split_ifs
    · cases args.file with
      | none => exact ⟨hpml4, label, h, hstay _⟩
      | some contents =>
        have hfile := h.mapFile ht halign args.prot contents
          (fun i hi => (hok _ (hmem i hi)).1) (fun i hi => (hok _ (hmem i hi)).vacant h ht)
        dsimp only
        split <;> next heq => exact ⟨hpml4, by rwa [heq] at hfile⟩
    · exact ⟨hpml4, label, h, hstay _⟩
    · have hanon : ∃ label', Sane (Syscall.mapAnonymous t.pml4 mapAddr args.prot
            (pageCount args.len) s).2 live label' origin ∧
          Opens s (Syscall.mapAnonymous t.pml4 mapAddr args.prot (pageCount args.len) s).2 live
            t.pml4 (pageRange mapAddr (pageCount args.len)) :=
        h.mapAnonymous ht fun va hva => ⟨(hok va hva).1, (hok va hva).vacant h ht⟩
      split <;> next heq => exact ⟨hpml4, by rwa [heq] at hanon⟩

theorem Sane.brk {newBrk : ℕ} (hcareful : CarefulCall s t (.brk i newBrk)) :
    (Syscall.brk s t newBrk).2.1.pml4 = t.pml4 ∧
      ∃ label', Sane (Syscall.brk s t newBrk).2.2 live label' origin ∧
        Opens s (Syscall.brk s t newBrk).2.2 live t.pml4 (VmOp.opened t (.brk i newBrk)) := by
  have hstay : ∀ pages, Opens s s live t.pml4 pages := fun _ _ _ _ hva => .inl hva
  obtain ⟨hgrow, hshrink⟩ := hcareful
  unfold Syscall.brk VmOp.opened
  rw [if_neg (h.root_ne_zero ht)]
  dsimp only
  generalize (if t.brk = 0 then heapBase else t.brk) = curBrk at hgrow hshrink ⊢
  by_cases hzero : newBrk = 0
  · rw [if_pos hzero]
    exact ⟨rfl, label, h, hstay _⟩
  by_cases hsame : newBrk = t.brk
  · rw [if_neg hzero, if_pos hsame]
    exact ⟨rfl, label, h, hstay _⟩
  split_ifs with hlt
  · have hgrown := h.growAll ht (hgrow hlt)
    split <;> next heq => exact ⟨rfl, by rwa [heq] at hgrown⟩
  · refine ⟨rfl, label, h.shrinkAll ht fun va hva => sole_of_mapped h ht ?_⟩
    exact hshrink (not_lt.mp hlt) va (mem_reverse.mp hva)

theorem Sane.demandPage (va : ℕ) :
    ∃ label', Sane (Paging.demandPage s t.pml4 va) live label' origin ∧
      Opens s (Paging.demandPage s t.pml4 va) live t.pml4 [] := by
  unfold Paging.demandPage
  split_ifs with hfault
  · obtain ⟨habsent, hreserved⟩ := Bool.and_eq_true_iff.mp hfault
    have hspace := h.space _ ht
    have hpresent : (pageEntry s t.pml4 va).present = false := by
      by_contra hpresent
      refine translate_ne_none h ht (by simpa using hpresent) ?_
      simpa using habsent
    rw [isReserved_eq h.tables hspace hpresent] at hreserved
    exact h.resolveReserved ht hreserved
  · exact ⟨label, h, .refl⟩

/-- A careful call keeps the accounts, and opens no pages but its own. -/
theorem Sane.call {op : VmOp} (hop : op.Single) (hcareful : CarefulCall s t op) :
    (op.call t s).1.pml4 = t.pml4 ∧ ∃ label', Sane (op.call t s).2 live label' origin ∧
      Opens s (op.call t s).2 live t.pml4 (op.opened t) := by
  cases op with
  | spawn | fork | exit => exact absurd hop id
  | map i va writable =>
    obtain ⟨s', label', hafter, ⟨heq, hunchanged⟩ | ⟨page, heq, hrewritten, -⟩⟩ :=
      h.mapFresh ht hcareful.1 (hcareful.vacant h ht)
        (show (segmentProt writable).user = true from rfl) rfl
    · refine ⟨rfl, label', ?_, ?_⟩ <;> rw [VmOp.call, heq]
      exacts [hafter, hunchanged.opens _]
    · refine ⟨rfl, label', ?_, ?_⟩ <;> rw [VmOp.call, heq]
      exacts [hafter, hrewritten.opens fun _ => .inr (mem_singleton_self va)]
  | mmap i args => exact h.mmap ht hcareful
  | munmap i addr len => exact ⟨rfl, label, h.munmap ht hcareful⟩
  | mprotect i addr len prot => exact ⟨rfl, label, h.mprotect ht hcareful⟩
  | brk i newBrk => exact h.brk ht hcareful
  | touch i va => exact ⟨rfl, h.demandPage ht va⟩
  | writeFault i va => exact ⟨rfl, h.tryHandleCowFault ht va⟩

end Calls

/-! ## Steps -/

/-- The accounts of all live address spaces are right. -/
structure VmSane (origin : Frames) (vm : Vm) : Prop where
  sane : ∃ label, Sane vm.mem vm.live label origin
  nodup : vm.live.Nodup
  few : vm.tasks.length ≤ nrTasks

namespace VmSane

variable {vm : Vm} {origin : Frames} {i : ℕ}

theorem mem_live {t : Task} (ht : vm.tasks[i]? = some t) : t.pml4 ∈ vm.live :=
  mem_map.mpr ⟨t, mem_of_getElem? ht, rfl⟩

theorem live_get {t : Task} (ht : vm.tasks[i]? = some t) :
    ∃ hi : i < vm.live.length, vm.live[i] = t.pml4 := by
  have hmap : vm.live[i]? = some t.pml4 := by rw [Vm.live, getElem?_map, ht]; rfl
  exact List.getElem?_eq_some_iff.mp hmap

section

variable (h : VmSane origin vm)

include h

theorem onTask {body : Task → Mem → Task × Mem}
    (hbody : ∀ t label, vm.tasks[i]? = some t → Sane vm.mem vm.live label origin →
      t.pml4 ∈ vm.live → (body t vm.mem).1.pml4 = t.pml4 ∧
        ∃ label', Sane (body t vm.mem).2 vm.live label' origin) :
    VmSane origin (vm.onTask i body) := by
  unfold Vm.onTask
  cases ht : vm.tasks[i]? with
  | none => exact h
  | some t =>
    obtain ⟨label, hsane⟩ := h.sane
    obtain ⟨hpml4, hafter⟩ := hbody t label ht hsane (mem_live ht)
    -- the list of PML4s is what it was
    have hlive : (vm.tasks.set i (body t vm.mem).1).map Task.pml4 = vm.live := by
      obtain ⟨hi, hget⟩ := live_get ht
      rw [map_set, hpml4, ← hget]
      exact set_getElem_self hi
    exact ⟨by rw [Vm.live, hlive]; exact hafter, by rw [Vm.live, hlive]; exact h.nodup,
      by rw [length_set]; exact h.few⟩

/-- A new address space joins the live ones, or none does. -/
theorem adopt (hroom : ¬ nrTasks ≤ vm.tasks.length) (brk mmapBase : ℕ)
    {result : Option Frame × Mem}
    (hresult : ∃ s' label', result = (none, s') ∧ Sane s' vm.live label' origin ∨
      ∃ dst, result = (some dst, s') ∧ dst ∉ vm.live ∧ Sane s' (dst :: vm.live) label' origin) :
    VmSane origin (vm.adopt brk mmapBase result) := by
  obtain ⟨s', label', ⟨rfl, hsane⟩ | ⟨dst, rfl, hfresh, hsane⟩⟩ := hresult
  · exact ⟨⟨label', hsane⟩, h.nodup, h.few⟩
  · refine ⟨⟨label', hsane⟩, nodup_cons.mpr ⟨hfresh, h.nodup⟩, ?_⟩
    simp only [Vm.adopt, length_cons]
    omega

theorem spawn (brk mmapBase : ℕ) : VmSane origin (vm.step (.spawn brk mmapBase)) := by
  simp only [Vm.step]
  split_ifs with hfull
  · exact h
  · obtain ⟨label, hsane⟩ := h.sane
    refine h.adopt hfull brk mmapBase ?_
    rcases newSpace_cases hsane.toOrderly with
      ⟨s', hnone, hborrowed⟩ | ⟨root, pdpt, pd, s', hsome, hnew⟩
    · exact ⟨s', label, .inl ⟨hnone, hborrowed.sane hsane⟩⟩
    · exact ⟨s', _, .inr ⟨root, hsome, hnew.not_live hsane.toOrderly, hnew.sane hsane⟩⟩

theorem fork (hcareful : Careful vm (.fork i)) : VmSane origin (vm.step (.fork i)) := by
  simp only [Vm.step]
  cases ht : vm.tasks[i]? with
  | none => exact h
  | some t =>
    split_ifs with hfull
    · exact h
    · obtain ⟨label, hsane⟩ := h.sane
      refine h.adopt hfull t.brk t.mmapBase (hsane.forkSpace (mem_live ht) ?_ (hcareful t ht))
      have := h.few
      simp only [Vm.live, length_map, nrTasks] at this ⊢
      omega

theorem exit : VmSane origin (vm.step (.exit i)) := by
  simp only [Vm.step]
  cases ht : vm.tasks[i]? with
  | none => exact h
  | some t =>
    obtain ⟨label, hsane⟩ := h.sane
    obtain ⟨hi, hget⟩ := live_get ht
    have hlive : (vm.tasks.eraseIdx i).map Task.pml4 = vm.live.erase t.pml4 := by
      rw [← hget, h.nodup.erase_getElem i hi, Vm.live, eraseIdx_map]
    refine ⟨?_, ?_, (length_eraseIdx_le _ _).trans h.few⟩
    · rw [Vm.live, hlive]
      exact hsane.exitSpace (mem_live ht) h.nodup
    · rw [Vm.live, hlive]
      exact h.nodup.erase _

theorem step {op : VmOp} (hcareful : Careful vm op) : VmSane origin (vm.step op) := by
  by_cases hop : op.Single
  · rw [step_eq_onTask hop]
    refine h.onTask ?_
    intro t label ht hsane hmem
    obtain ⟨hpml4, label', hafter, -⟩ := hsane.call hmem hop (hcareful t ht)
    exact ⟨hpml4, label', hafter⟩
  · cases op with
    | spawn brk mmapBase => exact h.spawn brk mmapBase
    | fork i => exact h.fork hcareful
    | exit i => exact h.exit
    | _ => exact absurd trivial hop

end

theorem boot {s : Mem} (h : Bootable s.frames) : VmSane s.frames (Vm.boot s) :=
  ⟨⟨_, h.sane⟩, nodup_nil, Nat.zero_le _⟩

end VmSane

end Shitix.Paging
