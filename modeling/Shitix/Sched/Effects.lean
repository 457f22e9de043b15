import Shitix.Sched.Table

/-!
# What the operations do to a task

For the operations on the task table: the state, the parent and the numbers of each task after
them.  The proofs about runs use these equations and do not look at the definitions.
-/

namespace Shitix.Sched

open Signal List Sys

variable {s s' : Sys} {i j child : Slot} {α : Type*}

/-- What the state of a task and its family say. -/
structure Kin where
  state : TaskState
  parent : Slot
  pid : ℤ
  pgrp : ℤ
  vforkParent : Slot

/-- What the task table says of a task, but for signals, times, counters and links. -/
def Proc.kin (p : Proc) : Kin := ⟨p.state, p.parent, p.pid, p.pgrp, p.vforkParent⟩

theorem state_of_kin {p q : Proc} (h : p.kin = q.kin) : p.state = q.state := congrArg Kin.state h

theorem parent_of_kin {p q : Proc} (h : p.kin = q.kin) : p.parent = q.parent :=
  congrArg Kin.parent h

/-! ## Hearing of a child -/

theorem notify_state (s : Sys) (i j : Slot) : ((s.notify i).proc j).state =
    if j = i ∧ (s.proc j).state = .interruptible then .running else (s.proc j).state := by
  unfold notify wakeUpWaiter sendSig
  by_cases heq : j = i
  · subst heq
    rw [modify_proc, if_pos rfl, modify_proc, if_pos rfl]
    have hsent : ((s.proc j).sendSig sigchld).state = ((s.proc j).toTask.sendSig sigchld).1.state := rfl
    rw [state_sendSig, if_neg fun h : _ ∧ sigchld = sigcont ∧ _ => absurd h.2.1 (by decide)] at hsent
    rw [hsent]
    by_cases hsleep : (s.proc j).state = .interruptible
    · by_cases hmarks : Marks (s.proc j).toTask sigchld
      · simp [hsleep, hmarks, hsent]
      · simp [hsleep, hmarks]
    · simp [hsleep, hsent]
  · rw [modify_proc, if_neg heq, modify_proc, if_neg heq, if_neg fun h => heq h.1]

theorem notify_keeps (view : Proc → α) (hview : ∀ p t, view { p with toTask := t } = view p)
    (s : Sys) (i j : Slot) : view ((s.notify i).proc j) = view (s.proc j) := by
  unfold notify wakeUpWaiter sendSig
  rw [modify_keeps view, modify_keeps view (hview _ _)]
  split_ifs
  · exact hview _ _
  · rfl

/-! ## `vfork` -/

theorem wakeVforkParent_state (s : Sys) (i : Slot) : (s.wakeVforkParent.proc i).state =
    if (s.proc s.current).vforkParent ≠ idle ∧ i = (s.proc s.current).vforkParent then .running
    else (s.proc i).state := by
  unfold wakeVforkParent
  by_cases hnone : (s.proc s.current).vforkParent = idle
  · rw [if_pos hnone, if_neg fun h => h.1 hnone]
  · rw [if_neg hnone, modify_proc]
    by_cases heq : i = (s.proc s.current).vforkParent
    · rw [if_pos heq, if_pos ⟨hnone, heq⟩]
    · rw [if_neg heq, if_neg fun h => heq h.2, modify_keeps (·.state) rfl]

theorem wakeVforkParent_keeps (view : Proc → α)
    (hview : ∀ p state vp, view { p with state := state, vforkParent := vp } = view p) (s : Sys)
    (i : Slot) : view (s.wakeVforkParent.proc i) = view (s.proc i) := by
  unfold wakeVforkParent
  dsimp only
  split_ifs
  · rfl
  · rw [modify_keeps view (hview _ .running _), modify_keeps view (hview _ _ idle)]

@[simp] theorem wakeVforkParent_kont (s : Sys) : s.wakeVforkParent.kont = s.kont := by
  unfold wakeVforkParent
  dsimp only
  split_ifs <;> rfl

@[simp] theorem wakeVforkParent_current (s : Sys) : s.wakeVforkParent.current = s.current := by
  unfold wakeVforkParent
  dsimp only
  split_ifs <;> rfl

/-! ## Orphans -/

section Reparent

variable {dying foster : Slot}

/-- A child that is to get another parent. -/
def Orphan (s : Sys) (dying i : Slot) : Prop :=
  (s.proc i).state ≠ .unused ∧ (s.proc i).parent = dying

instance (s : Sys) (dying i : Slot) : Decidable (Orphan s dying i) := by
  unfold Orphan
  infer_instance

theorem reparentOne_parent (s : Sys) (i j : Slot) :
    ((reparentOne dying foster s j).proc i).parent =
      if i = j ∧ Orphan s dying i then foster else (s.proc i).parent := by
  unfold reparentOne
  dsimp only
  by_cases horphan : Orphan s dying j
  · rw [if_neg fun h => h.elim horphan.1 fun hne => hne horphan.2]
    have hparent : ((s.modify j fun p => { p with parent := foster }).proc i).parent =
        if i = j ∧ Orphan s dying i then foster else (s.proc i).parent := by
      rw [modify_proc]
      by_cases heq : i = j
      · subst heq
        rw [if_pos rfl, if_pos ⟨rfl, horphan⟩]
      · rw [if_neg heq, if_neg fun h => heq h.1]
    rw [← hparent]
    split_ifs
    · exact notify_keeps (·.parent) (fun _ _ => rfl) _ _ _
    · rfl
  · have hskip : (s.proc j).state = .unused ∨ (s.proc j).parent ≠ dying := by
      tauto
    rw [if_pos hskip, if_neg]
    rintro ⟨rfl, h⟩
    exact horphan h

theorem reparentOne_state (s : Sys) (i j : Slot) :
    ((reparentOne dying foster s j).proc i).state =
      if i = foster ∧ (s.proc i).state = .interruptible ∧ (s.proc j).state = .zombie ∧
          (s.proc j).parent = dying then .running
      else (s.proc i).state := by
  unfold reparentOne
  dsimp only
  have hsame : ∀ i, ((s.modify j fun p => { p with parent := foster }).proc i).state =
      (s.proc i).state := fun _ => modify_keeps (·.state) rfl
  by_cases hskip : (s.proc j).state = .unused ∨ (s.proc j).parent ≠ dying
  · rw [if_pos hskip, if_neg]
    rintro ⟨-, -, hzombie, hparent⟩
    rcases hskip with hunused | hne
    · rw [hunused] at hzombie
      cases hzombie
    · exact hne hparent
  · rw [if_neg hskip, hsame]
    have hparent : (s.proc j).parent = dying := by
      by_contra hne
      exact hskip (.inr hne)
    by_cases hzombie : (s.proc j).state = .zombie
    · rw [if_pos hzombie, notify_state, hsame]
      simp [hzombie, hparent]
    · rw [if_neg hzombie, hsame, if_neg fun h => hzombie h.2.2.1]

theorem reparentOne_keeps (view : Proc → α)
    (hview : ∀ p t parent, view { p with toTask := t, parent := parent } = view p) (s : Sys)
    (i j : Slot) : view ((reparentOne dying foster s j).proc i) = view (s.proc i) := by
  unfold reparentOne
  dsimp only
  split_ifs
  · rfl
  · rw [notify_keeps view fun p t => hview p t p.parent, modify_keeps view (hview _ _ foster)]
  · rw [modify_keeps view (hview _ _ foster)]

/-- A zombie among the children to be given away. -/
def HasZombie (s : Sys) (dying : Slot) (slots : List Slot) : Prop :=
  ∃ j ∈ slots, (s.proc j).state = .zombie ∧ (s.proc j).parent = dying

instance (s : Sys) (dying : Slot) (slots : List Slot) : Decidable (HasZombie s dying slots) := by
  unfold HasZombie
  infer_instance

/-- The loop of `reparent_children` on part of the table. -/
theorem reparent_foldl (dying foster : Slot) {slots : List Slot} (hnodup : slots.Nodup) (s : Sys) :
    (∀ i, ((slots.foldl (reparentOne dying foster) s).proc i).parent =
      if i ∈ slots ∧ Orphan s dying i then foster else (s.proc i).parent) ∧
    ∀ i, ((slots.foldl (reparentOne dying foster) s).proc i).state =
      if i = foster ∧ (s.proc i).state = .interruptible ∧ HasZombie s dying slots then .running
      else (s.proc i).state := by
  induction slots generalizing s with
  | nil => simp [HasZombie]
  | cons j rest ih =>
    obtain ⟨hj, hrest⟩ := nodup_cons.mp hnodup
    obtain ⟨hparent, hstate⟩ := ih hrest (reparentOne dying foster s j)
    -- the first round changes neither who is a zombie nor who is an orphan among the rest
    have hkind : ∀ i, ∀ state ∈ [TaskState.unused, .zombie],
        (((reparentOne dying foster s j).proc i).state = state ↔ (s.proc i).state = state) := by
      intro i state hstate
      rw [reparentOne_state]
      split_ifs with hwoken
      · rw [hwoken.2.1]
        revert state
        decide
      · exact Iff.rfl
    have hother : ∀ i ∈ rest, ((reparentOne dying foster s j).proc i).parent =
        (s.proc i).parent := by
      intro i hi
      rw [reparentOne_parent, if_neg]
      rintro ⟨rfl, -⟩
      exact hj hi
    refine ⟨fun i => ?_, fun i => ?_⟩
    · rw [foldl_cons, hparent]
      by_cases hi : i ∈ rest
      · have horphan : Orphan (reparentOne dying foster s j) dying i ↔ Orphan s dying i := by
          unfold Orphan
          rw [ne_eq, hkind i _ (by simp), hother i hi]
        simp [hi, horphan, hother i hi]
      · rw [reparentOne_parent]
        simp [hi]
    · have hrestZombie : HasZombie (reparentOne dying foster s j) dying rest ↔
          HasZombie s dying rest := by
        refine exists_congr fun k => and_congr_right fun hk => ?_
        rw [hkind k _ (by simp), hother k hk]
      have hcons : HasZombie s dying (j :: rest) ↔
          ((s.proc j).state = .zombie ∧ (s.proc j).parent = dying) ∨ HasZombie s dying rest := by
        simp [HasZombie]
      have hone : ((reparentOne dying foster s j).proc i).state = _ := reparentOne_state s i j
      rw [foldl_cons, hstate]
      simp only [hrestZombie, hcons]
      by_cases hfirst : (s.proc j).state = .zombie ∧ (s.proc j).parent = dying
      · by_cases hwoken : i = foster ∧ (s.proc i).state = .interruptible
        · rw [if_pos ⟨hwoken.1, hwoken.2, hfirst⟩] at hone
          rw [hone, if_neg (by simp), if_pos ⟨hwoken.1, hwoken.2, .inl hfirst⟩]
        · rw [if_neg fun h => hwoken ⟨h.1, h.2.1⟩] at hone
          rw [hone, if_neg fun h => hwoken ⟨h.1, h.2.1⟩, if_neg fun h => hwoken ⟨h.1, h.2.1⟩]
      · simp [hone, hfirst]

/-- What a round keeps, the loop keeps. -/
theorem reparentChildren_rule (view : Sys → α)
    (hview : ∀ s foster j, view (reparentOne dying foster s j) = view s) (s : Sys) :
    view (s.reparentChildren dying) = view s := by
  unfold reparentChildren
  generalize finRange 64 = slots
  generalize (if (s.proc init).state ≠ .unused then init else idle) = foster
  induction slots generalizing s with
  | nil => rfl
  | cons j rest ih => rw [foldl_cons, ih, hview]

@[simp] theorem reparentChildren_kont (s : Sys) (dying : Slot) :
    (s.reparentChildren dying).kont = s.kont := by
  refine reparentChildren_rule (·.kont) (fun s _ j => ?_) s
  unfold reparentOne
  dsimp only
  split_ifs <;> rfl

end Reparent

/-- Who gets the children of a task that ends. -/
def foster (s : Sys) : Slot := if (s.proc init).state ≠ .unused then init else idle

theorem reparentChildren_parent (s : Sys) (dying i : Slot) :
    ((s.reparentChildren dying).proc i).parent =
      if Orphan s dying i then foster s else (s.proc i).parent := by
  rw [reparentChildren, (reparent_foldl dying _ (nodup_finRange 64) s).1]
  simp only [mem_finRange, true_and]
  rfl

/-- A zombie is among the children of a task. -/
def ZombieChild (s : Sys) (dying : Slot) : Prop :=
  ∃ j, (s.proc j).state = .zombie ∧ (s.proc j).parent = dying

instance (s : Sys) (dying : Slot) : Decidable (ZombieChild s dying) := by
  unfold ZombieChild
  infer_instance

theorem reparentChildren_state (s : Sys) (dying i : Slot) :
    ((s.reparentChildren dying).proc i).state =
      if i = foster s ∧ (s.proc i).state = .interruptible ∧ ZombieChild s dying then .running
      else (s.proc i).state := by
  have hzombie : HasZombie s dying (finRange 64) ↔ ZombieChild s dying := by
    simp [HasZombie, ZombieChild]
  rw [reparentChildren, (reparent_foldl dying _ (nodup_finRange 64) s).2]
  simp only [hzombie]
  rfl

/-! ## `do_exit` -/

/-- Who is told of the end of the current task. -/
def heir (s : Sys) : Slot :=
  if Orphan s s.current s.current then foster s else (s.proc s.current).parent

/-- The states after `do_exit`, by those after its first step. -/
theorem doExit_state (s : Sys) (code : ℕ) (i : Slot) :
    ((s.doExit code).proc i).state =
      if i = s.current then .zombie
      else if (s.wakeVforkParent.proc i).state = .interruptible ∧
          (i = foster s.wakeVforkParent ∧ ZombieChild s.wakeVforkParent s.current ∨
            i = heir s.wakeVforkParent) then .running
      else (s.wakeVforkParent.proc i).state := by
  unfold doExit notifyParent
  dsimp only
  generalize hs₁ : s.wakeVforkParent = s₁
  have hcurrent : s₁.current = s.current := by rw [← hs₁, wakeVforkParent_current]
  have hheir : ((s₁.reparentChildren s.current).proc s.current).parent = heir s₁ := by
    rw [reparentChildren_parent, heir, hcurrent]
  have hstate : ((s₁.reparentChildren s.current).proc i).state = _ :=
    reparentChildren_state s₁ s.current i
  generalize s₁.reparentChildren s.current = s₂ at hheir hstate ⊢
  rw [setKont_proc, notify_state, modify_keeps (·.parent) rfl, hheir, modify_proc]
  by_cases hnr : i = s.current
  · rw [if_pos hnr, if_pos hnr, if_neg (by simp)]
  rw [if_neg hnr, if_neg hnr]
  by_cases hsleep : (s₁.proc i).state = .interruptible
  · by_cases hfoster : i = foster s₁ ∧ ZombieChild s₁ s.current
    · rw [if_pos ⟨hfoster.1, hsleep, hfoster.2⟩] at hstate
      rw [hstate, if_neg (by simp), if_pos ⟨hsleep, .inl hfoster⟩]
    · simp [hstate, hsleep, hfoster]
  · rw [if_neg fun h => hsleep h.2.1] at hstate
    rw [hstate, if_neg fun h => hsleep h.2, if_neg fun h => hsleep h.1]

theorem doExit_parent (s : Sys) (code : ℕ) (i : Slot) :
    ((s.doExit code).proc i).parent =
      if Orphan s.wakeVforkParent s.current i then foster s.wakeVforkParent
      else (s.proc i).parent := by
  unfold doExit notifyParent
  dsimp only
  have hparent : ((s.wakeVforkParent.reparentChildren s.current).proc i).parent = _ :=
    reparentChildren_parent s.wakeVforkParent s.current i
  rw [wakeVforkParent_keeps (·.parent) fun _ _ _ => rfl] at hparent
  generalize s.wakeVforkParent.reparentChildren s.current = s₂ at hparent ⊢
  rw [setKont_proc, notify_keeps (·.parent) fun _ _ => rfl, modify_keeps (·.parent) rfl]
  exact hparent

theorem doExit_keeps (view : Proc → α)
    (hview : ∀ p t parent vp, view { p with toTask := t, parent := parent, vforkParent := vp } = view p)
    (s : Sys) (code : ℕ) (i : Slot) : view ((s.doExit code).proc i) = view (s.proc i) := by
  unfold doExit notifyParent
  have hsame : view ((s.wakeVforkParent.reparentChildren s.current).proc i) = view (s.proc i) := by
    rw [reparentChildren_rule (fun s => view (s.proc i)) fun s _ =>
        reparentOne_keeps view (fun p t parent => hview p t parent p.vforkParent) s i,
      wakeVforkParent_keeps view fun p state vp => hview p _ p.parent vp]
  rw [setKont_proc, notify_keeps view fun p t => hview p t p.parent p.vforkParent,
    modify_keeps view (hview _ _ _ _)]
  exact hsame

theorem doExit_kont (s : Sys) (code : ℕ) (i : Slot) :
    (s.doExit code).kont i = if i = s.current then .gone else s.kont i := by
  unfold doExit
  dsimp only
  have hkont : (s.wakeVforkParent.reparentChildren s.current).kont = s.kont := by
    rw [reparentChildren_kont, wakeVforkParent_kont]
  generalize s.wakeVforkParent.reparentChildren s.current = s₂ at hkont ⊢
  rw [setKont_kont]
  split_ifs
  · rfl
  · exact congrFun hkont i

/-! ## Links and numbers -/

theorem link_kin (s : Sys) (parent child i : Slot) :
    ((s.link parent child).proc i).kin = (s.proc i).kin := by
  unfold link
  rw [modify_keeps Proc.kin rfl, modify_keeps Proc.kin rfl, modify_keeps Proc.kin rfl]

theorem unlink_kin (s : Sys) (i j : Slot) : ((s.unlink i).proc j).kin = (s.proc j).kin := by
  unfold unlink
  rw [modify_keeps Proc.kin rfl, modify_keeps Proc.kin rfl]

theorem cloneSigactions_kin (s : Sys) (parent child i : Slot) :
    ((s.cloneSigactions parent child).proc i).kin = (s.proc i).kin := by
  unfold cloneSigactions
  rw [modify_keeps Proc.kin rfl]

theorem allocatePid_of_ne (hne : i ≠ j) : (s.allocatePid j).proc i = s.proc i := by
  unfold allocatePid
  rw [modify_proc, if_neg hne]

theorem allocatePid_keeps (view : Proc → α) (hview : ∀ p pid, view { p with pid := pid } = view p)
    (s : Sys) (i j : Slot) : view ((s.allocatePid j).proc i) = view (s.proc i) := by
  unfold allocatePid
  rw [modify_keeps view (hview _ _)]

/-! ## `fork` and `clone` -/

theorem forkTask_kin_of_ne (hne : i ≠ child) :
    ((s.forkTask child).proc i).kin = (s.proc i).kin := by
  unfold forkTask
  rw [modify_keeps Proc.kin rfl, allocatePid_of_ne hne, modify_proc, if_neg hne]

theorem forkTask_child (s : Sys) (child : Slot) :
    ((s.forkTask child).proc child).state = .running ∧
      ((s.forkTask child).proc child).parent = s.current := by
  unfold forkTask
  constructor
  · rw [modify_keeps (·.state) rfl, allocatePid_keeps (·.state) fun _ _ => rfl, modify_proc,
      if_pos rfl]
  · rw [modify_keeps (·.parent) rfl, allocatePid_keeps (·.parent) fun _ _ => rfl,
      modify_proc, if_pos rfl]

theorem cloneTask_child (flags : CloneFlags) (hne : child ≠ s.current) :
    ((s.cloneTask flags child).proc child).state = .running ∧
      ((s.cloneTask flags child).proc child).parent =
        if flags.parent then (s.proc s.current).parent
        else if flags.thread then (s.proc s.current).parent
        else s.current := by
  unfold cloneTask
  rw [modify_proc, if_neg hne]
  constructor
  · rw [allocatePid_keeps (·.state) fun _ _ => rfl, modify_proc, if_pos rfl]
  · rw [allocatePid_keeps (·.parent) fun _ _ => rfl, modify_proc, if_pos rfl]

/-- The slot holds a new task that is about to return to user mode. -/
structure Started (s s' : Sys) (child parent : Slot) : Prop where
  running : (s'.proc child).state = .running
  parent_eq : (s'.proc child).parent = parent
  kont_eq : s'.kont child = .leaving
  others : ∀ i, i ≠ child → i ≠ s.current →
    (s'.proc i).kin = (s.proc i).kin ∧ s'.kont i = s.kont i

section Create

variable {child : Slot}

theorem fork_cases (s : Sys) (stack space : Bool) :
    (s.freeSlot = none ∨ stack = false) ∧ s.fork stack space = s ∨
      ∃ child, s.freeSlot = some child ∧ stack = true := by
  unfold fork
  cases s.freeSlot with
  | none => exact .inl ⟨.inl rfl, rfl⟩
  | some child =>
    cases stack with
    | false => exact .inl ⟨.inr rfl, rfl⟩
    | true => exact .inr ⟨child, rfl, rfl⟩

section

variable (hslot : s.freeSlot = some child)

include hslot

theorem fork_eq :
    s.fork true true = (((s.forkTask child).cloneSigactions s.current child).link s.current
      child).setKont child .leaving := by
  unfold fork
  rw [hslot]
  rfl

theorem fork_kin (i : Slot) :
    ((s.fork true true).proc i).kin = ((s.forkTask child).proc i).kin := by
  rw [fork_eq hslot, setKont_proc, link_kin, cloneSigactions_kin]

theorem fork_others (hne : i ≠ child) :
    ((s.fork true true).proc i).kin = (s.proc i).kin ∧ (s.fork true true).kont i = s.kont i := by
  constructor
  · exact (fork_kin hslot i).trans (forkTask_kin_of_ne hne)
  · rw [fork_eq hslot, setKont_kont, if_neg hne]
    rfl

theorem fork_started : Started s (s.fork true true) child s.current := by
  obtain ⟨hrunning, hparent⟩ := forkTask_child s child
  refine ⟨?_, ?_, ?_, fun i hi _ => fork_others hslot hi⟩
  · exact (congrArg Kin.state (fork_kin hslot child)).trans hrunning
  · exact (congrArg Kin.parent (fork_kin hslot child)).trans hparent
  · rw [fork_eq hslot, setKont_kont, if_pos rfl]

/-- The slot of a `fork` that failed in the middle. -/
theorem fork_half : s.fork true false = s.forkTask child := by
  unfold fork
  rw [hslot]
  rfl

end

theorem clone_cases (s : Sys) (flags : CloneFlags) (stack : Bool) :
    (s.freeSlot = none ∨ stack = false) ∧ s.clone flags stack = s.setKont s.current .leaving ∨
      ∃ child, s.freeSlot = some child ∧ stack = true := by
  unfold clone
  cases s.freeSlot with
  | none => exact .inl ⟨.inl rfl, rfl⟩
  | some child =>
    cases stack with
    | false => exact .inl ⟨.inr rfl, rfl⟩
    | true => exact .inr ⟨child, rfl, rfl⟩

/-- The parent that `clone` gives a child. -/
def cloneParent (s : Sys) (flags : CloneFlags) : Slot :=
  if flags.parent then (s.proc s.current).parent
  else if flags.thread then (s.proc s.current).parent
  else s.current

section

variable {flags : CloneFlags} (hslot : s.freeSlot = some child)

include hslot

theorem clone_eq :
    s.clone flags true = ((((s.cloneTask flags child).cloneSigactions s.current child).link
      s.current child).setKont child .leaving).setKont s.current
        (if flags.vfork then .vfork child else .leaving) := by
  unfold clone
  rw [hslot]
  rfl

theorem clone_kin (i : Slot) :
    ((s.clone flags true).proc i).kin = ((s.cloneTask flags child).proc i).kin := by
  rw [clone_eq hslot, setKont_proc, setKont_proc, link_kin, cloneSigactions_kin]

theorem clone_others (hne : i ≠ child)
    (hcurrent : i ≠ s.current) :
    ((s.clone flags true).proc i).kin = (s.proc i).kin ∧
      (s.clone flags true).kont i = s.kont i := by
  constructor
  · refine (clone_kin hslot i).trans ?_
    unfold cloneTask
    rw [modify_proc, if_neg hcurrent, allocatePid_of_ne hne, modify_proc, if_neg hne]
  · rw [clone_eq hslot, setKont_kont, if_neg hcurrent, setKont_kont, if_neg hne]
    rfl

end

section

variable (flags : CloneFlags) (hslot : s.freeSlot = some child) (hne : s.current ≠ child)

include hslot hne

theorem clone_started : Started s (s.clone flags true) child (cloneParent s flags) := by
  obtain ⟨hrunning, hparent⟩ := cloneTask_child flags hne.symm
  refine ⟨?_, ?_, ?_, fun i => clone_others hslot⟩
  · exact (congrArg Kin.state (clone_kin hslot child)).trans hrunning
  · exact (congrArg Kin.parent (clone_kin hslot child)).trans hparent
  · rw [clone_eq hslot, setKont_kont, if_neg hne.symm, setKont_kont, if_pos rfl]

theorem clone_current :
    ((s.clone flags true).proc s.current).kin =
        { (s.proc s.current).kin with
          state := if flags.vfork then .interruptible else (s.proc s.current).state } ∧
      (s.clone flags true).kont s.current = if flags.vfork then .vfork child else .leaving := by
  constructor
  · refine (clone_kin hslot s.current).trans ?_
    unfold cloneTask
    rw [modify_proc, if_pos rfl, allocatePid_of_ne hne, modify_proc, if_neg hne]
    rfl
  · rw [clone_eq hslot, setKont_kont, if_pos rfl]

end

/-- The tasks that `fork` leaves as they are. -/
theorem fork_frame (stack space : Bool) (hused : (s.proc i).state ≠ .unused) :
    ((s.fork stack space).proc i).kin = (s.proc i).kin ∧
      (s.fork stack space).kont i = s.kont i := by
  rcases fork_cases s stack space with ⟨-, hrefused⟩ | ⟨child, hslot, rfl⟩
  · rw [hrefused]
    exact ⟨rfl, rfl⟩
  · have hchild : i ≠ child := by
      rintro rfl
      exact hused (freeSlot_spec hslot).2
    cases space with
    | false =>
      rw [fork_half hslot]
      exact ⟨forkTask_kin_of_ne hchild, rfl⟩
    | true => exact fork_others hslot hchild

theorem clone_frame (flags : CloneFlags) (stack : Bool) (hne : i ≠ s.current)
    (hused : (s.proc i).state ≠ .unused) :
    ((s.clone flags stack).proc i).kin = (s.proc i).kin ∧
      (s.clone flags stack).kont i = s.kont i := by
  rcases clone_cases s flags stack with ⟨-, hrefused⟩ | ⟨child, hslot, rfl⟩
  · rw [hrefused]
    refine ⟨rfl, ?_⟩
    rw [setKont_kont, if_neg hne]
  · refine clone_others hslot ?_ hne
    rintro rfl
    exact hused (freeSlot_spec hslot).2

end Create

/-! ## `release` -/

theorem release_kin_of_ne (hne : i ≠ j) : ((s.release j).proc i).kin = (s.proc i).kin := by
  unfold release
  split_ifs
  · rfl
  · rw [modify_proc, if_neg hne, unlink_kin]

theorem release_state (hcurrent : j ≠ s.current) : ((s.release j).proc j).state = .unused := by
  unfold release
  split_ifs with hrefused
  · rcases hrefused with hself | hunused
    · exact absurd hself hcurrent
    · exact hunused
  · rw [modify_proc, if_pos rfl]

@[simp] theorem release_kont (s : Sys) (j : Slot) : (s.release j).kont = s.kont := by
  unfold release
  split_ifs <;> rfl

/-! ## `wait4` -/

section

variable {me : Slot} {pid : ℤ} {flags : WaitFlags}

theorem reply_reaped (h : s.reply me pid flags = .reaped j) :
    s.Wanted me pid j ∧ (s.proc j).state = .zombie := by
  unfold reply at h
  cases hfound : s.found me pid flags with
  | none =>
    rw [hfound] at h
    split_ifs at h
  | some i =>
    rw [hfound] at h
    dsimp only at h
    split_ifs at h with hzombie
    cases h
    have hwanted := find?_some hfound
    exact ⟨(of_decide_eq_true hwanted).1, hzombie⟩

theorem reply_echild_iff : s.reply me pid flags = .echild ↔ ¬ ∃ i, s.Wanted me pid i := by
  unfold reply
  cases hfound : s.found me pid flags with
  | none =>
    split_ifs with hnone hnohang
    · simp [hnone]
    · simp [hnone]
    · simp [hnone]
  | some i =>
    dsimp only
    have hwanted := find?_some hfound
    have hexists : ∃ i, s.Wanted me pid i := ⟨i, (of_decide_eq_true hwanted).1⟩
    split_ifs
    · simp [hexists]
    · simp [hexists]

/-- A caller that goes to sleep has no zombie among its children. -/
theorem reply_sleep (h : s.reply me pid flags = .sleep)
    (hwanted : s.Wanted me pid i) : (s.proc i).state ≠ .zombie := by
  unfold reply at h
  cases hfound : s.found me pid flags with
  | none =>
    intro hzombie
    refine find?_eq_none.mp hfound i (mem_finRange i) ?_
    exact decide_eq_true ⟨hwanted, .inl hzombie⟩
  | some j =>
    rw [hfound] at h
    dsimp only at h
    split_ifs at h

end

section

variable (pid : ℤ) (flags : WaitFlags) (hne : i ≠ s.current)

include hne

theorem wait4_kont : (s.wait4 pid flags).kont i = s.kont i := by
  unfold wait4
  cases s.reply s.current pid flags with
  | reaped j =>
    unfold answer
    rw [setKont_kont, if_neg hne, release_kont]
  | stopped j | sleep =>
    unfold answer
    rw [setKont_kont, if_neg hne]
    rfl
  | echild | nothing =>
    unfold answer
    rw [setKont_kont, if_neg hne]

/-- The tasks that `wait4` leaves as they are. -/
theorem wait4_kin (hkept : s.reply s.current pid flags ≠ .reaped i) :
    ((s.wait4 pid flags).proc i).kin = (s.proc i).kin := by
  unfold wait4
  cases hreply : s.reply s.current pid flags with
  | reaped j =>
    refine release_kin_of_ne ?_
    rintro rfl
    exact hkept hreply
  | stopped j =>
    unfold answer
    rw [setKont_proc, modify_keeps Proc.kin rfl]
  | echild | nothing => rfl
  | sleep =>
    unfold answer
    rw [setKont_proc, modify_proc, if_neg hne]

theorem wait4_frame (hstate : (s.proc i).state ≠ .zombie) :
    ((s.wait4 pid flags).proc i).kin = (s.proc i).kin ∧ (s.wait4 pid flags).kont i = s.kont i :=
  ⟨wait4_kin pid flags hne fun hreply => hstate (reply_reaped hreply).2, wait4_kont pid flags hne⟩

end

/-- What becomes of the task that calls. -/
theorem wait4_current (s : Sys) (pid : ℤ) (flags : WaitFlags) :
    s.reply s.current pid flags = .sleep ∧
        ((s.wait4 pid flags).proc s.current).kin =
          { (s.proc s.current).kin with state := .interruptible } ∧
        (s.wait4 pid flags).kont s.current = .wait4 pid flags ∨
      ((s.wait4 pid flags).proc s.current).kin = (s.proc s.current).kin ∧
        (s.wait4 pid flags).kont s.current = .leaving := by
  unfold wait4
  cases hreply : s.reply s.current pid flags with
  | reaped j =>
    unfold answer
    rw [setKont_kont, if_pos rfl]
    exact .inr ⟨release_kin_of_ne (reply_reaped hreply).1.1.symm, rfl⟩
  | stopped j =>
    unfold answer
    rw [setKont_proc, setKont_kont, if_pos rfl, modify_keeps Proc.kin rfl]
    exact .inr ⟨rfl, rfl⟩
  | echild | nothing =>
    unfold answer
    rw [setKont_kont, if_pos rfl]
    exact .inr ⟨rfl, rfl⟩
  | sleep =>
    unfold answer
    rw [setKont_proc, setKont_kont, if_pos rfl, modify_proc, if_pos rfl]
    exact .inl ⟨rfl, rfl, rfl⟩

/-- The tasks that are left as they are when the current one goes on. -/
theorem resume_frame (hne : i ≠ s.current) (hstate : (s.proc i).state ≠ .zombie) :
    (s.resume.proc i).kin = (s.proc i).kin ∧ s.resume.kont i = s.kont i := by
  have hset : ∀ kont, (s.setKont s.current kont).kont i = s.kont i := by
    intro kont
    rw [setKont_kont, if_neg hne]
  unfold resume
  dsimp only
  cases s.kont s.current with
  | wait4 pid flags =>
    split_ifs
    · exact ⟨rfl, hset _⟩
    · exact wait4_frame pid flags hne hstate
  | vfork child | stopped | asleep queue | nap => exact ⟨rfl, hset _⟩
  | user | kernel | leaving | gone => exact ⟨rfl, rfl⟩

/-! ## Scheduling -/

section

variable {α : Type*} (view : Proc → α)

section

variable (hview : ∀ p counter, view { p with counter := counter } = view p) (s : Sys) (i : Slot)

include hview

theorem recharge_keeps : view (s.recharge.proc i) = view (s.proc i) := by
  unfold recharge
  dsimp only
  split_ifs
  · rfl
  · exact hview _ _

theorem schedule_keeps : view (s.schedule.proc i) = view ((s.proc i).wake s.jiffies) := by
  unfold schedule
  dsimp only
  split_ifs
  · exact recharge_keeps view hview s.wakeSleepers i
  · rfl

end

end

@[simp] theorem schedule_kont (s : Sys) : s.schedule.kont = s.kont := by
  unfold schedule
  dsimp only
  split_ifs <;> rfl

theorem wakeUp_of_notMem {queue : ℕ} {only : Bool} (h : i ∉ s.queue queue) :
    (s.wakeUp queue only).proc i = s.proc i := by
  unfold wakeUp
  generalize s.queue queue = slots at h ⊢
  induction slots generalizing s with
  | nil => rfl
  | cons j rest ih =>
    have hne : i ≠ j := ne_of_not_mem_cons h
    rw [foldl_cons, ih (not_mem_of_not_mem_cons h)]
    unfold wakeOne
    rw [modify_proc, if_neg hne]

@[simp] theorem wakeUp_kont (s : Sys) (queue : ℕ) (only : Bool) :
    (s.wakeUp queue only).kont = s.kont := by
  unfold wakeUp
  generalize s.queue queue = slots
  induction slots generalizing s with
  | nil => rfl
  | cons j rest ih => rw [foldl_cons, ih]; rfl

theorem whenAt_ok {kont : Kont} {next : Sys} (h : s.whenAt kont next = .ok s') :
    s.kont s.current = kont ∧ s' = next := by
  unfold whenAt at h
  split_ifs at h with hkont
  cases h
  exact ⟨hkont, rfl⟩

/-! ## `do_signal` -/

theorem take_kin (s : Sys) (i : Slot) : (s.take.proc i).kin = (s.proc i).kin :=
  modify_keeps Proc.kin rfl

theorem deliver_of_fatal (h : s.fatal = true) : s.deliver = s.take.doExit s.nextSignal := by
  obtain ⟨hpending, hexit⟩ := Bool.and_eq_true_iff.mp h
  unfold Sys.deliver
  rw [if_neg (by simpa using hpending)]
  cases heffect : s.nextEffect with
  | exit => rfl
  | discard | deliver _ | wake | stop =>
    rw [heffect] at hexit
    cases hexit

theorem deliver_of_not_fatal (h : s.fatal = false) :
    s.deliver = s.setKont s.current .user ∨
      s.nextEffect ≠ .exit ∧ s.deliver = s.take.act s.nextSignal s.nextEffect := by
  by_cases hpending : (s.proc s.current).pending = 0#64
  · exact .inl (if_pos hpending)
  · refine .inr ⟨fun hexit => ?_, if_neg hpending⟩
    unfold fatal at h
    rw [hexit] at h
    simp [hpending] at h

section Act

variable {effect : Effect}

theorem act_of_ne (signum : ℕ) (heffect : effect ≠ .exit) (hne : i ≠ s.current) :
    ((s.act signum effect).proc i).kin = (s.proc i).kin ∧
      (s.act signum effect).kont i = s.kont i := by
  cases effect with
  | discard | deliver _ => exact ⟨rfl, rfl⟩
  | wake =>
    unfold act
    rw [modify_proc, if_neg hne]
    exact ⟨rfl, rfl⟩
  | stop =>
    unfold act
    rw [setKont_proc, setKont_kont, modify_proc, if_neg hne]
    exact ⟨rfl, if_neg hne⟩
  | exit => exact absurd rfl heffect

end Act

/-- A round of `do_signal` that does not end the task leaves the others as they are. -/
theorem deliver_of_ne (h : s.fatal = false) (hne : i ≠ s.current) :
    (s.deliver.proc i).kin = (s.proc i).kin ∧ s.deliver.kont i = s.kont i := by
  rcases deliver_of_not_fatal h with hdone | ⟨heffect, hact⟩
  · rw [hdone, setKont_kont, if_neg hne]
    exact ⟨rfl, rfl⟩
  · rw [hact, ← take_kin s i]
    exact act_of_ne s.nextSignal heffect hne

end Shitix.Sched
