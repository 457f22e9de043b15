import Shitix.Sched.Effects

/-!
# The dead do not act

In all runs a slot that holds no task or a zombie goes on nowhere (`Alive`), so that whoever is
current and does something is a task.
-/

namespace Shitix.Sched

open Signal Sys

variable {s s' : Sys} {i : Slot} {event : Event}

/-- The state of a slot without a living task. -/
def Dead (state : TaskState) : Prop := state = .unused ∨ state = .zombie

/-- The dead go on nowhere. -/
def Alive (s : Sys) : Prop := ∀ i, Dead (s.proc i).state → s.kont i = .gone

theorem alive_boot : Alive .boot := by
  unfold Alive Dead
  decide

section

variable (h : Alive s)

include h

theorem Alive.not_dead (hkont : s.kont i ≠ .gone) : ¬ Dead (s.proc i).state :=
  fun hdead => hkont (h i hdead)

/-- A step after which the dead were dead before and go on where they did, or are gone. -/
theorem Alive.of_dead (hdead : ∀ i, Dead (s'.proc i).state →
    s'.kont i = .gone ∨ Dead (s.proc i).state ∧ s'.kont i = s.kont i) : Alive s' := by
  intro i hi
  rcases hdead i hi with hgone | ⟨hbefore, hkont⟩
  · exact hgone
  · exact hkont.trans (h i hbefore)

theorem Alive.of_kin (hkin : ∀ i, (s'.proc i).kin = (s.proc i).kin)
    (hkont : ∀ i, i ≠ s.current → s'.kont i = s.kont i) (hcurrent : s.kont s.current ≠ .gone) :
    Alive s' := by
  refine h.of_dead fun i hi => ?_
  rw [state_of_kin (hkin i)] at hi
  by_cases hself : i = s.current
  · subst hself
    exact absurd hi (h.not_dead hcurrent)
  · exact .inr ⟨hi, hkont i hself⟩

theorem Alive.doExit (code : ℕ) : Alive (s.doExit code) := by
  refine h.of_dead fun i hi => ?_
  rw [doExit_kont]
  by_cases hself : i = s.current
  · exact .inl (if_pos hself)
  · rw [doExit_state, wakeVforkParent_state] at hi
    refine .inr ⟨?_, if_neg hself⟩
    split_ifs at hi
    · rcases hi with hi | hi <;> cases hi
    · rcases hi with hi | hi <;> cases hi
    · rcases hi with hi | hi <;> cases hi
    · exact hi

theorem Alive.wait4 (hcurrent : s.kont s.current ≠ .gone) (pid : ℤ)
    (flags : WaitFlags) : Alive (s.wait4 pid flags) := by
  refine h.of_dead fun i hi => ?_
  by_cases hself : i = s.current
  · subst hself
    rcases wait4_current s pid flags with ⟨-, hkin, -⟩ | ⟨hkin, -⟩
    · have hstate : ((s.wait4 pid flags).proc s.current).state = .interruptible :=
        congrArg Kin.state hkin
      rw [hstate] at hi
      rcases hi with hi | hi <;> cases hi
    · rw [state_of_kin hkin] at hi
      exact absurd hi (h.not_dead hcurrent)
  · refine .inr ⟨?_, wait4_kont pid flags hself⟩
    by_cases hzombie : (s.proc i).state = .zombie
    · exact .inr hzombie
    · rwa [state_of_kin (wait4_frame pid flags hself hzombie).1] at hi

theorem Alive.resume : Alive s.resume := by
  have hset : ∀ kont, s.kont s.current ≠ .gone → Alive (s.setKont s.current kont) := by
    intro kont hcurrent
    refine h.of_kin (fun _ => rfl) (fun i hi => ?_) hcurrent
    rw [setKont_kont, if_neg hi]
  unfold Sys.resume
  dsimp only
  cases hkont : s.kont s.current with
  | wait4 pid flags =>
    have hcurrent : s.kont s.current ≠ .gone := by
      rw [hkont]
      simp
    split_ifs
    · exact hset _ hcurrent
    · exact h.wait4 hcurrent pid flags
  | vfork child | stopped | asleep queue | nap => exact hset _ (by rw [hkont]; simp)
  | user | kernel | leaving | gone => exact h

/-- A step at which a slot becomes a task and the others stay as they are. -/
theorem Alive.create {c : Slot} (hchild : ¬ Dead (s'.proc c).state)
    (hcurrent : ¬ Dead (s'.proc s.current).state)
    (hothers : ∀ i, i ≠ c → i ≠ s.current →
      (s'.proc i).kin = (s.proc i).kin ∧ s'.kont i = s.kont i) : Alive s' := by
  refine h.of_dead fun i hi => ?_
  by_cases heq : i = c
  · subst heq
    exact absurd hi hchild
  · by_cases hself : i = s.current
    · subst hself
      exact absurd hi hcurrent
    · obtain ⟨hkin, hkont⟩ := hothers i heq hself
      rw [state_of_kin hkin] at hi
      exact .inr ⟨hi, hkont⟩

end

theorem not_dead_running : ¬ Dead .running := by
  unfold Dead
  decide

theorem not_dead_interruptible : ¬ Dead .interruptible := by
  unfold Dead
  decide

theorem Alive.setKont (h : Alive s) (hlive : ¬ Dead (s.proc i).state) (kont : Kont) :
    Alive (s.setKont i kont) := by
  refine h.of_dead fun j hj => ?_
  by_cases heq : j = i
  · subst heq
    exact absurd hj hlive
  · rw [setKont_kont, if_neg heq]
    exact .inr ⟨hj, rfl⟩

/-- A step of the current task alone, after which it lives. -/
theorem Alive.own (h : Alive s) (hcurrent : ¬ Dead (s'.proc s.current).state)
    (hothers : ∀ i, i ≠ s.current → (s'.proc i).kin = (s.proc i).kin ∧ s'.kont i = s.kont i) :
    Alive s' :=
  h.create hcurrent hcurrent fun i hi _ => hothers i hi

/-- A step that kills no one. -/
theorem Alive.of_wake (h : Alive s) (hdead : ∀ i, Dead (s'.proc i).state → Dead (s.proc i).state)
    (hkont : s'.kont = s.kont) : Alive s' :=
  h.of_dead fun i hi => .inr ⟨hdead i hi, congrFun hkont i⟩

theorem act_dead {signum : ℕ} {effect : Effect} (heffect : effect ≠ .exit)
    (h : Dead ((s.act signum effect).proc s.current).state) : Dead (s.proc s.current).state := by
  cases effect with
  | discard | deliver _ => exact h
  | wake =>
    unfold act Task.woken at h
    rw [modify_proc, if_pos rfl] at h
    split_ifs at h
    · exact absurd h not_dead_running
    · exact h
  | stop =>
    unfold act at h
    rw [setKont_proc, modify_proc, if_pos rfl] at h
    rcases h with h | h <;> cases h
  | exit => exact absurd rfl heffect

section

variable (h : Alive s) (hcurrent : s.kont s.current ≠ .gone)

include h hcurrent

theorem Alive.fork (stack space : Bool) : Alive (s.fork stack space) := by
  rcases fork_cases s stack space with ⟨-, hrefused⟩ | ⟨child, hslot, rfl⟩
  · rw [hrefused]
    exact h
  · have hne : s.current ≠ child := by
      rintro rfl
      exact h.not_dead hcurrent (.inl (freeSlot_spec hslot).2)
    cases space with
    | false =>
      rw [fork_half hslot]
      refine h.create ?_ ?_ fun i hi _ => ⟨forkTask_kin_of_ne hi, rfl⟩
      · rw [(forkTask_child s child).1]
        exact not_dead_running
      · rw [state_of_kin (forkTask_kin_of_ne hne)]
        exact h.not_dead hcurrent
    | true =>
      have hstarted := fork_started hslot
      refine h.create ?_ ?_ hstarted.others
      · rw [hstarted.running]
        exact not_dead_running
      · rw [state_of_kin (fork_others hslot hne).1]
        exact h.not_dead hcurrent

theorem Alive.clone (flags : CloneFlags) (stack : Bool) : Alive (s.clone flags stack) := by
  rcases clone_cases s flags stack with ⟨-, hrefused⟩ | ⟨child, hslot, rfl⟩
  · rw [hrefused]
    exact h.setKont (h.not_dead hcurrent) _
  · have hne : s.current ≠ child := by
      rintro rfl
      exact h.not_dead hcurrent (.inl (freeSlot_spec hslot).2)
    have hstarted := clone_started flags hslot hne
    refine h.create ?_ ?_ hstarted.others
    · rw [hstarted.running]
      exact not_dead_running
    · have hstate : ((s.clone flags true).proc s.current).state =
          if flags.vfork then .interruptible else (s.proc s.current).state :=
        congrArg Kin.state (clone_current flags hslot hne).1
      rw [hstate]
      cases flags.vfork with
      | true => exact not_dead_interruptible
      | false => exact h.not_dead hcurrent

theorem Alive.deliver : Alive s.deliver := by
  cases hfatal : s.fatal with
  | true =>
    rw [deliver_of_fatal hfatal]
    have htaken : Alive s.take :=
      h.of_wake (fun i hi => by rwa [state_of_kin (take_kin s i)] at hi) rfl
    exact htaken.doExit _
  | false =>
    refine h.own (fun hdead => h.not_dead hcurrent ?_) fun i => deliver_of_ne hfatal
    rcases deliver_of_not_fatal hfatal with hdone | ⟨heffect, hact⟩
    · rw [hdone] at hdead
      exact hdead
    · rw [hact] at hdead
      have htaken : Dead (s.take.proc s.current).state := act_dead heffect hdead
      rwa [state_of_kin (take_kin s s.current)] at htaken

end

/-! ## Waking -/

/-- What `wait4` knows of a task, but for its state. -/
def Proc.family (p : Proc) : Slot × ℤ × ℤ := (p.parent, p.pid, p.pgrp)

/-- Tasks are woken, and nothing else happens to the families. -/
def Woken (s s' : Sys) : Prop :=
  ∀ i, (s'.proc i).family = (s.proc i).family ∧
    ((s'.proc i).state = (s.proc i).state ∨
      (s'.proc i).state = .running ∧ ¬ Dead (s.proc i).state)

theorem Woken.trans {s'' : Sys} (h : Woken s s') (h' : Woken s' s'') : Woken s s'' := by
  intro i
  obtain ⟨hfamily, hstate⟩ := h i
  obtain ⟨hfamily', hstate'⟩ := h' i
  refine ⟨hfamily'.trans hfamily, ?_⟩
  rcases hstate' with heq' | ⟨hrunning', hlives⟩
  · rwa [heq']
  · rcases hstate with heq | ⟨-, hlives'⟩
    · exact .inr ⟨hrunning', by rwa [heq] at hlives⟩
    · exact .inr ⟨hrunning', hlives'⟩

theorem Woken.dead (h : Woken s s') (hdead : Dead (s'.proc i).state) : Dead (s.proc i).state := by
  rcases (h i).2 with heq | ⟨hrunning, -⟩
  · rwa [heq] at hdead
  · rw [hrunning] at hdead
    exact absurd hdead not_dead_running

theorem woken_modify {f : Proc → Proc} (hfamily : (f (s.proc i)).family = (s.proc i).family)
    (hstate : (f (s.proc i)).state = (s.proc i).state ∨
      (f (s.proc i)).state = .running ∧ ¬ Dead (s.proc i).state) : Woken s (s.modify i f) := by
  intro j
  rw [modify_proc]
  by_cases heq : j = i
  · rw [if_pos heq, heq]
    exact ⟨hfamily, hstate⟩
  · rw [if_neg heq]
    exact ⟨rfl, .inl rfl⟩

theorem woken_sendSig (s : Sys) (signum : ℕ) (i : Slot) : Woken s (s.sendSig signum i) := by
  refine woken_modify rfl ?_
  have hsent : ((s.proc i).sendSig signum).state = ((s.proc i).toTask.sendSig signum).1.state := rfl
  rw [hsent, state_sendSig]
  split_ifs with hsleep hcont
  · refine .inr ⟨rfl, ?_⟩
    rw [hsleep.1]
    exact not_dead_interruptible
  · refine .inr ⟨rfl, ?_⟩
    rw [hcont.1]
    exact fun hdead => by rcases hdead with hdead | hdead <;> cases hdead
  · exact .inl rfl

theorem woken_wakeUp (s : Sys) (queue : ℕ) (only : Bool) : Woken s (s.wakeUp queue only) := by
  unfold wakeUp
  generalize s.queue queue = slots
  induction slots generalizing s with
  | nil => exact fun _ => ⟨rfl, .inl rfl⟩
  | cons j rest ih =>
    refine Woken.trans (woken_modify ?_ ?_) (ih _)
    · split_ifs <;> rfl
    · split_ifs with hsleep
      · refine .inr ⟨rfl, fun hdead => ?_⟩
        rcases hsleep with hsleep | ⟨hsleep, -⟩ <;> rw [hsleep] at hdead <;>
          rcases hdead with hdead | hdead <;> cases hdead
      · exact .inl rfl

theorem woken_schedule (s : Sys) : Woken s s.schedule := by
  intro i
  rw [schedule_keeps Proc.family fun _ _ => rfl, schedule_keeps (·.state) fun _ _ => rfl]
  unfold Proc.wake
  split_ifs with hawake
  · exact ⟨rfl, .inl rfl⟩
  · refine ⟨rfl, .inr ⟨rfl, ?_⟩⟩
    rw [not_not.mp hawake]
    exact not_dead_interruptible
  · refine ⟨rfl, .inr ⟨rfl, ?_⟩⟩
    rw [not_not.mp hawake]
    exact not_dead_interruptible
  · exact ⟨rfl, .inl rfl⟩

/-! ## Steps -/

theorem Alive.step (h : Alive s) (hstep : s.step event = .ok s') : Alive s' := by
  have hacts : ∀ {kont : Kont}, s.kont s.current = kont → kont ≠ .gone →
      s.kont s.current ≠ .gone := fun hkont hne => hkont ▸ hne
  cases event with
  | enter | leave =>
    obtain ⟨hkont, rfl⟩ := whenAt_ok hstep
    exact h.setKont (h.not_dead (hacts hkont (by simp))) _
  | fork stack space =>
    obtain ⟨hkont, rfl⟩ := whenAt_ok hstep
    have hlive := h.not_dead (hacts hkont (by simp))
    refine (h.fork (hacts hkont (by simp)) stack space).setKont ?_ _
    rw [state_of_kin (fork_frame stack space fun hunused => hlive (.inl hunused)).1]
    exact hlive
  | clone flags stack =>
    obtain ⟨hkont, rfl⟩ := whenAt_ok hstep
    exact h.clone (hacts hkont (by simp)) flags stack
  | execve ok =>
    obtain ⟨hkont, rfl⟩ := whenAt_ok hstep
    have hcurrent := hacts hkont (by simp)
    cases ok with
    | false => exact h.setKont (h.not_dead hcurrent) _
    | true =>
      have hwoken : Alive s.wakeVforkParent := by
        refine h.of_wake (fun i hi => ?_) (wakeVforkParent_kont s)
        rw [wakeVforkParent_state] at hi
        split_ifs at hi
        · rcases hi with hi | hi <;> cases hi
        · exact hi
      refine hwoken.setKont (hwoken.not_dead ?_) _
      rw [wakeVforkParent_kont]
      exact hcurrent
  | exit code =>
    obtain ⟨-, rfl⟩ := whenAt_ok hstep
    exact h.doExit _
  | wait4 pid flags =>
    obtain ⟨hkont, rfl⟩ := whenAt_ok hstep
    exact h.wait4 (hacts hkont (by simp)) pid flags
  | sigmask mask =>
    obtain ⟨-, rfl⟩ := whenAt_ok hstep
    exact h.of_wake (fun i hi => by rwa [modify_keeps (·.state) rfl] at hi) rfl
  | sleepOn queue interruptible timeout =>
    obtain ⟨-, rfl⟩ := whenAt_ok hstep
    unfold sleepOn
    refine h.own ?_ fun i hi => ?_
    · rw [setKont_proc, modify_proc, if_pos rfl]
      intro hdead
      cases interruptible <;> rcases hdead with hdead | hdead <;> cases hdead
    · rw [setKont_proc, setKont_kont, modify_proc, if_neg hi]
      exact ⟨rfl, if_neg hi⟩
  | nap timeout =>
    obtain ⟨-, rfl⟩ := whenAt_ok hstep
    unfold nap
    refine h.own ?_ fun i hi => ?_
    · rw [setKont_proc, modify_proc, if_pos rfl]
      exact not_dead_interruptible
    · rw [setKont_proc, setKont_kont, modify_proc, if_neg hi]
      exact ⟨rfl, if_neg hi⟩
  | resume =>
    simp only [step] at hstep
    split_ifs at hstep
    cases hstep
    exact h.resume
  | deliver =>
    obtain ⟨hkont, rfl⟩ := whenAt_ok hstep
    exact h.deliver (hacts hkont (by simp))
  | schedule =>
    cases hstep
    exact h.of_wake (fun _ => (woken_schedule s).dead) (schedule_kont s)
  | tick =>
    cases hstep
    refine h.of_wake (fun i hi => ?_) rfl
    unfold tick at hi
    rwa [modify_keeps (·.state) rfl] at hi
  | wakeUp queue only =>
    cases hstep
    exact h.of_wake (fun _ => (woken_wakeUp s queue only).dead) (wakeUp_kont s queue only)
  | signal target signum =>
    cases hstep
    exact h.of_wake (fun _ => (woken_sendSig s signum target).dead) rfl
  | sigaction task table =>
    cases hstep
    exact h.of_wake (fun i hi => by rwa [modify_keeps (·.state) rfl] at hi) rfl

end Shitix.Sched
