import Shitix.Sched.Effects

/-!
# How a task comes to run

A slot that holds no living task should become `Running` only as a new task, a stopped one only
through `SIGCONT` or `SIGKILL`, and one that sleeps without being interruptible only through a
wake-up of the queue it is on (`StateLaw`).

Two places write a state without looking at what it was.  A task that ends or executes a program
sets the slot it has in `vfork_parent` running, and every descendant of a `vfork` child inherits
that slot number, so the slot may hold a zombie, a stopped task or nothing by then
(`dead_slot_runs`).  And a `fork` that cannot copy the address space returns without giving the
slot back.  Where neither happens (`StateFits`), the law holds in all runs.

`Light` tasks run or sleep interruptibly.  Nearly everything makes running only tasks that are
light (`Calm`).
-/

namespace Shitix.Sched

open Signal Sys

variable {s s' s'' : Sys} {i j : Slot} {f : Proc → Proc} {event : Event} {stack only : Bool}
  {signum : ℕ}

/-! ## The law -/

/-- The event makes a new task in the slot. -/
def Creates (s : Sys) (i : Slot) : Event → Prop
  | .fork stack space => stack = true ∧ space = true ∧ s.freeSlot = some i
  | .clone _ stack => stack = true ∧ s.freeSlot = some i
  | _ => False

/-- The task is sent `SIGCONT` or `SIGKILL`, or acts on a `SIGCONT`. -/
def Continues (s : Sys) (i : Slot) : Event → Prop
  | .signal target signum => target = i ∧ (signum = sigcont ∨ signum = sigkill)
  | .deliver => i = s.current ∧ BitSet.lowest (s.proc i).pending = sigcont
  | _ => False

/-- The queue of the task is woken up. -/
def WakesQueue (s : Sys) (i : Slot) : Event → Prop
  | .wakeUp queue _ => i ∈ s.queue queue
  | _ => False

/-- What may make a task running that was in a state. -/
def MayStart (s : Sys) (event : Event) (i : Slot) : TaskState → Prop
  | .zombie => Creates s i event
  | .unused => Creates s i event
  | .stopped => Continues s i event
  | .uninterruptible => WakesQueue s i event
  | .running => True
  | .interruptible => True
  | .swapping => True

/-- Every task that is running after the step was, or had a reason to become so. -/
def StateLaw (s : Sys) (event : Event) : Prop :=
  ∀ s', s.step event = .ok s' → ∀ i, (s'.proc i).state = .running →
    MayStart s event i (s.proc i).state

/-- A task that waits in `clone` for the current one is there. -/
def VforkParentWaits (s : Sys) : Prop :=
  (s.proc s.current).vforkParent ≠ idle →
    (s.proc (s.proc s.current).vforkParent).state = .running ∨
      (s.proc (s.proc s.current).vforkParent).state = .interruptible

/-- A `fork` gets the pages it needs or fails before it takes a slot, and a task that executes a
program or ends has no parent in `vfork` that is not there any more. -/
def StateFits (s : Sys) : Event → Prop
  | .fork stack space => stack = true → space = true
  | .execve ok => ok = true → VforkParentWaits s
  | .exit _ => VforkParentWaits s
  | .deliver => s.fatal = true → VforkParentWaits s
  | _ => True

/-! ## Calm steps -/

/-- The task runs or sleeps interruptibly. -/
def Light (s : Sys) (i : Slot) : Prop :=
  (s.proc i).state = .running ∨ (s.proc i).state = .interruptible

/-- No task is light that was not before. -/
def Calm (s s' : Sys) : Prop := ∀ i, Light s' i → Light s i

theorem Calm.refl (s : Sys) : Calm s s := fun _ h => h

theorem Calm.trans (h : Calm s s') (h' : Calm s' s'') : Calm s s'' := fun i hi => h i (h' i hi)

/-- A step that is calm obeys the law. -/
theorem Calm.mayStart (h : Calm s s') (event : Event) (hrunning : (s'.proc i).state = .running) :
    MayStart s event i (s.proc i).state := by
  rcases h i (.inl hrunning) with hstate | hstate
  · rw [hstate]
    trivial
  · rw [hstate]
    trivial

theorem calm_of_state_eq (h : ∀ i, (s'.proc i).state = (s.proc i).state) : Calm s s' := by
  intro i hi
  unfold Light at hi
  rwa [h] at hi

theorem calm_modify_of_state_eq (h : (f (s.proc i)).state = (s.proc i).state) :
    Calm s (s.modify i f) :=
  calm_of_state_eq fun _ => modify_keeps (·.state) h

theorem calm_wakeVforkParent (h : VforkParentWaits s) : Calm s s.wakeVforkParent := by
  intro i hi
  unfold Light at hi
  rw [wakeVforkParent_state] at hi
  split_ifs at hi with hparent
  · rw [hparent.2]
    exact h hparent.1
  · exact hi

theorem calm_doExit (h : VforkParentWaits s) (code : ℕ) : Calm s (s.doExit code) := by
  refine (calm_wakeVforkParent h).trans fun i hi => ?_
  unfold Light at hi
  rw [doExit_state] at hi
  split_ifs at hi with hnr hwoken
  · rcases hi with hi | hi <;> cases hi
  · exact .inr hwoken.1
  · exact hi

theorem calm_schedule (s : Sys) : Calm s s.schedule := by
  intro i hi
  unfold Light at hi
  rw [schedule_keeps (·.state) fun _ _ => rfl] at hi
  by_cases hsleep : (s.proc i).state = .interruptible
  · exact .inr hsleep
  · unfold Proc.wake at hi
    rw [if_pos hsleep] at hi
    exact hi

/-! ## The other steps -/

theorem mayStart_of_state_eq (h : (s'.proc i).state = (s.proc i).state)
    (hrunning : (s'.proc i).state = .running) : MayStart s event i (s.proc i).state := by
  rw [← h, hrunning]
  trivial

theorem fork_mayStart {space : Bool} (hfits : StateFits s (.fork stack space))
    (h : ((s.fork stack space).proc i).state = .running) :
    MayStart s (.fork stack space) i (s.proc i).state := by
  rcases fork_cases s stack space with ⟨-, hrefused⟩ | ⟨child, hslot, rfl⟩
  · rw [hrefused] at h
    exact (Calm.refl s).mayStart _ h
  · cases hfits rfl
    by_cases heq : i = child
    · subst heq
      rw [(freeSlot_spec hslot).2]
      exact ⟨rfl, rfl, hslot⟩
    · exact mayStart_of_state_eq (state_of_kin (fork_others hslot heq).1) h

theorem clone_mayStart {flags : CloneFlags} (h : ((s.clone flags stack).proc i).state = .running) :
    MayStart s (.clone flags stack) i (s.proc i).state := by
  rcases clone_cases s flags stack with ⟨-, hrefused⟩ | ⟨child, hslot, rfl⟩
  · rw [hrefused] at h
    exact (Calm.refl s).mayStart _ h
  · by_cases heq : i = child
    · subst heq
      rw [(freeSlot_spec hslot).2]
      exact ⟨rfl, hslot⟩
    · by_cases hself : i = s.current
      · subst hself
        have hstate := congrArg Kin.state (clone_current flags hslot heq).1
        cases hvfork : flags.vfork with
        | true =>
          rw [hvfork] at hstate
          cases hstate.symm.trans h
        | false =>
          rw [hvfork] at hstate
          exact mayStart_of_state_eq hstate h
      · exact mayStart_of_state_eq (state_of_kin (clone_others hslot heq hself).1) h

theorem wakeOne_light (h : Light (wakeOne only s j) i) :
    Light s i ∨ (s.proc i).state = .uninterruptible ∧ i = j := by
  unfold Light wakeOne at h
  rw [modify_proc] at h
  by_cases heq : i = j
  · subst heq
    rw [if_pos rfl] at h
    split_ifs at h with hsleep
    · rcases hsleep with hsleep | hsleep
      · exact .inl (.inr hsleep)
      · exact .inr ⟨hsleep.1, rfl⟩
    · exact .inl h
  · rw [if_neg heq] at h
    exact .inl h

theorem wakeOne_uninterruptible (h : ((wakeOne only s j).proc i).state = .uninterruptible) :
    (s.proc i).state = .uninterruptible := by
  unfold wakeOne at h
  rw [modify_proc] at h
  by_cases heq : i = j
  · subst heq
    rw [if_pos rfl] at h
    split_ifs at h
    exact h
  · rw [if_neg heq] at h
    exact h

/-- A queue wakes those that are light and those on it. -/
theorem wakeUp_light {queue : ℕ} (h : Light (s.wakeUp queue only) i) :
    Light s i ∨ (s.proc i).state = .uninterruptible ∧ i ∈ s.queue queue := by
  unfold wakeUp at h
  generalize s.queue queue = slots at h ⊢
  induction slots generalizing s with
  | nil => exact .inl h
  | cons j rest ih =>
    rcases ih h with hlight | ⟨hstate, hmem⟩
    · rcases wakeOne_light hlight with hlight | ⟨hstate, rfl⟩
      · exact .inl hlight
      · exact .inr ⟨hstate, List.mem_cons_self⟩
    · exact .inr ⟨wakeOne_uninterruptible hstate, List.mem_cons_of_mem j hmem⟩

theorem wait4_running {pid : ℤ} {flags : WaitFlags}
    (h : ((s.wait4 pid flags).proc i).state = .running) : (s.proc i).state = .running := by
  by_cases hself : i = s.current
  · subst hself
    rcases wait4_current s pid flags with ⟨-, hkin, -⟩ | ⟨hkin, -⟩
    · cases (congrArg Kin.state hkin).symm.trans h
    · exact (state_of_kin hkin).symm.trans h
  · by_cases hreply : s.reply s.current pid flags = .reaped i
    · unfold wait4 at h
      rw [hreply] at h
      cases (release_state hself).symm.trans h
    · exact (state_of_kin (wait4_kin pid flags hself hreply)).symm.trans h

theorem signal_mayStart {target : Slot} (h : ((s.sendSig signum target).proc i).state = .running) :
    MayStart s (.signal target signum) i (s.proc i).state := by
  unfold sendSig at h
  rw [modify_proc] at h
  by_cases heq : i = target
  · subst heq
    rw [if_pos rfl] at h
    have hsent : ((s.proc i).sendSig signum).state = ((s.proc i).toTask.sendSig signum).1.state := rfl
    rw [hsent, state_sendSig] at h
    split_ifs at h with hsleep hcont
    · rw [hsleep.1]
      trivial
    · rw [hcont.1]
      exact ⟨rfl, .inl hcont.2.1⟩
    · rw [h]
      trivial
  · rw [if_neg heq] at h
    rw [h]
    trivial

theorem effect_wake {t : Signal.Task} (h : t.effect signum = .wake) : signum = sigcont := by
  unfold Task.effect at h
  split_ifs at h
  cases hhandler : (t.getSignal signum).handler with
  | ign | user entry =>
    rw [hhandler] at h
    cases h
  | dfl =>
    rw [hhandler] at h
    unfold defaultEffect at h
    split_ifs at h with _ hcont
    exact hcont

theorem VforkParentWaits.take (h : VforkParentWaits s) : VforkParentWaits s.take := by
  have hvp : (s.take.proc s.current).vforkParent = (s.proc s.current).vforkParent :=
    congrArg Kin.vforkParent (take_kin s s.current)
  have hstate : ∀ j, (s.take.proc j).state = (s.proc j).state := fun j =>
    congrArg Kin.state (take_kin s j)
  unfold VforkParentWaits
  rw [show s.take.current = s.current from rfl, hvp, hstate]
  exact h

theorem deliver_mayStart (hfits : StateFits s .deliver) (h : (s.deliver.proc i).state = .running) :
    MayStart s .deliver i (s.proc i).state := by
  have hcalm : Calm s s.take := calm_of_state_eq fun j => congrArg Kin.state (take_kin s j)
  cases hfatal : s.fatal with
  | true =>
    rw [deliver_of_fatal hfatal] at h
    exact (hcalm.trans (calm_doExit (hfits hfatal).take _)).mayStart _ h
  | false =>
    rcases deliver_of_not_fatal hfatal with hdone | ⟨heffect, hact⟩
    · rw [hdone] at h
      exact (Calm.refl s).mayStart _ h
    · rw [hact] at h
      cases hcase : s.nextEffect with
      | discard | deliver _ =>
        rw [hcase] at h
        exact hcalm.mayStart _ h
      | wake =>
        rw [hcase] at h
        unfold act at h
        rw [modify_proc] at h
        by_cases heq : i = s.take.current
        · subst heq
          rw [if_pos rfl] at h
          unfold Task.woken at h
          split_ifs at h with hstopped
          · have hstate : (s.proc s.take.current).state = .stopped := by
              rw [← hstopped]
              exact (congrArg Kin.state (take_kin s s.current)).symm
            rw [hstate]
            exact ⟨rfl, effect_wake hcase⟩
          · exact hcalm.mayStart _ h
        · rw [if_neg heq] at h
          exact hcalm.mayStart _ h
      | stop =>
        rw [hcase] at h
        unfold act at h
        rw [setKont_proc, modify_proc] at h
        by_cases heq : i = s.take.current
        · rw [if_pos heq] at h
          cases h
        · rw [if_neg heq] at h
          exact hcalm.mayStart _ h
      | exit => exact absurd hcase heffect

theorem resume_running (h : (s.resume.proc i).state = .running) : (s.proc i).state = .running := by
  unfold resume at h
  dsimp only at h
  split at h
  · split_ifs at h
    · exact h
    · exact wait4_running h
  all_goals exact h

/-! ## Runs -/

theorem stateLaw_of_fits (h : StateFits s event) : StateLaw s event := by
  intro s' hstep i hrunning
  cases event with
  | enter | leave =>
    obtain ⟨-, rfl⟩ := whenAt_ok hstep
    exact (Calm.refl s).mayStart _ hrunning
  | fork stack space =>
    obtain ⟨-, rfl⟩ := whenAt_ok hstep
    exact fork_mayStart h hrunning
  | clone flags stack =>
    obtain ⟨-, rfl⟩ := whenAt_ok hstep
    exact clone_mayStart hrunning
  | execve ok =>
    obtain ⟨-, rfl⟩ := whenAt_ok hstep
    cases ok with
    | false => exact (Calm.refl s).mayStart _ hrunning
    | true => exact (calm_wakeVforkParent (h rfl)).mayStart _ hrunning
  | exit code =>
    obtain ⟨-, rfl⟩ := whenAt_ok hstep
    exact (calm_doExit h _).mayStart _ hrunning
  | wait4 pid flags =>
    obtain ⟨-, rfl⟩ := whenAt_ok hstep
    rw [wait4_running hrunning]
    trivial
  | sigmask mask =>
    obtain ⟨-, rfl⟩ := whenAt_ok hstep
    exact (calm_modify_of_state_eq rfl).mayStart _ hrunning
  | sleepOn queue interruptible timeout =>
    obtain ⟨-, rfl⟩ := whenAt_ok hstep
    unfold sleepOn at hrunning
    rw [setKont_proc, modify_proc] at hrunning
    by_cases heq : i = s.current
    · rw [if_pos heq] at hrunning
      cases interruptible <;> cases hrunning
    · rw [if_neg heq] at hrunning
      rw [hrunning]
      trivial
  | nap timeout =>
    obtain ⟨-, rfl⟩ := whenAt_ok hstep
    unfold nap at hrunning
    rw [setKont_proc, modify_proc] at hrunning
    by_cases heq : i = s.current
    · rw [if_pos heq] at hrunning
      cases hrunning
    · rw [if_neg heq] at hrunning
      rw [hrunning]
      trivial
  | resume =>
    simp only [step] at hstep
    split_ifs at hstep
    cases hstep
    rw [resume_running hrunning]
    trivial
  | deliver =>
    obtain ⟨-, rfl⟩ := whenAt_ok hstep
    exact deliver_mayStart h hrunning
  | schedule =>
    cases hstep
    exact (calm_schedule s).mayStart _ hrunning
  | tick =>
    cases hstep
    refine (calm_of_state_eq fun j => ?_).mayStart _ hrunning
    unfold tick
    rw [modify_keeps (·.state) rfl]
  | wakeUp queue only =>
    cases hstep
    rcases wakeUp_light (.inl hrunning) with hlight | ⟨hstate, hmem⟩
    · rcases hlight with hstate | hstate
      · rw [hstate]
        trivial
      · rw [hstate]
        trivial
    · rw [hstate]
      exact hmem
  | signal target signum =>
    cases hstep
    exact signal_mayStart hrunning
  | sigaction task table =>
    cases hstep
    exact (calm_modify_of_state_eq rfl).mayStart _ hrunning

/-- Every run whose steps fit obeys the law all the way. -/
theorem stateLaw_run {events : List Event} (h : Guarded Sys.step StateFits events s) :
    Guarded Sys.step StateLaw events s :=
  h.mono fun _ _ => stateLaw_of_fits

instance (s : Sys) : Decidable (VforkParentWaits s) := by
  unfold VforkParentWaits
  infer_instance

instance (s : Sys) (event : Event) : Decidable (StateFits s event) := by
  cases event <;> unfold StateFits <;> infer_instance

/-- A `vfork`: the parent waits, the child ends, the parent goes on and takes the child's status. -/
def vforkRun : List Event :=
  [.enter, .clone ⟨true, false, false⟩ true, .schedule, .deliver, .enter, .exit 0, .schedule,
    .resume, .deliver, .enter, .wait4 (-1) ⟨false, false⟩]

theorem stateLaw_vforkRun : Guarded Sys.step StateFits vforkRun .boot ∧
    Guarded Sys.step StateLaw vforkRun .boot := by
  have hfits : Guarded step StateFits vforkRun .boot := guarded_of_check (by decide +kernel)
  exact ⟨hfits, stateLaw_run hfits⟩

/-- The slot of the first child. -/
def two : Slot := ⟨2, by decide⟩

/-- Task 1 forks task 2 and sleeps; task 2 waits in `vfork` for task 3, which forks task 4 and
executes a program; task 2 ends.  Then task 4 has its turn. -/
def staleRun : List Event :=
  [.enter, .fork true true, .deliver, .enter, .sleepOn 0 false 0, .schedule,
    .deliver, .enter, .clone ⟨true, false, false⟩ true, .schedule,
    .deliver, .enter, .fork true true, .deliver, .enter, .execve true, .schedule,
    .resume, .deliver, .enter, .exit 0, .schedule, .tick, .schedule, .deliver, .enter]

/-- The slot of task 2 has the state after the events, and is running after one more. -/
def Rises (events : List Event) (event : Event) (state : TaskState) : Prop :=
  endsIn (fun s => (s.proc two).state = state ∧
      endsIn (fun s' => (s'.proc two).state = .running) (s.step event) = true)
    (run Sys.step events .boot) = true

theorem Rises.mayStart {events : List Event} {state : TaskState} (hrises : Rises events event state)
    (h : Guarded step StateLaw (events ++ [event]) .boot) : ∃ s, MayStart s event two state := by
  obtain ⟨s, hrun, hstate, hrunning⟩ := exists_of_endsIn hrises
  obtain ⟨s', hstep, hrunning⟩ := exists_of_endsIn hrunning
  have hlaw := (h.after hrun).1 s' hstep two hrunning
  rw [hstate] at hlaw
  exact ⟨s, hlaw⟩

/-- Task 4 ends and wakes task 2, which is a zombie: the slot number came to it from its parent.
And a `fork` that fails leaves a slot running. -/
theorem dead_slot_runs :
    ¬ Guarded Sys.step StateLaw (staleRun ++ [.exit 0]) .boot ∧
      ¬ Guarded Sys.step StateLaw ([.enter] ++ [.fork true false]) .boot := by
  have hzombie : Rises staleRun (.exit 0) .zombie := by
    unfold Rises
    decide +kernel
  have hunused : Rises [.enter] (.fork true false) .unused := by
    unfold Rises
    decide +kernel
  refine ⟨fun h => ?_, fun h => ?_⟩
  · obtain ⟨s, hcreates⟩ := hzombie.mayStart h
    exact hcreates
  · obtain ⟨s, -, hspace, -⟩ := hunused.mayStart h
    cases hspace

end Shitix.Sched
