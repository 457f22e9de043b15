import Shitix.Signal.Delivery

/-!
# Tasks, and which of them may run

What the scheduler, `fork`, `exit` and `wait4` use of a task, on top of what signals use.
`schedule` first wakes the interruptible sleepers that have a signal or whose time is up, and then
chooses among the tasks that are running (`MayRun`).

A stopped task is woken in `send_sig` and nowhere else, for `SIGCONT` with its default action.
With any other action `SIGCONT` waits, like `SIGKILL`, for a `do_signal` of the task, which does not
come while it is stopped (`resumes_iff`).
-/

namespace Shitix.Sched

open Signal

/-- An index of the task table; `NR_TASKS` is 64. -/
abbrev Slot : Type := Fin 64

/-- The idle task. -/
def idle : Slot := ⟨0, by decide⟩

theorem one_lt_nrTasks : 1 < 64 := by decide

/-- The first process. -/
def init : Slot := ⟨1, one_lt_nrTasks⟩

/-- `Task` -/
structure Proc extends Signal.Task where
  pid : ℤ
  pgrp : ℤ
  parent : Slot
  /-- the task that waits in `clone` for this one, 0 for none -/
  vforkParent : Slot
  /-- when a sleep ends, 0 for never -/
  timeout : ℕ
  counter : ℤ
  priority : ℤ
  next : Slot
  prev : Slot

/-- `Task::empty` -/
def Proc.empty : Proc :=
  { newTask with
    state := .unused, pid := 0, pgrp := 0, parent := idle, vforkParent := idle, timeout := 0
    counter := 0, priority := 0, next := idle, prev := idle }

namespace Proc

variable (p : Proc)

def sendSig (signum : ℕ) : Proc := { p with toTask := (p.toTask.sendSig signum).1 }

/-- What the first pass of `schedule` does to a task. -/
def wake (now : ℕ) : Proc :=
  if p.state ≠ .interruptible then p
  else if p.pending ≠ 0#64 then { p with state := .running }
  else if p.timeout ≠ 0 ∧ p.timeout ≤ now then { p with timeout := 0, state := .running }
  else p

end Proc

/-- The signal is marked: it is not ignored, by its action or by default. -/
def Marks (t : Signal.Task) (signum : ℕ) : Prop :=
  signum ≠ 0 ∧ signum ≤ 31 ∧ t.state ≠ .unused ∧
    ((t.getSignal signum).handler = .ign → signum = sigchld) ∧
    ((t.getSignal signum).handler = .dfl →
      signum ≠ sigchld ∧ signum ≠ sigcont ∧ signum ≠ sigwinch)

instance (t : Signal.Task) (signum : ℕ) : Decidable (Marks t signum) := by
  unfold Marks
  infer_instance

/-- A signal that is marked wakes an interruptible sleeper, blocked or not; `SIGCONT` wakes a
stopped task, unless it has an action. -/
theorem state_sendSig (t : Signal.Task) (signum : ℕ) :
    (t.sendSig signum).1.state =
      if t.state = .interruptible ∧ Marks t signum then .running
      else if t.state = .stopped ∧ signum = sigcont ∧ (t.getSignal sigcont).handler = .dfl then
        .running
      else t.state := by
  unfold Task.sendSig
  by_cases hzero : signum = 0
  · subst hzero
    simp [Marks, sigcont]
  by_cases hlarge : 31 < signum
  · have hcont : signum ≠ sigcont := by
      rintro rfl
      exact absurd hlarge (by decide)
    simp [Marks, hzero, hlarge, hcont]
  by_cases hunused : t.state = .unused
  · simp [Marks, hzero, hlarge, hunused]
  rw [if_neg hzero, if_neg hlarge, if_neg hunused]
  have hmarks : Marks t signum ↔ ((t.getSignal signum).handler = .ign → signum = sigchld) ∧
      ((t.getSignal signum).handler = .dfl →
        signum ≠ sigchld ∧ signum ≠ sigcont ∧ signum ≠ sigwinch) := by
    simp [Marks, hzero, not_lt.mp hlarge, hunused]
  simp only [hmarks]
  cases hhandler : (t.getSignal signum).handler with
  | ign =>
    have hcont : ¬ (signum = sigcont ∧ (t.getSignal sigcont).handler = .dfl) := by
      rintro ⟨rfl, hdfl⟩
      rw [hhandler] at hdfl
      cases hdfl
    by_cases hchld : signum = sigchld
    · subst hchld
      simp [hcont]
    · simp [hchld, hcont]
  | user entry =>
    have hcont : ¬ (signum = sigcont ∧ (t.getSignal sigcont).handler = .dfl) := by
      rintro ⟨rfl, hdfl⟩
      rw [hhandler] at hdfl
      cases hdfl
    simp [hcont]
  | dfl =>
    by_cases hquiet : signum = sigchld ∨ signum = sigcont ∨ signum = sigwinch
    · have hloud : ¬ (signum ≠ sigchld ∧ signum ≠ sigcont ∧ signum ≠ sigwinch) := by tauto
      by_cases hcont : signum = sigcont
      · subst hcont
        by_cases hstopped : t.state = .stopped <;> simp [hhandler, hstopped]
      · dsimp only
        rw [if_pos hquiet, if_neg fun h => hcont h.1, if_neg fun h => hloud (h.2.2 rfl),
          if_neg fun h => hcont h.2.1]
    · have hloud : signum ≠ sigchld ∧ signum ≠ sigcont ∧ signum ≠ sigwinch := by tauto
      simp [hloud]

/-- `schedule` may pick the task. -/
def MayRun (now : ℕ) (p : Proc) : Prop := (p.wake now).state = .running

/-- The signal gets a stopped task to run, and `SIGKILL` to its end. -/
def Resumes (now : ℕ) (p : Proc) (signum : ℕ) : Prop :=
  MayRun now (p.sendSig signum) ∧
    (signum = sigkill → ∀ arrivals cpu, ∃ outcome code,
      doSignal arrivals (p.sendSig signum).toTask cpu = some outcome ∧ outcome.last = .exited code)

variable {p : Proc} {now signum : ℕ}

theorem mayRun_sendSig_iff (h : p.state = .stopped) :
    MayRun now (p.sendSig signum) ↔
      signum = sigcont ∧ (p.getSignal sigcont).handler = .dfl := by
  have hstate : (p.sendSig signum).state = (p.toTask.sendSig signum).1.state := rfl
  rw [state_sendSig, if_neg (by simp [h])] at hstate
  unfold MayRun Proc.wake
  by_cases hcont : signum = sigcont ∧ (p.getSignal sigcont).handler = .dfl
  · rw [if_pos ⟨h, hcont⟩] at hstate
    rw [if_pos (by rw [hstate]; decide)]
    exact iff_of_true hstate hcont
  · rw [if_neg fun hall => hcont hall.2, h] at hstate
    rw [if_pos (by rw [hstate]; decide), hstate]
    exact iff_of_false (by decide) hcont

/-- A stopped task can be resumed by `SIGCONT` with its default action, and in no other way. -/
theorem resumes_iff (now : ℕ) (h : p.state = .stopped)
    (hsignal : signum = sigcont ∨ signum = sigkill) :
    Resumes now p signum ↔ signum = sigcont ∧ (p.getSignal sigcont).handler = .dfl := by
  unfold Resumes
  rw [mayRun_sendSig_iff h]
  refine and_iff_left_of_imp ?_
  rintro ⟨rfl, -⟩ hkill
  exact absurd hkill (by decide)

/-- A task stopped by `SIGSTOP`, with an action for `SIGCONT`. -/
def stoppedTask (onCont : Handler) : Proc :=
  { Proc.empty with
    state := .stopped, exitCode := sigstop, pid := 2
    actions := some (Function.update (fun _ => .default) sigcont ⟨onCont, 0#64⟩) }

theorem resumes_stoppedTask : Resumes 0 (stoppedTask .dfl) sigcont :=
  (resumes_iff 0 rfl (.inl rfl)).mpr ⟨rfl, rfl⟩

/-- A task that ignores or catches `SIGCONT` stays stopped, and so does any task that gets
`SIGKILL`. -/
theorem stopped_stays_stopped :
    ¬ Resumes 0 (stoppedTask .ign) sigcont ∧ ¬ Resumes 0 (stoppedTask (.user 0x400000)) sigcont ∧
      ¬ Resumes 0 (stoppedTask .dfl) sigkill := by
  refine ⟨fun h => ?_, fun h => ?_, fun h => ?_⟩
  · obtain ⟨-, hdfl⟩ := (mayRun_sendSig_iff rfl).mp h.1
    exact absurd hdfl (by decide)
  · obtain ⟨-, hdfl⟩ := (mayRun_sendSig_iff rfl).mp h.1
    exact absurd hdfl (by decide)
  · obtain ⟨hcont, -⟩ := (mayRun_sendSig_iff rfl).mp h.1
    exact absurd hcont (by decide)

end Shitix.Sched
