import Mathlib.Data.List.FinRange
import Shitix.Lib.Run
import Shitix.Sched.Task

/-!
# The task table

`schedule`, the wait queues, `fork`, `clone`, the end of `execve`, `do_exit` and `wait4`, with
what they do to the 64 tasks.  One task is current; for every other one `Kont` says where in the
kernel it goes on when `schedule` comes back to it.

A step is what happens between two points where another task or an interrupt can come in.  A call
that gives up the processor is two steps, before and after; the `schedule` between them is one of
its own.  The wake-ups that `do_exit` brings by closing pipes are steps of their own too.

What a call needs and may not get (a kernel stack, pages for the address space) is an argument.
The wait queues are lists, last comer first.  Left out are address spaces, files, names and the
times of use.
-/

namespace Shitix.Sched

open Signal Function

/-- `WNOHANG` and `WUNTRACED` -/
structure WaitFlags where
  nohang : Bool
  untraced : Bool
deriving DecidableEq, Repr

/-- `CLONE_VFORK`, `CLONE_THREAD` and `CLONE_PARENT` -/
structure CloneFlags where
  vfork : Bool
  thread : Bool
  parent : Bool
deriving DecidableEq, Repr

/-- Where a task goes on. -/
inductive Kont where
  /-- in user mode -/
  | user
  /-- in a system call -/
  | kernel
  /-- in `ret_from_sys_call` -/
  | leaving
  | wait4 (pid : ℤ) (flags : WaitFlags)
  /-- in `clone`, for a child -/
  | vfork (child : Slot)
  /-- in `do_signal`, after a stop -/
  | stopped
  | asleep (queue : ℕ)
  /-- asleep on no queue -/
  | nap
  /-- nowhere: it has exited, or it is the idle task -/
  | gone
deriving DecidableEq, Repr

/-- The tasks. -/
structure Sys where
  proc : Slot → Proc
  kont : Slot → Kont
  current : Slot
  jiffies : ℕ
  lastPid : ℤ
  queue : ℕ → List Slot

/-- The idle task and the first process, which is in user mode. -/
def Sys.boot : Sys where
  proc i :=
    if i = idle then
      { Proc.empty with state := .running, counter := 15, priority := 15, next := init, prev := init }
    else if i = init then
      { Proc.empty with state := .running, pid := 1, counter := 15, priority := 15 }
    else .empty
  kont i := if i = init then .user else .gone
  current := init
  jiffies := 0
  lastPid := 1
  queue _ := []

namespace Sys

variable (s : Sys)

/-- A task becomes `f` of what it was. -/
def modify (i : Slot) (f : Proc → Proc) : Sys :=
  { s with proc := update s.proc i (f (s.proc i)) }

def setKont (i : Slot) (kont : Kont) : Sys := { s with kont := update s.kont i kont }

section

variable {s : Sys} {i j : Slot} {f : Proc → Proc} {kont : Kont}

theorem modify_proc : (s.modify i f).proc j = if j = i then f (s.proc i) else s.proc j :=
  update_apply ..

@[simp] theorem setKont_proc : (s.setKont i kont).proc = s.proc := rfl

theorem setKont_kont : (s.setKont i kont).kont j = if j = i then kont else s.kont j :=
  update_apply ..

/-- What `f` keeps of a task, `modify` keeps of every task. -/
theorem modify_keeps {α : Type*} (view : Proc → α) (h : view (f (s.proc i)) = view (s.proc i)) :
    view ((s.modify i f).proc j) = view (s.proc j) := by
  rw [modify_proc]
  split_ifs with heq
  · rw [h, heq]
  · rfl

end

/-! ## Scheduling -/

/-- The walk around the ring for the running task with the largest counter. -/
def scan : ℕ → Slot → Slot × ℤ → Slot × ℤ
  | 0, _, best => best
  | fuel + 1, nr, best =>
    if nr = idle then best
    else
      let p := s.proc nr
      scan fuel p.next (if p.state = .running ∧ best.2 < p.counter then (nr, p.counter) else best)

/-- The choice and its counter.  The ring has at most 64 tasks. -/
def pick : Slot × ℤ := s.scan 64 (s.proc idle).next (idle, -1)

/-- The first pass of `schedule`. -/
def wakeSleepers : Sys := { s with proc := fun i => (s.proc i).wake s.jiffies }

/-- All that are used get new time. -/
def recharge : Sys :=
  { s with
    proc := fun i =>
      let p := s.proc i
      if p.state = .unused then p else { p with counter := p.counter >>> (1 : ℕ) + p.priority } }

def schedule : Sys :=
  let s := s.wakeSleepers
  if s.pick.2 = 0 then
    let s := s.recharge
    { s with current := s.pick.1 }
  else { s with current := s.pick.1 }

/-- `do_timer` -/
def tick : Sys :=
  { s.modify s.current fun p => { p with counter := max (p.counter - 1) 0 } with
    jiffies := s.jiffies + 1 }

/-- `sleep_on_state`, up to its `schedule` -/
def sleepOn (queue : ℕ) (state : TaskState) (timeout : ℕ) : Sys :=
  let nr := s.current
  { (s.modify nr fun p => { p with state := state, timeout := timeout }).setKont nr (.asleep queue)
    with queue := update s.queue queue (nr :: s.queue queue) }

/-- `WaitQueue::remove` -/
def remove (queue : ℕ) (nr : Slot) : Sys :=
  { s with queue := update s.queue queue ((s.queue queue).erase nr) }

/-- What `wake_up_state` does to a task on the queue. -/
def wakeOne (onlyInterruptible : Bool) (s : Sys) (i : Slot) : Sys :=
  s.modify i fun p =>
    if p.state = .interruptible ∨ p.state = .uninterruptible ∧ onlyInterruptible = false then
      { p with state := .running, timeout := 0 }
    else p

/-- `wake_up_state` -/
def wakeUp (queue : ℕ) (onlyInterruptible : Bool) : Sys :=
  (s.queue queue).foldl (wakeOne onlyInterruptible) s

/-- `pause`, `nanosleep` and a read of the terminal, up to their `schedule`; `pause` leaves the
time of an earlier sleep -/
def nap (timeout : Option ℕ) : Sys :=
  (s.modify s.current fun p =>
    { p with state := .interruptible, timeout := timeout.getD p.timeout }).setKont s.current .nap

/-! ## Signals -/

def sendSig (signum : ℕ) (i : Slot) : Sys := s.modify i (Proc.sendSig · signum)

def wakeUpWaiter (i : Slot) : Sys :=
  s.modify i fun p => if p.state = .interruptible then { p with state := .running } else p

/-- A task hears of a child that has ended. -/
def notify (i : Slot) : Sys := (s.sendSig sigchld i).wakeUpWaiter i

/-! ## Creating tasks -/

/-- The first slot that is not used; 0 is the idle task. -/
def freeSlot : Option Slot :=
  (List.finRange 64).find? fun i => decide (i ≠ idle ∧ (s.proc i).state = .unused)

theorem freeSlot_spec {s : Sys} {i : Slot} (h : s.freeSlot = some i) :
    i ≠ idle ∧ (s.proc i).state = .unused := by
  have hfound := List.find?_some h
  exact of_decide_eq_true hfound

/-- The loop of `allocate_pid`, with so many attempts left. -/
def searchPid : ℕ → ℤ → ℤ
  | 0, _ => -1
  | attempts + 1, last =>
    let pid := if 65536 ≤ last + 1 then 1 else last + 1
    if ∃ i : Slot, i ≠ s.current ∧ (s.proc i).pid = pid then searchPid attempts pid else pid

/-- `allocate_pid`, for a new task -/
def allocatePid (child : Slot) : Sys :=
  let pid := s.searchPid 65537 s.lastPid
  { s.modify child fun p => { p with pid := pid } with lastPid := if pid = -1 then s.lastPid else pid }

/-- `SET_LINKS`: the child comes after its parent in the ring -/
def link (parent child : Slot) : Sys :=
  let oldNext := (s.proc parent).next
  (((s.modify child fun p => { p with next := oldNext, prev := parent }).modify parent
    fun p => { p with next := child })).modify oldNext fun p => { p with prev := child }

/-- The actions of a new task are those of its parent. -/
def cloneSigactions (parent child : Slot) : Sys :=
  s.modify child fun p => { p with actions := (s.proc parent).actions }

/-- The part of `fork` up to the copy of the address space. -/
def forkTask (child : Slot) : Sys :=
  let parent := s.current
  let half := (s.proc parent).counter / 2
  let s := s.modify child fun p =>
    { s.proc parent with
      state := .running, parent := parent, timeout := 0, exitCode := 0, signal := 0#64
      actions := p.actions, counter := if half = 0 then 1 else half }
  (s.allocatePid child).modify parent fun p => { p with counter := half }

/-- `fork`.  If the address space cannot be copied the slot is not given back. -/
def fork (stack space : Bool) : Sys :=
  let parent := s.current
  match s.freeSlot with
  | none => s
  | some child =>
    if stack = false then s
    else if space = false then s.forkTask child
    else
      (((s.forkTask child).cloneSigactions parent child).link parent child).setKont child .leaving

/-- The part of `clone` that fills in the child. -/
def cloneTask (flags : CloneFlags) (child : Slot) : Sys :=
  let parent := s.current
  let half := (s.proc parent).counter / 2
  let counter := if half = 0 then 1 else half
  let s := s.modify child fun p =>
    { s.proc parent with
      state := .running, exitCode := 0, signal := 0#64, actions := p.actions, counter := counter
      parent :=
        if flags.parent then (s.proc parent).parent
        else if flags.thread then (s.proc parent).parent
        else parent
      vforkParent := if flags.vfork then parent else (s.proc parent).vforkParent }
  (s.allocatePid child).modify parent fun p =>
    { p with counter := counter, state := if flags.vfork then .interruptible else p.state }

/-- `clone`, up to its `schedule` -/
def clone (flags : CloneFlags) (stack : Bool) : Sys :=
  let parent := s.current
  match s.freeSlot with
  | none => s.setKont parent .leaving
  | some child =>
    if stack = false then s.setKont parent .leaving
    else
      ((((s.cloneTask flags child).cloneSigactions parent child).link parent child).setKont child
        .leaving).setKont parent (if flags.vfork then .vfork child else .leaving)

/-! ## Ending tasks -/

/-- The task that waits in `clone` for the current one goes on. -/
def wakeVforkParent : Sys :=
  let vp := (s.proc s.current).vforkParent
  if vp = idle then s
  else
    (s.modify s.current fun p => { p with vforkParent := idle }).modify vp
      fun p => { p with state := .running }

/-- A round of the loop of `reparent_children`. -/
def reparentOne (dying foster : Slot) (s : Sys) (i : Slot) : Sys :=
  if (s.proc i).state = .unused ∨ (s.proc i).parent ≠ dying then s
  else
    let s := s.modify i fun p => { p with parent := foster }
    if (s.proc i).state = .zombie then s.notify foster else s

def reparentChildren (dying : Slot) : Sys :=
  let foster := if (s.proc init).state ≠ .unused then init else idle
  (List.finRange 64).foldl (reparentOne dying foster) s

def notifyParent (child : Slot) : Sys := s.notify (s.proc child).parent

/-- `do_exit`, up to its `schedule` -/
def doExit (code : ℕ) : Sys :=
  let nr := s.current
  let s := s.wakeVforkParent.reparentChildren nr
  let s := s.modify nr fun p => { p with exitCode := code, state := .zombie }
  (s.notifyParent nr).setKont nr .gone

/-- `remove_from_runqueue` -/
def unlink (i : Slot) : Sys :=
  let next := (s.proc i).next
  let prev := (s.proc i).prev
  (s.modify next fun p => { p with prev := prev }).modify prev fun p => { p with next := next }

def release (i : Slot) : Sys :=
  if i = s.current ∨ (s.proc i).state = .unused then s
  else (s.unlink i).modify i fun p => { p with actions := none, state := .unused }

/-! ## `wait4` -/

/-- The four meanings of the `pid` of `wait4`. -/
def Matches (me : Slot) (pid : ℤ) (i : Slot) : Prop :=
  if 0 < pid then (s.proc i).pid = pid
  else if pid = 0 then (s.proc i).pgrp = (s.proc me).pgrp
  else if pid = -1 then True
  else (s.proc i).pgrp = -pid

/-- A child that `wait4` looks at. -/
def Wanted (me : Slot) (pid : ℤ) (i : Slot) : Prop :=
  i ≠ me ∧ (s.proc i).state ≠ .unused ∧ (s.proc i).parent = me ∧ s.Matches me pid i

instance (me : Slot) (pid : ℤ) (i : Slot) : Decidable (s.Wanted me pid i) := by
  unfold Wanted Matches
  infer_instance

/-- A child that `wait4` returns with. -/
def Ready (flags : WaitFlags) (i : Slot) : Prop :=
  (s.proc i).state = .zombie ∨
    (s.proc i).state = .stopped ∧ flags.untraced = true ∧ (s.proc i).exitCode ≠ 0

instance (flags : WaitFlags) (i : Slot) : Decidable (s.Ready flags i) := by
  unfold Ready
  infer_instance

/-- The first child that is ready. -/
def found (me : Slot) (pid : ℤ) (flags : WaitFlags) : Option Slot :=
  (List.finRange 64).find? fun i => decide (s.Wanted me pid i ∧ s.Ready flags i)

/-- What one round of `wait4` comes to. -/
inductive Reply where
  /-- a child is released, and its status returned -/
  | reaped (child : Slot)
  | stopped (child : Slot)
  | echild
  | nothing
  | sleep
deriving DecidableEq, Repr

/-- One round of `wait4`. -/
def reply (me : Slot) (pid : ℤ) (flags : WaitFlags) : Reply :=
  match s.found me pid flags with
  | some i => if (s.proc i).state = .zombie then .reaped i else .stopped i
  | none =>
    if ¬ ∃ i, s.Wanted me pid i then .echild
    else if flags.nohang then .nothing
    else .sleep

/-- What follows from a round. -/
def answer (pid : ℤ) (flags : WaitFlags) : Reply → Sys
  | .reaped i => (s.release i).setKont s.current .leaving
  | .stopped i => (s.modify i fun p => { p with exitCode := 0 }).setKont s.current .leaving
  | .echild => s.setKont s.current .leaving
  | .nothing => s.setKont s.current .leaving
  | .sleep =>
    (s.modify s.current fun p => { p with state := .interruptible }).setKont s.current
      (.wait4 pid flags)

/-- `sys_wait4`, up to its `schedule` -/
def wait4 (pid : ℤ) (flags : WaitFlags) : Sys := s.answer pid flags (s.reply s.current pid flags)

/-! ## Going on -/

/-- `schedule` has come back to the current task. -/
def resume : Sys :=
  let nr := s.current
  match s.kont nr with
  | .wait4 pid flags => if (s.proc nr).pending ≠ 0#64 then s.setKont nr .leaving else s.wait4 pid flags
  | .vfork _ => s.setKont nr .leaving
  | .stopped => s.setKont nr .leaving
  | .asleep queue => (s.remove queue nr).setKont nr .kernel
  | .nap => s.setKont nr .kernel
  | _ => s

/-- The signal that `do_signal` takes next. -/
def nextSignal : ℕ := BitSet.lowest (s.proc s.current).pending

/-- The current task takes the signal. -/
def take : Sys :=
  s.modify s.current fun p => { p with toTask := p.toTask.took s.nextSignal }

/-- What it does. -/
def nextEffect : Effect := ((s.proc s.current).toTask.took s.nextSignal).effect s.nextSignal

/-- What a signal does to the current task. -/
def act (signum : ℕ) : Effect → Sys
  | .discard => s
  | .deliver _ => s
  | .wake => s.modify s.current fun p => { p with toTask := p.toTask.woken }
  | .stop =>
    (s.modify s.current fun p => { p with state := .stopped, exitCode := signum }).setKont s.current
      .stopped
  | .exit => s.doExit signum

/-- A round of `do_signal`; without a signal the task is back in user mode. -/
def deliver : Sys :=
  if (s.proc s.current).pending = 0#64 then s.setKont s.current .user
  else s.take.act s.nextSignal s.nextEffect

/-- The next signal of the current task ends it. -/
def fatal : Bool :=
  (s.proc s.current).pending != 0#64 &&
    match s.nextEffect with
    | .exit => true
    | _ => false

end Sys

/-- What happens to the tasks.  The first ones are calls of the current task. -/
inductive Event where
  | enter
  | fork (stack space : Bool)
  | clone (flags : CloneFlags) (stack : Bool)
  | execve (ok : Bool)
  | exit (code : ℕ)
  | wait4 (pid : ℤ) (flags : WaitFlags)
  | sigmask (mask : Word)
  | sleepOn (queue : ℕ) (interruptible : Bool) (timeout : ℕ)
  | nap (timeout : Option ℕ)
  | leave
  | resume
  | deliver
  | schedule
  | tick
  | wakeUp (queue : ℕ) (onlyInterruptible : Bool)
  | signal (target : Slot) (signum : ℕ)
  /-- the table of actions of a task changes, which may share it with the one that changes it -/
  | sigaction (task : Slot) (table : Option (ℕ → Action))

/-- The event cannot happen. -/
inductive Stuck where
  | stuck
deriving DecidableEq, Repr

namespace Sys

variable (s : Sys)

/-- Something the current task does where it is. -/
def whenAt (kont : Kont) (next : Sys) : Except Stuck Sys :=
  if s.kont s.current = kont then .ok next else .error .stuck

/-- A step. -/
def step : Event → Except Stuck Sys
  | .enter => s.whenAt .user (s.setKont s.current .kernel)
  | .fork stack space => s.whenAt .kernel ((s.fork stack space).setKont s.current .leaving)
  | .clone flags stack => s.whenAt .kernel (s.clone flags stack)
  | .execve ok =>
    s.whenAt .kernel ((if ok then s.wakeVforkParent else s).setKont s.current .leaving)
  | .exit code => s.whenAt .kernel (s.doExit (code % 256 * 256))
  | .wait4 pid flags => s.whenAt .kernel (s.wait4 pid flags)
  | .sigmask mask => s.whenAt .kernel (s.modify s.current fun p => { p with blocked := mask })
  | .sleepOn queue interruptible timeout =>
    s.whenAt .kernel
      (s.sleepOn queue (if interruptible then .interruptible else .uninterruptible) timeout)
  | .nap timeout => s.whenAt .kernel (s.nap timeout)
  | .leave => s.whenAt .kernel (s.setKont s.current .leaving)
  | .resume => if (s.proc s.current).state = .running then .ok s.resume else .error .stuck
  | .deliver => s.whenAt .leaving s.deliver
  | .schedule => .ok s.schedule
  | .tick => .ok s.tick
  | .wakeUp queue onlyInterruptible => .ok (s.wakeUp queue onlyInterruptible)
  | .signal target signum => .ok (s.sendSig signum target)
  | .sigaction task table => .ok (s.modify task fun p => { p with actions := table })

end Sys

end Shitix.Sched
