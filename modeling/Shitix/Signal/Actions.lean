import Shitix.Lib.BitSet

/-!
# Signal masks and actions

The part of `signal.rs` and `syscall/sys.rs` that a task changes its signal mask and its
actions with, and `send_sig`.  Bit `n` of a mask is signal `n`, and bit 0 is not used.

The table of actions is a page of its own that a task gets with its first action; whether
there was a page for it is an argument of the calls that may need one.  What a call copies
back to the caller is its reply.  Of an action, its mask and its restorer are left out: they
are stored and nothing reads them.
-/

namespace Shitix.Signal

open BitSet

/-- `u64` -/
abbrev Word : Type := BitVec 64

def sigkill : ℕ := 9

def sigchld : ℕ := 17

def sigcont : ℕ := 18

def sigstop : ℕ := 19

def sigtstp : ℕ := 20

def sigttin : ℕ := 21

def sigttou : ℕ := 22

def sigurg : ℕ := 23

def sigwinch : ℕ := 28

def blockable : Word := ~~~(bit 64 sigkill ||| bit 64 sigstop)

def saSiginfo : Word := 4

def saRestart : Word := 8

/-- `SignalHandler`.  `ign` is the address of `ignore_handler`; the 1 a program passes for
`SIG_IGN` is an address like any other. -/
inductive Handler where
  | dfl
  | ign
  | user (entry : Word)
deriving DecidableEq, Repr

/-- `SigAction` -/
structure Action where
  handler : Handler
  flags : Word
deriving DecidableEq, Repr

/-- `SigAction::default` -/
def Action.default : Action := ⟨.dfl, 0⟩

inductive TaskState where
  | running | interruptible | uninterruptible | zombie | stopped | swapping | unused
deriving DecidableEq, Repr

/-- What signals use of a task. -/
structure Task where
  signal : Word
  blocked : Word
  /-- the table of actions, if the task has one -/
  actions : Option (ℕ → Action)
  state : TaskState
  exitCode : ℕ

/-- A task as it is created. -/
def newTask : Task := ⟨0#64, 0#64, none, .running, 0⟩

namespace Task

def nrSigactions : ℕ := 32

/-- `get_task_signal` -/
def getSignal (t : Task) (signum : ℕ) : Action :=
  if nrSigactions ≤ signum then .default
  else
    match t.actions with
    | none => .default
    | some table => table signum

/-- `table_ptr_or_alloc` -/
def tableOrAlloc (t : Task) (page : Bool) : Option (ℕ → Action) :=
  match t.actions with
  | some table => some table
  | none => if page then some fun _ => .default else none

/-- `set_task_signal`; without a page for the table nothing changes -/
def setSignal (t : Task) (signum : ℕ) (action : Action) (page : Bool) : Task :=
  if nrSigactions ≤ signum then t
  else
    match t.tableOrAlloc page with
    | none => t
    | some table => { t with actions := some (Function.update table signum action) }

def setsigmask (t : Task) (mask : Word) : Task × Word :=
  ({ t with blocked := mask &&& blockable }, t.blocked)

def sigaddset (t : Task) (sig : ℕ) : Task × ℤ :=
  if 31 < sig then (t, -1) else ({ t with blocked := insert t.blocked sig }, 0)

def sigdelset (t : Task) (sig : ℕ) : Task × ℤ :=
  if 31 < sig then (t, -1) else ({ t with blocked := erase t.blocked sig }, 0)

def sigemptyset (t : Task) : Task := { t with blocked := 0#64 }

def sigfillset (t : Task) : Task := { t with blocked := blockable }

def einval : ℤ := 22

/-- `rt_sigaction`: the task, the result, and the action copied back -/
def rtSigaction (t : Task) (signum : ℕ) (act : Option Action) (sigsetsize : ℕ) (page : Bool) :
    Task × ℤ × Option Action :=
  if signum = 0 ∨ 31 < signum ∨ sigsetsize ≠ 8 then (t, -einval, none)
  else
    let old := t.getSignal signum
    match act with
    | none => (t, 0, some old)
    | some act => (t.setSignal signum act page, 0, some old)

/-- `rt_sigprocmask`: the task, and the result; `oldset` says whether the caller wants the old mask,
which then is also what the call returns -/
def rtSigprocmask (t : Task) (how : ℤ) (set : Option Word) (oldset : Bool) (sigsetsize : ℕ) :
    Task × ℤ :=
  if sigsetsize ≠ 8 then (t, -einval)
  else
    let reply := if oldset then t.blocked.toInt else 0
    match set with
    | none => (t, reply)
    | some set =>
      if how = 0 then ({ t with blocked := t.blocked ||| set }, reply)
      else if how = 1 then ({ t with blocked := t.blocked &&& ~~~set }, reply)
      else if how = 2 then ({ t with blocked := set }, reply)
      else (t, -einval)

def sendSig (t : Task) (signum : ℕ) : Task × ℤ :=
  if signum = 0 then (t, 0)
  else if 31 < signum then (t, -1)
  else if t.state = .unused then (t, -1)
  else
    let deliver : Task :=
      { t with
        signal := insert t.signal signum
        state := if t.state = .interruptible then .running else t.state }
    match (t.getSignal signum).handler with
    | .ign => if signum ≠ sigchld then (t, 0) else (deliver, 0)
    | .user _ => (deliver, 0)
    | .dfl =>
      -- what is ignored by default is not even marked
      if signum = sigchld ∨ signum = sigcont ∨ signum = sigwinch then
        (if signum = sigcont ∧ t.state = .stopped then { t with state := .running } else t, 0)
      else (deliver, 0)

/-- The signals that are waiting and not blocked. -/
def pending (t : Task) : Word := t.signal &&& ~~~t.blocked

end Task

end Shitix.Signal
