import Shitix.Lib.ByteMem
import Shitix.Signal.Actions

/-!
# Delivering signals

`setup_frame` and `do_signal` of `signal.rs`, with overflow checks (the default profile): a
subtraction that would go below 0 stops the kernel.

A register frame is a `Regs`.  User memory is bytes at addresses, and all of it can be
written; a frame goes to it field by field, lowest address first.  While a task is stopped,
other tasks run and may send it signals; what arrives during each stop is a list of words.
-/

namespace Shitix.Signal

open BitSet

/-! ## Registers -/

/-- `PtRegs` -/
structure Regs where
  r15 : Word
  r14 : Word
  r13 : Word
  r12 : Word
  rbp : Word
  rbx : Word
  r11 : Word
  r10 : Word
  r9 : Word
  r8 : Word
  rax : Word
  rcx : Word
  rdx : Word
  rsi : Word
  rdi : Word
  origRax : Word
  rip : Word
  cs : Word
  rflags : Word
  rsp : Word
  ss : Word
deriving DecidableEq, Repr

def userCs : Word := 0x1b

def userDs : Word := 0x23

/-- A task in the kernel: the registers it returns to user mode with, and its memory. -/
structure Cpu where
  regs : Regs
  mem : ByteMem

/-- An overflow check that fails. -/
inductive Panic where
  | overflow
deriving DecidableEq, Repr

/-- `-EINTR` in a register -/
def negEintr : Word := -4

/-- `-ERESTARTSYS` -/
def negErestartsys : Word := -512

/-- `-ERESTARTNOINTR` -/
def negErestartnointr : Word := -513

/-- `-ERESTARTNOHAND` -/
def negErestartnohand : Word := -514

/-- The system call is made again: `rax = orig_rax`, `rip -= 2`. -/
def Regs.restart (r : Regs) : Except Panic Regs :=
  if r.rip.toNat < 2 then .error .overflow else .ok { r with rax := r.origRax, rip := r.rip - 2 }

/-! ## The frame on the user stack -/

/-- What is delivered: a signal to a handler of the program. -/
structure Delivery where
  signum : ℕ
  entry : Word
  flags : Word
deriving DecidableEq, Repr

namespace Delivery

/-- Whether the handler gets a `siginfo_t`. -/
def siginfo (d : Delivery) : Bool := d.flags &&& saSiginfo != 0#64

/-- Whether interrupted calls are made again. -/
def restarts (d : Delivery) : Bool := d.flags &&& saRestart != 0#64

/-- The size of `SigFrame` or `SigFrameExt`. -/
def frameSize (d : Delivery) : ℕ := if d.siginfo then 192 else 64

/-- Where the frame goes. -/
def frameAddr (d : Delivery) (rsp : ℕ) : ℕ := (rsp - d.frameSize - 16) / 16 * 16

end Delivery

/-- `mov $15, %rax; syscall`, padded with `int3` -/
def trampoline : List UInt8 :=
  [0x48, 0xc7, 0xc0, 0x0f, 0x00, 0x00, 0x00, 0x0f, 0x05, 0xcc, 0xcc, 0xcc]

/-- `siginfo_t` -/
def siginfoBytes (signum : ℕ) : List UInt8 := leBytes 4 signum ++ List.replicate 124 0

/-- `SigFrame`, and `SigFrameExt` with a `siginfo_t` behind it. -/
def frameBytes (d : Delivery) (r : Regs) (addr : ℕ) : List UInt8 :=
  leBytes 8 (addr + 48) ++ leBytes 8 r.ss.toNat ++ leBytes 8 r.rsp.toNat ++
    leBytes 8 r.rflags.toNat ++ leBytes 8 r.cs.toNat ++ leBytes 8 r.rip.toNat ++ trampoline ++
    if d.siginfo then siginfoBytes d.signum else []

/-- The registers a handler starts with. -/
def enterHandler (d : Delivery) (r : Regs) (addr : ℕ) : Regs :=
  let r := { r with rdi := BitVec.ofNat 64 d.signum }
  let r := if d.siginfo then { r with rsi := BitVec.ofNat 64 (addr + 60), rdx := 0 } else r
  { r with
    rip := d.entry
    cs := userCs
    rflags := 0x202
    rsp := BitVec.ofNat 64 addr
    ss := userDs }

def setupFrame (d : Delivery) (cpu : Cpu) : Except Panic Cpu :=
  let rsp := cpu.regs.rsp.toNat
  if rsp < d.frameSize + 16 then .error .overflow
  else
    let addr := d.frameAddr rsp
    .ok ⟨enterHandler d cpu.regs addr, cpu.mem.copy addr (frameBytes d cpu.regs addr)⟩

/-! ## `do_signal` -/

/-- What happens to an interrupted system call when a handler is delivered. -/
def adjust (d : Delivery) (r : Regs) : Except Panic Regs :=
  if r.rax = negErestartnointr then r.restart
  else if r.rax = negErestartsys ∨ r.rax = negEintr then
    if d.restarts then r.restart else .ok r
  else if r.rax = negErestartnohand then .ok { r with rax := negEintr }
  else .ok r

/-- A handler is delivered. -/
def deliver (d : Delivery) (cpu : Cpu) : Except Panic Cpu :=
  match adjust d cpu.regs with
  | .error e => .error e
  | .ok r => setupFrame d { cpu with regs := r }

/-- What happens to an interrupted system call when no signal is left. -/
def finish (r : Regs) : Except Panic Regs :=
  if r.rax = negErestartsys ∨ r.rax = negErestartnohand ∨ r.rax = negErestartnointr then r.restart
  else .ok r

/-- How `do_signal` ends; before that, the task may have stopped for a signal and gone on. -/
inductive Outcome where
  | returned (t : Task) (cpu : Cpu)
  | exited (code : ℕ)
  | panicked
  | stopped (signum : ℕ) (later : Outcome)

/-- The end, after all stops. -/
def Outcome.last : Outcome → Outcome
  | .stopped _ later => later.last
  | outcome => outcome

/-- The task stopped for a signal. -/
def Outcome.StoppedFor (signum : ℕ) : Outcome → Prop
  | .stopped other later => other = signum ∨ later.StoppedFor signum
  | _ => False

/-- What a signal does. -/
inductive Effect where
  | discard
  | deliver (d : Delivery)
  | wake
  | stop
  | exit

/-- What a signal does by default. -/
def defaultEffect (signum : ℕ) : Effect :=
  if signum = sigchld ∨ signum = sigurg ∨ signum = sigwinch then .discard
  else if signum = sigcont then .wake
  else if signum = sigstop ∨ signum = sigtstp ∨ signum = sigttin ∨ signum = sigttou then .stop
  else .exit

/-- The part of the loop of `do_signal` that looks at the action. -/
def Task.effect (t : Task) (signum : ℕ) : Effect :=
  if signum = 0 ∨ 31 < signum then .discard
  else
    match (t.getSignal signum).handler with
    | .ign => .discard
    | .user entry => .deliver ⟨signum, entry, (t.getSignal signum).flags⟩
    | .dfl => defaultEffect signum

/-- The task after the signal was taken. -/
def Task.took (t : Task) (signum : ℕ) : Task := { t with signal := erase t.signal signum }

/-- `SIGCONT`. -/
def Task.woken (t : Task) : Task := if t.state = .stopped then { t with state := .running } else t

/-- A stop, until the task is scheduled again; meanwhile `arrived` was sent to it. -/
def Task.stopFor (t : Task) (signum : ℕ) (arrived : Word) : Task :=
  { t with signal := t.signal ||| arrived, state := .running, exitCode := signum }

/-- The loop of `do_signal`; `none` if it did not end within so many rounds. -/
def signalLoop : ℕ → List Word → Task → Cpu → Option Outcome
  | 0, _, _, _ => none
  | fuel + 1, arrivals, t, cpu =>
    if t.pending = 0#64 then
      match finish cpu.regs with
      | .error _ => some .panicked
      | .ok r => some (.returned t { cpu with regs := r })
    else
      let signum := lowest t.pending
      let t := t.took signum
      match t.effect signum with
      | .discard => signalLoop fuel arrivals t cpu
      | .deliver d =>
        match deliver d cpu with
        | .error _ => some .panicked
        | .ok cpu => signalLoop fuel arrivals t cpu
      | .wake => signalLoop fuel arrivals t.woken cpu
      | .stop =>
        let t := t.stopFor signum (arrivals.headD 0#64)
        (signalLoop fuel arrivals.tail t cpu).map (.stopped signum)
      | .exit => some (.exited signum)

/-- Rounds enough for the loop: each takes one signal, and each stop may bring up to 64 more. -/
def rounds (arrivals : List Word) : ℕ := 65 * (arrivals.length + 1)

def doSignal (arrivals : List Word) (t : Task) (cpu : Cpu) : Option Outcome :=
  signalLoop (rounds arrivals) arrivals t cpu

end Shitix.Signal
