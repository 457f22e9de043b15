import Shitix.Lib.RefCount
import Shitix.Sched.Table

/-!
# Kernel stacks

A task runs in the kernel on one of the eight stacks of a pool.  A thread that ends still stands on
its stack, so `do_kthread_exit` notes it in `KSTACK_PENDING`, and the next `alloc_kstack` frees it.

Two things go wrong.  There is one note, and a second thread that ends before the next allocation
overwrites it.  And a `fork` that cannot copy the address space frees the stack but leaves it to the
child, which stays in the table.
-/

namespace Shitix.Sched

open Function List

/-- The tasks and the pool. -/
structure Stacks where
  /-- not `Unused` -/
  live : Slot → Bool
  kernelStack : Slot → Option (Fin 8)
  /-- `KSTACK_PENDING` -/
  pending : Option (Fin 8)
  /-- `KSTACK_USED` -/
  used : Fin 8 → Bool

/-- The calls that take and give back stacks. -/
inductive StackCall where
  | kernelThread
  /-- with whether the address space can be copied -/
  | fork (copied : Bool)
  | clone
  | kthreadExit (nr : Slot)
  /-- by another task -/
  | release (nr : Slot)

namespace Stacks

/-- The stack of the idle task is not of the pool. -/
def boot : Stacks := ⟨fun i => i = idle, fun _ => none, none, fun _ => false⟩

variable (x : Stacks)

def freeKstack : Option (Fin 8) → Fin 8 → Bool
  | none => x.used
  | some k => update x.used k false

def reapKstack : Stacks := { x with pending := none, used := x.freeKstack x.pending }

def freeSlot : Option Slot := (finRange 64).find? fun i => i ≠ idle ∧ x.live i = false

/-- What `alloc_kstack` hands out. -/
def unused : Option (Fin 8) := (finRange 8).find? fun k => x.reapKstack.used k = false

/-- `kernel_thread`, `clone` and `fork`, which frees the stack if it cannot go on. -/
def create (copied : Bool) : Stacks :=
  match x.freeSlot, x.unused with
  | none, _ => x
  | some _, none => x.reapKstack
  | some child, some k =>
    ⟨update x.live child true, update x.kernelStack child (some k), none,
      update x.reapKstack.used k copied⟩

/-- `do_kthread_exit` -/
def kthreadExit (nr : Slot) : Stacks :=
  ⟨update x.live nr false, update x.kernelStack nr none, x.kernelStack nr, x.used⟩

def release (nr : Slot) : Stacks :=
  if x.live nr then
    ⟨update x.live nr false, update x.kernelStack nr none, x.pending,
      x.freeKstack (x.kernelStack nr)⟩
  else x

def step : StackCall → Except Stuck Stacks
  | .kernelThread | .clone => .ok (x.create true)
  | .fork copied => .ok (x.create copied)
  | .kthreadExit nr => if x.live nr then .ok (x.kthreadExit nr) else .error .stuck
  | .release nr => .ok (x.release nr)

/-- The stack of a task, or of the last thread that ended. -/
def held : Option Slot → Option (Fin 8)
  | none => x.pending
  | some i => if x.live i then x.kernelStack i else none

/-- No stack is lost or shared: one that is used belongs to one, and another to none. -/
def Owned : Prop := ∀ k, uses x.held k = if x.used k then 1 else 0

structure Safe : Prop where
  owned : Owned x
  /-- no task runs on the stack that is handed out, and the thread of the note has left it -/
  fresh : ∀ k, x.unused = some k → ∀ i, x.held (some i) ≠ some k
  /-- without tasks all can be allocated -/
  back : (∀ i, x.held (some i) = none) → ∀ k, x.reapKstack.used k = false

def SafeAfter (call : StackCall) : Prop := ∀ y, x.step call = .ok y → Safe y

/-- The condition on a call. -/
def Fits : StackCall → Prop
  | .fork copied => copied = true ∨ x.freeSlot = none ∨ x.unused = none
  | .kthreadExit nr => x.live nr = true → x.pending = none
  | _ => True

variable {x} {y : Stacks} {k : Fin 8} (h : Owned x)

include h

theorem Owned.used_of_held {o : Option Slot} (ho : x.held o = some k) : x.used k = true := by
  have hpos := uses_pos.mpr ⟨o, ho⟩
  rw [h] at hpos
  by_contra hused
  simp [hused] at hpos

theorem Owned.freed (o : Option Slot) (hused : y.used = x.freeKstack (x.held o))
    (hheld : y.held = update x.held o none) : Owned y := by
  intro k
  have hupdate := uses_update x.held o none k
  rw [hheld, hused]
  cases ho : x.held o with
  | none =>
    rw [ho, h] at hupdate
    exact hupdate
  | some k₀ =>
    have hfreed : x.freeKstack (some k₀) k = if k = k₀ then false else x.used k := update_apply ..
    grind [h k]

theorem Owned.reap : Owned x.reapKstack := by
  refine h.freed none rfl (funext fun o => ?_)
  cases o <;> rfl

theorem Owned.safe : Safe x := by
  refine ⟨h, fun k hk i hi => ?_, fun hnone k => ?_⟩
  · have hused := h.reap.used_of_held (o := some i) hi
    simpa [hused] using find?_some hk
  · have hzero : uses x.reapKstack.held k = 0 := uses_eq_zero.mpr fun o ho => by
      cases o with
      | none => cases ho
      | some i => cases (hnone i).symm.trans ho
    simpa [h.reap k] using hzero

theorem Owned.create_iff {copied : Bool} :
    Owned (x.create copied) ↔ copied = true ∨ x.freeSlot = none ∨ x.unused = none := by
  unfold create
  cases hslot : x.freeSlot with
  | none => simp [h]
  | some child =>
    cases hstack : x.unused with
    | none => simp [h.reap]
    | some k =>
      have hchild := find?_some hslot
      have hfree : x.reapKstack.used k = false := by simpa using find?_some hstack
      have hheld : held ⟨update x.live child true, update x.kernelStack child (some k), none,
          update x.reapKstack.used k copied⟩ = update x.reapKstack.held (some child) (some k) := by
        funext o
        cases o with
        | none => rfl
        | some i => by_cases heq : i = child <;> simp [held, heq, reapKstack]
      have hnone : x.reapKstack.held (some child) = none := by simp_all [held, reapKstack]
      simp only [reduceCtorEq, or_false, Owned, hheld, uses_bind hnone, h.reap _]
      constructor
      · intro hall
        simpa [hfree] using hall k
      · rintro rfl k'
        by_cases heq : k' = k <;> simp [heq, hfree]

theorem Owned.step_iff (call : StackCall) : x.SafeAfter call ↔ x.Fits call := by
  have hsafe : ∀ {y : Stacks}, Safe y ↔ Owned y := ⟨Safe.owned, Owned.safe⟩
  unfold SafeAfter Fits step
  cases call with
  | kernelThread | clone => simp [hsafe, h.create_iff]
  | fork copied => simp [hsafe, h.create_iff]
  | kthreadExit nr =>
    by_cases hlive : x.live nr = true
    · have hheld : (x.kthreadExit nr).held =
          update (update x.held (some nr) none) none (x.held (some nr)) := by
        funext o
        cases o with
        | none => simp [held, kthreadExit, hlive]
        | some i => by_cases heq : i = nr <;> simp [held, kthreadExit, heq]
      -- the stack goes from the task to the note, and what was noted is lost
      have hmoved : ∀ k, uses (x.kthreadExit nr).held k + (if x.pending = some k then 1 else 0) =
          if (x.kthreadExit nr).used k then 1 else 0 := by
        intro k
        rw [hheld]
        exact (uses_update ..).trans ((uses_update x.held (some nr) none k).trans (h k))
      simp only [hlive, if_true, Except.ok.injEq, forall_eq', hsafe, forall_const]
      constructor
      · refine fun hall => Option.eq_none_iff_forall_ne_some.mpr fun k hk => ?_
        have hlost := hmoved k
        rw [hall k, if_pos hk] at hlost
        exact absurd hlost (Nat.succ_ne_self _)
      · intro hpending k
        simpa [hpending] using hmoved k
    · simp [hlive]
  | release nr =>
    simp only [Except.ok.injEq, forall_eq', hsafe, iff_true]
    unfold release
    split_ifs with hlive
    · refine h.freed (some nr) (by simp [held, hlive]) (funext fun o => ?_)
      cases o with
      | none => rfl
      | some i => by_cases heq : i = nr <;> simp [held, heq]
    · exact h

omit h

/-- The pool is in order after every call of a run exactly if every call meets the condition. -/
theorem safe_run_iff (calls : List StackCall) :
    Guarded step SafeAfter calls boot ↔ Guarded step Fits calls boot :=
  guarded_iff (fun _ call (h : Owned _) => h.step_iff call)
    (fun _ _ y _ _ hsafe hstep => (hsafe y hstep).owned) (by unfold Owned; decide +kernel : Owned boot)
    (guarded_of_forall (fun _ _ _ => trivial) boot : Guarded _ (fun _ _ => True) _ _)

/-- Two threads end, and the stack of the first stays used. -/
theorem exits_lose_stack :
    ∃ x, run step [.kernelThread, .kernelThread, .kthreadExit 1, .kthreadExit 2] boot = .ok x ∧
      (∀ i, x.held (some i) = none) ∧ x.reapKstack.used 0 = true ∧ ¬ Safe x := by
  refine ⟨_, rfl, by decide +kernel, rfl, fun h => ?_⟩
  exact absurd (h.back (by decide +kernel) 0) (by decide +kernel)

end Stacks

end Shitix.Sched
