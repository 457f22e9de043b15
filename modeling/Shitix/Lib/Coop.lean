import Mathlib.Algebra.BigOperators.Group.Finset.Piecewise
import Mathlib.Algebra.Order.BigOperators.Group.Finset
import Mathlib.Algebra.Order.Ring.Nat
import Shitix.Lib.Run

/-!
# Cooperative threads

Threads that share one state and give the processor away only where they sleep.
A thread is a stack of frames.  The code of a frame is a function of the value
its last callee returned and of the shared state; one such stretch runs without
interruption and ends in one of four ways (`Next`): it returns to the caller, it
goes on at another frame of the same function, it calls another function, or it
sleeps.  `running` names the thread that has the processor, so that no other
thread can run before that one sleeps or finishes.  A sleeping thread may be
resumed at any moment: code that sleeps has to look again at what it waited for.

`Coop.step` also lets the environment (an interrupt, say) act on the shared state
between two stretches.  What a thread may rely on is split in two: a property
of the shared state, and a property of each suspended frame and returned value
that no stretch spoils.  `Coop.Holds.step` carries both through every event.  What the
frames own together (references, say) is a sum over all threads, `Coop.total`; a stretch
changes it by what its own frame gives up and its last frames take (`Coop.total_settle`).
-/

namespace Shitix

open Function List

/-- How a stretch of code ends. -/
inductive Next (φ ρ : Type*)
  | ret (value : ρ)
  | goto (frame : φ)
  | call (callee caller : φ)
  | sleep (frame : φ)

/-- What the frames a stretch leaves behind own. -/
def Next.weight {φ ρ : Type*} (w : φ → ℕ) : Next φ ρ → ℕ
  | .ret _ => 0
  | .goto frame | .sleep frame => w frame
  | .call callee caller => w callee + w caller

/-- Threads, their shared state, and who has the processor. -/
structure Coop (σ φ ρ τ : Type*) where
  shared : σ
  stack : τ → List φ
  /-- What the last callee of the thread returned. -/
  value : τ → ρ
  running : Option τ

namespace Coop

variable {σ φ ρ τ ι ε : Type*} [DecidableEq τ]

/-- What happens next: a thread enters the code, the scheduler picks a thread, or the
environment acts. -/
inductive Event (φ τ ι : Type*)
  | call (thread : τ) (frame : φ)
  | go (thread : τ)
  | env (input : ι)

/-- No thread has entered the code yet. -/
def idle (shared : σ) (value : ρ) : Coop σ φ ρ τ :=
  { shared := shared, stack := fun _ => [], value := fun _ => value, running := none }

/-- The threads after a stretch of `thread` that left `rest` below its frame. -/
def settle (c : Coop σ φ ρ τ) (thread : τ) (rest : List φ) (shared : σ) :
    Next φ ρ → Coop σ φ ρ τ
  | .ret value =>
    { shared := shared
      stack := update c.stack thread rest
      value := update c.value thread value
      running := if rest.isEmpty then none else some thread }
  | .goto frame =>
    { c with
      shared := shared
      stack := update c.stack thread (frame :: rest)
      running := some thread }
  | .call callee caller =>
    { c with
      shared := shared
      stack := update c.stack thread (callee :: caller :: rest)
      running := some thread }
  | .sleep frame =>
    { c with
      shared := shared
      stack := update c.stack thread (frame :: rest)
      running := none }

variable (code : φ → ρ → σ → Except ε (σ × Next φ ρ)) (env : σ → ι → Except ε σ)

/-- Run the topmost frame of a thread. -/
def resume (c : Coop σ φ ρ τ) (thread : τ) : Except ε (Coop σ φ ρ τ) :=
  match c.stack thread with
  | [] => .ok c
  | frame :: rest =>
    match code frame (c.value thread) c.shared with
    | .ok (shared, next) => .ok (c.settle thread rest shared next)
    | .error failure => .error failure

/-- One event.  A pick that cannot be served changes nothing. -/
def step (c : Coop σ φ ρ τ) : Event φ τ ι → Except ε (Coop σ φ ρ τ)
  | .call thread frame =>
    if c.running = none ∧ (c.stack thread).isEmpty then
      .ok { c with stack := update c.stack thread [frame], running := some thread }
    else .ok c
  | .go thread =>
    if c.running = none ∨ c.running = some thread then c.resume code thread else .ok c
  | .env input =>
    match env c.shared input with
    | .ok shared => .ok { c with shared := shared }
    | .error failure => .error failure

/-- What a stretch hands on: the frames it leaves behind, the value it returns. -/
def NextHolds (FrameOk : φ → Prop) (ValueOk : ρ → Prop) : Next φ ρ → Prop
  | .ret value => ValueOk value
  | .goto frame => FrameOk frame
  | .call callee caller => FrameOk callee ∧ FrameOk caller
  | .sleep frame => FrameOk frame

/-- Shared state, frames and values are as the properties ask. -/
structure Holds (Inv : σ → Prop) (FrameOk : φ → Prop) (ValueOk : ρ → Prop)
    (c : Coop σ φ ρ τ) : Prop where
  shared : Inv c.shared
  frames : ∀ thread, ∀ frame ∈ c.stack thread, FrameOk frame
  values : ∀ thread, ValueOk (c.value thread)

variable {Inv : σ → Prop} {FrameOk : φ → Prop} {ValueOk : ρ → Prop} {c : Coop σ φ ρ τ} {shared : σ}
  {value : ρ} {rest : List φ} {next : Next φ ρ}

omit [DecidableEq τ] in
theorem Holds.idle (hshared : Inv shared) (hvalue : ValueOk value) :
    Holds Inv FrameOk ValueOk (idle shared value : Coop σ φ ρ τ) :=
  ⟨hshared, fun _ _ hframe => absurd hframe not_mem_nil, fun _ => hvalue⟩

/-- Writing one thread's stack keeps the frames as asked if the new stack is. -/
theorem frames_update {stack : τ → List φ} (h : ∀ thread, ∀ frame ∈ stack thread, FrameOk frame)
    {thread : τ} {frames : List φ} (hnew : ∀ frame ∈ frames, FrameOk frame) :
    ∀ other, ∀ frame ∈ update stack thread frames other, FrameOk frame := by
  intro other frame hframe
  by_cases hother : other = thread
  · subst hother
    rw [update_self] at hframe
    exact hnew frame hframe
  · rw [update_of_ne hother] at hframe
    exact h other frame hframe

theorem Holds.settle (h : Holds Inv FrameOk ValueOk c) {thread : τ}
    (hrest : ∀ frame ∈ rest, FrameOk frame) (hshared : Inv shared)
    (hnext : NextHolds FrameOk ValueOk next) :
    Holds Inv FrameOk ValueOk (c.settle thread rest shared next) := by
  cases next with
  | ret value =>
    refine ⟨hshared, frames_update h.frames hrest, fun other => ?_⟩
    change ValueOk (update c.value thread value other)
    by_cases hother : other = thread
    · subst hother
      rw [update_self]
      exact hnext
    · rw [update_of_ne hother]
      exact h.values other
  | goto frame | sleep frame =>
    exact ⟨hshared, frames_update h.frames (forall_mem_cons.mpr ⟨hnext, hrest⟩), h.values⟩
  | call callee caller =>
    have hframes : ∀ frame ∈ callee :: caller :: rest, FrameOk frame :=
      forall_mem_cons.mpr ⟨hnext.1, forall_mem_cons.mpr ⟨hnext.2, hrest⟩⟩
    exact ⟨hshared, frames_update h.frames hframes, h.values⟩

variable {code} {env}

/-- An event keeps the properties: every stretch does, and so does the environment. -/
theorem Holds.step {callOk : φ → Prop}
    (hcode : ∀ frame value shared, Inv shared → FrameOk frame → ValueOk value →
      ∃ after next, code frame value shared = .ok (after, next) ∧ Inv after ∧
        NextHolds FrameOk ValueOk next)
    (henv : ∀ shared input, Inv shared → ∃ after, env shared input = .ok after ∧ Inv after)
    (hcall : ∀ frame, callOk frame → FrameOk frame)
    (h : Holds Inv FrameOk ValueOk c) (event : Event φ τ ι)
    (hevent : ∀ thread frame, event = .call thread frame → callOk frame) :
    ∃ after, Coop.step code env c event = .ok after ∧ Holds Inv FrameOk ValueOk after := by
  cases event with
  | call thread frame =>
    simp only [Coop.step]
    split_ifs
    · have hframe := hcall frame (hevent thread frame rfl)
      exact ⟨_, rfl, h.shared, frames_update h.frames (by simpa using hframe), h.values⟩
    · exact ⟨c, rfl, h⟩
  | go thread =>
    simp only [Coop.step, resume]
    split_ifs
    · cases hstack : c.stack thread with
      | nil => exact ⟨c, rfl, h⟩
      | cons frame rest =>
        have hframes := h.frames thread
        rw [hstack, forall_mem_cons] at hframes
        obtain ⟨after, next, hrun, hinv, hnext⟩ :=
          hcode frame (c.value thread) c.shared h.shared hframes.1 (h.values thread)
        dsimp only
        rw [hrun]
        exact ⟨_, rfl, h.settle hframes.2 hinv hnext⟩
    · exact ⟨c, rfl, h⟩
  | env input =>
    obtain ⟨after, hrun, hinv⟩ := henv c.shared input h.shared
    simp only [Coop.step, hrun]
    exact ⟨_, rfl, hinv, h.frames, h.values⟩

/-! ## What all frames own together -/

section Total

variable [Fintype τ]

/-- What all frames of all threads own. -/
def total (w : φ → ℕ) (c : Coop σ φ ρ τ) : ℕ := ∑ thread, ((c.stack thread).map w).sum

variable {w : φ → ℕ} {frame : φ}

omit [DecidableEq τ] in
theorem total_idle : (idle shared value : Coop σ φ ρ τ).total w = 0 :=
  Finset.sum_eq_zero fun _ _ => rfl

omit [DecidableEq τ] in
theorem total_eq_zero : c.total w = 0 ↔ ∀ thread, ∀ frame ∈ c.stack thread, w frame = 0 := by
  simp only [total, Finset.sum_eq_zero_iff, Finset.mem_univ, true_imp_iff, sum_eq_zero_iff,
    forall_mem_map]

omit [DecidableEq τ] in
theorem le_total {thread : τ} (hframe : frame ∈ c.stack thread) : w frame ≤ c.total w := by
  refine le_trans (single_le_sum (fun _ _ => Nat.zero_le _) _ (mem_map_of_mem hframe)) ?_
  exact Finset.single_le_sum (f := fun thread => ((c.stack thread).map w).sum)
    (fun _ _ => Nat.zero_le _) (Finset.mem_univ thread)

/-- Writing one stack moves the total by the difference. -/
theorem total_update (shared : σ) (value : τ → ρ) (running : Option τ) (thread : τ)
    (frames : List φ) :
    (Coop.mk shared (update c.stack thread frames) value running).total w +
      ((c.stack thread).map w).sum = c.total w + (frames.map w).sum := by
  have hupdate : ∀ other, ((update c.stack thread frames other).map w).sum =
      update (fun other => ((c.stack other).map w).sum) thread (frames.map w).sum other := by
    intro other
    by_cases hother : other = thread
    · subst hother
      simp
    · simp [update_of_ne hother]
  simp only [total, hupdate]
  rw [Finset.sum_update_of_mem (Finset.mem_univ thread),
    ← Finset.sum_sdiff (Finset.subset_univ {thread})
      (f := fun other => ((c.stack other).map w).sum), Finset.sum_singleton]
  omega

/-- A stretch gives up what its frame owns and takes what it leaves behind owns. -/
theorem total_settle {thread : τ} (hstack : c.stack thread = frame :: rest) :
    (c.settle thread rest shared next).total w + w frame = c.total w + next.weight w := by
  have hold : ((c.stack thread).map w).sum = w frame + (rest.map w).sum := by
    rw [hstack, map_cons, sum_cons]
  cases next with
  | ret value =>
    have h := c.total_update (w := w) shared (update c.value thread value)
      (if rest.isEmpty then none else some thread) thread rest
    simp only [settle, Next.weight]
    omega
  | goto last =>
    have h := c.total_update (w := w) shared c.value (some thread) thread (last :: rest)
    simp only [settle, Next.weight]
    rw [map_cons, sum_cons] at h
    omega
  | call callee caller =>
    have h := c.total_update (w := w) shared c.value (some thread) thread
      (callee :: caller :: rest)
    simp only [settle, Next.weight]
    rw [map_cons, map_cons, sum_cons, sum_cons] at h
    omega
  | sleep last =>
    have h := c.total_update (w := w) shared c.value none thread (last :: rest)
    simp only [settle, Next.weight]
    rw [map_cons, sum_cons] at h
    omega

end Total

end Coop

end Shitix
