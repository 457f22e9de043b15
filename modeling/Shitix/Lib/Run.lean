import Mathlib.Tactic.Basic

/-!
# Runs of a machine

A machine is a step function that takes a state and an input and either fails or
moves on.  `run` feeds it a list of inputs.  `Guarded` says that every input of
the list meets a condition in the state it arrives in, and `run_invariant` is the
rule all invariants of this development are proved with: a property that every
guarded step keeps holds at the end of every guarded run, and no such run fails.
`guarded_iff` turns an equivalence for one step into one for runs.
-/

namespace Shitix

variable {σ ι ε : Type*}

/-- Feed the inputs to the machine, first to last. -/
def run (step : σ → ι → Except ε σ) : List ι → σ → Except ε σ
  | [], state => .ok state
  | input :: rest, state =>
    match step state input with
    | .ok next => run step rest next
    | .error failure => .error failure

/-- Every input meets the condition in the state it arrives in. -/
def Guarded (step : σ → ι → Except ε σ) (guard : σ → ι → Prop) : List ι → σ → Prop
  | [], _ => True
  | input :: rest, state =>
    guard state input ∧ ∀ next, step state input = .ok next → Guarded step guard rest next

variable {step : σ → ι → Except ε σ} {guard guard' : σ → ι → Prop} {Inv P : σ → Prop}
  {state : σ} {inputs first second : List ι}

theorem run_invariant
    (hstep : ∀ state input, Inv state → guard state input →
      ∃ next, step state input = .ok next ∧ Inv next)
    (hinv : Inv state) (hguard : Guarded step guard inputs state) :
    ∃ final, run step inputs state = .ok final ∧ Inv final := by
  induction inputs generalizing state with
  | nil => exact ⟨state, rfl, hinv⟩
  | cons input rest ih =>
    obtain ⟨hhere, hrest⟩ := hguard
    obtain ⟨next, hnext, hinvNext⟩ := hstep state input hinv hhere
    simp only [run, hnext]
    exact ih hinvNext (hrest next hnext)

/-- Inputs that meet the condition in any state. -/
theorem guarded_of_forall (h : ∀ input ∈ inputs, ∀ state, guard state input) (state : σ) :
    Guarded step guard inputs state := by
  induction inputs generalizing state with
  | nil => exact trivial
  | cons input rest ih =>
    obtain ⟨hhere, hrest⟩ := List.forall_mem_cons.mp h
    exact ⟨hhere state, fun next _ => ih hrest next⟩

/-- A condition that follows from the condition. -/
theorem Guarded.mono (himp : ∀ state input, guard state input → guard' state input)
    (h : Guarded step guard inputs state) : Guarded step guard' inputs state := by
  induction inputs generalizing state with
  | nil => exact trivial
  | cons input rest ih => exact ⟨himp state input h.1, fun next hnext => ih (h.2 next hnext)⟩

/-- The condition on what comes after a part of the run. -/
theorem Guarded.after {middle : σ} (h : Guarded step guard (first ++ second) state)
    (hrun : run step first state = .ok middle) : Guarded step guard second middle := by
  induction first generalizing state with
  | nil =>
    cases hrun
    exact h
  | cons input rest ih =>
    simp only [run] at hrun
    cases hnext : step state input with
    | ok next =>
      rw [hnext] at hrun
      exact ih (h.2 next hnext) hrun
    | error failure =>
      rw [hnext] at hrun
      cases hrun

/-- Whether every input meets a decidable condition in the state it arrives in. -/
def guardedCheck (step : σ → ι → Except ε σ) (guard : σ → ι → Prop)
    [∀ state input, Decidable (guard state input)] : List ι → σ → Bool
  | [], _ => true
  | input :: rest, state =>
    decide (guard state input) &&
      match step state input with
      | .ok next => guardedCheck step guard rest next
      | .error _ => true

theorem guarded_of_check [∀ state input, Decidable (guard state input)]
    (h : guardedCheck step guard inputs state = true) : Guarded step guard inputs state := by
  induction inputs generalizing state with
  | nil => exact trivial
  | cons input rest ih =>
    simp only [guardedCheck, Bool.and_eq_true, decide_eq_true_eq] at h
    refine ⟨h.1, fun next hnext => ih ?_⟩
    have hrest := h.2
    rw [hnext] at hrest
    exact hrest

/-- What every step that meets the condition keeps, a run that meets it keeps. -/
theorem Guarded.keeps
    (hstep : ∀ state input next, P state → guard state input → step state input = .ok next → P next)
    {state final : σ} (hguard : Guarded step guard inputs state) (hstate : P state)
    (hrun : run step inputs state = .ok final) : P final := by
  induction inputs generalizing state with
  | nil =>
    cases hrun
    exact hstate
  | cons input rest ih =>
    obtain ⟨hhere, hrest⟩ := hguard
    simp only [run] at hrun
    cases hnext : step state input with
    | ok next =>
      rw [hnext] at hrun
      exact ih (hrest next hnext) (hstep state input next hstate hhere hnext) hrun
    | error failure =>
      rw [hnext] at hrun
      cases hrun

/-- What every step of a run keeps, the run keeps. -/
theorem run_keeps
    (hstep : ∀ input ∈ inputs, ∀ state next, P state → step state input = .ok next → P next)
    {state final : σ} (hstate : P state) (hrun : run step inputs state = .ok final) : P final := by
  have hguard : Guarded step (fun _ input => input ∈ inputs) inputs state :=
    guarded_of_forall (fun _ hmem _ => hmem) state
  exact hguard.keeps (fun state input next hkeep hmem => hstep input hmem state next hkeep) hstate hrun

/-- Two conditions that agree wherever an invariant holds, and keep it, agree on whole runs. -/
theorem guarded_iff {env : σ → ι → Prop}
    (hiff : ∀ state input, Inv state → (guard state input ↔ guard' state input))
    (hstep : ∀ state input next, Inv state → env state input → guard state input →
      step state input = .ok next → Inv next)
    (hinv : Inv state) (henv : Guarded step env inputs state) :
    Guarded step guard inputs state ↔ Guarded step guard' inputs state := by
  induction inputs generalizing state with
  | nil => exact Iff.rfl
  | cons input rest ih =>
    refine (and_congr_left fun _ => hiff state input hinv).trans
      (and_congr_right fun hhere => forall_congr' fun next => imp_congr_right fun hnext => ?_)
    exact ih (hstep state input next hinv henv.1 ((hiff state input hinv).mpr hhere) hnext)
      (henv.2 next hnext)

/-- Whether a run ends in a state with a property. -/
def endsIn (p : σ → Prop) [DecidablePred p] : Except ε σ → Bool
  | .ok final => p final
  | .error _ => false

theorem exists_of_endsIn {p : σ → Prop} [DecidablePred p] {result : Except ε σ}
    (h : endsIn p result = true) : ∃ final, result = .ok final ∧ p final := by
  cases result with
  | ok final => exact ⟨final, rfl, of_decide_eq_true h⟩
  | error _ => exact absurd h Bool.false_ne_true

end Shitix
