import Shitix.Signal.Delivery

/-!
# Which handlers `do_signal` delivers

The signals that are taken depend on the task and on what arrives while it is stopped, but
not on its registers.  So `do_signal` is two things one after the other: a selection of
deliveries, and their replay on the registers and the user stack (`doSignal_eq_replay`).
Each round of the selection takes a signal, so it ends (`selected_isSome`).
-/

namespace Shitix.Signal

open BitSet Option

variable {t t' : Task} {cpu cpu' : Cpu} {arrivals : List Word} {fuel signum : ℕ} {d : Delivery}
  {ds : List Delivery} {ending : Ending}

/-! ## Waiting signals -/

theorem getLsbD_pending (i : ℕ) :
    t.pending.getLsbD i = (t.signal.getLsbD i && !t.blocked.getLsbD i) := by
  by_cases hi : i < 64
  · simp [Task.pending, hi]
  · have hge : 64 ≤ i := not_lt.mp hi
    rw [BitVec.getLsbD_of_ge _ _ hge, BitVec.getLsbD_of_ge t.signal _ hge, Bool.false_and]

theorem pending_took_self : (t.took signum).pending.getLsbD signum = false := by
  rw [getLsbD_pending, Task.took, getLsbD_erase_self, Bool.false_and]

theorem pending_took_of_ne {i : ℕ} (h : i ≠ signum) :
    (t.took signum).pending.getLsbD i = t.pending.getLsbD i := by
  rw [getLsbD_pending, getLsbD_pending, Task.took, getLsbD_erase_of_ne h]

/-- Taking a signal makes no other one wait. -/
theorem pending_of_took {i : ℕ} (h : (t.took signum).pending.getLsbD i = true) :
    t.pending.getLsbD i = true := by
  by_cases hne : i = signum
  · rw [hne, pending_took_self] at h
    exact absurd h Bool.false_ne_true
  · rwa [pending_took_of_ne hne] at h

theorem size_took_lt (h : t.pending.getLsbD signum = true) :
    size (t.took signum).pending < size t.pending :=
  size_lt (fun _ => pending_of_took) h pending_took_self

theorem pending_woken : t.woken.pending = t.pending := by
  unfold Task.woken
  split <;> rfl

theorem pending_stopFor_zero : (t.stopFor signum 0#64).pending = t.pending := by
  simp [Task.pending, Task.stopFor]

theorem getSignal_congr (h : t'.actions = t.actions) : t'.getSignal = t.getSignal := by
  funext signum
  simp [Task.getSignal, h]

theorem effect_congr (h : t'.actions = t.actions) : t'.effect = t.effect := by
  funext signum
  simp [Task.effect, getSignal_congr h]

theorem defaultEffect_ne_deliver : defaultEffect signum ≠ .deliver d := by
  unfold defaultEffect
  split_ifs <;> exact Effect.noConfusion

/-- A delivery is that of the handler of the signal. -/
theorem handler_of_effect (h : t.effect signum = .deliver d) :
    (t.getSignal signum).handler = .user d.entry := by
  unfold Task.effect at h
  split_ifs at h
  cases hhandler : (t.getSignal signum).handler with
  | dfl =>
    rw [hhandler] at h
    exact absurd h defaultEffect_ne_deliver
  | ign =>
    rw [hhandler] at h
    cases h
  | user entry =>
    rw [hhandler] at h
    cases h
    rfl

theorem actions_woken : t.woken.actions = t.actions := by
  unfold Task.woken
  split <;> rfl

theorem blocked_woken : t.woken.blocked = t.blocked := by
  unfold Task.woken
  split <;> rfl

/-! ## The selection -/

/-- How the selection ends: the task returns to user mode, or a signal ends it. -/
inductive Ending where
  | back (t : Task)
  | exit (code : ℕ)

/-- The deliveries, in order, and the end. -/
def selection : ℕ → List Word → Task → Option (List Delivery × Ending)
  | 0, _, _ => none
  | fuel + 1, arrivals, t =>
    if t.pending = 0#64 then some ([], .back t)
    else
      let signum := lowest t.pending
      let t := t.took signum
      match t.effect signum with
      | .discard => selection fuel arrivals t
      | .deliver d => (selection fuel arrivals t).map fun rest => (d :: rest.1, rest.2)
      | .wake => selection fuel arrivals t.woken
      | .stop => selection fuel arrivals.tail (t.stopFor signum (arrivals.headD 0#64))
      | .exit => some ([], .exit signum)

/-- What `do_signal` selects. -/
def selected (arrivals : List Word) (t : Task) : Option (List Delivery × Ending) :=
  selection (rounds arrivals) arrivals t

/-- Deliver one handler after the other. -/
def deliverAll : List Delivery → Cpu → Except Panic Cpu
  | [], cpu => .ok cpu
  | d :: ds, cpu =>
    match deliver d cpu with
    | .error e => .error e
    | .ok cpu => deliverAll ds cpu

/-- The end of `do_signal` after the deliveries. -/
def conclude (ending : Ending) (cpu : Cpu) : Outcome :=
  match ending with
  | .exit code => .exited code
  | .back t =>
    match finish cpu.regs with
    | .error _ => .panicked
    | .ok r => .returned t { cpu with regs := r }

/-- The deliveries and the end. -/
def replay (ds : List Delivery) (ending : Ending) (cpu : Cpu) : Outcome :=
  match deliverAll ds cpu with
  | .error _ => .panicked
  | .ok cpu => conclude ending cpu

theorem signalLoop_eq_replay (h : selection fuel arrivals t = some (ds, ending)) :
    (signalLoop fuel arrivals t cpu).map Outcome.last = some (replay ds ending cpu) := by
  induction fuel generalizing arrivals t cpu ds with
  | zero => cases h
  | succ fuel ih =>
    rw [selection] at h
    rw [signalLoop]
    by_cases hnone : t.pending = 0#64
    · rw [if_pos hnone] at h ⊢
      cases h
      simp only [replay, deliverAll, conclude]
      cases finish cpu.regs <;> rfl
    · rw [if_neg hnone] at h ⊢
      generalize lowest t.pending = signum at h
      dsimp only at h ⊢
      generalize (t.took signum).effect signum = effect at h
      cases effect with
      | discard | wake => exact ih h
      | deliver d =>
        obtain ⟨⟨rest, _⟩, hrest, heq⟩ := map_eq_some_iff.mp h
        cases heq
        simp only [replay, deliverAll]
        cases deliver d cpu with
        | error _ => rfl
        | ok cpu' => exact ih hrest
      | stop =>
        rw [map_map]
        exact ih h
      | exit =>
        cases h
        rfl

/-! ## The loop ends -/

theorem selection_isSome (h : size t.pending + 65 * arrivals.length < fuel) :
    (selection fuel arrivals t).isSome = true := by
  induction fuel generalizing arrivals t with
  | zero => exact absurd h (Nat.not_lt_zero _)
  | succ fuel ih =>
    rw [selection]
    by_cases hnone : t.pending = 0#64
    · rw [if_pos hnone]
      rfl
    · rw [if_neg hnone]
      have hless := size_took_lt (lowest_spec hnone).1
      generalize lowest t.pending = signum at hless
      dsimp only
      cases (t.took signum).effect signum with
      | discard => exact ih (by omega)
      | deliver d =>
        rw [isSome_map]
        exact ih (by omega)
      | wake =>
        refine ih ?_
        rw [pending_woken]
        omega
      | stop =>
        apply ih
        -- the stop has used up what arrived during it
        cases arrivals with
        | nil =>
          rw [List.headD_nil, pending_stopFor_zero, List.tail_nil]
          omega
        | cons arrived rest =>
          have hle : size ((t.took signum).stopFor signum arrived).pending ≤ 64 := size_le
          rw [List.length_cons] at h
          rw [List.headD_cons, List.tail_cons]
          omega
      | exit => rfl

theorem selected_isSome : (selected arrivals t).isSome = true := by
  refine selection_isSome ?_
  have hle : size t.pending ≤ 64 := size_le
  unfold rounds
  omega

theorem signalLoop_isSome (h : size t.pending + 65 * arrivals.length < fuel) :
    (signalLoop fuel arrivals t cpu).isSome = true := by
  obtain ⟨⟨ds, ending⟩, hselection⟩ := isSome_iff_exists.mp (selection_isSome h)
  rw [← isSome_map, signalLoop_eq_replay hselection]
  rfl

/-- `do_signal` is the replay of what it selects. -/
theorem doSignal_eq_replay (h : selected arrivals t = some (ds, ending)) :
    ∃ outcome, doSignal arrivals t cpu = some outcome ∧ outcome.last = replay ds ending cpu := by
  have hreplay : (doSignal arrivals t cpu).map Outcome.last = _ := signalLoop_eq_replay h
  exact map_eq_some_iff.mp hreplay

end Shitix.Signal
