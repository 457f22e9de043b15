import Shitix.Lib.Run
import Shitix.Signal.Rounds

/-!
# `SIGKILL` and `SIGSTOP`

A task is `Killable` if neither of the two signals is blocked or has an action other than
the default.  `setsigmask` and `sigfillset` see to that; `rt_sigaction`, `rt_sigprocmask` and
`sigaddset` do not look at the signal (`blocked_kill_is_ignored`).  Since the mask of
`rt_sigprocmask` is stored as it comes, a program that blocks signal 10 the usual way, with
bit 9, blocks `SIGKILL`.

As long as the calls of a task spare the two signals (`Spares`), it stays killable, the next
`do_signal` after a `SIGKILL` ends it, and after a `SIGSTOP` it stops (`kill_ends_stop_stops`).
-/

namespace Shitix.Signal

open BitSet BitVec Function

/-- Neither signal is blocked, ignored or caught. -/
structure Killable (t : Task) : Prop where
  kill_open : t.blocked.getLsbD sigkill = false
  stop_open : t.blocked.getLsbD sigstop = false
  kill_default : (t.getSignal sigkill).handler = .dfl
  stop_default : (t.getSignal sigstop).handler = .dfl

/-- The calls that change the mask or the actions of a task. -/
inductive Call where
  | rtSigaction (signum : ℕ) (act : Option Action) (sigsetsize : ℕ) (page : Bool)
  | rtSigprocmask (how : ℤ) (set : Option Word) (oldset : Bool) (sigsetsize : ℕ)
  | setsigmask (mask : Word)
  | sigaddset (sig : ℕ)
  | sigdelset (sig : ℕ)
  | sigemptyset
  | sigfillset

/-- A call. -/
def Task.call (t : Task) : Call → Except Empty Task
  | .rtSigaction signum act sigsetsize page => .ok (t.rtSigaction signum act sigsetsize page).1
  | .rtSigprocmask how set oldset sigsetsize => .ok (t.rtSigprocmask how set oldset sigsetsize).1
  | .setsigmask mask => .ok (t.setsigmask mask).1
  | .sigaddset sig => .ok (t.sigaddset sig).1
  | .sigdelset sig => .ok (t.sigdelset sig).1
  | .sigemptyset => .ok t.sigemptyset
  | .sigfillset => .ok t.sigfillset

/-- The call leaves the two signals alone. -/
def Spares (_ : Task) : Call → Prop
  | .rtSigaction signum act _ _ =>
    signum = sigkill ∨ signum = sigstop → ∀ a ∈ act, a.handler = .dfl
  | .rtSigprocmask how set _ _ =>
    how = 0 ∨ how = 2 → ∀ w ∈ set, w.getLsbD sigkill = false ∧ w.getLsbD sigstop = false
  | .sigaddset sig => sig ≠ sigkill ∧ sig ≠ sigstop
  | _ => True

section Calls

variable {t : Task} {signum sigsetsize : ℕ} {page : Bool}

/-- The table an action is written to holds the actions of the task. -/
theorem getSignal_of_table {table : ℕ → Action} (h : t.tableOrAlloc page = some table)
    (hrange : ¬ Task.nrSigactions ≤ signum) : t.getSignal signum = table signum := by
  unfold Task.tableOrAlloc at h
  cases hactions : t.actions with
  | some old =>
    rw [hactions] at h
    cases h
    simp [Task.getSignal, if_neg hrange, hactions]
  | none =>
    rw [hactions] at h
    split_ifs at h
    cases h
    simp [Task.getSignal, hactions]

theorem getSignal_setSignal (t : Task) (signum : ℕ) (action : Action) (page : Bool) (other : ℕ) :
    (t.setSignal signum action page).getSignal other = t.getSignal other ∨
      other = signum ∧ (t.setSignal signum action page).getSignal other = action := by
  unfold Task.setSignal
  split_ifs with hrange
  · exact .inl rfl
  · cases htable : t.tableOrAlloc page with
    | none => exact .inl rfl
    | some table =>
      by_cases hother : Task.nrSigactions ≤ other
      · left
        rw [Task.getSignal, Task.getSignal, if_pos hother, if_pos hother]
      · by_cases hsame : other = signum
        · subst hsame
          simp [Task.getSignal, if_neg hother]
        · rw [getSignal_of_table htable hother]
          simp [Task.getSignal, if_neg hother, update_of_ne hsame]

theorem blocked_setSignal (action : Action) (page : Bool) :
    (t.setSignal signum action page).blocked = t.blocked := by
  unfold Task.setSignal
  split_ifs
  · rfl
  · cases t.tableOrAlloc page <;> rfl

theorem forall_kill_stop {P : ℕ → Prop} :
    (∀ sig, sig = sigkill ∨ sig = sigstop → P sig) ↔ P sigkill ∧ P sigstop := by
  simp

theorem killable_iff : Killable t ↔ ∀ sig, sig = sigkill ∨ sig = sigstop →
    t.blocked.getLsbD sig = false ∧ (t.getSignal sig).handler = .dfl := by
  rw [forall_kill_stop]
  constructor
  · exact fun h => ⟨⟨h.kill_open, h.kill_default⟩, h.stop_open, h.stop_default⟩
  · exact fun ⟨hkill, hstop⟩ => ⟨hkill.1, hstop.1, hkill.2, hstop.2⟩

/-- A new mask without the two signals. -/
theorem Killable.mask (h : Killable t) {mask : Word}
    (hmask : ∀ sig, sig = sigkill ∨ sig = sigstop → mask.getLsbD sig = false) :
    Killable { t with blocked := mask } :=
  killable_iff.mpr fun sig hsig => ⟨hmask sig hsig, (killable_iff.mp h sig hsig).2⟩

theorem Killable.rtSigaction (h : Killable t) {act : Option Action}
    (hspares : Spares t (.rtSigaction signum act sigsetsize page)) :
    Killable (t.rtSigaction signum act sigsetsize page).1 := by
  unfold Task.rtSigaction
  by_cases hinvalid : signum = 0 ∨ 31 < signum ∨ sigsetsize ≠ 8
  · rw [if_pos hinvalid]
    exact h
  · rw [if_neg hinvalid]
    cases act with
    | none => exact h
    | some act =>
      refine killable_iff.mpr fun sig hsig => ?_
      obtain ⟨hopen, hdefault⟩ := killable_iff.mp h sig hsig
      rw [blocked_setSignal]
      refine ⟨hopen, ?_⟩
      rcases getSignal_setSignal t signum act page sig with heq | ⟨rfl, heq⟩
      · rw [heq]
        exact hdefault
      · rw [heq]
        exact hspares hsig act rfl

theorem Killable.rtSigprocmask (h : Killable t) {how : ℤ} {set : Option Word} {oldset : Bool}
    (hspares : Spares t (.rtSigprocmask how set oldset sigsetsize)) :
    Killable (t.rtSigprocmask how set oldset sigsetsize).1 := by
  unfold Task.rtSigprocmask
  by_cases hsize : sigsetsize ≠ 8
  · rw [if_pos hsize]
    exact h
  · rw [if_neg hsize]
    cases set with
    | none => exact h
    | some set =>
      generalize (if oldset then t.blocked.toInt else 0) = reply
      split_ifs with hblock hunblock hset
      · have hset : ∀ sig, sig = sigkill ∨ sig = sigstop → set.getLsbD sig = false :=
          forall_kill_stop.mpr (hspares (.inl hblock) set rfl)
        refine h.mask fun sig hsig => ?_
        rw [getLsbD_or, (killable_iff.mp h sig hsig).1, hset sig hsig, Bool.or_false]
      · refine h.mask fun sig hsig => ?_
        rw [getLsbD_and, (killable_iff.mp h sig hsig).1, Bool.false_and]
      · exact h.mask (forall_kill_stop.mpr (hspares (.inr hset) set rfl))
      · exact h

theorem getLsbD_blockable : ∀ sig, sig = sigkill ∨ sig = sigstop → blockable.getLsbD sig = false :=
  forall_kill_stop.mpr (by decide)

/-- A call that spares the two signals keeps a task killable. -/
theorem Killable.call (h : Killable t) (call : Call) (hspares : Spares t call) :
    ∃ next, t.call call = .ok next ∧ Killable next := by
  have hopen := fun sig hsig => (killable_iff.mp h sig hsig).1
  cases call with
  | rtSigaction signum act sigsetsize page => exact ⟨_, rfl, h.rtSigaction hspares⟩
  | rtSigprocmask how set oldset sigsetsize => exact ⟨_, rfl, h.rtSigprocmask hspares⟩
  | setsigmask mask =>
    refine ⟨_, rfl, h.mask fun sig hsig => ?_⟩
    rw [getLsbD_and, getLsbD_blockable sig hsig, Bool.and_false]
  | sigaddset sig =>
    refine ⟨_, rfl, ?_⟩
    unfold Task.sigaddset
    split_ifs
    · exact h
    · refine h.mask fun other hother => ?_
      rw [getLsbD_insert_of_ne]
      · exact hopen other hother
      · rintro rfl
        exact hother.elim hspares.1 hspares.2
  | sigdelset sig =>
    refine ⟨_, rfl, ?_⟩
    unfold Task.sigdelset
    split_ifs
    · exact h
    · refine h.mask fun other hother => ?_
      rw [erase, getLsbD_and, hopen other hother, Bool.false_and]
  | sigemptyset => exact ⟨_, rfl, h.mask fun _ _ => getLsbD_zero ..⟩
  | sigfillset => exact ⟨_, rfl, h.mask getLsbD_blockable⟩

end Calls

/-! ## What the two signals do -/

section Deliveries

variable {t : Task} {cpu : Cpu} {arrivals : List Word}

/-- No signal below `SIGSTOP` stops a task. -/
theorem noStopBelow {k : ℕ} (hk : k ≤ sigstop) : NoStopBelow k t := by
  intro i hi
  have hlt : i < 19 := lt_of_lt_of_le hi hk
  unfold Task.effect
  split_ifs
  · exact Effect.noConfusion
  · cases (t.getSignal i).handler with
    | ign | user entry => exact Effect.noConfusion
    | dfl =>
      have hnot : ¬ (i = sigstop ∨ i = sigtstp ∨ i = sigttin ∨ i = sigttou) := by
        simp only [sigtstp, sigttin, sigttou]
        omega
      unfold defaultEffect
      split_ifs <;> exact Effect.noConfusion

/-- A signal with the default action that is not ignored is marked. -/
theorem sendSig_eq {signum : ℕ} (hstate : t.state ≠ .unused)
    (hsig : signum = sigkill ∨ signum = sigstop)
    (hdefault : (t.getSignal signum).handler = .dfl) :
    (t.sendSig signum).1.signal = insert t.signal signum ∧
      (t.sendSig signum).1.blocked = t.blocked ∧ (t.sendSig signum).1.actions = t.actions := by
  unfold Task.sendSig
  rw [hdefault]
  rcases hsig with rfl | rfl
  · simp [sigkill, sigchld, sigcont, sigwinch, hstate]
  · simp [sigstop, sigchld, sigcont, sigwinch, hstate]

section

variable (h : Killable t)

include h

theorem Killable.effect_kill : t.effect sigkill = .exit := by
  rw [Task.effect, h.kill_default]
  rfl

theorem Killable.effect_stop : t.effect sigstop = .stop := by
  rw [Task.effect, h.stop_default]
  rfl

theorem Killable.congr {t' : Task} (hblocked : t'.blocked = t.blocked)
    (hactions : t'.actions = t.actions) : Killable t' := by
  refine killable_iff.mpr fun sig hsig => ?_
  rw [hblocked, getSignal_congr hactions]
  exact killable_iff.mp h sig hsig

/-- `do_signal` on a task that one of the two signals waits for: a lower signal ends the task, or the
signal is the next to be taken. -/
theorem Killable.reaches {goal : ℕ} (hgoal : goal ≤ sigstop) (hwait : t.pending.getLsbD goal = true)
    (hroom : Room 0 sigstop t cpu.regs) :
    (∃ code < goal, t.pending.getLsbD code = true ∧ t.effect code = .exit ∧
      doSignal arrivals t cpu = some (.exited code)) ∨
    ∃ t' cpu' fuel, Killable t' ∧ lowest t'.pending = goal ∧ t'.pending ≠ 0#64 ∧
      size t'.pending + 65 * arrivals.length < fuel ∧
      doSignal arrivals t cpu = signalLoop fuel arrivals t' cpu' := by
  have hfuel : size t.pending + 65 * arrivals.length < rounds arrivals := by
    have hle : size t.pending ≤ 64 := size_le
    unfold rounds
    omega
  have hroom' : Room 0 goal t cpu.regs := hroom.mono le_rfl hgoal rfl fun _ => id
  have hnone : ∀ i < 0, t.pending.getLsbD i = false := nofun
  rcases signalLoop_reaches hwait (noStopBelow hgoal) hnone (Nat.zero_le _) hroom' hfuel with
    hexit | ⟨t', cpu', fuel, hreached, heq⟩
  · exact .inl hexit
  · refine .inr ⟨t', cpu', fuel, h.congr hreached.blocked hreached.actions,
      lowest_eq hreached.waiting hreached.lowest, ?_, hreached.fuel, heq⟩
    intro hzero
    have hwaiting := hreached.waiting
    rw [hzero, getLsbD_zero] at hwaiting
    exact Bool.false_ne_true hwaiting

/-- A task that `SIGKILL` waits for does not survive the next `do_signal`. -/
theorem Killable.killed (hwait : t.pending.getLsbD sigkill = true)
    (hroom : Room 0 sigstop t cpu.regs) :
    ∃ code ≤ sigkill, doSignal arrivals t cpu = some (.exited code) := by
  rcases h.reaches (by decide) hwait hroom with
    ⟨code, hcode, -, -, heq⟩ | ⟨t', cpu', fuel, hkillable, hlowest, hne, hfuel, heq⟩
  · exact ⟨code, hcode.le, heq⟩
  · cases fuel with
    | zero => exact absurd hfuel (Nat.not_lt_zero _)
    | succ fuel =>
      have heffect : (t'.took sigkill).effect sigkill = .exit :=
        (hkillable.congr rfl rfl).effect_kill
      rw [heq, signalLoop, if_neg hne, hlowest]
      simp [heffect]

/-- A task that `SIGSTOP` waits for stops, unless a lower signal ends it first. -/
theorem Killable.halted (hwait : t.pending.getLsbD sigstop = true)
    (hroom : Room 0 sigstop t cpu.regs) :
    ∃ outcome, doSignal arrivals t cpu = some outcome ∧ (outcome.StoppedFor sigstop ∨
      ∃ code < sigstop, t.pending.getLsbD code = true ∧ t.effect code = .exit ∧
        outcome = .exited code) := by
  rcases h.reaches le_rfl hwait hroom with
    ⟨code, hcode, hcwait, hexit, heq⟩ | ⟨t', cpu', fuel, hkillable, hlowest, hne, hfuel, heq⟩
  · exact ⟨_, heq, .inr ⟨code, hcode, hcwait, hexit, rfl⟩⟩
  · have hends : (signalLoop fuel arrivals t' cpu').isSome = true := signalLoop_isSome hfuel
    cases fuel with
    | zero => exact absurd hfuel (Nat.not_lt_zero _)
    | succ fuel =>
      have heffect : (t'.took sigstop).effect sigstop = .stop :=
        (hkillable.congr rfl rfl).effect_stop
      rw [heq]
      rw [signalLoop, if_neg hne, hlowest] at hends ⊢
      simp only [heffect, Option.isSome_map] at hends ⊢
      obtain ⟨later, hlater⟩ := Option.isSome_iff_exists.mp hends
      rw [hlater]
      exact ⟨.stopped sigstop later, rfl, .inl (.inl rfl)⟩

end

end Deliveries

/-- One of the two signals is sent to a task that is killable. -/
theorem Killable.sent {t : Task} {cpu : Cpu} {signum : ℕ} (h : Killable t)
    (hsig : signum = sigkill ∨ signum = sigstop) (hstate : t.state ≠ .unused)
    (hroom : Room 0 sigstop t cpu.regs) :
    Killable (t.sendSig signum).1 ∧ (t.sendSig signum).1.pending.getLsbD signum = true ∧
      Room 0 sigstop (t.sendSig signum).1 cpu.regs := by
  obtain ⟨hopen, hdefault⟩ := killable_iff.mp h signum hsig
  have hlt : signum < 64 := by
    rcases hsig with rfl | rfl <;> decide
  obtain ⟨hsignal, hblocked, hactions⟩ := sendSig_eq hstate hsig hdefault
  refine ⟨h.congr hblocked hactions, ?_, hroom.rsp, hroom.rip, fun i hi hwait entry hentry => ?_⟩
  · rw [getLsbD_pending, hsignal, hblocked, getLsbD_insert_self hlt, hopen]
    rfl
  · rw [getSignal_congr hactions] at hentry
    by_cases hsame : i = signum
    · -- the signal that was sent has no handler
      rw [hsame, hdefault] at hentry
      cases hentry
    · rw [getLsbD_pending, hsignal, hblocked, getLsbD_insert_of_ne hsame, ← getLsbD_pending] at hwait
      exact hroom.entries i hi hwait entry hentry

/-- **`SIGKILL` and `SIGSTOP` stay effective** over every sequence of calls that spare them: the next
`do_signal` after a `SIGKILL` ends the task, and after a `SIGSTOP` the task stops, if no lower signal
that waits ends it. -/
theorem kill_ends_stop_stops (start : Task) (hstart : Killable start) (calls : List Call)
    (hspares : Guarded Task.call Spares calls start) :
    ∃ t, run Task.call calls start = .ok t ∧ Killable t ∧
      ∀ arrivals cpu, t.state ≠ .unused → Room 0 sigstop t cpu.regs →
        (∃ code ≤ sigkill, doSignal arrivals (t.sendSig sigkill).1 cpu = some (.exited code)) ∧
        ∃ outcome, doSignal arrivals (t.sendSig sigstop).1 cpu = some outcome ∧
          (outcome.StoppedFor sigstop ∨ ∃ code < sigstop,
            (t.sendSig sigstop).1.pending.getLsbD code = true ∧
            (t.sendSig sigstop).1.effect code = .exit ∧ outcome = .exited code) := by
  obtain ⟨t, hrun, hkillable⟩ :=
    run_invariant (fun t call h hcall => h.call call hcall) hstart hspares
  refine ⟨t, hrun, hkillable, fun arrivals cpu hstate hroom => ⟨?_, ?_⟩⟩
  · obtain ⟨hsent, hwait, hroom'⟩ := hkillable.sent (.inl rfl) hstate hroom
    exact hsent.killed hwait hroom'
  · obtain ⟨hsent, hwait, hroom'⟩ := hkillable.sent (.inr rfl) hstate hroom
    exact hsent.halted hwait hroom'

/-- The registers and the memory of a program. -/
def someCpu : Cpu where
  regs := ⟨0, 0, 0, 0, 0, 0, 0, 0, 0, 0, 0, 0, 0, 0, 0, 0, 0x401000, userCs, 0x202, 0x7fffff1ff000,
    userDs⟩
  mem := ⟨fun _ => 0, []⟩

/-- A program catches signal 10 and blocks signal 2. -/
def catchCalls : List Call :=
  [.rtSigaction 10 (some ⟨.user 0x401000, 8⟩) 8 true, .setsigmask 0x404,
    .rtSigprocmask 1 (some 0x400) false 8, .sigaddset 2]

/-- Signal 10 waits: `SIGKILL` is taken before it, `SIGSTOP` after its frame was built. -/
theorem kill_ends_stop_stops_after_calls :
    ∃ t, run Task.call catchCalls (newTask.sendSig 10).1 = .ok t ∧ Killable t ∧
      (∃ code ≤ sigkill, doSignal [] (t.sendSig sigkill).1 someCpu = some (.exited code)) ∧
      ∃ outcome, doSignal [] (t.sendSig sigstop).1 someCpu = some outcome ∧
        (outcome.StoppedFor sigstop ∨ ∃ code < sigstop,
          (t.sendSig sigstop).1.pending.getLsbD code = true ∧
          (t.sendSig sigstop).1.effect code = .exit ∧ outcome = .exited code) := by
  have hspares : ∀ call ∈ catchCalls, ∀ t, Spares t call := by
    intro call hcall t
    simp only [catchCalls, List.mem_cons, List.not_mem_nil, or_false] at hcall
    rcases hcall with rfl | rfl | rfl | rfl
    · exact fun hsig => absurd hsig (by decide)
    · exact trivial
    · exact fun hhow => absurd hhow (by decide)
    · exact ⟨by decide, by decide⟩
  obtain ⟨t, hrun, hkillable, hsignals⟩ := kill_ends_stop_stops (newTask.sendSig 10).1
    ⟨by decide, by decide, rfl, rfl⟩ catchCalls (guarded_of_forall hspares _)
  refine ⟨t, hrun, hkillable, ?_⟩
  cases hrun
  refine hsignals [] someCpu (by decide) ⟨by decide, by decide, fun signum hlt hwait entry hentry => ?_⟩
  have honly : signum = 10 := by
    clear hentry
    revert signum
    decide
  subst honly
  cases hentry
  decide

/-- A program blocks all signals, or gives `SIGKILL` a handler: then `do_signal` returns to it with
`SIGKILL` still waiting, or enters the handler. -/
theorem blocked_kill_is_ignored :
    (∃ t, run Task.call [.rtSigprocmask 2 (some (-1)) false 8] newTask = .ok t ∧
      doSignal [] (t.sendSig sigkill).1 someCpu = some (.returned (t.sendSig sigkill).1 someCpu)) ∧
    ∃ t t' cpu, run Task.call [.rtSigaction 9 (some ⟨.user 0x402000, 0⟩) 8 true] newTask = .ok t ∧
      doSignal [] (t.sendSig sigkill).1 someCpu = some (.returned t' cpu) ∧
      cpu.regs.rip = 0x402000 := by
  refine ⟨⟨_, rfl, rfl⟩, _, _, _, rfl, rfl, rfl⟩

end Shitix.Signal
