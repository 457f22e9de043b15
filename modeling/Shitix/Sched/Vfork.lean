import Shitix.Sched.Alive

/-!
# The order of `vfork`

A parent that calls `clone` with `CLONE_VFORK` should not be back in user mode before the child has
executed a program or ended (`Ordered`).  `owed` follows who waits for whom.

The parent waits in an ordinary interruptible sleep with one call of `schedule`, and does not look
why it was woken.  A signal that is marked wakes it, blocked or not; so do a pending signal and
the time of an earlier sleep when another task calls `schedule`, the end of another child, and the
end or the program of any task that has inherited the number of the parent (`parent_returns_early`).
Where none of this comes in between (`Undisturbed`), the order is kept in all runs.
-/

namespace Shitix.Sched

open Signal Sys Function

/-- The tasks, and for a task that has called `vfork` the child that has neither executed a program
nor ended. -/
structure Watched where
  sys : Sys
  owed : Slot → Option Slot

/-- The current task executes a program or ends. -/
def Completes (s : Sys) : Event → Prop
  | .execve ok => ok = true
  | .exit _ => True
  | .deliver => s.fatal = true
  | _ => False

instance (s : Sys) (event : Event) : Decidable (Completes s event) :=
  match event with
  | .execve ok => inferInstanceAs (Decidable (ok = true))
  | .exit _ => instDecidableTrue
  | .deliver => inferInstanceAs (Decidable (s.fatal = true))
  | .enter | .fork .. | .clone .. | .wait4 .. | .sigmask _ | .sleepOn .. | .nap _ | .leave
  | .resume | .schedule | .tick | .wakeUp .. | .signal .. | .sigaction .. => instDecidableFalse

/-- The child that the current task waits for from now on. -/
def vforked (s : Sys) : Event → Option Slot
  | .clone flags stack => if flags.vfork ∧ stack then s.freeSlot else none
  | _ => none

namespace Watched

variable (w : Watched)

/-- What is owed after the event. -/
def settle (event : Event) : Slot → Option Slot :=
  match vforked w.sys event with
  | some child => update w.owed w.sys.current (some child)
  | none =>
    if Completes w.sys event then
      fun parent => if w.owed parent = some w.sys.current then none else w.owed parent
    else w.owed

/-- A step. -/
def step (event : Event) : Except Stuck Watched :=
  match w.sys.step event with
  | .ok sys => .ok ⟨sys, w.settle event⟩
  | .error failure => .error failure

/-- At the start nobody waits. -/
def boot : Watched := ⟨.boot, fun _ => none⟩

end Watched

/-- Nobody is in user mode who waits for a child. -/
def Ordered (w : Watched) : Prop :=
  ∀ parent child, w.owed parent = some child → w.sys.kont parent ≠ .user

/-- A child of the current task that has ended goes to another parent. -/
def GivesAway (s : Sys) : Prop :=
  ∃ j, (s.proc j).parent = s.current ∧ ((s.proc j).state = .zombie ∨ j = s.current)

/-- The end of the current task wakes the parent: as its `vfork` parent, as its parent, or as the
new parent of a child that has ended. -/
def EndWakes (s : Sys) (parent : Slot) : Prop :=
  (s.proc s.current).vforkParent = parent ∨ (s.proc s.current).parent = parent ∨
    (parent = init ∨ parent = idle) ∧ GivesAway s

/-- The event wakes a parent that waits for a child, and is not the program or the end of that
child. -/
def Disturbs (s : Sys) (parent child : Slot) : Event → Prop
  | .signal target signum => target = parent ∧ Marks (s.proc parent).toTask signum
  | .wakeUp queue _ => parent ∈ s.queue queue
  | .schedule => (s.proc parent).pending ≠ 0#64 ∨
    (s.proc parent).timeout ≠ 0 ∧ (s.proc parent).timeout ≤ s.jiffies
  | .execve ok => ok = true ∧ s.current ≠ child ∧ (s.proc s.current).vforkParent = parent
  | .exit _ => s.current ≠ child ∧ EndWakes s parent
  | .deliver => s.fatal = true ∧ s.current ≠ child ∧ EndWakes s parent
  | _ => False

/-- No parent that waits is woken before its time. -/
def Undisturbed (w : Watched) (event : Event) : Prop :=
  ∀ parent child, w.owed parent = some child → ¬ Disturbs w.sys parent child event

/-- Those who wait are asleep in `clone`. -/
def Waiting (w : Watched) : Prop :=
  ∀ parent child, w.owed parent = some child →
    (w.sys.proc parent).state = .interruptible ∧ w.sys.kont parent = .vfork child

variable {s s' : Sys} {parent child i : Slot} {event : Event}

/-! ## A parent that is not woken sleeps on -/

/-- The task sleeps in `clone`. -/
def Sleeps (s : Sys) (parent child : Slot) : Prop :=
  (s.proc parent).state = .interruptible ∧ s.kont parent = .vfork child

theorem Sleeps.of_kin (h : Sleeps s parent child)
    (hkin : (s'.proc parent).kin = (s.proc parent).kin)
    (hkont : s'.kont parent = s.kont parent) : Sleeps s' parent child :=
  ⟨(congrArg Kin.state hkin).trans h.1, hkont.trans h.2⟩

theorem EndWakes.of_kin (h : EndWakes s' parent) (hcurrent : s'.current = s.current)
    (hkin : ∀ i, (s'.proc i).kin = (s.proc i).kin) : EndWakes s parent := by
  unfold EndWakes GivesAway at h ⊢
  rw [hcurrent] at h
  rcases h with hvp | hparent | ⟨hfoster, j, hchild, hzombie⟩
  · exact .inl ((congrArg Kin.vforkParent (hkin s.current)).symm.trans hvp)
  · exact .inr (.inl ((parent_of_kin (hkin s.current)).symm.trans hparent))
  · rw [parent_of_kin (hkin j)] at hchild
    rw [state_of_kin (hkin j)] at hzombie
    exact .inr (.inr ⟨hfoster, j, hchild, hzombie⟩)

theorem foster_cases (s : Sys) : foster s = init ∨ foster s = idle := by
  unfold foster
  split_ifs
  · exact .inl rfl
  · exact .inr rfl

theorem Sleeps.doExit (h : Sleeps s parent child) (hne : parent ≠ s.current)
    (hquiet : ¬ EndWakes s parent) (code : ℕ) : Sleeps (s.doExit code) parent child := by
  have hvp : (s.wakeVforkParent.proc parent).state = .interruptible := by
    rw [wakeVforkParent_state, if_neg]
    · exact h.1
    · rintro ⟨-, hparent⟩
      exact hquiet (.inl hparent.symm)
  have hparents : ∀ j, (s.wakeVforkParent.proc j).parent = (s.proc j).parent :=
    wakeVforkParent_keeps (·.parent) (fun _ _ _ => rfl) s
  -- the new parent is not ours, if anything is given away
  have hfoster : parent = foster s.wakeVforkParent → ¬ GivesAway s := by
    intro heq hgives
    refine hquiet (.inr (.inr ⟨?_, hgives⟩))
    rw [heq]
    exact foster_cases _
  refine ⟨?_, ?_⟩
  · rw [doExit_state, if_neg hne, if_neg]
    · exact hvp
    · rintro ⟨-, ⟨heq, j, hzombie, hchild⟩ | heq⟩
      · refine hfoster heq ⟨j, (hparents j).symm.trans hchild, .inl ?_⟩
        rw [wakeVforkParent_state] at hzombie
        split_ifs at hzombie
        exact hzombie
      · unfold heir at heq
        rw [wakeVforkParent_current, hparents] at heq
        split_ifs at heq with horphan
        · refine hfoster heq ⟨s.current, ?_, .inr rfl⟩
          rw [← hparents]
          exact horphan.2
        · exact hquiet (.inr (.inl heq.symm))
  · rw [doExit_kont, if_neg hne]
    exact h.2

theorem Sleeps.step (h : Sleeps s parent child) (hstep : s.step event = .ok s')
    (hquiet : ¬ Disturbs s parent child event)
    (hchild : Completes s event → s.current ≠ child) : Sleeps s' parent child := by
  have hused : (s.proc parent).state ≠ .unused := by
    rw [h.1]
    decide
  have hlive : (s.proc parent).state ≠ .zombie := by
    rw [h.1]
    decide
  -- whoever acts is not in `clone`
  have hother : ∀ {kont : Kont}, s.kont s.current = kont → (∀ child, kont ≠ .vfork child) →
      parent ≠ s.current := by
    rintro kont hkont hne rfl
    exact hne child (hkont.symm.trans h.2)
  cases event with
  | enter | leave =>
    obtain ⟨hkont, rfl⟩ := whenAt_ok hstep
    have hne := hother hkont (by simp)
    exact h.of_kin rfl (by rw [setKont_kont, if_neg hne])
  | fork stack space =>
    obtain ⟨hkont, rfl⟩ := whenAt_ok hstep
    have hne := hother hkont (by simp)
    obtain ⟨hkin, hkont'⟩ := fork_frame stack space hused
    exact h.of_kin hkin (by rw [setKont_kont, if_neg hne, hkont'])
  | clone flags stack =>
    obtain ⟨hkont, rfl⟩ := whenAt_ok hstep
    have hne := hother hkont (by simp)
    obtain ⟨hkin, hkont'⟩ := clone_frame flags stack hne hused
    exact h.of_kin hkin hkont'
  | execve ok =>
    obtain ⟨hkont, rfl⟩ := whenAt_ok hstep
    have hne := hother hkont (by simp)
    cases ok with
    | false => exact h.of_kin rfl (by rw [setKont_kont, if_neg hne]; rfl)
    | true =>
      refine ⟨?_, ?_⟩
      · rw [setKont_proc, if_pos rfl, wakeVforkParent_state, if_neg]
        · exact h.1
        · rintro ⟨-, hvp⟩
          exact hquiet ⟨rfl, hchild rfl, hvp.symm⟩
      · rw [setKont_kont, if_neg hne, if_pos rfl, wakeVforkParent_kont]
        exact h.2
  | exit code =>
    obtain ⟨hkont, rfl⟩ := whenAt_ok hstep
    have hne := hother hkont (by simp)
    exact h.doExit hne (fun hends => hquiet ⟨hchild trivial, hends⟩) _
  | wait4 pid flags =>
    obtain ⟨hkont, rfl⟩ := whenAt_ok hstep
    have hne := hother hkont (by simp)
    obtain ⟨hkin, hkont'⟩ := wait4_frame pid flags hne hlive
    exact h.of_kin hkin hkont'
  | sigmask mask =>
    obtain ⟨-, rfl⟩ := whenAt_ok hstep
    exact h.of_kin (modify_keeps Proc.kin rfl) rfl
  | sleepOn queue interruptible timeout =>
    obtain ⟨hkont, rfl⟩ := whenAt_ok hstep
    have hne := hother hkont (by simp)
    unfold sleepOn
    refine h.of_kin ?_ ?_
    · rw [setKont_proc, modify_proc, if_neg hne]
    · rw [setKont_kont, if_neg hne]
      rfl
  | nap timeout =>
    obtain ⟨hkont, rfl⟩ := whenAt_ok hstep
    have hne := hother hkont (by simp)
    unfold nap
    refine h.of_kin ?_ ?_
    · rw [setKont_proc, modify_proc, if_neg hne]
    · rw [setKont_kont, if_neg hne]
      rfl
  | resume =>
    simp only [step] at hstep
    split_ifs at hstep with hrunning
    cases hstep
    have hne : parent ≠ s.current := by
      rintro rfl
      rw [h.1] at hrunning
      cases hrunning
    obtain ⟨hkin, hkont⟩ := resume_frame hne hlive
    exact h.of_kin hkin hkont
  | deliver =>
    obtain ⟨hkont, rfl⟩ := whenAt_ok hstep
    have hne := hother hkont (by simp)
    cases hfatal : s.fatal with
    | false =>
      obtain ⟨hkin, hkont'⟩ := deliver_of_ne hfatal hne
      exact h.of_kin hkin hkont'
    | true =>
      rw [deliver_of_fatal hfatal]
      have htaken : Sleeps s.take parent child := h.of_kin (take_kin s parent) rfl
      refine htaken.doExit hne (fun hends => hquiet ⟨hfatal, hchild hfatal, ?_⟩) _
      exact hends.of_kin rfl (take_kin s)
  | schedule =>
    cases hstep
    refine ⟨?_, by rw [schedule_kont]; exact h.2⟩
    rw [schedule_keeps (·.state) fun _ _ => rfl]
    unfold Proc.wake
    rw [if_neg (by simp [h.1]), if_neg fun hpending => hquiet (.inl hpending),
      if_neg fun htime => hquiet (.inr htime)]
    exact h.1
  | tick =>
    cases hstep
    refine h.of_kin ?_ rfl
    unfold tick
    rw [modify_keeps Proc.kin rfl]
  | wakeUp queue only =>
    cases hstep
    refine h.of_kin ?_ ?_
    · rw [wakeUp_of_notMem hquiet]
    · rw [wakeUp_kont]
  | signal target signum =>
    cases hstep
    refine ⟨?_, h.2⟩
    unfold sendSig
    rw [modify_proc]
    by_cases heq : parent = target
    · subst heq
      rw [if_pos rfl]
      have hsent : ((s.proc parent).sendSig signum).state =
          ((s.proc parent).toTask.sendSig signum).1.state := rfl
      rw [hsent, state_sendSig, if_neg fun hmarks => hquiet ⟨rfl, hmarks.2⟩, if_neg]
      · exact h.1
      · rintro ⟨hstopped, -⟩
        rw [h.1] at hstopped
        cases hstopped
    · rw [if_neg heq]
      exact h.1
  | sigaction task table =>
    cases hstep
    exact h.of_kin (modify_keeps Proc.kin rfl) rfl

/-! ## Runs -/

variable {w w' : Watched}

theorem Watched.step_ok (h : w.step event = .ok w') :
    w.sys.step event = .ok w'.sys ∧ w'.owed = w.settle event := by
  unfold step at h
  cases hstep : w.sys.step event with
  | ok sys =>
    rw [hstep] at h
    cases h
    exact ⟨rfl, rfl⟩
  | error failure =>
    rw [hstep] at h
    cases h

theorem vforked_some (h : vforked s event = some child) :
    ∃ flags : CloneFlags, event = .clone flags true ∧ flags.vfork = true ∧
      s.freeSlot = some child := by
  cases event with
  | clone flags stack =>
    unfold vforked at h
    dsimp only at h
    split_ifs at h with hvfork
    obtain ⟨hflag, rfl⟩ := hvfork
    exact ⟨flags, rfl, hflag, h⟩
  | _ => cases h

/-- Who waits goes on waiting, and who starts to is asleep. -/
theorem Waiting.step (h : Waiting w) (halive : Alive w.sys) (hquiet : Undisturbed w event)
    (hstep : w.step event = .ok w') : Waiting w' := by
  obtain ⟨hsys, howed⟩ := Watched.step_ok hstep
  intro parent child hwaits
  rw [howed] at hwaits
  unfold Watched.settle at hwaits
  cases hvforked : vforked w.sys event with
  | some new =>
    rw [hvforked] at hwaits
    dsimp only at hwaits
    obtain ⟨flags, rfl, hflag, hslot⟩ := vforked_some hvforked
    by_cases hself : parent = w.sys.current
    · -- the parent has just called `clone`
      subst hself
      rw [update_self] at hwaits
      obtain rfl : new = child := Option.some.inj hwaits
      obtain ⟨hkont, hnext⟩ := whenAt_ok hsys
      have hne : w.sys.current ≠ new := by
        intro heq
        refine halive.not_dead (by rw [hkont]; simp) (.inl ?_)
        rw [heq]
        exact (freeSlot_spec hslot).2
      obtain ⟨hkin, hcont⟩ := clone_current flags hslot hne
      rw [hflag] at hkin hcont
      rw [hnext]
      exact ⟨congrArg Kin.state hkin, hcont⟩
    · rw [update_of_ne hself] at hwaits
      exact Sleeps.step (h parent child hwaits) hsys (hquiet parent child hwaits) fun h => h.elim
  | none =>
    rw [hvforked] at hwaits
    split_ifs at hwaits with hcompletes
    · dsimp only at hwaits
      split_ifs at hwaits with hpaid
      refine Sleeps.step (h parent child hwaits) hsys (hquiet parent child hwaits) fun _ heq => ?_
      exact hpaid (by rw [hwaits, heq])
    · exact Sleeps.step (h parent child hwaits) hsys (hquiet parent child hwaits)
        fun hhere => absurd hhere hcompletes

/-- In a run in which no parent that waits is woken before its time, the order of `vfork` is kept
all the way. -/
theorem ordered_run {events : List Event} {final : Watched}
    (hquiet : Guarded Watched.step Undisturbed events .boot)
    (hrun : run Watched.step events .boot = .ok final) : Ordered final := by
  have hfinal : Waiting final ∧ Alive final.sys := by
    refine hquiet.keeps (fun w event next (hinv : Waiting w ∧ Alive w.sys) hhere hstep => ?_)
      ⟨?_, alive_boot⟩ hrun
    · exact ⟨hinv.1.step hinv.2 hhere hstep, hinv.2.step (Watched.step_ok hstep).1⟩
    · intro parent child hwaits
      cases hwaits
  intro parent child howed huser
  rw [(hfinal.1 parent child howed).2] at huser
  cases huser

instance (s : Sys) (parent : Slot) : Decidable (EndWakes s parent) := by
  unfold EndWakes GivesAway
  infer_instance

instance (s : Sys) (parent child : Slot) (event : Event) :
    Decidable (Disturbs s parent child event) :=
  match event with
  | .signal target signum =>
    inferInstanceAs (Decidable (target = parent ∧ Marks (s.proc parent).toTask signum))
  | .wakeUp queue _ => inferInstanceAs (Decidable (parent ∈ s.queue queue))
  | .schedule =>
    inferInstanceAs (Decidable ((s.proc parent).pending ≠ 0#64 ∨
        (s.proc parent).timeout ≠ 0 ∧ (s.proc parent).timeout ≤ s.jiffies))
  | .execve ok =>
    inferInstanceAs (Decidable (ok = true ∧ s.current ≠ child ∧
        (s.proc s.current).vforkParent = parent))
  | .exit _ => inferInstanceAs (Decidable (s.current ≠ child ∧ EndWakes s parent))
  | .deliver =>
    inferInstanceAs (Decidable (s.fatal = true ∧ s.current ≠ child ∧ EndWakes s parent))
  | .enter | .fork .. | .clone .. | .wait4 .. | .sigmask _ | .sleepOn .. | .nap _ | .leave
  | .resume | .tick | .sigaction .. => instDecidableFalse

instance (w : Watched) (event : Event) : Decidable (Undisturbed w event) :=
  inferInstanceAs (Decidable (∀ parent, ∀ child ∈ w.owed parent, ¬ Disturbs w.sys parent child event))

/-- Task 1 waits in `clone`, its child ends, and task 1 is back in user mode. -/
def orderlyRun : List Event :=
  [.enter, .clone ⟨true, false, false⟩ true, .schedule, .deliver, .enter, .exit 0, .schedule,
    .resume, .deliver]

theorem ordered_orderlyRun : ∃ final, Guarded Watched.step Undisturbed orderlyRun .boot ∧
    run Watched.step orderlyRun .boot = .ok final ∧ final.sys.kont init = .user ∧ Ordered final := by
  -- only task 1 ever waits
  have hinit : Guarded Watched.step (fun w event => (∀ parent, w.owed parent = none ∨ parent = init) ∧
      ∀ child ∈ w.owed init, ¬ Disturbs w.sys init child event) orderlyRun .boot :=
    guarded_of_check (by decide +kernel)
  have hquiet : Guarded Watched.step Undisturbed orderlyRun .boot := by
    refine hinit.mono fun w event hcalm parent child howed => ?_
    rcases hcalm.1 parent with hnone | rfl
    · rw [hnone] at howed
      cases howed
    · exact hcalm.2 child howed
  have hends : endsIn (fun w : Watched => w.sys.kont init = .user)
      (run Watched.step orderlyRun .boot) = true := by decide +kernel
  obtain ⟨final, hrun, huser⟩ := exists_of_endsIn hends
  exact ⟨final, hquiet, hrun, huser, ordered_run hquiet hrun⟩

/-- Task 1 blocks signal 10 and waits in `clone`; its child sends it the signal and sleeps. -/
def earlyRun : List Event :=
  [.enter, .sigmask (BitSet.bit 64 10), .leave, .deliver,
    .enter, .clone ⟨true, false, false⟩ true, .schedule,
    .deliver, .enter, .signal init 10, .leave, .deliver, .enter, .nap (some 100), .schedule,
    .resume, .deliver]

/-- Task 1 is back in user mode while its child has neither executed a program nor ended. -/
theorem parent_returns_early : ∃ final, run Watched.step earlyRun .boot = .ok final ∧
    ¬ Ordered final := by
  have hends : endsIn (fun w => (w.owed init).isSome = true ∧ w.sys.kont init = .user)
      (run Watched.step earlyRun .boot) = true := by decide +kernel
  obtain ⟨final, hrun, howed, huser⟩ := exists_of_endsIn hends
  obtain ⟨child, hchild⟩ := Option.isSome_iff_exists.mp howed
  exact ⟨final, hrun, fun hordered => hordered init child hchild huser⟩

end Shitix.Sched
