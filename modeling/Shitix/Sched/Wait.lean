import Shitix.Sched.Family

/-!
# `wait4`

The invariant of `Family` holds in all runs in which no `fork` fails in the middle and no task that
ends or executes a program wakes a slot that is not there any more (`StateFits`), and with it the
law of `wait4` (`waitLaw_run`).

A `fork` that cannot copy the address space leaves a slot that looks like a child of the caller,
never runs and never ends.  From then on `wait4` does not say that there is no child
(`failed_fork_is_child`), and without `WNOHANG` it sleeps for ever.
-/

namespace Shitix.Sched

open Signal Function Sys List Option

variable {w w' : World} {s s' : Sys} {i me child : Slot} {pid : ℤ} {event : Event}

/-! ## A task is born -/

section Bear

variable {p : Slot}

/-- The step makes a task with a parent in a slot; the current task goes on. -/
structure Bears (w : World) (s' : Sys) (event : Event) (child p : Slot) : Prop where
  free : (w.sys.proc child).state = .unused
  child_ne : child ≠ idle
  running : (s'.proc child).state = .running
  parent_eq : (s'.proc child).parent = p
  mother_eq : w.motherOf event = w.birth p
  parent_lives : p = init ∨ ¬ Dead (w.sys.proc p).state
  steady : SteadyOn (· ≠ child) w.sys s'
  alive : Alive s'
  idle_gone : s'.kont idle = .gone
  waits : ∀ me pid flags, s'.kont me = .wait4 pid flags → me ≠ child ∧
    w.sys.kont me = .wait4 pid flags ∧ (s'.proc me).state = (w.sys.proc me).state

theorem Sound.used_ne (h : Sound w) (hfree : (w.sys.proc child).state = .unused)
    (hlives : p = init ∨ ¬ Dead (w.sys.proc p).state) : p ≠ child := by
  rintro rfl
  rcases hlives with rfl | hlives
  · exact h.linked.init_used hfree
  · exact hlives (.inl hfree)

theorem Numbered.bear (h : Numbered w) (hb : Bears w s' event child p) :
    Numbered { w.bear event child with sys := s' } := by
  have hborn : ∀ i b, update w.birth child (some w.count) i = some b →
      i = child ∧ b = w.count ∨ i ≠ child ∧ w.birth i = some b := by
    intro i b hbirth
    by_cases hi : i = child
    · subst hi
      rw [update_self] at hbirth
      exact .inl ⟨rfl, (some.inj hbirth).symm⟩
    · rw [update_of_ne hi] at hbirth
      exact .inr ⟨hi, hbirth⟩
  unfold World.bear
  constructor
  · intro i
    by_cases hi : i = child
    · subst hi
      simp [hb.running]
    · dsimp only
      rw [update_of_ne hi, h.used, hb.steady.unused_iff hi]
  · intro i b hbirth
    rcases hborn i b hbirth with ⟨-, rfl⟩ | ⟨-, hold⟩
    · exact Nat.lt_succ_self _
    · exact Nat.lt_succ_of_lt (h.lt_count i b hold)
  · intro i j b hi hj
    rcases hborn i b hi with ⟨rfl, rfl⟩ | ⟨-, hi⟩
    · rcases hborn j _ hj with ⟨rfl, -⟩ | ⟨-, hj⟩
      · rfl
      · exact absurd (h.lt_count j _ hj) (lt_irrefl _)
    · rcases hborn j b hj with ⟨-, rfl⟩ | ⟨-, hj⟩
      · exact absurd (h.lt_count i _ hi) (lt_irrefl _)
      · exact h.unique i j b hi hj
  · exact h.once
  · intro r hr
    obtain ⟨b, hlt, hchild, hended, hgone⟩ := h.reported r hr
    refine ⟨b, Nat.lt_succ_of_lt hlt, hchild, hended, fun i hbirth => ?_⟩
    rcases hborn i b hbirth with ⟨-, rfl⟩ | ⟨-, hold⟩
    · exact lt_irrefl _ hlt
    · exact hgone i hold
  · intro b hlt
    rcases Nat.lt_succ_iff_lt_or_eq.mp hlt with hlt | rfl
    · refine (h.kept b hlt).imp_right ?_
      rintro ⟨i, hi⟩
      have hne : i ≠ child := by
        rintro rfl
        rw [(h.used i).mpr hb.free] at hi
        cases hi
      exact ⟨i, (update_of_ne hne _ _).trans hi⟩
    · exact .inr ⟨child, update_self ..⟩
  · exact fun b hended => Nat.lt_succ_of_lt (h.ended_lt b hended)
  · intro i b hbirth
    rcases hborn i b hbirth with ⟨rfl, rfl⟩ | ⟨hi, hold⟩
    · simp only [hb.running]
      refine iff_of_false (fun hended => ?_) (by decide)
      exact lt_irrefl _ (h.ended_lt _ hended)
    · rw [h.ended_iff i b hold, hb.steady.zombie_iff hi]

theorem Sound.linked_bear (h : Sound w) (hb : Bears w s' event child p) :
    Linked { w.bear event child with sys := s' } := by
  have hp : p ≠ child := h.used_ne hb.free hb.parent_lives
  refine h.linked.steadyOn hb.steady hb.child_ne.symm (h.used_ne hb.free (.inl rfl))
    (fun i hi => ⟨update_of_ne hi .., update_of_ne hi ..⟩) (fun i hidle hused => ?_)
    (fun i hi hnone => ?_) (fun i hi _ => ?_) h.linked.to_parent
  · exact h.used_ne hb.free (h.linked.parent_lives i hidle hused)
  · rw [not_not.mp hi] at hnone
    cases (update_self ..).symm.trans hnone
  · obtain rfl := not_not.mp hi
    dsimp only [World.bear]
    rw [update_self, hb.parent_eq, update_of_ne hp, hb.steady.dead_iff hp]
    exact ⟨hb.mother_eq, hp, hb.parent_lives⟩

theorem Sound.bear (h : Sound w) (hb : Bears w s' event child p) :
    Sound { w.bear event child with sys := s' } := by
  refine ⟨hb.alive, hb.idle_gone, h.numbered.bear hb, h.linked_bear hb, h.attentive.steadyOn hb.steady
    (fun me pid flags hkont => (hb.waits me pid flags hkont).2.imp_right .inl)
    (fun me pid flags hkont => (hb.waits me pid flags hkont).1) fun i hi => ?_⟩
  rw [not_not.mp hi, hb.running]
  decide

end Bear

/-! ## A task is reported -/

/-- The step releases a child of the current task that has ended. -/
structure Reaps (w : World) (s' : Sys) (child : Slot) : Prop where
  acts : w.sys.kont w.sys.current ≠ .gone
  zombie : (w.sys.proc child).state = .zombie
  parent_eq : (w.sys.proc child).parent = w.sys.current
  freed : (s'.proc child).state = .unused
  steady : SteadyOn (· ≠ child) w.sys s'
  alive : Alive s'
  idle_gone : s'.kont idle = .gone
  waits : ∀ me pid flags, s'.kont me = .wait4 pid flags → me ≠ child ∧
    w.sys.kont me = .wait4 pid flags ∧ (s'.proc me).state = (w.sys.proc me).state

theorem Sound.current_ne_idle (h : Sound w) (hacts : w.sys.kont w.sys.current ≠ .gone) :
    w.sys.current ≠ idle := by
  intro heq
  rw [heq] at hacts
  exact hacts h.idle_gone

theorem Sound.reaped_ne (h : Sound w) (hr : Reaps w s' child) : child ≠ idle ∧ child ≠ init := by
  constructor
  · rintro rfl
    exact h.linked.idle_lives (.inr hr.zombie)
  · rintro rfl
    exact h.current_ne_idle hr.acts (hr.parent_eq.symm.trans h.linked.init_parent)

theorem Numbered.report (h : Numbered w) (hr : Reaps w s' child) :
    Numbered { w.report child with sys := s' } := by
  have hused : (w.sys.proc child).state ≠ .unused := by
    rw [hr.zombie]
    decide
  obtain ⟨b₀, hb₀⟩ : ∃ b, w.birth child = some b :=
    ne_none_iff_exists'.mp fun hnone => hused ((h.used child).mp hnone)
  have hleft : ∀ i b, update w.birth child none i = some b → i ≠ child ∧ w.birth i = some b := by
    intro i b hbirth
    by_cases hi : i = child
    · subst hi
      rw [update_self] at hbirth
      cases hbirth
    · rw [update_of_ne hi] at hbirth
      exact ⟨hi, hbirth⟩
  unfold World.report
  constructor
  · intro i
    by_cases hi : i = child
    · subst hi
      simp [hr.freed]
    · dsimp only
      rw [update_of_ne hi, h.used, hr.steady.unused_iff hi]
  · exact fun i b hbirth => h.lt_count i b (hleft i b hbirth).2
  · exact fun i j b hi hj => h.unique i j b (hleft i b hi).2 (hleft j b hj).2
  · rw [map_cons, nodup_cons]
    refine ⟨fun hmem => ?_, h.once⟩
    obtain ⟨r, hrmem, hchild⟩ := mem_map.mp hmem
    obtain ⟨b, -, hb, -, hgone⟩ := h.reported r hrmem
    exact hgone child (hchild.symm.trans hb)
  · intro r hmem
    rcases mem_cons.mp hmem with rfl | hmem
    · refine ⟨b₀, h.lt_count child b₀ hb₀, hb₀,
        (h.ended_iff child b₀ hb₀).mpr hr.zombie, fun i hi => ?_⟩
      obtain ⟨hne, hbirth⟩ := hleft i b₀ hi
      exact hne (h.unique i child b₀ hbirth hb₀)
    · obtain ⟨b, hlt, hchild, hended, hgone⟩ := h.reported r hmem
      exact ⟨b, hlt, hchild, hended, fun i hi => hgone i (hleft i b hi).2⟩
  · intro b hlt
    rcases h.kept b hlt with hmem | ⟨i, hi⟩
    · exact .inl (mem_cons_of_mem _ hmem)
    · by_cases heq : i = child
      · subst heq
        exact .inl (mem_cons.mpr (.inl hi.symm))
      · exact .inr ⟨i, (update_of_ne heq _ _).trans hi⟩
  · exact h.ended_lt
  · intro i b hbirth
    obtain ⟨hi, hold⟩ := hleft i b hbirth
    rw [h.ended_iff i b hold, hr.steady.zombie_iff hi]

theorem Sound.linked_report (h : Sound w) (hr : Reaps w s' child) :
    Linked { w.report child with sys := s' } := by
  obtain ⟨hidle, hinit⟩ := h.reaped_ne hr
  refine h.linked.steadyOn hr.steady hidle.symm hinit.symm
    (fun i hi => ⟨update_of_ne hi .., update_of_ne hi ..⟩) (fun i hi hused heq => ?_)
    (fun i hi _ => ?_) (fun i hi hused => ?_) fun r hmem => ?_
  · -- nobody has a child of the dead
    rcases h.linked.parent_lives i hi hused with hparent | hlives
    · exact hinit (heq.symm.trans hparent)
    · rw [heq] at hlives
      exact hlives (.inr hr.zombie)
  · rw [not_not.mp hi]
    exact update_self ..
  · rw [not_not.mp hi] at hused
    exact absurd hr.freed hused
  · rcases mem_cons.mp hmem with rfl | hmem
    · rw [h.linked.mother_eq child hidle (by rw [hr.zombie]; decide), hr.parent_eq]
    · exact h.linked.to_parent r hmem

theorem Sound.report (h : Sound w) (hr : Reaps w s' child) :
    Sound { w.report child with sys := s' } := by
  refine ⟨hr.alive, hr.idle_gone, h.numbered.report hr, h.linked_report hr,
    h.attentive.steadyOn hr.steady
      (fun me pid flags hkont => (hr.waits me pid flags hkont).2.imp_right .inl)
      (fun me pid flags hkont => (hr.waits me pid flags hkont).1) fun i hi => ?_⟩
  rw [not_not.mp hi, hr.freed]
  decide

/-! ## Waking -/

theorem Woken.steady (h : Woken s s') : Steady s s' where
  family i _ := (h i).1
  state i _ := by
    refine (h i).2.imp_right fun hwoken => ⟨?_, hwoken.2⟩
    rw [hwoken.1]
    exact not_dead_running

theorem woken_tick (s : Sys) : Woken s s.tick := fun i =>
  woken_modify (f := fun p => { p with counter := max (p.counter - 1) 0 }) rfl
    (.inl rfl) i

/-- Waking a parent that waits changes no family. -/
theorem woken_wakeVforkParent (h : VforkParentWaits s) : Woken s s.wakeVforkParent := by
  intro i
  refine ⟨wakeVforkParent_keeps Proc.family (fun _ _ _ => rfl) s i, ?_⟩
  rw [wakeVforkParent_state]
  split_ifs with hparent
  · refine .inr ⟨rfl, ?_⟩
    rw [hparent.2]
    rcases h hparent.1 with hstate | hstate
    · rw [hstate]
      exact not_dead_running
    · rw [hstate]
      exact not_dead_interruptible
  · exact .inl rfl

/-! ## A task ends -/

theorem doExit_state_of_ne (h : VforkParentWaits s) (code : ℕ) (hi : i ≠ s.current) :
    ((s.doExit code).proc i).state = (s.proc i).state ∨
      ¬ Dead ((s.doExit code).proc i).state ∧ ¬ Dead (s.proc i).state := by
  have hsteady := (woken_wakeVforkParent h).steady
  rw [doExit_state, if_neg hi]
  split_ifs with hwoken
  · right
    refine ⟨not_dead_running, ?_⟩
    rw [← hsteady.dead_iff trivial, hwoken.1]
    exact not_dead_interruptible
  · exact hsteady.state i trivial

theorem foster_eq_init (h : (s.proc init).state ≠ .unused) : foster s = init := if_pos h

section Bury

variable {code : ℕ}

/-- The current task may end. -/
structure MayEnd (w : World) : Prop where
  acts : w.sys.kont w.sys.current ≠ .gone
  waits : VforkParentWaits w.sys

theorem doExit_unused_iff (h : Sound w) (hend : MayEnd w) (i : Slot) :
    ((w.sys.doExit code).proc i).state = .unused ↔ (w.sys.proc i).state = .unused := by
  by_cases hi : i = w.sys.current
  · subst hi
    rw [doExit_state, if_pos rfl]
    refine iff_of_false (by decide) fun hunused => ?_
    exact h.alive.not_dead hend.acts (.inl hunused)
  · exact state_iff (doExit_state_of_ne hend.waits code hi) (.inl rfl)

theorem doExit_zombie_iff (hend : MayEnd w) (hi : i ≠ w.sys.current) :
    ((w.sys.doExit code).proc i).state = .zombie ↔ (w.sys.proc i).state = .zombie :=
  state_iff (doExit_state_of_ne hend.waits code hi) (.inr rfl)

section

variable (h : Sound w) (hend : MayEnd w)

include h hend

/-- The children of the current task go to the first process. -/
theorem doExit_parent_eq (hused : (w.sys.proc i).state ≠ .unused) :
    ((w.sys.doExit code).proc i).parent =
      if (w.sys.proc i).parent = w.sys.current then init else (w.sys.proc i).parent := by
  have hsteady := (woken_wakeVforkParent hend.waits).steady
  have hfoster : foster w.sys.wakeVforkParent = init := by
    refine foster_eq_init ?_
    rw [ne_eq, hsteady.unused_iff trivial]
    exact h.linked.init_used
  have horphan : Orphan w.sys.wakeVforkParent w.sys.current i ↔
      (w.sys.proc i).parent = w.sys.current := by
    unfold Orphan
    rw [ne_eq, hsteady.unused_iff trivial, hsteady.parent trivial]
    exact and_iff_right hused
  rw [doExit_parent, hfoster]
  simp [horphan]

theorem Sound.birth_current : ∃ b, w.birth w.sys.current = some b := by
  refine ne_none_iff_exists'.mp fun hnone => ?_
  exact h.alive.not_dead hend.acts (.inl ((h.numbered.used _).mp hnone))

theorem Sound.numbered_bury : Numbered { w.bury with sys := w.sys.doExit code } := by
  obtain ⟨b₀, hb₀⟩ := h.birth_current hend
  have hended : ∀ b, b ∈ w.bury.ended ↔ b = b₀ ∨ b ∈ w.ended := by
    unfold World.bury
    rw [hb₀]
    simp
  constructor
  · exact fun i => (h.numbered.used i).trans (doExit_unused_iff h hend i).symm
  · exact h.numbered.lt_count
  · exact h.numbered.unique
  · exact h.numbered.once
  · intro r hr
    obtain ⟨b, hlt, hchild, hb, hgone⟩ := h.numbered.reported r hr
    exact ⟨b, hlt, hchild, (hended b).mpr (.inr hb), hgone⟩
  · exact h.numbered.kept
  · intro b hb
    rcases (hended b).mp hb with rfl | hb
    · exact h.numbered.lt_count _ _ hb₀
    · exact h.numbered.ended_lt b hb
  · intro i b hbirth
    rw [hended]
    by_cases hi : i = w.sys.current
    · subst hi
      obtain rfl : b = b₀ := some.inj (hbirth.symm.trans hb₀)
      refine iff_of_true (.inl rfl) ?_
      rw [doExit_state, if_pos rfl]
    · have hne : b ≠ b₀ := by
        rintro rfl
        exact hi (h.numbered.unique i _ b hbirth hb₀)
      rw [or_iff_right hne, h.numbered.ended_iff i b hbirth]
      exact (doExit_zombie_iff hend hi).symm

theorem Sound.linked_bury : Linked { w.bury with sys := w.sys.doExit code } := by
  obtain ⟨b₀, hb₀⟩ := h.birth_current hend
  have hidle : w.sys.current ≠ idle := h.current_ne_idle hend.acts
  have hmother : ∀ i, w.bury.mother i =
      if w.mother i = some b₀ then w.birth init else w.mother i := by
    intro i
    unfold World.bury
    rw [hb₀, foster_eq_init h.linked.init_used]
  have hused : ∀ {i}, ((w.sys.doExit code).proc i).state ≠ .unused →
      (w.sys.proc i).state ≠ .unused := fun hafter =>
    (doExit_unused_iff h hend _).not.mp hafter
  -- the parent of a task is the current one if its mother is
  have hparent : ∀ i, i ≠ idle → (w.sys.proc i).state ≠ .unused →
      (w.mother i = some b₀ ↔ (w.sys.proc i).parent = w.sys.current) := by
    intro i hi hbefore
    rw [h.linked.mother_eq i hi hbefore]
    constructor
    · exact fun heq => h.numbered.unique _ _ b₀ heq hb₀
    · intro heq
      rw [heq, hb₀]
  have hdead : ∀ {i}, i ≠ w.sys.current → ¬ Dead (w.sys.proc i).state →
      ¬ Dead ((w.sys.doExit code).proc i).state := by
    intro i hi hlives
    rcases doExit_state_of_ne hend.waits code hi with heq | ⟨hafter, -⟩
    · rwa [heq]
    · exact hafter
  constructor
  · intro i hi hafter
    have hbefore := hused hafter
    rw [hmother, doExit_parent_eq h hend hbefore]
    by_cases hchild : (w.sys.proc i).parent = w.sys.current
    · rw [if_pos hchild, if_pos ((hparent i hi hbefore).mpr hchild)]
      rfl
    · rw [if_neg hchild, if_neg fun heq => hchild ((hparent i hi hbefore).mp heq)]
      exact h.linked.mother_eq i hi hbefore
  · intro i hi hafter
    have hbefore := hused hafter
    rw [doExit_parent_eq h hend hbefore]
    split_ifs with hchild
    · rintro rfl
      rw [h.linked.init_parent] at hchild
      exact hidle hchild.symm
    · exact h.linked.parent_ne i hi hbefore
  · intro i hi hafter
    have hbefore := hused hafter
    rw [doExit_parent_eq h hend hbefore]
    split_ifs with hchild
    · exact .inl rfl
    · exact (h.linked.parent_lives i hi hbefore).imp_right (hdead hchild)
  · rw [hmother, h.linked.idle_mother, if_neg (by simp)]
  · intro i hnone
    rw [hmother, h.linked.no_mother i hnone, if_neg (by simp)]
  · exact h.linked.to_parent
  · exact hdead hidle.symm h.linked.idle_lives
  · have hlives := h.linked.idle_lives
    rw [doExit_parent_eq h hend fun hunused => hlives (.inl hunused), h.linked.idle_parent,
      if_neg hidle.symm]
  · exact (doExit_unused_iff h hend init).not.mpr h.linked.init_used
  · rw [doExit_parent_eq h hend h.linked.init_used, h.linked.init_parent, if_neg hidle.symm]

/-- Whoever waits for a task that ends, or gets a zombie, is woken. -/
theorem Sound.attentive_bury : Attentive (w.sys.doExit code) := by
  intro me pid flags hkont
  rw [doExit_kont] at hkont
  split_ifs at hkont with hself
  have hsteady := (woken_wakeVforkParent hend.waits).steady
  rw [doExit_state]
  split_ifs with hwoken
  · exact .inl rfl
  have hnone : (w.sys.wakeVforkParent.proc me).state = .running ∨
      (w.sys.wakeVforkParent.proc me).state = .interruptible ∧
        ∀ i, w.sys.Wanted me pid i → (w.sys.proc i).state ≠ .zombie := by
    rw [wakeVforkParent_state]
    split_ifs
    · exact .inl rfl
    · exact h.attentive me pid flags hkont
  refine hnone.imp_right fun hsleep => ⟨hsleep.1, fun i hwanted hzombie => ?_⟩
  obtain ⟨hne, hused, hparent, hmatches⟩ := hwanted
  rw [doExit_parent] at hparent
  by_cases hi : i = w.sys.current
  · -- it is the one that ends, and its parent is told
    subst hi
    refine hwoken ⟨hsleep.1, .inr ?_⟩
    unfold heir
    rw [wakeVforkParent_current, hsteady.parent trivial]
    exact hparent.symm
  · rw [doExit_zombie_iff hend hi] at hzombie
    split_ifs at hparent with horphan
    · refine hwoken ⟨hsleep.1, .inl ⟨hparent.symm, i, ?_, horphan.2⟩⟩
      rw [hsteady.zombie_iff trivial]
      exact hzombie
    · refine hsleep.2 i ⟨hne, ?_, hparent, ?_⟩ hzombie
      · rw [hzombie]
        decide
      · have hpid : ((w.sys.doExit code).proc i).pid = (w.sys.proc i).pid :=
          doExit_keeps (·.pid) (fun _ _ _ _ => rfl) w.sys code i
        have hpgrp : ∀ j, ((w.sys.doExit code).proc j).pgrp = (w.sys.proc j).pgrp := fun j =>
          doExit_keeps (·.pgrp) (fun _ _ _ _ => rfl) w.sys code j
        unfold Sys.Matches at hmatches ⊢
        rwa [hpid, hpgrp, hpgrp] at hmatches

theorem Sound.bury : Sound { w.bury with sys := w.sys.doExit code } := by
  refine ⟨h.alive.doExit code, ?_, h.numbered_bury hend, h.linked_bury hend, h.attentive_bury hend⟩
  rw [doExit_kont, if_neg (h.current_ne_idle hend.acts).symm]
  exact h.idle_gone

end

end Bury

/-! ## The other steps -/

/-- Nobody but a sleeper is touched. -/
theorem Sound.woken (h : Sound w) (halive : Alive s') (hwoken : Woken w.sys s')
    (hkont : s'.kont = w.sys.kont) : Sound { w with sys := s' } := by
  refine h.steady hwoken.steady halive (by rw [hkont]; exact h.idle_gone) ?_
  refine h.attentive.steady hwoken.steady fun me pid flags hme => ?_
  rw [hkont] at hme
  exact ⟨hme, (hwoken me).2.imp_right And.left⟩

/-- The current task does something that concerns no family, and is not in `wait4` after it. -/
theorem Sound.own (h : Sound w) (halive : Alive s') (hsteady : Steady w.sys s')
    (hacts : w.sys.kont w.sys.current ≠ .gone)
    (hothers : ∀ i, i ≠ w.sys.current → s'.kont i = w.sys.kont i ∧
      ((s'.proc i).state = (w.sys.proc i).state ∨ (s'.proc i).state = .running))
    (hhere : ∀ pid flags, s'.kont w.sys.current ≠ .wait4 pid flags) :
    Sound { w with sys := s' } := by
  refine h.steady hsteady halive ?_ (h.attentive.steady hsteady fun me pid flags hme => ?_)
  · rw [(hothers idle (h.current_ne_idle hacts).symm).1]
    exact h.idle_gone
  · have hne : me ≠ w.sys.current := by
      rintro rfl
      exact hhere pid flags hme
    rw [(hothers me hne).1] at hme
    exact ⟨hme, (hothers me hne).2⟩

theorem Sound.setKont (h : Sound w) (hacts : w.sys.kont w.sys.current ≠ .gone) {kont : Kont}
    (hkont : ∀ pid flags, kont ≠ .wait4 pid flags) :
    Sound { w with sys := w.sys.setKont w.sys.current kont } := by
  refine h.own (h.alive.setKont (h.alive.not_dead hacts) kont) (SteadyOn.of_kin fun _ _ => rfl) hacts
    (fun i hi => ?_) fun pid flags => ?_
  · rw [setKont_kont, if_neg hi]
    exact ⟨rfl, .inl rfl⟩
  · rw [setKont_kont, if_pos rfl]
    exact hkont pid flags

/-- The current task changes its state and is elsewhere than in `wait4`. -/
theorem Sound.fallAsleep (h : Sound w) (halive : Alive s')
    (hacts : w.sys.kont w.sys.current ≠ .gone) (f : Proc → Proc) (kont : Kont)
    (hproc : s'.proc = (w.sys.modify w.sys.current f).proc)
    (hkont : s'.kont = (w.sys.setKont w.sys.current kont).kont)
    (hfamily : (f (w.sys.proc w.sys.current)).family = (w.sys.proc w.sys.current).family)
    (hlives : ¬ Dead (f (w.sys.proc w.sys.current)).state)
    (helse : ∀ pid flags, kont ≠ .wait4 pid flags) : Sound { w with sys := s' } := by
  have hself : s'.proc w.sys.current = f (w.sys.proc w.sys.current) := by
    rw [hproc, modify_proc, if_pos rfl]
  have hothers : ∀ i, i ≠ w.sys.current → s'.proc i = w.sys.proc i := by
    intro i hi
    rw [hproc, modify_proc, if_neg hi]
  refine h.own halive (SteadyOn.own (fun i _ hi => by rw [hothers i hi]) (by rw [hself, hfamily])
    (by rwa [hself]) (h.alive.not_dead hacts)) hacts (fun i hi => ?_) fun pid flags => ?_
  · rw [hothers i hi, hkont, setKont_kont, if_neg hi]
    exact ⟨rfl, .inl rfl⟩
  · rw [hkont, setKont_kont, if_pos rfl]
    exact helse pid flags

/-! ## Tasks are born -/

section

variable (h : Sound w) (hacts : w.sys.kont w.sys.current ≠ .gone)

include h hacts

theorem Sound.bears_fork (hslot : w.sys.freeSlot = some child)
    (halive : Alive ((w.sys.fork true true).setKont w.sys.current .leaving)) :
    Bears w ((w.sys.fork true true).setKont w.sys.current .leaving) (.fork true true) child
      w.sys.current := by
  obtain ⟨hidle, hfree⟩ := freeSlot_spec hslot
  have hstarted := fork_started hslot
  refine ⟨hfree, hidle, hstarted.running, hstarted.parent_eq, rfl, .inr (h.alive.not_dead hacts),
    SteadyOn.of_kin fun i hi => (fork_others hslot hi).1, halive, ?_, fun me pid flags hme => ?_⟩
  · rw [setKont_kont, if_neg (h.current_ne_idle hacts).symm, (fork_others hslot hidle.symm).2]
    exact h.idle_gone
  · rw [setKont_kont] at hme
    split_ifs at hme
    have hne : me ≠ child := by
      rintro rfl
      rw [hstarted.kont_eq] at hme
      cases hme
    obtain ⟨hkin, hkont⟩ := fork_others hslot hne
    exact ⟨hne, hkont.symm.trans hme, state_of_kin hkin⟩

/-- The parent of a task that the current one clones is known. -/
theorem Sound.motherOf_clone (flags : CloneFlags) (stack : Bool) :
    w.motherOf (.clone flags stack) = w.birth (cloneParent w.sys flags) ∧
      (cloneParent w.sys flags = init ∨ ¬ Dead (w.sys.proc (cloneParent w.sys flags)).state) := by
  have hlives := h.alive.not_dead hacts
  have hidle := h.current_ne_idle hacts
  have hused : (w.sys.proc w.sys.current).state ≠ .unused := fun hunused => hlives (.inl hunused)
  have hmother := h.linked.mother_eq _ hidle hused
  have hparent := h.linked.parent_lives _ hidle hused
  unfold cloneParent
  simp only [World.motherOf]
  by_cases hflag : flags.parent = true
  · rw [if_pos (.inl hflag), if_pos hflag]
    exact ⟨hmother, hparent⟩
  · rw [if_neg hflag]
    by_cases hthread : flags.thread = true
    · rw [if_pos (.inr hthread), if_pos hthread]
      exact ⟨hmother, hparent⟩
    · rw [if_neg (not_or.mpr ⟨hflag, hthread⟩), if_neg hthread]
      exact ⟨rfl, .inr hlives⟩

theorem Sound.bears_clone {flags : CloneFlags} (hslot : w.sys.freeSlot = some child)
    (halive : Alive (w.sys.clone flags true)) :
    Bears w (w.sys.clone flags true) (.clone flags true) child (cloneParent w.sys flags) := by
  obtain ⟨hidle, hfree⟩ := freeSlot_spec hslot
  have hlives := h.alive.not_dead hacts
  have hne : w.sys.current ≠ child := by
    intro heq
    rw [heq] at hlives
    exact hlives (.inl hfree)
  have hstarted := clone_started flags hslot hne
  obtain ⟨hkin, hkont⟩ := clone_current flags hslot hne
  have hstate : ((w.sys.clone flags true).proc w.sys.current).state =
      if flags.vfork then .interruptible else (w.sys.proc w.sys.current).state :=
    congrArg Kin.state hkin
  obtain ⟨hmother, hparent⟩ := h.motherOf_clone hacts flags true
  refine ⟨hfree, hidle, hstarted.running, hstarted.parent_eq, hmother, hparent, ?_, halive, ?_,
    fun me pid wflags hme => ?_⟩
  · refine SteadyOn.own (fun i hi hself => (clone_others hslot hi hself).1) ?_ ?_ hlives
    · exact congrArg (fun k => (k.parent, k.pid, k.pgrp)) hkin
    · rw [hstate]
      split_ifs
      · exact not_dead_interruptible
      · exact hlives
  · rw [(clone_others hslot hidle.symm (h.current_ne_idle hacts).symm).2]
    exact h.idle_gone
  · have hchild : me ≠ child := by
      rintro rfl
      rw [hstarted.kont_eq] at hme
      cases hme
    have hself : me ≠ w.sys.current := by
      rintro rfl
      rw [hkont] at hme
      split_ifs at hme
    obtain ⟨hkin, hkont⟩ := clone_others hslot hchild hself
    exact ⟨hchild, hkont.symm.trans hme, state_of_kin hkin⟩

end

/-! ## `wait4` -/

section Wait4

variable {flags : WaitFlags}

theorem Sound.reaps (h : Sound w) (hacts : w.sys.kont w.sys.current ≠ .gone)
    (hreply : w.sys.reply w.sys.current pid flags = .reaped child) :
    Reaps w (w.sys.wait4 pid flags) child := by
  obtain ⟨⟨hne, -, hparent, -⟩, hzombie⟩ := reply_reaped hreply
  have hkept : ∀ i, i ≠ child → w.sys.reply w.sys.current pid flags ≠ .reaped i := by
    intro i hi hreply'
    rw [hreply] at hreply'
    exact hi (Sys.Reply.reaped.inj hreply').symm
  have hself : ((w.sys.wait4 pid flags).proc w.sys.current).kin = (w.sys.proc w.sys.current).kin ∧
      (w.sys.wait4 pid flags).kont w.sys.current = .leaving := by
    rcases wait4_current w.sys pid flags with ⟨hsleep, -⟩ | hself
    · rw [hreply] at hsleep
      cases hsleep
    · exact hself
  have hkin : ∀ i, i ≠ child →
      ((w.sys.wait4 pid flags).proc i).kin = (w.sys.proc i).kin := by
    intro i hi
    by_cases heq : i = w.sys.current
    · rw [heq]
      exact hself.1
    · exact wait4_kin pid flags heq (hkept i hi)
  refine ⟨hacts, hzombie, hparent, ?_, SteadyOn.of_kin hkin, h.alive.wait4 hacts pid flags, ?_,
    fun me pid' flags' hme => ?_⟩
  · unfold wait4
    rw [hreply]
    exact release_state hne
  · rw [wait4_kont pid flags (h.current_ne_idle hacts).symm]
    exact h.idle_gone
  · have hme' : me ≠ w.sys.current := by
      rintro rfl
      rw [hself.2] at hme
      cases hme
    rw [wait4_kont pid flags hme'] at hme
    have hchild : me ≠ child := by
      rintro rfl
      refine h.alive.not_dead ?_ (.inr hzombie)
      rw [hme]
      simp
    exact ⟨hchild, hme, state_of_kin (hkin me hchild)⟩

theorem Sound.wait4 (h : Sound w) (hacts : w.sys.kont w.sys.current ≠ .gone)
    (hreply : ∀ i, w.sys.reply w.sys.current pid flags ≠ .reaped i) :
    Sound { w with sys := w.sys.wait4 pid flags } := by
  have halive := h.alive.wait4 hacts pid flags
  have hlives := h.alive.not_dead hacts
  have hothers : ∀ i, i ≠ w.sys.current →
      ((w.sys.wait4 pid flags).proc i).kin = (w.sys.proc i).kin := fun i hi =>
    wait4_kin pid flags hi (hreply i)
  rcases wait4_current w.sys pid flags with ⟨hsleep, hkin, hkont⟩ | ⟨hkin, hkont⟩
  · have hstate : ((w.sys.wait4 pid flags).proc w.sys.current).state = .interruptible :=
      congrArg Kin.state hkin
    have hsteady : Steady w.sys (w.sys.wait4 pid flags) := by
      refine SteadyOn.own (fun i _ => hothers i) ?_ ?_ hlives
      · exact congrArg (fun k => (k.parent, k.pid, k.pgrp)) hkin
      · rw [hstate]
        exact not_dead_interruptible
    refine h.steady hsteady halive ?_ fun me pid' flags' hme => ?_
    · rw [wait4_kont pid flags (h.current_ne_idle hacts).symm]
      exact h.idle_gone
    · by_cases hself : me = w.sys.current
      · -- it goes to sleep because it found nobody
        subst hself
        rw [hkont] at hme
        cases hme
        refine .inr ⟨hstate, fun i hwanted => ?_⟩
        rw [ne_eq, hsteady.zombie_iff trivial]
        exact reply_sleep hsleep ((hsteady.wanted_iff trivial trivial).mp hwanted)
      · rw [wait4_kont pid flags hself] at hme
        rw [state_of_kin (hothers me hself)]
        refine (h.attentive me pid' flags' hme).imp_right fun hasleep =>
          ⟨hasleep.1, fun i hwanted => ?_⟩
        rw [ne_eq, hsteady.zombie_iff trivial]
        exact hasleep.2 i ((hsteady.wanted_iff trivial trivial).mp hwanted)
  · refine h.own halive (SteadyOn.of_kin fun i _ => ?_) hacts (fun i hi => ?_) fun pid' flags' => ?_
    · by_cases hi : i = w.sys.current
      · rw [hi]
        exact hkin
      · exact hothers i hi
    · exact ⟨wait4_kont pid flags hi, .inl (state_of_kin (hothers i hi))⟩
    · rw [hkont]
      simp

theorem World.learn_of_none (hcreated : created w.sys event = none)
    (hreleased : released w.sys event = none) (hends : ¬ Ends w.sys event) : w.learn event = w := by
  unfold learn
  rw [hcreated, hreleased]
  exact if_neg hends

theorem Sound.learn_wait4 (h : Sound w) (event : Event) (hacts : w.sys.kont w.sys.current ≠ .gone)
    (hcreated : created w.sys event = none)
    (hreleased : released w.sys event = w.sys.reaps pid flags) (hends : ¬ Ends w.sys event) :
    Sound { w.learn event with sys := w.sys.wait4 pid flags } := by
  by_cases hreaped : ∃ i, w.sys.reply w.sys.current pid flags = .reaped i
  · obtain ⟨i, hreply⟩ := hreaped
    have hreaps : w.sys.reaps pid flags = some i := by
      unfold Sys.reaps
      rw [hreply]
    have hlearn : w.learn event = w.report i := by
      unfold World.learn
      rw [hcreated, hreleased, hreaps]
    rw [hlearn]
    exact h.report (h.reaps hacts hreply)
  · have hreaps : w.sys.reaps pid flags = none := by
      unfold Sys.reaps
      cases hreply : w.sys.reply w.sys.current pid flags with
      | reaped i => exact absurd ⟨i, hreply⟩ hreaped
      | stopped _ | echild | nothing | sleep => rfl
    rw [World.learn_of_none hcreated (hreleased.trans hreaps) hends]
    exact h.wait4 hacts fun i hreply => hreaped ⟨i, hreply⟩

end Wait4

/-! ## Signals -/

section Deliver

variable {effect : Effect}

theorem act_family (signum : ℕ) (heffect : effect ≠ .exit) (i : Slot) :
    ((s.act signum effect).proc i).family = (s.proc i).family := by
  cases effect with
  | discard | deliver _ => rfl
  | wake =>
    unfold act
    rw [modify_keeps Proc.family rfl]
  | stop =>
    unfold act
    rw [setKont_proc, modify_keeps Proc.family rfl]
  | exit => exact absurd rfl heffect

theorem act_kont (signum : ℕ) (heffect : effect ≠ .exit) :
    (s.act signum effect).kont s.current = s.kont s.current ∨
      (s.act signum effect).kont s.current = .stopped := by
  cases effect with
  | discard | deliver _ | wake => exact .inl rfl
  | stop =>
    right
    unfold act
    rw [setKont_kont, if_pos rfl]
  | exit => exact absurd rfl heffect

theorem Sound.act (h : Sound w) (signum : ℕ) (heffect : effect ≠ .exit)
    (hleaving : w.sys.kont w.sys.current = .leaving) :
    Sound { w with sys := w.sys.act signum effect } := by
  have hacts : w.sys.kont w.sys.current ≠ .gone := hleaving.trans_ne (by simp)
  have hlives := h.alive.not_dead hacts
  have hafter : ¬ Dead ((w.sys.act signum effect).proc w.sys.current).state := fun hdead =>
    hlives (act_dead heffect hdead)
  have hothers : ∀ i, i ≠ w.sys.current → ((w.sys.act signum effect).proc i).kin =
      (w.sys.proc i).kin ∧ (w.sys.act signum effect).kont i = w.sys.kont i := fun i hi =>
    act_of_ne signum heffect hi
  refine h.own (h.alive.own hafter hothers) (SteadyOn.own (fun i _ hi => (hothers i hi).1)
    (act_family signum heffect _) hafter hlives) hacts (fun i hi => ?_) fun pid flags => ?_
  · exact ⟨(hothers i hi).2, .inl (state_of_kin (hothers i hi).1)⟩
  · rcases act_kont signum heffect with hkont | hkont
    · rw [hkont, hleaving]
      simp
    · rw [hkont]
      simp

theorem Sound.take (h : Sound w) : Sound { w with sys := w.sys.take } := by
  have hwoken : Woken w.sys w.sys.take := woken_modify rfl (.inl rfl)
  exact h.woken (h.alive.of_wake (fun _ => hwoken.dead) rfl) hwoken rfl

theorem Sound.bury_take (h : Sound w) :
    World.bury { w with sys := w.sys.take } = { w.bury with sys := w.sys.take } := by
  unfold World.bury
  rw [foster_eq_init h.linked.init_used, foster_eq_init h.take.linked.init_used]
  rfl

theorem Sound.deliver (h : Sound w) (hfits : StateFits w.sys .deliver)
    (hleaving : w.sys.kont w.sys.current = .leaving) :
    Sound { w.learn .deliver with sys := w.sys.deliver } := by
  have hacts : w.sys.kont w.sys.current ≠ .gone := hleaving.trans_ne (by simp)
  cases hfatal : w.sys.fatal with
  | true =>
    have hlearn : w.learn .deliver = w.bury := by
      simp [World.learn, created, released, Ends, hfatal]
    have hburied : Sound { World.bury { w with sys := w.sys.take } with
        sys := w.sys.take.doExit w.sys.nextSignal } :=
      h.take.bury ⟨hacts, (hfits hfatal).take⟩
    rw [h.bury_take] at hburied
    rw [hlearn, deliver_of_fatal hfatal]
    exact hburied
  | false =>
    have hlearn : w.learn .deliver = w := by
      simp [World.learn, created, released, Ends, hfatal]
    rw [hlearn]
    rcases deliver_of_not_fatal hfatal with hdone | ⟨heffect, hact⟩
    · rw [hdone]
      exact h.setKont hacts (by simp)
    · rw [hact]
      exact h.take.act w.sys.nextSignal heffect hleaving

end Deliver

/-! ## Runs -/

theorem numbered_boot : Numbered .boot := by
  have hbirth : ∀ i b, World.boot.birth i = some b → i = idle ∧ b = 0 ∨ i = init ∧ b = 1 := by
    intro i b hb
    unfold World.boot at hb
    dsimp only at hb
    split_ifs at hb with hidle hinit
    · exact .inl ⟨hidle, (some.inj hb).symm⟩
    · exact .inr ⟨hinit, (some.inj hb).symm⟩
  constructor
  · decide +kernel
  · intro i b hb
    rcases hbirth i b hb with ⟨-, rfl⟩ | ⟨-, rfl⟩ <;> decide
  · intro i j b hi hj
    rcases hbirth i b hi with ⟨rfl, rfl⟩ | ⟨rfl, rfl⟩
    · rcases hbirth j _ hj with ⟨rfl, -⟩ | ⟨-, hb⟩
      · rfl
      · cases hb
    · rcases hbirth j _ hj with ⟨-, hb⟩ | ⟨rfl, -⟩
      · cases hb
      · rfl
  · exact nodup_nil
  · intro r hr
    cases hr
  · intro b hlt
    have hb : b = 0 ∨ b = 1 := by
      have hcount : World.boot.count = 2 := rfl
      omega
    rcases hb with rfl | rfl
    · exact .inr ⟨idle, rfl⟩
    · exact .inr ⟨init, rfl⟩
  · intro b hb
    cases hb
  · intro i b hb
    refine iff_of_false (nofun) ?_
    rcases hbirth i b hb with ⟨rfl, -⟩ | ⟨rfl, -⟩ <;> decide

theorem linked_boot : Linked .boot := by
  have hused : ∀ i, i ≠ idle → (boot.proc i).state ≠ .unused → i = init := by
    decide +kernel
  constructor
  · intro i hidle hstate
    rw [hused i hidle hstate]
    rfl
  · intro i hidle hstate
    rw [hused i hidle hstate]
    decide
  · intro i hidle hstate
    rw [hused i hidle hstate]
    exact .inr not_dead_running
  · rfl
  · decide +kernel
  · intro r hr
    cases hr
  · exact not_dead_running
  · rfl
  · decide
  · rfl

theorem sound_boot : Sound .boot where
  alive := alive_boot
  idle_gone := rfl
  numbered := numbered_boot
  linked := linked_boot
  attentive me pid flags hkont := by
    unfold World.boot boot at hkont
    dsimp only at hkont
    split_ifs at hkont

theorem World.step_ok (h : w.step event = .ok w') :
    ∃ s', w.sys.step event = .ok s' ∧ w' = { w.learn event with sys := s' } := by
  unfold step at h
  cases hstep : w.sys.step event with
  | ok s' =>
    rw [hstep] at h
    cases h
    exact ⟨s', rfl, rfl⟩
  | error failure =>
    rw [hstep] at h
    cases h

theorem Sound.resume (h : Sound w) : Sound { w.learn .resume with sys := w.sys.resume } := by
  have hlearn : released w.sys .resume = none → w.learn .resume = w := fun hreleased =>
    World.learn_of_none rfl hreleased id
  cases hkont : w.sys.kont w.sys.current with
  | user | kernel | leaving | gone =>
    have hresume : w.sys.resume = w.sys := by
      unfold Sys.resume
      simp [hkont]
    rw [hresume, hlearn (by simp only [released, hkont])]
    exact h
  | vfork _ | stopped | nap =>
    unfold Sys.resume
    simp only [hkont]
    rw [hlearn (by simp only [released, hkont])]
    exact h.setKont (hkont.trans_ne (by simp)) (by simp)
  | asleep queue =>
    have hacts : w.sys.kont w.sys.current ≠ .gone := hkont.trans_ne (by simp)
    have hremoved : Sound { w with sys := w.sys.remove queue w.sys.current } :=
      h.woken h.alive (fun _ => ⟨rfl, .inl rfl⟩) rfl
    unfold Sys.resume
    simp only [hkont]
    rw [hlearn (by simp only [released, hkont])]
    exact hremoved.setKont hacts (by simp)
  | wait4 pid flags =>
    have hacts : w.sys.kont w.sys.current ≠ .gone := hkont.trans_ne (by simp)
    unfold Sys.resume
    simp only [hkont]
    by_cases hpending : (w.sys.proc w.sys.current).pending ≠ 0#64
    · rw [if_pos hpending, hlearn (by simp only [released, hkont, if_pos hpending])]
      exact h.setKont hacts (by simp)
    · rw [if_neg hpending]
      refine h.learn_wait4 .resume hacts rfl ?_ id
      simp [released, hkont, if_neg hpending]

theorem Sound.step (h : Sound w) (hfits : StateFits w.sys event) (hstep : w.step event = .ok w') :
    Sound w' := by
  obtain ⟨s', hsys, rfl⟩ := World.step_ok hstep
  have halive : Alive s' := h.alive.step hsys
  cases event with
  | enter | leave =>
    obtain ⟨hkont, rfl⟩ := whenAt_ok hsys
    exact h.setKont (hkont.trans_ne (by simp)) (by simp)
  | fork stack space =>
    obtain ⟨hkont, rfl⟩ := whenAt_ok hsys
    have hgoes : w.sys.kont w.sys.current ≠ .gone := hkont.trans_ne (by simp)
    rcases fork_cases w.sys stack space with ⟨hwhy, hrefused⟩ | ⟨child, hslot, rfl⟩
    · have hlearn : w.learn (.fork stack space) = w := by
        rcases hwhy with hwhy | rfl <;> simp [World.learn, created, released, Ends, *]
      rw [hlearn, hrefused]
      exact h.setKont hgoes (by simp)
    · cases hfits rfl
      have hlearn : w.learn (.fork true true) = w.bear (.fork true true) child := by
        simp [World.learn, created, hslot]
      rw [hlearn]
      exact h.bear (h.bears_fork hgoes hslot halive)
  | clone flags stack =>
    obtain ⟨hkont, rfl⟩ := whenAt_ok hsys
    have hgoes : w.sys.kont w.sys.current ≠ .gone := hkont.trans_ne (by simp)
    rcases clone_cases w.sys flags stack with ⟨hwhy, hrefused⟩ | ⟨child, hslot, rfl⟩
    · have hlearn : w.learn (.clone flags stack) = w := by
        rcases hwhy with hwhy | rfl <;> simp [World.learn, created, released, Ends, *]
      rw [hlearn, hrefused]
      exact h.setKont hgoes (by simp)
    · have hlearn : w.learn (.clone flags true) = w.bear (.clone flags true) child := by
        simp [World.learn, created, hslot]
      rw [hlearn]
      exact h.bear (h.bears_clone hgoes hslot halive)
  | execve ok =>
    obtain ⟨hkont, rfl⟩ := whenAt_ok hsys
    have hgoes : w.sys.kont w.sys.current ≠ .gone := hkont.trans_ne (by simp)
    cases ok with
    | false => exact h.setKont hgoes (by simp)
    | true =>
      have hwoken : Woken w.sys (w.sys.wakeVforkParent.setKont w.sys.current .leaving) := fun i =>
        woken_wakeVforkParent (hfits rfl) i
      refine h.own halive hwoken.steady hgoes (fun i hi => ?_) fun pid flags => ?_
      · rw [setKont_kont, if_neg hi]
        refine ⟨congrFun (wakeVforkParent_kont w.sys) i, ?_⟩
        exact (hwoken i).2.imp_right And.left
      · rw [setKont_kont]
        simp
  | exit code =>
    obtain ⟨hkont, rfl⟩ := whenAt_ok hsys
    exact h.bury ⟨hkont.trans_ne (by simp), hfits⟩
  | wait4 pid flags =>
    obtain ⟨hkont, rfl⟩ := whenAt_ok hsys
    exact h.learn_wait4 (.wait4 pid flags) (hkont.trans_ne (by simp)) rfl rfl id
  | sigmask mask =>
    obtain ⟨-, rfl⟩ := whenAt_ok hsys
    exact h.woken halive (woken_modify rfl (.inl rfl)) rfl
  | sleepOn queue interruptible timeout =>
    obtain ⟨hkont, rfl⟩ := whenAt_ok hsys
    refine h.fallAsleep halive (hkont.trans_ne (by simp))
      (fun p => { p with
        state := if interruptible then .interruptible else .uninterruptible, timeout := timeout })
      (.asleep queue) rfl rfl rfl (fun hdead => ?_) (by simp)
    cases interruptible <;> rcases hdead with hdead | hdead <;> cases hdead
  | nap timeout =>
    obtain ⟨hkont, rfl⟩ := whenAt_ok hsys
    exact h.fallAsleep halive (hkont.trans_ne (by simp))
      (fun p => { p with state := .interruptible, timeout := timeout.getD p.timeout }) .nap rfl rfl
      rfl not_dead_interruptible (by simp)
  | resume =>
    simp only [step] at hsys
    split_ifs at hsys
    cases hsys
    exact h.resume
  | deliver =>
    obtain ⟨hkont, rfl⟩ := whenAt_ok hsys
    exact h.deliver hfits hkont
  | schedule =>
    cases hsys
    exact h.woken halive (woken_schedule w.sys) (schedule_kont w.sys)
  | tick =>
    cases hsys
    exact h.woken halive (woken_tick w.sys) rfl
  | wakeUp queue only =>
    cases hsys
    exact h.woken halive (woken_wakeUp w.sys queue only) (wakeUp_kont w.sys queue only)
  | signal target signum =>
    cases hsys
    exact h.woken halive (woken_sendSig w.sys signum target) rfl
  | sigaction task table =>
    cases hsys
    exact h.woken halive (woken_modify rfl (.inl rfl)) rfl

/-- In every run whose steps fit, `wait4` does what it should. -/
theorem waitLaw_run {events : List Event} {final : World}
    (hfits : Guarded World.step (fun w event => StateFits w.sys event) events .boot)
    (hrun : run World.step events .boot = .ok final) : WaitLaw final :=
  (hfits.keeps (fun _ _ _ hsound hguard hstep => Sound.step hsound hguard hstep) sound_boot hrun).law

/-- The first process forks, and waits; the child ends, and is reported. -/
def reportRun : List Event :=
  [.enter, .fork true true, .deliver, .enter, .wait4 (-1) ⟨false, false⟩, .schedule, .deliver,
    .enter, .exit 7, .schedule, .resume]

theorem waitLaw_reportRun : ∃ final : World,
    Guarded World.step (fun w event => StateFits w.sys event) reportRun .boot ∧
      run World.step reportRun .boot = .ok final ∧
      final.reports.map Report.child = [some 2] ∧ WaitLaw final := by
  have hfits : Guarded World.step (fun w event => StateFits w.sys event) reportRun .boot :=
    guarded_of_check (by decide +kernel)
  have hends : endsIn (fun w => w.reports.map Report.child = [some 2])
      (run World.step reportRun .boot) = true := by
    decide +kernel
  obtain ⟨final, hrun, hreports⟩ := exists_of_endsIn hends
  exact ⟨final, hfits, hrun, hreports, waitLaw_run hfits hrun⟩

/-- After a `fork` that could not copy the address space the first process has no child, and
`wait4` sleeps all the same. -/
theorem failed_fork_is_child : ∃ final : World,
    run World.step [.enter, .fork true false] .boot = .ok final ∧
      (∀ i, ¬ final.ChildOf init i) ∧
      final.sys.reply init (-1) ⟨false, false⟩ = .sleep ∧ ¬ WaitLaw final := by
  have hends : endsIn (fun w => (∀ i, ¬ (i ≠ init ∧ (w.birth i).isSome = true ∧
        (w.birth init).isSome = true ∧ w.mother i = w.birth init)) ∧
      w.sys.reply init (-1) ⟨false, false⟩ = .sleep ∧ (w.sys.proc init).state = .running)
      (run World.step [.enter, .fork true false] .boot) = true := by
    decide +kernel
  obtain ⟨final, hrun, hchild, hreply, hrunning⟩ := exists_of_endsIn hends
  refine ⟨final, hrun, hchild, hreply, fun hlaw => ?_⟩
  have hlives : ¬ Dead (final.sys.proc init).state := by
    rw [hrunning]
    exact not_dead_running
  have hechild := (hlaw.echild init hlives (-1) ⟨false, false⟩).mpr fun ⟨i, hi, _⟩ => hchild i hi
  rw [hreply] at hechild
  cases hechild

end Shitix.Sched
