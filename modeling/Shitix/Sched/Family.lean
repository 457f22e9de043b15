import Shitix.Sched.StateMachine
import Shitix.Sched.Alive

/-!
# Parents and children

Slots of the task table are used again and again, and a parent is known by its slot only.  A
`World` numbers the tasks as they are born and keeps, beside the table, which task is in a slot, who
its parent is, who has ended, and what `wait4` has reported to whom.

`WaitLaw` is what `wait4` should do: it reports the end of a task once, to the parent the task has
then, and that is when the slot is free again; it says that there is no child if there is none; and
nobody sleeps in it whose child has ended.  `Sound` is the invariant behind it.
-/

namespace Shitix.Sched

open Signal

/-- A task that `wait4` has reported: by its number, with the caller and with its parent. -/
structure Report where
  caller : Option ℕ
  mother : Option ℕ
  child : Option ℕ

/-- The tasks, and what is known of them. -/
structure World where
  sys : Sys
  /-- how many were born -/
  count : ℕ
  /-- who is in a slot -/
  birth : Slot → Option ℕ
  /-- who is the parent of the task in a slot -/
  mother : Slot → Option ℕ
  /-- who has ended -/
  ended : List ℕ
  reports : List Report

/-- The idle task is the first one born, and the parent of the first process. -/
def World.boot : World where
  sys := .boot
  count := 2
  birth i := if i = idle then some 0 else if i = init then some 1 else none
  mother i := if i = init then some 0 else none
  ended := []
  reports := []

/-- The slot of the task that the event creates. -/
def created (s : Sys) : Event → Option Slot
  | .fork stack space => if stack = true ∧ space = true then s.freeSlot else none
  | .clone _ stack => if stack = true then s.freeSlot else none
  | _ => none

/-- Who is the parent of a task that the event creates. -/
def World.motherOf (w : World) : Event → Option ℕ
  | .clone flags _ =>
    if flags.parent = true ∨ flags.thread = true then w.mother w.sys.current
    else w.birth w.sys.current
  | _ => w.birth w.sys.current

/-- The child that a round of `wait4` releases. -/
def Sys.reaps (s : Sys) (pid : ℤ) (flags : WaitFlags) : Option Slot :=
  match s.reply s.current pid flags with
  | .reaped child => some child
  | _ => none

/-- The child that the event releases. -/
def released (s : Sys) : Event → Option Slot
  | .wait4 pid flags => s.reaps pid flags
  | .resume =>
    match s.kont s.current with
    | .wait4 pid flags => if (s.proc s.current).pending ≠ 0#64 then none else s.reaps pid flags
    | _ => none
  | _ => none

/-- The event is the end of the current task. -/
def Ends (s : Sys) : Event → Prop
  | .exit _ => True
  | .deliver => s.fatal = true
  | _ => False

instance (s : Sys) (event : Event) : Decidable (Ends s event) :=
  match event with
  | .exit _ => instDecidableTrue
  | .deliver => inferInstanceAs (Decidable (s.fatal = true))
  | .enter | .fork .. | .clone .. | .execve _ | .wait4 .. | .sigmask _ | .sleepOn .. | .nap _
  | .leave | .resume | .schedule | .tick | .wakeUp .. | .signal .. | .sigaction .. => instDecidableFalse

namespace World

variable (w : World)

/-- A task is born. -/
def bear (event : Event) (child : Slot) : World :=
  { w with
    count := w.count + 1
    birth := Function.update w.birth child (some w.count)
    mother := Function.update w.mother child (w.motherOf event) }

/-- A task is reported to the current one and leaves its slot. -/
def report (child : Slot) : World :=
  { w with
    birth := Function.update w.birth child none
    mother := Function.update w.mother child none
    reports := ⟨w.birth w.sys.current, w.mother child, w.birth child⟩ :: w.reports }

/-- The current task ends, and its children get another parent. -/
def bury : World :=
  { w with
    ended := (w.birth w.sys.current).toList ++ w.ended
    mother := fun i =>
      if w.mother i = w.birth w.sys.current then w.birth (foster w.sys) else w.mother i }

/-- What is known after the event. -/
def learn (event : Event) : World :=
  match created w.sys event with
  | some child => w.bear event child
  | none =>
    match released w.sys event with
    | some child => w.report child
    | none => if Ends w.sys event then w.bury else w

/-- A step. -/
def step (event : Event) : Except Stuck World :=
  match w.sys.step event with
  | .ok sys => .ok { w.learn event with sys := sys }
  | .error failure => .error failure

/-- The task in one slot is a child of the one in the other. -/
def ChildOf (me i : Slot) : Prop :=
  i ≠ me ∧ (w.birth i).isSome = true ∧ (w.birth me).isSome = true ∧ w.mother i = w.birth me

/-- The task in the slot has ended. -/
def HasEnded (i : Slot) : Prop := ∃ b ∈ w.ended, w.birth i = some b

end World

/-- What `wait4` should do. -/
structure WaitLaw (w : World) : Prop where
  /-- a slot is used if a task is in it -/
  used : ∀ i, w.birth i = none ↔ (w.sys.proc i).state = .unused
  /-- nobody is reported twice -/
  once : (w.reports.map Report.child).Nodup
  /-- who is reported has ended, and the report goes to the parent -/
  to_parent : ∀ r ∈ w.reports, (∃ b ∈ w.ended, r.child = some b) ∧ r.caller = r.mother
  /-- a task leaves its slot when it is reported -/
  released_iff : ∀ b < w.count, some b ∈ w.reports.map Report.child ↔ ∀ i, w.birth i ≠ some b
  /-- `-ECHILD` -/
  echild : ∀ me, ¬ Dead (w.sys.proc me).state → ∀ pid flags,
    w.sys.reply me pid flags = .echild ↔ ¬ ∃ i, w.ChildOf me i ∧ w.sys.Matches me pid i
  /-- nobody sleeps whose child has ended -/
  awake : ∀ me pid flags, w.sys.kont me = .wait4 pid flags → ∀ i, w.ChildOf me i →
    w.sys.Matches me pid i → w.HasEnded i → (w.sys.proc me).state = .running

/-! ## The invariant -/

/-- Nobody sleeps in `wait4` who has a zombie to find. -/
def Attentive (s : Sys) : Prop :=
  ∀ me pid flags, s.kont me = .wait4 pid flags → (s.proc me).state = .running ∨
    (s.proc me).state = .interruptible ∧ ∀ i, s.Wanted me pid i → (s.proc i).state ≠ .zombie

/-- The numbers of the tasks. -/
structure Numbered (w : World) : Prop where
  used : ∀ i, w.birth i = none ↔ (w.sys.proc i).state = .unused
  lt_count : ∀ i b, w.birth i = some b → b < w.count
  unique : ∀ i j b, w.birth i = some b → w.birth j = some b → i = j
  once : (w.reports.map Report.child).Nodup
  reported : ∀ r ∈ w.reports, ∃ b < w.count, r.child = some b ∧ b ∈ w.ended ∧
    ∀ i, w.birth i ≠ some b
  kept : ∀ b < w.count, some b ∈ w.reports.map Report.child ∨ ∃ i, w.birth i = some b
  ended_lt : ∀ b ∈ w.ended, b < w.count
  ended_iff : ∀ i b, w.birth i = some b → (b ∈ w.ended ↔ (w.sys.proc i).state = .zombie)

/-- The parents of the tasks.  The first process may have ended, but nobody takes its slot. -/
structure Linked (w : World) : Prop where
  mother_eq : ∀ i, i ≠ idle → (w.sys.proc i).state ≠ .unused →
    w.mother i = w.birth (w.sys.proc i).parent
  parent_ne : ∀ i, i ≠ idle → (w.sys.proc i).state ≠ .unused → (w.sys.proc i).parent ≠ i
  parent_lives : ∀ i, i ≠ idle → (w.sys.proc i).state ≠ .unused →
    (w.sys.proc i).parent = init ∨ ¬ Dead (w.sys.proc (w.sys.proc i).parent).state
  idle_mother : w.mother idle = none
  no_mother : ∀ i, w.birth i = none → w.mother i = none
  to_parent : ∀ r ∈ w.reports, r.caller = r.mother
  idle_lives : ¬ Dead (w.sys.proc idle).state
  idle_parent : (w.sys.proc idle).parent = idle
  init_used : (w.sys.proc init).state ≠ .unused
  init_parent : (w.sys.proc init).parent = idle

/-- The invariant. -/
structure Sound (w : World) : Prop where
  alive : Alive w.sys
  idle_gone : w.sys.kont idle = .gone
  numbered : Numbered w
  linked : Linked w
  attentive : Attentive w.sys

variable {w : World} {s s' : Sys} {i me child : Slot} {pid : ℤ} {event : Event} {on : Slot → Prop}

/-- The children that `wait4` looks at are the children. -/
theorem Sound.wanted_iff (h : Sound w) (hme : (w.sys.proc me).state ≠ .unused) :
    w.sys.Wanted me pid i ↔ w.ChildOf me i ∧ w.sys.Matches me pid i := by
  have hborn : ∀ {j}, (w.sys.proc j).state ≠ .unused → (w.birth j).isSome = true := by
    intro j hused
    rw [Option.isSome_iff_ne_none, ne_eq, h.numbered.used]
    exact hused
  constructor
  · rintro ⟨hne, hused, hparent, hmatches⟩
    have hidle : i ≠ idle := by
      rintro rfl
      exact hne (h.linked.idle_parent.symm.trans hparent)
    refine ⟨⟨hne, hborn hused, hborn hme, ?_⟩, hmatches⟩
    rw [h.linked.mother_eq i hidle hused, hparent]
  · rintro ⟨⟨hne, hsome, hmother, heq⟩, hmatches⟩
    obtain ⟨b, hb⟩ := Option.isSome_iff_exists.mp hmother
    have hidle : i ≠ idle := by
      rintro rfl
      rw [h.linked.idle_mother, hb] at heq
      cases heq
    have hused : (w.sys.proc i).state ≠ .unused := by
      intro hunused
      rw [(h.numbered.used i).mpr hunused] at hsome
      cases hsome
    rw [h.linked.mother_eq i hidle hused, hb] at heq
    exact ⟨hne, hused, h.numbered.unique _ _ b heq hb, hmatches⟩

/-- The invariant gives the law. -/
theorem Sound.law (h : Sound w) : WaitLaw w where
  used := h.numbered.used
  once := h.numbered.once
  to_parent r hr := by
    obtain ⟨b, -, hchild, hended, -⟩ := h.numbered.reported r hr
    exact ⟨⟨b, hended, hchild⟩, h.linked.to_parent r hr⟩
  released_iff b hb := by
    constructor
    · intro hmem
      obtain ⟨r, hr, hchild⟩ := List.mem_map.mp hmem
      obtain ⟨b', -, hb', -, hgone⟩ := h.numbered.reported r hr
      obtain rfl : b' = b := Option.some.inj (hb'.symm.trans hchild)
      exact hgone
    · intro hgone
      rcases h.numbered.kept b hb with hmem | ⟨i, hi⟩
      · exact hmem
      · exact absurd hi (hgone i)
  echild me hlive pid flags := by
    rw [reply_echild_iff]
    refine not_congr (exists_congr fun i => ?_)
    exact h.wanted_iff fun hunused => hlive (.inl hunused)
  awake me pid flags hkont i hchild hmatches hended := by
    have hused : (w.sys.proc me).state ≠ .unused := fun hunused =>
      h.alive.not_dead (by rw [hkont]; simp) (.inl hunused)
    rcases h.attentive me pid flags hkont with hrunning | ⟨-, hnone⟩
    · exact hrunning
    · obtain ⟨b, hb, hbirth⟩ := hended
      refine absurd ((h.numbered.ended_iff i b hbirth).mp hb) (hnone i ?_)
      exact (h.wanted_iff hused).mpr ⟨hchild, hmatches⟩

/-! ## Steps that change no family -/

theorem state_iff {before after state : TaskState}
    (h : after = before ∨ ¬ Dead after ∧ ¬ Dead before) (hdead : Dead state) :
    after = state ↔ before = state := by
  rcases h with heq | ⟨hafter, hbefore⟩
  · rw [heq]
  · constructor
    · rintro rfl
      exact absurd hdead hafter
    · rintro rfl
      exact absurd hdead hbefore

/-- Among some slots nobody is born, ends or is released. -/
structure SteadyOn (on : Slot → Prop) (s s' : Sys) : Prop where
  family : ∀ i, on i → (s'.proc i).family = (s.proc i).family
  state : ∀ i, on i → (s'.proc i).state = (s.proc i).state ∨
    ¬ Dead (s'.proc i).state ∧ ¬ Dead (s.proc i).state

/-- Nobody is born, ends or is released. -/
abbrev Steady (s s' : Sys) : Prop := SteadyOn (fun _ => True) s s'

namespace SteadyOn

variable {on : Slot → Prop}

section

variable (h : SteadyOn on s s')

include h

theorem parent (hi : on i) : (s'.proc i).parent = (s.proc i).parent :=
  congrArg (·.1) (h.family i hi)

theorem unused_iff (hi : on i) : (s'.proc i).state = .unused ↔ (s.proc i).state = .unused :=
  state_iff (h.state i hi) (.inl rfl)

theorem zombie_iff (hi : on i) : (s'.proc i).state = .zombie ↔ (s.proc i).state = .zombie :=
  state_iff (h.state i hi) (.inr rfl)

theorem dead_iff (hi : on i) : Dead (s'.proc i).state ↔ Dead (s.proc i).state :=
  or_congr (h.unused_iff hi) (h.zombie_iff hi)

theorem wanted_iff (hme : on me) (hi : on i) : s'.Wanted me pid i ↔ s.Wanted me pid i := by
  have hpid : (s'.proc i).pid = (s.proc i).pid := congrArg (·.2.1) (h.family i hi)
  have hpgrp : ∀ j, on j → (s'.proc j).pgrp = (s.proc j).pgrp := fun j hj =>
    congrArg (·.2.2) (h.family j hj)
  unfold Sys.Wanted Sys.Matches
  rw [ne_eq (s'.proc i).state, h.unused_iff hi, h.parent hi, hpid, hpgrp i hi, hpgrp me hme]

end

/-- The current task may change its state, the others stay as they are. -/
theorem own (hkin : ∀ i, on i → i ≠ s.current → (s'.proc i).kin = (s.proc i).kin)
    (hfamily : (s'.proc s.current).family = (s.proc s.current).family)
    (hafter : ¬ Dead (s'.proc s.current).state) (hbefore : ¬ Dead (s.proc s.current).state) :
    SteadyOn on s s' where
  family i hi := by
    by_cases hself : i = s.current
    · subst hself
      exact hfamily
    · exact congrArg (fun k => (k.parent, k.pid, k.pgrp)) (hkin i hi hself)
  state i hi := by
    by_cases hself : i = s.current
    · subst hself
      exact .inr ⟨hafter, hbefore⟩
    · exact .inl (state_of_kin (hkin i hi hself))

theorem of_kin (h : ∀ i, on i → (s'.proc i).kin = (s.proc i).kin) : SteadyOn on s s' where
  family i hi := congrArg (fun k => (k.parent, k.pid, k.pgrp)) (h i hi)
  state i hi := .inl (state_of_kin (h i hi))

end SteadyOn

theorem Numbered.steady (h : Numbered w) (hsteady : Steady w.sys s') :
    Numbered { w with sys := s' } where
  used i := (h.used i).trans (hsteady.unused_iff trivial).symm
  lt_count := h.lt_count
  unique := h.unique
  once := h.once
  reported := h.reported
  kept := h.kept
  ended_lt := h.ended_lt
  ended_iff i b hb := (h.ended_iff i b hb).trans (hsteady.zombie_iff trivial).symm

/-- The parents when some slots are as before, and so are the parents of the tasks in them. -/
theorem Linked.steadyOn {w' : World} (h : Linked w) (hsteady : SteadyOn on w.sys w'.sys)
    (hidle : on idle) (hinit : on init)
    (hsame : ∀ i, on i → w'.birth i = w.birth i ∧ w'.mother i = w.mother i)
    (hparent : ∀ i, i ≠ idle → (w.sys.proc i).state ≠ .unused → on (w.sys.proc i).parent)
    (hnone : ∀ i, ¬ on i → w'.birth i = none → w'.mother i = none)
    (hoff : ∀ i, ¬ on i → (w'.sys.proc i).state ≠ .unused →
      w'.mother i = w'.birth (w'.sys.proc i).parent ∧ (w'.sys.proc i).parent ≠ i ∧
        ((w'.sys.proc i).parent = init ∨ ¬ Dead (w'.sys.proc (w'.sys.proc i).parent).state))
    (hreports : ∀ r ∈ w'.reports, r.caller = r.mother) : Linked w' := by
  have hused : ∀ i, i ≠ idle → (w'.sys.proc i).state ≠ .unused →
      w'.mother i = w'.birth (w'.sys.proc i).parent ∧ (w'.sys.proc i).parent ≠ i ∧
        ((w'.sys.proc i).parent = init ∨ ¬ Dead (w'.sys.proc (w'.sys.proc i).parent).state) := by
    intro i hi hused
    by_cases hon : on i
    · rw [ne_eq, hsteady.unused_iff hon] at hused
      have hthere := hparent i hi hused
      rw [hsteady.parent hon, (hsame i hon).2, (hsame _ hthere).1, hsteady.dead_iff hthere]
      exact ⟨h.mother_eq i hi hused, h.parent_ne i hi hused, h.parent_lives i hi hused⟩
    · exact hoff i hon hused
  refine ⟨fun i hi hu => (hused i hi hu).1, fun i hi hu => (hused i hi hu).2.1,
    fun i hi hu => (hused i hi hu).2.2, (hsame _ hidle).2.trans h.idle_mother, fun i hi => ?_, hreports,
    ?_, (hsteady.parent hidle).trans h.idle_parent, ?_, (hsteady.parent hinit).trans h.init_parent⟩
  · by_cases hon : on i
    · rw [(hsame i hon).1] at hi
      exact (hsame i hon).2.trans (h.no_mother i hi)
    · exact hnone i hon hi
  · rw [hsteady.dead_iff hidle]
    exact h.idle_lives
  · rw [ne_eq, hsteady.unused_iff hinit]
    exact h.init_used

/-- Who is in `wait4` was there before, and has been woken at most. -/
def Stays (s s' : Sys) : Prop :=
  ∀ me pid flags, s'.kont me = .wait4 pid flags → s.kont me = .wait4 pid flags ∧
    ((s'.proc me).state = (s.proc me).state ∨ (s'.proc me).state = .running)

theorem Attentive.steadyOn (h : Attentive s) (hsteady : SteadyOn on s s') (hstays : Stays s s')
    (hwaits : ∀ me pid flags, s'.kont me = .wait4 pid flags → on me)
    (hoff : ∀ i, ¬ on i → (s'.proc i).state ≠ .zombie) : Attentive s' := by
  intro me pid flags hkont
  obtain ⟨hbefore, hstate | hrunning⟩ := hstays me pid flags hkont
  · rw [hstate]
    refine (h me pid flags hbefore).imp_right fun hsleep => ⟨hsleep.1, fun i hwanted => ?_⟩
    by_cases hon : on i
    · rw [ne_eq, hsteady.zombie_iff hon]
      exact hsleep.2 i ((hsteady.wanted_iff (hwaits me pid flags hkont) hon).mp hwanted)
    · exact hoff i hon
  · exact .inl hrunning

theorem Attentive.steady (h : Attentive s) (hsteady : Steady s s') (hstays : Stays s s') :
    Attentive s' :=
  h.steadyOn hsteady hstays (fun _ _ _ _ => trivial) fun _ hoff => absurd trivial hoff

theorem Sound.steady (h : Sound w) (hsteady : Steady w.sys s') (halive : Alive s')
    (hgone : s'.kont idle = .gone) (hattentive : Attentive s') : Sound { w with sys := s' } := by
  refine ⟨halive, hgone, h.numbered.steady hsteady, ?_, hattentive⟩
  exact h.linked.steadyOn hsteady trivial trivial (fun _ _ => ⟨rfl, rfl⟩) (fun _ _ _ => trivial)
    (fun _ hoff => absurd trivial hoff) (fun _ hoff => absurd trivial hoff) h.linked.to_parent

end Shitix.Sched
