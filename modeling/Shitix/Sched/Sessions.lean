import Shitix.Sched.Table

/-!
# Process groups and sessions

All members of a process group should be of one session.  `setpgid` joins a task to a group of its
session or to the group with its own id, and `setsid` starts a session and a group with the id of
the task.  Neither asks whether others are in a group of that id, so a task that has left the group
it founded, and starts a session then, meets those who stayed.
-/

namespace Shitix.Sched.Session

open Function List

structure Ids where
  pid : ℤ
  pgrp : ℤ
  session : ℤ

/-- The tasks that are not `Unused`. -/
abbrev Table : Type := Slot → Option Ids

inductive Call where
  /-- with the slot and the id it finds -/
  | fork (child : Slot) (pid : ℤ)
  | setpgid (pid pgid : ℤ)
  | setsid

variable (tasks : Table)

/-- The task of an id. -/
def target (pid : ℤ) : Option (Slot × Ids) :=
  (finRange 64).findSome? fun i => ((tasks i).filter (·.pid = pid)).map (i, ·)

def setpgid (nr : Slot) (me : Ids) (pid pgid : ℤ) : Table :=
  let targetPid := if pid = 0 then me.pid else pid
  let newPgid := if pgid = 0 then targetPid else pgid
  match target tasks targetPid with
  | none => tasks
  | some (i, t) =>
    if i ≠ nr ∧ t.session ≠ me.session then tasks
    else if t.session = t.pid then tasks
    else if newPgid = targetPid ∨ ∃ j, ∃ u ∈ tasks j, u.session = t.session ∧ u.pgrp = newPgid then
      update tasks i (some { t with pgrp := newPgid })
    else tasks

def setsid (nr : Slot) (me : Ids) : Table :=
  if me.pgrp = me.pid then tasks else update tasks nr (some ⟨me.pid, me.pid, me.pid⟩)

/-- A call of a task. -/
def step (tasks : Table) (e : Slot × Call) : Except Stuck Table :=
  match tasks e.1, e.2 with
  | none, _ => .error .stuck
  | some me, .fork child pid =>
    if tasks child = none then .ok (update tasks child (some { me with pid := pid }))
    else .error .stuck
  | some me, .setpgid pid pgid => .ok (setpgid tasks e.1 me pid pgid)
  | some me, .setsid => .ok (setsid tasks e.1 me)

/-- Groups lie in sessions, and who leads a session leads a group. -/
structure OneSession : Prop where
  group : ∀ i j a b, tasks i = some a → tasks j = some b → a.pgrp = b.pgrp → a.session = b.session
  leader : ∀ i a, tasks i = some a → a.session = a.pid → a.pgrp = a.pid

/-- A call keeps groups in sessions. -/
def Keeps (e : Slot × Call) : Prop :=
  ∀ tasks', step tasks e = .ok tasks' → OneSession tasks'

/-- The other members of a group are of a session. -/
def Joins (nr : Slot) (group session : ℤ) : Prop :=
  ∀ j b, j ≠ nr → tasks j = some b → b.pgrp = group → b.session = session

/-- The condition on a call: a session does not get a leader from outside its group, and the group
that a task founds has no members in other sessions. -/
def Fits (e : Slot × Call) : Prop :=
  ∀ me, tasks e.1 = some me →
    match e.2 with
    | .fork child pid => tasks child = none → me.session = pid → me.pgrp = pid
    | .setpgid pid pgid =>
      let targetPid := if pid = 0 then me.pid else pid
      let newPgid := if pgid = 0 then targetPid else pgid
      ∀ i t, target tasks targetPid = some (i, t) → i = e.1 ∨ t.session = me.session →
        t.session ≠ t.pid → newPgid = targetPid → Joins tasks i newPgid t.session
    | .setsid => me.pgrp ≠ me.pid → Joins tasks e.1 me.pid me.pid

variable {tasks} (h : OneSession tasks)

include h

/-- One task gets other ids. -/
theorem OneSession.update_iff {nr : Slot} {new : Ids} :
    OneSession (update tasks nr (some new)) ↔
      Joins tasks nr new.pgrp new.session ∧ (new.session = new.pid → new.pgrp = new.pid) := by
  constructor
  · intro hnew
    refine ⟨fun j b hj hb hgroup => ?_, hnew.leader nr new (update_self ..)⟩
    exact hnew.group j nr b new ((update_of_ne hj ..).trans hb) (update_self ..) hgroup
  · rintro ⟨hjoins, hleader⟩
    -- either task may be the one that changes
    refine ⟨fun i j a b hi hj hgroup => ?_, fun i a hi => ?_⟩
    · rw [update_apply] at hi hj
      split_ifs at hi hj with hinr hjnr hjnr
      · rw [← Option.some.inj hi, ← Option.some.inj hj]
      · cases hi
        exact (hjoins j b hjnr hj hgroup.symm).symm
      · cases hj
        exact hjoins i a hinr hi hgroup
      · exact h.group i j a b hi hj hgroup
    · rw [update_apply] at hi
      split_ifs at hi
      · cases hi
        exact hleader
      · exact h.leader i a hi

theorem OneSession.step_iff (e : Slot × Call) : Keeps tasks e ↔ Fits tasks e := by
  obtain ⟨nr, call⟩ := e
  unfold Keeps step Fits
  cases hme : tasks nr with
  | none => simp
  | some me =>
    cases call with
    | fork child pid =>
      have hjoins : Joins tasks child me.pgrp me.session := fun j b _ hb hgroup =>
        h.group j nr b me hb hme hgroup
      by_cases hchild : tasks child = none <;> simp [hchild, h.update_iff, hjoins]
    | setpgid pid pgid =>
      simp only [setpgid, Except.ok.injEq, forall_eq', Option.some.injEq]
      generalize (if pid = 0 then me.pid else pid) = targetPid
      cases target tasks targetPid with
      | none => simp [h]
      | some found =>
        obtain ⟨i, t⟩ := found
        generalize (if pgid = 0 then targetPid else pgid) = newPgid
        simp only [Option.some.injEq, Prod.mk.injEq, and_imp, forall_apply_eq_imp_iff, forall_eq']
        split_ifs with hother hleads hvalid
        · simp [h, hother]
        · simp [h, hleads]
        · have hold : newPgid ≠ targetPid → Joins tasks i newPgid t.session := by
            intro hne k b _ hb hgroup
            obtain ⟨j, u, hu, hsession, hpgrp⟩ := hvalid.resolve_left hne
            exact (h.group k j b u hb hu (hgroup.trans hpgrp.symm)).trans hsession
          simp only [h.update_iff]
          tauto
        · simp_all
    | setsid => by_cases hleads : me.pgrp = me.pid <;> simp [setsid, hleads, h, h.update_iff]

/-- Groups lie in sessions after every call of a run exactly if every call meets the condition. -/
theorem oneSession_run_iff (calls : List (Slot × Call)) :
    Guarded step Keeps calls tasks ↔ Guarded step Fits calls tasks :=
  guarded_iff (fun _ e h => h.step_iff e) (fun _ _ tasks' _ _ hkeeps => hkeeps tasks') h
    (guarded_of_forall (fun _ _ _ => trivial) tasks : Guarded _ (fun _ _ => True) _ _)

omit h

/-- The idle task and the first process. -/
def boot : Table := fun i =>
  if i = idle then some ⟨0, 0, 0⟩ else if i = init then some ⟨1, 0, 0⟩ else none

theorem oneSession_boot : OneSession boot := by
  refine ⟨fun i j a b hi hj _ => ?_, fun i a hi => ?_⟩
  · unfold boot at hi hj
    grind
  · unfold boot at hi
    grind

/-- `init` forks, and the child starts a session. -/
theorem oneSession_run_boot :
    Guarded step Keeps [(init, .fork 2 2), (2, .setsid)] boot := by
  refine (oneSession_run_iff oneSession_boot _).mpr ⟨fun me hme _ hsession => ?_, fun tasks h => ?_⟩
  · cases hme
    exact absurd hsession (by decide)
  · cases h
    refine ⟨fun me hme _ => ?_, fun _ _ => trivial⟩
    cases hme
    intro j b hj hb hgroup
    rw [update_of_ne hj] at hb
    unfold boot at hb
    split_ifs at hb <;> cases hb <;> exact absurd hgroup (by decide)

set_option maxRecDepth 2000 in
/-- Process 2 founds a group, has a child in it, goes back to group 1 and starts a session, whose
group is that of the child. -/
theorem setsid_splits_group :
    ∃ tasks, run step [(init, .setpgid 0 0), (init, .fork 2 2), (2, .setpgid 0 0), (2, .fork 3 3),
        (2, .setpgid 0 1), (2, .setsid)] boot = .ok tasks ∧
      tasks 2 = some ⟨2, 2, 2⟩ ∧ tasks 3 = some ⟨3, 2, 0⟩ ∧ ¬ OneSession tasks :=
  ⟨_, rfl, rfl, rfl, fun h => absurd (h.group 2 3 _ _ rfl rfl rfl) (by decide)⟩

end Shitix.Sched.Session
