import Shitix.Lib.DoublyLinked
import Shitix.Sched.Effects

/-!
# The ring of tasks

The tasks in use are linked in a ring that `schedule` follows from the idle task.  Those that create
tasks link the new one behind the task that calls; a thread that ends takes itself out, and a
process is taken out when its parent has waited for it.

Two calls break the ring.  A `fork` that cannot copy the address space leaves its slot running and
not linked, and a task that was created by `vfork` sets its parent running when it ends, even if
the slot of the parent is no longer used.
-/

namespace Shitix.Sched

open Signal Sys List Cycle

variable {s s' : Sys} {i j child : Slot}

def Sys.kernelThread (s : Sys) (stack : Bool) (priority : ℤ) : Sys :=
  let s := { s with lastPid := s.lastPid + 1 }
  match s.freeSlot with
  | none => s
  | some nr =>
    if stack = false then s
    else
      (s.modify nr fun _ =>
        { Proc.empty with
          state := .running, priority := priority, counter := priority, pid := s.lastPid
          parent := s.current }).link s.current nr

/-- `do_kthread_exit`, up to its `schedule` -/
def Sys.kthreadExit (s : Sys) (code : ℕ) : Sys :=
  let nr := s.current
  ((s.modify nr fun p => { p with exitCode := code }).unlink nr).modify nr
    fun p => { p with state := .unused }

/-- What changes the ring. -/
inductive RingCall where
  | kernelThread (stack : Bool) (priority : ℤ)
  | fork (stack space : Bool)
  | clone (flags : CloneFlags) (stack : Bool)
  | kthreadExit (code : ℕ)
  | exit (code : ℕ)
  /-- by `wait4` -/
  | release (child : Slot)

def Sys.ringCall (s : Sys) : RingCall → Sys
  | .kernelThread stack priority => s.kernelThread stack priority
  | .fork stack space => s.fork stack space
  | .clone flags stack => s.clone flags stack
  | .kthreadExit code => s.kthreadExit code
  | .exit code => s.doExit code
  | .release child => s.release child

/-- The idle task does not end, and a parent releases zombies. -/
def RingCall.Made (s : Sys) : RingCall → Prop
  | .kthreadExit _ => s.current ≠ idle
  | .exit _ => s.current ≠ idle
  | .release child => child ≠ idle ∧ child ≠ s.current ∧ (s.proc child).state = .zombie
  | _ => True

instance (s : Sys) : DecidablePred (RingCall.Made s)
  | .kthreadExit _ => inferInstanceAs (Decidable (_ ≠ _))
  | .exit _ => inferInstanceAs (Decidable (_ ≠ _))
  | .release _ => inferInstanceAs (Decidable (_ ∧ _ ∧ _))
  | .kernelThread _ _ | .fork _ _ | .clone _ _ => .isTrue trivial

/-- A call of a task. -/
def Sys.ringStep (s : Sys) (e : Slot × RingCall) : Except Stuck Sys :=
  let s := { s with current := e.1 }
  if (s.proc e.1).state ≠ .unused ∧ RingCall.Made s e.2 then .ok (s.ringCall e.2) else .error .stuck

/-- From task 0 along `next` are all tasks in use, each of them once, and `prev` goes back. -/
def RunRing (s : Sys) : Prop :=
  ∃ ring : Cycle Slot, idle ∈ ring ∧ Ring (fun i => (s.proc i).next) (fun i => (s.proc i).prev) ring ∧
    ∀ i, i ∈ ring ↔ (s.proc i).state ≠ .unused

/-- What the ring knows of a task. -/
def Proc.links (p : Proc) : Slot × Slot × Bool := (p.next, p.prev, decide (p.state = .unused))

section Links

variable {p q : Proc} (h : p.links = q.links)

include h

theorem next_of_links : p.next = q.next := congrArg Prod.fst h

theorem prev_of_links : p.prev = q.prev := congrArg (·.2.1) h

theorem unused_of_links : p.state = .unused ↔ q.state = .unused :=
  decide_eq_decide.mp (congrArg (·.2.2) h)

end Links

theorem RunRing.congr (h : RunRing s) (hsame : ∀ i, (s'.proc i).links = (s.proc i).links) :
    RunRing s' := by
  obtain ⟨ring, hidle, hring, hmem⟩ := h
  refine ⟨ring, hidle, hring.congr (fun i _ => next_of_links (hsame i))
    fun i _ => prev_of_links (hsame i), fun i => ?_⟩
  rw [hmem, ne_eq, ne_eq, unused_of_links (hsame i)]

/-! ## Putting a task in -/

theorem link_next (s : Sys) (parent child i : Slot) : ((s.link parent child).proc i).next =
    if i = parent then child else if i = child then (s.proc parent).next else (s.proc i).next := by
  unfold link
  rw [modify_keeps (·.next) rfl, modify_proc]
  split_ifs with hparent hchild
  · rfl
  · rw [hchild, modify_proc, if_pos rfl]
  · rw [modify_proc, if_neg hchild]

theorem link_prev (s : Sys) (parent child i : Slot) : ((s.link parent child).proc i).prev =
    if i = (s.proc parent).next then child else if i = child then parent else (s.proc i).prev := by
  unfold link
  rw [modify_proc]
  split_ifs with hnext hchild
  · rfl
  · rw [hchild, modify_keeps (·.prev) rfl, modify_proc, if_pos rfl]
  · rw [modify_keeps (·.prev) rfl, modify_proc, if_neg hchild]

/-- A slot that is filled in and linked behind a task. -/
theorem RunRing.link {parent : Slot} (h : RunRing s) (hparent : (s.proc parent).state ≠ .unused)
    (hchild : (s.proc child).state = .unused) (hused : (s'.proc child).state ≠ .unused)
    (hsame : ∀ i, i ≠ child → (s'.proc i).links = (s.proc i).links) :
    RunRing (s'.link parent child) := by
  obtain ⟨ring, hidle, hring, hmem⟩ := h
  have hnotin : child ∉ ring := fun hin => (hmem child).mp hin hchild
  have hne : parent ≠ child := fun heq => hparent (heq ▸ hchild)
  have hin := (hmem parent).mpr hparent
  have hback : (s.proc (s.proc parent).next).prev = parent := hring.prev_next hin
  have hnext := next_of_links (hsame parent hne)
  obtain ⟨rest, rfl⟩ := Ring.exists_cons (hring.neighbours_mem hin).1
  have hother : ∀ other ∈ (s.proc parent).next :: rest, other ≠ child := by
    rintro other hother rfl
    exact hnotin (mem_coe_iff.mpr hother)
  refine ⟨_, ?_, hring.insert (fun hin => hnotin (mem_coe_iff.mpr hin)) ?_ ?_ ?_ ?_ ?_ ?_,
    fun i => ?_⟩
  · exact mem_coe_iff.mpr (mem_cons_of_mem _ (mem_coe_iff.mp hidle))
  · rw [link_next, if_neg hne.symm, if_pos rfl, hnext]
  · rw [link_prev, hnext, if_neg (hother _ mem_cons_self).symm, if_pos rfl, hback]
  · rw [hback, link_next, if_pos rfl]
  · rw [link_prev, hnext, if_pos rfl]
  · intro other hin hprev
    rw [hback] at hprev
    rw [link_next, if_neg hprev, if_neg (hother other hin),
      next_of_links (hsame other (hother other hin))]
  · intro other hin
    have hfirst : other ≠ (s.proc parent).next := by
      rintro rfl
      exact (nodup_cons.mp (nodup_coe_iff.mp hring.nodup)).1 hin
    have hne' := hother other (mem_cons_of_mem _ hin)
    rw [link_prev, hnext, if_neg hfirst, if_neg hne', prev_of_links (hsame other hne')]
  · rw [state_of_kin (link_kin s' parent child i), mem_coe_iff, mem_cons,
      ← mem_coe_iff, hmem]
    by_cases heq : i = child
    · rw [heq]
      exact iff_of_true (.inl rfl) hused
    · rw [or_iff_right heq, ne_eq, ne_eq, unused_of_links (hsame i heq)]

/-! ## Taking one out -/

theorem unlink_next (s : Sys) (i j : Slot) : ((s.unlink i).proc j).next =
    if j = (s.proc i).prev then (s.proc i).next else (s.proc j).next := by
  unfold unlink
  rw [modify_proc]
  split_ifs
  · rfl
  · rw [modify_keeps (·.next) rfl]

theorem unlink_prev (s : Sys) (i j : Slot) : ((s.unlink i).proc j).prev =
    if j = (s.proc i).next then (s.proc i).prev else (s.proc j).prev := by
  unfold unlink
  rw [modify_keeps (·.prev) rfl, modify_proc]
  split_ifs <;> rfl

theorem RunRing.unlink {f : Proc → Proc} (h : RunRing s) (hne : i ≠ idle)
    (hused : (s.proc i).state ≠ .unused) (hf : ∀ p, (f p).state = .unused) :
    RunRing ((s.unlink i).modify i f) := by
  obtain ⟨ring, hidle, hring, hmem⟩ := h
  obtain ⟨rest, rfl⟩ := Ring.exists_cons ((hmem i).mpr hused)
  have hnotin := (nodup_cons.mp (nodup_coe_iff.mp hring.nodup)).1
  have hidle : idle ∈ rest := mem_of_ne_of_mem hne.symm (mem_coe_iff.mp hidle)
  have hrest : rest ≠ [] := ne_nil_of_mem hidle
  obtain ⟨hnext, hprev⟩ := hring.neighbours_ne hrest
  have hother : ∀ other ∈ rest, ((s.unlink i).modify i f).proc other = (s.unlink i).proc other := by
    intro other hin
    rw [modify_proc, if_neg]
    rintro rfl
    exact hnotin hin
  refine ⟨(rest : Cycle Slot), mem_coe_iff.mpr hidle, hring.remove hrest ?_ ?_ ?_ ?_, fun j => ?_⟩
  · rw [hother _ hprev, unlink_next, if_pos rfl]
  · rw [hother _ hnext, unlink_prev, if_pos rfl]
  · intro other hin hprev
    rw [hother other hin, unlink_next, if_neg hprev]
  · intro other hin hnext
    rw [hother other hin, unlink_prev, if_neg hnext]
  · rw [mem_coe_iff, modify_proc]
    by_cases heq : j = i
    · rw [heq, if_pos rfl, hf]
      exact iff_of_false hnotin (not_not.mpr rfl)
    · rw [if_neg heq, state_of_kin (unlink_kin s i j), ← hmem j, mem_coe_iff, mem_cons,
        or_iff_right heq]

/-! ## A slot that is used and not linked -/

/-- If a slot comes into use and the links of those that were in use stay as they are, it is not on
the ring. -/
theorem RunRing.broken (h : RunRing s) (hunused : (s.proc i).state = .unused)
    (hused : (s'.proc i).state ≠ .unused)
    (hnext : ∀ j, (s.proc j).state ≠ .unused → (s'.proc j).next = (s.proc j).next) :
    ¬ RunRing s' := by
  obtain ⟨ring, hidle, hring, hmem⟩ := h
  rintro ⟨ring', hidle', hring', hmem'⟩
  -- from task 0 one does not leave the old ring
  have hin : ∀ j ∈ ring', j ∈ ring := by
    refine hring'.forall_of_next hidle' hidle fun j hj => ?_
    rw [hnext j ((hmem j).mp hj)]
    exact (hring.neighbours_mem hj).1
  exact (hmem i).mp (hin i ((hmem' i).mpr hused)) hunused

/-! ## Steps -/

/-- The condition on a call: a `fork` that gets a slot and a stack gets an address space, and the
parent of a `vfork` whose child ends is still there. -/
def RingCall.Fits (s : Sys) : RingCall → Prop
  | .fork stack space => s.freeSlot = none ∨ stack = false ∨ space = true
  | .exit _ =>
    (s.proc s.current).vforkParent = idle ∨
      (s.proc (s.proc s.current).vforkParent).state ≠ .unused
  | _ => True

/-- The condition on a call that is made. -/
def RingFits (s : Sys) (e : Slot × RingCall) : Prop :=
  let s := { s with current := e.1 }
  (s.proc e.1).state ≠ .unused ∧ RingCall.Made s e.2 → RingCall.Fits s e.2

theorem forkTask_links (hne : i ≠ child) :
    ((s.forkTask child).proc i).links = (s.proc i).links := by
  unfold forkTask
  rw [modify_keeps Proc.links rfl, allocatePid_of_ne hne, modify_proc, if_neg hne]

theorem cloneSigactions_links (s : Sys) (parent child i : Slot) :
    ((s.cloneSigactions parent child).proc i).links = (s.proc i).links := by
  unfold cloneSigactions
  rw [modify_keeps Proc.links rfl]

section

variable (h : RunRing s) (hcurrent : (s.proc s.current).state ≠ .unused)

include h hcurrent

theorem RunRing.fork (stack space : Bool) :
    RunRing (s.fork stack space) ↔ s.freeSlot = none ∨ stack = false ∨ space = true := by
  rcases fork_cases s stack space with ⟨hwhy, hrefused⟩ | ⟨child, hslot, rfl⟩
  · rw [hrefused]
    exact iff_of_true h (hwhy.imp_right .inl)
  · obtain ⟨-, hunused⟩ := freeSlot_spec hslot
    have hused : ((s.forkTask child).proc child).state ≠ .unused := by
      rw [(forkTask_child s child).1]
      decide
    cases space with
    | false =>
      rw [fork_half hslot]
      refine iff_of_false (h.broken hunused hused fun j hj => ?_) (by simp [hslot])
      exact next_of_links (forkTask_links fun heq => hj (heq ▸ hunused))
    | true =>
      rw [fork_eq hslot]
      refine iff_of_true ?_ (.inr (.inr rfl))
      refine h.link hcurrent hunused ?_ fun i hi =>
        (cloneSigactions_links _ _ _ i).trans (forkTask_links hi)
      rwa [state_of_kin (cloneSigactions_kin _ _ _ child)]

theorem RunRing.clone (flags : CloneFlags) (stack : Bool) : RunRing (s.clone flags stack) := by
  rcases clone_cases s flags stack with ⟨-, hrefused⟩ | ⟨child, hslot, rfl⟩
  · rw [hrefused]
    exact h
  · obtain ⟨-, hunused⟩ := freeSlot_spec hslot
    have hne : child ≠ s.current := fun heq => hcurrent (heq ▸ hunused)
    rw [clone_eq hslot]
    refine h.link hcurrent hunused ?_ fun i hi => (cloneSigactions_links _ _ _ i).trans ?_
    · rw [state_of_kin (cloneSigactions_kin _ _ _ child), (cloneTask_child flags hne).1]
      decide
    · unfold cloneTask
      rw [modify_proc]
      by_cases hself : i = s.current
      · subst hself
        rw [if_pos rfl, allocatePid_of_ne hi, modify_proc, if_neg hi]
        unfold Proc.links
        cases flags.vfork with
        | false => rfl
        | true => simp [hcurrent]
      · rw [if_neg hself, allocatePid_of_ne hi, modify_proc, if_neg hi]

theorem RunRing.kernelThread (stack : Bool) (priority : ℤ) : RunRing (s.kernelThread stack priority)
    := by
  unfold Sys.kernelThread
  dsimp only
  cases hslot : freeSlot { s with lastPid := s.lastPid + 1 } with
  | none => exact h
  | some nr =>
    split_ifs
    · exact h
    · refine h.link hcurrent (freeSlot_spec hslot).2 ?_ fun i hi => ?_
      · rw [modify_proc, if_pos rfl]
        exact TaskState.noConfusion
      · rw [modify_proc, if_neg hi]

/-- `do_exit` uses no slot and frees none, but for the parent of a `vfork`. -/
theorem RunRing.exit (code : ℕ) :
    RunRing (s.doExit code) ↔ (s.proc s.current).vforkParent = idle ∨
      (s.proc (s.proc s.current).vforkParent).state ≠ .unused := by
  have hnext := doExit_keeps (·.next) (fun _ _ _ _ => rfl) s code
  have hprev := doExit_keeps (·.prev) (fun _ _ _ _ => rfl) s code
  have hstate : ∀ i, ((s.doExit code).proc i).state = .unused ↔
      (s.proc i).state = .unused ∧
        ¬ ((s.proc s.current).vforkParent ≠ idle ∧ i = (s.proc s.current).vforkParent) := by
    intro i
    rw [doExit_state]
    by_cases hself : i = s.current
    · subst hself
      simp [hcurrent]
    · rw [wakeVforkParent_state]
      split_ifs <;> simp_all
  by_cases hfits : (s.proc s.current).vforkParent = idle ∨
      (s.proc (s.proc s.current).vforkParent).state ≠ .unused
  · refine iff_of_true (h.congr fun i => ?_) hfits
    unfold Proc.links
    rw [hnext, hprev]
    simp only [hstate]
    congr! 3
    refine and_iff_left_of_imp fun hunused hparent => ?_
    rcases hfits with hnone | hused
    · exact hparent.1 hnone
    · exact hused (hparent.2 ▸ hunused)
  · push Not at hfits
    refine iff_of_false (h.broken hfits.2 ?_ fun j _ => hnext j) (by simpa using hfits)
    rw [ne_eq, hstate]
    exact fun hstays => hstays.2 ⟨hfits.1, rfl⟩

end

theorem RunRing.ringCall {call : RingCall} (h : RunRing s)
    (hcurrent : (s.proc s.current).state ≠ .unused) (hmade : RingCall.Made s call) :
    RunRing (s.ringCall call) ↔ RingCall.Fits s call := by
  cases call with
  | kernelThread stack priority => exact iff_of_true (h.kernelThread hcurrent stack priority) trivial
  | fork stack space => exact h.fork hcurrent stack space
  | clone flags stack => exact iff_of_true (h.clone hcurrent flags stack) trivial
  | kthreadExit code =>
    have hcoded : RunRing (s.modify s.current fun p => { p with exitCode := code }) :=
      h.congr fun i => modify_keeps Proc.links rfl
    refine iff_of_true ?_ trivial
    have hstate : ((s.modify s.current fun p => { p with exitCode := code }).proc s.current).state ≠
        .unused := by
      rwa [modify_keeps (·.state) rfl]
    exact hcoded.unlink (f := fun p => { p with state := .unused }) hmade hstate fun _ => rfl
  | exit code => exact h.exit hcurrent code
  | release child =>
    obtain ⟨hidle, hself, hzombie⟩ := hmade
    have hused : (s.proc child).state ≠ .unused := by
      rw [hzombie]
      decide
    refine iff_of_true ?_ trivial
    change RunRing (s.release child)
    unfold release
    rw [if_neg (not_or.mpr ⟨hself, hused⟩)]
    exact h.unlink hidle hused fun _ => rfl

/-- The ring is as it should be after every call of a run exactly if every call meets the
condition. -/
theorem runRing_run_iff (h : RunRing s) (calls : List (Slot × RingCall)) :
    Guarded Sys.ringStep (fun s e => ∀ s', s.ringStep e = .ok s' → RunRing s') calls s ↔
      Guarded Sys.ringStep RingFits calls s := by
  have hstep : ∀ (s : Sys) (e : Slot × RingCall), RunRing s →
      ((∀ s', s.ringStep e = .ok s' → RunRing s') ↔ RingFits s e) := by
    intro s e hring
    unfold ringStep
    by_cases hmade : (s.proc e.1).state ≠ .unused ∧ RingCall.Made { s with current := e.1 } e.2
    · have hsame : RunRing { s with current := e.1 } := hring
      rw [if_pos hmade]
      simp only [Except.ok.injEq, forall_eq']
      rw [hsame.ringCall hmade.1 hmade.2]
      exact (imp_iff_right hmade).symm
    · rw [if_neg hmade]
      exact iff_of_true (fun s' hs' => by cases hs') fun h => absurd h hmade
  exact guarded_iff hstep (fun s e s' _ _ hkeeps => hkeeps s') h
    (guarded_of_forall (fun _ _ _ => trivial) s : Guarded _ (fun _ _ => True) _ _)

theorem runRing_boot : RunRing .boot := by
  refine ⟨([idle, init] : List Slot), by decide, ⟨?_, by decide⟩, by decide⟩
  rw [chain_coe_cons]
  unfold Linked
  decide

/-- `init` forks, starts a thread, and its child ends. -/
theorem runRing_run_boot :
    Guarded Sys.ringStep (fun s e => ∀ s', s.ringStep e = .ok s' → RunRing s')
      [(init, .fork true true), (init, .clone ⟨false, false, true⟩ true), (⟨2, by decide⟩, .exit 0)]
      .boot := by
  refine (runRing_run_iff runRing_boot _).mpr ⟨fun _ => .inr (.inr rfl), fun s hs => ?_⟩
  refine ⟨fun _ => trivial, fun s' hs' => ⟨fun _ => .inl ?_, fun _ _ => trivial⟩⟩
  cases hs
  cases hs'
  decide

/-- A `fork` without room for the address space: slot 2 is running and not on the ring. -/
theorem fork_leaves_unlinked :
    ∃ s', Sys.boot.ringStep (init, .fork true false) = .ok s' ∧ ¬ RunRing s' := by
  have hslot : boot.freeSlot = some ⟨2, by decide⟩ := by decide
  refine ⟨_, rfl, ?_⟩
  change ¬ RunRing (boot.fork true false)
  rw [runRing_boot.fork (by decide), hslot]
  simp

end Shitix.Sched
