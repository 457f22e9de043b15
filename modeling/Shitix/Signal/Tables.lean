import Shitix.Lib.Run
import Shitix.Sched.Task

/-!
# Whose actions a table has

`SIGACTION_TABLES` of `signal.rs` names for every task the page its actions are in.
`CLONE_SIGHAND` gives a child the page of its parent, and no page has a count: `release` returns it
whoever else uses it (`shared_table_freed`), and `execve` leaves the table as it is.  `fork` asks for
`CLONE_SIGHAND` in `flags`, which by then is the processor's flags, where the bit is the overflow
flag; the kernel's entries clear it, but for this model it may be set.

A step is a call that comes through, with the page that `get_free_page` would find.  Pages with
another purpose are left out.
-/

namespace Shitix.Signal

open Function Sched

/-- What a slot holds. -/
inductive Life where
  | unused | live | zombie
deriving DecidableEq

structure Tables where
  /-- `SIGACTION_TABLES` -/
  table : Slot → Option ℕ
  page : ℕ → ℕ → Action
  /-- the pages that are not free -/
  held : ℕ → Bool
  life : Slot → Life
  /-- the processes that are to share their actions -/
  group : Slot → ℕ
  /-- the groups so far -/
  groups : ℕ

namespace Tables

variable {s : Tables} {t u parent child : Slot} {p : ℕ} {free : Option ℕ} {call : Call}

def getTaskSignal (s : Tables) (t : Slot) (signum : ℕ) : Action :=
  if Task.nrSigactions ≤ signum then .default
  else
    match s.table t with
    | none => .default
    | some p => s.page p signum

/-- A task's table is in a page with these actions. -/
def put (s : Tables) (t : Slot) (p : ℕ) (actions : ℕ → Action) : Tables :=
  { s with
    table := update s.table t (some p)
    page := update s.page p actions
    held := update s.held p true }

def tablePtrOrAlloc (s : Tables) (t : Slot) (free : Option ℕ) : Option ℕ × Tables :=
  match s.table t with
  | some p => (some p, s)
  | none =>
    match free with
    | none => (none, s)
    | some p => (some p, s.put t p fun _ => .default)

def setTaskSignal (s : Tables) (t : Slot) (signum : ℕ) (action : Action) (free : Option ℕ) : Tables :=
  if Task.nrSigactions ≤ signum then s
  else
    match s.tablePtrOrAlloc t free with
    | (none, s) => s
    | (some p, s) => { s with page := update s.page p (update (s.page p) signum action) }

/-- `rt_sigaction` with a new action -/
def rtSigaction (s : Tables) (t : Slot) (signum : ℕ) (act : Action) (free : Option ℕ) : Tables :=
  if signum = 0 ∨ 31 < signum then s else s.setTaskSignal t signum act free

def resetSigactions (s : Tables) (t : Slot) : Tables :=
  match s.table t with
  | none => s
  | some p => { s with table := update s.table t none, held := update s.held p false }

def shareSigactions (s : Tables) (parent child : Slot) : Tables :=
  if parent = child then s else { s with table := update s.table child (s.table parent) }

def cloneSigactions (s : Tables) (parent child : Slot) (free : Option ℕ) : Tables :=
  if parent = child then s
  else
    match s.table parent with
    | none => { s with table := update s.table child none }
    | some src =>
      match s.tablePtrOrAlloc child free with
      | (none, s) => s
      | (some dst, s) => { s with page := update s.page dst (s.page src) }

def cloneSighand : Word := 0x800

/-- The end of `fork` and of `clone`. -/
def inherit (s : Tables) (parent child : Slot) (flags : Word) (free : Option ℕ) : Tables :=
  if flags &&& cloneSighand ≠ 0 then s.shareSigactions parent child
  else s.cloneSigactions parent child free

/-- A child starts. -/
def born (s : Tables) (child : Slot) (group : ℕ) : Tables :=
  { s with
    life := update s.life child .live
    group := update s.group child group
    groups := s.groups + 1 }

inductive Call where
  | fork (parent child : Slot) (rflags : Word) (free : Option ℕ)
  | clone (parent child : Slot) (flags : Word) (free : Option ℕ)
  | rtSigaction (t : Slot) (signum : ℕ) (act : Action) (free : Option ℕ)
  | execve (t : Slot)
  | exit (t : Slot)
  | release (t : Slot)

/-- What `get_free_page` finds is free. -/
def Finds (s : Tables) (free : Option ℕ) : Prop := ∀ p ∈ free, s.held p = false

/-- The call can be made. -/
def Able (s : Tables) : Call → Prop
  | .fork parent child _ free | .clone parent child _ free =>
    s.life parent = .live ∧ s.life child = .unused ∧ s.Finds free
  | .rtSigaction t _ _ free => s.life t = .live ∧ s.Finds free
  | .execve t | .exit t => s.life t = .live
  | .release t => s.life t = .zombie

instance : Decidable (s.Finds free) := inferInstanceAs (Decidable (∀ p ∈ free, s.held p = false))

instance : DecidablePred s.Able
  | .fork .. | .clone .. | .rtSigaction .. => inferInstanceAs (Decidable (_ ∧ _))
  | .execve .. | .exit .. | .release .. => inferInstanceAs (Decidable (_ = _))

/-- What a call makes of the tables. -/
def after (s : Tables) : Call → Tables
  | .fork parent child rflags free => (s.born child s.groups).inherit parent child rflags free
  | .clone parent child flags free =>
    (s.born child (if flags &&& cloneSighand ≠ 0 then s.group parent else s.groups)).inherit
      parent child flags free
  | .rtSigaction t signum act free => s.rtSigaction t signum act free
  | .execve _ => s
  | .exit t => { s with life := update s.life t .zombie }
  | .release t => { s.resetSigactions t with life := update s.life t .unused }

def step (s : Tables) (call : Call) : Except Unit Tables :=
  if s.Able call then .ok (s.after call) else .error ()

/-- No task has a table. -/
def boot : Tables :=
  ⟨fun _ => none, fun _ _ => .default, fun _ => false,
    update (fun _ => .unused) idle .live, fun _ => 0, 1⟩

/-- A change of an action shows in no process that is not to share it. -/
def Private (s : Tables) : Prop :=
  ∀ t u, s.life t = .live → s.group t ≠ s.group u → ∀ signum act free, s.Finds free →
    (s.rtSigaction t signum act free).getTaskSignal u = s.getTaskSignal u

/-- A page is held as long as it is the table of a task. -/
def Lives (s : Tables) : Prop := ∀ p, s.held p = true ↔ ∃ t, s.table t = some p

/-- A task has no handler of its own. -/
def NoHandler (s : Tables) (t : Slot) : Prop :=
  ∀ signum entry, (s.getTaskSignal t signum).handler ≠ .user entry

/-- What a call is to leave. -/
def Obeys (s : Tables) (call : Call) : Prop :=
  s.Able call → (s.after call).Private ∧ (s.after call).Lives ∧
    ∀ t, call = .execve t → (s.after call).NoHandler t

/-- `fork` without the overflow flag or without a table to share, the table of a task that no
other uses, an `execve` without handlers. -/
def Fits (s : Tables) (call : Call) : Prop :=
  s.Able call →
    match call with
    | .fork parent _ rflags _ => rflags &&& cloneSighand = 0 ∨ s.table parent = none
    | .release t => ∀ u p, s.table t = some p → s.table u = some p → u = t
    | .execve t => s.NoHandler t
    | _ => True

/-! ## What the tables keep -/

/-- Tables in order. -/
structure Inv (s : Tables) : Prop where
  shared : ∀ t u p, s.table t = some p → s.table u = some p → s.group t = s.group u
  lives : s.Lives
  unused : ∀ t, s.life t = .unused → s.table t = none
  fresh : ∀ t, s.group t < s.groups

/-- One task has another table. -/
theorem Inv.retable {target : Option ℕ} {page : ℕ → ℕ → Action} {held : ℕ → Bool} (h : Inv s)
    (hunused : s.life t = .unused → target = none)
    (hshared : ∀ u p, u ≠ t → s.table u = some p → target = some p → s.group u = s.group t)
    (hheld : ∀ p, held p = true ↔ target = some p ∨ ∃ u, u ≠ t ∧ s.table u = some p) :
    Inv { s with table := update s.table t target, page := page, held := held } := by
  have htable : ∀ u p, update s.table t target u = some p ↔
      u = t ∧ target = some p ∨ u ≠ t ∧ s.table u = some p := by
    intro u p
    rw [update_apply]
    split_ifs with heq <;> simp [heq]
  refine ⟨fun u w p hu hw => ?_, fun p => ?_, fun u hu => ?_, h.fresh⟩
  · obtain ⟨rfl, htarget⟩ | ⟨hne, hold⟩ := (htable u p).mp hu
    · obtain ⟨rfl, -⟩ | ⟨hne, hold⟩ := (htable w p).mp hw
      · rfl
      · exact (hshared w p hne hold htarget).symm
    · obtain ⟨rfl, htarget⟩ | ⟨-, hold'⟩ := (htable w p).mp hw
      · exact hshared u p hne hold htarget
      · exact h.shared u w p hold hold'
  · refine (hheld p).trans ?_
    simp [htable, exists_or]
  · dsimp only
    rw [update_apply]
    split_ifs with heq
    · exact hunused (heq ▸ hu)
    · exact h.unused u hu

/-- A page that a task can have its table in. -/
def Own (s : Tables) (t : Slot) (p : ℕ) : Prop :=
  s.table t = some p ∨ s.table t = none ∧ s.held p = false

theorem Inv.own (h : Inv s) (hown : s.Own t p) (hu : s.table u = some p) : s.table t = some p := by
  refine hown.resolve_right fun hnew => ?_
  rw [(h.lives p).mpr ⟨u, hu⟩] at hnew
  cases hnew.2

theorem Inv.put (h : Inv s) (hlife : s.life t = .live) (hown : s.Own t p) (actions : ℕ → Action) :
    Inv (s.put t p actions) := by
  refine h.retable (fun hunused => ?_) (fun u q _ hu hq => ?_) fun q => ?_
  · cases hlife.symm.trans hunused
  · cases hq
    exact h.shared u t p hu (h.own hown hu)
  by_cases hq : p = q
  · subst hq
    exact iff_of_true (update_self ..) (.inl rfl)
  · rw [update_of_ne (symm hq), h.lives, or_iff_right (mt Option.some.inj hq)]
    refine exists_congr fun u => ⟨fun hu => ⟨?_, hu⟩, And.right⟩
    rintro rfl
    obtain hown | hown := hown
    · exact hq (Option.some.inj (hown.symm.trans hu))
    · cases hown.1.symm.trans hu

/-- The page that a call writes to. -/
theorem tablePtrOrAlloc_spec (h : Inv s) (hfree : s.Finds free) (t : Slot) :
    s.tablePtrOrAlloc t free = (none, s) ∨ ∃ p actions, s.Own t p ∧
      s.tablePtrOrAlloc t free = (some p, s.put t p actions) := by
  unfold tablePtrOrAlloc
  cases htable : s.table t with
  | some p =>
    refine .inr ⟨p, s.page p, .inl htable, ?_⟩
    have hheld := (h.lives p).mpr ⟨t, htable⟩
    dsimp only [put]
    rw [← htable, ← hheld, update_eq_self, update_eq_self, update_eq_self]
  | none =>
    cases free with
    | none => exact .inl rfl
    | some p => exact .inr ⟨p, _, .inr ⟨htable, hfree p rfl⟩, rfl⟩

theorem put_write {actions actions' : ℕ → Action} :
    { s.put t p actions with page := update (s.put t p actions).page p actions' } =
      s.put t p actions' := by
  dsimp only [put]
  rw [update_idem]

/-- `rt_sigaction` writes to the table of the caller, or to a new one. -/
theorem rtSigaction_spec (h : Inv s) (hfree : s.Finds free) (t : Slot) (signum : ℕ) (act : Action) :
    s.rtSigaction t signum act free = s ∨ ∃ p actions, s.Own t p ∧
      s.rtSigaction t signum act free = s.put t p actions := by
  unfold rtSigaction setTaskSignal
  split_ifs
  · exact .inl rfl
  · exact .inl rfl
  obtain heq | ⟨p, actions, hown, heq⟩ := tablePtrOrAlloc_spec h hfree t
  · exact .inl (by rw [heq])
  · rw [heq]
    exact .inr ⟨p, _, hown, put_write⟩

theorem Inv.private (h : Inv s) : s.Private := by
  intro t u _ hgroup signum act free hfree
  obtain heq | ⟨p, actions, hown, heq⟩ := rtSigaction_spec h hfree t signum act
  · rw [heq]
  have hne : u ≠ t := fun hut => hgroup (by rw [hut])
  have hu : (s.put t p actions).table u = s.table u := update_of_ne hne ..
  funext sig
  simp only [heq, getTaskSignal, hu]
  cases hq : s.table u with
  | none => rfl
  | some q =>
    have hpage : (s.put t p actions).page q = s.page q := by
      refine update_of_ne ?_ ..
      rintro rfl
      exact hgroup (h.shared t u q (h.own hown hq) hq)
    simp [hpage]

/-- Two processes with one table see the changes of each other. -/
theorem Private.table_ne (h : s.Private) (hlive : s.life t = .live) (hgroup : s.group t ≠ s.group u)
    (ht : s.table t = some p) : s.table u ≠ some p := by
  intro hu
  have hsame := congrFun (h t u hlive hgroup 1 ⟨.dfl, (s.page p 1).flags + 1⟩ none nofun) 1
  have hflags := congrArg Action.flags hsame
  simp [rtSigaction, setTaskSignal, tablePtrOrAlloc, getTaskSignal, ht, hu, Task.nrSigactions] at hflags

/-! ## The calls -/

section

variable (h : Inv s)

include h

theorem Inv.born (hchild : s.life child = .unused) {group : ℕ} (hgroup : group ≤ s.groups) :
    Inv (s.born child group) := by
  have hother : ∀ u p, s.table u = some p → u ≠ child := by
    rintro u p hu rfl
    cases (h.unused u hchild).symm.trans hu
  refine ⟨fun u w p hu hw => ?_, h.lives, fun u hu => ?_, fun u => ?_⟩
  · dsimp only [Tables.born] at hu hw ⊢
    rw [update_of_ne (hother u p hu), update_of_ne (hother w p hw)]
    exact h.shared u w p hu hw
  · refine h.unused u ?_
    by_cases heq : u = child
    · rw [heq, hchild]
    · exact (update_of_ne heq ..).symm.trans hu
  · have hfresh := h.fresh u
    dsimp only [Tables.born]
    rw [update_apply]
    split_ifs <;> omega

/-- A child without a table gets its own, or that of a parent in its group. -/
theorem Inv.inherit {flags : Word} (hlive : s.life child = .live) (hnone : s.table child = none)
    (hfree : s.Finds free)
    (hshare : flags &&& cloneSighand ≠ 0 → s.table parent = none ∨ s.group parent = s.group child) :
    Inv (s.inherit parent child flags free) := by
  unfold Tables.inherit shareSigactions cloneSigactions
  split_ifs with hflags heq heq
  · exact h
  · refine h.retable (fun hunused => ?_) (fun u p _ hu hp => ?_) fun p => ?_
    · cases hlive.symm.trans hunused
    · obtain hparent | hgroup := hshare hflags
      · cases hparent.symm.trans hp
      · exact (h.shared u parent p hu hp).trans hgroup
    · refine (h.lives p).trans ⟨fun ⟨u, hu⟩ => .inr ⟨u, ?_, hu⟩, ?_⟩
      · rintro rfl
        cases hnone.symm.trans hu
      · rintro (hp | ⟨u, -, hu⟩)
        · exact ⟨parent, hp⟩
        · exact ⟨u, hu⟩
  · exact h
  · cases s.table parent with
    | none =>
      dsimp only
      rwa [← hnone, update_eq_self]
    | some src =>
      obtain hput | ⟨p, actions, hown, hput⟩ := tablePtrOrAlloc_spec h hfree child
      · rwa [hput]
      · rw [hput]
        dsimp only
        rw [put_write]
        exact h.put hlive hown _

theorem Inv.reset (hsole : ∀ u p, s.table t = some p → s.table u = some p → u = t) :
    Inv (s.resetSigactions t) ∧ (s.resetSigactions t).table t = none ∧
      (s.resetSigactions t).life = s.life := by
  unfold resetSigactions
  cases ht : s.table t with
  | none => exact ⟨h, ht, rfl⟩
  | some p =>
    refine ⟨h.retable (fun _ => rfl) (fun _ _ _ _ hnone => nomatch hnone)
      fun q => ?_, update_self .., rfl⟩
    rw [or_iff_right nofun, update_apply]
    split_ifs with hq
    · refine iff_of_false nofun ?_
      rintro ⟨u, hne, hu⟩
      exact hne (hsole u p ht (hq ▸ hu))
    · rw [h.lives]
      refine exists_congr fun u => ⟨fun hu => ⟨?_, hu⟩, And.right⟩
      rintro rfl
      exact hq (Option.some.inj (hu.symm.trans ht))

theorem Inv.relife {life : Life} (hlife : life = .unused → s.table t = none) :
    Inv { s with life := update s.life t life } := by
  refine { h with unused := fun u hu => ?_ }
  dsimp only at hu
  rw [update_apply] at hu
  split_ifs at hu with heq
  · exact heq ▸ hlife hu
  · exact h.unused u hu

theorem Inv.after (hable : s.Able call) (hfits : s.Fits call) : Inv (s.after call) := by
  replace hfits := hfits hable
  cases call with
  | fork parent child rflags free =>
    obtain ⟨hlive, hchild, hfree⟩ := hable
    refine (h.born hchild le_rfl).inherit (update_self ..) (h.unused child hchild)
      hfree fun hflags => ?_
    exact .inl (hfits.resolve_left hflags)
  | clone parent child flags free =>
    obtain ⟨hlive, hchild, hfree⟩ := hable
    have hne : parent ≠ child := by
      rintro rfl
      cases hlive.symm.trans hchild
    refine (h.born hchild ?_).inherit (update_self ..) (h.unused child hchild)
      hfree fun hflags => .inr ?_
    · split_ifs
      · exact (h.fresh parent).le
      · exact le_rfl
    · dsimp only [Tables.born]
      rw [update_self, update_of_ne hne, if_pos hflags]
  | rtSigaction t signum act free =>
    obtain heq | ⟨p, actions, hown, heq⟩ := rtSigaction_spec h hable.2 t signum act
    · exact heq.symm.subst h
    · exact heq.symm.subst (h.put hable.1 hown actions)
  | execve t => exact h
  | exit t => exact h.relife nofun
  | release t =>
    obtain ⟨hreset, hnone, hlife⟩ := h.reset hfits
    rw [after, ← hlife]
    exact hreset.relife fun _ => hnone

/-- The calls that do as they should. -/
theorem fits_iff_obeys : s.Fits call ↔ s.Obeys call := by
  refine ⟨fun hfits hable => ?_, fun hobeys hable => ?_⟩
  · have hafter := h.after hable hfits
    refine ⟨hafter.private, hafter.lives, ?_⟩
    rintro t rfl
    exact hfits hable
  obtain ⟨hprivate, hlives, hhandler⟩ := hobeys hable
  cases call with
  | fork parent child rflags free =>
    obtain ⟨hlive, hchild, hfree⟩ := hable
    have hne : parent ≠ child := by
      rintro rfl
      cases hlive.symm.trans hchild
    refine or_iff_not_imp_left.mpr fun hflags => ?_
    have hinherit : s.after (.fork parent child rflags free) =
        { s.born child s.groups with table := update s.table child (s.table parent) } := by
      simp only [after, inherit, shareSigactions, if_neg hne, if_pos hflags, Tables.born]
    rw [hinherit] at hprivate
    by_contra hsome
    obtain ⟨p, hp⟩ := Option.ne_none_iff_exists'.mp hsome
    refine hprivate.table_ne ?_ ?_ ((update_of_ne hne ..).trans hp)
      ((update_self ..).trans hp)
    · exact (update_of_ne hne ..).trans hlive
    · dsimp only [Tables.born]
      rw [update_self, update_of_ne hne]
      exact (h.fresh parent).ne
  | release t =>
    intro u p ht hu
    by_contra hne
    have hheld := (hlives p).mpr ⟨u, ?_⟩
    · simp [after, resetSigactions, ht] at hheld
    · simp [after, resetSigactions, ht, update_of_ne hne, hu]
  | execve t => exact hhandler t rfl
  | clone | rtSigaction | exit => trivial

end

/-- The tables are private, and there as long as they are used, in just the runs whose calls fit. -/
theorem tables_private_iff (calls : List Call) :
    Guarded step Obeys calls boot ↔ Guarded step Fits calls boot := by
  have hboot : Inv boot :=
    { shared := nofun
      lives := fun p => ⟨nofun, nofun⟩
      unused := fun _ _ => rfl
      fresh := fun _ => Nat.one_pos }
  refine (guarded_iff (fun s call (hinv : Inv s) => fits_iff_obeys hinv)
    (fun s call s' hinv (_ : True) hfits hstep => ?_) hboot
      (guarded_of_forall (fun _ _ _ => trivial) _)).symm
  unfold step at hstep
  split_ifs at hstep with hable
  cases hstep
  exact hinv.after hable hfits

/-- The table of a task is freed when a task that shared it is released. -/
theorem shared_table_freed : ∃ s,
    run step [.fork 0 1 0 none, .rtSigaction 1 2 ⟨.user 5, 0⟩ (some 7), .clone 1 2 0x800 none, .exit 2,
      .release 2] boot = .ok s ∧
    s.life 1 = .live ∧ s.table 1 = some 7 ∧ s.held 7 = false ∧ ¬ s.Lives := by
  obtain ⟨s, hrun, hlive, htable, hheld⟩ := exists_of_endsIn
    (p := fun s : Tables => s.life 1 = .live ∧ s.table 1 = some 7 ∧ s.held 7 = false)
    (show endsIn _ (run step [.fork 0 1 0 none, .rtSigaction 1 2 ⟨.user 5, 0⟩ (some 7),
      .clone 1 2 0x800 none, .exit 2, .release 2] boot) = true by decide)
  refine ⟨s, hrun, hlive, htable, hheld, fun hlives => ?_⟩
  rw [(hlives 7).mpr ⟨1, htable⟩] at hheld
  cases hheld

end Tables

end Shitix.Signal
