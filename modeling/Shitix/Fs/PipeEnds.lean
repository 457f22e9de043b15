import Shitix.Fs.DescriptorLaw
import Shitix.Fs.Inheritance
import Shitix.Lib.RefCount

/-!
# The ends of pipes

`readers` and `writers` of a pipe should be the numbers of descriptors of its ends, and its page
should be freed when there are none (`Counted`).

`close`, `exit` and `fork` keep this.  Three things do not.  A table has 32 entries a task, and a
descriptor from 32 on is counted without being entered; that happens to the descriptors of `pipe`
and to copies.  A `pipe` that finds no two free descriptors leaves a pipe that has none.  And a copy
of an end with 255 descriptors is entered without being counted.  The counts are right as long as
nothing of the kind happens, and wrong from then on (`counted_run_iff`).
-/

namespace Shitix.Fd

open Function Option Fds List Prod Nat

/-- `readers` or `writers` -/
def Pipe.count (p : Pipe) : Dir → ℕ
  | .read => p.readers
  | .write => p.writers

namespace Fds

variable (s : Fds)

/-- The pipe descriptors of all tasks. -/
def pipeTable (place : Task × Fin 64) : Option (ℕ × Dir) := s.fdToPipe place.1 place.2

/-- The number of descriptors of an end. -/
def ends (i : ℕ) (dir : Dir) : ℕ := uses s.pipeTable (i, dir)

/-- What is counted of an end; nothing if there is no pipe. -/
def counted (i : ℕ) (dir : Dir) : ℕ := ((s.pipes i).map (Pipe.count · dir)).getD 0

end Fds

/-- The counts of the ends are right.  A reader of an empty pipe gets to its end if `writers` is 0,
and a writer gets `EPIPE` if `readers` is. -/
structure Counted (s : Fds) : Prop where
  count : ∀ i dir, s.counted i dir = s.ends i dir
  freed : ∀ i, s.pipes i = none ↔ ∀ dir, s.ends i dir = 0
  eof : ∀ i pipe, s.pipes i = some pipe →
    (pipe.writers = 0 ↔ ∀ t fd, s.fdToPipe t fd ≠ some (i, .write))
  epipe : ∀ i pipe, s.pipes i = some pipe →
    (pipe.readers = 0 ↔ ∀ t fd, s.fdToPipe t fd ≠ some (i, .read))

/-! ## One entry -/

variable {s s' s'' : Fds} {t parent : Task} {fd i newfd : ℕ} {dir : Dir} {pipe : Pipe}
  {p : Option Pipe} {P : Fds → Prop}

theorem fdToPipe_lt {entry : ℕ × Dir} (h : s.fdToPipe t fd = some entry) : fd < maxPipeFd := by
  unfold fdToPipe at h
  split_ifs at h with hlt
  exact hlt

theorem ends_pos_iff : 0 < s.ends i dir ↔ ∃ t fd, s.fdToPipe t fd = some (i, dir) := by
  unfold ends
  rw [uses_pos]
  constructor
  · rintro ⟨place, hplace⟩
    exact ⟨place.1, place.2, hplace⟩
  · rintro ⟨t, fd, hfd⟩
    have hlt : fd < 64 := (fdToPipe_lt hfd).trans (by decide)
    exact ⟨(t, ⟨fd, hlt⟩), hfd⟩

theorem ends_eq_zero_iff : s.ends i dir = 0 ↔ ∀ t fd, s.fdToPipe t fd ≠ some (i, dir) := by
  rw [← le_zero, ← not_lt, ends_pos_iff]
  simp

theorem counted_of_some (h : s.pipes i = some pipe) : s.counted i dir = pipe.count dir := by
  unfold counted
  rw [h]
  rfl

/-- The last two follow from the counts. -/
theorem counted_of (hcount : ∀ i dir, s.counted i dir = s.ends i dir)
    (hfreed : ∀ i, s.pipes i = none ↔ ∀ dir, s.ends i dir = 0) : Counted s where
  count := hcount
  freed := hfreed
  eof i pipe hpipe := by
    rw [← ends_eq_zero_iff, ← hcount, counted_of_some hpipe]
    exact Iff.rfl
  epipe i pipe hpipe := by
    rw [← ends_eq_zero_iff, ← hcount, counted_of_some hpipe]
    exact Iff.rfl

/-- A place of the table. -/
def placeOf (t : Task) (fd : ℕ) (h : fd < maxPipeFd) : Task × Fin 64 :=
  (t, ⟨fd, Nat.lt_trans h (by decide)⟩)

theorem pipeTable_setPipe (entry : Option (ℕ × Dir)) (hfd : fd < maxPipeFd) :
    (s.setPipe t fd entry).pipeTable = update s.pipeTable (placeOf t fd hfd) entry := by
  funext place
  unfold pipeTable setPipe
  rw [if_pos hfd]
  by_cases heq : place = placeOf t fd hfd
  · rw [heq]
    simp [fdToPipe, placeOf, hfd, setEntry_apply]
  · have hne : ¬ (place.1 = t ∧ (place.2 : ℕ) = fd) := fun hsame =>
      heq (Prod.ext hsame.1 (Fin.ext hsame.2))
    rw [update_of_ne heq]
    simp [fdToPipe, setEntry_apply, if_neg hne]

/-- A descriptor becomes one of an end. -/
theorem ends_bind (hfree : s.fdToPipe t fd = none) (i' : ℕ) (dir' : Dir) :
    (s.setPipe t fd (some (i, dir))).ends i' dir' =
      s.ends i' dir' + if fd < maxPipeFd ∧ (i', dir') = (i, dir) then 1 else 0 := by
  by_cases hfd : fd < maxPipeFd
  · have hnone : s.pipeTable (placeOf t fd hfd) = none := hfree
    unfold ends
    rw [pipeTable_setPipe _ hfd, uses_bind hnone]
    simp [hfd]
  · rw [setPipe, if_neg hfd, if_neg fun h => hfd h.1, add_zero]

/-- A descriptor of an end is closed. -/
theorem ends_unbind (hentry : s.fdToPipe t fd = some (i, dir)) (i' : ℕ) (dir' : Dir) :
    s.ends i' dir' =
      (s.setPipe t fd none).ends i' dir' + if (i', dir') = (i, dir) then 1 else 0 := by
  have hfd := fdToPipe_lt hentry
  unfold ends
  rw [pipeTable_setPipe _ hfd]
  exact uses_unbind (show s.pipeTable (placeOf t fd hfd) = _ from hentry) (i', dir')

/-! ## Calls that do not concern pipes -/

/-- The tables of pipes are the same. -/
def SamePipes (s s' : Fds) : Prop := s'.pipe = s.pipe ∧ s'.pipes = s.pipes

theorem SamePipes.refl (s : Fds) : SamePipes s s := ⟨rfl, rfl⟩

section

variable (h : SamePipes s s')

include h

theorem SamePipes.trans (h' : SamePipes s' s'') :
    SamePipes s s'' := ⟨h'.1.trans h.1, h'.2.trans h.2⟩

theorem SamePipes.fdToPipe (t : Task) (fd : ℕ) : s'.fdToPipe t fd = s.fdToPipe t fd := by
  unfold Fds.fdToPipe
  rw [h.1]

theorem SamePipes.ends (i : ℕ) (dir : Dir) : s'.ends i dir = s.ends i dir := by
  have htable : s'.pipeTable = s.pipeTable := funext fun place => h.fdToPipe place.1 place.2
  unfold Fds.ends
  rw [htable]

theorem SamePipes.counted (i : ℕ) (dir : Dir) : s'.counted i dir = s.counted i dir := by
  unfold Fds.counted
  rw [h.2]

end

theorem Counted.of_same (h : Counted s) (hsame : SamePipes s s') : Counted s' := by
  refine counted_of (fun i dir => ?_) fun i => ?_
  · rw [hsame.counted, hsame.ends, h.count]
  · simp only [hsame.ends, hsame.2]
    exact h.freed i

theorem samePipes_setCount (f count : ℕ) : SamePipes s (s.setCount f count) := ⟨rfl, rfl⟩

theorem samePipes_setFd (f : Option ℕ) : SamePipes s (s.setFd t fd f) := by
  unfold setFd
  split_ifs
  · exact ⟨rfl, rfl⟩
  · exact ⟨rfl, rfl⟩

theorem beside_tables : Beside fun s => ((s.filp, s.fCount), s.pipe, s.pipes) where
  sock s fd entry := by
    unfold setSock
    split_ifs <;> rfl
  used _ _ := rfl
  event s t fd entry := by
    unfold setEvent
    split_ifs <;> rfl

/-- The tables of pipes after a call on sockets or events. -/
theorem SamePipes.of_eq (h : ((s'.filp, s'.fCount), s'.pipe, s'.pipes) =
    ((s.filp, s.fCount), s.pipe, s.pipes)) : SamePipes s s' := mk.inj (mk.inj h).2

theorem samePipes_outer {c : Call} (hc : c.Outer) : SamePipes s (s.call t c).2 :=
  .of_eq (beside_tables.call s t hc)

theorem samePipes_putFilp (f : ℕ) : SamePipes s (s.putFilp f) := by
  unfold putFilp
  split_ifs
  · exact ⟨rfl, rfl⟩
  · exact ⟨rfl, rfl⟩

theorem samePipes_sysClose : SamePipes s (s.sysClose t fd).2 := by
  unfold sysClose
  cases s.fdToFilp t fd with
  | none => exact .refl s
  | some f => exact (samePipes_setFd none).trans (samePipes_putFilp f)

theorem samePipes_sysOpen (outcome : Except ℤ Unit) : SamePipes s (s.sysOpen t outcome).2 := by
  unfold sysOpen
  cases s.getUnusedFd t with
  | none => exact .refl s
  | some fd =>
    cases s.getEmptyFilp with
    | none => exact .refl s
    | some f =>
      have hbind : SamePipes s ((s.setCount f 1).setFd t fd (some f)) :=
        SamePipes.trans ⟨rfl, rfl⟩ (samePipes_setFd _)
      cases outcome with
      | error e => exact (hbind.trans (samePipes_setFd none)).trans ⟨rfl, rfl⟩
      | ok _ => exact hbind

/-! ## Closing -/

theorem Counted.some_of_entry (h : Counted s) (hentry : s.fdToPipe t fd = some (i, dir)) :
    ∃ pipe, s.pipes i = some pipe := by
  refine ne_none_iff_exists'.mp fun hnone => ?_
  have hpos : 0 < s.ends i dir := ends_pos_iff.mpr ⟨t, fd, hentry⟩
  have hzero := (h.freed i).mp hnone dir
  omega

theorem count_less (dir' : Dir) :
    (pipe.less dir).count dir' = pipe.count dir' - if dir' = dir then 1 else 0 := by
  cases dir <;> cases dir' <;> rfl

theorem count_more (dir' : Dir) :
    (pipe.more dir).count dir' =
      if dir' = dir then min 255 (pipe.count dir' + 1) else pipe.count dir' := by
  cases dir <;> cases dir' <;> rfl

@[simp] theorem pipes_setPipe (entry : Option (ℕ × Dir)) : (s.setPipe t fd entry).pipes = s.pipes := by
  unfold setPipe
  split_ifs
  · rfl
  · rfl

theorem pipes_putPipe (p : Option Pipe) : (s.putPipe i p).pipes = update s.pipes i p := rfl

theorem ends_putPipe (p : Option Pipe) (i' : ℕ) (dir' : Dir) :
    (s.putPipe i p).ends i' dir' = s.ends i' dir' := rfl

theorem counted_putPipe_self (p : Option Pipe) :
    (s.putPipe i p).counted i dir = (p.map (Pipe.count · dir)).getD 0 := by
  unfold counted
  rw [pipes_putPipe, update_self]

theorem counted_putPipe_of_ne {i' : ℕ} (hne : i' ≠ i) (p : Option Pipe) :
    (s.putPipe i p).counted i' dir = s.counted i' dir := by
  unfold counted
  rw [pipes_putPipe, update_of_ne hne]

/-- A pipe with new counts next to descriptors that go with them. -/
theorem Counted.replace (h : Counted s) (hpipes : s'.pipes = update s.pipes i p)
    (hothers : ∀ i' dir', i' ≠ i → s'.ends i' dir' = s.ends i' dir')
    (hcount : ∀ dir', (p.map (Pipe.count · dir')).getD 0 = s'.ends i dir')
    (hfreed : p = none ↔ ∀ dir', s'.ends i dir' = 0) : Counted s' := by
  refine counted_of (fun i' dir' => ?_) fun i' => ?_
  · unfold counted
    rw [hpipes]
    by_cases heq : i' = i
    · subst heq
      rw [update_self, hcount]
    · rw [update_of_ne heq, hothers i' dir' heq]
      exact h.count i' dir'
  · rw [hpipes]
    by_cases heq : i' = i
    · subst heq
      rw [update_self]
      exact hfreed
    · rw [update_of_ne heq, h.freed]
      simp [hothers i' _ heq]

theorem pipes_replace (entry : Option (ℕ × Dir)) (p : Option Pipe) :
    ((s.setPipe t fd entry).putPipe i p).pipes = update s.pipes i p := by
  rw [pipes_putPipe, pipes_setPipe]

theorem closeFd_eq (hentry : s.fdToPipe t fd = some (i, dir)) (hpipe : s.pipes i = some pipe) :
    s.closeFd t fd = (s.setPipe t fd none).putPipe i
      (if (pipe.less dir).readers = 0 ∧ (pipe.less dir).writers = 0 then none
        else some (pipe.less dir)) := by
  have hfd := fdToPipe_lt hentry
  simp only [closeFd, hentry, hpipe, setPipe, if_pos hfd]
  rfl

theorem Counted.closeFd (h : Counted s) (t : Task) (fd : ℕ) : Counted (s.closeFd t fd) := by
  cases hentry : s.fdToPipe t fd with
  | none =>
    simp only [Fds.closeFd, hentry]
    exact h
  | some entry =>
    obtain ⟨i, dir⟩ := entry
    obtain ⟨pipe, hpipe⟩ := h.some_of_entry hentry
    have hends := ends_unbind hentry
    have hcount : ∀ dir', (pipe.less dir).count dir' = (s.setPipe t fd none).ends i dir' := by
      intro dir'
      have hbefore := h.count i dir'
      rw [counted_of_some hpipe, hends i dir'] at hbefore
      rw [count_less, hbefore]
      simp
    have hzero : ((pipe.less dir).readers = 0 ∧ (pipe.less dir).writers = 0) ↔
        ∀ dir', (s.setPipe t fd none).ends i dir' = 0 := by
      simp only [← hcount]
      refine ⟨fun hboth dir' => ?_, fun hall => ⟨hall .read, hall .write⟩⟩
      cases dir' with
      | read => exact hboth.1
      | write => exact hboth.2
    rw [closeFd_eq hentry hpipe]
    refine h.replace (pipes_replace none _) (fun i' dir' hne => ?_) (fun dir' => ?_) ?_
    · rw [ends_putPipe, hends i' dir', if_neg fun hsame => hne (congrArg fst hsame), add_zero]
    · split_ifs with hboth
      · exact (hzero.mp hboth dir').symm
      · exact hcount dir'
    · split_ifs with hboth
      · exact ⟨fun _ => hzero.mp hboth, fun _ => rfl⟩
      · exact ⟨fun hnone => absurd hnone (by simp), fun hall => absurd (hzero.mpr hall) hboth⟩

/-- What `close_fd` and everything beside pipes keep. -/
structure Keeps (t : Task) (P : Fds → Prop) : Prop where
  closeFd : ∀ {s} fd, P s → P (s.closeFd t fd)
  same : ∀ {s s'}, P s → SamePipes s s' → P s'

theorem pred_ite {c : Prop} [Decidable c] (h : P s) (h' : P s') : P (if c then s else s') := by
  split_ifs
  · exact h
  · exact h'

section

variable {P : Fds → Prop} (hP : Keeps t P) (h : P s) (fd : ℕ)

include hP h

theorem Keeps.closeBoth :
    P (let s := if s.fdIsPipe t fd then s.closeFd t fd else s
      if s.fdIsSocket fd then s.closeSocket fd else s) := by
  have hpipe : P (if s.fdIsPipe t fd then s.closeFd t fd else s) := pred_ite (hP.closeFd fd h) h
  exact pred_ite (hP.same hpipe (.of_eq (beside_tables.closeSocket ..))) hpipe

theorem Keeps.closeOne : P (s.closeOne t fd) :=
  pred_ite (hP.same (hP.closeBoth h fd) samePipes_sysClose) (hP.closeBoth h fd)

theorem Keeps.closeAll : P (s.closeAll t) := by
  have hfold : ∀ (fds : List ℕ) {s : Fds}, P s → P (fds.foldl (fun s fd => s.closeOne t fd) s) := by
    intro fds
    induction fds with
    | nil => exact fun h => h
    | cons fd fds ih => exact fun h => ih (hP.closeOne h fd)
  exact hfold _ h

theorem Keeps.close : P (s.close t fd).2 := by
  have hboth := hP.closeBoth h fd
  unfold Fds.close
  dsimp only at hboth ⊢
  generalize (if (if s.fdIsPipe t fd = true then s.closeFd t fd else s).fdIsSocket fd = true then
    (if s.fdIsPipe t fd = true then s.closeFd t fd else s).closeSocket fd
    else if s.fdIsPipe t fd = true then s.closeFd t fd else s) = s₁ at hboth ⊢
  have hevent : P (if s₁.fdIsEvent t fd then s₁.setEvent t fd none else s₁) :=
    pred_ite (hP.same hboth (.of_eq (beside_tables.event ..))) hboth
  rw [apply_ite snd]
  exact pred_ite hevent (hP.same hevent samePipes_sysClose)

theorem Keeps.closeTarget : P (s.closeTarget t fd) := by
  unfold Fds.closeTarget
  split_ifs
  · exact hP.closeFd fd h
  · exact hP.same h samePipes_sysClose
  · exact h

end

theorem keeps_counted : Keeps t Counted := ⟨fun fd h => h.closeFd t fd, .of_same⟩

/-! ## Copies -/

/-- An end is copied to a descriptor that is free. -/
theorem Counted.bind_iff (h : Counted s) (hfree : s.fdToPipe t fd = none)
    (hpipe : s.pipes i = some pipe) (hsmall : s.counted i dir ≤ 255) :
    Counted ((s.setPipe t fd (some (i, dir))).putPipe i (some (pipe.more dir))) ↔
      (fd < maxPipeFd ↔ s.counted i dir < 255) := by
  have hends : ∀ i' dir', (s.setPipe t fd (some (i, dir))).ends i' dir' =
      s.ends i' dir' + if fd < maxPipeFd ∧ (i', dir') = (i, dir) then 1 else 0 := ends_bind hfree
  have hcount : ∀ dir', (pipe.more dir).count dir' =
      if dir' = dir then min 255 (s.ends i dir' + 1) else s.ends i dir' := by
    intro dir'
    rw [count_more, ← counted_of_some hpipe, h.count]
  constructor
  · intro hcounted
    have hhere := hcounted.count i dir
    rw [counted_putPipe_self, ends_putPipe, hends, map_some, getD_some, hcount,
      if_pos rfl] at hhere
    rw [h.count] at hsmall ⊢
    split_ifs at hhere with hfd
    · exact ⟨fun _ => by omega, fun _ => hfd.1⟩
    · exact ⟨fun hlt => absurd ⟨hlt, rfl⟩ hfd, fun hlt => by omega⟩
  · intro hiff
    rw [h.count] at hsmall hiff
    refine h.replace (pipes_replace _ _) (fun i' dir' hne => ?_) (fun dir' => ?_) ?_
    · rw [ends_putPipe, hends, if_neg fun hsame => hne (congrArg fst hsame.2), add_zero]
    · rw [map_some, getD_some, hcount, ends_putPipe, hends]
      by_cases hdir : dir' = dir
      · subst hdir
        rw [if_pos rfl]
        by_cases hfd : fd < maxPipeFd
        · rw [if_pos ⟨hfd, rfl⟩]
          omega
        · rw [if_neg fun hsame => hfd hsame.1]
          omega
      · rw [if_neg hdir, if_neg fun hsame => hdir (congrArg snd hsame.2), add_zero]
    · refine ⟨fun hnone => absurd hnone (by simp), fun hzero => ?_⟩
      have hnone : s.pipes i = none := by
        refine (h.freed i).mpr fun dir' => ?_
        have hafter := hzero dir'
        rw [ends_putPipe, hends] at hafter
        omega
      rw [hpipe] at hnone
      cases hnone

theorem dupFd_eq (hentry : s.fdToPipe t fd = some (i, dir)) (hpipe : s.pipes i = some pipe) :
    (s.dupFd t fd newfd).2 =
      (s.setPipe t newfd (some (i, dir))).putPipe i (some (pipe.more dir)) := by
  simp [dupFd, hentry, hpipe]

theorem Counted.dupFd_iff (h : Counted s) (hentry : s.fdToPipe t fd = some (i, dir))
    (hfree : s.fdToPipe t newfd = none) (hsmall : s.counted i dir ≤ 255) :
    Counted (s.dupFd t fd newfd).2 ↔ (newfd < maxPipeFd ↔ s.counted i dir < 255) := by
  obtain ⟨pipe, hpipe⟩ := h.some_of_entry hentry
  rw [dupFd_eq hentry hpipe]
  exact h.bind_iff hfree hpipe hsmall

theorem fdToPipe_none_of_unused (h : s.unused t fd = true) : s.fdToPipe t fd = none := by
  simp only [unused, fdIsPipe, Bool.and_eq_true, Bool.not_eq_true', isSome_eq_false_iff,
    isNone_iff_eq_none] at h
  exact h.1.2

/-- The copy of an end is entered and counted, or neither. -/
def DupCounts (s : Fds) (t : Task) (fd start : ℕ) : Prop :=
  ∀ i dir new, s.fdToPipe t fd = some (i, dir) → search (s.unused t) start nrOpen = some new →
    (new < maxPipeFd ↔ s.counted i dir < 255)

theorem Counted.dupFrom_iff (h : Counted s) (hsmall : ∀ i dir, s.counted i dir ≤ 255) (fd start : ℕ)
    : Counted (s.dupFrom t fd start).2 ↔ DupCounts s t fd start := by
  unfold dupFrom DupCounts
  cases hentry : s.fdToPipe t fd with
  | none =>
    have hpipe : s.fdIsPipe t fd = false := by simp [fdIsPipe, hentry]
    rw [hpipe]
    refine iff_of_true ?_ fun i dir new hsome => absurd hsome (by simp)
    cases s.fdToFilp t fd with
    | none => exact h
    | some f =>
      cases search (s.unused t) start nrOpen with
      | none => exact h
      | some new => exact h.of_same (SamePipes.trans ⟨rfl, rfl⟩ (samePipes_setFd _))
  | some entry =>
    obtain ⟨i, dir⟩ := entry
    have hpipe : s.fdIsPipe t fd = true := by simp [fdIsPipe, hentry]
    rw [if_pos hpipe]
    cases hsearch : search (s.unused t) start nrOpen with
    | none => exact iff_of_true h fun i dir new _ hnone => absurd hnone (by simp)
    | some new =>
      have hfree := fdToPipe_none_of_unused (find?_some hsearch)
      refine (h.dupFd_iff hentry hfree (hsmall i dir)).trans ⟨?_, fun hall => hall i dir new rfl rfl⟩
      rintro hiff i' dir' new' ⟨⟩ ⟨⟩
      exact hiff

theorem fdToPipe_setPipe (entry : Option (ℕ × Dir)) (t' : Task) (fd' : ℕ) :
    (s.setPipe t fd entry).fdToPipe t' fd' =
      if fd < maxPipeFd ∧ t' = t ∧ fd' = fd then entry else s.fdToPipe t' fd' := by
  unfold setPipe
  by_cases hfd : fd < maxPipeFd
  · rw [if_pos hfd]
    simp only [fdToPipe, setEntry_apply, hfd, true_and]
    by_cases hsame : t' = t ∧ fd' = fd
    · rw [if_pos hsame, if_pos (hsame.2 ▸ hfd), if_pos hsame]
    · simp [if_neg hsame]
  · rw [if_neg hfd, if_neg fun hsame => hfd hsame.1]

theorem find_pipe_eq_none_iff : s.find t fd .pipe = none ↔ s.fdToPipe t fd = none :=
  map_eq_none_iff

theorem fdToPipe_closeTarget (t' : Task) (fd' : ℕ) :
    (s.closeTarget t fd).fdToPipe t' fd' =
      if t' = t ∧ fd' = fd then none else s.fdToPipe t' fd' := by
  have hcleared : ∀ {s'}, Rebinds s s' t fd .pipe none →
      s'.fdToPipe t' fd' = if t' = t ∧ fd' = fd then none else s.fdToPipe t' fd' := by
    intro s' hre
    have hfind := hre.cleared t' fd' .pipe
    split_ifs with hhere
    · rw [if_pos ⟨rfl, hhere.2, .inr hhere.1⟩] at hfind
      exact find_pipe_eq_none_iff.mp hfind
    · rw [if_neg fun hsame => hhere ⟨hsame.2.2.resolve_left Kind.noConfusion, hsame.2.1⟩] at hfind
      exact map_injective (fun _ _ hobj => Prod.ext (Obj.pipe.inj hobj).1 (Obj.pipe.inj hobj).2) hfind
  unfold closeTarget
  by_cases hpipe : s.fdIsPipe t fd = true
  · rw [if_pos hpipe]
    exact hcleared rebinds_closeFd
  rw [if_neg hpipe, (pred_ite samePipes_sysClose (.refl s) : SamePipes s _).fdToPipe]
  exact hcleared (rebinds_none (by simpa [find, fdIsPipe] using hpipe))

/-- What is left of an end when a descriptor is closed. -/
theorem ends_of_cleared (hclear : ∀ t' fd', s'.fdToPipe t' fd' =
      if t' = t ∧ fd' = fd then none else s.fdToPipe t' fd') :
    s.ends i dir = s'.ends i dir + if s.fdToPipe t fd = some (i, dir) then 1 else 0 := by
  have htable : ∀ (s₁ s₂ : Fds), (∀ t fd, s₁.fdToPipe t fd = s₂.fdToPipe t fd) →
      s₁.ends i dir = s₂.ends i dir := by
    intro s₁ s₂ heq
    unfold ends
    rw [show s₁.pipeTable = s₂.pipeTable from funext fun place => heq place.1 place.2]
  cases hentry : s.fdToPipe t fd with
  | none =>
    rw [if_neg (by simp), add_zero]
    refine htable s s' fun t' fd' => ?_
    rw [hclear]
    split_ifs with hsame
    · rw [hsame.1, hsame.2, hentry]
    · rfl
  | some entry =>
    have hfd := fdToPipe_lt hentry
    rw [ends_unbind hentry, htable s' (s.setPipe t fd none) fun t' fd' => ?_]
    · congr 1
      exact if_congr ⟨fun hsame => by rw [hsame], fun hsame => (some.inj hsame).symm⟩ rfl rfl
    · rw [hclear, fdToPipe_setPipe]
      simp [hfd]

/-- `dup2` of an end. -/
def Dup2Counts (s : Fds) (t : Task) (oldfd newfd : ℕ) : Prop :=
  ∀ i dir, s.fdToPipe t oldfd = some (i, dir) → oldfd ≠ newfd → newfd < nrOpen →
    (newfd < maxPipeFd ↔ s.counted i dir < 255 ∨ s.fdToPipe t newfd = some (i, dir))

theorem Counted.dup2_iff (h : Counted s) (hsmall : ∀ i dir, s.counted i dir ≤ 255) (oldfd newfd : ℕ)
    : Counted (s.sysDup2 t oldfd newfd).2 ↔ Dup2Counts s t oldfd newfd := by
  unfold sysDup2 Dup2Counts
  by_cases hopen : nrOpen ≤ newfd
  · rw [if_pos hopen]
    exact iff_of_true h fun _ _ _ _ hlt => absurd hlt (not_lt.mpr hopen)
  rw [if_neg hopen]
  cases hentry : s.fdToPipe t oldfd with
  | none =>
    have hpipe : s.fdIsPipe t oldfd = false := by simp [fdIsPipe, hentry]
    rw [hpipe]
    refine iff_of_true ?_ fun i dir hsome => absurd hsome (by simp)
    simp only [Bool.false_eq_true, if_false]
    cases s.fdToFilp t oldfd with
    | none => exact h
    | some f =>
      split_ifs
      · exact h
      · exact (keeps_counted.closeTarget h newfd).of_same
          (SamePipes.trans ⟨rfl, rfl⟩ (samePipes_setFd _))
  | some entry =>
    obtain ⟨i, dir⟩ := entry
    have hpipe : s.fdIsPipe t oldfd = true := by simp [fdIsPipe, hentry]
    rw [if_pos hpipe]
    by_cases heq : oldfd = newfd
    · rw [if_pos heq]
      exact iff_of_true h fun _ _ _ hne => absurd heq hne
    rw [if_neg heq]
    -- the descriptor is closed first, and may be one of the same end
    have hclosed : Counted (s.closeTarget t newfd) := keeps_counted.closeTarget h newfd
    have hclear : ∀ t' fd', (s.closeTarget t newfd).fdToPipe t' fd' =
        if t' = t ∧ fd' = newfd then none else s.fdToPipe t' fd' := fdToPipe_closeTarget
    have hold : (s.closeTarget t newfd).fdToPipe t oldfd = some (i, dir) := by
      rw [hclear, if_neg fun hsame => heq hsame.2, hentry]
    have hfree : (s.closeTarget t newfd).fdToPipe t newfd = none := by
      rw [hclear, if_pos ⟨rfl, rfl⟩]
    have hends : s.ends i dir = (s.closeTarget t newfd).ends i dir +
        if s.fdToPipe t newfd = some (i, dir) then 1 else 0 := ends_of_cleared hclear
    have hbound := hsmall i dir
    rw [h.count] at hbound
    have hbefore : (s.closeTarget t newfd).counted i dir < 255 ↔
        s.counted i dir < 255 ∨ s.fdToPipe t newfd = some (i, dir) := by
      rw [hclosed.count, h.count]
      split_ifs at hends with hsame
      · exact iff_of_true (by omega) (.inr hsame)
      · rw [hends, add_zero]
        exact ⟨.inl, fun hor => hor.resolve_right hsame⟩
    refine (hclosed.dupFd_iff hold hfree ?_).trans ?_
    · rw [hclosed.count]
      omega
    · rw [hbefore]
      refine ⟨?_, fun hall => hall i dir rfl heq (not_le.mp hopen)⟩
      rintro hiff i' dir' ⟨⟩ - -
      exact hiff

/-! ## New pipes -/

/-- A new pipe gets descriptors of which there is an entry. -/
def PipeCounts (s : Fds) (t : Task) (null page : Bool) : Prop :=
  null = false → page = true → (∃ i < maxPipes, s.pipes i = none) →
    ∃ r w, search (s.unusedByPipe t) 3 nrOpen = some r ∧
      search (s.unusedByPipe t) (r + 1) nrOpen = some w ∧ w < maxPipeFd

theorem fdToPipe_none_of_unusedByPipe (h : s.unusedByPipe t fd = true) : s.fdToPipe t fd = none :=
    by
  simp only [unusedByPipe, fdIsPipe, Bool.and_eq_true, Bool.not_eq_true',
    isSome_eq_false_iff, isNone_iff_eq_none] at h
  exact h.1

theorem allocPipe_eq {page : Bool} (h : s.allocPipe page = some (i, s')) :
    s.pipes i = none ∧ s' = s.putPipe i (some ⟨1, 1⟩) := by
  unfold allocPipe at h
  cases hsearch : search (fun i => (s.pipes i).isNone) 0 maxPipes with
  | none =>
    rw [hsearch] at h
    cases h
  | some j =>
    have hfree := (search_eq_some fun _ => isNone_iff_eq_none).mp hsearch
    rw [hsearch] at h
    cases page with
    | false => cases h
    | true =>
      cases h
      exact ⟨hfree.holds, rfl⟩

/-- What `pipe` keeps, if filling in a pipe and its descriptors does. -/
theorem sysPipe_rule (h : P s) (hnew : ∀ i, P (s.putPipe i (some ⟨1, 1⟩)))
    (hbind : ∀ {s' fd entry}, P s' → s.unusedByPipe t fd = true → P (s'.setPipe t fd entry))
    (null page : Bool) : P (s.sysPipe t null page).2 := by
  unfold sysPipe
  split_ifs
  · exact h
  cases halloc : s.allocPipe page with
  | none => exact h
  | some result =>
    obtain ⟨i, s₁⟩ := result
    obtain ⟨-, rfl⟩ := allocPipe_eq halloc
    have hsame : (s.putPipe i (some ⟨1, 1⟩)).unusedByPipe t = s.unusedByPipe t := rfl
    dsimp only
    rw [hsame]
    cases hr : search (s.unusedByPipe t) 3 nrOpen with
    | none => exact hnew i
    | some r =>
      dsimp only
      cases hw : search (s.unusedByPipe t) (r + 1) nrOpen with
      | none => exact hnew i
      | some w => exact hbind (hbind (hnew i) (find?_some hr)) (find?_some hw)

/-- A pipe without descriptors is counted wrong. -/
theorem Counted.not_alloc (h : Counted s) (hnone : s.pipes i = none) :
    ¬ Counted (s.putPipe i (some ⟨1, 1⟩)) := by
  intro hcounted
  have hcount := hcounted.count i .read
  rw [counted_putPipe_self, ends_putPipe, (h.freed i).mp hnone] at hcount
  exact absurd hcount (by decide)

/-- A new pipe with its two descriptors. -/
theorem Counted.new_iff {r w : ℕ} (h : Counted s) (hnone : s.pipes i = none) (hlt : r < w)
    (hr : s.fdToPipe t r = none) (hw : s.fdToPipe t w = none) :
    Counted (((s.putPipe i (some ⟨1, 1⟩)).setPipe t r (some (i, .read))).setPipe t w
      (some (i, .write))) ↔ w < maxPipeFd := by
  have hzero : ∀ dir, s.ends i dir = 0 := (h.freed i).mp hnone
  have hr' : (s.putPipe i (some ⟨1, 1⟩)).fdToPipe t r = none := hr
  have hw' : ((s.putPipe i (some ⟨1, 1⟩)).setPipe t r (some (i, .read))).fdToPipe t w = none := by
    rw [fdToPipe_setPipe, if_neg fun hsame => absurd hsame.2.2 (ne_of_gt hlt)]
    exact hw
  have hends : ∀ i' dir', (((s.putPipe i (some ⟨1, 1⟩)).setPipe t r (some (i, .read))).setPipe t w
      (some (i, .write))).ends i' dir' = s.ends i' dir' +
        (if r < maxPipeFd ∧ (i', dir') = (i, Dir.read) then 1 else 0) +
        if w < maxPipeFd ∧ (i', dir') = (i, Dir.write) then 1 else 0 := by
    intro i' dir'
    rw [ends_bind hw', ends_bind hr', ends_putPipe]
  have hpipes : (((s.putPipe i (some ⟨1, 1⟩)).setPipe t r (some (i, .read))).setPipe t w
      (some (i, .write))).pipes = update s.pipes i (some ⟨1, 1⟩) := by
    rw [pipes_setPipe, pipes_setPipe, pipes_putPipe]
  constructor
  · intro hcounted
    have hcount := hcounted.count i .write
    rw [hends, hzero, counted_of_some (by rw [hpipes, update_self])] at hcount
    simpa [Pipe.count] using hcount
  · intro hfd
    have hfdr : r < maxPipeFd := hlt.trans hfd
    refine h.replace hpipes (fun i' dir' hne => ?_) (fun dir' => ?_) ?_
    · have hother : ∀ dir, ¬ (i', dir') = (i, dir) := fun dir hsame => hne (congrArg fst hsame)
      rw [hends, if_neg fun hsame => hother _ hsame.2, if_neg fun hsame => hother _ hsame.2,
        Nat.add_zero]
    · rw [hends, hzero]
      cases dir' <;> simp [Pipe.count, hfd, hfdr]
    · refine ⟨fun hsome => absurd hsome (by simp), fun hall => ?_⟩
      have hread := hall .read
      rw [hends, if_pos ⟨hfdr, rfl⟩] at hread
      omega

theorem Counted.pipe_iff (h : Counted s) (null page : Bool) :
    Counted (s.sysPipe t null page).2 ↔ PipeCounts s t null page := by
  unfold sysPipe PipeCounts
  cases null with
  | true => exact iff_of_true h fun hnull => absurd hnull (by simp)
  | false =>
    cases halloc : s.allocPipe page with
    | none =>
      refine iff_of_true h fun _ hpage hfree => ?_
      rw [hpage] at halloc
      exact absurd hfree (allocPipe_none halloc)
    | some result =>
      obtain ⟨i, s₁⟩ := result
      obtain ⟨-, hpage, hfree⟩ := allocPipe_spec halloc
      obtain ⟨hnone, rfl⟩ := allocPipe_eq halloc
      have hsame : (s.putPipe i (some ⟨1, 1⟩)).unusedByPipe t = s.unusedByPipe t := rfl
      dsimp only
      rw [hsame]
      cases hr : search (s.unusedByPipe t) 3 nrOpen with
      | none =>
        refine iff_of_false (h.not_alloc hnone) fun hall => ?_
        obtain ⟨r, w, hr', -⟩ := hall rfl hpage hfree
        cases hr'
      | some r =>
        dsimp only
        cases hw : search (s.unusedByPipe t) (r + 1) nrOpen with
        | none =>
          refine iff_of_false (h.not_alloc hnone) fun hall => ?_
          obtain ⟨r', w, hr', hw', -⟩ := hall rfl hpage hfree
          cases hr'
          rw [hw] at hw'
          cases hw'
        | some w =>
          have hlt : r < w := ((search_eq_some fun _ => Iff.rfl).mp hw).low_le
          have hr' := fdToPipe_none_of_unusedByPipe (find?_some hr)
          have hw' := fdToPipe_none_of_unusedByPipe (find?_some hw)
          refine (h.new_iff hnone hlt hr' hw').trans ⟨fun hfd _ _ _ => ⟨r, w, rfl, hw, hfd⟩, ?_⟩
          intro hall
          obtain ⟨r', w', hr'', hw'', hfd⟩ := hall rfl hpage hfree
          cases hr''
          rw [hw] at hw''
          cases hw''
          exact hfd

/-! ## Children -/

theorem countEnd_eq (h : s.countEnd i dir = some s') (hpipe : s.pipes i = some pipe) :
    s' = s.putPipe i (some (pipe.more dir)) ∧ pipe.count dir < 255 := by
  cases dir with
  | read | write =>
    simp only [countEnd, hpipe] at h
    split_ifs at h with hlt
    cases h
    refine ⟨?_, hlt⟩
    unfold Pipe.more
    rw [Nat.min_eq_right hlt]

/-- While the ends of a child are counted. -/
structure Counting (s s' : Fds) (child parent : Task) : Prop where
  table : s'.pipe = update s.pipe child (s.pipe parent)
  same : ∀ i, s'.pipes i = none ↔ s.pipes i = none
  small : ∀ i dir, s'.counted i dir ≤ 255

theorem Counting.countEnd {child : Task} (h : Counting s s' child parent)
    (hpipe : s'.pipes i = some pipe) (hcount : s'.countEnd i dir = some s'') :
    Counting s s'' child parent ∧ ∀ entry : ℕ × Dir, s''.counted entry.1 entry.2 =
      s'.counted entry.1 entry.2 + if some (i, dir) = some entry then 1 else 0 := by
  obtain ⟨rfl, hlt⟩ := countEnd_eq hcount hpipe
  have hcounted : ∀ i' dir', (s'.putPipe i (some (pipe.more dir))).counted i' dir' =
      s'.counted i' dir' + if some (i, dir) = some (i', dir') then 1 else 0 := by
    intro i' dir'
    by_cases heq : i' = i
    · subst heq
      rw [counted_putPipe_self, map_some, getD_some, counted_of_some hpipe, count_more]
      by_cases hdir : dir' = dir
      · subst hdir
        rw [if_pos rfl, if_pos rfl]
        omega
      · rw [if_neg hdir, if_neg fun hsame => hdir (congrArg snd (some.inj hsame)).symm,
          add_zero]
    · rw [counted_putPipe_of_ne heq,
        if_neg fun hsame => heq (congrArg fst (some.inj hsame)).symm, add_zero]
  refine ⟨⟨h.table, fun i' => ?_, fun i' dir' => ?_⟩, fun entry => hcounted entry.1 entry.2⟩
  · rw [pipes_putPipe]
    by_cases heq : i' = i
    · subst heq
      rw [← h.same, hpipe]
      simp
    · rw [update_of_ne heq]
      exact h.same i'
  · have hbound := h.small i' dir'
    rw [hcounted]
    split_ifs with hsame
    · obtain ⟨rfl, rfl⟩ := mk.inj (some.inj hsame)
      rw [counted_of_some hpipe]
      omega
    · omega

theorem Counting.step {child : Task} (h : Counted s) (hcounting : Counting s s' child parent)
    (hfd : fd < maxPipeFd)
    (hstep : (match s'.pipe child fd with
      | none => some s'
      | some (i, dir) => s'.countEnd i dir) = some s'') :
    Counting s s'' child parent ∧ ∀ entry : ℕ × Dir, s''.counted entry.1 entry.2 =
      s'.counted entry.1 entry.2 + if s.pipe parent fd = some entry then 1 else 0 := by
  have hentry : s'.pipe child fd = s.pipe parent fd := by
    rw [hcounting.table, update_self]
  rw [hentry] at hstep
  cases hparent : s.pipe parent fd with
  | none =>
    rw [hparent] at hstep
    cases hstep
    exact ⟨hcounting, fun entry => by simp⟩
  | some entry =>
    obtain ⟨i, dir⟩ := entry
    rw [hparent] at hstep
    have hfdTo : s.fdToPipe parent fd = some (i, dir) := (if_pos hfd).trans hparent
    obtain ⟨pipe, hpipe⟩ : ∃ pipe, s'.pipes i = some pipe := by
      obtain ⟨pipe, hpipe⟩ := h.some_of_entry hfdTo
      refine ne_none_iff_exists'.mp fun hnone => ?_
      rw [hcounting.same, hpipe] at hnone
      cases hnone
    exact hcounting.countEnd hpipe hstep

theorem samePipes_countFiles (s : Fds) (child : Task) : SamePipes s (s.countFiles child) := by
  unfold countFiles
  generalize range nrOpen = fds
  induction fds generalizing s with
  | nil => exact .refl s
  | cons fd rest ih =>
    rw [foldl_cons]
    refine SamePipes.trans ?_ (ih _)
    cases s.fdToFilp child fd with
    | none => exact .refl s
    | some f => exact ⟨rfl, rfl⟩

/-- The entries of a row. -/
theorem uses_pipeRow (s : Fds) (t : Task) (entry : ℕ × Dir) :
    uses (fun fd : Fin 64 => s.fdToPipe t fd) entry =
      ∑ fd ∈ Finset.range maxPipeFd, if s.pipe t fd = some entry then 1 else 0 := by
  rw [uses_columns]
  have hsubset : Finset.range maxPipeFd ⊆ Finset.range 64 :=
    Finset.range_subset_range.mpr (by decide)
  rw [← Finset.sum_subset hsubset fun fd _ hnot => ?_]
  · refine Finset.sum_congr rfl fun fd hfd => ?_
    rw [fdToPipe, if_pos (mem_range.mp hfd)]
  · rw [fdToPipe, if_neg fun hlt => hnot (mem_range.mpr hlt), if_neg (by simp)]

/-- The ends of a child are those of its parent. -/
theorem Counted.inherit {child : Task} (h : Counted s) (hsmall : ∀ i dir, s.counted i dir ≤ 255)
    (hempty : ∀ fd, s.fdToPipe child fd = none) (hinherit : s.inherit parent child = some s') :
    Counted s' ∧ ∀ i dir, s'.counted i dir ≤ 255 := by
  obtain ⟨s₂, hclone, rfl⟩ := map_eq_some_iff.mp hinherit
  have hfiles : SamePipes s₂ (s₂.countFiles child) := samePipes_countFiles s₂ child
  suffices hpipes : Counted s₂ ∧ ∀ i dir, s₂.counted i dir ≤ 255 from
    ⟨hpipes.1.of_same hfiles, fun i dir => (hfiles.counted i dir).trans_le (hpipes.2 i dir)⟩
  let start : Fds :=
    { s.cloneFds parent child with pipe := update s.pipe child (s.pipe parent) }
  have hstart : Counting s start child parent := ⟨rfl, fun _ => Iff.rfl, hsmall⟩
  have hrow := count_row (fun state => Counting s state child parent)
    (fun (state : Fds) (entry : ℕ × Dir) => state.counted entry.1 entry.2)
    (fun _ fd _ hfd hstate hnext => hstate.step h hfd hnext) hstart hclone
  obtain ⟨hcounting, hcounted⟩ := hrow
  have hends : ∀ i dir, s₂.ends i dir = s.ends i dir +
      uses (fun fd : Fin 64 => s.fdToPipe parent fd) (i, dir) := by
    intro i dir
    have htable : s₂.pipeTable = fun place =>
        if place.1 = child then s.fdToPipe parent place.2 else s.pipeTable place := by
      funext place
      unfold pipeTable fdToPipe
      rw [hcounting.table]
      by_cases heq : place.1 = child
      · rw [heq, update_self, if_pos rfl]
      · rw [update_of_ne heq, if_neg heq]
    unfold ends
    rw [htable]
    have hrow : ∀ fd : Fin 64, s.pipeTable (child, fd) = none := fun fd => hempty fd
    exact uses_row hrow (fun fd => s.fdToPipe parent fd) (i, dir)
  have hcount : ∀ i dir, s₂.counted i dir = s₂.ends i dir := by
    intro i dir
    rw [hends, uses_pipeRow, ← h.count]
    exact hcounted (i, dir)
  refine ⟨counted_of hcount fun i => ?_, hcounting.small⟩
  rw [hcounting.same, h.freed]
  constructor
  · intro hzero dir
    rw [hends, hzero, zero_add]
    by_contra hne
    obtain ⟨fd, hfd⟩ := uses_pos.mp (Nat.pos_of_ne_zero hne)
    have hpos : 0 < s.ends i dir := ends_pos_iff.mpr ⟨parent, fd, hfd⟩
    have := hzero dir
    omega
  · intro hzero dir
    have hafter := hzero dir
    rw [hends] at hafter
    omega

/-! ## The other rows -/

/-- A call of a task leaves the rows of the others alone, and the counts are bytes. -/
structure Local (s s' : Fds) (t : Task) : Prop where
  rows : ∀ t' fd, t' ≠ t → s'.fdToPipe t' fd = s.fdToPipe t' fd
  small : (∀ i dir, s.counted i dir ≤ 255) → ∀ i dir, s'.counted i dir ≤ 255

theorem Local.refl (s : Fds) (t : Task) : Local s s t := ⟨fun _ _ _ => rfl, fun h => h⟩

theorem Local.trans (h : Local s s' t) (h' : Local s' s'' t) : Local s s'' t :=
  ⟨fun t' fd hne => (h'.rows t' fd hne).trans (h.rows t' fd hne),
    fun hsmall => h'.small (h.small hsmall)⟩

theorem SamePipes.toLocal (h : SamePipes s s') (t : Task) : Local s s' t :=
  ⟨fun t' fd _ => h.fdToPipe t' fd, fun hsmall i dir => (h.counted i dir).trans_le (hsmall i dir)⟩

theorem local_setPipe (entry : Option (ℕ × Dir)) : Local s (s.setPipe t fd entry) t := by
  refine ⟨fun t' fd' hne => ?_, fun hsmall i dir => ?_⟩
  · rw [fdToPipe_setPipe, if_neg fun hsame => hne hsame.2.1]
  · unfold counted
    rw [pipes_setPipe]
    exact hsmall i dir

theorem local_putPipe
    (hp : (∀ i dir, s.counted i dir ≤ 255) → ∀ dir, (p.map (Pipe.count · dir)).getD 0 ≤ 255) :
    Local s (s.putPipe i p) t := by
  refine ⟨fun t' fd' _ => rfl, fun hsmall i' dir' => ?_⟩
  by_cases heq : i' = i
  · subst heq
    rw [counted_putPipe_self]
    exact hp hsmall dir'
  · rw [counted_putPipe_of_ne heq]
    exact hsmall i' dir'

theorem local_closeFd : Local s (s.closeFd t fd) t := by
  cases hentry : s.fdToPipe t fd with
  | none =>
    simp only [closeFd, hentry]
    exact .refl s t
  | some entry =>
    obtain ⟨i, dir⟩ := entry
    cases hpipe : s.pipes i with
    | none =>
      simp only [closeFd, hentry, hpipe]
      exact local_setPipe none
    | some pipe =>
      rw [closeFd_eq hentry hpipe]
      refine (local_setPipe none).trans (local_putPipe fun hsmall dir' => ?_)
      have hbound := hsmall i dir'
      unfold counted at hbound
      rw [pipes_setPipe, hpipe] at hbound
      split_ifs
      · exact zero_le _
      · rw [map_some, count_less]
        exact (sub_le _ _).trans hbound

theorem local_dupFd : Local s (s.dupFd t fd newfd).2 t := by
  cases hentry : s.fdToPipe t fd with
  | none =>
    simp only [dupFd, hentry]
    exact .refl s t
  | some entry =>
    obtain ⟨i, dir⟩ := entry
    cases hpipe : s.pipes i with
    | none =>
      simp only [dupFd, hentry, pipes_setPipe, hpipe]
      exact local_setPipe _
    | some pipe =>
      rw [dupFd_eq hentry hpipe]
      refine (local_setPipe _).trans (local_putPipe fun hsmall dir' => ?_)
      have hbound := hsmall i dir'
      unfold counted at hbound
      rw [pipes_setPipe, hpipe] at hbound
      rw [map_some, count_more]
      split_ifs
      · exact min_le_left _ _
      · exact hbound

theorem keeps_local : Keeps t (Local s · t) :=
  ⟨fun _ h => h.trans local_closeFd, fun h hsame => h.trans (hsame.toLocal t)⟩

theorem local_dupFrom (fd start : ℕ) : Local s (s.dupFrom t fd start).2 t := by
  unfold dupFrom
  split_ifs
  · cases search (s.unused t) start nrOpen with
    | none => exact .refl s t
    | some new => exact local_dupFd
  · cases s.fdToFilp t fd with
    | none => exact .refl s t
    | some f =>
      cases search (s.unused t) start nrOpen with
      | none => exact .refl s t
      | some new =>
        exact (SamePipes.trans (samePipes_setCount _ _) (samePipes_setFd _)).toLocal t

theorem local_sysDup2 (oldfd newfd : ℕ) : Local s (s.sysDup2 t oldfd newfd).2 t := by
  unfold sysDup2
  split_ifs
  · exact .refl s t
  · exact .refl s t
  · exact (keeps_local.closeTarget (.refl s t) newfd).trans local_dupFd
  · cases s.fdToFilp t oldfd with
    | none => exact .refl s t
    | some f => exact .refl s t
  · cases s.fdToFilp t oldfd with
    | none => exact .refl s t
    | some f =>
      exact (keeps_local.closeTarget (.refl s t) newfd).trans
        ((SamePipes.trans (samePipes_setCount _ _) (samePipes_setFd _)).toLocal t)

theorem local_call (c : Call) : Local s (s.call t c).2 t := by
  cases c with
  | «open» outcome => exact (samePipes_sysOpen outcome).toLocal t
  | pipe null page =>
    exact sysPipe_rule (P := (Local s · t)) (.refl s t)
      (fun _ => local_putPipe fun _ dir => by cases dir <;> decide)
      (fun h _ => h.trans (local_setPipe _)) null page
  | socket | socketpair | accept | createEvent =>
    exact SamePipes.toLocal (samePipes_outer (by trivial)) t
  | dup fd => exact local_dupFrom fd 0
  | dup2 oldfd newfd => exact local_sysDup2 oldfd newfd
  | dupfd fd start => exact local_dupFrom fd start
  | close fd => exact keeps_local.close (.refl s t) fd

/-! ## Runs -/

/-- The task that does something is there. -/
def Acts (k : Kernel) : Event → Prop
  | .call t _ => k.slot t = .live
  | .fork parent _ _ => k.slot parent = .live
  | .exit t => k.slot t = .live
  | .release _ => True

instance (k : Kernel) (event : Event) : Decidable (Acts k event) :=
  match event with
  | .call t _ => inferInstanceAs (Decidable (k.slot t = .live))
  | .fork parent _ _ => inferInstanceAs (Decidable (k.slot parent = .live))
  | .exit t => inferInstanceAs (Decidable (k.slot t = .live))
  | .release _ => inferInstanceAs (Decidable True)

/-- The step counts what it enters. -/
def StepCounts (k : Kernel) : Event → Prop
  | .call t (.pipe null page) => PipeCounts k.fds t null page
  | .call t (.dup fd) => DupCounts k.fds t fd 0
  | .call t (.dupfd fd start) => DupCounts k.fds t fd start
  | .call t (.dup2 oldfd newfd) => Dup2Counts k.fds t oldfd newfd
  | _ => True

/-- The counts are right after the step. -/
def CountedAfter (k : Kernel) (event : Event) : Prop := ∀ k', k.step event = .ok k' → Counted k'.fds

/-- The counts are bytes, and a slot without a task has no descriptors of pipes. -/
structure Rows (k : Kernel) : Prop where
  small : ∀ i dir, k.fds.counted i dir ≤ 255
  empty : ∀ t, k.slot t ≠ .live → ∀ fd, k.fds.fdToPipe t fd = none

theorem Counted.call_iff (h : Counted s) (hsmall : ∀ i dir, s.counted i dir ≤ 255) (k : Kernel)
    (hk : k.fds = s) (c : Call) : Counted (s.call t c).2 ↔ StepCounts k (.call t c) := by
  subst hk
  cases c with
  | «open» outcome => exact iff_of_true (h.of_same (samePipes_sysOpen outcome)) trivial
  | pipe null page => exact h.pipe_iff null page
  | socket | socketpair | accept | createEvent =>
    exact iff_of_true (h.of_same (samePipes_outer (by trivial))) trivial
  | dup fd => exact h.dupFrom_iff hsmall fd 0
  | dup2 oldfd newfd => exact h.dup2_iff hsmall oldfd newfd
  | dupfd fd start => exact h.dupFrom_iff hsmall fd start
  | close fd => exact iff_of_true (keeps_counted.close h fd) trivial

section Steps

variable {k k' : Kernel}

theorem Rows.boot : Rows .boot :=
  ⟨fun _ _ => zero_le _, fun _ _ _ => by simp [Kernel.boot, Fds.boot, fdToPipe]⟩

theorem Rows.call (h : Rows k) (hlive : k.slot t = .live) (c : Call) :
    Rows { k with fds := (k.fds.call t c).2 } := by
  refine ⟨(local_call c).small h.small, fun t' hdead fd => ?_⟩
  have hne : t' ≠ t := by
    rintro rfl
    exact hdead hlive
  rw [(local_call c).rows t' fd hne]
  exact h.empty t' hdead fd

theorem freeSlot_unused {child : Task} (h : k.freeSlot = some child) : k.slot child = .unused := by
  have hfound := find?_some h
  simp only [decide_eq_true_eq] at hfound
  exact hfound.2

theorem Rows.live (h : Rows k) (t : Task) : Rows (k.setSlot t .live) := by
  refine ⟨h.small, fun t' hdead fd => h.empty t' (fun hlive => hdead ?_) fd⟩
  by_cases heq : t' = t
  · subst heq
    exact update_self ..
  · exact (update_of_ne heq ..).trans hlive

theorem exit_eq (hexit : k.exit t = some k') :
    k'.fds = k.fds.closeAll t ∧ ∀ t', t' ≠ t → k'.slot t' = k.slot t' := by
  unfold Kernel.exit at hexit
  split_ifs at hexit
  rw [← some.inj hexit]
  dsimp only [Kernel.setSlot]
  exact ⟨rfl, fun t' hne => update_of_ne hne ..⟩

theorem Rows.release (h : Rows k) (t : Task) : Rows (k.release t) := by
  unfold Kernel.release
  split_ifs with hzombie
  · refine ⟨h.small, fun t' hdead fd => h.empty t' (fun hlive => hdead ?_) fd⟩
    have hne : t' ≠ t := by
      rintro rfl
      rw [hzombie] at hlive
      cases hlive
    exact (update_of_ne hne ..).trans hlive
  · exact h

section

variable (hcounted : Counted k.fds) (h : Rows k)

include hcounted h

/-- A child has the ends of its parent, and they are counted. -/
theorem Counted.child {child : Task} (hunused : k.slot child ≠ .live)
    (hinherit : k.fds.inherit parent child = some s) :
    Counted s ∧ Rows ({ k with fds := s }.setSlot child .live) := by
  obtain ⟨hchild, hsmall⟩ := hcounted.inherit h.small (h.empty child hunused) hinherit
  refine ⟨hchild, hsmall, fun t' hdead fd => ?_⟩
  have hne : t' ≠ child := by
    rintro rfl
    exact hdead (update_self ..)
  have hdead' : k.slot t' ≠ .live := fun hlive =>
    hdead ((update_of_ne hne ..).trans hlive)
  have hrow := find_inherit hinherit t' fd .pipe
  rw [if_neg fun hhere => hne hhere.1, find_pipe_eq_none_iff.mpr (h.empty t' hdead' fd)] at hrow
  exact find_pipe_eq_none_iff.mp hrow

theorem Counted.fork {stack space : Bool} {reply : Except ℤ Task}
    (hfork : k.fork parent stack space = some (reply, k')) : Counted k'.fds ∧ Rows k' := by
  unfold Kernel.fork at hfork
  cases hslot : k.freeSlot with
  | none =>
    rw [hslot] at hfork
    cases hfork
    exact ⟨hcounted, h⟩
  | some child =>
    rw [hslot] at hfork
    have hunused : k.slot child ≠ .live := by
      rw [freeSlot_unused hslot]
      decide
    cases stack with
    | false =>
      cases hfork
      exact ⟨hcounted, h⟩
    | true =>
      cases space with
      | false =>
        cases hfork
        exact ⟨hcounted, h.live child⟩
      | true =>
        obtain ⟨fds, hinherit, hnext⟩ := map_eq_some_iff.mp hfork
        obtain rfl := congrArg snd hnext
        exact hcounted.child h hunused hinherit

theorem Counted.exit (hexit : k.exit t = some k') : Counted k'.fds ∧ Rows k' := by
  obtain ⟨hfds, hslot⟩ := exit_eq hexit
  have hclosed : Local k.fds k'.fds t := by
    rw [hfds]
    exact keeps_local.closeAll (.refl k.fds t)
  refine ⟨?_, hclosed.small h.small, fun t' hdead fd => ?_⟩
  · rw [hfds]
    exact keeps_counted.closeAll hcounted
  by_cases heq : t' = t
  · have hrow := find_exit hexit t' fd .pipe
    rw [if_pos (.inr ⟨heq, .inr rfl⟩)] at hrow
    exact find_pipe_eq_none_iff.mp hrow
  · rw [hclosed.rows t' fd heq]
    rw [hslot t' heq] at hdead
    exact h.empty t' hdead fd

/-- The steps that are no calls keep the counts. -/
theorem Counted.step {event : Event} (hstep : k.step event = .ok k') :
    (Acts k event → Rows k') ∧ ((∀ t c, event ≠ .call t c) → Counted k'.fds) := by
  cases event with
  | call t c =>
    cases hstep
    exact ⟨fun hacts => h.call hacts c, fun hnot => absurd rfl (hnot t c)⟩
  | fork parent stack space =>
    simp only [Kernel.step] at hstep
    cases hfork : k.fork parent stack space with
    | none =>
      rw [hfork] at hstep
      cases hstep
    | some result =>
      rw [hfork] at hstep
      cases hstep
      obtain ⟨hcounted', hrows⟩ := hcounted.fork h hfork
      exact ⟨fun _ => hrows, fun _ => hcounted'⟩
  | exit t =>
    simp only [Kernel.step] at hstep
    cases hexit : k.exit t with
    | none =>
      rw [hexit] at hstep
      cases hstep
    | some next =>
      rw [hexit] at hstep
      cases hstep
      obtain ⟨hcounted', hrows⟩ := hcounted.exit h hexit
      exact ⟨fun _ => hrows, fun _ => hcounted'⟩
  | release t =>
    cases hstep
    refine ⟨fun _ => h.release t, fun _ => ?_⟩
    unfold Kernel.release
    split_ifs <;> exact hcounted

theorem countedAfter_iff (event : Event) : CountedAfter k event ↔ StepCounts k event := by
  cases event with
  | call t c =>
    refine trans ?_ (hcounted.call_iff h.small k rfl c)
    constructor
    · exact fun hafter => hafter _ rfl
    · intro hcall k' hstep
      cases hstep
      exact hcall
  | fork | exit | release =>
    exact iff_of_true (fun k' hstep => (hcounted.step h hstep).2 (by simp)) trivial

end

end Steps

/-- The counts are right in every state of a run exactly if its steps count what they enter. -/
theorem counted_run_iff (events : List Event) (hacts : Guarded Kernel.step Acts events .boot) :
    Guarded Kernel.step CountedAfter events .boot ↔ Guarded Kernel.step StepCounts events .boot := by
  refine guarded_iff (fun k event (h : Counted k.fds ∧ Rows k) => countedAfter_iff h.1 h.2 event)
    (fun k event next h hacts hcounted hnext =>
      ⟨hcounted next hnext, (h.1.step h.2 hnext).1 hacts⟩) ⟨?_, .boot⟩ hacts
  refine counted_of (fun i dir => ?_) fun i => ?_
  · refine (ends_eq_zero_iff.mpr fun t fd => ?_).symm
    simp [Kernel.boot, boot, fdToPipe]
  · refine iff_of_true rfl fun dir => ends_eq_zero_iff.mpr fun t fd => ?_
    simp [Kernel.boot, boot, fdToPipe]

set_option maxRecDepth 4000 in
/-- A pipe between a parent and its child, with the write end as descriptor 1 of the parent. -/
theorem counted_run_shell :
    Guarded Kernel.step CountedAfter [.call 1 (.pipe false true), .fork 1 true true,
      .call 1 (.close 3), .call 2 (.close 4), .call 1 (.dup2 4 1), .exit 1, .exit 2,
      .release 2] .boot := by
  refine (counted_run_iff _ (guarded_of_check (by decide +kernel))).mpr ?_
  refine ⟨fun _ _ _ => ⟨3, 4, by decide +kernel, by decide +kernel, by decide⟩, fun k₁ h₁ => ?_⟩
  cases h₁
  refine ⟨trivial, fun k₂ h₂ => ?_⟩
  cases h₂
  refine ⟨trivial, fun k₃ h₃ => ?_⟩
  cases h₃
  refine ⟨trivial, fun k₄ h₄ => ?_⟩
  cases h₄
  refine ⟨fun i dir hentry _ _ => ?_, fun k₅ _ => ⟨trivial, fun k₆ _ => ⟨trivial, fun k₇ _ =>
    ⟨trivial, fun _ _ => trivial⟩⟩⟩⟩
  obtain ⟨rfl, rfl⟩ : 0 = i ∧ Dir.write = dir := mk.inj (some.inj hentry)
  decide +kernel

set_option maxRecDepth 4000 in
/-- A copy of the read end as descriptor 40 is counted and not entered, so that the pipe has a
reader for good. -/
theorem copy_beyond_table : ¬ ∀ events, Guarded Kernel.step Acts events .boot →
    Guarded Kernel.step CountedAfter events .boot := by
  intro h
  have hacts : Guarded Kernel.step Acts [.call 1 (.pipe false true), .call 1 (.dup2 3 40),
      .call 1 (.close 3), .call 1 (.close 40)] .boot := guarded_of_check (by decide +kernel)
  obtain ⟨-, h₁⟩ := h _ hacts
  obtain ⟨-, h₂⟩ := h₁ _ rfl
  obtain ⟨-, h₃⟩ := h₂ _ rfl
  obtain ⟨hclosed, -⟩ := h₃ _ rfl
  have hfinal := (hclosed _ rfl).count 0 .read
  exact absurd hfinal (by decide +kernel)

end Shitix.Fd
