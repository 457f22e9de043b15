import Shitix.Fs.PipeEnds

/-!
# Open files

An entry of the table of open files counts the descriptors that hold it, and owns a reference on
its inode.  `sys_open` takes the entry and the descriptor first and looks for the inode then, which
may take a while; a task in that state is *opening*.  Any other task may do anything meanwhile.

In every state of every run (`files_run`) `f_count` is the number of descriptors that hold the
entry, also of one that is being opened; an entry that is handed out is held by none; an entry has
the inode that its `open` found from the end of the `open` on until nothing holds it, and a failed
`open` leaves neither entry nor descriptor; and the references on inodes that the table owns are one
for each entry with an inode, so each is given back once.
-/

namespace Shitix.Fd

open Function List Option Fds

/-- What `open_namei` and the driver make of an `open`: an error, or an inode with a reference on it
and whether the driver takes it. -/
inductive Outcome where
  | failed
  | found (n : ℕ) (accepted : Bool)
deriving DecidableEq, Repr

/-- The descriptors, and what the entries of the table of open files stand for. -/
structure Files where
  fds : Fds
  slot : Task → Slot
  /-- the descriptor and the entry of a task that is opening -/
  opening : Task → Option (ℕ × ℕ)
  /-- `f_inode` -/
  inode : ℕ → Option ℕ
  /-- the references on an inode that were taken for entries, less those given back -/
  refs : ℕ → ℤ

/-- Before the first call. -/
def Files.boot : Files where
  fds := .boot
  slot := Kernel.boot.slot
  opening _ := none
  inode _ := none
  refs _ := 0

namespace Files

variable (x : Files) (t : Task)

def withFds (s : Fds) : Files := { x with fds := s }

def setInode (f : ℕ) (n : Option ℕ) : Files := { x with inode := update x.inode f n }

def setOpening (entry : Option (ℕ × ℕ)) : Files :=
  { x with opening := update x.opening t entry }

def addRefs (n : ℕ) (change : ℤ) : Files :=
  { x with refs := update x.refs n (x.refs n + change) }

/-- `iput` of `f_inode`, which may be `NIL` -/
def iput : Option ℕ → Files
  | none => x
  | some n => x.addRefs n (-1)

def putFilp (f : ℕ) : Files :=
  let y := x.withFds (x.fds.putFilp f)
  if x.fds.fCount f = 1 then (y.setInode f none).iput (x.inode f) else y

def sysClose (fd : ℕ) : Files :=
  match x.fds.fdToFilp t fd with
  | none => x
  | some f => (x.withFds (x.fds.setFd t fd none)).putFilp f

/-- What `sys_dup2` closes. -/
def closeTarget (fd : ℕ) : Files :=
  if x.fds.fdIsPipe t fd then x.withFds (x.fds.closeFd t fd)
  else if (x.fds.fdToFilp t fd).isSome then x.sysClose t fd
  else x

def sysDup2 (oldfd newfd : ℕ) : Files :=
  if nrOpen ≤ newfd then x
  else if x.fds.fdIsPipe t oldfd then
    if oldfd = newfd then x
    else
      let x := x.closeTarget t newfd
      x.withFds (x.fds.dupFd t oldfd newfd).2
  else
    match x.fds.fdToFilp t oldfd with
    | none => x
    | some f =>
      if oldfd = newfd then x
      else
        let x := x.closeTarget t newfd
        x.withFds ((x.fds.setCount f (x.fds.fCount f + 1)).setFd t newfd (some f))

def close (fd : ℕ) : Files :=
  let pipe := x.fds.fdIsPipe t fd
  let x := if pipe then x.withFds (x.fds.closeFd t fd) else x
  let sock := x.fds.fdIsSocket fd
  let x := if sock then x.withFds (x.fds.closeSocket fd) else x
  let event := x.fds.fdIsEvent t fd
  let x := if event then x.withFds (x.fds.setEvent t fd none) else x
  if pipe || sock || event then x else x.sysClose t fd

/-- One round of `close_all`. -/
def closeOne (fd : ℕ) : Files :=
  let x := if x.fds.fdIsPipe t fd then x.withFds (x.fds.closeFd t fd) else x
  let x := if x.fds.fdIsSocket fd then x.withFds (x.fds.closeSocket fd) else x
  if (x.fds.fdToFilp t fd).isSome then x.sysClose t fd else x

def closeAll : Files := (List.range nrOpen).foldl (fun x fd => x.closeOne t fd) x

/-- `sys_open` up to `open_namei` -/
def openBegin : Files :=
  match x.fds.getUnusedFd t with
  | none => x
  | some fd =>
    match x.fds.getEmptyFilp with
    | none => x
    | some f =>
      ((x.withFds ((x.fds.setCount f 1).setFd t fd (some f))).setInode f none).setOpening t
        (some (fd, f))

/-- `sys_open` from there on -/
def openEnd (fd f : ℕ) (outcome : Outcome) : Files :=
  let x := x.setOpening t none
  let undone := x.withFds ((x.fds.setFd t fd none).setCount f 0)
  match outcome with
  | .failed => undone
  | .found n true => (x.addRefs n 1).setInode f (some n)
  | .found n false => ((undone.addRefs n 1).setInode f none).iput (some n)

/-- A call other than `open`. -/
def call : Call → Option Files
  | .open _ => none
  | .dup2 oldfd newfd => some (x.sysDup2 t oldfd newfd)
  | .close fd => some (x.close t fd)
  | c => some (x.withFds (x.fds.call t c).2)

end Files

/-- What happens to open files. -/
inductive FileEvent where
  | openBegin (t : Task)
  | openEnd (t : Task) (outcome : Outcome)
  /-- a call other than `open` -/
  | call (t : Task) (c : Call)
  /-- `fork` or `clone`, with whether there is a stack and an address space -/
  | fork (parent : Task) (stack space : Bool)
  | exit (t : Task)
  | release (t : Task)

/-- The event cannot happen, or the kernel stops at it. -/
inductive Hindrance where
  | stuck
  | halted (halt : Halt)
deriving DecidableEq, Repr

/-- A task can do something. -/
def Files.Ready (x : Files) (t : Task) : Prop := x.slot t = .live ∧ x.opening t = none

instance (x : Files) (t : Task) : Decidable (x.Ready t) :=
  inferInstanceAs (Decidable (_ ∧ _))

/-- A step. -/
def Files.step (x : Files) : FileEvent → Except Hindrance Files
  | .openBegin t => if x.Ready t then .ok (x.openBegin t) else .error .stuck
  | .openEnd t outcome =>
    match x.opening t with
    | none => .error .stuck
    | some (fd, f) => .ok (x.openEnd t fd f outcome)
  | .call t c =>
    if x.Ready t then
      match x.call t c with
      | none => .error .stuck
      | some next => .ok next
    else .error .stuck
  | .fork parent stack space =>
    if x.Ready parent then
      match (Kernel.mk x.fds x.slot).fork parent stack space with
      | none => .error (.halted .overflow)
      | some (_, next) => .ok { x with fds := next.fds, slot := next.slot }
    else .error .stuck
  | .exit t =>
    if x.Ready t then
      if t.val = 0 then .error (.halted .idleExit)
      else .ok { x.closeAll t with slot := update x.slot t .zombie }
    else .error .stuck
  | .release t => .ok (if x.slot t = .zombie then { x with slot := update x.slot t .unused } else x)

/-! ## What should hold -/

/-- The file descriptors of all tasks. -/
def Fds.fileTable (s : Fds) (place : Task × Fin 64) : Option ℕ := s.fdToFilp place.1 place.2

/-- The number of descriptors that hold an entry. -/
def Fds.holders (s : Fds) (f : ℕ) : ℕ := uses s.fileTable f

/-- The inodes of the entries. -/
def Files.owners (x : Files) (f : Fin nrFile) : Option ℕ := x.inode f

/-- The entries that own a reference are those that are held and not being opened, and the
references of the table are theirs. -/
structure Kept (x : Files) : Prop where
  count : ∀ f, x.fds.fCount f = x.fds.holders f
  handed : ∀ f, x.fds.getEmptyFilp = some f → x.fds.holders f = 0
  held : ∀ f n, x.inode f = some n → 0 < x.fds.holders f
  owner : ∀ f, 0 < x.fds.holders f → (∃ n, x.inode f = some n) ∨ ∃ t fd, x.opening t = some (fd, f)
  opening : ∀ t fd f, x.opening t = some (fd, f) →
    x.fds.fdToFilp t fd = some f ∧ x.fds.holders f = 1 ∧ x.inode f = none
  refs : ∀ n, x.refs n = uses x.owners n

/-- An entry keeps its inode until nothing holds it. -/
def Lasts (x y : Files) : Prop :=
  ∀ f n, x.inode f = some n → y.inode f = some n ∨ y.inode f = none ∧ y.fds.holders f = 0

/-- An entry gets an inode when its `open` succeeds. -/
def Gains (x y : Files) (event : FileEvent) : Prop :=
  ∀ f n, x.inode f = none → y.inode f = some n →
    ∃ t fd, event = .openEnd t (.found n true) ∧ x.opening t = some (fd, f)

/-- When an `open` ends, the task is opening no more, and the entry has the inode that was found and
accepted; otherwise neither the descriptor nor the entry is left. -/
def Settles (x y : Files) (event : FileEvent) : Prop :=
  ∀ t outcome fd f, event = .openEnd t outcome → x.opening t = some (fd, f) →
    y.opening t = none ∧
      match outcome with
      | .found n true => y.inode f = some n ∧ y.fds.fdToFilp t fd = some f
      | _ => y.inode f = none ∧ y.fds.fdToFilp t fd = none ∧ y.fds.holders f = 0

/-- The books are right after the step, and were changed as they should be. -/
def KeptAfter (x : Files) (event : FileEvent) : Prop :=
  ∀ y, x.step event = .ok y → Kept y ∧ Lasts x y ∧ Gains x y event ∧ Settles x y event

/-! ## The table of file descriptors -/

variable {s s' : Fds} {x y z : Files} {t t' parent child : Task} {fd fd' f f' n : ℕ}
  {event : FileEvent}

theorem fdToFilp_lt (h : s.fdToFilp t fd = some f) : fd < nrOpen := by
  unfold fdToFilp at h
  split_ifs at h with hge
  exact not_le.mp hge

theorem holders_pos_iff : 0 < s.holders f ↔ ∃ t fd, s.fdToFilp t fd = some f := by
  unfold holders
  rw [uses_pos]
  constructor
  · rintro ⟨place, hplace⟩
    exact ⟨place.1, place.2, hplace⟩
  · rintro ⟨t, fd, hfd⟩
    exact ⟨(t, ⟨fd, fdToFilp_lt hfd⟩), hfd⟩

theorem holders_pos (h : s.fdToFilp t fd = some f) : 0 < s.holders f :=
  holders_pos_iff.mpr ⟨t, fd, h⟩

/-- The only task with a descriptor of an entry. -/
theorem only_holder (hone : s.holders f = 1) (h : s.fdToFilp t fd = some f)
    (h' : s.fdToFilp t' fd' = some f) : t' = t := by
  have hplace : s.fileTable (t, ⟨fd, fdToFilp_lt h⟩) = some f := h
  have hplace' : s.fileTable (t', ⟨fd', fdToFilp_lt h'⟩) = some f := h'
  exact congrArg Prod.fst (eq_of_uses_eq_one hone hplace hplace')

theorem fdToFilp_setFd (hfd : fd < nrOpen) (entry : Option ℕ) (t' : Task) (fd' : ℕ) :
    (s.setFd t fd entry).fdToFilp t' fd' =
      if t' = t ∧ fd' = fd then entry else s.fdToFilp t' fd' := by
  unfold setFd fdToFilp
  rw [if_pos hfd]
  dsimp only
  rw [setEntry_apply]
  by_cases hsame : t' = t ∧ fd' = fd
  · rw [if_pos hsame, if_pos hsame, if_neg (not_le.mpr (hsame.2 ▸ hfd))]
  · rw [if_neg hsame, if_neg hsame]

theorem fCount_setFd (entry : Option ℕ) : (s.setFd t fd entry).fCount = s.fCount := by
  unfold setFd
  split_ifs <;> rfl

theorem fdToFilp_unbind (hfd : fd < nrOpen) (t' : Task) (fd' : ℕ) :
    ((s.setFd t fd none).putFilp f).fdToFilp t' fd' =
      if t' = t ∧ fd' = fd then none else s.fdToFilp t' fd' := by
  rw [← fdToFilp_setFd hfd]
  unfold putFilp
  split_ifs <;> rfl

theorem fileTable_setFd (hfd : fd < nrOpen) (entry : Option ℕ) :
    (s.setFd t fd entry).fileTable = update s.fileTable (t, ⟨fd, hfd⟩) entry := by
  funext place
  unfold fileTable
  rw [fdToFilp_setFd hfd, update_apply]
  refine if_congr ⟨fun hsame => Prod.ext hsame.1 (Fin.ext hsame.2), fun hsame => ?_⟩ rfl rfl
  rw [hsame]
  exact ⟨rfl, rfl⟩

theorem holders_unbind (hentry : s.fdToFilp t fd = some f) (f' : ℕ) :
    s.holders f' = (s.setFd t fd none).holders f' + if f' = f then 1 else 0 := by
  have hfd := fdToFilp_lt hentry
  unfold holders
  rw [fileTable_setFd hfd]
  exact uses_unbind (show s.fileTable (t, ⟨fd, hfd⟩) = some f from hentry) f'

/-- The table of file descriptors and the counts are the same. -/
def SameFiles (s s' : Fds) : Prop := s'.filp = s.filp ∧ s'.fCount = s.fCount

theorem SameFiles.refl (s : Fds) : SameFiles s s := ⟨rfl, rfl⟩

theorem SameFiles.trans {s'' : Fds} (h : SameFiles s s') (h' : SameFiles s' s'') :
    SameFiles s s'' := ⟨h'.1.trans h.1, h'.2.trans h.2⟩

theorem SameFiles.fdToFilp (h : SameFiles s s') (t : Task) (fd : ℕ) :
    s'.fdToFilp t fd = s.fdToFilp t fd := by
  unfold Fds.fdToFilp
  rw [h.1]

theorem SameFiles.holders (h : SameFiles s s') (f : ℕ) : s'.holders f = s.holders f := by
  have htable : s'.fileTable = s.fileTable := funext fun place => h.fdToFilp place.1 place.2
  unfold Fds.holders
  rw [htable]

theorem sameFiles_setPipe (entry : Option (ℕ × Dir)) : SameFiles s (s.setPipe t fd entry) := by
  unfold setPipe
  split_ifs
  · exact ⟨rfl, rfl⟩
  · exact ⟨rfl, rfl⟩

theorem sameFiles_closeFd : SameFiles s (s.closeFd t fd) := by
  unfold closeFd
  cases s.fdToPipe t fd with
  | none => exact .refl s
  | some entry =>
    refine SameFiles.trans ?_ (sameFiles_setPipe none)
    cases s.pipes entry.1 with
    | none => exact .refl s
    | some pipe => exact ⟨rfl, rfl⟩

/-! ## Files and pipes -/

/-- No descriptor is a file and a pipe. -/
def Alone (s : Fds) : Prop := ∀ t fd, s.fdToFilp t fd ≠ none → s.fdToPipe t fd = none

theorem Alone.setPipe {entry : Option (ℕ × Dir)} (h : Alone s)
    (hfree : entry ≠ none → s.fdToFilp t fd = none) : Alone (s.setPipe t fd entry) := by
  intro t' fd' hfile
  rw [(sameFiles_setPipe entry).fdToFilp] at hfile
  rw [fdToPipe_setPipe]
  split_ifs with hsame
  · by_contra hentry
    obtain ⟨-, rfl, rfl⟩ := hsame
    exact hfile (hfree hentry)
  · exact h t' fd' hfile

theorem Alone.congr (h : Alone s) (hfiles : SameFiles s s') (hpipes : SamePipes s s') : Alone s' :=
    by
  intro t fd hfile
  rw [hfiles.fdToFilp] at hfile
  rw [hpipes.fdToPipe]
  exact h t fd hfile

theorem Alone.closeFd (h : Alone s) : Alone (s.closeFd t fd) := by
  intro t' fd' hfile
  rw [sameFiles_closeFd.fdToFilp] at hfile
  refine find_pipe_eq_none_iff.mp ?_
  rw [rebinds_closeFd.cleared, ite_eq_left_iff]
  exact fun _ => find_pipe_eq_none_iff.mpr (h t' fd' hfile)

/-- What does not concern files. -/
structure Spares (s s' : Fds) : Prop where
  files : SameFiles s s'
  alone : Alone s → Alone s'

theorem Spares.of_same (hfiles : SameFiles s s') (hpipes : SamePipes s s') : Spares s s' :=
  ⟨hfiles, fun h => h.congr hfiles hpipes⟩

/-- The tables after a call on sockets or events. -/
theorem Spares.of_eq (h : ((s'.filp, s'.fCount), s'.pipe, s'.pipes) =
    ((s.filp, s.fCount), s.pipe, s.pipes)) : Spares s s' :=
  .of_same (Prod.mk.inj (Prod.mk.inj h).1) (.of_eq h)

theorem Spares.refl (s : Fds) : Spares s s := ⟨.refl s, fun h => h⟩

theorem Spares.setPipe (h : Spares s s') (hfree : s.fdToFilp t fd = none)
    (entry : Option (ℕ × Dir)) : Spares s (s'.setPipe t fd entry) :=
  ⟨h.files.trans (sameFiles_setPipe entry), fun halone =>
    (h.alone halone).setPipe fun _ => (h.files.fdToFilp t fd).trans hfree⟩

theorem spares_dupFd {newfd : ℕ} (hfree : s.fdToFilp t newfd = none) :
    Spares s (s.dupFd t fd newfd).2 := by
  unfold dupFd
  cases s.fdToPipe t fd with
  | none => exact .refl s
  | some entry =>
    have hbind := (Spares.refl s).setPipe hfree (some entry)
    dsimp only
    cases (s.setPipe t newfd (some entry)).pipes entry.1 with
    | none => exact hbind
    | some pipe => exact ⟨hbind.files, hbind.alone⟩

theorem spares_sysPipe (null page : Bool) : Spares s (s.sysPipe t null page).2 := by
  refine sysPipe_rule (.refl s) (fun _ => ⟨⟨rfl, rfl⟩, fun h => h⟩)
    (fun h hunused => ?_) null page
  simp only [unusedByPipe, Bool.and_eq_true, isNone_iff_eq_none] at hunused
  exact h.setPipe hunused.2 _

theorem Alone.setFd {entry : Option ℕ} (h : Alone s) (hfd : fd < nrOpen)
    (hfree : entry ≠ none → s.fdToPipe t fd = none) : Alone (s.setFd t fd entry) := by
  intro t' fd' hfile
  rw [fdToFilp_setFd hfd] at hfile
  rw [(samePipes_setFd entry).fdToPipe]
  split_ifs at hfile with hsame
  · obtain ⟨rfl, rfl⟩ := hsame
    exact hfree hfile
  · exact h t' fd' hfile

/-! ## The steps of a task -/

/-- The books, and that they are finite. -/
structure Core (x : Files) : Prop extends Kept x where
  alone : Alone x.fds
  small : ∀ f n, x.inode f = some n → f < nrFile
  reserved : ∀ t fd f, x.opening t = some (fd, f) → f < nrFile

/-- What a task that is not opening does to the books: no entry comes into use, no inode appears, and
those that go belong to entries that nothing holds. -/
structure Moves (x y : Files) (t : Task) : Prop where
  slot : y.slot = x.slot
  opening : y.opening = x.opening
  rows : ∀ t' fd, t' ≠ t → y.fds.fdToFilp t' fd = x.fds.fdToFilp t' fd
  zero : ∀ f, x.fds.holders f = 0 → y.fds.holders f = 0
  lasts : Lasts x y
  none : ∀ f, x.inode f = none → y.inode f = none

theorem Moves.refl (x : Files) (t : Task) : Moves x x t :=
  ⟨rfl, rfl, fun _ _ _ => rfl, fun _ h => h, fun _ _ h => .inl h, fun _ h => h⟩

theorem Moves.trans (h : Moves x y t) (h' : Moves y z t) : Moves x z t where
  slot := h'.slot.trans h.slot
  opening := h'.opening.trans h.opening
  rows t' fd hne := (h'.rows t' fd hne).trans (h.rows t' fd hne)
  zero f hzero := h'.zero f (h.zero f hzero)
  lasts f n hinode := by
    rcases h.lasts f n hinode with hstill | ⟨hnone, hzero⟩
    · exact h'.lasts f n hstill
    · exact .inr ⟨h'.none f hnone, h'.zero f hzero⟩
  none f hnone := h'.none f (h.none f hnone)

/-- A task does something, and the books are right after it. -/
structure Does (x y : Files) (t : Task) : Prop where
  core : Core y
  moves : Moves x y t

theorem Core.idle (h : Core x) (t : Task) : Does x x t := ⟨h, .refl x t⟩

theorem Does.andThen (h : Does x y t) (h' : Core y → Does y z t) : Does x z t :=
  ⟨(h' h.core).core, h.moves.trans (h' h.core).moves⟩

theorem Does.ite {c : Bool} (h : Does x y t) (h' : Does x z t) :
    Does x (if c = true then y else z) t := by
  cases c with
  | true => exact h
  | false => exact h'

/-- `Kept` from its independent parts. -/
theorem kept_of (hcount : ∀ f, x.fds.fCount f = x.fds.holders f)
    (hheld : ∀ f n, x.inode f = some n → 0 < x.fds.holders f)
    (howner : ∀ f, 0 < x.fds.holders f →
      (∃ n, x.inode f = some n) ∨ ∃ t fd, x.opening t = some (fd, f))
    (hopening : ∀ t fd f, x.opening t = some (fd, f) →
      x.fds.fdToFilp t fd = some f ∧ x.fds.holders f = 1 ∧ x.inode f = none)
    (hrefs : ∀ n, x.refs n = uses x.owners n) : Kept x where
  count := hcount
  handed f hfound := by
    have hfree := ((search_eq_some (P := fun f => x.fds.fCount f = 0) fun _ => by simp).mp hfound).holds
    rw [← hcount]
    exact hfree
  held := hheld
  owner := howner
  opening := hopening
  refs := hrefs

/-- The descriptors of one task and one entry are other. -/
structure Touches (x y : Files) (t : Task) (f : ℕ) : Prop where
  slot : y.slot = x.slot
  opening : ∀ t', t' ≠ t → y.opening t' = x.opening t'
  rows : ∀ t' fd, t' ≠ t → y.fds.fdToFilp t' fd = x.fds.fdToFilp t' fd
  holders : ∀ f', f' ≠ f → y.fds.holders f' = x.fds.holders f'
  inode : ∀ f', f' ≠ f → y.inode f' = x.inode f'
  count : ∀ f', y.fds.fCount f' = y.fds.holders f'
  refs : ∀ n, y.refs n = uses y.owners n
  alone : Alone y.fds

/-- The books, if no other task is opening the entry and the entry is in order. -/
theorem Core.touched (h : Core x) (htouches : Touches x y t f) (hf : f < nrFile)
    (hothers : ∀ t' fd', t' ≠ t → x.opening t' ≠ some (fd', f))
    (hbefore : ∀ fd' f', x.opening t = some (fd', f') → f' = f)
    (hopening : ∀ fd' f', y.opening t = some (fd', f') →
      f' = f ∧ y.fds.fdToFilp t fd' = some f ∧ y.fds.holders f = 1 ∧ y.inode f = none)
    (hheld : ∀ n, y.inode f = some n → 0 < y.fds.holders f)
    (howner : 0 < y.fds.holders f →
      (∃ n, y.inode f = some n) ∨ ∃ fd', y.opening t = some (fd', f)) : Core y := by
  refine ⟨kept_of htouches.count (fun f' n hn => ?_) (fun f' hpos => ?_)
    (fun t' fd' f' hopens => ?_) htouches.refs, htouches.alone, fun f' n hn => ?_,
    fun t' fd' f' hopens => ?_⟩
  · by_cases heq : f' = f
    · subst heq
      exact hheld n hn
    · rw [htouches.inode f' heq] at hn
      rw [htouches.holders f' heq]
      exact h.held f' n hn
  · by_cases heq : f' = f
    · subst heq
      exact (howner hpos).imp_right fun hopens => ⟨t, hopens⟩
    · rw [htouches.holders f' heq] at hpos
      rw [htouches.inode f' heq]
      refine (h.owner f' hpos).imp_right ?_
      rintro ⟨t', fd', hopens⟩
      refine ⟨t', fd', (htouches.opening t' ?_).trans hopens⟩
      rintro rfl
      exact heq (hbefore fd' f' hopens)
  · by_cases ht : t' = t
    · subst ht
      obtain ⟨rfl, hthere⟩ := hopening fd' f' hopens
      exact hthere
    · rw [htouches.opening t' ht] at hopens
      have heq : f' ≠ f := by
        rintro rfl
        exact hothers t' fd' ht hopens
      rw [htouches.rows t' fd' ht, htouches.holders f' heq, htouches.inode f' heq]
      exact h.opening t' fd' f' hopens
  · by_cases heq : f' = f
    · rw [heq]
      exact hf
    · exact h.small f' n ((htouches.inode f' heq).symm.trans hn)
  · by_cases ht : t' = t
    · subst ht
      rw [(hopening fd' f' hopens).1]
      exact hf
    · exact h.reserved t' fd' f' ((htouches.opening t' ht).symm.trans hopens)

theorem Core.beside (h : Core x) (hspares : Spares x.fds s) (t : Task) :
    Does x (x.withFds s) t := by
  have hfiles := hspares.files
  have hholders : ∀ f, (x.withFds s).fds.holders f = x.fds.holders f := hfiles.holders
  have hto : ∀ t fd, (x.withFds s).fds.fdToFilp t fd = x.fds.fdToFilp t fd := hfiles.fdToFilp
  refine ⟨⟨kept_of (fun f => ?_) (fun f n hinode => ?_) (fun f hpos => ?_)
    (fun t fd f hopening => ?_) h.refs, hspares.alone h.alone, h.small, h.reserved⟩,
    ⟨rfl, rfl, fun t' fd _ => hto t' fd, fun f hzero => (hholders f).trans hzero,
      fun _ _ hinode => .inl hinode, fun _ hnone => hnone⟩⟩
  · rw [hholders]
    exact (congrFun hfiles.2 f).trans (h.count f)
  · rw [hholders]
    exact h.held f n hinode
  · rw [hholders] at hpos
    exact h.owner f hpos
  · rw [hholders, hto]
    exact h.opening t fd f hopening

/-- An entry that is being opened is opened by one task. -/
theorem Core.sole_opener (h : Core x) (hopening : x.opening t = some (fd, f)) (t' : Task) (fd' : ℕ)
    (ht : t' ≠ t) : x.opening t' ≠ some (fd', f) := by
  intro hopens
  obtain ⟨hentry, hone, -⟩ := h.opening t fd f hopening
  exact ht (only_holder hone hentry (h.opening t' fd' f hopens).1)

theorem putFilp_eq (hcount : 0 < s.fCount f) : s.putFilp f = s.setCount f (s.fCount f - 1) :=
  if_neg (by omega)

/-- The counts after one descriptor is closed. -/
theorem count_unbind (hcount : ∀ f, s.fCount f = s.holders f) (hentry : s.fdToFilp t fd = some f)
    (f' : ℕ) : ((s.setFd t fd none).putFilp f).fCount f' = ((s.setFd t fd none).putFilp f).holders f' ∧
      s.holders f' = ((s.setFd t fd none).putFilp f).holders f' + if f' = f then 1 else 0 := by
  have hpos := holders_pos hentry
  have hput := putFilp_eq (s := s.setFd t fd none) (by rw [fCount_setFd, hcount]; exact hpos)
  have hholders : ((s.setFd t fd none).putFilp f).holders f' = (s.setFd t fd none).holders f' := by
    rw [hput]
    rfl
  have hless := holders_unbind hentry f'
  rw [hholders, hput]
  dsimp only [setCount]
  rw [fCount_setFd, update_apply]
  split_ifs at hless ⊢ with heq
  · rw [hcount f, ← heq]
    omega
  · rw [hcount]
    omega

section

variable (h : Core x) (hready : x.opening t = none) (hentry : x.fds.fdToFilp t fd = some f)

include h hready hentry

/-- An entry that a task holds while it is not opening is not being opened by anyone. -/
theorem Core.not_opening (t' : Task) (fd' : ℕ) : x.opening t' ≠ some (fd', f) := by
  intro hopening
  obtain ⟨hother, hone, -⟩ := h.opening t' fd' f hopening
  obtain rfl := only_holder hone hentry hother
  rw [hready] at hopening
  cases hopening

/-- An entry that a task holds while it is not opening has an inode. -/
theorem Core.has_inode : ∃ n, x.inode f = some n := by
  refine (h.owner f (holders_pos hentry)).resolve_right ?_
  rintro ⟨t', fd', hopens⟩
  exact h.not_opening hready hentry t' fd' hopens

/-- A task that is not opening changes an entry it holds, which keeps its inode exactly if it is still
held. -/
theorem Core.change (htouches : Touches x y t f) (hopening : y.opening = x.opening)
    (hinode : y.inode f = none ∧ y.fds.holders f = 0 ∨ y.inode f = x.inode f ∧ 0 < y.fds.holders f) :
    Does x y t := by
  obtain ⟨n, hn⟩ := h.has_inode hready hentry
  have hpos := holders_pos hentry
  refine ⟨h.touched htouches (h.small f n hn) (fun t' fd' _ => h.not_opening hready hentry t' fd')
    (fun fd' f' hopens => ?_) (fun fd' f' hopens => ?_) (fun m hm => ?_) (fun hheld => ?_),
    ⟨htouches.slot, hopening, htouches.rows, fun f' hzero => ?_, fun f' m hm => ?_,
    fun f' hnone => ?_⟩⟩
  · rw [hready] at hopens
    cases hopens
  · rw [hopening, hready] at hopens
    cases hopens
  · rcases hinode with ⟨hnone, -⟩ | ⟨-, hheld⟩
    · rw [hnone] at hm
      cases hm
    · exact hheld
  · rcases hinode with ⟨-, hzero⟩ | ⟨hkeeps, -⟩
    · omega
    · exact .inl ⟨n, hkeeps.trans hn⟩
  · have heq : f' ≠ f := by
      rintro rfl
      omega
    rw [htouches.holders f' heq]
    exact hzero
  · by_cases heq : f' = f
    · subst heq
      exact hinode.symm.imp_left fun hkeeps => hkeeps.1.trans hm
    · exact .inl ((htouches.inode f' heq).trans hm)
  · have heq : f' ≠ f := by
      rintro rfl
      rw [hn] at hnone
      cases hnone
    rw [htouches.inode f' heq]
    exact hnone

/-- A descriptor is closed, and the entry keeps its inode exactly if it is still held. -/
theorem Core.dropped (hslot : y.slot = x.slot) (hopening : y.opening = x.opening)
    (hfds : y.fds = (x.fds.setFd t fd none).putFilp f)
    (hother : ∀ f', f' ≠ f → y.inode f' = x.inode f')
    (hinode : y.inode f = none ∧ y.fds.holders f = 0 ∨ y.inode f = x.inode f ∧ 0 < y.fds.holders f)
    (hrefs : ∀ n, y.refs n = uses y.owners n) : Does x y t := by
  have hfd := fdToFilp_lt hentry
  have hcount : ∀ f', y.fds.fCount f' = y.fds.holders f' ∧
      x.fds.holders f' = y.fds.holders f' + if f' = f then 1 else 0 := by
    rw [hfds]
    exact count_unbind h.count hentry
  have hto : ∀ t' fd', y.fds.fdToFilp t' fd' =
      if t' = t ∧ fd' = fd then none else x.fds.fdToFilp t' fd' := by
    rw [hfds]
    exact fdToFilp_unbind hfd
  refine h.change hready hentry ⟨hslot, fun t' _ => congrFun hopening t', fun t' fd' hne => ?_,
    fun f' hne => ?_, hother, fun f' => (hcount f').1, hrefs, fun t' fd' hfile => ?_⟩ hopening hinode
  · rw [hto, if_neg fun hboth => hne hboth.1]
  · rw [(hcount f').2, if_neg hne, add_zero]
  · rw [hfds, (samePipes_putFilp f).fdToPipe, (samePipes_setFd none).fdToPipe]
    rw [hto] at hfile
    split_ifs at hfile
    · exact absurd rfl hfile
    · exact h.alone t' fd' hfile

end

theorem Core.bound {count : ℕ} (h : Core x) (hfd : fd < nrOpen) (hfree : x.fds.fdToFilp t fd = none)
    (hpipe : x.fds.fdToPipe t fd = none) (hcount : count = x.fds.holders f + 1)
    (hslot : y.slot = x.slot) (hopening : ∀ t', t' ≠ t → y.opening t' = x.opening t')
    (hfds : y.fds = (x.fds.setCount f count).setFd t fd (some f)) (hinode : y.inode = x.inode)
    (hrefs : y.refs = x.refs) :
    Touches x y t f ∧ y.fds.fdToFilp t fd = some f ∧ y.fds.holders f = count := by
  have hholders : ∀ f', y.fds.holders f' = x.fds.holders f' + if f' = f then 1 else 0 := by
    unfold holders
    rw [hfds, fileTable_setFd hfd]
    exact uses_bind (show x.fds.fileTable (t, ⟨fd, hfd⟩) = none from hfree) f
  have hto : ∀ t' fd', y.fds.fdToFilp t' fd' =
      if t' = t ∧ fd' = fd then some f else x.fds.fdToFilp t' fd' := by
    rw [hfds]
    exact fdToFilp_setFd hfd (some f)
  have hhere : y.fds.holders f = count := by rw [hholders, if_pos rfl, hcount]
  refine ⟨⟨hslot, hopening, fun t' fd' hne => ?_, fun f' hne => ?_, fun f' _ => congrFun hinode f',
    fun f' => ?_, fun n => ?_, ?_⟩, by rw [hto, if_pos ⟨rfl, rfl⟩], hhere⟩
  · rw [hto, if_neg fun hboth => hne hboth.1]
  · rw [hholders, if_neg hne, add_zero]
  · have hcounts : y.fds.fCount = update x.fds.fCount f count := by
      rw [hfds]
      exact fCount_setFd _
    by_cases heq : f' = f
    · rw [heq, hcounts, update_self, hhere]
    · rw [hcounts, update_of_ne heq, hholders, if_neg heq, add_zero]
      exact h.count f'
  · have howners : y.owners = x.owners := funext fun f' => congrFun hinode f'
    rw [hrefs, howners]
    exact h.refs n
  · rw [hfds]
    exact Alone.setFd h.alone hfd fun _ => hpipe

/-- The references when an entry loses its inode. -/
theorem refs_release (hrefs : ∀ n, x.refs n = uses x.owners n)
    (hf : f < nrFile) (hinode : x.inode f = some n) (n' : ℕ) :
    ((x.setInode f none).iput (some n)).refs n' =
      uses ((x.setInode f none).iput (some n)).owners n' := by
  have htable : ((x.setInode f none).iput (some n)).owners =
      update x.owners ⟨f, hf⟩ none := by
    funext f'
    simp [Files.owners, Files.iput, Files.addRefs, Files.setInode, update_apply,
      Fin.ext_iff]
  have huses := uses_unbind (show x.owners ⟨f, hf⟩ = some n from hinode) n'
  rw [htable]
  dsimp only [Files.iput, Files.addRefs, Files.setInode]
  rw [update_apply]
  split_ifs at huses ⊢ with heq
  · rw [heq] at huses ⊢
    rw [hrefs]
    omega
  · rw [hrefs, huses, add_zero]

section

variable (h : Core x)

include h

theorem Core.drop (hready : x.opening t = none)
    (hentry : x.fds.fdToFilp t fd = some f) :
    Does x ((x.withFds (x.fds.setFd t fd none)).putFilp f) t := by
  have hsame : (x.fds.setFd t fd none).fCount = x.fds.fCount := fCount_setFd none
  have hcount := count_unbind h.count hentry f
  rw [if_pos rfl] at hcount
  by_cases hone : x.fds.fCount f = 1
  · obtain ⟨n, hn⟩ := h.has_inode hready hentry
    have hy : (x.withFds (x.fds.setFd t fd none)).putFilp f =
        ((x.withFds ((x.fds.setFd t fd none).putFilp f)).setInode f none).iput (some n) := by
      have hlast : (x.withFds (x.fds.setFd t fd none)).fds.fCount f = 1 :=
        (congrFun hsame f).trans hone
      unfold Files.putFilp
      rw [if_pos hlast, show (x.withFds (x.fds.setFd t fd none)).inode f = some n from hn]
      rfl
    rw [hy]
    refine h.dropped hready hentry rfl rfl rfl (fun f' hne => ?_) (.inl ⟨?_, ?_⟩)
      (refs_release h.refs (h.small f n hn) hn)
    · exact update_of_ne hne ..
    · exact update_self ..
    · have hholders := h.count f
      show ((x.fds.setFd t fd none).putFilp f).holders f = 0
      omega
  · have hy : (x.withFds (x.fds.setFd t fd none)).putFilp f =
        x.withFds ((x.fds.setFd t fd none).putFilp f) := by
      have hmore : (x.withFds (x.fds.setFd t fd none)).fds.fCount f ≠ 1 := fun hlast =>
        hone ((congrFun hsame f).symm.trans hlast)
      unfold Files.putFilp
      rw [if_neg hmore]
      rfl
    rw [hy]
    refine h.dropped hready hentry rfl rfl rfl (fun _ _ => rfl) (.inr ⟨rfl, ?_⟩) h.refs
    have hholders := h.count f
    show 0 < ((x.fds.setFd t fd none).putFilp f).holders f
    omega

/-- Another descriptor of an entry the task holds. -/
theorem Core.share {oldfd : ℕ} (hready : x.opening t = none)
    (hentry : x.fds.fdToFilp t oldfd = some f) (hfd : fd < nrOpen)
    (hfree : x.fds.fdToFilp t fd = none) (hpipe : x.fds.fdToPipe t fd = none) :
    Does x (x.withFds ((x.fds.setCount f (x.fds.fCount f + 1)).setFd t fd (some f))) t := by
  have hcount : x.fds.fCount f + 1 = x.fds.holders f + 1 := by rw [h.count]
  obtain ⟨htouches, -, hhere⟩ := h.bound
    (y := x.withFds ((x.fds.setCount f (x.fds.fCount f + 1)).setFd t fd (some f)))
    hfd hfree hpipe hcount rfl (fun _ _ => rfl) rfl rfl rfl
  refine h.change hready hentry htouches rfl (.inr ⟨rfl, ?_⟩)
  rw [hhere]
  exact Nat.succ_pos _

theorem Core.sysClose (hready : x.opening t = none) (fd : ℕ) : Does x (x.sysClose t fd) t := by
  unfold Files.sysClose
  cases hentry : x.fds.fdToFilp t fd with
  | none => exact h.idle t
  | some f => exact h.drop hready hentry

section

variable (t : Task) (fd : ℕ)

theorem Core.closeFd : Does x (x.withFds (x.fds.closeFd t fd)) t :=
  h.beside ⟨sameFiles_closeFd, Alone.closeFd⟩ t

theorem Core.closeSocket : Does x (x.withFds (x.fds.closeSocket fd)) t :=
  h.beside (.of_eq (beside_tables.closeSocket x.fds fd)) t

theorem Core.setEvent : Does x (x.withFds (x.fds.setEvent t fd none)) t :=
  h.beside (.of_eq (beside_tables.event x.fds t fd none)) t

/-- A pipe and a socket are closed, as in `close` and in `close_all`. -/
theorem Core.closeBoth :
    let y := if x.fds.fdIsPipe t fd then x.withFds (x.fds.closeFd t fd) else x
    Does x (if y.fds.fdIsSocket fd then y.withFds (y.fds.closeSocket fd) else y) t := by
  have hpipe := (h.closeFd t fd).ite (c := x.fds.fdIsPipe t fd) (h.idle t)
  exact hpipe.andThen fun hy => (hy.closeSocket t fd).ite (hy.idle t)

end

end

/-- And an event, as in `close`. -/
theorem Does.closeEvent (h : Does x y t) (fd : ℕ) :
    Does x (if y.fds.fdIsEvent t fd then y.withFds (y.fds.setEvent t fd none) else y) t :=
  h.andThen fun hy => (hy.setEvent t fd).ite (hy.idle t)

section

variable (h : Core x) (hready : x.opening t = none)

include h hready

theorem Core.close (fd : ℕ) : Does x (x.close t fd) t := by
  have hevent := (h.closeBoth t fd).closeEvent fd
  refine Does.ite hevent (hevent.andThen fun hz => hz.sysClose ?_ fd)
  rw [hevent.moves.opening]
  exact hready

theorem Core.closeOne (fd : ℕ) : Does x (x.closeOne t fd) t := by
  have hboth := h.closeBoth t fd
  refine hboth.andThen fun hy => (hy.sysClose ?_ fd).ite (hy.idle t)
  rw [hboth.moves.opening]
  exact hready

theorem Core.closeAll : Does x (x.closeAll t) t := by
  have hfold : ∀ (fds : List ℕ) (x : Files), Core x → x.opening t = none →
      Does x (fds.foldl (fun x fd => x.closeOne t fd) x) t := by
    intro fds
    induction fds with
    | nil => exact fun x h _ => h.idle t
    | cons fd fds ih =>
      intro x h hready
      have hone := h.closeOne hready fd
      refine hone.andThen fun hy => ih _ hy ?_
      rw [hone.moves.opening]
      exact hready
  exact hfold _ x h hready

end

theorem unused_spec (h : s.unused t fd = true) :
    s.fdToFilp t fd = none ∧ s.fdToPipe t fd = none := by
  simp only [unused, fdIsPipe, Bool.and_eq_true, Bool.not_eq_true',
    isSome_eq_false_iff, isNone_iff_eq_none] at h
  exact ⟨h.1.1, h.1.2⟩

section

variable (h : Core x) (hready : x.opening t = none)

include h hready

theorem Core.dupFrom (fd start : ℕ) : Does x (x.withFds (x.fds.dupFrom t fd start).2) t := by
  unfold Fds.dupFrom
  by_cases hpipe : x.fds.fdIsPipe t fd = true
  · rw [if_pos hpipe]
    cases hsearch : search (x.fds.unused t) start nrOpen with
    | none => exact h.idle t
    | some new =>
      have hfirst := (search_eq_some fun _ => Iff.rfl).mp hsearch
      exact h.beside (spares_dupFd (unused_spec hfirst.holds).1) t
  · rw [if_neg hpipe]
    cases hentry : x.fds.fdToFilp t fd with
    | none => exact h.idle t
    | some f =>
      cases hsearch : search (x.fds.unused t) start nrOpen with
      | none => exact h.idle t
      | some new =>
        have hfirst := (search_eq_some fun _ => Iff.rfl).mp hsearch
        obtain ⟨hfile, hfree⟩ := unused_spec hfirst.holds
        exact h.share hready hentry hfirst.lt_high hfile hfree

/-- What `dup2` replaces is closed. -/
theorem Core.closeTarget (fd : ℕ) :
    Does x (x.closeTarget t fd) t ∧ (x.closeTarget t fd).fds.fdToFilp t fd = none ∧
      (x.closeTarget t fd).fds.fdToPipe t fd = none ∧
      ∀ fd', fd' ≠ fd → (x.closeTarget t fd).fds.fdToFilp t fd' = x.fds.fdToFilp t fd' := by
  unfold Files.closeTarget
  cases hpipe : x.fds.fdToPipe t fd with
  | some entry =>
    have hfile : x.fds.fdToFilp t fd = none := by
      by_contra hne
      rw [h.alone t fd hne] at hpipe
      cases hpipe
    rw [if_pos (by rw [fdIsPipe, hpipe]; rfl)]
    refine ⟨h.closeFd t fd, (sameFiles_closeFd.fdToFilp t fd).trans hfile, ?_,
      fun fd' _ => sameFiles_closeFd.fdToFilp t fd'⟩
    refine find_pipe_eq_none_iff.mp ?_
    dsimp only [Files.withFds]
    rw [rebinds_closeFd.cleared, if_pos ⟨rfl, rfl, .inr rfl⟩]
  | none =>
    rw [if_neg (by rw [fdIsPipe, hpipe]; simp)]
    cases hentry : x.fds.fdToFilp t fd with
    | none =>
      exact ⟨h.idle t, hentry, hpipe, fun _ _ => rfl⟩
    | some f =>
      rw [if_pos (by simp)]
      have hfd := fdToFilp_lt hentry
      have hfds : (x.sysClose t fd).fds = (x.fds.setFd t fd none).putFilp f := by
        unfold Files.sysClose
        rw [hentry]
        dsimp only [Files.putFilp]
        split_ifs
        · cases (x.withFds (x.fds.setFd t fd none)).inode f <;> rfl
        · rfl
      have hto := fdToFilp_unbind (s := x.fds) (t := t) (f := f) hfd t
      refine ⟨h.sysClose hready fd, ?_, ?_, fun fd' hne => ?_⟩
      · rw [hfds, hto, if_pos ⟨rfl, rfl⟩]
      · rw [hfds, (samePipes_putFilp f).fdToPipe, (samePipes_setFd none).fdToPipe]
        exact hpipe
      · rw [hfds, hto, if_neg fun hboth => hne hboth.2]

theorem Core.sysDup2 (oldfd newfd : ℕ) : Does x (x.sysDup2 t oldfd newfd) t := by
  obtain ⟨hclosed, hfile, hpipe, hother⟩ := h.closeTarget hready newfd
  unfold Files.sysDup2
  split_ifs with hbeyond hold heq
  · exact h.idle t
  · exact h.idle t
  · exact hclosed.andThen fun hy => hy.beside (spares_dupFd hfile) t
  · cases x.fds.fdToFilp t oldfd with
    | none => exact h.idle t
    | some f => exact h.idle t
  · cases hentry : x.fds.fdToFilp t oldfd with
    | none => exact h.idle t
    | some f =>
      rename_i hne
      refine hclosed.andThen fun hy => hy.share ?_ ((hother oldfd hne).trans hentry)
        (not_le.mp hbeyond) hfile hpipe
      rw [hclosed.moves.opening]
      exact hready

end

/-- A call of a task that is not opening. -/
theorem Core.call {c : Call} (h : Core x) (hready : x.opening t = none)
    (hcall : x.call t c = some y) : Does x y t := by
  cases c with
  | «open» outcome => cases hcall
  | pipe null page =>
    cases hcall
    exact h.beside (spares_sysPipe null page) t
  | socket | socketpair | accept | createEvent =>
    cases hcall
    exact h.beside (.of_eq (beside_tables.call x.fds t (by trivial))) t
  | dup fd =>
    cases hcall
    exact h.dupFrom hready fd 0
  | dup2 oldfd newfd =>
    cases hcall
    exact h.sysDup2 hready oldfd newfd
  | dupfd fd start =>
    cases hcall
    exact h.dupFrom hready fd start
  | close fd =>
    cases hcall
    exact h.close hready fd

/-! ## Opening -/

/-- The books, and that a slot without a task has no files. -/
structure Inv (x : Files) : Prop extends Core x where
  rows : ∀ t, x.slot t ≠ .live → ∀ fd, x.fds.fdToFilp t fd = none
  live : ∀ t, x.opening t ≠ none → x.slot t = .live

/-- What a live task does leaves the slots without a task alone. -/
theorem Inv.of_core (h : Inv x) (hcore : Core y) (hlive : x.slot t = .live) (hslot : y.slot = x.slot)
    (hopening : ∀ t', t' ≠ t → y.opening t' = x.opening t')
    (hrows : ∀ t' fd, t' ≠ t → y.fds.fdToFilp t' fd = x.fds.fdToFilp t' fd) : Inv y where
  toCore := hcore
  rows t' hdead fd := by
    rw [hslot] at hdead
    have hne : t' ≠ t := by
      rintro rfl
      exact hdead hlive
    rw [hrows t' fd hne]
    exact h.rows t' hdead fd
  live t' hopens := by
    rw [hslot]
    by_cases ht : t' = t
    · rw [ht]
      exact hlive
    · rw [hopening t' ht] at hopens
      exact h.live t' hopens

/-- An entry that nothing holds has no inode. -/
theorem Kept.inode_none (h : Kept x) (hzero : x.fds.holders f = 0) : x.inode f = none := by
  by_contra hne
  obtain ⟨n, hn⟩ := ne_none_iff_exists'.mp hne
  have hpos := h.held f n hn
  omega

/-- The entry and the descriptor of an `open` are taken. -/
theorem Inv.reserve (h : Inv x) (hready : x.Ready t) (hfd : fd < nrOpen)
    (hunused : x.fds.unused t fd = true) (hf : f < nrFile) (hempty : x.fds.fCount f = 0) :
    Inv (((x.withFds ((x.fds.setCount f 1).setFd t fd (some f))).setInode f none).setOpening t
      (some (fd, f))) ∧
    (((x.withFds ((x.fds.setCount f 1).setFd t fd (some f))).setInode f none).setOpening t
      (some (fd, f))).inode = x.inode := by
  obtain ⟨hfree, hpipe⟩ := unused_spec hunused
  have hzero : x.fds.holders f = 0 := (h.count f).symm.trans hempty
  have hnone := h.inode_none hzero
  have hinode : update x.inode f none = x.inode := by
    rw [← hnone]
    exact update_eq_self ..
  have hy : ((x.withFds ((x.fds.setCount f 1).setFd t fd (some f))).setInode f none).setOpening t
      (some (fd, f)) = { x with
        fds := (x.fds.setCount f 1).setFd t fd (some f)
        opening := update x.opening t (some (fd, f)) } := by
    simp [Files.withFds, Files.setInode, Files.setOpening, hinode]
  rw [hy]
  obtain ⟨htouches, hto, hhere⟩ := h.bound (y := { x with
    fds := (x.fds.setCount f 1).setFd t fd (some f)
    opening := update x.opening t (some (fd, f)) }) hfd hfree hpipe (by rw [hzero]) rfl
    (fun t' ht => update_of_ne ht ..) rfl rfl rfl
  refine ⟨h.of_core (h.touched htouches hf (fun t' fd' _ hopens => ?_) (fun fd' f' hopens => ?_)
    (fun fd' f' hopens => ?_) (fun n hn => ?_) fun _ => .inr ⟨fd, update_self ..⟩) hready.1 rfl
    htouches.opening htouches.rows, rfl⟩
  · rw [(h.opening t' fd' f hopens).2.1] at hzero
    cases hzero
  · rw [hready.2] at hopens
    cases hopens
  · cases (update_self t _ x.opening).symm.trans hopens
    exact ⟨rfl, hto, hhere, hnone⟩
  · rw [hhere]
    exact one_pos

theorem Inv.openBegin (h : Inv x) (hready : x.Ready t) :
    Inv (x.openBegin t) ∧ (x.openBegin t).inode = x.inode := by
  unfold Files.openBegin
  cases hfd : x.fds.getUnusedFd t with
  | none => exact ⟨h, rfl⟩
  | some fd =>
    cases hf : x.fds.getEmptyFilp with
    | none => exact ⟨h, rfl⟩
    | some f =>
      have hfirst := (search_eq_some fun _ => Iff.rfl).mp hfd
      have hfile := (search_eq_some (P := fun f => x.fds.fCount f = 0) fun _ => by simp).mp hf
      exact h.reserve hready hfirst.lt_high hfirst.holds hfile.lt_high hfile.holds

/-- An `open` that failed. -/
theorem Inv.openFailed (h : Inv x) (hopening : x.opening t = some (fd, f)) :
    Inv (x.openEnd t fd f .failed) := by
  obtain ⟨hentry, hone, hnone⟩ := h.opening t fd f hopening
  have hfd := fdToFilp_lt hentry
  have hto := fdToFilp_setFd (s := x.fds) (t := t) hfd none
  have hsame : ∀ f', f' ≠ f → ((x.fds.setFd t fd none).setCount f 0).holders f' =
      x.fds.holders f' := by
    intro f' hne
    rw [holders_unbind hentry f', if_neg hne, add_zero]
    rfl
  have hgone : ((x.fds.setFd t fd none).setCount f 0).holders f = 0 := by
    have hless := holders_unbind hentry f
    rw [if_pos rfl, hone] at hless
    exact (Nat.succ_injective hless).symm
  have htouches : Touches x (x.openEnd t fd f .failed) t f := by
    refine ⟨rfl, fun t' ht => update_of_ne ht .., fun t' fd' ht => ?_, hsame, fun _ _ => rfl,
      fun f' => ?_, h.refs, h.alone.setFd hfd fun hne => absurd rfl hne⟩
    · exact (hto t' fd').trans (if_neg fun hboth => ht hboth.1)
    · show update (x.fds.setFd t fd none).fCount f 0 f' = _
      rw [fCount_setFd]
      by_cases heq : f' = f
      · rw [heq, update_self]
        exact hgone.symm
      · rw [update_of_ne heq, h.count]
        exact (hsame f' heq).symm
  refine h.of_core (h.touched htouches (h.reserved t fd f hopening) (h.sole_opener hopening)
    (fun fd' f' hopens => ?_) (fun fd' f' hopens => ?_) (fun n hn => ?_) fun hpos => ?_)
    (h.live t (by rw [hopening]; simp)) rfl htouches.opening htouches.rows
  · rw [hopening] at hopens
    cases hopens
    rfl
  · rw [show (x.openEnd t fd f .failed).opening t = none from update_self ..] at hopens
    cases hopens
  · cases hnone.symm.trans hn
  · exact absurd hgone (Nat.pos_iff_ne_zero.mp hpos)

/-- A driver that refuses leaves nothing behind. -/
theorem openEnd_refused (hnone : x.inode f = none) :
    x.openEnd t fd f (.found n false) = x.openEnd t fd f .failed := by
  have hinode : update x.inode f none = x.inode := by
    rw [← hnone]
    exact update_eq_self ..
  simp [Files.openEnd, Files.setOpening, Files.withFds, Files.addRefs, Files.setInode, Files.iput,
    hinode]

/-- An `open` that succeeded. -/
theorem Inv.openDone (h : Inv x) (hopening : x.opening t = some (fd, f)) (n : ℕ) :
    Inv (x.openEnd t fd f (.found n true)) := by
  obtain ⟨hentry, hone, hnone⟩ := h.opening t fd f hopening
  have hf := h.reserved t fd f hopening
  have htouches : Touches x (x.openEnd t fd f (.found n true)) t f := by
    refine ⟨rfl, fun t' ht => update_of_ne ht .., fun _ _ _ => rfl, fun _ _ => rfl,
      fun f' hne => update_of_ne hne .., h.count, fun m => ?_, h.alone⟩
    have htable : (x.openEnd t fd f (.found n true)).owners =
        update x.owners ⟨f, hf⟩ (some n) := by
      funext f'
      simp [Files.owners, Files.openEnd, Files.setInode, Files.addRefs, Files.setOpening,
        update_apply, Fin.ext_iff]
    rw [htable, uses_bind (show x.owners ⟨f, hf⟩ = none from hnone)]
    show update x.refs n (x.refs n + 1) m = _
    rw [update_apply]
    split_ifs with heq
    · rw [heq, h.refs]
      rfl
    · exact h.refs m
  refine h.of_core (h.touched htouches hf (h.sole_opener hopening) (fun fd' f' hopens => ?_)
    (fun fd' f' hopens => ?_) (fun _ _ => ?_) fun _ => .inl ⟨n, update_self ..⟩)
    (h.live t (by rw [hopening]; simp)) rfl htouches.opening htouches.rows
  · rw [hopening] at hopens
    cases hopens
    rfl
  · rw [show (x.openEnd t fd f (.found n true)).opening t = none from update_self ..] at hopens
    cases hopens
  · exact hone.symm ▸ one_pos

/-! ## `fork` and `exit` -/

theorem sameFiles_countEnd {i : ℕ} {dir : Dir} (h : s.countEnd i dir = some s') : SameFiles s s' :=
    by
  unfold countEnd at h
  split at h
  · cases h
    exact .refl _
  · split_ifs at h
    cases h
    exact ⟨rfl, rfl⟩
  · split_ifs at h
    cases h
    exact ⟨rfl, rfl⟩

theorem sameFiles_foldlM {g : Fds → ℕ → Option Fds}
    (hg : ∀ s fd s', g s fd = some s' → SameFiles s s')
    (fds : List ℕ) (h : fds.foldlM g s = some s') : SameFiles s s' := by
  induction fds generalizing s with
  | nil =>
    cases h
    exact .refl _
  | cons fd rest ih =>
    obtain ⟨next, hnext, hrest⟩ := bind_eq_some_iff.mp h
    exact (hg s fd next hnext).trans (ih hrest)

/-- The counts when the files of a child are counted. -/
theorem fCount_countFiles (s : Fds) (child : Task) :
    (s.countFiles child).filp = s.filp ∧ ∀ f, (s.countFiles child).fCount f =
      s.fCount f + uses (fun fd : Fin 64 => s.fdToFilp child fd) f := by
  have hrounds : ∀ width, ∃ s', (range width).foldl (fun s fd =>
      match s.fdToFilp child fd with
      | none => s
      | some f => s.setCount f (s.fCount f + 1)) s = s' ∧ s'.filp = s.filp ∧
      ∀ f, s'.fCount f = s.fCount f +
        ∑ fd ∈ Finset.range width, if s.fdToFilp child fd = some f then 1 else 0 := by
    intro width
    induction width with
    | zero => exact ⟨s, rfl, rfl, fun _ => rfl⟩
    | succ width ih =>
      obtain ⟨s', heq, hfilp, hcount⟩ := ih
      have hto : s'.fdToFilp child width = s.fdToFilp child width := by
        unfold fdToFilp
        rw [hfilp]
      refine ⟨_, rfl, ?_, fun f => ?_⟩
      · rw [range_succ, foldl_append, heq, foldl_cons, hto]
        cases s.fdToFilp child width with
        | none => exact hfilp
        | some f => exact hfilp
      · rw [range_succ, foldl_append, heq, foldl_cons, foldl_nil, hto,
          Finset.sum_range_succ, ← add_assoc, ← hcount]
        cases s.fdToFilp child width with
        | none => rw [if_neg (by simp), add_zero]
        | some f' =>
          dsimp only [setCount]
          rw [update_apply]
          by_cases hf : f = f'
          · rw [if_pos hf, if_pos (by rw [hf]), hf]
          · rw [if_neg hf, if_neg fun h => hf (some.inj h).symm, add_zero]
  obtain ⟨s', heq, hfilp, hcount⟩ := hrounds nrOpen
  have hfinal : s.countFiles child = s' := heq
  rw [hfinal]
  refine ⟨hfilp, fun f => ?_⟩
  rw [uses_columns]
  exact hcount f

/-- The files of a child are those of its parent. -/
theorem files_inherit (h : s.inherit parent child = some s')
    (hempty : ∀ fd, s.fdToFilp child fd = none) :
    ∀ f, s'.fCount f = s.fCount f + uses (fun fd : Fin 64 => s.fdToFilp parent fd) f ∧
      s'.holders f = s.holders f + uses (fun fd : Fin 64 => s.fdToFilp parent fd) f := by
  obtain ⟨s₂, hclone, rfl⟩ := map_eq_some_iff.mp h
  have hsame : SameFiles (s.cloneFds parent child) s₂ := by
    have hstart : SameFiles (s.cloneFds parent child)
        { s.cloneFds parent child with pipe := update s.pipe child (s.pipe parent) } :=
      ⟨rfl, rfl⟩
    refine hstart.trans (sameFiles_foldlM (fun s fd s' hstep => ?_) _ hclone)
    split at hstep
    · cases hstep
      exact .refl _
    · exact sameFiles_countEnd hstep
  obtain ⟨hfilp, hcount⟩ := fCount_countFiles s₂ child
  have hrow : ∀ fd, s₂.fdToFilp child fd = s.fdToFilp parent fd := by
    intro fd
    unfold fdToFilp
    rw [hsame.1]
    dsimp only [cloneFds]
    rw [update_self]
  intro f
  constructor
  · rw [hcount, hsame.2]
    simp only [hrow]
    rfl
  · have htable : (s₂.countFiles child).fileTable = fun place =>
        if place.1 = child then s.fdToFilp parent place.2 else s.fileTable place := by
      funext place
      unfold fileTable fdToFilp
      rw [hfilp, hsame.1]
      dsimp only [cloneFds]
      by_cases heq : place.1 = child
      · rw [heq, update_self, if_pos rfl]
      · rw [update_of_ne heq, if_neg heq]
    have hnone : ∀ fd : Fin 64, s.fileTable (child, fd) = none := fun fd => hempty fd
    unfold holders
    rw [htable]
    exact uses_row hnone (fun fd => s.fdToFilp parent fd) f

theorem Alone.inherit (h : Alone s) (hinherit : s.inherit parent child = some s') : Alone s' := by
  intro t fd hfile
  refine find_pipe_eq_none_iff.mp ?_
  have hfile' : s'.find t fd .file ≠ none := fun hnone => hfile (find_file_eq.mp hnone)
  rw [find_inherit hinherit] at hfile' ⊢
  by_cases ht : t = child
  · rw [if_pos ⟨ht, .inl rfl⟩] at hfile'
    rw [if_pos ⟨ht, .inr rfl⟩]
    exact find_pipe_eq_none_iff.mpr (h parent fd fun hnone => hfile' (find_file_eq.mpr hnone))
  · rw [if_neg fun hboth => ht hboth.1] at hfile' ⊢
    exact find_pipe_eq_none_iff.mpr (h t fd fun hnone => hfile' (find_file_eq.mpr hnone))

/-- A child shares the entries of its parent, none of which is being opened. -/
theorem Inv.inherit (h : Inv x) (hready : x.opening parent = none) (hunused : x.slot child ≠ .live)
    (hinherit : x.fds.inherit parent child = some s') :
    Inv { x with fds := s', slot := update x.slot child .live } := by
  have hfiles := files_inherit hinherit (h.rows child hunused)
  have hto : ∀ t fd, t ≠ child → s'.fdToFilp t fd = x.fds.fdToFilp t fd := by
    intro t fd hne
    have hfind := find_inherit hinherit t fd .file
    rw [if_neg fun hboth => hne hboth.1] at hfind
    exact map_injective (fun _ _ heq => Obj.file.inj heq) hfind
  have hrow : ∀ f, 0 < uses (fun fd : Fin 64 => x.fds.fdToFilp parent fd) f → 0 < x.fds.holders f ∧
      ∀ t fd, x.opening t ≠ some (fd, f) := by
    intro f hpos
    obtain ⟨fd, hfd⟩ := uses_pos.mp hpos
    exact ⟨holders_pos hfd, h.not_opening hready hfd⟩
  have hchild : ∀ {t fd f}, x.opening t = some (fd, f) → t ≠ child := by
    rintro t fd f hopens rfl
    exact hunused (h.live t (by rw [hopens]; simp))
  refine ⟨⟨kept_of (fun f => ?_) (fun f n hn => ?_) (fun f hheld => ?_)
    (fun t fd f hopens => ?_) h.refs, h.alone.inherit hinherit, h.small, h.reserved⟩,
    fun t hdead fd => ?_, fun t hopens => ?_⟩
  · rw [(hfiles f).1, (hfiles f).2, h.count]
  · rw [(hfiles f).2]
    have hpos := h.held f n hn
    omega
  · rw [(hfiles f).2] at hheld
    refine h.owner f ?_
    by_contra hzero
    exact hzero (hrow f (by omega)).1
  · obtain ⟨hholds, hone, hnone⟩ := h.opening t fd f hopens
    refine ⟨(hto t fd (hchild hopens)).trans hholds, ?_, hnone⟩
    rw [(hfiles f).2]
    by_contra hmore
    exact (hrow f (by omega)).2 t fd hopens
  · dsimp only at hdead ⊢
    have hne : t ≠ child := by
      rintro rfl
      exact hdead (update_self ..)
    rw [update_of_ne hne] at hdead
    rw [hto t fd hne]
    exact h.rows t hdead fd
  · dsimp only at hopens ⊢
    obtain ⟨entry, hentry⟩ := ne_none_iff_exists'.mp hopens
    rw [update_of_ne (hchild hentry)]
    exact h.live t hopens

/-! The descriptors, as in the model of the tables alone. -/

theorem fds_sysClose (x : Files) (t : Task) (fd : ℕ) : (x.sysClose t fd).fds =
    (x.fds.sysClose t fd).2 := by
  unfold Files.sysClose sysClose
  cases x.fds.fdToFilp t fd with
  | none => rfl
  | some f =>
    dsimp only [Files.putFilp]
    split_ifs
    · cases (x.withFds (x.fds.setFd t fd none)).inode f <;> rfl
    · rfl

theorem fds_closeOne (x : Files) (t : Task) (fd : ℕ) : (x.closeOne t fd).fds = x.fds.closeOne t fd
    := by
  have hpipe : (if x.fds.fdIsPipe t fd = true then x.withFds (x.fds.closeFd t fd) else x).fds =
      if x.fds.fdIsPipe t fd = true then x.fds.closeFd t fd else x.fds := apply_ite Files.fds ..
  unfold Files.closeOne closeOne
  dsimp only
  generalize (if x.fds.fdIsPipe t fd = true then x.withFds (x.fds.closeFd t fd) else x) = y at hpipe ⊢
  rw [← hpipe]
  have hsock : (if y.fds.fdIsSocket fd = true then y.withFds (y.fds.closeSocket fd) else y).fds =
      if y.fds.fdIsSocket fd = true then y.fds.closeSocket fd else y.fds := apply_ite Files.fds ..
  rw [← hsock, apply_ite Files.fds, fds_sysClose]

theorem fds_closeAll (x : Files) (t : Task) : (x.closeAll t).fds = x.fds.closeAll t := by
  have hfold : ∀ (fds : List ℕ) (x : Files), (fds.foldl (fun x fd => x.closeOne t fd) x).fds =
      fds.foldl (fun s fd => s.closeOne t fd) x.fds := by
    intro fds
    induction fds with
    | nil => exact fun _ => rfl
    | cons fd rest ih =>
      intro x
      rw [foldl_cons, foldl_cons, ih, fds_closeOne]
  exact hfold _ x

theorem Inv.exit (h : Inv x) (hready : x.Ready t) :
    Inv { x.closeAll t with slot := update x.slot t .zombie } ∧ Moves x (x.closeAll t) t := by
  have hdoes := h.toCore.closeAll hready.2
  have hgone : ∀ fd, (x.closeAll t).fds.fdToFilp t fd = none := by
    intro fd
    have hfind := find_closeAll x.fds t t fd .file
    rw [if_pos (.inr ⟨rfl, .inl rfl⟩), ← fds_closeAll] at hfind
    exact find_file_eq.mp hfind
  generalize x.closeAll t = y at hdoes hgone ⊢
  refine ⟨⟨{ hdoes.core with }, fun t' hdead fd => ?_, fun t' hopens => ?_⟩, hdoes.moves⟩
  · dsimp only at hdead ⊢
    by_cases heq : t' = t
    · rw [heq]
      exact hgone fd
    · rw [update_of_ne heq] at hdead
      rw [hdoes.moves.rows t' fd heq]
      exact h.rows t' hdead fd
  · dsimp only at hopens ⊢
    rw [hdoes.moves.opening] at hopens
    have hne : t' ≠ t := by
      rintro rfl
      exact hopens hready.2
    rw [update_of_ne hne]
    exact h.live t' hopens

/-- Only the slots are other. -/
theorem Inv.setSlot (h : Inv x) {slot : Task → Slot}
    (hlive : ∀ t, x.slot t = .live → slot t = .live) : Inv { x with slot := slot } :=
  ⟨{ h.toCore with }, fun t hdead => h.rows t fun hthere => hdead (hlive t hthere),
    fun t hopens => hlive t (h.live t hopens)⟩

/-! ## Runs -/

/-- The inodes are the same. -/
theorem lasts_of_eq (h : y.inode = x.inode) : Lasts x y :=
  fun f _ hn => .inl ((congrFun h f).trans hn)

theorem gains_of_none (h : ∀ f, x.inode f = none → y.inode f = none) : Gains x y event := by
  intro f n hnone hsome
  rw [h f hnone] at hsome
  cases hsome

theorem Inv.openEnd (h : Inv x) (hopening : x.opening t = some (fd, f)) (outcome : Outcome) :
    Inv (x.openEnd t fd f outcome) ∧ Lasts x (x.openEnd t fd f outcome) ∧
      Gains x (x.openEnd t fd f outcome) (.openEnd t outcome) := by
  obtain ⟨-, -, hnone⟩ := h.opening t fd f hopening
  have hfailed : Inv (x.openEnd t fd f .failed) ∧ Lasts x (x.openEnd t fd f .failed) ∧
      ∀ event, Gains x (x.openEnd t fd f .failed) event :=
    ⟨h.openFailed hopening, lasts_of_eq rfl, fun _ => gains_of_none fun _ hn => hn⟩
  cases outcome with
  | failed => exact ⟨hfailed.1, hfailed.2.1, hfailed.2.2 _⟩
  | found n accepted =>
    cases accepted with
    | false =>
      rw [openEnd_refused hnone]
      exact ⟨hfailed.1, hfailed.2.1, hfailed.2.2 _⟩
    | true =>
      have hinode : ∀ f', (x.openEnd t fd f (.found n true)).inode f' =
          if f' = f then some n else x.inode f' := fun f' => update_apply ..
      refine ⟨h.openDone hopening n, fun f' m hm => .inl ?_, fun f' m hn hm => ?_⟩
      · rw [hinode, if_neg]
        · exact hm
        · rintro rfl
          rw [hnone] at hm
          cases hm
      · rw [hinode] at hm
        split_ifs at hm with heq
        · cases hm
          exact ⟨t, fd, rfl, by rw [hopening, heq]⟩
        · rw [hn] at hm
          cases hm

theorem Inv.step (h : Inv x) (hstep : x.step event = .ok y) :
    Inv y ∧ Lasts x y ∧ Gains x y event := by
  cases event with
  | openBegin t =>
    simp only [Files.step] at hstep
    split_ifs at hstep with hready
    cases hstep
    obtain ⟨hinv, hinode⟩ := h.openBegin hready
    exact ⟨hinv, lasts_of_eq hinode, gains_of_none fun f hn => (congrFun hinode f).trans hn⟩
  | openEnd t outcome =>
    simp only [Files.step] at hstep
    cases hopening : x.opening t with
    | none =>
      rw [hopening] at hstep
      cases hstep
    | some entry =>
      rw [hopening] at hstep
      cases hstep
      exact h.openEnd hopening outcome
  | call t c =>
    simp only [Files.step] at hstep
    split_ifs at hstep with hready
    cases hcall : x.call t c with
    | none =>
      rw [hcall] at hstep
      cases hstep
    | some next =>
      rw [hcall] at hstep
      cases hstep
      obtain ⟨hcore, hmoves⟩ := h.toCore.call hready.2 hcall
      exact ⟨h.of_core hcore hready.1 hmoves.slot (fun t' _ => congrFun hmoves.opening t') hmoves.rows,
        hmoves.lasts, gains_of_none hmoves.none⟩
  | fork parent stack space =>
    simp only [Files.step] at hstep
    split_ifs at hstep with hready
    cases hfork : (Kernel.mk x.fds x.slot).fork parent stack space with
    | none =>
      rw [hfork] at hstep
      cases hstep
    | some result =>
      rw [hfork] at hstep
      cases hstep
      refine ⟨?_, lasts_of_eq rfl, gains_of_none fun _ hn => hn⟩
      unfold Kernel.fork at hfork
      cases hslot : (Kernel.mk x.fds x.slot).freeSlot with
      | none =>
        rw [hslot] at hfork
        cases hfork
        exact h
      | some child =>
        rw [hslot] at hfork
        have hunused : x.slot child = .unused := freeSlot_unused hslot
        cases stack with
        | false =>
          cases hfork
          exact h
        | true =>
          cases space with
          | false =>
            cases hfork
            refine h.setSlot fun t hlive => ?_
            dsimp only [Kernel.setSlot]
            rw [update_apply]
            split_ifs
            · rfl
            · exact hlive
          | true =>
            obtain ⟨fds, hinherit, hnext⟩ := map_eq_some_iff.mp hfork
            obtain rfl := hnext
            exact h.inherit hready.2 (by rw [hunused]; decide) hinherit
  | exit t =>
    simp only [Files.step] at hstep
    split_ifs at hstep with hready hidle
    obtain ⟨hinv, hmoves⟩ := h.exit hready
    generalize x.closeAll t = closed at hstep hinv hmoves
    cases hstep
    exact ⟨hinv, hmoves.lasts, gains_of_none hmoves.none⟩
  | release t =>
    cases hstep
    split_ifs with hzombie
    · refine ⟨h.setSlot fun t' hlive => ?_, lasts_of_eq rfl, gains_of_none fun _ hn => hn⟩
      rw [update_of_ne]
      · exact hlive
      · rintro rfl
        rw [hzombie] at hlive
        cases hlive
    · exact ⟨h, lasts_of_eq rfl, gains_of_none fun _ hn => hn⟩

/-- The end of an `open`. -/
theorem Inv.settles (h : Inv x) (hstep : x.step event = .ok y) : Settles x y event := by
  rintro t outcome fd f rfl hopening
  have hy : y = x.openEnd t fd f outcome := by
    simp only [Files.step, hopening] at hstep
    exact (Except.ok.inj hstep).symm
  subst hy
  obtain ⟨hentry, -, hnone⟩ := h.opening t fd f hopening
  have hfailed : (x.openEnd t fd f .failed).inode f = none ∧
      (x.openEnd t fd f .failed).fds.fdToFilp t fd = none ∧
      (x.openEnd t fd f .failed).fds.holders f = 0 := by
    refine ⟨hnone, ?_, ?_⟩
    · exact (fdToFilp_setFd (fdToFilp_lt hentry) none t fd).trans (if_pos ⟨rfl, rfl⟩)
    · rw [← (h.openFailed hopening).count]
      exact update_self ..
  refine ⟨?_, ?_⟩
  · cases outcome with
    | failed => exact update_self ..
    | found n accepted => cases accepted <;> exact update_self ..
  · cases outcome with
    | failed => exact hfailed
    | found n accepted =>
      cases accepted with
      | false =>
        rw [openEnd_refused hnone]
        exact hfailed
      | true => exact ⟨update_self .., hentry⟩

theorem Inv.boot : Inv .boot := by
  have hzero : ∀ f, Fds.boot.holders f = 0 := by
    intro f
    by_contra hne
    obtain ⟨t, fd, hfd⟩ := holders_pos_iff.mp (Nat.pos_of_ne_zero hne)
    simp [fdToFilp, Fds.boot] at hfd
  refine ⟨⟨kept_of (fun f => (hzero f).symm) (fun f n hn => ?_) (fun f hpos => ?_)
    (fun t fd f hopens => ?_) (fun n => ?_), fun t fd hfile => ?_, fun f n hn => ?_,
    fun t fd f hopens => ?_⟩, fun t _ fd => ?_, fun t hopens => absurd rfl hopens⟩
  · cases hn
  · exact absurd (hzero f) (Nat.pos_iff_ne_zero.mp hpos)
  · cases hopens
  · rfl
  · simp [Files.boot, fdToPipe, Fds.boot]
  · cases hn
  · cases hopens
  · simp [Files.boot, fdToFilp, Fds.boot]

/-- The books are right in every state of every run. -/
theorem files_run (events : List FileEvent) : Guarded Files.step KeptAfter events .boot := by
  have hgeneral : ∀ (events : List FileEvent) (x : Files), Inv x →
      Guarded Files.step KeptAfter events x := by
    intro events
    induction events with
    | nil => exact fun _ _ => trivial
    | cons event rest ih =>
      intro x h
      refine ⟨fun y hstep => ?_, fun y hstep => ih y (h.step hstep).1⟩
      obtain ⟨hinv, hlasts, hgains⟩ := h.step hstep
      exact ⟨hinv.toKept, hlasts, hgains, h.settles hstep⟩
  exact hgeneral events .boot .boot

/-- A file that is shared with a child and a copy, while another `open` takes its time and fails. -/
def sharedFile (parent child : Task) : List FileEvent :=
  [.openBegin parent, .openEnd parent (.found 7 true), .fork parent true true, .openBegin child,
    .call parent (.dup2 0 9), .call parent (.close 0), .exit parent, .openEnd child .failed]

set_option maxRecDepth 4000 in
theorem files_run_sharedFile : Guarded Files.step KeptAfter (sharedFile 1 2) .boot ∧
    endsIn (fun x => x.refs 7 = 1 ∧ x.fds.fCount 0 = 1 ∧ x.fds.fCount 1 = 0)
      (run Files.step (sharedFile 1 2) .boot) = true :=
  ⟨files_run (sharedFile 1 2), by decide +kernel⟩

end Shitix.Fd
