import Shitix.Lib.RefCount
import Shitix.Lib.Run

/-!
# Working directories

Where a relative path starts is kept twice: in the task, and for the whole kernel.  `pwd_inode`
(`fs/super_block.rs`) answers with the field of the task if it was ever set, and with the global
otherwise; `set_pwd` writes both.  `chdir` and `fchdir` (`fs/open.rs`) give back the reference to
the old directory unless it is the root; `fork` (`syscall/sys.rs`) takes one for the child, and
`release` (`exit.rs`) gives it back.

An inode is named by its slot in the inode table.  `other` are the references that are not held for
a working directory, such as those of open files, and `own` is where a task should be: where it went
last, or where its parent was when it was forked.  The field `root` of a task is never set.
-/

namespace Shitix.Pwd

open Function

/-- A slot of the task table. -/
abbrev Task : Type := Fin 64

inductive Life where
  | unused
  | live
  | zombie
deriving DecidableEq, Repr

structure Dirs where
  life : Task → Life
  /-- `pwd` of the tasks -/
  pwd : Task → Option ℕ
  pwdInode : ℕ
  rootInode : ℕ
  /-- `i_count`, a `u16` -/
  count : ℕ → ℕ
  other : ℕ → ℕ
  own : Task → ℕ

/-- After `mount_root`: of the four references to the root one is for the working directory. -/
def Dirs.boot (root : ℕ) (live : Task → Bool) : Dirs where
  life t := if live t then .live else .unused
  pwd _ := none
  pwdInode := root
  rootInode := root
  count := update (fun _ => 0) root 4
  other := update (fun _ => 0) root 3
  own _ := root

namespace Dirs

variable (s : Dirs) (t : Task) (n : ℕ)

/-- `pwd_inode`, for a task -/
def start : ℕ := (s.pwd t).getD s.pwdInode

/-- `i_count += 1` -/
def bump : Dirs := { s with count := update s.count n (inc16 (s.count n)) }

/-- `iput`, which does nothing without a reference -/
def iput : Dirs := { s with count := update s.count n (s.count n - 1) }

def setPwd : Dirs :=
  { s with pwdInode := n, pwd := update s.pwd t (some n), own := update s.own t n }

/-- What `chdir` and `fchdir` do with the directory they found. -/
def change : Dirs :=
  let s := s.bump n
  let old := s.start t
  let s := s.setPwd t n
  if old ≠ s.rootInode then s.iput old else s

/-- The part of `fork` and `clone` that is about the working directory. -/
def fork (child : Task) : Dirs :=
  let s := { s with
    life := update s.life child .live
    pwd := update s.pwd child (s.pwd t)
    own := update s.own child (s.own t) }
  match s.pwd child with
  | none => s
  | some n => s.bump n

/-- The part of `release` that is about the working directory. -/
def release : Dirs :=
  let s :=
    match s.pwd t with
    | none => s
    | some n => s.iput n
  { s with life := update s.life t .unused, pwd := update s.pwd t none }

end Dirs

/-- What a task does; `take` and `give` are other references that come and go, as long as the count
does not overflow by them.  A `chdir` or `fchdir` that finds nothing it may change to does
nothing. -/
inductive Event where
  | chdir (t : Task) (found : Option ℕ)
  | fchdir (t : Task) (found : Option ℕ)
  | fork (t child : Task)
  | exit (t : Task)
  | wait (t : Task)
  | take (n : ℕ)
  | give (n : ℕ)
deriving DecidableEq

/-- An event that is not possible. -/
inductive Impossible where
  | mk

def Dirs.step (s : Dirs) : Event → Except Impossible Dirs
  | .chdir t found =>
    if s.life t ≠ .live then .error .mk
    else
      match found with
      | none => .ok s
      | some n => .ok (s.change t n)
  | .fchdir t found =>
    if s.life t ≠ .live then .error .mk
    else
      match found with
      | none => .ok s
      -- the descriptor has a reference
      | some n => if s.other n = 0 then .error .mk else .ok (s.change t n)
  | .fork t child =>
    if s.life t ≠ .live ∨ s.life child ≠ .unused then .error .mk else .ok (s.fork t child)
  | .exit t =>
    if s.life t ≠ .live then .error .mk
    else .ok { s with life := update s.life t .zombie }
  | .wait t => if s.life t ≠ .zombie then .error .mk else .ok (s.release t)
  | .take n =>
    if 2 ^ 16 ≤ s.count n + 1 then .error .mk
    else .ok { s.bump n with other := update s.other n (s.other n + 1) }
  | .give n =>
    if s.other n = 0 then .error .mk
    else .ok { s.iput n with other := update s.other n (s.other n - 1) }

/-! ## What should hold -/

/-- Every task starts where it went, and a reference is held for it there. -/
def Kept (s : Dirs) : Prop :=
  ∀ t, s.life t = .live → s.start t = s.own t ∧ s.other (s.start t) < s.count (s.start t)

def KeptAfter (s : Dirs) (event : Event) : Prop := ∀ s', s.step event = .ok s' → Kept s'

/-- No other task goes by the global directory, unless it stays the same, and there is room for a
reference. -/
def Dirs.MayChange (s : Dirs) (t : Task) (n : ℕ) : Prop :=
  (∀ t', t' ≠ t → s.life t' = .live → s.pwd t' = none → n = s.pwdInode) ∧ s.count n + 1 < 2 ^ 16

def Fits (s : Dirs) : Event → Prop
  | .chdir t (some n) => s.life t = .live → s.MayChange t n
  | .fchdir t (some n) => s.life t = .live → s.other n ≠ 0 → s.MayChange t n
  | .fork t child =>
    s.life t = .live → s.life child = .unused → ∀ n, s.pwd t = some n → s.count n + 1 < 2 ^ 16
  | _ => True

/-! ## The accounts -/

/-- The references held for working directories, and one for the global directory at the start. -/
structure Accounted (s : Dirs) : Prop where
  unused : ∀ t, s.life t = .unused → s.pwd t = none
  own : ∀ t, s.life t = .live → s.start t = s.own t
  global : ∀ t, s.life t = .live → s.pwd t = none → s.pwdInode = s.rootInode
  count : ∀ n, s.other n + uses s.pwd n + (if n = s.rootInode then 1 else 0) ≤ s.count n
  below : ∀ n, s.count n < 2 ^ 16

variable {s s' : Dirs} {t child : Task} {n : ℕ}

theorem Accounted.kept (h : Accounted s) : Kept s := by
  intro t hlive
  refine ⟨h.own t hlive, ?_⟩
  have hcount := h.count (s.start t)
  unfold Dirs.start at hcount ⊢
  cases hpwd : s.pwd t with
  | none =>
    rw [hpwd, Option.getD_none, if_pos (h.global t hlive hpwd)] at hcount
    rw [Option.getD_none]
    omega
  | some n =>
    have hpos : 0 < uses s.pwd n := uses_pos.mpr ⟨t, hpwd⟩
    rw [hpwd, Option.getD_some] at hcount
    rw [Option.getD_some]
    omega

theorem count_bump (hroom : s.count n + 1 < 2 ^ 16) (m : ℕ) :
    (s.bump n).count m = s.count m + if n = m then 1 else 0 := by
  unfold Dirs.bump
  dsimp only
  by_cases heq : m = n
  · rw [heq, update_self, if_pos rfl, inc16_of_lt hroom]
  · rw [update_of_ne heq, if_neg (Ne.symm heq), add_zero]

theorem bump_below (hbelow : ∀ m, s.count m < 2 ^ 16) (n m : ℕ) : (s.bump n).count m < 2 ^ 16 := by
  unfold Dirs.bump
  dsimp only
  by_cases heq : m = n
  · rw [heq, update_self]
    exact Nat.mod_lt _ (by decide)
  · rw [update_of_ne heq]
    exact hbelow m

theorem count_iput (s : Dirs) (n m : ℕ) :
    (s.iput n).count m = s.count m - if n = m then 1 else 0 := by
  unfold Dirs.iput
  dsimp only
  by_cases heq : m = n
  · rw [heq, update_self, if_pos rfl]
  · rw [update_of_ne heq, if_neg (Ne.symm heq), Nat.sub_zero]

/-! ## Steps -/

theorem count_change_le (s : Dirs) (t : Task) (n m : ℕ) :
    (s.change t n).count m ≤ (s.bump n).count m := by
  unfold Dirs.change
  dsimp only
  split_ifs
  · rw [count_iput]
    exact Nat.sub_le _ _
  · exact le_rfl

theorem change_fields (s : Dirs) (t : Task) (n : ℕ) :
    (s.change t n).life = s.life ∧ (s.change t n).pwd = update s.pwd t (some n) ∧
      (s.change t n).pwdInode = n ∧ (s.change t n).rootInode = s.rootInode ∧
      (s.change t n).other = s.other ∧ (s.change t n).own = update s.own t n := by
  unfold Dirs.change
  dsimp only
  split_ifs
  · exact ⟨rfl, rfl, rfl, rfl, rfl, rfl⟩
  · exact ⟨rfl, rfl, rfl, rfl, rfl, rfl⟩

theorem fork_fields (s : Dirs) (t child : Task) :
    (s.fork t child).life = update s.life child .live ∧
      (s.fork t child).pwd = update s.pwd child (s.pwd t) ∧
      (s.fork t child).pwdInode = s.pwdInode ∧ (s.fork t child).rootInode = s.rootInode ∧
      (s.fork t child).other = s.other ∧
      (s.fork t child).own = update s.own child (s.own t) := by
  unfold Dirs.fork
  dsimp only
  split
  · exact ⟨rfl, rfl, rfl, rfl, rfl, rfl⟩
  · exact ⟨rfl, rfl, rfl, rfl, rfl, rfl⟩

theorem count_fork (hroom : ∀ n, s.pwd t = some n → s.count n + 1 < 2 ^ 16) (m : ℕ) :
    (s.fork t child).count m = s.count m + if s.pwd t = some m then 1 else 0 := by
  unfold Dirs.fork
  dsimp only
  rw [update_self]
  cases hpwd : s.pwd t with
  | none => rfl
  | some n =>
    refine (count_bump ?_ m).trans ?_
    · exact hroom n hpwd
    · simp

theorem count_release (s : Dirs) (t : Task) (m : ℕ) :
    (s.release t).count m = s.count m - if s.pwd t = some m then 1 else 0 := by
  unfold Dirs.release
  cases hpwd : s.pwd t with
  | none => rfl
  | some n =>
    refine (count_iput s n m).trans ?_
    simp

theorem release_fields (s : Dirs) (t : Task) :
    (s.release t).life = update s.life t .unused ∧
      (s.release t).pwd = update s.pwd t none ∧
      (s.release t).pwdInode = s.pwdInode ∧ (s.release t).rootInode = s.rootInode ∧
      (s.release t).other = s.other ∧ (s.release t).own = s.own := by
  unfold Dirs.release
  cases s.pwd t with
  | none => exact ⟨rfl, rfl, rfl, rfl, rfl, rfl⟩
  | some n => exact ⟨rfl, rfl, rfl, rfl, rfl, rfl⟩

section

variable (h : Accounted s)

include h

/-- What becomes of one task, the others stay as they are. -/
theorem Accounted.move {life : Life} {pwd : Option ℕ} {own : ℕ}
    (hlife : s'.life = update s.life t life) (hpwd : s'.pwd = update s.pwd t pwd)
    (hown : s'.own = update s.own t own) (hroot : s'.rootInode = s.rootInode)
    (hother : s'.other = s.other) (hunused : life = .unused → pwd = none)
    (hlive : life = .live → pwd.getD s'.pwdInode = own ∧ (pwd = none → s'.pwdInode = s.rootInode))
    (hglobal : ∀ t', t' ≠ t → s.life t' = .live → s.pwd t' = none → s'.pwdInode = s.pwdInode)
    (hcount : ∀ m, s.count m + (if pwd = some m then 1 else 0) ≤
      s'.count m + if s.pwd t = some m then 1 else 0)
    (hbelow : ∀ m, s'.count m < 2 ^ 16) : Accounted s' := by
  refine ⟨fun t' hdead => ?_, fun t' hthere => ?_, fun t' hthere hnone => ?_, fun m => ?_, hbelow⟩
  · rw [hlife, update_apply] at hdead
    rw [hpwd, update_apply]
    split_ifs at hdead ⊢
    · exact hunused hdead
    · exact h.unused t' hdead
  · rw [hlife, update_apply] at hthere
    rw [Dirs.start, hpwd, hown, update_apply, update_apply]
    split_ifs at hthere ⊢ with heq
    · exact (hlive hthere).1
    · rw [← h.own t' hthere, Dirs.start]
      cases hnone : s.pwd t' with
      | none => exact hglobal t' heq hthere hnone
      | some _ => rfl
  · rw [hlife, update_apply] at hthere
    rw [hpwd, update_apply] at hnone
    rw [hroot]
    split_ifs at hthere hnone with heq
    · exact (hlive hthere).2 hnone
    · exact (hglobal t' heq hthere hnone).trans (h.global t' hthere hnone)
  · have hbefore := h.count m
    have hafter := hcount m
    have huses := uses_update s.pwd t pwd m
    rw [hother, hpwd, hroot]
    omega

/-- The counts after a change, which gives back the old directory only if it is not the root. -/
theorem count_change (hlive : s.life t = .live) (hroom : s.count n + 1 < 2 ^ 16) (m : ℕ) :
    s.count m + (if n = m then 1 else 0) ≤
      (s.change t n).count m + if s.pwd t = some m then 1 else 0 := by
  have hbump := count_bump hroom m
  unfold Dirs.change
  by_cases hroot : (s.bump n).start t = ((s.bump n).setPwd t n).rootInode
  · rw [if_neg (not_not.mpr hroot)]
    change _ ≤ (s.bump n).count m + _
    omega
  · rw [if_pos hroot, count_iput]
    change _ ≤ (s.bump n).count m - _ + _
    -- a task that goes by the global directory is at the root
    have hsome : s.pwd t = some ((s.bump n).start t) := by
      cases hpwd : s.pwd t with
      | none =>
        have hglobal := h.global t hlive hpwd
        have hstart : (s.bump n).start t = s.pwdInode := by
          change (s.pwd t).getD s.pwdInode = _
          rw [hpwd, Option.getD_none]
        exact absurd (hstart.trans hglobal) hroot
      | some old =>
        change some old = some ((s.pwd t).getD s.pwdInode)
        rw [hpwd, Option.getD_some]
    by_cases heq : (s.bump n).start t = m
    · rw [heq] at hsome
      rw [if_pos heq, if_pos hsome]
      omega
    · rw [if_neg heq]
      omega

theorem Accounted.change (hlive : s.life t = .live) (hmay : s.MayChange t n) :
    Accounted (s.change t n) := by
  obtain ⟨hlife, hpwd, hglobal, hroot, hother, hown⟩ := change_fields s t n
  refine h.move (hlife.trans (?_ : _ = update s.life t .live)) hpwd hown hroot hother nofun
    (fun _ => ⟨rfl, nofun⟩)
    (fun t' hne hlive' hnone => hglobal.trans (hmay.1 t' hne hlive' hnone)) (fun m => ?_)
    fun m => (count_change_le s t n m).trans_lt (bump_below h.below n m)
  · rw [← hlive, update_eq_self]
  · simpa only [Option.some.injEq] using count_change h hlive hmay.2 m

theorem Accounted.fork (hlive : s.life t = .live)
    (hroom : ∀ n, s.pwd t = some n → s.count n + 1 < 2 ^ 16) : Accounted (s.fork t child) := by
  obtain ⟨hlife, hpwd, hglobal, hroot, hother, hown⟩ := fork_fields s t child
  refine h.move hlife hpwd hown hroot hother nofun (fun _ => ?_) (fun _ _ _ _ => hglobal) (fun m => ?_)
    fun m => ?_
  · rw [hglobal]
    exact ⟨h.own t hlive, h.global t hlive⟩
  · rw [count_fork hroom]
    exact Nat.le_add_right ..
  · rw [count_fork hroom]
    by_cases heq : s.pwd t = some m
    · rw [if_pos heq]
      exact hroom m heq
    · rw [if_neg heq]
      exact h.below m

theorem Accounted.release : Accounted (s.release t) := by
  obtain ⟨hlife, hpwd, hglobal, hroot, hother, hown⟩ := release_fields s t
  refine h.move hlife hpwd (hown.trans (update_eq_self t s.own).symm) hroot hother
    (fun _ => rfl) nofun (fun _ _ _ _ => hglobal) (fun m => ?_) fun m => ?_
  · rw [count_release, if_neg nofun]
    omega
  · rw [count_release]
    exact (Nat.sub_le _ _).trans_lt (h.below m)

theorem Accounted.exit (t : Task) : Accounted { s with life := update s.life t .zombie } :=
  h.move rfl (update_eq_self ..).symm (update_eq_self ..).symm rfl rfl nofun nofun
    (fun _ _ _ _ => rfl) (fun _ => le_rfl) h.below

/-- Other references come and go with their counts. -/
theorem Accounted.other {count other : ℕ → ℕ}
    (hcount : ∀ m, other m + s.count m ≤ count m + s.other m) (hbelow : ∀ m, count m < 2 ^ 16) :
    Accounted { s with count, other } where
  unused := h.unused
  own := h.own
  global := h.global
  count m := by
    have hbefore := h.count m
    have hafter := hcount m
    dsimp only
    omega
  below := hbelow

end

theorem accounted_boot (root : ℕ) (live : Task → Bool) : Accounted (.boot root live) where
  unused _ _ := rfl
  own _ _ := rfl
  global _ _ _ := rfl
  count n := by
    have hzero : uses (Dirs.boot root live).pwd n = 0 := by
      refine Nat.eq_zero_of_not_pos fun hpos => ?_
      obtain ⟨t, ht⟩ := uses_pos.mp hpos
      cases ht
    rw [hzero]
    by_cases heq : n = root
    · simp [Dirs.boot, heq]
    · simp [Dirs.boot, heq]
  below n := by
    by_cases heq : n = root
    · simp [Dirs.boot, heq]
    · simp [Dirs.boot, heq]

/-! ## Every run -/

section

variable (h : Accounted s)

include h

/-- A change that does not fit moves another task, or loses the reference. -/
theorem mayChange_of_kept (hlive : s.life t = .live) (hkept : Kept (s.change t n)) :
    s.MayChange t n := by
  obtain ⟨hlife, hpwd, hglobal, hroot, hother, hown⟩ := change_fields s t n
  have hstart : (s.change t n).start t = n := by
    unfold Dirs.start
    rw [hpwd, update_self, Option.getD_some]
  refine ⟨fun t' hne hlive' hnone => ?_, ?_⟩
  · have hmoved := (hkept t' (by rw [hlife]; exact hlive')).1
    have hbefore := h.own t' hlive'
    unfold Dirs.start at hmoved hbefore
    rw [hpwd, hglobal, hown, update_of_ne hne, update_of_ne hne, hnone,
      Option.getD_none] at hmoved
    rw [hnone, Option.getD_none] at hbefore
    rw [hmoved, hbefore]
  · by_contra hfull
    have hheld := (hkept t (by rw [hlife]; exact hlive)).2
    rw [hstart] at hheld
    have hbump : (s.bump n).count n = inc16 (s.count n) := update_self ..
    have hlast : s.count n + 1 = 2 ^ 16 := by
      have hbelow := h.below n
      omega
    have hwrap : inc16 (s.count n) = 0 := by rw [inc16, hlast, Nat.mod_self]
    have hle := count_change_le s t n n
    omega

/-- A fork that does not fit loses the reference. -/
theorem room_of_kept (hlive : s.life t = .live) (hunused : s.life child = .unused)
    (hkept : Kept (s.fork t child)) (hpwd : s.pwd t = some n) : s.count n + 1 < 2 ^ 16 := by
  obtain ⟨hlife, hpwds, -, -, hother, -⟩ := fork_fields s t child
  have hne : t ≠ child := by
    rintro rfl
    rw [hlive] at hunused
    cases hunused
  by_contra hfull
  have hstart : (s.fork t child).start t = n := by
    unfold Dirs.start
    rw [hpwds, update_of_ne hne, hpwd, Option.getD_some]
  have hheld := (hkept t (by rw [hlife, update_of_ne hne]; exact hlive)).2
  have hlast : s.count n + 1 = 2 ^ 16 := by
    have hbelow := h.below n
    omega
  have hzero : (s.fork t child).count n = 0 := by
    have hwrap : inc16 (s.count n) = 0 := by rw [inc16, hlast, Nat.mod_self]
    unfold Dirs.fork
    dsimp only
    rw [update_self, hpwd, ← hwrap]
    exact update_self ..
  rw [hstart] at hheld
  omega

theorem Accounted.take (hroom : s.count n + 1 < 2 ^ 16) :
    Accounted { s.bump n with other := update s.other n (s.other n + 1) } := by
  refine h.other (fun m => ?_) (bump_below h.below n)
  rw [count_bump hroom]
  by_cases heq : m = n
  · rw [heq, update_self, if_pos rfl]
    omega
  · rw [update_of_ne heq]
    omega

theorem Accounted.give (hsome : s.other n ≠ 0) :
    Accounted { s.iput n with other := update s.other n (s.other n - 1) } := by
  refine h.other (fun m => ?_) fun m => ?_
  · have hcount := h.count m
    rw [count_iput]
    by_cases heq : m = n
    · rw [heq] at hcount ⊢
      rw [update_self, if_pos rfl]
      omega
    · rw [update_of_ne heq, if_neg (Ne.symm heq)]
      omega
  · rw [count_iput]
    exact (Nat.sub_le _ _).trans_lt (h.below m)

/-- Every step that fits keeps the accounts. -/
theorem Accounted.step {event : Event} (hfits : Fits s event)
    (hstep : s.step event = .ok s') : Accounted s' := by
  cases event with
  | chdir t found =>
    simp only [Dirs.step] at hstep
    split_ifs at hstep with hlife
    have hlive : s.life t = .live := not_not.mp hlife
    cases found with
    | none =>
      cases hstep
      exact h
    | some n =>
      cases hstep
      exact h.change hlive (hfits hlive)
  | fchdir t found =>
    simp only [Dirs.step] at hstep
    split_ifs at hstep with hlife
    have hlive : s.life t = .live := not_not.mp hlife
    cases found with
    | none =>
      cases hstep
      exact h
    | some n =>
      dsimp only at hstep
      split_ifs at hstep with hother
      cases hstep
      exact h.change hlive (hfits hlive hother)
  | fork t child =>
    simp only [Dirs.step] at hstep
    split_ifs at hstep with hlife
    obtain ⟨hlive, hunused⟩ := not_or.mp hlife
    cases hstep
    exact h.fork (not_not.mp hlive) (hfits (not_not.mp hlive) (not_not.mp hunused))
  | exit t =>
    simp only [Dirs.step] at hstep
    split_ifs at hstep
    cases hstep
    exact h.exit t
  | wait t =>
    simp only [Dirs.step] at hstep
    split_ifs at hstep
    cases hstep
    exact h.release
  | take n =>
    simp only [Dirs.step] at hstep
    split_ifs at hstep with hfull
    cases hstep
    exact h.take (Nat.lt_of_not_le hfull)
  | give n =>
    simp only [Dirs.step] at hstep
    split_ifs at hstep with hnone
    cases hstep
    exact h.give hnone

theorem keptAfter_iff (event : Event) : KeptAfter s event ↔ Fits s event := by
  refine ⟨fun hkept => ?_, fun hfits s' hstep => (h.step hfits hstep).kept⟩
  cases event with
  | chdir t found =>
    cases found with
    | none => trivial
    | some n =>
      intro hlive
      refine mayChange_of_kept h hlive (hkept _ ?_)
      simp [Dirs.step, hlive]
  | fchdir t found =>
    cases found with
    | none => trivial
    | some n =>
      intro hlive hother
      refine mayChange_of_kept h hlive (hkept _ ?_)
      simp [Dirs.step, hlive, hother]
  | fork t child =>
    intro hlive hunused n hpwd
    refine room_of_kept h hlive hunused (hkept _ ?_) hpwd
    simp [Dirs.step, hlive, hunused]
  | exit t | wait t | take n | give n => trivial

end

/-- The working directories are kept in every state of a run exactly if its steps fit. -/
theorem directories_run_iff (root : ℕ) (live : Task → Bool) (events : List Event) :
    Guarded Dirs.step KeptAfter events (.boot root live) ↔
      Guarded Dirs.step Fits events (.boot root live) := by
  refine guarded_iff (fun s event (h : Accounted s) => keptAfter_iff h event)
    (fun s event s' h _ hkept hstep => h.step ((keptAfter_iff h event).mp hkept) hstep)
    (accounted_boot root live) (guarded_of_forall (fun _ _ _ => trivial) (Dirs.boot root live))

/-- Task 0 and two more, none of which has been anywhere yet. -/
def Dirs.trio : Dirs := .boot 2 fun t => t.val < 3

/-- One task goes to another directory.  The other one has moved with it, and when that goes
elsewhere there is no reference left to the directory of the first. -/
theorem directory_follows_other_task :
    (∃ s, run Dirs.step [.chdir 1 (some 7)] .trio = .ok s ∧
      s.life 2 = .live ∧ s.start 2 = 7 ∧ s.own 2 = 2) ∧
    ∃ s, run Dirs.step [.chdir 1 (some 7), .chdir 2 (some 9)] .trio = .ok s ∧
      s.life 1 = .live ∧ s.start 1 = 7 ∧ s.count 7 = 0 :=
  ⟨exists_of_endsIn (by decide), exists_of_endsIn (by decide)⟩

end Shitix.Pwd
