import Shitix.Fs.Resolve
import Shitix.Fs.DirectoryOps

/-!
# The balance of references

`namei`, `lnamei` and `open_namei` should leave one reference to the inode they return, and none if
they fail.  They do so if they leave nothing behind on the way (`balanced_iff`).  There are two
things they leave: a reference to the directory of every link with a relative target that is
followed (`relative_link_keeps_directory`), and the new inode of ext4 for which there is no room in
the directory.  The counts have 16 bits, and there has to be room in them for what a resolution takes
(`Vfs.Ready`).
-/

namespace Shitix.Names

open Function List Vfs

open Inodes (FsType)

/-- The reference to a result. -/
def taken : Except Errno Id → List Id
  | .ok id => [id]
  | .error _ => []

/-- There is one more reference to the result, and that is all. -/
def Balanced (s : Vfs) (o : Outcome Id) : Prop :=
  ∀ id, o.2.count id = s.count id + (taken o.1).count id

/-- There are these references more than before. -/
def Owes (s : Vfs) (l : List Id) (s' : Vfs) : Prop := ∀ id, s'.count id = s.count id + l.count id

variable {s s' s'' : Vfs} {l l' : List Id} {n dir : Id} {name path : Name} {o : Outcome Id}

theorem Owes.perm (h : Owes s l s') (hl : l.Perm l') : Owes s l' s' := by
  intro id
  rw [h id, hl.count_eq]

theorem Owes.trans (h : Owes s l s') (h' : Owes s' l' s'') : Owes s (l ++ l') s'' := by
  intro id
  rw [h' id, h id, count_append, add_assoc]

theorem owes_hold (s : Vfs) (l : List Id) : Owes s l (s.hold l) := fun _ => rfl

/-- What is left beside the result decides. -/
theorem balanced_iff_of_owes (h : Owes s (taken o.1 ++ l) o.2) : Balanced s o ↔ l = [] := by
  constructor
  · intro hbalanced
    refine eq_nil_iff_forall_not_mem.mpr fun id hmem => ?_
    have hcount := (hbalanced id).symm.trans (h id)
    rw [count_append] at hcount
    have hpos : 0 < l.count id := count_pos_iff.mpr hmem
    omega
  · rintro rfl
    rwa [append_nil] at h

/-! ## Giving back -/

/-- The number of the inode is in the map of its file system. -/
def InRange (s : Vfs) : Id → Prop
  | .disk sb ino => ¬ (ino < 1 ∨ (s.supers sb).ninodes ≤ ino)
  | _ => True

/-- `iput` lets go of the inode. -/
def Releases (s : Vfs) (n : Id) : Prop :=
  1 < s.count n ∨ ((s.inode n).op = .minix → (s.inode n).nlink = 0 → InRange s n)

theorem Owes.iput (h : Owes s l' s') (hl : l'.Perm (n :: l)) (hreleases : Releases s' n) :
    Owes s l (s'.iput n) := by
  have hcount : s'.count n = s.count n + l.count n + 1 := by
    rw [h.perm hl n, count_cons_self, add_assoc]
  have hdrop : Owes s l (s'.drop n) := by
    intro id
    unfold Vfs.drop
    dsimp only
    by_cases heq : id = n
    · rw [heq, update_self, hcount, Nat.add_sub_cancel]
    · rw [update_of_ne heq, h.perm hl id, count_cons_of_ne (symm heq)]
  unfold Vfs.iput
  rw [if_neg (by omega)]
  split_ifs with hmore hfree
  · exact hdrop
  · have hrange : InRange s' n := by
      rcases hreleases with hmore' | hrange
      · exact absurd hmore' hmore
      · exact hrange hfree.2.1 hfree.2.2
    cases n with
    | disk sb ino =>
      simp only [putInode]
      rw [if_neg hrange]
      intro id
      have hlast : s.count (.disk sb ino) + l.count (.disk sb ino) = 0 := by omega
      unfold setFree setEntries setNode
      dsimp only
      by_cases heq : id = .disk sb ino
      · rw [heq, update_self, hlast]
      · rw [update_of_ne heq, h.perm hl id, count_cons_of_ne (symm heq)]
    | proc kind pid | tmpfs i => cases hfree.1
  · exact hdrop

/-! ## What a change keeps -/

/-- The inode maps have the sizes they had. -/
def SameRange (s s' : Vfs) : Prop := ∀ sb, (s'.supers sb).ninodes = (s.supers sb).ninodes

theorem SameRange.inRange (h : SameRange s s') (hrange : InRange s n) : InRange s' n := by
  cases n with
  | disk sb ino =>
    simp only [InRange] at hrange ⊢
    rwa [h sb]
  | proc kind pid | tmpfs i => trivial

theorem SameRange.trans (h : SameRange s s') (h' : SameRange s' s'') :
    SameRange s s'' := fun sb => (h' sb).trans (h sb)

theorem sameRange_setFree (s : Vfs) (sb : ℕ) (free : List ℕ) : SameRange s (s.setFree sb free) := by
  intro sb'
  unfold setFree
  dsimp only
  by_cases heq : sb' = sb
  · rw [heq, update_self]
  · rw [update_of_ne heq]

theorem sameRange_iput (s : Vfs) (n : Id) : SameRange s (s.iput n) := by
  unfold iput
  split_ifs
  · exact fun _ => rfl
  · exact fun _ => rfl
  · cases n with
    | disk sb ino =>
      simp only [putInode]
      split_ifs
      · exact fun _ => rfl
      · exact sameRange_setFree _ sb _
    | proc kind pid | tmpfs i => exact fun _ => rfl
  · exact fun _ => rfl

theorem setNode_inode_of_ne {m : Id} (hne : m ≠ n) (inode : Inode) :
    (s.setNode n inode).inode m = s.inode m := by
  cases m with
  | disk sb ino | tmpfs i => exact update_of_ne hne ..
  | proc kind pid => rfl

theorem iput_inode_of_ne {m : Id} (hne : m ≠ n) : (s.iput n).inode m = s.inode m := by
  unfold iput
  split_ifs
  · rfl
  · rfl
  · cases n with
    | disk sb ino =>
      simp only [putInode]
      split_ifs
      · rfl
      · exact setNode_inode_of_ne hne _
    | proc kind pid => rfl
    | tmpfs i => rfl
  · rfl

/-- A reference to the inode can be given back after the change as before. -/
structure Keeps (s s' : Vfs) (n : Id) : Prop where
  count_le : s.count n ≤ s'.count n
  range : SameRange s s'
  inode : s'.inode n = s.inode n ∨ ((s'.inode n).op = .minix → InRange s' n)

theorem Keeps.refl (s : Vfs) (n : Id) : Keeps s s n := ⟨le_rfl, fun _ => rfl, .inl rfl⟩

theorem Keeps.trans (h : Keeps s s' n) (h' : Keeps s' s'' n) : Keeps s s'' n where
  count_le := h.count_le.trans h'.count_le
  range := h.range.trans h'.range
  inode := by
    rcases h'.inode with heq | hrange
    · rw [heq]
      exact h.inode.imp_right fun hrange hop => h'.range.inRange (hrange hop)
    · exact .inr hrange

theorem Releases.keeps (h : Releases s n) (hkeeps : Keeps s s' n) : Releases s' n := by
  rcases h with hmore | hrange
  · exact .inl (hmore.trans_le hkeeps.count_le)
  · refine .inr fun hop hnlink => ?_
    rcases hkeeps.inode with heq | hrange'
    · rw [heq] at hop hnlink
      exact hkeeps.range.inRange (hrange hop hnlink)
    · exact hrange' hop

theorem Vfs.Settled.releases (h : s.Settled) (hmem : n ∈ l) : Releases (s.hold l) n := by
  by_cases hzero : s.count n = 0
  · refine .inr fun hop hnlink => ?_
    cases n with
    | disk sb ino => exact absurd hnlink (h _ hzero rfl hop)
    | proc kind pid | tmpfs i => trivial
  · left
    have hpos : 0 < l.count n := count_pos_iff.mpr hmem
    rw [hold_count]
    omega

/-! ## New inodes -/

/-- A new inode, with a reference to it. -/
structure Fresh (s s' : Vfs) (id : Id) : Prop where
  owes : Owes s [id] s'
  range : SameRange s s'
  inRange : InRange s' id
  others : ∀ m, m ≠ id → s'.inode m = s.inode m

theorem Fresh.keeps (h : Fresh s s' n) (m : Id) : Keeps s s' m where
  count_le := by
    rw [h.owes m]
    exact Nat.le_add_right ..
  range := h.range
  inode := by
    by_cases heq : m = n
    · exact .inr fun _ => heq ▸ h.inRange
    · exact .inl (h.others m heq)

theorem Fresh.modifyNode (h : Fresh s s' n) (f : Inode → Inode) : Fresh s (s'.modifyNode n f) n
    where
  owes := h.owes
  range := h.range
  inRange := h.inRange
  others m hne := (setNode_inode_of_ne hne _).trans (h.others m hne)

/-- A new inode is given back. -/
theorem Fresh.iput (h : Fresh s s' n) : Owes s [] (s'.iput n) ∧ ∀ m, Keeps s (s'.iput n) m := by
  have howes : Owes s [] (s'.iput n) := h.owes.iput .rfl (.inr fun _ _ => h.inRange)
  refine ⟨howes, fun m => ⟨?_, h.range.trans (sameRange_iput s' n), ?_⟩⟩
  · rw [howes m]
    exact Nat.le_add_right ..
  · by_cases heq : m = n
    · exact .inr fun _ => (sameRange_iput s' n).inRange (heq ▸ h.inRange)
    · exact .inl ((iput_inode_of_ne heq).trans (h.others m heq))

/-- A change with a reference to its result, after which the others can be given back. -/
structure Creates (s : Vfs) (l : List Id) (o : Outcome Id) : Prop where
  owes : Owes s (taken o.1 ++ l) o.2
  keeps : ∀ m, Keeps s o.2 m

theorem creates_error (s : Vfs) (e : Errno) : Creates s [] (.error e, s) :=
  ⟨fun _ => rfl, Keeps.refl s⟩

/-- A check that fails changes nothing. -/
theorem creates_check {c : Prop} [Decidable c] (e : Errno) (h : ¬ c → Creates s l o) (hl : l = []) :
    Creates s l (if c then (.error e, s) else o) := by
  split_ifs with hc
  · rw [hl]
    exact creates_error s e
  · exact h hc

theorem minixNewInode_spec (h : s.Ready 1) (dir : Id) :
    match s.minixNewInode dir with
    | (none, s') => s'.count = s.count ∧ ∀ m, Keeps s s' m
    | (some id, s') => Fresh s s' id := by
  unfold minixNewInode
  cases dir.sb with
  | none => exact ⟨rfl, Keeps.refl s⟩
  | some sb =>
    dsimp only
    cases (s.supers sb).free with
    | nil => exact ⟨rfl, Keeps.refl s⟩
    | cons ino rest =>
      have hsame := sameRange_setFree s sb rest
      dsimp only
      split_ifs with hout
      · exact ⟨rfl, fun m => ⟨le_rfl, hsame, .inl rfl⟩⟩
      · have hbump : Owes s [.disk sb ino] ((s.setFree sb rest).bump (.disk sb ino)) := by
          rw [bump_eq (s := s.setFree sb rest) (h.room _)]
          exact owes_hold _ _
        have hrange : InRange (s.setFree sb rest) (.disk sb ino) := by
          refine hsame.inRange ?_
          simp only [InRange]
          omega
        exact ⟨hbump, hsame, hrange, fun m hne => setNode_inode_of_ne hne _⟩

theorem Fresh.minixEnter (h : Fresh s s' n) (dir : Id) (name : Name) :
    Creates s [] (s'.minixEnter dir name n) := by
  unfold Vfs.minixEnter
  cases hadd : s'.minixAddEntry dir name (n.ino % 2 ^ 16) with
  | error e =>
    obtain ⟨howes, hkeeps⟩ := (h.modifyNode ({ · with nlink := 0 })).iput
    exact ⟨howes, hkeeps⟩
  | ok s₁ =>
    obtain ⟨entries, rfl⟩ : ∃ entries, s₁ = s'.setEntries dir entries := by
      unfold minixAddEntry at hadd
      repeat' split at hadd
      all_goals cases hadd
      exact ⟨_, rfl⟩
    exact ⟨h.owes, fun m => ⟨(h.keeps m).count_le, (h.keeps m).range, (h.keeps m).inode⟩⟩

theorem minixMknod_creates (h : s.Ready 1) (dir : Id) (name : Name) (mode : Mode) :
    Creates s [] (s.minixMknod dir name mode) := by
  refine creates_check _ (fun _ => creates_check _ (fun _ => creates_check _ (fun _ => ?_) rfl) rfl) rfl
  have hspec := minixNewInode_spec h dir
  rcases hnew : s.minixNewInode dir with ⟨_ | id, s'⟩
  · rw [hnew] at hspec
    exact ⟨fun id => congrFun hspec.1 id, hspec.2⟩
  · rw [hnew] at hspec
    exact (hspec.modifyNode _).minixEnter dir name

/-- The inode that `mknod` of ext4 leaves behind when there is no room in the directory. -/
def Tree.leftover (t : Tree) (dir : Id) (name : Name) : List Id :=
  if ext4NameLen < name.length then []
  else
    match dir.sb with
    | none => []
    | some sb =>
      if (t.ext4Find dir name).isSome then []
      else
        match (t.supers sb).free with
        | [] => []
        | ino :: _ => if (t.trouble dir).isSome then [t.across sb ino] else []

/-- The inode of an ext4 file is not given back by `iput`. -/
theorem modifyNode_keeps {f : Inode → Inode} (hop : (f (s.inode n)).op = .ext2) (m : Id) :
    Keeps s (s.modifyNode n f) m where
  count_le := le_rfl
  range _ := rfl
  inode := by
    by_cases heq : m = n
    · refine .inr fun hminix => ?_
      subst heq
      cases m with
      | disk _ _ | tmpfs _ =>
        cases hop.symm.trans ((congrArg Inode.op (update_self ..)).symm.trans hminix)
      | proc kind pid => cases hminix
    · exact .inl (setNode_inode_of_ne heq _)

theorem ext4Enter_spec (s : Vfs) (dir : Id) (name : Name) (mode : Mode) (ino : ℕ) (id : Id) :
    (s.ext4Enter dir name mode ino id).2.count = s.count ∧
      (∀ m, Keeps s (s.ext4Enter dir name mode ino id).2 m) ∧
      taken (s.ext4Enter dir name mode ino id).1 ++ (if (s.trouble dir).isSome then [id] else []) =
        [id] := by
  unfold ext4Enter ext4AddEntry
  have hkeeps : ∀ m, Keeps s (s.modifyNode id ({ · with
      mode := mode, nlink := 1, uid := s.euid % 2 ^ 16, gid := s.newGid dir, size := 0
      op := .ext2 })) m := modifyNode_keeps rfl
  have hsame : ∀ f, (s.modifyNode id f).trouble dir = s.trouble dir := fun _ => rfl
  simp only [hsame]
  cases s.trouble dir with
  | some e => exact ⟨rfl, hkeeps, rfl⟩
  | none => exact ⟨rfl, fun m => ⟨(hkeeps m).count_le, (hkeeps m).range, (hkeeps m).inode⟩, rfl⟩

theorem ext4Mknod_creates (h : s.Ready 2) (dir : Id) (name : Name) (mode : Mode) :
    Creates s (s.leftover dir name) (s.ext4Mknod dir name mode) := by
  unfold ext4Mknod Tree.leftover
  by_cases hlong : Tree.ext4NameLen < name.length
  · rw [if_pos hlong, if_pos hlong]
    exact creates_error s _
  rw [if_neg hlong, if_neg hlong]
  cases dir.sb with
  | none => exact creates_error s _
  | some sb =>
    dsimp only
    by_cases hfound : (s.ext4Find dir name).isSome
    · rw [if_pos hfound, if_pos hfound]
      exact creates_error s _
    rw [if_neg hfound, if_neg hfound]
    cases hfree : (s.supers sb).free with
    | nil => exact creates_error s _
    | cons ino rest =>
      have hready : (s.setFree sb rest).Ready 2 := ⟨h.settled, h.room⟩
      have hacross : (s.setFree sb rest).across sb ino = s.across sb ino := rfl
      have hfirst : ∀ m, Keeps s ((s.setFree sb rest).hold [s.across sb ino]) m := fun m =>
        ⟨Nat.le_add_right .., sameRange_setFree s sb rest, .inl rfl⟩
      dsimp only
      rw [iget_eq hready, hacross]
      obtain ⟨hcount, hkeeps, htaken⟩ := ext4Enter_spec
        ((s.setFree sb rest).hold [s.across sb ino]) dir name mode ino (s.across sb ino)
      refine ⟨fun id => ?_, fun m => (hfirst m).trans (hkeeps m)⟩
      rw [hcount]
      exact congrArg (fun l => s.count id + count id l) htaken.symm

/-! ## The calls -/

theorem charge_owes (s : Vfs) (trace : Trace Id) :
    Owes s (taken (s.charge id trace).1 ++ trace.2) (s.charge id trace).2 := by
  obtain ⟨r, links⟩ := trace
  cases r with
  | error e => exact owes_hold s links
  | ok id => exact owes_hold s (id :: links)

theorem openExisting_owes (h : s.Settled) (flags : BitVec 32) (mask : Mode) (n : Id) (l : List Id) :
    Owes s (taken ((s.hold (n :: l)).openExisting flags mask n).1 ++ l)
      ((s.hold (n :: l)).openExisting flags mask n).2 := by
  have hput : Owes s l ((s.hold (n :: l)).iput n) := by
    rw [iput_hold h .rfl]
    exact owes_hold s l
  have hkept : Owes s (n :: l) (s.hold (n :: l)) := owes_hold s _
  unfold openExisting
  split_ifs
  · exact hput
  · exact hput
  · exact hput
  · exact hkept
  · exact hkept

/-- What the creation of a file leaves. -/
def Tree.unentered (t : Tree) (dir : Id) (last : Name) : List Id :=
  if t.permission dir mayWrite = true ∧ (t.inode dir).op = .ext2 then t.leftover dir last else []

theorem openCreate_owes (dir : Id) (last : Name) (mode : Mode) (l : List Id)
    (h : s.Ready (l.length + 3)) :
    Owes s (taken ((s.hold (dir :: l)).openCreate dir last mode).1 ++ (s.unentered dir last ++ l))
      ((s.hold (dir :: l)).openCreate dir last mode).2 := by
  unfold openCreate Tree.unentered
  by_cases hpermission : s.permission dir mayWrite = false
  · rw [hold_toTree, if_pos hpermission, if_neg (by simp [hpermission]),
      iput_hold h.settled .rfl]
    exact owes_hold s l
  rw [hold_toTree, if_neg hpermission]
  rw [Bool.not_eq_false] at hpermission
  -- the file system makes the file, then the directory is given back
  have hclose : ∀ (left : List Id) (o : Outcome Id), Creates (s.hold (dir :: l)) left o →
      Owes s (taken o.1 ++ (left ++ l)) (o.2.iput dir) := by
    intro left o hcreates
    have hperm : (dir :: l ++ (taken o.1 ++ left)).Perm (dir :: (taken o.1 ++ (left ++ l))) := by
      have hleft : (l ++ (taken o.1 ++ left)).Perm (taken o.1 ++ left ++ l) := perm_append_comm
      rw [append_assoc] at hleft
      exact hleft.cons dir
    exact ((owes_hold s (dir :: l)).trans hcreates.owes).iput hperm
      ((h.settled.releases mem_cons_self).keeps (hcreates.keeps dir))
  cases hop : (s.inode dir).op with
  | minix =>
    rw [if_neg (by simp)]
    exact hclose _ _ (minixMknod_creates (h.hold _ (by simp)) dir last _)
  | ext2 =>
    rw [if_pos ⟨hpermission, rfl⟩]
    exact hclose _ _ (ext4Mknod_creates (h.hold _ (by simp)) dir last _)
  | none | chr | blk | proc | tmpfs =>
    rw [if_neg (by simp)]
    exact hclose _ _ (creates_error _ _)

/-- What `open_namei` leaves. -/
def Tree.openStrays (t : Tree) (path : Name) (flags : BitVec 32) : List Id :=
  if Vfs.openMask flags = none then []
  else
    match t.parentFrom path with
    | (.error _, links) => links
    | (.ok (dir, last), links) =>
      if last = [] then links
      else
        match t.child Vfs.nrSuper dir last with
        | .ok id =>
          if flags &&& Vfs.oCreat ≠ 0#32 ∧ flags &&& Vfs.oExcl ≠ 0#32 then links
          else (t.follow Vfs.linkMax dir id).2 ++ links
        | .error e =>
          if e ≠ .enoent ∨ flags &&& Vfs.oCreat = 0#32 then links else t.unentered dir last ++ links

theorem openNamei_owes (path : Name) (flags : BitVec 32) (mode : Mode)
    (h : s.Ready (spare + (s.openStrays path flags).length)) :
    Owes s (taken (s.openNamei path flags mode).1 ++ s.openStrays path flags)
      (s.openNamei path flags mode).2 := by
  have hset := h.settled
  have hspare : lookupSpare + linkMax = spare := rfl
  have hlook : nrSuper + 3 = lookupSpare := rfl
  have hparent := dirNamei_eq (s := s) path
  unfold openNamei
  unfold Tree.openStrays at h ⊢
  cases hmask : openMask flags with
  | none => exact owes_hold s []
  | some mask =>
    rw [hmask, if_neg (by simp)] at h
    rw [if_neg (by simp)]
    generalize s.parentFrom path = found at h hparent
    obtain ⟨r, links⟩ := found
    cases r with
    | error e =>
      rw [hparent h]
      exact owes_hold s links
    | ok found =>
      obtain ⟨dir, last⟩ := found
      dsimp only at h ⊢
      have hlinks : s.Ready (spare + links.length) := h.mono (by
        repeat' split
        all_goals simp)
      have hput : Owes s links ((s.hold (dir :: links)).iput dir) := by
        rw [iput_hold hset .rfl]
        exact owes_hold s links
      rw [hparent hlinks]
      dsimp only [charge]
      by_cases hlast : last = []
      · split_ifs
        · exact hput
        · exact owes_hold s (dir :: links)
      rw [if_neg hlast] at h
      rw [lookupOne_eq nrSuper (hlinks.hold _ (by simp; omega)), hold_toTree]
      cases hchild : s.child nrSuper dir last with
      | error e =>
        dsimp only [charge]
        split_ifs
        · exact hput
        · exact openCreate_owes dir last mode links (hlinks.mono (by omega))
      | ok inode =>
        rw [hchild] at h
        dsimp only [charge, id] at h ⊢
        rw [hold_pair]
        split_ifs with hexcl
        · rw [iput_hold (hset.hold links) (List.Perm.swap inode dir []),
            iput_hold (hset.hold links) .rfl]
          exact owes_hold s links
        · rw [if_neg hexcl] at h
          have hfollow : (s.hold links).Ready (lookupSpare + linkMax +
              (s.follow linkMax dir inode).2.length) := h.hold links (by simp; omega)
          rw [followLink_follows s.toTree linkMax (s.hold links) rfl dir inode hfollow]
          obtain ⟨r, links'⟩ := s.follow linkMax dir inode
          cases r with
          | error e =>
            exact ((owes_hold s links).trans (owes_hold _ links')).perm
              perm_append_comm
          | ok n =>
            have hnow : (s.hold links).hold (n :: links') = s.hold (n :: (links' ++ links)) := by
              rw [hold_hold]
              exact hold_perm perm_append_comm
            dsimp only [charge, id]
            rw [hnow]
            exact openExisting_owes hset flags mask n _

/-- The calls that resolve a path to an inode. -/
inductive Call where
  | namei (path : Name)
  | lnamei (path : Name)
  | openNamei (path : Name) (flags : BitVec 32) (mode : Mode)

def Call.run (s : Vfs) : Call → Outcome Id
  | namei path => s.namei path
  | lnamei path => s.lnamei path
  | openNamei path flags mode => s.openNamei path flags mode

/-- The inodes with a reference too many: the directory of every link with a relative target that
is followed, and a new inode of ext4 that gets no entry. -/
def Call.strays (t : Tree) : Call → List Id
  | namei path => (t.resolveFrom path true).2
  | lnamei path => (t.resolveFrom path false).2
  | openNamei path flags _ => t.openStrays path flags

theorem Call.owes (call : Call) (h : s.Ready (spare + (call.strays s.toTree).length)) :
    Owes s (taken (call.run s).1 ++ call.strays s.toTree) (call.run s).2 := by
  cases call with
  | namei path =>
    rw [run, show s.namei path = _ from nameiFrom_eq path true h]
    exact charge_owes s _
  | lnamei path =>
    rw [run, show s.lnamei path = _ from nameiFrom_eq path false h]
    exact charge_owes s _
  | openNamei path flags mode => exact openNamei_owes path flags mode h

/-- The root directory of an ext4 file system with a file `f` and two links to it: `a` leads to
`/f`, and `l` to `f`. -/
def twoLinks : Vfs where
  nodes
    | .disk 0 1 => { Inode.new with mode := 0o040755#16, nlink := 2, op := .ext2 }
    | .disk 0 2 => { Inode.new with mode := 0o100644#16, nlink := 1, op := .ext2 }
    | .disk 0 3 => { Inode.new with mode := 0o120777#16, nlink := 1, op := .ext2 }
    | .disk 0 4 => { Inode.new with mode := 0o120777#16, nlink := 1, op := .ext2 }
    | _ => Inode.new
  entries
    | .disk 0 1 => [⟨2, ascii ['f']⟩, ⟨3, ascii ['a']⟩, ⟨4, ascii ['l']⟩]
    | _ => []
  target
    | .disk 0 3 => some (ascii ['/', 'f'])
    | .disk 0 4 => some (ascii ['f'])
    | _ => none
  trouble _ := none
  reaches _ _ := true
  supers _ :=
    { dev := 3, readOnly := false, mounted := some (.disk 0 1), covered := none, namelen := 0
      ninodes := 0, blockSize := 1024, free := [5, 6] }
  tmpEntries := []
  root := some (.disk 0 1)
  pwd := some (.disk 0 1)
  euid := 0
  egid := 0
  current := 1
  count
    | .disk 0 1 => 2
    | _ => 0

theorem twoLinks_settled : twoLinks.Settled := by
  intro n _ hsb hop
  cases n with
  | disk sb ino =>
    simp only [twoLinks, Tree.inode] at hop
    split at hop <;> cases hop
  | proc kind pid | tmpfs i => cases hsb

/-- Room for all that a resolution without strays takes. -/
theorem ready_of_le (h : s.Settled) (hle : ∀ id, s.count id ≤ 2) (hl : l = []) :
    s.Ready (spare + l.length) := by
  refine ⟨h, fun id => ?_⟩
  have hcount := hle id
  have hspare : spare = 13 := rfl
  rw [hl, length_nil]
  omega

end Shitix.Names
