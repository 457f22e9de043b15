import Shitix.Fs.Names

/-!
# Resolution

What a path leads to, by the tree alone.  `Tree.resolve` counts no references; it keeps a list of
the directories in which a link with a relative target was followed.  The code takes and gives back
references on the way, and what is left in the end (`nameiFrom_eq`) is one to the result, and one to
each directory on that list: `follow_link` hands the directory on to `_namei` as the place to start
from, and `_namei` takes a reference of its own and leaves this one.

`i_count` has 16 bits.  A resolution has never more than `spare` references at a time that it gives
back again, so the counts do not wrap if there is room for these and for what is left (`Ready`).
-/

namespace Shitix.Names

open Function List

/-! ## Holding references -/

namespace Vfs

/-- More references, one for each time an inode is on the list. -/
def hold (s : Vfs) (l : List Id) : Vfs := { s with count := fun id => s.count id + l.count id }

variable {s : Vfs} {id dir : Id} {l l' : List Id}

theorem hold_count : (s.hold l).count id = s.count id + l.count id := rfl

@[simp] theorem hold_toTree : (s.hold l).toTree = s.toTree := rfl

theorem hold_perm (h : l.Perm l') : s.hold l = s.hold l' := by
  unfold hold
  congr 1
  funext id
  rw [h.count_eq]

theorem hold_hold : (s.hold l).hold l' = s.hold (l ++ l') := by
  unfold hold
  congr 1
  funext id
  rw [count_append, add_assoc]

/-- The reference to an inode next to the one to its directory. -/
theorem hold_pair (dir n : Id) (links : List Id) :
    (s.hold (dir :: links)).hold [n] = (s.hold links).hold [dir, n] := by
  have hperm : ([dir, n] ++ links).Perm (links ++ [dir, n]) := perm_append_comm
  rw [hold_hold, hold_hold]
  exact hold_perm (((perm_append_singleton n links).cons dir).trans hperm)

theorem bump_eq (hroom : s.count id + 1 < 2 ^ 16) : s.bump id = s.hold [id] := by
  unfold bump hold
  congr 1
  funext id'
  by_cases h : id' = id
  · rw [h, update_self, count_singleton_self, inc16_of_lt hroom]
  · rw [update_of_ne h, count_singleton, if_neg (by simpa using Ne.symm h),
      add_zero]

/-- What nobody refers to and no directory names any more has been given back. -/
def Settled (s : Vfs) : Prop :=
  ∀ id, s.count id = 0 → id.sb.isSome → (s.inode id).op = .minix → (s.inode id).nlink ≠ 0

theorem Settled.hold (h : s.Settled) (l : List Id) : (s.hold l).Settled := by
  intro id hcount
  exact h id (Nat.eq_zero_of_add_eq_zero_right hcount)

/-- There is room for `k` more references to any inode. -/
structure Ready (k : ℕ) (s : Vfs) : Prop where
  settled : s.Settled
  room : ∀ id, s.count id + k < 2 ^ 16

theorem Ready.mono {k k' : ℕ} (h : s.Ready k') (hle : k ≤ k') : s.Ready k :=
  ⟨h.settled, fun id => (Nat.add_le_add_left hle _).trans_lt (h.room id)⟩

theorem Ready.hold {k k' : ℕ} (h : s.Ready k') (l : List Id) (hle : l.length + k ≤ k') :
    (s.hold l).Ready k where
  settled := h.settled.hold l
  room id := by
    have hroom := h.room id
    have hcount : l.count id ≤ l.length := count_le_length
    rw [hold_count]
    omega

theorem Ready.bump_eq (h : s.Ready 1) (id : Id) : s.bump id = s.hold [id] :=
  Vfs.bump_eq (h.room id)

/-- A reference is taken and given back. -/
theorem iput_hold (h : s.Settled) (hl : l'.Perm (id :: l)) : (s.hold l').iput id = s.hold l := by
  rw [hold_perm hl]
  have hcount : (s.hold (id :: l)).count id = s.count id + l.count id + 1 := by
    rw [hold_count, count_cons_self, add_assoc]
  have hdrop : (s.hold (id :: l)).drop id = s.hold l := by
    unfold drop
    rw [hcount]
    refine congrArg (Vfs.mk s.toTree) (funext fun id' => ?_)
    by_cases heq : id' = id
    · rw [heq, update_self, Nat.add_sub_cancel]
    · rw [update_of_ne heq, hold_count, count_cons_of_ne (symm heq)]
  unfold iput
  rw [hcount, if_neg (Nat.succ_ne_zero _)]
  split_ifs with hmore hfree
  · exact hdrop
  · -- it is not the last reference to a file without links
    have hzero : s.count id = 0 := by omega
    exact absurd hfree.2.2 (h id hzero hfree.1 hfree.2.1)
  · exact hdrop

end Vfs

/-! ## The tree alone -/

namespace Tree

variable (t : Tree)

/-- The inode an entry leads to: the root of what is mounted on it, if anything is. -/
def across (sb ino : ℕ) : Id := ((t.inode (.disk sb ino)).mount).getD (.disk sb ino)

/-- The inode with a number. -/
def numbered (dir : Id) (ino : Option ℕ) : Except Errno Id :=
  match dir.sb, ino with
  | some sb, some ino => .ok (t.across sb ino)
  | _, _ => .error .enoent

/-- What a directory has under a name, by its file system. -/
def childIn (dir : Id) (name : Name) : Except Errno Id :=
  if t.permission dir mayExec = false then .error .eacces
  else
    match (t.inode dir).op with
    | .minix => t.numbered dir (t.minixFind dir name)
    | .ext2 => t.numbered dir (t.ext4Find dir name)
    | .proc => t.procFind name dir
    | .tmpfs => t.tmpfsFind dir name
    | _ => .error .enotdir

/-- What a directory has under a name. -/
def child : ℕ → Id → Name → Except Errno Id
  | fuel, dir, name =>
    if ¬ (t.inode dir).isDir then .error .enotdir
    else if name = dot ∨ name = [] then .ok dir
    else if name = dotdot then
      if t.root = some dir then .ok dir
      else
        match fuel, t.coveredBy dir with
        | fuel + 1, some covered => child fuel covered dotdot
        | _, _ => t.childIn dir name
    else t.childIn dir name

end Tree

/-- What comes of a resolution, and the directories of the relative links on the way. -/
abbrev Trace (α : Type) : Type := Except Errno α × List Id

namespace Tree

variable (t : Tree)

/-- The components before the last one. -/
def steps (follow : Id → Id → Trace Id) : List Name → Id → Trace Id
  | [], cur => (.ok cur, [])
  | comp :: rest, cur =>
    if Vfs.nameMax < comp.length then (.error .enametoolong, [])
    else if ¬ (t.inode cur).isDir then (.error .enotdir, [])
    else if t.permission cur mayExec = false then (.error .eacces, [])
    else
      match t.child Vfs.nrSuper cur comp with
      | .error e => (.error e, [])
      | .ok next =>
        match follow cur next with
        | (.error e, links) => (.error e, links)
        | (.ok followed, links) =>
          ((steps follow rest followed).1, links ++ (steps follow rest followed).2)

/-- The directory of the last component. -/
def parent (follow : Id → Id → Trace Id) (path : Name) (start : Id) : Trace (Id × Name) :=
  match t.steps follow (components (splitLast path).1) start with
  | (.error e, links) => (.error e, links)
  | (.ok cur, links) =>
    if ¬ (t.inode cur).isDir then (.error .enotdir, links)
    else (.ok (cur, (splitLast path).2), links)

/-- The whole path. -/
def resolve (follow : Id → Id → Trace Id) (followLinks : Bool) (path : Name) (base : Id) : Trace Id :=
  match t.parent follow path base with
  | (.error e, links) => (.error e, links)
  | (.ok (dir, last), links) =>
    if last = [] then (.ok dir, links)
    else
      match t.child Vfs.nrSuper dir last with
      | .error e => (.error e, links)
      | .ok inode =>
        if followLinks then ((follow dir inode).1, links ++ (follow dir inode).2)
        else (.ok inode, links)

/-- A link, with so many still to follow. -/
def follow : ℕ → Id → Id → Trace Id
  | depth, dir, inode =>
    if ¬ (t.inode inode).isLnk then (.ok inode, [])
    else
      match depth with
      | 0 => (.error .eloop, [])
      | depth + 1 =>
        match t.readSymlinkTarget inode with
        | none => (.error .eio, [])
        | some target =>
          if target.head? = some slash then
            match t.root with
            | none => (.error .enoent, [])
            | some root => t.resolve (follow depth) true target root
          else
            ((t.resolve (follow depth) true target dir).1,
              dir :: (t.resolve (follow depth) true target dir).2)

/-- The directory of the last component of a path, from where the path starts. -/
def parentFrom (path : Name) : Trace (Id × Name) :=
  match t.start path with
  | none => (.error .enoent, [])
  | some start => t.parent (t.follow Vfs.linkMax) path start

/-- What a path leads to. -/
def resolveFrom (path : Name) (followLinks : Bool) : Trace Id :=
  match t.start path with
  | none => (.error .enoent, [])
  | some start => t.resolve (t.follow Vfs.linkMax) followLinks path start

end Tree

/-! ## The code -/

namespace Vfs

variable {s : Vfs} {dir : Id} {l l' l'' : List Id} {name path : Name}

/-- A reference to the result, and one to each directory on the list. -/
def charge {α : Type} (s : Vfs) (ref : α → Id) : Trace α → Outcome α
  | (.ok a, links) => (.ok a, s.hold (ref a :: links))
  | (.error e, links) => (.error e, s.hold links)

section Charge

variable {α : Type} {ref : α → Id} {r : Except Errno α} {n : Id}

theorem charge_hold (hl : l.Perm (l'' ++ l')) :
    (s.hold l').charge ref (r, l'') = s.charge ref (r, l) := by
  cases r with
  | error e => exact Prod.ext rfl (hold_hold.trans (hold_perm (perm_append_comm.trans hl.symm)))
  | ok a =>
    refine Prod.ext rfl (hold_hold.trans (hold_perm ?_))
    exact perm_append_comm.trans (hl.symm.cons _)

/-- A reference that was there before is given back. -/
theorem charge_iput (h : s.Settled) (hl : l'.Perm (n :: l)) (trace : Trace α) :
    (((s.hold l').charge ref trace).1, ((s.hold l').charge ref trace).2.iput n) =
      (s.hold l).charge ref trace := by
  obtain ⟨r, links⟩ := trace
  cases r with
  | error e =>
    refine Prod.ext rfl ?_
    change ((s.hold l').hold links).iput n = (s.hold l).hold links
    rw [hold_hold, hold_hold]
    exact iput_hold h (hl.append_right links)
  | ok a =>
    refine Prod.ext rfl ?_
    change ((s.hold l').hold (ref a :: links)).iput n = (s.hold l).hold (ref a :: links)
    rw [hold_hold, hold_hold]
    exact iput_hold h (hl.append_right _)

/-- A failure that gives a reference back. -/
theorem iput_charge (h : s.Settled) (ref : α → Id) (e : Errno) (hl : l'.Perm (n :: l)) :
    ((.error e : Except Errno α), (s.hold l').iput n) = s.charge ref (.error e, l) :=
  Prod.ext rfl (iput_hold h hl)

end Charge

theorem iget_eq (h : s.Ready 2) (sb ino : ℕ) :
    s.iget sb ino = (s.across sb ino, s.hold [s.across sb ino]) := by
  have hone : s.Ready 1 := h.mono one_le_two
  unfold iget igetCross Tree.across
  have hinode : (s.bump (.disk sb ino)).inode (.disk sb ino) = s.inode (.disk sb ino) := rfl
  simp only [hinode]
  cases hmount : (s.inode (.disk sb ino)).mount with
  | none => exact Prod.ext rfl (hone.bump_eq _)
  | some m =>
    refine Prod.ext rfl ?_
    change ((s.bump (.disk sb ino)).bump m).iput (.disk sb ino) = s.hold [m]
    rw [hone.bump_eq, (h.hold [.disk sb ino] le_rfl).bump_eq, hold_hold]
    exact iput_hold h.settled .rfl

theorem igetEntry_eq (h : s.Ready 2) (dir : Id) (ino : Option ℕ) :
    s.igetEntry dir ino = s.charge id ((s.numbered dir ino), []) := by
  unfold igetEntry Tree.numbered
  cases dir.sb with
  | none => rfl
  | some sb =>
    cases ino with
    | none => rfl
    | some ino =>
      dsimp only
      rw [iget_eq h]
      rfl

theorem Ready.bump_charge (h : s.Ready 1) (n : Id) :
    ((.ok n : Except Errno Id), s.bump n) = s.charge id (.ok n, []) :=
  Prod.ext rfl (h.bump_eq n)

theorem refer_eq (h : s.Ready 1) (found : Except Errno Id) :
    s.refer found = s.charge id (found, []) := by
  cases found with
  | error e => rfl
  | ok n => exact h.bump_charge n

theorem lookupIn_eq (h : s.Ready 2) (hdir : (s.inode dir).isDir) :
    s.lookupIn dir name = s.charge id (s.childIn dir name, []) := by
  unfold lookupIn Tree.childIn
  by_cases hpermission : s.permission dir mayExec = false
  · rw [if_pos hpermission, if_pos hpermission]
    rfl
  · rw [if_neg hpermission, if_neg hpermission]
    cases (s.inode dir).op with
    | minix =>
      unfold minixLookup
      rw [if_neg (not_not.mpr hdir)]
      exact igetEntry_eq h dir _
    | ext2 =>
      unfold ext4Lookup
      rw [if_neg (not_not.mpr hdir)]
      exact igetEntry_eq h dir _
    | proc | tmpfs => exact refer_eq (h.mono one_le_two) _
    | none | chr | blk => rfl

theorem lookupOne_eq {s : Vfs} (fuel : ℕ) (h : s.Ready (fuel + 2)) (dir : Id) (name : Name) :
    s.lookupOne fuel dir name = s.charge id (s.child fuel dir name, []) := by
  have hone : s.Ready 1 := h.mono (by omega)
  have htwo : s.Ready 2 := h.mono (by omega)
  unfold lookupOne Tree.child
  by_cases hdir : (s.inode dir).isDir
  · split_ifs
    · exact hone.bump_charge dir
    · exact hone.bump_charge dir
    · cases fuel with
      | zero => exact lookupIn_eq htwo hdir
      | succ fuel =>
        cases hcovered : s.coveredBy dir with
        | none => exact lookupIn_eq htwo hdir
        | some covered =>
          dsimp only
          rw [hone.bump_eq, lookupOne_eq fuel (h.hold [covered] (by simp; omega))]
          exact charge_iput h.settled .rfl _
    · exact lookupIn_eq htwo hdir
  · simp only [hdir]
    rfl

/-! ## Walks -/

/-- What `lookup_one` takes beside the directory it looks in, and that. -/
def lookupSpare : ℕ := nrSuper + 3

/-- The code of a link and what the tree says of it, with room for `k` references and those that
are left. -/
def Follows (k : ℕ) (t : Tree) (follow : Follow) (trace : Id → Id → Trace Id) : Prop :=
  ∀ s : Vfs, s.toTree = t → ∀ dir inode, s.Ready (k + (trace dir inode).2.length) →
    follow (s.hold [dir, inode]) dir inode = s.charge id (trace dir inode)

variable {follow : Follow} {trace : Id → Id → Trace Id} {k : ℕ}

section

variable (hk : lookupSpare ≤ k) (hfollow : Follows k s.toTree follow trace)

include hk hfollow

theorem walk_eq (comps : List Name) (cur : Id) (h : s.Ready (k + (s.steps trace comps cur).2.length)) :
    walk follow (s.hold [cur]) comps cur = s.charge id (s.steps trace comps cur) := by
  induction comps generalizing s cur with
  | nil => rfl
  | cons comp rest ih =>
    have hlook : (s.hold [cur]).Ready (nrSuper + 2) := h.hold [cur] (by
      simp only [lookupSpare] at hk
      simp only [length_singleton]
      omega)
    unfold walk Tree.steps
    rw [hold_toTree]
    have hfails : ∀ e : Errno, (.error e, (s.hold [cur]).iput cur) = s.charge id (.error e, []) :=
      fun e => iput_charge h.settled id e .rfl
    by_cases hname : nameMax < comp.length
    · rw [if_pos hname, if_pos hname, hfails]
    rw [if_neg hname, if_neg hname]
    by_cases hdir : ¬ (s.inode cur).isDir
    · rw [if_pos hdir, if_pos hdir, hfails]
    rw [if_neg hdir, if_neg hdir]
    by_cases hpermission : s.permission cur mayExec = false
    · rw [if_pos hpermission, if_pos hpermission, hfails]
    rw [if_neg hpermission, if_neg hpermission, lookupOne_eq nrSuper hlook, hold_toTree]
    rw [Tree.steps, if_neg hname, if_neg hdir, if_neg hpermission] at h
    cases hchild : s.child nrSuper cur comp with
    | error e => exact hfails e
    | ok next =>
      have hboth : (s.hold [cur]).hold [next] = s.hold [cur, next] := hold_hold
      have hnext := hfollow s rfl cur next
      rw [hchild] at h
      dsimp only [charge, id] at h ⊢
      rw [hboth]
      generalize trace cur next = found at h hnext
      obtain ⟨r, links⟩ := found
      cases r with
      | error e =>
        rw [hnext h]
        rfl
      | ok followed =>
        have hnow : s.hold (followed :: links) = (s.hold links).hold [followed] := by
          have hperm : ([followed] ++ links).Perm (links ++ [followed]) :=
            perm_append_comm
          rw [hold_hold]
          exact hold_perm hperm
        have hrest : (s.hold links).Ready (k + (s.steps trace rest followed).2.length) :=
          h.hold links (by simp; omega)
        rw [hnext (h.mono (by simp))]
        dsimp only [charge, id]
        rw [hnow, ih (s := s.hold links) hfollow followed hrest]
        exact charge_hold perm_append_comm

theorem dirNameiBase_eq (path : Name) (start : Id)
    (h : s.Ready (k + (s.parent trace path start).2.length)) :
    dirNameiBase follow s path start = s.charge Prod.fst (s.parent trace path start) := by
  have hone : s.Ready 1 := h.mono (by
    simp only [lookupSpare] at hk
    omega)
  have hwalk := walk_eq hk hfollow (components (splitLast path).1) start
  unfold dirNameiBase
  rw [hone.bump_eq]
  unfold Tree.parent at h ⊢
  generalize s.steps trace (components (splitLast path).1) start = found at h hwalk
  obtain ⟨r, links⟩ := found
  cases r with
  | error e =>
    rw [hwalk h]
    rfl
  | ok cur =>
    have hlinks : s.Ready (k + links.length) := by
      dsimp only at h
      split_ifs at h <;> exact h
    rw [hwalk hlinks]
    dsimp only [charge]
    rw [hold_toTree]
    split_ifs
    · rfl
    · exact iput_charge h.settled Prod.fst _ .rfl

theorem nameiBase_eq (followLinks : Bool) (path : Name) (base : Id)
    (h : s.Ready (k + (s.resolve trace followLinks path base).2.length)) :
    nameiBase follow followLinks s path base = s.charge id (s.resolve trace followLinks path base) := by
  have hparent := dirNameiBase_eq hk hfollow path base
  unfold nameiBase
  unfold Tree.resolve at h ⊢
  generalize s.parent trace path base = found at h hparent
  obtain ⟨r, links⟩ := found
  cases r with
  | error e =>
    rw [hparent h]
    rfl
  | ok found =>
    obtain ⟨dir, last⟩ := found
    dsimp only at h ⊢
    by_cases hlast : last = []
    · rw [if_pos hlast] at h
      rw [hparent h]
      dsimp only [charge]
      rw [if_pos hlast, if_pos hlast]
      rfl
    rw [if_neg hlast] at h ⊢
    have hlinks : s.Ready (k + links.length) := h.mono (by
      split
      · exact le_rfl
      · split_ifs <;> simp)
    have hlook : (s.hold (dir :: links)).Ready (nrSuper + 2) := hlinks.hold _ (by
      simp only [lookupSpare] at hk
      simp only [length_cons]
      omega)
    rw [hparent hlinks]
    dsimp only [charge]
    rw [if_neg hlast, lookupOne_eq nrSuper hlook, hold_toTree]
    cases hchild : s.child nrSuper dir last with
    | error e => exact iput_charge h.settled id e .rfl
    | ok inode =>
      dsimp only [charge, id]
      rw [hold_pair]
      cases followLinks with
      | true =>
        rw [hchild] at h
        have hfollowed : (s.hold links).Ready (k + (trace dir inode).2.length) :=
          h.hold links (by simp; omega)
        rw [if_pos rfl, hfollow (s.hold links) rfl dir inode hfollowed]
        exact charge_hold perm_append_comm
      | false =>
        refine Prod.ext rfl ?_
        rw [hold_hold]
        refine iput_hold h.settled ?_
        have hperm : (links ++ [dir, inode]).Perm ([dir, inode] ++ links) :=
          perm_append_comm
        exact hperm

end

/-- The code of links does what the tree says. -/
theorem followLink_follows (t : Tree) (depth : ℕ) :
    Follows (lookupSpare + depth) t (followLink depth) (t.follow depth) := by
  rintro s rfl dir inode h
  have hgone : (s.hold [dir, inode]).iput dir = s.hold [inode] := iput_hold h.settled .rfl
  have hfails : ∀ e : Errno, (.error e, (s.hold [inode]).iput inode) = s.charge id (.error e, []) :=
    fun e => iput_charge h.settled id e .rfl
  unfold followLink
  unfold Tree.follow at h ⊢
  rw [hold_toTree, hgone]
  by_cases hlink : ¬ (s.inode inode).isLnk
  · rw [if_pos hlink, if_pos hlink]
    rfl
  rw [if_neg hlink] at h ⊢
  rw [if_neg hlink]
  cases depth with
  | zero => exact hfails _
  | succ depth =>
    have ih := followLink_follows s.toTree depth
    dsimp only at h ⊢
    cases htarget : s.readSymlinkTarget inode with
    | none => exact hfails _
    | some target =>
      rw [htarget] at h
      dsimp only at h ⊢
      by_cases habsolute : target.head? = some slash
      · rw [if_pos habsolute] at h ⊢
        rw [if_pos habsolute, hold_toTree]
        cases hroot : s.root with
        | none => exact hfails _
        | some root =>
          rw [hroot] at h
          dsimp only at h ⊢
          have hnow : (s.hold [inode]).Ready (lookupSpare + depth +
              (s.resolve (s.follow depth) true target root).2.length) := h.hold [inode] (by simp; omega)
          rw [nameiBase_eq (s := s.hold [inode]) (Nat.le_add_right ..) ih true target root hnow]
          exact charge_iput h.settled .rfl _
      · rw [if_neg habsolute] at h ⊢
        have hnow : (s.hold [dir, inode]).Ready (lookupSpare + depth +
            (s.resolve (s.follow depth) true target dir).2.length) :=
          h.hold [dir, inode] (by simp; omega)
        rw [if_neg habsolute,
          nameiBase_eq (s := s.hold [dir, inode]) (Nat.le_add_right ..) ih true target dir hnow]
        -- the reference to the directory stays
        refine (charge_iput h.settled (List.Perm.swap inode dir []) _).trans ?_
        exact charge_hold (perm_append_singleton dir _).symm

/-- The references that a resolution takes and gives back. -/
def spare : ℕ := lookupSpare + linkMax

theorem dirNamei_eq (path : Name) (h : s.Ready (spare + (s.parentFrom path).2.length)) :
    s.dirNamei path = s.charge Prod.fst (s.parentFrom path) := by
  unfold dirNamei
  unfold Tree.parentFrom at h ⊢
  cases hstart : s.start path with
  | none => rfl
  | some start =>
    rw [hstart] at h
    exact dirNameiBase_eq (Nat.le_add_right ..) (followLink_follows s.toTree linkMax) path start h

/-- What `namei` and `lnamei` leave. -/
theorem nameiFrom_eq (path : Name) (followLinks : Bool)
    (h : s.Ready (spare + (s.resolveFrom path followLinks).2.length)) :
    s.nameiFrom path followLinks = s.charge id (s.resolveFrom path followLinks) := by
  unfold nameiFrom
  unfold Tree.resolveFrom at h ⊢
  cases hstart : s.start path with
  | none => rfl
  | some start =>
    rw [hstart] at h
    exact nameiBase_eq (Nat.le_add_right ..) (followLink_follows s.toTree linkMax) followLinks path
      start h

end Vfs

end Shitix.Names
