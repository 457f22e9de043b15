import Shitix.Fs.InodeLedger

/-!
# The inode table keeps its ledgers

One lemma per function: a stretch of its code does not stop the kernel and keeps the
ledgers of `Fs/InodeLedger` (`Serves`), if the frame it starts from owns what it should
(`Ready`).  A lookup that misses needs one thing more: nobody else may be filling in the
same key.  A slot in use without a key is left behind only by a `new_inode` that is
about to give it back.
-/

namespace Shitix.Inodes

open Minix List Table Nat Bool

/-! ## What a stretch gets and what it leaves -/

/-- A super block is mounted. -/
def Mounted (devs : ℕ → ℕ) (s : ℕ) : Prop := s < nrSuper ∧ devs s ≠ 0

/-- The indices a frame carries are in range, and its super block is mounted. -/
def Purpose.Valid (devs : ℕ → ℕ) : Purpose → Prop
  | .iget s dev _ => Mounted devs s ∧ dev = devs s
  | .newInode s => Mounted devs s

@[inherit_doc Purpose.Valid]
def Frame.Valid (devs : ℕ → ℕ) : Frame → Prop
  | .iget s _ _ => Mounted devs s
  | .igetLoop s dev _ _ => Mounted devs s ∧ dev = devs s
  | .igetFound s dev _ _ n => (Mounted devs s ∧ dev = devs s) ∧ n < nrInode
  | .getEmptyInode purpose => purpose.Valid devs
  | .getEmptyWait purpose n => purpose.Valid devs ∧ n < nrInode
  | .igetMounted n | .readInode n | .readInodeDone n | .writeInode n | .writeInodeLock n
  | .writeInodeDone n | .iput (some n) | .iputWritten n | .iputTruncated n
  | .newInode (some n) => n < nrInode
  | .iput none | .newInode none | .newInodeFailed => True

/-- A slot as `get_empty_inode` returns it. -/
structure Fresh (inode : Inode) : Prop where
  count : inode.count = 1
  lock : inode.lock = false
  dirt : inode.dirt = false
  sb : inode.sb = none

/-- What a stretch finds: the other frames own `refs` and `fills`, and its own frame the rest. -/
structure Ready (devs : ℕ → ℕ) (refs : ℕ → ℕ) (fills : ℕ × ℕ → ℕ) (k : Table) (frame : Frame) :
    Prop where
  counted : Counted k fun n => refs n + frame.refs n
  keyed : Keyed devs k fun key => fills key + frame.fills key
  valid : frame.Valid devs
  named : ∀ n, (k.inodes n).inUse = true → (k.inodes n).dev ≠ 0

/-- What a stretch leaves. -/
structure Leaves (devs : ℕ → ℕ) (refs : ℕ → ℕ) (fills : ℕ × ℕ → ℕ) (k : Table)
    (next : Next Frame Value) : Prop where
  counted : Counted k fun n => refs n + next.weight (Frame.refs n)
  keyed : Keyed devs k fun key => fills key + next.weight (Frame.fills key)
  valid : Coop.NextHolds (Frame.Valid devs) (fun _ => True) next
  named : ∀ n, (k.inodes n).inUse = true → (k.inodes n).dev = 0 →
    next = .call (.iput (some n)) .newInodeFailed ∧ Fresh (k.inodes n)

/-- A stretch does not stop the kernel and leaves the ledgers in order. -/
def Serves (devs : ℕ → ℕ) (refs : ℕ → ℕ) (fills : ℕ × ℕ → ℕ) (stretch : Stretch) : Prop :=
  ∃ k next, stretch = .ok (k, next) ∧ Leaves devs refs fills k next

theorem refs_of_owned {frame : Frame} {n : ℕ} (h : frame.owned = some n) :
    (fun m => frame.refs m) = one n := by
  funext m
  simp [Frame.refs, one, h]

section Stretches

variable {devs : ℕ → ℕ} {refs : ℕ → ℕ} {fills : ℕ × ℕ → ℕ} {k k' : Table} {frame : Frame}
  {n s dev ino : ℕ} {next : Next Frame Value} {f : Inode → Inode} {cross : Bool}

section

variable (h : Ready devs refs fills k frame)

include h

section

variable (howned : frame.owned = some n)

include howned

theorem Ready.counted_one : Counted k fun m => refs m + one n m := by
  rw [← refs_of_owned howned]
  exact h.counted

theorem Ready.inUse : (k.inodes n).inUse = true := by
  refine (h.counted_one howned).used n ?_
  rw [one_self]
  omega

theorem Ready.count_pos : 0 < (k.inodes n).count := by
  have hle := (h.counted_one howned).le n
  rw [one_self] at hle
  omega

end

theorem Ready.same (hsame : k.Same k') :
    Ready devs refs fills k' frame where
  counted := h.counted.same hsame
  keyed := h.keyed.same hsame
  valid := h.valid
  named m hm := by
    rw [(hsame.inodes m).dev]
    exact h.named m ((hsame.inodes m).inUse ▸ hm)

/-- A stretch that hands on what its frame owns. -/
theorem Ready.goOn (hrefs : ∀ m, next.weight (Frame.refs m) ≤ frame.refs m)
    (hfills : ∀ key, next.weight (Frame.fills key) ≤ frame.fills key)
    (hvalid : Coop.NextHolds (Frame.Valid devs) (fun _ => True) next) :
    Serves devs refs fills (.ok (k, next)) := by
  refine ⟨k, next, rfl, h.counted.mono ?_, h.keyed.mono ?_, hvalid, ?_⟩
  · exact fun m => Nat.add_le_add_left (hrefs m) _
  · exact fun key => Nat.add_le_add_left (hfills key) _
  · exact fun m hm hzero => absurd hzero (h.named m hm)

theorem Ready.ret (value : Value) : Serves devs refs fills (.ok (k, .ret value)) :=
  h.goOn (fun _ => zero_le _) (fun _ => zero_le _) trivial

/-- A stretch that changes the count of a slot in use. -/
theorem Ready.recount (hused : (k.inodes n).inUse = true)
    (hdev : (f (k.inodes n)).dev = (k.inodes n).dev)
    (hino : (f (k.inodes n)).ino = (k.inodes n).ino) (hsb : (f (k.inodes n)).sb = (k.inodes n).sb)
    (hcounted : Counted (k.modify n f) fun m => refs m + next.weight (Frame.refs m))
    (hfills : ∀ key, next.weight (Frame.fills key) ≤ frame.fills key)
    (hvalid : Coop.NextHolds (Frame.Valid devs) (fun _ => True) next) :
    Serves devs refs fills (.ok (k.modify n f, next)) := by
  refine ⟨_, _, rfl, hcounted, ?_, hvalid, fun m hm hzero => absurd hzero ?_⟩
  · exact (h.keyed.shrink (fun _ _ => ⟨hused, hdev, hino⟩) (fun _ => h.keyed.range n hused)
      (.inr ⟨hsb, hdev⟩)).mono fun key => Nat.add_le_add_left (hfills key) _
  · revert hm
    exact forall_modify (P := fun _ i => i.inUse = true → i.dev ≠ 0)
      (fun _ => hdev ▸ h.named n hused) (fun m _ => h.named m) m

theorem Ready.sleep : Serves devs refs fills (.ok (k, .sleep frame)) :=
  h.goOn (fun _ => le_rfl) (fun _ => le_rfl) h.valid

end

theorem withInode_serves {f : Inode → Stretch} (hn : n < nrInode)
    (hf : Serves devs refs fills (f (k.inodes n))) : Serves devs refs fills (withInode k n f) := by
  rw [withInode, if_pos hn]
  exact hf

theorem Ready.waitOnInode (h : Ready devs refs fills k frame) {f : Inode → Stretch}
    (hn : n < nrInode)
    (hf : (k.inodes n).lock = false → Serves devs refs fills (f (k.inodes n))) :
    Serves devs refs fills (waitOnInode k n frame f) := by
  refine withInode_serves hn ?_
  cases hlock : (k.inodes n).lock with
  | true => exact h.sleep
  | false => exact hf hlock

theorem handOut_serves (hcounted : Counted k fun m => refs m + one n m)
    (hkeyed : Keyed devs k fills)
    (hnamed : ∀ m, (k.inodes m).inUse = true → (k.inodes m).dev ≠ 0) :
    Serves devs refs fills (handOut k n) :=
  ⟨_, _, rfl, hcounted.handOut, hkeyed.ofEq rfl rfl, trivial,
    fun m hm hzero => absurd hzero (hnamed m hm)⟩

section

variable (h : Ready devs refs fills k frame)

include h

theorem Ready.handOut (howned : frame.owned = some n) : Serves devs refs fills (handOut k n) :=
  handOut_serves (h.counted_one howned) (h.keyed.mono fun _ => le_add_right _ _) h.named

theorem Ready.finishRead (howned : frame.owned = some n) (hf : (k.inodes n).Same (f (k.inodes n))) :
    Serves devs refs fills (finishRead k n f) :=
  (h.same (.modify (f := fun inode => { f inode with lock := false })
    ⟨hf.dev, hf.ino, hf.count, hf.inUse, hf.sb, hf.mount⟩)).handOut howned

theorem Ready.finishWrite : Serves devs refs fills (finishWrite k n) :=
  (h.same (.modify ⟨rfl, rfl, rfl, rfl, rfl, rfl⟩)).ret .unit

end

/-! ## `iput` -/

section

variable (h : Ready devs refs fills k frame) (howned : frame.owned = some n) (hn : n < nrInode)

include h howned hn

theorem Ready.iputRest : Serves devs refs fills (iputRest k n) := by
  unfold Inodes.iputRest
  cases hdirt : (k.inodes n).dirt with
  | true =>
    rw [if_pos hdirt]
    refine h.goOn (fun m => ?_) (fun _ => zero_le _) ⟨hn, hn⟩
    rw [show frame.refs m = one n m from congrFun (refs_of_owned howned) m]
    simp [Next.weight, Frame.refs, Frame.owned, one]
  | false =>
    rw [if_neg (eq_false_iff.mp hdirt)]
    refine h.recount (h.inUse howned) rfl rfl rfl ?_ (fun _ => zero_le _) trivial
    refine (h.counted_one howned).drop rfl (fun hcount => ?_) (h.counted.mount n)
    rw [if_neg (by omega)]

theorem Ready.iputLoop : Serves devs refs fills (iputLoop k n) := by
  unfold Inodes.iputLoop
  by_cases hcount : 1 < (k.inodes n).count
  · rw [if_pos hcount]
    exact h.recount (h.inUse howned) rfl rfl rfl
      ((h.counted_one howned).drop rfl (fun _ => rfl) (h.counted.mount n))
      (fun _ => zero_le _) trivial
  · rw [if_neg hcount]
    split_ifs
    · refine h.goOn (fun m => ?_) (fun _ => zero_le _) hn
      rw [show frame.refs m = one n m from congrFun (refs_of_owned howned) m]
      simp [Next.weight, Frame.refs, Frame.owned, one]
    · exact h.iputRest howned hn

end

/-- A fresh slot that `new_inode` gives back is free again at once. -/
theorem iput_fresh (hcounted : Counted k fun m => refs m + one n m)
    (hkeyed : Keyed devs k fills) (hn : n < nrInode) (hfresh : Fresh (k.inodes n))
    (hnamed : ∀ m, (k.inodes m).inUse = true → (k.inodes m).dev = 0 → m = n) (value : Value) :
    Serves devs refs fills (code (.iput (some n)) value k) := by
  have hcode : code (.iput (some n)) value k =
      .ok (k.modify n fun inode =>
        { inode with
          count := inode.count - 1, inUse := if inode.count - 1 = 0 then false else inode.inUse },
        .ret .unit) := by
    simp only [code, waitOnInode, withInode, if_pos hn, hfresh.lock, hfresh.count, iputLoop,
      hfresh.sb, iputRest, hfresh.dirt, if_neg Bool.false_ne_true, if_neg one_ne_zero,
      if_neg (lt_irrefl 1)]
    rw [if_neg fun hput => Bool.false_ne_true hput.1]
  refine ⟨_, _, hcode, ?_, ?_, trivial, ?_⟩
  · refine hcounted.drop rfl (fun hcount => ?_) (hcounted.mount n)
    rw [hfresh.count] at hcount
    exact absurd hcount (lt_irrefl 1)
  · refine hkeyed.shrink (fun hused => ?_) (fun _ => hn) (.inr ⟨rfl, rfl⟩)
    simp only [hfresh.count] at hused
    exact absurd hused false_ne_true
  · intro m hm hzero
    exfalso
    revert hm hzero
    refine forall_modify (P := fun _ i => i.inUse = true → i.dev = 0 → False) ?_ ?_ m
    · intro hused
      simp only [hfresh.count] at hused
      exact absurd hused false_ne_true
    · exact fun m hne hused hzero => hne (hnamed m hused hzero)

/-- What `free_inode` does, if it does anything. -/
theorem freeInode_cases (k : Table) (n : ℕ) : k.freeInode n = k ∨
    ∃ s, (k.inodes n).sb = some s ∧ (k.inodes n).count = 1 ∧
      k.freeInode n = (k.modify n fun _ => .new).writeImap s ((k.inodes n).ino / bitsPerBlock)
        ((k.inodes n).ino % bitsPerBlock) false := by
  unfold freeInode
  dsimp only
  cases hsb : (k.inodes n).sb with
  | none => exact .inl rfl
  | some s =>
    dsimp only
    by_cases hfit : (k.inodes n).dev = 0 ∨ (k.inodes n).count ≠ 1 ∨ (k.inodes n).nlink ≠ 0
    · rw [if_pos hfit]
      exact .inl rfl
    · have hcount : (k.inodes n).count = 1 :=
        not_not.mp fun hne => hfit (.inr (.inl hne))
      split_ifs
      · exact .inl rfl
      · exact .inl rfl
      · exact .inl rfl
      · exact .inr ⟨s, rfl, hcount, rfl⟩

/-- No other slot and no frame has the key of a slot in use. -/
theorem Ready.key_ne (h : Ready devs refs fills k frame) (hused : (k.inodes n).inUse = true)
    {key : ℕ × ℕ}
    (hplace : fills key + frame.fills key ≠ 0 ∨
      key.1 ≠ 0 ∧ ∃ m, Carries (k.modify n fun _ => .new) m key) :
    key ≠ ((k.inodes n).dev, (k.inodes n).ino) := by
  rintro rfl
  rcases hplace with hfill | ⟨hzero, m, hm⟩
  · exact h.keyed.absent _ n hfill ⟨hused, rfl⟩
  · revert hm
    refine forall_modify (P := fun _ i => ¬ (i.inUse = true ∧ (i.dev, i.ino) = _)) ?_ ?_ m
    · exact fun hnew => false_ne_true hnew.1
    · exact fun m hne hm => hne (h.keyed.unique _ m n hzero hm ⟨hused, rfl⟩)

theorem Ready.freed (h : Ready devs refs fills k frame) (howned : frame.owned = some n)
    (hsb : (k.inodes n).sb = some s) (hcount : (k.inodes n).count = 1) :
    Serves devs refs fills (.ok ((k.modify n fun _ => .new).writeImap s
      ((k.inodes n).ino / bitsPerBlock) ((k.inodes n).ino % bitsPerBlock) false, .ret .unit)) := by
  have hused := h.inUse howned
  have hcounted : Counted (k.modify n fun _ => .new) refs := by
    refine (h.counted_one howned).drop (by rw [hcount]; rfl) (fun hmore => ?_) nofun
    rw [hcount] at hmore
    exact absurd hmore (lt_irrefl 1)
  have hkeyed : Keyed devs (k.modify n fun _ => .new) fun key => fills key + frame.fills key :=
    h.keyed.shrink (fun hnew => absurd hnew false_ne_true)
      (fun hnew => absurd hnew false_ne_true) (.inl rfl)
  refine ⟨_, _, rfl, hcounted.writeImap, ?_, trivial, ?_⟩
  · refine (hkeyed.writeImap fun key hplace hmarked => hmarked.writeImap fun hdev => ?_).mono
      fun key => le_add_right _ _
    -- the bit that is cleared is not the bit of a key that still has a place
    have hne := h.key_ne hused hplace
    obtain ⟨-, hsame, -⟩ := h.keyed.sb n s hsb
    have hfirst : key.1 = (k.inodes n).dev := by
      rw [← hdev, ← hsame]
      exact h.keyed.superDev s
    refine .inr (not_and_or.mp fun hplaces => hne (Prod.ext hfirst ?_))
    rw [← div_add_mod key.2 bitsPerBlock, hplaces.1, hplaces.2]
    exact div_add_mod ..
  · intro m hm hzero
    have hnamed : ∀ m, ((k.modify n fun _ => .new).inodes m).inUse = true →
        ((k.modify n fun _ => .new).inodes m).dev ≠ 0 :=
      forall_modify (P := fun _ i => i.inUse = true → i.dev ≠ 0)
        (fun hnew => absurd hnew false_ne_true) fun m _ => h.named m
    exact absurd hzero (hnamed m hm)

theorem Ready.iputTruncated (h : Ready devs refs fills k (.iputTruncated n)) (value : Value) :
    Serves devs refs fills (code (.iputTruncated n) value k) := by
  have hn : n < nrInode := h.valid
  have hdirty := h.same (.modify (n := n) (f := ({ · with dirt := true }))
    ⟨rfl, rfl, rfl, rfl, rfl, rfl⟩)
  rw [code]
  refine withInode_serves hn ?_
  dsimp only
  rcases freeInode_cases (k.modify n ({ · with dirt := true })) n with hkept | ⟨s, hsb, hcount, hfreed⟩
  · rw [hkept]
    split_ifs
    · exact hdirty.ret .unit
    · exact hdirty.iputRest rfl hn
  · have hnlink : (((k.modify n ({ · with dirt := true })).freeInode n).inodes n).nlink = 0 := by
      rw [hfreed, writeImap_inodes, modify_self]
      rfl
    rw [if_pos hnlink, hfreed]
    exact hdirty.freed rfl hsb hcount

/-! ## `get_empty_inode` and its callers -/

/-- The slot `get_empty_inode` chooses is free. -/
theorem bestEmpty_spec (h : k.bestEmpty = some n) : n < nrInode ∧ (k.inodes n).count = 0 := by
  simp only [bestEmpty, Option.or_eq_some_iff] at h
  rcases h with hclean | ⟨-, hfree⟩
  · have hcount := find?_some hclean
    simp only [and_eq_true, beq_iff_eq] at hcount
    exact ⟨mem_range.mp (mem_of_find?_eq_some hclean), hcount.1⟩
  · have hcount := find?_some hfree
    exact ⟨mem_range.mp (mem_of_find?_eq_some hfree), beq_iff_eq.mp hcount⟩

theorem Ready.taken (h : Ready devs refs fills k frame) (hfree : (k.inodes n).count = 0) :
    Counted (k.take n) fun m => refs m + one n m :=
  (h.counted.mono fun m => le_add_right (refs m) _).take hfree rfl rfl rfl

theorem Ready.takenKeyed (h : Ready devs refs fills k frame) (hn : n < nrInode) :
    Keyed devs (k.take n) fun key => fills key + frame.fills key :=
  h.keyed.shrink (fun _ hzero => absurd rfl hzero) (fun _ => hn) (.inl rfl)

/-- `iget_cross` writes the key it has been filling in. -/
theorem Ready.fillIget (h : Ready devs refs fills k (.getEmptyInode (.iget s dev ino)))
    (hn : n < nrInode) (hfree : (k.inodes n).count = 0) :
    Serves devs refs fills (fill (k.take n) n (.iget s dev ino)) := by
  obtain ⟨hmounted, hdev⟩ := h.valid
  have hfills : (Frame.getEmptyInode (.iget s dev ino)).fills (dev, ino) = 1 := if_pos rfl
  have hplace : fills (dev, ino) + (Frame.getEmptyInode (.iget s dev ino)).fills (dev, ino) ≠ 0 := by
    omega
  have hnone : fills (dev, ino) = 0 := by
    have := h.keyed.once (dev, ino)
    omega
  have hkeyed := h.takenKeyed hn
  refine ⟨_, _, rfl, ?_, ?_, hn, ?_⟩
  · have hcounted := h.taken hfree
    have hweight : ∀ m, Next.weight (Frame.refs m) (.goto (.readInode n) : Next Frame Value) =
        one n m := congrFun (refs_of_owned rfl)
    simp only [hweight]
    exact hcounted.modify (fun _ _ => rfl) (hcounted.le n) (hcounted.used n) (hcounted.mount n)
  · refine ((hkeyed.mono fun key => le_add_right _ _).insert (dev, ino) hnone ?_ ?_ hn
      hmounted.1 hdev.symm ?_ ⟨rfl, rfl, rfl⟩).mono fun key => le_rfl
    · exact fun m => hkeyed.absent _ m hplace
    · exact hkeyed.fillMarked _ hplace
    · exact h.keyed.fillDev _ hplace
  · intro m hm hzero
    exfalso
    revert hm hzero
    refine forall_modify (P := fun _ i => i.inUse = true → i.dev = 0 → False) ?_ ?_ m
    · exact fun _ => h.keyed.fillDev _ hplace
    · intro m hne hm hzero
      rw [Table.take, modify_of_ne k hne] at hm hzero
      exact h.named m hm hzero

/-- A slot that `new_inode` cannot use. -/
theorem Ready.giveBack (h : Ready devs refs fills k (.getEmptyInode (.newInode s)))
    (hn : n < nrInode) (hfree : (k.inodes n).count = 0) (hinodes : k'.inodes = (k.take n).inodes)
    (hcounted : Counted k' fun m => refs m + one n m) (hkeyed : Keyed devs k' fills) :
    Serves devs refs fills (.ok (k', .call (.iput (some n)) .newInodeFailed)) := by
  refine ⟨_, _, rfl, hcounted.mono fun m => ?_, hkeyed, ⟨hn, trivial⟩, ?_⟩
  · simp [Next.weight, Frame.refs, Frame.owned, one]
  · intro m hm hzero
    rw [hinodes] at hm hzero ⊢
    by_cases hsame : m = n
    · subst hsame
      refine ⟨rfl, ?_⟩
      rw [Table.take, modify_self]
      exact ⟨rfl, rfl, rfl, rfl⟩
    · rw [Table.take, modify_of_ne k hsame] at hm hzero
      exact absurd hzero (h.named m hm)

section

variable (hdistinct : ∀ s s', Mounted devs s → Mounted devs s' → devs s = devs s' → s = s')

include hdistinct

/-- `new_inode` takes a number that no slot carries and no frame is filling in. -/
theorem Ready.fillNew (h : Ready devs refs fills k (.getEmptyInode (.newInode s)))
    (hn : n < nrInode) (hfree : (k.inodes n).count = 0) :
    Serves devs refs fills (fill (k.take n) n (.newInode s)) := by
  have hmounted : Mounted devs s := h.valid
  have hcounted := h.taken hfree
  have hkeyed : Keyed devs (k.take n) fills :=
    (h.takenKeyed hn).mono fun key => le_add_right _ _
  rw [fill, newInodeAt]
  cases hfind : findFree ((k.take n).supers s).imap with
  | none => exact h.giveBack hn hfree rfl hcounted hkeyed
  | some place =>
    obtain ⟨i, j⟩ := place
    have hmarked : Keyed devs ((k.take n).writeImap s i j true) fills :=
      hkeyed.writeImap fun key _ hbefore => hbefore.writeImap fun _ => .inl rfl
    dsimp only
    split_ifs with hbad
    · exact h.giveBack hn hfree rfl hcounted.writeImap hmarked
    · -- the bit was clear, so the number has no place yet
      have hclear : ¬ (k.take n).Marked (devs s, j + i * bitsPerBlock) := by
        intro hset
        have := hset s hmounted.1 (hkeyed.superDev s)
        rw [isSet_findFree hfind] at this
        exact false_ne_true this
      have hset : ((k.take n).writeImap s i j true).Marked (devs s, j + i * bitsPerBlock) := by
        intro s' hs' hdev
        have hsame : s' = s := by
          rw [writeImap_dev, hkeyed.superDev] at hdev
          exact hdistinct s' s ⟨hs', hdev ▸ hmounted.2⟩ hmounted hdev
        obtain ⟨-, hbit, -⟩ := findFree_spec hfind
        obtain ⟨hdiv, hmod⟩ := number_div_mod i hbit
        rw [hsame]
        simp only [writeImap, Function.update_self]
        exact isSet_writeBit_self hdiv hmod
      have hsuper : ((k.take n).supers s).dev = devs s := hkeyed.superDev s
      refine handOut_serves ?_ ?_ ?_
      · have hle := hcounted.le n
        rw [Table.take, modify_self] at hle
        exact hcounted.writeImap.modify (fun _ _ => rfl) hle (fun _ => rfl) (hcounted.mount n)
      · refine hmarked.insert (devs s, j + i * bitsPerBlock) ?_ ?_ hset hn hmounted.1 rfl
          hmounted.2 ⟨hsuper, rfl, rfl⟩
        · exact not_not.mp fun hfill => hclear (hkeyed.fillMarked _ hfill)
        · exact fun m hm => hclear (hkeyed.carryMarked _ m hmounted.2 hm)
      · refine forall_modify (P := fun _ i => i.inUse = true → i.dev ≠ 0) ?_ ?_
        · exact fun _ hzero => hmounted.2 (hsuper ▸ hzero)
        · intro m hne hm
          rw [writeImap_inodes, Table.take, modify_of_ne k hne] at hm ⊢
          exact h.named m hm

theorem Ready.getEmptyInode {purpose : Purpose}
    (h : Ready devs refs fills k (.getEmptyInode purpose)) (value : Value) :
    Serves devs refs fills (code (.getEmptyInode purpose) value k) := by
  rw [code]
  cases hbest : k.bestEmpty with
  | none => exact h.sleep
  | some best =>
    obtain ⟨hn, hfree⟩ := bestEmpty_spec hbest
    refine withInode_serves hn ?_
    split_ifs
    · refine h.goOn (fun _ => zero_le _) (fun key => ?_) ⟨h.valid, hn⟩
      cases purpose <;> exact le_rfl
    · refine h.goOn (fun _ => zero_le _) (fun key => ?_) ⟨hn, h.valid⟩
      exact (zero_add _).le
    · cases purpose with
      | iget s dev ino => exact h.fillIget hn hfree
      | newInode s => exact h.fillNew hdistinct hn hfree

end

/-! ## `iget_cross` -/

theorem lookup_some (h : k.lookup dev ino = some n) : n < nrInode ∧ Carries k n (dev, ino) := by
  have hfound := find?_some h
  simp only [and_eq_true, beq_iff_eq] at hfound
  exact ⟨mem_range.mp (mem_of_find?_eq_some h), hfound.1.1,
    Prod.ext hfound.1.2 hfound.2⟩

theorem lookup_none (h : k.lookup dev ino = none) (hn : n < nrInode) :
    ¬ Carries k n (dev, ino) := by
  rintro ⟨hused, hkey⟩
  have hmiss := find?_eq_none.mp h n (mem_range.mpr hn)
  refine hmiss ?_
  simp only [and_eq_true, beq_iff_eq]
  exact ⟨⟨hused, congrArg Prod.fst hkey⟩, congrArg Prod.snd hkey⟩

theorem Ready.igetLoop (h : Ready devs refs fills k (.igetLoop s dev ino cross))
    (hspare : ∀ m < nrInode, (k.inodes m).count < 0xffff)
    (hmiss : k.lookup dev ino = none → fills (dev, ino) = 0 ∧ k.Marked (dev, ino)) (value : Value) :
    Serves devs refs fills (code (.igetLoop s dev ino cross) value k) := by
  rw [code]
  cases hlookup : k.lookup dev ino with
  | some found =>
    obtain ⟨hfound, hused, -⟩ := lookup_some hlookup
    refine h.recount hused rfl rfl rfl ?_ (fun _ => le_rfl) ⟨h.valid, hfound⟩
    have hweight : ∀ m, Next.weight (Frame.refs m)
        (.goto (.igetFound s dev ino cross found) : Next Frame Value) = one found m :=
      congrFun (refs_of_owned rfl)
    simp only [hweight]
    exact (h.counted.mono fun m => le_add_right _ _).bump hused (hspare found hfound)
  | none =>
    obtain ⟨hnone, hmarked⟩ := hmiss hlookup
    have hdev : dev ≠ 0 := h.valid.2 ▸ h.valid.1.2
    refine ⟨_, _, rfl, h.counted, ?_, h.valid, fun m hm hzero => absurd hzero (h.named m hm)⟩
    refine h.keyed.begin (dev, ino) hdev ?_ hmarked ?_ ?_
    · exact fun m hm => lookup_none hlookup (h.keyed.range m hm.1) hm
    · rw [hnone]
      exact (zero_add _).trans (if_pos rfl)
    · intro key hkey
      exact congrArg (fills key + ·) (if_neg fun heq => hkey (Option.some.inj heq).symm)

theorem Ready.igetFound {found : ℕ} (h : Ready devs refs fills k (.igetFound s dev ino cross found))
    (hspare : ∀ m < nrInode, (k.inodes m).count < 0xffff) (value : Value) :
    Serves devs refs fills (code (.igetFound s dev ino cross found) value k) := by
  refine h.waitOnInode h.valid.2 fun _ => ?_
  by_cases hchanged : (k.inodes found).dev ≠ dev ∨ (k.inodes found).ino ≠ ino
  · rw [if_pos hchanged]
    refine h.goOn (fun m => ?_) (fun _ => zero_le _) ⟨h.valid.2, h.valid.1⟩
    simp [Next.weight, Frame.refs, Frame.owned]
  · rw [if_neg hchanged]
    cases hmount : (k.inodes found).mount with
    | none => exact h.handOut rfl
    | some m =>
      dsimp only
      cases cross with
      | false => exact h.handOut rfl
      | true =>
        -- the mount keeps its root in use
        have hused : (k.inodes m).inUse = true := by
          refine h.counted.used m ?_
          have := h.counted.mount found m hmount
          omega
        have hm := h.keyed.range m hused
        rw [if_pos rfl]
        refine withInode_serves hm ?_
        refine h.recount hused rfl rfl rfl ?_ (fun _ => le_rfl) ⟨h.valid.2, hm⟩
        refine (h.counted.bump hused (hspare m hm)).mono fun m' => ?_
        simp [Next.weight, Frame.refs, Frame.owned, one, add_assoc]

/-! ## Reading and writing an inode -/

theorem Ready.readInode (h : Ready devs refs fills k (.readInode n)) (value : Value) :
    Serves devs refs fills (code (.readInode n) value k) := by
  have hn : n < nrInode := h.valid
  have hwait : ∀ {f : Inode → Inode}, (k.inodes n).Same (f (k.inodes n)) →
      Serves devs refs fills (.ok (k.modify n f, .sleep (.readInodeDone n))) := fun hf =>
    (h.same (.modify hf)).goOn (fun _ => le_rfl) (fun _ => le_rfl) hn
  refine h.waitOnInode hn fun _ => ?_
  cases (k.inodes n).sb with
  | none => exact h.finishRead rfl (.refl _)
  | some s =>
    dsimp only
    split_ifs
    · exact hwait ⟨rfl, rfl, rfl, rfl, rfl, rfl⟩
    · exact h.finishRead rfl ⟨rfl, rfl, rfl, rfl, rfl, rfl⟩
    · exact hwait ⟨rfl, rfl, rfl, rfl, rfl, rfl⟩

theorem Ready.readInodeDone (h : Ready devs refs fills k (.readInodeDone n)) (value : Value) :
    Serves devs refs fills (code (.readInodeDone n) value k) := by
  rw [code]
  refine withInode_serves h.valid ?_
  split
  · split_ifs
    · exact h.finishRead rfl ⟨rfl, rfl, rfl, rfl, rfl, rfl⟩
    · -- the slot was in use all the time, so this write of `in_use` changes nothing
      exact h.finishRead rfl ⟨rfl, rfl, rfl, (h.inUse rfl).symm, rfl, rfl⟩
  · exact h.finishRead rfl (.refl _)

theorem Ready.writeInodeLock (h : Ready devs refs fills k (.writeInodeLock n)) (value : Value) :
    Serves devs refs fills (code (.writeInodeLock n) value k) := by
  have hn : n < nrInode := h.valid
  refine h.waitOnInode hn fun _ => ?_
  cases (k.inodes n).sb with
  | none => exact h.finishWrite
  | some s =>
    dsimp only
    split_ifs
    · exact h.finishWrite
    · exact h.finishWrite
    · exact (h.same (.modify ⟨rfl, rfl, rfl, rfl, rfl, rfl⟩)).goOn (fun _ => le_rfl)
        (fun _ => le_rfl) hn

theorem Ready.code
    (hdistinct : ∀ s s', Mounted devs s → Mounted devs s' → devs s = devs s' → s = s')
    (h : Ready devs refs fills k frame) (hspare : ∀ m < nrInode, (k.inodes m).count < 0xffff)
    (hmiss : ∀ s dev ino cross, frame = .igetLoop s dev ino cross → k.lookup dev ino = none →
      fills (dev, ino) = 0 ∧ k.Marked (dev, ino)) (value : Value) :
    Serves devs refs fills (code frame value k) := by
  cases frame with
  | iget s ino cross =>
    have hmounted : Mounted devs s := h.valid
    rw [code, if_pos hmounted.1]
    exact h.goOn (fun _ => le_rfl) (fun _ => le_rfl) ⟨hmounted, h.keyed.superDev s⟩
  | igetLoop s dev ino cross => exact h.igetLoop hspare (hmiss s dev ino cross rfl) value
  | igetFound s dev ino cross found => exact h.igetFound hspare value
  | igetMounted m => exact h.waitOnInode h.valid fun _ => h.handOut rfl
  | getEmptyInode purpose => exact h.getEmptyInode hdistinct value
  | getEmptyWait purpose best =>
    refine h.waitOnInode h.valid.2 fun _ => h.goOn (fun _ => le_rfl) (fun key => ?_) h.valid.1
    cases purpose <;> exact le_rfl
  | readInode n => exact h.readInode value
  | readInodeDone n => exact h.readInodeDone value
  | writeInode n =>
    have hn : n < nrInode := h.valid
    rw [code]
    refine withInode_serves hn ?_
    split_ifs
    · exact h.goOn (fun _ => le_rfl) (fun _ => le_rfl) hn
    · exact h.ret _
  | writeInodeLock n => exact h.writeInodeLock value
  | writeInodeDone n =>
    rw [code]
    refine withInode_serves h.valid ?_
    split_ifs
    · exact finishWrite (h.same ⟨fun _ => .refl _, rfl, rfl, rfl⟩)
    · exact h.finishWrite
  | iput n =>
    cases n with
    | none => exact h.ret _
    | some n =>
      have hn : n < nrInode := h.valid
      refine h.waitOnInode hn fun _ => ?_
      rw [if_neg (h.count_pos rfl).ne']
      exact h.iputLoop rfl hn
  | iputWritten n => exact h.waitOnInode h.valid fun _ => h.iputLoop rfl h.valid
  | iputTruncated n => exact h.iputTruncated value
  | newInode dir =>
    cases dir with
    | none => exact h.ret _
    | some dir =>
      rw [code]
      refine withInode_serves h.valid ?_
      cases hsb : (k.inodes dir).sb with
      | none => exact h.ret _
      | some s =>
        obtain ⟨hs, hdev, hzero⟩ := h.keyed.sb dir s hsb
        exact h.goOn (fun _ => le_rfl) (fun _ => le_rfl) ⟨hs, hdev ▸ hzero⟩
  | newInodeFailed => exact h.ret _

end Stretches

end Shitix.Inodes
