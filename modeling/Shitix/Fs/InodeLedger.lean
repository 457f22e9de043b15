import Shitix.Fs.InodeTable

/-!
# References and keys of the inode table

Two ledgers say what the table owes to the frames of suspended calls.  `Counted`: a slot
counts at least the references that tasks, mounts and frames own, and a slot that
somebody owns is in use.  `Keyed`: a key is carried by one slot, or is being filled in by
one frame, but not both, and the inode map of its device marks it.  A stretch of code
either leaves both ledgers alone (`Table.Same`), or edits one slot of the first
(`Counted.modify`), or makes one of four moves in the second: it gives up what a slot
carries (`Keyed.shrink`), starts to fill in a key (`Keyed.begin`), finishes it
(`Keyed.insert`), or frees a number on disk (`Keyed.free`).
-/

namespace Shitix.Inodes

open Minix Function Table

/-- The slot a frame owns a reference to. -/
def Frame.owned : Frame → Option ℕ
  | .igetFound _ _ _ _ n | .igetMounted n | .readInode n | .readInodeDone n | .iputWritten n
  | .iputTruncated n => some n
  | .iput n => n
  | _ => none

/-- The key a frame is filling in: it has missed the key in the table and needs a slot. -/
def Frame.filling : Frame → Option (ℕ × ℕ)
  | .getEmptyInode (.iget _ dev ino) | .getEmptyWait (.iget _ dev ino) _ => some (dev, ino)
  | _ => none

/-- One reference to a slot. -/
def one (n m : ℕ) : ℕ := if n = m then 1 else 0

/-- The references of a frame to a slot. -/
def Frame.refs (n : ℕ) (frame : Frame) : ℕ := if frame.owned = some n then 1 else 0

/-- Whether a frame is filling in a key, as a number. -/
def Frame.fills (key : ℕ × ℕ) (frame : Frame) : ℕ := if frame.filling = some key then 1 else 0

/-- A slot in use carries its key. -/
def Carries (k : Table) (n : ℕ) (key : ℕ × ℕ) : Prop :=
  (k.inodes n).inUse = true ∧ ((k.inodes n).dev, (k.inodes n).ino) = key

/-- The inode map of the device marks the number as allocated. -/
def Table.Marked (k : Table) (key : ℕ × ℕ) : Prop :=
  ∀ s < nrSuper, (k.supers s).dev = key.1 → isSet (k.supers s).imap key.2 = true

/-- The table counts the references to its slots. -/
structure Counted (k : Table) (refs : ℕ → ℕ) : Prop where
  le : ∀ n, k.held n + k.pinned n + refs n ≤ (k.inodes n).count
  used : ∀ n, 0 < k.held n + k.pinned n + refs n → (k.inodes n).inUse = true
  mount : ∀ n m, (k.inodes n).mount = some m → 0 < k.pinned m

/-- Every key has one place. -/
structure Keyed (devs : ℕ → ℕ) (k : Table) (fills : ℕ × ℕ → ℕ) : Prop where
  superDev : ∀ s, (k.supers s).dev = devs s
  range : ∀ n, (k.inodes n).inUse = true → n < nrInode
  sb : ∀ n s, (k.inodes n).sb = some s →
    s < nrSuper ∧ devs s = (k.inodes n).dev ∧ (k.inodes n).dev ≠ 0
  fillDev : ∀ key, fills key ≠ 0 → key.1 ≠ 0
  once : ∀ key, fills key ≤ 1
  absent : ∀ key n, fills key ≠ 0 → ¬ Carries k n key
  unique : ∀ key m n, key.1 ≠ 0 → Carries k m key → Carries k n key → m = n
  fillMarked : ∀ key, fills key ≠ 0 → k.Marked key
  carryMarked : ∀ key n, key.1 ≠ 0 → Carries k n key → k.Marked key

/-! ## Stretches that leave the ledgers alone -/

/-- Two slots the ledgers cannot tell apart. -/
structure Inode.Same (i j : Inode) : Prop where
  dev : j.dev = i.dev
  ino : j.ino = i.ino
  count : j.count = i.count
  inUse : j.inUse = i.inUse
  sb : j.sb = i.sb
  mount : j.mount = i.mount

/-- Two tables the ledgers cannot tell apart. -/
structure Table.Same (k k' : Table) : Prop where
  inodes : ∀ n, (k.inodes n).Same (k'.inodes n)
  supers : k'.supers = k.supers
  held : k'.held = k.held
  pinned : k'.pinned = k.pinned

theorem Inode.Same.refl (i : Inode) : i.Same i := ⟨rfl, rfl, rfl, rfl, rfl, rfl⟩

@[simp] theorem Table.modify_self (k : Table) (n : ℕ) (f : Inode → Inode) :
    (k.modify n f).inodes n = f (k.inodes n) := update_self ..

theorem Table.modify_of_ne (k : Table) {n m : ℕ} (h : m ≠ n) (f : Inode → Inode) :
    (k.modify n f).inodes m = k.inodes m := update_of_ne h ..

@[simp] theorem Table.writeImap_inodes (k : Table) (s i j : ℕ) (value : Bool) :
    (k.writeImap s i j value).inodes = k.inodes := rfl

/-- A property of all slots after one of them was written. -/
theorem Table.forall_modify {k : Table} {n : ℕ} {f : Inode → Inode} {P : ℕ → Inode → Prop}
    (hself : P n (f (k.inodes n))) (hother : ∀ m, m ≠ n → P m (k.inodes m)) (m : ℕ) :
    P m ((k.modify n f).inodes m) := by
  by_cases hm : m = n
  · subst hm
    rw [modify_self]
    exact hself
  · rw [modify_of_ne k hm]
    exact hother m hm

theorem Table.Same.modify {k : Table} {n : ℕ} {f : Inode → Inode}
    (h : (k.inodes n).Same (f (k.inodes n))) : k.Same (k.modify n f) where
  inodes m := forall_modify (P := fun m i => (k.inodes m).Same i) h (fun _ _ => .refl _) m
  supers := rfl
  held := rfl
  pinned := rfl

theorem Table.Same.carries {k k' : Table} (h : k.Same k') {n : ℕ} {key : ℕ × ℕ} :
    Carries k' n key ↔ Carries k n key := by
  unfold Carries
  rw [(h.inodes n).inUse, (h.inodes n).dev, (h.inodes n).ino]

section Ledgers

variable {k k' : Table} {refs refs' : ℕ → ℕ} {fills fills' : ℕ × ℕ → ℕ} {devs : ℕ → ℕ} {s i j : ℕ}
  {value : Bool}

/-- The references do not depend on the inode maps. -/
theorem Counted.writeImap (h : Counted k refs) :
    Counted (k.writeImap s i j value) refs := ⟨h.le, h.used, h.mount⟩

theorem Counted.same (h : Counted k refs) (hsame : k.Same k') : Counted k' refs where
  le n := by
    rw [hsame.held, hsame.pinned, (hsame.inodes n).count]
    exact h.le n
  used n hn := by
    rw [hsame.held, hsame.pinned] at hn
    rw [(hsame.inodes n).inUse]
    exact h.used n hn
  mount n m hm := by
    rw [(hsame.inodes n).mount] at hm
    rw [hsame.pinned]
    exact h.mount n m hm

theorem Table.Same.marked (h : k.Same k') {key : ℕ × ℕ} (hmarked : k.Marked key) :
    k'.Marked key := by
  unfold Table.Marked
  rw [h.supers]
  exact hmarked

theorem Keyed.same (h : Keyed devs k fills) (hsame : k.Same k') : Keyed devs k' fills where
  superDev s := by
    rw [hsame.supers]
    exact h.superDev s
  range n hn := h.range n ((hsame.inodes n).inUse ▸ hn)
  sb n s hs := by
    rw [(hsame.inodes n).sb] at hs
    rw [(hsame.inodes n).dev]
    exact h.sb n s hs
  fillDev := h.fillDev
  once := h.once
  absent key n hkey hn := h.absent key n hkey (hsame.carries.mp hn)
  unique key m n hkey hm hn := h.unique key m n hkey (hsame.carries.mp hm) (hsame.carries.mp hn)
  fillMarked key hkey := hsame.marked (h.fillMarked key hkey)
  carryMarked key n hkey hn := hsame.marked (h.carryMarked key n hkey (hsame.carries.mp hn))

/-- The keys do not depend on who holds references. -/
theorem Keyed.ofEq (h : Keyed devs k fills) (hinodes : k'.inodes = k.inodes)
    (hsupers : k'.supers = k.supers) : Keyed devs k' fills := by
  obtain ⟨inodes, supers, disk, held, pinned⟩ := k'
  obtain rfl : inodes = k.inodes := hinodes
  obtain rfl : supers = k.supers := hsupers
  exact ⟨h.superDev, h.range, h.sb, h.fillDev, h.once, h.absent, h.unique, h.fillMarked,
    h.carryMarked⟩

/-! ## References -/

theorem one_self (n : ℕ) : one n n = 1 := if_pos rfl

theorem one_of_ne {n m : ℕ} (h : m ≠ n) : one n m = 0 := if_neg h.symm

section

variable (h : Counted k refs)

include h

/-- References change hands, and none comes from nowhere. -/
theorem Counted.rebalance {held pinned : ℕ → ℕ}
    (hsum : ∀ n, held n + pinned n + refs' n ≤ k.held n + k.pinned n + refs n)
    (hpinned : ∀ n, k.pinned n ≤ pinned n) :
    Counted { k with held := held, pinned := pinned } refs' where
  le n := (hsum n).trans (h.le n)
  used n hn := h.used n (lt_of_lt_of_le hn (hsum n))
  mount n m hm := lt_of_lt_of_le (h.mount n m hm) (hpinned m)

theorem Counted.mono (hle : ∀ n, refs' n ≤ refs n) : Counted k refs' :=
  h.rebalance (fun n => Nat.add_le_add_left (hle n) _) fun _ => le_rfl

/-- One slot is written, and the references to it change accordingly. -/
theorem Counted.modify {n : ℕ} {f : Inode → Inode} (hother : ∀ m, m ≠ n → refs' m = refs m)
    (hle : k.held n + k.pinned n + refs' n ≤ (f (k.inodes n)).count)
    (hused : 0 < k.held n + k.pinned n + refs' n → (f (k.inodes n)).inUse = true)
    (hmount : ∀ m, (f (k.inodes n)).mount = some m → 0 < k.pinned m) :
    Counted (k.modify n f) refs' where
  le := by
    refine forall_modify (P := fun m i => k.held m + k.pinned m + refs' m ≤ i.count) hle ?_
    intro m hm
    rw [hother m hm]
    exact h.le m
  used := by
    refine forall_modify
      (P := fun m i => 0 < k.held m + k.pinned m + refs' m → i.inUse = true) hused ?_
    intro m hm
    rw [hother m hm]
    exact h.used m
  mount := forall_modify (P := fun _ i => ∀ m, i.mount = some m → 0 < k.pinned m) hmount
    fun m _ => h.mount m

/-- A task hands its reference to a frame. -/
theorem Counted.handIn {n : ℕ} (hheld : 0 < k.held n) :
    Counted { k with held := update k.held n (k.held n - 1) }
      fun m => refs m + one n m := by
  refine h.rebalance (fun m => ?_) fun _ => le_rfl
  rcases eq_or_ne m n with rfl | hm
  · rw [update_self, one_self]
    omega
  · rw [update_of_ne hm, one_of_ne hm]
    omega

/-- A task hands its reference to a mount. -/
theorem Counted.pin {n m : ℕ} (hheld : 0 < k.held m) : Counted (k.pin n m) refs := by
  have hpinned : Counted { k with
      held := update k.held m (k.held m - 1), pinned := update k.pinned m (k.pinned m + 1) }
      refs := by
    refine h.rebalance (fun i => ?_) fun i => ?_
    all_goals
      rcases eq_or_ne i m with rfl | hi
      · simp only [update_self]
        omega
      · simp [update_of_ne hi]
  refine hpinned.modify (f := ({ · with mount := some m })) (fun _ _ => rfl) (hpinned.le n)
    (hpinned.used n) fun root hroot => ?_
  obtain rfl : m = root := Option.some.inj hroot
  simp only [update_self]
  omega

/-- `i_count += 1` on a slot in use, far from overflow. -/
theorem Counted.bump {n : ℕ} (hused : (k.inodes n).inUse = true)
    (hspare : (k.inodes n).count < 0xffff) : Counted (k.bump n) fun m => refs m + one n m := by
  have hle := h.le n
  refine h.modify (fun m hm => by rw [one_of_ne hm, add_zero]) ?_ (fun _ => hused) (h.mount n)
  rw [one_self]
  simp only [inc16_of_lt (Nat.succ_lt_succ hspare)]
  omega

theorem Counted.take {n : ℕ} (hfree : (k.inodes n).count = 0) {f : Inode → Inode}
    (hcount : (f (k.inodes n)).count = 1) (hused : (f (k.inodes n)).inUse = true)
    (hmount : (f (k.inodes n)).mount = none) :
    Counted (k.modify n f) fun m => refs m + one n m := by
  have hle := h.le n
  refine h.modify (fun m hm => by rw [one_of_ne hm, add_zero]) ?_ (fun _ => hused)
    fun m hm => by rw [hmount] at hm; cases hm
  rw [one_self]
  omega

end

/-- A frame hands its reference to the task. -/
theorem Counted.handOut {n : ℕ} (h : Counted k fun m => refs m + one n m) :
    Counted { k with held := update k.held n (k.held n + 1) } refs := by
  refine h.rebalance (fun m => ?_) fun _ => le_rfl
  rcases eq_or_ne m n with rfl | hm
  · rw [update_self, one_self]
    omega
  · rw [update_of_ne hm]
    omega

/-- A frame gives its reference up and the count falls by one. -/
theorem Counted.drop {n : ℕ} (h : Counted k fun m => refs m + one n m)
    {f : Inode → Inode} (hcount : (f (k.inodes n)).count = (k.inodes n).count - 1)
    (hused : 1 < (k.inodes n).count → (f (k.inodes n)).inUse = (k.inodes n).inUse)
    (hmount : ∀ m, (f (k.inodes n)).mount = some m → 0 < k.pinned m) :
    Counted (k.modify n f) refs := by
  have hle := h.le n
  simp only [one_self] at hle
  refine h.modify (fun m hm => by rw [one_of_ne hm, add_zero]) (by omega) ?_ hmount
  intro hpos
  rw [hused (by omega)]
  exact h.used n (by omega)

/-! ## Keys -/

section

variable (h : Keyed devs k fills)

include h

/-- Slots give up what they carry; nothing else changes. -/
theorem Keyed.shrink {n : ℕ} {f : Inode → Inode}
    (hcarry : (f (k.inodes n)).inUse = true → (f (k.inodes n)).dev ≠ 0 →
      (k.inodes n).inUse = true ∧ (f (k.inodes n)).dev = (k.inodes n).dev ∧
        (f (k.inodes n)).ino = (k.inodes n).ino)
    (hrange : (f (k.inodes n)).inUse = true → n < nrInode)
    (hsb : (f (k.inodes n)).sb = none ∨
      (f (k.inodes n)).sb = (k.inodes n).sb ∧ (f (k.inodes n)).dev = (k.inodes n).dev) :
    Keyed devs (k.modify n f) fills := by
  have hback : ∀ key m, key.1 ≠ 0 → Carries (k.modify n f) m key → Carries k m key := by
    intro key m hkey
    refine forall_modify
      (P := fun m i => (i.inUse = true ∧ (i.dev, i.ino) = key) → Carries k m key) ?_
      (fun _ _ h => h) m
    rintro ⟨hused, rfl⟩
    obtain ⟨hbefore, hdev, hino⟩ := hcarry hused hkey
    exact ⟨hbefore, by rw [hdev, hino]⟩
  refine ⟨h.superDev, ?_, ?_, h.fillDev, h.once, ?_, ?_, h.fillMarked, ?_⟩
  · exact forall_modify (P := fun m i => i.inUse = true → m < nrInode) hrange
      fun m _ => h.range m
  · refine forall_modify
      (P := fun _ i => ∀ s, i.sb = some s → s < nrSuper ∧ devs s = i.dev ∧ i.dev ≠ 0) ?_
      fun m _ => h.sb m
    intro s hs
    rcases hsb with hnone | ⟨hsame, hdev⟩
    · rw [hnone] at hs
      cases hs
    · rw [hdev]
      exact h.sb n s (hsame ▸ hs)
  · exact fun key m hkey hm => h.absent key m hkey (hback key m (h.fillDev key hkey) hm)
  · exact fun key m m' hkey hm hm' => h.unique key m m' hkey (hback key m hkey hm)
      (hback key m' hkey hm')
  · exact fun key m hkey hm => h.carryMarked key m hkey (hback key m hkey hm)

/-- A frame starts to fill in a marked key that has no place yet. -/
theorem Keyed.begin (key : ℕ × ℕ) (hzero : key.1 ≠ 0)
    (habsent : ∀ n, ¬ Carries k n key) (hmarked : k.Marked key)
    (hkey : fills' key = 1) (hother : ∀ other, other ≠ key → fills' other = fills other) :
    Keyed devs k fills' := by
  refine ⟨h.superDev, h.range, h.sb, ?_, ?_, ?_, h.unique, ?_, h.carryMarked⟩
  · intro other hfill
    by_cases hsame : other = key
    · rw [hsame]
      exact hzero
    · exact h.fillDev other (hother other hsame ▸ hfill)
  · intro other
    by_cases hsame : other = key
    · rw [hsame, hkey]
    · rw [hother other hsame]
      exact h.once other
  · intro other n hfill
    by_cases hsame : other = key
    · rw [hsame]
      exact habsent n
    · exact h.absent other n (hother other hsame ▸ hfill)
  · intro other hfill
    by_cases hsame : other = key
    · rw [hsame]
      exact hmarked
    · exact h.fillMarked other (hother other hsame ▸ hfill)

/-- A slot gets a marked key that has no place. -/
theorem Keyed.insert (key : ℕ × ℕ) (hnone : fills key = 0) (habsent : ∀ n, ¬ Carries k n key)
    (hmarked : k.Marked key) {n : ℕ} {f : Inode → Inode} (hn : n < nrInode) (hs : s < nrSuper)
    (hdev : devs s = key.1) (hzero : key.1 ≠ 0)
    (hf : (f (k.inodes n)).dev = key.1 ∧ (f (k.inodes n)).ino = key.2 ∧
      (f (k.inodes n)).sb = some s) : Keyed devs (k.modify n f) fills := by
  have hback : ∀ other m, Carries (k.modify n f) m other → m = n ∧ other = key ∨
      Carries k m other := by
    intro other m
    refine forall_modify (P := fun m i => (i.inUse = true ∧ (i.dev, i.ino) = other) →
      m = n ∧ other = key ∨ Carries k m other) ?_ (fun _ _ h => .inr h) m
    rintro ⟨-, hkey⟩
    rw [hf.1, hf.2.1] at hkey
    exact .inl ⟨rfl, hkey.symm⟩
  refine ⟨h.superDev, ?_, ?_, h.fillDev, h.once, ?_, ?_, h.fillMarked, ?_⟩
  · exact forall_modify (P := fun m i => i.inUse = true → m < nrInode) (fun _ => hn)
      fun m _ => h.range m
  · refine forall_modify
      (P := fun _ i => ∀ s, i.sb = some s → s < nrSuper ∧ devs s = i.dev ∧ i.dev ≠ 0) ?_
      fun m _ => h.sb m
    intro s' hs'
    rw [hf.2.2] at hs'
    cases hs'
    rw [hf.1]
    exact ⟨hs, hdev, hzero⟩
  · intro other m hfill hm
    rcases hback other m hm with ⟨-, rfl⟩ | hold
    · exact hfill hnone
    · exact h.absent other m hfill hold
  · intro other m m' hother hm hm'
    rcases hback other m hm with ⟨rfl, rfl⟩ | hold
    · rcases hback other m' hm' with ⟨rfl, -⟩ | hold'
      · rfl
      · exact absurd hold' (habsent m')
    · rcases hback other m' hm' with ⟨rfl, rfl⟩ | hold'
      · exact absurd hold (habsent m)
      · exact h.unique other m m' hother hold hold'
  · intro other m hother hm
    rcases hback other m hm with ⟨-, rfl⟩ | hold
    · exact hmarked
    · exact h.carryMarked other m hother hold

theorem Keyed.mono (hle : ∀ key, fills' key ≤ fills key) : Keyed devs k fills' := by
  have hpos : ∀ key, fills' key ≠ 0 → fills key ≠ 0 := by
    intro key hkey hzero
    have := hle key
    omega
  exact ⟨h.superDev, h.range, h.sb, fun key hkey => h.fillDev key (hpos key hkey),
    fun key => le_trans (hle key) (h.once key), fun key n hkey => h.absent key n (hpos key hkey),
    h.unique, fun key hkey => h.fillMarked key (hpos key hkey), h.carryMarked⟩

end

theorem writeImap_dev (k : Table) (s i j : ℕ) (value : Bool) (s' : ℕ) :
    ((k.writeImap s i j value).supers s').dev = (k.supers s').dev := by
  simp only [writeImap]
  by_cases hs : s' = s
  · rw [hs, update_self]
  · rw [update_of_ne hs]

/-- A write to the inode map that leaves the mark of every key with a place. -/
theorem Keyed.writeImap (h : Keyed devs k fills)
    (hmarked : ∀ key, (fills key ≠ 0 ∨ key.1 ≠ 0 ∧ ∃ n, Carries k n key) → k.Marked key →
      (k.writeImap s i j value).Marked key) : Keyed devs (k.writeImap s i j value) fills := by
  refine ⟨fun s' => ?_, h.range, h.sb, h.fillDev, h.once, h.absent, h.unique, ?_, ?_⟩
  · rw [writeImap_dev]
    exact h.superDev s'
  · exact fun key hkey => hmarked key (.inl hkey) (h.fillMarked key hkey)
  · exact fun key n hkey hn => hmarked key (.inr ⟨hkey, n, hn⟩) (h.carryMarked key n hkey hn)

/-- The mark of a key after a write to the inode map of some device. -/
theorem Table.Marked.writeImap {key : ℕ × ℕ} (h : k.Marked key)
    (hmark : (k.supers s).dev = key.1 → value = true ∨ key.2 / bitsPerBlock ≠ i ∨
      key.2 % bitsPerBlock ≠ j) : (k.writeImap s i j value).Marked key := by
  intro s' hs' hdev
  rw [writeImap_dev] at hdev
  simp only [Table.writeImap]
  by_cases hs : s' = s
  · subst hs
    rw [update_self]
    have hbefore := h s' hs' hdev
    by_cases hplace : key.2 / bitsPerBlock = i ∧ key.2 % bitsPerBlock = j
    · obtain hvalue | hnot | hnot := hmark hdev
      · subst hvalue
        exact isSet_writeBit_self hplace.1 hplace.2
      · exact absurd hplace.1 hnot
      · exact absurd hplace.2 hnot
    · rw [isSet_writeBit (not_and_or.mp hplace)]
      exact hbefore
  · rw [update_of_ne hs]
    exact h s' hs' hdev

end Ledgers

end Shitix.Inodes
