import Shitix.Fs.MinixContent

/-!
# Failed allocations on minix volumes

`new_block` and `new_inode` of `fs/minix/bitmap.rs` set the first clear bit of their map
before they know that they will succeed.  `new_block` takes the bit back if it is behind the
last zone, but not if `getblk` finds no buffer for the block, and block 0 is no result at all.
`new_inode` never takes it back: if the first clear bit is not the number of an inode, it fails and
the bit stays set.
The volume's own `mkfs` leaves bit `s_ninodes` clear, which `new_inode` does not accept.
-/

namespace Shitix.Minix

open Volume Nat

variable {map : Bitmap} {v : Volume}

/-! ## The first clear bit -/

/-- `k` is the first clear bit of a map. -/
def FirstClear (map : Bitmap) (k : ℕ) : Prop :=
  isSet map k = false ∧ ∀ k' < k, isSet map k' = true

theorem firstZeroFrom_set {bits : Bits} {fuel j k : ℕ} (hj : j ≤ k)
    (hk : k < firstZeroFrom bits fuel j) : bits k = true := by
  induction fuel generalizing j with
  | zero => exact absurd hk (not_lt.mpr hj)
  | succ fuel ih =>
    rw [firstZeroFrom] at hk
    split_ifs at hk with hbit
    · rcases eq_or_lt_of_le hj with rfl | hlt
      · exact hbit
      · exact ih hlt hk
    · exact absurd hk (not_lt.mpr hj)

/-- The search passes over bits that are set. -/
theorem findFreeFrom_first {fuel i : ℕ} (hset : ∀ k < i * bitsPerBlock, isSet map k = true) :
    match findFreeFrom map fuel i with
    | some (slot, bit) => ∀ k < bit + slot * bitsPerBlock, isSet map k = true
    | none => ∀ k < (i + fuel) * bitsPerBlock, isSet map k = true := by
  induction fuel generalizing i with
  | zero => exact hset
  | succ fuel ih =>
    -- the bits of slot `i` up to one that the search of the block reached
    have hnext : ∀ last ≤ bitsPerBlock, (∀ bits, map i = some bits → last ≤ findFirstZero bits) →
        ∀ k < last + i * bitsPerBlock, isSet map k = true := by
      intro last hlast hreach k hk
      by_cases hlow : k < i * bitsPerBlock
      · exact hset k hlow
      obtain ⟨hdiv, hmod⟩ := number_div_mod i (show k - i * bitsPerBlock < bitsPerBlock by omega)
      rw [Nat.sub_add_cancel (not_lt.mp hlow)] at hdiv hmod
      unfold isSet
      rw [hdiv, hmod]
      cases hmap : map i with
      | none => rfl
      | some bits =>
        have hlt : k - i * bitsPerBlock < findFirstZero bits := by
          have := hreach bits hmap
          omega
        exact firstZeroFrom_set (zero_le _) hlt
    have hrest := fun hreach => ih fun k hk =>
      hnext bitsPerBlock le_rfl hreach k (by rwa [add_one_mul, add_comm] at hk)
    rw [add_right_comm] at hrest
    rw [findFreeFrom]
    cases hmap : map i with
    | none => exact hrest fun bits hbits => by rw [hmap] at hbits; cases hbits
    | some bits =>
      dsimp only
      split_ifs with hzero
      · refine hnext _ hzero.le fun bits' hbits' => ?_
        rw [hmap] at hbits'
        cases hbits'
        exact le_rfl
      · refine hrest fun bits' hbits' => ?_
        rw [hmap] at hbits'
        cases hbits'
        exact not_lt.mp hzero

/-- What is true of the first clear bit of the slots is true of the bit that the search finds. -/
theorem forall_firstClear_iff {P : ℕ → Prop} :
    (∀ k < mapSlots * bitsPerBlock, FirstClear map k → P k) ↔
      ∀ slot bit, findFree map = some (slot, bit) → P (bit + slot * bitsPerBlock) := by
  have hfirst := @findFreeFrom_first map mapSlots 0 fun k hk => by omega
  constructor
  · intro hall slot bit hfind
    obtain ⟨hslot, hbit, -⟩ := findFree_spec hfind
    refine hall _ ?_ ⟨isSet_findFree hfind, ?_⟩
    · have := mul_le_mul_right bitsPerBlock hslot
      rw [add_one_mul] at this
      omega
    · rw [findFree] at hfind
      rwa [hfind] at hfirst
  · rintro hfound k hk ⟨hclear, hbelow⟩
    have hset : isSet map k ≠ true := Bool.eq_false_iff.mp hclear
    cases hfind : findFree map with
    | none =>
      rw [findFree] at hfind
      rw [hfind] at hfirst
      exact absurd (hfirst k hk) hset
    | some place =>
      obtain ⟨slot, bit⟩ := place
      have hother := isSet_findFree hfind
      have hplace := hfound slot bit hfind
      rw [findFree] at hfind
      rw [hfind] at hfirst
      rcases lt_trichotomy k (bit + slot * bitsPerBlock) with hlt | rfl | hlt
      · exact absurd (hfirst k hlt) hset
      · exact hplace
      · rw [hbelow _ hlt] at hother
        cases hother

/-! ## The two allocations -/

/-- `new_block`, given whether `getblk` finds a buffer: without one the bit stays set. -/
def Volume.newBlockWith (v : Volume) (getblk : Bool) : Volume × ℕ :=
  if getblk then v.newBlock else ({ v with zmap := v.newBlock.1.zmap }, 0)

/-- `new_inode`: a fresh inode, or none for `NIL`; `get_empty_inode` sleeps until it has a slot. -/
def Volume.newInode (v : Volume) : Volume × Option ℕ :=
  match findFree v.imap with
  | none => (v, none)
  | some (i, j) =>
    let marked := { v with imap := writeBit v.imap i j true }
    let ino := j + i * bitsPerBlock
    if ino = 0 ∨ v.geo.ninodes ≤ ino then (marked, none)
    else
      (marked.modify ino fun inode =>
        { inode with nlink := 1, size := 0, zones := fun _ => 0, count := 1 }, some ino)

/-- One clear bit was set. -/
structure SetOne (map map' : Bitmap) (k : ℕ) : Prop where
  clear : isSet map k = false
  set : isSet map' k = true
  other : ∀ k', k' ≠ k → isSet map' k' = isSet map k'

theorem SetOne.ne {map' : Bitmap} {k : ℕ} (h : SetOne map map' k) : map' ≠ map := by
  rintro rfl
  exact absurd (h.set.symm.trans h.clear) (by decide)

theorem setOne_findFree {slot bit : ℕ} (h : findFree map = some (slot, bit)) :
    SetOne map (writeBit map slot bit true) (bit + slot * bitsPerBlock) := by
  obtain ⟨-, hbit, -⟩ := findFree_spec h
  obtain ⟨hdiv, hmod⟩ := number_div_mod slot hbit
  refine ⟨isSet_findFree h, isSet_writeBit_self hdiv hmod, fun k hk => ?_⟩
  refine isSet_writeBit (not_and_or.mp fun hplace => hk ?_)
  rw [← mod_add_div' k bitsPerBlock, hplace.1, hplace.2]

/-- What the caller of `new_block` relies on: a zone in range whose bit was clear, or no change. -/
def ZoneAllocated (v : Volume) : Volume × ℕ → Prop
  | (v', 0) => v'.imap = v.imap ∧ v'.zmap = v.zmap
  | (v', b) => v'.imap = v.imap ∧ (v.geo.firstZone ≤ b ∧ b < v.geo.nzones) ∧
      SetOne v.zmap v'.zmap (v.zoneBit b)

/-- What the caller of `new_inode` relies on. -/
def InodeAllocated (v : Volume) : Volume × Option ℕ → Prop
  | (v', none) => v'.zmap = v.zmap ∧ v'.imap = v.imap
  | (v', some ino) => v'.zmap = v.zmap ∧ (0 < ino ∧ ino < v.geo.ninodes) ∧
      SetOne v.imap v'.imap ino

/-- **When a failed allocation leaves the maps as they were.**  `new_block` sets one clear bit in
range or none, unless the first clear bit is that of a block in range and `getblk` fails for it, or
it is block 0, which a volume without reserved blocks has.  `new_inode` does, unless the first clear
bit of its map is 0 or no less than the number of inodes. -/
theorem allocation_atomic_iff (v : Volume) (getblk : Bool) :
    (ZoneAllocated v (v.newBlockWith getblk) ↔ ∀ k < mapSlots * bitsPerBlock, FirstClear v.zmap k →
      k = 0 ∨ v.geo.nzones < k + v.geo.firstZone ∨ getblk = true ∧ k + v.geo.firstZone ≠ 1) ∧
    (InodeAllocated v v.newInode ↔ ∀ k < mapSlots * bitsPerBlock, FirstClear v.imap k →
      0 < k ∧ k < v.geo.ninodes) := by
  rw [forall_firstClear_iff, forall_firstClear_iff]
  constructor
  · unfold newBlockWith newBlock
    cases hfind : findFree v.zmap with
    | none =>
      exact iff_of_true (by cases getblk <;> exact ⟨rfl, rfl⟩) fun _ _ hnone => by cases hnone
    | some place =>
      obtain ⟨slot, bit⟩ := place
      have hone := setOne_findFree hfind
      obtain ⟨-, -, bits, hmap, hbit⟩ := findFree_spec hfind
      dsimp only
      by_cases hrange : bit + slot * bitsPerBlock + v.geo.firstZone = 0 ∨
          bit + slot * bitsPerBlock + v.geo.firstZone - 1 < v.geo.firstZone ∨
          v.geo.nzones ≤ bit + slot * bitsPerBlock + v.geo.firstZone - 1
      · rw [if_pos hrange, writeBit_giveBack hmap hbit]
        refine iff_of_true (by cases getblk <;> exact ⟨rfl, rfl⟩) ?_
        rintro _ _ ⟨⟩
        omega
      rw [if_neg hrange]
      by_cases hdone : getblk = true ∧ bit + slot * bitsPerBlock + v.geo.firstZone ≠ 1
      · rw [if_pos hdone.1]
        refine iff_of_true ?_ ?_
        · obtain ⟨b, hb⟩ := exists_eq_add_one_of_ne_zero
            (show bit + slot * bitsPerBlock + v.geo.firstZone - 1 ≠ 0 by omega)
          have hzone : v.zoneBit (b + 1) = bit + slot * bitsPerBlock := by
            unfold zoneBit
            omega
          rw [hb] at hrange ⊢
          exact ⟨rfl, by omega, hzone.symm ▸ hone⟩
        · rintro _ _ ⟨⟩
          exact .inr (.inr hdone)
      · have hlost : ∀ w : Volume, w.zmap = writeBit v.zmap slot bit true →
            ¬ ZoneAllocated v (w, 0) := fun w hw hkept => hone.ne (hw.symm.trans hkept.2)
        refine iff_of_false ?_ fun hall => ?_
        · split_ifs with hgetblk
          · rw [show bit + slot * bitsPerBlock + v.geo.firstZone - 1 = 0 by grind]
            exact hlost _ rfl
          · exact hlost _ rfl
        · rcases hall slot bit rfl with hzero | hlast | hok
          · omega
          · omega
          · exact hdone hok
  · unfold newInode
    cases hfind : findFree v.imap with
    | none => exact iff_of_true ⟨rfl, rfl⟩ fun _ _ hnone => by cases hnone
    | some place =>
      obtain ⟨slot, bit⟩ := place
      have hone := setOne_findFree hfind
      dsimp only
      by_cases hrange : bit + slot * bitsPerBlock = 0 ∨ v.geo.ninodes ≤ bit + slot * bitsPerBlock
      · rw [if_pos hrange]
        refine iff_of_false (fun hkept => hone.ne hkept.2) fun hall => ?_
        have := hall slot bit rfl
        omega
      · rw [if_neg hrange]
        refine iff_of_true ⟨rfl, by omega, hone⟩ ?_
        rintro _ _ ⟨⟩
        omega

/-- A volume as `mkfs` leaves it with inodes 1 to 7 in use: bit 8 is the last inode's. -/
def lastInodeFree : Volume :=
  { emptyVolume with imap := fun slot => if slot = 0 then some fun k => k != 8 else none }

/-- `new_inode` does not give out the last inode, but marks it as used. -/
theorem newInode_leaks : lastInodeFree.newInode.2 = none ∧
    isSet lastInodeFree.imap 8 = false ∧ isSet lastInodeFree.newInode.1.imap 8 = true := by
  decide +kernel

end Shitix.Minix
