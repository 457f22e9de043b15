import Mathlib.Tactic.FinCases
import Shitix.Fs.Names
import Shitix.Lib.ByteMem

/-!
# Inodes on a minix disk

`read_inode` and `write_inode` of `fs/minix/inode_ops.rs`.  An inode is a record of 32 bytes in a
block of the inode table, and the record of a device has the device number in place of the first
zone.  The group has 16 bits in the inode table and 8 in the record, so an inode comes back from
the disk as it was only if its group is below 256 (`inode_comes_back`).
-/

namespace Shitix.MinixInodes

open Inodes (FsType)
open Names (Mode sIfmt sIfreg sIfdir sIfchr sIfblk)
open List Function

/-- `MINIX_INODE_SIZE` -/
def inodeSize : ℕ := 32

/-- `MINIX_INODES_PER_BLOCK` -/
abbrev inodesPerBlock : ℕ := 32

/-- `MINIX_LINK_MAX` -/
def linkMax : ℕ := 250

/-- `MinixInode`, the record on the disk -/
@[ext]
structure MinixInode where
  mode : BitVec 16
  uid : BitVec 16
  size : BitVec 32
  time : BitVec 32
  gid : BitVec 8
  nlinks : BitVec 8
  zone : Fin 9 → BitVec 16

/-- A slot of the inode table. -/
structure Inode where
  ino : ℕ
  /-- `i_sb` is not `NIL` -/
  mounted : Bool
  mode : Mode
  uid : BitVec 16
  gid : BitVec 16
  nlink : BitVec 16
  size : BitVec 32
  mtime : BitVec 32
  atime : BitVec 32
  ctime : BitVec 32
  blksize : ℕ
  inUse : Bool
  dirt : Bool
  rdev : BitVec 16
  data : Fin 15 → BitVec 32
  op : FsType

/-- The super block, and the blocks as `bread` finds them; `none` for one that cannot be read. -/
structure Volume where
  imapBlocks : ℕ
  zmapBlocks : ℕ
  ninodes : ℕ
  blocks : ℕ → Option ByteMem

/-- `is_chr` or `is_blk` -/
def isDevice (mode : Mode) : Prop := mode &&& sIfmt = sIfchr ∨ mode &&& sIfmt = sIfblk

instance (mode : Mode) : Decidable (isDevice mode) := inferInstanceAs (Decidable (_ ∨ _))

/-- `inode_location`: block and index, or `none` if the assertion fails.  With the type of the
index the assertions of `parse_inode` and `store_inode` hold. -/
def Volume.inodeLocation (v : Volume) (ino : ℕ) : Option (ℕ × Fin inodesPerBlock) :=
  let first := 2 + v.imapBlocks + v.zmapBlocks
  let block := first + (ino - 1) / inodesPerBlock
  if first ≤ block ∧ block < first + (v.ninodes + 31) / inodesPerBlock then
    some (block, Fin.ofNat _ (ino - 1))
  else none

/-- A field of `n` bytes of a record. -/
def field (m : ByteMem) (idx : Fin inodesPerBlock) (n k : ℕ) : BitVec (8 * n) :=
  .ofNat _ (leValue (m.bytes (idx * inodeSize + k) n))

def parseInode (m : ByteMem) (idx : Fin inodesPerBlock) : MinixInode where
  mode := field m idx 2 0
  uid := field m idx 2 2
  size := field m idx 4 4
  time := field m idx 4 8
  gid := field m idx 1 12
  nlinks := field m idx 1 13
  zone k := field m idx 2 (14 + k * 2)

/-- The fields of a record, as they follow one another. -/
def MinixInode.fields (raw : MinixInode) : List (List UInt8) :=
  [leBytes 2 raw.mode.toNat, leBytes 2 raw.uid.toNat, leBytes 4 raw.size.toNat,
    leBytes 4 raw.time.toNat, leBytes 1 raw.gid.toNat, leBytes 1 raw.nlinks.toNat] ++
  (finRange 9).map fun k => leBytes 2 (raw.zone k).toNat

def storeInode (m : ByteMem) (idx : Fin inodesPerBlock) (raw : MinixInode) : ByteMem :=
  m.copy (idx * inodeSize) raw.fields.flatten

/-- The record `write_inode` makes of an inode. -/
def Inode.raw (i : Inode) : MinixInode where
  mode := i.mode
  uid := i.uid
  size := i.size
  time := i.mtime
  gid := i.gid.setWidth 8
  nlinks := i.nlink.setWidth 8
  zone k :=
    if isDevice i.mode then if k = 0 then i.rdev else 0
    else (i.data (k.castLE (by decide))).setWidth 16

/-- What `read_inode` makes of a record. -/
def Inode.fill (i : Inode) (raw : MinixInode) : Inode :=
  { i with
    mode := raw.mode
    uid := raw.uid
    gid := raw.gid.setWidth 16
    nlink := raw.nlinks.setWidth 16
    size := raw.size
    mtime := raw.time
    atime := raw.time
    ctime := raw.time
    blksize := 1024
    inUse := true
    rdev := if isDevice raw.mode then raw.zone 0 else i.rdev
    data k :=
      if isDevice raw.mode then 0
      else if h : k < 9 then (raw.zone ⟨k, h⟩).setWidth 32 else 0
    op :=
      if raw.mode &&& sIfmt = sIfreg ∨ raw.mode &&& sIfmt = sIfdir then .minix
      else if raw.mode &&& sIfmt = sIfchr then .chr
      else if raw.mode &&& sIfmt = sIfblk then .blk
      else .none }

namespace Volume

variable (v : Volume) (i : Inode)

/-- The super block has no such inode. -/
def Outside : Prop := ¬ i.mounted ∨ i.ino = 0 ∨ v.ninodes ≤ i.ino

instance : Decidable (v.Outside i) := inferInstanceAs (Decidable (_ ∨ _))

/-- `read_inode`; `none` is a panic -/
def readInode : Option Inode :=
  let empty := { i with op := .none, mode := 0 }
  if v.Outside i then some empty
  else
    (v.inodeLocation i.ino).map fun (block, idx) =>
      match v.blocks block with
      | none => empty
      | some b => empty.fill (parseInode b idx)

/-- `write_inode`; `none` is a panic -/
def writeInode : Option (Volume × Inode) :=
  if ¬ i.mounted then some (v, i)
  else if v.Outside i then some (v, { i with dirt := false })
  else
    (v.inodeLocation i.ino).map fun (block, idx) =>
      match v.blocks block with
      | none => (v, { i with dirt := false })
      | some b =>
        ({ v with blocks := update v.blocks block (some (storeInode b idx i.raw)) },
          { i with dirt := false })

end Volume

/-! ## Records -/

variable {m m' : ByteMem} {idx idx' : Fin inodesPerBlock} {raw : MinixInode} {n k : ℕ}

theorem field_congr (h : ∀ x < inodeSize, m'.byte (idx * inodeSize + x) = m.byte (idx * inodeSize + x))
    (hk : k + n ≤ inodeSize) : field m' idx n k = field m idx n k := by
  unfold field
  rw [ByteMem.bytes_congr]
  intro x hx
  rw [add_assoc]
  exact h _ (by omega)

/-- A field that was stored is read back. -/
theorem field_storeInode {j : ℕ} {x : BitVec (8 * n)}
    (hj : raw.fields[j]? = some (leBytes n x.toNat)) (hk : (raw.fields.take j).flatten.length = k) :
    field (storeInode m idx raw) idx n k = x := by
  have hsplit : raw.fields.flatten =
      (raw.fields.take j).flatten ++ leBytes n x.toNat ++ (raw.fields.drop (j + 1)).flatten := by
    obtain ⟨hlt, hget⟩ := List.getElem?_eq_some_iff.mp hj
    conv_lhs => rw [← take_append_drop j raw.fields, drop_eq_getElem_cons hlt, hget]
    rw [flatten_append, flatten_cons, append_assoc]
  have hback := ByteMem.bytes_copy m (idx * inodeSize) (raw.fields.take j).flatten
    (leBytes n x.toNat) (raw.fields.drop (j + 1)).flatten
  rw [← hsplit, hk, length_leBytes] at hback
  unfold field storeInode
  rw [hback, leValue_leBytes, (Nat.pow_mul 2 8 n).symm,
    Nat.mod_eq_of_lt x.isLt, BitVec.ofNat_toNat, BitVec.setWidth_eq]

theorem parseInode_storeInode : parseInode (storeInode m idx raw) idx = raw := by
  refine MinixInode.ext (field_storeInode (j := 0) rfl rfl) (field_storeInode (j := 1) rfl rfl)
    (field_storeInode (j := 2) rfl rfl) (field_storeInode (j := 3) rfl rfl)
    (field_storeInode (j := 4) rfl rfl) (field_storeInode (j := 5) rfl rfl) (funext fun k => ?_)
  refine field_storeInode (j := 6 + k) ?_ ?_
  · fin_cases k <;> rfl
  · fin_cases k <;> rfl

theorem parseInode_storeInode_of_ne (hne : idx' ≠ idx) :
    parseInode (storeInode m idx raw) idx' = parseInode m idx' := by
  have hother : ∀ x < inodeSize, (storeInode m idx raw).byte (idx' * inodeSize + x) =
      m.byte (idx' * inodeSize + x) := by
    intro x hx
    have hlen : raw.fields.flatten.length = inodeSize := rfl
    refine ByteMem.copy_outside ?_
    rw [hlen]
    unfold inodeSize at hx ⊢
    omega
  have hsame : ∀ {n k}, k + n ≤ inodeSize →
      field (storeInode m idx raw) idx' n k = field m idx' n k := field_congr hother
  refine MinixInode.ext (hsame ?_) (hsame ?_) (hsame ?_) (hsame ?_) (hsame ?_) (hsame ?_)
    (funext fun k => hsame ?_)
  any_goals decide
  unfold inodeSize
  omega

/-! ## Reading back -/

/-- What should come back from the disk. -/
structure Restored (i back : Inode) : Prop where
  mode : back.mode = i.mode
  uid : back.uid = i.uid
  gid : back.gid = i.gid
  nlink : back.nlink = i.nlink
  size : back.size = i.size
  mtime : back.mtime = i.mtime
  rdev : isDevice i.mode → back.rdev = i.rdev
  zones : ¬ isDevice i.mode → ∀ k, k < 9 → back.data k = i.data k

variable {v : Volume} {i : Inode}

/-- A number that fits is not changed by being cut. -/
theorem setWidth_setWidth_eq_iff {w w' : ℕ} {x : BitVec w} (hle : w' ≤ w) :
    (x.setWidth w').setWidth w = x ↔ x.toNat < 2 ^ w' := by
  have hpow : 2 ^ w' ≤ 2 ^ w := Nat.pow_le_pow_right (by decide) hle
  have hlt := Nat.mod_lt x.toNat (Nat.two_pow_pos w')
  rw [← BitVec.toNat_inj, BitVec.toNat_setWidth, BitVec.toNat_setWidth,
    Nat.mod_eq_of_lt (hlt.trans_le hpow)]
  exact ⟨fun h => h ▸ hlt, Nat.mod_eq_of_lt⟩

theorem restored_fill_raw_iff {slot : Inode} (hlinks : i.nlink.toNat ≤ linkMax)
    (hzones : ¬ isDevice i.mode → ∀ k, k < 9 → (i.data k).toNat < 2 ^ 16) :
    Restored i (slot.fill i.raw) ↔ i.gid.toNat < 256 := by
  refine Iff.trans ⟨fun h => h.gid, fun hgid => ?_⟩ (setWidth_setWidth_eq_iff (show 8 ≤ 16 by decide))
  have hnlink : i.nlink.toNat < 2 ^ 8 := hlinks.trans_lt (by decide)
  refine ⟨rfl, rfl, hgid, (setWidth_setWidth_eq_iff (by decide)).mpr hnlink, rfl, rfl,
    fun hdev => ?_, fun hdev k hk => ?_⟩
  · exact (if_pos hdev).trans ((if_pos hdev).trans (if_pos rfl))
  · refine (if_neg hdev).trans ((dif_pos hk).trans ?_)
    rw [show i.raw.zone ⟨k, hk⟩ = (i.data k).setWidth 16 from if_neg hdev]
    exact (setWidth_setWidth_eq_iff (by decide)).mpr (hzones hdev k hk)

section

variable {ino ino' : ℕ} {place : ℕ × Fin inodesPerBlock}

theorem inodeLocation_inj (hpos : 0 < ino) (hpos' : 0 < ino') (h : v.inodeLocation ino = some place)
    (h' : v.inodeLocation ino' = some place) : ino = ino' := by
  simp only [Volume.inodeLocation] at h h'
  split_ifs at h h'
  have hplace := (Option.some.inj h).trans (Option.some.inj h').symm
  have hblock := congrArg Prod.fst hplace
  have hidx := congrArg (fun place => place.2.val) hplace
  simp only [Fin.val_ofNat, inodesPerBlock] at hblock hidx
  omega

end

/-- An inode that is written is the same when it is read again exactly if its group fits, and all
other inodes are read as before. -/
theorem inode_comes_back (hmounted : i.mounted) (hpos : 0 < i.ino) (hlt : i.ino < v.ninodes)
    (hlinks : i.nlink.toNat ≤ linkMax)
    (hzones : ¬ isDevice i.mode → ∀ k, k < 9 → (i.data k).toNat < 2 ^ 16)
    (hblock : ∀ place, v.inodeLocation i.ino = some place → (v.blocks place.1).isSome) :
    ∃ v', v.writeInode i = some (v', { i with dirt := false }) ∧
      (∀ slot : Inode, slot.mounted → slot.ino = i.ino → ∃ back, v'.readInode slot = some back ∧
        (Restored i back ↔ i.gid.toNat < 256)) ∧
      ∀ other : Inode, other.ino ≠ i.ino → v'.readInode other = v.readInode other := by
  have hinside : ∀ slot : Inode, slot.mounted → slot.ino = i.ino → ¬ v.Outside slot := by
    rintro slot hslot hino (hnot | hzero | hge)
    · exact hnot hslot
    · omega
    · omega
  -- the assertion of `inode_location` holds
  obtain ⟨⟨block, idx⟩, hloc⟩ : ∃ place, v.inodeLocation i.ino = some place := by
    refine ⟨_, if_pos ⟨Nat.le_add_right _ _, ?_⟩⟩
    unfold inodesPerBlock
    omega
  obtain ⟨b, hb⟩ : ∃ b, v.blocks block = some b := Option.isSome_iff_exists.mp (hblock _ hloc)
  refine ⟨{ v with blocks := update v.blocks block (some (storeInode b idx i.raw)) },
    ?_, fun slot hslot hino => ?_, fun other hne => ?_⟩
  · unfold Volume.writeInode
    rw [if_neg (not_not.mpr hmounted), if_neg (hinside i hmounted rfl), hloc, Option.map_some]
    dsimp only
    rw [hb]
  · refine ⟨_, (if_neg (hinside slot hslot hino)).trans (congrArg (Option.map _) (hino ▸ hloc)), ?_⟩
    dsimp only
    rw [update_self]
    dsimp only
    rw [parseInode_storeInode]
    exact restored_fill_raw_iff hlinks hzones
  · by_cases hout : v.Outside other
    · exact (if_pos hout).trans (if_pos hout).symm
    refine (if_neg hout).trans (trans ?_ (if_neg hout).symm)
    refine Option.map_congr fun ⟨block', idx'⟩ hplace => ?_
    -- the record of the other inode is in another block, or at another place of this one
    dsimp only
    by_cases hsame : block' = block
    · subst hsame
      have hidx : idx' ≠ idx := by
        rintro rfl
        exact hne (inodeLocation_inj (pos_of_ne_zero fun h => hout (.inr (.inl h))) hpos hplace hloc)
      rw [update_self, hb]
      dsimp only
      rw [parseInode_storeInode_of_ne hidx]
    · rw [update_of_ne hsame]

/-- A file of a group. -/
def fileOf (gid : BitVec 16) : Inode where
  ino := 2
  mounted := true
  mode := sIfreg
  uid := 0
  gid := gid
  nlink := 1
  size := 0
  mtime := 0
  atime := 0
  ctime := 0
  blksize := 0
  inUse := true
  dirt := true
  rdev := 0
  data _ := 0
  op := .minix

/-- A volume of 64 inodes. -/
def emptyVolume : Volume := ⟨1, 1, 64, fun _ => some ⟨fun _ => 0, []⟩⟩

/-- Group 255 comes back. -/
theorem inode_comes_back_255 : ∃ v' i' back, emptyVolume.writeInode (fileOf 255) = some (v', i') ∧
    v'.readInode (fileOf 0) = some back ∧ Restored (fileOf 255) back := by
  obtain ⟨v', hwrite, hback, -⟩ := inode_comes_back (v := emptyVolume) (i := fileOf 255) rfl
    (by decide) (by decide) (by decide) (fun _ _ _ => Nat.two_pow_pos 16) fun _ _ => rfl
  obtain ⟨back, hread, hrestored⟩ := hback (fileOf 0) rfl rfl
  exact ⟨v', _, back, hwrite, hread, hrestored.mpr (by decide)⟩

/-- Group 256 comes back as group 0. -/
theorem group_256_lost : ∃ v' i' back, emptyVolume.writeInode (fileOf 256) = some (v', i') ∧
    v'.readInode (fileOf 0) = some back ∧ ¬ Restored (fileOf 256) back :=
  ⟨_, _, _, rfl, rfl, fun h => absurd h.gid (by decide)⟩

end Shitix.MinixInodes
