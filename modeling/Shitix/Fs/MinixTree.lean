import Shitix.Fs.MinixVolume
import Shitix.Lib.BlockTree

/-!
# The blocks of minix files as trees

The nine zones of an inode are the roots of trees of blocks: seven data blocks, an indirect
block, and a doubly indirect one.  `Tidy` says that no block has two places in the files
under consideration (`mine`), and that the zone map marks their blocks and what else is
`fixed`, and nothing more.

Every change to a file is one of three: a new block at an empty place (`Tidy.grow`), a block
given back that nothing hangs below (`Tidy.cut`), or new bytes in a data block, which leave
all places as they are (`Tidy.congr`).
-/

namespace Shitix.Minix

open BlockTree Function

/-! ## Entries of a block -/

theorem readU16_zero (off : ℕ) : readU16 (fun _ => 0) off = 0 := rfl

theorem readU16_writeU16_of_ne (block : Block) {off other : ℕ} (value : ℕ)
    (hlow : other ≠ off) (hnext : other + 1 ≠ off) (hhigh : other ≠ off + 1) :
    readU16 (writeU16 block off value) other = readU16 block other := by
  have h : other + 1 ≠ off + 1 := by omega
  rw [readU16, readU16, writeU16, update_of_ne hhigh, update_of_ne hlow,
    update_of_ne h, update_of_ne hnext]

/-! ## Places -/

/-- How many levels of indirect blocks hang below a zone of an inode. -/
def depthOf (s : ℕ × ℕ) : ℕ := if s.2 = indZone then 1 else if s.2 = dindZone then 2 else 0

/-- The number of zones of an inode. -/
def zoneSlots : ℕ := 9

namespace Volume

/-- The entries of a block, as pointers. -/
def ptr (v : Volume) (b i : ℕ) : ℕ := if i < zonesPerBlock then v.entry b i else 0

section Places

variable (mine : ℕ → Prop) [DecidablePred mine]

/-- The zones of the inodes under consideration. -/
def roots (v : Volume) (s : ℕ × ℕ) : ℕ :=
  if mine s.1 ∧ s.2 < zoneSlots then (v.inodes s.1).zones s.2 else 0

/-- The block at a place of a file. -/
def nodeAt (v : Volume) (s : ℕ × ℕ) (path : List ℕ) : ℕ := node (v.roots mine) v.ptr s path

end Places

section

variable (v : Volume)

@[simp] theorem store_self (b : ℕ) (content : Block) :
    (v.store b content).blocks b = content := update_self ..

theorem store_of_ne {b c : ℕ} (h : c ≠ b) (content : Block) :
    (v.store b content).blocks c = v.blocks c := update_of_ne h ..

theorem ptr_store_of_ne {b c : ℕ} (h : c ≠ b) (content : Block) (i : ℕ) :
    (v.store b content).ptr c i = v.ptr c i := by
  unfold ptr entry
  rw [store_of_ne v h]

theorem ptr_setEntry_self {b i z : ℕ} (hi : i < zonesPerBlock) (hz : z < 0x10000) :
    (v.setEntry b i z).ptr b i = z := by
  rw [ptr, if_pos hi, entry, setEntry, store_self]
  rw [readU16, writeU16, update_self, update_of_ne (Nat.succ_ne_self _).symm, update_self,
    UInt8.toNat_ofNat', UInt8.toNat_ofNat']
  omega

theorem ptr_setEntry_of_ne {b c i j z : ℕ} (h : c = b → j ≠ i) :
    (v.setEntry b i z).ptr c j = v.ptr c j := by
  by_cases hc : c = b
  · subst hc
    unfold ptr entry setEntry
    rw [store_self, readU16_writeU16_of_ne _ _ (by omega) (by omega) (by omega)]
  · exact ptr_store_of_ne v hc _ j

/-! ## Allocating and freeing -/

theorem zoneBit_injective {b c : ℕ} (hb : v.geo.firstZone ≤ b) (hc : v.geo.firstZone ≤ c)
    (h : v.zoneBit b = v.zoneBit c) : b = c := by
  unfold zoneBit at h
  omega

/-- The zone map before and after `b` is taken. -/
structure Taken (v : Volume) (zmap : Bitmap) (b : ℕ) : Prop where
  ne : b ≠ 0
  first : v.geo.firstZone ≤ b
  last : b < v.geo.nzones
  clear : isSet v.zmap (v.zoneBit b) = false
  set : isSet zmap (v.zoneBit b) = true
  other : ∀ k, k ≠ v.zoneBit b → isSet zmap k = isSet v.zmap k
  missing : ∀ i, zmap i = none ↔ v.zmap i = none

/-- The volume after a new block was taken, filled with zeros. -/
def take (v : Volume) (zmap : Bitmap) (b : ℕ) : Volume := { v with zmap := zmap }.store b fun _ => 0

/-- What `new_block` returns: nothing, or a block whose bit was clear. -/
theorem newBlock_cases (hpos : 0 < v.geo.firstZone) : v.newBlock = (v, 0) ∨
    ∃ b zmap, v.newBlock = (v.take zmap b, b) ∧ Taken v zmap b := by
  unfold newBlock
  cases hfind : findFree v.zmap with
  | none => exact .inl rfl
  | some place =>
    obtain ⟨i, j⟩ := place
    obtain ⟨-, hj, bits, hmap, hbit⟩ := findFree_spec hfind
    obtain ⟨hdiv, hmod⟩ := number_div_mod i hj
    dsimp only
    split_ifs with hrange
    · left
      rw [writeBit_giveBack hmap hbit]
    · right
      obtain ⟨-, hfirst, hlast⟩ := not_or.mp hrange |>.imp_right not_or.mp
      have hzone : v.zoneBit (j + i * bitsPerBlock + v.geo.firstZone - 1) = j + i * bitsPerBlock := by
        unfold zoneBit
        omega
      refine ⟨_, writeBit v.zmap i j true, rfl, ?_, not_lt.mp hfirst, not_le.mp hlast, ?_, ?_, ?_,
        fun _ => writeBit_eq_none⟩
      · omega
      · rw [hzone]
        exact isSet_findFree hfind
      · rw [hzone]
        exact isSet_writeBit_self hdiv hmod
      · intro k hk
        refine isSet_writeBit (not_and_or.mp fun hplace => hk ?_)
        rw [hzone, ← Nat.div_add_mod k bitsPerBlock, hplace.1, hplace.2]
        exact (mul_comm bitsPerBlock i ▸ add_comm _ _)

/-- The zone map before and after `b` is given back. -/
structure Released (v : Volume) (zmap : Bitmap) (b : ℕ) : Prop where
  clear : v.zmap (v.zoneBit b / bitsPerBlock) ≠ none → isSet zmap (v.zoneBit b) = false
  other : ∀ k, k ≠ v.zoneBit b → isSet zmap k = isSet v.zmap k
  missing : ∀ i, zmap i = none ↔ v.zmap i = none

/-- What `free_block` does to a block of the volume. -/
theorem freeBlock_eq {b : ℕ} (hfirst : v.geo.firstZone ≤ b) (hlast : b < v.geo.nzones) :
    ∃ zmap, v.freeBlock b = { v with zmap := zmap } ∧ Released v zmap b := by
  have hslot : ¬ mapSlots ≤ v.zoneBit b / bitsPerBlock := by
    have := v.geo.nzones_lt
    simp only [mapSlots, bitsPerBlock, zoneBit]
    omega
  unfold freeBlock
  rw [if_neg (not_or.mpr ⟨not_lt.mpr hfirst, not_le.mpr hlast⟩)]
  rw [if_neg hslot]
  refine ⟨_, rfl, isSet_writeBit_clear, fun k hk => ?_, fun _ => writeBit_eq_none⟩
  refine isSet_writeBit (not_and_or.mp fun hplace => hk ?_)
  rw [← Nat.div_add_mod k bitsPerBlock, hplace.1, hplace.2]
  exact Nat.div_add_mod ..

end

end Volume

/-! ## Tidy volumes -/

section Tidy

variable (mine : ℕ → Prop) [DecidablePred mine] (fixed : ℕ → Prop)

/-- The files under consideration share no block, and the zone map marks their blocks, what is
`fixed`, and nothing else. -/
structure Tidy (v : Volume) : Prop where
  forest : Forest depthOf (v.roots mine) v.ptr
  range : ∀ s path, path.length ≤ depthOf s → v.nodeAt mine s path ≠ 0 →
    v.geo.firstZone ≤ v.nodeAt mine s path ∧ v.nodeAt mine s path < v.geo.nzones
  marked : ∀ k, isSet v.zmap k = true ↔ fixed k ∨ ∃ s path, path.length ≤ depthOf s ∧
    v.nodeAt mine s path ≠ 0 ∧ v.zoneBit (v.nodeAt mine s path) = k
  loose : ∀ s path, path.length ≤ depthOf s → v.nodeAt mine s path ≠ 0 →
    ¬ fixed (v.zoneBit (v.nodeAt mine s path))
  missing : ∀ k, v.zmap (k / bitsPerBlock) = none → fixed k

variable {mine fixed} {v v' : Volume} {s : ℕ × ℕ} {path : List ℕ} {b : ℕ}

section

variable (h : Tidy mine fixed v)

include h

/-- A block whose bit is clear has no place. -/
theorem Tidy.ne_node (hclear : isSet v.zmap (v.zoneBit b) = false) {s' : ℕ × ℕ} {path' : List ℕ}
    (hlength : path'.length ≤ depthOf s') (hb : b ≠ 0) : v.nodeAt mine s' path' ≠ b := by
  intro heq
  have hset := (h.marked (v.zoneBit b)).mpr (.inr ⟨s', path', hlength, heq ▸ hb, heq ▸ rfl⟩)
  rw [hclear] at hset
  exact Bool.false_ne_true hset

/-- A volume with the same places and the same map. -/
theorem Tidy.congr
    (hnode : ∀ s path, path.length ≤ depthOf s → v'.nodeAt mine s path = v.nodeAt mine s path)
    (hgeo : v'.geo = v.geo) (hzmap : v'.zmap = v.zmap) : Tidy mine fixed v' := by
  have hbit : ∀ c, v'.zoneBit c = v.zoneBit c := fun c => by rw [Volume.zoneBit, hgeo]; rfl
  refine ⟨?_, ?_, ?_, ?_, ?_⟩
  · intro s path s' path' hp hp' hne heq
    have hnode' := hnode s path hp
    have hnode'' := hnode s' path' hp'
    unfold Volume.nodeAt at hnode' hnode''
    rw [hnode'] at hne heq
    rw [hnode''] at heq
    exact h.forest s path s' path' hp hp' hne heq
  · intro s path hp hne
    rw [hnode s path hp] at hne ⊢
    rw [hgeo]
    exact h.range s path hp hne
  · intro k
    rw [hzmap, h.marked k]
    refine or_congr_right (exists_congr fun s => exists_congr fun path => ?_)
    refine and_congr_right fun hp => ?_
    rw [hnode s path hp, hbit]
  · intro s path hp hne
    rw [hnode s path hp] at hne ⊢
    rw [hbit]
    exact h.loose s path hp hne
  · intro k hk
    rw [hzmap] at hk
    exact h.missing k hk

variable (hlength : path.length ≤ depthOf s)

include hlength

section

variable (hedit : CellEdit depthOf (v.roots mine) v.ptr (v'.roots mine) v'.ptr s path b)

include hedit

/-- The block at one place is replaced, and the zone map follows. -/
theorem Tidy.edit (hgeo : v'.geo = v.geo) (hclear : b ≠ 0 → isSet v.zmap (v.zoneBit b) = false)
    (hrange : b ≠ 0 → v.geo.firstZone ≤ b ∧ b < v.geo.nzones)
    (hmarks : ∀ k, isSet v'.zmap k = true ↔
      b ≠ 0 ∧ k = v.zoneBit b ∨ isSet v.zmap k = true ∧
        (v.nodeAt mine s path ≠ 0 → k ≠ v.zoneBit (v.nodeAt mine s path)))
    (hmissing : ∀ i, v'.zmap i = none ↔ v.zmap i = none) : Tidy mine fixed v' := by
  have hhere : v'.nodeAt mine s path = b := (hedit.node_eq hlength).trans (if_pos rfl)
  have hthere : ∀ {s' path'}, path'.length ≤ depthOf s' → (s', path') ≠ (s, path) →
      v'.nodeAt mine s' path' = v.nodeAt mine s' path' := fun hlength' hplace =>
    (hedit.node_eq hlength').trans (if_neg hplace)
  have hbit : ∀ c, v'.zoneBit c = v.zoneBit c := fun c => by rw [Volume.zoneBit, hgeo]; rfl
  refine ⟨h.forest.edit hedit fun hb s' path' hlength' => h.ne_node (hclear hb) hlength' hb, ?_, ?_,
    ?_, fun k hk => h.missing k ((hmissing _).mp hk)⟩
  · intro s' path' hlength' hne
    rw [hgeo]
    by_cases hplace : (s', path') = (s, path)
    · obtain ⟨rfl, rfl⟩ := Prod.mk.inj hplace
      rw [hhere] at hne ⊢
      exact hrange hne
    · rw [hthere hlength' hplace] at hne ⊢
      exact h.range s' path' hlength' hne
  · intro k
    rw [hmarks]
    constructor
    · rintro (⟨hb, rfl⟩ | ⟨hset, hother⟩)
      · exact .inr ⟨s, path, hlength, hhere.symm ▸ hb, by rw [hhere, hbit]⟩
      · refine ((h.marked k).mp hset).imp_right ?_
        rintro ⟨s', path', hlength', hne, rfl⟩
        have hplace : (s', path') ≠ (s, path) := by
          rintro heq
          obtain ⟨rfl, rfl⟩ := Prod.mk.inj heq
          exact hother hne rfl
        exact ⟨s', path', hlength', by rwa [hthere hlength' hplace],
          by rw [hthere hlength' hplace, hbit]⟩
    · rintro (hfixed | ⟨s', path', hlength', hne, rfl⟩)
      · refine .inr ⟨(h.marked k).mpr (.inl hfixed), fun hne heq => ?_⟩
        exact h.loose s path hlength hne (heq ▸ hfixed)
      · rw [hbit]
        by_cases hplace : (s', path') = (s, path)
        · obtain ⟨rfl, rfl⟩ := Prod.mk.inj hplace
          rw [hhere] at hne ⊢
          exact .inl ⟨hne, rfl⟩
        · rw [hthere hlength' hplace] at hne ⊢
          refine .inr ⟨(h.marked _).mpr (.inr ⟨s', path', hlength', hne, rfl⟩), fun hold heq => ?_⟩
          -- two places with one bit would share the block
          have hsame := v.zoneBit_injective (h.range s' path' hlength' hne).1
            (h.range s path hlength hold).1 heq
          obtain ⟨rfl, rfl⟩ := h.forest s' path' s path hlength' hlength hne hsame
          exact hplace rfl
  · intro s' path' hlength' hne
    rw [hbit]
    by_cases hplace : (s', path') = (s, path)
    · obtain ⟨rfl, rfl⟩ := Prod.mk.inj hplace
      rw [hhere] at hne ⊢
      intro hfixed
      rw [(h.marked _).mpr (.inl hfixed)] at hclear
      cases hclear hne
    · rw [hthere hlength' hplace] at hne ⊢
      exact h.loose s' path' hlength' hne

/-- A new block at an empty place. -/
theorem Tidy.grow (hold : v.nodeAt mine s path = 0) (hgeo : v'.geo = v.geo)
    (htaken : v.Taken v'.zmap b) : Tidy mine fixed v' := by
  obtain ⟨hb, hfirst, hlast, hclear, hset, hother, hmissing⟩ := htaken
  refine h.edit hlength hedit hgeo (fun _ => hclear) (fun _ => ⟨hfirst, hlast⟩) (fun k => ?_) hmissing
  by_cases hk : k = v.zoneBit b
  · exact iff_of_true (hk ▸ hset) (.inl ⟨hb, hk⟩)
  · simp [hother k hk, hk, hold]

end

/-- A block that nothing hangs below is given back. -/
theorem Tidy.cut
    (hedit : CellEdit depthOf (v.roots mine) v.ptr (v'.roots mine) v'.ptr s path 0)
    (hold : v.nodeAt mine s path = b) (hb : b ≠ 0) (hgeo : v'.geo = v.geo)
    (hreleased : v.Released v'.zmap b) : Tidy mine fixed v' := by
  subst hold
  obtain ⟨hclear, hother, hmissing⟩ := hreleased
  refine h.edit hlength hedit hgeo (fun hne => absurd rfl hne) (fun hne => absurd rfl hne)
    (fun k => ?_) hmissing
  by_cases hk : k = v.zoneBit (v.nodeAt mine s path)
  · have hfree := hclear fun hnone => h.loose s path hlength hb (h.missing _ hnone)
    simp [hk, hfree, hb]
  · simp [hother k hk, hk]

end

end Tidy

end Shitix.Minix
