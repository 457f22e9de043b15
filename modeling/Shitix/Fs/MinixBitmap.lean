import Mathlib.Data.Nat.Notation
import Mathlib.Logic.Function.Basic
import Mathlib.Tactic.SplitIfs

/-!
# Bitmaps of the minix file system

`fs/minix/bitmap.rs` keeps the free inodes and the free zones in bitmaps of up to eight
blocks of 8192 bits; a block that could not be read at mount time is missing.  A block is a
function from bit numbers here, since nothing reads it but bit by bit.
-/

namespace Shitix.Minix

open Function

def bitsPerBlock : ℕ := 8192

/-- `MINIX_I_MAP_SLOTS`, `MINIX_Z_MAP_SLOTS` -/
def mapSlots : ℕ := 8

/-- A block of a bitmap. -/
abbrev Bits : Type := ℕ → Bool

/-- A bitmap: `s_imap` or `s_zmap`, without the blocks that are missing. -/
abbrev Bitmap : Type := ℕ → Option Bits

/-- The scan of `find_first_zero` from a bit on. -/
def firstZeroFrom (bits : Bits) : ℕ → ℕ → ℕ
  | 0, j => j
  | fuel + 1, j => if bits j then firstZeroFrom bits fuel (j + 1) else j

/-- `find_first_zero`; `bitsPerBlock` if there is none -/
def findFirstZero (bits : Bits) : ℕ := firstZeroFrom bits bitsPerBlock 0

/-- The search of `new_inode` and `new_block` through the blocks of a bitmap, from a slot on. -/
def findFreeFrom (map : Bitmap) : ℕ → ℕ → Option (ℕ × ℕ)
  | 0, _ => none
  | fuel + 1, i =>
    match map i with
    | some bits =>
      if findFirstZero bits < bitsPerBlock then some (i, findFirstZero bits)
      else findFreeFrom map fuel (i + 1)
    | none => findFreeFrom map fuel (i + 1)

/-- The first free bit: the slot of its block, and its number in the block. -/
def findFree (map : Bitmap) : Option (ℕ × ℕ) := findFreeFrom map mapSlots 0

/-- `set_bit` and `clear_bit` in a block that is there -/
def writeBit (map : Bitmap) (i j : ℕ) (value : Bool) : Bitmap :=
  update map i ((map i).map fun bits => update bits j value)

/-- The bit of a number; `true` if its block is missing, so that no search finds it. -/
def isSet (map : Bitmap) (k : ℕ) : Bool :=
  match map (k / bitsPerBlock) with
  | some bits => bits (k % bitsPerBlock)
  | none => true

theorem firstZeroFrom_spec {bits : Bits} {fuel j : ℕ} (h : firstZeroFrom bits fuel j < j + fuel) :
    bits (firstZeroFrom bits fuel j) = false := by
  induction fuel generalizing j with
  | zero => exact absurd h (Nat.lt_irrefl j)
  | succ fuel ih =>
    rw [firstZeroFrom] at h ⊢
    by_cases hbit : bits j = true
    · rw [if_pos hbit] at h ⊢
      exact ih (by omega)
    · rw [if_neg hbit]
      exact Bool.eq_false_iff.mpr hbit

theorem findFreeFrom_spec {map : Bitmap} {fuel i slot bit : ℕ}
    (h : findFreeFrom map fuel i = some (slot, bit)) :
    slot < i + fuel ∧ bit < bitsPerBlock ∧ ∃ bits, map slot = some bits ∧ bits bit = false := by
  induction fuel generalizing i with
  | zero => cases h
  | succ fuel ih =>
    have hnext : findFreeFrom map fuel (i + 1) = some (slot, bit) →
        slot < i + (fuel + 1) ∧ bit < bitsPerBlock ∧
          ∃ bits, map slot = some bits ∧ bits bit = false := by
      intro hrest
      obtain ⟨hslot, hbit⟩ := ih hrest
      exact ⟨by omega, hbit⟩
    rw [findFreeFrom] at h
    cases hmap : map i with
    | none =>
      rw [hmap] at h
      exact hnext h
    | some bits =>
      rw [hmap] at h
      dsimp only at h
      split_ifs at h with hzero
      · cases h
        exact ⟨by omega, hzero, bits, hmap, firstZeroFrom_spec (by rwa [Nat.zero_add])⟩
      · exact hnext h

/-- The search finds a bit of the map that is not set. -/
theorem findFree_spec {map : Bitmap} {slot bit : ℕ} (h : findFree map = some (slot, bit)) :
    slot < mapSlots ∧ bit < bitsPerBlock ∧ ∃ bits, map slot = some bits ∧ bits bit = false := by
  obtain ⟨hslot, hrest⟩ := findFreeFrom_spec h
  exact ⟨by omega, hrest⟩

/-- The number of a bit leads back to it. -/
theorem number_div_mod (slot : ℕ) {bit : ℕ} (hbit : bit < bitsPerBlock) :
    (bit + slot * bitsPerBlock) / bitsPerBlock = slot ∧
      (bit + slot * bitsPerBlock) % bitsPerBlock = bit := by
  simp only [bitsPerBlock] at hbit ⊢
  omega

section

variable {map : Bitmap} {value : Bool} {k : ℕ}

theorem isSet_findFree {slot bit : ℕ} (h : findFree map = some (slot, bit)) :
    isSet map (bit + slot * bitsPerBlock) = false := by
  obtain ⟨-, hbit, bits, hmap, hzero⟩ := findFree_spec h
  obtain ⟨hdiv, hmod⟩ := number_div_mod slot hbit
  rw [isSet, hdiv, hmod, hmap]
  exact hzero

theorem isSet_writeBit {slot bit : ℕ} (hother : k / bitsPerBlock ≠ slot ∨ k % bitsPerBlock ≠ bit) :
    isSet (writeBit map slot bit value) k = isSet map k := by
  unfold isSet writeBit
  by_cases hslot : k / bitsPerBlock = slot
  · have hbit : k % bitsPerBlock ≠ bit := hother.resolve_left (not_not.mpr hslot)
    rw [hslot, update_self]
    cases map slot with
    | none => rfl
    | some bits => exact update_of_ne hbit ..
  · rw [update_of_ne hslot]

theorem isSet_writeBit_self {slot bit : ℕ} (hslot : k / bitsPerBlock = slot)
    (hbit : k % bitsPerBlock = bit) : isSet (writeBit map slot bit true) k = true := by
  unfold isSet writeBit
  rw [hslot, hbit, update_self]
  cases map slot with
  | none => rfl
  | some bits => exact update_self ..

theorem isSet_writeBit_clear (hmap : map (k / bitsPerBlock) ≠ none) :
    isSet (writeBit map (k / bitsPerBlock) (k % bitsPerBlock) false) k = false := by
  unfold isSet writeBit
  rw [update_self]
  cases hbits : map (k / bitsPerBlock) with
  | none => exact absurd hbits hmap
  | some bits => exact update_self ..

/-- A write keeps the blocks that are missing. -/
theorem writeBit_eq_none {slot bit : ℕ} {i : ℕ} :
    writeBit map slot bit value i = none ↔ map i = none := by
  unfold writeBit
  by_cases hi : i = slot
  · rw [hi, update_self, Option.map_eq_none_iff]
  · rw [update_of_ne hi]

/-- A bit that was clear, set and cleared again. -/
theorem writeBit_giveBack {slot bit : ℕ} {bits : Bits} (hmap : map slot = some bits)
    (hbit : bits bit = false) : writeBit (writeBit map slot bit true) slot bit false = map := by
  unfold writeBit
  rw [update_self, update_idem, hmap, Option.map_some, Option.map_some,
    update_idem, ← hbit, update_eq_self, ← hmap, update_eq_self]

end

end Shitix.Minix
