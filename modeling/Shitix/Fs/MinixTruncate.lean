import Shitix.Fs.MinixContent

/-!
# What `truncate` frees

A file keeps the blocks up to its size and loses all others.  The zone map tells which zones
`truncate` gave back: the data blocks behind the end, and of the indirect blocks it looks at those
without an entry to keep, also one that was empty before, as a write leaves it that finds no second
zone.  Each of them had one place in the file, and a place is cleared before its zone is given back,
so none is freed twice.
-/

namespace Shitix.Minix

open Volume List

variable {mine : ℕ → Prop} [DecidablePred mine] {fixed : ℕ → Prop} {v v' : Volume}
  {n keep k slot : ℕ} {path : List ℕ}

/-- The zone of bit `k` was in use and is free. -/
def Freed (v v' : Volume) (k : ℕ) : Prop := isSet v.zmap k = true ∧ isSet v'.zmap k = false

/-- The zone of bit `k` is at a place of the file `n`. -/
structure HoldsAt (mine : ℕ → Prop) [DecidablePred mine] (v : Volume) (n k : ℕ)
    (place : ℕ × List ℕ) : Prop where
  length : place.2.length ≤ depthOf (n, place.1)
  ne : v.nodeAt mine (n, place.1) place.2 ≠ 0
  bit : v.zoneBit (v.nodeAt mine (n, place.1) place.2) = k

section

variable {cut : ℕ × ℕ → List ℕ → Prop} (h : Tidy mine fixed v)
  (htrim : Trimmed mine fixed n cut v v')

include h htrim

/-- Cutting blocks off takes no zone. -/
theorem Trimmed.isSet_of_isSet (hset : isSet v'.zmap k = true) : isSet v.zmap k = true := by
  rw [htrim.tidy.marked] at hset
  rw [h.marked]
  refine hset.imp_right ?_
  rintro ⟨s, path, hlength, hne, hbit⟩
  rcases htrim.shrunk.nodes s path hlength with heq | ⟨-, hzero⟩
  · rw [zoneBit, htrim.shrunk.geo, heq] at hbit
    exact ⟨s, path, hlength, heq ▸ hne, hbit⟩
  · exact absurd hzero hne

/-- A zone that left its place is free. -/
theorem HoldsAt.freed (hat : HoldsAt mine v n k (slot, path))
    (hzero : v'.nodeAt mine (n, slot) path = 0) : Freed v v' k := by
  obtain ⟨hlength, hne, rfl⟩ := hat
  refine ⟨(h.marked _).mpr (.inr ⟨_, _, hlength, hne, rfl⟩), ?_⟩
  rw [Bool.eq_false_iff, Ne, htrim.tidy.marked]
  rintro (hfixed | ⟨s, path', hlength', hne', hbit⟩)
  · exact h.loose _ _ hlength hne hfixed
  · rcases htrim.shrunk.nodes s path' hlength' with heq | ⟨-, hzero'⟩
    · rw [zoneBit, htrim.shrunk.geo, heq] at hbit
      rw [heq] at hne'
      have hsame := v.zoneBit_injective (h.range s path' hlength' hne').1
        (h.range _ _ hlength hne).1 hbit
      obtain ⟨rfl, rfl⟩ := h.forest s path' _ _ hlength' hlength hne' hsame
      exact hne' (heq.symm.trans hzero)
    · exact hne' hzero'

/-- A zone that became free left its place, the only one it had. -/
theorem Freed.place (hfreed : Freed v v' k) (hcut : ∀ s path, cut s path → s.1 = n) :
    ∃! place, HoldsAt mine v n k place ∧ v'.nodeAt mine (n, place.1) place.2 = 0 := by
  obtain ⟨hset, hclear⟩ := hfreed
  have hunmarked := (htrim.tidy.marked k).not.mp (Bool.eq_false_iff.mp hclear)
  obtain hfixed | ⟨⟨m, slot⟩, path, hlength, hne, hbit⟩ := (h.marked k).mp hset
  · exact absurd (.inl hfixed) hunmarked
  rcases htrim.shrunk.nodes (m, slot) path hlength with heq | ⟨hgone, hzero⟩
  · refine absurd (.inr ⟨(m, slot), path, hlength, heq.symm ▸ hne, ?_⟩) hunmarked
    rw [zoneBit, htrim.shrunk.geo, heq]
    exact hbit
  obtain rfl : m = n := hcut _ _ hgone
  refine ⟨(slot, path), ⟨⟨hlength, hne, hbit⟩, hzero⟩, ?_⟩
  rintro ⟨slot', path'⟩ ⟨⟨hlength', hne', hbit'⟩, -⟩
  have hsame := v.zoneBit_injective (h.range _ path' hlength' hne').1 (h.range _ path hlength hne).1
    (hbit'.trans hbit.symm)
  obtain ⟨hslot, rfl⟩ := h.forest _ path' _ path hlength' hlength hne' hsame
  exact Prod.ext (congrArg Prod.snd hslot) rfl

end

/-- Nothing that is kept hangs at a place or below it. -/
def Removed (mine : ℕ → Prop) [DecidablePred mine] (v : Volume) (n keep : ℕ)
    (place : ℕ × List ℕ) : Prop :=
  ∀ more, (place.2 ++ more).length ≤ depthOf (n, place.1) →
    v.nodeAt mine (n, place.1) (place.2 ++ more) ≠ 0 → Behind n keep (n, place.1) (place.2 ++ more)

/-- Nothing hangs below an empty place. -/
theorem nodeAt_append (hzero : v.nodeAt mine (n, slot) path = 0) (more : List ℕ) :
    v.nodeAt mine (n, slot) (path ++ more) = 0 := by
  induction more using reverseRecOn with
  | nil => rwa [append_nil]
  | append_singleton more i ih =>
    rw [← append_assoc]
    exact nodeAt_below _ i ih

/-- A data block has a number. -/
theorem exists_placeOf (hlength : path.length = depthOf (n, slot))
    (hne : v.nodeAt mine (n, slot) path ≠ 0) : ∃ k, placeOf n k = ((n, slot), path) := by
  by_cases hslot : slot = indZone
  · subst hslot
    obtain ⟨i, rfl⟩ := length_eq_one_iff.mp hlength
    have hi : i < zonesPerBlock := not_le.mp fun hle => hne (nodeAt_concat_of_le [] hle)
    refine ⟨directZones + i, ?_⟩
    rw [placeOf_indirect (by omega) (by omega), Nat.add_sub_cancel_left]
  by_cases hslot' : slot = dindZone
  · subst hslot'
    obtain ⟨i, j, rfl⟩ := length_eq_two.mp hlength
    have hj : j < zonesPerBlock := not_le.mp fun hle => hne (nodeAt_concat_of_le [i] hle)
    refine ⟨directZones + zonesPerBlock + (zonesPerBlock * i + j), ?_⟩
    refine (placeOf_dindirect (by omega) (by omega)).trans ?_
    rw [Nat.sub_sub, Nat.add_sub_cancel_left, Nat.mul_add_div (by decide), Nat.mul_add_mod,
      Nat.div_eq_of_lt hj, Nat.mod_eq_of_lt hj, add_zero]
  · rw [depthOf, if_neg hslot, if_neg hslot'] at hlength
    obtain rfl := length_eq_zero_iff.mp hlength
    have hroot : slot < zoneSlots := by
      by_contra hlarge
      exact hne (if_neg fun hroot => hlarge hroot.2)
    simp only [indZone, dindZone, zoneSlots] at hslot hslot' hroot
    exact ⟨slot, placeOf_direct (by simp only [directZones]; omega)⟩

section

variable (h : Tidy mine fixed v) (hn : mine n)
  (hkeep : ((v.inodes n).size + blockSize - 1) / blockSize = keep)

include h hn hkeep

/-- An indirect block that `truncate` looks at does not stay without entries. -/
theorem Tidy.swept_truncate (hlength : path.length < depthOf (n, slot))
    (hbehind : Behind n keep (n, slot) path) (hne : v.nodeAt mine (n, slot) path ≠ 0)
    (hlost : ∀ i, (v.truncate n).nodeAt mine (n, slot) (path ++ [i]) = 0) :
    (v.truncate n).nodeAt mine (n, slot) path = 0 := by
  obtain ⟨-, -, hind, hdind, hmid⟩ := h.truncate hn hkeep
  by_cases hslot : slot = indZone
  · subst hslot
    obtain rfl : path = [] := length_eq_zero_iff.mp (Nat.lt_one_iff.mp hlength)
    exact hind fun i _ => hlost i
  by_cases hslot' : slot = dindZone
  · subst hslot'
    match path, hlength with
    | [], _ => exact hdind fun i _ => hlost i
    | [i], _ =>
      have hi : i < zonesPerBlock := not_le.mp fun hle => hne (nodeAt_concat_of_le [] hle)
      exact hmid i hi (hbehind.2.2 i rfl rfl) fun j _ => hlost j
  · rw [depthOf, if_neg hslot, if_neg hslot'] at hlength
    exact absurd hlength (Nat.not_lt_zero _)

/-- What is to be removed is gone, by induction on the levels below. -/
theorem Removed.truncate (hremoved : Removed mine v n keep (slot, path)) {levels : ℕ}
    (hlength : path.length + levels = depthOf (n, slot)) :
    (v.truncate n).nodeAt mine (n, slot) path = 0 := by
  obtain ⟨htrim, hempty, -⟩ := h.truncate hn hkeep
  induction levels generalizing path with
  | zero =>
    by_cases hne : v.nodeAt mine (n, slot) path = 0
    · exact htrim.shrunk.empty hlength.le hne
    obtain ⟨k, hk⟩ := exists_placeOf hlength hne
    have hbehind : Behind n keep (n, slot) path := by
      simpa using hremoved [] (by simpa using hlength.le) (by simpa using hne)
    have hzero := hempty k (not_lt.mp fun hlt => hbehind.2.1 k hlt hk)
    rwa [blockAt, hk] at hzero
  | succ levels ih =>
    by_cases hne : v.nodeAt mine (n, slot) path = 0
    · exact htrim.shrunk.empty (by omega) hne
    have hbehind : Behind n keep (n, slot) path := by
      simpa using hremoved [] (by simp; omega) (by simpa using hne)
    refine h.swept_truncate hn hkeep (by omega) hbehind hne fun i => ih ?_ ?_
    · intro more hmore hchild
      rw [append_assoc] at hmore hchild ⊢
      exact hremoved _ hmore hchild
    · rw [length_append, length_singleton]
      omega

end

/-- A file with block 0 and, through an indirect block, block 7, that is to be cut to one block. -/
def twoLevels : Volume :=
  ((emptyVolume.step (3, .write 0 [1])).step (3, .write 7168 [2])).modify 3 (Inode.resize 1024)

/-- A damaged inode: both blocks of the file, of which one is needed, are zone 20. -/
def sharedZone : Volume :=
  { emptyVolume with
    zmap := fun slot => if slot = 0 then some fun k => k == 0 || k == 11 else none
    inodes := fun _ => ⟨.regular, 1, 1024, fun nr => if nr < 2 then 20 else 0, 1⟩ }

end Shitix.Minix
