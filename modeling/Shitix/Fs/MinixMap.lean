import Shitix.Fs.MinixEdits
import Shitix.Lib.Loop

/-!
# The block map of minix files

`placeOf n k` is where block `k` of file `n` hangs.  `get_block` finds the block there, or
puts a new one there and leaves the data of all files as it was (`Tidy.getBlock`).
`truncate` empties the places behind the end of the file and no others (`Tidy.truncate`);
it leaves no indirect block that it emptied.
-/

namespace Shitix.Minix

open BlockTree Volume List Nat

/-! ## Places of a file -/

/-- Where block `k` of file `n` hangs. -/
def placeOf (n k : ℕ) : (ℕ × ℕ) × List ℕ :=
  if k < directZones then ((n, k), [])
  else if k - directZones < zonesPerBlock then ((n, indZone), [k - directZones])
  else ((n, dindZone), [(k - directZones - zonesPerBlock) / zonesPerBlock,
    (k - directZones - zonesPerBlock) % zonesPerBlock])

variable {n m k : ℕ}

theorem placeOf_direct (hk : k < directZones) : placeOf n k = ((n, k), []) := if_pos hk

theorem placeOf_indirect (hk : ¬ k < directZones) (hk' : k - directZones < zonesPerBlock) :
    placeOf n k = ((n, indZone), [k - directZones]) := by
  rw [placeOf, if_neg hk, if_pos hk']

theorem placeOf_dindirect (hk : ¬ k < directZones) (hk' : ¬ k - directZones < zonesPerBlock) :
    placeOf n k = ((n, dindZone), [(k - directZones - zonesPerBlock) / zonesPerBlock,
      (k - directZones - zonesPerBlock) % zonesPerBlock]) := by
  rw [placeOf, if_neg hk, if_neg hk']

theorem depthOf_direct (hk : k < directZones) : depthOf (n, k) = 0 := by
  have hind : k ≠ indZone := by
    simp only [directZones, indZone] at hk ⊢
    omega
  have hdind : k ≠ dindZone := by
    simp only [directZones, dindZone] at hk ⊢
    omega
  rw [depthOf, if_neg hind, if_neg hdind]

theorem length_placeOf : (placeOf n k).2.length = depthOf (placeOf n k).1 := by
  by_cases hk : k < directZones
  · rw [placeOf_direct hk, depthOf_direct hk, length_nil]
  · by_cases hk' : k - directZones < zonesPerBlock
    · rw [placeOf_indirect hk hk']
      rfl
    · rw [placeOf_dindirect hk hk']
      rfl

theorem placeOf_fst : (placeOf n k).1.1 = n := by
  unfold placeOf
  split_ifs <;> rfl

/-- The number of the block that hangs at a place. -/
def indexOf (slot : ℕ) : List ℕ → ℕ
  | [] => slot
  | [i] => directZones + i
  | i :: j :: _ => directZones + zonesPerBlock + (zonesPerBlock * i + j)

theorem indexOf_placeOf : indexOf (placeOf n k).1.2 (placeOf n k).2 = k := by
  by_cases hk : k < directZones
  · rw [placeOf_direct hk]
    rfl
  · by_cases hk' : k - directZones < zonesPerBlock
    · rw [placeOf_indirect hk hk']
      exact Nat.add_sub_cancel' (not_lt.mp hk)
    · rw [placeOf_dindirect hk hk', indexOf, div_add_mod]
      omega

theorem placeOf_injective {k' : ℕ} (h : placeOf n k = placeOf m k') : n = m ∧ k = k' := by
  constructor
  · rw [← placeOf_fst (n := n), h, placeOf_fst]
  · rw [← indexOf_placeOf (k := k), h, indexOf_placeOf]

section Map

variable (mine : ℕ → Prop) [DecidablePred mine]

/-- Block `k` of file `n`, 0 for a hole. -/
def Volume.blockAt (v : Volume) (n k : ℕ) : ℕ := v.nodeAt mine (placeOf n k).1 (placeOf n k).2

variable {mine} {fixed : ℕ → Prop} {v v' : Volume} {s : ℕ × ℕ} {init path : List ℕ}
  {nr i ind keep slot : ℕ}

theorem blockAt_direct (hn : mine n) (hk : k < directZones) :
    v.blockAt mine n k = (v.inodes n).zones k := by
  have : k < zoneSlots := by
    simp only [directZones] at hk
    simp only [zoneSlots]
    omega
  rw [blockAt, placeOf_direct hk, nodeAt_nil hn this]

/-! ## `get_block` -/

theorem inodeGetblk_read (v : Volume) (n nr : ℕ) :
    v.inodeGetblk n nr false = (v, (v.inodes n).zones nr) := by
  simp only [inodeGetblk]
  by_cases hzero : (v.inodes n).zones nr = 0
  · simp [hzero]
  · rw [if_pos hzero]

theorem blockGetblk_read (v : Volume) (hi : i < zonesPerBlock) :
    v.blockGetblk ind i false = (v, if ind = 0 then 0 else v.entry ind i) := by
  simp only [zonesPerBlock] at hi
  unfold blockGetblk
  by_cases hind : ind = 0
  · rw [if_pos hind, if_pos hind]
  · rw [if_neg hind, if_neg hind, if_neg (by simp only [blockSize]; omega)]
    by_cases hzero : v.entry ind i = 0
    · simp [hzero]
    · simp [hzero]

theorem nodeAt_concat_eq (v : Volume) (s : ℕ × ℕ) (init : List ℕ) (hi : i < zonesPerBlock) :
    v.nodeAt mine s (init ++ [i]) =
      if v.nodeAt mine s init = 0 then 0 else v.entry (v.nodeAt mine s init) i := by
  by_cases hzero : v.nodeAt mine s init = 0
  · rw [if_pos hzero]
    exact node_concat_of_eq hzero
  · rw [if_neg hzero]
    exact nodeAt_concat hzero hi

/-- Below an empty place there is nothing. -/
theorem nodeAt_below (init : List ℕ) (i : ℕ) (h : v.nodeAt mine s init = 0) :
    v.nodeAt mine s (init ++ [i]) = 0 := node_concat_of_eq h

/-- An indirect block has no more entries. -/
theorem nodeAt_concat_of_le (init : List ℕ) (hi : zonesPerBlock ≤ i) :
    v.nodeAt mine s (init ++ [i]) = 0 := by
  by_cases hzero : v.nodeAt mine s init = 0
  · exact node_concat_of_eq hzero
  · rw [nodeAt, node_concat_of_ne hzero]
    exact if_neg (not_lt.mpr hi)

/-- No block hangs behind the largest file. -/
theorem blockAt_of_max (hk : maxFileBlocks ≤ k) : v.blockAt mine n k = 0 := by
  simp only [maxFileBlocks, directZones, zonesPerBlock] at hk
  have hdirect : ¬ k < directZones := by
    simp only [directZones]
    omega
  have hind : ¬ k - directZones < zonesPerBlock := by
    simp only [directZones, zonesPerBlock]
    omega
  rw [blockAt, placeOf_dindirect hdirect hind]
  refine nodeAt_below [_] _ (nodeAt_concat_of_le [] ?_)
  simp only [directZones, zonesPerBlock]
  omega

theorem dindirect_lt (hk : ¬ maxFileBlocks ≤ k) :
    (k - directZones - zonesPerBlock) / zonesPerBlock < zonesPerBlock ∧
      (k - directZones - zonesPerBlock) % zonesPerBlock < zonesPerBlock := by
  simp only [maxFileBlocks, zonesPerBlock] at hk ⊢
  omega

/-- A lookup finds the block at the place and changes nothing. -/
theorem getBlock_read (hn : mine n) : v.getBlock n k false = (v, v.blockAt mine n k) := by
  unfold getBlock
  by_cases hk : maxFileBlocks ≤ k
  · rw [if_pos hk, blockAt_of_max hk]
  rw [if_neg hk]
  by_cases hdirect : k < directZones
  · rw [if_pos hdirect, inodeGetblk_read, blockAt_direct hn hdirect]
  · rw [if_neg hdirect]
    by_cases hind : k - directZones < zonesPerBlock
    · have hroot : v.nodeAt mine (n, indZone) [] = _ := nodeAt_nil hn (by decide)
      rw [if_pos hind, inodeGetblk_read]
      dsimp only
      rw [blockGetblk_read v hind, blockAt, placeOf_indirect hdirect hind, ← hroot]
      exact congrArg _ (nodeAt_concat_eq v _ [] hind).symm
    · have hroot : v.nodeAt mine (n, dindZone) [] = _ := nodeAt_nil hn (by decide)
      obtain ⟨hbound, hrest⟩ := dindirect_lt hk
      have hmid : v.nodeAt mine (n, dindZone) [_] = _ := nodeAt_concat_eq v _ [] hbound
      rw [if_neg hind, inodeGetblk_read]
      dsimp only
      rw [blockGetblk_read v hbound]
      rw [blockGetblk_read v hrest, blockAt, placeOf_dindirect hdirect hind, ← hroot, ← hmid]
      exact congrArg _ (nodeAt_concat_eq v _ [_] hrest).symm

/-- What a lookup that may allocate leaves: a tidy volume with the same data, and the block at the
place, if it returns one. -/
structure Got (mine : ℕ → Prop) [DecidablePred mine] (fixed : ℕ → Prop) (n : ℕ) (v : Volume)
    (s : ℕ × ℕ) (path : List ℕ) (result : Volume × ℕ) : Prop where
  tidy : Tidy mine fixed result.1
  grown : Grown mine n v result.1
  found : result.2 ≠ 0 → result.1.nodeAt mine s path = result.2

theorem Tidy.inodeGetblk (h : Tidy mine fixed v) (hpos : 0 < v.geo.firstZone) (hn : mine n)
    (hnr : nr < zoneSlots) :
    Got mine fixed n v (n, nr) [] (v.inodeGetblk n nr true) := by
  simp only [Volume.inodeGetblk]
  by_cases hold : (v.inodes n).zones nr = 0
  · simp only [hold]
    rcases v.newBlock_cases hpos with heq | ⟨b, zmap, heq, htaken⟩
    · simp only [heq]
      exact ⟨h, .refl, fun hne => absurd rfl hne⟩
    · obtain ⟨htidy, hgrown, hnode⟩ := h.growRoot hn hnr hold htaken
      simp only [heq, if_neg htaken.ne]
      exact ⟨htidy, hgrown, fun _ => hnode⟩
  · rw [if_pos hold]
    exact ⟨h, .refl, fun _ => nodeAt_nil hn hnr⟩

theorem Got.blockGetblk {result : Volume × ℕ} (h : Got mine fixed n v s init result)
    (hpos : 0 < v.geo.firstZone) (hlength : init.length < depthOf s) (hi : i < zonesPerBlock) :
    Got mine fixed n v s (init ++ [i]) (result.1.blockGetblk result.2 i true) := by
  obtain ⟨v', ind⟩ := result
  obtain ⟨htidy, hgrown, hfound⟩ := h
  dsimp only at htidy hgrown hfound ⊢
  have hfits : ¬ blockSize < i * 2 + 2 := by
    simp only [zonesPerBlock] at hi
    simp only [blockSize]
    omega
  unfold Volume.blockGetblk
  by_cases hind : ind = 0
  · rw [if_pos hind]
    exact ⟨htidy, hgrown, fun hne => absurd rfl hne⟩
  · have hnode := hfound hind
    rw [if_neg hind, if_neg hfits]
    by_cases hold : v'.entry ind i = 0
    · simp only [hold]
      rcases v'.newBlock_cases (hgrown.geo.symm ▸ hpos) with heq | ⟨b, zmap, heq, htaken⟩
      · simp only [heq]
        exact ⟨htidy, hgrown, fun hne => absurd rfl hne⟩
      · subst hnode
        obtain ⟨htidy', hgrown', hnode'⟩ := htidy.growEntry hlength hind hi hold htaken
        simp only [heq, if_neg htaken.ne]
        exact ⟨htidy', hgrown.trans hgrown', fun _ => hnode'⟩
    · simp only [ne_eq, hold]
      refine ⟨htidy, hgrown, fun _ => ?_⟩
      subst hnode
      exact nodeAt_concat hind hi

theorem Tidy.getBlock (h : Tidy mine fixed v) (hpos : 0 < v.geo.firstZone) (hn : mine n) :
    Got mine fixed n v (placeOf n k).1 (placeOf n k).2 (v.getBlock n k true) := by
  unfold Volume.getBlock
  by_cases hk : maxFileBlocks ≤ k
  · rw [if_pos hk]
    exact ⟨h, .refl, fun hne => absurd rfl hne⟩
  rw [if_neg hk]
  by_cases hdirect : k < directZones
  · rw [if_pos hdirect, placeOf_direct hdirect]
    refine h.inodeGetblk hpos hn ?_
    simp only [directZones] at hdirect
    simp only [zoneSlots]
    omega
  · rw [if_neg hdirect]
    by_cases hind : k - directZones < zonesPerBlock
    · rw [if_pos hind, placeOf_indirect hdirect hind]
      have hroot : Got mine fixed n v (n, indZone) [] _ := h.inodeGetblk hpos hn (by decide)
      exact hroot.blockGetblk hpos one_pos hind
    · rw [if_neg hind, placeOf_dindirect hdirect hind]
      obtain ⟨hbound, hrest⟩ := dindirect_lt hk
      have hroot : Got mine fixed n v (n, dindZone) [] _ := h.inodeGetblk hpos hn (by decide)
      have hmid := hroot.blockGetblk hpos two_pos hbound
      exact hmid.blockGetblk hpos one_lt_two hrest

/-! ## `truncate` -/

/-- Where `truncate` looks: at the places of a file other than those of its first blocks, and of
the indirect blocks of the second level at those that reach behind the first blocks. -/
def Behind (n keep : ℕ) (s : ℕ × ℕ) (path : List ℕ) : Prop :=
  s.1 = n ∧ (∀ k < keep, placeOf n k ≠ (s, path)) ∧ ∀ i, s.2 = dindZone → path = [i] →
    keep < directZones + zonesPerBlock + zonesPerBlock * (i + 1)

theorem behind_of_index (h : keep ≤ indexOf slot path) (hdata : slot = dindZone → path.length ≠ 1) :
    Behind n keep (n, slot) path := by
  refine ⟨rfl, fun k hk heq => ?_, fun i hslot hpath => absurd (hpath ▸ rfl) (hdata hslot)⟩
  have hindex := indexOf_placeOf (n := n) (k := k)
  rw [heq] at hindex
  dsimp only at hindex
  omega

theorem behind_of_length (h : path.length < depthOf (n, slot)) (hmid : ∀ i, slot = dindZone →
      path = [i] → keep < directZones + zonesPerBlock + zonesPerBlock * (i + 1)) :
    Behind n keep (n, slot) path := by
  refine ⟨rfl, fun k _ heq => ?_, hmid⟩
  have hlength := length_placeOf (n := n) (k := k)
  rw [heq] at hlength
  dsimp only at hlength
  omega

/-- A volume from which some blocks of a file were cut. -/
structure Trimmed (mine : ℕ → Prop) [DecidablePred mine] (fixed : ℕ → Prop) (n : ℕ)
    (cut : ℕ × ℕ → List ℕ → Prop) (v v' : Volume) : Prop where
  tidy : Tidy mine fixed v'
  shrunk : Shrunk mine n cut v v'

section Truncate

variable {cut cut' : ℕ × ℕ → List ℕ → Prop} {v'' : Volume} {first : ℕ}

theorem Trimmed.refl (h : Tidy mine fixed v) : Trimmed mine fixed n cut v v := ⟨h, .refl⟩

theorem Trimmed.trans (h : Trimmed mine fixed n cut v v') (h' : Trimmed mine fixed n cut' v' v'')
    (hcut : ∀ s path, cut' s path → cut s path) : Trimmed mine fixed n cut v v'' :=
  ⟨h'.tidy, h.shrunk.trans (h'.shrunk.mono hcut)⟩

/-- An indirect block without entries is not there. -/
def Swept (mine : ℕ → Prop) [DecidablePred mine] (v : Volume) (s : ℕ × ℕ) (path : List ℕ) : Prop :=
  (∀ i < zonesPerBlock, v.nodeAt mine s (path ++ [i]) = 0) → v.nodeAt mine s path = 0

theorem Shrunk.swept (h : Shrunk mine n cut v v') (hswept : Swept mine v s init)
    (hlength : init.length < depthOf s) (hkept : ∀ i < zonesPerBlock,
      v.nodeAt mine s (init ++ [i]) ≠ 0 → ¬ cut s (init ++ [i])) : Swept mine v' s init := by
  intro hall
  refine h.empty hlength.le (hswept fun i hi => by_contra fun hne => hne ?_)
  rw [← h.kept (by rwa [length_append]) (hkept i hi hne)]
  exact hall i hi

theorem allZero_iff : v.allZero ind = true ↔ ∀ i < zonesPerBlock, v.entry ind i = 0 := by
  simp [allZero]

theorem swept_of_not_allZero (hnode : v.nodeAt mine s init = ind) (hind : ind ≠ 0)
    (hfull : ¬ v.allZero ind = true) : Swept mine v s init := by
  intro hall
  refine absurd (allZero_iff.mpr fun i hi => ?_) hfull
  rw [← hnode] at hind ⊢
  rw [← nodeAt_concat hind hi]
  exact hall i hi

/-- The loop of `trunc_direct`: the zones from `keep` to `k` are empty. -/
structure DirectCut (mine : ℕ → Prop) [DecidablePred mine] (fixed : ℕ → Prop) (n keep : ℕ)
    (v : Volume) (k : ℕ) (v' : Volume) : Prop extends
    Trimmed mine fixed n (Behind n keep) v v' where
  done : ∀ i, keep ≤ i → i < k → v'.nodeAt mine (n, i) [] = 0

theorem DirectCut.round (h : DirectCut mine fixed n keep v k v') (hn : mine n)
    (hk : k < directZones) (hkeep : keep ≤ k) :
    DirectCut mine fixed n keep v (k + 1) (cutZone n v' k) := by
  have hnr : k < zoneSlots := by
    simp only [directZones] at hk
    simp only [zoneSlots]
    omega
  unfold cutZone
  by_cases hzero : (v'.inodes n).zones k = 0
  · rw [if_pos hzero]
    refine ⟨h.toTrimmed, fun i hi hlt => ?_⟩
    rcases Nat.lt_succ_iff_lt_or_eq.mp hlt with hlt | rfl
    · exact h.done i hi hlt
    · rw [nodeAt_nil hn hnr, hzero]
  · rw [if_neg hzero]
    obtain ⟨htidy, hshrunk, hnode⟩ := h.tidy.cutRoot hn hnr rfl hzero
      fun hdepth => absurd hdepth (by rw [depthOf_direct hk]; exact lt_irrefl 0)
    refine ⟨h.toTrimmed.trans ⟨htidy, hshrunk⟩ ?_, fun i hi hlt => ?_⟩
    · rintro s path ⟨rfl, rfl⟩
      exact behind_of_index hkeep fun _ => Nat.zero_ne_one
    · rcases Nat.lt_succ_iff_lt_or_eq.mp hlt with hlt | rfl
      · exact hshrunk.empty (zero_le _) (h.done i hi hlt)
      · exact hnode

/-- The loop of `trunc_indirect`: the entries from `first` to `k` are empty. -/
structure EntriesCut (mine : ℕ → Prop) [DecidablePred mine] (fixed : ℕ → Prop) (n : ℕ)
    (s : ℕ × ℕ) (init : List ℕ) (first : ℕ) (v : Volume) (k : ℕ) (v' : Volume) : Prop extends
    Trimmed mine fixed n (fun s' path => s' = s ∧ ∃ i, first ≤ i ∧ path = init ++ [i]) v v' where
  done : ∀ i, first ≤ i → i < k → v'.nodeAt mine s (init ++ [i]) = 0

theorem EntriesCut.parent (h : EntriesCut mine fixed n s init first v k v')
    (hlength : init.length ≤ depthOf s) : v'.nodeAt mine s init = v.nodeAt mine s init := by
  refine h.shrunk.kept hlength ?_
  rintro ⟨-, i, -, heq⟩
  have := congrArg length heq
  simp at this

theorem EntriesCut.round (h : EntriesCut mine fixed n s init first v k v')
    (hlength : init.length + 1 = depthOf s) (hnode : v.nodeAt mine s init = ind) (hind : ind ≠ 0)
    (hk : k < zonesPerBlock) (hfirst : first ≤ k) :
    EntriesCut mine fixed n s init first v (k + 1) (cutEntry ind v' k) := by
  have hnode' : v'.nodeAt mine s init = ind := (h.parent (by omega)).trans hnode
  have hplace : ∀ i, (init ++ [i]).length ≤ depthOf s := fun i => by
    rw [length_append]
    exact hlength.le
  subst hnode'
  unfold cutEntry
  by_cases hzero : v'.entry (v'.nodeAt mine s init) k = 0
  · rw [if_pos hzero]
    refine ⟨h.toTrimmed, fun i hi hlt => ?_⟩
    rcases Nat.lt_succ_iff_lt_or_eq.mp hlt with hlt | rfl
    · exact h.done i hi hlt
    · rw [nodeAt_concat hind hk, hzero]
  · rw [if_neg hzero]
    obtain ⟨htidy, hshrunk, hcut⟩ := h.tidy.cutEntry (by omega) hind hk rfl hzero
      fun hdepth => absurd hdepth (by omega)
    refine ⟨h.toTrimmed.trans ⟨htidy, hshrunk⟩ ?_, fun i hi hlt => ?_⟩
    · rintro s' path ⟨rfl, rfl⟩
      exact ⟨rfl, k, hfirst, rfl⟩
    · rcases Nat.lt_succ_iff_lt_or_eq.mp hlt with hlt | rfl
      · exact hshrunk.empty (hplace i) (h.done i hi hlt)
      · exact hcut

theorem Tidy.truncIndirect (h : Tidy mine fixed v) (hlength : init.length + 1 = depthOf s)
    (hnode : v.nodeAt mine s init = ind) (hind : ind ≠ 0) :
    EntriesCut mine fixed n s init first v zonesPerBlock (v.truncIndirect first ind) := by
  have hloop : EntriesCut mine fixed n s init first v
      (min first zonesPerBlock + (zonesPerBlock - min first zonesPerBlock))
      (v.truncIndirect first ind) := by
    refine foldl_range' (EntriesCut mine fixed n s init first v) ⟨.refl h, fun i hi hlt => ?_⟩ ?_
    · omega
    · exact fun k v' hfirst hlast hinv => hinv.round hlength hnode hind (by omega) (by omega)
  rwa [Nat.add_sub_cancel' (min_le_right ..)] at hloop

/-- The loop of `trunc_dindirect`: below the entries up to `k`, the blocks from `first` on are
empty. -/
structure MiddleCut (mine : ℕ → Prop) [DecidablePred mine] (fixed : ℕ → Prop) (n first : ℕ)
    (v : Volume) (k : ℕ) (v' : Volume) : Prop extends
    Trimmed mine fixed n (fun s path => s = (n, dindZone) ∧
      ((∃ i, path = [i] ∧ first / zonesPerBlock ≤ i) ∨
        ∃ i j, path = [i, j] ∧ first ≤ zonesPerBlock * i + j)) v v' where
  done : ∀ i j, first ≤ zonesPerBlock * i + j → i < k → j < zonesPerBlock →
    v'.nodeAt mine (n, dindZone) [i, j] = 0
  swept : ∀ i < k, first / zonesPerBlock ≤ i → Swept mine v' (n, dindZone) [i]

theorem MiddleCut.parent (h : MiddleCut mine fixed n first v k v') :
    v'.nodeAt mine (n, dindZone) [] = v.nodeAt mine (n, dindZone) [] := by
  refine h.shrunk.kept (zero_le _) ?_
  rintro ⟨-, ⟨i, heq, -⟩ | ⟨i, j, heq, -⟩⟩
  · exact cons_ne_nil _ _ heq.symm
  · exact cons_ne_nil _ _ heq.symm

theorem MiddleCut.round {dind : ℕ} (h : MiddleCut mine fixed n first v k v')
    (hnode : v.nodeAt mine (n, dindZone) [] = dind) (hdind : dind ≠ 0) (hk : k < zonesPerBlock)
    (hfirst : first / zonesPerBlock ≤ k) :
    MiddleCut mine fixed n first v (k + 1) (cutMiddle first dind v' k) := by
  have hnode' : v'.nodeAt mine (n, dindZone) [] = dind := h.parent.trans hnode
  have hmid : v'.nodeAt mine (n, dindZone) [k] = v'.entry dind k := by
    rw [← hnode'] at hdind ⊢
    exact nodeAt_concat hdind hk
  unfold cutMiddle
  dsimp only
  generalize hfrom : (if k = first / zonesPerBlock then first % zonesPerBlock else 0) = innerFirst
  -- in this block, the blocks from `innerFirst` on are those from `first` on
  have hinner : ∀ j, first ≤ zonesPerBlock * k + j ↔ innerFirst ≤ j := by
    by_cases heq : k = first / zonesPerBlock
    · rw [if_pos heq] at hfrom
      have hdiv := div_add_mod first zonesPerBlock
      rw [← heq] at hdiv
      omega
    · rw [if_neg heq] at hfrom
      simp only [zonesPerBlock] at hfirst heq ⊢
      omega
  by_cases hzero : v'.entry dind k = 0
  · rw [if_pos hzero]
    rw [hzero] at hmid
    refine ⟨h.toTrimmed, fun i j hi hlt hj => ?_, fun i hlt hi => ?_⟩
    · rcases Nat.lt_succ_iff_lt_or_eq.mp hlt with hlt | rfl
      · exact h.done i j hi hlt hj
      · exact nodeAt_below [i] j hmid
    · rcases Nat.lt_succ_iff_lt_or_eq.mp hlt with hlt | rfl
      · exact h.swept i hlt hi
      · exact fun _ => hmid
  · rw [if_neg hzero]
    have hlength : [k].length + 1 = depthOf (n, dindZone) := rfl
    have hcut : EntriesCut mine fixed n (n, dindZone) [k] innerFirst v' zonesPerBlock
        (v'.truncIndirect innerFirst (v'.entry dind k)) := h.tidy.truncIndirect hlength hmid hzero
    generalize v'.truncIndirect innerFirst (v'.entry dind k) = w at hcut
    have hmid' : w.nodeAt mine (n, dindZone) [k] = v'.entry dind k :=
      (hcut.parent (le_of_succ_le hlength.le)).trans hmid
    have htrimmed : Trimmed mine fixed n (fun s path => s = (n, dindZone) ∧
        ((∃ i, path = [i] ∧ first / zonesPerBlock ≤ i) ∨
          ∃ i j, path = [i, j] ∧ first ≤ zonesPerBlock * i + j)) v w := by
      refine h.toTrimmed.trans hcut.toTrimmed ?_
      rintro s path ⟨rfl, j, hj, rfl⟩
      exact ⟨rfl, .inr ⟨k, j, rfl, (hinner j).mpr hj⟩⟩
    have hdone : ∀ i j, first ≤ zonesPerBlock * i + j → i < k + 1 → j < zonesPerBlock →
        w.nodeAt mine (n, dindZone) [i, j] = 0 := by
      intro i j hi hlt hj
      rcases Nat.lt_succ_iff_lt_or_eq.mp hlt with hlt | rfl
      · exact hcut.shrunk.empty le_rfl (h.done i j hi hlt hj)
      · exact hcut.done j ((hinner j).mp hi) hj
    have hswept : ∀ i < k, first / zonesPerBlock ≤ i → Swept mine w (n, dindZone) [i] := by
      refine fun i hlt hi => hcut.shrunk.swept (h.swept i hlt hi) one_lt_two fun j _ _ => ?_
      rintro ⟨-, j', -, heq⟩
      exact hlt.ne (cons.inj heq).1
    by_cases hfree : w.allZero (v'.entry dind k) = true
    · rw [if_pos hfree]
      rw [allZero_iff] at hfree
      have hroot : w.nodeAt mine (n, dindZone) [] = dind := by
        refine (hcut.shrunk.kept (zero_le _) ?_).trans hnode'
        rintro ⟨-, j, -, heq⟩
        exact cons_ne_nil _ _ heq.symm
      subst hroot
      have hentry : w.entry (w.nodeAt mine (n, dindZone) []) k = _ :=
        (nodeAt_concat hdind hk).symm.trans hmid'
      have hshort : ([] : List ℕ).length < depthOf (n, dindZone) := two_pos
      obtain ⟨htidy, hshrunk, hempty⟩ := hcut.tidy.cutEntry hshort hdind hk hentry
        hzero fun _ => hfree
      refine ⟨htrimmed.trans ⟨htidy, hshrunk⟩ ?_, fun i j hi hlt hj => ?_, fun i hlt hi => ?_⟩
      · rintro s path ⟨rfl, rfl⟩
        exact ⟨rfl, .inl ⟨k, rfl, hfirst⟩⟩
      · exact hshrunk.empty le_rfl (hdone i j hi hlt hj)
      · rcases Nat.lt_succ_iff_lt_or_eq.mp hlt with hlt | rfl
        · refine hshrunk.swept (hswept i hlt hi) one_lt_two fun j _ _ => ?_
          rintro ⟨-, heq⟩
          exact cons_ne_nil _ _ (cons.inj heq).2
        · exact fun _ => hempty
    · rw [if_neg hfree]
      refine ⟨htrimmed, hdone, fun i hlt hi => ?_⟩
      rcases Nat.lt_succ_iff_lt_or_eq.mp hlt with hlt | rfl
      · exact hswept i hlt hi
      · exact swept_of_not_allZero hmid' hzero hfree

section

variable (h : Tidy mine fixed v) (hn : mine n)

include h hn

theorem Tidy.truncDirect (keep : ℕ) :
    DirectCut mine fixed n keep v directZones (v.truncDirect n keep) := by
  have hloop : DirectCut mine fixed n keep v
      (min keep directZones + (directZones - min keep directZones)) (v.truncDirect n keep) := by
    refine foldl_range' (DirectCut mine fixed n keep v) ⟨.refl h, fun i hi hlt => ?_⟩ ?_
    · omega
    · exact fun k v' hfirst hlast hinv => hinv.round hn (by omega) (by omega)
  rwa [Nat.add_sub_cancel' (min_le_right ..)] at hloop

/-- The indirect block of a file in `truncate`. -/
theorem Tidy.cutIndirect (keep : ℕ) :
    Trimmed mine fixed n (Behind n keep) v (v.cutIndirect n (keep - directZones)) ∧
      (∀ i, keep ≤ directZones + i → i < zonesPerBlock →
        (v.cutIndirect n (keep - directZones)).nodeAt mine (n, indZone) [i] = 0) ∧
      Swept mine (v.cutIndirect n (keep - directZones)) (n, indZone) [] := by
  have hroot : v.nodeAt mine (n, indZone) [] = _ := nodeAt_nil hn (by decide)
  unfold Volume.cutIndirect
  generalize (v.inodes n).zones indZone = ind at hroot
  by_cases hzero : ind = 0
  · rw [if_pos hzero]
    rw [hzero] at hroot
    exact ⟨.refl h, fun i _ _ => nodeAt_below [] i hroot, fun _ => hroot⟩
  · rw [if_neg hzero]
    have hcut : EntriesCut mine fixed n (n, indZone) [] (keep - directZones) v zonesPerBlock
        (v.truncIndirect (keep - directZones) ind) := h.truncIndirect rfl hroot hzero
    generalize v.truncIndirect (keep - directZones) ind = w at hcut
    have hroot' : w.nodeAt mine (n, indZone) [] = ind := (hcut.parent (zero_le _)).trans hroot
    have htrimmed : Trimmed mine fixed n (Behind n keep) v w := by
      refine (Trimmed.refl h).trans hcut.toTrimmed ?_
      rintro s path ⟨rfl, i, hi, rfl⟩
      refine behind_of_index ?_ fun hslot => absurd hslot (by decide)
      change keep ≤ directZones + i
      omega
    have hdone : ∀ i, keep ≤ directZones + i → i < zonesPerBlock →
        w.nodeAt mine (n, indZone) [i] = 0 := fun i hi hlt => hcut.done i (by omega) hlt
    by_cases hfree : w.allZero ind = true
    · rw [if_pos hfree]
      rw [allZero_iff] at hfree
      have hzone : (w.inodes n).zones indZone = ind := (nodeAt_nil hn (by decide)).symm.trans hroot'
      obtain ⟨htidy, hshrunk, hnode⟩ := hcut.tidy.cutRoot hn (by decide) hzone hzero fun _ => hfree
      refine ⟨htrimmed.trans ⟨htidy, hshrunk⟩ ?_, ?_, fun _ => hnode⟩
      · rintro s path ⟨rfl, rfl⟩
        exact behind_of_length one_pos nofun
      · exact fun i hi hlt => hshrunk.empty le_rfl (hdone i hi hlt)
    · rw [if_neg hfree]
      exact ⟨htrimmed, hdone, swept_of_not_allZero hroot' hzero hfree⟩

theorem Tidy.truncDindirect (keep : ℕ) : Trimmed mine fixed n (Behind n keep) v
        (v.truncDindirect n (keep - (directZones + zonesPerBlock))) ∧
      (∀ i j, keep ≤ directZones + zonesPerBlock + (zonesPerBlock * i + j) → i < zonesPerBlock →
        j < zonesPerBlock → (v.truncDindirect n (keep - (directZones + zonesPerBlock))).nodeAt mine
          (n, dindZone) [i, j] = 0) ∧
      Swept mine (v.truncDindirect n (keep - (directZones + zonesPerBlock))) (n, dindZone) [] ∧
      ∀ i < zonesPerBlock, keep < directZones + zonesPerBlock + zonesPerBlock * (i + 1) →
        Swept mine (v.truncDindirect n (keep - (directZones + zonesPerBlock))) (n, dindZone) [i] := by
  generalize hfirst : keep - (directZones + zonesPerBlock) = first
  have hroot : v.nodeAt mine (n, dindZone) [] = _ := nodeAt_nil hn (by decide)
  unfold Volume.truncDindirect
  generalize (v.inodes n).zones dindZone = dind at hroot
  by_cases hzero : dind = 0
  · rw [if_pos hzero]
    rw [hzero] at hroot
    have hmid : ∀ i, v.nodeAt mine (n, dindZone) [i] = 0 := fun i => nodeAt_below [] i hroot
    exact ⟨.refl h, fun i j _ _ _ => nodeAt_below [i] j (hmid i), fun _ => hroot,
      fun i _ _ _ => hmid i⟩
  · rw [if_neg hzero]
    generalize hw : (upTo (first / zonesPerBlock) zonesPerBlock).foldl
      (cutMiddle first dind) v = w
    have hloop : MiddleCut mine fixed n first v
        (first / zonesPerBlock + (zonesPerBlock - first / zonesPerBlock)) w := by
      rw [← hw]
      refine foldl_range' (MiddleCut mine fixed n first v)
        ⟨.refl h, fun i j hi hlt hj => ?_, fun i hlt hi => by omega⟩
        fun k v' hlow hhigh hinv => hinv.round hroot hzero (by omega) hlow
      simp only [zonesPerBlock] at hi hlt hj
      omega
    have hroot' : w.nodeAt mine (n, dindZone) [] = dind := hloop.parent.trans hroot
    have htrimmed : Trimmed mine fixed n (Behind n keep) v w := by
      refine (Trimmed.refl h).trans hloop.toTrimmed ?_
      rintro s path ⟨rfl, ⟨i, rfl, hi⟩ | ⟨i, j, rfl, hij⟩⟩
      · refine behind_of_length one_lt_two ?_
        rintro _ - ⟨⟩
        simp only [zonesPerBlock] at hi hfirst ⊢
        omega
      · refine behind_of_index ?_ fun _ => Nat.succ_succ_ne_one 0
        change keep ≤ directZones + zonesPerBlock + (zonesPerBlock * i + j)
        omega
    have hdone : ∀ i j, keep ≤ directZones + zonesPerBlock + (zonesPerBlock * i + j) →
        i < zonesPerBlock → j < zonesPerBlock → w.nodeAt mine (n, dindZone) [i, j] = 0 :=
      fun i j hij hi hj => hloop.done i j (by omega) (by omega) hj
    have hswept : ∀ i < zonesPerBlock,
        keep < directZones + zonesPerBlock + zonesPerBlock * (i + 1) →
          Swept mine w (n, dindZone) [i] := by
      refine fun i hi hkeep => hloop.swept i (by omega) ?_
      simp only [zonesPerBlock] at hkeep hfirst ⊢
      omega
    by_cases hfree : w.allZero dind = true
    · rw [if_pos hfree]
      rw [allZero_iff] at hfree
      have hzone : (w.inodes n).zones dindZone = dind :=
        (nodeAt_nil hn (by decide)).symm.trans hroot'
      obtain ⟨htidy, hshrunk, hnode⟩ := hloop.tidy.cutRoot hn (by decide) hzone hzero fun _ => hfree
      refine ⟨htrimmed.trans ⟨htidy, hshrunk⟩ ?_, ?_, fun _ => hnode, fun i hi hkeep => ?_⟩
      · rintro s path ⟨rfl, rfl⟩
        exact behind_of_length two_pos nofun
      · exact fun i j hij hi hj => hshrunk.empty le_rfl (hdone i j hij hi hj)
      · refine hshrunk.swept (hswept i hi hkeep) one_lt_two fun j _ _ => ?_
        rintro ⟨-, heq⟩
        exact cons_ne_nil _ _ heq
    · rw [if_neg hfree]
      exact ⟨htrimmed, hdone, swept_of_not_allZero hroot' hzero hfree, hswept⟩

/-- `truncate`: the volume stays tidy, only places behind the end of the file are emptied, all of its
blocks there are, and no indirect block is left that was emptied. -/
theorem Tidy.truncate (hkeep : ((v.inodes n).size + blockSize - 1) / blockSize = keep) :
    Trimmed mine fixed n (Behind n keep) v (v.truncate n) ∧
      (∀ k, keep ≤ k → (v.truncate n).blockAt mine n k = 0) ∧
      Swept mine (v.truncate n) (n, indZone) [] ∧ Swept mine (v.truncate n) (n, dindZone) [] ∧
      ∀ i < zonesPerBlock, keep < directZones + zonesPerBlock + zonesPerBlock * (i + 1) →
        Swept mine (v.truncate n) (n, dindZone) [i] := by
  unfold Volume.truncate
  rw [hkeep]
  have hdirect := h.truncDirect hn keep
  obtain ⟨htrim₂, hdone₂, hswept₂⟩ := hdirect.tidy.cutIndirect hn keep
  obtain ⟨htrim₃, hdone₃, hswept₃⟩ := htrim₂.tidy.truncDindirect hn keep
  refine ⟨(hdirect.toTrimmed.trans htrim₂ fun _ _ => id).trans htrim₃ fun _ _ => id, ?_, ?_, hswept₃⟩
  · intro k hk
    by_cases hmax : maxFileBlocks ≤ k
    · exact blockAt_of_max hmax
    rw [blockAt]
    by_cases hk₁ : k < directZones
    · rw [placeOf_direct hk₁]
      refine htrim₃.shrunk.empty (zero_le _) (htrim₂.shrunk.empty (zero_le _) ?_)
      exact hdirect.done k hk hk₁
    · by_cases hk₂ : k - directZones < zonesPerBlock
      · rw [placeOf_indirect hk₁ hk₂]
        exact htrim₃.shrunk.empty le_rfl (hdone₂ _ (by omega) hk₂)
      · rw [placeOf_dindirect hk₁ hk₂]
        refine hdone₃ _ _ ?_ ?_ (mod_lt _ (by decide))
        · rw [div_add_mod]
          omega
        · simp only [maxFileBlocks, zonesPerBlock] at hmax ⊢
          omega
  · refine htrim₃.shrunk.swept hswept₂ one_pos fun i hi hne hbehind => ?_
    -- an entry that is left is one of the first blocks
    have hlt : directZones + i < keep := not_le.mp fun hle => hne (hdone₂ i hle hi)
    refine hbehind.2.1 _ hlt ?_
    rw [placeOf_indirect (by omega) (by omega), Nat.add_sub_cancel_left]
    rfl

end

end Truncate

end Map

end Shitix.Minix
