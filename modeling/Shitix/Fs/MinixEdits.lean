import Shitix.Fs.MinixTree

/-!
# Growing and shrinking minix files

The five edits that all of `get_block`, `write` and `truncate` consist of: a new block in
a zone of an inode or in an entry of an indirect block, a block given back from either, and
new bytes in a data block.  Each keeps a volume tidy.

What a sequence of such edits does to the files is said by two relations.  In `Grown` no
block leaves its place and the data stays the same, where a hole counts as zeros.  In
`Shrunk` a place is left as it was or, if it is one of those that may be cut, emptied.
-/

namespace Shitix.Minix

open BlockTree Function List Volume Prod

/-! ## Zones and fresh blocks -/

namespace Volume

variable {mine : ℕ → Prop} [DecidablePred mine] {v : Volume} {n nr z b c : ℕ} {zmap : Bitmap}

theorem setZone_zones_of_ne {m k : ℕ} (h : (m, k) ≠ (n, nr)) :
    ((v.setZone n nr z).inodes m).zones k = (v.inodes m).zones k := by
  by_cases hm : m = n
  · subst hm
    have hk : k ≠ nr := fun hk => h (by rw [hk])
    simp [setZone, modify, update_of_ne hk]
  · simp [setZone, modify, update_of_ne hm]

theorem roots_setZone_self (hn : mine n) (hnr : nr < zoneSlots) :
    (v.setZone n nr z).roots mine (n, nr) = z := by
  rw [roots, if_pos ⟨hn, hnr⟩]
  simp [setZone, modify]

theorem roots_setZone_of_ne {s : ℕ × ℕ} (h : s ≠ (n, nr)) :
    (v.setZone n nr z).roots mine s = v.roots mine s := by
  unfold roots
  rw [setZone_zones_of_ne h]

theorem ptr_take_self (i : ℕ) : (v.take zmap b).ptr b i = 0 := by
  unfold ptr entry
  rw [take, store_self, readU16_zero, ite_self]

theorem ptr_take_of_ne (h : c ≠ b) (i : ℕ) : (v.take zmap b).ptr c i = v.ptr c i :=
  ptr_store_of_ne _ h _ i

theorem blocks_take_of_ne (h : c ≠ b) : (v.take zmap b).blocks c = v.blocks c :=
  store_of_ne _ h _

theorem blocks_setEntry_of_ne {i : ℕ} (h : c ≠ b) : (v.setEntry b i z).blocks c = v.blocks c :=
  store_of_ne _ h _

end Volume

/-! ## What an edit leaves alone -/

/-- Only the zones of inode `n`, the zone map and blocks have changed. -/
structure ZonesOnly (n : ℕ) (v v' : Volume) : Prop where
  geo : v'.geo = v.geo
  imap : v'.imap = v.imap
  others : ∀ m, m ≠ n → v'.inodes m = v.inodes m
  zones : ∃ zones, v'.inodes n = { v.inodes n with zones := zones }

namespace ZonesOnly

variable {n nr z : ℕ} {v v' v'' : Volume}

theorem refl : ZonesOnly n v v := ⟨rfl, rfl, fun _ _ => rfl, _, rfl⟩

theorem trans (h : ZonesOnly n v v') (h' : ZonesOnly n v' v'') : ZonesOnly n v v'' := by
  obtain ⟨zones, hzones⟩ := h.zones
  obtain ⟨zones', hzones'⟩ := h'.zones
  refine ⟨h'.geo.trans h.geo, h'.imap.trans h.imap, ?_, zones', ?_⟩
  · exact fun m hm => (h'.others m hm).trans (h.others m hm)
  · rw [hzones', hzones]

theorem setZone (hgeo : v'.geo = v.geo) (himap : v'.imap = v.imap)
    (hinodes : v'.inodes = (v.setZone n nr z).inodes) : ZonesOnly n v v' := by
  refine ⟨hgeo, himap, fun m hm => ?_, update (v.inodes n).zones nr z, ?_⟩
  · rw [hinodes]
    exact update_of_ne hm ..
  · rw [hinodes]
    exact update_self ..

theorem of_inodes (hgeo : v'.geo = v.geo) (himap : v'.imap = v.imap)
    (hinodes : v'.inodes = v.inodes) : ZonesOnly n v v' :=
  ⟨hgeo, himap, fun _ _ => by rw [hinodes], _, by rw [hinodes]⟩

theorem size (h : ZonesOnly n v v') (m : ℕ) : (v'.inodes m).size = (v.inodes m).size := by
  by_cases hm : m = n
  · subst hm
    obtain ⟨zones, hzones⟩ := h.zones
    rw [hzones]
  · rw [h.others m hm]

end ZonesOnly

section Relations

variable (mine : ℕ → Prop) [DecidablePred mine]

/-- The data at a place; a hole counts as zeros. -/
def Volume.contentAt (v : Volume) (s : ℕ × ℕ) (path : List ℕ) : Block :=
  if v.nodeAt mine s path = 0 then fun _ => 0 else v.blocks (v.nodeAt mine s path)

/-- Blocks were added to the file `n`: no block has left its place, and the data of all files is
the same. -/
structure Grown (n : ℕ) (v v' : Volume) : Prop extends ZonesOnly n v v' where
  nodes : ∀ s path, path.length ≤ depthOf s → v.nodeAt mine s path ≠ 0 →
    v'.nodeAt mine s path = v.nodeAt mine s path
  data : ∀ s path, path.length = depthOf s → v'.contentAt mine s path = v.contentAt mine s path

/-- Blocks of the file `n` were given back: a place is as it was, or it is one of those that may be
`cut` and is empty. -/
structure Shrunk (n : ℕ) (cut : ℕ × ℕ → List ℕ → Prop) (v v' : Volume) : Prop
    extends ZonesOnly n v v' where
  nodes : ∀ s path, path.length ≤ depthOf s → v'.nodeAt mine s path = v.nodeAt mine s path ∨
    cut s path ∧ v'.nodeAt mine s path = 0
  data : ∀ s path, path.length = depthOf s → v'.nodeAt mine s path ≠ 0 →
    v'.blocks (v'.nodeAt mine s path) = v.blocks (v'.nodeAt mine s path)

variable {mine} {n : ℕ} {v v' v'' : Volume} {cut cut' : ℕ × ℕ → List ℕ → Prop}

theorem Grown.refl : Grown mine n v v := ⟨.refl, fun _ _ _ _ => rfl, fun _ _ _ => rfl⟩

theorem Grown.trans (h : Grown mine n v v') (h' : Grown mine n v' v'') : Grown mine n v v'' := by
  refine ⟨h.toZonesOnly.trans h'.toZonesOnly, ?_, ?_⟩
  · intro s path hlength hne
    have hnode := h.nodes s path hlength hne
    rw [h'.nodes s path hlength (hnode.trans_ne hne), hnode]
  · intro s path hlength
    rw [h'.data s path hlength, h.data s path hlength]

theorem Shrunk.refl : Shrunk mine n cut v v :=
  ⟨.refl, fun _ _ _ => .inl rfl, fun _ _ _ _ => rfl⟩

section

variable (h : Shrunk mine n cut v v')

include h

theorem Shrunk.trans (h' : Shrunk mine n cut v' v'') : Shrunk mine n cut v v'' := by
  refine ⟨h.toZonesOnly.trans h'.toZonesOnly, ?_, ?_⟩
  · intro s path hlength
    rcases h'.nodes s path hlength with heq | hcut
    · rw [heq]
      exact h.nodes s path hlength
    · exact .inr hcut
  · intro s path hlength hne
    rcases h'.nodes s path hlength.le with heq | hcut
    · rw [h'.data s path hlength hne]
      rw [heq] at hne ⊢
      exact h.data s path hlength hne
    · exact absurd hcut.2 hne

theorem Shrunk.mono (hcut : ∀ s path, cut s path → cut' s path) : Shrunk mine n cut' v v' :=
  ⟨h.toZonesOnly, fun s path hlength => (h.nodes s path hlength).imp id (.imp (hcut s path) id),
    h.data⟩

section

variable {s : ℕ × ℕ} {path : List ℕ}

theorem Shrunk.empty (hlength : path.length ≤ depthOf s) (hzero : v.nodeAt mine s path = 0) :
    v'.nodeAt mine s path = 0 := by
  rcases h.nodes s path hlength with heq | hcut
  · rw [heq, hzero]
  · exact hcut.2

/-- A place that may not be cut stays. -/
theorem Shrunk.kept (hlength : path.length ≤ depthOf s) (hkept : ¬ cut s path) :
    v'.nodeAt mine s path = v.nodeAt mine s path := by
  rcases h.nodes s path hlength with heq | hcut
  · exact heq
  · exact absurd hcut.1 hkept

theorem Shrunk.contentAt (hlength : path.length = depthOf s) (hkept : ¬ cut s path) :
    v'.contentAt mine s path = v.contentAt mine s path := by
  have hnode := h.kept hlength.le hkept
  unfold Volume.contentAt
  by_cases hzero : v'.nodeAt mine s path = 0
  · rw [if_pos hzero, if_pos (hnode.symm.trans hzero)]
  · rw [if_neg hzero, if_neg (hnode.symm.trans_ne hzero), h.data s path hlength hzero, hnode]

end

end

end Relations

/-! ## The edits -/

section Edits

variable {mine : ℕ → Prop} [DecidablePred mine] {fixed : ℕ → Prop} {v v' : Volume}
  {n nr i b z : ℕ} {s : ℕ × ℕ} {path init : List ℕ} {zmap : Bitmap}

theorem nodeAt_nil (hn : mine n) (hnr : nr < zoneSlots) :
    v.nodeAt mine (n, nr) [] = (v.inodes n).zones nr := by
  rw [nodeAt, node_nil, roots, if_pos ⟨hn, hnr⟩]

theorem nodeAt_concat (hne : v.nodeAt mine s init ≠ 0) (hi : i < zonesPerBlock) :
    v.nodeAt mine s (init ++ [i]) = v.entry (v.nodeAt mine s init) i := by
  rw [nodeAt, node_concat_of_ne hne, ptr, if_pos hi]
  rfl

/-- Two places of different length hold different blocks. -/
theorem Tidy.ne_of_length (h : Tidy mine fixed v) {s' : ℕ × ℕ} {path' : List ℕ}
    (hlength : path.length ≤ depthOf s) (hlength' : path'.length ≤ depthOf s')
    (hne : v.nodeAt mine s path ≠ 0) (hplace : (s, path) ≠ (s', path')) :
    v.nodeAt mine s path ≠ v.nodeAt mine s' path' := by
  intro heq
  obtain ⟨rfl, rfl⟩ := h.forest s path s' path' hlength hlength' hne heq
  exact hplace rfl

/-- What growing at one place does to the files. -/
theorem Grown.of_edit (hlength : path.length ≤ depthOf s)
    (hedit : CellEdit depthOf (v.roots mine) v.ptr (v'.roots mine) v'.ptr s path b)
    (hzones : ZonesOnly n v v') (hold : v.nodeAt mine s path = 0) (hb : b ≠ 0)
    (hzero : path.length = depthOf s → v'.blocks b = fun _ => 0)
    (hkept : ∀ s' path', path'.length = depthOf s' → v.nodeAt mine s' path' ≠ 0 →
      v'.blocks (v.nodeAt mine s' path') = v.blocks (v.nodeAt mine s' path')) :
    Grown mine n v v' ∧ v'.nodeAt mine s path = b := by
  have hnode : ∀ {s' path'}, path'.length ≤ depthOf s' → v'.nodeAt mine s' path' =
      if (s', path') = (s, path) then b else v.nodeAt mine s' path' := fun hlength' =>
    hedit.node_eq hlength'
  have hself : v'.nodeAt mine s path = b := by rw [hnode hlength, if_pos rfl]
  refine ⟨⟨hzones, ?_, ?_⟩, hself⟩
  · intro s' path' hlength' hne
    rw [hnode hlength', if_neg]
    rintro heq
    obtain ⟨rfl, rfl⟩ := mk.inj heq
    exact hne hold
  · intro s' path' hlength'
    by_cases hplace : (s', path') = (s, path)
    · obtain ⟨rfl, rfl⟩ := mk.inj hplace
      rw [contentAt, contentAt, if_pos hold, hself, if_neg hb, hzero hlength']
    · have heq := hnode hlength'.le
      rw [if_neg hplace] at heq
      unfold contentAt
      rw [heq]
      by_cases hne : v.nodeAt mine s' path' = 0
      · rw [if_pos hne, if_pos hne]
      · rw [if_neg hne, if_neg hne, hkept s' path' hlength' hne]

/-- What cutting at one place does to the files. -/
theorem Shrunk.of_edit (hlength : path.length ≤ depthOf s)
    (hedit : CellEdit depthOf (v.roots mine) v.ptr (v'.roots mine) v'.ptr s path 0)
    (hzones : ZonesOnly n v v')
    (hkept : ∀ s' path', path'.length = depthOf s' → v.nodeAt mine s' path' ≠ 0 →
      v'.blocks (v.nodeAt mine s' path') = v.blocks (v.nodeAt mine s' path')) :
    Shrunk mine n (fun s' path' => s' = s ∧ path' = path) v v' ∧ v'.nodeAt mine s path = 0 := by
  have hnode : ∀ {s' path'}, path'.length ≤ depthOf s' → v'.nodeAt mine s' path' =
      if (s', path') = (s, path) then 0 else v.nodeAt mine s' path' := fun hlength' =>
    hedit.node_eq hlength'
  refine ⟨⟨hzones, ?_, ?_⟩, by rw [hnode hlength, if_pos rfl]⟩
  · intro s' path' hlength'
    rw [hnode hlength']
    by_cases hplace : (s', path') = (s, path)
    · rw [if_pos hplace]
      exact .inr ⟨mk.inj hplace, rfl⟩
    · rw [if_neg hplace]
      exact .inl rfl
  · intro s' path' hlength' hne
    rw [hnode hlength'.le] at hne ⊢
    by_cases hplace : (s', path') = (s, path)
    · rw [if_pos hplace] at hne
      exact absurd rfl hne
    · rw [if_neg hplace] at hne ⊢
      exact hkept s' path' hlength' hne

section

variable (h : Tidy mine fixed v)

include h

/-- A new block in a zone of an inode. -/
theorem Tidy.growRoot (hn : mine n) (hnr : nr < zoneSlots)
    (hold : (v.inodes n).zones nr = 0) (htaken : v.Taken zmap b) :
    Tidy mine fixed ((v.take zmap b).setZone n nr b) ∧
      Grown mine n v ((v.take zmap b).setZone n nr b) ∧
      ((v.take zmap b).setZone n nr b).nodeAt mine (n, nr) [] = b := by
  have hold' : v.nodeAt mine (n, nr) [] = 0 := (nodeAt_nil hn hnr).trans hold
  have hnew : ∀ s' path', path'.length ≤ depthOf s' → v.nodeAt mine s' path' ≠ b :=
    fun s' path' hlength => h.ne_node htaken.clear hlength htaken.ne
  have hedit : CellEdit depthOf (v.roots mine) v.ptr
      (((v.take zmap b).setZone n nr b).roots mine) ((v.take zmap b).setZone n nr b).ptr
      (n, nr) [] b := by
    refine ⟨?_, ?_, ?_, ?_, ?_, ?_⟩
    · intro s' hs
      exact roots_setZone_of_ne fun heq => hs (by rw [heq])
    · intro s' path' i hlength _ _
      exact ptr_take_of_ne (hnew s' path' hlength.le) i
    · exact fun _ => roots_setZone_self hn hnr
    · intro init i hpath
      exact absurd hpath.symm (concat_ne_nil i init)
    · exact fun _ i => ptr_take_self i
    · exact fun i _ => node_concat_of_eq hold'
  refine ⟨h.grow (Nat.zero_le _) hedit hold' rfl htaken,
    Grown.of_edit (Nat.zero_le _) hedit (.setZone rfl rfl rfl) hold' htaken.ne ?_ ?_⟩
  · exact fun _ => store_self ..
  · intro s' path' hlength _
    exact blocks_take_of_ne (hnew s' path' hlength.le)

/-- A block is given back from a zone of an inode. -/
theorem Tidy.cutRoot (hn : mine n) (hnr : nr < zoneSlots)
    (hold : (v.inodes n).zones nr = z) (hz : z ≠ 0)
    (hempty : 0 < depthOf (n, nr) → ∀ i < zonesPerBlock, v.entry z i = 0) :
    Tidy mine fixed ((v.setZone n nr 0).freeBlock z) ∧
      Shrunk mine n (fun s path => s = (n, nr) ∧ path = []) v ((v.setZone n nr 0).freeBlock z) ∧
      ((v.setZone n nr 0).freeBlock z).nodeAt mine (n, nr) [] = 0 := by
  have hold' : v.nodeAt mine (n, nr) [] = z := (nodeAt_nil hn hnr).trans hold
  have hrange := h.range (n, nr) [] (Nat.zero_le _) (hold'.trans_ne hz)
  rw [hold'] at hrange
  obtain ⟨zmap, heq, hreleased⟩ := (v.setZone n nr 0).freeBlock_eq hrange.1 hrange.2
  rw [heq]
  have hedit : CellEdit depthOf (v.roots mine) v.ptr
      ({ v.setZone n nr 0 with zmap := zmap }.roots mine) v.ptr (n, nr) [] 0 := by
    refine ⟨?_, fun _ _ _ _ _ _ => rfl, ?_, ?_, fun hne => absurd rfl hne, ?_⟩
    · intro s' hs
      exact roots_setZone_of_ne fun heq => hs (by rw [heq])
    · exact fun _ => roots_setZone_self hn hnr
    · intro init i hpath
      exact absurd hpath.symm (concat_ne_nil i init)
    · intro i hdepth
      rw [node_concat_of_ne (hold'.trans_ne hz)]
      change v.ptr (v.nodeAt mine (n, nr) []) i = 0
      rw [hold', ptr]
      by_cases hi : i < zonesPerBlock
      · rw [if_pos hi]
        exact hempty hdepth i hi
      · exact if_neg hi
  refine ⟨h.cut (Nat.zero_le _) hedit hold' hz rfl ⟨hreleased.clear, hreleased.other,
    hreleased.missing⟩,
    Shrunk.of_edit (Nat.zero_le _) hedit (.setZone rfl rfl rfl) fun _ _ _ _ => rfl⟩

section

variable (hlength : init.length < depthOf s) (hne : v.nodeAt mine s init ≠ 0)
  (hi : i < zonesPerBlock)

include hlength hne hi

/-- A new block in an entry of an indirect block. -/
theorem Tidy.growEntry (hold : v.entry (v.nodeAt mine s init) i = 0) (htaken : v.Taken zmap b) :
    Tidy mine fixed ((v.take zmap b).setEntry (v.nodeAt mine s init) i b) ∧
      Grown mine n v ((v.take zmap b).setEntry (v.nodeAt mine s init) i b) ∧
      ((v.take zmap b).setEntry (v.nodeAt mine s init) i b).nodeAt mine s (init ++ [i]) = b := by
  have hold' : v.nodeAt mine s (init ++ [i]) = 0 := (nodeAt_concat hne hi).trans hold
  have hnew : ∀ s' path', path'.length ≤ depthOf s' → v.nodeAt mine s' path' ≠ b :=
    fun s' path' hlength => h.ne_node htaken.clear hlength htaken.ne
  have hb : b < 0x10000 := htaken.last.trans v.geo.nzones_lt
  have hind : b ≠ v.nodeAt mine s init := (hnew s init hlength.le).symm
  have hplace : (init ++ [i]).length ≤ depthOf s := by
    rw [length_append]
    exact hlength
  have hedit : CellEdit depthOf (v.roots mine) v.ptr
      (((v.take zmap b).setEntry (v.nodeAt mine s init) i b).roots mine)
      ((v.take zmap b).setEntry (v.nodeAt mine s init) i b).ptr s (init ++ [i]) b := by
    refine ⟨fun _ _ => rfl, ?_, ?_, ?_, ?_, ?_⟩
    · intro s' path' j hlength' _ hother
      refine h.forest.ptr_eq hlength hne hlength' (fun hcell => ?_) hother
      have htake : (v.take zmap b).ptr (v.nodeAt mine s' path') j = _ :=
        ptr_take_of_ne (hnew s' path' hlength'.le) j
      exact (ptr_setEntry_of_ne _ hcell).trans htake
    · intro hpath
      exact absurd hpath (concat_ne_nil i init)
    · intro init' i' hpath
      obtain ⟨rfl, hlast⟩ := append_inj' hpath rfl
      obtain rfl := singleton_inj.mp hlast
      exact ⟨hne, ptr_setEntry_self _ hi hb⟩
    · intro _ j
      rw [ptr_setEntry_of_ne _ fun heq => absurd heq hind]
      exact ptr_take_self j
    · exact fun j _ => node_concat_of_eq hold'
  refine ⟨h.grow hplace hedit hold' rfl htaken,
    Grown.of_edit hplace hedit (.of_inodes rfl rfl rfl) hold' htaken.ne ?_ ?_⟩
  · intro _
    rw [blocks_setEntry_of_ne hind]
    exact store_self ..
  · -- a data block is not the indirect block
    intro s' path' hlength' hne'
    have hother : (s', path') ≠ (s, init) := by
      rintro heq
      obtain ⟨rfl, rfl⟩ := mk.inj heq
      omega
    rw [blocks_setEntry_of_ne (h.ne_of_length hlength'.le hlength.le hne' hother)]
    exact blocks_take_of_ne (hnew s' path' hlength'.le)

/-- A block is given back from an entry of an indirect block. -/
theorem Tidy.cutEntry (hold : v.entry (v.nodeAt mine s init) i = z) (hz : z ≠ 0)
    (hempty : init.length + 1 < depthOf s → ∀ j < zonesPerBlock, v.entry z j = 0) :
    Tidy mine fixed ((v.setEntry (v.nodeAt mine s init) i 0).freeBlock z) ∧
      Shrunk mine n (fun s' path => s' = s ∧ path = init ++ [i]) v
        ((v.setEntry (v.nodeAt mine s init) i 0).freeBlock z) ∧
      ((v.setEntry (v.nodeAt mine s init) i 0).freeBlock z).nodeAt mine s (init ++ [i]) = 0 := by
  have hold' : v.nodeAt mine s (init ++ [i]) = z := (nodeAt_concat hne hi).trans hold
  have hplace : (init ++ [i]).length ≤ depthOf s := by
    rw [length_append]
    exact hlength
  have hrange := h.range s (init ++ [i]) hplace (hold'.trans_ne hz)
  rw [hold'] at hrange
  obtain ⟨zmap, heq, hreleased⟩ :=
    (v.setEntry (v.nodeAt mine s init) i 0).freeBlock_eq hrange.1 hrange.2
  rw [heq]
  have hedit : CellEdit depthOf (v.roots mine) v.ptr (v.roots mine)
      (v.setEntry (v.nodeAt mine s init) i 0).ptr s (init ++ [i]) 0 := by
    refine ⟨fun _ _ => rfl, ?_, ?_, ?_, fun hne => absurd rfl hne, ?_⟩
    · intro s' path' j hlength' _ hother
      exact h.forest.ptr_eq hlength hne hlength' (ptr_setEntry_of_ne _) hother
    · intro hpath
      exact absurd hpath (concat_ne_nil i init)
    · intro init' i' hpath
      obtain ⟨rfl, hlast⟩ := append_inj' hpath rfl
      obtain rfl := singleton_inj.mp hlast
      exact ⟨hne, ptr_setEntry_self _ hi (by omega)⟩
    · intro j hdepth
      rw [length_append] at hdepth
      rw [node_concat_of_ne (hold'.trans_ne hz)]
      change v.ptr (v.nodeAt mine s (init ++ [i])) j = 0
      rw [hold', ptr]
      by_cases hj : j < zonesPerBlock
      · rw [if_pos hj]
        exact hempty hdepth j hj
      · exact if_neg hj
  refine ⟨h.cut hplace hedit hold' hz rfl ⟨hreleased.clear, hreleased.other,
    hreleased.missing⟩, Shrunk.of_edit hplace hedit (.of_inodes rfl rfl rfl) ?_⟩
  intro s' path' hlength' hne'
  have hother : (s', path') ≠ (s, init) := by
    rintro heq
    obtain ⟨rfl, rfl⟩ := mk.inj heq
    omega
  exact blocks_setEntry_of_ne (h.ne_of_length hlength'.le hlength.le hne' hother)

end

/-- New bytes in a data block: the data elsewhere stays. -/
theorem Tidy.storeData (hlength : path.length = depthOf s)
    (hnode : v.nodeAt mine s path = b) (hb : b ≠ 0) (content : Block) :
    Tidy mine fixed (v.store b content) ∧
      ∀ s' path', path'.length = depthOf s' → (v.store b content).contentAt mine s' path' =
        if (s', path') = (s, path) then content else v.contentAt mine s' path' := by
  subst hnode
  have hnodes : ∀ s' path', path'.length ≤ depthOf s' →
      (v.store (v.nodeAt mine s path) content).nodeAt mine s' path' = v.nodeAt mine s' path' := by
    intro s' path' hlength'
    refine node_congr rfl ?_ hlength'
    intro p hp hne j
    refine ptr_store_of_ne _ (h.ne_of_length hp.le hlength.le hne ?_) _ j
    rintro heq
    obtain ⟨rfl, rfl⟩ := mk.inj heq
    omega
  refine ⟨h.congr hnodes rfl rfl, ?_⟩
  intro s' path' hlength'
  unfold contentAt
  rw [hnodes s' path' hlength'.le]
  by_cases hplace : (s', path') = (s, path)
  · obtain ⟨rfl, rfl⟩ := mk.inj hplace
    rw [if_neg hb, if_pos rfl, store_self]
  · rw [if_neg hplace]
    by_cases hne : v.nodeAt mine s' path' = 0
    · rw [if_pos hne, if_pos hne]
    · rw [if_neg hne, if_neg hne,
        store_of_ne _ (h.ne_of_length hlength'.le hlength.le hne hplace)]

end

end Edits

end Shitix.Minix
