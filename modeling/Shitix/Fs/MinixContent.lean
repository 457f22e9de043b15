import Mathlib.Data.List.GetD
import Shitix.Fs.MinixMap

/-!
# What minix files contain

`byteAt v n o` is the byte the blocks of file `n` hold at offset `o`, 0 in a hole.  `read`
returns these bytes up to the end of the file (`read_eq`), `write` patches them
(`Tidy.write`) and `truncate` clears the blocks behind the end (`Tidy.byteAt_truncate`).

What `truncate` does not clear is the rest of the last block.  A later write behind the end
of the file brings it back: `truncated_bytes_reappear` shows the read that returns bytes cut
off before.  `reads_last_written` is the law of all other histories: as long as the bytes
between the end of the file and the position of each write are zero, every read returns the
bytes last written since they were cut off.
-/

namespace Shitix.Minix

open BlockTree Function List Volume Nat

variable {mine : ℕ → Prop} [DecidablePred mine] {fixed : ℕ → Prop} {v v' : Volume}
  {n m o pos fuel : ℕ} {bytes : List UInt8} {f : Inode → Inode}

/-! ## Bytes of a file -/

/-- The byte the blocks of a file hold at an offset. -/
def Volume.byteAt (mine : ℕ → Prop) [DecidablePred mine] (v : Volume) (n o : ℕ) : UInt8 :=
  v.contentAt mine (placeOf n (o / blockSize)).1 (placeOf n (o / blockSize)).2 (o % blockSize)

theorem byteAt_of_hole (h : v.blockAt mine n (o / blockSize) = 0) : v.byteAt mine n o = 0 :=
  congrFun (if_pos h) _

theorem Grown.byteAt_eq (h : Grown mine n v v') (m o : ℕ) :
    v'.byteAt mine m o = v.byteAt mine m o :=
  congrFun (h.data _ _ length_placeOf) _

theorem modify_self : (v.modify n f).inodes n = f (v.inodes n) :=
  update_self ..

/-- A change that leaves the zones alone leaves the places. -/
theorem roots_modify (hf : ∀ inode, (f inode).zones = inode.zones) :
    (v.modify n f).roots mine = v.roots mine := by
  funext s
  unfold roots
  by_cases hs : s.1 = n
  · simp [Volume.modify, hs, hf]
  · simp [Volume.modify, update_of_ne hs]

theorem nodeAt_modify (hf : ∀ inode, (f inode).zones = inode.zones) (s : ℕ × ℕ) (path : List ℕ) :
    (v.modify n f).nodeAt mine s path = v.nodeAt mine s path := by
  unfold nodeAt
  rw [roots_modify hf]
  rfl

theorem Tidy.modify (h : Tidy mine fixed v) (hf : ∀ inode, (f inode).zones = inode.zones) :
    Tidy mine fixed (v.modify n f) :=
  h.congr (fun s path _ => nodeAt_modify hf s path) rfl rfl

theorem byteAt_modify (hf : ∀ inode, (f inode).zones = inode.zones) (m o : ℕ) :
    (v.modify n f).byteAt mine m o = v.byteAt mine m o := by
  unfold byteAt contentAt
  rw [nodeAt_modify hf]
  rfl

/-! ## `read` -/

theorem blockSize_pos : 0 < blockSize := by decide

/-- Offsets within one block. -/
theorem div_mod_within (pos k : ℕ) (h : pos % blockSize + k < blockSize) :
    (pos + k) / blockSize = pos / blockSize ∧ (pos + k) % blockSize = pos % blockSize + k := by
  simp only [blockSize] at h ⊢
  omega

theorem chunkAt_eq (hn : mine n) {chunk : ℕ} (hchunk : pos % blockSize + chunk ≤ blockSize) :
    v.chunkAt n pos chunk = (List.range chunk).map fun k => v.byteAt mine n (pos + k) := by
  have hread : v.getBlock n (pos / blockSize) false = _ := getBlock_read hn
  unfold chunkAt
  rw [hread]
  by_cases hhole : v.blockAt mine n (pos / blockSize) = 0
  · rw [if_pos hhole, map_congr_left, map_const', length_range]
    intro k hk
    have hk := mem_range.mp hk
    have hwithin := div_mod_within pos k (by omega)
    exact byteAt_of_hole (by rw [hwithin.1, hhole])
  · rw [if_neg hhole]
    refine map_congr_left fun k hk => ?_
    have hk := mem_range.mp hk
    have hwithin := div_mod_within pos k (by omega)
    rw [byteAt, hwithin.1, hwithin.2]
    exact (congrFun (if_neg hhole) _).symm

theorem readLoop_eq (hn : mine n) {want : ℕ} (hfuel : want ≤ fuel) :
    v.readLoop n fuel pos want = (List.range want).map fun k => v.byteAt mine n (pos + k) := by
  induction fuel generalizing pos want with
  | zero =>
    obtain rfl : want = 0 := by omega
    rfl
  | succ fuel ih =>
    rw [readLoop]
    by_cases hwant : want = 0
    · rw [hwant]
      rfl
    · rw [if_neg hwant]
      have hlt : pos % blockSize < blockSize := mod_lt _ blockSize_pos
      dsimp only
      generalize hchunk : min (blockSize - pos % blockSize) want = chunk
      rw [chunkAt_eq hn (by omega), ih (by omega)]
      -- the first `chunk` offsets, then the others
      conv_rhs => rw [show want = chunk + (want - chunk) by omega, range_add]
      rw [map_append, map_map]
      congr 1
      refine map_congr_left fun k _ => ?_
      rw [comp_apply, add_assoc]

/-- `read` returns the bytes of the file up to its end. -/
theorem read_eq (mine : ℕ → Prop) [DecidablePred mine] (v : Volume) (hn : mine n) (pos len : ℕ) :
    v.read n pos len = (List.range (min len ((v.inodes n).size - pos))).map fun k =>
      v.byteAt mine n (pos + k) := by
  unfold Volume.read
  by_cases hend : (v.inodes n).size ≤ pos
  · rw [if_pos hend, Nat.sub_eq_zero_of_le hend, min_zero]
    rfl
  · rw [if_neg hend]
    exact readLoop_eq hn le_rfl

/-! ## `write` -/

theorem patch_nil (block : Block) : patch block pos [] = block := by
  funext k
  simp [patch]

/-- Two patches one after the other. -/
theorem patch_patch (block : Block) (first second : List UInt8) :
    patch (patch block pos first) (pos + first.length) second =
      patch block pos (first ++ second) := by
  funext k
  unfold patch
  by_cases hpos : pos ≤ k
  · rw [if_pos hpos, if_pos hpos]
    by_cases hfirst : pos + first.length ≤ k
    · have hbehind : first.length ≤ k - pos := by omega
      rw [if_pos hfirst, getD_append_right _ _ _ _ hbehind,
        getD_eq_default first _ hbehind, sub_add_eq]
    · rw [if_neg hfirst, getD_append _ _ _ _ (by omega)]
  · rw [if_neg (by omega), if_neg hpos, if_neg hpos]

/-- What a write leaves: a tidy volume, in which the bytes of the file are patched and all other
files are as before. -/
structure Wrote (mine : ℕ → Prop) [DecidablePred mine] (fixed : ℕ → Prop) (n pos : ℕ)
    (bytes : List UInt8) (v v' : Volume) : Prop extends ZonesOnly n v v' where
  tidy : Tidy mine fixed v'
  data : v'.byteAt mine n = Volume.patch (v.byteAt mine n) pos bytes
  other : ∀ m, m ≠ n → v'.byteAt mine m = v.byteAt mine m

theorem Wrote.nothing (h : Tidy mine fixed v') (hgrown : Grown mine n v v') :
    Wrote mine fixed n pos [] v v' := by
  refine ⟨hgrown.toZonesOnly, h, ?_, fun m _ => funext (hgrown.byteAt_eq m)⟩
  rw [patch_nil]
  exact funext (hgrown.byteAt_eq n)

theorem Wrote.trans {v'' : Volume} {more : List UInt8} (h : Wrote mine fixed n pos bytes v v')
    (h' : Wrote mine fixed n (pos + bytes.length) more v' v'') :
    Wrote mine fixed n pos (bytes ++ more) v v'' := by
  refine ⟨h.toZonesOnly.trans h'.toZonesOnly, h'.tidy, ?_, fun m hm => ?_⟩
  · rw [h'.data, h.data, patch_patch]
  · rw [h'.other m hm, h.other m hm]

/-- One round of `write`: bytes within one block. -/
theorem Got.store {result : Volume × ℕ}
    (h : Got mine fixed n v (placeOf n (pos / blockSize)).1 (placeOf n (pos / blockSize)).2 result)
    (hb : result.2 ≠ 0) (hbytes : pos % blockSize + bytes.length ≤ blockSize) :
    Wrote mine fixed n pos bytes v (result.1.store result.2
      (patch (result.1.blocks result.2) (pos % blockSize) bytes)) := by
  obtain ⟨w, b⟩ := result
  obtain ⟨htidy, hgrown, hfound⟩ := h
  have hnode := hfound hb
  obtain ⟨htidy', hdata⟩ := htidy.storeData length_placeOf hnode hb
    (patch (w.blocks b) (pos % blockSize) bytes)
  have hold : w.contentAt mine (placeOf n (pos / blockSize)).1 (placeOf n (pos / blockSize)).2 =
      w.blocks b := by
    rw [contentAt, hnode, if_neg hb]
  refine ⟨hgrown.toZonesOnly.trans (.of_inodes rfl rfl rfl), htidy', ?_, fun m hm => ?_⟩
  · funext o
    rw [← funext (hgrown.byteAt_eq n), byteAt, hdata _ _ length_placeOf]
    by_cases hblock : o / blockSize = pos / blockSize
    · -- the block of the round
      rw [if_pos (by rw [hblock]), ← hold]
      simp only [patch, byteAt, hblock]
      simp only [blockSize] at hblock ⊢
      have hle : pos % 1024 ≤ o % 1024 ↔ pos ≤ o := by omega
      have hsub : o % 1024 - pos % 1024 = o - pos := by omega
      simp [hle, hsub]
    · rw [if_neg fun heq => hblock (placeOf_injective heq).2, patch]
      by_cases hpos : pos ≤ o
      · rw [if_pos hpos, getD_eq_default]
        · rfl
        · simp only [blockSize] at hblock hbytes
          omega
      · rw [if_neg hpos]
        rfl
  · funext o
    rw [← hgrown.byteAt_eq m o, byteAt, hdata _ _ length_placeOf,
      if_neg fun heq => hm (placeOf_injective heq).1]
    rfl

section

variable (h : Tidy mine fixed v) (hpos : 0 < v.geo.firstZone) (hn : mine n)

include h hn

section

include hpos

theorem Tidy.writeLoop (pos : ℕ) {fuel : ℕ} (hfuel : bytes.length ≤ fuel) :
    (Volume.writeLoop n fuel v pos bytes).2 ≤ bytes.length ∧
      Wrote mine fixed n pos (bytes.take (Volume.writeLoop n fuel v pos bytes).2) v
        (Volume.writeLoop n fuel v pos bytes).1 := by
  induction fuel generalizing v pos bytes with
  | zero => exact ⟨zero_le _, .nothing h .refl⟩
  | succ fuel ih =>
    rw [writeLoop]
    by_cases hbytes : bytes.length = 0
    · rw [if_pos hbytes]
      exact ⟨zero_le _, .nothing h .refl⟩
    · rw [if_neg hbytes]
      have hlt : pos % blockSize < blockSize := mod_lt _ blockSize_pos
      generalize hchunk : min (blockSize - pos % blockSize) bytes.length = chunk
      have hgot : Got mine fixed n v _ _ (v.getBlock n (pos / blockSize) true) :=
        h.getBlock hpos hn
      generalize v.getBlock n (pos / blockSize) true = result at hgot
      obtain ⟨w, b⟩ := result
      dsimp only
      by_cases hb : b = 0
      · rw [if_pos hb]
        exact ⟨zero_le _, .nothing hgot.tidy hgot.grown⟩
      · rw [if_neg hb]
        have hlength : (bytes.take chunk).length = chunk := by
          rw [length_take]
          omega
        have hround : Wrote mine fixed n pos (bytes.take chunk) v (w.store b
            (patch (w.blocks b) (pos % blockSize) (bytes.take chunk))) :=
          hgot.store hb (by rw [hlength]; omega)
        have hfuel' : (bytes.drop chunk).length ≤ fuel := by
          rw [length_drop]
          omega
        obtain ⟨hle, hwrote⟩ := ih hround.tidy (hround.geo.symm ▸ hpos) (pos + chunk) hfuel'
        rw [length_drop] at hle
        refine ⟨by omega, ?_⟩
        rw [take_add]
        refine hround.trans ?_
        rw [hlength]
        exact hwrote

/-- `write`: an error changes no byte, and otherwise the bytes it counts are those of the buffer. -/
theorem Tidy.write (pos : ℕ) (bytes : List UInt8) :
    (∃ v' error, v.write n pos bytes = (v', .error error) ∧ Wrote mine fixed n pos [] v v') ∨
      ∃ v' done, v.write n pos bytes = (v'.modify n (Inode.extend (pos + done)), .ok done) ∧
        done ≤ bytes.length ∧ Wrote mine fixed n pos (bytes.take done) v v' := by
  unfold Volume.write
  by_cases hmax : v.geo.maxSize ≤ pos
  · rw [if_pos hmax]
    exact .inl ⟨v, _, rfl, .nothing h .refl⟩
  · rw [if_neg hmax]
    dsimp only
    generalize hwanted : bytes.take (v.geo.maxSize - pos) = wanted
    obtain ⟨hle, hwrote⟩ := h.writeLoop hpos hn pos (le_refl wanted.length)
    generalize Volume.writeLoop n wanted.length v pos wanted = result at hle hwrote
    obtain ⟨v', done⟩ := result
    by_cases hnone : done = 0 ∧ wanted.length ≠ 0
    · rw [if_pos hnone]
      rw [hnone.1] at hwrote
      exact .inl ⟨v', _, rfl, hwrote⟩
    · rw [if_neg hnone]
      rw [← hwanted, length_take] at hle
      have htake : wanted.take done = bytes.take done := by
        rw [← hwanted, take_take, min_eq_left (by omega)]
      rw [htake] at hwrote
      exact .inr ⟨v', done, rfl, by omega, hwrote⟩

end

/-! ## `truncate` -/

/-- `truncate` clears the blocks behind the end of the file. -/
theorem Tidy.byteAt_truncate (m o : ℕ) : (v.truncate n).byteAt mine m o =
      if m = n ∧ ((v.inodes n).size + blockSize - 1) / blockSize ≤ o / blockSize then 0
      else v.byteAt mine m o := by
  obtain ⟨htrimmed, hempty, -⟩ := h.truncate hn rfl
  by_cases hcut : m = n ∧ ((v.inodes n).size + blockSize - 1) / blockSize ≤ o / blockSize
  · rw [if_pos hcut]
    obtain ⟨rfl, hkeep⟩ := hcut
    exact byteAt_of_hole (hempty _ hkeep)
  · rw [if_neg hcut]
    refine congrFun (htrimmed.shrunk.contentAt length_placeOf ?_) _
    rintro ⟨hfst, hbehind, -⟩
    rw [placeOf_fst] at hfst
    subst hfst
    exact hbehind (o / blockSize) (by omega) rfl

end

/-! ## The content law -/

/-- A file: the volume it is on, and the bytes last written to it. -/
structure File where
  volume : Volume
  written : ℕ → UInt8

/-- What a program does with a file. -/
inductive Op where
  | write (pos : ℕ) (bytes : List UInt8)
  | truncate (size : ℕ)
  | read (pos len : ℕ)

/-- An operation on file `n`.  A write counts for as many bytes as it reports; a truncation cuts off
what was written behind the new end. -/
def File.step (n : ℕ) (file : File) : Op → Except Volume.Errno File
  | .write pos bytes =>
    match file.volume.write n pos bytes with
    | (v, .ok done) => .ok ⟨v, Volume.patch file.written pos (bytes.take done)⟩
    | (v, .error _) => .ok ⟨v, file.written⟩
  | .truncate size =>
    .ok ⟨file.volume.setSize n size, fun o => if o < size then file.written o else 0⟩
  | .read _ _ => .ok file

/-- How far an operation moves the end of the file before it writes anything. -/
def Op.reach : Op → ℕ
  | .write pos _ => pos
  | .truncate size => size
  | .read _ _ => 0

/-- The blocks of the file hold zeros from its end up to where the operation starts. -/
def CleanGap (n : ℕ) (file : File) (op : Op) : Prop :=
  ∀ o < op.reach, (file.volume.inodes n).size ≤ o → file.volume.byteAt (· = n) n o = 0

instance (n : ℕ) (file : File) (op : Op) : Decidable (CleanGap n file op) :=
  inferInstanceAs (Decidable (∀ o < op.reach, _ → _))

/-- Every read returns the bytes last written, up to the end of the file. -/
def ReadsBack (n : ℕ) (file : File) : Prop :=
  ∀ pos len, file.volume.read n pos len =
    (List.range (min len ((file.volume.inodes n).size - pos))).map fun k => file.written (pos + k)

/-- The invariant of the law: the bytes up to the end are those last written, and behind the end
nothing is. -/
structure Faithful (n : ℕ) (fixed : ℕ → Prop) (file : File) : Prop where
  tidy : Tidy (· = n) fixed file.volume
  first : 0 < file.volume.geo.firstZone
  inside : ∀ o < (file.volume.inodes n).size, file.volume.byteAt (· = n) n o = file.written o
  behind : ∀ o, (file.volume.inodes n).size ≤ o → file.written o = 0

theorem Faithful.readsBack {file : File} (h : Faithful n fixed file) : ReadsBack n file := by
  intro pos len
  rw [read_eq (· = n) file.volume rfl]
  refine map_congr_left fun k hk => h.inside _ ?_
  have hk := mem_range.mp hk
  omega

/-- A patch of two contents that agree where the patch does not reach. -/
theorem patch_agree {c c' : Block} (h : o < pos + bytes.length → o < pos → c o = c' o)
    (hbehind : pos + bytes.length ≤ o → c o = c' o) :
    patch c pos bytes o = patch c' pos bytes o := by
  unfold patch
  by_cases hpos : pos ≤ o
  · rw [if_pos hpos, if_pos hpos]
    by_cases hlast : o - pos < bytes.length
    · rw [getD_eq_getElem _ _ hlast, getD_eq_getElem _ _ hlast]
    · rw [hbehind (by omega)]
  · rw [if_neg hpos, if_neg hpos]
    exact h (by omega) (by omega)

section

variable {file : File} (h : Faithful n fixed file)

include h

theorem Faithful.write (hclean : CleanGap n file (.write pos bytes)) :
    ∃ next, file.step n (.write pos bytes) = .ok next ∧ Faithful n fixed next := by
  simp only [File.step]
  rcases h.tidy.write h.first rfl pos bytes
    with ⟨v', error, heq, hwrote⟩ | ⟨v', done, heq, hdone, hwrote⟩
  · rw [heq]
    have hdata := hwrote.data
    rw [patch_nil] at hdata
    refine ⟨_, rfl, hwrote.tidy, hwrote.geo.symm ▸ h.first, fun o ho => ?_, fun o ho => ?_⟩
    · rw [hwrote.size] at ho
      rw [hdata]
      exact h.inside o ho
    · rw [hwrote.size] at ho
      exact h.behind o ho
  · rw [heq]
    have hlength : (bytes.take done).length = done := by
      rw [length_take]
      omega
    have hsize : ((v'.modify n (Inode.extend (pos + done))).inodes n).size =
        max (file.volume.inodes n).size (pos + done) := by
      rw [modify_self, ← hwrote.size n]
      rfl
    have hzones : ∀ inode, (Inode.extend (pos + done) inode).zones = inode.zones := fun _ => rfl
    refine ⟨_, rfl, hwrote.tidy.modify hzones, hwrote.geo.symm ▸ h.first, fun o ho => ?_,
      fun o ho => ?_⟩
    · rw [hsize] at ho
      rw [byteAt_modify hzones, hwrote.data]
      refine patch_agree (fun _ hpos => ?_) fun hlast => ?_
      · by_cases hend : o < (file.volume.inodes n).size
        · exact h.inside o hend
        · rw [hclean o hpos (not_lt.mp hend), h.behind o (not_lt.mp hend)]
      · exact h.inside o (by omega)
    · rw [hsize] at ho
      have hzero := h.behind o (by omega)
      dsimp only
      rw [patch, if_pos (by omega), getD_eq_default _ _ (by omega), hzero]

theorem Faithful.truncate {size : ℕ}
    (hclean : CleanGap n file (.truncate size)) :
    ∃ next, file.step n (.truncate size) = .ok next ∧ Faithful n fixed next := by
  have hzones : ∀ inode, (Inode.resize size inode).zones = inode.zones := fun _ => rfl
  have htidy := h.tidy.modify (n := n) hzones
  have hbytes := htidy.byteAt_truncate rfl n
  obtain ⟨htrimmed, -, -⟩ := htidy.truncate rfl rfl
  have hsize : ((file.volume.setSize n size).inodes n).size = size := by
    rw [setSize, htrimmed.shrunk.size, modify_self]
    rfl
  refine ⟨_, rfl, htrimmed.tidy, htrimmed.shrunk.geo.symm ▸ h.first, fun o ho => ?_, fun o ho => ?_⟩
  · rw [hsize] at ho
    dsimp only
    rw [if_pos ho, setSize, hbytes, if_neg, byteAt_modify hzones]
    · by_cases hend : o < (file.volume.inodes n).size
      · exact h.inside o hend
      · rw [hclean o ho (not_lt.mp hend), h.behind o (not_lt.mp hend)]
    · rintro ⟨-, hkeep⟩
      rw [modify_self] at hkeep
      simp only [blockSize, Inode.resize] at hkeep
      omega
  · rw [hsize] at ho
    exact if_neg (not_lt.mpr ho)

theorem Faithful.step (op : Op)
    (hclean : CleanGap n file op) : ∃ next, file.step n op = .ok next ∧ Faithful n fixed next := by
  cases op with
  | write pos bytes => exact h.write hclean
  | truncate size => exact h.truncate hclean
  | read pos len => exact ⟨file, rfl, h⟩

end

/-- An empty file: what is marked on its volume stays marked. -/
theorem faithful_empty (hpos : 0 < v.geo.firstZone) (hsize : (v.inodes n).size = 0)
    (hzones : ∀ nr < zoneSlots, (v.inodes n).zones nr = 0) :
    Faithful n (fun k => isSet v.zmap k = true) ⟨v, fun _ => 0⟩ := by
  have hroots : ∀ s, v.roots (· = n) s = 0 := by
    intro s
    unfold roots
    by_cases hs : s.1 = n ∧ s.2 < zoneSlots
    · rw [if_pos hs, hs.1, hzones _ hs.2]
    · exact if_neg hs
  have hnode : ∀ s path, v.nodeAt (· = n) s path = 0 := by
    intro s path
    rw [nodeAt, node, hroots, walk_zero]
  refine ⟨⟨?_, ?_, ?_, ?_, ?_⟩, hpos, fun o ho => ?_, fun _ _ => rfl⟩
  · exact fun s path _ _ _ _ hne _ => absurd (hnode s path) hne
  · exact fun s path _ hne => absurd (hnode s path) hne
  · refine fun k => ⟨.inl, ?_⟩
    rintro (hset | ⟨s, path, -, hne, -⟩)
    · exact hset
    · exact absurd (hnode s path) hne
  · exact fun s path _ hne => absurd (hnode s path) hne
  · intro k hk
    dsimp only at hk
    simp [isSet, hk]
  · rw [hsize] at ho
    exact absurd ho (not_lt_zero o)

/-- **The content law.**  From an empty file on a volume whose data zones start behind block 0, as
long as each write and truncation finds zeros between the end of the file and where it starts, every
read returns the bytes last written. -/
theorem reads_last_written (v : Volume) (hpos : 0 < v.geo.firstZone) (n : ℕ)
    (hsize : (v.inodes n).size = 0)
    (hzones : ∀ nr < zoneSlots, (v.inodes n).zones nr = 0) (ops : List Op)
    (hclean : Guarded (File.step n) (CleanGap n) ops ⟨v, fun _ => 0⟩) :
    ∃ file, run (File.step n) ops ⟨v, fun _ => 0⟩ = .ok file ∧ ReadsBack n file := by
  have hstart := faithful_empty hpos hsize hzones
  obtain ⟨file, hrun, hfaithful⟩ :=
    run_invariant (fun file op h hop => h.step op hop) hstart hclean
  exact ⟨file, hrun, hfaithful.readsBack⟩

/-- A volume with free blocks and an empty file in every inode. -/
def emptyVolume : Volume where
  geo := ⟨10, 40, 8, 0x100000, by decide⟩
  zmap slot := if slot = 0 then some fun k => k == 0 else none
  imap _ := none
  blocks _ _ := 0
  inodes _ := ⟨.regular, 1, 0, fun _ => 0, 1⟩

theorem reads_last_written_after_truncate :
    ∃ file, run (File.step 3) [.write 0 [1, 2, 3], .truncate 2, .write 2 [9], .write 5 [4]]
      ⟨emptyVolume, fun _ => 0⟩ = .ok file ∧ ReadsBack 3 file :=
  reads_last_written emptyVolume (by decide) 3 rfl (fun _ _ => rfl) _
    (guarded_of_check (by decide +kernel))

/-- Four bytes are written, three cut off, and a byte is written behind the gap: the read returns two
of those that were cut off. -/
theorem truncated_bytes_reappear :
    ∃ file, run (File.step 3) [.write 0 [1, 1, 1, 1], .truncate 1, .write 3 [2]]
      ⟨emptyVolume, fun _ => 0⟩ = .ok file ∧ file.volume.read 3 0 4 = [1, 1, 1, 2] ∧
      (List.range 4).map file.written = [1, 0, 0, 2] ∧ ¬ ReadsBack 3 file := by
  obtain ⟨file, hrun, hread, hwritten, hsize⟩ := exists_of_endsIn
    (p := fun file => file.volume.read 3 0 4 = [1, 1, 1, 2] ∧
      (range 4).map file.written = [1, 0, 0, 2] ∧ (file.volume.inodes 3).size = 4)
    (show endsIn _ (run (File.step 3) [.write 0 [1, 1, 1, 1], .truncate 1, .write 3 [2]]
      ⟨emptyVolume, fun _ => 0⟩) = true by decide +kernel)
  refine ⟨file, hrun, hread, hwritten, fun hback => ?_⟩
  have hall := hback 0 4
  rw [hread, hsize] at hall
  simp only [zero_add, min_self] at hall
  rw [hwritten] at hall
  exact absurd hall (by decide)

/-! ## Files apart -/

/-- An operation on a file of the volume. -/
def Volume.step (v : Volume) : ℕ × Op → Volume
  | (n, .write pos bytes) => (v.write n pos bytes).1
  | (n, .truncate size) => v.setSize n size
  | (_, .read ..) => v

/-- An operation on one file keeps the volume tidy, and all other files. -/
theorem Tidy.step (h : Tidy mine fixed v) (hpos : 0 < v.geo.firstZone) (op : ℕ × Op)
    (hop : mine op.1) : Tidy mine fixed (v.step op) ∧ (v.step op).geo = v.geo ∧
      ∀ m ≠ op.1, (v.step op).inodes m = v.inodes m ∧
        (v.step op).byteAt mine m = v.byteAt mine m := by
  rcases op with ⟨n, ⟨pos, bytes⟩ | size | _⟩
  · rw [Volume.step]
    rcases h.write hpos hop pos bytes with ⟨_, _, heq, hw⟩ | ⟨_, _, heq, -, hw⟩ <;> rw [heq]
    · exact ⟨hw.tidy, hw.geo, fun m hm => ⟨hw.others m hm, hw.other m hm⟩⟩
    · refine ⟨hw.tidy.modify fun _ => rfl, hw.geo, fun m hm => ⟨?_, ?_⟩⟩
      · exact (update_of_ne hm ..).trans (hw.others m hm)
      · rw [← hw.other m hm]
        exact funext (byteAt_modify (f := .extend _) (fun _ => rfl) m)
  · have hv := h.modify (n := n) (f := .resize size) fun _ => rfl
    have hcut := (hv.truncate hop rfl).1
    refine ⟨hcut.tidy, hcut.shrunk.geo, fun m hm => ⟨?_, funext fun o => ?_⟩⟩
    · exact (hcut.shrunk.others m hm).trans (update_of_ne hm ..)
    · rw [Volume.step, setSize, hv.byteAt_truncate hop, if_neg fun h => hm h.1]
      exact byteAt_modify (f := .resize _) (fun _ => rfl) m o
  · exact ⟨h, rfl, fun _ _ => ⟨rfl, rfl⟩⟩

/-- Operations on some files leave the others alone and the zone map exact. -/
theorem files_apart (h : Tidy mine fixed v) (hpos : 0 < v.geo.firstZone) (ops : List (ℕ × Op))
    (hops : ∀ op ∈ ops, mine op.1) :
    Tidy mine fixed (ops.foldl step v) ∧ ∀ m, mine m → (∀ op ∈ ops, m ≠ op.1) → ∀ pos len,
      (ops.foldl step v).read m pos len = v.read m pos len := by
  induction ops generalizing v with
  | nil => exact ⟨h, by simp⟩
  | cons op ops ih =>
    simp only [forall_mem_cons, foldl_cons] at hops ⊢
    obtain ⟨hv, hgeo, hother⟩ := h.step hpos _ hops.1
    refine (ih hv (hgeo.symm ▸ hpos) hops.2).imp_right fun hread m hm hne pos len => ?_
    obtain ⟨hinode, hbytes⟩ := hother m hne.1
    rw [hread m hm hne.2, read_eq mine _ hm, hinode, hbytes, ← read_eq mine v hm]

theorem tidy_emptyVolume : Tidy (fun _ => True) (isSet emptyVolume.zmap ·) emptyVolume := by
  constructor <;> simp [nodeAt, node, roots, emptyVolume, Forest, isSet]
  grind

/-- File 4 has content, while file 3 is written, cut, read and written behind its end. -/
theorem files_apart_four :
    let v := emptyVolume.step (4, .write 0 [7, 8])
    let v' := [(3, .write 0 [1, 2]), (3, .truncate 1), (3, .read 0 9), (3, .write 2000 [5])].foldl
      step v
    Tidy (fun _ => True) (isSet emptyVolume.zmap ·) v' ∧ v'.read 4 0 9 = [7, 8] := by
  obtain ⟨htidy, hgeo, -⟩ := tidy_emptyVolume.step (by decide) (4, .write 0 [7, 8]) trivial
  refine (files_apart htidy (by rw [hgeo]; decide) _ fun _ _ => trivial).imp_right fun hread => ?_
  exact (hread 4 trivial (by simp) 0 9).trans (by decide +kernel)

end Shitix.Minix
