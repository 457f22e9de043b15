import Mathlib.Data.List.Find
import Shitix.Lib.ByteMem

/-!
# Directory blocks of ext4

`DirIter` walks through the records of a block by their lengths, which come from the disk
unchecked.  Whatever the bytes are it ends, looks at no byte outside the block and yields records
that lie in it, one behind the other; and a block that is made of records yields these
(`dirIter_safe`).  `find_entry` finds the first of them with a name, except that nothing has the
empty name (`findEntry_nil`).
-/

namespace Shitix.Ext4

open List

/-- A number of a slice; `none` is an index outside. -/
def read (buf : List UInt8) (k n : ℕ) : Option ℕ :=
  if k + n ≤ buf.length then some (leField buf k n) else none

structure DirEntry where
  inode : ℕ
  recLen : ℕ
  nameLen : ℕ
  fileType : ℕ
  nameOff : ℕ

def DirEntry.nameBytes (e : DirEntry) (buf : List UInt8) : List UInt8 :=
  if e.nameOff + e.nameLen ≤ buf.length then (buf.drop e.nameOff).take e.nameLen else []

/-- `DirIter::next`: the entry at `pos`, if there is one, and the next position. -/
def next (buf : List UInt8) (pos : ℕ) : Option (Option (DirEntry × ℕ)) :=
  if buf.length < pos + 8 then some none
  else do
    let inode ← read buf pos 4
    let recLen ← read buf (pos + 4) 2
    let nameLen ← read buf (pos + 6) 1
    let fileType ← read buf (pos + 7) 1
    if recLen < 8 ∨ recLen % 4 ≠ 0 ∨ recLen < 8 + nameLen ∨ buf.length < pos + 8 + nameLen then
      some none
    else
      some (some (⟨inode, recLen, nameLen, fileType, pos + 8⟩, min (pos + recLen) buf.length))

variable {buf : List UInt8} {pos pos' : ℕ} {e : DirEntry}

theorem next_eq (h : pos + 8 ≤ buf.length) : next buf pos =
    let recLen := leField buf (pos + 4) 2
    let nameLen := leField buf (pos + 6) 1
    if recLen < 8 ∨ recLen % 4 ≠ 0 ∨ recLen < 8 + nameLen ∨ buf.length < pos + 8 + nameLen then
      some none
    else some (some (⟨leField buf pos 4, recLen, nameLen, leField buf (pos + 7) 1, pos + 8⟩,
      min (pos + recLen) buf.length)) := by
  unfold next
  rw [if_neg (by omega)]
  simp only [read, Option.bind_eq_bind]
  rw [if_pos (by omega), if_pos (by omega), if_pos (by omega), if_pos (by omega)]
  rfl

/-- No index is outside, and an entry lies in the buffer and before the next position. -/
theorem next_spec (buf : List UInt8) (pos : ℕ) : ∃ result, next buf pos = some result ∧
    ∀ e pos', result = some (e, pos') → e.nameOff = pos + 8 ∧ e.nameOff + e.nameLen ≤ buf.length ∧
      e.nameLen < 256 ∧ pos + 8 ≤ pos' ∧ pos' ≤ buf.length := by
  by_cases hend : buf.length < pos + 8
  · exact ⟨none, if_pos hend, nofun⟩
  · rw [next_eq (by omega)]
    dsimp only
    split_ifs with hbad
    · exact ⟨none, rfl, nofun⟩
    · refine ⟨_, rfl, ?_⟩
      rintro e pos' ⟨⟩
      have hbyte : leField buf (pos + 6) 1 < 256 := by
        unfold leField
        cases buf.drop (pos + 6) with
        | nil => decide
        | cons b rest => exact b.toNat_lt
      dsimp only
      omega

theorem next_decreases (h : next buf pos = some (some (e, pos'))) :
    buf.length - pos' < buf.length - pos := by
  obtain ⟨result, hnext, hspec⟩ := next_spec buf pos
  obtain rfl := Option.some.inj (hnext.symm.trans h)
  have := hspec e pos' rfl
  omega

/-- What `DirIter` yields from `pos` on -/
def entries (buf : List UInt8) (pos : ℕ) : Option (List DirEntry) :=
  match _h : next buf pos with
  | none => none
  | some none => some []
  | some (some (e, pos')) => (entries buf pos').map (e :: ·)
termination_by buf.length - pos
decreasing_by exact next_decreases _h

theorem entries_eq : entries buf pos = (next buf pos).bind fun
    | none => some []
    | some (e, pos') => (entries buf pos').map (e :: ·) := by
  rw [entries]
  split <;> simp [*]

theorem entries_spec (buf : List UInt8) (pos : ℕ) : ∃ es, entries buf pos = some es ∧
    es.Pairwise (·.nameOff < ·.nameOff) ∧
    ∀ e ∈ es, pos + 8 ≤ e.nameOff ∧ e.nameOff + e.nameLen ≤ buf.length ∧ e.nameLen < 256 := by
  obtain ⟨result, hnext, hspec⟩ := next_spec buf pos
  rw [entries_eq, hnext]
  cases result with
  | none => exact ⟨[], rfl, .nil, nofun⟩
  | some found =>
    obtain ⟨e, pos'⟩ := found
    have hhere := hspec e pos' rfl
    obtain ⟨es, hes, hsorted, hall⟩ := entries_spec buf pos'
    refine ⟨e :: es, by simp [hes], pairwise_cons.mpr ⟨fun e' he' => ?_, hsorted⟩, ?_⟩
    · have := hall e' he'
      omega
    · rw [forall_mem_cons]
      refine ⟨by omega, fun e' he' => ?_⟩
      have := hall e' he'
      omega
termination_by buf.length - pos
decreasing_by omega

/-- A record as it is put into a block. -/
structure Record where
  inode : UInt32
  fileType : UInt8
  name : List UInt8
  pad : List UInt8
  name_lt : name.length < 256
  aligned : (8 + name.length + pad.length) % 4 = 0
  length_lt : 8 + name.length + pad.length < 2 ^ 16

def Record.bytes (r : Record) : List UInt8 :=
  leBytes 4 r.inode.toNat ++ leBytes 2 (8 + r.name.length + r.pad.length) ++
    UInt8.ofNat r.name.length :: r.fileType :: (r.name ++ r.pad)

theorem Record.length_bytes (r : Record) : r.bytes.length = 8 + r.name.length + r.pad.length := by
  simp [Record.bytes]
  omega

def Record.entry (r : Record) (pos : ℕ) : DirEntry :=
  ⟨r.inode.toNat, r.bytes.length, r.name.length, r.fileType.toNat, pos + 8⟩

theorem next_record (before rest : List UInt8) (r : Record) :
    next (before ++ (r.bytes ++ rest)) before.length =
      some (some (r.entry before.length, before.length + r.bytes.length)) := by
  have hlength := r.length_bytes
  have haligned := r.aligned
  have hinode : leField (r.bytes ++ rest) 0 4 = r.inode.toNat :=
    (leValue_leBytes 4 _).trans (Nat.mod_eq_of_lt r.inode.toNat_lt)
  have hrec : leField (r.bytes ++ rest) 4 2 = r.bytes.length := by
    rw [r.length_bytes]
    exact (leValue_leBytes 2 _).trans (Nat.mod_eq_of_lt r.length_lt)
  have hname : leField (r.bytes ++ rest) 6 1 = r.name.length :=
    (leValue_leBytes 1 _).trans (Nat.mod_eq_of_lt r.name_lt)
  have hall : (before ++ (r.bytes ++ rest)).length =
      before.length + (r.bytes.length + rest.length) := by
    simp only [length_append]
  rw [next_eq (by omega)]
  have hzero := leField_append before (r.bytes ++ rest) 0 4
  rw [Nat.add_zero] at hzero
  simp only [leField_append, hzero, hinode, hrec, hname]
  rw [if_neg (by omega), Nat.min_eq_left (by omega)]
  rfl

theorem entries_records (before : List UInt8) (rs : List Record) :
    let buf := before ++ rs.flatMap Record.bytes
    ∃ es, entries buf before.length = some es ∧
      es.map (fun e => (e.inode, e.recLen, e.fileType, e.nameBytes buf)) =
        rs.map fun r => (r.inode.toNat, r.bytes.length, r.fileType.toNat, r.name) := by
  induction rs generalizing before with
  | nil =>
    refine ⟨[], ?_, rfl⟩
    rw [entries_eq, next, if_pos (by simp)]
    rfl
  | cons r rs ih =>
    obtain ⟨es, hes, hmap⟩ := ih (before ++ r.bytes)
    rw [append_assoc, length_append, ← flatMap_cons] at hes
    rw [append_assoc, ← flatMap_cons] at hmap
    refine ⟨r.entry before.length :: es, ?_, ?_⟩
    · rw [entries_eq, flatMap_cons, next_record, ← flatMap_cons]
      simp only [Option.bind_some, hes, Option.map_some]
    · have hname : drop 8 (r.bytes ++ rs.flatMap Record.bytes) =
          r.name ++ (r.pad ++ rs.flatMap Record.bytes) := append_assoc ..
      have hlength := r.length_bytes
      rw [map_cons, map_cons, hmap, DirEntry.nameBytes, if_pos, Record.entry,
        drop_length_add_append, flatMap_cons, hname, take_left]
      simp only [Record.entry, flatMap_cons, length_append]
      omega

/-- `find_entry` -/
def findEntry (buf name : List UInt8) : Option (Option ℕ) :=
  if name = [] ∨ 255 < name.length then some none
  else (entries buf 0).map fun es => (es.find? fun e => e.inode ≠ 0 ∧ e.nameLen = name.length ∧
    e.nameOff + e.nameLen ≤ buf.length ∧ (buf.drop e.nameOff).take e.nameLen = name).map (·.inode)

/-- The records of a directory block are walked safely, and a name is searched among them. -/
theorem dirIter_safe (buf : List UInt8) : ∃ es, entries buf 0 = some es ∧
    es.Pairwise (·.nameOff < ·.nameOff) ∧
    (∀ e ∈ es, 8 ≤ e.nameOff ∧ e.nameOff + e.nameLen ≤ buf.length) ∧
    (∀ rs : List Record, buf = rs.flatMap Record.bytes →
      es.map (fun e => (e.inode, e.recLen, e.fileType, e.nameBytes buf)) =
        rs.map fun r => (r.inode.toNat, r.bytes.length, r.fileType.toNat, r.name)) ∧
    ∀ name ≠ [], findEntry buf name =
      some ((es.find? fun e => e.inode ≠ 0 ∧ e.nameBytes buf = name).map (·.inode)) := by
  obtain ⟨es, hes, hsorted, hall⟩ := entries_spec buf 0
  refine ⟨es, hes, hsorted, fun e he => by have := hall e he; omega, ?_, fun name hne => ?_⟩
  · rintro rs rfl
    obtain ⟨es', hes', hmap⟩ := entries_records [] rs
    cases hes.symm.trans hes'
    exact hmap
  · rw [findEntry, hes, Option.map_some]
    have hiff : ∀ e ∈ es, e.nameBytes buf = name ↔ ¬ 255 < name.length ∧ e.nameLen = name.length ∧
        e.nameOff + e.nameLen ≤ buf.length ∧ (buf.drop e.nameOff).take e.nameLen = name := by
      intro e he
      obtain ⟨-, hinside, hbyte⟩ := hall e he
      rw [DirEntry.nameBytes, if_pos hinside]
      refine ⟨?_, fun h => h.2.2.2⟩
      rintro rfl
      rw [length_take_of_le (by rw [length_drop]; omega)]
      exact ⟨by omega, rfl, hinside, rfl⟩
    split_ifs with hlong
    · rw [find?_eq_none.mpr fun e he => by simp [hiff e he, hlong.resolve_left hne]]
      rfl
    · congr 2
      refine find?_congr fun e he => ?_
      rw [decide_eq_decide, hiff e he, and_iff_right (not_or.mp hlong).2]

/-- A record in use without a name is yielded, and not found by its name. -/
theorem findEntry_nil : ∃ es, entries [1, 0, 0, 0, 8, 0, 0, 0] 0 = some es ∧
    findEntry [1, 0, 0, 0, 8, 0, 0, 0] [] = some none ∧
    (es.find? fun e => e.inode ≠ 0 ∧ e.nameBytes [1, 0, 0, 0, 8, 0, 0, 0] = []).map (·.inode) =
      some 1 := by
  refine ⟨[⟨1, 8, 0, 0, 8⟩], ?_, by decide, by decide⟩
  rw [entries_eq, show next _ _ = some (some (⟨1, 8, 0, 0, 8⟩, 8)) from rfl]
  simp only [Option.bind_some]
  rw [entries_eq]
  rfl

end Shitix.Ext4
