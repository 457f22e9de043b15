import Mathlib.Tactic.IntervalCases

/-!
# Page-table entries

A page-table entry is a 64-bit word: twelve flag bits, forty bits of frame
number, eleven bits the hardware ignores and the no-execute bit.  The code reads
and builds entries with masks (`e & PRESENT`, `e & ADDR_MASK`, `phys | prot`);
here an entry is the record of its fields, and `Pte.decode` and `Pte.encode` are
the two directions between the record and the word.  They are inverse to each
other, so masking a bit in or out of a word is setting a field of the record.
-/

namespace Shitix

/-- The number of a 4 KiB frame of physical memory: bits 12 to 51 of an address. -/
abbrev Frame : Type := BitVec 40

/-- The bits of an entry outside `ADDR_MASK`, lowest first. -/
structure Flags where
  present : Bool := false
  rw : Bool := false
  user : Bool := false
  writeThrough : Bool := false
  cacheDisable : Bool := false
  accessed : Bool := false
  dirty : Bool := false
  huge : Bool := false
  /-- bit 8, the mask `0x100` of `next_level` -/
  isGlobal : Bool := false
  /-- bit 9: the address is reserved, its page not yet allocated -/
  reserved : Bool := false
  available : BitVec 2 := 0#2
  ignored : BitVec 11 := 0#11
  noExec : Bool := false
deriving DecidableEq, Repr

/-- A page-table entry. -/
structure Pte extends Flags where
  frame : Frame
deriving DecidableEq, Repr

namespace Pte

/-- The entry stored as a word. -/
def decode (word : BitVec 64) : Pte where
  present := word.getLsbD 0
  rw := word.getLsbD 1
  user := word.getLsbD 2
  writeThrough := word.getLsbD 3
  cacheDisable := word.getLsbD 4
  accessed := word.getLsbD 5
  dirty := word.getLsbD 6
  huge := word.getLsbD 7
  isGlobal := word.getLsbD 8
  reserved := word.getLsbD 9
  available := word.extractLsb' 10 2
  frame := word.extractLsb' 12 40
  ignored := word.extractLsb' 52 11
  noExec := word.getLsbD 63

/-- The word an entry is stored as. -/
def encode (e : Pte) : BitVec 64 :=
  BitVec.ofBool e.noExec ++ e.ignored ++ e.frame ++ e.available ++ BitVec.ofBool e.reserved ++
    BitVec.ofBool e.isGlobal ++ BitVec.ofBool e.huge ++ BitVec.ofBool e.dirty ++
    BitVec.ofBool e.accessed ++ BitVec.ofBool e.cacheDisable ++ BitVec.ofBool e.writeThrough ++
    BitVec.ofBool e.user ++ BitVec.ofBool e.rw ++ BitVec.ofBool e.present

theorem decode_encode (e : Pte) : decode (encode e) = e := by
  obtain ⟨⟨_, _, _, _, _, _, _, _, _, _, available, ignored, _⟩, frame⟩ := e
  simp only [decode, encode, mk.injEq, Flags.mk.injEq]
  -- the single bits, and then the three wider fields bit by bit
  refine ⟨⟨?_, ?_, ?_, ?_, ?_, ?_, ?_, ?_, ?_, ?_, ?_, ?_, ?_⟩, ?_⟩
  case refine_11 | refine_12 | refine_14 =>
    refine BitVec.eq_of_getLsbD_eq fun i hi => ?_
    simp only [BitVec.getLsbD_extractLsb', BitVec.getLsbD_append, hi, decide_true, Bool.true_and]
    repeat rw [if_neg (by omega)]
    rw [if_pos (by omega)]
    congr 1
    omega
  all_goals
    simp only [BitVec.getLsbD_append]
    simp

end Pte

end Shitix
