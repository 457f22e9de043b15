import Shitix.Lib.ByteMem

/-!
# The kernel log

`printk` puts its messages byte by byte into a ring, and `read_log` gives the last of them back.
The number of bytes ever logged, a machine word, tells how full it is.  After 2^64 bytes the build
with overflow checks has stopped, and in the other one the log is empty again.
-/

namespace Shitix.Klib

open Function List

structure LogBuf where
  /-- `LOG_BUF_LEN` bytes -/
  buf : Fin 4096 → UInt8
  head : ℕ
  total : ℕ

/-- A text formatted for `_printk`, or for `_printk_level`, which gets its level apart. -/
inductive Message
  | printk (text : List UInt8)
  | level (text : List UInt8)

/-- What is logged of the text: 1024 bytes at most, for `_printk` without a level in front. -/
def Message.body : Message → List UInt8
  | .level text => text.take 1024
  | .printk text =>
    match text.take 1024 with
    | 0x3c :: digit :: 0x3e :: body =>
      if 0x30 ≤ digit ∧ digit ≤ 0x39 then body else 0x3c :: digit :: 0x3e :: body
    | body => body

namespace LogBuf

def empty : LogBuf := ⟨fun _ => 0, 0, 0⟩

/-- One turn of the loop of `emit_locked`, which needs its index in the ring.  With overflow checks
the addition to `total` may stop. -/
def put (checked : Bool) (lb : LogBuf) (b : UInt8) : Option LogBuf :=
  if h : lb.head < 4096 then
    if checked ∧ lb.total + 1 = 2 ^ 64 then none
    else some ⟨update lb.buf ⟨lb.head, h⟩ b, (lb.head + 1) % 4096, (lb.total + 1) % 2 ^ 64⟩
  else none

def emitLocked (checked : Bool) (lb : LogBuf) (msg : Message) : Option LogBuf :=
  msg.body.foldlM (put checked) lb

/-- `read_log` for a slice of `room` bytes -/
def readLog (lb : LogBuf) (room : ℕ) : List UInt8 :=
  let size := min lb.total 4096
  let start := if 4096 < lb.total then lb.head else 0
  let n := min size room
  (range n).map fun i => lb.buf (Fin.ofNat _ (start + (size - n) + i))

/-- The ring has the last of the bytes logged. -/
structure Holds (lb : LogBuf) (bytes : List UInt8) : Prop where
  head : lb.head = bytes.length % 4096
  total : lb.total = bytes.length % 2 ^ 64
  cell : ∀ k b, bytes[k]? = some b → bytes.length ≤ k + 4096 → lb.buf (Fin.ofNat _ k) = b

theorem empty_holds : Holds empty [] := ⟨rfl, rfl, by simp⟩

variable {checked : Bool} {lb : LogBuf} {bytes : List UInt8}

theorem Holds.put (h : Holds lb bytes) (hroom : checked → bytes.length + 1 < 2 ^ 64) (b : UInt8) :
    ∃ lb', lb.put checked b = some lb' ∧ Holds lb' (bytes ++ [b]) := by
  have hhead := h.head
  have htotal := h.total
  have hlt : lb.head < 4096 := by omega
  have hgoes : ¬ (checked ∧ lb.total + 1 = 2 ^ 64) := fun ⟨hchecked, hfull⟩ => by
    have := hroom hchecked
    omega
  refine ⟨_, (dif_pos hlt).trans (if_neg hgoes), by simp [hhead], by simp [htotal], ?_⟩
  intro k b' hk hlast
  have hcell : (⟨lb.head, hlt⟩ : Fin 4096) = Fin.ofNat _ bytes.length := Fin.ext hhead
  rw [length_append, length_singleton] at hlast
  simp only [hcell]
  rcases Nat.lt_trichotomy k bytes.length with hold | rfl | hout
  · -- an older byte the ring still has is in another cell
    rw [getElem?_append_left hold] at hk
    rw [update_of_ne, h.cell k b' hk (by omega)]
    intro heq
    have := congrArg Fin.val heq
    simp only [Fin.val_ofNat] at this
    omega
  · rw [update_self]
    simpa using hk
  · rw [getElem?_eq_none (by simpa [Nat.succ_le_iff] using hout)] at hk
    cases hk

theorem Holds.foldlM (h : Holds lb bytes) (more : List UInt8)
    (hroom : checked → (bytes ++ more).length < 2 ^ 64) :
    ∃ lb', more.foldlM (LogBuf.put checked) lb = some lb' ∧ Holds lb' (bytes ++ more) := by
  induction more generalizing lb bytes with
  | nil => exact ⟨lb, rfl, by rwa [append_nil]⟩
  | cons b more ih =>
    rw [← singleton_append, ← append_assoc] at hroom ⊢
    obtain ⟨lb₁, hput, h₁⟩ := h.put (fun hchecked => by
      have := hroom hchecked
      simp only [length_append, length_singleton] at this
      omega) b
    obtain ⟨lb', hrun, h'⟩ := ih h₁ hroom
    refine ⟨lb', ?_, h'⟩
    rw [singleton_append, foldlM_cons, hput]
    exact hrun

/-- The messages go into the ring like one text. -/
theorem foldlM_emitLocked (msgs : List Message) : msgs.foldlM (emitLocked checked) lb =
    (msgs.flatMap Message.body).foldlM (LogBuf.put checked) lb := by
  induction msgs generalizing lb with
  | nil => rfl
  | cons msg msgs ih =>
    rw [foldlM_cons, flatMap_cons, foldlM_append]
    exact congrArg _ (funext fun _ => ih)

theorem Holds.readLog (h : Holds lb bytes) (room : ℕ) : lb.readLog room =
    bytes.drop (bytes.length - min (min (bytes.length % 2 ^ 64) 4096) room) := by
  refine ext_getElem ?_ fun i hi hi' => ?_
  · simp only [LogBuf.readLog, h.total, length_map, length_range, length_drop]
    omega
  · rw [length_drop] at hi'
    simp only [LogBuf.readLog, getElem_map, getElem_range, getElem_drop]
    rw [← h.cell _ _ (getElem?_eq_getElem _) (by omega)]
    congr 1
    apply Fin.ext
    rw [Fin.val_ofNat, Fin.val_ofNat, h.total, h.head]
    -- 4096 divides 2^64: the cells are the same before and after the word has wrapped
    split_ifs <;> omega

/-- In both builds: while fewer than 2^64 bytes were logged no index leaves the ring, and what is
read is the end of what was logged, as much as the ring and the slice allow. -/
theorem readLog_of_run (checked : Bool) (msgs : List Message) (room : ℕ)
    (hlogged : (msgs.flatMap Message.body).length < 2 ^ 64) :
    ∃ lb, msgs.foldlM (emitLocked checked) empty = some lb ∧
      let bytes := msgs.flatMap Message.body
      lb.readLog room = bytes.drop (bytes.length - min (min bytes.length 4096) room) := by
  obtain ⟨lb, hrun, h⟩ := empty_holds.foldlM (msgs.flatMap Message.body) fun _ => hlogged
  refine ⟨lb, (foldlM_emitLocked msgs).trans hrun, ?_⟩
  rw [nil_append] at h
  rw [h.readLog, Nat.mod_eq_of_lt hlogged]

/-- Five messages of 1024 bytes: the ring has wrapped. -/
theorem readLog_of_five :
    ∃ lb, (replicate 5 (.level (replicate 1024 0x2e))).foldlM (emitLocked true) empty = some lb ∧
      lb.readLog 9 = replicate 9 0x2e := by
  have hbytes : (replicate 5 (Message.level (replicate 1024 0x2e))).flatMap Message.body =
      replicate (5 * 1024) 0x2e := by
    rw [flatMap_replicate, Message.body, take_replicate, Nat.min_self, flatten_replicate_replicate]
  obtain ⟨lb, hrun, hread⟩ := readLog_of_run true (replicate 5 (.level (replicate 1024 0x2e))) 9
    (by rw [hbytes, length_replicate]; decide)
  refine ⟨lb, hrun, hread.trans ?_⟩
  rw [hbytes, drop_replicate, length_replicate]
  rfl

/-- After 2^54 messages of 1024 bytes the build with overflow checks has stopped, and the other one
reads nothing, even for one byte of room. -/
theorem log_lost_after_wrap : ∃ msgs : List Message,
    msgs.foldlM (emitLocked true) empty = none ∧
      ∃ lb, msgs.foldlM (emitLocked false) empty = some lb ∧
        let bytes := msgs.flatMap Message.body
        lb.readLog 1 ≠ bytes.drop (bytes.length - min (min bytes.length 4096) 1) := by
  obtain ⟨msgs, hlen⟩ : ∃ msgs : List Message, (msgs.flatMap Message.body).length = 2 ^ 64 := by
    refine ⟨replicate (2 ^ 54) (.level (replicate 1024 0x2e)), ?_⟩
    rw [length_flatMap, map_replicate, sum_replicate_nat, Message.body, length_take,
      length_replicate]
    rfl
  refine ⟨msgs, ?_, ?_⟩
  · rw [foldlM_emitLocked]
    obtain hnil | ⟨front, b, hbytes⟩ := eq_nil_or_concat (msgs.flatMap Message.body)
    · rw [hnil] at hlen
      cases hlen
    rw [concat_eq_append] at hbytes
    rw [hbytes, length_append, length_singleton] at hlen
    obtain ⟨lb, hrun, h⟩ := empty_holds.foldlM front fun _ : true = true => by
      rw [nil_append]
      omega
    have htotal := h.total
    rw [nil_append, Nat.mod_eq_of_lt (by omega)] at htotal
    have hstop : lb.put true b = none := by simp [LogBuf.put, htotal, hlen]
    rw [hbytes, foldlM_append, hrun]
    simp [hstop]
  · obtain ⟨lb, hrun, h⟩ := empty_holds.foldlM (msgs.flatMap Message.body)
      fun hfalse : false = true => absurd hfalse Bool.false_ne_true
    refine ⟨lb, (foldlM_emitLocked msgs).trans hrun, fun heq => ?_⟩
    have := congrArg length ((h.readLog 1).symm.trans heq)
    simp only [nil_append, length_drop, hlen] at this
    omega

end LogBuf

end Shitix.Klib
