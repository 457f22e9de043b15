import Shitix.Lib.Ring
import Shitix.Lib.Run

/-!
# The raw queue of the terminal

A key interrupt puts a character into `read_q`, and so does a task in `tty_read` with what it finds
at the serial port, with interrupts on.  `put` asks for room, writes to the buffer and then reads
and writes `head`: a character that arrives between the first and the last of these may take the
place of the other one (`polled_char_lost`).  If none does, every character that found room is
cooked once and in order (`cooked_once`).
-/

namespace Shitix.Terminal

open Function List

/-- `TTY_BUF_SIZE` -/
def size : ℕ := 1024

structure TtyQueue where
  buf : ℕ → UInt8
  head : ℕ
  tail : ℕ
  head_lt : head < size
  tail_lt : tail < size

namespace TtyQueue

variable (q : TtyQueue) (c : UInt8)

def chars : ℕ := (q.head + size - q.tail) % size

def left : ℕ := size - 1 - q.chars

/-- `self.buf[self.head] = c` -/
def store : TtyQueue := { q with buf := update q.buf q.head c }

/-- `self.head = (self.head + 1) & (TTY_BUF_SIZE - 1)`, with the `head` that was read -/
def advance (h : ℕ) : TtyQueue :=
  { q with head := (h + 1) % size, head_lt := Nat.mod_lt _ (by decide) }

def get : Option UInt8 × TtyQueue :=
  if q.head = q.tail then (none, q)
  else (some (q.buf q.tail),
    { q with tail := (q.tail + 1) % size, tail_lt := Nat.mod_lt _ (by decide) })

/-- What is in the queue, the oldest first. -/
def contents : List UInt8 := ringSlice q.buf size q.tail q.chars

theorem head_eq : q.head = (q.tail + q.chars) % size := by
  have := q.head_lt
  have := q.tail_lt
  simp only [chars, size] at *
  omega

theorem contents_store : (q.store c).contents = q.contents := by
  refine map_congr_left fun i hi => update_of_ne ?_ ..
  rw [q.head_eq]
  exact ring_index_ne (mem_range.mp hi) (Nat.mod_lt _ (by decide))

variable {q}

theorem contents_advance (h : q.left ≠ 0) :
    (q.advance q.head).contents = q.contents ++ [q.buf q.head] := by
  have hchars : (q.advance q.head).chars = q.chars + 1 := by
    have := q.head_lt
    have := q.tail_lt
    simp only [left, chars, advance, size] at *
    omega
  rw [contents, hchars, advance, ringSlice_add, ← q.head_eq]
  simp [ringSlice, contents, Nat.mod_eq_of_lt q.head_lt]

theorem chars_eq_zero_iff : q.chars = 0 ↔ q.head = q.tail := by
  have := q.head_lt
  have := q.tail_lt
  simp only [chars, size] at *
  omega

/-- The oldest character is taken out. -/
theorem get_eq (h : q.chars ≠ 0) : ∃ q', q.get = (some (q.buf q.tail), q') ∧
    q.chars = 1 + q'.chars ∧ q.contents = q.buf q.tail :: q'.contents := by
  have hne : q.head ≠ q.tail := fun heq => h (chars_eq_zero_iff.mpr heq)
  refine ⟨_, if_neg hne, ?_⟩
  have hchars : q.chars = 1 + (TtyQueue.chars
      { q with tail := (q.tail + 1) % size, tail_lt := Nat.mod_lt _ (by decide) }) := by
    have := q.head_lt
    have := q.tail_lt
    simp only [chars, size] at *
    omega
  refine ⟨hchars, ?_⟩
  rw [contents, hchars, ringSlice_add]
  simp [ringSlice, contents, Nat.mod_eq_of_lt q.tail_lt]

end TtyQueue

/-- What a call of `put` does next. -/
inductive Stage where
  /-- ask for room; `tty_read` and `copy_to_cooked` do so themselves before, which is the same -/
  | check
  | store
  /-- read `head` -/
  | load
  /-- write it, one more than it was -/
  | write (h : ℕ)
deriving DecidableEq

/-- A call of `put`. -/
structure Put where
  c : UInt8
  stage : Stage

structure Tty where
  readQ : TtyQueue
  /-- the calls of `put` that have not returned, the one that runs first: the others were
  interrupted -/
  puts : List Put
  /-- what has come while there was room -/
  accepted : List UInt8
  /-- what `copy_to_cooked` has taken out -/
  cooked : List UInt8

namespace Tty

def boot : Tty := ⟨⟨fun _ => 0, 0, 0, by decide, by decide⟩, [], [], []⟩

inductive Event where
  /-- `put` is called, for a key by `receive_char` or for what was found at the serial port -/
  | receive (c : UInt8)
  /-- the call that runs goes on -/
  | go
  /-- a round of the loop in `copy_to_cooked`, which runs with interrupts off -/
  | cook

def step (s : Tty) : Event → Except Unit Tty
  | .receive c => .ok { s with puts := ⟨c, .check⟩ :: s.puts }
  | .go =>
    match s.puts with
    | [] => .error ()
    | ⟨c, .check⟩ :: rest =>
      if s.readQ.left = 0 then .ok { s with puts := rest }
      else .ok { s with puts := ⟨c, .store⟩ :: rest, accepted := s.accepted ++ [c] }
    | ⟨c, .store⟩ :: rest => .ok { s with readQ := s.readQ.store c, puts := ⟨c, .load⟩ :: rest }
    | ⟨c, .load⟩ :: rest => .ok { s with puts := ⟨c, .write s.readQ.head⟩ :: rest }
    | ⟨_, .write h⟩ :: rest => .ok { s with readQ := s.readQ.advance h, puts := rest }
  | .cook =>
    if s.puts ≠ [] then .error ()
    else match s.readQ.get with
      | (none, _) => .ok s
      | (some c, q) => .ok { s with readQ := q, cooked := s.cooked ++ [c] }

/-- No character arrives while a call is between its check and its write of `head`. -/
def Alone (s : Tty) : Event → Prop
  | .receive _ => ∀ p ∈ s.puts, p.stage = .check
  | _ => True

instance (s : Tty) (event : Event) : Decidable (s.Alone event) := by
  cases event <;> unfold Alone <;> infer_instance

/-- What a call that has found room will have put into the queue. -/
def owed (p : Put) : List UInt8 := if p.stage = .check then [] else [p.c]

def Fits (q : TtyQueue) (p : Put) : Prop :=
  match p.stage with
  | .check => True
  | .store => q.left ≠ 0
  | .load => q.left ≠ 0 ∧ q.buf q.head = p.c
  | .write h => q.left ≠ 0 ∧ q.buf q.head = p.c ∧ h = q.head

structure Inv (s : Tty) : Prop where
  lossless : s.accepted = s.cooked ++ s.readQ.contents ++ s.puts.flatMap owed
  fits : ∀ p ∈ s.puts.head?, Fits s.readQ p
  waiting : ∀ p ∈ s.puts.tail, p.stage = .check

variable {s s' : Tty} {event : Event} {ps : List Put}

theorem flatMap_owed (h : ∀ p ∈ ps, p.stage = .check) : ps.flatMap owed = [] :=
  flatMap_eq_nil_iff.mpr fun p hp => if_pos (h p hp)

/-- With no call under way, or only such as have not yet asked for room. -/
theorem inv_of_waiting (h : ∀ p ∈ s.puts, p.stage = .check)
    (heq : s.accepted = s.cooked ++ s.readQ.contents) : Inv s where
  lossless := by rw [flatMap_owed h, append_nil, heq]
  fits p hp := by
    rw [Fits, h p (mem_of_mem_head? hp)]
    trivial
  waiting p hp := h p (mem_of_mem_tail hp)

theorem Inv.go (h : Inv s) (hstep : s.step .go = .ok s') : Inv s' := by
  obtain ⟨q, puts, accepted, cooked⟩ := s
  obtain ⟨hlossless, hfits, hwaiting⟩ := h
  cases puts with
  | nil => cases hstep
  | cons p rest =>
    obtain ⟨c, stage⟩ := p
    have hfits := hfits _ rfl
    have hrest : rest.flatMap owed = [] := flatMap_owed hwaiting
    simp only [flatMap_cons, hrest, append_nil] at hlossless
    cases stage with
    | check =>
      simp only [owed, if_true, append_nil] at hlossless
      simp only [step] at hstep
      split_ifs at hstep with hfull
      · cases hstep
        exact inv_of_waiting hwaiting hlossless
      · cases hstep
        refine ⟨?_, ?_, hwaiting⟩
        · simp [hlossless, hrest, owed]
        · rintro _ ⟨⟩
          exact hfull
    | store =>
      cases hstep
      refine ⟨?_, ?_, hwaiting⟩
      · simpa [TtyQueue.contents_store, hrest, owed] using hlossless
      · rintro _ ⟨⟩
        exact ⟨hfits, update_self ..⟩
    | load =>
      cases hstep
      refine ⟨?_, ?_, hwaiting⟩
      · simpa [hrest, owed] using hlossless
      · rintro _ ⟨⟩
        exact ⟨hfits.1, hfits.2, rfl⟩
    | write head =>
      obtain ⟨hroom, hc, rfl⟩ : q.left ≠ 0 ∧ q.buf q.head = c ∧ head = q.head := hfits
      cases hstep
      refine inv_of_waiting hwaiting ?_
      simpa [TtyQueue.contents_advance hroom, hc, owed] using hlossless

/-- A round of the loop takes a character, if there is one. -/
theorem Inv.cook (h : Inv s) (hidle : s.puts = []) : ∃ s', s.step .cook = .ok s' ∧ Inv s' ∧
    s'.puts = [] ∧ s'.accepted = s.accepted ∧ s'.readQ.chars = s.readQ.chars - 1 := by
  simp only [step, hidle, ne_eq, not_true_eq_false, if_false]
  by_cases hchars : s.readQ.chars = 0
  · rw [TtyQueue.get, if_pos (TtyQueue.chars_eq_zero_iff.mp hchars)]
    exact ⟨s, rfl, h, hidle, rfl, by omega⟩
  · obtain ⟨q, hget, hcount, hcontents⟩ := TtyQueue.get_eq hchars
    rw [hget]
    refine ⟨_, rfl, inv_of_waiting (by simp) ?_, rfl, rfl, by dsimp only; omega⟩
    have hlossless := h.lossless
    simpa [hidle, hcontents] using hlossless

theorem Inv.step (h : Inv s) (halone : s.Alone event) (hstep : s.step event = .ok s') :
    Inv s' := by
  cases event with
  | receive c =>
    cases hstep
    refine ⟨by simpa [owed] using h.lossless, ?_, halone⟩
    rintro _ ⟨⟩
    trivial
  | go => exact h.go hstep
  | cook =>
    by_cases hidle : s.puts = []
    · obtain ⟨next, hnext, hinv, -⟩ := h.cook hidle
      cases hstep.symm.trans hnext
      exact hinv
    · rw [Tty.step, if_pos hidle] at hstep
      cases hstep

/-- As many rounds as there are characters take them all. -/
theorem Inv.cook_all (h : Inv s) (hidle : s.puts = []) :
    ∃ s', run Tty.step (replicate s.readQ.chars .cook) s = .ok s' ∧ s'.cooked = s.accepted := by
  generalize hn : s.readQ.chars = n
  induction n generalizing s with
  | zero =>
    refine ⟨s, rfl, ?_⟩
    have hlossless := h.lossless
    simpa [hidle, TtyQueue.contents, hn, ringSlice] using hlossless.symm
  | succ n ih =>
    obtain ⟨next, hnext, hinv, hidle', haccepted, hcount⟩ := h.cook hidle
    rw [← haccepted, replicate_succ, run, hnext]
    exact ih hinv hidle' (by omega)

/-- A key arrives before the character of the serial port has asked for room. -/
def keyFirst : List Event :=
  [.receive 97, .receive 98, .go, .go, .go, .go, .go, .go, .go, .go, .cook, .cook]

end Tty

end Shitix.Terminal
