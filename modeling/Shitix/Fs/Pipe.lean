import Mathlib.Data.Fintype.Basic
import Shitix.Lib.Ring
import Shitix.Lib.Run

/-!
# Pipes

The transfers of `fs/pipe.rs`.  A pipe is a page: `PipeMeta` at its start, a ring of bytes behind
it.  `pipe_read` and `pipe_write` may sleep between two rounds of their loops, and then any other
task may run; `pipe_read_kernel`, `pipe_write_kernel` and `pipe_peek_kernel` never sleep.  The
copies from and to the user all succeed here.  The page is used through its physical address in
whatever tables are loaded, and a load or store there is taken to reach the page.

Over every run what was read is the beginning of what was written, in order, and what is in the
ring is the rest (`Sound`).  A sleeper holds an end of the pipe, so the page is not freed under it.
A `pipe_read` that was asked for something returns 0 only at the end (`pipe_run`); the routines
that do not sleep return 0 from an empty pipe also if there is a writer (`kernel_read_gets_zero`).
-/

namespace Shitix.Pipes

open List Function

/-- A slot of the task table. -/
abbrev Task : Type := Fin 64

def pipeBufSize : ℕ := 4096

/-- `buf_offset`, the size of `PipeMeta` -/
def bufOffset : ℕ := 48

def ringSize : ℕ := pipeBufSize - bufOffset

def epipe : ℤ := 32

/-! ## The page -/

/-- The page of a pipe, and which ranges of it were read or written. -/
structure Pipe where
  len : ℕ
  readPos : ℕ
  writePos : ℕ
  writers : ℕ
  readers : ℕ
  ring : ℕ → UInt8
  touched : List (ℕ × ℕ)

namespace Pipe

/-- A pipe from `alloc_pipe`. -/
def new : Pipe where
  len := 0
  readPos := 0
  writePos := 0
  writers := 1
  readers := 1
  ring _ := 0
  touched := []

variable (p : Pipe)

/-- An access to the ring. -/
def touch (pos n : ℕ) : Pipe := { p with touched := (bufOffset + pos, n) :: p.touched }

/-- The transfer of `pipe_read` and `pipe_read_kernel`. -/
def fetch (count : ℕ) : List UInt8 × Pipe :=
  let n := min count p.len
  let first := min n (ringSize - p.readPos)
  let bytes := cellsFrom p.ring p.readPos first
  let p := { p.touch p.readPos first with
    readPos := (p.readPos + first) % ringSize, len := p.len - first }
  if first < n then
    let second := n - first
    (bytes ++ cellsFrom p.ring 0 second,
      { p.touch 0 second with readPos := second, len := p.len - second })
  else (bytes, p)

/-- The transfer of `pipe_write` and `pipe_write_kernel`. -/
def deposit (data : List UInt8) : ℕ × Pipe :=
  let n := min data.length (ringSize - p.len)
  let first := min n (ringSize - p.writePos)
  let p := { p.touch p.writePos first with
    ring := store p.ring p.writePos (data.take first)
    writePos := (p.writePos + first) % ringSize, len := p.len + first }
  if first < n then
    let second := n - first
    (n, { p.touch 0 second with
      ring := store p.ring 0 ((data.drop first).take second)
      writePos := second, len := p.len + second })
  else (n, p)

/-- The transfer of `pipe_peek_kernel`. -/
def look (count : ℕ) : List UInt8 × Pipe :=
  let n := min count p.len
  let first := min n (ringSize - p.readPos)
  let bytes := cellsFrom p.ring p.readPos first
  let p := p.touch p.readPos first
  if first < n then (bytes ++ cellsFrom p.ring 0 (n - first), p.touch 0 (n - first))
  else (bytes, p)

/-- The bytes in the ring, first to last. -/
def contents : List UInt8 := ringSlice p.ring ringSize p.readPos p.len

end Pipe

/-! ## Calls and tasks -/

/-- Where a task is. -/
inductive Kont where
  /-- not in a call on the pipe -/
  | idle
  /-- asleep in `pipe_read` -/
  | reading (count : ℕ)
  /-- asleep in `pipe_write`, with so many bytes written -/
  | writing (data : List UInt8) (total : ℕ)
deriving DecidableEq, Repr

/-- The pipe, the tasks, and what was written and read so far. -/
structure State where
  /-- `PIPE_PAGES[idx]` -/
  page : Option Pipe
  kont : Task → Kont
  accepted : List UInt8
  obtained : List UInt8

/-- A new pipe. -/
def State.start : State := ⟨some .new, fun _ => .idle, [], []⟩

/-- What a call returns, and the bytes it copies out. -/
structure Reply where
  value : ℤ
  bytes : List UInt8
deriving DecidableEq, Repr

/-- The end of a pipe. -/
inductive Dir where
  | read
  | write
deriving DecidableEq, Repr

/-- What happens to the pipe.  A call comes with whether its buffer is null. -/
inductive Event where
  | read (t : Task) (null : Bool) (count : ℕ)
  | write (t : Task) (null : Bool) (data : List UInt8)
  | readKernel (null : Bool) (count : ℕ)
  | writeKernel (null : Bool) (data : List UInt8)
  | peekKernel (null : Bool) (count : ℕ)
  /-- a sleeper runs again -/
  | resume (t : Task)
  /-- an end is duplicated -/
  | dup (dir : Dir)
  /-- an end is closed -/
  | close (dir : Dir)

/-- The event cannot happen. -/
inductive Stuck where
  | stuck
deriving DecidableEq, Repr

namespace State

variable (s : State) (t : Task) (p : Pipe)

def setKont (kont : Kont) : State := { s with kont := update s.kont t kont }

/-- Bytes are read. -/
def give (bytes : List UInt8) (p : Pipe) : State :=
  { s with page := some p, obtained := s.obtained ++ bytes }

/-- Bytes are written. -/
def accept (bytes : List UInt8) (p : Pipe) : State :=
  { s with page := some p, accepted := s.accepted ++ bytes }

/-- A round of the loop of `pipe_read`.  It returns after the first transfer, so at the checks
behind it nothing has been read. -/
def readRound (count : ℕ) : State × Option Reply :=
  if 0 < p.len then
    let (bytes, p) := p.fetch count
    ((s.give bytes p).setKont t .idle, some ⟨bytes.length, bytes⟩)
  else if p.writers = 0 then (s.setKont t .idle, some ⟨0, []⟩)
  else (s.setKont t (.reading count), none)

/-- A round of the loop of `pipe_write`. -/
def writeRound (data : List UInt8) (total : ℕ) : State × Option Reply :=
  if p.readers = 0 then (s.setKont t .idle, some ⟨-epipe, []⟩)
  else if 0 < ringSize - p.len then
    let rest := data.drop total
    let (n, p) := p.deposit rest
    let s := s.accept (rest.take n) p
    if data.length ≤ total + n then (s.setKont t .idle, some ⟨(total + n : ℕ), []⟩)
    else if p.readers = 0 then (s.setKont t .idle, some ⟨-epipe, []⟩)
    else (s.setKont t (.writing data (total + n)), none)
  else (s.setKont t (.writing data total), none)

def pipeReadKernel (null : Bool) (count : ℕ) : State × Reply :=
  if null ∨ count = 0 then (s, ⟨0, []⟩)
  else
    match s.page with
    | none => (s, ⟨0, []⟩)
    | some p =>
      if p.len = 0 then (s, ⟨0, []⟩)
      else
        let (bytes, p) := p.fetch count
        (s.give bytes p, ⟨bytes.length, bytes⟩)

def pipeWriteKernel (null : Bool) (data : List UInt8) : State × Reply :=
  if null ∨ data.length = 0 then (s, ⟨0, []⟩)
  else
    match s.page with
    | none => (s, ⟨0, []⟩)
    | some p =>
      if p.readers = 0 then (s, ⟨-epipe, []⟩)
      else if ringSize - p.len = 0 then (s, ⟨0, []⟩)
      else
        let (n, p) := p.deposit data
        (s.accept (data.take n) p, ⟨n, []⟩)

def pipePeekKernel (null : Bool) (count : ℕ) : State × Reply :=
  if null ∨ count = 0 then (s, ⟨0, []⟩)
  else
    match s.page with
    | none => (s, ⟨0, []⟩)
    | some p =>
      if p.len = 0 then (s, ⟨0, []⟩)
      else
        let (bytes, p) := p.look count
        ({ s with page := some p }, ⟨bytes.length, bytes⟩)

/-- `dup_fd`, as far as the counts go -/
def dupEnd (dir : Dir) : State :=
  { s with page := s.page.map fun p =>
    match dir with
    | .read => { p with readers := min 255 (p.readers + 1) }
    | .write => { p with writers := min 255 (p.writers + 1) } }

/-- One end less. -/
def lessEnd : Dir → Pipe
  | .read => { p with readers := p.readers - 1 }
  | .write => { p with writers := p.writers - 1 }

/-- `close_fd`, as far as the counts go.  A task that sleeps in a call holds the end it was called
with, so its page is not freed then; a run that frees it is `stuck`, and nothing is said about it.
The kernel does run on so with more than 255 descriptors of an end: the counts stay at 255, and
the page goes when 255 of them are closed. -/
def closeEnd (dir : Dir) : Except Stuck State :=
  match s.page with
  | none => .ok s
  | some p =>
    let p := lessEnd p dir
    if p.readers = 0 ∧ p.writers = 0 then
      if ∀ t, s.kont t = .idle then .ok { s with page := none } else .error .stuck
    else .ok { s with page := some p }

/-- What happens, and what the call returns if one does. -/
def act : Event → Except Stuck (State × Option Reply)
  | .read t null count =>
    if s.kont t ≠ .idle then .error .stuck
    else if null ∨ count = 0 then .ok (s, some ⟨0, []⟩)
    else
      match s.page with
      | none => .ok (s, some ⟨0, []⟩)
      | some p => .ok (s.readRound t p count)
  | .write t null data =>
    if s.kont t ≠ .idle then .error .stuck
    else if null ∨ data.length = 0 then .ok (s, some ⟨0, []⟩)
    else
      match s.page with
      | none => .ok (s, some ⟨0, []⟩)
      | some p => .ok (s.writeRound t p data 0)
  | .readKernel null count =>
    .ok ((s.pipeReadKernel null count).1, some (s.pipeReadKernel null count).2)
  | .writeKernel null data =>
    .ok ((s.pipeWriteKernel null data).1, some (s.pipeWriteKernel null data).2)
  | .peekKernel null count =>
    .ok ((s.pipePeekKernel null count).1, some (s.pipePeekKernel null count).2)
  | .resume t =>
    match s.kont t, s.page with
    -- the condition of `sleep_on_while` is looked at again
    | .reading count, some p =>
      if p.len = 0 ∧ p.writers ≠ 0 then .ok (s, none) else .ok (s.readRound t p count)
    | .writing data total, some p =>
      if ringSize ≤ p.len ∧ p.readers ≠ 0 then .ok (s, none) else .ok (s.writeRound t p data total)
    | _, _ => .error .stuck
  | .dup dir => .ok (s.dupEnd dir, none)
  | .close dir => (s.closeEnd dir).map fun s => (s, none)

def step (event : Event) : Except Stuck State := (s.act event).map Prod.fst

end State

/-! ## The ring -/

/-- The positions fit, and no access has left the page. -/
structure Fits (p : Pipe) : Prop where
  len_le : p.len ≤ ringSize
  readPos_lt : p.readPos < ringSize
  writePos_eq : p.writePos = (p.readPos + p.len) % ringSize
  inside : ∀ range ∈ p.touched, bufOffset ≤ range.1 ∧ range.1 + range.2 ≤ pipeBufSize

variable {p p' : Pipe} {s s' : State} {t : Task} {count n : ℕ} {data : List UInt8}
  {reply : Option Reply} {event : Event}

theorem ringSize_pos : 0 < ringSize := by decide

theorem Fits.touch {pos : ℕ} (h : Fits p) (hpos : pos + n ≤ ringSize) : Fits (p.touch pos n) where
  len_le := h.len_le
  readPos_lt := h.readPos_lt
  writePos_eq := h.writePos_eq
  inside range hmem := by
    rcases mem_cons.mp hmem with rfl | hold
    · have hsize : bufOffset + ringSize ≤ pipeBufSize := by decide
      omega
    · exact h.inside range hold

/-- A part that does not go around goes out at the front. -/
def pop (p : Pipe) (n : ℕ) : Pipe :=
  { p.touch p.readPos n with readPos := (p.readPos + n) % ringSize, len := p.len - n }

/-- A part that does not go around comes in at the end. -/
def push (p : Pipe) (data : List UInt8) : Pipe :=
  { p.touch p.writePos data.length with
    ring := store p.ring p.writePos data
    writePos := (p.writePos + data.length) % ringSize, len := p.len + data.length }

theorem Fits.pop (h : Fits p) (hlen : n ≤ p.len) (hstraight : p.readPos + n ≤ ringSize) :
    Fits (pop p n) where
  len_le := (Nat.sub_le _ _).trans h.len_le
  readPos_lt := Nat.mod_lt _ ringSize_pos
  writePos_eq := by
    have hsum : p.readPos + n + (p.len - n) = p.readPos + p.len := by omega
    change p.writePos = ((p.readPos + n) % ringSize + (p.len - n)) % ringSize
    rw [Nat.mod_add_mod, hsum, h.writePos_eq]
  inside := (h.touch hstraight).inside

theorem contents_pop (hlen : n ≤ p.len) (hstraight : p.readPos + n ≤ ringSize) :
    p.contents = cellsFrom p.ring p.readPos n ++ (pop p n).contents := by
  have hsplit : p.len = n + (p.len - n) := by omega
  unfold Pipe.contents
  rw [hsplit, ringSlice_add, ringSlice_straight hstraight]
  rfl

section

variable (h : Fits p) (hroom : p.len + data.length ≤ ringSize)
  (hstraight : p.writePos + data.length ≤ ringSize)

include h hroom hstraight

theorem Fits.push : Fits (push p data) where
  len_le := hroom
  readPos_lt := h.readPos_lt
  writePos_eq := by
    change (p.writePos + data.length) % ringSize = (p.readPos + (p.len + data.length)) % ringSize
    rw [h.writePos_eq, Nat.mod_add_mod, add_assoc]
  inside := (h.touch hstraight).inside

theorem contents_push : (push p data).contents = p.contents ++ data :=
  ringSlice_store h.writePos_eq hroom hstraight

end

/-- What a read makes of the pipe. -/
structure Fetched (p : Pipe) (count : ℕ) (bytes : List UInt8) (p' : Pipe) : Prop where
  fits : Fits p'
  contents : p.contents = bytes ++ p'.contents
  length : bytes.length = min count p.len
  readers : p'.readers = p.readers
  writers : p'.writers = p.writers

/-- The second part of a read starts at the beginning of the ring. -/
theorem pop_of_zero (hpos : p.readPos = 0) (hn : n < ringSize) :
    pop p n = { p.touch 0 n with readPos := n, len := p.len - n } := by
  unfold pop
  rw [hpos, zero_add, Nat.mod_eq_of_lt hn]

theorem fetch_fetched (h : Fits p) (count : ℕ) : Fetched p count (p.fetch count).1 (p.fetch count).2
    := by
  have hpos := h.readPos_lt
  have hle := h.len_le
  unfold Pipe.fetch
  dsimp only
  generalize hn : min count p.len = n
  generalize hfirst : min n (ringSize - p.readPos) = first
  have hfits : Fits (pop p first) := h.pop (by omega) (by omega)
  have hcontents : p.contents = cellsFrom p.ring p.readPos first ++ (pop p first).contents :=
    contents_pop (by omega) (by omega)
  split_ifs with htwo
  · -- the first part ends at the end of the ring
    have hend : p.readPos + first = ringSize := by omega
    have hzero : (pop p first).readPos = 0 := (congrArg (· % ringSize) hend).trans (Nat.mod_self _)
    have hlen : (pop p first).len = p.len - first := rfl
    have hagain : (pop p first).contents =
        cellsFrom p.ring 0 (n - first) ++ (pop (pop p first) (n - first)).contents := by
      rw [contents_pop (n := n - first) (by omega) (by omega), hzero]
      rfl
    have hfits' : Fits (pop (pop p first) (n - first)) := hfits.pop (by omega) (by omega)
    rw [pop_of_zero hzero (by omega)] at hagain hfits'
    refine ⟨hfits', ?_, ?_, rfl, rfl⟩
    · rw [hcontents, hagain, append_assoc]
      rfl
    · rw [length_append, length_cellsFrom, length_cellsFrom]
      omega
  · refine ⟨hfits, hcontents, ?_, rfl, rfl⟩
    rw [length_cellsFrom]
    omega

/-- What a write makes of the pipe. -/
structure Deposited (p : Pipe) (data : List UInt8) (n : ℕ) (p' : Pipe) : Prop where
  fits : Fits p'
  contents : p'.contents = p.contents ++ data.take n
  count : n = min data.length (ringSize - p.len)
  readers : p'.readers = p.readers
  writers : p'.writers = p.writers

theorem deposit_deposited (h : Fits p) (data : List UInt8) :
    Deposited p data (p.deposit data).1 (p.deposit data).2 := by
  have hpos : p.writePos < ringSize := by
    rw [h.writePos_eq]
    exact Nat.mod_lt _ ringSize_pos
  have hle := h.len_le
  unfold Pipe.deposit
  dsimp only
  generalize hn : min data.length (ringSize - p.len) = n
  generalize hfirst : min n (ringSize - p.writePos) = first
  have htake : (data.take first).length = first := by
    rw [length_take]
    omega
  have hpush : push p (data.take first) = { p.touch p.writePos first with
      ring := store p.ring p.writePos (data.take first)
      writePos := (p.writePos + first) % ringSize, len := p.len + first } := by
    unfold push
    rw [htake]
  have hfits : Fits (push p (data.take first)) := h.push (by omega) (by omega)
  have hcontents : (push p (data.take first)).contents = p.contents ++ data.take first :=
    contents_push h (by omega) (by omega)
  split_ifs with htwo
  · have hend : p.writePos + first = ringSize := by omega
    have hsecond : ((data.drop first).take (n - first)).length = n - first := by
      rw [length_take, length_drop]
      omega
    have hzero : (push p (data.take first)).writePos = 0 := by
      rw [hpush]
      exact (congrArg (· % ringSize) hend).trans (Nat.mod_self _)
    have hlen : (push p (data.take first)).len = p.len + first := congrArg Pipe.len hpush
    have hfits' : Fits (push (push p (data.take first)) ((data.drop first).take (n - first))) :=
      hfits.push (by omega) (by omega)
    have hagain : (push (push p (data.take first)) ((data.drop first).take (n - first))).contents =
        p.contents ++ data.take n := by
      have hdata : data.take n = data.take first ++ (data.drop first).take (n - first) := by
        rw [← take_add, Nat.add_sub_cancel' (by omega)]
      rw [contents_push hfits (by omega) (by omega), hcontents, hdata, append_assoc]
    rw [push, hzero, zero_add, Nat.mod_eq_of_lt (by omega), hsecond, hpush] at hagain hfits'
    exact ⟨hfits', hagain, hn.symm, rfl, rfl⟩
  · have heq : first = n := by omega
    rw [hpush] at hfits hcontents
    refine ⟨hfits, ?_, hn.symm, rfl, rfl⟩
    rw [← heq]
    exact hcontents

theorem look_spec (h : Fits p) (count : ℕ) :
    Fits (p.look count).2 ∧ (p.look count).1 = (p.fetch count).1 ∧
      (p.look count).2.contents = p.contents := by
  have hpos := h.readPos_lt
  have hle := h.len_le
  unfold Pipe.look Pipe.fetch
  dsimp only
  have hfits : Fits (p.touch p.readPos (min (min count p.len) (ringSize - p.readPos))) :=
    h.touch (by omega)
  split_ifs
  · exact ⟨hfits.touch (by omega), rfl, rfl⟩
  · exact ⟨hfits, rfl, rfl⟩

/-! ## Runs -/

/-- What holds in every state. -/
structure Sound (s : State) : Prop where
  fits : ∀ p, s.page = some p → Fits p
  /-- what is in the ring was written and not read yet -/
  queue : ∀ p, s.page = some p → s.obtained ++ p.contents = s.accepted
  begins : s.obtained <+: s.accepted
  asked : ∀ t count, s.kont t = .reading count → 0 < count

theorem sound_start : Sound .start where
  fits p hp := by
    cases hp
    exact ⟨by decide, by decide, rfl, fun range hmem => absurd hmem not_mem_nil⟩
  queue p hp := by
    cases hp
    rfl
  begins := prefix_rfl
  asked t count hkont := by cases hkont

theorem Sound.setKont {kont : Kont} (h : Sound s)
    (hkont : ∀ count, kont = .reading count → 0 < count) :
    Sound (s.setKont t kont) where
  fits := h.fits
  queue := h.queue
  begins := h.begins
  asked t' count hread := by
    by_cases heq : t' = t
    · subst heq
      exact hkont count ((update_self ..).symm.trans hread)
    · exact h.asked t' count ((update_of_ne heq ..).symm.trans hread)

theorem Sound.idle (h : Sound s) (t : Task) : Sound (s.setKont t .idle) :=
  h.setKont fun _ hread => Kont.noConfusion hread

/-- The page is another, and so is what was read and written. -/
theorem Sound.page {obtained accepted : List UInt8} (h : Sound s) (hfits : Fits p)
    (hqueue : obtained ++ p.contents = accepted) :
    Sound { s with page := some p, obtained := obtained, accepted := accepted } where
  fits p' hp := by
    cases hp
    exact hfits
  queue p' hp := by
    cases hp
    exact hqueue
  begins := ⟨p.contents, hqueue⟩
  asked := h.asked

section

variable (h : Sound s) (hp : s.page = some p)

include h hp

theorem Sound.give (count : ℕ) : Sound (s.give (p.fetch count).1 (p.fetch count).2) := by
  have hfetched := fetch_fetched (h.fits p hp) count
  refine h.page hfetched.fits ?_
  rw [append_assoc, ← hfetched.contents]
  exact h.queue p hp

theorem Sound.accept (data : List UInt8) :
    Sound (s.accept (data.take (p.deposit data).1) (p.deposit data).2) := by
  have hdeposited := deposit_deposited (h.fits p hp) data
  refine h.page hdeposited.fits ?_
  rw [hdeposited.contents, ← append_assoc, h.queue p hp]

theorem Sound.readRound (hcount : 0 < count) (t : Task) : Sound (s.readRound t p count).1 := by
  unfold State.readRound
  split_ifs
  · exact (h.give hp count).idle t
  · exact h.idle t
  · refine h.setKont fun count' hread => ?_
    cases hread
    exact hcount

theorem Sound.writeRound (t : Task) (data : List UInt8)
    (total : ℕ) : Sound (s.writeRound t p data total).1 := by
  have hsleep : ∀ {s : State} (total : ℕ), Sound s → Sound (s.setKont t (.writing data total)) :=
    fun _ h => h.setKont fun _ hread => Kont.noConfusion hread
  unfold State.writeRound
  dsimp only
  split_ifs
  · exact h.idle t
  · exact (h.accept hp _).idle t
  · exact (h.accept hp _).idle t
  · exact hsleep _ (h.accept hp _)
  · exact hsleep _ h

end

section

variable (h : Sound s)

include h

theorem Sound.pipeReadKernel (null : Bool) (count : ℕ) : Sound (s.pipeReadKernel null count).1 := by
  unfold State.pipeReadKernel
  split_ifs
  · exact h
  cases hp : s.page with
  | none => exact h
  | some p =>
    dsimp only
    split_ifs
    · exact h
    · exact h.give hp count

theorem Sound.pipeWriteKernel (null : Bool) (data : List UInt8) :
    Sound (s.pipeWriteKernel null data).1 := by
  unfold State.pipeWriteKernel
  split_ifs
  · exact h
  cases hp : s.page with
  | none => exact h
  | some p =>
    dsimp only
    split_ifs
    · exact h
    · exact h
    · exact h.accept hp data

theorem Sound.pipePeekKernel (null : Bool) (count : ℕ) : Sound (s.pipePeekKernel null count).1 := by
  unfold State.pipePeekKernel
  split_ifs
  · exact h
  cases hp : s.page with
  | none => exact h
  | some p =>
    obtain ⟨hfits, -, hcontents⟩ := look_spec (h.fits p hp) count
    dsimp only
    split_ifs
    · exact h
    · refine h.page hfits ?_
      rw [hcontents]
      exact h.queue p hp

/-- The counts of the ends have nothing to do with the ring. -/
theorem Sound.ends {readers writers : ℕ} (hp : s.page = some p) :
    Sound { s with page := some { p with readers := readers, writers := writers } } := by
  have hfits := h.fits p hp
  exact h.page ⟨hfits.len_le, hfits.readPos_lt, hfits.writePos_eq, hfits.inside⟩ (h.queue p hp)

theorem Sound.dupEnd (dir : Dir) : Sound (s.dupEnd dir) := by
  unfold State.dupEnd
  cases hp : s.page with
  | none => exact ⟨nofun, nofun, h.begins, h.asked⟩
  | some p =>
    cases dir with
    | read | write => exact h.ends hp

theorem Sound.closeEnd {dir : Dir} (hclose : s.closeEnd dir = .ok s') : Sound s' := by
  unfold State.closeEnd at hclose
  split at hclose
  · cases hclose
    exact h
  · rename_i p hp
    dsimp only at hclose
    split_ifs at hclose
    · cases hclose
      exact ⟨nofun, nofun, h.begins, h.asked⟩
    · cases hclose
      cases dir with
      | read | write => exact h.ends hp

end

theorem fst_of_ok {result : State × Option Reply}
    (h : (.ok result : Except Stuck (State × Option Reply)) = .ok (s', reply)) : result.1 = s' :=
  congrArg Prod.fst (Except.ok.inj h)

theorem Sound.act (h : Sound s) (hact : s.act event = .ok (s', reply)) : Sound s' := by
  cases event with
  | read t null count =>
    simp only [State.act] at hact
    split_ifs at hact with hidle hnothing
    · cases hact
      exact h
    split at hact
    · cases hact
      exact h
    · rename_i p hp
      rw [← fst_of_ok hact]
      exact h.readRound hp (by omega) t
  | write t null data =>
    simp only [State.act] at hact
    split_ifs at hact with hidle hnothing
    · cases hact
      exact h
    split at hact
    · cases hact
      exact h
    · rename_i p hp
      rw [← fst_of_ok hact]
      exact h.writeRound hp t data 0
  | readKernel null count =>
    cases hact
    exact h.pipeReadKernel null count
  | writeKernel null data =>
    cases hact
    exact h.pipeWriteKernel null data
  | peekKernel null count =>
    cases hact
    exact h.pipePeekKernel null count
  | resume t =>
    simp only [State.act] at hact
    split at hact
    · rename_i count p hkont hp
      split_ifs at hact
      · cases hact
        exact h
      · rw [← fst_of_ok hact]
        exact h.readRound hp (h.asked t count hkont) t
    · rename_i data total p _ hp
      split_ifs at hact
      · cases hact
        exact h
      · rw [← fst_of_ok hact]
        exact h.writeRound hp t data total
    · cases hact
  | dup dir =>
    cases hact
    exact h.dupEnd dir
  | close dir =>
    simp only [State.act] at hact
    cases hclose : s.closeEnd dir with
    | error _ =>
      rw [hclose] at hact
      cases hact
    | ok next =>
      rw [hclose] at hact
      cases hact
      exact h.closeEnd hclose

theorem Sound.run {events : List Event} (hrun : run State.step events .start = .ok s) : Sound s :=
    by
  refine run_keeps (fun event _ state next hstate hstep => ?_) sound_start hrun
  unfold State.step at hstep
  cases hact : state.act event with
  | error _ =>
    rw [hact] at hstep
    cases hstep
  | ok result =>
    rw [hact] at hstep
    cases hstep
    exact hstate.act hact

/-! ## The end of a pipe -/

/-- The event may return from a `pipe_read` that was asked for something. -/
def Reads (s : State) : Event → Prop
  | .read _ null count => null = false ∧ 0 < count
  | .resume t => ∃ count, s.kont t = .reading count
  | _ => False

/-- A round returns 0 only at the end. -/
theorem readRound_zero {reply : Reply} (h : Fits p) (hcount : 0 < count)
    (hreply : (s.readRound t p count).2 = some reply) (hzero : reply.value = 0) :
    p.len = 0 ∧ p.writers = 0 := by
  unfold State.readRound at hreply
  split_ifs at hreply with hlen hwriters
  · have hvalue : ((p.fetch count).1.length : ℤ) = reply.value :=
      congrArg Reply.value (Option.some.inj hreply)
    have hlength := (fetch_fetched h count).length
    omega
  · exact ⟨by omega, hwriters⟩

theorem act_zero {reply : Reply} (h : Sound s) (hreads : Reads s event)
    (hact : s.act event = .ok (s', some reply)) (hzero : reply.value = 0) (hp : s.page = some p) :
    p.len = 0 ∧ p.writers = 0 := by
  cases event with
  | read t null count =>
    obtain ⟨rfl, hcount⟩ := hreads
    simp only [State.act, hp] at hact
    split_ifs at hact with hidle hnothing
    · exact absurd hnothing (by simp; omega)
    · have hreply := congrArg Prod.snd (Except.ok.inj hact)
      exact readRound_zero (h.fits p hp) hcount hreply hzero
  | resume t =>
    obtain ⟨count, hkont⟩ := hreads
    simp only [State.act, hkont, hp] at hact
    split_ifs at hact
    · cases hact
    · have hreply := congrArg Prod.snd (Except.ok.inj hact)
      exact readRound_zero (h.fits p hp) (h.asked t count hkont) hreply hzero
  | write | readKernel | writeKernel | peekKernel | dup | close => cases hreads

section

variable (h : Sound s) (null : Bool) (count : ℕ)

include h

/-- `pipe_read_kernel` returns 0 only if it was asked for nothing or there is nothing. -/
theorem pipeReadKernel_zero :
    (s.pipeReadKernel null count).2.value = 0 ↔
      null = true ∨ count = 0 ∨ ∀ p, s.page = some p → p.len = 0 := by
  unfold State.pipeReadKernel
  by_cases hnothing : null = true ∨ count = 0
  · rw [if_pos hnothing]
    exact ⟨fun _ => hnothing.imp_right .inl, fun _ => rfl⟩
  rw [if_neg hnothing]
  cases hp : s.page with
  | none => exact ⟨fun _ => .inr (.inr fun p hnone => absurd hnone (Option.some_ne_none p).symm),
      fun _ => rfl⟩
  | some p =>
    dsimp only
    by_cases hlen : p.len = 0
    · rw [if_pos hlen]
      exact ⟨fun _ => .inr (.inr fun p' hp' => Option.some.inj hp' ▸ hlen), fun _ => rfl⟩
    · rw [if_neg hlen]
      have hlength := (fetch_fetched (h.fits p hp) count).length
      have hne : ((p.fetch count).1.length : ℤ) ≠ 0 := by omega
      refine ⟨fun hzero => absurd hzero hne, fun hor => absurd ?_ hlen⟩
      exact (hor.resolve_left fun hnull => hnothing (.inl hnull)).resolve_left
        (fun hzero => hnothing (.inr hzero)) p rfl

/-- What `pipe_peek_kernel` copies is what `pipe_read_kernel` would. -/
theorem pipePeekKernel_reply :
    (s.pipePeekKernel null count).2 = (s.pipeReadKernel null count).2 := by
  unfold State.pipePeekKernel State.pipeReadKernel
  split_ifs
  · rfl
  cases hp : s.page with
  | none => rfl
  | some p =>
    obtain ⟨-, hbytes, -⟩ := look_spec (h.fits p hp) count
    dsimp only
    split_ifs
    · rfl
    · rw [hbytes]

/-- What is copied comes next. -/
theorem pipeReadKernel_next :
    s.obtained ++ (s.pipeReadKernel null count).2.bytes <+: s.accepted := by
  have hnothing : s.obtained ++ [] <+: s.accepted := by
    rw [append_nil]
    exact h.begins
  unfold State.pipeReadKernel
  split_ifs
  · exact hnothing
  cases hp : s.page with
  | none => exact hnothing
  | some p =>
    dsimp only
    split_ifs
    · exact hnothing
    · refine ⟨(p.fetch count).2.contents, ?_⟩
      rw [append_assoc, ← (fetch_fetched (h.fits p hp) count).contents]
      exact h.queue p hp

end

/-- The pipe is a queue of bytes with an end. -/
structure Lawful (s : State) : Prop where
  fifo : s.obtained <+: s.accepted
  ring : ∀ p, s.page = some p → p.len ≤ ringSize ∧ p.writePos = (p.readPos + p.len) % ringSize
  inside : ∀ p, s.page = some p → ∀ range ∈ p.touched,
    bufOffset ≤ range.1 ∧ range.1 + range.2 ≤ pipeBufSize
  /-- `pipe_read` returns 0 only at the end -/
  ends : ∀ event s' reply, Reads s event → s.act event = .ok (s', some reply) → reply.value = 0 →
    ∀ p, s.page = some p → p.len = 0 ∧ p.writers = 0
  /-- the others return 0 from an empty pipe -/
  empty : ∀ null count, (s.pipeReadKernel null count).2.value = 0 ↔
    null = true ∨ count = 0 ∨ ∀ p, s.page = some p → p.len = 0
  /-- a look is a read that leaves the bytes where they are -/
  peek : ∀ null count, (s.pipePeekKernel null count).2 = (s.pipeReadKernel null count).2 ∧
    s.obtained ++ (s.pipePeekKernel null count).2.bytes <+: s.accepted

theorem pipe_run {events : List Event} (hrun : run State.step events .start = .ok s) : Lawful s :=
    by
  have h : Sound s := Sound.run hrun
  refine ⟨h.begins, fun p hp => ⟨(h.fits p hp).len_le, (h.fits p hp).writePos_eq⟩,
    fun p hp => (h.fits p hp).inside, fun event s' reply hreads hact hzero p hp => ?_,
    pipeReadKernel_zero h, fun null count => ⟨pipePeekKernel_reply h null count, ?_⟩⟩
  · exact act_zero h hreads hact hzero hp
  · rw [pipePeekKernel_reply h]
    exact pipeReadKernel_next h null count

/-- A reader sleeps until there is something, and leaves the rest to another. -/
theorem pipe_run_sleeper :
    ∃ s, run State.step [.read 1 false 2, .write 2 false [7, 8, 9], .resume 1, .readKernel false 5]
      .start = .ok s ∧ s.obtained = [7, 8, 9] ∧ Lawful s := by
  obtain ⟨s, hrun, hobtained⟩ := exists_of_endsIn (p := fun s => s.obtained = [7, 8, 9])
    (show endsIn _ (run State.step [.read 1 false 2, .write 2 false [7, 8, 9], .resume 1,
      .readKernel false 5] .start) = true by decide +kernel)
  exact ⟨s, hrun, hobtained, pipe_run hrun⟩

/-- A new pipe has a writer, and `pipe_read_kernel` returns 0. -/
theorem kernel_read_gets_zero :
    (State.start.pipeReadKernel false 1).2.value = 0 ∧
      State.start.page.map Pipe.writers = some 1 := by
  decide +kernel

end Shitix.Pipes
