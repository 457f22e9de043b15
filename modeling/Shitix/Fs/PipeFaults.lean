import Shitix.Fs.Pipe

/-!
# Pipes and bad buffers

A round of `pipe_read` or `pipe_write` copies in up to two pieces, and accounts for the first one
before the second.  Each copy may fail with `EFAULT`, at any time, since other tasks run while a
call sleeps.  What a copy that fails leaves behind the write position is not modelled; nothing reads
it.

The books say what each call has moved in all its rounds, whatever the call itself has counted.  A
call that fails has moved something if it is the second piece that fails, or if the call had written
something before it slept; then `pipe_write` returns an error also if the last reader goes.  In any
other case a call that fails has moved nothing (`all_or_error_iff`).
-/

namespace Shitix.Pipes

open List State Function

def efault : ℤ := 14

/-- The copies of a round that fail. -/
structure Faults where
  first : Bool
  second : Bool
deriving DecidableEq, Repr

/-- The task whose call the event runs. -/
def Event.caller : Event → Option Task
  | .read t .. | .write t .. | .resume t => some t
  | _ => none

/-- What a call has counted as written. -/
def Kont.total : Kont → ℕ
  | .writing _ total => total
  | _ => 0

namespace State

variable (s : State) (f : Faults) (event : Event)

/-- The round of `pipe_read` or `pipe_write` that is to run. -/
def round : Kont :=
  match event with
  | .read t null count => if s.kont t = .idle ∧ ¬ (null ∨ count = 0) then .reading count else .idle
  | .write t null data =>
    if s.kont t = .idle ∧ ¬ (null ∨ data.length = 0) then .writing data 0 else .idle
  | .resume t => s.kont t
  | _ => .idle

/-- What a copy that fails makes of the round. -/
def fail (t : Task) : Option (State × Reply) :=
  match s.round event, s.page with
  | .reading count, some p =>
    let n := min count p.len
    let first := min n (ringSize - p.readPos)
    let bytes := cellsFrom p.ring p.readPos first
    if 0 < p.len then
      if f.first then some (s.setKont t .idle, ⟨-efault, []⟩)
      else if first < n ∧ f.second then
        some ((s.give bytes (pop p first)).setKont t .idle, ⟨-efault, bytes⟩)
      else none
    else none
  | .writing data total, some p =>
    let rest := data.drop total
    let n := min rest.length (ringSize - p.len)
    let first := min n (ringSize - p.writePos)
    if p.readers ≠ 0 ∧ 0 < ringSize - p.len then
      if f.first then some (s.setKont t .idle, ⟨-efault, []⟩)
      else if first < n ∧ f.second then
        some ((s.accept (rest.take first) (push p (rest.take first))).setKont t .idle, ⟨-efault, []⟩)
      else none
    else none
  | _, _ => none

/-- What happens if copies may fail. -/
def actOrFail : Except Stuck (State × Option Reply) :=
  match event.caller.bind (s.fail f event) with
  | some (s', reply) => .ok (s', some reply)
  | none => s.act event

/-- The second copy does not fail alone, and the first one does not fail, nor are the readers gone,
when the call has begun to write. -/
def Whole : Prop :=
  match s.round event, s.page with
  | .reading count, some p => f.second → ¬ f.first → min count p.len ≤ ringSize - p.readPos
  | .writing data total, some p =>
    (p.readers ≠ 0 → f.second → ¬ f.first →
        min (data.length - total) (ringSize - p.len) ≤ ringSize - p.writePos) ∧
      (f.first ∨ p.readers = 0 → total = 0)
  | _, _ => True

end State

/-! ## The books -/

/-- What a call took out of the pipe and put into it. -/
structure Moved where
  taken : List UInt8
  put : List UInt8

def Moved.nothing : Moved := ⟨[], []⟩

def Moved.add (m m' : Moved) : Moved := ⟨m.taken ++ m'.taken, m.put ++ m'.put⟩

/-- The pipe, and what the last call of each task has moved. -/
structure Books where
  state : State
  moved : Task → Moved

namespace Books

def start : Books := ⟨.start, fun _ => .nothing⟩

variable (b : Books) (f : Faults) (event : Event)

/-- What the call of a task had moved before it slept. -/
def before (t : Task) : Moved := if b.state.kont t = .idle then .nothing else b.moved t

/-- What was moved between two states is added to the books of the task that ran. -/
def act : Except Stuck (Books × Option Reply) :=
  (b.state.actOrFail f event).map fun (s', reply) =>
    match event.caller with
    | none => (⟨s', b.moved⟩, reply)
    | some t =>
      let moved : Moved := ⟨s'.obtained.drop b.state.obtained.length,
        s'.accepted.drop b.state.accepted.length⟩
      (⟨s', update b.moved t ((b.before t).add moved)⟩, reply)

def step (e : Faults × Event) : Except Stuck Books := (b.act e.1 e.2).map Prod.fst

end Books

/-- A call that fails has moved nothing, and any other returns what it has moved. -/
structure AllOrError (moved : Moved) (reply : Reply) : Prop where
  error : reply.value < 0 → moved = .nothing
  count : 0 ≤ reply.value →
    moved.taken = reply.bytes ∧ reply.value = (moved.taken.length + moved.put.length : ℕ)

/-! ## One round -/

/-- What a round of the call `kont` can do: what it moves, where the call is then, and what it
returns. -/
inductive Outcome (whole : Prop) : Kont → Moved → Kont → Option Reply → Prop
  | asleep (count : ℕ) : Outcome whole (.reading count) .nothing (.reading count) none
  | slept {data put : List UInt8} {total : ℕ} (hput : put = (data.drop total).take put.length)
      (hmore : total < data.length → total + put.length < data.length) :
      Outcome whole (.writing data total) ⟨[], put⟩ (.writing data (total + put.length)) none
  | done {kont : Kont} {moved : Moved} {value : ℤ} (hwhole : whole)
      (hvalue : value = (kont.total + moved.taken.length + moved.put.length : ℕ)) :
      Outcome whole kont moved .idle (some ⟨value, moved.taken⟩)
  | failed {kont : Kont} {moved : Moved} {value : ℤ} {bytes : List UInt8} (hvalue : value < 0)
      (hwhole : whole ↔ kont.total = 0 ∧ moved = .nothing) :
      Outcome whole kont moved .idle (some ⟨value, bytes⟩)

/-- The state after a round of a task. -/
structure Rounded (s : State) (t : Task) (moved : Moved) (next : Kont) (s' : State) : Prop where
  kont : s'.kont = update s.kont t next
  accepted : s'.accepted = s.accepted ++ moved.put
  obtained : s'.obtained = s.obtained ++ moved.taken

variable {s s' : State} {f : Faults} {event : Event} {reply : Option Reply} {t : Task} {p : Pipe}
  {count total : ℕ} {data : List UInt8} {next : Kont} {whole : Prop}

theorem rounded_nothing (hkont : s'.kont = update s.kont t next) (haccepted : s'.accepted = s.accepted)
    (hobtained : s'.obtained = s.obtained) : Rounded s t .nothing next s' :=
  ⟨hkont, haccepted.trans (append_nil _).symm, hobtained.trans (append_nil _).symm⟩

theorem rounded_same (hkont : s.kont t = next) : Rounded s t .nothing next s :=
  rounded_nothing (hkont ▸ (update_eq_self t s.kont).symm) rfl rfl

/-- A writer that puts nothing sleeps on. -/
theorem Outcome.still (data : List UInt8) (total : ℕ) :
    Outcome whole (.writing data total) .nothing (.writing data total) none :=
  .slept rfl id

theorem writePos_lt (h : Fits p) : p.writePos < ringSize := by
  rw [h.writePos_eq]
  exact Nat.mod_lt _ ringSize_pos

/-- A round with a copy that fails. -/
theorem fail_outcome {reply : Reply} (h : Sound s) (hfail : s.fail f event t = some (s', reply)) :
    Sound s' ∧ ∃ moved, Rounded s t moved .idle s' ∧
      Outcome (s.Whole f event) (s.round event) moved .idle (some reply) := by
  have hneg : -efault < 0 := by decide
  unfold fail at hfail
  cases hround : s.round event with
  | idle => simp [hround] at hfail
  | reading count =>
    cases hp : s.page with
    | none => simp [hround, hp] at hfail
    | some p =>
      have hfits := h.fits p hp
      have hpos := hfits.readPos_lt
      simp only [hround, hp] at hfail
      simp only [State.Whole, hround, hp]
      split_ifs at hfail with _ hfirst hsecond
      · cases hfail
        exact ⟨h.idle t, _, rounded_nothing rfl rfl rfl,
          .failed hneg ⟨fun _ => ⟨rfl, rfl⟩, fun _ _ hnot => absurd hfirst hnot⟩⟩
      · cases hfail
        generalize hlen : min (min count p.len) (ringSize - p.readPos) = first at *
        refine ⟨(h.page (hfits.pop (by omega) (by omega)) ?_).idle t,
          ⟨cellsFrom p.ring p.readPos first, []⟩, ⟨rfl, (append_nil _).symm, rfl⟩,
          .failed hneg ⟨fun hwhole => ?_, fun hnone => ?_⟩⟩
        · rw [append_assoc, ← contents_pop (by omega) (by omega)]
          exact h.queue p hp
        · have := hwhole hsecond.2 hfirst
          omega
        · have hlength := congrArg (fun moved => moved.taken.length) hnone.2
          simp only [length_cellsFrom, Moved.nothing, length_nil] at hlength
          omega
  | writing data total =>
    cases hp : s.page with
    | none => simp [hround, hp] at hfail
    | some p =>
      have hfits := h.fits p hp
      have hpos := writePos_lt hfits
      simp only [hround, hp] at hfail
      simp only [State.Whole, hround, hp]
      split_ifs at hfail with hcopies hfirst hsecond
      · cases hfail
        refine ⟨h.idle t, _, rounded_nothing rfl rfl rfl, .failed hneg ⟨fun hwhole => ⟨?_, rfl⟩, ?_⟩⟩
        · exact hwhole.2 (.inl hfirst)
        · exact fun hnone => ⟨fun _ _ hnot => absurd hfirst hnot, fun _ => hnone.1⟩
      · cases hfail
        rw [length_drop] at hsecond
        generalize hlen : min (min (data.drop total).length (ringSize - p.len))
          (ringSize - p.writePos) = first at *
        rw [length_drop] at hlen
        have hput : ((data.drop total).take first).length = first := by
          rw [length_take, length_drop]
          omega
        refine ⟨(h.page (hfits.push (by omega) (by omega)) ?_).idle t, ⟨[], _⟩,
          ⟨rfl, rfl, (append_nil _).symm⟩, .failed hneg ⟨fun hwhole => ?_, fun hnone => ?_⟩⟩
        · rw [contents_push hfits (by omega) (by omega), ← append_assoc, h.queue p hp]
        · have := hwhole.1 hcopies.1 hsecond.2 hfirst
          omega
        · have hlength := congrArg (fun moved => moved.put.length) hnone.2
          simp only [hput, Moved.nothing, length_nil] at hlength
          omega

theorem deposit_spec (p : Pipe) (data : List UInt8) :
    (p.deposit data).1 ≤ data.length ∧ (p.deposit data).2.readers = p.readers := by
  unfold Pipe.deposit
  dsimp only
  split_ifs
  · exact ⟨min_le_left _ _, rfl⟩
  · exact ⟨min_le_left _ _, rfl⟩

/-- A round of `pipe_read` without failing copies. -/
theorem readRound_outcome (t : Task) (count : ℕ) (hwhole : whole) :
    ∃ moved next, Rounded s t moved next (s.readRound t p count).1 ∧
      Outcome whole (.reading count) moved next (s.readRound t p count).2 := by
  unfold readRound
  split_ifs
  · refine ⟨⟨(p.fetch count).1, []⟩, _, ⟨rfl, (append_nil _).symm, rfl⟩, .done hwhole ?_⟩
    simp [Kont.total]
  · exact ⟨_, _, rounded_nothing rfl rfl rfl, .done hwhole rfl⟩
  · exact ⟨_, _, rounded_nothing rfl rfl rfl, .asleep count⟩

/-- A round of `pipe_write` without failing copies. -/
theorem writeRound_outcome (t : Task) (data : List UInt8)
    (hwhole : p.readers ≠ 0 → 0 < ringSize - p.len → whole)
    (hgone : p.readers = 0 → (whole ↔ total = 0)) :
    ∃ moved next, Rounded s t moved next (s.writeRound t p data total).1 ∧
      Outcome whole (.writing data total) moved next (s.writeRound t p data total).2 := by
  have hfits := (deposit_spec p (data.drop total)).1
  have hput : ((data.drop total).take (p.deposit (data.drop total)).1).length =
      (p.deposit (data.drop total)).1 := by
    rw [length_take]
    omega
  unfold writeRound
  dsimp only
  split_ifs with hreaders hroom hdone hlost
  · refine ⟨_, _, rounded_nothing rfl rfl rfl, .failed (by decide) ?_⟩
    rw [hgone hreaders]
    exact ⟨fun hzero => ⟨hzero, rfl⟩, And.left⟩
  · refine ⟨⟨[], (data.drop total).take (p.deposit (data.drop total)).1⟩, _,
      ⟨rfl, rfl, (append_nil _).symm⟩, .done (hwhole hreaders hroom) ?_⟩
    simp only [hput]
    rfl
  · exact absurd ((deposit_spec p _).2.symm.trans hlost) hreaders
  · refine ⟨⟨[], (data.drop total).take (p.deposit (data.drop total)).1⟩,
      .writing data (total + ((data.drop total).take (p.deposit (data.drop total)).1).length),
      ⟨?_, rfl, (append_nil _).symm⟩, .slept ?_ fun _ => ?_⟩
    · rw [hput]
      rfl
    · rw [hput]
    · rw [hput]
      omega
  · exact ⟨_, _, rounded_nothing rfl rfl rfl, .still data total⟩

/-- What a round without failing copies is. -/
theorem act_of_caller (hcaller : event.caller = some t) (hact : s.act event = .ok (s', reply)) :
    (s.kont t = .idle ∧ (s.round event = .idle ∨ s.page = none) ∧ (s.round event).total = 0 ∧
        s' = s ∧ reply = some ⟨0, []⟩) ∨
      s.kont t ≠ .idle ∧ s.round event = s.kont t ∧ s' = s ∧ reply = none ∨
      ∃ p, s.page = some p ∧
        ((∃ count, s.round event = .reading count ∧ s.readRound t p count = (s', reply)) ∨
          ∃ data total, s.round event = .writing data total ∧
            s.writeRound t p data total = (s', reply)) := by
  cases event with
  | read | write =>
    cases hcaller
    simp only [act] at hact
    split_ifs at hact with hidle hnothing
    · cases hact
      rw [ne_eq, not_not] at hidle
      simp only [State.round, if_neg (fun h : _ ∧ ¬ _ => h.2 hnothing)]
      exact .inl ⟨hidle, .inl trivial, rfl, trivial, trivial⟩
    rw [ne_eq, not_not] at hidle
    simp only [State.round, if_pos (And.intro hidle hnothing)]
    cases hp : s.page with
    | none =>
      simp only [hp] at hact
      cases hact
      exact .inl ⟨hidle, .inr rfl, rfl, rfl, rfl⟩
    | some p =>
      simp only [hp] at hact
      refine .inr (.inr ⟨p, rfl, ?_⟩)
      first
      | exact .inl ⟨_, rfl, Except.ok.inj hact⟩
      | exact .inr ⟨_, _, rfl, Except.ok.inj hact⟩
  | resume t' =>
    cases hcaller
    simp only [act] at hact
    simp only [State.round]
    cases hp : s.page with
    | none => cases hkont : s.kont t <;> simp [hp, hkont] at hact
    | some p =>
      cases hkont : s.kont t with
      | idle => simp [hkont] at hact
      | reading | writing =>
        simp only [hkont, hp] at hact
        split_ifs at hact
        · cases hact
          exact .inr (.inl ⟨Kont.noConfusion, trivial, rfl, rfl⟩)
        refine .inr (.inr ⟨p, rfl, ?_⟩)
        first
        | exact .inl ⟨_, rfl, Except.ok.inj hact⟩
        | exact .inr ⟨_, _, rfl, Except.ok.inj hact⟩
  | readKernel | writeKernel | peekKernel | dup | close => cases hcaller

/-- A round without failing copies. -/
theorem act_outcome (hcaller : event.caller = some t) (hfail : s.fail f event t = none)
    (hact : s.act event = .ok (s', reply)) :
    ∃ moved next, Rounded s t moved next s' ∧
      Outcome (s.Whole f event) (s.round event) moved next reply := by
  obtain ⟨hidle, hnone, hzero, rfl, rfl⟩ | ⟨hbusy, hround, rfl, rfl⟩ |
    ⟨p, hp, ⟨count, hround, hread⟩ | ⟨data, total, hround, hwrite⟩⟩ := act_of_caller hcaller hact
  · refine ⟨_, _, rounded_same hidle, .done ?_ ?_⟩
    · unfold State.Whole
      obtain hround | hpage := hnone
      · simp [hround]
      · cases s'.round event <;> simp [hpage]
    · rw [hzero]
      rfl
  · refine ⟨_, _, rounded_same rfl, ?_⟩
    rw [hround]
    cases hkont : s'.kont t with
    | idle => exact absurd hkont hbusy
    | reading count => exact .asleep count
    | writing data total => exact .still data total
  · have hwhole : s.Whole f event := by
      simp only [fail, hround, hp] at hfail
      simp only [State.Whole, hround, hp]
      intro hsecond hfirst
      by_contra hwrap
      simp [hfirst, hsecond] at hfail
      omega
    rw [hround]
    have := readRound_outcome (s := s) (p := p) t count hwhole
    rw [hread] at this
    exact this
  · simp only [fail, hround, hp] at hfail
    rw [hround]
    have houtcome : ∃ moved next, Rounded s t moved next (s.writeRound t p data total).1 ∧
        Outcome (s.Whole f event) (.writing data total) moved next
          (s.writeRound t p data total).2 := by
      refine writeRound_outcome t data (fun hreaders hroom => ?_) fun hgone => ?_
      · simp only [State.Whole, hround, hp]
        simp only [hreaders, hroom, ne_eq, not_false_eq_true, and_self, if_true, length_drop] at hfail
        split_ifs at hfail with hfirst hsecond
        refine ⟨fun _ hsecond' _ => ?_, fun hor => absurd hor (not_or.mpr ⟨hfirst, hreaders⟩)⟩
        by_contra hwrap
        exact hsecond ⟨by omega, hsecond'⟩
      · simp [State.Whole, hround, hp, hgone]
    rw [hwrite] at houtcome
    exact houtcome

/-! ## Runs -/

/-- What a call that sleeps has moved is what it has counted. -/
def Kont.Counts : Kont → Moved → Prop
  | .writing data total, moved => moved = ⟨[], data.take total⟩ ∧ total < data.length
  | _, moved => moved = .nothing

structure Kept (b : Books) : Prop where
  sound : Sound b.state
  counts : ∀ t, (b.state.kont t).Counts (b.before t)

theorem kept_start : Kept .start := ⟨sound_start, fun _ => rfl⟩

variable {b b' : Books}

theorem Sound.actOrFail (h : Sound s) (hact : s.actOrFail f event = .ok (s', reply)) : Sound s' := by
  unfold State.actOrFail at hact
  split at hact
  · rename_i result reply' hfail
    obtain ⟨t, -, hfail⟩ := Option.bind_eq_some_iff.mp hfail
    cases hact
    exact (fail_outcome h hfail).1
  · exact h.act hact

theorem actOrFail_outcome (h : Sound s) (hcaller : event.caller = some t)
    (hact : s.actOrFail f event = .ok (s', reply)) :
    ∃ moved next, Rounded s t moved next s' ∧
      Outcome (s.Whole f event) (s.round event) moved next reply := by
  unfold State.actOrFail at hact
  rw [hcaller, Option.bind_some] at hact
  cases hfail : s.fail f event t with
  | none =>
    rw [hfail] at hact
    exact act_outcome hcaller hfail hact
  | some result =>
    rw [hfail] at hact
    cases hact
    obtain ⟨-, moved, hrounded⟩ := fail_outcome h hfail
    exact ⟨moved, .idle, hrounded⟩

/-- What is no call leaves the calls as they are. -/
theorem kont_of_no_caller (hcaller : event.caller = none)
    (hact : s.actOrFail f event = .ok (s', reply)) : s'.kont = s.kont := by
  unfold State.actOrFail at hact
  rw [hcaller, Option.bind_none] at hact
  cases event with
  | read | write | resume => cases hcaller
  | readKernel | writeKernel | peekKernel =>
    cases hact
    first | unfold pipeReadKernel | unfold pipeWriteKernel | unfold pipePeekKernel
    split_ifs
    · rfl
    split
    · rfl
    · split_ifs <;> rfl
  | dup =>
    cases hact
    rfl
  | close dir =>
    simp only [act, closeEnd] at hact
    split at hact
    · cases hact
      rfl
    · split_ifs at hact <;> cases hact <;> rfl

/-- A call that sleeps on keeps its books. -/
theorem Outcome.counts {before moved : Moved} {kont : Kont} (hcounts : kont.Counts before)
    (h : Outcome whole kont moved next none) : next.Counts (before.add moved) ∧ next ≠ .idle := by
  cases h with
  | asleep count =>
    rw [show before = .nothing from hcounts]
    exact ⟨rfl, nofun⟩
  | slept hput hmore =>
    obtain ⟨rfl, hlt⟩ := hcounts
    refine ⟨⟨?_, hmore hlt⟩, nofun⟩
    rw [take_add, ← hput]
    rfl

theorem Outcome.idle {moved : Moved} {kont : Kont} {reply : Reply}
    (h : Outcome whole kont moved next (some reply)) : next = .idle := by
  cases h with
  | done | failed => rfl

/-- A call that returns keeps the law if the condition holds, and only then. -/
theorem Outcome.allOrError_iff {before moved : Moved} {kont : Kont} {reply : Reply}
    (hcounts : kont.Counts before) (h : Outcome whole kont moved next (some reply)) :
    AllOrError (before.add moved) reply ↔ whole := by
  have htotal : before.taken = [] ∧ before.put.length = kont.total := by
    cases kont with
    | idle | reading =>
      rw [show before = .nothing from hcounts]
      exact ⟨rfl, rfl⟩
    | writing data total =>
      obtain ⟨rfl, hlt⟩ := hcounts
      exact ⟨rfl, length_take_of_le hlt.le⟩
  cases h with
  | @done _ _ value hwhole hvalue =>
    refine ⟨fun _ => hwhole, fun _ => ⟨fun (hneg : value < 0) => by omega, fun _ => ⟨?_, ?_⟩⟩⟩
    · simp [Moved.add, htotal.1]
    · simp only [Moved.add, length_append, htotal, length_nil]
      omega
  | @failed _ _ value _ hvalue hwhole =>
    rw [hwhole]
    constructor
    · intro hlaw
      obtain ⟨htaken, hput⟩ := Moved.mk.inj (hlaw.error hvalue)
      obtain ⟨hbefore, hnone⟩ := append_eq_nil_iff.mp hput
      rw [hbefore] at htotal
      exact ⟨htotal.2.symm, congrArg₂ Moved.mk (append_eq_nil_iff.mp htaken).2 hnone⟩
    · rintro ⟨hzero, rfl⟩
      refine ⟨fun _ => ?_, fun (hpos : 0 ≤ value) => by omega⟩
      rw [hzero] at htotal
      simp [Moved.add, Moved.nothing, htotal.1, eq_nil_of_length_eq_zero htotal.2]

/-- What the call has moved when a round of it begins. -/
theorem Kept.before (h : Kept b) (hcaller : event.caller = some t)
    (hact : b.state.actOrFail f event = .ok (s', reply)) :
    (b.state.round event).Counts (b.before t) := by
  cases event with
  | read | write =>
    cases hcaller
    by_cases hidle : b.state.kont t = .idle
    · simp only [State.round, hidle, true_and, Books.before, if_true]
      split_ifs with hnothing
      · exact rfl
      · first
        | exact rfl
        | exact ⟨rfl, Nat.pos_of_ne_zero fun hzero => hnothing (.inr hzero)⟩
    · simp [State.actOrFail, Event.caller, fail, State.round, hidle, State.act] at hact
  | resume t' =>
    cases hcaller
    exact h.counts t
  | readKernel | writeKernel | peekKernel | dup | close => cases hcaller

/-- The books after a round. -/
theorem act_rounded (h : Kept b) (hcaller : event.caller = some t)
    (hact : b.act f event = .ok (b', reply)) :
    ∃ moved next, b'.state.kont = update b.state.kont t next ∧
      b'.moved = update b.moved t ((b.before t).add moved) ∧
      (b.state.round event).Counts (b.before t) ∧
      Outcome (b.state.Whole f event) (b.state.round event) moved next reply := by
  unfold Books.act at hact
  cases hstate : b.state.actOrFail f event with
  | error _ =>
    rw [hstate] at hact
    cases hact
  | ok result =>
    rw [hstate, hcaller] at hact
    cases hact
    obtain ⟨moved, next, hrounded, houtcome⟩ := actOrFail_outcome h.sound hcaller hstate
    refine ⟨moved, next, hrounded.kont, ?_, h.before hcaller hstate, houtcome⟩
    simp [hrounded.accepted, hrounded.obtained]

theorem Kept.act (h : Kept b) (hact : b.act f event = .ok (b', reply)) : Kept b' := by
  cases hstate : b.state.actOrFail f event with
  | error _ => simp [Books.act, hstate, Except.map] at hact
  | ok result =>
    have hsound : Sound result.1 := h.sound.actOrFail hstate
    cases hcaller : event.caller with
    | none =>
      have hkont : result.1.kont = b.state.kont := kont_of_no_caller hcaller hstate
      simp only [Books.act, hstate, Except.map, hcaller] at hact
      cases hact
      refine ⟨hsound, fun t => ?_⟩
      simp only [Books.before, hkont]
      exact h.counts t
    | some t =>
      obtain ⟨moved, next, hkont, hmoved, hcounts, houtcome⟩ := act_rounded h hcaller hact
      have hstate' : b'.state = result.1 := by
        simp only [Books.act, hstate, Except.map, hcaller] at hact
        cases hact
        rfl
      refine ⟨hstate' ▸ hsound, fun t' => ?_⟩
      simp only [Books.before, hkont, hmoved]
      by_cases heq : t' = t
      · subst heq
        rw [update_self, update_self]
        cases reply with
        | none =>
          obtain ⟨hnext, hbusy⟩ := houtcome.counts hcounts
          rw [if_neg hbusy]
          exact hnext
        | some reply =>
          rw [houtcome.idle]
          exact rfl
      · rw [update_of_ne heq, update_of_ne heq]
        exact h.counts t'

theorem Kept.run {events : List (Faults × Event)} (hrun : run Books.step events .start = .ok b) :
    Kept b := by
  refine run_keeps (fun event _ b b' hkept hstep => ?_) kept_start hrun
  unfold Books.step at hstep
  cases hact : b.act event.1 event.2 with
  | error _ => simp [hact, Except.map] at hstep
  | ok result =>
    rw [hact] at hstep
    cases hstep
    exact hkept.act hact

/-- In every run, whatever fails in it. -/
theorem all_or_error_iff {events : List (Faults × Event)} {reply : Reply}
    (hrun : run Books.step events .start = .ok b) (hcaller : event.caller = some t)
    (hact : b.act f event = .ok (b', some reply)) :
    AllOrError (b'.moved t) reply ↔ b.state.Whole f event := by
  obtain ⟨moved, next, -, hmoved, hcounts, houtcome⟩ := act_rounded (.run hrun) hcaller hact
  rw [hmoved, update_self]
  exact houtcome.allOrError_iff hcounts

/-- No copy fails. -/
def fine : Faults := ⟨false, false⟩

/-- The ring is written and read once, almost to its end. -/
def nearEnd (t : Task) : List (Faults × Event) :=
  [(fine, .write t false (replicate 4046 0)), (fine, .read t false 4046)]

set_option maxRecDepth 20000 in
/-- A write goes around the end of the ring, sleeps in between, and returns what it has put in both
rounds; the second copy would fail, but the second round needs only one. -/
theorem all_or_error_sleeper : ∃ b b' reply,
    run Books.step
      (nearEnd 1 ++ [(fine, .write 1 false (replicate 4050 7)), (fine, .read 2 false 4048)])
      .start = .ok b ∧
    b.act ⟨false, true⟩ (.resume 1) = .ok (b', some reply) ∧ reply.value = 4050 ∧
    AllOrError (b'.moved 1) reply := by
  obtain ⟨b, hrun, b', reply, hact, hvalue, hwhole⟩ : ∃ b, run Books.step (nearEnd 1 ++ [(fine,
      .write 1 false (replicate 4050 7)), (fine, .read 2 false 4048)]) .start = .ok b ∧ ∃ b' reply,
      b.act ⟨false, true⟩ (.resume 1) = .ok (b', some reply) ∧ reply.value = 4050 ∧
      b.state.Whole ⟨false, true⟩ (.resume 1) := by
    refine ⟨_, rfl, _, _, rfl, by decide +kernel, And.intro (fun _ _ _ => ?_) fun h => absurd h ?_⟩
    · decide +kernel
    · decide +kernel
  exact ⟨b, b', reply, hrun, hact, hvalue, (all_or_error_iff hrun rfl hact).mpr hwhole⟩

set_option maxRecDepth 20000 in
/-- Four bytes lie around the end of the ring, and only the first page of the buffer is there. -/
theorem half_read : ∃ b b' reply,
    run Books.step (nearEnd 1 ++ [(fine, .write 1 false [1, 2, 3, 4])]) .start = .ok b ∧
    b.act ⟨false, true⟩ (.read 1 false 4) = .ok (b', some reply) ∧
    ¬ AllOrError (b'.moved 1) reply := by
  refine ⟨_, _, _, rfl, rfl, fun h => ?_⟩
  exact absurd (congrArg (fun moved => moved.taken.length) (h.error (by decide +kernel)))
    (by decide +kernel)

end Shitix.Pipes
