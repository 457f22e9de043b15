import Mathlib.Algebra.BigOperators.Fin
import Mathlib.Algebra.Order.BigOperators.Group.Finset
import Shitix.Lib.Threaded
import Shitix.Sched.Effects

/-!
# Every running task gets its turn

`schedule` follows the ring from the idle task and picks the running task with the most time left.
When the most is nothing, all tasks get new time first.  A task that stays running has time left
from then on, so that there is no further new time before its turn: the time of all tasks, which
the ticks use up, bounds the wait (`Waits.bound`).
-/

namespace Shitix.Sched

open Finset Sys

variable {s : Sys} {t : Slot → Share} {i nr : Slot}

/-- What the choice rests on, but for who is running. -/
structure Share where
  next : Slot
  counter : ℤ
  priority : ℤ
  used : Bool
deriving DecidableEq

def Sys.shares (s : Sys) (i : Slot) : Share :=
  ⟨(s.proc i).next, (s.proc i).counter, (s.proc i).priority, decide ((s.proc i).state ≠ .unused)⟩

/-- The ring goes from task 0 through the tasks in use back to it, and the times are in bounds. -/
structure Schedulable (t : Slot → Share) : Prop where
  ring : ∃ nodes, Threaded (fun i => (t i).next) idle (t idle).next nodes ∧
    ∀ i, i ≠ idle → (t i).used = true → i ∈ nodes
  times : ∀ i, (t i).used = true →
    1 ≤ (t i).priority ∧ 0 ≤ (t i).counter ∧ (t i).counter ≤ 2 * (t i).priority

theorem Schedulable.charge (h : Schedulable t) {f : Slot → ℤ}
    (hf : ∀ i, (t i).used = true → 0 ≤ f i ∧ f i ≤ 2 * (t i).priority) :
    Schedulable fun i => { t i with counter := f i } :=
  ⟨h.ring, fun i hused => ⟨(h.times i hused).1, hf i hused⟩⟩

theorem used_of_running (h : (s.proc i).state = .running) : (s.shares i).used = true := by
  simp [shares, h]

/-! ## The choice -/

/-- A task is met on the walk. -/
def Sys.better (s : Sys) (best : Slot × ℤ) (nr : Slot) : Slot × ℤ :=
  let p := s.proc nr
  if p.state = .running ∧ best.2 < p.counter then (nr, p.counter) else best

/-- The walk ends by itself. -/
theorem scan_eq {nodes : List Slot} {fuel : ℕ} (best : Slot × ℤ)
    (h : Threaded (fun i => (s.shares i).next) idle nr nodes) (hfuel : nodes.length < fuel) :
    s.scan fuel nr best = nodes.foldl s.better best := by
  induction nodes generalizing nr fuel best with
  | nil =>
    obtain ⟨fuel, rfl⟩ := Nat.exists_eq_add_one.mpr hfuel
    exact if_pos h
  | cons node rest ih =>
    obtain ⟨rfl, hne, hrest⟩ := h
    obtain ⟨fuel, rfl⟩ := Nat.exists_eq_add_one.mpr (Nat.zero_lt_of_lt hfuel)
    exact (if_neg hne).trans (ih _ hrest (Nat.lt_of_succ_lt_succ hfuel))

/-- The walk finds the largest counter of the running tasks, or keeps what it has. -/
theorem foldl_better (s : Sys) (nodes : List Slot) (best : Slot × ℤ) :
    best.2 ≤ (nodes.foldl s.better best).2 ∧
      (∀ i ∈ nodes, (s.proc i).state = .running →
        (s.proc i).counter ≤ (nodes.foldl s.better best).2) ∧
      (nodes.foldl s.better best = best ∨ ∃ i ∈ nodes, (s.proc i).state = .running ∧
        nodes.foldl s.better best = (i, (s.proc i).counter)) := by
  induction nodes generalizing best with
  | nil => simp
  | cons node rest ih =>
    obtain ⟨hle, hall, hfound⟩ := ih (s.better best node)
    rw [List.foldl_cons, List.forall_mem_cons, List.exists_mem_cons_iff]
    by_cases hbetter : (s.proc node).state = .running ∧ best.2 < (s.proc node).counter
    · have hstep : s.better best node = (node, (s.proc node).counter) := if_pos hbetter
      rw [hstep] at hle hall hfound ⊢
      refine ⟨hbetter.2.le.trans hle, ⟨fun _ => hle, hall⟩, .inr ?_⟩
      exact hfound.imp_left fun hfound => ⟨hbetter.1, hfound⟩
    · have hstep : s.better best node = best := if_neg hbetter
      rw [hstep] at hle hall hfound ⊢
      refine ⟨hle, ⟨fun hrunning => ?_, hall⟩, hfound.imp_right .inr⟩
      exact (not_lt.mp fun hlt => hbetter ⟨hrunning, hlt⟩).trans hle

theorem Schedulable.short (h : Schedulable t) :
    ∃ nodes, Threaded (fun i => (t i).next) idle (t idle).next nodes ∧
      (∀ i, i ≠ idle → (t i).used = true → i ∈ nodes) ∧ idle ∉ nodes ∧ nodes.length < 64 := by
  obtain ⟨nodes, hthreaded, hmem⟩ := h.ring
  have hidle : idle ∉ nodes := by
    clear hmem
    generalize (t idle).next = head at hthreaded
    induction nodes generalizing head with
    | nil => exact List.not_mem_nil
    | cons node rest ih =>
      exact List.not_mem_cons_of_ne_of_not_mem hthreaded.2.1.symm (ih _ hthreaded.2.2)
  refine ⟨nodes, hthreaded, hmem, hidle, ?_⟩
  have hnodup : (idle :: nodes).Nodup := List.nodup_cons.mpr ⟨hidle, hthreaded.nodup⟩
  simpa [Nat.lt_succ_iff] using hnodup.length_le_card

theorem wakeSleepers_shares (s : Sys) : s.wakeSleepers.shares = s.shares := by
  funext i
  unfold shares wakeSleepers Proc.wake
  dsimp only
  split_ifs <;> simp_all

theorem recharge_shares (s : Sys) : s.recharge.shares = fun i =>
    { s.shares i with counter :=
        if (s.shares i).used then (s.shares i).counter / 2 + (s.shares i).priority
        else (s.shares i).counter } := by
  funext i
  by_cases hunused : (s.proc i).state = .unused <;>
    simp [shares, recharge, hunused, Int.shiftRight_eq_div_pow]

section

variable (h : Schedulable s.shares)

include h

/-- The choice is a running task with the most time left, or task 0. -/
theorem pick_spec : (∀ i, i ≠ idle → (s.proc i).state = .running → (s.proc i).counter ≤ s.pick.2) ∧
      (s.pick = (idle, -1) ∨ s.pick.1 ≠ idle ∧ (s.proc s.pick.1).state = .running ∧
        s.pick.2 = (s.proc s.pick.1).counter) := by
  obtain ⟨nodes, hthreaded, hmem, hidle, hlength⟩ := h.short
  have hpick : s.pick = nodes.foldl s.better (idle, -1) := scan_eq _ hthreaded hlength
  obtain ⟨-, hall, hfound⟩ := foldl_better s nodes (idle, -1)
  rw [← hpick] at hall hfound
  refine ⟨fun i hi hrunning => hall i (hmem i hi (used_of_running hrunning)) hrunning, ?_⟩
  refine hfound.imp_right ?_
  rintro ⟨i, hi, hrunning, hfound⟩
  rw [hfound]
  exact ⟨fun heq => hidle (heq ▸ hi), hrunning, rfl⟩

theorem pick_running (hne : nr ≠ idle) (hrunning : (s.proc nr).state = .running) :
    s.pick.1 ≠ idle ∧ (s.proc s.pick.1).state = .running ∧ s.pick.2 = (s.proc s.pick.1).counter := by
  obtain ⟨hall, hpick⟩ := pick_spec h
  refine hpick.resolve_left fun hnone => ?_
  have hmost := hall nr hne hrunning
  have hlow : 0 ≤ (s.proc nr).counter := (h.times nr (used_of_running hrunning)).2.1
  rw [hnone] at hmost
  omega

theorem Schedulable.recharge : Schedulable s.recharge.shares := by
  rw [recharge_shares]
  refine h.charge fun i hused => ?_
  have htimes := h.times i hused
  omega

/-- What `schedule` does to the times, and whom it picks, if a task other than 0 is running. -/
theorem schedule_spec (hne : nr ≠ idle) (hrunning : (s.wakeSleepers.proc nr).state = .running) :
    Schedulable s.schedule.shares ∧ s.schedule.current ≠ idle ∧
      (s.schedule.proc s.schedule.current).state = .running ∧
      0 < (s.schedule.proc s.schedule.current).counter ∧
      (∀ i, i ≠ idle → (s.schedule.proc i).state = .running →
        (s.schedule.proc i).counter ≤ (s.schedule.proc s.schedule.current).counter) ∧
      (s.schedule.shares = s.shares ∨
        (s.proc nr).counter = 0 ∧ 0 < (s.schedule.proc nr).counter) := by
  have hsame := wakeSleepers_shares s
  have hwoken : Schedulable s.wakeSleepers.shares := hsame.symm ▸ h
  have hused := used_of_running hrunning
  have hold : (s.wakeSleepers.proc nr).counter = (s.proc nr).counter :=
    congrArg Share.counter (congrFun hsame nr)
  obtain ⟨hpriority, hlow, -⟩ := hwoken.times nr hused
  change 1 ≤ (s.wakeSleepers.proc nr).priority at hpriority
  change 0 ≤ (s.wakeSleepers.proc nr).counter at hlow
  have hall := (pick_spec hwoken).1
  obtain ⟨hidle, hpicked, hcount⟩ := pick_running hwoken hne hrunning
  have hmost := hall nr hne hrunning
  unfold schedule
  by_cases hzero : s.wakeSleepers.pick.2 = 0
  · have hcharged := hwoken.recharge
    have hstate : (s.wakeSleepers.recharge.proc nr).state = .running := by
      rwa [recharge_keeps (·.state) fun _ _ => rfl]
    have hnew : (s.wakeSleepers.recharge.proc nr).counter = (s.wakeSleepers.proc nr).counter / 2 +
        (s.wakeSleepers.proc nr).priority :=
      (congrArg Share.counter (congrFun (recharge_shares _) nr)).trans (if_pos hused)
    have hall' := (pick_spec hcharged).1
    obtain ⟨hidle', hpicked', hcount'⟩ := pick_running hcharged hne hstate
    have hmost' := hall' nr hne hstate
    rw [if_pos hzero]
    refine ⟨hcharged, hidle', hpicked', ?_, fun i hi hr => (hall' i hi hr).trans_eq hcount',
      .inr ⟨by omega, ?_⟩⟩
    · dsimp only
      omega
    · dsimp only
      omega
  · rw [if_neg hzero]
    refine ⟨hwoken, hidle, hpicked, ?_, fun i hi hr => (hall i hi hr).trans_eq hcount, .inl hsame⟩
    dsimp only
    omega

/-- Task 0 is picked if no other task is running. -/
theorem schedule_idle (hnone : ∀ i, i ≠ idle → (s.wakeSleepers.proc i).state ≠ .running) :
    s.schedule.current = idle := by
  have hwoken : Schedulable s.wakeSleepers.shares := (wakeSleepers_shares s).symm ▸ h
  unfold schedule
  dsimp only
  rcases (pick_spec hwoken).2 with hidle | ⟨hne, hrunning, -⟩
  · rw [hidle, if_neg (by decide)]
  · exact absurd hrunning (hnone _ hne)

end

/-! ## Ticks -/

/-- The tasks and `need_resched`. -/
structure Clock where
  sys : Sys
  needResched : Bool

/-- `do_timer` -/
def Clock.tick (c : Clock) : Clock :=
  ⟨c.sys.tick, c.needResched || decide ((c.sys.proc c.sys.current).counter - 1 ≤ 0)⟩

/-- An execution of `n` ticks without new tasks in which a task stays running and is not picked.
`schedule` runs before the next tick if `need_resched` is set; what else the tasks do (sleep, wake,
yield) changes their states and `need_resched`, and no slot becomes unused. -/
inductive Waits (nr : Slot) (c : Clock) : ℕ → Clock → Prop
  | start (hrunning : (c.sys.proc nr).state = .running) : Waits nr c 0 c
  | tick {n : ℕ} {c' : Clock} (h : Waits nr c n c') (hready : c'.needResched = false) :
      Waits nr c (n + 1) c'.tick
  | schedule {n : ℕ} {c' : Clock} (h : Waits nr c n c') (hother : c'.sys.schedule.current ≠ nr) :
      Waits nr c n ⟨c'.sys.schedule, false⟩
  | act {n : ℕ} {c' : Clock} {s : Sys} {r : Bool} (h : Waits nr c n c')
      (hcurrent : s.current = c'.sys.current) (hshares : s.shares = c'.sys.shares)
      (hrunning : (s.proc nr).state = .running) (hresched : c'.needResched = true → r = true) :
      Waits nr c n ⟨s, r⟩

/-- The sum over the tasks in use. -/
def total (t : Slot → Share) (f : Share → ℤ) : ℤ := ∑ i, if (t i).used then f (t i) else 0

theorem Schedulable.total_nonneg (h : Schedulable t) : 0 ≤ total t (·.counter) := by
  refine sum_nonneg fun i _ => ?_
  split_ifs with hused
  · exact (h.times i hused).2.1
  · exact le_rfl

theorem Schedulable.total_le (h : Schedulable t) :
    total t (·.counter) ≤ 2 * total t (·.priority) := by
  unfold total
  rw [mul_sum]
  refine sum_le_sum fun i _ => ?_
  split_ifs with hused
  · exact (h.times i hused).2.2
  · exact le_rfl

theorem tick_shares (s : Sys) : s.tick.shares = fun i =>
    { s.shares i with counter :=
        if i = s.current then max ((s.shares i).counter - 1) 0 else (s.shares i).counter } := by
  funext i
  unfold shares tick
  rw [modify_proc]
  split_ifs with heq
  · rw [heq]
  · rfl

theorem total_tick (hused : (s.shares s.current).used = true) :
    total s.tick.shares (·.counter) = total s.shares (·.counter) - (s.shares s.current).counter +
      max ((s.shares s.current).counter - 1) 0 := by
  rw [tick_shares]
  unfold total
  rw [← add_sum_erase _ _ (mem_univ s.current), if_pos hused,
    ← add_sum_erase _ _ (mem_univ s.current), if_pos hused]
  have hrest : ∑ i ∈ univ.erase s.current, (if (s.shares i).used then
      (if i = s.current then max ((s.shares i).counter - 1) 0 else (s.shares i).counter) else 0) =
      ∑ i ∈ univ.erase s.current, if (s.shares i).used then (s.shares i).counter else 0 := by
    refine sum_congr rfl fun i hi => ?_
    rw [if_neg (ne_of_mem_erase hi)]
  dsimp only
  rw [if_pos rfl]
  omega

/-- What holds in an execution in which a task waits: the ticks so far and the time left are
bounded, more tightly before the task has time of its own, and between two ticks the current task
has time left. -/
structure Bounded (nr : Slot) (limit : ℤ) (n : ℕ) (c : Clock) : Prop where
  fits : Schedulable c.sys.shares
  running : (c.sys.proc nr).state = .running
  current : (c.sys.shares c.sys.current).used = true
  limit_eq : total c.sys.shares (·.priority) = limit
  spent : n + total c.sys.shares (·.counter) ≤ 1 + 2 * limit ∨
    n + total c.sys.shares (·.counter) ≤ 1 + 4 * limit ∧ 0 < (c.sys.shares nr).counter ∧
      c.sys.current ≠ nr
  ahead : c.needResched = true ∨ 0 < (c.sys.shares c.sys.current).counter ∨
    n + total c.sys.shares (·.counter) ≤ 2 * limit

section Bounded

variable {limit : ℤ} {n : ℕ} {c : Clock}

theorem Bounded.tick (h : Bounded nr limit n c) (hready : c.needResched = false) :
    Bounded nr limit (n + 1) c.tick := by
  have hsum := total_tick h.current
  have hshares := tick_shares c.sys
  have hcount : ∀ i, (c.sys.tick.shares i).counter = if i = c.sys.current then
      max ((c.sys.shares i).counter - 1) 0 else (c.sys.shares i).counter := fun i =>
    congrArg Share.counter (congrFun hshares i)
  have htimes := h.fits.times _ h.current
  have hahead := h.ahead.resolve_left (by rw [hready]; exact Bool.false_ne_true)
  unfold Clock.tick
  refine ⟨?_, ?_, ?_, ?_, ?_, ?_⟩
  · rw [hshares]
    refine h.fits.charge fun i hused => ?_
    have hi := (h.fits.times i hused).2
    split_ifs with heq
    · omega
    · exact hi
  · dsimp only [Sys.tick]
    rw [modify_keeps (·.state) rfl, h.running]
  · rw [hshares]
    exact h.current
  · rw [hshares]
    exact h.limit_eq
  · rw [hsum, hcount]
    rcases h.spent with hearly | ⟨hlate, hleft, hother⟩
    · omega
    · rw [if_neg hother.symm]
      rcases hahead with hahead | hahead
      · exact .inr ⟨by omega, hleft, hother⟩
      · exact .inl (by omega)
  · rw [show c.sys.tick.current = c.sys.current from rfl, hready, Bool.false_or, decide_eq_true_iff,
      show (c.sys.proc c.sys.current).counter = (c.sys.shares c.sys.current).counter from rfl, hcount]
    omega

theorem Bounded.schedule (h : Bounded nr limit n c) (hne : nr ≠ idle)
    (hother : c.sys.schedule.current ≠ nr) : Bounded nr limit n ⟨c.sys.schedule, false⟩ := by
  have hwoken : (c.sys.wakeSleepers.proc nr).state = .running := by
    change ((c.sys.proc nr).wake c.sys.jiffies).state = .running
    rw [Proc.wake, if_pos (by rw [h.running]; decide), h.running]
  obtain ⟨hfits, -, hpicked, hleft, -, htimes⟩ := schedule_spec h.fits hne hwoken
  have hlimit : total c.sys.schedule.shares (·.priority) = limit := by
    have hkept : ∀ i, ((c.sys.schedule.shares i).used, (c.sys.schedule.shares i).priority) =
        ((c.sys.shares i).used, (c.sys.shares i).priority) := fun i => by
      rw [← wakeSleepers_shares c.sys]
      exact schedule_keeps (fun p => (decide (p.state ≠ .unused), p.priority)) (fun _ _ => rfl) c.sys i
    simp only [Prod.mk.injEq] at hkept
    simp only [← h.limit_eq, total, hkept]
  refine ⟨hfits, ?_, used_of_running hpicked, hlimit, ?_, .inr (.inl hleft)⟩
  · exact (schedule_keeps (·.state) (fun _ _ => rfl) c.sys nr).trans hwoken
  · dsimp only
    rcases htimes with hsame | ⟨hzero, hcharged⟩
    · rw [hsame]
      exact h.spent.imp_right fun hlate => ⟨hlate.1, hlate.2.1, hother⟩
    · -- there was no time left, so the task had none: this is the only new time
      have hnew := hfits.total_le
      have hold := h.fits.total_nonneg
      have hspent := h.spent
      change (c.sys.shares nr).counter = 0 at hzero
      refine .inr ⟨?_, hcharged, hother⟩
      omega

theorem Waits.bounded {c' : Clock} (h : Waits nr c n c') (hfits : Schedulable c.sys.shares)
    (hcurrent : (c.sys.shares c.sys.current).used = true) (hne : nr ≠ idle) :
    Bounded nr (total c.sys.shares (·.priority)) n c' := by
  induction h with
  | start hrunning =>
    have htotal := hfits.total_le
    exact ⟨hfits, hrunning, hcurrent, rfl, .inl (by push_cast; omega),
      .inr (.inr (by push_cast; omega))⟩
  | tick _ hready ih => exact ih.tick hready
  | schedule _ hother ih => exact ih.schedule hne hother
  | act _ hsame hshares hrunning hresched ih =>
    refine ⟨?_, hrunning, ?_, ?_, ?_, ?_⟩ <;> dsimp only <;> rw [hshares]
    · exact ih.fits
    · rw [hsame]
      exact ih.current
    · exact ih.limit_eq
    · rw [hsame]
      exact ih.spent
    · rw [hsame]
      exact ih.ahead.imp_left hresched

end Bounded

/-- Task 0 and the first process, which runs all the time. -/
def busy : Sys :=
  let p := { Proc.empty with state := .running, counter := 1, priority := 1 }
  { Sys.boot with
    proc := fun i =>
      if i = idle then { p with next := init, prev := init } else if i = init then p else .empty }

theorem schedulable_busy : Schedulable busy.shares :=
  ⟨⟨[init], ⟨rfl, by decide, rfl⟩, by decide⟩, by decide⟩

/-- A second process behind the first one, which has more time left. -/
def crowded (other : Slot) : Sys :=
  { busy with
    proc := fun i =>
      if i = init then { busy.proc init with next := other, counter := 2 }
      else if i = other then busy.proc init else busy.proc i }

end Shitix.Sched
