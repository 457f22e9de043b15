import Shitix.Signal.Frames

/-!
# The rounds of `do_signal`

Each round takes the lowest waiting signal.  So a signal that waits is taken once all lower
ones have been, unless one of them ends the task (`signalLoop_reaches`).  The handlers that
are delivered before it need room on the user stack (`Room`).
-/

namespace Shitix.Signal

open BitSet

variable {t t' : Task} {cpu cpu' : Cpu} {arrivals : List Word} {fuel signum k : ℕ} {d : Delivery}

/-! ## Room for frames -/

/-- The overflow checks pass for the waiting signals from `k` up to `goal`: the stack pointer is high
enough for a frame of each, and no address a call might be made again from is below 2. -/
structure Room (k goal : ℕ) (t : Task) (r : Regs) : Prop where
  rsp : 224 * (goal - k) ≤ r.rsp.toNat
  rip : 2 ≤ r.rip.toNat
  entries : ∀ signum < goal, t.pending.getLsbD signum = true →
    ∀ entry, (t.getSignal signum).handler = .user entry → 2 ≤ entry.toNat

/-- Fewer signals need less room. -/
theorem Room.mono {goal k' goal' : ℕ} {r : Regs} (h : Room k goal t r) (hk : k ≤ k')
    (hgoal : goal' ≤ goal) (hactions : t'.actions = t.actions)
    (hpending : ∀ i, t'.pending.getLsbD i = true → t.pending.getLsbD i = true) :
    Room k' goal' t' r := by
  refine ⟨le_trans (Nat.mul_le_mul_left _ (by omega)) h.rsp, h.rip, fun i hi hwait => ?_⟩
  rw [getSignal_congr hactions]
  exact h.entries i (lt_of_lt_of_le hi hgoal) (hpending i hwait)

theorem Room.deliver {goal : ℕ} (h : Room k goal t cpu.regs) (hk : k < goal)
    (hentry : 2 ≤ d.entry.toNat) :
    ∃ cpu', deliver d cpu = .ok cpu' ∧ Room (k + 1) goal t cpu'.regs := by
  have hsize := frameSize_le d
  have hroom := h.rsp
  have hfits : d.Fits cpu.regs := ⟨fun _ => h.rip, by omega⟩
  refine ⟨_, deliver_of_fits hfits, ?_, ?_, h.entries⟩
  · rw [delivered_rsp, Delivery.frameAddr]
    omega
  · exact hentry

/-! ## What comes before a signal -/

/-- The signals below `k` do not stop a task. -/
def NoStopBelow (k : ℕ) (t : Task) : Prop := ∀ i < k, t.effect i ≠ .stop

/-- The state in which a signal is the next to be taken. -/
structure Reached (goal : ℕ) (arrivals : List Word) (t t' : Task) (fuel : ℕ) : Prop where
  blocked : t'.blocked = t.blocked
  actions : t'.actions = t.actions
  waiting : t'.pending.getLsbD goal = true
  lowest : ∀ i < goal, t'.pending.getLsbD i = false
  fuel : size t'.pending + 65 * arrivals.length < fuel

/-- What the loop comes to: a lower signal ends the task, or the signal is the next to be taken. -/
def Reaches (goal : ℕ) (arrivals : List Word) (t : Task) (result : Option Outcome) : Prop :=
  (∃ code < goal, t.pending.getLsbD code = true ∧ t.effect code = .exit ∧
    result = some (.exited code)) ∨
  ∃ t' cpu' fuel', Reached goal arrivals t t' fuel' ∧ result = signalLoop fuel' arrivals t' cpu'

/-- After a round that takes a signal and goes on with the task `u`. -/
theorem Reaches.of_took {goal : ℕ} {u : Task} {result : Option Outcome}
    (h : Reaches goal arrivals u result) (hpending : u.pending = (t.took signum).pending)
    (hblocked : u.blocked = t.blocked) (hactions : u.actions = t.actions) :
    Reaches goal arrivals t result := by
  rcases h with ⟨code, hcode, hwait, hexit, heq⟩ | ⟨t', cpu', fuel', hreached, heq⟩
  · rw [hpending] at hwait
    rw [effect_congr hactions] at hexit
    exact .inl ⟨code, hcode, pending_of_took hwait, hexit, heq⟩
  · exact .inr ⟨t', cpu', fuel', ⟨hreached.blocked.trans hblocked,
      hreached.actions.trans hactions, hreached.waiting, hreached.lowest, hreached.fuel⟩, heq⟩

/-- A waiting signal is taken once all lower ones have been, unless one of them ends the task. -/
theorem signalLoop_reaches {goal : ℕ} (hwait : t.pending.getLsbD goal = true)
    (hstop : NoStopBelow goal t) (hlow : ∀ i < k, t.pending.getLsbD i = false) (hk : k ≤ goal)
    (hroom : Room k goal t cpu.regs)
    (hfuel : size t.pending + 65 * arrivals.length < fuel) :
    Reaches goal arrivals t (signalLoop fuel arrivals t cpu) := by
  induction fuel generalizing t cpu k with
  | zero => exact absurd hfuel (Nat.not_lt_zero _)
  | succ fuel ih =>
    have hne : t.pending ≠ 0#64 := by
      intro hzero
      rw [hzero, BitVec.getLsbD_zero] at hwait
      exact Bool.false_ne_true hwait
    obtain ⟨hset, hbefore⟩ := lowest_spec hne
    by_cases hgoal : lowest t.pending = goal
    · -- it is the next one
      rw [hgoal] at hbefore
      exact .inr ⟨t, cpu, fuel + 1, ⟨rfl, rfl, hwait, hbefore, hfuel⟩, rfl⟩
    · rw [signalLoop, if_neg hne]
      have hless := size_took_lt hset
      generalize lowest t.pending = signum at hset hbefore hgoal hless
      have hlt : signum < goal := by
        rcases lt_trichotomy signum goal with hlt | heq | hgt
        · exact hlt
        · exact absurd heq hgoal
        · rw [hbefore goal hgt] at hwait
          exact absurd hwait Bool.false_ne_true
      have hlek : k ≤ signum := by
        by_contra hlt'
        rw [hlow signum (not_le.mp hlt')] at hset
        exact Bool.false_ne_true hset
      -- a round that goes on with the task `u`
      have hround : ∀ u cpu', u.pending = (t.took signum).pending → u.blocked = t.blocked →
          u.actions = t.actions → Room (signum + 1) goal t cpu'.regs →
          Reaches goal arrivals t (signalLoop fuel arrivals u cpu') := by
        intro u cpu' hpending hblocked hactions hroom'
        have hwait' : u.pending.getLsbD goal = true := by
          rw [hpending, pending_took_of_ne (symm hgoal)]
          exact hwait
        have hlow' : ∀ i < signum + 1, u.pending.getLsbD i = false := by
          intro i hi
          rw [hpending]
          rcases Nat.lt_succ_iff_lt_or_eq.mp hi with hi | rfl
          · rw [pending_took_of_ne (by omega)]
            exact hbefore i hi
          · exact pending_took_self
        have hstop' : NoStopBelow goal u := by
          unfold NoStopBelow
          rw [effect_congr hactions]
          exact hstop
        have hroom'' : Room (signum + 1) goal u cpu'.regs := by
          refine hroom'.mono le_rfl le_rfl hactions fun i hi => ?_
          rw [hpending] at hi
          exact pending_of_took hi
        have hfuel' : size u.pending + 65 * arrivals.length < fuel := by
          rw [hpending]
          omega
        exact (ih hwait' hstop' hlow' hlt hroom'' hfuel').of_took hpending hblocked hactions
      have hkeep : Room signum goal t cpu.regs := hroom.mono hlek le_rfl rfl fun _ => id
      have hless' : Room (signum + 1) goal t cpu.regs :=
        hroom.mono (by omega) le_rfl rfl fun _ => id
      have heq : (t.took signum).effect signum = t.effect signum := congrFun (effect_congr rfl) signum
      dsimp only
      rw [heq]
      cases heffect : t.effect signum with
      | discard => exact hround _ cpu rfl rfl rfl hless'
      | deliver d =>
        have hentry : 2 ≤ d.entry.toNat :=
          hroom.entries signum hlt hset _ (handler_of_effect heffect)
        obtain ⟨cpu', hdeliver, hroom'⟩ := hkeep.deliver hlt hentry
        simp only [hdeliver]
        exact hround _ cpu' rfl rfl rfl hroom'
      | wake => exact hround _ cpu pending_woken blocked_woken actions_woken hless'
      | stop => exact absurd heffect (hstop signum hlt)
      | exit => exact .inl ⟨signum, hlt, hset, heffect, rfl⟩

end Shitix.Signal
