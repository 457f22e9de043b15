import Shitix.Signal.Restart

/-!
# `rt_sigreturn` and the way back to user mode

`rt_sigreturn` takes five registers from the user stack.  It checks the two selectors and
nothing else.  On its way back to user mode (`ret_from_sys_call`) the task may be rescheduled
and may receive more signals; each pass sets `IF` and clears `NT` in the flags, but leaves
`IOPL`.  A frame with `IOPL` set, or with an address that is not canonical, goes through as it
is (`sigreturn_keeps_iopl`), and these are the only ones (`unprivileged_iff_saved_harmless`).
-/

namespace Shitix.Signal

open BitSet Option BitVec

variable {ds later : List Delivery} {d : Delivery} {r : Regs} {cpu cpu' : Cpu} {t t' : Task}
  {rax : Word} {ending : Ending} {passes : List Pass}

/-! ## `rt_sigreturn` -/

def sigsegv : ℕ := 11

/-- The words `rt_sigreturn` reads. -/
structure SavedFrame where
  ss : Word
  rsp : Word
  rflags : Word
  cs : Word
  rip : Word
deriving DecidableEq, Repr

/-- The saved words at the user's stack pointer. -/
def savedFrame (cpu : Cpu) : SavedFrame :=
  let saved := cpu.regs.rsp.toNat
  { ss := wordAt cpu.mem saved
    rsp := wordAt cpu.mem (saved + 8)
    rflags := wordAt cpu.mem (saved + 16)
    cs := wordAt cpu.mem (saved + 24)
    rip := wordAt cpu.mem (saved + 32) }

/-- The words of a frame, in order. -/
def SavedFrame.words (f : SavedFrame) : List ℕ :=
  [f.ss.toNat, f.rsp.toNat, f.rflags.toNat, f.cs.toNat, f.rip.toNat]

/-- The frame whose words are on the stack. -/
theorem savedFrame_eq {f : SavedFrame}
    (h : ∀ i w, f.words[i]? = some w →
      wordAt cpu.mem (cpu.regs.rsp.toNat + 8 * i) = BitVec.ofNat 64 w) : savedFrame cpu = f := by
  have hword : ∀ i w, f.words[i]? = some (BitVec.toNat w) →
      wordAt cpu.mem (cpu.regs.rsp.toNat + 8 * i) = w := by
    intro i w hw
    rw [h i _ hw, ofNat_toNat, setWidth_eq]
  have hss := hword 0 f.ss rfl
  have hrsp := hword 1 f.rsp rfl
  have hrflags := hword 2 f.rflags rfl
  have hcs := hword 3 f.cs rfl
  have hrip := hword 4 f.rip rfl
  simp only [savedFrame, Nat.mul_zero, add_zero] at *
  rw [hss, hrsp, hrflags, hcs, hrip]

/-- The selectors are those of user mode. -/
def SavedFrame.Intact (f : SavedFrame) : Prop := f.cs = userCs ∧ f.ss = userDs

instance (f : SavedFrame) : Decidable f.Intact := inferInstanceAs (Decidable (_ ∧ _))

/-- The registers from a frame. -/
def Regs.restored (r : Regs) (f : SavedFrame) : Regs :=
  { r with rip := f.rip, cs := f.cs, rflags := f.rflags, rsp := f.rsp, ss := f.ss, rax := 0 }

/-- `rt_sigreturn`; `none` if the frame is corrupted and the task exits. -/
def rtSigreturn (cpu : Cpu) : Option Regs :=
  if (savedFrame cpu).Intact then some (cpu.regs.restored (savedFrame cpu)) else none

def Regs.setCarry (r : Regs) (carry : Bool) : Regs :=
  if carry then { r with rflags := r.rflags ||| 1#64 } else { r with rflags := r.rflags &&& ~~~1#64 }

/-- The end of `do_syscall`. -/
def Regs.answer (r : Regs) (ret : Word) : Regs := { r with rax := ret }.setCarry ret.msb

/-! ## `ret_from_sys_call` -/

/-- `IF` is set and `NT` is cleared. -/
def Regs.forced (r : Regs) : Regs :=
  { r with rflags := (r.rflags ||| 0x200#64) &&& ~~~0x4000#64 }

/-- A pass over `ret_check_resched`: what was sent to the task while others ran, and what arrived
during each stop. -/
structure Pass where
  arrived : Word
  arrivals : List Word

/-- Signals are sent to the task. -/
def Task.receive (t : Task) (arrived : Word) : Task := { t with signal := t.signal ||| arrived }

/-- One pass: `do_signal` if a signal waits. -/
def checkPass (pass : Pass) (t : Task) (cpu : Cpu) : Option Outcome :=
  let t := t.receive pass.arrived
  let cpu := { cpu with regs := cpu.regs.forced }
  if t.pending = 0#64 then some (.returned t cpu)
  else (doSignal pass.arrivals t cpu).map Outcome.last

/-- `ret_from_sys_call`: passes as long as the task is rescheduled, and a last one. -/
def retFromSysCall : List Pass → Task → Cpu → Option Outcome
  | [], t, cpu =>
    match checkPass ⟨0#64, []⟩ t cpu with
    | some (.returned t cpu) => some (.returned t { cpu with regs := cpu.regs.forced })
    | other => other
  | pass :: passes, t, cpu =>
    match checkPass pass t cpu with
    | some (.returned t cpu) => retFromSysCall passes t cpu
    | other => other

/-- A call of `rt_sigreturn`, up to the return to user mode. -/
def sigreturnPath (passes : List Pass) (t : Task) (cpu : Cpu) : Option Outcome :=
  match rtSigreturn cpu with
  | none => some (.exited sigsegv)
  | some r => retFromSysCall passes t { cpu with regs := r.answer 0 }

/-! ## The handlers that are delivered on the way -/

/-- All deliveries on the way back, and the end. -/
def chosen : List Pass → Task → Option (List Delivery × Ending)
  | [], t => selected [] t
  | pass :: passes, t =>
    match selected pass.arrivals (t.receive pass.arrived) with
    | some (ds, .back t) => (chosen passes t).map fun rest => (ds ++ rest.1, rest.2)
    | other => other

/-- The deliveries, for a call that was not interrupted. -/
def settle (ds : List Delivery) (ending : Ending) (cpu : Cpu) : Outcome :=
  match deliverAll ds cpu with
  | .error _ => .panicked
  | .ok cpu =>
    match ending with
    | .exit code => .exited code
    | .back t => .returned t cpu

/-- `rax` is not the result of an interrupted call. -/
def Calm (rax : Word) : Prop := ∀ ds, Quiet ds rax

theorem calm_zero : Calm 0 := by
  intro ds
  exact ⟨by decide, by decide, by decide, fun h => absurd h (by decide)⟩

theorem forced_forced (r : Regs) : r.forced.forced = r.forced := by
  have hflags : ∀ w : Word, (((w ||| 0x200#64) &&& ~~~0x4000#64) ||| 0x200#64) &&& ~~~0x4000#64 =
      (w ||| 0x200#64) &&& ~~~0x4000#64 := by
    intro w
    apply eq_of_getLsbD_eq
    intro i hi
    simp only [getLsbD_and, getLsbD_or]
    cases w.getLsbD i <;> cases (0x200#64).getLsbD i <;> cases (~~~0x4000#64).getLsbD i <;> rfl
  simp only [Regs.forced, hflags]

theorem delivered_selectors (d : Delivery) (cpu : Cpu) : (delivered d cpu).regs.cs = userCs ∧
    (delivered d cpu).regs.ss = userDs ∧ (delivered d cpu).regs.rflags = 0x202 := by
  unfold delivered enterHandler
  split_ifs <;> exact ⟨rfl, rfl, rfl⟩

/-- The selectors and flags the last handler starts with. -/
theorem deliverAll_selectors (h : deliverAll (d :: ds) cpu = .ok cpu') :
    cpu'.regs.cs = userCs ∧ cpu'.regs.ss = userDs ∧ cpu'.regs.rflags = 0x202 := by
  induction ds generalizing d cpu with
  | nil =>
    obtain ⟨-, hrest⟩ := deliverAll_cons.mp h
    cases hrest
    exact delivered_selectors d cpu
  | cons next ds ih =>
    obtain ⟨-, hrest⟩ := deliverAll_cons.mp h
    exact ih hrest

theorem forced_of_rflags (h : r.rflags = 0x202) : r.forced = r := by
  have hflags : ((0x202 : Word) ||| 0x200#64) &&& ~~~0x4000#64 = 0x202 := by decide
  rw [Regs.forced, h, hflags, ← h]

/-- Forced flags stay forced. -/
theorem forced_deliverAll (h : deliverAll ds { cpu with regs := cpu.regs.forced } = .ok cpu') :
    cpu'.regs.forced = cpu'.regs := by
  cases ds with
  | nil =>
    cases h
    exact forced_forced _
  | cons d ds => exact forced_of_rflags (deliverAll_selectors h).2.2

theorem deliverAll_append : ∀ (ds : List Delivery) (cpu : Cpu),
    deliverAll (ds ++ later) cpu =
      match deliverAll ds cpu with
      | .error e => .error e
      | .ok cpu => deliverAll later cpu := by
  intro ds
  induction ds with
  | nil => exact fun _ => rfl
  | cons d ds ih =>
    intro cpu
    rw [List.cons_append, deliverAll, deliverAll]
    cases deliver d cpu with
    | error e => rfl
    | ok next => exact ih next

theorem rax_of_deliverAll (hall : deliverAll ds cpu = .ok cpu') (h : Calm cpu.regs.rax) :
    cpu'.regs.rax = cpu.regs.rax ∧ cpu'.regs.rip = lastEntry ds cpu.regs.rip := by
  obtain ⟨other, hother, hrip, hrax, -⟩ := (h ds).deliverAll (framesFit_of_deliverAll hall)
  cases hall.symm.trans hother
  exact ⟨hrax, hrip⟩

theorem settle_eq_returned :
    settle ds ending cpu = .returned t' cpu' ↔ ending = .back t' ∧ deliverAll ds cpu = .ok cpu' := by
  unfold settle
  cases deliverAll ds cpu with
  | error e => simp
  | ok next =>
    cases ending with
    | exit code => simp
    | back t => simp

theorem selected_of_none (h : t.pending = 0#64) (arrivals : List Word) :
    selected arrivals t = some ([], .back t) := by
  rw [selected, rounds, Nat.mul_add, selection, if_pos h]

/-- One pass, for a call that was not interrupted. -/
theorem Calm.checkPass (h : Calm cpu.regs.rax) {pass : Pass}
    (hselected : selected pass.arrivals (t.receive pass.arrived) = some (ds, ending)) :
    checkPass pass t cpu = some (settle ds ending { cpu with regs := cpu.regs.forced }) := by
  rw [Signal.checkPass]
  by_cases hnone : (t.receive pass.arrived).pending = 0#64
  · rw [selected_of_none hnone] at hselected
    cases hselected
    rw [if_pos hnone]
    rfl
  · rw [if_neg hnone]
    obtain ⟨outcome, hsignal, hlast⟩ : ∃ outcome, doSignal pass.arrivals (t.receive pass.arrived)
        { cpu with regs := cpu.regs.forced } = some outcome ∧ _ := doSignal_eq_replay hselected
    rw [hsignal, map_some, hlast, replay, settle]
    cases hall : deliverAll ds { cpu with regs := cpu.regs.forced } with
    | error e => rfl
    | ok next =>
      cases ending with
      | exit code => rfl
      | back t =>
        have hcalm : Calm next.regs.rax := by
          rw [(rax_of_deliverAll hall h).1]
          exact h
        dsimp only [conclude]
        rw [(hcalm []).finish]

/-- The way back to user mode, for a call that was not interrupted. -/
theorem Calm.retFromSysCall : ∀ {t : Task} {cpu : Cpu}
    {ds : List Delivery}, Calm cpu.regs.rax → chosen passes t = some (ds, ending) →
      retFromSysCall passes t cpu =
        some (settle ds ending { cpu with regs := cpu.regs.forced }) := by
  induction passes with
  | nil =>
    intro t cpu ds hcalm hchosen
    have hreceive : t.receive 0#64 = t := by rw [Task.receive, or_zero]
    have hselected : selected [] (t.receive 0#64) = some (ds, ending) := by
      rw [hreceive]
      exact hchosen
    have hcheck : Signal.checkPass ⟨0#64, []⟩ t cpu = _ := hcalm.checkPass hselected
    rw [Signal.retFromSysCall, hcheck]
    unfold settle
    cases hall : deliverAll ds { cpu with regs := cpu.regs.forced } with
    | error e => rfl
    | ok next =>
      cases ending with
      | exit code => rfl
      | back t =>
        dsimp only
        rw [forced_deliverAll hall]
  | cons pass passes ih =>
    intro t cpu ds hcalm hchosen
    rw [chosen] at hchosen
    rw [Signal.retFromSysCall]
    cases hselected : selected pass.arrivals (t.receive pass.arrived) with
    | none =>
      rw [hselected] at hchosen
      cases hchosen
    | some found =>
      obtain ⟨first, ending'⟩ := found
      rw [hselected] at hchosen
      rw [hcalm.checkPass hselected, settle]
      cases ending' with
      | exit code =>
        cases hchosen
        rw [settle]
        cases deliverAll ds { cpu with regs := cpu.regs.forced } <;> rfl
      | back t' =>
        obtain ⟨⟨later, _⟩, hlater, heq⟩ := map_eq_some_iff.mp hchosen
        cases heq
        rw [settle, deliverAll_append]
        cases hall : deliverAll first { cpu with regs := cpu.regs.forced } with
        | error e => rfl
        | ok next =>
          have hnext : Calm next.regs.rax := by
            rw [(rax_of_deliverAll hall hcalm).1]
            exact hcalm
          dsimp only
          rw [ih hnext hlater, forced_deliverAll hall, settle]

/-! ## What a frame can do -/

/-- The address is canonical. -/
def Canonical (w : Word) : Prop := w.toNat < 2 ^ 47 ∨ 2 ^ 64 - 2 ^ 47 ≤ w.toNat

/-- The bits of `IOPL`. -/
def iopl (rflags : Word) : Word := rflags &&& 0x3000#64

/-- A register frame for user mode: its selectors, no I/O privilege, interrupts on, and an address
that the return instruction accepts. -/
structure Unprivileged (r : Regs) : Prop where
  cs : r.cs = userCs
  ss : r.ss = userDs
  iopl : iopl r.rflags = 0
  interrupts : r.rflags.getLsbD 9 = true
  rip : Canonical r.rip

/-- The saved words do no harm: if the task returns to user mode, it goes on at a canonical
address, and unless that is a handler, no I/O privilege is restored. -/
def SavedHarmless (passes : List Pass) (t : Task) (f : SavedFrame) : Prop :=
  f.Intact → ∀ ds t', chosen passes t = some (ds, .back t') → FramesFit ds f.rsp.toNat →
    Canonical (lastEntry ds f.rip) ∧ (ds = [] → iopl f.rflags = 0)

/-- The registers `rt_sigreturn` leaves. -/
def sigreturned (cpu : Cpu) : Regs := ((cpu.regs.restored (savedFrame cpu)).answer 0).forced

theorem iopl_forced (w : Word) :
    iopl (((w &&& ~~~1#64) ||| 0x200#64) &&& ~~~0x4000#64) = iopl w := by
  have hmask : ∀ i < 64, (0x3000#64).getLsbD i = true → (~~~1#64).getLsbD i = true ∧
      (0x200#64).getLsbD i = false ∧ (~~~0x4000#64).getLsbD i = true := by decide
  apply eq_of_getLsbD_eq
  intro i hi
  simp only [iopl, getLsbD_and, getLsbD_or]
  cases hbit : (0x3000#64).getLsbD i with
  | false => rw [Bool.and_false, Bool.and_false]
  | true =>
    obtain ⟨hcarry, hif, hnt⟩ := hmask i hi hbit
    rw [hcarry, hif, hnt, Bool.and_true, Bool.or_false, Bool.and_true]

theorem interrupts_forced (w : Word) : ((w ||| 0x200#64) &&& ~~~0x4000#64).getLsbD 9 = true := by
  have hif : (0x200#64).getLsbD 9 = true := by decide
  have hnt : (~~~0x4000#64).getLsbD 9 = true := by decide
  rw [getLsbD_and, getLsbD_or, hif, hnt, Bool.or_true, Bool.and_true]

/-- The frame a task goes back with, when no handler is delivered. -/
theorem unprivileged_sigreturned (h : (savedFrame cpu).Intact) :
    Unprivileged (sigreturned cpu) ↔
      Canonical (savedFrame cpu).rip ∧ iopl (savedFrame cpu).rflags = 0 := by
  have hiopl : iopl (sigreturned cpu).rflags = iopl (savedFrame cpu).rflags := iopl_forced _
  constructor
  · intro hframe
    exact ⟨hframe.rip, hiopl.symm.trans hframe.iopl⟩
  · rintro ⟨hrip, hrflags⟩
    exact ⟨h.1, h.2, hiopl.trans hrflags, interrupts_forced _, hrip⟩

/-- The frame a task goes back with, when handlers are delivered. -/
theorem unprivileged_deliverAll (h : deliverAll (d :: ds) cpu = .ok cpu')
    (hcalm : Calm cpu.regs.rax) : Unprivileged cpu'.regs ↔ Canonical (lastEntry ds d.entry) := by
  obtain ⟨hcs, hss, hrflags⟩ := deliverAll_selectors h
  have hrip : cpu'.regs.rip = lastEntry ds d.entry := (rax_of_deliverAll h hcalm).2
  rw [← hrip]
  refine ⟨Unprivileged.rip, fun hcanonical => ⟨hcs, hss, ?_, ?_, hcanonical⟩⟩
  · rw [hrflags]
    decide
  · rw [hrflags]
    decide

theorem chosen_isSome (passes : List Pass) (t : Task) : (chosen passes t).isSome = true := by
  induction passes generalizing t with
  | nil => exact selected_isSome
  | cons pass passes ih =>
    rw [chosen]
    have hsome : (selected pass.arrivals (t.receive pass.arrived)).isSome = true := selected_isSome
    obtain ⟨⟨ds, ending⟩, hselected⟩ := isSome_iff_exists.mp hsome
    rw [hselected]
    cases ending with
    | exit code => rfl
    | back t' => exact isSome_map.trans (ih t')

/-- The frames `rt_sigreturn` may return to user mode with. -/
theorem sigreturnPath_eq_returned :
    sigreturnPath passes t cpu = some (.returned t' cpu') ↔ (savedFrame cpu).Intact ∧
      ∃ ds, chosen passes t = some (ds, .back t') ∧
        deliverAll ds ⟨sigreturned cpu, cpu.mem⟩ = .ok cpu' := by
  obtain ⟨⟨ds, ending⟩, hchosen⟩ := isSome_iff_exists.mp (chosen_isSome passes t)
  by_cases hintact : (savedFrame cpu).Intact
  · have hpath : sigreturnPath passes t cpu = some (settle ds ending ⟨sigreturned cpu, cpu.mem⟩) := by
      rw [sigreturnPath, rtSigreturn, if_pos hintact]
      exact calm_zero.retFromSysCall hchosen
    rw [hpath, some_inj, settle_eq_returned, hchosen]
    constructor
    · rintro ⟨rfl, hall⟩
      exact ⟨hintact, ds, rfl, hall⟩
    · rintro ⟨-, other, hother, hall⟩
      cases hother
      exact ⟨rfl, hall⟩
  · rw [sigreturnPath, rtSigreturn, if_neg hintact]
    refine ⟨fun h => ?_, fun h => absurd h.1 hintact⟩
    cases h

theorem unprivileged_of_chosen (hintact : (savedFrame cpu).Intact)
    (hall : deliverAll ds ⟨sigreturned cpu, cpu.mem⟩ = .ok cpu') :
    Unprivileged cpu'.regs ↔
      Canonical (lastEntry ds (savedFrame cpu).rip) ∧ (ds = [] → iopl (savedFrame cpu).rflags = 0) := by
  cases ds with
  | nil =>
    cases hall
    rw [unprivileged_sigreturned hintact]
    exact and_congr_right fun _ => ⟨fun h _ => h, fun h => h rfl⟩
  | cons d ds =>
    rw [unprivileged_deliverAll hall calm_zero]
    exact ⟨fun h => ⟨h, fun hnil => absurd hnil (List.cons_ne_nil d ds)⟩, And.left⟩

/-- The frame a task goes back to user mode with after `rt_sigreturn` is unprivileged if and only if
the saved words do no harm. -/
theorem unprivileged_iff_saved_harmless (passes : List Pass) (t : Task) (cpu : Cpu) :
    (∀ t' after, sigreturnPath passes t cpu = some (.returned t' after) →
      Unprivileged after.regs) ↔ SavedHarmless passes t (savedFrame cpu) := by
  constructor
  · intro hsafe hintact ds t' hchosen hfit
    have hcalm : Calm (sigreturned cpu).rax := calm_zero
    obtain ⟨after, hall, -⟩ : ∃ after, deliverAll ds ⟨sigreturned cpu, cpu.mem⟩ = .ok after ∧ _ :=
      (hcalm ds).deliverAll hfit
    have hreturned := sigreturnPath_eq_returned.mpr ⟨hintact, ds, hchosen, hall⟩
    exact (unprivileged_of_chosen hintact hall).mp (hsafe t' after hreturned)
  · intro hharmless t' after hreturned
    obtain ⟨hintact, ds, hchosen, hall⟩ := sigreturnPath_eq_returned.mp hreturned
    have hfit := framesFit_of_deliverAll hall
    exact (unprivileged_of_chosen hintact hall).mpr (hharmless hintact ds t' hchosen hfit)

/-- A frame a program built on its stack, with `IOPL` 3. -/
def forgedFrame : SavedFrame where
  ss := userDs
  rsp := 0x7ff100
  rflags := 0x3202
  cs := userCs
  rip := 0x400100

/-- A program that calls `rt_sigreturn` with the frame. -/
def forgingCpu : Cpu where
  regs := (readingCpu 15).regs
  mem := (readingCpu 15).mem.copy 0x7ff000 (forgedFrame.words.flatMap (leBytes 8))

/-- A program gets access to all I/O ports. -/
theorem sigreturn_keeps_iopl : ∃ after,
    sigreturnPath [] newTask forgingCpu = some (.returned newTask after) ∧
      after.regs.rip = 0x400100 ∧ after.regs.cs = userCs ∧ iopl after.regs.rflags = 0x3000 ∧
      ¬ Unprivileged after.regs := by
  have hchosen : chosen [] newTask = some ([], .back newTask) := selected_of_none (by decide) []
  have hintact : (savedFrame forgingCpu).Intact :=
    ⟨rfl, rfl⟩
  have hiopl : iopl (sigreturned forgingCpu).rflags = 0x3000 := by
    decide
  refine ⟨_, sigreturnPath_eq_returned.mpr ⟨hintact, [], hchosen, rfl⟩, ?_, ?_, hiopl, ?_⟩
  · rfl
  · exact hintact.1
  · intro hframe
    exact absurd (hiopl.symm.trans hframe.iopl) (by decide)

end Shitix.Signal
