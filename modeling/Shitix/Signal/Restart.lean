import Shitix.Signal.Frames

/-!
# Handler entry and restart of system calls

A system call may be interrupted by several handlers at once.  The first decides whether the
call is made again; all others interrupt the handler before them.  So the frame of the first
handler returns to the call (moved back by 2 if it is made again), each other frame returns to
the entry of the handler before, and the task goes on at the last one (`Resumes`).

`do_signal` looks at `rax` in every round and once more at the end.  A code that is still in
`rax` after the first delivery moves the entry of a handler back instead of the call: this
happens to `-ERESTARTSYS` without `SA_RESTART` (`handler_entered_two_early`) and to `-EINTR`
when a later handler has `SA_RESTART`.  `Restartable` excludes just that and failed overflow
checks (`resumes_iff_restartable`).
-/

namespace Shitix.Signal

variable {d first : Delivery} {ds later : List Delivery} {r r' : Regs} {cpu cpu' : Cpu}
  {arrivals : List Word} {t t' : Task} {rax rip : Word} {rsp : ℕ}

/-! ## What is expected -/

/-- The entry of the last handler; `rip` if there is none. -/
def lastEntry : List Delivery → Word → Word
  | [], rip => rip
  | d :: ds, _ => lastEntry ds d.entry

/-- The frame of the first delivery returns to `rip`, that of each other one to the handler
before it. -/
def SavedRips (m : ByteMem) : List Delivery → ℕ → Word → Prop
  | [], _, _ => True
  | d :: ds, rsp, rip =>
    wordAt m (d.frameAddr rsp + 40) = rip ∧ SavedRips m ds (d.frameAddr rsp) d.entry

/-- Where the program goes on after the handlers. -/
def resumeRip (first : Delivery) (r : Regs) : Word :=
  if first.rewinds r.rax then r.rip - 2 else r.rip

/-- What the program finds in `rax`: the number of the call if it is made again, `-EINTR` if it was
interrupted and is not, and its result otherwise. -/
def shownRax (first : Delivery) (r : Regs) : Word :=
  if first.rewinds r.rax then r.origRax
  else if r.rax = negErestartsys ∨ r.rax = negErestartnohand then negEintr
  else r.rax

/-- The handlers are entered, and the interrupted call is made again at most once, as the first
of them says. -/
structure Resumes (first : Delivery) (later : List Delivery) (before after : Cpu) : Prop where
  rip : after.regs.rip = lastEntry later first.entry
  rax : after.regs.rax = shownRax first before.regs
  saved : SavedRips after.mem (first :: later) before.regs.rsp.toNat (resumeRip first before.regs)

/-! ## The condition -/

/-- There is room for the frames below the stack pointer. -/
def FramesFit : List Delivery → ℕ → Prop
  | [], _ => True
  | d :: ds, rsp => d.frameSize + 16 ≤ rsp ∧ FramesFit ds (d.frameAddr rsp)

/-- No delivery, nor the end of `do_signal`, takes `rax` for the result of an interrupted call. -/
structure Quiet (ds : List Delivery) (rax : Word) : Prop where
  not_restartsys : rax ≠ negErestartsys
  not_restartnohand : rax ≠ negErestartnohand
  not_restartnointr : rax ≠ negErestartnointr
  not_restarts : rax = negEintr → ∀ d ∈ ds, d.restarts = false

/-- The overflow checks pass, `-ERESTARTSYS` only meets a handler with `SA_RESTART`, and
what `rax` shows means nothing to the handlers after the first. -/
structure Restartable (first : Delivery) (later : List Delivery) (r : Regs) : Prop where
  fits : first.Fits r
  later_fit : FramesFit later (first.frameAddr r.rsp.toNat)
  restartsys : r.rax = negErestartsys → first.restarts = true
  quiet : Quiet later (shownRax first r)

/-! ## Handlers after the first -/

theorem Quiet.not_rewinds (h : Quiet (d :: ds) rax) : ¬ d.rewinds rax := by
  rintro (hnointr | ⟨hsys | heintr, hrestarts⟩)
  · exact h.not_restartnointr hnointr
  · exact h.not_restartsys hsys
  · rw [h.not_restarts heintr d List.mem_cons_self] at hrestarts
    exact Bool.false_ne_true hrestarts

theorem Quiet.tail (h : Quiet (d :: ds) rax) : Quiet ds rax :=
  ⟨h.not_restartsys, h.not_restartnohand, h.not_restartnointr,
    fun heintr later hlater => h.not_restarts heintr later (List.mem_cons_of_mem _ hlater)⟩

theorem Quiet.adjusted (h : Quiet (d :: ds) r.rax) : adjusted d r = r := by
  rw [Signal.adjusted, if_neg h.not_rewinds, if_neg h.not_restartnohand]

theorem Quiet.finish (h : Quiet ds r.rax) : finish r = .ok r := by
  rw [Signal.finish, if_neg]
  rintro (hsys | hnohand | hnointr)
  · exact h.not_restartsys hsys
  · exact h.not_restartnohand hnohand
  · exact h.not_restartnointr hnointr

theorem saved_rip_deliverAll (h : deliverAll ds (delivered d cpu) = .ok cpu') :
    wordAt cpu'.mem (d.frameAddr cpu.regs.rsp.toNat + 40) = (adjusted d cpu.regs).rip := by
  rw [← delivered_saved_rip]
  -- a word above the stack pointer outlives the deliveries
  refine wordAt_congr fun x hx _ => deliverAll_above h ?_
  rw [delivered_rsp]
  omega

theorem framesFit_of_deliverAll (h : deliverAll ds cpu = .ok cpu') :
    FramesFit ds cpu.regs.rsp.toNat := by
  induction ds generalizing cpu with
  | nil => trivial
  | cons d ds ih =>
    obtain ⟨hfits, hrest⟩ := deliverAll_cons.mp h
    have hfit := ih hrest
    rw [delivered_rsp] at hfit
    exact ⟨hfits.2, hfit⟩

/-- Handlers that find `rax` quiet are entered one from the other. -/
theorem Quiet.deliverAll (h : Quiet ds cpu.regs.rax) (hfit : FramesFit ds cpu.regs.rsp.toNat) :
    ∃ cpu', deliverAll ds cpu = .ok cpu' ∧ cpu'.regs.rip = lastEntry ds cpu.regs.rip ∧
      cpu'.regs.rax = cpu.regs.rax ∧
      SavedRips cpu'.mem ds cpu.regs.rsp.toNat cpu.regs.rip := by
  induction ds generalizing cpu with
  | nil => exact ⟨cpu, rfl, rfl, rfl, trivial⟩
  | cons d ds ih =>
    have hrax : (delivered d cpu).regs.rax = cpu.regs.rax := by
      rw [delivered_rax, h.adjusted]
    have htail := h.tail
    rw [← hrax] at htail
    have hfits : d.Fits cpu.regs := ⟨fun hrewinds => absurd hrewinds h.not_rewinds, hfit.1⟩
    have hfit' := hfit.2
    rw [← delivered_rsp] at hfit'
    obtain ⟨cpu', hall, hrip, hrax', hsaved⟩ := ih htail hfit'
    rw [delivered_rsp] at hsaved
    have hword := saved_rip_deliverAll hall
    rw [h.adjusted] at hword
    exact ⟨cpu', deliverAll_cons.mpr ⟨hfits, hall⟩, hrip, hrax'.trans hrax, hword, hsaved⟩

theorem sub_two_ne (w : Word) : w - 2 ≠ w := by
  bv_omega

/-- What must hold of `rax` if no entry was moved back. -/
theorem rax_of_rips (h : deliverAll ds cpu = .ok cpu') (hfinish : finish cpu'.regs = .ok r)
    (hrip : r.rip = lastEntry ds cpu.regs.rip)
    (hsaved : SavedRips cpu'.mem ds cpu.regs.rsp.toNat cpu.regs.rip) :
    cpu.regs.rax ≠ negErestartsys ∧ cpu.regs.rax ≠ negErestartnointr ∧
      (cpu.regs.rax = negErestartnohand → r.rax = negEintr) ∧
      (cpu.regs.rax = negEintr → r.rax = negEintr ∧ ∀ d ∈ ds, d.restarts = false) := by
  induction ds generalizing cpu with
  | nil =>
    cases h
    unfold finish at hfinish
    split_ifs at hfinish with hcode
    · -- the end of `do_signal` moves the entry back
      unfold Regs.restart at hfinish
      split_ifs at hfinish
      cases hfinish
      exact absurd hrip (sub_two_ne _)
    · cases hfinish
      refine ⟨fun hsys => hcode (.inl hsys), fun hnointr => hcode (.inr (.inr hnointr)),
        fun hnohand => absurd (.inr (.inl hnohand)) hcode, fun heintr => ⟨heintr, ?_⟩⟩
      exact fun d hd => absurd hd List.not_mem_nil
  | cons d ds ih =>
    obtain ⟨-, hrest⟩ := deliverAll_cons.mp h
    obtain ⟨hword, hsaved'⟩ := hsaved
    rw [saved_rip_deliverAll hrest] at hword
    have hrewinds : ¬ d.rewinds cpu.regs.rax := by
      intro hrewinds
      rw [adjusted, if_pos hrewinds] at hword
      exact sub_two_ne _ hword
    rw [← delivered_rsp] at hsaved'
    have hrip' : r.rip = lastEntry ds (delivered d cpu).regs.rip :=
      hrip
    obtain ⟨hsys, hnointr, -, heintr⟩ := ih hrest hrip' hsaved'
    rw [delivered_rax, adjusted, if_neg hrewinds] at hsys hnointr heintr
    by_cases hnohand : cpu.regs.rax = negErestartnohand
    · rw [if_pos hnohand] at heintr
      rw [hnohand]
      exact ⟨by decide, by decide, fun _ => (heintr rfl).1, fun h => absurd h (by decide)⟩
    · rw [if_neg hnohand] at hsys hnointr heintr
      refine ⟨hsys, hnointr, fun hcode => absurd hcode hnohand,
        fun hcode => ⟨(heintr hcode).1, fun other hother => ?_⟩⟩
      rcases List.mem_cons.mp hother with rfl | hother
      · exact Bool.eq_false_iff.mpr fun hrestarts => hrewinds (.inr ⟨.inr hcode, hrestarts⟩)
      · exact (heintr hcode).2 other hother

/-! ## All handlers -/

theorem adjusted_rax (h : r.rax = negErestartsys → first.restarts = true) :
    (adjusted first r).rax = shownRax first r := by
  unfold adjusted shownRax
  by_cases hrewinds : first.rewinds r.rax
  · rw [if_pos hrewinds, if_pos hrewinds]
  · have hsys : r.rax ≠ negErestartsys := fun hsys => hrewinds (.inr ⟨.inl hsys, h hsys⟩)
    simp only [hsys, false_or]
    split_ifs <;> rfl

theorem Restartable.resumes (h : Restartable first later cpu.regs) :
    ∃ cpu', deliverAll (first :: later) cpu = .ok cpu' ∧ finish cpu'.regs = .ok cpu'.regs ∧
      Resumes first later cpu cpu' := by
  have hrax : (delivered first cpu).regs.rax = shownRax first cpu.regs := by
    rw [delivered_rax, adjusted_rax h.restartsys]
  have hquiet := h.quiet
  rw [← hrax] at hquiet
  have hfit := h.later_fit
  rw [← delivered_rsp] at hfit
  obtain ⟨cpu', hall, hrip, hrax', hsaved⟩ := hquiet.deliverAll hfit
  have hquiet' := hquiet
  rw [← hrax'] at hquiet'
  rw [delivered_rsp] at hsaved
  have hword := saved_rip_deliverAll hall
  have hadjusted : (adjusted first cpu.regs).rip = resumeRip first cpu.regs := by
    unfold adjusted resumeRip
    split_ifs <;> rfl
  rw [hadjusted] at hword
  exact ⟨cpu', deliverAll_cons.mpr ⟨h.fits, hall⟩, hquiet'.finish, hrip,
    hrax'.trans hrax, hword, hsaved⟩

theorem Resumes.restartable (hall : deliverAll (first :: later) cpu = .ok cpu')
    (hfinish : finish cpu'.regs = .ok r) (h : Resumes first later cpu ⟨r, cpu'.mem⟩) :
    Restartable first later cpu.regs := by
  obtain ⟨hfits, hrest⟩ := deliverAll_cons.mp hall
  have hfit := framesFit_of_deliverAll hrest
  have hsaved := h.saved.2
  rw [← delivered_rsp] at hsaved
  have hrip : r.rip = lastEntry later (delivered first cpu).regs.rip :=
    h.rip
  obtain ⟨hsys, hnointr, hnohand, heintr⟩ := rax_of_rips hrest hfinish hrip hsaved
  rw [delivered_rsp] at hfit
  have hrestartsys : cpu.regs.rax = negErestartsys → first.restarts = true := by
    intro hcode
    by_contra hrestarts
    refine hsys ?_
    have hrewinds : ¬ first.rewinds cpu.regs.rax := by
      rw [hcode]
      rintro (hnointr' | ⟨-, hrestarts'⟩)
      · exact absurd hnointr' (by decide)
      · exact hrestarts hrestarts'
    rw [delivered_rax, adjusted, if_neg hrewinds, if_neg (by rw [hcode]; decide), hcode]
  rw [delivered_rax, adjusted_rax hrestartsys] at hsys hnointr hnohand heintr
  have hrax := h.rax
  refine ⟨hfits, hfit, hrestartsys, hsys, fun hcode => ?_, hnointr, fun hcode => (heintr hcode).2⟩
  rw [hnohand hcode, hcode] at hrax
  exact absurd hrax (by decide)

/-- When `do_signal` delivers handlers and the task goes back to user mode, the handlers are entered
and the call is restarted as it should be, if and only if the state is `Restartable`. -/
theorem resumes_iff_restartable (h : selected arrivals t = some (first :: later, .back t')) :
    (∃ outcome after, doSignal arrivals t cpu = some outcome ∧ outcome.last = .returned t' after ∧
      Resumes first later cpu after) ↔ Restartable first later cpu.regs := by
  obtain ⟨outcome, hsignal, hlast⟩ : ∃ outcome, doSignal arrivals t cpu = some outcome ∧ _ :=
    doSignal_eq_replay h
  constructor
  · rintro ⟨other, after, hother, hreturned, hresumes⟩
    cases hsignal.symm.trans hother
    rw [hlast, replay] at hreturned
    cases hall : deliverAll (first :: later) cpu with
    | error e =>
      rw [hall] at hreturned
      cases hreturned
    | ok cpu' =>
      rw [hall] at hreturned
      dsimp only [conclude] at hreturned
      cases hfinish : finish cpu'.regs with
      | error e =>
        rw [hfinish] at hreturned
        cases hreturned
      | ok r =>
        rw [hfinish] at hreturned
        cases hreturned
        exact hresumes.restartable hall hfinish
  · intro hrestartable
    obtain ⟨cpu', hall, hfinish, hresumes⟩ := hrestartable.resumes
    refine ⟨outcome, cpu', hsignal, ?_, hresumes⟩
    rw [hlast, replay, hall]
    dsimp only [conclude]
    rw [hfinish]

/-- A task for which signal 10 waits, with a handler at 0x401000. -/
def handlerTask (flags : Word) : Task where
  signal := 0x400
  blocked := 0
  actions := some fun _ => { handler := .user 0x401000, flags := flags }
  state := .running
  exitCode := 0

/-- A task in the middle of a `read`, with its result. -/
def readingCpu (rax : Word) : Cpu where
  regs := {
    r15 := 0, r14 := 0, r13 := 0, r12 := 0, rbp := 0, rbx := 0, r11 := 0x202, r10 := 0, r9 := 0, r8 := 0,
    rax := rax, rcx := 0x400100, rdx := 0, rsi := 0, rdi := 0, origRax := 0, rip := 0x400100,
    cs := userCs, rflags := 0x202, rsp := 0x7ff000, ss := userDs }
  mem := { byte := fun _ => 0, written := [] }

theorem selected_handlerTask (flags : Word) : ∃ t',
    selected [] (handlerTask flags) = some ([⟨10, 0x401000, flags⟩], .back t') := by
  have hpending : (handlerTask flags).pending = 0x400#64 := by
    simp only [Task.pending, handlerTask]
    decide
  have hlowest : BitSet.lowest 0x400#64 = 10 := by decide
  have heffect : ((handlerTask flags).took 10).effect 10 = .deliver ⟨10, 0x401000, flags⟩ := rfl
  have hdone : ((handlerTask flags).took 10).pending = 0#64 := by
    simp only [Task.pending, Task.took, handlerTask]
    decide
  simp [selected, rounds, selection, hpending, hlowest, heffect, hdone]

/-- With `SA_RESTART`, a `read` that was interrupted is made again. -/
theorem resumes_interrupted_read : ∃ t' outcome after,
    selected [] (handlerTask saRestart) = some ([⟨10, 0x401000, saRestart⟩], .back t') ∧
      doSignal [] (handlerTask saRestart) (readingCpu negErestartsys) = some outcome ∧
      outcome.last = .returned t' after ∧
      Resumes ⟨10, 0x401000, saRestart⟩ [] (readingCpu negErestartsys) after := by
  obtain ⟨t', hselected⟩ := selected_handlerTask saRestart
  have hrestartable : Restartable ⟨10, 0x401000, saRestart⟩ [] (readingCpu negErestartsys).regs := by
    refine ⟨⟨fun _ => by decide, by decide⟩, trivial, fun _ => by decide, by decide, by decide,
      by decide, fun h => absurd h (by decide)⟩
  obtain ⟨outcome, after, hsignal, hlast, hresumes⟩ :=
    (resumes_iff_restartable hselected).mpr hrestartable
  exact ⟨t', outcome, after, hselected, hsignal, hlast, hresumes⟩

/-- Without `SA_RESTART`, the handler is entered two bytes early. -/
theorem handler_entered_two_early : ∃ t' outcome after,
    selected [] (handlerTask 0) = some ([⟨10, 0x401000, 0⟩], .back t') ∧
      doSignal [] (handlerTask 0) (readingCpu negErestartsys) = some outcome ∧
      outcome.last = .returned t' after ∧ after.regs.rip = 0x400ffe ∧
      after.regs.rax ≠ negEintr ∧
      ¬ Resumes ⟨10, 0x401000, 0⟩ [] (readingCpu negErestartsys) after := by
  obtain ⟨t', hselected⟩ := selected_handlerTask 0
  obtain ⟨outcome, hsignal, hlast⟩ : ∃ outcome,
      doSignal [] (handlerTask 0) (readingCpu negErestartsys) = some outcome ∧ _ :=
    doSignal_eq_replay hselected
  refine ⟨t', outcome, _, hselected, hsignal, hlast, rfl, by decide, fun hresumes => ?_⟩
  exact absurd hresumes.rip (by decide)

end Shitix.Signal
