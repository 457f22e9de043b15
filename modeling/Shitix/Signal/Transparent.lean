import Shitix.Signal.Sigreturn

/-!
# What a delivery leaves behind

A handler is delivered, runs, and returns through the trampoline and `rt_sigreturn`.  A
`Level` is a delivery together with the state its handler returns in, which may be any state a
function can return in (`NormalReturn`); several levels are handlers on top of each other.

Only `rip`, `cs`, `rflags`, `rsp` and `ss` are saved.  `rax` comes back as 0 and the carry flag
cleared, `rcx` and `r11` are lost in the `syscall` of the trampoline, and the other caller-saved
registers keep what the handler left in them; the frame lies in the 128 bytes below the stack pointer
that the program may be using.  So an interrupted program only finds what it had if it happens
to have had just that (`transparent_iff_unharmed`, `rax_is_lost`).
-/

namespace Shitix.Signal

open Regs ByteMem BitVec

variable {d : Delivery} {before entered exit after : Cpu}

/-! ## The round trip -/

/-- `mov $15, %rax; syscall`, up to the registers `syscall_entry` saves.  `none` if there is other
code. -/
def Cpu.trampolined (cpu : Cpu) : Option Cpu :=
  if cpu.mem.bytes cpu.regs.rip.toNat 9 = trampoline.take 9 then
    some { cpu with regs := { cpu.regs with
      rax := 15
      origRax := 15
      rcx := cpu.regs.rip + 9
      r11 := cpu.regs.rflags
      rip := cpu.regs.rip + 9
      cs := userCs
      ss := userDs } }
  else none

/-- From the return of a handler to the return of `rt_sigreturn`. -/
def Cpu.sigreturns (cpu : Cpu) : Option Cpu :=
  match cpu.trampolined with
  | none => none
  | some cpu => (rtSigreturn cpu).map fun r => { cpu with regs := (r.answer 0).forced }

/-- The registers a function gives back as it found them. -/
def Regs.calleeSaved (r : Regs) : List Word := [r.rbx, r.rbp, r.r12, r.r13, r.r14, r.r15]

/-- The registers that neither a function nor the way back from a handler restores. -/
def Regs.unsaved (r : Regs) : List Word := [r.rdi, r.rsi, r.rdx, r.r8, r.r9, r.r10]

/-- A handler returned as functions do: to its return address, with the callee-saved registers
and the stack above it (up to `top`) as it found them. -/
structure NormalReturn (entered exit : Cpu) (top : ℕ) : Prop where
  rsp : exit.regs.rsp = entered.regs.rsp + 8
  rip : exit.regs.rip = wordAt entered.mem entered.regs.rsp.toNat
  calleeSaved : exit.regs.calleeSaved = entered.regs.calleeSaved
  stack : ∀ x, entered.regs.rsp.toNat ≤ x → x < top → exit.mem.byte x = entered.mem.byte x

/-- A delivery, and the state its handler returned in. -/
structure Level where
  delivery : Delivery
  exit : Cpu

/-- All handlers returned as functions do. -/
def NormalReturns : List Level → Cpu → Prop
  | [], _ => True
  | level :: levels, before => ∀ entered, deliver level.delivery before = .ok entered →
    NormalReturn entered level.exit before.regs.rsp.toNat ∧ NormalReturns levels entered

/-! ## Transparency -/

/-- The registers a program has. -/
def Regs.user (r : Regs) : Regs := { r with origRax := 0 }

/-- After `rt_sigreturn` the program has the registers it had, and the bytes below its stack
pointer. -/
def Restored (before exit : Cpu) : Prop :=
  ∃ after, exit.sigreturns = some after ∧ after.regs.user = before.regs.user ∧
    ∀ x, before.regs.rsp.toNat - 128 ≤ x → x < before.regs.rsp.toNat →
      after.mem.byte x = before.mem.byte x

/-- Each handler in turn gives back what was there before its delivery. -/
def Transparent : List Level → Cpu → Prop
  | [], _ => True
  | level :: levels, before => ∃ entered, deliver level.delivery before = .ok entered ∧
    Restored before level.exit ∧ Transparent levels entered

/-! ## The condition -/

/-- The program had what it will find: in the registers that are not saved, and where the frame
goes. -/
structure Unharmed (d : Delivery) (exit before : Cpu) : Prop where
  fits : d.Fits before.regs
  cs : before.regs.cs = userCs
  ss : before.regs.ss = userDs
  carry : before.regs.rflags.getLsbD 0 = false
  interrupts : before.regs.rflags.getLsbD 9 = true
  nested : before.regs.rflags.getLsbD 14 = false
  rax : before.regs.rax = 0
  rcx : before.regs.rcx = BitVec.ofNat 64 (d.frameAddr before.regs.rsp.toNat + 57)
  r11 : before.regs.r11 = exit.regs.rflags
  unsaved : exit.regs.unsaved = before.regs.unsaved
  frame : ∀ i b, (frameBytes d before.regs (d.frameAddr before.regs.rsp.toNat))[i]? = some b →
    before.regs.rsp.toNat - 128 ≤ d.frameAddr before.regs.rsp.toNat + i →
    before.mem.byte (d.frameAddr before.regs.rsp.toNat + i) = b
  below : ∀ x, before.regs.rsp.toNat - 128 ≤ x → x < d.frameAddr before.regs.rsp.toNat →
    exit.mem.byte x = before.mem.byte x

/-- This holds at every level. -/
def AllUnharmed : List Level → Cpu → Prop
  | [], _ => True
  | level :: levels, before => Unharmed level.delivery level.exit before ∧
    AllUnharmed levels (delivered level.delivery before)

/-! ## One level -/

/-- What a frame saves. -/
def Regs.saved (r : Regs) : SavedFrame := ⟨r.ss, r.rsp, r.rflags, r.cs, r.rip⟩

/-- What the program finds in its registers. -/
def givenBack (d : Delivery) (before exit : Cpu) : Regs :=
  { exit.regs with
    rax := 0
    origRax := 15
    rcx := BitVec.ofNat 64 (d.frameAddr before.regs.rsp.toNat + 57)
    r11 := exit.regs.rflags
    rip := (adjusted d before.regs).rip
    cs := before.regs.cs
    rflags := ((before.regs.rflags &&& ~~~1#64) ||| 0x200#64) &&& ~~~0x4000#64
    rsp := before.regs.rsp
    ss := before.regs.ss }

theorem length_frameBytes_ge (d : Delivery) (r : Regs) (addr : ℕ) :
    60 ≤ (frameBytes d r addr).length := by
  rw [frameBytes_eq]
  simp only [List.length_append, frameWords, List.flatMap_cons, length_leBytes,
    trampoline, List.length_cons]
  omega

section Trip

variable (hfits : d.Fits before.regs)
  (hreturn : NormalReturn (delivered d before) exit before.regs.rsp.toNat)

include hfits in
theorem frame_room : d.frameAddr before.regs.rsp.toNat + 60 ≤ before.regs.rsp.toNat := by
  have hbelow := frame_below (r := before.regs) hfits.2
  have hlength := length_frameBytes_ge d before.regs (d.frameAddr before.regs.rsp.toNat)
  omega

include hreturn

/-- The handler left the frame as it was delivered. -/
theorem exit_byte {x : ℕ} (hx : d.frameAddr before.regs.rsp.toNat ≤ x)
    (htop : x < before.regs.rsp.toNat) : exit.mem.byte x = (delivered d before).mem.byte x := by
  refine hreturn.stack x ?_ htop
  rw [delivered_rsp]
  exact hx

include hfits

theorem exit_word {i w : ℕ} (hi : i < 6)
    (hw : (frameWords (adjusted d before.regs) (d.frameAddr before.regs.rsp.toNat))[i]? = some w) :
    wordAt exit.mem (d.frameAddr before.regs.rsp.toNat + 8 * i) = BitVec.ofNat 64 w := by
  have hroom := frame_room hfits
  have hsame : wordAt exit.mem (d.frameAddr before.regs.rsp.toNat + 8 * i) =
      wordAt (delivered d before).mem (d.frameAddr before.regs.rsp.toNat + 8 * i) :=
    wordAt_congr fun x hx hx' => exit_byte hreturn (by omega) (by omega)
  rw [hsame, delivered_mem]
  exact wordAt_frame hw

theorem exit_trampoline :
    exit.mem.bytes (d.frameAddr before.regs.rsp.toNat + 48) 9 = trampoline.take 9 := by
  have hroom := frame_room hfits
  have hsame : exit.mem.bytes (d.frameAddr before.regs.rsp.toNat + 48) 9 =
      (delivered d before).mem.bytes (d.frameAddr before.regs.rsp.toNat + 48) 9 :=
    bytes_congr fun i hi => exit_byte hreturn (by omega) (by omega)
  rw [hsame, delivered_mem, frameBytes_eq]
  generalize (if d.siginfo then siginfoBytes d.signum else []) = info
  have hsplit : trampoline ++ info = trampoline.take 9 ++ (trampoline.drop 9 ++ info) := rfl
  rw [hsplit, ← List.append_assoc]
  exact bytes_copy ..

theorem exit_rsp : exit.regs.rsp.toNat = d.frameAddr before.regs.rsp.toNat + 8 := by
  have hroom := frame_room hfits
  have height : (8 : Word).toNat = 8 := rfl
  rw [hreturn.rsp, toNat_add, delivered_rsp, height, Nat.mod_eq_of_lt (by omega)]

omit hfits in
theorem exit_rip : exit.regs.rip = BitVec.ofNat 64 (d.frameAddr before.regs.rsp.toNat + 48) := by
  rw [hreturn.rip, delivered_rsp, delivered_mem]
  exact wordAt_frame (i := 0) rfl

/-- The trampoline and `rt_sigreturn` give back what was saved, if the selectors were those of
user mode. -/
theorem sigreturns_exit : exit.sigreturns =
    if before.regs.cs = userCs ∧ before.regs.ss = userDs then
      some ⟨givenBack d before exit, exit.mem⟩ else none := by
  have hroom := frame_room hfits
  have hrip : exit.regs.rip.toNat = d.frameAddr before.regs.rsp.toNat + 48 := by
    rw [exit_rip hreturn, toNat_ofNat, Nat.mod_eq_of_lt (by omega)]
  have hrcx : exit.regs.rip + 9 = BitVec.ofNat 64 (d.frameAddr before.regs.rsp.toNat + 57) := by
    rw [exit_rip hreturn]
    exact (ofNat_add (d.frameAddr before.regs.rsp.toNat + 48) 9).symm
  rw [Cpu.sigreturns, Cpu.trampolined, hrip, if_pos (exit_trampoline hfits hreturn)]
  dsimp only
  have hsaved : savedFrame ⟨{ exit.regs with
      rax := 15
      origRax := 15
      rcx := exit.regs.rip + 9
      r11 := exit.regs.rflags
      rip := exit.regs.rip + 9
      cs := userCs
      ss := userDs }, exit.mem⟩ = (adjusted d before.regs).saved := by
    refine savedFrame_eq fun i w hw => ?_
    have hword : (frameWords (adjusted d before.regs)
      (d.frameAddr before.regs.rsp.toNat))[i + 1]? = some w := hw
    have hi : i < 5 := (getElem?_eq_some_iff.mp hw).1
    rw [exit_rsp hfits hreturn, add_assoc, show 8 + 8 * i = 8 * (i + 1) by omega]
    exact exit_word hfits hreturn (by omega) hword
  obtain ⟨hcs, hss, hrflags⟩ : (adjusted d before.regs).cs = before.regs.cs ∧
      (adjusted d before.regs).ss = before.regs.ss ∧
      (adjusted d before.regs).rflags = before.regs.rflags := by
    unfold adjusted
    split_ifs <;> exact ⟨rfl, rfl, rfl⟩
  rw [rtSigreturn, hsaved]
  simp only [SavedFrame.Intact, saved, hcs, hss]
  split_ifs
  · rw [hrcx]
    simp only [hrflags, adjusted_rsp]
    rfl
  · rfl

/-- The bytes below the stack pointer are as they were. -/
theorem red_zone_iff (hadjusted : adjusted d before.regs = before.regs) :
    (∀ x, before.regs.rsp.toNat - 128 ≤ x → x < before.regs.rsp.toNat →
      exit.mem.byte x = before.mem.byte x) ↔
    (∀ i b, (frameBytes d before.regs (d.frameAddr before.regs.rsp.toNat))[i]? = some b →
      before.regs.rsp.toNat - 128 ≤ d.frameAddr before.regs.rsp.toNat + i →
      before.mem.byte (d.frameAddr before.regs.rsp.toNat + i) = b) ∧
    ∀ x, before.regs.rsp.toNat - 128 ≤ x → x < d.frameAddr before.regs.rsp.toNat →
      exit.mem.byte x = before.mem.byte x := by
  have hroom := frame_room hfits
  have hbelow := frame_below (r := before.regs) hfits.2
  have hstack : ∀ x, d.frameAddr before.regs.rsp.toNat ≤ x → x < before.regs.rsp.toNat →
      exit.mem.byte x = (delivered d before).mem.byte x := fun x => exit_byte hreturn
  rw [delivered_mem, hadjusted] at hstack
  generalize d.frameAddr before.regs.rsp.toNat = addr at hroom hbelow hstack
  constructor
  · intro hzone
    refine ⟨fun i b hb hlow => ?_, fun x hlow hx => hzone x hlow (by omega)⟩
    have hi : i < (frameBytes d before.regs addr).length := (List.getElem?_eq_some_iff.mp hb).1
    rw [← hzone (addr + i) hlow (by omega), hstack (addr + i) (by omega) (by omega)]
    exact copy_inside hb
  · rintro ⟨hframe, hhandler⟩ x hlow htop
    by_cases hx : x < addr
    · exact hhandler x hlow hx
    · rw [hstack x (by omega) htop]
      by_cases hend : addr + (frameBytes d before.regs addr).length ≤ x
      · exact copy_outside (.inr hend)
      · -- a byte of the frame
        obtain ⟨i, rfl⟩ : ∃ i, x = addr + i := ⟨x - addr, by omega⟩
        have hi : i < (frameBytes d before.regs addr).length := by omega
        have hb := List.getElem?_eq_getElem hi
        rw [copy_inside hb, hframe i _ hb hlow]

end Trip

/-- The flags are the same on return, if they were those of a program without carry. -/
theorem flags_iff (w : Word) : ((w &&& ~~~1#64) ||| 0x200#64) &&& ~~~0x4000#64 = w ↔
    w.getLsbD 0 = false ∧ w.getLsbD 9 = true ∧ w.getLsbD 14 = false := by
  have hmask : ∀ i < 64, (~~~1#64).getLsbD i = !decide (i = 0) ∧
      (0x200#64).getLsbD i = decide (i = 9) ∧ (~~~0x4000#64).getLsbD i = !decide (i = 14) := by decide
  have hbit : ∀ i < 64, (((w &&& ~~~1#64) ||| 0x200#64) &&& ~~~0x4000#64).getLsbD i =
      ((w.getLsbD i && !decide (i = 0) || decide (i = 9)) && !decide (i = 14)) := by
    intro i hi
    obtain ⟨hcarry, hif, hnt⟩ := hmask i hi
    rw [getLsbD_and, getLsbD_or, getLsbD_and, hcarry, hif, hnt]
  constructor
  · intro h
    have hcarry := hbit 0 (by decide)
    have hif := hbit 9 (by decide)
    have hnt := hbit 14 (by decide)
    rw [h] at hcarry hif hnt
    exact ⟨by simpa using hcarry, by simpa using hif, by simpa using hnt⟩
  · rintro ⟨hcarry, hif, hnt⟩
    apply eq_of_getLsbD_eq
    intro i hi
    rw [hbit i hi]
    by_cases h0 : i = 0
    · rw [h0, hcarry]
      rfl
    · by_cases h9 : i = 9
      · rw [h9, hif]
        rfl
      · by_cases h14 : i = 14
        · rw [h14, hnt]
          rfl
        · simp [h0, h9, h14]

theorem delivered_calleeSaved (d : Delivery) (cpu : Cpu) :
    (delivered d cpu).regs.calleeSaved = cpu.regs.calleeSaved := by
  unfold delivered enterHandler adjusted
  split_ifs <;> rfl

theorem adjusted_of_calm {r : Regs} (h : Calm r.rax) : adjusted d r = r := (h [d]).adjusted

/-- A handler's level is transparent if and only if the program is unharmed. -/
theorem restored_iff (hfits : d.Fits before.regs)
    (hreturn : NormalReturn (delivered d before) exit before.regs.rsp.toNat) :
    Restored before exit ↔ Unharmed d exit before := by
  have hcallee := hreturn.calleeSaved
  rw [delivered_calleeSaved] at hcallee
  rw [Restored, sigreturns_exit hfits hreturn]
  constructor
  · rintro ⟨after, hafter, hregs, hzone⟩
    split_ifs at hafter with hselectors
    cases hafter
    have hrax : before.regs.rax = 0 := (congrArg rax hregs).symm
    have hadjusted : adjusted d before.regs = before.regs := by
      apply adjusted_of_calm
      rw [hrax]
      exact calm_zero
    have hunsaved : (givenBack d before exit).user.unsaved = before.regs.user.unsaved :=
      congrArg unsaved hregs
    obtain ⟨hcarry, hif, hnt⟩ := (flags_iff _).mp (congrArg rflags hregs)
    obtain ⟨hframe, hbelow⟩ := (red_zone_iff hfits hreturn hadjusted).mp hzone
    exact {
      fits := hfits
      cs := hselectors.1
      ss := hselectors.2
      carry := hcarry
      interrupts := hif
      nested := hnt
      rax := hrax
      rcx := (congrArg rcx hregs).symm
      r11 := (congrArg r11 hregs).symm
      unsaved := hunsaved
      frame := hframe
      below := hbelow }
  · intro h
    have hadjusted : adjusted d before.regs = before.regs := by
      apply adjusted_of_calm
      rw [h.rax]
      exact calm_zero
    rw [if_pos ⟨h.cs, h.ss⟩]
    refine ⟨_, rfl, ?_, (red_zone_iff hfits hreturn hadjusted).mpr ⟨h.frame, h.below⟩⟩
    have hflags := (flags_iff before.regs.rflags).mpr ⟨h.carry, h.interrupts, h.nested⟩
    have hunsaved := h.unsaved
    simp only [calleeSaved, unsaved, List.cons.injEq] at hcallee hunsaved
    simp only [user, givenBack, hadjusted, hflags, hcallee, hunsaved, ← h.rcx, ← h.r11, h.rax]

/-- Handlers on top of each other are transparent if and only if the program and each interrupted
handler are unharmed. -/
theorem transparent_iff_unharmed (levels : List Level) (before : Cpu)
    (h : NormalReturns levels before) : Transparent levels before ↔ AllUnharmed levels before := by
  induction levels generalizing before with
  | nil => exact Iff.rfl
  | cons level levels ih =>
    constructor
    · rintro ⟨entered, hdeliver, hrestored, hrest⟩
      obtain ⟨hreturn, hreturns⟩ := h entered hdeliver
      obtain ⟨hfits, rfl⟩ := deliver_eq_ok.mp hdeliver
      exact ⟨(restored_iff hfits hreturn).mp hrestored, (ih _ hreturns).mp hrest⟩
    · rintro ⟨hunharmed, hrest⟩
      have hdeliver := deliver_of_fits hunharmed.fits
      obtain ⟨hreturn, hreturns⟩ := h _ hdeliver
      exact ⟨_, hdeliver, (restored_iff hunharmed.fits hreturn).mpr hunharmed,
        (ih _ hreturns).mpr hrest⟩

/-- A handler that returns at once. -/
def Cpu.returns (entered : Cpu) : Cpu :=
  { entered with regs := { entered.regs with
    rsp := entered.regs.rsp + 8
    rip := wordAt entered.mem entered.regs.rsp.toNat } }

theorem normalReturn_returns (entered : Cpu) (top : ℕ) :
    NormalReturn entered entered.returns top where
  rsp := by simp only [Cpu.returns]
  rip := by simp only [Cpu.returns]
  calleeSaved := by simp only [Cpu.returns, calleeSaved]
  stack := fun _ _ _ => by simp [Cpu.returns]

/-- `SIGUSR1` -/
def usr1 : Delivery := ⟨10, 0x401000, 0⟩

/-- `SIGUSR1`, to a handler that returns at once. -/
def usr1Level (before : Cpu) : Level := ⟨usr1, (delivered usr1 before).returns⟩

theorem normalReturns_usr1 (before : Cpu) : NormalReturns [usr1Level before] before := by
  intro entered hdeliver
  obtain ⟨-, rfl⟩ := deliver_eq_ok.mp hdeliver
  exact ⟨normalReturn_returns _ _, trivial⟩

/-- The registers of a program that will find what it had. -/
def luckyRegs : Regs :=
  { (readingCpu 0).regs with rcx := 0x7fefe9, rdi := 10 }

/-- The program, with the frame already in the bytes below its stack pointer. -/
def luckyCpu : Cpu :=
  ⟨luckyRegs, (readingCpu 0).mem.copy 0x7fefb0 (frameBytes usr1 luckyRegs 0x7fefb0)⟩

theorem unharmed_luckyCpu : Unharmed usr1 (delivered usr1 luckyCpu).returns luckyCpu where
  fits := ⟨fun _ => by decide, by decide⟩
  cs := rfl
  ss := rfl
  carry := by decide
  interrupts := by decide
  nested := by decide
  rax := rfl
  rcx := by
    decide
  r11 := (delivered_selectors usr1 luckyCpu).2.2.symm
  unsaved := by decide
  frame := by
    intro i b hb _
    exact copy_inside hb
  below := by
    intro x _ hx
    exact copy_outside (.inl hx)

theorem transparent_usr1 :
    NormalReturns [usr1Level luckyCpu] luckyCpu ∧ Transparent [usr1Level luckyCpu] luckyCpu := by
  have hreturns := normalReturns_usr1 luckyCpu
  exact ⟨hreturns, (transparent_iff_unharmed _ _ hreturns).mpr ⟨unharmed_luckyCpu, trivial⟩⟩

/-- A program that had 5 in `rax` finds 0 there. -/
theorem rax_is_lost : NormalReturns [usr1Level (readingCpu 5)] (readingCpu 5) ∧
    (readingCpu 5).regs.rax = 5 ∧
    (∃ after, (usr1Level (readingCpu 5)).exit.sigreturns = some after ∧ after.regs.rax = 0) ∧
    ¬ Transparent [usr1Level (readingCpu 5)] (readingCpu 5) := by
  have hfits : usr1.Fits (readingCpu 5).regs := ⟨fun _ => by decide, by decide⟩
  have hreturn := normalReturn_returns (delivered usr1 (readingCpu 5)) (readingCpu 5).regs.rsp.toNat
  refine ⟨normalReturns_usr1 _, rfl,
    ⟨_, (sigreturns_exit hfits hreturn).trans (if_pos ⟨rfl, rfl⟩), rfl⟩, ?_⟩
  rintro ⟨_, -, hrestored, -⟩
  have hrax := ((restored_iff hfits hreturn).mp hrestored).rax
  exact absurd hrax (by decide)

end Shitix.Signal
