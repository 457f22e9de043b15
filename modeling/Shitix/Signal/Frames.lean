import Shitix.Signal.Selection

/-!
# The frames of the handlers

What a delivery does to the registers and the user stack (`deliver_eq_ok`, `delivered`).  Each
frame lies below the stack pointer it was delivered at, so later deliveries leave earlier
frames alone (`deliverAll_above`).
-/

namespace Shitix.Signal

variable {d : Delivery} {ds : List Delivery} {r r' : Regs} {cpu cpu' : Cpu} {addr rsp : ℕ}

/-! ## Words of user memory -/

/-- The word at an address. -/
def wordAt (m : ByteMem) (a : ℕ) : Word := BitVec.ofNat 64 (leValue (m.bytes a 8))

theorem wordAt_congr {m m' : ByteMem} {a : ℕ} (h : ∀ x, a ≤ x → x < a + 8 → m'.byte x = m.byte x) :
    wordAt m' a = wordAt m a := by
  unfold wordAt
  rw [ByteMem.bytes_congr fun i hi => h (a + i) (by omega) (by omega)]

/-- The first word of what was copied. -/
theorem wordAt_copy (m : ByteMem) (a w : ℕ) (tail : List UInt8) :
    wordAt (m.copy a (leBytes 8 w ++ tail)) a = BitVec.ofNat 64 w := by
  have hbytes : (m.copy a (leBytes 8 w ++ tail)).bytes a 8 = leBytes 8 w := by
    have hread := m.bytes_copy a [] (leBytes 8 w) tail
    rwa [length_leBytes] at hread
  rw [wordAt, hbytes, leValue_leBytes]
  apply BitVec.eq_of_toNat_eq
  exact Nat.mod_mod w _

/-- Each word of what was copied. -/
theorem wordAt_copy_words {words : List ℕ} {tail : List UInt8} : ∀ {m : ByteMem} {a i w : ℕ},
    words[i]? = some w →
      wordAt (m.copy a (words.flatMap (leBytes 8) ++ tail)) (a + 8 * i) = BitVec.ofNat 64 w := by
  induction words with
  | nil =>
    intro m a i w hw
    cases hw
  | cons first words ih =>
    intro m a i w hw
    rw [List.flatMap_cons, List.append_assoc]
    cases i with
    | zero =>
      cases hw
      exact wordAt_copy m a _ _
    | succ i =>
      rw [ByteMem.copy_append, show a + 8 * (i + 1) = a + 8 + 8 * i by omega]
      exact ih hw

/-! ## One frame -/

theorem frameSize_le (d : Delivery) : d.frameSize ≤ 192 := by
  unfold Delivery.frameSize
  split_ifs <;> omega

theorem frameAddr_le (d : Delivery) (rsp : ℕ) : d.frameAddr rsp ≤ rsp := by
  unfold Delivery.frameAddr
  omega

theorem toNat_frameAddr (d : Delivery) (rsp : Word) :
    (BitVec.ofNat 64 (d.frameAddr rsp.toNat)).toNat = d.frameAddr rsp.toNat := by
  have hle := frameAddr_le d rsp.toNat
  rw [BitVec.toNat_ofNat, Nat.mod_eq_of_lt (by omega)]

theorem length_frameBytes_le : (frameBytes d r addr).length ≤ d.frameSize := by
  unfold frameBytes Delivery.frameSize
  cases d.siginfo <;> simp [trampoline, siginfoBytes]

/-- The frame lies below the stack pointer. -/
theorem frame_below (h : d.frameSize + 16 ≤ rsp) :
    d.frameAddr rsp + (frameBytes d r (d.frameAddr rsp)).length ≤ rsp := by
  have hlength : (frameBytes d r (d.frameAddr rsp)).length ≤ d.frameSize := length_frameBytes_le
  have haddr : d.frameAddr rsp ≤ rsp - d.frameSize - 16 := Nat.div_mul_le_self ..
  omega

/-- The words of a frame. -/
def frameWords (r : Regs) (addr : ℕ) : List ℕ :=
  [addr + 48, r.ss.toNat, r.rsp.toNat, r.rflags.toNat, r.cs.toNat, r.rip.toNat]

theorem frameBytes_eq (d : Delivery) (r : Regs) (addr : ℕ) :
    frameBytes d r addr = (frameWords r addr).flatMap (leBytes 8) ++
      (trampoline ++ if d.siginfo then siginfoBytes d.signum else []) := by
  simp [frameBytes, frameWords]

theorem wordAt_frame {m : ByteMem} {i w : ℕ} (h : (frameWords r addr)[i]? = some w) :
    wordAt (m.copy addr (frameBytes d r addr)) (addr + 8 * i) = BitVec.ofNat 64 w := by
  rw [frameBytes_eq]
  exact wordAt_copy_words h

section Enter

variable (d : Delivery) (r : Regs) (addr : ℕ)

theorem enterHandler_rsp : (enterHandler d r addr).rsp = BitVec.ofNat 64 addr := by
  unfold enterHandler
  split_ifs <;> rfl

theorem enterHandler_rax : (enterHandler d r addr).rax = r.rax := by
  unfold enterHandler
  split_ifs <;> rfl

end Enter

/-! ## The interrupted call -/

/-- The delivery sets the call up to be made again. -/
def Delivery.rewinds (d : Delivery) (rax : Word) : Prop :=
  rax = negErestartnointr ∨ (rax = negErestartsys ∨ rax = negEintr) ∧ d.restarts = true

instance (d : Delivery) (rax : Word) : Decidable (d.rewinds rax) :=
  inferInstanceAs (Decidable (_ ∨ _))

/-- The registers that go into the frame. -/
def adjusted (d : Delivery) (r : Regs) : Regs :=
  if d.rewinds r.rax then { r with rax := r.origRax, rip := r.rip - 2 }
  else if r.rax = negErestartnohand then { r with rax := negEintr }
  else r

theorem adjust_eq (d : Delivery) (r : Regs) :
    adjust d r =
      if d.rewinds r.rax ∧ r.rip.toNat < 2 then .error .overflow else .ok (adjusted d r) := by
  by_cases hrewinds : d.rewinds r.rax
  · have hadjust : adjust d r = r.restart := by
      unfold adjust
      by_cases hnointr : r.rax = negErestartnointr
      · rw [if_pos hnointr]
      · obtain ⟨hsys, hrestarts⟩ := hrewinds.resolve_left hnointr
        rw [if_neg hnointr, if_pos hsys, if_pos hrestarts]
    rw [hadjust, Regs.restart, adjusted]
    simp [hrewinds]
  · have hover : ¬ (d.rewinds r.rax ∧ r.rip.toNat < 2) := fun h => hrewinds h.1
    rw [adjust, if_neg fun h => hrewinds (.inl h), adjusted, if_neg hrewinds, if_neg hover]
    by_cases hsys : r.rax = negErestartsys ∨ r.rax = negEintr
    · have hnohand : r.rax ≠ negErestartnohand := by
        rcases hsys with hsys | hsys <;> rw [hsys] <;> decide
      rw [if_pos hsys, if_neg fun h => hrewinds (.inr ⟨hsys, h⟩), if_neg hnohand]
    · split_ifs <;> rfl

theorem adjusted_rsp (d : Delivery) (r : Regs) : (adjusted d r).rsp = r.rsp := by
  unfold adjusted
  split_ifs <;> rfl

/-! ## A delivery -/

/-- The overflow checks of a delivery pass. -/
def Delivery.Fits (d : Delivery) (r : Regs) : Prop :=
  (d.rewinds r.rax → 2 ≤ r.rip.toNat) ∧ d.frameSize + 16 ≤ r.rsp.toNat

/-- The frame is written and the handler entered. -/
def delivered (d : Delivery) (cpu : Cpu) : Cpu :=
  let addr := d.frameAddr cpu.regs.rsp.toNat
  ⟨enterHandler d (adjusted d cpu.regs) addr,
    cpu.mem.copy addr (frameBytes d (adjusted d cpu.regs) addr)⟩

theorem deliver_of_fits (h : d.Fits cpu.regs) : deliver d cpu = .ok (delivered d cpu) := by
  rw [deliver, adjust_eq, if_neg fun hover => absurd (h.1 hover.1) (by omega)]
  dsimp only
  rw [setupFrame]
  rw [adjusted_rsp, if_neg (not_lt.mpr h.2)]
  rfl

theorem deliver_eq_ok : deliver d cpu = .ok cpu' ↔ d.Fits cpu.regs ∧ cpu' = delivered d cpu := by
  refine ⟨fun h => ?_, fun h => h.2 ▸ deliver_of_fits h.1⟩
  have hfits : d.Fits cpu.regs := by
    rw [deliver, adjust_eq] at h
    split_ifs at h with hover
    dsimp only at h
    rw [setupFrame] at h
    rw [adjusted_rsp] at h
    split_ifs at h with hroom
    refine ⟨fun hrewinds => ?_, not_lt.mp hroom⟩
    exact not_lt.mp fun hlt => hover ⟨hrewinds, hlt⟩
  rw [deliver_of_fits hfits] at h
  exact ⟨hfits, (Except.ok.inj h).symm⟩

section Delivered

variable (d : Delivery) (cpu : Cpu)

theorem delivered_rax : (delivered d cpu).regs.rax = (adjusted d cpu.regs).rax := enterHandler_rax
    ..

theorem delivered_rsp : (delivered d cpu).regs.rsp.toNat = d.frameAddr cpu.regs.rsp.toNat := by
  have hrsp : (delivered d cpu).regs.rsp = _ := enterHandler_rsp ..
  rw [hrsp, toNat_frameAddr]

theorem delivered_mem : (delivered d cpu).mem =
    cpu.mem.copy (d.frameAddr cpu.regs.rsp.toNat)
      (frameBytes d (adjusted d cpu.regs) (d.frameAddr cpu.regs.rsp.toNat)) := by
  simp [delivered]

/-- The frame's address to return to. -/
theorem delivered_saved_rip :
    wordAt (delivered d cpu).mem (d.frameAddr cpu.regs.rsp.toNat + 40) =
      (adjusted d cpu.regs).rip := by
  generalize hr : adjusted d cpu.regs = r
  have hword : (frameWords r (d.frameAddr cpu.regs.rsp.toNat))[5]? = some r.rip.toNat := rfl
  rw [delivered_mem, hr, wordAt_frame hword, BitVec.ofNat_toNat,
    BitVec.setWidth_eq]

end Delivered

theorem delivered_rsp_le : (delivered d cpu).regs.rsp.toNat ≤ cpu.regs.rsp.toNat := by
  rw [delivered_rsp]
  exact frameAddr_le ..

/-! ## Several deliveries -/

theorem deliverAll_cons :
    deliverAll (d :: ds) cpu = .ok cpu' ↔
      d.Fits cpu.regs ∧ deliverAll ds (delivered d cpu) = .ok cpu' := by
  rw [deliverAll]
  cases hdeliver : deliver d cpu with
  | error e =>
    constructor
    · intro h
      cases h
    · intro h
      rw [deliver_of_fits h.1] at hdeliver
      cases hdeliver
  | ok next =>
    obtain ⟨hfits, rfl⟩ := deliver_eq_ok.mp hdeliver
    exact ⟨fun h => ⟨hfits, h⟩, And.right⟩

theorem deliverAll_above (h : deliverAll ds cpu = .ok cpu') {x : ℕ}
    (hx : cpu.regs.rsp.toNat ≤ x) : cpu'.mem.byte x = cpu.mem.byte x := by
  induction ds generalizing cpu with
  | nil =>
    cases h
    rfl
  | cons d ds ih =>
    obtain ⟨hfits, hrest⟩ := deliverAll_cons.mp h
    -- the frame is below the stack pointer
    have hbelow := frame_below (r := adjusted d cpu.regs) hfits.2
    rw [ih hrest (le_trans delivered_rsp_le hx)]
    exact ByteMem.copy_outside (.inr (le_trans hbelow hx))

end Shitix.Signal
