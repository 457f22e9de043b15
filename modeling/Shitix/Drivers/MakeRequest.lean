import Shitix.Drivers.LlRw

/-!
# The sectors of a request

The model of `ll_rw_block` and `make_request` for one buffer, with the arithmetic of the source: a
`u32` that overflows panics in a build with overflow checks and wraps in one without.
-/

namespace Shitix.Buffer

open UInt32

/-- `READ` and `WRITE`, or with `ahead` `READA` and `WRITEA`. -/
structure Command where
  rw : Rw
  ahead : Bool

/-- What a call meets. -/
structure Moment where
  /-- the major has a `request_fn` -/
  driver : Bool
  readOnly : Bool
  /-- `b_lock` at the call -/
  lock : Bool
  /-- `b_dirt` and `b_uptodate` once the buffer is locked -/
  dirt : Bool
  uptodate : Bool
  /-- `get_request` has a slot at once -/
  slot : Bool

/-- What a call comes to. -/
inductive Outcome where
  | panicked
  /-- the buffer is neither dirty nor up to date -/
  | marked
  | returned
  | queued (sector nrSectors : UInt32)
deriving DecidableEq

/-- A `u32` result. -/
def u32 (checks : Bool) (value : ℕ) : Option UInt32 :=
  if checks = true ∧ 2 ^ 32 ≤ value then none else some (.ofNat value)

/-- Nothing has to be moved. -/
def Moment.idle (m : Moment) : Rw → Bool
  | .write => !m.dirt
  | .read => m.uptodate

/-- `make_request`, on a device of known capacity; a call that is not ahead waits for a slot -/
def makeRequest (checks : Bool) (cap : UInt32) (c : Command) (blocknr : UInt32) (size : ℕ)
    (m : Moment) : Outcome :=
  if c.ahead && m.lock then .returned
  else
    let count := size / 512
    match u32 checks (blocknr.toNat * count) with
    | none => .panicked
    | some sector =>
      match u32 checks (sector.toNat + count) with
      | none => .panicked
      | some past =>
        if cap < past >>> 1 then .marked
        else if m.idle c.rw then .returned
        else if c.ahead && !m.slot then .returned
        else .queued sector (.ofNat count)

/-- `ll_rw_block` turns the buffer down. -/
def Moment.Refused (m : Moment) (c : Command) (size : ℕ) : Prop :=
  m.driver = false ∨ size ≠ 1024 ∨ c.rw = .write ∧ m.readOnly = true

instance (m : Moment) (c : Command) (size : ℕ) : Decidable (m.Refused c size) :=
  inferInstanceAs (Decidable (_ ∨ _ ∨ _))

def llRwBlock (checks : Bool) (cap : UInt32) (c : Command) (blocknr : UInt32) (size : ℕ)
    (m : Moment) : Outcome :=
  if m.Refused c size then .marked else makeRequest checks cap c blocknr size m

/-- The buffer is marked, or a request is queued for exactly the sectors of its block, all of them
on the device.  The capacity is in blocks of two sectors. -/
def OnDevice (cap blocknr : UInt32) (size : ℕ) (outcome : Outcome) : Prop :=
  outcome = .marked ∨ ∃ sector nrSectors, outcome = .queued sector nrSectors ∧
    sector.toNat = blocknr.toNat * (size / 512) ∧ nrSectors.toNat = size / 512 ∧
    sector.toNat + nrSectors.toNat ≤ 2 * cap.toNat

theorem u32_of_lt {checks : Bool} {value : ℕ} (h : value < 2 ^ 32) :
    u32 checks value = some (.ofNat value) := by
  unfold u32
  rw [if_neg fun hover => absurd hover.2 (Nat.not_le.mpr h)]

variable (checks : Bool) (cap blocknr : UInt32) (c : Command) (m : Moment)

/-- Without overflow the check is that of the capacity in blocks. -/
theorem makeRequest_of_lt (h : blocknr.toNat + 1 < 2 ^ 31) (hlock : (c.ahead && m.lock) = false) :
    makeRequest checks cap c blocknr 1024 m =
      if cap ≤ blocknr then .marked
      else if m.idle c.rw || (c.ahead && !m.slot) then .returned
      else .queued (.ofNat (2 * blocknr.toNat)) 2 := by
  have hlt : 2 * blocknr.toNat + 2 < 2 ^ 32 := by omega
  have hsector : (ofNat (2 * blocknr.toNat)).toNat = 2 * blocknr.toNat :=
    toNat_ofNat_of_lt' (by rw [size]; omega)
  have hpast : cap < ofNat (2 * blocknr.toNat + 2) >>> 1 ↔ cap ≤ blocknr := by
    have hvalue : (ofNat (2 * blocknr.toNat + 2)).toNat = 2 * blocknr.toNat + 2 :=
      toNat_ofNat_of_lt' (by rw [size]; omega)
    rw [lt_iff_toNat_lt, le_iff_toNat_le, UInt32.toNat_shiftRight,
      show (1 : UInt32).toNat % 32 = 1 from rfl]
    omega
  unfold makeRequest
  rw [hlock, if_neg Bool.false_ne_true]
  dsimp only
  rw [mul_comm, u32_of_lt (by omega)]
  dsimp only
  rw [hsector, u32_of_lt hlt]
  dsimp only
  by_cases hcap : cap ≤ blocknr
  · rw [if_pos (hpast.mpr hcap), if_pos hcap]
  · rw [if_neg (hcap ∘ hpast.mp), if_neg hcap]
    cases m.idle c.rw <;> rfl

/-- The overflow checks let no other block through. -/
theorem makeRequest_panicked (h : 2 ^ 31 ≤ blocknr.toNat + 1)
    (hlock : (c.ahead && m.lock) = false) :
    makeRequest true cap c blocknr 1024 m = .panicked := by
  unfold makeRequest
  rw [hlock, if_neg Bool.false_ne_true]
  dsimp only
  by_cases hover : 2 ^ 32 ≤ blocknr.toNat * (1024 / 512)
  · rw [u32, if_pos ⟨rfl, hover⟩]
  · have hsector : (ofNat (blocknr.toNat * (1024 / 512))).toNat = blocknr.toNat * (1024 / 512) :=
      toNat_ofNat_of_lt' (by rw [size]; omega)
    rw [u32_of_lt (Nat.not_le.mp hover)]
    dsimp only
    rw [hsector, u32, if_pos ⟨rfl, by omega⟩]

/-- A call stays on the device, without overflow, exactly if it is turned down at once, or its block
is below 2 ^ 31 - 1 and either past the end or one there is something to do for. -/
theorem llRwBlock_onDevice_iff (size : ℕ) :
    OnDevice cap blocknr size (llRwBlock checks cap c blocknr size m) ∧
        llRwBlock true cap c blocknr size m ≠ .panicked ↔
      m.Refused c size ∨ blocknr.toNat + 1 < 2 ^ 31 ∧ (c.ahead && m.lock) = false ∧
        (cap ≤ blocknr ∨ m.idle c.rw = false ∧ (c.ahead && !m.slot) = false) := by
  unfold llRwBlock
  by_cases hrefused : m.Refused c size
  · rw [if_pos hrefused, if_pos hrefused]
    exact iff_of_true ⟨.inl rfl, Outcome.noConfusion⟩ (.inl hrefused)
  obtain rfl : size = 1024 := by
    by_contra hsize
    exact hrefused (.inr (.inl hsize))
  rw [if_neg hrefused, if_neg hrefused, or_iff_right hrefused]
  cases hlock : c.ahead && m.lock with
  | true =>
    unfold makeRequest
    rw [hlock]
    simp [OnDevice]
  | false =>
    by_cases hlt : blocknr.toNat + 1 < 2 ^ 31
    · rw [makeRequest_of_lt checks cap blocknr c m hlt hlock,
        makeRequest_of_lt true cap blocknr c m hlt hlock]
      by_cases hcap : cap ≤ blocknr
      · rw [if_pos hcap]
        exact iff_of_true ⟨.inl rfl, Outcome.noConfusion⟩ ⟨hlt, rfl, .inl hcap⟩
      · have hsector : (ofNat (2 * blocknr.toNat)).toNat = 2 * blocknr.toNat :=
          toNat_ofNat_of_lt' (by rw [size]; omega)
        have hroom : blocknr.toNat < cap.toNat := by
          rwa [le_iff_toNat_le, Nat.not_le] at hcap
        rw [if_neg hcap, or_iff_right hcap]
        cases m.idle c.rw with
        | true => simp [OnDevice]
        | false =>
          cases c.ahead && !m.slot with
          | true => simp [OnDevice]
          | false =>
            have hpast : 2 * blocknr.toNat + 2 ≤ 2 * cap.toNat := by omega
            refine iff_of_true ⟨.inr ⟨_, _, rfl, ?_, rfl, ?_⟩, Outcome.noConfusion⟩
              ⟨hlt, rfl, rfl, rfl⟩
            · rw [hsector, mul_comm]
            · rwa [hsector]
    · rw [makeRequest_panicked cap blocknr c m (Nat.not_lt.mp hlt) hlock]
      exact iff_of_false (fun h => h.2 rfl) fun h => hlt h.1

/-- Block 2 ^ 31 of a device of 100 blocks: with overflow checks a panic, without them a request
for the sectors of block 0. -/
theorem llRwBlock_wraps :
    let m : Moment := ⟨true, false, false, false, false, true⟩
    llRwBlock true 100 ⟨.read, false⟩ 2147483648 1024 m = .panicked ∧
      llRwBlock false 100 ⟨.read, false⟩ 2147483648 1024 m = .queued 0 2 ∧
      ¬ OnDevice 100 2147483648 1024 .panicked ∧ ¬ OnDevice 100 2147483648 1024 (.queued 0 2) := by
  refine ⟨by decide, by decide, ?_, ?_⟩
  · simp [OnDevice]
  · simp [OnDevice]

end Shitix.Buffer
