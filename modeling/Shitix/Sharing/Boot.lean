import Shitix.Sharing.NewSpace

/-!
# The tables the kernel boots with

`setup.S` builds the boot tables at `0x4000`: a PML4, a PDPT and a page directory
of 512 pages of 2 MiB, the identity map of the low gigabyte.  `init_high_map` adds
a second PDPT at `0x7000` and the slot of the direct map in the PML4.  Before the
first process is made there is no other table, and `Sane` holds of no address
spaces at all.
-/

namespace Shitix.Paging

open Mem Option Function

/-- The frame of the boot PDPT, at `0x5000`. -/
def bootPdpt : Frame := 5

/-- The frame of the PDPT of the direct map, at `0x7000`. -/
def highPdpt : Frame := 7

/-- The entry `0x183 + i * 2 MiB` of the boot page directory. -/
def bootPage (i : ℕ) : Pte :=
  ⟨{ present := true, rw := true, huge := true, isGlobal := true }, BitVec.ofNat 40 (i * 512)⟩

/-- A zeroed table with one entry, its first. -/
def firstOnly (e : Pte) (i : ℕ) : BitVec 64 := if i = 0 then e.encode else 0

/-- The tables of `setup.S`. -/
def setupTables (s : Mem) : Mem :=
  ((s.fill bootPml4 (firstOnly (tableEntry bootPdpt))).fill bootPdpt
    (firstOnly (tableEntry bootPd))).fill bootPd fun i => (bootPage i).encode

def initHighMap (s : Mem) : Mem :=
  (s.fill highPdpt (firstOnly (tableEntry bootPd))).setEntry bootPml4 256 (tableEntry highPdpt)

/-- Memory as the kernel finds it once paging and the allocator are set up. -/
def bootTables (s : Mem) : Mem := initHighMap (setupTables s)

/-- The allocator manages the low megabyte the boot tables lie in. -/
structure Bootable (frames : Frames) : Prop where
  consistent : frames.Consistent
  low : 256 ≤ frames.nrPages

variable {s : Mem}

theorem decode_firstOnly (e : Pte) (i : ℕ) :
    Pte.decode (firstOnly e i) = if i = 0 then e else noEntry := by
  unfold firstOnly
  split_ifs
  · exact Pte.decode_encode e
  · exact decode_zero

theorem bootTables_high : (bootTables s).entry bootPml4 256 = tableEntry highPdpt :=
  entry_setEntry_self

theorem bootTables_highPdpt (i : ℕ) :
    (bootTables s).entry highPdpt i = if i = 0 then tableEntry bootPd else noEntry := by
  rw [bootTables, initHighMap, entry_setEntry_of_ne fun heq => absurd heq (by decide), entry,
    word_fill, update_self, decode_firstOnly]

theorem bootTables_bootPd (i : ℕ) : (bootTables s).entry bootPd i = bootPage i := by
  rw [bootTables, initHighMap, entry_setEntry_of_ne fun heq => absurd heq (by decide), entry,
    word_fill, update_of_ne (by decide), setupTables, word_fill, update_self,
    Pte.decode_encode]

/-- The two tables of the kernel half. -/
def bootLabels : Frame → Option Label := fun t =>
  if t = highPdpt then some (.shared 2 256)
  else if t = bootPd then some (.shared 1 131072)
  else none

theorem bootLabels_cases {t : Frame} {l : Label} (h : bootLabels t = some l) :
    t = highPdpt ∧ l = .shared 2 256 ∨ t = bootPd ∧ l = .shared 1 131072 := by
  unfold bootLabels at h
  split_ifs at h with hhigh hpd
  · exact .inl ⟨hhigh, (some.inj h).symm⟩
  · exact .inr ⟨hpd, (some.inj h).symm⟩

/-- The low megabyte is never free. -/
theorem Bootable.held {frames : Frames} (h : Bootable frames) {f : Frame} (hf : f.toNat < 256) :
    HeldAtBoot frames f := fun hzero => by
  have hlow := h.low
  have := h.consistent.usable f.toNat (by omega) (by rw [hzero]; decide)
  omega

theorem Bootable.tables (h : Bootable s.frames) : Tables (bootTables s) bootLabels where
  child := by
    intro t l n i hl hn hi hpresent hflat
    rcases bootLabels_cases hl with ⟨rfl, rfl⟩ | ⟨rfl, rfl⟩
    · rw [bootTables_highPdpt] at hpresent ⊢
      split_ifs at hpresent ⊢ with hzero
      subst hzero
      rfl
    · rw [bootTables_bootPd] at hflat
      cases hflat
  flat := by
    intro t l i hl hheight hi hpresent
    rcases bootLabels_cases hl with ⟨rfl, rfl⟩ | ⟨rfl, rfl⟩
    · rw [bootTables_highPdpt]
      split_ifs <;> rfl
    · exact absurd hheight (by decide)
  huge := by
    intro t l i hl hheight hi hpresent hhuge
    rcases bootLabels_cases hl with ⟨rfl, rfl⟩ | ⟨rfl, rfl⟩
    · exact absurd hheight (by decide)
    · rw [bootTables_bootPd]
      refine ⟨rfl, rfl, ?_⟩
      simp only [bootPage, BitVec.toNat_ofNat]
      omega
  clean := by
    intro t l i hl hheight
    rcases bootLabels_cases hl with ⟨-, rfl⟩ | ⟨-, rfl⟩ <;> exact absurd hheight (by decide)
  rooted := by
    intro t root height pre hl
    rcases bootLabels_cases hl with ⟨-, heq⟩ | ⟨-, heq⟩ <;> cases heq
  placed := by
    intro t root height pre hl
    rcases bootLabels_cases hl with ⟨-, heq⟩ | ⟨-, heq⟩ <;> cases heq
  managed := by
    intro t l hl
    refine lt_of_lt_of_le ?_ h.low
    rcases bootLabels_cases hl with ⟨rfl, -⟩ | ⟨rfl, -⟩ <;> decide
  held := by
    intro t l hl
    refine h.held ?_
    rcases bootLabels_cases hl with ⟨rfl, -⟩ | ⟨rfl, -⟩ <;> decide
  own := by
    intro t root height pre hl
    rcases bootLabels_cases hl with ⟨-, heq⟩ | ⟨-, heq⟩ <;> cases heq
  consistent := h.consistent

/-- The direct map is not for user mode. -/
theorem bootTables_quiet (key : ℕ) : Quiet ((slots (bootTables s)).lookup 512 2 highPdpt key) := by
  have hpd : Quiet ((slots (bootTables s)).lookup 512 1 bootPd key) := by
    simp only [Radix.lookup, slots, bootTables_bootPd]
    exact ⟨rfl, rfl⟩
  have hslot : ∀ i, (slots (bootTables s)).slot 2 highPdpt i =
      if i = 0 then .inl bootPd else .inr fun _ => noEntry := fun i => by
    by_cases hzero : i = 0
    · simp [slots, bootTables_highPdpt, hzero, tableEntry]
    · simp [slots, bootTables_highPdpt, hzero]
  rw [Radix.lookup, hslot]
  split_ifs with hzero
  · exact hpd
  · exact ⟨rfl, rfl⟩

theorem Bootable.booted (h : Bootable s.frames) : Booted (bootTables s) bootLabels where
  highPresent := by rw [bootTables_high]; rfl
  highFlat := by rw [bootTables_high]; rfl
  highLabel := by rw [bootTables_high]; rfl
  unlabelled := rfl
  held := h.held (by decide)
  pdLabel := rfl
  pdHuge := fun i _ _ => by rw [bootTables_bootPd]; rfl
  highQuiet := fun key => by rw [bootTables_high]; exact bootTables_quiet key

/-- At the start there are no address spaces, and all is well with them. -/
theorem Bootable.sane (h : Bootable s.frames) :
    Sane (bootTables s) [] bootLabels s.frames where
  tables := h.tables
  space := fun r hr => absurd hr List.not_mem_nil
  owner := by
    intro t r height pre hl
    rcases bootLabels_cases hl with ⟨-, heq⟩ | ⟨-, heq⟩ <;> cases heq
  pages := fun r hr => absurd hr List.not_mem_nil
  identity := fun r hr => absurd hr List.not_mem_nil
  boot := h.booted
  ledger := by
    have hnone : ∀ x : Slot, view (bootTables s) [] x = none := fun _ => rfl
    refine ⟨fun x f hx => ?_, fun x f hx => ?_, fun r v v' f hx => ?_, fun x f hx => ?_,
      fun f _ hheld => .inl hheld, fun f hheld => hheld, fun t r height pre hl => ?_,
      fun t height pre hl => ?_, rfl⟩
    · exact absurd hx (by rw [hnone]; exact (some_ne_none f).symm)
    · exact absurd hx (by rw [hnone]; exact (some_ne_none f).symm)
    · exact absurd hx (by rw [hnone]; exact (some_ne_none f).symm)
    · exact absurd hx (by rw [hnone]; exact (some_ne_none f).symm)
    · rcases bootLabels_cases hl with ⟨-, heq⟩ | ⟨-, heq⟩ <;> cases heq
    · refine h.held ?_
      rcases bootLabels_cases hl with ⟨rfl, -⟩ | ⟨rfl, -⟩ <;> decide

end Shitix.Paging
