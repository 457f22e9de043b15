import Shitix.Sharing.Isolation

/-!
# Asking the page tables

`translate`, `get_page_flags`, `is_reserved` and `is_user_mapped` each follow the tables on their
own.  They agree with the walk of the processor unless an address lies in a large page, for which
there are no flags, or its entry is present and marked as reserved, or the entry is open to user
mode and one above it is not.
-/

namespace Shitix.Paging

open Mem

/-- How an address is mapped: the last entry, the entries above it, and how many bits of the address
are the offset into the page. -/
structure Mapping where
  leaf : Pte
  above : List Pte
  bits : ℕ

/-- The physical address; what an entry has below the size of its page is not part of it. -/
def Mapping.phys (m : Mapping) (va : ℕ) : ℕ :=
  m.leaf.frame.toNat * 4096 / 2 ^ m.bits * 2 ^ m.bits + va % 2 ^ m.bits

variable (s : Mem) (pml4 : Frame) (va : ℕ)

/-- The walk of the processor from a table of a level, where level 0 is the last.  The PML4 has no
large pages. -/
def hardwareWalk : ℕ → Frame → Option Mapping
  | 0, table =>
    let e := s.entry table (va / 2 ^ 12 % 512)
    if e.present then some ⟨e, [], 12⟩ else none
  | level + 1, table =>
    let e := s.entry table (va / 2 ^ (21 + 9 * level) % 512)
    if !e.present then none
    else if e.huge && level < 2 then some ⟨e, [], 21 + 9 * level⟩
    else (hardwareWalk level e.frame).map fun m => { m with above := e :: m.above }

/-- The answers for an address are those of the processor. -/
structure Agree : Prop where
  /-- an address that is mapped is not reserved -/
  exclusive : (translate s pml4 va).isSome → isReserved s pml4 va = false
  translate : translate s pml4 va = (hardwareWalk s va 3 pml4).map (·.phys va)
  flags : getPageFlags s pml4 va = (hardwareWalk s va 3 pml4).map (·.leaf.toFlags)
  reserved : isReserved s pml4 va ↔ ∃ pt, (slots s).reach 512 3 pml4 (va / 4096) = some pt ∧
    (s.entry pt (ptIndex va)).reserved ∧ ¬ (s.entry pt (ptIndex va)).present
  user : isUserMapped s pml4 va ↔
    ∃ m, hardwareWalk s va 3 pml4 = some m ∧ ∀ e ∈ m.leaf :: m.above, e.user

/-- The condition on how an address is mapped. -/
def Plain : Prop :=
  ∀ m, hardwareWalk s va 3 pml4 = some m →
    m.bits = 12 ∧ m.leaf.reserved = false ∧ (m.leaf.user → ∀ e ∈ m.above, e.user)

theorem hardwareWalk_eq : hardwareWalk s va 3 pml4 =
    let e₄ := s.entry pml4 (pml4Index va)
    let e₃ := s.entry e₄.frame (pdptIndex va)
    match walk s pml4 va with
    | .absent => none
    | .huge1G e => some ⟨e, [e₄], 30⟩
    | .huge2M e => some ⟨e, [e₄, e₃], 21⟩
    | .table pt =>
      let e := s.entry pt (ptIndex va)
      if e.present then some ⟨e, [e₄, e₃, s.entry e₃.frame (pdIndex va)], 12⟩ else none := by
  simp only [hardwareWalk, walk, pml4Index, pdptIndex, pdIndex, ptIndex]
  split_ifs <;> simp_all

/-- The answers agree with the walk of the processor exactly under the condition. -/
theorem agree_iff_plain : Agree s pml4 va ↔ Plain s pml4 va := by
  have hmapped := hardwareWalk_eq s pml4 va
  cases hwalk : walk s pml4 va with
  | absent =>
    rw [hwalk] at hmapped
    refine iff_of_true ?_ (by simp [Plain, hmapped])
    constructor <;> simp [hmapped, translate, getPageFlags, isUserMapped,
      isReserved_of_absent hwalk, walk_spec, hwalk]
  | huge1G e | huge2M e =>
    -- a large page has no flags
    rw [hwalk] at hmapped
    refine iff_of_false (fun h => ?_) fun h => absurd (h _ hmapped).1 (by simp)
    have hboth := h.flags
    rw [getPageFlags, hwalk, hmapped] at hboth
    cases hboth
  | table pt =>
    have hreserved := isReserved_of_table (.inl hwalk)
    have hphys : ∀ frame, frame * 4096 ||| va % 4096 = frame * 4096 + va % 4096 := fun _ =>
      page_or (Nat.mod_lt va (by decide))
    simp only [hwalk] at hmapped
    generalize [_, _, _] = above at hmapped
    cases hpresent : (s.entry pt (ptIndex va)).present with
    | false =>
      rw [hpresent] at hmapped
      refine iff_of_true ?_ (by simp [Plain, hmapped])
      constructor <;>
        simp [hmapped, translate, getPageFlags, isUserMapped, hreserved, walk_spec, hwalk, hpresent]
    | true =>
      rw [hpresent] at hmapped
      have hfields : Agree s pml4 va ↔ (s.entry pt (ptIndex va)).reserved = false ∧
          ((s.entry pt (ptIndex va)).user → ∀ e ∈ above, e.user) := by
        constructor
        · intro h
          exact ⟨by simpa [translate, hwalk, hpresent, hreserved] using h.exclusive,
            by simpa [isUserMapped, hwalk, hpresent, hmapped] using h.user⟩
        · rintro ⟨hflag, huser⟩
          constructor <;> simp_all [translate, getPageFlags, isUserMapped, walk_spec, Mapping.phys]
      rw [hfields]
      simp [Plain, hmapped]

/-- The kernel boots with large pages: an address that is mapped and has no flags. -/
theorem bootTables_disagree : translate (bootTables smallMem) bootPml4 0x100000 = some 0x100000 ∧
    getPageFlags (bootTables smallMem) bootPml4 0x100000 = none ∧
    ¬ Agree (bootTables smallMem) bootPml4 0x100000 := by
  refine ⟨by decide, by decide, fun h => ?_⟩
  have hflags := congrArg Option.isSome h.flags
  revert hflags
  decide

end Shitix.Paging
