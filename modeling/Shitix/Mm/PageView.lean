import Shitix.Lib.Radix
import Shitix.Mm.Paging

/-!
# Page tables as radix trees

The four levels of page tables are a radix tree of base 512 in physical memory:
the PML4 is a node of height 3, a last-level table one of height 0, and a huge
page is a slot that is not broken up.  `pageEntry s pml4 va` is the value of this
tree at a page: the entry that governs the page, be it an actual last-level
entry, the share of a huge page (`slice`), or an empty entry where the tables
end.  Everything the kernel asks about a page can be read off it.

Tables are labelled with their place: `own root height pre` for a table that
belongs to one address space and covers the pages `pre * 512 ^ (height + 1)` and
following, `shared height pre` for the tables of the kernel half, which address
spaces may have in common.
-/

namespace Shitix.Paging

open Mem

/-! ## The tree -/

/-- The empty entry. -/
abbrev noEntry : Pte := { frame := 0 }

/-- The share of a huge page: its `k`-th page of 4 KiB, as `next_level` splits it. -/
def slice (e : Pte) (k : ℕ) : Pte := ⟨splitFlags e, e.frame + BitVec.ofNat 40 k⟩

/-- Memory read as nodes of a radix tree.  The code does not look at `HUGE` in a
PML4 entry. -/
def slots (s : Mem) : Radix Frame Pte where
  slot height table i :=
    let e := s.entry table i
    if !e.present then .inr fun _ => noEntry
    else if e.huge && height != 3 then .inr fun key => slice e (key % 512 ^ height)
    else .inl e.frame
  leaf table i := s.entry table i

/-- The entry that governs the page of an address. -/
def pageEntry (s : Mem) (pml4 : Frame) (va : ℕ) : Pte := (slots s).lookup 512 3 pml4 (va / 4096)

section

variable (va : ℕ)

theorem pml4Index_lt : pml4Index va < 512 := Nat.mod_lt _ (by omega)

theorem pdptIndex_lt : pdptIndex va < 512 := Nat.mod_lt _ (by omega)

theorem pdIndex_lt : pdIndex va < 512 := Nat.mod_lt _ (by omega)

theorem ptIndex_lt : ptIndex va < 512 := Nat.mod_lt _ (by omega)

theorem pml4Index_eq : va / 4096 / 512 ^ (2 + 1) % 512 = pml4Index va := by
  rw [Nat.div_div_eq_div_mul]
  rfl

theorem pdptIndex_eq : va / 4096 / 512 ^ (1 + 1) % 512 = pdptIndex va := by
  rw [Nat.div_div_eq_div_mul]
  rfl

theorem pdIndex_eq : va / 4096 / 512 ^ (0 + 1) % 512 = pdIndex va := by
  rw [Nat.div_div_eq_div_mul]
  rfl

end

/-- The walk, as the library follows it. -/
theorem walk_spec (s : Mem) (pml4 : Frame) (va : ℕ) :
    (pageEntry s pml4 va =
      match walk s pml4 va with
      | .absent => noEntry
      | .huge1G e => slice e (va / 4096 % 512 ^ 2)
      | .huge2M e => slice e (ptIndex va)
      | .table pt => s.entry pt (ptIndex va)) ∧
    (slots s).reach 512 3 pml4 (va / 4096) =
      match walk s pml4 va with
      | .table pt => some pt
      | _ => none := by
  simp only [pageEntry, walk, Radix.lookup, Radix.reach, slots, pml4Index_eq, pdptIndex_eq, pdIndex_eq]
  cases (s.entry pml4 (pml4Index va)).present
  · exact ⟨rfl, rfl⟩
  simp only [Bool.not_true, bne_self_eq_false, Bool.and_false, Bool.false_eq_true, if_false]
  generalize s.entry (s.entry pml4 (pml4Index va)).frame (pdptIndex va) = pdpte
  cases pdpte.present
  · exact ⟨rfl, rfl⟩
  cases pdpte.huge
  · simp only [Bool.not_true, Bool.false_and, Bool.false_eq_true, if_false]
    generalize s.entry pdpte.frame (pdIndex va) = pde
    cases pde.present
    · exact ⟨rfl, rfl⟩
    cases pde.huge
    · exact ⟨rfl, rfl⟩
    · simp [ptIndex]
  · exact ⟨rfl, rfl⟩

/-! ## Labels -/

/-- The place of a table. -/
inductive Label where
  | own (root : Frame) (height pre : ℕ)
  | shared (height pre : ℕ)
deriving DecidableEq, Repr

namespace Label

/-- The height of a table: 3 for a PML4, 0 for a last-level table. -/
def height : Label → ℕ
  | own _ height _ => height
  | shared height _ => height

/-- The label of the table a slot leads to.  The upper half of a PML4 leads to the
tables all address spaces share. -/
def step : Label → ℕ → Label
  | own root height pre, i =>
    if height = 3 ∧ 256 ≤ i then shared (height - 1) (pre * 512 + i)
    else own root (height - 1) (pre * 512 + i)
  | shared height pre, i => shared (height - 1) (pre * 512 + i)

theorem height_step (l : Label) (n i : ℕ) (h : height l = n + 1) : height (step l i) = n := by
  cases l with
  | own root height pre =>
    simp only [Label.height] at h
    simp only [step]
    split_ifs <;> simp [Label.height, h]
  | shared height pre =>
    simp only [Label.height] at h
    simp [step, Label.height, h]

/-- A slot leads to a table of one address space only from such a table. -/
theorem step_eq_own {l : Label} {n i : ℕ} {root : Frame} {height pre : ℕ}
    (h : step l i = own root height pre) (hn : Label.height l = n + 1) :
    ∃ pre', l = own root (n + 1) pre' ∧ height = n ∧ pre = pre' * 512 + i ∧ (n = 2 → i < 256) := by
  cases l with
  | own root' height' pre' =>
    subst hn
    simp only [step] at h
    split_ifs at h with hkernel
    obtain ⟨rfl, rfl, rfl⟩ := h
    exact ⟨pre', rfl, rfl, rfl, by omega⟩
  | shared height' pre' =>
    cases h

end Label

/-- The label of the last-level table of a page in an address space. -/
def leafLabel (root : Frame) (vpn : ℕ) : Label :=
  Radix.labelAt 512 Label.step 3 (.own root 3 0) vpn

theorem leafLabel_user {root : Frame} {vpn : ℕ} (h : vpn % 2 ^ 36 < 2 ^ 35) :
    leafLabel root vpn = .own root 0 (vpn % 2 ^ 36 / 512) := by
  have h3 : ¬ 256 ≤ vpn / 512 ^ (2 + 1) % 512 := by omega
  simp only [leafLabel, Radix.labelAt, Label.step, h3]
  norm_num
  omega

theorem leafLabel_kernel {root : Frame} {vpn : ℕ} (h : 2 ^ 35 ≤ vpn % 2 ^ 36) :
    leafLabel root vpn = .shared 0 (vpn % 2 ^ 36 / 512) := by
  have h3 : 256 ≤ vpn / 512 ^ (2 + 1) % 512 := by omega
  simp only [leafLabel, Radix.labelAt, Label.step]
  rw [if_pos ⟨trivial, h3⟩]
  norm_num
  omega

end Shitix.Paging
