import Shitix.Mm.PageWrites

/-!
# The place of a table

A label of an address space determines its table: there is one table at a height
with given leading digits (`Tables.own_unique`), it hangs below the tables with
fewer digits (`Tables.ancestor`), and the pages with these digits are governed by
what is below it (`Tables.lookup_own`).
-/

namespace Shitix.Paging

open Mem

variable {s : Mem} {label : Frame → Option Label} {root t t' : Frame} {n pre key : ℕ}

theorem div_pow_succ (key n : ℕ) : key / 512 ^ (n + 1) = key / 512 ^ n / 512 := by
  rw [pow_succ, Nat.div_div_eq_div_mul]

theorem digit_div {i : ℕ} (hi : i < 512) : (pre * 512 + i) / 512 = pre := by omega

theorem digit_mod {i : ℕ} (hi : i < 512) : (pre * 512 + i) % 512 = i := by omega

namespace Tables

section

variable (h : Tables s label)

include h

section

variable (ht : label t = some (.own root n pre))

include ht

/-- The tables of an address space are at most four levels deep. -/
theorem height_le : n ≤ 3 :=
  (h.rooted t root n pre ht).1

/-- One table for one label. -/
theorem own_unique (ht' : label t' = some (.own root n pre)) : t = t' := by
  obtain ⟨above, habove⟩ := Nat.exists_eq_add_of_le (h.height_le ht)
  -- from the PML4 down: the table above is one, and so is its slot
  induction above generalizing n pre t t' with
  | zero =>
    rw [((h.rooted t root n pre ht).2 habove.symm).1,
      ((h.rooted t' root n pre ht').2 habove.symm).1]
  | succ above ih =>
    obtain ⟨up, hup, hlink⟩ := h.placed t root n pre ht (by omega)
    obtain ⟨up', hup', hlink'⟩ := h.placed t' root n pre ht' (by omega)
    rw [ih hup hup' (by omega), hlink'] at hlink
    exact (Sum.inl.inj hlink).symm

/-- The way down to a table: what holds of the PML4 and is handed on along the slots
of a key holds of the table with the digits of the key. -/
theorem own_induction {P : ℕ → Frame → Prop} (hkey : key / 512 ^ (n + 1) = pre) (hroot : P 3 root)
    (hstep : ∀ n up next, (slots s).slot (n + 1) up (key / 512 ^ (n + 1) % 512) = .inl next →
      P (n + 1) up → P n next) : P n t := by
  obtain ⟨above, habove⟩ := Nat.exists_eq_add_of_le (h.height_le ht)
  induction above generalizing n pre t with
  | zero =>
    obtain rfl : n = 3 := habove.symm
    obtain ⟨rfl, -⟩ := (h.rooted t root 3 pre ht).2 rfl
    exact hroot
  | succ above ih =>
    obtain ⟨up, hup, hlink⟩ := h.placed t root n pre ht (by omega)
    refine hstep n up t (by rw [hkey, hlink]) ?_
    exact ih hup (by rw [div_pow_succ, hkey]) (by omega)

/-- The pages below a table. -/
theorem lookup_own (hkey : key / 512 ^ (n + 1) = pre) :
    (slots s).lookup 512 3 root key = (slots s).lookup 512 n t key := by
  refine h.own_induction (P := fun n t => (slots s).lookup 512 3 root key =
    (slots s).lookup 512 n t key) ht hkey rfl fun n up next hlink hup => ?_
  rw [hup, Radix.lookup, hlink]

end

/-- The way down ends in the last-level table with the right digits. -/
theorem walk_own {va : ℕ} (ht : label t = some (.own root 0 (vpage va / 512))) :
    walk s root va = .table t := by
  have hpage : vpage (vpage va * 4096) = vpage va := by
    simp only [vpage]
    omega
  have hkey : vpage va * 4096 / 4096 / 512 ^ (0 + 1) = vpage va / 512 := by
    rw [Nat.mul_div_cancel _ (by omega), pow_one]
  rw [← walk_congr hpage]
  refine walk_of_reach (h.own_induction (P := fun n t =>
    (slots s).reach 512 3 root (vpage va * 4096 / 4096) =
      (slots s).reach 512 n t (vpage va * 4096 / 4096)) ht hkey rfl fun n up next hlink hup => ?_)
  rw [hup, Radix.reach, hlink]

/-- The entry of a page, in its last-level table. -/
theorem pageEntry_own {va : ℕ}
    (ht : label t = some (.own root 0 (vpage va / 512))) :
    pageEntry s root va = s.entry t (ptIndex va) := by
  rw [(walk_spec ..).1, h.walk_own ht]

/-- A table is on the way down to its pages. -/
theorem path_own (ht : label t = some (.own root n pre))
    (hkey : key / 512 ^ (n + 1) = pre) : t ∈ (slots s).path 512 3 root key := by
  have hsuffix : (slots s).path 512 n t key <:+ (slots s).path 512 3 root key := by
    refine h.own_induction (P := fun n t => (slots s).path 512 n t key <:+
      (slots s).path 512 3 root key) ht hkey List.suffix_rfl fun n up next hlink hup => ?_
    refine List.IsSuffix.trans ?_ hup
    rw [Radix.path, hlink]
    exact List.suffix_cons _ _
  refine hsuffix.subset ?_
  cases n <;> exact List.mem_cons_self

/-- The table with fewer digits. -/
theorem ancestor (ht : label t = some (.own root n pre)) (above : ℕ)
    (habove : n + above ≤ 3) :
    ∃ up, label up = some (.own root (n + above) (pre / 512 ^ above)) := by
  induction above with
  | zero => exact ⟨t, by rwa [pow_zero, Nat.div_one]⟩
  | succ above ih =>
    obtain ⟨up, hup⟩ := ih (by omega)
    obtain ⟨up', hup', -⟩ := h.placed up root _ _ hup (by omega)
    exact ⟨up', by rw [div_pow_succ]; exact hup'⟩

section

variable (ht : label t = some (.own root (n + 1) pre)) {i : ℕ} (hi : i < 512)

include ht hi

/-- A slot that leads nowhere has no tables below it. -/
theorem no_table (hslot : ∀ next, (slots s).slot (n + 1) t i ≠ .inl next) {below : Frame}
    {height pre' : ℕ} (hheight : height ≤ n) (hpre : pre' / 512 ^ (n - height) = pre * 512 + i) :
    label below ≠ some (.own root height pre') := by
  intro hbelow
  have hle := h.height_le ht
  obtain ⟨up, hup⟩ := h.ancestor hbelow (n - height) (by omega)
  rw [hpre, show height + (n - height) = n by omega] at hup
  obtain ⟨up', hup', hlink⟩ := h.placed up root n _ hup (by omega)
  rw [digit_div hi] at hup'
  rw [digit_mod hi, ← h.own_unique ht hup'] at hlink
  exact hslot up hlink

/-- An entry that is missing or a huge page leads nowhere, and gives user mode
nothing. -/
theorem slot_skipped (hskip : (s.entry t i).present = true → (s.entry t i).huge = true) :
    (∀ next, (slots s).slot (n + 1) t i ≠ .inl next) ∧
      ∀ key, key / 512 ^ (n + 1) = pre * 512 + i →
        ((slots s).lookup 512 3 root key).user = false := by
  have hslot : ∃ values, (slots s).slot (n + 1) t i = .inr values ∧
      ∀ key, (values key).user = false := by
    by_cases hpresent : (s.entry t i).present = true
    · have hhuge := hskip hpresent
      have hzero : n = 0 := by
        by_contra hne
        rw [h.flat t _ i ht (by simp only [Label.height]; omega) hi hpresent] at hhuge
        cases hhuge
      subst hzero
      refine ⟨_, by simp [slots, hpresent, hhuge]; rfl, fun key => ?_⟩
      exact (h.huge t _ i ht rfl hi hpresent hhuge).1
    · exact ⟨_, by simp [slots, hpresent]; rfl, fun key => rfl⟩
  obtain ⟨values, hslot, hvalues⟩ := hslot
  refine ⟨fun next hnext => (by rw [hslot] at hnext; cases hnext), fun key hkey => ?_⟩
  have hpre : key / 512 ^ (n + 1 + 1) = pre := by rw [div_pow_succ, hkey, digit_div hi]
  rw [h.lookup_own ht hpre, Radix.lookup, hkey, digit_mod hi, hslot]
  exact hvalues key

/-- The table a slot leads to, below the middle. -/
theorem child_own (hlow : n = 2 → i < 256) {next : Frame}
    (hslot : (slots s).slot (n + 1) t i = .inl next) :
    label next = some (.own root n (pre * 512 + i)) := by
  have hnext := h.labelled.child t _ n i next ht rfl hi hslot
  rwa [Label.step, if_neg (by omega)] at hnext

end

/-- The tables of an address space are below the middle. -/
theorem own_lower (ht : label t = some (.own root n pre))
    (hn : n < 3) : pre / 512 ^ (2 - n) < 256 := by
  obtain ⟨up, hup⟩ := h.ancestor ht (2 - n) (by omega)
  rw [show n + (2 - n) = 2 by omega] at hup
  obtain ⟨pml4, hpml4, hlink⟩ := h.placed up root 2 _ hup (by omega)
  obtain ⟨-, hzero⟩ := (h.rooted pml4 root 3 _ hpml4).2 rfl
  have hnext := h.labelled.child pml4 _ 2 _ up hpml4 rfl (Nat.mod_lt _ (by omega)) hlink
  rw [hup, Label.step] at hnext
  split_ifs at hnext with hhigh
  · cases hnext
  · omega

end

end Tables

end Shitix.Paging
