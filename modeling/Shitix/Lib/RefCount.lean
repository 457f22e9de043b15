import Mathlib.Algebra.BigOperators.Fin

/-!
# Counting references

A table of references: every place either refers to an object or to none.
`uses table object` is the number of places that refer to an object, the number a
reference count should have.  The lemmas say how it changes when one place does, and when a whole
row of a table is copied into an empty one and counted place by place (`uses_row`, `count_row`).
-/

namespace Shitix

open Function Finset Option

variable {Place Object : Type*} [Fintype Place] [DecidableEq Object]

/-- The number of places that refer to an object. -/
def uses (table : Place → Option Object) (object : Object) : ℕ :=
  (Finset.univ.filter fun place => table place = some object).card

variable {table : Place → Option Object} {object : Object} {place : Place}

theorem uses_pos : 0 < uses table object ↔ ∃ place, table place = some object := by
  simp [uses, filter_nonempty_iff]

theorem uses_eq_zero : uses table object = 0 ↔ ∀ place, table place ≠ some object := by
  simp [uses]

/-- The only reference to an object. -/
theorem eq_of_uses_eq_one (hone : uses table object = 1) (hplace : table place = some object)
    {other : Place} (hother : table other = some object) : other = place := by
  obtain ⟨only, honly⟩ := card_eq_one.mp hone
  have hmem : ∀ {p}, table p = some object → p = only := fun {p} hp => by
    have : p ∈ univ.filter fun place => table place = some object := by simpa using hp
    rw [honly] at this
    simpa using this
  rw [hmem hother, hmem hplace]

/-- References from different groups of places: no more than there are groups. -/
theorem uses_le_card {Group : Type*} (group : Place → Group) (groups : Finset Group)
    (hgroups : ∀ place, table place = some object → group place ∈ groups)
    (honce : ∀ place other, table place = some object → table other = some object →
      group place = group other → place = other) : uses table object ≤ groups.card := by
  refine card_le_card_of_injOn group (fun place hplace => ?_) ?_
  · exact hgroups place (by simpa using hplace)
  · intro place hplace other hother heq
    exact honce place other (by simpa using hplace) (by simpa using hother) heq

/-- A count of 16 bits goes up by one. -/
def inc16 (count : ℕ) : ℕ := (count + 1) % 2 ^ 16

theorem inc16_of_lt {count : ℕ} (h : count + 1 < 2 ^ 16) : inc16 count = count + 1 := Nat.mod_eq_of_lt h

/-! ## Rows -/

section Rows

variable {Row Column : Type*} [Fintype Row] [Fintype Column]

theorem uses_eq_sum (table : Place → Option Object) (object : Object) :
    uses table object = ∑ place, if table place = some object then 1 else 0 :=
  card_filter ..

/-- A row that was empty is another. -/
theorem uses_row [DecidableEq Row] {table : Row × Column → Option Object} {row : Row}
    (hempty : ∀ column, table (row, column) = none) (entries : Column → Option Object)
    (object : Object) :
    uses (fun place => if place.1 = row then entries place.2 else table place) object =
      uses table object + uses entries object := by
  have hrow : ∀ r, (∑ column, if (if r = row then entries column else table (r, column)) =
        some object then 1 else 0) =
      (∑ column, if table (r, column) = some object then 1 else 0) +
        if r = row then uses entries object else 0 := by
    intro r
    by_cases heq : r = row
    · subst heq
      simp [hempty, uses]
    · simp [heq]
  rw [uses_eq_sum, uses_eq_sum table, Fintype.sum_prod_type, Fintype.sum_prod_type]
  simp only [hrow]
  rw [sum_add_distrib, sum_ite_eq' univ row, if_pos (mem_univ row)]

/-- The uses in a row of so many columns. -/
theorem uses_columns (entries : ℕ → Option Object) (width : ℕ) (object : Object) :
    uses (fun column : Fin width => entries column) object =
      ∑ column ∈ range width, if entries column = some object then 1 else 0 := by
  rw [uses_eq_sum]
  exact Fin.sum_univ_eq_sum_range (fun column => if entries column = some object then 1 else 0) width

end Rows

/-- Counting a row place by place; the counting may stop for good. -/
theorem count_row {σ : Type*} (Inv : σ → Prop) (count : σ → Object → ℕ) {add : σ → ℕ → Option σ}
    {entries : ℕ → Option Object} {width : ℕ}
    (hadd : ∀ state column next, column < width → Inv state → add state column = some next →
      Inv next ∧ ∀ object, count next object =
        count state object + if entries column = some object then 1 else 0)
    {state final : σ} (hstate : Inv state)
    (h : (List.range width).foldlM add state = some final) :
    Inv final ∧ ∀ object, count final object = count state object +
      ∑ column ∈ range width, if entries column = some object then 1 else 0 := by
  induction width generalizing final with
  | zero =>
    cases h
    exact ⟨hstate, fun _ => rfl⟩
  | succ width ih =>
    rw [List.range_succ, List.foldlM_append, bind_eq_bind, bind_eq_some_iff] at h
    obtain ⟨middle, hmiddle, hlast⟩ := h
    rw [List.foldlM_cons, bind_eq_bind, bind_eq_some_iff] at hlast
    obtain ⟨next, hnext, hfinal⟩ := hlast
    cases hfinal
    obtain ⟨hinv, hcount⟩ :=
      ih (fun state column next hlt => hadd state column next (Nat.lt_succ_of_lt hlt)) hmiddle
    obtain ⟨hinv', hcount'⟩ := hadd middle width _ (Nat.lt_succ_self width) hinv hnext
    refine ⟨hinv', fun object => ?_⟩
    rw [hcount', hcount, sum_range_succ, add_assoc]

/-! ## One place -/

variable [DecidableEq Place] {target : Option Object}

/-- A change of one place that concerns other objects. -/
theorem uses_update_of_ne (hold : table place ≠ some object) (hnew : target ≠ some object) :
    uses (update table place target) object = uses table object := by
  unfold uses
  congr 1
  refine filter_congr fun other _ => ?_
  by_cases heq : other = place
  · subst heq
    simp [hold, hnew]
  · rw [update_of_ne heq]

theorem uses_update_add (hold : table place ≠ some object) :
    uses (update table place (some object)) object = uses table object + 1 := by
  have hsplit : (univ.filter fun other =>
      update table place (some object) other = some object) =
      insert place (univ.filter fun other => table other = some object) := by
    ext other
    by_cases heq : other = place
    · simp [heq]
    · simp [heq]
  unfold uses
  rw [hsplit, card_insert_of_notMem (by simpa using hold)]

theorem uses_update_remove (hold : table place = some object) (hnew : target ≠ some object) :
    uses (update table place target) object + 1 = uses table object := by
  have hback : update (update table place target) place (some object) =
      table := by
    rw [update_idem, ← hold, update_eq_self]
  have hadd := uses_update_add (by simpa using hnew :
    update table place target place ≠ some object)
  rw [← hadd, hback]

/-- What a change of one place takes and adds. -/
theorem uses_update (table : Place → Option Object) (place : Place) (target : Option Object)
    (object : Object) :
    uses (update table place target) object + (if table place = some object then 1 else 0) =
      uses table object + if target = some object then 1 else 0 := by
  by_cases hold : table place = some object
  · by_cases hnew : target = some object
    · rw [hnew, ← hold, update_eq_self]
    · rw [if_pos hold, if_neg hnew, uses_update_remove hold hnew, add_zero]
  · by_cases hnew : target = some object
    · rw [if_neg hold, if_pos hnew, hnew, uses_update_add hold]
    · rw [if_neg hold, if_neg hnew, uses_update_of_ne hold hnew]

theorem uses_bind (hplace : table place = none) (object other : Object) :
    uses (update table place (some object)) other =
      uses table other + if other = object then 1 else 0 := by
  have hupdate := uses_update table place (some object) other
  simpa only [hplace, reduceCtorEq, if_false, add_zero, some.injEq,
    eq_comm] using hupdate

theorem uses_unbind (hplace : table place = some object) (other : Object) :
    uses table other = uses (update table place none) other + if other = object then 1 else 0 := by
  have hupdate := uses_update table place none other
  simpa only [hplace, reduceCtorEq, if_false, add_zero, some.injEq,
    eq_comm] using hupdate.symm

end Shitix
