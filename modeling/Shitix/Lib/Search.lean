import Mathlib.Data.Nat.Notation
import Mathlib.Tactic.Basic

/-!
# Searching a range of numbers

`search p low high` is the first number from `low` up to `high` with a property, as a loop
that stops at the first hit finds it.  `IsFirst` says the same without computing it.
-/

namespace Shitix

/-- The first number of `[low, high)` with the property. -/
def search (p : ℕ → Bool) (low high : ℕ) : Option ℕ := (List.range' low (high - low)).find? p

/-- The number has the property, and no smaller one of the range does. -/
structure IsFirst (P : ℕ → Prop) (low high n : ℕ) : Prop where
  low_le : low ≤ n
  lt_high : n < high
  holds : P n
  below : ∀ m, low ≤ m → m < n → ¬ P m

variable {p : ℕ → Bool} {P Q : ℕ → Prop} {low high n m : ℕ}

theorem IsFirst.unique (h : IsFirst P low high n) (h' : IsFirst P low high m) : n = m := by
  rcases Nat.lt_trichotomy n m with hlt | heq | hgt
  · exact absurd h.holds (h'.below n h.low_le hlt)
  · exact heq
  · exact absurd h'.holds (h.below m h'.low_le hgt)

theorem IsFirst.congr (h : IsFirst P low high n) (hiff : ∀ m, P m ↔ Q m) : IsFirst Q low high n :=
  ⟨h.low_le, h.lt_high, (hiff n).mp h.holds, fun m hle hlt hq => h.below m hle hlt ((hiff m).mpr hq)⟩

theorem IsFirst.forall_iff (h : IsFirst P low high n) :
    (∀ m, IsFirst P low high m → Q m) ↔ Q n := by
  refine ⟨fun hall => hall n h, fun hn m hm => ?_⟩
  rw [← h.unique hm]
  exact hn

section

variable (hp : ∀ m, p m = true ↔ P m)

include hp

theorem search_eq_some : search p low high = some n ↔ IsFirst P low high n := by
  unfold search
  rw [List.find?_range'_eq_some, List.mem_range'_1]
  constructor
  · rintro ⟨hholds, ⟨hle, hlt⟩, hbelow⟩
    refine ⟨hle, by omega, (hp n).mp hholds, fun m hm hmn hholds' => ?_⟩
    have hfalse := hbelow m hm hmn
    rw [(hp m).mpr hholds'] at hfalse
    cases hfalse
  · rintro ⟨hle, hlt, hholds, hbelow⟩
    refine ⟨(hp n).mpr hholds, ⟨hle, by omega⟩, fun m hm hmn => ?_⟩
    rw [Bool.not_eq_true', ← Bool.not_eq_true, hp m]
    exact hbelow m hm hmn

theorem search_eq_none : search p low high = none ↔ ∀ n, ¬ IsFirst P low high n := by
  constructor
  · intro hnone n hfirst
    rw [(search_eq_some hp).mpr hfirst] at hnone
    cases hnone
  · intro hnot
    cases hsearch : search p low high with
    | none => rfl
    | some n => exact absurd ((search_eq_some hp).mp hsearch) (hnot n)

theorem not_of_search_none (h : search p low high = none) (hlow : low ≤ n) (hhigh : n < high) :
    ¬ P n := by
  intro hholds
  refine List.find?_eq_none.mp h n ?_ ((hp n).mpr hholds)
  rw [List.mem_range'_1]
  omega

end

/-- The first number after the first one is the first one once that is taken. -/
theorem IsFirst.next_iff (h : IsFirst P low high n) (hiff : ∀ m, Q m ↔ P m ∧ m ≠ n) :
    IsFirst Q low high m ↔ IsFirst P (n + 1) high m := by
  constructor
  · intro h'
    obtain ⟨hholds, hne⟩ := (hiff m).mp h'.holds
    have hlt : n < m := by
      rcases Nat.lt_trichotomy n m with hlt | heq | hgt
      · exact hlt
      · exact absurd heq.symm hne
      · exact absurd hholds (h.below m h'.low_le hgt)
    refine ⟨hlt, h'.lt_high, hholds, fun other hle hother hholds' => ?_⟩
    have hlow := h.low_le
    exact h'.below other (by omega) hother ((hiff other).mpr ⟨hholds', by omega⟩)
  · intro h'
    have hle := h'.low_le
    have hlow := h.low_le
    refine ⟨by omega, h'.lt_high, (hiff m).mpr ⟨h'.holds, by omega⟩, fun other hother hlt hq => ?_⟩
    obtain ⟨hholds, hne⟩ := (hiff other).mp hq
    rcases Nat.lt_or_ge other n with hbelow | habove
    · exact h.below other hother hbelow hholds
    · exact h'.below other (by omega) hlt hholds

end Shitix
