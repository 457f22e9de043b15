import Mathlib.Data.List.Basic
import Mathlib.Data.Nat.ModEq

/-!
# Ring buffers

A ring of `size` cells holds a queue: its first value is in cell `start`, and it goes on upwards
and around.  `ringSlice` reads it.  Values come in at the end in parts that do not go around
(`ringSlice_store`), and go out at the front in such parts (`ringSlice_straight`,
`ringSlice_add`).
-/

namespace Shitix

open List

variable {α : Type*}

/-- The next `n` values from cell `start` on. -/
def ringSlice (cells : ℕ → α) (size start n : ℕ) : List α :=
  (List.range n).map fun i => cells ((start + i) % size)

/-- The values of neighbouring cells. -/
def cellsFrom (cells : ℕ → α) (pos n : ℕ) : List α := (List.range n).map fun i => cells (pos + i)

/-- The cells after a list was written from a position on. -/
def store (cells : ℕ → α) (pos : ℕ) (values : List α) : ℕ → α := fun i =>
  if pos ≤ i then (values[i - pos]?).getD (cells i) else cells i

variable {cells : ℕ → α} {size start n pos len i : ℕ} {values : List α}

@[simp] theorem length_cellsFrom : (cellsFrom cells pos n).length = n := by
  simp [cellsFrom]

theorem store_inside {value : α} (hvalue : values[i]? = some value) :
    store cells pos values (pos + i) = value := by
  unfold store
  rw [if_pos (Nat.le_add_right pos i), Nat.add_sub_cancel_left, hvalue, Option.getD_some]

theorem store_outside (hi : i < pos ∨ pos + values.length ≤ i) :
    store cells pos values i = cells i := by
  unfold store
  split_ifs with hle
  · rw [getElem?_eq_none (by omega), Option.getD_none]
  · rfl

/-- A slice in two parts. -/
theorem ringSlice_add (cells : ℕ → α) (size start m n : ℕ) :
    ringSlice cells size start (m + n) =
      ringSlice cells size start m ++ ringSlice cells size ((start + m) % size) n := by
  unfold ringSlice
  rw [range_add, map_append, map_map]
  congr 1
  refine map_congr_left fun i _ => ?_
  rw [Function.comp_apply, Nat.mod_add_mod, add_assoc]

/-- A slice that does not go around. -/
theorem ringSlice_straight (h : start + n ≤ size) :
    ringSlice cells size start n = cellsFrom cells start n := by
  refine map_congr_left fun i hi => ?_
  have hlt := mem_range.mp hi
  rw [Nat.mod_eq_of_lt (by omega)]

/-- The cell after `len` values is not one of theirs. -/
theorem ring_index_ne (hi : i < len) (hroom : len < size) :
    (start + i) % size ≠ (start + len) % size := by
  intro heq
  have hdvd : (len - i) % size = 0 := by
    have hmod := Nat.sub_mod_eq_zero_of_mod_eq heq.symm
    rwa [Nat.add_sub_add_left] at hmod
  rw [Nat.mod_eq_of_lt (by omega)] at hdvd
  omega

/-- Values written behind the last one, in a part that does not go around. -/
theorem ringSlice_store (hpos : pos = (start + len) % size) (hroom : len + values.length ≤ size)
    (hstraight : pos + values.length ≤ size) :
    ringSlice (store cells pos values) size start (len + values.length) =
      ringSlice cells size start len ++ values := by
  have hindex : ∀ i < values.length, (start + (len + i)) % size = pos + i := by
    intro i hi
    rw [← add_assoc, ← Nat.mod_add_mod, ← hpos, Nat.mod_eq_of_lt (by omega)]
  rw [ringSlice_add]
  congr 1
  · refine map_congr_left fun i hi => store_outside ?_
    have hlt := mem_range.mp hi
    by_contra hinside
    -- the cell would be one of those behind the last value
    obtain ⟨j, hj⟩ : ∃ j, (start + i) % size = pos + j := ⟨(start + i) % size - pos, by omega⟩
    have hne := @ring_index_ne size start (len + j) i (by omega) (by omega)
    rw [hindex j (by omega)] at hne
    exact hne hj
  · rw [← hpos, ringSlice_straight hstraight]
    refine ext_getElem (by simp) fun i hi hi' => ?_
    simp only [cellsFrom, getElem_map, getElem_range]
    exact store_inside (getElem?_eq_getElem hi')

end Shitix
