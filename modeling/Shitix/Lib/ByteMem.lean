import Mathlib.Algebra.Group.Nat.Defs
import Mathlib.Logic.Function.Basic
import Mathlib.Tactic.SplitIfs

/-!
# Byte memory

A memory of bytes that remembers where it was written.  `copy` writes a list of
bytes upwards from an address; what it does is said once by `copy_inside`,
`copy_outside` and `mem_written_copy`.  Numbers are stored little-endian by
`leBytes` and read back by `leValue`; `leField` reads one out of a list.  `bytes` reads
a range; what was copied there is read back by `bytes_copy`.
-/

namespace Shitix

open List Function

/-- A memory, and the addresses written so far. -/
structure ByteMem where
  byte : ℕ → UInt8
  written : List ℕ

namespace ByteMem

/-- Write one byte. -/
def put (m : ByteMem) (a : ℕ) (b : UInt8) : ByteMem :=
  { byte := update m.byte a b, written := a :: m.written }

/-- Write bytes upwards from an address. -/
def copy (m : ByteMem) (a : ℕ) : List UInt8 → ByteMem
  | [] => m
  | b :: bytes => (m.put a b).copy (a + 1) bytes

theorem copy_outside {bytes : List UInt8} : ∀ {m : ByteMem} {a x : ℕ},
    x < a ∨ a + bytes.length ≤ x → (m.copy a bytes).byte x = m.byte x := by
  induction bytes with
  | nil => exact fun _ => rfl
  | cons b bytes ih =>
    intro m a x hx
    rw [length_cons] at hx
    have hne : x ≠ a := by omega
    rw [copy, ih (by omega)]
    exact update_of_ne hne ..

theorem copy_inside {bytes : List UInt8} : ∀ {m : ByteMem} {a i : ℕ} {b : UInt8},
    bytes[i]? = some b → (m.copy a bytes).byte (a + i) = b := by
  induction bytes with
  | nil =>
    intro m a i b hb
    cases hb
  | cons first bytes ih =>
    intro m a i b hb
    cases i with
    | zero =>
      cases hb
      have hbelow : a < a + 1 := Nat.lt_succ_self a
      exact (copy_outside (.inl hbelow)).trans (update_self ..)
    | succ i =>
      rw [show a + (i + 1) = a + 1 + i by omega]
      exact ih hb

theorem mem_written_copy {bytes : List UInt8} : ∀ {m : ByteMem} {a x : ℕ},
    x ∈ (m.copy a bytes).written ↔ x ∈ m.written ∨ a ≤ x ∧ x < a + bytes.length := by
  induction bytes with
  | nil =>
    refine ⟨.inl, fun hx => hx.resolve_right fun hrange => ?_⟩
    rw [length_nil] at hrange
    omega
  | cons b bytes ih =>
    intro m a x
    rw [copy, ih, put, mem_cons, length_cons]
    by_cases hx : x ∈ m.written
    · exact ⟨fun _ => .inl hx, fun _ => .inl (.inr hx)⟩
    · simp only [hx, or_false, false_or]
      omega

theorem copy_append {first second : List UInt8} : ∀ {m : ByteMem} {a : ℕ},
    m.copy a (first ++ second) = (m.copy a first).copy (a + first.length) second := by
  induction first with
  | nil => exact rfl
  | cons b first ih =>
    intro m a
    rw [cons_append, copy, copy, ih, length_cons, add_assoc, add_comm 1]

/-- The bytes from an address. -/
def bytes (m : ByteMem) (a n : ℕ) : List UInt8 := (List.range n).map fun i => m.byte (a + i)

theorem bytes_congr {m m' : ByteMem} {a n : ℕ} (h : ∀ i < n, m'.byte (a + i) = m.byte (a + i)) :
    m'.bytes a n = m.bytes a n :=
  map_congr_left fun i hi => h i (mem_range.mp hi)

/-- A part of what was copied, read back. -/
theorem bytes_copy (m : ByteMem) (a : ℕ) (before middle after : List UInt8) :
    (m.copy a (before ++ middle ++ after)).bytes (a + before.length) middle.length = middle := by
  refine ext_getElem (by simp [bytes]) fun i hi hi' => ?_
  simp only [bytes, getElem_map, getElem_range]
  rw [add_assoc]
  refine copy_inside ?_
  rw [append_assoc, getElem?_append_right (Nat.le_add_right _ _), Nat.add_sub_cancel_left,
    getElem?_append_left hi', getElem?_eq_getElem hi']

end ByteMem

/-- The low `n` bytes of a number, lowest first. -/
def leBytes : ℕ → ℕ → List UInt8
  | 0, _ => []
  | n + 1, value => UInt8.ofNat value :: leBytes n (value / 256)

/-- The number a list of bytes stands for, lowest first. -/
def leValue : List UInt8 → ℕ
  | [] => 0
  | b :: bytes => b.toNat + 256 * leValue bytes

@[simp] theorem length_leBytes (n value : ℕ) : (leBytes n value).length = n := by
  induction n generalizing value with
  | zero => rfl
  | succ n ih => rw [leBytes, length_cons, ih]

theorem leValue_leBytes (n value : ℕ) : leValue (leBytes n value) = value % 256 ^ n := by
  induction n generalizing value with
  | zero => rw [leBytes, leValue, pow_zero, Nat.mod_one]
  | succ n ih =>
    rw [leBytes, leValue, ih, pow_succ, mul_comm (256 ^ n), Nat.mod_mul,
      UInt8.toNat_ofNat']

/-- The number in the `n` bytes from place `k` on. -/
def leField (raw : List UInt8) (k n : ℕ) : ℕ := leValue ((raw.drop k).take n)

theorem leField_append (before after : List UInt8) (k n : ℕ) :
    leField (before ++ after) (before.length + k) n = leField after k n := by
  rw [leField, leField, drop_length_add_append]

end Shitix
