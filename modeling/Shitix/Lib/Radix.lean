import Mathlib.Algebra.Group.Nat.Defs
import Mathlib.Tactic.Basic

/-!
# Radix trees in a heap

A radix tree of base `b` whose nodes are cells of a heap.  A node of height
`n + 1` has `b` slots; a slot either leads to a node of height `n` or holds the
values of its whole key range as one function (an empty range, or a range that
is not broken up).  A node of height 0 holds `b` values.

`lookup` is the value of a key.  Sharing is allowed: nothing below assumes that
a node has one parent.  What is assumed instead is a labelling of the nodes that
fixes the height of each and follows the slots (`Labelled`); two lookups that end
in the same node then agree on its label.

Two facts are proved about changes of the heap:

* `lookup_expand`: replacing a slot's values by a node with the same values
  changes no lookup at all;
* `lookup_write_of_ne`: writing one value changes no lookup that ends elsewhere.
-/

namespace Shitix

/-- The contents of a heap of radix-tree nodes: the slots of a node at a height
above 0 and the values of a node at height 0. -/
structure Radix (Node Value : Type*) where
  slot : ℕ → Node → ℕ → Node ⊕ (ℕ → Value)
  leaf : Node → ℕ → Value

namespace Radix

variable {Node Value Label : Type*} (b : ℕ) (tree tree' : Radix Node Value)

/-- The value of a key below a node of the given height. -/
def lookup : ℕ → Node → ℕ → Value
  | 0, node, key => tree.leaf node (key % b)
  | n + 1, node, key =>
    match tree.slot (n + 1) node (key / b ^ (n + 1) % b) with
    | .inl next => lookup n next key
    | .inr values => values key

/-- The node of height 0 that holds the value of a key, if the tree goes that deep. -/
def reach : ℕ → Node → ℕ → Option Node
  | 0, node, _ => some node
  | n + 1, node, key =>
    match tree.slot (n + 1) node (key / b ^ (n + 1) % b) with
    | .inl next => reach n next key
    | .inr _ => none

/-- The nodes on the way down along a key. -/
def path : ℕ → Node → ℕ → List Node
  | 0, node, _ => [node]
  | n + 1, node, key =>
    node :: match tree.slot (n + 1) node (key / b ^ (n + 1) % b) with
      | .inl next => path n next key
      | .inr _ => []

/-- The label `n` slots further down, along a key. -/
def labelAt (step : Label → ℕ → Label) : ℕ → Label → ℕ → Label
  | 0, label, _ => label
  | n + 1, label, key => labelAt step n (step label (key / b ^ (n + 1) % b)) key

/-- The labels fix the heights and follow the slots. -/
structure Labelled (step : Label → ℕ → Label) (height : Label → ℕ)
    (label : Node → Option Label) : Prop where
  height_step : ∀ l n i, height l = n + 1 → height (step l i) = n
  child : ∀ node l n i next, label node = some l → height l = n + 1 → i < b →
    tree.slot (n + 1) node i = .inl next → label next = some (step l i)

variable {b tree tree'} {step : Label → ℕ → Label} {height : Label → ℕ}
  {label : Node → Option Label} {n key : ℕ} {node leaf : Node} {l : Label}

theorem lookup_of_reach (h : tree.reach b n node key = some leaf) :
    tree.lookup b n node key = tree.leaf leaf (key % b) := by
  induction n generalizing node with
  | zero =>
    cases h
    rfl
  | succ n ih =>
    simp only [reach, lookup] at h ⊢
    split at h
    · exact ih h
    · cases h

/-- A lookup ends in a node with the label that its key leads to. -/
theorem label_of_reach (ht : tree.Labelled b step height label) (hb : 0 < b)
    (hl : label node = some l) (hn : height l = n) (h : tree.reach b n node key = some leaf) :
    label leaf = some (labelAt b step n l key) := by
  induction n generalizing node l with
  | zero =>
    cases h
    exact hl
  | succ n ih =>
    simp only [reach] at h
    split at h
    · next next hslot =>
      exact ih (ht.child node l n _ next hl hn (Nat.mod_lt _ hb) hslot)
        (ht.height_step l n _ hn) h
    · cases h

/-- What goes down along the slots of a key holds of every node on its path. -/
theorem forall_path {P : ℕ → Node → Prop}
    (hstep : ∀ n node next, tree.slot (n + 1) node (key / b ^ (n + 1) % b) = .inl next →
      P (n + 1) node → P n next) (hnode : P n node) :
    ∀ below ∈ tree.path b n node key, ∃ m, P m below := by
  induction n generalizing node with
  | zero =>
    intro below hbelow
    obtain rfl := List.mem_singleton.mp hbelow
    exact ⟨0, hnode⟩
  | succ n ih =>
    intro below hbelow
    rcases List.mem_cons.mp hbelow with rfl | hbelow
    · exact ⟨n + 1, hnode⟩
    · split at hbelow
      · next next hslot => exact ih (hstep n node next hslot hnode) below hbelow
      · cases hbelow

/-- Breaking up slots into nodes with the same values changes no lookup. -/
theorem lookup_expand (ht : tree.Labelled b step height label) (hb : 0 < b)
    (hslot : ∀ node l n i, label node = some l → height l = n + 1 → i < b →
      tree'.slot (n + 1) node i = tree.slot (n + 1) node i ∨
        ∃ values next, tree.slot (n + 1) node i = .inr values ∧
          tree'.slot (n + 1) node i = .inl next ∧
          ∀ key, key / b ^ (n + 1) % b = i → tree'.lookup b n next key = values key)
    (hleaf : ∀ node l i, label node = some l → height l = 0 →
      tree'.leaf node i = tree.leaf node i)
    (hl : label node = some l) (hn : height l = n) (key : ℕ) :
    tree'.lookup b n node key = tree.lookup b n node key := by
  induction n generalizing node l with
  | zero => exact hleaf node l _ hl hn
  | succ n ih =>
    have hi : key / b ^ (n + 1) % b < b := Nat.mod_lt _ hb
    simp only [lookup]
    rcases hslot node l n _ hl hn hi with hsame | ⟨values, next, hold, hnew, hvalues⟩
    · rw [hsame]
      split
      · next next hnext =>
        exact ih (ht.child node l n _ next hl hn hi hnext) (ht.height_step l n _ hn)
      · rfl
    · rw [hold, hnew]
      exact hvalues key rfl

section Write

variable {target : Node} {index : ℕ}
  (ht : tree.Labelled b step height label) (hb : 0 < b)
  (hslot : ∀ node l n i, label node = some l → height l = n + 1 →
    tree'.slot (n + 1) node i = tree.slot (n + 1) node i)
  (hleaf : ∀ node i, (node = target → i ≠ index) → tree'.leaf node i = tree.leaf node i)

include ht hb hslot

theorem reach_write (hl : label node = some l) (hn : height l = n) (key : ℕ) :
    tree'.reach b n node key = tree.reach b n node key := by
  induction n generalizing node l with
  | zero => rfl
  | succ n ih =>
    simp only [reach, hslot node l n _ hl hn]
    split
    · next next hnext =>
      exact ih (ht.child node l n _ next hl hn (Nat.mod_lt _ hb) hnext)
        (ht.height_step l n _ hn)
    · rfl

include hleaf

/-- A write to one value is seen only by lookups with its label and index. -/
theorem lookup_write_of_ne (hl : label node = some l) (hn : height l = n)
    (hne : label target = some (labelAt b step n l key) → key % b ≠ index) :
    tree'.lookup b n node key = tree.lookup b n node key := by
  induction n generalizing node l with
  | zero => exact hleaf node _ fun heq => hne (heq ▸ hl)
  | succ n ih =>
    simp only [lookup, hslot node l n _ hl hn]
    split
    · next next hnext =>
      exact ih (ht.child node l n _ next hl hn (Nat.mod_lt _ hb) hnext)
        (ht.height_step l n _ hn) hne
    · rfl

end Write

end Radix

end Shitix
