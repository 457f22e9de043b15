import Mathlib.Data.List.Induction

/-!
# Trees of pointer blocks

A file system keeps the blocks of a file in trees: a root cell names a block, each
entry of a block above the lowest level names a block one level down, and 0 stands for no
block.  `ι` is the type of root cells, `depth` says how many levels of pointer blocks are
below each, and a place is a root cell with a path of entries below it.  `node` is the
block at a place.

In a `Forest` no block has two places.  So an entry of a pointer block belongs to one
place only, and writing it changes the node of that place and of no other, provided
that nothing hangs below it (`CellEdit.node_eq`).  Allocating a block and giving one back are
both such edits, of a root cell or of an entry.
-/

namespace Shitix.BlockTree

open List

variable {ι : Type*}

/-- The block a path of entries leads to. -/
def walk (ptr : ℕ → ℕ → ℕ) : ℕ → List ℕ → ℕ
  | b, [] => b
  | b, i :: rest => if b = 0 then 0 else walk ptr (ptr b i) rest

/-- The block at a place. -/
def node (roots : ι → ℕ) (ptr : ℕ → ℕ → ℕ) (s : ι) (path : List ℕ) : ℕ := walk ptr (roots s) path

variable {depth : ι → ℕ} {roots roots' : ι → ℕ} {ptr ptr' : ℕ → ℕ → ℕ} {s s' : ι} {b i v : ℕ}
  {path path' : List ℕ}

@[simp] theorem walk_zero : walk ptr 0 path = 0 := by
  cases path with
  | nil => rfl
  | cons i rest => exact if_pos rfl

theorem walk_concat : walk ptr b (path ++ [i]) =
    if walk ptr b path = 0 then 0 else ptr (walk ptr b path) i := by
  induction path generalizing b with
  | nil => rfl
  | cons j rest ih =>
    by_cases hb : b = 0
    · subst hb
      simp
    · simp only [cons_append, walk, if_neg hb]
      exact ih

@[simp] theorem node_nil : node roots ptr s [] = roots s := rfl

theorem node_concat : node roots ptr s (path ++ [i]) =
    if node roots ptr s path = 0 then 0 else ptr (node roots ptr s path) i := walk_concat

theorem node_concat_of_ne (h : node roots ptr s path ≠ 0) :
    node roots ptr s (path ++ [i]) = ptr (node roots ptr s path) i := by
  rw [node_concat, if_neg h]

theorem node_concat_of_eq (h : node roots ptr s path = 0) : node roots ptr s (path ++ [i]) = 0 := by
  rw [node_concat, if_pos h]

/-- No block has two places. -/
def Forest (depth : ι → ℕ) (roots : ι → ℕ) (ptr : ℕ → ℕ → ℕ) : Prop :=
  ∀ s path s' path', path.length ≤ depth s → path'.length ≤ depth s' →
    node roots ptr s path ≠ 0 → node roots ptr s path = node roots ptr s' path' →
    s = s' ∧ path = path'

/-- Nothing changes if the roots and the entries of the pointer blocks stay the same. -/
theorem node_congr (hroots : roots' s = roots s)
    (hptr : ∀ path, path.length < depth s → node roots ptr s path ≠ 0 →
      ∀ i, ptr' (node roots ptr s path) i = ptr (node roots ptr s path) i)
    (hlength : path.length ≤ depth s) : node roots' ptr' s path = node roots ptr s path := by
  induction path using reverseRecOn with
  | nil => exact hroots
  | append_singleton path i ih =>
    rw [length_append, length_singleton] at hlength
    have hnode := ih (by omega)
    by_cases hzero : node roots ptr s path = 0
    · rw [node_concat_of_eq hzero, node_concat_of_eq (hnode.trans hzero)]
    · rw [node_concat_of_ne hzero, node_concat_of_ne (hnode.trans_ne hzero), hnode]
      exact hptr path (by omega) hzero i

/-- An edit of the cell of one place, with nothing below that place before or after. -/
structure CellEdit (depth : ι → ℕ) (roots : ι → ℕ) (ptr : ℕ → ℕ → ℕ) (roots' : ι → ℕ)
    (ptr' : ℕ → ℕ → ℕ) (s : ι) (path : List ℕ) (v : ℕ) : Prop where
  /-- the other root cells stay -/
  roots_eq : ∀ s', (s', []) ≠ (s, path) → roots' s' = roots s'
  /-- the other entries stay -/
  ptr_eq : ∀ s' path' i, path'.length < depth s' → node roots ptr s' path' ≠ 0 →
    (s', path' ++ [i]) ≠ (s, path) →
    ptr' (node roots ptr s' path') i = ptr (node roots ptr s' path') i
  /-- the cell is a root cell with the new value -/
  root : path = [] → roots' s = v
  /-- or an entry with the new value -/
  entry : ∀ init i, path = init ++ [i] → node roots ptr s init ≠ 0 ∧
    ptr' (node roots ptr s init) i = v
  /-- nothing is below the new block -/
  fresh : v ≠ 0 → ∀ i, ptr' v i = 0
  /-- and nothing was below the place -/
  empty : ∀ i, path.length < depth s → node roots ptr s (path ++ [i]) = 0

/-- The edit changes the node of its place and no other. -/
theorem CellEdit.node_eq [DecidableEq ι] (h : CellEdit depth roots ptr roots' ptr' s path v)
    (hlength : path'.length ≤ depth s') :
    node roots' ptr' s' path' = if (s', path') = (s, path) then v else node roots ptr s' path' := by
  induction path' using reverseRecOn with
  | nil =>
    by_cases hplace : (s', ([] : List ℕ)) = (s, path)
    · rw [if_pos hplace]
      obtain ⟨rfl, rfl⟩ := Prod.mk.inj hplace
      exact h.root rfl
    · rw [if_neg hplace]
      exact h.roots_eq s' hplace
  | append_singleton init i ih =>
    rw [length_append, length_singleton] at hlength
    have hinit := ih (by omega)
    by_cases hparent : (s', init) = (s, path)
    · -- below the place that is edited
      obtain ⟨rfl, rfl⟩ := Prod.mk.inj hparent
      rw [if_pos rfl] at hinit
      have hother : (s', init ++ [i]) ≠ (s', init) := by
        intro heq
        have := congrArg length (Prod.mk.inj heq).2
        simp at this
      rw [if_neg hother, h.empty i (by omega), node_concat, hinit]
      by_cases hv : v = 0
      · exact if_pos hv
      · rw [if_neg hv]
        exact h.fresh hv i
    · rw [if_neg hparent] at hinit
      by_cases hplace : (s', init ++ [i]) = (s, path)
      · rw [if_pos hplace]
        obtain ⟨rfl, rfl⟩ := Prod.mk.inj hplace
        obtain ⟨hne, hcell⟩ := h.entry init i rfl
        rw [node_concat_of_ne (hinit.trans_ne hne), hinit]
        exact hcell
      · rw [if_neg hplace]
        by_cases hzero : node roots ptr s' init = 0
        · rw [node_concat_of_eq hzero, node_concat_of_eq (hinit.trans hzero)]
        · rw [node_concat_of_ne hzero, node_concat_of_ne (hinit.trans_ne hzero), hinit]
          exact h.ptr_eq s' init i (by omega) hzero hplace

/-- A forest stays one if the edit brings in a block without a place, or none. -/
theorem Forest.edit [DecidableEq ι] (hforest : Forest depth roots ptr)
    (h : CellEdit depth roots ptr roots' ptr' s path v)
    (hnew : v ≠ 0 → ∀ s' path', path'.length ≤ depth s' → node roots ptr s' path' ≠ v) :
    Forest depth roots' ptr' := by
  intro a p a' p' hp hp' hne heq
  rw [h.node_eq hp] at hne heq
  rw [h.node_eq hp'] at heq
  by_cases hplace : (a, p) = (s, path)
  · rw [if_pos hplace] at hne heq
    by_cases hplace' : (a', p') = (s, path)
    · exact Prod.mk.inj (hplace.trans hplace'.symm)
    · rw [if_neg hplace'] at heq
      exact absurd heq.symm (hnew hne a' p' hp')
  · rw [if_neg hplace] at hne heq
    by_cases hplace' : (a', p') = (s, path)
    · rw [if_pos hplace'] at heq
      exact absurd heq (hnew (heq ▸ hne) a p hp)
    · rw [if_neg hplace'] at heq
      exact hforest a p a' p' hp hp' hne heq

/-- In a forest, an entry of a pointer block is that of one place: an edit of it leaves the entries
of all other places. -/
theorem Forest.ptr_eq (hforest : Forest depth roots ptr) (hlength : path.length < depth s)
    (hne : node roots ptr s path ≠ 0) {j : ℕ} (hlength' : path'.length < depth s')
    (hother : (node roots ptr s' path' = node roots ptr s path → j ≠ i) →
      ptr' (node roots ptr s' path') j = ptr (node roots ptr s' path') j)
    (hplace : (s', path' ++ [j]) ≠ (s, path ++ [i])) :
    ptr' (node roots ptr s' path') j = ptr (node roots ptr s' path') j := by
  refine hother fun heq hj => hplace ?_
  obtain ⟨rfl, rfl⟩ := hforest s path s' path' (by omega) (by omega) hne heq.symm
  rw [hj]

end Shitix.BlockTree
