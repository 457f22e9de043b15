import Mathlib.Data.List.Nodup

/-!
# Null-terminated lists threaded through a store

A singly linked list whose links live in the cells it connects: `next` reads the
link stored in a cell, `nil` ends the list.  `Threaded next nil head nodes` says
that following `next` from `head` visits exactly `nodes`, in this order, and then
reaches `nil`.

Because `next` is a function, the visited list is determined by the head
(`Threaded.unique`), and a list that ends can have no cycle (`Threaded.nodup`):
a repeated cell would start two lists of different lengths.  Writing a link
outside the list keeps it (`Threaded.congr`), and writing the old head into a new
cell pushes that cell (`Threaded.push`).
-/

namespace Shitix

variable {α : Type*}

/-- Following `next` from the head visits the given cells and ends at `nil`. -/
def Threaded (next : α → α) (nil : α) : α → List α → Prop
  | head, [] => head = nil
  | head, node :: rest => head = node ∧ node ≠ nil ∧ Threaded next nil (next node) rest

namespace Threaded

variable {next next' : α → α} {nil head node : α} {nodes : List α}

/-- The head decides the list. -/
theorem unique : ∀ {head : α} {first second : List α},
    Threaded next nil head first → Threaded next nil head second → first = second
  | _, [], [], _, _ => rfl
  | _, [], _ :: _, hfirst, hsecond => absurd (hsecond.1.symm.trans hfirst) hsecond.2.1
  | _, _ :: _, [], hfirst, hsecond => absurd (hfirst.1.symm.trans hsecond) hfirst.2.1
  | _, node :: _, other :: _, hfirst, hsecond => by
      obtain ⟨rfl, _, hfirst⟩ := hfirst
      obtain ⟨rfl, _, hsecond⟩ := hsecond
      rw [unique hfirst hsecond]

/-- Every suffix of a threaded list is threaded from its own first cell. -/
theorem of_append {rest : List α} : ∀ {head : α} (before : List α),
      Threaded next nil head (before ++ node :: rest) → Threaded next nil node (node :: rest)
  | _, [], h => by
      obtain ⟨rfl, hne, hrest⟩ := h
      exact ⟨rfl, hne, hrest⟩
  | _, _ :: before, h => of_append before h.2.2

section

variable (h : Threaded next nil head nodes)

include h

/-- A list that ends has no cycle. -/
theorem nodup : nodes.Nodup := by
  induction nodes generalizing head with
  | nil => exact List.nodup_nil
  | cons node rest ih =>
    refine List.nodup_cons.mpr ⟨fun hmem => ?_, ih h.2.2⟩
    obtain ⟨before, after, rfl⟩ := List.append_of_mem hmem
    -- the same cell would start two lists of different lengths
    have hlater : Threaded next nil node (node :: after) := of_append before h.2.2
    have hhere : Threaded next nil node (node :: (before ++ node :: after)) :=
      ⟨rfl, h.2.1, h.2.2⟩
    have := congrArg List.length (unique hhere hlater)
    simp at this
    omega

/-- A list is kept by any store that agrees on its own links. -/
theorem congr (hsame : ∀ node ∈ nodes, next' node = next node) : Threaded next' nil head nodes := by
  induction nodes generalizing head with
  | nil => exact h
  | cons node rest ih =>
    obtain ⟨hhead, hne, hrest⟩ := h
    refine ⟨hhead, hne, ?_⟩
    rw [hsame node List.mem_cons_self]
    exact ih hrest fun other hother => hsame other (List.mem_cons_of_mem _ hother)

/-- Writing the old head into a new cell puts the cell in front. -/
theorem push (hne : node ≠ nil) (hlink : next' node = head)
    (hsame : ∀ other ∈ nodes, next' other = next other) : Threaded next' nil node (node :: nodes) :=
  ⟨rfl, hne, hlink ▸ h.congr hsame⟩

end

end Threaded

end Shitix
