import Mathlib.Data.List.Cycle
import Shitix.Lib.Threaded

/-!
# Doubly linked rings and lists in a store

`next` and `prev` read the two links of a cell.  A ring is a cycle of distinct
cells each linked with its successor (`Ring`); a list runs from a head to `nil`,
and the back link of its first cell is a given predecessor (`Chained`).

The lemmas say what taking a cell out and putting one in do, for any new links
that agree with the old ones where nothing was written.  In a ring the neighbours
of the cell may coincide with each other.
-/

namespace Shitix

open List Cycle

variable {α : Type*} {next prev next' prev' : α → α} {ring : Cycle α} {cell added : α}

/-- The two cells point at each other. -/
def Linked (next prev : α → α) (first second : α) : Prop :=
  next first = second ∧ prev second = first

/-- A cycle of distinct cells, each linked with the one after it. -/
structure Ring (next prev : α → α) (ring : Cycle α) : Prop where
  chain : ring.Chain (Linked next prev)
  nodup : ring.Nodup

namespace Ring

/-- A cycle can be read from any of its cells. -/
theorem exists_cons (h : cell ∈ ring) :
    ∃ rest : List α, ring = ((cell :: rest : List α) : Cycle α) := by
  induction ring using Quotient.inductionOn with
  | h nodes =>
    obtain ⟨before, after, rfl⟩ := append_of_mem (mem_coe_iff.mp h)
    refine ⟨after ++ before, coe_eq_coe.mpr ?_⟩
    have hrotated : (before ++ cell :: after).IsRotated (cell :: after ++ before) :=
      isRotated_append
    simpa using hrotated

variable {cell : α} {rest : List α}

/-- What the links say along a ring read from `cell`. -/
theorem cons_iff :
    Ring next prev ((cell :: rest : List α) : Cycle α) ↔
      (cell :: rest).IsChain (Linked next prev) ∧
        Linked next prev ((cell :: rest).getLast (cons_ne_nil _ _)) cell ∧
        (cell :: rest).Nodup := by
  have hsplit : (cell :: (rest ++ [cell])).IsChain (Linked next prev) ↔
      (cell :: rest).IsChain (Linked next prev) ∧
        Linked next prev ((cell :: rest).getLast (cons_ne_nil _ _)) cell := by
    rw [← cons_append, isChain_append,
      getLast?_eq_getLast_of_ne_nil (cons_ne_nil _ _)]
    simp
  constructor
  · rintro ⟨hchain, hnodup⟩
    rw [chain_coe_cons, hsplit] at hchain
    exact ⟨hchain.1, hchain.2, nodup_coe_iff.mp hnodup⟩
  · rintro ⟨hchain, hlast, hnodup⟩
    refine ⟨?_, nodup_coe_iff.mpr hnodup⟩
    rw [chain_coe_cons, hsplit]
    exact ⟨hchain, hlast⟩

section

variable (h : Ring next prev ring) (hcell : cell ∈ ring)

include h hcell

/-- The neighbours of a cell are on the ring. -/
theorem neighbours_mem : next cell ∈ ring ∧ prev cell ∈ ring := by
  obtain ⟨rest, rfl⟩ := exists_cons hcell
  obtain ⟨hchain, hlast, -⟩ := cons_iff.mp h
  constructor
  · cases rest with
    | nil =>
      have halone : next cell = cell := hlast.1
      rwa [halone]
    | cons second rest =>
      have hlinked : Linked next prev cell second := (isChain_cons_cons.mp hchain).1
      rw [hlinked.1]
      simp
  · rw [hlast.2]
    exact mem_coe_iff.mpr (getLast_mem _)

theorem prev_next : prev (next cell) = cell := by
  obtain ⟨rest, rfl⟩ := exists_cons hcell
  obtain ⟨hchain, hlast, -⟩ := cons_iff.mp h
  cases rest with
  | nil => exact (congrArg prev hlast.1).trans hlast.2
  | cons second rest =>
    have hlinked : Linked next prev cell second := (isChain_cons_cons.mp hchain).1
    rw [hlinked.1, hlinked.2]

/-- What passes from each cell to the next holds all around. -/
theorem forall_of_next {P : α → Prop} (hfirst : P cell)
    (hnext : ∀ other, P other → P (next other)) : ∀ other ∈ ring, P other := by
  obtain ⟨rest, rfl⟩ := exists_cons hcell
  intro other hother
  refine (cons_iff.mp h).1.induction P _ (fun first second hlinked hP => ?_) (fun _ => hfirst) other
    (mem_coe_iff.mp hother)
  rw [← hlinked.1]
  exact hnext first hP

end

section

variable (h : Ring next prev ((cell :: rest : List α) : Cycle α)) (hrest : rest ≠ [])

include h hrest

/-- A cell with another one beside it is not its own neighbour. -/
theorem neighbours_ne : next cell ∈ rest ∧ prev cell ∈ rest := by
  obtain ⟨hchain, hlast, -⟩ := cons_iff.mp h
  obtain ⟨second, tail, rfl⟩ := exists_cons_of_ne_nil hrest
  constructor
  · rw [(isChain_cons_cons.mp hchain).1.1]
    exact mem_cons_self
  · rw [hlast.2]
    exact getLast_mem _

/-- Taking a cell out: its two neighbours are linked with each other. -/
theorem remove (hnext : next' (prev cell) = next cell) (hprev : prev' (next cell) = prev cell)
    (hnextSame : ∀ other ∈ rest, other ≠ prev cell → next' other = next other)
    (hprevSame : ∀ other ∈ rest, other ≠ next cell → prev' other = prev other) :
    Ring next' prev' (rest : Cycle α) := by
  obtain ⟨hchain, hlast, hnodup⟩ := cons_iff.mp h
  obtain ⟨second, tail, rfl⟩ := exists_cons_of_ne_nil hrest
  obtain ⟨hfirst, hinner⟩ := isChain_cons_cons.mp hchain
  obtain ⟨hnotin, hnodup⟩ := nodup_cons.mp hnodup
  refine cons_iff.mpr ⟨?_, ?_, hnodup⟩
  · -- inside the rest no cell is linked with `cell`, so no link there was written
    refine hinner.imp_of_mem_imp fun first second' hf hs hlinked => ?_
    have hneNext : first ≠ prev cell := by
      rintro rfl
      have hcell : next (prev cell) = cell := by rw [hlast.2, hlast.1]
      exact hnotin (hcell.symm.trans hlinked.1 ▸ hs)
    have hnePrev : second' ≠ next cell := by
      rintro rfl
      have hcell : prev (next cell) = cell := by rw [hfirst.1, hfirst.2]
      exact hnotin (hcell.symm.trans hlinked.2 ▸ hf)
    exact ⟨(hnextSame first hf hneNext).trans hlinked.1,
      (hprevSame second' hs hnePrev).trans hlinked.2⟩
  · rw [hlast.2, hfirst.1] at hnext
    rw [hlast.2, hfirst.1] at hprev
    exact ⟨hnext, hprev⟩

end

/-- Putting a cell in before `cell`. -/
theorem insert (h : Ring next prev ((cell :: rest : List α) : Cycle α))
    (hnew : added ∉ cell :: rest) (hnextAdded : next' added = cell)
    (hprevAdded : prev' added = prev cell) (hnext : next' (prev cell) = added)
    (hprev : prev' cell = added)
    (hnextSame : ∀ other ∈ cell :: rest, other ≠ prev cell → next' other = next other)
    (hprevSame : ∀ other ∈ rest, prev' other = prev other) :
    Ring next' prev' ((added :: cell :: rest : List α) : Cycle α) := by
  obtain ⟨hchain, hlast, hnodup⟩ := cons_iff.mp h
  refine cons_iff.mpr ⟨isChain_cons_cons.mpr ⟨⟨hnextAdded, hprev⟩, ?_⟩, ?_,
    nodup_cons.mpr ⟨hnew, hnodup⟩⟩
  · refine hchain.imp_of_mem_tail_imp fun first second hf hs hlinked => ?_
    -- the last cell is followed by `cell`, which is not in the tail
    have hneNext : first ≠ prev cell := by
      rintro rfl
      have hcell : next (prev cell) = cell := by rw [hlast.2, hlast.1]
      exact (nodup_cons.mp hnodup).1 (hcell.symm.trans hlinked.1 ▸ hs)
    exact ⟨(hnextSame first hf hneNext).trans hlinked.1, (hprevSame second hs).trans hlinked.2⟩
  · rw [getLast_cons (cons_ne_nil _ _), ← hlast.2]
    exact ⟨hnext, hprevAdded⟩

/-- A ring is kept by any links that agree with the old ones on it. -/
theorem congr (h : Ring next prev ring) (hnextSame : ∀ cell ∈ ring, next' cell = next cell)
    (hprevSame : ∀ cell ∈ ring, prev' cell = prev cell) : Ring next' prev' ring := by
  refine ⟨?_, h.nodup⟩
  rcases h with ⟨hchain, -⟩
  induction ring using Quotient.inductionOn with
  | h nodes =>
    cases nodes with
    | nil => exact Cycle.Chain.nil _
    | cons cell rest =>
      refine hchain.imp_of_mem_imp fun first second hf hs hlinked => ?_
      have hmem : ∀ other ∈ cell :: (rest ++ [cell]), other ∈ cell :: rest := by
        simp [or_comm]
      exact ⟨(hnextSame first (mem_coe_iff.mpr (hmem first hf))).trans hlinked.1,
        (hprevSame second (mem_coe_iff.mpr (hmem second hs))).trans hlinked.2⟩

end Ring

/-- Following `next` from the head visits the cells and ends at `nil`; every back link
points at the cell before, that of the first cell at `pred`. -/
def Chained (next prev : α → α) (nil : α) : α → α → List α → Prop
  | _, head, [] => head = nil
  | pred, head, node :: rest =>
    head = node ∧ node ≠ nil ∧ prev node = pred ∧ Chained next prev nil node (next node) rest

namespace Chained

variable {nil pred head : α} {nodes : List α}

section

variable (h : Chained next prev nil pred head nodes)

include h

theorem threaded : Threaded next nil head nodes := by
  induction nodes generalizing pred head with
  | nil => exact h
  | cons node rest ih => exact ⟨h.1, h.2.1, ih h.2.2.2⟩

theorem ne_nil {node : α} (hnode : node ∈ nodes) : node ≠ nil := by
  induction nodes generalizing pred head with
  | nil => exact absurd hnode not_mem_nil
  | cons first rest ih =>
    rcases mem_cons.mp hnode with rfl | hnode
    · exact h.2.1
    · exact ih h.2.2.2 hnode

/-- A list is kept by any links that agree with the old ones on it. -/
theorem congr (hnextSame : ∀ node ∈ nodes, next' node = next node)
    (hprevSame : ∀ node ∈ nodes, prev' node = prev node) :
    Chained next' prev' nil pred head nodes := by
  induction nodes generalizing pred head with
  | nil => exact h
  | cons node rest ih =>
    obtain ⟨hhead, hne, hpred, hrest⟩ := h
    refine ⟨hhead, hne, (hprevSame node mem_cons_self).trans hpred, ?_⟩
    rw [hnextSame node mem_cons_self]
    exact ih hrest (fun other hother => hnextSame other (mem_cons_of_mem _ hother))
      fun other hother => hprevSame other (mem_cons_of_mem _ hother)

end

/-- Putting a cell in front: the old first cell points back at it. -/
theorem push {pred' : α} (h : Chained next prev nil pred head nodes) (hadded : added ∉ nodes)
    (hne : added ≠ nil) (hnextAdded : next' added = head) (hprevAdded : prev' added = pred')
    (hprev : head ≠ nil → prev' head = added) (hnextSame : ∀ node ∈ nodes, next' node = next node)
    (hprevSame : ∀ node ∈ nodes, node ≠ head → prev' node = prev node) :
    Chained next' prev' nil pred' added (added :: nodes) := by
  refine ⟨rfl, hne, hprevAdded, ?_⟩
  rw [hnextAdded]
  cases nodes with
  | nil => exact h
  | cons node rest =>
    have hnodup := h.threaded.nodup
    obtain ⟨rfl, hnodeNe, -, hrest⟩ := h
    refine ⟨rfl, hnodeNe, hprev hnodeNe, ?_⟩
    rw [hnextSame head mem_cons_self]
    refine hrest.congr (fun other hother => hnextSame other (mem_cons_of_mem _ hother)) ?_
    intro other hother
    refine hprevSame other (mem_cons_of_mem _ hother) ?_
    rintro rfl
    exact (nodup_cons.mp hnodup).1 hother

section

variable (h : Chained next prev nil pred head nodes)

include h

/-- The first cell of a list is its head. -/
theorem head_mem (hne : head ≠ nil) : head ∈ nodes := by
  cases nodes with
  | nil => exact absurd h hne
  | cons node rest => exact h.1 ▸ mem_cons_self

/-- The cells after a cell are one of the list, or `nil`. -/
theorem next_mem (hcell : cell ∈ nodes) : next cell = nil ∨ next cell ∈ nodes := by
  induction nodes generalizing pred head with
  | nil => exact absurd hcell not_mem_nil
  | cons node rest ih =>
    obtain ⟨-, -, -, hrest⟩ := h
    rcases mem_cons.mp hcell with rfl | hcell
    · by_cases hnil : next cell = nil
      · exact .inl hnil
      · exact .inr (mem_cons_of_mem _ (hrest.head_mem hnil))
    · exact (ih hrest hcell).imp_right (mem_cons_of_mem _)

/-- The cell before a cell is one of the list, or the predecessor of the list. -/
theorem prev_mem (hcell : cell ∈ nodes) : (prev cell = pred ∧ head = cell) ∨ prev cell ∈ nodes := by
  induction nodes generalizing pred head with
  | nil => exact absurd hcell not_mem_nil
  | cons node rest ih =>
    obtain ⟨rfl, -, hpred, hrest⟩ := h
    rcases mem_cons.mp hcell with rfl | hcell
    · exact .inl ⟨hpred, rfl⟩
    · rcases ih hrest hcell with ⟨hprev, -⟩ | hmem
      · exact .inr (hprev ▸ mem_cons_self)
      · exact .inr (mem_cons_of_mem _ hmem)

/-- No cell follows itself. -/
theorem next_ne (hcell : cell ∈ nodes) : next cell ≠ cell := by
  obtain ⟨before, after, rfl⟩ := append_of_mem hcell
  have hhere : Threaded next nil cell (cell :: after) := h.threaded.of_append before
  intro heq
  have hagain : Threaded next nil cell after := heq ▸ hhere.2.2
  have := congrArg List.length (hhere.unique hagain)
  simp at this

/-- No cell precedes itself. -/
theorem prev_ne (hpredOut : pred ∉ nodes) (hcell : cell ∈ nodes) : prev cell ≠ cell := by
  induction nodes generalizing pred head with
  | nil => exact absurd hcell not_mem_nil
  | cons node rest ih =>
    have hnode := (nodup_cons.mp h.threaded.nodup).1
    obtain ⟨-, -, hpred, hrest⟩ := h
    rcases mem_cons.mp hcell with rfl | hcell
    · intro heq
      rw [← hpred, heq] at hpredOut
      exact hpredOut mem_cons_self
    · exact ih hrest hnode hcell

end

/-- Taking a cell out: its two neighbours are linked with each other, and the head moves on
if it was that cell. -/
theorem remove [DecidableEq α] (h : Chained next prev nil pred head nodes) (hcell : cell ∈ nodes)
    (hpredOut : pred ∉ nodes) (hnext : prev cell ∈ nodes → next' (prev cell) = next cell)
    (hprev : next cell ≠ nil → prev' (next cell) = prev cell)
    (hnextSame : ∀ node ∈ nodes, node ≠ cell → node ≠ prev cell → next' node = next node)
    (hprevSame : ∀ node ∈ nodes, node ≠ cell → node ≠ next cell → prev' node = prev node) :
    Chained next' prev' nil pred (if head = cell then next cell else head) (nodes.erase cell) := by
  induction nodes generalizing pred head with
  | nil => exact absurd hcell not_mem_nil
  | cons node rest ih =>
    obtain ⟨hnode, hnodup⟩ := nodup_cons.mp h.threaded.nodup
    obtain ⟨rfl, hne, hpred, hrest⟩ := h
    by_cases hhere : head = cell
    · subst hhere
      rw [if_pos rfl, erase_cons_head]
      cases rest with
      | nil => exact hrest
      | cons second rest =>
        obtain ⟨hsecond, hsecondNe, hsecondPrev, hrest⟩ := hrest
        have hin : second ∈ head :: second :: rest := mem_cons_of_mem _ mem_cons_self
        have hsecondOther : second ≠ head := fun heq => hnode (heq ▸ mem_cons_self)
        have hsecondOut : second ≠ prev head := by
          rintro heq
          exact hpredOut (hpred ▸ heq ▸ hin)
        refine ⟨hsecond, hsecondNe, ?_, ?_⟩
        · rw [← hsecond, hprev (hsecond ▸ hsecondNe), hpred]
        · rw [hnextSame second hin hsecondOther hsecondOut]
          have hsub : ∀ other ∈ rest, other ∈ head :: second :: rest ∧ other ≠ head ∧
              other ≠ second := by
            intro other hother
            refine ⟨mem_cons_of_mem _ (mem_cons_of_mem _ hother), ?_, ?_⟩
            · exact fun heq => hnode (heq ▸ mem_cons_of_mem _ hother)
            · exact fun heq => (nodup_cons.mp hnodup).1 (heq ▸ hother)
          refine hrest.congr (fun other hother => ?_) fun other hother => ?_
          · obtain ⟨hmem, hneHead, -⟩ := hsub other hother
            refine hnextSame other hmem hneHead ?_
            rintro rfl
            exact hpredOut (hpred ▸ hmem)
          · obtain ⟨hmem, hneHead, hneSecond⟩ := hsub other hother
            exact hprevSame other hmem hneHead (hsecond ▸ hneSecond)
    · have hcell : cell ∈ rest := (mem_cons.mp hcell).resolve_left (Ne.symm hhere)
      rw [if_neg hhere, erase_cons_tail (by simpa using hhere)]
      refine ⟨rfl, hne, ?_, ?_⟩
      · rw [hprevSame head mem_cons_self hhere, hpred]
        -- the first cell of a list follows no cell of it
        rintro heq
        rcases hrest.next_mem hcell with hnil | hmem
        · exact hne (heq.trans hnil)
        · exact hnode (heq ▸ hmem)
      · have hinner := ih hrest hcell hnode
          (fun hmem => hnext (mem_cons_of_mem _ hmem))
          (fun other hother => hnextSame other (mem_cons_of_mem _ hother))
          fun other hother => hprevSame other (mem_cons_of_mem _ hother)
        have hlink : next' head = if next head = cell then next cell else next head := by
          split_ifs with hfollows
          · have hback : prev cell = head := by
              cases rest with
              | nil => exact absurd hcell not_mem_nil
              | cons second rest =>
                obtain ⟨hsecond, -, hprevSecond, -⟩ := hrest
                rw [← hfollows, hsecond, hprevSecond]
            rw [← hback]
            exact hnext (hback ▸ mem_cons_self)
          · refine hnextSame head mem_cons_self hhere ?_
            rintro heq
            rcases hrest.prev_mem hcell with ⟨-, hfirst⟩ | hmem
            · exact hfollows hfirst
            · exact hnode (heq ▸ hmem)
        rw [hlink]
        exact hinner

end Chained

end Shitix
