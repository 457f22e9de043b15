import Shitix.Sharing.Ops

/-!
# User accesses and their page faults

A program reads, writes or executes an address.  The processor looks at the entry that governs
the page; if it does not permit the access, `do_trap` in `traps.rs` may change the tables and
let the program try again, or send it a signal.  `Allowed` says that an access succeeds in the
end.

The handler of a write fault makes every user page writable and the handler of a fetch fault
makes every page executable, so a user page allows all accesses, save for a write to a shared page
when there is no memory for a copy (`allowed_user`).  A reserved page gets its frame on the
first access (`allowed_reserved`).
-/

namespace Shitix.Paging

open Mem

/-- How a program uses an address. -/
inductive Access where
  | read
  | write
  | exec
deriving DecidableEq, Repr

/-- The processor permits the access. -/
def permits (e : Pte) : Access → Bool
  | .read => e.present && e.user
  | .write => e.present && e.user && e.rw
  | .exec => e.present && e.user && !e.noExec

/-- `do_trap` on a page fault in user mode; `none` if the program gets a signal. -/
def pageFault (s : Mem) (pml4 : Frame) (va : ℕ) (access : Access) : Option Mem :=
  if pml4 = 0 then none
  else if (pageEntry s pml4 va).present then
    match access with
    | .read => none
    | .write =>
      match tryHandleCowFault s va pml4 with
      | (some true, s) => some s
      | _ => none
    | .exec =>
      match getPageFlags s pml4 va with
      | none => none
      | some flags =>
        match setPageFlags s pml4 va { flags with noExec := false } with
        | (true, s) => some s
        | (false, _) => none
  else if isReserved s pml4 va then
    match resolveReserved s pml4 va with
    | (true, s) => some s
    | (false, _) => none
  else none

/-- An access, tried again after each fault that was handled; `none` after too many faults. -/
def userAccess : ℕ → Mem → Frame → ℕ → Access → Option Bool
  | 0, _, _, _, _ => none
  | tries + 1, s, pml4, va, access =>
    if permits (pageEntry s pml4 va) access then some true
    else
      match pageFault s pml4 va access with
      | none => some false
      | some s => userAccess tries s pml4 va access

/-- The access succeeds; no page takes more than two faults. -/
def Allowed (s : Mem) (pml4 : Frame) (va : ℕ) (access : Access) : Prop :=
  userAccess 3 s pml4 va access = some true

variable {s s' : Mem} {label label' : Frame → Option Label} {root t next : Frame} {va tries : ℕ}
  {access : Access}

/-- The entry of a page after a fetch fault. -/
def executable (e : Pte) : Pte := ⟨{ e.toFlags with noExec := false, present := true }, e.frame⟩

/-- A fetch fault makes a page executable that has an entry of its own. -/
theorem pageFault_exec (h : Tables s label) (hr : Space label root)
    (hpresent : (pageEntry s root va).present = true) :
    getPageFlags s root va = none ∨
      ∃ s', pageFault s root va .exec = some s' ∧
        Put s label s' label root va (executable (pageEntry s root va)) := by
  simp only [pageFault, if_neg (h.root_ne_zero hr), if_pos hpresent]
  have hkeep : ({ (pageEntry s root va).toFlags with noExec := false } : Flags).reserved = false :=
    not_reserved_of_present h hr hpresent
  rcases setPageFlags_spec h hr va hkeep with
    ⟨-, hnone⟩ | ⟨s', hdone, hflags, -, -, -, hput⟩
  · exact .inl hnone
  · rw [hflags]
    simp only [hdone]
    exact .inr ⟨s', rfl, hput⟩

/-! ## User pages -/

/-- A write to the page cannot be served: it is shared, and there is no memory for a copy. -/
def Starved (s : Mem) (pml4 : Frame) (va : ℕ) : Prop :=
  1 < s.pageRefCount (pageEntry s pml4 va).frame ∧ s.frames.free = []

section

variable (h : Tables s label) (hr : Space label root)

include h hr

/-- A page is copied: its tables are there, so nothing but the copy needs memory. -/
theorem mapPage_copy (hpresent : (pageEntry s root va).present = true)
    (huser : (pageEntry s root va).user = true) {page : Frame} {s₁ : Mem}
    (hget : s.getFreePage = some (page, s₁)) (contents : ℕ → BitVec 64) (prot : Flags)
    (hprot : prot.reserved = false) :
    ∃ s', mapPage (unmapPage (s₁.fill page contents) root va).2 root va page prot = (true, s') ∧
      pageEntry s' root va = ⟨{ prot with present := true }, page⟩ := by
  obtain ⟨htables₁, hsame₁, hlabel, -⟩ := getFreePage_data h hget
  have hfill : SameTables s₁ label (s₁.fill page contents) := fun t l hl =>
    Function.update_of_ne (fun heq => by rw [heq, hlabel] at hl; cases hl) _ _
  have htables₂ : Tables (s₁.fill page contents) label :=
    hfill.tables htables₁ rfl (fun _ _ _ => rfl) htables₁.consistent
  have hentry := (hfill.pageEntry htables₁ hr va).trans (hsame₁.pageEntry h hr va)
  obtain ⟨pt, hwalk, -⟩ := walk_of_user h hr huser
  have hwalk₂ := hfill.walk htables₁ hr (hsame₁.walk h hr hwalk)
  obtain ⟨s₃, hs₃, -, hways₃, hput₃⟩ :=
    unmapPage_spec htables₂ hr (hentry.symm ▸ hpresent) (hentry.symm ▸ huser)
  obtain ⟨s₄, label', ⟨-, hgrown, -, hmissing⟩ | ⟨hdone, hput₄⟩⟩ :=
    mapPage_spec hput₃.tables hr va page hprot
  · exact absurd (hgrown.walk hput₃.tables hr ((hways₃ root va pt hr).mpr hwalk₂)) (hmissing pt)
  · exact ⟨s₄, by rw [hs₃]; exact hdone, hput₄.self⟩

section

variable (hva : va < 2 ^ 47) (hpresent : (pageEntry s root va).present = true)
  (huser : (pageEntry s root va).user = true)

include hva hpresent huser

/-- `try_handle_cow_fault` on a user page. -/
theorem tryHandleCowFault_user :
    Starved s root va ∧ tryHandleCowFault s va root = (none, s) ∨
      ¬ Starved s root va ∧ ∃ s', tryHandleCowFault s va root = (some true, s') ∧
        permits (pageEntry s' root va) .write = true := by
  have hmapped : (!isUserMapped s root va) = false := by
    rw [isUserMapped_eq h hr, hpresent, huser]
    rfl
  have hhigh : ¬ 0x0000800000000000 ≤ va := by omega
  have hflags := getPageFlags_of_user h hr hpresent huser
  have hres := not_reserved_of_present h hr hpresent
  simp only [tryHandleCowFault, if_neg hhigh, hmapped, translate_eq h hr, if_pos hpresent,
    Sane.frame_of_phys, hflags, Bool.false_eq_true, if_false, Starved]
  by_cases hshared : 1 < s.pageRefCount (pageEntry s root va).frame
  · rw [if_pos hshared]
    cases hget : s.getFreePage with
    | none => exact .inl ⟨⟨hshared, getFreePage_eq_none.mp hget⟩, rfl⟩
    | some taken =>
      obtain ⟨page, s₁⟩ := taken
      obtain ⟨s', hdone, hself⟩ := mapPage_copy h hr hpresent huser hget
        (s₁.word (pageEntry s root va).frame) (Sane.writableFlags (pageEntry s root va)) hres
      have hfree : s.frames.free ≠ [] := fun hfree => by
        rw [getFreePage_eq_none.mpr hfree] at hget
        cases hget
      dsimp only [Sane.writableFlags] at hdone
      refine .inr ⟨fun hstarved => hfree hstarved.2,
        (s'.pageRefDec (pageEntry s root va).frame).2, ?_, ?_⟩
      · simp [hdone]
      · rw [show pageEntry (s'.pageRefDec (pageEntry s root va).frame).2 root va =
          pageEntry s' root va from rfl, hself]
        simp [permits, Sane.writableFlags, huser]
  · rw [if_neg hshared]
    refine .inr ⟨fun hstarved => hshared hstarved.1, ?_⟩
    have hkeep : (Sane.writableFlags (pageEntry s root va)).reserved = false := hres
    rcases setPageFlags_spec h hr va hkeep with
      ⟨-, hnone⟩ | ⟨s', hdone, -, -, -, -, hput⟩
    · rw [hflags] at hnone
      cases hnone
    · dsimp only [Sane.writableFlags] at hdone
      refine ⟨s', by simp only [hdone], ?_⟩
      rw [hput.self]
      simp [permits, Sane.writableFlags, huser]

/-- An access to a user page: reads and fetches succeed, and so do writes unless they cannot
be served. -/
theorem userAccess_user :
    userAccess (tries + 2) s root va access = some true ↔
      (access = .write → (pageEntry s root va).rw = true ∨ ¬ Starved s root va) := by
  have hfault : permits (pageEntry s root va) access = false →
      userAccess (tries + 2) s root va access =
        match pageFault s root va access with
        | none => some false
        | some s => userAccess (tries + 1) s root va access := by
    intro hdenied
    rw [userAccess, hdenied]
    rfl
  cases access with
  | read => simp [userAccess, permits, hpresent, huser]
  | write =>
    by_cases hrw : (pageEntry s root va).rw = true
    · simp [userAccess, permits, hpresent, huser, hrw]
    rw [hfault (by simp [permits, hrw])]
    simp only [pageFault, if_neg (h.root_ne_zero hr), if_pos hpresent]
    rcases tryHandleCowFault_user h hr hva hpresent huser with
      ⟨hstarved, hcow⟩ | ⟨hfed, s', hcow, hpermits⟩
    · simp [hcow, hrw, hstarved]
    · simp [hcow, hfed, userAccess, hpermits]
  | exec =>
    by_cases hexec : (pageEntry s root va).noExec = true
    · rcases pageFault_exec h hr hpresent with hnone | ⟨s', hsome, hput⟩
      · rw [getPageFlags_of_user h hr hpresent huser] at hnone
        cases hnone
      · have hpermits : permits (pageEntry s' root va) .exec = true := by
          rw [hput.self]
          simp [permits, executable, huser]
        simp [hsome, userAccess, hpermits]
    · simp [userAccess, permits, hpresent, huser, hexec]

theorem allowed_user :
    Allowed s root va access ↔
      (access = .write → (pageEntry s root va).rw = true ∨ ¬ Starved s root va) :=
  userAccess_user h hr hva hpresent huser

end

end

/-! ## Reserved pages -/

/-- `next_level` needs no memory where the table is there. -/
theorem nextLevel_link {scope : Label → Prop} {n i : ℕ} (h : Tables s label) {l : Label}
    (hl : label t = some l) (hscope : scope l) (hscope' : scope (l.step i)) (hn : l.height = n + 1)
    (hi : i < 512) (hslot : (slots s).slot (n + 1) t i = .inl next) (user : Bool) :
    ∃ s' label', nextLevel s t i user = (some next, s') ∧ s'.frames = s.frames ∧
      Grown scope s label s' label' := by
  obtain ⟨hpresent, htop⟩ : (s.entry t i).present = true ∧
      ((s.entry t i).huge = true → n + 1 = 3) := by
    simp only [slots] at hslot
    split_ifs at hslot with hpresent hhuge
    exact ⟨by simpa using hpresent, fun htrue => by simpa [htrue] using hhuge⟩
  have hflat : (s.entry t i).huge = false := by
    by_contra hhuge
    have hthree := htop (by simpa using hhuge)
    exact hhuge (h.flat t l i hl (by omega) hi hpresent)
  have hframes : (nextLevel s t i user).2.frames = s.frames := by
    simp only [nextLevel, hflat, Bool.false_eq_true, if_false]
    split_ifs <;> rfl
  rcases nextLevel_spec h hl hscope hscope' hn hi user with
    ⟨-, -, hmissing⟩ | ⟨next', s', hsome, label', hgrown, -, hslot'⟩
  · exact absurd hslot (hmissing next)
  rw [hgrown.links t l n i next hl hn hi hslot] at hslot'
  cases hslot'
  rw [hsome] at hframes
  exact ⟨s', label', hsome, hframes, hgrown⟩

section

variable (h : Tables s label) (hr : Space label root)

include h hr

/-- Going down needs no memory where the tables are there. -/
theorem leafTable_frames {pt : Frame}
    (hwalk : walk s root va = .table pt) (user : Bool) :
    (leafTable s root va user).2.frames = s.frames := by
  obtain ⟨pdpt, pd, hl₁, hfirst, hl₂, hsecond, hthird⟩ := slots_of_walk h hr hwalk
  have hw₁ := within_pdpt root va
  have hw₂ := within_pd root va
  have hheight₁ := Label.height_step (.own root 3 0) 2 (pml4Index va) rfl
  have hheight₂ := Label.height_step _ 1 (pdptIndex va) hheight₁
  obtain ⟨s₁, label₁, hsome₁, hframes₁, hgrown₁⟩ :=
    nextLevel_link h hr (within_pml4 root va) hw₁ rfl (pml4Index_lt va) hfirst user
  obtain ⟨s₂, label₂, hsome₂, hframes₂, hgrown₂⟩ :=
    nextLevel_link hgrown₁.tables (hgrown₁.keeps _ _ hl₁) hw₁ hw₂ hheight₁ (pdptIndex_lt va)
      (hgrown₁.links pdpt _ 1 _ pd hl₁ hheight₁ (pdptIndex_lt va) hsecond) user
  have hgrown₁₂ := hgrown₁.trans hgrown₂
  obtain ⟨s₃, label₃, hsome₃, hframes₃, -⟩ :=
    nextLevel_link hgrown₂.tables (hgrown₁₂.keeps _ _ hl₂) hw₂ (within_pt root va) hheight₂
      (pdIndex_lt va) (hgrown₁₂.links pd _ 0 _ pt hl₂ hheight₂ (pdIndex_lt va) hthird) user
  simp only [leafTable, hsome₁, hsome₂, hsome₃]
  rw [hframes₃, hframes₂, hframes₁]

/-- `resolve_reserved` on a reserved page fails only for want of memory; otherwise the page
gets a frame of its own. -/
theorem resolveReserved_reserved (huser : (pageEntry s root va).user = true)
    (hreserved : (pageEntry s root va).reserved = true) :
    s.frames.free = [] ∧ (resolveReserved s root va).1 = false ∨
      s.frames.free ≠ [] ∧ ∃ s' label' page, resolveReserved s root va = (true, s') ∧
        Tables s' label' ∧ Space label' root ∧
        pageEntry s' root va = resolvedEntry (pageEntry s root va) page ∧
        s'.pageRefCount page ≤ 1 := by
  obtain ⟨pt, hwalk, -⟩ := walk_of_user h hr huser
  have hframes := leafTable_frames h hr hwalk true
  obtain ⟨s₁, label', hgrown, ⟨-, -, hmissing⟩ | ⟨pt', hsome, hwalk'⟩⟩ :=
    leafTable_spec h hr va true
  · exact absurd (hgrown.walk h hr hwalk) (hmissing pt)
  have hentry : s₁.entry pt' (ptIndex va) = pageEntry s root va := by
    rw [← hgrown.pageEntry hr va, (walk_spec ..).1, hwalk']
  rw [hsome] at hframes
  have hnone : s₁.getFreePage = none ↔ s.frames.free = [] := by
    rw [getFreePage_eq_none, hframes]
  cases hget : s₁.getFreePage with
  | none =>
    refine .inl ⟨hnone.mp hget, ?_⟩
    simp only [resolveReserved, hsome, hentry, hreserved, hget]
    rfl
  | some taken =>
    obtain ⟨page, s₂⟩ := taken
    obtain ⟨htables, hsame, -⟩ := getFreePage_data hgrown.tables hget
    have hspace := hgrown.space hr
    have hwalk₂ := hsame.walk hgrown.tables hspace hwalk'
    have hput := put_setEntry (e := resolvedEntry (pageEntry s root va) page) htables hspace
      hwalk₂ fun _ => rfl
    refine .inr ⟨fun hfree => ?_, _, label', page, ?_, hput.tables, hspace, hput.self, ?_⟩
    · rw [hnone.mpr hfree] at hget
      cases hget
    · simp only [resolveReserved, hsome, hentry, hreserved, hget]
      rfl
    · have hone := (Ledger.taken_counts (getFreePage_eq_some hget).1).2.2.1
      simp only [pageRefCount, Frames.pageRefCount, frames_setEntry, hone]
      split_ifs <;> omega

/-- An access to a reserved page succeeds unless there is no memory. -/
theorem allowed_reserved (hva : va < 2 ^ 47)
    (huser : (pageEntry s root va).user = true)
    (hreserved : (pageEntry s root va).reserved = true) :
    Allowed s root va access ↔ s.frames.free ≠ [] := by
  have habsent := absent_of_reserved h hr hreserved
  have hdenied : permits (pageEntry s root va) access = false := by
    cases access <;> simp [permits, habsent]
  have hfault : isReserved s root va = true := by rw [isReserved_eq h hr habsent, hreserved]
  rw [Allowed, userAccess, hdenied]
  simp only [pageFault, if_neg (h.root_ne_zero hr), habsent, hfault, Bool.false_eq_true, if_false,
    if_true]
  rcases resolveReserved_reserved h hr huser hreserved with
    ⟨hempty, hfail⟩ | ⟨hsome, s', label', page, hdone, htables, hspace, hentry, hone⟩
  · rcases hresolve : resolveReserved s root va with ⟨done, s'⟩
    rw [hresolve] at hfail
    dsimp only at hfail
    simp [hfail, hempty]
  · have hpresent : (pageEntry s' root va).present = true := by rw [hentry]; rfl
    have huser' : (pageEntry s' root va).user = true := by rw [hentry]; exact huser
    have hfed : ¬ Starved s' root va := fun hstarved => by
      have hmany := hstarved.1
      rw [hentry] at hmany
      exact absurd hmany (not_lt.mpr hone)
    simp only [hdone]
    rw [userAccess_user htables hspace hva hpresent huser']
    exact ⟨fun _ => hsome, fun _ _ => .inr hfed⟩

end

end Shitix.Paging
