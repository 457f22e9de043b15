import Shitix.Fs.DescriptorTables
import Shitix.Lib.Run

/-!
# Descriptors over `fork` and `exit`

A kernel of descriptor tables and slots of the task table.  After `fork` the child should have
what its parent has (`ForkLaw`), whatever its slot was used for before; `exit` should free the
descriptors of the task and of no other (`ExitLaw`).

Files and pipes are copied and closed.  The table of events is not looked at in either call, so a
child does not get the events of its parent but those the last task in its slot left behind.  The
table of sockets is one for all tasks, and `exit` clears it.  The laws hold exactly where there
is nothing of the kind (`lawful_run_iff`).
-/

namespace Shitix.Fd

open Option Fds

/-- What a slot of the task table is used for. -/
inductive Slot where
  | unused | live | zombie
deriving DecidableEq, Repr

/-- Descriptors and slots. -/
structure Kernel where
  fds : Fds
  slot : Task → Slot

/-- The idle task and the first process, without descriptors. -/
def Kernel.boot : Kernel := ⟨.boot, fun t => if t.val < 2 then .live else .unused⟩

namespace Kernel

variable (k : Kernel)

/-- The slot becomes `slot`. -/
def setSlot (t : Task) (slot : Slot) : Kernel := { k with slot := Function.update k.slot t slot }

/-- The first free slot; 0 is the idle task. -/
def freeSlot : Option Task := (List.finRange 64).find? fun c => c.val ≠ 0 ∧ k.slot c = .unused

/-- `fork`, or `none` if an overflow check stops the kernel.  `stack` and `space` say whether
there is a kernel stack and whether the address space could be copied; if not, the slot of the
child stays taken.  `clone` treats descriptors in the same way. -/
def fork (parent : Task) (stack space : Bool) : Option (Except ℤ Task × Kernel) :=
  match k.freeSlot with
  | none => some (.error eagain, k)
  | some child =>
    if ¬ stack then some (.error eagain, k)
    else if ¬ space then some (.error eagain, k.setSlot child .live)
    else
      (k.fds.inherit parent child).map fun fds =>
        (.ok child, { k with fds := fds }.setSlot child .live)

/-- `do_exit`, as far as descriptors go; the idle task must not. -/
def exit (t : Task) : Option Kernel :=
  if t.val = 0 then none else some ({ k with fds := k.fds.closeAll t }.setSlot t .zombie)

/-- `release`, from `wait4` -/
def release (t : Task) : Kernel := if k.slot t = .zombie then k.setSlot t .unused else k

end Kernel

@[simp] theorem Kernel.setSlot_fds (k : Kernel) (t : Task) (slot : Slot) :
    (k.setSlot t slot).fds = k.fds := rfl

/-- What happens to descriptors and slots. -/
inductive Event where
  | call (t : Task) (c : Call)
  | fork (parent : Task) (stack space : Bool)
  | exit (t : Task)
  | release (t : Task)

/-- The kernel stops. -/
inductive Halt where
  | overflow
  | idleExit
deriving DecidableEq, Repr

/-- A step of the kernel. -/
def Kernel.step (k : Kernel) : Event → Except Halt Kernel
  | .call t c => .ok { k with fds := (k.fds.call t c).2 }
  | .fork parent stack space =>
    match k.fork parent stack space with
    | none => .error .overflow
    | some (_, next) => .ok next
  | .exit t =>
    match k.exit t with
    | none => .error .idleExit
    | some next => .ok next
  | .release t => .ok (k.release t)

/-! ## The laws -/

/-- Right after a `fork` the child has what the parent has. -/
def ForkLaw (k : Kernel) (parent : Task) (stack space : Bool) : Prop :=
  ∀ child k', k.fork parent stack space = some (.ok child, k') →
    ∀ fd kind, k'.fds.find child fd kind = k.fds.find parent fd kind

/-- `exit` frees what the task has, and no live task loses anything. -/
def ExitLaw (k : Kernel) (t : Task) : Prop :=
  ∀ k', k.exit t = some k' → (∀ fd kind, k'.fds.find t fd kind = none) ∧
    ∀ t', t' ≠ t → k.slot t' = .live →
      ∀ fd kind, k'.fds.find t' fd kind = k.fds.find t' fd kind

/-- The law of a step. -/
def Lawful (k : Kernel) : Event → Prop
  | .fork parent stack space => ForkLaw k parent stack space
  | .exit t => ExitLaw k t
  | _ => True

/-- The step fits: the slot of the child holds the events of the parent already, which is to say
there are none on either side if no slot is ever used twice; a task that exits has no events, and
no other live task has a socket.  All tasks see the same sockets and task 0 is always live, so the
last part says that there is no socket at all. -/
def EventFits (k : Kernel) : Event → Prop
  | .fork parent stack space => stack = true → space = true → ∀ child, k.freeSlot = some child →
    (k.fds.inherit parent child).isSome →
      ∀ fd, k.fds.find child fd .event = k.fds.find parent fd .event
  | .exit t => t.val ≠ 0 → (∀ fd, k.fds.find t fd .event = none) ∧
    ∀ t', t' ≠ t → k.slot t' = .live → ∀ fd, k.fds.find t' fd .socket = none
  | _ => True

/-! ## What `fork` copies -/

variable {s s' s'' : Fds} {k k' : Kernel} {t t' parent child : Task} {fd : ℕ} {kind : Kind}

theorem SameTables.trans (h : SameTables s s') (h' : SameTables s' s'') : SameTables s s'' :=
  fun t fd kind => (h' t fd kind).trans (h t fd kind)

theorem sameTables_countEnd {i : ℕ} {dir : Dir} (h : s.countEnd i dir = some s') :
    SameTables s s' := by
  unfold countEnd at h
  split at h
  · cases h
    exact fun _ _ _ => rfl
  · split_ifs at h
    cases h
    exact fun _ _ _ => find_putPipe ..
  · split_ifs at h
    cases h
    exact fun _ _ _ => find_putPipe ..

/-- Counting does not touch the tables. -/
theorem sameTables_foldlM {f : Fds → ℕ → Option Fds}
    (hf : ∀ s fd s', f s fd = some s' → SameTables s s') (fds : List ℕ)
    (h : fds.foldlM f s = some s') : SameTables s s' := by
  induction fds generalizing s with
  | nil =>
    cases h
    exact fun _ _ _ => rfl
  | cons fd rest ih =>
    obtain ⟨next, hnext, hrest⟩ := bind_eq_some_iff.mp h
    exact (hf s fd next hnext).trans (ih hrest)

theorem sameTables_countFiles (s : Fds) (child : Task) : SameTables s (s.countFiles child) := by
  unfold countFiles
  generalize List.range nrOpen = fds
  induction fds generalizing s with
  | nil => exact fun _ _ _ => rfl
  | cons fd rest ih =>
    rw [List.foldl_cons]
    refine SameTables.trans ?_ (ih _)
    cases s.fdToFilp child fd with
    | none => exact fun _ _ _ => rfl
    | some f => exact fun _ _ _ => find_setCount ..

/-- The child gets the files and the pipes. -/
theorem find_inherit (h : s.inherit parent child = some s') (t' : Task) (fd : ℕ) (kind : Kind) :
    s'.find t' fd kind =
      if t' = child ∧ (kind = .file ∨ kind = .pipe) then s.find parent fd kind
      else s.find t' fd kind := by
  obtain ⟨s₁, hclone, rfl⟩ := map_eq_some_iff.mp h
  rw [sameTables_countFiles]
  have hcounted := sameTables_foldlM (fun s fd s' hstep => ?_) _ hclone
  · rw [hcounted]
    by_cases ht : t' = child
    · subst ht
      cases kind <;>
        simp [find, cloneFds, fdToFilp, fdToPipe, fdToSock, fdToObj]
    · cases kind <;>
        simp [find, cloneFds, fdToFilp, fdToPipe, fdToSock, fdToObj, ht]
  · split at hstep
    · cases hstep
      exact fun _ _ _ => rfl
    · exact sameTables_countEnd hstep

theorem forkLaw_iff (k : Kernel) (parent : Task) (stack space : Bool) :
    ForkLaw k parent stack space ↔ EventFits k (.fork parent stack space) := by
  unfold ForkLaw Kernel.fork EventFits
  cases hslot : k.freeSlot with
  | none => exact iff_of_true (fun _ _ hfork => by cases hfork) fun _ _ _ hchild => by cases hchild
  | some child =>
    cases stack with
    | false => exact iff_of_true (fun _ _ hfork => by cases hfork) nofun
    | true =>
      cases space with
      | false => exact iff_of_true (fun _ _ hfork => by cases hfork) fun _ hspace => by cases hspace
      | true =>
        simp only [not_true_eq_false]
        cases hinherit : k.fds.inherit parent child with
        | none =>
          refine iff_of_true (fun _ _ hfork => by cases hfork) fun _ _ child' hchild hsome => ?_
          cases hchild
          rw [hinherit] at hsome
          cases hsome
        | some fds =>
          constructor
          · intro hlaw _ _ child' hchild _ fd
            cases hchild
            have hevent := hlaw child _ rfl fd .event
            rwa [Kernel.setSlot_fds, find_inherit hinherit, if_neg (by simp)] at hevent
          · intro hfits child' k' hfork fd kind
            cases hfork
            have hevent := hfits trivial trivial child rfl (by rw [hinherit]; rfl) fd
            rw [Kernel.setSlot_fds, find_inherit hinherit]
            cases kind with
            | file => exact if_pos ⟨rfl, .inl rfl⟩
            | pipe => exact if_pos ⟨rfl, .inr rfl⟩
            | socket => exact if_neg (by simp)
            | event =>
              rw [if_neg (by simp)]
              exact hevent

/-! ## What `exit` closes -/

/-- The entries of `t'` in a table go when `t` exits. -/
def Closes (t t' : Task) (kind : Kind) : Prop :=
  kind = .socket ∨ t' = t ∧ (kind = .file ∨ kind = .pipe)

instance : Decidable (Closes t t' kind) := by
  unfold Closes
  infer_instance

theorem find_closeOne (s : Fds) (t : Task) (fd : ℕ) (t' : Task) (fd' : ℕ) (kind : Kind) :
    (s.closeOne t fd).find t' fd' kind =
      if fd' = fd ∧ Closes t t' kind then none else s.find t' fd' kind := by
  unfold closeOne
  dsimp only
  generalize hs₁ : (if s.fdIsPipe t fd = true then s.closeFd t fd else s) = s₁
  have hpipe : Rebinds s s₁ t fd .pipe none := by
    rw [← hs₁]
    split_ifs with hbound
    · exact rebinds_closeFd
    · refine rebinds_none (map_eq_none_iff.mpr ?_)
      exact not_isSome_iff_eq_none.mp hbound
  generalize hs₂ : (if s₁.fdIsSocket fd = true then s₁.closeSocket fd else s₁) = s₂
  have hsock : Rebinds s₁ s₂ t fd .socket none := by
    rw [← hs₂]
    split_ifs with hbound
    · exact rebinds_closeSocket
    · refine rebinds_none (map_eq_none_iff.mpr ?_)
      exact not_isSome_iff_eq_none.mp hbound
  generalize hs₃ : (if (s₂.fdToFilp t fd).isSome = true then (s₂.sysClose t fd).2 else s₂) = s₃
  have hfile : Rebinds s₂ s₃ t fd .file none := by
    rw [← hs₃]
    split_ifs with hbound
    · exact rebinds_sysClose
    · refine rebinds_none (map_eq_none_iff.mpr ?_)
      exact not_isSome_iff_eq_none.mp hbound
  rw [hfile.cleared, hsock.cleared, hpipe.cleared]
  cases kind <;> simp [Closes]

theorem find_closeAll (s : Fds) (t t' : Task) (fd : ℕ) (kind : Kind) :
    (s.closeAll t).find t' fd kind = if Closes t t' kind then none else s.find t' fd kind := by
  have hfold : ∀ (fds : List ℕ) (s : Fds),
      (fds.foldl (fun s fd => s.closeOne t fd) s).find t' fd kind =
        if fd ∈ fds ∧ Closes t t' kind then none else s.find t' fd kind := by
    intro fds
    induction fds with
    | nil => intro s; simp
    | cons first rest ih =>
      intro s
      rw [List.foldl_cons, ih, find_closeOne]
      by_cases hcloses : Closes t t' kind
      · by_cases hfd : fd = first
        · simp [hfd, hcloses]
        · simp [hfd]
      · simp [hcloses]
  unfold closeAll
  rw [hfold]
  by_cases hfd : fd < nrOpen
  · simp [hfd]
  · -- no table reaches that far
    have hbeyond : s.find t' fd kind = none := by
      refine find_beyond fun hlt => hfd (lt_of_lt_of_le hlt ?_)
      cases kind <;> decide
    simp [hbeyond]

theorem find_exit (hexit : k.exit t = some k') (t' : Task) (fd : ℕ) (kind : Kind) :
    k'.fds.find t' fd kind = if Closes t t' kind then none else k.fds.find t' fd kind := by
  unfold Kernel.exit at hexit
  split_ifs at hexit
  rw [← some.inj hexit, Kernel.setSlot_fds]
  dsimp only
  exact find_closeAll k.fds t t' fd kind

theorem exitLaw_iff (k : Kernel) (t : Task) : ExitLaw k t ↔ EventFits k (.exit t) := by
  by_cases hidle : t.val = 0
  · have hnone : k.exit t = none := if_pos hidle
    refine iff_of_true (fun k' hexit => ?_) fun hne => absurd hidle hne
    rw [hnone] at hexit
    cases hexit
  constructor
  · intro hlaw _
    obtain ⟨k', hexit⟩ : ∃ k', k.exit t = some k' := ⟨_, if_neg hidle⟩
    obtain ⟨hown, hothers⟩ := hlaw k' hexit
    refine ⟨fun fd => ?_, fun t' hne hlive fd => ?_⟩
    · have hevent := hown fd .event
      rwa [find_exit hexit, if_neg (by simp [Closes])] at hevent
    · have hsocket := hothers t' hne hlive fd .socket
      rw [find_exit hexit] at hsocket
      exact hsocket.symm
  · intro hfits k' hexit
    obtain ⟨hown, hothers⟩ := hfits hidle
    refine ⟨fun fd kind => ?_, fun t' hne hlive fd kind => ?_⟩
    · rw [find_exit hexit]
      cases kind with
      | file => exact if_pos (.inr ⟨rfl, .inl rfl⟩)
      | pipe => exact if_pos (.inr ⟨rfl, .inr rfl⟩)
      | socket => exact if_pos (.inl rfl)
      | event =>
        rw [if_neg (by simp [Closes])]
        exact hown fd
    · rw [find_exit hexit]
      cases kind with
      | file | pipe | event => exact if_neg (by simp [Closes, hne])
      | socket =>
        exact (hothers t' hne hlive fd).symm

/-! ## Runs -/

theorem lawful_iff (k : Kernel) (event : Event) : Lawful k event ↔ EventFits k event := by
  cases event with
  | call t c | release t => exact Iff.rfl
  | fork parent stack space => exact forkLaw_iff k parent stack space
  | exit t => exact exitLaw_iff k t

/-- The steps of a run keep the laws exactly if they fit, in the states they are made in. -/
theorem lawful_run_iff (k : Kernel) (events : List Event) :
    Guarded Kernel.step Lawful events k ↔ Guarded Kernel.step EventFits events k := by
  induction events generalizing k with
  | nil => exact Iff.rfl
  | cons event rest ih =>
    refine and_congr (lawful_iff k event) (forall_congr' fun next => ?_)
    exact imp_congr_right fun _ => ih next

set_option maxRecDepth 4000 in
/-- A child without the events of its parent; a child with the events of a task that is gone; and
a parent whose socket is closed by the exit of its child. -/
theorem descriptors_leak :
    ¬ Guarded Kernel.step Lawful [.call 1 .createEvent, .fork 1 true true] .boot ∧
    ¬ Guarded Kernel.step Lawful [.fork 1 true true, .call 2 .createEvent, .exit 2, .release 2,
      .fork 1 true true] .boot ∧
    ¬ Guarded Kernel.step Lawful [.call 1 (.socket 1 1), .fork 1 true true, .exit 2] .boot := by
  refine ⟨fun h => ?_, fun h => ?_, fun h => ?_⟩
  · obtain ⟨-, h₁⟩ := h
    obtain ⟨hfork, -⟩ := h₁ _ rfl
    exact absurd (hfork 2 _ rfl 3 .event) (by decide +kernel)
  · obtain ⟨-, h₁⟩ := h
    obtain ⟨-, h₂⟩ := h₁ _ rfl
    obtain ⟨-, h₃⟩ := h₂ _ rfl
    obtain ⟨-, h₄⟩ := h₃ _ rfl
    obtain ⟨hfork, -⟩ := h₄ _ rfl
    exact absurd (hfork 2 _ rfl 3 .event) (by decide +kernel)
  · obtain ⟨-, h₁⟩ := h
    obtain ⟨-, h₂⟩ := h₁ _ rfl
    obtain ⟨hexit, -⟩ := h₂ _ rfl
    obtain ⟨-, hothers⟩ := hexit _ rfl
    exact absurd (hothers 1 (by decide) (by decide +kernel) 3 .socket) (by decide +kernel)

end Shitix.Fd
