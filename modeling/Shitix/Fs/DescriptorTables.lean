import Shitix.Fs.Descriptors

/-!
# Looking descriptors up

`Fds.find` looks a descriptor up in each of the four tables.  The calls change the tables by
rebinding one entry at a time (`Rebinds`); an entry of the socket table is one of every task.
The tables are `Exclusive` if a descriptor is bound in at most one.
-/

namespace Shitix.Fd

open Function Option Fds

/-- The tables. -/
inductive Kind where
  | file | pipe | socket | event
deriving DecidableEq, Repr

/-- What a descriptor stands for. -/
inductive Obj where
  | file (f : ℕ)
  | pipe (i : ℕ) (dir : Dir)
  | socket (i : ℕ)
  | event (i : ℕ)
deriving DecidableEq, Repr

/-- The width of a table. -/
def Kind.width : Kind → ℕ
  | .file => nrOpen
  | .pipe => maxPipeFd
  | .socket => maxSockFd
  | .event => maxEvFd

/-- The entry of a descriptor in a table. -/
def Fds.find (s : Fds) (t : Task) (fd : ℕ) : Kind → Option Obj
  | .file => (s.fdToFilp t fd).map .file
  | .pipe => (s.fdToPipe t fd).map fun entry => .pipe entry.1 entry.2
  | .socket => (s.fdToSock fd).map .socket
  | .event => (s.fdToObj t fd).map .event

/-- A descriptor is bound in at most one table. -/
def Exclusive (s : Fds) : Prop :=
  ∀ t fd k k', (s.find t fd k).isSome → (s.find t fd k').isSome → k = k'

/-- A descriptor is bound in no table. -/
def Unbound (s : Fds) (t : Task) (fd : ℕ) : Prop := ∀ k, s.find t fd k = none

/-- A descriptor is bound. -/
def Bound (s : Fds) (t : Task) (fd : ℕ) : Prop := ∃ k, (s.find t fd k).isSome

/-! ## Rebinding -/

/-- The entry of `t` and `fd` in table `k` is also that of `t'` and `fd'` in table `k'`. -/
def SameEntry (t : Task) (fd : ℕ) (k : Kind) (t' : Task) (fd' : ℕ) (k' : Kind) : Prop :=
  k' = k ∧ fd' = fd ∧ fd < k.width ∧ (k = .socket ∨ t' = t)

instance (t : Task) (fd : ℕ) (k : Kind) (t' : Task) (fd' : ℕ) (k' : Kind) :
    Decidable (SameEntry t fd k t' fd' k') := by
  unfold SameEntry
  infer_instance

/-- One entry is another, and nothing else has changed. -/
def Rebinds (s s' : Fds) (t : Task) (fd : ℕ) (k : Kind) (entry : Option Obj) : Prop :=
  ∀ t' fd' k', s'.find t' fd' k' =
    if SameEntry t fd k t' fd' k' then entry else s.find t' fd' k'

/-- The tables are the same. -/
def SameTables (s s' : Fds) : Prop := ∀ t fd k, s'.find t fd k = s.find t fd k

variable {s s' s'' : Fds} {t t' : Task} {fd fd' : ℕ} {k k' : Kind} {entry : Option Obj}

theorem setEntry_apply {α : Type*} (table : Task → ℕ → α) (value : α) :
    setEntry table t fd value t' fd' = if t' = t ∧ fd' = fd then value else table t' fd' := by
  unfold setEntry
  by_cases ht : t' = t
  · subst ht
    by_cases hfd : fd' = fd
    · subst hfd
      rw [update_self, update_self, if_pos ⟨rfl, rfl⟩]
    · rw [update_self, update_of_ne hfd, if_neg fun h => hfd h.2]
  · rw [update_of_ne ht, if_neg fun h => ht h.1]

/-- A write to one table, which does nothing beyond its width. -/
theorem rebinds_write {written : Fds} (hwrite : s' = if fd < k.width then written else s)
    (hother : ∀ t' fd' k', k' ≠ k → written.find t' fd' k' = s.find t' fd' k')
    (hhere : fd < k.width → ∀ t', k = .socket ∨ t' = t → written.find t' fd k = entry)
    (hthere : ∀ t' fd', ¬ (fd' = fd ∧ (k = .socket ∨ t' = t)) →
      written.find t' fd' k = s.find t' fd' k) : Rebinds s s' t fd k entry := by
  intro t' fd' k'
  rw [hwrite]
  by_cases hfd : fd < k.width
  · rw [if_pos hfd]
    by_cases hk : k' = k
    · subst hk
      split_ifs with hsame
      · obtain ⟨-, rfl, -, ht⟩ := hsame
        exact hhere hfd t' ht
      · exact hthere t' fd' fun h => hsame ⟨rfl, h.1, hfd, h.2⟩
    · rw [hother t' fd' k' hk, if_neg fun h => hk h.1]
  · rw [if_neg hfd, if_neg fun h => hfd h.2.2.1]

theorem rebinds_setFd (f : Option ℕ) : Rebinds s (s.setFd t fd f) t fd .file (f.map .file) := by
  refine rebinds_write rfl (fun t' fd' k' hk => ?_) (fun (hfd : fd < nrOpen) t' ht => ?_)
    fun t' fd' hnot => ?_
  · cases k' with
    | file => exact absurd rfl hk
    | pipe | socket | event => rfl
  · obtain rfl := ht.resolve_left Kind.noConfusion
    simp [find, fdToFilp, if_neg (not_le.mpr hfd), setEntry_apply]
  · have hsame : ¬ (t' = t ∧ fd' = fd) := fun h => hnot ⟨h.2, .inr h.1⟩
    simp [find, fdToFilp, setEntry_apply, if_neg hsame]

theorem rebinds_setPipe (e : Option (ℕ × Dir)) :
    Rebinds s (s.setPipe t fd e) t fd .pipe (e.map fun entry => .pipe entry.1 entry.2) := by
  refine rebinds_write rfl (fun t' fd' k' hk => ?_) (fun (hfd : fd < maxPipeFd) t' ht => ?_)
    fun t' fd' hnot => ?_
  · cases k' with
    | pipe => exact absurd rfl hk
    | file | socket | event => rfl
  · obtain rfl := ht.resolve_left Kind.noConfusion
    simp [find, fdToPipe, if_pos hfd, setEntry_apply]
  · have hsame : ¬ (t' = t ∧ fd' = fd) := fun h => hnot ⟨h.2, .inr h.1⟩
    simp [find, fdToPipe, setEntry_apply, if_neg hsame]

theorem rebinds_setSock (e : Option ℕ) :
    Rebinds s (s.setSock fd e) t fd .socket (e.map .socket) := by
  refine rebinds_write rfl (fun t' fd' k' hk => ?_) (fun (hfd : fd < maxSockFd) t' ht => ?_)
    fun t' fd' hnot => ?_
  · cases k' with
    | socket => exact absurd rfl hk
    | file | pipe | event => rfl
  · simp [find, fdToSock, if_pos hfd]
  · have hsame : fd' ≠ fd := fun h => hnot ⟨h, .inl rfl⟩
    simp [find, fdToSock, update_of_ne hsame]

theorem rebinds_setEvent (e : Option ℕ) :
    Rebinds s (s.setEvent t fd e) t fd .event (e.map .event) := by
  refine rebinds_write rfl (fun t' fd' k' hk => ?_) (fun (hfd : fd < maxEvFd) t' ht => ?_)
    fun t' fd' hnot => ?_
  · cases k' with
    | event => exact absurd rfl hk
    | file | pipe | socket => rfl
  · obtain rfl := ht.resolve_left Kind.noConfusion
    simp [find, fdToObj, if_pos hfd, setEntry_apply]
  · have hsame : ¬ (t' = t ∧ fd' = fd) := fun h => hnot ⟨h.2, .inr h.1⟩
    simp [find, fdToObj, setEntry_apply, if_neg hsame]

/-- Nothing is bound beyond the width of a table. -/
theorem find_beyond (h : ¬ fd < k.width) : s.find t fd k = none := by
  cases k with
  | file => exact map_eq_none_iff.mpr (if_pos (not_lt.mp h))
  | pipe | socket | event => exact map_eq_none_iff.mpr (if_neg h)

/-- What is left when an entry is cleared. -/
theorem Rebinds.cleared (h : Rebinds s s' t fd k none) (t' : Task) (fd' : ℕ) (k' : Kind) :
    s'.find t' fd' k' =
      if k' = k ∧ fd' = fd ∧ (k = .socket ∨ t' = t) then none else s.find t' fd' k' := by
  rw [h]
  by_cases hfd : fd < k.width
  · exact if_congr ⟨fun hsame => ⟨hsame.1, hsame.2.1, hsame.2.2.2⟩,
      fun hsame => ⟨hsame.1, hsame.2.1, hfd, hsame.2.2⟩⟩ rfl rfl
  · rw [if_neg fun hsame => hfd hsame.2.2.1]
    split_ifs with hsame
    · obtain ⟨rfl, rfl, -⟩ := hsame
      exact find_beyond hfd
    · rfl

/-! Counts and slots are not part of the tables. -/

@[simp] theorem find_setCount (f n : ℕ) : (s.setCount f n).find t fd k = s.find t fd k := by
  cases k <;> rfl

@[simp] theorem find_putPipe (i : ℕ) (pipe : Option Pipe) :
    (s.putPipe i pipe).find t fd k = s.find t fd k := by
  cases k <;> rfl

@[simp] theorem find_putFilp (f : ℕ) : (s.putFilp f).find t fd k = s.find t fd k := by
  unfold putFilp
  split_ifs
  · rfl
  · exact find_setCount ..

theorem Rebinds.congr_left (h : Rebinds s s' t fd k entry) (hsame : SameTables s'' s) :
    Rebinds s'' s' t fd k entry := by
  intro t' fd' k'
  rw [h, hsame]

theorem Rebinds.congr_right (h : Rebinds s s' t fd k entry) (hsame : SameTables s' s'') :
    Rebinds s s'' t fd k entry := by
  intro t' fd' k'
  rw [hsame, h]

/-! Closing. -/

/-- Nothing is done about an entry that is free. -/
theorem rebinds_none (hfree : s.find t fd k = none) : Rebinds s s t fd k none := by
  intro t' fd' k'
  split_ifs with hsame
  · obtain ⟨rfl, rfl, -, rfl | rfl⟩ := hsame
    · exact hfree
    · exact hfree
  · rfl

theorem rebinds_closeFd : Rebinds s (s.closeFd t fd) t fd .pipe none := by
  unfold closeFd
  cases hpipe : s.fdToPipe t fd with
  | none => exact rebinds_none (map_eq_none_iff.mpr hpipe)
  | some entry =>
    refine (rebinds_setPipe none).congr_left fun t' fd' k' => ?_
    cases s.pipes entry.1 with
    | none => rfl
    | some pipe => exact find_putPipe ..

theorem rebinds_closeSocket : Rebinds s (s.closeSocket fd) t fd .socket none := by
  unfold closeSocket
  split_ifs with hsock
  · exact rebinds_setSock none
  · exact rebinds_none (map_eq_none_iff.mpr (not_isSome_iff_eq_none.mp hsock))

theorem rebinds_sysClose : Rebinds s (s.sysClose t fd).2 t fd .file none := by
  unfold sysClose
  cases hfile : s.fdToFilp t fd with
  | none => exact rebinds_none (map_eq_none_iff.mpr hfile)
  | some f => exact (rebinds_setFd none).congr_right fun _ _ _ => find_putFilp f

theorem rebinds_dupFd {newfd i : ℕ} {dir : Dir} (hpipe : s.fdToPipe t fd = some (i, dir)) :
    Rebinds s (s.dupFd t fd newfd).2 t newfd .pipe (some (.pipe i dir)) := by
  unfold dupFd
  rw [hpipe]
  dsimp only
  cases hcount : (s.setPipe t newfd (some (i, dir))).pipes i with
  | none => exact rebinds_setPipe (some (i, dir))
  | some pipe => exact (rebinds_setPipe (some (i, dir))).congr_right fun _ _ _ => find_putPipe ..

/-! ## Exclusive tables -/

theorem Exclusive.of_same (h : Exclusive s) (hsame : SameTables s s') : Exclusive s' := by
  intro t fd k k' hk hk'
  rw [hsame] at hk hk'
  exact h t fd k k' hk hk'

theorem Exclusive.unbind (h : Exclusive s) (hre : Rebinds s s' t fd k none) : Exclusive s' := by
  have hold : ∀ t' fd' k', (s'.find t' fd' k').isSome → (s.find t' fd' k').isSome := by
    intro t' fd' k' hsome
    rw [hre] at hsome
    split_ifs at hsome
    · cases hsome
    · exact hsome
  intro t' fd' k₁ k₂ h₁ h₂
  exact h t' fd' k₁ k₂ (hold _ _ _ h₁) (hold _ _ _ h₂)

/-! ## Beside sockets and events -/

/-- Something that sockets and events are no part of. -/
structure Beside {α : Type*} (φ : Fds → α) : Prop where
  sock : ∀ s fd entry, φ (s.setSock fd entry) = φ s
  used : ∀ (s : Fds) used, φ { s with used := used } = φ s
  event : ∀ s t fd entry, φ (s.setEvent t fd entry) = φ s

/-- The calls on sockets and events. -/
def Call.Outer : Call → Prop
  | .socket .. | .socketpair .. | .accept _ | .createEvent => True
  | _ => False

section Beside

variable {α : Type*} {φ : Fds → α} (h : Beside φ)

include h

theorem Beside.closeSocket (s : Fds) (fd : ℕ) : φ (s.closeSocket fd) = φ s := by
  unfold Fds.closeSocket
  split_ifs
  · exact h.sock s fd none
  · rfl

theorem Beside.newSocket (s : Fds) (t : Task) : φ (s.newSocket t).2 = φ s := by
  unfold Fds.newSocket
  cases halloc : s.allocSock with
  | none => rfl
  | some result =>
    obtain ⟨i, s₁⟩ := result
    have hsame : φ s₁ = φ s := by
      obtain ⟨j, -, hj⟩ := map_eq_some_iff.mp halloc
      obtain ⟨-, rfl⟩ := Prod.mk.inj hj
      exact h.used s _
    dsimp only
    cases s₁.findFreeFd t with
    | none => exact hsame
    | some fd => exact (h.sock s₁ fd _).trans hsame

theorem Beside.sysSocket (s : Fds) (t : Task) (family sockType : ℕ) :
    φ (s.sysSocket t family sockType).2 = φ s := by
  unfold Fds.sysSocket
  split_ifs
  · rfl
  · rfl
  · exact h.newSocket s t

theorem Beside.unregister (fds : List ℕ) (s : Fds) :
    φ (fds.foldl (fun s fd => s.setSock fd none) s) = φ s := by
  induction fds generalizing s with
  | nil => rfl
  | cons fd fds ih => exact (ih _).trans (h.sock s fd none)

theorem Beside.sysSocketpair (s : Fds) (t : Task) (family sockType : ℕ) (null : Bool) :
    φ (s.sysSocketpair t family sockType null).2 = φ s := by
  unfold Fds.sysSocketpair
  split_ifs
  · rfl
  have hfirst := h.sysSocket s t family sockType
  generalize s.sysSocket t family sockType = result at hfirst ⊢
  obtain ⟨_ | first, s₁⟩ := result
  · exact hfirst
  have hsecond := h.sysSocket s₁ t family sockType
  dsimp only at hfirst ⊢
  generalize s₁.sysSocket t family sockType = result at hsecond ⊢
  obtain ⟨_ | second, s₂⟩ := result
  · exact ((h.unregister first s₂).trans hsecond).trans hfirst
  · exact hsecond.trans hfirst

theorem Beside.sysAccept (s : Fds) (t : Task) (fd : ℕ) : φ (s.sysAccept t fd).2 = φ s := by
  unfold Fds.sysAccept
  split_ifs
  · exact h.newSocket s t
  · rfl

theorem Beside.createEvent (s : Fds) (t : Task) : φ (s.createEvent t).2 = φ s := by
  unfold Fds.createEvent
  cases s.allocObj with
  | none => rfl
  | some i =>
    cases search (s.unusedByEvent t) 3 64 with
    | none => rfl
    | some fd => exact h.event s t fd _

theorem Beside.call {c : Call} (s : Fds) (t : Task) (hc : c.Outer) : φ (s.call t c).2 = φ s := by
  cases c with
  | socket family sockType => exact h.sysSocket s t family sockType
  | socketpair family sockType null => exact h.sysSocketpair s t family sockType null
  | accept fd => exact h.sysAccept s t fd
  | createEvent => exact h.createEvent s t
  | _ => exact hc.elim

end Beside

end Shitix.Fd
