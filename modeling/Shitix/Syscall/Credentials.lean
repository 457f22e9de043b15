import Shitix.Syscall.Memory

/-!
# Credentials

`setuid`, `setreuid`, `setresuid` and their group versions from `syscall/sys.rs`.  The user ids
and the group ids of a task are four ids each, and each rule is stated once for both; the group
calls ask whether the effective *user* id is 0.

A task none of whose user ids is 0 never passes that test.  Then no call brings in an id the task
did not have (`Among`), which rules 0 out for the rest of its life (`credentials_stay_among`).
-/

namespace Shitix.Syscall

def eperm : ℤ := 1

/-- `u32` -/
abbrev Id : Type := BitVec 32

/-- `u32::MAX`: leave this id as it is. -/
def keepId : Id := BitVec.allOnes 32

/-- `uid`, `euid`, `suid` and `fsuid`, or `gid`, `egid`, `sgid` and `fsgid`. -/
structure Ids where
  id : Id
  eid : Id
  sid : Id
  fsid : Id
deriving DecidableEq, Repr

/-- The credentials of a task. -/
structure Cred where
  user : Ids
  group : Ids
deriving DecidableEq, Repr

/-! ## The rules -/

/-- The rule of `setuid` and `setgid`. -/
def Ids.set (root : Bool) (v : Id) (c : Ids) : ℤ × Ids :=
  if root then (0, ⟨v, v, v, v⟩)
  else if v = c.id ∨ v = c.sid then (0, { c with eid := v, fsid := v })
  else (-eperm, c)

/-- What an id becomes: `if v != u32::MAX { old = v; }`. -/
def orKeep (v old : Id) : Id := if v ≠ keepId then v else old

/-- The rule of `setreuid` and `setregid`. -/
def Ids.setre (root : Bool) (r e : Id) (c : Ids) : ℤ × Ids :=
  let old := c.id
  if r ≠ keepId ∧ ¬ (c.eid = r ∨ old = r ∨ root) then (-eperm, c)
  else
    let c := { c with id := orKeep r c.id }
    if e ≠ keepId then
      if old = e ∨ c.eid = e ∨ root then (0, { c with eid := e, sid := e })
      else (-eperm, { c with id := old })
    else (0, c)

/-- An argument of `setresuid` that is not one of the three ids. -/
def Ids.foreign (c : Ids) (v : Id) : Bool :=
  v ≠ keepId ∧ v ≠ c.id ∧ v ≠ c.eid ∧ v ≠ c.sid

/-- The rule of `setresuid` and `setresgid`. -/
def Ids.setres (root : Bool) (r e s : Id) (c : Ids) : ℤ × Ids :=
  if ¬ root ∧ [r, e, s].any c.foreign then (-eperm, c)
  else
    let c := { c with id := orKeep r c.id }
    let c := { c with eid := orKeep e c.eid }
    let c := { c with sid := orKeep s c.sid }
    (0, { c with fsid := c.eid })

namespace Cred

/-- `c.euid == 0` -/
def root (c : Cred) : Bool := c.user.eid = 0

/-- A call on the user ids. -/
def onUser (c : Cred) (rule : Bool → Ids → ℤ × Ids) : ℤ × Cred :=
  ((rule c.root c.user).1, { c with user := (rule c.root c.user).2 })

/-- A call on the group ids. -/
def onGroup (c : Cred) (rule : Bool → Ids → ℤ × Ids) : ℤ × Cred :=
  ((rule c.root c.group).1, { c with group := (rule c.root c.group).2 })

variable (c : Cred) (a0 a1 a2 : BitVec 64)

def setuid : ℤ × Cred := c.onUser fun root => Ids.set root (a0.setWidth 32)

def setgid : ℤ × Cred := c.onGroup fun root => Ids.set root (a0.setWidth 32)

def setreuid : ℤ × Cred :=
  c.onUser fun root => Ids.setre root (a0.setWidth 32) (a1.setWidth 32)

def setregid : ℤ × Cred :=
  c.onGroup fun root => Ids.setre root (a0.setWidth 32) (a1.setWidth 32)

def setresuid : ℤ × Cred :=
  c.onUser fun root => Ids.setres root (a0.setWidth 32) (a1.setWidth 32) (a2.setWidth 32)

def setresgid : ℤ × Cred :=
  c.onGroup fun root => Ids.setres root (a0.setWidth 32) (a1.setWidth 32) (a2.setWidth 32)

end Cred

/-- The calls, with their arguments. -/
inductive CredCall where
  | setuid (a0 : BitVec 64)
  | setgid (a0 : BitVec 64)
  | setreuid (a0 a1 : BitVec 64)
  | setregid (a0 a1 : BitVec 64)
  | setresuid (a0 a1 a2 : BitVec 64)
  | setresgid (a0 a1 a2 : BitVec 64)

/-- A call: its result, and the credentials it leaves. -/
def Cred.call (c : Cred) : CredCall → ℤ × Cred
  | .setuid a0 => c.setuid a0
  | .setgid a0 => c.setgid a0
  | .setreuid a0 a1 => c.setreuid a0 a1
  | .setregid a0 a1 => c.setregid a0 a1
  | .setresuid a0 a1 a2 => c.setresuid a0 a1 a2
  | .setresgid a0 a1 a2 => c.setresgid a0 a1 a2

/-- The credentials after a sequence of calls. -/
def Cred.calls (c : Cred) (calls : List CredCall) : Cred :=
  calls.foldl (fun c call => (c.call call).2) c

/-! ## No new ids -/

/-- One of the three ids. -/
def Ids.Has (c : Ids) (v : Id) : Prop := v = c.id ∨ v = c.eid ∨ v = c.sid

/-- Each of the three ids of `c'` is one of those of `c`. -/
structure Ids.Among (c c' : Ids) : Prop where
  id : c.Has c'.id
  eid : c.Has c'.eid
  sid : c.Has c'.sid

variable {c c' c'' : Ids} {v : Id}

theorem Ids.Among.refl (c : Ids) : c.Among c := ⟨.inl rfl, .inr (.inl rfl), .inr (.inr rfl)⟩

theorem Ids.Among.has (h : c.Among c') (hv : c'.Has v) : c.Has v := by
  rcases hv with rfl | rfl | rfl
  · exact h.id
  · exact h.eid
  · exact h.sid

theorem Ids.Among.trans (h : c.Among c') (h' : c'.Among c'') : c.Among c'' :=
  ⟨h.has h'.id, h.has h'.eid, h.has h'.sid⟩

/-- An id that is set if the argument is allowed, and kept otherwise. -/
theorem Ids.has_orKeep {old : Id} (hv : v ≠ keepId → c.Has v) (hold : c.Has old) :
    c.Has (orKeep v old) := by
  unfold orKeep
  split_ifs with hkeep
  · exact hv hkeep
  · exact hold

theorem Ids.has_of_not_foreign (h : c.foreign v = false) (hkeep : v ≠ keepId) : c.Has v := by
  by_contra hhas
  obtain ⟨hid, heid, hsid⟩ : v ≠ c.id ∧ v ≠ c.eid ∧ v ≠ c.sid := by
    simpa only [Ids.Has, not_or] using hhas
  have hforeign : c.foreign v = true := decide_eq_true ⟨hkeep, hid, heid, hsid⟩
  rw [hforeign] at h
  cases h

/-- What a rule does: without privilege it brings in no id, and it changes none when it refuses. -/
structure RuleSpec (root : Bool) (c : Ids) (result : ℤ × Ids) : Prop where
  among : root = false → c.Among result.2
  refused : result.1 = -eperm → result.2 = c

theorem zero_ne_neg_eperm : (0 : ℤ) ≠ -eperm := by decide

theorem RuleSpec.unchanged (root : Bool) (c : Ids) : RuleSpec root c (-eperm, c) :=
  ⟨fun _ => .refl c, fun _ => rfl⟩

theorem RuleSpec.changed {root : Bool} (h : root = false → c.Among c') : RuleSpec root c (0, c') :=
  ⟨h, fun hperm => absurd hperm zero_ne_neg_eperm⟩

theorem Ids.set_spec (root : Bool) (v : Id) (c : Ids) : RuleSpec root c (Ids.set root v c) := by
  unfold set
  split_ifs with hroot hv
  · exact .changed fun hfalse => absurd hroot (by rw [hfalse]; exact Bool.false_ne_true)
  · exact .changed fun _ => ⟨.inl rfl, hv.imp_right .inr, .inr (.inr rfl)⟩
  · exact .unchanged root c

theorem Ids.setre_spec (root : Bool) (r e : Id) (c : Ids) :
    RuleSpec root c (Ids.setre root r e c) := by
  unfold setre
  by_cases hreal : r ≠ keepId ∧ ¬ (c.eid = r ∨ c.id = r ∨ root)
  · rw [if_pos hreal]
    exact .unchanged root c
  have hid : root = false → c.Has (orKeep r c.id) := by
    intro hroot
    refine has_orKeep (fun hkeep => ?_) (.inl rfl)
    have hr : c.eid = r ∨ c.id = r ∨ root := by
      by_contra hnone
      exact hreal ⟨hkeep, hnone⟩
    rcases hr with hr | hr | hr
    · exact .inr (.inl hr.symm)
    · exact .inl hr.symm
    · rw [hroot] at hr
      cases hr
  dsimp only
  split_ifs with hkeep heff
  · refine .changed fun hroot => ?_
    have he : c.Has e := by
      rcases heff with h | h | h
      · exact .inl h.symm
      · exact .inr (.inl h.symm)
      · rw [hroot] at h
        cases h
    exact ⟨hid hroot, he, he⟩
  · exact .unchanged root c
  · exact .changed fun hroot => ⟨hid hroot, .inr (.inl rfl), .inr (.inr rfl)⟩

theorem Ids.setres_spec (root : Bool) (r e s : Id) (c : Ids) :
    RuleSpec root c (Ids.setres root r e s c) := by
  unfold setres
  by_cases hforeign : ¬ root ∧ [r, e, s].any c.foreign
  · rw [if_pos hforeign]
    exact .unchanged root c
  rw [if_neg hforeign]
  refine .changed fun hroot => ?_
  simp only [hroot, true_and, List.any_cons, List.any_nil,
    Bool.or_false, Bool.or_eq_true, not_or, Bool.not_eq_true] at hforeign
  obtain ⟨hr, he, hs⟩ := hforeign
  exact ⟨has_orKeep (has_of_not_foreign hr) (.inl rfl),
    has_orKeep (has_of_not_foreign he) (.inr (.inl rfl)),
    has_orKeep (has_of_not_foreign hs) (.inr (.inr rfl))⟩

/-! ## Sequences of calls -/

/-- What a call does. -/
structure CallSpec (c : Cred) (result : ℤ × Cred) : Prop where
  user : c.root = false → c.user.Among result.2.user
  group : c.root = false → c.group.Among result.2.group
  refused : result.1 = -eperm → result.2 = c

section

variable (c : Cred) {rule : Bool → Ids → ℤ × Ids}
  (h : ∀ root ids, RuleSpec root ids (rule root ids))

include h

theorem Cred.onUser_spec : CallSpec c (c.onUser rule) := by
  have hrule := h c.root c.user
  refine ⟨hrule.among, fun _ => .refl c.group, fun hperm => ?_⟩
  rw [onUser, hrule.refused hperm]

theorem Cred.onGroup_spec : CallSpec c (c.onGroup rule) := by
  have hrule := h c.root c.group
  refine ⟨fun _ => .refl c.user, hrule.among, fun hperm => ?_⟩
  rw [onGroup, hrule.refused hperm]

end

theorem Cred.call_spec (c : Cred) (call : CredCall) : CallSpec c (c.call call) := by
  cases call with
  | setuid a0 => exact c.onUser_spec fun root => Ids.set_spec root _
  | setgid a0 => exact c.onGroup_spec fun root => Ids.set_spec root _
  | setreuid a0 a1 => exact c.onUser_spec fun root => Ids.setre_spec root _ _
  | setregid a0 a1 => exact c.onGroup_spec fun root => Ids.setre_spec root _ _
  | setresuid a0 a1 a2 => exact c.onUser_spec fun root => Ids.setres_spec root _ _ _
  | setresgid a0 a1 a2 => exact c.onGroup_spec fun root => Ids.setres_spec root _ _ _

/-- None of the three user ids is 0. -/
def Ordinary (c : Cred) : Prop := c.user.id ≠ 0 ∧ c.user.eid ≠ 0 ∧ c.user.sid ≠ 0

theorem Ordinary.root {c : Cred} (h : Ordinary c) : c.root = false := decide_eq_false h.2.1

theorem Ordinary.has {c : Cred} (h : Ordinary c) (hv : c.user.Has v) : v ≠ 0 := by
  rcases hv with rfl | rfl | rfl
  · exact h.1
  · exact h.2.1
  · exact h.2.2

/-- Whatever calls an ordinary task makes, its ids stay among those it had, its effective user id
does not become 0, and a call that is refused changes nothing. -/
theorem credentials_stay_among (c : Cred) (h : Ordinary c) (calls : List CredCall) :
    c.user.Among (c.calls calls).user ∧ c.group.Among (c.calls calls).group ∧
      (c.calls calls).user.eid ≠ 0 ∧
      ∀ (d : Cred) (call : CredCall), (d.call call).1 = -eperm → (d.call call).2 = d := by
  have hamong : c.user.Among (c.calls calls).user ∧ c.group.Among (c.calls calls).group := by
    induction calls generalizing c with
    | nil => exact ⟨.refl c.user, .refl c.group⟩
    | cons call rest ih =>
      have hcall := c.call_spec call
      have hamong := hcall.user h.root
      obtain ⟨huser, hgroup⟩ := ih (c.call call).2 ⟨h.has hamong.id, h.has hamong.eid, h.has hamong.sid⟩
      exact ⟨hamong.trans huser, (hcall.group h.root).trans hgroup⟩
  exact ⟨hamong.1, hamong.2, h.has hamong.1.eid, fun d call => (d.call_spec call).refused⟩

/-- A set-user-id program of user 1000 with effective id 1001 gives up its privilege and takes it
back; it cannot become user 0. -/
theorem credentials_stay_among_setuid :
    let c : Cred := ⟨⟨1000, 1001, 1001, 1001⟩, ⟨100, 100, 100, 100⟩⟩
    let calls : List CredCall :=
      [.setuid 1000, .setresuid 0xffffffff 1001 0xffffffff, .setuid 0, .setreuid 1001 0]
    (c.calls calls).user = ⟨1000, 1001, 1001, 1001⟩ ∧ c.user.Among (c.calls calls).user ∧
      c.group.Among (c.calls calls).group := by
  intro c calls
  obtain ⟨huser, hgroup, -, -⟩ := credentials_stay_among c (by unfold Ordinary; decide) calls
  exact ⟨by decide, huser, hgroup⟩

end Shitix.Syscall
