import Shitix.Fs.InodeStretches

/-!
# One slot for every inode

A task that misses a key in `iget_cross` asks `get_empty_inode` for a slot, which may sleep,
and writes the key into the slot without a second look at the table.  So two tasks that
miss the same key one after the other, while both wait for a slot, fill it in twice
(`racing_igets_duplicate`).  If no task misses a key while another one is filling it in
(`Admissible`), no two slots in use ever carry the same key (`inode_keys_unique`).
-/

namespace Shitix.Inodes

open Minix List Option Coop Function

/-- What holds between two stretches. -/
structure Sane (devs : ℕ → ℕ) (s : System) : Prop where
  counted : Counted s.shared fun n => s.total (Frame.refs n)
  keyed : Keyed devs s.shared fun key => s.total (Frame.fills key)
  valid : ∀ t, ∀ frame ∈ s.stack t, frame.Valid devs
  /-- a slot without a key is about to be given back -/
  named : ∀ n, (s.shared.inodes n).inUse = true → (s.shared.inodes n).dev = 0 →
    ∃ t rest, s.running = some t ∧ s.stack t = .iput (some n) :: .newInodeFailed :: rest ∧
      Fresh (s.shared.inodes n)

/-- The number of the inode is marked in the inode map, and no task is filling in the key. -/
def Alone (s : System) (dev ino : ℕ) : Prop :=
  s.shared.Marked (dev, ino) ∧ ∀ t, ∀ frame ∈ s.stack t, frame.filling ≠ some (dev, ino)

/-- A task that looks up a key and misses it is alone with it. -/
def MissesAlone (s : System) : List Frame → Prop
  | .igetLoop _ dev ino _ :: _ => s.shared.lookup dev ino = none → Alone s dev ino
  | _ => True

/-- The condition on an event: no count is about to overflow, and no two tasks fill in the same
key. -/
def Admissible (s : System) (event : Event) : Prop :=
  (∀ n < nrInode, (s.shared.inodes n).count < 0xffff) ∧
    match event with
    | .go t => MissesAlone s (s.stack t)
    | _ => True

/-- No two slots in use carry the same key. -/
def UniqueKeys (k : Table) : Prop :=
  ∀ m n, (k.inodes m).inUse = true → (k.inodes n).inUse = true →
    (k.inodes m).dev = (k.inodes n).dev → (k.inodes m).ino = (k.inodes n).ino → m = n

section Steps

variable {devs : ℕ → ℕ} {s : System} {t : Task} {frame : Frame} {rest : List Frame} {k : Table}

theorem Sane.uniqueKeys (h : Sane devs s) : UniqueKeys s.shared := by
  intro m n hm hn hdev hino
  by_cases hzero : (s.shared.inodes m).dev = 0
  · obtain ⟨t, rest, hrunning, hstack, -⟩ := h.named m hm hzero
    obtain ⟨t', rest', hrunning', hstack', -⟩ := h.named n hn (hdev ▸ hzero)
    obtain rfl : t = t' := some.inj (hrunning.symm.trans hrunning')
    have hframe := head_eq_of_cons_eq (hstack.symm.trans hstack')
    exact some.inj (Frame.iput.inj hframe)
  · exact h.keyed.unique (_, _) m n hzero ⟨hm, rfl⟩ ⟨hn, Prod.ext hdev.symm hino.symm⟩

/-- Between two calls every slot in use has a key. -/
theorem Sane.named_of_idle (h : Sane devs s) (hidle : s.running = none) (n : ℕ)
    (hused : (s.shared.inodes n).inUse = true) : (s.shared.inodes n).dev ≠ 0 := by
  intro hzero
  obtain ⟨t, -, hrunning, -⟩ := h.named n hused hzero
  rw [hidle] at hrunning
  cases hrunning

/-- What a stretch leaves is sane again. -/
theorem Sane.settle (h : Sane devs s) (hstack : s.stack t = frame :: rest) {next : Next Frame Value}
    (hleaves : Leaves devs (fun n => s.total (Frame.refs n) - frame.refs n)
      (fun key => s.total (Frame.fills key) - frame.fills key) k next) :
    Sane devs (s.settle t rest k next) := by
  have hmem : frame ∈ s.stack t := by
    rw [hstack]
    exact mem_cons_self
  have hshared : (s.settle t rest k next).shared = k := by cases next <;> rfl
  have htotal : ∀ w : Frame → ℕ, (s.settle t rest k next).total w =
      s.total w - w frame + next.weight w := by
    intro w
    have hsettle : (s.settle t rest k next).total w + w frame = s.total w + next.weight w :=
      total_settle hstack
    have hle : w frame ≤ s.total w := le_total hmem
    omega
  refine ⟨?_, ?_, ?_, ?_⟩
  · rw [hshared]
    simp only [htotal]
    exact hleaves.counted
  · rw [hshared]
    simp only [htotal]
    exact hleaves.keyed
  · have hrest : ∀ f ∈ rest, f.Valid devs := fun f hf =>
      h.valid t f (hstack ▸ mem_cons_of_mem frame hf)
    have hvalid := hleaves.valid
    cases next with
    | ret value => exact frames_update h.valid hrest
    | goto last | sleep last => exact frames_update h.valid (forall_mem_cons.mpr ⟨hvalid, hrest⟩)
    | call callee caller =>
      exact frames_update h.valid
        (forall_mem_cons.mpr ⟨hvalid.1, forall_mem_cons.mpr ⟨hvalid.2, hrest⟩⟩)
  · intro n hused hzero
    rw [hshared] at hused hzero ⊢
    obtain ⟨rfl, hfresh⟩ := hleaves.named n hused hzero
    exact ⟨t, rest, rfl, update_self .., hfresh⟩

section

variable (hdistinct : ∀ a b, Mounted devs a → Mounted devs b → devs a = devs b → a = b)
  (h : Sane devs s)

include hdistinct h

/-- What a stretch of the task that has the processor leaves. -/
theorem Sane.serves (hturn : s.running = none ∨ s.running = some t)
    (hstack : s.stack t = frame :: rest) (hadm : Admissible s (.go t)) (value : Value) :
    Serves devs (fun n => s.total (Frame.refs n) - frame.refs n)
      (fun key => s.total (Frame.fills key) - frame.fills key) (code frame value s.shared) := by
  have hmem : frame ∈ s.stack t := by
    rw [hstack]
    exact mem_cons_self
  have hsplit : ∀ w : Frame → ℕ, s.total w - w frame + w frame = s.total w := fun w =>
    Nat.sub_add_cancel (le_total hmem)
  by_cases hnamed : ∀ n, (s.shared.inodes n).inUse = true → (s.shared.inodes n).dev ≠ 0
  · have hready : Ready devs (fun n => s.total (Frame.refs n) - frame.refs n)
        (fun key => s.total (Frame.fills key) - frame.fills key) s.shared frame := by
      refine ⟨?_, ?_, h.valid t frame hmem, hnamed⟩
      · simp only [hsplit]
        exact h.counted
      · simp only [hsplit]
        exact h.keyed
    refine hready.code hdistinct hadm.1 ?_ value
    rintro sb dev ino cross rfl hlookup
    have hmiss : MissesAlone s (s.stack t) := hadm.2
    rw [hstack] at hmiss
    obtain ⟨hmarked, halone⟩ := hmiss hlookup
    have hzero : s.total (Frame.fills (dev, ino)) = 0 :=
      total_eq_zero.mpr fun t' f hf => if_neg (halone t' f hf)
    exact ⟨by rw [hzero, Nat.zero_sub], hmarked⟩
  · -- some slot has no key: the task is just giving it back
    simp only [not_forall, not_not] at hnamed
    obtain ⟨n, hused, hzero⟩ := hnamed
    obtain ⟨t', rest', hrunning, hstack', hfresh⟩ := h.named n hused hzero
    have ht : t' = t := by
      rcases hturn with hnone | hsome
      · rw [hnone] at hrunning
        cases hrunning
      · exact some.inj (hrunning.symm.trans hsome)
    subst ht
    obtain ⟨rfl, -⟩ := cons.inj (hstack.symm.trans hstack')
    refine iput_fresh ?_ ?_ (h.valid t' _ hmem) hfresh ?_ value
    · rw [← refs_of_owned (rfl : (Frame.iput (some n)).owned = some n)]
      simp only [hsplit]
      exact h.counted
    · exact h.keyed.mono fun key => Nat.sub_le _ _
    · intro m hm hdev
      obtain ⟨t'', rest'', hrunning'', hstack'', -⟩ := h.named m hm hdev
      obtain rfl : t'' = t' := some.inj (hrunning''.symm.trans hrunning)
      obtain ⟨hframe, -⟩ := cons.inj (hstack''.symm.trans hstack')
      exact some.inj (Frame.iput.inj hframe)

theorem Sane.go (hadm : Admissible s (.go t)) :
    ∃ after, step s (.go t) = .ok after ∧ Sane devs after := by
  simp only [step, Coop.step]
  split_ifs with hturn
  · cases hstack : s.stack t with
    | nil =>
      simp only [resume, hstack]
      exact ⟨s, rfl, h⟩
    | cons frame rest =>
      obtain ⟨k, next, hrun, hleaves⟩ := h.serves hdistinct hturn hstack hadm (s.value t)
      simp only [resume, hstack, hrun]
      exact ⟨_, rfl, h.settle hstack hleaves⟩
  · exact ⟨s, rfl, h⟩

end

section

variable (h : Sane devs s)

include h

/-- A call that starts: its frame takes over what the task held. -/
theorem Sane.enter (hidle : s.running = none) (hempty : s.stack t = [])
    (hinodes : k.inodes = s.shared.inodes) (hsupers : k.supers = s.shared.supers)
    (hcounted : Counted k fun n => s.total (Frame.refs n) + frame.refs n)
    (hfilling : frame.filling = none) (hvalid : frame.Valid devs) :
    Sane devs (Coop.mk k (update s.stack t [frame]) s.value (some t)) := by
  have htotal : ∀ w : Frame → ℕ,
      (Coop.mk k (update s.stack t [frame]) s.value (some t)).total w =
        s.total w + w frame := by
    intro w
    have hupdate := s.total_update (w := w) k s.value (some t) t [frame]
    rw [hempty] at hupdate
    simpa using hupdate
  refine ⟨?_, ?_, ?_, ?_⟩
  · simp only [htotal]
    exact hcounted
  · have hfills : ∀ key, frame.fills key = 0 := fun key => if_neg (by rw [hfilling]; exact nofun)
    simp only [htotal, hfills, add_zero]
    exact h.keyed.ofEq hinodes hsupers
  · exact frames_update h.valid (by simpa using hvalid)
  · intro n hused hzero
    simp only [hinodes] at hused hzero
    exact absurd hzero (h.named_of_idle hidle n hused)

theorem Sane.counted_add (howned : frame.owned = none) :
    Counted s.shared fun n => s.total (Frame.refs n) + frame.refs n := by
  refine h.counted.mono fun n => ?_
  rw [Frame.refs, if_neg (by simp [howned]), add_zero]

theorem Sane.call (call : Call) : ∃ after, step s (.call t call) = .ok after ∧ Sane devs after := by
  simp only [step]
  split_ifs with hfree
  · obtain ⟨hidle, hempty⟩ := hfree
    have hstack : s.stack t = [] := isEmpty_iff.mp hempty
    cases hgrant : s.shared.grant call with
    | none => exact ⟨s, rfl, h⟩
    | some k =>
      simp only [Coop.step, hidle, hstack]
      refine ⟨_, rfl, ?_⟩
      have hheld : ∀ n, 0 < s.shared.held n → n < nrInode := by
        intro n hn
        exact h.keyed.range n (h.counted.used n (by omega))
      cases call with
      | iget sb ino cross =>
        simp only [Table.grant, ite_none_right_eq_some, some.injEq] at hgrant
        obtain ⟨⟨hsb, hdev⟩, rfl⟩ := hgrant
        rw [h.keyed.superDev] at hdev
        exact h.enter hidle hstack rfl rfl (h.counted_add rfl) rfl ⟨hsb, hdev⟩
      | iput n =>
        cases n with
        | none =>
          cases hgrant
          exact h.enter hidle hstack rfl rfl (h.counted_add rfl) rfl trivial
        | some n =>
          simp only [Table.grant, ite_none_right_eq_some, some.injEq] at hgrant
          obtain ⟨hpos, rfl⟩ := hgrant
          have hcounted := h.counted.handIn hpos
          rw [← refs_of_owned (rfl : (Frame.iput (some n)).owned = some n)] at hcounted
          exact h.enter hidle hstack rfl rfl hcounted rfl (hheld n hpos)
      | newInode dir =>
        cases dir with
        | none =>
          cases hgrant
          exact h.enter hidle hstack rfl rfl (h.counted_add rfl) rfl trivial
        | some dir =>
          simp only [Table.grant, ite_none_right_eq_some, some.injEq] at hgrant
          obtain ⟨hpos, rfl⟩ := hgrant
          exact h.enter hidle hstack rfl rfl (h.counted_add rfl) rfl (hheld dir hpos)
  · exact ⟨s, rfl, h⟩

/-- Something happens to the table between two stretches. -/
theorem Sane.shared (hcounted : Counted k fun n => s.total (Frame.refs n))
    (hkeyed : Keyed devs k fun key => s.total (Frame.fills key))
    (hnamed : ∀ n, (k.inodes n).inUse = true → (k.inodes n).dev ≠ 0) :
    Sane devs { s with shared := k } :=
  ⟨hcounted, hkeyed, h.valid, fun n hused hzero => absurd hzero (hnamed n hused)⟩

theorem Sane.same (hidle : s.running = none) (hsame : s.shared.Same k) :
    Sane devs { s with shared := k } := by
  refine h.shared (h.counted.same hsame) (h.keyed.same hsame) fun n hused => ?_
  rw [(hsame.inodes n).dev]
  exact h.named_of_idle hidle n ((hsame.inodes n).inUse ▸ hused)

/-- A mount takes over a reference to the root it mounts. -/
theorem Sane.mount (hidle : s.running = none) {n m : ℕ}
    (hheld : 0 < s.shared.held m) : Sane devs { s with shared := s.shared.pin n m } := by
  refine h.shared (h.counted.pin hheld) ?_ ?_
  · refine (h.keyed.shrink (f := ({ · with mount := some m })) ?_ (h.keyed.range n)
      (.inr ⟨rfl, rfl⟩)).ofEq rfl rfl
    exact fun hused _ => ⟨hused, rfl, rfl⟩
  · simp only [Table.pin]
    exact Table.forall_modify (P := fun _ i => i.inUse = true → i.dev ≠ 0)
      (h.named_of_idle hidle n) fun i _ => h.named_of_idle hidle i

theorem Sane.env (input : Outside) :
    ∃ after, step s (.env input) = .ok after ∧ Sane devs after := by
  simp only [step]
  split_ifs with hidle
  · cases input with
    | change n mode nlink op =>
      simp only [Coop.step, outside]
      split_ifs
      · exact ⟨_, rfl, h.same hidle (.modify ⟨rfl, rfl, rfl, rfl, rfl, rfl⟩)⟩
      · exact ⟨s, rfl, h⟩
    | mount n m =>
      simp only [Coop.step, outside]
      split_ifs with hfit
      · exact ⟨_, rfl, h.mount hidle hfit.2.1⟩
      · exact ⟨s, rfl, h⟩
    | disk dev ino raw =>
      exact ⟨_, rfl, h.same hidle ⟨fun _ => .refl _, rfl, rfl, rfl⟩⟩
  · exact ⟨s, rfl, h⟩

end

end Steps

/-! ## Runs -/

/-- No task has called the table yet. -/
def start (supers : ℕ → Super) (disk : ℕ → ℕ → Option RawInode) : System :=
  Coop.idle (.init supers disk) .unit

theorem sane_start (supers : ℕ → Super) (disk : ℕ → ℕ → Option RawInode) :
    Sane (fun s => (supers s).dev) (start supers disk) := by
  have hzero : ∀ w : Frame → ℕ, (start supers disk).total w = 0 := fun _ => total_idle
  refine ⟨?_, ?_, fun _ _ hframe => absurd hframe not_mem_nil,
    fun n hused => absurd hused Bool.false_ne_true⟩
  · simp only [hzero]
    exact ⟨fun _ => le_rfl, fun _ hpos => absurd hpos (lt_irrefl 0), fun _ _ hm => by cases hm⟩
  · simp only [hzero]
    have hunused : ∀ key n, ¬ Carries (start supers disk).shared n key := fun _ _ hn =>
      Bool.false_ne_true hn.1
    exact
      { superDev := fun _ => rfl
        range := fun _ hused => absurd hused Bool.false_ne_true
        sb := fun _ _ hs => nomatch hs
        fillDev := fun _ h => absurd rfl h
        once := fun _ => Nat.zero_le 1
        absent := fun _ _ h => absurd rfl h
        unique := fun key m _ _ hm => absurd hm (hunused key m)
        fillMarked := fun _ h => absurd rfl h
        carryMarked := fun key n _ hn => absurd hn (hunused key n) }

/-- In every run whose events are admissible, no two slots in use ever carry the same key. -/
theorem inode_keys_unique {supers : ℕ → Super} {disk : ℕ → ℕ → Option RawInode}
    (hdistinct : ∀ a < nrSuper, ∀ b < nrSuper, (supers a).dev ≠ 0 →
      (supers a).dev = (supers b).dev → a = b)
    {events : List Event} (hevents : Guarded step Admissible events (start supers disk)) :
    ∃ final, run step events (start supers disk) = .ok final ∧ UniqueKeys final.shared := by
  have hstep : ∀ (s : System) (event : Event), Sane (fun s => (supers s).dev) s →
      Admissible s event → ∃ after, step s event = .ok after ∧
        Sane (fun s => (supers s).dev) after := by
    intro s event hs hadm
    cases event with
    | call t call => exact hs.call call
    | go t => exact hs.go (fun a b ha hb heq => hdistinct a ha.1 b hb.1 ha.2 heq) hadm
    | env input => exact hs.env input
  obtain ⟨final, hrun, hfinal⟩ := run_invariant hstep (sane_start supers disk) hevents
  exact ⟨final, hrun, hfinal.uniqueKeys⟩

instance (s : System) (dev ino : ℕ) : Decidable (Alone s dev ino) := by
  unfold Alone Table.Marked
  infer_instance

instance (s : System) (frames : List Frame) : Decidable (MissesAlone s frames) := by
  unfold MissesAlone
  split <;> infer_instance

instance (s : System) (event : Event) : Decidable (Admissible s event) := by
  unfold Admissible
  cases event <;> infer_instance

/-- A minix file system with 3000 inodes, of which three are allocated. -/
def oneSuper : ℕ → Super
  | 0 =>
    { dev := 0x301, ext4 := false, readOnly := false, ninodes := 3000
      imap := fun i => if i = 0 then some fun j => j == 0 || j == 1 || j == 2000 else none }
  | _ => { dev := 0, ext4 := false, readOnly := false, ninodes := 0, imap := fun _ => none }

/-- Its inodes are directories. -/
def directories (_ _ : ℕ) : Option RawInode := some { mode := .directory, nlink := 1 }

/-- Task 1 looks up an inode that task 0 is reading, and waits for it. -/
theorem inode_keys_unique_two_readers :
    ∃ final, run step [.call 0 (.iget 0 2000 true), .go 0, .go 0, .go 0, .go 0,
        .call 1 (.iget 0 2000 true), .go 1, .go 1, .go 1, .go 0, .go 1] (start oneSuper directories) =
      .ok final ∧ UniqueKeys final.shared :=
  inode_keys_unique (by decide) (guarded_of_check (by decide +kernel))

/-- Two slots in use with the same key. -/
def Twice (m n : ℕ) (s : System) : Prop :=
  (s.shared.inodes m).inUse = true ∧ (s.shared.inodes n).inUse = true ∧
    (s.shared.inodes m).dev = (s.shared.inodes n).dev ∧
    (s.shared.inodes m).ino = (s.shared.inodes n).ino ∧ m ≠ n

instance (m n : ℕ) : DecidablePred (Twice m n) := fun s => by
  unfold Twice
  infer_instance

/-- Task 0 takes every slot: it reads the root directory and makes 63 inodes in it. -/
def crowd : List Event :=
  .call 0 (.iget 0 1 true) :: List.replicate 5 (.go 0) ++
    (List.replicate 63 [Event.call 0 (.newInode (some 0)), .go 0, .go 0]).flatten

/-- Tasks 1 and 2 miss the same inode and sleep until there is a slot.  Task 0 lets two slots
go, and each of them fills in the inode. -/
def racing : List Event :=
  crowd ++ .call 1 (.iget 0 2000 true) :: List.replicate 3 (.go 1) ++
    .call 2 (.iget 0 2000 true) :: List.replicate 3 (.go 2) ++
    .call 0 (.iput (some 5)) :: List.replicate 6 (.go 0) ++
    .call 0 (.iput (some 6)) :: List.replicate 6 (.go 0) ++ [.go 1, .go 1, .go 1, .go 2]

/-- Two slots in use carry the same key after that. -/
theorem racing_igets_duplicate :
    ∃ final, run step racing (start oneSuper directories) = .ok final ∧ Twice 5 6 final ∧
      ¬ UniqueKeys final.shared := by
  have htwice : endsIn (Twice 5 6) (run step racing (start oneSuper directories)) = true := by
    decide +kernel
  obtain ⟨final, hrun, hfinal⟩ := exists_of_endsIn htwice
  have ⟨hm, hn, hmUsed, hnUsed, hne⟩ := hfinal
  exact ⟨final, hrun, hfinal, fun hunique => hne (hunique _ _ hm hn hmUsed hnUsed)⟩

end Shitix.Inodes
