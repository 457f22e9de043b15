import Shitix.Mm.Places
import Shitix.Sharing.Ops

/-!
# The end of an address space

`free_user_pages` walks through the tables of an address space, drops its user
pages and frees the tables, deepest first.  It changes no table: the entries of a
freed table stay as they were, and only the counts of frames move.  So the state
on the way is the state at the start with some pages and some tables struck off,
and `Dropped` says that the accounts are right after striking them off.  The
loops strike off what is below one slot after the other (`freeTable_spec`).
-/

namespace Shitix.Paging

open Mem Function

open Classical in
/-- The labels without those of the struck-off tables of `root`. -/
noncomputable def hideLabels (root : Frame) (gone : ℕ → ℕ → Prop) (label : Frame → Option Label)
    (t : Frame) : Option Label :=
  match label t with
  | some (.own r height pre) => if r = root ∧ gone height pre then none else label t
  | _ => label t

open Classical in
/-- The slots without the struck-off pages of `root`. -/
noncomputable def hideSlots (root : Frame) (gone : ℕ → Prop) (map : Slot → Option Frame)
    (x : Slot) : Option Frame :=
  if x.1 = root ∧ gone x.2.val then none else map x

variable {s₀ s : Mem} {live : List Frame} {label : Frame → Option Label} {origin : Frames}
  {root t : Frame} {pages pages' : ℕ → Prop} {tables tables' : ℕ → ℕ → Prop}
  {map : Slot → Option Frame} {x : Slot} {height pre : ℕ}

theorem hideSlots_gone (hx : x.1 = root) (hgone : pages x.2.val) :
    hideSlots root pages map x = none :=
  if_pos ⟨hx, hgone⟩

theorem hideSlots_of_not (h : x.1 = root → ¬ pages x.2.val) : hideSlots root pages map x = map x :=
  if_neg fun hgone => h hgone.1 hgone.2

theorem hideLabels_gone (hl : label t = some (.own root height pre)) (hgone : tables height pre) :
    hideLabels root tables label t = none := by
  unfold hideLabels
  rw [hl]
  exact if_pos ⟨rfl, hgone⟩

theorem hideLabels_of_not
    (h : ∀ height pre, label t = some (.own root height pre) → ¬ tables height pre) :
    hideLabels root tables label t = label t := by
  unfold hideLabels
  split
  · next r height pre hl =>
    exact if_neg fun hgone => h height pre (by rw [hl, hgone.1]) hgone.2
  · rfl

theorem hideLabels_eq_some {l : Label} (h : hideLabels root tables label t = some l) :
    label t = some l ∧ ∀ height pre, l = .own root height pre → ¬ tables height pre := by
  have hnot : ∀ height pre, label t = some (.own root height pre) → ¬ tables height pre :=
    fun height pre hl hgone => by
      rw [hideLabels_gone hl hgone] at h
      cases h
  rw [hideLabels_of_not hnot] at h
  exact ⟨h, fun height pre heq => hnot height pre (heq ▸ h)⟩

theorem hideSlots_congr (h : x.1 = root → map x ≠ none → (pages x.2.val ↔ pages' x.2.val)) :
    hideSlots root pages map x = hideSlots root pages' map x := by
  unfold hideSlots
  by_cases hnone : map x = none
  · simp [hnone]
  · classical exact if_congr (and_congr_right fun hr => h hr hnone) rfl rfl

theorem hideLabels_congr (h : ∀ height pre, label t = some (.own root height pre) →
      (tables height pre ↔ tables' height pre)) :
    hideLabels root tables label t = hideLabels root tables' label t := by
  unfold hideLabels
  split
  · next r height pre hl =>
    classical exact if_congr (and_congr_right fun hr => h height pre (hr ▸ hl)) rfl rfl
  · rfl

/-- The accounts are right once `pages` and `tables` of `root` are struck off. -/
structure Dropped (s₀ : Mem) (live : List Frame) (label : Frame → Option Label)
    (origin : Frames) (root : Frame) (pages : ℕ → Prop) (tables : ℕ → ℕ → Prop)
    (s : Mem) : Prop where
  words : s.word = s₀.word
  ledger : Ledger (hideSlots root pages (view s₀ live)) (writable s₀ live) s.frames
    (hideLabels root tables label) origin
  kept : ∀ t l, hideLabels root tables label t = some l →
    s.frames.memMap t.toNat = s₀.frames.memMap t.toNat
  nrPages : s.frames.nrPages = s₀.frames.nrPages
  consistent : s.frames.Consistent
  boot : s.frames.memMap bootPml4.toNat ≠ 0

theorem Dropped.congr (h : Dropped s₀ live label origin root pages tables s)
    (hpages : ∀ v : Fin (2 ^ 35), view s₀ live (root, v) ≠ none → (pages v.val ↔ pages' v.val))
    (htables : ∀ t height pre, label t = some (.own root height pre) →
      (tables height pre ↔ tables' height pre)) :
    Dropped s₀ live label origin root pages' tables' s := by
  have hslots : hideSlots root pages (view s₀ live) = hideSlots root pages' (view s₀ live) :=
    funext fun x => hideSlots_congr fun hx hsome => hpages x.2 (by rwa [← hx])
  have hlabels : hideLabels root tables label = hideLabels root tables' label :=
    funext fun t => hideLabels_congr (htables t)
  exact ⟨h.words, hslots ▸ hlabels ▸ h.ledger, hlabels ▸ h.kept, h.nrPages, h.consistent, h.boot⟩

/-! ## One page -/

section Loops

variable (hsane : Sane s₀ live label origin) (hroot : root ∈ live) {pt : Frame}

/-- Dropping a mapping of a frame held once: the counts of other frames stay. -/
theorem dropped_counts {frames : Frames} (hconsistent : frames.Consistent) {f : Frame}
    (hlt : f.toNat < frames.nrPages) (hone : frames.memMap f.toNat = 1) {frames' : Frames}
    (hframes : frames' = if (frames.pageRefDec f.toNat).1 = 0 then
      (frames.pageRefDec f.toNat).2.freePage f.toNat else (frames.pageRefDec f.toNat).2) :
    frames'.nrPages = frames.nrPages ∧ frames'.Consistent ∧
      ∀ g : Frame, g ≠ f → frames'.memMap g.toNat = frames.memMap g.toNat := by
  obtain ⟨hnr, hmap, hdec⟩ := hconsistent.pageRefDec f.toNat
  rw [hframes]
  split_ifs
  · obtain ⟨hnr', -, hrest⟩ := Ledger.freed_counts (frames.pageRefDec f.toNat).2
      (hnr.symm ▸ hlt) (by rw [hmap, hone])
    exact ⟨hnr'.trans hnr, hdec.freePage _, fun g hg => by rw [(hrest g hg).1, hmap]⟩
  · exact ⟨hnr, hdec, fun g _ => by rw [hmap]⟩

theorem Dropped.entry (h : Dropped s₀ live label origin root pages tables s) (t : Frame) (i : ℕ) :
    s.entry t i = s₀.entry t i := by
  rw [Mem.entry, h.words, Mem.entry]

include hsane hroot

theorem Dropped.freeLeaf (h : Dropped s₀ live label origin root pages tables s)
    (hpt : label pt = some (.own root 0 pre)) {i : ℕ} (hi : i < 512) (hlow : pre * 512 + i < 2 ^ 35)
    (hnew : ¬ pages (pre * 512 + i)) :
    Dropped s₀ live label origin root (fun v => pages v ∨ v = pre * 512 + i) tables
      (Paging.freeLeaf s (s₀.entry pt i)) := by
  have htables := hsane.tables
  -- the slot of the page
  have hslot : view s₀ live (root, ⟨pre * 512 + i, hlow⟩) = userFrame (s₀.entry pt i) := by
    have hentry : pageEntry s₀ root ((pre * 512 + i) * 4096) = s₀.entry pt i := by
      have hkey : (pre * 512 + i) * 4096 / 4096 = pre * 512 + i := by omega
      have hpre : (pre * 512 + i) / 512 ^ (0 + 1) = pre := by
        rw [pow_one, digit_div hi]
      rw [pageEntry, hkey, htables.lookup_own hpt hpre, Radix.lookup, digit_mod hi]
      rfl
    simp [view, hroot, hentry]
  have hupdate : hideSlots root (fun v => pages v ∨ v = pre * 512 + i) (view s₀ live) =
      update (hideSlots root pages (view s₀ live)) (root, ⟨pre * 512 + i, hlow⟩) none := by
    funext x
    by_cases hx : x = (root, ⟨pre * 512 + i, hlow⟩)
    · rw [hx, update_self]
      exact hideSlots_gone rfl (.inr rfl)
    · rw [update_of_ne hx]
      exact hideSlots_congr fun hr _ => or_iff_left fun hv => hx (Prod.ext hr (Fin.ext hv))
  have hvisible : hideSlots root pages (view s₀ live) (root, ⟨pre * 512 + i, hlow⟩) =
      userFrame (s₀.entry pt i) := by
    rw [hideSlots_of_not fun _ => hnew, hslot]
  cases huser : userFrame (s₀.entry pt i) with
  | none =>
    -- nothing of the user's there: the page counts as struck off
    have hsame : Paging.freeLeaf s (s₀.entry pt i) = s := by
      unfold Paging.freeLeaf
      have : (!(s₀.entry pt i).present || !(s₀.entry pt i).user) = true := by
        unfold userFrame at huser
        split_ifs at huser with hboth
        rw [← Bool.not_and, Bool.not_eq_true']
        simpa using hboth
      rw [if_pos this, ite_self]
    rw [hsame]
    refine { h with ledger := ?_ }
    rw [hupdate, ← huser, ← hvisible, update_eq_self]
    exact h.ledger
  | some f =>
    obtain ⟨hpresent, hu, hframe⟩ := userFrame_eq_some.mp huser
    have hres := htables.clean pt _ i hpt rfl hi hpresent
    have hx := hvisible.trans huser
    obtain ⟨hlt, hone, hnone, -⟩ := h.ledger.mapped _ f hx
    have hboot : bootPml4 ≠ f := fun heq => by
      have := h.consistent.usable _ hlt (by rw [hone]; decide)
      rw [← heq] at this
      exact absurd this (by decide)
    have hstate : Paging.freeLeaf s (s₀.entry pt i) =
        if (s.pageRefDec f).1 = 0 then (s.pageRefDec f).2.freePage f else (s.pageRefDec f).2 := by
      unfold Paging.freeLeaf
      simp [hres, hpresent, hu, hframe]
    have hframes : (Paging.freeLeaf s (s₀.entry pt i)).frames =
        if (s.frames.pageRefDec f.toNat).1 = 0 then
          (s.frames.pageRefDec f.toNat).2.freePage f.toNat
        else (s.frames.pageRefDec f.toNat).2 := by
      rw [hstate, apply_ite frames]
      rfl
    have hwords : (Paging.freeLeaf s (s₀.entry pt i)).word = s.word := by
      rw [hstate]
      split_ifs <;> rfl
    obtain ⟨hnr, hconsistent, hrest⟩ := dropped_counts h.consistent hlt hone hframes
    refine ⟨hwords.trans h.words, ?_, fun t l hl => ?_, hnr.trans h.nrPages, hconsistent, ?_⟩
    · rw [hupdate, hframes]
      refine (h.ledger.drop hx).mono fun y g hy hw => ?_
      have hne : y ≠ (root, ⟨pre * 512 + i, hlow⟩) := fun heq => by
        rw [heq, update_self] at hy
        cases hy
      rwa [update_of_ne hne]
    · have hne : t ≠ f := fun heq => by
        rw [heq, hnone] at hl
        cases hl
      rw [hrest t hne, h.kept t l hl]
    · rw [hrest _ hboot]
      exact h.boot

/-! ## One table -/

omit hroot in
/-- A table whose pages and tables are gone is freed. -/
theorem Dropped.freeTable (h : Dropped s₀ live label origin root pages tables s)
    (ht : label t = some (.own root height pre)) (hnew : ¬ tables height pre) :
    Dropped s₀ live label origin root pages
      (fun height' pre' => tables height' pre' ∨ height' = height ∧ pre' = pre)
      (s.freePage t) := by
  have htables := hsane.tables
  have hvisible : hideLabels root tables label t = some (.own root height pre) := by
    rw [hideLabels_of_not, ht]
    intro height' pre' hl
    rw [ht] at hl
    cases hl
    exact hnew
  have hone : s.frames.memMap t.toNat = 1 :=
    (h.kept t _ hvisible).trans (htables.own t root height pre ht)
  have hlt : t.toNat < s.frames.nrPages := h.nrPages ▸ htables.managed t _ ht
  have hboot : bootPml4 ≠ t := fun heq => by
    rw [← heq, hsane.boot.unlabelled] at ht
    cases ht
  obtain ⟨hnr, -, hrest⟩ := Ledger.freed_counts s.frames hlt hone
  have hsame : ∀ x, x ≠ t → hideLabels root
      (fun height' pre' => tables height' pre' ∨ height' = height ∧ pre' = pre) label x =
      hideLabels root tables label x := by
    refine fun x hx => hideLabels_congr fun height' pre' hl => or_iff_left ?_
    rintro ⟨rfl, rfl⟩
    exact hx (htables.own_unique hl ht)
  have hnone : hideLabels root
      (fun height' pre' => tables height' pre' ∨ height' = height ∧ pre' = pre) label t = none :=
    hideLabels_gone ht (.inr ⟨rfl, rfl⟩)
  refine ⟨h.words, h.ledger.retire hvisible hlt hone hnone hsame, fun x l hl => ?_,
    hnr.trans h.nrPages, h.consistent.freePage _, ?_⟩
  · have hx : x ≠ t := fun heq => by
      rw [heq, hnone] at hl
      cases hl
    rw [hsame x hx] at hl
    rw [freePage_frames, (hrest x hx).1, h.kept x l hl]
  · rw [freePage_frames, (hrest _ hboot).1]
    exact h.boot

/-! ## The loops -/

/-- The loops of `free_user_pages` below a table of the given height. -/
def freeLevel : ℕ → Mem → Frame → Mem
  | 0 => freePt
  | n + 1 => fun s t => Paging.freeTable s t 512 (freeLevel n)

theorem freePt_spec (h : Dropped s₀ live label origin root pages tables s)
    (hpt : label pt = some (.own root 0 pre)) (hpages : ∀ v, v / 512 ^ (0 + 1) = pre → ¬ pages v) :
    Dropped s₀ live label origin root (fun v => pages v ∨ v / 512 ^ (0 + 1) = pre) tables
      (freePt s pt) := by
  have hlower := hsane.tables.own_lower hpt (by omega)
  have hloop : Dropped s₀ live label origin root
      (fun v => pages v ∨ ∃ i < 512, v = pre * 512 + i) tables (freePt s pt) := by
    refine foldl_range (fun k s => Dropped s₀ live label origin root
      (fun v => pages v ∨ ∃ i < k, v = pre * 512 + i) tables s) ?_ fun i s hi hinv => ?_
    · exact h.congr (fun v _ => by simp) fun _ _ _ _ => Iff.rfl
    · have hlow : pre * 512 + i < 2 ^ 35 := by
        omega
      have hnew : ¬ (pages (pre * 512 + i) ∨ ∃ j < i, pre * 512 + i = pre * 512 + j) := by
        rintro (hp | ⟨j, hj, heq⟩)
        · exact hpages _ (by rw [pow_one, digit_div hi]) hp
        · omega
      rw [hinv.entry]
      refine (hinv.freeLeaf hsane hroot hpt hi hlow hnew).congr (fun v _ => ?_)
        fun _ _ _ _ => Iff.rfl
      rw [Nat.exists_lt_succ_right, or_assoc]
  refine hloop.congr (fun v _ => or_congr_right ?_) fun _ _ _ _ => Iff.rfl
  exact ⟨fun ⟨i, hi, hv⟩ => hv ▸ digit_div hi, fun hv =>
    ⟨v.val % 512, Nat.mod_lt _ (by omega), by omega⟩⟩

/-- What the loops below a table of height `n` achieve: its pages and the tables
below it are struck off. -/
def Frees (s₀ : Mem) (live : List Frame) (label : Frame → Option Label) (origin : Frames)
    (root : Frame) (n : ℕ) (free : Mem → Frame → Mem) : Prop :=
  ∀ (t : Frame) (pre : ℕ) (pages : ℕ → Prop) (tables : ℕ → ℕ → Prop) (s : Mem),
    label t = some (.own root n pre) → Dropped s₀ live label origin root pages tables s →
    (∀ v, v / 512 ^ (n + 1) = pre → ¬ pages v) →
    (∀ height pre', height < n → pre' / 512 ^ (n - height) = pre → ¬ tables height pre') →
    Dropped s₀ live label origin root (fun v => pages v ∨ v / 512 ^ (n + 1) = pre)
      (fun height pre' => tables height pre' ∨ height < n ∧ pre' / 512 ^ (n - height) = pre)
      (free s t)

omit hroot in
/-- The loop over a table, given what the inner loops achieve. -/
theorem freeTable_spec {n size : ℕ} {below : Mem → Frame → Mem}
    (hbelow : Frees s₀ live label origin root n below) (hsize : size ≤ 512)
    (hsize' : n = 2 → size ≤ 256) (h : Dropped s₀ live label origin root pages tables s)
    (ht : label t = some (.own root (n + 1) pre))
    (hpages : ∀ v, v / 512 ^ (n + 2) = pre → ¬ pages v)
    (htables : ∀ height pre', height ≤ n → pre' / 512 ^ (n + 1 - height) = pre →
      ¬ tables height pre') :
    Dropped s₀ live label origin root
      (fun v => pages v ∨ ∃ i < size, v / 512 ^ (n + 1) = pre * 512 + i)
      (fun height pre' => tables height pre' ∨
        height ≤ n ∧ ∃ i < size, pre' / 512 ^ (n - height) = pre * 512 + i)
      (Paging.freeTable s t size below) := by
  refine foldl_range (fun k s => Dropped s₀ live label origin root
    (fun v => pages v ∨ ∃ i < k, v / 512 ^ (n + 1) = pre * 512 + i)
    (fun height pre' => tables height pre' ∨
      height ≤ n ∧ ∃ i < k, pre' / 512 ^ (n - height) = pre * 512 + i) s) ?_ fun i s hi hinv => ?_
  · exact h.congr (fun v _ => by simp) fun _ _ _ _ => by simp
  have hi' : i < 512 := by omega
  rw [hinv.entry]
  by_cases hskip : (s₀.entry t i).present = true → (s₀.entry t i).huge = true
  · -- no tables and no user pages below this slot
    have hstay : (if (!(s₀.entry t i).present) = true then s else if (s₀.entry t i).huge = true
        then s else (below s (s₀.entry t i).frame).freePage (s₀.entry t i).frame) = s := by
      by_cases hpresent : (s₀.entry t i).present = true
      · simp [hskip hpresent]
      · simp [hpresent]
    obtain ⟨hslot, hquiet⟩ := hsane.tables.slot_skipped ht hi' hskip
    rw [hstay]
    refine hinv.congr (fun v hv => ?_) fun t' height pre' hl => ?_
    · refine or_congr_right ?_
      rw [Nat.exists_lt_succ_right, or_iff_left]
      intro hkey
      have hempty : view s₀ live (root, v) = none := by
        have := hquiet v.val hkey
        rw [view, pageEntry]
        simp [userFrame, this]
      exact hv hempty
    · refine or_congr_right (and_congr_right fun hle => ?_)
      rw [Nat.exists_lt_succ_right, or_iff_left]
      exact fun hpre => hsane.tables.no_table ht hi' hslot hle hpre hl
  · rw [Classical.not_imp] at hskip
    obtain ⟨hpresent, hhuge⟩ := hskip
    have hslot : (slots s₀).slot (n + 1) t i = .inl (s₀.entry t i).frame := by
      simp [slots, hpresent, hhuge]
    have hchild := hsane.tables.child_own ht hi' (fun hn => lt_of_lt_of_le hi (hsize' hn)) hslot
    simp only [hpresent, hhuge]
    have hinner := hbelow _ _ _ _ s hchild hinv ?_ ?_
    · refine (hinner.freeTable hsane hchild ?_).congr (fun v _ => ?_) fun t' height pre' hl => ?_
      · rintro ((hgone | ⟨-, j, hj, heq⟩) | ⟨hlt, -⟩)
        · refine htables n _ le_rfl ?_ hgone
          rw [Nat.add_sub_cancel_left, pow_one, digit_div hi']
        · rw [Nat.sub_self] at heq
          omega
        · omega
      · rw [Nat.exists_lt_succ_right, or_assoc]
      · rw [Nat.exists_lt_succ_right, or_assoc, or_assoc]
        refine or_congr_right ⟨?_, ?_⟩
        · rintro (⟨hle, hold⟩ | ⟨hlt, hnew⟩ | ⟨rfl, rfl⟩)
          · exact ⟨hle, .inl hold⟩
          · exact ⟨hlt.le, .inr hnew⟩
          · exact ⟨le_rfl, .inr (by rw [Nat.sub_self, pow_zero, Nat.div_one])⟩
        · rintro ⟨hle, hold | hnew⟩
          · exact .inl ⟨hle, hold⟩
          · rcases hle.lt_or_eq with hlt | rfl
            · exact .inr (.inl ⟨hlt, hnew⟩)
            · rw [Nat.sub_self, pow_zero, Nat.div_one] at hnew
              exact .inr (.inr ⟨rfl, hnew⟩)
    · rintro v hv (hgone | ⟨j, hj, heq⟩)
      · exact hpages v (by rw [div_pow_succ, hv, digit_div hi']) hgone
      · omega
    · rintro height pre' hlt hpre (hgone | ⟨-, j, hj, heq⟩)
      · refine htables height pre' hlt.le ?_ hgone
        rw [show n + 1 - height = n - height + 1 by omega, div_pow_succ, hpre, digit_div hi']
      · omega

theorem freeLevel_spec {n : ℕ} (hn : n ≤ 2) : Frees s₀ live label origin root n (freeLevel n) := by
  induction n with
  | zero =>
    intro t pre pages tables s ht h hpages _
    exact (freePt_spec hsane hroot h ht hpages).congr (fun _ _ => Iff.rfl) fun _ _ _ _ => by simp
  | succ n ih =>
    intro t pre pages tables s ht h hpages htables
    have hloop := freeTable_spec hsane (ih (by omega)) le_rfl (fun hn' => by omega) h ht
      hpages fun height pre' hle => htables height pre' (by omega)
    have hdigit : ∀ a, (∃ i < 512, a = pre * 512 + i) ↔ a / 512 = pre := fun a =>
      ⟨fun ⟨i, hi, ha⟩ => ha ▸ digit_div hi, fun ha =>
        ⟨a % 512, Nat.mod_lt _ (by omega), by omega⟩⟩
    refine hloop.congr (fun v _ => ?_) fun t' height pre' hl => ?_
    · rw [hdigit, ← div_pow_succ]
    · refine or_congr_right ?_
      rw [Nat.lt_succ_iff]
      refine and_congr_right fun hle => ?_
      rw [hdigit, ← div_pow_succ, show n + 1 - height = n - height + 1 by omega]

end Loops

/-! ## All of it -/

/-- The address space is freed: `free_user_pages`, and then its PML4. -/
def exitSpace (s : Mem) (root : Frame) : Mem := (freeUserPages s root).freePage root

/-- Everything of the address space is struck off. -/
theorem dropped_exitSpace (h : Sane s live label origin) (hroot : root ∈ live) :
    Dropped s live label origin root (fun _ => True) (fun _ _ => True) (exitSpace s root) := by
  have hpml4 := h.space root hroot
  have hstart : Dropped s live label origin root (fun _ => False) (fun _ _ => False) s := by
    refine ⟨rfl, ?_, fun _ _ _ => rfl, rfl, h.tables.consistent, h.boot.held⟩
    have hslots : hideSlots root (fun _ => False) (view s live) = view s live :=
      funext fun x => hideSlots_of_not fun _ hfalse => hfalse
    have hlabels : hideLabels root (fun _ _ => False) label = label :=
      funext fun t => hideLabels_of_not fun _ _ _ hfalse => hfalse
    rw [hslots, hlabels]
    exact h.ledger
  have hloops := freeTable_spec h (freeLevel_spec h hroot le_rfl) (by omega)
    (fun _ => le_rfl) hstart hpml4 (fun _ _ hfalse => hfalse) fun _ _ _ _ hfalse => hfalse
  have hall := hloops.freeTable h hpml4 (by rintro (hfalse | ⟨hle, -⟩); exacts [hfalse, by omega])
  refine hall.congr (fun v _ => iff_true_intro (.inr ⟨v.val / 512 ^ (2 + 1), ?_, ?_⟩))
    fun t height pre hl => iff_true_intro ?_
  · omega
  · omega
  · rcases (h.tables.height_le hl).lt_or_eq with hlt | rfl
    · refine .inl (.inr ⟨by omega, _, h.tables.own_lower hl hlt, ?_⟩)
      omega
    · exact .inr ⟨rfl, ((h.tables.rooted t root 3 pre hl).2 rfl).2⟩

/-- `exit` keeps the accounts of the other address spaces. -/
theorem Sane.exitSpace (h : Sane s live label origin) (hroot : root ∈ live)
    (hnodup : live.Nodup) : ∃ label', Sane (exitSpace s root) (live.erase root) label' origin := by
  have hdropped := dropped_exitSpace h hroot
  generalize Paging.exitSpace s root = s' at hdropped ⊢
  generalize hlabel' : hideLabels root (fun _ _ => True) label = label'
  -- the labels left are those of other address spaces and of the kernel
  have hold : ∀ t l, label' t = some l →
      label t = some l ∧ ∀ height pre, l ≠ .own root height pre := by
    intro t l hl
    rw [← hlabel'] at hl
    obtain ⟨hl, hother⟩ := hideLabels_eq_some hl
    exact ⟨hl, fun height pre heq => hother height pre heq trivial⟩
  have hnew : ∀ t l, label t = some l → (∀ height pre, l ≠ .own root height pre) →
      label' t = some l := by
    intro t l hl hother
    rw [← hlabel', hideLabels_of_not, hl]
    intro height pre hown
    rw [hl] at hown
    exact absurd (Option.some.inj hown) (hother height pre)
  have hslot : ∀ height t i, (slots s').slot height t i = (slots s).slot height t i :=
    fun height t i => slot_congr (hdropped.entry t i) height
  have hentry : ∀ r va, pageEntry s' r va = pageEntry s r va := by
    intro r va
    have : slots s' = slots s := by
      unfold slots
      simp [hdropped.entry]
    rw [pageEntry, this, pageEntry]
  have herase : ∀ r, r ∈ live.erase root ↔ r ≠ root ∧ r ∈ live := fun r => hnodup.mem_erase_iff
  have htables : Tables s' label' := by
    refine ⟨?_, ?_, ?_, ?_, ?_, ?_, ?_, ?_, ?_, hdropped.consistent⟩
    · intro t l n i hl hn hi hp hh
      obtain ⟨hl, hother⟩ := hold t l hl
      rw [hdropped.entry] at hp hh ⊢
      refine hnew _ _ (h.tables.child t l n i hl hn hi hp hh) fun height pre heq => ?_
      obtain ⟨pre', heq', -⟩ := Label.step_eq_own heq hn
      exact hother _ _ heq'
    · intro t l i hl
      rw [hdropped.entry]
      exact h.tables.flat t l i (hold t l hl).1
    · intro t l i hl
      rw [hdropped.entry]
      exact h.tables.huge t l i (hold t l hl).1
    · intro t l i hl
      rw [hdropped.entry]
      exact h.tables.clean t l i (hold t l hl).1
    · intro t r height pre hl
      exact h.tables.rooted t r height pre (hold t _ hl).1
    · intro t r height pre hl hlt
      obtain ⟨hl, hother⟩ := hold t _ hl
      obtain ⟨up, hup, hlink⟩ := h.tables.placed t r height pre hl hlt
      refine ⟨up, hnew up _ hup fun height' pre' heq => ?_, (hslot _ _ _).trans hlink⟩
      cases heq
      exact hother _ _ rfl
    · intro t l hl
      rw [hdropped.nrPages]
      exact h.tables.managed t l (hold t l hl).1
    · intro t l hl
      rw [hdropped.kept t l (hlabel' ▸ hl)]
      exact h.tables.held t l (hold t l hl).1
    · intro t r height pre hl
      rw [hdropped.kept t _ (hlabel' ▸ hl)]
      exact h.tables.own t r height pre (hold t _ hl).1
  refine ⟨label', ⟨⟨htables, ?_, ?_, ?_, ?_, ?_⟩, ?_⟩⟩
  · intro r hr
    obtain ⟨hne, hr⟩ := (herase r).mp hr
    exact hnew r _ (h.space r hr) fun height pre heq => hne (by cases heq; rfl)
  · intro t r height pre hl
    obtain ⟨hl, hother⟩ := hold t _ hl
    exact (herase r).mpr ⟨fun heq => hother height pre (by rw [heq]), h.owner t r height pre hl⟩
  · intro r hr va
    rw [hentry]
    exact h.pages r ((herase r).mp hr).2 va
  · intro r hr
    obtain ⟨hne, hr⟩ := (herase r).mp hr
    obtain ⟨pd, hpd⟩ := h.identity r hr
    exact ⟨pd, hnew pd _ hpd fun height pre heq => hne (by cases heq; rfl)⟩
  · refine h.boot.congr h.tables (fun t height pre hl => hnew t _ hl fun _ _ heq => by cases heq)
      (by rw [hdropped.words]) (fun t _ _ _ => by rw [hdropped.words]) ?_ hdropped.boot
    by_contra hsome
    obtain ⟨l, hl⟩ := Option.ne_none_iff_exists'.mp hsome
    have := (hold _ l hl).1
    rw [h.boot.unlabelled] at this
    cases this
  · have hview : view s' (live.erase root) = hideSlots root (fun _ => True) (view s live) := by
      funext x
      by_cases hx : x.1 = root
      · rw [hideSlots_gone hx trivial, view, if_neg]
        exact fun hmem => ((herase _).mp hmem).1 hx
      · rw [hideSlots_of_not fun hr => absurd hr hx, view, view, hentry]
        simp [herase, ne_eq, hx]
    rw [hview, ← hlabel']
    refine hdropped.ledger.mono fun x f hx hw => ?_
    unfold writable at hw ⊢
    rw [hentry] at hw
    simp only [Bool.and_eq_true, decide_eq_true_eq, herase] at hw ⊢
    exact ⟨hw.1.2, hw.2⟩

end Shitix.Paging
