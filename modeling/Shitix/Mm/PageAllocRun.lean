import Shitix.Lib.Run
import Shitix.Mm.PageAllocInit

/-!
# Every run of the allocator

The allocator as a machine: its state together with the number of holds the
rest of the kernel has on each frame.  `get_free_page_raw` and `get_page` add a
hold, `free_page` removes one.  A holder may store into its own page, and
`free_page` may be called on any address at all.

The invariant `Sound` ties the holds to the `mem_map`: the entry of a frame is
the number of its holds unless the frame is reserved.  Each operation keeps it
(one `step_…_sound` theorem per operation), so it holds after every run from the
state `init` leaves.
-/

namespace Shitix.PageAlloc

open Function Frames

/-- The allocator's state and the outstanding holds on each frame. -/
structure Machine where
  state : State
  holds : ℕ → ℕ

/-- The calls into the allocator, and a holder's store into its page. -/
inductive Op where
  | getFreePage
  | getPage (addr : ℕ)
  | freePage (addr : ℕ)
  | store (addr value : ℕ)
deriving DecidableEq, Repr

/-- One operation. -/
def step (debug : Bool) (m : Machine) : Op → Except Panic Machine
  | .getFreePage => do
    let (page, s) ← getFreePageLocked debug m.state
    if page = 0 then return { m with state := s }
    else return ⟨s, update m.holds (mapNr page) (m.holds (mapNr page) + 1)⟩
  | .getPage addr => do
    let s ← getPage m.state addr
    return ⟨s, update m.holds (mapNr addr) (m.holds (mapNr addr) + 1)⟩
  | .freePage addr => do
    let s ← freePageLocked debug m.state addr
    return ⟨s, update m.holds (mapNr addr) (m.holds (mapNr addr) - 1)⟩
  | .store addr value =>
    .ok { m with state := { m.state with word := update m.state.word addr value } }

/-- What the callers keep to: a second hold only on a held page, with the count
short of the reserved bit, and stores only into held pages.  The debug build
takes a page whose second word is the cookie for a free one. -/
def Proper (debug : Bool) (m : Machine) : Op → Prop
  | .getFreePage => True
  | .getPage addr => 0 < m.holds (mapNr addr) ∧ m.holds (mapNr addr) < 32767
  | .freePage _ => True
  | .store addr value => 0 < m.holds (mapNr addr) ∧ addr % 8 = 0 ∧
      (debug = true → addr % 4096 = 8 → value ≠ freeCookie)

/-! ## The invariant -/

/-- The `mem_map` counts the holds of every frame that is not reserved. -/
structure Accounted (f : Frames) (holds : ℕ → ℕ) : Prop where
  entry : ∀ nr < f.nrPages, f.memMap nr = holds nr ∧ holds nr ≤ 32767 ∨
    f.memMap nr = mapPageReserved ∧ holds nr = 0
  outside : ∀ nr, f.nrPages ≤ nr → holds nr = 0

/-- The invariant of the machine. -/
structure Sound (debug : Bool) (m : Machine) (f : Frames) : Prop where
  represents : Represents m.state f
  consistent : f.Consistent
  accounted : Accounted f m.holds
  cookie : debug = true → ∀ nr, 0 < m.holds nr → m.state.word (nr * 4096 + 8) ≠ freeCookie

theorem isReserved_of_le {entry : ℕ} (h : entry ≤ 32767) : isReserved entry = false :=
  Nat.testBit_lt_two_pow (by omega)

namespace Accounted

variable {f : Frames} {holds : ℕ → ℕ} {nr : ℕ}

theorem memMap_eq (h : Accounted f holds) (hheld : 0 < holds nr) :
    nr < f.nrPages ∧ f.memMap nr = holds nr ∧ holds nr ≤ 32767 := by
  have hlt : nr < f.nrPages := by
    by_contra hout
    have := h.outside nr (not_lt.mp hout)
    omega
  rcases h.entry nr hlt with hentry | hentry
  · exact ⟨hlt, hentry⟩
  · omega

/-- A free frame has no holds. -/
theorem holds_of_memMap (h : Accounted f holds) (hzero : f.memMap nr = 0) : holds nr = 0 := by
  by_contra hheld
  have := (h.memMap_eq (Nat.pos_of_ne_zero hheld)).2.1
  omega

/-- Entry and holds of one frame change together. -/
theorem update (h : Accounted f holds) {f' : Frames} {count : ℕ} (hlt : nr < f.nrPages)
    (hnr : f'.nrPages = f.nrPages) (hmap : f'.memMap = update f.memMap nr count)
    (hcount : count ≤ 32767) : Accounted f' (update holds nr count) := by
  refine ⟨fun other hother => ?_, fun other hother => ?_⟩
  · rw [hmap]
    by_cases heq : other = nr
    · subst heq
      simp [hcount]
    · simp only [update_of_ne heq]
      exact h.entry other (hnr ▸ hother)
  · rw [update_of_ne (by omega)]
    exact h.outside other (hnr ▸ hother)

end Accounted

variable {debug : Bool} {m : Machine} {f : Frames} {s : State}

theorem Sound.init {kernelEnd : ℕ} {regions : List Region} {word : ℕ → ℕ} {info : MemInfo}
    (h : init debug kernelEnd regions word = .ok (info, s)) :
    Sound debug ⟨s, fun _ => 0⟩ (initFrames kernelEnd regions) := by
  refine ⟨init_represents h, initFrames_consistent kernelEnd regions, ⟨fun nr _ => ?_, ?_⟩, ?_⟩
  · rcases initFrames_cleared kernelEnd regions nr with hentry | ⟨hentry, -⟩
    · exact .inr ⟨hentry, rfl⟩
    · exact .inl ⟨hentry, by simp⟩
  · exact fun _ _ => rfl
  · intro _ nr hheld
    simp at hheld

/-! ## The steps -/

section

variable (h : Sound debug m f) {addr : ℕ}

include h

/-- A page is handed out only when nobody holds it. -/
theorem Sound.handed_out {page : ℕ} (hget : getFreePageLocked debug m.state = .ok (page, s))
    (hpage : page ≠ 0) : m.holds (mapNr page) = 0 := by
  cases hfree : f.getFreePage with
  | none =>
    have := getFreePageLocked_empty debug h.represents
      (getFreePage_eq_none.mp hfree)
    rw [hget] at this
    cases this
    exact absurd rfl hpage
  | some taken =>
    obtain ⟨pfn, f'⟩ := taken
    have hok := (getFreePageLocked_represents debug h.represents h.consistent hfree).1
    rw [hget] at hok
    cases hok
    have hmem : pfn ∈ f.free := by
      rw [(getFreePage_eq_some hfree).1]
      exact List.mem_cons_self
    have hnr : mapNr (pfn * 4096) = pfn := by unfold mapNr; omega
    rw [hnr]
    exact h.accounted.holds_of_memMap
      ((h.consistent.mem_iff pfn (h.consistent.managed pfn hmem)).mp hmem)

theorem step_getFreePage_sound :
    ∃ m' f', step debug m .getFreePage = .ok m' ∧ Sound debug m' f' := by
  cases hfree : f.getFreePage with
  | none =>
    have hget := getFreePageLocked_empty debug h.represents
      (getFreePage_eq_none.mp hfree)
    refine ⟨m, f, ?_, h⟩
    simp [step, hget, bind, Except.bind, pure, Except.pure]
  | some taken =>
    obtain ⟨pfn, f'⟩ := taken
    obtain ⟨hget, hrep⟩ :=
      getFreePageLocked_represents debug h.represents h.consistent hfree
    obtain ⟨hlist, hf'⟩ := getFreePage_eq_some hfree
    have hmem : pfn ∈ f.free := by
      rw [hlist]
      exact List.mem_cons_self
    have habove := h.consistent.above hmem
    have hlt := h.consistent.managed pfn hmem
    have hnr : mapNr (pfn * 4096) = pfn := by unfold mapNr; omega
    have hholds : m.holds pfn = 0 :=
      h.accounted.holds_of_memMap ((h.consistent.mem_iff pfn hlt).mp hmem)
    refine ⟨⟨taken m.state pfn, update m.holds pfn 1⟩, f', ?_, hrep,
      h.consistent.getFreePage hfree, ?_, ?_⟩
    · have : pfn * 4096 ≠ 0 := by omega
      simp [step, hget, bind, Except.bind, pure, Except.pure, this, hnr, hholds]
    · exact h.accounted.update hlt (by rw [hf']; rfl) (by rw [hf']; rfl) (by omega)
    · intro hdebug nr hheld
      by_cases heq : nr = pfn
      · subst heq
        simp [taken, freeCookie]
      · simp only [update_of_ne heq] at hheld
        have := h.cookie hdebug nr hheld
        simp only [taken]
        rwa [update_of_ne (by omega)]

theorem step_getPage_sound {addr : ℕ} (hheld : 0 < m.holds (mapNr addr))
    (hfew : m.holds (mapNr addr) < 32767) :
    ∃ m' f', step debug m (.getPage addr) = .ok m' ∧ Sound debug m' f' := by
  obtain ⟨hlt, hentry, hcount⟩ := h.accounted.memMap_eq hheld
  obtain ⟨s', hget, hrep, hword⟩ := getPage_represents h.represents addr
  have hreserved : isReserved (f.memMap (mapNr addr)) = false :=
    isReserved_of_le (by omega)
  have hf' : f.getPage (mapNr addr) = { f with
      memMap := update f.memMap (mapNr addr) (m.holds (mapNr addr) + 1) } := by
    rw [Frames.getPage, if_neg (by omega), if_neg (by simp [hreserved]), hentry]
  refine ⟨⟨s', update m.holds (mapNr addr) (m.holds (mapNr addr) + 1)⟩,
    f.getPage (mapNr addr), ?_, hrep, h.consistent.getPage (by omega), ?_, ?_⟩
  · simp [step, hget, bind, Except.bind, pure, Except.pure]
  · exact h.accounted.update hlt (by rw [hf']) (by rw [hf']) (by omega)
  · intro hdebug nr hnr
    rw [hword]
    refine h.cookie hdebug nr ?_
    by_cases heq : nr = mapNr addr
    · rwa [heq]
    · simpa only [update_of_ne heq] using hnr

/-- `free_page` of an address nobody holds leaves the allocator as it is. -/
theorem Sound.free_unheld (hheld : m.holds (mapNr addr) = 0) :
    freePageLocked debug m.state addr = .ok m.state := by
  have hbase := h.represents.memMapBase
  unfold freePageLocked
  by_cases hlt : mapNr addr < f.nrPages
  · have hhigh := (h.represents.lt_high addr).mpr hlt
    rw [if_neg (by omega)]
    simp only [h.represents.mmEnt hlt]
    rcases h.accounted.entry _ hlt with hentry | hentry
    · rw [if_pos (by omega)]
    · rw [hentry.1, if_neg (by decide), if_pos (by decide)]
  · have hhigh := (h.represents.lt_high addr).not.mpr hlt
    rw [if_pos (by omega)]

theorem step_freePage_sound (addr : ℕ) :
    ∃ m' f', step debug m (.freePage addr) = .ok m' ∧ Sound debug m' f' := by
  by_cases hheld : m.holds (mapNr addr) = 0
  · refine ⟨m, f, ?_, h⟩
    have : update m.holds (mapNr addr) (m.holds (mapNr addr) - 1) = m.holds := by
      rw [show m.holds (mapNr addr) - 1 = m.holds (mapNr addr) by omega, update_eq_self]
    simp [step, h.free_unheld hheld, bind, Except.bind, pure, Except.pure, this]
  · have hpos := Nat.pos_of_ne_zero hheld
    obtain ⟨hlt, hentry, hcount⟩ := h.accounted.memMap_eq hpos
    have habove : 256 ≤ mapNr addr :=
      h.consistent.usable _ hlt (isReserved_of_le (by omega))
    obtain ⟨s', hfree, hrep, hword⟩ := freePageLocked_represents debug h.represents
      h.consistent addr fun _ _ => ⟨habove, fun hdebug => h.cookie hdebug _ hpos⟩
    have hmap : (f.freePage (mapNr addr)).nrPages = f.nrPages ∧
        (f.freePage (mapNr addr)).memMap =
          update f.memMap (mapNr addr) (m.holds (mapNr addr) - 1) := by
      have hreserved : isReserved (f.memMap (mapNr addr)) = false := isReserved_of_le (by omega)
      rw [freePage, if_neg (by omega), if_neg (by omega), if_neg (by simp [hreserved])]
      split_ifs with hone
      · exact ⟨rfl, by simp [setCounts, ← hentry, hone]⟩
      · exact ⟨rfl, by rw [hentry]⟩
    refine ⟨⟨s', update m.holds (mapNr addr) (m.holds (mapNr addr) - 1)⟩,
      f.freePage (mapNr addr), ?_, hrep, h.consistent.freePage _, ?_, ?_⟩
    · simp [step, hfree, bind, Except.bind, pure, Except.pure]
    · exact h.accounted.update hlt hmap.1 hmap.2 (by omega)
    · intro hdebug nr hnr
      -- the page itself is written only when its last hold goes, and then it is not held
      have hkeep : s'.word (nr * 4096 + 8) = m.state.word (nr * 4096 + 8) := by
        refine hword _ fun heq hone => ?_
        have : nr = mapNr addr := by omega
        simp only [this, update_self] at hnr
        omega
      rw [hkeep]
      refine h.cookie hdebug nr ?_
      by_cases heq : nr = mapNr addr
      · rwa [heq]
      · simpa only [update_of_ne heq] using hnr

theorem step_store_sound {value : ℕ} (hheld : 0 < m.holds (mapNr addr)) (haligned : addr % 8 = 0)
    (hvalue : debug = true → addr % 4096 = 8 → value ≠ freeCookie) :
    ∃ m' f', step debug m (.store addr value) = .ok m' ∧ Sound debug m' f' := by
  refine ⟨_, f, rfl, h.represents.of_word fun a ha => ?_, h.consistent, h.accounted, ?_⟩
  · refine update_of_ne (fun heq => ?_) _ _
    -- a free frame has no holder
    subst heq
    have := h.accounted.holds_of_memMap
      ((h.consistent.mem_iff _ (h.consistent.managed _ ha)).mp ha)
    simp only [mapNr] at hheld
    omega
  · intro hdebug nr hnr
    dsimp only
    by_cases heq : nr * 4096 + 8 = addr
    · rw [heq, update_self]
      exact hvalue hdebug (by omega)
    · rw [update_of_ne heq]
      exact h.cookie hdebug nr hnr

end

theorem step_sound (m : Machine) (op : Op) (h : ∃ f, Sound debug m f) (hop : Proper debug m op) :
    ∃ m', step debug m op = .ok m' ∧ ∃ f, Sound debug m' f := by
  obtain ⟨f, h⟩ := h
  have hstep : ∃ m' f', step debug m op = .ok m' ∧ Sound debug m' f' := by
    cases op with
    | getFreePage => exact step_getFreePage_sound h
    | getPage addr => exact step_getPage_sound h hop.1 hop.2
    | freePage addr => exact step_freePage_sound h addr
    | store addr value => exact step_store_sound h hop.1 hop.2.1 hop.2.2
  obtain ⟨m', f', hok, h'⟩ := hstep
  exact ⟨m', hok, f', h'⟩

/-! ## Every run -/

/-- After every run from the state `init` leaves: the list is a duplicate-free
chain of exactly the managed pages with an empty entry, `NR_FREE_PAGES` long; a
page is handed out only when it has no holds; and freeing an address that is not
held changes nothing. -/
theorem allocator_run_sound {kernelEnd : ℕ} {regions : List Region} {word : ℕ → ℕ}
    {info : MemInfo} {s : State}
    (hinit : init debug kernelEnd regions word = .ok (info, s)) (ops : List Op)
    (hops : Guarded (step debug) (Proper debug) ops ⟨s, fun _ => 0⟩) :
    ∃ final, run (step debug) ops ⟨s, fun _ => 0⟩ = .ok final ∧
      (∃ nodes, Threaded final.state.word 0 final.state.freePageList nodes ∧ nodes.Nodup ∧
        nodes.length = final.state.nrFreePages ∧
        ∀ page, page ∈ nodes ↔ page % 4096 = 0 ∧ page < final.state.highMemory ∧
          final.state.memMap (mapNr page) = 0) ∧
      (∀ page s', getFreePageLocked debug final.state = .ok (page, s') → page ≠ 0 →
        final.holds (mapNr page) = 0) ∧
      ∀ addr, final.holds (mapNr addr) = 0 →
        freePageLocked debug final.state addr = .ok final.state := by
  obtain ⟨final, hrun, f, h⟩ := run_invariant step_sound ⟨_, Sound.init hinit⟩ hops
  refine ⟨final, hrun, ⟨f.free.map (· * 4096), h.represents.threaded, h.represents.threaded.nodup,
    by rw [List.length_map, h.represents.count], fun page => ?_⟩,
    fun page s' hget hpage => h.handed_out hget hpage, fun addr hheld => h.free_unheld hheld⟩
  have hhigh := h.represents.lt_high page
  rw [List.mem_map, h.represents.memMap, hhigh]
  constructor
  · rintro ⟨pfn, hpfn, rfl⟩
    have hlt := h.consistent.managed pfn hpfn
    have hnr : mapNr (pfn * 4096) = pfn := by unfold mapNr; omega
    rw [hnr]
    exact ⟨by omega, hlt, (h.consistent.mem_iff pfn hlt).mp hpfn⟩
  · rintro ⟨haligned, hlt, hentry⟩
    refine ⟨mapNr page, (h.consistent.mem_iff _ hlt).mpr hentry, ?_⟩
    unfold mapNr
    omega

/-- Two pages above the tables: one is taken, freed at an address inside it and
freed once more, and so is a page of the low megabyte. -/
theorem allocator_run_sound_two_pages : ∃ info s final,
    init true 0x9f000 [⟨0x122000, 0x2000, by decide⟩] (fun _ => 0) = .ok (info, s) ∧
      run (step true) [.getFreePage, .freePage 0x123010, .freePage 0x123010, .freePage 0x7000]
        ⟨s, fun _ => 0⟩ = .ok final ∧
      ∃ nodes, Threaded final.state.word 0 final.state.freePageList nodes ∧
        nodes.length = final.state.nrFreePages := by
  obtain ⟨info, s, hinit⟩ := init_ok true 0x9f000 [⟨0x122000, 0x2000, by decide⟩]
    (fun _ => 0) (fun _ _ => by decide)
  obtain ⟨final, hrun, ⟨nodes, hthreaded, -, hcount, -⟩, -⟩ := allocator_run_sound hinit
    [.getFreePage, .freePage 0x123010, .freePage 0x123010, .freePage 0x7000]
    (by simp [Guarded, Proper])
  exact ⟨info, s, final, hinit, hrun, nodes, hthreaded, hcount⟩

end Shitix.PageAlloc
