import Shitix.Mm.Frames

/-!
# What `init` leaves behind

`init` marks every frame reserved, clears the entries of the usable regions and
threads the cleared frames into the list.  The state it returns represents a
consistent set of frames (`init_represents`), none of which reaches into the
tables, the kernel stacks or the low megabyte (`init_layout`).

The loop that builds the list is `buildFreeList`; its effect on the frames is
`listed`: the cleared frames of the processed addresses, last one first.
-/

namespace Shitix.PageAlloc

open Function List

/-! ## The layout -/

/-- The tables and the stack pool follow one another without overlap, above the
kernel image, and end before the first page that is ever released. -/
theorem init_layout (kernelEnd nrPages : ℕ) :
    let place := layout kernelEnd nrPages
    kernelEnd ≤ place.mapAddr ∧ minUsablePhys ≤ place.mapAddr ∧
      place.mapAddr + nrPages * 2 ≤ place.refAddr ∧
      place.refAddr + nrPages * 4 ≤ place.kstackAddr ∧
      place.kstackAddr + kstackPoolBytes ≤ place.mapEnd ∧ place.mapEnd % 4096 = 0 := by
  have halign := le_pageAlign
  refine ⟨?_, le_max_right _ _, halign _, ?_, ?_, ?_⟩
  · exact (halign _).trans (le_max_left _ _)
  · exact (halign _).trans (le_max_left _ _)
  · exact (halign _).trans (le_max_left _ _)
  · exact max_rec' (· % 4096 = 0) (pageAlign_mod _) (by decide)

/-! ## Clearing the regions -/

/-- The entries `init` can leave: reserved, or cleared for a page above its tables. -/
def Cleared (mapEnd : ℕ) (map : ℕ → ℕ) : Prop :=
  ∀ nr, map nr = mapPageReserved ∨ map nr = 0 ∧ mapEnd ≤ nr * 4096

theorem releaseRegion_cleared {mapEnd high : ℕ} (hend : mapEnd % 4096 = 0) {map : ℕ → ℕ}
    (hmap : Cleared mapEnd map) (region : Region) :
    Cleared mapEnd (releaseRegion mapEnd high map region) := by
  simp only [releaseRegion]
  have hstart : ∀ addr ∈ pagesFrom (max (pageAlign region.base) mapEnd)
      (min (pageBase (saturatingAdd region.base region.len)) high), mapEnd ≤ addr := by
    intro addr haddr
    obtain ⟨i, -, rfl⟩ := mem_map.mp haddr
    exact (le_max_right _ _).trans (Nat.le_add_right _ _)
  revert hstart
  generalize pagesFrom _ _ = pages
  intro hstart
  induction pages generalizing map with
  | nil => exact hmap
  | cons addr rest ih =>
    refine ih (fun nr => ?_) fun other hother => hstart other (mem_cons_of_mem _ hother)
    by_cases hnr : nr = mapNr addr
    · subst hnr
      have := hstart addr mem_cons_self
      unfold mapNr
      exact .inr ⟨update_self _ _ _, by omega⟩
    · simp only [update_of_ne hnr]
      exact hmap nr

theorem preBuild_cleared (kernelEnd : ℕ) (regions : List Region) (word : ℕ → ℕ) :
    Cleared (layout kernelEnd (preBuild kernelEnd regions word).memMapLen).mapEnd
      (preBuild kernelEnd regions word).memMap := by
  simp only [preBuild]
  have hend := (init_layout kernelEnd (mapNr (pageBase (highOf regions)))).2.2.2.2.2
  have hinit : Cleared (layout kernelEnd (mapNr (pageBase (highOf regions)))).mapEnd
      fun _ => mapPageReserved := fun _ => .inl rfl
  revert hinit
  generalize (fun _ => mapPageReserved : ℕ → ℕ) = map
  generalize pageBase (highOf regions) = high at hend ⊢
  induction regions generalizing map with
  | nil => exact id
  | cons region rest ih => exact fun hmap => ih _ (releaseRegion_cleared hend hmap region)

/-! ## Building the list -/

/-- The frames after the pages `addrs` were considered, one by one. -/
def listed (f : Frames) (addrs : List ℕ) : Frames :=
  { f with free := ((addrs.map mapNr).filter (f.memMap · = 0)).reverse ++ f.free }

variable {debug : Bool} {s s' : State} {f : Frames} {reserved free kernelEnd : ℕ} {addrs : List ℕ}
  {regions : List Region}

/-- One turn on a cleared frame pushes its page. -/
theorem buildStep_cleared {addr : ℕ} (h : Represents { s with nrFreePages := free } f)
    (haddr : mapNr addr * 4096 = addr) (hmanaged : mapNr addr < f.nrPages)
    (habove : 256 ≤ mapNr addr) (hfresh : mapNr addr ∉ f.free) (hentry : f.memMap (mapNr addr) = 0)
    {acc : State × ℕ × ℕ} (hstep : buildStep debug (s, reserved, free) addr = .ok acc) :
    acc = (pushed s (mapNr addr), reserved, free + 1) ∧
      Represents { pushed s (mapNr addr) with nrFreePages := free + 1 }
        { f with free := mapNr addr :: f.free } := by
  have hmap : s.memMap = f.memMap := h.memMap
  simp only [buildStep, hmap, hentry] at hstep
  cases hpush : pushFree debug s addr with
  | error panic => rw [hpush] at hstep; cases hstep
  | ok next =>
    -- in a debug build the page did not carry the cookie
    have hcookie : debug = true → s.word (addr + 8) ≠ freeCookie := by
      unfold pushFree at hpush
      split_ifs at hpush with _ _ hcookie
      exact fun hdebug heq => hcookie ⟨hdebug, heq⟩
    rw [← haddr] at hcookie hpush
    obtain ⟨hpushed, hrep⟩ := pushFree_represents h habove hmanaged hfresh hcookie
    have : next = pushed s (mapNr addr) := Except.ok.inj (hpush.symm.trans hpushed)
    rw [haddr] at hpush
    rw [hpush] at hstep
    cases hstep
    exact ⟨by rw [this], hrep⟩

/-- The loop threads exactly the cleared frames, when it gets through. -/
theorem buildFreeList_represents (h : Represents { s with nrFreePages := free } f)
    (hpages : ∀ addr ∈ addrs, addr % 4096 = 0) (hmanaged : ∀ addr ∈ addrs, mapNr addr < f.nrPages)
    (habove : ∀ pfn < f.nrPages, f.memMap pfn = 0 → 256 ≤ pfn)
    (hnodup : (addrs.map mapNr ++ f.free).Nodup) {reserved' free' : ℕ}
    (hbuild : buildFreeList debug addrs (s, reserved, free) = .ok (s', reserved', free')) :
    Represents { s' with nrFreePages := free' } (listed f addrs) := by
  induction addrs generalizing s f reserved free with
  | nil =>
    cases hbuild
    exact h
  | cons addr rest ih =>
    have haddr : mapNr addr * 4096 = addr := by
      have := hpages addr mem_cons_self
      unfold mapNr
      omega
    have hmap : s.memMap = f.memMap := h.memMap
    rw [map_cons, cons_append, nodup_cons] at hnodup
    have hlt := hmanaged addr mem_cons_self
    have hrest := fun other hother => hpages other (mem_cons_of_mem addr hother)
    have hrest' := fun other hother => hmanaged other (mem_cons_of_mem addr hother)
    rw [buildFreeList] at hbuild
    by_cases hentry : f.memMap (mapNr addr) = 0
    · have hfresh : mapNr addr ∉ f.free := fun hin => hnodup.1 (mem_append_right _ hin)
      cases hstep : buildStep debug (s, reserved, free) addr with
      | error panic => rw [hstep] at hbuild; cases hbuild
      | ok acc =>
        obtain ⟨rfl, hrep⟩ :=
          buildStep_cleared h haddr hlt (habove _ hlt hentry) hfresh hentry hstep
        rw [hstep] at hbuild
        have hnext := ih hrep hrest hrest' habove
          (nodup_middle.mpr (nodup_cons.mpr hnodup)) hbuild
        rwa [show listed f (addr :: rest)
          = listed { f with free := mapNr addr :: f.free } rest by simp [listed, hentry]]
    · have hstep : buildStep debug (s, reserved, free) addr = .ok (s, reserved + 1, free) := by
        simp [buildStep, hmap, hentry]
      rw [hstep] at hbuild
      rw [show listed f (addr :: rest) = listed f rest by simp [listed, hentry]]
      exact ih h hrest hrest' habove hnodup.2 hbuild

/-- The loop gets through when no page still to come carries the cookie, which
only the debug build looks at. -/
theorem buildFreeList_ok (hpages : ∀ addr ∈ addrs, addr % 4096 = 0 ∧ addr < s.highMemory)
    (habove : ∀ addr ∈ addrs, s.memMap (mapNr addr) = 0 → minUsablePhys ≤ addr)
    (hnodup : addrs.Nodup) (hguards : guardsIntact s = true)
    (hcookie : debug = true → ∀ addr ∈ addrs, s.word (addr + 8) ≠ freeCookie) :
    ∃ acc, buildFreeList debug addrs (s, reserved, free) = .ok acc := by
  induction addrs generalizing s reserved free with
  | nil => exact ⟨_, rfl⟩
  | cons addr rest ih =>
    rw [nodup_cons] at hnodup
    obtain ⟨haligned, hlt⟩ := hpages addr mem_cons_self
    have hrest := fun other hother => hpages other (mem_cons_of_mem addr hother)
    have habove' := fun other hother => habove other (mem_cons_of_mem addr hother)
    have hcookie' := fun hdebug other hother =>
      hcookie hdebug other (mem_cons_of_mem addr hother)
    by_cases hentry : s.memMap (mapNr addr) = 0
    · have hgood : addr % pageSize = 0 ∧ minUsablePhys ≤ addr ∧ addr < s.highMemory :=
        ⟨haligned, habove addr mem_cons_self hentry, hlt⟩
      have hfresh : ¬ (debug = true ∧ s.word (addr + 8) = freeCookie) := fun h =>
        hcookie h.1 addr mem_cons_self h.2
      simp only [buildFreeList, buildStep, hentry, pushFree, hguards, not_true_eq_false,
        and_false, hgood, hfresh]
      refine ih hrest habove' hnodup.2 hguards fun hdebug other hother => ?_
      have hne : other ≠ addr := fun heq => hnodup.1 (heq ▸ hother)
      have haligned' := (hrest other hother).1
      dsimp only
      rw [update_of_ne (by omega), update_of_ne (by omega),
        update_of_ne (by omega)]
      exact hcookie' hdebug other hother
    · simp only [buildFreeList, buildStep, ne_eq, hentry]
      exact ih hrest habove' hnodup.2 hguards hcookie'

/-! ## The result -/

theorem preBuild_high (kernelEnd : ℕ) (regions : List Region) (word : ℕ → ℕ) :
    (preBuild kernelEnd regions word).highMemory =
      (preBuild kernelEnd regions word).memMapLen * 4096 := by
  simp only [preBuild, mapNr, pageBase]
  omega

/-- The frames `init` returns: every cleared one is free. -/
def initFrames (kernelEnd : ℕ) (regions : List Region) : Frames :=
  let s := preBuild kernelEnd regions fun _ => 0
  listed { free := [], memMap := s.memMap, pageRef := s.pageRef, nrPages := s.memMapLen }
    (pagesFrom 0 s.highMemory)

theorem pagesFrom_zero (nrPages : ℕ) :
    pagesFrom 0 (nrPages * 4096) = (List.range nrPages).map (· * 4096) := by
  have : (nrPages * 4096 - 0 + 4095) / 4096 = nrPages := by omega
  rw [pagesFrom, this]
  simp

theorem map_mapNr_pagesFrom (nrPages : ℕ) :
    (pagesFrom 0 (nrPages * 4096)).map mapNr = List.range nrPages := by
  rw [pagesFrom_zero, map_map]
  conv_rhs => rw [← map_id (range nrPages)]
  refine map_congr_left fun nr _ => ?_
  simp [mapNr]

/-- The free frames are the managed ones with an empty entry, highest first. -/
theorem initFrames_free (kernelEnd : ℕ) (regions : List Region) :
    (initFrames kernelEnd regions).free =
      ((List.range (initFrames kernelEnd regions).nrPages).filter
        ((initFrames kernelEnd regions).memMap · = 0)).reverse := by
  simp [initFrames, listed, preBuild_high, map_mapNr_pagesFrom]

theorem initFrames_cleared (kernelEnd : ℕ) (regions : List Region) :
    Cleared (layout kernelEnd (initFrames kernelEnd regions).nrPages).mapEnd
      (initFrames kernelEnd regions).memMap :=
  preBuild_cleared kernelEnd regions fun _ => 0

theorem initFrames_above {pfn : ℕ} (hentry : (initFrames kernelEnd regions).memMap pfn = 0) :
    256 ≤ pfn := by
  rcases initFrames_cleared kernelEnd regions pfn with hreserved | ⟨-, hend⟩
  · rw [hentry] at hreserved
    cases hreserved
  · have : minUsablePhys ≤ (layout kernelEnd (initFrames kernelEnd regions).nrPages).mapEnd :=
      le_max_right _ _
    simp only [minUsablePhys] at this
    omega

theorem initFrames_consistent (kernelEnd : ℕ) (regions : List Region) :
    (initFrames kernelEnd regions).Consistent := by
  have hmem : ∀ pfn, pfn ∈ (initFrames kernelEnd regions).free ↔
      pfn < (initFrames kernelEnd regions).nrPages ∧
        (initFrames kernelEnd regions).memMap pfn = 0 := by
    rw [initFrames_free]
    simp
  refine ⟨?_, fun pfn hpfn => ((hmem pfn).mp hpfn).1, fun pfn hpfn => ?_,
    fun pfn _ hreserved => ?_⟩
  · rw [initFrames_free]
    exact nodup_reverse.mpr (nodup_range.filter _)
  · rw [hmem]
    exact ⟨And.right, fun hentry => ⟨hpfn, hentry⟩⟩
  · rcases initFrames_cleared kernelEnd regions pfn with hentry | ⟨hentry, -⟩
    · rw [hentry] at hreserved
      cases hreserved
    · exact initFrames_above hentry

/-- The state `init` returns stands for `initFrames`. -/
theorem init_represents {word : ℕ → ℕ} {info : MemInfo}
    (h : init debug kernelEnd regions word = .ok (info, s)) :
    Represents s (initFrames kernelEnd regions) := by
  have hhigh := preBuild_high kernelEnd regions word
  have hlayout := init_layout kernelEnd (preBuild kernelEnd regions word).memMapLen
  have hbase : 0 < minUsablePhys := by decide
  have hstart : Represents { preBuild kernelEnd regions word with nrFreePages := 0 }
      { free := [], memMap := (preBuild kernelEnd regions word).memMap
        pageRef := (preBuild kernelEnd regions word).pageRef
        nrPages := (preBuild kernelEnd regions word).memMapLen } :=
    { threaded := rfl
      cookie := fun _ hpfn => nomatch hpfn
      mirror := fun _ hpfn => nomatch hpfn
      count := rfl
      memMap := rfl
      pageRef := rfl
      high := hhigh
      memMapLen := rfl
      refLen := rfl
      memMapBase := (hbase.trans_le hlayout.2.1).ne'
      refBase := (hbase.trans_le (hlayout.2.1.trans ((Nat.le_add_right _ _).trans
        hlayout.2.2.1))).ne'
      guards := rfl }
  unfold init at h
  cases hbuild : buildFreeList debug
      (pagesFrom 0 (preBuild kernelEnd regions word).highMemory)
      (preBuild kernelEnd regions word, 0, 0) with
  | error panic => simp [hbuild] at h
  | ok acc =>
    simp only [hbuild, Except.ok.injEq, Prod.mk.injEq] at h
    rw [← h.2]
    change Represents _ (listed _ (pagesFrom 0 (preBuild kernelEnd regions word).highMemory))
    refine buildFreeList_represents hstart ?_ ?_ ?_ ?_ hbuild
    · rw [hhigh, pagesFrom_zero]
      simp
    · rw [hhigh, pagesFrom_zero]
      simp [mapNr]
    · exact fun pfn _ hentry => initFrames_above hentry
    · rw [hhigh, map_mapNr_pagesFrom, append_nil]
      exact nodup_range

/-- `init` returns on every memory map, unless a debug build finds the cookie in
a page it has not freed yet. -/
theorem init_ok (debug : Bool) (kernelEnd : ℕ) (regions : List Region) (word : ℕ → ℕ)
    (hcookie : debug = true → ∀ addr, word addr ≠ freeCookie) :
    ∃ info s, init debug kernelEnd regions word = .ok (info, s) := by
  have hhigh := preBuild_high kernelEnd regions word
  obtain ⟨⟨s, reserved, free⟩, hbuild⟩ : ∃ acc, buildFreeList debug
      (pagesFrom 0 (preBuild kernelEnd regions word).highMemory)
      (preBuild kernelEnd regions word, 0, 0) = .ok acc := by
    rw [hhigh, pagesFrom_zero]
    refine buildFreeList_ok ?_ ?_ ?_ rfl ?_
    · simp [hhigh]
    · intro addr haddr hentry
      have := @initFrames_above kernelEnd regions _ hentry
      simp only [mapNr, minUsablePhys] at this ⊢
      omega
    · exact nodup_range.map fun a b h => by simpa using h
    · intro hdebug addr _
      simp only [preBuild]
      split_ifs
      · decide
      · exact hcookie hdebug _
  simp only [init, hbuild]
  exact ⟨_, _, rfl⟩

end Shitix.PageAlloc
