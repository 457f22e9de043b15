import Shitix.Sharing.MapContents
import Shitix.Sharing.Region

/-!
# The success law of `mmap`

A call that returns an address has mapped or reserved every page of its range, with the bytes of
the file or zeros in them; if it chose the address itself, nothing was there before; and a
frame it replaced is free.

That nothing was there is a matter of all earlier calls, so the law is about runs.  It holds of
every call in a run that stays out of the region below the pointer (`VmClear`), provided that a
call at a fixed address meets no page and that the file can be read (`Whole`).
-/

namespace Shitix.Paging

open Mem Syscall List

/-! ## Bytes -/

/-- A byte of a frame. -/
def frameByte (words : ℕ → BitVec 64) (o : ℕ) : UInt8 :=
  UInt8.ofNat ((words (o / 8)).toNat / 256 ^ (o % 8))

/-- The byte user mode reads at an address. -/
def userByte (s : Mem) (pml4 : Frame) (va : ℕ) : Option UInt8 :=
  if isUserMapped s pml4 va then some (frameByte (s.word (pageEntry s pml4 va).frame) (va % 4096))
  else none

theorem leValue_lt (bytes : List UInt8) : leValue bytes < 256 ^ bytes.length := by
  induction bytes with
  | nil => simp [leValue]
  | cons b bytes ih =>
    have hb := b.toNat_lt
    rw [leValue, length_cons]
    omega

theorem ofNat_leValue (bytes : List UInt8) (k : ℕ) :
    UInt8.ofNat (leValue bytes / 256 ^ k) = bytes.getD k 0 := by
  induction bytes generalizing k with
  | nil => simp [leValue]
  | cons b bytes ih =>
    cases k with
    | zero =>
      rw [leValue, pow_zero, Nat.div_one]
      refine UInt8.toNat_inj.mp ?_
      rw [UInt8.toNat_ofNat', Nat.add_mul_mod_self_left]
      exact Nat.mod_eq_of_lt b.toNat_lt
    | succ k =>
      have hb := b.toNat_lt
      have hshift : (b.toNat + 256 * leValue bytes) / 256 = leValue bytes := by omega
      rw [leValue, pow_succ, mul_comm (256 ^ k), ← Nat.div_div_eq_div_mul, hshift]
      exact ih k

/-- The bytes of a page, read back from its words. -/
theorem frameByte_pageWords (bytes : List UInt8) (o : ℕ) :
    frameByte (pageWords bytes) o = bytes.getD o 0 := by
  have hlength : ((bytes.drop (8 * (o / 8))).take 8).length ≤ 8 := length_take_le _ _
  have hlt : leValue ((bytes.drop (8 * (o / 8))).take 8) < 2 ^ 64 :=
    calc leValue ((bytes.drop (8 * (o / 8))).take 8)
        < 256 ^ ((bytes.drop (8 * (o / 8))).take 8).length := leValue_lt _
      _ ≤ 256 ^ 8 := Nat.pow_le_pow_right (by decide) hlength
      _ = 2 ^ 64 := by decide
  rw [frameByte, pageWords, BitVec.toNat_ofNat, Nat.mod_eq_of_lt hlt, ofNat_leValue]
  have hmod := Nat.mod_lt o (show 0 < 8 by decide)
  simp only [getD_eq_getElem?_getD, getElem?_take, if_pos hmod, getElem?_drop]
  rw [Nat.div_add_mod]

/-! ## Files -/

/-- The file has these bytes, and `read` delivers them, perhaps in parts. -/
structure Reads (file : OpenFile) (data : ℕ → UInt8) : Prop where
  seekable : file.seekable = true
  honest : ∀ pos count i b, (file.fetch pos count)[i]? = some b → data (pos + i) = b
  some : ∀ pos count, pos < file.size.toNat → 0 < count → 0 < (file.fetch pos count).length

variable {file : OpenFile} {data : ℕ → UInt8}

theorem Reads.fetch_eq (h : Reads file data) (pos count : ℕ) :
    file.fetch pos count =
      (range (file.fetch pos count).length).map fun i => data (pos + i) := by
  refine ext_getElem (by simp) fun i hi _ => ?_
  simp only [getElem_map, getElem_range]
  exact (h.honest pos count i _ (getElem?_eq_getElem hi)).symm

theorem Reads.readAll (h : Reads file data) {rounds pos left : ℕ} (hrounds : left ≤ rounds)
    (hend : pos + left ≤ file.size.toNat) :
    (file.readAll rounds pos left).1 = (range left).map fun i => data (pos + i) := by
  induction rounds generalizing pos left with
  | zero =>
    obtain rfl : left = 0 := by omega
    rfl
  | succ rounds ih =>
    have hle := file.fetch_le pos left
    rw [OpenFile.readAll]
    dsimp only
    split_ifs with hnone
    · have hzero : left = 0 := by
        by_contra hne
        have := h.some pos left (by omega) (by omega)
        omega
      rw [hzero]
      rfl
    · have hwrap : wrapAdd pos (file.fetch pos left).length =
          pos + (file.fetch pos left).length := Nat.mod_eq_of_lt (by omega)
      rw [ih (by omega) (by omega)]
      conv_lhs => rw [h.fetch_eq pos left]
      refine ext_getElem (by simp; omega) fun i hi _ => ?_
      simp only [length_map, length_range, getElem_append, getElem_map,
        getElem_range]
      split_ifs with hfirst
      · rfl
      · congr 1
        omega

theorem Reads.readPage (h : Reads file data) (offset len i pos : ℕ) :
    (readPage file offset len i pos).1 =
      (range (readLen file offset len i)).map fun k => data (fileOffset offset i + k) := by
  unfold Syscall.readPage
  split_ifs with hnone
  · rw [hnone]
    rfl
  · have hread : readLen file offset len i ≤ file.size.toNat - fileOffset offset i :=
      min_le_right _ _
    have hseek : file.lseek pos (fileOffset offset i) = fileOffset offset i := by
      have hlow : fileOffset offset i < 2 ^ 63 := by omega
      simp only [OpenFile.lseek, h.seekable, hlow, decide_true, Bool.and_self, if_true]
    rw [hseek, h.readAll le_rfl (by omega)]

/-! ## The law -/

/-- The byte at place `k` of a mapping: from the file, or zero. -/
def expectedByte (call : MapCall) (data : ℕ → UInt8) (k : ℕ) : UInt8 :=
  match call.file with
  | some file =>
    if call.fileBacked && call.offset + k < file.size.toNat then data (call.offset + k) else 0
  | none => 0

/-- A frame was given up by one of its users: it is free, or counts one mapping less. -/
def Released (s s' : Mem) (f : Frame) : Prop :=
  s'.frames.memMap f.toNat = 0 ∨ s'.pageRefCount f + 1 = s.pageRefCount f

/-- What a mapping at `addr` is like after the call. -/
structure Mapped (s : Mem) (root : Frame) (call : MapCall) (data : ℕ → UInt8) (addr : ℕ)
    (s' : Mem) : Prop where
  /-- every byte is in a page that user mode can use -/
  covered : ∀ k < call.len, Accessible s' root (addr + k)
  /-- what user mode finds there; the page fault of an anonymous page needs a frame -/
  contents : ∀ k < call.len, call.fileBacked = true ∨ s'.frames.free ≠ [] →
    userByte (demandPage s' root (addr + k)) root (addr + k) = some (expectedByte call data k)
  /-- nothing was there if the address was chosen -/
  apart : call.addr = 0 → ∀ k < call.len, ¬ Accessible s root (addr + k)
  /-- the pages that were replaced are given up -/
  released : ∀ k < call.len, isUserMapped s root (addr + k) = true →
    Released s s' (pageEntry s root (addr + k)).frame

/-- The success law. -/
def SuccessLaw (s : Mem) (t : Task) (call : MapCall) (data : ℕ → UInt8) (pos : ℕ) : Prop :=
  ∀ addr : ℕ, (mmapFd s t call pos).result = addr →
    Mapped s t.pml4 call data addr (mmapFd s t call pos).mem

/-- The condition on a call itself: its length can be rounded up, and its file has the bytes
`data`. -/
structure Whole (call : MapCall) (data : ℕ → UInt8) : Prop where
  length : call.len + 4095 < 2 ^ 64
  file : ∀ file, call.file = some file → Reads file data ∧ call.offset + call.len ≤ 2 ^ 64

variable {s s' : Mem} {live : List Frame} {label : Frame → Option Label} {origin : Frames}
  {root : Frame} {t t' : Task} {call : MapCall} {floor mapAddr pos k base : ℕ}

/-! ## A call that succeeds -/

/-- What is known of a call that returns an address. -/
theorem mmapFd_success (h : (mmapFd s t call pos).result = mapAddr) :
    ∃ t', placeMapping t call.addr call.len = some (mapAddr, t') ∧
      ((∃ file, call.fileBacked = true ∧ call.file = some file ∧
          mapFile t'.tables mapAddr call.prot (fileContents call pos file) (pageCount call.len) s =
            (true, (mmapFd s t call pos).mem)) ∨
        call.fileBacked = false ∧
          mapAnonymous t'.tables mapAddr call.prot (pageCount call.len) s =
            (true, (mmapFd s t call pos).mem)) := by
  have heq := mmapFd_eq s t call pos
  rcases hcall : mmapFd s t call pos with ⟨result, task, mem, pos'⟩
  rw [hcall] at h heq
  subst h
  -- an error is not an address
  have hfail : ∀ e ∈ [einval, enomem, ebadf, enosys], ∀ x : Task × Mem,
      ((mapAddr : ℤ), task, mem) ≠ (-e, x) := by
    intro e he x hsame
    have hneg := neg_errno e he
    have := congrArg Prod.fst hsame
    omega
  unfold mmap at heq
  by_cases hlen : call.len = 0
  · simp only [MapCall.args, hlen] at heq
    exact absurd heq (hfail einval (by simp) _)
  simp only [MapCall.args, hlen] at heq
  rcases hplace : placeMapping t call.addr call.len with _ | ⟨addr, t'⟩
  · rw [hplace] at heq
    exact absurd heq (hfail enomem (by simp) _)
  rw [hplace] at heq
  by_cases hbacked : call.fileBacked = true
  · have hbacked' := hbacked
    unfold MapCall.fileBacked at hbacked'
    simp only [hbacked'] at heq
    cases hfile : call.file with
    | none =>
      rw [hfile] at heq
      exact absurd heq (hfail ebadf (by simp) _)
    | some file =>
      rw [hfile] at heq
      dsimp only [Option.map_some] at heq
      rcases hmap : mapFile t'.tables addr call.prot (fileContents call pos file)
        (pageCount call.len) s with ⟨_ | _, s'⟩
      · rw [hmap] at heq
        exact absurd heq (hfail enomem (by simp) _)
      · rw [hmap] at heq
        obtain ⟨haddr, -, hmem⟩ : (mapAddr : ℤ) = addr ∧ task = t' ∧ mem = s' := by simpa using heq
        obtain rfl : mapAddr = addr := by omega
        exact ⟨t', rfl, .inl ⟨file, hbacked, rfl, by rw [hmap, hmem]⟩⟩
  · have hbacked' := hbacked
    unfold MapCall.fileBacked at hbacked'
    simp only [hbacked'] at heq
    by_cases hnosys : (!call.flags.testBit 5) = true
    · simp only [hnosys] at heq
      exact absurd heq (hfail enosys (by simp) _)
    · simp only [hnosys] at heq
      rcases hmap : mapAnonymous t'.tables addr call.prot (pageCount call.len) s with ⟨_ | _, s'⟩
      · rw [hmap] at heq
        exact absurd heq (hfail enomem (by simp) _)
      · rw [hmap] at heq
        obtain ⟨haddr, -, hmem⟩ : (mapAddr : ℤ) = addr ∧ task = t' ∧ mem = s' := by simpa using heq
        obtain rfl : mapAddr = addr := by omega
        exact ⟨t', rfl, .inr ⟨by simpa using hbacked, by rw [hmap, hmem]⟩⟩

/-- The page of a byte of the range. -/
theorem vpage_add (halign : mapAddr % 4096 = 0) (k : ℕ) :
    vpage (mapAddr + k) = vpage (pageAt mapAddr (k / 4096)) := by
  simp only [vpage, pageAt, wrapAdd]
  omega

theorem div_lt_pageCount {len : ℕ} (hlen : len + 4095 < 2 ^ 64) (hk : k < len) :
    k / 4096 < pageCount len := by
  simp only [pageCount, wrapAdd]
  omega

/-! ## Contents -/

theorem userByte_mapped (h : Tables s label) (hr : Space label root) {va : ℕ}
    (hpresent : (pageEntry s root va).present = true) (huser : (pageEntry s root va).user = true) :
    userByte (demandPage s root va) root va =
      some (frameByte (s.word (pageEntry s root va).frame) (va % 4096)) := by
  have hdemand : demandPage s root va = s := by
    unfold demandPage
    rw [translate_eq h hr, if_pos hpresent]
    rfl
  rw [hdemand, userByte, isUserMapped_eq h hr, hpresent, huser]
  rfl

/-- The byte of a page that is reserved, once there is a frame for it. -/
theorem userByte_reserved (h : Tables s label) (hr : Space label root) {va : ℕ}
    (huser : (pageEntry s root va).user = true)
    (hreserved : (pageEntry s root va).reserved = true) (hfree : s.frames.free ≠ []) :
    userByte (demandPage s root va) root va = some 0 := by
  have habsent := absent_of_reserved h hr hreserved
  have hdemand : demandPage s root va = (resolveReserved s root va).2 := by
    unfold demandPage
    rw [translate_eq h hr, habsent, isReserved_eq h hr habsent, hreserved]
    rfl
  rcases resolveReserved_reserved h hr huser hreserved with
    ⟨hempty, -⟩ | ⟨-, s', label', page, hdone, htables, hspace, hentry, -⟩
  · exact absurd hempty hfree
  have hzero := resolveReserved_zero h hr (show (resolveReserved s root va).1 = true by rw [hdone])
  rw [hdone] at hdemand hzero
  rw [hdemand, userByte, isUserMapped_eq htables hspace, hzero, hentry]
  simp [resolvedEntry, huser, frameByte]

/-- The bytes of a page of a file. -/
theorem frameByte_fileContents (hreads : Reads file data) (hend : call.offset + call.len ≤ 2 ^ 64)
    (hfile : call.file = some file) (hbacked : call.fileBacked = true) (hk : k < call.len) :
    frameByte (fileContents call pos file (k / 4096)) (k % 4096) = expectedByte call data k := by
  have hoffset : fileOffset call.offset (k / 4096) = call.offset + k / 4096 * 4096 :=
    Nat.mod_eq_of_lt (by omega)
  rw [fileContents, frameByte_pageWords, hreads.readPage, expectedByte, hfile, hbacked]
  rw [getD_eq_getElem?_getD, getElem?_map, hoffset]
  have hsplit : call.offset + k / 4096 * 4096 + k % 4096 = call.offset + k := by omega
  by_cases hinside : call.offset + k < file.size.toNat
  · have hlt : k % 4096 < readLen file call.offset call.len (k / 4096) := by
      simp only [readLen]
      omega
    rw [getElem?_range hlt]
    simp [hinside, hsplit]
  · have hle : readLen file call.offset call.len (k / 4096) ≤ k % 4096 := by
      simp only [readLen]
      omega
    rw [getElem?_eq_none (by simpa using hle)]
    simp [hinside]

/-- Every byte of the range is there, and is the right one. -/
def Shows (s' : Mem) (root : Frame) (call : MapCall) (data : ℕ → UInt8) (addr : ℕ) : Prop :=
  ∀ k < call.len, Accessible s' root (addr + k) ∧
    (call.fileBacked = true ∨ s'.frames.free ≠ [] →
      userByte (demandPage s' root (addr + k)) root (addr + k) = some (expectedByte call data k))

section Shows

variable {data : ℕ → UInt8} (h : Tables s label) (hr : Space label root)
  (hwhole : Whole call data) (halign : mapAddr % 4096 = 0)
include h hr hwhole halign

theorem mapFile_shows (hfile : call.file = some file) (hbacked : call.fileBacked = true)
    (hlow : ∀ i < pageCount call.len, LowerHalf (pageAt mapAddr i))
    (hdone : mapFile root mapAddr call.prot (fileContents call pos file) (pageCount call.len) s =
      (true, s')) : Shows s' root call data mapAddr := by
  have hloop : Outcome (fun s' => ∃ label', FileMapped s root mapAddr (mmapFlags call.prot)
      (fileContents call pos file) label' (pageCount call.len) s') _ _ :=
    mapFile_outcome h hr call.prot fun i j hij hj => vpage_ne_of_lt halign hlow hij hj
  rw [hdone] at hloop
  obtain ⟨label', hmapped⟩ := hloop.done rfl
  obtain ⟨hreads, hend⟩ := hwhole.file file hfile
  intro k hk
  obtain ⟨page, hentry, -, hword⟩ := hmapped.mapped (k / 4096) (div_lt_pageCount hwhole.length hk)
  rw [← pageEntry_congr (vpage_add halign k)] at hentry
  have hpresent : (pageEntry s' root (mapAddr + k)).present = true := by rw [hentry]
  have huser : (pageEntry s' root (mapAddr + k)).user = true := by rw [hentry]; rfl
  refine ⟨.inl ⟨hpresent, huser⟩, fun _ => ?_⟩
  have hoffset : (mapAddr + k) % 4096 = k % 4096 := by omega
  rw [userByte_mapped hmapped.tables hmapped.space hpresent huser, hentry, hoffset, hword]
  exact congrArg some (frameByte_fileContents hreads hend hfile hbacked hk)

theorem mapAnonymous_shows (hbacked : call.fileBacked = false)
    (hdone : mapAnonymous root mapAddr call.prot (pageCount call.len) s = (true, s')) :
    Shows s' root call data mapAddr := by
  have hloop := mapAnonymous_outcome h hr mapAddr call.prot (pageCount call.len)
  rw [hdone] at hloop
  obtain ⟨⟨label', htables, hspace⟩, hreserved, -⟩ := hloop.done rfl
  intro k hk
  have hentry := hreserved (k / 4096) (div_lt_pageCount hwhole.length hk)
  rw [← pageEntry_congr (vpage_add halign k)] at hentry
  have hres : (pageEntry s' root (mapAddr + k)).reserved = true := by rw [hentry]; rfl
  refine ⟨.inr hres, fun hfree => ?_⟩
  have hfree : s'.frames.free ≠ [] := hfree.resolve_left (by simp [hbacked])
  have hzero : expectedByte call data k = 0 := by
    unfold expectedByte
    rw [hbacked]
    split <;> rfl
  rw [hzero]
  exact userByte_reserved htables hspace (by rw [hentry]; rfl) hres hfree

end Shows

/-! ## The law in a run -/

/-- The law holds of a call into a clear region, or at a fixed address where nothing is. -/
theorem successLaw_of_clear (hsane : Sane s live label origin) (hroot : t.pml4 ∈ live)
    (hclear : Clear floor s t) (hplaced : Placed floor s t call.addr call.len)
    (hwhole : Whole call data) (pos : ℕ) : SuccessLaw s t call data pos := by
  intro addr hresult
  obtain ⟨t', hplace, hmap⟩ := mmapFd_success hresult
  obtain ⟨halign, hpml4⟩ := placeMapping_some hplace
  have htables : t'.tables = t.pml4 := by
    rw [Task.tables, hpml4]
    exact tables_of_live hsane hroot
  have hspace := hsane.space _ hroot
  have hpages := hplaced.mappable hsane hroot hclear hplace
  have hpage : ∀ i < pageCount call.len, Mappable s t.pml4 (pageAt addr i) := fun i hi =>
    hpages _ (mem_pageRange.mpr ⟨i, hi, rfl⟩)
  rw [htables] at hmap
  have hshows : Shows (mmapFd s t call pos).mem t.pml4 call data addr := by
    rcases hmap with ⟨file, hbacked, hfile, hdone⟩ | ⟨hbacked, hdone⟩
    · exact mapFile_shows hsane.tables hspace hwhole halign hfile hbacked
        (fun i hi => (hpage i hi).1) hdone
    · exact mapAnonymous_shows hsane.tables hspace hwhole halign hbacked hdone
  refine ⟨fun k hk => (hshows k hk).1, fun k hk => (hshows k hk).2, fun haddr k hk => ?_,
    fun k hk hmapped => ?_⟩
  · have hfloor := hplaced.chosen haddr addr t' hplace
    rw [haddr] at hplace
    obtain ⟨hend, -⟩ := chosen_place hplace
    exact hclear.empty (addr + k) (by omega) (by omega)
  · -- nothing is replaced
    have hempty := (hpage (k / 4096) (div_lt_pageCount hwhole.length hk)).2
    rw [isUserMapped_eq hsane.tables hspace] at hmapped hempty
    rw [pageEntry_congr (vpage_add halign k), hempty] at hmapped
    cases hmapped

/-- In every run of steps that stay out of the regions, every call of `mmap` that is placed and
whole meets the law. -/
theorem apart_run_successLaw (floor : ℕ) (s : Mem) (hboot : Bootable s.frames) (ops : List VmOp)
    (hapart : Guarded Vm.stepOk (Apart floor) ops (Vm.boot s)) :
    ∃ vm, run Vm.stepOk ops (Vm.boot s) = .ok vm ∧
      ∀ t ∈ vm.tasks, ∀ call data pos, Placed floor vm.mem t call.addr call.len →
        Whole call data → SuccessLaw vm.mem t call data pos := by
  obtain ⟨vm, hrun, hvm⟩ := VmClear.run hboot hapart
  refine ⟨vm, hrun, fun t ht call data pos hplaced hwhole => ?_⟩
  obtain ⟨label, hsane⟩ := hvm.sane.sane
  exact successLaw_of_clear hsane (VmClear.mem_live ht) (hvm.clear t ht) hplaced hwhole pos

/-- A process with a page at 512 GiB and the `mmap` pointer of a new task. -/
def regionStart : List VmOp := [.spawn 0 0x7FFF00000000, .map 0 0x8000000000 true]

/-- An anonymous page, at a fixed address or not. -/
def onePage (addr : ℕ) : MapCall := ⟨addr, 4096, 3, 0x22, 0, none⟩

theorem onePage_whole (addr : ℕ) : Whole (onePage addr) fun _ => 0 :=
  ⟨by norm_num [onePage], fun _ hfile => absurd hfile (by simp [onePage])⟩

theorem mmapBase_eq {vm : Vm} {i : ℕ} (ht : vm.tasks[i]? = some t)
    (hbase : (vm.tasks[i]?).map Task.mmapBase = some base) : t.mmapBase = base := by
  rw [ht] at hbase
  exact Option.some.inj hbase

theorem onePage_placed (hbase : t.mmapBase = base) (hlow : 0x7FFE00001000 ≤ base) :
    Placed 0x7FFE00000000 s t 0 4096 := by
  refine ⟨fun haddr => absurd rfl haddr, fun _ mapAddr t' hplace => ?_⟩
  simp only [placeMapping, pageBase, ne_eq, not_true_eq_false, if_false] at hplace
  split_ifs at hplace
  cases hplace
  omega

/-- After an anonymous mapping just below the pointer, the next one lies below that. -/
theorem apart_run_successLaw_small :
    ∃ vm t, run Vm.stepOk (regionStart ++ [.mmap 0 ((onePage 0).args 0)]) (Vm.boot smallMem) =
        .ok vm ∧ t ∈ vm.tasks ∧ (mmapFd vm.mem t (onePage 0) 0).result = 0x7FFEFFFFE000 ∧
      SuccessLaw vm.mem t (onePage 0) (fun _ => 0) 0 := by
  have hapart : Guarded Vm.stepOk (Apart 0x7FFE00000000)
      (regionStart ++ [.mmap 0 ((onePage 0).args 0)]) (Vm.boot smallMem) := by
    refine ⟨by norm_num [Apart], ?_⟩
    rintro vm ⟨⟩
    refine ⟨fun t ht => ?_, ?_⟩
    · have hpml4 : t.pml4 = 256 := pml4_eq ht (by decide +kernel)
      have hbase : t.mmapBase = 0x7FFF00000000 := mmapBase_eq ht (by decide +kernel)
      refine ⟨⟨by decide, ?_⟩, fun va hfloor hva => ?_⟩
      · rw [hpml4]
        decide +kernel
      · simp only [vpage]
        omega
    rintro vm ⟨⟩
    refine ⟨fun t ht => ⟨?_, fun haddr => absurd rfl haddr⟩, fun _ _ => trivial⟩
    have hbase : t.mmapBase = 0x7FFF00000000 := mmapBase_eq ht (by decide +kernel)
    exact onePage_placed hbase (by norm_num)
  obtain ⟨vm, hrun, hlaw⟩ := apart_run_successLaw 0x7FFE00000000 smallMem smallFrames_bootable _
    hapart
  cases hrun
  refine ⟨_, _, rfl, mem_cons_self, by decide +kernel, hlaw _ mem_cons_self _ _ _ ?_
    (onePage_whole 0)⟩
  refine onePage_placed (?_ : _ = 0x7FFEFFFFF000) (by norm_num)
  decide +kernel

/-- A mapping at a fixed address just below the pointer, and one for which the kernel chooses the
address: it is the same. -/
theorem mmap_overlaps_fixed :
    ∃ vm t, run Vm.stepOk (regionStart ++ [.mmap 0 ((onePage 0x7FFEFFFFF000).args 0)])
        (Vm.boot smallMem) = .ok vm ∧ t ∈ vm.tasks ∧
      ¬ SuccessLaw vm.mem t (onePage 0) (fun _ => 0) 0 := by
  refine ⟨_, _, rfl, mem_cons_self, fun h => ?_⟩
  refine (h 0x7FFEFFFFF000 (by decide +kernel)).apart rfl 0 (by decide) (.inr ?_)
  decide +kernel

end Shitix.Paging
