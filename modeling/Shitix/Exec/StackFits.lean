import Shitix.Exec.StackLaw

/-!
# When the law of the initial stack holds

`StackLaw` leaves no choice: what the program reads determines the strings
(`StackLaw.unique`).  The construction always leaves the strings it has put, so the law
for the caller's strings holds exactly if those are the same, that is, if no string is
too long, no vector is cut off or empty, and everything fits into the top page.  If
it does not fit, a checked build panics, and an unchecked one writes below the top
page, which need not be a page of the stack.
-/

namespace Shitix.Exec

open List StackPages

/-! ## The strings are determined -/

section Unique

variable {pages : StackPages} {mem : ByteMem} {va : ℕ} {first second : List UInt8} {vas : List ℕ}

theorem BytesAt.unique (h : BytesAt pages mem va first) (h' : BytesAt pages mem va second)
    (hlength : first.length = second.length) : first = second := by
  refine ext_getElem hlength fun i hi hi' => ?_
  have hload := h i _ (getElem?_eq_getElem hi)
  rw [h' i _ (getElem?_eq_getElem hi')] at hload
  exact (Option.some.inj hload).symm

/-- Two lists without `z`, ended by it, that agree as far as both go. -/
theorem ended_unique {α : Type*} {z : α} {first : List α} : ∀ {second : List α},
    (∀ (i : ℕ) x y, (first ++ [z])[i]? = some x → (second ++ [z])[i]? = some y → x = y) → z ∉ first →
    z ∉ second → first = second := by
  induction first with
  | nil =>
    intro second h _ hsecond
    cases second with
    | nil => rfl
    | cons y second => exact absurd (h 0 z y rfl rfl ▸ mem_cons_self) hsecond
  | cons x first ih =>
    intro second h hfirst hsecond
    cases second with
    | nil => exact absurd (h 0 x z rfl rfl ▸ mem_cons_self) hfirst
    | cons y second =>
      rw [h 0 x y rfl rfl, ih (fun i => h (i + 1)) (not_mem_of_not_mem_cons hfirst)
        (not_mem_of_not_mem_cons hsecond)]

/-- Two strings without zero bytes, ended by one, at the same address. -/
theorem string_unique (h : BytesAt pages mem va (first ++ [0]))
    (h' : BytesAt pages mem va (second ++ [0])) (htext : 0 ∉ first) (htext' : 0 ∉ second) :
    first = second :=
  ended_unique (fun i x y hx hy => Option.some.inj ((h i x hx).symm.trans (h' i y hy))) htext
    htext'

theorem BytesAt.word {values : List ℕ} : ∀ {va i value : ℕ}, BytesAt pages mem va (words values) →
    values[i]? = some value → BytesAt pages mem (va + 8 * i) (leBytes 8 value) := by
  induction values with
  | nil =>
    intro va i value _ hvalue
    cases hvalue
  | cons first values ih =>
    intro va i value h hvalue
    rw [words, flatMap_cons] at h
    cases i with
    | zero =>
      cases hvalue
      exact h.left
    | succ i =>
      have hrest : BytesAt pages mem (va + 8) (words values) := by
        intro j b hb
        have hplace := h (8 + j) b (by
          rw [getElem?_append_right (by simp), length_leBytes, Nat.add_sub_cancel_left]
          exact hb)
        rwa [← add_assoc] at hplace
      have hword := ih hrest hvalue
      rwa [show va + 8 * (i + 1) = va + 8 + 8 * i by omega]

/-- Words at the same place agree, as far as words of 64 bits go. -/
theorem word_unique {first second : List ℕ} (h : BytesAt pages mem va (words first))
    (h' : BytesAt pages mem va (words second)) {i x y : ℕ} (hx : first[i]? = some x)
    (hy : second[i]? = some y) (hx64 : x < 2 ^ 64) (hy64 : y < 2 ^ 64) : x = y := by
  have hbytes := (h.word hx).unique (h'.word hy) (by simp)
  have hvalue := congrArg leValue hbytes
  rw [leValue_leBytes, leValue_leBytes, show 256 ^ 8 = 2 ^ 64 from rfl, Nat.mod_eq_of_lt hx64,
    Nat.mod_eq_of_lt hy64] at hvalue
  exact hvalue

/-- The address of a string is an address of the stack. -/
theorem string_va {s : List UInt8} (h : BytesAt pages mem va (s ++ [0])) : va ≠ 0 ∧ va < 2 ^ 64 :=
    by
  cases hs : (s ++ [0])[0]? with
  | none => simp at hs
  | some b =>
    obtain ⟨hbase, htop⟩ := range_of_load (h 0 b hs)
    simp only [stackTopVa, stackBaseVa, stackPages, pageSize] at hbase htop
    omega

theorem strings_va {strings : List (List UInt8)}
    (h : List.Forall₂ (fun va s => BytesAt pages mem va (s ++ [0])) vas strings) :
    ∀ va ∈ vas, va ≠ 0 ∧ va < 2 ^ 64 := by
  induction h with
  | nil => exact fun _ hva => absurd hva not_mem_nil
  | cons hfirst _ ih => exact forall_mem_cons.mpr ⟨string_va hfirst, ih⟩

/-- The addresses of two vectors of strings, if the vectors are read at the same place. -/
theorem vas_unique {vas' : List ℕ} {strings strings' : List (List UInt8)}
    (h : List.Forall₂ (fun va s => BytesAt pages mem va (s ++ [0])) vas strings)
    (h' : List.Forall₂ (fun va s => BytesAt pages mem va (s ++ [0])) vas' strings')
    (hread : ∀ i x y : ℕ, (vas ++ [0])[i]? = some x → (vas' ++ [0])[i]? = some y → x < 2 ^ 64 →
      y < 2 ^ 64 → x = y) : vas = vas' := by
  have hsmall : ∀ {vas : List ℕ}, (∀ va ∈ vas, va ≠ 0 ∧ va < 2 ^ 64) →
      ∀ {i x : ℕ}, (vas ++ [0])[i]? = some x → x < 2 ^ 64 := by
    intro vas hvas i x hx
    rcases mem_append.mp (mem_of_getElem? hx) with hmem | hzero
    · exact (hvas x hmem).2
    · rw [mem_singleton.mp hzero]
      decide
  have hvas := strings_va h
  have hvas' := strings_va h'
  exact ended_unique (fun i x y hx hy => hread i x y hx hy (hsmall hvas hx) (hsmall hvas' hy))
    (fun hzero => (hvas 0 hzero).1 rfl) fun hzero => (hvas' 0 hzero).1 rfl

theorem strings_unique {first second : List (List UInt8)}
    (h : List.Forall₂ (fun va s => BytesAt pages mem va (s ++ [0])) vas first)
    (h' : List.Forall₂ (fun va s => BytesAt pages mem va (s ++ [0])) vas second)
    (htext : ∀ s ∈ first, 0 ∉ s) (htext' : ∀ s ∈ second, 0 ∉ s) : first = second := by
  induction h generalizing second with
  | nil =>
    cases h'
    rfl
  | cons hfirst _ ih =>
    cases h' with
    | cons hfirst' hrest' =>
      rw [forall_mem_cons] at htext htext'
      rw [string_unique hfirst hfirst' htext.1 htext'.1, ih hrest' htext.2 htext'.2]

end Unique

section Words

variable {info : ImageInfo} {argvVas envpVas : List ℕ} {randomVa platformVa execfnVa : ℕ}

theorem stackWords_argv {i va : ℕ} (h : (argvVas ++ [0])[i]? = some va) :
    (stackWords info argvVas envpVas randomVa platformVa execfnVa)[i + 1]? = some va := by
  have hi : i < argvVas.length + 1 := by
    simpa using (List.getElem?_eq_some_iff.mp h).1
  have hsplit : stackWords info argvVas envpVas randomVa platformVa execfnVa =
      argvVas.length :: ((argvVas ++ [0]) ++ (envpVas ++ 0 ::
        (auxiliary info randomVa platformVa execfnVa).flatMap fun p => [p.1, p.2])) := by
    simp [stackWords]
  rw [hsplit, getElem?_cons_succ, getElem?_append_left (by simpa using hi), h]

theorem stackWords_envp {i va : ℕ} (h : (envpVas ++ [0])[i]? = some va) :
    (stackWords info argvVas envpVas randomVa platformVa execfnVa)[argvVas.length + 2 + i]? =
      some va := by
  have hi : i < envpVas.length + 1 := by
    simpa using (List.getElem?_eq_some_iff.mp h).1
  have hsplit : stackWords info argvVas envpVas randomVa platformVa execfnVa =
      (argvVas.length :: argvVas ++ [0]) ++ ((envpVas ++ [0]) ++
        (auxiliary info randomVa platformVa execfnVa).flatMap fun p => [p.1, p.2]) := by
    simp [stackWords]
  have hlength : (argvVas.length :: argvVas ++ [0]).length = argvVas.length + 2 := by simp
  rw [hsplit, getElem?_append_right (by omega), hlength, Nat.add_sub_cancel_left,
    getElem?_append_left (by simpa using hi), h]

theorem stackWords_execfn :
    (stackWords info argvVas envpVas randomVa platformVa execfnVa)[argvVas.length +
      envpVas.length + 26]? = some execfnVa := by
  have hsplit : stackWords info argvVas envpVas randomVa platformVa execfnVa =
      (argvVas.length :: argvVas ++ 0 :: envpVas ++ [0]) ++
        (auxiliary info randomVa platformVa execfnVa).flatMap fun p => [p.1, p.2] := by
    simp [stackWords]
  have hlength : (argvVas.length :: argvVas ++ 0 :: envpVas ++ [0]).length =
      argvVas.length + envpVas.length + 3 := by
    simp
    omega
  rw [hsplit, getElem?_append_right (by omega), hlength,
    show argvVas.length + envpVas.length + 26 - (argvVas.length + envpVas.length + 3) = 23 by omega]
  rfl

end Words

/-- What the program reads determines the strings. -/
theorem StackLaw.unique {argv argv' envp envp' : List (List UInt8)} {name name' : List UInt8}
    {info : ImageInfo} {pages : StackPages} {built : Built}
    (h : StackLaw argv envp name info pages built)
    (h' : StackLaw argv' envp' name' info pages built) (hargv : ∀ s ∈ argv, 0 ∉ s)
    (hargv' : ∀ s ∈ argv', 0 ∉ s) (henvp : ∀ s ∈ envp, 0 ∉ s) (henvp' : ∀ s ∈ envp', 0 ∉ s)
    (hname : 0 ∉ name) (hname' : 0 ∉ name') : argv = argv' ∧ envp = envp' ∧ name = name' := by
  obtain ⟨argvVas, envpVas, randomVa, platformVa, execfnVa, hcopies, hcopiesEnv, -, -, hexecfn,
    hwords⟩ := h.vectors
  obtain ⟨argvVas', envpVas', randomVa', platformVa', execfnVa', hcopies', hcopiesEnv', -, -,
    hexecfn', hwords'⟩ := h'.vectors
  obtain rfl : argvVas = argvVas' := vas_unique hcopies hcopies' fun i x y hx hy =>
    word_unique hwords hwords' (stackWords_argv hx) (stackWords_argv hy)
  obtain rfl : envpVas = envpVas' := vas_unique hcopiesEnv hcopiesEnv' fun i x y hx hy =>
    word_unique hwords hwords' (stackWords_envp hx) (stackWords_envp hy)
  have hfn : execfnVa = execfnVa' := word_unique hwords hwords' stackWords_execfn stackWords_execfn
    (string_va hexecfn).2 (string_va hexecfn').2
  subst hfn
  exact ⟨strings_unique hcopies hcopies' hargv hargv',
    strings_unique hcopiesEnv hcopiesEnv' henvp henvp', string_unique hexecfn hexecfn' hname hname'⟩

/-! ## Strings that do not fit -/

theorem putSlot_kept {pages : StackPages} {mem : ByteMem} {slot : ℤ} {value a : ℕ}
    (h : a ∈ mem.written) : a ∈ (putSlot pages mem slot value).written :=
  ByteMem.mem_written_copy.mpr (.inl h)

theorem putSlots_kept {pages : StackPages} {a : ℕ} : ∀ (values : List ℕ) (mem : ByteMem) (slot : ℤ),
    a ∈ mem.written → a ∈ (putSlots pages values (mem, slot)).1.written := by
  intro values
  induction values with
  | nil => exact fun _ _ h => h
  | cons value values ih => exact fun mem slot h => ih _ _ (putSlot_kept h)

section Fits

variable {c : Caller} {args : ExecArgs} {argv envp : List (List UInt8)} {name : List UInt8}

/-- The whole string area is written, and a checked build has a slot left below it. -/
theorem buildStack_area (hargv : HasArguments c args.argv argv)
    (henvp : HasArguments c args.envp envp) (hname : HasString c args.filename name)
    (hfilename : args.filename ≠ 0) {checked : Bool} {pages : StackPages} {info : ImageInfo}
    {byte : ℕ → UInt8} {built : Built}
    (hbuild : buildStack checked c pages args info { byte := byte, written := [] } = .ok built) :
    ∃ cur, cur + areaSize argv envp name = pages.topPage + pageSize ∧
      ¬ (checked = true ∧ (cur - cur % 16 < pages.topPage ∨
        (cur - cur % 16 - pages.topPage) / 8 < 1)) ∧
      ∀ x, cur ≤ x → x < pages.topPage + pageSize → x ∈ built.mem.written := by
  obtain ⟨s, argvVas, envpVas, randomVa, platformVa, execfnVa, hrun, hspec⟩ :=
    putStrings_spec hargv henvp hname hfilename info pages.end_facts.1 pages.end_facts.2
      { byte := byte, written := [] }
  simp only [buildStack, topPage_eq, hrun] at hbuild
  by_cases hpanic : checked = true ∧ (s.cur - s.cur % 16 < pages.topPage ∨
      (s.cur - s.cur % 16 - pages.topPage) / 8 < 1)
  · rw [if_pos hpanic] at hbuild
    cases hbuild
  rw [if_neg hpanic] at hbuild
  cases hbuild
  refine ⟨s.cur, hspec.size, hpanic, fun x hlow hhigh => ?_⟩
  exact putSlot_kept (putSlots_kept _ _ _ ((hspec.grown.written x).mpr (.inr ⟨hlow, hhigh⟩)))

/-- Every second frame. -/
def sparseFrame (k : ℕ) : ℕ := 0x100000 + 0x2000 * k

theorem sparseFrame_aligned (k : ℕ) : sparseFrame k % pageSize = 0 := by
  simp only [sparseFrame, pageSize]
  omega

theorem sparseFrame_injective {j k : ℕ} (h : sparseFrame j = sparseFrame k) : j = k := by
  simp only [sparseFrame] at h
  omega

/-- Stack pages with a gap below each of them. -/
def sparsePages : StackPages where
  frame := sparseFrame
  aligned := sparseFrame_aligned
  distinct _ _ _ _ h := sparseFrame_injective h
  high k := Nat.le_add_right _ (0x2000 * k)

/-- The place below the top page is not a place of the stack. -/
theorem sparsePages_gap : ¬ InPages sparsePages (sparsePages.topPage - 1) := by
  rintro ⟨k, -, hlow, hhigh⟩
  simp only [sparsePages, sparseFrame, topPage, pageSize] at hlow hhigh
  omega

/-! ## The law -/

/-- The law for given arguments, whatever was in the frames of the stack. -/
def Obeys (checked : Bool) (c : Caller) (low : LowMap) (pages : StackPages) (args : ExecArgs)
    (info : ImageInfo) (argv envp : List (List UInt8)) (name : List UInt8) : Prop :=
  ∀ byte, ∃ built, execStack checked c low pages args info byte = .ok built ∧
    StackLaw argv envp name info pages built

/-- No frame of the stack lies where the caller has a page of its own. -/
def LowMap.Spares (low : LowMap) (pages : StackPages) : Prop :=
  ∀ k < stackPages, low.frame (pages.frame k / pageSize) = pages.frame k / pageSize

/-- The pages that the caller has are not those of the new stack. -/
def LowMap.Apart (low : LowMap) (pages : StackPages) : Prop :=
  ∀ page, low.frame page ≠ page → ∀ k < stackPages, low.frame page * pageSize ≠ pages.frame k

/-- The law, whatever frames the stack has, as long as they can be reached. -/
def ObeysStackLaw (checked : Bool) (c : Caller) (args : ExecArgs) (info : ImageInfo)
    (argv envp : List (List UInt8)) (name : List UInt8) : Prop :=
  ∀ pages low, low.Spares pages → Obeys checked c low pages args info argv envp name

/-- The bytes strings take, each with its end. -/
def stringSize (strings : List (List UInt8)) : ℕ := (strings.map fun s => s.length + 1).sum

/-- At least one argument, at most 64 strings in each vector, and all of them in the top page,
below `AT_RANDOM` and the platform. -/
structure FitsTopPage (checked : Bool) (argv envp : List (List UInt8)) (name : List UInt8) :
    Prop where
  nonempty : argv ≠ []
  argc : argv.length ≤ maxArgs
  envc : envp.length ≤ maxArgs
  size : 16 + 7 + stringSize argv + stringSize envp + (name.length + 1) ≤ roomFor checked

/-! ## Where the stores end up -/

section Land

variable {low : LowMap} {pages : StackPages} {mem : ByteMem} {old : ℕ → UInt8} {x : ℕ}

theorem phys_of_spares (h : low.Spares pages) (hx : InPages pages x) : low.phys x = x := by
  obtain ⟨k, hk, hlow, hhigh⟩ := hx
  have haligned := pages.aligned k
  have hpage : x / pageSize = pages.frame k / pageSize := by
    simp only [pageSize] at *
    omega
  rw [LowMap.phys, hpage, h k hk, ← hpage]
  exact Nat.div_add_mod' x pageSize

theorem land_byte (hinside : ∀ a ∈ mem.written, low.phys a = a) (hx : low.phys x = x) :
    (low.land old mem).byte x = mem.byte x := by
  simp only [LowMap.land]
  cases hfind : mem.written.find? fun a => low.phys a = x with
  | none => exact if_pos hx
  | some a =>
    have ha : low.phys a = x := by simpa using find?_some hfind
    rw [← ha, hinside a (mem_of_find?_eq_some hfind)]

theorem land_written (hinside : ∀ a ∈ mem.written, low.phys a = a) :
    (low.land old mem).written = mem.written :=
  (map_congr_left hinside).trans (map_id _)

/-- The law of the memory that the kernel addresses, for the stack that the new image finds. -/
theorem StackLaw.land {argv envp : List (List UInt8)} {name : List UInt8} {info : ImageInfo}
    {built : Built} (hspares : low.Spares pages) (h : StackLaw argv envp name info pages built)
    (old : ℕ → UInt8) :
    StackLaw argv envp name info pages { built with mem := low.land old built.mem } := by
  have hinside : ∀ a ∈ built.mem.written, low.phys a = a := fun a ha =>
    phys_of_spares hspares (h.inside a ha)
  have hkept : ∀ {va : ℕ} {bytes : List UInt8}, BytesAt pages built.mem va bytes →
      BytesAt pages (low.land old built.mem) va bytes := by
    intro va bytes hbytes i b hb
    have hload := hbytes i b hb
    obtain ⟨hbase, htop⟩ := range_of_load hload
    rw [load_eq hbase htop] at hload ⊢
    rw [land_byte hinside (phys_of_spares hspares (phys_inPages hbase htop))]
    exact hload
  obtain ⟨argvVas, envpVas, randomVa, platformVa, execfnVa, hargv, henvp, hrandom, hplatform, hexecfn,
    hwords⟩ := h.vectors
  refine ⟨⟨argvVas, envpVas, randomVa, platformVa, execfnVa, hargv.imp fun _ _ => hkept,
    henvp.imp fun _ _ => hkept, hkept hrandom, hkept hplatform, hkept hexecfn, hkept hwords⟩,
    h.aligned, ?_⟩
  rw [land_written hinside]
  exact h.inside

/-- A caller without low pages. -/
def noPages : LowMap := ⟨id⟩

theorem land_noPages : noPages.land old mem = mem := by
  have hphys : ∀ a, noPages.phys a = a := fun a => Nat.div_add_mod' a pageSize
  have hbyte : (noPages.land old mem).byte = mem.byte := funext fun x =>
    land_byte (fun a _ => hphys a) (hphys x)
  have hwritten : (noPages.land old mem).written = mem.written := land_written fun a _ => hphys a
  cases mem with
  | mk byte written => exact congrArg₂ ByteMem.mk hbyte hwritten

/-- A stack that the new image finds was built. -/
theorem execStack_ok {checked : Bool} {c : Caller} {args : ExecArgs} {info : ImageInfo}
    {landed : Built} (h : execStack checked c low pages args info old = .ok landed) :
    ∃ built, buildStack checked c pages args info { byte := old, written := [] } = .ok built ∧
      landed = { built with mem := low.land old built.mem } := by
  unfold execStack at h
  cases hbuild : buildStack checked c pages args info { byte := old, written := [] } with
  | error _ =>
    rw [hbuild] at h
    cases h
  | ok built =>
    rw [hbuild] at h
    exact ⟨built, rfl, (Except.ok.inj h).symm⟩

end Land

theorem HasArguments.text {arr : ℕ} {strings : List (List UInt8)} (h : HasArguments c arr strings) :
    ∀ s ∈ strings, 0 ∉ s := by
  rcases h with ⟨-, rfl⟩ | ⟨-, hvector⟩
  · exact fun _ hs => absurd hs not_mem_nil
  · induction hvector with
    | nil => exact fun _ hs => absurd hs not_mem_nil
    | cons _ _ string _ ih => exact forall_mem_cons.mpr ⟨string.text, ih⟩

theorem placed_text {s : List UInt8} (h : 0 ∉ s) : 0 ∉ placed s := by
  rw [placed]
  split_ifs
  · exact h
  · exact not_mem_nil

theorem placed_eq_iff {s : List UInt8} : placed s = s ↔ s.length < 4096 := by
  rw [placed]
  split_ifs with h
  · exact ⟨fun _ => h, fun _ => rfl⟩
  · refine ⟨fun heq => ?_, fun hlt => absurd hlt h⟩
    subst heq
    exact absurd (by decide) h

theorem length_block {s : List UInt8} (h : s.length < 4096) : (block s).length = s.length + 1 := by
  rw [block, placed_eq_iff.mpr h, length_append, length_singleton]

section

variable {strings : List (List UInt8)}

theorem blockSize_eq (h : ∀ s ∈ strings, s.length < 4096) :
    blockSize strings = stringSize strings :=
  congrArg sum (map_congr_left fun s hs => length_block (h s hs))

theorem map_placed (h : ∀ s ∈ strings, s.length < 4096) : strings.map placed = strings := by
  have hsame : strings.map placed = strings.map id :=
    map_congr_left fun s hs => placed_eq_iff.mpr (h s hs)
  rw [hsame, map_id]

theorem short_of_map_placed (h : strings.map placed = strings) :
    ∀ s ∈ strings, s.length < 4096 := by
  have hsame : strings.map placed = strings.map id := by rw [h, map_id]
  exact fun s hs => placed_eq_iff.mp (map_inj_left.mp hsame s hs)

theorem length_le_stringSize {s : List UInt8} (hs : s ∈ strings) :
    s.length + 1 ≤ stringSize strings := by
  induction strings with
  | nil => cases hs
  | cons first strings ih =>
    rcases mem_cons.mp hs with rfl | hrest
    · exact Nat.le_add_right _ _
    · exact (ih hrest).trans (Nat.le_add_left _ _)

end

theorem roomFor_le (checked : Bool) : roomFor checked ≤ 4096 := by
  rw [roomFor]
  split_ifs <;> decide

section

variable (hargv : HasArguments c args.argv argv) (henvp : HasArguments c args.envp envp)
  (hname : HasString c args.filename name) (hfilename : args.filename ≠ 0) {checked : Bool}

include hargv henvp hname hfilename

theorem obeysStackLaw_of_fits (info : ImageInfo)
    (hfits : FitsTopPage checked argv envp name) :
    ObeysStackLaw checked c args info argv envp name := by
  have hroom := roomFor_le checked
  have hsize := hfits.size
  have hargvShort : ∀ s ∈ argv, s.length < 4096 := fun s hs => by
    have := length_le_stringSize hs
    omega
  have henvpShort : ∀ s ∈ envp, s.length < 4096 := fun s hs => by
    have := length_le_stringSize hs
    omega
  have hnameShort : name.length < 4096 := by omega
  have hargvPut : argvPut argv name = argv := by
    rw [argvPut, if_neg hfits.nonempty, take_of_length_le hfits.argc]
  have henvpPut : envp.take maxArgs = envp := take_of_length_le hfits.envc
  intro pages low hspares byte
  have hplaced := buildStack_placed hargv henvp hname hfilename checked pages info byte (by
    rw [areaSize, hargvPut, henvpPut, blockSize_eq hargvShort, blockSize_eq henvpShort,
      length_block hnameShort]
    exact hsize)
  rw [hargvPut, henvpPut, map_placed hargvShort, map_placed henvpShort,
    placed_eq_iff.mpr hnameShort] at hplaced
  obtain ⟨built, hbuild, hlaw⟩ := hplaced
  refine ⟨_, ?_, hlaw.land hspares byte⟩
  rw [execStack, hbuild]
  rfl

theorem fits_of_obeysStackLaw {info : ImageInfo}
    (h : ObeysStackLaw checked c args info argv envp name) :
    FitsTopPage checked argv envp name := by
  obtain ⟨landed, hexec, hlaw⟩ := h sparsePages noPages (fun _ _ => rfl) fun _ => 0
  obtain ⟨built, hbuild, rfl⟩ := execStack_ok hexec
  rw [land_noPages] at hlaw
  by_cases harea : areaSize argv envp name ≤ roomFor checked
  · obtain ⟨built', hbuild', hplaced⟩ :=
      buildStack_placed hargv henvp hname hfilename checked sparsePages info (fun _ => 0) harea
    obtain rfl := Except.ok.inj (hbuild.symm.trans hbuild')
    have hputText : ∀ s ∈ (argvPut argv name).map placed, 0 ∉ s := by
      intro s hs
      obtain ⟨t, ht, rfl⟩ := mem_map.mp hs
      refine placed_text ?_
      rw [argvPut] at ht
      split_ifs at ht
      · rw [mem_singleton.mp ht]
        exact hname.text
      · exact hargv.text t (mem_of_mem_take ht)
    have henvText : ∀ s ∈ (envp.take maxArgs).map placed, 0 ∉ s := by
      intro s hs
      obtain ⟨t, ht, rfl⟩ := mem_map.mp hs
      exact placed_text (henvp.text t (mem_of_mem_take ht))
    obtain ⟨hargvEq, henvpEq, hnameEq⟩ := hlaw.unique hplaced hargv.text hputText henvp.text
      henvText hname.text (placed_text hname.text)
    -- nothing was cut off
    have hnonempty : argv ≠ [] := by
      rintro rfl
      cases hargvEq
    rw [argvPut, if_neg hnonempty] at hargvEq
    have hargc : argv.length ≤ maxArgs := by
      rw [hargvEq, length_map]
      exact length_take_le _ _
    have henvc : envp.length ≤ maxArgs := by
      rw [henvpEq, length_map]
      exact length_take_le _ _
    rw [take_of_length_le hargc] at hargvEq
    rw [take_of_length_le henvc] at henvpEq
    refine ⟨hnonempty, hargc, henvc, ?_⟩
    rw [areaSize, argvPut, if_neg hnonempty, take_of_length_le hargc,
      take_of_length_le henvc, blockSize_eq (short_of_map_placed hargvEq.symm),
      blockSize_eq (short_of_map_placed henvpEq.symm),
      length_block (placed_eq_iff.mp hnameEq.symm)] at harea
    exact harea
  · -- the strings reach below the top page, and there is no stack page
    obtain ⟨cur, hsize, hpanic, hwritten⟩ := buildStack_area hargv henvp hname hfilename hbuild
    have hhigh := sparsePages.high 511
    have haligned := sparsePages.aligned 511
    have hbelow : cur < sparsePages.topPage := by
      cases checked with
      | false =>
        simp only [roomFor, pageSize, Bool.false_eq_true, if_false] at *
        omega
      | true =>
        simp only [roomFor, topPage, pageSize, if_true, true_and] at *
        omega
    refine absurd (hlaw.inside _ (hwritten (sparsePages.topPage - 1) ?_ ?_)) sparsePages_gap
    · omega
    · simp only [topPage, pageSize] at *
      omega

/-- If the caller has a page at the address of the top frame, the strings go there. -/
theorem not_obeys_of_top {pages : StackPages} {low : LowMap} (info : ImageInfo)
    (hapart : low.Apart pages)
    (htop : low.frame (pages.topPage / pageSize) ≠ pages.topPage / pageSize) :
    ¬ Obeys checked c low pages args info argv envp name := by
  intro h
  obtain ⟨landed, hexec, hlaw⟩ := h fun _ => 0
  obtain ⟨built, hbuild, rfl⟩ := execStack_ok hexec
  obtain ⟨cur, hsize, -, hwritten⟩ := buildStack_area hargv henvp hname hfilename hbuild
  have haligned := pages.aligned 511
  have hpos : 0 < areaSize argv envp name := by
    unfold areaSize
    omega
  have hlast := hwritten (pages.topPage + 4095) (by simp only [pageSize] at *; omega)
    (by simp only [pageSize]; omega)
  -- the last byte of the page is not in the stack
  obtain ⟨k, hk, hlow, hhigh⟩ := hlaw.inside _ (mem_map_of_mem hlast)
  have hpage : (pages.topPage + 4095) / pageSize = pages.topPage / pageSize := by
    simp only [topPage, pageSize] at *
    omega
  refine hapart _ htop k hk ?_
  have halignedk := pages.aligned k
  rw [LowMap.phys, hpage] at hlow hhigh
  generalize low.frame (pages.topPage / pageSize) = target at hlow hhigh
  simp only [topPage, pageSize] at *
  omega

end

end Fits

/-- A caller with an `argv` of `count` times the same string, `length` letters long. -/
def repeating (count length : ℕ) : Caller where
  ok _ _ := true
  byte a :=
    if 0x1000 ≤ a ∧ a < 0x1000 + 8 * count then if a % 8 = 1 then 0x20 else 0
    else if 0x2000 ≤ a ∧ a < 0x2000 + length then 97
    else 0

theorem repeating_string {count length : ℕ} (hcount : count ≤ 512) :
    HasString (repeating count length) 0x2000 (replicate length 97) := by
  refine ⟨rfl, rfl, fun i b hb => ?_, fun h => ?_⟩
  · have hnot : ¬ (0x1000 ≤ 0x2000 + i ∧ 0x2000 + i < 0x1000 + 8 * count) := by omega
    simp only [repeating, if_neg hnot]
    by_cases hi : i < length
    · rw [getElem?_append_left (by simpa using hi), getElem?_replicate, if_pos hi] at hb
      cases hb
      exact if_pos ⟨Nat.le_add_right _ _, Nat.add_lt_add_left hi _⟩
    · rw [getElem?_append_right (by simpa using hi), length_replicate] at hb
      have hend : i - length = 0 := by
        have := (List.getElem?_eq_some_iff.mp hb).1
        simpa using this
      rw [hend] at hb
      cases hb
      exact if_neg fun hrange => hi (lt_of_add_lt_add_left hrange.2)
  · cases eq_of_mem_replicate h

theorem hasString_of_bytes {c : Caller} {p : ℕ} {s : List UInt8} (hok : ∀ a n, c.ok a n = true)
    (hbytes : c.bytes p (s ++ [0]).length = s ++ [0]) (htext : 0 ∉ s) : HasString c p s := by
  refine ⟨hok p 1, hok p _, fun i b hb => ?_, htext⟩
  have hi : i < (s ++ [0]).length := (List.getElem?_eq_some_iff.mp hb).1
  rw [← hbytes, Caller.bytes, getElem?_map, getElem?_range hi] at hb
  exact Option.some.inj hb

/-- The call `execve("/ls", ["ls", "-l"], ["A=1", "B=2"])`: two vectors of pointers, and five
strings. -/
def listing : Caller where
  ok _ _ := true
  byte a :=
    ([0x34, 0x10, 0, 0, 0, 0, 0, 0, 0x37, 0x10, 0, 0, 0, 0, 0, 0, 0, 0, 0, 0, 0, 0, 0, 0,
      0x3a, 0x10, 0, 0, 0, 0, 0, 0, 0x3e, 0x10, 0, 0, 0, 0, 0, 0, 0, 0, 0, 0, 0, 0, 0, 0,
      47, 108, 115, 0, 108, 115, 0, 45, 108, 0, 65, 61, 49, 0, 66, 61, 50, 0] : List UInt8).getD
      (a - 0x1000) 0

/-- Two long arguments do not fit into one page together. -/
theorem not_fitsTopPage_long (checked : Bool) : ¬ FitsTopPage checked
    [replicate 2100 97, replicate 2100 97] [] (replicate 2100 97) := by
  intro h
  have hsize := h.size
  simp only [stringSize, map_cons, map_nil, sum_cons,
    length_replicate] at hsize
  have := roomFor_le checked
  omega

end Shitix.Exec
