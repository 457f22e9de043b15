import Shitix.Exec.Stack
import Mathlib.Data.List.Forall2
import Mathlib.Tactic.Linarith

/-!
# The law of the initial stack

`StackLaw` is what a program may expect of its stack: `argc`, the two vectors of
pointers to exact copies of the caller's strings, both ended by a null pointer, the
auxiliary vector, an aligned stack pointer, and nothing written outside the pages of
the stack.

The construction is followed in two phases.  In the string area every step is a
`push` below the last one, and `Grown` says what a sequence of them leaves alone.
Below it the slots are written downwards through `translate`.  The law holds for all
frames and all old contents of the pages exactly if the strings fit into the top page
and neither vector is cut off.
-/

namespace Shitix.Exec

open List StackPages ByteMem Nat

/-! ## The law -/

/-- What the new image reads at an address of its stack. -/
def StackPages.load (pages : StackPages) (mem : ByteMem) (va : ℕ) : Option UInt8 :=
  (pages.translate va).map mem.byte

/-- The new image reads these bytes from an address on. -/
def BytesAt (pages : StackPages) (mem : ByteMem) (va : ℕ) (bytes : List UInt8) : Prop :=
  ∀ i b, bytes[i]? = some b → pages.load mem (va + i) = some b

/-- A byte of one of the stack pages. -/
def InPages (pages : StackPages) (a : ℕ) : Prop :=
  ∃ k < stackPages, pages.frame k ≤ a ∧ a < pages.frame k + pageSize

/-- Words of eight bytes. -/
def words (values : List ℕ) : List UInt8 := values.flatMap (leBytes 8)

/-- What the stack holds from the stack pointer up. -/
def stackWords (info : ImageInfo) (argvVas envpVas : List ℕ) (randomVa platformVa execfnVa : ℕ) :
    List ℕ :=
  argvVas.length :: argvVas ++ 0 :: envpVas ++
    0 :: (auxiliary info randomVa platformVa execfnVa).flatMap fun p => [p.1, p.2]

/-- The stack a program may expect. -/
structure StackLaw (argv envp : List (List UInt8)) (name : List UInt8) (info : ImageInfo)
    (pages : StackPages) (built : Built) : Prop where
  vectors : ∃ argvVas envpVas randomVa platformVa execfnVa,
    List.Forall₂ (fun va s => BytesAt pages built.mem va (s ++ [0])) argvVas argv ∧
    List.Forall₂ (fun va s => BytesAt pages built.mem va (s ++ [0])) envpVas envp ∧
    BytesAt pages built.mem randomVa info.random.toList ∧
    BytesAt pages built.mem platformVa (platform ++ [0]) ∧
    BytesAt pages built.mem execfnVa (name ++ [0]) ∧
    BytesAt pages built.mem built.rsp
      (words (stackWords info argvVas envpVas randomVa platformVa execfnVa))
  aligned : built.rsp % 16 = 0
  inside : ∀ a ∈ built.mem.written, InPages pages a

/-! ## What the caller passes -/

/-- A string of the caller: readable, ended by a zero byte. -/
structure HasString (c : Caller) (p : ℕ) (s : List UInt8) : Prop where
  start : c.ok p 1 = true
  all : c.ok p s.length = true
  bytes : ∀ i b, (s ++ [0])[i]? = some b → c.byte (p + i) = b
  text : 0 ∉ s

/-- A vector of pointers to strings, ended by a null pointer. -/
inductive HasVector (c : Caller) : ℕ → List (List UInt8) → Prop
  | nil {arr : ℕ} (readable : c.ok arr 8 = true) (null : c.word arr = 0) : HasVector c arr []
  | cons {arr : ℕ} {s : List UInt8} {rest : List (List UInt8)} (readable : c.ok arr 8 = true)
      (pointer : c.word arr ≠ 0) (string : HasString c (c.word arr) s)
      (next : HasVector c (arr + 8) rest) : HasVector c arr (s :: rest)

/-- An `argv` or `envp`; a null pointer is an empty vector. -/
def HasArguments (c : Caller) (arr : ℕ) (strings : List (List UInt8)) : Prop :=
  (arr = 0 ∧ strings = []) ∨ (arr ≠ 0 ∧ HasVector c arr strings)

theorem strnlen_eq {c : Caller} {s : List UInt8} (htext : 0 ∉ s) : ∀ {p : ℕ},
    (∀ i b, (s ++ [0])[i]? = some b → c.byte (p + i) = b) → ∀ count,
    c.strnlen p count = min count s.length := by
  induction s with
  | nil =>
    intro p hbytes count
    have hzero : c.byte p = 0 := hbytes 0 0 rfl
    cases count with
    | zero => rfl
    | succ count => rw [Caller.strnlen, if_pos hzero, length_nil, min_zero]
  | cons first s ih =>
    intro p hbytes count
    have hfirst : c.byte p = first := hbytes 0 first rfl
    have hrest : ∀ i b, (s ++ [0])[i]? = some b → c.byte (p + 1 + i) = b := by
      intro i b hb
      rw [add_assoc, add_comm 1]
      exact hbytes (i + 1) b hb
    cases count with
    | zero => rfl
    | succ count =>
      have hnonzero : c.byte p ≠ 0 := fun heq => htext (by
        rw [← heq, hfirst]
        exact mem_cons_self)
      rw [Caller.strnlen, if_neg hnonzero, ih (fun hmem => htext (mem_cons_of_mem _ hmem))
        hrest, length_cons]
      omega

theorem HasString.bytes_eq {c : Caller} {p : ℕ} {s : List UInt8} (h : HasString c p s) :
    c.bytes p s.length = s := by
  refine ext_getElem? fun i => ?_
  rw [Caller.bytes, getElem?_map]
  by_cases hi : i < s.length
  · have hbyte := h.bytes i s[i] (by rw [getElem?_append_left hi, getElem?_eq_getElem hi])
    rw [getElem?_range hi, Option.map_some, hbyte, getElem?_eq_getElem hi]
  · rw [getElem?_eq_none (by simpa using hi), getElem?_eq_none (not_lt.mp hi)]
    rfl

/-! ## The string area -/

/-- The string that is really put: `put_user` gives up on long ones. -/
def placed (s : List UInt8) : List UInt8 := if s.length < 4096 then s else []

/-- Its bytes in the string area. -/
def block (s : List UInt8) : List UInt8 := placed s ++ [0]

theorem length_block_le (s : List UInt8) : (block s).length ≤ 4096 := by
  rw [block, placed, length_append]
  split_ifs with h
  · exact h
  · decide

/-- Put bytes below everything in the string area. -/
def Strings.push (s : Strings) (bytes : List UInt8) : Strings :=
  { mem := s.mem.copy (s.cur - bytes.length) bytes, cur := s.cur - bytes.length }

theorem push_text (s : Strings) (text : List UInt8) :
    s.push (text ++ [0]) =
      { mem := (s.mem.copy (s.cur - (text.length + 1)) text).put
          (s.cur - (text.length + 1) + text.length) 0
        cur := s.cur - (text.length + 1) } := by
  rw [Strings.push, copy_append, length_append]
  rfl

theorem putConst_eq (top : ℕ) (text : List UInt8) (s : Strings) :
    putConst top text s = (s.push (text ++ [0]), vaOf top (s.push (text ++ [0])).cur) := by
  rw [push_text]
  rfl

theorem putEmpty_eq (top : ℕ) (s : Strings) :
    putEmpty top s = (s.push [0], vaOf top (s.push [0]).cur) := rfl

theorem putUser_eq {c : Caller} {uptr : ℕ} {str : List UInt8} (h : HasString c uptr str)
    (huptr : uptr ≠ 0) (top : ℕ) (s : Strings) :
    putUser c top uptr s = (s.push (block str), vaOf top (s.push (block str)).cur) := by
  have hlen := strnlen_eq h.text h.bytes 4096
  rw [putUser, if_neg (not_not_intro ⟨huptr, h.start⟩)]
  by_cases hshort : str.length < 4096
  · have hn : c.strnlen uptr 4096 = str.length := by omega
    simp [hn, if_neg (not_le.mpr hshort), h.all,
      h.bytes_eq, block, placed, if_pos hshort, push_text]
  · have hn : 4096 ≤ c.strnlen uptr 4096 := by omega
    simp [if_pos hn, putEmpty_eq, block, placed, if_neg hshort]

/-- A string area that has grown: what was there is still there, and exactly the new part
was written. -/
structure Grown (s s' : Strings) : Prop where
  le : s'.cur ≤ s.cur
  above : ∀ x, s.cur ≤ x → s'.mem.byte x = s.mem.byte x
  written : ∀ x, x ∈ s'.mem.written ↔ x ∈ s.mem.written ∨ s'.cur ≤ x ∧ x < s.cur

theorem Grown.refl (s : Strings) : Grown s s := by
  refine ⟨le_refl _, fun _ _ => rfl, fun x => ⟨.inl, fun h => h.resolve_right ?_⟩⟩
  omega

theorem Grown.trans {a b c : Strings} (h : Grown a b) (h' : Grown b c) : Grown a c := by
  refine ⟨h'.le.trans h.le, fun x hx => ?_, fun x => ?_⟩
  · rw [h'.above x (h.le.trans hx), h.above x hx]
  · have := h.le
    have := h'.le
    rw [h'.written, h.written]
    by_cases hx : x ∈ a.mem.written
    · exact ⟨fun _ => .inl hx, fun _ => .inl (.inl hx)⟩
    · simp only [hx, false_or]
      omega

theorem push_grown {s : Strings} {bytes : List UInt8} (h : bytes.length ≤ s.cur) :
    Grown s (s.push bytes) := by
  refine ⟨sub_le _ _, fun x hx => ?_, fun x => ?_⟩
  · refine copy_outside (.inr ?_)
    omega
  · rw [Strings.push, mem_written_copy, Nat.sub_add_cancel h]

/-- Bytes in memory. -/
def Holds (mem : ByteMem) (p : ℕ) (bytes : List UInt8) : Prop :=
  ∀ i b, bytes[i]? = some b → mem.byte (p + i) = b

/-- A string at its address, in the part of the area between two marks. -/
def Stored (top : ℕ) (s : Strings) (limit va : ℕ) (bytes : List UInt8) : Prop :=
  ∃ p, va = vaOf top p ∧ s.cur ≤ p ∧ p + bytes.length ≤ limit ∧ Holds s.mem p bytes

theorem push_stored (top : ℕ) {s : Strings} {bytes : List UInt8} (h : bytes.length ≤ s.cur) :
    Stored top (s.push bytes) s.cur (vaOf top (s.push bytes).cur) bytes := by
  refine ⟨_, rfl, le_refl _, ?_, fun i b hb => copy_inside hb⟩
  exact (Nat.sub_add_cancel h).le

theorem Stored.grown {top : ℕ} {s s' : Strings} {limit va : ℕ} {bytes : List UInt8}
    (h : Stored top s limit va bytes) (hgrown : Grown s s') : Stored top s' limit va bytes := by
  obtain ⟨p, hva, hcur, hlimit, hholds⟩ := h
  refine ⟨p, hva, hgrown.le.trans hcur, hlimit, fun i b hb => ?_⟩
  rw [hgrown.above _ (hcur.trans (le_add_right p i))]
  exact hholds i b hb

theorem Stored.mono {top : ℕ} {s : Strings} {limit limit' va : ℕ} {bytes : List UInt8}
    (h : Stored top s limit va bytes) (hle : limit ≤ limit') : Stored top s limit' va bytes := by
  obtain ⟨p, hva, hcur, hlimit, hholds⟩ := h
  exact ⟨p, hva, hcur, hlimit.trans hle, hholds⟩

/-- The room a list of strings takes. -/
def blockSize (strings : List (List UInt8)) : ℕ := (strings.map fun s => (block s).length).sum

theorem blockSize_cons (s : List UInt8) (strings : List (List UInt8)) :
    blockSize (s :: strings) = (block s).length + blockSize strings := by
  rw [blockSize, map_cons, sum_cons, blockSize]

/-- The loop puts as many strings as there is room for. -/
theorem putVector_spec {c : Caller} {top arr : ℕ} : ∀ (room count : ℕ) (strings : List (List UInt8))
    (s : Strings), HasVector c (arr + count * 8) strings → room * 4096 ≤ s.cur →
    Grown s (putVector c top arr room count s).1 ∧
      (putVector c top arr room count s).1.cur + blockSize (strings.take room) = s.cur ∧
      List.Forall₂ (fun va str => Stored top (putVector c top arr room count s).1 s.cur va (block str))
        (putVector c top arr room count s).2 (strings.take room) := by
  intro room
  induction room with
  | zero =>
    intro count strings s _ _
    exact ⟨.refl s, rfl, .nil⟩
  | succ room ih =>
    intro count strings s hvector hroom
    cases hvector with
    | nil readable null =>
      rw [putVector, if_neg (not_not_intro readable), if_pos null]
      exact ⟨.refl s, rfl, .nil⟩
    | @cons _ str rest readable pointer string next =>
      have hsize := length_block_le str
      have hfits : (block str).length ≤ s.cur := by omega
      have hfirst := push_grown hfits
      have hnext : HasVector c (arr + (count + 1) * 8) rest := by
        rw [add_mul]
        exact next
      have hcur : (s.push (block str)).cur = s.cur - (block str).length := rfl
      have hleft : room * 4096 ≤ (s.push (block str)).cur := by
        rw [succ_mul] at hroom
        exact le_sub_of_add_le (le_trans (Nat.add_le_add_left hsize _) hroom)
      have hrun : putVector c top arr (room + 1) count s =
          ((putVector c top arr room (count + 1) (s.push (block str))).1,
            vaOf top (s.push (block str)).cur ::
              (putVector c top arr room (count + 1) (s.push (block str))).2) := by
        rw [putVector, if_neg (not_not_intro readable), if_neg pointer,
          putUser_eq string pointer]
      obtain ⟨hgrown, hused, hstored⟩ := ih (count + 1) rest (s.push (block str)) hnext hleft
      rw [hrun, take_succ_cons]
      refine ⟨hfirst.trans hgrown, ?_, .cons ?_ ?_⟩
      · rw [blockSize_cons]
        dsimp only
        omega
      · exact (push_stored top hfits).grown hgrown
      · exact hstored.imp fun va str h => h.mono hfirst.le

theorem putArguments_spec {c : Caller} (top : ℕ) {arr : ℕ} {strings : List (List UInt8)}
    {s : Strings} (h : HasArguments c arr strings) (hroom : 0x40000 ≤ s.cur) :
    Grown s (putArguments c top arr s).1 ∧
      (putArguments c top arr s).1.cur + blockSize (strings.take maxArgs) = s.cur ∧
      List.Forall₂ (fun va str => Stored top (putArguments c top arr s).1 s.cur va (block str))
        (putArguments c top arr s).2 (strings.take maxArgs) := by
  rw [putArguments]
  rcases h with ⟨hnull, rfl⟩ | ⟨hsome, hvector⟩
  · rw [if_pos hnull]
    exact ⟨.refl s, rfl, .nil⟩
  · rw [if_neg hsome]
    refine putVector_spec maxArgs 0 strings s ?_ hroom
    rwa [zero_mul]

theorem blockSize_le (strings : List (List UInt8)) : blockSize strings ≤ strings.length * 4096 := by
  induction strings with
  | nil => exact le_refl 0
  | cons s strings ih =>
    have hblock := length_block_le s
    rw [blockSize_cons, length_cons]
    omega

theorem blockSize_take_le (strings : List (List UInt8)) (n : ℕ) :
    blockSize (strings.take n) ≤ n * 4096 := by
  refine (blockSize_le _).trans (mul_le_mul_right _ ?_)
  rw [length_take]
  exact min_le_left _ _

/-- The strings of `argv` that are put: the file name stands in for an empty vector. -/
def argvPut (argv : List (List UInt8)) (name : List UInt8) : List (List UInt8) :=
  if argv = [] then [name] else argv.take maxArgs

/-- The room the string area takes. -/
def areaSize (argv envp : List (List UInt8)) (name : List UInt8) : ℕ :=
  16 + 7 + blockSize (argvPut argv name) + blockSize (envp.take maxArgs) + (block name).length

/-- The string area with everything in it. -/
structure Area (argv envp : List (List UInt8)) (name : List UInt8) (info : ImageInfo) (top : ℕ)
    (mem : ByteMem) (s : Strings) (argvVas envpVas : List ℕ) (randomVa platformVa execfnVa : ℕ) :
    Prop where
  grown : Grown { mem := mem, cur := top } s
  size : s.cur + areaSize argv envp name = top
  argv : List.Forall₂ (fun va str => Stored top s top va (block str)) argvVas (argvPut argv name)
  envp : List.Forall₂ (fun va str => Stored top s top va (block str)) envpVas (envp.take maxArgs)
  random : Stored top s top randomVa info.random.toList
  platform : Stored top s top platformVa (platform ++ [0])
  execfn : Stored top s top execfnVa (block name)

theorem push_area (top : ℕ) (s : Strings) (bytes : List UInt8) (hfits : bytes.length ≤ s.cur)
    (htop : s.cur ≤ top) :
    Grown s (s.push bytes) ∧ (s.push bytes).cur + bytes.length = s.cur ∧
      Stored top (s.push bytes) top (vaOf top (s.push bytes).cur) bytes :=
  ⟨push_grown hfits, Nat.sub_add_cancel hfits, (push_stored top hfits).mono htop⟩

/-- The strings of `argv`, or the file name if there are none. -/
theorem putArgv_spec {c : Caller} {top filename arr : ℕ} {argv : List (List UInt8)}
    {name : List UInt8} {s : Strings} (hargv : HasArguments c arr argv)
    (hname : HasString c filename name) (hfilename : filename ≠ 0)
    (hroom : 0x40000 ≤ s.cur) (htop : s.cur ≤ top) :
    ∃ after vas, putArgv c top arr filename s = (after, vas) ∧
      Grown s after ∧ after.cur + blockSize (argvPut argv name) = s.cur ∧
      List.Forall₂ (fun va str => Stored top after top va (block str)) vas (argvPut argv name) := by
  obtain ⟨hgrown, hsize, hstored⟩ := putArguments_spec top hargv hroom
  rw [putArgv]
  generalize putArguments c top arr s = result at *
  obtain ⟨after, vas⟩ := result
  dsimp only at hgrown hsize hstored ⊢
  rw [argvPut]
  by_cases hnone : argv = []
  · subst hnone
    cases hstored
    have hsame : after.cur = s.cur := hsize
    have hfits : (block name).length ≤ after.cur := by
      rw [hsame]
      exact (length_block_le name).trans (le_trans (by decide) hroom)
    obtain ⟨hgrown', hsize', hstored'⟩ := push_area top after (block name) hfits (hsame ▸ htop)
    rw [if_pos rfl, if_pos rfl, putUser_eq hname hfilename]
    refine ⟨_, _, rfl, hgrown.trans hgrown', ?_, .cons hstored' .nil⟩
    rw [blockSize, map_singleton, sum_singleton, hsize', hsame]
  · have hsome : vas ≠ [] := by
      rintro rfl
      have hlength := hstored.length_eq
      rw [length_nil, length_take, eq_comm, min_eq_zero_iff] at hlength
      rcases hlength with hzero | hempty
      · cases hzero
      · exact hnone (length_eq_zero_iff.mp hempty)
    rw [if_neg hsome, if_neg hnone]
    exact ⟨after, vas, rfl, hgrown, hsize, hstored.imp fun va str h => h.mono htop⟩

/-- The construction of the string area leaves all strings where it says. -/
theorem putStrings_spec {c : Caller} {args : ExecArgs} {argv envp : List (List UInt8)}
    {name : List UInt8} (hargv : HasArguments c args.argv argv)
    (henvp : HasArguments c args.envp envp) (hname : HasString c args.filename name)
    (hfilename : args.filename ≠ 0) (info : ImageInfo) {top : ℕ} (htop : top % 16 = 0)
    (hhigh : 0x100000 ≤ top) (mem : ByteMem) :
    ∃ s argvVas envpVas randomVa platformVa execfnVa,
      putStrings c args info top mem = (s, argvVas, envpVas, randomVa, platformVa, execfnVa) ∧
        Area argv envp name info top mem s argvVas envpVas randomVa platformVa execfnVa := by
  have hlength : info.random.toList.length = 16 := by simp
  have hplatform : (platform ++ [0]).length = 7 := rfl
  have hblock := length_block_le name
  have henvpSize : blockSize (envp.take maxArgs) ≤ 0x40000 := blockSize_take_le envp maxArgs
  have hargvSize : blockSize (argvPut argv name) ≤ 0x40000 := by
    rw [argvPut]
    split_ifs
    · exact hblock.trans (by decide)
    · exact blockSize_take_le argv maxArgs
  -- `AT_RANDOM` and the platform
  let s₀ : Strings := { mem := mem, cur := top }
  have hcur₀ : s₀.cur = top := rfl
  obtain ⟨hgrown₁, hsize₁, hstored₁⟩ := push_area top s₀ info.random.toList (by omega) hcur₀.le
  obtain ⟨hgrown₂, hsize₂, hstored₂⟩ :=
    push_area top (s₀.push info.random.toList) (platform ++ [0]) (by omega) (by omega)
  -- `argv`, `envp` and the file name
  obtain ⟨s₃, argvVas, hrun₃, hgrown₃, hsize₃, hstored₃⟩ := putArgv_spec hargv hname hfilename
    (show 0x40000 ≤ ((s₀.push info.random.toList).push (platform ++ [0])).cur by omega)
    (show _ ≤ top by omega)
  obtain ⟨hgrown₄, hsize₄, hstored₄⟩ := putArguments_spec top henvp
    (show 0x40000 ≤ s₃.cur by omega)
  cases hrun₄ : putArguments c top args.envp s₃ with
  | mk s₄ envpVas =>
  rw [hrun₄] at hgrown₄ hsize₄ hstored₄
  dsimp only at hgrown₄ hsize₄ hstored₄
  obtain ⟨hgrown₅, hsize₅, hstored₅⟩ := push_area top s₄ (block name) (by omega) (by omega)
  have hle₃ : s₃.cur ≤ top := by omega
  have hfirst : Strings.mk (mem.copy (top - top % 16 - 16) info.random.toList)
      (top - top % 16 - 16) = s₀.push info.random.toList := by
    rw [htop, Strings.push, hlength]
    rfl
  refine ⟨s₄.push (block name), argvVas, envpVas, vaOf top (s₀.push info.random.toList).cur,
    vaOf top ((s₀.push info.random.toList).push (platform ++ [0])).cur, _, ?_, ?_, ?_, ?_, ?_, ?_,
    ?_, hstored₅⟩
  · rw [putStrings]
    simp only [hfirst, putConst_eq, hrun₃, hrun₄, putUser_eq hname hfilename]
    rw [← hfirst]
  · exact (((hgrown₁.trans hgrown₂).trans hgrown₃).trans hgrown₄).trans hgrown₅
  · rw [areaSize]
    omega
  · exact hstored₃.imp fun va str h => (h.grown hgrown₄).grown hgrown₅
  · exact hstored₄.imp fun va str h => (h.mono hle₃).grown hgrown₅
  · exact (((hstored₁.grown hgrown₂).grown hgrown₃).grown hgrown₄).grown hgrown₅
  · exact ((hstored₂.grown hgrown₃).grown hgrown₄).grown hgrown₅

/-! ## The slots -/

section Slots

variable {pages : StackPages} {mem mem' : ByteMem} {va low : ℕ} {first second : List UInt8}

/-- Where an address of the stack lies. -/
def StackPages.phys (pages : StackPages) (va : ℕ) : ℕ :=
  pages.frame ((va - stackBaseVa) / pageSize) + va % pageSize

theorem translate_eq (hbase : stackBaseVa ≤ va) (htop : va < stackTopVa) :
    pages.translate va = some (pages.phys va) := if_pos ⟨hbase, htop⟩

theorem load_eq (hbase : stackBaseVa ≤ va) (htop : va < stackTopVa) :
    pages.load mem va = some (mem.byte (pages.phys va)) := by
  rw [load, translate_eq hbase htop]
  rfl

theorem range_of_load {b : UInt8} (h : pages.load mem va = some b) :
    stackBaseVa ≤ va ∧ va < stackTopVa := by
  by_contra hout
  rw [load, StackPages.translate, if_neg hout] at h
  cases h

section

variable (hbase : stackBaseVa ≤ va)

include hbase

theorem index_lt (htop : va < stackTopVa) : (va - stackBaseVa) / pageSize < stackPages := by
  unfold stackTopVa at htop
  exact Nat.div_lt_of_lt_mul (by rw [mul_comm]; omega)

/-- Different addresses lie at different places. -/
theorem phys_injective {va' : ℕ} (htop : va < stackTopVa) (hbase' : stackBaseVa ≤ va')
    (htop' : va' < stackTopVa) (h : pages.phys va = pages.phys va') : va = va' := by
  have haligned := pages.aligned ((va - stackBaseVa) / pageSize)
  have haligned' := pages.aligned ((va' - stackBaseVa) / pageSize)
  have hframes : pages.frame ((va - stackBaseVa) / pageSize) =
      pages.frame ((va' - stackBaseVa) / pageSize) ∧ va % pageSize = va' % pageSize := by
    simp only [phys, pageSize] at *
    omega
  have hpage := pages.distinct _ _ (index_lt hbase htop) (index_lt hbase' htop') hframes.1
  simp only [pageSize] at *
  omega

/-- Within a word the place moves with the address. -/
theorem phys_add {i : ℕ} (haligned : va % 8 = 0) (hi : i < 8) :
    pages.phys (va + i) = pages.phys va + i := by
  have hpage : (va + i - stackBaseVa) / pageSize = (va - stackBaseVa) / pageSize := by
    simp only [pageSize, stackBaseVa] at *
    omega
  have hoffset : (va + i) % pageSize = va % pageSize + i := by
    simp only [pageSize] at *
    omega
  rw [phys, phys, hpage, hoffset, add_assoc]

theorem phys_inPages (htop : va < stackTopVa) : InPages pages (pages.phys va) := by
  have hoffset : va % pageSize < pageSize := mod_lt _ (by decide)
  exact ⟨_, index_lt hbase htop, le_add_right _ _, Nat.add_lt_add_left hoffset _⟩

end

theorem BytesAt.append (h : BytesAt pages mem va first)
    (h' : BytesAt pages mem (va + first.length) second) :
    BytesAt pages mem va (first ++ second) := by
  intro i b hb
  by_cases hi : i < first.length
  · rw [getElem?_append_left hi] at hb
    exact h i b hb
  · rw [getElem?_append_right (not_lt.mp hi)] at hb
    have hplace : va + first.length + (i - first.length) = va + i := by omega
    exact hplace ▸ h' _ b hb

theorem BytesAt.left (h : BytesAt pages mem va (first ++ second)) : BytesAt pages mem va first := by
  intro i b hb
  refine h i b ?_
  have hi : i < first.length := (List.getElem?_eq_some_iff.mp hb).1
  rw [getElem?_append_left hi, hb]

/-- What writing words below `va` leaves alone, and where it writes. -/
structure Below (pages : StackPages) (va : ℕ) (mem mem' : ByteMem) : Prop where
  above : ∀ va', va ≤ va' → va' < stackTopVa → pages.load mem' va' = pages.load mem va'
  written : ∀ a ∈ mem'.written, a ∈ mem.written ∨ InPages pages a
  kept : ∀ a ∈ mem.written, a ∈ mem'.written

theorem Below.trans {mem'' : ByteMem} (h : Below pages va mem mem')
    (h' : Below pages low mem' mem'') (hle : low ≤ va) : Below pages va mem mem'' := by
  refine ⟨fun va' hva htop => ?_, fun a ha => ?_, fun a ha => h'.kept a (h.kept a ha)⟩
  · rw [h'.above va' (hle.trans hva) htop, h.above va' hva htop]
  · exact (h'.written a ha).elim (fun hmem => h.written a hmem) .inr

theorem Below.bytesAt {bytes : List UInt8} (h : Below pages low mem mem') (hle : low ≤ va)
    (hbytes : BytesAt pages mem va bytes) : BytesAt pages mem' va bytes := by
  intro i b hb
  have hload := hbytes i b hb
  rw [h.above _ (hle.trans (le_add_right va i)) (range_of_load hload).2]
  exact hload

/-- Writing the slot just below an address. -/
theorem putSlot_spec (pages : StackPages) (mem : ByteMem) (value : ℕ) {slot : ℤ}
    (hslot : (stackTopVa - pageSize : ℤ) + slot * 8 = va)
    (hbase : stackBaseVa ≤ va) (htop : va + 8 ≤ stackTopVa) (haligned : va % 8 = 0) :
    Below pages (va + 8) mem (putSlot pages mem slot value) ∧
      BytesAt pages (putSlot pages mem slot value) va (leBytes 8 value) := by
  have hput : putSlot pages mem slot value = mem.copy (pages.phys va) (leBytes 8 value) := by
    rw [putSlot, hslot, Int.toNat_natCast, translate_eq hbase (by omega)]
    rfl
  rw [hput]
  refine ⟨⟨fun va' hva htop' => ?_, fun a ha => ?_, fun a ha => ?_⟩, fun i b hb => ?_⟩
  · rw [load_eq (by omega) htop', load_eq (by omega) htop', copy_outside]
    -- a byte of the word would be the byte above
    by_contra hinside
    rw [not_or, not_lt, length_leBytes] at hinside
    obtain ⟨i, hi⟩ := Nat.exists_eq_add_of_le hinside.1
    have hi8 : i < 8 := by omega
    rw [← phys_add hbase haligned hi8] at hi
    have := phys_injective (by omega) htop' (by omega) (by omega) hi
    omega
  · rw [mem_written_copy, length_leBytes] at ha
    refine ha.imp_right fun hrange => ?_
    obtain ⟨i, hi⟩ := Nat.exists_eq_add_of_le hrange.1
    have hi8 : i < 8 := by omega
    rw [hi, ← phys_add hbase haligned hi8]
    exact phys_inPages (by omega) (by omega)
  · exact mem_written_copy.mpr (.inl ha)
  · have hi : i < 8 := by simpa using (List.getElem?_eq_some_iff.mp hb).1
    rw [load_eq (by omega) (by omega), phys_add hbase haligned hi, copy_inside hb]

theorem words_append (first second : List ℕ) : words (first ++ second) = words first ++ words second
    :=
  flatMap_append

theorem length_words (values : List ℕ) : (words values).length = 8 * values.length := by
  induction values with
  | nil => rfl
  | cons value values ih =>
    rw [words, flatMap_cons, length_append, length_leBytes, length_cons]
    rw [words] at ih
    omega

/-- Writing words to slots downwards: they end up in reverse. -/
theorem putSlots_spec (pages : StackPages) : ∀ (values : List ℕ) (mem : ByteMem) (slot : ℤ)
    (va : ℕ),
    (stackTopVa - pageSize : ℤ) + slot * 8 = (va : ℤ) - 8 → stackBaseVa + 8 * values.length ≤ va →
    va ≤ stackTopVa → va % 8 = 0 →
    Below pages va mem (putSlots pages values (mem, slot)).1 ∧
      (putSlots pages values (mem, slot)).2 = slot - values.length ∧
      BytesAt pages (putSlots pages values (mem, slot)).1 (va - 8 * values.length)
        (words values.reverse) := by
  intro values
  induction values with
  | nil =>
    intro mem slot va _ _ _ _
    refine ⟨⟨fun _ _ _ => rfl, fun _ ha => .inl ha, fun _ ha => ha⟩, ?_, fun i b hb => ?_⟩
    · simp [putSlots]
    · cases hb
  | cons value values ih =>
    intro mem slot va hslot hbase htop haligned
    rw [length_cons] at hbase
    have hslot' : (stackTopVa - pageSize : ℤ) + slot * 8 = ((va - 8 : ℕ) : ℤ) := by omega
    have hva : va - 8 + 8 = va := by omega
    obtain ⟨hbelow, hvalue⟩ := putSlot_spec pages mem value hslot' (by omega)
      (by omega) (by omega)
    rw [hva] at hbelow
    obtain ⟨hrest, hcount, hwords⟩ := ih (putSlot pages mem slot value) (slot - 1)
      (va - 8) (by omega) (by omega) (by omega) (by omega)
    rw [putSlots]
    refine ⟨hbelow.trans hrest (by omega), ?_, ?_⟩
    · rw [length_cons]
      omega
    · rw [length_cons, reverse_cons, words_append]
      have hplace : va - 8 * (values.length + 1) = va - 8 - 8 * values.length := by omega
      rw [hplace]
      refine hwords.append ?_
      rw [length_words, length_reverse, show va - 8 - 8 * values.length + 8 * values.length =
        va - 8 by omega]
      exact hrest.bytesAt (le_refl _) hvalue

theorem putSlots_concat (pages : StackPages) (last : ℕ) : ∀ (values : List ℕ) (mem : ByteMem)
    (slot : ℤ), putSlots pages (values ++ [last]) (mem, slot) =
      (putSlot pages (putSlots pages values (mem, slot)).1 (putSlots pages values (mem, slot)).2
        last, (putSlots pages values (mem, slot)).2 - 1)
  | [], _, _ => rfl
  | value :: values, mem, slot =>
    putSlots_concat pages last values (putSlot pages mem slot value) (slot - 1)

end Slots

/-! ## The whole stack -/

/-- The room for strings in the top page: a checked build also wants a slot left. -/
def roomFor (checked : Bool) : ℕ := if checked then 4080 else 4096

section Build

variable {pages : StackPages} {c : Caller} {args : ExecArgs} {argv envp : List (List UInt8)}
  {name : List UInt8}

/-- The frame of the top page. -/
def StackPages.topPage (pages : StackPages) : ℕ := pages.frame 511

theorem topPage_eq (pages : StackPages) :
    (pages.translate (stackTopVa - pageSize)).getD 0 = pages.topPage := by
  rfl

theorem StackPages.end_facts (pages : StackPages) :
    (pages.topPage + pageSize) % 16 = 0 ∧ 0x100000 ≤ pages.topPage + pageSize := by
  have haligned := pages.aligned 511
  have hhigh := pages.high 511
  simp only [topPage, pageSize] at *
  omega

/-- The string area lies at the addresses it was given. -/
theorem phys_vaOf {p : ℕ} (hlow : pages.topPage ≤ p) (hhigh : p < pages.topPage + pageSize) :
    stackBaseVa ≤ vaOf (pages.topPage + pageSize) p ∧
      vaOf (pages.topPage + pageSize) p < stackTopVa ∧
      pages.phys (vaOf (pages.topPage + pageSize) p) = p := by
  have hplace : stackBaseVa ≤ vaOf (pages.topPage + pageSize) p ∧
      vaOf (pages.topPage + pageSize) p < stackTopVa ∧
      (vaOf (pages.topPage + pageSize) p - stackBaseVa) / pageSize = 511 ∧
      vaOf (pages.topPage + pageSize) p % pageSize = p - pages.topPage := by
    simp only [vaOf, stackTopVa, stackBaseVa, stackPages, pageSize] at *
    omega
  obtain ⟨hbase, htop, hpage, hoffset⟩ := hplace
  refine ⟨hbase, htop, ?_⟩
  rw [phys, hpage, hoffset]
  exact Nat.add_sub_cancel' hlow

/-- A stored string is read back by the new image. -/
theorem Stored.bytesAt {s : Strings} {va : ℕ} {bytes : List UInt8}
    (h : Stored (pages.topPage + pageSize) s (pages.topPage + pageSize) va bytes)
    (hcur : pages.topPage ≤ s.cur) :
    BytesAt pages s.mem va bytes ∧ vaOf (pages.topPage + pageSize) s.cur ≤ va := by
  obtain ⟨p, rfl, hp, hlimit, hholds⟩ := h
  constructor
  · intro i b hb
    have hi : i < bytes.length := (List.getElem?_eq_some_iff.mp hb).1
    have hva : vaOf (pages.topPage + pageSize) p + i = vaOf (pages.topPage + pageSize) (p + i) := by
      simp only [vaOf, stackTopVa, stackPages] at *
      omega
    obtain ⟨hbase, htop, hphys⟩ := phys_vaOf (show pages.topPage ≤ p + i by omega) (by omega)
    rw [hva, load_eq hbase htop, hphys, hholds i b hb]
  · simp only [vaOf, stackTopVa, stackBaseVa, stackPages] at *
    omega

theorem reverse_auxiliarySlots (pairs : List (ℕ × ℕ)) :
    (auxiliarySlots pairs).reverse = pairs.flatMap fun p => [p.1, p.2] := by
  rw [auxiliarySlots, reverse_flatMap, reverse_reverse]
  rfl

/-- The words of the stack as the source writes them, without `argc`. -/
def slotValues (info : ImageInfo) (argvVas envpVas : List ℕ) (randomVa platformVa execfnVa : ℕ) :
    List ℕ :=
  (if (envpVas.length + argvVas.length) % 2 = 0 then [0] else []) ++
    auxiliarySlots (auxiliary info randomVa platformVa execfnVa) ++
    0 :: envpVas.reverse ++ 0 :: argvVas.reverse

section

variable (info : ImageInfo) (argvVas envpVas : List ℕ) (randomVa platformVa execfnVa : ℕ)

theorem reverse_slotValues :
    argvVas.length :: (slotValues info argvVas envpVas randomVa platformVa execfnVa).reverse =
      stackWords info argvVas envpVas randomVa platformVa execfnVa ++
        if (envpVas.length + argvVas.length) % 2 = 0 then [0] else [] := by
  have hpadding : (if (envpVas.length + argvVas.length) % 2 = 0 then [0] else [] : List ℕ).reverse =
      if (envpVas.length + argvVas.length) % 2 = 0 then [0] else [] := by
    split_ifs <;> rfl
  simp [slotValues, stackWords,
    reverse_auxiliarySlots, hpadding]

/-- There are so many words that the stack pointer stays aligned. -/
theorem length_slotValues :
    ((slotValues info argvVas envpVas randomVa platformVa execfnVa).length + 1) % 2 = 0 ∧
      (slotValues info argvVas envpVas randomVa platformVa execfnVa).length ≤
        39 + argvVas.length + envpVas.length := by
  have hlength : (slotValues info argvVas envpVas randomVa platformVa execfnVa).length =
      (if (envpVas.length + argvVas.length) % 2 = 0 then 1 else 0) + 36 + (envpVas.length + 1) +
        (argvVas.length + 1) := by
    simp only [slotValues, length_append, length_cons, length_reverse]
    split_ifs <;> rfl
  rw [hlength]
  split_ifs with hparity <;> omega

end

/-- If the strings fit, the construction succeeds, and leaves the strings it has put. -/
theorem buildStack_placed (hargv : HasArguments c args.argv argv)
    (henvp : HasArguments c args.envp envp) (hname : HasString c args.filename name)
    (hfilename : args.filename ≠ 0) (checked : Bool) (pages : StackPages) (info : ImageInfo)
    (byte : ℕ → UInt8) (hfits : areaSize argv envp name ≤ roomFor checked) :
    ∃ built, buildStack checked c pages args info { byte := byte, written := [] } = .ok built ∧
      StackLaw ((argvPut argv name).map placed) ((envp.take maxArgs).map placed) (placed name) info
        pages built := by
  have haligned := pages.aligned 511
  have hhigh := pages.high 511
  obtain ⟨s, argvVas, envpVas, randomVa, platformVa, execfnVa, hrun, harea⟩ :=
    putStrings_spec hargv henvp hname hfilename info pages.end_facts.1 pages.end_facts.2
      { byte := byte, written := [] }
  have hroom : areaSize argv envp name ≤ 4096 ∧ (checked = true → areaSize argv envp name ≤ 4080) := by
    rw [roomFor] at hfits
    split_ifs at hfits with hchecked
    · exact ⟨by omega, fun _ => hfits⟩
    · exact ⟨hfits, fun h => absurd h hchecked⟩
  have hsize := harea.size
  have hargc : argvVas.length ≤ 64 := by
    rw [harea.argv.length_eq, argvPut]
    split_ifs
    · rw [length_singleton]
      decide
    · exact length_take_le _ _
  have henvc : envpVas.length ≤ 64 := by
    rw [harea.envp.length_eq]
    exact length_take_le _ _
  obtain ⟨heven, hcount⟩ := length_slotValues info argvVas envpVas randomVa platformVa execfnVa
  have hreverse := reverse_slotValues info argvVas envpVas randomVa platformVa execfnVa
  -- where the slots start
  obtain ⟨auxTop, hauxTop⟩ : ∃ auxTop, auxTop = s.cur - s.cur % 16 := ⟨_, rfl⟩
  obtain ⟨va, hva⟩ : ∃ va, va = vaOf (pages.topPage + pageSize) auxTop := ⟨_, rfl⟩
  have hinPage : pages.topPage ≤ auxTop ∧ auxTop ≤ s.cur ∧ pages.topPage ≤ s.cur ∧
      (checked = true → ¬ (auxTop - pages.topPage) / 8 < 1) := by
    simp only [topPage, pageSize] at *
    refine ⟨by omega, by omega, by omega, fun hchecked => ?_⟩
    have := hroom.2 hchecked
    omega
  have hplace : va % 16 = 0 ∧ va ≤ stackTopVa ∧ stackTopVa - 4096 ≤ va ∧
      va ≤ vaOf (pages.topPage + pageSize) s.cur := by
    simp only [topPage, vaOf, stackTopVa, stackBaseVa, stackPages, pageSize] at *
    omega
  have hslot : (stackTopVa - pageSize : ℤ) + (((auxTop : ℤ) - pages.topPage) / 8 - 1) * 8 =
      (va : ℤ) - 8 := by
    simp only [topPage, vaOf, stackTopVa, stackBaseVa, pageSize] at *
    omega
  generalize hslot₀ : ((auxTop : ℤ) - pages.topPage) / 8 - 1 = slot at *
  generalize hvalues : slotValues info argvVas envpVas randomVa platformVa execfnVa = values at *
  have hspace : stackBaseVa + 8 * (values.length + 1) ≤ va := by
    simp only [stackTopVa, stackPages, pageSize] at *
    omega
  have hlast : (values ++ [argvVas.length]).length = values.length + 1 := length_append
  obtain ⟨hall, hslotArgc, hdown⟩ := putSlots_spec pages (values ++ [argvVas.length]) s.mem slot va
    hslot (hlast.symm ▸ hspace) hplace.2.1 (by omega)
  rw [hlast] at hslotArgc hdown
  rw [putSlots_concat] at hall hslotArgc hdown
  rw [reverse_concat] at hdown
  cases hslots : putSlots pages values (s.mem, slot) with
  | mk mem₁ slot₁ =>
  rw [hslots] at hall hslotArgc hdown
  have hbuild : buildStack checked c pages args info { byte := byte, written := [] } =
      .ok { mem := putSlot pages mem₁ slot₁ argvVas.length
            rsp := va - 8 * (values.length + 1) } := by
    have hrsp : (stackTopVa - (pageSize / 8 - slot₁) * 8 : ℤ).toNat =
        va - 8 * (values.length + 1) := by
      simp only [stackTopVa, stackBaseVa, pageSize] at *
      omega
    have hno : ¬ (checked = true ∧ (auxTop < pages.topPage ∨ (auxTop - pages.topPage) / 8 < 1)) := by
      rintro ⟨hchecked, hless | hless⟩
      · omega
      · exact hinPage.2.2.2 hchecked hless
    simp only [slotValues] at hvalues
    simp only [buildStack, topPage_eq, hrun, ← hauxTop, if_neg hno, hslot₀, hvalues, hslots, hrsp]
  -- the strings lie above the slots
  have hstring : ∀ {place : ℕ} {bytes : List UInt8},
      Stored (pages.topPage + pageSize) s (pages.topPage + pageSize) place bytes →
      BytesAt pages (putSlot pages mem₁ slot₁ argvVas.length) place bytes := by
    intro place bytes hstored
    obtain ⟨hbytes, hle⟩ := hstored.bytesAt hinPage.2.2.1
    exact hall.bytesAt (hplace.2.2.2.trans hle) hbytes
  refine ⟨_, hbuild, ⟨argvVas, envpVas, randomVa, platformVa, execfnVa, ?_, ?_,
    hstring harea.random, hstring harea.platform, hstring harea.execfn, ?_⟩, ?_, ?_⟩
  · exact forall₂_map_right_iff.mpr (harea.argv.imp fun place str h => hstring h)
  · exact forall₂_map_right_iff.mpr (harea.envp.imp fun place str h => hstring h)
  · rw [hreverse, words_append] at hdown
    exact hdown.left
  · dsimp only
    omega
  · intro a ha
    rcases hall.written a ha with hstrings | hinside
    · have hrange := (harea.grown.written a).mp hstrings
      simp only [not_mem_nil, false_or] at hrange
      exact ⟨511, by decide, hinPage.2.2.1.trans hrange.1, hrange.2⟩
    · exact hinside

end Build

end Shitix.Exec
