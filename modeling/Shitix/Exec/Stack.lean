import Shitix.Lib.ByteMem

/-!
# The initial stack of a program

The model of the part of `execve` (`syscall/sys.rs`) that builds the stack of the
new image: the strings, the auxiliary vector, the two pointer vectors and `argc`.
The 512 stack pages are mapped before; `translate` finds their frames.

The strings go to the top of the stack through the physical address of the top
page, by a pointer that counts down; the words below them go through `translate`,
slot by slot.  Both are stores to physical addresses while the tables of the caller
are loaded, and a page that the caller has at such an address gets the bytes instead
of the frame (`LowMap`).  The caller's memory is what `user_ok` accepts and what a
load returns; strings are read from it as they were at the time of the call.

With overflow checks (`checked`, the default profile) the distance from the top page
to the slots must not be negative, and there must be a slot left in it.
-/

namespace Shitix.Exec

def pageSize : ℕ := 4096

def stackPages : ℕ := 512

def stackBaseVa : ℕ := 0x7FFFFF000000

/-- `stack_top_va`: the first address above the stack. -/
def stackTopVa : ℕ := stackBaseVa + stackPages * pageSize

def maxArgs : ℕ := 64

/-- The frames of the stack pages: different pages of the allocator, above the first megabyte. -/
structure StackPages where
  frame : ℕ → ℕ
  aligned : ∀ k, frame k % pageSize = 0
  distinct : ∀ j k, j < stackPages → k < stackPages → frame j = frame k → j = k
  high : ∀ k, 0x100000 ≤ frame k

/-- `translate` in the new address space, for addresses of the stack. -/
def StackPages.translate (pages : StackPages) (va : ℕ) : Option ℕ :=
  if stackBaseVa ≤ va ∧ va < stackTopVa then
    some (pages.frame ((va - stackBaseVa) / pageSize) + va % pageSize)
  else none

/-- The caller's memory: what `user_ok(ptr, len, Read)` accepts, and what is there. -/
structure Caller where
  ok : ℕ → ℕ → Bool
  byte : ℕ → UInt8

/-- The bytes from an address. -/
def Caller.bytes (c : Caller) (a n : ℕ) : List UInt8 := (List.range n).map fun i => c.byte (a + i)

/-- The word at an address. -/
def Caller.word (c : Caller) (a : ℕ) : ℕ := leValue (c.bytes a 8)

def Caller.strnlen (c : Caller) (a : ℕ) : ℕ → ℕ
  | 0 => 0
  | count + 1 => if c.byte a = 0 then 0 else c.strnlen (a + 1) count + 1

/-- The string area while it grows downwards from `top`. -/
structure Strings where
  mem : ByteMem
  cur : ℕ

/-- The address in the new image of a place in the string area. -/
def vaOf (top p : ℕ) : ℕ := stackTopVa - (top - p)

/-- The empty string that stands for one that cannot be read or is too long. -/
def putEmpty (top : ℕ) (s : Strings) : Strings × ℕ :=
  let p := s.cur - 1
  ({ mem := s.mem.put p 0, cur := p }, vaOf top p)

def putUser (c : Caller) (top uptr : ℕ) (s : Strings) : Strings × ℕ :=
  if ¬ (uptr ≠ 0 ∧ c.ok uptr 1) then putEmpty top s
  else
    let n := c.strnlen uptr 4096
    let len := if 4096 ≤ n then 0 else n + 1
    if len = 0 then putEmpty top s
    else
      let p := s.cur - len
      let mem := if c.ok uptr n then s.mem.copy p (c.bytes uptr n) else s.mem
      ({ mem := mem.put (p + n) 0, cur := p }, vaOf top p)

def putConst (top : ℕ) (text : List UInt8) (s : Strings) : Strings × ℕ :=
  let p := s.cur - (text.length + 1)
  ({ mem := (s.mem.copy p text).put (p + text.length) 0, cur := p }, vaOf top p)

/-- The loop over `argv` or `envp`, from entry `count` on and for at most `room` strings. -/
def putVector (c : Caller) (top arr : ℕ) : ℕ → ℕ → Strings → Strings × List ℕ
  | 0, _, s => (s, [])
  | room + 1, count, s =>
    if ¬ c.ok (arr + count * 8) 8 then (s, [])
    else if c.word (arr + count * 8) = 0 then (s, [])
    else
      let (s, va) := putUser c top (c.word (arr + count * 8)) s
      let (s, vas) := putVector c top arr room (count + 1) s
      (s, va :: vas)

/-- A vector whose pointer may be null. -/
def putArguments (c : Caller) (top arr : ℕ) (s : Strings) : Strings × List ℕ :=
  if arr = 0 then (s, []) else putVector c top arr maxArgs 0 s

/-- `argv`; a program without arguments gets its file name. -/
def putArgv (c : Caller) (top arr filename : ℕ) (s : Strings) : Strings × List ℕ :=
  let (s, vas) := putArguments c top arr s
  if vas = [] then
    let (s, va) := putUser c top filename s
    (s, [va])
  else (s, vas)

/-- Write one slot: slot 0 is the lowest one of the top page. -/
def putSlot (pages : StackPages) (mem : ByteMem) (slot : ℤ) (value : ℕ) : ByteMem :=
  mem.copy ((pages.translate ((stackTopVa - pageSize : ℤ) + slot * 8).toNat).getD 0)
    (leBytes 8 value)

/-- Write words to slots, each below the one before. -/
def putSlots (pages : StackPages) : List ℕ → ByteMem × ℤ → ByteMem × ℤ
  | [], s => s
  | value :: values, (mem, slot) => putSlots pages values (putSlot pages mem slot value, slot - 1)

/-- What the earlier steps of `execve` hand to the construction. -/
structure ImageInfo where
  /-- the 16 bytes of `AT_RANDOM` -/
  random : Vector UInt8 16
  mainEntry : ℕ
  interpBase : ℕ
  phnum : ℕ
  atPhdr : ℕ

/-- The arguments of `execve`. -/
structure ExecArgs where
  filename : ℕ
  argv : ℕ
  envp : ℕ

/-- The value of `AT_HWCAP`. -/
def hwcap : ℕ := 0xbfebfbff ||| 1 <<< 0 ||| 1 <<< 9 ||| 1 <<< 19

/-- `b"x86_64"`. -/
def platform : List UInt8 := [120, 56, 54, 95, 54, 52]

/-- The auxiliary vector: pairs of key and value, upwards. -/
def auxiliary (info : ImageInfo) (randomVa platformVa execfnVa : ℕ) : List (ℕ × ℕ) :=
  [(23, 0), (11, 0), (12, 0), (13, 0), (14, 0), (3, info.atPhdr), (4, 56), (5, info.phnum),
    (6, 4096), (7, info.interpBase), (9, info.mainEntry), (31, execfnVa), (15, platformVa),
    (25, randomVa), (17, 100), (16, hwcap), (26, 0), (0, 0)]

/-- The pairs as the source writes them: downwards, each value before its key. -/
def auxiliarySlots (pairs : List (ℕ × ℕ)) : List ℕ := pairs.reverse.flatMap fun p => [p.2, p.1]

inductive Panic where
  | overflow
deriving DecidableEq, Repr

/-- The stack of the new image. -/
structure Built where
  mem : ByteMem
  rsp : ℕ

/-- The string area: `AT_RANDOM`, the platform, `argv`, `envp` and the file name. -/
def putStrings (c : Caller) (args : ExecArgs) (info : ImageInfo) (top : ℕ) (mem : ByteMem) :
    Strings × List ℕ × List ℕ × ℕ × ℕ × ℕ :=
  let cur := top - top % 16
  let rp := cur - 16
  let s : Strings := { mem := mem.copy rp info.random.toList, cur := rp }
  let randomVa := vaOf top rp
  let (s, platformVa) := putConst top platform s
  let (s, argvVas) := putArgv c top args.argv args.filename s
  let (s, envpVas) := putArguments c top args.envp s
  let (s, execfnVa) := putUser c top args.filename s
  (s, argvVas, envpVas, randomVa, platformVa, execfnVa)

/-- The construction of the stack, in the memory that the kernel addresses. -/
def buildStack (checked : Bool) (c : Caller) (pages : StackPages) (args : ExecArgs)
    (info : ImageInfo) (mem : ByteMem) : Except Panic Built :=
  let topPage := (pages.translate (stackTopVa - pageSize)).getD 0
  let top := topPage + pageSize
  let (s, argvVas, envpVas, randomVa, platformVa, execfnVa) := putStrings c args info top mem
  let auxTop := s.cur - s.cur % 16
  if checked ∧ (auxTop < topPage ∨ (auxTop - topPage) / 8 < 1) then .error .overflow
  else
    -- unchecked, a negative distance wraps around, and `idx * 8` wraps back
    let slot : ℤ := ((auxTop : ℤ) - topPage) / 8 - 1
    let padding := if (envpVas.length + argvVas.length) % 2 = 0 then [0] else []
    let (mem, slot) := putSlots pages
      (padding ++ auxiliarySlots (auxiliary info randomVa platformVa execfnVa) ++
        0 :: envpVas.reverse ++ 0 :: argvVas.reverse) (s.mem, slot)
    let mem := putSlot pages mem slot argvVas.length
    .ok { mem := mem, rsp := (stackTopVa - (pageSize / 8 - slot) * 8 : ℤ).toNat }

/-- The frames behind the low pages in the tables of the caller: the page itself, unless the caller
has a page of its own there. -/
structure LowMap where
  frame : ℕ → ℕ

namespace LowMap

variable (low : LowMap)

def phys (a : ℕ) : ℕ := low.frame (a / pageSize) * pageSize + a % pageSize

/-- What the stores leave in physical memory; the last one comes first in `written`. -/
def land (old : ℕ → UInt8) (mem : ByteMem) : ByteMem where
  byte x :=
    match mem.written.find? fun a => low.phys a = x with
    | some a => mem.byte a
    -- no store came here
    | none => if low.phys x = x then mem.byte x else old x
  written := mem.written.map low.phys

end LowMap

/-- The stack that the new image finds. -/
def execStack (checked : Bool) (c : Caller) (low : LowMap) (pages : StackPages) (args : ExecArgs)
    (info : ImageInfo) (byte : ℕ → UInt8) : Except Panic Built :=
  (buildStack checked c pages args info { byte := byte, written := [] }).map fun built =>
    { built with mem := low.land byte built.mem }

end Shitix.Exec
