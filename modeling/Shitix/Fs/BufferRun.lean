import Shitix.Fs.BufferCalls
import Shitix.Fs.BufferChains

/-!
# The structure of the buffer cache

Whatever tasks and devices do, one block has at most one buffer, every bound buffer
is on the hash chain of its key and nowhere else, and the free ring is a doubly
linked cycle of all built buffers (`buffer_run_sound`).

`Structured` is the invariant behind it.  Only two kinds of writes matter: those
that leave keys and links alone (`Structured.put`), and the two edits `getblk` makes
— moving a buffer to the end of the ring (`putLastFree_ok`) and giving it a new key
(`rekey_ok`), which is safe because nothing can sleep between the last lookup and
the insertion.
-/

namespace Shitix.Buffer

open List Cache Except BufferHead

/-- What a head says about its block, without counters and links. -/
structure Core where
  data : Block
  dev : UInt16
  blocknr : UInt32
  uptodate : Bool
  dirt : Bool
  lock : Bool

def BufferHead.core (head : BufferHead) : Core :=
  { data := head.data, dev := head.dev, blocknr := head.blocknr, uptodate := head.uptodate
    dirt := head.dirt, lock := head.lock }

/-- A built buffer that belongs to a device. -/
def Bound (c : Cache) (n : ℕ) : Prop := n < c.used ∧ (c.heads n).dev ≠ 0

/-- The invariant of the cache. -/
structure Structured (c : Cache) : Prop where
  several : 1 < c.used
  bounded : c.used ≤ nrBuffers
  ring : FreeRing c (· < c.used)
  chains : HashChains c (Bound c)
  unbound : ∀ n, n < c.used → (c.heads n).dev = 0 → (c.heads n).next = nil ∧ (c.heads n).prev = nil
  unique : ∀ m n, Bound c m → Bound c n → (c.heads m).dev = (c.heads n).dev →
    (c.heads m).blocknr = (c.heads n).blocknr → m = n
  sizes : ∀ n, n < c.used → (c.heads n).size = blockSize

/-- A write that leaves key, size and links of a head alone. -/
structure KeepsPlace (f : BufferHead → BufferHead) : Prop where
  dev : ∀ head, (f head).dev = head.dev
  blocknr : ∀ head, (f head).blocknr = head.blocknr
  size : ∀ head, (f head).size = head.size
  prev : ∀ head, (f head).prev = head.prev
  next : ∀ head, (f head).next = head.next
  prevFree : ∀ head, (f head).prevFree = head.prevFree
  nextFree : ∀ head, (f head).nextFree = head.nextFree

namespace Structured

variable {c : Cache} {n : ℕ} {nodes : List ℕ}

theorem lt_nrBuffers (h : Structured c) (hn : n < c.used) : n < nrBuffers :=
  lt_of_lt_of_le hn h.bounded

/-- A field that a write leaves alone is the same everywhere. -/
theorem put_field {β : Type} (field : BufferHead → β) {f : BufferHead → BufferHead}
    (hf : ∀ head, field (f head) = field head) (m : ℕ) :
    field ((c.put n f).heads m) = field (c.heads m) := by
  rw [put_heads]
  split_ifs with hm
  · rw [hf, hm]
  · rfl

/-- Counters, flags and data do not matter. -/
theorem put (h : Structured c) {f : BufferHead → BufferHead} (hf : KeepsPlace f) :
    Structured (c.put n f) := by
  have hdev := put_field (c := c) (n := n) dev hf.dev
  have hblocknr := put_field (c := c) (n := n) blocknr hf.blocknr
  have hnext := put_field (c := c) (n := n) next hf.next
  have hprev := put_field (c := c) (n := n) prev hf.prev
  have hbound : Bound (c.put n f) = Bound c := by
    funext m
    simp only [Bound, put_rest, hdev]
  refine ⟨h.several, h.bounded, ?_, ?_, ?_, ?_, ?_⟩
  · exact h.ring.congr rfl (fun m _ => put_field nextFree hf.nextFree m)
      fun m _ => put_field prevFree hf.prevFree m
  · rw [hbound]
    refine h.chains.congr rfl (fun m _ => hnext m) (fun m _ => hprev m) fun m _ => ?_
    simp only [bucket, hdev, hblocknr]
  · intro m hm hzero
    rw [hdev] at hzero
    rw [hnext, hprev]
    exact h.unbound m hm hzero
  · rw [hbound]
    intro m k hm hk
    rw [hdev, hdev, hblocknr, hblocknr]
    exact h.unique m k hm hk
  · intro m hm
    rw [put_field size hf.size]
    exact h.sizes m hm

/-! ## Lookup -/

/-- The heads of a chain are few enough for the walk. -/
theorem length_le (hnodup : nodes.Nodup) (hlt : ∀ m ∈ nodes, m < nrBuffers) :
    nodes.length ≤ nrBuffers := by
  have hsub : nodes ⊆ range nrBuffers := fun m hm => mem_range.mpr (hlt m hm)
  simpa using (hnodup.subperm hsub).length_le

/-- The walk along a chain finds the first head with the key. -/
theorem findFrom_eq {dev : UInt16} {block : UInt32} {size : ℕ} {pred : ℕ} :
    ∀ (nodes : List ℕ) (fuel p : ℕ), nodes.length < fuel → (∀ m ∈ nodes, m < nrBuffers) →
      Chained (fun m => (c.heads m).next) (fun m => (c.heads m).prev) nil pred p nodes →
      c.findFrom dev block size fuel p = .ok
        ((nodes.find? fun m => (c.heads m).dev = dev ∧ (c.heads m).blocknr = block).filter
          fun m => (c.heads m).size = size) := by
  intro nodes
  induction nodes generalizing pred with
  | nil =>
    rintro (_ | fuel) p hfuel - hchain
    · exact absurd hfuel (Nat.not_lt_zero _)
    · have hp : p = nil := hchain
      simp only [findFrom, if_pos hp]
      rfl
  | cons node rest ih =>
    rintro (_ | fuel) p hfuel hlt hchain
    · exact absurd hfuel (Nat.not_lt_zero _)
    · obtain ⟨rfl, hne, -, hrest⟩ := hchain
      have hp : p < nrBuffers := hlt p mem_cons_self
      simp only [findFrom, if_neg hne, bh_ok hp, bind, Except.bind]
      by_cases hkey : (c.heads p).dev = dev ∧ (c.heads p).blocknr = block
      · by_cases hsize : (c.heads p).size = size <;>
          simp [hkey, pure, Except.pure, Option.filter]
      · rw [ih fuel _ (by simpa using hfuel)
          (fun m hm => hlt m (mem_cons_of_mem _ hm)) hrest]
        simp [hkey]

theorem findBuffer_eq (dev : UInt16) (block : UInt32) (size : ℕ) (hlt : ∀ m ∈ nodes, m < nrBuffers)
    (hchain : Chained (fun m => (c.heads m).next) (fun m => (c.heads m).prev) nil nil
      (c.hashTable (hashfn dev block)) nodes) :
    c.findBuffer dev block size = .ok
      ((nodes.find? fun m => (c.heads m).dev = dev ∧ (c.heads m).blocknr = block).filter
        fun m => (c.heads m).size = size) :=
  findFrom_eq nodes _ _ (Nat.lt_succ_of_le (length_le hchain.threaded.nodup hlt)) hlt hchain

/-- A block that is bound to a buffer is found. -/
theorem findBuffer_of_bound (h : Structured c) (hn : Bound c n) :
    c.findBuffer (c.heads n).dev (c.heads n).blocknr blockSize = .ok (some n) := by
  obtain ⟨nodes, hchain, hnodes⟩ := h.chains (c.heads n).bucket
  have hlt : ∀ m ∈ nodes, m < nrBuffers := fun m hm => h.lt_nrBuffers ((hnodes m).mp hm).1.1
  have hmem : n ∈ nodes := (hnodes n).mpr ⟨hn, rfl⟩
  have hfound : nodes.find? (fun m => (c.heads m).dev = (c.heads n).dev ∧
      (c.heads m).blocknr = (c.heads n).blocknr) = some n := by
    obtain ⟨m, hm⟩ := Option.isSome_iff_exists.mp
      (find?_isSome.mpr ⟨n, hmem, by simp⟩ : (nodes.find? (fun m =>
        decide ((c.heads m).dev = (c.heads n).dev ∧
          (c.heads m).blocknr = (c.heads n).blocknr))).isSome)
    have hkey : (c.heads m).dev = (c.heads n).dev ∧ (c.heads m).blocknr = (c.heads n).blocknr := by
      simpa using find?_some hm
    have hbound := ((hnodes m).mp (mem_of_find?_eq_some hm)).1
    rw [hm, h.unique m n hbound hn hkey.1 hkey.2]
  rw [findBuffer_eq _ _ blockSize hlt hchain, hfound]
  simp [h.sizes n hn.1]

/-- The walk always ends, and what it finds is the block's buffer. -/
theorem findBuffer_ok (h : Structured c) (dev : UInt16) (block : UInt32) (size : ℕ) :
    ∃ found, c.findBuffer dev block size = .ok found ∧ ∀ m ∈ found, Bound c m := by
  obtain ⟨nodes, hchain, hnodes⟩ := h.chains (hashfn dev block)
  have hlt : ∀ m ∈ nodes, m < nrBuffers := fun m hm => h.lt_nrBuffers ((hnodes m).mp hm).1.1
  refine ⟨_, findBuffer_eq dev block size hlt hchain, fun m hm => ?_⟩
  have hfound := (Option.mem_filter_iff.mp hm).1
  exact ((hnodes m).mp (mem_of_find?_eq_some hfound)).1

/-- If the walk finds nothing, no buffer holds the block. -/
theorem free_of_findBuffer (h : Structured c) {dev : UInt16} {block : UInt32}
    (hnone : c.findBuffer dev block blockSize = .ok none) :
    ∀ m, Bound c m → ¬ ((c.heads m).dev = dev ∧ (c.heads m).blocknr = block) := by
  rintro m hm ⟨rfl, rfl⟩
  rw [h.findBuffer_of_bound hm] at hnone
  cases hnone

/-! ## The two edits of `getblk` -/

/-- Some other buffer is on the ring. -/
theorem exists_other (h : Structured c) (n : ℕ) : ∃ m, m < c.used ∧ m ≠ n := by
  have := h.several
  by_cases hn : n = 0
  · exact ⟨1, this, by omega⟩
  · exact ⟨0, by omega, symm hn⟩

/-- The free ring with one buffer off and on again. -/
theorem without_or_eq (hn : n < c.used) :
    (fun m => (m < c.used ∧ m ≠ n) ∨ m = n) = (· < c.used) := by
  funext m
  apply propext
  constructor
  · rintro (hm | rfl)
    · exact hm.1
    · exact hn
  · intro hm
    by_cases heq : m = n
    · exact .inr heq
    · exact .inl ⟨hm, heq⟩

section

variable (h : Structured c) (hn : n < c.used)

include h hn

/-- Moving a buffer to the recently used end. -/
theorem putLastFree_ok : ∃ c', c.putLastFree n = .ok c' ∧ Structured c' ∧ c'.used = c.used ∧
      ∀ m, (c'.heads m).core = (c.heads m).core := by
  have hlt := h.lt_nrBuffers hn
  obtain ⟨hnext, hprev⟩ := h.ring.links hn
  by_cases hfirst : c.freeList = n
  · refine ⟨{ c with freeList := (c.heads n).nextFree }, ?_, ?_, rfl, fun _ => rfl⟩
    · simp only [putLastFree, if_pos hfirst, bh_ok hlt]
      rfl
    · -- `FREE_LIST` moves along the ring
      obtain ⟨ring, hring, hmem, -⟩ := h.ring
      exact ⟨h.several, h.bounded, ⟨ring, hring, hmem, (hmem _).mpr hnext⟩, h.chains, h.unbound,
        h.unique, h.sizes⟩
  · obtain ⟨off, hoff, hunringed⟩ :=
      removeFromFreeList_eq hlt (h.lt_nrBuffers hnext) (h.lt_nrBuffers hprev)
    have hringOff := h.ring.unring hn (h.exists_other n) hunringed
    have hheadOff := hringOff.head
    have htailOff := (hringOff.links hheadOff).2
    obtain ⟨on, hon, hringed⟩ := insertAtFreeTail_eq hlt (h.lt_nrBuffers hheadOff.1)
      (h.lt_nrBuffers htailOff.1)
    have hringOn := hringOff.ringed (fun hin => hin.2 rfl) hringed
    rw [without_or_eq hn] at hringOn
    have hused : on.used = c.used := hringed.used.trans hunringed.used
    -- only ring links were written
    have hsame : ∀ m, on.heads m = { c.heads m with
        prevFree := (on.heads m).prevFree, nextFree := (on.heads m).nextFree } := by
      intro m
      rw [hringed.heads m, hunringed.heads m]
    have hbound : Bound on = Bound c := by
      funext m
      rw [Bound, Bound, hused, hsame m]
    refine ⟨on, ?_, ⟨?_, ?_, ?_, ?_, ?_, ?_, ?_⟩, hused, fun m => by rw [hsame m]; rfl⟩
    · simp only [putLastFree, if_neg hfirst, hoff]
      exact hon
    · rw [hused]
      exact h.several
    · rw [hused]
      exact h.bounded
    · rwa [hused]
    · rw [hbound]
      refine h.chains.congr ?_ (fun m _ => ?_) (fun m _ => ?_) fun m _ => ?_
      · rw [hringed.hashTable, hunringed.hashTable]
      all_goals rw [hsame m]
      rfl
    · intro m hm hzero
      rw [hused] at hm
      rw [hsame m] at hzero ⊢
      exact h.unbound m hm hzero
    · rw [hbound]
      intro m k hm hk
      rw [hsame m, hsame k]
      exact h.unique m k hm hk
    · intro m hm
      rw [hused] at hm
      rw [hsame m]
      exact h.sizes m hm

/-- A head is off its chain after `remove_from_hash_queue`, and the rest is as before. -/
theorem unhash_ok : ∃ off, c.removeFromHashQueue n = .ok off ∧ Unhashed c n off ∧
      HashChains off (fun m => Bound c m ∧ m ≠ n) ∧
      ∀ m, m < c.used → m ≠ n → (c.heads m).dev = 0 →
        (off.heads m).next = nil ∧ (off.heads m).prev = nil := by
  have hlt := h.lt_nrBuffers hn
  by_cases hdev : (c.heads n).dev = 0
  · obtain ⟨hnext, hprev⟩ := h.unbound n hn hdev
    obtain ⟨off, hoff, hspec⟩ := removeFromHashQueue_eq hlt (.inl hnext) (.inl hprev)
    have hout : ¬ Bound c n := fun hbound => hbound.2 hdev
    refine ⟨off, hoff, hspec, ?_, fun m hm hne hzero => ?_⟩
    · have hsame : (fun m => Bound c m ∧ m ≠ n) = Bound c := by
        funext m
        exact propext ⟨fun hm => hm.1, fun hm => ⟨hm, fun heq => hout (heq ▸ hm)⟩⟩
      rw [hsame]
      exact h.chains.unhash_off hout (lt_nil hlt) hnext hprev hspec
    · rw [hspec.heads m]
      simp [hnext, h.unbound m hm hzero]
  · have hbound : Bound c n := ⟨hn, hdev⟩
    obtain ⟨hnext, hprev⟩ := h.chains.links hbound
    obtain ⟨off, hoff, hspec⟩ := removeFromHashQueue_eq hlt
      (hnext.imp_right fun hb => h.lt_nrBuffers hb.1.1)
      (hprev.imp_right fun hb => h.lt_nrBuffers hb.1.1)
    refine ⟨off, hoff, hspec, h.chains.unhash_on hbound hspec, fun m hm hne hzero => ?_⟩
    -- the neighbours on the chain are bound
    have hnotNext : ¬ ((c.heads n).next ≠ nil ∧ m = (c.heads n).next) := by
      rintro ⟨hnil, rfl⟩
      exact (hnext.resolve_left hnil).1.2 hzero
    have hnotPrev : ¬ ((c.heads n).prev ≠ nil ∧ m = (c.heads n).prev) := by
      rintro ⟨hnil, rfl⟩
      exact (hprev.resolve_left hnil).1.2 hzero
    rw [hspec.heads m]
    simp only [if_neg hne, if_neg hnotNext, if_neg hnotPrev]
    exact h.unbound m hm hzero

/-- Giving a buffer the key of a block that no buffer holds. -/
theorem rekey_ok {dev : UInt16} {block : UInt32} (hdev : dev ≠ 0)
    (hfree : ∀ m, Bound c m → ¬ ((c.heads m).dev = dev ∧ (c.heads m).blocknr = block)) :
    ∃ c', rekey c n dev block = .ok c' ∧ Structured c' ∧ c'.used = c.used ∧
      ∀ m, (c'.heads m).core =
        if m = n then
          { data := (c.heads n).data, dev := dev, blocknr := block, uptodate := false, dirt := false
            lock := (c.heads n).lock }
        else (c.heads m).core := by
  have hlt := h.lt_nrBuffers hn
  -- the flags first
  let fresh := c.put n ({ · with count := 1, dirt := false, uptodate := false, req := false })
  have hfresh : Structured fresh := h.put ⟨fun _ => rfl, fun _ => rfl, fun _ => rfl, fun _ => rfl,
    fun _ => rfl, fun _ => rfl, fun _ => rfl⟩
  have hfreshDev : ∀ m, (fresh.heads m).dev = (c.heads m).dev := put_field _ fun _ => rfl
  have hfreshBlock : ∀ m, (fresh.heads m).blocknr = (c.heads m).blocknr := put_field _ fun _ => rfl
  have hfreshBound : ∀ m, Bound fresh m → Bound c m := by
    intro m hm
    exact ⟨hm.1, hfreshDev m ▸ hm.2⟩
  -- off the chain, off the ring
  obtain ⟨unhashed, hunhash, hunhashed, hchainsOff, hunbound⟩ := hfresh.unhash_ok hn
  have hringUnhashed : FreeRing unhashed (· < c.used) := by
    refine hfresh.ring.congr hunhashed.freeList (fun m _ => ?_) fun m _ => ?_ <;>
      rw [hunhashed.heads m]
  obtain ⟨hnextFree, hprevFree⟩ := hringUnhashed.links hn
  obtain ⟨off, hoff, hunringed⟩ := removeFromFreeList_eq hlt (h.lt_nrBuffers hnextFree)
    (h.lt_nrBuffers hprevFree)
  have hringOff := hringUnhashed.unring hn (h.exists_other n) hunringed
  -- the new key
  let keyed := off.put n ({ · with dev := dev, blocknr := block })
  have hkeyedOther : ∀ m, m ≠ n → keyed.heads m = off.heads m := by
    intro m hm
    simp [keyed, hm]
  have hkeyedHere : keyed.heads n = { off.heads n with dev := dev, blocknr := block } := by
    simp [keyed]
  have hringKeyed : FreeRing keyed (fun m => m < c.used ∧ m ≠ n) := by
    refine hringOff.congr rfl (fun m hm => ?_) fun m hm => ?_ <;> rw [hkeyedOther m hm.2]
  have hchainsKeyed : HashChains keyed (fun m => Bound fresh m ∧ m ≠ n) := by
    refine hchainsOff.congr hunringed.hashTable (fun m hm => ?_) (fun m hm => ?_) fun m hm => ?_
    all_goals rw [hkeyedOther m hm.2, hunringed.heads m]
    rfl
  -- on the ring, on the chain
  have hold : keyed.hashTable (keyed.heads n).bucket = nil ∨
      keyed.hashTable (keyed.heads n).bucket < nrBuffers :=
    (hchainsKeyed.head _).imp_right fun hb => h.lt_nrBuffers hb.1.1.1
  have hdevKeyed : (keyed.heads n).dev ≠ 0 := by
    rw [hkeyedHere]
    exact hdev
  obtain ⟨ringed, final, hfinal, hringed, hhashed⟩ := insertIntoQueues_eq hlt
    (h.lt_nrBuffers hringKeyed.head.1)
    (h.lt_nrBuffers (hringKeyed.links hringKeyed.head).2.1) hdevKeyed hold
  have hringRinged := hringKeyed.ringed (fun hin => hin.2 rfl) hringed
  rw [without_or_eq hn] at hringRinged
  have hchainsRinged : HashChains ringed (fun m => Bound fresh m ∧ m ≠ n) := by
    refine hchainsKeyed.congr hringed.hashTable (fun m _ => ?_) (fun m _ => ?_) fun m _ => ?_
    all_goals rw [hringed.heads m]
    rfl
  have hchainsFinal := hchainsRinged.hashed (fun hin => hin.2 rfl) (lt_nil hlt) hhashed
  -- what became of keys and sizes
  have hused : final.used = c.used :=
    (hhashed.used.trans hringed.used).trans (hunringed.used.trans hunhashed.used)
  have hkeyOther : ∀ m, m ≠ n → (final.heads m).dev = (c.heads m).dev ∧
      (final.heads m).blocknr = (c.heads m).blocknr := by
    intro m hm
    rw [hhashed.heads m, hringed.heads m, hkeyedOther m hm, hunringed.heads m, hunhashed.heads m]
    exact ⟨hfreshDev m, hfreshBlock m⟩
  have hkeyHere : (final.heads n).dev = dev ∧ (final.heads n).blocknr = block := by
    rw [hhashed.heads n, hringed.heads n, hkeyedHere]
    exact ⟨rfl, rfl⟩
  have hbound : Bound final = fun m => (Bound fresh m ∧ m ≠ n) ∨ m = n := by
    funext m
    by_cases hm : m = n
    · subst hm
      simp [Bound, hused, hn, hkeyHere.1, hdev]
    · simp only [Bound, hused, (hkeyOther m hm).1, hm, or_false, ne_eq, not_false_eq_true, and_true,
        hfreshDev m]
      rfl
  have hcore : ∀ m, (final.heads m).core =
      if m = n then
        { data := (c.heads n).data, dev := dev, blocknr := block, uptodate := false, dirt := false
          lock := (c.heads n).lock }
      else (c.heads m).core := by
    intro m
    split_ifs with hm
    · rw [hm, hhashed.heads n, hringed.heads n, hkeyedHere, hunringed.heads n, hunhashed.heads n]
      simp [core, fresh]
    · rw [hhashed.heads m, hringed.heads m, hkeyedOther m hm, hunringed.heads m, hunhashed.heads m]
      simp [core, fresh, hm]
  refine ⟨final, ?_, ⟨?_, ?_, ?_, ?_, ?_, ?_, ?_⟩, hused, hcore⟩
  · have hqueues : fresh.removeFromQueues n = .ok off := by
      simp only [removeFromQueues, hunhash]
      exact hoff
    have hsteps : rekey c n dev block = (fresh.removeFromQueues n >>= fun c =>
        c.modify n ({ · with dev := dev, blocknr := block }) >>= fun c => c.insertIntoQueues n) := by
      simp only [rekey, modify_ok hlt]
      rfl
    rw [hsteps, hqueues]
    simp only [modify_ok hlt]
    exact hfinal
  · rw [hused]
    exact h.several
  · rw [hused]
    exact h.bounded
  · rw [hused]
    refine hringRinged.congr hhashed.freeList (fun m _ => ?_) fun m _ => ?_ <;> rw [hhashed.heads m]
  · rw [hbound]
    exact hchainsFinal
  · intro m hm hzero
    rw [hused] at hm
    have hne : m ≠ n := by
      rintro rfl
      exact hdev (hkeyHere.1 ▸ hzero)
    have hzeroFresh : (fresh.heads m).dev = 0 := by
      rw [hfreshDev, ← (hkeyOther m hne).1]
      exact hzero
    -- the first of the chain it joined is bound
    have hnotFirst : ¬ (ringed.hashTable (ringed.heads n).bucket ≠ nil ∧
        m = ringed.hashTable (ringed.heads n).bucket) := by
      rintro ⟨hnil, rfl⟩
      exact ((hchainsRinged.head _).resolve_left hnil).1.1.2 hzeroFresh
    rw [hhashed.heads m]
    simp only [if_neg hne, if_neg hnotFirst]
    rw [hringed.heads m, hkeyedOther m hne, hunringed.heads m]
    exact hunbound m hm hne hzeroFresh
  · intro m k hm hk hsameDev hsameBlock
    by_cases hmn : m = n <;> by_cases hkn : k = n
    · rw [hmn, hkn]
    · rw [hmn, hkeyHere.1, (hkeyOther k hkn).1] at hsameDev
      rw [hmn, hkeyHere.2, (hkeyOther k hkn).2] at hsameBlock
      rw [hbound] at hk
      exact absurd ⟨hsameDev.symm, hsameBlock.symm⟩
        (hfree k (hfreshBound k (hk.resolve_right hkn).1))
    · rw [hkn, hkeyHere.1, (hkeyOther m hmn).1] at hsameDev
      rw [hkn, hkeyHere.2, (hkeyOther m hmn).2] at hsameBlock
      rw [hbound] at hm
      exact absurd ⟨hsameDev, hsameBlock⟩ (hfree m (hfreshBound m (hm.resolve_right hmn).1))
    · rw [(hkeyOther m hmn).1, (hkeyOther k hkn).1] at hsameDev
      rw [(hkeyOther m hmn).2, (hkeyOther k hkn).2] at hsameBlock
      rw [hbound] at hm hk
      exact h.unique m k (hfreshBound m (hm.resolve_right hmn).1)
        (hfreshBound k (hk.resolve_right hkn).1) hsameDev hsameBlock
  · intro m hm
    rw [hused] at hm
    have hsize : (keyed.heads m).size = (fresh.heads m).size := by
      by_cases hmn : m = n
      · rw [hmn, hkeyedHere, hunringed.heads n, hunhashed.heads n]
      · rw [hkeyedOther m hmn, hunringed.heads m, hunhashed.heads m]
    rw [hhashed.heads m, hringed.heads m, hsize]
    exact hfresh.sizes m hm

end

/-- The scan of the free ring ends at a built buffer, or at none. -/
theorem scanFree_ok (h : Structured c) (size : ℕ) :
    ∀ (fuel p best : ℕ), p < c.used → (best = nil ∨ best < c.used) →
      ∃ found, c.scanFree size fuel p best = .ok found ∧ (found = nil ∨ found < c.used) := by
  intro fuel
  induction fuel with
  | zero => exact fun p best _ hbest => ⟨best, rfl, hbest⟩
  | succ fuel ih =>
    intro p best hp hbest
    have hlt := h.lt_nrBuffers hp
    have hnext := (h.ring.links hp).1
    have hgoes : ¬ ((c.heads p).nextFree ≠ nil ∧ ¬ (c.heads p).nextFree < nrBuffers) :=
      fun hbad => hbad.2 (h.lt_nrBuffers hnext)
    simp only [scanFree, if_neg (lt_nil hlt), bh_ok hlt, bind, Except.bind]
    split_ifs
    · exact ⟨p, rfl, .inr hp⟩
    · exact ⟨best, rfl, hbest⟩
    · exact ih _ _ hnext (.inr hp)
    · exact ih _ _ hnext hbest

end Structured

/-! ## The state `init` leaves -/

/-- The tables after `built` rounds of the loop of `init`. -/
structure Built (c : Cache) (built : ℕ) : Prop where
  ring : 0 < built → FreeRing c (· < built)
  first : built = 0 → c.freeList = nil
  heads : ∀ n, n < built → (c.heads n).dev = 0 ∧ (c.heads n).size = blockSize
  links : ∀ n, (c.heads n).next = nil ∧ (c.heads n).prev = nil
  clean : ∀ n, (c.heads n).dirt = false
  table : ∀ bucket, c.hashTable bucket = nil

theorem Built.addHead {c : Cache} {built : ℕ} (h : Built c built) (hlt : built < nrBuffers) :
    ∃ c', c.addHead built = .ok c' ∧ Built c' (built + 1) := by
  let sized := c.put built ({ · with size := blockSize, dev := 0, count := 0 })
  have hother : ∀ n, n ≠ built → sized.heads n = c.heads n := by
    intro n hn
    simp [sized, hn]
  have hhere : sized.heads built = { c.heads built with size := blockSize, dev := 0, count := 0 } := by
    simp [sized]
  have hsized : ∀ n, n < built + 1 → (sized.heads n).dev = 0 ∧ (sized.heads n).size = blockSize := by
    intro n hn
    by_cases heq : n = built
    · rw [heq, hhere]
      exact ⟨rfl, rfl⟩
    · rw [hother n heq]
      exact h.heads n (by omega)
  have hlinks : ∀ n, (sized.heads n).next = nil ∧ (sized.heads n).prev = nil := by
    intro n
    by_cases heq : n = built
    · rw [heq, hhere]
      exact h.links built
    · rw [hother n heq]
      exact h.links n
  have hclean : ∀ n, (sized.heads n).dirt = false := by
    intro n
    by_cases heq : n = built
    · rw [heq, hhere]
      exact h.clean built
    · rw [hother n heq]
      exact h.clean n
  rcases Nat.eq_zero_or_pos built with hzero | hpos
  · -- the first head is a ring of its own
    have hfirst : sized.freeList = nil := h.first hzero
    let alone := sized.put built ({ · with nextFree := built, prevFree := built })
    have hkeeps : ∀ n, alone.heads n =
        { sized.heads n with
          nextFree := (alone.heads n).nextFree, prevFree := (alone.heads n).prevFree } := by
      intro n
      simp only [alone, put_heads]
      split_ifs with heq
      · rw [heq]
      · rfl
    refine ⟨{ alone with freeList := built }, ?_, ⟨fun _ => ?_, fun hs => absurd hs (by omega),
      fun n hn => ?_, fun n => ?_, fun n => ?_, h.table⟩⟩
    · simp only [Cache.addHead, modify_ok hlt, bind, Except.bind]
      rw [if_pos hfirst]
      rfl
    · refine ⟨(([built] : List ℕ) : Cycle ℕ), ⟨?_, ?_⟩, fun n => ?_, ?_⟩
      · rw [Cycle.chain_singleton]
        exact ⟨by simp [alone], by simp [alone]⟩
      · exact Cycle.nodup_coe_iff.mpr (nodup_singleton _)
      · rw [Cycle.mem_coe_iff, mem_singleton]
        omega
      · exact Cycle.mem_coe_iff.mpr mem_cons_self
    · rw [hkeeps n]
      exact hsized n hn
    · rw [hkeeps n]
      exact hlinks n
    · rw [hkeeps n]
      exact hclean n
  · have hring : FreeRing sized (· < built) := by
      refine (h.ring hpos).congr rfl (fun n hn => ?_) fun n hn => ?_ <;>
        rw [hother n (ne_of_lt hn)]
    have hhead := hring.head
    have hnotNil : sized.freeList ≠ nil := lt_nil (lt_trans hhead hlt)
    obtain ⟨c', hinsert, hringed⟩ := insertAtFreeTail_eq hlt (lt_trans hhead hlt)
      (lt_trans (hring.links hhead).2 hlt)
    refine ⟨c', ?_, ⟨fun _ => ?_, fun hs => absurd hs (by omega), fun n hn => ?_, fun n => ?_,
      fun n => ?_, fun bucket => ?_⟩⟩
    · simp only [Cache.addHead, Cache.modify_ok hlt, bind, Except.bind]
      rw [if_neg hnotNil]
      exact hinsert
    · have hmembers : (fun n => n < built ∨ n = built) = (· < built + 1) := by
        funext n
        exact propext Nat.lt_succ_iff_lt_or_eq.symm
      rw [← hmembers]
      exact hring.ringed (lt_irrefl built) hringed
    · rw [hringed.heads n]
      exact hsized n hn
    · rw [hringed.heads n]
      exact hlinks n
    · rw [hringed.heads n]
      exact hclean n
    · rw [hringed.hashTable]
      exact h.table bucket

theorem build_ok (contents : ℕ → Block) :
    ∀ built, built ≤ nrBuffers → ∃ c, build contents built = .ok c ∧ Built c built := by
  intro built
  induction built with
  | zero =>
    intro _
    exact ⟨_, rfl, ⟨fun hpos => absurd hpos (lt_irrefl 0), fun _ => rfl,
      nofun, fun _ => ⟨rfl, rfl⟩, fun _ => rfl,
      fun _ => rfl⟩⟩
  | succ built ih =>
    intro hle
    obtain ⟨c, hbuild, hbuilt⟩ := ih (Nat.le_of_succ_le hle)
    obtain ⟨c', hadd, hbuilt'⟩ := hbuilt.addHead hle
    refine ⟨c', ?_, hbuilt'⟩
    simp only [build, hbuild]
    exact hadd

section

variable {contents : ℕ → Block} {pages : ℕ} {c : Cache} (hinit : Cache.init contents pages = .ok c)

include hinit

/-- What `init` leaves: two buffers or more, built one after the other. -/
theorem init_built : 1 < c.used ∧ c.used ≤ nrBuffers ∧ Built c c.used := by
  simp only [init, bind, Except.bind] at hinit
  split_ifs at hinit with hnone
  · have hmany : 1 < min (perPage * pages) nrBuffers := by
      unfold perPage nrBuffers at hnone ⊢
      omega
    obtain ⟨built, hbuild, hspec⟩ :=
      build_ok contents (min (perPage * pages) nrBuffers) (min_le_right _ _)
    rw [hbuild] at hinit
    cases hinit
    refine ⟨hmany, min_le_right _ _, ?_⟩
    exact ⟨hspec.ring, hspec.first, hspec.heads, hspec.links, hspec.clean, hspec.table⟩

/-- A cache `init` has set up is structured. -/
theorem init_structured : Structured c := by
  obtain ⟨hmany, hbounded, hspec⟩ := init_built hinit
  have hzero : ∀ n, n < c.used → (c.heads n).dev = 0 := fun n hn => (hspec.heads n hn).1
  refine ⟨hmany, hbounded, hspec.ring (by omega), fun bucket => ?_,
    fun n _ _ => hspec.links n, fun m n hm => absurd (hzero m hm.1) hm.2,
    fun n hn => (hspec.heads n hn).2⟩
  refine ⟨[], hspec.table bucket, fun n => ?_⟩
  simp only [not_mem_nil, false_iff]
  exact fun hn => hn.1.2 (hzero n hn.1.1)

end

/-! ## The calls keep the structure -/

/-- A frame speaks of built buffers, and of blocks of a device. -/
def Frame.Ok (used : ℕ) : Frame → Prop
  | .waitOnBuffer n | .waiting n | .breadIssued n | .breadWaited n | .brelseWaited n
  | .syncUnlocked _ _ _ n _ _ | .syncWrote _ _ _ n _ | .invalidateWaited _ n | .llRwBlock _ n
  | .makeRequest _ n | .makeRequestLock _ n | .makeRequestSlot _ n => n < used
  | .getHashTable dev _ _ | .getblk dev _ _ | .getblkLookedUp dev _ _ | .bread dev _ _ => dev ≠ 0
  | .getHashTableCheck dev _ _ n | .getblkBest dev _ _ n | .getblkSynced dev _ _ n =>
    dev ≠ 0 ∧ n < used
  | .brelse n => n = nil ∨ n < used
  | .breadGot | .breadFailed | .syncBuffers _ _ | .syncSlot _ _ _ _ _ _ | .invalidate _ _ => True

/-- A returned buffer is a built one. -/
def Value.Ok (used : ℕ) : Value → Prop
  | .buffer (some n) => n < used
  | _ => True

/-- The invariant of the shared state: a structured cache that never grows. -/
def SharedOk (used : ℕ) (io : BlockIo) : Prop := Structured io.cache ∧ io.cache.used = used

/-- What a stretch has to deliver. -/
def StretchOk (used : ℕ) (stretch : Stretch) : Prop :=
  ∃ after next, stretch = .ok (after, next) ∧ SharedOk used after ∧
    Coop.NextHolds (Frame.Ok used) (Value.Ok used) next

section Stretches

variable {used n : ℕ} {io : BlockIo} {next : Next Frame Value}

theorem StretchOk.withHead (hn : n < nrBuffers) {k : BufferHead → Stretch}
    (hk : StretchOk used (k (io.cache.heads n))) : StretchOk used (withHead io n k) := by
  simp only [Buffer.withHead, bh_ok hn]
  exact hk

theorem syncPassEnd_ok (dev : UInt16) (wait : Bool) (pass : ℕ) (retry err : Bool) :
    Coop.NextHolds (Frame.Ok used) (Value.Ok used) (syncPassEnd dev wait pass retry err) := by
  unfold syncPassEnd
  split_ifs <;> exact trivial

section

variable (h : SharedOk used io)

include h

/-- A write to flags, counters or data of one head. -/
theorem SharedOk.put {after : BlockIo} (f : BufferHead → BufferHead)
    (hcache : after.cache = io.cache.put n f) (hf : KeepsPlace f) : SharedOk used after := by
  rw [SharedOk, hcache]
  exact ⟨h.1.put hf, h.2⟩

theorem StretchOk.same (hnext : Coop.NextHolds (Frame.Ok used) (Value.Ok used) next) :
    StretchOk used (.ok (io, next)) :=
  ⟨io, next, rfl, h, hnext⟩

theorem StretchOk.writeHead (hn : n < used) {f : BufferHead → BufferHead} (hf : KeepsPlace f)
    (hnext : Coop.NextHolds (Frame.Ok used) (Value.Ok used) next) :
    StretchOk used (writeHead io n f next) := by
  have hlt := h.1.lt_nrBuffers (h.2 ▸ hn)
  refine ⟨io.putHead n f, next, ?_, h.put f rfl hf, hnext⟩
  simp only [Buffer.writeHead, modify_ok hlt]
  rfl

theorem StretchOk.giveUp (hn : n < used) : StretchOk used (giveUp io n) := by
  refine .writeHead h hn ?_ trivial
  constructor <;> exact fun _ => rfl

/-- The scan of `getblk` ends in a sleep or in a wait for a built buffer. -/
theorem StretchOk.getblkScan {dev : UInt16} (hdev : dev ≠ 0) (block : UInt32) (size : ℕ) :
    StretchOk used (getblkScan io dev block size) := by
  obtain ⟨found, hfound, hbuilt⟩ :=
    h.1.scanFree_ok size io.cache.used io.cache.freeList nil h.1.ring.head (.inl rfl)
  simp only [Buffer.getblkScan, hfound, bind, Except.bind]
  split_ifs with hnil
  · exact .same h hdev
  · have hlt : found < used := h.2 ▸ hbuilt.resolve_left hnil
    exact .same h ⟨hlt, hdev, hlt⟩

/-- Taking the victim of `getblk`, if it is still free for the taking. -/
theorem StretchOk.getblkBest {dev : UInt16} {block : UInt32} {size best : ℕ} (hdev : dev ≠ 0)
    (hbest : best < used) (value : Value) :
    StretchOk used (code (.getblkBest dev block size best) value io) := by
  have hused : best < io.cache.used := h.2 ▸ hbest
  refine .withHead (h.1.lt_nrBuffers hused) ?_
  obtain ⟨found, hfound, -⟩ := h.1.findBuffer_ok dev block size
  split_ifs with hbusy hdirt
  · exact .same h hdev
  · exact .same h ⟨trivial, hdev, hbest⟩
  · simp only [hfound, bind, Except.bind]
    split_ifs with hsome
    · exact .same h hdev
    · have hsize : size = blockSize := by
        rw [not_or, not_not, not_not, h.1.sizes best hused] at hbusy
        exact hbusy.2.symm
      rw [hsize, Option.not_isSome_iff_eq_none.mp hsome] at hfound
      obtain ⟨cache, hrekey, hcache, hsame, -⟩ :=
        h.1.rekey_ok hused hdev (h.1.free_of_findBuffer hfound)
      rw [hrekey]
      exact ⟨_, _, rfl, ⟨hcache, hsame.trans h.2⟩, hbest⟩

end

end Stretches

/-- Every stretch of a call keeps the structure. -/
theorem code_ok {used : ℕ} (frame : Frame) (value : Value) (io : BlockIo) (h : SharedOk used io)
    (hframe : frame.Ok used) (hvalue : value.Ok used) : StretchOk used (code frame value io) := by
  have hlt : ∀ {n}, n < used → n < nrBuffers := fun hn => h.1.lt_nrBuffers (h.2 ▸ hn)
  have hbuilt : ∀ {slot}, ¬ (0 < io.cache.used ∧ io.cache.used ≤ slot) → slot < used := by
    have := h.1.several
    have := h.2
    omega
  cases frame with
  | waitOnBuffer n =>
    refine .withHead (hlt hframe) ?_
    split_ifs
    · refine .writeHead h hframe ?_ hframe
      constructor <;> exact fun _ => rfl
    · exact .same h trivial
  | waiting n =>
    refine .withHead (hlt hframe) ?_
    split_ifs
    · exact .same h hframe
    · refine .writeHead h hframe ?_ trivial
      constructor <;> exact fun _ => rfl
  | getHashTable dev block size =>
    obtain ⟨found, hfound, hbound⟩ := h.1.findBuffer_ok dev block size
    simp only [code, hfound]
    cases found with
    | none => exact .same h trivial
    | some n =>
      have hn : n < used := h.2 ▸ (hbound n rfl).1
      refine .writeHead h hn ?_ ⟨hn, hframe, hn⟩
      constructor <;> exact fun _ => rfl
  | getHashTableCheck dev block size n =>
    refine .withHead (hlt hframe.2) ?_
    split_ifs
    · exact .same h hframe.2
    · refine .writeHead h hframe.2 ?_ hframe.1
      constructor <;> exact fun _ => rfl
  | getblk dev block size | breadIssued n => exact .same h ⟨hframe, hframe⟩
  | getblkLookedUp dev block size =>
    rcases value with _ | (_ | n) | _
    · exact .getblkScan h hframe block size
    · exact .getblkScan h hframe block size
    · refine .withHead (hlt hvalue) ?_
      split_ifs
      · obtain ⟨cache, hput, hcache, hsame, -⟩ := h.1.putLastFree_ok (h.2 ▸ hvalue)
        simp only [hput]
        exact ⟨_, _, rfl, ⟨hcache, hsame.trans h.2⟩, hvalue⟩
      · exact .same h hvalue
    · exact .getblkScan h hframe block size
  | getblkBest dev block size best => exact .getblkBest h hframe.1 hframe.2 value
  | getblkSynced dev block size best =>
    refine .writeHead h hframe.2 ?_ hframe.1
    constructor <;> exact fun _ => rfl
  | bread dev block size => exact .same h ⟨hframe, trivial⟩
  | breadGot =>
    rcases value with _ | (_ | n) | _
    · exact .same h trivial
    · exact .same h trivial
    · refine .withHead (hlt hvalue) ?_
      split_ifs
      · exact .same h hvalue
      · exact .same h ⟨hvalue, hvalue⟩
    · exact .same h trivial
  | breadWaited n =>
    refine .withHead (hlt hframe) ?_
    split_ifs
    · exact .same h hframe
    · exact .same h ⟨.inr hframe, trivial⟩
  | breadFailed | syncBuffers dev wait => exact .same h trivial
  | brelse n =>
    simp only [code]
    split_ifs with hnil
    · exact .same h trivial
    · exact .same h ⟨hframe.resolve_left hnil, hframe.resolve_left hnil⟩
  | brelseWaited n =>
    refine .withHead (hlt hframe) ?_
    split_ifs
    · exact .same h trivial
    · refine .writeHead h hframe ?_ trivial
      constructor <;> exact fun _ => rfl
  | syncSlot dev wait pass slot retry err =>
    simp only [code]
    by_cases hslot : slot < nrBuffers
    · rw [if_neg (not_not_intro hslot)]
      refine .withHead hslot ?_
      split_ifs with hsize hend hother hlock hskip
      · exact .same h trivial
      · exact .same h (syncPassEnd_ok dev wait pass retry err)
      · exact .same h trivial
      · exact .same h trivial
      · exact .same h ⟨hbuilt hend, hbuilt hend⟩
      · exact .same h (hbuilt hend)
    · rw [if_pos hslot]
      exact .same h (syncPassEnd_ok dev wait pass retry err)
  | syncUnlocked dev wait pass slot retry err =>
    refine .withHead (hlt hframe) ?_
    split_ifs
    · exact .same h trivial
    · exact .same h trivial
    · refine .writeHead h hframe ?_ ⟨hframe, hframe⟩
      constructor <;> exact fun _ => rfl
  | syncWrote dev wait pass slot err =>
    refine .writeHead h hframe ?_ trivial
    constructor <;> exact fun _ => rfl
  | invalidate dev slot =>
    simp only [code]
    by_cases hslot : slot < nrBuffers
    · rw [if_neg (not_not_intro hslot)]
      refine .withHead hslot ?_
      split_ifs with hsize hend hother
      · exact .same h trivial
      · exact .same h trivial
      · exact .same h trivial
      · exact .same h ⟨hbuilt hend, hbuilt hend⟩
    · rw [if_pos hslot]
      exact .same h trivial
  | invalidateWaited dev slot =>
    refine .withHead (hlt hframe) ?_
    split_ifs
    · refine .writeHead h hframe ?_ trivial
      constructor <;> exact fun _ => rfl
    · exact .same h trivial
  | llRwBlock rw n =>
    refine .withHead (hlt hframe) ?_
    split_ifs with hdriver hsize hreadOnly
    · exact .giveUp h hframe
    · exact .giveUp h hframe
    · refine .writeHead h hframe ?_ hframe
      constructor <;> exact fun _ => rfl
    · exact .giveUp h hframe
  | makeRequest rw n =>
    refine .withHead (hlt hframe) ?_
    cases io.capacity (major (io.cache.heads n).dev) with
    | none => exact .same h ⟨hframe, hframe⟩
    | some cap =>
      dsimp only
      split_ifs
      · exact .giveUp h hframe
      · exact .same h ⟨hframe, hframe⟩
  | makeRequestLock rw n =>
    refine .withHead (hlt hframe) ?_
    split_ifs
    · refine .writeHead h hframe ?_ trivial
      constructor <;> exact fun _ => rfl
    · refine .writeHead h hframe ?_ hframe
      constructor <;> exact fun _ => rfl
  | makeRequestSlot rw n =>
    refine .withHead (hlt hframe) ?_
    dsimp only
    cases io.freeRequest (if rw = .read then nrRequest else nrRequest * 2 / 3) with
    | none => exact .same h hframe
    | some r =>
      refine ⟨_, _, rfl, h.put ({ · with dirt := false }) rfl ?_, trivial⟩
      constructor <;> exact fun _ => rfl

theorem outside_ok {used : ℕ} (io : BlockIo) (input : Outside) (h : SharedOk used io) :
    ∃ after, outside io input = .ok after ∧ SharedOk used after := by
  cases input with
  | store n data =>
    simp only [outside]
    split_ifs
    · refine ⟨_, rfl, h.put ({ · with data := data, uptodate := true, dirt := true }) rfl ?_⟩
      constructor <;> exact fun _ => rfl
    · exact ⟨io, rfl, h⟩
  | transfer m =>
    refine ⟨_, rfl, ?_⟩
    unfold BlockIo.transfer
    cases io.queue m with
    | nil => exact h
    | cons r rest =>
      dsimp only
      split_ifs
      · exact h
      · cases (io.requests r).cmd with
        | read =>
          refine h.put ({ · with data := _ }) rfl ?_
          constructor <;> exact fun _ => rfl
        | write => exact h
  | endRequest m uptodate =>
    refine ⟨_, rfl, ?_⟩
    unfold BlockIo.endRequest
    cases io.queue m with
    | nil => exact h
    | cons r rest =>
      dsimp only
      split_ifs
      · exact h
      · refine h.put ({ · with uptodate := uptodate, dirt := false, lock := false }) rfl ?_
        constructor <;> exact fun _ => rfl
      · refine h.put ({ · with uptodate := uptodate, lock := false }) rfl ?_
        constructor <;> exact fun _ => rfl

/-! ## Runs -/

/-- The calls tasks make: blocks of real devices, and buffers they were given. -/
def Frame.IsCall (used : ℕ) : Frame → Prop
  | .getblk dev _ _ | .bread dev _ _ => dev ≠ 0
  | .brelse n => n = nil ∨ n < used
  | .syncBuffers _ _ => True
  | .invalidate _ slot => slot = 0
  | _ => False

theorem Frame.IsCall.ok {used : ℕ} {frame : Frame} (h : frame.IsCall used) : frame.Ok used := by
  cases frame <;> first | exact h | exact trivial | exact h.elim

/-- What the cache promises at every moment. -/
structure Sound (c : Cache) : Prop where
  /-- one block, one buffer -/
  unique : ∀ m n, Bound c m → Bound c n → (c.heads m).dev = (c.heads n).dev →
    (c.heads m).blocknr = (c.heads n).blocknr → m = n
  /-- every bound buffer is on the chain of its key and on no other -/
  chains : HashChains c (Bound c)
  /-- lookup finds it there -/
  found : ∀ n, Bound c n →
    c.findBuffer (c.heads n).dev (c.heads n).blocknr blockSize = .ok (some n)
  /-- the free ring is a doubly linked cycle of all built buffers -/
  ring : FreeRing c (· < c.used)

theorem Structured.sound {c : Cache} (h : Structured c) : Sound c :=
  ⟨h.unique, h.chains, fun _ hn => h.findBuffer_of_bound hn, h.ring⟩

/-- Whatever the tasks call and the devices do, in whatever order, the kernel does not panic
and the cache is sound at every moment. -/
theorem buffer_run_sound {contents : ℕ → Block} {pages : ℕ} {io : BlockIo}
    (hinit : Cache.init contents pages = .ok io.cache)
    {events : List (Coop.Event Frame Task Outside)}
    (hcalls : ∀ task frame, .call task frame ∈ events → frame.IsCall io.cache.used) :
    ∃ final, run System.step events (Coop.idle io .unit) = .ok final ∧
      Sound final.shared.cache := by
  have hstart : Coop.Holds (SharedOk io.cache.used) (Frame.Ok io.cache.used)
      (Value.Ok io.cache.used) (Coop.idle io .unit : System) :=
    Coop.Holds.idle ⟨init_structured hinit, rfl⟩ trivial
  have hguard : Guarded System.step (fun _ event =>
      ∀ task frame, event = .call task frame → frame.IsCall io.cache.used) events
      (Coop.idle io .unit) := by
    refine guarded_of_forall (fun event hmem _ task frame heq => ?_) _
    exact hcalls task frame (heq ▸ hmem)
  refine (run_invariant (fun s event hs hevent => ?_) hstart hguard).imp fun final hfinal =>
    ⟨hfinal.1, hfinal.2.shared.1.sound⟩
  have hserved := hs.step (code_ok)
    (outside_ok) (fun _ hf => hf.ok) event hevent
  unfold System.step
  split
  · split_ifs
    · exact hserved
    · exact ⟨s, rfl, hs⟩
  · exact hserved

/-- A block filled with one byte. -/
def filled (byte : UInt8) : Block := Vector.replicate 1024 byte

/-- The cache `init` builds from one page. -/
def onePage : Cache :=
  match Cache.init (fun _ => filled 0) 1 with
  | .ok c => c
  | .error _ => Cache.empty fun _ => filled 0

/-- That cache over a RAM disk, major 1, whose blocks are all ones. -/
def onePageIo : BlockIo :=
  { cache := onePage, requests := fun _ => .new, queue := fun _ => [], requestFn := fun m => m = 1
    blkSize := fun _ => none, roBits := fun _ _ => false, disk := fun _ _ => filled 1 }

/-- Two tasks read block 7 of the RAM disk; the second one waits for the first one's request. -/
theorem buffer_run_sound_two_readers :
    ∃ final, run System.step
        [.call 0 (.bread 0x101 7 1024), .go 0, .go 0, .go 0, .go 0, .go 0, .go 0, .go 0, .go 0, .go 0,
          .go 0, .go 0, .go 0, .go 0, .go 0, .go 0, .call 1 (.bread 0x101 7 1024), .go 1, .go 1,
          .go 1, .go 1, .env (.transfer 1), .env (.endRequest 1 true), .go 0, .go 1]
        (Coop.idle onePageIo .unit) = .ok final ∧ Sound final.shared.cache := by
  have hinit : init (fun _ => filled 0) 1 = .ok onePageIo.cache := rfl
  refine buffer_run_sound hinit fun task frame hmem => ?_
  simp only [mem_cons, reduceCtorEq, not_mem_nil, or_false,
    false_or] at hmem
  rcases hmem with ⟨-, rfl⟩ | ⟨-, rfl⟩
  · exact (by decide : (0x101 : UInt16) ≠ 0)
  · exact (by decide : (0x101 : UInt16) ≠ 0)

end Shitix.Buffer
