import Shitix.Fs.Buffer
import Shitix.Lib.DoublyLinked

/-!
# Hash chains and free ring under the list routines

`HashChains c on` says that the chains hold exactly the heads in `on`, each on the
chain of its key; `FreeRing c on` that the ring is a doubly linked cycle of exactly
the heads in `on` and that `FREE_LIST` points into it.  The membership is a
parameter because `getblk` takes a head out of both and puts it back under another
key.

For each routine of the source one lemma says which links it leaves (`Unhashed`,
`Unringed`, `Ringed`, `Hashed`), and one says what that does to the chains or
the ring.
-/

namespace Shitix.Buffer

open Cache List Cycle

namespace Cache

variable {c c' : Cache} {n : ℕ}

@[simp] theorem put_heads (c : Cache) (n : ℕ) (f : BufferHead → BufferHead) (m : ℕ) :
    (c.put n f).heads m = if m = n then f (c.heads n) else c.heads m := by
  simp [put, Function.update_apply]

@[simp] theorem put_rest (c : Cache) (n : ℕ) (f : BufferHead → BufferHead) :
    (c.put n f).hashTable = c.hashTable ∧ (c.put n f).freeList = c.freeList ∧
      (c.put n f).used = c.used := ⟨rfl, rfl, rfl⟩

@[simp] theorem advanceHash_rest (c : Cache) (bucket n next : ℕ) :
    (c.advanceHash bucket n next).heads = c.heads ∧
      (c.advanceHash bucket n next).freeList = c.freeList ∧
      (c.advanceHash bucket n next).used = c.used := by
  unfold advanceHash
  split_ifs <;> exact ⟨rfl, rfl, rfl⟩

theorem advanceHash_hashTable (c : Cache) (bucket n next other : ℕ) :
    (c.advanceHash bucket n next).hashTable other =
      if other = bucket ∧ c.hashTable other = n then next else c.hashTable other := by
  unfold advanceHash setHash
  by_cases hother : other = bucket
  · subst hother
    split_ifs <;> simp_all
  · split_ifs <;> simp_all

@[simp] theorem advanceFree_rest (c : Cache) (n next : ℕ) :
    (c.advanceFree n next).heads = c.heads ∧ (c.advanceFree n next).hashTable = c.hashTable ∧
      (c.advanceFree n next).used = c.used := by
  unfold advanceFree
  split_ifs <;> exact ⟨rfl, rfl, rfl⟩

@[simp] theorem advanceFree_freeList (c : Cache) (n next : ℕ) :
    (c.advanceFree n next).freeList = if c.freeList = n then next else c.freeList := by
  unfold advanceFree
  split_ifs <;> rfl

theorem bh_ok (hn : n < nrBuffers) : c.bh n = .ok (c.heads n) := if_pos hn

theorem modify_ok (hn : n < nrBuffers) (f : BufferHead → BufferHead) :
    c.modify n f = .ok (c.put n f) := if_pos hn

/-- A write through a link that may be `NIL`. -/
def putLinked (c : Cache) (n : ℕ) (f : BufferHead → BufferHead) : Cache :=
  if n = nil then c else c.put n f

theorem modifyLinked_ok (hn : n = nil ∨ n < nrBuffers) (f : BufferHead → BufferHead) :
    c.modifyLinked n f = .ok (c.putLinked n f) := by
  unfold modifyLinked putLinked
  split_ifs with hnil
  · rfl
  · exact modify_ok (hn.resolve_left hnil) f

@[simp] theorem putLinked_heads (c : Cache) (n : ℕ) (f : BufferHead → BufferHead) (m : ℕ) :
    (c.putLinked n f).heads m = if n ≠ nil ∧ m = n then f (c.heads n) else c.heads m := by
  unfold putLinked
  split_ifs <;> simp_all

@[simp] theorem putLinked_rest (c : Cache) (n : ℕ) (f : BufferHead → BufferHead) :
    (c.putLinked n f).hashTable = c.hashTable ∧ (c.putLinked n f).freeList = c.freeList ∧
      (c.putLinked n f).used = c.used := by
  unfold putLinked
  split_ifs <;> exact ⟨rfl, rfl, rfl⟩

end Cache

theorem lt_nil {n : ℕ} (hn : n < nrBuffers) : n ≠ nil := by
  unfold nrBuffers at hn
  unfold nil
  omega

/-- The bucket of a head's key. -/
def BufferHead.bucket (head : BufferHead) : ℕ := hashfn head.dev head.blocknr

/-- The chains hold exactly the heads in `on`, each on the chain of its key. -/
def HashChains (c : Cache) (on : ℕ → Prop) : Prop :=
  ∀ bucket, ∃ nodes : List ℕ,
    Chained (fun m => (c.heads m).next) (fun m => (c.heads m).prev) nil nil
      (c.hashTable bucket) nodes ∧
    ∀ m, m ∈ nodes ↔ on m ∧ (c.heads m).bucket = bucket

/-- The ring is a doubly linked cycle of exactly the heads in `on`. -/
def FreeRing (c : Cache) (on : ℕ → Prop) : Prop :=
  ∃ ring : Cycle ℕ,
    Ring (fun m => (c.heads m).nextFree) (fun m => (c.heads m).prevFree) ring ∧
    (∀ m, m ∈ ring ↔ on m) ∧ c.freeList ∈ ring

/-! ## What the routines write -/

/-- `remove_from_hash_queue` writes the hash links of a head and its neighbours. -/
structure Unhashed (c : Cache) (n : ℕ) (c' : Cache) : Prop where
  heads : ∀ m, c'.heads m =
    { c.heads m with
      prev := if m = n then nil
        else if (c.heads n).next ≠ nil ∧ m = (c.heads n).next then (c.heads n).prev
        else (c.heads m).prev
      next := if m = n then nil
        else if (c.heads n).prev ≠ nil ∧ m = (c.heads n).prev then (c.heads n).next
        else (c.heads m).next }
  hashTable : ∀ bucket, c'.hashTable bucket =
    if bucket = (c.heads n).bucket ∧ c.hashTable bucket = n then (c.heads n).next
    else c.hashTable bucket
  freeList : c'.freeList = c.freeList
  used : c'.used = c.used

theorem removeFromHashQueue_eq {c : Cache} {n : ℕ} (hn : n < nrBuffers)
    (hnext : (c.heads n).next = nil ∨ (c.heads n).next < nrBuffers)
    (hprev : (c.heads n).prev = nil ∨ (c.heads n).prev < nrBuffers) :
    ∃ c', c.removeFromHashQueue n = .ok c' ∧ Unhashed c n c' := by
  simp only [removeFromHashQueue, bh_ok hn, bind, Except.bind,
    modifyLinked_ok hnext, modifyLinked_ok hprev, modify_ok hn]
  refine ⟨_, rfl, fun m => ?_, fun bucket => ?_, by simp, by simp⟩
  · simp only [put_heads, advanceHash_rest, putLinked_heads]
    split_ifs <;> grind
  · simp only [put_rest, advanceHash_hashTable, putLinked_rest]
    rfl

/-- `remove_from_free_list` writes the ring links of a head and its neighbours. -/
structure Unringed (c : Cache) (n : ℕ) (c' : Cache) : Prop where
  heads : ∀ m, c'.heads m =
    { c.heads m with
      prevFree := if m = n then nil
        else if m = (c.heads n).nextFree then (c.heads n).prevFree
        else (c.heads m).prevFree
      nextFree := if m = n then nil
        else if m = (c.heads n).prevFree then (c.heads n).nextFree
        else (c.heads m).nextFree }
  hashTable : c'.hashTable = c.hashTable
  freeList : c'.freeList = if c.freeList = n then (c.heads n).nextFree else c.freeList
  used : c'.used = c.used

theorem removeFromFreeList_eq {c : Cache} {n : ℕ} (hn : n < nrBuffers)
    (hnext : (c.heads n).nextFree < nrBuffers) (hprev : (c.heads n).prevFree < nrBuffers) :
    ∃ c', c.removeFromFreeList n = .ok c' ∧ Unringed c n c' := by
  have hlinked : ¬ ((c.heads n).prevFree = nil ∨ (c.heads n).nextFree = nil) := by
    rintro (hnil | hnil)
    · exact lt_nil hprev hnil
    · exact lt_nil hnext hnil
  simp only [removeFromFreeList, bh_ok hn, bind, Except.bind, if_neg hlinked,
    modify_ok hnext, modify_ok hprev, modify_ok hn]
  refine ⟨_, rfl, fun m => ?_, by simp, ?_, by simp⟩
  · simp only [put_heads, advanceFree_rest]
    split_ifs <;> grind
  · rw [(put_rest ..).2.1, advanceFree_freeList]
    rfl

/-- `insert_at_free_tail` puts a head between the last and the first of the ring. -/
structure Ringed (c : Cache) (n : ℕ) (c' : Cache) : Prop where
  heads : ∀ m, c'.heads m =
    { c.heads m with
      prevFree := if m = c.freeList then n
        else if m = n then (c.heads c.freeList).prevFree
        else (c.heads m).prevFree
      nextFree := if m = (c.heads c.freeList).prevFree then n
        else if m = n then c.freeList
        else (c.heads m).nextFree }
  hashTable : c'.hashTable = c.hashTable
  freeList : c'.freeList = c.freeList
  used : c'.used = c.used

theorem insertAtFreeTail_eq {c : Cache} {n : ℕ} (hn : n < nrBuffers)
    (hhead : c.freeList < nrBuffers) (htail : (c.heads c.freeList).prevFree < nrBuffers) :
    ∃ c', c.insertAtFreeTail n = .ok c' ∧ Ringed c n c' := by
  simp only [insertAtFreeTail, bh_ok hhead, bind, Except.bind, modify_ok hn,
    modify_ok htail, modify_ok hhead]
  refine ⟨_, rfl, fun m => ?_, by simp, by simp, by simp⟩
  simp only [put_heads]
  split_ifs <;> grind

/-- The second half of `insert_into_queues` puts a head first on the chain of its key. -/
structure Hashed (c : Cache) (n : ℕ) (c' : Cache) : Prop where
  heads : ∀ m, c'.heads m =
    { c.heads m with
      prev := if c.hashTable (c.heads n).bucket ≠ nil ∧ m = c.hashTable (c.heads n).bucket then n
        else if m = n then nil
        else (c.heads m).prev
      next := if m = n then c.hashTable (c.heads n).bucket else (c.heads m).next }
  hashTable : c'.hashTable = Function.update c.hashTable (c.heads n).bucket n
  freeList : c'.freeList = c.freeList
  used : c'.used = c.used

theorem insertIntoQueues_eq {c : Cache} {n : ℕ} (hn : n < nrBuffers)
    (hhead : c.freeList < nrBuffers) (htail : (c.heads c.freeList).prevFree < nrBuffers)
    (hdev : (c.heads n).dev ≠ 0)
    (hold : c.hashTable (c.heads n).bucket = nil ∨ c.hashTable (c.heads n).bucket < nrBuffers) :
    ∃ ringed c', c.insertIntoQueues n = .ok c' ∧ Ringed c n ringed ∧ Hashed ringed n c' := by
  obtain ⟨ringed, hringed, hspec⟩ := insertAtFreeTail_eq hn hhead htail
  have hkey : (ringed.heads n).dev = (c.heads n).dev ∧
      (ringed.heads n).bucket = (c.heads n).bucket := by
    rw [hspec.heads n]
    exact ⟨rfl, rfl⟩
  have holdRinged :
      ringed.hashTable (hashfn (ringed.heads n).dev (ringed.heads n).blocknr) = nil ∨
      ringed.hashTable (hashfn (ringed.heads n).dev (ringed.heads n).blocknr) < nrBuffers := by
    change ringed.hashTable (ringed.heads n).bucket = nil ∨
      ringed.hashTable (ringed.heads n).bucket < nrBuffers
    rwa [hkey.2, hspec.hashTable]
  have hdevRinged : (ringed.heads n).dev ≠ 0 := by rwa [hkey.1]
  refine ⟨ringed, ?_⟩
  simp only [insertIntoQueues, hringed, bind, Except.bind, modify_ok hn,
    bh_ok hn, put_heads, if_true, if_neg hdevRinged,
    put_rest, modifyLinked_ok holdRinged]
  refine ⟨_, rfl, hspec, fun m => ?_, ?_, ?_, ?_⟩
  · simp only [putLinked_heads, setHash, put_heads, BufferHead.bucket]
    split_ifs <;> grind
  all_goals simp [setHash, BufferHead.bucket]

/-! ## What that does to the chains -/

namespace HashChains

variable {c c' : Cache} {on : ℕ → Prop} {n : ℕ}

section

variable (h : HashChains c on)

include h

/-- Chains are kept by any change that leaves hash links and keys of their heads alone. -/
theorem congr (htable : c'.hashTable = c.hashTable)
    (hnext : ∀ m, on m → (c'.heads m).next = (c.heads m).next)
    (hprev : ∀ m, on m → (c'.heads m).prev = (c.heads m).prev)
    (hbucket : ∀ m, on m → (c'.heads m).bucket = (c.heads m).bucket) : HashChains c' on := by
  intro bucket
  obtain ⟨nodes, hchain, hnodes⟩ := h bucket
  refine ⟨nodes, ?_, fun m => ?_⟩
  · rw [htable]
    exact hchain.congr (fun m hm => hnext m ((hnodes m).mp hm).1)
      fun m hm => hprev m ((hnodes m).mp hm).1
  · rw [hnodes]
    exact and_congr_right fun hm => by rw [hbucket m hm]

/-- The links of a head on a chain lead to heads on the same chain, or nowhere. -/
theorem links (hn : on n) :
    ((c.heads n).next = nil ∨
      on (c.heads n).next ∧ (c.heads (c.heads n).next).bucket = (c.heads n).bucket) ∧
    ((c.heads n).prev = nil ∨
      on (c.heads n).prev ∧ (c.heads (c.heads n).prev).bucket = (c.heads n).bucket) := by
  obtain ⟨nodes, hchain, hnodes⟩ := h (c.heads n).bucket
  have hmem : n ∈ nodes := (hnodes n).mpr ⟨hn, rfl⟩
  constructor
  · exact (hchain.next_mem hmem).imp_right (hnodes _).mp
  · rcases hchain.prev_mem hmem with ⟨hfirst, -⟩ | hprev
    · exact .inl hfirst
    · exact .inr ((hnodes _).mp hprev)

/-- A bucket starts with a head on a chain, or is empty. -/
theorem head (bucket : ℕ) :
    c.hashTable bucket = nil ∨
      on (c.hashTable bucket) ∧ (c.heads (c.hashTable bucket)).bucket = bucket := by
  obtain ⟨nodes, hchain, hnodes⟩ := h bucket
  by_cases hnil : c.hashTable bucket = nil
  · exact .inl hnil
  · exact .inr ((hnodes _).mp (hchain.head_mem hnil))

/-- A head off the chains has nothing to take out. -/
theorem unhash_off (hn : ¬ on n) (hnil : n ≠ nil)
    (hnext : (c.heads n).next = nil) (hprev : (c.heads n).prev = nil) (hspec : Unhashed c n c') :
    HashChains c' on := by
  have hne : ∀ m, on m → m ≠ n := fun m hm heq => hn (heq ▸ hm)
  have htable : c'.hashTable = c.hashTable := by
    funext bucket
    rw [hspec.hashTable, if_neg]
    rintro ⟨-, hfirst⟩
    rcases h.head bucket with hempty | ⟨hon, -⟩
    · exact hnil (hfirst.symm.trans hempty)
    · exact hn (hfirst ▸ hon)
  refine h.congr htable (fun m hm => ?_) (fun m hm => ?_) fun m _ => ?_
  · rw [hspec.heads m]
    simp [hne m hm, hprev]
  · rw [hspec.heads m]
    simp [hne m hm, hnext]
  · rw [hspec.heads m]
    rfl

/-- Taking a head out of its chain. -/
theorem unhash_on (hn : on n) (hspec : Unhashed c n c') : HashChains c' fun m => on m ∧ m ≠ n := by
  have hbucket : ∀ m, (c'.heads m).bucket = (c.heads m).bucket := by
    intro m
    rw [hspec.heads m]
    rfl
  have hnext : ∀ m, m ≠ n → m ≠ (c.heads n).prev → (c'.heads m).next = (c.heads m).next := by
    intro m hm hprev
    rw [hspec.heads m]
    simp [hm, hprev]
  have hprev : ∀ m, m ≠ n → m ≠ (c.heads n).next → (c'.heads m).prev = (c.heads m).prev := by
    intro m hm hnext
    rw [hspec.heads m]
    simp [hm, hnext]
  intro bucket
  obtain ⟨nodes, hchain, hnodes⟩ := h bucket
  by_cases hhere : (c.heads n).bucket = bucket
  · have hmem : n ∈ nodes := (hnodes n).mpr ⟨hn, hhere⟩
    have hnilOut : nil ∉ nodes := fun hnil => hchain.ne_nil hnil rfl
    have hjoinNext : (c.heads n).prev ∈ nodes →
        (c'.heads (c.heads n).prev).next = (c.heads n).next := by
      intro hin
      rw [hspec.heads]
      simp [hchain.prev_ne hnilOut hmem, hchain.ne_nil hin]
    have hjoinPrev : (c.heads n).next ≠ nil →
        (c'.heads (c.heads n).next).prev = (c.heads n).prev := by
      intro hne
      rw [hspec.heads]
      simp [hchain.next_ne hmem, hne]
    have hremoved : Chained (fun m => (c'.heads m).next) (fun m => (c'.heads m).prev) nil nil
        (if c.hashTable bucket = n then (c.heads n).next else c.hashTable bucket)
        (nodes.erase n) :=
      hchain.remove hmem hnilOut hjoinNext hjoinPrev (fun m _ hm hne => hnext m hm hne)
        fun m _ hm hne => hprev m hm hne
    refine ⟨nodes.erase n, ?_, fun m => ?_⟩
    · rw [hspec.hashTable]
      simpa only [hhere, true_and] using hremoved
    · rw [hchain.threaded.nodup.mem_erase_iff, hnodes, hbucket]
      tauto
  · -- the writes stay on the chain of the head
    have hother : ∀ m ∈ nodes, m ≠ n ∧ m ≠ (c.heads n).prev ∧ m ≠ (c.heads n).next := by
      intro m hm
      have hmBucket := ((hnodes m).mp hm).2
      obtain ⟨hnextLink, hprevLink⟩ := h.links hn
      refine ⟨?_, ?_, ?_⟩
      · rintro rfl
        exact hhere hmBucket
      · rintro rfl
        rcases hprevLink with hnil | ⟨-, hsame⟩
        · exact hchain.ne_nil hm hnil
        · exact hhere (hsame.symm.trans hmBucket)
      · rintro rfl
        rcases hnextLink with hnil | ⟨-, hsame⟩
        · exact hchain.ne_nil hm hnil
        · exact hhere (hsame.symm.trans hmBucket)
    refine ⟨nodes, ?_, fun m => ?_⟩
    · rw [hspec.hashTable, if_neg fun hb => hhere hb.1.symm]
      exact hchain.congr (fun m hm => hnext m (hother m hm).1 (hother m hm).2.1)
        fun m hm => hprev m (hother m hm).1 (hother m hm).2.2
    · rw [hnodes, hbucket]
      constructor
      · exact fun hm => ⟨⟨hm.1, ((hother m ((hnodes m).mpr hm)).1)⟩, hm.2⟩
      · exact fun hm => ⟨hm.1.1, hm.2⟩

/-- Putting a head first on the chain of its key. -/
theorem hashed (hn : ¬ on n) (hnil : n ≠ nil) (hspec : Hashed c n c') :
    HashChains c' fun m => on m ∨ m = n := by
  have hbucket : ∀ m, (c'.heads m).bucket = (c.heads m).bucket := by
    intro m
    rw [hspec.heads m]
    rfl
  have hne : ∀ m, on m → m ≠ n := fun m hm heq => hn (heq ▸ hm)
  have hnext : ∀ m, on m → (c'.heads m).next = (c.heads m).next := by
    intro m hm
    rw [hspec.heads m]
    simp [hne m hm]
  have hprev : ∀ m, on m → m ≠ c.hashTable (c.heads n).bucket →
      (c'.heads m).prev = (c.heads m).prev := by
    intro m hm hfirst
    rw [hspec.heads m]
    simp [hne m hm, hfirst]
  intro bucket
  obtain ⟨nodes, hchain, hnodes⟩ := h bucket
  by_cases hhere : (c.heads n).bucket = bucket
  · subst hhere
    have hout : n ∉ nodes := fun hmem => hn ((hnodes n).mp hmem).1
    have hnotFirst : n ≠ c.hashTable (c.heads n).bucket := by
      intro hfirst
      rcases h.head (c.heads n).bucket with hempty | ⟨hon, -⟩
      · exact hnil (hfirst.trans hempty)
      · exact hn (hfirst ▸ hon)
    have hpushed : Chained (fun m => (c'.heads m).next) (fun m => (c'.heads m).prev) nil nil n
        (n :: nodes) := by
      refine hchain.push hout hnil ?_ ?_ (fun hfirst => ?_)
        (fun m hm => hnext m ((hnodes m).mp hm).1)
        fun m hm hfirst => hprev m ((hnodes m).mp hm).1 hfirst
      · rw [hspec.heads n]
        simp
      · rw [hspec.heads n]
        simp [hnotFirst]
      · rw [hspec.heads]
        simp [hfirst]
    refine ⟨n :: nodes, ?_, fun m => ?_⟩
    · rwa [hspec.hashTable, Function.update_self]
    · rw [mem_cons, hnodes, hbucket]
      constructor
      · rintro (rfl | ⟨hm, hsame⟩)
        · exact ⟨.inr rfl, rfl⟩
        · exact ⟨.inl hm, hsame⟩
      · rintro ⟨hm | rfl, hsame⟩
        · exact .inr ⟨hm, hsame⟩
        · exact .inl rfl
  · have hfirst : ∀ m ∈ nodes, m ≠ c.hashTable (c.heads n).bucket := by
      rintro m hm rfl
      rcases h.head (c.heads n).bucket with hempty | ⟨-, hsame⟩
      · exact hchain.ne_nil hm hempty
      · exact hhere (hsame.symm.trans ((hnodes _).mp hm).2)
    refine ⟨nodes, ?_, fun m => ?_⟩
    · rw [hspec.hashTable, Function.update_of_ne (symm hhere)]
      exact hchain.congr (fun m hm => hnext m ((hnodes m).mp hm).1)
        fun m hm => hprev m ((hnodes m).mp hm).1 (hfirst m hm)
    · rw [hnodes, hbucket]
      constructor
      · exact fun hm => ⟨.inl hm.1, hm.2⟩
      · rintro ⟨hm | rfl, hsame⟩
        · exact ⟨hm, hsame⟩
        · exact absurd hsame hhere

end

end HashChains

/-! ## What that does to the ring -/

namespace FreeRing

variable {c c' : Cache} {on : ℕ → Prop} {n : ℕ}

section

variable (h : FreeRing c on)

include h

/-- The ring is kept by any change that leaves its links alone. -/
theorem congr (hfree : c'.freeList = c.freeList)
    (hnext : ∀ m, on m → (c'.heads m).nextFree = (c.heads m).nextFree)
    (hprev : ∀ m, on m → (c'.heads m).prevFree = (c.heads m).prevFree) : FreeRing c' on := by
  obtain ⟨ring, hring, hmem, hhead⟩ := h
  refine ⟨ring, hring.congr (fun m hm => hnext m ((hmem m).mp hm))
    (fun m hm => hprev m ((hmem m).mp hm)), hmem, ?_⟩
  rwa [hfree]

/-- `FREE_LIST` points at a head of the ring. -/
theorem head : on c.freeList := by
  obtain ⟨ring, -, hmem, hhead⟩ := h
  exact (hmem _).mp hhead

/-- The ring links of a head on the ring lead to heads on the ring. -/
theorem links (hn : on n) : on (c.heads n).nextFree ∧ on (c.heads n).prevFree := by
  obtain ⟨ring, hring, hmem, -⟩ := h
  obtain ⟨hnext, hprev⟩ := hring.neighbours_mem ((hmem n).mpr hn)
  exact ⟨(hmem _).mp hnext, (hmem _).mp hprev⟩

/-- Taking a head out of a ring that has another one. -/
theorem unring (hn : on n) (hother : ∃ m, on m ∧ m ≠ n)
    (hspec : Unringed c n c') : FreeRing c' fun m => on m ∧ m ≠ n := by
  obtain ⟨ring, hring, hmem, hhead⟩ := h
  obtain ⟨rest, rfl⟩ := Ring.exists_cons ((hmem n).mpr hn)
  have hcons : ∀ m, m ∈ n :: rest ↔ on m := fun m => mem_coe_iff.symm.trans (hmem m)
  have hout : n ∉ rest := (nodup_cons.mp (Ring.cons_iff.mp hring).2.2).1
  have hrest : rest ≠ [] := by
    rintro rfl
    obtain ⟨m, hm, hne⟩ := hother
    exact hne (by simpa using (hcons m).mpr hm)
  obtain ⟨hnextMem, hprevMem⟩ := hring.neighbours_ne hrest
  have hne : ∀ m ∈ rest, m ≠ n := fun m hm heq => hout (heq ▸ hm)
  have hrestIff : ∀ m, m ∈ (rest : Cycle ℕ) ↔ on m ∧ m ≠ n := by
    intro m
    rw [← hcons, mem_cons]
    constructor
    · exact fun hm => ⟨.inr hm, hne m hm⟩
    · exact fun hm => hm.1.resolve_left hm.2
  refine ⟨(rest : Cycle ℕ), ?_, hrestIff, ?_⟩
  · refine hring.remove hrest ?_ ?_ (fun m hm hprev => ?_) fun m hm hnext => ?_
    · rw [hspec.heads]
      simp [hne _ hprevMem]
    · rw [hspec.heads]
      simp [hne _ hnextMem]
    · rw [hspec.heads]
      simp [hne m hm, hprev]
    · rw [hspec.heads]
      simp [hne m hm, hnext]
  · rw [hspec.freeList]
    split_ifs with hfirst
    · exact mem_coe_iff.mpr hnextMem
    · exact (hrestIff _).mpr ⟨(hmem _).mp hhead, hfirst⟩

/-- Putting a head in at the end of the ring. -/
theorem ringed (hn : ¬ on n) (hspec : Ringed c n c') : FreeRing c' fun m => on m ∨ m = n := by
  obtain ⟨ring, hring, hmem, hhead⟩ := h
  obtain ⟨rest, rfl⟩ := Ring.exists_cons hhead
  have hcons : ∀ m, m ∈ c.freeList :: rest ↔ on m := fun m => mem_coe_iff.symm.trans (hmem m)
  have hout : n ∉ c.freeList :: rest := fun hin => hn ((hcons n).mp hin)
  have hne : ∀ m ∈ c.freeList :: rest, m ≠ n := fun m hm heq => hout (heq ▸ hm)
  have hfirst : c.freeList ∉ rest := (nodup_cons.mp (Ring.cons_iff.mp hring).2.2).1
  have htail : (c.heads c.freeList).prevFree ∈ c.freeList :: rest :=
    mem_coe_iff.mp (hring.neighbours_mem hhead).2
  have hmemNew : ∀ m, m ∈ ((n :: c.freeList :: rest : List ℕ) : Cycle ℕ) ↔ on m ∨ m = n := by
    intro m
    rw [mem_coe_iff, mem_cons, hcons, or_comm]
  refine ⟨((n :: c.freeList :: rest : List ℕ) : Cycle ℕ), ?_, hmemNew, ?_⟩
  · refine hring.insert hout ?_ ?_ ?_ ?_ (fun m hm hlast => ?_) fun m hm => ?_
    · rw [hspec.heads]
      simp [(hne _ htail).symm]
    · rw [hspec.heads]
      simp [(hne _ mem_cons_self).symm]
    · rw [hspec.heads]
      simp
    · rw [hspec.heads]
      simp
    · rw [hspec.heads]
      simp [hne m hm, hlast]
    · have hnotFirst : m ≠ c.freeList := fun heq => hfirst (heq ▸ hm)
      rw [hspec.heads]
      simp [hne m (mem_cons_of_mem _ hm), hnotFirst]
  · rw [hspec.freeList]
    exact (hmemNew _).mpr (.inl ((hmem _).mp hhead))

end

end FreeRing

end Shitix.Buffer
