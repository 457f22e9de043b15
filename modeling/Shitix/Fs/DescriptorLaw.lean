import Shitix.Fs.DescriptorTables
import Shitix.Lib.Run

/-!
# One descriptor, one object

`Law` says what a call owes: the tables stay exclusive, the descriptors it hands out were free
and are bound now, and `dup2` leaves nothing of what its target was and releases it.

The searches for a free descriptor look at too little: only `alloc_event_fd` looks at events,
`pipe` does not look at sockets, the search for a socket descriptor looks at the caller only,
and the tables of pipes and events end at 32 while their searches go to 64.  `dup2` closes files
and pipes.  `Fits` is when none of this matters, and `law_iff` shows that it is exact.
-/

namespace Shitix.Fd

open Function List Option Fds Bool Kind

variable {s s' s'' : Fds} {t t' : Task} {fd fd' : ℕ} {k k' : Kind} {entry : Option Obj}

/-! ## The law and its condition -/

/-- The call names the descriptor it binds. -/
def Call.replaces : Call → Bool
  | .dup2 _ _ => true
  | _ => false

/-- What a call must do.  The descriptors it hands out were bound in no table and are bound now;
after `dup2` the new descriptor is what the old one is, and nothing else, and what it was is
released as by a `close` before the call. -/
structure Law (s : Fds) (t : Task) (c : Call) : Prop where
  exclusive : Exclusive (s.call t c).2
  fresh : c.replaces = false → ∀ fds, (s.call t c).1 = .ok fds →
    ∀ fd ∈ fds, Unbound s t fd ∧ Bound (s.call t c).2 t fd
  replaced : ∀ oldfd newfd, c = .dup2 oldfd newfd → oldfd ≠ newfd →
    (s.call t c).1 = .ok [newfd] →
      (∀ k, (s.call t c).2.find t newfd k = s.find t oldfd k) ∧
        (s.call t c).2 = ((s.call t (.close newfd)).2.call t c).2

/-- Bound in no table but perhaps that of the events. -/
def Unused (s : Fds) (t : Task) (fd : ℕ) : Prop := ∀ k, k ≠ .event → s.find t fd k = none

/-- Neither a file nor a pipe. -/
def UnusedByPipe (s : Fds) (t : Task) (fd : ℕ) : Prop :=
  ∀ k, k = .file ∨ k = .pipe → s.find t fd k = none

/-- A socket slot is free, and the family and the type are known. -/
def SocketRoom (s : Fds) (family sockType : ℕ) : Prop :=
  (family = 1 ∨ family = 2) ∧ (sockType = 1 ∨ sockType = 2) ∧ ∃ i < maxSockets, s.used i = false

/-- The first descriptor a new socket can get is one of no task. -/
def SocketFits (s : Fds) (t : Task) : Prop :=
  ∀ fd, IsFirst (Unused s t) 3 maxSockFd fd → ∀ t', Unbound s t' fd

/-- The first descriptor from `start` on that a copy of `fd` can get is no event, and one of a
pipe is inside the table. -/
def DupFits (s : Fds) (t : Task) (fd start : ℕ) : Prop :=
  (s.find t fd .pipe).isSome ∨ (s.find t fd .file).isSome →
    ∀ new, IsFirst (Unused s t) start nrOpen new →
      Unbound s t new ∧ ((s.find t fd .pipe).isSome → new < maxPipeFd)

/-- When a call keeps the law. -/
def Fits (s : Fds) (t : Task) : Call → Prop
  | .open outcome => outcome = .ok () → (∃ f < nrFile, s.fCount f = 0) →
    ∀ fd, IsFirst (Unused s t) 0 nrOpen fd → Unbound s t fd
  | .pipe null page => null = false → page = true → (∃ i < maxPipes, s.pipes i = none) →
    ∀ r w, IsFirst (UnusedByPipe s t) 3 nrOpen r → IsFirst (UnusedByPipe s t) (r + 1) nrOpen w →
      w < maxPipeFd ∧ Unbound s t r ∧ Unbound s t w
  | .socket family sockType => SocketRoom s family sockType → SocketFits s t
  | .socketpair family sockType null => null = false → SocketRoom s family sockType →
    (∃ i j, i < j ∧ j < maxSockets ∧ s.used i = false ∧ s.used j = false) →
    ∀ a b, IsFirst (Unused s t) 3 maxSockFd a → IsFirst (Unused s t) (a + 1) maxSockFd b →
      ∀ t', Unbound s t' a ∧ Unbound s t' b
  | .accept fd => (s.find t fd .socket).isSome → (∃ i < maxSockets, s.used i = false) →
    SocketFits s t
  | .createEvent => (∃ i < maxObjs, s.slotUsed i = false) →
    ∀ fd, IsFirst (Unbound s t) 3 64 fd → fd < maxEvFd
  | .dup fd => DupFits s t fd 0
  | .dup2 oldfd newfd => newfd < nrOpen → oldfd ≠ newfd →
    (s.find t oldfd .pipe).isSome ∨ (s.find t oldfd .file).isSome →
      s.find t newfd .socket = none ∧ s.find t newfd .event = none ∧
        ((s.find t oldfd .pipe).isSome → newfd < maxPipeFd)
  | .dupfd fd start => DupFits s t fd start
  | .close _ => True

/-! ## Calls that hand out descriptors -/

variable {c : Call} {fds : List ℕ} {e : ℤ} {o : Obj}

/-- The tasks whose entries in a table are those of `t`. -/
def Shares (k : Kind) (t t' : Task) : Prop := k = .socket ∨ t' = t

/-- The descriptors are bound in a table, as far as it goes, and nothing else has changed. -/
structure Adds (s s' : Fds) (t : Task) (k : Kind) (fds : List ℕ) : Prop where
  added : ∀ t' fd, Shares k t t' → fd ∈ fds → fd < k.width → (s'.find t' fd k).isSome
  others : ∀ t' fd k', ¬ (k' = k ∧ fd ∈ fds ∧ fd < k.width ∧ Shares k t t') →
    s'.find t' fd k' = s.find t' fd k'

theorem Rebinds.adds (h : Rebinds s s' t fd k (some o)) : Adds s s' t k [fd] := by
  refine ⟨fun t' fd' hshare hmem hfd => ?_, fun t' fd' k' hnot => ?_⟩
  · obtain rfl := mem_singleton.mp hmem
    rw [h, if_pos ⟨rfl, rfl, hfd, hshare⟩]
    rfl
  · rw [h, if_neg]
    rintro ⟨hk, rfl, hfd, hshare⟩
    exact hnot ⟨hk, mem_singleton_self fd', hfd, hshare⟩

theorem Rebinds.adds_two {a b : ℕ} {o' : Obj} (h : Rebinds s s' t a k (some o))
    (h' : Rebinds s' s'' t b k (some o')) : Adds s s'' t k [a, b] := by
  refine ⟨fun t' fd hshare hmem hfd => ?_, fun t' fd k' hnot => ?_⟩
  · rw [h']
    split_ifs with hb
    · rfl
    · have ha : fd = a := by
        rcases mem_pair.mp hmem with ha | rfl
        · exact ha
        · exact absurd ⟨rfl, rfl, hfd, hshare⟩ hb
      subst ha
      rw [h, if_pos ⟨rfl, rfl, hfd, hshare⟩]
      rfl
  · rw [h', if_neg, h, if_neg]
    · rintro ⟨hk, rfl, hfd, hshare⟩
      exact hnot ⟨hk, mem_pair.mpr (.inl rfl), hfd, hshare⟩
    · rintro ⟨hk, rfl, hfd, hshare⟩
      exact hnot ⟨hk, mem_pair.mpr (.inr rfl), hfd, hshare⟩

/-- A call that hands out descriptors keeps the law if they are in the table and were bound
nowhere, for any of the tasks that share the entries. -/
theorem Adds.law_iff (hadds : Adds s s' t k fds) (h : Exclusive s)
    (hcall : s.call t c = (.ok fds, s')) (hreplaces : c.replaces = false) :
    Law s t c ↔ ∀ fd ∈ fds, fd < k.width ∧ ∀ t', Shares k t t' → Unbound s t' fd := by
  constructor
  · intro hlaw fd hmem
    obtain ⟨hunbound, k', hbound⟩ := hlaw.fresh hreplaces fds (by rw [hcall]) fd hmem
    rw [hcall] at hbound
    have hhere : k' = k ∧ fd ∈ fds ∧ fd < k.width ∧ Shares k t t := by
      by_contra hnot
      rw [hadds.others t fd k' hnot, hunbound k'] at hbound
      cases hbound
    obtain ⟨-, -, hfd, -⟩ := hhere
    refine ⟨hfd, fun t' hshare k₁ => ?_⟩
    by_cases hk : k₁ = k
    · subst hk
      rcases hshare with rfl | rfl
      · exact hunbound .socket
      · exact hunbound k₁
    · by_contra hsome
      have hexclusive := hlaw.exclusive
      rw [hcall] at hexclusive
      refine hk (hexclusive t' fd k₁ k ?_ (hadds.added t' fd hshare hmem hfd))
      rw [hadds.others t' fd k₁ fun hsame => hk hsame.1]
      exact isSome_iff_ne_none.mpr hsome
  · intro hfits
    -- an entry of one of the descriptors is the new one
    have hnew : ∀ t' fd k', fd ∈ fds → Shares k t t' → (s'.find t' fd k').isSome → k' = k := by
      intro t' fd k' hmem hshare hsome
      by_contra hk
      rw [hadds.others t' fd k' fun hsame => hk hsame.1, (hfits fd hmem).2 t' hshare k'] at hsome
      cases hsome
    refine ⟨?_, fun _ fds' hok fd hmem => ?_, fun oldfd newfd hdup => ?_⟩
    · rw [hcall]
      intro t' fd k₁ k₂ h₁ h₂
      by_cases hmem : fd ∈ fds ∧ Shares k t t'
      · rw [hnew t' fd k₁ hmem.1 hmem.2 h₁, hnew t' fd k₂ hmem.1 hmem.2 h₂]
      · have hold : ∀ k', (s'.find t' fd k').isSome → (s.find t' fd k').isSome := by
          intro k' hsome
          rwa [hadds.others t' fd k' fun hsame => hmem ⟨hsame.2.1, hsame.2.2.2⟩] at hsome
        exact h t' fd k₁ k₂ (hold k₁ h₁) (hold k₂ h₂)
    · rw [hcall] at hok
      cases hok
      obtain ⟨hfd, hunbound⟩ := hfits fd hmem
      refine ⟨hunbound t (.inr rfl), k, ?_⟩
      rw [hcall]
      exact hadds.added t fd (.inr rfl) hmem hfd
    · rw [hdup] at hreplaces
      cases hreplaces

section

variable {o : Obj} (hre : Rebinds s s' t fd k (some o)) (h : Exclusive s)
  (hcall : s.call t c = (.ok [fd], s')) (hreplaces : c.replaces = false)

include hre h hcall hreplaces

theorem Rebinds.law_iff : Law s t c ↔ fd < k.width ∧ ∀ t', Shares k t t' → Unbound s t' fd := by
  rw [hre.adds.law_iff h hcall hreplaces, forall_mem_singleton]

/-- The same for a table with a row for each task. -/
theorem Rebinds.law_iff_own (hk : k ≠ .socket) : Law s t c ↔ fd < k.width ∧ Unbound s t fd := by
  rw [hre.law_iff h hcall hreplaces]
  refine and_congr_right fun _ => ⟨fun hall => hall t (.inr rfl), fun hunbound t' hshare => ?_⟩
  obtain rfl := hshare.resolve_left hk
  exact hunbound

end

/-- A call that changes no table and hands out nothing keeps the law. -/
theorem law_of_refused (h : Exclusive s) (hcall : s.call t c = (.error e, s'))
    (hsame : SameTables s s') : Law s t c := by
  refine ⟨?_, fun _ fds hok => ?_, fun _ _ _ _ hok => ?_⟩
  · rw [hcall]
    exact h.of_same hsame
  · rw [hcall] at hok
    cases hok
  · rw [hcall] at hok
    cases hok

/-! ## What the searches find -/

theorem unused_iff (fd : ℕ) : s.unused t fd = true ↔ Unused s t fd := by
  simp only [unused, fdIsPipe, fdIsSocket, and_eq_true, isNone_iff_eq_none,
    not_eq_true', isSome_eq_false_iff]
  constructor
  · rintro ⟨⟨hfile, hpipe⟩, hsock⟩ k hk
    cases k with
    | file => exact map_eq_none_iff.mpr hfile
    | pipe => exact map_eq_none_iff.mpr hpipe
    | socket => exact map_eq_none_iff.mpr hsock
    | event => exact absurd rfl hk
  · intro hunused
    refine ⟨⟨?_, ?_⟩, ?_⟩
    · exact map_eq_none_iff.mp (hunused .file noConfusion)
    · exact map_eq_none_iff.mp (hunused .pipe noConfusion)
    · exact map_eq_none_iff.mp (hunused .socket noConfusion)

theorem unusedByPipe_iff (fd : ℕ) : s.unusedByPipe t fd = true ↔ UnusedByPipe s t fd := by
  simp only [unusedByPipe, fdIsPipe, and_eq_true, isNone_iff_eq_none,
    not_eq_true', isSome_eq_false_iff]
  constructor
  · rintro ⟨hpipe, hfile⟩ k (rfl | rfl)
    · exact map_eq_none_iff.mpr hfile
    · exact map_eq_none_iff.mpr hpipe
  · intro hunused
    exact ⟨map_eq_none_iff.mp (hunused .pipe (.inr rfl)),
      map_eq_none_iff.mp (hunused .file (.inl rfl))⟩

theorem unusedByEvent_iff (fd : ℕ) : s.unusedByEvent t fd = true ↔ Unbound s t fd := by
  rw [unusedByEvent, and_eq_true, unused_iff, not_eq_true', fdIsEvent,
    isSome_eq_false_iff, isNone_iff_eq_none]
  constructor
  · rintro ⟨hunused, hevent⟩ k
    by_cases hk : k = .event
    · subst hk
      exact map_eq_none_iff.mpr hevent
    · exact hunused k hk
  · exact fun hunbound =>
      ⟨fun k _ => hunbound k, map_eq_none_iff.mp (hunbound .event)⟩

theorem SameTables.unused (h : SameTables s s') (fd : ℕ) : Unused s' t fd ↔ Unused s t fd := by
  simp [Unused, h t fd]

theorem SameTables.unusedByPipe (h : SameTables s s') (fd : ℕ) :
    UnusedByPipe s' t fd ↔ UnusedByPipe s t fd := by
  simp [UnusedByPipe, h t fd]

theorem SameTables.refl (s : Fds) : SameTables s s := fun _ _ _ => rfl

theorem isSome_pipe_iff : s.fdIsPipe t fd = true ↔ (s.find t fd .pipe).isSome := by
  rw [find, isSome_map, fdIsPipe]

theorem isSome_socket_iff : s.fdIsSocket fd = true ↔ (s.find t fd .socket).isSome := by
  rw [find, isSome_map, fdIsSocket]

theorem find_file_eq : s.find t fd .file = none ↔ s.fdToFilp t fd = none := map_eq_none_iff

/-! ## The calls, one by one -/

theorem law_open_iff (h : Exclusive s) (outcome : Except ℤ Unit) :
    Law s t (.open outcome) ↔ Fits s t (.open outcome) := by
  cases hsearch : s.getUnusedFd t with
  | none =>
    have hcall : s.call t (.open outcome) = (.error emfile, s) := by
      simp [call, sysOpen, hsearch]
    refine iff_of_true (law_of_refused h hcall (.refl s)) fun _ _ fd hfirst => ?_
    exact absurd hfirst ((search_eq_none unused_iff).mp hsearch fd)
  | some fd =>
    have hfirst := (search_eq_some unused_iff).mp hsearch
    cases hfilp : s.getEmptyFilp with
    | none =>
      have hcall : s.call t (.open outcome) = (.error enfile, s) := by
        simp [call, sysOpen, hsearch, hfilp]
      refine iff_of_true (law_of_refused h hcall (.refl s)) ?_
      rintro - ⟨f, hf, hfree⟩
      exact absurd hfree (not_of_search_none (P := fun f => s.fCount f = 0)
        (fun _ => decide_eq_true_iff) hfilp (Nat.zero_le f) hf)
    | some f =>
      have hfree := (search_eq_some
        fun _ => decide_eq_true_iff).mp hfilp
      have hbind : Rebinds s ((s.setCount f 1).setFd t fd (some f)) t fd .file
          (some (.file f)) :=
        (rebinds_setFd (some f)).congr_left fun _ _ _ => find_setCount f 1
      cases outcome with
      | error e =>
        have hcall : s.call t (.open (.error e)) =
            (.error e, (((s.setCount f 1).setFd t fd (some f)).setFd t fd none).setCount f 0) := by
          simp [call, sysOpen, hsearch, hfilp]
        refine iff_of_true (law_of_refused h hcall fun t' fd' k => ?_) fun hok => ?_
        · -- the entry was free before
          rw [find_setCount, rebinds_setFd none]
          split_ifs with hsame
          · obtain ⟨rfl, rfl, -, ht⟩ := hsame
            obtain rfl := ht.resolve_left noConfusion
            exact (hfirst.holds .file noConfusion).symm
          · rw [hbind, if_neg hsame]
        · cases hok
      | ok _ =>
        have hcall : s.call t (.open (.ok ())) =
            (.ok [fd], (s.setCount f 1).setFd t fd (some f)) := by
          simp [call, sysOpen, hsearch, hfilp]
        rw [hbind.law_iff_own h hcall rfl noConfusion, ← hfirst.forall_iff (Q := Unbound s t)]
        constructor
        · exact fun hfits _ _ => hfits.2
        · exact fun hfits => ⟨hfirst.lt_high, hfits rfl ⟨f, hfree.lt_high, hfree.holds⟩⟩

theorem allocPipe_spec {page : Bool} {i : ℕ} (halloc : s.allocPipe page = some (i, s')) :
    SameTables s s' ∧ page = true ∧ ∃ i < maxPipes, s.pipes i = none := by
  unfold allocPipe at halloc
  cases hsearch : search (fun i => (s.pipes i).isNone) 0 maxPipes with
  | none =>
    rw [hsearch] at halloc
    cases halloc
  | some j =>
    have hfree := (search_eq_some fun _ => isNone_iff_eq_none).mp hsearch
    rw [hsearch] at halloc
    cases page with
    | false => cases halloc
    | true =>
      cases halloc
      exact ⟨fun _ _ _ => find_putPipe .., rfl, i, hfree.lt_high, hfree.holds⟩

theorem allocPipe_none (halloc : s.allocPipe true = none) : ¬ ∃ i < maxPipes, s.pipes i = none := by
  unfold allocPipe at halloc
  cases hsearch : search (fun i => (s.pipes i).isNone) 0 maxPipes with
  | none =>
    rintro ⟨i, hi, hfree⟩
    exact not_of_search_none (fun _ => isNone_iff_eq_none) hsearch (Nat.zero_le i) hi hfree
  | some j =>
    rw [hsearch] at halloc
    cases halloc

theorem law_pipe_iff (h : Exclusive s) (null page : Bool) :
    Law s t (.pipe null page) ↔ Fits s t (.pipe null page) := by
  cases null with
  | true =>
    have hcall : s.call t (.pipe true page) = (.error efault, s) := rfl
    exact iff_of_true (law_of_refused h hcall (.refl s)) fun hnull => (by cases hnull)
  | false =>
    cases halloc : s.allocPipe page with
    | none =>
      have hcall : s.call t (.pipe false page) = (.error enosys, s) := by
        simp only [call, sysPipe, halloc, false_eq_true, if_false]
      refine iff_of_true (law_of_refused h hcall (.refl s)) fun _ hpage hroom => ?_
      subst hpage
      exact absurd hroom (allocPipe_none halloc)
    | some result =>
      obtain ⟨i, s₁⟩ := result
      obtain ⟨hsame, hpage, hroom⟩ := allocPipe_spec halloc
      have hiff : ∀ low fd, IsFirst (UnusedByPipe s₁ t) low nrOpen fd ↔
          IsFirst (UnusedByPipe s t) low nrOpen fd := fun low fd =>
        ⟨fun hfirst => hfirst.congr hsame.unusedByPipe,
          fun hfirst => hfirst.congr fun m => (hsame.unusedByPipe m).symm⟩
      cases hr : search (s₁.unusedByPipe t) 3 nrOpen with
      | none =>
        have hcall : s.call t (.pipe false page) = (.error enfile, s₁) := by
          simp [call, sysPipe, halloc, hr]
        refine iff_of_true (law_of_refused h hcall hsame) fun _ _ _ r w hfirst => ?_
        exact absurd ((hiff 3 r).mpr hfirst) ((search_eq_none unusedByPipe_iff).mp hr r)
      | some r =>
        have hfirstR := (hiff 3 r).mp ((search_eq_some unusedByPipe_iff).mp hr)
        cases hw : search (s₁.unusedByPipe t) (r + 1) nrOpen with
        | none =>
          have hcall : s.call t (.pipe false page) = (.error enfile, s₁) := by
            simp [call, sysPipe, halloc, hr, hw]
          refine iff_of_true (law_of_refused h hcall hsame) fun _ _ _ r' w hfirst hnext => ?_
          rw [← hfirstR.unique hfirst] at hnext
          exact absurd ((hiff _ w).mpr hnext) ((search_eq_none unusedByPipe_iff).mp hw w)
        | some w =>
          have hfirstW := (hiff _ w).mp ((search_eq_some unusedByPipe_iff).mp hw)
          have hcall : s.call t (.pipe false page) = (.ok [r, w],
              (s₁.setPipe t r (some (i, .read))).setPipe t w (some (i, .write))) := by
            simp [call, sysPipe, halloc, hr, hw]
          have hread : Rebinds s (s₁.setPipe t r (some (i, .read))) t r .pipe
              (some (.pipe i .read)) := (rebinds_setPipe _).congr_left hsame
          rw [(hread.adds_two (rebinds_setPipe (some (i, Dir.write)))).law_iff h hcall rfl]
          constructor
          · intro hfits _ _ _ r' w' hr' hw'
            obtain rfl := hfirstR.unique hr'
            obtain rfl := hfirstW.unique hw'
            obtain ⟨-, hunboundR⟩ := hfits r (mem_pair.mpr (.inl rfl))
            obtain ⟨hltW, hunboundW⟩ := hfits w (mem_pair.mpr (.inr rfl))
            exact ⟨hltW, hunboundR t (.inr rfl), hunboundW t (.inr rfl)⟩
          · intro hfits fd hmem
            obtain ⟨hlt, hunboundR, hunboundW⟩ := hfits rfl hpage hroom r w hfirstR hfirstW
            have hle := hfirstW.low_le
            rcases mem_pair.mp hmem with rfl | rfl
            · refine ⟨lt_of_lt_of_le hle hlt.le, fun t' hshare => ?_⟩
              obtain rfl := hshare.resolve_left noConfusion
              exact hunboundR
            · refine ⟨hlt, fun t' hshare => ?_⟩
              obtain rfl := hshare.resolve_left noConfusion
              exact hunboundW

/-! Sockets: `newSocket` either changes no table or binds the first free descriptor. -/

/-- What `newSocket` does. -/
inductive SocketSpec (s : Fds) (t : Task) : Reply × Fds → Prop
  | refused (e : ℤ) (s' : Fds) (hsame : SameTables s s')
      (hnone : (∃ i < maxSockets, s.used i = false) → ∀ fd, ¬ IsFirst (Unused s t) 3 maxSockFd fd) :
      SocketSpec s t (.error e, s')
  | bound (fd i : ℕ) (s' : Fds) (hfirst : IsFirst (Unused s t) 3 maxSockFd fd)
      (hslot : i < maxSockets ∧ s.used i = false)
      (hused : s'.used = update s.used i true)
      (hbind : Rebinds s s' t fd .socket (some (.socket i))) :
      SocketSpec s t (.ok [fd], s')

theorem newSocket_spec (s : Fds) (t : Task) : SocketSpec s t (s.newSocket t) := by
  unfold newSocket allocSock
  cases hslot : search (fun i => s.used i = false) 0 maxSockets with
  | none =>
    refine .refused _ _ (.refl s) ?_
    rintro ⟨i, hi, hfree⟩
    exact absurd hfree (not_of_search_none (P := fun i => s.used i = false)
      (fun _ => decide_eq_true_iff) hslot (Nat.zero_le i) hi)
  | some i =>
    have hfree := (search_eq_some
      fun _ => decide_eq_true_iff).mp hslot
    have hsame : SameTables s { s with used := update s.used i true } := by
      intro t fd k
      cases k <;> rfl
    dsimp only [map_some]
    cases hsearch : findFreeFd { s with used := update s.used i true } t with
    | none =>
      refine .refused _ _ hsame fun _ fd hfirst => ?_
      exact (search_eq_none unused_iff).mp hsearch fd
        (hfirst.congr fun m => (hsame.unused m).symm)
    | some fd =>
      have hfirst := ((search_eq_some unused_iff).mp hsearch).congr hsame.unused
      refine .bound fd i _ hfirst ⟨hfree.lt_high, hfree.holds⟩ ?_
        ((rebinds_setSock (some i)).congr_left hsame)
      unfold setSock
      rw [if_pos hfirst.lt_high]

theorem law_newSocket_iff (h : Exclusive s) (hcall : s.call t c = s.newSocket t)
    (hreplaces : c.replaces = false) :
    Law s t c ↔ ((∃ i < maxSockets, s.used i = false) → SocketFits s t) := by
  generalize hresult : s.newSocket t = result at hcall
  have hspec := newSocket_spec s t
  rw [hresult] at hspec
  cases hspec with
  | refused e s' hsame hnone =>
    exact iff_of_true (law_of_refused h hcall hsame) fun hroom fd hfirst =>
      absurd hfirst (hnone hroom fd)
  | bound fd i s' hfirst hslot hused hbind =>
    rw [hbind.law_iff h hcall hreplaces]
    constructor
    · intro hfits _
      rw [SocketFits, hfirst.forall_iff]
      exact fun t' => hfits.2 t' (.inl rfl)
    · intro hfits
      exact ⟨hfirst.lt_high, fun t' _ => hfits ⟨i, hslot⟩ fd hfirst t'⟩

/-- `sys_socket` with a family and a type it knows is `newSocket`. -/
theorem sysSocket_eq (s : Fds) (t : Task) (family sockType : ℕ) :
    (∃ e, s.sysSocket t family sockType = (.error e, s) ∧
      ¬ ((family = 1 ∨ family = 2) ∧ (sockType = 1 ∨ sockType = 2))) ∨
    (∀ s' : Fds, s'.sysSocket t family sockType = s'.newSocket t) ∧
      (family = 1 ∨ family = 2) ∧ (sockType = 1 ∨ sockType = 2) := by
  unfold sysSocket
  by_cases hfamily : family ≠ 2 ∧ family ≠ 1
  · left
    rw [if_pos hfamily]
    exact ⟨_, rfl, by omega⟩
  · by_cases htype : sockType ≠ 1 ∧ sockType ≠ 2
    · left
      rw [if_neg hfamily, if_pos htype]
      exact ⟨_, rfl, by omega⟩
    · right
      refine ⟨fun s' => ?_, by omega, by omega⟩
      rw [if_neg hfamily, if_neg htype]

theorem law_socket_iff (h : Exclusive s) (family sockType : ℕ) :
    Law s t (.socket family sockType) ↔ Fits s t (.socket family sockType) := by
  rcases sysSocket_eq s t family sockType with ⟨e, heq, hunknown⟩ | ⟨heq, hfamily, htype⟩
  · exact iff_of_true (law_of_refused h heq (.refl s)) fun hroom =>
      absurd ⟨hroom.1, hroom.2.1⟩ hunknown
  · rw [law_newSocket_iff (c := .socket family sockType) h (heq s) rfl]
    exact ⟨fun hfits hroom => hfits hroom.2.2, fun hfits hslot => hfits ⟨hfamily, htype, hslot⟩⟩

theorem law_accept_iff (h : Exclusive s) (fd : ℕ) :
    Law s t (.accept fd) ↔ Fits s t (.accept fd) := by
  by_cases hsock : s.fdIsSocket fd = true
  · have hcall : s.call t (.accept fd) = s.newSocket t := by
      simp [call, sysAccept, hsock]
    rw [law_newSocket_iff h hcall rfl]
    exact ⟨fun hfits _ => hfits, fun hfits => hfits (isSome_socket_iff.mp hsock)⟩
  · have hcall : s.call t (.accept fd) = (.error ebadf, s) := by
      simp [call, sysAccept, if_neg hsock]
    exact iff_of_true (law_of_refused h hcall (.refl s)) fun hbound =>
      absurd (isSome_socket_iff.mpr hbound) hsock

theorem unused_after_bind {a : ℕ} (hbind : Rebinds s s' t a .socket (some o)) (ha : a < maxSockFd)
    (fd : ℕ) : Unused s' t fd ↔ Unused s t fd ∧ fd ≠ a := by
  constructor
  · intro hunused
    have hne : fd ≠ a := by
      rintro rfl
      have hnone := hunused .socket noConfusion
      rw [hbind, if_pos ⟨rfl, rfl, ha, .inl rfl⟩] at hnone
      cases hnone
    refine ⟨fun k hk => ?_, hne⟩
    rw [← hunused k hk, hbind, if_neg fun hsame => hne hsame.2.1]
  · rintro ⟨hunused, hne⟩ k hk
    rw [hbind, if_neg fun hsame => hne hsame.2.1]
    exact hunused k hk

section

variable (h : Exclusive s)

include h

theorem law_socketpair_iff (family sockType : ℕ) (null : Bool) :
    Law s t (.socketpair family sockType null) ↔ Fits s t (.socketpair family sockType null) := by
  cases null with
  | true =>
    have hcall : s.call t (.socketpair family sockType true) = (.error efault, s) := rfl
    exact iff_of_true (law_of_refused h hcall (.refl s)) fun hnull => (by cases hnull)
  | false =>
    have hcall : s.call t (.socketpair family sockType false) =
        s.sysSocketpair t family sockType false := rfl
    simp only [sysSocketpair] at hcall
    rcases sysSocket_eq s t family sockType with ⟨e, heq, hunknown⟩ | ⟨heq, hfamily, htype⟩
    · rw [heq] at hcall
      exact iff_of_true (law_of_refused h hcall (.refl s)) fun _ hroom =>
        absurd ⟨hroom.1, hroom.2.1⟩ hunknown
    simp only [heq] at hcall
    generalize hfirstCall : s.newSocket t = result at hcall
    have hspec := newSocket_spec s t
    rw [hfirstCall] at hspec
    cases hspec with
    | refused e s₁ hsame hnone =>
      refine iff_of_true (law_of_refused h hcall hsame) fun _ hroom _ a b ha => ?_
      exact absurd ha (hnone hroom.2.2 a)
    | bound a i s₁ ha hslot hused hbind =>
      have hnext : ∀ b, IsFirst (Unused s₁ t) 3 maxSockFd b ↔
          IsFirst (Unused s t) (a + 1) maxSockFd b := fun b =>
        ha.next_iff (unused_after_bind hbind ha.lt_high)
      dsimp only at hcall
      generalize hsecondCall : s₁.newSocket t = result at hcall
      have hspec := newSocket_spec s₁ t
      rw [hsecondCall] at hspec
      cases hspec with
      | refused e s₂ hsame hnone =>
        dsimp only [foldl_cons, foldl_nil] at hcall
        refine iff_of_true (law_of_refused h hcall fun t' fd' k' => ?_) ?_
        · -- the first socket is taken back
          rw [rebinds_setSock none]
          split_ifs with hentry
          · obtain ⟨rfl, rfl, -, -⟩ := hentry
            exact (ha.holds .socket noConfusion).symm
          · rw [hsame, hbind, if_neg hentry]
        · rintro - - ⟨i', j', hlt, hj, hi', hj'⟩ a' b ha' hb t'
          rw [← ha.unique ha', ← hnext] at hb
          refine absurd hb (hnone ?_ b)
          rw [hused]
          by_cases hi : i' = i
          · refine ⟨j', hj, ?_⟩
            rw [update_of_ne (by omega)]
            exact hj'
          · refine ⟨i', by omega, ?_⟩
            rw [update_of_ne hi]
            exact hi'
      | bound b j s₂ hb hslot₂ hused₂ hbind₂ =>
        have hslots : ∃ i j, i < j ∧ j < maxSockets ∧ s.used i = false ∧ s.used j = false := by
          obtain ⟨hj, hjfree⟩ := hslot₂
          rw [hused] at hjfree
          have hne : j ≠ i := by
            rintro rfl
            rw [update_self] at hjfree
            cases hjfree
          rw [update_of_ne hne] at hjfree
          rcases lt_or_gt_of_ne hne with hlt | hgt
          · exact ⟨j, i, hlt, hslot.1, hjfree, hslot.2⟩
          · exact ⟨i, j, hgt, hj, hslot.2, hjfree⟩
        rw [(hbind.adds_two hbind₂).law_iff h hcall rfl]
        have hb' := (hnext b).mp hb
        constructor
        · intro hfits _ _ _ a' b' ha' hb'' t'
          obtain rfl := ha.unique ha'
          obtain rfl := hb'.unique hb''
          exact ⟨(hfits a (mem_pair.mpr (.inl rfl))).2 t' (.inl rfl),
            (hfits b (mem_pair.mpr (.inr rfl))).2 t' (.inl rfl)⟩
        · intro hfits fd hmem
          have hboth := hfits rfl ⟨hfamily, htype, i, hslot⟩ hslots a b ha hb'
          rcases mem_pair.mp hmem with rfl | rfl
          · exact ⟨ha.lt_high, fun t' _ => (hboth t').1⟩
          · exact ⟨hb.lt_high, fun t' _ => (hboth t').2⟩

theorem law_createEvent_iff : Law s t .createEvent ↔ Fits s t .createEvent := by
  cases halloc : s.allocObj with
  | none =>
    have hcall : s.call t .createEvent = (.error emfile, s) := by
      simp [call, createEvent, halloc]
    refine iff_of_true (law_of_refused h hcall (.refl s)) ?_
    rintro ⟨i, hi, hfree⟩
    exact absurd hfree (not_of_search_none (P := fun i => s.slotUsed i = false)
      (fun _ => not_eq_true' _ ▸ Iff.rfl) halloc (Nat.zero_le i) hi)
  | some i =>
    have hslot := (search_eq_some (P := fun i => s.slotUsed i = false)
      fun _ => not_eq_true' _ ▸ Iff.rfl).mp halloc
    cases hsearch : search (s.unusedByEvent t) 3 64 with
    | none =>
      have hcall : s.call t .createEvent = (.error emfile, s) := by
        simp [call, createEvent, halloc, hsearch]
      refine iff_of_true (law_of_refused h hcall (.refl s)) fun _ fd hfirst => ?_
      exact absurd hfirst ((search_eq_none unusedByEvent_iff).mp hsearch fd)
    | some fd =>
      have hfirst := (search_eq_some unusedByEvent_iff).mp hsearch
      have hcall : s.call t .createEvent = (.ok [fd], s.setEvent t fd (some i)) := by
        simp [call, createEvent, halloc, hsearch]
      rw [(rebinds_setEvent (some i)).law_iff_own h hcall rfl noConfusion]
      constructor
      · intro hfits _
        rw [hfirst.forall_iff]
        exact hfits.1
      · exact fun hfits => ⟨hfits ⟨i, hslot.lt_high, hslot.holds⟩ fd hfirst, hfirst.holds⟩

theorem law_dupFrom_iff {start : ℕ} (hcall : s.call t c = s.dupFrom t fd start)
    (hreplaces : c.replaces = false) : Law s t c ↔ DupFits s t fd start := by
  unfold dupFrom at hcall
  by_cases hpipe : s.fdIsPipe t fd = true
  · rw [if_pos hpipe] at hcall
    cases hsearch : search (s.unused t) start nrOpen with
    | none =>
      rw [hsearch] at hcall
      refine iff_of_true (law_of_refused h hcall (.refl s)) fun _ new hfirst => ?_
      exact absurd hfirst ((search_eq_none unused_iff).mp hsearch new)
    | some new =>
      rw [hsearch] at hcall
      have hfirst := (search_eq_some unused_iff).mp hsearch
      obtain ⟨⟨i, dir⟩, hentry⟩ := isSome_iff_exists.mp hpipe
      rw [(rebinds_dupFd hentry).law_iff_own h hcall hreplaces noConfusion, DupFits,
        hfirst.forall_iff (Q := fun new => Unbound s t new ∧
          ((s.find t fd .pipe).isSome → new < maxPipeFd))]
      have hsome := isSome_pipe_iff.mp hpipe
      constructor
      · exact fun hfits _ => ⟨hfits.2, fun _ => hfits.1⟩
      · exact fun hfits => ⟨(hfits (.inl hsome)).2 hsome, (hfits (.inl hsome)).1⟩
  · have hnot : ¬ (s.find t fd .pipe).isSome := fun hsome => hpipe (isSome_pipe_iff.mpr hsome)
    rw [if_neg hpipe] at hcall
    cases hfile : s.fdToFilp t fd with
    | none =>
      rw [hfile] at hcall
      refine iff_of_true (law_of_refused h hcall (.refl s)) ?_
      rintro (hsome | hsome)
      · exact absurd hsome hnot
      · rw [find_file_eq.mpr hfile] at hsome
        cases hsome
    | some f =>
      rw [hfile] at hcall
      cases hsearch : search (s.unused t) start nrOpen with
      | none =>
        rw [hsearch] at hcall
        refine iff_of_true (law_of_refused h hcall (.refl s)) fun _ new hfirst => ?_
        exact absurd hfirst ((search_eq_none unused_iff).mp hsearch new)
      | some new =>
        rw [hsearch] at hcall
        have hfirst := (search_eq_some unused_iff).mp hsearch
        have hbind : Rebinds s ((s.setCount f (s.fCount f + 1)).setFd t new (some f)) t new .file
            (some (.file f)) := (rebinds_setFd _).congr_left fun _ _ _ => find_setCount ..
        rw [hbind.law_iff_own h hcall hreplaces noConfusion, DupFits,
          hfirst.forall_iff (Q := fun new => Unbound s t new ∧
            ((s.find t fd .pipe).isSome → new < maxPipeFd))]
        have hsome : (s.find t fd .file).isSome := by
          rw [find, hfile]
          rfl
        constructor
        · exact fun hfits _ => ⟨hfits.2, fun hpipe => absurd hpipe hnot⟩
        · exact fun hfits => ⟨hfirst.lt_high, (hfits (.inr hsome)).1⟩

/-! `dup2` first takes the target out of the tables of files and pipes. -/

theorem find_closeTarget (newfd : ℕ) (t' : Task) (fd' : ℕ) (k' : Kind) :
    (s.closeTarget t newfd).find t' fd' k' =
      if t' = t ∧ fd' = newfd ∧ (k' = .file ∨ k' = .pipe) then none else s.find t' fd' k' := by
  -- one of the two tables is cleared, and the other has no entry
  have hcleared : ∀ {s' : Fds} {k₀ : Kind}, Rebinds s s' t newfd k₀ none → k₀ ≠ .socket →
      (k₀ = .file ∨ k₀ = .pipe) →
      (∀ k, k = .file ∨ k = .pipe → k ≠ k₀ → s.find t newfd k = none) →
      s'.find t' fd' k' =
        if t' = t ∧ fd' = newfd ∧ (k' = .file ∨ k' = .pipe) then none else s.find t' fd' k' := by
    intro s' k₀ hre hsock hk₀ hother
    rw [hre.cleared]
    split_ifs with hsame hhere hhere
    · rfl
    · obtain ⟨rfl, rfl, ht⟩ := hsame
      exact absurd ⟨ht.resolve_left hsock, rfl, hk₀⟩ hhere
    · obtain ⟨rfl, rfl, hk'⟩ := hhere
      exact hother k' hk' fun hk => hsame ⟨hk, rfl, .inr rfl⟩
    · rfl
  unfold closeTarget
  by_cases hpipe : s.fdIsPipe t newfd = true
  · rw [if_pos hpipe]
    refine hcleared rebinds_closeFd noConfusion (.inr rfl) fun k _ hne => ?_
    by_contra hsome
    exact hne (h t newfd k .pipe (isSome_iff_ne_none.mpr hsome) (isSome_pipe_iff.mp hpipe))
  rw [if_neg hpipe]
  by_cases hfile : (s.fdToFilp t newfd).isSome = true
  · rw [if_pos hfile]
    refine hcleared rebinds_sysClose noConfusion (.inl rfl) fun k hk hne => ?_
    obtain rfl := hk.resolve_left hne
    by_contra hsome
    exact hpipe (isSome_pipe_iff.mpr (isSome_iff_ne_none.mpr hsome))
  · rw [if_neg hfile]
    refine hcleared (rebinds_none ?_) noConfusion (.inl rfl) fun k hk hne => ?_
    · exact find_file_eq.mpr (not_isSome_iff_eq_none.mp hfile)
    · obtain rfl := hk.resolve_left hne
      by_contra hsome
      exact hpipe (isSome_pipe_iff.mpr (isSome_iff_ne_none.mpr hsome))

omit h in
/-- A descriptor that is neither socket nor event is closed as `close` does it. -/
theorem close_eq_closeTarget {newfd : ℕ} (hsocket : s.find t newfd .socket = none)
    (hevent : s.find t newfd .event = none) : (s.close t newfd).2 = s.closeTarget t newfd := by
  have hsock : s.fdToSock newfd = none := map_eq_none_iff.mp hsocket
  have hobj : s.fdToObj t newfd = none := map_eq_none_iff.mp hevent
  unfold close closeTarget
  by_cases hpipe : s.fdIsPipe t newfd = true
  · have hsame : ∀ k, k ≠ .pipe → (s.closeFd t newfd).find t newfd k = s.find t newfd k := by
      intro k hk
      rw [rebinds_closeFd.cleared, if_neg fun hclosed => hk hclosed.1]
    have hsock' : (s.closeFd t newfd).fdToSock newfd = none :=
      map_eq_none_iff.mp ((hsame .socket noConfusion).trans hsocket)
    have hobj' : (s.closeFd t newfd).fdToObj t newfd = none :=
      map_eq_none_iff.mp ((hsame .event noConfusion).trans hevent)
    simp [hpipe, fdIsSocket, fdIsEvent, hsock', hobj']
  · have hfile : (s.sysClose t newfd).2 =
        if (s.fdToFilp t newfd).isSome = true then (s.sysClose t newfd).2 else s := by
      split_ifs with hsome
      · rfl
      · rw [sysClose, not_isSome_iff_eq_none.mp hsome]
    simpa [hpipe, fdIsSocket, fdIsEvent, hsock, hobj] using hfile

/-- Nothing is left to close. -/
theorem closeTarget_closeTarget (newfd : ℕ) :
    (s.closeTarget t newfd).closeTarget t newfd = s.closeTarget t newfd := by
  have hgone : ∀ k, k = .file ∨ k = .pipe → (s.closeTarget t newfd).find t newfd k = none :=
    fun k hk => (find_closeTarget h newfd t newfd k).trans (if_pos ⟨rfl, rfl, hk⟩)
  have hpipe : ¬ (s.closeTarget t newfd).fdIsPipe t newfd = true := by
    rw [isSome_pipe_iff, hgone .pipe (.inr rfl)]
    exact Bool.false_ne_true
  have hfile : (s.closeTarget t newfd).fdToFilp t newfd = none :=
    find_file_eq.mp (hgone .file (.inl rfl))
  generalize s.closeTarget t newfd = s' at hpipe hfile
  rw [closeTarget, if_neg hpipe, hfile]
  rfl

/-- `dup2` does to the target what a `close` before it would do. -/
theorem sysDup2_of_close {oldfd newfd : ℕ} (hne : oldfd ≠ newfd)
    (hcall : s.sysDup2 t oldfd newfd = (.ok [newfd], s'))
    (hsocket : s.find t newfd .socket = none) (hevent : s.find t newfd .event = none) :
    (s.close t newfd).2.sysDup2 t oldfd newfd = (.ok [newfd], s') := by
  rw [close_eq_closeTarget hsocket hevent]
  have hsame : ∀ k, (s.closeTarget t newfd).find t oldfd k = s.find t oldfd k :=
    fun k => (find_closeTarget h newfd t oldfd k).trans (if_neg fun hhere => hne hhere.2.1)
  have hpipe : (s.closeTarget t newfd).fdIsPipe t oldfd = s.fdIsPipe t oldfd := by
    rw [Bool.eq_iff_iff, isSome_pipe_iff, isSome_pipe_iff, hsame]
  have hfile : (s.closeTarget t newfd).fdToFilp t oldfd = s.fdToFilp t oldfd :=
    map_injective (fun _ _ heq => Obj.file.inj heq) (hsame .file)
  rw [← hcall]
  unfold sysDup2 at hcall ⊢
  rw [hpipe, hfile, closeTarget_closeTarget h]
  split_ifs at hcall ⊢ with hnew hold
  · cases hcall
  · rfl
  · cases hentry : s.fdToFilp t oldfd with
    | none =>
      rw [hentry] at hcall
      cases hcall
    | some f => rfl

/-- `dup2` of a file or a pipe onto another descriptor. -/
theorem law_replace_iff {oldfd newfd : ℕ} (hcall : s.call t (.dup2 oldfd newfd) = (.ok [newfd], s'))
    (hne : oldfd ≠ newfd) (hk : k = .file ∨ k = .pipe) (hold : s.find t oldfd k = some o)
    (hbind : Rebinds (s.closeTarget t newfd) s' t newfd k (some o)) : Law s t (.dup2 oldfd newfd) ↔
      s.find t newfd .socket = none ∧ s.find t newfd .event = none ∧ newfd < k.width := by
  have hsock : k ≠ .socket := by
    rintro rfl
    rcases hk with hk | hk <;> cases hk
  have honly : ∀ k', k' ≠ k → s.find t oldfd k' = none := by
    intro k' hk'
    by_contra hsome
    exact hk' (h t oldfd k' k (isSome_iff_ne_none.mpr hsome) (by rw [hold]; rfl))
  -- what the call leaves in the other tables
  have hrest : ∀ t' fd' k', ¬ SameEntry t newfd k t' fd' k' → s'.find t' fd' k' =
      if t' = t ∧ fd' = newfd ∧ (k' = .file ∨ k' = .pipe) then none else s.find t' fd' k' := by
    intro t' fd' k' hnot
    rw [hbind, if_neg hnot, find_closeTarget h]
  constructor
  · intro hlaw
    obtain ⟨hreplaced, -⟩ := hlaw.replaced oldfd newfd rfl hne (by rw [hcall])
    rw [hcall] at hreplaced
    have hclear : ∀ k', k' ≠ k → ¬ (k' = .file ∨ k' = .pipe) → s.find t newfd k' = none := by
      intro k' hk' hnot
      have heq := hreplaced k'
      rwa [hrest t newfd k' fun hsame => hk' hsame.1, if_neg fun hhere => hnot hhere.2.2,
        honly k' hk'] at heq
    refine ⟨hclear .socket hsock.symm (by rintro (hk | hk) <;> cases hk),
      hclear .event ?_ (by rintro (hk | hk) <;> cases hk), ?_⟩
    · rintro rfl
      rcases hk with hk | hk <;> cases hk
    · by_contra hwidth
      have heq := hreplaced k
      rw [hrest t newfd k fun hsame => hwidth hsame.2.2.1, if_pos ⟨rfl, rfl, hk⟩, hold] at heq
      cases heq
  · rintro ⟨hsocket, hevent, hwidth⟩
    have hreplaced : ∀ k', s'.find t newfd k' = s.find t oldfd k' := by
      intro k'
      by_cases hk' : k' = k
      · subst hk'
        rw [hbind, if_pos ⟨rfl, rfl, hwidth, .inr rfl⟩, hold]
      · rw [honly k' hk', hrest t newfd k' fun hsame => hk' hsame.1]
        split_ifs with hhere
        · rfl
        · cases k' with
          | file => exact absurd ⟨rfl, rfl, .inl rfl⟩ hhere
          | pipe => exact absurd ⟨rfl, rfl, .inr rfl⟩ hhere
          | socket => exact hsocket
          | event => exact hevent
    refine ⟨?_, fun hfalse => (by cases hfalse), fun oldfd' newfd' hdup _ _ => ?_⟩
    · rw [hcall]
      intro t' fd' k₁ k₂ h₁ h₂
      by_cases hhere : t' = t ∧ fd' = newfd
      · obtain ⟨rfl, rfl⟩ := hhere
        rw [hreplaced] at h₁ h₂
        exact h t' oldfd k₁ k₂ h₁ h₂
      · have hkeep : ∀ k', (s'.find t' fd' k').isSome → (s.find t' fd' k').isSome := by
          intro k' hsome
          rwa [hrest t' fd' k' fun hsame => hhere ⟨hsame.2.2.2.resolve_left hsock, hsame.2.1⟩,
            if_neg fun hclosed => hhere ⟨hclosed.1, hclosed.2.1⟩] at hsome
        exact h t' fd' k₁ k₂ (hkeep k₁ h₁) (hkeep k₂ h₂)
    · cases hdup
      have hclosed : (s.call t (.close newfd)).2.call t (.dup2 oldfd newfd) = (.ok [newfd], s') :=
        sysDup2_of_close h hne hcall hsocket hevent
      rw [hclosed, hcall]
      exact ⟨hreplaced, rfl⟩

theorem law_dup2_iff (oldfd newfd : ℕ) :
    Law s t (.dup2 oldfd newfd) ↔ Fits s t (.dup2 oldfd newfd) := by
  have hcall : s.call t (.dup2 oldfd newfd) = s.sysDup2 t oldfd newfd := rfl
  unfold sysDup2 at hcall
  by_cases hnew : nrOpen ≤ newfd
  · rw [if_pos hnew] at hcall
    exact iff_of_true (law_of_refused h hcall (.refl s)) fun hlt => absurd hlt (not_lt.mpr hnew)
  rw [if_neg hnew] at hcall
  -- the same descriptor twice
  have hself : oldfd = newfd → s.call t (.dup2 oldfd newfd) = (.ok [newfd], s) →
      (Law s t (.dup2 oldfd newfd) ↔ Fits s t (.dup2 oldfd newfd)) := by
    intro heq hok
    refine iff_of_true ⟨?_, fun hfalse => (by cases hfalse), fun oldfd' newfd' hdup hne => ?_⟩
      fun _ hne => absurd heq hne
    · rw [hok]
      exact h
    · cases hdup
      exact absurd heq hne
  by_cases hpipe : s.fdIsPipe t oldfd = true
  · rw [if_pos hpipe] at hcall
    have hsome := isSome_pipe_iff.mp hpipe
    by_cases heq : oldfd = newfd
    · rw [if_pos heq] at hcall
      exact hself heq hcall
    rw [if_neg heq] at hcall
    obtain ⟨⟨i, dir⟩, hentry⟩ := isSome_iff_exists.mp hpipe
    have hold : s.find t oldfd .pipe = some (.pipe i dir) := by
      rw [find, hentry]
      rfl
    -- the target is another descriptor, so the pipe is still there when it is copied
    have hstill : (s.closeTarget t newfd).fdToPipe t oldfd = some (i, dir) := by
      have hfind := find_closeTarget (t := t) h newfd t oldfd .pipe
      rw [if_neg fun hhere => heq hhere.2.1, hold] at hfind
      obtain ⟨⟨i', dir'⟩, hentry', hobj⟩ := map_eq_some_iff.mp hfind
      cases hobj
      exact hentry'
    rw [law_replace_iff h hcall heq (.inr rfl) hold (rebinds_dupFd hstill)]
    constructor
    · exact fun hfits _ _ _ => ⟨hfits.1, hfits.2.1, fun _ => hfits.2.2⟩
    · intro hfits
      obtain ⟨hsocket, hevent, hwidth⟩ := hfits (not_le.mp hnew) heq (.inl hsome)
      exact ⟨hsocket, hevent, hwidth hsome⟩
  · rw [if_neg hpipe] at hcall
    have hnot : ¬ (s.find t oldfd .pipe).isSome := fun hsome => hpipe (isSome_pipe_iff.mpr hsome)
    cases hfile : s.fdToFilp t oldfd with
    | none =>
      rw [hfile] at hcall
      refine iff_of_true (law_of_refused h hcall (.refl s)) fun _ _ hbound => ?_
      rcases hbound with hbound | hbound
      · exact absurd hbound hnot
      · rw [find_file_eq.mpr hfile] at hbound
        cases hbound
    | some f =>
      rw [hfile] at hcall
      dsimp only at hcall
      by_cases heq : oldfd = newfd
      · rw [if_pos heq] at hcall
        exact hself heq hcall
      rw [if_neg heq] at hcall
      have hold : s.find t oldfd .file = some (.file f) := by
        rw [find, hfile]
        rfl
      rw [law_replace_iff h hcall heq (.inl rfl) hold
        ((rebinds_setFd (some f)).congr_left fun _ _ _ => find_setCount ..)]
      constructor
      · exact fun hfits _ _ _ => ⟨hfits.1, hfits.2.1, fun hpipe => absurd hpipe hnot⟩
      · intro hfits
        obtain ⟨hsocket, hevent, -⟩ :=
          hfits (not_le.mp hnew) heq (.inr (by rw [hold]; rfl))
        exact ⟨hsocket, hevent, not_le.mp hnew⟩

theorem law_close (fd : ℕ) : Law s t (.close fd) := by
  have hclosed : Exclusive (s.close t fd).2 ∧ ∀ fds, (s.close t fd).1 = .ok fds → fds = [] := by
    unfold close
    dsimp only
    generalize hs₁ : (if s.fdIsPipe t fd = true then s.closeFd t fd else s) = s₁
    have h₁ : Exclusive s₁ := by
      rw [← hs₁]
      split_ifs
      · exact h.unbind rebinds_closeFd
      · exact h
    generalize hs₂ : (if s₁.fdIsSocket fd = true then s₁.closeSocket fd else s₁) = s₂
    have h₂ : Exclusive s₂ := by
      rw [← hs₂]
      split_ifs
      · exact h₁.unbind (rebinds_closeSocket (t := t))
      · exact h₁
    generalize hs₃ : (if s₂.fdIsEvent t fd = true then s₂.setEvent t fd none else s₂) = s₃
    have h₃ : Exclusive s₃ := by
      rw [← hs₃]
      split_ifs
      · exact h₂.unbind (rebinds_setEvent none)
      · exact h₂
    split_ifs
    · refine ⟨h₃, fun fds hok => ?_⟩
      cases hok
      rfl
    · refine ⟨h₃.unbind rebinds_sysClose, fun fds hok => ?_⟩
      unfold sysClose at hok
      cases hfile : s₃.fdToFilp t fd with
      | none =>
        rw [hfile] at hok
        cases hok
      | some f =>
        rw [hfile] at hok
        cases hok
        rfl
  refine ⟨hclosed.1, fun _ fds hok fd' hmem => ?_, fun _ _ hdup => by cases hdup⟩
  rw [hclosed.2 fds hok] at hmem
  cases hmem

theorem law_iff (t : Task) (c : Call) : Law s t c ↔ Fits s t c := by
  cases c with
  | «open» outcome => exact law_open_iff h outcome
  | pipe null page => exact law_pipe_iff h null page
  | socket family sockType => exact law_socket_iff h family sockType
  | socketpair family sockType null => exact law_socketpair_iff h family sockType null
  | accept fd => exact law_accept_iff h fd
  | createEvent => exact law_createEvent_iff h
  | dup fd | dupfd fd start => exact law_dupFrom_iff h rfl rfl
  | dup2 oldfd newfd => exact law_dup2_iff h oldfd newfd
  | close fd => exact iff_of_true (law_close h fd) trivial

end

/-! ## Sequences of calls -/

/-- A call by any task. -/
def Fds.step (s : Fds) (input : Task × Call) : Except Empty Fds := .ok (s.call input.1 input.2).2

/-- The condition on a call by any task. -/
def StepFits (s : Fds) (input : Task × Call) : Prop := Fits s input.1 input.2

/-- As long as the calls fit, the tables stay exclusive, and the next call keeps the law exactly if
it fits too. -/
theorem exclusive_run (h : Exclusive s) (calls : List (Task × Call))
    (hfits : Guarded Fds.step StepFits calls s) :
    ∃ final, run Fds.step calls s = .ok final ∧ Exclusive final ∧
      ∀ t c, Law final t c ↔ Fits final t c := by
  obtain ⟨final, hrun, hexclusive⟩ := run_invariant
    (fun s input (hs : Exclusive s) hfit =>
      ⟨_, rfl, ((law_iff hs input.1 input.2).mpr hfit).exclusive⟩) h hfits
  exact ⟨final, hrun, hexclusive, fun t c => law_iff hexclusive t c⟩

theorem exclusive_boot : Exclusive boot := by
  intro t fd k k' hk
  have hnone : boot.find t fd k = none := by
    cases k <;> simp [find, fdToFilp, fdToPipe, fdToSock, fdToObj, boot]
  rw [hnone] at hk
  cases hk

theorem fits_open_of_search (fd : ℕ) (hsearch : s.getUnusedFd t = some fd)
    (hunbound : s.unusedByEvent t fd = true) (outcome : Except ℤ Unit) :
    Fits s t (.open outcome) := by
  intro _ _
  rw [((search_eq_some unused_iff).mp hsearch).forall_iff]
  exact (unusedByEvent_iff fd).mp hunbound

theorem fits_pipe_of_search {r w : ℕ} (hr : search (s.unusedByPipe t) 3 nrOpen = some r)
    (hw : search (s.unusedByPipe t) (r + 1) nrOpen = some w) (hlt : w < maxPipeFd)
    (hunbound : s.unusedByEvent t r = true ∧ s.unusedByEvent t w = true) (null page : Bool) :
    Fits s t (.pipe null page) := by
  intro _ _ _ r' w' hr' hw'
  obtain rfl := ((search_eq_some unusedByPipe_iff).mp hr).unique hr'
  obtain rfl := ((search_eq_some unusedByPipe_iff).mp hw).unique hw'
  exact ⟨hlt, (unusedByEvent_iff r).mp hunbound.1, (unusedByEvent_iff w).mp hunbound.2⟩

theorem socketFits_of_search (fd : ℕ) (hsearch : s.findFreeFd t = some fd)
    (hunbound : ∀ t', s.unusedByEvent t' fd = true) : SocketFits s t := by
  rw [SocketFits, ((search_eq_some unused_iff).mp hsearch).forall_iff
   ]
  exact fun t' => (unusedByEvent_iff fd).mp (hunbound t')

/-- A file, a pipe, and the file again under another number. -/
theorem exclusive_run_small :
    ∃ final, run Fds.step [(1, .open (.ok ())), (1, .pipe false true), (1, .dup2 0 4)] Fds.boot =
        .ok final ∧ Exclusive final ∧ final.find 1 3 .pipe = some (.pipe 0 .read) ∧
      final.find 1 4 .file = some (.file 0) := by
  have hfits : Guarded step StepFits
      [(1, .open (.ok ())), (1, .pipe false true), (1, .dup2 0 4)] boot := by
    refine ⟨fits_open_of_search 0 (by decide +kernel) (by decide +kernel) _,
      fun s₁ h₁ => ?_⟩
    cases h₁
    refine ⟨fits_pipe_of_search (r := 3) (w := 4) (by decide +kernel) (by decide +kernel)
      (by decide) (by decide +kernel) _ _, fun s₂ h₂ => ?_⟩
    cases h₂
    exact ⟨fun _ _ _ => by decide +kernel, fun _ _ => trivial⟩
  obtain ⟨final, hrun, hexclusive, -⟩ := exclusive_run exclusive_boot _ hfits
  refine ⟨final, hrun, hexclusive, ?_⟩
  cases hrun
  exact ⟨by decide +kernel, by decide +kernel⟩

/-- The fourth file of a task with an event descriptor gets the number of the event; and `dup2`
onto a socket leaves the socket in place. -/
theorem descriptors_collide :
    (∃ final, run Fds.step [(1, .createEvent), (1, .open (.ok ())), (1, .open (.ok ())),
        (1, .open (.ok ())), (1, .open (.ok ()))] Fds.boot = .ok final ∧ ¬ Exclusive final) ∧
      ∃ final, run Fds.step [(1, .open (.ok ())), (1, .socket 1 1)] Fds.boot = .ok final ∧
        Exclusive final ∧ ¬ Law final 1 (.dup2 0 3) := by
  refine ⟨⟨_, rfl, fun hexclusive => ?_⟩, _, rfl, ?_, fun hlaw => ?_⟩
  · exact absurd (hexclusive 1 3 .file .event (by decide +kernel) (by decide +kernel)) (by decide)
  · have hopen := (law_iff exclusive_boot 1 (.open (.ok ()))).mpr
      (fits_open_of_search 0 (by decide +kernel) (by decide +kernel) _)
    refine ((law_iff hopen.exclusive 1 (.socket 1 1)).mpr fun _ => ?_).exclusive
    exact socketFits_of_search 3 (by decide +kernel) (by decide +kernel)
  · exact absurd (hlaw.exclusive 1 3 .file .socket (by decide +kernel) (by decide +kernel)) (by decide)

end Shitix.Fd
