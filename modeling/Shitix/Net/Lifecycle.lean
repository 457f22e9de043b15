import Shitix.Net.Socket

/-!
# The life of a socket

A slot should be in use as long as a descriptor refers to it, and its page should go with it
(`Kept`).

It does not: `close_socket` frees the page and the descriptor, and leaves the slot taken for good,
so that after four sockets there is never another.  `socket` and `accept` leave a slot behind if
they find no descriptor for it, and `socketpair` one or two.  The slots are as they should be
exactly as long as no socket is closed and no call fails that way (`kept_run_iff`).
-/

namespace Shitix.Net

open Function Bool Sockets

/-- The slots in use are those with a descriptor, the pages in use are theirs, and their peers are
those they were connected to.  The third part follows from the first. -/
structure Kept (s : Sockets) : Prop where
  referred : ∀ i, (s.socks i).used = true ↔ ∃ fd, s.fdToSock fd = some i
  freed : ∀ page, s.pages page = true ↔
    page ≠ 0 ∧ ∃ i, (s.socks i).used = true ∧ (s.socks i).bufPage = page
  again : (∀ fd, s.fdToSock fd = none) → ∀ i, (s.socks i).used = false
  peers : ∀ i j, (s.socks i).used = true → (s.socks i).peer = some j →
    (s.socks j).used = true ∧ s.life j = s.met i

/-- A slot has one descriptor at most. -/
def Single (s : Sockets) : Prop :=
  ∀ i fd fd', s.fdToSock fd = some i → s.fdToSock fd' = some i → fd = fd'

variable {s t s' u : Sockets} {i j a b : Slot} {fd : ℕ} {elsewhere : ℕ → Bool}

theorem kept_of (hreferred : ∀ i, (s.socks i).used = true ↔ ∃ fd, s.fdToSock fd = some i)
    (hfreed : ∀ page, s.pages page = true ↔
      page ≠ 0 ∧ ∃ i, (s.socks i).used = true ∧ (s.socks i).bufPage = page)
    (hpeers : ∀ i j, (s.socks i).used = true → (s.socks i).peer = some j →
      (s.socks j).used = true ∧ s.life j = s.met i) : Kept s := by
  refine ⟨hreferred, hfreed, fun hnone i => ?_, hpeers⟩
  by_contra hused
  obtain ⟨fd, hfd⟩ := (hreferred i).mp (by simpa using hused)
  rw [hnone] at hfd
  cases hfd

/-- No descriptor refers to a slot that is not in use. -/
theorem Kept.fdToSock_ne (h : Kept s) (hfree : (s.socks i).used = false) (fd : ℕ) :
    s.fdToSock fd ≠ some i := by
  intro hfd
  rw [(h.referred i).mpr ⟨fd, hfd⟩] at hfree
  cases hfree

/-! ## Calls that leave the tables alone -/

/-- The two states have the same slots in use, the same descriptors and the same peers. -/
structure Unmoved (s t : Sockets) : Prop where
  used : ∀ i, (t.socks i).used = (s.socks i).used
  peer : ∀ i, (t.socks i).peer = (s.socks i).peer
  fdToSock : ∀ fd, t.fdToSock fd = s.fdToSock fd
  life : t.life = s.life
  met : t.met = s.met

/-- And the same pages. -/
structure Still (s t : Sockets) : Prop extends Unmoved s t where
  bufPage : ∀ i, (t.socks i).bufPage = (s.socks i).bufPage
  pages : t.pages = s.pages

theorem Still.refl (s : Sockets) : Still s s :=
  { used := fun _ => rfl, peer := fun _ => rfl, fdToSock := fun _ => rfl, life := rfl, met := rfl
    bufPage := fun _ => rfl, pages := rfl }

theorem Unmoved.kept (h : Unmoved s t) (hkept : Kept s)
    (hfreed : ∀ page, t.pages page = true ↔
      page ≠ 0 ∧ ∃ i, (t.socks i).used = true ∧ (t.socks i).bufPage = page) : Kept t := by
  refine kept_of (fun i => ?_) hfreed fun i j hused hpeer => ?_
  · rw [h.used, hkept.referred]
    simp [h.fdToSock]
  · rw [h.used] at hused ⊢
    rw [h.peer] at hpeer
    rw [h.life, h.met]
    exact hkept.peers i j hused hpeer

theorem Still.kept (h : Still s t) (hkept : Kept s) : Kept t := by
  refine h.toUnmoved.kept hkept fun page => ?_
  rw [h.pages, hkept.freed]
  simp [h.used, h.bufPage]

theorem Unmoved.single (h : Unmoved s t) (hsingle : Single s) : Single t := by
  intro i fd fd' hfd hfd'
  rw [h.fdToSock] at hfd hfd'
  exact hsingle i fd fd' hfd hfd'

theorem still_modify {f : SockEntry → SockEntry} (hused : (f (s.socks i)).used = (s.socks i).used)
    (hpeer : (f (s.socks i)).peer = (s.socks i).peer)
    (hpage : (f (s.socks i)).bufPage = (s.socks i).bufPage) : Still s (s.modify i f) := by
  have hfield : ∀ {α : Type} (field : SockEntry → α), field (f (s.socks i)) = field (s.socks i) →
      ∀ j, field ((s.modify i f).socks j) = field (s.socks j) := by
    intro α field heq j
    rw [socks_modify]
    split_ifs with hj
    · rw [heq, hj]
    · rfl
  exact { used := hfield _ hused, peer := hfield _ hpeer, fdToSock := fun _ => rfl, life := rfl
          met := rfl, bufPage := hfield _ hpage, pages := rfl }

/-- `sys_recvfrom` only reads. -/
theorem still_sysRecvfrom (fd : ℕ) (null : Bool) (len : ℕ) :
    Still s (s.sysRecvfrom fd null len).2 := by
  unfold sysRecvfrom
  split_ifs
  · exact .refl s
  cases s.fdToSock fd with
  | none => exact .refl s
  | some i =>
    dsimp only
    split_ifs
    · exact .refl s
    · have hmodify : Still s (s.modify i fun entry => { entry with
          bufRead := (entry.bufRead + min len (s.socks i).bufLen) % sockBufSz
          bufLen := entry.bufLen - min len (s.socks i).bufLen }) := still_modify rfl rfl rfl
      exact { hmodify with }

theorem Unmoved.trans (h : Unmoved s t) (h' : Unmoved t u) : Unmoved s u :=
  { used := fun i => (h'.used i).trans (h.used i)
    peer := fun i => (h'.peer i).trans (h.peer i)
    fdToSock := fun fd => (h'.fdToSock fd).trans (h.fdToSock fd)
    life := h'.life.trans h.life
    met := h'.met.trans h.met }

theorem still_pour (j : Slot) (data : List UInt8) : Still s (s.pour j data).2 := by
  have hmodify : Still s (s.modify j fun entry => { entry with
      bufLen := entry.bufLen + data.length }) := still_modify rfl rfl rfl
  unfold pour
  dsimp only
  split_ifs <;> exact { hmodify with }

/-- The page of a slot in use. -/
theorem Kept.allocBuf (h : Kept s) (hused : (s.socks j).used = true) (page : ℕ) :
    Kept (s.allocBuf j page).2 ∧ Unmoved s (s.allocBuf j page).2 := by
  unfold Sockets.allocBuf
  split_ifs with hnone hpage
  · exact ⟨h, (Still.refl s).toUnmoved⟩
  · have hentry : ∀ k, ((s.modify j fun entry => { entry with bufPage := page }).socks k) =
        if k = j then { s.socks j with bufPage := page } else s.socks k :=
      socks_modify s j fun entry => { entry with bufPage := page }
    have hunmoved : Unmoved s { s.modify j fun entry => { entry with bufPage := page } with
        mem := update s.mem page fun _ => 0
        pages := update s.pages page true } := by
      refine ⟨fun k => ?_, fun k => ?_, fun _ => rfl, rfl, rfl⟩
      all_goals
        rw [hentry]
        split_ifs with hk
        · rw [hk]
        · rfl
    refine ⟨hunmoved.kept h fun page' => ?_, hunmoved⟩
    dsimp only
    rw [update_apply]
    simp only [hentry]
    constructor
    · intro hpages
      by_cases heq : page' = page
      · subst heq
        exact ⟨hpage, j, by rw [if_pos rfl]; exact hused, by rw [if_pos rfl]⟩
      · rw [if_neg heq] at hpages
        obtain ⟨hne, k, hk, hkpage⟩ := (h.freed page').mp hpages
        -- the slot had no page before
        have hkj : k ≠ j := by
          rintro rfl
          exact hne (hkpage.symm.trans hnone)
        exact ⟨hne, k, by rw [if_neg hkj]; exact hk, by rw [if_neg hkj]; exact hkpage⟩
    · rintro ⟨hne, k, hk, hkpage⟩
      by_cases hkj : k = j
      · rw [if_pos hkj] at hkpage
        rw [if_pos hkpage.symm]
      · rw [if_neg hkj] at hk hkpage
        split_ifs
        · rfl
        · exact (h.freed page').mpr ⟨hne, k, hk, hkpage⟩
  · exact ⟨h, (Still.refl s).toUnmoved⟩

/-- `sys_sendto` may take a page for the other end, which is in use. -/
theorem Kept.sysSendto (h : Kept s) (fd : ℕ) (null : Bool) (data : List UInt8) (page : ℕ) :
    Kept (s.sysSendto fd null data page).2 ∧ Unmoved s (s.sysSendto fd null data page).2 := by
  have hrefl : Kept s ∧ Unmoved s s := ⟨h, (Still.refl s).toUnmoved⟩
  unfold Sockets.sysSendto
  cases null with
  | true => exact hrefl
  | false =>
    simp only [false_eq_true, if_false]
    cases hfd : s.fdToSock fd with
    | none => exact hrefl
    | some i =>
      dsimp only
      cases hpeer : (s.socks i).peer with
      | none => exact hrefl
      | some j =>
        dsimp only
        have hused : (s.socks j).used = true :=
          (h.peers i j ((h.referred i).mpr ⟨fd, hfd⟩) hpeer).1
        have halloc := h.allocBuf hused page
        generalize s.allocBuf j page = result at halloc ⊢
        obtain ⟨ok, s₁⟩ := result
        cases ok with
        | false => exact halloc
        | true =>
          dsimp only at halloc ⊢
          obtain ⟨hkept, hunmoved⟩ := halloc
          split_ifs
          · have hpour : Still s₁ _ := still_pour j
              (data.take (min data.length (sockBufSz - (s₁.socks j).bufLen)))
            exact ⟨hpour.kept hkept, hunmoved.trans hpour.toUnmoved⟩
          · exact ⟨hkept, hunmoved⟩

/-! ## New sockets -/

/-- A slot that was free is taken, and has no descriptor yet. -/
structure Taken (s t : Sockets) (i : Slot) : Prop where
  free : (s.socks i).used = false
  used : ∀ k, (t.socks k).used = if k = i then true else (s.socks k).used
  bufPage : ∀ k, (t.socks k).bufPage = if k = i then 0 else (s.socks k).bufPage
  fdToSock : ∀ fd, t.fdToSock fd = s.fdToSock fd
  pages : t.pages = s.pages
  peers : ∀ a b, (t.socks a).used = true → (t.socks a).peer = some b →
    (t.socks b).used = true ∧ t.life b = t.met a

theorem Kept.take (h : Kept s) (hfree : (s.socks i).used = false) : Taken s (s.take i) i := by
  refine ⟨hfree, fun k => ?_, fun k => ?_, fun _ => rfl, rfl, fun a b hused hpeer => ?_⟩
  · rw [socks_take]
    split_ifs <;> rfl
  · rw [socks_take]
    split_ifs <;> rfl
  rw [socks_take] at hused hpeer ⊢
  by_cases ha : a = i
  · rw [if_pos ha] at hpeer
    cases hpeer
  rw [if_neg ha] at hused hpeer
  obtain ⟨hb, hlife⟩ := h.peers a b hused hpeer
  have hne : b ≠ i := by
    rintro rfl
    rw [hfree] at hb
    cases hb
  rw [if_neg hne]
  exact ⟨hb, (update_of_ne hne ..).trans hlife⟩

/-- The peers after a connection. -/
theorem peers_connect (hused : (t.socks b).used = true)
    (hpeers : ∀ a b, (t.socks a).used = true → (t.socks a).peer = some b →
      (t.socks b).used = true ∧ t.life b = t.met a)
    (i j : Slot) (hi : ((t.connect a b).socks i).used = true)
    (hpeer : ((t.connect a b).socks i).peer = some j) :
    ((t.connect a b).socks j).used = true ∧ (t.connect a b).life j = (t.connect a b).met i := by
  have hstays : ∀ k, ((t.connect a b).socks k).used = (t.socks k).used := by
    intro k
    rw [socks_connect]
    split_ifs with hk
    · rw [hk]
    · rfl
  rw [hstays] at hi ⊢
  rw [socks_connect] at hpeer
  have hmet : (t.connect a b).met i = if i = a then t.life b else t.met i :=
    update_apply ..
  rw [hmet]
  by_cases hia : i = a
  · rw [if_pos hia] at hpeer ⊢
    obtain rfl : b = j := Option.some.inj hpeer
    exact ⟨hused, rfl⟩
  · rw [if_neg hia] at hpeer ⊢
    exact hpeers i j hi hpeer

theorem connect_field {α : Type} (field : SockEntry → α)
    (hfield : ∀ entry, field { entry with peer := some b } = field entry) (k : Slot) :
    field ((t.connect a b).socks k) = field (t.socks k) := by
  rw [socks_connect]
  split_ifs with hk
  · rw [hfield, hk]
  · rfl

/-- A slot that is taken without a descriptor. -/
theorem not_kept_of_lost (hused : (s.socks i).used = true) (hlost : ∀ fd, s.fdToSock fd ≠ some i) :
    ¬ Kept s := by
  intro h
  obtain ⟨fd, hfd⟩ := (h.referred i).mp hused
  exact hlost fd hfd

section

variable (h : Taken s t i)

include h

theorem Taken.still (hstill : Still t u) : Taken s u i := by
  refine ⟨h.free, fun k => (hstill.used k).trans (h.used k),
    fun k => (hstill.bufPage k).trans (h.bufPage k),
    fun fd => (hstill.fdToSock fd).trans (h.fdToSock fd), hstill.pages.trans h.pages,
    fun a b hused hpeer => ?_⟩
  rw [hstill.used] at hused ⊢
  rw [hstill.peer] at hpeer
  rw [hstill.life, hstill.met]
  exact h.peers a b hused hpeer

theorem Taken.connect (hused : (t.socks b).used = true) : Taken s (t.connect a b) i :=
  ⟨h.free, fun k => (connect_field SockEntry.used (fun _ => rfl) k).trans (h.used k),
    fun k => (connect_field SockEntry.bufPage (fun _ => rfl) k).trans (h.bufPage k),
    h.fdToSock, h.pages, peers_connect hused h.peers⟩

theorem Taken.lost (hkept : Kept s) (fd : ℕ) : t.fdToSock fd ≠ some i := by
  rw [h.fdToSock]
  exact hkept.fdToSock_ne h.free fd

theorem Taken.used_self : (t.socks i).used = true := by
  rw [h.used, if_pos rfl]

theorem Taken.findFreeFd (elsewhere : ℕ → Bool) :
    t.findFreeFd elsewhere = s.findFreeFd elsewhere := by
  have hunused : t.unused elsewhere = s.unused elsewhere := by
    funext fd
    unfold unused fdIsSocket
    rw [h.fdToSock]
  unfold Sockets.findFreeFd
  rw [hunused]

/-- The new socket gets a descriptor. -/
theorem Taken.register (hkept : Kept s) (hsingle : Single s) (hfd : fd < maxSockFd)
    (hnone : s.fdToSock fd = none) :
    Kept (t.registerFd fd (some i)) ∧ Single (t.registerFd fd (some i)) := by
  have hto : ∀ fd', (t.registerFd fd (some i)).fdToSock fd' =
      if fd' = fd then some i else s.fdToSock fd' := by
    intro fd'
    rw [fdToSock_registerFd hfd, h.fdToSock]
  have hsame : t.registerFd fd (some i) = { t with fdMap := update t.fdMap fd (some i) } :=
    if_pos hfd
  have hlost := hkept.fdToSock_ne h.free
  constructor
  · refine kept_of (fun k => ?_) (fun page => ?_) ?_
    · simp only [hto]
      rw [socks_registerFd, h.used]
      by_cases hk : k = i
      · rw [if_pos hk]
        exact iff_of_true rfl ⟨fd, by rw [if_pos rfl, hk]⟩
      · rw [if_neg hk, hkept.referred]
        constructor
        · rintro ⟨fd', hfd'⟩
          have hne : fd' ≠ fd := by
            rintro rfl
            rw [hnone] at hfd'
            cases hfd'
          exact ⟨fd', by rw [if_neg hne]; exact hfd'⟩
        · rintro ⟨fd', hfd'⟩
          by_cases heq : fd' = fd
          · rw [if_pos heq] at hfd'
            exact absurd (Option.some.inj hfd').symm hk
          · rw [if_neg heq] at hfd'
            exact ⟨fd', hfd'⟩
    · rw [hsame]
      rw [h.pages, hkept.freed]
      simp only [h.used, h.bufPage]
      refine and_congr_right fun hne => exists_congr fun k => ?_
      by_cases hk : k = i
      · -- neither the slot that was free nor the new one has a page
        rw [if_pos hk, if_pos hk, hk, h.free]
        exact iff_of_false (fun hboth => false_ne_true hboth.1) fun hboth => hne hboth.2.symm
      · rw [if_neg hk, if_neg hk]
    · rw [hsame]
      exact h.peers
  · intro k fd₁ fd₂ h₁ h₂
    rw [hto] at h₁ h₂
    by_cases heq₁ : fd₁ = fd
    · by_cases heq₂ : fd₂ = fd
      · rw [heq₁, heq₂]
      · rw [if_pos heq₁] at h₁
        rw [if_neg heq₂, ← h₁] at h₂
        exact absurd h₂ (hlost fd₂)
    · by_cases heq₂ : fd₂ = fd
      · rw [if_pos heq₂] at h₂
        rw [if_neg heq₁, ← h₂] at h₁
        exact absurd h₁ (hlost fd₁)
      · rw [if_neg heq₁] at h₁
        rw [if_neg heq₂] at h₂
        exact hsingle k fd₁ fd₂ h₁ h₂

end

theorem Kept.connect (h : Kept s) (hused : (s.socks b).used = true) : Kept (s.connect a b) := by
  have hstays : ∀ k, ((s.connect a b).socks k).used = (s.socks k).used :=
    connect_field SockEntry.used fun _ => rfl
  have hpage : ∀ k, ((s.connect a b).socks k).bufPage = (s.socks k).bufPage :=
    connect_field SockEntry.bufPage fun _ => rfl
  refine kept_of (fun k => ?_) (fun page => ?_) (peers_connect hused h.peers)
  · rw [hstays]
    exact h.referred k
  · simp only [hstays, hpage]
    exact h.freed page

/-- The arguments of `socket` that are accepted. -/
def Supported (family sockType : ℕ) : Prop :=
  (family = afInet ∨ family = afUnix) ∧ (sockType = sockStream ∨ sockType = sockDgram)

/-- There is a slot for a socket. -/
def HasSlot (s : Sockets) : Prop := ∃ i, (s.socks i).used = false

/-- A descriptor that a socket can get. -/
def FdFree (s : Sockets) (elsewhere : ℕ → Bool) (fd : ℕ) : Prop :=
  3 ≤ fd ∧ fd < maxSockFd ∧ s.unused elsewhere fd = true

theorem not_findFreeFd_iff : s.findFreeFd elsewhere = none ↔ ¬ ∃ fd, FdFree s elsewhere fd :=
  findFreeFd_eq_none

theorem fdFree_of_findFreeFd (h : s.findFreeFd elsewhere = some fd) : FdFree s elsewhere fd :=
  ⟨(findFreeFd_eq h).low_le, (findFreeFd_eq h).lt_high, (findFreeFd_eq h).holds⟩

theorem allocSock_of_hasSlot (h : HasSlot s) : ∃ i, (s.socks i).used = false ∧
    s.allocSock = some (i, s.take i) := by
  cases halloc : s.allocSock with
  | none =>
    obtain ⟨i, hfree⟩ := h
    rw [allocSock_eq_none_iff.mp halloc i] at hfree
    cases hfree
  | some result =>
    obtain ⟨i, s'⟩ := result
    obtain ⟨hfree, rfl⟩ := allocSock_eq halloc
    exact ⟨i, hfree, rfl⟩

theorem allocSock_of_not_hasSlot (h : ¬ HasSlot s) : s.allocSock = none :=
  allocSock_eq_none_iff.mpr fun i => by
    by_contra hused
    exact h ⟨i, by simpa using hused⟩

/-- The slots are as they should be exactly under a condition, and then each has one descriptor. -/
structure Exact (t : Sockets) (fits : Prop) : Prop where
  iff : Kept t ↔ fits
  single : fits → Single t

section

variable {fits fits' : Prop}

theorem Exact.good (h : Kept t) (hsingle : Single t) (hfits : fits) : Exact t fits :=
  ⟨iff_of_true h hfits, fun _ => hsingle⟩

theorem Exact.bad (h : ¬ Kept t) (hfits : ¬ fits) : Exact t fits :=
  ⟨iff_of_false h hfits, fun h => absurd h hfits⟩

theorem Exact.congr (h : Exact t fits) (hiff : fits ↔ fits') : Exact t fits' :=
  ⟨h.iff.trans hiff, fun hfits => h.single (hiff.mpr hfits)⟩

end

section Calls

variable {family sockType protocol : ℕ}

theorem sysSocket_refused (h : ¬ (Supported family sockType ∧ HasSlot s)) :
    ∃ e : ℤ, e < 0 ∧ s.sysSocket family sockType protocol elsewhere = (.of e, s) := by
  unfold sysSocket
  split_ifs with hfamily htype
  · exact ⟨_, by decide, rfl⟩
  · exact ⟨_, by decide, rfl⟩
  · have hsupported : Supported family sockType :=
      ⟨by tauto, by tauto⟩
    rw [allocSock_of_not_hasSlot fun hslot => h ⟨hsupported, hslot⟩]
    exact ⟨_, by decide, rfl⟩

theorem Kept.sysSocket (h : Kept s) (hsupported : Supported family sockType) (hslot : HasSlot s) :
    ∃ i t, Taken s t i ∧
      s.sysSocket family sockType protocol elsewhere = t.offer i elsewhere := by
  obtain ⟨i, hfree, halloc⟩ := allocSock_of_hasSlot hslot
  obtain ⟨hfamily, htype⟩ := hsupported
  have htaken : Taken s ((s.take i).modify i fun entry =>
      { entry with family := family, sockType := sockType, protocol := protocol }) i :=
    (h.take hfree).still (still_modify rfl rfl rfl)
  refine ⟨i, _, htaken, ?_⟩
  unfold Sockets.sysSocket
  rw [if_neg (by tauto), if_neg (by tauto), halloc]

theorem Kept.sysAccept (h : Kept s) (hfd : s.fdToSock fd = some j) (hslot : HasSlot s) :
    ∃ i t, Taken s t i ∧ s.sysAccept fd elsewhere = t.offer i elsewhere := by
  obtain ⟨i, hfree, halloc⟩ := allocSock_of_hasSlot hslot
  have hused : (s.socks j).used = true := (h.referred j).mpr ⟨fd, hfd⟩
  have htaken : Taken s ((s.take i).modify i fun entry => { entry with
      family := ((s.take i).socks j).family
      sockType := ((s.take i).socks j).sockType
      protocol := ((s.take i).socks j).protocol }) i :=
    (h.take hfree).still (still_modify rfl rfl rfl)
  have hconnected := (htaken.connect (a := i) (by rw [htaken.used, hused, ite_self]))
  refine ⟨i, _, hconnected.connect (a := j) hconnected.used_self, ?_⟩
  unfold Sockets.sysAccept
  rw [hfd]
  rw [halloc]

theorem Taken.offer_exact (htaken : Taken s t i) (h : Kept s) (hsingle : Single s) :
    Exact (t.offer i elsewhere).2 (∃ fd, FdFree s elsewhere fd) := by
  unfold offer
  rw [htaken.findFreeFd]
  cases hfind : s.findFreeFd elsewhere with
  | none =>
    exact .bad (not_kept_of_lost htaken.used_self (htaken.lost h)) (not_findFreeFd_iff.mp hfind)
  | some fd =>
    have hfree := fdFree_of_findFreeFd hfind
    obtain ⟨hkept, hone⟩ := htaken.register h hsingle hfree.2.1 (fdToSock_of_unused hfree.2.2)
    exact .good hkept hone ⟨fd, hfree⟩

/-- The descriptor of a socket is taken back. -/
theorem not_kept_of_unregister (hsingle : Single s) (hfd : s.fdToSock fd = some i)
    (hused : (t.socks i).used = true) (hto : ∀ fd, t.fdToSock fd = s.fdToSock fd) :
    ¬ Kept (t.registerFd fd none) := by
  refine not_kept_of_lost (i := i) ?_ fun fd' hfd' => ?_
  · rw [socks_registerFd]
    exact hused
  · rw [fdToSock_registerFd (fdToSock_lt hfd), hto] at hfd'
    split_ifs at hfd' with heq
    exact heq (hsingle i fd' fd hfd' hfd)

/-- The first half of `socketpair` that gets a descriptor. -/
theorem fdFree_registerFd (htaken : Taken s t i) (hfd : fd < maxSockFd) {fd' : ℕ} :
    FdFree (t.registerFd fd (some i)) elsewhere fd' ↔ FdFree s elsewhere fd' ∧ fd' ≠ fd := by
  unfold FdFree unused fdIsSocket
  rw [fdToSock_registerFd hfd, htaken.fdToSock]
  by_cases heq : fd' = fd
  · simp [heq]
  · simp [heq]

/-- Two slots and two descriptors for the ends. -/
def RoomForTwo (s : Sockets) (elsewhere : ℕ → Bool) : Prop :=
  (∃ a b, a ≠ b ∧ (s.socks a).used = false ∧ (s.socks b).used = false) ∧
    ∃ fd fd', fd ≠ fd' ∧ FdFree s elsewhere fd ∧ FdFree s elsewhere fd'

section

variable (h : Kept s) (hsingle : Single s)

include h hsingle

theorem Kept.socket_exact : Exact (s.sysSocket family sockType protocol elsewhere).2
      (Supported family sockType → HasSlot s → ∃ fd, FdFree s elsewhere fd) := by
  by_cases htakes : Supported family sockType ∧ HasSlot s
  · obtain ⟨hsupported, hslot⟩ := htakes
    obtain ⟨i, t, htaken, heq⟩ := h.sysSocket hsupported hslot
    rw [heq]
    exact (htaken.offer_exact h hsingle).congr
      ⟨fun hfree _ _ => hfree, fun hfits => hfits hsupported hslot⟩
  · obtain ⟨e, -, heq⟩ := sysSocket_refused htakes
    rw [heq]
    exact .good h hsingle fun hsupported hslot => absurd ⟨hsupported, hslot⟩ htakes

theorem Kept.accept_exact (fd : ℕ) : Exact (s.sysAccept fd elsewhere).2
      (s.fdIsSocket fd = true → HasSlot s → ∃ fd', FdFree s elsewhere fd') := by
  cases hfd : s.fdToSock fd with
  | none =>
    have hsame : (s.sysAccept fd elsewhere).2 = s := by
      unfold Sockets.sysAccept
      rw [hfd]
    rw [hsame]
    refine .good h hsingle fun hsocket => ?_
    unfold fdIsSocket at hsocket
    rw [hfd] at hsocket
    cases hsocket
  | some j =>
    have hsocket : s.fdIsSocket fd = true := by
      unfold fdIsSocket
      rw [hfd, Option.isSome_some]
    by_cases hslot : HasSlot s
    · obtain ⟨i, t, htaken, heq⟩ := h.sysAccept hfd hslot
      rw [heq]
      exact (htaken.offer_exact h hsingle).congr
        ⟨fun hfree _ _ => hfree, fun hfits => hfits hsocket hslot⟩
    · have hsame : (s.sysAccept fd elsewhere).2 = s := by
        unfold Sockets.sysAccept
        rw [hfd]
        rw [allocSock_of_not_hasSlot hslot]
      rw [hsame]
      exact .good h hsingle fun _ hhas => absurd hhas hslot

/-- A closed socket keeps its slot. -/
theorem Kept.close_exact (fd : ℕ) :
    Exact (if s.fdIsSocket fd then s.closeSocket fd else s) (s.fdIsSocket fd = false) := by
  cases hsocket : s.fdIsSocket fd with
  | false => exact .good h hsingle rfl
  | true =>
    obtain ⟨i, hfd⟩ := Option.isSome_iff_exists.mp hsocket
    refine .bad ?_ (by simp)
    unfold closeSocket
    rw [hfd]
    refine not_kept_of_unregister hsingle hfd ?_ fun fd' => ?_
    · unfold freeBuf
      split_ifs
      · exact (h.referred i).mpr ⟨fd, hfd⟩
      · rw [socks_modify, if_pos rfl]
        exact (h.referred i).mpr ⟨fd, hfd⟩
    · unfold freeBuf
      split_ifs <;> rfl

/-- The second half of `socketpair`. -/
theorem pair_second (hsupported : Supported family sockType) (htaken : Taken s t i)
    (hfind : s.findFreeFd elsewhere = some fd) :
    Exact ((t.registerFd fd (some i)).pairWith fd family sockType protocol elsewhere).2
      (RoomForTwo s elsewhere) := by
  have hfree := fdFree_of_findFreeFd hfind
  obtain ⟨hkept₁, hsingle₁⟩ :=
    htaken.register h hsingle hfree.2.1 (fdToSock_of_unused hfree.2.2)
  have hfd₁ : (t.registerFd fd (some i)).fdToSock fd = some i := by
    rw [fdToSock_registerFd hfree.2.1, if_pos rfl]
  have hused₁ : ∀ k, ((t.registerFd fd (some i)).socks k).used =
      if k = i then true else (s.socks k).used := by
    intro k
    rw [socks_registerFd, htaken.used]
  have hfdFree : ∀ fd', FdFree (t.registerFd fd (some i)) elsewhere fd' ↔
      FdFree s elsewhere fd' ∧ fd' ≠ fd := fun fd' => fdFree_registerFd htaken hfree.2.1
  generalize t.registerFd fd (some i) = s₁ at *
  unfold pairWith
  by_cases hslot : HasSlot s₁
  · obtain ⟨j, t₂, htaken₂, heq₂⟩ := hkept₁.sysSocket hsupported hslot
    rw [heq₂]
    unfold offer
    rw [htaken₂.findFreeFd]
    cases hfind₂ : s₁.findFreeFd elsewhere with
    | none =>
      refine .bad ?_ ?_
      · refine not_kept_of_unregister hsingle₁ hfd₁ ?_ htaken₂.fdToSock
        rw [htaken₂.used, hused₁, if_pos rfl, ite_self]
      · rintro ⟨-, fd₁, fd₂, hne, hfree₁, hfree₂⟩
        refine not_findFreeFd_iff.mp hfind₂ ?_
        by_cases heq : fd₁ = fd
        · exact ⟨fd₂, (hfdFree fd₂).mpr ⟨hfree₂, fun h => hne (heq.trans h.symm)⟩⟩
        · exact ⟨fd₁, (hfdFree fd₁).mpr ⟨hfree₁, heq⟩⟩
    | some fd₂ =>
      have hfree₂ := fdFree_of_findFreeFd hfind₂
      obtain ⟨hfreeS, hne⟩ := (hfdFree fd₂).mp hfree₂
      obtain ⟨hkept₂, hsingle₂⟩ :=
        htaken₂.register hkept₁ hsingle₁ hfree₂.2.1 (fdToSock_of_unused hfree₂.2.2)
      have hto : (t₂.registerFd fd₂ (some j)).fdToSock fd = some i := by
        rw [fdToSock_registerFd hfree₂.2.1, if_neg hne.symm, htaken₂.fdToSock, hfd₁]
      have hto' : (t₂.registerFd fd₂ (some j)).fdToSock fd₂ = some j := by
        rw [fdToSock_registerFd hfree₂.2.1, if_pos rfl]
      dsimp only [Reply.of]
      rw [Int.toNat_natCast, hto, hto']
      have hij : i ≠ j := by
        rintro rfl
        have hfreeI := htaken₂.free
        rw [hused₁, if_pos rfl] at hfreeI
        cases hfreeI
      have hfreeJ : (s.socks j).used = false := by
        have hfreeJ := htaken₂.free
        rwa [hused₁, if_neg hij.symm] at hfreeJ
      refine .good ?_ hsingle₂ ⟨⟨i, j, hij, htaken.free, hfreeJ⟩, fd, fd₂, hne.symm, hfree, hfreeS⟩
      have hconnected := hkept₂.connect (a := i) ((hkept₂.referred j).mpr ⟨fd₂, hto'⟩)
      exact hconnected.connect ((hconnected.referred i).mpr ⟨fd, hto⟩)
  · obtain ⟨e, he, heq₂⟩ := sysSocket_refused fun hboth => hslot hboth.2
    rw [heq₂]
    dsimp only [Reply.of]
    rw [if_pos he]
    refine .bad ?_ ?_
    · refine not_kept_of_unregister hsingle₁ hfd₁ ?_ fun _ => rfl
      rw [hused₁, if_pos rfl]
    · rintro ⟨⟨a, b, hne, ha, hb⟩, -⟩
      refine hslot ?_
      by_cases heq : a = i
      · have hbi : b ≠ i := fun h => hne (heq.trans h.symm)
        exact ⟨b, by rw [hused₁, if_neg hbi]; exact hb⟩
      · exact ⟨a, by rw [hused₁, if_neg heq]; exact ha⟩

theorem Kept.socketpair_exact (null : Bool) :
    Exact (s.sysSocketpair family sockType protocol null elsewhere).2
      (null = false → Supported family sockType → HasSlot s → RoomForTwo s elsewhere) := by
  unfold sysSocketpair
  cases null with
  | true => exact .good h hsingle nofun
  | false =>
    simp only [false_eq_true, if_false]
    by_cases htakes : Supported family sockType ∧ HasSlot s
    · obtain ⟨hsupported, hslot⟩ := htakes
      obtain ⟨i, t, htaken, heq⟩ := h.sysSocket hsupported hslot
      rw [heq]
      unfold offer
      rw [htaken.findFreeFd]
      cases hfind : s.findFreeFd elsewhere with
      | none =>
        refine .bad (not_kept_of_lost htaken.used_self (htaken.lost h)) fun hfits => ?_
        obtain ⟨-, fd, -, -, hfree, -⟩ := hfits trivial hsupported hslot
        exact not_findFreeFd_iff.mp hfind ⟨fd, hfree⟩
      | some fd =>
        exact (pair_second h hsingle hsupported htaken hfind).congr
          ⟨fun hroom _ _ _ => hroom, fun hfits => hfits trivial hsupported hslot⟩
    · obtain ⟨e, he, heq⟩ := sysSocket_refused htakes
      rw [heq]
      simp only [Reply.of, he]
      exact .good h hsingle fun _ hsupported hslot => absurd ⟨hsupported, hslot⟩ htakes

end

end Calls

/-! ## Runs -/

/-- The call takes no slot that it does not find a descriptor for, and closes no socket. -/
def CallFits (s : Sockets) : Call → Prop
  | .socket family sockType _ elsewhere =>
    Supported family sockType → HasSlot s → ∃ fd, FdFree s elsewhere fd
  | .socketpair family sockType _ null elsewhere =>
    null = false → Supported family sockType → HasSlot s → RoomForTwo s elsewhere
  | .accept fd elsewhere => s.fdIsSocket fd = true → HasSlot s → ∃ fd', FdFree s elsewhere fd'
  | .close fd => s.fdIsSocket fd = false
  | .sendto .. => True
  | .recvfrom .. => True

/-- The slots are as they should be after the call. -/
def KeptAfter (s : Sockets) (c : Call) : Prop := ∀ s', s.step c = .ok s' → Kept s'

theorem Kept.call_exact (h : Kept s) (hsingle : Single s) (c : Call) :
    Exact (s.call c).2 (CallFits s c) := by
  cases c with
  | socket family sockType protocol elsewhere => exact h.socket_exact hsingle
  | socketpair family sockType protocol null elsewhere => exact h.socketpair_exact hsingle null
  | accept fd elsewhere => exact h.accept_exact hsingle fd
  | close fd => exact h.close_exact hsingle fd
  | sendto fd null data page =>
    obtain ⟨hkept, hunmoved⟩ := h.sysSendto fd null data page
    exact .good hkept (hunmoved.single hsingle) trivial
  | recvfrom fd null len =>
    have hstill : Still s _ := still_sysRecvfrom fd null len
    exact .good (hstill.kept h) (hstill.toUnmoved.single hsingle) trivial

theorem keptAfter_iff (h : Kept s) (hsingle : Single s) (c : Call) :
    KeptAfter s c ↔ CallFits s c := by
  refine Iff.trans ⟨fun hkept => hkept _ rfl, fun hkept s' hstep => ?_⟩ (h.call_exact hsingle c).iff
  cases hstep
  exact hkept

theorem Kept.start : Kept .start :=
  kept_of (fun _ => iff_of_false false_ne_true (by simp [Sockets.start, fdToSock]))
    (fun _ => iff_of_false false_ne_true fun h => h.2.elim fun _ hboth =>
      false_ne_true hboth.1)
    fun _ _ hused => absurd hused false_ne_true

/-- The slots are as they should be in every state of a run exactly if its calls fit. -/
theorem kept_run_iff (calls : List Call) :
    Guarded Sockets.step KeptAfter calls .start ↔ Guarded Sockets.step CallFits calls .start := by
  refine guarded_iff (fun s c (h : Kept s ∧ Single s) => keptAfter_iff h.1 h.2 c)
    (fun s c next h _ hkept hnext => ⟨hkept next hnext, ?_⟩)
    ⟨.start, fun i fd fd' hfd => ?_⟩ (guarded_of_forall (fun _ _ _ => trivial) start)
  · have hexact := h.1.call_exact h.2 c
    cases hnext
    exact hexact.single (hexact.iff.mp (hkept _ rfl))
  · simp [start, fdToSock] at hfd

theorem fdToSock_all {p : Option Slot → Prop} (hnone : p none)
    (hbelow : ∀ fd < maxSockFd, p (s.fdMap fd)) (fd : ℕ) : p (s.fdToSock fd) := by
  unfold fdToSock
  split_ifs with hlt
  · exact hbelow fd hlt
  · exact hnone

/-- Four sockets that are opened and closed one after the other; there is no fifth. -/
theorem closed_sockets_stay :
    (¬ ∀ calls, Guarded Sockets.step KeptAfter calls .start) ∧
    ∃ s, run Sockets.step (List.replicate 4 [.socket 1 1 0 fun _ => false, .close 3]).flatten .start =
      .ok s ∧ (∀ fd, s.fdToSock fd = none) ∧
        (s.call (.socket 1 1 0 fun _ => false)).1.value = -enomem := by
  constructor
  · intro hall
    obtain ⟨-, hrest⟩ := hall [.socket 1 1 0 fun _ => false, .close 3]
    obtain ⟨hclosed, -⟩ := hrest _ rfl
    have hkept := hclosed _ rfl
    refine not_kept_of_lost (i := 0) (by decide) (fun fd => ?_) hkept
    exact fdToSock_all (p := fun entry => entry ≠ some 0) (by decide) (by decide +kernel) fd
  · refine ⟨_, rfl, fun fd => ?_, by decide⟩
    exact fdToSock_all (p := fun entry => entry = none) rfl (by decide +kernel) fd

end Shitix.Net
