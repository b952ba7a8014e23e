import CQMSan.Runtime.GlibcAlloc

/-!
# Runs of the glibc passthrough allocator

A `GlibcHeap` is a state of the process with two ghost lists: the blocks the application holds
and the blocks it has freed whose memory glibc has not handed out again. A run interleaves calls
of the entry points, writes of the application into its own blocks, and writes of glibc, which
may write anywhere outside live blocks but only the first 16 bytes of a freed one.

The invariant (`GlibcInv`) is about the header words: the header of a live block is intact, the
marker of a freed block is still there, and the raw blocks do not overlap. Each operation gets
one lemma about what it writes, and `glibcInv_of_run` follows from them by induction on the run.
-/

namespace CQMSan

open ByteMemory

instance (p n q k : ℕ) : Decidable (Apart p n q k) := inferInstanceAs (Decidable (_ ∨ _))

/-- Two raw blocks do not overlap. -/
def GlibcBlock.ApartFrom (b c : GlibcBlock) : Prop := Apart b.raw.toNat b.real c.raw.toNat c.real

instance (b c : GlibcBlock) : Decidable (b.ApartFrom c) :=
  inferInstanceAs (Decidable (Apart _ _ _ _))

/-! ### Requests -/

/-- The size and the alignment a request asks of `CQMsanAllocate`. -/
def Request.wants : Request → Option (Uptr × Uptr)
  | .allocate size alignment _ _ => some (size, alignment)
  | .reallocate _ size => some (size, 8#64)
  | _ => none

/-- The block a request is about. -/
def Request.pointer : Request → Option Uptr
  | .deallocate p => some p
  | .reallocate p _ => some p
  | _ => none

/-- Whether a request that returned `ret` has given the block at `p` back. -/
def Request.releases (r : Request) (ret : Option Uptr) (p : Uptr) : Bool :=
  match r with
  | .deallocate q => p == q
  | .reallocate q _ => ret.isSome && p == q
  | _ => false

/-- Only the block a request is about can be given back. -/
theorem Request.releases_eq_false {r : Request} {ret : Option Uptr} {p : Uptr}
    (h : r.pointer ≠ some p) : r.releases ret p = false := by
  have hq : ∀ q, r.pointer = some q → (p == q) = false := by
    rintro q hq
    rw [beq_eq_false_iff_ne]
    rintro rfl
    exact h hq
  cases r with
  | deallocate q => exact hq q rfl
  | reallocate q n => rw [releases, hq q rfl, Bool.and_false]
  | reject d => rfl
  | nothing => rfl
  | allocate size alignment zero check => rfl

/-! ### Runs -/

/-- The process with the blocks it holds. -/
structure GlibcHeap where
  /-- The state of the process. -/
  st : GlibcState
  /-- The blocks the application holds. -/
  live : List GlibcBlock
  /-- The freed blocks whose memory was not handed out again. -/
  freed : List GlibcBlock

/-- The answer in which glibc grants `grant`. -/
def grantAnswer (rss : Bool) (grant : Option GlibcBlock) : GlibcAnswer :=
  ⟨rss, grant.map GlibcBlock.raw⟩

/-- What glibc may grant for a request: a block that serves it, apart from every live one. -/
def GlibcHeap.MayGrant (h : GlibcHeap) (r : Request) (grant : Option GlibcBlock) : Prop :=
  ∀ b ∈ grant, r.wants = some (b.size, b.alignment) ∧ ∀ c ∈ h.live, b.ApartFrom c

/-- The blocks a finished request has taken. -/
def taken (grant : Option GlibcBlock) (ret : Option Uptr) : List GlibcBlock :=
  if ret.isSome then grant.toList else []

/-- The heap after a request. -/
def GlibcHeap.after (h : GlibcHeap) (r : Request) (grant : Option GlibcBlock)
    (ret : Option Uptr) (st : GlibcState) : GlibcHeap where
  st := st
  live := taken grant ret ++ h.live.filter fun b => !r.releases ret b.user
  freed := (h.live.filter fun b => r.releases ret b.user) ++
    h.freed.filter fun b => ∀ t ∈ taken grant ret, b.ApartFrom t

/-- One step of a run. -/
inductive GlibcStep (f : Flags) : GlibcHeap → GlibcHeap → Prop
  /-- An entry point is called, on a live block if it is about one, and returns. -/
  | call {h : GlibcHeap} (c : Call) (rss : Bool) (grant : Option GlibcBlock) (ret : Option Uptr)
      (st : GlibcState) (hgrant : h.MayGrant c.request grant)
      (hptr : ∀ p ∈ c.request.pointer, ∃ b ∈ h.live, b.user = p)
      (hexec : c.exec (glibcBackend f) f (grantAnswer rss grant) h.st = .ok ret st) :
      GlibcStep f h (h.after c.request grant ret st)
  /-- The application writes a byte of one of its blocks. -/
  | write {h : GlibcHeap} (b : GlibcBlock) (i : ℕ) (v : U8) (hb : b ∈ h.live)
      (hi : i < b.size.toNat) :
      GlibcStep f h { h with st.data := Function.update h.st.data (b.user.toNat + i) v }
  /-- Instrumented code writes the shadow of a byte of one of its blocks. -/
  | writeShadow {h : GlibcHeap} (b : GlibcBlock) (i : ℕ) (v : U8) (hb : b ∈ h.live)
      (hi : i < b.size.toNat) :
      GlibcStep f h
        { h with st.shadow := Function.update h.st.shadow (shadowOf (b.user.toNat + i)) v }
  /-- glibc writes its own bookkeeping. -/
  | libcWrite {h : GlibcHeap} (a : ℕ) (v : U8)
      (hlive : ∀ b ∈ h.live, a < b.raw.toNat ∨ b.raw.toNat + b.real ≤ a)
      (hfreed : ∀ b ∈ h.freed, a < b.raw.toNat + 16 ∨ b.raw.toNat + b.real ≤ a) :
      GlibcStep f h { h with st.data := Function.update h.st.data a v }

/-- The heap of a process that has not allocated yet. -/
def GlibcHeap.Initial (h : GlibcHeap) : Prop := h.live = [] ∧ h.freed = []

/-! ### Header words -/

/-- The header of the block is intact. -/
structure GlibcBlock.Headed (b : GlibcBlock) (d : Mem) : Prop where
  size : headerWord d b.user 1 = b.size
  slot : headerWord d b.user 2 = b.headerSlot
  canary : headerWord d b.user 3 = cqmsanCanaryFor b.user

/-- The block carries the marker of a freed block. -/
def GlibcBlock.Marked (b : GlibcBlock) (d : Mem) : Prop :=
  headerWord d b.user 1 = cqmsanFreedCanaryFor b.user

theorem headerWord_setHeaderWord (d : Mem) (p : Uptr) (i : ℕ) (w : Uptr) :
    headerWord (setHeaderWord d p i w) p i = w := by
  rw [headerWord, setHeaderWord, loadLE_storeLE]
  apply BitVec.eq_of_toNat_eq
  have := w.isLt
  rw [BitVec.toNat_ofNat]
  omega

namespace GlibcBlock

variable {b c : GlibcBlock} {d d' : Mem}

theorem headerWord_congr {i : ℕ} (hi : i ≤ 3)
    (h : AgreeOn d d' (b.raw.toNat + b.headerSlot.toNat - 8 * i) 8) :
    headerWord d' b.user i = headerWord d b.user i := by
  rw [headerWord, headerWord, b.headerAddr_eq hi, loadLE_congr h]

theorem agreeOn_setHeaderWord {i : ℕ} (w : Uptr) (hi : i ≤ 3) {q k : ℕ}
    (h : Apart (b.raw.toNat + b.headerSlot.toNat - 8 * i) 8 q k) :
    AgreeOn d (setHeaderWord d b.user i w) q k := by
  rw [setHeaderWord, b.headerAddr_eq hi]
  exact agreeOn_storeLE h

theorem headerWord_setHeaderWord_of_ne {i j : ℕ} (w : Uptr) (hi : i ≤ 3) (hj : j ≤ 3)
    (hij : i ≠ j) : headerWord (setHeaderWord d b.user j w) b.user i = headerWord d b.user i := by
  have hge := b.headerSlot_ge
  refine headerWord_congr hi (agreeOn_setHeaderWord w hj ?_)
  rcases Nat.lt_or_gt_of_ne hij with h | h
  · exact Or.inl (by omega)
  · exact Or.inr (by omega)

/-- The header of a block survives whatever leaves the three words alone. -/
theorem Headed.congr (h : b.Headed d)
    (ha : AgreeOn d d' (b.raw.toNat + b.headerSlot.toNat - 24) 24) : b.Headed d' := by
  have hge := b.headerSlot_ge
  refine ⟨?_, ?_, ?_⟩
  · rw [headerWord_congr (by omega) (ha.mono (by omega) (by omega))]; exact h.size
  · rw [headerWord_congr (by omega) (ha.mono (by omega) (by omega))]; exact h.slot
  · rw [headerWord_congr (by omega) (ha.mono (by omega) (by omega))]; exact h.canary

theorem Headed.congr_raw (h : b.Headed d) (ha : AgreeOn d d' b.raw.toNat b.real) :
    b.Headed d' := by
  have h1 := b.headerSlot_ge
  have h2 := b.headerSlot_add_size_le
  exact h.congr (ha.mono (by omega) (by omega))

/-- The marker lies outside the first 16 bytes of the raw block. -/
theorem Marked.congr (h : b.Marked d)
    (ha : AgreeOn d d' (b.raw.toNat + 16) (b.real - 16)) : b.Marked d' := by
  have h1 := b.headerSlot_ge
  have h2 := b.headerSlot_add_size_le
  rw [Marked, headerWord_congr (by omega) (ha.mono (by omega) (by omega))]
  exact h

theorem Marked.congr_raw (h : b.Marked d) (ha : AgreeOn d d' b.raw.toNat b.real) :
    b.Marked d' := by
  have h1 := b.headerSlot_ge
  have h2 := b.headerSlot_add_size_le
  exact h.congr (ha.mono (by omega) (by omega))

theorem Headed.headerCheck (h : b.Headed d) : headerCheck d b.user = none := by
  rw [CQMSan.headerCheck, h.size, if_neg b.size_ne_freedCanary, h.canary]
  simp

theorem Marked.headerCheck (h : b.Marked d) : headerCheck d b.user = some .doubleFree := by
  exact if_pos h

/-- Raw blocks that do not overlap have different user pointers. -/
theorem ApartFrom.user_ne (h : b.ApartFrom c) : b.user ≠ c.user := by
  intro heq
  have hb := b.user_toNat
  have hc := c.user_toNat
  have hb1 := b.headerSlot_ge
  have hc1 := c.headerSlot_ge
  have hb2 := b.headerSlot_add_size_le
  have hc2 := c.headerSlot_add_size_le
  rw [heq] at hb
  rcases h with h | h <;> omega

theorem ApartFrom.symm (h : b.ApartFrom c) : c.ApartFrom b := Apart.symm h

end GlibcBlock

/-! ### What the operations write -/

section Operations

variable (f : Flags) (b : GlibcBlock) (zero : Bool) (s : GlibcState)

/-- The outcome of granting `b` for its own request. -/
abbrev granted : Uptr × GlibcState := glibcAllocated f b.raw b.size b.alignment zero s

/-- An allocation writes inside its raw block only. -/
theorem agreeOn_granted {q k : ℕ} (h : Apart b.raw.toNat b.real q k) :
    AgreeOn s.data (granted f b zero s).2.data q k := by
  have hge := b.headerSlot_ge
  have hle := b.headerSlot_add_size_le
  have hin : ∀ i : ℕ, i ≤ 3 → 1 ≤ i →
      Apart (b.raw.toNat + b.headerSlot.toNat - 8 * i) 8 q k := by
    intro i hi hi1
    rcases h with h | h
    · exact Or.inl (by omega)
    · exact Or.inr (by omega)
  have hzero : AgreeOn s.data
      (if zero then fill s.data b.raw.toNat b.real 0#8 else s.data) q k := by
    split_ifs
    · exact agreeOn_fill h
    · exact AgreeOn.refl _ _ _
  exact ((hzero.trans (b.agreeOn_setHeaderWord _ (by omega) (hin 1 (by omega) le_rfl))).trans
    (b.agreeOn_setHeaderWord _ (by omega) (hin 2 (by omega) (by omega)))).trans
    (b.agreeOn_setHeaderWord _ (by omega) (hin 3 (by omega) (by omega)))

/-- An allocation leaves an intact header. -/
theorem headed_granted : b.Headed (granted f b zero s).2.data := by
  have hdata : (granted f b zero s).2.data = setHeaderWord (setHeaderWord (setHeaderWord
      (if zero then fill s.data b.raw.toNat b.real 0#8 else s.data) b.user 1 b.size)
      b.user 2 b.headerSlot) b.user 3 (cqmsanCanaryFor b.user) := rfl
  rw [hdata]
  refine ⟨?_, ?_, headerWord_setHeaderWord ..⟩
  · rw [b.headerWord_setHeaderWord_of_ne _ (by omega) (by omega) (by omega),
      b.headerWord_setHeaderWord_of_ne _ (by omega) (by omega) (by omega),
      headerWord_setHeaderWord]
  · rw [b.headerWord_setHeaderWord_of_ne _ (by omega) (by omega) (by omega),
      headerWord_setHeaderWord]

/-- A deallocation writes one header word. -/
theorem agreeOn_released {q k : ℕ}
    (h : Apart (b.raw.toNat + b.headerSlot.toNat - 8) 8 q k) :
    AgreeOn s.data (glibcReleased f b.user s).data q k :=
  b.agreeOn_setHeaderWord _ (by omega) h

theorem marked_released : b.Marked (glibcReleased f b.user s).data :=
  headerWord_setHeaderWord ..

/-- A deallocation gives glibc its own pointer back. -/
theorem libcFree_released (h : b.Headed s.data) :
    (glibcReleased f b.user s).libcFree = b.raw :: s.libcFree := by
  have hraw : b.user - b.headerSlot = b.raw := BitVec.add_sub_cancel ..
  simp only [glibcReleased, h.slot, hraw]

end Operations

/-- What `CQMsanAllocate` can do with the grant of its own request. -/
theorem glibcAllocate_cases (f : Flags) (rss : Bool) {grant : Option GlibcBlock}
    {size alignment : Uptr} (zero : Bool) (s : GlibcState)
    (hgrant : ∀ b ∈ grant, b.size = size ∧ b.alignment = alignment) :
    (∃ d, d ≠ .doubleFree ∧ d ≠ .corruptedHeader ∧
      glibcAllocate f (grantAnswer rss grant) size alignment zero s = .error d s) ∨
    glibcAllocate f (grantAnswer rss grant) size alignment zero s = .ok none s ∨
    ∃ b, grant = some b ∧ glibcAllocate f (grantAnswer rss grant) size alignment zero s =
      .ok (some b.user) (granted f b zero s).2 := by
  have hfail : ∀ d : Die, d ≠ .doubleFree → d ≠ .corruptedHeader →
      (∃ d', d' ≠ .doubleFree ∧ d' ≠ .corruptedHeader ∧
        (f.fail d s : Outcome GlibcState (Option Uptr)) = .error d' s) ∨
      (f.fail d s : Outcome GlibcState (Option Uptr)) = .ok none s := by
    intro d h1 h2
    rw [Flags.fail]
    split_ifs
    · exact Or.inr rfl
    · exact Or.inl ⟨d, h1, h2, rfl⟩
  rw [← or_assoc, glibcAllocate]
  split_ifs
  · exact Or.inl (hfail _ (by decide) (by decide))
  · exact Or.inl (hfail _ (by decide) (by decide))
  · cases grant with
    | none => exact Or.inl (hfail _ (by decide) (by decide))
    | some b =>
      obtain ⟨rfl, rfl⟩ := hgrant b rfl
      simp only [grantAnswer, Option.map_some]
      split_ifs
      · exact Or.inl (Or.inl ⟨_, by decide, by decide, rfl⟩)
      · exact Or.inr ⟨b, rfl, rfl⟩

/-- Within the limits `CQMsanAllocate` takes the block that glibc grants. -/
theorem glibcAllocate_granted {f : Flags} {b : GlibcBlock} (zero : Bool) (s : GlibcState)
    (hmax : b.size ≤ f.maxMallocSize) :
    glibcAllocate f (grantAnswer false (some b)) b.size b.alignment zero s =
      .ok (some b.user) (granted f b zero s).2 := by
  have hreal := b.real_eq
  have hpos : 0 < b.real := by omega
  have hraw := b.raw_add_real_le
  have hlast : (b.raw + realSize b.size b.alignment - 1#64).toNat =
      b.raw.toNat + (b.real - 1) := by
    rw [GlibcBlock.real] at hpos hraw ⊢
    bv_omega
  have hfirst : memIsApp b.raw.toNat = true := b.app 0 hpos
  have hend : memIsApp (b.raw + realSize b.size b.alignment - 1#64).toNat = true := by
    rw [hlast]
    exact b.app (b.real - 1) (by omega)
  rw [glibcAllocate, if_neg (BitVec.not_lt.mpr hmax)]
  simp only [grantAnswer, Option.map_some, Bool.false_eq_true, if_false, hfirst, hend,
    Bool.not_true, Bool.or_self]
  rfl

/-! ### The invariant -/

/-- What holds in every state of a run. -/
structure GlibcInv (h : GlibcHeap) : Prop where
  headed : ∀ b ∈ h.live, b.Headed h.st.data
  apart : h.live.Pairwise GlibcBlock.ApartFrom
  marked : ∀ b ∈ h.freed, b.Marked h.st.data
  freedApart : ∀ b ∈ h.freed, ∀ c ∈ h.live, b.ApartFrom c

/-- What a returning request has done. -/
inductive GlibcEffect (f : Flags) (h : GlibcHeap) (r : Request) (grant : Option GlibcBlock) :
    Option Uptr → GlibcState → Prop
  /-- Null, with nothing changed. -/
  | null (hr : ∀ p, r.releases none p = false) : GlibcEffect f h r grant none h.st
  /-- A new block. -/
  | allocated (b : GlibcBlock) (zero check : Bool) (hb : grant = some b)
      (hr : r = .allocate b.size b.alignment zero check) :
      GlibcEffect f h r grant (some b.user) (granted f b zero h.st).2
  /-- A block given back. -/
  | deallocated (o : GlibcBlock) (ho : o ∈ h.live) (hr : r = .deallocate o.user) :
      GlibcEffect f h r grant none (glibcReleased f o.user h.st)
  /-- A block copied to a new place and given back. -/
  | reallocated (o b : GlibcBlock) (ho : o ∈ h.live) (hb : grant = some b)
      (hr : r = .reallocate o.user b.size) :
      GlibcEffect f h r grant (some b.user) (glibcReleased f o.user
        ((granted f b false h.st).2.copyMemory b.user o.user (minUptr b.size o.size)))

theorem minUptr_toNat (a b : Uptr) : (minUptr a b).toNat = min a.toNat b.toNat := by
  rw [minUptr]
  split_ifs with h
  · rw [BitVec.lt_def] at h
    omega
  · rw [BitVec.lt_def] at h
    omega

/-- Copying into a fresh block leaves the old one alone. -/
theorem agreeOn_copyMemory {b : GlibcBlock} {s : GlibcState} {src n : Uptr}
    (hn : n.toNat ≤ b.size.toNat) {q k : ℕ} (h : Apart b.raw.toNat b.real q k) :
    AgreeOn s.data (s.copyMemory b.user src n).data q k := by
  have h1 := b.user_toNat
  have h2 := b.headerSlot_add_size_le
  refine agreeOn_blit ?_
  rcases h with h | h
  · exact Or.inl (by omega)
  · exact Or.inr (by omega)

/-- The old block in the state in which `CQMsanReallocateGlibc` frees it. -/
theorem agreeOn_granted_copyMemory (f : Flags) {b : GlibcBlock} (zero : Bool) (s : GlibcState)
    (src : Uptr) {n : Uptr} (hn : n.toNat ≤ b.size.toNat) {q k : ℕ}
    (h : Apart b.raw.toNat b.real q k) :
    AgreeOn s.data ((granted f b zero s).2.copyMemory b.user src n).data q k :=
  (agreeOn_granted f b zero s h).trans (agreeOn_copyMemory hn h)

/-- No entry point reports a bad header by itself. -/
theorem Call.request_reject {c : Call} {d : Die} (h : c.request = .reject d) :
    d ≠ .doubleFree ∧ d ≠ .corruptedHeader := by
  have hrealloc : ∀ ptr n, reallocRequest ptr n ≠ .reject d := by
    intro ptr n
    rw [reallocRequest]
    split_ifs <;> simp
  cases c with
  | malloc n => cases h
  | valloc n => cases h
  | realloc ptr n => exact absurd h (hrealloc ptr n)
  | reallocarray ptr nmemb n =>
    rw [request] at h
    split_ifs at h
    · cases h; decide
    · exact absurd h (hrealloc ptr _)
  | pvalloc n =>
    rw [request] at h
    by_cases ho : checkForPvallocOverflow n pageSize = true
    · rw [if_pos ho] at h; cases h; decide
    · rw [if_neg ho] at h; cases h
  | calloc nmemb n => rw [request] at h; split_ifs at h; cases h; decide
  | alignedAlloc al n => rw [request] at h; split_ifs at h; cases h; decide
  | memalign al n => rw [request] at h; split_ifs at h; cases h; decide
  | posixMemalign al n => rw [request] at h; split_ifs at h; cases h; decide
  | free ptr => rw [request] at h; split_ifs at h

/-- The outcomes of a call on a heap that satisfies the invariant: no header check fails. -/
theorem glibc_exec_cases {f : Flags} {h : GlibcHeap} (rss : Bool) (hinv : GlibcInv h) {c : Call}
    {grant : Option GlibcBlock} (hgrant : h.MayGrant c.request grant)
    (hptr : ∀ p ∈ c.request.pointer, ∃ b ∈ h.live, b.user = p) :
    (∃ d st, d ≠ .doubleFree ∧ d ≠ .corruptedHeader ∧
      c.exec (glibcBackend f) f (grantAnswer rss grant) h.st = .error d st) ∨
    ∃ ret st, c.exec (glibcBackend f) f (grantAnswer rss grant) h.st = .ok ret st ∧
      GlibcEffect f h c.request grant ret st := by
  rw [Call.exec_eq]
  have hrej := fun d => Call.request_reject (c := c) (d := d)
  generalize c.request = r at *
  cases r with
  | reject d =>
    simp only [Request.exec, Flags.fail]
    split_ifs
    · exact Or.inr ⟨none, h.st, rfl, .null fun _ => rfl⟩
    · exact Or.inl ⟨d, h.st, (hrej d rfl).1, (hrej d rfl).2, rfl⟩
  | nothing => exact Or.inr ⟨none, h.st, rfl, .null fun _ => rfl⟩
  | allocate size alignment zero check =>
    have hserves : ∀ b ∈ grant, b.size = size ∧ b.alignment = alignment := fun b hb => by
      have := (hgrant b hb).1
      simp only [Request.wants, Option.some.injEq, Prod.mk.injEq] at this
      exact ⟨this.1.symm, this.2.symm⟩
    simp only [Request.exec, glibcBackend]
    rcases glibcAllocate_cases f rss zero h.st hserves with ⟨d, h1, h2, he⟩ | he | ⟨b, rfl, he⟩
    · exact Or.inl ⟨d, h.st, h1, h2, by rw [he]⟩
    · exact Or.inr ⟨none, h.st, by rw [he], .null fun _ => rfl⟩
    · rw [he]
      dsimp only
      split_ifs
      · exact Or.inl ⟨_, _, by decide, by decide, rfl⟩
      · obtain ⟨rfl, rfl⟩ := hserves b rfl
        exact Or.inr ⟨_, _, rfl, .allocated b zero check rfl rfl⟩
  | deallocate p =>
    obtain ⟨o, ho, rfl⟩ := hptr p rfl
    refine Or.inr ⟨none, _, ?_, .deallocated o ho rfl⟩
    simp only [Request.exec, glibcBackend, glibcDeallocate, (hinv.headed o ho).headerCheck]
  | reallocate p n =>
    obtain ⟨o, ho, rfl⟩ := hptr p rfl
    have hserves : ∀ b ∈ grant, b.size = n ∧ b.alignment = 8#64 := fun b hb => by
      have := (hgrant b hb).1
      simp only [Request.wants, Option.some.injEq, Prod.mk.injEq] at this
      exact ⟨this.1.symm, this.2.symm⟩
    have hold := hinv.headed o ho
    simp only [Request.exec, glibcBackend, glibcReallocate, hold.headerCheck, hold.size]
    rcases glibcAllocate_cases f rss false h.st hserves with ⟨d, h1, h2, he⟩ | he | ⟨b, rfl, he⟩
    · exact Or.inl ⟨d, h.st, h1, h2, by rw [he]⟩
    · exact Or.inr ⟨none, h.st, by rw [he], .null fun _ => by simp [Request.releases]⟩
    · obtain ⟨rfl, -⟩ := hserves b rfl
      have hmin : (minUptr b.size o.size).toNat ≤ b.size.toNat := by
        rw [minUptr_toNat]
        exact min_le_left ..
      have hcheck := (hold.congr_raw (agreeOn_granted_copyMemory f false h.st o.user hmin
        ((hgrant b rfl).2 o ho))).headerCheck
      rw [he]
      simp only [glibcDeallocate, hcheck]
      exact Or.inr ⟨_, _, rfl, .reallocated o b ho rfl rfl⟩

/-- A call that returns has one of the four effects. -/
theorem glibc_effect {f : Flags} {h : GlibcHeap} (hinv : GlibcInv h) {c : Call}
    {rss : Bool} {grant : Option GlibcBlock} (hgrant : h.MayGrant c.request grant)
    (hptr : ∀ p ∈ c.request.pointer, ∃ b ∈ h.live, b.user = p) {ret : Option Uptr}
    {st : GlibcState}
    (hexec : c.exec (glibcBackend f) f (grantAnswer rss grant) h.st = .ok ret st) :
    GlibcEffect f h c.request grant ret st := by
  rcases glibc_exec_cases rss hinv hgrant hptr with ⟨d, s, -, -, he⟩ | ⟨ret', s, he, heff⟩
  · rw [he] at hexec
    cases hexec
  · rw [he] at hexec
    cases hexec
    exact heff

/-! ### One step -/

section Step

variable {f : Flags} {h : GlibcHeap}

/-- A write that stays out of every live raw block and of the protected part of every freed one
keeps the invariant. -/
theorem GlibcInv.of_agree (hinv : GlibcInv h) {st : GlibcState}
    (hlive : ∀ b ∈ h.live,
      AgreeOn h.st.data st.data (b.raw.toNat + b.headerSlot.toNat - 24) 24)
    (hfreed : ∀ b ∈ h.freed, AgreeOn h.st.data st.data (b.raw.toNat + 16) (b.real - 16)) :
    GlibcInv { h with st := st } where
  headed b hb := (hinv.headed b hb).congr (hlive b hb)
  apart := hinv.apart
  marked b hb := (hinv.marked b hb).congr (hfreed b hb)
  freedApart := hinv.freedApart

theorem GlibcInv.apart_of_ne (hinv : GlibcInv h) {b c : GlibcBlock} (hb : b ∈ h.live)
    (hc : c ∈ h.live) (hne : b ≠ c) : b.ApartFrom c :=
  have : Std.Symm GlibcBlock.ApartFrom := ⟨fun _ _ => GlibcBlock.ApartFrom.symm⟩
  hinv.apart.forall hb hc hne

/-- The invariant of `after`, block by block. -/
private theorem GlibcInv.after (hinv : GlibcInv h) {r : Request} {grant : Option GlibcBlock}
    {ret : Option Uptr} {st : GlibcState}
    (htaken : ∀ t ∈ taken grant ret, t.Headed st.data ∧ ∀ c ∈ h.live, t.ApartFrom c)
    (hkept : ∀ c ∈ h.live, r.releases ret c.user = false → c.Headed st.data)
    (hreleased : ∀ c ∈ h.live, r.releases ret c.user = true → c.Marked st.data)
    (hfreed : ∀ c ∈ h.freed, (∀ t ∈ taken grant ret, c.ApartFrom t) → c.Marked st.data) :
    GlibcInv (h.after r grant ret st) := by
  have hmemLive : ∀ b, b ∈ (h.after r grant ret st).live ↔
      b ∈ taken grant ret ∨ b ∈ h.live ∧ r.releases ret b.user = false := by
    intro b
    simp [GlibcHeap.after]
  have hmemFreed : ∀ b, b ∈ (h.after r grant ret st).freed ↔
      (b ∈ h.live ∧ r.releases ret b.user = true) ∨
        b ∈ h.freed ∧ ∀ t ∈ taken grant ret, b.ApartFrom t := by
    intro b
    simp [GlibcHeap.after]
  refine ⟨fun b hb => ?_, ?_, fun b hb => ?_, fun b hb c hc => ?_⟩
  · rcases (hmemLive b).mp hb with hb | ⟨hb, hr⟩
    · exact (htaken b hb).1
    · exact hkept b hb hr
  · refine List.pairwise_append.mpr ⟨?_, hinv.apart.filter _, fun t ht c hc => ?_⟩
    · rw [taken]
      split_ifs
      · cases grant <;> simp
      · exact List.Pairwise.nil
    · exact (htaken t ht).2 c (List.mem_of_mem_filter hc)
  · rcases (hmemFreed b).mp hb with ⟨hb, hr⟩ | ⟨hb, hap⟩
    · exact hreleased b hb hr
    · exact hfreed b hb hap
  · rcases (hmemFreed b).mp hb with ⟨hb, hr⟩ | ⟨hb, hap⟩
    · rcases (hmemLive c).mp hc with hc | ⟨hc, hr'⟩
      · exact ((htaken c hc).2 b hb).symm
      · have hne : b ≠ c := by
          rintro rfl
          rw [hr] at hr'
          cases hr'
        exact hinv.apart_of_ne hb hc hne
    · rcases (hmemLive c).mp hc with hc | ⟨hc, -⟩
      · exact hap c hc
      · exact hinv.freedApart b hb c hc

theorem GlibcInv.user_inj (hinv : GlibcInv h) {b c : GlibcBlock} (hb : b ∈ h.live)
    (hc : c ∈ h.live) (hu : b.user = c.user) : b = c := by
  by_contra hne
  exact (hinv.apart_of_ne hb hc hne).user_ne hu

/-- Freeing `o` writes its own header word only. -/
theorem agreeOn_released_of_apart {o c : GlibcBlock} (s : GlibcState)
    (hap : o.ApartFrom c) :
    AgreeOn s.data (glibcReleased f o.user s).data c.raw.toNat c.real := by
  have h1 := o.headerSlot_ge
  have h2 := o.headerSlot_add_size_le
  refine agreeOn_released f o s ?_
  rcases hap with hap | hap
  · exact Or.inl (by omega)
  · exact Or.inr (by omega)

/-- **A call keeps the invariant.** -/
theorem GlibcInv.call (hinv : GlibcInv h) {r : Request} {grant : Option GlibcBlock}
    (hgrant : h.MayGrant r grant) {ret : Option Uptr} {st : GlibcState}
    (heff : GlibcEffect f h r grant ret st) : GlibcInv (h.after r grant ret st) := by
  cases heff with
  | null hr =>
    refine hinv.after (by simp [taken]) (fun c hc _ => hinv.headed c hc) (fun c _ hrel => ?_)
      fun c hc _ => hinv.marked c hc
    rw [hr] at hrel
    cases hrel
  | allocated b zero check hb hr =>
    subst hb hr
    have hapart := (hgrant b rfl).2
    refine hinv.after ?_ (fun c hc _ => ?_) (fun c _ hrel => ?_) fun c hc hap => ?_
    · intro t ht
      obtain rfl : t = b := by simpa [taken] using ht
      exact ⟨headed_granted f t zero h.st, hapart⟩
    · exact (hinv.headed c hc).congr_raw (agreeOn_granted f b zero h.st (hapart c hc))
    · cases hrel
    · have hcb : c.ApartFrom b := hap b (by simp [taken])
      exact (hinv.marked c hc).congr_raw (agreeOn_granted f b zero h.st hcb.symm)
  | deallocated o ho hr =>
    subst hr
    refine hinv.after (by simp [taken]) (fun c hc hrel => ?_) (fun c hc hrel => ?_)
      fun c hc _ => ?_
    · have hne : o ≠ c := by
        rintro rfl
        simp [Request.releases] at hrel
      have hap := hinv.apart_of_ne ho hc hne
      exact (hinv.headed c hc).congr_raw (agreeOn_released_of_apart h.st hap)
    · obtain rfl : c = o := hinv.user_inj hc ho (by simpa [Request.releases] using hrel)
      exact marked_released f c h.st
    · exact (hinv.marked c hc).congr_raw
        (agreeOn_released_of_apart h.st (hinv.freedApart c hc o ho).symm)
  | reallocated o b ho hb hr =>
    subst hb hr
    have hapart := (hgrant b rfl).2
    have hmin : (minUptr b.size o.size).toNat ≤ b.size.toNat := by
      rw [minUptr_toNat]
      exact min_le_left ..
    set s := (granted f b false h.st).2.copyMemory b.user o.user (minUptr b.size o.size) with hs
    have hagree : ∀ c : GlibcBlock, b.ApartFrom c → AgreeOn h.st.data s.data c.raw.toNat c.real :=
      fun c hc => agreeOn_granted_copyMemory f false h.st _ hmin hc
    refine hinv.after ?_ (fun c hc hrel => ?_) (fun c hc hrel => ?_) fun c hc hap => ?_
    · intro t ht
      obtain rfl : t = b := by simpa [taken] using ht
      refine ⟨?_, hapart⟩
      -- the copy fills the user area, the old block is elsewhere
      have hheader : AgreeOn (granted f t false h.st).2.data s.data
          (t.raw.toNat + t.headerSlot.toNat - 24) 24 := by
        have h1 := t.user_toNat
        have h2 := t.headerSlot_ge
        exact agreeOn_blit (Or.inr (by omega))
      exact ((headed_granted f t false h.st).congr hheader).congr_raw
        (agreeOn_released_of_apart s (hapart o ho).symm)
    · have hne : o ≠ c := by
        rintro rfl
        simp [Request.releases] at hrel
      have hap := hinv.apart_of_ne ho hc hne
      exact ((hinv.headed c hc).congr_raw (hagree c (hapart c hc))).congr_raw
        (agreeOn_released_of_apart s hap)
    · obtain rfl : c = o := hinv.user_inj hc ho (by simpa [Request.releases] using hrel)
      exact marked_released f c s
    · have hcb : c.ApartFrom b := hap b (by simp [taken])
      exact ((hinv.marked c hc).congr_raw (hagree c hcb.symm)).congr_raw
        (agreeOn_released_of_apart s (hinv.freedApart c hc o ho).symm)

/-- **Every step keeps the invariant.** -/
theorem GlibcInv.step (hinv : GlibcInv h) {h' : GlibcHeap} (hstep : GlibcStep f h h') :
    GlibcInv h' := by
  cases hstep with
  | call c rss grant ret st hgrant hptr hexec =>
    exact hinv.call hgrant (glibc_effect hinv hgrant hptr hexec)
  | write b i v hb hi =>
    -- the byte lies in the user area of `b`, past its header and outside the other blocks
    have hu := b.user_toNat
    have hge := b.headerSlot_ge
    have hle := b.headerSlot_add_size_le
    refine hinv.of_agree (fun c hc => agreeOn_update ?_) fun c hc => agreeOn_update ?_
    · by_cases hbc : b = c
      · subst hbc
        exact Or.inr (by omega)
      · have h1 := c.headerSlot_ge
        have h2 := c.headerSlot_add_size_le
        rcases hinv.apart_of_ne hb hc hbc with hap | hap
        · exact Or.inl (by omega)
        · exact Or.inr (by omega)
    · have h1 := c.headerSlot_ge
      have h2 := c.headerSlot_add_size_le
      rcases hinv.freedApart c hc b hb with hap | hap
      · exact Or.inr (by omega)
      · exact Or.inl (by omega)
  | writeShadow b i v hb hi =>
    exact hinv.of_agree (fun c _ => AgreeOn.refl _ _ _) fun c _ => AgreeOn.refl _ _ _
  | libcWrite a v hlive hfreed =>
    refine hinv.of_agree (fun c hc => agreeOn_update ?_) fun c hc => agreeOn_update ?_
    · have h1 := c.headerSlot_ge
      have h2 := c.headerSlot_add_size_le
      rcases hlive c hc with ha | ha
      · exact Or.inl (by omega)
      · exact Or.inr (by omega)
    · have h1 := c.headerSlot_ge
      have h2 := c.headerSlot_add_size_le
      rcases hfreed c hc with ha | ha
      · exact Or.inl (by omega)
      · exact Or.inr (by omega)

end Step

/-- **Every run keeps the invariant.** -/
theorem glibcInv_of_run {f : Flags} {h₀ h : GlibcHeap} (h0 : h₀.Initial)
    (hrun : Relation.ReflTransGen (GlibcStep f) h₀ h) : GlibcInv h := by
  induction hrun with
  | refl =>
    obtain ⟨hl, hf⟩ := h0
    refine ⟨?_, ?_, ?_, ?_⟩ <;> simp [hl, hf]
  | tail _ hstep ih => exact ih.step hstep

/-! ### The header law -/

/-- The three header words and the user area lie in the raw block, one after the other, and the
user pointer has the requested alignment. -/
structure GlibcBlock.WellPlaced (b : GlibcBlock) : Prop where
  aligned : b.alignment ≠ 0#64 → b.alignment.toNat ∣ b.user.toNat
  canary_in : b.raw.toNat ≤ headerAddr b.user 3
  canary_slot : headerAddr b.user 3 + 8 = headerAddr b.user 2
  slot_size : headerAddr b.user 2 + 8 = headerAddr b.user 1
  size_user : headerAddr b.user 1 + 8 = b.user.toNat
  user_in : b.user.toNat + b.size.toNat ≤ b.raw.toNat + b.real

theorem GlibcBlock.wellPlaced (b : GlibcBlock) : b.WellPlaced := by
  obtain ⟨h1, h2, h3, h4⟩ := b.user_spec
  have a1 := b.headerAddr_eq (i := 1) (by omega)
  have a2 := b.headerAddr_eq (i := 2) (by omega)
  have a3 := b.headerAddr_eq (i := 3) (by omega)
  exact ⟨h4, by omega, by omega, by omega, by omega, by omega⟩

/-- What the allocator promises in a state `h` of a run. -/
structure GlibcHeadersLaw (f : Flags) (h : GlibcHeap) : Prop where
  /-- `real_size` never wraps. -/
  realSize_eq : ∀ size alignment : Uptr, size ≤ f.maxMallocSize → isPowerOfTwo alignment = true →
    (realSize size alignment).toNat =
      32 + size.toNat + (if 32 ≤ alignment.toNat then alignment.toNat - 1 else 0)
  /-- A call that returns a pointer returns the user pointer of the block glibc granted, with
  the header in place. -/
  returned : ∀ (c : Call) (rss : Bool) (grant : Option GlibcBlock) (u : Uptr) (st : GlibcState),
    h.MayGrant c.request grant → (∀ p ∈ c.request.pointer, ∃ b ∈ h.live, b.user = p) →
    c.exec (glibcBackend f) f (grantAnswer rss grant) h.st = .ok (some u) st →
    ∃ b, grant = some b ∧ u = b.user ∧ b.WellPlaced ∧ b.Headed st.data
  /-- Every live block is well placed and its stored size is not the marker of a freed one. -/
  live : ∀ b ∈ h.live, b.WellPlaced ∧ b.Headed h.st.data ∧
    headerWord h.st.data b.user 1 ≠ cqmsanFreedCanaryFor b.user
  /-- Freeing a live block gives `__libc_free` the raw pointer. -/
  free_live : ∀ b ∈ h.live, ∀ ans, ∃ st,
    (Call.free b.user).exec (glibcBackend f) f ans h.st = .ok none st ∧
      st.libcFree = b.raw :: h.st.libcFree
  /-- No call on a live block fails its header checks; if the block is given back, `__libc_free`
  gets the raw pointer, and otherwise nothing has changed. -/
  call_live : ∀ b ∈ h.live, ∀ (c : Call) (rss : Bool) (grant : Option GlibcBlock),
    c.request.pointer = some b.user → h.MayGrant c.request grant →
    (∃ d st, d ≠ .doubleFree ∧ d ≠ .corruptedHeader ∧
      c.exec (glibcBackend f) f (grantAnswer rss grant) h.st = .error d st) ∨
    ∃ ret st, c.exec (glibcBackend f) f (grantAnswer rss grant) h.st = .ok ret st ∧
      if c.request.releases ret b.user then st.libcFree = b.raw :: h.st.libcFree else st = h.st
  /-- Within the size and RSS limits a resized block gets the block that glibc grants: its user
  pointer is returned, and `__libc_free` gets the raw pointer of the old block. -/
  realloc_live : ∀ o ∈ h.live, ∀ (c : Call) (b : GlibcBlock),
    c.request = .reallocate o.user b.size → b.size ≤ f.maxMallocSize →
    h.MayGrant c.request (some b) →
    ∃ st, c.exec (glibcBackend f) f (grantAnswer false (some b)) h.st = .ok (some b.user) st ∧
      st.libcFree = o.raw :: h.st.libcFree
  /-- Every call on a freed block stops as a double free, with the state untouched. -/
  call_freed : ∀ b ∈ h.freed, ∀ (c : Call) (ans : GlibcAnswer),
    c.request.pointer = some b.user →
    c.exec (glibcBackend f) f ans h.st = .error .doubleFree h.st
  /-- A freed block is not found by an ownership query. -/
  query_freed : ∀ b ∈ h.freed, ∀ readable, allocationBegin h.st.data readable b.user = none

private theorem GlibcInv.realloc_live {f : Flags} {h : GlibcHeap} (hinv : GlibcInv h)
    {o b : GlibcBlock} (ho : o ∈ h.live) {c : Call} (hr : c.request = .reallocate o.user b.size)
    (hmax : b.size ≤ f.maxMallocSize) (hgrant : h.MayGrant c.request (some b)) :
    ∃ st, c.exec (glibcBackend f) f (grantAnswer false (some b)) h.st = .ok (some b.user) st ∧
      st.libcFree = o.raw :: h.st.libcFree := by
  have hheaded := hinv.headed o ho
  obtain ⟨hwants, hapart⟩ := hgrant b rfl
  have hal : b.alignment = 8#64 := by
    rw [hr] at hwants
    simpa [Request.wants] using hwants.symm
  have halloc := glibcAllocate_granted false h.st hmax
  rw [hal] at halloc
  -- the header of the old block survives the new one
  have hmin : (minUptr b.size o.size).toNat ≤ b.size.toNat := by
    rw [minUptr_toNat]
    exact min_le_left ..
  have hkept := hheaded.congr_raw (agreeOn_granted_copyMemory f false h.st o.user hmin
    (hapart o ho))
  refine ⟨glibcReleased f o.user ((granted f b false h.st).2.copyMemory b.user o.user
    (minUptr b.size o.size)), ?_, libcFree_released f o _ hkept⟩
  rw [Call.exec_eq, hr]
  simp only [Request.exec, glibcBackend, glibcReallocate, hheaded.headerCheck, hheaded.size,
    halloc, glibcDeallocate, hkept.headerCheck]

private theorem GlibcInv.call_live {f : Flags} {h : GlibcHeap} (hinv : GlibcInv h)
    {b : GlibcBlock} (hb : b ∈ h.live) {c : Call} {rss : Bool} {grant : Option GlibcBlock}
    (hp : c.request.pointer = some b.user) (hgrant : h.MayGrant c.request grant) :
    (∃ d st, d ≠ .doubleFree ∧ d ≠ .corruptedHeader ∧
      c.exec (glibcBackend f) f (grantAnswer rss grant) h.st = .error d st) ∨
    ∃ ret st, c.exec (glibcBackend f) f (grantAnswer rss grant) h.st = .ok ret st ∧
      if c.request.releases ret b.user then st.libcFree = b.raw :: h.st.libcFree
      else st = h.st := by
  have hptr : ∀ p ∈ c.request.pointer, ∃ b ∈ h.live, b.user = p := by
    intro p hp'
    rw [hp] at hp'
    exact ⟨b, hb, by simpa using hp'⟩
  refine (glibc_exec_cases (f := f) rss hinv hgrant hptr).imp_right ?_
  rintro ⟨ret, st, he, heff⟩
  refine ⟨ret, st, he, ?_⟩
  generalize c.request = r at hp hgrant heff
  cases heff with
  | null hr => rw [hr, if_neg (by simp)]
  | allocated b' zero check _ hr => rw [hr] at hp; cases hp
  | deallocated o ho hr =>
    subst hr
    obtain rfl : o = b := hinv.user_inj ho hb (by simpa [Request.pointer] using hp)
    rw [if_pos (by simp [Request.releases]), libcFree_released f o h.st (hinv.headed o ho)]
  | reallocated o b' ho hb' hr =>
    subst hr
    obtain rfl : o = b := hinv.user_inj ho hb (by simpa [Request.pointer] using hp)
    have hmin : (minUptr b'.size o.size).toNat ≤ b'.size.toNat := by
      rw [minUptr_toNat]
      exact min_le_left ..
    have hheaded := (hinv.headed o ho).congr_raw (agreeOn_granted_copyMemory f false h.st
      o.user hmin ((hgrant b' hb').2 o ho))
    rw [if_pos (by simp [Request.releases]), libcFree_released f o _ hheaded]
    rfl

private theorem GlibcInv.call_freed {f : Flags} {h : GlibcHeap} (hinv : GlibcInv h)
    {b : GlibcBlock} (hb : b ∈ h.freed) (c : Call) (ans : GlibcAnswer)
    (hp : c.request.pointer = some b.user) :
    c.exec (glibcBackend f) f ans h.st = .error .doubleFree h.st := by
  have hcheck := (hinv.marked b hb).headerCheck
  rw [Call.exec_eq]
  generalize c.request = r at hp
  cases r with
  | deallocate p =>
    obtain rfl : p = b.user := by simpa [Request.pointer] using hp
    simp only [Request.exec, glibcBackend, glibcDeallocate, hcheck]
  | reallocate p n =>
    obtain rfl : p = b.user := by simpa [Request.pointer] using hp
    simp only [Request.exec, glibcBackend, glibcReallocate, hcheck]
  | reject d => cases hp
  | nothing => cases hp
  | allocate size alignment zero check => cases hp

/-- **The header law of the glibc build** holds in every state of every run. -/
theorem glibc_headers {f : Flags} (hmax : f.maxMallocSize ≤ kMaxAllowedMallocSize)
    {h₀ h : GlibcHeap} (h0 : h₀.Initial) (hrun : Relation.ReflTransGen (GlibcStep f) h₀ h) :
    GlibcHeadersLaw f h := by
  have hinv := glibcInv_of_run h0 hrun
  refine ⟨fun size alignment hs ha => ?_, fun c rss grant u st hgrant hptr hexec => ?_,
    fun b hb => ?_, fun b hb ans => ?_, fun b hb c rss grant => hinv.call_live hb,
    fun o ho c b hr hmax hgrant => hinv.realloc_live ho hr hmax hgrant,
    fun b hb c ans => hinv.call_freed hb c ans, fun b hb readable => ?_⟩
  · refine toNat_realSize ?_ ha
    have hle : size.toNat ≤ kMaxAllowedMallocSize.toNat := by
      rw [BitVec.le_def] at hs hmax
      omega
    exact hle
  · have hafter := hinv.call hgrant (glibc_effect hinv hgrant hptr hexec)
    have heff := glibc_effect hinv hgrant hptr hexec
    obtain ⟨b, hb, hu⟩ : ∃ b, grant = some b ∧ u = b.user := by
      generalize c.request = r at heff
      cases heff with
      | allocated b _ _ hb _ => exact ⟨b, hb, rfl⟩
      | reallocated _ b _ hb _ => exact ⟨b, hb, rfl⟩
    refine ⟨b, hb, hu, b.wellPlaced, hafter.headed b ?_⟩
    simp [GlibcHeap.after, taken, hb]
  · have hheaded := hinv.headed b hb
    exact ⟨b.wellPlaced, hheaded, hheaded.size ▸ b.size_ne_freedCanary⟩
  · refine ⟨glibcReleased f b.user h.st, ?_, libcFree_released f b h.st (hinv.headed b hb)⟩
    have hne : b.user ≠ 0#64 := by
      intro h0
      have h1 := b.user_toNat
      have h2 := b.headerSlot_ge
      rw [h0] at h1
      simp at h1
      omega
    simp only [Call.exec, cqmsanFree, if_neg hne, glibcBackend, glibcDeallocate,
      (hinv.headed b hb).headerCheck]
  · rw [allocationBegin]
    split_ifs with h1 h2 h3 <;> first | rfl | exact absurd (hinv.marked b hb) h3

/-- The default flags. -/
def defaultFlags : Flags := ⟨kMaxAllowedMallocSize, false, true, true, true, 0x10000#64⟩

/-- A block of 24 bytes at `0x1000`. -/
def block24 : GlibcBlock where
  raw := 0x1000#64
  size := 24#64
  alignment := 8#64
  size_le := by decide
  alignment_pow := by decide
  raw_aligned := by decide
  raw_app i hi := by
    have hi' : i < 56 := hi
    exact memIsApp_iff.mpr (Or.inl (by simp; omega))

/-- A heap whose memory is all zero. -/
def zeroHeap : GlibcHeap := ⟨⟨fun _ => 0#8, fun _ => 0#8, []⟩, [], []⟩

/-- The heap after `block24` was allocated. -/
def heapMalloc : GlibcHeap :=
  zeroHeap.after (Call.malloc 24#64).request (some block24) (some block24.user)
    (granted defaultFlags block24 false zeroHeap.st).2

theorem glibcStep_heapMalloc : GlibcStep defaultFlags zeroHeap heapMalloc := by
  refine .call (Call.malloc 24#64) false (some block24) (some block24.user) _ ?_ ?_ rfl
  · rintro b hb
    cases hb
    exact ⟨rfl, fun c hc => nomatch hc⟩
  · intro p hp
    cases hp

/-- The heap after `block24` was freed again. -/
def heapFree : GlibcHeap :=
  heapMalloc.after (Call.free block24.user).request none none
    (glibcReleased defaultFlags block24.user heapMalloc.st)

theorem glibcStep_heapFree : GlibcStep defaultFlags heapMalloc heapFree := by
  have huser : block24.user ≠ 0#64 := by decide
  refine .call (Call.free block24.user) false none none _ ?_ ?_ ?_
  · intro b hb
    cases hb
  · intro p hp
    rw [Call.request, if_neg huser] at hp
    exact ⟨block24, List.mem_singleton.mpr rfl, Option.some.inj hp⟩
  · have hcheck : headerCheck heapMalloc.st.data block24.user = none :=
      (headed_granted defaultFlags block24 false zeroHeap.st).headerCheck
    simp only [Call.exec, cqmsanFree, if_neg huser, glibcBackend, glibcDeallocate, hcheck]

/-- The law after one block was allocated and freed. -/
theorem glibc_headers_heapFree :
    heapFree.freed = [block24] ∧ GlibcHeadersLaw defaultFlags heapFree :=
  ⟨rfl, glibc_headers (by decide) ⟨rfl, rfl⟩
    ((Relation.ReflTransGen.single glibcStep_heapMalloc).tail glibcStep_heapFree)⟩

end CQMSan
