import CQMSan.Runtime.CombinedRun
import CQMSan.Runtime.SetShadow

/-!
# The heap of the flipped build

With `CQMSAN_FLIP_CONVENTION` the shadow of an initialised byte is `0xff` and that of an
uninitialised one is `0`. The allocator then does not poison in `malloc`: fresh memory has shadow
`0`, and every recycled byte is meant to be poisoned by the `free` before.

`FlipPair` runs the default build and the flipped build side by side, on the same calls and the
same answers of the underlying allocator. The invariant that carries the comparison is that in
the flipped build every byte outside the live blocks is poisoned (`Mirror.free`). It is kept by
every call other than a `realloc` in place that grows the block, or cuts off initialised bytes
(`Calm`). `__cqmsan_test_shadow` is the same code in both builds.
-/

namespace CQMSan

open ByteMemory

/-! ### The allocator -/

section Model

variable (A : Arena) (f : Flags)

/-- What `CQMsanAllocate` does once it has the chunk. -/
def flipAllocated (p size : Uptr) (zero : Bool) (s : CombinedState) : CombinedState :=
  let poisoned := (s.metaData p).poisonedSize
  let t := f.clearShadowMmapThreshold
  if zero then
    { s with
      data := if fromPrimary p then fill s.data p.toNat size.toNat 0#8 else s.data
      shadow := if fromPrimary p then setShadow t s.shadow p size Convention.flip.cleanByte
        else setAppShadow t s.shadow p size Convention.flip.cleanByte
      metaData := Function.update s.metaData p ⟨size, 0#64⟩ }
  else if f.poisonInMalloc && !f.poisonInFree then
    let already := if f.poisonReuse && fromPrimary p then poisoned else 0#64
    { s with
      shadow := if already < size then
          setAppShadow t s.shadow (p + already) (size - already) Convention.flip.poisonByte
        else s.shadow
      metaData := Function.update s.metaData p ⟨size, size⟩ }
  else { s with metaData := Function.update s.metaData p ⟨size, poisoned⟩ }

/-- `CQMsanAllocate`. -/
def flipAllocate (ans : ChunkAnswer) (size _alignment : Uptr) (zero : Bool)
    (s : CombinedState) : Outcome CombinedState (Option Uptr) :=
  if f.maxMallocSize < size then f.fail .allocationSizeTooBig s
  else if ans.rssLimitExceeded then f.fail .rssLimitExceeded s
  else match ans.chunk with
    | none => f.fail .outOfMemory s
    | some (p, m) => .ok (some p) (flipAllocated f p size zero (s.underlyingAllocate p m))

/-- What `CQMsanDeallocate` does before the chunk goes back to the underlying allocator. -/
def flipReleased (p : Uptr) (s : CombinedState) : CombinedState :=
  let size := (s.metaData p).requestedSize
  if f.poisonInFree && fromPrimary p then
    { s with
      shadow := setAppShadow f.clearShadowMmapThreshold s.shadow p size Convention.flip.poisonByte
      metaData := Function.update s.metaData p ⟨0#64, size⟩ }
  else { s with metaData := Function.update s.metaData p ⟨0#64, 0#64⟩ }

/-- The state after `allocator.Deallocate`. `OnUnmap` cleans the shadow of the mapping and then
releases its pages. -/
def flipUnderlyingDeallocate (p : Uptr) (s : CombinedState) : CombinedState :=
  if fromPrimary p then s
  else
    let m := s.header p
    let shadow := setAppShadow f.clearShadowMmapThreshold s.shadow m.mapBeg m.mapSize
      Convention.flip.cleanByte
    { s with
      shadow := releaseMemoryPagesToOS shadow (memToShadow m.mapBeg)
        (memToShadow m.mapBeg + m.mapSize) }

/-- `CQMsanDeallocate`. -/
def flipDeallocate (p : Uptr) (s : CombinedState) : Outcome CombinedState Unit :=
  .ok () (flipUnderlyingDeallocate f p (flipReleased f p s))

/-- `CQMsanReallocate`. `PoisonMemory` writes `0xff` in this build too, so that the branch in
place is that of the default build. -/
def flipReallocate (ans : ChunkAnswer) (oldP newSize alignment : Uptr) (s : CombinedState) :
    Outcome CombinedState (Option Uptr) :=
  let oldSize := (s.metaData oldP).requestedSize
  if newSize ≤ s.allocatedSize A oldP then .ok (some oldP) (combinedResized f oldP newSize s)
  else
    let memcpySize := minUptr newSize oldSize
    match flipAllocate f ans newSize alignment false s with
    | .ok (some newP) s =>
      match flipDeallocate f oldP (s.copyMemory newP oldP memcpySize) with
      | .ok _ s => .ok (some newP) s
      | .error d s => .error d s
    | .ok none s => .ok none s
    | .error d s => .error d s

/-- The flipped build. -/
def flipBackend : Backend CombinedState ChunkAnswer where
  allocate := flipAllocate f
  deallocate := flipDeallocate f
  reallocate := flipReallocate A f

end Model

/-! ### `__cqmsan_test_shadow` -/

/-- The loop of `__cqmsan_test_shadow`: `k` bytes remain, from `s[i]` on. -/
def testShadowLoop (m : Mem) (s : ℕ) : ℕ → ℕ → ℤ
  | 0, _ => -1
  | k + 1, i => if m (s + i) ≠ 0#8 then i else testShadowLoop m s k (i + 1)

/-- `__cqmsan_test_shadow`. -/
def cqmsanTestShadow (m : Mem) (x size : Uptr) : ℤ :=
  if !memIsApp x.toNat then -1
  else
    let s := (memToShadow x).toNat
    if (List.range size.toNat).all fun i => m (s + i) = 0#8 then -1
    else testShadowLoop m s size.toNat 0

/-! ### The two builds side by side -/

/-- The default build with its live pointers, and the flipped build. -/
structure FlipPair where
  default : CombinedHeap
  flip : CombinedState

/-- The mappings of the secondary allocator consist of whole pages. -/
def WholePages (m : MmapHeader) : Prop :=
  pageSize.toNat ∣ m.mapBeg.toNat ∧ pageSize.toNat ∣ m.mapSize.toNat

/-- One step of both builds. `C` restricts the calls. -/
inductive FlipStep (A : Arena) (f : Flags) (C : CombinedHeap → Request → Prop) :
    FlipPair → FlipPair → Prop
  /-- An entry point is called, on a live chunk if it is about one, and returns. -/
  | call {h : CombinedHeap} {s : CombinedState} (c : Call) (rss : Bool)
      (grant : Option (Uptr × MmapHeader)) (ret : Option Uptr) (st st' : CombinedState)
      (hgrant : h.MayGrant A c.request grant)
      (hpages : ∀ p m, grant = some (p, m) → fromPrimary p = false → WholePages m)
      (hptr : ∀ p ∈ c.request.pointer, p ∈ h.live) (hC : C h c.request)
      (hexec : c.exec (combinedBackend A f) f ⟨rss, grant⟩ h.st = .ok ret st)
      (hflip : c.exec (flipBackend A f) f ⟨rss, grant⟩ s = .ok ret st') :
      FlipStep A f C ⟨h, s⟩ ⟨h.after c.request ret st, st'⟩
  /-- `__cqmsan_unpoison` of a part of a live block. -/
  | unpoison {h : CombinedHeap} {s : CombinedState} (p i n : Uptr) (hp : p ∈ h.live)
      (hn : i.toNat + n.toNat ≤ h.st.sizeOf p) :
      FlipStep A f C ⟨h, s⟩
        ⟨{ h with
            st.shadow := cqmsanUnpoison f.clearShadowMmapThreshold h.st.shadow (p + i) n },
          { s with
            shadow := setAppShadow f.clearShadowMmapThreshold s.shadow (p + i) n
              Convention.flip.cleanByte }⟩

/-- Two processes that have not allocated yet; their shadow memory is fresh from the system. -/
def FlipPair.Initial (pr : FlipPair) : Prop :=
  pr.default.Initial ∧ (∀ p, pr.flip.metaData p = ⟨0#64, 0#64⟩) ∧
    pr.flip.header = pr.default.st.header ∧ (∀ a, pr.default.st.shadow a = 0#8) ∧
    ∀ a, pr.flip.shadow a = 0#8

/-- A byte of a live block is poisoned in both builds or in neither. -/
def FlipPair.SamePoison (pr : FlipPair) : Prop :=
  ∀ p ∈ pr.default.live, ∀ i < pr.default.st.sizeOf p,
    (appShadow pr.flip.shadow (p.toNat + i) = 0#8 ↔
      appShadow pr.default.st.shadow (p.toNat + i) ≠ 0#8)

/-- `__cqmsan_test_shadow` answers the same on every part of a live block. -/
def FlipPair.SameTest (pr : FlipPair) : Prop :=
  ∀ p ∈ pr.default.live, ∀ i n : Uptr, i.toNat + n.toNat ≤ pr.default.st.sizeOf p →
    cqmsanTestShadow pr.flip.shadow (p + i) n =
      cqmsanTestShadow pr.default.st.shadow (p + i) n

/-- The call does not resize a block in place, unless it cuts off poisoned bytes only. -/
def Calm (A : Arena) (h : CombinedHeap) (r : Request) : Prop :=
  ∀ o n, r = .reallocate o n → n ≤ h.st.allocatedSize A o → n.toNat ≤ h.st.sizeOf o ∧
    ∀ i, n.toNat ≤ i → i < h.st.sizeOf o → appShadow h.st.shadow (o.toNat + i) ≠ 0#8

/-! ### Effects -/

section Effects

variable {A : Arena} {f : Flags} {h : CombinedHeap} {s : CombinedState} {r : Request}
  {grant : Option (Uptr × MmapHeader)} {ret : Option Uptr} {st st' : CombinedState}

/-- `CQMsanDeallocate` on a state of the flipped build. -/
abbrev CombinedState.flipRelease (f : Flags) (o : Uptr) (s : CombinedState) : CombinedState :=
  flipUnderlyingDeallocate f o (flipReleased f o s)

/-- The state after `CQMsanAllocate` was granted a chunk. -/
abbrev CombinedState.flipAlloc (f : Flags) (p : Uptr) (m : MmapHeader) (size : Uptr) (zero : Bool)
    (s : CombinedState) : CombinedState :=
  flipAllocated f p size zero (s.underlyingAllocate p m)

/-- What a returning request has done in the two builds. -/
inductive FlipEffect (A : Arena) (f : Flags) (h : CombinedHeap) (s : CombinedState) (r : Request)
    (grant : Option (Uptr × MmapHeader)) :
    Option Uptr → CombinedState → CombinedState → Prop
  /-- Null, with nothing changed. -/
  | null (hr : ∀ p, r.releases none p = false) : FlipEffect A f h s r grant none h.st s
  /-- A new block. -/
  | allocated (p : Uptr) (m : MmapHeader) (size alignment : Uptr) (zero check : Bool)
      (hp : grant = some (p, m)) (hr : r = .allocate size alignment zero check) :
      FlipEffect A f h s r grant (some p) (h.st.allocate f p m size zero)
        (s.flipAlloc f p m size zero)
  /-- A block given back. -/
  | deallocated (o : Uptr) (ho : o ∈ h.live) (hr : r = .deallocate o) :
      FlipEffect A f h s r grant none (h.st.release f o) (s.flipRelease f o)
  /-- A block resized in place. -/
  | resized (o n : Uptr) (ho : o ∈ h.live) (hr : r = .reallocate o n)
      (hn : n ≤ h.st.allocatedSize A o) :
      FlipEffect A f h s r grant (some o) (combinedResized f o n h.st) (combinedResized f o n s)
  /-- A block copied to a new chunk and given back. -/
  | moved (o p : Uptr) (m : MmapHeader) (n : Uptr) (ho : o ∈ h.live) (hp : grant = some (p, m))
      (hr : r = .reallocate o n) :
      FlipEffect A f h s r grant (some p)
        (((h.st.allocate f p m n false).copyMemory p o
          (minUptr n (h.st.metaData o).requestedSize)).release f o)
        (((s.flipAlloc f p m n false).copyMemory p o
          (minUptr n (s.metaData o).requestedSize)).flipRelease f o)

/-- The effect in the default build. -/
theorem FlipEffect.combined (h : FlipEffect A f h s r grant ret st st') :
    CombinedEffect A f ‹_› r grant ret st := by
  cases h with
  | null hr => exact .null hr
  | allocated p m size alignment zero check hp hr =>
    exact .allocated p m size alignment zero check hp hr
  | deallocated o ho hr => exact .deallocated o ho hr
  | resized o n ho hr hn => exact .resized o n ho hr hn
  | moved o p m n ho hp hr => exact .moved o p m n ho hp hr

/-- The two builds agree on what decides a call: the headers and the requested sizes. -/
structure SameRecords (s s' : CombinedState) : Prop where
  header : s'.header = s.header
  size : ∀ p, (s'.metaData p).requestedSize = (s.metaData p).requestedSize

theorem SameRecords.allocatedSize (hs : SameRecords h.st s) (p : Uptr) :
    s.allocatedSize A p = h.st.allocatedSize A p := by
  rw [CombinedState.allocatedSize, CombinedState.allocatedSize, hs.header]

/-- `CQMsanAllocate` decides alike in both builds. -/
private theorem flipAllocate_cases (f : Flags) (h : CombinedHeap) (s : CombinedState)
    (grant : Option (Uptr × MmapHeader)) (rss : Bool) (size alignment : Uptr) (zero : Bool) :
    (∃ d, combinedAllocate f ⟨rss, grant⟩ size alignment zero h.st = .error d h.st) ∨
    (combinedAllocate f ⟨rss, grant⟩ size alignment zero h.st = .ok none h.st ∧
      flipAllocate f ⟨rss, grant⟩ size alignment zero s = .ok none s) ∨
    ∃ p m, grant = some (p, m) ∧
      combinedAllocate f ⟨rss, grant⟩ size alignment zero h.st =
        .ok (some p) (h.st.allocate f p m size zero) ∧
      flipAllocate f ⟨rss, grant⟩ size alignment zero s =
        .ok (some p) (s.flipAlloc f p m size zero) := by
  have hfail : ∀ d : Die,
      (∃ d', (f.fail d h.st : Outcome CombinedState (Option Uptr)) = .error d' h.st) ∨
      (f.fail d h.st : Outcome CombinedState (Option Uptr)) = .ok none h.st ∧
        (f.fail d s : Outcome CombinedState (Option Uptr)) = .ok none s := by
    intro d
    rw [Flags.fail, Flags.fail]
    split_ifs
    · exact Or.inr ⟨rfl, rfl⟩
    · exact Or.inl ⟨d, rfl⟩
  rw [← or_assoc, combinedAllocate, flipAllocate]
  split_ifs
  · exact Or.inl (hfail _)
  · exact Or.inl (hfail _)
  · rcases grant with _ | ⟨p, m⟩
    · exact Or.inl (hfail _)
    · exact Or.inr ⟨p, m, rfl, rfl, rfl⟩

/-- A call that returns in the default build returns the same in the flipped build. -/
theorem flip_effect {c : Call} {rss : Bool} (hs : SameRecords h.st s)
    (hptr : ∀ p ∈ c.request.pointer, p ∈ h.live)
    (hexec : c.exec (combinedBackend A f) f ⟨rss, grant⟩ h.st = .ok ret st) :
    ∃ st', c.exec (flipBackend A f) f ⟨rss, grant⟩ s = .ok ret st' ∧
      FlipEffect A f h s c.request grant ret st st' := by
  rw [Call.exec_eq] at hexec ⊢
  generalize c.request = r at *
  cases r with
  | reject d =>
    simp only [Request.exec, Flags.fail] at hexec ⊢
    split_ifs at hexec with hnull
    cases hexec
    exact ⟨s, by rw [if_pos hnull], .null fun _ => rfl⟩
  | nothing =>
    cases hexec
    exact ⟨s, rfl, .null fun _ => rfl⟩
  | allocate size alignment zero check =>
    simp only [Request.exec, combinedBackend, flipBackend] at hexec ⊢
    rcases flipAllocate_cases f h s grant rss size alignment zero
      with ⟨d, he⟩ | ⟨he, he'⟩ | ⟨p, m, hp, he, he'⟩
    · rw [he] at hexec
      cases hexec
    · rw [he] at hexec
      cases hexec
      exact ⟨s, by rw [he'], .null fun _ => rfl⟩
    · rw [he] at hexec
      rw [he']
      dsimp only at hexec ⊢
      split_ifs at hexec with hcheck
      cases hexec
      exact ⟨_, by rw [if_neg hcheck], .allocated p m size alignment zero check hp rfl⟩
  | deallocate p =>
    cases hexec
    exact ⟨_, rfl, .deallocated p (hptr p rfl) rfl⟩
  | reallocate o n =>
    simp only [Request.exec, combinedBackend, flipBackend, combinedReallocate, flipReallocate,
      hs.allocatedSize] at hexec ⊢
    split_ifs at hexec with hn
    · cases hexec
      exact ⟨_, by rw [if_pos hn], .resized o n (hptr o rfl) rfl hn⟩
    · rw [if_neg hn]
      rcases flipAllocate_cases f h s grant rss n 8#64 false
        with ⟨d, he⟩ | ⟨he, he'⟩ | ⟨p, m, hp, he, he'⟩
      · rw [he] at hexec
        cases hexec
      · rw [he] at hexec
        cases hexec
        exact ⟨s, by rw [he'], .null fun _ => by simp [Request.releases]⟩
      · rw [he] at hexec
        cases hexec
        exact ⟨_, by rw [he']; rfl, .moved o p m n (hptr o rfl) hp rfl⟩

theorem SameRecords.underlyingAllocate {s s' : CombinedState} (hs : SameRecords s s') (p : Uptr)
    (m : MmapHeader) : SameRecords (s.underlyingAllocate p m) (s'.underlyingAllocate p m) := by
  rw [CombinedState.underlyingAllocate, CombinedState.underlyingAllocate]
  split_ifs
  · exact hs
  · refine ⟨by rw [hs.header], fun q => ?_⟩
    by_cases hq : q = p
    · simp [hq]
    · simp [Function.update_of_ne hq, hs.size q]

/-- The requested sizes after an update of one record. -/
private theorem size_update {s s' : CombinedState} (hs : SameRecords s s') (p n k k' q : Uptr) :
    (Function.update s'.metaData p ⟨n, k'⟩ q).requestedSize =
      (Function.update s.metaData p ⟨n, k⟩ q).requestedSize := by
  by_cases hq : q = p
  · simp [hq]
  · rw [Function.update_of_ne hq, Function.update_of_ne hq]
    exact hs.size q

theorem SameRecords.allocate {s s' : CombinedState} (hs : SameRecords s s') (p : Uptr)
    (m : MmapHeader) (size : Uptr) (zero : Bool) :
    SameRecords (s.allocate f p m size zero) (s'.flipAlloc f p m size zero) := by
  have hu := hs.underlyingAllocate p m
  simp only [CombinedState.allocate, CombinedState.flipAlloc, combinedAllocated, flipAllocated]
  split_ifs
  all_goals exact ⟨hu.header, fun q => size_update hu p size _ _ q⟩

theorem SameRecords.release {s s' : CombinedState} (hs : SameRecords s s') (o : Uptr) :
    SameRecords (s.release f o) (s'.flipRelease f o) := by
  have hrel : SameRecords (combinedReleased f o s) (flipReleased f o s') := by
    simp only [combinedReleased, flipReleased]
    split_ifs
    · exact ⟨hs.header, fun q => size_update hs o 0#64 _ _ q⟩
    · exact ⟨hs.header, fun q => size_update hs o 0#64 _ _ q⟩
  simp only [CombinedState.release, CombinedState.flipRelease, CombinedState.underlyingDeallocate,
    flipUnderlyingDeallocate]
  split_ifs
  · exact hrel
  · exact ⟨hrel.header, hrel.size⟩

/-- The builds keep the same records. -/
theorem FlipEffect.sameRecords (hs : SameRecords h.st s)
    (heff : FlipEffect A f h s r grant ret st st') : SameRecords st st' := by
  cases heff with
  | null hr => exact hs
  | allocated p m size alignment zero check hp hr => exact hs.allocate p m size zero
  | deallocated o ho hr => exact hs.release o
  | resized o n ho hr hn => exact ⟨hs.header, fun q => size_update hs o n _ _ q⟩
  | moved o p m n ho hp hr =>
    have hcopy : SameRecords
        ((h.st.allocate f p m n false).copyMemory p o (minUptr n (h.st.metaData o).requestedSize))
        ((s.flipAlloc f p m n false).copyMemory p o (minUptr n (s.metaData o).requestedSize)) :=
      ⟨(hs.allocate p m n false).header, (hs.allocate p m n false).size⟩
    exact hcopy.release o

end Effects

/-! ### The shadow of the flipped build -/

section Shadow

variable {A : Arena} {f : Flags} {s : CombinedState} {p : Uptr}

private theorem dvd_memToShadow (hp : pageSize.toNat ∣ p.toNat) :
    pageSize.toNat ∣ (memToShadow p).toNat := by
  have hpage : pageSize.toNat = 2 ^ 12 := rfl
  rw [hpage] at hp ⊢
  rw [toNat_memToShadow, shadowOf]
  refine Nat.dvd_of_mod_eq_zero ?_
  rw [Nat.xor_mod_two_pow, Nat.mod_eq_zero_of_dvd hp]
  rfl

/-- The pages of a range of whole pages are all released. -/
private theorem release_wholePages {n : Uptr} (h : AppRange p.toNat n.toNat)
    (hlt : p.toNat < 2 ^ 48) (hp : pageSize.toNat ∣ p.toNat) (hn : pageSize.toNat ∣ n.toNat)
    (m : Mem) :
    releaseMemoryPagesToOS m (memToShadow p) (memToShadow p + n) =
      fill m (memToShadow p).toNat n.toNat 0#8 := by
  have hpage : pageSize.toNat = 2 ^ 12 := rfl
  have hspace := shadow_range_le h hlt
  have hend : (memToShadow p + n).toNat = (memToShadow p).toNat + n.toNat := by bv_omega
  have hbeg := dvd_memToShadow hp
  have hup : (roundUpTo (memToShadow p) pageSize).toNat = (memToShadow p).toNat := by
    obtain ⟨hdvd, hle, hlt⟩ := roundUpTo_bounds (x := memToShadow p) hpage (by omega)
    rw [hpage] at *
    omega
  have hdown : (roundDownTo (memToShadow p + n) pageSize).toNat =
      (memToShadow p).toNat + n.toNat := by
    rw [toNat_roundDownTo hpage, hend]
    exact Nat.div_mul_cancel (Nat.dvd_add hbeg hn)
  simp only [releaseMemoryPagesToOS]
  split_ifs with hpages
  · rw [toNat_sub_of_le (BitVec.lt_def.mp hpages).le, hup, hdown, Nat.add_sub_cancel_left]
  · rw [BitVec.lt_def, hup, hdown] at hpages
    rw [show n.toNat = 0 by omega, fill_zero]

theorem flipAlloc_shadow (hpf : f.poisonInFree = true) (m : MmapHeader) (size : Uptr) :
    (s.flipAlloc f p m size false).shadow = s.shadow := by
  have hu : (s.underlyingAllocate p m).shadow = s.shadow := by
    rw [CombinedState.underlyingAllocate]
    split_ifs <;> rfl
  simp [CombinedState.flipAlloc, flipAllocated, hpf, hu]

theorem appShadow_flipAlloc_zero (m : MmapHeader) {size : Uptr}
    (happ : AppRange p.toNat size.toNat) (hlt : p.toNat < 2 ^ 48) :
    appShadow (s.flipAlloc f p m size true).shadow =
      fill (appShadow s.shadow) p.toNat size.toNat 0xff#8 := by
  have hu : (s.underlyingAllocate p m).shadow = s.shadow := by
    rw [CombinedState.underlyingAllocate]
    split_ifs <;> rfl
  simp only [CombinedState.flipAlloc, flipAllocated, if_true, hu]
  split_ifs
  · exact appShadow_setShadow happ hlt _ _ _
  · exact appShadow_setAppShadow happ hlt _ _ _

/-- A freed block is poisoned, with at most the rest of its room. -/
theorem appShadow_flipRelease (hpf : f.poisonInFree = true) (hh : Housed A s p)
    (hlt : p.toNat < 2 ^ 47) (hsize : s.sizeOf p ≤ (s.allocatedSize A p).toNat)
    (hpages : fromPrimary p = false → WholePages (s.header p)) :
    ∃ b n, appShadow (s.flipRelease f p).shadow = fill (appShadow s.shadow) b n 0#8 ∧
      s.roomBeg p ≤ b ∧ b + n ≤ s.roomBeg p + s.roomLen A p ∧
      b ≤ p.toNat ∧ p.toNat + s.sizeOf p ≤ b + n := by
  have hbeg := hh.beg_le
  have hend := hh.end_le
  cases hp : fromPrimary p with
  | true =>
    have hshadow : (s.flipRelease f p).shadow =
        setAppShadow f.clearShadowMmapThreshold s.shadow p (s.metaData p).requestedSize 0#8 := by
      simp [CombinedState.flipRelease, flipUnderlyingDeallocate, flipReleased, hp, hpf,
        Convention.poisonByte]
    refine ⟨p.toNat, s.sizeOf p, ?_, hbeg, by omega, le_rfl, le_rfl⟩
    rw [hshadow]
    exact appShadow_setAppShadow (hh.user_app hsize) (by omega) _ _ _
  | false =>
    have hroom : s.roomBeg p = (s.header p).mapBeg.toNat ∧
        s.roomLen A p = (s.header p).mapSize.toNat := by
      simp [CombinedState.roomBeg, CombinedState.roomLen, hp]
    have happ := hh.app
    rw [hroom.1, hroom.2] at happ
    have hshadow : (s.flipRelease f p).shadow = releaseMemoryPagesToOS
        (setAppShadow f.clearShadowMmapThreshold s.shadow (s.header p).mapBeg
          (s.header p).mapSize 0xff#8)
        (memToShadow (s.header p).mapBeg)
        (memToShadow (s.header p).mapBeg + (s.header p).mapSize) := by
      simp [CombinedState.flipRelease, flipUnderlyingDeallocate, flipReleased, hp,
        Convention.cleanByte]
    have hbeglt : (s.header p).mapBeg.toNat < 2 ^ 48 := by omega
    obtain ⟨hpb, hpn⟩ := hpages hp
    refine ⟨(s.header p).mapBeg.toNat, (s.header p).mapSize.toNat, ?_, hroom.1.le,
      by rw [hroom.1, hroom.2], by omega, by omega⟩
    rw [hshadow, release_wholePages happ hbeglt hpb hpn, toNat_memToShadow, appShadow_fill happ,
      appShadow_setAppShadow happ hbeglt]
    funext a
    simp only [fill_apply]
    split_ifs <;> rfl

/-- Allocating a chunk leaves the records of the others. -/
theorem flipAlloc_records {q : Uptr} (hq : q ≠ p) (m : MmapHeader) (size : Uptr) (zero : Bool) :
    (s.flipAlloc f p m size zero).header q = s.header q ∧
      (s.flipAlloc f p m size zero).metaData q = s.metaData q := by
  have hu : (s.underlyingAllocate p m).header q = s.header q ∧
      (s.underlyingAllocate p m).metaData q = s.metaData q := by
    rw [CombinedState.underlyingAllocate]
    split_ifs
    · exact ⟨rfl, rfl⟩
    · exact ⟨Function.update_of_ne hq .., Function.update_of_ne hq ..⟩
  simp only [CombinedState.flipAlloc, flipAllocated]
  split_ifs
  all_goals exact ⟨hu.1, (Function.update_of_ne hq ..).trans hu.2⟩

end Shadow

/-! ### The invariant -/

/-- The flipped build mirrors the default build, and everything outside the live blocks is
poisoned. -/
structure Mirror (A : Arena) (pr : FlipPair) : Prop where
  inv : CombinedInv A pr.default
  records : SameRecords pr.default.st pr.flip
  pages : ∀ p ∈ pr.default.live, fromPrimary p = false → WholePages (pr.default.st.header p)
  poison : pr.SamePoison
  free : ∀ a, (∀ p ∈ pr.default.live,
    ¬(p.toNat ≤ a ∧ a < p.toNat + pr.default.st.sizeOf p)) → appShadow pr.flip.shadow a = 0#8

section Invariant

variable {A : Arena} {f : Flags} {h : CombinedHeap} {s : CombinedState} {r : Request}
  {grant : Option (Uptr × MmapHeader)} {ret : Option Uptr} {st st' : CombinedState}

/-- What is known of a granted chunk. -/
private theorem CombinedInv.grant_facts (hinv : CombinedInv A h) (hgrant : h.MayGrant A r grant)
    {p : Uptr} {m : MmapHeader} (hp : grant = some (p, m)) {size alignment : Uptr}
    (hr : r.wants = some (size, alignment)) :
    p ∉ h.live ∧ p.toNat < 2 ^ 47 ∧ AppRange p.toNat size.toNat ∧
      (∀ q ∈ h.live, Apart p.toNat size.toNat (h.st.roomBeg q) (h.st.roomLen A q)) ∧
      ∀ q ∈ h.live, Apart p.toNat size.toNat q.toNat (h.st.sizeOf q) := by
  obtain ⟨size', alignment', hr', hnot, hlt, hh, hsize, hap⟩ := hgrant p m hp
  obtain rfl : size' = size := by
    rw [hr] at hr'
    cases hr'
    rfl
  have hbeg := hh.beg_le
  have hend := hh.end_le
  have hrooms : ∀ q ∈ h.live,
      Apart p.toNat size'.toNat (h.st.roomBeg q) (h.st.roomLen A q) := by
    intro q hq
    rcases hap q hq with hap | hap
    · exact Or.inl (by omega)
    · exact Or.inr (by omega)
  refine ⟨hnot, hlt, hh.user_app hsize, hrooms, fun q hq => ?_⟩
  have h1 := (hinv.housed q hq).beg_le
  have h2 := (hinv.housed q hq).end_le
  have h3 := hinv.size_le q hq
  rcases hrooms q hq with hap | hap
  · exact Or.inl (by omega)
  · exact Or.inr (by omega)

/-- The invariant after a call, block by block. -/
private theorem Mirror.after (hinv : CombinedInv A (h.after r ret st)) (hrec : SameRecords st st')
    (hm : Mirror A ⟨h, s⟩)
    (hnew : ∀ p, ret = some p → (fromPrimary p = false → WholePages (st.header p)) ∧
      ∀ i < st.sizeOf p, (appShadow st'.shadow (p.toNat + i) = 0#8 ↔
        appShadow st.shadow (p.toNat + i) ≠ 0#8))
    (hkept : ∀ q ∈ h.live, r.releases ret q = false → st.header q = h.st.header q ∧
      st.sizeOf q = h.st.sizeOf q ∧
      AgreeOn (appShadow h.st.shadow) (appShadow st.shadow) q.toNat (h.st.sizeOf q) ∧
      AgreeOn (appShadow s.shadow) (appShadow st'.shadow) q.toNat (h.st.sizeOf q))
    (hfree : ∀ a, (∀ p, ret = some p → ¬(p.toNat ≤ a ∧ a < p.toNat + st.sizeOf p)) →
      (∀ q ∈ h.live, r.releases ret q = false → ¬(q.toNat ≤ a ∧ a < q.toNat + h.st.sizeOf q)) →
      appShadow st'.shadow a = 0#8) :
    Mirror A ⟨h.after r ret st, st'⟩ := by
  refine ⟨hinv, hrec, fun p hp hprim => ?_, fun p hp i hi => ?_, fun a ha => ?_⟩
  · rcases CombinedHeap.mem_after.mp hp with hret | ⟨hmem, hrel⟩
    · exact (hnew p hret).1 hprim
    · have hpages := hm.pages p hmem hprim
      rw [← (hkept p hmem hrel).1] at hpages
      exact hpages
  · rcases CombinedHeap.mem_after.mp hp with hret | ⟨hmem, hrel⟩
    · exact (hnew p hret).2 i hi
    · obtain ⟨-, hsize, hd, hf⟩ := hkept p hmem hrel
      have hi' : i < h.st.sizeOf p := hsize ▸ hi
      have hold := hm.poison p hmem i hi'
      exact (by rw [hf i hi'] : _ ↔ _).trans (hold.trans (by rw [← hd i hi']; rfl))
  · refine hfree a (fun p hret => ha p (CombinedHeap.mem_after.mpr (Or.inl hret)))
      fun q hq hrel => ?_
    have hnot := ha q (CombinedHeap.mem_after.mpr (Or.inr ⟨hq, hrel⟩))
    rwa [show (h.after r ret st).st.sizeOf q = h.st.sizeOf q from (hkept q hq hrel).2.1] at hnot

private theorem allocate_header (p q : Uptr) (m : MmapHeader) (size : Uptr) (zero : Bool) :
    (s.allocate f p m size zero).header q =
      if fromPrimary p = false ∧ q = p then m else s.header q := by
  have hhead : (s.allocate f p m size zero).header = (s.underlyingAllocate p m).header := by
    simp only [CombinedState.allocate, combinedAllocated]
    split_ifs <;> rfl
  rw [hhead, CombinedState.underlyingAllocate]
  cases hp : fromPrimary p with
  | true => simp
  | false => by_cases hq : q = p <;> simp [hq, Function.update_of_ne]

private theorem release_header (o : Uptr) : (s.release f o).header = s.header := by
  simp only [CombinedState.release, combinedReleased, CombinedState.underlyingDeallocate]
  split_ifs <;> rfl

/-- A byte of a granted chunk is outside the live blocks. -/
private theorem Mirror.free_granted (hm : Mirror A ⟨h, s⟩) {p : Uptr} {n i : ℕ}
    (hap : ∀ q ∈ h.live, Apart p.toNat n q.toNat (h.st.sizeOf q)) (hi : i < n) :
    appShadow s.shadow (p.toNat + i) = 0#8 := by
  refine hm.free _ fun q hq hmem => ?_
  have hmem' : q.toNat ≤ p.toNat + i ∧ p.toNat + i < q.toNat + h.st.sizeOf q := hmem
  rcases hap q hq with hap | hap <;> omega

/-- A freed block is poisoned and the other live blocks are left alone. -/
private theorem Mirror.flipRelease (hpf : f.poisonInFree = true) (hm : Mirror A ⟨h, s⟩)
    {t : CombinedState} {o : Uptr} (ho : o ∈ h.live) (hheader : t.header o = s.header o)
    (hmeta : t.metaData o = s.metaData o) :
    ∃ b n, appShadow (t.flipRelease f o).shadow = fill (appShadow t.shadow) b n 0#8 ∧
      h.st.roomBeg o ≤ b ∧ b + n ≤ h.st.roomBeg o + h.st.roomLen A o ∧
      b ≤ o.toNat ∧ o.toNat + h.st.sizeOf o ≤ b + n := by
  have hhead : t.header o = h.st.header o := hheader.trans (congrFun hm.records.header o)
  have hsize : t.sizeOf o = h.st.sizeOf o := by
    rw [CombinedState.sizeOf, hmeta, CombinedState.sizeOf]
    exact congrArg BitVec.toNat (hm.records.size o)
  have hle := hm.inv.size_le o ho
  obtain ⟨b, n, hfill, hbounds⟩ := appShadow_flipRelease hpf ((hm.inv.housed o ho).congr hhead)
    (hm.inv.lt o ho) (by rw [hsize, CombinedState.allocatedSize, hhead]; exact hle)
    (by rw [hhead]; exact hm.pages o ho)
  rw [roomBeg_congr hhead, roomLen_congr hhead, hsize] at hbounds
  exact ⟨b, n, hfill, hbounds⟩

/-- What the default build leaves of a block the call is not about. -/
private theorem HeapLaw.others_st {v' : CombinedHeap} (hlaw : HeapLaw r h.view ret v'.view)
    {q : Uptr} (hq : q ∈ h.live) (hne : r.pointer ≠ some q) :
    v'.st.sizeOf q = h.st.sizeOf q ∧
      AgreeOn (appShadow h.st.shadow) (appShadow v'.st.shadow) q.toNat (h.st.sizeOf q) := by
  obtain ⟨-, hsize, hagree⟩ := hlaw.others q hq hne
  exact ⟨congrArg BitVec.toNat hsize, hagree⟩

/-- A resize in place that does not grow the block writes no shadow. -/
private theorem combinedResized_shadow {t : CombinedState} {o n : Uptr}
    (hn : n.toNat ≤ t.sizeOf o) : (combinedResized f o n t).shadow = t.shadow := by
  have hlt : ¬(t.metaData o).requestedSize < n := by
    rw [BitVec.lt_def]
    exact Nat.not_lt.mpr hn
  simp only [combinedResized, if_neg hlt]

section Call

variable (hpm : f.poisonInMalloc = true) (hpf : f.poisonInFree = true) (hm : Mirror A ⟨h, s⟩)
  (hgrant : h.MayGrant A r grant)

include hpm hpf hm hgrant

private theorem Mirror.allocated
    (hpages : ∀ p m, grant = some (p, m) → fromPrimary p = false → WholePages m) {p : Uptr}
    {m : MmapHeader} {size alignment : Uptr} {zero check : Bool} (hp : grant = some (p, m))
    (hr : r = .allocate size alignment zero check) :
    Mirror A ⟨h.after r (some p) (h.st.allocate f p m size zero), s.flipAlloc f p m size zero⟩ := by
  have heff : FlipEffect A f h s r grant (some p) _ _ :=
    .allocated p m size alignment zero check hp hr
  have hlaw := hm.inv.heapLaw hpm hgrant heff.combined
  have hinv : CombinedInv A h := hm.inv
  have hwants : r.wants = some (size, alignment) := by rw [hr]; rfl
  obtain ⟨hnot, hlt, happ, -, hap⟩ := hinv.grant_facts hgrant hp hwants
  obtain ⟨-, hsize, hfilled⟩ := hlaw.allocated size alignment zero check p hr rfl
  have hsize' : (h.st.allocate f p m size zero).sizeOf p = size.toNat :=
    congrArg BitVec.toNat hsize
  have hflip : appShadow (s.flipAlloc f p m size zero).shadow =
      if zero then fill (appShadow s.shadow) p.toNat size.toNat 0xff#8 else appShadow s.shadow := by
    cases zero with
    | true => exact appShadow_flipAlloc_zero m happ (by omega)
    | false => exact congrArg appShadow (flipAlloc_shadow hpf m size)
  refine hm.after (hm.inv.call hpm hgrant heff.combined) (heff.sameRecords hm.records) ?_ ?_ ?_
  · rintro q ⟨⟩
    refine ⟨fun hprim => ?_, fun i hi => ?_⟩
    · rw [allocate_header, if_pos ⟨hprim, rfl⟩]
      exact hpages p m hp hprim
    · rw [hsize'] at hi
      have hdef := hfilled i hi
      rw [hflip]
      cases zero with
      | true =>
        have hd : appShadow (h.st.allocate f p m size true).shadow (p.toNat + i) = 0#8 := hdef.2
        rw [if_pos rfl, fill_add_apply hi, hd]
        decide
      | false =>
        have hd : appShadow (h.st.allocate f p m size false).shadow (p.toNat + i) = 0xff#8 := hdef
        rw [if_neg Bool.false_ne_true, hm.free_granted hap hi, hd]
        decide
  · intro q hq _
    have hne : q ≠ p := fun heq => hnot (heq ▸ hq)
    obtain ⟨hsz, hagree⟩ := hlaw.others_st hq (by rw [hr]; rintro ⟨⟩)
    refine ⟨by rw [allocate_header, if_neg fun hc => hne hc.2], hsz, hagree, ?_⟩
    rw [hflip]
    split_ifs
    · exact agreeOn_fill (hap q hq)
    · exact AgreeOn.refl _ _ _
  · intro a hnew hold
    have hzero : appShadow s.shadow a = 0#8 := hm.free a fun q hq => hold q hq (by rw [hr]; rfl)
    have hout := hnew p rfl
    rw [hsize'] at hout
    rw [hflip]
    split_ifs
    · rw [fill_apply, if_neg hout, hzero]
    · exact hzero

private theorem Mirror.deallocated {o : Uptr} (ho : o ∈ h.live) (hr : r = .deallocate o) :
    Mirror A ⟨h.after r none (h.st.release f o), s.flipRelease f o⟩ := by
  have heff : FlipEffect A f h s r grant none _ _ := .deallocated o ho hr
  have hlaw := hm.inv.heapLaw hpm hgrant heff.combined
  obtain ⟨b, n, hfill, hb, hn, hbo, hno⟩ := hm.flipRelease hpf ho rfl rfl
  have hrel : ∀ q, r.releases none q = false ↔ q ≠ o := by
    intro q
    simp [hr, Request.releases]
  refine hm.after (hm.inv.call hpm hgrant heff.combined) (heff.sameRecords hm.records)
    (fun p hp => by cases hp) ?_ ?_
  · intro q hq hkeep
    have hne := (hrel q).mp hkeep
    obtain ⟨hsz, hagree⟩ := hlaw.others_st hq (by rw [hr]; rintro ⟨⟩; exact hne rfl)
    refine ⟨by rw [release_header], hsz, hagree, ?_⟩
    rw [hfill]
    refine agreeOn_fill ?_
    rcases hm.inv.apart_user ho hq (Ne.symm hne) with hap | hap
    · exact Or.inl (hn.trans hap)
    · exact Or.inr (hap.trans hb)
  · intro a _ hold
    rw [hfill, fill_apply]
    split_ifs with hin
    · rfl
    · refine hm.free a fun q hq hmem => ?_
      by_cases hqo : q = o
      · subst hqo
        exact hin ⟨hbo.trans hmem.1, hmem.2.trans_le hno⟩
      · exact hold q hq ((hrel q).mpr hqo) hmem

omit hpf in
private theorem Mirror.resized (hcalm : Calm A h r) {o n : Uptr} (ho : o ∈ h.live)
    (hr : r = .reallocate o n) (hn : n ≤ h.st.allocatedSize A o) :
    Mirror A ⟨h.after r (some o) (combinedResized f o n h.st), combinedResized f o n s⟩ := by
  have heff : FlipEffect A f h s r grant (some o) _ _ := .resized o n ho hr hn
  have hlaw := hm.inv.heapLaw hpm hgrant heff.combined
  obtain ⟨hle, hcut⟩ := hcalm o n hr hn
  have hsizeo : s.sizeOf o = h.st.sizeOf o := congrArg BitVec.toNat (hm.records.size o)
  have hdefault : (combinedResized f o n h.st).shadow = h.st.shadow := combinedResized_shadow hle
  have hflip : (combinedResized f o n s).shadow = s.shadow :=
    combinedResized_shadow (by rw [hsizeo]; exact hle)
  have hsize : (combinedResized f o n h.st).sizeOf o = n.toNat := by
    simp [CombinedState.sizeOf, combinedResized]
  have hrel : ∀ q, r.releases (some o) q = false ↔ q ≠ o := by
    intro q
    simp [hr, Request.releases]
  refine hm.after (hm.inv.call hpm hgrant heff.combined) (heff.sameRecords hm.records) ?_ ?_ ?_
  · rintro p ⟨⟩
    refine ⟨hm.pages o ho, fun i hi => ?_⟩
    rw [hdefault, hflip]
    exact hm.poison o ho i (lt_of_lt_of_le (hsize ▸ hi) hle)
  · intro q hq hkeep
    have hne := (hrel q).mp hkeep
    obtain ⟨hsz, hagree⟩ := hlaw.others_st hq (by rw [hr]; rintro ⟨⟩; exact hne rfl)
    refine ⟨rfl, hsz, hagree, ?_⟩
    rw [hflip]
    exact AgreeOn.refl _ _ _
  · intro a hnew hold
    have hout := hnew o rfl
    rw [hsize] at hout
    rw [hflip]
    by_cases hin : o.toNat ≤ a ∧ a < o.toNat + h.st.sizeOf o
    · -- the byte was cut off, so it is poisoned in the default build
      obtain ⟨i, rfl⟩ := Nat.exists_eq_add_of_le hin.1
      have hi : i < h.st.sizeOf o := by omega
      exact (hm.poison o ho i hi).mpr (hcut i (by omega) hi)
    · refine hm.free a fun q hq => ?_
      by_cases hqo : q = o
      · subst hqo
        exact hin
      · exact hold q hq ((hrel q).mpr hqo)

private theorem Mirror.moved
    (hpages : ∀ p m, grant = some (p, m) → fromPrimary p = false → WholePages m) {o p : Uptr}
    {m : MmapHeader} {n : Uptr} (ho : o ∈ h.live) (hp : grant = some (p, m))
    (hr : r = .reallocate o n) :
    Mirror A ⟨h.after r (some p) (((h.st.allocate f p m n false).copyMemory p o
        (minUptr n (h.st.metaData o).requestedSize)).release f o),
      ((s.flipAlloc f p m n false).copyMemory p o
        (minUptr n (s.metaData o).requestedSize)).flipRelease f o⟩ := by
  have heff : FlipEffect A f h s r grant (some p) _ _ := .moved o p m n ho hp hr
  have hlaw := hm.inv.heapLaw hpm hgrant heff.combined
  have hinv : CombinedInv A h := hm.inv
  have hwants : r.wants = some (n, 8#64) := by rw [hr]; rfl
  obtain ⟨hnot, hlt, happ, hroom, hap⟩ := hinv.grant_facts hgrant hp hwants
  have hop : o ≠ p := fun heq => hnot (heq ▸ ho)
  obtain ⟨-, hsize, hold, hrest⟩ := hlaw.reallocated o n p hr rfl
  set st := ((h.st.allocate f p m n false).copyMemory p o
    (minUptr n (h.st.metaData o).requestedSize)).release f o with hst
  set t := (s.flipAlloc f p m n false).copyMemory p o (minUptr n (s.metaData o).requestedSize)
    with ht
  have hk : (minUptr n (s.metaData o).requestedSize).toNat = min n.toNat (h.st.sizeOf o) := by
    rw [hm.records.size o]
    exact minUptr_toNat ..
  have hsize' : st.sizeOf p = n.toNat := congrArg BitVec.toNat hsize
  -- the copy, then the release of the old room
  have hcopy : appShadow t.shadow =
      blit (appShadow s.shadow) p.toNat o.toNat (min n.toNat (h.st.sizeOf o)) := by
    have hsrc : AppRange o.toNat (min n.toNat (h.st.sizeOf o)) :=
      (hm.inv.housed o ho).user_app (le_trans (min_le_right _ _) (hm.inv.size_le o ho))
    have hdst : AppRange p.toNat (min n.toNat (h.st.sizeOf o)) :=
      happ.mono le_rfl (by omega)
    rw [← hk] at hsrc hdst ⊢
    have hcs := appShadow_copyShadow hdst hsrc (s.flipAlloc f p m n false).shadow
    rw [flipAlloc_shadow hpf m n] at hcs
    rw [← hcs, ht, CombinedState.copyMemory, flipAlloc_shadow hpf m n]
  have hrecords := flipAlloc_records (f := f) (s := s) hop m n false
  obtain ⟨b, k, hfill, hb, hbk, hbo, hko⟩ :=
    hm.flipRelease hpf (t := t) ho hrecords.1 hrecords.2
  have hrel : ∀ q, r.releases (some p) q = false ↔ q ≠ o := by
    intro q
    simp [hr, Request.releases]
  refine hm.after (hm.inv.call hpm hgrant heff.combined) (heff.sameRecords hm.records) ?_ ?_ ?_
  · rintro q ⟨⟩
    refine ⟨fun hprim => ?_, fun i hi => ?_⟩
    · rw [release_header]
      rw [show ((h.st.allocate f p m n false).copyMemory p o
        (minUptr n (h.st.metaData o).requestedSize)).header p = m by
          exact (allocate_header ..).trans (if_pos ⟨hprim, rfl⟩)]
      exact hpages p m hp hprim
    · rw [hsize'] at hi
      have hout : ¬(b ≤ p.toNat + i ∧ p.toNat + i < b + k) := by
        rcases hroom o ho with hap | hap <;> omega
      rw [hfill, fill_apply, if_neg hout, hcopy]
      by_cases hlo : i < h.st.sizeOf o
      · have hdef : appShadow st.shadow (p.toNat + i) = appShadow h.st.shadow (o.toNat + i) :=
          (hold i (lt_min hlo hi)).2
        rw [blit_add_apply (lt_min hi hlo), hdef]
        exact hm.poison o ho i hlo
      · have hdef : appShadow st.shadow (p.toNat + i) = 0xff#8 :=
          hrest i (Nat.not_lt.mp hlo) hi
        rw [blit_apply, if_neg (by omega), hm.free_granted hap hi, hdef]
        decide
  · intro q hq hkeep
    have hne := (hrel q).mp hkeep
    have hqp : q ≠ p := fun heq => hnot (heq ▸ hq)
    obtain ⟨hsz, hagree⟩ := hlaw.others_st hq (by rw [hr]; rintro ⟨⟩; exact hne rfl)
    refine ⟨?_, hsz, hagree, ?_⟩
    · rw [release_header]
      exact (allocate_header ..).trans (if_neg fun hc => hqp hc.2)
    · rw [hfill]
      refine AgreeOn.trans ?_ (agreeOn_fill ?_)
      · rw [hcopy]
        refine agreeOn_blit ?_
        rcases hap q hq with hap | hap
        · exact Or.inl (by omega)
        · exact Or.inr hap
      · rcases hm.inv.apart_user ho hq (Ne.symm hne) with hap | hap
        · exact Or.inl (hbk.trans hap)
        · exact Or.inr (hap.trans hb)
  · intro a hnew hold'
    have hout := hnew p rfl
    rw [hsize'] at hout
    rw [hfill, fill_apply]
    split_ifs with hin
    · rfl
    · rw [hcopy, blit_apply, if_neg (by omega)]
      refine hm.free a fun q hq hmem => ?_
      by_cases hqo : q = o
      · subst hqo
        exact hin ⟨hbo.trans hmem.1, hmem.2.trans_le hko⟩
      · exact hold' q hq ((hrel q).mpr hqo) hmem

end Call

/-- **A call that does not disturb the convention keeps the invariant.** -/
theorem Mirror.call (hpm : f.poisonInMalloc = true) (hpf : f.poisonInFree = true)
    (hm : Mirror A ⟨h, s⟩) (hgrant : h.MayGrant A r grant)
    (hpages : ∀ p m, grant = some (p, m) → fromPrimary p = false → WholePages m)
    (hcalm : Calm A h r) (heff : FlipEffect A f h s r grant ret st st') :
    Mirror A ⟨h.after r ret st, st'⟩ := by
  cases heff with
  | null hr =>
    have heff : FlipEffect A f h s r grant none _ _ := .null hr
    refine hm.after (hm.inv.call hpm hgrant heff.combined) hm.records (fun p hp => by cases hp)
      (fun q _ _ => ⟨rfl, rfl, AgreeOn.refl _ _ _, AgreeOn.refl _ _ _⟩) fun a _ ha => ?_
    exact hm.free a fun q hq => ha q hq (hr q)
  | allocated p m size alignment zero check hp hr =>
    exact hm.allocated hpm hpf hgrant hpages hp hr
  | deallocated o ho hr => exact hm.deallocated hpm hpf hgrant ho hr
  | resized o n ho hr hn => exact hm.resized hpm hgrant hcalm ho hr hn
  | moved o p m n ho hp hr => exact hm.moved hpm hpf hgrant hpages ho hp hr

/-- A part of a live block as a range of application memory. -/
private theorem CombinedInv.part (hinv : CombinedInv A h) {p i n : Uptr} (hp : p ∈ h.live)
    (hn : i.toNat + n.toNat ≤ h.st.sizeOf p) :
    (p + i).toNat = p.toNat + i.toNat ∧ (p + i).toNat < 2 ^ 48 ∧
      AppRange (p + i).toNat n.toNat := by
  have happ := (hinv.housed p hp).user_app (hinv.size_le p hp)
  have hlt := hinv.lt p hp
  have hi : i.toNat ≤ 2 ^ 47 := by
    rcases Nat.eq_zero_or_pos (h.st.sizeOf p) with hz | hpos
    · omega
    · have := happ.lt hpos
      omega
  have hadd : (p + i).toNat = p.toNat + i.toNat := by bv_omega
  refine ⟨hadd, by omega, ?_⟩
  rw [hadd]
  exact happ.mono (by omega) (by omega)

private theorem CombinedInv.unpoison (hinv : CombinedInv A h) {p i n : Uptr} (hp : p ∈ h.live)
    (hn : i.toNat + n.toNat ≤ h.st.sizeOf p) :
    CombinedInv A { h with
      st.shadow := cqmsanUnpoison f.clearShadowMmapThreshold h.st.shadow (p + i) n } := by
  obtain ⟨hadd, hlt, happ⟩ := hinv.part hp hn
  refine ⟨hinv.nodup, hinv.lt, fun q hq => (hinv.housed q hq).congr rfl, hinv.size_le, hinv.apart,
    fun c hc hnot => ⟨(hinv.record c hc hnot).1, fun j hj => ?_⟩⟩
  have hcp : c ≠ p := fun heq => hnot (heq ▸ hp)
  have hcap := (hinv.record c hc hnot).1
  have hj' : j < (h.st.metaData c).poisonedSize.toNat := hj
  have hold := (hinv.record c hc hnot).2 j hj'
  rw [cqmsanUnpoison, appShadow_setAppShadow happ hlt, fill_apply, if_neg, hold]
  rintro ⟨hlo, hhi⟩
  have hroom := (hinv.housed p hp).mem_room (hinv.size_le p hp)
    (i := c.toNat + j) (by omega)
  rcases (hinv.housed p hp).apartPrimary c hc hcp with hap | hap <;> omega

theorem Mirror.unpoison (hm : Mirror A ⟨h, s⟩) {p i n : Uptr} (hp : p ∈ h.live)
    (hn : i.toNat + n.toNat ≤ h.st.sizeOf p) :
    Mirror A ⟨{ h with
        st.shadow := cqmsanUnpoison f.clearShadowMmapThreshold h.st.shadow (p + i) n },
      { s with
        shadow := setAppShadow f.clearShadowMmapThreshold s.shadow (p + i) n
          Convention.flip.cleanByte }⟩ := by
  have hinv : CombinedInv A h := hm.inv
  obtain ⟨hadd, hlt, happ⟩ := hinv.part hp hn
  have hd := appShadow_setAppShadow happ hlt f.clearShadowMmapThreshold h.st.shadow kCleanByte
  have hf := appShadow_setAppShadow happ hlt f.clearShadowMmapThreshold s.shadow
    Convention.flip.cleanByte
  refine ⟨hinv.unpoison hp hn, ⟨hm.records.header, hm.records.size⟩, hm.pages,
    fun q hq j hj => ?_, fun a ha => ?_⟩
  · have hold := hm.poison q hq j hj
    simp only [cqmsanUnpoison, hd, hf, fill_apply]
    split_ifs
    · decide
    · exact hold
  · have hout := ha p hp
    have hout' : ¬(p.toNat ≤ a ∧ a < p.toNat + h.st.sizeOf p) := hout
    simp only [hf, fill_apply]
    rw [if_neg (by omega)]
    exact hm.free a ha

theorem FlipPair.Initial.mirror {pr : FlipPair} (h0 : pr.Initial) : Mirror A pr := by
  obtain ⟨⟨hlive, hmeta⟩, hmeta', hheader, -, hzero⟩ := h0
  refine ⟨⟨?_, ?_, ?_, ?_, ?_, fun p _ _ => ?_⟩, ⟨hheader, fun p => ?_⟩, ?_, ?_, fun a _ => hzero _⟩
  all_goals simp [hlive, hmeta, hmeta', FlipPair.SamePoison]

/-- **Every step that does not disturb the convention keeps the invariant.** -/
theorem Mirror.step (hpm : f.poisonInMalloc = true) (hpf : f.poisonInFree = true)
    {pr pr' : FlipPair} (hm : Mirror A pr) (hstep : FlipStep A f (Calm A) pr pr') :
    Mirror A pr' := by
  cases hstep with
  | @call h s c rss grant ret st st' hgrant hpages hptr hC hexec hflip =>
    obtain ⟨st'', hexec', heff⟩ := flip_effect hm.records hptr hexec
    rw [hflip] at hexec'
    cases hexec'
    exact hm.call hpm hpf hgrant hpages hC heff
  | unpoison p i n hp hn => exact hm.unpoison hp hn

/-- The default half of every run is a run of the default build. -/
theorem CombinedInv.flipStep (hpm : f.poisonInMalloc = true) {C : CombinedHeap → Request → Prop}
    {pr pr' : FlipPair} (hinv : CombinedInv A pr.default) (hstep : FlipStep A f C pr pr') :
    CombinedInv A pr'.default := by
  cases hstep with
  | call c rss grant ret st st' hgrant hpages hptr hC hexec hflip =>
    exact hinv.call hpm hgrant (combined_effect hptr hexec)
  | unpoison p i n hp hn => exact CombinedInv.unpoison hinv hp hn

end Invariant

/-! ### The comparison -/

theorem cqmsanTestShadow_empty (m : Mem) (x : Uptr) : cqmsanTestShadow m x 0#64 = -1 := by
  rw [cqmsanTestShadow]
  split_ifs <;> simp_all

theorem cqmsanTestShadow_one (m : Mem) {x : Uptr} (hx : memIsApp x.toNat = true) :
    cqmsanTestShadow m x 1#64 = if appShadow m x.toNat = 0#8 then -1 else 0 := by
  have hshadow : m (memToShadow x).toNat = appShadow m x.toNat := by
    rw [toNat_memToShadow]
    rfl
  by_cases hz : appShadow m x.toNat = 0#8 <;>
    simp [cqmsanTestShadow, testShadowLoop, hx, hshadow, hz]

/-- In a state of any run, both halves of the comparison hold iff all live blocks are empty. -/
private theorem same_iff {A : Arena} {pr : FlipPair} (hinv : CombinedInv A pr.default) :
    pr.SamePoison ∧ pr.SameTest ↔ ∀ p ∈ pr.default.live, pr.default.st.sizeOf p = 0 := by
  constructor
  · rintro ⟨hpoison, htest⟩ p hp
    by_contra hne
    have hpos : 0 < pr.default.st.sizeOf p := Nat.pos_of_ne_zero hne
    have happ := (hinv.housed p hp).user_app (hinv.size_le p hp)
    have hx : memIsApp p.toNat = true := happ 0 hpos
    -- the first byte is reported by exactly one of the builds
    have hsame := htest p hp 0#64 1#64 (by change 0 + 1 ≤ _; omega)
    have hbyte := hpoison p hp 0 hpos
    rw [BitVec.add_zero, cqmsanTestShadow_one _ hx, cqmsanTestShadow_one _ hx] at hsame
    rw [Nat.add_zero] at hbyte
    by_cases hz : appShadow pr.default.st.shadow p.toNat = 0#8
    · rw [if_pos hz, if_neg (fun h => hbyte.mp h hz)] at hsame
      cases hsame
    · rw [if_neg hz, if_pos (hbyte.mpr hz)] at hsame
      cases hsame
  · intro hempty
    refine ⟨fun p hp i hi => ?_, fun p hp i n hn => ?_⟩
    · rw [hempty p hp] at hi
      exact absurd hi (Nat.not_lt_zero i)
    · rw [hempty p hp] at hn
      obtain rfl : n = 0#64 := BitVec.eq_of_toNat_eq (by simp; omega)
      rw [cqmsanTestShadow_empty, cqmsanTestShadow_empty]

/-- **The flipped heap.** With `poison_in_malloc` and `poison_in_free` on, a run in which no
`realloc` in place grows a block or cuts off initialised bytes keeps the poison of the two builds
equal. `__cqmsan_test_shadow` is not flipped: in any run the two builds also answer it alike iff
no byte is allocated. -/
theorem flipHeap_mirrors (A : Arena) (f : Flags) (hpm : f.poisonInMalloc = true)
    (hpf : f.poisonInFree = true) (pr₀ pr : FlipPair) (h0 : pr₀.Initial) :
    (Relation.ReflTransGen (FlipStep A f (Calm A)) pr₀ pr → pr.SamePoison) ∧
    (Relation.ReflTransGen (FlipStep A f fun _ _ => True) pr₀ pr →
      (pr.SamePoison ∧ pr.SameTest ↔ ∀ p ∈ pr.default.live, pr.default.st.sizeOf p = 0)) := by
  constructor
  · intro hrun
    have hmirror : Mirror A pr := by
      induction hrun with
      | refl => exact h0.mirror
      | tail _ hstep ih => exact ih.step hpm hpf hstep
    exact hmirror.poison
  · intro hrun
    have hinv : CombinedInv A pr.default := by
      induction hrun with
      | refl => exact h0.mirror.inv
      | tail _ hstep ih => exact ih.flipStep hpm hstep
    exact same_iff hinv

/-- Two processes that have not allocated yet. -/
def zeroPair : FlipPair := ⟨zeroCombined, zeroCombined.st⟩

/-- The two builds after a `malloc(24)`. -/
def FlipPair.malloc24 (pr : FlipPair) : FlipPair :=
  ⟨pr.default.after (Call.malloc 24#64).request (some 0x700000000000#64)
      (pr.default.st.allocate defaultFlags 0x700000000000#64 ⟨0#64, 0#64, 0#64⟩ 24#64 false),
    pr.flip.flipAlloc defaultFlags 0x700000000000#64 ⟨0#64, 0#64, 0#64⟩ 24#64 false⟩

/-- The two builds after a first `malloc(24)`. -/
def pairMalloc : FlipPair := zeroPair.malloc24

/-- The two builds after the first eight bytes of the block were initialised. -/
def pairUsed : FlipPair :=
  ⟨{ pairMalloc.default with
      st.shadow := cqmsanUnpoison defaultFlags.clearShadowMmapThreshold pairMalloc.default.st.shadow
        (0x700000000000#64 + 0#64) 8#64 },
    { pairMalloc.flip with
      shadow := setAppShadow defaultFlags.clearShadowMmapThreshold pairMalloc.flip.shadow
        (0x700000000000#64 + 0#64) 8#64 Convention.flip.cleanByte }⟩

/-- The two builds after the block was freed. -/
def pairFree : FlipPair :=
  ⟨pairUsed.default.after (Call.free 0x700000000000#64).request none
      (pairUsed.default.st.release defaultFlags 0x700000000000#64),
    pairUsed.flip.flipRelease defaultFlags 0x700000000000#64⟩

/-- The two builds after the block was grown to 32 bytes in place. -/
def pairGrown : FlipPair :=
  ⟨pairMalloc.default.after (Call.realloc 0x700000000000#64 32#64).request
      (some 0x700000000000#64)
      (combinedResized defaultFlags 0x700000000000#64 32#64 pairMalloc.default.st),
    combinedResized defaultFlags 0x700000000000#64 32#64 pairMalloc.flip⟩

theorem initial_zeroPair : zeroPair.Initial :=
  ⟨⟨rfl, fun _ => rfl⟩, fun _ => rfl, rfl, fun _ => rfl, fun _ => rfl⟩

theorem flipStep_malloc24 {C : CombinedHeap → Request → Prop} {pr : FlipPair}
    (hlive : pr.default.live = []) (hC : C pr.default (Call.malloc 24#64).request) :
    FlipStep oneChunk defaultFlags C pr pr.malloc24 := by
  refine .call (Call.malloc 24#64) false (some (0x700000000000#64, ⟨0#64, 0#64, 0#64⟩)) _ _ _
    (mayGrant_oneChunk hlive) ?_ ?_ hC rfl rfl
  · rintro p m hp hprim
    cases hp
    cases hprim
  · intro p hp
    cases hp

theorem flipStep_pairUsed {C : CombinedHeap → Request → Prop} :
    FlipStep oneChunk defaultFlags C pairMalloc pairUsed :=
  .unpoison 0x700000000000#64 0#64 8#64 (List.mem_singleton.mpr rfl) (by decide)

theorem flipStep_pairFree :
    FlipStep oneChunk defaultFlags (Calm oneChunk) pairUsed pairFree := by
  refine .call (Call.free 0x700000000000#64) false none _ _ _ ?_ ?_ ?_ ?_ rfl rfl
  · rintro p m hp
    cases hp
  · rintro p m hp
    cases hp
  · rintro p hp
    cases hp
    exact List.mem_singleton.mpr rfl
  · intro o n hr
    cases hr

theorem flipStep_pairGrown :
    FlipStep oneChunk defaultFlags (fun _ _ => True) pairMalloc pairGrown := by
  refine .call (Call.realloc 0x700000000000#64 32#64) false none _ _ _ ?_ ?_ ?_ trivial ?_ ?_
  · rintro p m hp
    cases hp
  · rintro p m hp
    cases hp
  · rintro p hp
    cases hp
    exact List.mem_singleton.mpr rfl
  · rfl
  · rfl

/-- After a block was allocated, initialised in part, freed and allocated again, all 24 bytes are
poisoned in both builds. -/
theorem flipHeap_mirrors_recycled : pairFree.malloc24.SamePoison := by
  have hcalm : ∀ pr : FlipPair, Calm oneChunk pr.default (Call.malloc 24#64).request := by
    intro pr o n hr
    cases hr
  have hrun : Relation.ReflTransGen (FlipStep oneChunk defaultFlags (Calm oneChunk)) zeroPair
      pairFree.malloc24 :=
    (((Relation.ReflTransGen.single (flipStep_malloc24 rfl (hcalm _))).tail
      flipStep_pairUsed).tail flipStep_pairFree).tail (flipStep_malloc24 rfl (hcalm _))
  exact (flipHeap_mirrors oneChunk defaultFlags rfl rfl zeroPair _ initial_zeroPair).1 hrun

/-- After a `malloc(24)` the default build reports the first byte and the flipped build does not;
after a `realloc` in place to 32 bytes the new bytes are clean in the flipped build. -/
theorem not_flipHeap_mirrors :
    (Relation.ReflTransGen (FlipStep oneChunk defaultFlags fun _ _ => True) zeroPair pairMalloc ∧
      cqmsanTestShadow pairMalloc.default.st.shadow 0x700000000000#64 1#64 = 0 ∧
      cqmsanTestShadow pairMalloc.flip.shadow 0x700000000000#64 1#64 = -1) ∧
    Relation.ReflTransGen (FlipStep oneChunk defaultFlags fun _ _ => True) zeroPair pairGrown ∧
      ¬pairGrown.SamePoison := by
  have hmalloc : FlipStep oneChunk defaultFlags (fun _ _ => True) zeroPair pairMalloc :=
    flipStep_malloc24 rfl trivial
  refine ⟨⟨.single hmalloc, by decide, by decide⟩, .tail (.single hmalloc) flipStep_pairGrown, ?_⟩
  intro hsame
  have hbyte := hsame 0x700000000000#64 (List.mem_cons_self ..) 24 (by decide)
  exact absurd hbyte (by decide)

end CQMSan
