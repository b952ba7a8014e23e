import CQMSan.Runtime.HeapLaw

/-!
# The CombinedAllocator build

The default build takes its chunks from the `CombinedAllocator` of `sanitizer_common`: small
ones from a primary allocator, whose chunks and their metadata persist, and large ones from a
secondary allocator, which maps and unmaps each chunk. The allocator itself is below this model:
it answers an allocation with a chunk (`ChunkAnswer`), and `Arena` fixes the chunks of the
primary.

`Metadata` records how much of a free primary chunk is already poisoned, so that the next
allocation of the chunk poisons only the rest (`poison_reuse`). The invariant (`CombinedInv`)
says that the record of every free primary chunk is truthful; the heap law then follows as for
the glibc build.
-/

namespace CQMSan

open ByteMemory

/-- `Metadata`. -/
structure Metadata where
  /-- `requested_size`. -/
  requestedSize : Uptr
  /-- `poisoned_size`. -/
  poisonedSize : Uptr
deriving DecidableEq, Repr

/-- The header of a chunk of the secondary allocator (`LargeMmapAllocator::Header`). -/
structure MmapHeader where
  /-- The size the chunk was allocated for. -/
  size : Uptr
  /-- `map_beg`. -/
  mapBeg : Uptr
  /-- `map_size`. -/
  mapSize : Uptr
deriving DecidableEq, Repr

/-- The state of the process as the default build sees it. -/
structure CombinedState where
  /-- Application memory. -/
  data : Mem
  /-- Shadow memory, by shadow address. -/
  shadow : Mem
  /-- `GetMetaData`. -/
  metaData : Uptr → Metadata
  /-- The headers of the secondary allocator. -/
  header : Uptr → MmapHeader

/-- What the underlying allocator answers to one allocation: a chunk, with the header of its
mapping when it comes from the secondary. -/
structure ChunkAnswer where
  /-- `IsRssLimitExceeded()`. -/
  rssLimitExceeded : Bool
  /-- The result of `allocator.Allocate`. -/
  chunk : Option (Uptr × MmapHeader)

/-- `FromPrimary`: the pointer lies in the space of the primary allocator. -/
def fromPrimary (p : Uptr) : Bool :=
  decide (0x700000000000#64 ≤ p) && decide (p < 0x740000000000#64)

/-- The chunks of the primary allocator: where they start and how large they are. -/
structure Arena where
  /-- A chunk starts here. -/
  isChunk : Uptr → Prop
  /-- `GetActuallyAllocatedSize` of a primary chunk. -/
  cap : Uptr → Uptr
  fromPrimary_of_isChunk : ∀ p, isChunk p → fromPrimary p = true
  app : ∀ p, isChunk p → AppRange p.toNat (cap p).toNat

section Model

variable (A : Arena) (f : Flags)

/-- `GetActuallyAllocatedSize`. -/
def CombinedState.allocatedSize (s : CombinedState) (p : Uptr) : Uptr :=
  if fromPrimary p then A.cap p else roundUpTo (s.header p).size pageSize

/-- The state after `allocator.Allocate`: a chunk of the secondary is freshly mapped. -/
def CombinedState.underlyingAllocate (s : CombinedState) (p : Uptr) (m : MmapHeader) :
    CombinedState :=
  if fromPrimary p then s
  else
    { s with
      data := fill s.data m.mapBeg.toNat m.mapSize.toNat 0#8
      metaData := Function.update s.metaData p ⟨0#64, 0#64⟩
      header := Function.update s.header p m }

/-- The state after `allocator.Deallocate`: `CQMsanMapUnmapCallback::OnUnmap` cleans the shadow
of a mapping of the secondary. -/
def CombinedState.underlyingDeallocate (s : CombinedState) (p : Uptr) : CombinedState :=
  if fromPrimary p then s
  else
    let m := s.header p
    let shadow := cqmsanUnpoison f.clearShadowMmapThreshold s.shadow m.mapBeg m.mapSize
    { s with
      shadow := releaseMemoryPagesToOS shadow (memToShadow m.mapBeg)
        (memToShadow m.mapBeg + m.mapSize) }

/-- What `CQMsanAllocate` does once it has the chunk. -/
def combinedAllocated (p size : Uptr) (zero : Bool) (s : CombinedState) : CombinedState :=
  let poisoned := (s.metaData p).poisonedSize
  if zero then
    { s with
      data := if fromPrimary p then fill s.data p.toNat size.toNat 0#8 else s.data
      shadow := if fromPrimary p then setShadow f.clearShadowMmapThreshold s.shadow p size kCleanByte
        else cqmsanUnpoison f.clearShadowMmapThreshold s.shadow p size
      metaData := Function.update s.metaData p ⟨size, 0#64⟩ }
  else if f.poisonInMalloc then
    let already := if f.poisonReuse && fromPrimary p then poisoned else 0#64
    { s with
      shadow := if already < size then
          cqmsanPoison f.clearShadowMmapThreshold s.shadow (p + already) (size - already)
        else s.shadow
      metaData := Function.update s.metaData p ⟨size, size⟩ }
  else { s with metaData := Function.update s.metaData p ⟨size, poisoned⟩ }

/-- `CQMsanAllocate` of the default build. The alignment is only passed on to the underlying
allocator. -/
def combinedAllocate (ans : ChunkAnswer) (size _alignment : Uptr) (zero : Bool)
    (s : CombinedState) : Outcome CombinedState (Option Uptr) :=
  if f.maxMallocSize < size then f.fail .allocationSizeTooBig s
  else if ans.rssLimitExceeded then f.fail .rssLimitExceeded s
  else match ans.chunk with
    | none => f.fail .outOfMemory s
    | some (p, m) => .ok (some p) (combinedAllocated f p size zero (s.underlyingAllocate p m))

/-- What `CQMsanDeallocate` does before the chunk goes back to the underlying allocator. -/
def combinedReleased (p : Uptr) (s : CombinedState) : CombinedState :=
  let size := (s.metaData p).requestedSize
  if f.poisonInFree && fromPrimary p then
    { s with
      shadow := cqmsanPoison f.clearShadowMmapThreshold s.shadow p size
      metaData := Function.update s.metaData p ⟨0#64, size⟩ }
  else { s with metaData := Function.update s.metaData p ⟨0#64, 0#64⟩ }

/-- `CQMsanDeallocate` of the default build. -/
def combinedDeallocate (p : Uptr) (s : CombinedState) : Outcome CombinedState Unit :=
  .ok () ((combinedReleased f p s).underlyingDeallocate f p)

/-- `CopyMemory` of the default build. -/
def CombinedState.copyMemory (s : CombinedState) (dst src size : Uptr) : CombinedState :=
  { s with
    data := blit s.data dst.toNat src.toNat size.toNat
    shadow := copyShadow s.shadow dst src size }

/-- The in-place branch of `CQMsanReallocate`. `PoisonMemory` sets the shadow without the
`MEM_IS_APP` test. -/
def combinedResized (p newSize : Uptr) (s : CombinedState) : CombinedState :=
  let oldSize := (s.metaData p).requestedSize
  { s with
    shadow := if oldSize < newSize then
        if f.poisonInMalloc then
          setShadow f.clearShadowMmapThreshold s.shadow (p + oldSize) (newSize - oldSize) 0xff#8
        else s.shadow
      else s.shadow
    metaData := Function.update s.metaData p ⟨newSize, (s.metaData p).poisonedSize⟩ }

/-- `CQMsanReallocate` of the default build. -/
def combinedReallocate (ans : ChunkAnswer) (oldP newSize alignment : Uptr) (s : CombinedState) :
    Outcome CombinedState (Option Uptr) :=
  let oldSize := (s.metaData oldP).requestedSize
  if newSize ≤ s.allocatedSize A oldP then .ok (some oldP) (combinedResized f oldP newSize s)
  else
    let memcpySize := minUptr newSize oldSize
    match combinedAllocate f ans newSize alignment false s with
    | .ok (some newP) s =>
      match combinedDeallocate f oldP (s.copyMemory newP oldP memcpySize) with
      | .ok _ s => .ok (some newP) s
      | .error d s => .error d s
    | .ok none s => .ok none s
    | .error d s => .error d s

/-- The default build. -/
def combinedBackend : Backend CombinedState ChunkAnswer where
  allocate := combinedAllocate f
  deallocate := combinedDeallocate f
  reallocate := combinedReallocate A f

end Model

/-! ### Rooms -/

section Rooms

variable (A : Arena)

/-- Where the room of a chunk starts: the chunk itself, or the mapping around it. -/
def CombinedState.roomBeg (s : CombinedState) (p : Uptr) : ℕ :=
  if fromPrimary p then p.toNat else (s.header p).mapBeg.toNat

/-- The number of bytes of the room of a chunk. -/
def CombinedState.roomLen (s : CombinedState) (p : Uptr) : ℕ :=
  if fromPrimary p then (A.cap p).toNat else (s.header p).mapSize.toNat

/-- What the underlying allocator guarantees about a chunk it has handed out. -/
structure Housed (s : CombinedState) (p : Uptr) : Prop where
  chunk : fromPrimary p = true → A.isChunk p
  beg_le : s.roomBeg p ≤ p.toNat
  end_le : p.toNat + (s.allocatedSize A p).toNat ≤ s.roomBeg p + s.roomLen A p
  app : AppRange (s.roomBeg p) (s.roomLen A p)
  apartPrimary : ∀ q, A.isChunk q → q ≠ p →
    Apart (s.roomBeg p) (s.roomLen A p) q.toNat (A.cap q).toNat

/-- The requested size of the chunk. -/
def CombinedState.sizeOf (s : CombinedState) (p : Uptr) : ℕ := (s.metaData p).requestedSize.toNat

/-- Only the range `[b, b + n)` of the memory and the records of `p` differ. -/
structure Frame (s s' : CombinedState) (p : Uptr) (b n : ℕ) : Prop where
  shadow : ∀ a, ¬ (b ≤ a ∧ a < b + n) → appShadow s'.shadow a = appShadow s.shadow a
  data : ∀ a, ¬ (b ≤ a ∧ a < b + n) → s'.data a = s.data a
  metaData : ∀ q, q ≠ p → s'.metaData q = s.metaData q
  header : ∀ q, q ≠ p → s'.header q = s.header q

variable {A}

theorem Frame.trans {s s' s'' : CombinedState} {p : Uptr} {b n : ℕ} (h : Frame s s' p b n)
    (h' : Frame s' s'' p b n) : Frame s s'' p b n where
  shadow a ha := (h'.shadow a ha).trans (h.shadow a ha)
  data a ha := (h'.data a ha).trans (h.data a ha)
  metaData q hq := (h'.metaData q hq).trans (h.metaData q hq)
  header q hq := (h'.header q hq).trans (h.header q hq)

theorem Frame.agreeOn_shadow {s s' : CombinedState} {p : Uptr} {b n q k : ℕ}
    (h : Frame s s' p b n) (hap : Apart b n q k) :
    AgreeOn (appShadow s.shadow) (appShadow s'.shadow) q k := fun i hi =>
  h.shadow _ (by rcases hap with hap | hap <;> omega)

theorem Frame.agreeOn_data {s s' : CombinedState} {p : Uptr} {b n q k : ℕ}
    (h : Frame s s' p b n) (hap : Apart b n q k) : AgreeOn s.data s'.data q k := fun i hi =>
  h.data _ (by rcases hap with hap | hap <;> omega)

theorem roomBeg_congr {s t : CombinedState} {p : Uptr} (h : t.header p = s.header p) :
    t.roomBeg p = s.roomBeg p := by rw [CombinedState.roomBeg, CombinedState.roomBeg, h]

theorem roomLen_congr {s t : CombinedState} {p : Uptr} (h : t.header p = s.header p) :
    t.roomLen A p = s.roomLen A p := by rw [CombinedState.roomLen, CombinedState.roomLen, h]

theorem Housed.congr {s s' : CombinedState} {p : Uptr} (hh : Housed A s p)
    (h : s'.header p = s.header p) : Housed A s' p := by
  have hbeg := roomBeg_congr h
  have hlen := roomLen_congr (A := A) h
  refine ⟨hh.chunk, ?_, ?_, ?_, ?_⟩
  · rw [hbeg]; exact hh.beg_le
  · rw [hbeg, hlen, CombinedState.allocatedSize, h]; exact hh.end_le
  · rw [hbeg, hlen]; exact hh.app
  · rw [hbeg, hlen]; exact hh.apartPrimary

/-- The part of a chunk that can be requested is application memory. -/
theorem Housed.user_app {s : CombinedState} {p : Uptr} (h : Housed A s p) {n : ℕ}
    (hn : n ≤ (s.allocatedSize A p).toNat) : AppRange p.toNat n := by
  have h1 := h.beg_le
  have h2 := h.end_le
  exact h.app.mono (by omega) (by omega)

end Rooms

/-! ### Runs -/

/-- The process with the chunks it holds. -/
structure CombinedHeap where
  /-- The state of the process. -/
  st : CombinedState
  /-- The pointers the application holds. -/
  live : List Uptr

section Runs

variable (A : Arena)

/-- The state the underlying allocator leaves when it hands out a chunk is one in which the
chunk is housed, with room for the request, apart from the rooms of the live chunks. -/
def CombinedHeap.MayGrant (h : CombinedHeap) (r : Request) (grant : Option (Uptr × MmapHeader)) :
    Prop :=
  ∀ p m, grant = some (p, m) → ∃ size alignment, r.wants = some (size, alignment) ∧ p ∉ h.live ∧
    p.toNat < 2 ^ 47 ∧ Housed A (h.st.underlyingAllocate p m) p ∧
    size.toNat ≤ ((h.st.underlyingAllocate p m).allocatedSize A p).toNat ∧
    ∀ q ∈ h.live, Apart ((h.st.underlyingAllocate p m).roomBeg p)
      ((h.st.underlyingAllocate p m).roomLen A p) (h.st.roomBeg q) (h.st.roomLen A q)

/-- The heap after a request. -/
def CombinedHeap.after (h : CombinedHeap) (r : Request) (ret : Option Uptr)
    (st : CombinedState) : CombinedHeap where
  st := st
  live := ret.toList ++ h.live.filter fun p => !r.releases ret p

/-- One step of a run. -/
inductive CombinedStep (f : Flags) : CombinedHeap → CombinedHeap → Prop
  /-- An entry point is called, on a live chunk if it is about one, and returns. -/
  | call {h : CombinedHeap} (c : Call) (rss : Bool) (grant : Option (Uptr × MmapHeader))
      (ret : Option Uptr) (st : CombinedState) (hgrant : h.MayGrant A c.request grant)
      (hptr : ∀ p ∈ c.request.pointer, p ∈ h.live)
      (hexec : c.exec (combinedBackend A f) f ⟨rss, grant⟩ h.st = .ok ret st) :
      CombinedStep f h (h.after c.request ret st)
  /-- The application writes a byte of one of its blocks. -/
  | write {h : CombinedHeap} (p : Uptr) (i : ℕ) (v : U8) (hp : p ∈ h.live)
      (hi : i < h.st.sizeOf p) :
      CombinedStep f h { h with st.data := Function.update h.st.data (p.toNat + i) v }
  /-- Instrumented code writes the shadow of a byte of one of its blocks. -/
  | writeShadow {h : CombinedHeap} (p : Uptr) (i : ℕ) (v : U8) (hp : p ∈ h.live)
      (hi : i < h.st.sizeOf p) :
      CombinedStep f h
        { h with st.shadow := Function.update h.st.shadow (shadowOf (p.toNat + i)) v }

/-- The heap of a process that has not allocated yet: the metadata is freshly mapped. -/
def CombinedHeap.Initial (h : CombinedHeap) : Prop :=
  h.live = [] ∧ ∀ p, h.st.metaData p = ⟨0#64, 0#64⟩

/-- What holds in every state of a run. -/
structure CombinedInv (h : CombinedHeap) : Prop where
  nodup : h.live.Nodup
  lt : ∀ p ∈ h.live, p.toNat < 2 ^ 47
  housed : ∀ p ∈ h.live, Housed A h.st p
  size_le : ∀ p ∈ h.live, h.st.sizeOf p ≤ (h.st.allocatedSize A p).toNat
  apart : ∀ p ∈ h.live, ∀ q ∈ h.live, p ≠ q →
    Apart (h.st.roomBeg p) (h.st.roomLen A p) (h.st.roomBeg q) (h.st.roomLen A q)
  /-- The record of a free chunk of the primary is truthful. -/
  record : ∀ p, A.isChunk p → p ∉ h.live →
    (h.st.metaData p).poisonedSize.toNat ≤ (A.cap p).toNat ∧
    ∀ i < (h.st.metaData p).poisonedSize.toNat, appShadow h.st.shadow (p.toNat + i) = kPoisonByte

end Runs

/-! ### What the operations write -/

section Operations

variable {A : Arena} {f : Flags} {s : CombinedState} {p : Uptr}

/-- A range inside the extent that can be requested lies in the room. -/
theorem Housed.mem_room (hh : Housed A s p) {i n : ℕ}
    (hn : n ≤ (s.allocatedSize A p).toNat) (hi : p.toNat ≤ i ∧ i < p.toNat + n) :
    s.roomBeg p ≤ i ∧ i < s.roomBeg p + s.roomLen A p := by
  have h1 := hh.beg_le
  have h2 := hh.end_le
  omega

theorem frame_underlyingAllocate (m : MmapHeader) :
    Frame s (s.underlyingAllocate p m) p ((s.underlyingAllocate p m).roomBeg p)
      ((s.underlyingAllocate p m).roomLen A p) := by
  cases hp : fromPrimary p with
  | true =>
    have hs : s.underlyingAllocate p m = s := by
      rw [CombinedState.underlyingAllocate, if_pos hp]
    rw [hs]
    exact ⟨fun _ _ => rfl, fun _ _ => rfl, fun _ _ => rfl, fun _ _ => rfl⟩
  | false =>
    have hs : s.underlyingAllocate p m =
        { s with
          data := fill s.data m.mapBeg.toNat m.mapSize.toNat 0#8
          metaData := Function.update s.metaData p ⟨0#64, 0#64⟩
          header := Function.update s.header p m } := by
      rw [CombinedState.underlyingAllocate, if_neg (by simp [hp])]
    have hbeg : (s.underlyingAllocate p m).roomBeg p = m.mapBeg.toNat := by
      simp [hs, CombinedState.roomBeg, hp]
    have hlen : (s.underlyingAllocate p m).roomLen A p = m.mapSize.toNat := by
      simp [hs, CombinedState.roomLen, hp]
    rw [hbeg, hlen, hs]
    refine ⟨fun _ _ => rfl, fun a ha => if_neg ha, fun q hq => ?_, fun q hq => ?_⟩
    · exact Function.update_of_ne hq ..
    · exact Function.update_of_ne hq ..

/-- What `CQMsanAllocate` leaves in a chunk whose record is truthful. -/
theorem combinedAllocated_spec (hpm : f.poisonInMalloc = true) (hh : Housed A s p)
    (hlt : p.toNat < 2 ^ 47) {size : Uptr} (hsize : size.toNat ≤ (s.allocatedSize A p).toNat)
    (zero : Bool)
    (hrecord : fromPrimary p = true → (s.metaData p).poisonedSize.toNat ≤ (A.cap p).toNat ∧
      ∀ i < (s.metaData p).poisonedSize.toNat, appShadow s.shadow (p.toNat + i) = kPoisonByte)
    (hfresh : fromPrimary p = false → ∀ i < size.toNat, s.data (p.toNat + i) = 0#8) :
    Frame s (combinedAllocated f p size zero s) p (s.roomBeg p) (s.roomLen A p) ∧
    (combinedAllocated f p size zero s).header = s.header ∧
    ((combinedAllocated f p size zero s).metaData p).requestedSize = size ∧
    ∀ i < size.toNat, if zero then
        (combinedAllocated f p size zero s).data (p.toNat + i) = 0#8 ∧
        appShadow (combinedAllocated f p size zero s).shadow (p.toNat + i) = kCleanByte
      else appShadow (combinedAllocated f p size zero s).shadow (p.toNat + i) = kPoisonByte := by
  have happ := hh.user_app hsize
  cases zero with
  | true =>
    have hshadow : appShadow (combinedAllocated f p size true s).shadow =
        fill (appShadow s.shadow) p.toNat size.toNat kCleanByte := by
      simp only [combinedAllocated, if_true]
      split_ifs
      · exact appShadow_setShadow happ (by omega) _ _ _
      · exact appShadow_setAppShadow happ (by omega) _ _ _
    have hmeta : (combinedAllocated f p size true s).metaData =
        Function.update s.metaData p ⟨size, 0#64⟩ := rfl
    have hdata : (combinedAllocated f p size true s).data =
        if fromPrimary p then fill s.data p.toNat size.toNat 0#8 else s.data := rfl
    refine ⟨⟨fun a ha => ?_, fun a ha => ?_, fun q hq => ?_, fun q hq => rfl⟩, rfl, ?_, ?_⟩
    · rw [hshadow, fill_apply, if_neg fun hmem => ha (hh.mem_room hsize hmem)]
    · rw [hdata]
      split_ifs
      · rw [fill_apply, if_neg fun hmem => ha (hh.mem_room hsize hmem)]
      · rfl
    · rw [hmeta, Function.update_of_ne hq]
    · rw [hmeta, Function.update_self]
    · intro i hi
      refine ⟨?_, by rw [hshadow, fill_add_apply hi]⟩
      rw [hdata]
      split_ifs with hp
      · exact fill_add_apply hi
      · exact hfresh (by simpa using hp) i hi
  | false =>
    obtain ⟨already, halready⟩ : ∃ already : Uptr, already =
      (if f.poisonReuse && fromPrimary p then (s.metaData p).poisonedSize else 0#64) := ⟨_, rfl⟩
    have hstate : combinedAllocated f p size false s =
        { s with
          shadow := if already < size then
              cqmsanPoison f.clearShadowMmapThreshold s.shadow (p + already) (size - already)
            else s.shadow
          metaData := Function.update s.metaData p ⟨size, size⟩ } := by
      simp only [combinedAllocated, hpm, halready]
      rfl
    -- what is skipped is recorded as poisoned
    have hskip : ∀ i < already.toNat, appShadow s.shadow (p.toNat + i) = kPoisonByte := by
      intro i hi
      by_cases hc : (f.poisonReuse && fromPrimary p) = true
      · rw [halready, if_pos hc] at hi
        exact (hrecord (by simp_all)).2 i hi
      · rw [halready, if_neg hc] at hi
        simp at hi
    have hshadow : ∀ a, appShadow (combinedAllocated f p size false s).shadow a =
        if p.toNat + already.toNat ≤ a ∧ a < p.toNat + size.toNat then kPoisonByte
        else appShadow s.shadow a := by
      intro a
      rw [hstate]
      dsimp only
      by_cases hlt' : already < size
      · rw [if_pos hlt']
        rw [BitVec.lt_def] at hlt'
        have hend := happ.lt (by omega)
        have h1 : (p + already).toNat = p.toNat + already.toNat := by bv_omega
        have h2 : (size - already).toNat = size.toNat - already.toNat := by bv_omega
        have hrange := happ.mono (show p.toNat ≤ (p + already).toNat by omega)
          (show (p + already).toNat + (size - already).toNat ≤ p.toNat + size.toNat by omega)
        rw [cqmsanPoison, appShadow_setAppShadow hrange (by omega), fill_apply, h1, h2]
        congr 1
        apply propext
        omega
      · rw [if_neg hlt', if_neg]
        rw [BitVec.lt_def] at hlt'
        omega
    refine ⟨⟨fun a ha => ?_, fun a ha => ?_, fun q hq => ?_, fun q hq => ?_⟩, ?_, ?_, ?_⟩
    · rw [hshadow, if_neg fun hmem => ha (hh.mem_room hsize (by omega))]
    · rw [hstate]
    · rw [hstate]
      exact Function.update_of_ne hq ..
    · rw [hstate]
    · rw [hstate]
    · rw [hstate]
      simp
    · intro i hi
      simp only [Bool.false_eq_true, if_false]
      rw [hshadow]
      split_ifs with hin
      · rfl
      · exact hskip i (by omega)

/-- What `CQMsanDeallocate` leaves: the room is free to change, and the record of a primary
chunk is truthful. -/
theorem combinedReleased_spec (hh : Housed A s p) (hlt : p.toNat < 2 ^ 47)
    (hsize : s.sizeOf p ≤ (s.allocatedSize A p).toNat) :
    Frame s ((combinedReleased f p s).underlyingDeallocate f p) p (s.roomBeg p) (s.roomLen A p) ∧
    ((combinedReleased f p s).underlyingDeallocate f p).header = s.header ∧
    ((combinedReleased f p s).underlyingDeallocate f p).data = s.data ∧
    (fromPrimary p = true →
      (((combinedReleased f p s).underlyingDeallocate f p).metaData p).poisonedSize.toNat ≤
        (A.cap p).toNat ∧
      ∀ i < (((combinedReleased f p s).underlyingDeallocate f p).metaData p).poisonedSize.toNat,
        appShadow ((combinedReleased f p s).underlyingDeallocate f p).shadow (p.toNat + i) =
          kPoisonByte) := by
  cases hp : fromPrimary p with
  | true =>
    have hcap : s.allocatedSize A p = A.cap p := by rw [CombinedState.allocatedSize, if_pos hp]
    have hid : ∀ s', CombinedState.underlyingDeallocate f s' p = s' := fun s' => by
      rw [CombinedState.underlyingDeallocate, if_pos hp]
    rw [hid]
    cases hpf : f.poisonInFree with
    | true =>
      have hstate : combinedReleased f p s =
          { s with
            shadow := cqmsanPoison f.clearShadowMmapThreshold s.shadow p
              (s.metaData p).requestedSize
            metaData := Function.update s.metaData p ⟨0#64, (s.metaData p).requestedSize⟩ } := by
        simp [combinedReleased, hp, hpf]
      have hshadow : appShadow (combinedReleased f p s).shadow =
          fill (appShadow s.shadow) p.toNat (s.sizeOf p) kPoisonByte := by
        rw [hstate]
        exact appShadow_setAppShadow (hh.user_app hsize) (by omega) _ _ _
      refine ⟨⟨fun a ha => ?_, fun a ha => ?_, fun q hq => ?_, fun q hq => ?_⟩, ?_, ?_, ?_⟩
      · rw [hshadow, fill_apply, if_neg fun hmem => ha (hh.mem_room hsize hmem)]
      · rw [hstate]
      · rw [hstate]
        exact Function.update_of_ne hq ..
      · rw [hstate]
      · rw [hstate]
      · rw [hstate]
      · intro _
        have hrec : ((combinedReleased f p s).metaData p).poisonedSize.toNat = s.sizeOf p := by
          rw [hstate]
          simp [CombinedState.sizeOf]
        rw [hrec, ← hcap]
        refine ⟨hsize, fun i hi => ?_⟩
        rw [hshadow, fill_add_apply hi]
    | false =>
      have hstate : combinedReleased f p s =
          { s with metaData := Function.update s.metaData p ⟨0#64, 0#64⟩ } := by
        simp [combinedReleased, hpf]
      rw [hstate]
      refine ⟨⟨fun _ _ => rfl, fun _ _ => rfl, fun q hq => Function.update_of_ne hq ..,
        fun _ _ => rfl⟩, rfl, rfl, fun _ => ?_⟩
      simp
  | false =>
    have hbeg : s.roomBeg p = (s.header p).mapBeg.toNat := by simp [CombinedState.roomBeg, hp]
    have hlen : s.roomLen A p = (s.header p).mapSize.toNat := by simp [CombinedState.roomLen, hp]
    have hstate : (combinedReleased f p s).underlyingDeallocate f p =
        { s with
          shadow := releaseMemoryPagesToOS
            (cqmsanUnpoison f.clearShadowMmapThreshold s.shadow (s.header p).mapBeg
              (s.header p).mapSize)
            (memToShadow (s.header p).mapBeg)
            (memToShadow (s.header p).mapBeg + (s.header p).mapSize)
          metaData := Function.update s.metaData p ⟨0#64, 0#64⟩ } := by
      simp [combinedReleased, CombinedState.underlyingDeallocate, hp]
    have happ := hh.app
    have hle := hh.beg_le
    rw [hbeg, hlen] at happ
    rw [hbeg] at hle
    refine ⟨⟨fun a ha => ?_, fun a ha => ?_, fun q hq => ?_, fun q hq => ?_⟩, ?_, ?_, ?_⟩
    · rw [hbeg, hlen] at ha
      rw [hstate]
      dsimp only
      rw [appShadow_release happ (by omega) _ ha, cqmsanUnpoison,
        appShadow_setAppShadow happ (by omega), fill_apply, if_neg ha]
    · rw [hstate]
    · rw [hstate]
      exact Function.update_of_ne hq ..
    · rw [hstate]
    · rw [hstate]
    · rw [hstate]
    · intro h
      cases h

/-- What the in-place branch of `CQMsanReallocate` leaves. -/
theorem combinedResized_spec (hpm : f.poisonInMalloc = true) (hh : Housed A s p)
    (hlt : p.toNat < 2 ^ 47) {n : Uptr} (hn : n.toNat ≤ (s.allocatedSize A p).toNat) :
    Frame s (combinedResized f p n s) p (s.roomBeg p) (s.roomLen A p) ∧
    (combinedResized f p n s).header = s.header ∧ (combinedResized f p n s).data = s.data ∧
    ((combinedResized f p n s).metaData p).requestedSize = n ∧
    ∀ a, appShadow (combinedResized f p n s).shadow a =
      if p.toNat + s.sizeOf p ≤ a ∧ a < p.toNat + n.toNat then kPoisonByte
      else appShadow s.shadow a := by
  have hshadow : ∀ a, appShadow (combinedResized f p n s).shadow a =
      if p.toNat + s.sizeOf p ≤ a ∧ a < p.toNat + n.toNat then kPoisonByte
      else appShadow s.shadow a := by
    intro a
    simp only [combinedResized, hpm, if_true]
    obtain ⟨old, hold⟩ : ∃ old, old = (s.metaData p).requestedSize := ⟨_, rfl⟩
    rw [show s.sizeOf p = old.toNat by rw [CombinedState.sizeOf, hold], ← hold]
    by_cases hlt' : old < n
    · rw [if_pos hlt']
      rw [BitVec.lt_def] at hlt'
      have happ := hh.user_app hn
      have hend := happ.lt (by omega)
      have h1 : (p + old).toNat = p.toNat + old.toNat := by bv_omega
      have h2 : (n - old).toNat = n.toNat - old.toNat := by bv_omega
      rw [appShadow_setShadow (by rw [h1, h2]; exact happ.mono (by omega) (by omega)) (by omega),
        fill_apply, h1, h2]
      congr 1
      apply propext
      omega
    · rw [if_neg hlt', if_neg]
      rw [BitVec.lt_def] at hlt'
      omega
  refine ⟨⟨fun a ha => ?_, fun a _ => rfl, fun q hq => Function.update_of_ne hq .., fun q _ => rfl⟩,
    rfl, rfl, by simp [combinedResized], hshadow⟩
  rw [hshadow, if_neg fun hmem => ha (hh.mem_room hn (by omega))]

/-- What `CopyMemory` leaves in a chunk. -/
theorem combinedCopy_spec {q n : Uptr} (hh : Housed A s p)
    (hn : n.toNat ≤ (s.allocatedSize A p).toNat) (hq : AppRange q.toNat n.toNat) :
    Frame s (s.copyMemory p q n) p (s.roomBeg p) (s.roomLen A p) ∧
    appShadow (s.copyMemory p q n).shadow = blit (appShadow s.shadow) p.toNat q.toNat n.toNat := by
  have hshadow := appShadow_copyShadow (hh.user_app hn) hq s.shadow
  refine ⟨⟨fun a ha => ?_, fun a ha => ?_, fun _ _ => rfl, fun _ _ => rfl⟩, hshadow⟩
  · rw [show appShadow (s.copyMemory p q n).shadow = _ from hshadow, blit_apply,
      if_neg fun hmem => ha (hh.mem_room hn hmem)]
  · exact if_neg fun hmem => ha (hh.mem_room hn hmem)

end Operations

end CQMSan
