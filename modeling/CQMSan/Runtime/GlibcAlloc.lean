import CQMSan.Runtime.Allocator

/-!
# The glibc passthrough allocator

The `CQMSAN_GLIBC_ALLOC` build takes its blocks from `__libc_malloc` and `__libc_calloc` and puts
three header words right before the user pointer:

* `user[-3]`: a canary bound to the address,
* `user[-2]`: the distance from the raw block to the user pointer,
* `user[-1]`: the requested size, replaced by a second canary when the block is freed.

A `GlibcBlock` is a raw block together with the request it serves; its fields carry what glibc
promises about the raw block and what the entry points admit. The layout lemmas follow from
these fields alone: nothing wraps, the header and the user area lie in the raw block one after
the other, and the user pointer is aligned.
-/

namespace CQMSan

open ByteMemory

/-- The state of the process as the glibc build sees it. -/
structure GlibcState where
  /-- Application memory. -/
  data : Mem
  /-- Shadow memory, by shadow address. -/
  shadow : Mem
  /-- The arguments of the calls of `__libc_free`, latest first. -/
  libcFree : List Uptr

/-- What glibc and the operating system answer to one allocation. -/
structure GlibcAnswer where
  /-- `IsRssLimitExceeded()`. -/
  rssLimitExceeded : Bool
  /-- The result of `__libc_malloc` or `__libc_calloc`. -/
  raw : Option Uptr

/-! ### Headers -/

/-- `kHeaderWords`. -/
def kHeaderWords : Uptr := 3#64

/-- `kMinHeaderSlot`. -/
def kMinHeaderSlot : Uptr := roundUpTo (kHeaderWords * 8#64) 16#64

/-- `kHeaderMagic`. -/
def kHeaderMagic : Uptr := 0x43514D53414E00#64

/-- `kFreedMagic`. -/
def kFreedMagic : Uptr := 0x46524545440000#64

/-- `kShadowReleaseThreshold`. -/
def kShadowReleaseThreshold : Uptr := 128#64 * 1024#64

/-- `CQMsanCanaryFor`. -/
def cqmsanCanaryFor (user : Uptr) : Uptr := kHeaderMagic ^^^ user

/-- `CQMsanFreedCanaryFor`. -/
def cqmsanFreedCanaryFor (user : Uptr) : Uptr := kFreedMagic ^^^ user

/-- The address of `user[-i]`. -/
def headerAddr (user : Uptr) (i : ℕ) : ℕ := (user - BitVec.ofNat 64 (8 * i)).toNat

/-- The word `user[-i]`. -/
def headerWord (d : Mem) (user : Uptr) (i : ℕ) : Uptr :=
  BitVec.ofNat 64 (loadLE d (headerAddr user i) 8)

/-- `user[-i] = w`. -/
def setHeaderWord (d : Mem) (user : Uptr) (i : ℕ) (w : Uptr) : Mem :=
  storeLE d (headerAddr user i) 8 w.toNat

/-- `CQMsanGlibcHeaderToUser`: the user pointer, and the memory with the header written. -/
def cqmsanGlibcHeaderToUser (d : Mem) (raw headerSlot size : Uptr) : Uptr × Mem :=
  let user := raw + headerSlot
  let d := setHeaderWord d user 1 size
  let d := setHeaderWord d user 2 headerSlot
  let d := setHeaderWord d user 3 (cqmsanCanaryFor user)
  (user, d)

/-! ### Allocation -/

/-- `needs_align`. -/
def needsAlign (alignment : Uptr) : Bool := decide (kMinHeaderSlot ≤ alignment)

/-- `real_size`. -/
def realSize (size alignment : Uptr) : Uptr :=
  if needsAlign alignment then kMinHeaderSlot + size + (alignment - 1#64)
  else kMinHeaderSlot + size

/-- `header_slot`. -/
def headerSlotFor (raw alignment : Uptr) : Uptr :=
  if needsAlign alignment then roundUpTo (raw + kMinHeaderSlot) alignment - raw
  else kMinHeaderSlot

/-- What `CQMsanAllocate` does once glibc returned `raw`. -/
def glibcAllocated (f : Flags) (raw size alignment : Uptr) (zero : Bool) (s : GlibcState) :
    Uptr × GlibcState :=
  -- `__libc_calloc` has zeroed the whole raw block
  let data := if zero then fill s.data raw.toNat (realSize size alignment).toNat 0#8 else s.data
  let (user, data) := cqmsanGlibcHeaderToUser data raw (headerSlotFor raw alignment) size
  let shadow :=
    if zero then setShadow f.clearShadowMmapThreshold s.shadow user size 0#8
    else if f.poisonInMalloc then cqmsanPoison f.clearShadowMmapThreshold s.shadow user size
    else s.shadow
  (user, { s with data, shadow })

/-- `CQMsanAllocate` of the glibc build. -/
def glibcAllocate (f : Flags) (ans : GlibcAnswer) (size alignment : Uptr) (zero : Bool)
    (s : GlibcState) : Outcome GlibcState (Option Uptr) :=
  if f.maxMallocSize < size then f.fail .allocationSizeTooBig s
  else if ans.rssLimitExceeded then f.fail .rssLimitExceeded s
  else match ans.raw with
    | none => f.fail .outOfMemory s
    | some raw =>
      let last := raw + realSize size alignment - 1#64
      if !memIsApp raw.toNat || !memIsApp last.toNat then .error .heapOutsideApp s
      else
        let r := glibcAllocated f raw size alignment zero s
        .ok (some r.1) r.2

/-! ### Deallocation and reallocation -/

/-- What `CQMsanDeallocate` does after the header of `p` passed its checks. -/
def glibcReleased (f : Flags) (p : Uptr) (s : GlibcState) : GlibcState :=
  let size := headerWord s.data p 1
  let headerSlot := headerWord s.data p 2
  let raw := p - headerSlot
  let shadow :=
    if kShadowReleaseThreshold ≤ size then
      releaseMemoryPagesToOS s.shadow (memToShadow p) (memToShadow p + size)
    else s.shadow
  let shadow :=
    if f.poisonInFree then cqmsanPoison f.clearShadowMmapThreshold shadow p size else shadow
  { data := setHeaderWord s.data p 1 (cqmsanFreedCanaryFor p)
    shadow := shadow
    libcFree := raw :: s.libcFree }

/-- The header checks of `CQMsanDeallocate` and `CQMsanReallocateGlibc`. -/
def headerCheck (d : Mem) (p : Uptr) : Option Die :=
  if headerWord d p 1 = cqmsanFreedCanaryFor p then some .doubleFree
  else if headerWord d p 3 ≠ cqmsanCanaryFor p then some .corruptedHeader
  else none

/-- `CQMsanDeallocate` of the glibc build. -/
def glibcDeallocate (f : Flags) (p : Uptr) (s : GlibcState) : Outcome GlibcState Unit :=
  match headerCheck s.data p with
  | some d => .error d s
  | none => .ok () (glibcReleased f p s)

/-- `CopyMemory` of the glibc build. -/
def GlibcState.copyMemory (s : GlibcState) (dst src size : Uptr) : GlibcState :=
  { s with
    data := blit s.data dst.toNat src.toNat size.toNat
    shadow := copyShadow s.shadow dst src size }

/-- `Min`. -/
def minUptr (a b : Uptr) : Uptr := if a < b then a else b

/-- `CQMsanReallocateGlibc`. -/
def glibcReallocate (f : Flags) (ans : GlibcAnswer) (oldP newSize alignment : Uptr)
    (s : GlibcState) : Outcome GlibcState (Option Uptr) :=
  match headerCheck s.data oldP with
  | some d => .error d s
  | none =>
    let oldSize := headerWord s.data oldP 1
    let copySize := minUptr newSize oldSize
    match glibcAllocate f ans newSize alignment false s with
    | .ok (some newP) s =>
      match glibcDeallocate f oldP (s.copyMemory newP oldP copySize) with
      | .ok _ s => .ok (some newP) s
      | .error d s => .error d s
    | .ok none s => .ok none s
    | .error d s => .error d s

/-- The glibc build. -/
def glibcBackend (f : Flags) : Backend GlibcState GlibcAnswer where
  allocate := glibcAllocate f
  deallocate := glibcDeallocate f
  reallocate := glibcReallocate f

/-! ### Ownership queries -/

/-- `AllocationBegin`; `readable` is whether `TryMemCpy` could read the header. -/
def allocationBegin (d : Mem) (readable : Bool) (p : Uptr) : Option Uptr :=
  if p = 0#64 then none
  else if !readable then none
  else if headerWord d p 1 = cqmsanFreedCanaryFor p then none
  else if headerWord d p 3 ≠ cqmsanCanaryFor p then none
  else if headerWord d p 1 = 0#64 then none
  else some p

/-- `AllocationSizeFast`. -/
def allocationSizeFast (d : Mem) (p : Uptr) : Uptr := headerWord d p 1

/-- `AllocationSize`. -/
def allocationSize (d : Mem) (readable : Bool) (p : Uptr) : Uptr :=
  if p = 0#64 then 0#64
  else if allocationBegin d readable p ≠ some p then 0#64
  else allocationSizeFast d p

/-! ### The layout of a block -/

theorem kMinHeaderSlot_eq : kMinHeaderSlot = 32#64 := by decide

theorem needsAlign_iff {alignment : Uptr} : needsAlign alignment = true ↔ 32 ≤ alignment.toNat := by
  rw [needsAlign, decide_eq_true_eq, kMinHeaderSlot_eq, BitVec.le_def]
  rfl

/-- **No wrap.** For the sizes and alignments that reach `CQMsanAllocate`, `real_size` is the
number it stands for. -/
theorem toNat_realSize {size alignment : Uptr} (hs : size.toNat ≤ 2 ^ 40)
    (ha : isPowerOfTwo alignment = true) :
    (realSize size alignment).toNat =
      32 + size.toNat + (if 32 ≤ alignment.toNat then alignment.toNat - 1 else 0) := by
  simp only [realSize, needsAlign_iff]
  split_ifs with h
  · obtain ⟨k, hk, hpow⟩ := exists_eq_two_pow ha (by rintro rfl; simp at h)
    have hmax : alignment.toNat ≤ 2 ^ 63 := by
      rw [hpow]
      exact Nat.pow_le_pow_right (by norm_num) (by omega)
    rw [kMinHeaderSlot_eq]
    bv_omega
  · rw [kMinHeaderSlot_eq]
    bv_omega

/-- A raw block of glibc with the request it serves. -/
structure GlibcBlock where
  /-- What `__libc_malloc` returned. -/
  raw : Uptr
  /-- The requested size. -/
  size : Uptr
  /-- The requested alignment. -/
  alignment : Uptr
  size_le : size.toNat ≤ 2 ^ 40
  alignment_pow : isPowerOfTwo alignment = true
  raw_aligned : 16 ∣ raw.toNat
  raw_app : AppRange raw.toNat (realSize size alignment).toNat

namespace GlibcBlock

variable (b : GlibcBlock)

/-- The number of bytes asked of glibc. -/
def real : ℕ := (realSize b.size b.alignment).toNat

/-- `header_slot` of the block. -/
def headerSlot : Uptr := headerSlotFor b.raw b.alignment

/-- The pointer the application gets. -/
def user : Uptr := b.raw + b.headerSlot

theorem real_eq : b.real =
    32 + b.size.toNat + (if 32 ≤ b.alignment.toNat then b.alignment.toNat - 1 else 0) :=
  toNat_realSize b.size_le b.alignment_pow

theorem app : AppRange b.raw.toNat b.real := b.raw_app

theorem raw_add_real_le : b.raw.toNat + b.real ≤ 0x800000000000 :=
  b.app.lt (by rw [real_eq]; omega)

/-- Where the user pointer is, and that it has the requested alignment. -/
theorem user_spec :
    b.user.toNat = b.raw.toNat + b.headerSlot.toNat ∧ 32 ≤ b.headerSlot.toNat ∧
      b.headerSlot.toNat + b.size.toNat ≤ b.real ∧
      (b.alignment ≠ 0#64 → b.alignment.toNat ∣ b.user.toNat) := by
  have hraw := b.raw_add_real_le
  have hreal := b.real_eq
  by_cases h : 32 ≤ b.alignment.toNat
  · rw [if_pos h] at hreal
    obtain ⟨k, -, hpow⟩ := exists_eq_two_pow b.alignment_pow (by rintro h0; simp [h0] at h)
    have hcand : (b.raw + kMinHeaderSlot).toNat = b.raw.toNat + 32 := by
      rw [kMinHeaderSlot_eq]
      bv_omega
    obtain ⟨hdvd, hlow, hhigh⟩ := roundUpTo_bounds (x := b.raw + kMinHeaderSlot) hpow
      (by rw [hcand]; omega)
    rw [hcand] at hlow hhigh
    have hslot : b.headerSlot = roundUpTo (b.raw + kMinHeaderSlot) b.alignment - b.raw := by
      rw [headerSlot, headerSlotFor, if_pos (needsAlign_iff.mpr h)]
    have hslotNat : b.headerSlot.toNat =
        (roundUpTo (b.raw + kMinHeaderSlot) b.alignment).toNat - b.raw.toNat := by
      rw [hslot]
      bv_omega
    have huser : b.user.toNat = (roundUpTo (b.raw + kMinHeaderSlot) b.alignment).toNat := by
      rw [user, hslot]
      bv_omega
    refine ⟨by omega, by omega, by omega, fun _ => huser ▸ hdvd⟩
  · rw [if_neg h] at hreal
    have hslot : b.headerSlot = 32#64 := by
      rw [headerSlot, headerSlotFor, if_neg (mt needsAlign_iff.mp h), kMinHeaderSlot_eq]
    have huser : b.user.toNat = b.raw.toNat + 32 := by
      rw [user, hslot]
      bv_omega
    have hslotNat : b.headerSlot.toNat = 32 := by rw [hslot]; rfl
    refine ⟨by omega, by omega, by omega, fun h0 => ?_⟩
    -- below 32 the alignment divides 16, which glibc guarantees
    obtain ⟨k, -, hpow⟩ := exists_eq_two_pow b.alignment_pow h0
    have hk : k ≤ 4 := by
      by_contra hk
      have : 2 ^ 5 ≤ 2 ^ k := Nat.pow_le_pow_right (by norm_num) (by omega)
      omega
    have h16 : b.alignment.toNat ∣ 16 := by
      rw [hpow]
      exact pow_dvd_pow 2 hk
    rw [huser]
    exact Dvd.dvd.add (h16.trans b.raw_aligned) (h16.trans (by norm_num))

theorem user_toNat : b.user.toNat = b.raw.toNat + b.headerSlot.toNat := b.user_spec.1

theorem headerSlot_ge : 32 ≤ b.headerSlot.toNat := b.user_spec.2.1

theorem headerSlot_add_size_le : b.headerSlot.toNat + b.size.toNat ≤ b.real := b.user_spec.2.2.1

theorem user_lt : b.user.toNat < 2 ^ 48 := by
  have := b.raw_add_real_le
  have := b.user_toNat
  have := b.headerSlot_add_size_le
  omega

/-- The user area is application memory. -/
theorem user_app : AppRange b.user.toNat b.size.toNat := by
  have h1 := b.user_toNat
  have h2 := b.headerSlot_add_size_le
  exact b.app.mono (by omega) (by omega)

theorem headerAddr_eq {i : ℕ} (hi : i ≤ 3) :
    headerAddr b.user i = b.raw.toNat + b.headerSlot.toNat - 8 * i := by
  have h1 := b.user_toNat
  have h2 := b.headerSlot_ge
  have h3 := b.user_lt
  have hi8 : (BitVec.ofNat 64 (8 * i)).toNat = 8 * i := by
    rw [BitVec.toNat_ofNat]
    omega
  rw [headerAddr]
  bv_omega

end GlibcBlock

/-! ### Canaries against sizes -/

/-- The marker of a freed block is larger than every size. -/
theorem lt_cqmsanFreedCanaryFor {user : Uptr} (h : user.toNat < 2 ^ 48) :
    2 ^ 54 ≤ (cqmsanFreedCanaryFor user).toNat := by
  have hbit : (cqmsanFreedCanaryFor user).toNat.testBit 54 = true := by
    rw [cqmsanFreedCanaryFor, BitVec.toNat_xor, Nat.testBit_xor,
      Nat.testBit_lt_two_pow (lt_of_lt_of_le h (by norm_num))]
    decide
  exact Nat.ge_two_pow_of_testBit hbit

theorem GlibcBlock.size_ne_freedCanary (b : GlibcBlock) :
    b.size ≠ cqmsanFreedCanaryFor b.user := by
  intro h
  have h1 := lt_cqmsanFreedCanaryFor b.user_lt
  have h2 := b.size_le
  rw [← h] at h1
  omega

end CQMSan
