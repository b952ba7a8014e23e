import CQMSan.Runtime.Poisoning

/-!
# The allocation entry points

`cqmsan_malloc`, `cqmsan_calloc`, … are shared by the two builds of the run-time library; the
builds differ in `CQMsanAllocate`, `CQMsanDeallocate` and `CQMsanReallocate`, which are the three
fields of a `Backend`. An operation returns a value and the new state, or ends the process
(`Die`) in the state it had reached.

What the world below answers (the underlying allocator, the RSS limit) is an argument `A` of
the call, so that a run is determined by its calls and answers.

Every entry point first decides what to ask of the back end. `Call.request` computes that
decision alone, and `Call.exec_eq` says that the entry point is the back end on this request.
-/

namespace CQMSan

/-- The fatal reports of the allocator. -/
inductive Die
  | allocationSizeTooBig
  | rssLimitExceeded
  | outOfMemory
  | heapOutsideApp
  | doubleFree
  | corruptedHeader
  | callocOverflow
  | reallocArrayOverflow
  | pvallocOverflow
  | invalidAlignedAllocAlignment
  | invalidAllocationAlignment
  | invalidPosixMemalignAlignment
  | checkFailed
deriving DecidableEq, Repr

/-- A finished operation: a value and the state, or the fatal report and the state at it. -/
abbrev Outcome (S α : Type) := EStateM.Result Die S α

/-- The flags the allocator reads. -/
structure Flags where
  /-- `max_malloc_size`. -/
  maxMallocSize : Uptr
  /-- `AllocatorMayReturnNull()`. -/
  mayReturnNull : Bool
  /-- `poison_in_malloc`. -/
  poisonInMalloc : Bool
  /-- `poison_in_free`. -/
  poisonInFree : Bool
  /-- `poison_reuse`. -/
  poisonReuse : Bool
  /-- `clear_shadow_mmap_threshold`. -/
  clearShadowMmapThreshold : Uptr
deriving DecidableEq, Repr

/-- `kMaxAllowedMallocSize` on x86-64. -/
def kMaxAllowedMallocSize : Uptr := 0x10000000000#64

/-- A failure that returns null when the flag allows it. -/
def Flags.fail {S α : Type} (f : Flags) (d : Die) (s : S) : Outcome S (Option α) :=
  if f.mayReturnNull then .ok none s else .error d s

/-- The part of the allocator that differs between the builds. -/
structure Backend (S A : Type) where
  /-- `CQMsanAllocate(size, alignment, zero)`. -/
  allocate : A → Uptr → Uptr → Bool → S → Outcome S (Option Uptr)
  /-- `CQMsanDeallocate(p)`. -/
  deallocate : Uptr → S → Outcome S Unit
  /-- `CQMsanReallocate(old_p, new_size, alignment)`. -/
  reallocate : A → Uptr → Uptr → Uptr → S → Outcome S (Option Uptr)

/-! ### Argument checks -/

/-- `CheckForCallocOverflow`. -/
def checkForCallocOverflow (size n : Uptr) : Bool :=
  if size = 0#64 then false else decide (BitVec.allOnes 64 / size < n)

/-- `CheckForPvallocOverflow`. -/
def checkForPvallocOverflow (size page : Uptr) : Bool := decide (roundUpTo size page < size)

/-- `CheckAlignedAllocAlignmentAndSize` (the POSIX variant). -/
def checkAlignedAllocAlignmentAndSize (alignment size : Uptr) : Bool :=
  decide (alignment ≠ 0#64) && isPowerOfTwo alignment && (size &&& (alignment - 1#64)) == 0#64

/-- `CheckPosixMemalignAlignment`. -/
def checkPosixMemalignAlignment (alignment : Uptr) : Bool :=
  decide (alignment ≠ 0#64) && isPowerOfTwo alignment && alignment % 8#64 == 0#64

/-! ### Entry points -/

section EntryPoints

variable {S A : Type} (B : Backend S A) (f : Flags) (ans : A)

/-- `cqmsan_malloc`; `8` is `sizeof(u64)`. -/
def cqmsanMalloc (size : Uptr) : S → Outcome S (Option Uptr) := B.allocate ans size 8#64 false

/-- `cqmsan_calloc` with `CQMsanCalloc`. -/
def cqmsanCalloc (nmemb size : Uptr) (s : S) : Outcome S (Option Uptr) :=
  if checkForCallocOverflow size nmemb then f.fail .callocOverflow s
  else B.allocate ans (nmemb * size) 8#64 true s

/-- `free`: the interceptor drops null. -/
def cqmsanFree (ptr : Uptr) (s : S) : Outcome S (Option Uptr) :=
  if ptr = 0#64 then .ok none s
  else match B.deallocate ptr s with
    | .ok _ s => .ok none s
    | .error d s => .error d s

/-- `cqmsan_realloc`. -/
def cqmsanRealloc (ptr size : Uptr) (s : S) : Outcome S (Option Uptr) :=
  if ptr = 0#64 then B.allocate ans size 8#64 false s
  else if size = 0#64 then
    match B.deallocate ptr s with
    | .ok _ s => .ok none s
    | .error d s => .error d s
  else B.reallocate ans ptr size 8#64 s

/-- `cqmsan_reallocarray`. -/
def cqmsanReallocarray (ptr nmemb size : Uptr) (s : S) : Outcome S (Option Uptr) :=
  if checkForCallocOverflow size nmemb then f.fail .reallocArrayOverflow s
  else cqmsanRealloc B ans ptr (nmemb * size) s

/-- `cqmsan_valloc`. -/
def cqmsanValloc (size : Uptr) : S → Outcome S (Option Uptr) := B.allocate ans size pageSize false

/-- `cqmsan_pvalloc`; a request for nothing gets one page. -/
def cqmsanPvalloc (size : Uptr) (s : S) : Outcome S (Option Uptr) :=
  if checkForPvallocOverflow size pageSize then f.fail .pvallocOverflow s
  else B.allocate ans (if size ≠ 0#64 then roundUpTo size pageSize else pageSize) pageSize false s

/-- `cqmsan_aligned_alloc`. -/
def cqmsanAlignedAlloc (alignment size : Uptr) (s : S) : Outcome S (Option Uptr) :=
  if !checkAlignedAllocAlignmentAndSize alignment size then f.fail .invalidAlignedAllocAlignment s
  else B.allocate ans size alignment false s

/-- `cqmsan_memalign`. -/
def cqmsanMemalign (alignment size : Uptr) (s : S) : Outcome S (Option Uptr) :=
  if !isPowerOfTwo alignment then f.fail .invalidAllocationAlignment s
  else B.allocate ans size alignment false s

/-- `cqmsan_posix_memalign`, returning the pointer it stores through `memptr`. -/
def cqmsanPosixMemalign (alignment size : Uptr) (s : S) : Outcome S (Option Uptr) :=
  if !checkPosixMemalignAlignment alignment then f.fail .invalidPosixMemalignAlignment s
  else match B.allocate ans size alignment false s with
    | .ok (some ptr) s =>
      if isAligned ptr alignment then .ok (some ptr) s else .error .checkFailed s
    | .ok none s => .ok none s
    | .error d s => .error d s

end EntryPoints

/-- A call of the application. -/
inductive Call
  | malloc (size : Uptr)
  | calloc (nmemb size : Uptr)
  | realloc (ptr size : Uptr)
  | reallocarray (ptr nmemb size : Uptr)
  | valloc (size : Uptr)
  | pvalloc (size : Uptr)
  | alignedAlloc (alignment size : Uptr)
  | memalign (alignment size : Uptr)
  | posixMemalign (alignment size : Uptr)
  | free (ptr : Uptr)
deriving DecidableEq, Repr

/-- The entry point of a call. -/
def Call.exec {S A : Type} (B : Backend S A) (f : Flags) (ans : A) :
    Call → S → Outcome S (Option Uptr)
  | .malloc size => cqmsanMalloc B ans size
  | .calloc nmemb size => cqmsanCalloc B f ans nmemb size
  | .realloc ptr size => cqmsanRealloc B ans ptr size
  | .reallocarray ptr nmemb size => cqmsanReallocarray B f ans ptr nmemb size
  | .valloc size => cqmsanValloc B ans size
  | .pvalloc size => cqmsanPvalloc B f ans size
  | .alignedAlloc alignment size => cqmsanAlignedAlloc B f ans alignment size
  | .memalign alignment size => cqmsanMemalign B f ans alignment size
  | .posixMemalign alignment size => cqmsanPosixMemalign B f ans alignment size
  | .free ptr => cqmsanFree B ptr

/-! ### What a call asks of the back end -/

/-- The one thing an entry point asks for. -/
inductive Request
  /-- Null, or the report if null is not allowed. -/
  | reject (d : Die)
  /-- Nothing is asked. -/
  | nothing
  /-- A new block; `check` tests the alignment of the result. -/
  | allocate (size alignment : Uptr) (zero check : Bool)
  /-- The block at `ptr` is given back. -/
  | deallocate (ptr : Uptr)
  /-- The block at `ptr` gets a new, non-zero size. -/
  | reallocate (ptr size : Uptr)
deriving DecidableEq, Repr

/-- The request of `cqmsan_realloc`. -/
def reallocRequest (ptr size : Uptr) : Request :=
  if ptr = 0#64 then .allocate size 8#64 false false
  else if size = 0#64 then .deallocate ptr
  else .reallocate ptr size

/-- The request behind a call. -/
def Call.request : Call → Request
  | .malloc size => .allocate size 8#64 false false
  | .calloc nmemb size =>
    if checkForCallocOverflow size nmemb then .reject .callocOverflow
    else .allocate (nmemb * size) 8#64 true false
  | .realloc ptr size => reallocRequest ptr size
  | .reallocarray ptr nmemb size =>
    if checkForCallocOverflow size nmemb then .reject .reallocArrayOverflow
    else reallocRequest ptr (nmemb * size)
  | .valloc size => .allocate size pageSize false false
  | .pvalloc size =>
    if checkForPvallocOverflow size pageSize then .reject .pvallocOverflow
    else .allocate (if size ≠ 0#64 then roundUpTo size pageSize else pageSize) pageSize false false
  | .alignedAlloc alignment size =>
    if !checkAlignedAllocAlignmentAndSize alignment size then .reject .invalidAlignedAllocAlignment
    else .allocate size alignment false false
  | .memalign alignment size =>
    if !isPowerOfTwo alignment then .reject .invalidAllocationAlignment
    else .allocate size alignment false false
  | .posixMemalign alignment size =>
    if !checkPosixMemalignAlignment alignment then .reject .invalidPosixMemalignAlignment
    else .allocate size alignment false true
  | .free ptr => if ptr = 0#64 then .nothing else .deallocate ptr

/-- The back end on a request. -/
def Request.exec {S A : Type} (B : Backend S A) (f : Flags) (ans : A) (s : S) :
    Request → Outcome S (Option Uptr)
  | .reject d => f.fail d s
  | .nothing => .ok none s
  | .allocate size alignment zero check =>
    match B.allocate ans size alignment zero s with
    | .ok (some ptr) s =>
      if check && !isAligned ptr alignment then .error .checkFailed s else .ok (some ptr) s
    | .ok none s => .ok none s
    | .error d s => .error d s
  | .deallocate ptr =>
    match B.deallocate ptr s with
    | .ok _ s => .ok none s
    | .error d s => .error d s
  | .reallocate ptr size => B.reallocate ans ptr size 8#64 s

/-- An unchecked allocation request is the back end's allocation. -/
private theorem Request.exec_allocate {S A : Type} (B : Backend S A) (f : Flags) (ans : A) (s : S)
    (size alignment : Uptr) (zero : Bool) :
    (Request.allocate size alignment zero false).exec B f ans s =
      B.allocate ans size alignment zero s := by
  simp only [Request.exec, Bool.false_and, Bool.false_eq_true, if_false]
  rcases B.allocate ans size alignment zero s with ⟨_ | _, _⟩ | ⟨_, _⟩ <;> rfl

private theorem Request.exec_realloc {S A : Type} (B : Backend S A) (f : Flags) (ans : A) (s : S)
    (ptr size : Uptr) :
    (reallocRequest ptr size).exec B f ans s = cqmsanRealloc B ans ptr size s := by
  rw [reallocRequest, cqmsanRealloc]
  split_ifs
  · rw [exec_allocate]
  · rfl
  · rfl

/-- **An entry point is the back end on its request.** -/
theorem Call.exec_eq {S A : Type} (B : Backend S A) (f : Flags) (ans : A) (c : Call) (s : S) :
    c.exec B f ans s = c.request.exec B f ans s := by
  cases c with
  | malloc size => rw [request, Request.exec_allocate]; rfl
  | calloc nmemb size =>
    rw [exec, cqmsanCalloc, request]
    split_ifs
    · rfl
    · rw [Request.exec_allocate]
  | realloc ptr size => rw [request, Request.exec_realloc]; rfl
  | reallocarray ptr nmemb size =>
    rw [exec, cqmsanReallocarray, request]
    split_ifs
    · rfl
    · rw [Request.exec_realloc]
  | valloc size => rw [request, Request.exec_allocate]; rfl
  | pvalloc size =>
    rw [exec, cqmsanPvalloc, request]
    by_cases h : checkForPvallocOverflow size pageSize = true
    · rw [if_pos h, if_pos h]; rfl
    · rw [if_neg h, if_neg h, Request.exec_allocate]
  | alignedAlloc alignment size =>
    rw [exec, cqmsanAlignedAlloc, request]
    split_ifs
    · rfl
    · rw [Request.exec_allocate]
  | memalign alignment size =>
    rw [exec, cqmsanMemalign, request]
    split_ifs
    · rfl
    · rw [Request.exec_allocate]
  | posixMemalign alignment size =>
    rw [exec, cqmsanPosixMemalign, request]
    split_ifs
    · rfl
    · simp only [Request.exec, Bool.true_and]
      rcases B.allocate ans size alignment false s with ⟨_ | ptr, _⟩ | ⟨_, _⟩
      · rfl
      · by_cases hal : isAligned ptr alignment = true <;> simp [hal]
      · rfl
  | free ptr =>
    rw [exec, cqmsanFree, request]
    split_ifs <;> rfl

end CQMSan
