import CQMSan.Pass.Emit
import CQMSan.Pass.Sink

/-!
# The visitor

The visit phase of the pass. Every instruction is visited once, in a depth-first order of the
blocks, and what its handler emits goes immediately before or immediately after it. The code of
the function during the phases is therefore kept as one *segment* for each original instruction,
`St.seg`: what stands before the instruction, the instruction, and what stands after it. The
blocks, their order and the control flow are those of the original function.

A handler is described by a `Visit`: what it emits, the shadow it sets, the checks it pushes and
the entries it adds to the lists for the later phases. Questions that LLVM answers (use lists,
the base of a pointer, the alloca behind a pointer, the objects behind an AFL access) are fields
of `Ctx`. The options at the default of `cqmsan-trust-return` and with
`cqmsan-loop-coalesced-checks` off are modelled, in the default shadow convention.
-/

namespace CQMSan

/-! ### Options and context -/

/-- The command-line options of the pass. -/
structure Options where
  sinkChecks : Bool := true
  bbCoalescedChecks : Bool := true
  coalescedIncrementalOr : Bool := true
  sharedShadowBase : Bool := true
  undefSlice : Bool := true
  checkAccessAddress : Bool := false
  skipNoSanitizeOnlyLoads : Bool := true
  skipCalleeOnlyLoads : Bool := false
  instrumentLoads : Bool := true
  instrumentStores : Bool := true
  checkLoads : Bool := true
  emitChecks : Bool := true
  unpoisonStores : Bool := true
  checkReturns : Bool := true
  poisonStack : Bool := true
  poisonStackWithCall : Bool := false
  poisonStackPattern : ℕ := 0xff
  poisonUndef : Bool := true
  handleLifetimeIntrinsics : Bool := true
  handleAsmConservative : Bool := true
  eagerChecks : Bool := false
  checkConstantShadow : Bool := true
  keepGoing : Bool := true
  fastWarning : Bool := true
  callThreshold : ℤ := 3500

/-- The function under instrumentation, the options, and what LLVM answers about the function. -/
structure Ctx where
  f : Func
  opts : Options
  /-- The use lists of the function before instrumentation. -/
  users : Val → List Inst
  /-- A constant expression is among the users of the value. -/
  constantUser : Val → Bool
  /-- `isAFLRuntimeAccess`. -/
  isAFLRuntimeAccess : Inst → Bool
  /-- `GetPointerBaseWithConstantOffset`, inbounds only. -/
  pointerBase : Val → Val × ℤ
  /-- `findAllocaForValue`. -/
  findAlloca : Val → Option Inst
  /-- `F.hasRetAttribute(NoUndef)`. -/
  retNoUndef : Bool
  /-- The analyses of the function as it stands after the visit phase. -/
  analyses : Cfg → Analyses

/-- The instruction that defines a value. -/
def Ctx.def? (cx : Ctx) (v : Val) : Option Inst :=
  match v with
  | .inst n _ => cx.f.insts.find? (·.name = n)
  | _ => none

/-- `isNoSanitizeEquivalent`. -/
def Ctx.isNoSanitizeEquivalent (cx : Ctx) (i : Inst) : Bool :=
  i.nosanitize || cx.isAFLRuntimeAccess i

/-! ### Loads without an observable use -/

/-- `onlyFeedsCallee`. -/
def onlyFeedsCallee (cx : Ctx) (v : Val) : Bool :=
  !(cx.users v).isEmpty && (cx.users v).all fun u =>
    match u.callInfo? with
    | some { callee := .indirect w, .. } => decide (w = v) && !decide (v ∈ u.args)
    | _ => false

/-- The pure instructions of `onlyFeedsNoSanitize`. -/
def isPureUser (u : Inst) : Bool :=
  match u.op with
  | .gep | .cast _ | .phi _ | .select | .bin _ | .icmp | .freeze | .extractElement
  | .insertElement | .shuffleVector | .un => true
  | .call { callee := .intrinsic .arith, .. } => true
  | .sh o =>
    match o with
    | .ptrToInt | .xorMask | .intToPtr | .gepOff _ | .select | .or | .icmpNe | .sext | .zext
    | .bitcast | .mul | .intCast | .addOff _ | .extractElement | .phi _ => true
    | _ => false
  | _ => false

/-- The loop of `PushUsers`: the worklist and the set seen, or `none` past the budget of 256. -/
def pushUsers : List Inst → List Inst × List Inst → Option (List Inst × List Inst)
  | [], s => some s
  | u :: us, s =>
    let s := Worklist.pushNew [u] s
    if s.2.length > 256 then none else pushUsers us s

/-- `PushUsers`: it gives up on a user that is not an instruction. -/
def Ctx.pushUsersOf (cx : Ctx) (v : Val) (s : List Inst × List Inst) :
    Option (List Inst × List Inst) :=
  if cx.constantUser v then none else pushUsers (cx.users v) s

/-- The worklist loop of `onlyFeedsNoSanitize`. -/
def onlyFeedsLoop (cx : Ctx) : ℕ → List Inst × List Inst → Bool
  | 0, _ => true
  | _ + 1, ([], _) => true
  | n + 1, (u :: wl, seen) =>
    if cx.isNoSanitizeEquivalent u then onlyFeedsLoop cx n (wl, seen)
    else if isPureUser u then
      match cx.pushUsersOf u.val (wl, seen) with
      | none => false
      | some s => onlyFeedsLoop cx n s
    else false

/-- `onlyFeedsNoSanitize`. The budget bounds the number of rounds. -/
def onlyFeedsNoSanitize (cx : Ctx) (v : Val) : Bool :=
  match cx.pushUsersOf v ([], []) with
  | none => false
  | some s => onlyFeedsLoop cx 257 s

/-! ### The undef slice -/

/-- `isUndefSliceScalar`. -/
def isUndefSliceScalar : Ty → Bool
  | .int _ | .ptr | .ptrAs _ | .fp _ => true
  | _ => false

/-- `isa<UndefValue>`. -/
def Val.isUndef : Val → Bool
  | .undef _ => true
  | _ => false

/-- A scalar PHI or select with an undef operand. -/
def isUndefSeed (i : Inst) : Bool :=
  isUndefSliceScalar i.ty &&
    match i.op with
    | .phi _ => i.args.any Val.isUndef
    | .select => (i.args.drop 1).any Val.isUndef
    | _ => false

/-- The classes whose result depends on their operands. -/
def isTransferClass (i : Inst) : Bool :=
  match i.op with
  | .bin _ | .un | .cast _ | .icmp | .fcmp | .select | .gep => true
  | _ => false

/-- The users of a slice value that join the slice. -/
def sliceSuccs (cx : Ctx) (v : Val) : List Val :=
  ((cx.users v).filter fun u =>
    !u.nosanitize && (u.isPhi || isTransferClass u) && isUndefSliceScalar u.ty).map Inst.val

/-- Depth-first order of the blocks. -/
def depthFirst (f : Cfg) : ℕ → List Label → List Label → List Label
  | 0, _, _ => []
  | _ + 1, [], _ => []
  | n + 1, b :: stack, seen =>
    if b ∈ seen then depthFirst f n stack seen
    else b :: depthFirst f n (f.succs b ++ stack) (b :: seen)

/-- A number of rounds in which the depth-first walk ends: every edge is pushed once. -/
def dfsFuel (f : Cfg) : ℕ := (f.labels.map fun b => (f.succs b).length + 1).sum + 1

/-- The blocks in the order of the visit phase. -/
def Ctx.blocks (cx : Ctx) : List Label := depthFirst cx.f (dfsFuel cx.f) [cx.f.entry] []

/-- `Instructions`: what the first walk over the function collects. -/
def Ctx.instructions (cx : Ctx) : List Inst :=
  (cx.blocks.flatMap cx.f.code).filter fun i => !cx.isNoSanitizeEquivalent i

/-- `computeUndefSlice`. -/
def Ctx.computeUndefSlice (cx : Ctx) : List Val :=
  if cx.opts.undefSlice then
    let seeds := Worklist.pushNew ((cx.instructions.filter isUndefSeed).map Inst.val) ([], [])
    Worklist.explore (sliceSuccs cx) (cx.f.insts.length + 1) seeds.1 seeds.2
  else []

/-! ### State -/

/-- `ShadowAndInsertPoint`. -/
structure Check where
  shadow : Val
  origIns : Inst
  essential : Bool
  deriving DecidableEq

/-- `ShadowBaseCache`, latest entries first. -/
abbrev Cache := List (Val × Val)

/-- The state of the pass. `seg n` is the code of the original instruction `n`. -/
structure St where
  next : ℕ
  seg : ℕ → List Inst
  prologue : List Inst
  shadowMap : ℕ → Option Val
  checks : List Check
  checkedLoadShadows : List Val
  pendingReturnChecks : List (Val × Inst)
  storeList : List Inst
  shadowPhis : List Inst
  allocaSet : List Inst
  lifetimeStartList : List (Inst × Inst)
  instrumentLifetimeStart : Bool
  vaStarts : List Inst
  cache : Cache
  splittableBlocksCount : ℕ

/-- The code of a block. -/
def St.blockCode (s : St) (f : Cfg) (b : Label) : List Inst :=
  (if b = f.entry then s.prologue else []) ++ (f.code b).flatMap fun i => s.seg i.name

/-- The function as it stands. -/
def St.toCfg (s : St) (f : Cfg) : Cfg := { f with code := s.blockCode f }

/-- The state before the visit phase. Names above all names of the function are unused; the
prologue is the call of `llvm.donothing`. -/
def St.init (cx : Ctx) : St where
  next := (cx.f.insts.map Inst.name).foldr max 0 + 2
  seg n := (cx.f.insts.find? (·.name = n)).toList
  prologue :=
    [{ name := (cx.f.insts.map Inst.name).foldr max 0 + 1, op := .sh .donothing, args := [],
       ty := .void }]
  shadowMap _ := none
  checks := []
  checkedLoadShadows := []
  pendingReturnChecks := []
  storeList := []
  shadowPhis := []
  allocaSet := []
  lifetimeStartList := []
  instrumentLifetimeStart := cx.opts.handleLifetimeIntrinsics
  vaStarts := []
  cache := []
  splittableBlocksCount := 0

/-- `getCleanShadow`. -/
def getCleanShadow (t : Ty) : Val := .zero (getShadowTy t)

/-- `getPoisonedShadow`. -/
def getPoisonedShadow (t : Ty) : Val := .ones (getShadowTy t)

/-- `getShadow`. Instructions that are not visited have no entry and are clean. -/
def getShadow (opts : Options) (shadowMap : ℕ → Option Val) (v : Val) : Val :=
  match v with
  | .inst n t => (shadowMap n).getD (getCleanShadow t)
  | .undef t => if opts.poisonUndef then getPoisonedShadow t else getCleanShadow t
  | v => getCleanShadow v.ty

/-! ### Shadow addresses -/

/-- An `IRBuilder`: the next name, what was emitted, and the cache of shadow bases. -/
structure Builder where
  next : ℕ
  out : List Inst
  cache : Cache

/-- Runs an emission. -/
def Builder.run (b : Builder) (m : Emit Val) : Val × Builder :=
  ((m b.next).2,
    { b with next := b.next + (m b.next).1.length, out := b.out ++ (m b.next).1 })

/-- The type of the integers behind a pointer or a vector of pointers. -/
def ptrToIntPtrType : Ty → Ty
  | .vec n _ => .vec n (.int 64)
  | _ => .int 64

/-- `getShadowPtrOffset`. -/
def getShadowPtrOffset (addr : Val) : Emit Val := do
  let long ← emit .ptrToInt [addr] (ptrToIntPtrType addr.ty)
  emit .xorMask [long] (ptrToIntPtrType addr.ty)

/-- The branch of a check: what follows it is in another block. -/
def isSplit (i : Inst) : Bool :=
  match i.op with
  | .sh (.checkBranch _) => true
  | _ => false

/-- The part of some code that is in the same block as its end. -/
def sameBlock (code : List Inst) : List Inst := code.reverse.takeWhile fun i => !isSplit i

/-- `shadowBaseUsableHere`, at the end of the code `here` of a block. -/
def shadowBaseUsableHere (cached : Val) (here : List Inst) : Bool :=
  match cached with
  | .inst n _ => (sameBlock here).any (·.name = n)
  | _ => true

/-- The shadow address of a base pointer, from the cache or computed and cached. -/
def getShadowBase (here : List Inst) (base : Val) (b : Builder) : Val × Builder :=
  let compute : Unit → Val × Builder := fun _ =>
    let (sb, b) := b.run do
      let off ← getShadowPtrOffset base
      emit .intToPtr [off] .ptr
    (sb, { b with cache := (base, sb) :: b.cache })
  match b.cache.lookup base with
  | some sb => if shadowBaseUsableHere sb (here ++ b.out) then (sb, b) else compute ()
  | none => compute ()

/-- `getShadowPtr`, at the end of the code `here` of the block. -/
def getShadowPtr (cx : Ctx) (here : List Inst) (addr : Val) (b : Builder) : Val × Builder :=
  let (base, off) := cx.pointerBase addr
  if cx.opts.sharedShadowBase && addr.ty.isPointer && decide (base ≠ addr) then
    let (sb, b) := getShadowBase here base b
    if off = 0 then (sb, b) else b.run (emit (.gepOff off) [sb] .ptr)
  else
    b.run do
      let off ← getShadowPtrOffset addr
      emit .intToPtr [off] addr.ty

/-! ### What a handler does -/

/-- What the handler of an instruction does: what it emits before and after the instruction,
what remains of the instruction, the shadow it sets, the checks it pushes with the instruction
as their site, and the lists it enters the instruction into. -/
structure Visit where
  pre : List Inst
  self : List Inst
  post : List Inst
  next : ℕ
  cache : Cache
  shadow : Option Val := none
  checks : List (Val × Bool) := []
  checkedLoadShadow : Option Val := none
  pendingReturn : Option Val := none
  isStore : Bool := false
  isShadowPhi : Bool := false
  isAlloca : Bool := false
  isVaStart : Bool := false
  lifetimeOf : Option (Option Inst) := none

/-- Where a handler works: the context, the undef slice, the state, and the code of the block
before the instruction. -/
structure Site where
  cx : Ctx
  slice : List Val
  s : St
  here : List Inst

namespace Site

variable (si : Site)

/-- The options. -/
def opts : Options := si.cx.opts

/-- `getShadow`. -/
def shadow (v : Val) : Val := getShadow si.opts si.s.shadowMap v

/-- A fresh builder. -/
def builder : Builder := ⟨si.s.next, [], si.s.cache⟩

/-- Nothing emitted. -/
def nothing (i : Inst) : Visit := ⟨[], [i], [], si.s.next, si.s.cache, none, [], none, none, false,
  false, false, false, none⟩

/-- What the builder emitted stands before the instruction. -/
def emittedBefore (i : Inst) (b : Builder) : Visit :=
  { si.nothing i with pre := b.out, next := b.next, cache := b.cache }

/-- What the builder emitted stands after the instruction. -/
def emittedAfter (i : Inst) (b : Builder) : Visit :=
  { si.nothing i with post := b.out, next := b.next, cache := b.cache }

/-- `pushShadowCheck`. -/
def pushShadowCheck (shadow : Val) (essential : Bool) : List (Val × Bool) :=
  if si.opts.emitChecks then [(shadow, essential)] else []

/-- `insertShadowCheck`. -/
def insertShadowCheck (v : Val) : List (Val × Bool) :=
  if si.opts.checkConstantShadow then si.pushShadowCheck (si.shadow v) true
  else
    match si.shadow v with
    | .inst n t => si.pushShadowCheck (.inst n t) true
    | _ => []

/-- The optional check of an address. -/
def checkAddress (v : Val) : List (Val × Bool) :=
  if si.opts.checkAccessAddress then si.insertShadowCheck v else []

/-! ### Loads, stores and atomics -/

/-- `visitInstruction`. -/
def visitInstruction (i : Inst) : Visit :=
  { si.nothing i with shadow := if i.ty.isSized then some (getCleanShadow i.ty) else none }

/-- The load is not instrumented: its shadow is clean. -/
def skipLoad (i : Inst) (addr : Val) : Visit :=
  { si.nothing i with shadow := some (getCleanShadow i.ty), checks := si.checkAddress addr }

/-- The shadow load of an instrumented load, at the end of `here`. -/
def loadShadow (here : List Inst) (addr : Val) (ty : Ty) : Val × Builder :=
  let (ptr, b) := getShadowPtr si.cx here addr si.builder
  b.run (emit .load [ptr] ty)

/-- `visitLoadInst`. `term` is the terminator of the block. -/
def visitLoadInst (term : Inst) (i : Inst) : Visit :=
  let addr := i.args.getD 0 (.zero .ptr)
  if !si.opts.instrumentLoads then
    { si.nothing i with shadow := some (getCleanShadow i.ty) }
  else if si.opts.skipNoSanitizeOnlyLoads && onlyFeedsNoSanitize si.cx i.val then
    si.skipLoad i addr
  else if si.opts.skipCalleeOnlyLoads && onlyFeedsCallee si.cx i.val then si.skipLoad i addr
  else
    let shadowAfterLoad := !isUnsplittableTerminator term
    let here := if shadowAfterLoad then si.here ++ [i] else si.here
    let (sv, b) := si.loadShadow here addr (getShadowTy i.ty)
    let v := if shadowAfterLoad then si.emittedAfter i b else si.emittedBefore i b
    { v with
      shadow := some sv
      checks := (if si.opts.checkLoads then si.pushShadowCheck sv false else []) ++
        si.checkAddress addr
      checkedLoadShadow := if si.opts.checkLoads then some sv else none }

/-- `visitStoreInst`. -/
def visitStoreInst (i : Inst) : Visit :=
  if !si.opts.instrumentStores then si.nothing i
  else
    { si.nothing i with
      isStore := true
      checks := si.checkAddress (i.args.getD 1 (.zero .ptr)) }

/-- A store of `value` to the shadow of `addr`, before the instruction. -/
def storeShadow (addr value : Val) : Builder :=
  let (ptr, b) := getShadowPtr si.cx si.here addr si.builder
  (b.run (emit .store [value, ptr] .void)).2

/-- `handleCASOrRMW`. -/
def handleCASOrRMW (isCmpXchg : Bool) (i : Inst) : Visit :=
  let addr := i.args.getD 0 (.zero .ptr)
  let val := i.args.getD 1 (.zero .ptr)
  { si.emittedBefore i (si.storeShadow addr (getCleanShadow val.ty)) with
    shadow := some (getCleanShadow i.ty)
    checks := si.checkAddress addr ++ (if isCmpXchg then si.insertShadowCheck val else []) }

/-! ### Memory intrinsics -/

/-- `CreateIntCast`, which emits nothing for the type itself. -/
def intCast (v : Val) (ty : Ty) : Emit Val :=
  if v.ty = ty then pure v else emit .intCast [v] ty

/-- The intrinsic is replaced by a call of the runtime: `visitMemMoveInst`, `visitMemCpyInst` and
`visitMemSetInst`. -/
def lowerMemIntrinsic (o : ShOp) (i : Inst) : Visit :=
  let dst := i.args.getD 0 (.zero .ptr)
  let arg := i.args.getD 1 (.zero .ptr)
  let len := i.args.getD 2 (.zero (.int 64))
  let (_, b) := si.builder.run do
    let arg ← if o = .cqmsanMemset then intCast arg (.int 32) else pure arg
    let len ← intCast len (.int 64)
    emit o [dst, arg, len] .ptr
  { si.emittedBefore i b with self := [] }

/-- A `memset` of the shadow of `addr`, before the instruction. -/
def memsetShadow (addr byte len : Val) : Builder :=
  let (ptr, b) := getShadowPtr si.cx si.here addr si.builder
  (b.run (emit .memset [ptr, byte, len] .void)).2

/-- `unpoisonVAListTagForInst`; the tag has 24 bytes. -/
def unpoisonVAListTag (i : Inst) : Visit :=
  si.emittedBefore i
    (si.memsetShadow (i.args.getD 0 (.zero .ptr)) (.zero (.int 8)) (.const (.int 64) 24))

/-- The shadow a store-like intrinsic writes. -/
def storedShadow (v : Val) : Val :=
  if si.opts.unpoisonStores then getCleanShadow v.ty else si.shadow v

/-- `handleVectorStoreIntrinsic`. -/
def handleVectorStoreIntrinsic (i : Inst) : Visit :=
  let addr := i.args.getD 0 (.zero .ptr)
  if !si.opts.instrumentStores then si.nothing i
  else
    { si.emittedBefore i (si.storeShadow addr (si.storedShadow (i.args.getD 1 (.zero .ptr)))) with
      checks := si.checkAddress addr }

/-- `handleVectorLoadIntrinsic`. -/
def handleVectorLoadIntrinsic (i : Inst) : Visit :=
  let addr := i.args.getD 0 (.zero .ptr)
  let (sv, b) := si.loadShadow si.here addr (getShadowTy i.ty)
  { si.emittedBefore i b with
    shadow := some sv
    checks := si.pushShadowCheck sv false ++ si.checkAddress addr }

/-- `isVectorTy()`. -/
def isVectorTy : Ty → Bool
  | .vec _ _ => true
  | _ => false

/-- `handleUnknownIntrinsic` and the default after it. -/
def handleUnknownIntrinsic (onlyReadsMemory : Bool) (i : Inst) : Visit :=
  match i.args with
  | [p, v] =>
    if p.ty.isPointer = true ∧ isVectorTy v.ty = true ∧ i.ty = .void ∧ onlyReadsMemory = false then
      si.handleVectorStoreIntrinsic i
    else si.visitInstruction i
  | [p] =>
    if p.ty.isPointer = true ∧ isVectorTy i.ty = true ∧ onlyReadsMemory = true then
      si.handleVectorLoadIntrinsic i
    else si.visitInstruction i
  | _ => si.visitInstruction i

/-- `handleStmxcsr`. -/
def handleStmxcsr (i : Inst) : Visit :=
  let addr := i.args.getD 0 (.zero .ptr)
  { si.emittedBefore i (si.storeShadow addr (.zero (.int 32))) with
    checks := si.checkAddress addr }

/-- `handleLdmxcsr`. -/
def handleLdmxcsr (i : Inst) : Visit :=
  if !si.opts.emitChecks then si.nothing i
  else
    let addr := i.args.getD 0 (.zero .ptr)
    let (sv, b) := si.loadShadow si.here addr (.int 32)
    { si.emittedBefore i b with
      checks := si.checkAddress addr ++ si.pushShadowCheck sv false }

/-- The masked loads: `handleMaskedLoad`, `handleMaskedGather` and `handleMaskedExpandLoad`. The
shadow is read under the mask, inactive lanes hold the shadow of the pass-through, and the
check looks at the active lanes only. -/
def handleMaskedLoadLike (o : ShOp) (addr mask passThru : Val) (checks : List (Val × Bool))
    (b : Builder) (i : Inst) : Visit :=
  let (ptr, b) := getShadowPtr si.cx si.here addr b
  let (sv, b) := b.run (emit o [ptr, mask, si.shadow passThru] (getShadowTy i.ty))
  if si.opts.checkLoads then
    let (active, b) := b.run
      (emit .select [mask, sv, getCleanShadow i.ty] (getShadowTy i.ty))
    { si.emittedBefore i b with
      shadow := some sv
      checks := checks ++ si.pushShadowCheck active false }
  else { si.emittedBefore i b with shadow := some sv, checks := checks }

/-- The masked stores: `handleMaskedStore`, `handleMaskedScatter` and
`handleMaskedCompressStore`. -/
def handleMaskedStoreLike (o : ShOp) (addr mask value : Val) (checks : List (Val × Bool))
    (b : Builder) (i : Inst) : Visit :=
  let (ptr, b) := getShadowPtr si.cx si.here addr b
  let b := (b.run (emit o [si.storedShadow value, ptr, mask] .void)).2
  { si.emittedBefore i b with checks := checks }

/-- The address checks of a masked access through one pointer. -/
def checkPtrAndMask (ptr mask : Val) : List (Val × Bool) :=
  si.checkAddress ptr ++ si.checkAddress mask

/-- The address checks of a gather or a scatter: the shadow of the pointers of the active
lanes. -/
def checkPtrsAndMask (ptrs mask : Val) : List (Val × Bool) × Builder :=
  if si.opts.checkAccessAddress then
    let (masked, b) := si.builder.run
      (emit .select [mask, si.shadow ptrs, getCleanShadow ptrs.ty] (getShadowTy ptrs.ty))
    (si.insertShadowCheck mask ++ si.pushShadowCheck masked true, b)
  else ([], si.builder)

/-- `handleMaskedLoad`. -/
def handleMaskedLoad (i : Inst) : Visit :=
  let ptr := i.args.getD 0 (.zero .ptr)
  let mask := i.args.getD 2 (.zero .ptr)
  si.handleMaskedLoadLike .maskedLoad ptr mask (i.args.getD 3 (.zero .ptr))
    (si.checkPtrAndMask ptr mask) si.builder i

/-- `handleMaskedExpandLoad`. -/
def handleMaskedExpandLoad (i : Inst) : Visit :=
  let ptr := i.args.getD 0 (.zero .ptr)
  let mask := i.args.getD 1 (.zero .ptr)
  si.handleMaskedLoadLike .maskedExpandLoad ptr mask (i.args.getD 2 (.zero .ptr))
    (si.checkPtrAndMask ptr mask) si.builder i

/-- `handleMaskedGather`. -/
def handleMaskedGather (i : Inst) : Visit :=
  let ptrs := i.args.getD 0 (.zero .ptr)
  let mask := i.args.getD 2 (.zero .ptr)
  let (checks, b) := si.checkPtrsAndMask ptrs mask
  si.handleMaskedLoadLike .maskedGather ptrs mask (i.args.getD 3 (.zero .ptr)) checks b i

/-- `handleMaskedStore`. -/
def handleMaskedStore (i : Inst) : Visit :=
  let ptr := i.args.getD 1 (.zero .ptr)
  let mask := i.args.getD 3 (.zero .ptr)
  if !si.opts.instrumentStores then si.nothing i
  else
    si.handleMaskedStoreLike .maskedStore ptr mask (i.args.getD 0 (.zero .ptr))
      (si.checkPtrAndMask ptr mask) si.builder i

/-- `handleMaskedCompressStore`. -/
def handleMaskedCompressStore (i : Inst) : Visit :=
  let ptr := i.args.getD 1 (.zero .ptr)
  let mask := i.args.getD 2 (.zero .ptr)
  if !si.opts.instrumentStores then si.nothing i
  else
    si.handleMaskedStoreLike .maskedCompressStore ptr mask (i.args.getD 0 (.zero .ptr))
      (si.checkPtrAndMask ptr mask) si.builder i

/-- `handleMaskedScatter`. -/
def handleMaskedScatter (i : Inst) : Visit :=
  let ptrs := i.args.getD 1 (.zero .ptr)
  let mask := i.args.getD 3 (.zero .ptr)
  if !si.opts.instrumentStores then si.nothing i
  else
    let (checks, b) := si.checkPtrsAndMask ptrs mask
    si.handleMaskedStoreLike .maskedScatter ptrs mask (i.args.getD 0 (.zero .ptr)) checks b i

/-- `visitIntrinsicInst`, with the visitors of the memory and variadic intrinsics. -/
def visitIntrinsicInst (id : Intrinsic) (i : Inst) : Visit :=
  match id with
  | .memcpy => si.lowerMemIntrinsic .cqmsanMemcpy i
  | .memmove => si.lowerMemIntrinsic .cqmsanMemmove i
  | .memset => si.lowerMemIntrinsic .cqmsanMemset i
  | .vaStart => { si.unpoisonVAListTag i with isVaStart := true }
  | .vaCopy => si.unpoisonVAListTag i
  | .lifetimeStart =>
    if si.opts.poisonStack then
      { si.nothing i with lifetimeOf := some (si.cx.findAlloca (i.args.getD 1 (.zero .ptr))) }
    else si.nothing i
  | .launderInvariantGroup | .stripInvariantGroup =>
    { si.nothing i with shadow := some (si.shadow (i.args.getD 0 (.zero .ptr))) }
  | .maskedCompressstore => si.handleMaskedCompressStore i
  | .maskedExpandload => si.handleMaskedExpandLoad i
  | .maskedGather => si.handleMaskedGather i
  | .maskedScatter => si.handleMaskedScatter i
  | .maskedStore => si.handleMaskedStore i
  | .maskedLoad => si.handleMaskedLoad i
  | .isConstant => { si.nothing i with shadow := some (getCleanShadow i.ty) }
  | .x86SseStmxcsr => si.handleStmxcsr i
  | .x86SseLdmxcsr => si.handleLdmxcsr i
  | .arith => si.handleUnknownIntrinsic true i
  | .other onlyReadsMemory => si.handleUnknownIntrinsic onlyReadsMemory i

/-! ### Calls -/

/-- `instrumentAsmArgument`, for the output arguments. -/
def unpoisonAsmOutputs : List (Val × Ty) → Builder → Builder
  | [], b => b
  | (operand, elemTy) :: rest, b =>
    if operand.ty.isPointer = true ∧ elemTy.isSized = true then
      let (ptr, b) := getShadowPtr si.cx si.here operand b
      let size := elemTy.layout.storeSize
      let b :=
        if size ≤ 32 then (b.run (emit .store [getCleanShadow elemTy, ptr] .void)).2
        else (b.run (emit .memset [ptr, .zero (.int 8), .const (.int 64) size] .void)).2
      unpoisonAsmOutputs rest b
    else unpoisonAsmOutputs rest b

/-- `visitAsmInstruction`. -/
def visitAsmInstruction (outputArgs : ℕ) (elemTys : List Ty) (i : Inst) : Visit :=
  { si.emittedBefore i
      (si.unpoisonAsmOutputs ((i.args.take outputArgs).zip elemTys) si.builder) with
    shadow := if i.ty.isSized then some (getCleanShadow i.ty) else none }

/-- The ordering argument of a libatomic call, strengthened by a table lookup. -/
def strengthenOrdering (i : Inst) (b : Builder) : Inst × Builder :=
  let (ordering, b) := b.run (emit .extractElement [i.args.getD 3 (.zero (.int 32))] (.int 32))
  ({ i with args := i.args.set 3 ordering }, b)

/-- `visitLibAtomicLoad`. -/
def visitLibAtomicLoad (i : Inst) : Visit :=
  let (i', b) := strengthenOrdering i si.builder
  let here := si.here ++ b.out ++ [i']
  let b' : Builder := ⟨b.next, [], b.cache⟩
  let (src, b') := getShadowPtr si.cx here (i.args.getD 1 (.zero .ptr)) b'
  let (dst, b') := getShadowPtr si.cx here (i.args.getD 2 (.zero .ptr)) b'
  let b' := (b'.run (emit .memcpy [dst, src, i.args.getD 0 (.zero (.int 64))] .void)).2
  { si.nothing i with
    pre := b.out, self := [i'], post := b'.out, next := b'.next, cache := b'.cache }

/-- `visitLibAtomicStore`. -/
def visitLibAtomicStore (i : Inst) : Visit :=
  let (i', b) := strengthenOrdering i si.builder
  let (dst, b) := getShadowPtr si.cx si.here (i.args.getD 2 (.zero .ptr)) b
  let b := (b.run
    (emit .memset [dst, .zero (.int 8), i.args.getD 0 (.zero (.int 64))] .void)).2
  { si.emittedBefore i b with self := [i'] }

/-- `VarArgAMD64Helper::ArgKind`. -/
inductive ArgKind
  | generalPurpose | floatingPoint | memory
  deriving DecidableEq

/-- `classifyArgument`. -/
def classifyArgument : Ty → ArgKind
  | .fp .x86Fp80 => .memory
  | .fp _ | .vec _ (.fp _) => .floatingPoint
  | .int w => if w ≤ 64 then .generalPurpose else .memory
  | .ptr | .ptrAs _ => .generalPurpose
  | _ => .memory

/-- The loop of `VarArgAMD64Helper::visitCallBase` over the arguments: the offsets in the
register save area and the size of the overflow area. -/
def overflowSize (fixed : ℕ) (byVal : List (ℕ × Ty)) :
    ℕ → List Val → ℕ → ℕ → ℕ → ℕ
  | _, [], _, _, overflow => overflow
  | argNo, a :: args, gp, fp, overflow =>
    let isFixed := decide (argNo < fixed)
    match byVal.lookup argNo with
    | some realTy =>
      let overflow := if isFixed then overflow else overflow + alignTo realTy.layout.allocSize 8
      overflowSize fixed byVal (argNo + 1) args gp fp overflow
    | none =>
      let memory := if isFixed then overflow else overflow + alignTo a.ty.layout.allocSize 8
      match classifyArgument a.ty with
      | .generalPurpose =>
        if gp ≥ 48 then overflowSize fixed byVal (argNo + 1) args gp fp memory
        else overflowSize fixed byVal (argNo + 1) args (gp + 8) fp overflow
      | .floatingPoint =>
        if fp ≥ 176 then overflowSize fixed byVal (argNo + 1) args gp fp memory
        else overflowSize fixed byVal (argNo + 1) args gp (fp + 16) overflow
      | .memory => overflowSize fixed byVal (argNo + 1) args gp fp memory

/-- The size that `VarArgAMD64Helper::visitCallBase` stores. `OverflowOffset` has 32 bits. -/
def vaArgOverflowSize (fixed : ℕ) (byVal : List (ℕ × Ty)) (args : List Val) : ℕ :=
  overflowSize fixed byVal 0 args 0 48 0 % 2 ^ 32

/-- The eager checks of the `noundef` arguments. -/
def eagerArgumentChecks (c : CallInfo) (i : Inst) : List (Val × Bool) :=
  (i.args.zipIdx.filter fun a => a.1.ty.isSized && (c.byVal.lookup a.2).isNone &&
    decide (a.2 ∈ c.noUndef)).flatMap fun a => si.insertShadowCheck a.1

/-- `MayCheckCall`. -/
def mayCheckCall (c : CallInfo) : Bool :=
  si.opts.eagerChecks &&
    match c.callee with
    | .fn name => !name.startsWith "__sanitizer_unaligned_"
    | _ => true

/-- The rest of `visitCallBase`, after inline assembly and libatomic. No shadow is passed to the
callee, and nothing is emitted for the memory a `byval` parameter is copied to; the result is
trusted to be clean. -/
def visitOrdinaryCall (c : CallInfo) (i : Inst) : Visit :=
  let b :=
    match c.variadic with
    | none => si.builder
    | some fixed =>
      (si.builder.run (emit (.overflowSizeStore (vaArgOverflowSize fixed c.byVal i.args)) []
        .void)).2
  { si.emittedBefore i b with
    shadow :=
      if i.ty.isSized && !c.mustTail then some (getCleanShadow i.ty) else none
    checks := if si.mayCheckCall c then si.eagerArgumentChecks c i else [] }

/-- `visitCallBase`. -/
def visitCallBase (c : CallInfo) (i : Inst) : Visit :=
  match c.callee with
  | .asm outputArgs elemTys =>
    if si.opts.handleAsmConservative then si.visitAsmInstruction outputArgs elemTys i
    else si.visitInstruction i
  | .fn name =>
    if name = "__atomic_load" ∧ i.isTerminator = false then si.visitLibAtomicLoad i
    else if name = "__atomic_store" then si.visitLibAtomicStore i
    else si.visitOrdinaryCall c i
  | _ => si.visitOrdinaryCall c i

/-! ### Returns, PHIs and allocas -/

/-- `isAMustTailRetVal`. -/
def isAMustTailRetVal (v : Val) : Bool :=
  let v :=
    match si.cx.def? v with
    | some { op := .cast true, args := [w], .. } => w
    | _ => v
  match si.cx.def? v with
  | some { op := .call c, .. } => c.mustTail
  | _ => false

/-- `visitReturnInst`. -/
def visitReturnInst (i : Inst) : Visit :=
  match i.args with
  | [v] =>
    if si.isAMustTailRetVal v then si.nothing i
    else if (if si.opts.checkReturns then isUndefSliceScalar v.ty else si.cx.retNoUndef) then
      { si.nothing i with pendingReturn := some v }
    else si.nothing i
  | _ => si.nothing i

/-- `visitPHINode`. The operands of the shadow PHI are filled in later. -/
def visitPHINode (incoming : List Label) (i : Inst) : Visit :=
  let (sv, b) := si.builder.run (emit (.phi incoming) [] (getShadowTy i.ty))
  { si.emittedBefore i b with shadow := some sv, isShadowPhi := true }

/-- `visitAllocaInst`. -/
def visitAllocaInst (i : Inst) : Visit :=
  { si.nothing i with shadow := some (getCleanShadow i.ty), isAlloca := true }

/-- The visitor of an instruction. -/
def visit (term : Inst) (i : Inst) : Visit :=
  match i.op with
  | .load => si.visitLoadInst term i
  | .store _ _ => si.visitStoreInst i
  | .cmpxchg => si.handleCASOrRMW true i
  | .atomicrmw => si.handleCASOrRMW false i
  | .call c =>
    match c.callee with
    | .intrinsic id => si.visitIntrinsicInst id i
    | _ => si.visitCallBase c i
  | .invoke c _ | .callBr c => si.visitCallBase c i
  | .ret => si.visitReturnInst i
  | .phi incoming => si.visitPHINode incoming i
  | .alloca _ => si.visitAllocaInst i
  | _ => si.visitInstruction i

/-! ### The undef slice -/

/-- The value is in the slice. -/
def inSlice (v : Val) : Bool := decide (v ∈ si.slice)

/-- `isUndefSliceTransfer`. -/
def isUndefSliceTransfer (i : Inst) : Bool := si.inSlice i.val && isTransferClass i

/-- `getUndefSliceShadow`. -/
def getUndefSliceShadow (v : Val) : Val :=
  if v.isUndef || si.inSlice v then si.shadow v else getCleanShadow v.ty

/-- The loop of `handleUndefSliceInst` over the operands. -/
def orSliceOperands : List Val → Option Val → Emit Val
  | [], acc => pure (acc.getD (.zero (.int 1)))
  | v :: vs, acc =>
    if (v.isUndef || si.inSlice v) && v.ty.isSized then do
      let b ← convertToBool (si.shadow v)
      match acc with
      | none => orSliceOperands vs (some b)
      | some a => do
        let a ← emit .or [a, b] (.int 1)
        orSliceOperands vs (some a)
    else orSliceOperands vs acc

/-- `CreateSExt`, which emits nothing for the type itself. -/
def sextTo (v : Val) (ty : Ty) : Emit Val := if v.ty = ty then pure v else emit .sext [v] ty

/-- `handleUndefSliceInst` for a select: the arm chosen, or poisoned by the condition. -/
def sliceSelectShadow (cond a b : Val) (ty : Ty) : Emit Val := do
  let sel ← emit .select [cond, si.getUndefSliceShadow a, si.getUndefSliceShadow b] ty
  if si.inSlice cond then do
    let c ← convertToBool (si.shadow cond)
    let wide ← sextTo c ty
    emit .or [sel, wide] ty
  else pure sel

/-- The operands that count for the shadow of a slice instruction. -/
def sliceOperands (i : Inst) : List Val :=
  i.args.filter fun v => (v.isUndef || si.inSlice v) && v.ty.isSized

/-- `handleUndefSliceInst`. -/
def handleUndefSliceInst (i : Inst) : Visit :=
  let ty := getShadowTy i.ty
  match i.op, i.args with
  | .select, [cond, a, b] =>
    let (sv, bu) := si.builder.run (si.sliceSelectShadow cond a b ty)
    { si.emittedBefore i bu with shadow := some sv }
  | _, _ =>
    if (si.sliceOperands i).isEmpty then
      { si.nothing i with shadow := some (getCleanShadow i.ty) }
    else
      let (sv, bu) := si.builder.run do
        let acc ← si.orSliceOperands i.args none
        sextTo acc ty
      { si.emittedBefore i bu with shadow := some sv }

/-- The check of a slice value at a sink. -/
def sinkCheck (v : Val) : List (Val × Bool) := if si.inSlice v then si.insertShadowCheck v else []

/-- `checkUndefSliceSinks`. -/
def checkUndefSliceSinks (i : Inst) : List (Val × Bool) :=
  match i.op with
  | .condBr | .switch => si.sinkCheck (i.args.getD 0 (.zero .ptr))
  | .load =>
    if si.opts.checkAccessAddress then [] else si.sinkCheck (i.args.getD 0 (.zero .ptr))
  | .store _ _ =>
    if si.opts.checkAccessAddress then [] else si.sinkCheck (i.args.getD 1 (.zero .ptr))
  | .call c | .invoke c _ | .callBr c =>
    match c.callee with
    | .asm _ _ | .intrinsic _ => []
    | _ =>
      if si.opts.eagerChecks then []
      else
        (i.args.zipIdx.filter fun a => decide (a.2 ∈ c.noUndef) &&
          (c.byVal.lookup a.2).isNone).flatMap fun a => si.sinkCheck a.1
  | _ => []

/-- One round of the second loop of `runOnFunction`. -/
def process (term : Inst) (i : Inst) : Visit :=
  if si.slice.isEmpty then si.visit term i
  else
    let v := if si.isUndefSliceTransfer i then si.handleUndefSliceInst i else si.visit term i
    { v with checks := si.checkUndefSliceSinks i ++ v.checks }

end Site

/-! ### The visit phase -/

/-- The state after the visit of an instruction. -/
def St.apply (s : St) (i : Inst) (v : Visit) : St :=
  { s with
    next := v.next
    seg := Function.update s.seg i.name (v.pre ++ v.self ++ v.post)
    shadowMap :=
      match v.shadow with
      | some sv => Function.update s.shadowMap i.name (some sv)
      | none => s.shadowMap
    checks := s.checks ++ v.checks.map fun c => ⟨c.1, i, c.2⟩
    checkedLoadShadows := s.checkedLoadShadows ++ v.checkedLoadShadow.toList
    pendingReturnChecks := s.pendingReturnChecks ++ v.pendingReturn.toList.map (·, i)
    storeList := s.storeList ++ if v.isStore then [i] else []
    shadowPhis := s.shadowPhis ++ if v.isShadowPhi then [i] else []
    allocaSet := s.allocaSet ++ if v.isAlloca then [i] else []
    vaStarts := s.vaStarts ++ if v.isVaStart then [i] else []
    lifetimeStartList := s.lifetimeStartList ++
      match v.lifetimeOf with
      | some (some a) => [(i, a)]
      | _ => []
    instrumentLifetimeStart := s.instrumentLifetimeStart && decide (v.lifetimeOf ≠ some none)
    cache := v.cache }

/-- The code of block `b` before the segment of `i`. -/
def St.codeBefore (s : St) (f : Cfg) (b : Label) (i : Inst) : List Inst :=
  (if b = f.entry then s.prologue else []) ++
    (before i (f.code b)).flatMap fun j => s.seg j.name

/-- The terminator of a block. -/
def Cfg.terminator (f : Cfg) (b : Label) : Inst :=
  (f.code b).getLast?.getD { name := 0, op := .unreachable, args := [], ty := .void }

/-- The visit of one instruction of block `b`. -/
def visitStep (cx : Ctx) (slice : List Val) (s : St) (bi : Label × Inst) : St :=
  let si : Site := ⟨cx, slice, s, s.codeBefore cx.f bi.1 bi.2⟩
  s.apply bi.2 (si.process (cx.f.terminator bi.1) bi.2)

/-- The instructions with their blocks, in the order of the visit. -/
def Ctx.visitOrder (cx : Ctx) : List (Label × Inst) :=
  cx.blocks.flatMap fun b =>
    ((cx.f.code b).filter fun i => !cx.isNoSanitizeEquivalent i).map (b, ·)

/-- The visit phase. -/
def runVisit (cx : Ctx) : St :=
  cx.visitOrder.foldl (visitStep cx cx.computeUndefSlice) (St.init cx)

end CQMSan
