import CQMSan.Pass.DepthFirst
import CQMSan.Pass.Grouping

/-!
# Calls of `setShadow` and `getShadow`

The assertions of the pass on its shadow map look at the order of the calls of `setShadow` and
`getShadow` only. `Calls` lists, handler by handler, the calls that a handler makes, and
`shadowCalls` those of a whole run of `runOnFunction`. `ShadowCall.run` is one call on the map,
which fails where the assertion does.

The policies on returned values are included: with `cqmsan-trust-return` off, the shadow of the
result of a call is read from `__cqmsan_retval_tls` after the call, or at the normal destination of
an `invoke` (`Site.processWith`).
-/

namespace CQMSan

/-! ### The shadow map -/

/-- A call of `getShadow`, or of `setShadow` with a shadow that may be null. -/
inductive ShadowCall
  | get (v : Val)
  | set (i : Inst) (nonNull : Bool)
  deriving DecidableEq

/-- What the assertions see of `ShadowMap`: the keys, and which entries are not null. -/
abbrev ShadowKeys := ℕ → Option Bool

/-- One call on the map, or `none` where an assertion fails. -/
def ShadowCall.run (cx : Ctx) (m : ShadowKeys) : ShadowCall → Option ShadowKeys
  -- "Values may only have one shadow"
  | .set i nonNull =>
    if (m i.name).isSome then none else some (Function.update m i.name (some nonNull))
  -- "missing shadow (a handler forgot setShadow)"
  | .get (.inst n t) =>
    match cx.def? (.inst n t) with
    | none => none
    | some i =>
      if cx.isNoSanitizeEquivalent i then some m
      else if m n = some true then some m else none
  | .get _ => some m

/-- A list of calls on the map. -/
def runCalls (cx : Ctx) (m : ShadowKeys) (cs : List ShadowCall) : Option ShadowKeys :=
  cs.foldlM (ShadowCall.run cx) m

/-! ### Returned values -/

/-- The policy on returned values: `cqmsan-trust-return`, and `hasRetAttr(NoUndef)` of a call. -/
structure ReturnPolicy where
  trustReturn : Bool
  hasRetNoUndef : Inst → Bool

/-- `visitCallBase` runs to its end: the callee is not inline assembly and not of libatomic. -/
def CallInfo.isOrdinary (c : CallInfo) (i : Inst) : Bool :=
  match c.callee with
  | .asm _ _ => false
  | .fn name =>
    !decide (name = "__atomic_load" ∧ i.isTerminator = false) && !decide (name = "__atomic_store")
  | _ => true

/-- The calls for which `visitCallBase` runs to its end. -/
def Inst.ordinaryCall? (i : Inst) : Option CallInfo :=
  match i.op with
  | .call c =>
    match c.callee with
    | .intrinsic _ => none
    | _ => if c.isOrdinary i then some c else none
  | .invoke c _ | .callBr c => if c.isOrdinary i then some c else none
  | _ => none

/-- The shadow of the result is read from the thread-local storage. -/
def Site.readsRetval (si : Site) (pol : ReturnPolicy) (c : CallInfo) (i : Inst) : Bool :=
  i.ty.isSized && !c.mustTail && !(si.mayCheckCall c && pol.hasRetNoUndef i) && !pol.trustReturn

/-- `getNormalDest()` of an `invoke`. -/
def Cfg.normalDest (f : Cfg) (b : Label) : Label := (f.succs b).headD 0

/-- `getSinglePredecessor()` finds a block. -/
def Cfg.hasSinglePredecessor (f : Cfg) (b : Label) : Bool :=
  decide ((f.labels.flatMap fun p => (f.succs p).filter (· = b)).length = 1)

/-- `RetvalTLS`. -/
def retvalTLS : Val := .global "__cqmsan_retval_tls"

/-- The end of `visitCallBase` without trust: the storage is cleared before the call and read after
it. The second part is what goes to the first insertion point of another block. -/
def Site.readRetval (si : Site) (b : Label) (i : Inst) (v : Visit) :
    Visit × List (Label × Inst) :=
  let clear : Inst :=
    { name := v.next, op := .sh .store, args := [getCleanShadow i.ty, retvalTLS], ty := .void }
  let load : Inst :=
    { name := v.next + 1, op := .sh .load, args := [retvalTLS], ty := getShadowTy i.ty }
  let v := { v with pre := v.pre ++ [clear] }
  match i.op with
  | .call _ =>
    ({ v with post := v.post ++ [load], next := v.next + 2, shadow := some load.val }, [])
  | _ =>
    let dest := si.cx.f.normalDest b
    if si.cx.f.hasSinglePredecessor dest then
      ({ v with next := v.next + 2, shadow := some load.val }, [(dest, load)])
    else ({ v with next := v.next + 1, shadow := some (getCleanShadow i.ty) }, [])

/-- One round of the second loop of `runOnFunction`, under a policy on returned values. -/
def Site.processWith (si : Site) (pol : ReturnPolicy) (b : Label) (term i : Inst) :
    Visit × List (Label × Inst) :=
  match i.ordinaryCall? with
  | some c =>
    if si.readsRetval pol c i then si.readRetval b i (si.process term i)
    else (si.process term i, [])
  | none => (si.process term i, [])

/-- The visit of one instruction of block `b`. The second part of the state holds what was
inserted at the start of other blocks. -/
def visitStepWith (pol : ReturnPolicy) (cx : Ctx) (slice : List Val)
    (s : St × List (Label × Inst)) (bi : Label × Inst) : St × List (Label × Inst) :=
  let si : Site := ⟨cx, slice, s.1, s.1.codeBefore cx.f bi.1 bi.2⟩
  let r := si.processWith pol bi.1 (cx.f.terminator bi.1) bi.2
  (s.1.apply bi.2 r.1, s.2 ++ r.2)

/-- The visit phase under a policy on returned values. -/
def runVisitWith (pol : ReturnPolicy) (cx : Ctx) : St × List (Label × Inst) :=
  cx.visitOrder.foldl (visitStepWith pol cx cx.computeUndefSlice) (St.init cx, [])

/-- `InstrumentationList` when `materializeChecks` starts. `remap` is the deferral to sinks. -/
def instrumentationList (pol : ReturnPolicy) (cx : Ctx) (remap : Check → Check) : List Check :=
  let s := (runVisitWith pol cx).1
  let cs := (filterPendingReturnChecks cx (s.shadowPhis.foldl (finalizePhi cx) s)).checks
  if cx.opts.sinkChecks then groupByOrigIns (cs.map remap) else cs

/-! ### The calls of the handlers -/

namespace Calls

variable (cx : Ctx) (slice : List Val)

/-- `setShadow` with the clean shadow, which is null for a type without a size. -/
def setClean (i : Inst) : ShadowCall := .set i i.ty.isSized

/-- The optional check of an address. -/
def checkAddress (v : Val) : List ShadowCall := if cx.opts.checkAccessAddress then [.get v] else []

/-- `visitInstruction`. -/
def visitInstruction (i : Inst) : List ShadowCall := if i.ty.isSized then [setClean i] else []

/-- `visitLoadInst`. -/
def visitLoadInst (i : Inst) : List ShadowCall :=
  let addr := i.args.getD 0 (.zero .ptr)
  if !cx.opts.instrumentLoads then [setClean i]
  else if cx.opts.skipNoSanitizeOnlyLoads && onlyFeedsNoSanitize cx i.val then
    setClean i :: checkAddress cx addr
  else if cx.opts.skipCalleeOnlyLoads && onlyFeedsCallee cx i.val then
    setClean i :: checkAddress cx addr
  else .set i true :: checkAddress cx addr

/-- `visitStoreInst`. -/
def visitStoreInst (i : Inst) : List ShadowCall :=
  if !cx.opts.instrumentStores then [] else checkAddress cx (i.args.getD 1 (.zero .ptr))

/-- `handleCASOrRMW`. -/
def handleCASOrRMW (isCmpXchg : Bool) (i : Inst) : List ShadowCall :=
  checkAddress cx (i.args.getD 0 (.zero .ptr)) ++
    (if isCmpXchg then [.get (i.args.getD 1 (.zero .ptr))] else []) ++ [setClean i]

/-- The shadow a store-like intrinsic writes. -/
def storedShadow (v : Val) : List ShadowCall := if cx.opts.unpoisonStores then [] else [.get v]

/-- `handleVectorStoreIntrinsic`. -/
def handleVectorStoreIntrinsic (i : Inst) : List ShadowCall :=
  if !cx.opts.instrumentStores then []
  else
    storedShadow cx (i.args.getD 1 (.zero .ptr)) ++ checkAddress cx (i.args.getD 0 (.zero .ptr))

/-- `handleVectorLoadIntrinsic`. -/
def handleVectorLoadIntrinsic (i : Inst) : List ShadowCall :=
  .set i true :: checkAddress cx (i.args.getD 0 (.zero .ptr))

/-- `handleUnknownIntrinsic` and the default after it. -/
def handleUnknownIntrinsic (onlyReadsMemory : Bool) (i : Inst) : List ShadowCall :=
  match i.args with
  | [p, v] =>
    if p.ty.isPointer = true ∧ Site.isVectorTy v.ty = true ∧ i.ty = .void ∧
        onlyReadsMemory = false then
      handleVectorStoreIntrinsic cx i
    else visitInstruction i
  | [p] =>
    if p.ty.isPointer = true ∧ Site.isVectorTy i.ty = true ∧ onlyReadsMemory = true then
      handleVectorLoadIntrinsic cx i
    else visitInstruction i
  | _ => visitInstruction i

/-- The address checks of a masked access through one pointer. -/
def checkPtrAndMask (ptr mask : Val) : List ShadowCall :=
  checkAddress cx ptr ++ checkAddress cx mask

/-- The address checks of a gather or a scatter. -/
def checkPtrsAndMask (ptrs mask : Val) : List ShadowCall :=
  checkAddress cx mask ++ checkAddress cx ptrs

/-- The masked loads, after the address checks. -/
def handleMaskedLoadLike (passThru : Val) (i : Inst) : List ShadowCall :=
  [.get passThru, .set i true]

/-- `visitIntrinsicInst`, with the visitors of the memory and variadic intrinsics. -/
def visitIntrinsicInst (id : Intrinsic) (i : Inst) : List ShadowCall :=
  let arg : ℕ → Val := fun k => i.args.getD k (.zero .ptr)
  match id with
  | .memcpy | .memmove => [.get (arg 1)]
  | .memset | .vaStart | .vaCopy | .lifetimeStart => []
  | .launderInvariantGroup | .stripInvariantGroup => [.get (arg 0), .set i true]
  | .maskedCompressstore =>
    if !cx.opts.instrumentStores then []
    else checkPtrAndMask cx (arg 1) (arg 2) ++ storedShadow cx (arg 0)
  | .maskedExpandload => checkPtrAndMask cx (arg 0) (arg 1) ++ handleMaskedLoadLike (arg 2) i
  | .maskedGather => checkPtrsAndMask cx (arg 0) (arg 2) ++ handleMaskedLoadLike (arg 3) i
  | .maskedScatter =>
    if !cx.opts.instrumentStores then []
    else checkPtrsAndMask cx (arg 1) (arg 3) ++ storedShadow cx (arg 0)
  | .maskedStore =>
    if !cx.opts.instrumentStores then []
    else storedShadow cx (arg 0) ++ checkPtrAndMask cx (arg 1) (arg 3)
  | .maskedLoad => checkPtrAndMask cx (arg 0) (arg 2) ++ handleMaskedLoadLike (arg 3) i
  | .isConstant => [setClean i]
  | .x86SseStmxcsr => checkAddress cx (arg 0)
  | .x86SseLdmxcsr => if !cx.opts.emitChecks then [] else checkAddress cx (arg 0)
  | .arith => handleUnknownIntrinsic cx true i
  | .other onlyReadsMemory => handleUnknownIntrinsic cx onlyReadsMemory i

/-- `MayCheckCall`. -/
def mayCheckCall (c : CallInfo) : Bool :=
  cx.opts.eagerChecks &&
    match c.callee with
    | .fn name => !name.startsWith "__sanitizer_unaligned_"
    | _ => true

/-- The eager checks of the `noundef` arguments. -/
def eagerArgumentChecks (c : CallInfo) (i : Inst) : List ShadowCall :=
  (i.args.zipIdx.filter fun a => a.1.ty.isSized && (c.byVal.lookup a.2).isNone &&
    decide (a.2 ∈ c.noUndef)).map fun a => .get a.1

/-- The end of `visitCallBase`: the shadow of the result. -/
def returnedValue (pol : ReturnPolicy) (b : Label) (c : CallInfo) (i : Inst) : List ShadowCall :=
  if !i.ty.isSized then []
  else if c.mustTail then []
  else if mayCheckCall cx c && pol.hasRetNoUndef i then [setClean i]
  else if pol.trustReturn then [setClean i]
  else
    match i.op with
    | .call _ => [.set i true]
    | _ => if cx.f.hasSinglePredecessor (cx.f.normalDest b) then [.set i true] else [setClean i]

/-- `visitCallBase`. -/
def visitCallBase (pol : ReturnPolicy) (b : Label) (c : CallInfo) (i : Inst) : List ShadowCall :=
  let ordinary := (if mayCheckCall cx c then eagerArgumentChecks c i else []) ++
    returnedValue cx pol b c i
  match c.callee with
  | .asm _ _ => if cx.opts.handleAsmConservative then [setClean i] else visitInstruction i
  | .fn name =>
    if name = "__atomic_load" ∧ i.isTerminator = false then []
    else if name = "__atomic_store" then []
    else ordinary
  | _ => ordinary

/-- The visitor of an instruction of block `b`. -/
def visit (pol : ReturnPolicy) (b : Label) (i : Inst) : List ShadowCall :=
  match i.op with
  | .load => visitLoadInst cx i
  | .store _ _ => visitStoreInst cx i
  | .cmpxchg => handleCASOrRMW cx true i
  | .atomicrmw => handleCASOrRMW cx false i
  | .call c =>
    match c.callee with
    | .intrinsic id => visitIntrinsicInst cx id i
    | _ => visitCallBase cx pol b c i
  | .invoke c _ | .callBr c => visitCallBase cx pol b c i
  -- a return only enters the list of pending checks
  | .ret => []
  | .phi _ => [.set i true]
  | .alloca _ => [setClean i]
  | _ => visitInstruction i

/-- `getUndefSliceShadow`. -/
def getUndefSliceShadow (v : Val) : List ShadowCall :=
  if v.isUndef || decide (v ∈ slice) then [.get v] else []

/-- `handleUndefSliceInst`. -/
def handleUndefSliceInst (i : Inst) : List ShadowCall :=
  match i.op, i.args with
  | .select, [cond, x, y] =>
    getUndefSliceShadow slice x ++ getUndefSliceShadow slice y ++
      (if cond ∈ slice then [.get cond] else []) ++ [.set i true]
  | _, _ =>
    ((i.args.filter fun v => (v.isUndef || decide (v ∈ slice)) && v.ty.isSized).map .get) ++
      [.set i true]

/-- The check of a slice value at a sink. -/
def sinkCheck (v : Val) : List ShadowCall := if v ∈ slice then [.get v] else []

/-- `checkUndefSliceSinks`. -/
def checkUndefSliceSinks (i : Inst) : List ShadowCall :=
  match i.op with
  | .condBr | .switch => sinkCheck slice (i.args.getD 0 (.zero .ptr))
  | .load =>
    if cx.opts.checkAccessAddress then [] else sinkCheck slice (i.args.getD 0 (.zero .ptr))
  | .store _ _ =>
    if cx.opts.checkAccessAddress then [] else sinkCheck slice (i.args.getD 1 (.zero .ptr))
  | .call c | .invoke c _ | .callBr c =>
    match c.callee with
    | .asm _ _ | .intrinsic _ => []
    | _ =>
      if cx.opts.eagerChecks then []
      else
        (i.args.zipIdx.filter fun a => decide (a.2 ∈ c.noUndef) &&
          (c.byVal.lookup a.2).isNone).flatMap fun a => sinkCheck slice a.1
  | _ => []

/-- One round of the second loop of `runOnFunction`. -/
def process (pol : ReturnPolicy) (b : Label) (i : Inst) : List ShadowCall :=
  if slice.isEmpty then visit cx pol b i
  else
    checkUndefSliceSinks cx slice i ++
      if decide (i.val ∈ slice) && isTransferClass i then handleUndefSliceInst slice i
      else visit cx pol b i

/-- One round of the loop that finalizes the PHIs. -/
def finalizePhi (pn : Inst) : List ShadowCall := .get pn.val :: pn.args.map .get

/-- One round of `materializeStores`. -/
def materializeStore (i : Inst) : List ShadowCall :=
  let v := i.args.getD 0 (.zero .ptr)
  (if cx.opts.unpoisonStores || i.isAtomicStore then [] else [.get v]) ++
    if cx.opts.unpoisonStores && !i.isAtomicStore && decide (v ∈ slice) then [.get v] else []

end Calls

/-- The calls of `runOnFunction`, in their order: the visitors, the PHIs, the pending return checks
and the stores. -/
def shadowCalls (pol : ReturnPolicy) (cx : Ctx) : List ShadowCall :=
  let slice := cx.computeUndefSlice
  let s := (runVisitWith pol cx).1
  cx.visitOrder.flatMap (fun bi => Calls.process cx slice pol bi.1 bi.2) ++
    s.shadowPhis.flatMap Calls.finalizePhi ++
    s.pendingReturnChecks.map (fun p => .get p.1) ++
    s.storeList.flatMap (Calls.materializeStore cx slice)

end CQMSan
