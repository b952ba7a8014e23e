import CQMSan.Pass.Visitor

/-!
# Materialization

The phases after the visit: the operands of the shadow PHIs, the pending return checks, the
variadic areas, the allocas, the deferral of checks to sinks, and the materialization of the
checks and of the shadow stores, each in the order of `runOnFunction`.

All of them insert code before or after an instruction that is found by its name
(`St.insertBefore`, `St.insertAfter`). A check ends in a `checkBranch`, where
`SplitBlockAndInsertIfThen` splits the block: what follows in the segment is the tail block, and
the block with the warning is the branch itself. `sameBlock` recovers the blocks from this.
-/

namespace CQMSan

/-! ### Inserting code -/

/-- Inserts `xs` before the instruction `n` of a list. -/
def insertBeforeIn (n : ℕ) (xs : List Inst) : List Inst → List Inst
  | [] => []
  | y :: ys => if y.name = n then xs ++ y :: ys else y :: insertBeforeIn n xs ys

/-- Inserts `xs` after the instruction `n` of a list. -/
def insertAfterIn (n : ℕ) (xs : List Inst) : List Inst → List Inst
  | [] => []
  | y :: ys => if y.name = n then y :: (xs ++ ys) else y :: insertAfterIn n xs ys

/-- Changes all the code of the function. -/
def St.edit (s : St) (e : List Inst → List Inst) : St :=
  { s with seg := fun m => e (s.seg m), prologue := e s.prologue }

/-- Inserts code before the instruction `n`. -/
def St.insertBefore (s : St) (n : ℕ) (xs : List Inst) : St := s.edit (insertBeforeIn n xs)

/-- Inserts code after the instruction `n`. -/
def St.insertAfter (s : St) (n : ℕ) (xs : List Inst) : St := s.edit (insertAfterIn n xs)

/-- The code of the block of the instruction `n`. -/
def St.codeOf (s : St) (f : Cfg) (n : ℕ) : List Inst :=
  match f.labels.find? fun b => (s.blockCode f b).any (·.name = n) with
  | some b => s.blockCode f b
  | none => []

/-- The code of its block before the instruction `n`. -/
def St.codeTo (s : St) (f : Cfg) (n : ℕ) : List Inst := (s.codeOf f n).takeWhile (·.name ≠ n)

/-- The code of its block from the instruction `n` on. -/
def St.codeFrom (s : St) (f : Cfg) (n : ℕ) : List Inst := (s.codeOf f n).dropWhile (·.name ≠ n)

/-- Runs an emission and inserts the result before the instruction `n`. -/
def St.emitBefore (s : St) (n : ℕ) (m : Emit Val) : Val × St :=
  ((m s.next).2,
    { s.insertBefore n (m s.next).1 with next := s.next + (m s.next).1.length })

/-! ### PHIs, returns, variadic areas and allocas -/

/-- The shadow PHI `k` gets the operands `args`. -/
def setPhiArgs (k : ℕ) (args : List Val) (xs : List Inst) : List Inst :=
  xs.map fun x => if x.name = k then { x with args := args } else x

/-- The operands of the shadow PHI of `pn`. -/
def finalizePhi (cx : Ctx) (s : St) (pn : Inst) : St :=
  match getShadow cx.opts s.shadowMap pn.val with
  | .inst k _ =>
    { s with
      seg := Function.update s.seg pn.name
        (setPhiArgs k (pn.args.map (getShadow cx.opts s.shadowMap)) (s.seg pn.name)) }
  | _ => s

/-- The instruction of the instrumented function that defines a value. -/
def St.def? (s : St) (cx : Ctx) (v : Val) : Option Inst :=
  match v with
  | .inst n _ => (cx.f.insts.flatMap fun i => s.seg i.name).find? (·.name = n)
  | _ => none

/-- The opcodes through which `returnShadowMayCarryUndef` looks. -/
def isReturnTransparent (i : Inst) : Bool :=
  match i.op with
  | .phi _ | .select | .cast _ => true
  | .bin o => match o with
    | .or | .and | .xor | .shl | .lshr | .ashr => true
    | _ => false
  | .sh o => match o with
    | .phi _ | .select | .or | .zext | .sext | .bitcast | .intToPtr | .ptrToInt => true
    | _ => false
  | _ => false

mutual

/-- `returnShadowMayCarryUndef`, with the values seen. -/
def returnShadowMayCarryUndef (cx : Ctx) (s : St) : ℕ → Val → List Val → Bool × List Val
  | 0, _, seen => (true, seen)
  | fuel + 1, v, seen =>
    if v ∈ seen then (false, seen)
    else
      match v with
      | .zero _ => (false, v :: seen)
      | .undef _ | .ones _ | .const _ _ | .global _ => (true, v :: seen)
      | .arg _ _ => (true, v :: seen)
      | .inst _ _ =>
        if v ∈ s.checkedLoadShadows then (false, v :: seen)
        else
          match s.def? cx v with
          | none => (true, v :: seen)
          | some i =>
            if isReturnTransparent i then mayCarryUndefAny cx s fuel i.args (v :: seen)
            else (true, v :: seen)

/-- The loop over the operands. -/
def mayCarryUndefAny (cx : Ctx) (s : St) : ℕ → List Val → List Val → Bool × List Val
  | 0, _, seen => (true, seen)
  | _ + 1, [], seen => (false, seen)
  | fuel + 1, v :: vs, seen =>
    if v.ty.isSized then
      let r := returnShadowMayCarryUndef cx s fuel v seen
      if r.1 then r else mayCarryUndefAny cx s fuel vs r.2
    else mayCarryUndefAny cx s fuel vs seen

end

/-- A fuel that covers every operand of every instruction once. -/
def St.graphSize (s : St) (cx : Ctx) : ℕ :=
  2 * ((cx.f.insts.flatMap fun i => s.seg i.name).map fun i => i.args.length + 2).sum + 2

/-- `filterPendingReturnChecks`. -/
def filterPendingReturnChecks (cx : Ctx) (s : St) : St :=
  let kept := s.pendingReturnChecks.filter fun p =>
    (returnShadowMayCarryUndef cx s (s.graphSize cx) (getShadow cx.opts s.shadowMap p.1) []).1
  { s with
    checks := s.checks ++ if cx.opts.emitChecks then
      kept.map fun p => ⟨getShadow cx.opts s.shadowMap p.1, p.2, true⟩ else []
    pendingReturnChecks := [] }

/-- A pointer loaded from an offset of the `va_list`. -/
def loadVaListField (tag : Val) (off : ℕ) : Emit Val := do
  let p ← emit .ptrToInt [tag] (.int 64)
  let q ← emit (.addOff off) [p] (.int 64)
  let r ← emit .intToPtr [q] .ptr
  emit .ptrLoad [r] .ptr

/-- The areas of one `va_start` are unpoisoned after it. -/
def finalizeVaStart (cx : Ctx) (overflow : Val) (s : St) (i : Inst) : St :=
  let here := s.codeTo cx.f i.name ++ [i]
  let tag := i.args.getD 0 (.zero .ptr)
  let b : Builder := ⟨s.next, [], s.cache⟩
  let (regSave, b) := b.run (loadVaListField tag 16)
  let (p, b) := getShadowPtr cx here regSave b
  let b := (b.run (emit .memset [p, .zero (.int 8), .const (.int 64) 176] .void)).2
  let (ovArea, b) := b.run (loadVaListField tag 8)
  let (q, b) := getShadowPtr cx here ovArea b
  let b := (b.run (emit .memset [q, .zero (.int 8), overflow] .void)).2
  { s.insertAfter i.name b.out with next := b.next, cache := b.cache }

/-- `VarArgAMD64Helper::finalizeInstrumentation`. -/
def finalizeInstrumentation (cx : Ctx) (s : St) : St :=
  if s.vaStarts.isEmpty then s
  else
    let overflow : Val := .inst s.next (.int 64)
    let s' : St := { s with
      next := s.next + 1
      prologue := { name := s.next, op := .sh .overflowSizeLoad, args := [], ty := .int 64 } ::
        s.prologue }
    s.vaStarts.foldl (finalizeVaStart cx overflow) s'

/-- The length of an alloca in bytes. -/
def allocaLen (i : Inst) : Emit Val :=
  let unit : Val := .const (.int 64)
    (match i.op with
    | .alloca t => t.layout.allocSize
    | _ => 0)
  match i.args with
  | [.const _ 1] => pure unit
  | [n] => do
    let n ← Site.intCast n (.int 64)
    emit .mul [unit, n] (.int 64)
  | _ => pure unit

/-- `instrumentAlloca` and `poisonAllocaUserspace`. -/
def instrumentAlloca (cx : Ctx) (s : St) (ai insPoint : Inst) : St :=
  let here := s.codeTo cx.f insPoint.name ++ [insPoint]
  let b : Builder := ⟨s.next, [], s.cache⟩
  let (len, b) := b.run (allocaLen ai)
  let b :=
    if cx.opts.poisonStack && cx.opts.poisonStackWithCall then
      (b.run (emit .cqmsanPoisonStack [ai.val, len] .void)).2
    else
      let (p, b) := getShadowPtr cx here ai.val b
      let byte : Val :=
        .const (.int 8) (if cx.opts.poisonStack then cx.opts.poisonStackPattern else 0)
      (b.run (emit .memset [p, byte, len] .void)).2
  { s.insertAfter insPoint.name b.out with next := b.next, cache := b.cache }

/-- The allocas, at their lifetime intrinsics where these are instrumented. -/
def instrumentAllocas (cx : Ctx) (s : St) : St :=
  let starts := if s.instrumentLifetimeStart then s.lifetimeStartList else []
  let s' := starts.foldl (fun s p => instrumentAlloca cx s p.2 p.1) s
  let rest := s.allocaSet.filter fun ai => !starts.any fun p => p.2.name = ai.name
  rest.foldl (fun s ai => instrumentAlloca cx s ai ai) s'

/-! ### Deferral to sinks -/

/-- Groups a list by a key, keys in the order of their first occurrence. -/
def groupByKey {α : Type} (key : α → ℕ) : List α → List (ℕ × List α)
  | [] => []
  | x :: xs =>
    let gs := groupByKey key xs
    (key x, x :: ((gs.lookup (key x)).getD [])) :: gs.filter (·.1 ≠ key x)

/-- `groupByOrigIns`. -/
def groupByOrigIns (cs : List Check) : List Check :=
  (groupByKey (fun c => c.origIns.name) cs).flatMap (·.2)

/-- The check of a load moves to its sink. -/
def remapToSink (cx : Ctx) (g : Cfg) (an : Analyses) (c : Check) : Check :=
  if c.essential then c
  else
    match c.origIns.op with
    | .load =>
      match cx.f.parent c.origIns with
      | some lbb =>
        match findSinkFor g an lbb c.origIns with
        | some sink => { c with origIns := sink }
        | none => c
      | none => c
    | _ => c

/-- The remapping of `runOnFunction`. -/
def remapChecks (cx : Ctx) (s : St) : St :=
  if cx.opts.sinkChecks then
    let g := s.toCfg cx.f
    { s with checks := groupByOrigIns (s.checks.map (remapToSink cx g (cx.analyses g))) }
  else s

/-! ### Checks -/

/-- The shadow is a constant. -/
def Val.isConstant : Val → Bool
  | .inst _ _ | .arg _ _ => false
  | _ => true

/-- `isZeroValue()`. -/
def Val.isZeroValue : Val → Bool
  | .zero _ => true
  | _ => false

/-- `isKnownNonZero`, of a constant: not for aggregates. -/
def Val.isKnownNonZero : Val → Bool
  | .ones (.int w) => decide (0 < w)
  | .ones (.vec n t) => decide (0 < n * t.layout.bits)
  | _ => false

/-- `Log2_32_Ceil`, which counts the leading zeros of the predecessor. -/
def log2Ceil32 (n : ℕ) : ℕ := if n = 0 then 32 else Nat.clog 2 n

/-- `TypeSizeToSizeIndex`. The size is an `unsigned`. -/
def typeSizeToSizeIndex (bits : ℕ) : ℕ :=
  let size := bits % 2 ^ 32
  if size ≤ 8 then 0 else log2Ceil32 ((size + 7) % 2 ^ 32 / 8)

/-- `CreateZExt`, which emits nothing for the type itself. -/
def zextTo (v : Val) (ty : Ty) : Emit Val := if v.ty = ty then pure v else emit .zext [v] ty

/-- `materializeOneCheck`: the call of `__cqmsan_maybe_warning_N`, or the branch to a warning. -/
def materializeOneCheck (opts : Options) (withCalls : Bool) (shadow : Val) : Emit Val :=
  let sizeIndex := typeSizeToSizeIndex shadow.ty.layout.bits
  if withCalls && decide (sizeIndex < 4) then do
    let scalar ← convertShadowToScalar shadow.ty shadow
    let wide ← zextTo scalar (.int (8 * 2 ^ sizeIndex))
    emit (.maybeWarning sizeIndex) [wide] .void
  else do
    let cmp ← convertToBool shadow
    emit (.checkBranch (!opts.keepGoing && !opts.fastWarning)) [cmp] .void

/-- `instrumentWithCalls`, after the counter was raised. -/
def instrumentWithCalls (opts : Options) (count : ℕ) (shadow : Val) : Bool :=
  !shadow.isConstant && decide (opts.callThreshold ≥ 0) && decide ((count : ℤ) > opts.callThreshold)

/-- The counter of `instrumentWithCalls`. -/
def countCheck (count : ℕ) (shadow : Val) : ℕ := if shadow.isConstant then count else count + 1

/-- The first position for code in a block. -/
def firstInsertionPt (code : List Inst) : Option ℕ :=
  match code.dropWhile Inst.isPhi with
  | [] => none
  | x :: xs => if x.isEHPad then xs.head?.map Inst.name else some x.name

/-- `insertPointAfter`: the instruction before which code goes that belongs after `x`. `code` is
the code of the block. -/
def insertPointAfter (code : List Inst) (x : Inst) : Option ℕ :=
  if x.isPhi then firstInsertionPt code
  else
    (((code.dropWhile (·.name ≠ x.name)).drop 1).dropWhile fun y => y.isPhi || y.isEHPad).head?.map
      Inst.name

/-- The last of the shadows that is defined in `region`. -/
def lastShadowIn (region : List Inst) (checks : List Check) : Option Inst :=
  (region.filter fun x => checks.any fun c => decide (c.shadow = x.val)).getLast?

/-- `checkInsertPoint`: the name of the instruction before which the check goes. -/
def checkInsertPoint (s : St) (f : Cfg) (origIns : ℕ) (checks : List Check) : ℕ :=
  let region := (s.codeFrom f origIns).takeWhile fun x => !isSplit x
  match lastShadowIn region checks with
  | none => origIns
  | some last => (insertPointAfter (s.codeOf f origIns) last).getD origIns

/-- The OR of two shadows as Booleans. Of two constants `IRBuilder` folds it to a constant with the
same truth value, which `instrumentWithCalls` does not count: the number of checks from which on
calls are emitted may then be reached later than here. -/
def orPair (a b : Val) : Emit Val := do
  let x ← convertToBool a
  let y ← convertToBool b
  emit .or [x, y] (.int 1)

/-- The loop of `materializeInstructionChecks` over the shadows. The result is the shadow to
check, if there is one, and whether the loop ran to its end. -/
def orChecks (opts : Options) : List Val → Option Val → ℕ → List Inst × Option Val
  | [], acc, _ => ([], acc)
  | v :: vs, acc, n =>
    if v.isConstant && (!opts.checkConstantShadow || v.isZeroValue) then orChecks opts vs acc n
    else if v.isConstant && v.isKnownNonZero then
      let w : Inst := { name := n, op := .sh .warning, args := [], ty := .void }
      if opts.keepGoing then
        let r := orChecks opts vs acc (n + 1)
        (w :: r.1, r.2)
      else ([w], none)
    else
      match acc with
      | none => orChecks opts vs (some v) n
      | some a =>
        let m := orPair a v n
        let r := orChecks opts vs (some m.2) (n + m.1.length)
        (m.1 ++ r.1, r.2)

/-- The check of a shadow `acc`, before the instruction `anchor`. -/
def emitCheckAt (cx : Ctx) (s : St) (anchor : ℕ) (acc : Val) : St :=
  let count := countCheck s.splittableBlocksCount acc
  { (s.emitBefore anchor
      (materializeOneCheck cx.opts (instrumentWithCalls cx.opts count acc) acc)).2 with
    splittableBlocksCount := count }

/-- `materializeInstructionChecks`, for checks with the site `origIns`. -/
def materializeInstructionChecks (cx : Ctx) (s : St) (origIns : ℕ) (checks : List Check) : St :=
  let ip := checkInsertPoint s cx.f origIns checks
  let r := orChecks cx.opts (checks.map Check.shadow) none s.next
  let s' : St := { s.insertBefore ip r.1 with next := s.next + r.1.length }
  match r.2 with
  | none => s'
  | some acc => emitCheckAt cx s' ip acc

/-- The runs of consecutive checks with the same site. -/
def checkRuns : List Check → List (ℕ × List Check)
  | [] => []
  | c :: cs =>
    match checkRuns cs with
    | [] => [(c.origIns.name, [c])]
    | (n, g) :: gs =>
      if c.origIns.name = n then (n, c :: g) :: gs else (c.origIns.name, [c]) :: (n, g) :: gs

/-- `materializeChecksLegacy`. -/
def materializeChecksLegacy (cx : Ctx) (s : St) : St :=
  (checkRuns s.checks).foldl (fun s g => materializeInstructionChecks cx s g.1 g.2) s

/-- `isImmediateEssentialSink`. -/
def isImmediateEssentialSink (i : Inst) : Bool :=
  match i.op with
  | .call c | .invoke c _ | .callBr c => match c.callee with
    | .indirect _ => true
    | _ => false
  | .cmpxchg | .atomicrmw => true
  | _ => false

/-- `anchorFor`, in the code of the block from the site on: the first barrier, or the terminator
unless no block can be split before it. -/
def anchorFor (codeFrom : List Inst) : Option ℕ :=
  match codeFrom.getLast? with
  | none => none
  | some term =>
    match codeFrom.dropLast.find? isBBBarrier with
    | some b => some b.name
    | none => if isUnsplittableTerminator term then none else some term.name

/-- The OR of some shadows, from an accumulator on. -/
def orShadows : List Val → Val → Emit Val
  | [], acc => pure acc
  | v :: vs, acc => do
    let b ← convertToBool v
    let acc ← emit .or [acc, b] (.int 1)
    orShadows vs acc

/-- The OR of a non-empty list of shadows. -/
def orAllShadows : List Val → Emit Val
  | [] => pure (.zero (.int 1))
  | v :: vs => do
    let b ← convertToBool v
    orShadows vs b

/-- A shadow as a Boolean, ORed to the accumulator if there is one. -/
def orInto (acc : Option Val) (v : Val) : Emit Val := do
  let cur ← convertToBool v
  match acc with
  | some a => emit .or [a, cur] (.int 1)
  | none => pure cur

/-- One step of the incremental OR: the OR with the shadow `si` goes right after its
definition. -/
def incrementalOr (cx : Ctx) (st : St × Option Val) (si : Inst) : St × Option Val :=
  let (s, acc) := st
  match insertPointAfter (s.codeOf cx.f si.name) si with
  | none => st
  | some ip =>
    let (v, s) := s.emitBefore ip (orInto acc si.val)
    (s, some v)

/-- The OR of the shadows of a group, for a check before `anchor`. -/
def coalescedOr (cx : Ctx) (s : St) (anchor : ℕ) (shadows : List Val) : Val × St :=
  -- the instructions of the anchor's own block before it, in program order
  let here := (sameBlock (s.codeTo cx.f anchor)).reverse
  let loc := here.filter fun x => decide (x.val ∈ shadows)
  let remote := shadows.filter fun v => !here.any fun x => decide (x.val = v)
  if cx.opts.coalescedIncrementalOr && decide (shadows.length > 1) && decide (loc.length > 1) then
    match loc.foldl (incrementalOr cx) (s, none) with
    | (s, some acc) => s.emitBefore anchor (orShadows remote acc)
    | (s, none) => s.emitBefore anchor (orAllShadows shadows)
  else s.emitBefore anchor (orAllShadows shadows)

/-- `emitCoalescedCheck`. -/
def emitCoalescedCheck (cx : Ctx) (s : St) (anchor : ℕ) (shadows : List Val) : St :=
  if shadows.isEmpty then s
  else
    let (acc, s) := coalescedOr cx s anchor shadows
    emitCheckAt cx s anchor acc

/-- `materializeCoalescedChecks`. -/
def materializeCoalescedChecks (cx : Ctx) (s : St) : St :=
  let isEssential : Check → Bool := fun c => c.essential || isImmediateEssentialSink c.origIns
  let essential := s.checks.filter isEssential
  let deferrable := s.checks.filter fun c => !isEssential c
  let anchor : Check → Option ℕ := fun c => anchorFor (s.codeFrom cx.f c.origIns.name)
  let anchored := deferrable.filterMap fun c => (anchor c).map (·, c.shadow)
  let unanchored := (deferrable.filter fun c => (anchor c).isNone).map
    fun c => { c with essential := true }
  let byAnchor := groupByKey Prod.fst anchored
  let s := (checkRuns (groupByOrigIns (essential ++ unanchored))).foldl
    (fun s g => materializeInstructionChecks cx s g.1 g.2) s
  byAnchor.foldl (fun s g => emitCoalescedCheck cx s g.1 (g.2.map Prod.snd)) s

/-- `isAtomic()`. -/
def Inst.isAtomicStore (i : Inst) : Bool :=
  match i.op with
  | .store isAtomic _ => isAtomic
  | _ => false

/-- The shadow a store writes. -/
def shadowToStore (cx : Ctx) (slice : List Val) (s : St) (si : Inst) : Val :=
  let v := si.args.getD 0 (.zero .ptr)
  if cx.opts.unpoisonStores && !si.isAtomicStore && decide (v ∈ slice) then
    getShadow cx.opts s.shadowMap v
  else if cx.opts.unpoisonStores || si.isAtomicStore then getCleanShadow v.ty
  else getShadow cx.opts s.shadowMap v

/-- One store of `materializeStores`. -/
def materializeStore (cx : Ctx) (slice : List Val) (s : St) (si : Inst) : St :=
  let shadow := shadowToStore cx slice s si
  let b : Builder := ⟨s.next, [], s.cache⟩
  let (ptr, b) := getShadowPtr cx (s.codeTo cx.f si.name) (si.args.getD 1 (.zero .ptr)) b
  let b := (b.run (emit .store [shadow, ptr] .void)).2
  { s.insertBefore si.name b.out with next := b.next, cache := b.cache }

/-- The phases of `runOnFunction` before the checks are materialized. -/
def prepare (cx : Ctx) : St :=
  let s := runVisit cx
  let s := s.shadowPhis.foldl (finalizePhi cx) s
  let s := filterPendingReturnChecks cx s
  let s := finalizeInstrumentation cx s
  let s := instrumentAllocas cx s
  remapChecks cx s

end CQMSan
