import CQMSan.Pass.IR

/-!
# Deferring the check of a load to a sink

With `cqmsan-sink-checks` the check of a load is not emitted at the load but at an instruction
that uses the loaded value, its *sink*. `findSinkFor` walks the uses of the load with a worklist
and returns the first use that can go wrong on an undefined value (an address, a divisor, a call
argument) and that is reached whenever the load was executed: later in the block of the load, or
in a block that post-dominates it; in the same innermost loop; and with no barrier on the way
(`guaranteedPathHasBarrier`).

`findSinkFor` runs after the visit phase, on the function with the shadow loads and stores in it.

The order of the use lists, post-dominance and the innermost loop of a block are computed by
LLVM. They are the fields of `Analyses`, and `Analyses.Exact` is what their documentation
promises; `Analyses.Lawful` is the part of it on which results rest.
-/

namespace CQMSan

/-! ### The analyses -/

/-- Every path from `b` to an exit of the function passes through `c`. -/
def Cfg.PostDominates (f : Cfg) (c b : Label) : Prop :=
  ∀ e, f.IsExit e → f.ReachesAvoiding c b e → b = c

/-- Every path from the entry to `b` passes through `d`. -/
def Cfg.Dominates (f : Cfg) (d b : Label) : Prop :=
  f.ReachesAvoiding d f.entry b → f.entry = d

/-- `b` belongs to the natural loop with header `h`: it is the header, or it reaches a latch of
the loop without passing through the header. -/
def Cfg.InLoop (f : Cfg) (h b : Label) : Prop :=
  ∃ latch, f.Edge latch h ∧ f.Dominates h latch ∧ f.Reaches f.entry latch ∧
    (b = h ∨ (b ≠ h ∧ f.ReachesAvoiding h b latch))

/-- What `findSinkFor` asks of LLVM. -/
structure Analyses where
  /-- The users of a value, in the order of its use list. -/
  users : Val → List Inst
  /-- `PDT.dominates(c, b)`. -/
  postDominates : Label → Label → Bool
  /-- The header of `LI.getLoopFor(b)`. -/
  loopFor : Label → Option Label

/-- Post-dominance is sound. -/
structure Analyses.Lawful (an : Analyses) (f : Cfg) : Prop where
  postDominates_sound : ∀ c b, an.postDominates c b = true → f.PostDominates c b

/-- Moreover the use lists hold the users of a value, and the loop of a block is the innermost
natural loop around it. -/
structure Analyses.Exact (an : Analyses) (f : Cfg) : Prop extends an.Lawful f where
  mem_users : ∀ v i, i ∈ an.users v ↔ (∃ b ∈ f.labels, i ∈ f.code b) ∧ v ∈ i.operands
  loopFor_none : ∀ b, an.loopFor b = none → ∀ h, ¬ f.InLoop h b
  loopFor_some : ∀ b h, an.loopFor b = some h →
    f.InLoop h b ∧ ∀ h', f.InLoop h' b → f.InLoop h' h

/-! ### The source -/

/-- What `findSinkFor` does with a use. -/
inductive UseKind
  | skip | follow | sink
  deriving DecidableEq

/-- A call whose arguments are not sinks: the memory intrinsics and the runtime. -/
def callIsSkipped (c : CallInfo) : Bool :=
  match c.callee with
  | .intrinsic i => i.isMem
  | .fn name => name.startsWith "__cqmsan"
  | _ => false

/-- The chain of tests on an inserted instruction, by the class of the instruction. -/
def classifyInserted (v : Val) (o : ShOp) (args : List Val) : UseKind :=
  match o with
  | .load | .ptrLoad => if args[0]? = some v then .sink else .skip
  | .store => if args[1]? = some v then .sink else .skip
  | .maskedLoad | .maskedGather | .maskedExpandLoad | .maskedStore | .maskedScatter
  | .maskedCompressStore => if v ∈ args then .sink else .skip
  | .ptrToInt | .xorMask | .intToPtr | .gepOff _ | .or | .icmpNe | .sext | .zext | .bitcast
  | .extractValue _ | .mul | .intCast | .addOff _ | .extractElement => .follow
  | _ => .skip

/-- The chain of tests on a user `u` of the value `v`. -/
def classifyUse (v : Val) (u : Inst) : UseKind :=
  match u.op with
  | .load => if u.args[0]? = some v then .sink else .skip
  | .store _ _ => if u.args[1]? = some v then .sink else .skip
  | .ret => if u.args[0]? = some v then .sink else .skip
  | .condBr => if u.args[0]? = some v then .sink else .skip
  | .switch => if u.args[0]? = some v then .sink else .skip
  | .bin o => if o.isDivRem = true ∧ u.args[1]? = some v then .sink else .follow
  | .call c | .invoke c _ | .callBr c =>
    if callIsSkipped c then .skip else if v ∈ u.args then .sink else .skip
  | .cast _ | .gep | .icmp | .fcmp | .extractValue | .insertValue | .extractElement
  | .insertElement | .shuffleVector | .un | .freeze => .follow
  | .sh o => classifyInserted v o u.args
  | _ => .skip

/-- The instructions strictly between `a` and `b` in a block, up to its end if `b` does not
follow `a`. -/
def between (a b : Inst) (code : List Inst) : List Inst :=
  ((code.dropWhile (· ≠ a)).drop 1).takeWhile (· ≠ b)

/-- The instructions after `a` in a block. -/
def after (a : Inst) (code : List Inst) : List Inst := (code.dropWhile (· ≠ a)).drop 1

/-- The instructions before `b` in a block. -/
def before (b : Inst) (code : List Inst) : List Inst := code.takeWhile (· ≠ b)

/-- `a->comesBefore(b)` for two instructions of one block. -/
def comesBefore (a b : Inst) (code : List Inst) : Bool := b ∈ after a code

/-- The successors that the walk over the blocks between load and sink pushes. -/
def walkSuccs (f : Cfg) (sbb b : Label) : List Label := (f.succs b).filter (· ≠ sbb)

/-- The walk over the blocks between load and sink: it stops at the first block with a
barrier. -/
def barrierWalk (f : Cfg) (sbb : Label) : ℕ → List Label → List Label → Bool
  | 0, _, _ => false
  | _ + 1, [], _ => false
  | n + 1, b :: wl, seen =>
    if (f.code b).any isBBBarrier then true
    else
      let s := Worklist.pushNew (walkSuccs f sbb b) (wl, seen)
      barrierWalk f sbb n s.1 s.2

/-- There is a barrier on the guaranteed path from the load, in block `lbb`, to the sink, in
block `sbb`. -/
def guaranteedPathHasBarrier (f : Cfg) (lbb : Label) (load : Inst) (sbb : Label) (sink : Inst) :
    Bool :=
  if lbb = sbb then (between load sink (f.code lbb)).any isBBBarrier
  else
    (after load (f.code lbb)).any isBBBarrier ||
      (let s := Worklist.pushNew (walkSuccs f sbb lbb) ([], [])
       barrierWalk f sbb f.labels.length s.1 s.2) ||
      (before sink (f.code sbb)).any isBBBarrier

/-- The test on a candidate: not a PHI or a terminator, in the same innermost loop, reached
whenever the load is, and with no barrier on the way. -/
def acceptSink (f : Cfg) (an : Analyses) (lbb : Label) (load cand : Inst) : Bool :=
  if cand.isPhi || cand.isTerminator then false
  else
    match f.parent cand with
    | none => false
    | some cbb =>
      if an.loopFor cbb ≠ an.loopFor lbb then false
      else
        let guaranteed :=
          if cbb = lbb then comesBefore load cand (f.code lbb) else an.postDominates cbb lbb
        guaranteed && !guaranteedPathHasBarrier f lbb load cbb cand

/-- The loop over the users of `v`: a sink, or the worklist and the set of values seen. -/
def scanUsers (f : Cfg) (an : Analyses) (lbb : Label) (load : Inst) (v : Val) :
    List Inst → List Val × List Val → Inst ⊕ (List Val × List Val)
  | [], s => .inr s
  | u :: us, s =>
    match classifyUse v u with
    | .skip => scanUsers f an lbb load v us s
    | .follow => scanUsers f an lbb load v us (Worklist.pushNew [u.val] s)
    | .sink => if acceptSink f an lbb load u then .inl u else scanUsers f an lbb load v us s

/-- The worklist loop. -/
def findSinkLoop (f : Cfg) (an : Analyses) (lbb : Label) (load : Inst) :
    ℕ → List Val × List Val → Option Inst
  | 0, _ => none
  | _ + 1, ([], _) => none
  | n + 1, (v :: wl, seen) =>
    match scanUsers f an lbb load v (an.users v) (wl, seen) with
    | .inl sink => some sink
    | .inr s => findSinkLoop f an lbb load n s

/-- `findSinkFor(Load)`, for a load of block `lbb`. -/
def findSinkFor (f : Cfg) (an : Analyses) (lbb : Label) (load : Inst) : Option Inst :=
  findSinkLoop f an lbb load (f.insts.length + 1) ([load.val], [load.val])

end CQMSan
