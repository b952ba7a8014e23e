import CQMSan.Lib.Worklist

/-!
# The intermediate representation

The part of the LLVM IR that the pass looks at. Values carry their type, so that the shadow type
of an operand is a function of the operand; an instruction is known by its name, and `Inst.val`
is the value it defines.

A block is the list of its instructions, the terminator last, and a function is a finite family
of such blocks: `Cfg` is the data and `Func` carries what the verifier of the IR checks and the
analyses rely on: the successors are blocks of the function, names are unique, and terminators
stand at the end of their block and nowhere else.

The classes of instructions are those the pass tests with `isa` and `dyn_cast`. Memory orderings,
alignments and debug locations decide nothing that is modelled and are left out.
-/

namespace CQMSan

/-! ### Types and values -/

/-- The floating-point types of x86-64. -/
inductive FpKind
  | half | bfloat | float | double | x86Fp80 | fp128
  deriving DecidableEq

mutual

/-- Types. `token` stands for the types without a size: labels, tokens and metadata. `ptr` is a
pointer in the default address space, `ptrAs` one in another. -/
inductive Ty
  | void
  | token
  | int (w : ℕ)
  | fp (k : FpKind)
  | ptr
  | ptrAs (space : ℕ)
  | vec (n : ℕ) (elt : Ty)
  | array (n : ℕ) (elt : Ty)
  | struct (packed : Bool) (elts : Tys)
  deriving DecidableEq

/-- The element types of a struct. -/
inductive Tys
  | nil
  | cons (t : Ty) (ts : Tys)
  deriving DecidableEq

end

/-- `isPointerTy()`. -/
def Ty.isPointer : Ty → Bool
  | .ptr | .ptrAs _ => true
  | _ => false

/-- A value: the result of an instruction, an argument, or a constant. `zero` is the null value
of its type and `ones` the value with all bits set. -/
inductive Val
  | inst (n : ℕ) (t : Ty)
  | arg (i : ℕ) (t : Ty)
  | undef (t : Ty)
  | zero (t : Ty)
  | ones (t : Ty)
  | const (t : Ty) (k : ℕ)
  | global (g : String)
  deriving DecidableEq

/-- `V->getType()`. -/
def Val.ty : Val → Ty
  | .inst _ t | .arg _ t | .undef t | .zero t | .ones t | .const t _ => t
  | .global _ => .ptr

/-! ### Instructions -/

/-- `BinaryOperator` opcodes. -/
inductive BinOp
  | add | fadd | sub | fsub | mul | fmul | udiv | sdiv | fdiv | urem | srem | frem
  | shl | lshr | ashr | and | or | xor
  deriving DecidableEq

/-- Division and remainder of integers, which trap on a zero divisor. -/
def BinOp.isDivRem : BinOp → Bool
  | .sdiv | .udiv | .srem | .urem => true
  | _ => false

/-- The intrinsics the visitor distinguishes. `other` is any other one. -/
inductive Intrinsic
  | memcpy | memmove | memset
  | vaStart | vaCopy
  | lifetimeStart
  | launderInvariantGroup | stripInvariantGroup
  | maskedCompressstore | maskedExpandload | maskedGather | maskedScatter | maskedStore
  | maskedLoad
  | isConstant
  | x86SseStmxcsr | x86SseLdmxcsr
  /-- `umax`, `umin`, `smax`, `smin`, `abs`, `ctpop`, `ctlz`, `cttz`, `bswap`, `fshl`, `fshr`. -/
  | arith
  | other (onlyReadsMemory : Bool)
  deriving DecidableEq

/-- `isa<MemIntrinsic>`. -/
def Intrinsic.isMem : Intrinsic → Bool
  | .memcpy | .memmove | .memset => true
  | _ => false

/-- What a call calls. -/
inductive Callee
  | fn (name : String)
  | intrinsic (i : Intrinsic)
  | indirect (v : Val)
  | asm (outputArgs : ℕ) (elemTys : List Ty)
  deriving DecidableEq

/-- The callee and the attributes of a `CallBase`. -/
structure CallInfo where
  callee : Callee
  /-- `doesNotThrow()`. -/
  nounwind : Bool
  /-- `hasFnAttr(WillReturn)`. -/
  willReturn : Bool
  mustTail : Bool
  /-- The parameters marked `noundef`, and those marked `byval` with the type passed. -/
  noUndef : List ℕ
  byVal : List (ℕ × Ty)
  /-- The number of fixed parameters of a variadic callee. -/
  variadic : Option ℕ
  deriving DecidableEq

/-- The instructions the pass inserts. Operands are listed in the order of `Inst.args`. -/
inductive ShOp
  /-- `ptrtoint`, `xor` with `XorMask`, `inttoptr` and `getelementptr i8` by a constant. -/
  | ptrToInt | xorMask | intToPtr | gepOff (off : ℤ)
  /-- A load of shadow; a store of the first operand to the address in the second. -/
  | load | store
  /-- The masked intrinsics on shadow memory: address or addresses, mask and pass-through for
  the loads; value, address or addresses, and mask for the stores. -/
  | maskedLoad | maskedGather | maskedExpandLoad
  | maskedStore | maskedScatter | maskedCompressStore
  /-- Arithmetic on shadow values. -/
  | select | or | orReduce | icmpNe | sext | zext | bitcast | extractValue (idx : ℕ)
  /-- Sizes, orderings and pointers: products, integer casts, `ptrtoint` plus a constant, a
  table lookup, a load of a pointer. -/
  | mul | intCast | addOff (k : ℕ) | extractElement | ptrLoad
  /-- `llvm.memset` of a byte and `llvm.memcpy`, on shadow memory. -/
  | memset | memcpy
  /-- Calls of the runtime. -/
  | cqmsanMemcpy | cqmsanMemmove | cqmsanMemset | cqmsanPoisonStack
  /-- The thread-local size of the variadic overflow area. -/
  | overflowSizeStore (size : ℕ) | overflowSizeLoad
  | phi (incoming : List ℕ)
  /-- A call of `WarningFn`; a branch on the operand to a block with such a call, after which the
  execution goes on here unless `noreturn`; a call of `__cqmsan_maybe_warning_N`. -/
  | warning | checkBranch (noreturn : Bool) | maybeWarning (sizeIndex : ℕ)
  | donothing
  deriving DecidableEq

/-- `isGuaranteedToTransferExecutionToSuccessor` of an inserted instruction: no function of the
runtime is declared `willreturn`, `WarningFn` is `nounwind` only. -/
def ShOp.transfers : ShOp → Bool
  | .cqmsanMemcpy | .cqmsanMemmove | .cqmsanMemset | .cqmsanPoisonStack | .warning
  | .maybeWarning _ => false
  | _ => true

/-- Instruction classes. The operands are those of `Inst.args`: a load has its address, a store
the value and the address, a conditional branch and a switch the condition, a call its
arguments. -/
inductive Op
  | alloca (allocated : Ty)
  | load
  | store (isAtomic isVolatile : Bool)
  | cmpxchg
  | atomicrmw
  | fence
  | bin (o : BinOp)
  | un
  | cast (isBitCast : Bool)
  | gep
  | icmp
  | fcmp
  | select
  | phi (incoming : List ℕ)
  | freeze
  | extractValue
  | insertValue
  | extractElement
  | insertElement
  | shuffleVector
  | vaArg
  | call (c : CallInfo)
  | landingPad
  | catchPad
  | cleanupPad
  | ret
  | br
  | condBr
  | switch
  | indirectBr
  | unreachable
  | resume
  | invoke (c : CallInfo) (unwindsPast : Bool)
  | callBr (c : CallInfo)
  | catchSwitch (unwindsToCaller : Bool)
  | catchRet
  | cleanupRet (unwindsToCaller : Bool)
  | sh (o : ShOp)
  deriving DecidableEq

/-- An instruction. -/
structure Inst where
  name : ℕ
  op : Op
  args : List Val
  ty : Ty
  /-- The instruction carries `!nosanitize`. -/
  nosanitize : Bool := false
  deriving DecidableEq

/-- The value an instruction defines. -/
def Inst.val (i : Inst) : Val := .inst i.name i.ty

/-- `dyn_cast<CallBase>`. -/
def Inst.callInfo? (i : Inst) : Option CallInfo :=
  match i.op with
  | .call c | .invoke c _ | .callBr c => some c
  | _ => none

/-- The instruction was inserted by the pass. -/
def Inst.isInserted (i : Inst) : Bool :=
  match i.op with
  | .sh _ => true
  | _ => false

/-- The operands of an instruction: its arguments and, for an indirect call, the pointer
called. -/
def Inst.operands (i : Inst) : List Val :=
  match i.callInfo? with
  | some { callee := .indirect v, .. } => i.args ++ [v]
  | _ => i.args

/-- `isTerminator()`. -/
def Inst.isTerminator (i : Inst) : Bool :=
  match i.op with
  | .ret | .br | .condBr | .switch | .indirectBr | .unreachable | .resume | .invoke _ _
  | .callBr _ | .catchSwitch _ | .catchRet | .cleanupRet _ => true
  | _ => false

/-- `isa<PHINode>`. -/
def Inst.isPhi (i : Inst) : Bool :=
  match i.op with
  | .phi _ | .sh (.phi _) => true
  | _ => false

/-- `isEHPad()`. -/
def Inst.isEHPad (i : Inst) : Bool :=
  match i.op with
  | .landingPad | .catchPad | .cleanupPad | .catchSwitch _ => true
  | _ => false

/-- `mayThrow()`. -/
def Inst.mayThrow (i : Inst) : Bool :=
  match i.op with
  | .call c => !c.nounwind
  | .cleanupRet toCaller | .catchSwitch toCaller => toCaller
  | .resume => true
  | .invoke _ unwindsPast => unwindsPast
  | _ => false

/-- `willReturn()`. -/
def Inst.willReturn (i : Inst) : Bool :=
  match i.op with
  | .store _ isVolatile => !isVolatile
  | .call c | .invoke c _ | .callBr c => c.willReturn
  | _ => true

/-- `isGuaranteedToTransferExecutionToSuccessor`. A `catchpad` may run constructors of the
language, so LLVM answers `false`, except for the personality of CoreCLR. -/
def Inst.transfers (i : Inst) : Bool :=
  match i.op with
  | .ret | .unreachable | .catchPad => false
  | .sh o => o.transfers
  | _ => !i.mayThrow && i.willReturn

/-- After `i` the execution may not reach the next instruction. -/
def isBBBarrier (i : Inst) : Bool := !i.transfers

/-- The terminators before which no block can be split. -/
def isUnsplittableTerminator (t : Inst) : Bool :=
  match t.op with
  | .catchSwitch _ | .cleanupRet _ | .catchRet | .callBr _ => true
  | _ => t.isEHPad

/-! ### Functions -/

/-- Block names. -/
abbrev Label := ℕ

/-- A control-flow graph with the instructions of its blocks. -/
structure Cfg where
  entry : Label
  labels : List Label
  code : Label → List Inst
  succs : Label → List Label

namespace Cfg

variable (f : Cfg)

/-- All the instructions. -/
def insts : List Inst := f.labels.flatMap f.code

/-- `getParent()`. -/
def parent (i : Inst) : Option Label := f.labels.find? fun b => i ∈ f.code b

/-- There is an edge from `b` to `c`. -/
def Edge (b c : Label) : Prop := c ∈ f.succs b

/-- There is an edge from `b` to `c`, and `c` is not `s`. -/
def EdgeAvoiding (s b c : Label) : Prop := c ∈ f.succs b ∧ c ≠ s

/-- Control leaves the function at the end of `b`. -/
def IsExit (b : Label) : Prop := f.succs b = []

/-- Control can get from `b` to `c`. -/
def Reaches : Label → Label → Prop := Relation.ReflTransGen f.Edge

/-- Control can get from `b` to `c` without entering `s` on the way. -/
def ReachesAvoiding (s : Label) : Label → Label → Prop := Relation.ReflTransGen (f.EdgeAvoiding s)

variable {f}

theorem ReachesAvoiding.reaches {s b c : Label} (h : f.ReachesAvoiding s b c) : f.Reaches b c := by
  induction h with
  | refl => exact .refl
  | tail _ hedge ih => exact .tail ih hedge.1

theorem mem_of_parent {b : Label} {i : Inst} (h : f.parent i = some b) :
    b ∈ f.labels ∧ i ∈ f.code b := by
  refine ⟨List.mem_of_find?_eq_some h, ?_⟩
  simpa using List.find?_some h

end Cfg

/-- A function: a control-flow graph that the verifier of the IR accepts. -/
structure Func extends Cfg where
  entry_mem : entry ∈ labels
  succs_mem : ∀ b ∈ labels, ∀ c ∈ succs b, c ∈ labels
  names_nodup : ∀ b ∈ labels, ∀ c ∈ labels, ∀ i ∈ code b, ∀ j ∈ code c, i.name = j.name →
    b = c ∧ i = j
  code_nodup : ∀ b ∈ labels, (code b).Nodup
  terminator_last : ∀ b ∈ labels, ∃ body t, code b = body ++ [t] ∧ t.isTerminator = true ∧
    ∀ i ∈ body, i.isTerminator = false

instance : Coe Func Cfg := ⟨Func.toCfg⟩

namespace Func

variable {f : Func}

theorem reaches_mem {b c : Label} (hb : b ∈ f.labels) (h : f.Reaches b c) : c ∈ f.labels := by
  induction h with
  | refl => exact hb
  | tail _ hedge ih => exact f.succs_mem _ ih _ hedge

/-- Two occurrences of an instruction in the function are one. -/
theorem block_unique {b c : Label} {i : Inst} (hb : b ∈ f.labels) (hc : c ∈ f.labels)
    (hib : i ∈ f.code b) (hic : i ∈ f.code c) : b = c :=
  (f.names_nodup b hb c hc i hib i hic rfl).1

/-- A function with one block. -/
def ofBlock (b₀ : Label) (body : List Inst) (t : Inst) (ht : t.isTerminator = true)
    (hbody : ∀ i ∈ body, i.isTerminator = false)
    (hnames : ((body ++ [t]).map Inst.name).Nodup) : Func where
  entry := b₀
  labels := [b₀]
  code b := if b = b₀ then body ++ [t] else []
  succs _ := []
  entry_mem := List.mem_singleton_self b₀
  succs_mem _ _ _ h := absurd h List.not_mem_nil
  names_nodup b hb c hc i hi j hj h := by
    obtain rfl := List.mem_singleton.mp hb
    obtain rfl := List.mem_singleton.mp hc
    rw [if_pos rfl] at hi hj
    exact ⟨rfl, List.inj_on_of_nodup_map hnames hi hj h⟩
  code_nodup b hb := by
    obtain rfl := List.mem_singleton.mp hb
    rw [if_pos rfl]
    exact hnames.of_map
  terminator_last b hb := by
    obtain rfl := List.mem_singleton.mp hb
    exact ⟨body, t, if_pos rfl, ht, hbody⟩

end Func

end CQMSan
