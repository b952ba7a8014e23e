import CQMSan.Pass.ShadowType

/-!
# Emitting instructions

`Emit α` is the part of `IRBuilder` the pass uses: from the next unused name it appends
instructions and returns a result. The name after the emission is the old one plus the number of
instructions, so names are unique by construction.

Two facts about an emission are used later. `Closed A xs` says that every operand of `xs` is
available under `A` or defined earlier in `xs`; `Emit.Ok` is the rule by which emissions compose.
`Sat ρ xs` says that the values `ρ` satisfy the defining equations of `xs`; the conversions of a
shadow to a Boolean are described by what every such `ρ` gives their result
(`convertToBool_sound`).
-/

namespace CQMSan

/-! ### Values -/

/-- A run-time value: an integer of some width, a vector of such, or an aggregate. Pointers are
integers of 64 bits. -/
inductive SVal
  | int (w n : ℕ)
  | vec (w : ℕ) (xs : List ℕ)
  | agg (xs : List SVal)

mutual

/-- Some bit of the value is set. -/
def SVal.anyBit : SVal → Bool
  | .int _ n => n ≠ 0
  | .vec _ xs => xs.any (· ≠ 0)
  | .agg xs => SVal.anyBits xs

/-- Some bit of some of the values is set. -/
def SVal.anyBits : List SVal → Bool
  | [] => false
  | x :: xs => x.anyBit || SVal.anyBits xs

end

/-- The Boolean `b` as an `i1`. -/
def SVal.bool (b : Bool) : SVal := .int 1 b.toNat

@[simp] theorem SVal.anyBit_bool (b : Bool) : (SVal.bool b).anyBit = b := by cases b <;> rfl

mutual

/-- The null value of a shadow type. -/
def SVal.zero : Ty → SVal
  | .vec n t => .vec t.layout.bits (List.replicate n 0)
  | .array n t => .agg (List.replicate n (SVal.zero t))
  | .struct _ ts => .agg (SVal.zeros ts)
  | .int w => .int w 0
  | t => .int t.layout.bits 0

/-- The null values of the fields. -/
def SVal.zeros : Tys → List SVal
  | .nil => []
  | .cons t ts => SVal.zero t :: SVal.zeros ts

end

mutual

/-- The value of a shadow type with all bits set. -/
def SVal.ones : Ty → SVal
  | .vec n t => .vec t.layout.bits (List.replicate n (2 ^ t.layout.bits - 1))
  | .array n t => .agg (List.replicate n (SVal.ones t))
  | .struct _ ts => .agg (SVal.oness ts)
  | .int w => .int w (2 ^ w - 1)
  | t => .int t.layout.bits (2 ^ t.layout.bits - 1)

/-- The fields with all bits set. -/
def SVal.oness : Tys → List SVal
  | .nil => []
  | .cons t ts => SVal.ones t :: SVal.oness ts

end

mutual

/-- The value has the given shadow type. -/
def HasTy : Ty → SVal → Prop
  | .int w, .int w' n => w' = w ∧ n < 2 ^ w
  | .vec k t, .vec w xs => t = .int w ∧ xs.length = k ∧ ∀ x ∈ xs, x < 2 ^ w
  | .array k t, .agg xs => xs.length = k ∧ ∀ x ∈ xs, HasTy t x
  | .struct _ ts, .agg xs => HasTys ts xs
  | _, _ => False

/-- The values have the given shadow types. -/
def HasTys : Tys → List SVal → Prop
  | .nil, [] => True
  | .cons t ts, x :: xs => HasTy t x ∧ HasTys ts xs
  | _, _ => False

end

/-- The integer whose digits of `w` bits are the elements of a vector, the first lowest. -/
def packVec (w : ℕ) : List ℕ → ℕ
  | [] => 0
  | x :: xs => x + 2 ^ w * packVec w xs

/-! ### Emission -/

/-- An emission: from the next unused name, the instructions appended and a result. -/
def Emit (α : Type) := ℕ → List Inst × α

namespace Emit

/-- Nothing is emitted. -/
protected def pure {α : Type} (a : α) : Emit α := fun _ => ([], a)

/-- One emission after another. -/
protected def bind {α β : Type} (m : Emit α) (k : α → Emit β) : Emit β := fun n =>
  let r := m n
  let r' := k r.2 (n + r.1.length)
  (r.1 ++ r'.1, r'.2)

instance : Monad Emit where
  pure := Emit.pure
  bind := Emit.bind

@[simp] theorem pure_run {α : Type} (a : α) (n : ℕ) : (pure a : Emit α) n = ([], a) := rfl

@[simp] theorem bind_run {α β : Type} (m : Emit α) (k : α → Emit β) (n : ℕ) :
    (m >>= k) n = ((m n).1 ++ (k (m n).2 (n + (m n).1.length)).1,
      (k (m n).2 (n + (m n).1.length)).2) := rfl

end Emit

/-- Appends one instruction. -/
def emit (o : ShOp) (args : List Val) (ty : Ty) : Emit Val := fun n =>
  ([{ name := n, op := .sh o, args := args, ty := ty }], .inst n ty)

@[simp] theorem emit_run (o : ShOp) (args : List Val) (ty : Ty) (n : ℕ) :
    emit o args ty n = ([{ name := n, op := .sh o, args := args, ty := ty }], .inst n ty) := rfl

/-! ### Collapsing a shadow -/

/-- The loop of `collapseArrayShadow`: the elements from `idx` on are ORed to `agg`. -/
def collapseArrayLoop (toScalar : Val → Emit Val) (elt : Ty) (v : Val) :
    ℕ → ℕ → Val → Emit Val
  | 0, _, agg => pure agg
  | k + 1, idx, agg => do
    let item ← emit (.extractValue idx) [v] elt
    let inner ← toScalar item
    let agg ← emit .or [agg, inner] agg.ty
    collapseArrayLoop toScalar elt v k (idx + 1) agg

/-- `FalseVal`. -/
def falseVal : Val := .zero (.int 1)

/-- The end of `convertToBool`, on an integer. -/
def scalarToBool (v : Val) : Emit Val :=
  if v.ty = .int 1 then pure v else emit .icmpNe [v] (.int 1)

mutual

/-- `convertShadowToScalar`, for a shadow `v` of type `t`. -/
def convertShadowToScalar : Ty → Val → Emit Val
  | .struct _ ts, v => collapseStructShadow ts 0 v falseVal
  | .array 0 _, _ => pure falseVal
  | .array (k + 1) t, v => do
    let first ← emit (.extractValue 0) [v] t
    let agg ← convertShadowToScalar t first
    collapseArrayLoop (convertShadowToScalar t) t v k 1 agg
  | .vec k t, v => emit .bitcast [v] (.int (k * t.layout.bits))
  | _, v => pure v

/-- The loop of `collapseStructShadow` over the fields from `idx` on. The aggregator starts as
`FalseVal`, and as long as it is this constant a field replaces it. -/
def collapseStructShadow : Tys → ℕ → Val → Val → Emit Val
  | .nil, _, _, agg => pure agg
  | .cons t ts, idx, v, agg => do
    let item ← emit (.extractValue idx) [v] t
    let scalar ← convertShadowToScalar t item
    let b ← scalarToBool scalar
    if agg = falseVal then collapseStructShadow ts (idx + 1) v b
    else do
      let agg ← emit .or [agg, b] (.int 1)
      collapseStructShadow ts (idx + 1) v agg

end

/-- `convertToBool`. Of a constant shadow `IRBuilder` computes the result itself, and no instruction
is emitted; the truth value is the one computed here. -/
def convertToBool (v : Val) : Emit Val := do
  let scalar ← convertShadowToScalar v.ty v
  scalarToBool scalar

/-- `normalizeShadow`. The comparison is typed for integers and vectors only. -/
def normalizeShadow (v : Val) : Emit Val :=
  match v.ty with
  | .vec _ t => do
    let s ← emit .orReduce [v] t
    emit .icmpNe [s] (.int 1)
  | _ => emit .icmpNe [v] (.int 1)

/-! ### Evaluation -/

/-- `MemoryMapParams`. -/
structure MemoryMapParams where
  andMask : ℕ
  xorMask : ℕ
  shadowBase : ℕ

/-- `Linux_X86_64_MemoryMapParams`. As `AndMask` and `ShadowBase` are zero, no `and` and no `add`
is emitted. -/
def linuxX8664MemoryMapParams : MemoryMapParams := ⟨0, 0x500000000000, 0⟩

/-- `XorMask`. -/
def xorMask : ℕ := linuxX8664MemoryMapParams.xorMask

/-- The inserted instructions that compute a value from their operands and do nothing else. -/
def ShOp.isPure : ShOp → Bool
  | .ptrToInt | .xorMask | .intToPtr | .gepOff _ | .select | .or | .orReduce | .icmpNe | .sext
  | .zext | .bitcast | .extractValue _ | .mul | .intCast | .addOff _ => true
  | _ => false

/-- The lanes of `a` where the mask is set, those of `b` elsewhere. -/
def selectLanes (mask a b : List ℕ) : List ℕ :=
  List.zipWith (fun m ab => if m ≠ 0 then ab.1 else ab.2) mask (List.zip a b)

/-- The value of a pure inserted instruction of type `ty`. -/
def evalSh (o : ShOp) (ty : Ty) (args : List SVal) : SVal :=
  match o, args with
  | .ptrToInt, [.int _ a] => .int 64 a
  | .ptrToInt, [.vec _ xs] => .vec 64 xs
  | .intToPtr, [x] => x
  | .xorMask, [.int w a] => .int w (a ^^^ xorMask)
  | .xorMask, [.vec w xs] => .vec w (xs.map (· ^^^ xorMask))
  | .gepOff k, [.int w a] => .int w ((a + k).emod (2 ^ 64)).toNat
  | .addOff k, [.int w a] => .int w ((a + k) % 2 ^ 64)
  | .mul, [.int w a, .int _ b] => .int w (a * b % 2 ^ w)
  | .intCast, [.int _ a] => .int ty.layout.bits (a % 2 ^ ty.layout.bits)
  | .or, [.int w a, .int _ b] => .int w (a ||| b)
  | .or, [.vec w a, .vec _ b] => .vec w (List.zipWith (· ||| ·) a b)
  | .orReduce, [.vec w xs] => .int w (xs.foldr (· ||| ·) 0)
  | .icmpNe, [.int _ a] => .bool (a ≠ 0)
  | .sext, [.int _ b] => if b = 0 then SVal.zero ty else SVal.ones ty
  | .zext, [.int _ a] => .int ty.layout.bits a
  | .bitcast, [.vec w xs] => .int (xs.length * w) (packVec w xs)
  | .extractValue i, [.agg xs] => xs.getD i (.agg [])
  | .select, [.int _ c, a, b] => if c ≠ 0 then a else b
  | .select, [.vec _ m, .vec w a, .vec _ b] => .vec w (selectLanes m a b)
  | _, _ => .agg []

/-- Run-time values: of the instructions executed last, and of arguments and constants. -/
structure Env where
  inst : ℕ → SVal
  other : Val → SVal

/-- The value of an operand. -/
def Env.val (ρ : Env) : Val → SVal
  | .inst n _ => ρ.inst n
  | .zero t => SVal.zero t
  | .ones t => SVal.ones t
  | v => ρ.other v

/-- The values satisfy the equation of the instruction, if it is a pure inserted one. -/
def SatInst (ρ : Env) (x : Inst) : Prop :=
  ∀ o, x.op = .sh o → o.isPure = true → ρ.inst x.name = evalSh o x.ty (x.args.map ρ.val)

/-- The values satisfy the equations of the instructions. -/
def Sat (ρ : Env) (xs : List Inst) : Prop := ∀ x ∈ xs, SatInst ρ x

theorem sat_append {ρ : Env} {xs ys : List Inst} : Sat ρ (xs ++ ys) ↔ Sat ρ xs ∧ Sat ρ ys := by
  simp only [Sat, List.mem_append]
  exact ⟨fun h => ⟨fun x hx => h x (Or.inl hx), fun x hx => h x (Or.inr hx)⟩,
    fun h x hx => hx.elim (h.1 x) (h.2 x)⟩

theorem sat_emit {ρ : Env} {o : ShOp} {args : List Val} {ty : Ty} {n : ℕ} (ho : o.isPure = true)
    (h : Sat ρ (emit o args ty n).1) :
    ρ.val (emit o args ty n).2 = evalSh o ty (args.map ρ.val) :=
  h _ (List.mem_singleton_self _) o rfl ho

/-! ### Collapsing is sound -/

/-- The width of the scalar a shadow is collapsed to. -/
def scalarWidth : Ty → ℕ
  | .array (_ + 1) t => scalarWidth t
  | .vec k t => k * t.layout.bits
  | .int w => w
  | _ => 1

/-- `v` is an integer of `w` bits that is non-zero iff `b`. -/
def IsFlag (ρ : Env) (v : Val) (w : ℕ) (b : Bool) : Prop :=
  v.ty = .int w ∧ ∃ k, ρ.val v = .int w k ∧ k < 2 ^ w ∧ (k ≠ 0 ↔ b = true)

theorem packVec_ne_zero {w : ℕ} {xs : List ℕ} :
    packVec w xs ≠ 0 ↔ xs.any (· ≠ 0) = true := by
  induction xs with
  | nil => simp [packVec]
  | cons x xs ih =>
    have hpow : 2 ^ w ≠ 0 := by positivity
    rw [packVec, List.any_cons, Bool.or_eq_true, ← ih]
    simp only [decide_eq_true_eq]
    constructor
    · intro h
      by_contra hcon
      rw [not_or, not_not, not_not] at hcon
      exact h (by rw [hcon.1, hcon.2]; simp)
    · rintro (h | h) hzero
      · omega
      · have : 2 ^ w * packVec w xs = 0 := by omega
        exact (mul_ne_zero hpow h) this

private theorem packVec_lt {w : ℕ} {xs : List ℕ} (h : ∀ x ∈ xs, x < 2 ^ w) :
    packVec w xs < 2 ^ (xs.length * w) := by
  induction xs with
  | nil => simp [packVec]
  | cons x xs ih =>
    have hx := h x List.mem_cons_self
    have hxs := ih fun y hy => h y (List.mem_cons_of_mem _ hy)
    have hexp : 2 ^ ((x :: xs).length * w) = 2 ^ w * 2 ^ (xs.length * w) := by
      rw [← pow_add, List.length_cons]
      congr 1
      ring
    have hmul : 2 ^ w * (packVec w xs + 1) ≤ 2 ^ w * 2 ^ (xs.length * w) :=
      Nat.mul_le_mul_left _ hxs
    rw [packVec, hexp]
    rw [mul_add, mul_one] at hmul
    omega

theorem isFlag_scalarToBool {ρ : Env} {v : Val} {w n : ℕ} {b : Bool} (hv : IsFlag ρ v w b)
    (h : Sat ρ (scalarToBool v n).1) :
    (scalarToBool v n).2.ty = .int 1 ∧ ρ.val (scalarToBool v n).2 = .bool b := by
  obtain ⟨hty, k, hk, hlt, hne⟩ := hv
  rw [scalarToBool] at h ⊢
  split_ifs at h ⊢ with hw
  · obtain rfl : w = 1 := by
      rw [hty] at hw
      exact Ty.int.inj hw
    refine ⟨hw, ?_⟩
    rw [Emit.pure_run, hk, SVal.bool]
    congr 1
    cases b with
    | false => simpa using hne
    | true =>
      have : k ≠ 0 := hne.mpr rfl
      simp only [Bool.toNat_true]
      omega
  · refine ⟨rfl, ?_⟩
    rw [sat_emit rfl h, List.map_singleton, hk]
    simp only [evalSh]
    congr 1
    rw [Bool.eq_iff_iff, ← hne]
    simp

private theorem isFlag_or {ρ : Env} {a b : Val} {w n : ℕ} {x y : Bool} (ha : IsFlag ρ a w x)
    (hb : IsFlag ρ b w y) (h : Sat ρ (emit .or [a, b] (.int w) n).1) :
    IsFlag ρ (emit .or [a, b] (.int w) n).2 w (x || y) := by
  obtain ⟨-, k, hk, hklt, hkne⟩ := ha
  obtain ⟨-, l, hl, hllt, hlne⟩ := hb
  refine ⟨rfl, k ||| l, ?_, Nat.or_lt_two_pow hklt hllt, ?_⟩
  · rw [sat_emit rfl h, List.map_cons, List.map_singleton, hk, hl]
    rfl
  · rw [Bool.or_eq_true, ← hkne, ← hlne, ne_eq, Nat.or_eq_zero_iff, not_and_or]

private theorem isFlag_of_bool {ρ : Env} {v : Val} {b : Bool}
    (h : v.ty = .int 1 ∧ ρ.val v = .bool b) : IsFlag ρ v 1 b := by
  refine ⟨h.1, b.toNat, h.2, ?_, ?_⟩
  · cases b <;> decide
  · cases b <;> simp

private theorem isFlag_false (ρ : Env) : IsFlag ρ falseVal 1 false :=
  ⟨rfl, 0, rfl, by norm_num, by simp⟩

private theorem isFlag_falseVal {ρ : Env} {b : Bool} (h : IsFlag ρ falseVal 1 b) : b = false := by
  obtain ⟨-, k, hk, -, hne⟩ := h
  obtain rfl : k = 0 := (SVal.int.inj hk).2.symm
  simpa using hne

/-- The array loop ORs the elements from `idx` on. -/
private theorem collapseArrayLoop_sound {ρ : Env} {toScalar : Val → Emit Val} {elt : Ty}
    {v : Val} {xs : List SVal} {w : ℕ} (hv : ρ.val v = .agg xs) (helt : ∀ x ∈ xs, HasTy elt x)
    (hts : ∀ u n, u.ty = elt → HasTy elt (ρ.val u) → Sat ρ (toScalar u n).1 →
      IsFlag ρ (toScalar u n).2 w (ρ.val u).anyBit) :
    ∀ (k idx : ℕ) (agg : Val) (b : Bool) (n : ℕ), idx + k = xs.length → IsFlag ρ agg w b →
      Sat ρ (collapseArrayLoop toScalar elt v k idx agg n).1 →
      IsFlag ρ (collapseArrayLoop toScalar elt v k idx agg n).2 w
        (b || SVal.anyBits (xs.drop idx)) := by
  intro k
  induction k with
  | zero =>
    intro idx agg b n hlen hagg _
    rw [List.drop_of_length_le (by omega), SVal.anyBits, Bool.or_false]
    exact hagg
  | succ k ih =>
    intro idx agg b n hlen hagg hsat
    simp only [collapseArrayLoop, Emit.bind_run] at hsat ⊢
    obtain ⟨hitem, hsat⟩ := sat_append.mp hsat
    obtain ⟨hinner, hsat⟩ := sat_append.mp hsat
    obtain ⟨hor, hsat⟩ := sat_append.mp hsat
    have hidx : idx < xs.length := by omega
    have hval : ρ.val (emit (.extractValue idx) [v] elt n).2 = xs[idx] := by
      rw [sat_emit rfl hitem, List.map_singleton, hv]
      simp only [evalSh, List.getD_eq_getElem _ _ hidx]
    have hflag := hts _ _ rfl (by rw [hval]; exact helt _ (List.getElem_mem _)) hinner
    rw [hval] at hflag
    rw [hagg.1] at hor hsat ⊢
    have hstep := ih (idx + 1) _ _ _ (by omega) (isFlag_or hagg hflag hor) hsat
    rw [List.drop_eq_getElem_cons hidx, SVal.anyBits, ← Bool.or_assoc]
    exact hstep

section HasTy

variable {w k : ℕ} {t : Ty} {ts : Tys} {packed : Bool} {x : SVal}

theorem HasTy.int_inv (h : HasTy (.int w) x) : ∃ n, x = .int w n ∧ n < 2 ^ w := by
  cases x with
  | int w' n =>
    obtain ⟨rfl, hn⟩ := h
    exact ⟨n, rfl, hn⟩
  | vec _ _ | agg _ => simp [HasTy] at h

theorem HasTy.vec_inv (h : HasTy (.vec k t) x) :
    ∃ w xs, t = .int w ∧ x = .vec w xs ∧ xs.length = k ∧ ∀ y ∈ xs, y < 2 ^ w := by
  cases x with
  | vec w xs => exact ⟨w, xs, h.1, rfl, h.2⟩
  | int _ _ | agg _ => simp [HasTy] at h

theorem HasTy.array_inv (h : HasTy (.array k t) x) :
    ∃ xs, x = .agg xs ∧ xs.length = k ∧ ∀ y ∈ xs, HasTy t y := by
  cases x with
  | agg xs => exact ⟨xs, rfl, h⟩
  | int _ _ | vec _ _ => simp [HasTy] at h

theorem HasTy.struct_inv (h : HasTy (.struct packed ts) x) : ∃ xs, x = .agg xs ∧ HasTys ts xs := by
  cases x with
  | agg xs => exact ⟨xs, rfl, h⟩
  | int _ _ | vec _ _ => simp [HasTy] at h

end HasTy

mutual

/-- The scalar of a shadow is non-zero iff some bit of the shadow is set. -/
theorem convertShadowToScalar_sound (ρ : Env) (t : Ty) (v : Val) (n : ℕ) (hty : v.ty = t)
    (hv : HasTy t (ρ.val v)) (hsat : Sat ρ (convertShadowToScalar t v n).1) :
    IsFlag ρ (convertShadowToScalar t v n).2 (scalarWidth t) (ρ.val v).anyBit := by
  match t with
  | .void | .token | .fp _ | .ptr | .ptrAs _ => cases ρ.val v <;> exact absurd hv (by simp [HasTy])
  | .int w =>
    obtain ⟨k, hval, hk⟩ := hv.int_inv
    exact ⟨hty, k, hval, hk, by rw [hval]; simp [SVal.anyBit]⟩
  | .vec k t =>
    obtain ⟨w, xs, rfl, hval, hlen, hxs⟩ := hv.vec_inv
    rw [convertShadowToScalar] at hsat ⊢
    refine ⟨rfl, packVec w xs, ?_, ?_, by rw [packVec_ne_zero, hval, SVal.anyBit]⟩
    · rw [sat_emit rfl hsat, List.map_singleton, hval]
      simp only [evalSh, hlen, scalarWidth, Ty.layout]
    · rw [scalarWidth, ← hlen]
      exact packVec_lt hxs
  | .array 0 t =>
    obtain ⟨xs, hval, hlen, -⟩ := hv.array_inv
    obtain rfl : xs = [] := List.length_eq_zero_iff.mp hlen
    rw [hval]
    exact isFlag_false ρ
  | .array (k + 1) t =>
    obtain ⟨xs, hval, hlen, helt⟩ := hv.array_inv
    simp only [convertShadowToScalar, Emit.bind_run] at hsat ⊢
    obtain ⟨hfirst, hsat⟩ := sat_append.mp hsat
    obtain ⟨hscalar, hsat⟩ := sat_append.mp hsat
    have h0 : 0 < xs.length := by omega
    have hx0 : ρ.val (emit (.extractValue 0) [v] t n).2 = xs[0] := by
      rw [sat_emit rfl hfirst, List.map_singleton, hval]
      simp only [evalSh, List.getD_eq_getElem _ _ h0]
    have hflag := convertShadowToScalar_sound ρ t _ _ rfl
      (by rw [hx0]; exact helt _ (List.getElem_mem _)) hscalar
    rw [hx0] at hflag
    have hloop := collapseArrayLoop_sound hval helt
      (fun u m hu hut hus => convertShadowToScalar_sound ρ t u m hu hut hus) k 1 _ _ _
      (by omega) hflag hsat
    have hxs : xs = xs[0] :: xs.drop 1 := by
      conv_lhs => rw [← List.drop_zero (l := xs), List.drop_eq_getElem_cons h0]
    rw [hval, scalarWidth, SVal.anyBit]
    conv_rhs => rw [hxs, SVal.anyBits]
    exact hloop
  | .struct packed ts =>
    obtain ⟨xs, hval, hts⟩ := hv.struct_inv
    rw [convertShadowToScalar] at hsat ⊢
    have h := collapseStructShadow_sound ρ ts 0 v falseVal n xs hval (by simpa using hts) false
      (isFlag_false ρ) hsat
    rw [Bool.false_or, List.drop_zero] at h
    rw [hval]
    exact h

theorem collapseStructShadow_sound (ρ : Env) (ts : Tys) (idx : ℕ) (v agg : Val) (n : ℕ)
    (xs : List SVal) (hv : ρ.val v = .agg xs) (hts : HasTys ts (xs.drop idx)) (b : Bool)
    (hagg : IsFlag ρ agg 1 b) (hsat : Sat ρ (collapseStructShadow ts idx v agg n).1) :
    IsFlag ρ (collapseStructShadow ts idx v agg n).2 1 (b || SVal.anyBits (xs.drop idx)) := by
  match ts with
  | .nil =>
    have hnil : xs.drop idx = [] := by
      cases hd : xs.drop idx with
      | nil => rfl
      | cons _ _ => rw [hd] at hts; exact absurd hts (by simp [HasTys])
    rw [hnil, SVal.anyBits, Bool.or_false, collapseStructShadow, Emit.pure_run]
    exact hagg
  | .cons t ts =>
    have hidx : idx < xs.length := by
      by_contra hlt
      rw [List.drop_of_length_le (by omega)] at hts
      exact absurd hts (by simp [HasTys])
    rw [List.drop_eq_getElem_cons hidx] at hts ⊢
    obtain ⟨hx, hts⟩ := hts
    rw [collapseStructShadow] at hsat ⊢
    simp only [Emit.bind_run] at hsat ⊢
    obtain ⟨hitem, hsat⟩ := sat_append.mp hsat
    obtain ⟨hscalar, hsat⟩ := sat_append.mp hsat
    obtain ⟨hbool, hsat⟩ := sat_append.mp hsat
    have hval : ρ.val (emit (.extractValue idx) [v] t n).2 = xs[idx] := by
      rw [sat_emit rfl hitem, List.map_singleton, hv]
      simp only [evalSh, List.getD_eq_getElem _ _ hidx]
    have hflag := convertShadowToScalar_sound ρ t _ _ rfl (by rw [hval]; exact hx) hscalar
    rw [hval] at hflag
    have hb := isFlag_of_bool (isFlag_scalarToBool hflag hbool)
    rw [SVal.anyBits, ← Bool.or_assoc]
    split_ifs at hsat ⊢ with hfalse
    · obtain rfl : b = false := isFlag_falseVal (hfalse ▸ hagg)
      rw [Bool.false_or]
      exact collapseStructShadow_sound ρ ts (idx + 1) v _ _ xs hv hts _ hb hsat
    · simp only [Emit.bind_run] at hsat ⊢
      obtain ⟨hor, hsat⟩ := sat_append.mp hsat
      exact collapseStructShadow_sound ρ ts (idx + 1) v _ _ xs hv hts _ (isFlag_or hagg hb hor)
        hsat

end

/-- **`convertToBool` is true iff some bit of the shadow is set.** -/
theorem convertToBool_sound {ρ : Env} {v : Val} {n : ℕ} (hv : HasTy v.ty (ρ.val v))
    (hsat : Sat ρ (convertToBool v n).1) :
    (convertToBool v n).2.ty = .int 1 ∧
      ρ.val (convertToBool v n).2 = .bool (ρ.val v).anyBit := by
  simp only [convertToBool, Emit.bind_run] at hsat ⊢
  obtain ⟨hscalar, hsat⟩ := sat_append.mp hsat
  exact isFlag_scalarToBool (convertShadowToScalar_sound ρ v.ty v n rfl hv hscalar) hsat

/-! ### Availability -/

/-- The value is an argument, a constant, or the result of an instruction in `A`. -/
def Val.Avail (A : Set ℕ) : Val → Prop
  | .inst n _ => n ∈ A
  | _ => True

theorem Val.Avail.mono {A B : Set ℕ} {v : Val} (h : v.Avail A) (hAB : A ⊆ B) : v.Avail B := by
  cases v with
  | inst n t => exact hAB h
  | _ => trivial

/-- The names the instructions define. -/
def names (xs : List Inst) : Set ℕ := {n | ∃ x ∈ xs, x.name = n}

@[simp] theorem names_nil : names [] = ∅ := by simp [names]

@[simp] theorem names_append (xs ys : List Inst) : names (xs ++ ys) = names xs ∪ names ys := by
  ext n
  simp only [names, List.mem_append, Set.mem_ofPred_eq, Set.mem_union]
  constructor
  · rintro ⟨x, hx | hx, rfl⟩
    · exact Or.inl ⟨x, hx, rfl⟩
    · exact Or.inr ⟨x, hx, rfl⟩
  · rintro (⟨x, hx, rfl⟩ | ⟨x, hx, rfl⟩)
    · exact ⟨x, Or.inl hx, rfl⟩
    · exact ⟨x, Or.inr hx, rfl⟩

@[simp] theorem names_cons (x : Inst) (xs : List Inst) : names (x :: xs) = {x.name} ∪ names xs := by
  rw [← List.singleton_append, names_append]
  congr 1
  ext n
  simp [names, eq_comm]

/-- Every operand is available under `A` or defined earlier in the list. -/
def Closed (A : Set ℕ) : List Inst → Prop
  | [] => True
  | x :: xs => (∀ v ∈ x.operands, v.Avail A) ∧ Closed (A ∪ {x.name}) xs

theorem closed_append {A : Set ℕ} {xs ys : List Inst} :
    Closed A (xs ++ ys) ↔ Closed A xs ∧ Closed (A ∪ names xs) ys := by
  induction xs generalizing A with
  | nil => simp [Closed]
  | cons x xs ih => simp only [List.cons_append, Closed, ih, names_cons, Set.union_assoc, and_assoc]

/-- Inserted code: the instructions are named `n`, `n + 1` and so on, and their opcodes are
in `P`. -/
def Numbered (P : ShOp → Prop) : ℕ → List Inst → Prop
  | _, [] => True
  | n, x :: xs => (x.name = n ∧ ∃ o, x.op = .sh o ∧ P o) ∧ Numbered P (n + 1) xs

section Numbered

variable {P Q : ShOp → Prop} {n : ℕ} {xs ys : List Inst}

theorem Numbered.mono (h : Numbered P n xs) (hPQ : ∀ o, P o → Q o) : Numbered Q n xs := by
  induction xs generalizing n with
  | nil => trivial
  | cons x xs ih =>
    obtain ⟨⟨hname, o, ho, hP⟩, hxs⟩ := h
    exact ⟨⟨hname, o, ho, hPQ o hP⟩, ih hxs⟩

theorem numbered_append :
    Numbered P n (xs ++ ys) ↔ Numbered P n xs ∧ Numbered P (n + xs.length) ys := by
  induction xs generalizing n with
  | nil => simp [Numbered]
  | cons x xs ih =>
    simp only [List.cons_append, Numbered, ih, List.length_cons, and_assoc, Nat.add_assoc,
      Nat.add_comm 1]

theorem Numbered.op (h : Numbered P n xs) {x : Inst} (hx : x ∈ xs) : ∃ o, x.op = .sh o ∧ P o := by
  induction xs generalizing n with
  | nil => cases hx
  | cons y xs ih =>
    rcases List.mem_cons.mp hx with rfl | hx
    · exact h.1.2
    · exact ih h.2 hx

theorem Numbered.name_bounds (h : Numbered P n xs) {x : Inst} (hx : x ∈ xs) :
    n ≤ x.name ∧ x.name < n + xs.length := by
  induction xs generalizing n with
  | nil => cases hx
  | cons y xs ih =>
    rw [List.length_cons]
    rcases List.mem_cons.mp hx with rfl | hx
    · have := h.1.1
      omega
    · have := ih h.2 hx
      omega

theorem Numbered.nodup (h : Numbered P n xs) : (xs.map Inst.name).Nodup := by
  induction xs generalizing n with
  | nil => exact List.nodup_nil
  | cons x xs ih =>
    refine List.nodup_cons.mpr ⟨fun hx => ?_, ih h.2⟩
    obtain ⟨y, hy, hyx⟩ := List.mem_map.mp hx
    have := (h.2.name_bounds hy).1
    have := h.1.1
    omega

end Numbered

/-- The emission is numbered, has opcodes in `P`, uses only what is available, and its result is
available after it. -/
def Emit.Ok (P : ShOp → Prop) (A : Set ℕ) (m : Emit Val) : Prop :=
  ∀ n, Numbered P n (m n).1 ∧ Closed A (m n).1 ∧ (m n).2.Avail (A ∪ names (m n).1)

section Ok

variable {P : ShOp → Prop} {A : Set ℕ}

theorem Emit.Ok.weaken {Q : ShOp → Prop} {m : Emit Val} (h : Emit.Ok P A m)
    (hPQ : ∀ o, P o → Q o) : Emit.Ok Q A m := fun n => ⟨(h n).1.mono hPQ, (h n).2⟩

theorem Emit.ok_pure {v : Val} (h : v.Avail A) : Emit.Ok P A (pure v) := fun _ =>
  ⟨trivial, trivial, h.mono Set.subset_union_left⟩

theorem Emit.ok_emit {o : ShOp} {args : List Val} {y : Ty} (ho : P o)
    (h : ∀ v ∈ args, v.Avail A) : Emit.Ok P A (emit o args y) := fun _ =>
  ⟨⟨⟨rfl, o, rfl, ho⟩, trivial⟩, ⟨h, trivial⟩, Or.inr ⟨_, List.mem_singleton_self _, rfl⟩⟩

/-- Emissions compose: what follows may use the result of what came before. -/
theorem Emit.Ok.bind {m : Emit Val} {k : Val → Emit Val} (hm : Emit.Ok P A m)
    (hk : ∀ B v, A ⊆ B → v.Avail B → Emit.Ok P B (k v)) : Emit.Ok P A (m >>= k) := fun n => by
  obtain ⟨hnum, hclosed, hv⟩ := hm n
  obtain ⟨hnum', hclosed', hv'⟩ := hk _ _ Set.subset_union_left hv (n + (m n).1.length)
  rw [Emit.bind_run]
  refine ⟨numbered_append.mpr ⟨hnum, hnum'⟩, closed_append.mpr ⟨hclosed, hclosed'⟩, ?_⟩
  rw [names_append, ← Set.union_assoc]
  exact hv'

theorem avail_singleton {v : Val} (h : v.Avail A) : ∀ u ∈ [v], u.Avail A := by
  rintro u hu
  rw [List.mem_singleton.mp hu]
  exact h

theorem avail_pair {u v : Val} (hu : u.Avail A) (hv : v.Avail A) : ∀ x ∈ [u, v], x.Avail A := by
  intro x hx
  rcases List.mem_cons.mp hx with rfl | hx
  · exact hu
  · exact avail_singleton hv x hx

end Ok

section Collapse

variable {A : Set ℕ}

/-- The instructions that only compute a value. -/
abbrev PureOp (o : ShOp) : Prop := o.isPure = true

theorem Emit.ok_scalarToBool {v : Val} (h : v.Avail A) : Emit.Ok PureOp A (scalarToBool v) := by
  rw [scalarToBool]
  split_ifs
  · exact Emit.ok_pure h
  · exact Emit.ok_emit rfl (avail_singleton h)

private theorem Emit.ok_collapseArrayLoop {toScalar : Val → Emit Val} {elt : Ty} {v : Val}
    (hts : ∀ B u, u.Avail B → Emit.Ok PureOp B (toScalar u)) :
    ∀ (k idx : ℕ) (A : Set ℕ) (agg : Val), v.Avail A → agg.Avail A →
      Emit.Ok PureOp A (collapseArrayLoop toScalar elt v k idx agg) := by
  intro k
  induction k with
  | zero => exact fun _ _ _ _ hagg => Emit.ok_pure hagg
  | succ k ih =>
    intro idx A agg hv hagg
    refine (Emit.ok_emit (P := PureOp) (by rfl) (avail_singleton hv)).bind fun B item hB hitem => ?_
    refine (hts B item hitem).bind fun C inner hC hinner => ?_
    have haggC : agg.Avail C := (hagg.mono hB).mono hC
    refine (Emit.ok_emit (P := PureOp) (by rfl) (avail_pair haggC hinner)).bind
      fun D agg' hD hagg' => ?_
    exact ih (idx + 1) D agg' (((hv.mono hB).mono hC).mono hD) hagg'

mutual

theorem Emit.ok_convertShadowToScalar (t : Ty) (A : Set ℕ) (v : Val) (hv : v.Avail A) :
    Emit.Ok PureOp A (convertShadowToScalar t v) := by
  match t with
  | .void | .token | .int _ | .fp _ | .ptr | .ptrAs _ => exact Emit.ok_pure hv
  | .vec _ _ => exact Emit.ok_emit rfl (avail_singleton hv)
  | .array 0 _ => exact Emit.ok_pure trivial
  | .array (k + 1) t =>
    refine (Emit.ok_emit (P := PureOp) (by rfl) (avail_singleton hv)).bind
      fun B first hB hfirst => ?_
    refine (Emit.ok_convertShadowToScalar t B first hfirst).bind fun C agg hC hagg => ?_
    exact Emit.ok_collapseArrayLoop (fun B u hu => Emit.ok_convertShadowToScalar t B u hu) k 1 C
      agg ((hv.mono hB).mono hC) hagg
  | .struct _ ts => exact Emit.ok_collapseStructShadow ts 0 A v falseVal hv trivial

theorem Emit.ok_collapseStructShadow (ts : Tys) (idx : ℕ) (A : Set ℕ) (v agg : Val)
    (hv : v.Avail A) (hagg : agg.Avail A) :
    Emit.Ok PureOp A (collapseStructShadow ts idx v agg) := by
  match ts with
  | .nil => exact Emit.ok_pure hagg
  | .cons t ts =>
    rw [collapseStructShadow]
    refine (Emit.ok_emit (P := PureOp) (by rfl) (avail_singleton hv)).bind fun B item hB hitem => ?_
    refine (Emit.ok_convertShadowToScalar t B item hitem).bind fun C scalar hC hscalar => ?_
    refine (Emit.ok_scalarToBool hscalar).bind fun D b hD hb => ?_
    have hAD : A ⊆ D := (hB.trans hC).trans hD
    split_ifs
    · exact Emit.ok_collapseStructShadow ts (idx + 1) D v _ (hv.mono hAD) hb
    · refine (Emit.ok_emit (P := PureOp) (by rfl) (avail_pair (hagg.mono hAD) hb)).bind
        fun E a' hE ha' => ?_
      exact Emit.ok_collapseStructShadow ts (idx + 1) E v _ ((hv.mono hAD).mono hE) ha'

end

theorem Emit.ok_convertToBool {v : Val} (h : v.Avail A) : Emit.Ok PureOp A (convertToBool v) :=
  (Emit.ok_convertShadowToScalar v.ty A v h).bind fun _ _ _ hs => Emit.ok_scalarToBool hs

end Collapse

end CQMSan
