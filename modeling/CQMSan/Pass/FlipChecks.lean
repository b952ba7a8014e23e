import CQMSan.Pass.Materialize

/-!
# Checks in the flipped build

With `CQMSAN_FLIP_CONVENTION` a clean shadow is all ones and a poisoned one is null. The functions
below are those of the pass in that build, on run-time values: what the inserted code computes
when it is executed.

A check is built from operands of given types, each either the constant that `getCleanShadow`
or `getPoisonedShadow` returns or a shadow computed at run time (`Operand`). `Consistent` says
that the check is silent when all its operands are clean and warns as soon as one of them is
poisoned. It depends on the widths of the scalars that a shadow is collapsed to
(`convertToBool_ones`, `convertToBool_zero`): `convertToBool` compares a wide scalar with zero
and takes a scalar of one bit as it is. The result is `consistent_iff`.
-/

namespace CQMSan.Flip

/-! ### The conversions -/

/-- The end of `convertToBool`, on an integer of `w` bits: `V == 0`, and a Boolean is already
converted. -/
def scalarToBool (w n : ℕ) : Bool := if w = 1 then n ≠ 0 else n = 0

mutual

/-- `convertShadowToScalar`, of a shadow of the given shadow type. -/
def convertShadowToScalar : Ty → SVal → ℕ
  | .struct _ ts, .agg xs => (collapseStructShadow ts xs false).toNat
  | .array _ t, .agg (x :: xs) =>
    -- `collapseArrayShadow` ORs the scalars of the elements, not their Booleans
    xs.foldl (fun aggregator y => aggregator ||| convertShadowToScalar t y)
      (convertShadowToScalar t x)
  | .vec _ _, .vec w xs => packVec w xs
  | _, .int _ n => n
  | _, _ => 0

/-- The loop of `collapseStructShadow` over the remaining fields. -/
def collapseStructShadow : Tys → List SVal → Bool → Bool
  | .cons t ts, x :: xs, aggregator =>
    collapseStructShadow ts xs
      (aggregator || scalarToBool (scalarWidth t) (convertShadowToScalar t x))
  | _, _, aggregator => aggregator

end

/-- `convertToBool`. -/
def convertToBool (t : Ty) (v : SVal) : Bool :=
  scalarToBool (scalarWidth t) (convertShadowToScalar t v)

/-- `getCleanShadow`, which is `getAllOnesShadow` of the shadow type. -/
def getCleanShadow (ty : Ty) : SVal := SVal.ones (getShadowTy ty)

/-- `getPoisonedShadow`, of a value of the type. -/
def getPoisonedShadow (ty : Ty) : SVal := SVal.zero (getShadowTy ty)

/-! ### The checks -/

/-- A shadow to be checked: its type, whether it is a `Constant`, and its value at run time. -/
structure Shadow where
  ty : Ty
  isConst : Bool
  val : SVal

/-- `isZeroValue()`. -/
def isZeroValue (v : SVal) : Bool := !v.anyBit

/-- `isKnownNonZero`, of a constant: not for aggregates. -/
def isKnownNonZero : SVal → Bool
  | .int _ n => n ≠ 0
  | .vec _ xs => xs.all (· ≠ 0)
  | .agg _ => false

/-- `convertToBool` of a shadow. -/
def Shadow.toBool (s : Shadow) : Bool := convertToBool s.ty s.val

/-- The OR of two shadows as Booleans, which is folded if both are constants. -/
def Shadow.or (a b : Shadow) : Shadow :=
  ⟨.int 1, a.isConst && b.isConst, .bool (a.toBool || b.toBool)⟩

/-- `SplittableBlocksCount` is past `ClInstrumentationWithCallThreshold` once it is raised. -/
def pastThreshold (opts : Options) (count : ℕ) : Bool :=
  decide (opts.callThreshold ≥ 0) && decide (((count + 1 : ℕ) : ℤ) > opts.callThreshold)

/-- `instrumentWithCalls`. -/
def instrumentWithCalls (opts : Options) (count : ℕ) (s : Shadow) : Bool :=
  !s.isConst && pastThreshold opts count

/-- `CQMSAN_MAYBE_WARNING_TRIGGERED`. -/
def maybeWarningTriggered (n : ℕ) : Bool := n = 0

/-- `materializeOneCheck`: the call or the branch executes a warning. Extending the scalar with
zeros keeps its value. -/
def materializeOneCheck (opts : Options) (count : ℕ) (s : Shadow) : Bool :=
  if instrumentWithCalls opts count s && decide (typeSizeToSizeIndex s.ty.layout.bits < 4) then
    maybeWarningTriggered (convertShadowToScalar s.ty s.val)
  else s.toBool

/-- `materializeInstructionChecks`, from the loop with the shadow `acc` on: the number of warnings
that the inserted code executes. -/
def materializeInstructionChecks (opts : Options) (count : ℕ) :
    List Shadow → Option Shadow → ℕ
  | [], none => 0
  | [], some acc => (materializeOneCheck opts count acc).toNat
  | s :: ss, acc =>
    if s.isConst && (!opts.checkConstantShadow || isZeroValue s.val) then
      materializeInstructionChecks opts count ss acc
    else if s.isConst && isKnownNonZero s.val then
      if opts.keepGoing then 1 + materializeInstructionChecks opts count ss acc else 1
    else materializeInstructionChecks opts count ss (some (acc.elim s (·.or s)))

/-! ### The scalars of a type -/

mutual

/-- Some scalar that a shadow of the type is collapsed from has a width with `p`. -/
def anyScalar (p : ℕ → Bool) : Ty → Bool
  | .vec n t => p (n * t.layout.bits)
  | .array n t => decide (0 < n) && anyScalar p t
  | .struct _ ts => anyScalars p ts
  | t => p t.layout.bits

/-- Some scalar of some field has a width with `p`. -/
def anyScalars (p : ℕ → Bool) : Tys → Bool
  | .nil => false
  | .cons t ts => anyScalar p t || anyScalars p ts

end

/-- A shadow of the type has a scalar of one bit. -/
def hasOneBit (t : Ty) : Bool := anyScalar (· = 1) t

/-- A shadow of the type has a scalar of another width. -/
def hasWide (t : Ty) : Bool := anyScalar (· ≠ 1) t

/-- The type is a scalar, and an integer has a bit. -/
def validScalar : Ty → Bool
  | .int w => 0 < w
  | .fp _ | .ptr | .ptrAs _ => true
  | _ => false

mutual

/-- The type is one of LLVM and sized: an integer has a bit, and a vector has an element and
scalar elements. -/
def validTy : Ty → Bool
  | .vec n t => decide (0 < n) && validScalar t
  | .array _ t => validTy t
  | .struct _ ts => validTys ts
  | t => validScalar t

/-- All fields are valid. -/
def validTys : Tys → Bool
  | .nil => true
  | .cons t ts => validTy t && validTys ts

end

/-- The value of a shadow type with all bits equal to `b`. -/
private def fill (b : Bool) (t : Ty) : SVal := bif b then SVal.ones t else SVal.zero t

private def fills (b : Bool) (ts : Tys) : List SVal := bif b then SVal.oness ts else SVal.zeros ts

private theorem fill_array (b : Bool) (n : ℕ) (t : Ty) :
    fill b (.array n t) = .agg (List.replicate n (fill b t)) := by cases b <;> rfl

private theorem fill_struct (b packed : Bool) (ts : Tys) :
    fill b (.struct packed ts) = .agg (fills b ts) := by cases b <;> rfl

private theorem fills_cons (b : Bool) (t : Ty) (ts : Tys) :
    fills b (.cons t ts) = fill b t :: fills b ts := by cases b <;> rfl

/-- An integer of `w` bits that are all `b` is nonzero iff `b` is set. -/
private theorem scalarToBool_fill {w n : ℕ} {b : Bool} (h : n ≠ 0 ↔ b = true) :
    scalarToBool w n = decide ((w = 1) = (b = true)) := by
  rw [scalarToBool]
  by_cases hw : w = 1
  · simp [hw, h]
  · by_cases hn : n = 0
    · have hb : ¬b = true := fun hb => h.mpr hb hn
      simp [hw, hn, hb]
    · simp [hw, hn, h.mp hn]

private theorem foldl_or_replicate (f : SVal → ℕ) (x : SVal) (k : ℕ) :
    (List.replicate k x).foldl (fun aggregator y => aggregator ||| f y) (f x) = f x := by
  induction k with
  | zero => rfl
  | succ k ih => rw [List.replicate_succ, List.foldl_cons, Nat.or_self, ih]

private theorem two_pow_sub_one_ne_zero {w : ℕ} (h : 0 < w) : 2 ^ w - 1 ≠ 0 := by
  have := Nat.one_lt_two_pow h.ne'
  omega

private theorem convertToBool_fill_int (b : Bool) {w : ℕ} (h : 0 < w) :
    convertToBool (.int w) (fill b (.int w)) = decide ((w = 1) = (b = true)) := by
  refine scalarToBool_fill ?_
  cases b with
  | false => simp [fill, SVal.zero, convertShadowToScalar]
  | true => simpa [fill, SVal.ones, convertShadowToScalar] using two_pow_sub_one_ne_zero h

private theorem convertToBool_fill_vec (b : Bool) {n w : ℕ} (hn : 0 < n) (hw : 0 < w) :
    convertToBool (.vec n (.int w)) (fill b (.vec n (.int w))) =
      decide ((n * w = 1) = (b = true)) := by
  refine scalarToBool_fill ?_
  cases b with
  | false => simp [fill, SVal.zero, convertShadowToScalar, Ty.layout, packVec_ne_zero]
  | true =>
    simp only [fill, cond_true, SVal.ones, convertShadowToScalar, Ty.layout, packVec_ne_zero,
      iff_true]
    rw [List.any_eq_true]
    exact ⟨2 ^ w - 1, List.mem_replicate.mpr ⟨hn.ne', rfl⟩,
      decide_eq_true (two_pow_sub_one_ne_zero hw)⟩

private theorem layout_bits_pos {t : Ty} (h : validScalar t = true) : 0 < t.layout.bits := by
  cases t with
  | int w => simpa [Ty.layout, validScalar] using h
  | fp k => cases k <;> simp [Ty.layout, FpKind.bits]
  | ptr => simp [Ty.layout]
  | ptrAs space =>
    simp only [Ty.layout, pointerBits]
    split_ifs <;> norm_num
  | void | token | vec _ _ | array _ _ | struct _ _ => cases h

mutual

/-- A shadow with all bits equal to `b` converts to true iff it has a scalar of one bit and `b` is
set, or a wider scalar and `b` is not set. -/
private theorem convertToBool_fill (b : Bool) (t : Ty) (h : validTy t = true) :
    convertToBool (getShadowTy t) (fill b (getShadowTy t)) =
      anyScalar (fun w => decide ((w = 1) = (b = true))) t := by
  match t with
  | .void | .token => cases h
  | .int w => exact convertToBool_fill_int b (layout_bits_pos h)
  | .fp k => exact convertToBool_fill_int b (layout_bits_pos rfl)
  | .ptr => exact convertToBool_fill_int b (by norm_num [Ty.layout])
  | .ptrAs space => exact convertToBool_fill_int b (layout_bits_pos rfl)
  | .vec n t =>
    simp only [validTy, Bool.and_eq_true] at h
    exact convertToBool_fill_vec b (by simpa using h.1) (layout_bits_pos h.2)
  | .array 0 t =>
    rw [getShadowTy, fill_array]
    simp [convertToBool, convertShadowToScalar, scalarWidth, scalarToBool, anyScalar]
  | .array (k + 1) t =>
    have ih := convertToBool_fill b t (by simpa [validTy] using h)
    rw [getShadowTy, fill_array, List.replicate_succ, convertToBool, convertShadowToScalar,
      foldl_or_replicate, scalarWidth, anyScalar, ← ih, convertToBool]
    simp
  | .struct packed ts =>
    have ih := collapseStructShadow_fill b ts (by simpa [validTy] using h) false
    rw [getShadowTy, fill_struct, convertToBool, convertShadowToScalar, ih, anyScalar,
      Bool.false_or]
    cases anyScalars (fun w => decide ((w = 1) = (b = true))) ts <;> rfl

private theorem collapseStructShadow_fill (b : Bool) (ts : Tys) (h : validTys ts = true)
    (aggregator : Bool) :
    collapseStructShadow (getShadowTys ts) (fills b (getShadowTys ts)) aggregator =
      (aggregator || anyScalars (fun w => decide ((w = 1) = (b = true))) ts) := by
  match ts with
  | .nil => simp [getShadowTys, collapseStructShadow, anyScalars]
  | .cons t ts =>
    rw [validTys, Bool.and_eq_true] at h
    have ih := convertToBool_fill b t h.1
    rw [convertToBool] at ih
    rw [getShadowTys, fills_cons, collapseStructShadow, ih, collapseStructShadow_fill b ts h.2,
      anyScalars, Bool.or_assoc]

end

/-- `convertToBool` takes a clean shadow for a poisoned one iff it has a scalar of one bit. -/
theorem convertToBool_getCleanShadow {t : Ty} (h : validTy t = true) :
    convertToBool (getShadowTy t) (getCleanShadow t) = hasOneBit t := by
  have hfill := convertToBool_fill true t h
  simp only [eq_iff_iff, iff_true] at hfill
  exact hfill

/-- `convertToBool` sees that a shadow is poisoned iff it has a scalar of more than one bit. -/
theorem convertToBool_getPoisonedShadow {t : Ty} (h : validTy t = true) :
    convertToBool (getShadowTy t) (getPoisonedShadow t) = hasWide t := by
  have hfill := convertToBool_fill false t h
  simp only [eq_iff_iff, Bool.false_eq_true, iff_false] at hfill
  exact hfill

private theorem anyBit_fill_int (b : Bool) {w : ℕ} (h : 0 < w) :
    (fill b (.int w)).anyBit = (b && true) := by
  cases b with
  | false => rfl
  | true => simpa [fill, SVal.ones, SVal.anyBit] using two_pow_sub_one_ne_zero h

private theorem anyBits_replicate (n : ℕ) (x : SVal) :
    SVal.anyBits (List.replicate n x) = (decide (0 < n) && x.anyBit) := by
  induction n with
  | zero => rfl
  | succ n ih =>
    rw [List.replicate_succ, SVal.anyBits, ih]
    cases x.anyBit <;> simp

mutual

private theorem anyBit_fill (b : Bool) (t : Ty) (h : validTy t = true) :
    (fill b (getShadowTy t)).anyBit = (b && anyScalar (fun _ => true) t) := by
  match t with
  | .void | .token => cases h
  | .int w => exact anyBit_fill_int b (layout_bits_pos h)
  | .fp k => exact anyBit_fill_int b (layout_bits_pos rfl)
  | .ptr => exact anyBit_fill_int b (layout_bits_pos rfl)
  | .ptrAs space => exact anyBit_fill_int b (layout_bits_pos rfl)
  | .vec n t =>
    simp only [validTy, Bool.and_eq_true, decide_eq_true_eq] at h
    have hw := two_pow_sub_one_ne_zero (layout_bits_pos h.2)
    cases b with
    | false => simp [fill, getShadowTy, SVal.zero, SVal.anyBit]
    | true => simp [fill, getShadowTy, SVal.ones, SVal.anyBit, anyScalar, Ty.layout, h.1.ne', hw]
  | .array n t =>
    have ih := anyBit_fill b t (by simpa [validTy] using h)
    rw [getShadowTy, fill_array, SVal.anyBit, anyBits_replicate, ih, anyScalar]
    cases b <;> simp
  | .struct packed ts =>
    rw [getShadowTy, fill_struct, SVal.anyBit, anyScalar]
    exact anyBits_fills b ts (by simpa [validTy] using h)

private theorem anyBits_fills (b : Bool) (ts : Tys) (h : validTys ts = true) :
    SVal.anyBits (fills b (getShadowTys ts)) = (b && anyScalars (fun _ => true) ts) := by
  match ts with
  | .nil => cases b <;> rfl
  | .cons t ts =>
    rw [validTys, Bool.and_eq_true] at h
    rw [getShadowTys, fills_cons, SVal.anyBits, anyBit_fill b t h.1, anyBits_fills b ts h.2,
      anyScalars, Bool.and_or_distrib_left]

end

mutual

private theorem anyScalar_or (p q : ℕ → Bool) (t : Ty) :
    anyScalar (fun w => p w || q w) t = (anyScalar p t || anyScalar q t) := by
  match t with
  | .array n t => rw [anyScalar, anyScalar, anyScalar, anyScalar_or p q t, Bool.and_or_distrib_left]
  | .struct _ ts => exact anyScalars_or p q ts
  | .vec n t => rfl
  | .void | .token | .int _ | .fp _ | .ptr | .ptrAs _ => rfl

private theorem anyScalars_or (p q : ℕ → Bool) (ts : Tys) :
    anyScalars (fun w => p w || q w) ts = (anyScalars p ts || anyScalars q ts) := by
  match ts with
  | .nil => rfl
  | .cons t ts =>
    rw [anyScalars, anyScalars, anyScalars, anyScalar_or p q t, anyScalars_or p q ts]
    cases anyScalar p t <;> cases anyScalar q t <;> simp

end

private theorem allocSize_eq_zero {t : Ty} (h : t.layout.bits = 0) : t.layout.allocSize = 0 := by
  have hpos := t.layout_align_pos
  have hdiv : (t.layout.align - 1) / t.layout.align = 0 := Nat.div_eq_of_lt (by omega)
  rw [TyLayout.allocSize, TyLayout.storeSize, h, alignTo]
  norm_num [hdiv]

private theorem alignTo_zero {a : ℕ} (h : 0 < a) : alignTo 0 a = 0 := by
  have hdiv : (0 + a - 1) / a = 0 := Nat.div_eq_of_lt (by omega)
  rw [alignTo, hdiv, zero_mul]

mutual

/-- A type without scalars has no bits. -/
private theorem layout_bits_eq_zero (t : Ty) (h : anyScalar (fun _ => true) t = false) :
    t.layout.bits = 0 := by
  match t with
  | .array n t =>
    rw [anyScalar, Bool.and_eq_false_iff] at h
    rcases h with h | h
    · have hn : n = 0 := by simpa using h
      simp [Ty.layout, hn]
    · simp [Ty.layout, allocSize_eq_zero (layout_bits_eq_zero t h)]
  | .struct packed ts =>
    simp [Ty.layout, layout_fst_eq_zero ts packed 1 h,
      alignTo_zero (ts.layout_align_pos packed 0 1 one_pos)]
  | .vec n t => cases h
  | .void | .token | .int _ | .fp _ | .ptr | .ptrAs _ => cases h

private theorem layout_fst_eq_zero (ts : Tys) (packed : Bool) (align : ℕ)
    (h : anyScalars (fun _ => true) ts = false) : (ts.layout packed 0 align).1 = 0 := by
  match ts with
  | .nil => rfl
  | .cons t ts =>
    rw [anyScalars, Bool.or_eq_false_iff] at h
    have ha : 0 < (if packed then 1 else t.layout.align) := by
      split_ifs
      · exact one_pos
      · exact t.layout_align_pos
    rw [Tys.layout, alignTo_zero ha, allocSize_eq_zero (layout_bits_eq_zero t h.1)]
    exact layout_fst_eq_zero ts packed _ h.2

end

mutual

private theorem anyScalar_getShadowTy (p : ℕ → Bool) (t : Ty) :
    anyScalar p (getShadowTy t) = anyScalar p t := by
  match t with
  | .array n t => rw [getShadowTy, anyScalar, anyScalar, anyScalar_getShadowTy p t]
  | .struct _ ts => exact anyScalars_getShadowTys p ts
  | .vec n t => rfl
  | .void | .token | .int _ | .fp _ | .ptr | .ptrAs _ => rfl

private theorem anyScalars_getShadowTys (p : ℕ → Bool) (ts : Tys) :
    anyScalars p (getShadowTys ts) = anyScalars p ts := by
  match ts with
  | .nil => rfl
  | .cons t ts =>
    rw [getShadowTys, anyScalars, anyScalars, anyScalar_getShadowTy p t,
      anyScalars_getShadowTys p ts]

end

/-- A shadow with at least one bit has a scalar. -/
private theorem anyScalar_of_bits {t : Ty} (h : 0 < (getShadowTy t).layout.bits) :
    anyScalar (fun _ => true) t = true := by
  by_contra hcon
  rw [Bool.not_eq_true, ← anyScalar_getShadowTy] at hcon
  exact h.ne' (layout_bits_eq_zero _ hcon)

private theorem hasOneBit_or_hasWide {t : Ty} (h : 0 < (getShadowTy t).layout.bits) :
    (hasOneBit t || hasWide t) = true := by
  rw [hasOneBit, hasWide, ← anyScalar_or, ← anyScalar_of_bits h]
  congr 1
  funext w
  by_cases hw : w = 1 <;> simp [hw]

/-! ### What the inserted code decides -/

/-- The entry is not skipped. -/
private def kept (opts : Options) (s : Shadow) : Bool :=
  !(s.isConst && (!opts.checkConstantShadow || isZeroValue s.val))

/-- The entry inserts an unconditional warning. -/
private def loud (opts : Options) (s : Shadow) : Bool :=
  kept opts s && (s.isConst && isKnownNonZero s.val)

/-- The check of the OR of some shadows. -/
private def verdict (opts : Options) (count : ℕ) : List Shadow → Bool
  | [] => false
  | s :: ss => materializeOneCheck opts count (ss.foldl Shadow.or s)

section Loop

variable {opts : Options} {count : ℕ}

private theorem materializeInstructionChecks_of_loud {ss : List Shadow} {acc : Option Shadow}
    (h : ∃ s ∈ ss, loud opts s = true) :
    0 < materializeInstructionChecks opts count ss acc := by
  induction ss generalizing acc with
  | nil =>
    obtain ⟨s, hs, -⟩ := h
    cases hs
  | cons s ss ih =>
    rw [materializeInstructionChecks]
    -- the loop goes on unless the entry itself inserts a warning
    have hrest : loud opts s = false → ∃ s ∈ ss, loud opts s = true := by
      intro hs
      obtain ⟨u, hu, hloud⟩ := h
      rcases List.mem_cons.mp hu with rfl | hu
      · exact absurd hloud (by simp [hs])
      · exact ⟨u, hu, hloud⟩
    split_ifs with hskip hknown hgo
    · exact ih (hrest (by simp only [loud, kept, hskip]; rfl))
    · omega
    · omega
    · rw [Bool.not_eq_true] at hknown
      exact ih (hrest (by rw [loud, hknown, Bool.and_false]))

private theorem materializeInstructionChecks_eq {ss : List Shadow} {acc : Option Shadow}
    (h : ∀ s ∈ ss, loud opts s = false) :
    materializeInstructionChecks opts count ss acc =
      (verdict opts count (acc.toList ++ ss.filter (kept opts))).toNat := by
  induction ss generalizing acc with
  | nil => cases acc <;> simp [materializeInstructionChecks, verdict]
  | cons s ss ih =>
    have hs := h s List.mem_cons_self
    have hss := fun u hu => h u (List.mem_cons_of_mem _ hu)
    rw [materializeInstructionChecks]
    split_ifs with hskip hknown hgo
    · rw [ih hss, List.filter_cons_of_neg (by simp [kept, hskip])]
    · simp [loud, kept, hskip, hknown] at hs
    · simp [loud, kept, hskip, hknown] at hs
    · rw [ih hss, List.filter_cons_of_pos (by simp [kept, hskip])]
      cases acc with
      | none => rfl
      | some a => simp [verdict]

/-- Whether the check calls `__cqmsan_maybe_warning` with a Boolean, which the run-time then
inverts. The shadows are given by their types and whether they are constants. -/
def callsOnBoolean (opts : Options) (count : ℕ) : List (Ty × Bool) → Bool
  | [] => false
  | [(t, isConst)] => !isConst && pastThreshold opts count &&
    decide (typeSizeToSizeIndex t.layout.bits < 4) && decide (scalarWidth t = 1)
  | shape => pastThreshold opts count && !shape.all Prod.snd

/-- The type of a shadow and whether it is a constant. -/
def Shadow.shape (s : Shadow) : Ty × Bool := (s.ty, s.isConst)

private theorem Shadow.toBool_or (a b : Shadow) : (a.or b).toBool = (a.toBool || b.toBool) := by
  rw [Shadow.or, Shadow.toBool, convertToBool, SVal.bool, convertShadowToScalar, scalarWidth,
    scalarToBool]
  cases a.toBool || b.toBool <;> rfl

private theorem Shadow.toBool_foldl_or (ss : List Shadow) (s : Shadow) :
    (ss.foldl Shadow.or s).toBool = (s :: ss).any Shadow.toBool := by
  induction ss generalizing s with
  | nil => simp
  | cons u ss ih =>
    rw [List.foldl_cons, ih]
    simp only [List.any_cons, Shadow.toBool_or, Bool.or_assoc]

private theorem Shadow.isConst_foldl_or (ss : List Shadow) (s : Shadow) :
    (ss.foldl Shadow.or s).isConst = ((s :: ss).map Shadow.shape).all Prod.snd := by
  induction ss generalizing s with
  | nil => simp [Shadow.shape]
  | cons u ss ih =>
    rw [List.foldl_cons, ih]
    simp [Shadow.shape, Shadow.or, Bool.and_assoc]

private theorem Shadow.ty_foldl_or (ss : List Shadow) (s u : Shadow) :
    ((u :: ss).foldl Shadow.or s).ty = .int 1 := by
  induction ss generalizing s u with
  | nil => rfl
  | cons v ss ih => exact ih (s.or u) v

/-- A check by a call reads the scalar the other way round if it is a Boolean. -/
private theorem materializeOneCheck_eq (s : Shadow) :
    materializeOneCheck opts count s =
      ((instrumentWithCalls opts count s && decide (typeSizeToSizeIndex s.ty.layout.bits < 4) &&
        decide (scalarWidth s.ty = 1)) != s.toBool) := by
  rw [materializeOneCheck, Shadow.toBool, convertToBool, scalarToBool, maybeWarningTriggered]
  cases instrumentWithCalls opts count s && decide (typeSizeToSizeIndex s.ty.layout.bits < 4) with
  | false => simp
  | true =>
    by_cases hw : scalarWidth s.ty = 1
    · by_cases hn : convertShadowToScalar s.ty s.val = 0 <;> simp [hw, hn]
    · simp [hw]

private theorem verdict_eq (ss : List Shadow) :
    verdict opts count ss =
      (callsOnBoolean opts count (ss.map Shadow.shape) != ss.any Shadow.toBool) := by
  match ss with
  | [] => rfl
  | [s] =>
    rw [verdict, List.foldl_nil, materializeOneCheck_eq]
    simp [callsOnBoolean, Shadow.shape, instrumentWithCalls]
  | s :: u :: ss =>
    have hsize : typeSizeToSizeIndex (Ty.int 1).layout.bits < 4 := by decide
    rw [verdict, materializeOneCheck_eq, Shadow.toBool_foldl_or, instrumentWithCalls,
      Shadow.isConst_foldl_or, Shadow.ty_foldl_or, decide_eq_true hsize, Bool.and_true,
      decide_eq_true (by rfl : scalarWidth (.int 1) = 1), Bool.and_true, Bool.and_comm]
    rfl

end Loop

/-! ### Consistent checks -/

/-- A value whose shadow is checked: its type, and whether its shadow is a constant. -/
structure Operand where
  ty : Ty
  isConst : Bool

/-- The shadow of a clean value. -/
def Operand.clean (e : Operand) : Shadow := ⟨getShadowTy e.ty, e.isConst, getCleanShadow e.ty⟩

/-- The shadow of a poisoned value. -/
def Operand.poisoned (e : Operand) : Shadow :=
  ⟨getShadowTy e.ty, e.isConst, getPoisonedShadow e.ty⟩

/-- The type of the shadow and whether it is a constant. -/
def Operand.shape (e : Operand) : Ty × Bool := (getShadowTy e.ty, e.isConst)

/-- The value has a type of LLVM whose shadow has at least one bit. -/
def Operand.Valid (e : Operand) : Prop :=
  validTy e.ty = true ∧ 0 < (getShadowTy e.ty).layout.bits

/-- A check of the operands warns iff one of them is poisoned: it is silent if all are clean, and
warns if one is poisoned and the others are clean. -/
structure Consistent (opts : Options) (count : ℕ) (es : List Operand) : Prop where
  clean : materializeInstructionChecks opts count (es.map Operand.clean) none = 0
  poisoned : ∀ pre e post, es = pre ++ e :: post →
    0 < materializeInstructionChecks opts count
      (pre.map Operand.clean ++ e.poisoned :: post.map Operand.clean) none

/-- The shadow of the type is an array or a struct. -/
def isAggregate : Ty → Bool
  | .array _ _ | .struct _ _ => true
  | _ => false

section Operands

variable {opts : Options} {count : ℕ} {e : Operand}

private theorem Operand.toBool_clean (h : e.Valid) : e.clean.toBool = hasOneBit e.ty :=
  convertToBool_getCleanShadow h.1

private theorem Operand.toBool_poisoned (h : e.Valid) : e.poisoned.toBool = hasWide e.ty :=
  convertToBool_getPoisonedShadow h.1

private theorem isZeroValue_getCleanShadow (h : e.Valid) :
    isZeroValue (getCleanShadow e.ty) = false := by
  have hany := anyBit_fill true e.ty h.1
  rw [anyScalar_of_bits h.2] at hany
  simp only [isZeroValue, getCleanShadow]
  exact congrArg (!·) hany

private theorem isZeroValue_getPoisonedShadow (h : e.Valid) :
    isZeroValue (getPoisonedShadow e.ty) = true :=
  congrArg (!·) (anyBit_fill false e.ty h.1)

private theorem isKnownNonZero_getCleanShadow {t : Ty} (h : validTy t = true) :
    isKnownNonZero (getCleanShadow t) = !isAggregate t := by
  cases t with
  | void | token => cases h
  | int w | fp k | ptr | ptrAs s =>
    have hw := two_pow_sub_one_ne_zero (layout_bits_pos h)
    exact decide_eq_true hw
  | vec n t =>
    simp only [validTy, Bool.and_eq_true] at h
    have hw := two_pow_sub_one_ne_zero (layout_bits_pos h.2)
    simp [getCleanShadow, getShadowTy, SVal.ones, isKnownNonZero, isAggregate, Ty.layout, hw]
  | array n t | struct packed ts => rfl

/-- The shadow of the clean value takes part in the OR. -/
def Operand.Joined (opts : Options) (e : Operand) : Prop :=
  e.isConst = true → opts.checkConstantShadow = true ∧ isAggregate e.ty = true

private theorem Operand.joined_iff (h : e.Valid) :
    e.Joined opts ↔ kept opts e.clean = true ∧ loud opts e.clean = false := by
  have hzero := isZeroValue_getCleanShadow h
  have hknown := isKnownNonZero_getCleanShadow h.1
  rw [Operand.Joined, loud, kept, Operand.clean, hzero, hknown]
  cases e.isConst <;> cases opts.checkConstantShadow <;> cases isAggregate e.ty <;> simp

private theorem kept_poisoned (h : e.Valid) : kept opts e.poisoned = !e.isConst := by
  have hzero := isZeroValue_getPoisonedShadow h
  simp [kept, Operand.poisoned, hzero]

private theorem loud_poisoned (h : e.Valid) : loud opts e.poisoned = false := by
  rw [loud, kept_poisoned h, Operand.poisoned]
  cases e.isConst <;> rfl

end Operands

section Combine

variable {opts : Options} {count : ℕ} {es pre post : List Operand} {e : Operand}

private theorem any_clean (hes : ∀ e ∈ es, e.Valid) :
    (es.map Operand.clean).any Shadow.toBool = es.any (hasOneBit ·.ty) := by
  induction es with
  | nil => rfl
  | cons e es ih =>
    simp only [List.map_cons, List.any_cons, Operand.toBool_clean (hes e List.mem_cons_self),
      ih fun u hu => hes u (List.mem_cons_of_mem _ hu)]

private theorem map_shape_clean :
    (es.map Operand.clean).map Shadow.shape = es.map Operand.shape := by
  rw [List.map_map]
  rfl

private theorem filter_kept_clean (hes : ∀ e ∈ es, e.Valid) (hj : ∀ e ∈ es, e.Joined opts) :
    (es.map Operand.clean).filter (kept opts) = es.map Operand.clean := by
  rw [List.filter_eq_self]
  intro s hs
  obtain ⟨e, he, rfl⟩ := List.mem_map.mp hs
  exact ((Operand.joined_iff (hes e he)).mp (hj e he)).1

private theorem loud_clean (hes : ∀ e ∈ es, e.Valid) (hj : ∀ e ∈ es, e.Joined opts) :
    ∀ s ∈ es.map Operand.clean, loud opts s = false := by
  intro s hs
  obtain ⟨e, he, rfl⟩ := List.mem_map.mp hs
  exact ((Operand.joined_iff (hes e he)).mp (hj e he)).2

/-- The check of clean operands. -/
private theorem warnings_clean (hes : ∀ e ∈ es, e.Valid) (hj : ∀ e ∈ es, e.Joined opts) :
    materializeInstructionChecks opts count (es.map Operand.clean) none =
      (callsOnBoolean opts count (es.map Operand.shape) != es.any (hasOneBit ·.ty)).toNat := by
  rw [materializeInstructionChecks_eq (loud_clean hes hj), Option.toList_none, List.nil_append,
    filter_kept_clean hes hj, verdict_eq, map_shape_clean, any_clean hes]

/-- The check of clean operands around a poisoned one. A poisoned constant is skipped. -/
private theorem warnings_poisoned (hpre : ∀ e ∈ pre, e.Valid) (he : e.Valid)
    (hpost : ∀ e ∈ post, e.Valid) (hjpre : ∀ e ∈ pre, e.Joined opts)
    (hjpost : ∀ e ∈ post, e.Joined opts) :
    materializeInstructionChecks opts count
        (pre.map Operand.clean ++ e.poisoned :: post.map Operand.clean) none =
      (if e.isConst then
        callsOnBoolean opts count ((pre ++ post).map Operand.shape) !=
          (pre ++ post).any (hasOneBit ·.ty)
      else
        callsOnBoolean opts count ((pre ++ e :: post).map Operand.shape) !=
          (pre.any (hasOneBit ·.ty) || (hasWide e.ty || post.any (hasOneBit ·.ty)))).toNat := by
  have hloud : ∀ s ∈ pre.map Operand.clean ++ e.poisoned :: post.map Operand.clean,
      loud opts s = false := by
    intro s hs
    rcases List.mem_append.mp hs with hs | hs
    · exact loud_clean hpre hjpre s hs
    rcases List.mem_cons.mp hs with rfl | hs
    · exact loud_poisoned he
    · exact loud_clean hpost hjpost s hs
  rw [materializeInstructionChecks_eq hloud, Option.toList_none, List.nil_append,
    List.filter_append, filter_kept_clean hpre hjpre, List.filter_cons, kept_poisoned he,
    filter_kept_clean hpost hjpost]
  cases hconst : e.isConst with
  | true =>
    rw [Bool.not_true, if_neg Bool.false_ne_true, if_pos rfl, ← List.map_append, verdict_eq,
      map_shape_clean, any_clean]
    intro u hu
    exact (List.mem_append.mp hu).elim (hpre u) (hpost u)
  | false =>
    rw [Bool.not_false, if_pos rfl, if_neg Bool.false_ne_true, verdict_eq]
    simp only [List.map_append, List.map_cons, map_shape_clean, List.any_append, List.any_cons,
      any_clean hpre, any_clean hpost, Operand.toBool_poisoned he]
    rfl

/-- A consistent check leaves no constant out of its OR: one that is skipped when it is clean is
skipped when it is poisoned. -/
private theorem Consistent.joined (h : Consistent opts count es) (hes : ∀ e ∈ es, e.Valid) :
    ∀ e ∈ es, e.Joined opts := by
  intro e he hconst
  have hquiet : ∀ s ∈ es.map Operand.clean, loud opts s = false := by
    intro s hs
    by_contra hloud
    have hpos : 0 < materializeInstructionChecks opts count (es.map Operand.clean) none :=
      materializeInstructionChecks_of_loud ⟨s, hs, by simpa using hloud⟩
    have hzero := h.clean
    omega
  have hloud := hquiet _ (List.mem_map_of_mem he)
  have hkept : kept opts e.clean = true := by
    by_contra hskip
    obtain ⟨pre, post, rfl⟩ := List.append_of_mem he
    have hpos := h.poisoned pre e post rfl
    have hzero := h.clean
    rw [materializeInstructionChecks_eq hquiet] at hzero
    have hquiet' : ∀ s ∈ pre.map Operand.clean ++ e.poisoned :: post.map Operand.clean,
        loud opts s = false := by
      intro s hs
      rcases List.mem_append.mp hs with hs | hs
      · exact hquiet s (by simp only [List.map_append, List.mem_append]; exact Or.inl hs)
      rcases List.mem_cons.mp hs with rfl | hs
      · exact loud_poisoned (hes e he)
      · refine hquiet s ?_
        simp only [List.map_append, List.map_cons, List.mem_append, List.mem_cons]
        exact Or.inr (Or.inr hs)
    rw [materializeInstructionChecks_eq hquiet'] at hpos
    have hskip' : ¬kept opts e.poisoned = true := by
      rw [kept_poisoned (hes e he), hconst]
      decide
    rw [List.map_append, List.map_cons, List.filter_append, List.filter_cons_of_neg hskip] at hzero
    rw [List.filter_append, List.filter_cons_of_neg hskip'] at hpos
    omega
  exact (Operand.joined_iff (hes e he)).mpr ⟨hkept, hloud⟩ hconst

private theorem toNat_bne_eq_zero {a b : Bool} : (a != b).toNat = 0 ↔ a = b := by
  cases a <;> cases b <;> decide

private theorem toNat_bne_pos {a b : Bool} : 0 < (a != b).toNat ↔ a ≠ b := by
  cases a <;> cases b <;> decide

/-- `Consistent` in terms of the widths of the scalars. -/
private structure Widths (opts : Options) (count : ℕ) (es : List Operand) : Prop where
  joined : ∀ e ∈ es, e.Joined opts
  clean : callsOnBoolean opts count (es.map Operand.shape) = es.any (hasOneBit ·.ty)
  skipped : ∀ pre e post, es = pre ++ e :: post → e.isConst = true →
    callsOnBoolean opts count ((pre ++ post).map Operand.shape) ≠
      (pre ++ post).any (hasOneBit ·.ty)
  computed : ∀ pre e post, es = pre ++ e :: post → e.isConst = false →
    callsOnBoolean opts count (es.map Operand.shape) ≠
      (pre.any (hasOneBit ·.ty) || (hasWide e.ty || post.any (hasOneBit ·.ty)))

private theorem consistent_iff_widths (hes : ∀ e ∈ es, e.Valid) :
    Consistent opts count es ↔ Widths opts count es := by
  have hsplit : ∀ pre e post, es = pre ++ e :: post → (∀ e ∈ es, e.Joined opts) →
      (0 < materializeInstructionChecks opts count
          (pre.map Operand.clean ++ e.poisoned :: post.map Operand.clean) none ↔
        (e.isConst = true → callsOnBoolean opts count ((pre ++ post).map Operand.shape) ≠
          (pre ++ post).any (hasOneBit ·.ty)) ∧
        (e.isConst = false → callsOnBoolean opts count (es.map Operand.shape) ≠
          (pre.any (hasOneBit ·.ty) || (hasWide e.ty || post.any (hasOneBit ·.ty))))) := by
    rintro pre e post rfl hj
    have hpre : ∀ u ∈ pre, u ∈ pre ++ e :: post := fun u hu => List.mem_append_left _ hu
    have hpost : ∀ u ∈ post, u ∈ pre ++ e :: post := fun u hu =>
      List.mem_append_right _ (List.mem_cons_of_mem _ hu)
    rw [warnings_poisoned (fun u hu => hes u (hpre u hu)) (hes e (by simp))
      (fun u hu => hes u (hpost u hu)) (fun u hu => hj u (hpre u hu))
      (fun u hu => hj u (hpost u hu))]
    cases e.isConst <;> simp [toNat_bne_pos]
  constructor
  · intro h
    have hj := h.joined hes
    have hzero := h.clean
    rw [warnings_clean hes hj, toNat_bne_eq_zero] at hzero
    exact ⟨hj, hzero,
      fun pre e post heq => ((hsplit pre e post heq hj).mp (h.poisoned _ _ _ heq)).1,
      fun pre e post heq => ((hsplit pre e post heq hj).mp (h.poisoned _ _ _ heq)).2⟩
  · intro h
    refine ⟨?_, fun pre e post heq => (hsplit pre e post heq h.joined).mpr
      ⟨h.skipped pre e post heq, h.computed pre e post heq⟩⟩
    rw [warnings_clean hes h.joined, toNat_bne_eq_zero]
    exact h.clean

private theorem callsOnBoolean_of_two {shape : List (Ty × Bool)} (h : 2 ≤ shape.length) :
    callsOnBoolean opts count shape = (pastThreshold opts count && !shape.all Prod.snd) := by
  match shape with
  | [] | [_] => simp at h
  | _ :: _ :: _ => rfl

private theorem past_of_callsOnBoolean {shape : List (Ty × Bool)}
    (h : callsOnBoolean opts count shape = true) :
    pastThreshold opts count = true ∧ ∃ x ∈ shape, x.2 = false := by
  match shape with
  | [] => cases h
  | [(t, isConst)] =>
    simp only [callsOnBoolean, Bool.and_eq_true, Bool.not_eq_true'] at h
    exact ⟨h.1.1.2, _, List.mem_singleton_self _, h.1.1.1⟩
  | x :: y :: shape =>
    rw [callsOnBoolean_of_two (by simp), Bool.and_eq_true, Bool.not_eq_true',
      List.all_eq_false] at h
    obtain ⟨hpast, x, hx, hconst⟩ := h
    exact ⟨hpast, x, hx, by simpa using hconst⟩

/-- Of several operands, one of which is computed, the check calls with a Boolean. -/
private theorem callsOnBoolean_of_past (hpast : pastThreshold opts count = true)
    (hlen : 2 ≤ es.length) (he : e ∈ es) (hconst : e.isConst = false) :
    callsOnBoolean opts count (es.map Operand.shape) = true := by
  rw [callsOnBoolean_of_two (by simpa using hlen), hpast, Bool.true_and, Bool.not_eq_true',
    List.all_eq_false]
  exact ⟨e.shape, List.mem_map_of_mem he, by simp [Operand.shape, hconst]⟩

/-- The convention holds for a check of computed shadows: none of them has a scalar of one bit, or,
if the check calls with a Boolean, the check has a single operand, and this has no wide scalar. -/
def ComputedOk (opts : Options) (count : ℕ) (es : List Operand) : Prop :=
  (∀ e ∈ es, e.isConst = false) ∧
    if callsOnBoolean opts count (es.map Operand.shape) then ∃ e, es = [e] ∧ hasWide e.ty = false
    else ∀ e ∈ es, hasOneBit e.ty = false

/-- The convention holds for a check of two shadows by two errors that cancel: `c` is a constant
aggregate without a scalar of one bit, `e` is computed, has no wide scalar and is too large to be
checked by a call alone, and the OR of the two is checked by a call. -/
def CancelOk (opts : Options) (count : ℕ) (es : List Operand) : Prop :=
  ∃ c e, (es = [c, e] ∨ es = [e, c]) ∧ c.isConst = true ∧ opts.checkConstantShadow = true ∧
    isAggregate c.ty = true ∧ hasOneBit c.ty = false ∧ e.isConst = false ∧
    hasWide e.ty = false ∧ pastThreshold opts count = true ∧
    callsOnBoolean opts count [e.shape] = false

/-- A skipped constant would leave a check that calls with a Boolean. -/
private theorem Widths.computedOk (h : Widths opts count es)
    (hcalls : callsOnBoolean opts count (es.map Operand.shape) = false) :
    ComputedOk opts count es := by
  have hnone := h.clean
  rw [hcalls, eq_comm, List.any_eq_false] at hnone
  have hconst : ∀ e ∈ es, e.isConst = false := by
    intro e he
    by_contra hcon
    obtain ⟨pre, post, rfl⟩ := List.append_of_mem he
    have hsub : ∀ u ∈ pre ++ post, u ∈ pre ++ e :: post := by
      intro u hu
      rcases List.mem_append.mp hu with hu | hu
      · exact List.mem_append_left _ hu
      · exact List.mem_append_right _ (List.mem_cons_of_mem _ hu)
    have hany : (pre ++ post).any (hasOneBit ·.ty) = false :=
      List.any_eq_false.mpr fun u hu => hnone u (hsub u hu)
    have hne := h.skipped pre e post rfl (by simpa using hcon)
    rw [hany, Bool.ne_false_iff] at hne
    obtain ⟨hpast, x, hx, hxc⟩ := past_of_callsOnBoolean hne
    obtain ⟨u, hu, rfl⟩ := List.mem_map.mp hx
    have hlen : 2 ≤ (pre ++ e :: post).length := by
      have hpos := List.length_pos_of_mem hu
      simp only [List.length_append, List.length_cons] at hpos ⊢
      omega
    have htrue := callsOnBoolean_of_past hpast hlen (hsub u hu) hxc
    rw [hcalls] at htrue
    exact Bool.false_ne_true htrue
  refine ⟨hconst, ?_⟩
  rw [hcalls, if_neg Bool.false_ne_true]
  exact fun e he => by simpa using hnone e he

/-- Beside the one operand `e` with scalars of one bit there is at most a constant. -/
private theorem Widths.eq_singleton (h : Widths opts count es) {c : Operand}
    (hcalls : callsOnBoolean opts count (es.map Operand.shape) = true)
    (heq : es = pre ++ c :: post) (he : e ∈ pre ++ post) (hec : e.isConst = false)
    (hone : hasOneBit e.ty = true) :
    c.isConst = true ∧ pre ++ post = [e] ∧
      callsOnBoolean opts count ((pre ++ post).map Operand.shape) = false := by
  have hany : (pre ++ post).any (hasOneBit ·.ty) = true := List.any_eq_true.mpr ⟨e, he, hone⟩
  have hconst : c.isConst = true := by
    by_contra hcon
    have hne := h.computed pre c post heq (by simpa using hcon)
    rw [hcalls] at hne
    rw [List.any_append] at hany
    cases hw : hasWide c.ty <;> cases hp : pre.any (hasOneBit ·.ty) <;> simp_all
  have hne := h.skipped pre c post heq hconst
  rw [hany, ne_eq, Bool.not_eq_true] at hne
  refine ⟨hconst, ?_, hne⟩
  by_contra hsingle
  have hlen : 2 ≤ (pre ++ post).length := by
    by_contra hlt
    have hpos := List.length_pos_of_mem he
    obtain ⟨u, hu⟩ := List.length_eq_one_iff.mp (show (pre ++ post).length = 1 by omega)
    rw [hu] at he hsingle
    exact hsingle (by rw [List.mem_singleton.mp he])
  have htrue := callsOnBoolean_of_past (past_of_callsOnBoolean hcalls).1 hlen he hec
  rw [hne] at htrue
  exact Bool.false_ne_true htrue

private theorem Widths.ok_of_calls (h : Widths opts count es)
    (hcalls : callsOnBoolean opts count (es.map Operand.shape) = true) :
    ComputedOk opts count es ∨ CancelOk opts count es := by
  obtain ⟨hpast, x, hx, hec⟩ := past_of_callsOnBoolean hcalls
  obtain ⟨e, he, rfl⟩ := List.mem_map.mp hx
  obtain ⟨pre, post, rfl⟩ := List.append_of_mem he
  have hne := h.computed pre e post rfl hec
  rw [hcalls, ne_comm, ne_eq, Bool.not_eq_true, Bool.or_eq_false_iff, Bool.or_eq_false_iff] at hne
  obtain ⟨hpre, hwide, hpost⟩ := hne
  have hone : hasOneBit e.ty = true := by
    have hclean := h.clean
    rw [hcalls, List.any_append, List.any_cons, hpre, hpost] at hclean
    simpa using hclean.symm
  rw [List.any_eq_false] at hpre hpost
  cases post with
  | cons c post =>
    have heq : pre ++ e :: c :: post = (pre ++ [e]) ++ c :: post := by simp
    obtain ⟨hconst, hsingle, hcall⟩ := h.eq_singleton hcalls heq (by simp) hec hone
    obtain ⟨hck, hagg⟩ := h.joined c (by simp) hconst
    have hlen := congrArg List.length hsingle
    simp only [List.length_append, List.length_cons, List.length_nil] at hlen
    obtain rfl : pre = [] := List.length_eq_zero_iff.mp (by omega)
    obtain rfl : post = [] := List.length_eq_zero_iff.mp (by omega)
    exact Or.inr ⟨c, e, Or.inr rfl, hconst, hck, hagg, by simpa using hpost c List.mem_cons_self,
      hec, hwide, hpast, hcall⟩
  | nil =>
    cases pre with
    | nil =>
      refine Or.inl ⟨fun u hu => ?_, ?_⟩
      · rw [List.mem_singleton.mp hu]
        exact hec
      · rw [hcalls, if_pos rfl]
        exact ⟨e, rfl, hwide⟩
    | cons c pre =>
      have heq : c :: pre ++ [e] = [] ++ c :: (pre ++ [e]) := rfl
      obtain ⟨hconst, hsingle, hcall⟩ := h.eq_singleton hcalls heq (by simp) hec hone
      obtain ⟨hck, hagg⟩ := h.joined c (by simp) hconst
      have hlen := congrArg List.length hsingle
      simp only [List.nil_append, List.length_append, List.length_cons, List.length_nil] at hlen
      obtain rfl : pre = [] := List.length_eq_zero_iff.mp (by omega)
      exact Or.inr ⟨c, e, Or.inl rfl, hconst, hck, hagg, by simpa using hpre c List.mem_cons_self,
        hec, hwide, hpast, hcall⟩

private theorem Operand.Valid.hasOneBit (h : e.Valid) (hw : hasWide e.ty = false) :
    hasOneBit e.ty = true := by
  have hor := hasOneBit_or_hasWide h.2
  rwa [hw, Bool.or_false] at hor

private theorem Operand.Valid.hasWide (h : e.Valid) (ho : Flip.hasOneBit e.ty = false) :
    hasWide e.ty = true := by
  have hor := hasOneBit_or_hasWide h.2
  rwa [ho, Bool.false_or] at hor

private theorem ComputedOk.widths (h : ComputedOk opts count es) (hes : ∀ e ∈ es, e.Valid) :
    Widths opts count es := by
  obtain ⟨hconst, h⟩ := h
  have hjoined : ∀ e ∈ es, e.Joined opts := fun e he htrue => by
    rw [hconst e he] at htrue
    cases htrue
  have hskip : ∀ pre e post, es = pre ++ e :: post → e.isConst ≠ true := by
    rintro pre e post rfl
    rw [hconst e (by simp)]
    exact Bool.false_ne_true
  cases hcalls : callsOnBoolean opts count (es.map Operand.shape) with
  | true =>
    rw [hcalls, if_pos rfl] at h
    obtain ⟨e, rfl, hwide⟩ := h
    refine ⟨hjoined, ?_, fun pre e post heq htrue => absurd htrue (hskip pre e post heq), ?_⟩
    · rw [hcalls]
      simp [(hes e (by simp)).hasOneBit hwide]
    · intro pre u post heq _
      obtain ⟨rfl, rfl, rfl⟩ : pre = [] ∧ u = e ∧ post = [] := by
        cases pre with
        | nil => simpa [eq_comm] using heq
        | cons x pre => simp at heq
      rw [hcalls, hwide]
      decide
  | false =>
    rw [hcalls, if_neg Bool.false_ne_true] at h
    refine ⟨hjoined, ?_, fun pre e post heq htrue => absurd htrue (hskip pre e post heq), ?_⟩
    · rw [hcalls, eq_comm, List.any_eq_false]
      exact fun e he => by simpa using h e he
    · rintro pre e post rfl _
      rw [hcalls, (hes e (by simp)).hasWide (h e (by simp))]
      simp

private theorem CancelOk.widths (h : CancelOk opts count es) (hes : ∀ e ∈ es, e.Valid) :
    Widths opts count es := by
  obtain ⟨c, e, heq, hc, hck, hagg, hcone, hec, hwide, hpast, hcall⟩ := h
  have hmem : e ∈ es := by rcases heq with rfl | rfl <;> simp
  have hlen : 2 ≤ es.length := by rcases heq with rfl | rfl <;> simp
  have hone := (hes e hmem).hasOneBit hwide
  have hcalls := callsOnBoolean_of_past hpast hlen hmem hec
  -- the two ways to split each of the two lists
  have hsplit : ∀ {pre u post}, es = pre ++ u :: post →
      u = c ∧ pre ++ post = [e] ∨ u = e ∧ pre ++ post = [c] := by
    intro pre u post hes
    rcases heq with rfl | rfl <;>
    · match pre with
      | [] => simp_all
      | [x] => simp_all
      | x :: y :: pre => simp at hes
  refine ⟨?_, ?_, ?_, ?_⟩
  · intro u hu huc
    rcases heq with rfl | rfl <;> simp at hu <;> rcases hu with rfl | rfl <;> simp_all
  · rw [hcalls]
    exact (List.any_eq_true.mpr ⟨e, hmem, hone⟩).symm
  · intro pre u post hsp huc
    rcases hsplit hsp with ⟨rfl, hrest⟩ | ⟨rfl, hrest⟩
    · rw [hrest, List.map_singleton, hcall]
      simp [hone]
    · rw [hec] at huc
      cases huc
  · intro pre u post hsp huc
    rcases hsplit hsp with ⟨rfl, hrest⟩ | ⟨rfl, hrest⟩
    · rw [hc] at huc
      cases huc
    · have hany : (pre.any (hasOneBit ·.ty) || post.any (hasOneBit ·.ty)) = false := by
        rw [← List.any_append, hrest]
        simp [hcone]
      rw [Bool.or_eq_false_iff] at hany
      rw [hcalls, hwide, hany.1, hany.2]
      decide

end Combine

/-- In the flipped build a check warns exactly on a poisoned operand iff its operands are computed
and none has a scalar of one bit, up to the calls that invert a Boolean. -/
theorem consistent_iff (opts : Options) (count : ℕ) (es : List Operand)
    (hes : ∀ e ∈ es, e.Valid) :
    Consistent opts count es ↔ ComputedOk opts count es ∨ CancelOk opts count es := by
  rw [consistent_iff_widths hes]
  constructor
  · intro h
    cases hcalls : callsOnBoolean opts count (es.map Operand.shape) with
    | false => exact Or.inl (h.computedOk hcalls)
    | true => exact h.ok_of_calls hcalls
  · rintro (h | h)
    · exact h.widths hes
    · exact h.widths hes

/-- A single computed shadow of 32 bits. -/
theorem consistent_i32 : Consistent {} 0 [⟨.int 32, false⟩] := by
  refine (consistent_iff {} 0 [⟨.int 32, false⟩] ?_).mpr (Or.inl ?_)
  · intro e he
    rw [List.mem_singleton.mp he]
    exact ⟨by decide, by decide⟩
  · refine ⟨by simp, ?_⟩
    rw [if_neg (by decide)]
    intro e he
    rw [List.mem_singleton.mp he]
    decide

/-- A load of an initialized `i1`: its shadow is all ones, and the check warns. -/
theorem not_consistent_i1 :
    Operand.Valid ⟨.int 1, false⟩ ∧
      materializeInstructionChecks {} 0 [Operand.clean ⟨.int 1, false⟩] none = 1 ∧
      materializeInstructionChecks {} 0 [Operand.poisoned ⟨.int 1, false⟩] none = 0 ∧
      ¬Consistent {} 0 [⟨.int 1, false⟩] := by
  refine ⟨⟨by decide, by decide⟩, by decide, by decide, fun h => ?_⟩
  exact absurd h.clean (by decide)

end CQMSan.Flip
