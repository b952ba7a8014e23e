import CQMSan.Pass.ShadowSorts
import CQMSan.Pass.UndefSlice

/-!
# Taint

The meaning of the shadow of a slice value. A value of the slice is *tainted* when an `undef`
reached it: through the arm of a PHI or a select that was taken, through the condition of a select,
or through any operand of another instruction. Values outside the slice are not tainted, they are
checked where they are loaded. `taintOf` says this without looking at shadows.

The code of `handleUndefSliceInst` computes a shadow that is non-zero iff the value is tainted, when
the shadows of the operands in the slice are, unless the condition of a select is the constant
`undef`, which is not looked at.
-/

namespace CQMSan

/-! ### Taint -/

/-- The taint of the values of the slice computed last, by their names; `none` before the first
time. -/
abbrev Taint := ℕ → Option Bool

/-- The taint of an operand. -/
def taintVal (slice : List Val) (τ : Taint) (v : Val) : Bool :=
  match v with
  | .undef _ => true
  | .inst n t => decide (.inst n t ∈ slice) && (τ n).getD false
  | _ => false

/-- The arm of a select that is taken. -/
def chosenArm (ρ : Env) (cond a b : Val) : Val := if (ρ.val cond).anyBit then a else b

/-- The taint of the result of an instruction that is not a PHI. -/
def taintOf (slice : List Val) (τ : Taint) (ρ : Env) (i : Inst) : Bool :=
  match i.op, i.args with
  | .select, [cond, a, b] => taintVal slice τ cond || taintVal slice τ (chosenArm ρ cond a b)
  | _, args => args.any (taintVal slice τ)

theorem eq_undef_of_isUndef {v : Val} (h : v.isUndef = true) : ∃ t, v = .undef t := by
  cases v with
  | undef t => exact ⟨t, rfl⟩
  | _ => cases h

theorem taintVal_eq_false {slice : List Val} {τ : Taint} {v : Val} (hundef : ¬ v.isUndef = true)
    (hmem : v ∉ slice) : taintVal slice τ v = false := by
  cases v with
  | undef t => exact absurd rfl hundef
  | inst n t => rw [taintVal, decide_eq_false hmem, Bool.false_and]
  | _ => rfl

/-- `sv` is a shadow for values of type `t`, and it is non-zero iff `b`. -/
structure IsTaint (ρ : Env) (t : Ty) (sv : Val) (b : Bool) : Prop where
  ty : sv.ty = getShadowTy t
  hasTy : HasTy (getShadowTy t) (ρ.val sv)
  anyBit : (ρ.val sv).anyBit = b

theorem IsTaint.shadowVal {ρ : Env} {t : Ty} {sv : Val} {b : Bool} (h : IsTaint ρ t sv b) :
    ShadowVal ρ sv := by
  rw [ShadowVal, h.ty]
  exact ⟨getShadowTy_isShadow t, h.hasTy⟩

/-! ### Types of operands -/

/-- Scalars and vectors of scalars. -/
def Ty.isScalarOrVec : Ty → Bool
  | .vec _ t => isUndefSliceScalar t
  | t => isUndefSliceScalar t

/-- What the verifier of the IR checks of the types of a transfer instruction with a scalar
result. -/
structure Inst.TransferTyped (i : Inst) : Prop where
  result : 0 < i.ty.layout.bits
  args : ∀ v ∈ i.args, v.ty.isScalarOrVec = true ∧ 0 < v.ty.layout.bits
  select : i.op = .select →
    ∃ cond a b, i.args = [cond, a, b] ∧ cond.ty = .int 1 ∧ a.ty = i.ty ∧ b.ty = i.ty

section Types

variable {t : Ty} {ρ : Env}

/-- The shadow type of a scalar is an integer with as many bits. -/
theorem getShadowTy_scalar (h : isUndefSliceScalar t = true) :
    getShadowTy t = .int t.layout.bits := by
  cases t <;> first | rfl | cases h

theorem isScalarOrVec_of_scalar (h : isUndefSliceScalar t = true) : t.isScalarOrVec = true := by
  cases t <;> first | rfl | cases h

private theorem two_pow_sub_one_ne_zero {w : ℕ} (hw : 0 < w) : 2 ^ w - 1 ≠ 0 := by
  have : 2 ≤ 2 ^ w := by
    calc 2 = 2 ^ 1 := (pow_one 2).symm
      _ ≤ 2 ^ w := Nat.pow_le_pow_right (by norm_num) hw
  omega

/-- The poisoned shadow has all bits set. -/
theorem isTaint_ones (ht : t.isScalarOrVec = true) (hbits : 0 < t.layout.bits) :
    IsTaint ρ t (getPoisonedShadow t) true := by
  rw [getPoisonedShadow]
  have hpos : ∀ w : ℕ, 2 ^ w - 1 < 2 ^ w := fun w => Nat.sub_lt (by positivity) one_pos
  by_cases hs : isUndefSliceScalar t = true
  · rw [getShadowTy_scalar hs]
    refine ⟨(getShadowTy_scalar hs).symm, ?_, ?_⟩
    · rw [getShadowTy_scalar hs]
      exact ⟨rfl, hpos _⟩
    · simp [Env.val, SVal.ones, SVal.anyBit, two_pow_sub_one_ne_zero hbits]
  · cases t with
    | vec n t =>
      have hn : n ≠ 0 ∧ 0 < t.layout.bits := by
        simp only [Ty.layout] at hbits
        exact ⟨by rintro rfl; simp at hbits, Nat.pos_of_mul_pos_left hbits⟩
      refine ⟨rfl, ⟨rfl, by simp, ?_⟩, ?_⟩
      · intro x hx
        rw [List.eq_of_mem_replicate hx]
        exact hpos _
      · simp [Env.val, getShadowTy, SVal.ones, SVal.anyBit, Ty.layout, hn.1,
          two_pow_sub_one_ne_zero hn.2]
    | _ => exact absurd ht (by simpa [Ty.isScalarOrVec] using hs)

/-- The clean shadow of a scalar. -/
theorem isTaint_zero (ht : isUndefSliceScalar t = true) :
    IsTaint ρ t (getCleanShadow t) false := by
  rw [getCleanShadow]
  have hty := getShadowTy_scalar ht
  refine ⟨rfl, ?_, ?_⟩
  · rw [hty]
    exact ⟨rfl, by simp⟩
  · rw [hty]
    simp [Env.val, SVal.zero, SVal.anyBit]

end Types

/-! ### The handler of the slice -/

section Handler

variable {ρ : Env} {si : Site} {i : Inst} {n : ℕ}

/-- The operand is looked at by `handleUndefSliceInst`. -/
def Site.counts (si : Site) (v : Val) : Bool := (v.isUndef || si.inSlice v) && v.ty.isSized

/-- The OR of two shadows of a scalar. -/
theorem IsTaint.or {t : Ty} {u v : Val} {a b : Bool} (ht : isUndefSliceScalar t = true)
    (hu : IsTaint ρ t u a) (hv : IsTaint ρ t v b)
    (hsat : Sat ρ (emit .or [u, v] (getShadowTy t) n).1) :
    IsTaint ρ t (emit .or [u, v] (getShadowTy t) n).2 (a || b) := by
  have hty := getShadowTy_scalar ht
  have hval := sat_emit rfl hsat
  obtain ⟨x, hx, hxlt⟩ := (hty ▸ hu.hasTy).int_inv
  obtain ⟨y, hy, hylt⟩ := (hty ▸ hv.hasTy).int_inv
  rw [List.map_cons, List.map_singleton, hx, hy] at hval
  refine ⟨rfl, ?_, ?_⟩
  · rw [hval, hty]
    exact ⟨rfl, Nat.or_lt_two_pow hxlt hylt⟩
  · rw [hval, ← hu.anyBit, ← hv.anyBit, hx, hy]
    simp only [evalSh, SVal.anyBit]
    rw [Bool.eq_iff_iff, Bool.or_eq_true, decide_eq_true_iff, decide_eq_true_iff,
      decide_eq_true_iff, ne_eq, Nat.or_eq_zero_iff, not_and_or]

end Handler

end CQMSan
