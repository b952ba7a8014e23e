import CQMSan.Pass.Order

/-!
# The condition of a check

A check branches on a Boolean that is computed from one or several shadows. This file says what
the Boolean is: for every shadow type the conversions give well-typed code (`Emit.Typed`) and the
right truth value, and the check of a list of shadows of mixed types reports iff some bit of some
of them is set, for the checks at an instruction (`materializeInstructionChecks`) and for the
coalesced ones (`coalescedOr`), whether the ORs stand at the check or right after the definitions
of the shadows.

A constant shadow that is known to be non-zero is not part of the condition of a check at an
instruction: an unconditional warning is emitted for it (`not_orChecks_condition`).
-/

namespace CQMSan

/-! ### Well-typed code -/

mutual

/-- Shadow types: integers, vectors of integers, and aggregates of shadow types. -/
def Ty.isShadow : Ty → Bool
  | .int _ => true
  | .vec _ t => match t with
    | .int _ => true
    | _ => false
  | .array _ t => t.isShadow
  | .struct _ ts => ts.isShadow
  | _ => false

/-- All fields have shadow types. -/
def Tys.isShadow : Tys → Bool
  | .nil => true
  | .cons t ts => t.isShadow && ts.isShadow

end

/-- The type of the field `i`. -/
def Tys.get? : Tys → ℕ → Option Ty
  | .nil, _ => none
  | .cons t _, 0 => some t
  | .cons _ ts, i + 1 => ts.get? i

/-- The type of the element `i` of an aggregate. -/
def Ty.elt? : Ty → ℕ → Option Ty
  | .array n t, i => if i < n then some t else none
  | .struct _ ts, i => ts.get? i
  | _, _ => none

/-- The typing rules of the instructions that collapse shadows. -/
def Inst.Typed (x : Inst) : Prop :=
  match x.op, x.args with
  | .sh .or, [a, b] => (∃ w, x.ty = .int w) ∧ a.ty = x.ty ∧ b.ty = x.ty
  | .sh .icmpNe, [a] => x.ty = .int 1 ∧ ∃ w, a.ty = .int w
  | .sh .bitcast, [a] => ∃ n w, a.ty = .vec n (.int w) ∧ x.ty = .int (n * w)
  | .sh .orReduce, [a] => ∃ n w, a.ty = .vec n (.int w) ∧ x.ty = .int w
  | .sh (.extractValue i), [a] => a.ty.elt? i = some x.ty
  | .sh .zext, [a] => ∃ w w', a.ty = .int w ∧ x.ty = .int w' ∧ w < w'
  | .sh .or, _ | .sh .icmpNe, _ | .sh .bitcast, _ | .sh .orReduce, _ | .sh (.extractValue _), _
  | .sh .zext, _ => False
  | _, _ => True

/-- The emission is well typed and its result has the type `ty`. -/
def Emit.Typed (m : Emit Val) (ty : Ty) : Prop :=
  ∀ n, (∀ x ∈ (m n).1, x.Typed) ∧ (m n).2.ty = ty

section Typed

variable {ty ty' : Ty}

theorem Emit.typed_pure {v : Val} (h : v.ty = ty) : Emit.Typed (pure v) ty := fun _ =>
  ⟨by simp, h⟩

theorem Emit.typed_emit {o : ShOp} {args : List Val}
    (h : ∀ n, ({ name := n, op := .sh o, args := args, ty := ty } : Inst).Typed) :
    Emit.Typed (emit o args ty) ty := fun n => by
  refine ⟨fun x hx => ?_, rfl⟩
  rw [emit_run, List.mem_singleton] at hx
  rw [hx]
  exact h n

theorem Emit.Typed.bind {m : Emit Val} {k : Val → Emit Val} (hm : Emit.Typed m ty)
    (hk : ∀ v, v.ty = ty → Emit.Typed (k v) ty') : Emit.Typed (m >>= k) ty' := fun n => by
  obtain ⟨hx, hty⟩ := hm n
  obtain ⟨hx', hty'⟩ := hk _ hty (n + (m n).1.length)
  rw [Emit.bind_run]
  refine ⟨fun x h => ?_, hty'⟩
  rcases List.mem_append.mp h with h | h
  · exact hx x h
  · exact hx' x h

theorem Emit.typed_scalarToBool {v : Val} {w : ℕ} (h : v.ty = .int w) :
    Emit.Typed (scalarToBool v) (.int 1) := by
  rw [scalarToBool]
  split_ifs with h1
  · exact Emit.typed_pure h1
  · exact Emit.typed_emit fun _ => ⟨rfl, w, h⟩

theorem Emit.typed_or {a b : Val} {w : ℕ} (ha : a.ty = .int w) (hb : b.ty = .int w) :
    Emit.Typed (emit .or [a, b] (.int w)) (.int w) :=
  Emit.typed_emit fun _ => ⟨⟨w, rfl⟩, ha, hb⟩

private theorem typed_collapseArrayLoop {toScalar : Val → Emit Val} {elt : Ty} {v : Val}
    {len w : ℕ} (hv : v.ty = .array len elt)
    (hts : ∀ u, u.ty = elt → Emit.Typed (toScalar u) (.int w)) :
    ∀ (k idx : ℕ) (agg : Val), idx + k = len → agg.ty = .int w →
      Emit.Typed (collapseArrayLoop toScalar elt v k idx agg) (.int w) := by
  intro k
  induction k with
  | zero => exact fun _ _ _ hagg => Emit.typed_pure hagg
  | succ k ih =>
    intro idx agg hlen hagg
    have hidx : v.ty.elt? idx = some elt := by
      rw [hv, Ty.elt?, if_pos (by omega)]
    refine Emit.Typed.bind (Emit.typed_emit fun _ => hidx) fun item hitem => ?_
    refine (hts item hitem).bind fun inner hinner => ?_
    rw [hagg]
    exact (Emit.typed_or hagg hinner).bind fun agg' hagg' => ih (idx + 1) agg' (by omega) hagg'

mutual

/-- The scalar of a shadow is a well-typed integer. -/
theorem Emit.typed_convertShadowToScalar (t : Ty) (v : Val) (h : t.isShadow = true)
    (hv : v.ty = t) : Emit.Typed (convertShadowToScalar t v) (.int (scalarWidth t)) := by
  match t with
  | .void | .token | .fp _ | .ptr | .ptrAs _ => cases h
  | .int w => exact Emit.typed_pure hv
  | .vec k t =>
    match t with
    | .int w => exact Emit.typed_emit fun _ => ⟨k, w, hv, rfl⟩
    | .void | .token | .fp _ | .ptr | .ptrAs _ | .vec _ _ | .array _ _ | .struct _ _ => cases h
  | .array 0 t => exact Emit.typed_pure rfl
  | .array (k + 1) t =>
    have ht : t.isShadow = true := by simpa [Ty.isShadow] using h
    have h0 : v.ty.elt? 0 = some t := by rw [hv, Ty.elt?, if_pos (by omega)]
    refine Emit.Typed.bind (Emit.typed_emit fun _ => h0) fun first hfirst => ?_
    refine (Emit.typed_convertShadowToScalar t first ht hfirst).bind fun agg hagg => ?_
    exact typed_collapseArrayLoop hv
      (fun u hu => Emit.typed_convertShadowToScalar t u ht hu) k 1 agg (by omega) hagg
  | .struct packed ts =>
    exact Emit.typed_collapseStructShadow ts 0 v falseVal (by simpa [Ty.isShadow] using h)
      (fun i => by rw [hv, Ty.elt?, Nat.zero_add]) rfl

theorem Emit.typed_collapseStructShadow (ts : Tys) (idx : ℕ) (v agg : Val)
    (h : ts.isShadow = true) (hv : ∀ i, v.ty.elt? (idx + i) = ts.get? i)
    (hagg : agg.ty = .int 1) : Emit.Typed (collapseStructShadow ts idx v agg) (.int 1) := by
  match ts with
  | .nil => exact Emit.typed_pure hagg
  | .cons t ts =>
    simp only [Tys.isShadow, Bool.and_eq_true] at h
    have hrest : ∀ i, v.ty.elt? (idx + 1 + i) = ts.get? i := fun i => by
      rw [Nat.add_assoc, Nat.add_comm 1 i]
      exact hv (i + 1)
    rw [collapseStructShadow]
    refine Emit.Typed.bind (Emit.typed_emit fun _ => hv 0) fun item hitem => ?_
    refine (Emit.typed_convertShadowToScalar t item h.1 hitem).bind fun scalar hscalar => ?_
    refine (Emit.typed_scalarToBool hscalar).bind fun b hb => ?_
    split_ifs
    · exact Emit.typed_collapseStructShadow ts (idx + 1) v b h.2 hrest hb
    · exact (Emit.typed_or hagg hb).bind fun a ha =>
        Emit.typed_collapseStructShadow ts (idx + 1) v a h.2 hrest ha

end

theorem Emit.typed_convertToBool {v : Val} (h : v.ty.isShadow = true) :
    Emit.Typed (convertToBool v) (.int 1) :=
  (Emit.typed_convertShadowToScalar v.ty v h rfl).bind fun _ hs => Emit.typed_scalarToBool hs

end Typed

/-! ### The OR of shadows -/

/-- `v` is the Boolean `b`. -/
def IsBool (ρ : Env) (v : Val) (b : Bool) : Prop := v.ty = .int 1 ∧ ρ.val v = .bool b

/-- Some bit of some of the shadows is set. -/
def anyPoisoned (ρ : Env) (vs : List Val) : Bool := vs.any fun v => (ρ.val v).anyBit

@[simp] theorem anyPoisoned_nil (ρ : Env) : anyPoisoned ρ [] = false := rfl

@[simp] theorem anyPoisoned_cons (ρ : Env) (v : Val) (vs : List Val) :
    anyPoisoned ρ (v :: vs) = ((ρ.val v).anyBit || anyPoisoned ρ vs) := List.any_cons

theorem anyPoisoned_iff {ρ : Env} {vs : List Val} :
    anyPoisoned ρ vs = true ↔ ∃ v ∈ vs, (ρ.val v).anyBit = true := List.any_eq_true

/-- `v` has a shadow type, and its value has this type. -/
def ShadowVal (ρ : Env) (v : Val) : Prop := v.ty.isShadow = true ∧ HasTy v.ty (ρ.val v)

/-- All of `vs` are shadows. -/
def AllShadows (ρ : Env) (vs : List Val) : Prop := ∀ v ∈ vs, ShadowVal ρ v

section Or

variable {ρ : Env} {n : ℕ}

theorem isBool_convertToBool {v : Val} (hv : ShadowVal ρ v)
    (hsat : Sat ρ (convertToBool v n).1) :
    IsBool ρ (convertToBool v n).2 (ρ.val v).anyBit := convertToBool_sound hv.2 hsat

theorem IsBool.or {a b : Val} {x y : Bool} (ha : IsBool ρ a x) (hb : IsBool ρ b y)
    (hsat : Sat ρ (emit .or [a, b] (.int 1) n).1) :
    IsBool ρ (emit .or [a, b] (.int 1) n).2 (x || y) := by
  refine ⟨rfl, ?_⟩
  rw [sat_emit rfl hsat, List.map_cons, List.map_singleton, ha.2, hb.2]
  cases x <;> cases y <;> rfl

theorem IsBool.shadowVal {v : Val} {b : Bool} (h : IsBool ρ v b) : ShadowVal ρ v := by
  rw [ShadowVal, h.1, h.2]
  cases b <;> simp [SVal.bool, HasTy, Ty.isShadow]

theorem IsBool.anyBit {v : Val} {b : Bool} (h : IsBool ρ v b) : (ρ.val v).anyBit = b := by
  rw [h.2, SVal.anyBit_bool]

/-- On integers and vectors `normalizeShadow` is `convertToBool`. -/
theorem isBool_normalizeShadow {v : Val} (hsh : ShadowVal ρ v)
    (hty : (∃ w, v.ty = .int w) ∨ ∃ k t, v.ty = .vec k t)
    (hsat : Sat ρ (normalizeShadow v n).1) :
    IsBool ρ (normalizeShadow v n).2 (ρ.val v).anyBit := by
  have hv := hsh.2
  rw [normalizeShadow] at hsat ⊢
  rcases hty with ⟨w, hw⟩ | ⟨k, t, ht⟩
  · rw [hw] at hv hsat ⊢
    obtain ⟨x, hx, -⟩ := hv.int_inv
    refine ⟨rfl, ?_⟩
    rw [sat_emit rfl hsat, List.map_singleton, hx]
    rfl
  · rw [ht] at hv hsat ⊢
    obtain ⟨w, xs, rfl, hx, -, -⟩ := hv.vec_inv
    simp only [Emit.bind_run] at hsat ⊢
    obtain ⟨hred, hcmp⟩ := sat_append.mp hsat
    refine ⟨rfl, ?_⟩
    rw [sat_emit rfl hcmp, List.map_singleton, sat_emit rfl hred, List.map_singleton, hx]
    simp only [evalSh, SVal.anyBit]
    congr 1
    have hfold : xs.foldr (· ||| ·) 0 ≠ 0 ↔ ∃ x ∈ xs, x ≠ 0 := by
      clear hx
      induction xs with
      | nil => simp
      | cons x xs ih =>
        rw [List.foldr_cons, ne_eq, Nat.or_eq_zero_iff, not_and_or]
        simp only [List.exists_mem_cons_iff, ← ih, ne_eq]
    rw [Bool.eq_iff_iff, decide_eq_true_iff, hfold]
    simp

theorem isBool_orPair {a b : Val} (ha : ShadowVal ρ a) (hb : ShadowVal ρ b)
    (hsat : Sat ρ (orPair a b n).1) :
    IsBool ρ (orPair a b n).2 ((ρ.val a).anyBit || (ρ.val b).anyBit) := by
  simp only [orPair, Emit.bind_run] at hsat ⊢
  obtain ⟨hx, hsat⟩ := sat_append.mp hsat
  obtain ⟨hy, hor⟩ := sat_append.mp hsat
  exact (isBool_convertToBool ha hx).or (isBool_convertToBool hb hy) hor

/-- **The OR of shadows from an accumulator on.** -/
theorem isBool_orShadows (vs : List Val) {acc : Val} {b : Bool} (hacc : IsBool ρ acc b)
    (hvs : AllShadows ρ vs) (hsat : Sat ρ (orShadows vs acc n).1) :
    IsBool ρ (orShadows vs acc n).2 (b || anyPoisoned ρ vs) := by
  induction vs generalizing acc b n with
  | nil =>
    rw [anyPoisoned_nil, Bool.or_false]
    exact hacc
  | cons v vs ih =>
    simp only [orShadows, Emit.bind_run] at hsat ⊢
    obtain ⟨hconv, hsat⟩ := sat_append.mp hsat
    obtain ⟨hor, hsat⟩ := sat_append.mp hsat
    have hv := isBool_convertToBool (hvs v List.mem_cons_self) hconv
    rw [anyPoisoned_cons, ← Bool.or_assoc]
    exact ih (hacc.or hv hor) (fun u hu => hvs u (List.mem_cons_of_mem _ hu)) hsat

/-- **The OR of a non-empty list of shadows.** -/
theorem isBool_orAllShadows {vs : List Val} (hne : vs ≠ []) (hvs : AllShadows ρ vs)
    (hsat : Sat ρ (orAllShadows vs n).1) :
    IsBool ρ (orAllShadows vs n).2 (anyPoisoned ρ vs) := by
  cases vs with
  | nil => exact absurd rfl hne
  | cons v vs =>
    simp only [orAllShadows, Emit.bind_run] at hsat ⊢
    obtain ⟨hconv, hsat⟩ := sat_append.mp hsat
    exact isBool_orShadows vs (isBool_convertToBool (hvs v List.mem_cons_self) hconv)
      (fun u hu => hvs u (List.mem_cons_of_mem _ hu)) hsat

end Or

/-! ### The checks at an instruction -/

/-- The instruction executes a warning: a call of it, or a check whose operand is non-zero. -/
def Inst.fires (ρ : Env) (x : Inst) : Bool :=
  match x.op with
  | .sh .warning => true
  | .sh (.checkBranch _) | .sh (.maybeWarning _) => anyPoisoned ρ x.args
  | _ => false

/-- Some of the code executes a warning. -/
def Fires (ρ : Env) (xs : List Inst) : Prop := ∃ x ∈ xs, x.fires ρ = true

theorem fires_append {ρ : Env} {xs ys : List Inst} :
    Fires ρ (xs ++ ys) ↔ Fires ρ xs ∨ Fires ρ ys := by
  simp only [Fires, List.mem_append, or_and_right, exists_or]

theorem not_fires_pure {ρ : Env} {xs : List Inst} {n : ℕ} (h : Numbered PureOp n xs) :
    ¬ Fires ρ xs := by
  rintro ⟨x, hx, hfires⟩
  obtain ⟨o, ho, hpure⟩ := h.op hx
  rw [Inst.fires, ho] at hfires
  cases o with
  | warning | checkBranch _ | maybeWarning _ => cases hpure
  | _ => cases hfires

/-- The shadow is looked at: constants are skipped when the option says so. -/
def considered (opts : Options) (v : Val) : Bool := opts.checkConstantShadow || !v.isConstant

section Checks

variable {ρ : Env} {n : ℕ}

theorem Val.avail_univ (v : Val) : v.Avail Set.univ := by cases v <;> trivial

theorem numbered_convertToBool (v : Val) (n : ℕ) : Numbered PureOp n (convertToBool v n).1 :=
  (Emit.ok_convertToBool v.avail_univ n).1

theorem Emit.ok_orPair {A : Set ℕ} {a b : Val} (ha : a.Avail A) (hb : b.Avail A) :
    Emit.Ok PureOp A (orPair a b) := by
  refine (Emit.ok_convertToBool ha).bind fun B x hB hx => ?_
  refine (Emit.ok_convertToBool (hb.mono hB)).bind fun C y hC hy => ?_
  exact Emit.ok_emit rfl (avail_pair (hx.mono hC) hy)

theorem numbered_orPair (a b : Val) (n : ℕ) : Numbered PureOp n (orPair a b n).1 :=
  (Emit.ok_orPair a.avail_univ b.avail_univ n).1

mutual

theorem SVal.anyBit_zero (t : Ty) : (SVal.zero t).anyBit = false := by
  match t with
  | .void | .token | .int _ | .fp _ | .ptr | .ptrAs _ => rfl
  | .vec n t => simp [SVal.zero, SVal.anyBit]
  | .array n t =>
    rw [SVal.zero, SVal.anyBit]
    induction n with
    | zero => rfl
    | succ n ih => rw [List.replicate_succ, SVal.anyBits, ih, SVal.anyBit_zero t, Bool.or_false]
  | .struct _ ts => exact SVal.anyBits_zeros ts

theorem SVal.anyBits_zeros (ts : Tys) : SVal.anyBits (SVal.zeros ts) = false := by
  match ts with
  | .nil => rfl
  | .cons t ts => rw [SVal.zeros, SVal.anyBits, SVal.anyBit_zero t, SVal.anyBits_zeros ts,
      Bool.or_false]

end

theorem anyBit_of_isZeroValue {v : Val} (h : v.isZeroValue = true) :
    (ρ.val v).anyBit = false := by
  cases v with
  | zero t => exact SVal.anyBit_zero t
  | _ => cases h

theorem anyBit_of_isKnownNonZero {v : Val} (h : v.isKnownNonZero = true) :
    (ρ.val v).anyBit = true := by
  cases v with
  | ones t =>
    cases t with
    | int w =>
      have hw : 0 < w := by simpa [Val.isKnownNonZero] using h
      have : 2 ≤ 2 ^ w := Nat.le_self_pow hw.ne' 2
      simp only [Env.val, SVal.ones, SVal.anyBit, ne_eq, decide_not, Bool.not_eq_true',
        decide_eq_false_iff_not]
      omega
    | vec k t =>
      have hkw : 0 < k ∧ 0 < t.layout.bits := by
        simpa [Val.isKnownNonZero, Nat.pos_iff_ne_zero] using h
      have : 2 ≤ 2 ^ t.layout.bits := Nat.le_self_pow hkw.2.ne' 2
      simp only [Env.val, SVal.ones, SVal.anyBit, List.any_eq_true, List.mem_replicate]
      refine ⟨_, ⟨hkw.1.ne', rfl⟩, ?_⟩
      simp only [ne_eq, decide_not, Bool.not_eq_true', decide_eq_false_iff_not]
      omega
    | _ => cases h
  | _ => cases h

/-- **The loop of `materializeInstructionChecks`**: a warning is emitted, or the shadow to check
has a bit set, iff some shadow that is looked at has one. -/
theorem orChecks_sound (opts : Options) (vs : List Val) (acc : Option Val)
    (hacc : AllShadows ρ acc.toList) (hvs : AllShadows ρ vs)
    (hsat : Sat ρ (orChecks opts vs acc n).1) :
    AllShadows ρ (orChecks opts vs acc n).2.toList ∧
      ((Fires ρ (orChecks opts vs acc n).1 ∨
          anyPoisoned ρ (orChecks opts vs acc n).2.toList = true) ↔
        anyPoisoned ρ acc.toList = true ∨
          anyPoisoned ρ (vs.filter (considered opts)) = true) := by
  induction vs generalizing acc n with
  | nil => exact ⟨hacc, by simp [orChecks, Fires]⟩
  | cons v vs ih =>
    have hv := hvs v List.mem_cons_self
    have hvs' : AllShadows ρ vs := fun u hu => hvs u (List.mem_cons_of_mem _ hu)
    rw [orChecks.eq_def] at hsat ⊢
    dsimp only at hsat ⊢
    by_cases hskip : (v.isConstant && (!opts.checkConstantShadow || v.isZeroValue)) = true
    · -- a constant that is zero or not looked at
      rw [if_pos hskip] at hsat ⊢
      obtain ⟨hty, hiff⟩ := ih acc hacc hvs' hsat
      refine ⟨hty, hiff.trans (or_congr_right ?_)⟩
      rw [List.filter_cons]
      split_ifs with hcons
      · have hzero : v.isZeroValue = true := by
          simp only [considered, Bool.and_eq_true, Bool.or_eq_true, Bool.not_eq_true']
            at hskip hcons
          rcases hskip.2 with hopt | hzero
          · rw [hopt, hskip.1] at hcons
            simp at hcons
          · exact hzero
        rw [anyPoisoned_cons, anyBit_of_isZeroValue hzero, Bool.false_or]
      · rfl
    · rw [if_neg hskip] at hsat ⊢
      have hcons : considered opts v = true := by
        simp only [Bool.and_eq_true, Bool.or_eq_true, Bool.not_eq_true', not_and, not_or] at hskip
        rw [considered]
        cases hconst : v.isConstant with
        | false => simp
        | true =>
          have := (hskip hconst).1
          simpa using this
      rw [List.filter_cons, if_pos hcons, anyPoisoned_cons]
      by_cases hknown : (v.isConstant && v.isKnownNonZero) = true
      · -- a constant known to be non-zero: a warning, and without recovery nothing more
        rw [if_pos hknown] at hsat ⊢
        have hbit : (ρ.val v).anyBit = true :=
          anyBit_of_isKnownNonZero (by simp_all : v.isKnownNonZero = true)
        by_cases hkeep : opts.keepGoing = true
        · simp only [if_pos hkeep] at hsat ⊢
          obtain ⟨hty, -⟩ := ih acc hacc hvs' fun x hx => hsat x (List.mem_cons_of_mem _ hx)
          exact ⟨hty, iff_of_true (Or.inl ⟨_, List.mem_cons_self, rfl⟩) (by simp [hbit])⟩
        · simp only [if_neg hkeep] at hsat ⊢
          exact ⟨by simp [AllShadows],
            iff_of_true (Or.inl ⟨_, List.mem_cons_self, rfl⟩) (by simp [hbit])⟩
      · rw [if_neg hknown] at hsat ⊢
        cases acc with
        | none =>
          obtain ⟨hty, hiff⟩ := ih (some v) (by simpa [AllShadows] using hv) hvs' hsat
          refine ⟨hty, hiff.trans ?_⟩
          simp
        | some a =>
          have ha : ShadowVal ρ a := hacc a (by simp)
          obtain ⟨hm, hsat⟩ := sat_append.mp hsat
          have hbool := isBool_orPair ha hv hm
          obtain ⟨hty, hiff⟩ := ih (some _) (by simpa [AllShadows] using hbool.shadowVal) hvs' hsat
          refine ⟨hty, ?_⟩
          rw [fires_append, or_assoc, or_iff_right (not_fires_pure (numbered_orPair a v n)), hiff]
          simp [hbool.anyBit, or_assoc]

theorem IsFlag.anyBit {v : Val} {w : ℕ} {b : Bool} (h : IsFlag ρ v w b) : (ρ.val v).anyBit = b := by
  obtain ⟨-, k, hk, -, hne⟩ := h
  rw [hk, SVal.anyBit, Bool.eq_iff_iff, ← hne]
  simp

/-- Zero extension keeps whether a bit is set. -/
theorem anyBit_zextTo {v : Val} {w w' : ℕ} {b : Bool} (hv : IsFlag ρ v w b)
    (hsat : Sat ρ (zextTo v (.int w') n).1) : (ρ.val (zextTo v (.int w') n).2).anyBit = b := by
  rw [← hv.anyBit]
  obtain ⟨-, k, hk, -, -⟩ := hv
  rw [zextTo] at hsat ⊢
  split_ifs at hsat ⊢
  · rfl
  · rw [sat_emit rfl hsat, List.map_singleton, hk]
    rfl

/-- The only instruction of `pre ++ [x]` that can fire is the last one. -/
private theorem fires_last {pre : List Inst} {x : Inst} (hpre : ¬ Fires ρ pre) :
    Fires ρ (pre ++ [x]) ↔ x.fires ρ = true := by
  rw [fires_append, or_iff_right hpre]
  simp [Fires]

theorem Emit.ok_zextTo {A : Set ℕ} {v : Val} {ty : Ty} (h : v.Avail A) :
    Emit.Ok PureOp A (zextTo v ty) := by
  rw [zextTo]
  split_ifs
  · exact Emit.ok_pure h
  · exact Emit.ok_emit rfl (avail_singleton h)

end Checks

/-! ### Call and branch -/

section OneCheck

variable {ρ : Env} {n : ℕ}

/-- **A materialized check fires iff some bit of its shadow is set**, as a call and as a
branch. -/
theorem materializeOneCheck_fires {opts : Options} {withCalls : Bool} {v : Val}
    (hv : ShadowVal ρ v)
    (hsat : Sat ρ (materializeOneCheck opts withCalls v n).1) :
    Fires ρ (materializeOneCheck opts withCalls v n).1 ↔ (ρ.val v).anyBit = true := by
  rw [materializeOneCheck] at hsat ⊢
  split_ifs at hsat ⊢ with hcalls
  · simp only [Emit.bind_run, ← List.append_assoc] at hsat ⊢
    obtain ⟨hsat, -⟩ := sat_append.mp hsat
    obtain ⟨hscalar, hzext⟩ := sat_append.mp hsat
    have hany := anyBit_zextTo (convertShadowToScalar_sound ρ v.ty v n rfl hv.2 hscalar) hzext
    rw [emit_run, fires_last]
    · simp [Inst.fires, hany]
    · rw [fires_append]
      rintro (h | h)
      · exact not_fires_pure (Emit.ok_convertShadowToScalar v.ty Set.univ v v.avail_univ n).1 h
      · exact not_fires_pure (Emit.ok_zextTo (Val.avail_univ _) _).1 h
  · simp only [Emit.bind_run] at hsat ⊢
    obtain ⟨hcmp, -⟩ := sat_append.mp hsat
    have hbool := isBool_convertToBool hv hcmp
    rw [emit_run, fires_last (not_fires_pure (numbered_convertToBool v n))]
    simp [Inst.fires, hbool.anyBit]

end OneCheck

/-! ### Coalesced checks -/

section Coalesced

variable {f : Func} {cx : Ctx} {ρ : Env} {s : St}

/-- The values satisfy the equations of all the code of the function. -/
def St.SatAll (s : St) (f : Func) (ρ : Env) : Prop := ∀ b ∈ f.labels, Sat ρ (s.blockCode f b)

/-- The values satisfy the equations of the code of block `b` up to `a`. -/
def St.SatTo (s : St) (f : Func) (b : Label) (a : Inst) (ρ : Env) : Prop :=
  Sat ρ (upTo a.name (s.blockCode f b))

theorem St.SatAll.satTo {b : Label} (h : s.SatAll f ρ) (hb : b ∈ f.labels) (a : Inst) :
    s.SatTo f b a ρ := fun x hx => h b hb x (upTo_subset hx)

theorem St.Grows.satTo {s' : St} {b : Label} {a : Inst} (h : St.Grows f s s') (hb : b ∈ f.labels)
    (ha : a ∈ s.blockCode f b) (hsat : s'.SatTo f b a ρ) : s.SatTo f b a ρ :=
  fun x hx => hsat x ((h.mem_upTo hb (upTo_subset hx) ha).mpr hx)

/-- Code goes somewhere after an instruction that is followed by one that is neither a PHI nor
an exception pad, and not after that one. -/
theorem insertPointAfter_isSome {code l r : List Inst} {x a : Inst}
    (hcode : code = l ++ x :: r) (hl : ∀ y ∈ l, y.name ≠ x.name) (ha : a ∈ r)
    (hphi : a.isPhi = false) (hpad : a.isEHPad = false) :
    ∃ y ∈ code, insertPointAfter code x = some y.name ∧ (y = a ∨ Before code y a) := by
  have hfrom : code.dropWhile (·.name ≠ x.name) = x :: r := by
    rw [hcode, List.dropWhile_append_of_pos (by simpa using hl)]
    simp
  -- an instruction of a suffix comes before those that follow it
  have hsuffix : ∀ {y : Inst} {ys : List Inst}, (y :: ys) <:+ code → a ∈ y :: ys →
      y ∈ code ∧ (y = a ∨ Before code y a) := by
    rintro y ys ⟨zs, rfl⟩ hmem
    refine ⟨by simp, ?_⟩
    rcases List.mem_cons.mp hmem with rfl | hmem
    · exact Or.inl rfl
    · exact Or.inr (before_iff.mpr ⟨zs, ys, rfl, hmem⟩)
  rw [insertPointAfter]
  split_ifs with hx
  · rw [firstInsertionPt]
    have hmem : a ∈ code.dropWhile Inst.isPhi := by
      have hsplit := List.takeWhile_append_dropWhile (p := Inst.isPhi) (l := code)
      have : a ∈ code.takeWhile Inst.isPhi ++ code.dropWhile Inst.isPhi := by
        rw [hsplit, hcode]
        simp [ha]
      rcases List.mem_append.mp this with h | h
      · rw [List.mem_takeWhile_imp h] at hphi
        cases hphi
      · exact h
    have hsuf := List.dropWhile_suffix (l := code) Inst.isPhi
    cases hd : code.dropWhile Inst.isPhi with
    | nil =>
      rw [hd] at hmem
      cases hmem
    | cons y ys =>
      rw [hd] at hmem hsuf
      simp only
      split_ifs with hy
      · have hays : a ∈ ys := by
          rcases List.mem_cons.mp hmem with rfl | h
          · rw [hy] at hpad
            cases hpad
          · exact h
        cases ys with
        | nil => cases hays
        | cons z zs =>
          obtain ⟨hz, hza⟩ := hsuffix ((List.suffix_cons y _).trans hsuf) hays
          exact ⟨z, hz, rfl, hza⟩
      · obtain ⟨hy', hya⟩ := hsuffix hsuf hmem
        exact ⟨y, hy', rfl, hya⟩
  · rw [hfrom, List.drop_one, List.tail_cons]
    have hmem : a ∈ r.dropWhile fun y => y.isPhi || y.isEHPad := by
      have : a ∈ r.takeWhile (fun y => y.isPhi || y.isEHPad) ++
          r.dropWhile fun y => y.isPhi || y.isEHPad := by
        rw [List.takeWhile_append_dropWhile]
        exact ha
      rcases List.mem_append.mp this with h | h
      · have := List.mem_takeWhile_imp h
        rw [hphi, hpad] at this
        cases this
      · exact h
    have hsuf : (r.dropWhile fun y => y.isPhi || y.isEHPad) <:+ code := by
      rw [hcode]
      exact (List.dropWhile_suffix _).trans ⟨l ++ [x], by simp⟩
    cases hd : r.dropWhile fun y => y.isPhi || y.isEHPad with
    | nil =>
      rw [hd] at hmem
      cases hmem
    | cons y ys =>
      rw [hd] at hmem hsuf
      obtain ⟨hy, hya⟩ := hsuffix hsuf hmem
      exact ⟨y, hy, rfl, hya⟩

theorem Emit.ok_orInto {A : Set ℕ} {acc : Option Val} {v : Val} (hacc : ∀ c ∈ acc, c.Avail A)
    (hv : v.Avail A) : Emit.Ok PureOp A (orInto acc v) := by
  refine (Emit.ok_convertToBool hv).bind fun B cur hB hcur => ?_
  cases acc with
  | none => exact Emit.ok_pure hcur
  | some c => exact Emit.ok_emit rfl (avail_pair ((hacc c rfl).mono hB) hcur)

theorem isBool_orInto {acc : Option Val} {v : Val} {n : ℕ} (hacc : ∀ c ∈ acc, ∃ B, IsBool ρ c B)
    (hv : ShadowVal ρ v) (hsat : Sat ρ (orInto acc v n).1) :
    IsBool ρ (orInto acc v n).2 (anyPoisoned ρ acc.toList || (ρ.val v).anyBit) := by
  simp only [orInto, Emit.bind_run] at hsat ⊢
  obtain ⟨hconv, hrest⟩ := sat_append.mp hsat
  have hcur := isBool_convertToBool hv hconv
  cases acc with
  | none => simpa using hcur
  | some c =>
    obtain ⟨B, hB⟩ := hacc c rfl
    have hor := hB.or hcur hrest
    rw [← hB.anyBit] at hor
    simpa using hor

/-- What is emitted before an instruction is executed with it. -/
theorem St.emitBefore_spec {b : Label} {y : Inst} {m : Emit Val}
    (hu : Unique cx.f (s.blockCode cx.f) s.next) (hb : b ∈ cx.f.labels)
    (hy : y ∈ s.blockCode cx.f b) (hm : Emit.Ok PureOp Set.univ m) :
    St.GrowsBy PureOp cx.f s (s.emitBefore y.name m).2 ∧
      ∀ a ∈ s.blockCode cx.f b, y = a ∨ Before (s.blockCode cx.f b) y a → ∀ ρ,
        (s.emitBefore y.name m).2.SatTo cx.f b a ρ → Sat ρ (m s.next).1 := by
  obtain ⟨l, r, hC⟩ := List.append_of_mem hy
  have hg := St.emitBefore_grows hu hb hC (hm s.next).1
  refine ⟨hg, fun a ha hya ρ hsat z hz => hsat z ?_⟩
  refine ((St.emitBefore_replaces hu hb hC).mem_upTo hg.unique hb ha).mpr (Or.inr ⟨rfl, hz, ?_⟩)
  exact (mem_upTo (hu.nodup b hb) ha).mpr hya

/-- A step of the incremental OR emits the OR with one shadow. -/
private theorem incrementalOr_spec (acc : Option Val) {b : Label} {x a : Inst}
    (hu : Unique cx.f (s.blockCode cx.f) s.next) (hb : b ∈ cx.f.labels)
    (hxa : Before (s.blockCode cx.f b) x a) (hphi : a.isPhi = false) (hpad : a.isEHPad = false) :
    St.GrowsBy PureOp cx.f s (incrementalOr cx (s, acc) x).1 ∧
      ∃ v, (incrementalOr cx (s, acc) x).2 = some v ∧
        ∀ ρ, (incrementalOr cx (s, acc) x).1.SatTo cx.f b a ρ → ShadowVal ρ x.val →
          (∀ c ∈ acc, ∃ B, IsBool ρ c B) →
          IsBool ρ v (anyPoisoned ρ acc.toList || (ρ.val x.val).anyBit) := by
  obtain ⟨l, r, hC, ha⟩ := before_iff.mp hxa
  obtain ⟨y, hy, hip, hya⟩ := insertPointAfter_isSome hC (St.name_ne hu hb hC).1 ha hphi hpad
  have hcode : s.codeOf cx.f x.name = s.blockCode cx.f b :=
    St.codeOf_eq hu hb (by rw [hC]; simp)
  rw [← hcode] at hip
  simp only [incrementalOr, hip]
  obtain ⟨hgrows, hsatm⟩ := St.emitBefore_spec (m := orInto acc x.val) hu hb hy
    (Emit.ok_orInto (fun c _ => c.avail_univ) (Val.avail_univ _))
  exact ⟨hgrows, _, rfl, fun ρ hsat hty hacc =>
    isBool_orInto hacc hty (hsatm a hxa.mem.2 hya ρ hsat)⟩

/-- The incremental OR of the shadows `xs`. -/
private theorem foldl_incrementalOr_spec {b : Label} {a : Inst} (hb : b ∈ cx.f.labels)
    (hphi : a.isPhi = false) (hpad : a.isEHPad = false) :
    ∀ (xs : List Inst) (s : St) (acc : Option Val), Unique cx.f (s.blockCode cx.f) s.next →
      a ∈ s.blockCode cx.f b → (∀ x ∈ xs, Before (s.blockCode cx.f b) x a) →
      St.GrowsBy PureOp cx.f s (xs.foldl (incrementalOr cx) (s, acc)).1 ∧
        ((acc.isSome ∨ xs ≠ []) → ∃ v, (xs.foldl (incrementalOr cx) (s, acc)).2 = some v ∧
          ∀ ρ, (xs.foldl (incrementalOr cx) (s, acc)).1.SatTo cx.f b a ρ →
            AllShadows ρ (xs.map Inst.val) → (∀ c ∈ acc, ∃ B, IsBool ρ c B) →
            IsBool ρ v (anyPoisoned ρ acc.toList || anyPoisoned ρ (xs.map Inst.val))) := by
  intro xs
  induction xs with
  | nil =>
    intro s acc hu _ _
    refine ⟨St.GrowsBy.refl hu, fun hsome => ?_⟩
    obtain ⟨v, rfl⟩ := Option.isSome_iff_exists.mp (hsome.resolve_right (by simp))
    refine ⟨v, rfl, fun ρ _ _ hacc => ?_⟩
    obtain ⟨B, hB⟩ := hacc v rfl
    simpa [hB.anyBit] using hB
  | cons x xs ih =>
    intro s acc hu ha hxs
    obtain ⟨hgrows, v, hv, hval⟩ := incrementalOr_spec acc hu hb
      (hxs x List.mem_cons_self) hphi hpad
    rw [List.foldl_cons]
    generalize incrementalOr cx (s, acc) x = r at hgrows hv hval
    obtain ⟨s₁, acc₁⟩ := r
    dsimp only at hgrows hv hval
    subst hv
    have ha₁ := (hgrows.sub b hb).subset ha
    obtain ⟨hgrows', hrest⟩ := ih s₁ (some v) hgrows.unique ha₁ fun y hy =>
      (hxs y (List.mem_cons_of_mem _ hy)).mono (hgrows.sub b hb)
    refine ⟨hgrows.trans hgrows', fun _ => ?_⟩
    obtain ⟨w, hw, hwval⟩ := hrest (Or.inl rfl)
    refine ⟨w, hw, fun ρ hsat hty hacc => ?_⟩
    have hv := hval ρ (hgrows'.satTo hb ha₁ hsat) (hty _ (by simp)) hacc
    have := hwval ρ hsat (fun u hu => hty u (List.mem_cons_of_mem _ hu)) fun c hc => by
      obtain rfl : v = c := by simpa using hc
      exact ⟨_, hv⟩
    simpa [hv.anyBit, Bool.or_assoc] using this

theorem Emit.ok_orShadows {A : Set ℕ} (vs : List Val) {acc : Val} (hvs : ∀ v ∈ vs, v.Avail A)
    (hacc : acc.Avail A) : Emit.Ok PureOp A (orShadows vs acc) := by
  induction vs generalizing A acc with
  | nil => exact Emit.ok_pure hacc
  | cons v vs ih =>
    refine (Emit.ok_convertToBool (hvs v List.mem_cons_self)).bind fun B b hB hb => ?_
    refine (Emit.ok_emit (P := PureOp) (by rfl) (avail_pair (hacc.mono hB) hb)).bind
      fun C c hC hc => ?_
    exact ih (fun u hu => (hvs u (List.mem_cons_of_mem _ hu)).mono (hB.trans hC)) hc

theorem Emit.ok_orAllShadows {A : Set ℕ} (vs : List Val) (hvs : ∀ v ∈ vs, v.Avail A) :
    Emit.Ok PureOp A (orAllShadows vs) := by
  cases vs with
  | nil => exact Emit.ok_pure trivial
  | cons v vs =>
    refine (Emit.ok_convertToBool (hvs v List.mem_cons_self)).bind fun B b hB hb => ?_
    exact Emit.ok_orShadows vs (fun u hu => (hvs u (List.mem_cons_of_mem _ hu)).mono hB) hb

/-- **The condition of a coalesced check** is true iff some bit of some of the shadows is set. -/
theorem coalescedOr_sound {b : Label} {a : Inst} {shadows : List Val}
    (hu : Unique cx.f (s.blockCode cx.f) s.next) (hb : b ∈ cx.f.labels)
    (ha : a ∈ s.blockCode cx.f b) (hphi : a.isPhi = false) (hpad : a.isEHPad = false)
    (hne : shadows ≠ []) :
    St.GrowsBy PureOp cx.f s (coalescedOr cx s a.name shadows).2 ∧
      ∀ ρ, (coalescedOr cx s a.name shadows).2.SatTo cx.f b a ρ → AllShadows ρ shadows →
        IsBool ρ (coalescedOr cx s a.name shadows).1 (anyPoisoned ρ shadows) := by
  obtain ⟨l, r, hC⟩ := List.append_of_mem ha
  have hto : s.codeTo cx.f a.name = l := St.codeTo_eq hu hb hC
  have hplain := St.emitBefore_spec hu hb ha
    (Emit.ok_orAllShadows shadows fun v _ => v.avail_univ)
  rw [coalescedOr, hto]
  generalize hhere : (sameBlock l).reverse = here
  have hsub : ∀ x ∈ here, Before (s.blockCode cx.f b) x a := by
    intro x hx
    rw [← hhere, List.mem_reverse] at hx
    have hxl : x ∈ l := by
      have := (List.takeWhile_sublist _).subset hx
      rwa [List.mem_reverse] at this
    obtain ⟨l₁, l₂, rfl⟩ := List.append_of_mem hxl
    exact before_iff.mpr ⟨l₁, l₂ ++ a :: r, by rw [hC]; simp, by simp⟩
  split_ifs with hinc
  · generalize hloc : here.filter (fun x => decide (x.val ∈ shadows)) = loc at hinc
    have hlocne : loc ≠ [] := by
      rintro rfl
      simp at hinc
    obtain ⟨hgrows, hval⟩ := foldl_incrementalOr_spec hb hphi hpad loc s none hu ha fun x hx => by
      rw [← hloc] at hx
      exact hsub x (List.mem_filter.mp hx).1
    obtain ⟨acc, hacc, hval⟩ := hval (Or.inr hlocne)
    generalize loc.foldl (incrementalOr cx) (s, none) = res at hgrows hacc hval
    obtain ⟨s₁, acc₁⟩ := res
    dsimp only at hgrows hacc hval
    subst hacc
    obtain ⟨hgrows', hsatm⟩ := St.emitBefore_spec hgrows.unique hb ((hgrows.sub b hb).subset ha)
      (Emit.ok_orShadows (shadows.filter fun v => !here.any fun x => decide (x.val = v))
        (fun v _ => v.avail_univ) acc.avail_univ)
    have ha₁ := (hgrows.sub b hb).subset ha
    refine ⟨hgrows.trans hgrows', fun ρ hsat hty => ?_⟩
    have hacc := hval ρ (hgrows'.satTo hb ha₁ hsat) (fun v hv => by
      obtain ⟨x, hx, rfl⟩ := List.mem_map.mp hv
      rw [← hloc] at hx
      exact hty _ (by simpa using (List.mem_filter.mp hx).2)) (by simp)
    have hres := isBool_orShadows _ hacc (fun v hv => hty v (List.mem_filter.mp hv).1)
      (hsatm a ha₁ (Or.inl rfl) ρ hsat)
    -- a shadow is defined in this block before the anchor, or it is remote
    have hsplit : (anyPoisoned ρ (none : Option Val).toList || anyPoisoned ρ (loc.map Inst.val) ||
        anyPoisoned ρ (shadows.filter fun v => !here.any fun x => decide (x.val = v))) =
        anyPoisoned ρ shadows := by
      rw [Bool.eq_iff_iff]
      simp only [Option.toList_none, anyPoisoned_nil, Bool.false_or, Bool.or_eq_true,
        anyPoisoned_iff, List.mem_map, List.mem_filter, ← hloc, decide_eq_true_eq]
      constructor
      · rintro (⟨_, ⟨x, ⟨-, hx⟩, rfl⟩, hbit⟩ | ⟨v, ⟨hv, -⟩, hbit⟩)
        · exact ⟨_, hx, hbit⟩
        · exact ⟨v, hv, hbit⟩
      · rintro ⟨v, hv, hbit⟩
        by_cases hlocal : ∃ x ∈ here, x.val = v
        · obtain ⟨x, hx, rfl⟩ := hlocal
          exact Or.inl ⟨_, ⟨x, ⟨hx, hv⟩, rfl⟩, hbit⟩
        · refine Or.inr ⟨v, ⟨hv, ?_⟩, hbit⟩
          simpa using hlocal
    rw [hsplit] at hres
    exact hres
  · exact ⟨hplain.1, fun ρ hsat hty =>
      isBool_orAllShadows hne hty (hplain.2 a ha (Or.inl rfl) ρ hsat)⟩

end Coalesced

/-! ### Collapsing loses no poison -/

/-- **Collapsing a shadow loses no poison.** For every shadow value the conversions give
well-typed code and the right truth value; the check of a non-empty list of shadows at an
instruction executes a warning, unconditional or by its condition, iff some bit of some of the
shadows looked at is set; and the condition of a coalesced check is true iff some bit of some of
its shadows is set. -/
theorem collapse_sound :
    (∀ (ρ : Env) (v : Val) (n : ℕ), ShadowVal ρ v →
      (Sat ρ (convertToBool v n).1 →
        (∀ x ∈ (convertToBool v n).1, x.Typed) ∧ (convertToBool v n).2.ty = .int 1 ∧
        ρ.val (convertToBool v n).2 = .bool (ρ.val v).anyBit) ∧
      (Sat ρ (convertShadowToScalar v.ty v n).1 →
        (∀ x ∈ (convertShadowToScalar v.ty v n).1, x.Typed) ∧
        ∃ w k, (convertShadowToScalar v.ty v n).2.ty = .int w ∧
          ρ.val (convertShadowToScalar v.ty v n).2 = .int w k ∧ k < 2 ^ w ∧
          (k ≠ 0 ↔ (ρ.val v).anyBit = true)) ∧
      ((∃ w, v.ty = .int w) ∨ (∃ k t, v.ty = .vec k t) → Sat ρ (normalizeShadow v n).1 →
        ρ.val (normalizeShadow v n).2 = .bool (ρ.val v).anyBit)) ∧
    (∀ (ρ : Env) (opts : Options) (vs : List Val) (n : ℕ), vs ≠ [] → AllShadows ρ vs →
      Sat ρ (orChecks opts vs none n).1 →
      (∀ v ∈ (orChecks opts vs none n).2, ∀ withCalls n',
        Sat ρ (materializeOneCheck opts withCalls v n').1 →
        (Fires ρ ((orChecks opts vs none n).1 ++ (materializeOneCheck opts withCalls v n').1) ↔
          anyPoisoned ρ (vs.filter (considered opts)) = true)) ∧
      ((orChecks opts vs none n).2 = none →
        (Fires ρ (orChecks opts vs none n).1 ↔
          anyPoisoned ρ (vs.filter (considered opts)) = true))) ∧
    ∀ (cx : Ctx) (s : St) (b : Label) (a : Inst) (shadows : List Val) (ρ : Env),
      Unique cx.f (s.blockCode cx.f) s.next → b ∈ cx.f.labels → a ∈ s.blockCode cx.f b →
      a.isPhi = false → a.isEHPad = false → shadows ≠ [] →
      (coalescedOr cx s a.name shadows).2.SatAll cx.f ρ → AllShadows ρ shadows →
      ρ.val (coalescedOr cx s a.name shadows).1 = .bool (anyPoisoned ρ shadows) := by
  refine ⟨fun ρ v n hv => ⟨fun hsat => ?_, fun hsat => ?_, fun hty hsat => ?_⟩,
    fun ρ opts vs n _ hvs hsat => ?_, fun cx s b a shadows ρ hu hb ha hphi hpad hne hsat hty => ?_⟩
  · exact ⟨(Emit.typed_convertToBool hv.1 n).1, isBool_convertToBool hv hsat⟩
  · obtain ⟨hty, k, h⟩ := convertShadowToScalar_sound ρ v.ty v n rfl hv.2 hsat
    exact ⟨(Emit.typed_convertShadowToScalar v.ty v hv.1 rfl n).1, _, k, hty, h⟩
  · exact (isBool_normalizeShadow hv hty hsat).2
  · obtain ⟨hacc, hiff⟩ := orChecks_sound opts vs none (by simp [AllShadows]) hvs hsat
    simp only [Option.toList_none, anyPoisoned_nil, Bool.false_eq_true, false_or] at hiff
    constructor
    · intro v hv withCalls n' hsat'
      rw [Option.mem_def] at hv
      rw [hv] at hacc hiff
      rw [fires_append, materializeOneCheck_fires (hacc v (by simp)) hsat', ← hiff]
      simp
    · intro hnone
      rw [hnone] at hiff
      simpa using hiff
  · exact ((coalescedOr_sound hu hb ha hphi hpad hne).2 ρ (hsat.satTo hb a) hty).2

section NestedShadow

/-- A shadow of the type `{i32, {i8, i16}}`. -/
private def nestedShadow : Val :=
  .inst 20 (.struct false (.cons (.int 32)
    (.cons (.struct false (.cons (.int 8) (.cons (.int 16) .nil))) .nil)))

private def retInst : Inst := { name := 0, op := .ret, args := [], ty := .void }

private theorem retFunc_body : ∀ i ∈ ([] : List Inst), i.isTerminator = false :=
  List.forall_mem_nil _

/-- The function that returns at once. -/
private def retFunc : Func := .ofBlock 0 [] retInst (by decide) retFunc_body (by decide)

private def retCtx : Ctx where
  f := retFunc
  opts := {}
  users _ := []
  constantUser _ := false
  isAFLRuntimeAccess _ := false
  pointerBase v := (v, 0)
  findAlloca _ := none
  retNoUndef := false
  analyses _ := ⟨fun _ => [], fun _ _ => false, fun _ => none⟩

/-- Only the field of 16 bits is poisoned. The names from `2` on are those of the code emitted for
the check: the fields, their comparisons and the two ORs. -/
private def nestedEnv : Env where
  inst n := match n with
    | 20 => .agg [.int 32 0, .agg [.int 8 0, .int 16 5]]
    | 2 => .int 32 0
    | 3 => .bool false
    | 4 => .agg [.int 8 0, .int 16 5]
    | 5 => .int 8 0
    | 6 => .bool false
    | 7 => .int 16 5
    | _ => .bool true
  other _ := .int 64 0

private theorem nestedShadow_val : ShadowVal nestedEnv nestedShadow := by
  refine ⟨by decide, ?_⟩
  simp [nestedShadow, nestedEnv, Val.ty, Env.val, HasTy, HasTys]

/-- The code that collapses the shadow, field by field. -/
private theorem nested_code : (convertToBool nestedShadow 2).1 =
    [⟨2, .sh (.extractValue 0), [nestedShadow], .int 32, false⟩,
      ⟨3, .sh .icmpNe, [.inst 2 (.int 32)], .int 1, false⟩,
      ⟨4, .sh (.extractValue 1), [nestedShadow],
        .struct false (.cons (.int 8) (.cons (.int 16) .nil)), false⟩,
      ⟨5, .sh (.extractValue 0),
        [.inst 4 (.struct false (.cons (.int 8) (.cons (.int 16) .nil)))], .int 8, false⟩,
      ⟨6, .sh .icmpNe, [.inst 5 (.int 8)], .int 1, false⟩,
      ⟨7, .sh (.extractValue 1),
        [.inst 4 (.struct false (.cons (.int 8) (.cons (.int 16) .nil)))], .int 16, false⟩,
      ⟨8, .sh .icmpNe, [.inst 7 (.int 16)], .int 1, false⟩,
      ⟨9, .sh .or, [.inst 6 (.int 1), .inst 8 (.int 1)], .int 1, false⟩,
      ⟨10, .sh .or, [.inst 3 (.int 1), .inst 9 (.int 1)], .int 1, false⟩] := rfl

private theorem sat_nested : Sat nestedEnv (convertToBool nestedShadow 2).1 := by
  rw [nested_code]
  simp only [Sat, List.forall_mem_cons]
  refine ⟨?_, ?_, ?_, ?_, ?_, ?_, ?_, ?_, ?_, by simp⟩
  all_goals
    intro o ho _
    cases ho
    rfl

/-- The poisoned field is found by the collapsed shadow, by the check and by the condition of a
coalesced check. -/
theorem collapse_sound_nested :
    nestedEnv.val (convertToBool nestedShadow 2).2 = .bool true ∧
      Fires nestedEnv (materializeOneCheck {} false nestedShadow 2).1 ∧
      nestedEnv.val (coalescedOr retCtx (St.init retCtx) 0 [nestedShadow]).1 = .bool true := by
  have hall : AllShadows nestedEnv [nestedShadow] := by
    intro v hv
    rw [List.mem_singleton.mp hv]
    exact nestedShadow_val
  have hbit : anyPoisoned nestedEnv [nestedShadow] = true := rfl
  refine ⟨((collapse_sound.1 nestedEnv nestedShadow 2 nestedShadow_val).1 sat_nested).2.2, ?_, ?_⟩
  · have hcheck : (materializeOneCheck {} false nestedShadow 2).1 =
        (convertToBool nestedShadow 2).1 ++
          [⟨11, .sh (.checkBranch false), [.inst 10 (.int 1)], .void, false⟩] := rfl
    refine ((collapse_sound.2.1 nestedEnv {} [nestedShadow] 2 (List.cons_ne_nil _ _) hall
      (by simp [orChecks, Sat, nestedShadow, Val.isConstant])).1 nestedShadow rfl false 2 ?_).mpr
      hbit
    rw [hcheck, sat_append]
    refine ⟨sat_nested, fun x hx o ho hpure => ?_⟩
    rw [List.mem_singleton.mp hx] at ho
    cases ho
    cases hpure
  · refine (collapse_sound.2.2 retCtx (St.init retCtx) 0 retInst [nestedShadow] nestedEnv ?_
      (by decide) (by decide) rfl rfl (List.cons_ne_nil _ _) ?_ hall).trans (by rw [hbit])
    · exact ⟨by decide, by decide, by decide⟩
    · have hcode : (coalescedOr retCtx (St.init retCtx) 0 [nestedShadow]).2.blockCode retFunc 0 =
          ⟨1, .sh .donothing, [], .void, false⟩ :: (convertToBool nestedShadow 2).1 ++ [retInst] :=
        rfl
      intro b hb
      rw [List.mem_singleton.mp hb]
      change Sat nestedEnv ((coalescedOr retCtx (St.init retCtx) 0 [nestedShadow]).2.blockCode
        retFunc 0)
      rw [hcode, List.cons_append]
      refine List.forall_mem_cons.mpr ⟨fun o ho hpure => ?_, sat_append.mpr ⟨sat_nested, ?_⟩⟩
      · cases ho
        cases hpure
      · intro x hx o ho _
        rw [List.mem_singleton.mp hx] at ho
        cases ho

end NestedShadow

/-- The constant shadow with all bits set is not part of the condition that
`materializeInstructionChecks` builds for it and a clean shadow: the condition is false though
bits of a shadow are set. -/
theorem not_orChecks_condition :
    ¬ ∀ (ρ : Env) (opts : Options) (vs : List Val) (n : ℕ), vs ≠ [] → AllShadows ρ vs →
      Sat ρ (orChecks opts vs none n).1 → ∀ v ∈ (orChecks opts vs none n).2,
        ((ρ.val v).anyBit = true ↔ anyPoisoned ρ vs = true) := by
  intro h
  let ρ : Env := ⟨fun _ => .int 8 0, fun _ => .int 8 0⟩
  have := h ρ {} [.ones (.int 8), .inst 5 (.int 8)] 9 (by simp)
    (by simp [AllShadows, ShadowVal, Val.ty, Ty.isShadow, Env.val, SVal.ones, HasTy, ρ])
    (by simp [orChecks, Sat, SatInst, Val.isConstant, Val.isZeroValue, Val.isKnownNonZero,
      ShOp.isPure])
    (.inst 5 (.int 8)) (by rfl)
  exact absurd (this.mpr (by decide)) (by decide)

end CQMSan
