import CQMSan.Pass.CheckCond

/-!
# Shadows have shadow types

Every entry of the shadow map and every shadow that is checked has a shadow type: an integer, a
vector of integers, or an aggregate of such types. This is what the assertion of `pushShadowCheck`
says, and what the conversions of a shadow to a Boolean rely on.
-/

namespace CQMSan

mutual

/-- A shadow type is one whatever the type was, also for the types without a size. -/
theorem getShadowTy_isShadow (t : Ty) : (getShadowTy t).isShadow = true := by
  match t with
  | .void | .token | .int _ | .fp _ | .ptr | .ptrAs _ | .vec _ _ => rfl
  | .array n t => exact getShadowTy_isShadow t
  | .struct packed ts => exact getShadowTys_isShadow ts

theorem getShadowTys_isShadow (ts : Tys) : (getShadowTys ts).isShadow = true := by
  match ts with
  | .nil => rfl
  | .cons t ts =>
    rw [getShadowTys, Tys.isShadow, getShadowTy_isShadow t, getShadowTys_isShadow ts, Bool.and_true]

end

/-- All entries of the shadow map have shadow types. -/
def ShadowsTyped (m : ℕ → Option Val) : Prop := ∀ n, ∀ sv ∈ m n, sv.ty.isShadow = true

/-- What a handler sets and checks has shadow types. -/
structure Visit.ShadowsTyped (v : Visit) : Prop where
  shadow : ∀ sv ∈ v.shadow, sv.ty.isShadow = true
  checks : ∀ c ∈ v.checks, c.1.ty.isShadow = true

theorem getShadow_isShadow {m : ℕ → Option Val} (hm : ShadowsTyped m) (opts : Options) (v : Val) :
    (getShadow opts m v).ty.isShadow = true := by
  cases v with
  | inst n t =>
    rw [getShadow]
    cases hn : m n with
    | none => exact getShadowTy_isShadow t
    | some sv => exact hm n sv hn
  | undef t =>
    rw [getShadow]
    split_ifs <;> exact getShadowTy_isShadow t
  | _ => exact getShadowTy_isShadow _

section Handlers

variable {si : Site} {i : Inst}

theorem typed_pushShadowCheck {sv : Val} (h : sv.ty.isShadow = true) (essential : Bool) :
    ∀ c ∈ si.pushShadowCheck sv essential, c.1.ty.isShadow = true := by
  rw [Site.pushShadowCheck]
  split_ifs
  · simpa using h
  · simp

theorem typed_append {cs ds : List (Val × Bool)} (hc : ∀ c ∈ cs, c.1.ty.isShadow = true)
    (hd : ∀ c ∈ ds, c.1.ty.isShadow = true) : ∀ c ∈ cs ++ ds, c.1.ty.isShadow = true := by
  intro c h
  rcases List.mem_append.mp h with h | h
  · exact hc c h
  · exact hd c h

/-- Nothing is set, or the clean shadow of a type. -/
theorem Visit.ShadowsTyped.clean {v : Visit}
    (h : v.shadow = none ∨ ∃ t, v.shadow = some (getCleanShadow t))
    (hc : ∀ c ∈ v.checks, c.1.ty.isShadow = true) : v.ShadowsTyped := by
  refine ⟨fun sv hsv => ?_, hc⟩
  rcases h with h | ⟨t, h⟩
  · rw [h] at hsv
    cases hsv
  · rw [h] at hsv
    rw [← Option.some.inj hsv]
    exact getShadowTy_isShadow t

theorem typed_visitInstruction : (si.visitInstruction i).ShadowsTyped := by
  refine .clean ?_ (by simp [Site.visitInstruction, Site.nothing])
  rw [Site.visitInstruction]
  split_ifs
  · exact Or.inr ⟨i.ty, rfl⟩
  · exact Or.inl rfl

theorem typed_handleMaskedLoadLike {o : ShOp} {addr mask passThru : Val} {cs : List (Val × Bool)}
    {b : Builder} (hcs : ∀ c ∈ cs, c.1.ty.isShadow = true) :
    (si.handleMaskedLoadLike o addr mask passThru cs b i).ShadowsTyped := by
  have hty := getShadowTy_isShadow i.ty
  rw [Site.handleMaskedLoadLike]
  dsimp only
  split_ifs
  · refine ⟨fun sv hsv => ?_, typed_append hcs (typed_pushShadowCheck (by exact hty) false)⟩
    rw [← Option.some.inj hsv]
    exact hty
  · refine ⟨fun sv hsv => ?_, hcs⟩
    rw [← Option.some.inj hsv]
    exact hty

variable (hm : ShadowsTyped si.s.shadowMap)

include hm

theorem typed_insertShadowCheck (v : Val) :
    ∀ c ∈ si.insertShadowCheck v, c.1.ty.isShadow = true := by
  have hv : (si.shadow v).ty.isShadow = true := getShadow_isShadow hm _ v
  rw [Site.insertShadowCheck]
  split_ifs
  · exact typed_pushShadowCheck hv true
  · split
    next n t heq =>
      rw [heq] at hv
      exact typed_pushShadowCheck hv true
    next => simp

theorem typed_checkAddress (v : Val) : ∀ c ∈ si.checkAddress v, c.1.ty.isShadow = true := by
  rw [Site.checkAddress]
  split_ifs
  · exact typed_insertShadowCheck hm v
  · simp

theorem typed_sinkCheck (v : Val) : ∀ c ∈ si.sinkCheck v, c.1.ty.isShadow = true := by
  rw [Site.sinkCheck]
  split_ifs
  · exact typed_insertShadowCheck hm v
  · simp

theorem typed_checkPtrAndMask (p m : Val) :
    ∀ c ∈ si.checkPtrAndMask p m, c.1.ty.isShadow = true :=
  typed_append (typed_checkAddress hm p) (typed_checkAddress hm m)

theorem typed_checkPtrsAndMask (p m : Val) :
    ∀ c ∈ (si.checkPtrsAndMask p m).1, c.1.ty.isShadow = true := by
  rw [Site.checkPtrsAndMask]
  split_ifs
  · exact typed_append (typed_insertShadowCheck hm m)
      (typed_pushShadowCheck (by exact getShadowTy_isShadow _) true)
  · simp

theorem typed_visitLoadInst (term : Inst) : (si.visitLoadInst term i).ShadowsTyped := by
  have hskip : ∀ addr, (si.skipLoad i addr).ShadowsTyped := fun addr =>
    .clean (Or.inr ⟨i.ty, rfl⟩) (typed_checkAddress hm addr)
  rw [Site.visitLoadInst]
  dsimp only
  split_ifs
  · exact .clean (Or.inr ⟨i.ty, rfl⟩) (by simp [Site.nothing])
  · exact hskip _
  · exact hskip _
  all_goals
    refine ⟨fun sv hsv => ?_, typed_append ?_ ?_⟩
    · rw [← Option.some.inj hsv]
      exact getShadowTy_isShadow i.ty
    · first
        | exact typed_pushShadowCheck (by exact getShadowTy_isShadow i.ty) false
        | simp
    · exact typed_checkAddress hm _

theorem typed_handleUnknownIntrinsic (ro : Bool) :
    (si.handleUnknownIntrinsic ro i).ShadowsTyped := by
  rw [Site.handleUnknownIntrinsic]
  split
  · split_ifs
    · rw [Site.handleVectorStoreIntrinsic]
      split_ifs
      · exact .clean (Or.inl rfl) (by simp [Site.nothing])
      · exact .clean (Or.inl rfl) (typed_checkAddress hm _)
    · exact typed_visitInstruction
  · split_ifs
    · refine ⟨fun sv hsv => ?_, typed_append ?_ (typed_checkAddress hm _)⟩
      · rw [← Option.some.inj hsv]
        exact getShadowTy_isShadow i.ty
      · exact typed_pushShadowCheck (by exact getShadowTy_isShadow i.ty) false
    · exact typed_visitInstruction
  · exact typed_visitInstruction

theorem typed_visitIntrinsicInst (id : Intrinsic) : (si.visitIntrinsicInst id i).ShadowsTyped := by
  have hnil : ∀ {v : Visit}, v.shadow = none → v.checks = [] → v.ShadowsTyped :=
    fun hs hc => .clean (Or.inl hs) (by simp [hc])
  have hstore : ∀ {o : ShOp} {addr mask value : Val} {cs : List (Val × Bool)} {b : Builder},
      (∀ c ∈ cs, c.1.ty.isShadow = true) →
      (si.handleMaskedStoreLike o addr mask value cs b i).ShadowsTyped :=
    fun hcs => .clean (Or.inl rfl) hcs
  cases id with
  | memcpy | memmove | memset | vaStart | vaCopy => exact hnil rfl rfl
  | lifetimeStart =>
    rw [Site.visitIntrinsicInst]
    split_ifs <;> exact hnil rfl rfl
  | launderInvariantGroup | stripInvariantGroup =>
    refine ⟨fun sv hsv => ?_, by simp [Site.visitIntrinsicInst, Site.nothing]⟩
    rw [← Option.some.inj hsv]
    exact getShadow_isShadow hm _ _
  | maskedCompressstore =>
    rw [Site.visitIntrinsicInst, Site.handleMaskedCompressStore]
    split_ifs
    · exact hnil rfl rfl
    · exact hstore (typed_checkPtrAndMask hm _ _)
  | maskedExpandload => exact typed_handleMaskedLoadLike (typed_checkPtrAndMask hm _ _)
  | maskedGather => exact typed_handleMaskedLoadLike (typed_checkPtrsAndMask hm _ _)
  | maskedScatter =>
    rw [Site.visitIntrinsicInst, Site.handleMaskedScatter]
    split_ifs
    · exact hnil rfl rfl
    · exact hstore (typed_checkPtrsAndMask hm _ _)
  | maskedStore =>
    rw [Site.visitIntrinsicInst, Site.handleMaskedStore]
    split_ifs
    · exact hnil rfl rfl
    · exact hstore (typed_checkPtrAndMask hm _ _)
  | maskedLoad => exact typed_handleMaskedLoadLike (typed_checkPtrAndMask hm _ _)
  | isConstant =>
    exact .clean (Or.inr ⟨i.ty, rfl⟩) (by simp [Site.visitIntrinsicInst, Site.nothing])
  | x86SseStmxcsr => exact .clean (Or.inl rfl) (typed_checkAddress hm _)
  | x86SseLdmxcsr =>
    rw [Site.visitIntrinsicInst, Site.handleLdmxcsr]
    split_ifs
    · exact hnil rfl rfl
    · exact .clean (Or.inl rfl) (typed_append (typed_checkAddress hm _)
        (typed_pushShadowCheck (by rfl) false))
  | arith => exact typed_handleUnknownIntrinsic hm true
  | other ro => exact typed_handleUnknownIntrinsic hm ro

theorem typed_visitCallBase (c : CallInfo) : (si.visitCallBase c i).ShadowsTyped := by
  have hclean : ∀ {v : Visit} {b : Bool}, v.checks = [] →
      v.shadow = (if b then some (getCleanShadow i.ty) else none) → v.ShadowsTyped := by
    intro v b hc hs
    refine .clean ?_ (by simp [hc])
    rw [hs]
    cases b
    · exact Or.inl rfl
    · exact Or.inr ⟨i.ty, rfl⟩
  have hord : (si.visitOrdinaryCall c i).ShadowsTyped := by
    refine .clean ?_ ?_
    · simp only [Site.visitOrdinaryCall]
      split_ifs
      · exact Or.inr ⟨i.ty, rfl⟩
      · exact Or.inl rfl
    · simp only [Site.visitOrdinaryCall]
      split_ifs
      · intro d hd
        obtain ⟨a, -, hd⟩ := List.mem_flatMap.mp hd
        exact typed_insertShadowCheck hm a.1 d hd
      · simp
  rw [Site.visitCallBase]
  split
  · split_ifs
    · exact hclean rfl rfl
    · exact typed_visitInstruction
  · split_ifs
    · exact .clean (Or.inl rfl) (by simp [Site.visitLibAtomicLoad, Site.nothing])
    · exact .clean (Or.inl rfl)
        (by simp [Site.visitLibAtomicStore, Site.emittedBefore, Site.nothing])
    · exact hord
  · exact hord

theorem typed_visit (term : Inst) : (si.visit term i).ShadowsTyped := by
  have hcas : ∀ b : Bool, (si.handleCASOrRMW b i).ShadowsTyped := by
    intro b
    refine .clean (Or.inr ⟨i.ty, rfl⟩) (typed_append (typed_checkAddress hm _) ?_)
    cases b
    · simp
    · exact typed_insertShadowCheck hm _
  rw [Site.visit]
  split
  · exact typed_visitLoadInst hm term
  · rw [Site.visitStoreInst]
    split_ifs
    · exact .clean (Or.inl rfl) (by simp [Site.nothing])
    · exact .clean (Or.inl rfl) (typed_checkAddress hm _)
  · exact hcas true
  · exact hcas false
  · split
    · exact typed_visitIntrinsicInst hm _
    · exact typed_visitCallBase hm _
  · exact typed_visitCallBase hm _
  · exact typed_visitCallBase hm _
  · rw [Site.visitReturnInst]
    split
    · split_ifs <;> exact .clean (Or.inl rfl) (by simp [Site.nothing])
    · exact .clean (Or.inl rfl) (by simp [Site.nothing])
  · refine ⟨fun sv hsv => ?_, by simp [Site.visitPHINode, Site.emittedBefore, Site.nothing]⟩
    rw [← Option.some.inj hsv]
    exact getShadowTy_isShadow i.ty
  · exact .clean (Or.inr ⟨i.ty, rfl⟩) (by simp [Site.visitAllocaInst, Site.nothing])
  · exact typed_visitInstruction

omit hm in
/-- `CreateSExt` gives a value of the type asked for. -/
theorem sextTo_ty (v : Val) (ty : Ty) (n : ℕ) : (Site.sextTo v ty n).2.ty = ty := by
  rw [Site.sextTo]
  split_ifs with h
  · exact h
  · rfl

omit hm in
theorem typed_handleUndefSliceInst : (si.handleUndefSliceInst i).ShadowsTyped := by
  have hty := getShadowTy_isShadow i.ty
  rw [Site.handleUndefSliceInst]
  dsimp only
  split
  · refine ⟨fun sv hsv => ?_, by simp [Site.emittedBefore, Site.nothing]⟩
    rw [← Option.some.inj hsv, Builder.run, Site.sliceSelectShadow]
    split_ifs <;> exact hty
  · split_ifs
    · exact .clean (Or.inr ⟨i.ty, rfl⟩) (by simp [Site.nothing])
    · refine ⟨fun sv hsv => ?_, by simp [Site.emittedBefore, Site.nothing]⟩
      rw [← Option.some.inj hsv, Builder.run]
      simp only [Emit.bind_run, sextTo_ty]
      exact hty

theorem typed_checkUndefSliceSinks :
    ∀ c ∈ si.checkUndefSliceSinks i, c.1.ty.isShadow = true := by
  have hargs : ∀ p : Val × ℕ → Bool, ∀ c ∈ (i.args.zipIdx.filter p).flatMap fun a =>
      si.sinkCheck a.1, c.1.ty.isShadow = true := by
    intro p c hc
    obtain ⟨a, -, hc⟩ := List.mem_flatMap.mp hc
    exact typed_sinkCheck hm a.1 c hc
  rw [Site.checkUndefSliceSinks]
  split
  · exact typed_sinkCheck hm _
  · exact typed_sinkCheck hm _
  · split_ifs
    · simp
    · exact typed_sinkCheck hm _
  · split_ifs
    · simp
    · exact typed_sinkCheck hm _
  all_goals first
    | simp; done
    | (split
       · simp
       · simp
       · split_ifs
         · simp
         · exact hargs _)

theorem typed_process (term : Inst) : (si.process term i).ShadowsTyped := by
  have hsinks := typed_checkUndefSliceSinks (i := i) hm
  rw [Site.process]
  split_ifs
  · exact typed_visit hm term
  · exact ⟨typed_handleUndefSliceInst.shadow, typed_append hsinks typed_handleUndefSliceInst.checks⟩
  · have h := typed_visit (i := i) hm term
    exact ⟨h.shadow, typed_append hsinks h.checks⟩

end Handlers

/-! ### The run -/

/-- The shadows of the state have shadow types. -/
structure St.ShadowsTyped (s : St) : Prop where
  shadows : CQMSan.ShadowsTyped s.shadowMap
  checks : ∀ c ∈ s.checks, c.shadow.ty.isShadow = true

theorem St.ShadowsTyped.apply {s : St} {i : Inst} {v : Visit} (hs : s.ShadowsTyped)
    (hv : v.ShadowsTyped) : (s.apply i v).ShadowsTyped := by
  refine ⟨fun n sv hsv => ?_, fun c hc => ?_⟩
  · rw [St.apply] at hsv
    cases hshadow : v.shadow with
    | none =>
      rw [hshadow] at hsv
      exact hs.shadows n sv hsv
    | some u =>
      rw [hshadow] at hsv
      dsimp only at hsv
      by_cases hn : n = i.name
      · rw [hn, Function.update_self] at hsv
        rw [← Option.some.inj hsv]
        exact hv.shadow u hshadow
      · rw [Function.update_of_ne hn] at hsv
        exact hs.shadows n sv hsv
  · rcases List.mem_append.mp hc with hc | hc
    · exact hs.checks c hc
    · obtain ⟨d, hd, rfl⟩ := List.mem_map.mp hc
      exact hv.checks d hd

/-- **Every shadow has a shadow type**, in the map and in the checks of the visit phase. -/
theorem runVisit_shadowsTyped (cx : Ctx) : (runVisit cx).ShadowsTyped := by
  have hinit : (St.init cx).ShadowsTyped := by
    refine ⟨fun n sv hsv => ?_, by simp [St.init]⟩
    cases hsv
  have hrun : ∀ (l : List (Label × Inst)) (s : St), s.ShadowsTyped →
      (l.foldl (visitStep cx cx.computeUndefSlice) s).ShadowsTyped := by
    intro l
    induction l with
    | nil => exact fun s hs => hs
    | cons bi l ih => exact fun s hs => ih _ (hs.apply (typed_process hs.shadows _))
  exact hrun _ _ hinit

end CQMSan
