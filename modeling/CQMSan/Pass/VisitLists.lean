import CQMSan.Pass.VisitSsa

/-!
# The lists of the visit phase

The handlers enter instructions into the lists for the later phases: stores, shadow PHIs,
allocas, `va_start`s, lifetime intrinsics, returns and the shadows of checked loads. What each
list holds follows from the class of the instruction (`Visit.Listed`); `ListInv` is the invariant.
-/

namespace CQMSan

/-! ### What enters the lists -/

/-- What enters the lists of the later phases, and the shadows of deferrable checks. -/
structure Visit.Listed (opts : Options) (i : Inst) (v : Visit) : Prop where
  store : v.isStore = true → ∃ isAtomic isVolatile, i.op = .store isAtomic isVolatile
  phi : v.isShadowPhi = true → ∃ ls, i.op = .phi ls
  alloca : v.isAlloca = true → ∃ t, i.op = .alloca t
  vaStart : v.isVaStart = true → ∃ c, i.op = .call c ∧ c.callee = .intrinsic .vaStart
  lifetime : ∀ a, v.lifetimeOf = some (some a) →
    ∃ c, i.op = .call c ∧ c.callee = .intrinsic .lifetimeStart
  ret : ∀ r, v.pendingReturn = some r → i.op = .ret ∧ r ∈ i.args
  load : ∀ sv, v.checkedLoadShadow = some sv → i.op = .load ∧ sv.isConstant = false ∧
    (opts.emitChecks = true → (sv, false) ∈ v.checks)
  deferrable : ∀ c ∈ v.checks, c.2 = false → c.1.isConstant = false

section Listed

variable {opts : Options} {si : Site} {i term : Inst} {v : Visit}

/-- The flags that a handler sets. -/
def Visit.flags (v : Visit) : Bool × Bool × Bool × Bool :=
  (v.isStore, v.isShadowPhi, v.isAlloca, v.isVaStart)

/-- A handler that sets no flag. -/
theorem Visit.Listed.of_flags (h : v.flags = (false, false, false, false))
    (hl : v.lifetimeOf.isSome → ∃ c, i.op = .call c ∧ c.callee = .intrinsic .lifetimeStart)
    (hr : ∀ r, v.pendingReturn = some r → i.op = .ret ∧ r ∈ i.args)
    (hc : ∀ sv, v.checkedLoadShadow = some sv → i.op = .load ∧ sv.isConstant = false ∧
      (opts.emitChecks = true → (sv, false) ∈ v.checks))
    (hd : ∀ c ∈ v.checks, c.2 = false → c.1.isConstant = false) : v.Listed opts i := by
  simp only [Visit.flags, Prod.mk.injEq] at h
  obtain ⟨h1, h2, h3, h4⟩ := h
  refine ⟨fun ht => ?_, fun ht => ?_, fun ht => ?_, fun ht => ?_, fun a ha => hl ?_, hr, hc, hd⟩
  · rw [h1] at ht
    cases ht
  · rw [h2] at ht
    cases ht
  · rw [h3] at ht
    cases ht
  · rw [h4] at ht
    cases ht
  · rw [ha]
    rfl

/-- A handler that enters nothing. -/
theorem Visit.Listed.nothing (h : v.flags = (false, false, false, false))
    (hl : v.lifetimeOf = none) (hr : v.pendingReturn = none) (hc : v.checkedLoadShadow = none)
    (hd : ∀ c ∈ v.checks, c.2 = false → c.1.isConstant = false) : v.Listed opts i :=
  .of_flags h (by simp [hl]) (by simp [hr]) (by simp [hc]) hd

theorem Visit.Listed.addChecks (h : v.Listed opts i) {cs : List (Val × Bool)}
    (hcs : ∀ c ∈ cs, c.2 = false → c.1.isConstant = false) :
    Visit.Listed opts i { v with checks := cs ++ v.checks } := by
  refine ⟨h.store, h.phi, h.alloca, h.vaStart, h.lifetime, h.ret, fun sv hsv => ?_,
    fun c hc => ?_⟩
  · obtain ⟨hop, hconst, hpush⟩ := h.load sv hsv
    exact ⟨hop, hconst, fun he => List.mem_append_right _ (hpush he)⟩
  · rcases List.mem_append.mp hc with hc | hc
    · exact hcs c hc
    · exact h.deferrable c hc

theorem deferrable_pushShadowCheck {sv : Val} {e : Bool}
    (h : e = false → sv.isConstant = false) :
    ∀ c ∈ si.pushShadowCheck sv e, c.2 = false → c.1.isConstant = false := by
  intro c hc
  rw [Site.pushShadowCheck] at hc
  split_ifs at hc
  · rw [List.mem_singleton.mp hc]
    exact h
  · cases hc

theorem deferrable_insertShadowCheck (u : Val) :
    ∀ c ∈ si.insertShadowCheck u, c.2 = false → c.1.isConstant = false := by
  rw [Site.insertShadowCheck]
  split_ifs
  · exact deferrable_pushShadowCheck (by simp)
  · split
    · exact deferrable_pushShadowCheck (by simp)
    · simp

theorem deferrable_checkAddress (u : Val) :
    ∀ c ∈ si.checkAddress u, c.2 = false → c.1.isConstant = false := by
  rw [Site.checkAddress]
  split_ifs
  · exact deferrable_insertShadowCheck u
  · simp

theorem deferrable_append {cs ds : List (Val × Bool)}
    (hc : ∀ c ∈ cs, c.2 = false → c.1.isConstant = false)
    (hd : ∀ c ∈ ds, c.2 = false → c.1.isConstant = false) :
    ∀ c ∈ cs ++ ds, c.2 = false → c.1.isConstant = false := by
  intro c h
  rcases List.mem_append.mp h with h | h
  · exact hc c h
  · exact hd c h

theorem listed_nothing : (si.nothing i).Listed opts i :=
  .nothing rfl rfl rfl rfl (by simp [Site.nothing])

theorem listed_visitInstruction : (si.visitInstruction i).Listed opts i :=
  .nothing rfl rfl rfl rfl (by simp [Site.visitInstruction, Site.nothing])

theorem listed_visitLoadInst (hi : i.op = .load) : (si.visitLoadInst term i).Listed si.opts i := by
  rw [Site.visitLoadInst]
  split
  · exact .nothing rfl rfl rfl rfl (by simp [Site.nothing])
  split
  · exact .nothing rfl rfl rfl rfl (deferrable_checkAddress _)
  split
  · exact .nothing rfl rfl rfl rfl (deferrable_checkAddress _)
  · dsimp only
    generalize hl : si.loadShadow (if (!isUnsplittableTerminator term) = true then si.here ++ [i]
      else si.here) (i.args.getD 0 (.zero .ptr)) (getShadowTy i.ty) = r
    have hconst : r.1.isConstant = false := by
      rw [← hl]
      rfl
    obtain ⟨sv, b⟩ := r
    have hflags : ∀ w : Visit, w = (if (!isUnsplittableTerminator term) = true then
        si.emittedAfter i b else si.emittedBefore i b) →
        w.flags = (false, false, false, false) ∧ w.lifetimeOf = none ∧ w.pendingReturn = none := by
      rintro w rfl
      split <;> exact ⟨rfl, rfl, rfl⟩
    obtain ⟨h, hl, hr⟩ := hflags _ rfl
    refine .of_flags h (fun ht => ?_) (fun r hr' => ?_) (fun u hu => ?_) ?_
    · rw [show Visit.lifetimeOf _ = none from hl] at ht
      cases ht
    · rw [show Visit.pendingReturn _ = none from hr] at hr'
      cases hr'
    · dsimp only at hu
      split_ifs at hu with hcl
      obtain rfl := Option.some.inj hu
      refine ⟨hi, hconst, fun he => List.mem_append_left _ ?_⟩
      rw [if_pos hcl, Site.pushShadowCheck, if_pos he]
      exact List.mem_singleton_self _
    · refine deferrable_append ?_ (deferrable_checkAddress _)
      split_ifs
      · exact deferrable_pushShadowCheck fun _ => hconst
      · simp

theorem listed_handleMaskedLoadLike {o : ShOp} {addr mask other : Val} {b : Builder}
    {checks : List (Val × Bool)} (h : ∀ c ∈ checks, c.2 = false → c.1.isConstant = false) :
    (si.handleMaskedLoadLike o addr mask other checks b i).Listed opts i := by
  rw [Site.handleMaskedLoadLike]
  dsimp only
  split
  · exact .nothing rfl rfl rfl rfl (deferrable_append h (deferrable_pushShadowCheck fun _ => rfl))
  · exact .nothing rfl rfl rfl rfl h

theorem listed_handleMaskedStoreLike {o : ShOp} {addr mask other : Val} {b : Builder}
    {checks : List (Val × Bool)} (h : ∀ c ∈ checks, c.2 = false → c.1.isConstant = false) :
    (si.handleMaskedStoreLike o addr mask other checks b i).Listed opts i :=
  .nothing rfl rfl rfl rfl h

theorem deferrable_checkPtrAndMask (ptr mask : Val) :
    ∀ c ∈ si.checkPtrAndMask ptr mask, c.2 = false → c.1.isConstant = false :=
  deferrable_append (deferrable_checkAddress ptr) (deferrable_checkAddress mask)

theorem deferrable_checkPtrsAndMask (ptrs mask : Val) :
    ∀ c ∈ (si.checkPtrsAndMask ptrs mask).1, c.2 = false → c.1.isConstant = false := by
  rw [Site.checkPtrsAndMask]
  split
  · exact deferrable_append (deferrable_insertShadowCheck mask)
      (deferrable_pushShadowCheck (by simp))
  · simp

theorem listed_handleUnknownIntrinsic (onlyReadsMemory : Bool) :
    (si.handleUnknownIntrinsic onlyReadsMemory i).Listed opts i := by
  rw [Site.handleUnknownIntrinsic]
  split
  · split
    · rw [Site.handleVectorStoreIntrinsic]
      split
      · exact listed_nothing
      · exact .nothing rfl rfl rfl rfl (deferrable_checkAddress _)
    · exact listed_visitInstruction
  · split
    · exact .nothing rfl rfl rfl rfl
        (deferrable_append (deferrable_pushShadowCheck fun _ => rfl) (deferrable_checkAddress _))
    · exact listed_visitInstruction
  · exact listed_visitInstruction

theorem listed_visitIntrinsicInst {c : CallInfo} {id : Intrinsic} (hi : i.op = .call c)
    (hc : c.callee = .intrinsic id) : (si.visitIntrinsicInst id i).Listed opts i := by
  have hnil : ∀ {v : Visit}, v.checks = [] → ∀ d ∈ v.checks, d.2 = false → d.1.isConstant = false :=
    fun h => by simp [h]
  cases id with
  | memcpy | memmove | memset | vaCopy | launderInvariantGroup | stripInvariantGroup | isConstant =>
    exact .nothing rfl rfl rfl rfl (hnil rfl)
  | vaStart =>
    have h : (si.unpoisonVAListTag i).Listed opts i := .nothing rfl rfl rfl rfl (hnil rfl)
    exact ⟨h.store, h.phi, h.alloca, fun _ => ⟨c, hi, hc⟩, h.lifetime, h.ret, h.load, h.deferrable⟩
  | lifetimeStart =>
    rw [Site.visitIntrinsicInst]
    split
    · exact .of_flags rfl (fun _ => ⟨c, hi, hc⟩) (by simp [Site.nothing]) (by simp [Site.nothing])
        (hnil rfl)
    · exact listed_nothing
  | maskedCompressstore =>
    rw [Site.visitIntrinsicInst, Site.handleMaskedCompressStore]
    split
    · exact listed_nothing
    · exact listed_handleMaskedStoreLike (deferrable_checkPtrAndMask _ _)
  | maskedExpandload => exact listed_handleMaskedLoadLike (deferrable_checkPtrAndMask _ _)
  | maskedGather => exact listed_handleMaskedLoadLike (deferrable_checkPtrsAndMask _ _)
  | maskedScatter =>
    rw [Site.visitIntrinsicInst, Site.handleMaskedScatter]
    split
    · exact listed_nothing
    · exact listed_handleMaskedStoreLike (deferrable_checkPtrsAndMask _ _)
  | maskedStore =>
    rw [Site.visitIntrinsicInst, Site.handleMaskedStore]
    split
    · exact listed_nothing
    · exact listed_handleMaskedStoreLike (deferrable_checkPtrAndMask _ _)
  | maskedLoad => exact listed_handleMaskedLoadLike (deferrable_checkPtrAndMask _ _)
  | x86SseStmxcsr => exact .nothing rfl rfl rfl rfl (deferrable_checkAddress _)
  | x86SseLdmxcsr =>
    rw [Site.visitIntrinsicInst, Site.handleLdmxcsr]
    split
    · exact listed_nothing
    · exact .nothing rfl rfl rfl rfl
        (deferrable_append (deferrable_checkAddress _) (deferrable_pushShadowCheck fun _ => rfl))
  | arith => exact listed_handleUnknownIntrinsic true
  | other onlyReadsMemory => exact listed_handleUnknownIntrinsic onlyReadsMemory

theorem listed_visitCallBase (c : CallInfo) : (si.visitCallBase c i).Listed opts i := by
  have hord : (si.visitOrdinaryCall c i).Listed opts i := by
    refine .nothing rfl rfl rfl rfl ?_
    simp only [Site.visitOrdinaryCall]
    split
    · intro d hd
      obtain ⟨a, -, hd⟩ := List.mem_flatMap.mp hd
      exact deferrable_insertShadowCheck _ d hd
    · simp
  have hnil : ∀ {v : Visit}, v.checks = [] → ∀ d ∈ v.checks, d.2 = false → d.1.isConstant = false :=
    fun h => by simp [h]
  rw [Site.visitCallBase]
  split
  · split
    · exact .nothing rfl rfl rfl rfl (hnil rfl)
    · exact listed_visitInstruction
  · split
    · exact .nothing rfl rfl rfl rfl (hnil rfl)
    · split
      · exact .nothing rfl rfl rfl rfl (hnil rfl)
      · exact hord
  · exact hord

theorem listed_visitReturnInst (hi : i.op = .ret) : (si.visitReturnInst i).Listed opts i := by
  rw [Site.visitReturnInst]
  split
  next u hargs =>
    split
    · exact listed_nothing
    · by_cases hc : (if si.opts.checkReturns then isUndefSliceScalar u.ty
          else si.cx.retNoUndef) = true
      · rw [if_pos hc]
        refine .of_flags rfl (by simp [Site.nothing]) (fun r hr => ?_) (by simp [Site.nothing])
          (by simp [Site.nothing])
        obtain rfl := Option.some.inj hr
        exact ⟨hi, by simp [hargs]⟩
      · rw [if_neg hc]
        exact listed_nothing
  next => exact listed_nothing

theorem listed_visit : (si.visit term i).Listed si.opts i := by
  have hnil : ∀ {v : Visit}, v.checks = [] → ∀ d ∈ v.checks, d.2 = false → d.1.isConstant = false :=
    fun h => by simp [h]
  rw [Site.visit]
  split
  next h => exact listed_visitLoadInst h
  next isAtomic isVolatile h =>
    rw [Site.visitStoreInst]
    split
    · exact listed_nothing
    · have hl : (si.nothing i).Listed si.opts i := listed_nothing
      exact ⟨fun _ => ⟨_, _, h⟩, hl.phi, hl.alloca, hl.vaStart, hl.lifetime, hl.ret,
        by simp [Site.nothing], deferrable_checkAddress _⟩
  next =>
    refine .nothing rfl rfl rfl rfl (deferrable_append (deferrable_checkAddress _) ?_)
    split
    · exact deferrable_insertShadowCheck _
    · simp
  next =>
    refine .nothing rfl rfl rfl rfl (deferrable_append (deferrable_checkAddress _) ?_)
    split
    · exact deferrable_insertShadowCheck _
    · simp
  next c hi =>
    split
    next id hc => exact listed_visitIntrinsicInst hi hc
    next => exact listed_visitCallBase c
  next c _ hi => exact listed_visitCallBase c
  next c hi => exact listed_visitCallBase c
  next hi => exact listed_visitReturnInst hi
  next ls hi =>
    have hl : (si.nothing i).Listed si.opts i := listed_nothing
    exact ⟨hl.store, fun _ => ⟨ls, hi⟩, hl.alloca, hl.vaStart, hl.lifetime, hl.ret, hl.load,
      hnil rfl⟩
  next t hi =>
    have hl : (si.nothing i).Listed si.opts i := listed_nothing
    exact ⟨hl.store, hl.phi, fun _ => ⟨t, hi⟩, hl.vaStart, hl.lifetime, hl.ret, hl.load, hnil rfl⟩
  next => exact listed_visitInstruction

theorem deferrable_checkUndefSliceSinks :
    ∀ c ∈ si.checkUndefSliceSinks i, c.2 = false → c.1.isConstant = false := by
  refine forall_checkUndefSliceSinks fun u _ => ?_
  rw [Site.sinkCheck]
  split_ifs
  · exact deferrable_insertShadowCheck u
  · simp

theorem listed_process : (si.process term i).Listed si.opts i := by
  rw [Site.process]
  split
  · exact listed_visit
  · dsimp only
    split
    · refine Visit.Listed.addChecks ?_ deferrable_checkUndefSliceSinks
      rw [Site.handleUndefSliceInst]
      split
      · exact .nothing rfl rfl rfl rfl (by simp [Site.emittedBefore, Site.nothing])
      · split
        · exact .nothing rfl rfl rfl rfl (by simp [Site.nothing])
        · exact .nothing rfl rfl rfl rfl (by simp [Site.emittedBefore, Site.nothing])
    · exact listed_visit.addChecks deferrable_checkUndefSliceSinks

end Listed

/-! ### The lists -/

/-- What the lists for the later phases hold. -/
structure ListInv (opts : Options) (done : List Inst) (s : St) : Prop where
  stores : ∀ i ∈ s.storeList, i ∈ done ∧ ∃ isAtomic isVolatile, i.op = .store isAtomic isVolatile
  phis : ∀ i ∈ s.shadowPhis, i ∈ done ∧ ∃ ls, i.op = .phi ls
  allocas : ∀ i ∈ s.allocaSet, i ∈ done ∧ ∃ t, i.op = .alloca t
  vaStarts : ∀ i ∈ s.vaStarts, i ∈ done ∧ ∃ c, i.op = .call c ∧ c.callee = .intrinsic .vaStart
  lifetimes : ∀ p ∈ s.lifetimeStartList, p.1 ∈ done ∧
    ∃ c, p.1.op = .call c ∧ c.callee = .intrinsic .lifetimeStart
  returns : ∀ p ∈ s.pendingReturnChecks, p.2 ∈ done ∧ p.2.op = .ret ∧ p.1 ∈ p.2.args
  loads : ∀ sv ∈ s.checkedLoadShadows, sv.isConstant = false ∧ (opts.emitChecks = true →
    ∃ c ∈ s.checks, c.shadow = sv ∧ c.essential = false ∧ c.origIns.op = .load)
  deferrable : ∀ c ∈ s.checks, c.essential = false → c.shadow.isConstant = false

theorem ListInv.step {opts : Options} {done : List Inst} {s : St} {i : Inst} {v : Visit}
    (h : ListInv opts done s) (hv : v.Listed opts i) : ListInv opts (i :: done) (s.apply i v) := by
  have hmono : ∀ {j : Inst}, j ∈ done → j ∈ i :: done := fun hj => List.mem_cons_of_mem _ hj
  have hflag : ∀ {b : Bool} {l : List Inst} {j : Inst}, j ∈ l ++ (if b then [i] else []) →
      j ∈ l ∨ b = true ∧ j = i := by
    intro b l j hj
    rcases List.mem_append.mp hj with hj | hj
    · exact Or.inl hj
    · split_ifs at hj with hb
      · exact Or.inr ⟨hb, List.mem_singleton.mp hj⟩
      · cases hj
  refine ⟨fun j hj => ?_, fun j hj => ?_, fun j hj => ?_, fun j hj => ?_, fun p hp => ?_,
    fun p hp => ?_, fun sv hsv => ?_, fun c hc he => ?_⟩
  · rcases hflag hj with hj | ⟨hb, rfl⟩
    · exact ⟨hmono (h.stores j hj).1, (h.stores j hj).2⟩
    · exact ⟨List.mem_cons_self, hv.store hb⟩
  · rcases hflag hj with hj | ⟨hb, rfl⟩
    · exact ⟨hmono (h.phis j hj).1, (h.phis j hj).2⟩
    · exact ⟨List.mem_cons_self, hv.phi hb⟩
  · rcases hflag hj with hj | ⟨hb, rfl⟩
    · exact ⟨hmono (h.allocas j hj).1, (h.allocas j hj).2⟩
    · exact ⟨List.mem_cons_self, hv.alloca hb⟩
  · rcases hflag hj with hj | ⟨hb, rfl⟩
    · exact ⟨hmono (h.vaStarts j hj).1, (h.vaStarts j hj).2⟩
    · exact ⟨List.mem_cons_self, hv.vaStart hb⟩
  · rcases List.mem_append.mp hp with hp | hp
    · exact ⟨hmono (h.lifetimes p hp).1, (h.lifetimes p hp).2⟩
    · split at hp
      next a ha =>
        rw [List.mem_singleton.mp hp]
        exact ⟨List.mem_cons_self, hv.lifetime a ha⟩
      next => cases hp
  · rcases List.mem_append.mp hp with hp | hp
    · exact ⟨hmono (h.returns p hp).1, (h.returns p hp).2⟩
    · obtain ⟨r, hr, rfl⟩ := List.mem_map.mp hp
      exact ⟨List.mem_cons_self, hv.ret r (by simpa using hr)⟩
  · rcases List.mem_append.mp hsv with hsv | hsv
    · obtain ⟨hconst, hload⟩ := h.loads sv hsv
      refine ⟨hconst, fun he => ?_⟩
      obtain ⟨c, hc, hrest⟩ := hload he
      exact ⟨c, List.mem_append_left _ hc, hrest⟩
    · obtain ⟨hop, hconst, hpush⟩ := hv.load sv (by simpa using hsv)
      exact ⟨hconst, fun he => ⟨⟨sv, i, false⟩, List.mem_append_right _
        (List.mem_map.mpr ⟨_, hpush he, rfl⟩), rfl, rfl, hop⟩⟩
  · rcases List.mem_append.mp hc with hc | hc
    · exact h.deferrable c hc he
    · obtain ⟨d, hd, rfl⟩ := List.mem_map.mp hc
      exact hv.deferrable d hd he

end CQMSan
