import CQMSan.Pass.ShadowCalls

/-!
# What a handler calls

A handler asks for shadows of operands and sets the shadow of its instruction at most once
(`CallsOk`), and it does set it when the instruction has a value, unless that is a `musttail` call
(`processWith_shadow`).

Besides `Func.WellFormed`, the verifier of the IR is relied on for types and for the place of
`musttail` calls (`Func.WellTyped`).
-/

namespace CQMSan

/-! ### Types -/

/-- Whether the class of an intrinsic decides that its calls have a result. -/
def Intrinsic.hasResult? : Intrinsic → Option Bool
  | .memcpy | .memmove | .memset | .vaStart | .vaCopy | .lifetimeStart | .maskedCompressstore
  | .maskedScatter | .maskedStore | .x86SseStmxcsr | .x86SseLdmxcsr => some false
  | .other _ => none
  | _ => some true

/-- Whether the class of an instruction decides that it has a result. Calls of functions may have
one; pads and some intrinsics may have a token. -/
def Inst.hasResult? (i : Inst) : Option Bool :=
  match i.op with
  | .call c | .invoke c _ | .callBr c =>
    match c.callee with
    | .intrinsic id => id.hasResult?
    | .fn name => if name = "__atomic_load" ∨ name = "__atomic_store" then some false else none
    | _ => none
  | .store _ _ | .fence | .ret | .br | .condBr | .switch | .indirectBr | .unreachable | .resume
  | .catchRet | .cleanupRet _ => some false
  | .catchPad | .cleanupPad | .catchSwitch _ | .sh _ => none
  | _ => some true

/-- The instructions that take tokens: intrinsics, and those of exception handling. -/
def Inst.takesToken (i : Inst) : Bool :=
  match i.op with
  | .call c | .invoke c _ | .callBr c =>
    match c.callee with
    | .intrinsic (.other _) => true
    | _ => false
  | .catchPad | .cleanupPad | .catchSwitch _ | .catchRet | .cleanupRet _ => true
  | _ => false

/-- `isMustTailCall()`. -/
def Inst.isMustTail (i : Inst) : Bool :=
  match i.callInfo? with
  | some c => c.mustTail
  | none => false

/-- The instructions that may follow a `musttail` call: a bitcast and a return. -/
def Inst.followsMustTail (i : Inst) : Bool :=
  match i.op with
  | .ret | .cast true => true
  | _ => false

/-- What the verifier of the IR checks of the types of a function. -/
structure Func.WellTyped (f : Func) : Prop where
  /-- The class of an instruction decides whether it has a result. -/
  result : ∀ b ∈ f.labels, ∀ i ∈ f.code b, ∀ r, i.hasResult? = some r → i.ty.isSized = r
  /-- An operand has the type of the instruction that defines it. -/
  operand : ∀ b ∈ f.labels, ∀ i ∈ f.code b, ∀ n t, Val.inst n t ∈ i.args →
    ∀ d ∈ f.labels, ∀ j ∈ f.code d, j.name = n → j.ty = t
  /-- An operand without a size is a token. -/
  sized : ∀ b ∈ f.labels, ∀ i ∈ f.code b, ∀ v ∈ i.args,
    v.ty.isSized = true ∨ v.ty = .token ∧ i.takesToken = true
  /-- A PHI has one incoming block for each operand. -/
  incoming : ∀ b ∈ f.labels, ∀ i ∈ f.code b, ∀ ls, i.op = .phi ls →
    i.args.length = ls.length ∧ ∀ l ∈ ls, l ∈ f.labels
  /-- Only a call is `musttail`, and its result is at most cast and returned. -/
  mustTail : ∀ b ∈ f.labels, ∀ i ∈ f.code b, i.isMustTail = true → (∃ c, i.op = .call c) ∧
    ∀ d ∈ f.labels, ∀ j ∈ f.code d, i.val ∈ j.args → j.followsMustTail = true

/-! ### What a handler calls -/

/-- The calls are calls of `getShadow` for values with `A`. -/
def OnlyGets (A : Val → Prop) (cs : List ShadowCall) : Prop := ∀ c ∈ cs, ∃ v, c = .get v ∧ A v

/-- The calls of a handler: some of `getShadow`, and at most one of `setShadow`, for `i`. The
Boolean says whether `i` has a shadow afterwards. -/
inductive CallsOk (A : Val → Prop) (i : Inst) : Bool → List ShadowCall → Prop
  | gets {cs : List ShadowCall} (h : OnlyGets A cs) : CallsOk A i false cs
  | set {cs ds : List ShadowCall} {nonNull : Bool} (hc : OnlyGets A cs) (hd : OnlyGets A ds) :
    CallsOk A i nonNull (cs ++ .set i nonNull :: ds)

section CallsOk

variable {A : Val → Prop} {i : Inst} {cs ds : List ShadowCall} {r : Bool}

theorem OnlyGets.nil : OnlyGets A [] := fun _ h => absurd h List.not_mem_nil

theorem OnlyGets.single {v : Val} (h : A v) : OnlyGets A [.get v] := fun _ hc =>
  ⟨v, List.mem_singleton.mp hc, h⟩

theorem OnlyGets.append (hc : OnlyGets A cs) (hd : OnlyGets A ds) : OnlyGets A (cs ++ ds) :=
  fun c h => (List.mem_append.mp h).elim (hc c) (hd c)

theorem OnlyGets.map {vs : List Val} (h : ∀ v ∈ vs, A v) : OnlyGets A (vs.map .get) := by
  intro c hc
  obtain ⟨v, hv, rfl⟩ := List.mem_map.mp hc
  exact ⟨v, rfl, h v hv⟩

theorem OnlyGets.ite {p : Prop} [Decidable p] (hc : p → OnlyGets A cs) (hd : ¬ p → OnlyGets A ds) :
    OnlyGets A (if p then cs else ds) := by
  split_ifs with h
  · exact hc h
  · exact hd h

theorem CallsOk.setOnly (r : Bool) : CallsOk A i r [.set i r] := .set .nil .nil

theorem CallsOk.setLast (hc : OnlyGets A cs) : CallsOk A i r (cs ++ [.set i r]) := .set hc .nil

theorem CallsOk.setFirst (hc : OnlyGets A cs) : CallsOk A i r (.set i r :: cs) := .set .nil hc

/-- Further calls of `getShadow` in front. -/
theorem CallsOk.prepend (hc : OnlyGets A cs) (h : CallsOk A i r ds) : CallsOk A i r (cs ++ ds) := by
  cases h with
  | gets h => exact .gets (hc.append h)
  | set h h' =>
    rw [← List.append_assoc]
    exact .set (hc.append h) h'

end CallsOk

section Handlers

variable {si : Site} {A : Val → Prop} {i term : Inst}

/-- An argument with a size is asked for. -/
def AsksArgs (A : Val → Prop) (i : Inst) : Prop := ∀ v, IsArg i v → v.ty.isSized = true → A v

theorem AsksArgs.getD (h : AsksArgs A i) (hargs : ∀ v ∈ i.args, v.ty.isSized = true) (k : ℕ) :
    A (i.args.getD k (.zero .ptr)) := by
  refine h _ (isArg_getD i k .ptr) ?_
  rw [List.getD_eq_getElem?_getD]
  cases hk : i.args[k]? with
  | none => rfl
  | some v => exact hargs v (List.mem_of_getElem? hk)

theorem onlyGets_checkAddress {v : Val} (h : A v) : OnlyGets A (Calls.checkAddress si.cx v) :=
  OnlyGets.ite (fun _ => .single h) fun _ => .nil

theorem onlyGets_storedShadow {v : Val} (h : A v) : OnlyGets A (Calls.storedShadow si.cx v) :=
  OnlyGets.ite (fun _ => .nil) fun _ => .single h

theorem callsOk_visitInstruction :
    CallsOk A i (si.visitInstruction i).shadow.isSome (Calls.visitInstruction i) := by
  rw [Site.visitInstruction, Calls.visitInstruction]
  split_ifs with h
  · rw [Calls.setClean, h]
    exact .setOnly true
  · exact .gets .nil

theorem callsOk_visitLoadInst (h : ∀ k, A (i.args.getD k (.zero .ptr)))
    (hty : i.ty.isSized = true) :
    CallsOk A i (si.visitLoadInst term i).shadow.isSome (Calls.visitLoadInst si.cx i) := by
  have haddr : OnlyGets A (Calls.checkAddress si.cx (i.args.getD 0 (.zero .ptr))) :=
    onlyGets_checkAddress (h 0)
  rw [Site.visitLoadInst, Calls.visitLoadInst, Calls.setClean, hty]
  simp only [Site.opts]
  split_ifs
  · exact .setOnly true
  all_goals exact .setFirst haddr

theorem callsOk_visitStoreInst (h : ∀ k, A (i.args.getD k (.zero .ptr))) :
    CallsOk A i (si.visitStoreInst i).shadow.isSome (Calls.visitStoreInst si.cx i) := by
  have hnone : (si.visitStoreInst i).shadow = none := by
    rw [Site.visitStoreInst]
    split <;> rfl
  rw [hnone]
  exact .gets (OnlyGets.ite (fun _ => .nil) fun _ => onlyGets_checkAddress (h 1))

theorem callsOk_handleCASOrRMW (isCmpXchg : Bool) (h : ∀ k, A (i.args.getD k (.zero .ptr)))
    (hty : i.ty.isSized = true) :
    CallsOk A i (si.handleCASOrRMW isCmpXchg i).shadow.isSome
      (Calls.handleCASOrRMW si.cx isCmpXchg i) := by
  rw [Site.handleCASOrRMW, Calls.handleCASOrRMW, Calls.setClean, hty]
  exact .setLast ((onlyGets_checkAddress (h 0)).append
    (OnlyGets.ite (fun _ => .single (h 1)) fun _ => .nil))

theorem callsOk_handleUnknownIntrinsic (onlyReadsMemory : Bool) (h : AsksArgs A i)
    (hsized : ∀ v ∈ i.args, v.ty ≠ .token → v.ty.isSized = true) :
    CallsOk A i (si.handleUnknownIntrinsic onlyReadsMemory i).shadow.isSome
      (Calls.handleUnknownIntrinsic si.cx onlyReadsMemory i) := by
  have hasked : ∀ v ∈ i.args, v.ty ≠ .token → A v := fun v hv ht =>
    h v (Or.inl hv) (hsized v hv ht)
  have hptr : ∀ v : Val, v.ty.isPointer = true → v.ty ≠ .token := by
    rintro v hv heq
    rw [heq] at hv
    cases hv
  match hargs : i.args with
  | [p, v] =>
    simp only [Site.handleUnknownIntrinsic, Calls.handleUnknownIntrinsic, hargs]
    split_ifs with hc
    · have hp : A p := hasked p (by simp [hargs]) (hptr p hc.1)
      have hv : A v := by
        refine hasked v (by simp [hargs]) fun heq => ?_
        have hvec := hc.2.1
        rw [heq] at hvec
        cases hvec
      have hnone : (si.handleVectorStoreIntrinsic i).shadow = none := by
        rw [Site.handleVectorStoreIntrinsic]
        split <;> rfl
      rw [hnone, Calls.handleVectorStoreIntrinsic, hargs]
      exact .gets (OnlyGets.ite (fun _ => .nil) fun _ =>
        (onlyGets_storedShadow hv).append (onlyGets_checkAddress hp))
    · exact callsOk_visitInstruction
  | [p] =>
    simp only [Site.handleUnknownIntrinsic, Calls.handleUnknownIntrinsic, hargs]
    split_ifs with hc
    · have hp : A p := hasked p (by simp [hargs]) (hptr p hc.1)
      rw [Calls.handleVectorLoadIntrinsic, hargs]
      exact .setFirst (onlyGets_checkAddress hp)
    · exact callsOk_visitInstruction
  | [] | _ :: _ :: _ :: _ =>
    simp only [Site.handleUnknownIntrinsic, Calls.handleUnknownIntrinsic, hargs]
    exact callsOk_visitInstruction

theorem onlyGets_checkPtrAndMask {ptr mask : Val} (hp : A ptr) (hm : A mask) :
    OnlyGets A (Calls.checkPtrAndMask si.cx ptr mask) :=
  (onlyGets_checkAddress hp).append (onlyGets_checkAddress hm)

theorem onlyGets_checkPtrsAndMask {ptrs mask : Val} (hp : A ptrs) (hm : A mask) :
    OnlyGets A (Calls.checkPtrsAndMask si.cx ptrs mask) :=
  (onlyGets_checkAddress hm).append (onlyGets_checkAddress hp)

theorem handleMaskedLoadLike_shadow {o : ShOp} {addr mask passThru : Val}
    {checks : List (Val × Bool)} {b : Builder} :
    (si.handleMaskedLoadLike o addr mask passThru checks b i).shadow.isSome = true := by
  rw [Site.handleMaskedLoadLike]
  dsimp only
  split <;> rfl

theorem callsOk_handleMaskedLoadLike {o : ShOp} {addr mask passThru : Val}
    {checks : List (Val × Bool)} {b : Builder} {cs : List ShadowCall} (hc : OnlyGets A cs)
    (hp : A passThru) :
    CallsOk A i (si.handleMaskedLoadLike o addr mask passThru checks b i).shadow.isSome
      (cs ++ Calls.handleMaskedLoadLike passThru i) := by
  rw [handleMaskedLoadLike_shadow]
  exact .prepend hc (.setLast (.single hp))

theorem callsOk_visitIntrinsicInst {id : Intrinsic} (h : AsksArgs A i)
    (hargs : (∀ r, id ≠ .other r) → ∀ v ∈ i.args, v.ty.isSized = true)
    (hsized : ∀ v ∈ i.args, v.ty ≠ .token → v.ty.isSized = true)
    (hty : id = .isConstant → i.ty.isSized = true) :
    CallsOk A i (si.visitIntrinsicInst id i).shadow.isSome
      (Calls.visitIntrinsicInst si.cx id i) := by
  have harg : (∀ r, id ≠ .other r) → ∀ k, A (i.args.getD k (.zero .ptr)) := fun hid =>
    h.getD (hargs hid)
  cases id with
  | memcpy | memmove => exact .gets (.single (harg (by simp) 1))
  | memset | vaStart | vaCopy => exact .gets .nil
  | lifetimeStart =>
    rw [Site.visitIntrinsicInst]
    split <;> exact .gets .nil
  | launderInvariantGroup | stripInvariantGroup => exact .setLast (.single (harg (by simp) 0))
  | maskedCompressstore =>
    have harg := harg (by simp)
    have hnone : (si.visitIntrinsicInst .maskedCompressstore i).shadow = none := by
      rw [Site.visitIntrinsicInst, Site.handleMaskedCompressStore]
      split <;> rfl
    rw [hnone]
    exact .gets (OnlyGets.ite (fun _ => .nil) fun _ =>
      (onlyGets_checkPtrAndMask (harg 1) (harg 2)).append (onlyGets_storedShadow (harg 0)))
  | maskedExpandload =>
    have harg := harg (by simp)
    exact callsOk_handleMaskedLoadLike (onlyGets_checkPtrAndMask (harg 0) (harg 1)) (harg 2)
  | maskedGather =>
    have harg := harg (by simp)
    exact callsOk_handleMaskedLoadLike (onlyGets_checkPtrsAndMask (harg 0) (harg 2)) (harg 3)
  | maskedScatter =>
    have harg := harg (by simp)
    have hnone : (si.visitIntrinsicInst .maskedScatter i).shadow = none := by
      rw [Site.visitIntrinsicInst, Site.handleMaskedScatter]
      split <;> rfl
    rw [hnone]
    exact .gets (OnlyGets.ite (fun _ => .nil) fun _ =>
      (onlyGets_checkPtrsAndMask (harg 1) (harg 3)).append (onlyGets_storedShadow (harg 0)))
  | maskedStore =>
    have harg := harg (by simp)
    have hnone : (si.visitIntrinsicInst .maskedStore i).shadow = none := by
      rw [Site.visitIntrinsicInst, Site.handleMaskedStore]
      split <;> rfl
    rw [hnone]
    exact .gets (OnlyGets.ite (fun _ => .nil) fun _ =>
      (onlyGets_storedShadow (harg 0)).append (onlyGets_checkPtrAndMask (harg 1) (harg 3)))
  | maskedLoad =>
    have harg := harg (by simp)
    exact callsOk_handleMaskedLoadLike (onlyGets_checkPtrAndMask (harg 0) (harg 2)) (harg 3)
  | isConstant =>
    rw [Calls.visitIntrinsicInst, Calls.setClean, hty rfl]
    exact .setOnly true
  | x86SseStmxcsr => exact .gets (onlyGets_checkAddress (harg (by simp) 0))
  | x86SseLdmxcsr =>
    have hnone : (si.visitIntrinsicInst .x86SseLdmxcsr i).shadow = none := by
      rw [Site.visitIntrinsicInst, Site.handleLdmxcsr]
      split <;> rfl
    rw [hnone]
    exact .gets (OnlyGets.ite (fun _ => .nil) fun _ => onlyGets_checkAddress (harg (by simp) 0))
  | arith => exact callsOk_handleUnknownIntrinsic true h hsized
  | other onlyReadsMemory => exact callsOk_handleUnknownIntrinsic onlyReadsMemory h hsized

/-- What `Func.WellTyped` says of one instruction. -/
structure InstTyped (i : Inst) : Prop where
  result : ∀ r, i.hasResult? = some r → i.ty.isSized = r
  sized : ∀ v ∈ i.args, v.ty.isSized = true ∨ v.ty = .token ∧ i.takesToken = true

theorem InstTyped.args (h : InstTyped i) (ht : i.takesToken = false) :
    ∀ v ∈ i.args, v.ty.isSized = true := by
  intro v hv
  rcases h.sized v hv with hs | ⟨-, htok⟩
  · exact hs
  · rw [ht] at htok
    cases htok

theorem InstTyped.sized_of_ne (h : InstTyped i) :
    ∀ v ∈ i.args, v.ty ≠ .token → v.ty.isSized = true :=
  fun v hv hne => (h.sized v hv).resolve_right fun htok => hne htok.1

theorem callsOk_visitIntrinsic {c : CallInfo} {id : Intrinsic} (hop : i.op = .call c)
    (hid : c.callee = .intrinsic id) (hty : InstTyped i) (h : AsksArgs A i) :
    CallsOk A i (si.visitIntrinsicInst id i).shadow.isSome
      (Calls.visitIntrinsicInst si.cx id i) := by
  refine callsOk_visitIntrinsicInst h (fun hother => hty.args ?_) hty.sized_of_ne fun hc => ?_
  · simp only [Inst.takesToken, hop, hid]
    split
    next r heq => exact absurd (Callee.intrinsic.inj heq) (hother r)
    next => rfl
  · refine hty.result true ?_
    simp [Inst.hasResult?, hop, hid, hc, Intrinsic.hasResult?]

theorem callsOk_returnedValue (pol : ReturnPolicy) (b : Label) (c : CallInfo) :
    CallsOk A i (i.ty.isSized && !c.mustTail) (Calls.returnedValue si.cx pol b c i) := by
  rw [Calls.returnedValue, Calls.setClean]
  cases hty : i.ty.isSized with
  | false => exact .gets .nil
  | true =>
    cases c.mustTail with
    | true => exact .gets .nil
    | false =>
      simp only [Bool.not_true, Bool.false_eq_true, if_false, ite_self]
      split_ifs
      · exact .setOnly true
      · exact .setOnly true
      · split <;> exact .setOnly true

theorem onlyGets_eagerArgumentChecks (c : CallInfo) (h : AsksArgs A i) :
    OnlyGets A (Calls.eagerArgumentChecks c i) := by
  intro d hd
  obtain ⟨a, ha, rfl⟩ := List.mem_map.mp hd
  obtain ⟨ha, hp⟩ := List.mem_filter.mp ha
  simp only [Bool.and_eq_true] at hp
  exact ⟨a.1, rfl, h a.1 (Or.inl (List.fst_mem_of_mem_zipIdx ha)) hp.1.1⟩

theorem visitCallBase_ordinary (si : Site) {c : CallInfo} (h : c.isOrdinary i = true)
    (pol : ReturnPolicy) (b : Label) : si.visitCallBase c i = si.visitOrdinaryCall c i ∧
      Calls.visitCallBase si.cx pol b c i =
        (if Calls.mayCheckCall si.cx c then Calls.eagerArgumentChecks c i else []) ++
          Calls.returnedValue si.cx pol b c i := by
  rw [CallInfo.isOrdinary] at h
  rw [Site.visitCallBase, Calls.visitCallBase]
  cases hc : c.callee with
  | asm outputArgs elemTys => simp [hc] at h
  | fn name =>
    simp only [hc, Bool.and_eq_true, Bool.not_eq_true', decide_eq_false_iff_not] at h
    simp only [if_neg h.1, if_neg h.2, and_self]
  | intrinsic id => exact ⟨rfl, rfl⟩
  | indirect v => exact ⟨rfl, rfl⟩

theorem callsOk_visitCallBase {c : CallInfo} (h : c.isOrdinary i = false) (pol : ReturnPolicy)
    (b : Label) : CallsOk A i (si.visitCallBase c i).shadow.isSome
      (Calls.visitCallBase si.cx pol b c i) := by
  rw [CallInfo.isOrdinary] at h
  cases hc : c.callee with
  | asm outputArgs elemTys =>
    simp only [Site.visitCallBase, Calls.visitCallBase, hc]
    by_cases hasm : si.opts.handleAsmConservative = true
    · rw [if_pos hasm, if_pos (show si.cx.opts.handleAsmConservative = true from hasm)]
      have hsome : (si.visitAsmInstruction outputArgs elemTys i).shadow.isSome = i.ty.isSized := by
        rw [Site.visitAsmInstruction]
        cases i.ty.isSized <;> rfl
      rw [hsome]
      exact .setOnly _
    · rw [if_neg hasm, if_neg (show ¬ si.cx.opts.handleAsmConservative = true from hasm)]
      exact callsOk_visitInstruction
  | fn name =>
    simp only [Site.visitCallBase, Calls.visitCallBase, hc]
    simp only [hc] at h
    by_cases hload : name = "__atomic_load" ∧ i.isTerminator = false
    · simp only [if_pos hload]
      exact .gets .nil
    · have hstore : name = "__atomic_store" := by simpa [hload] using h
      simp only [if_neg hload, if_pos hstore]
      exact .gets .nil
  | intrinsic id => simp [hc] at h
  | indirect v => simp [hc] at h

/-- A call of an intrinsic, or one that goes to `visitCallBase`. -/
theorem call_cases {c : CallInfo} (hop : i.op = .call c) :
    (∃ id, c.callee = .intrinsic id ∧ i.ordinaryCall? = none ∧
      (∀ (si : Site) term, si.visit term i = si.visitIntrinsicInst id i) ∧
      ∀ cx pol b, Calls.visit cx pol b i = Calls.visitIntrinsicInst cx id i) ∨
    (i.ordinaryCall? = if c.isOrdinary i then some c else none) ∧
      (∀ (si : Site) term, si.visit term i = si.visitCallBase c i) ∧
      ∀ cx pol b, Calls.visit cx pol b i = Calls.visitCallBase cx pol b c i := by
  cases hc : c.callee with
  | intrinsic id =>
    refine Or.inl ⟨id, rfl, ?_, fun si term => ?_, fun cx pol b => ?_⟩
    · simp only [Inst.ordinaryCall?, hop, hc]
    · simp only [Site.visit, hop, hc]
    · simp only [Calls.visit, hop, hc]
  | _ =>
    refine Or.inr ⟨?_, fun si term => ?_, fun cx pol b => ?_⟩
    · simp only [Inst.ordinaryCall?, hop, hc]
    · simp only [Site.visit, hop, hc]
    · simp only [Calls.visit, hop, hc]

theorem isOrdinary_of_none {c : CallInfo} (h : (if c.isOrdinary i then some c else none) = none) :
    c.isOrdinary i = false := by
  by_contra hne
  simp [Bool.eq_true_of_not_eq_false hne] at h

/-- The visitors other than the end of `visitCallBase`. -/
theorem callsOk_visit (hord : i.ordinaryCall? = none) (hty : InstTyped i)
    (h : i.followsMustTail = false → AsksArgs A i) (pol : ReturnPolicy) (b : Label) :
    CallsOk A i (si.visit term i).shadow.isSome (Calls.visit si.cx pol b i) := by
  have hasks : i.followsMustTail = false → i.takesToken = false →
      ∀ k, A (i.args.getD k (.zero .ptr)) := fun hf ht => (h hf).getD (hty.args ht)
  cases hop : i.op with
  | load =>
    simp only [Site.visit, Calls.visit, hop]
    exact callsOk_visitLoadInst (hasks (by simp [Inst.followsMustTail, hop])
      (by simp [Inst.takesToken, hop])) (hty.result true (by simp [Inst.hasResult?, hop]))
  | store isAtomic isVolatile =>
    simp only [Site.visit, Calls.visit, hop]
    exact callsOk_visitStoreInst (hasks (by simp [Inst.followsMustTail, hop])
      (by simp [Inst.takesToken, hop]))
  | cmpxchg | atomicrmw =>
    simp only [Site.visit, Calls.visit, hop]
    exact callsOk_handleCASOrRMW _ (hasks (by simp [Inst.followsMustTail, hop])
      (by simp [Inst.takesToken, hop])) (hty.result true (by simp [Inst.hasResult?, hop]))
  | call c =>
    rcases call_cases hop with ⟨id, hid, -, hvisit, hcalls⟩ | ⟨hord', hvisit, hcalls⟩
    · rw [hvisit, hcalls]
      exact callsOk_visitIntrinsic hop hid hty (h (by simp [Inst.followsMustTail, hop]))
    · rw [hvisit, hcalls]
      exact callsOk_visitCallBase (isOrdinary_of_none (hord'.symm.trans hord)) pol b
  | invoke c _ | callBr c =>
    simp only [Inst.ordinaryCall?, hop] at hord
    simp only [Site.visit, Calls.visit, hop]
    exact callsOk_visitCallBase (isOrdinary_of_none hord) pol b
  | ret =>
    simp only [Site.visit, Calls.visit, hop]
    have hnone : (si.visitReturnInst i).shadow = none := by
      rw [Site.visitReturnInst]
      split
      · split
        · rfl
        · generalize (if si.opts.checkReturns then _ else _ : Bool) = r
          cases r <;> rfl
      · rfl
    rw [hnone]
    exact .gets .nil
  | phi ls =>
    simp only [Site.visit, Calls.visit, hop]
    exact .setOnly true
  | alloca t =>
    simp only [Site.visit, Calls.visit, hop, Calls.setClean,
      hty.result true (by simp [Inst.hasResult?, hop])]
    exact .setOnly true
  | _ =>
    simp only [Site.visit, Calls.visit, hop]
    exact callsOk_visitInstruction

/-! ### The undef slice and the policy on returned values -/

theorem onlyGets_sinkCheck {v : Val} (h : v ∈ si.slice → A v) :
    OnlyGets A (Calls.sinkCheck si.slice v) :=
  OnlyGets.ite (fun hv => .single (h hv)) fun _ => .nil

/-- A slice value among the operands, or an undef, is asked for. -/
def AsksSlice (slice : List Val) (A : Val → Prop) (i : Inst) : Prop :=
  (∀ v, IsArg i v → v ∈ slice → A v) ∧ ∀ v, v.isUndef = true → A v

theorem onlyGets_checkUndefSliceSinks (h : AsksSlice si.slice A i) :
    OnlyGets A (Calls.checkUndefSliceSinks si.cx si.slice i) := by
  have harg : ∀ k, OnlyGets A (Calls.sinkCheck si.slice (i.args.getD k (.zero .ptr))) := fun k =>
    onlyGets_sinkCheck fun hv => h.1 _ (isArg_getD i k .ptr) hv
  rw [Calls.checkUndefSliceSinks]
  split
  · exact harg 0
  · exact harg 0
  · exact OnlyGets.ite (fun _ => .nil) fun _ => harg 0
  · exact OnlyGets.ite (fun _ => .nil) fun _ => harg 1
  all_goals
    first
    | exact .nil
    | split
      · exact .nil
      · exact .nil
      · refine OnlyGets.ite (fun _ => .nil) fun _ d hd => ?_
        obtain ⟨a, ha, hd⟩ := List.mem_flatMap.mp hd
        have hmem := List.fst_mem_of_mem_zipIdx (List.mem_filter.mp ha).1
        exact onlyGets_sinkCheck (fun hv => h.1 a.1 (Or.inl hmem) hv) d hd

theorem onlyGets_getUndefSliceShadow {v : Val} (h : AsksSlice si.slice A i) (hv : v ∈ i.args) :
    OnlyGets A (Calls.getUndefSliceShadow si.slice v) := by
  refine OnlyGets.ite (fun hc => .single ?_) fun _ => .nil
  rcases Bool.or_eq_true_iff.mp hc with hu | hs
  · exact h.2 v hu
  · exact h.1 v (Or.inl hv) (of_decide_eq_true hs)

theorem callsOk_handleUndefSliceInst (h : AsksSlice si.slice A i) :
    CallsOk A i (si.handleUndefSliceInst i).shadow.isSome
      (Calls.handleUndefSliceInst si.slice i) := by
  have hsome : (si.handleUndefSliceInst i).shadow.isSome = true := by
    rw [Site.handleUndefSliceInst]
    split
    · rfl
    · split <;> rfl
  rw [hsome, Calls.handleUndefSliceInst]
  split
  next cond x y hop hargs =>
    have hx := onlyGets_getUndefSliceShadow h (v := x) (by simp [hargs])
    have hy := onlyGets_getUndefSliceShadow h (v := y) (by simp [hargs])
    exact .setLast ((hx.append hy).append (OnlyGets.ite
      (fun hc => .single (h.1 cond (Or.inl (by simp [hargs])) hc)) fun _ => .nil))
  next =>
    refine .setLast (.map fun v hv => ?_)
    obtain ⟨hv, hc⟩ := List.mem_filter.mp hv
    rcases Bool.or_eq_true_iff.mp (Bool.and_eq_true_iff.mp hc).1 with hu | hs
    · exact h.2 v hu
    · exact h.1 v (Or.inl hv) (of_decide_eq_true hs)

theorem ordinaryCall?_eq_some {c : CallInfo} (h : i.ordinaryCall? = some c) :
    i.callInfo? = some c ∧ c.isOrdinary i = true ∧ isTransferClass i = false ∧
      i.followsMustTail = false ∧ ∀ (si : Site) (term : Inst) (pol : ReturnPolicy) (b : Label),
        si.visit term i = si.visitCallBase c i ∧
          Calls.visit si.cx pol b i = Calls.visitCallBase si.cx pol b c i := by
  cases hop : i.op with
  | call d =>
    rcases call_cases hop with ⟨id, -, hnone, -⟩ | ⟨hord, hvisit, hcalls⟩
    · rw [hnone] at h
      cases h
    · rw [hord] at h
      split_ifs at h with ho
      obtain rfl := Option.some.inj h
      exact ⟨by simp [Inst.callInfo?, hop], ho, by simp [isTransferClass, hop],
        by simp [Inst.followsMustTail, hop], fun si term pol b => ⟨hvisit si term, hcalls _ pol b⟩⟩
  | invoke d _ | callBr d =>
    simp only [Inst.ordinaryCall?, hop] at h
    split_ifs at h with ho
    obtain rfl := Option.some.inj h
    refine ⟨by simp [Inst.callInfo?, hop], ho, by simp [isTransferClass, hop],
      by simp [Inst.followsMustTail, hop], fun si term pol b => ?_⟩
    simp only [Site.visit, Calls.visit, hop, and_self]
  | _ => simp [Inst.ordinaryCall?, hop] at h

theorem process_shadow (h : si.isUndefSliceTransfer i = false) :
    (si.process term i).shadow = (si.visit term i).shadow := by
  rw [Site.process, h]
  split <;> rfl

theorem calls_process_of_not {cx : Ctx} {slice : List Val} {pol : ReturnPolicy} {b : Label}
    (h : (decide (i.val ∈ slice) && isTransferClass i) = false) :
    Calls.process cx slice pol b i =
      (if slice.isEmpty then [] else Calls.checkUndefSliceSinks cx slice i) ++
        Calls.visit cx pol b i := by
  rw [Calls.process, h]
  split <;> rfl

theorem processWith_shadow_ordinary {c : CallInfo} {pol : ReturnPolicy} {b : Label}
    (hord : i.ordinaryCall? = some c) :
    (si.processWith pol b term i).1.shadow.isSome = (i.ty.isSized && !c.mustTail) := by
  obtain ⟨-, ho, ht, -, hv⟩ := ordinaryCall?_eq_some hord
  rw [Site.processWith, hord]
  dsimp only
  split
  next hr =>
    simp only [Site.readsRetval, Bool.and_eq_true] at hr
    have hsome : (si.readRetval b i (si.process term i)).1.shadow.isSome = true := by
      rw [Site.readRetval]
      dsimp only
      split
      · rfl
      · split <;> rfl
    rw [hsome, hr.1.1.1, hr.1.1.2, Bool.and_self]
  next =>
    rw [process_shadow (by rw [Site.isUndefSliceTransfer, ht, Bool.and_false]),
      (hv si term pol b).1, (visitCallBase_ordinary si ho pol b).1]
    simp only [Site.visitOrdinaryCall]
    split
    next h => rw [h]; rfl
    next h => rw [Bool.eq_false_iff.mpr h]; rfl

/-- The calls of one round, and whether the instruction has a shadow afterwards. -/
theorem callsOk_processWith (si : Site) (hty : InstTyped i)
    (h : i.followsMustTail = false → AsksArgs A i) (hslice : AsksSlice si.slice A i)
    (pol : ReturnPolicy) (b : Label) :
    CallsOk A i (si.processWith pol b term i).1.shadow.isSome
      (Calls.process si.cx si.slice pol b i) := by
  have hsinks : OnlyGets A (if si.slice.isEmpty then []
      else Calls.checkUndefSliceSinks si.cx si.slice i) :=
    OnlyGets.ite (fun _ => .nil) fun _ => onlyGets_checkUndefSliceSinks hslice
  cases hord : i.ordinaryCall? with
  | some c =>
    obtain ⟨-, ho, ht, hf, hv⟩ := ordinaryCall?_eq_some hord
    obtain ⟨hvisit, hcalls⟩ := hv si term pol b
    obtain ⟨hbase, hbase'⟩ := visitCallBase_ordinary si ho pol b
    have hnot : (decide (i.val ∈ si.slice) && isTransferClass i) = false := by
      rw [ht, Bool.and_false]
    rw [calls_process_of_not hnot, hcalls, hbase', processWith_shadow_ordinary hord]
    exact .prepend hsinks (.prepend
      (OnlyGets.ite (fun _ => onlyGets_eagerArgumentChecks c (h hf)) fun _ => .nil)
      (callsOk_returnedValue pol b c))
  | none =>
    have hproc : (si.processWith pol b term i).1 = si.process term i := by
      rw [Site.processWith, hord]
    rw [hproc]
    by_cases htr : si.isUndefSliceTransfer i = true
    · obtain ⟨hin, ht⟩ := Bool.and_eq_true_iff.mp htr
      have hne : si.slice.isEmpty = false := by
        cases hs : si.slice with
        | nil => simp [Site.inSlice, hs] at hin
        | cons => rfl
      have hin' : (decide (i.val ∈ si.slice) && isTransferClass i) = true := htr
      rw [Site.process, Calls.process, hne, htr, hin']
      exact .prepend (onlyGets_checkUndefSliceSinks hslice) (callsOk_handleUndefSliceInst hslice)
    · have hin' : (decide (i.val ∈ si.slice) && isTransferClass i) = false :=
        Bool.eq_false_iff.mpr htr
      rw [process_shadow (Bool.eq_false_iff.mpr htr), calls_process_of_not hin']
      exact .prepend hsinks (callsOk_visit hord hty h pol b)

/-! ### Every value gets a shadow -/

theorem visitInstruction_shadow (hs : i.ty.isSized = true) :
    (si.visitInstruction i).shadow.isSome = true := by
  rw [Site.visitInstruction, hs]
  rfl

theorem handleUnknownIntrinsic_shadow (onlyReadsMemory : Bool) (hs : i.ty.isSized = true) :
    (si.handleUnknownIntrinsic onlyReadsMemory i).shadow.isSome = true := by
  rw [Site.handleUnknownIntrinsic]
  split
  · split
    next hc =>
      rw [hc.2.2.1] at hs
      cases hs
    next => exact visitInstruction_shadow hs
  · split
    · rfl
    · exact visitInstruction_shadow hs
  · exact visitInstruction_shadow hs

theorem visitIntrinsicInst_shadow {id : Intrinsic} (hres : id.hasResult? ≠ some false)
    (hs : i.ty.isSized = true) : (si.visitIntrinsicInst id i).shadow.isSome = true := by
  cases id with
  | memcpy | memmove | memset | vaStart | vaCopy | lifetimeStart | maskedCompressstore
  | maskedScatter | maskedStore | x86SseStmxcsr | x86SseLdmxcsr => exact absurd rfl hres
  | launderInvariantGroup | stripInvariantGroup | isConstant => rfl
  | maskedExpandload | maskedGather | maskedLoad => exact handleMaskedLoadLike_shadow
  | arith => exact handleUnknownIntrinsic_shadow true hs
  | other onlyReadsMemory => exact handleUnknownIntrinsic_shadow onlyReadsMemory hs

theorem visitCallBase_shadow {c : CallInfo} (ho : c.isOrdinary i = false)
    (hname : ∀ name, c.callee = .fn name → name ≠ "__atomic_load" ∧ name ≠ "__atomic_store")
    (hs : i.ty.isSized = true) : (si.visitCallBase c i).shadow.isSome = true := by
  rw [CallInfo.isOrdinary] at ho
  cases hc : c.callee with
  | asm outputArgs elemTys =>
    simp only [Site.visitCallBase, hc]
    split
    · rw [Site.visitAsmInstruction, hs]
      rfl
    · exact visitInstruction_shadow hs
  | fn name => simp [hc, hname name hc] at ho
  | intrinsic id => simp [hc] at ho
  | indirect v => simp [hc] at ho

theorem InstTyped.not_atomic (hty : InstTyped i) (hs : i.ty.isSized = true) {c : CallInfo}
    (hc : i.callInfo? = some c) :
    ∀ name, c.callee = .fn name → name ≠ "__atomic_load" ∧ name ≠ "__atomic_store" := by
  intro name hname
  by_contra hne
  have hres : i.hasResult? = some false := by
    have hor : name = "__atomic_load" ∨ name = "__atomic_store" := by
      by_cases hl : name = "__atomic_load"
      · exact Or.inl hl
      · exact Or.inr (by_contra fun hst => hne ⟨hl, hst⟩)
    rw [Inst.callInfo?] at hc
    rw [Inst.hasResult?]
    split at hc <;> rename_i hop <;> simp_all
  rw [hty.result false hres] at hs
  cases hs

/-- Every value of an instruction that is visited gets a shadow, unless the instruction is a
`musttail` call. -/
theorem processWith_shadow (hty : InstTyped i) (hs : i.ty.isSized = true)
    (htail : i.isMustTail = false) (pol : ReturnPolicy) (b : Label) :
    (si.processWith pol b term i).1.shadow.isSome = true := by
  cases hord : i.ordinaryCall? with
  | some c =>
    obtain ⟨hc, -⟩ := ordinaryCall?_eq_some hord
    have hmt : c.mustTail = false := by simpa [Inst.isMustTail, hc] using htail
    rw [processWith_shadow_ordinary hord, hs, hmt]
    rfl
  | none =>
    have hproc : (si.processWith pol b term i).1 = si.process term i := by
      rw [Site.processWith, hord]
    rw [hproc]
    by_cases htr : si.isUndefSliceTransfer i = true
    · have hslice : si.slice.isEmpty = false := by
        cases hsl : si.slice with
        | nil => simp [Site.isUndefSliceTransfer, Site.inSlice, hsl] at htr
        | cons => rfl
      rw [Site.process, hslice, htr]
      dsimp only
      rw [if_neg Bool.false_ne_true, if_pos rfl, Site.handleUndefSliceInst]
      split
      · rfl
      · split <;> rfl
    · rw [process_shadow (Bool.eq_false_iff.mpr htr)]
      have hvoid : i.hasResult? ≠ some false := fun hr => by
        rw [hty.result false hr] at hs
        cases hs
      have hbase : ∀ c, i.callInfo? = some c → c.isOrdinary i = false →
          (si.visitCallBase c i).shadow.isSome = true := fun c hc ho =>
        visitCallBase_shadow ho (hty.not_atomic hs hc) hs
      cases hop : i.op with
      | store isAtomic isVolatile => exact absurd (by simp [Inst.hasResult?, hop]) hvoid
      | ret => exact absurd (by simp [Inst.hasResult?, hop]) hvoid
      | load =>
        simp only [Site.visit, hop, Site.visitLoadInst]
        split_ifs <;> rfl
      | cmpxchg | atomicrmw | phi _ | alloca _ =>
        simp only [Site.visit, hop]
        rfl
      | call c =>
        rcases call_cases hop with ⟨id, hid, -, hvisit, -⟩ | ⟨hord', hvisit, -⟩
        · rw [hvisit]
          exact visitIntrinsicInst_shadow
            (fun hr => hvoid (by simp [Inst.hasResult?, hop, hid, hr])) hs
        · rw [hvisit]
          exact hbase c (by simp [Inst.callInfo?, hop])
            (isOrdinary_of_none (hord'.symm.trans hord))
      | invoke c _ | callBr c =>
        simp only [Inst.ordinaryCall?, hop] at hord
        simp only [Site.visit, hop]
        exact hbase c (by simp [Inst.callInfo?, hop]) (isOrdinary_of_none hord)
      | _ =>
        simp only [Site.visit, hop]
        exact visitInstruction_shadow hs

end Handlers

end CQMSan
