import CQMSan.Pass.HandlerCalls
import CQMSan.Pass.OnlyFeeds
import CQMSan.Pass.Prepare

/-!
# The assertions of the pass

The visit follows a depth-first order, so the operands of an instruction were visited before it,
and every value has its shadow when the visit phase ends (`KeysInv`). None of the assertions on
the shadow map fails, in the visit phase or after it.

The checks of one site are consecutive: they are pushed in one round of the visit (`SiteInv`), or
are the one of a return, or were grouped after the deferral to sinks.
-/

namespace CQMSan

/-! ### Running the calls -/

section Run

variable {cx : Ctx} {m : ShadowKeys} {i : Inst} {cs : List ShadowCall}

/-- `getShadow` of the value does not fail. -/
def GetOk (cx : Ctx) (m : ShadowKeys) (v : Val) : Prop :=
  ∀ n t, v = .inst n t → ∃ j, cx.def? v = some j ∧
    (cx.isNoSanitizeEquivalent j = true ∨ m n = some true)

theorem run_get {v : Val} (h : GetOk cx m v) : (ShadowCall.get v).run cx m = some m := by
  cases v with
  | inst n t =>
    obtain ⟨j, hj, hok⟩ := h n t rfl
    rw [ShadowCall.run, hj]
    dsimp only
    split_ifs with hns hm
    · rfl
    · rfl
    · exact absurd (hok.resolve_left hns) hm
  | _ => rfl

theorem runCalls_append (cs ds : List ShadowCall) :
    runCalls cx m (cs ++ ds) = (runCalls cx m cs).bind fun m' => runCalls cx m' ds :=
  List.foldlM_append

theorem runCalls_gets (h : OnlyGets (GetOk cx m) cs) : runCalls cx m cs = some m := by
  induction cs with
  | nil => rfl
  | cons c cs ih =>
    obtain ⟨v, rfl, hv⟩ := h c List.mem_cons_self
    rw [runCalls, List.foldlM_cons, run_get hv]
    exact ih fun d hd => h d (List.mem_cons_of_mem _ hd)

/-- The calls of a handler do not fail on a map without an entry for its instruction, and change
the map there only. -/
theorem CallsOk.runCalls {r : Bool} (h : CallsOk (GetOk cx m) i r cs) (hm : m i.name = none) :
    ∃ m', runCalls cx m cs = some m' ∧ (∀ n, n ≠ i.name → m' n = m n) ∧
      (m' i.name = some true ↔ r = true) := by
  cases h with
  | gets h => exact ⟨m, runCalls_gets h, fun _ _ => rfl, by simp [hm]⟩
  | @set cs ds _ hc hd =>
    have hne : ∀ n, m n = some true → n ≠ i.name := by
      rintro n hn rfl
      rw [hm] at hn
      cases hn
    have hd' : OnlyGets (GetOk cx (Function.update m i.name (some r))) ds := by
      intro c hcd
      obtain ⟨v, rfl, hv⟩ := hd c hcd
      refine ⟨v, rfl, fun n t hvn => ?_⟩
      obtain ⟨j, hj, hok⟩ := hv n t hvn
      exact ⟨j, hj, hok.imp_right fun hn => by rw [Function.update_of_ne (hne n hn), hn]⟩
    refine ⟨Function.update m i.name (some r), ?_, fun n hn => Function.update_of_ne hn _ _, ?_⟩
    · rw [runCalls_append, runCalls_gets hc, Option.bind_some, CQMSan.runCalls, List.foldlM_cons]
      have hset : (ShadowCall.set i r).run cx m = some (Function.update m i.name (some r)) := by
        simp [ShadowCall.run, hm]
      rw [hset]
      exact runCalls_gets hd'
    · rw [Function.update_self, Option.some_inj]

end Run

/-! ### The function -/

section Function

variable {cx : Ctx} {b d : Label} {i j : Inst}

theorem Ctx.def?_val (hd : d ∈ cx.f.labels) (hj : j ∈ cx.f.code d) : cx.def? j.val = some j := by
  have hmem : j ∈ cx.f.insts := List.mem_flatMap.mpr ⟨d, hd, hj⟩
  have hsome : (cx.f.insts.find? (·.name = j.name)).isSome = true :=
    List.find?_isSome.mpr ⟨j, hmem, by simp⟩
  obtain ⟨k, hk⟩ := Option.isSome_iff_exists.mp hsome
  obtain ⟨e, he, hke⟩ := List.mem_flatMap.mp (List.mem_of_find?_eq_some hk)
  have hname : k.name = j.name := by simpa using List.find?_some hk
  obtain ⟨-, rfl⟩ := cx.f.names_nodup e he d hd k hke j hj hname
  exact hk

theorem Func.WellTyped.inst {f : Func} (h : f.WellTyped) (hb : b ∈ f.labels) (hi : i ∈ f.code b) :
    InstTyped i :=
  ⟨h.result b hb i hi, h.sized b hb i hi⟩

/-- The values of the slice are scalars, of PHIs and of instructions that compute. -/
theorem mem_computeUndefSlice (husers : ∀ v, ∀ u ∈ cx.users v, u ∈ cx.f.insts) {v : Val}
    (h : v ∈ cx.computeUndefSlice) : ∃ u ∈ cx.f.insts, u.val = v ∧
      isUndefSliceScalar u.ty = true ∧ (u.isPhi = true ∨ isTransferClass u = true) := by
  have hseed : ∀ u ∈ cx.instructions.filter isUndefSeed, u ∈ cx.f.insts ∧
      isUndefSliceScalar u.ty = true ∧ (u.isPhi = true ∨ isTransferClass u = true) := by
    intro u hu
    obtain ⟨hmem, hs⟩ := List.mem_filter.mp hu
    obtain ⟨b, hb, hub⟩ := List.mem_flatMap.mp (List.mem_filter.mp hmem).1
    refine ⟨List.mem_flatMap.mpr ⟨b, (Ctx.mem_blocks hb).1, hub⟩, ?_⟩
    rw [isUndefSeed, Bool.and_eq_true] at hs
    refine ⟨hs.1, ?_⟩
    cases hop : u.op <;> simp_all [Inst.isPhi, isTransferClass]
  have hsucc : ∀ w v, v ∈ sliceSuccs cx w → ∃ u ∈ cx.f.insts, u.val = v ∧
      isUndefSliceScalar u.ty = true ∧ (u.isPhi = true ∨ isTransferClass u = true) := by
    intro w v hv
    obtain ⟨u, hu, rfl⟩ := List.mem_map.mp hv
    obtain ⟨hmem, hc⟩ := List.mem_filter.mp hu
    simp only [Bool.and_eq_true, Bool.or_eq_true] at hc
    exact ⟨u, husers w u hmem, rfl, hc.2, hc.1.2⟩
  have hstart : ∀ v ∈ (cx.instructions.filter isUndefSeed).map Inst.val, ∃ u ∈ cx.f.insts,
      u.val = v ∧ isUndefSliceScalar u.ty = true ∧ (u.isPhi = true ∨ isTransferClass u = true) := by
    intro v hv
    obtain ⟨u, hu, rfl⟩ := List.mem_map.mp hv
    exact ⟨u, (hseed u hu).1, rfl, (hseed u hu).2⟩
  rw [Ctx.computeUndefSlice] at h
  split_ifs at h
  · rcases Worklist.reachable_of_mem_explore h with hmem | ⟨w, hw, hreach⟩
    · rcases Worklist.mem_pushNew_seen.mp hmem with hmem | hmem
      · exact hstart v hmem
      · cases hmem
    · rcases hreach.cases_tail with heq | ⟨u, -, huv⟩
      · rcases Worklist.mem_pushNew_wl.mp hw with hw | ⟨hw, -⟩
        · cases hw
        · exact hstart v (heq ▸ hw)
      · exact hsucc u v huv
  · cases h

theorem isMustTail_of_class (h : j.isPhi = true ∨ isTransferClass j = true) :
    j.isMustTail = false := by
  rw [Inst.isMustTail, Inst.callInfo?]
  rw [Inst.isPhi, isTransferClass] at h
  cases hop : j.op <;> simp_all

theorem isSized_of_scalar {t : Ty} (h : isUndefSliceScalar t = true) : t.isSized = true := by
  cases t <;> simp_all [isUndefSliceScalar, Ty.isSized]

end Function

/-! ### The visit phase -/

/-- The shadow map when the instructions `done` were visited: there are no other entries, those
that are not null are those of the state, and every value has one. -/
structure KeysInv (done : List Inst) (s : St) (m : ShadowKeys) : Prop where
  absent : ∀ n, (∀ i ∈ done, i.name ≠ n) → m n = none
  entries : ∀ n, m n = some true ↔ (s.shadowMap n).isSome = true
  shadows : ∀ i ∈ done, i.ty.isSized = true → i.isMustTail = false → m i.name = some true

section Visit

variable {cx : Ctx} {b d : Label} {i j : Inst} {done : List Inst} {s : St} {m : ShadowKeys}

/-- The shadow of a value whose instruction was visited is found. -/
theorem KeysInv.getOk (h : KeysInv done s m) (hd : d ∈ cx.f.labels) (hj : j ∈ cx.f.code d)
    (hdone : cx.isNoSanitizeEquivalent j = false → j ∈ done) (hs : j.ty.isSized = true)
    (htail : j.isMustTail = false) : GetOk cx m j.val := by
  intro n t hv
  obtain ⟨rfl, rfl⟩ : j.name = n ∧ j.ty = t := by simpa [Inst.val] using hv
  refine ⟨j, Ctx.def?_val hd hj, ?_⟩
  cases hns : cx.isNoSanitizeEquivalent j with
  | true => exact Or.inl rfl
  | false => exact Or.inr (h.shadows j (hdone hns) hs htail)

/-- An operand that is an instruction precedes the instruction that uses it. -/
theorem exists_operand (hwf : cx.f.WellFormed) (hty : cx.f.WellTyped) (hb : b ∈ cx.f.labels)
    (hr : cx.f.Reaches cx.f.entry b) (hi : i ∈ cx.f.code b) (hphi : i.isPhi = false) {n : ℕ}
    {t : Ty} (hv : Val.inst n t ∈ i.args) :
    ∃ d ∈ cx.f.labels, ∃ j ∈ cx.f.code d, j.val = .inst n t ∧ cx.f.Precedes d j b i := by
  have hop : Val.inst n t ∈ i.operands := by
    rw [Inst.operands]
    split
    · exact List.mem_append_left _ hv
    · exact hv
  have havail : n ∈ cx.f.availAt b i := hwf.uses b hb hr i hi hphi _ hop
  have hex : ∃ d ∈ cx.f.labels, ∃ j ∈ cx.f.code d, j.name = n := by
    rcases mem_availAt.mp havail with ⟨d, hd, j, hj, -, -, hn⟩ | ⟨j, hj, -, hn⟩
    · exact ⟨d, hd, j, hj, hn⟩
    · exact ⟨b, hb, j, mem_of_mem_before hj, hn⟩
  obtain ⟨d, hd, j, hj, rfl⟩ := hex
  refine ⟨d, hd, j, hj, ?_, precedes_of_mem hb hd hj havail⟩
  rw [Inst.val, hty.operand b hb i hi _ t hv d hd j hj rfl]

theorem AsksArgs.of_inst {A : Val → Prop}
    (h : ∀ n t, Val.inst n t ∈ i.args → t.isSized = true → A (.inst n t))
    (hother : ∀ v : Val, (∀ n t, v ≠ .inst n t) → A v) : AsksArgs A i := by
  rintro v harg hs
  cases v with
  | inst n t =>
    rcases harg with hmem | ⟨t', ht'⟩
    · exact h n t hmem hs
    · cases ht'
  | _ => exact hother _ (by simp)

theorem getOk_of_ne {v : Val} (h : ∀ n t, v ≠ .inst n t) : GetOk cx m v :=
  fun n t hv => absurd hv (h n t)

theorem processWith_phi (si : Site) (pol : ReturnPolicy) (b : Label) (term : Inst)
    {ls : List Label} (hop : i.op = .phi ls) :
    (si.processWith pol b term i).1.shadow.isSome = true ∧
      Calls.process si.cx si.slice pol b i = [.set i true] := by
  have hord : i.ordinaryCall? = none := by simp [Inst.ordinaryCall?, hop]
  have hcl : isTransferClass i = false := by simp [isTransferClass, hop]
  constructor
  · rw [Site.processWith, hord, process_shadow (by rw [Site.isUndefSliceTransfer, hcl,
      Bool.and_false])]
    simp only [Site.visit, hop]
    rfl
  · rw [calls_process_of_not (by rw [hcl, Bool.and_false])]
    simp [Calls.checkUndefSliceSinks, Calls.visit, hop]

/-- One round of the visit does not fail and keeps the invariant. -/
theorem KeysInv.step (hwf : cx.f.WellFormed) (hty : cx.f.WellTyped)
    (husers : ∀ v, ∀ u ∈ cx.users v, u ∈ cx.f.insts) (pol : ReturnPolicy)
    {pre post : List (Label × Inst)} (horder : cx.visitOrder = pre ++ (b, i) :: post)
    {s : St × List (Label × Inst)} (h : KeysInv (pre.map Prod.snd) s.1 m) :
    ∃ m', runCalls cx m (Calls.process cx cx.computeUndefSlice pol b i) = some m' ∧
      KeysInv ((pre ++ [(b, i)]).map Prod.snd)
        (visitStepWith pol cx cx.computeUndefSlice s (b, i)).1 m' := by
  obtain ⟨hb, hr, hi, -⟩ := Ctx.mem_visitOrder (p := (b, i)) (by rw [horder]; simp)
  have hit := hty.inst hb hi
  have hfresh : m i.name = none := by
    refine h.absent _ fun j hj => ?_
    obtain ⟨p, hp, rfl⟩ := List.mem_map.mp hj
    exact Ctx.visited_name_ne horder hp
  have hget : i.isPhi = false → ∀ n t, Val.inst n t ∈ i.args → t.isSized = true →
      (∀ e ∈ cx.f.labels, ∀ j ∈ cx.f.code e, j.val = .inst n t → j.isMustTail = false) →
      GetOk cx m (.inst n t) := by
    intro hphi n t hv hs htail
    obtain ⟨d, hd, j, hj, hval, hpre⟩ := exists_operand hwf hty hb hr hi hphi hv
    rw [← hval]
    have hjt : j.ty = t := (Val.inst.inj hval).2
    exact h.getOk hd hj (fun hns => List.mem_map.mpr ⟨(d, j),
      Ctx.visited_before horder hj hns hpre, rfl⟩) (hjt ▸ hs) (htail d hd j hj hval)
  set si : Site := ⟨cx, cx.computeUndefSlice, s.1, s.1.codeBefore cx.f b i⟩ with hsi
  have hok : CallsOk (GetOk cx m) i
      (si.processWith pol b (cx.f.terminator b) i).1.shadow.isSome
      (Calls.process cx cx.computeUndefSlice pol b i) := by
    cases hphi : i.isPhi with
    | true =>
      have hsrc := hwf.source b hb i hi
      obtain ⟨ls, hop⟩ : ∃ ls, i.op = .phi ls := by
        rw [Inst.isPhi] at hphi
        rw [Inst.isInserted] at hsrc
        cases hop : i.op <;> simp_all
      obtain ⟨hsome, hcalls⟩ := processWith_phi si pol b (cx.f.terminator b) hop
      rw [hsome]
      exact hcalls ▸ CallsOk.setOnly true
    | false =>
      refine callsOk_processWith si hit (fun hf => AsksArgs.of_inst (fun n t hv hs => ?_)
        fun v => getOk_of_ne) ⟨fun v harg hv => ?_, fun v hu => ?_⟩ pol b
      · -- the result of a `musttail` call is an operand of what follows it only
        refine hget hphi n t hv hs fun e he j hj hval => ?_
        by_contra htail
        have hfol := (hty.mustTail e he j hj (Bool.eq_true_of_not_eq_false htail)).2 b hb i hi
          (hval ▸ hv)
        rw [hf] at hfol
        cases hfol
      · obtain ⟨u, hu, rfl, hsc, hclass⟩ := mem_computeUndefSlice husers hv
        rcases harg with harg | ⟨t, ht⟩
        · refine hget hphi _ _ harg (isSized_of_scalar hsc) fun e he j hj hval => ?_
          obtain ⟨e', he', hu'⟩ := List.mem_flatMap.mp hu
          obtain ⟨-, rfl⟩ := cx.f.names_nodup e he e' he' j hj u hu' (Val.inst.inj hval).1
          exact isMustTail_of_class hclass
        · cases ht
      · cases v with
        | undef t => exact getOk_of_ne (by simp)
        | _ => cases hu
  obtain ⟨m', hrun, hother, hself⟩ := hok.runCalls hfresh
  rw [List.map_append, List.map_singleton]
  refine ⟨m', hrun, ⟨fun n hn => ?_, fun n => ?_, fun j hj hs htail => ?_⟩⟩
  · rw [hother n (hn i (by simp)).symm]
    exact h.absent n fun j hj => hn j (List.mem_append_left _ hj)
  · have hmap : (visitStepWith pol cx cx.computeUndefSlice s (b, i)).1.shadowMap =
        (si.processWith pol b (cx.f.terminator b) i).1.shadow.elim s.1.shadowMap
          fun sv => Function.update s.1.shadowMap i.name (some sv) := by
      rw [visitStepWith, St.apply]
      cases (si.processWith pol b (cx.f.terminator b) i).1.shadow <;> rfl
    rw [hmap]
    by_cases hn : n = i.name
    · subst hn
      rw [hself]
      cases (si.processWith pol b (cx.f.terminator b) i).1.shadow with
      | some sv => simp
      | none =>
        have hnone := h.entries i.name
        rw [hfresh] at hnone
        simpa using hnone
    · rw [hother n hn, h.entries n]
      cases (si.processWith pol b (cx.f.terminator b) i).1.shadow with
      | some sv => simp [Function.update_of_ne hn]
      | none => rfl
  · rcases List.mem_append.mp hj with hj | hj
    · have hm := h.shadows j hj hs htail
      have hne : j.name ≠ i.name := fun hname => by
        rw [hname, hfresh] at hm
        cases hm
      rw [hother j.name hne, hm]
    · obtain rfl := List.mem_singleton.mp hj
      exact hself.mpr (processWith_shadow hit hs htail pol b)

/-- The calls of the visit phase do not fail. -/
theorem visit_keys (hwf : cx.f.WellFormed) (hty : cx.f.WellTyped)
    (husers : ∀ v, ∀ u ∈ cx.users v, u ∈ cx.f.insts) (pol : ReturnPolicy) :
    ∀ pre post, cx.visitOrder = pre ++ post → ∃ m,
      runCalls cx (fun _ => none)
        (pre.flatMap fun bi => Calls.process cx cx.computeUndefSlice pol bi.1 bi.2) = some m ∧
      KeysInv (pre.map Prod.snd)
        (pre.foldl (visitStepWith pol cx cx.computeUndefSlice) (St.init cx, [])).1 m := by
  intro pre
  induction pre using List.reverseRecOn with
  | nil =>
    intro post _
    exact ⟨fun _ => none, rfl, fun _ _ => rfl, fun n => by simp [St.init],
      fun i hi => absurd hi List.not_mem_nil⟩
  | append_singleton pre bi ih =>
    intro post horder
    obtain ⟨b, i⟩ := bi
    rw [List.append_assoc, List.singleton_append] at horder
    obtain ⟨m, hrun, hinv⟩ := ih _ horder
    obtain ⟨m', hrun', hinv'⟩ := hinv.step hwf hty husers pol horder
    refine ⟨m', ?_, ?_⟩
    · rw [List.flatMap_append, runCalls_append, hrun, Option.bind_some, List.flatMap_singleton]
      exact hrun'
    · rw [List.foldl_append]
      exact hinv'

end Visit

/-! ### The lists of the visit phase -/

section Lists

variable {cx : Ctx} {si : Site} {i term : Inst} {b : Label} {pol : ReturnPolicy}

theorem processWith_eq (si : Site) (pol : ReturnPolicy) (b : Label) (term i : Inst) :
    ∃ pre post next shadow, (si.processWith pol b term i).1 =
      { si.process term i with pre := pre, post := post, next := next, shadow := shadow } := by
  rw [Site.processWith]
  split
  · split
    · rw [Site.readRetval]
      dsimp only
      split
      · exact ⟨_, _, _, _, rfl⟩
      · split
        · exact ⟨_, _, _, _, rfl⟩
        · exact ⟨_, _, _, _, rfl⟩
    · exact ⟨_, _, _, _, rfl⟩
  · exact ⟨_, _, _, _, rfl⟩

theorem listed_processWith (si : Site) : (si.processWith pol b term i).1.Listed si.opts i := by
  obtain ⟨pre, post, next, shadow, heq⟩ := processWith_eq si pol b term i
  have h : (si.process term i).Listed si.opts i := listed_process
  rw [heq]
  exact ⟨h.store, h.phi, h.alloca, h.vaStart, h.lifetime, h.ret, h.load, h.deferrable⟩

theorem process_ret (hop : i.op = .ret) : (si.process term i).checks = [] ∧
    ∀ r, (si.process term i).pendingReturn = some r → si.isAMustTailRetVal r = false := by
  have hvisit : (si.visitReturnInst i).checks = [] ∧
      ∀ r, (si.visitReturnInst i).pendingReturn = some r → si.isAMustTailRetVal r = false := by
    rw [Site.visitReturnInst]
    split
    next v _ =>
      cases hmt : si.isAMustTailRetVal v with
      | true => exact ⟨rfl, by simp [Site.nothing]⟩
      | false =>
        rw [if_neg Bool.false_ne_true]
        by_cases hc : (if si.opts.checkReturns then isUndefSliceScalar v.ty
            else si.cx.retNoUndef) = true
        · rw [if_pos hc]
          refine ⟨rfl, fun r hr => ?_⟩
          obtain rfl := Option.some.inj hr
          exact hmt
        · rw [if_neg hc]
          exact ⟨rfl, by simp [Site.nothing]⟩
    next => exact ⟨rfl, by simp [Site.nothing]⟩
  have hcl : isTransferClass i = false := by simp [isTransferClass, hop]
  have hsinks : si.checkUndefSliceSinks i = [] := by simp [Site.checkUndefSliceSinks, hop]
  rw [Site.process, Site.isUndefSliceTransfer, hcl, Bool.and_false, hsinks]
  simp only [Site.visit, hop, List.nil_append]
  split <;> exact hvisit

/-- The checks of a site are pushed in one round, none at a return, and every return enters the
list of pending checks at most once, with a value that is not of a `musttail` call. -/
structure SiteInv (cx : Ctx) (done : List Inst) (s : St) : Prop where
  consecutive : Consecutive (·.origIns.name) s.checks
  sites : ∀ c ∈ s.checks, c.origIns ∈ done ∧ c.origIns.op ≠ .ret
  returns : (s.pendingReturnChecks.map (·.2.name)).Nodup
  mustTail : ∀ p ∈ s.pendingReturnChecks, ∀ (slice : List Val) (here : List Inst),
    (Site.mk cx slice s here).isAMustTailRetVal p.1 = false
  lists : ListInv cx.opts done s

theorem ListInv.mono {opts : Options} {done done' : List Inst} {s : St} (h : ListInv opts done s)
    (hsub : ∀ i ∈ done, i ∈ done') : ListInv opts done' s where
  stores i hi := ⟨hsub i (h.stores i hi).1, (h.stores i hi).2⟩
  phis i hi := ⟨hsub i (h.phis i hi).1, (h.phis i hi).2⟩
  allocas i hi := ⟨hsub i (h.allocas i hi).1, (h.allocas i hi).2⟩
  vaStarts i hi := ⟨hsub i (h.vaStarts i hi).1, (h.vaStarts i hi).2⟩
  lifetimes p hp := ⟨hsub p.1 (h.lifetimes p hp).1, (h.lifetimes p hp).2⟩
  returns p hp := ⟨hsub p.2 (h.returns p hp).1, (h.returns p hp).2⟩
  loads := h.loads
  deferrable := h.deferrable

theorem SiteInv.step {done : List Inst} {slice : List Val} {s : St × List (Label × Inst)}
    (h : SiteInv cx done s.1) (hfresh : ∀ j ∈ done, j.name ≠ i.name) :
    SiteInv cx (done ++ [i]) (visitStepWith pol cx slice s (b, i)).1 := by
  set si : Site := ⟨cx, slice, s.1, s.1.codeBefore cx.f b i⟩ with hsi
  set v := (si.processWith pol b (cx.f.terminator b) i).1 with hv
  have hlisted : v.Listed cx.opts i := listed_processWith si
  have hret : i.op = .ret → v.checks = [] ∧
      ∀ r, v.pendingReturn = some r → si.isAMustTailRetVal r = false := by
    intro hop
    obtain ⟨pre, post, next, shadow, heq⟩ := processWith_eq si pol b (cx.f.terminator b) i
    rw [hv, heq]
    exact process_ret hop
  have hchecks : (visitStepWith pol cx slice s (b, i)).1.checks =
      s.1.checks ++ v.checks.map fun c => ⟨c.1, i, c.2⟩ := rfl
  have hpending : (visitStepWith pol cx slice s (b, i)).1.pendingReturnChecks =
      s.1.pendingReturnChecks ++ v.pendingReturn.toList.map (·, i) := rfl
  have hnew : ∀ c ∈ v.checks.map (fun c => (⟨c.1, i, c.2⟩ : Check)), c.origIns = i := by
    intro c hc
    obtain ⟨e, -, rfl⟩ := List.mem_map.mp hc
    rfl
  refine ⟨?_, fun c hc => ?_, ?_, fun p hp slice' here => ?_, ?_⟩
  · rw [hchecks]
    refine h.consecutive.append (consecutive_of_eq fun c hc => by rw [hnew c hc])
      fun c hc e he => ?_
    rw [hnew e he]
    exact hfresh _ (h.sites c hc).1
  · rw [hchecks] at hc
    rcases List.mem_append.mp hc with hc | hc
    · exact ⟨List.mem_append_left _ (h.sites c hc).1, (h.sites c hc).2⟩
    · rw [hnew c hc]
      refine ⟨by simp, fun hop => ?_⟩
      rw [(hret hop).1] at hc
      cases hc
  · rw [hpending, List.map_append]
    refine List.nodup_append.mpr ⟨h.returns, ?_, fun n hn n' hn' => ?_⟩
    · cases v.pendingReturn <;> simp
    · obtain ⟨p, hp, rfl⟩ := List.mem_map.mp hn
      obtain ⟨q, hq, rfl⟩ := List.mem_map.mp hn'
      obtain ⟨r, -, rfl⟩ := List.mem_map.mp hq
      exact hfresh _ (h.lists.returns p hp).1
  · rw [hpending] at hp
    rcases List.mem_append.mp hp with hp | hp
    · exact h.mustTail p hp slice' here
    · obtain ⟨r, hr, rfl⟩ := List.mem_map.mp hp
      have hr' : v.pendingReturn = some r := by simpa using hr
      exact (hret (hlisted.ret r hr').1).2 r hr'
  · exact (h.lists.step hlisted).mono fun j hj => by simpa [or_comm] using hj

theorem runVisitWith_sites (pol : ReturnPolicy) (cx : Ctx) :
    SiteInv cx (cx.visitOrder.map Prod.snd) (runVisitWith pol cx).1 := by
  have hmain : ∀ pre post, cx.visitOrder = pre ++ post → SiteInv cx (pre.map Prod.snd)
      (pre.foldl (visitStepWith pol cx cx.computeUndefSlice) (St.init cx, [])).1 := by
    intro pre
    induction pre using List.reverseRecOn with
    | nil =>
      intro post _
      refine ⟨consecutive_nil, ?_, List.nodup_nil, ?_, ?_⟩
      · simp [St.init]
      · simp [St.init]
      · constructor <;> simp [St.init]
    | append_singleton pre bi ih =>
      intro post horder
      rw [List.append_assoc, List.singleton_append] at horder
      rw [List.foldl_append, List.map_append]
      refine SiteInv.step (ih _ horder) fun j hj => ?_
      obtain ⟨p, hp, rfl⟩ := List.mem_map.mp hj
      exact Ctx.visited_name_ne horder hp
  exact hmain cx.visitOrder [] (List.append_nil _).symm

end Lists

/-! ### The phases after the visit -/

section After

variable {cx : Ctx} {m : ShadowKeys} {s : St}

/-- After the visit, a value of the function that is not of a `musttail` call has a shadow. -/
theorem KeysInv.getOk_after (h : KeysInv (cx.visitOrder.map Prod.snd) s m)
    (hreach : ∀ b ∈ cx.f.labels, cx.f.Reaches cx.f.entry b) {d : Label} {j : Inst}
    (hd : d ∈ cx.f.labels) (hj : j ∈ cx.f.code d) (hs : j.ty.isSized = true)
    (htail : j.isMustTail = false) : GetOk cx m j.val := by
  refine h.getOk hd hj (fun hns => ?_) hs htail
  exact List.mem_map_of_mem (Ctx.mem_visitOrder_of_reaches (hreach d hd) hj hns)

/-- The finalization of the PHIs finds all shadows. -/
theorem onlyGets_finalizePhi (hwf : cx.f.WellFormed) (hty : cx.f.WellTyped)
    (hreach : ∀ b ∈ cx.f.labels, cx.f.Reaches cx.f.entry b)
    (h : KeysInv (cx.visitOrder.map Prod.snd) s m) {b : Label} {i : Inst} {ls : List Label}
    (hb : b ∈ cx.f.labels) (hi : i ∈ cx.f.code b) (hop : i.op = .phi ls) :
    OnlyGets (GetOk cx m) (Calls.finalizePhi i) := by
  have hself : GetOk cx m i.val := by
    refine h.getOk_after hreach hb hi ((hty.inst hb hi).result true ?_) (isMustTail_of_class ?_)
    · simp [Inst.hasResult?, hop]
    · exact Or.inl (by simp [Inst.isPhi, hop])
  refine (OnlyGets.single hself).append (OnlyGets.map fun v hv => ?_)
  cases v with
  | inst n t =>
    obtain ⟨hlen, hls⟩ := hty.incoming b hb i hi ls hop
    obtain ⟨k, hk, hvk⟩ := List.mem_iff_getElem.mp hv
    have hzip : (Val.inst n t, ls[k]) ∈ i.args.zip ls := by
      rw [← hvk]
      exact List.mem_iff_getElem.mpr ⟨k, by simp [hk, ← hlen], by simp⟩
    have hl : ls[k] ∈ cx.f.labels := hls _ (List.getElem_mem _)
    have havail : n ∈ availOut cx.f cx.f.code ls[k] :=
      hwf.phis b hb (hreach b hb) i hi ls hop _ hzip (hreach _ hl)
    have hex : ∃ d ∈ cx.f.labels, ∃ j ∈ cx.f.code d, j.name = n := by
      rcases havail with ⟨d, hd, -, j, hj, -, hn⟩ | ⟨j, hj, -, hn⟩
      · exact ⟨d, hd, j, hj, hn⟩
      · exact ⟨_, hl, j, hj, hn⟩
    obtain ⟨d, hd, j, hj, rfl⟩ := hex
    have hjt := hty.operand b hb i hi _ t hv d hd j hj rfl
    subst hjt
    have hs : j.ty.isSized = true :=
      (hty.inst hb hi).args (by simp [Inst.takesToken, hop]) _ hv
    refine h.getOk_after hreach hd hj hs ?_
    by_contra htail
    have hfol := (hty.mustTail d hd j hj (Bool.eq_true_of_not_eq_false htail)).2 b hb i hi hv
    simp [Inst.followsMustTail, hop] at hfol
  | _ => exact getOk_of_ne (by simp)

/-- An operand of an instruction that is not a PHI has a shadow after the visit, unless it is the
result of a `musttail` call. -/
theorem KeysInv.getOk_operand (hwf : cx.f.WellFormed) (hty : cx.f.WellTyped)
    (hreach : ∀ b ∈ cx.f.labels, cx.f.Reaches cx.f.entry b)
    (h : KeysInv (cx.visitOrder.map Prod.snd) s m) {b : Label} {i : Inst} (hb : b ∈ cx.f.labels)
    (hi : i ∈ cx.f.code b) (hphi : i.isPhi = false) (htok : i.takesToken = false) {v : Val}
    (hv : v ∈ i.args) (htail : ∀ d ∈ cx.f.labels, ∀ j ∈ cx.f.code d, j.val = v →
      j.isMustTail = false) : GetOk cx m v := by
  cases v with
  | inst n t =>
    obtain ⟨d, hd, j, hj, hval, -⟩ := exists_operand hwf hty hb (hreach b hb) hi hphi hv
    rw [← hval]
    have hs : t.isSized = true := (hty.inst hb hi).args htok _ hv
    exact h.getOk_after hreach hd hj ((Val.inst.inj hval).2 ▸ hs) (htail d hd j hj hval)
  | _ => exact getOk_of_ne (by simp)

/-- What `isAMustTailRetVal` rejects is not the result of a `musttail` call. -/
theorem isMustTail_of_retVal (hty : cx.f.WellTyped) {si : Site} (hcx : si.cx = cx) {d : Label}
    {j : Inst} (hd : d ∈ cx.f.labels) (hj : j ∈ cx.f.code d)
    (h : si.isAMustTailRetVal j.val = false) : j.isMustTail = false := by
  by_contra htail
  obtain ⟨c, hop⟩ := (hty.mustTail d hd j hj (Bool.eq_true_of_not_eq_false htail)).1
  have hc : c.mustTail = true := by
    simpa [Inst.isMustTail, Inst.callInfo?, hop] using Bool.eq_true_of_not_eq_false htail
  obtain ⟨n, o, args, ty, ns⟩ := j
  obtain rfl : o = .call c := hop
  rw [Site.isAMustTailRetVal, hcx, Ctx.def?_val hd hj] at h
  dsimp only at h
  rw [Ctx.def?_val hd hj] at h
  exact Bool.false_ne_true (h.symm.trans hc)

end After

/-! ### The assertions -/

section Assertions

variable {cx : Ctx}

/-- None of the assertions on the shadow map fails. -/
theorem runCalls_shadowCalls (pol : ReturnPolicy) (hwf : cx.f.WellFormed) (hty : cx.f.WellTyped)
    (hreach : ∀ b ∈ cx.f.labels, cx.f.Reaches cx.f.entry b)
    (husers : ∀ v, ∀ u ∈ cx.users v, u ∈ cx.f.insts) :
    ∃ m, runCalls cx (fun _ => none) (shadowCalls pol cx) = some m ∧
      ∀ n, m n = some true ↔ ((runVisitWith pol cx).1.shadowMap n).isSome = true := by
  obtain ⟨m, hrun, hinv⟩ := visit_keys hwf hty husers pol cx.visitOrder [] (by simp)
  have hsites := runVisitWith_sites pol cx
  have hmem : ∀ {i : Inst}, i ∈ cx.visitOrder.map Prod.snd →
      ∃ b ∈ cx.f.labels, i ∈ cx.f.code b := by
    intro i hi
    obtain ⟨p, hp, rfl⟩ := List.mem_map.mp hi
    exact ⟨p.1, (Ctx.mem_visitOrder hp).1, (Ctx.mem_visitOrder hp).2.2.1⟩
  refine ⟨m, ?_, hinv.entries⟩
  rw [shadowCalls, List.append_assoc, List.append_assoc, runCalls_append, hrun, Option.bind_some]
  refine runCalls_gets (OnlyGets.append (fun c hc => ?_) (OnlyGets.append (fun c hc => ?_)
    fun c hc => ?_))
  · obtain ⟨i, hi, hc⟩ := List.mem_flatMap.mp hc
    obtain ⟨hdone, ls, hop⟩ := hsites.lists.phis i hi
    obtain ⟨b, hb, hib⟩ := hmem hdone
    exact onlyGets_finalizePhi hwf hty hreach hinv hb hib hop c hc
  · obtain ⟨p, hp, rfl⟩ := List.mem_map.mp hc
    obtain ⟨hdone, hop, harg⟩ := hsites.lists.returns p hp
    obtain ⟨b, hb, hib⟩ := hmem hdone
    refine ⟨p.1, rfl, hinv.getOk_operand hwf hty hreach hb hib (by simp [Inst.isPhi, hop])
      (by simp [Inst.takesToken, hop]) harg fun d hd j hj hval => ?_⟩
    have hmt := hsites.mustTail p hp [] []
    rw [← hval] at hmt
    exact isMustTail_of_retVal hty rfl hd hj hmt
  · obtain ⟨i, hi, hc⟩ := List.mem_flatMap.mp hc
    obtain ⟨hdone, isAtomic, isVolatile, hop⟩ := hsites.lists.stores i hi
    obtain ⟨b, hb, hib⟩ := hmem hdone
    have hget : GetOk cx m (i.args.getD 0 (.zero .ptr)) := by
      rcases isArg_getD i 0 .ptr with harg | ⟨t, ht⟩
      · refine hinv.getOk_operand hwf hty hreach hb hib (by simp [Inst.isPhi, hop])
          (by simp [Inst.takesToken, hop]) harg fun d hd j hj hval => ?_
        by_contra htail
        have hfol := (hty.mustTail d hd j hj (Bool.eq_true_of_not_eq_false htail)).2 b hb i hib
          (hval ▸ harg)
        simp [Inst.followsMustTail, hop] at hfol
      · rw [ht]
        exact getOk_of_ne (by simp)
    exact OnlyGets.append (OnlyGets.ite (fun _ => .nil) fun _ => .single hget)
      (OnlyGets.ite (fun _ => .single hget) fun _ => .nil) c hc

/-- The checks of one site are consecutive when the checks are materialized. -/
theorem instrumentationList_consecutive (pol : ReturnPolicy) (cx : Ctx) (remap : Check → Check) :
    Consecutive (·.origIns.name) (instrumentationList pol cx remap) := by
  have hsites := runVisitWith_sites pol cx
  rw [instrumentationList]
  split_ifs
  · exact groupByOrigIns_consecutive _
  · have hre : St.Reargs (runVisitWith pol cx).1
        ((runVisitWith pol cx).1.shadowPhis.foldl (finalizePhi cx) (runVisitWith pol cx).1) :=
      foldl_finalizePhi_reargs _
    rw [filterPendingReturnChecks, hre.rest]
    dsimp only
    split_ifs
    · refine hsites.consecutive.append (consecutive_of_nodup ?_) fun c hc d hd => ?_
      · rw [List.map_map]
        exact hsites.returns.sublist (List.filter_sublist.map _)
      · -- a site of the visit is not a return
        obtain ⟨p, hp, rfl⟩ := List.mem_map.mp hd
        obtain ⟨hdone, hop, -⟩ := hsites.lists.returns p (List.mem_filter.mp hp).1
        obtain ⟨hcdone, hcop⟩ := hsites.sites c hc
        obtain ⟨q, hq, hqc⟩ := List.mem_map.mp hcdone
        obtain ⟨r, hr, hrp⟩ := List.mem_map.mp hdone
        obtain ⟨hqb, -, hqi, -⟩ := Ctx.mem_visitOrder hq
        obtain ⟨hrb, -, hri, -⟩ := Ctx.mem_visitOrder hr
        rw [hqc] at hqi
        rw [hrp] at hri
        intro hname
        obtain ⟨-, heq⟩ := cx.f.names_nodup q.1 hqb r.1 hrb _ hqi _ hri hname
        exact hcop (heq ▸ hop)
    · rw [List.append_nil]
      exact hsites.consecutive

/-- With trust in returned values, the visit phase is the one of the other modules. -/
theorem runVisitWith_trust {pol : ReturnPolicy} (h : pol.trustReturn = true) (cx : Ctx) :
    runVisitWith pol cx = (runVisit cx, []) := by
  have hprocess : ∀ (si : Site) (b : Label) (term i : Inst),
      si.processWith pol b term i = (si.process term i, []) := by
    intro si b term i
    rw [Site.processWith]
    split
    · rw [if_neg (by simp [Site.readsRetval, h])]
    · rfl
  have hfold : ∀ (order : List (Label × Inst)) (s : St),
      order.foldl (visitStepWith pol cx cx.computeUndefSlice) (s, []) =
        (order.foldl (visitStep cx cx.computeUndefSlice) s, []) := by
    intro order
    induction order with
    | nil => exact fun _ => rfl
    | cons bi order ih =>
      intro s
      have hstep : visitStepWith pol cx cx.computeUndefSlice (s, []) bi =
          (visitStep cx cx.computeUndefSlice s bi, []) := by
        rw [visitStepWith]
        dsimp only
        rw [hprocess]
        rfl
      rw [List.foldl_cons, List.foldl_cons, hstep, ih]
  exact hfold cx.visitOrder (St.init cx)

/-- The list of checks of `prepare`, for the deferral that `runOnFunction` makes. -/
theorem prepare_checks {pol : ReturnPolicy} (h : pol.trustReturn = true) (cx : Ctx) :
    (prepare cx).checks = instrumentationList pol cx (remapToSink cx ((recorded cx).toCfg cx.f)
      (cx.analyses ((recorded cx).toCfg cx.f))) := by
  have hrec : (recorded cx).checks = (filterPendingReturnChecks cx
      ((runVisit cx).shadowPhis.foldl (finalizePhi cx) (runVisit cx))).checks := by
    rw [recorded, instrumentAllocas_editsCode, finalizeInstrumentation_editsCode]
  rw [prepare_eq, remapChecks, instrumentationList, runVisitWith_trust h, ← hrec]
  split <;> rfl

/-- **The assertions of the pass hold.** For every well-formed function, every options and every
policy on returned values, none of the calls of `setShadow` and `getShadow` of `runOnFunction`
fails its assertion. When the checks are materialized, those of one site are consecutive, with or
without the deferral to sinks, so that `materializeChecksLegacy` starts one run for each site.
`groupByOrigIns` permutes the checks, makes those of one site consecutive and keeps their order. -/
theorem assertions_hold (pol : ReturnPolicy) (cx : Ctx) (remap : Check → Check)
    (hwf : cx.f.WellFormed) (hty : cx.f.WellTyped)
    (hreach : ∀ b ∈ cx.f.labels, cx.f.Reaches cx.f.entry b)
    (husers : ∀ v, ∀ u ∈ cx.users v, u ∈ cx.f.insts) :
    (∃ m, runCalls cx (fun _ => none) (shadowCalls pol cx) = some m) ∧
      Consecutive (·.origIns.name) (instrumentationList pol cx remap) ∧
      ((checkRuns (instrumentationList pol cx remap)).map Prod.fst).Nodup ∧
      ∀ cs, (groupByOrigIns cs).Perm cs ∧ Consecutive (·.origIns.name) (groupByOrigIns cs) ∧
        ∀ n, (groupByOrigIns cs).filter (·.origIns.name = n) = cs.filter (·.origIns.name = n) := by
  obtain ⟨m, hrun, -⟩ := runCalls_shadowCalls pol hwf hty hreach husers
  have hcons := instrumentationList_consecutive pol cx remap
  refine ⟨⟨m, hrun⟩, hcons, checkRuns_nodup hcons, fun cs => ?_⟩
  exact ⟨groupByOrigIns_perm cs, groupByOrigIns_consecutive cs, groupByOrigIns_stable cs⟩

end Assertions

/-! ### The counter loop -/

section Example

/-- The name that a value uses is defined in the list. -/
private def usesNameIn (xs : List Inst) : Val → Bool
  | .inst n _ => xs.any fun j => !j.isMemIntrinsic && decide (j.name = n)
  | _ => true

private theorem avail_of_usesNameIn {xs : List Inst} {v : Val} {A : Set ℕ}
    (h : usesNameIn xs v = true) (hA : defs xs ⊆ A) : v.Avail A := by
  cases v with
  | inst n t =>
    obtain ⟨j, hj, hp⟩ := List.any_eq_true.mp h
    simp only [Bool.and_eq_true, Bool.not_eq_true', decide_eq_true_eq] at hp
    exact hA ⟨j, hj, hp⟩
  | _ => trivial

/-- The incoming blocks of a PHI. -/
private def incomingOf (i : Inst) : List Label :=
  match i.op with
  | .phi ls => ls
  | _ => []

private def typedOperand (j : Inst) : Val → Bool
  | .inst n t => !decide (j.name = n) || decide (j.ty = t)
  | _ => true

theorem counterFunc_wellFormed : counterFunc.WellFormed where
  source := by decide
  uses b hb _ i hi hphi v hv := by
    have hlocal : ∀ b ∈ counterFunc.labels, ∀ i ∈ counterFunc.code b, i.isPhi = false →
        ∀ v ∈ i.operands, usesNameIn (before i (counterFunc.code b)) v = true := by decide
    exact avail_of_usesNameIn (hlocal b hb i hi hphi v hv) Set.subset_union_right
  phis b hb _ i hi ls hop a ha _ := by
    have hlocal : ∀ b ∈ counterFunc.labels, ∀ i ∈ counterFunc.code b,
        ∀ a ∈ i.args.zip (incomingOf i), usesNameIn (counterFunc.code a.2) a.1 = true := by decide
    refine avail_of_usesNameIn (hlocal b hb i hi a ?_) Set.subset_union_right
    rwa [incomingOf, hop]
  pads b hb i j hij hpad := by
    have hlocal : ∀ b ∈ counterFunc.labels, ∀ j ∈ counterFunc.code b, j.isEHPad = false := by
      decide
    rw [hlocal b hb j hij.mem.2] at hpad
    cases hpad

theorem counterFunc_wellTyped : counterFunc.WellTyped where
  result := by decide
  operand b hb i hi n t hv d hd j hj hn := by
    have hlocal : ∀ b ∈ counterFunc.labels, ∀ i ∈ counterFunc.code b, ∀ v ∈ i.args,
        ∀ d ∈ counterFunc.labels, ∀ j ∈ counterFunc.code d, typedOperand j v = true := by decide
    have h := hlocal b hb i hi _ hv d hd j hj
    simpa [typedOperand, hn] using h
  sized := by decide
  incoming b hb i hi ls hop := by
    have hlocal : ∀ b ∈ counterFunc.labels, ∀ i ∈ counterFunc.code b, i.isPhi = true →
        i.args.length = (incomingOf i).length ∧ ∀ l ∈ incomingOf i, l ∈ counterFunc.labels := by
      decide
    have h := hlocal b hb i hi (by simp [Inst.isPhi, hop])
    rwa [incomingOf, hop] at h
  mustTail b hb i hi h := by
    have hlocal : ∀ b ∈ counterFunc.labels, ∀ i ∈ counterFunc.code b, i.isMustTail = false := by
      decide
    rw [hlocal b hb i hi] at h
    cases h

theorem counterFunc_reaches :
    ∀ b ∈ counterFunc.labels, counterFunc.Reaches counterFunc.entry b := by
  intro b hb
  rcases List.mem_cons.mp hb with rfl | hb
  · exact .refl
  · rw [List.mem_singleton.mp hb]
    exact .single (show (1 : Label) ∈ counterFunc.succs 0 by decide)

/-- A loop that carries a counter through a PHI, without trust in returned values. -/
theorem assertions_hold_counter :
    (∃ m, runCalls counterCtx (fun _ => none)
        (shadowCalls ⟨false, fun _ => false⟩ counterCtx) = some m) ∧
      ((checkRuns (instrumentationList ⟨false, fun _ => false⟩ counterCtx id)).map
        Prod.fst).Nodup := by
  have h := assertions_hold ⟨false, fun _ => false⟩ counterCtx id counterFunc_wellFormed
    counterFunc_wellTyped counterFunc_reaches fun v u hu => (List.mem_filter.mp hu).1
  exact ⟨h.1, h.2.2.1⟩

end Example

end CQMSan
