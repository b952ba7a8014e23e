import CQMSan.Pass.Visitor

/-!
# Loads that feed only instructions without a shadow

`onlyFeedsNoSanitize` follows the uses of a loaded value through pure instructions. When every
chain of uses ends in an instruction that is not instrumented, or in a pure one without a use,
nothing can observe the shadow of the value and the load is not instrumented.

The search is bounded: it gives up when it has seen more than 256 instructions. The use graph may
have cycles and an instruction may be reached along several chains; `Ctx.Feeds v u` says that some
chain of uses from `v` gets to `u`, and the search is compared with that relation.
-/

namespace CQMSan

/-- A chain of uses goes on through `u`. At an instruction that is not instrumented it ends: the
shadow of its result is clean. -/
def Ctx.Passes (cx : Ctx) (u : Inst) : Prop :=
  cx.isNoSanitizeEquivalent u = false ∧ isPureUser u = true

/-- Some chain of uses starts at the value `v`, goes through pure instructions and gets to `u`. -/
inductive Ctx.Feeds (cx : Ctx) (v : Val) : Inst → Prop
  | direct {u : Inst} : u ∈ cx.users v → cx.Feeds v u
  | through {w u : Inst} : cx.Feeds v w → cx.Passes w → u ∈ cx.users w.val → cx.Feeds v u

/-- A use that nothing observes: it is not instrumented, or it is pure. -/
def Ctx.Hidden (cx : Ctx) (u : Inst) : Prop :=
  cx.isNoSanitizeEquivalent u = true ∨ isPureUser u = true

/-- No constant expression uses `v` or an instruction that a chain from `v` goes through. -/
def Ctx.NoConstantUser (cx : Ctx) (v : Val) : Prop :=
  cx.constantUser v = false ∧ ∀ u, cx.Feeds v u → cx.Passes u → cx.constantUser u.val = false

/-! ### The budget -/

section Budget

variable {cx : Ctx} {us : List Inst} {s s' : List Inst × List Inst} {v : Val}

/-- `PushUsers` pushes the users that are new and gives up past the budget. -/
theorem pushUsers_eq (h : s.2.length ≤ 256) :
    pushUsers us s =
      if (Worklist.pushNew us s).2.length ≤ 256 then some (Worklist.pushNew us s) else none := by
  induction us generalizing s with
  | nil => simp [pushUsers, Worklist.pushNew, h]
  | cons u us ih =>
    have hcons : Worklist.pushNew (u :: us) s = Worklist.pushNew us (Worklist.pushNew [u] s) :=
      Worklist.pushNew_cons s
    rw [pushUsers, hcons]
    by_cases hu : (Worklist.pushNew [u] s).2.length > 256
    · -- the seen set only grows, so the budget is exceeded at the end as well
      have hgrow := Worklist.length_le_pushNew_seen us (Worklist.pushNew [u] s)
      rw [if_pos hu, if_neg (by omega)]
    · rw [if_neg hu, ih (by omega)]

/-- What a successful `PushUsers` says. -/
theorem Ctx.pushUsersOf_some (h : s.2.length ≤ 256) (hs : cx.pushUsersOf v s = some s') :
    cx.constantUser v = false ∧ s' = Worklist.pushNew (cx.users v) s ∧ s'.2.length ≤ 256 := by
  rw [Ctx.pushUsersOf] at hs
  split_ifs at hs with hc
  rw [pushUsers_eq h] at hs
  split_ifs at hs with hle
  obtain rfl := Option.some.inj hs
  exact ⟨by simpa using hc, rfl, hle⟩

/-- `PushUsers` succeeds when the users are instructions and fit the budget. -/
theorem Ctx.pushUsersOf_eq (h : s.2.length ≤ 256) (hc : cx.constantUser v = false)
    (hle : (Worklist.pushNew (cx.users v) s).2.length ≤ 256) :
    cx.pushUsersOf v s = some (Worklist.pushNew (cx.users v) s) := by
  rw [Ctx.pushUsersOf, hc, if_neg Bool.false_ne_true, pushUsers_eq h, if_pos hle]

end Budget

/-! ### The search -/

section Search

variable {cx : Ctx} {v : Val} {n : ℕ} {wl seen : List Inst}

/-- An instruction the search is done with: it is not instrumented, or it is pure and its users
were seen. -/
def Ctx.DoneIn (cx : Ctx) (seen : List Inst) (u : Inst) : Prop :=
  cx.isNoSanitizeEquivalent u = true ∨
    isPureUser u = true ∧ cx.constantUser u.val = false ∧ ∀ w ∈ cx.users u.val, w ∈ seen

theorem Ctx.DoneIn.mono {seen' : List Inst} {u : Inst} (h : cx.DoneIn seen u)
    (hsub : ∀ w ∈ seen, w ∈ seen') : cx.DoneIn seen' u := by
  rcases h with h | ⟨hp, hc, h⟩
  · exact Or.inl h
  · exact Or.inr ⟨hp, hc, fun w hw => hsub w (h w hw)⟩

/-- A search that answers `true` has seen a set that is closed under users. The rounds cannot run
out: each takes one of at most 256 instructions off the worklist. -/
theorem closed_of_onlyFeedsLoop (hfuel : wl.length + (256 - seen.length) < n)
    (hlen : seen.length ≤ 256) (hdone : ∀ u ∈ seen, u ∈ wl ∨ cx.DoneIn seen u)
    (h : onlyFeedsLoop cx n (wl, seen) = true) :
    ∃ seen', (∀ u ∈ seen, u ∈ seen') ∧ ∀ u ∈ seen', cx.DoneIn seen' u := by
  induction n generalizing wl seen with
  | zero => omega
  | succ n ih =>
    cases wl with
    | nil =>
      refine ⟨seen, fun u hu => hu, fun u hu => ?_⟩
      rcases hdone u hu with hu | hu
      · cases hu
      · exact hu
    | cons x wl =>
      rw [onlyFeedsLoop] at h
      simp only [List.length_cons] at hfuel
      -- an instruction other than `x` keeps its place
      have hrest : cx.DoneIn seen x → ∀ u ∈ seen, u ∈ wl ∨ cx.DoneIn seen u := by
        intro hx u hu
        rcases hdone u hu with hu | hu
        · rcases List.mem_cons.mp hu with rfl | hu
          · exact Or.inr hx
          · exact Or.inl hu
        · exact Or.inr hu
      split_ifs at h with hns hp
      · exact ih (by omega) hlen (hrest (Or.inl hns)) h
      · cases hpush : cx.pushUsersOf x.val (wl, seen) with
        | none => simp [hpush] at h
        | some s =>
          obtain ⟨hc, rfl, hle⟩ := Ctx.pushUsersOf_some hlen hpush
          simp only [hpush] at h
          have hnum := Worklist.length_pushNew (cx.users x.val) (wl, seen)
          have hgrow := Worklist.length_le_pushNew_seen (cx.users x.val) (wl, seen)
          simp only at hnum hgrow
          have hsub : ∀ u ∈ seen, u ∈ (Worklist.pushNew (cx.users x.val) (wl, seen)).2 :=
            fun u hu => Worklist.mem_pushNew_seen.mpr (Or.inr hu)
          have hx : cx.DoneIn (Worklist.pushNew (cx.users x.val) (wl, seen)).2 x :=
            Or.inr ⟨hp, hc, fun w hw => Worklist.mem_pushNew_seen.mpr (Or.inl hw)⟩
          have hdone' : ∀ u ∈ (Worklist.pushNew (cx.users x.val) (wl, seen)).2,
              u ∈ (Worklist.pushNew (cx.users x.val) (wl, seen)).1 ∨
                cx.DoneIn (Worklist.pushNew (cx.users x.val) (wl, seen)).2 u := by
            intro u hu
            by_cases hus : u ∈ seen
            · rcases hdone u hus with hwl | hd
              · rcases List.mem_cons.mp hwl with rfl | hwl
                · exact Or.inr hx
                · exact Or.inl (Worklist.mem_pushNew_wl.mpr (Or.inl hwl))
              · exact Or.inr (hd.mono hsub)
            · rcases Worklist.mem_pushNew_seen.mp hu with hu | hu
              · exact Or.inl (Worklist.mem_pushNew_wl.mpr (Or.inr ⟨hu, hus⟩))
              · exact absurd hu hus
          obtain ⟨seen', hseen', hclosed⟩ := ih (by omega) hle hdone' h
          exact ⟨seen', fun u hu => hseen' u (hsub u hu), hclosed⟩

/-- Every use that a chain gets to was seen. -/
theorem Ctx.Feeds.mem_of_closed (hv : ∀ u ∈ cx.users v, u ∈ seen)
    (hclosed : ∀ u ∈ seen, cx.DoneIn seen u) {u : Inst} (h : cx.Feeds v u) : u ∈ seen := by
  induction h with
  | direct hu => exact hv _ hu
  | through _ hpass hu ih =>
    rcases hclosed _ ih with hns | ⟨-, -, hsub⟩
    · rw [hpass.1] at hns
      cases hns
    · exact hsub _ hu

/-- Lists without repeats of uses are within the budget when the use graph is. -/
theorem length_le_of_feeds (hcard : {u | cx.Feeds v u}.encard ≤ 256) (hnd : seen.Nodup)
    (hseen : ∀ u ∈ seen, cx.Feeds v u) : seen.length ≤ 256 := by
  have hsub : (seen.toFinset : Set Inst) ⊆ {u | cx.Feeds v u} := by
    intro u hu
    exact hseen u (by simpa using hu)
  have hle := (Set.encard_le_encard hsub).trans hcard
  rw [Set.encard_coe_eq_coe_finsetCard, List.toFinset_card_of_nodup hnd] at hle
  exact_mod_cast hle

/-- A search inside a use graph that nothing observes and that fits the budget answers `true`. -/
theorem onlyFeedsLoop_of_hidden (hhidden : ∀ u, cx.Feeds v u → cx.Hidden u)
    (hcard : {u | cx.Feeds v u}.encard ≤ 256) (hconst : cx.NoConstantUser v)
    (hnd : seen.Nodup) (hseen : ∀ u ∈ seen, cx.Feeds v u) (hwl : ∀ u ∈ wl, u ∈ seen) :
    onlyFeedsLoop cx n (wl, seen) = true := by
  induction n generalizing wl seen with
  | zero => rfl
  | succ n ih =>
    cases wl with
    | nil => rfl
    | cons x wl =>
      rw [onlyFeedsLoop]
      have hx : cx.Feeds v x := hseen x (hwl x List.mem_cons_self)
      have htail : ∀ u ∈ wl, u ∈ seen := fun u hu => hwl u (List.mem_cons_of_mem _ hu)
      split_ifs with hns hp
      · exact ih hnd hseen htail
      · have hpass : cx.Passes x := ⟨by simpa using hns, hp⟩
        have hlen : seen.length ≤ 256 := length_le_of_feeds hcard hnd hseen
        have hnd' : (Worklist.pushNew (cx.users x.val) (wl, seen)).2.Nodup :=
          Worklist.nodup_pushNew_seen hnd
        have hseen' : ∀ u ∈ (Worklist.pushNew (cx.users x.val) (wl, seen)).2, cx.Feeds v u := by
          intro u hu
          rcases Worklist.mem_pushNew_seen.mp hu with hu | hu
          · exact .through hx hpass hu
          · exact hseen u hu
        rw [Ctx.pushUsersOf_eq hlen (hconst.2 x hx hpass) (length_le_of_feeds hcard hnd' hseen')]
        refine ih hnd' hseen' fun u hu => ?_
        rcases Worklist.mem_pushNew_wl.mp hu with hu | ⟨hu, -⟩
        · exact Worklist.mem_pushNew_seen.mpr (Or.inr (htail u hu))
        · exact Worklist.mem_pushNew_seen.mpr (Or.inl hu)
      · rcases hhidden x hx with h | h
        · exact absurd h hns
        · exact absurd h hp

end Search

/-! ### What the answer means -/

/-- When the search answers `true`, a chain of uses only gets to hidden instructions. -/
theorem hidden_of_onlyFeedsNoSanitize {cx : Ctx} {v : Val}
    (h : onlyFeedsNoSanitize cx v = true) {u : Inst} (hu : cx.Feeds v u) : cx.Hidden u := by
  rw [onlyFeedsNoSanitize] at h
  cases hpush : cx.pushUsersOf v ([], []) with
  | none => simp [hpush] at h
  | some s =>
    obtain ⟨-, rfl, hle⟩ := Ctx.pushUsersOf_some (Nat.zero_le _) hpush
    simp only [hpush] at h
    have hnum := Worklist.length_pushNew (cx.users v) (([], []) : List Inst × List Inst)
    simp only [List.length_nil] at hnum
    -- at the start everything seen is on the worklist
    have hstart : ∀ w ∈ (Worklist.pushNew (cx.users v) ([], [])).2,
        w ∈ (Worklist.pushNew (cx.users v) ([], [])).1 ∨
          cx.DoneIn (Worklist.pushNew (cx.users v) ([], [])).2 w := by
      intro w hw
      rcases Worklist.mem_pushNew_seen.mp hw with hw | hw
      · exact Or.inl (Worklist.mem_pushNew_wl.mpr (Or.inr ⟨hw, List.not_mem_nil⟩))
      · cases hw
    obtain ⟨seen, hseen, hclosed⟩ := closed_of_onlyFeedsLoop (by omega) hle hstart h
    have hmem : u ∈ seen := hu.mem_of_closed
      (fun w hw => hseen w (Worklist.mem_pushNew_seen.mpr (Or.inl hw))) hclosed
    rcases hclosed u hmem with hns | ⟨hp, -⟩
    · exact Or.inl hns
    · exact Or.inr hp

/-- **No observable use is hidden.** When `onlyFeedsNoSanitize` answers `true`, every chain of uses
only gets to instructions that are not instrumented or pure, and one that goes on nowhere ends in
an instruction that is not instrumented or in a pure one without users. It answers `true` whenever
that holds, no constant expression is among the users, and there are at most 256 of them. -/
theorem onlyFeedsNoSanitize_spec (cx : Ctx) (v : Val) :
    (onlyFeedsNoSanitize cx v = true →
      (∀ u, cx.Feeds v u → cx.Hidden u) ∧
      ∀ u, cx.Feeds v u → (∀ w, cx.Passes u → w ∉ cx.users u.val) →
        cx.isNoSanitizeEquivalent u = true ∨ isPureUser u = true ∧ cx.users u.val = []) ∧
    ((∀ u, cx.Feeds v u → cx.Hidden u) → cx.NoConstantUser v →
      {u | cx.Feeds v u}.encard ≤ 256 → onlyFeedsNoSanitize cx v = true) := by
  constructor
  · intro h
    refine ⟨fun u hu => hidden_of_onlyFeedsNoSanitize h hu, fun u hu hend => ?_⟩
    by_cases hns : cx.isNoSanitizeEquivalent u = true
    · exact Or.inl hns
    · rcases hidden_of_onlyFeedsNoSanitize h hu with hns' | hp
      · exact Or.inl hns'
      · have hpass : cx.Passes u := ⟨by simpa using hns, hp⟩
        exact Or.inr ⟨hp, List.eq_nil_iff_forall_not_mem.mpr fun w => hend w hpass⟩
  · intro hhidden hconst hcard
    have hnd : (Worklist.pushNew (cx.users v) ([], [])).2.Nodup :=
      Worklist.nodup_pushNew_seen List.nodup_nil
    have hseen : ∀ u ∈ (Worklist.pushNew (cx.users v) ([], [])).2, cx.Feeds v u := by
      intro u hu
      rcases Worklist.mem_pushNew_seen.mp hu with hu | hu
      · exact .direct hu
      · cases hu
    rw [onlyFeedsNoSanitize, Ctx.pushUsersOf_eq (Nat.zero_le _) hconst.1
      (length_le_of_feeds hcard hnd hseen)]
    refine onlyFeedsLoop_of_hidden hhidden hcard hconst hnd hseen fun u hu => ?_
    rcases Worklist.mem_pushNew_wl.mp hu with hu | ⟨hu, -⟩
    · cases hu
    · exact Worklist.mem_pushNew_seen.mpr (Or.inl hu)

/-- The uses at which the pass reports an undefined value or hands it on: memory accesses by their
address, stored and passed values, conditions and results. A comparison of floating-point numbers
is not among the pure instructions. -/
def Inst.observes (i : Inst) : Bool :=
  match i.op with
  | .load | .store _ _ | .cmpxchg | .atomicrmw | .ret | .br | .condBr | .switch | .indirectBr
  | .fcmp | .invoke _ _ | .callBr _ => true
  | .call c => decide (c.callee ≠ .intrinsic .arith)
  | _ => false

theorem isPureUser_of_observes {u : Inst} (h : u.observes = true) : isPureUser u = false := by
  cases hp : isPureUser u with
  | false => rfl
  | true =>
    rw [isPureUser] at hp
    rw [Inst.observes] at h
    split at hp
    all_goals first
      | exact absurd hp Bool.false_ne_true
      | (rename_i hop; simp [hop] at h)

/-- A value that is left out is stored, passed, returned, branched on, compared or used as an
address by instructions that are not instrumented only. -/
theorem isNoSanitizeEquivalent_of_onlyFeeds (cx : Ctx) (v : Val) (u : Inst)
    (h : onlyFeedsNoSanitize cx v = true) (hu : cx.Feeds v u) (hobs : u.observes = true) :
    cx.isNoSanitizeEquivalent u = true := by
  rcases hidden_of_onlyFeedsNoSanitize h hu with hns | hp
  · exact hns
  · rw [isPureUser_of_observes hobs] at hp
    cases hp

/-! ### A counter loop -/

section Example

/-- `%1 = load i32, ptr %p`. -/
private def counterLoad : Inst := ⟨1, .load, [.arg 0 .ptr], .int 32, false⟩

/-- `%2 = phi i32 [%1, 0], [%3, 1]`. -/
private def counterPhi : Inst :=
  ⟨2, .phi [0, 1], [.inst 1 (.int 32), .inst 3 (.int 32)], .int 32, false⟩

/-- `%3 = add i32 %2, 1`. -/
private def counterAdd : Inst :=
  ⟨3, .bin .add, [.inst 2 (.int 32), .const (.int 32) 1], .int 32, false⟩

/-- `store i32 %3, ptr %p, !nosanitize`. -/
private def counterStore : Inst :=
  ⟨4, .store false false, [.inst 3 (.int 32), .arg 0 .ptr], .void, true⟩

/-- A counter that is read before a loop and written in it by code that is not instrumented. -/
def counterFunc : Func where
  entry := 0
  labels := [0, 1]
  code b :=
    match b with
    | 0 => [counterLoad, ⟨5, .br, [], .void, false⟩]
    | 1 => [counterPhi, counterAdd, counterStore, ⟨6, .br, [], .void, false⟩]
    | _ => []
  succs b := if b = 0 ∨ b = 1 then [1] else []
  entry_mem := by decide
  succs_mem := by decide
  names_nodup := by decide
  code_nodup := by decide
  terminator_last b hb := by
    simp only [List.mem_cons, List.not_mem_nil, or_false] at hb
    rcases hb with rfl | rfl
    · exact ⟨[counterLoad], _, rfl, rfl, by decide⟩
    · exact ⟨[counterPhi, counterAdd, counterStore], _, rfl, rfl, by decide⟩

/-- The counter loop with its use lists. -/
def counterCtx : Ctx where
  f := counterFunc
  opts := {}
  users v := counterFunc.insts.filter fun i => v ∈ i.operands
  constantUser _ := false
  isAFLRuntimeAccess _ := false
  pointerBase v := (v, 0)
  findAlloca _ := none
  retNoUndef := false
  analyses _ := ⟨fun _ => [], fun _ _ => false, fun _ => none⟩

/-- A chain of uses of the counter, around the cycle of the PHI and the addition. -/
private theorem feeds_counterStore : counterCtx.Feeds counterLoad.val counterStore :=
  .through (.through (.direct (u := counterPhi) (by decide)) ⟨rfl, rfl⟩
    (u := counterAdd) (by decide)) ⟨rfl, rfl⟩ (by decide)

/-- The store of the counter is not instrumented. -/
theorem isNoSanitizeEquivalent_of_onlyFeeds_counter :
    counterCtx.isNoSanitizeEquivalent counterStore = true :=
  isNoSanitizeEquivalent_of_onlyFeeds counterCtx counterLoad.val counterStore (by decide)
    feeds_counterStore rfl

/-- The counter feeds the cycle of the PHI and the addition and a store that is not
instrumented; the search answers `true`, from either side. -/
theorem onlyFeedsNoSanitize_counter :
    onlyFeedsNoSanitize counterCtx counterLoad.val = true ∧
      counterCtx.Feeds counterLoad.val counterStore ∧
      (∀ u, counterCtx.Feeds counterLoad.val u → counterCtx.Hidden u) ∧
      {u | counterCtx.Feeds counterLoad.val u}.encard ≤ 256 := by
  have hfeeds : ∀ u, counterCtx.Feeds counterLoad.val u →
      u ∈ [counterPhi, counterAdd, counterStore] := by
    intro u hu
    refine hu.mem_of_closed (by decide) fun w hw => ?_
    simp only [List.mem_cons, List.not_mem_nil, or_false] at hw
    rcases hw with rfl | rfl | rfl
    · exact Or.inr ⟨rfl, rfl, by decide⟩
    · exact Or.inr ⟨rfl, rfl, by decide⟩
    · exact Or.inl rfl
  have hcard : {u | counterCtx.Feeds counterLoad.val u}.encard ≤ 256 := by
    have hsub : {u | counterCtx.Feeds counterLoad.val u} ⊆
        ([counterPhi, counterAdd, counterStore].toFinset : Set Inst) := by
      intro u hu
      exact_mod_cast List.mem_toFinset.mpr (hfeeds u hu)
    refine (Set.encard_le_encard hsub).trans ?_
    rw [Set.encard_coe_eq_coe_finsetCard]
    exact_mod_cast (List.toFinset_card_le _).trans (by decide)
  have htrue : onlyFeedsNoSanitize counterCtx counterLoad.val = true := by
    refine (onlyFeedsNoSanitize_spec counterCtx counterLoad.val).2 (fun u hu => ?_)
      ⟨rfl, fun _ _ _ => rfl⟩ hcard
    have hmem := hfeeds u hu
    simp only [List.mem_cons, List.not_mem_nil, or_false] at hmem
    rcases hmem with rfl | rfl | rfl
    · exact Or.inr rfl
    · exact Or.inr rfl
    · exact Or.inl rfl
  exact ⟨htrue, feeds_counterStore,
    ((onlyFeedsNoSanitize_spec counterCtx counterLoad.val).1 htrue).1, hcard⟩

end Example

end CQMSan
