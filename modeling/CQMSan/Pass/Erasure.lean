import CQMSan.Pass.DepthFirst
import CQMSan.Pass.Reports

/-!
# Instrumentation only adds code

Erasing what the pass inserted from the instrumented function gives the source back: the same
instructions, with the same operands, in the same order. There are two exceptions, both by design:
the memory intrinsics are replaced by calls of the runtime, and the ordering of a libatomic call is
strengthened. No phase after the visit touches an instruction of the source (`St.SameSource`), with
any options.
-/

namespace CQMSan

/-! ### Erasing inserted code -/

section SourceOf

variable {xs ys : List Inst}

end SourceOf

/-! ### The part of the code that is kept -/

/-- `p` picks no instruction that is inserted under a name from `N` on. -/
def PicksNone (p : Inst → Bool) (N : ℕ) : Prop :=
  ∀ x : Inst, ∀ o, x.op = .sh o → N ≤ x.name → p x = false

section Filter

variable {p : Inst → Bool} {N n : ℕ} {xs ys : List Inst} {P : ShOp → Prop}

theorem PicksNone.numbered (hp : PicksNone p N) (hN : N ≤ n) (h : Numbered P n xs) :
    xs.filter p = [] := by
  refine List.filter_eq_nil_iff.mpr fun x hx => ?_
  obtain ⟨o, ho, -⟩ := h.op hx
  rw [hp x o ho (hN.trans (h.name_bounds hx).1)]
  exact Bool.false_ne_true

theorem PicksNone.builder (hp : PicksNone p N) (hN : N ≤ n) {b : Builder} {c : Cache}
    (h : Builder.Ext P Set.univ 0 ⟨n, [], c⟩ b) : b.out.filter p = [] ∧ n ≤ b.next := by
  obtain ⟨xs, hout, hnext, hnum, -⟩ := h.out
  rw [hout, hnext, List.nil_append]
  exact ⟨hp.numbered hN hnum, Nat.le_add_right _ _⟩

end Filter

/-- In the code of `s'`, `p` picks the same instructions as in that of `s`; the shadows and the list
of stores are the same. -/
structure St.SamePart (p : Inst → Bool) (s s' : St) : Prop where
  seg : ∀ n, (s'.seg n).filter p = (s.seg n).filter p
  prologue : s'.prologue.filter p = s.prologue.filter p
  next : s.next ≤ s'.next
  shadowMap : s'.shadowMap = s.shadowMap
  storeList : s'.storeList = s.storeList

section SamePart

variable {p : Inst → Bool} {N : ℕ} (cx : Ctx) {s s' s'' : St}

theorem St.SamePart.refl (s : St) : s.SamePart p s := ⟨fun _ => rfl, rfl, le_rfl, rfl, rfl⟩

theorem St.SamePart.trans (h : s.SamePart p s') (h' : s'.SamePart p s'') : s.SamePart p s'' :=
  ⟨fun n => (h'.seg n).trans (h.seg n), h'.prologue.trans h.prologue, h.next.trans h'.next,
    h'.shadowMap.trans h.shadowMap, h'.storeList.trans h.storeList⟩

theorem St.SamePart.foldl {α : Type} {step : St → α → St}
    (h : ∀ s a, N ≤ s.next → St.SamePart p s (step s a)) (as : List α) (hN : N ≤ s.next) :
    s.SamePart p (as.foldl step s) := by
  induction as generalizing s with
  | nil => exact .refl s
  | cons a as ih => exact (h s a hN).trans (ih (hN.trans (h s a hN).next))

theorem St.SamePart.blockCode (h : s.SamePart p s') (f : Cfg) (b : Label) :
    (s'.blockCode f b).filter p = (s.blockCode f b).filter p := by
  rw [St.blockCode, St.blockCode, List.filter_append, List.filter_append]
  congr 1
  · split_ifs
    · exact h.prologue
    · rfl
  · rw [List.filter_flatMap, List.filter_flatMap]
    exact List.flatMap_congr fun i _ => h.seg i.name

end SamePart

/-! ### What remains of a visited instruction -/

/-- A call of libatomic, whose ordering the pass strengthens. -/
def Inst.isLibAtomic (i : Inst) : Bool :=
  match i.callInfo? with
  | some { callee := .fn name, .. } => decide (name = "__atomic_load" ∨ name = "__atomic_store")
  | _ => false

/-- `x` is what remains of `i`: the instruction itself, or with another ordering. -/
def Inst.Keeps (i x : Inst) : Prop :=
  x = i ∨ i.isLibAtomic = true ∧ ∃ ordering, x = { i with args := i.args.set 3 ordering }

section Self

variable {si : Site} {term i : Inst}

end Self

/-! ### The whole pass -/

section Run

variable {cx : Ctx} {slice : List Val} {s : St} {b : Label} {i : Inst} {done : List Inst}

theorem Inst.Keeps.isInserted {x : Inst} (h : i.Keeps x) : x.isInserted = i.isInserted := by
  rcases h with rfl | ⟨-, o, rfl⟩
  · rfl
  · rfl

/-- The rule for the visit phase: what the visit of one instruction keeps, given the invariant and
that what precedes the instruction is visited, holds after the phase. -/
theorem runVisit_induct (hwf : cx.f.WellFormed) (hlaw : cx.Lawful) {P : List Inst → St → Prop}
    (hinit : P [] (St.init cx))
    (hstep : ∀ done s b i, VisitInv cx done s → (b, i) ∈ cx.visitOrder → i ∉ done →
      (∀ d, ∀ j ∈ cx.f.code d, cx.isNoSanitizeEquivalent j = false → cx.f.Precedes d j b i →
        j ∈ done) → P done s → P (i :: done) (visitStep cx cx.computeUndefSlice s (b, i))) :
    ∃ done, (∀ i, i ∈ done ↔ i ∈ cx.visitOrder.map Prod.snd) ∧ VisitInv cx done (runVisit cx) ∧
      P done (runVisit cx) := by
  have hpre : ∀ xs ys, cx.visitOrder = xs ++ ys → ∃ done, (∀ i, i ∈ done ↔ i ∈ xs.map Prod.snd) ∧
      VisitInv cx done (xs.foldl (visitStep cx cx.computeUndefSlice) (St.init cx)) ∧
      P done (xs.foldl (visitStep cx cx.computeUndefSlice) (St.init cx)) := by
    intro xs
    induction xs using List.reverseRecOn with
    | nil => exact fun _ _ => ⟨[], by simp, VisitInv.init, hinit⟩
    | append_singleton xs p ih =>
      intro ys horder
      obtain ⟨b, i⟩ := p
      have hp : (b, i) ∈ cx.visitOrder := by simp [horder]
      rw [List.append_assoc, List.singleton_append] at horder
      obtain ⟨done, hdone, hinv, hP⟩ := ih _ horder
      obtain ⟨hb, hreach, hi, -⟩ := Ctx.mem_visitOrder hp
      have hnd := cx.visitOrder_nodup
      have hpair := cx.visitOrder_pairwise
      rw [horder] at hnd hpair
      have hid : i ∉ done := by
        rw [hdone]
        intro h
        rw [List.map_append, List.map_cons] at hnd
        exact (List.nodup_append.mp hnd).2.2 i h i List.mem_cons_self rfl
      have hlater : ∀ j ∈ done, ¬ Before (cx.f.code b) i j := by
        intro j hj
        obtain ⟨q, hq, rfl⟩ := List.mem_map.mp ((hdone j).mp hj)
        exact (List.pairwise_append.mp hpair).2.2 q hq (b, i) List.mem_cons_self
      have hpreceding : ∀ d, ∀ j ∈ cx.f.code d, cx.isNoSanitizeEquivalent j = false →
          cx.f.Precedes d j b i → j ∈ done := fun d j hj hns hprec =>
        (hdone j).mpr (List.mem_map_of_mem (f := Prod.snd) (Ctx.visited_before horder hj hns hprec))
      rw [List.foldl_append]
      refine ⟨i :: done, fun j => ?_, hinv.step hwf hlaw hb hreach hi hid hlater,
        hstep done _ b i hinv hp hid hpreceding hP⟩
      rw [List.mem_cons, hdone, List.map_append, List.mem_append, or_comm]
      simp
  exact hpre cx.visitOrder [] (by simp)

/-- The visit of an instruction sets no other shadow. -/
theorem St.shadowMap_apply_of_ne {v : Visit} {n : ℕ} (hn : n ≠ i.name) :
    (s.apply i v).shadowMap n = s.shadowMap n := by
  cases hsh : v.shadow with
  | none => simp only [St.apply, hsh]
  | some sv => simp only [St.apply, hsh, Function.update_of_ne hn]

theorem St.shadowMap_apply_self {v : Visit} {sv : Val} (h : v.shadow = some sv) :
    (s.apply i v).shadowMap i.name = some sv := by
  simp only [St.apply, h, Function.update_self]

/-- The instruction `i` was visited in the state `s`, after `done`, and `t` is a later state of the
visit phase. -/
structure VisitedAt (cx : Ctx) (t : St) (done : List Inst) (s : St) (b : Label) (i : Inst) :
    Prop where
  inv : VisitInv cx done s
  new : i ∉ done
  before : ∀ d, ∀ j ∈ cx.f.code d, cx.isNoSanitizeEquivalent j = false →
    cx.f.Precedes d j b i → j ∈ done
  seg : t.seg i.name = (visitStep cx cx.computeUndefSlice s (b, i)).seg i.name
  shadow : ∀ d ∈ cx.f.labels, ∀ j ∈ cx.f.code d, j = i ∨ j ∈ done →
    t.shadowMap j.name = (visitStep cx cx.computeUndefSlice s (b, i)).shadowMap j.name
  checks : (visitStep cx cx.computeUndefSlice s (b, i)).checks ⊆ t.checks
  stores : (visitStep cx cx.computeUndefSlice s (b, i)).storeList ⊆ t.storeList
  phis : (visitStep cx cx.computeUndefSlice s (b, i)).shadowPhis ⊆ t.shadowPhis

/-- The visit of another instruction. -/
theorem VisitedAt.step {t : St} {c : Label} {k : Inst} (h : VisitedAt cx t done s b i)
    (hb : b ∈ cx.f.labels) (hi : i ∈ cx.f.code b) (hc : c ∈ cx.f.labels) (hk : k ∈ cx.f.code c)
    (hki : k ≠ i) (hkd : k ∉ done) :
    VisitedAt cx (visitStep cx cx.computeUndefSlice t (c, k)) done s b i := by
  have hne : ∀ d ∈ cx.f.labels, ∀ j ∈ cx.f.code d, j = i ∨ j ∈ done → j.name ≠ k.name := by
    intro d hd j hj hmem hname
    obtain ⟨-, rfl⟩ := cx.f.names_nodup d hd c hc j hj k hk hname
    exact hmem.elim hki hkd
  refine ⟨h.inv, h.new, h.before, ?_, fun d hd j hj hmem => ?_, fun x hx => ?_, fun x hx => ?_,
    fun x hx => ?_⟩
  · rw [← h.seg]
    exact Function.update_of_ne (hne b hb i hi (Or.inl rfl)) _ _
  · rw [← h.shadow d hd j hj hmem]
    exact St.shadowMap_apply_of_ne (hne d hd j hj hmem)
  · exact List.mem_append_left _ (h.checks hx)
  · exact List.mem_append_left _ (h.stores hx)
  · exact List.mem_append_left _ (h.phis hx)

end Run

/-! ### A cleared buffer -/

/-- `memset` of a global. -/
def clearMemset : Inst :=
  { name := 1
    op := .call ⟨.intrinsic .memset, true, true, false, [], [], none⟩
    args := [.global "g", .zero (.int 8), .const (.int 64) 4]
    ty := .void }

/-- The first word of the global. -/
def clearLoad : Inst := { name := 2, op := .load, args := [.global "g"], ty := .int 32 }

/-- The word is returned. -/
def clearRet : Inst := { name := 3, op := .ret, args := [.inst 2 (.int 32)], ty := .void }

/-- A block that clears a global and reads it back. -/
def clearFunc : Func :=
  .ofBlock 0 [clearMemset, clearLoad] clearRet (by decide) (by decide) (by decide)

/-- The block with the default options. -/
def clearCtx : Ctx where
  f := clearFunc
  opts := {}
  users v := clearFunc.insts.filter fun i => v ∈ i.operands
  constantUser _ := true
  isAFLRuntimeAccess _ := false
  pointerBase v := (v, 0)
  findAlloca _ := none
  retNoUndef := false
  analyses _ := ⟨fun _ => [], fun _ _ => false, fun _ => none⟩

theorem clearFunc_wellFormed : clearFunc.WellFormed :=
  Func.ofBlock_wellFormed (by decide) (by decide)

theorem clearCtx_lawful : clearCtx.Lawful where
  pointerBase _ := .refl

end CQMSan
