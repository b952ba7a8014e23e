import CQMSan.Pass.Erasure
import CQMSan.Pass.SliceTaint

/-!
# Executions of the instrumented function

An execution goes from block to block. It executes the instructions of a block one after the other,
each with the code inserted around it, and on an edge the PHIs of the block entered take their
values all at once (`Exec.Step`). The values of inserted instructions that compute shadows are
determined by their operands, all other values are arbitrary. Beside the values an execution keeps
the taint of the slice.

`Exec.Run.exact` says what the inserted code is for: the shadow of a slice value is non-zero iff the
value is tainted. The invariant is about the values that are executed on every path to the current
position (`Exec.Has`), so that it holds around the cycles of PHIs. What it needs of the code is
`SliceCode`: the shadow of an instruction is defined around it or around one that precedes it, it
computes the taint from that of the operands, and a shadow PHI merges the shadows of the operands.

Two things are required of an execution (`Exec.Covered`), because the code does not look at them: a
PHI takes no value from outside the slice whose shadow is not clean, and a select on the constant
`undef` takes a tainted arm.
-/

namespace CQMSan

/-! ### Executions -/

/-- The operand that a PHI takes when control comes from the block `b`. -/
def incomingFrom (b : Label) (args : List Val) (ls : List Label) : Option Val :=
  ((args.zip ls).find? fun a => decide (a.2 = b)).map Prod.fst

/-- The PHIs of a block. -/
def Cfg.phis (f : Cfg) (b : Label) : List Inst := (f.code b).filter Inst.isPhi

/-- The instructions of a block after its PHIs. -/
def Cfg.body (f : Cfg) (b : Label) : List Inst := (f.code b).filter fun i => !i.isPhi

/-- The incoming blocks of a PHI. -/
def Inst.incoming? (i : Inst) : Option (List Label) :=
  match i.op with
  | .phi ls | .sh (.phi ls) => some ls
  | _ => none

/-- The taint after an instruction that is not a PHI. -/
def Taint.exec (slice : List Val) (τ : Taint) (ρ : Env) (i : Inst) : Taint :=
  if i.val ∈ slice then Function.update τ i.name (some (taintOf slice τ ρ i)) else τ

/-- The taint of a PHI when control comes from the block `b`: that of the operand taken. -/
def phiTaint (slice : List Val) (τ : Taint) (b : Label) (p : Inst) : Option Bool :=
  match p.op with
  | .phi ls => (incomingFrom b p.args ls).map (taintVal slice τ)
  | _ => none

/-- The taint after the PHIs `ps`, which take their operands all at once. -/
def Taint.enter (slice : List Val) (τ : Taint) (b : Label) (ps : List Inst) : Taint := fun n =>
  match ps.find? fun p => decide (p.name = n) && decide (p.val ∈ slice) with
  | some p => phiTaint slice τ b p
  | none => τ n

/-- Only the values of the instructions `xs` change. -/
structure Env.Frame (ρ ρ' : Env) (xs : List Inst) : Prop where
  inst : ∀ n, n ∉ names xs → ρ'.inst n = ρ.inst n
  other : ρ'.other = ρ.other

theorem Env.Frame.refl (ρ : Env) (xs : List Inst) : ρ.Frame ρ xs := ⟨fun _ _ => rfl, rfl⟩

theorem Env.Frame.val {ρ ρ' : Env} {xs : List Inst} (h : ρ.Frame ρ' xs) {v : Val}
    (hv : v.Avail (names xs)ᶜ) : ρ'.val v = ρ.val v := by
  cases v with
  | inst n t => exact h.inst n hv
  | zero t | ones t => rfl
  | _ => simp only [Env.val, h.other]

/-- Where an execution of the instrumented function stands: the block, the instructions of the
block that are still to be executed, the values computed last, and the taint of the slice. -/
structure Exec where
  block : Label
  rest : List Inst
  ρ : Env
  taint : Taint

/-- The function is entered. -/
def Exec.Start (cx : Ctx) (m : Exec) : Prop :=
  m.block = cx.f.entry ∧ m.rest = cx.f.body cx.f.entry ∧ m.taint = fun _ => none

/-- One step of an execution of the code of `s`. The values of the inserted instructions that
compute a shadow are determined, all the others are arbitrary, but operands of type `i1` are
Booleans. -/
inductive Exec.Step (cx : Ctx) (s : St) : Exec → Exec → Prop
  /-- An instruction is executed, with the code inserted around it. -/
  | inst {m : Exec} {i : Inst} {r : List Inst} {ρ' : Env} (hrest : m.rest = i :: r)
      (hframe : m.ρ.Frame ρ' (s.seg i.name)) (hsat : Sat ρ' (s.seg i.name))
      (hbool : ∀ v ∈ i.args, v.ty = .int 1 → HasTy (.int 1) (m.ρ.val v)) :
      Step cx s m ⟨m.block, r, ρ', m.taint.exec cx.computeUndefSlice m.ρ i⟩
  /-- Control goes to a successor, whose PHIs take their values. -/
  | edge {m : Exec} {c : Label} {ρ' : Env} (hrest : m.rest = []) (hc : c ∈ cx.f.succs m.block)
      (hframe : m.ρ.Frame ρ' ((cx.f.phis c).flatMap fun p => s.seg p.name))
      (hphi : ∀ p ∈ cx.f.phis c, ∀ x ∈ s.seg p.name, ∀ ls, x.incoming? = some ls →
        ∃ v, incomingFrom m.block x.args ls = some v ∧ ρ'.inst x.name = m.ρ.val v) :
      Step cx s m ⟨c, cx.f.body c, ρ', m.taint.enter cx.computeUndefSlice m.block (cx.f.phis c)⟩

/-- The shadow of a value is the clean one. -/
def Env.IsClean (ρ : Env) (cx : Ctx) (s : St) (v : Val) : Prop :=
  ρ.val (getShadow cx.opts s.shadowMap v) = ρ.val (getCleanShadow v.ty)

/-- A select of the slice on the constant `undef` takes a tainted arm, and a PHI of the slice takes
no value from outside the slice whose shadow is not clean. -/
structure Exec.Covered (cx : Ctx) (s : St) (m m' : Exec) : Prop where
  select : ∀ i r, m.rest = i :: r → i.val ∈ cx.computeUndefSlice → ∀ cond a b, i.op = .select →
    i.args = [cond, a, b] → cond.isUndef = true →
      taintVal cx.computeUndefSlice m.taint (chosenArm m.ρ cond a b) = true
  phi : m.rest = [] → ∀ p ∈ cx.f.phis m'.block, p.val ∈ cx.computeUndefSlice → ∀ ls,
    p.op = .phi ls → ∀ v, incomingFrom m.block p.args ls = some v →
      v.isUndef = true ∨ v ∈ cx.computeUndefSlice ∨ m.ρ.IsClean cx s v

/-- The executions all of whose steps are covered. -/
inductive Exec.Run (cx : Ctx) (s : St) : Exec → Prop
  | start {m : Exec} (h : m.Start cx) : Run cx s m
  | step {m m' : Exec} (h : Run cx s m) (hstep : m.Step cx s m') (hcov : m.Covered cx s m') :
      Run cx s m'

/-! ### The source -/

/-- What the verifier of the IR checks of PHIs, which come first in their blocks, and of the types
of transfer instructions. The entry block has no predecessors, and so no PHIs. -/
structure Func.SliceTyped (f : Func) : Prop where
  entry : f.phis f.entry = []
  first : ∀ b ∈ f.labels, f.code b = f.phis b ++ f.body b
  phi : ∀ b ∈ f.labels, ∀ p ∈ f.phis b, 0 < p.ty.layout.bits ∧ ∀ v ∈ p.args, v.ty = p.ty
  transfer : ∀ b ∈ f.labels, ∀ i ∈ f.code b, isTransferClass i = true →
    isUndefSliceScalar i.ty = true → i.TransferTyped

/-- The values of the slice are those of the visited PHIs and transfer instructions with a scalar
result. -/
theorem mem_slice {cx : Ctx} (husers : ∀ v, ∀ u ∈ cx.users v, u ∈ cx.f.insts) {v : Val}
    (hv : v ∈ cx.computeUndefSlice) : ∃ i ∈ cx.f.insts, i.val = v ∧ i.nosanitize = false ∧
      (i.isPhi = true ∨ isTransferClass i = true) ∧ isUndefSliceScalar i.ty = true := by
  obtain ⟨-, u, hu, hseed, hreach⟩ := (mem_computeUndefSlice_iff husers).mp hv
  rcases Relation.ReflTransGen.cases_tail hreach with rfl | ⟨w, -, j, hj, rfl, hns, hclass, hsc⟩
  · rw [Ctx.instructions, List.mem_filter] at hu
    obtain ⟨b, hb, hub⟩ := List.mem_flatMap.mp hu.1
    have hns : u.nosanitize = false := by
      have := hu.2
      simp only [Ctx.isNoSanitizeEquivalent, Bool.not_eq_true', Bool.or_eq_false_iff] at this
      exact this.1
    rw [isUndefSeed, Bool.and_eq_true] at hseed
    refine ⟨u, List.mem_flatMap.mpr ⟨b, (Ctx.mem_blocks hb).1, hub⟩, rfl, hns, ?_, hseed.1⟩
    have hop := hseed.2
    rw [Inst.isPhi, isTransferClass]
    cases h : u.op <;> simp_all
  · exact ⟨j, husers w j hj, rfl, hns, hclass, hsc⟩

/-! ### PHIs and taint -/

section Phis

variable {slice : List Val} {τ : Taint} {b : Label} {n : ℕ} {i : Inst} {ρ ρ' : Env}

theorem incomingFrom_map (g : Val → Val) (args : List Val) (ls : List Label) :
    incomingFrom b (args.map g) ls = (incomingFrom b args ls).map g := by
  induction args generalizing ls with
  | nil => rfl
  | cons a args ih =>
    cases ls with
    | nil => rfl
    | cons l ls =>
      have ih := ih ls
      simp only [incomingFrom, List.map_cons, List.zip_cons_cons, List.find?_cons] at ih ⊢
      cases decide (l = b) with
      | true => rfl
      | false => exact ih

theorem mem_of_incomingFrom {args : List Val} {ls : List Label} {v : Val}
    (h : incomingFrom b args ls = some v) : (v, b) ∈ args.zip ls := by
  obtain ⟨⟨w, c⟩, hfind, rfl⟩ := Option.map_eq_some_iff.mp h
  obtain rfl : c = b := by simpa using List.find?_some hfind
  exact List.mem_of_find?_eq_some hfind

theorem Taint.exec_self (hi : i.val ∈ slice) :
    τ.exec slice ρ i i.name = some (taintOf slice τ ρ i) := by
  rw [Taint.exec, if_pos hi, Function.update_self]

theorem Taint.exec_of_ne (h : n ≠ i.name) : τ.exec slice ρ i n = τ n := by
  rw [Taint.exec]
  split_ifs
  · exact Function.update_of_ne h _ _
  · rfl

/-- The taint after the PHIs of a block: that of the operand taken, or what it was before. -/
theorem Taint.enter_cases (f : Cfg) (slice : List Val) (τ : Taint) (b c : Label) (n : ℕ) :
    (∃ p ∈ f.phis b, p.name = n ∧ p.val ∈ slice ∧
      τ.enter slice c (f.phis b) n = phiTaint slice τ c p) ∨
    (∀ p ∈ f.phis b, p.name = n → p.val ∉ slice) ∧ τ.enter slice c (f.phis b) n = τ n := by
  rw [Taint.enter]
  split
  next p hp =>
    have hfound := List.find?_some hp
    rw [Bool.and_eq_true, decide_eq_true_eq, decide_eq_true_eq] at hfound
    exact Or.inl ⟨p, List.mem_of_find?_eq_some hp, hfound.1, hfound.2, rfl⟩
  next hp =>
    refine Or.inr ⟨fun p hpm hpn hps => ?_, rfl⟩
    have := List.find?_eq_none.mp hp p hpm
    simp [hpn, hps] at this

theorem taintOf_congr (h : ∀ v ∈ i.args, ρ'.val v = ρ.val v) :
    taintOf slice τ ρ' i = taintOf slice τ ρ i := by
  rw [taintOf, taintOf]
  split
  next cond a b _ hargs =>
    rw [hargs] at h
    rw [chosenArm, chosenArm, h cond (by simp)]
  next => rfl

theorem taintVal_val {t : Bool} (hmem : i.val ∈ slice) (h : τ i.name = some t) :
    taintVal slice τ i.val = t := by
  rw [Inst.val] at hmem
  rw [Inst.val, taintVal, decide_eq_true hmem, h]
  rfl

theorem Inst.mem_operands {v : Val} (h : v ∈ i.args) : v ∈ i.operands := by
  rw [Inst.operands]
  split
  · exact List.mem_append_left _ h
  · exact h

theorem IsTaint.of_eq {t : Ty} {sv sv' : Val} {a : Bool} (h : IsTaint ρ t sv a)
    (hty : sv'.ty = getShadowTy t) (hval : ρ'.val sv' = ρ.val sv) : IsTaint ρ' t sv' a :=
  ⟨hty, by rw [hval]; exact h.hasTy, by rw [hval]; exact h.anyBit⟩

end Phis

/-! ### The code around the slice -/

section Code

variable (cx : Ctx) (m : ℕ → Option Val) (i : Inst) (xs : List Inst)

/-- The code `xs` computes a shadow of `i` that stands for its taint, if the shadows of its operands
do. -/
def ComputesTaint : Prop := ∀ (ρ : Env) (τ : Taint),
  (∀ v ∈ i.args, v.ty = .int 1 → HasTy (.int 1) (ρ.val v)) →
  (∀ v ∈ i.args, v ∈ cx.computeUndefSlice → IsTaint ρ v.ty (getShadow cx.opts m v)
    (taintVal cx.computeUndefSlice τ v)) →
  (∀ cond a b, i.op = .select → i.args = [cond, a, b] → cond.isUndef = true →
    taintVal cx.computeUndefSlice τ (chosenArm ρ cond a b) = true) →
  Sat ρ xs → IsTaint ρ i.ty (getShadow cx.opts m i.val) (taintOf cx.computeUndefSlice τ ρ i)

/-- Among `xs` is the shadow PHI of the PHI `i`. -/
def MergesShadows : Prop := ∀ ls, i.op = .phi ls → ∃ x ∈ xs, x.incoming? = some ls ∧
  x.args = i.args.map (getShadow cx.opts m) ∧
  getShadow cx.opts m i.val = .inst x.name (getShadowTy i.ty)

/-- The code around an instruction `i` of the slice, in block `d`. -/
structure SliceSeg (s : St) (d : Label) : Prop where
  names : ∀ x ∈ s.seg i.name, x.name = i.name ∨ cx.bound ≤ x.name
  home : ∀ e ∈ cx.f.labels, ∀ k ∈ cx.f.code e, ∀ x ∈ s.seg k.name, ∀ t,
    getShadow cx.opts s.shadowMap i.val = .inst x.name t → k = i ∨ cx.f.Precedes e k d i
  transfer : i.isPhi = false → ComputesTaint cx s.shadowMap i (s.seg i.name)
  phi : MergesShadows cx s.shadowMap i (s.seg i.name)

/-- The code around every instruction of the slice. -/
def SliceCode (s : St) : Prop := ∀ d ∈ cx.f.labels, cx.f.Reaches cx.f.entry d →
  ∀ i ∈ cx.f.code d, i.val ∈ cx.computeUndefSlice → SliceSeg cx i s d

end Code

/-! ### Shadows stand for taint -/

section Exact

variable {cx : Ctx} {s : St} {m m' : Exec} {b d : Label} {i j : Inst} {ρ' : Env} {r : List Inst}

/-- Where an execution can stand. -/
structure Exec.Placed (cx : Ctx) (m : Exec) : Prop where
  label : m.block ∈ cx.f.labels
  reach : cx.f.Reaches cx.f.entry m.block
  suffix : ∃ l, cx.f.code m.block = l ++ m.rest
  body : ∀ i ∈ m.rest, i.isPhi = false

theorem Exec.Placed.start (hty : cx.f.SliceTyped) (h : m.Start cx) : m.Placed cx := by
  obtain ⟨hblock, hrest, -⟩ := h
  refine ⟨hblock ▸ cx.f.entry_mem, hblock ▸ .refl, ⟨cx.f.phis cx.f.entry, ?_⟩, fun i hi => ?_⟩
  · rw [hblock, hrest, ← hty.first _ cx.f.entry_mem]
  · rw [hrest] at hi
    simpa using (List.mem_filter.mp hi).2

theorem Exec.Placed.step (hty : cx.f.SliceTyped) (hpl : m.Placed cx) (hstep : m.Step cx s m') :
    m'.Placed cx := by
  cases hstep with
  | @inst i r ρ' hrest _ _ _ =>
    obtain ⟨l, hl⟩ := hpl.suffix
    refine ⟨hpl.label, hpl.reach, ⟨l ++ [i], by rw [hl, hrest]; simp⟩, fun j hj => ?_⟩
    exact hpl.body j (by rw [hrest]; exact List.mem_cons_of_mem _ hj)
  | @edge c ρ' _ hc _ _ =>
    have hcl := cx.f.succs_mem _ hpl.label c hc
    exact ⟨hcl, hpl.reach.tail hc, ⟨_, hty.first c hcl⟩, fun j hj => by
      simpa using (List.mem_filter.mp hj).2⟩

/-- The instruction `j` of block `d` has been executed on every path to where the execution
stands, the last time after everything that comes before it on every path. -/
def Exec.Has (cx : Ctx) (m : Exec) (d : Label) (j : Inst) : Prop :=
  cx.f.SDom d m.block ∨ d = m.block ∧ j ∉ m.rest

/-- The shadow of every slice value that is available is non-zero iff the value is tainted. -/
def Exec.Exact (cx : Ctx) (s : St) (m : Exec) : Prop :=
  ∀ d ∈ cx.f.labels, ∀ j ∈ cx.f.code d, j.val ∈ cx.computeUndefSlice → m.Has cx d j →
    ∃ t, m.taint j.name = some t ∧ IsTaint m.ρ j.ty (getShadow cx.opts s.shadowMap j.val) t

theorem Exec.Placed.reaches (hpl : m.Placed cx) (hhas : m.Has cx d j) :
    cx.f.Reaches cx.f.entry d := by
  rcases hhas with hdom | ⟨rfl, -⟩
  · exact hdom.2.reachable hpl.reach
  · exact hpl.reach

/-- What comes before the next instruction on every path is available. -/
theorem Exec.Placed.has_of_precedes (hpl : m.Placed cx) (hrest : m.rest = i :: r)
    (hpre : cx.f.Precedes d j m.block i) : m.Has cx d j := by
  rcases hpre with hdom | ⟨rfl, hji⟩
  · exact Or.inl hdom
  · obtain ⟨l, hl⟩ := hpl.suffix
    have hnd := cx.f.code_nodup _ hpl.label
    rw [hl, hrest] at hnd hji
    rw [before_eq hnd] at hji
    refine Or.inr ⟨rfl, fun hj => ?_⟩
    rw [hrest] at hj
    exact (List.nodup_append.mp hnd).2.2 j hji j hj rfl

/-- The next instruction is not available, and it precedes nothing that is. -/
theorem Exec.Placed.not_has (hpl : m.Placed cx) (hrest : m.rest = i :: r)
    (hhas : m.Has cx d j) (hj : j ∈ cx.f.code d) :
    ¬ (i = j ∨ cx.f.Precedes m.block i d j) := by
  obtain ⟨l, hl⟩ := hpl.suffix
  have hnd := cx.f.code_nodup _ hpl.label
  have hi : i ∈ cx.f.code m.block := by rw [hl, hrest]; simp
  rintro (rfl | hdom' | ⟨rfl, hij⟩)
  · rcases hhas with hdom | ⟨rfl, hnot⟩
    · have hd := Func.reaches_mem cx.f.entry_mem (hdom.2.reachable hpl.reach)
      exact hdom.1 (Func.block_unique hd hpl.label hj hi)
    · exact hnot (by rw [hrest]; exact List.mem_cons_self)
  · rcases hhas with hdom | ⟨rfl, -⟩
    · exact (hdom.trans hdom' (hdom.2.reachable hpl.reach)).1 rfl
    · exact hdom'.1 rfl
  · rcases hhas with hdom | ⟨-, hnot⟩
    · exact hdom.1 rfl
    · rw [hl, hrest] at hnd hij hj
      refine hnot ?_
      rw [hrest]
      rcases List.mem_append.mp hj with hjl | hjr
      · have hbefore := (before_left hnd).mpr hjl
        obtain ⟨l', r', hsplit⟩ := List.append_of_mem (List.mem_append_left (i :: r) hjl)
        have hnd' := hnd
        rw [hsplit] at hnd' hij
        rw [before_eq hnd'] at hij
        exact absurd hbefore (Before.asymm hnd (by rw [hsplit]; exact (before_left hnd').mpr hij))
      · exact hjr

/-- The shadow of a slice value as long as none of the code that defines it is executed. -/
theorem SliceSeg.frame (hseg : SliceSeg cx j s d) {xs : List Inst} {t : Bool}
    (h : IsTaint m.ρ j.ty (getShadow cx.opts s.shadowMap j.val) t) (hframe : m.ρ.Frame ρ' xs)
    (hxs : ∀ x ∈ xs, ∃ e ∈ cx.f.labels, ∃ k ∈ cx.f.code e, x ∈ s.seg k.name ∧
      ¬ (k = j ∨ cx.f.Precedes e k d j)) :
    IsTaint ρ' j.ty (getShadow cx.opts s.shadowMap j.val) t := by
  refine h.of_eq h.ty (hframe.val ?_)
  cases hsv : getShadow cx.opts s.shadowMap j.val with
  | inst n u =>
    rintro ⟨x, hx, rfl⟩
    obtain ⟨e, he, k, hk, hxk, hnot⟩ := hxs x hx
    exact hnot (hseg.home e he k hk x hxk u hsv)
  | _ => trivial

/-- A slice value is that of one instruction, of a class that the slice knows. -/
theorem slice_class (husers : ∀ v, ∀ u ∈ cx.users v, u ∈ cx.f.insts) (hb : b ∈ cx.f.labels)
    (hi : i ∈ cx.f.code b) (hmem : i.val ∈ cx.computeUndefSlice) : i.nosanitize = false ∧
      (i.isPhi = true ∨ isTransferClass i = true) ∧ isUndefSliceScalar i.ty = true := by
  obtain ⟨k, hk, hval, h⟩ := mem_slice husers hmem
  obtain ⟨c, hc, hkc⟩ := List.mem_flatMap.mp hk
  obtain ⟨-, rfl⟩ := cx.f.names_nodup c hc b hb k hkc i hi (Val.inst.inj hval).1
  exact h

/-- A slice value is that of an instruction. -/
theorem exists_of_mem_slice (husers : ∀ v, ∀ u ∈ cx.users v, u ∈ cx.f.insts) {v : Val}
    (hmem : v ∈ cx.computeUndefSlice) : ∃ d ∈ cx.f.labels, ∃ j ∈ cx.f.code d, j.val = v := by
  obtain ⟨j, hj, hval, -⟩ := mem_slice husers hmem
  obtain ⟨d, hd, hjd⟩ := List.mem_flatMap.mp hj
  exact ⟨d, hd, j, hjd, hval⟩

/-- The shadow of an operand of the next instruction that is in the slice. -/
theorem Exec.Exact.operand (hwf : cx.f.WellFormed)
    (husers : ∀ v, ∀ u ∈ cx.users v, u ∈ cx.f.insts) (hpl : m.Placed cx) (hex : m.Exact cx s)
    (hrest : m.rest = i :: r) {v : Val} (hv : v ∈ i.operands) (hmem : v ∈ cx.computeUndefSlice) :
    ∃ d ∈ cx.f.labels, ∃ j ∈ cx.f.code d, j.val = v ∧ m.Has cx d j ∧
      IsTaint m.ρ v.ty (getShadow cx.opts s.shadowMap v)
        (taintVal cx.computeUndefSlice m.taint v) := by
  obtain ⟨l, hl⟩ := hpl.suffix
  have hi : i ∈ cx.f.code m.block := by rw [hl, hrest]; simp
  have hphi : i.isPhi = false := hpl.body i (by rw [hrest]; exact List.mem_cons_self)
  obtain ⟨d, hd, j, hj, rfl⟩ := exists_of_mem_slice husers hmem
  have hpre := precedes_of_mem hpl.label hd hj (hwf.uses _ hpl.label hpl.reach i hi hphi _ hv)
  have hhas := hpl.has_of_precedes hrest hpre
  obtain ⟨t, ht, htaint⟩ := hex d hd j hj hmem hhas
  rw [taintVal_val hmem ht]
  exact ⟨d, hd, j, hj, rfl, hhas, htaint⟩

/-- An operand of a slice instruction does not change when the instruction is executed. -/
theorem Exec.Placed.operand_frame (hwf : cx.f.WellFormed) (hcode : SliceCode cx s)
    (hpl : m.Placed cx) (hrest : m.rest = i :: r) (hmem : i.val ∈ cx.computeUndefSlice)
    (hframe : m.ρ.Frame ρ' (s.seg i.name)) {v : Val} (hv : v ∈ i.args) :
    ρ'.val v = m.ρ.val v := by
  obtain ⟨l, hl⟩ := hpl.suffix
  have hi : i ∈ cx.f.code m.block := by rw [hl, hrest]; simp
  have hphi : i.isPhi = false := hpl.body i (by rw [hrest]; exact List.mem_cons_self)
  have hav := hwf.uses _ hpl.label hpl.reach i hi hphi v (Inst.mem_operands hv)
  refine hframe.val ?_
  cases v with
  | inst n t =>
    rintro ⟨x, hx, rfl⟩
    have hlt := availAt_lt hpl.label hav
    rcases (hcode _ hpl.label hpl.reach i hi hmem).names x hx with hname | hle
    · -- an instruction does not precede itself
      have hav' : i.name ∈ cx.f.availAt m.block i := hname ▸ hav
      have hpre := precedes_of_mem hpl.label hpl.label hi hav'
      exact hpl.not_has hrest (hpl.has_of_precedes hrest hpre) hi (Or.inl rfl)
    · omega
  | _ => trivial

/-- **Executing an instruction keeps the shadows equivalent to the taint.** -/
theorem Exec.Exact.inst (hwf : cx.f.WellFormed)
    (husers : ∀ v, ∀ u ∈ cx.users v, u ∈ cx.f.insts) (hcode : SliceCode cx s)
    (hpl : m.Placed cx) (hex : m.Exact cx s) (hrest : m.rest = i :: r)
    (hframe : m.ρ.Frame ρ' (s.seg i.name)) (hsat : Sat ρ' (s.seg i.name))
    (hbool : ∀ v ∈ i.args, v.ty = .int 1 → HasTy (.int 1) (m.ρ.val v))
    (hselect : i.val ∈ cx.computeUndefSlice → ∀ cond a b, i.op = .select →
      i.args = [cond, a, b] → cond.isUndef = true →
        taintVal cx.computeUndefSlice m.taint (chosenArm m.ρ cond a b) = true) :
    Exec.Exact cx s ⟨m.block, r, ρ', m.taint.exec cx.computeUndefSlice m.ρ i⟩ := by
  obtain ⟨l, hl⟩ := hpl.suffix
  have hi : i ∈ cx.f.code m.block := by rw [hl, hrest]; simp
  -- the shadows that are available do not change
  have hkeep : ∀ d ∈ cx.f.labels, ∀ j ∈ cx.f.code d, j.val ∈ cx.computeUndefSlice →
      m.Has cx d j → ∀ t, IsTaint m.ρ j.ty (getShadow cx.opts s.shadowMap j.val) t →
        IsTaint ρ' j.ty (getShadow cx.opts s.shadowMap j.val) t := by
    intro d hd j hj hmem hhas t ht
    refine (hcode d hd (hpl.reaches hhas) j hj hmem).frame ht hframe fun x hx => ?_
    exact ⟨_, hpl.label, i, hi, hx, hpl.not_has hrest hhas hj⟩
  intro d hd j hj hmem hhas
  by_cases hji : j = i
  · subst hji
    obtain rfl := Func.block_unique hd hpl.label hj hi
    refine ⟨_, Taint.exec_self hmem, ?_⟩
    have hphi : j.isPhi = false := hpl.body j (by rw [hrest]; exact List.mem_cons_self)
    have hval := fun v (hv : v ∈ j.args) => hpl.operand_frame hwf hcode hrest hmem hframe hv
    rw [← taintOf_congr hval]
    refine (hcode _ hpl.label hpl.reach j hj hmem).transfer hphi ρ' m.taint (fun v hv hty => ?_)
      (fun v hv hvmem => ?_) (fun cond a b hop hargs hundef => ?_) hsat
    · rw [hval v hv]
      exact hbool v hv hty
    · obtain ⟨e, he, k, hk, rfl, hhas, htaint⟩ :=
        hex.operand hwf husers hpl hrest (Inst.mem_operands hv) hvmem
      exact hkeep e he k hk hvmem hhas _ htaint
    · rw [chosenArm, hval cond (by rw [hargs]; simp), ← chosenArm]
      exact hselect hmem cond a b hop hargs hundef
  · have hold : m.Has cx d j := hhas.imp_right fun h => ⟨h.1, fun hj' => by
      rw [hrest] at hj'
      rcases List.mem_cons.mp hj' with hj' | hj'
      · exact hji hj'
      · exact h.2 hj'⟩
    obtain ⟨t, ht, htaint⟩ := hex d hd j hj hmem hold
    refine ⟨t, ?_, hkeep d hd j hj hmem hold t htaint⟩
    dsimp only
    rw [Taint.exec_of_ne fun h => hji (cx.f.names_nodup d hd _ hpl.label j hj i hi h).2]
    exact ht

/-- The operand that a PHI of the slice takes, with its taint and its shadow. -/
theorem SliceCode.incoming (hcode : SliceCode cx s) (hwf : cx.f.WellFormed) (hb : b ∈ cx.f.labels)
    (hreach : cx.f.Reaches cx.f.entry b) (hphi : ∀ p ∈ cx.f.phis b, ∀ x ∈ s.seg p.name, ∀ ls,
      x.incoming? = some ls → ∃ v, incomingFrom m.block x.args ls = some v ∧
        ρ'.inst x.name = m.ρ.val v) {p : Inst} (hp : p ∈ cx.f.phis b)
    (hmem : p.val ∈ cx.computeUndefSlice) : ∃ ls v, p.op = .phi ls ∧
    incomingFrom m.block p.args ls = some v ∧
    phiTaint cx.computeUndefSlice m.taint m.block p =
      some (taintVal cx.computeUndefSlice m.taint v) ∧
    ∃ k, getShadow cx.opts s.shadowMap p.val = .inst k (getShadowTy p.ty) ∧
      ρ'.inst k = m.ρ.val (getShadow cx.opts s.shadowMap v) := by
  obtain ⟨hpb, hisphi⟩ := List.mem_filter.mp hp
  obtain ⟨ls, hls⟩ : ∃ ls, p.op = .phi ls := by
    have hsrc := hwf.source b hb p hpb
    rw [Inst.isPhi] at hisphi
    rw [Inst.isInserted] at hsrc
    split at hisphi
    next ls h => exact ⟨ls, h⟩
    next ls h =>
      rw [h] at hsrc
      cases hsrc
    next => cases hisphi
  obtain ⟨x, hx, hin, hargs, hsh⟩ := (hcode b hb hreach p hpb hmem).phi ls hls
  obtain ⟨w, hw, hval⟩ := hphi p hp x hx ls hin
  rw [hargs, incomingFrom_map] at hw
  obtain ⟨v, hv, rfl⟩ := Option.map_eq_some_iff.mp hw
  refine ⟨ls, v, hls, hv, ?_, x.name, hsh, hval⟩
  rw [phiTaint, hls]
  simp only [hv, Option.map_some]

/-- **Entering a block keeps the shadows equivalent to the taint.** -/
theorem Exec.Exact.edge (hwf : cx.f.WellFormed) (hty : cx.f.SliceTyped)
    (husers : ∀ v, ∀ u ∈ cx.users v, u ∈ cx.f.insts) (hpoison : cx.opts.poisonUndef = true)
    (hcode : SliceCode cx s) (hpl : m.Placed cx) (hex : m.Exact cx s) {c : Label}
    (hrest : m.rest = []) (hc : c ∈ cx.f.succs m.block)
    (hframe : m.ρ.Frame ρ' ((cx.f.phis c).flatMap fun p => s.seg p.name))
    (hphi : ∀ p ∈ cx.f.phis c, ∀ x ∈ s.seg p.name, ∀ ls, x.incoming? = some ls →
      ∃ v, incomingFrom m.block x.args ls = some v ∧ ρ'.inst x.name = m.ρ.val v)
    (hincoming : ∀ p ∈ cx.f.phis c, p.val ∈ cx.computeUndefSlice → ∀ ls, p.op = .phi ls →
      ∀ v, incomingFrom m.block p.args ls = some v →
        v.isUndef = true ∨ v ∈ cx.computeUndefSlice ∨ m.ρ.IsClean cx s v) :
    Exec.Exact cx s
      ⟨c, cx.f.body c, ρ', m.taint.enter cx.computeUndefSlice m.block (cx.f.phis c)⟩ := by
  have hcl := cx.f.succs_mem _ hpl.label c hc
  have hcreach : cx.f.Reaches cx.f.entry c := hpl.reach.tail hc
  intro d hd j hj hmem hhas
  rcases Taint.enter_cases cx.f.toCfg cx.computeUndefSlice m.taint c m.block j.name with
    ⟨p, hp, hname, -, heq⟩ | ⟨hnot, heq⟩
  · have hpc := (List.mem_filter.mp hp).1
    obtain ⟨rfl, rfl⟩ := cx.f.names_nodup c hcl d hd p hpc j hj hname
    obtain ⟨ls, v, hop, hv, htaint, k, hsh, hval⟩ := hcode.incoming hwf hcl hcreach hphi hp hmem
    refine ⟨_, heq.trans htaint, ?_⟩
    rw [hsh]
    obtain ⟨hbits, hargs⟩ := hty.phi c hcl p hp
    have hzip := mem_of_incomingFrom hv
    have hvty := hargs v (List.of_mem_zip hzip).1
    have hscalar := (slice_class husers hcl hj hmem).2.2
    by_cases hundef : v.isUndef = true
    · obtain ⟨u, rfl⟩ := eq_undef_of_isUndef hundef
      have hshadow : getShadow cx.opts s.shadowMap (.undef u) = getPoisonedShadow u := by
        rw [getShadow, if_pos hpoison]
      obtain rfl : u = p.ty := hvty
      rw [hshadow] at hval
      exact (isTaint_ones (isScalarOrVec_of_scalar hscalar) hbits).of_eq rfl hval
    · by_cases hvmem : v ∈ cx.computeUndefSlice
      · -- the operand is available at the end of the block that control leaves
        obtain ⟨e, he, q, hq, rfl⟩ := exists_of_mem_slice husers hvmem
        have hhas' : m.Has cx e q := by
          rcases hwf.phis c hcl hcreach p hj ls hop _ hzip hpl.reach with
            ⟨e', he', hdom, q', hq', -, hqn⟩ | ⟨q', hq', -, hqn⟩
          · obtain ⟨rfl, rfl⟩ := cx.f.names_nodup e' he' e he q' hq' q hq hqn
            exact Or.inl hdom
          · obtain ⟨rfl, rfl⟩ := cx.f.names_nodup _ hpl.label e he q' hq' q hq hqn
            exact Or.inr ⟨rfl, by rw [hrest]; exact List.not_mem_nil⟩
        obtain ⟨t, ht, hq'⟩ := hex e he q hq hvmem hhas'
        rw [taintVal_val hvmem ht]
        rw [show q.ty = p.ty from hvty] at hq'
        exact hq'.of_eq rfl hval
      · have hclean := ((hincoming p hp hmem ls hop v hv).resolve_left hundef).resolve_left hvmem
        rw [taintVal_eq_false hundef hvmem]
        rw [Env.IsClean, hvty] at hclean
        exact (isTaint_zero hscalar).of_eq rfl (hval.trans hclean)
  · -- not a PHI of the block, so in a block that dominates it
    have hdom : cx.f.SDom d c := by
      rcases hhas with hdom | ⟨rfl, hrest'⟩
      · exact hdom
      · exfalso
        have hj' := hj
        rw [hty.first d hd] at hj'
        rcases List.mem_append.mp hj' with hj' | hj'
        · exact hnot j hj' rfl hmem
        · exact hrest' hj'
    have hhas' : m.Has cx d j := by
      by_cases hdb : d = m.block
      · exact Or.inr ⟨hdb, by rw [hrest]; exact List.not_mem_nil⟩
      · refine Or.inl ⟨hdb, fun hpath => ?_⟩
        exact hdom.2 (hpath.tail ⟨hc, hdom.1.symm⟩)
    obtain ⟨t, ht, htaint⟩ := hex d hd j hj hmem hhas'
    refine ⟨t, heq.trans ht, ?_⟩
    refine (hcode d hd (hpl.reaches hhas') j hj hmem).frame htaint hframe fun x hx => ?_
    obtain ⟨p, hp, hxp⟩ := List.mem_flatMap.mp hx
    have hpc := (List.mem_filter.mp hp).1
    refine ⟨c, hcl, p, hpc, hxp, ?_⟩
    rintro (rfl | hdom' | ⟨rfl, -⟩)
    · exact hdom.1 (Func.block_unique hd hcl hj hpc)
    · exact (hdom.trans hdom' (hdom.2.reachable hcreach)).1 rfl
    · exact hdom.1 rfl

/-- **In every covered execution the shadows of the slice stand for the taint.** -/
theorem Exec.Run.exact (hwf : cx.f.WellFormed) (hty : cx.f.SliceTyped)
    (husers : ∀ v, ∀ u ∈ cx.users v, u ∈ cx.f.insts) (hpoison : cx.opts.poisonUndef = true)
    (hcode : SliceCode cx s) (hrun : Exec.Run cx s m) : m.Placed cx ∧ m.Exact cx s := by
  induction hrun with
  | @start m h =>
    refine ⟨.start hty h, fun d hd j hj hmem hhas => ?_⟩
    obtain ⟨hblock, hrest, -⟩ := h
    exfalso
    rw [Exec.Has, hblock, hrest] at hhas
    rcases hhas with hdom | ⟨rfl, hnot⟩
    · exact hdom.1 (hdom.2 .refl).symm
    · rw [hty.first _ hd, hty.entry, List.nil_append] at hj
      exact hnot hj
  | step _ hstep hcov ih =>
    obtain ⟨hpl, hex⟩ := ih
    refine ⟨hpl.step hty hstep, ?_⟩
    cases hstep with
    | inst hrest hframe hsat hbool =>
      exact hex.inst hwf husers hcode hpl hrest hframe hsat hbool (hcov.select _ _ hrest)
    | edge hrest hc hframe hphi =>
      exact hex.edge hwf hty husers hpoison hcode hpl hrest hc hframe hphi (hcov.phi hrest)

end Exact

end CQMSan
