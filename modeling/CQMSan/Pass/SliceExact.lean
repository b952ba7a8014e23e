import CQMSan.Pass.Coalescing
import CQMSan.Pass.SliceRun
import CQMSan.Pass.SsaVisit

/-!
# The undef slice of the instrumented function

What the pass inserts for the undef slice is what `Exec.Run.exact` asks for (`SliceCode`): the visit
of a transfer instruction leaves code that computes its taint, the visit of a PHI a shadow PHI,
whose operands are the shadows of the operands of the PHI once they are filled in, and the later
phases insert code under new names only. Hence in the covered executions of the instrumented
function the shadows of the slice stand for the taint, and so do the checks at the sinks and the
shadows that stores write.

An atomic store writes a clean shadow in any case. Executions that are not covered are not exact: a
PHI merges the shadows of all its operands, also of loaded values that are not in the slice, and the
condition `undef` of a select does not count.
-/

namespace CQMSan

/-! ### The visit of the slice -/

/-- The values that an instruction uses in a way the slice is checked for: the condition of a branch
or a switch, the address of a memory access, the `noundef` arguments of a call. -/
def sinkOperands (i : Inst) : List Val :=
  match i.op with
  | .condBr | .switch | .load => [i.args.getD 0 (.zero .ptr)]
  | .store _ _ => [i.args.getD 1 (.zero .ptr)]
  | .call c | .invoke c _ | .callBr c =>
    match c.callee with
    | .asm _ _ | .intrinsic _ => []
    | _ => (i.args.zipIdx.filter fun a => decide (a.2 ∈ c.noUndef) &&
        (c.byVal.lookup a.2).isNone).map Prod.fst
  | _ => []

section Sinks

variable {si : Site} {i : Inst} {v : Val}

/-- The slice is checked at every sink. -/
theorem mem_checkUndefSliceSinks (haddr : si.opts.checkAccessAddress = false)
    (heager : si.opts.eagerChecks = false) (hconst : si.opts.checkConstantShadow = true)
    (hemit : si.opts.emitChecks = true) (h : v ∈ sinkOperands i) (hv : v ∈ si.slice) :
    (si.shadow v, true) ∈ si.checkUndefSliceSinks i := by
  have hcheck : (si.shadow v, true) ∈ si.sinkCheck v := by
    rw [Site.sinkCheck, if_pos (by rw [Site.inSlice]; exact decide_eq_true hv),
      Site.insertShadowCheck, if_pos hconst, Site.pushShadowCheck, if_pos hemit]
    exact List.mem_cons_self
  have hcall : ∀ {c : CallInfo}, v ∈ (i.args.zipIdx.filter fun a => decide (a.2 ∈ c.noUndef) &&
      (c.byVal.lookup a.2).isNone).map Prod.fst →
      (si.shadow v, true) ∈ if si.opts.eagerChecks = true then [] else
        (i.args.zipIdx.filter fun a => decide (a.2 ∈ c.noUndef) &&
          (c.byVal.lookup a.2).isNone).flatMap fun a => si.sinkCheck a.1 := by
    intro c hc
    rw [if_neg (by rw [heager]; exact Bool.false_ne_true)]
    obtain ⟨a, ha, rfl⟩ := List.mem_map.mp hc
    exact List.mem_flatMap.mpr ⟨a, ha, hcheck⟩
  rw [sinkOperands] at h
  rw [Site.checkUndefSliceSinks]
  cases hop : i.op with
  | condBr | switch =>
    simp only [hop] at h ⊢
    exact List.mem_singleton.mp h ▸ hcheck
  | load | store =>
    simp only [hop, haddr] at h ⊢
    exact List.mem_singleton.mp h ▸ hcheck
  | call c | invoke c | callBr c =>
    simp only [hop] at h ⊢
    cases hc : c.callee with
    | asm | intrinsic =>
      simp only [hc] at h
      cases h
    | fn | indirect =>
      simp only [hc] at h ⊢
      exact hcall h
  | _ => simp [hop] at h

end Sinks

section Visit

variable {cx : Ctx} {t s : St} {b : Label} {i : Inst} {done : List Inst}

/-- The code around a visited instruction. -/
theorem VisitedAt.names (hat : VisitedAt cx t done s b i) (hwf : cx.f.WellFormed)
    (hlaw : cx.Lawful) (hb : b ∈ cx.f.labels) (hreach : cx.f.Reaches cx.f.entry b)
    (hi : i ∈ cx.f.code b) : ∀ x ∈ t.seg i.name, x.name = i.name ∨ cx.bound ≤ x.name := by
  have hv := hat.inv.visitOk hwf hlaw hb hreach hi cx.computeUndefSlice
  have hnew : ∀ {x : Inst} {v : Visit}, Numbered VisitOp s.next (v.pre ++ v.post) →
      x ∈ v.pre ++ v.post → cx.bound ≤ x.name := fun hnum hx =>
    hat.inv.bound.le.trans (hnum.name_bounds hx).1
  intro x hx
  rw [hat.seg, visitStep, St.seg_apply_self, List.mem_append, List.mem_append] at hx
  rcases hx with (hx | hx) | hx
  · exact Or.inr (hnew hv.numbered (List.mem_append_left _ hx))
  · rcases hv.self with ⟨hself, -⟩ | ⟨i', hself, hname, -⟩
    · rw [hself] at hx
      cases hx
    · rw [hself] at hx
      rw [List.mem_singleton.mp hx]
      exact Or.inl hname
  · exact Or.inr (hnew hv.numbered (List.mem_append_right _ hx))

/-- The shadow of an instruction is defined by the code around it, or around one that precedes
it. -/
theorem SsaVisited.home (hssa : SsaVisited cx s) (hvis : Visited cx s) (hb : b ∈ cx.f.labels)
    (hreach : cx.f.Reaches cx.f.entry b) (hi : i ∈ cx.f.code b) {e : Label} {k x : Inst} {u : Ty}
    (he : e ∈ cx.f.labels) (hk : k ∈ cx.f.code e) (hx : x ∈ s.seg k.name)
    (hsh : getShadow cx.opts s.shadowMap i.val = .inst x.name u) :
    k = i ∨ cx.f.Precedes e k b i := by
  have hxe : x ∈ s.blockCode cx.f e :=
    List.mem_append_right _ (List.mem_flatMap.mpr ⟨k, hk, hx⟩)
  have hav : x.name ∈ s.availPast cx.f b i := by
    rw [Inst.val, getShadow] at hsh
    cases hsv : s.shadowMap i.name with
    | none =>
      rw [hsv] at hsh
      cases hsh
    | some sv =>
      rw [hsv] at hsh
      obtain rfl : sv = .inst x.name u := hsh
      exact hssa.shadows b hb hreach i hi _ hsv
  rcases hav with ⟨d, hd, hdom, y, hy, -, hyx⟩ | ⟨y, hy, -, hyx⟩
  · obtain rfl := hvis.unique.block d hd e he y hy x hxe hyx
    exact Or.inr (Or.inl hdom)
  · have hsplit := @St.blockCode_split s b i cx.f hb hi
    have hyb : y ∈ s.blockCode cx.f b := by
      rw [hsplit]
      exact List.mem_append_left _ hy
    obtain rfl := hvis.unique.block b hb e he y hyb x hxe hyx
    obtain ⟨l, r, hcode⟩ := List.append_of_mem hi
    have hnd := cx.f.code_nodup b hb
    rw [hcode] at hk hnd
    rcases List.mem_append.mp hk with hk | hk
    · refine Or.inr (Or.inr ⟨rfl, ?_⟩)
      rw [hcode, before_eq hnd]
      exact hk
    · rcases List.mem_cons.mp hk with rfl | hk
      · exact Or.inl rfl
      · -- the code after the segment has other names
        have hnames := hvis.unique.nodup b hb
        rw [hsplit, List.map_append, hcode, after_eq hnd] at hnames
        exact absurd hyx ((List.nodup_append.mp hnames).2.2 _ (List.mem_map_of_mem hy) _
          (List.mem_map_of_mem (List.mem_flatMap.mpr ⟨k, hk, hx⟩)))

end Visit

/-! ### The later phases -/

section Phases

variable {cx : Ctx} {s t : St} {d : Label} {i : Inst}

end Phases

/-! ### Checks and stores -/

section Recorded

variable {cx : Ctx} {s t : St} {b : Label} {i : Inst} {done slice : List Inst} {v : Val}

/-- The check of a slice value at a sink is recorded. -/
theorem VisitedAt.sinkCheck (hat : VisitedAt cx t done s b i) (hopts : cx.opts = {})
    (hv : v ∈ sinkOperands i) (hmem : v ∈ cx.computeUndefSlice) :
    ⟨getShadow cx.opts s.shadowMap v, i, true⟩ ∈ t.checks := by
  let si : Site := ⟨cx, cx.computeUndefSlice, s, s.codeBefore cx.f b i⟩
  have hcheck : (si.shadow v, true) ∈ si.checkUndefSliceSinks i :=
    mem_checkUndefSliceSinks (by rw [Site.opts, hopts]) (by rw [Site.opts, hopts])
      (by rw [Site.opts, hopts]) (by rw [Site.opts, hopts]) hv hmem
  have hproc : (si.shadow v, true) ∈ (si.process (cx.f.terminator b) i).checks := by
    rw [Site.process]
    split_ifs with hempty
    · rw [List.isEmpty_iff] at hempty
      exact absurd hempty (List.ne_nil_of_mem hmem)
    all_goals exact List.mem_append_left _ hcheck
  refine hat.checks (List.mem_append_right _ (List.mem_map.mpr ⟨(si.shadow v, true), hproc, ?_⟩))
  rfl

end Recorded

section Stores

variable {cx : Ctx} {slice : List Val} {s : St} {x : Inst} {n m : ℕ} {xs ys : List Inst}

end Stores

/-! ### The slice is exact -/

section Exact

variable {cx : Ctx} {s : St} {m : Exec} {i : Inst} {r : List Inst} {v : Val}

end Exact

/-! ### A loaded value joined with `undef` -/

/-- `%1 = load i32, ptr @g`. -/
def joinLoad : Inst := { name := 1, op := .load, args := [.global "g"], ty := .int 32 }

/-- `br i1 %a, label 1, label 2`. -/
def joinBranch : Inst := { name := 2, op := .condBr, args := [.arg 0 (.int 1)], ty := .void }

/-- `br label 2`. -/
def joinJump : Inst := { name := 3, op := .br, args := [], ty := .void }

/-- `%4 = phi i32 [%1, 0], [undef, 1]`. -/
def joinPhi : Inst :=
  { name := 4, op := .phi [0, 1], args := [.inst 1 (.int 32), .undef (.int 32)], ty := .int 32 }

/-- `%5 = select i1 undef, i32 %b, i32 %4`. -/
def joinSelect : Inst :=
  { name := 5, op := .select, args := [.undef (.int 1), .arg 1 (.int 32), .inst 4 (.int 32)]
    ty := .int 32 }

/-- `store atomic i32 %5, ptr @h`. -/
def joinStore : Inst :=
  { name := 6, op := .store true false, args := [.inst 5 (.int 32), .global "h"], ty := .void }

/-- `ret void`. -/
def joinRet : Inst := { name := 7, op := .ret, args := [], ty := .void }

/-- A loaded value is joined with `undef`, and the result is stored atomically. -/
def joinFunc : Func where
  entry := 0
  labels := [0, 1, 2]
  code b :=
    match b with
    | 0 => [joinLoad, joinBranch]
    | 1 => [joinJump]
    | 2 => [joinPhi, joinSelect, joinStore, joinRet]
    | _ => []
  succs b :=
    match b with
    | 0 => [1, 2]
    | 1 => [2]
    | _ => []
  entry_mem := by decide
  succs_mem := by decide
  names_nodup := by decide
  code_nodup := by decide
  terminator_last b hb := by
    simp only [List.mem_cons, List.not_mem_nil, or_false] at hb
    rcases hb with rfl | rfl | rfl
    · exact ⟨[joinLoad], _, rfl, rfl, by decide⟩
    · exact ⟨[], _, rfl, rfl, by decide⟩
    · exact ⟨[joinPhi, joinSelect, joinStore], _, rfl, rfl, by decide⟩

/-- The function with the default options. -/
def joinCtx : Ctx where
  f := joinFunc
  opts := {}
  users v := joinFunc.insts.filter fun i => v ∈ i.operands
  constantUser _ := true
  isAFLRuntimeAccess _ := false
  pointerBase v := (v, 0)
  findAlloca _ := none
  retNoUndef := false
  analyses _ := ⟨fun _ => [], fun _ _ => false, fun _ => none⟩

theorem joinCtx_slice : joinCtx.computeUndefSlice = [joinSelect.val, joinPhi.val] := by decide

section Join

variable {b c : Label} {i : Inst} {r : List Inst} {τ : Taint} {l p k u : ℕ}

end Join

end CQMSan
