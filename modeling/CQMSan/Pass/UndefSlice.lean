import CQMSan.Pass.VisitInv

/-!
# The undef slice

`computeUndefSlice` is a worklist over the def-use graph. It computes the scalars to which an
`undef` operand of a PHI or a select can flow through the instructions of the transfer classes,
also around cycles of PHIs.
-/

namespace CQMSan

/-- A use through which a value joins the slice. -/
def Ctx.SliceEdge (cx : Ctx) (v w : Val) : Prop :=
  ∃ u ∈ cx.users v, u.val = w ∧ u.nosanitize = false ∧
    (u.isPhi = true ∨ isTransferClass u = true) ∧ isUndefSliceScalar u.ty = true

theorem mem_sliceSuccs {cx : Ctx} {v w : Val} : w ∈ sliceSuccs cx v ↔ cx.SliceEdge v w := by
  simp only [sliceSuccs, List.mem_map, List.mem_filter, Bool.and_eq_true, Bool.or_eq_true,
    Bool.not_eq_true', Ctx.SliceEdge]
  constructor
  · rintro ⟨u, ⟨hu, ⟨hns, hclass⟩, hscalar⟩, hw⟩
    exact ⟨u, hu, hw, hns, hclass, hscalar⟩
  · rintro ⟨u, hu, hw, hns, hclass, hscalar⟩
    exact ⟨u, ⟨hu, ⟨hns, hclass⟩, hscalar⟩, hw⟩

/-- **The slice is the closure of its seeds.** A value is in the slice iff it can be reached from a
visited scalar PHI or select with an `undef` operand, by uses in PHIs and transfer instructions with
a scalar result. -/
theorem mem_computeUndefSlice_iff {cx : Ctx} (husers : ∀ v, ∀ u ∈ cx.users v, u ∈ cx.f.insts)
    {v : Val} : v ∈ cx.computeUndefSlice ↔ cx.opts.undefSlice = true ∧
      ∃ u ∈ cx.instructions, isUndefSeed u = true ∧
        Relation.ReflTransGen cx.SliceEdge u.val v := by
  have hedge : Worklist.Edge (sliceSuccs cx) = cx.SliceEdge := by
    funext a b
    exact propext mem_sliceSuccs
  rw [Ctx.computeUndefSlice]
  split_ifs with hopt
  · dsimp only
    set seeds := (cx.instructions.filter isUndefSeed).map Inst.val with hseeds
    rw [Worklist.pushNew_diag]
    set wl := (Worklist.pushNew seeds ([], [])).2 with hwl
    have hmem : ∀ w, w ∈ wl ↔ ∃ u ∈ cx.instructions, isUndefSeed u = true ∧ u.val = w := by
      intro w
      rw [hwl, Worklist.mem_pushNew_seen, hseeds]
      simp [List.mem_map, List.mem_filter, and_assoc]
    -- the values of the function are a universe for the walk
    have hU : ∀ u ∈ cx.f.insts, u.val ∈ (cx.f.insts.map Inst.val).toFinset := fun u hu =>
      List.mem_toFinset.mpr (List.mem_map_of_mem hu)
    have hwlU : ∀ w ∈ wl, w ∈ (cx.f.insts.map Inst.val).toFinset := by
      intro w hw
      obtain ⟨u, hu, -, rfl⟩ := (hmem w).mp hw
      obtain ⟨b, hb, hub⟩ := List.mem_flatMap.mp (List.mem_filter.mp hu).1
      exact hU u (List.mem_flatMap.mpr ⟨b, (Ctx.mem_blocks hb).1, hub⟩)
    have hfuel : Worklist.remaining (cx.f.insts.map Inst.val).toFinset (wl, wl) ≤
        cx.f.insts.length + 1 := by
      refine (Worklist.remaining_diag_le (Worklist.nodup_pushNew_seen List.nodup_nil) hwlU).trans ?_
      exact (List.toFinset_card_le _).trans (by simp)
    rw [Worklist.mem_explore_iff (fun x _ y hy => ?_) hwlU hfuel, hedge]
    · constructor
      · rintro ⟨w, hw, hreach⟩
        obtain ⟨u, hu, hseed, rfl⟩ := (hmem w).mp hw
        exact ⟨hopt, u, hu, hseed, hreach⟩
      · rintro ⟨-, u, hu, hseed, hreach⟩
        exact ⟨u.val, (hmem _).mpr ⟨u, hu, hseed, rfl⟩, hreach⟩
    · obtain ⟨u, hu, rfl, -⟩ := mem_sliceSuccs.mp hy
      exact hU u (husers x u hu)
  · exact iff_of_false List.not_mem_nil fun h => hopt h.1

/-! ### A sum with an undefined arm -/

/-- One arm is `undef`. -/
def pickSelect : Inst :=
  { name := 1, op := .select, args := [.arg 0 (.int 1), .undef (.int 32), .arg 1 (.int 32)]
    ty := .int 32 }

/-- The sum of the selected value and one. -/
def pickAdd : Inst :=
  { name := 2, op := .bin .add, args := [.inst 1 (.int 32), .const (.int 32) 1], ty := .int 32 }

/-- The sum is returned. -/
def pickRet : Inst := { name := 3, op := .ret, args := [.inst 2 (.int 32)], ty := .void }

/-- A block that selects, adds and returns. -/
def pickFunc : Func := .ofBlock 0 [pickSelect, pickAdd] pickRet (by decide) (by decide) (by decide)

/-- The block with the default options. -/
def pickCtx : Ctx where
  f := pickFunc
  opts := {}
  users v := pickFunc.insts.filter fun i => v ∈ i.operands
  constantUser _ := true
  isAFLRuntimeAccess _ := false
  pointerBase v := (v, 0)
  findAlloca _ := none
  retNoUndef := false
  analyses _ := ⟨fun _ => [], fun _ _ => false, fun _ => none⟩

/-- The sum is in the slice. -/
theorem mem_computeUndefSlice_pick : pickAdd.val ∈ pickCtx.computeUndefSlice := by
  have husers : ∀ v, ∀ u ∈ pickCtx.users v, u ∈ pickCtx.f.insts := by
    intro v u hu
    rw [pickCtx] at hu
    exact (List.mem_filter.mp hu).1
  refine (mem_computeUndefSlice_iff husers).mpr
    ⟨rfl, pickSelect, by decide, by decide, .single ⟨pickAdd, by decide, rfl, rfl, ?_, by decide⟩⟩
  exact Or.inr (by decide)

end CQMSan
