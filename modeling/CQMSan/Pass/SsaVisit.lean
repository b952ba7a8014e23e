import CQMSan.Pass.Erasure

/-!
# SSA form of the instrumented code

The visit phase keeps the code in SSA form: an inserted instruction uses values that are defined
before it in its block, or in a block that strictly dominates its own. The shadow of an
instruction is available from the end of its segment on (`availPast`), so it can be used wherever
the instruction can.

The shadow PHIs have no operands yet: they are filled in after the phase.
-/

namespace CQMSan

/-! ### The visit phase -/

/-- The values available past the segment of the instruction `i` of block `b`. -/
def St.availPast (s : St) (f : Func) (b : Label) (i : Inst) : Set ℕ :=
  availIn f (s.blockCode f) b ∪ defs (s.codeBefore f b i ++ s.seg i.name)

/-- Every segment of `s'` defines what it does in `s`. -/
structure St.DefsLe (f : Func) (s s' : St) : Prop where
  prologue : s'.prologue = s.prologue
  seg : ∀ b ∈ f.labels, ∀ i ∈ f.code b, defs (s.seg i.name) ⊆ defs (s'.seg i.name)

section DefsLe

variable {f : Func} {s s' : St} {b : Label} {i : Inst}

theorem defs_flatMap {α : Type} {g g' : α → List Inst} {xs : List α}
    (h : ∀ x ∈ xs, defs (g x) ⊆ defs (g' x)) : defs (xs.flatMap g) ⊆ defs (xs.flatMap g') := by
  rintro n ⟨y, hy, hm, rfl⟩
  obtain ⟨x, hx, hyx⟩ := List.mem_flatMap.mp hy
  obtain ⟨z, hz, hzm, hzn⟩ := h x hx ⟨y, hyx, hm, rfl⟩
  exact ⟨z, List.mem_flatMap.mpr ⟨x, hx, hz⟩, hzm, hzn⟩

theorem St.DefsLe.codeBefore (h : St.DefsLe f s s') (hb : b ∈ f.labels) :
    defs (s.codeBefore f b i) ⊆ defs (s'.codeBefore f b i) := by
  rw [St.codeBefore, St.codeBefore, defs_append, defs_append, h.prologue]
  exact Set.union_subset_union_right _
    (defs_flatMap fun j hj => h.seg b hb j (mem_of_mem_before hj))

theorem St.DefsLe.blockCode (h : St.DefsLe f s s') :
    ∀ d ∈ f.labels, defs (s.blockCode f d) ⊆ defs (s'.blockCode f d) := by
  intro d hd
  rw [St.blockCode, St.blockCode, defs_append, defs_append, h.prologue]
  exact Set.union_subset_union_right _ (defs_flatMap fun j hj => h.seg d hd j hj)

theorem St.DefsLe.availPast (h : St.DefsLe f s s') (hb : b ∈ f.labels) (hi : i ∈ f.code b) :
    s.availPast f b i ⊆ s'.availPast f b i := by
  rw [St.availPast, St.availPast, defs_append, defs_append]
  exact Set.union_subset_union (availIn_mono h.blockCode)
    (Set.union_subset_union (h.codeBefore hb) (h.seg b hb i hi))

/-- What is available past an instruction is available at every instruction it precedes. -/
theorem Func.Precedes.availPast {d : Label} {j : Inst} (hpre : f.Precedes d j b i)
    (hd : d ∈ f.labels) (hj : j ∈ f.code d) (hb : b ∈ f.labels) (hreach : f.Reaches f.entry b) :
    s.availPast f d j ⊆ availIn f (s.blockCode f) b ∪ defs (s.codeBefore f b i) := by
  rcases hpre with hdom | ⟨rfl, hji⟩
  · refine Set.Subset.trans ?_ (Set.Subset.trans (availOut_subset_availIn hd hdom hreach)
      Set.subset_union_left)
    refine Set.union_subset_union_right _ ?_
    rw [St.blockCode_split hd hj, defs_append, defs_append]
    rw [defs_append]
    exact Set.subset_union_left
  · obtain ⟨q, hq, -⟩ := before_append_of_mem hji
    refine Set.union_subset_union_right _ ?_
    rw [St.codeBefore, St.codeBefore, hq, List.flatMap_append, List.flatMap_cons]
    simp only [defs_append]
    rw [← Set.union_assoc, ← Set.union_assoc]
    exact Set.subset_union_left

end DefsLe

/-- The code after the visit phase is in SSA form, and shadows can be used where what they shadow
can. -/
structure SsaVisited (cx : Ctx) (s : St) : Prop where
  ssa : Ssa cx.f (s.blockCode cx.f)
  shadows : ∀ b ∈ cx.f.labels, cx.f.Reaches cx.f.entry b → ∀ i ∈ cx.f.code b, ∀ sv,
    s.shadowMap i.name = some sv → sv.Avail (s.availPast cx.f b i)
  checks : ∀ c ∈ s.checks, ∀ b pre i post, c.At cx.f s b pre i post →
    cx.f.Reaches cx.f.entry b →
    c.shadow.Avail (availIn cx.f (s.blockCode cx.f) b ∪
      defs (s.codeBefore cx.f b c.origIns ++ pre)) ∨ c.AfterLoad cx.f b pre post

section Step

variable {cx : Ctx} {s : St} {b : Label} {i : Inst} {done : List Inst} {slice : List Val}

/-- What is kept of an instruction of the source defines its name. -/
theorem Visited.defs_seg (hvis : Visited cx s) (hb : b ∈ cx.f.labels) (hi : i ∈ cx.f.code b) :
    defs [i] ⊆ defs (s.seg i.name) := by
  rintro n ⟨j, hj, hm, rfl⟩
  obtain rfl := List.mem_singleton.mp hj
  obtain ⟨i', hi', hname, hop⟩ := hvis.kept b hb j hi hm
  refine ⟨i', hi', ?_, hname⟩
  rw [Inst.isMemIntrinsic, hop, ← Inst.isMemIntrinsic, hm]

theorem Visited.defsLe (hvis : Visited cx s) :
    ∀ d ∈ cx.f.labels, defs (cx.f.code d) ⊆ defs (s.blockCode cx.f d) := by
  intro d hd
  rw [St.blockCode, defs_append]
  refine Set.Subset.trans ?_ Set.subset_union_right
  have := @defs_flatMap Inst (fun i => [i]) (fun i => s.seg i.name) (cx.f.code d)
    fun i hi => hvis.defs_seg hd hi
  rwa [List.flatMap_singleton'] at this

/-- The operands of the source are available where they were. -/
theorem Visited.availAt_subset (hvis : Visited cx s) (hb : b ∈ cx.f.labels) :
    cx.f.availAt b i ⊆ availIn cx.f (s.blockCode cx.f) b ∪ defs (s.codeBefore cx.f b i) := by
  refine Set.union_subset_union (availIn_mono hvis.defsLe) ?_
  rw [St.codeBefore, defs_append]
  refine Set.Subset.trans ?_ Set.subset_union_right
  have := @defs_flatMap Inst (fun j => [j]) (fun j => s.seg j.name) (before i (cx.f.code b))
    fun j hj => hvis.defs_seg hb (mem_of_mem_before hj)
  rwa [List.flatMap_singleton'] at this

/-- The shadow of an operand is available where the operand is. -/
theorem SsaVisited.avail_getShadow (hssa : SsaVisited cx s)
    (hb : b ∈ cx.f.labels) (hreach : cx.f.Reaches cx.f.entry b) {v : Val}
    (hv : v.Avail (cx.f.availAt b i)) : (getShadow cx.opts s.shadowMap v).Avail
      (availIn cx.f (s.blockCode cx.f) b ∪ defs (s.codeBefore cx.f b i)) := by
  cases v with
  | inst n t =>
    rw [getShadow]
    cases hsh : s.shadowMap n with
    | none => trivial
    | some sv =>
      obtain ⟨d, hd, j, hj, hpre, rfl⟩ :
          ∃ d ∈ cx.f.labels, ∃ j ∈ cx.f.code d, cx.f.Precedes d j b i ∧ j.name = n := by
        rcases mem_availAt.mp hv with ⟨d, hd, j, hj, hdom, -, hn⟩ | ⟨j, hj, -, hn⟩
        · exact ⟨d, hd, j, hj, Or.inl hdom, hn⟩
        · exact ⟨b, hb, j, mem_of_mem_before hj, Or.inr ⟨rfl, hj⟩, hn⟩
      exact (hssa.shadows d hd (hpre.reachable hreach) j hj sv hsh).mono
        (hpre.availPast hd hj hb hreach)
  | undef t =>
    rw [getShadow]
    split_ifs <;> trivial
  | _ => trivial

/-- What the handler of an instruction does, with the values that dominate the instruction. -/
theorem SsaVisited.visitOk (hwf : cx.f.WellFormed) (hlaw : cx.Lawful) (hvis : Visited cx s)
    (hssa : SsaVisited cx s) (hb : b ∈ cx.f.labels) (hreach : cx.f.Reaches cx.f.entry b)
    (hi : i ∈ cx.f.code b) :
    VisitOk ⟨cx, slice, s, s.codeBefore cx.f b i⟩ (cx.f.terminator b) i
      (availIn cx.f (s.blockCode cx.f) b ∪ defs (s.codeBefore cx.f b i)) cx.bound
      (Site.process ⟨cx, slice, s, s.codeBefore cx.f b i⟩ (cx.f.terminator b) i) := by
  have hname := Ctx.lt_bound hb hi
  have hat := hvis.availAt_subset (i := i) hb
  cases hphi : i.isPhi with
  | true =>
    obtain ⟨ls, hls⟩ : ∃ ls, i.op = .phi ls := by
      have hsrc := hwf.source b hb i hi
      rw [Inst.isPhi] at hphi
      rw [Inst.isInserted] at hsrc
      cases hop : i.op <;> simp_all
    exact visitOk_process_phi hvis.cache hls
  | false =>
    have harg : ∀ v, IsArg i v → v.Avail (cx.f.availAt b i) := by
      rintro v (hv | ⟨t, rfl⟩)
      · refine hwf.uses b hb hreach i hi hphi v ?_
        rw [Inst.operands]
        split
        · exact List.mem_append_left _ hv
        · exact hv
      · trivial
    refine visitOk_process ⟨fun v hv => (harg v hv).mono hat, fun v hv => ?_, fun v hv => ?_,
      hvis.bound.le, hvis.cache, fun x hx hN => Or.inr ?_⟩ hname
    · exact hssa.avail_getShadow hb hreach (harg v hv)
    · exact (hwf.computedFrom hb hreach (harg v hv) (hlaw.pointerBase v)).mono hat
    · -- the names from `bound` on are those of inserted instructions
      refine ⟨x, hx, ?_, rfl⟩
      rcases List.mem_append.mp hx with hx | hx
      · split_ifs at hx
        · rw [hvis.prologue] at hx
          rw [List.mem_singleton.mp hx]
          rfl
        · cases hx
      · obtain ⟨j, hj, hx⟩ := List.mem_flatMap.mp hx
        have hjb := mem_of_mem_before hj
        rcases hvis.ops b hb j hjb x hx with ⟨hxj, -⟩ | ⟨o, ho, -⟩
        · have := Ctx.lt_bound hb hjb
          omega
        · exact isMemIntrinsic_of_sh ho

/-- The place of an instruction among code with other names. -/
theorem split_unique {l r l' r' : List Inst} {x y : Inst}
    (hnd : ((l ++ x :: r).map Inst.name).Nodup) (h : l ++ x :: r = l' ++ y :: r')
    (hname : y.name = x.name) : l = l' ∧ x = y ∧ r = r' := by
  have hl : ∀ z ∈ l, decide (z.name ≠ x.name) = true := by
    intro z hz
    rw [List.map_append, List.map_cons] at hnd
    exact decide_eq_true ((List.nodup_append.mp hnd).2.2 _ (List.mem_map_of_mem hz) _
      List.mem_cons_self)
  have hl' : ∀ z ∈ l', decide (z.name ≠ x.name) = true := by
    intro z hz
    rw [h, List.map_append, List.map_cons, hname] at hnd
    exact decide_eq_true ((List.nodup_append.mp hnd).2.2 _ (List.mem_map_of_mem hz) _
      List.mem_cons_self)
  have htake := congrArg (List.takeWhile fun z => decide (z.name ≠ x.name)) h
  rw [List.takeWhile_append_of_pos hl, List.takeWhile_append_of_pos hl'] at htake
  have hll : l = l' := by simpa [hname] using htake
  subst hll
  have := List.append_cancel_left h
  exact ⟨rfl, (List.cons.inj this).1, (List.cons.inj this).2⟩

/-- What an instruction leaves behind defines what it did. -/
theorem VisitOk.defs_subset {si : Site} {term : Inst} {A : Set ℕ} {N : ℕ} {v : Visit}
    (hv : VisitOk si term i A N v) : defs [i] ⊆ defs (v.pre ++ v.self ++ v.post) := by
  rintro n ⟨j, hj, hm, rfl⟩
  obtain rfl := List.mem_singleton.mp hj
  rcases hv.self with ⟨-, hmem, -⟩ | ⟨i', hself, hname, hop⟩
  · rw [hm] at hmem
    cases hmem
  · refine ⟨i', by simp [hself], ?_, hname⟩
    rw [Inst.isMemIntrinsic, hop, ← Inst.isMemIntrinsic, hm]

/-- The code of a handler around the instruction is ordered. -/
theorem VisitOk.ordered {si : Site} {term : Inst} {A : Set ℕ} {N : ℕ} {v : Visit}
    (hv : VisitOk si term i A N v) (hi : i.isInserted = false) :
    Ordered A (v.pre ++ v.self ++ v.post) := by
  obtain ⟨hpre, hpost⟩ := closed_append.mp hv.closed
  obtain ⟨hnpre, hnpost⟩ := numbered_append.mp hv.numbered
  refine ordered_append.mpr ⟨ordered_append.mpr ⟨hpre.ordered hnpre, ?_⟩, ?_⟩
  · refine ordered_of_not_inserted fun x hx => ?_
    rcases hv.self with ⟨hself, -⟩ | ⟨i', hself, -, hop⟩
    · rw [hself] at hx
      cases hx
    · rw [hself] at hx
      rw [List.mem_singleton.mp hx, Inst.isInserted, hop, ← Inst.isInserted, hi]
  · refine (hpost.ordered hnpost).mono (Set.union_subset_union_right _ ?_)
    rw [← hnpre.defs_eq, defs_append]
    exact Set.subset_union_left

theorem SsaVisited.step (hwf : cx.f.WellFormed) (hlaw : cx.Lawful) (hinv : VisitInv cx done s)
    (hssa : SsaVisited cx s) (hb : b ∈ cx.f.labels) (hreach : cx.f.Reaches cx.f.entry b)
    (hi : i ∈ cx.f.code b) (hdone : i ∉ done) :
    SsaVisited cx (visitStep cx slice s (b, i)) := by
  rw [visitStep]
  dsimp only
  set v := Site.process ⟨cx, slice, s, s.codeBefore cx.f b i⟩ (cx.f.terminator b) i
  have hv : VisitOk ⟨cx, slice, s, s.codeBefore cx.f b i⟩ _ i _ cx.bound v :=
    hssa.visitOk hwf hlaw hinv.toVisited hb hreach hi
  have hseg := hinv.undone b hb i hi hdone
  have hrep := @St.apply_replaces cx s b i v hb hi
  rw [hseg] at hrep
  have hother : ∀ d ∈ cx.f.labels, ∀ j ∈ cx.f.code d, j ≠ i →
      (s.apply i v).seg j.name = s.seg j.name := fun d hd j hj hne =>
    Function.update_of_ne (fun h => hne (cx.f.names_nodup d hd b hb j hj i hi h).2) _ _
  have hle : St.DefsLe cx.f s (s.apply i v) := by
    refine ⟨rfl, fun d hd j hj => ?_⟩
    by_cases hji : j = i
    · rw [hji, hseg, St.seg_apply_self]
      exact hv.defs_subset
    · rw [hother d hd j hj hji]
  refine ⟨?_, fun d hd hreach' j hj sv hsv => ?_, fun c hc d pre i' post hat hreach' => ?_⟩
  · refine Ssa.replace hrep hssa.ssa hv.defs_subset
      (fun _ => hv.ordered (hwf.source b hb i hi)) fun x hx => ?_
    refine Or.inr fun ls hls a ha => ?_
    have hargs : x.args = [] := by
      rw [List.mem_append, List.mem_append] at hx
      rcases hx with (hx | hx) | hx
      · exact hv.phis x (List.mem_append_left _ hx) ls hls
      · rcases hv.self with ⟨hself, -⟩ | ⟨i', hself, -, hop⟩
        · rw [hself] at hx
          cases hx
        · rw [hself] at hx
          rw [List.mem_singleton.mp hx, hop] at hls
          have := hwf.source b hb i hi
          rw [Inst.isInserted, hls] at this
          cases this
      · exact hv.phis x (List.mem_append_right _ hx) ls hls
    rw [hargs] at ha
    cases ha
  · by_cases hji : j = i
    · subst hji
      obtain rfl := Func.block_unique hd hb hj hi
      rcases hsh : v.shadow with _ | sv'
      · simp only [St.apply, hsh] at hsv
        exact (hssa.shadows d hd hreach' j hj sv hsv).mono (hle.availPast hd hj)
      · rw [St.shadowMap_apply_self hsh, Option.some.injEq] at hsv
        subst hsv
        refine (hv.shadow sv' hsh).mono ?_
        rw [St.availPast, St.seg_apply_self, defs_append, ← hv.numbered.defs_eq]
        refine Set.union_subset (Set.union_subset_union (availIn_mono hle.blockCode)
          ((hle.codeBefore hd).trans Set.subset_union_left)) ?_
        refine Set.Subset.trans ?_ Set.subset_union_right
        refine Set.Subset.trans ?_ Set.subset_union_right
        exact defs_mono fun x hx => by
          rcases List.mem_append.mp hx with hx | hx
          · simp [hx]
          · simp [hx]
    · have hsv' : s.shadowMap j.name = some sv := by
        have hne : j.name ≠ i.name := fun h => hji (cx.f.names_nodup d hd b hb j hj i hi h).2
        rwa [St.shadowMap_apply_of_ne hne] at hsv
      exact (hssa.shadows d hd hreach' j hj sv hsv').mono (hle.availPast hd hj)
  · rcases List.mem_append.mp hc with hc | hc
    · have hne : c.origIns ≠ i := fun h => hdone (h ▸ hinv.sites c hc)
      have hat' : c.At cx.f s d pre i' post :=
        ⟨hat.label, hat.mem, by rw [← hother d hat.label _ hat.mem hne]; exact hat.seg, hat.name,
          hat.op⟩
      refine (hssa.checks c hc d pre i' post hat' hreach').imp_left fun hav => hav.mono ?_
      rw [defs_append, defs_append]
      exact Set.union_subset_union (availIn_mono hle.blockCode)
        (Set.union_subset_union_left _ (hle.codeBefore hat.label))
    · obtain ⟨p, hp, rfl⟩ := List.mem_map.mp hc
      have hmem : i ∈ cx.f.code d := hat.mem
      obtain rfl := Func.block_unique hat.label hb hmem hi
      obtain ⟨x, hself, hxname, -⟩ : ∃ x, v.self = [x] ∧ x.name = i.name ∧ x.op = i.op := by
        rcases hv.self with ⟨-, -, hnone⟩ | hself
        · rw [hnone] at hp
          cases hp
        · exact hself
      have hsplit : v.pre ++ x :: v.post = pre ++ i' :: post := by
        have := hat.seg
        rw [St.seg_apply_self, hself] at this
        simpa using this
      have hnd : ((v.pre ++ x :: v.post).map Inst.name).Nodup := by
        have hperm : (v.pre ++ x :: v.post).Perm (x :: (v.pre ++ v.post)) := List.perm_middle
        refine (hperm.map Inst.name).nodup_iff.mpr (List.nodup_cons.mpr ⟨fun h => ?_,
          hv.numbered.nodup⟩)
        obtain ⟨y, hy, hyx⟩ := List.mem_map.mp h
        have hlow := (hv.numbered.name_bounds hy).1
        have := Ctx.lt_bound hat.label hi
        have := hinv.bound
        have : s.next ≤ y.name := hlow
        omega
      obtain ⟨rfl, rfl, rfl⟩ := split_unique hnd hsplit (hat.name.trans hxname.symm)
      rcases hv.checks p hp with hav | ⟨hload, hess, hpre, -, hterm, m, S, hpost, hS, hSop, hm⟩
      · refine Or.inl (hav.mono ?_)
        have hnpre := (numbered_append.mp hv.numbered).1
        rw [← hnpre.defs_eq, Set.union_assoc, ← defs_append]
        refine Set.union_subset_union (availIn_mono hle.blockCode) ?_
        rw [defs_append, defs_append]
        exact Set.union_subset_union_left _ (hle.codeBefore hat.label)
      · exact Or.inr ⟨hload, hess, hpre, hterm, m, S, hpost, hS, hSop, hm⟩

/-- Before the visit phase there is no inserted code but the prologue. -/
theorem SsaVisited.init (hwf : cx.f.WellFormed) : SsaVisited cx (St.init cx) := by
  have hcode : ∀ b ∈ cx.f.labels, ∀ x ∈ (St.init cx).blockCode cx.f b,
      (x.isInserted = true → x.args = [] ∧ x.callInfo? = none) ∧ ∀ ls, x.op ≠ .sh (.phi ls) := by
    intro b hb x hx
    rw [St.blockCode_init hb] at hx
    rcases List.mem_append.mp hx with hx | hx
    · split_ifs at hx
      · obtain rfl : x = _ := List.mem_singleton.mp hx
        exact ⟨fun _ => ⟨rfl, rfl⟩, fun ls h => by cases h⟩
      · cases hx
    · have hsrc := hwf.source b hb x hx
      refine ⟨fun h => absurd (hsrc.symm.trans h) Bool.false_ne_true, fun ls h => ?_⟩
      rw [Inst.isInserted, h] at hsrc
      cases hsrc
  refine ⟨⟨fun b hb _ => ?_, fun b hb _ x hx ls hls => absurd hls ((hcode b hb x hx).2 ls)⟩,
    fun _ _ _ _ _ sv h => by simp [St.init] at h, fun c hc => by simp [St.init] at hc⟩
  suffices h : ∀ (xs : List Inst) (A : Set ℕ), (∀ x ∈ xs, x.isInserted = true →
      x.args = [] ∧ x.callInfo? = none) → Ordered A xs from h _ _ fun x hx => (hcode b hb x hx).1
  intro xs
  induction xs with
  | nil => exact fun _ _ => trivial
  | cons x xs ih =>
    refine fun A h => ⟨fun hins _ v hv => ?_, ih _ fun y hy => h y (List.mem_cons_of_mem _ hy)⟩
    obtain ⟨hargs, hcall⟩ := h x List.mem_cons_self hins
    rw [Inst.operands, hcall, hargs] at hv
    cases hv

end Step

/-- **The visit phase keeps SSA form.** -/
theorem runVisit_ssa {cx : Ctx} (hwf : cx.f.WellFormed) (hlaw : cx.Lawful) :
    SsaVisited cx (runVisit cx) := by
  obtain ⟨-, -, -, hssa⟩ := runVisit_induct (P := fun _ s => SsaVisited cx s) hwf hlaw
    (SsaVisited.init hwf) fun done s b i hinv hp hdone _ ih => by
      obtain ⟨hb, hreach, hi, -⟩ := Ctx.mem_visitOrder hp
      exact ih.step hwf hlaw hinv hb hreach hi hdone
  exact hssa

/-- The shadow of the word that is read back is loaded after it. -/
theorem runVisit_ssa_clear :
    (runVisit clearCtx).shadowMap clearLoad.name = some (.inst 10 (.int 32)) ∧
      SsaVisited clearCtx (runVisit clearCtx) :=
  ⟨by decide, runVisit_ssa clearFunc_wellFormed clearCtx_lawful⟩

end CQMSan
