import CQMSan.Pass.CheckCond
import CQMSan.Pass.VisitInv

/-!
# The code before the checks

The phases between the visit and the materialization of the checks: the operands of the shadow
PHIs, the return checks, the variadic areas and the allocas. They change operands, record checks
and insert code, and what the visit phase established of the checks stays true.

From here on a check is described by the code of its block alone: its shadow is not defined at the
site or later (`Check.EarlyIn`), or it is the shadow of a load and defined after the load, with
nothing in between at which control could leave the block (`Check.AfterLoadIn`).
-/

namespace CQMSan

/-! ### Operands -/

/-- `s'` differs from `s` in the operands of instructions only. -/
structure St.Reargs (s s' : St) : Prop where
  seg : ∃ g : ℕ → Inst → Inst,
    (∀ m x, (g m x).name = x.name ∧ (g m x).op = x.op ∧ (g m x).ty = x.ty) ∧
      ∀ m, s'.seg m = (s.seg m).map (g m)
  rest : s' = { s with seg := s'.seg }

section Reargs

variable {cx : Ctx} {s s' s'' : St}

theorem St.Reargs.refl (s : St) : St.Reargs s s :=
  ⟨⟨fun _ x => x, fun _ _ => ⟨rfl, rfl, rfl⟩, fun m => by simp⟩, rfl⟩

theorem St.Reargs.trans (h : St.Reargs s s') (h' : St.Reargs s' s'') : St.Reargs s s'' := by
  obtain ⟨g, hg, hseg⟩ := h.seg
  obtain ⟨g', hg', hseg'⟩ := h'.seg
  refine ⟨⟨fun m => g' m ∘ g m, fun m x => ?_, fun m => ?_⟩, ?_⟩
  · obtain ⟨h1, h2, h3⟩ := hg m x
    obtain ⟨h1', h2', h3'⟩ := hg' m (g m x)
    exact ⟨h1'.trans h1, h2'.trans h2, h3'.trans h3⟩
  · rw [hseg', hseg, List.map_map]
  · rw [h'.rest, h.rest]

theorem finalizePhi_reargs (pn : Inst) : St.Reargs s (finalizePhi cx s pn) := by
  rw [finalizePhi]
  split
  next k t _ =>
    let g : Inst → Inst := fun x =>
      if x.name = k then { x with args := pn.args.map (getShadow cx.opts s.shadowMap) } else x
    refine ⟨⟨fun m => if m = pn.name then g else id, fun m x => ?_, fun m => ?_⟩, rfl⟩
    · dsimp only
      split_ifs
      · dsimp only [g]
        split_ifs <;> exact ⟨rfl, rfl, rfl⟩
      · exact ⟨rfl, rfl, rfl⟩
    · dsimp only
      split_ifs with hm
      · rw [hm, Function.update_self]
        rfl
      · rw [Function.update_of_ne hm, List.map_id]
  next => exact .refl s

theorem foldl_finalizePhi_reargs (pns : List Inst) :
    St.Reargs s (pns.foldl (finalizePhi cx) s) := by
  induction pns generalizing s with
  | nil => exact .refl s
  | cons pn pns ih => exact (finalizePhi_reargs pn).trans ih

/-- Names are unique in any code with the same names. -/
theorem Unique.of_names {f : Func} {C C' : Label → List Inst} {n : ℕ} (hu : Unique f C n)
    (h : ∀ b ∈ f.labels, (C' b).map Inst.name = (C b).map Inst.name) : Unique f C' n := by
  have hmem : ∀ b ∈ f.labels, ∀ x ∈ C' b, ∃ y ∈ C b, y.name = x.name := by
    intro b hb x hx
    have : x.name ∈ (C b).map Inst.name := by
      rw [← h b hb]
      exact List.mem_map_of_mem hx
    simpa using List.mem_map.mp this
  refine ⟨fun b hb => by rw [h b hb]; exact hu.nodup b hb, fun b hb c hc x hx y hy hxy => ?_,
    fun b hb x hx => ?_⟩
  · obtain ⟨x', hx', hxx⟩ := hmem b hb x hx
    obtain ⟨y', hy', hyy⟩ := hmem c hc y hy
    exact hu.block b hb c hc x' hx' y' hy' (by rw [hxx, hyy, hxy])
  · obtain ⟨x', hx', hxx⟩ := hmem b hb x hx
    rw [← hxx]
    exact hu.lt b hb x' hx'

theorem St.Reargs.names (h : St.Reargs s s') (f : Cfg) (b : Label) :
    (s'.blockCode f b).map Inst.name = (s.blockCode f b).map Inst.name := by
  obtain ⟨g, hg, hseg⟩ := h.seg
  have hp : s'.prologue = s.prologue := by rw [h.rest]
  rw [St.blockCode, St.blockCode, hp, List.map_append, List.map_append]
  congr 1
  rw [List.map_flatMap, List.map_flatMap]
  refine List.flatMap_congr fun i _ => ?_
  rw [hseg, List.map_map]
  exact List.map_congr_left fun x _ => (hg _ x).1

private theorem definedIn_map {v : Val} {xs : List Inst} {g : Inst → Inst}
    (hg : ∀ x, (g x).name = x.name) : v.DefinedIn (xs.map g) ↔ v.DefinedIn xs := by
  constructor
  · rintro ⟨y, hy, t, hv⟩
    obtain ⟨x, hx, rfl⟩ := List.mem_map.mp hy
    exact ⟨x, hx, t, by rw [hv, hg]⟩
  · rintro ⟨x, hx, t, rfl⟩
    exact ⟨g x, List.mem_map_of_mem hx, t, by rw [hg]⟩

theorem Check.Placed.reargs {c : Check} {f : Func} (hc : c.Placed f s) (h : St.Reargs s s') :
    c.Placed f s' := by
  obtain ⟨g, hg, hseg⟩ := h.seg
  obtain ⟨b, pre, i, post, hat, hplace⟩ := hc
  refine ⟨b, pre.map (g c.origIns.name), g c.origIns.name i, post.map (g c.origIns.name),
    ⟨hat.label, hat.mem, by rw [hseg, hat.seg]; simp, (hg _ i).1.trans hat.name,
      (hg _ i).2.1.trans hat.op⟩, ?_⟩
  rcases hplace with hearly | hload
  · refine Or.inl ⟨?_, fun j hj => ?_⟩
    · have := hearly.here
      rw [← definedIn_map (fun x => (hg c.origIns.name x).1)] at this
      simpa using this
    · rw [hseg, definedIn_map fun x => (hg _ x).1]
      exact hearly.later j hj
  · obtain ⟨m, S, hpost, hS, hSop, hm⟩ := hload.shadow
    refine Or.inr ⟨hload.op, hload.deferrable, by rw [hload.pre]; rfl, hload.term,
      m.map (g c.origIns.name), g c.origIns.name S, by rw [hpost]; simp, ?_, ?_, ?_⟩
    · rw [hS, Inst.val, Inst.val, (hg _ S).1, (hg _ S).2.2]
    · rw [(hg _ S).2.1, hSop]
    · intro y hy
      obtain ⟨x, hx, rfl⟩ := List.mem_map.mp hy
      rw [(hg _ x).2.1]
      exact hm x hx

/-- What the visit phase leaves behind does not depend on operands. -/
theorem Visited.reargs (hs : Visited cx s) (h : St.Reargs s s') : Visited cx s' := by
  obtain ⟨g, hg, hseg⟩ := h.seg
  have hnext : s'.next = s.next := by rw [h.rest]
  have hchecks : s'.checks = s.checks := by rw [h.rest]
  refine ⟨?_, ?_, ?_, ?_, ?_, fun b hb i hi hm => ?_, fun b hb i hi x hx => ?_,
    fun b hb i hi ht => ?_, fun c hc => ?_, by rw [hchecks]; exact hs.checkable⟩
  · rw [hnext]
    exact hs.unique.of_names fun b _ => h.names cx.f b
  · rw [hnext]
    exact hs.bound
  · rw [h.rest]
    exact hs.prologue
  · intro b hb i hi sv hsv
    rw [h.rest] at hsv
    rw [Ctx.usable, hnext]
    exact hs.shadows b hb i hi sv hsv
  · rw [h.rest]
    exact hs.cache
  · obtain ⟨i', hi', hname, hop⟩ := hs.kept b hb i hi hm
    exact ⟨g _ i', by rw [hseg]; exact List.mem_map_of_mem hi', (hg _ i').1.trans hname,
      (hg _ i').2.1.trans hop⟩
  · rw [hseg] at hx
    obtain ⟨y, hy, rfl⟩ := List.mem_map.mp hx
    rw [(hg _ y).1, (hg _ y).2.1]
    exact hs.ops b hb i hi y hy
  · obtain ⟨pre, i', hpre, hname, hop⟩ := hs.terms b hb i hi ht
    exact ⟨pre.map (g i.name), g i.name i', by rw [hseg, hpre]; simp, (hg _ i').1.trans hname,
      (hg _ i').2.1.trans hop⟩
  · rw [hchecks] at hc
    rw [hnext]
    exact ⟨(hs.placed c hc).1, (hs.placed c hc).2.reargs h⟩

end Reargs

/-! ### Return checks -/

section Returns

variable {cx : Ctx} {s : St}

theorem Check.Placed.of_seg {f : Func} {c : Check} {s' : St} (hc : c.Placed f s)
    (h : s'.seg = s.seg) : c.Placed f s' := by
  obtain ⟨b, pre, i, post, hat, hplace⟩ := hc
  refine ⟨b, pre, i, post, ⟨hat.label, hat.mem, by rw [h]; exact hat.seg, hat.name, hat.op⟩, ?_⟩
  exact hplace.imp (fun he => ⟨he.here, fun j hj => by rw [h]; exact he.later j hj⟩) id

/-- A check at a return stands at the end of its block. -/
theorem Visited.placed_return (hwf : cx.f.WellFormed) (hs : Visited cx s) {b : Label} {i : Inst}
    {v : Val} (hb : b ∈ cx.f.labels) (hreach : cx.f.Reaches cx.f.entry b) (hi : i ∈ cx.f.code b)
    (hret : i.op = .ret) (hv : v ∈ i.args) :
    (getShadow cx.opts s.shadowMap v).Avail (Set.Iio s.next) ∧
      Check.Placed cx.f s ⟨getShadow cx.opts s.shadowMap v, i, true⟩ := by
  have hterm : i.isTerminator = true := by rw [Inst.isTerminator, hret]
  have hphi : i.isPhi = false := by rw [Inst.isPhi, hret]
  have hops : v ∈ i.operands := by
    rw [Inst.operands, Inst.callInfo?, hret]
    exact hv
  have hav := hs.avail_getShadow hb hreach (hwf.uses b hb hreach i hi hphi v hops)
  obtain ⟨pre, i', hseg, hname, hop⟩ := hs.terms b hb i hi hterm
  refine ⟨hav.mono ?_, b, pre, i', [], ⟨hb, hi, hseg, hname, hop⟩, Or.inl ⟨?_, fun j hj => ?_⟩⟩
  · rintro n (hn | hn)
    · exact (availAt_lt hb hn).trans hs.bound
    · exact hn.2
  · refine hav.not_definedIn fun x hx => ?_
    rw [List.mem_singleton.mp hx, hname]
    exact not_mem_usable hb hi (Or.inl rfl)
  · -- nothing comes after the terminator
    obtain ⟨body, t, hcode, -, hbody⟩ := cx.f.terminator_last b hb
    have hnd := cx.f.code_nodup b hb
    obtain ⟨l, r, hsplit, hjr⟩ := before_iff.mp hj
    rw [hcode] at hi
    rcases List.mem_append.mp hi with hi | hi
    · rw [hbody i hi] at hterm
      cases hterm
    · obtain rfl := List.mem_singleton.mp hi
      rw [hcode] at hnd hj
      have hjb : j ∈ body := by
        rcases List.mem_append.mp hj.mem.2 with h | h
        · exact h
        · rw [List.mem_singleton.mp h] at hj
          exact absurd hj (Before.irrefl hnd)
      obtain ⟨l₁, l₂, rfl⟩ := List.append_of_mem hjb
      exact absurd hj (Before.asymm hnd (before_iff.mpr ⟨l₁, l₂ ++ [i], by simp, by simp⟩))

theorem Visited.filterPendingReturnChecks (hwf : cx.f.WellFormed) (hs : Visited cx s)
    (hret : ∀ p ∈ s.pendingReturnChecks, p.2.op = .ret ∧ p.1 ∈ p.2.args ∧
      ∃ b ∈ cx.f.labels, cx.f.Reaches cx.f.entry b ∧ p.2 ∈ cx.f.code b) :
    Visited cx (filterPendingReturnChecks cx s) := by
  have hcheck : ∀ c ∈ (CQMSan.filterPendingReturnChecks cx s).checks, c ∈ s.checks ∨
      ∃ p ∈ s.pendingReturnChecks, c = ⟨getShadow cx.opts s.shadowMap p.1, p.2, true⟩ := by
    intro c hc
    rcases List.mem_append.mp hc with hc | hc
    · exact Or.inl hc
    · split_ifs at hc
      · obtain ⟨p, hp, rfl⟩ := List.mem_map.mp hc
        exact Or.inr ⟨p, (List.mem_filter.mp hp).1, rfl⟩
      · cases hc
  refine ⟨hs.unique, hs.bound, hs.prologue, hs.shadows, hs.cache, hs.kept, hs.ops, hs.terms,
    fun c hc => ?_, fun c hc => ?_⟩
  · rcases hcheck c hc with hc | ⟨p, hp, rfl⟩
    · exact ⟨(hs.placed c hc).1, (hs.placed c hc).2.of_seg rfl⟩
    · obtain ⟨hop, harg, b, hb, hreach, hi⟩ := hret p hp
      obtain ⟨hav, hplaced⟩ := hs.placed_return hwf hb hreach hi hop harg
      exact ⟨hav, hplaced.of_seg rfl⟩
  · rcases hcheck c hc with hc | ⟨p, hp, rfl⟩
    · exact hs.checkable c hc
    · have hop := (hret p hp).1
      exact ⟨by rw [Inst.isPhi, hop], by rw [Inst.isEHPad, hop]⟩

end Returns

/-! ### Places in the code -/

namespace Check

variable (f : Func) (C : Label → List Inst) (c : Check)

/-- The instruction `i` of block `b` is the site of the check. -/
structure SiteAt (b : Label) (i : Inst) : Prop where
  label : b ∈ f.labels
  mem : i ∈ C b
  name : i.name = c.origIns.name
  op : i.op = c.origIns.op

/-- The shadow is not defined at the site or later in its block. -/
structure EarlyAt (b : Label) (i : Inst) : Prop where
  site : c.SiteAt f C b i
  early : ∀ x, x = i ∨ Before (C b) i x → ¬ c.shadow.DefinedIn [x]

/-- The site is a load, and `S` loads the shadow of the check, with nothing but address
arithmetic in between. -/
structure LoadAt (b : Label) (i S : Inst) : Prop where
  site : c.SiteAt f C b i
  op : c.origIns.op = .load
  deferrable : c.essential = false
  term : isUnsplittableTerminator (f.terminator b) = false
  before : Before (C b) i S
  shadow : c.shadow = S.val
  shadowOp : S.op = .sh .load
  between : ∀ x, Before (C b) i x → Before (C b) x S → ∃ o, x.op = .sh o ∧ PureOp o

/-- The shadow is not defined at the site or later in its block. -/
def EarlyIn : Prop := ∃ b i, c.EarlyAt f C b i

/-- The check is that of a load whose shadow is loaded after it. -/
def AfterLoadIn : Prop := ∃ b i S, c.LoadAt f C b i S

/-- The two places of a check, in the code. -/
def PlacedIn : Prop := c.EarlyIn f C ∨ c.AfterLoadIn f C

end Check

section PlacedIn

variable {f : Func} {s s' : St} {c : Check}

/-- The place of a check after the visit phase, in the code. -/
theorem Check.Placed.placedIn (hu : Unique f (s.blockCode f) s.next) (hc : c.Placed f s) :
    c.PlacedIn f (s.blockCode f) := by
  obtain ⟨b, pre, i, post, hat, hplace⟩ := hc
  have hnd := hu.code_nodup hat.label
  have hC := @St.blockCode_split s b c.origIns f hat.label hat.mem
  rw [hat.seg, List.append_assoc, List.append_assoc, List.cons_append, ← List.append_assoc] at hC
  have hsite : c.SiteAt f (s.blockCode f) b i :=
    ⟨hat.label, by rw [hC]; simp, hat.name, hat.op⟩
  rcases hplace with hearly | hload
  · refine Or.inl ⟨b, i, hsite, fun x hx => ?_⟩
    rintro ⟨y, hy, t, hv⟩
    obtain rfl := List.mem_singleton.mp hy
    rcases hx with rfl | hx
    · exact hearly.here ⟨y, List.mem_cons_self, t, hv⟩
    · rw [hC] at hx hnd
      rcases List.mem_append.mp ((before_right hnd).mp hx) with hx | hx
      · exact hearly.here ⟨y, List.mem_cons_of_mem _ hx, t, hv⟩
      · obtain ⟨j, hj, hx⟩ := List.mem_flatMap.mp hx
        obtain ⟨l, r, hcode⟩ := List.append_of_mem hat.mem
        have hnd' := f.code_nodup b hat.label
        refine hearly.later j ?_ ⟨y, hx, t, hv⟩
        rw [hcode] at hj hnd' ⊢
        rw [after_eq hnd'] at hj
        exact (before_right hnd').mpr hj
  · obtain ⟨m, S, hpost, hS, hSop, hm⟩ := hload.shadow
    rw [hload.pre, hpost, List.append_nil, List.append_assoc, List.singleton_append] at hC
    rw [hC] at hnd
    refine Or.inr ⟨b, i, S, hsite, hload.op, hload.deferrable, hload.term, ?_, hS, hSop,
      fun x hix hxS => ?_⟩
    · rw [hC]
      exact (before_right hnd).mpr (by simp)
    · rw [hC] at hix hxS
      have hnd' := hnd
      rw [← List.cons_append, ← List.append_assoc] at hnd' hxS
      rcases List.mem_append.mp ((before_left hnd').mp hxS) with hx | hx
      · exact absurd hix (Before.asymm hnd ((before_left hnd).mpr hx))
      · rcases List.mem_cons.mp hx with rfl | hx
        · exact absurd hix (Before.irrefl hnd)
        · exact hm x hx

/-- A shadow is not defined by code that is added later. -/
theorem Check.EarlyAt.grows {b : Label} {i : Inst} (hc : c.EarlyAt f (s.blockCode f) b i)
    (hg : St.Grows f s s') (hav : c.shadow.Avail (Set.Iio s.next)) :
    c.EarlyAt f (s'.blockCode f) b i := by
  have hsub := hg.sub b hc.site.label
  refine ⟨⟨hc.site.label, hsub.subset hc.site.mem, hc.site.name, hc.site.op⟩, fun x hx => ?_⟩
  rintro ⟨y, hy, t, hv⟩
  obtain rfl := List.mem_singleton.mp hy
  have hmem : y ∈ s'.blockCode f b := by
    rcases hx with rfl | hx
    · exact hsub.subset hc.site.mem
    · exact hx.mem.2
  rcases hg.fresh b hc.site.label y hmem with hold | hnew
  · refine hc.early y ?_ ⟨y, List.mem_singleton_self y, t, hv⟩
    exact hx.imp id fun h =>
      h.of_sublist (hg.unique.code_nodup hc.site.label) hsub hc.site.mem hold
  · rw [hv] at hav
    exact absurd hav (not_lt.mpr hnew)

/-- Code may be inserted after an instruction that is not part of the shadow load. -/
theorem Check.LoadAt.insert {C C' : Label → List Inst} {n : ℕ} {b d : Label} {i S : Inst}
    {l xs r : List Inst} (hc : c.LoadAt f C b i S) (hu : Unique f C' n)
    (h : Replaces f C C' d l [] xs r)
    (hl : ∀ p, l.getLast? = some p → p.op ≠ .load ∧ ∀ o, p.op ≠ .sh o) :
    c.LoadAt f C' b i S := by
  have hsub := h.sublist b hc.site.label
  have hnd := hu.code_nodup hc.site.label
  refine ⟨⟨hc.site.label, hsub.subset hc.site.mem, hc.site.name, hc.site.op⟩, hc.op,
    hc.deferrable, hc.term, hc.before.mono hsub, hc.shadow, hc.shadowOp, fun x hix hxS => ?_⟩
  have hi := hc.site.mem
  have hS := hc.before.mem.2
  by_cases hx : x ∈ C b
  · exact hc.between x (hix.of_sublist hnd hsub hi hx) (hxS.of_sublist hnd hsub hx hS)
  · -- `x` is inserted between the load and its shadow: so is its predecessor
    exfalso
    by_cases hbd : b = d
    · subst hbd
      rw [h.old, List.append_nil] at hi hS hx
      have hxs : x ∈ xs := by
        have := hix.mem.2
        rw [h.new, List.mem_append, List.mem_append] at this
        simp only [List.mem_append, not_or] at hx
        tauto
      obtain ⟨xs₁, xs₂, rfl⟩ := List.append_of_mem hxs
      have hnew : C' b = (l ++ xs₁) ++ x :: (xs₂ ++ r) := by rw [h.new]; simp
      rw [hnew] at hix hxS hnd
      have hil : i ∈ l := by
        rcases List.mem_append.mp ((before_left hnd).mp hix) with hil | hil
        · exact hil
        · rcases List.mem_append.mp hi with hi | hi
          · exact hi
          · refine absurd rfl ((List.nodup_append.mp hnd).2.2 i (List.mem_append_right _ hil) i ?_)
            simp [hi]
      obtain ⟨l', p, rfl⟩ : ∃ l' p, l = l' ++ [p] :=
        (List.eq_nil_or_concat' l).resolve_left (List.ne_nil_of_mem hil)
      obtain ⟨hload, hsh⟩ := hl p (by simp)
      have hSr : S ∈ r := by
        rcases List.mem_append.mp hS with hS | hS
        · exact absurd hxS (Before.asymm hnd ((before_left hnd).mpr (List.mem_append_left _ hS)))
        · exact hS
      rcases List.mem_append.mp hil with hil | hil
      · have hC : C b = l' ++ p :: r := by rw [h.old]; simp
        have hndC : (l' ++ p :: r).Nodup := by
          rw [← hC]
          exact (h.sublist b hc.site.label).nodup (hu.code_nodup hc.site.label)
        obtain ⟨o, ho, -⟩ := hc.between p (by rw [hC]; exact (before_left hndC).mpr hil)
          (by rw [hC]; exact (before_right hndC).mpr hSr)
        exact hsh o ho
      · obtain rfl := List.mem_singleton.mp hil
        exact hload (hc.site.op.trans hc.op)
    · have := hix.mem.2
      rw [h.other b hc.site.label hbd] at this
      exact hx this

end PlacedIn

/-! ### The state before the checks -/

/-- A check or a warning. -/
def Inst.isCheck (x : Inst) : Bool :=
  match x.op with
  | .sh .warning | .sh (.checkBranch _) | .sh (.maybeWarning _) => true
  | _ => false

/-- Every check is in its place, nothing is checked yet, and the terminators stand at the end of
their blocks. -/
structure Prepared (cx : Ctx) (s : St) : Prop where
  unique : Unique cx.f (s.blockCode cx.f) s.next
  placed : ∀ c ∈ s.checks, c.shadow.Avail (Set.Iio s.next) ∧ c.PlacedIn cx.f (s.blockCode cx.f)
  sites : ∀ c ∈ s.checks, c.origIns.isInserted = false
  checkable : ∀ c ∈ s.checks, c.origIns.isPhi = false ∧ c.origIns.isEHPad = false
  pads : ∀ b ∈ cx.f.labels, ∀ x y, Before (s.blockCode cx.f b) x y → y.isEHPad = true →
    x.isInserted = false → x.isPhi = true
  quiet : ∀ b ∈ cx.f.labels, ∀ x ∈ s.blockCode cx.f b, x.isCheck = false
  terms : ∀ b ∈ cx.f.labels, ∃ body t, s.blockCode cx.f b = body ++ [t] ∧
    t.op = (cx.f.terminator b).op ∧ t.isTerminator = true ∧ ∀ x ∈ body, x.isTerminator = false
  kept : ∀ b ∈ cx.f.labels, ∀ i ∈ cx.f.code b, i.isMemIntrinsic = false →
    ∃ i' ∈ s.blockCode cx.f b, i'.name = i.name ∧ i'.op = i.op

section Prepared

variable {cx : Ctx} {s s' : St}

theorem Inst.isCheck_of_plain {x : Inst} {o : ShOp} (hx : x.op = .sh o) (ho : PlainOp o) :
    x.isCheck = false := by
  rw [Inst.isCheck, hx]
  cases o <;> first | rfl | cases ho

theorem Inst.isTerminator_of_sh {x : Inst} {o : ShOp} (hx : x.op = .sh o) :
    x.isTerminator = false := by rw [Inst.isTerminator, hx]

theorem Inst.isInserted_of_isEHPad {x : Inst} (h : x.isEHPad = true) : x.isInserted = false := by
  rw [Inst.isInserted]
  split
  next o ho =>
    rw [Inst.isEHPad, ho] at h
    cases h
  next => rfl

theorem Cfg.terminator_of_eq {f : Cfg} {b : Label} {body : List Inst} {t : Inst}
    (h : f.code b = body ++ [t]) : f.terminator b = t := by
  rw [Cfg.terminator, h]
  simp

/-- The instructions of the source keep their order. -/
theorem Visited.source_before (hs : Visited cx s) {b : Label} {x y : Inst} (hb : b ∈ cx.f.labels)
    (h : Before (s.blockCode cx.f b) x y) (hx : x.isInserted = false)
    (hy : y.isInserted = false) :
    ∃ i j, Before (cx.f.code b) i j ∧ x.op = i.op ∧ y.op = j.op := by
  have hseg : ∀ z ∈ s.blockCode cx.f b, z.isInserted = false →
      ∃ i ∈ cx.f.code b, z ∈ s.seg i.name ∧ z.name = i.name ∧ z.op = i.op := by
    intro z hz hsrc
    rcases List.mem_append.mp hz with hz | hz
    · split_ifs at hz
      · rw [hs.prologue] at hz
        rw [List.mem_singleton.mp hz] at hsrc
        cases hsrc
      · cases hz
    · obtain ⟨i, hi, hz⟩ := List.mem_flatMap.mp hz
      rcases hs.ops b hb i hi z hz with ⟨hname, hop⟩ | ⟨o, ho, -⟩
      · exact ⟨i, hi, hz, hname, hop⟩
      · rw [Inst.isInserted, ho] at hsrc
        cases hsrc
  obtain ⟨i, hi, hxi, hxn, hxo⟩ := hseg x h.mem.1 hx
  obtain ⟨j, hj, hyj, hyn, hyo⟩ := hseg y h.mem.2 hy
  have hnd := hs.unique.code_nodup hb
  rcases before_trichotomy hi hj with rfl | hij | hji
  · obtain rfl := List.inj_on_of_nodup_map (hs.unique.nodup b hb) h.mem.1 h.mem.2
      (hxn.trans hyn.symm)
    exact absurd h (Before.irrefl hnd)
  · exact ⟨i, j, hij, hxo, hyo⟩
  · refine absurd h (Before.asymm hnd ?_)
    exact (before_flatMap hji hyj hxi).mono (List.sublist_append_right _ _)

/-- The state after the visit phase is prepared. -/
theorem Visited.prepared (hwf : cx.f.WellFormed) (hs : Visited cx s) : Prepared cx s := by
  have hop : ∀ b ∈ cx.f.labels, ∀ x ∈ s.blockCode cx.f b, x.isCheck = false ∧
      ((∃ i ∈ cx.f.code b, x.name = i.name ∧ x.op = i.op) ∨ x.isTerminator = false) := by
    intro b hb x hx
    rcases List.mem_append.mp hx with hx | hx
    · split_ifs at hx
      · rw [hs.prologue] at hx
        rw [List.mem_singleton.mp hx]
        exact ⟨rfl, Or.inr rfl⟩
      · cases hx
    · obtain ⟨i, hi, hx⟩ := List.mem_flatMap.mp hx
      have hsrc := hwf.source b hb i hi
      rcases hs.ops b hb i hi x hx with ⟨hname, hop⟩ | ⟨o, ho, hplain | ⟨ls, rfl⟩⟩
      · refine ⟨?_, Or.inl ⟨i, hi, hname, hop⟩⟩
        rw [Inst.isCheck, hop]
        rw [Inst.isInserted] at hsrc
        cases hi' : i.op <;> simp_all
      · exact ⟨Inst.isCheck_of_plain ho hplain, Or.inr (Inst.isTerminator_of_sh ho)⟩
      · exact ⟨by rw [Inst.isCheck, ho], Or.inr (Inst.isTerminator_of_sh ho)⟩
  refine ⟨hs.unique, fun c hc => ⟨(hs.placed c hc).1, (hs.placed c hc).2.placedIn hs.unique⟩,
    fun c hc => ?_, hs.checkable, fun b hb x y hxy hpad hsrc => ?_,
    fun b hb x hx => (hop b hb x hx).1, fun b hb => ?_, fun b hb i hi hm => ?_⟩
  · obtain ⟨-, b, _, _, _, hat, -⟩ := hs.placed c hc
    exact hwf.source b hat.label _ hat.mem
  · obtain ⟨i, j, hij, hi, hj⟩ := hs.source_before hb hxy hsrc (Inst.isInserted_of_isEHPad hpad)
    rw [Inst.isEHPad, hj, ← Inst.isEHPad] at hpad
    rw [Inst.isPhi, hi, ← Inst.isPhi]
    exact hwf.pads b hb i j hij hpad
  · obtain ⟨body, t, hcode, ht, hbody⟩ := cx.f.terminator_last b hb
    have htmem : t ∈ cx.f.code b := by rw [hcode]; simp
    obtain ⟨pre, t', hseg, hname, htop⟩ := hs.terms b hb t htmem ht
    have hC : s.blockCode cx.f b = ((if b = cx.f.entry then s.prologue else []) ++
        (body.flatMap fun i => s.seg i.name) ++ pre) ++ [t'] := by
      rw [St.blockCode, hcode, List.flatMap_append]
      simp [hseg]
    refine ⟨_, t', hC, by rw [Cfg.terminator_of_eq hcode, htop], ?_, fun x hx => ?_⟩
    · rw [Inst.isTerminator, htop]
      exact ht
    · have hxC : x ∈ s.blockCode cx.f b := by rw [hC]; exact List.mem_append_left _ hx
      rcases (hop b hb x hxC).2 with ⟨i, hi, hxi, hxop⟩ | h
      · rw [Inst.isTerminator, hxop]
        rw [hcode] at hi
        rcases List.mem_append.mp hi with hi | hi
        · exact hbody i hi
        · -- the terminator comes last
          have hnd := hs.unique.nodup b hb
          rw [hC, List.map_append] at hnd
          rw [List.mem_singleton.mp hi, ← hname] at hxi
          exact absurd hxi ((List.nodup_append.mp hnd).2.2 _ (List.mem_map_of_mem hx) _ (by simp))
      · exact h
  · obtain ⟨i', hi', h⟩ := hs.kept b hb i hi hm
    exact ⟨i', List.mem_append_right _ (List.mem_flatMap.mpr ⟨i, hi, hi'⟩), h⟩

/-- Plain code may be inserted at the start of a block and after an alloca or a call. -/
theorem Prepared.insert {d : Label} {l xs r : List Inst} (hs : Prepared cx s)
    (h : Replaces cx.f (s.blockCode cx.f) (s'.blockCode cx.f) d l [] xs r)
    (hnum : Numbered PlainOp s.next xs) (hnext : s'.next = s.next + xs.length)
    (hchecks : s'.checks = s.checks)
    (hl : ∀ p, l.getLast? = some p → (∃ t, p.op = .alloca t) ∨ ∃ c, p.op = .call c) :
    Prepared cx s' := by
  have hg := h.grows hs.unique hnum hnext
  refine ⟨hg.unique, fun c hc => ?_, by rw [hchecks]; exact hs.sites,
    by rw [hchecks]; exact hs.checkable, fun b hb x y hxy hpad hsrc => ?_, fun b hb x hx => ?_,
    fun b hb => ?_, fun b hb i hi hm => ?_⟩
  · rw [hchecks] at hc
    obtain ⟨hav, hplaced⟩ := hs.placed c hc
    refine ⟨hav.mono (Set.Iio_subset_Iio hg.next_le), ?_⟩
    rcases hplaced with ⟨b, i, hearly⟩ | ⟨b, i, S, hload⟩
    · exact Or.inl ⟨b, i, hearly.grows hg.toGrows hav⟩
    · refine Or.inr ⟨b, i, S, hload.insert hg.unique h fun p hp => ?_⟩
      rcases hl p hp with ⟨t, ht⟩ | ⟨c, hc⟩
      · simp [ht]
      · simp [hc]
  · have hold : ∀ z ∈ s'.blockCode cx.f b, z.isInserted = false → z ∈ s.blockCode cx.f b := by
      intro z hz hzsrc
      rcases hg.ops b hb z hz with hz | ⟨o, ho, -⟩
      · exact hz
      · rw [Inst.isInserted, ho] at hzsrc
        cases hzsrc
    refine hs.pads b hb x y (hxy.of_sublist (hg.unique.code_nodup hb) (hg.sub b hb)
      (hold x hxy.mem.1 hsrc) (hold y hxy.mem.2 ?_)) hpad hsrc
    exact Inst.isInserted_of_isEHPad hpad
  · by_cases hbd : b = d
    · subst hbd
      have hold := hs.quiet b hb
      rw [h.old, List.append_nil] at hold
      rw [h.new, List.mem_append, List.mem_append] at hx
      rcases hx with (hx | hx) | hx
      · exact hold x (List.mem_append_left _ hx)
      · obtain ⟨o, ho, hplain⟩ := hnum.op hx
        exact Inst.isCheck_of_plain ho hplain
      · exact hold x (List.mem_append_right _ hx)
    · rw [h.other b hb hbd] at hx
      exact hs.quiet b hb x hx
  · obtain ⟨body, t, hC, hop, hterm, hbody⟩ := hs.terms b hb
    by_cases hbd : b = d
    · subst hbd
      have hlr : l ++ r = body ++ [t] := by rw [← hC, h.old, List.append_nil]
      have hr : r ≠ [] := by
        rintro rfl
        rw [List.append_nil] at hlr
        rw [Inst.isTerminator] at hterm
        rcases hl t (by rw [hlr]; simp) with ⟨u, hu⟩ | ⟨c, hc⟩
        · rw [hu] at hterm
          cases hterm
        · rw [hc] at hterm
          cases hterm
      obtain ⟨r', t', rfl⟩ := (List.eq_nil_or_concat' r).resolve_left hr
      rw [← List.append_assoc] at hlr
      obtain ⟨rfl, ht⟩ := List.append_inj' hlr rfl
      obtain rfl : t' = t := by simpa using ht
      refine ⟨l ++ xs ++ r', t', by rw [h.new]; simp, hop, hterm, fun x hx => ?_⟩
      rw [List.mem_append, List.mem_append] at hx
      rcases hx with (hx | hx) | hx
      · exact hbody x (List.mem_append_left _ hx)
      · obtain ⟨o, ho, -⟩ := hnum.op hx
        exact Inst.isTerminator_of_sh ho
      · exact hbody x (List.mem_append_right _ hx)
    · exact ⟨body, t, by rw [h.other b hb hbd]; exact hC, hop, hterm, hbody⟩
  · obtain ⟨i', hi', hi''⟩ := hs.kept b hb i hi hm
    exact ⟨i', (hg.sub b hb).subset hi', hi''⟩

/-- Code is inserted after an instruction of the source. -/
theorem Prepared.insertAfter {d : Label} {i : Inst} {b : Builder} (hs : Prepared cx s)
    (hd : d ∈ cx.f.labels) (hi : i ∈ cx.f.code d)
    (hop : (∃ t, i.op = .alloca t) ∨ ∃ c, i.op = .call c ∧ i.isMemIntrinsic = false)
    (hext : Builder.Ext PlainOp Set.univ 0 ⟨s.next, [], s.cache⟩ b) :
    Prepared cx { s.insertAfter i.name b.out with next := b.next, cache := b.cache } := by
  have hmem : i.isMemIntrinsic = false := by
    rcases hop with ⟨t, ht⟩ | ⟨c, -, hm⟩
    · rw [Inst.isMemIntrinsic, ht]
    · exact hm
  obtain ⟨i', hi', hname, hop'⟩ := hs.kept d hd i hi hmem
  obtain ⟨l, r, hC⟩ := List.append_of_mem hi'
  obtain ⟨xs, hout, hnext, hnum, -⟩ := hext.out
  rw [List.nil_append] at hout
  have hrep : Replaces cx.f (s.blockCode cx.f) ((s.insertAfter i'.name b.out).blockCode cx.f) d
      (l ++ [i']) [] b.out r := St.insertAfter_replaces hs.unique hd hC
  rw [hname] at hrep
  refine Prepared.insert hs hrep ?_ ?_ rfl fun p hp => ?_
  · rw [hout]
    exact hnum
  · rw [hout]
    exact hnext
  · obtain rfl : i' = p := by simpa using hp
    rw [hop']
    rcases hop with halloca | ⟨c, hc, -⟩
    · exact Or.inl halloca
    · exact Or.inr ⟨c, hc⟩

end Prepared

/-! ### Variadic areas and allocas -/

/-- `s'` has the lists and the shadows of `s`: only code changes. -/
def St.EditsCode (s s' : St) : Prop :=
  s' = { s with next := s'.next, seg := s'.seg, prologue := s'.prologue, cache := s'.cache }

theorem St.EditsCode.trans {s s' s'' : St} (h : s.EditsCode s') (h' : s'.EditsCode s'') :
    s.EditsCode s'' := by
  rw [St.EditsCode] at h h' ⊢
  rw [h', h]

theorem St.EditsCode.foldl {α : Type} {step : St → α → St} (h : ∀ s a, St.EditsCode s (step s a))
    (as : List α) (s : St) : St.EditsCode s (as.foldl step s) := by
  induction as generalizing s with
  | nil => rfl
  | cons a as ih => exact (h s a).trans (ih _)

theorem finalizeInstrumentation_editsCode (cx : Ctx) (s : St) :
    s.EditsCode (finalizeInstrumentation cx s) := by
  rw [finalizeInstrumentation]
  split_ifs
  · rfl
  · exact St.EditsCode.trans (by rfl) (St.EditsCode.foldl (fun _ _ => by rfl) _ _)

theorem instrumentAlloca_editsCode (cx : Ctx) (s : St) (ai i : Inst) :
    s.EditsCode (instrumentAlloca cx s ai i) := rfl

theorem instrumentAllocas_editsCode (cx : Ctx) (s : St) : s.EditsCode (instrumentAllocas cx s) :=
  (St.EditsCode.foldl (fun s (p : Inst × Inst) => instrumentAlloca_editsCode cx s p.2 p.1) _
    _).trans (St.EditsCode.foldl (fun s (ai : Inst) => instrumentAlloca_editsCode cx s ai ai) _ _)

section Phases

variable {cx : Ctx} {s : St} {b b' : Builder}

theorem Builder.ext_run {P : ShOp → Prop} {m : Emit Val} (hm : Emit.Ok P Set.univ m) :
    Builder.Ext P Set.univ 0 b (b.run m).2 :=
  (Builder.run_ext (by rw [Set.univ_union]; exact hm)).1

theorem Builder.ext_getShadowPtr (here : List Inst) (addr : Val) :
    Builder.Ext PlainOp Set.univ 0 b (getShadowPtr cx here addr b).2 := by
  refine ((getShadowPtr_ext _ _ _ ?_ ?_ (fun _ _ _ _ _ => Nat.zero_le _)
    fun _ _ _ => Set.mem_univ _).1).weaken plainOp_of_pure
  · rw [Set.univ_union]
    exact addr.avail_univ
  · rw [Set.univ_union]
    exact Val.avail_univ _

theorem Emit.ok_plain {o : ShOp} {args : List Val} {ty : Ty} (ho : PlainOp o) :
    Emit.Ok PlainOp Set.univ (emit o args ty) := Emit.ok_emit ho fun v _ => v.avail_univ

theorem Emit.Ok.bind_univ {P : ShOp → Prop} {m : Emit Val} {k : Val → Emit Val}
    (hm : Emit.Ok P Set.univ m) (hk : ∀ v, Emit.Ok P Set.univ (k v)) :
    Emit.Ok P Set.univ (m >>= k) :=
  hm.bind fun B v hB _ => by
    rw [Set.univ_subset_iff.mp hB]
    exact hk v

theorem Emit.ok_loadVaListField (tag : Val) (off : ℕ) :
    Emit.Ok PlainOp Set.univ (loadVaListField tag off) :=
  .bind_univ (Emit.ok_plain (by rfl)) fun _ => .bind_univ (Emit.ok_plain (by rfl)) fun _ =>
    .bind_univ (Emit.ok_plain (by rfl)) fun _ => Emit.ok_plain (by rfl)

theorem Emit.ok_allocaLen (i : Inst) : Emit.Ok PlainOp Set.univ (allocaLen i) := by
  rw [allocaLen]
  split
  · exact Emit.ok_pure trivial
  · refine .bind_univ ?_ fun _ => Emit.ok_plain (by rfl)
    rw [Site.intCast]
    split_ifs
    · exact Emit.ok_pure (Val.avail_univ _)
    · exact Emit.ok_plain (by rfl)
  · exact Emit.ok_pure trivial

theorem isMemIntrinsic_of_callee {i : Inst} {c : CallInfo} {id : Intrinsic} (hop : i.op = .call c)
    (hc : c.callee = .intrinsic id) : i.isMemIntrinsic = id.isMem := by
  obtain ⟨callee, _, _, _, _, _, _⟩ := c
  obtain rfl : callee = .intrinsic id := hc
  rw [Inst.isMemIntrinsic, hop]

theorem Prepared.finalizeVaStart (hs : Prepared cx s) (overflow : Val) {d : Label} {i : Inst}
    {c : CallInfo} (hd : d ∈ cx.f.labels) (hi : i ∈ cx.f.code d) (hop : i.op = .call c)
    (hc : c.callee = .intrinsic .vaStart) : Prepared cx (finalizeVaStart cx overflow s i) := by
  refine hs.insertAfter hd hi (Or.inr ⟨c, hop, ?_⟩) ?_
  · exact isMemIntrinsic_of_callee hop hc
  · exact (((((Builder.ext_run (Emit.ok_loadVaListField _ _)).trans
      (Builder.ext_getShadowPtr _ _)).trans (Builder.ext_run (Emit.ok_plain rfl))).trans
      (Builder.ext_run (Emit.ok_loadVaListField _ _))).trans
      (Builder.ext_getShadowPtr _ _)).trans (Builder.ext_run (Emit.ok_plain rfl))

theorem Prepared.finalizeInstrumentation (hs : Prepared cx s)
    (hva : ∀ i ∈ s.vaStarts, ∃ d ∈ cx.f.labels, i ∈ cx.f.code d ∧
      ∃ c, i.op = .call c ∧ c.callee = .intrinsic .vaStart) :
    Prepared cx (finalizeInstrumentation cx s) := by
  rw [CQMSan.finalizeInstrumentation]
  split_ifs
  · exact hs
  · let x : Inst := { name := s.next, op := .sh .overflowSizeLoad, args := [], ty := .int 64 }
    let s' : St := { s with next := s.next + 1, prologue := x :: s.prologue }
    have hs' : Prepared cx s' := by
      have hrep : Replaces cx.f (s.blockCode cx.f) (s'.blockCode cx.f) cx.f.entry [] [] [x]
          (s.blockCode cx.f cx.f.entry) := by
        refine ⟨cx.f.entry_mem, rfl, ?_, fun c _ hc => ?_⟩
        · simp [St.blockCode, s']
        · simp [St.blockCode, s', hc]
      exact hs.insert hrep ⟨⟨rfl, _, rfl, rfl⟩, trivial⟩ rfl rfl fun p hp => by cases hp
    suffices h : ∀ (is : List Inst) (t : St), Prepared cx t → (∀ i ∈ is, i ∈ s.vaStarts) →
        Prepared cx (is.foldl (CQMSan.finalizeVaStart cx (.inst s.next (.int 64))) t) from
      h _ _ hs' fun i hi => hi
    intro is
    induction is with
    | nil => exact fun t ht _ => ht
    | cons i is ih =>
      intro t ht his
      obtain ⟨d, hd, hi, c, hop, hc⟩ := hva i (his i List.mem_cons_self)
      exact ih _ (ht.finalizeVaStart _ hd hi hop hc) fun j hj => his j (List.mem_cons_of_mem _ hj)

theorem Prepared.instrumentAlloca (hs : Prepared cx s) (ai : Inst) {d : Label} {i : Inst}
    (hd : d ∈ cx.f.labels) (hi : i ∈ cx.f.code d)
    (hop : (∃ t, i.op = .alloca t) ∨ ∃ c, i.op = .call c ∧ i.isMemIntrinsic = false) :
    Prepared cx (instrumentAlloca cx s ai i) := by
  rw [CQMSan.instrumentAlloca]
  dsimp only
  split
  · exact hs.insertAfter hd hi hop ((Builder.ext_run (Emit.ok_allocaLen ai)).trans
      (Builder.ext_run (Emit.ok_plain rfl)))
  · exact hs.insertAfter hd hi hop (((Builder.ext_run (Emit.ok_allocaLen ai)).trans
      (Builder.ext_getShadowPtr _ _)).trans (Builder.ext_run (Emit.ok_plain rfl)))

/-- A fold of `instrumentAlloca`. -/
theorem Prepared.foldl_instrumentAlloca {α : Type} (ai ins : α → Inst) (ps : List α)
    (hs : Prepared cx s) (hps : ∀ p ∈ ps, ∃ d ∈ cx.f.labels, ins p ∈ cx.f.code d ∧
      ((∃ t, (ins p).op = .alloca t) ∨
        ∃ c, (ins p).op = .call c ∧ (ins p).isMemIntrinsic = false)) :
    Prepared cx (ps.foldl (fun s p => CQMSan.instrumentAlloca cx s (ai p) (ins p)) s) := by
  induction ps generalizing s with
  | nil => exact hs
  | cons p ps ih =>
    obtain ⟨d, hd, hi, hop⟩ := hps p List.mem_cons_self
    exact ih (hs.instrumentAlloca (ai p) hd hi hop) fun q hq => hps q (List.mem_cons_of_mem _ hq)

theorem Prepared.instrumentAllocas (hs : Prepared cx s)
    (hlife : ∀ p ∈ s.lifetimeStartList, ∃ d ∈ cx.f.labels, p.1 ∈ cx.f.code d ∧
      ∃ c, p.1.op = .call c ∧ c.callee = .intrinsic .lifetimeStart)
    (halloca : ∀ i ∈ s.allocaSet, ∃ d ∈ cx.f.labels, i ∈ cx.f.code d ∧ ∃ t, i.op = .alloca t) :
    Prepared cx (instrumentAllocas cx s) := by
  rw [CQMSan.instrumentAllocas]
  refine Prepared.foldl_instrumentAlloca id id _ (Prepared.foldl_instrumentAlloca Prod.snd Prod.fst
    _ hs fun p hp => ?_) fun i hi => ?_
  · split_ifs at hp
    · obtain ⟨d, hd, hi, c, hop, hc⟩ := hlife p hp
      exact ⟨d, hd, hi, Or.inr ⟨c, hop, isMemIntrinsic_of_callee hop hc⟩⟩
    · cases hp
  · obtain ⟨d, hd, hmem, hop⟩ := halloca i (List.mem_filter.mp hi).1
    exact ⟨d, hd, hmem, Or.inl hop⟩

end Phases

/-! ### All the checks are recorded -/

/-- The state when all the checks are recorded, before they are deferred to sinks. -/
def recorded (cx : Ctx) : St :=
  let s := runVisit cx
  let s := s.shadowPhis.foldl (finalizePhi cx) s
  let s := filterPendingReturnChecks cx s
  let s := finalizeInstrumentation cx s
  instrumentAllocas cx s

theorem prepare_eq (cx : Ctx) : prepare cx = remapChecks cx (recorded cx) := rfl

theorem prepare_eq_recorded {cx : Ctx} (h : cx.opts.sinkChecks = false) :
    prepare cx = recorded cx := by
  rw [prepare_eq, remapChecks, h]
  rfl

section Recorded

variable {cx : Ctx}

theorem mem_visitOrder_of_done {done : List Inst}
    (hdone : ∀ i, i ∈ done ↔ i ∈ cx.visitOrder.map Prod.snd) {i : Inst} (hi : i ∈ done) :
    ∃ b ∈ cx.f.labels, cx.f.Reaches cx.f.entry b ∧ i ∈ cx.f.code b := by
  obtain ⟨p, hp, rfl⟩ := List.mem_map.mp ((hdone i).mp hi)
  obtain ⟨hb, hreach, hi, -⟩ := Ctx.mem_visitOrder hp
  exact ⟨p.1, hb, hreach, hi⟩

theorem recorded_prepared (hwf : cx.f.WellFormed) (hlaw : cx.Lawful) :
    Prepared cx (recorded cx) := by
  obtain ⟨done, hdone, hinv, hlist⟩ := runVisit_inv hwf hlaw
  have hre : St.Reargs (runVisit cx)
      ((runVisit cx).shadowPhis.foldl (finalizePhi cx) (runVisit cx)) :=
    foldl_finalizePhi_reargs (runVisit cx).shadowPhis
  have hmem := fun {i : Inst} (hi : i ∈ done) => mem_visitOrder_of_done hdone hi
  have hvisited := (hinv.toVisited.reargs hre).filterPendingReturnChecks hwf fun p hp => by
    rw [hre.rest] at hp
    obtain ⟨hd, hop, harg⟩ := hlist.returns p hp
    exact ⟨hop, harg, hmem hd⟩
  have hva := (hvisited.prepared hwf).finalizeInstrumentation fun i hi => by
    rw [filterPendingReturnChecks, hre.rest] at hi
    obtain ⟨hd, hop⟩ := hlist.vaStarts i hi
    obtain ⟨b, hb, -, hi⟩ := hmem hd
    exact ⟨b, hb, hi, hop⟩
  have hedits := finalizeInstrumentation_editsCode cx
    (filterPendingReturnChecks cx ((runVisit cx).shadowPhis.foldl (finalizePhi cx) (runVisit cx)))
  refine hva.instrumentAllocas (fun p hp => ?_) fun i hi => ?_
  · rw [hedits, filterPendingReturnChecks, hre.rest] at hp
    obtain ⟨hd, hop⟩ := hlist.lifetimes p hp
    obtain ⟨b, hb, -, hi⟩ := hmem hd
    exact ⟨b, hb, hi, hop⟩
  · rw [hedits, filterPendingReturnChecks, hre.rest] at hi
    obtain ⟨hd, hop⟩ := hlist.allocas i hi
    obtain ⟨b, hb, -, hi⟩ := hmem hd
    exact ⟨b, hb, hi, hop⟩

end Recorded

end CQMSan
