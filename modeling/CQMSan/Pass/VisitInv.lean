import CQMSan.Pass.SinkRun
import CQMSan.Pass.VisitLists

/-!
# The code after the visit phase

What the visit phase leaves behind, as far as names go: names are unique, shadows are inserted
instructions or constants, and every check stands in the segment of its site. The shadow of a
check is defined before the site (`Check.Early`), or the check is that of a load and its shadow is
the last instruction of the segment of the load (`Check.AfterLoad`).

The phases between the visit and the materialization of the checks keep this.
-/

namespace CQMSan

/-! ### The order of the visit -/

section DepthFirst

variable {f : Cfg}

theorem depthFirst_nodup (n : ℕ) (stack seen : List Label) :
    (depthFirst f n stack seen).Nodup ∧ ∀ b ∈ depthFirst f n stack seen, b ∉ seen := by
  induction n generalizing stack seen with
  | zero => simp [depthFirst]
  | succ n ih =>
    cases stack with
    | nil => simp [depthFirst]
    | cons b stack =>
      rw [depthFirst]
      split_ifs with hb
      · exact ih stack seen
      · obtain ⟨hnd, hseen⟩ := ih (f.succs b ++ stack) (b :: seen)
        constructor
        · exact List.nodup_cons.mpr ⟨fun h => hseen b h List.mem_cons_self, hnd⟩
        · intro c hc
          rcases List.mem_cons.mp hc with rfl | hc
          · exact hb
          · exact fun h => hseen c hc (List.mem_cons_of_mem _ h)

theorem reaches_of_mem_depthFirst {r : Label} (n : ℕ) (stack seen : List Label)
    (hstack : ∀ b ∈ stack, f.Reaches r b) :
    ∀ b ∈ depthFirst f n stack seen, f.Reaches r b := by
  induction n generalizing stack seen with
  | zero => simp [depthFirst]
  | succ n ih =>
    cases stack with
    | nil => simp [depthFirst]
    | cons b stack =>
      have hrest : ∀ c ∈ stack, f.Reaches r c := fun c hc => hstack c (List.mem_cons_of_mem _ hc)
      rw [depthFirst]
      split_ifs
      · exact ih stack seen hrest
      · intro c hc
        rcases List.mem_cons.mp hc with rfl | hc
        · exact hstack c List.mem_cons_self
        · refine ih (f.succs b ++ stack) (b :: seen) (fun d hd => ?_) c hc
          rcases List.mem_append.mp hd with hd | hd
          · exact (hstack b List.mem_cons_self).tail hd
          · exact hrest d hd

end DepthFirst

section Order

variable {cx : Ctx}

theorem Ctx.mem_blocks {b : Label} (h : b ∈ cx.blocks) :
    b ∈ cx.f.labels ∧ cx.f.Reaches cx.f.entry b := by
  have hreach := reaches_of_mem_depthFirst (f := cx.f) (r := cx.f.entry) _ _ _
    (fun c hc => by rw [List.mem_singleton.mp hc]; exact .refl) b h
  exact ⟨Func.reaches_mem cx.f.entry_mem hreach, hreach⟩

theorem Ctx.mem_visitOrder {p : Label × Inst} (h : p ∈ cx.visitOrder) :
    p.1 ∈ cx.f.labels ∧ cx.f.Reaches cx.f.entry p.1 ∧ p.2 ∈ cx.f.code p.1 ∧
      cx.isNoSanitizeEquivalent p.2 = false := by
  obtain ⟨b, hb, hp⟩ := List.mem_flatMap.mp h
  obtain ⟨i, hi, rfl⟩ := List.mem_map.mp hp
  obtain ⟨hi, hns⟩ := List.mem_filter.mp hi
  obtain ⟨hl, hr⟩ := Ctx.mem_blocks hb
  exact ⟨hl, hr, hi, by simpa using hns⟩

/-- Every instruction is visited once. -/
theorem Ctx.visitOrder_nodup : (cx.visitOrder.map Prod.snd).Nodup := by
  rw [Ctx.visitOrder, List.map_flatMap, List.nodup_flatMap]
  constructor
  · intro b hb
    rw [List.map_map]
    have : (Prod.snd ∘ fun i : Inst => (b, i)) = id := rfl
    rw [this, List.map_id]
    exact (cx.f.code_nodup b (Ctx.mem_blocks hb).1).filter _
  · refine List.Pairwise.imp_of_mem (fun {b c} hb hc hne => ?_) (depthFirst_nodup _ _ _).1
    rw [Function.onFun, List.disjoint_left]
    intro i hi hi'
    rw [List.map_map] at hi hi'
    obtain ⟨j, hj, rfl⟩ := List.mem_map.mp hi
    obtain ⟨k, hk, hkj⟩ := List.mem_map.mp hi'
    obtain rfl : k = j := hkj
    exact hne (Func.block_unique (Ctx.mem_blocks hb).1 (Ctx.mem_blocks hc).1
      (List.mem_filter.mp hj).1 (List.mem_filter.mp hk).1)

/-- Instructions of one block are visited in the order of the block. -/
theorem Ctx.visitOrder_pairwise :
    cx.visitOrder.Pairwise fun p q => ¬ Before (cx.f.code q.1) q.2 p.2 := by
  rw [Ctx.visitOrder, List.pairwise_flatMap]
  constructor
  · intro b hb
    have hnd := cx.f.code_nodup b (Ctx.mem_blocks hb).1
    rw [List.pairwise_map]
    refine List.Pairwise.filter _ (List.pairwise_iff_forall_sublist.mpr fun h => ?_)
    exact Before.asymm hnd h
  · refine List.Pairwise.imp_of_mem (fun {b c} hb hc hne => ?_) (depthFirst_nodup _ _ _).1
    rintro _ hp _ hq hbefore
    obtain ⟨i, hi, rfl⟩ := List.mem_map.mp hp
    obtain ⟨j, hj, rfl⟩ := List.mem_map.mp hq
    exact hne (Func.block_unique (Ctx.mem_blocks hb).1 (Ctx.mem_blocks hc).1
      (List.mem_filter.mp hi).1 hbefore.mem.2)

end Order

/-! ### Where checks stand -/

/-- The value is defined by an instruction of the list. -/
def Val.DefinedIn (v : Val) (xs : List Inst) : Prop := ∃ x ∈ xs, ∃ t, v = .inst x.name t

theorem Val.Avail.not_definedIn {A : Set ℕ} {v : Val} {xs : List Inst} (h : v.Avail A)
    (hxs : ∀ x ∈ xs, x.name ∉ A) : ¬ v.DefinedIn xs := by
  rintro ⟨x, hx, t, rfl⟩
  exact hxs x hx h

namespace Check

variable (f : Func) (s : St) (c : Check) (b : Label) (pre : List Inst) (i : Inst)
  (post : List Inst)

/-- The site of the check is the instruction `i` of block `b`, with the segment
`pre ++ i :: post`. -/
structure At : Prop where
  label : b ∈ f.labels
  mem : c.origIns ∈ f.code b
  seg : s.seg c.origIns.name = pre ++ i :: post
  name : i.name = c.origIns.name
  op : i.op = c.origIns.op

/-- The shadow is not defined at the site or later in the block. -/
structure Early : Prop where
  here : ¬ c.shadow.DefinedIn (i :: post)
  later : ∀ j, Before (f.code b) c.origIns j → ¬ c.shadow.DefinedIn (s.seg j.name)

/-- The check is that of a load, and the shadow is the last instruction of its segment. -/
structure AfterLoad : Prop where
  op : c.origIns.op = .load
  deferrable : c.essential = false
  pre : pre = []
  term : isUnsplittableTerminator (f.terminator b) = false
  shadow : ∃ m S, post = m ++ [S] ∧ c.shadow = S.val ∧ S.op = .sh .load ∧
    ∀ x ∈ m, ∃ o, x.op = .sh o ∧ PureOp o

/-- The two places of a check. -/
def Placed : Prop :=
  ∃ b pre i post, c.At f s b pre i post ∧ (c.Early f s b i post ∨ c.AfterLoad f b pre post)

end Check

/-- The values that a handler may use: those of the source, and all that was inserted so far. -/
def Ctx.usable (cx : Ctx) (s : St) (b : Label) (i : Inst) : Set ℕ :=
  cx.f.availAt b i ∪ Set.Ico cx.bound s.next

/-- What the visit phase leaves behind, and what holds during it. -/
structure Visited (cx : Ctx) (s : St) : Prop where
  unique : Unique cx.f (s.blockCode cx.f) s.next
  bound : cx.bound < s.next
  prologue : s.prologue = (St.init cx).prologue
  shadows : ∀ b ∈ cx.f.labels, ∀ i ∈ cx.f.code b, ∀ sv, s.shadowMap i.name = some sv →
    sv.Avail (cx.usable s b i)
  cache : CacheOk cx.bound s.cache
  kept : ∀ b ∈ cx.f.labels, ∀ i ∈ cx.f.code b, i.isMemIntrinsic = false →
    ∃ i' ∈ s.seg i.name, i'.name = i.name ∧ i'.op = i.op
  ops : ∀ b ∈ cx.f.labels, ∀ i ∈ cx.f.code b, ∀ x ∈ s.seg i.name,
    (x.name = i.name ∧ x.op = i.op) ∨ ∃ o, x.op = .sh o ∧ VisitOp o
  terms : ∀ b ∈ cx.f.labels, ∀ i ∈ cx.f.code b, i.isTerminator = true →
    ∃ pre i', s.seg i.name = pre ++ [i'] ∧ i'.name = i.name ∧ i'.op = i.op
  placed : ∀ c ∈ s.checks, c.shadow.Avail (Set.Iio s.next) ∧ c.Placed cx.f s
  checkable : ∀ c ∈ s.checks, c.origIns.isPhi = false ∧ c.origIns.isEHPad = false

/-- The invariant of the visit phase, when the instructions `done` are visited. -/
structure VisitInv (cx : Ctx) (done : List Inst) (s : St) : Prop extends Visited cx s where
  undone : ∀ b ∈ cx.f.labels, ∀ i ∈ cx.f.code b, i ∉ done → s.seg i.name = [i]
  sites : ∀ c ∈ s.checks, c.origIns ∈ done

section Step

variable {cx : Ctx} {s : St} {b : Label} {i : Inst} {v : Visit} {done : List Inst}

theorem Ctx.lt_bound (hb : b ∈ cx.f.labels) (hi : i ∈ cx.f.code b) : i.name < cx.bound := by
  have hmem : i.name ∈ cx.f.insts.map Inst.name :=
    List.mem_map_of_mem (List.mem_flatMap.mpr ⟨b, hb, hi⟩)
  have hle : ∀ (l : List ℕ) (n : ℕ), n ∈ l → n ≤ l.foldr max 0 := by
    intro l n hn
    induction l with
    | nil => cases hn
    | cons m l ih =>
      rcases List.mem_cons.mp hn with rfl | hn
      · exact le_max_left _ _
      · exact (ih hn).trans (le_max_right _ _)
  exact Nat.lt_succ_of_le (hle _ _ hmem)

/-- The code of a block around one segment. -/
theorem St.blockCode_split {f : Func} (hb : b ∈ f.labels) (hi : i ∈ f.code b) :
    s.blockCode f b = s.codeBefore f b i ++ s.seg i.name ++
      (after i (f.code b)).flatMap fun j => s.seg j.name := by
  obtain ⟨xs, ys, hcode⟩ := List.append_of_mem hi
  have hnd := f.code_nodup b hb
  rw [hcode] at hnd
  rw [St.blockCode, St.codeBefore, hcode, before_eq hnd, after_eq hnd]
  simp

/-- The visit of an instruction changes its segment. -/
theorem St.apply_replaces (hb : b ∈ cx.f.labels) (hi : i ∈ cx.f.code b) :
    Replaces cx.f (s.blockCode cx.f) ((s.apply i v).blockCode cx.f) b (s.codeBefore cx.f b i)
      (s.seg i.name) (v.pre ++ v.self ++ v.post)
      ((after i (cx.f.code b)).flatMap fun j => s.seg j.name) := by
  have hother : ∀ c ∈ cx.f.labels, ∀ j ∈ cx.f.code c, j ≠ i →
      (s.apply i v).seg j.name = s.seg j.name := by
    intro c hc j hj hne
    refine Function.update_of_ne (fun h => ?_) _ _
    exact hne (cx.f.names_nodup c hc b hb j hj i hi h).2
  obtain ⟨xs, ys, hcode⟩ := List.append_of_mem hi
  have hnd := cx.f.code_nodup b hb
  rw [hcode] at hnd
  have hflat : ∀ zs : List Inst, (∀ z ∈ zs, z ∈ cx.f.code b ∧ z ≠ i) →
      (zs.flatMap fun j => (s.apply i v).seg j.name) = zs.flatMap fun j => s.seg j.name := by
    intro zs hzs
    exact List.flatMap_congr fun z hz => hother b hb z (hzs z hz).1 (hzs z hz).2
  refine ⟨hb, St.blockCode_split hb hi, ?_, fun c hc hne => ?_⟩
  · rw [St.blockCode_split hb hi, St.codeBefore, St.codeBefore, hcode, before_eq hnd, after_eq hnd,
      hflat xs, hflat ys]
    · congr 2
      exact Function.update_self _ _ _
    · intro z hz
      refine ⟨by rw [hcode]; simp [hz], ?_⟩
      rintro rfl
      exact (List.nodup_cons.mp (List.nodup_append.mp hnd).2.1).1 hz
    · intro z hz
      refine ⟨by rw [hcode]; simp [hz], ?_⟩
      rintro rfl
      exact (List.nodup_append.mp hnd).2.2 z hz z List.mem_cons_self rfl
  · rw [St.blockCode, St.blockCode]
    congr 1
    refine List.flatMap_congr fun z hz => hother c hc z hz ?_
    rintro rfl
    exact hne (Func.block_unique hc hb hz hi)

theorem availAt_lt {n : ℕ} (hb : b ∈ cx.f.labels) (h : n ∈ cx.f.availAt b i) : n < cx.bound := by
  rcases mem_availAt.mp h with ⟨d, hd, j, hj, -, -, rfl⟩ | ⟨j, hj, -, rfl⟩
  · exact Ctx.lt_bound hd hj
  · exact Ctx.lt_bound hb (mem_of_mem_before hj)

/-- The shadow of a value can be used where the value can. -/
theorem Visited.avail_getShadow (hinv : Visited cx s) (hb : b ∈ cx.f.labels)
    (hreach : cx.f.Reaches cx.f.entry b) {v : Val} (hv : v.Avail (cx.f.availAt b i)) :
    (getShadow cx.opts s.shadowMap v).Avail (cx.usable s b i) := by
  cases v with
  | inst n t =>
    rw [getShadow]
    cases hsh : s.shadowMap n with
    | none => trivial
    | some sv =>
      have hj : ∃ d ∈ cx.f.labels, ∃ j ∈ cx.f.code d, cx.f.Precedes d j b i ∧ j.name = n := by
        rcases mem_availAt.mp hv with ⟨d, hd, j, hj, hdom, -, hn⟩ | ⟨j, hj, -, hn⟩
        · exact ⟨d, hd, j, hj, Or.inl hdom, hn⟩
        · exact ⟨b, hb, j, mem_of_mem_before hj, Or.inr ⟨rfl, hj⟩, hn⟩
      obtain ⟨d, hd, j, hj, hpre, rfl⟩ := hj
      exact (hinv.shadows d hd j hj sv hsh).mono
        (Set.union_subset_union_left _ (hpre.availAt_subset hd hreach))
  | undef t =>
    rw [getShadow]
    split_ifs <;> trivial
  | _ => trivial

theorem VisitInv.visitOk (hwf : cx.f.WellFormed) (hlaw : cx.Lawful) (hinv : VisitInv cx done s)
    (hb : b ∈ cx.f.labels) (hreach : cx.f.Reaches cx.f.entry b) (hi : i ∈ cx.f.code b)
    (slice : List Val) :
    VisitOk ⟨cx, slice, s, s.codeBefore cx.f b i⟩ (cx.f.terminator b) i (cx.usable s b i) cx.bound
      (Site.process ⟨cx, slice, s, s.codeBefore cx.f b i⟩ (cx.f.terminator b) i) := by
  have hname := Ctx.lt_bound hb hi
  cases hphi : i.isPhi with
  | true =>
    obtain ⟨ls, hls⟩ : ∃ ls, i.op = .phi ls := by
      have hsrc := hwf.source b hb i hi
      rw [Inst.isPhi] at hphi
      rw [Inst.isInserted] at hsrc
      split at hphi
      next ls h => exact ⟨ls, h⟩
      next ls h => rw [h] at hsrc; cases hsrc
      next => cases hphi
    exact visitOk_process_phi hinv.cache hls
  | false =>
    have harg : ∀ v, IsArg i v → v.Avail (cx.f.availAt b i) := by
      rintro v (hv | ⟨t, rfl⟩)
      · refine hwf.uses b hb hreach i hi hphi v ?_
        rw [Inst.operands]
        split
        · exact List.mem_append_left _ hv
        · exact hv
      · trivial
    refine visitOk_process ⟨fun v hv => (harg v hv).mono Set.subset_union_left, fun v hv => ?_,
      fun v hv => ?_, hinv.bound.le, hinv.cache, fun x hx hN => ?_⟩ hname
    · exact hinv.toVisited.avail_getShadow hb hreach (harg v hv)
    · exact (hwf.computedFrom hb hreach (harg v hv) (hlaw.pointerBase v)).mono
        Set.subset_union_left
    · refine Or.inr ⟨hN, hinv.unique.lt b hb x ?_⟩
      rw [St.blockCode_split hb hi]
      exact List.mem_append_left _ (List.mem_append_left _ hx)

theorem usable_mono {s' : St} (h : s.next ≤ s'.next) : cx.usable s b i ⊆ cx.usable s' b i :=
  Set.union_subset_union_right _ (Set.Ico_subset_Ico_right h)

/-- The names of a segment: one old name between fresh ones. -/
private theorem nodup_segment {P : ShOp → Prop} {pre self post : List Inst} {n m : ℕ}
    (hnum : Numbered P n (pre ++ post)) (hself : self = [] ∨ ∃ y, self = [y] ∧ y.name = m)
    (hm : m < n) : ((pre ++ self ++ post).map Inst.name).Nodup := by
  have hnd := hnum.nodup
  rcases hself with rfl | ⟨y, rfl, hy⟩
  · rw [List.append_nil]
    exact hnd
  · have hperm : (pre ++ [y] ++ post).Perm (y :: (pre ++ post)) := by
      rw [List.append_assoc]
      exact List.perm_middle
    refine (hperm.map Inst.name).nodup_iff.mpr ?_
    rw [List.map_cons, List.nodup_cons]
    refine ⟨fun h => ?_, hnd⟩
    obtain ⟨x, hx, hxy⟩ := List.mem_map.mp h
    have := (hnum.name_bounds hx).1
    omega

/-- An instruction that comes later in the block, or the instruction itself, is not available. -/
theorem not_mem_usable (hb : b ∈ cx.f.labels) {j : Inst} (hj : j ∈ cx.f.code b)
    (h : j = i ∨ Before (cx.f.code b) i j) : j.name ∉ cx.usable s b i := by
  have hlt := Ctx.lt_bound hb hj
  rintro (hav | ⟨hle, -⟩)
  · rcases precedes_of_mem hb hb hj hav with hdom | ⟨-, hbefore⟩
    · exact hdom.1 rfl
    · have hi : i ∈ cx.f.code b := by
        rcases h with rfl | h
        · exact hj
        · exact h.mem.1
      obtain ⟨xs, ys, hcode⟩ := List.append_of_mem hi
      have hnd := cx.f.code_nodup b hb
      rw [hcode] at hnd hbefore h
      rw [before_eq hnd] at hbefore
      rcases h with rfl | h
      · exact (List.nodup_append.mp hnd).2.2 j hbefore j List.mem_cons_self rfl
      · have hji : Before (xs ++ i :: ys) j i := by
          obtain ⟨l, r, rfl⟩ := List.append_of_mem hbefore
          exact before_iff.mpr ⟨l, r ++ i :: ys, by simp, by simp⟩
        exact Before.asymm hnd hji h
  · omega

/-- Nothing is emitted after a terminator. -/
theorem process_terminator {si : Site} {term : Inst} (hi : i.isTerminator = true) :
    (si.process term i).post = [] := by
  have htransfer : si.isUndefSliceTransfer i = false := by
    rw [Site.isUndefSliceTransfer, isTransferClass]
    rw [Inst.isTerminator] at hi
    cases hop : i.op <;> simp_all
  have hcall : ∀ c, (si.visitCallBase c i).post = [] := by
    intro c
    rw [Site.visitCallBase]
    split
    · split <;> rfl
    · rw [if_neg (by simp [hi])]
      split <;> rfl
    · rfl
  have hret : (si.visitReturnInst i).post = [] := by
    rw [Site.visitReturnInst]
    split
    · split
      · rfl
      · generalize (if si.opts.checkReturns then _ else _ : Bool) = r
        cases r <;> rfl
    · rfl
  have hvisit : (si.visit term i).post = [] := by
    rw [Inst.isTerminator] at hi
    rw [Site.visit]
    split at hi <;> rename_i hop
    all_goals first
      | exact absurd hi Bool.false_ne_true
      | (simp only [hop]; exact hret)
      | (simp only [hop]; exact hcall _)
      | (simp only [hop]; rfl)
  rw [Site.process, htransfer]
  split
  · exact hvisit
  · exact hvisit

/-- Nothing is checked at a PHI or an exception pad. -/
theorem process_checks {si : Site} {term : Inst} (hsrc : i.isInserted = false)
    (h : (si.process term i).checks ≠ []) : i.isPhi = false ∧ i.isEHPad = false := by
  have hnone : isTransferClass i = false → si.checkUndefSliceSinks i = [] →
      (si.visit term i).checks = [] → (si.process term i).checks = [] := by
    intro hclass hsinks hvisit
    rw [Site.process, Site.isUndefSliceTransfer, hclass, Bool.and_false,
      if_neg Bool.false_ne_true]
    split_ifs
    · exact hvisit
    · dsimp only
      rw [hsinks, hvisit, List.append_nil]
  have hop : ∀ {o}, i.op = o → o ≠ .landingPad ∧ o ≠ .catchPad ∧ o ≠ .cleanupPad ∧
      (∀ toCaller, o ≠ .catchSwitch toCaller) ∧ ∀ ls, o ≠ .phi ls := by
    rintro o ho
    refine ⟨?_, ?_, ?_, fun _ => ?_, fun _ => ?_⟩
    all_goals
      rintro rfl
      refine h (hnone ?_ ?_ ?_)
      · rw [isTransferClass, ho]
      · rw [Site.checkUndefSliceSinks, ho]
      · rw [Site.visit, ho]
        rfl
  obtain ⟨h₁, h₂, h₃, h₄, h₅⟩ := hop rfl
  rw [Inst.isInserted] at hsrc
  rw [Inst.isPhi, Inst.isEHPad]
  cases ho : i.op with
  | sh o =>
    rw [ho] at hsrc
    cases hsrc
  | phi ls => exact absurd ho (h₅ ls)
  | landingPad => exact absurd ho h₁
  | catchPad => exact absurd ho h₂
  | cleanupPad => exact absurd ho h₃
  | catchSwitch toCaller => exact absurd ho (h₄ toCaller)
  | _ => exact ⟨rfl, rfl⟩

variable {slice : List Val}

theorem St.seg_apply_self : (s.apply i v).seg i.name = v.pre ++ v.self ++ v.post :=
  Function.update_self _ _ _

/-- What is common to the lemmas about one step: the handler of an instruction not yet visited did
what a handler does. -/
structure StepOk (cx : Ctx) (done : List Inst) (slice : List Val) (s : St) (b : Label) (i : Inst)
    (v : Visit) : Prop where
  inv : VisitInv cx done s
  label : b ∈ cx.f.labels
  mem : i ∈ cx.f.code b
  undone : i ∉ done
  later : ∀ j ∈ done, ¬ Before (cx.f.code b) i j
  visit : VisitOk ⟨cx, slice, s, s.codeBefore cx.f b i⟩ (cx.f.terminator b) i (cx.usable s b i)
    cx.bound v

namespace StepOk

variable (h : StepOk cx done slice s b i v)

include h

theorem next_le : s.next ≤ v.next := by
  rw [h.visit.next]
  exact Nat.le_add_right _ _

/-- What remains of the instruction has its name. -/
theorem self_name {x : Inst} (hx : x ∈ v.self) : x.name = i.name ∧ x.op = i.op := by
  rcases h.visit.self with ⟨hself, -, -⟩ | ⟨i', hself, hi'⟩
  · rw [hself] at hx
    cases hx
  · rw [hself, List.mem_singleton] at hx
    rw [hx]
    exact hi'

/-- What is emitted has new names. -/
theorem fresh {x : Inst} (hx : x ∈ v.pre ++ v.post) : s.next ≤ x.name ∧ x.name < v.next := by
  rw [h.visit.next]
  exact h.visit.numbered.name_bounds hx

theorem seg_other {d : Label} (hd : d ∈ cx.f.labels) {j : Inst} (hj : j ∈ cx.f.code d)
    (hne : j ≠ i) : (s.apply i v).seg j.name = s.seg j.name := by
  refine Function.update_of_ne (fun hji => ?_) _ _
  exact hne (cx.f.names_nodup d hd b h.label j hj i h.mem hji).2

theorem unique_apply :
    Unique cx.f ((s.apply i v).blockCode cx.f) (s.apply i v).next := by
  have hself : v.self = [] ∨ ∃ y, v.self = [y] ∧ y.name = i.name := by
    rcases h.visit.self with ⟨hself, -, -⟩ | ⟨i', hself, hname, -⟩
    · exact Or.inl hself
    · exact Or.inr ⟨i', hself, hname⟩
  refine Unique.replace (St.apply_replaces h.label h.mem) h.inv.unique h.next_le
    (nodup_segment h.visit.numbered hself ((Ctx.lt_bound h.label h.mem).trans h.inv.bound))
    fun x hx => ?_
  rw [List.mem_append, List.mem_append] at hx
  rcases hx with (hx | hx) | hx
  · exact Or.inr (h.fresh (List.mem_append_left _ hx))
  · refine Or.inl ⟨i, ?_, (h.self_name hx).1.symm⟩
    rw [h.inv.undone b h.label i h.mem h.undone]
    exact List.mem_singleton_self i
  · exact Or.inr (h.fresh (List.mem_append_right _ hx))

theorem shadows_apply : ∀ d ∈ cx.f.labels, ∀ j ∈ cx.f.code d, ∀ sv,
    (s.apply i v).shadowMap j.name = some sv → sv.Avail (cx.usable (s.apply i v) d j) := by
  intro d hd j hj sv hsv
  have hmono : cx.usable s d j ⊆ cx.usable (s.apply i v) d j := usable_mono h.next_le
  have hcases : (v.shadow = some sv ∧ j = i) ∨ s.shadowMap j.name = some sv := by
    simp only [St.apply] at hsv
    cases hsh : v.shadow with
    | none =>
      rw [hsh] at hsv
      exact Or.inr hsv
    | some sv' =>
      rw [hsh] at hsv
      by_cases hji : j.name = i.name
      · simp only [hji, Function.update_self] at hsv
        exact Or.inl ⟨hsv, (cx.f.names_nodup d hd b h.label j hj i h.mem hji).2⟩
      · simp only [Function.update_of_ne hji] at hsv
        exact Or.inr hsv
  rcases hcases with ⟨hsh, rfl⟩ | hsh
  · obtain rfl := Func.block_unique hd h.label hj h.mem
    refine (h.visit.shadow sv hsh).mono (Set.union_subset hmono ?_)
    rintro _ ⟨x, hx, rfl⟩
    obtain ⟨h1, h2⟩ := h.fresh hx
    exact Or.inr ⟨h.inv.bound.le.trans h1, h2⟩
  · exact (h.inv.shadows d hd j hj sv hsh).mono hmono

theorem kept_apply : ∀ d ∈ cx.f.labels, ∀ j ∈ cx.f.code d, j.isMemIntrinsic = false →
    ∃ j' ∈ (s.apply i v).seg j.name, j'.name = j.name ∧ j'.op = j.op := by
  intro d hd j hj hmem
  by_cases hne : j = i
  · subst hne
    rw [St.seg_apply_self]
    rcases h.visit.self with ⟨-, hself, -⟩ | ⟨i', hself, hi'⟩
    · rw [hmem] at hself
      cases hself
    · exact ⟨i', by simp [hself], hi'⟩
  · rw [h.seg_other hd hj hne]
    exact h.inv.kept d hd j hj hmem

theorem ops_apply : ∀ d ∈ cx.f.labels, ∀ j ∈ cx.f.code d, ∀ x ∈ (s.apply i v).seg j.name,
    (x.name = j.name ∧ x.op = j.op) ∨ ∃ o, x.op = .sh o ∧ VisitOp o := by
  intro d hd j hj x hx
  by_cases hne : j = i
  · subst hne
    rw [St.seg_apply_self, List.mem_append, List.mem_append] at hx
    rcases hx with (hx | hx) | hx
    · exact Or.inr (h.visit.numbered.op (List.mem_append_left _ hx))
    · exact Or.inl (h.self_name hx)
    · exact Or.inr (h.visit.numbered.op (List.mem_append_right _ hx))
  · rw [h.seg_other hd hj hne] at hx
    exact h.inv.ops d hd j hj x hx

theorem terms_apply (hpost : i.isTerminator = true → v.post = []) :
    ∀ d ∈ cx.f.labels, ∀ j ∈ cx.f.code d, j.isTerminator = true →
      ∃ pre j', (s.apply i v).seg j.name = pre ++ [j'] ∧ j'.name = j.name ∧ j'.op = j.op := by
  intro d hd j hj hterm
  by_cases hne : j = i
  · subst hne
    rcases h.visit.self with ⟨-, hmem, -⟩ | ⟨i', hself, hi'⟩
    · rw [Inst.isMemIntrinsic] at hmem
      rw [Inst.isTerminator] at hterm
      cases hop : j.op <;> simp_all
    · exact ⟨v.pre, i', by rw [St.seg_apply_self, hself, hpost hterm, List.append_nil], hi'⟩
  · rw [h.seg_other hd hj hne]
    exact h.inv.terms d hd j hj hterm

/-- An earlier check keeps its place: its shadow is not defined by what is emitted now. -/
theorem placed_old {c : Check} (hc : c ∈ s.checks) : c.Placed cx.f (s.apply i v) := by
  obtain ⟨hav, d, pre, i', post, hat, hplace⟩ := h.inv.placed c hc
  have hne : c.origIns ≠ i := fun hci => h.undone (hci ▸ h.inv.sites c hc)
  refine ⟨d, pre, i', post, ⟨hat.label, hat.mem, ?_, hat.name, hat.op⟩, ?_⟩
  · rw [h.seg_other hat.label hat.mem hne]
    exact hat.seg
  · rcases hplace with hearly | hload
    · refine Or.inl ⟨hearly.here, fun j hj => ?_⟩
      by_cases hji : j = i
      · subst hji
        have hlast := hearly.later j hj
        rw [h.inv.undone b h.label j h.mem h.undone] at hlast
        rw [St.seg_apply_self]
        rintro ⟨x, hx, t, hxt⟩
        have hold : x ∉ v.pre ++ v.post := by
          intro hx
          rw [hxt] at hav
          exact absurd hav (not_lt.mpr (h.fresh hx).1)
        rw [List.mem_append, List.mem_append] at hx
        rcases hx with (hx | hx) | hx
        · exact hold (List.mem_append_left _ hx)
        · exact hlast ⟨j, List.mem_cons_self, t, by rw [hxt, (h.self_name hx).1]⟩
        · exact hold (List.mem_append_right _ hx)
      · rw [h.seg_other hat.label hj.mem.2 hji]
        exact hearly.later j hj
    · exact Or.inr hload

/-- The shadow of a new check that is available before the instruction is not defined at it or
later in the block. -/
theorem early_new {c : Check} {i' : Inst} (hc : c.origIns = i) (hself : v.self = [i'])
    (hname : i'.name = i.name) (hav : c.shadow.Avail (cx.usable s b i ∪ names v.pre)) :
    c.Early cx.f (s.apply i v) b i' v.post := by
  have hbound := h.inv.bound
  have hpre : ∀ y ∈ v.pre, s.next ≤ y.name := fun y hy =>
    (h.fresh (List.mem_append_left _ hy)).1
  constructor
  · refine hav.not_definedIn fun x hx => ?_
    rcases List.mem_cons.mp hx with rfl | hx
    · rw [hname]
      rintro (hu | ⟨y, hy, hyi⟩)
      · exact not_mem_usable h.label h.mem (Or.inl rfl) hu
      · have := hpre y hy
        have := Ctx.lt_bound h.label h.mem
        omega
    · have hx1 := (h.fresh (List.mem_append_right _ hx)).1
      rintro ((hu | hu) | ⟨y, hy, hyx⟩)
      · have := availAt_lt h.label hu
        omega
      · exact absurd hu.2 (not_lt.mpr hx1)
      · have hnd := h.visit.numbered.nodup
        rw [List.map_append] at hnd
        exact (List.nodup_append.mp hnd).2.2 _ (List.mem_map_of_mem hy) _
          (List.mem_map_of_mem hx) hyx
  · rw [hc]
    intro j hj
    have hji : j ≠ i := by
      rintro rfl
      exact Before.irrefl (cx.f.code_nodup b h.label) hj
    rw [h.seg_other h.label hj.mem.2 hji,
      h.inv.undone b h.label j hj.mem.2 fun hjd => h.later j hjd hj]
    refine hav.not_definedIn fun x hx => ?_
    rw [List.mem_singleton.mp hx]
    rintro (hu | ⟨y, hy, hyj⟩)
    · exact not_mem_usable h.label hj.mem.2 (Or.inr hj) hu
    · have := hpre y hy
      have := Ctx.lt_bound h.label hj.mem.2
      omega

/-- A new check stands in the segment of the instruction. -/
theorem placed_new {p : Val × Bool} (hp : p ∈ v.checks) :
    p.1.Avail (Set.Iio v.next) ∧ Check.Placed cx.f (s.apply i v) ⟨p.1, i, p.2⟩ := by
  obtain ⟨i', hself, hname, hop⟩ : ∃ i', v.self = [i'] ∧ i'.name = i.name ∧ i'.op = i.op := by
    rcases h.visit.self with ⟨-, -, hnone⟩ | hself
    · rw [hnone] at hp
      cases hp
    · exact hself
  have hat : Check.At cx.f (s.apply i v) ⟨p.1, i, p.2⟩ b v.pre i' v.post :=
    ⟨h.label, h.mem, by rw [St.seg_apply_self, hself]; simp, hname, hop⟩
  rcases h.visit.checks p hp with hav | hload
  · refine ⟨hav.mono ?_, b, v.pre, i', v.post, hat, Or.inl (h.early_new rfl hself hname hav)⟩
    rintro n ((hn | hn) | ⟨x, hx, rfl⟩)
    · exact (availAt_lt h.label hn).trans (h.inv.bound.trans_le h.next_le)
    · exact hn.2.trans_le h.next_le
    · exact (h.fresh (List.mem_append_left _ hx)).2
  · obtain ⟨hload, hess, hpre, -, hterm, m, S, hpost, hS, hops⟩ := hload
    refine ⟨?_, b, v.pre, i', v.post, hat, Or.inr ⟨hload, hess, hpre, hterm, m, S, hpost, hS, hops⟩⟩
    rw [hS]
    exact (h.fresh (x := S) (by rw [hpost]; simp)).2

end StepOk

theorem VisitInv.step (hwf : cx.f.WellFormed) (hlaw : cx.Lawful) (hinv : VisitInv cx done s)
    (hb : b ∈ cx.f.labels) (hreach : cx.f.Reaches cx.f.entry b) (hi : i ∈ cx.f.code b)
    (hdone : i ∉ done) (hlater : ∀ j ∈ done, ¬ Before (cx.f.code b) i j) :
    VisitInv cx (i :: done) (visitStep cx slice s (b, i)) := by
  have hv := hinv.visitOk hwf hlaw hb hreach hi slice
  have h : StepOk cx done slice s b i _ := ⟨hinv, hb, hi, hdone, hlater, hv⟩
  refine ⟨⟨h.unique_apply, hinv.bound.trans_le h.next_le, hinv.prologue, h.shadows_apply, hv.cache,
    h.kept_apply, h.ops_apply, h.terms_apply process_terminator, fun c hc => ?_, fun c hc => ?_⟩,
    fun d hd j hj hjd => ?_, fun c hc => ?_⟩
  · rcases List.mem_append.mp hc with hc | hc
    · exact ⟨(hinv.placed c hc).1.mono (Set.Iio_subset_Iio h.next_le), h.placed_old hc⟩
    · obtain ⟨p, hp, rfl⟩ := List.mem_map.mp hc
      exact h.placed_new hp
  · rcases List.mem_append.mp hc with hc | hc
    · exact hinv.checkable c hc
    · obtain ⟨p, hp, rfl⟩ := List.mem_map.mp hc
      exact process_checks (hwf.source b hb i hi) (List.ne_nil_of_mem hp)
  · have hne : j ≠ i := fun hji => hjd (hji ▸ List.mem_cons_self)
    rw [visitStep, h.seg_other hd hj hne]
    exact hinv.undone d hd j hj fun hd => hjd (List.mem_cons_of_mem _ hd)
  · rcases List.mem_append.mp hc with hc | hc
    · exact List.mem_cons_of_mem _ (hinv.sites c hc)
    · obtain ⟨p, -, rfl⟩ := List.mem_map.mp hc
      exact List.mem_cons_self

end Step

/-! ### The whole phase -/

section Run

variable {cx : Ctx}

theorem St.seg_init {b : Label} {i : Inst} (hb : b ∈ cx.f.labels) (hi : i ∈ cx.f.code b) :
    (St.init cx).seg i.name = [i] := by
  have hmem : i ∈ cx.f.insts := List.mem_flatMap.mpr ⟨b, hb, hi⟩
  change (cx.f.insts.find? (·.name = i.name)).toList = [i]
  cases hfind : cx.f.insts.find? (·.name = i.name) with
  | none =>
    have := List.find?_eq_none.mp hfind i hmem
    simp at this
  | some j =>
    obtain ⟨d, hd, hj⟩ := List.mem_flatMap.mp (List.mem_of_find?_eq_some hfind)
    have hname : j.name = i.name := by simpa using List.find?_some hfind
    rw [(cx.f.names_nodup d hd b hb j hj i hi hname).2]
    rfl

theorem St.blockCode_init {b : Label} (hb : b ∈ cx.f.labels) :
    (St.init cx).blockCode cx.f b =
      (if b = cx.f.entry then (St.init cx).prologue else []) ++ cx.f.code b := by
  rw [St.blockCode]
  congr 1
  rw [List.flatMap_congr fun i hi => St.seg_init hb hi]
  simp

theorem VisitInv.init : VisitInv cx [] (St.init cx) := by
  have hp : ∀ {b : Label} {x : Inst}, x ∈ (if b = cx.f.entry then (St.init cx).prologue else []) →
      x.name = cx.bound ∧ b = cx.f.entry := by
    intro b x hx
    split_ifs at hx with hb
    · exact ⟨by rw [List.mem_singleton.mp hx]; rfl, hb⟩
    · cases hx
  refine ⟨⟨⟨fun b hb => ?_, fun b hb c hc x hx y hy hxy => ?_, fun b hb x hx => ?_⟩,
    Nat.lt_succ_self _, rfl, fun _ _ _ _ _ h => (nomatch h), fun _ h => absurd h List.not_mem_nil,
    fun b hb i hi _ => ?_, fun b hb i hi x hx => ?_,
    fun b hb i hi _ => ⟨[], i, St.seg_init hb hi, rfl, rfl⟩,
    fun c hc => absurd hc List.not_mem_nil, fun c hc => absurd hc List.not_mem_nil⟩,
    fun b hb i hi _ => St.seg_init hb hi, fun c hc => absurd hc List.not_mem_nil⟩
  · rw [St.blockCode_init hb, List.map_append]
    refine List.nodup_append.mpr ⟨?_, ?_, fun n hn m hm hnm => ?_⟩
    · split_ifs
      · simp [St.init]
      · simp
    · refine List.Nodup.map_on (fun i hi j hj h => ?_) (cx.f.code_nodup b hb)
      exact (cx.f.names_nodup b hb b hb i hi j hj h).2
    · obtain ⟨x, hx, rfl⟩ := List.mem_map.mp hn
      obtain ⟨i, hi, rfl⟩ := List.mem_map.mp hm
      have := Ctx.lt_bound hb hi
      have := (hp hx).1
      omega
  · rw [St.blockCode_init hb] at hx
    rw [St.blockCode_init hc] at hy
    rcases List.mem_append.mp hx with hx | hx
    · rcases List.mem_append.mp hy with hy | hy
      · rw [(hp hx).2, (hp hy).2]
      · have := Ctx.lt_bound hc hy
        have := (hp hx).1
        omega
    · rcases List.mem_append.mp hy with hy | hy
      · have := Ctx.lt_bound hb hx
        have := (hp hy).1
        omega
      · exact (cx.f.names_nodup b hb c hc x hx y hy hxy).1
  · rw [St.blockCode_init hb] at hx
    rcases List.mem_append.mp hx with hx | hx
    · rw [(hp hx).1]
      exact Nat.lt_succ_self _
    · exact (Ctx.lt_bound hb hx).trans (Nat.lt_succ_self _)
  · exact ⟨i, by rw [St.seg_init hb hi]; simp, rfl, rfl⟩
  · rw [St.seg_init hb hi, List.mem_singleton] at hx
    exact Or.inl (by rw [hx]; exact ⟨rfl, rfl⟩)

theorem ListInv.init : ListInv cx.opts [] (St.init cx) := by
  constructor <;> exact fun _ h => absurd h List.not_mem_nil

/-- The visit of the rest of the instructions. -/
private theorem foldl_visitStep (hwf : cx.f.WellFormed) (hlaw : cx.Lawful) (slice : List Val)
    (ys : List (Label × Inst)) (xs : List (Label × Inst)) (done : List Inst) (s : St)
    (horder : cx.visitOrder = xs ++ ys) (hdone : ∀ i, i ∈ done ↔ i ∈ xs.map Prod.snd)
    (hinv : VisitInv cx done s) (hlist : ListInv cx.opts done s) :
    ∃ done', (∀ i, i ∈ done' ↔ i ∈ cx.visitOrder.map Prod.snd) ∧
      VisitInv cx done' (ys.foldl (visitStep cx slice) s) ∧
      ListInv cx.opts done' (ys.foldl (visitStep cx slice) s) := by
  induction ys generalizing xs done s with
  | nil =>
    rw [List.append_nil] at horder
    exact ⟨done, by rw [horder]; exact hdone, hinv, hlist⟩
  | cons p ys ih =>
    obtain ⟨b, i⟩ := p
    have hp : (b, i) ∈ cx.visitOrder := by
      rw [horder]
      simp
    obtain ⟨hb, hreach, hi, -⟩ := Ctx.mem_visitOrder hp
    have hnd := cx.visitOrder_nodup
    have hpair := cx.visitOrder_pairwise
    rw [horder] at hnd hpair
    have hid : i ∉ done := by
      rw [hdone]
      intro h
      rw [List.map_append, List.map_cons] at hnd
      exact (List.nodup_append.mp hnd).2.2 i h i List.mem_cons_self rfl
    have hlater : ∀ j ∈ done, ¬ Before (cx.f.code b) i j := by
      intro j hj
      obtain ⟨q, hq, rfl⟩ := List.mem_map.mp ((hdone j).mp hj)
      exact (List.pairwise_append.mp hpair).2.2 q hq (b, i) List.mem_cons_self
    have hlisted : Visit.Listed cx.opts i (Site.process ⟨cx, slice, s, s.codeBefore cx.f b i⟩
        (cx.f.terminator b) i) :=
      @listed_process ⟨cx, slice, s, s.codeBefore cx.f b i⟩ i (cx.f.terminator b)
    refine ih (xs ++ [(b, i)]) (i :: done) _ (by simpa using horder) (fun j => ?_)
      (hinv.step hwf hlaw hb hreach hi hid hlater) (hlist.step hlisted)
    rw [List.mem_cons, hdone, List.map_append, List.mem_append, or_comm]
    simp

/-- **The invariant of the visit phase.** -/
theorem runVisit_inv (hwf : cx.f.WellFormed) (hlaw : cx.Lawful) :
    ∃ done, (∀ i, i ∈ done ↔ i ∈ cx.visitOrder.map Prod.snd) ∧ VisitInv cx done (runVisit cx) ∧
      ListInv cx.opts done (runVisit cx) :=
  foldl_visitStep hwf hlaw _ _ [] [] _ rfl (by simp) VisitInv.init ListInv.init

end Run

end CQMSan
