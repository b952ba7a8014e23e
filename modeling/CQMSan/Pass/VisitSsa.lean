import CQMSan.Pass.Order

/-!
# The visit phase keeps definitions before uses

What one handler does is described by `VisitOk`: from the values available before the instruction
it emits closed code, sets a shadow that is available after the instruction, and pushes checks of
shadows that are available before it; the shadow of a load stands right after the load. The
visit of the whole function then keeps the invariant `VisitInv`.

What is assumed of the source is `Func.WellFormed`, the dominance of uses by definitions. Of LLVM's
answers, `Ctx.Lawful` asks that the base of a pointer is found among the operands the pointer is
computed from, and that the alloca behind a pointer dominates its uses.
-/

namespace CQMSan

/-! ### The source -/

/-- The place of `i` in block `b` comes after that of `j` in block `d`, on every path. -/
def Func.Precedes (f : Func) (d : Label) (j : Inst) (b : Label) (i : Inst) : Prop :=
  f.SDom d b ∨ d = b ∧ j ∈ before i (f.code b)

/-- The values available before the instruction `i` of block `b`. -/
def Func.availAt (f : Func) (b : Label) (i : Inst) : Set ℕ :=
  availIn f f.code b ∪ defs (before i (f.code b))

/-- What the verifier of the IR checks of a function in SSA form. -/
structure Func.WellFormed (f : Func) : Prop where
  /-- The source has no inserted instruction. -/
  source : ∀ b ∈ f.labels, ∀ i ∈ f.code b, i.isInserted = false
  /-- A definition dominates its uses. -/
  uses : ∀ b ∈ f.labels, f.Reaches f.entry b → ∀ i ∈ f.code b, i.isPhi = false →
    ∀ v ∈ i.operands, v.Avail (f.availAt b i)
  /-- A definition dominates the end of the incoming block where a PHI uses it. -/
  phis : ∀ b ∈ f.labels, f.Reaches f.entry b → ∀ i ∈ f.code b, ∀ ls, i.op = .phi ls →
    ∀ a ∈ i.args.zip ls, f.Reaches f.entry a.2 → a.1.Avail (availOut f f.code a.2)
  /-- Only PHIs come before an exception pad in its block. -/
  pads : ∀ b ∈ f.labels, ∀ i j, Before (f.code b) i j → j.isEHPad = true → i.isPhi = true

/-- The value is not defined by an instruction, or by one of the list. -/
def Val.isDefinedBy (xs : List Inst) (v : Val) : Bool :=
  match v with
  | .inst n _ => xs.any fun j => decide (j.name = n) && !j.isMemIntrinsic
  | _ => true

theorem Val.avail_of_isDefinedBy {xs : List Inst} {v : Val} (h : v.isDefinedBy xs = true) :
    v.Avail (defs xs) := by
  cases v with
  | inst n t =>
    obtain ⟨j, hj, hn⟩ := List.any_eq_true.mp h
    rw [Bool.and_eq_true, Bool.not_eq_true', decide_eq_true_eq] at hn
    exact ⟨j, hj, hn.2, hn.1⟩
  | _ => trivial

/-- A block without PHIs and pads is a function in SSA form when definitions come before uses. -/
theorem Func.ofBlock_wellFormed {b₀ : Label} {body : List Inst} {t : Inst}
    {ht : t.isTerminator = true} {hbody : ∀ i ∈ body, i.isTerminator = false}
    {hnames : ((body ++ [t]).map Inst.name).Nodup}
    (hsource : ∀ i ∈ body ++ [t], i.isInserted = false ∧ i.isPhi = false ∧ i.isEHPad = false)
    (huses : ∀ i ∈ body ++ [t], ∀ v ∈ i.operands, v.isDefinedBy (before i (body ++ [t])) = true) :
    (Func.ofBlock b₀ body t ht hbody hnames).WellFormed := by
  have hcode : (Func.ofBlock b₀ body t ht hbody hnames).code b₀ = body ++ [t] := if_pos rfl
  refine ⟨fun b hb i hi => ?_, fun b hb _ i hi _ v hv => ?_, fun b hb _ i hi ls hop => ?_,
    fun b hb i j hij hpad => ?_⟩
  all_goals obtain rfl := List.mem_singleton.mp hb
  · rw [hcode] at hi
    exact (hsource i hi).1
  · rw [hcode] at hi
    rw [Func.availAt, hcode]
    exact (Val.avail_of_isDefinedBy (huses i hi v hv)).mono Set.subset_union_right
  · rw [hcode] at hi
    have := (hsource i hi).2.1
    rw [Inst.isPhi, hop] at this
    cases this
  · rw [hcode] at hij
    have := (hsource j hij.mem.2).2.2
    rw [hpad] at this
    cases this

/-- `w` is an operand of the instruction, not a PHI, that computes `v`. -/
def Func.ComputedFrom (f : Func) (v w : Val) : Prop :=
  ∃ b ∈ f.labels, ∃ i ∈ f.code b, i.val = v ∧ i.isPhi = false ∧ w ∈ i.operands

/-- What the documentation of LLVM promises of its answers. -/
structure Ctx.Lawful (cx : Ctx) : Prop where
  pointerBase : ∀ v, Relation.ReflTransGen cx.f.ComputedFrom v (cx.pointerBase v).1

section Source

variable {f : Func} {b d : Label} {i j : Inst}

theorem mem_availAt {n : ℕ} : n ∈ f.availAt b i ↔ (∃ d ∈ f.labels, ∃ j ∈ f.code d,
    f.SDom d b ∧ j.isMemIntrinsic = false ∧ j.name = n) ∨
    ∃ j ∈ before i (f.code b), j.isMemIntrinsic = false ∧ j.name = n := by
  constructor
  · rintro (⟨d, hd, hdom, j, hj, hn⟩ | hn)
    · exact Or.inl ⟨d, hd, j, hj, hdom, hn⟩
    · exact Or.inr hn
  · rintro (⟨d, hd, j, hj, hdom, hn⟩ | hn)
    · exact Or.inl ⟨d, hd, hdom, j, hj, hn⟩
    · exact Or.inr hn

theorem mem_of_mem_before (h : j ∈ before i (f.code b)) : j ∈ f.code b :=
  (List.takeWhile_sublist _).mem h

/-- An instruction is named in a place only if it precedes it. -/
theorem precedes_of_mem (hb : b ∈ f.labels) (hd : d ∈ f.labels) (hj : j ∈ f.code d)
    (h : j.name ∈ f.availAt b i) : f.Precedes d j b i := by
  rcases mem_availAt.mp h with ⟨d', hd', j', hj', hdom, -, hn⟩ | ⟨j', hj', -, hn⟩
  · obtain ⟨rfl, rfl⟩ := f.names_nodup d' hd' d hd j' hj' j hj hn
    exact Or.inl hdom
  · obtain ⟨rfl, rfl⟩ := f.names_nodup b hb d hd j' (mem_of_mem_before hj') j hj hn
    exact Or.inr ⟨rfl, hj'⟩

theorem before_append_of_mem {code : List Inst} (h : j ∈ before i code) :
    ∃ q, before i code = before j code ++ j :: q ∧ before j (before i code) = before j code := by
  induction code with
  | nil => cases h
  | cons x code ih =>
    by_cases hxi : x = i
    · subst hxi
      simp [before] at h
    · have hbi : before i (x :: code) = x :: before i code := by
        simp [before, hxi]
      rw [hbi] at h ⊢
      by_cases hxj : x = j
      · subst hxj
        exact ⟨before i code, by simp [before], by simp [before]⟩
      · have hj : j ∈ before i code := by
          rcases List.mem_cons.mp h with h | h
          · exact absurd h.symm hxj
          · exact h
        obtain ⟨q, hq, hq'⟩ := ih hj
        refine ⟨q, ?_, ?_⟩
        · rw [hq]
          simp [before, hxj]
        · have : before j (x :: before i code) = x :: before j (before i code) := by
            simp [before, hxj]
          rw [this, hq']
          simp [before, hxj]

theorem Func.Precedes.reachable (h : f.Precedes d j b i) (hb : f.Reaches f.entry b) :
    f.Reaches f.entry d := by
  rcases h with h | ⟨rfl, -⟩
  · exact h.2.reachable hb
  · exact hb

/-- What is available at a place is available at every later one. -/
theorem Func.Precedes.availAt_subset (hd : d ∈ f.labels) (hb : f.Reaches f.entry b)
    (h : f.Precedes d j b i) : f.availAt d j ⊆ f.availAt b i := by
  rcases h with h | ⟨rfl, h⟩
  · refine Set.Subset.trans ?_ (Set.Subset.trans (availOut_subset_availIn (C := f.code) hd h hb)
      Set.subset_union_left)
    exact Set.union_subset_union_right _ (defs_mono fun x hx => mem_of_mem_before hx)
  · obtain ⟨q, hq, -⟩ := before_append_of_mem h
    rw [Func.availAt, Func.availAt, hq, defs_append]
    exact Set.union_subset_union_right _ Set.subset_union_left

/-- What a value is computed from is available where the value is. -/
theorem Func.WellFormed.computedFrom (hwf : f.WellFormed) (hb : b ∈ f.labels)
    (hreach : f.Reaches f.entry b) {v w : Val}
    (hv : v.Avail (f.availAt b i)) (h : Relation.ReflTransGen f.ComputedFrom v w) :
    w.Avail (f.availAt b i) := by
  induction h with
  | refl => exact hv
  | @tail u w _ huw ih =>
    obtain ⟨d, hd, j, hj, rfl, hphi, hw⟩ := huw
    have hpre := precedes_of_mem hb hd hj ih
    exact (hwf.uses d hd (hpre.reachable hreach) j hj hphi w hw).mono
      (hpre.availAt_subset hd hreach)

end Source

/-! ### Builders -/

/-- Names from here on belong to inserted instructions. -/
def Ctx.bound (cx : Ctx) : ℕ := (cx.f.insts.map Inst.name).foldr max 0 + 1

/-- The cache holds shadow bases that were inserted. -/
def CacheOk (N : ℕ) (cache : Cache) : Prop := ∀ p ∈ cache, ∀ n t, p.2 = .inst n t → N ≤ n

/-- From `b` to `b'` a builder emitted closed code with opcodes in `P`. -/
structure Builder.Ext (P : ShOp → Prop) (A : Set ℕ) (N : ℕ) (b b' : Builder) : Prop where
  out : ∃ xs, b'.out = b.out ++ xs ∧ b'.next = b.next + xs.length ∧ Numbered P b.next xs ∧
    Closed (A ∪ names b.out) xs
  cache : CacheOk N b.cache → N ≤ b.next → CacheOk N b'.cache

namespace Builder

variable {P Q : ShOp → Prop} {A : Set ℕ} {N : ℕ} {b b' b'' : Builder}

theorem Ext.refl (b : Builder) : Ext P A N b b :=
  ⟨⟨[], by simp, by simp, trivial, trivial⟩, fun h _ => h⟩

theorem Ext.trans (h : Ext P A N b b') (h' : Ext P A N b' b'') : Ext P A N b b'' := by
  obtain ⟨xs, hout, hnext, hnum, hclosed⟩ := h.out
  obtain ⟨ys, hout', hnext', hnum', hclosed'⟩ := h'.out
  refine ⟨⟨xs ++ ys, ?_, ?_, numbered_append.mpr ⟨hnum, hnext ▸ hnum'⟩, ?_⟩, fun hc hn => ?_⟩
  · rw [hout', hout, List.append_assoc]
  · rw [hnext', hnext, List.length_append, Nat.add_assoc]
  · rw [hout, names_append, ← Set.union_assoc] at hclosed'
    exact closed_append.mpr ⟨hclosed, hclosed'⟩
  · exact h'.cache (h.cache hc hn) (by omega)

theorem Ext.weaken (h : Ext P A N b b') (hPQ : ∀ o, P o → Q o) : Ext Q A N b b' := by
  obtain ⟨xs, hout, hnext, hnum, hclosed⟩ := h.out
  exact ⟨⟨xs, hout, hnext, hnum.mono hPQ, hclosed⟩, h.cache⟩

/-- What was available stays available. -/
theorem Ext.names_subset (h : Ext P A N b b') : A ∪ names b.out ⊆ A ∪ names b'.out := by
  obtain ⟨xs, hout, -⟩ := h.out
  rw [hout, names_append]
  exact Set.union_subset_union_right _ Set.subset_union_left

theorem Ext.next_le (h : Ext P A N b b') : b.next ≤ b'.next := by
  obtain ⟨xs, -, hnext, -⟩ := h.out
  omega

/-- Running an emission. -/
theorem run_ext {m : Emit Val} (hm : Emit.Ok P (A ∪ names b.out) m) :
    Ext P A N b (b.run m).2 ∧ (b.run m).1.Avail (A ∪ names (b.run m).2.out) := by
  obtain ⟨hnum, hclosed, hv⟩ := hm b.next
  refine ⟨⟨⟨(m b.next).1, rfl, rfl, hnum, hclosed⟩, fun h _ => h⟩, ?_⟩
  rw [run, names_append, ← Set.union_assoc]
  exact hv

end Builder

section ShadowPtr

variable {A : Set ℕ} {N : ℕ} {b : Builder} {cx : Ctx} {here : List Inst}

theorem Emit.ok_getShadowPtrOffset {v : Val} (h : v.Avail A) :
    Emit.Ok PureOp A (getShadowPtrOffset v) :=
  (Emit.ok_emit (P := PureOp) (by rfl) (avail_singleton h)).bind fun _ _ _ hl =>
    Emit.ok_emit rfl (avail_singleton hl)

private theorem mem_sameBlock {code : List Inst} {x : Inst} (h : x ∈ sameBlock code) : x ∈ code :=
  List.mem_reverse.mp ((List.takeWhile_sublist _).mem h)

/-- A cached base that passes the test is available. -/
theorem avail_of_shadowBaseUsableHere {sb base : Val} (hcache : CacheOk N b.cache)
    (hlookup : b.cache.lookup base = some sb)
    (hhere : ∀ x ∈ here, N ≤ x.name → x.name ∈ A)
    (h : shadowBaseUsableHere sb (here ++ b.out) = true) : sb.Avail (A ∪ names b.out) := by
  cases sb with
  | inst n t =>
    simp only [shadowBaseUsableHere, List.any_eq_true, decide_eq_true_eq] at h
    obtain ⟨x, hx, rfl⟩ := h
    have hmem : (base, Val.inst x.name t) ∈ b.cache := by
      obtain ⟨l₁, l₂, hl, -⟩ := List.lookup_eq_some_iff.mp hlookup
      rw [hl]
      simp
    rcases List.mem_append.mp (mem_sameBlock hx) with hx | hx
    · exact Or.inl (hhere x hx (hcache _ hmem _ _ rfl))
    · exact Or.inr ⟨x, hx, rfl⟩
  | _ => trivial

theorem getShadowBase_ext {base : Val} (hbase : base.Avail (A ∪ names b.out))
    (hcache : CacheOk N b.cache) (hhere : ∀ x ∈ here, N ≤ x.name → x.name ∈ A) :
    Builder.Ext PureOp A N b (getShadowBase here base b).2 ∧
      (getShadowBase here base b).1.Avail (A ∪ names (getShadowBase here base b).2.out) := by
  set m : Emit Val := (do
    let off ← getShadowPtrOffset base
    emit .intToPtr [off] .ptr) with hm
  have hok : Emit.Ok PureOp (A ∪ names b.out) m :=
    (Emit.ok_getShadowPtrOffset hbase).bind fun _ _ _ ho => Emit.ok_emit rfl (avail_singleton ho)
  obtain ⟨hext, hav⟩ := Builder.run_ext (N := N) hok
  -- the base is computed and cached
  have hcompute : Builder.Ext PureOp A N b
      { (b.run m).2 with cache := (base, (b.run m).1) :: (b.run m).2.cache } := by
    refine ⟨hext.out, fun hc hn p hp n t hpt => ?_⟩
    rcases List.mem_cons.mp hp with rfl | hp
    · have hname : (b.run m).1 = .inst (b.next + 2) .ptr := rfl
      rw [hname] at hpt
      cases hpt
      omega
    · exact hc p hp n t hpt
  rw [getShadowBase]
  cases hlookup : b.cache.lookup base with
  | none => exact ⟨hcompute, hav⟩
  | some sb =>
    by_cases hus : shadowBaseUsableHere sb (here ++ b.out) = true
    · simp only [hus, if_true]
      exact ⟨Builder.Ext.refl b, avail_of_shadowBaseUsableHere hcache hlookup hhere hus⟩
    · simp only [hus]
      exact ⟨hcompute, hav⟩

theorem getShadowPtr_eq (cx : Ctx) (here : List Inst) (addr : Val) (b : Builder) :
    getShadowPtr cx here addr b =
      if cx.opts.sharedShadowBase && addr.ty.isPointer &&
          decide ((cx.pointerBase addr).1 ≠ addr) then
        if (cx.pointerBase addr).2 = 0 then getShadowBase here (cx.pointerBase addr).1 b
        else (getShadowBase here (cx.pointerBase addr).1 b).2.run
          (emit (.gepOff (cx.pointerBase addr).2)
            [(getShadowBase here (cx.pointerBase addr).1 b).1] .ptr)
      else b.run (do
        let off ← getShadowPtrOffset addr
        emit .intToPtr [off] addr.ty) := rfl

/-- **The address of a shadow is computed from what is available.** -/
theorem getShadowPtr_ext (cx : Ctx) (here : List Inst) (addr : Val)
    (haddr : addr.Avail (A ∪ names b.out))
    (hbase : (cx.pointerBase addr).1.Avail (A ∪ names b.out))
    (hcache : CacheOk N b.cache) (hhere : ∀ x ∈ here, N ≤ x.name → x.name ∈ A) :
    Builder.Ext PureOp A N b (getShadowPtr cx here addr b).2 ∧
      (getShadowPtr cx here addr b).1.Avail (A ∪ names (getShadowPtr cx here addr b).2.out) := by
  rw [getShadowPtr_eq]
  split_ifs
  · exact getShadowBase_ext hbase hcache hhere
  · obtain ⟨hext, hav⟩ := getShadowBase_ext hbase hcache hhere
    obtain ⟨hext', hav'⟩ := Builder.run_ext (N := N) (b := (getShadowBase here
      (cx.pointerBase addr).1 b).2) (Emit.ok_emit (P := PureOp)
        (o := .gepOff (cx.pointerBase addr).2) (y := .ptr) rfl (avail_singleton hav))
    exact ⟨hext.trans hext', hav'⟩
  · exact Builder.run_ext ((Emit.ok_getShadowPtrOffset haddr).bind fun _ _ _ ho =>
      Emit.ok_emit rfl (avail_singleton ho))

end ShadowPtr

/-! ### Handlers -/

/-- The inserted instructions other than checks and PHIs. -/
def ShOp.isPlain : ShOp → Bool
  | .warning | .checkBranch _ | .maybeWarning _ | .phi _ => false
  | _ => true

/-- The opcodes of plain inserted code. -/
abbrev PlainOp (o : ShOp) : Prop := o.isPlain = true

/-- The opcodes of the visit phase. -/
def VisitOp (o : ShOp) : Prop := PlainOp o ∨ ∃ ls, o = .phi ls

theorem plainOp_of_pure (o : ShOp) (h : PureOp o) : PlainOp o := by
  cases o <;> first | rfl | cases h

/-- The opcodes of the shadow load of a load. -/
def LoadOp (o : ShOp) : Prop := PureOp o ∨ o = .load

theorem transfers_of_loadOp {x : Inst} {o : ShOp} (hx : x.op = .sh o) (ho : LoadOp o) :
    x.transfers = true := by
  rw [Inst.transfers, hx]
  rcases ho with ho | rfl
  · cases o <;> first | rfl | cases ho
  · rfl

theorem plainOp_of_loadOp (o : ShOp) (h : LoadOp o) : PlainOp o := by
  rcases h with h | rfl
  · exact plainOp_of_pure o h
  · rfl

/-- An argument of the instruction, or the default for one that is missing. -/
def IsArg (i : Inst) (v : Val) : Prop := v ∈ i.args ∨ ∃ t, v = .zero t

theorem isArg_getD (i : Inst) (k : ℕ) (t : Ty) : IsArg i (i.args.getD k (.zero t)) := by
  rw [List.getD_eq_getElem?_getD]
  cases h : i.args[k]? with
  | none => exact Or.inr ⟨t, rfl⟩
  | some v => exact Or.inl (List.mem_of_getElem? h)

/-- What a handler finds: `A` are the values available before the instruction. -/
structure SiteOk (si : Site) (i : Inst) (A : Set ℕ) (N : ℕ) : Prop where
  arg : ∀ v, IsArg i v → v.Avail A
  shadow : ∀ v, IsArg i v → (si.shadow v).Avail A
  base : ∀ v, IsArg i v → (si.cx.pointerBase v).1.Avail A
  next : N ≤ si.s.next
  cache : CacheOk N si.s.cache
  here : ∀ x ∈ si.here, N ≤ x.name → x.name ∈ A

/-- The check of a load: the shadow is the last of what stands after the load. -/
def LoadCheck (term i : Inst) (v : Visit) (c : Val × Bool) : Prop :=
  i.op = .load ∧ c.2 = false ∧ v.pre = [] ∧ v.self = [i] ∧
    isUnsplittableTerminator term = false ∧
    ∃ m S, v.post = m ++ [S] ∧ c.1 = S.val ∧ S.op = .sh .load ∧
      ∀ x ∈ m, ∃ o, x.op = .sh o ∧ PureOp o

/-- What a handler does. -/
structure VisitOk (si : Site) (term i : Inst) (A : Set ℕ) (N : ℕ) (v : Visit) : Prop where
  numbered : Numbered VisitOp si.s.next (v.pre ++ v.post)
  next : v.next = si.s.next + (v.pre ++ v.post).length
  closed : Closed A (v.pre ++ v.post)
  phis : ∀ x ∈ v.pre ++ v.post, ∀ ls, x.op = .sh (.phi ls) → x.args = []
  cache : CacheOk N v.cache
  self : v.self = [] ∧ i.isMemIntrinsic = true ∧ v.checks = [] ∨
    ∃ i', v.self = [i'] ∧ i'.name = i.name ∧ i'.op = i.op
  shadow : ∀ sv, v.shadow = some sv → sv.Avail (A ∪ names (v.pre ++ v.post))
  checks : ∀ c ∈ v.checks, c.1.Avail (A ∪ names v.pre) ∨ LoadCheck term i v c

section Handlers

variable {si : Site} {term i : Inst} {A : Set ℕ} {N : ℕ} {b : Builder} {v : Visit}

/-- Constants are available. -/
theorem avail_getCleanShadow {A : Set ℕ} (t : Ty) : (getCleanShadow t).Avail A := trivial

private theorem not_phi_of_plain {n : ℕ} {xs : List Inst} (h : Numbered PlainOp n xs) :
    ∀ x ∈ xs, ∀ ls, x.op = .sh (.phi ls) → x.args = [] := by
  intro x hx ls hls
  obtain ⟨o, ho, hP⟩ := h.op hx
  rw [ho] at hls
  cases hls
  cases hP

/-- A handler that emits before the instruction. -/
theorem VisitOk.before (hok : SiteOk si i A N) (hext : Builder.Ext PlainOp A N si.builder b)
    (hpre : v.pre = b.out) (hpost : v.post = []) (hnext : v.next = b.next)
    (hcache : v.cache = b.cache)
    (hself : v.self = [] ∧ i.isMemIntrinsic = true ∧ v.checks = [] ∨
      ∃ i', v.self = [i'] ∧ i'.name = i.name ∧ i'.op = i.op)
    (hshadow : ∀ sv, v.shadow = some sv → sv.Avail (A ∪ names b.out))
    (hchecks : ∀ c ∈ v.checks, c.1.Avail (A ∪ names b.out)) : VisitOk si term i A N v := by
  obtain ⟨xs, hout, hnext', hnum, hclosed⟩ := hext.out
  have hxs : v.pre ++ v.post = xs := by rw [hpre, hpost, hout, List.append_nil]; rfl
  refine ⟨?_, ?_, ?_, ?_, ?_, hself, ?_, ?_⟩
  · rw [hxs]
    exact hnum.mono fun o ho => Or.inl ho
  · rw [hxs, hnext, hnext']
    rfl
  · rw [hxs]
    simpa [Site.builder] using hclosed
  · rw [hxs]
    exact not_phi_of_plain hnum
  · rw [hcache]
    exact hext.cache hok.cache hok.next
  · rw [hpost, List.append_nil, hpre]
    exact hshadow
  · rw [hpre]
    exact fun c hc => Or.inl (hchecks c hc)

/-- A handler that emits nothing. -/
theorem VisitOk.nothing (hok : SiteOk si i A N) (hpre : v.pre = []) (hpost : v.post = [])
    (hnext : v.next = si.s.next) (hcache : v.cache = si.s.cache) (hself : v.self = [i])
    (hshadow : ∀ sv, v.shadow = some sv → sv.Avail A)
    (hchecks : ∀ c ∈ v.checks, c.1.Avail A) : VisitOk si term i A N v :=
  VisitOk.before hok (Builder.Ext.refl si.builder) hpre hpost hnext hcache
    (Or.inr ⟨i, hself, rfl, rfl⟩)
    (fun sv hsv => (hshadow sv hsv).mono Set.subset_union_left)
    fun c hc => (hchecks c hc).mono Set.subset_union_left

theorem avail_pushShadowCheck {B : Set ℕ} {sv : Val} {e : Bool} (h : sv.Avail B) :
    ∀ c ∈ si.pushShadowCheck sv e, c.1.Avail B := by
  intro c hc
  rw [Site.pushShadowCheck] at hc
  split_ifs at hc
  · rw [List.mem_singleton.mp hc]
    exact h
  · cases hc

theorem avail_insertShadowCheck {B : Set ℕ} {u : Val} (h : (si.shadow u).Avail B) :
    ∀ c ∈ si.insertShadowCheck u, c.1.Avail B := by
  rw [Site.insertShadowCheck]
  split_ifs
  · exact avail_pushShadowCheck h
  · cases hsh : si.shadow u with
    | inst n t => exact avail_pushShadowCheck (hsh ▸ h)
    | _ => simp

theorem avail_checkAddress {B : Set ℕ} {u : Val} (h : (si.shadow u).Avail B) :
    ∀ c ∈ si.checkAddress u, c.1.Avail B := by
  rw [Site.checkAddress]
  split_ifs
  · exact avail_insertShadowCheck h
  · simp

theorem avail_append {B : Set ℕ} {cs ds : List (Val × Bool)} (hc : ∀ c ∈ cs, c.1.Avail B)
    (hd : ∀ c ∈ ds, c.1.Avail B) : ∀ c ∈ cs ++ ds, c.1.Avail B := by
  intro c h
  rcases List.mem_append.mp h with h | h
  · exact hc c h
  · exact hd c h

/-- The address of the shadow of an argument. -/
theorem SiteOk.shadowPtr (hok : SiteOk si i A N) {addr : Val} (ha : IsArg i addr)
    (hext : Builder.Ext PlainOp A N si.builder b) :
    Builder.Ext PlainOp A N si.builder (getShadowPtr si.cx si.here addr b).2 ∧
      (getShadowPtr si.cx si.here addr b).1.Avail
        (A ∪ names (getShadowPtr si.cx si.here addr b).2.out) := by
  obtain ⟨h, hav⟩ := getShadowPtr_ext si.cx si.here addr
    ((hok.arg addr ha).mono Set.subset_union_left)
    ((hok.base addr ha).mono Set.subset_union_left)
    (hext.cache hok.cache hok.next) hok.here
  exact ⟨hext.trans (h.weaken plainOp_of_pure), hav⟩

/-- One more instruction. -/
theorem Builder.Ext.emit (hext : Builder.Ext PlainOp A N si.builder b) {o : ShOp}
    {l : List Val} {y : Ty} (ho : PlainOp o) (h : ∀ u ∈ l, u.Avail (A ∪ names b.out)) :
    Builder.Ext PlainOp A N si.builder (b.run (CQMSan.emit o l y)).2 ∧
      (b.run (CQMSan.emit o l y)).1.Avail (A ∪ names (b.run (CQMSan.emit o l y)).2.out) := by
  obtain ⟨h', hav⟩ := Builder.run_ext (N := N) (b := b) (Emit.ok_emit (y := y) ho h)
  exact ⟨hext.trans h', hav⟩

variable (hok : SiteOk si i A N)

include hok

theorem visitOk_visitInstruction : VisitOk si term i A N (si.visitInstruction i) := by
  refine VisitOk.nothing hok rfl rfl rfl rfl rfl (fun sv hsv => ?_) (by simp [Site.visitInstruction,
    Site.nothing])
  simp only [Site.visitInstruction] at hsv
  split_ifs at hsv
  rw [← Option.some.inj hsv]
  trivial

theorem visitOk_skipLoad {addr : Val} (ha : IsArg i addr) :
    VisitOk si term i A N (si.skipLoad i addr) := by
  refine VisitOk.nothing hok rfl rfl rfl rfl rfl (fun sv hsv => ?_)
    (avail_checkAddress (hok.shadow addr ha))
  rw [← Option.some.inj hsv]
  trivial

/-- The shadow load of an argument. -/
theorem SiteOk.loadShadow_ext {here : List Inst} {addr : Val} (ty : Ty) (ha : IsArg i addr)
    (hhere : ∀ x ∈ here, N ≤ x.name → x.name ∈ A) :
    Builder.Ext LoadOp A N si.builder (si.loadShadow here addr ty).2 ∧
      (si.loadShadow here addr ty).1.Avail (A ∪ names (si.loadShadow here addr ty).2.out) ∧
      ∃ m S, (si.loadShadow here addr ty).2.out = m ++ [S] ∧
        (si.loadShadow here addr ty).1 = S.val ∧ S.op = .sh .load ∧
        ∀ x ∈ m, ∃ o, x.op = .sh o ∧ PureOp o := by
  obtain ⟨h, hav⟩ := getShadowPtr_ext si.cx here addr (b := si.builder)
    ((hok.arg addr ha).mono Set.subset_union_left)
    ((hok.base addr ha).mono Set.subset_union_left) hok.cache hhere
  obtain ⟨h', hav'⟩ := Builder.run_ext (N := N) (b := (getShadowPtr si.cx here addr si.builder).2)
    (Emit.ok_emit (P := LoadOp) (o := .load) (y := ty) (Or.inr rfl) (avail_singleton hav))
  refine ⟨(h.weaken fun o ho => Or.inl ho).trans h', hav',
    (getShadowPtr si.cx here addr si.builder).2.out, _, rfl, rfl, rfl, fun x hx => ?_⟩
  obtain ⟨xs, hout, -, hnum, -⟩ := h.out
  rw [hout] at hx
  exact hnum.op hx

omit hok in
/-- The checks of an instrumented load. -/
private theorem visitLoadInst_checks (si : Site) {sv addr : Val} {B : Set ℕ} {P : Val × Bool → Prop}
    (hpush : ∀ c, c.1 = sv → c.2 = false → c.1.Avail B ∨ P c) (haddr : (si.shadow addr).Avail B) :
    ∀ c ∈ (if si.opts.checkLoads then si.pushShadowCheck sv false else []) ++
      si.checkAddress addr, c.1.Avail B ∨ P c := by
  intro c hc
  rcases List.mem_append.mp hc with hc | hc
  · split_ifs at hc
    · rw [Site.pushShadowCheck] at hc
      split_ifs at hc
      · rw [List.mem_singleton.mp hc]
        exact hpush _ rfl rfl
      · cases hc
    · cases hc
  · exact Or.inl (avail_checkAddress haddr c hc)

theorem visitOk_visitLoadInst (hi : i.op = .load) (hname : i.name < N) :
    VisitOk si term i A N (si.visitLoadInst term i) := by
  have ha := isArg_getD i 0 .ptr
  rw [Site.visitLoadInst]
  split
  · refine VisitOk.nothing hok rfl rfl rfl rfl rfl (fun sv hsv => ?_) (by simp [Site.nothing])
    rw [← Option.some.inj hsv]
    trivial
  split
  · exact visitOk_skipLoad hok ha
  split
  · exact visitOk_skipLoad hok ha
  · cases hterm : isUnsplittableTerminator term with
    | true =>
      -- the shadow stands before the load
      obtain ⟨hext, hav, -⟩ := hok.loadShadow_ext (getShadowTy i.ty) ha hok.here
      refine VisitOk.before hok (b := (si.loadShadow si.here (i.args.getD 0 (.zero .ptr))
        (getShadowTy i.ty)).2) (hext.weaken plainOp_of_loadOp) ?_ ?_ ?_ ?_
        (Or.inr ⟨i, ?_, rfl, rfl⟩) (fun sv hsv => ?_) ?_
      iterate 5 rfl
      · rw [← Option.some.inj hsv]
        exact hav
      · have h := visitLoadInst_checks si (P := fun _ => False)
          (fun c hc _ => Or.inl (hc ▸ hav))
          ((hok.shadow _ ha).mono (Set.subset_union_left (t := names (si.loadShadow si.here
            (i.args.getD 0 (.zero .ptr)) (getShadowTy i.ty)).2.out)))
        exact fun c hc => (h c hc).elim id False.elim
    | false =>
      have hhere : ∀ x ∈ si.here ++ [i], N ≤ x.name → x.name ∈ A := by
        intro x hx hN
        rcases List.mem_append.mp hx with hx | hx
        · exact hok.here x hx hN
        · rw [List.mem_singleton.mp hx] at hN
          omega
      obtain ⟨hext, hav, m, S, hS, hSv, hSop, hm⟩ :=
        hok.loadShadow_ext (getShadowTy i.ty) ha hhere
      obtain ⟨xs, hout, hnext, hnum, hclosed⟩ := hext.out
      have hxs : (si.loadShadow (si.here ++ [i]) (i.args.getD 0 (.zero .ptr))
          (getShadowTy i.ty)).2.out = xs := hout
      simp only [Bool.not_false, if_true]
      refine ⟨?_, ?_, ?_, ?_, ?_, Or.inr ⟨i, rfl, rfl, rfl⟩, fun sv hsv => ?_, ?_⟩
      · simp only [Site.emittedAfter, Site.nothing, List.nil_append, hxs]
        exact hnum.mono fun o ho => Or.inl (plainOp_of_loadOp o ho)
      · simp only [Site.emittedAfter, Site.nothing, List.nil_append, hxs]
        exact hnext
      · simp only [Site.emittedAfter, Site.nothing, List.nil_append, hxs]
        simpa [Site.builder] using hclosed
      · simp only [Site.emittedAfter, Site.nothing, List.nil_append, hxs]
        exact not_phi_of_plain (hnum.mono plainOp_of_loadOp)
      · exact hext.cache hok.cache hok.next
      · rw [← Option.some.inj hsv]
        exact hav
      · refine visitLoadInst_checks si (fun c hc he => Or.inr ?_)
          ((hok.shadow _ ha).mono Set.subset_union_left)
        exact ⟨hi, he, rfl, rfl, hterm, m, S, hS, hc.trans hSv, hSop, hm⟩

theorem visitOk_visitStoreInst : VisitOk si term i A N (si.visitStoreInst i) := by
  rw [Site.visitStoreInst]
  split
  · exact VisitOk.nothing hok rfl rfl rfl rfl rfl (by simp [Site.nothing]) (by simp [Site.nothing])
  · exact VisitOk.nothing hok rfl rfl rfl rfl rfl (by simp [Site.nothing])
      (avail_checkAddress (hok.shadow _ (isArg_getD i 1 .ptr)))

/-- A store to the shadow of an argument. -/
theorem SiteOk.storeShadow_ext {addr value : Val} (ha : IsArg i addr) (hv : value.Avail A) :
    Builder.Ext PlainOp A N si.builder (si.storeShadow addr value) := by
  obtain ⟨hext, hav⟩ := hok.shadowPtr ha (Builder.Ext.refl si.builder)
  exact (hext.emit rfl (avail_pair (hv.mono Set.subset_union_left) hav)).1

theorem visitOk_handleCASOrRMW (isCmpXchg : Bool) :
    VisitOk si term i A N (si.handleCASOrRMW isCmpXchg i) := by
  refine VisitOk.before hok (hok.storeShadow_ext (isArg_getD i 0 .ptr) (avail_getCleanShadow _))
    rfl rfl rfl rfl (Or.inr ⟨i, rfl, rfl, rfl⟩) (fun sv hsv => ?_) ?_
  · rw [← Option.some.inj hsv]
    trivial
  · refine avail_append (avail_checkAddress ((hok.shadow _ (isArg_getD i 0 .ptr)).mono
      Set.subset_union_left)) ?_
    split_ifs
    · exact avail_insertShadowCheck ((hok.shadow _ (isArg_getD i 1 .ptr)).mono
        Set.subset_union_left)
    · simp

omit hok in
theorem Emit.ok_intCast {v : Val} {ty : Ty} (h : v.Avail A) :
    Emit.Ok PlainOp A (Site.intCast v ty) := by
  rw [Site.intCast]
  split_ifs
  · exact Emit.ok_pure h
  · exact Emit.ok_emit rfl (avail_singleton h)

theorem visitOk_lowerMemIntrinsic {o : ShOp} (ho : PlainOp o) (hi : i.isMemIntrinsic = true) :
    VisitOk si term i A N (si.lowerMemIntrinsic o i) := by
  have hav : ∀ {k : ℕ} {t : Ty}, (i.args.getD k (.zero t)).Avail (A ∪ names si.builder.out) :=
    (hok.arg _ (isArg_getD i _ _)).mono Set.subset_union_left
  have hm : Emit.Ok PlainOp (A ∪ names si.builder.out) (do
      let arg ← if o = .cqmsanMemset then Site.intCast (i.args.getD 1 (.zero .ptr)) (.int 32)
        else pure (i.args.getD 1 (.zero .ptr))
      let len ← Site.intCast (i.args.getD 2 (.zero (.int 64))) (.int 64)
      emit o [i.args.getD 0 (.zero .ptr), arg, len] .ptr) := by
    have hrest : ∀ B arg, A ∪ names si.builder.out ⊆ B → arg.Avail B → Emit.Ok PlainOp B (do
        let len ← Site.intCast (i.args.getD 2 (.zero (.int 64))) (.int 64)
        emit o [i.args.getD 0 (.zero .ptr), arg, len] .ptr) := by
      intro B arg hB harg
      refine (Emit.ok_intCast (hav.mono hB)).bind fun D len hD hlen => ?_
      refine Emit.ok_emit ho fun u hu => ?_
      rcases List.mem_cons.mp hu with rfl | hu
      · exact (hav.mono hB).mono hD
      · exact avail_pair (harg.mono hD) hlen u hu
    dsimp only
    split_ifs
    · exact (Emit.ok_intCast hav).bind hrest
    · exact (Emit.ok_pure hav).bind hrest
  exact VisitOk.before hok (Builder.run_ext (N := N) (b := si.builder) hm).1 rfl rfl rfl rfl
    (Or.inl ⟨rfl, hi, rfl⟩) (by simp [Site.lowerMemIntrinsic, Site.emittedBefore, Site.nothing])
    (by simp [Site.lowerMemIntrinsic, Site.emittedBefore, Site.nothing])

/-- A `memset` of the shadow of an argument. -/
theorem SiteOk.memsetShadow_ext {addr byte len : Val} (ha : IsArg i addr) (hb : byte.Avail A)
    (hl : len.Avail A) : Builder.Ext PlainOp A N si.builder (si.memsetShadow addr byte len) := by
  obtain ⟨hext, hav⟩ := hok.shadowPtr ha (Builder.Ext.refl si.builder)
  refine (hext.emit rfl fun u hu => ?_).1
  rcases List.mem_cons.mp hu with rfl | hu
  · exact hav
  · exact avail_pair (hb.mono Set.subset_union_left) (hl.mono Set.subset_union_left) u hu

theorem visitOk_unpoisonVAListTag {v : Visit} (hv : v.pre = (si.unpoisonVAListTag i).pre)
    (hpost : v.post = []) (hself : v.self = [i]) (hnext : v.next = (si.unpoisonVAListTag i).next)
    (hcache : v.cache = (si.unpoisonVAListTag i).cache) (hsh : v.shadow = none)
    (hch : v.checks = []) : VisitOk si term i A N v :=
  VisitOk.before hok (hok.memsetShadow_ext (isArg_getD i 0 .ptr) (by trivial) (by trivial)) hv
    hpost hnext hcache (Or.inr ⟨i, hself, rfl, rfl⟩) (by simp [hsh]) (by simp [hch])

theorem SiteOk.storedShadow {u : Val} (hu : IsArg i u) : (si.storedShadow u).Avail A := by
  rw [Site.storedShadow]
  split_ifs
  · trivial
  · exact hok.shadow u hu

theorem visitOk_handleVectorStoreIntrinsic :
    VisitOk si term i A N (si.handleVectorStoreIntrinsic i) := by
  have ha := isArg_getD i 0 .ptr
  rw [Site.handleVectorStoreIntrinsic]
  split
  · exact VisitOk.nothing hok rfl rfl rfl rfl rfl (by simp [Site.nothing]) (by simp [Site.nothing])
  · exact VisitOk.before hok
      (hok.storeShadow_ext ha (hok.storedShadow (isArg_getD i 1 .ptr))) rfl rfl rfl rfl
      (Or.inr ⟨i, rfl, rfl, rfl⟩) (by simp [Site.emittedBefore, Site.nothing])
      (avail_checkAddress ((hok.shadow _ ha).mono Set.subset_union_left))

/-- A handler that reads the shadow of its argument before the instruction. -/
theorem visitOk_loadShadow {addr : Val} (ty : Ty) {v : Visit} (ha : IsArg i addr)
    (hpre : v.pre = (si.loadShadow si.here addr ty).2.out) (hpost : v.post = [])
    (hself : v.self = [i]) (hnext : v.next = (si.loadShadow si.here addr ty).2.next)
    (hcache : v.cache = (si.loadShadow si.here addr ty).2.cache)
    (hsh : ∀ sv, v.shadow = some sv → sv = (si.loadShadow si.here addr ty).1)
    (hch : ∀ c ∈ v.checks, c ∈ si.pushShadowCheck (si.loadShadow si.here addr ty).1 false ∨
      c ∈ si.checkAddress addr) : VisitOk si term i A N v := by
  obtain ⟨hext, hav, -⟩ := hok.loadShadow_ext ty ha hok.here
  refine VisitOk.before hok (hext.weaken plainOp_of_loadOp) hpre hpost hnext hcache
    (Or.inr ⟨i, hself, rfl, rfl⟩) (fun sv hsv => ?_) fun c hc => ?_
  · rw [hsh sv hsv]
    exact hav
  · rcases hch c hc with hc | hc
    · exact avail_pushShadowCheck hav c hc
    · exact avail_checkAddress ((hok.shadow _ ha).mono Set.subset_union_left) c hc

theorem visitOk_handleVectorLoadIntrinsic :
    VisitOk si term i A N (si.handleVectorLoadIntrinsic i) :=
  visitOk_loadShadow hok (getShadowTy i.ty) (isArg_getD i 0 .ptr) rfl rfl rfl rfl rfl
    (fun _ hsv => (Option.some.inj hsv).symm) fun _ hc => List.mem_append.mp hc

theorem visitOk_handleUnknownIntrinsic (onlyReadsMemory : Bool) :
    VisitOk si term i A N (si.handleUnknownIntrinsic onlyReadsMemory i) := by
  rw [Site.handleUnknownIntrinsic]
  split
  · split_ifs
    · exact visitOk_handleVectorStoreIntrinsic hok
    · exact visitOk_visitInstruction hok
  · split_ifs
    · exact visitOk_handleVectorLoadIntrinsic hok
    · exact visitOk_visitInstruction hok
  · exact visitOk_visitInstruction hok

theorem visitOk_handleStmxcsr : VisitOk si term i A N (si.handleStmxcsr i) :=
  VisitOk.before hok (hok.storeShadow_ext (isArg_getD i 0 .ptr) (by trivial)) rfl rfl rfl rfl
    (Or.inr ⟨i, rfl, rfl, rfl⟩) (by simp [Site.handleStmxcsr, Site.emittedBefore, Site.nothing])
    (avail_checkAddress ((hok.shadow _ (isArg_getD i 0 .ptr)).mono Set.subset_union_left))

theorem visitOk_handleLdmxcsr : VisitOk si term i A N (si.handleLdmxcsr i) := by
  rw [Site.handleLdmxcsr]
  split
  · exact VisitOk.nothing hok rfl rfl rfl rfl rfl (by simp [Site.nothing]) (by simp [Site.nothing])
  · exact visitOk_loadShadow hok (.int 32) (isArg_getD i 0 .ptr) rfl rfl rfl rfl rfl
      (by simp [Site.emittedBefore, Site.nothing]) fun _ hc => (List.mem_append.mp hc).symm

omit hok in
theorem avail_mono {A B : Set ℕ} {cs : List (Val × Bool)} (h : ∀ c ∈ cs, c.1.Avail A)
    (hAB : A ⊆ B) : ∀ c ∈ cs, c.1.Avail B := fun c hc => (h c hc).mono hAB

section Masked

variable {o : ShOp} {addr mask other : Val} {checks : List (Val × Bool)}

theorem visitOk_handleMaskedLoadLike (ho : PlainOp o) (ha : IsArg i addr) (hmask : IsArg i mask)
    (hother : IsArg i other) (hext : Builder.Ext PlainOp A N si.builder b)
    (hchecks : ∀ c ∈ checks, c.1.Avail (A ∪ names b.out)) :
    VisitOk si term i A N (si.handleMaskedLoadLike o addr mask other checks b i) := by
  set p := getShadowPtr si.cx si.here addr b with hp
  obtain ⟨hext₁, hptr⟩ := hok.shadowPtr ha hext
  have hextp : Builder.Ext PlainOp A N b p.2 := by
    obtain ⟨h, -⟩ := getShadowPtr_ext si.cx si.here addr (b := b)
      ((hok.arg addr ha).mono Set.subset_union_left)
      ((hok.base addr ha).mono Set.subset_union_left)
      (hext.cache hok.cache hok.next) hok.here
    exact h.weaken plainOp_of_pure
  have hinA : ∀ {u : Val} {B : Set ℕ}, u.Avail A → u.Avail (A ∪ B) := fun h =>
    h.mono Set.subset_union_left
  set q := p.2.run (emit o [p.1, mask, si.shadow other] (getShadowTy i.ty)) with hq
  obtain ⟨hext₂, hsv⟩ : Builder.Ext PlainOp A N si.builder q.2 ∧ q.1.Avail (A ∪ names q.2.out) := by
    refine hext₁.emit ho fun u hu => ?_
    rcases List.mem_cons.mp hu with rfl | hu
    · exact hptr
    · exact avail_pair (hinA (hok.arg mask hmask)) (hinA (hok.shadow other hother)) u hu
  have hextq : Builder.Ext PlainOp A N p.2 q.2 := (Builder.run_ext (Emit.ok_emit ho (by
    intro u hu
    rcases List.mem_cons.mp hu with rfl | hu
    · exact hptr
    · exact avail_pair (hinA (hok.arg mask hmask)) (hinA (hok.shadow other hother)) u hu))).1
  have hsub : A ∪ names b.out ⊆ A ∪ names q.2.out := (hextp.trans hextq).names_subset
  change VisitOk si term i A N (if si.opts.checkLoads then
    { si.emittedBefore i (q.2.run
        (emit .select [mask, q.1, getCleanShadow i.ty] (getShadowTy i.ty))).2 with
      shadow := some q.1
      checks := checks ++ si.pushShadowCheck (q.2.run
        (emit .select [mask, q.1, getCleanShadow i.ty] (getShadowTy i.ty))).1 false }
    else { si.emittedBefore i q.2 with shadow := some q.1, checks := checks })
  split
  · set w := q.2.run (emit .select [mask, q.1, getCleanShadow i.ty] (getShadowTy i.ty)) with hw
    have hargs : ∀ u ∈ [mask, q.1, getCleanShadow i.ty], u.Avail (A ∪ names q.2.out) := by
      intro u hu
      rcases List.mem_cons.mp hu with rfl | hu
      · exact hinA (hok.arg _ hmask)
      · exact avail_pair hsv (avail_getCleanShadow _) u hu
    obtain ⟨hext₃, hactive⟩ : Builder.Ext PlainOp A N si.builder w.2 ∧
        w.1.Avail (A ∪ names w.2.out) := hext₂.emit rfl hargs
    have hextw : Builder.Ext PlainOp A N q.2 w.2 :=
      (Builder.run_ext (Emit.ok_emit (P := PlainOp) rfl hargs)).1
    refine VisitOk.before hok hext₃ rfl rfl rfl rfl (Or.inr ⟨i, rfl, rfl, rfl⟩)
      (fun sv hsv' => ?_) ?_
    · rw [← Option.some.inj hsv']
      exact hsv.mono hextw.names_subset
    · exact avail_append (avail_mono hchecks (hsub.trans hextw.names_subset))
        (avail_pushShadowCheck hactive)
  · refine VisitOk.before hok hext₂ rfl rfl rfl rfl (Or.inr ⟨i, rfl, rfl, rfl⟩)
      (fun sv hsv' => ?_) (avail_mono hchecks hsub)
    rw [← Option.some.inj hsv']
    exact hsv

theorem visitOk_handleMaskedStoreLike (ho : PlainOp o) (ha : IsArg i addr) (hmask : IsArg i mask)
    (hother : IsArg i other) (hext : Builder.Ext PlainOp A N si.builder b)
    (hchecks : ∀ c ∈ checks, c.1.Avail (A ∪ names b.out)) :
    VisitOk si term i A N (si.handleMaskedStoreLike o addr mask other checks b i) := by
  set p := getShadowPtr si.cx si.here addr b with hp
  obtain ⟨hext₁, hptr⟩ := hok.shadowPtr ha hext
  obtain ⟨h, -⟩ := getShadowPtr_ext si.cx si.here addr (b := b)
    ((hok.arg addr ha).mono Set.subset_union_left)
    ((hok.base addr ha).mono Set.subset_union_left)
    (hext.cache hok.cache hok.next) hok.here
  have hinA : ∀ {u : Val} {B : Set ℕ}, u.Avail A → u.Avail (A ∪ B) := fun h =>
    h.mono Set.subset_union_left
  have hargs : ∀ u ∈ [si.storedShadow other, p.1, mask], u.Avail (A ∪ names p.2.out) := by
    intro u hu
    rcases List.mem_cons.mp hu with rfl | hu
    · exact hinA (hok.storedShadow hother)
    · exact avail_pair hptr (hinA (hok.arg mask hmask)) u hu
  obtain ⟨h', -⟩ := Builder.run_ext (N := N) (Emit.ok_emit (P := PlainOp) (y := .void) ho hargs)
  refine VisitOk.before hok (hext₁.emit ho hargs).1 rfl rfl rfl rfl (Or.inr ⟨i, rfl, rfl, rfl⟩)
    (by simp [Site.handleMaskedStoreLike, Site.emittedBefore, Site.nothing]) ?_
  exact avail_mono hchecks (h.names_subset.trans h'.names_subset)

theorem avail_checkPtrAndMask (ha : IsArg i addr) (hmask : IsArg i mask) (B : Set ℕ) :
    ∀ c ∈ si.checkPtrAndMask addr mask, c.1.Avail (A ∪ B) :=
  avail_mono (avail_append (avail_checkAddress (hok.shadow addr ha))
    (avail_checkAddress (hok.shadow mask hmask))) Set.subset_union_left

theorem checkPtrsAndMask_ext (ha : IsArg i addr) (hmask : IsArg i mask) :
    Builder.Ext PlainOp A N si.builder (si.checkPtrsAndMask addr mask).2 ∧
      ∀ c ∈ (si.checkPtrsAndMask addr mask).1,
        c.1.Avail (A ∪ names (si.checkPtrsAndMask addr mask).2.out) := by
  rw [Site.checkPtrsAndMask]
  split
  · obtain ⟨hext, hav⟩ := (Builder.Ext.refl (P := PlainOp) (A := A) (N := N) si.builder).emit
      (o := .select) (l := [mask, si.shadow addr, getCleanShadow addr.ty])
      (y := getShadowTy addr.ty) rfl fun u hu => by
        rcases List.mem_cons.mp hu with rfl | hu
        · exact (hok.arg _ hmask).mono Set.subset_union_left
        · exact avail_pair ((hok.shadow addr ha).mono Set.subset_union_left)
            (avail_getCleanShadow _) u hu
    exact ⟨hext, avail_append (avail_insertShadowCheck ((hok.shadow mask hmask).mono
      Set.subset_union_left)) (avail_pushShadowCheck hav)⟩
  · exact ⟨Builder.Ext.refl _, by simp⟩

end Masked

theorem visitOk_handleMaskedLoad : VisitOk si term i A N (si.handleMaskedLoad i) :=
  visitOk_handleMaskedLoadLike hok rfl (isArg_getD i 0 .ptr) (isArg_getD i 2 .ptr)
    (isArg_getD i 3 .ptr) (Builder.Ext.refl _)
    (avail_checkPtrAndMask hok (isArg_getD i 0 .ptr) (isArg_getD i 2 .ptr) _)

theorem visitOk_handleMaskedExpandLoad : VisitOk si term i A N (si.handleMaskedExpandLoad i) :=
  visitOk_handleMaskedLoadLike hok rfl (isArg_getD i 0 .ptr) (isArg_getD i 1 .ptr)
    (isArg_getD i 2 .ptr) (Builder.Ext.refl _)
    (avail_checkPtrAndMask hok (isArg_getD i 0 .ptr) (isArg_getD i 1 .ptr) _)

theorem visitOk_handleMaskedGather : VisitOk si term i A N (si.handleMaskedGather i) := by
  obtain ⟨hext, hchecks⟩ := checkPtrsAndMask_ext hok (isArg_getD i 0 .ptr) (isArg_getD i 2 .ptr)
  exact visitOk_handleMaskedLoadLike hok rfl (isArg_getD i 0 .ptr) (isArg_getD i 2 .ptr)
    (isArg_getD i 3 .ptr) hext hchecks

theorem visitOk_handleMaskedStore : VisitOk si term i A N (si.handleMaskedStore i) := by
  rw [Site.handleMaskedStore]
  split
  · exact VisitOk.nothing hok rfl rfl rfl rfl rfl (by simp [Site.nothing]) (by simp [Site.nothing])
  · exact visitOk_handleMaskedStoreLike hok rfl (isArg_getD i 1 .ptr) (isArg_getD i 3 .ptr)
      (isArg_getD i 0 .ptr) (Builder.Ext.refl _)
      (avail_checkPtrAndMask hok (isArg_getD i 1 .ptr) (isArg_getD i 3 .ptr) _)

theorem visitOk_handleMaskedCompressStore :
    VisitOk si term i A N (si.handleMaskedCompressStore i) := by
  rw [Site.handleMaskedCompressStore]
  split
  · exact VisitOk.nothing hok rfl rfl rfl rfl rfl (by simp [Site.nothing]) (by simp [Site.nothing])
  · exact visitOk_handleMaskedStoreLike hok rfl (isArg_getD i 1 .ptr) (isArg_getD i 2 .ptr)
      (isArg_getD i 0 .ptr) (Builder.Ext.refl _)
      (avail_checkPtrAndMask hok (isArg_getD i 1 .ptr) (isArg_getD i 2 .ptr) _)

theorem visitOk_handleMaskedScatter : VisitOk si term i A N (si.handleMaskedScatter i) := by
  rw [Site.handleMaskedScatter]
  split
  · exact VisitOk.nothing hok rfl rfl rfl rfl rfl (by simp [Site.nothing]) (by simp [Site.nothing])
  · obtain ⟨hext, hchecks⟩ := checkPtrsAndMask_ext hok (isArg_getD i 1 .ptr) (isArg_getD i 3 .ptr)
    exact visitOk_handleMaskedStoreLike hok rfl (isArg_getD i 1 .ptr) (isArg_getD i 3 .ptr)
      (isArg_getD i 0 .ptr) hext hchecks

theorem visitOk_visitIntrinsicInst {c : CallInfo} {id : Intrinsic} (hi : i.op = .call c)
    (hc : c.callee = .intrinsic id) : VisitOk si term i A N (si.visitIntrinsicInst id i) := by
  have hmem : id.isMem = true → i.isMemIntrinsic = true := by
    intro h
    obtain ⟨callee, _, _, _, _, _, _⟩ := c
    simp only at hc
    subst hc
    simp [Inst.isMemIntrinsic, hi, h]
  cases id with
  | memcpy => exact visitOk_lowerMemIntrinsic hok rfl (hmem rfl)
  | memmove => exact visitOk_lowerMemIntrinsic hok rfl (hmem rfl)
  | memset => exact visitOk_lowerMemIntrinsic hok rfl (hmem rfl)
  | vaStart => exact visitOk_unpoisonVAListTag hok rfl rfl rfl rfl rfl rfl rfl
  | vaCopy => exact visitOk_unpoisonVAListTag hok rfl rfl rfl rfl rfl rfl rfl
  | lifetimeStart =>
    rw [Site.visitIntrinsicInst]
    split
    · exact VisitOk.nothing hok rfl rfl rfl rfl rfl (by simp [Site.nothing])
        (by simp [Site.nothing])
    · exact VisitOk.nothing hok rfl rfl rfl rfl rfl (by simp [Site.nothing])
        (by simp [Site.nothing])
  | launderInvariantGroup | stripInvariantGroup =>
    refine VisitOk.nothing hok rfl rfl rfl rfl rfl (fun sv hsv => ?_)
      (by simp [Site.visitIntrinsicInst, Site.nothing])
    rw [← Option.some.inj hsv]
    exact hok.shadow _ (isArg_getD i 0 .ptr)
  | maskedCompressstore => exact visitOk_handleMaskedCompressStore hok
  | maskedExpandload => exact visitOk_handleMaskedExpandLoad hok
  | maskedGather => exact visitOk_handleMaskedGather hok
  | maskedScatter => exact visitOk_handleMaskedScatter hok
  | maskedStore => exact visitOk_handleMaskedStore hok
  | maskedLoad => exact visitOk_handleMaskedLoad hok
  | isConstant =>
    refine VisitOk.nothing hok rfl rfl rfl rfl rfl (fun sv hsv => ?_)
      (by simp [Site.visitIntrinsicInst, Site.nothing])
    rw [← Option.some.inj hsv]
    trivial
  | x86SseStmxcsr => exact visitOk_handleStmxcsr hok
  | x86SseLdmxcsr => exact visitOk_handleLdmxcsr hok
  | arith => exact visitOk_handleUnknownIntrinsic hok true
  | other onlyReadsMemory => exact visitOk_handleUnknownIntrinsic hok onlyReadsMemory

/-! ### Calls -/

theorem unpoisonAsmOutputs_ext {outs : List (Val × Ty)} (houts : ∀ o ∈ outs, IsArg i o.1)
    (hext : Builder.Ext PlainOp A N si.builder b) :
    Builder.Ext PlainOp A N si.builder (si.unpoisonAsmOutputs outs b) := by
  induction outs generalizing b with
  | nil => exact hext
  | cons o outs ih =>
    have hrest := fun o' ho' => houts o' (List.mem_cons_of_mem _ ho')
    rw [Site.unpoisonAsmOutputs]
    split
    · obtain ⟨hext', hptr⟩ := hok.shadowPtr (houts o List.mem_cons_self) hext
      refine ih hrest ?_
      dsimp only
      split
      · exact (hext'.emit rfl (avail_pair (avail_getCleanShadow _) hptr)).1
      · refine (hext'.emit rfl fun u hu => ?_).1
        rcases List.mem_cons.mp hu with rfl | hu
        · exact hptr
        · exact avail_pair (by trivial) (by trivial) u hu
    · exact ih hrest hext

theorem visitOk_visitAsmInstruction (outputArgs : ℕ) (elemTys : List Ty) :
    VisitOk si term i A N (si.visitAsmInstruction outputArgs elemTys i) := by
  refine VisitOk.before hok (unpoisonAsmOutputs_ext hok (fun o ho => ?_) (Builder.Ext.refl _))
    rfl rfl rfl rfl (Or.inr ⟨i, rfl, rfl, rfl⟩) (fun sv hsv => ?_)
    (by simp [Site.visitAsmInstruction, Site.emittedBefore, Site.nothing])
  · exact Or.inl (List.mem_of_mem_take (List.of_mem_zip ho).1)
  · simp only [Site.visitAsmInstruction] at hsv
    split_ifs at hsv
    rw [← Option.some.inj hsv]
    trivial

/-- The strengthened ordering stands before the call. -/
theorem SiteOk.strengthenOrdering_ext :
    Builder.Ext PlainOp A N si.builder (Site.strengthenOrdering i si.builder).2 :=
  ((Builder.Ext.refl si.builder).emit rfl (avail_singleton
    ((hok.arg _ (isArg_getD i 3 (.int 32))).mono Set.subset_union_left))).1

theorem visitOk_visitLibAtomicStore : VisitOk si term i A N (si.visitLibAtomicStore i) := by
  obtain ⟨hext, hptr⟩ := hok.shadowPtr (isArg_getD i 2 .ptr) hok.strengthenOrdering_ext
  have hlen := hok.arg _ (isArg_getD i 0 (.int 64))
  refine VisitOk.before hok (hext.emit (o := .memset) (l := [_, .zero (.int 8),
    i.args.getD 0 (.zero (.int 64))]) (y := .void) rfl fun u hu => ?_).1 rfl rfl rfl rfl
    (Or.inr ⟨_, rfl, rfl, rfl⟩)
    (by simp [Site.visitLibAtomicStore, Site.emittedBefore, Site.nothing])
    (by simp [Site.visitLibAtomicStore, Site.emittedBefore, Site.nothing])
  rcases List.mem_cons.mp hu with rfl | hu
  · exact hptr
  · exact avail_pair (by trivial) (hlen.mono Set.subset_union_left) u hu

/-- A handler that emits before and after the instruction. -/
theorem VisitOk.around {b' : Builder} (hext : Builder.Ext PlainOp A N si.builder b)
    (hext' : Builder.Ext PlainOp (A ∪ names b.out) N ⟨b.next, [], b.cache⟩ b')
    (hpre : v.pre = b.out) (hpost : v.post = b'.out) (hnext : v.next = b'.next)
    (hcache : v.cache = b'.cache)
    (hself : ∃ i', v.self = [i'] ∧ i'.name = i.name ∧ i'.op = i.op)
    (hshadow : v.shadow = none) (hchecks : v.checks = []) : VisitOk si term i A N v := by
  obtain ⟨xs, hout, hnextb, hnum, hclosed⟩ := hext.out
  obtain ⟨ys, hout', hnextb', hnum', hclosed'⟩ := hext'.out
  have hxs : b.out = xs := hout
  have hys : b'.out = ys := hout'
  have hboth : Numbered PlainOp si.s.next (xs ++ ys) := by
    refine numbered_append.mpr ⟨hnum, ?_⟩
    have : b.next = si.s.next + xs.length := hnextb
    rw [← this]
    exact hnum'
  refine ⟨?_, ?_, ?_, ?_, ?_, Or.inr hself, by simp [hshadow], by simp [hchecks]⟩
  · rw [hpre, hpost, hxs, hys]
    exact hboth.mono fun o ho => Or.inl ho
  · rw [hpre, hpost, hxs, hys, hnext, hnextb', hnextb, List.length_append, Nat.add_assoc]
    rfl
  · rw [hpre, hpost, hxs, hys]
    refine closed_append.mpr ⟨by simpa [Site.builder] using hclosed, ?_⟩
    rw [← hxs]
    simpa using hclosed'
  · rw [hpre, hpost, hxs, hys]
    exact not_phi_of_plain hboth
  · rw [hcache]
    exact hext'.cache (hext.cache hok.cache hok.next) (hok.next.trans hext.next_le)

theorem visitOk_visitLibAtomicLoad (hname : i.name < N) :
    VisitOk si term i A N (si.visitLibAtomicLoad i) := by
  have hext := hok.strengthenOrdering_ext
  set b := (Site.strengthenOrdering i si.builder).2 with hb
  set i' := (Site.strengthenOrdering i si.builder).1 with hi'
  have hhere : ∀ x ∈ si.here ++ b.out ++ [i'], N ≤ x.name → x.name ∈ A ∪ names b.out := by
    intro x hx hN
    rcases List.mem_append.mp hx with hx | hx
    · rcases List.mem_append.mp hx with hx | hx
      · exact Or.inl (hok.here x hx hN)
      · exact Or.inr ⟨x, hx, rfl⟩
    · rw [List.mem_singleton.mp hx] at hN
      have : i'.name = i.name := rfl
      omega
  have hav : ∀ {k : ℕ} {t : Ty} {B : Set ℕ},
      (i.args.getD k (.zero t)).Avail (A ∪ names b.out ∪ B) := fun {k t B} =>
    ((hok.arg _ (isArg_getD i k t)).mono Set.subset_union_left).mono Set.subset_union_left
  have hbase : ∀ {k : ℕ} {t : Ty} {B : Set ℕ},
      (si.cx.pointerBase (i.args.getD k (.zero t))).1.Avail (A ∪ names b.out ∪ B) := fun {k t B} =>
    ((hok.base _ (isArg_getD i k t)).mono Set.subset_union_left).mono Set.subset_union_left
  have hnext : N ≤ b.next := hok.next.trans hext.next_le
  set b₀ : Builder := ⟨b.next, [], b.cache⟩ with hb₀
  obtain ⟨hsrc, hsrcAv⟩ := getShadowPtr_ext si.cx (si.here ++ b.out ++ [i'])
    (i.args.getD 1 (.zero .ptr)) (A := A ∪ names b.out) (N := N) (b := b₀) hav hbase
    (hext.cache hok.cache hok.next) hhere
  set p := getShadowPtr si.cx (si.here ++ b.out ++ [i']) (i.args.getD 1 (.zero .ptr)) b₀ with hp
  obtain ⟨hdst, hdstAv⟩ := getShadowPtr_ext si.cx (si.here ++ b.out ++ [i'])
    (i.args.getD 2 (.zero .ptr)) (A := A ∪ names b.out) (N := N) (b := p.2) hav hbase
    (hsrc.cache (hext.cache hok.cache hok.next) hnext) hhere
  set q := getShadowPtr si.cx (si.here ++ b.out ++ [i']) (i.args.getD 2 (.zero .ptr)) p.2 with hq
  have hcpy : Builder.Ext PlainOp (A ∪ names b.out) N q.2 (q.2.run
      (emit .memcpy [q.1, p.1, i.args.getD 0 (.zero (.int 64))] .void)).2 := by
    refine (Builder.run_ext (Emit.ok_emit (P := PlainOp) rfl fun u hu => ?_)).1
    rcases List.mem_cons.mp hu with rfl | hu
    · exact hdstAv
    · exact avail_pair (hsrcAv.mono hdst.names_subset) hav u hu
  exact VisitOk.around hok hext (((hsrc.trans hdst).weaken plainOp_of_pure).trans hcpy) rfl rfl rfl
    rfl ⟨i', rfl, rfl, rfl⟩ rfl rfl

theorem avail_eagerArgumentChecks (c : CallInfo) :
    ∀ d ∈ si.eagerArgumentChecks c i, d.1.Avail A := by
  intro d hd
  obtain ⟨a, ha, hd⟩ := List.mem_flatMap.mp hd
  have hmem := List.fst_mem_of_mem_zipIdx (List.mem_filter.mp ha).1
  exact avail_insertShadowCheck (hok.shadow _ (Or.inl hmem)) d hd

theorem visitOk_visitOrdinaryCall (c : CallInfo) :
    VisitOk si term i A N (si.visitOrdinaryCall c i) := by
  refine VisitOk.before hok ?_ rfl rfl rfl rfl (Or.inr ⟨i, rfl, rfl, rfl⟩) (fun sv hsv => ?_) ?_
  · split
    · exact Builder.Ext.refl _
    · exact ((Builder.Ext.refl _).emit rfl (by simp)).1
  · simp only [Site.visitOrdinaryCall] at hsv
    split_ifs at hsv
    rw [← Option.some.inj hsv]
    trivial
  · simp only [Site.visitOrdinaryCall]
    split
    · exact avail_mono (avail_eagerArgumentChecks hok c) Set.subset_union_left
    · simp

theorem visitOk_visitCallBase (c : CallInfo) (hname : i.name < N) :
    VisitOk si term i A N (si.visitCallBase c i) := by
  rw [Site.visitCallBase]
  split
  · split
    · exact visitOk_visitAsmInstruction hok _ _
    · exact visitOk_visitInstruction hok
  · split
    · exact visitOk_visitLibAtomicLoad hok hname
    · split
      · exact visitOk_visitLibAtomicStore hok
      · exact visitOk_visitOrdinaryCall hok c
  · exact visitOk_visitOrdinaryCall hok c

/-! ### Returns, PHIs and allocas -/

theorem visitOk_visitReturnInst : VisitOk si term i A N (si.visitReturnInst i) := by
  have hnothing : VisitOk si term i A N (si.nothing i) :=
    VisitOk.nothing hok rfl rfl rfl rfl rfl (by simp [Site.nothing]) (by simp [Site.nothing])
  rw [Site.visitReturnInst]
  split
  next u _ =>
    split
    · exact hnothing
    · by_cases hc : (if si.opts.checkReturns then isUndefSliceScalar u.ty
          else si.cx.retNoUndef) = true
      · rw [if_pos hc]
        exact VisitOk.nothing hok rfl rfl rfl rfl rfl (by simp [Site.nothing])
          (by simp [Site.nothing])
      · rw [if_neg hc]
        exact hnothing
  next => exact hnothing

omit hok in
theorem visitOk_visitPHINode (hcache : CacheOk N si.s.cache) (incoming : List Label) :
    VisitOk si term i A N (si.visitPHINode incoming i) := by
  have hout : (si.visitPHINode incoming i).pre ++ (si.visitPHINode incoming i).post =
      (emit (.phi incoming) [] (getShadowTy i.ty) si.s.next).1 := by
    simp [Site.visitPHINode, Site.emittedBefore, Site.nothing, Builder.run, Site.builder]
  refine ⟨?_, ?_, ?_, ?_, hcache, Or.inr ⟨i, rfl, rfl, rfl⟩, fun sv hsv => ?_,
    by simp [Site.visitPHINode, Site.emittedBefore, Site.nothing]⟩
  · rw [hout]
    exact ⟨⟨rfl, _, rfl, Or.inr ⟨_, rfl⟩⟩, trivial⟩
  · rw [hout]
    rfl
  · rw [hout]
    exact ⟨fun u hu => absurd hu List.not_mem_nil, trivial⟩
  · rw [hout]
    intro x hx ls _
    rw [emit_run, List.mem_singleton] at hx
    rw [hx]
  · rw [hout, ← Option.some.inj hsv]
    exact Or.inr ⟨_, List.mem_singleton_self _, rfl⟩

theorem visitOk_visit (hname : i.name < N) : VisitOk si term i A N (si.visit term i) := by
  rw [Site.visit]
  split
  next h => exact visitOk_visitLoadInst hok h hname
  next => exact visitOk_visitStoreInst hok
  next => exact visitOk_handleCASOrRMW hok true
  next => exact visitOk_handleCASOrRMW hok false
  next c hi =>
    split
    next id hc => exact visitOk_visitIntrinsicInst hok hi hc
    next => exact visitOk_visitCallBase hok c hname
  next c _ hi => exact visitOk_visitCallBase hok c hname
  next c hi => exact visitOk_visitCallBase hok c hname
  next => exact visitOk_visitReturnInst hok
  next incoming hi => exact visitOk_visitPHINode hok.cache incoming
  next =>
    refine VisitOk.nothing hok rfl rfl rfl rfl rfl (fun sv hsv => ?_)
      (by simp [Site.visitAllocaInst, Site.nothing])
    rw [← Option.some.inj hsv]
    trivial
  next => exact visitOk_visitInstruction hok

/-! ### The undef slice -/

omit hok in
theorem Emit.ok_sextTo {u : Val} {ty : Ty} (h : u.Avail A) :
    Emit.Ok PureOp A (Site.sextTo u ty) := by
  rw [Site.sextTo]
  split_ifs
  · exact Emit.ok_pure h
  · exact Emit.ok_emit rfl (avail_singleton h)

omit hok in
theorem avail_getUndefSliceShadow {u : Val} (h : (si.shadow u).Avail A) :
    (si.getUndefSliceShadow u).Avail A := by
  rw [Site.getUndefSliceShadow]
  split_ifs
  · exact h
  · trivial

omit hok in
theorem Emit.ok_orSliceOperands (us : List Val) (acc : Option Val)
    (hus : ∀ u ∈ us, (si.shadow u).Avail A) (hacc : ∀ a ∈ acc, a.Avail A) :
    Emit.Ok PureOp A (si.orSliceOperands us acc) := by
  induction us generalizing acc A with
  | nil =>
    cases acc with
    | none => exact Emit.ok_pure trivial
    | some a => exact Emit.ok_pure (hacc a rfl)
  | cons u us ih =>
    have hrest : ∀ {B : Set ℕ}, A ⊆ B → ∀ w ∈ us, (si.shadow w).Avail B := fun hB w hw =>
      (hus w (List.mem_cons_of_mem _ hw)).mono hB
    rw [Site.orSliceOperands]
    split_ifs
    · refine (Emit.ok_convertToBool (hus u List.mem_cons_self)).bind fun B x hB hx => ?_
      cases acc with
      | none => exact ih _ (hrest hB) (by simpa using hx)
      | some a =>
        refine (Emit.ok_emit (P := PureOp) (by rfl)
          (avail_pair ((hacc a rfl).mono hB) hx)).bind fun D y hD hy => ?_
        exact ih _ (hrest (hB.trans hD)) (by simpa using hy)
    · exact ih acc (hrest subset_rfl) hacc

theorem Emit.ok_sliceSelectShadow {cond x y : Val} {ty : Ty} (hargs : i.args = [cond, x, y]) :
    Emit.Ok PureOp A (si.sliceSelectShadow cond x y ty) := by
  have hsh : ∀ u ∈ i.args, (si.shadow u).Avail A := fun u hu => hok.shadow u (Or.inl hu)
  have hcond : cond ∈ i.args := by simp [hargs]
  refine (Emit.ok_emit (P := PureOp) (by rfl) fun u hu => ?_).bind fun B sel hB hsel => ?_
  · rcases List.mem_cons.mp hu with rfl | hu
    · exact hok.arg _ (Or.inl hcond)
    · exact avail_pair (avail_getUndefSliceShadow (hsh x (by simp [hargs])))
        (avail_getUndefSliceShadow (hsh y (by simp [hargs]))) u hu
  · split_ifs
    · refine (Emit.ok_convertToBool ((hsh cond hcond).mono hB)).bind fun C c hC hc => ?_
      refine (Emit.ok_sextTo hc).bind fun D wide hD hwide => ?_
      exact Emit.ok_emit rfl (avail_pair ((hsel.mono hC).mono hD) hwide)
    · exact Emit.ok_pure hsel

theorem visitOk_handleUndefSliceInst : VisitOk si term i A N (si.handleUndefSliceInst i) := by
  have hrun : ∀ {m : Emit Val}, Emit.Ok PureOp A m → ∀ v : Visit,
      v = { si.emittedBefore i (si.builder.run m).2 with shadow := some (si.builder.run m).1 } →
      VisitOk si term i A N v := by
    rintro m hm v rfl
    obtain ⟨hext, hav⟩ := Builder.run_ext (A := A) (N := N) (b := si.builder) (P := PlainOp)
      (by simpa [Site.builder] using hm.weaken plainOp_of_pure)
    refine VisitOk.before hok hext rfl rfl rfl rfl (Or.inr ⟨i, rfl, rfl, rfl⟩) (fun sv hsv => ?_)
      (by simp [Site.emittedBefore, Site.nothing])
    rw [← Option.some.inj hsv]
    exact hav
  rw [Site.handleUndefSliceInst]
  split
  next cond x y hop hargs => exact hrun (Emit.ok_sliceSelectShadow hok hargs) _ rfl
  next =>
    split_ifs
    · refine VisitOk.nothing hok rfl rfl rfl rfl rfl (fun sv hsv => ?_) (by simp [Site.nothing])
      rw [← Option.some.inj hsv]
      trivial
    · refine hrun ?_ _ rfl
      refine (Emit.ok_orSliceOperands i.args none (fun u hu => hok.shadow u (Or.inl hu))
        (by simp)).bind fun B acc hB hacc => ?_
      exact Emit.ok_sextTo hacc

theorem avail_sinkCheck {u : Val} (hu : IsArg i u) : ∀ c ∈ si.sinkCheck u, c.1.Avail A := by
  rw [Site.sinkCheck]
  split_ifs
  · exact avail_insertShadowCheck (hok.shadow u hu)
  · simp

omit hok in
/-- The checks at a sink are those of arguments. -/
theorem forall_checkUndefSliceSinks {P : Val × Bool → Prop}
    (hsink : ∀ u, IsArg i u → ∀ c ∈ si.sinkCheck u, P c) :
    ∀ c ∈ si.checkUndefSliceSinks i, P c := by
  have hcall : ∀ c : CallInfo, ∀ d ∈ (i.args.zipIdx.filter fun a : Val × ℕ =>
      decide (a.2 ∈ c.noUndef) && (c.byVal.lookup a.2).isNone).flatMap
        fun a => si.sinkCheck a.1, P d := by
    intro c d hd
    obtain ⟨a, ha, hd⟩ := List.mem_flatMap.mp hd
    exact hsink _ (Or.inl (List.fst_mem_of_mem_zipIdx (List.mem_filter.mp ha).1)) d hd
  rw [Site.checkUndefSliceSinks]
  split
  · exact hsink _ (isArg_getD i 0 .ptr)
  · exact hsink _ (isArg_getD i 0 .ptr)
  · split
    · simp
    · exact hsink _ (isArg_getD i 0 .ptr)
  · split
    · simp
    · exact hsink _ (isArg_getD i 1 .ptr)
  iterate 3
    · split
      · simp
      · simp
      · split
        · simp
        · exact hcall _
  · simp

theorem avail_checkUndefSliceSinks : ∀ c ∈ si.checkUndefSliceSinks i, c.1.Avail A :=
  forall_checkUndefSliceSinks fun _ hu => avail_sinkCheck hok hu

omit hok in
/-- More checks of available shadows. -/
theorem VisitOk.addChecks (hv : VisitOk si term i A N v) {cs : List (Val × Bool)}
    (hcs : ∀ c ∈ cs, c.1.Avail A) (hmem : i.isMemIntrinsic = true → cs = []) :
    VisitOk si term i A N { v with checks := cs ++ v.checks } := by
  refine ⟨hv.numbered, hv.next, hv.closed, hv.phis, hv.cache, ?_, hv.shadow, fun c hc => ?_⟩
  · rcases hv.self with ⟨hself, hi, hchecks⟩ | hself
    · exact Or.inl ⟨hself, hi, by rw [hmem hi, hchecks, List.append_nil]⟩
    · exact Or.inr hself
  rcases List.mem_append.mp hc with hc | hc
  · exact Or.inl ((hcs c hc).mono Set.subset_union_left)
  · exact hv.checks c hc

/-- **One round of the visit.** -/
theorem visitOk_process (hname : i.name < N) : VisitOk si term i A N (si.process term i) := by
  have hvisit : VisitOk si term i A N (si.visit term i) := visitOk_visit hok hname
  have hsinks := avail_checkUndefSliceSinks hok
  have hmem : i.isMemIntrinsic = true → si.checkUndefSliceSinks i = [] := by
    intro h
    rw [Inst.isMemIntrinsic] at h
    split at h
    next hop => simp only [Site.checkUndefSliceSinks, hop]
    next => cases h
  rw [Site.process]
  split
  · exact hvisit
  · dsimp only
    split
    · exact (visitOk_handleUndefSliceInst hok).addChecks hsinks hmem
    · exact hvisit.addChecks hsinks hmem

omit hok in
/-- A PHI uses nothing yet. -/
theorem visitOk_process_phi (hcache : CacheOk N si.s.cache) {incoming : List Label}
    (hi : i.op = .phi incoming) : VisitOk si term i A N (si.process term i) := by
  have hvisit : si.visit term i = si.visitPHINode incoming i := by simp only [Site.visit, hi]
  have htransfer : si.isUndefSliceTransfer i = false := by
    simp [Site.isUndefSliceTransfer, isTransferClass, hi]
  have hsinks : si.checkUndefSliceSinks i = [] := by simp only [Site.checkUndefSliceSinks, hi]
  have hphi : VisitOk si term i A N (si.visitPHINode incoming i) :=
    visitOk_visitPHINode hcache incoming
  rw [Site.process, htransfer, hsinks, hvisit]
  split
  · exact hphi
  · exact hphi.addChecks (by simp) fun _ => rfl

end Handlers

end CQMSan
