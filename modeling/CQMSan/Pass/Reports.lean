import CQMSan.Pass.Prepare

/-!
# What the materialized checks report

Control leaves a block at its terminator or at a barrier. What a visit to a block executes is
therefore the code up to such an instruction `β` (`upTo`), and the check of a shadow is due when
its site is among it (`Check.Executed`).

`Reports` says that some emitted code reports a list of checks: whatever `β` is, the new code
executed then contains a warning (`FiresNew`) iff one of the checks is due and has a poisoned
shadow. This composes (`Reports.foldl`), so it is enough that every group of checks is reported by
the code emitted for it.
-/

namespace CQMSan

/-- Control may leave the block at `x`. -/
def Inst.isStop (x : Inst) : Bool := x.isTerminator || isBBBarrier x

/-- The site of the check is executed when control leaves block `b` at `β`. -/
def Check.Executed (f : Func) (s : St) (b : Label) (β : Inst) (c : Check) : Prop :=
  ∃ i ∈ upTo β.name (s.blockCode f b), i.name = c.origIns.name

/-- One of the checks is due when control leaves block `b` at `β`, and its shadow is poisoned. -/
def Poisoned (cx : Ctx) (s : St) (b : Label) (β : Inst) (ρ : Env) (cs : List Check) : Prop :=
  ∃ c ∈ cs, c.Executed cx.f s b β ∧ considered cx.opts c.shadow = true ∧
    (ρ.val c.shadow).anyBit = true

theorem poisoned_append {cx : Ctx} {s : St} {b : Label} {β : Inst} {ρ : Env} {cs ds : List Check} :
    Poisoned cx s b β ρ (cs ++ ds) ↔ Poisoned cx s b β ρ cs ∨ Poisoned cx s b β ρ ds := by
  simp only [Poisoned, List.mem_append, or_and_right, exists_or]

/-- Of the code that `C'` has and `C` has not, a warning is executed when control leaves the block
at `β`. -/
def FiresNew (ρ : Env) (C C' : List Inst) (β : Inst) : Prop :=
  ∃ x ∈ upTo β.name C', x ∉ C ∧ x.fires ρ = true

section FiresNew

variable {f : Func} {s s' s'' : St} {b : Label} {β : Inst} {ρ : Env}

theorem not_firesNew_self (ρ : Env) (C : List Inst) (β : Inst) : ¬ FiresNew ρ C C β := by
  rintro ⟨x, hx, hnew, -⟩
  exact hnew (upTo_subset hx)

theorem St.Grows.fires_iff (h : St.Grows f s s') (hb : b ∈ f.labels) (hβ : β ∈ s.blockCode f b) :
    Fires ρ (upTo β.name (s'.blockCode f b)) ↔
      Fires ρ (upTo β.name (s.blockCode f b)) ∨
        FiresNew ρ (s.blockCode f b) (s'.blockCode f b) β := by
  constructor
  · rintro ⟨x, hx, hfires⟩
    by_cases hold : x ∈ s.blockCode f b
    · exact Or.inl ⟨x, (h.mem_upTo hb hold hβ).mp hx, hfires⟩
    · exact Or.inr ⟨x, hx, hold, hfires⟩
  · rintro (⟨x, hx, hfires⟩ | ⟨x, hx, -, hfires⟩)
    · exact ⟨x, (h.mem_upTo hb (upTo_subset hx) hβ).mpr hx, hfires⟩
    · exact ⟨x, hx, hfires⟩

theorem St.Grows.firesNew_trans (h : St.Grows f s s') (h' : St.Grows f s' s'') (hb : b ∈ f.labels)
    (hβ : β ∈ s.blockCode f b) :
    FiresNew ρ (s.blockCode f b) (s''.blockCode f b) β ↔
      FiresNew ρ (s.blockCode f b) (s'.blockCode f b) β ∨
        FiresNew ρ (s'.blockCode f b) (s''.blockCode f b) β := by
  have hβ' := (h.sub b hb).subset hβ
  constructor
  · rintro ⟨x, hx, hnew, hfires⟩
    by_cases hx' : x ∈ s'.blockCode f b
    · exact Or.inl ⟨x, (h'.mem_upTo hb hx' hβ').mp hx, hnew, hfires⟩
    · exact Or.inr ⟨x, hx, hx', hfires⟩
  · rintro (⟨x, hx, hnew, hfires⟩ | ⟨x, hx, hnew, hfires⟩)
    · exact ⟨x, (h'.mem_upTo hb (upTo_subset hx) hβ').mpr hx, hnew, hfires⟩
    · exact ⟨x, hx, fun hold => hnew ((h.sub b hb).subset hold), hfires⟩

end FiresNew

/-- From `s` to `s'` code is added that reports the checks `cs`, in terms of the code of `s₀`. -/
structure Reports (cx : Ctx) (s₀ s s' : St) (cs : List Check) : Prop where
  grows : St.Grows cx.f s s'
  fires : ∀ b ∈ cx.f.labels, ∀ β ∈ s₀.blockCode cx.f b, β.isStop = true → ∀ ρ,
    s'.SatTo cx.f b β ρ → AllShadows ρ (cs.map Check.shadow) →
    (FiresNew ρ (s.blockCode cx.f b) (s'.blockCode cx.f b) β ↔ Poisoned cx s₀ b β ρ cs)

section Reports

variable {cx : Ctx} {s₀ s s' s'' : St} {cs ds : List Check}

theorem Reports.refl (hu : Unique cx.f (s.blockCode cx.f) s.next) : Reports cx s₀ s s [] :=
  ⟨.refl hu, fun _ _ _ _ _ _ _ _ => iff_of_false (not_firesNew_self _ _ _) (by simp [Poisoned])⟩

theorem Reports.trans (h : Reports cx s₀ s s' cs) (h' : Reports cx s₀ s' s'' ds)
    (hg : St.Grows cx.f s₀ s) : Reports cx s₀ s s'' (cs ++ ds) := by
  refine ⟨h.grows.trans h'.grows, fun b hb β hβ hstop ρ hsat hty => ?_⟩
  have hβ' := ((hg.trans h.grows).sub b hb).subset hβ
  rw [h.grows.firesNew_trans h'.grows hb ((hg.sub b hb).subset hβ),
    h.fires b hb β hβ hstop ρ (h'.grows.satTo hb hβ' hsat) fun v hv =>
      hty v (by rw [List.map_append]; simp [hv]),
    h'.fires b hb β hβ hstop ρ hsat fun v hv => hty v (by rw [List.map_append]; simp [hv]),
    poisoned_append]

/-- Code for a list of groups reports the checks of all of them. The invariant `I` is what the
steps rely on. -/
theorem Reports.foldl {α : Type} {step : St → α → St} {checks : α → List Check} (I : St → Prop)
    (hI : ∀ s, I s → St.Grows cx.f s₀ s) (gs : List α)
    (hstep : ∀ s, ∀ g ∈ gs, I s → Reports cx s₀ s (step s g) (checks g) ∧ I (step s g))
    (hs : I s) : Reports cx s₀ s (gs.foldl step s) (gs.flatMap checks) ∧ I (gs.foldl step s) := by
  induction gs generalizing s with
  | nil => exact ⟨.refl (hI s hs).unique, hs⟩
  | cons g gs ih =>
    obtain ⟨hrep, hs'⟩ := hstep s g List.mem_cons_self hs
    obtain ⟨hreps, hs''⟩ := ih (fun t g' hg' => hstep t g' (List.mem_cons_of_mem _ hg')) hs'
    exact ⟨hrep.trans hreps (hI s hs), hs''⟩

end Reports

/-! ### Inserting code -/

section Insert

variable {f : Func} {C C' : Label → List Inst} {b c : Label} {l xs r : List Inst} {β z : Inst}
  {n : ℕ} {ρ : Env}

theorem Replaces.firesNew_iff (h : Replaces f C C' b l [] xs (z :: r)) (hu : Unique f C' n)
    (hc : c ∈ f.labels) (hβ : β ∈ C c) :
    FiresNew ρ (C c) (C' c) β ↔ c = b ∧ z ∈ upTo β.name (C c) ∧ Fires ρ xs := by
  constructor
  · rintro ⟨x, hx, hnew, hfires⟩
    rcases (h.mem_upTo hu hc hβ).mp hx with hold | ⟨hcb, hxs, hz⟩
    · exact absurd (upTo_subset hold) hnew
    · exact ⟨hcb, hz, x, hxs, hfires⟩
  · rintro ⟨rfl, hz, x, hxs, hfires⟩
    refine ⟨x, (h.mem_upTo hu hc hβ).mpr (Or.inr ⟨rfl, hxs, hz⟩), fun hold => ?_, hfires⟩
    -- the names of the new code are not in use
    have hnd := hu.code_nodup hc
    rw [h.new, List.append_assoc] at hnd
    rw [h.old, List.append_nil] at hold
    obtain ⟨-, hndr, hdisj⟩ := List.nodup_append.mp hnd
    rcases List.mem_append.mp hold with hold | hold
    · exact hdisj x hold x (List.mem_append_left _ hxs) rfl
    · exact (List.nodup_append.mp hndr).2.2 x hxs x hold rfl

theorem Replaces.sat_upTo (h : Replaces f C C' b l [] xs (z :: r)) (hu : Unique f C' n)
    (hc : c ∈ f.labels) (hβ : β ∈ C c) (hsat : Sat ρ (upTo β.name (C' c))) (hcb : c = b)
    (hz : z ∈ upTo β.name (C c)) : Sat ρ xs :=
  fun x hx => hsat x ((h.mem_upTo hu hc hβ).mpr (Or.inr ⟨hcb, hx, hz⟩))

end Insert

/-- The opcodes of the code of a check. -/
def CheckOp (o : ShOp) : Prop :=
  PureOp o ∨ o = .warning ∨ (∃ noreturn, o = .checkBranch noreturn) ∨ ∃ k, o = .maybeWarning k

theorem numbered_materializeOneCheck (opts : Options) (withCalls : Bool) (v : Val) (n : ℕ) :
    Numbered CheckOp n (materializeOneCheck opts withCalls v n).1 := by
  have hpure : ∀ {m : Emit Val}, Emit.Ok PureOp Set.univ m → Emit.Ok CheckOp Set.univ m :=
    fun h => h.weaken fun o ho => Or.inl ho
  have hemit : ∀ {o : ShOp} {args : List Val} {ty : Ty}, CheckOp o →
      Emit.Ok CheckOp Set.univ (emit o args ty) := fun ho => Emit.ok_emit ho fun v _ => v.avail_univ
  suffices h : Emit.Ok CheckOp Set.univ (materializeOneCheck opts withCalls v) from (h n).1
  rw [materializeOneCheck]
  split_ifs
  · exact .bind_univ (hpure (Emit.ok_convertShadowToScalar v.ty _ v v.avail_univ)) fun u =>
      .bind_univ (hpure (Emit.ok_zextTo u.avail_univ)) fun _ =>
        hemit (Or.inr (Or.inr (Or.inr ⟨_, rfl⟩)))
  · exact .bind_univ (hpure (Emit.ok_convertToBool v.avail_univ)) fun u =>
      hemit (Or.inr (Or.inr (Or.inl ⟨_, rfl⟩)))

theorem numbered_orChecks (opts : Options) (vs : List Val) (acc : Option Val) (n : ℕ) :
    Numbered CheckOp n (orChecks opts vs acc n).1 := by
  induction vs generalizing acc n with
  | nil => trivial
  | cons v vs ih =>
    rw [orChecks.eq_def]
    dsimp only
    split_ifs
    · exact ih acc n
    · exact ⟨⟨rfl, _, rfl, Or.inr (Or.inl rfl)⟩, ih acc (n + 1)⟩
    · exact ⟨⟨rfl, _, rfl, Or.inr (Or.inl rfl)⟩, trivial⟩
    · cases acc with
      | none => exact ih _ n
      | some a =>
        exact numbered_append.mpr ⟨(numbered_orPair a v n).mono fun o ho => Or.inl ho, ih _ _⟩

section Emission

variable {cx : Ctx} {s s' : St} {b : Label} {y : Inst}

/-- Code that only computes executes no warning. -/
theorem St.GrowsBy.not_firesNew (h : St.GrowsBy PureOp cx.f s s') {c : Label}
    (hc : c ∈ cx.f.labels) (β : Inst) (ρ : Env) :
    ¬ FiresNew ρ (s.blockCode cx.f c) (s'.blockCode cx.f c) β := by
  rintro ⟨x, hx, hnew, hfires⟩
  rcases h.ops c hc x (upTo_subset hx) with hold | ⟨o, ho, hpure⟩
  · exact hnew hold
  · rw [Inst.fires, ho] at hfires
    cases o with
    | warning | checkBranch _ | maybeWarning _ => cases hpure
    | _ => cases hfires

/-- Code is inserted before `y` and nowhere else. -/
def InsertsBefore (f : Func) (s s' : St) (b : Label) (y : Inst) : Prop :=
  ∃ l xs r, Replaces f (s.blockCode f) (s'.blockCode f) b l [] xs (y :: r)

theorem InsertsBefore.trans {f : Func} {s s' s'' : St} {n : ℕ}
    (hu : Unique f (s'.blockCode f) n) (h : InsertsBefore f s s' b y)
    (h' : InsertsBefore f s' s'' b y) : InsertsBefore f s s'' b y := by
  obtain ⟨l, xs, r, h⟩ := h
  obtain ⟨l', xs', r', h'⟩ := h'
  have hnd := hu.code_nodup h.mem
  have hsplit : l ++ xs ++ y :: r = l' ++ y :: r' := by
    rw [← h.new, h'.old, List.append_nil]
  rw [h.new] at hnd
  have hyl : y ∉ l ++ xs := fun hy =>
    (List.nodup_append.mp hnd).2.2 y hy y List.mem_cons_self rfl
  have hyr : y ∉ r := (List.nodup_cons.mp (List.nodup_append.mp hnd).2.1).1
  obtain ⟨hl, -, hr⟩ := (List.append_cons_inj_of_notMem hyl hyr).mp hsplit
  refine ⟨l, xs ++ xs', r, h.mem, by simpa using h.old, ?_, fun c hc hcb => ?_⟩
  · rw [h'.new, ← hl, ← hr]
    simp
  · rw [h'.other c hc hcb, h.other c hc hcb]

/-- A check before `y` is executed with `y`. -/
theorem emitCheckAt_spec (hu : Unique cx.f (s.blockCode cx.f) s.next) (hb : b ∈ cx.f.labels)
    (hy : y ∈ s.blockCode cx.f b) (acc : Val) :
    St.GrowsBy CheckOp cx.f s (emitCheckAt cx s y.name acc) ∧
      InsertsBefore cx.f s (emitCheckAt cx s y.name acc) b y ∧
      ∀ c ∈ cx.f.labels, ∀ β ∈ s.blockCode cx.f c, ∀ ρ,
        (emitCheckAt cx s y.name acc).SatTo cx.f c β ρ →
        (c = b → y ∈ upTo β.name (s.blockCode cx.f c) → ShadowVal ρ acc) →
        (FiresNew ρ (s.blockCode cx.f c) ((emitCheckAt cx s y.name acc).blockCode cx.f c) β ↔
          c = b ∧ y ∈ upTo β.name (s.blockCode cx.f c) ∧ (ρ.val acc).anyBit = true) := by
  obtain ⟨l, r, hC⟩ := List.append_of_mem hy
  generalize hm : materializeOneCheck cx.opts (instrumentWithCalls cx.opts
    (countCheck s.splittableBlocksCount acc) acc) acc = m
  have hnum : Numbered CheckOp s.next (m s.next).1 := by
    rw [← hm]
    exact numbered_materializeOneCheck _ _ _ _
  have hrep : Replaces cx.f (s.blockCode cx.f) ((emitCheckAt cx s y.name acc).blockCode cx.f) b l
      [] (m s.next).1 (y :: r) := by
    have := St.emitBefore_replaces (m := m) hu hb hC
    rw [← hm] at this ⊢
    exact this
  have hg : St.GrowsBy CheckOp cx.f s (emitCheckAt cx s y.name acc) := hrep.grows hu hnum (by
    rw [← hm]
    rfl)
  refine ⟨hg, ⟨l, _, r, hrep⟩, fun c hc β hβ ρ hsat hty => ?_⟩
  rw [hrep.firesNew_iff hg.unique hc hβ]
  refine and_congr_right fun hcb => and_congr_right fun hyβ => ?_
  have hsatm := hrep.sat_upTo hg.unique hc hβ hsat hcb hyβ
  rw [← hm] at hsatm ⊢
  exact materializeOneCheck_fires (hty hcb hyβ) hsatm

/-- `materializeInstructionChecks`, when the checks go before `y`. -/
theorem materializeInstructionChecks_spec (hu : Unique cx.f (s.blockCode cx.f) s.next)
    (hb : b ∈ cx.f.labels) (hy : y ∈ s.blockCode cx.f b) {n : ℕ} {cs : List Check}
    (hip : checkInsertPoint s cx.f n cs = y.name) :
    St.GrowsBy CheckOp cx.f s (materializeInstructionChecks cx s n cs) ∧
      InsertsBefore cx.f s (materializeInstructionChecks cx s n cs) b y ∧
      ∀ c ∈ cx.f.labels, ∀ β ∈ s.blockCode cx.f c, ∀ ρ,
        (materializeInstructionChecks cx s n cs).SatTo cx.f c β ρ →
        AllShadows ρ (cs.map Check.shadow) →
        (FiresNew ρ (s.blockCode cx.f c)
            ((materializeInstructionChecks cx s n cs).blockCode cx.f c) β ↔
          c = b ∧ y ∈ upTo β.name (s.blockCode cx.f c) ∧
            anyPoisoned ρ ((cs.map Check.shadow).filter (considered cx.opts)) = true) := by
  obtain ⟨l, r, hC⟩ := List.append_of_mem hy
  rw [materializeInstructionChecks, hip]
  dsimp only
  have hnum := numbered_orChecks cx.opts (cs.map Check.shadow) none s.next
  have hsound := fun (ρ : Env) (hty : AllShadows ρ (cs.map Check.shadow)) =>
    orChecks_sound (ρ := ρ) (n := s.next) cx.opts (cs.map Check.shadow) none (by simp [AllShadows])
      hty
  generalize orChecks cx.opts (cs.map Check.shadow) none s.next = res at hnum hsound
  obtain ⟨code, acc⟩ := res
  dsimp only at hnum hsound ⊢
  set s₁ : St := { s.insertBefore y.name code with next := s.next + code.length } with hs₁
  have hrep : Replaces cx.f (s.blockCode cx.f) (s₁.blockCode cx.f) b l [] code (y :: r) :=
    St.insertBefore_replaces hu hb hC
  have hg : St.GrowsBy CheckOp cx.f s s₁ := hrep.grows hu hnum rfl
  cases acc with
  | none =>
    refine ⟨hg, ⟨l, _, r, hrep⟩, fun c hc β hβ ρ hsat hty => ?_⟩
    rw [hrep.firesNew_iff hg.unique hc hβ]
    refine and_congr_right fun hcb => and_congr_right fun hyβ => ?_
    have := (hsound ρ hty (hrep.sat_upTo hg.unique hc hβ hsat hcb hyβ)).2
    simpa using this
  | some acc =>
    have hy₁ := (hg.sub b hb).subset hy
    obtain ⟨hg', hins, hfires⟩ := emitCheckAt_spec hg.unique hb hy₁ acc
    refine ⟨hg.trans hg', .trans hg.unique ⟨l, _, r, hrep⟩ hins, fun c hc β hβ ρ hsat hty => ?_⟩
    have hβ₁ := (hg.sub c hc).subset hβ
    have hyβ₁ : c = b → (y ∈ upTo β.name (s₁.blockCode cx.f c) ↔
        y ∈ upTo β.name (s.blockCode cx.f c)) := by
      rintro rfl
      exact hg.mem_upTo hc hy hβ
    have hsat₁ := hg'.satTo hc hβ₁ hsat
    have hres := fun hcb hyβ => hsound ρ hty (hrep.sat_upTo hg.unique hc hβ hsat₁ hcb hyβ)
    rw [hg.firesNew_trans hg'.toGrows hc hβ, hrep.firesNew_iff hg.unique hc hβ,
      hfires c hc β hβ₁ ρ hsat fun hcb hyβ => (hres hcb ((hyβ₁ hcb).mp hyβ)).1 acc (by simp)]
    have hiff : c = b → y ∈ upTo β.name (s.blockCode cx.f c) →
        (Fires ρ code ∨ (ρ.val acc).anyBit = true ↔
          anyPoisoned ρ ((cs.map Check.shadow).filter (considered cx.opts)) = true) := by
      intro hcb hyβ
      simpa using (hres hcb hyβ).2
    constructor
    · rintro (⟨hcb, hyβ, hcode⟩ | ⟨hcb, hyβ, hbit⟩)
      · exact ⟨hcb, hyβ, (hiff hcb hyβ).mp (Or.inl hcode)⟩
      · have hyβ' := (hyβ₁ hcb).mp hyβ
        exact ⟨hcb, hyβ', (hiff hcb hyβ').mp (Or.inr hbit)⟩
    · rintro ⟨hcb, hyβ, hpois⟩
      refine ((hiff hcb hyβ).mpr hpois).imp (fun h => ⟨hcb, hyβ, h⟩) fun h => ⟨hcb, ?_, h⟩
      exact (hyβ₁ hcb).mpr hyβ

/-- `emitCoalescedCheck`, before the anchor `a`. -/
theorem emitCoalescedCheck_spec (hu : Unique cx.f (s.blockCode cx.f) s.next) (hb : b ∈ cx.f.labels)
    {a : Inst} (ha : a ∈ s.blockCode cx.f b) (hphi : a.isPhi = false) (hpad : a.isEHPad = false)
    {vs : List Val} (hne : vs ≠ []) :
    St.GrowsBy CheckOp cx.f s (emitCoalescedCheck cx s a.name vs) ∧
      ∀ c ∈ cx.f.labels, ∀ β ∈ s.blockCode cx.f c, ∀ ρ,
        (emitCoalescedCheck cx s a.name vs).SatTo cx.f c β ρ → AllShadows ρ vs →
        (FiresNew ρ (s.blockCode cx.f c)
            ((emitCoalescedCheck cx s a.name vs).blockCode cx.f c) β ↔
          c = b ∧ a ∈ upTo β.name (s.blockCode cx.f c) ∧ anyPoisoned ρ vs = true) := by
  obtain ⟨hg, hbool⟩ := coalescedOr_sound hu hb ha hphi hpad hne
  rw [emitCoalescedCheck, if_neg (by simpa using hne)]
  generalize coalescedOr cx s a.name vs = res at hg hbool
  obtain ⟨acc, s₁⟩ := res
  dsimp only at hg hbool ⊢
  have ha₁ := (hg.sub b hb).subset ha
  obtain ⟨hg', -, hfires⟩ := emitCheckAt_spec hg.unique hb ha₁ acc
  refine ⟨(hg.mono fun o ho => Or.inl ho).trans hg', fun c hc β hβ ρ hsat hty => ?_⟩
  have hβ₁ := (hg.sub c hc).subset hβ
  have haβ : c = b → (a ∈ upTo β.name (s₁.blockCode cx.f c) ↔
      a ∈ upTo β.name (s.blockCode cx.f c)) := by
    rintro rfl
    exact hg.mem_upTo hc ha hβ
  -- the code up to the anchor is executed when the anchor is
  have hacc : c = b → a ∈ upTo β.name (s₁.blockCode cx.f c) → IsBool ρ acc (anyPoisoned ρ vs) := by
    rintro rfl haβ₁
    refine hbool ρ (fun x hx => hg'.satTo hc hβ₁ hsat x ?_) hty
    have hnd := hg.unique.nodup c hc
    rw [mem_upTo hnd ha₁] at hx
    rw [mem_upTo hnd hβ₁] at haβ₁ ⊢
    rcases hx with rfl | hx
    · exact haβ₁
    · rcases haβ₁ with rfl | haβ₁
      · exact Or.inr hx
      · exact Or.inr (hx.trans (hnd.of_map _) haβ₁)
  rw [hg.firesNew_trans hg'.toGrows hc hβ, or_iff_right (hg.not_firesNew hc β ρ),
    hfires c hc β hβ₁ ρ hsat fun hcb h => (hacc hcb h).shadowVal]
  refine and_congr_right fun hcb => ?_
  rw [← haβ hcb]
  refine and_congr_right fun h => ?_
  rw [(hacc hcb h).anyBit]

end Emission

end CQMSan
