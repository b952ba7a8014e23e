import CQMSan.Pass.Grouping
import CQMSan.Pass.Reports
import CQMSan.Pass.ShadowSorts

/-!
# Coalescing keeps the reports

`materializeChecksLegacy` checks every site on its own; `materializeCoalescedChecks` checks the
essential sites on their own and the others together, at the first barrier or at the terminator
that follows them. Both report the same checks: whatever the instruction `β` is at which control
leaves a block, the code executed up to `β` warns under one strategy iff it does under the other.

The code of a group of checks goes before an instruction that is executed with the site of the
group (`SiteOf`). For the checks of one site this is the site, or what follows the shadow load of
a load (`checkInsertPoint_spec`); for coalesced checks it is the anchor (`anchorFor_spec`). In
between, the shadow load of a load stays in one piece (`Emitting`).
-/

namespace CQMSan

/-! ### Shadow loads stay in one piece -/

section LoadAt

variable {f : Func} {C C' : Label → List Inst} {c : Check} {b d : Label} {i S y : Inst}
  {l xs r : List Inst} {n : ℕ}

/-- Code may be inserted before an instruction that is not part of the shadow load. -/
theorem Check.LoadAt.insertBefore (hc : c.LoadAt f C b i S) (hu : Unique f C' n)
    (h : Replaces f C C' d l [] xs (y :: r))
    (hy : d = b → Before (C b) i y → ¬ (y = S ∨ Before (C b) y S)) : c.LoadAt f C' b i S := by
  have hsub := h.sublist b hc.site.label
  have hnd := hu.code_nodup hc.site.label
  refine ⟨⟨hc.site.label, hsub.subset hc.site.mem, hc.site.name, hc.site.op⟩, hc.op,
    hc.deferrable, hc.term, hc.before.mono hsub, hc.shadow, hc.shadowOp, fun x hix hxS => ?_⟩
  have hi := hc.site.mem
  have hS := hc.before.mem.2
  by_cases hx : x ∈ C b
  · exact hc.between x (hix.of_sublist hnd hsub hi hx) (hxS.of_sublist hnd hsub hx hS)
  · exfalso
    by_cases hdb : d = b
    · subst hdb
      rw [h.old, List.append_nil] at hx hi hS
      have hndC : (l ++ y :: r).Nodup := by
        have := hsub.nodup hnd
        rwa [h.old, List.append_nil] at this
      have hxs : x ∈ xs := by
        have := hix.mem.2
        rw [h.new, List.mem_append, List.mem_append] at this
        simp only [List.mem_append, not_or] at hx
        tauto
      -- what stands before `x` stood before `y`, and what stands behind it did not
      have hmem : ∀ z ∈ l ++ y :: r, (Before (C' d) z x → z ∈ l) ∧
          (Before (C' d) x z → z ∈ y :: r) := by
        intro z hz
        obtain ⟨xs₁, xs₂, rfl⟩ := List.append_of_mem hxs
        have hnew : C' d = (l ++ xs₁) ++ x :: (xs₂ ++ y :: r) := by rw [h.new]; simp
        rw [hnew] at hnd ⊢
        rw [before_left hnd, before_right hnd]
        have hdisj := (List.nodup_append.mp hnd).2.2
        rcases List.mem_append.mp hz with hz | hz
        · refine ⟨fun _ => hz, fun h' => absurd rfl (hdisj z (List.mem_append_left _ hz) z ?_)⟩
          exact List.mem_cons_of_mem _ h'
        · refine ⟨fun h' => absurd rfl (hdisj z h' z ?_), fun _ => hz⟩
          exact List.mem_cons_of_mem _ (List.mem_append_right _ hz)
      have hil := (hmem i hi).1 hix
      have hSr := (hmem S hS).2 hxS
      have hold : C d = l ++ y :: r := by rw [h.old]; simp
      rw [hold] at hy
      refine hy rfl ((before_left hndC).mpr hil) ?_
      rcases List.mem_cons.mp hSr with rfl | hSr
      · exact Or.inl rfl
      · exact Or.inr ((before_right hndC).mpr hSr)
    · have := hix.mem.2
      rw [h.other b hc.site.label (Ne.symm hdb)] at this
      exact hx this

end LoadAt

/-- What the emission of checks relies on: code was only added, and no code was added to a shadow
load. -/
structure Emitting (f : Func) (s₀ s : St) : Prop where
  grows : St.Grows f s₀ s
  loads : ∀ {c : Check} {b : Label} {i S : Inst}, c.LoadAt f (s₀.blockCode f) b i S →
    c.LoadAt f (s.blockCode f) b i S

theorem Emitting.refl {f : Func} {s : St} (hu : Unique f (s.blockCode f) s.next) :
    Emitting f s s := ⟨.refl hu, id⟩

/-! ### Where the checks of a site go -/

section InsertPoint

variable {code l r : List Inst} {x y : Inst}

/-- The insertion point after an instruction that is no PHI comes after it. -/
theorem before_insertPointAfter (hnd : (code.map Inst.name).Nodup) (hx : x ∈ code)
    (hphi : x.isPhi = false) (hy : y ∈ code) (hip : insertPointAfter code x = some y.name) :
    Before code x y := by
  obtain ⟨l, r, rfl⟩ := List.append_of_mem hx
  have hnd' : (l ++ x :: r).Nodup := hnd.of_map _
  have hfrom : (l ++ x :: r).dropWhile (·.name ≠ x.name) = x :: r := by
    rw [List.dropWhile_append_of_pos, List.dropWhile_cons_of_neg (by simp)]
    intro z hz
    rw [List.map_append, List.map_cons] at hnd
    simpa using (List.nodup_append.mp hnd).2.2 _ (List.mem_map_of_mem hz) _ List.mem_cons_self
  rw [insertPointAfter, if_neg (by simp [hphi]), hfrom, List.drop_one, List.tail_cons] at hip
  obtain ⟨z, hz, hzy⟩ := Option.map_eq_some_iff.mp hip
  have hzr : z ∈ r := (List.dropWhile_suffix _).subset (List.mem_of_mem_head? hz)
  obtain rfl : z = y := List.inj_on_of_nodup_map hnd (by simp [hzr]) hy hzy
  exact (before_right hnd').mpr hzr

/-- Code for after `x` goes before the next instruction, PHIs and exception pads left out. -/
theorem exists_insertPointAfter {t : Inst} (hnd : (code.map Inst.name).Nodup)
    (hphi : x.isPhi = false) (ht : Before code x t) (htphi : t.isPhi = false)
    (htpad : t.isEHPad = false) :
    ∃ y ∈ code, insertPointAfter code x = some y.name ∧ Before code x y ∧
      ∀ a, Before code x a → a.isPhi = false → a.isEHPad = false → y = a ∨ Before code y a := by
  have hpoint : ∀ a, Before code x a → a.isPhi = false → a.isEHPad = false →
      ∃ y ∈ code, insertPointAfter code x = some y.name ∧ (y = a ∨ Before code y a) := by
    intro a ha haphi hapad
    obtain ⟨l, r, hcode, har⟩ := before_iff.mp ha
    refine insertPointAfter_isSome hcode (fun z hz => ?_) har haphi hapad
    rw [hcode, List.map_append, List.map_cons] at hnd
    exact (List.nodup_append.mp hnd).2.2 _ (List.mem_map_of_mem hz) _ List.mem_cons_self
  obtain ⟨y, hy, hip, -⟩ := hpoint t ht htphi htpad
  refine ⟨y, hy, hip, before_insertPointAfter hnd ht.mem.1 hphi hy hip, fun a ha haphi hapad => ?_⟩
  obtain ⟨z, hz, hipz, hza⟩ := hpoint a ha haphi hapad
  obtain rfl : z = y :=
    List.inj_on_of_nodup_map hnd hz hy (Option.some.inj (hipz.symm.trans hip))
  exact hza

end InsertPoint

theorem Inst.isPhi_of_isStop {x : Inst} (h : x.isStop = true) : x.isPhi = false := by
  rw [Inst.isStop, Inst.isTerminator, isBBBarrier, Inst.transfers, Inst.mayThrow,
    Inst.willReturn] at h
  rw [Inst.isPhi]
  cases hop : x.op with
  | phi ls => simp [hop] at h
  | sh o => cases o <;> simp [hop, ShOp.transfers] at h ⊢
  | _ => rfl

section Site

variable {cx : Ctx} {s₀ s : St} {c : Check} {b : Label} {i S : Inst}

/-- The terminator of a block, in the code before the checks. -/
theorem Prepared.terminator (hs : Prepared cx s₀) (hb : b ∈ cx.f.labels) :
    ∃ t ∈ s₀.blockCode cx.f b, t.isStop = true ∧ t.op = (cx.f.terminator b).op ∧
      ∀ x ∈ s₀.blockCode cx.f b,
        x = t ∨ x.isTerminator = false ∧ Before (s₀.blockCode cx.f b) x t := by
  obtain ⟨body, t, hC, hop, hterm, hbody⟩ := hs.terms b hb
  have hnd := hs.unique.code_nodup hb
  refine ⟨t, by simp [hC], by simp [Inst.isStop, hterm], hop, fun x hx => ?_⟩
  rw [hC] at hx hnd ⊢
  rcases List.mem_append.mp hx with hx | hx
  · exact Or.inr ⟨hbody x hx, (before_left hnd).mpr hx⟩
  · exact Or.inl (List.mem_singleton.mp hx)

/-- Code can be inserted before what follows the site of a check: pads come first in a block. -/
theorem Prepared.isEHPad_of_site (hs : Prepared cx s₀) (hb : b ∈ cx.f.labels)
    (hi : i.isInserted = false) (hphi : i.isPhi = false) (hpad : i.isEHPad = false) {a : Inst}
    (h : i = a ∨ Before (s₀.blockCode cx.f b) i a) : a.isEHPad = false := by
  rcases h with rfl | h
  · exact hpad
  · cases ha : a.isEHPad with
    | false => rfl
    | true => exact absurd (hphi.symm.trans (hs.pads b hb i a h ha hi)) Bool.false_ne_true

/-- Nothing of a shadow load is an instruction of the source but the load. -/
theorem Check.LoadAt.not_source (hc : c.LoadAt cx.f (s.blockCode cx.f) b i S) {y : Inst}
    (hy : y.isInserted = false) (hiy : Before (s.blockCode cx.f b) i y) :
    ¬ (y = S ∨ Before (s.blockCode cx.f b) y S) := by
  rintro (rfl | hyS)
  · rw [Inst.isInserted, hc.shadowOp] at hy
    cases hy
  · obtain ⟨o, ho, -⟩ := hc.between y hiy hyS
    rw [Inst.isInserted, ho] at hy
    cases hy

/-- What follows a shadow load is no part of another one. -/
theorem Check.LoadAt.not_next (hu : Unique cx.f (s.blockCode cx.f) s.next)
    (hc : c.LoadAt cx.f (s.blockCode cx.f) b i S) {d : Check} {j T y : Inst}
    (hd : d.LoadAt cx.f (s.blockCode cx.f) b j T) (hSy : Before (s.blockCode cx.f b) S y)
    (hnext : ∀ a, Before (s.blockCode cx.f b) S a → a.isPhi = false → a.isEHPad = false →
      y = a ∨ Before (s.blockCode cx.f b) y a)
    (hjy : Before (s.blockCode cx.f b) j y) : ¬ (y = T ∨ Before (s.blockCode cx.f b) y T) := by
  have hnd := hu.code_nodup hc.site.label
  have hjop : j.op = .load := hd.site.op.trans hd.op
  intro hyT
  have hST : Before (s.blockCode cx.f b) S T := by
    rcases hyT with rfl | hyT
    · exact hSy
    · exact hSy.trans hnd hyT
  rcases before_trichotomy hc.before.mem.2 hd.site.mem with rfl | hSj | hjS
  · rw [hc.shadowOp] at hjop
    cases hjop
  · -- the load comes after `S`, and `y` is the first such instruction
    rcases hnext j hSj (by rw [Inst.isPhi, hjop]) (by rw [Inst.isEHPad, hjop]) with rfl | hyj
    · exact Before.irrefl hnd hjy
    · exact hjy.asymm hnd hyj
  · -- the load of shadow is no address arithmetic
    obtain ⟨o, ho, hpure⟩ := hd.between S hjS hST
    rw [hc.shadowOp] at ho
    cases ho
    cases hpure

end Site

section CheckInsertPoint

variable {cx : Ctx} {s₀ s : St} {b : Label} {i : Inst} {cs : List Check}

/-- The checks of the list have the site `n`, and their places are known. -/
def ChecksAt (cx : Ctx) (s₀ : St) (n : ℕ) (cs : List Check) : Prop :=
  ∀ c ∈ cs, c.shadow.Avail (Set.Iio s₀.next) ∧ c.PlacedIn cx.f (s₀.blockCode cx.f) ∧
    c.origIns.name = n

/-- A check whose shadow is defined at the site or behind it is that of a load. -/
theorem ChecksAt.loadAt (hu : Unique cx.f (s₀.blockCode cx.f) s₀.next) (he : Emitting cx.f s₀ s)
    (hcs : ChecksAt cx s₀ i.name cs) (hb : b ∈ cx.f.labels) (hi : i ∈ s₀.blockCode cx.f b)
    {c : Check} (hc : c ∈ cs) {x : Inst} (hx : x = i ∨ Before (s.blockCode cx.f b) i x)
    (hshadow : c.shadow = x.val) : c.LoadAt cx.f (s₀.blockCode cx.f) b i x := by
  obtain ⟨hav, hplaced, hname⟩ := hcs c hc
  have hsite : ∀ {d : Label} {j : Inst}, c.SiteAt cx.f (s₀.blockCode cx.f) d j → d = b ∧ j = i := by
    intro d j hat
    obtain rfl := hu.block d hat.label b hb j hat.mem i hi (hat.name.trans hname)
    exact ⟨rfl, List.inj_on_of_nodup_map (hu.nodup d hb) hat.mem hi (hat.name.trans hname)⟩
  rcases hplaced with ⟨d, j, hearly⟩ | ⟨d, j, T, hload⟩
  · obtain ⟨rfl, rfl⟩ := hsite hearly.site
    refine absurd ?_ ((hearly.grows he.grows hav).early x hx)
    exact ⟨x, List.mem_singleton_self x, x.ty, hshadow⟩
  · obtain ⟨rfl, rfl⟩ := hsite hload.site
    have hT := (he.loads hload).before.mem.2
    have hxmem : x ∈ s.blockCode cx.f d := by
      rcases hx with rfl | hx
      · exact (he.grows.sub d hb).subset hi
      · exact hx.mem.2
    have hval : T.name = x.name := (Val.inst.inj (hload.shadow.symm.trans hshadow)).1
    obtain rfl := List.inj_on_of_nodup_map (he.grows.unique.nodup d hb) hT hxmem hval
    exact hload

/-- **The checks of a site go before an instruction that is executed with the site**, and not into
a shadow load. -/
theorem checkInsertPoint_spec (hs : Prepared cx s₀) (he : Emitting cx.f s₀ s)
    (hcs : ChecksAt cx s₀ i.name cs) (hb : b ∈ cx.f.labels) (hi : i ∈ s₀.blockCode cx.f b)
    (hsrc : i.isInserted = false) :
    ∃ y ∈ s.blockCode cx.f b, checkInsertPoint s cx.f i.name cs = y.name ∧
      (∀ β ∈ s₀.blockCode cx.f b, β.isStop = true →
        (y ∈ upTo β.name (s.blockCode cx.f b) ↔ i ∈ upTo β.name (s.blockCode cx.f b))) ∧
      ∀ {d : Check} {j T : Inst}, d.LoadAt cx.f (s.blockCode cx.f) b j T →
        Before (s.blockCode cx.f b) j y → ¬ (y = T ∨ Before (s.blockCode cx.f b) y T) := by
  have hu := he.grows.unique
  have hsub := he.grows.sub b hb
  have hi' := hsub.subset hi
  have hnd := hu.nodup b hb
  obtain ⟨l, r, hC⟩ := List.append_of_mem hi'
  have hfrom : s.codeFrom cx.f i.name = i :: r := St.codeFrom_eq hu hb hC
  have hcode : s.codeOf cx.f i.name = s.blockCode cx.f b := St.codeOf_eq hu hb hi'
  rw [checkInsertPoint, hfrom, hcode]
  cases hlast : lastShadowIn ((i :: r).takeWhile fun x => !isSplit x) cs with
  | none => exact ⟨i, hi', rfl, fun _ _ _ => Iff.rfl, fun hd => hd.not_source hsrc⟩
  | some S =>
    have hmem := List.mem_of_getLast? hlast
    obtain ⟨hregion, hany⟩ := List.mem_filter.mp hmem
    obtain ⟨c, hc, hshadow⟩ := List.any_eq_true.mp hany
    have hiS : S = i ∨ Before (s.blockCode cx.f b) i S := by
      rw [hC]
      rcases List.mem_cons.mp ((List.takeWhile_prefix _).subset hregion) with rfl | hSr
      · exact Or.inl rfl
      · exact Or.inr (before_iff.mpr ⟨l, r, rfl, hSr⟩)
    have hload₀ := hcs.loadAt hs.unique he hb hi hc hiS (of_decide_eq_true hshadow)
    have hload := he.loads hload₀
    have hSphi : S.isPhi = false := by rw [Inst.isPhi, hload.shadowOp]
    have hstops : ∀ β ∈ s₀.blockCode cx.f b, β.isStop = true →
        i ∈ upTo β.name (s.blockCode cx.f b) → Before (s.blockCode cx.f b) S β := by
      intro β hβ hstop hiβ
      have hβ' := hsub.subset hβ
      have hne : ∀ x : Inst, (∃ o, x.op = .sh o ∧ LoadOp o) ∨ x.op = .load → x ≠ β := by
        rintro x hx rfl
        have htrans : x.isTerminator = false ∧ x.transfers = true := by
          rcases hx with ⟨o, ho, hop⟩ | hop
          · exact ⟨Inst.isTerminator_of_sh ho, transfers_of_loadOp ho hop⟩
          · exact ⟨by rw [Inst.isTerminator, hop], by
              simp [Inst.transfers, hop, Inst.mayThrow, Inst.willReturn]⟩
        rw [Inst.isStop, isBBBarrier, htrans.1, htrans.2] at hstop
        cases hstop
      rcases (mem_upTo hnd hβ').mp hiβ with rfl | hiβ
      · exact absurd rfl (hne i (Or.inr (hload.site.op.trans hload.op)))
      · rcases before_trichotomy hload.before.mem.2 hβ' with rfl | h | h
        · exact absurd rfl (hne S (Or.inl ⟨.load, hload.shadowOp, Or.inr rfl⟩))
        · exact h
        · obtain ⟨o, ho, hpure⟩ := hload.between β hiβ h
          exact absurd rfl (hne β (Or.inl ⟨o, ho, Or.inl hpure⟩))
    obtain ⟨t, ht, htstop, -, htlast⟩ := hs.terminator hb
    have hStop : Before (s.blockCode cx.f b) S t := by
      rcases htlast S hload₀.before.mem.2 with rfl | ⟨-, h⟩
      · rw [Inst.isStop, isBBBarrier, Inst.isTerminator_of_sh hload.shadowOp,
          transfers_of_loadOp hload.shadowOp (Or.inr rfl)] at htstop
        cases htstop
      · exact h.mono hsub
    have hiop : i.op = .load := hload₀.site.op.trans hload₀.op
    have hpads : ∀ {β : Inst}, β ∈ s₀.blockCode cx.f b → Before (s.blockCode cx.f b) S β →
        β.isEHPad = false := by
      intro β hβ hSβ
      refine hs.isEHPad_of_site hb hsrc (by rw [Inst.isPhi, hiop]) (by rw [Inst.isEHPad, hiop])
        (Or.inr ?_)
      exact (hload.before.trans (hnd.of_map _) hSβ).of_sublist (hnd.of_map _) hsub hi hβ
    obtain ⟨y, hy, hip, hSy, hnext⟩ := exists_insertPointAfter hnd hSphi hStop
      (Inst.isPhi_of_isStop htstop) (hpads ht hStop)
    refine ⟨y, hy, by simp only [hip, Option.getD_some], fun β hβ hstop => ?_,
      fun hd hjy => hload.not_next hu hd hSy hnext hjy⟩
    have hβ' := hsub.subset hβ
    constructor
    · intro hyβ
      have hiy := hload.before.trans (hnd.of_map _) hSy
      rw [mem_upTo hnd hβ'] at hyβ ⊢
      rcases hyβ with rfl | hyβ
      · exact Or.inr hiy
      · exact Or.inr (hiy.trans (hnd.of_map _) hyβ)
    · intro hiβ
      have hSβ := hstops β hβ hstop hiβ
      exact (mem_upTo hnd hβ').mpr (hnext β hSβ (Inst.isPhi_of_isStop hstop) (hpads hβ hSβ))

theorem Check.PlacedIn.site {c : Check} {f : Func} {C : Label → List Inst} (h : c.PlacedIn f C) :
    ∃ b i, c.SiteAt f C b i := by
  rcases h with ⟨b, i, h⟩ | ⟨b, i, S, h⟩
  · exact ⟨b, i, h.site⟩
  · exact ⟨b, i, h.site⟩

/-- The site of a check is executed when its instruction is. -/
theorem Check.executed_iff {f : Func} {c : Check} {β : Inst} {d : Label}
    (hu : Unique f (s₀.blockCode f) s₀.next) (hb : b ∈ f.labels) (hi : i ∈ s₀.blockCode f b)
    (hname : c.origIns.name = i.name) (hd : d ∈ f.labels) :
    c.Executed f s₀ d β ↔ d = b ∧ i ∈ upTo β.name (s₀.blockCode f d) := by
  constructor
  · rintro ⟨j, hj, hjname⟩
    have hjmem := upTo_subset hj
    obtain rfl := hu.block d hd b hb j hjmem i hi (hjname.trans hname)
    obtain rfl := List.inj_on_of_nodup_map (hu.nodup d hb) hjmem hi (hjname.trans hname)
    exact ⟨rfl, hj⟩
  · rintro ⟨rfl, h⟩
    exact ⟨i, h, hname.symm⟩

/-- **The checks of a site are reported by the code emitted for them.** -/
theorem reports_site (hs : Prepared cx s₀) (he : Emitting cx.f s₀ s) {n : ℕ}
    (hcs : ChecksAt cx s₀ n cs) (hne : cs ≠ []) (hsrc : ∀ c ∈ cs, c.origIns.isInserted = false) :
    Reports cx s₀ s (materializeInstructionChecks cx s n cs) cs ∧
      Emitting cx.f s₀ (materializeInstructionChecks cx s n cs) := by
  obtain ⟨c₀, hc₀⟩ := List.exists_mem_of_ne_nil cs hne
  obtain ⟨b, i, hb, hi, hname, hop⟩ := (hcs c₀ hc₀).2.1.site
  obtain rfl : i.name = n := hname.trans (hcs c₀ hc₀).2.2
  have hisrc : i.isInserted = false := by
    rw [Inst.isInserted, hop]
    exact hsrc c₀ hc₀
  obtain ⟨y, hy, hip, hstop, hout⟩ := checkInsertPoint_spec hs he hcs hb hi hisrc
  obtain ⟨hg, ⟨l, xs, r, hrep⟩, hfires⟩ :=
    materializeInstructionChecks_spec he.grows.unique hb hy hip
  refine ⟨⟨hg.toGrows, fun d hd β hβ hβstop ρ hsat hty => ?_⟩, he.grows.trans hg.toGrows,
    fun hload => ?_⟩
  · rw [hfires d hd β ((he.grows.sub d hd).subset hβ) ρ hsat hty]
    have hexec : d = b → (y ∈ upTo β.name (s.blockCode cx.f d) ↔
        i ∈ upTo β.name (s₀.blockCode cx.f d)) := by
      rintro rfl
      rw [hstop β hβ hβstop, he.grows.mem_upTo hb hi hβ]
    rw [anyPoisoned_iff, Poisoned]
    simp only [List.mem_filter, List.mem_map]
    constructor
    · rintro ⟨rfl, hyβ, v, ⟨⟨c, hc, rfl⟩, hcon⟩, hbit⟩
      exact ⟨c, hc, (Check.executed_iff hs.unique hb hi (hcs c hc).2.2 hd).mpr
        ⟨rfl, (hexec rfl).mp hyβ⟩, hcon, hbit⟩
    · rintro ⟨c, hc, hex, hcon, hbit⟩
      obtain ⟨rfl, hiβ⟩ := (Check.executed_iff hs.unique hb hi (hcs c hc).2.2 hd).mp hex
      exact ⟨rfl, (hexec rfl).mpr hiβ, c.shadow, ⟨⟨c, hc, rfl⟩, hcon⟩, hbit⟩
  · refine (he.loads hload).insertBefore hg.unique hrep ?_
    rintro rfl
    exact hout (he.loads hload)

end CheckInsertPoint

/-! ### Where coalesced checks go -/

section Anchor

variable {cx : Ctx} {s₀ s : St} {b : Label} {i : Inst}

/-- **The anchor of a site is executed with the site.** -/
theorem anchorFor_spec (hs : Prepared cx s₀) (hb : b ∈ cx.f.labels)
    (hi : i ∈ s₀.blockCode cx.f b) (hsrc : i.isInserted = false) (hphi : i.isPhi = false)
    (hpad : i.isEHPad = false) {n : ℕ} (hn : anchorFor (s₀.codeFrom cx.f i.name) = some n) :
    ∃ a ∈ s₀.blockCode cx.f b, a.name = n ∧ a.isPhi = false ∧ a.isEHPad = false ∧
      ∀ β ∈ s₀.blockCode cx.f b, β.isStop = true →
        (a ∈ upTo β.name (s₀.blockCode cx.f b) ↔ i ∈ upTo β.name (s₀.blockCode cx.f b)) := by
  have hnd := hs.unique.nodup b hb
  obtain ⟨body, t, hC, hop, hterm, hbody⟩ := hs.terms b hb
  obtain ⟨l, r, hsplit⟩ := List.append_of_mem hi
  rw [St.codeFrom_eq hs.unique hb hsplit, anchorFor] at hn
  -- the code from the site on ends with the terminator
  obtain ⟨m, hm⟩ : ∃ m, i :: r = m ++ [t] := by
    obtain ⟨m, u, hmu⟩ := (List.eq_nil_or_concat' (i :: r)).resolve_left (List.cons_ne_nil i r)
    rw [hC, hmu, ← List.append_assoc] at hsplit
    obtain ⟨-, hu⟩ := List.append_inj' hsplit rfl
    exact ⟨m, by rw [hmu, List.singleton_inj.mp hu]⟩
  have hmbody : ∀ x ∈ m, x ∈ body := by
    rw [hsplit, hm, ← List.append_assoc] at hC
    obtain ⟨hlm, -⟩ := List.append_inj' hC rfl
    intro x hx
    rw [← hlm]
    exact List.mem_append_right _ hx
  rw [hm, List.getLast?_concat, List.dropLast_concat] at hn
  have hcode : s₀.blockCode cx.f b = l ++ (m ++ [t]) := by rw [hsplit, hm]
  have hafter : ∀ (m₁ m₂ : List Inst) (a : Inst), m ++ [t] = m₁ ++ a :: m₂ →
      i = a ∨ Before (s₀.blockCode cx.f b) i a := by
    intro m₁ m₂ a heq
    cases m₁ with
    | nil => exact Or.inl (List.cons.inj (hm.trans heq)).1
    | cons x m₁ =>
      obtain ⟨rfl, hr⟩ := List.cons.inj (hm.trans heq)
      refine Or.inr (before_iff.mpr ⟨l, r, hsplit, ?_⟩)
      rw [hr]
      simp
  -- an anchor is the first stop from the site on
  have hfirst : ∀ (m₁ m₂ : List Inst) (a : Inst), m ++ [t] = m₁ ++ a :: m₂ →
      (∀ x ∈ m₁, x.isStop = false) → ∀ β ∈ s₀.blockCode cx.f b, β.isStop = true →
      (a ∈ upTo β.name (s₀.blockCode cx.f b) ↔ i ∈ upTo β.name (s₀.blockCode cx.f b)) := by
    intro m₁ m₂ a heq hstops β hβ hβstop
    have ha : a ∈ s₀.blockCode cx.f b := by rw [hcode, heq]; simp
    have hia := hafter m₁ m₂ a heq
    rw [mem_upTo hnd hβ, mem_upTo hnd hβ]
    constructor
    · intro haβ
      rcases hia with rfl | hia
      · exact haβ
      · rcases haβ with rfl | haβ
        · exact Or.inr hia
        · exact Or.inr (hia.trans (hnd.of_map _) haβ)
    · intro hiβ
      have hβm : β ∈ m₁ ++ a :: m₂ := by
        rw [← heq, ← hm]
        rcases hiβ with rfl | hiβ
        · exact List.mem_cons_self
        · rw [hsplit] at hiβ hnd
          exact List.mem_cons_of_mem _ ((before_right (hnd.of_map _)).mp hiβ)
      rcases List.mem_append.mp hβm with hβ₁ | hβ₂
      · rw [hstops β hβ₁] at hβstop
        cases hβstop
      · rcases List.mem_cons.mp hβ₂ with rfl | hβ₂
        · exact Or.inl rfl
        · exact Or.inr (before_iff.mpr ⟨l ++ m₁, m₂, by rw [hcode, heq]; simp, hβ₂⟩)
  have hnostop : ∀ x ∈ m, isBBBarrier x = false → x.isStop = false := fun x hx hbar => by
    rw [Inst.isStop, hbody x (hmbody x hx), hbar]
    rfl
  cases hfind : m.find? isBBBarrier with
  | some a =>
    rw [hfind] at hn
    obtain ⟨hbar, m₁, m₂, rfl, hm₁⟩ := List.find?_eq_some_iff_append.mp hfind
    have hstop : a.isStop = true := by rw [Inst.isStop, hbar, Bool.or_true]
    have heq : m₁ ++ a :: m₂ ++ [t] = m₁ ++ a :: (m₂ ++ [t]) := by simp
    refine ⟨a, by rw [hcode]; simp, Option.some.inj hn, Inst.isPhi_of_isStop hstop,
      hs.isEHPad_of_site hb hsrc hphi hpad (hafter _ _ a heq), hfirst _ _ a heq fun x hx => ?_⟩
    exact hnostop x (by simp [hx]) (by simpa using hm₁ x hx)
  | none =>
    rw [hfind] at hn
    simp only at hn
    split_ifs at hn with huns
    have hstop : t.isStop = true := by rw [Inst.isStop, hterm, Bool.true_or]
    refine ⟨t, by rw [hcode]; simp, Option.some.inj hn, Inst.isPhi_of_isStop hstop,
      hs.isEHPad_of_site hb hsrc hphi hpad (hafter m [] t rfl),
      hfirst m [] t rfl fun x hx => hnostop x hx ?_⟩
    simpa using List.find?_eq_none.mp hfind x hx

/-- **Coalesced checks are reported by the code emitted at their anchor.** -/
theorem reports_anchor (hs : Prepared cx s₀) (hg : St.Grows cx.f s₀ s) {n : ℕ} (cs : List Check)
    (hcs : ∀ c ∈ cs, c ∈ s₀.checks ∧ c.shadow.isConstant = false ∧
      anchorFor (s₀.codeFrom cx.f c.origIns.name) = some n) (hne : cs ≠ []) :
    Reports cx s₀ s (emitCoalescedCheck cx s n (cs.map Check.shadow)) cs := by
  have hsite : ∀ c ∈ cs, ∃ b ∈ cx.f.labels, ∃ i ∈ s₀.blockCode cx.f b, c.origIns.name = i.name ∧
      ∃ a ∈ s₀.blockCode cx.f b, a.name = n ∧ a.isPhi = false ∧ a.isEHPad = false ∧
        ∀ β ∈ s₀.blockCode cx.f b, β.isStop = true →
          (a ∈ upTo β.name (s₀.blockCode cx.f b) ↔ i ∈ upTo β.name (s₀.blockCode cx.f b)) := by
    intro c hc
    obtain ⟨hmem, -, hanchor⟩ := hcs c hc
    obtain ⟨b, i, hb, hi, hname, hop⟩ := (hs.placed c hmem).2.site
    obtain ⟨hphi, hpad⟩ := hs.checkable c hmem
    have hsrc := hs.sites c hmem
    rw [Inst.isInserted, ← hop] at hsrc
    rw [Inst.isPhi, ← hop] at hphi
    rw [Inst.isEHPad, ← hop] at hpad
    rw [← hname] at hanchor
    exact ⟨b, hb, i, hi, hname.symm, anchorFor_spec hs hb hi hsrc hphi hpad hanchor⟩
  obtain ⟨c₀, hc₀⟩ := List.exists_mem_of_ne_nil cs hne
  obtain ⟨b, hb, -, -, -, a, ha, rfl, hphi, hpad, -⟩ := hsite c₀ hc₀
  have hshadows : cs.map Check.shadow ≠ [] := by simpa using hne
  obtain ⟨hgrows, hfires⟩ := emitCoalescedCheck_spec hg.unique hb ((hg.sub b hb).subset ha) hphi
    hpad hshadows
  refine ⟨hgrows.toGrows, fun d hd β hβ hβstop ρ hsat hty => ?_⟩
  rw [hfires d hd β ((hg.sub d hd).subset hβ) ρ hsat hty]
  have hexec : ∀ c ∈ cs, (c.Executed cx.f s₀ d β ↔
      d = b ∧ a ∈ upTo β.name (s.blockCode cx.f d)) := by
    intro c hc
    obtain ⟨b', hb', i, hi, hname, a', ha', haname, -, -, hiff⟩ := hsite c hc
    obtain rfl := hs.unique.block b' hb' b hb a' ha' a ha haname
    obtain rfl := List.inj_on_of_nodup_map (hs.unique.nodup b' hb') ha' ha haname
    rw [Check.executed_iff hs.unique hb' hi hname hd]
    refine and_congr_right ?_
    rintro rfl
    rw [hg.mem_upTo hd ha' hβ, hiff β hβ hβstop]
  rw [anyPoisoned_iff, Poisoned]
  simp only [List.mem_map]
  constructor
  · rintro ⟨rfl, haβ, v, ⟨c, hc, rfl⟩, hbit⟩
    refine ⟨c, hc, (hexec c hc).mpr ⟨rfl, haβ⟩, ?_, hbit⟩
    simp [considered, (hcs c hc).2.1]
  · rintro ⟨c, hc, hex, -, hbit⟩
    obtain ⟨hdb, haβ⟩ := (hexec c hc).mp hex
    exact ⟨hdb, haβ, c.shadow, ⟨c, hc, rfl⟩, hbit⟩

end Anchor

/-! ### Groups -/

theorem checkRuns_spec (cs : List Check) : (checkRuns cs).flatMap Prod.snd = cs ∧
    ∀ g ∈ checkRuns cs, g.2 ≠ [] ∧ ∀ c ∈ g.2, c.origIns.name = g.1 := by
  induction cs with
  | nil => exact ⟨rfl, by simp [checkRuns]⟩
  | cons c cs ih =>
    obtain ⟨hflat, hruns⟩ := ih
    have hsingle : ∀ d ∈ [c], d.origIns.name = c.origIns.name := by simp
    rw [checkRuns]
    cases hgs : checkRuns cs with
    | nil =>
      rw [hgs] at hflat
      rw [← hflat]
      simp
    | cons g gs =>
      obtain ⟨n, g⟩ := g
      rw [hgs] at hflat hruns
      dsimp only
      split_ifs with hn
      · refine ⟨by rw [← hflat]; simp, List.forall_mem_cons.mpr ⟨⟨by simp, ?_⟩, ?_⟩⟩
        · exact List.forall_mem_cons.mpr ⟨hn, (hruns _ List.mem_cons_self).2⟩
        · exact fun g' hg' => hruns g' (List.mem_cons_of_mem _ hg')
      · refine ⟨by rw [← hflat]; simp, List.forall_mem_cons.mpr ⟨⟨by simp, hsingle⟩, hruns⟩⟩

/-- The check is not deferred. -/
def Check.isEssential (c : Check) : Bool := c.essential || isImmediateEssentialSink c.origIns

/-- The anchor of the check. -/
def Check.anchor? (cx : Ctx) (s : St) (c : Check) : Option ℕ :=
  anchorFor (s.codeFrom cx.f c.origIns.name)

/-- The checks that `materializeCoalescedChecks` emits at their sites. -/
def essentialChecks (cx : Ctx) (s : St) : List Check :=
  s.checks.filter Check.isEssential ++
    ((s.checks.filter fun c => !c.isEssential).filter fun c => (c.anchor? cx s).isNone).map
      fun c => { c with essential := true }

/-- The groups of checks with one site. -/
def siteGroups (cx : Ctx) (s : St) : List (ℕ × List Check) :=
  checkRuns (groupByOrigIns (essentialChecks cx s))

/-- The groups of shadows with one anchor. -/
def anchorGroups (cx : Ctx) (s : St) : List (ℕ × List (ℕ × Val)) :=
  groupByKey Prod.fst ((s.checks.filter fun c => !c.isEssential).filterMap
    fun c => (c.anchor? cx s).map (·, c.shadow))

theorem materializeCoalescedChecks_eq (cx : Ctx) (s : St) :
    materializeCoalescedChecks cx s =
      (anchorGroups cx s).foldl (fun s g => emitCoalescedCheck cx s g.1 (g.2.map Prod.snd))
        ((siteGroups cx s).foldl (fun s g => materializeInstructionChecks cx s g.1 g.2) s) := rfl

/-- The shadows of the groups, one list for each emitted check. -/
def emittedGroups (cx : Ctx) (s : St) : List (List Val) :=
  (siteGroups cx s).map (fun g => g.2.map Check.shadow) ++
    (anchorGroups cx s).map fun g => g.2.map Prod.snd

/-- The check of a site: its shadows, and what its emission does. -/
def siteEmission (cx : Ctx) (g : ℕ × List Check) : List Val × (St → St) :=
  (g.2.map Check.shadow, fun t => materializeInstructionChecks cx t g.1 g.2)

/-- The check at an anchor: its shadows, and what its emission does. -/
def anchorEmission (cx : Ctx) (g : ℕ × List (ℕ × Val)) : List Val × (St → St) :=
  (g.2.map Prod.snd, fun t => emitCoalescedCheck cx t g.1 (g.2.map Prod.snd))

/-- The emitted checks, in order. -/
def emissions (cx : Ctx) (s : St) : List (List Val × (St → St)) :=
  (siteGroups cx s).map (siteEmission cx) ++ (anchorGroups cx s).map (anchorEmission cx)

/-- The state after some emissions. -/
def emitAll (es : List (List Val × (St → St))) (s : St) : St := es.foldl (fun t e => e.2 t) s

theorem materializeCoalescedChecks_emissions (cx : Ctx) (s : St) :
    materializeCoalescedChecks cx s = emitAll (emissions cx s) s := by
  rw [materializeCoalescedChecks_eq, emitAll, emissions, List.foldl_append, List.foldl_map,
    List.foldl_map]
  rfl

theorem map_fst_emissions (cx : Ctx) (s : St) :
    (emissions cx s).map Prod.fst = emittedGroups cx s := by
  rw [emissions, emittedGroups, List.map_append, List.map_map, List.map_map]
  rfl

section Groups

variable {cx : Ctx} {s : St}

/-- The deferred checks with the anchor `n`. -/
def anchoredAt (cx : Ctx) (s : St) (n : ℕ) : List Check :=
  (s.checks.filter fun c => !c.isEssential).filter fun c => decide (c.anchor? cx s = some n)

/-- A group of shadows is that of the checks with its anchor. -/
theorem map_snd_of_mem_anchorGroups {g : ℕ × List (ℕ × Val)} (hg : g ∈ anchorGroups cx s) :
    g.2.map Prod.snd = (anchoredAt cx s g.1).map Check.shadow := by
  have hlookup : ∀ {gs : List (ℕ × List (ℕ × Val))}, (gs.map Prod.fst).Nodup → g ∈ gs →
      gs.lookup g.1 = some g.2 := by
    intro gs hnd hmem
    induction gs with
    | nil => cases hmem
    | cons p gs ih =>
      rw [List.map_cons, List.nodup_cons] at hnd
      rcases List.mem_cons.mp hmem with rfl | hmem
      · rw [List.lookup_cons, beq_self_eq_true]
      · have hne : (g.1 == p.1) = false := by
          refine beq_false_of_ne fun h => hnd.1 ?_
          rw [← h]
          exact List.mem_map_of_mem hmem
        rw [List.lookup_cons, hne]
        exact ih hnd.2 hmem
  have hg' := lookup_groupByKey Prod.fst ((s.checks.filter fun c => !c.isEssential).filterMap
    fun c => (c.anchor? cx s).map (·, c.shadow)) g.1
  have hnd : ((anchorGroups cx s).map Prod.fst).Nodup := groupByKey_nodup _ _
  rw [← anchorGroups, hlookup hnd hg, Option.getD_some] at hg'
  rw [hg', anchoredAt]
  generalize s.checks.filter (fun c => !c.isEssential) = ds
  induction ds with
  | nil => rfl
  | cons c ds ih =>
    cases hc : c.anchor? cx s with
    | none =>
      rw [List.filterMap_cons_none (by rw [hc]; rfl), ih, List.filter_cons_of_neg (by simp [hc])]
    | some n =>
      rw [List.filterMap_cons_some (b := (n, c.shadow)) (by rw [hc]; rfl)]
      by_cases hn : n = g.1
      · rw [List.filter_cons_of_pos (by simpa using hn), List.filter_cons_of_pos (by simp [hc, hn]),
          List.map_cons, List.map_cons, ih]
      · rw [List.filter_cons_of_neg (by simpa using hn), List.filter_cons_of_neg (by simp [hc, hn]),
          ih]

/-- **Every recorded check contributes its shadow to exactly one emitted check.** -/
theorem emittedGroups_perm (cx : Ctx) (s : St) :
    (emittedGroups cx s).flatten.Perm (s.checks.map Check.shadow) := by
  have hsites : ((siteGroups cx s).map fun g => g.2.map Check.shadow).flatten.Perm
      ((essentialChecks cx s).map Check.shadow) := by
    have hflat : ((siteGroups cx s).map fun g => g.2.map Check.shadow).flatten =
        (groupByOrigIns (essentialChecks cx s)).map Check.shadow := by
      rw [← (checkRuns_spec (groupByOrigIns (essentialChecks cx s))).1, List.map_flatMap,
        ← List.flatMap_def]
      rfl
    rw [hflat]
    exact (groupByOrigIns_perm _).map _
  have hanchors : ((anchorGroups cx s).map fun g => g.2.map Prod.snd).flatten.Perm
      (((s.checks.filter fun c => !c.isEssential).filter
        fun c => (c.anchor? cx s).isSome).map Check.shadow) := by
    rw [← List.flatMap_def, ← List.map_flatMap]
    refine ((groupByKey_perm Prod.fst _).map Prod.snd).trans (List.Perm.of_eq ?_)
    generalize s.checks.filter (fun c => !c.isEssential) = ds
    induction ds with
    | nil => rfl
    | cons c ds ih =>
      cases hc : c.anchor? cx s with
      | none =>
        rw [List.filterMap_cons_none (by rw [hc]; rfl), ih, List.filter_cons_of_neg (by simp [hc])]
      | some n =>
        rw [List.filterMap_cons_some (b := (n, c.shadow)) (by rw [hc]; rfl),
          List.filter_cons_of_pos (by simp [hc]), List.map_cons, List.map_cons, ih]
  rw [emittedGroups, List.flatten_append]
  refine (hsites.append hanchors).trans ?_
  rw [essentialChecks, List.map_append, List.map_map, List.append_assoc]
  -- the deferrable checks are those without and those with an anchor
  have hsplit := (List.filter_append_perm (fun c : Check => (c.anchor? cx s).isNone)
    (s.checks.filter fun c => !c.isEssential)).map Check.shadow
  have hall := (List.filter_append_perm Check.isEssential s.checks).map Check.shadow
  rw [List.map_append] at hsplit hall
  refine (List.Perm.append_left _ (List.Perm.trans ?_ hsplit)).trans hall
  refine List.Perm.of_eq (congrArg₂ _ rfl (congrArg _ (List.filter_congr fun c _ => ?_)))
  cases c.anchor? cx s <;> rfl

end Groups

/-! ### The two strategies -/

section Strategies

variable {cx : Ctx} {s : St}

/-- The checks of groups with one site are reported. -/
theorem reports_sites (hs : Prepared cx s) (gs : List (ℕ × List Check))
    (hgs : ∀ g ∈ gs, ChecksAt cx s g.1 g.2 ∧ g.2 ≠ [] ∧ ∀ c ∈ g.2, c.origIns.isInserted = false) :
    Reports cx s s (gs.foldl (fun s g => materializeInstructionChecks cx s g.1 g.2) s)
        (gs.flatMap Prod.snd) ∧
      Emitting cx.f s (gs.foldl (fun s g => materializeInstructionChecks cx s g.1 g.2) s) :=
  Reports.foldl (Emitting cx.f s) (fun _ h => h.grows) gs
    (fun _ g hg he => reports_site hs he (hgs g hg).1 (hgs g hg).2.1 (hgs g hg).2.2)
    (.refl hs.unique)

/-- **The legacy strategy reports the recorded checks.** -/
theorem reports_legacy (hs : Prepared cx s) :
    Reports cx s s (materializeChecksLegacy cx s) s.checks := by
  obtain ⟨hflat, hruns⟩ := checkRuns_spec s.checks
  have hmem : ∀ g ∈ checkRuns s.checks, ∀ c ∈ g.2, c ∈ s.checks := fun g hg c hc => by
    rw [← hflat]
    exact List.mem_flatMap.mpr ⟨g, hg, hc⟩
  have h := (reports_sites hs (checkRuns s.checks) fun g hg =>
    ⟨fun c hc => ⟨(hs.placed c (hmem g hg c hc)).1, (hs.placed c (hmem g hg c hc)).2,
      (hruns g hg).2 c hc⟩, (hruns g hg).1, fun c hc => hs.sites c (hmem g hg c hc)⟩).1
  rwa [hflat] at h

/-- The check of a load has an anchor. -/
theorem Check.LoadAt.anchor? {c : Check} {b : Label} {i S : Inst} (hs : Prepared cx s)
    (hc : c.LoadAt cx.f (s.blockCode cx.f) b i S) : (c.anchor? cx s).isSome = true := by
  obtain ⟨body, t, hC, hop, -, -⟩ := hs.terms b hc.site.label
  obtain ⟨l, r, hsplit⟩ := List.append_of_mem hc.site.mem
  have hlast : (i :: r).getLast? = some t := by
    have h := congrArg List.getLast? (hsplit.symm.trans hC)
    rwa [List.getLast?_concat, List.getLast?_append_of_ne_nil _ (List.cons_ne_nil i r)] at h
  have huns : isUnsplittableTerminator t = false := by
    have := hc.term
    rw [isUnsplittableTerminator, Inst.isEHPad] at this ⊢
    rwa [hop]
  rw [Check.anchor?, ← hc.site.name, St.codeFrom_eq hs.unique hc.site.label hsplit, anchorFor,
    hlast]
  dsimp only
  split
  · rfl
  · rw [if_neg (by simp [huns])]
    rfl

/-- The checks that are emitted at their sites are recorded ones, and none of them is that of a
load. -/
theorem mem_essentialChecks (hs : Prepared cx s) {c : Check} (hc : c ∈ essentialChecks cx s) :
    c.shadow.Avail (Set.Iio s.next) ∧ c.PlacedIn cx.f (s.blockCode cx.f) ∧
      c.origIns.isInserted = false ∧
      ∃ d ∈ s.checks, d.shadow = c.shadow ∧ d.origIns = c.origIns := by
  rcases List.mem_append.mp hc with hc | hc
  · have hmem := (List.mem_filter.mp hc).1
    exact ⟨(hs.placed c hmem).1, (hs.placed c hmem).2, hs.sites c hmem, c, hmem, rfl, rfl⟩
  · obtain ⟨d, hd, rfl⟩ := List.mem_map.mp hc
    obtain ⟨hd, hnone⟩ := List.mem_filter.mp hd
    have hmem := (List.mem_filter.mp hd).1
    refine ⟨(hs.placed d hmem).1, ?_, hs.sites d hmem, d, hmem, rfl, rfl⟩
    rcases (hs.placed d hmem).2 with ⟨b, i, hearly⟩ | ⟨b, i, S, hload⟩
    · exact Or.inl ⟨b, i, ⟨hearly.site.label, hearly.site.mem, hearly.site.name, hearly.site.op⟩,
        hearly.early⟩
    · have hsome := hload.anchor? hs
      rw [Option.isNone_iff_eq_none.mp hnone] at hsome
      cases hsome

/-- The checks that the coalescing strategy reports, group by group. -/
def coalescedChecks (cx : Ctx) (s : St) : List Check :=
  (siteGroups cx s).flatMap Prod.snd ++ (anchorGroups cx s).flatMap fun g => anchoredAt cx s g.1

/-- The same sites and shadows are reported as are recorded. -/
theorem exists_coalescedChecks_iff (P : Inst → Val → Prop) :
    (∃ c ∈ coalescedChecks cx s, P c.origIns c.shadow) ↔ ∃ c ∈ s.checks, P c.origIns c.shadow := by
  have hsites : ∀ c, c ∈ (siteGroups cx s).flatMap Prod.snd ↔ c ∈ essentialChecks cx s := by
    intro c
    rw [siteGroups, (checkRuns_spec _).1]
    exact (groupByOrigIns_perm _).mem_iff
  constructor
  · rintro ⟨c, hc, hP⟩
    rcases List.mem_append.mp hc with hc | hc
    · rcases List.mem_append.mp ((hsites c).mp hc) with hc | hc
      · exact ⟨c, (List.mem_filter.mp hc).1, hP⟩
      · obtain ⟨d, hd, rfl⟩ := List.mem_map.mp hc
        exact ⟨d, (List.mem_filter.mp (List.mem_filter.mp hd).1).1, hP⟩
    · obtain ⟨g, -, hc⟩ := List.mem_flatMap.mp hc
      exact ⟨c, (List.mem_filter.mp (List.mem_filter.mp hc).1).1, hP⟩
  · rintro ⟨c, hc, hP⟩
    by_cases hess : c.isEssential = true
    · refine ⟨c, List.mem_append_left _ ((hsites c).mpr (List.mem_append_left _ ?_)), hP⟩
      exact List.mem_filter.mpr ⟨hc, hess⟩
    · have hdef : c ∈ s.checks.filter fun c => !c.isEssential :=
        List.mem_filter.mpr ⟨hc, by simpa using hess⟩
      cases hanchor : c.anchor? cx s with
      | none =>
        refine ⟨{ c with essential := true }, List.mem_append_left _ ((hsites _).mpr ?_), hP⟩
        exact List.mem_append_right _ (List.mem_map.mpr
          ⟨c, List.mem_filter.mpr ⟨hdef, by rw [hanchor]; rfl⟩, rfl⟩)
      | some n =>
        have hpair : (n, c.shadow) ∈ (anchorGroups cx s).flatMap (·.2) := by
          refine (groupByKey_perm Prod.fst _).mem_iff.mpr (List.mem_filterMap.mpr ⟨c, hdef, ?_⟩)
          rw [hanchor]
          rfl
        obtain ⟨g, hg, hmem⟩ := List.mem_flatMap.mp hpair
        have hkey : n = g.1 := groupByKey_key Prod.fst hg _ hmem
        refine ⟨c, List.mem_append_right _ (List.mem_flatMap.mpr ⟨g, hg, ?_⟩), hP⟩
        exact List.mem_filter.mpr ⟨hdef, by simp [hanchor, hkey]⟩

/-- The checks of one site are reported. -/
theorem reports_siteGroup (hs : Prepared cx s) {g : ℕ × List Check} (hg : g ∈ siteGroups cx s)
    {t : St} (he : Emitting cx.f s t) :
    Reports cx s t (materializeInstructionChecks cx t g.1 g.2) g.2 ∧
      Emitting cx.f s (materializeInstructionChecks cx t g.1 g.2) := by
  obtain ⟨hflat, hruns⟩ := checkRuns_spec (groupByOrigIns (essentialChecks cx s))
  have hmem : ∀ c ∈ g.2, c ∈ essentialChecks cx s := fun c hc => by
    refine (groupByOrigIns_perm _).mem_iff.mp ?_
    rw [← hflat]
    exact List.mem_flatMap.mpr ⟨g, hg, hc⟩
  exact reports_site hs he (fun c hc => ⟨(mem_essentialChecks hs (hmem c hc)).1,
    (mem_essentialChecks hs (hmem c hc)).2.1, (hruns g hg).2 c hc⟩) (hruns g hg).1
    fun c hc => (mem_essentialChecks hs (hmem c hc)).2.2.1

/-- The checks with one anchor are reported. -/
theorem reports_anchorGroup (hs : Prepared cx s)
    (hdef : ∀ c ∈ s.checks, c.essential = false → c.shadow.isConstant = false)
    {g : ℕ × List (ℕ × Val)} (hg : g ∈ anchorGroups cx s) {t : St} (ht : St.Grows cx.f s t) :
    Reports cx s t (emitCoalescedCheck cx t g.1 (g.2.map Prod.snd)) (anchoredAt cx s g.1) := by
  have hshadows := map_snd_of_mem_anchorGroups hg
  have hne : anchoredAt cx s g.1 ≠ [] := by
    intro hnil
    rw [hnil, List.map_nil, List.map_eq_nil_iff] at hshadows
    exact groupByKey_ne_nil Prod.fst _ g hg hshadows
  rw [hshadows]
  refine reports_anchor hs ht (anchoredAt cx s g.1) (fun c hc => ?_) hne
  obtain ⟨hc, hanchor⟩ := List.mem_filter.mp hc
  obtain ⟨hc, hess⟩ := List.mem_filter.mp hc
  have hdeferred : c.essential = false := by
    simp only [Check.isEssential, Bool.not_eq_true', Bool.or_eq_false_iff] at hess
    exact hess.1
  exact ⟨hc, hdef c hc hdeferred, of_decide_eq_true hanchor⟩

/-- Some of the site groups, one after the other. -/
private theorem reports_siteGroups (hs : Prepared cx s) (gs : List (ℕ × List Check))
    (hgs : ∀ g ∈ gs, g ∈ siteGroups cx s) {t : St} (he : Emitting cx.f s t) :
    Reports cx s t (gs.foldl (fun t g => materializeInstructionChecks cx t g.1 g.2) t)
        (gs.flatMap Prod.snd) ∧
      Emitting cx.f s (gs.foldl (fun t g => materializeInstructionChecks cx t g.1 g.2) t) :=
  Reports.foldl (Emitting cx.f s) (fun _ h => h.grows) gs
    (fun _ g hg he => reports_siteGroup hs (hgs g hg) he) he

/-- Some of the anchor groups, one after the other. -/
private theorem reports_anchorGroups (hs : Prepared cx s)
    (hdef : ∀ c ∈ s.checks, c.essential = false → c.shadow.isConstant = false)
    (gs : List (ℕ × List (ℕ × Val))) (hgs : ∀ g ∈ gs, g ∈ anchorGroups cx s) {t : St}
    (ht : St.Grows cx.f s t) :
    Reports cx s t (gs.foldl (fun t g => emitCoalescedCheck cx t g.1 (g.2.map Prod.snd)) t)
        (gs.flatMap fun g => anchoredAt cx s g.1) ∧
      St.Grows cx.f s (gs.foldl (fun t g => emitCoalescedCheck cx t g.1 (g.2.map Prod.snd)) t) :=
  Reports.foldl (St.Grows cx.f s) (fun _ h => h) gs
    (fun _ g hg ht => ⟨reports_anchorGroup hs hdef (hgs g hg) ht,
      ht.trans (reports_anchorGroup hs hdef (hgs g hg) ht).grows⟩) ht

/-- **The coalescing strategy reports the recorded checks.** -/
theorem reports_coalesced (hs : Prepared cx s)
    (hdef : ∀ c ∈ s.checks, c.essential = false → c.shadow.isConstant = false) :
    Reports cx s s (materializeCoalescedChecks cx s) (coalescedChecks cx s) := by
  rw [materializeCoalescedChecks_eq]
  obtain ⟨hsites, he⟩ := reports_siteGroups hs _ (fun _ hg => hg) (.refl hs.unique)
  exact hsites.trans (reports_anchorGroups hs hdef _ (fun _ hg => hg) he.grows).1 (.refl hs.unique)

/-- **A recorded check is reported by the emission for its group.** -/
theorem exists_emission (hs : Prepared cx s)
    (hdef : ∀ c ∈ s.checks, c.essential = false → c.shadow.isConstant = false) {c : Check}
    (hc : c ∈ s.checks) :
    ∃ es e es' cs, emissions cx s = es ++ e :: es' ∧ cs.map Check.shadow = e.1 ∧
      (∃ d ∈ cs, d.origIns = c.origIns ∧ d.shadow = c.shadow) ∧
      St.Grows cx.f s (emitAll es s) ∧ Reports cx s (emitAll es s) (e.2 (emitAll es s)) cs ∧
      St.Grows cx.f (e.2 (emitAll es s)) (materializeCoalescedChecks cx s) := by
  obtain ⟨d, hd, hsame⟩ : ∃ d ∈ coalescedChecks cx s, d.origIns = c.origIns ∧
      d.shadow = c.shadow :=
    (exists_coalescedChecks_iff fun i v => i = c.origIns ∧ v = c.shadow).mpr ⟨c, hc, rfl, rfl⟩
  rcases List.mem_append.mp hd with hd | hd
  · obtain ⟨g, hg, hd⟩ := List.mem_flatMap.mp hd
    obtain ⟨gs, gs', hsplit⟩ := List.append_of_mem hg
    have hgs : ∀ x ∈ gs ++ g :: gs', x ∈ siteGroups cx s := fun x hx => hsplit ▸ hx
    have he := (reports_siteGroups hs gs (fun x hx => hgs x (by simp [hx])) (.refl hs.unique)).2
    obtain ⟨hrep, he'⟩ := reports_siteGroup hs hg he
    obtain ⟨hrest, he''⟩ := reports_siteGroups hs gs' (fun x hx => hgs x (by simp [hx])) he'
    refine ⟨gs.map (siteEmission cx), siteEmission cx g,
      gs'.map (siteEmission cx) ++ (anchorGroups cx s).map (anchorEmission cx), g.2, ?_, rfl,
      ⟨d, hd, hsame⟩, ?_, ?_, ?_⟩
    · rw [emissions, hsplit, List.map_append, List.map_cons, List.append_assoc, List.cons_append]
    · rw [emitAll, List.foldl_map]
      exact he.grows
    · rw [emitAll, List.foldl_map]
      exact hrep
    · rw [materializeCoalescedChecks_eq, hsplit, List.foldl_append, List.foldl_cons, emitAll,
        List.foldl_map]
      exact hrest.grows.trans
        (reports_anchorGroups hs hdef _ (fun _ hx => hx) he''.grows).1.grows
  · obtain ⟨g, hg, hd⟩ := List.mem_flatMap.mp hd
    obtain ⟨gs, gs', hsplit⟩ := List.append_of_mem hg
    have hgs : ∀ x ∈ gs ++ g :: gs', x ∈ anchorGroups cx s := fun x hx => hsplit ▸ hx
    have he := (reports_siteGroups hs _ (fun _ hx => hx) (.refl hs.unique)).2
    have ht := (reports_anchorGroups hs hdef gs (fun x hx => hgs x (by simp [hx])) he.grows).2
    have hrep := reports_anchorGroup hs hdef hg ht
    have hrest := (reports_anchorGroups hs hdef gs' (fun x hx => hgs x (by simp [hx]))
      (ht.trans hrep.grows)).1
    refine ⟨(siteGroups cx s).map (siteEmission cx) ++ gs.map (anchorEmission cx),
      anchorEmission cx g, gs'.map (anchorEmission cx), anchoredAt cx s g.1, ?_,
      (map_snd_of_mem_anchorGroups hg).symm, ⟨d, hd, hsame⟩, ?_, ?_, ?_⟩
    · rw [emissions, hsplit, List.map_append, List.map_cons, List.append_assoc]
    · rw [emitAll, List.foldl_append, List.foldl_map, List.foldl_map]
      exact ht
    · rw [emitAll, List.foldl_append, List.foldl_map, List.foldl_map]
      exact hrep
    · rw [materializeCoalescedChecks_eq, hsplit, List.foldl_append, List.foldl_cons, emitAll,
        List.foldl_append, List.foldl_map, List.foldl_map]
      exact hrest.grows

end Strategies

/-! ### The recorded checks -/

section Recorded

variable {cx : Ctx}

theorem recorded_checks (cx : Ctx) : (recorded cx).checks = (filterPendingReturnChecks cx
    ((runVisit cx).shadowPhis.foldl (finalizePhi cx) (runVisit cx))).checks := by
  rw [recorded, instrumentAllocas_editsCode, finalizeInstrumentation_editsCode]

/-- A recorded check is one of the visit phase, or the check of a returned value. -/
theorem mem_recorded_checks {c : Check} (hc : c ∈ (recorded cx).checks) :
    c ∈ (runVisit cx).checks ∨ c.essential = true ∧
      ∃ v, c.shadow = getShadow cx.opts (runVisit cx).shadowMap v := by
  have hre : St.Reargs (runVisit cx)
      ((runVisit cx).shadowPhis.foldl (finalizePhi cx) (runVisit cx)) :=
    foldl_finalizePhi_reargs (runVisit cx).shadowPhis
  rw [recorded_checks, filterPendingReturnChecks, hre.rest] at hc
  rcases List.mem_append.mp hc with hc | hc
  · exact Or.inl hc
  · split_ifs at hc
    · obtain ⟨p, -, rfl⟩ := List.mem_map.mp hc
      exact Or.inr ⟨rfl, p.1, rfl⟩
    · cases hc

theorem recorded_isShadow {c : Check} (hc : c ∈ (recorded cx).checks) :
    c.shadow.ty.isShadow = true := by
  have htyped := runVisit_shadowsTyped cx
  rcases mem_recorded_checks hc with hc | ⟨-, v, hv⟩
  · exact htyped.checks c hc
  · rw [hv]
    exact getShadow_isShadow htyped.shadows cx.opts v

/-- A check that may be deferred has no constant shadow. -/
theorem recorded_deferrable (hwf : cx.f.WellFormed) (hlaw : cx.Lawful) {c : Check}
    (hc : c ∈ (recorded cx).checks) (hdef : c.essential = false) : c.shadow.isConstant = false := by
  obtain ⟨done, -, -, hlist⟩ := runVisit_inv hwf hlaw
  rcases mem_recorded_checks hc with hc | ⟨hess, -⟩
  · exact hlist.deferrable c hc hdef
  · rw [hdef] at hess
    cases hess

end Recorded

/-! ### The visits of a block -/

/-- Two runs have the same values before the checks, where the names are below `n`. -/
def Env.Agree (n : ℕ) (ρ ρ' : Env) : Prop := (∀ m < n, ρ.inst m = ρ'.inst m) ∧ ρ.other = ρ'.other

theorem Env.Agree.val {n : ℕ} {ρ ρ' : Env} (h : Env.Agree n ρ ρ') {v : Val}
    (hv : v.Avail (Set.Iio n)) : ρ.val v = ρ'.val v := by
  cases v with
  | inst m t => exact h.1 m hv
  | zero t | ones t => rfl
  | _ => exact congrFun h.2 _

section Visits

variable {cx : Ctx} {b : Label} {β : Inst} {ρ ρ' : Env}

theorem Inst.isCheck_of_fires {x : Inst} (h : x.fires ρ = true) : x.isCheck = true := by
  rw [Inst.fires] at h
  rw [Inst.isCheck]
  cases hop : x.op with
  | sh o =>
    cases o with
    | warning | checkBranch _ | maybeWarning _ => rfl
    | _ =>
      rw [hop] at h
      cases h
  | _ =>
    rw [hop] at h
    cases h

/-- What a strategy that reports the recorded checks warns about, in a visit that ends at `β`. -/
theorem Reports.fires_iff {s s' : St} {cs : List Check} (hs : Prepared cx s)
    (h : Reports cx s s s' cs) (hb : b ∈ cx.f.labels) (hβ : β ∈ s.blockCode cx.f b)
    (hstop : β.isStop = true) (hsat : s'.SatTo cx.f b β ρ)
    (hty : AllShadows ρ (cs.map Check.shadow)) :
    Fires ρ (upTo β.name (s'.blockCode cx.f b)) ↔ Poisoned cx s b β ρ cs := by
  rw [h.grows.fires_iff hb hβ, h.fires b hb β hβ hstop ρ hsat hty, or_iff_right]
  -- the code before the checks warns about nothing
  rintro ⟨x, hx, hfires⟩
  have hquiet := hs.quiet b hb x (upTo_subset hx)
  rw [Inst.isCheck_of_fires hfires] at hquiet
  cases hquiet

/-- New code that warns comes before the end of the visit. -/
theorem FiresNew.before {s s' : St} (h : FiresNew ρ (s.blockCode cx.f b) (s'.blockCode cx.f b) β)
    (hu : Unique cx.f (s'.blockCode cx.f) s'.next) (hb : b ∈ cx.f.labels)
    (hβ : β ∈ s.blockCode cx.f b) (hβ' : β ∈ s'.blockCode cx.f b) :
    ∃ w, w ∉ s.blockCode cx.f b ∧ w.fires ρ = true ∧ Before (s'.blockCode cx.f b) w β := by
  obtain ⟨w, hw, hnew, hfires⟩ := h
  rcases (mem_upTo (hu.nodup b hb) hβ').mp hw with rfl | hw
  · exact absurd hβ hnew
  · exact ⟨w, hnew, hfires, hw⟩

end Visits

/-- **Coalescing keeps the reports.** Without the deferral to sinks, and with
`cqmsan-trust-return` on as it is by default, let a visit to a block end at a barrier or a
terminator `β`, under the same values of the code before the checks. The code of the legacy strategy
executes a warning iff that of the coalescing strategy does, with the ORs at the anchor or after the
definitions of the shadows. When a check is due whose shadow is looked at and has a bit set, one of
the emissions that have its shadow in their group adds an instruction that warns before `β`, in
particular before the first barrier from the site of the check on. Every recorded check contributes
its shadow to exactly one of the checks that are emitted. -/
theorem coalescing_preserves_detection {cx : Ctx} (hwf : cx.f.WellFormed) (hlaw : cx.Lawful)
    (hsink : cx.opts.sinkChecks = false) :
    (∀ b ∈ cx.f.labels, ∀ β ∈ (prepare cx).blockCode cx.f b, β.isStop = true → ∀ ρ ρ',
      (materializeChecksLegacy cx (prepare cx)).SatTo cx.f b β ρ →
      (materializeCoalescedChecks cx (prepare cx)).SatTo cx.f b β ρ' →
      Env.Agree (prepare cx).next ρ ρ' →
      (∀ c ∈ (prepare cx).checks, HasTy c.shadow.ty (ρ.val c.shadow)) →
      (Fires ρ (upTo β.name ((materializeChecksLegacy cx (prepare cx)).blockCode cx.f b)) ↔
        Fires ρ' (upTo β.name ((materializeCoalescedChecks cx (prepare cx)).blockCode cx.f b))) ∧
      ∀ c ∈ (prepare cx).checks, c.Executed cx.f (prepare cx) b β →
        considered cx.opts c.shadow = true → (ρ'.val c.shadow).anyBit = true →
        ∃ es e es', emissions cx (prepare cx) = es ++ e :: es' ∧ c.shadow ∈ e.1 ∧
          ∃ w, w ∉ (emitAll es (prepare cx)).blockCode cx.f b ∧
            w ∈ (e.2 (emitAll es (prepare cx))).blockCode cx.f b ∧ w.fires ρ' = true ∧
            Before ((materializeCoalescedChecks cx (prepare cx)).blockCode cx.f b) w β) ∧
    materializeCoalescedChecks cx (prepare cx) =
      emitAll (emissions cx (prepare cx)) (prepare cx) ∧
    (emissions cx (prepare cx)).map Prod.fst = emittedGroups cx (prepare cx) ∧
    materializeCoalescedChecks cx (prepare cx) =
      (anchorGroups cx (prepare cx)).foldl
        (fun s g => emitCoalescedCheck cx s g.1 (g.2.map Prod.snd))
        ((siteGroups cx (prepare cx)).foldl
          (fun s g => materializeInstructionChecks cx s g.1 g.2) (prepare cx)) ∧
    (emittedGroups cx (prepare cx)).flatten.Perm ((prepare cx).checks.map Check.shadow) := by
  refine ⟨fun b hb β hβ hstop ρ ρ' hsat hsat' hagree hty => ?_,
    materializeCoalescedChecks_emissions cx _, map_fst_emissions cx _,
    materializeCoalescedChecks_eq cx _, emittedGroups_perm cx _⟩
  rw [prepare_eq_recorded hsink] at *
  have hs := recorded_prepared hwf hlaw
  have hleg := reports_legacy hs
  have hdef : ∀ c ∈ (recorded cx).checks, c.essential = false → c.shadow.isConstant = false :=
    fun c hc hess => recorded_deferrable hwf hlaw hc hess
  have hcoal := reports_coalesced hs hdef
  have hval : ∀ c ∈ (recorded cx).checks, ρ.val c.shadow = ρ'.val c.shadow := fun c hc =>
    hagree.val (hs.placed c hc).1
  have hall : AllShadows ρ ((recorded cx).checks.map Check.shadow) := by
    intro v hv
    obtain ⟨c, hc, rfl⟩ := List.mem_map.mp hv
    exact ⟨recorded_isShadow hc, hty c hc⟩
  have hall' : AllShadows ρ' ((coalescedChecks cx (recorded cx)).map Check.shadow) := by
    intro v hv
    obtain ⟨c, hc, rfl⟩ := List.mem_map.mp hv
    obtain ⟨d, hd, hdc⟩ := (exists_coalescedChecks_iff fun _ u => u = c.shadow).mp ⟨c, hc, rfl⟩
    rw [← hdc]
    exact ⟨recorded_isShadow hd, hval d hd ▸ hty d hd⟩
  have hpois : Poisoned cx (recorded cx) b β ρ' (coalescedChecks cx (recorded cx)) ↔
      Poisoned cx (recorded cx) b β ρ' (recorded cx).checks :=
    exists_coalescedChecks_iff fun i v => (∃ j ∈ upTo β.name ((recorded cx).blockCode cx.f b),
      j.name = i.name) ∧ considered cx.opts v = true ∧ (ρ'.val v).anyBit = true
  have hfires := hleg.fires_iff hs hb hβ hstop hsat hall
  have hfires' := (hcoal.fires_iff hs hb hβ hstop hsat' hall').trans hpois
  refine ⟨?_, fun c hc hex hcon hbit => ?_⟩
  · rw [hfires, hfires']
    constructor
    · rintro ⟨c, hc, hex, hcon, hbit⟩
      exact ⟨c, hc, hex, hcon, hval c hc ▸ hbit⟩
    · rintro ⟨c, hc, hex, hcon, hbit⟩
      exact ⟨c, hc, hex, hcon, (hval c hc).symm ▸ hbit⟩
  · obtain ⟨es, e, es', cs, hsplit, hcs, ⟨d, hd, hdi, hdv⟩, hg, hrep, hrest⟩ :=
      exists_emission hs hdef hc
    have hβ₁ := (hg.sub b hb).subset hβ
    have hβ₂ := (hrep.grows.sub b hb).subset hβ₁
    have hmem : ∀ v ∈ cs.map Check.shadow, v ∈ (recorded cx).checks.map Check.shadow := by
      intro v hv
      refine (emittedGroups_perm cx (recorded cx)).mem_iff.mp (List.mem_flatten.mpr ⟨e.1, ?_, ?_⟩)
      · rw [← map_fst_emissions, hsplit]
        simp
      · rwa [← hcs]
    have htycs : AllShadows ρ' (cs.map Check.shadow) := by
      intro v hv
      obtain ⟨c', hc', rfl⟩ := List.mem_map.mp (hmem v hv)
      exact ⟨recorded_isShadow hc', hval c' hc' ▸ hty c' hc'⟩
    have hdue : Poisoned cx (recorded cx) b β ρ' cs := by
      refine ⟨d, hd, ?_, hdv ▸ hcon, hdv ▸ hbit⟩
      rw [Check.Executed, hdi]
      exact hex
    have hnew := (hrep.fires b hb β hβ hstop ρ' (hrest.satTo hb hβ₂ hsat') htycs).mpr hdue
    obtain ⟨w, hw, hfw, hbefore⟩ := hnew.before hrep.grows.unique hb hβ₁ hβ₂
    refine ⟨es, e, es', hsplit, ?_, w, hw, hbefore.mem.1, hfw, hbefore.mono (hrest.sub b hb)⟩
    rw [← hcs, ← hdv]
    exact List.mem_map_of_mem hd

/-- A load of four bytes. -/
def firstLoad : Inst := { name := 1, op := .load, args := [.global "g"], ty := .int 32 }

/-- A load of one byte. -/
def secondLoad : Inst := { name := 2, op := .load, args := [.global "h"], ty := .int 8 }

/-- The first value is returned. -/
def loadsRet : Inst := { name := 3, op := .ret, args := [.inst 1 (.int 32)], ty := .void }

/-- Two loads in one block. -/
def loadsFunc : Func :=
  .ofBlock 0 [firstLoad, secondLoad] loadsRet (by decide) (by decide) (by decide)

/-- The two loads without the deferral to sinks. -/
def loadsCtx : Ctx where
  f := loadsFunc
  opts := { sinkChecks := false }
  users v := loadsFunc.insts.filter fun i => v ∈ i.operands
  constantUser _ := true
  isAFLRuntimeAccess _ := false
  pointerBase v := (v, 0)
  findAlloca _ := none
  retNoUndef := false
  analyses _ := ⟨fun _ => [], fun _ _ => false, fun _ => none⟩

theorem loadsFunc_wellFormed : loadsFunc.WellFormed :=
  Func.ofBlock_wellFormed (by decide) (by decide)

theorem loadsCtx_lawful : loadsCtx.Lawful where
  pointerBase _ := .refl

/-- The values satisfy the equation of an instruction on integers. -/
def satInst? (ρ : Env) (x : Inst) : Bool :=
  match x.op with
  | .sh o =>
    !o.isPure || match ρ.inst x.name, evalSh o x.ty (x.args.map ρ.val) with
      | .int w n, .int w' n' => decide (w = w' ∧ n = n')
      | _, _ => false
  | _ => true

theorem sat_of_satInst? {ρ : Env} {xs : List Inst} (h : xs.all (satInst? ρ) = true) : Sat ρ xs := by
  intro x hx o ho hpure
  have hx' := List.all_eq_true.mp h x hx
  rw [satInst?, ho] at hx'
  simp only [hpure, Bool.not_true, Bool.false_or] at hx'
  split at hx'
  next w n w' n' hl hr =>
    rw [hl, hr, (of_decide_eq_true hx').1, (of_decide_eq_true hx').2]
  next => cases hx'

/-- The values of a run in which the shadow of the first load is poisoned, with the Booleans of the
checks. -/
def loadsEnv (bools : List ℕ) : Env where
  inst n := match n with
    | 5 | 9 => .int 64 0
    | 6 | 7 | 10 | 11 => evalSh .xorMask (.int 64) [.int 64 0]
    | 8 => .int 32 255
    | 12 => .int 8 0
    | n => .int 1 (if n ∈ bools then 1 else 0)
  other _ := .int 64 0

theorem loads_checks : (prepare loadsCtx).checks =
    [⟨.inst 8 (.int 32), firstLoad, false⟩, ⟨.inst 12 (.int 8), secondLoad, false⟩] := by decide

/-- The shadow of the first load is reported before the return, by the check it is part of. -/
theorem coalescing_preserves_detection_loads :
    ∃ es e es', emissions loadsCtx (prepare loadsCtx) = es ++ e :: es' ∧
      .inst 8 (.int 32) ∈ e.1 ∧
      ∃ w, w ∉ (emitAll es (prepare loadsCtx)).blockCode loadsFunc 0 ∧
        w ∈ (e.2 (emitAll es (prepare loadsCtx))).blockCode loadsFunc 0 ∧
        w.fires (loadsEnv [13, 15]) = true ∧
        Before ((materializeCoalescedChecks loadsCtx (prepare loadsCtx)).blockCode loadsFunc 0) w
          loadsRet := by
  refine ((coalescing_preserves_detection loadsFunc_wellFormed loadsCtx_lawful rfl).1 0 (by decide)
    loadsRet (by decide) rfl (loadsEnv [13]) (loadsEnv [13, 15]) (sat_of_satInst? (by decide))
    (sat_of_satInst? (by decide)) ⟨fun m hm => ?_, rfl⟩ ?_).2
    ⟨.inst 8 (.int 32), firstLoad, false⟩ (by decide) ⟨firstLoad, by decide, rfl⟩ rfl rfl
  · have hnext : (prepare loadsCtx).next = 13 := by decide
    rw [hnext] at hm
    interval_cases m <;> rfl
  · rw [loads_checks]
    intro c hc
    simp only [List.mem_cons, List.not_mem_nil, or_false] at hc
    rcases hc with rfl | rfl
    · exact ⟨rfl, by decide⟩
    · exact ⟨rfl, by decide⟩

/-- The function returns `undef`. -/
def undefRet : Inst := { name := 1, op := .ret, args := [.undef (.int 32)], ty := .void }

/-- A block with nothing but the return. -/
def undefRetFunc : Func := .ofBlock 0 [] undefRet (by decide) (by decide) (by decide)

/-- The return without checks of constant shadows. -/
def undefRetCtx : Ctx :=
  { loadsCtx with f := undefRetFunc, opts := { sinkChecks := false, checkConstantShadow := false } }

/-- A constant shadow that is recorded and poisoned is not reported without
`cqmsan-check-constant-shadow`. -/
theorem not_detection_of_constant :
    ¬ ∀ c ∈ (prepare undefRetCtx).checks, c.Executed undefRetFunc (prepare undefRetCtx) 0 undefRet →
      ((loadsEnv []).val c.shadow).anyBit = true →
      ∃ w, Before ((materializeCoalescedChecks undefRetCtx (prepare undefRetCtx)).blockCode
        undefRetFunc 0) w undefRet ∧ w.fires (loadsEnv []) = true := by
  intro h
  obtain ⟨w, hw, hfires⟩ := h ⟨.ones (.int 32), undefRet, true⟩ (by decide)
    ⟨undefRet, by decide, rfl⟩ (by decide)
  have hnone : ∀ x ∈ (materializeCoalescedChecks undefRetCtx (prepare undefRetCtx)).blockCode
      undefRetFunc 0, x.fires (loadsEnv []) = false := by decide
  rw [hnone w hw.mem.1] at hfires
  cases hfires

end CQMSan
