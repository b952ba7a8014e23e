import CQMSan.Pass.SinkRun

/-!
# Barriers between a load and its sink

`guaranteedPathHasBarrier` scans every block once: the rest of the block of the load, the blocks
reached from there without entering the block of the sink, and the block of the sink up to the
sink. Here its answer is compared with the paths of the control-flow graph, which may go round
cycles any number of times and through the block of the load again.

`PathTo f sink b code t` says that `t` is what stands on a path that starts in front of `code`, in
block `b`, and ends in front of the first `sink` on it. A path that leaves the block of the load
enters the block of the sink only once, and until then it stays inside the blocks that the walk
has scanned.
-/

namespace CQMSan

/-- The instructions on a path of the graph up to the first occurrence of `sink`. -/
inductive PathTo (f : Cfg) (sink : Inst) : Label → List Inst → List Inst → Prop
  | here {b : Label} {code : List Inst} : PathTo f sink b (sink :: code) []
  | next {b : Label} {i : Inst} {code t : List Inst} :
      i ≠ sink → PathTo f sink b code t → PathTo f sink b (i :: code) (i :: t)
  | goto {b c : Label} {t : List Inst} :
      f.Edge b c → PathTo f sink c (f.code c) t → PathTo f sink b [] t

/-- The loop over the worklist, without a bound on the rounds: it ends with the answer `r`. -/
inductive WalkEnds (f : Cfg) (sbb : Label) : List Label × List Label → Bool → Prop
  | empty {seen : List Label} : WalkEnds f sbb ([], seen) false
  | barrier {b : Label} {wl seen : List Label} :
      (f.code b).any isBBBarrier = true → WalkEnds f sbb (b :: wl, seen) true
  | round {b : Label} {wl seen : List Label} {r : Bool} :
      (f.code b).any isBBBarrier = false →
        WalkEnds f sbb (Worklist.pushNew (walkSuccs f sbb b) (wl, seen)) r →
        WalkEnds f sbb (b :: wl, seen) r

/-- The worklist at the start of the walk. -/
def walkStart (f : Cfg) (lbb sbb : Label) : List Label × List Label :=
  Worklist.pushNew (walkSuccs f sbb lbb) ([], [])

/-! ### The walk ends -/

section Termination

variable {f : Func} {lbb sbb : Label}

/-- As many rounds as there are blocks left are enough. -/
theorem walkEnds_barrierWalk {n : ℕ} {wl seen : List Label} (hmem : ∀ c ∈ wl, c ∈ f.labels)
    (hfuel : Worklist.remaining f.labels.toFinset (wl, seen) ≤ n) :
    WalkEnds f sbb (wl, seen) (barrierWalk f sbb n wl seen) := by
  induction n generalizing wl seen with
  | zero =>
    obtain rfl : wl = [] :=
      List.length_eq_zero_iff.mp (by simp only [Worklist.remaining] at hfuel; omega)
    exact .empty
  | succ n ih =>
    cases wl with
    | nil => exact .empty
    | cons c wl =>
      rw [barrierWalk]
      split_ifs with hc
      · exact .barrier hc
      · have hsuccs : ∀ d ∈ walkSuccs f sbb c, d ∈ f.labels := fun d hd =>
          f.succs_mem c (hmem c List.mem_cons_self) d (List.mem_filter.mp hd).1
        refine .round (by simpa using hc) (ih ?_ ?_)
        · intro d hd
          rcases Worklist.mem_pushNew_wl.mp hd with hd | ⟨hd, -⟩
          · exact hmem d (List.mem_cons_of_mem _ hd)
          · exact hsuccs d hd
        · have hU : ∀ d ∈ walkSuccs f sbb c, d ∈ f.labels.toFinset := fun d hd =>
            List.mem_toFinset.mpr (hsuccs d hd)
          have hle := Worklist.remaining_pushNew_le hU (wl, seen)
          simp only [Worklist.remaining, List.length_cons] at hle hfuel ⊢
          omega

/-- The walk from the block of the load ends within the rounds the model gives it. -/
theorem walkEnds_walkStart (hl : lbb ∈ f.labels) :
    WalkEnds f sbb (walkStart f lbb sbb)
      (barrierWalk f sbb f.labels.length (walkStart f lbb sbb).1 (walkStart f lbb sbb).2) := by
  have hsuccs : ∀ d ∈ walkSuccs f sbb lbb, d ∈ f.labels := fun d hd =>
    f.succs_mem lbb hl d (List.mem_filter.mp hd).1
  refine walkEnds_barrierWalk ?_ ?_
  · intro d hd
    rcases Worklist.mem_pushNew_wl.mp hd with hd | ⟨hd, -⟩
    · cases hd
    · exact hsuccs d hd
  · refine (Worklist.remaining_pushNew_le
      (fun d hd => List.mem_toFinset.mpr (hsuccs d hd)) ([], [])).trans ?_
    simp only [Worklist.remaining, List.length_nil, zero_add]
    exact (Finset.card_filter_le _ _).trans (List.toFinset_card_le _)

end Termination

/-! ### Paths -/

section Paths

variable {f : Func} {b lbb sbb : Label} {load sink : Inst} {code t : List Inst}

/-- Inside the block of the sink the path is the code in front of the sink. -/
theorem PathTo.eq_before (h : PathTo f sink b code t) (hs : sink ∈ code) :
    t = before sink code := by
  induction h with
  | here => simp [before]
  | next hne _ ih =>
    rcases List.mem_cons.mp hs with rfl | hs
    · exact absurd rfl hne
    · rw [before, List.takeWhile_cons_of_pos (by simpa using hne)]
      exact congrArg _ (ih hs)
  | goto _ _ _ => cases hs

/-- A path that starts in a block of the walk meets no barrier: the scanned part of the block is
`code`, and every block it goes to is scanned or is the block of the sink. -/
theorem PathTo.no_barrier (hsink : sink ∈ f.code sbb)
    (hhead : ∀ i ∈ before sink (f.code sbb), isBBBarrier i = false) {S : Label → Prop}
    (hscan : ∀ c, S c → ∀ i ∈ f.code c, isBBBarrier i = false)
    (hnext : ∀ c d, S c → f.EdgeAvoiding sbb c d → S d)
    (h : PathTo f sink b code t) (hcode : ∀ i ∈ code, isBBBarrier i = false)
    (hb : ∀ d, f.EdgeAvoiding sbb b d → S d) : ∀ i ∈ t, isBBBarrier i = false := by
  induction h with
  | here =>
    intro i hi
    cases hi
  | next _ _ ih =>
    intro i hi
    rcases List.mem_cons.mp hi with rfl | hi
    · exact hcode _ List.mem_cons_self
    · exact ih (fun j hj => hcode j (List.mem_cons_of_mem _ hj)) hb i hi
  | @goto b c t hedge hpath ih =>
    by_cases hc : c = sbb
    · -- the first time in the block of the sink: the path ends there
      subst hc
      rw [hpath.eq_before hsink]
      exact hhead
    · have hscanned : S c := hb c ⟨hedge, hc⟩
      exact ih (hscan c hscanned) (fun d hd => hnext c d hscanned hd)

/-- The two branches of `guaranteedPathHasBarrier`. -/
theorem guaranteedPathHasBarrier_cross (hne : lbb ≠ sbb)
    (h : guaranteedPathHasBarrier f lbb load sbb sink = false) :
    (∀ i ∈ after load (f.code lbb), isBBBarrier i = false) ∧
      barrierWalk f sbb f.labels.length (walkStart f lbb sbb).1 (walkStart f lbb sbb).2 = false ∧
      ∀ i ∈ before sink (f.code sbb), isBBBarrier i = false := by
  rw [guaranteedPathHasBarrier, if_neg hne] at h
  simp only [Bool.or_eq_false_iff] at h
  obtain ⟨⟨htail, hwalk⟩, hhead⟩ := h
  refine ⟨fun i hi => ?_, hwalk, fun i hi => ?_⟩
  · simpa using List.any_eq_false.mp htail i hi
  · simpa using List.any_eq_false.mp hhead i hi

/-- The blocks that the walk scans. -/
def Between (f : Cfg) (lbb sbb c : Label) : Prop :=
  ∃ d, f.EdgeAvoiding sbb lbb d ∧ f.ReachesAvoiding sbb d c

/-- **The barrier test is sound.** Its loop ends, and when it finds no barrier then no path from
just after the load to the next occurrence of the sink meets one. The sink follows the load in its
block or stands in another one; that its block post-dominates the block of the load is not
needed. -/
theorem guaranteedPathHasBarrier_sound (f : Func) (lbb sbb : Label) (load sink : Inst)
    (hl : lbb ∈ f.labels) (hsink : sink ∈ f.code sbb)
    (hsame : lbb = sbb → comesBefore load sink (f.code lbb) = true) :
    WalkEnds f sbb (walkStart f lbb sbb)
      (barrierWalk f sbb f.labels.length (walkStart f lbb sbb).1 (walkStart f lbb sbb).2) ∧
    (guaranteedPathHasBarrier f lbb load sbb sink = false →
      ∀ t, PathTo f sink lbb (after load (f.code lbb)) t → ∀ i ∈ t, isBBBarrier i = false) := by
  refine ⟨walkEnds_walkStart hl, fun h t hpath => ?_⟩
  by_cases hne : lbb = sbb
  · -- one block: the path is the code between the two
    have hafter : sink ∈ after load (f.code lbb) := by simpa [comesBefore] using hsame hne
    rw [hpath.eq_before hafter]
    intro i hi
    rw [guaranteedPathHasBarrier, if_pos hne, between_eq_before_after] at h
    simpa using List.any_eq_false.mp h i hi
  · obtain ⟨htail, hwalk, hhead⟩ := guaranteedPathHasBarrier_cross hne h
    refine PathTo.no_barrier hsink hhead (S := Between f lbb sbb) ?_ ?_ hpath htail ?_
    · rintro c ⟨d, hd, hdc⟩ i hi
      have htr : i.transfers = true := transfers_of_walk hl hwalk hd hdc i hi
      simp [isBBBarrier, htr]
    · rintro c e ⟨d, hd, hdc⟩ he
      exact ⟨d, hd, .tail hdc he⟩
    · exact fun d hd => ⟨d, hd, .refl⟩

/-- In the loop with a `continue` the test finds no barrier, and a path that goes round the loop
once, through the load again, meets none. -/
theorem guaranteedPathHasBarrier_continueFunc :
    guaranteedPathHasBarrier continueFunc 1 exampleLoad 3 exampleCall = false ∧
      ∃ t, PathTo continueFunc exampleCall 1 (after exampleLoad (continueFunc.code 1)) t ∧
        exampleLoad ∈ t ∧ ∀ i ∈ t, isBBBarrier i = false := by
  have hno : guaranteedPathHasBarrier continueFunc 1 exampleLoad 3 exampleCall = false := by
    decide
  have hsound := (guaranteedPathHasBarrier_sound continueFunc 1 3 exampleLoad exampleCall
    (by decide) (by decide) (by decide)).2 hno
  have hlast : PathTo continueFunc exampleCall 1 (continueFunc.code 1) (continueFunc.code 1) :=
    .next (by decide) (.next (by decide) (.goto (show 3 ∈ continueFunc.succs 1 by decide) .here))
  have hround : PathTo continueFunc exampleCall 1 (after exampleLoad (continueFunc.code 1))
      (after exampleLoad (continueFunc.code 1) ++ continueFunc.code 2 ++ continueFunc.code 1) :=
    .next (by decide) (.goto (show 2 ∈ continueFunc.succs 1 by decide)
      (.next (by decide) (.goto (show 1 ∈ continueFunc.succs 2 by decide) hlast)))
  exact ⟨hno, _, hround, by decide, hsound _ hround⟩

end Paths

end CQMSan
