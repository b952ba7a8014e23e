import CQMSan.Pass.Sink

/-!
# Executions and deferred checks

`Run f b code t` says that the function, with the instructions `code` of block `b` still to
execute, executes the instructions `t` and then ends: at the end of a block without successors,
or at an instruction that does not transfer control. An instruction that is guaranteed to
transfer control does so.

A check that was deferred from a load to a sink reads the shadow register of the load, which holds
what the last execution of the load read. `Detected` asks that every execution of the load is
followed by one of the sink before the load is executed again, so that the check at the sink sees
the shadow this execution read.

The acceptance test of `findSinkFor` gives the first half: the sink is executed after the load
(`Run.reaches_sink`). It does not give the second half when the sink stands in another block and
the control-flow graph has a cycle through the block of the load that avoids the block of the
sink, as a `continue` between the two makes one: the load is executed again before the sink.
-/

namespace CQMSan

/-! ### Executions -/

/-- The rest of an execution that ends. -/
inductive Run (f : Func) : Label → List Inst → List Inst → Prop
  | exit {b : Label} {code : List Inst} : f.IsExit b → Run f b code code
  | stop {b : Label} {pre post : List Inst} {x : Inst} :
      x.transfers = false → Run f b (pre ++ x :: post) (pre ++ [x])
  | goto {b c : Label} {code t : List Inst} :
      f.Edge b c → Run f c (f.code c) t → Run f b code (code ++ t)

/-- An invocation that ended: the instructions executed, each with the shadow it read, which is
arbitrary. -/
structure Invocation (f : Func) where
  steps : List (Inst × ℕ)
  run : Run f f.entry (f.code f.entry) (steps.map Prod.fst)

/-- The shadow register of `load` after some steps. -/
def shadowReg (load : Inst) (steps : List (Inst × ℕ)) : Option ℕ :=
  steps.foldl (fun r s => if s.1 = load then some s.2 else r) none

/-- Every execution of the load that read a poisoned shadow is followed by an execution of the
sink, before the load is executed again; the register the check reads still holds that shadow. -/
def Detected (load sink : Inst) (steps : List (Inst × ℕ)) : Prop :=
  ∀ pre v post, steps = pre ++ (load, v) :: post → v ≠ 0 →
    ∃ mid w rest, post = mid ++ (sink, w) :: rest ∧ (∀ s ∈ mid, s.1 ≠ load) ∧
      shadowReg load (pre ++ (load, v) :: mid) = some v

/-- A cycle through `b` avoids `s`. -/
def Cfg.Bypasses (f : Cfg) (b s : Label) : Prop :=
  ∃ c, f.EdgeAvoiding s b c ∧ f.ReachesAvoiding s c b

/-- The value is reached from `v` through uses that are followed. -/
def UseChain (an : Analyses) : Val → Val → Prop :=
  Relation.ReflTransGen fun v w => ∃ u ∈ an.users v, classifyUse v u = .follow ∧ w = u.val

/-- `sink`, in block `sbb`, is a use of the load that passes every test of `findSinkFor`. -/
def SinkCandidate (f : Cfg) (an : Analyses) (lbb : Label) (load : Inst) (sbb : Label)
    (sink : Inst) : Prop :=
  (∃ v, UseChain an load.val v ∧ sink ∈ an.users v ∧ classifyUse v sink = .sink) ∧
    f.parent sink = some sbb ∧ acceptSink f an lbb load sink = true

/-! ### Positions in a block -/

section Positions

variable {a b : Inst} {code xs ys : List Inst}

private theorem dropWhile_ne (ha : a ∉ xs) : (xs ++ a :: ys).dropWhile (· ≠ a) = a :: ys := by
  induction xs with
  | nil => simp
  | cons x xs ih =>
    obtain ⟨hx, hxs⟩ := not_or.mp (fun h => ha (List.mem_cons.mpr h))
    rw [List.cons_append, List.dropWhile_cons_of_pos (by simpa using Ne.symm hx), ih hxs]

private theorem takeWhile_ne (ha : a ∉ xs) : (xs ++ a :: ys).takeWhile (· ≠ a) = xs := by
  induction xs with
  | nil => simp
  | cons x xs ih =>
    obtain ⟨hx, hxs⟩ := not_or.mp (fun h => ha (List.mem_cons.mpr h))
    rw [List.cons_append, List.takeWhile_cons_of_pos (by simpa using Ne.symm hx), ih hxs]

private theorem not_mem_left (h : (xs ++ a :: ys).Nodup) : a ∉ xs := fun ha =>
  List.disjoint_of_nodup_append h ha List.mem_cons_self

theorem after_eq (h : (xs ++ a :: ys).Nodup) : after a (xs ++ a :: ys) = ys := by
  rw [after, dropWhile_ne (not_mem_left h), List.drop_one, List.tail_cons]

theorem before_eq (h : (xs ++ a :: ys).Nodup) : before a (xs ++ a :: ys) = xs := by
  rw [before, takeWhile_ne (not_mem_left h)]

theorem mem_after (h : b ∈ after a code) : b ∈ code :=
  (List.dropWhile_sublist _).mem ((List.drop_sublist _ _).mem h)

theorem between_eq_before_after : between a b code = before b (after a code) := rfl

end Positions

section Blocks

variable {f : Func} {b : Label} {i : Inst}

/-- The instructions of a block around one of them. -/
theorem Func.code_split (hb : b ∈ f.labels) (hi : i ∈ f.code b) :
    f.code b = before i (f.code b) ++ i :: after i (f.code b) ∧ i ∉ before i (f.code b) ∧
      i ∉ after i (f.code b) := by
  obtain ⟨xs, ys, hcode⟩ := List.append_of_mem hi
  have hnd : (xs ++ i :: ys).Nodup := hcode ▸ f.code_nodup b hb
  rw [hcode, before_eq hnd, after_eq hnd]
  refine ⟨rfl, not_mem_left hnd, ?_⟩
  exact (List.nodup_cons.mp (List.nodup_append.mp hnd).2.1).1

end Blocks

/-! ### What the search returns -/

section Search

variable {f : Cfg} {an : Analyses} {lbb : Label} {load : Inst}

/-- A sink found among the users of `v` is an accepted use of `v`. -/
private theorem scanUsers_inl {v : Val} {us : List Inst} {s : List Val × List Val} {sink : Inst}
    (h : scanUsers f an lbb load v us s = .inl sink) :
    sink ∈ us ∧ classifyUse v sink = .sink ∧ acceptSink f an lbb load sink = true := by
  induction us generalizing s with
  | nil => cases h
  | cons u us ih =>
    have hrest : sink ∈ us ∧ classifyUse v sink = .sink ∧ acceptSink f an lbb load sink = true →
        sink ∈ u :: us ∧ classifyUse v sink = .sink ∧ acceptSink f an lbb load sink = true :=
      fun hs => ⟨List.mem_cons_of_mem _ hs.1, hs.2⟩
    rw [scanUsers] at h
    cases hk : classifyUse v u with
    | skip =>
      rw [hk] at h
      exact hrest (ih h)
    | follow =>
      rw [hk] at h
      exact hrest (ih h)
    | sink =>
      rw [hk] at h
      by_cases hacc : acceptSink f an lbb load u = true
      · simp only [hacc, if_true] at h
        obtain rfl : u = sink := Sum.inl.inj h
        exact ⟨List.mem_cons_self, hk, hacc⟩
      · simp only [hacc] at h
        exact hrest (ih h)

/-- The values pushed while the users of `v` are scanned are uses of `v` that are followed. -/
private theorem scanUsers_inr {v : Val} {us : List Inst} {s s' : List Val × List Val}
    (hus : ∀ u ∈ us, u ∈ an.users v) (h : scanUsers f an lbb load v us s = .inr s') :
    ∀ w ∈ s'.1, w ∈ s.1 ∨ UseChain an v w := by
  induction us generalizing s with
  | nil =>
    obtain rfl : s = s' := Sum.inr.inj h
    exact fun w hw => Or.inl hw
  | cons u us ih =>
    have hrest : ∀ u ∈ us, u ∈ an.users v := fun u' h => hus u' (List.mem_cons_of_mem _ h)
    rw [scanUsers] at h
    cases hk : classifyUse v u with
    | skip =>
      rw [hk] at h
      exact ih hrest h
    | follow =>
      rw [hk] at h
      intro w hw
      rcases ih hrest h w hw with hw | hw
      · obtain ⟨wl, seen⟩ := s
        rcases Worklist.mem_pushNew_wl.mp hw with hw | ⟨hw, -⟩
        · exact Or.inl hw
        · rw [List.mem_singleton.mp hw]
          exact Or.inr (.single ⟨u, hus u List.mem_cons_self, hk, rfl⟩)
      · exact Or.inr hw
    | sink =>
      rw [hk] at h
      by_cases hacc : acceptSink f an lbb load u = true
      · simp [hacc] at h
      · simp only [hacc] at h
        exact ih hrest h

private theorem findSinkLoop_spec {n : ℕ} {s : List Val × List Val} {sink : Inst}
    (hs : ∀ v ∈ s.1, UseChain an load.val v)
    (h : findSinkLoop f an lbb load n s = some sink) :
    (∃ v, UseChain an load.val v ∧ sink ∈ an.users v ∧ classifyUse v sink = .sink) ∧
      acceptSink f an lbb load sink = true := by
  induction n generalizing s with
  | zero => cases h
  | succ n ih =>
    obtain ⟨wl, seen⟩ := s
    cases wl with
    | nil => cases h
    | cons v wl =>
      have hv : UseChain an load.val v := hs v List.mem_cons_self
      rw [findSinkLoop] at h
      cases hscan : scanUsers f an lbb load v (an.users v) (wl, seen) with
      | inl s =>
        rw [hscan] at h
        obtain rfl : s = sink := Option.some.inj h
        obtain ⟨hmem, hk, hacc⟩ := scanUsers_inl hscan
        exact ⟨⟨v, hv, hmem, hk⟩, hacc⟩
      | inr s =>
        rw [hscan] at h
        refine ih (fun w hw => ?_) h
        rcases scanUsers_inr (fun _ h => h) hscan w hw with hw | hw
        · exact hs w (List.mem_cons_of_mem _ hw)
        · exact hv.trans hw

/-- A sink that is returned is a candidate. -/
theorem sinkCandidate_of_findSinkFor {sink : Inst} (h : findSinkFor f an lbb load = some sink) :
    ∃ sbb, SinkCandidate f an lbb load sbb sink := by
  have hstart : ∀ v ∈ [load.val], UseChain an load.val v := by
    intro v hv
    rw [List.mem_singleton.mp hv]
    exact .refl
  obtain ⟨huse, hacc⟩ := findSinkLoop_spec hstart h
  cases hp : f.parent sink with
  | none => simp [acceptSink, hp] at hacc
  | some sbb => exact ⟨sbb, huse, hp, hacc⟩

end Search

/-! ### What an accepted sink guarantees -/

section Walk

variable {f : Func} {sbb : Label}

/-- A walk that found no barrier has seen no block with one. -/
private theorem barrierWalk_sound {n : ℕ} {wl seen : List Label} {b : Label}
    (hmem : ∀ c ∈ wl, c ∈ f.labels)
    (hfuel : Worklist.remaining f.labels.toFinset (wl, seen) ≤ n)
    (hseen : ∀ c ∈ seen, c ∈ wl ∨ (f.code c).any isBBBarrier = false)
    (h : barrierWalk f sbb n wl seen = false)
    (hb : b ∈ Worklist.explore (walkSuccs f sbb) n wl seen) :
    (f.code b).any isBBBarrier = false := by
  induction n generalizing wl seen with
  | zero =>
    obtain rfl : wl = [] :=
      List.length_eq_zero_iff.mp (by simp only [Worklist.remaining] at hfuel; omega)
    rcases hseen b hb with hb | hb
    · cases hb
    · exact hb
  | succ n ih =>
    cases wl with
    | nil =>
      rcases hseen b hb with hb | hb
      · cases hb
      · exact hb
    | cons c wl =>
      rw [barrierWalk] at h
      by_cases hc : (f.code c).any isBBBarrier = true
      · simp [hc] at h
      · simp only [hc] at h
        have hcU : c ∈ f.labels := hmem c List.mem_cons_self
        have hsuccs : ∀ d ∈ walkSuccs f sbb c, d ∈ f.labels := fun d hd =>
          f.succs_mem c hcU d (List.mem_filter.mp hd).1
        refine ih ?_ ?_ ?_ h hb
        · intro d hd
          rcases Worklist.mem_pushNew_wl.mp hd with hd | ⟨hd, -⟩
          · exact hmem d (List.mem_cons_of_mem _ hd)
          · exact hsuccs d hd
        · have hU : ∀ d ∈ walkSuccs f sbb c, d ∈ f.labels.toFinset := fun d hd =>
            List.mem_toFinset.mpr (hsuccs d hd)
          have hle := Worklist.remaining_pushNew_le hU (wl, seen)
          simp only [Worklist.remaining, List.length_cons] at hle hfuel ⊢
          omega
        · intro d hd
          by_cases hds : d ∈ seen
          · rcases hseen d hds with hd' | hd'
            · rcases List.mem_cons.mp hd' with rfl | hd'
              · exact Or.inr (by simpa using hc)
              · exact Or.inl (Worklist.mem_pushNew_wl.mpr (Or.inl hd'))
            · exact Or.inr hd'
          · rcases Worklist.mem_pushNew_seen.mp hd with hd | hd
            · exact Or.inl (Worklist.mem_pushNew_wl.mpr (Or.inr ⟨hd, hds⟩))
            · exact absurd hd hds

private theorem transfers_of_any {code : List Inst} (h : code.any isBBBarrier = false) :
    ∀ i ∈ code, i.transfers = true := by
  intro i hi
  have hi' := List.any_eq_false.mp h i hi
  simpa [isBBBarrier] using hi'

/-- The blocks reached from a successor of `lbb` without entering `sbb` have no barrier. -/
theorem transfers_of_walk {lbb c b : Label} (hl : lbb ∈ f.labels)
    (h : barrierWalk f sbb f.labels.length
      (Worklist.pushNew (walkSuccs f sbb lbb) ([], [])).1
      (Worklist.pushNew (walkSuccs f sbb lbb) ([], [])).2 = false)
    (hc : f.EdgeAvoiding sbb lbb c) (hcb : f.ReachesAvoiding sbb c b) :
    ∀ i ∈ f.code b, i.transfers = true := by
  have hsuccs : ∀ d ∈ walkSuccs f sbb lbb, d ∈ f.labels := fun d hd =>
    f.succs_mem lbb hl d (List.mem_filter.mp hd).1
  set s := Worklist.pushNew (walkSuccs f sbb lbb) ([], []) with hs
  have hwl : ∀ d ∈ s.1, d ∈ f.labels := by
    intro d hd
    rcases Worklist.mem_pushNew_wl.mp hd with hd | ⟨hd, -⟩
    · cases hd
    · exact hsuccs d hd
  have hfuel : Worklist.remaining f.labels.toFinset s ≤ f.labels.length := by
    refine (Worklist.remaining_pushNew_le
      (fun d hd => List.mem_toFinset.mpr (hsuccs d hd)) ([], [])).trans ?_
    simp only [Worklist.remaining, List.length_nil, zero_add]
    exact (Finset.card_filter_le _ _).trans (List.toFinset_card_le _)
  have hseen : ∀ d ∈ s.2, d ∈ s.1 := by
    intro d hd
    rcases Worklist.mem_pushNew_seen.mp hd with hd | hd
    · exact Worklist.mem_pushNew_wl.mpr (Or.inr ⟨hd, List.not_mem_nil⟩)
    · cases hd
  have hmem : ∀ b, f.ReachesAvoiding sbb c b →
      b ∈ Worklist.explore (walkSuccs f sbb) f.labels.length s.1 s.2 := by
    intro b hcb
    induction hcb with
    | refl =>
      refine Worklist.subset_explore (Worklist.mem_pushNew_seen.mpr (Or.inl ?_))
      exact List.mem_filter.mpr ⟨hc.1, by simpa using hc.2⟩
    | tail _ hedge ih =>
      refine Worklist.explore_closed (U := f.labels.toFinset) ?_ ?_ hfuel
        (fun d hd => Or.inl (hseen d hd)) ih (List.mem_filter.mpr ⟨hedge.1, by simpa using hedge.2⟩)
      · intro d hd e he
        exact List.mem_toFinset.mpr
          (f.succs_mem d (List.mem_toFinset.mp hd) e (List.mem_filter.mp he).1)
      · exact fun d hd => List.mem_toFinset.mpr (hwl d hd)
  exact transfers_of_any
    (barrierWalk_sound hwl hfuel (fun d hd => Or.inl (hseen d hd)) h (hmem b hcb))

end Walk

section Accept

variable {f : Func} {an : Analyses} {lbb sbb : Label} {load sink : Inst}

/-- A candidate in the block of the load follows it with no barrier in between. -/
theorem acceptSink_same (hp : f.parent sink = some lbb)
    (h : acceptSink f an lbb load sink = true) :
    sink ∈ after load (f.code lbb) ∧
      ∀ i ∈ before sink (after load (f.code lbb)), i.transfers = true := by
  rw [acceptSink] at h
  split_ifs at h
  simp only [hp, ne_eq, not_true_eq_false, if_false, if_true, Bool.and_eq_true,
    Bool.not_eq_true', guaranteedPathHasBarrier, comesBefore, decide_eq_true_eq] at h
  exact ⟨h.1, transfers_of_any h.2⟩

/-- A candidate in another block post-dominates the block of the load, and there is no barrier in
the rest of that block, in the blocks between, and in the sink's block before it. -/
theorem acceptSink_cross (han : an.Lawful f) (hl : lbb ∈ f.labels)
    (hp : f.parent sink = some sbb) (hne : sbb ≠ lbb) (h : acceptSink f an lbb load sink = true) :
    f.PostDominates sbb lbb ∧ (∀ i ∈ after load (f.code lbb), i.transfers = true) ∧
      (∀ c b, f.EdgeAvoiding sbb lbb c → f.ReachesAvoiding sbb c b →
        ∀ i ∈ f.code b, i.transfers = true) ∧
      ∀ i ∈ before sink (f.code sbb), i.transfers = true := by
  rw [acceptSink] at h
  split_ifs at h
  simp only [hp] at h
  split_ifs at h
  simp only [Bool.and_eq_true, Bool.not_eq_true', guaranteedPathHasBarrier, hne.symm, if_false,
    Bool.or_eq_false_iff] at h
  obtain ⟨hpd, ⟨htail, hwalk⟩, hhead⟩ := h
  exact ⟨han.postDominates_sound _ _ hpd, transfers_of_any htail,
    fun c b hc hcb => transfers_of_walk hl hwalk hc hcb, transfers_of_any hhead⟩

end Accept

/-! ### Runs -/

section Runs

variable {f : Func} {b lbb sbb : Label} {load sink : Inst} {code t post : List Inst}

/-- From an execution of `load` on, an execution is the rest of one from the instructions after
it. -/
theorem Run.split (hrun : Run f b code t) (hb : b ∈ f.labels) (hcode : code <:+ f.code b)
    (hl : lbb ∈ f.labels) (hload : load ∈ f.code lbb) (htr : load.transfers = true)
    {pre : List Inst} (ht : t = pre ++ load :: post) :
    Run f lbb (after load (f.code lbb)) post := by
  -- where `load` is found in the rest of the block, the block is its own
  have hfound : ∀ {b : Label} {xs ys : List Inst}, b ∈ f.labels →
      xs ++ load :: ys <:+ f.code b → b = lbb ∧ after load (f.code lbb) = ys := by
    rintro b xs ys hb ⟨zs, hzs⟩
    have hmem : load ∈ f.code b := by rw [← hzs]; simp
    obtain rfl : b = lbb := Func.block_unique hb hl hmem hload
    refine ⟨rfl, ?_⟩
    rw [← List.append_assoc] at hzs
    rw [← hzs]
    exact after_eq (hzs ▸ f.code_nodup b hb)
  induction hrun generalizing pre with
  | @exit b code hexit =>
    subst ht
    obtain ⟨rfl, hafter⟩ := hfound hb hcode
    rw [hafter]
    exact .exit hexit
  | @stop b pre' post' x hx =>
    rcases List.eq_nil_or_concat post with rfl | ⟨mid, y, rfl⟩
    · obtain ⟨-, h⟩ := List.append_inj' ht rfl
      obtain rfl : x = load := by simpa using h
      rw [htr] at hx
      cases hx
    · rw [List.concat_eq_append] at ht ⊢
      rw [← List.cons_append, ← List.append_assoc] at ht
      obtain ⟨rfl, h⟩ := List.append_inj' ht rfl
      obtain rfl : x = y := by simpa using h
      rw [List.append_assoc, List.cons_append] at hcode
      obtain ⟨rfl, hafter⟩ := hfound hb hcode
      rw [hafter]
      exact .stop hx
  | @goto b c code t hedge hrun ih =>
    have hc : c ∈ f.labels := f.succs_mem b hb c hedge
    rcases List.append_eq_append_iff.mp ht with ⟨mid, rfl, hmid⟩ | ⟨mid, rfl, hmid⟩
    · exact ih hc (List.suffix_refl _) hmid
    · cases mid with
      | nil =>
        have ht' : t = [] ++ load :: post := by simpa using hmid.symm
        exact ih hc (List.suffix_refl _) ht'
      | cons y mid =>
        obtain ⟨rfl, rfl⟩ := List.cons.inj hmid
        obtain ⟨rfl, hafter⟩ := hfound hb hcode
        rw [hafter]
        exact .goto hedge hrun

/-- A run does not stop before an instruction that only transferring ones precede. -/
theorem Run.reaches_local {mid rest : List Inst} (hrun : Run f b (mid ++ sink :: rest) t)
    (hmid : ∀ i ∈ mid, i.transfers = true) : ∃ rest', t = mid ++ sink :: rest' := by
  generalize hcode : mid ++ sink :: rest = code at hrun
  cases hrun with
  | exit _ => exact ⟨rest, hcode.symm⟩
  | goto _ _ => exact ⟨_, by rw [← hcode, List.append_assoc, List.cons_append]⟩
  | @stop _ pre post x hx =>
    rcases List.append_eq_append_iff.mp hcode with ⟨tl, rfl, htl⟩ | ⟨tl, rfl, htl⟩
    · cases tl with
      | nil =>
        obtain ⟨rfl, -⟩ := List.cons.inj htl
        exact ⟨[], by simp⟩
      | cons y tl =>
        obtain ⟨rfl, -⟩ := List.cons.inj htl
        exact ⟨tl ++ [x], by simp⟩
    · cases tl with
      | nil =>
        obtain ⟨rfl, -⟩ := List.cons.inj htl
        exact ⟨[], by simp⟩
      | cons y tl =>
        obtain ⟨rfl, -⟩ := List.cons.inj htl
        rw [hmid x (by simp)] at hx
        cases hx

/-- A run from a block none of whose onward paths exits or meets a barrier before `sbb` executes
the sink. What it executes before lies in the blocks on the way and in `sbb` before the sink. -/
theorem Run.reaches_sink (hrun : Run f b code t) (hcode : code = f.code b) (hs : sbb ∈ f.labels)
    (hsink : sink ∈ f.code sbb) (hhead : ∀ i ∈ before sink (f.code sbb), i.transfers = true)
    (hway : ∀ c, b ≠ sbb → f.ReachesAvoiding sbb b c →
      ¬ f.IsExit c ∧ ∀ i ∈ f.code c, i.transfers = true) :
    ∃ mid rest, t = mid ++ sink :: rest ∧ ∀ i ∈ mid, i ∈ f.code sbb ∨
      ∃ c, b ≠ sbb ∧ f.ReachesAvoiding sbb b c ∧ i ∈ f.code c := by
  obtain ⟨hsplit, -, -⟩ := Func.code_split hs hsink
  have hin : ∀ i ∈ before sink (f.code sbb), i ∈ f.code sbb := fun i hi => by
    rw [hsplit]
    exact List.mem_append_left _ hi
  -- in the block of the sink, the sink is reached within the block
  have hlast : ∀ {t : List Inst}, Run f sbb (f.code sbb) t → ∃ mid rest,
      t = mid ++ sink :: rest ∧ ∀ i ∈ mid, i ∈ f.code sbb := by
    intro t hrun
    rw [hsplit] at hrun
    obtain ⟨rest, rfl⟩ := hrun.reaches_local hhead
    exact ⟨_, rest, rfl, hin⟩
  by_cases hb : b = sbb
  · subst hb
    subst hcode
    obtain ⟨mid, rest, ht, hmid⟩ := hlast hrun
    exact ⟨mid, rest, ht, fun i hi => Or.inl (hmid i hi)⟩
  · induction hrun with
    | exit hexit => exact absurd hexit (hway _ hb .refl).1
    | @stop b pre post x hx =>
      have hxtr := (hway _ hb .refl).2 x (by rw [← hcode]; simp)
      rw [hxtr] at hx
      cases hx
    | @goto b c code t hedge hrun ih =>
      subst hcode
      by_cases hc : c = sbb
      · subst hc
        obtain ⟨mid, rest, rfl, hmid⟩ := hlast hrun
        refine ⟨f.code b ++ mid, rest, by simp, fun i hi => ?_⟩
        rcases List.mem_append.mp hi with hi | hi
        · exact Or.inr ⟨b, hb, .refl, hi⟩
        · exact Or.inl (hmid i hi)
      · have hstep : ∀ {d : Label}, f.ReachesAvoiding sbb c d → f.ReachesAvoiding sbb b d :=
          fun hcd => .head ⟨hedge, hc⟩ hcd
        obtain ⟨mid, rest, rfl, hmid⟩ := ih rfl (fun d _ hcd => hway d hb (hstep hcd)) hc
        refine ⟨f.code b ++ mid, rest, by simp, fun i hi => ?_⟩
        rcases List.mem_append.mp hi with hi | hi
        · exact Or.inr ⟨b, hb, .refl, hi⟩
        · rcases hmid i hi with hi | ⟨d, -, hcd, hi⟩
          · exact Or.inl hi
          · exact Or.inr ⟨d, hb, hstep hcd, hi⟩

/-- **After the load the sink is executed**, and in between nothing outside the block of the
load, the blocks on the way, and the block of the sink. -/
theorem Run.reaches_candidate {an : Analyses} (han : an.Lawful f) (hl : lbb ∈ f.labels)
    (hload : load ∈ f.code lbb) (hcand : SinkCandidate f an lbb load sbb sink)
    (hrun : Run f lbb (after load (f.code lbb)) post) :
    ∃ mid rest, post = mid ++ sink :: rest ∧
      (sbb = lbb ∨ ¬ f.Bypasses lbb sbb → load ∉ mid) := by
  obtain ⟨-, hparent, hacc⟩ := hcand
  obtain ⟨hs, hsink⟩ := Cfg.mem_of_parent hparent
  obtain ⟨hsplit, -, hafter⟩ := Func.code_split hl hload
  by_cases hne : sbb = lbb
  · subst hne
    obtain ⟨hmem, hclean⟩ := acceptSink_same hparent hacc
    obtain ⟨xs, ys, hxy⟩ := List.append_of_mem hmem
    have hnd : (xs ++ sink :: ys).Nodup :=
      hxy ▸ ((List.nodup_append.mp (hsplit ▸ f.code_nodup sbb hl)).2.1.of_cons)
    rw [hxy, before_eq hnd] at hclean
    rw [hxy] at hrun
    obtain ⟨rest, rfl⟩ := hrun.reaches_local hclean
    refine ⟨xs, rest, rfl, fun _ hx => hafter ?_⟩
    rw [hxy]
    exact List.mem_append_left _ hx
  · obtain ⟨hpd, htail, hway, hhead⟩ := acceptSink_cross han hl hparent hne hacc
    generalize hrem : after load (f.code lbb) = rem at hrun htail hafter
    cases hrun with
    | exit hexit => exact absurd (hpd lbb hexit .refl).symm hne
    | stop hx =>
      rw [htail _ (by simp)] at hx
      cases hx
    | @goto _ c _ t hedge hrun =>
      have hreach : ∀ d, c ≠ sbb → f.ReachesAvoiding sbb c d →
          ¬ f.IsExit d ∧ ∀ i ∈ f.code d, i.transfers = true := by
        intro d hc hcd
        refine ⟨fun hexit => hne ?_, hway c d ⟨hedge, hc⟩ hcd⟩
        exact (hpd d hexit (.head ⟨hedge, hc⟩ hcd)).symm
      obtain ⟨mid, rest, rfl, hmid⟩ := hrun.reaches_sink rfl hs hsink hhead hreach
      refine ⟨rem ++ mid, rest, by simp, fun hby hmem => ?_⟩
      have hby' := hby.resolve_left hne
      rcases List.mem_append.mp hmem with h | h
      · exact hafter h
      · rcases hmid load h with h | ⟨d, hc, hcd, h⟩
        · exact hne (Func.block_unique hs hl h hload)
        · have hd : d ∈ f.labels :=
            Func.reaches_mem (f.succs_mem lbb hl c hedge) hcd.reaches
          obtain rfl : d = lbb := Func.block_unique hd hl h hload
          exact hby' ⟨c, ⟨hedge, hc⟩, hcd⟩

end Runs

/-! ### Detection -/

private theorem shadowReg_of_not_mem {load : Inst} {pre mid : List (Inst × ℕ)} {v : ℕ}
    (h : ∀ s ∈ mid, s.1 ≠ load) : shadowReg load (pre ++ (load, v) :: mid) = some v := by
  rw [shadowReg, List.foldl_append, List.foldl_cons, if_pos rfl]
  induction mid with
  | nil => rfl
  | cons s mid ih =>
    rw [List.foldl_cons, if_neg (h s List.mem_cons_self)]
    exact ih fun s' hs' => h s' (List.mem_cons_of_mem _ hs')

section Detection

variable {f : Func} {an : Analyses} {lbb sbb : Label} {load sink : Inst}

/-- A candidate that no cycle bypasses sees the shadow of every execution of the load. -/
theorem detected_of_candidate (han : an.Lawful f) (hl : lbb ∈ f.labels) (hload : load ∈ f.code lbb)
    (hop : load.op = .load) (hcand : SinkCandidate f an lbb load sbb sink)
    (hby : sbb = lbb ∨ ¬ f.Bypasses lbb sbb) (inv : Invocation f) :
    Detected load sink inv.steps := by
  intro pre v post hsteps _
  have htr : load.transfers = true := by
    simp [Inst.transfers, Inst.mayThrow, Inst.willReturn, hop]
  have hmap : inv.steps.map Prod.fst = pre.map Prod.fst ++ load :: post.map Prod.fst := by
    rw [hsteps, List.map_append, List.map_cons]
  have hrest := inv.run.split f.entry_mem (List.suffix_refl _) hl hload htr hmap
  obtain ⟨mid, rest, hpost, hmid⟩ := hrest.reaches_candidate han hl hload hcand
  obtain ⟨mid', tl, rfl, rfl, htl⟩ := List.map_eq_append_iff.mp hpost
  obtain ⟨⟨s, w⟩, rest', rfl, rfl, -⟩ := List.map_eq_cons_iff.mp htl
  have hno : ∀ s ∈ mid', s.1 ≠ load := fun s hs heq =>
    hmid hby (heq ▸ List.mem_map_of_mem hs)
  exact ⟨mid', w, rest', rfl, hno, shadowReg_of_not_mem hno⟩

/-- A path avoiding `s` is executed with nothing of `s` in it. -/
private theorem Run.prepend {s b c : Label} {t : List Inst} (hb : b ∈ f.labels) (hbs : b ≠ s)
    (h : f.ReachesAvoiding s b c) (hrun : Run f c (f.code c) t) :
    ∃ t', Run f b (f.code b) (t' ++ t) ∧ ∀ i ∈ t', ∃ d ∈ f.labels, d ≠ s ∧ i ∈ f.code d := by
  induction h using Relation.ReflTransGen.head_induction_on with
  | refl => exact ⟨[], hrun, fun i hi => by cases hi⟩
  | @head b d hedge _ ih =>
    obtain ⟨t', hrun', ht'⟩ := ih (f.succs_mem b hb d hedge.1) hedge.2
    refine ⟨f.code b ++ t', ?_, fun i hi => ?_⟩
    · rw [List.append_assoc]
      exact .goto hedge.1 hrun'
    · rcases List.mem_append.mp hi with hi | hi
      · exact ⟨b, hb, hbs, hi⟩
      · exact ht' i hi

private theorem Run.of_reaches {b c : Label} {t : List Inst} (h : f.Reaches b c)
    (hrun : Run f c (f.code c) t) : ∃ t', Run f b (f.code b) (t' ++ t) := by
  induction h using Relation.ReflTransGen.head_induction_on with
  | refl => exact ⟨[], hrun⟩
  | @head b d hedge _ ih =>
    obtain ⟨t', hrun'⟩ := ih
    refine ⟨f.code b ++ t', ?_⟩
    rw [List.append_assoc]
    exact .goto hedge hrun'

private theorem Run.to_exit {b e : Label} (h : f.Reaches b e) (he : f.IsExit e) :
    ∃ t, Run f b (f.code b) (f.code b ++ t) := by
  cases h using Relation.ReflTransGen.head_induction_on with
  | refl => exact ⟨[], by rw [List.append_nil]; exact .exit he⟩
  | head hedge hrest =>
    obtain ⟨t, hrun⟩ := Run.of_reaches hrest (.exit he)
    exact ⟨_, .goto hedge hrun⟩

/-- A cycle through the block of the load that avoids the block of the sink is executed by some
invocation, in which the load is executed twice with no sink in between. -/
theorem not_detected_of_bypasses (hl : lbb ∈ f.labels) (hload : load ∈ f.code lbb)
    (hp : f.parent sink = some sbb) (hne : sbb ≠ lbb) (hentry : f.Reaches f.entry lbb)
    {e : Label} (he : f.IsExit e) (hexit : f.Reaches lbb e) (hby : f.Bypasses lbb sbb) :
    ∃ inv : Invocation f, ¬ Detected load sink inv.steps := by
  obtain ⟨hs, hsink⟩ := Cfg.mem_of_parent hp
  obtain ⟨hsplit, -, -⟩ := Func.code_split hl hload
  obtain ⟨c, hedge, hcl⟩ := hby
  -- entry, the load, the cycle, the load again, exit
  obtain ⟨t₃, hrun₃⟩ := Run.to_exit hexit he
  obtain ⟨t₂, hrun₂, ht₂⟩ := Run.prepend (f.succs_mem lbb hl c hedge.1) hedge.2 hcl hrun₃
  obtain ⟨t₁, hrun₁⟩ := Run.of_reaches hentry (.goto hedge.1 hrun₂)
  set pre := before load (f.code lbb) with hpre
  set suf := after load (f.code lbb) with hsuf
  have htrace : t₁ ++ (f.code lbb ++ (t₂ ++ (f.code lbb ++ t₃))) =
      (t₁ ++ pre) ++ load :: ((suf ++ t₂ ++ pre) ++ load :: (suf ++ t₃)) := by
    rw [hsplit]
    simp only [List.append_assoc, List.cons_append]
  have hclean : sink ∉ suf ++ t₂ ++ pre := by
    have hcode : ∀ d ∈ f.labels, d ≠ sbb → sink ∉ f.code d := fun d hd hds h =>
      hds (Func.block_unique hd hs h hsink)
    intro h
    rcases List.mem_append.mp h with h | h
    · rcases List.mem_append.mp h with h | h
      · exact hcode lbb hl hne.symm (mem_after h)
      · obtain ⟨d, hd, hds, hdi⟩ := ht₂ sink h
        exact hcode d hd hds hdi
    · exact hcode lbb hl hne.symm (by rw [hsplit]; exact List.mem_append_left _ h)
  rw [htrace] at hrun₁
  let step : Inst → Inst × ℕ := fun i => (i, 1)
  have hfst : ∀ l : List Inst, (l.map step).map Prod.fst = l := fun l => by
    rw [List.map_map]
    exact List.map_id l
  refine ⟨⟨((t₁ ++ pre) ++ load :: ((suf ++ t₂ ++ pre) ++ load :: (suf ++ t₃))).map step,
    by rw [hfst]; exact hrun₁⟩, fun hdet => ?_⟩
  obtain ⟨mid, w, rest, hpost, hmid, -⟩ := hdet ((t₁ ++ pre).map step) 1
    (((suf ++ t₂ ++ pre) ++ load :: (suf ++ t₃)).map step) List.map_append one_ne_zero
  have hpost' : (suf ++ t₂ ++ pre) ++ load :: (suf ++ t₃) =
      mid.map Prod.fst ++ sink :: rest.map Prod.fst := by
    rw [← hfst ((suf ++ t₂ ++ pre) ++ load :: (suf ++ t₃)), hpost, List.map_append, List.map_cons]
  have hload_mid : load ∉ mid.map Prod.fst := fun h => by
    obtain ⟨s, hs, hs'⟩ := List.mem_map.mp h
    exact hmid s hs hs'
  rcases List.append_eq_append_iff.mp hpost' with ⟨tl, htl, htl'⟩ | ⟨tl, htl, htl'⟩
  · cases tl with
    | nil =>
      obtain ⟨rfl, -⟩ := List.cons.inj htl'
      exact hne (Func.block_unique hs hl hsink hload)
    | cons x tl =>
      obtain ⟨rfl, -⟩ := List.cons.inj htl'
      exact hload_mid (by rw [htl]; simp)
  · cases tl with
    | nil =>
      obtain ⟨rfl, -⟩ := List.cons.inj htl'
      exact hne (Func.block_unique hs hl hsink hload)
    | cons x tl =>
      obtain ⟨rfl, -⟩ := List.cons.inj htl'
      exact hclean (by rw [htl]; simp)

/-- **Deferral to a sink, exactly.** If no candidate in another block is bypassed by a cycle
through the block of the load, the check at the sink sees every poisoned shadow the load reads, in
every invocation. For the sink that is returned the condition is also necessary, as soon as the
block of the load can be reached and left. -/
theorem sink_deferral (f : Func) (an : Analyses) (lbb : Label) (load : Inst)
    (han : an.Lawful f) (hl : lbb ∈ f.labels) (hload : load ∈ f.code lbb) (hop : load.op = .load) :
    ((∀ sbb sink, SinkCandidate f an lbb load sbb sink → sbb ≠ lbb → ¬ f.Bypasses lbb sbb) →
      ∀ sink, findSinkFor f an lbb load = some sink →
        ∀ inv : Invocation f, Detected load sink inv.steps) ∧
    ∀ sbb sink, findSinkFor f an lbb load = some sink → f.parent sink = some sbb →
      f.Reaches f.entry lbb → (∃ e, f.IsExit e ∧ f.Reaches lbb e) →
        ((∀ inv : Invocation f, Detected load sink inv.steps) ↔
          (sbb ≠ lbb → ¬ f.Bypasses lbb sbb)) := by
  refine ⟨fun hok sink hfind inv => ?_, fun sbb sink hfind hp hentry ⟨e, he, hexit⟩ => ?_⟩
  · obtain ⟨sbb, hcand⟩ := sinkCandidate_of_findSinkFor hfind
    have hby : sbb = lbb ∨ ¬ f.Bypasses lbb sbb := or_iff_not_imp_left.mpr (hok sbb sink hcand)
    exact detected_of_candidate han hl hload hop hcand hby inv
  · constructor
    · intro hdet hne hby
      obtain ⟨inv, hinv⟩ := not_detected_of_bypasses hl hload hp hne hentry he hexit hby
      exact hinv (hdet inv)
    · intro hby inv
      obtain ⟨sbb', hcand⟩ := sinkCandidate_of_findSinkFor hfind
      obtain rfl : sbb' = sbb := Option.some.inj (hcand.2.1.symm.trans hp)
      exact detected_of_candidate han hl hload hop hcand (or_iff_not_imp_left.mpr hby) inv

end Detection

/-! ### A straight line and a loop -/

section Examples

/-- The users of a value, in program order. -/
private def usersOf (f : Cfg) (v : Val) : List Inst := f.insts.filter fun i => v ∈ i.operands

private theorem mem_usersOf (f : Cfg) (v : Val) (i : Inst) :
    i ∈ usersOf f v ↔ (∃ b ∈ f.labels, i ∈ f.code b) ∧ v ∈ i.operands := by
  simp [usersOf, Cfg.insts]

/-- Post-dominance by a search for an exit that avoids `c`. -/
private def pdtDominates (f : Func) (c b : Label) : Bool :=
  decide (b ∈ f.labels) && (decide (b = c) ||
    (Worklist.explore (walkSuccs f c) (f.labels.length + 1) [b] [b]).all fun e => f.succs e ≠ [])

private theorem pdtDominates_sound (f : Func) (c b : Label) (h : pdtDominates f c b = true) :
    f.PostDominates c b := by
  simp only [pdtDominates, Bool.and_eq_true, decide_eq_true_eq, Bool.or_eq_true,
    List.all_eq_true] at h
  obtain ⟨hb, hbc | hall⟩ := h
  · exact fun _ _ _ => hbc
  · intro e he hreach
    refine absurd he (hall e ?_)
    refine (Worklist.mem_explore_iff (U := f.labels.toFinset) ?_ ?_ ?_).mpr
      ⟨b, List.mem_singleton_self b, ?_⟩
    · intro x hx y hy
      exact List.mem_toFinset.mpr
        (f.succs_mem x (List.mem_toFinset.mp hx) y (List.mem_filter.mp hy).1)
    · simpa using hb
    · simp only [Worklist.remaining, List.length_singleton]
      have h₁ := Finset.card_filter_le f.labels.toFinset (· ∉ [b])
      have h₂ := f.labels.toFinset_card_le
      omega
    · clear he
      induction hreach with
      | refl => exact .refl
      | tail _ hedge ih => exact .tail ih (List.mem_filter.mpr ⟨hedge.1, by simpa using hedge.2⟩)

/-- An instruction of the examples. -/
private def mkInst (n : ℕ) (op : Op) (args : List Val) (ty : Ty) : Inst :=
  { name := n, op := op, args := args, ty := ty }

/-- `%1 = load i32, ptr %p`. -/
def exampleLoad : Inst := mkInst 1 .load [.arg 0 .ptr] (.int 32)

/-- `call void %g(i32 %1)`. -/
def exampleCall : Inst :=
  mkInst 4 (.call ⟨.indirect (.arg 3 .ptr), false, false, false, [], [], none⟩) [exampleLoad.val]
    .void

/-- The load and the call in one block. -/
def straightFunc : Func where
  entry := 0
  labels := [0]
  code b := if b = 0 then [exampleLoad, exampleCall, mkInst 6 .ret [] .void] else []
  succs _ := []
  entry_mem := by decide
  succs_mem := by decide
  names_nodup := by decide
  code_nodup := by decide
  terminator_last b hb := by
    obtain rfl := List.mem_singleton.mp hb
    exact ⟨[exampleLoad, exampleCall], _, rfl, rfl, by decide⟩

/-- What LLVM computes for it. -/
def straightAnalyses : Analyses where
  users := usersOf straightFunc
  postDominates := pdtDominates straightFunc
  loopFor _ := none

private theorem straightAnalyses_exact : straightAnalyses.Exact straightFunc where
  mem_users := mem_usersOf _
  postDominates_sound := pdtDominates_sound _
  loopFor_none _ _ _ h := by
    obtain ⟨_, hedge, -⟩ := h
    cases hedge
  loopFor_some _ _ h := by cases h

/-- A loop with a `continue` between the load, in its header `1`, and the call, in its latch `3`:
`for (;;) { v = *p; if (c) continue; g(v); if (d) break; }`. -/
def continueFunc : Func where
  entry := 0
  labels := [0, 1, 2, 3, 4]
  code b :=
    match b with
    | 0 => [mkInst 0 .br [] .void]
    | 1 => [exampleLoad, mkInst 2 .condBr [.arg 1 (.int 1)] .void]
    | 2 => [mkInst 3 .br [] .void]
    | 3 => [exampleCall, mkInst 5 .condBr [.arg 2 (.int 1)] .void]
    | 4 => [mkInst 6 .ret [] .void]
    | _ => []
  succs b :=
    match b with
    | 0 => [1]
    | 1 => [2, 3]
    | 2 => [1]
    | 3 => [1, 4]
    | _ => []
  entry_mem := by decide
  succs_mem := by decide
  names_nodup := by decide
  code_nodup := by decide
  terminator_last b hb := by
    simp only [List.mem_cons, List.not_mem_nil, or_false] at hb
    rcases hb with rfl | rfl | rfl | rfl | rfl
    · exact ⟨[], _, rfl, rfl, by decide⟩
    · exact ⟨[exampleLoad], _, rfl, rfl, by decide⟩
    · exact ⟨[], _, rfl, rfl, by decide⟩
    · exact ⟨[exampleCall], _, rfl, rfl, by decide⟩
    · exact ⟨[], _, rfl, rfl, by decide⟩

private theorem continueFunc_edge {b c : Label} : continueFunc.Edge b c ↔
    (b = 0 ∧ c = 1) ∨ (b = 1 ∧ (c = 2 ∨ c = 3)) ∨ (b = 2 ∧ c = 1) ∨ (b = 3 ∧ (c = 1 ∨ c = 4)) := by
  match b with
  | 0 | 1 | 2 | 3 => simp [Cfg.Edge, continueFunc]
  | n + 4 => simp [Cfg.Edge, continueFunc]

/-- Blocks `0` and `1` are reached from the entry without passing through a block other than
them. -/
private theorem continueFunc_head {h : Label} (hh : h ≠ 1) :
    continueFunc.ReachesAvoiding h 0 1 :=
  .single ⟨continueFunc_edge.mpr (by simp), hh.symm⟩

private theorem continueFunc_inLoop {h b : Label} :
    continueFunc.InLoop h b ↔ h = 1 ∧ (b = 1 ∨ b = 2 ∨ b = 3) := by
  constructor
  · rintro ⟨latch, hedge, hdom, -, hb⟩
    -- the only edges to a block that dominates their source are those to the header
    have hback : h = 1 ∧ (latch = 2 ∨ latch = 3) := by
      rcases continueFunc_edge.mp hedge with ⟨rfl, rfl⟩ | ⟨rfl, rfl | rfl⟩ | ⟨rfl, rfl⟩ |
        ⟨rfl, rfl | rfl⟩
      · cases hdom .refl
      · cases hdom (continueFunc_head (by decide))
      · cases hdom (continueFunc_head (by decide))
      · exact ⟨rfl, Or.inl rfl⟩
      · exact ⟨rfl, Or.inr rfl⟩
      · cases hdom ((continueFunc_head (by decide)).tail
          ⟨continueFunc_edge.mpr (by simp), by decide⟩)
    obtain ⟨rfl, hlatch⟩ := hback
    refine ⟨rfl, ?_⟩
    rcases hb with rfl | ⟨-, hreach⟩
    · exact Or.inl rfl
    · cases hreach using Relation.ReflTransGen.head_induction_on with
      | refl => exact Or.inr hlatch
      | head hstep _ =>
        rcases continueFunc_edge.mp hstep.1 with ⟨rfl, rfl⟩ | ⟨rfl, -⟩ | ⟨rfl, -⟩ | ⟨rfl, -⟩
        · exact absurd rfl hstep.2
        · exact Or.inl rfl
        · exact Or.inr (Or.inl rfl)
        · exact Or.inr (Or.inr rfl)
  · rintro ⟨rfl, hb⟩
    have h01 : continueFunc.Reaches 0 1 := .single (continueFunc_edge.mpr (by simp))
    have hdom : ∀ b, continueFunc.Dominates 1 b ∨ b = 0 := by
      intro b
      refine or_iff_not_imp_right.mpr fun hb hreach => ?_
      cases hreach using Relation.ReflTransGen.head_induction_on with
      | refl => exact absurd rfl hb
      | head hstep _ =>
        rcases continueFunc_edge.mp hstep.1 with ⟨-, rfl⟩ | ⟨h, -⟩ | ⟨h, -⟩ | ⟨h, -⟩
        · exact absurd rfl hstep.2
        all_goals cases h
    rcases hb with rfl | rfl | rfl
    · exact ⟨2, continueFunc_edge.mpr (by simp), (hdom 2).resolve_right (by decide),
        h01.tail (continueFunc_edge.mpr (by simp)), Or.inl rfl⟩
    · exact ⟨2, continueFunc_edge.mpr (by simp), (hdom 2).resolve_right (by decide),
        h01.tail (continueFunc_edge.mpr (by simp)), Or.inr ⟨by decide, .refl⟩⟩
    · exact ⟨3, continueFunc_edge.mpr (by simp), (hdom 3).resolve_right (by decide),
        h01.tail (continueFunc_edge.mpr (by simp)), Or.inr ⟨by decide, .refl⟩⟩

/-- What LLVM computes for it: the load and the call are in one loop, and the call
post-dominates the load. -/
def continueAnalyses : Analyses where
  users := usersOf continueFunc
  postDominates := pdtDominates continueFunc
  loopFor b := if b = 1 ∨ b = 2 ∨ b = 3 then some 1 else none

private theorem continueAnalyses_exact : continueAnalyses.Exact continueFunc where
  mem_users := mem_usersOf _
  postDominates_sound := pdtDominates_sound _
  loopFor_none b hb h hloop := by
    simp only [continueAnalyses] at hb
    rw [if_pos (continueFunc_inLoop.mp hloop).2] at hb
    cases hb
  loopFor_some b h hb := by
    simp only [continueAnalyses] at hb
    split_ifs at hb with hmem
    obtain rfl := Option.some.inj hb
    refine ⟨continueFunc_inLoop.mpr ⟨rfl, hmem⟩, fun h' hloop => ?_⟩
    obtain ⟨rfl, -⟩ := continueFunc_inLoop.mp hloop
    exact continueFunc_inLoop.mpr ⟨rfl, Or.inl rfl⟩

/-- On the straight line the hypotheses hold, and the call sees what the load read. -/
theorem sink_deferral_straightFunc :
    straightAnalyses.Exact straightFunc ∧ 0 ∈ straightFunc.labels ∧
      exampleLoad ∈ straightFunc.code 0 ∧ exampleLoad.op = .load ∧
      findSinkFor straightFunc straightAnalyses 0 exampleLoad = some exampleCall ∧
      ∀ inv : Invocation straightFunc, Detected exampleLoad exampleCall inv.steps := by
  have hfind : findSinkFor straightFunc straightAnalyses 0 exampleLoad = some exampleCall := by
    decide
  refine ⟨straightAnalyses_exact, by decide, by decide, rfl, hfind, ?_⟩
  refine (sink_deferral straightFunc straightAnalyses 0 exampleLoad
    straightAnalyses_exact.toLawful (by decide) (by decide) rfl).1 (fun sbb sink hcand hne => ?_)
    exampleCall hfind
  have hmem := (Cfg.mem_of_parent hcand.2.1).1
  exact absurd (List.mem_singleton.mp hmem) hne

/-- In the loop the check of the load is deferred to the call, and some invocation executes the
load, takes the `continue`, and executes the load again. -/
theorem continueFunc_not_detected :
    continueAnalyses.Exact continueFunc ∧
      ¬ ∀ sink, findSinkFor continueFunc continueAnalyses 1 exampleLoad = some sink →
        ∀ inv : Invocation continueFunc, Detected exampleLoad sink inv.steps := by
  refine ⟨continueAnalyses_exact, fun h => ?_⟩
  have hfind : findSinkFor continueFunc continueAnalyses 1 exampleLoad = some exampleCall := by
    decide
  have hby : continueFunc.Bypasses 1 3 :=
    ⟨2, ⟨continueFunc_edge.mpr (by simp), by decide⟩,
      .single ⟨continueFunc_edge.mpr (by simp), by decide⟩⟩
  have hexit : continueFunc.Reaches 1 4 :=
    (Relation.ReflTransGen.single (continueFunc_edge.mpr (by simp) : continueFunc.Edge 1 3)).tail
      (continueFunc_edge.mpr (by simp))
  obtain ⟨inv, hinv⟩ := not_detected_of_bypasses (by decide)
    (show exampleLoad ∈ continueFunc.code 1 by decide)
    (show continueFunc.parent exampleCall = some 3 by decide) (by decide)
    (.single (continueFunc_edge.mpr (by simp) : continueFunc.Edge 0 1)) (e := 4) rfl hexit hby
  exact hinv (h exampleCall hfind inv)

end Examples

end CQMSan
