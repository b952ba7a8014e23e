import CQMSan.Fuzzer.Trace

/-!
# Fuzzing sessions: the two-tier protocol

A session alternates between the instrumented child, which performs a list of writes to the
shared map, and `qmsan_check_bugs` in the fuzzer, which polls the sentinel, folds the map into
`msan_traces` and decides whether the accurate detector is run on the input just executed.

A child runs to completion, or is killed by the timeout between two of its writes
(`Execution.killedAfter`). The two kinds of session behave differently:

* when every child completes, the fuzzer's map is a faithful copy of the shared one after every
  check, and the accurate detector is run exactly on the executions that set a bit nobody had
  set before (`readme_session`);
* a child killed after a new bit but before the sentinel leaves the bit unexamined, and this is
  the only way in which a bit escapes the check of its own execution (`examinedInTime_iff`).
-/

namespace CQMSan

/-- One execution of the instrumented target. -/
structure Execution where
  /-- The edge state the child starts from (inherited from the fork server). -/
  edges : EdgeState
  /-- The reports of the run-time library, in order. -/
  firings : List Firing
  /-- `some n` for a child killed after `n` map writes, `none` for one that completes. -/
  killedAfter : Option ℕ
  /-- Whether the accurate detector would confirm the violation on this input. -/
  confirmed : Bool
deriving DecidableEq, Repr

/-- The map writes an execution really performs. -/
def Execution.writes (x : Execution) : List MapWrite :=
  match x.killedAfter with
  | none => firingWrites x.edges x.firings
  | some n => (firingWrites x.edges x.firings).take n

/-- The state shared by the two programs: `fsrv.msan_bits` and the fuzzer's own state. -/
structure SessionState where
  msanBits : AflMap
  afl : AflState

/-- The state before the first execution: both maps zero. -/
def SessionState.init : SessionState := ⟨fun _ => 0#8, AflState.init⟩

/-- What one check did: whether `system(cmdline)` was called, and the return value. -/
structure CheckOutcome where
  detectorRun : Bool
  ret : Bool
deriving DecidableEq, Repr

/-- The accurate tier: count the run and, when the detector confirms, the crash. -/
def runAccurate (confirmed : Bool) (a : AflState) : AflState :=
  { a with
    heavyweightRuns := a.heavyweightRuns + 1
    qmsanCrashes := if confirmed then a.qmsanCrashes + 1 else a.qmsanCrashes }

/-- `qmsan_check_bugs`. -/
def qmsanCheckBugs (b : BuildMode) (confirmed : Bool) (s : SessionState) :
    SessionState × CheckOutcome :=
  let r :=
    if s.msanBits (mapSize - 1) ≠ 0#8 then
      let scan := checkMsanTrace b s.afl s.msanBits
      let bits := Function.update s.msanBits (mapSize - 1) 0#8
      if scan.2 then (⟨bits, runAccurate confirmed scan.1⟩, ⟨true, confirmed⟩)
      else (⟨bits, scan.1⟩, ⟨false, false⟩)
    else (s, ⟨false, false⟩)
  if b.flagging || b.naive then
    (⟨fun i => if i < mapSize then 0#8 else r.1.msanBits i, r.1.afl⟩, r.2)
  else r

/-- One execution followed by its check. -/
def runExecution (b : BuildMode) (s : SessionState) (x : Execution) :
    SessionState × CheckOutcome :=
  qmsanCheckBugs b x.confirmed { s with msanBits := applyWrites s.msanBits x.writes }

/-- A whole session. -/
def runSession (b : BuildMode) (s : SessionState) (xs : List Execution) : SessionState :=
  xs.foldl (fun s x => (runExecution b s x).1) s

/-- The writes of a whole session. -/
def sessionWrites (xs : List Execution) : List MapWrite := xs.flatMap Execution.writes

/-- Execution `x` sets bit `k` of slot `i`. -/
def Execution.Sets (x : Execution) (i k : ℕ) : Prop := (bitsWritten x.writes i).getLsbD k = true

/-! ### Writes of an execution -/

theorem Execution.isReport {x : Execution} {w : MapWrite} (hw : w ∈ x.writes) : w.IsReport := by
  unfold Execution.writes at hw
  split at hw
  · exact isReport_of_mem_firingWrites hw
  · exact isReport_of_mem_firingWrites (List.mem_of_mem_take hw)

theorem bitsWritten_append (ws ws' : List MapWrite) (i : ℕ) :
    bitsWritten (ws ++ ws') i = bitsWritten ws i ||| bitsWritten ws' i := by
  induction ws with
  | nil => simp
  | cons w ws ih =>
    rw [List.cons_append, bitsWritten_cons, bitsWritten_cons, ih]
    split_ifs
    · rw [BitVec.or_assoc]
    · rfl

theorem sessionWrites_append (xs : List Execution) (x : Execution) :
    sessionWrites (xs ++ [x]) = sessionWrites xs ++ x.writes := by
  simp [sessionWrites]

theorem getLsbD_sessionWrites {xs : List Execution} {i k : ℕ} :
    (bitsWritten (sessionWrites xs) i).getLsbD k = true ↔ ∃ x ∈ xs, x.Sets i k := by
  simp only [getLsbD_bitsWritten, sessionWrites, List.mem_flatMap, Execution.Sets]
  constructor
  · rintro ⟨w, ⟨x, hx, hw⟩, h⟩
    exact ⟨x, hx, w, hw, h⟩
  · rintro ⟨x, hx, w, hw, h⟩
    exact ⟨w, ⟨x, hx, hw⟩, h⟩

/-- Below the sentinel an execution sets report bits only. -/
theorem Execution.Sets.reportBits {x : Execution} {i k : ℕ} (h : x.Sets i k) (hi : i ≠ sentinel) :
    (CQMSan.reportBits).getLsbD k = true := by
  have hb := bitsWritten_and_reportBits (fun w hw => x.isReport hw) hi
  rw [Execution.Sets, ← hb, BitVec.getLsbD_and, Bool.and_eq_true] at h
  exact h.2

/-- A completed execution that writes anything sets the sentinel. -/
theorem Execution.exists_sentinel_of_sets {x : Execution} (hx : x.killedAfter = none) {i k : ℕ}
    (h : x.Sets i k) : ∃ w ∈ x.writes, w.slot = sentinel := by
  have hw : x.writes = firingWrites x.edges x.firings := by simp [Execution.writes, hx]
  obtain ⟨w, hmem, -⟩ := getLsbD_bitsWritten.mp h
  rw [hw] at hmem ⊢
  exact exists_sentinel_of_firingWrites_ne_nil (List.ne_nil_of_mem hmem)

/-! ### One execution and its check -/

private theorem readmeBuild_keeps_bits : (readmeBuild.flagging || readmeBuild.naive) = false := rfl

/-- With a clear sentinel the check does nothing. -/
theorem qmsanCheckBugs_of_clear {confirmed : Bool} {s : SessionState}
    (h : s.msanBits sentinel = 0#8) :
    qmsanCheckBugs readmeBuild confirmed s = (s, ⟨false, false⟩) := by
  have hif : ¬ s.msanBits (mapSize - 1) ≠ 0#8 := not_not.mpr h
  simp only [qmsanCheckBugs, if_neg hif, readmeBuild_keeps_bits, Bool.false_eq_true, if_false]

/-- With a set sentinel the check scans, clears the sentinel, and runs the accurate detector on
a scan that asks for it. -/
theorem qmsanCheckBugs_of_set {confirmed : Bool} {s : SessionState}
    (h : s.msanBits sentinel ≠ 0#8) :
    let scan := checkMsanTrace readmeBuild s.afl s.msanBits
    let r := qmsanCheckBugs readmeBuild confirmed s
    r.1.msanBits = Function.update s.msanBits sentinel 0#8 ∧
      r.1.afl.msanTraces = scan.1.msanTraces ∧ r.2.detectorRun = scan.2 := by
  intro scan r
  have hr : r = if scan.2 then
      (⟨Function.update s.msanBits sentinel 0#8, runAccurate confirmed scan.1⟩, ⟨true, confirmed⟩)
      else (⟨Function.update s.msanBits sentinel 0#8, scan.1⟩, ⟨false, false⟩) := by
    have hif : s.msanBits (mapSize - 1) ≠ 0#8 := h
    simp only [r, qmsanCheckBugs, if_pos hif, readmeBuild_keeps_bits, Bool.false_eq_true,
      if_false, scan, sentinel]
  rw [hr]
  cases scan.2 <;> simp [runAccurate]

section Step

variable {s : SessionState} {x : Execution}

/-- Whether the check of an execution scans the map at all. -/
def Scanned (s : SessionState) (x : Execution) : Prop :=
  applyWrites s.msanBits x.writes sentinel ≠ 0#8

/-- The check clears the sentinel and touches nothing else of the shared map. -/
theorem runExecution_msanBits (i : ℕ) :
    (runExecution readmeBuild s x).1.msanBits i =
      if i = sentinel then 0#8 else applyWrites s.msanBits x.writes i := by
  unfold runExecution
  by_cases hz : applyWrites s.msanBits x.writes sentinel = 0#8
  · rw [qmsanCheckBugs_of_clear hz]
    split_ifs with hi
    · rw [hi]; exact hz
    · rfl
  · rw [(qmsanCheckBugs_of_set hz).1]
    split_ifs with hi
    · rw [hi, Function.update_self]
    · rw [Function.update_of_ne hi]

theorem runExecution_traces_of_scanned (h : Scanned s x) (i : ℕ) :
    (runExecution readmeBuild s x).1.afl.msanTraces i =
      if i < sentinel then
        s.afl.msanTraces i ||| (applyWrites s.msanBits x.writes i &&& reportBits)
      else s.afl.msanTraces i := by
  rw [← checkMsanTrace_traces, runExecution,
    (qmsanCheckBugs_of_set (s := ⟨applyWrites s.msanBits x.writes, s.afl⟩) h).2.1]

theorem runExecution_of_not_scanned (h : ¬ Scanned s x) :
    (runExecution readmeBuild s x).1.afl.msanTraces = s.afl.msanTraces ∧
      (runExecution readmeBuild s x).2.detectorRun = false := by
  rw [runExecution, qmsanCheckBugs_of_clear (s := ⟨applyWrites s.msanBits x.writes, s.afl⟩)
    (not_not.mp h)]
  exact ⟨rfl, rfl⟩

theorem runExecution_detectorRun_iff :
    (runExecution readmeBuild s x).2.detectorRun = true ↔ Scanned s x ∧
      ∃ i < sentinel, applyWrites s.msanBits x.writes i &&& reportBits &&&
        ~~~(s.afl.msanTraces i) ≠ 0#8 := by
  by_cases hsc : Scanned s x
  · rw [runExecution,
      (qmsanCheckBugs_of_set (s := ⟨applyWrites s.msanBits x.writes, s.afl⟩) hsc).2.2,
      checkMsanTrace_heavyweight_iff]
    exact ⟨fun h => ⟨hsc, h⟩, fun h => h.2⟩
  · rw [(runExecution_of_not_scanned hsc).2]
    exact ⟨fun h => absurd h (by decide), fun h => absurd h.1 hsc⟩

end Step

/-! ### The invariant of a session -/

/-- What holds after every check of a session, killed children included: the sentinel is clear,
the shared map has the bits written so far, and the fuzzer has recorded none but those. -/
structure SessionInv (xs : List Execution) (s : SessionState) : Prop where
  sentinel_clear : s.msanBits sentinel = 0#8
  bits : ∀ i ≠ sentinel, s.msanBits i = bitsWritten (sessionWrites xs) i
  traces_le : ∀ i k, (s.afl.msanTraces i).getLsbD k = true → ∃ x ∈ xs, x.Sets i k

theorem SessionInv.init : SessionInv [] SessionState.init :=
  ⟨rfl, fun _ _ => rfl, fun i k h => by simp [SessionState.init, AflState.init] at h⟩

/-- The map the check of `x` sees below the sentinel. -/
theorem SessionInv.applyWrites_apply {xs : List Execution} {s : SessionState}
    (h : SessionInv xs s) (x : Execution) {i : ℕ} (hi : i ≠ sentinel) :
    applyWrites s.msanBits x.writes i = bitsWritten (sessionWrites (xs ++ [x])) i := by
  rw [CQMSan.applyWrites_apply (fun w hw => x.isReport hw) hi, h.bits i hi, sessionWrites_append,
    bitsWritten_append]

theorem SessionInv.step {xs : List Execution} {s : SessionState} (h : SessionInv xs s)
    (x : Execution) : SessionInv (xs ++ [x]) (runExecution readmeBuild s x).1 := by
  refine ⟨?_, fun i hi => ?_, fun i k hk => ?_⟩
  · rw [runExecution_msanBits, if_pos rfl]
  · rw [runExecution_msanBits, if_neg hi, h.applyWrites_apply x hi]
  · have hold : (s.afl.msanTraces i).getLsbD k = true → ∃ y ∈ xs ++ [x], y.Sets i k := fun hk => by
      obtain ⟨y, hy, hs⟩ := h.traces_le i k hk
      exact ⟨y, List.mem_append_left _ hy, hs⟩
    by_cases hsc : Scanned s x
    · rw [runExecution_traces_of_scanned hsc] at hk
      split_ifs at hk with hi
      · rw [BitVec.getLsbD_or, Bool.or_eq_true] at hk
        rcases hk with hk | hk
        · exact hold hk
        · rw [h.applyWrites_apply x (Nat.ne_of_lt hi), BitVec.getLsbD_and, Bool.and_eq_true] at hk
          exact getLsbD_sessionWrites.mp hk.1
      · exact hold hk
    · rw [(runExecution_of_not_scanned hsc).1] at hk
      exact hold hk

theorem runSession_append (b : BuildMode) (s : SessionState) (xs : List Execution) (x : Execution) :
    runSession b s (xs ++ [x]) = (runExecution b (runSession b s xs) x).1 := by
  simp [runSession]

theorem sessionInv_runSession (xs : List Execution) :
    SessionInv xs (runSession readmeBuild SessionState.init xs) := by
  induction xs using List.reverseRecOn with
  | nil => exact SessionInv.init
  | append_singleton xs x ih =>
    rw [runSession_append]
    exact ih.step x

/-- From a state of the session, the check after `x` scans exactly when `x` wrote the sentinel. -/
theorem SessionInv.scanned_iff {xs : List Execution} {s : SessionState} (h : SessionInv xs s)
    (x : Execution) : Scanned s x ↔ ∃ w ∈ x.writes, w.slot = sentinel :=
  applyWrites_sentinel_ne_zero_iff (fun _ hw => x.isReport hw) h.sentinel_clear

/-- A scanned execution has every bit it set recorded. -/
theorem SessionInv.traces_of_sets {xs : List Execution} {s : SessionState} (h : SessionInv xs s)
    {x y : Execution} (hsc : Scanned s x) (hy : y ∈ xs ++ [x]) {i k : ℕ} (hi : i < sentinel)
    (hk : y.Sets i k) :
    ((runExecution readmeBuild s x).1.afl.msanTraces i).getLsbD k = true := by
  rw [runExecution_traces_of_scanned hsc, if_pos hi, h.applyWrites_apply x (Nat.ne_of_lt hi),
    BitVec.getLsbD_or, BitVec.getLsbD_and, getLsbD_sessionWrites.mpr ⟨y, hy, hk⟩,
    hk.reportBits (Nat.ne_of_lt hi)]
  simp

/-! ### Sessions in which every child completes -/

/-- In a session of completed children the fuzzer's map is the shared one. -/
theorem traces_eq_of_complete {xs : List Execution} (hxs : ∀ x ∈ xs, x.killedAfter = none) {i : ℕ}
    (hi : i < sentinel) :
    (runSession readmeBuild SessionState.init xs).afl.msanTraces i =
      (runSession readmeBuild SessionState.init xs).msanBits i &&& reportBits := by
  induction xs using List.reverseRecOn with
  | nil => simp [runSession, SessionState.init, AflState.init]
  | append_singleton xs x ih =>
    have hinv := sessionInv_runSession xs
    have ih' := ih fun y hy => hxs y (List.mem_append_left _ hy)
    rw [runSession_append, runExecution_msanBits, if_neg (Nat.ne_of_lt hi)]
    set s := runSession readmeBuild SessionState.init xs
    by_cases hsc : Scanned s x
    · rw [runExecution_traces_of_scanned hsc, if_pos hi, ih',
        CQMSan.applyWrites_apply (fun w hw => x.isReport hw) (Nat.ne_of_lt hi)]
      refine BitVec.eq_of_getLsbD_eq fun k _ => ?_
      simp only [BitVec.getLsbD_or, BitVec.getLsbD_and]
      cases (s.msanBits i).getLsbD k <;> simp
    · -- an unscanned child that completed wrote nothing at all
      have hnone : bitsWritten x.writes i = 0#8 := by
        refine BitVec.eq_of_getLsbD_eq fun k _ => ?_
        by_contra hne
        have hset : x.Sets i k := by simpa [Execution.Sets] using hne
        exact hsc ((hinv.scanned_iff x).mpr
          (Execution.exists_sentinel_of_sets (hxs x (by simp)) hset))
      rw [(runExecution_of_not_scanned hsc).1, ih',
        CQMSan.applyWrites_apply (fun w hw => x.isReport hw) (Nat.ne_of_lt hi), hnone]
      simp

private theorem and_not_ne_zero_iff {a b : U8} :
    a &&& ~~~b ≠ 0#8 ↔ ∃ k, a.getLsbD k = true ∧ b.getLsbD k = false := by
  constructor
  · intro h
    by_contra hcon
    push Not at hcon
    refine h (BitVec.eq_of_getLsbD_eq fun k hk => ?_)
    have := hcon k
    cases ha : a.getLsbD k <;> simp_all
  · rintro ⟨k, ha, hb⟩ hz
    have hk : k < 8 := by
      by_contra hge
      rw [BitVec.getLsbD_of_ge _ _ (by omega)] at ha
      exact Bool.false_ne_true ha
    have := congrArg (fun y : U8 => y.getLsbD k) hz
    simp only [BitVec.getLsbD_and, BitVec.getLsbD_not, ha, hb, hk, decide_true, Bool.not_false,
      Bool.and_self, BitVec.getLsbD_zero] at this
    exact Bool.noConfusion this

/-- **The two-tier session law.** In the README build, whatever the children report, after each
check the sentinel is clear, the fuzzer's map has exactly the report bits of the shared map at
every slot below the sentinel, and the accurate detector was run on the execution just checked
exactly when it set, below the sentinel, a bit that no earlier execution had set. -/
theorem readme_session (xs : List Execution) (hxs : ∀ x ∈ xs, x.killedAfter = none)
    (pre post : List Execution) (x : Execution) (hsplit : xs = pre ++ x :: post) :
    let before := runSession readmeBuild SessionState.init pre
    let after := runExecution readmeBuild before x
    after.1.msanBits sentinel = 0#8 ∧
    (∀ i < sentinel, after.1.afl.msanTraces i = after.1.msanBits i &&& reportBits) ∧
    (after.2.detectorRun = true ↔
      ∃ i < sentinel, ∃ k, x.Sets i k ∧ ∀ y ∈ pre, ¬ y.Sets i k) := by
  intro before after
  subst hsplit
  have hpre : ∀ y ∈ pre, y.killedAfter = none := fun y hy => hxs y (List.mem_append_left _ hy)
  have hx : x.killedAfter = none := hxs x (by simp)
  have hinv : SessionInv pre before := sessionInv_runSession pre
  have hafter : after.1 = runSession readmeBuild SessionState.init (pre ++ [x]) :=
    (runSession_append _ _ _ _).symm
  refine ⟨(hinv.step x).sentinel_clear, fun i hi => ?_, ?_⟩
  · rw [hafter]
    refine traces_eq_of_complete (fun y hy => ?_) hi
    rcases List.mem_append.mp hy with hy | hy
    · exact hpre y hy
    · exact List.mem_singleton.mp hy ▸ hx
  · have htr : ∀ i < sentinel, before.afl.msanTraces i = before.msanBits i &&& reportBits :=
      fun i hi => traces_eq_of_complete hpre hi
    rw [runExecution_detectorRun_iff]
    constructor
    · rintro ⟨-, i, hi, hne⟩
      obtain ⟨k, hk, hnk⟩ := and_not_ne_zero_iff.mp hne
      have hne' : i ≠ sentinel := Nat.ne_of_lt hi
      rw [hinv.applyWrites_apply x hne', BitVec.getLsbD_and, Bool.and_eq_true,
        getLsbD_sessionWrites] at hk
      obtain ⟨⟨y, hy, hyk⟩, hr⟩ := hk
      have hnot : ∀ z ∈ pre, ¬ z.Sets i k := fun z hz hzk => by
        rw [htr i hi, hinv.bits i hne', BitVec.getLsbD_and, hr, Bool.and_true,
          getLsbD_sessionWrites.mpr ⟨z, hz, hzk⟩] at hnk
        exact Bool.noConfusion hnk
      refine ⟨i, hi, k, ?_, hnot⟩
      rcases List.mem_append.mp hy with hy | hy
      · exact absurd hyk (hnot y hy)
      · exact List.mem_singleton.mp hy ▸ hyk
    · rintro ⟨i, hi, k, hk, hnot⟩
      have hne' : i ≠ sentinel := Nat.ne_of_lt hi
      refine ⟨(hinv.scanned_iff x).mpr (Execution.exists_sentinel_of_sets hx hk), i, hi,
        and_not_ne_zero_iff.mpr ⟨k, ?_, ?_⟩⟩
      · rw [hinv.applyWrites_apply x hne', BitVec.getLsbD_and,
          getLsbD_sessionWrites.mpr ⟨x, by simp, hk⟩, hk.reportBits hne']
        rfl
      · by_contra hcon
        obtain ⟨y, hy, hyk⟩ := hinv.traces_le i k (by simpa using hcon)
        exact hnot y hy hyk

/-- A firing at program counter `0x401001`, reported twice by two runs of the same input. -/
def repeatedFiring : Execution :=
  { edges := ⟨0, 0⟩, firings := [.full [0x401001#64]], killedAfter := none, confirmed := false }

theorem readme_session_repeatedFiring :
    let before := runSession readmeBuild SessionState.init [repeatedFiring]
    let after := runExecution readmeBuild before repeatedFiring
    (∀ x ∈ [repeatedFiring, repeatedFiring], x.killedAfter = none) ∧
    after.1.msanBits sentinel = 0#8 ∧
    (∀ i < sentinel, after.1.afl.msanTraces i = after.1.msanBits i &&& reportBits) ∧
    (after.2.detectorRun = true ↔
      ∃ i < sentinel, ∃ k, repeatedFiring.Sets i k ∧ ∀ y ∈ [repeatedFiring], ¬ y.Sets i k) :=
  ⟨by decide, readme_session [repeatedFiring, repeatedFiring] (by decide) [repeatedFiring] []
    repeatedFiring rfl⟩

/-! ### Killed children -/

/-- Every bit an execution sets for the first time in the session, below the sentinel, is
examined by the check that follows that very execution: the fuzzer had not recorded it, records
it now, and runs the accurate detector on the input that produced it. -/
def ExaminedInTime (xs : List Execution) : Prop :=
  ∀ pre x post, xs = pre ++ x :: post → ∀ i < sentinel, ∀ k, x.Sets i k →
    (∀ y ∈ pre, ¬ y.Sets i k) →
    let before := runSession readmeBuild SessionState.init pre
    let after := runExecution readmeBuild before x
    (before.afl.msanTraces i).getLsbD k = false ∧ (after.1.afl.msanTraces i).getLsbD k = true ∧
      after.2.detectorRun = true

/-- **Killed children.** A session examines its new bits in time exactly when each of its
executions, killed or not, either reached a write to the sentinel slot or had set, below the
sentinel, only bits that earlier executions had set. -/
theorem examinedInTime_iff (xs : List Execution) :
    ExaminedInTime xs ↔ ∀ pre x post, xs = pre ++ x :: post →
      (∃ w ∈ x.writes, w.slot = sentinel) ∨
        ∀ i < sentinel, ∀ k, x.Sets i k → ∃ y ∈ pre, y.Sets i k := by
  constructor
  · intro h pre x post hxs
    by_contra hcon
    push Not at hcon
    obtain ⟨hnos, i, hi, k, hk, hnew⟩ := hcon
    have hrun := (h pre x post hxs i hi k hk hnew).2.2
    obtain ⟨w, hw, hs⟩ := ((sessionInv_runSession pre).scanned_iff x).mp
      (runExecution_detectorRun_iff.mp hrun).1
    exact hnos w hw hs
  · intro h pre x post hxs i hi k hk hnew before after
    have hinv : SessionInv pre before := sessionInv_runSession pre
    have hold : (before.afl.msanTraces i).getLsbD k = false := by
      by_contra hcon
      obtain ⟨y, hy, hyk⟩ := hinv.traces_le i k (by simpa using hcon)
      exact hnew y hy hyk
    have hsc : Scanned before x := by
      refine (hinv.scanned_iff x).mpr ((h pre x post hxs).resolve_right fun hall => ?_)
      obtain ⟨y, hy, hyk⟩ := hall i hi k hk
      exact hnew y hy hyk
    have hne : i ≠ sentinel := Nat.ne_of_lt hi
    refine ⟨hold, hinv.traces_of_sets hsc (by simp) hi hk, runExecution_detectorRun_iff.mpr
      ⟨hsc, i, hi, and_not_ne_zero_iff.mpr ⟨k, ?_, hold⟩⟩⟩
    rw [hinv.applyWrites_apply x hne, BitVec.getLsbD_and,
      getLsbD_sessionWrites.mpr ⟨x, by simp, hk⟩, hk.reportBits hne]
    rfl

/-- The first firing of the session, killed after the `ERROR` bit and before the sentinel. -/
def killedFiring : Execution := { repeatedFiring with killedAfter := some 1 }

/-- A killed child's new bit is not examined by the check that follows it. -/
theorem not_examinedInTime_killedFiring : ¬ ExaminedInTime [killedFiring, repeatedFiring] := by
  rw [examinedInTime_iff]
  intro h
  rcases h [] killedFiring [repeatedFiring] rfl with ⟨w, hw, hs⟩ | hold
  · revert w
    decide
  · have hset : killedFiring.Sets 0x1000 1 :=
      show (bitsWritten killedFiring.writes 0x1000).getLsbD 1 = true by decide
    obtain ⟨y, hy, -⟩ := hold 0x1000 (by decide) 1 hset
    exact List.not_mem_nil hy

end CQMSan
