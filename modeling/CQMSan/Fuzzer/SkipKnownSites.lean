import CQMSan.Fuzzer.ScanShortcuts
import CQMSan.Fuzzer.Session

/-!
# Skipping known sites

With `skip_known_sites` a handler probes the shared map before it does anything: a site whose
error bit is set was reported earlier in the session, and neither the stack unwind nor the map
update is done for it. A session then leaves the sentinel clear where the session without the
flag sets it, and the two runs differ in the edge state and in the bits of the edges.

For a fuzzer that only filters, `QMSAN_FILTERING`, the verdicts are the same
(`skipKnownSites_verdicts`). Both runs are described by the error bits alone: the executions set
the error bits of the sites that fired (`isError_runReports`), whether or not a known site is
skipped, and the check turns the error bits of the shared map into those of the fuzzer's map
(`runChecked_spec`).
-/

namespace CQMSan

/-! ### The handlers -/

/-- The handlers that report through the map. -/
inductive FastHandler
  /-- `__cqmsan_warning_fast`. -/
  | warningFast
  /-- `__cqmsan_maybe_warning_fast_N`, on a non-zero shadow. -/
  | maybeWarningFast
  /-- `CHECK_UNPOISONED_0_FAST` of the interceptors. -/
  | checkUnpoisoned0Fast
  /-- `__cqmsan_warning_fast_pconly`. -/
  | warningFastPconly
  /-- `__cqmsan_maybe_warning_fast_pconly_N`, on a non-zero shadow. -/
  | maybeWarningFastPconly
  deriving DecidableEq, Repr

/-- The handler reports without a stack unwind. -/
def FastHandler.isPconly : FastHandler → Bool
  | .warningFastPconly | .maybeWarningFastPconly => true
  | _ => false

/-- A fired check: the handler, the program counter of its caller, and the stack that the unwind
from there gives. -/
structure Report where
  handler : FastHandler
  pc : Uptr
  stack : List Uptr
  deriving DecidableEq, Repr

/-- The program counter the handler probes the map with. -/
def Report.sitePc (r : Report) : Uptr :=
  if r.handler.isPconly then r.pc else getPreviousInstructionPc r.pc

/-- What the handler reports when the site is not skipped. -/
def Report.firing (r : Report) : Firing :=
  if r.handler.isPconly then .pcOnly r.pc else .full r.stack

/-- `trace[0]` of the unwound stack is the program counter of the caller. -/
def Report.Unwound (r : Report) : Prop := r.stack.head? = some r.pc

/-- `cqmsan_site_known`. -/
def cqmsanSiteKnown (skipKnownSites : Bool) (area : AflMap) (sitePc : Uptr) : Bool :=
  skipKnownSites && isError (area (sitePc.toNat % mapSize))

/-- A handler: the shared map and the edge state after it. -/
def Report.run (skip : Bool) (r : Report) (s : AflMap × EdgeState) : AflMap × EdgeState :=
  if cqmsanSiteKnown skip s.1 r.sitePc then s
  else (applyWrites s.1 (r.firing.update s.2).1, (r.firing.update s.2).2)

/-- The handlers of an execution, in order. -/
def runReports (skip : Bool) (s : AflMap × EdgeState) (rs : List Report) : AflMap × EdgeState :=
  rs.foldl (fun s r => r.run skip s) s

/-- An execution of the target: the edge state it inherits, its reports, and whether the accurate
detector would confirm the input. -/
structure ReportedExecution where
  edges : EdgeState
  reports : List Report
  confirmed : Bool
  deriving DecidableEq, Repr

/-- The build with `QMSAN_FILTERING` only. -/
def filteringBuild : BuildMode := { filtering := true }

/-- An execution followed by its `qmsan_check_bugs`. -/
def runChecked (skip : Bool) (s : SessionState) (x : ReportedExecution) :
    SessionState × CheckOutcome :=
  qmsanCheckBugs filteringBuild x.confirmed
    { s with msanBits := (runReports skip (s.msanBits, x.edges) x.reports).1 }

/-- A session: the state and the outcome after each execution. -/
def runCheckedSession (skip : Bool) : SessionState → List ReportedExecution →
    List (SessionState × CheckOutcome)
  | _, [] => []
  | s, x :: xs => runChecked skip s x :: runCheckedSession skip (runChecked skip s x).1 xs

/-! ### The error bits an execution sets -/

/-- The slot of the error bit of a site. -/
def Report.slot (r : Report) : ℕ := r.sitePc.toNat % mapSize

theorem isError_or (x y : U8) : isError (x ||| y) = (isError x || isError y) := by
  rw [isError, isError, isError, aflError, Bool.eq_iff_iff]
  simp only [ne_eq, decide_eq_true_eq, Bool.or_eq_true,
    and_one_shiftLeft_eq_zero_iff (show 1 < 8 by norm_num), BitVec.getLsbD_or, Bool.or_eq_false_iff]
  tauto

section Reports

variable {r : Report} {m : AflMap} {e : EdgeState} {i : ℕ}

/-- A report sets the error bit of its site and no other one below the sentinel. -/
theorem isError_applyWrites (h : r.Unwound) (hi : i < sentinel) :
    isError (applyWrites m (r.firing.update e).1 i) = (isError (m i) || decide (r.slot = i)) := by
  have hrep : ∀ w ∈ (r.firing.update e).1, w.IsReport := fun w hw => isReport_of_mem_update hw
  rw [applyWrites_apply hrep hi.ne, isError_or]
  congr 1
  have hne : mapSize - 1 ≠ i := hi.ne'
  have herr : isError aflError = true ∧ isError aflPcEdge = false ∧ isError aflCs = false ∧
      isError aflCsEdge = false ∧ isError (0#8 : U8) = false := by decide
  have hsplit : ∀ (k : ℕ) (x y : U8), isError (if k = i then x ||| y else y) =
      ((decide (k = i) && isError x) || isError y) := by
    intro k x y
    split_ifs with hk
    · rw [isError_or]
      simp [hk]
    · simp [hk]
  rw [Report.slot, Report.sitePc, Report.firing]
  by_cases hpc : r.handler.isPconly = true
  · simp only [if_pos hpc, Firing.update, cqmsanUpdateMapPc, bitsWritten_cons, MapWrite.slot,
      MapWrite.bits, hne, if_false, bitsWritten_nil, hsplit, herr]
    simp
  · obtain ⟨rest, hstack⟩ : ∃ rest, r.stack = r.pc :: rest := by
      cases hs : r.stack with
      | nil => rw [Report.Unwound, hs] at h; cases h
      | cons pc rest =>
        rw [Report.Unwound, hs, List.head?_cons, Option.some.injEq] at h
        exact ⟨rest, by rw [h]⟩
    simp only [if_neg hpc, Firing.update, hstack, cqmsanUpdateMap, bitsWritten_cons, MapWrite.slot,
      MapWrite.bits, hne, if_false, bitsWritten_nil, hsplit, herr]
    simp

/-- A report that is not skipped sets the sentinel. -/
theorem applyWrites_sentinel (h : r.Unwound) :
    applyWrites m (r.firing.update e).1 sentinel ≠ 0#8 := by
  have hrep : ∀ w ∈ (r.firing.update e).1, w.IsReport := fun w hw => isReport_of_mem_update hw
  rcases update_eq_nil_or_sentinel r.firing e with hnil | ⟨w, hw, hslot⟩
  · -- no handler reports an empty stack
    rw [Report.firing] at hnil
    split_ifs at hnil
    · simp [Firing.update, cqmsanUpdateMapPc] at hnil
    · cases hs : r.stack with
      | nil => rw [Report.Unwound, hs] at h; cases h
      | cons pc rest => simp [Firing.update, cqmsanUpdateMap, hs] at hnil
  · obtain ⟨l, l', hl⟩ := List.append_of_mem hw
    rw [hl, applyWrites, List.foldl_append, List.foldl_cons]
    refine applyWrites_ne_zero_of_ne_zero (fun v hv => hrep v (by rw [hl]; simp [hv])) ?_
    have := (hrep w hw).apply_slot_ne_zero (m := applyWrites m l)
    rwa [hslot] at this

theorem isError_run (skip : Bool) (h : r.Unwound) (hi : i < sentinel) :
    isError ((r.run skip (m, e)).1 i) = (isError (m i) || decide (r.slot = i)) := by
  rw [Report.run]
  split_ifs with hknown
  · -- a known site has its error bit already
    by_cases hslot : r.slot = i
    · have herr : isError (m i) = true := by
        rw [← hslot]
        simp only [cqmsanSiteKnown, Bool.and_eq_true] at hknown
        exact hknown.2
      simp [herr]
    · simp [hslot]
  · exact isError_applyWrites h hi

/-- **The error bits below the sentinel after an execution** are those before it and those of the
sites that fired, with and without the skip. -/
theorem isError_runReports (skip : Bool) (rs : List Report) (hrs : ∀ r ∈ rs, r.Unwound)
    (hi : i < sentinel) :
    isError ((runReports skip (m, e) rs).1 i) =
      (isError (m i) || rs.any fun r => decide (r.slot = i)) := by
  induction rs generalizing m e with
  | nil => simp [runReports]
  | cons r rs ih =>
    have hr := hrs r List.mem_cons_self
    change isError ((runReports skip (r.run skip (m, e)) rs).1 i) = _
    rw [ih (m := (r.run skip (m, e)).1) (e := (r.run skip (m, e)).2)
      fun r' h' => hrs r' (List.mem_cons_of_mem _ h'), isError_run skip hr hi, List.any_cons,
      Bool.or_assoc]

/-- An execution that leaves the sentinel clear leaves the map alone. -/
theorem runReports_of_clear (skip : Bool) (rs : List Report) (hrs : ∀ r ∈ rs, r.Unwound)
    (hclear : (runReports skip (m, e) rs).1 sentinel = 0#8) :
    (runReports skip (m, e) rs).1 = m := by
  -- read from the end: a set sentinel stays set
  have hkeep : ∀ (rs : List Report) (s : AflMap × EdgeState), (∀ r ∈ rs, r.Unwound) →
      s.1 sentinel ≠ 0#8 → (runReports skip s rs).1 sentinel ≠ 0#8 := by
    intro rs
    induction rs with
    | nil => exact fun s _ hs => hs
    | cons r rs ih =>
      intro s hrs hs
      refine ih (r.run skip s) (fun r' h' => hrs r' (List.mem_cons_of_mem _ h')) ?_
      rw [Report.run]
      split_ifs
      · exact hs
      · exact applyWrites_sentinel (hrs r List.mem_cons_self)
  induction rs generalizing m e with
  | nil => rfl
  | cons r rs ih =>
    have hrs' : ∀ r' ∈ rs, r'.Unwound := fun r' h' => hrs r' (List.mem_cons_of_mem _ h')
    change (runReports skip (r.run skip (m, e)) rs).1 = m
    change (runReports skip (r.run skip (m, e)) rs).1 sentinel = 0#8 at hclear
    rw [Report.run] at hclear ⊢
    split_ifs at hclear ⊢
    · exact ih hrs' hclear
    · exact absurd hclear (hkeep rs _ hrs' (applyWrites_sentinel (hrs r List.mem_cons_self)))

end Reports

/-! ### The scan of a filtering build -/

section Filtering

variable {trace : AflMap}

/-- The slots below `n` with an error that is not in the map `old`. -/
def newErrors (old trace : AflMap) (n : ℕ) : ℕ :=
  (List.range n).countP fun i => isError (trace i) && !isError (old i)

theorem newErrors_congr {old old' trace trace' : AflMap} {n : ℕ}
    (hold : ∀ i < n, isError (old i) = isError (old' i))
    (htrace : ∀ i < n, isError (trace i) = isError (trace' i)) :
    newErrors old trace n = newErrors old' trace' n := by
  refine List.countP_congr fun i hi => ?_
  rw [hold i (List.mem_range.mp hi), htrace i (List.mem_range.mp hi)]

/-- What a filtering scan does at a slot with a new error. -/
private def recordError (i : ℕ) (s : Scan) : Scan :=
  { s with
    afl := { s.afl.setTrace i (s.afl.msanTraces i ||| aflError) with
      qmsanErrors := s.afl.qmsanErrors + 1 }
    heavyweightNeeded := true }

private theorem recordError_traces (i j : ℕ) (s : Scan) :
    isError ((recordError i s).afl.msanTraces j) =
      (isError (s.afl.msanTraces j) || decide (j = i)) := by
  change isError (Function.update s.afl.msanTraces i (s.afl.msanTraces i ||| aflError) j) = _
  by_cases hj : j = i
  · subst hj
    rw [Function.update_self, isError_or]
    simp [show isError aflError = true by decide]
  · rw [Function.update_of_ne hj]
    simp [hj]

private theorem plainByte_filtering {i : ℕ} {s : Scan} (hs : s.stopped = false) :
    plainByte filteringBuild trace i s =
      if isError (trace i) && !isError (s.afl.msanTraces i) then recordError i s else s := by
  have hblocks : plainByte filteringBuild trace i s =
      filteringBlock i (s.afl.msanTraces i) (trace i) s := by
    simp [plainByte, scanBlocks, filteringBuild, ifDef, hs]
  rw [hblocks, filteringBlock, markNew]
  by_cases h : s.afl.msanTraces i &&& aflError = 0#8 ∧ trace i &&& aflError ≠ 0#8
  · rw [if_pos h, if_pos (by simp [isError, h])]
    rfl
  · rw [if_neg h, if_neg]
    intro hb
    simp only [isError, Bool.and_eq_true, Bool.not_eq_true', decide_eq_true_eq,
      decide_eq_false_iff_not, not_not] at hb
    exact h ⟨hb.2, hb.1⟩

private theorem newErrors_succ (old trace : AflMap) (n : ℕ) :
    newErrors old trace (n + 1) =
      newErrors old trace n + (isError (trace n) && !isError (old n)).toNat := by
  rw [newErrors, List.range_succ, List.countP_append, newErrors, List.countP_singleton]
  cases (isError (trace n) && !isError (old n)) <;> rfl

/-- The loop of a filtering build. -/
private theorem loop_filtering (trace : AflMap) (n : ℕ) {s : Scan} (hs : s.stopped = false) :
    (∀ j, isError ((loopWith (plainByte filteringBuild trace) n s).afl.msanTraces j) =
      (isError (s.afl.msanTraces j) || (decide (j < n) && isError (trace j)))) ∧
    (loopWith (plainByte filteringBuild trace) n s).afl.qmsanErrors =
      s.afl.qmsanErrors + newErrors s.afl.msanTraces trace n ∧
    ((loopWith (plainByte filteringBuild trace) n s).heavyweightNeeded = true ↔
      s.heavyweightNeeded = true ∨ 0 < newErrors s.afl.msanTraces trace n) := by
  induction n generalizing s with
  | zero => simp [loopWith, newErrors]
  | succ n ih =>
    rw [loopWith, plainByte_filtering hs, newErrors_succ]
    by_cases hnew : (isError (trace n) && !isError (s.afl.msanTraces n)) = true
    · have herr : isError (trace n) = true := (Bool.and_eq_true_iff.mp hnew).1
      have hbelow : newErrors (recordError n s).afl.msanTraces trace n =
          newErrors s.afl.msanTraces trace n := by
        refine newErrors_congr (fun i hi => ?_) fun i _ => rfl
        rw [recordError_traces]
        simp [hi.ne]
      have hstop : (recordError n s).stopped = false := hs
      obtain ⟨htraces, herrors, hheavy⟩ := ih hstop
      simp only [if_pos hnew, hstop, Bool.false_eq_true, if_false]
      refine ⟨fun j => ?_, ?_, ?_⟩
      · rw [htraces j, recordError_traces]
        rcases Nat.lt_trichotomy j n with hj | rfl | hj
        · simp [hj.ne, hj, hj.trans (Nat.lt_succ_self n)]
        · simp [herr]
        · simp [hj.ne', show ¬ j < n by omega, show ¬ j < n + 1 by omega]
      · rw [herrors, hbelow, hnew]
        simp only [recordError, Bool.toNat_true]
        omega
      · rw [hheavy, hnew]
        simp [recordError]
    · simp only [if_neg hnew, hs, Bool.false_eq_true, if_false]
      obtain ⟨htraces, herrors, hheavy⟩ := ih hs
      rw [Bool.not_eq_true] at hnew
      rw [hnew, Bool.toNat_false, Nat.add_zero]
      refine ⟨fun j => ?_, herrors, hheavy⟩
      rw [htraces j]
      rcases Nat.lt_trichotomy j n with hj | rfl | hj
      · simp [hj, hj.trans (Nat.lt_succ_self n)]
      · -- the byte of this round has no new error bit
        rw [decide_eq_false (Nat.lt_irrefl j), decide_eq_true (Nat.lt_succ_self j),
          Bool.false_and, Bool.true_and, Bool.or_false]
        cases ht : isError (trace j) with
        | false => rw [Bool.or_false]
        | true =>
          rw [ht, Bool.true_and, Bool.not_eq_false'] at hnew
          rw [hnew, Bool.true_or]
      · simp [show ¬ j < n by omega, show ¬ j < n + 1 by omega]

/-- **A filtering scan in terms of error bits.** -/
theorem checkMsanTrace_filtering (afl : AflState) (trace : AflMap) :
    (∀ j < sentinel, isError ((checkMsanTrace filteringBuild afl trace).1.msanTraces j) =
      (isError (afl.msanTraces j) || isError (trace j))) ∧
    (checkMsanTrace filteringBuild afl trace).1.qmsanErrors =
      afl.qmsanErrors + newErrors afl.msanTraces trace sentinel ∧
    ((checkMsanTrace filteringBuild afl trace).2 = true ↔
      0 < newErrors afl.msanTraces trace sentinel) := by
  rw [checkMsanTrace_eq_plainCheck rfl rfl rfl]
  obtain ⟨htraces, herrors, hheavy⟩ := loop_filtering trace (mapSize - 1)
    (s := ⟨afl, false, false, false⟩) rfl
  refine ⟨fun j hj => ?_, herrors, hheavy.trans (by simp [sentinel])⟩
  have hj' : j < mapSize - 1 := hj
  have := htraces j
  simpa [plainCheck, hj'] using this

end Filtering

/-! ### One execution and its check -/

/-- What holds after every check: the sentinel is clear, and the fuzzer has recorded the error
bits of the shared map. -/
structure ErrorsSeen (s : SessionState) : Prop where
  sentinel_clear : s.msanBits sentinel = 0#8
  seen : ∀ i < sentinel, isError (s.afl.msanTraces i) = isError (s.msanBits i)

/-- The error bits below the sentinel that an execution finds or sets. -/
def errorsAfter (m : AflMap) (rs : List Report) (i : ℕ) : Bool :=
  isError (m i) || rs.any fun r => decide (r.slot = i)

/-- The number of slots below the sentinel whose error bit an execution is the first to set. -/
def firstErrors (m : AflMap) (rs : List Report) : ℕ :=
  (List.range sentinel).countP fun i => errorsAfter m rs i && !isError (m i)

/-- The execution of `x` and its check, from `s` to `s'`, in terms of error bits. -/
structure CheckedSpec (s : SessionState) (x : ReportedExecution) (r : SessionState × CheckOutcome) :
    Prop where
  inv : ErrorsSeen r.1
  bits : ∀ i < sentinel, isError (r.1.msanBits i) = errorsAfter s.msanBits x.reports i
  errors : r.1.afl.qmsanErrors = s.afl.qmsanErrors + firstErrors s.msanBits x.reports
  detector : r.2.detectorRun = true ↔ 0 < firstErrors s.msanBits x.reports

private theorem qmsanCheckBugs_filtering (confirmed : Bool) (s : SessionState) :
    qmsanCheckBugs filteringBuild confirmed s =
      if s.msanBits sentinel ≠ 0#8 then
        (⟨Function.update s.msanBits sentinel 0#8,
          if (checkMsanTrace filteringBuild s.afl s.msanBits).2 then
            runAccurate confirmed (checkMsanTrace filteringBuild s.afl s.msanBits).1
          else (checkMsanTrace filteringBuild s.afl s.msanBits).1⟩,
          ⟨(checkMsanTrace filteringBuild s.afl s.msanBits).2,
            (checkMsanTrace filteringBuild s.afl s.msanBits).2 && confirmed⟩)
      else (s, ⟨false, false⟩) := by
  have hkeep : (filteringBuild.flagging || filteringBuild.naive) = false := rfl
  simp only [qmsanCheckBugs, hkeep, Bool.false_eq_true, if_false, sentinel]
  generalize checkMsanTrace filteringBuild s.afl s.msanBits = scan
  cases hscan : scan.2 <;> simp

/-- **One execution and its check**, with and without the skip: a new error bit below the sentinel
is never skipped, so its report sets the sentinel and the check sees it. -/
theorem runChecked_spec (skip : Bool) {s : SessionState} (hs : ErrorsSeen s)
    {x : ReportedExecution} (hx : ∀ r ∈ x.reports, r.Unwound) :
    CheckedSpec s x (runChecked skip s x) := by
  set m := (runReports skip (s.msanBits, x.edges) x.reports).1 with hm
  have hbits : ∀ i < sentinel, isError (m i) = errorsAfter s.msanBits x.reports i := fun i hi =>
    isError_runReports skip x.reports hx hi
  have hnew : newErrors s.afl.msanTraces m sentinel = firstErrors s.msanBits x.reports := by
    refine List.countP_congr fun i hi => ?_
    rw [hbits i (List.mem_range.mp hi), hs.seen i (List.mem_range.mp hi)]
  rw [runChecked, ← hm, qmsanCheckBugs_filtering]
  by_cases hclear : m sentinel = 0#8
  · -- nothing was written, so there is nothing new
    have hsame : m = s.msanBits := runReports_of_clear skip x.reports hx hclear
    have hzero : firstErrors s.msanBits x.reports = 0 := by
      rw [← hnew, newErrors, List.countP_eq_zero]
      intro i hi
      rw [hsame, hs.seen i (List.mem_range.mp hi)]
      simp
    rw [if_neg (not_not.mpr hclear)]
    refine ⟨⟨hclear, fun i hi => ?_⟩, hbits, by rw [hzero, Nat.add_zero], by rw [hzero]; simp⟩
    rw [hsame]
    exact hs.seen i hi
  · rw [if_pos hclear]
    have hscan := checkMsanTrace_filtering s.afl m
    rw [hnew] at hscan
    obtain ⟨htraces, herrors, hheavy⟩ := hscan
    dsimp only
    generalize checkMsanTrace filteringBuild s.afl m = scan at htraces herrors hheavy
    have hafl : ∀ p : AflState → Prop, (∀ a, p a → p (runAccurate x.confirmed a)) → p scan.1 →
        p (if scan.2 then runAccurate x.confirmed scan.1 else scan.1) := by
      intro p hp hscan
      split_ifs
      · exact hp _ hscan
      · exact hscan
    have hupd : ∀ i < sentinel, Function.update m sentinel 0#8 i = m i := fun i hi =>
      Function.update_of_ne (ne_of_lt hi) _ _
    refine ⟨⟨?_, fun i hi => ?_⟩, fun i hi => ?_, ?_, hheavy⟩
    · exact Function.update_self sentinel 0#8 m
    · refine hafl (fun a => isError (a.msanTraces i) = _) (fun a ha => ha) ?_
      dsimp only
      rw [htraces i hi, hupd i hi, hs.seen i hi, hbits i hi, errorsAfter]
      cases isError (s.msanBits i) <;> simp
    · dsimp only
      rw [hupd i hi, hbits i hi]
    · generalize firstErrors s.msanBits x.reports = k at herrors
      exact hafl (fun a => a.qmsanErrors = s.afl.qmsanErrors + k) (fun a ha => ha) herrors

/-! ### Two runs -/

/-- The same verdict: the same error bits of the two maps below the sentinel, the same number of
errors, and the accurate detector run or not run by both. -/
structure SameVerdict (r r' : SessionState × CheckOutcome) : Prop where
  bits : ∀ i < sentinel, isError (r.1.msanBits i) = isError (r'.1.msanBits i)
  traces : ∀ i < sentinel, isError (r.1.afl.msanTraces i) = isError (r'.1.afl.msanTraces i)
  errors : r.1.afl.qmsanErrors = r'.1.afl.qmsanErrors
  detector : r.2.detectorRun = r'.2.detectorRun

/-- The same reports and the same answer of the detector. The inherited edge states may differ:
a handler that is skipped leaves the edge state as it is. -/
def ReportedExecution.Alike (x y : ReportedExecution) : Prop :=
  x.reports = y.reports ∧ x.confirmed = y.confirmed

/-- The states of two runs with the same error bits. -/
structure SameErrors (s s' : SessionState) : Prop where
  left : ErrorsSeen s
  right : ErrorsSeen s'
  bits : ∀ i < sentinel, isError (s.msanBits i) = isError (s'.msanBits i)
  errors : s.afl.qmsanErrors = s'.afl.qmsanErrors

theorem SameErrors.init : SameErrors SessionState.init SessionState.init :=
  ⟨⟨rfl, fun _ _ => rfl⟩, ⟨rfl, fun _ _ => rfl⟩, fun _ _ => rfl, rfl⟩

section TwoRuns

variable {s s' : SessionState}

theorem SameErrors.step (h : SameErrors s s') {x y : ReportedExecution} (hxy : x.Alike y)
    (hx : ∀ r ∈ x.reports, r.Unwound) (skip skip' : Bool) :
    SameErrors (runChecked skip s x).1 (runChecked skip' s' y).1 ∧
      SameVerdict (runChecked skip s x) (runChecked skip' s' y) := by
  have hl := runChecked_spec skip h.left hx
  have hr := runChecked_spec skip' h.right (x := y) (hxy.1 ▸ hx)
  have hafter : ∀ i < sentinel, errorsAfter s.msanBits x.reports i =
      errorsAfter s'.msanBits y.reports i := fun i hi => by
    rw [errorsAfter, errorsAfter, h.bits i hi, hxy.1]
  have hfirst : firstErrors s.msanBits x.reports = firstErrors s'.msanBits y.reports := by
    refine List.countP_congr fun i hi => ?_
    rw [hafter i (List.mem_range.mp hi), h.bits i (List.mem_range.mp hi)]
  have hbits : ∀ i < sentinel, isError ((runChecked skip s x).1.msanBits i) =
      isError ((runChecked skip' s' y).1.msanBits i) := fun i hi => by
    rw [hl.bits i hi, hr.bits i hi, hafter i hi]
  have herrors : (runChecked skip s x).1.afl.qmsanErrors =
      (runChecked skip' s' y).1.afl.qmsanErrors := by
    rw [hl.errors, hr.errors, h.errors, hfirst]
  refine ⟨⟨hl.inv, hr.inv, hbits, herrors⟩, ⟨hbits, fun i hi => ?_, herrors, ?_⟩⟩
  · rw [hl.inv.seen i hi, hr.inv.seen i hi, hbits i hi]
  · rw [Bool.eq_iff_iff, hl.detector, hr.detector, hfirst]

theorem SameErrors.session (h : SameErrors s s') {xs ys : List ReportedExecution}
    (hxy : List.Forall₂ ReportedExecution.Alike xs ys)
    (hxs : ∀ x ∈ xs, ∀ r ∈ x.reports, r.Unwound) (skip skip' : Bool) :
    List.Forall₂ SameVerdict (runCheckedSession skip s xs) (runCheckedSession skip' s' ys) := by
  induction hxy generalizing s s' with
  | nil => exact .nil
  | cons hxy _ ih =>
    obtain ⟨hstate, hverdict⟩ := h.step hxy (hxs _ List.mem_cons_self) skip skip'
    exact .cons hverdict (ih hstate fun y hy => hxs y (List.mem_cons_of_mem _ hy))

end TwoRuns

/-- **Skipping known sites does not change the verdicts** of a filtering fuzzer: over every
session, after every execution of it, whatever edge states the executions of the two runs
inherit. -/
theorem skipKnownSites_verdicts (xs ys : List ReportedExecution)
    (hxy : List.Forall₂ ReportedExecution.Alike xs ys)
    (hxs : ∀ x ∈ xs, ∀ r ∈ x.reports, r.Unwound) :
    List.Forall₂ SameVerdict (runCheckedSession true SessionState.init xs)
      (runCheckedSession false SessionState.init ys) :=
  SameErrors.init.session hxy hxs true false

/-- A site that fires twice in an execution and again in the next one, once through the handler
without an unwind. The run without the skip inherits the edge state of the first execution. -/
theorem skipKnownSites_verdicts_refiring :
    List.Forall₂ SameVerdict
      (runCheckedSession true SessionState.init
        [⟨⟨0, 0⟩, [⟨.warningFast, 0x401001#64, [0x401001#64, 0x402000#64]⟩,
            ⟨.warningFast, 0x401001#64, [0x401001#64, 0x402000#64]⟩], false⟩,
          ⟨⟨0, 0⟩, [⟨.warningFastPconly, 0x401000#64, [0x401000#64]⟩], true⟩])
      (runCheckedSession false SessionState.init
        [⟨⟨0, 0⟩, [⟨.warningFast, 0x401001#64, [0x401001#64, 0x402000#64]⟩,
            ⟨.warningFast, 0x401001#64, [0x401001#64, 0x402000#64]⟩], false⟩,
          ⟨⟨0x401000#64, 0x2000#64⟩, [⟨.warningFastPconly, 0x401000#64, [0x401000#64]⟩], true⟩]) :=
  skipKnownSites_verdicts _ _ (.cons ⟨rfl, rfl⟩ (.cons ⟨rfl, rfl⟩ .nil)) (by simp [Report.Unwound])

end CQMSan
