import CQMSan.Fuzzer.Trace

/-!
# The shortcuts of the trace scan

`check_msan_trace` returns at once when the map did not change, and skips the bytes that did not
change. The comments of the source justify this with every block testing a transition from `old`
to `new`. The blocks of `QMSAN_SIMPLE` and of the bits do, and for them the shortcuts change
nothing. Three modes test the byte itself: the naive mode looks for any error, the drop-off mode
counts the firings of a slot in its byte, and the flagging mode counts the scans with a violation.

`plainCheck` is the loop without the shortcuts. `checkMsanTrace_eq_plainCheck_iff` says for every
mode when one scan is the same; sessions are sequences of scans, which agree as long as every
scan starts from a state that meets this condition.
-/

namespace CQMSan

/-! ### The loop without shortcuts -/

/-- `while (i--) { … }` around a loop body. -/
def loopWith (body : ℕ → Scan → Scan) : ℕ → Scan → Scan
  | 0, s => s
  | i + 1, s =>
    let s := body i s
    if s.stopped then s else loopWith body i s

/-- The loop body at slot `i`, without the skip of unchanged bytes. -/
def plainByte (b : BuildMode) (trace : AflMap) (i : ℕ) (s : Scan) : Scan :=
  scanBlocks b i (s.afl.msanTraces i) (trace i) s

/-- `check_msan_trace` without the early-out and without the skip. -/
def plainCheck (b : BuildMode) (afl : AflState) (trace : AflMap) : AflState × Bool :=
  let s := loopWith (plainByte b trace) (mapSize - 1) ⟨afl, false, false, false⟩
  (s.afl, s.heavyweightNeeded)

/-- The builds with a single one of the modes that exclude each other. -/
def simpleBuild : BuildMode := { simple := true }

@[inherit_doc simpleBuild] def naiveBuild : BuildMode := { naive := true }

@[inherit_doc simpleBuild] def dropoffBuild : BuildMode := { dropoff := true }

@[inherit_doc simpleBuild] def flaggingBuild : BuildMode := { flagging := true }

/-- Any combination of the modes that look at one bit each. -/
def BuildMode.IsBitwise (b : BuildMode) : Prop :=
  b.simple = false ∧ b.naive = false ∧ b.dropoff = false ∧ b.flagging = false

/-- The builds of `check_msan_trace`. -/
def BuildMode.IsBuild (b : BuildMode) : Prop :=
  b = simpleBuild ∨ b = naiveBuild ∨ b = dropoffBuild ∨ b = flaggingBuild ∨ b.IsBitwise

/-- `QMSAN_CHECK_ERROR`. -/
def isError (x : U8) : Bool := decide (x &&& aflError ≠ 0#8)

/-- `QMSAN_CHECK_CLEAN`. -/
def isClean (x : U8) : Bool := decide (x &&& aflClean ≠ 0#8)

/-- `QMSAN_CHECK_UNTOUCHED`. -/
def isUntouched (x : U8) : Bool := decide (x &&& 3#8 = 0#8)

/-- An error at a slot that a flagging scan reacts to. -/
def flags (old new : U8) : Bool := isError new && (isUntouched old || isClean old)

/-- The condition of the naive mode: an unchanged slot with an error is not the only one. -/
def NaiveOk (old trace : AflMap) : Prop :=
  (∃ i < mapSize - 1, isError (trace i) = true) →
    ∃ i < mapSize - 1, trace i ≠ old i ∧ isError (trace i) = true

/-- The condition of the drop-off mode: no unchanged slot has an error, but for the slots whose
count is full. -/
def DropoffOk (old trace : AflMap) : Prop :=
  ∀ i < mapSize - 1, trace i = old i → isError (trace i) = true → old i = 0xff#8

/-- The condition of the flagging mode: where some slot has an error, one that changed has, and
where a slot with an error asks for the accurate detector, one that changed does. -/
def FlaggingOk (old trace : AflMap) : Prop :=
  NaiveOk old trace ∧
    ((∃ i < mapSize - 1, flags (old i) (trace i) = true) →
      ∃ i < mapSize - 1, trace i ≠ old i ∧ flags (old i) (trace i) = true)

/-- The shortcuts change nothing in a scan of `trace` that starts with the map `old`. -/
def ShortcutsOk (b : BuildMode) (old trace : AflMap) : Prop :=
  (b.naive = true → NaiveOk old trace) ∧ (b.dropoff = true → DropoffOk old trace) ∧
    (b.flagging = true → FlaggingOk old trace)

/-! ### Loops -/

section Loop

variable {b : BuildMode} {trace : AflMap}

theorem scanLoop_eq_loopWith (n : ℕ) (s : Scan) :
    scanLoop b trace n s = loopWith (scanByte b trace) n s := by
  induction n generalizing s with
  | zero => rfl
  | succ n ih => simp only [scanLoop, loopWith, ih]

/-- A loop that finds nothing to do. -/
theorem loopWith_id {body : ℕ → Scan → Scan} {n : ℕ} {s : Scan} (h : ∀ i < n, body i s = s) :
    loopWith body n s = s := by
  induction n with
  | zero => rfl
  | succ n ih =>
    have hn := h n (Nat.lt_succ_self n)
    simp only [loopWith, hn]
    split_ifs
    · rfl
    · exact ih fun i hi => h i (by omega)

/-- Two loops whose bodies agree on the states that they reach. -/
theorem loopWith_congr (body body' : ℕ → Scan → Scan) (I : ℕ → Scan → Prop)
    (hstep : ∀ i s, I (i + 1) s → body' i s = body i s ∧ I i (body i s)) {n : ℕ} {s : Scan}
    (hs : I n s) : loopWith body' n s = loopWith body n s := by
  induction n generalizing s with
  | zero => rfl
  | succ n ih =>
    obtain ⟨heq, hI⟩ := hstep n s hs
    simp only [loopWith, heq]
    split_ifs
    · rfl
    · exact ih hI

/-- **The early-out is the skip of every byte.** -/
theorem checkMsanTrace_eq_loop (b : BuildMode) (afl : AflState) (trace : AflMap) :
    checkMsanTrace b afl trace =
      ((loopWith (scanByte b trace) (mapSize - 1) ⟨afl, false, false, false⟩).afl,
        (loopWith (scanByte b trace) (mapSize - 1) ⟨afl, false, false, false⟩).heavyweightNeeded) := by
  rw [checkMsanTrace]
  split_ifs with hm
  · rw [memEq_eq_true_iff] at hm
    rw [loopWith_id fun i hi => by rw [scanByte, if_pos (hm i hi)]]
  · simp only [scanLoop_eq_loopWith]

end Loop

/-! ### Modes that test a transition -/

section Transition

variable {i : ℕ} {x : U8} {s : Scan} {trace : AflMap}

private theorem markNew_same (bit : U8) (count : AflState → AflState) :
    markNew bit count i x x s = s := by
  rw [markNew, if_neg]
  exact fun h => h.2 h.1

private theorem simpleBlock_same : simpleBlock i x x s = s := by
  rw [simpleBlock, if_neg]
  exact fun h => h.2 h.1

private theorem ifDef_same {defined : Bool} {block : Scan → Scan} (h : block s = s) :
    ifDef defined block s = s := by
  rw [ifDef]
  split_ifs
  · exact h
  · rfl

/-- Without the naive, drop-off and flagging modes an unchanged byte changes nothing. -/
theorem scanBlocks_same {b : BuildMode} (hn : b.naive = false) (hd : b.dropoff = false)
    (hf : b.flagging = false) : scanBlocks b i x x s = s := by
  have hoff : ∀ (block : Scan → Scan) (t : Scan), ifDef false block t = t := fun _ _ => rfl
  simp only [scanBlocks, hn, hd, hf, hoff, filteringBlock, edgesBlock, memoryBlock, callstackBlock,
    callstackEdgesBlock]
  rw [ifDef_same simpleBlock_same, ifDef_same (markNew_same _ _), ifDef_same (markNew_same _ _),
    ifDef_same (markNew_same _ _), ifDef_same (markNew_same _ _), ifDef_same (markNew_same _ _)]

theorem plainByte_eq_scanByte {b : BuildMode} (hn : b.naive = false) (hd : b.dropoff = false)
    (hf : b.flagging = false) : plainByte b trace i s = scanByte b trace i s := by
  rw [plainByte, scanByte]
  split_ifs with heq
  · rw [heq]
    exact scanBlocks_same hn hd hf
  · rfl

/-- **A scan that only tests transitions is the plain scan.** -/
theorem checkMsanTrace_eq_plainCheck {b : BuildMode} (hn : b.naive = false) (hd : b.dropoff = false)
    (hf : b.flagging = false) (afl : AflState) (trace : AflMap) :
    checkMsanTrace b afl trace = plainCheck b afl trace := by
  have hbody : plainByte b trace = scanByte b trace := by
    funext i s
    exact plainByte_eq_scanByte hn hd hf
  rw [checkMsanTrace_eq_loop, plainCheck, hbody]

end Transition

/-! ### The naive mode -/

section Naive

variable {afl : AflState} {trace : AflMap}

/-- The body of a scan in the naive mode leaves the loop at the slots with `P`. -/
private theorem naive_loop (body : ℕ → Scan → Scan) {P : ℕ → Prop} [DecidablePred P]
    (hbody : ∀ i s, s.afl = afl → s.stopped = false →
      body i s = if P i then { s with heavyweightNeeded := true, stopped := true } else s)
    (n : ℕ) {s : Scan} (hafl : s.afl = afl) (hs : s.stopped = false) :
    (loopWith body n s).afl = afl ∧
      ((loopWith body n s).heavyweightNeeded = true ↔
        s.heavyweightNeeded = true ∨ ∃ i < n, P i) := by
  induction n with
  | zero => exact ⟨hafl, by simp [loopWith]⟩
  | succ n ih =>
    rw [loopWith, hbody n s hafl hs]
    by_cases hP : P n
    · simp only [if_pos hP]
      exact ⟨hafl, iff_of_true rfl (Or.inr ⟨n, Nat.lt_succ_self n, hP⟩)⟩
    · simp only [if_neg hP, hs, Bool.false_eq_true, if_false]
      refine ⟨ih.1, ih.2.trans (or_congr_right ⟨?_, ?_⟩)⟩
      · rintro ⟨i, hi, hPi⟩
        exact ⟨i, by omega, hPi⟩
      · rintro ⟨i, hi, hPi⟩
        have hne : i ≠ n := fun h => hP (h ▸ hPi)
        exact ⟨i, by omega, hPi⟩

private theorem scanBlocks_naive {i : ℕ} {old new : U8} {s : Scan} (hs : s.stopped = false) :
    scanBlocks naiveBuild i old new s =
      if isError new = true then { s with heavyweightNeeded := true, stopped := true } else s := by
  simp [scanBlocks, naiveBuild, ifDef, naiveBlock, isError, hs]

theorem checkMsanTrace_naive (afl : AflState) (trace : AflMap) :
    checkMsanTrace naiveBuild afl trace = plainCheck naiveBuild afl trace ↔
      NaiveOk afl.msanTraces trace := by
  have hskip := naive_loop (scanByte naiveBuild trace)
    (P := fun i => trace i ≠ afl.msanTraces i ∧ isError (trace i) = true) (fun i s hafl hs => by
      rw [scanByte, scanBlocks_naive hs, hafl]
      by_cases heq : trace i = afl.msanTraces i
      · simp [heq]
      · simp [heq]) (mapSize - 1) (s := ⟨afl, false, false, false⟩) rfl rfl
  have hplain := naive_loop (plainByte naiveBuild trace)
    (P := fun i => isError (trace i) = true) (fun i s _ hs => scanBlocks_naive hs) (mapSize - 1)
    (s := ⟨afl, false, false, false⟩) rfl rfl
  rw [checkMsanTrace_eq_loop, plainCheck, Prod.mk.injEq, hskip.1, hplain.1, Bool.eq_iff_iff,
    hskip.2, hplain.2]
  simp only [true_and, Bool.false_eq_true, false_or, NaiveOk]
  constructor
  · exact fun h => h.mpr
  · refine fun h => ⟨?_, h⟩
    rintro ⟨i, hi, -, herr⟩
    exact ⟨i, hi, herr⟩

end Naive

/-! ### The drop-off mode -/

section Dropoff

variable {trace : AflMap}

/-- A body that changes slot `i` of the trace map by `g i` and never leaves the loop. -/
private structure Slotwise (body : ℕ → Scan → Scan) (g : ℕ → U8 → U8) : Prop where
  traces : ∀ i s, s.stopped = false → (body i s).afl.msanTraces =
    Function.update s.afl.msanTraces i (g i (s.afl.msanTraces i))
  stopped : ∀ i s, s.stopped = false → (body i s).stopped = false

private theorem Slotwise.loop {body : ℕ → Scan → Scan} {g : ℕ → U8 → U8} (h : Slotwise body g)
    (n : ℕ) {s : Scan} (hs : s.stopped = false) (j : ℕ) :
    (loopWith body n s).afl.msanTraces j =
      if j < n then g j (s.afl.msanTraces j) else s.afl.msanTraces j := by
  induction n generalizing s with
  | zero => rfl
  | succ n ih =>
    have hstop := h.stopped n s hs
    rw [loopWith]
    simp only [hstop, Bool.false_eq_true, if_false]
    rw [ih hstop, h.traces n s hs]
    rcases Nat.lt_trichotomy j n with hj | rfl | hj
    · rw [if_pos hj, if_pos (by omega), Function.update_of_ne hj.ne]
    · rw [if_neg (lt_irrefl j), if_pos (Nat.lt_succ_self j), Function.update_self]
    · rw [if_neg (by omega), if_neg (by omega), Function.update_of_ne hj.ne']

/-- The count of a slot after a scan of the value `new`. -/
def dropoffCount (old new : U8) : U8 :=
  if isError new = true ∧ old ≠ 0xff#8 then old + 1#8 else old

private theorem scanBlocks_dropoff {i : ℕ} {old new : U8} {s : Scan} (hs : s.stopped = false) :
    scanBlocks dropoffBuild i old new s = dropoffBlock i old new s := by
  simp [scanBlocks, dropoffBuild, ifDef, hs]

private theorem dropoffBlock_traces {i : ℕ} {new : U8} {s : Scan} :
    (dropoffBlock i (s.afl.msanTraces i) new s).afl.msanTraces =
      Function.update s.afl.msanTraces i (dropoffCount (s.afl.msanTraces i) new) ∧
    (dropoffBlock i (s.afl.msanTraces i) new s).stopped = s.stopped := by
  by_cases herr : new &&& aflError ≠ 0#8
  · have hE : isError new = true := by simpa [isError] using herr
    by_cases hfull : s.afl.msanTraces i ≠ 0xff#8
    · rw [dropoffCount, if_pos ⟨hE, hfull⟩, dropoffBlock]
      simp only [if_pos herr, if_pos hfull]
      split_ifs <;> exact ⟨rfl, trivial⟩
    · rw [dropoffCount, if_neg (fun h => hfull h.2), Function.update_eq_self, dropoffBlock]
      simp only [if_pos herr, if_neg hfull]
      split_ifs <;> exact ⟨rfl, trivial⟩
  · have hE : ¬ isError new = true := by simpa [isError] using herr
    rw [dropoffCount, if_neg (fun h => hE h.1), Function.update_eq_self, dropoffBlock, if_neg herr]
    exact ⟨rfl, rfl⟩

/-- A slot without an error, or with a full count, is left alone. -/
private theorem dropoffBlock_idle {i : ℕ} {old new : U8} {s : Scan}
    (h : isError new = true → old = 0xff#8) : dropoffBlock i old new s = s := by
  rw [dropoffBlock]
  by_cases herr : new &&& aflError ≠ 0#8
  · have hfull : old = 0xff#8 := h (by simpa [isError] using herr)
    subst hfull
    simp only [if_pos herr]
    rfl
  · rw [if_neg herr]

private theorem slotwise_plainByte :
    Slotwise (plainByte dropoffBuild trace) fun i old => dropoffCount old (trace i) := by
  refine ⟨fun i s hs => ?_, fun i s hs => ?_⟩
  · rw [plainByte, scanBlocks_dropoff hs]
    exact dropoffBlock_traces.1
  · rw [plainByte, scanBlocks_dropoff hs, dropoffBlock_traces.2, hs]

private theorem slotwise_scanByte :
    Slotwise (scanByte dropoffBuild trace) fun i old =>
      if trace i = old then old else dropoffCount old (trace i) := by
  refine ⟨fun i s hs => ?_, fun i s hs => ?_⟩
  · rw [scanByte]
    split_ifs with heq
    · rw [Function.update_eq_self]
    · rw [scanBlocks_dropoff hs]
      exact dropoffBlock_traces.1
  · rw [scanByte]
    split_ifs
    · exact hs
    · rw [scanBlocks_dropoff hs, dropoffBlock_traces.2, hs]

/-- The count of a slot after a scan of the drop-off build. -/
theorem checkMsanTrace_dropoff_traces (afl : AflState) (trace : AflMap) {i : ℕ}
    (hi : i < mapSize - 1) :
    (checkMsanTrace dropoffBuild afl trace).1.msanTraces i =
      if trace i = afl.msanTraces i then afl.msanTraces i
      else dropoffCount (afl.msanTraces i) (trace i) := by
  rw [checkMsanTrace_eq_loop]
  exact (slotwise_scanByte.loop (mapSize - 1) rfl i).trans (if_pos hi)

theorem checkMsanTrace_dropoff (afl : AflState) (trace : AflMap) :
    checkMsanTrace dropoffBuild afl trace = plainCheck dropoffBuild afl trace ↔
      DropoffOk afl.msanTraces trace := by
  constructor
  · -- an unchanged slot is counted by the plain scan only
    intro heq i hi hsame herr
    have htraces := congrArg (fun r => r.1.msanTraces i) heq
    rw [checkMsanTrace_dropoff_traces afl trace hi, if_pos hsame] at htraces
    have hplain : (plainCheck dropoffBuild afl trace).1.msanTraces i =
        dropoffCount (afl.msanTraces i) (trace i) :=
      (slotwise_plainByte.loop (mapSize - 1) rfl i).trans (if_pos hi)
    rw [hplain, dropoffCount] at htraces
    by_contra hfull
    rw [if_pos ⟨herr, hfull⟩] at htraces
    have hone : (1#8 : U8) = 0#8 := by
      have := htraces
      bv_omega
    exact absurd hone (by decide)
  · intro hok
    rw [checkMsanTrace_eq_loop, plainCheck]
    -- the slots still to be scanned have their first values
    rw [loopWith_congr (scanByte dropoffBuild trace) (plainByte dropoffBuild trace)
      (fun n s => n ≤ mapSize - 1 ∧ s.stopped = false ∧
        ∀ j < n, s.afl.msanTraces j = afl.msanTraces j)
      (fun i s hI => ?_) ⟨le_rfl, rfl, fun _ _ => rfl⟩]
    obtain ⟨hi, hs, hold⟩ := hI
    refine ⟨?_, by omega, slotwise_scanByte.stopped i s hs, fun j hj => ?_⟩
    · rw [plainByte, scanByte]
      split_ifs with heq
      · rw [scanBlocks_dropoff hs]
        refine dropoffBlock_idle fun herr => ?_
        rw [hold i (by omega)]
        exact hok i (by omega) (heq.trans (hold i (by omega))) herr
      · rfl
    · rw [slotwise_scanByte.traces i s hs, Function.update_of_ne hj.ne]
      exact hold j (by omega)

end Dropoff

/-! ### The flagging mode -/

section Flagging

/-- What the flagging mode does to the fuzzer state at a slot, but for the count of scans with a
violation. -/
def flagSlot (i : ℕ) (old new : U8) (a : AflState) : AflState :=
  if isError new then
    if isUntouched old then
      { a.setTrace i (old ||| aflError) with qmsanErrors := a.qmsanErrors + 1 }
    else if isClean old then a.setTrace i (old ||| aflError)
    else a
  else if isClean new && isError old && !isClean old then
    { a.setTrace i (old ||| aflClean) with qmsanMixed := a.qmsanMixed + 1 }
  else a

variable {i : ℕ} {old new : U8} {a : AflState} {s : Scan} {trace : AflMap}

private theorem flaggingBlock_eq (hold : s.afl.msanTraces i = old) :
    flaggingBlock i old new s =
      { afl := { flagSlot i old new s.afl with
          qmsanViolations := s.afl.qmsanViolations + (isError new && !s.violation).toNat }
        heavyweightNeeded := s.heavyweightNeeded || flags old new
        violation := s.violation || isError new
        stopped := s.stopped } := by
  obtain ⟨afl, hw, viol, stop⟩ := s
  dsimp only at hold
  rw [flaggingBlock, flagSlot, flags]
  by_cases herr : new &&& aflError ≠ 0#8
  · have hE : isError new = true := by simpa [isError] using herr
    by_cases hunt : old &&& 3#8 = 0#8
    · have hU : isUntouched old = true := by simpa [isUntouched] using hunt
      cases viol <;> simp_all [AflState.setTrace]
    · have hU : isUntouched old = false := by simpa [isUntouched] using hunt
      by_cases hcl : old &&& aflClean ≠ 0#8
      · have hC : isClean old = true := by simpa [isClean] using hcl
        cases viol <;> simp_all [AflState.setTrace]
      · have hC : isClean old = false := by simpa [isClean] using hcl
        cases viol <;> simp_all
  · have hE : isError new = false := by simpa [isError] using herr
    rw [if_neg herr]
    by_cases hmix : (isClean new && isError old && !isClean old) = true
    · have hcond : new &&& aflClean ≠ 0#8 ∧ new &&& aflError = 0#8 ∧ old &&& aflError ≠ 0#8 ∧
          old &&& aflClean = 0#8 := by simp_all [isClean, isError]
      rw [if_pos hcond]
      simp [hE, hmix, AflState.setTrace, hold]
    · have hcond : ¬ (new &&& aflClean ≠ 0#8 ∧ new &&& aflError = 0#8 ∧ old &&& aflError ≠ 0#8 ∧
          old &&& aflClean = 0#8) := by simp_all [isClean, isError]
      rw [if_neg hcond]
      simp [hE, hmix]

private theorem scanBlocks_flagging (hs : s.stopped = false) :
    scanBlocks flaggingBuild i old new s = flaggingBlock i old new s := by
  simp [scanBlocks, flaggingBuild, ifDef, hs]

/-- An unchanged slot is left alone. -/
private theorem flagSlot_same (hold : a.msanTraces i = old) : flagSlot i old old a = a := by
  have herr : isError old = true → isUntouched old = false ∧ old ||| aflError = old := by
    clear hold
    revert old
    decide +kernel
  rw [flagSlot]
  by_cases hE : isError old = true
  · obtain ⟨hU, hor⟩ := herr hE
    rw [if_pos hE, hU, hor]
    simp only [Bool.false_eq_true, if_false, AflState.setTrace, ← hold, Function.update_eq_self]
    split_ifs <;> rfl
  · simp [hE]

private theorem flagSlot_violations (v : ℕ) :
    flagSlot i old new { a with qmsanViolations := v } =
      { flagSlot i old new a with qmsanViolations := v } := by
  rw [flagSlot, flagSlot]
  split_ifs <;> rfl

private theorem flagSlot_qmsanViolations :
    (flagSlot i old new a).qmsanViolations = a.qmsanViolations := by
  rw [flagSlot]
  split_ifs <;> rfl

private theorem flagSlot_traces_of_ne {j : ℕ} (hj : j ≠ i) :
    (flagSlot i old new a).msanTraces j = a.msanTraces j := by
  rw [flagSlot]
  split_ifs <;> first | rfl | exact Function.update_of_ne hj _ _

/-- The plain scan `p` and the scan `k` with the skip, when the slots below `n` are left: they
differ in what they remember of the slots that did not change. -/
private structure FlagRel (afl : AflState) (trace : AflMap) (n : ℕ) (p k : Scan) : Prop where
  stopped : p.stopped = false ∧ k.stopped = false
  rest : p.afl = { k.afl with qmsanViolations := p.afl.qmsanViolations }
  left : ∀ j < n, k.afl.msanTraces j = afl.msanTraces j
  violations : p.afl.qmsanViolations = afl.qmsanViolations + p.violation.toNat ∧
    k.afl.qmsanViolations = afl.qmsanViolations + k.violation.toNat
  violation : (p.violation = true ↔ ∃ i < mapSize - 1, n ≤ i ∧ isError (trace i) = true) ∧
    (k.violation = true ↔
      ∃ i < mapSize - 1, n ≤ i ∧ trace i ≠ afl.msanTraces i ∧ isError (trace i) = true)
  heavyweight : (p.heavyweightNeeded = true ↔
      ∃ i < mapSize - 1, n ≤ i ∧ flags (afl.msanTraces i) (trace i) = true) ∧
    (k.heavyweightNeeded = true ↔ ∃ i < mapSize - 1, n ≤ i ∧ trace i ≠ afl.msanTraces i ∧
      flags (afl.msanTraces i) (trace i) = true)

private theorem exists_from_succ {n N : ℕ} (hn : n < N) (Q : ℕ → Prop) :
    (∃ i < N, n ≤ i ∧ Q i) ↔ (∃ i < N, n + 1 ≤ i ∧ Q i) ∨ Q n := by
  constructor
  · rintro ⟨i, hi, hni, hQ⟩
    rcases hni.eq_or_lt with rfl | hlt
    · exact Or.inr hQ
    · exact Or.inl ⟨i, hi, hlt, hQ⟩
  · rintro (⟨i, hi, hni, hQ⟩ | hQ)
    · exact ⟨i, hi, by omega, hQ⟩
    · exact ⟨n, hn, le_rfl, hQ⟩

private theorem toNat_or_error (v e : Bool) : v.toNat + (e && !v).toNat = (v || e).toNat := by
  cases v <;> cases e <;> rfl

private theorem FlagRel.step {afl : AflState} {n : ℕ} {p k : Scan}
    (h : FlagRel afl trace (n + 1) p k) (hn : n < mapSize - 1) :
    FlagRel afl trace n (plainByte flaggingBuild trace n p) (scanByte flaggingBuild trace n k) := by
  have hk : k.afl.msanTraces n = afl.msanTraces n := h.left n (Nat.lt_succ_self n)
  have hp : p.afl.msanTraces n = afl.msanTraces n := by rw [h.rest]; exact hk
  have hleft : ∀ j < n, k.afl.msanTraces j = afl.msanTraces j := fun j hj => h.left j (by omega)
  rw [plainByte, scanBlocks_flagging h.stopped.1, hp, flaggingBlock_eq hp, scanByte, hk]
  by_cases heq : trace n = afl.msanTraces n
  · rw [if_pos heq, heq, flagSlot_same hp]
    refine ⟨h.stopped, ?_, hleft, ⟨?_, h.violations.2⟩, ⟨?_, ?_⟩, ⟨?_, ?_⟩⟩
    · conv_lhs => rw [h.rest]
    · dsimp only
      rw [h.violations.1, add_assoc, toNat_or_error]
    · rw [exists_from_succ hn, ← h.violation.1, heq, Bool.or_eq_true]
    · rw [exists_from_succ hn, ← h.violation.2]
      simp [heq]
    · rw [exists_from_succ hn, ← h.heavyweight.1, heq, Bool.or_eq_true]
    · rw [exists_from_succ hn, ← h.heavyweight.2]
      simp [heq]
  · rw [if_neg heq, scanBlocks_flagging h.stopped.2, flaggingBlock_eq hk]
    refine ⟨h.stopped, ?_, fun j hj => ?_, ⟨?_, ?_⟩, ⟨?_, ?_⟩, ⟨?_, ?_⟩⟩
    · dsimp only
      conv_lhs => rw [h.rest]
      rw [flagSlot_violations]
    · exact (flagSlot_traces_of_ne hj.ne).trans (hleft j hj)
    · dsimp only
      rw [h.violations.1, add_assoc, toNat_or_error]
    · dsimp only
      rw [h.violations.2, add_assoc, toNat_or_error]
    · rw [exists_from_succ hn, ← h.violation.1, Bool.or_eq_true]
    · rw [exists_from_succ hn, ← h.violation.2, Bool.or_eq_true]
      simp [heq]
    · rw [exists_from_succ hn, ← h.heavyweight.1, Bool.or_eq_true]
    · rw [exists_from_succ hn, ← h.heavyweight.2, Bool.or_eq_true]
      simp [heq]

private theorem FlagRel.loop (trace : AflMap) (afl : AflState) {n : ℕ} {p k : Scan}
    (h : FlagRel afl trace n p k)
    (hn : n ≤ mapSize - 1) :
    FlagRel afl trace 0 (loopWith (plainByte flaggingBuild trace) n p)
      (loopWith (scanByte flaggingBuild trace) n k) := by
  induction n generalizing p k with
  | zero => exact h
  | succ n ih =>
    have hstep := h.step hn
    simp only [loopWith, hstep.stopped.1, hstep.stopped.2, Bool.false_eq_true, if_false]
    exact ih hstep (by omega)

theorem checkMsanTrace_flagging (afl : AflState) (trace : AflMap) :
    checkMsanTrace flaggingBuild afl trace = plainCheck flaggingBuild afl trace ↔
      FlaggingOk afl.msanTraces trace := by
  have hnone : ∀ Q : ℕ → Prop, (false = true) ↔ ∃ i < mapSize - 1, mapSize - 1 ≤ i ∧ Q i := by
    intro Q
    simp only [Bool.false_eq_true, false_iff, not_exists, not_and]
    intro i hi hi'
    omega
  have hrel := FlagRel.loop trace afl (p := ⟨afl, false, false, false⟩)
    (k := ⟨afl, false, false, false⟩) ⟨⟨rfl, rfl⟩, rfl, fun _ _ => rfl, ⟨rfl, rfl⟩,
      ⟨hnone _, hnone _⟩, ⟨hnone _, hnone _⟩⟩ le_rfl
  rw [checkMsanTrace_eq_loop, plainCheck]
  generalize loopWith (plainByte flaggingBuild trace) (mapSize - 1) ⟨afl, false, false, false⟩ = p
    at hrel
  generalize loopWith (scanByte flaggingBuild trace) (mapSize - 1) ⟨afl, false, false, false⟩ = k
    at hrel
  simp only [Prod.mk.injEq, FlaggingOk, NaiveOk]
  have hv := hrel.violation
  have hh := hrel.heavyweight
  simp only [Nat.zero_le, true_and] at hv hh
  rw [← hv.1, ← hv.2, ← hh.1, ← hh.2]
  -- a violation, or a flag, of a slot that changed is one of some slot
  have hvk : k.violation = true → p.violation = true := fun hk => by
    obtain ⟨i, hi, -, herr⟩ := hv.2.mp hk
    exact hv.1.mpr ⟨i, hi, herr⟩
  have hhk : k.heavyweightNeeded = true → p.heavyweightNeeded = true := fun hk => by
    obtain ⟨i, hi, -, hflag⟩ := hh.2.mp hk
    exact hh.1.mpr ⟨i, hi, hflag⟩
  constructor
  · rintro ⟨hafl, hheavy⟩
    refine ⟨fun hp => ?_, fun hp => hheavy ▸ hp⟩
    have hcount := congrArg AflState.qmsanViolations hafl
    rw [hrel.violations.1, hrel.violations.2, hp] at hcount
    cases hkv : k.violation with
    | true => rfl
    | false =>
      rw [hkv] at hcount
      simp at hcount
  · rintro ⟨hviol, hheavy⟩
    have hveq : p.violation = k.violation := Bool.eq_iff_iff.mpr ⟨hviol, hvk⟩
    refine ⟨?_, Bool.eq_iff_iff.mpr ⟨hhk, hheavy⟩⟩
    rw [hrel.rest, hrel.violations.1, hveq, ← hrel.violations.2]

end Flagging

/-! ### Scans and sessions -/

/-- One scan of any build is the plain scan exactly when the shortcuts are harmless. -/
theorem checkMsanTrace_eq_plainCheck_iff {b : BuildMode} (hb : b.IsBuild) (afl : AflState)
    (trace : AflMap) :
    checkMsanTrace b afl trace = plainCheck b afl trace ↔ ShortcutsOk b afl.msanTraces trace := by
  rcases hb with rfl | rfl | rfl | rfl | ⟨-, hn, hd, hf⟩
  · exact iff_of_true (checkMsanTrace_eq_plainCheck rfl rfl rfl afl trace)
      ⟨nofun, nofun, nofun⟩
  · rw [checkMsanTrace_naive]
    exact ⟨fun h => ⟨fun _ => h, nofun, nofun⟩, fun h => h.1 rfl⟩
  · rw [checkMsanTrace_dropoff]
    exact ⟨fun h => ⟨nofun, fun _ => h, nofun⟩, fun h => h.2.1 rfl⟩
  · rw [checkMsanTrace_flagging]
    exact ⟨fun h => ⟨nofun, nofun, fun _ => h⟩, fun h => h.2.2 rfl⟩
  · refine iff_of_true (checkMsanTrace_eq_plainCheck hn hd hf afl trace) ⟨?_, ?_, ?_⟩
    · simp [hn]
    · simp [hd]
    · simp [hf]

/-- The scans of a session: the state and the return value after each. -/
def scanSession (check : AflState → AflMap → AflState × Bool) :
    AflState → List AflMap → List (AflState × Bool)
  | _, [] => []
  | afl, trace :: traces => check afl trace :: scanSession check (check afl trace).1 traces

/-- Every scan of a session starts from a state in which the shortcuts are harmless. -/
def ShortcutsOkThroughout (b : BuildMode) : AflState → List AflMap → Prop
  | _, [] => True
  | afl, trace :: traces => ShortcutsOk b afl.msanTraces trace ∧
      ShortcutsOkThroughout b (checkMsanTrace b afl trace).1 traces

/-- **The optimised scan is the plain scan** over a session, after every trace map of it and from
any state, exactly when every scan starts from a state in which the shortcuts are harmless. -/
theorem scanSession_eq_iff {b : BuildMode} (hb : b.IsBuild) (afl : AflState)
    (traces : List AflMap) :
    scanSession (checkMsanTrace b) afl traces = scanSession (plainCheck b) afl traces ↔
      ShortcutsOkThroughout b afl traces := by
  induction traces generalizing afl with
  | nil => simp [scanSession, ShortcutsOkThroughout]
  | cons trace traces ih =>
    rw [scanSession, scanSession, List.cons.injEq, ShortcutsOkThroughout,
      ← checkMsanTrace_eq_plainCheck_iff hb]
    refine and_congr_right fun heq => ?_
    rw [← heq]
    exact ih _

/-- A build that only looks at bits scans any session as the plain loop does. -/
theorem scanSession_eq_iff_readme :
    scanSession (checkMsanTrace readmeBuild) .init [fun _ => 0x2a#8, fun _ => 0x2a#8] =
      scanSession (plainCheck readmeBuild) .init [fun _ => 0x2a#8, fun _ => 0x2a#8] :=
  (scanSession_eq_iff (Or.inr (Or.inr (Or.inr (Or.inr ⟨rfl, rfl, rfl, rfl⟩)))) _ _).mpr
    ⟨⟨nofun, nofun, nofun⟩, ⟨nofun, nofun, nofun⟩, trivial⟩

/-- The map of an execution that fires once, at slot 5. -/
def firedAtFive : AflMap := Function.update (fun _ => 0#8) 5 aflError

/-- The same firing three times in the drop-off build: the count of the slot reaches the value
of the error bit, and from then on the slot is skipped. -/
theorem not_scanSession_eq_dropoff :
    ¬ ∀ (b : BuildMode), b.IsBuild → ∀ (afl : AflState) (traces : List AflMap),
      scanSession (checkMsanTrace b) afl traces = scanSession (plainCheck b) afl traces := by
  intro h
  have hfive : 5 < mapSize - 1 := by decide
  have hfired : firedAtFive 5 = 2#8 := by simp [firedAtFive, aflError]
  set afl₁ := (checkMsanTrace dropoffBuild .init firedAtFive).1 with h₁
  set afl₂ := (checkMsanTrace dropoffBuild afl₁ firedAtFive).1 with h₂
  have hone : afl₁.msanTraces 5 = 1#8 := by
    rw [h₁, checkMsanTrace_dropoff_traces _ _ hfive, hfired]
    decide
  have htwo : afl₂.msanTraces 5 = 2#8 := by
    rw [h₂, checkMsanTrace_dropoff_traces _ _ hfive, hfired, hone]
    decide
  have hsession := h dropoffBuild (Or.inr (Or.inr (Or.inl rfl))) .init
    [firedAtFive, firedAtFive, firedAtFive]
  simp only [scanSession, List.cons.injEq, ← h₁, ← h₂] at hsession
  obtain ⟨heq₁, heq₂, heq₃, -⟩ := hsession
  rw [← heq₁, ← h₁] at heq₂ heq₃
  rw [← heq₂, ← h₂] at heq₃
  have hfull := (checkMsanTrace_dropoff afl₂ firedAtFive).mp heq₃ 5 hfive
    (hfired.trans htwo.symm) (by rw [hfired]; decide)
  rw [htwo] at hfull
  exact absurd hfull (by decide)

end CQMSan
