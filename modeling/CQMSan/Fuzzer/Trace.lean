import CQMSan.Runtime.ViolationMap

/-!
# The fuzzer's scan of the violation map

After each execution `qmsan_check_bugs` polls the sentinel and, when it is set, folds the
shared map into the fuzzer's own map `msan_traces` (`checkMsanTrace`). The fold decides
whether the accurate detector has to be run.

The source selects its detection modes with preprocessor symbols; here they are the fields of
`BuildMode`, and every `#ifdef` block is a conditional on its field. The blocks that react to
a bit which is new with respect to `msan_traces` only differ in the bit and in the counter they
bump, so they share `markNew`.

The scan has two shortcuts, the `memcmp` early-out and the skip of unchanged bytes. For the
build of the README (`readmeBuild`) neither of them matters: `checkMsanTrace_traces` and
`checkMsanTrace_heavyweight_iff` describe the result of the scan byte by byte.
-/

namespace CQMSan

/-- The preprocessor symbols that select the detection modes of the fuzzer. -/
structure BuildMode where
  simple : Bool := false
  naive : Bool := false
  filtering : Bool := false
  dropoff : Bool := false
  flagging : Bool := false
  edges : Bool := false
  memory : Bool := false
  callstack : Bool := false
  callstackEdges : Bool := false
deriving DecidableEq, Repr

/-- The build the README asks for: `QMSAN_FILTERING`, `QMSAN_CALLSTACK_EDGES`,
`QMSAN_CALLSTACK` and `QMSAN_EDGES`. -/
def readmeBuild : BuildMode :=
  { filtering := true, edges := true, callstack := true, callstackEdges := true }

/-- The part of `afl_state_t` the scan reads and writes. -/
structure AflState where
  msanTraces : AflMap
  qmsanErrors : ℕ
  qmsanViolations : ℕ
  qmsanMixed : ℕ
  qmsanEdges : ℕ
  qmsanMemory : ℕ
  qmsanCallstack : ℕ
  qmsanCallstackEdges : ℕ
  heavyweightRuns : ℕ
  qmsanCrashes : ℕ

/-- The state a session starts from: nothing seen, nothing counted. -/
def AflState.init : AflState :=
  ⟨fun _ => 0#8, 0, 0, 0, 0, 0, 0, 0, 0, 0⟩

/-- `afl->msan_traces[i] = v`. -/
def AflState.setTrace (a : AflState) (i : ℕ) (v : U8) : AflState :=
  { a with msanTraces := Function.update a.msanTraces i v }

/-- The local variables of `check_msan_trace` next to the fuzzer state; `stopped` records the
`break` of the naive mode. -/
structure Scan where
  afl : AflState
  heavyweightNeeded : Bool
  violation : Bool
  stopped : Bool

/-! ### The blocks of the loop body -/

/-- The `QMSAN_SIMPLE` block. -/
def simpleBlock (i : ℕ) (old new : U8) (s : Scan) : Scan :=
  if old = 0#8 ∧ new ≠ 0#8 then
    { s with
      afl := { s.afl.setTrace i 1#8 with qmsanErrors := s.afl.qmsanErrors + 1 }
      heavyweightNeeded := true }
  else s

/-- The `QMSAN_NAIVE` block. -/
def naiveBlock (new : U8) (s : Scan) : Scan :=
  if new &&& aflError ≠ 0#8 then { s with heavyweightNeeded := true, stopped := true } else s

/-- The shape shared by the `QMSAN_FILTERING`, `QMSAN_EDGES`, `QMSAN_MEMORY`, `QMSAN_CALLSTACK`
and `QMSAN_CALLSTACK_EDGES` blocks: a bit the fuzzer has not seen at slot `i` is recorded,
counted, and asks for the accurate detector. -/
def markNew (bit : U8) (count : AflState → AflState) (i : ℕ) (old new : U8) (s : Scan) : Scan :=
  if old &&& bit = 0#8 ∧ new &&& bit ≠ 0#8 then
    { s with
      afl := count (s.afl.setTrace i (s.afl.msanTraces i ||| bit))
      heavyweightNeeded := true }
  else s

/-- The `QMSAN_FILTERING` block. -/
def filteringBlock : ℕ → U8 → U8 → Scan → Scan :=
  markNew aflError fun a => { a with qmsanErrors := a.qmsanErrors + 1 }

/-- The `QMSAN_EDGES` block. -/
def edgesBlock : ℕ → U8 → U8 → Scan → Scan :=
  markNew aflPcEdge fun a => { a with qmsanEdges := a.qmsanEdges + 1 }

/-- The `QMSAN_MEMORY` block. -/
def memoryBlock : ℕ → U8 → U8 → Scan → Scan :=
  markNew aflMemory fun a => { a with qmsanMemory := a.qmsanMemory + 1 }

/-- The `QMSAN_CALLSTACK` block. -/
def callstackBlock : ℕ → U8 → U8 → Scan → Scan :=
  markNew aflCs fun a => { a with qmsanCallstack := a.qmsanCallstack + 1 }

/-- The `QMSAN_CALLSTACK_EDGES` block. -/
def callstackEdgesBlock : ℕ → U8 → U8 → Scan → Scan :=
  markNew aflCsEdge fun a => { a with qmsanCallstackEdges := a.qmsanCallstackEdges + 1 }

/-- The `QMSAN_DROPOFF` block: the trace byte counts the firings and asks for the accurate
detector at the powers of two. -/
def dropoffBlock (i : ℕ) (old new : U8) (s : Scan) : Scan :=
  if new &&& aflError ≠ 0#8 then
    let a := if old = 0#8 then { s.afl with qmsanErrors := s.afl.qmsanErrors + 1 } else s.afl
    if old ≠ 0xff#8 then
      { s with
        afl := a.setTrace i (a.msanTraces i + 1#8)
        heavyweightNeeded := s.heavyweightNeeded || decide (old &&& (old - 1#8) = 0#8) }
    else { s with afl := a }
  else s

/-- The `QMSAN_FLAGGING` block. -/
def flaggingBlock (i : ℕ) (old new : U8) (s : Scan) : Scan :=
  if new &&& aflError ≠ 0#8 then
    let s :=
      if s.violation then s
      else
        { s with
          afl := { s.afl with qmsanViolations := s.afl.qmsanViolations + 1 }
          violation := true }
    if old &&& 3#8 = 0#8 then
      let a := s.afl.setTrace i (s.afl.msanTraces i ||| aflError)
      { s with afl := { a with qmsanErrors := a.qmsanErrors + 1 }, heavyweightNeeded := true }
    else if s.afl.msanTraces i &&& aflClean ≠ 0#8 then
      { s with
        afl := s.afl.setTrace i (s.afl.msanTraces i ||| aflError)
        heavyweightNeeded := true }
    else s
  else if new &&& aflClean ≠ 0#8 ∧ new &&& aflError = 0#8 ∧ old &&& aflError ≠ 0#8 ∧
      old &&& aflClean = 0#8 then
    let a := s.afl.setTrace i (s.afl.msanTraces i ||| aflClean)
    { s with afl := { a with qmsanMixed := a.qmsanMixed + 1 } }
  else s

/-- Run a block when its preprocessor symbol is defined and the loop has not been left. -/
def ifDef (defined : Bool) (block : Scan → Scan) (s : Scan) : Scan :=
  if defined && !s.stopped then block s else s

/-- The blocks of the loop body for a byte that changed from `old` to `new`. -/
def scanBlocks (b : BuildMode) (i : ℕ) (old new : U8) (s : Scan) : Scan :=
  let s := ifDef b.simple (simpleBlock i old new) s
  let s := ifDef b.naive (naiveBlock new) s
  let s := ifDef b.filtering (filteringBlock i old new) s
  let s := ifDef b.dropoff (dropoffBlock i old new) s
  let s := ifDef b.flagging (flaggingBlock i old new) s
  let s := ifDef b.edges (edgesBlock i old new) s
  let s := ifDef b.memory (memoryBlock i old new) s
  let s := ifDef b.callstack (callstackBlock i old new) s
  ifDef b.callstackEdges (callstackEdgesBlock i old new) s

/-- The loop body at slot `i`, with the skip of unchanged bytes. -/
def scanByte (b : BuildMode) (trace : AflMap) (i : ℕ) (s : Scan) : Scan :=
  if trace i = s.afl.msanTraces i then s
  else scanBlocks b i (s.afl.msanTraces i) (trace i) s

/-- `while (i--) { … }`: the slots below `i`, from the highest down. -/
def scanLoop (b : BuildMode) (trace : AflMap) : ℕ → Scan → Scan
  | 0, s => s
  | i + 1, s =>
    let s := scanByte b trace i s
    if s.stopped then s else scanLoop b trace i s

/-- `memcmp(trace, afl->msan_traces, n) == 0`. -/
def memEq (m m' : AflMap) (n : ℕ) : Bool := (List.range n).all fun i => m i == m' i

/-- `check_msan_trace`: the fuzzer state after the scan and whether the accurate detector is
needed. -/
def checkMsanTrace (b : BuildMode) (afl : AflState) (trace : AflMap) : AflState × Bool :=
  if memEq trace afl.msanTraces (mapSize - 1) then (afl, false)
  else
    let s := scanLoop b trace (mapSize - 1) ⟨afl, false, false, false⟩
    (s.afl, s.heavyweightNeeded)

/-! ### One bit at a time -/

theorem and_one_shiftLeft_eq_zero_iff {x : U8} {k : ℕ} (hk : k < 8) :
    x &&& 1#8 <<< k = 0#8 ↔ x.getLsbD k = false := by
  rw [← BitVec.twoPow_eq, BitVec.and_twoPow]
  cases h : x.getLsbD k
  · simp
  · simp only [if_true, Bool.true_eq_false, iff_false]
    intro hz
    have := congrArg (fun y : U8 => y.getLsbD k) hz
    simp [hk] at this

theorem getLsbD_one_shiftLeft {j k : ℕ} (hk : k < 8) :
    (1#8 <<< k).getLsbD j = decide (j = k) := by
  rw [← BitVec.twoPow_eq, BitVec.getLsbD_twoPow]
  simp [hk, eq_comm]

section MarkNew

variable {k i : ℕ} {old new : U8} {count : AflState → AflState} {s : Scan}

/-- The slot is the only trace byte a block may change. -/
theorem markNew_traces_of_ne {bit : U8} (hc : ∀ a, (count a).msanTraces = a.msanTraces) {j : ℕ}
    (hj : j ≠ i) :
    (markNew bit count i old new s).afl.msanTraces j = s.afl.msanTraces j := by
  unfold markNew
  split_ifs
  · simp [hc, AflState.setTrace, Function.update_of_ne hj]
  · rfl

/-- A block adds its bit of `new` to a trace byte that already contains `old`. -/
theorem markNew_traces_self (k : ℕ) (new : U8) (count : AflState → AflState) (hk : k < 8)
    (hc : ∀ a, (count a).msanTraces = a.msanTraces) {acc : U8}
    (hs : s.afl.msanTraces i = old ||| acc) :
    (markNew (1#8 <<< k) count i old new s).afl.msanTraces i =
      old ||| (acc ||| (new &&& 1#8 <<< k)) := by
  unfold markNew
  have hext : ∀ x y : U8, (∀ j < 8, x.getLsbD j = y.getLsbD j) → x = y := fun _ _ =>
    BitVec.eq_of_getLsbD_eq
  split_ifs with h
  · rw [ne_eq, and_one_shiftLeft_eq_zero_iff hk, and_one_shiftLeft_eq_zero_iff hk] at h
    simp only [hc, AflState.setTrace, Function.update_self, hs]
    refine hext _ _ fun j hj => ?_
    by_cases hjk : j = k
    · subst hjk
      simp [getLsbD_one_shiftLeft hj, Bool.not_eq_false _ ▸ h.2]
    · simp [getLsbD_one_shiftLeft hk, hjk]
  · rw [hs]
    refine hext _ _ fun j hj => ?_
    by_cases hjk : j = k
    · subst hjk
      rw [ne_eq, and_one_shiftLeft_eq_zero_iff hk, and_one_shiftLeft_eq_zero_iff hk] at h
      simp only [BitVec.getLsbD_or, BitVec.getLsbD_and, getLsbD_one_shiftLeft hk, decide_true,
        Bool.and_true]
      cases ho : old.getLsbD j <;> cases hn : new.getLsbD j <;> simp_all
    · simp [getLsbD_one_shiftLeft hk, hjk]

/-- A block asks for the accurate detector exactly when its bit is new. -/
theorem markNew_heavyweight (hk : k < 8) :
    (markNew (1#8 <<< k) count i old new s).heavyweightNeeded =
      (s.heavyweightNeeded || (new.getLsbD k && !old.getLsbD k)) := by
  simp only [markNew, ne_eq, and_one_shiftLeft_eq_zero_iff hk]
  cases ho : old.getLsbD k <;> cases hn : new.getLsbD k <;> simp

theorem markNew_stopped {bit : U8} : (markNew bit count i old new s).stopped = s.stopped := by
  unfold markNew
  split_ifs <;> rfl

end MarkNew

/-! ### The scan of the README build -/

private theorem or_and_self_left (x y : U8) : x ||| (x &&& y) = x := by
  refine BitVec.eq_of_getLsbD_eq fun j _ => ?_
  simp only [BitVec.getLsbD_or, BitVec.getLsbD_and]
  cases x.getLsbD j <;> simp

private theorem and_and_not_self (x y : U8) : x &&& y &&& ~~~x = 0#8 := by
  refine BitVec.eq_of_getLsbD_eq fun j _ => ?_
  simp only [BitVec.getLsbD_and, BitVec.getLsbD_not, BitVec.getLsbD_zero]
  cases x.getLsbD j <;> simp

/-- One slot of the README build's scan. -/
structure ReadmeByte (trace : AflMap) (i : ℕ) (s s' : Scan) : Prop where
  self : s'.afl.msanTraces i = s.afl.msanTraces i ||| (trace i &&& reportBits)
  other : ∀ j, j ≠ i → s'.afl.msanTraces j = s.afl.msanTraces j
  heavyweight : s'.heavyweightNeeded = true ↔ s.heavyweightNeeded = true ∨
    trace i &&& reportBits &&& ~~~(s.afl.msanTraces i) ≠ 0#8
  stopped : s'.stopped = s.stopped

private theorem or_and_reportBits (x : U8) :
    (x &&& 1#8 <<< 1) ||| ((x &&& 1#8 <<< 3) ||| ((x &&& 1#8 <<< 4) ||| (x &&& 1#8 <<< 5))) =
      x &&& reportBits := by
  revert x; decide +kernel

private theorem new_reportBits_iff (old new : U8) :
    new &&& reportBits &&& ~~~old ≠ 0#8 ↔
      (new.getLsbD 1 && !old.getLsbD 1) = true ∨ (new.getLsbD 3 && !old.getLsbD 3) = true ∨
        (new.getLsbD 4 && !old.getLsbD 4) = true ∨ (new.getLsbD 5 && !old.getLsbD 5) = true := by
  have hr : ∀ j < 8, reportBits.getLsbD j = (decide (j = 1) || decide (j = 3) || decide (j = 4) ||
      decide (j = 5)) := by decide
  constructor
  · intro h
    by_contra hcon
    simp only [not_or, Bool.not_eq_true] at hcon
    refine h (BitVec.eq_of_getLsbD_eq fun j hj => ?_)
    simp only [BitVec.getLsbD_and, BitVec.getLsbD_not, hr j hj, hj, decide_true, Bool.true_and,
      BitVec.getLsbD_zero]
    rcases eq_or_ne j 1 with rfl | h1
    · simpa using hcon.1
    rcases eq_or_ne j 3 with rfl | h3
    · simpa using hcon.2.1
    rcases eq_or_ne j 4 with rfl | h4
    · simpa using hcon.2.2.1
    rcases eq_or_ne j 5 with rfl | h5
    · simpa using hcon.2.2.2
    · simp [h1, h3, h4, h5]
  · intro h hz
    have hbit : ∀ j < 8, reportBits.getLsbD j = true →
        (new.getLsbD j && !old.getLsbD j) = false := fun j hj hrj => by
      have := congrArg (fun y : U8 => y.getLsbD j) hz
      simpa only [BitVec.getLsbD_and, BitVec.getLsbD_not, hrj, hj, decide_true, Bool.true_and,
        Bool.and_true, BitVec.getLsbD_zero] using this
    rcases h with h | h | h | h
    · exact Bool.false_ne_true ((hbit 1 (by decide) (by decide)).symm.trans h)
    · exact Bool.false_ne_true ((hbit 3 (by decide) (by decide)).symm.trans h)
    · exact Bool.false_ne_true ((hbit 4 (by decide) (by decide)).symm.trans h)
    · exact Bool.false_ne_true ((hbit 5 (by decide) (by decide)).symm.trans h)

theorem scanBlocks_readme {i : ℕ} {old new : U8} {s : Scan} (hs : s.stopped = false) :
    scanBlocks readmeBuild i old new s =
      callstackEdgesBlock i old new (callstackBlock i old new (edgesBlock i old new
        (filteringBlock i old new s))) := by
  have hstop : ∀ t : Scan, t.stopped = false → (filteringBlock i old new t).stopped = false ∧
      (edgesBlock i old new t).stopped = false ∧ (callstackBlock i old new t).stopped = false :=
    fun t ht => ⟨markNew_stopped.trans ht, markNew_stopped.trans ht, markNew_stopped.trans ht⟩
  have h1 := (hstop s hs).1
  have h2 := (hstop _ h1).2.1
  have h3 := (hstop _ h2).2.2
  simp [scanBlocks, readmeBuild, ifDef, hs, h1, h2, h3]

theorem scanByte_readme (trace : AflMap) (i : ℕ) {s : Scan} (hs : s.stopped = false) :
    ReadmeByte trace i s (scanByte readmeBuild trace i s) := by
  unfold scanByte
  split_ifs with heq
  · -- an unchanged byte carries no bit that is new
    refine ⟨?_, fun _ _ => rfl, ?_, rfl⟩
    · rw [heq, or_and_self_left]
    · rw [heq, and_and_not_self]
      simp
  · rw [scanBlocks_readme hs]
    set old := s.afl.msanTraces i with hold
    refine ⟨?_, fun j hj => ?_, ?_, ?_⟩
    · have h0 : s.afl.msanTraces i = old ||| 0#8 := by simp [hold]
      have h1 := markNew_traces_self 1 (trace i)
        (fun a => { a with qmsanErrors := a.qmsanErrors + 1 }) (by decide)
        (fun _ => rfl) h0
      have h3 := markNew_traces_self 3 (trace i)
        (fun a => { a with qmsanEdges := a.qmsanEdges + 1 }) (by decide)
        (fun _ => rfl) h1
      have h4 := markNew_traces_self 4 (trace i)
        (fun a => { a with qmsanCallstack := a.qmsanCallstack + 1 }) (by decide)
        (fun _ => rfl) h3
      have h5 := markNew_traces_self 5 (trace i)
        (fun a => { a with qmsanCallstackEdges := a.qmsanCallstackEdges + 1 })
        (by decide) (fun _ => rfl) h4
      rw [BitVec.zero_or, BitVec.or_assoc, BitVec.or_assoc, or_and_reportBits] at h5
      exact h5
    · refine (markNew_traces_of_ne ?_ hj).trans ((markNew_traces_of_ne ?_ hj).trans
        ((markNew_traces_of_ne ?_ hj).trans (markNew_traces_of_ne ?_ hj))) <;> exact fun _ => rfl
    · simp only [filteringBlock, edgesBlock, callstackBlock, callstackEdgesBlock, aflError,
        aflPcEdge, aflCs, aflCsEdge]
      rw [markNew_heavyweight (by decide), markNew_heavyweight (by decide),
        markNew_heavyweight (by decide), markNew_heavyweight (by decide), new_reportBits_iff]
      simp only [Bool.or_eq_true, or_assoc, hold]
    · simp only [filteringBlock, edgesBlock, callstackBlock, callstackEdgesBlock,
        markNew_stopped]

/-- The loop of the README build folds every slot below `n` and leaves the others alone. -/
theorem scanLoop_readme (trace : AflMap) : ∀ (n : ℕ) {s : Scan}, s.stopped = false →
    (∀ i, (scanLoop readmeBuild trace n s).afl.msanTraces i =
      if i < n then s.afl.msanTraces i ||| (trace i &&& reportBits) else s.afl.msanTraces i) ∧
    ((scanLoop readmeBuild trace n s).heavyweightNeeded = true ↔ s.heavyweightNeeded = true ∨
      ∃ i < n, trace i &&& reportBits &&& ~~~(s.afl.msanTraces i) ≠ 0#8)
  | 0, s, _ => by simp [scanLoop]
  | n + 1, s, hs => by
    have hb := scanByte_readme trace n hs
    have hs' : (scanByte readmeBuild trace n s).stopped = false := hb.stopped.trans hs
    obtain ⟨htr, hhw⟩ := scanLoop_readme trace n hs'
    simp only [scanLoop, hs', Bool.false_eq_true, if_false]
    refine ⟨fun i => ?_, ?_⟩
    · rw [htr i]
      rcases Nat.lt_trichotomy i n with h | rfl | h
      · rw [if_pos h, if_pos (by omega), hb.other i (by omega)]
      · rw [if_neg (by omega), if_pos (by omega), hb.self]
      · rw [if_neg (by omega), if_neg (by omega), hb.other i (by omega)]
    · rw [hhw, hb.heavyweight]
      constructor
      · rintro ((h | h) | ⟨i, hi, h⟩)
        · exact .inl h
        · exact .inr ⟨n, by omega, h⟩
        · exact .inr ⟨i, by omega, by rwa [hb.other i (by omega)] at h⟩
      · rintro (h | ⟨i, hi, h⟩)
        · exact .inl (.inl h)
        · rcases Nat.lt_or_ge i n with hlt | hge
          · exact .inr ⟨i, hlt, by rwa [hb.other i (by omega)]⟩
          · obtain rfl : i = n := by omega
            exact .inl (.inr h)

theorem memEq_eq_true_iff {m m' : AflMap} {n : ℕ} :
    memEq m m' n = true ↔ ∀ i < n, m i = m' i := by
  simp [memEq]

/-- The trace map after a scan of the README build: every slot below the sentinel has gained
the report bits of the shared map. -/
theorem checkMsanTrace_traces (afl : AflState) (trace : AflMap) (i : ℕ) :
    (checkMsanTrace readmeBuild afl trace).1.msanTraces i =
      if i < sentinel then afl.msanTraces i ||| (trace i &&& reportBits)
      else afl.msanTraces i := by
  unfold checkMsanTrace
  split_ifs with hm hi hi
  · rw [memEq_eq_true_iff] at hm
    rw [hm i hi, or_and_self_left]
  · rfl
  · exact ((scanLoop_readme trace (mapSize - 1) rfl).1 i).trans (if_pos hi)
  · exact ((scanLoop_readme trace (mapSize - 1) rfl).1 i).trans (if_neg hi)

/-- The README build's scan asks for the accurate detector exactly when some slot below the
sentinel carries a report bit that is not yet in the trace map. -/
theorem checkMsanTrace_heavyweight_iff (afl : AflState) (trace : AflMap) :
    (checkMsanTrace readmeBuild afl trace).2 = true ↔
      ∃ i < sentinel, trace i &&& reportBits &&& ~~~(afl.msanTraces i) ≠ 0#8 := by
  unfold checkMsanTrace
  split_ifs with hm
  · rw [memEq_eq_true_iff] at hm
    simp only [false_iff, not_exists, not_and, not_not]
    intro i hi
    rw [hm i hi, and_and_not_self]
  · simpa [sentinel] using
      (scanLoop_readme trace (s := ⟨afl, false, false, false⟩) (mapSize - 1) rfl).2

end CQMSan
