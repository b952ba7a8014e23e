import Mathlib

/-!
# The violation map shared with the fuzzer

The run-time library reports a fired check by writing into a byte map that lives in memory
shared with `afl-fuzz`. A report is a short, fixed sequence of single byte writes
(`cqmsanUpdateMap`, `cqmsanUpdateMapPc`), and the last of them is the **sentinel**: slot
`mapSize - 1` is set to `0xff` so that the fuzzer knows that something was found.

The writes are kept as a list instead of being applied at once: a child that is killed
performs only a prefix of them, and nothing but their order decides what the fuzzer then
sees. `bitsWritten ws i` collects what a list of writes puts at slot `i`, and `applyWrites_apply`
says that below the sentinel this is all there is to know about it.
-/

namespace CQMSan

/-- A byte of the shared map (`u8`). -/
abbrev U8 := BitVec 8

/-- An address or program counter on x86-64 (`uptr`). -/
abbrev Uptr := BitVec 64

/-- `MAP_SIZE_POW2`. -/
def mapSizePow2 : ℕ := 16

/-- `MAP_SIZE`. -/
def mapSize : ℕ := 2 ^ mapSizePow2

/-- The slot the fuzzer polls, `MAP_SIZE - 1`. -/
def sentinel : ℕ := mapSize - 1

/-- The shared byte map; only the slots below `mapSize` are ever touched. -/
abbrev AflMap := ℕ → U8

/-! ### Flag bits of a map byte -/

/-- `CQMSAN_AFL_CLEAN`. -/
def aflClean : U8 := 1#8 <<< 0
/-- `CQMSAN_AFL_ERROR`. -/
def aflError : U8 := 1#8 <<< 1
/-- `CQMSAN_AFL_MEMORY`. -/
def aflMemory : U8 := 1#8 <<< 2
/-- `CQMSAN_AFL_PC_EDGE`. -/
def aflPcEdge : U8 := 1#8 <<< 3
/-- `CQMSAN_AFL_CS`. -/
def aflCs : U8 := 1#8 <<< 4
/-- `CQMSAN_AFL_CS_EDGE`. -/
def aflCsEdge : U8 := 1#8 <<< 5

/-- The four bits a report of the run-time library can set below the sentinel. -/
def reportBits : U8 := aflError ||| aflPcEdge ||| aflCs ||| aflCsEdge

/-! ### Single writes -/

/-- One byte write of the run-time library: `area[i] |= b` or `area[i] = b`. -/
inductive MapWrite
  | or (i : ℕ) (b : U8)
  | set (i : ℕ) (b : U8)
deriving DecidableEq, Repr

/-- The slot a write goes to. -/
def MapWrite.slot : MapWrite → ℕ
  | .or i _ => i
  | .set i _ => i

/-- The bits a write puts into its slot. -/
def MapWrite.bits : MapWrite → U8
  | .or _ b => b
  | .set _ b => b

/-- The map after one write. -/
def MapWrite.apply (m : AflMap) : MapWrite → AflMap
  | .or i b => Function.update m i (m i ||| b)
  | .set i b => Function.update m i b

/-- The map after a sequence of writes. -/
def applyWrites (m : AflMap) (ws : List MapWrite) : AflMap := ws.foldl MapWrite.apply m

/-- Everything a sequence of writes puts into slot `i`. -/
def bitsWritten (ws : List MapWrite) (i : ℕ) : U8 :=
  ws.foldr (fun w acc => if w.slot = i then w.bits ||| acc else acc) 0#8

/-! ### The reports -/

/-- The two file-level variables of the run-time library that remember the previous report
(`last_edge`, `last_cs_edge`). -/
structure EdgeState where
  lastEdge : Uptr
  lastCsEdge : Uptr
deriving DecidableEq, Repr

/-- `StackTrace::GetPreviousInstructionPc` on x86-64. -/
def getPreviousInstructionPc (pc : Uptr) : Uptr := pc - 1

/-- The call-stack hash: the frames' previous program counters, xored together. -/
def callstackHash (stack : List Uptr) : Uptr :=
  stack.foldl (fun h framePc => h ^^^ getPreviousInstructionPc framePc) 0

/-- `cqmsan_update_map`: the writes it performs, in order, and the edge state it leaves. -/
def cqmsanUpdateMap (stack : List Uptr) (e : EdgeState) : List MapWrite × EdgeState :=
  match stack with
  | [] => ([], e)
  | pc₀ :: _ =>
    let pc := getPreviousInstructionPc pc₀
    let hash := callstackHash stack
    let idx := (hash ^^^ (e.lastCsEdge >>> 1)).toNat % mapSize
    ([.or (pc.toNat % mapSize) aflError,
      .or (((e.lastEdge >>> 1) ^^^ pc).toNat % mapSize) aflPcEdge,
      .or (hash.toNat % mapSize) aflCs,
      .or idx aflCsEdge,
      .set (mapSize - 1) 0xff#8],
     ⟨pc, hash⟩)

/-- `cqmsan_update_map_pc`: the report without a stack unwind. -/
def cqmsanUpdateMapPc (pc : Uptr) (e : EdgeState) : List MapWrite × EdgeState :=
  ([.or (pc.toNat % mapSize) aflError,
    .or (((e.lastEdge >>> 1) ^^^ pc).toNat % mapSize) aflPcEdge,
    .set (mapSize - 1) 0xff#8],
   ⟨pc, e.lastCsEdge⟩)

/-- A report of the run-time library, with the data its handler passes on. -/
inductive Firing
  | full (stack : List Uptr)
  | pcOnly (pc : Uptr)
deriving DecidableEq, Repr

/-- The writes of one report and the edge state after it. -/
def Firing.update : Firing → EdgeState → List MapWrite × EdgeState
  | .full stack, e => cqmsanUpdateMap stack e
  | .pcOnly pc, e => cqmsanUpdateMapPc pc e

/-- The writes of a sequence of reports, each starting from the edge state the previous one
left behind. -/
def firingWrites : EdgeState → List Firing → List MapWrite
  | _, [] => []
  | e, f :: fs => (f.update e).1 ++ firingWrites (f.update e).2 fs

/-! ### What a sequence of writes does to the map -/

@[simp] theorem applyWrites_nil (m : AflMap) : applyWrites m [] = m := rfl

@[simp] theorem applyWrites_cons (m : AflMap) (w : MapWrite) (ws : List MapWrite) :
    applyWrites m (w :: ws) = applyWrites (w.apply m) ws := rfl

@[simp] theorem bitsWritten_nil (i : ℕ) : bitsWritten [] i = 0#8 := rfl

theorem bitsWritten_cons (w : MapWrite) (ws : List MapWrite) (i : ℕ) :
    bitsWritten (w :: ws) i =
      if w.slot = i then w.bits ||| bitsWritten ws i else bitsWritten ws i := rfl

/-- A write the run-time library really performs: a bit of `reportBits` ored in anywhere, or
the sentinel assignment. -/
def MapWrite.IsReport : MapWrite → Prop
  | .or i b => i < mapSize ∧ b ≠ 0#8 ∧ b &&& reportBits = b
  | .set i b => i = sentinel ∧ b = 0xff#8

theorem MapWrite.apply_of_ne {m : AflMap} {w : MapWrite} {i : ℕ} (h : w.slot ≠ i) :
    w.apply m i = m i := by
  cases w <;> exact Function.update_of_ne (Ne.symm h) _ _

/-- Below the sentinel a report write only adds bits. -/
theorem MapWrite.IsReport.apply_slot {m : AflMap} {w : MapWrite} (h : w.IsReport)
    (hs : w.slot ≠ sentinel) : w.apply m w.slot = m w.slot ||| w.bits := by
  cases w with
  | or i b => simp [MapWrite.apply, MapWrite.slot, MapWrite.bits]
  | set i b => exact absurd h.1 hs

/-- A report write leaves its slot non-zero. -/
theorem MapWrite.IsReport.apply_slot_ne_zero {m : AflMap} {w : MapWrite} (h : w.IsReport) :
    w.apply m w.slot ≠ 0#8 := by
  cases w with
  | or i b =>
    simp only [MapWrite.apply, MapWrite.slot, Function.update_self, ne_eq, BitVec.or_eq_zero_iff]
    exact fun hz => h.2.1 hz.2
  | set i b =>
    obtain ⟨-, rfl⟩ := h
    simp [MapWrite.apply, MapWrite.slot]

/-- Below the sentinel the map gains exactly the bits written. -/
theorem applyWrites_apply {ws : List MapWrite} (hws : ∀ w ∈ ws, w.IsReport) {i : ℕ}
    (hi : i ≠ sentinel) (m : AflMap) : applyWrites m ws i = m i ||| bitsWritten ws i := by
  induction ws generalizing m with
  | nil => simp
  | cons w ws ih =>
    rw [applyWrites_cons, ih (fun v hv => hws v (List.mem_cons_of_mem _ hv)), bitsWritten_cons]
    split_ifs with hw
    · subst hw
      rw [(hws w List.mem_cons_self).apply_slot hi, BitVec.or_assoc]
    · rw [MapWrite.apply_of_ne hw]

/-- Once a slot is non-zero, report writes keep it so. -/
theorem applyWrites_ne_zero_of_ne_zero {ws : List MapWrite} (hws : ∀ w ∈ ws, w.IsReport) {i : ℕ}
    {m : AflMap} (hm : m i ≠ 0#8) : applyWrites m ws i ≠ 0#8 := by
  induction ws generalizing m with
  | nil => exact hm
  | cons w ws ih =>
    rw [applyWrites_cons]
    refine ih (fun v hv => hws v (List.mem_cons_of_mem _ hv)) ?_
    by_cases hw : w.slot = i
    · exact hw ▸ (hws w List.mem_cons_self).apply_slot_ne_zero
    · rwa [MapWrite.apply_of_ne hw]

/-- A clear sentinel is set by a sequence of report writes exactly when one of them goes to
its slot — the final assignment of a complete report, or a hash that lands there. -/
theorem applyWrites_sentinel_ne_zero_iff {ws : List MapWrite} (hws : ∀ w ∈ ws, w.IsReport)
    {m : AflMap} (hm : m sentinel = 0#8) :
    applyWrites m ws sentinel ≠ 0#8 ↔ ∃ w ∈ ws, w.slot = sentinel := by
  induction ws generalizing m with
  | nil => simp [hm]
  | cons w ws ih =>
    have hws' : ∀ v ∈ ws, v.IsReport := fun v hv => hws v (List.mem_cons_of_mem _ hv)
    rw [applyWrites_cons]
    by_cases hw : w.slot = sentinel
    · refine iff_of_true (applyWrites_ne_zero_of_ne_zero hws' ?_) ⟨w, List.mem_cons_self, hw⟩
      exact hw ▸ (hws w List.mem_cons_self).apply_slot_ne_zero
    · rw [ih hws' (by rwa [MapWrite.apply_of_ne hw])]
      simp [hw]

/-- A bit is in `bitsWritten` exactly when some single write carries it. -/
theorem getLsbD_bitsWritten {ws : List MapWrite} {i k : ℕ} :
    (bitsWritten ws i).getLsbD k = true ↔ ∃ w ∈ ws, w.slot = i ∧ w.bits.getLsbD k = true := by
  induction ws with
  | nil => simp
  | cons w ws ih =>
    rw [bitsWritten_cons]
    by_cases hw : w.slot = i <;> simp [hw, ih]

/-- Report writes put nothing but `reportBits` below the sentinel. -/
theorem bitsWritten_and_reportBits {ws : List MapWrite} (hws : ∀ w ∈ ws, w.IsReport) {i : ℕ}
    (hi : i ≠ sentinel) : bitsWritten ws i &&& reportBits = bitsWritten ws i := by
  induction ws with
  | nil => simp
  | cons w ws ih =>
    have ih' := ih fun v hv => hws v (List.mem_cons_of_mem _ hv)
    rw [bitsWritten_cons]
    split_ifs with hw
    · have hb : w.bits &&& reportBits = w.bits := by
        cases w with
        | or j b => exact (hws _ List.mem_cons_self).2.2
        | set j b => exact absurd (hw.symm.trans (hws _ List.mem_cons_self).1) hi
      rw [BitVec.and_comm, BitVec.and_or_distrib_left, BitVec.and_comm _ w.bits, hb,
        BitVec.and_comm _ (bitsWritten ws i), ih']
    · exact ih'

/-! ### The writes of a report -/

private theorem isReport_or {i : ℕ} {b : U8} (hi : i < mapSize)
    (hb : b ∈ [aflError, aflPcEdge, aflCs, aflCsEdge]) : (MapWrite.or i b).IsReport := by
  refine ⟨hi, ?_, ?_⟩ <;> revert hb <;> revert b <;> decide

private theorem mod_mapSize_lt (n : ℕ) : n % mapSize < mapSize :=
  Nat.mod_lt _ (by decide)

theorem isReport_of_mem_update {f : Firing} {e : EdgeState} {w : MapWrite}
    (hw : w ∈ (f.update e).1) : w.IsReport := by
  cases f with
  | full stack =>
    cases stack with
    | nil => simp [Firing.update, cqmsanUpdateMap] at hw
    | cons pc₀ rest =>
      simp only [Firing.update, cqmsanUpdateMap, List.mem_cons, List.not_mem_nil, or_false] at hw
      rcases hw with rfl | rfl | rfl | rfl | rfl
      · exact isReport_or (mod_mapSize_lt _) (by simp)
      · exact isReport_or (mod_mapSize_lt _) (by simp)
      · exact isReport_or (mod_mapSize_lt _) (by simp)
      · exact isReport_or (mod_mapSize_lt _) (by simp)
      · exact ⟨rfl, rfl⟩
  | pcOnly pc =>
    simp only [Firing.update, cqmsanUpdateMapPc, List.mem_cons, List.not_mem_nil, or_false] at hw
    rcases hw with rfl | rfl | rfl
    · exact isReport_or (mod_mapSize_lt _) (by simp)
    · exact isReport_or (mod_mapSize_lt _) (by simp)
    · exact ⟨rfl, rfl⟩

theorem isReport_of_mem_firingWrites {fs : List Firing} :
    ∀ {e : EdgeState} {w : MapWrite}, w ∈ firingWrites e fs → w.IsReport := by
  induction fs with
  | nil => simp [firingWrites]
  | cons f fs ih =>
    intro e w hw
    rcases List.mem_append.mp hw with h | h
    · exact isReport_of_mem_update h
    · exact ih h

/-- A complete report either writes nothing (an empty stack) or sets the sentinel. -/
theorem update_eq_nil_or_sentinel (f : Firing) (e : EdgeState) :
    (f.update e).1 = [] ∨ ∃ w ∈ (f.update e).1, w.slot = sentinel := by
  cases f with
  | full stack =>
    cases stack with
    | nil => exact .inl rfl
    | cons pc₀ rest =>
      exact .inr ⟨.set (mapSize - 1) 0xff#8, by simp [Firing.update, cqmsanUpdateMap], rfl⟩
  | pcOnly pc =>
    exact .inr ⟨.set (mapSize - 1) 0xff#8, by simp [Firing.update, cqmsanUpdateMapPc], rfl⟩

/-- A sequence of complete reports that writes anything at all sets the sentinel. -/
theorem exists_sentinel_of_firingWrites_ne_nil {fs : List Firing} :
    ∀ {e : EdgeState}, firingWrites e fs ≠ [] → ∃ w ∈ firingWrites e fs, w.slot = sentinel := by
  induction fs with
  | nil => simp [firingWrites]
  | cons f fs ih =>
    intro e h
    rcases update_eq_nil_or_sentinel f e with hf | ⟨w, hw, hs⟩
    · rw [firingWrites, hf, List.nil_append] at h ⊢
      exact ih h
    · exact ⟨w, List.mem_append_left _ hw, hs⟩

end CQMSan
