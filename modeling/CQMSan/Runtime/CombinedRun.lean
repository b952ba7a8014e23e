import CQMSan.Runtime.CombinedAlloc

/-!
# Runs of the default build

A returning call has one of five effects (`CombinedEffect`); each is described by the frame of the
rooms it may write, so that the invariant is kept room by room (`CombinedInv.call`) and the heap
law follows (`CombinedInv.heapLaw`).

`heap_initialisation` puts the two builds together.
-/

namespace CQMSan

open ByteMemory

section Runs

variable {A : Arena} {f : Flags} {h : CombinedHeap} {r : Request}
  {grant : Option (Uptr × MmapHeader)} {ret : Option Uptr} {st : CombinedState}

/-- `CQMsanDeallocate` on a state. -/
abbrev CombinedState.release (f : Flags) (o : Uptr) (s : CombinedState) : CombinedState :=
  (combinedReleased f o s).underlyingDeallocate f o

/-- The state after `CQMsanAllocate` was granted a chunk. -/
abbrev CombinedState.allocate (f : Flags) (p : Uptr) (m : MmapHeader) (size : Uptr) (zero : Bool)
    (s : CombinedState) : CombinedState :=
  combinedAllocated f p size zero (s.underlyingAllocate p m)

/-- What a returning request has done. -/
inductive CombinedEffect (A : Arena) (f : Flags) (h : CombinedHeap) (r : Request)
    (grant : Option (Uptr × MmapHeader)) : Option Uptr → CombinedState → Prop
  /-- Null, with nothing changed. -/
  | null (hr : ∀ p, r.releases none p = false) : CombinedEffect A f h r grant none h.st
  /-- A new block. -/
  | allocated (p : Uptr) (m : MmapHeader) (size alignment : Uptr) (zero check : Bool)
      (hp : grant = some (p, m)) (hr : r = .allocate size alignment zero check) :
      CombinedEffect A f h r grant (some p) (h.st.allocate f p m size zero)
  /-- A block given back. -/
  | deallocated (o : Uptr) (ho : o ∈ h.live) (hr : r = .deallocate o) :
      CombinedEffect A f h r grant none (h.st.release f o)
  /-- A block resized in place. -/
  | resized (o n : Uptr) (ho : o ∈ h.live) (hr : r = .reallocate o n)
      (hn : n ≤ h.st.allocatedSize A o) :
      CombinedEffect A f h r grant (some o) (combinedResized f o n h.st)
  /-- A block copied to a new chunk and given back. -/
  | moved (o p : Uptr) (m : MmapHeader) (n : Uptr) (ho : o ∈ h.live) (hp : grant = some (p, m))
      (hr : r = .reallocate o n) :
      CombinedEffect A f h r grant (some p) (((h.st.allocate f p m n false).copyMemory p o
        (minUptr n (h.st.metaData o).requestedSize)).release f o)

/-- `CQMsanAllocate` fails with the state untouched, or uses the chunk it was granted. -/
private theorem combinedAllocate_cases (grant : Option (Uptr × MmapHeader)) (rss : Bool)
    (size alignment : Uptr) (zero : Bool) (s : CombinedState) :
    (∃ d, combinedAllocate f ⟨rss, grant⟩ size alignment zero s = .error d s) ∨
    combinedAllocate f ⟨rss, grant⟩ size alignment zero s = .ok none s ∨
    ∃ p m, grant = some (p, m) ∧ combinedAllocate f ⟨rss, grant⟩ size alignment zero s =
      .ok (some p) (s.allocate f p m size zero) := by
  have hfail : ∀ d : Die,
      (∃ d', (f.fail d s : Outcome CombinedState (Option Uptr)) = .error d' s) ∨
      (f.fail d s : Outcome CombinedState (Option Uptr)) = .ok none s := by
    intro d
    rw [Flags.fail]
    split_ifs
    · exact Or.inr rfl
    · exact Or.inl ⟨d, rfl⟩
  rw [← or_assoc, combinedAllocate]
  split_ifs
  · exact Or.inl (hfail _)
  · exact Or.inl (hfail _)
  · rcases grant with _ | ⟨p, m⟩
    · exact Or.inl (hfail _)
    · exact Or.inr ⟨p, m, rfl, rfl⟩

/-- A call that returns has one of the five effects. -/
theorem combined_effect {c : Call} {rss : Bool} (hptr : ∀ p ∈ c.request.pointer, p ∈ h.live)
    (hexec : c.exec (combinedBackend A f) f ⟨rss, grant⟩ h.st = .ok ret st) :
    CombinedEffect A f h c.request grant ret st := by
  rw [Call.exec_eq] at hexec
  generalize c.request = r at *
  cases r with
  | reject d =>
    simp only [Request.exec, Flags.fail] at hexec
    split_ifs at hexec
    cases hexec
    exact .null fun _ => rfl
  | nothing =>
    cases hexec
    exact .null fun _ => rfl
  | allocate size alignment zero check =>
    simp only [Request.exec, combinedBackend] at hexec
    rcases combinedAllocate_cases (f := f) grant rss size alignment zero h.st with
      ⟨d, he⟩ | he | ⟨p, m, hp, he⟩
    · rw [he] at hexec
      cases hexec
    · rw [he] at hexec
      cases hexec
      exact .null fun _ => rfl
    · rw [he] at hexec
      dsimp only at hexec
      split_ifs at hexec
      cases hexec
      exact .allocated p m size alignment zero check hp rfl
  | deallocate p =>
    cases hexec
    exact .deallocated p (hptr p rfl) rfl
  | reallocate o n =>
    simp only [Request.exec, combinedBackend, combinedReallocate] at hexec
    split_ifs at hexec with hn
    · cases hexec
      exact .resized o n (hptr o rfl) rfl hn
    · rcases combinedAllocate_cases (f := f) grant rss n 8#64 false h.st with
        ⟨d, he⟩ | he | ⟨p, m, hp, he⟩
      · rw [he] at hexec
        cases hexec
      · rw [he] at hexec
        cases hexec
        exact .null fun _ => by simp [Request.releases]
      · rw [he] at hexec
        cases hexec
        exact .moved o p m n (hptr o rfl) hp rfl

/-! ### The invariant room by room -/

/-- The record of a chunk of the primary is truthful. -/
def Recorded (A : Arena) (s : CombinedState) (p : Uptr) : Prop :=
  (s.metaData p).poisonedSize.toNat ≤ (A.cap p).toNat ∧
    ∀ i < (s.metaData p).poisonedSize.toNat, appShadow s.shadow (p.toNat + i) = kPoisonByte

private theorem Recorded.frame {s s' : CombinedState} {p c : Uptr} {b n : ℕ}
    (hc : Recorded A s c) (hf : Frame s s' p b n) (hne : c ≠ p)
    (hap : Apart b n c.toNat (A.cap c).toNat) : Recorded A s' c := by
  rw [Recorded, hf.metaData c hne]
  exact ⟨hc.1, fun i hi => (hf.agreeOn_shadow hap i (by have := hc.1; omega)).trans (hc.2 i hi)⟩

/-- A granted chunk after `CQMsanAllocate`. -/
private structure Granted (A : Arena) (f : Flags) (h : CombinedHeap) (p : Uptr) (m : MmapHeader)
    (size : Uptr) (zero : Bool) : Prop where
  not_mem : p ∉ h.live
  lt : p.toNat < 2 ^ 47
  housed : Housed A (h.st.allocate f p m size zero) p
  frame : Frame h.st (h.st.allocate f p m size zero) p
    ((h.st.allocate f p m size zero).roomBeg p) ((h.st.allocate f p m size zero).roomLen A p)
  apart : ∀ q ∈ h.live, Apart ((h.st.allocate f p m size zero).roomBeg p)
    ((h.st.allocate f p m size zero).roomLen A p) (h.st.roomBeg q) (h.st.roomLen A q)
  size_eq : ((h.st.allocate f p m size zero).metaData p).requestedSize = size
  size_le : size.toNat ≤ ((h.st.allocate f p m size zero).allocatedSize A p).toNat
  filled : ∀ i < size.toNat, if zero then
      (h.st.allocate f p m size zero).data (p.toNat + i) = 0#8 ∧
      appShadow (h.st.allocate f p m size zero).shadow (p.toNat + i) = kCleanByte
    else appShadow (h.st.allocate f p m size zero).shadow (p.toNat + i) = kPoisonByte

private theorem CombinedInv.granted (hpm : f.poisonInMalloc = true) (hinv : CombinedInv A h)
    (hgrant : h.MayGrant A r grant) {p : Uptr} {m : MmapHeader} (hp : grant = some (p, m))
    (size alignment : Uptr) (hr : r.wants = some (size, alignment)) (zero : Bool) :
    Granted A f h p m size zero := by
  obtain ⟨size', alignment', hr', hnot, hlt, hh, hsize, hap⟩ := hgrant p m hp
  obtain rfl : size' = size := by
    rw [hr] at hr'
    cases hr'
    rfl
  have hprimary : fromPrimary p = true → h.st.underlyingAllocate p m = h.st := fun hfp => by
    rw [CombinedState.underlyingAllocate, if_pos hfp]
  have hrecord : fromPrimary p = true → Recorded A (h.st.underlyingAllocate p m) p := by
    intro hfp
    have := hinv.record p (hh.chunk hfp) hnot
    rw [hprimary hfp]
    exact this
  have hfresh : fromPrimary p = false → ∀ i < size'.toNat,
      (h.st.underlyingAllocate p m).data (p.toNat + i) = 0#8 := by
    intro hfp i hi
    have hmem := hh.mem_room hsize ⟨Nat.le_add_right p.toNat i, by omega⟩
    have hbeg : (h.st.underlyingAllocate p m).roomBeg p = m.mapBeg.toNat := by
      simp [CombinedState.underlyingAllocate, CombinedState.roomBeg, hfp]
    have hlen : (h.st.underlyingAllocate p m).roomLen A p = m.mapSize.toNat := by
      simp [CombinedState.underlyingAllocate, CombinedState.roomLen, hfp]
    have hdata : (h.st.underlyingAllocate p m).data =
        fill h.st.data m.mapBeg.toNat m.mapSize.toNat 0#8 := by
      simp [CombinedState.underlyingAllocate, hfp]
    rw [hbeg, hlen] at hmem
    rw [hdata, fill_apply, if_pos hmem]
  obtain ⟨hframe, hheader, hreq, hfilled⟩ :=
    combinedAllocated_spec hpm hh hlt hsize zero hrecord hfresh
  have hheader' := congrFun hheader p
  have hbeg := roomBeg_congr hheader'
  have hlen := roomLen_congr (A := A) hheader'
  refine ⟨hnot, hlt, hh.congr hheader', ?_, ?_, hreq, ?_, hfilled⟩
  · rw [hbeg, hlen]
    exact (frame_underlyingAllocate m).trans hframe
  · rw [hbeg, hlen]
    exact hap
  · rw [CombinedState.allocatedSize, hheader', ← CombinedState.allocatedSize]
    exact hsize

/-- The state in which `CQMsanReallocate` frees the old block of a move. -/
private theorem moved_copy (hinv : CombinedInv A h) {o p : Uptr}
    {m : MmapHeader} {n : Uptr} (ho : o ∈ h.live) (hg : Granted A f h p m n false) :
    let s := (h.st.allocate f p m n false).copyMemory p o
      (minUptr n (h.st.metaData o).requestedSize)
    Frame h.st s p (s.roomBeg p) (s.roomLen A p) ∧ Housed A s p ∧
    s.metaData p = (h.st.allocate f p m n false).metaData p ∧
    (∀ i < min (h.st.sizeOf o) n.toNat, s.data (p.toNat + i) = h.st.data (o.toNat + i) ∧
      appShadow s.shadow (p.toNat + i) = appShadow h.st.shadow (o.toNat + i)) ∧
    ∀ i, h.st.sizeOf o ≤ i → i < n.toNat → appShadow s.shadow (p.toNat + i) = kPoisonByte := by
  intro s
  have hmin : (minUptr n (h.st.metaData o).requestedSize).toNat = min n.toNat (h.st.sizeOf o) :=
    minUptr_toNat ..
  have hsize := hinv.size_le o ho
  have hgsize := hg.size_le
  have hsrc : AppRange o.toNat (minUptr n (h.st.metaData o).requestedSize).toNat :=
    (hinv.housed o ho).user_app (by omega)
  obtain ⟨hframe, hshadow⟩ := combinedCopy_spec hg.housed (q := o)
    (n := minUptr n (h.st.metaData o).requestedSize) (by omega) hsrc
  -- the old block lies outside the new room
  have hbeg := (hinv.housed o ho).beg_le
  have hend := (hinv.housed o ho).end_le
  have hold : Apart ((h.st.allocate f p m n false).roomBeg p)
      ((h.st.allocate f p m n false).roomLen A p) o.toNat (h.st.sizeOf o) := by
    rcases hg.apart o ho with hap | hap
    · exact Or.inl (by omega)
    · exact Or.inr (by omega)
  refine ⟨hg.frame.trans hframe, hg.housed.congr rfl, rfl, fun i hi => ⟨?_, ?_⟩,
    fun i hlo hhi => ?_⟩
  · have hdata : s.data (p.toNat + i) = (h.st.allocate f p m n false).data (o.toNat + i) :=
      blit_add_apply (by omega)
    rw [hdata]
    exact hg.frame.agreeOn_data hold i (by omega)
  · rw [hshadow, blit_add_apply (by omega)]
    exact hg.frame.agreeOn_shadow hold i (by omega)
  · rw [hshadow, blit_apply, if_neg (by omega)]
    simpa using hg.filled i hhi

theorem CombinedHeap.mem_after {p : Uptr} :
    p ∈ (h.after r ret st).live ↔ ret = some p ∨ p ∈ h.live ∧ r.releases ret p = false := by
  cases ret <;> simp [CombinedHeap.after, Request.releases, eq_comm (a := p)]

/-- The invariant of `after`, room by room. -/
private theorem CombinedInv.after (hinv : CombinedInv A h)
    (hnew : ∀ p, ret = some p → (p ∈ h.live → r.releases ret p = true) ∧ p.toNat < 2 ^ 47 ∧
      Housed A st p ∧ st.sizeOf p ≤ (st.allocatedSize A p).toNat ∧
      ∀ q ∈ h.live, q ≠ p → r.releases ret q = false →
        Apart (st.roomBeg p) (st.roomLen A p) (h.st.roomBeg q) (h.st.roomLen A q))
    (hkept : ∀ q ∈ h.live, r.releases ret q = false →
      st.header q = h.st.header q ∧ st.metaData q = h.st.metaData q)
    (hrecord : ∀ c, A.isChunk c → ret ≠ some c → (c ∈ h.live → r.releases ret c = true) →
      Recorded A st c) :
    CombinedInv A (h.after r ret st) := by
  have hrooms : ∀ q ∈ h.live, r.releases ret q = false →
      st.roomBeg q = h.st.roomBeg q ∧ st.roomLen A q = h.st.roomLen A q :=
    fun q hq hrel => ⟨roomBeg_congr (hkept q hq hrel).1, roomLen_congr (hkept q hq hrel).1⟩
  have hnotNew : ∀ q ∈ h.live, r.releases ret q = false → ret ≠ some q := by
    intro q hq hrel hret
    have := (hnew q hret).1 hq
    rw [hrel] at this
    cases this
  refine ⟨?_, fun p hp => ?_, fun p hp => ?_, fun p hp => ?_, fun p hp q hq hne => ?_,
    fun c hc hnot => ?_⟩
  · refine List.nodup_append.mpr ⟨?_, hinv.nodup.filter _, fun p hp q hq => ?_⟩
    · cases ret <;> simp
    · rintro rfl
      have hret : ret = some p := by simpa [eq_comm] using hp
      have hq' : p ∈ h.live ∧ r.releases ret p = false := by simpa using hq
      exact hnotNew p hq'.1 hq'.2 hret
  · rcases CombinedHeap.mem_after.mp hp with hret | ⟨hmem, -⟩
    · exact (hnew p hret).2.1
    · exact hinv.lt p hmem
  · rcases CombinedHeap.mem_after.mp hp with hret | ⟨hmem, hrel⟩
    · exact (hnew p hret).2.2.1
    · exact (hinv.housed p hmem).congr (hkept p hmem hrel).1
  · rcases CombinedHeap.mem_after.mp hp with hret | ⟨hmem, hrel⟩
    · exact (hnew p hret).2.2.2.1
    · have := hinv.size_le p hmem
      rwa [CombinedState.sizeOf, CombinedState.allocatedSize, ← (hkept p hmem hrel).1,
        ← (hkept p hmem hrel).2] at this
  · rcases CombinedHeap.mem_after.mp hp with hret | ⟨hmem, hrel⟩ <;>
      rcases CombinedHeap.mem_after.mp hq with hret' | ⟨hmem', hrel'⟩
    · rw [hret] at hret'
      exact absurd (Option.some.inj hret') hne
    · rw [show (h.after r ret st).st = st from rfl, (hrooms q hmem' hrel').1,
        (hrooms q hmem' hrel').2]
      exact (hnew p hret).2.2.2.2 q hmem' hne.symm hrel'
    · rw [show (h.after r ret st).st = st from rfl, (hrooms p hmem hrel).1,
        (hrooms p hmem hrel).2]
      exact ((hnew q hret').2.2.2.2 p hmem hne hrel).symm
    · rw [show (h.after r ret st).st = st from rfl, (hrooms p hmem hrel).1,
        (hrooms p hmem hrel).2, (hrooms q hmem' hrel').1, (hrooms q hmem' hrel').2]
      exact hinv.apart p hmem q hmem' hne
  · refine hrecord c hc (fun hret => hnot (CombinedHeap.mem_after.mpr (Or.inl hret))) fun hmem => ?_
    by_contra hrel
    exact hnot (CombinedHeap.mem_after.mpr (Or.inr ⟨hmem, by simpa using hrel⟩))

/-- **A call keeps the invariant.** -/
theorem CombinedInv.call (hpm : f.poisonInMalloc = true) (hinv : CombinedInv A h)
    (hgrant : h.MayGrant A r grant) (heff : CombinedEffect A f h r grant ret st) :
    CombinedInv A (h.after r ret st) := by
  cases heff with
  | null hr =>
    refine hinv.after (fun p hp => by cases hp) (fun q _ _ => ⟨rfl, rfl⟩) fun c hc _ hlive => ?_
    refine hinv.record c hc fun hmem => ?_
    rw [hr] at hlive
    exact absurd (hlive hmem) (by simp)
  | allocated p m size alignment zero check hp hr =>
    subst hr
    have hg := hinv.granted (f := f) hpm hgrant hp size alignment rfl zero
    refine hinv.after ?_ (fun q hq _ => ?_) fun c hc hret hlive => ?_
    · rintro _ ⟨⟩
      refine ⟨fun hmem => absurd hmem hg.not_mem, hg.lt, hg.housed, ?_,
        fun q hq _ _ => hg.apart q hq⟩
      rw [CombinedState.sizeOf, hg.size_eq]
      exact hg.size_le
    · have hne : q ≠ p := fun heq => hg.not_mem (heq ▸ hq)
      exact ⟨hg.frame.header q hne, hg.frame.metaData q hne⟩
    · have hne : c ≠ p := fun heq => hret (by rw [heq])
      have hnot : c ∉ h.live := fun hmem => absurd (hlive hmem) (by simp [Request.releases])
      exact Recorded.frame (hinv.record c hc hnot) hg.frame hne (hg.housed.apartPrimary c hc hne)
  | deallocated o ho hr =>
    subst hr
    obtain ⟨hframe, hheader, -, hrec⟩ :=
      combinedReleased_spec (f := f) (hinv.housed o ho) (hinv.lt o ho) (hinv.size_le o ho)
    refine hinv.after (fun p hp => by cases hp) (fun q hq hrel => ?_) fun c hc _ hlive => ?_
    · have hne : q ≠ o := by
        rintro rfl
        simp [Request.releases] at hrel
      exact ⟨hframe.header q hne, hframe.metaData q hne⟩
    · by_cases hco : c = o
      · subst hco
        exact hrec (A.fromPrimary_of_isChunk c hc)
      · have hnot : c ∉ h.live := fun hmem => by
          have := hlive hmem
          simp [Request.releases, hco] at this
        exact Recorded.frame (hinv.record c hc hnot) hframe hco
          ((hinv.housed o ho).apartPrimary c hc hco)
  | resized o n ho hr hn =>
    subst hr
    have hn' : n.toNat ≤ (h.st.allocatedSize A o).toNat := by rwa [BitVec.le_def] at hn
    obtain ⟨hframe, hheader, -, hreq, -⟩ :=
      combinedResized_spec hpm (hinv.housed o ho) (hinv.lt o ho) hn'
    have hheader' := congrFun hheader o
    refine hinv.after ?_ (fun q hq hrel => ?_) fun c hc hret hlive => ?_
    · rintro _ ⟨⟩
      refine ⟨fun _ => by simp [Request.releases], hinv.lt o ho, (hinv.housed o ho).congr hheader',
        ?_, fun q hq hne _ => ?_⟩
      · rw [CombinedState.sizeOf, hreq, CombinedState.allocatedSize, hheader',
          ← CombinedState.allocatedSize]
        exact hn'
      · rw [roomBeg_congr hheader', roomLen_congr hheader']
        exact hinv.apart o ho q hq hne.symm
    · have hne : q ≠ o := by
        rintro rfl
        simp [Request.releases] at hrel
      exact ⟨hframe.header q hne, hframe.metaData q hne⟩
    · have hco : c ≠ o := fun heq => hret (by rw [heq])
      have hnot : c ∉ h.live := fun hmem => by
        have := hlive hmem
        simp [Request.releases, hco] at this
      exact Recorded.frame (hinv.record c hc hnot) hframe hco
        ((hinv.housed o ho).apartPrimary c hc hco)
  | moved o p m n ho hp hr =>
    subst hr
    have hg := hinv.granted (f := f) hpm hgrant hp n 8#64 rfl false
    obtain ⟨hframe, hhoused, hmeta, -, -⟩ := moved_copy hinv ho hg
    set s := (h.st.allocate f p m n false).copyMemory p o
      (minUptr n (h.st.metaData o).requestedSize) with hs
    have hop : o ≠ p := fun heq => hg.not_mem (heq ▸ ho)
    have hheadero := hframe.header o hop
    have hold : Housed A s o := (hinv.housed o ho).congr hheadero
    have hsizeo : s.sizeOf o ≤ (s.allocatedSize A o).toNat := by
      rw [CombinedState.sizeOf, CombinedState.allocatedSize, hframe.metaData o hop, hheadero]
      exact hinv.size_le o ho
    obtain ⟨hframe', hheader', -, hrec⟩ :=
      combinedReleased_spec (f := f) hold (hinv.lt o ho) hsizeo
    have hheaderp : (s.release f o).header p = s.header p := congrFun hheader' p
    refine hinv.after ?_ (fun q hq hrel => ?_) fun c hc hret hlive => ?_
    · rintro _ ⟨⟩
      refine ⟨fun hmem => absurd hmem hg.not_mem, hg.lt, hhoused.congr hheaderp, ?_,
        fun q hq _ _ => ?_⟩
      · rw [CombinedState.sizeOf, CombinedState.allocatedSize, hheaderp,
          hframe'.metaData p hop.symm, hmeta, hg.size_eq]
        exact hg.size_le
      · rw [roomBeg_congr hheaderp, roomLen_congr hheaderp]
        exact hg.apart q hq
    · have hne : q ≠ o := by
        rintro rfl
        simp [Request.releases] at hrel
      have hne' : q ≠ p := fun heq => hg.not_mem (heq ▸ hq)
      exact ⟨(hframe'.header q hne).trans (hframe.header q hne'),
        (hframe'.metaData q hne).trans (hframe.metaData q hne')⟩
    · have hcp : c ≠ p := fun heq => hret (by rw [heq])
      by_cases hco : c = o
      · subst hco
        exact hrec (A.fromPrimary_of_isChunk c hc)
      · have hnot : c ∉ h.live := fun hmem => by
          have := hlive hmem
          simp [Request.releases, hco] at this
        have hrec1 := Recorded.frame (hinv.record c hc hnot) hframe hcp
          (hhoused.apartPrimary c hc hcp)
        exact Recorded.frame hrec1 hframe' hco (hold.apartPrimary c hc hco)

/-- A write into a live block keeps the records of the free chunks. -/
private theorem CombinedInv.writeShadow (hinv : CombinedInv A h) {p : Uptr} (hp : p ∈ h.live)
    {i : ℕ} (hi : i < h.st.sizeOf p) (v : U8) :
    CombinedInv A { h with
      st.shadow := Function.update h.st.shadow (shadowOf (p.toNat + i)) v } := by
  refine ⟨hinv.nodup, hinv.lt, fun q hq => (hinv.housed q hq).congr rfl, hinv.size_le, hinv.apart,
    fun c hc hnot => ⟨(hinv.record c hc hnot).1, fun j hj => ?_⟩⟩
  have hcp : c ≠ p := fun heq => hnot (heq ▸ hp)
  have hroom := (hinv.housed p hp).mem_room (hinv.size_le p hp)
    (i := p.toNat + i) ⟨Nat.le_add_right .., by omega⟩
  have hcap := (hinv.record c hc hnot).1
  have hne : shadowOf (c.toNat + j) ≠ shadowOf (p.toNat + i) := by
    refine shadowOf_injective.ne fun heq => ?_
    have hj' : j < (h.st.metaData c).poisonedSize.toNat := hj
    rcases (hinv.housed p hp).apartPrimary c hc hcp with hap | hap <;> omega
  have hold := (hinv.record c hc hnot).2 j hj
  rw [← hold]
  exact Function.update_of_ne hne ..

/-- **Every step keeps the invariant.** -/
theorem CombinedInv.step (hpm : f.poisonInMalloc = true) (hinv : CombinedInv A h)
    {h' : CombinedHeap} (hstep : CombinedStep A f h h') : CombinedInv A h' := by
  cases hstep with
  | call c rss grant ret st hgrant hptr hexec =>
    exact hinv.call hpm hgrant (combined_effect hptr hexec)
  | write p i v hp hi =>
    exact ⟨hinv.nodup, hinv.lt, fun q hq => (hinv.housed q hq).congr rfl, hinv.size_le,
      hinv.apart, hinv.record⟩
  | writeShadow p i v hp hi => exact hinv.writeShadow hp hi v

/-- **Every run keeps the invariant.** -/
theorem combinedInv_of_run (hpm : f.poisonInMalloc = true) {h₀ : CombinedHeap} (h0 : h₀.Initial)
    (hrun : Relation.ReflTransGen (CombinedStep A f) h₀ h) : CombinedInv A h := by
  induction hrun with
  | refl =>
    obtain ⟨hlive, hmeta⟩ := h0
    refine ⟨?_, ?_, ?_, ?_, ?_, fun p _ _ => ?_⟩ <;> simp [hlive, hmeta]
  | tail _ hstep ih => exact ih.step hpm hstep

/-! ### The heap law -/

/-- The heap of the default build as the application sees it. -/
def CombinedHeap.view (h : CombinedHeap) : HeapView where
  live p := p ∈ h.live
  size p := (h.st.metaData p).requestedSize
  data := h.st.data
  shadow := appShadow h.st.shadow

/-- The block of a live chunk lies outside the room of another one. -/
theorem CombinedInv.apart_user (hinv : CombinedInv A h) {p q : Uptr} (hp : p ∈ h.live)
    (hq : q ∈ h.live) (hne : p ≠ q) :
    Apart (h.st.roomBeg p) (h.st.roomLen A p) q.toNat (h.st.sizeOf q) := by
  have h1 := (hinv.housed q hq).beg_le
  have h2 := (hinv.housed q hq).end_le
  have h3 := hinv.size_le q hq
  rcases hinv.apart p hp q hq hne with hap | hap
  · exact Or.inl (by omega)
  · exact Or.inr (by omega)

private theorem Granted.apart_user (hinv : CombinedInv A h) {p q : Uptr} {m : MmapHeader}
    {size : Uptr} {zero : Bool} (hg : Granted A f h p m size zero) (hq : q ∈ h.live) :
    Apart ((h.st.allocate f p m size zero).roomBeg p)
      ((h.st.allocate f p m size zero).roomLen A p) q.toNat (h.st.sizeOf q) := by
  have h1 := (hinv.housed q hq).beg_le
  have h2 := (hinv.housed q hq).end_le
  have h3 := hinv.size_le q hq
  rcases hg.apart q hq with hap | hap
  · exact Or.inl (by omega)
  · exact Or.inr (by omega)

/-- No call touches a block it is not about. -/
private theorem CombinedEffect.others (hpm : f.poisonInMalloc = true) (hinv : CombinedInv A h)
    (hgrant : h.MayGrant A r grant) (heff : CombinedEffect A f h r grant ret st) {q : Uptr}
    (hq : q ∈ h.live) (hne : r.pointer ≠ some q) :
    st.metaData q = h.st.metaData q ∧
      AgreeOn (appShadow h.st.shadow) (appShadow st.shadow) q.toNat (h.st.sizeOf q) := by
  cases heff with
  | null => exact ⟨rfl, AgreeOn.refl _ _ _⟩
  | allocated p m size alignment zero check hp hr =>
    subst hr
    have hg := hinv.granted (f := f) hpm hgrant hp size alignment rfl zero
    have hqp : q ≠ p := fun heq => hg.not_mem (heq ▸ hq)
    exact ⟨hg.frame.metaData q hqp, hg.frame.agreeOn_shadow (hg.apart_user hinv hq)⟩
  | deallocated o ho hr =>
    subst hr
    have hqo : q ≠ o := fun heq => hne (by rw [heq]; rfl)
    obtain ⟨hframe, -, -, -⟩ :=
      combinedReleased_spec (f := f) (hinv.housed o ho) (hinv.lt o ho) (hinv.size_le o ho)
    exact ⟨hframe.metaData q hqo, hframe.agreeOn_shadow (hinv.apart_user ho hq hqo.symm)⟩
  | resized o n ho hr hn =>
    subst hr
    have hqo : q ≠ o := fun heq => hne (by rw [heq]; rfl)
    obtain ⟨hframe, -, -, -, -⟩ := combinedResized_spec hpm (hinv.housed o ho) (hinv.lt o ho)
      (n := n) (by rwa [BitVec.le_def] at hn)
    exact ⟨hframe.metaData q hqo, hframe.agreeOn_shadow (hinv.apart_user ho hq hqo.symm)⟩
  | moved o p m n ho hp hr =>
    subst hr
    have hqo : q ≠ o := fun heq => hne (by rw [heq]; rfl)
    have hg := hinv.granted (f := f) hpm hgrant hp n 8#64 rfl false
    have hqp : q ≠ p := fun heq => hg.not_mem (heq ▸ hq)
    have hop : o ≠ p := fun heq => hg.not_mem (heq ▸ ho)
    obtain ⟨hframe, -, -, -, -⟩ := moved_copy hinv ho hg
    obtain ⟨hframe', -, -, -⟩ := combinedReleased_spec (f := f)
      ((hinv.housed o ho).congr (hframe.header o hop)) (hinv.lt o ho) (by
        rw [CombinedState.sizeOf, CombinedState.allocatedSize, hframe.metaData o hop,
          hframe.header o hop]
        exact hinv.size_le o ho)
    refine ⟨(hframe'.metaData q hqo).trans (hframe.metaData q hqp), ?_⟩
    refine (hframe.agreeOn_shadow (hg.apart_user hinv hq)).trans (hframe'.agreeOn_shadow ?_)
    rw [roomBeg_congr (hframe.header o hop), roomLen_congr (hframe.header o hop)]
    exact hinv.apart_user ho hq hqo.symm

/-- **The default build obeys the heap law.** -/
theorem CombinedInv.heapLaw (hpm : f.poisonInMalloc = true) (hinv : CombinedInv A h)
    (hgrant : h.MayGrant A r grant) (heff : CombinedEffect A f h r grant ret st) :
    HeapLaw r h.view ret (h.after r ret st).view := by
  refine ⟨?_, ?_, ?_, ?_⟩
  · rintro size alignment zero check p rfl rfl
    cases heff with
    | resized o n ho hr => cases hr
    | moved o p m n ho hp hr => cases hr
    | allocated p m size' alignment' zero' check' hp hr =>
      cases hr
      have hg := hinv.granted (f := f) hpm hgrant hp size alignment rfl zero
      exact ⟨CombinedHeap.mem_after.mpr (Or.inl rfl), hg.size_eq, hg.filled⟩
  · rintro o n q rfl rfl
    have hlive : q ∈ (h.after (.reallocate o n) (some q) st).live :=
      CombinedHeap.mem_after.mpr (Or.inl rfl)
    cases heff with
    | allocated p m size alignment zero check hp hr => cases hr
    | resized o' n' ho hr hn =>
      cases hr
      obtain ⟨-, -, hdata, hreq, hshadow⟩ := combinedResized_spec hpm (hinv.housed o ho)
        (hinv.lt o ho) (n := n) (by rwa [BitVec.le_def] at hn)
      refine ⟨hlive, hreq, fun i hi => ⟨congrFun hdata _, ?_⟩, fun i hlo hhi => ?_⟩
      · have hi' : i < min (h.st.sizeOf o) n.toNat := hi
        exact (hshadow _).trans (if_neg (by omega))
      · have hlo' : h.st.sizeOf o ≤ i := hlo
        exact (hshadow _).trans (if_pos (by omega))
    | moved o' p m n' ho hp hr =>
      cases hr
      have hg := hinv.granted (f := f) hpm hgrant hp n 8#64 rfl false
      have hop : o ≠ q := fun heq => hg.not_mem (heq ▸ ho)
      obtain ⟨hframe, hhoused, hmeta, hcopy, hrest⟩ := moved_copy hinv ho hg
      obtain ⟨hframe', -, hdata', -⟩ := combinedReleased_spec (f := f)
        ((hinv.housed o ho).congr (hframe.header o hop)) (hinv.lt o ho) (by
          rw [CombinedState.sizeOf, CombinedState.allocatedSize, hframe.metaData o hop,
            hframe.header o hop]
          exact hinv.size_le o ho)
      -- freeing the old chunk leaves the new one alone
      have hkeep : ∀ i < n.toNat, _ := fun i hi => hframe'.shadow (q.toNat + i) (by
        have hmem := hhoused.mem_room (n := n.toNat) hg.size_le
          (i := q.toNat + i) ⟨Nat.le_add_right .., by omega⟩
        rw [roomBeg_congr (hframe.header o hop), roomLen_congr (hframe.header o hop)]
        have hap := hg.apart o ho
        have hbeg : _ = (h.st.allocate f q m n false).roomBeg q :=
          roomBeg_congr (t := (h.st.allocate f q m n false).copyMemory q o
            (minUptr n (h.st.metaData o).requestedSize)) rfl
        have hlen : _ = (h.st.allocate f q m n false).roomLen A q :=
          roomLen_congr (t := (h.st.allocate f q m n false).copyMemory q o
            (minUptr n (h.st.metaData o).requestedSize)) rfl
        rw [hbeg, hlen] at hmem
        rcases hap with hap | hap <;> omega)
      refine ⟨hlive, ?_, fun i hi => ⟨?_, ?_⟩, fun i hlo hhi => ?_⟩
      · exact (congrArg Metadata.requestedSize (hframe'.metaData q hop.symm)).trans
          ((congrArg Metadata.requestedSize hmeta).trans hg.size_eq)
      · exact (congrFun hdata' _).trans (hcopy i hi).1
      · exact (hkeep i (by omega)).trans (hcopy i hi).2
      · exact (hkeep i hhi).trans (hrest i hlo hhi)
  · rintro rfl hfree q hq
    cases heff with
    | deallocated o ho hr => exact absurd hr (hfree o)
    | null hr =>
      exact ⟨CombinedHeap.mem_after.mpr (Or.inr ⟨hq, hr q⟩), rfl, AgreeOn.refl _ _ _,
        AgreeOn.refl _ _ _⟩
  · intro q hq hne
    obtain ⟨hmeta, hagree⟩ := heff.others hpm hinv hgrant hq hne
    exact ⟨CombinedHeap.mem_after.mpr (Or.inr ⟨hq, Request.releases_eq_false hne⟩),
      congrArg Metadata.requestedSize hmeta, hagree⟩

end Runs

/-- **Heap initialisation.** In both builds, with `poison_in_malloc` on and whatever the other
flags are, every call that returns in a state reached by a run obeys the heap law. -/
theorem heap_initialisation {f : Flags} (hpm : f.poisonInMalloc = true) :
    (∀ (h₀ h : GlibcHeap), h₀.Initial → Relation.ReflTransGen (GlibcStep f) h₀ h →
      ∀ (c : Call) (rss : Bool) (grant : Option GlibcBlock) (ret : Option Uptr) (st : GlibcState),
        h.MayGrant c.request grant → (∀ p ∈ c.request.pointer, h.view.live p) →
        c.exec (glibcBackend f) f (grantAnswer rss grant) h.st = .ok ret st →
        HeapLaw c.request h.view ret (h.after c.request grant ret st).view) ∧
    (∀ (A : Arena) (h₀ h : CombinedHeap), h₀.Initial →
      Relation.ReflTransGen (CombinedStep A f) h₀ h →
      ∀ (c : Call) (rss : Bool) (grant : Option (Uptr × MmapHeader)) (ret : Option Uptr)
        (st : CombinedState),
        h.MayGrant A c.request grant → (∀ p ∈ c.request.pointer, h.view.live p) →
        c.exec (combinedBackend A f) f ⟨rss, grant⟩ h.st = .ok ret st →
        HeapLaw c.request h.view ret (h.after c.request ret st).view) := by
  constructor
  · intro h₀ h h0 hrun c rss grant ret st hgrant hptr hexec
    have hinv := glibcInv_of_run h0 hrun
    exact hinv.heapLaw hpm hgrant (glibc_effect hinv hgrant hptr hexec)
  · intro A h₀ h h0 hrun c rss grant ret st hgrant hptr hexec
    exact (combinedInv_of_run hpm h0 hrun).heapLaw hpm hgrant (combined_effect hptr hexec)

/-- A primary allocator with one chunk of 64 bytes. -/
def oneChunk : Arena where
  isChunk p := p = 0x700000000000#64
  cap _ := 64#64
  fromPrimary_of_isChunk := by rintro _ rfl; decide
  app := by
    rintro _ rfl i hi
    have hi' : i < 64 := hi
    exact memIsApp_iff.mpr (Or.inr (Or.inr (by simp; omega)))

/-- A process of the default build that has not allocated yet. -/
def zeroCombined : CombinedHeap :=
  ⟨⟨fun _ => 0#8, fun _ => 0#8, fun _ => ⟨0#64, 0#64⟩, fun _ => ⟨0#64, 0#64, 0#64⟩⟩, []⟩

/-- The chunk may be handed out whenever nothing is allocated. -/
theorem mayGrant_oneChunk {h : CombinedHeap} (hlive : h.live = []) :
    h.MayGrant oneChunk (Call.malloc 24#64).request
      (some (0x700000000000#64, ⟨0#64, 0#64, 0#64⟩)) := by
  rintro p m hp
  cases hp
  refine ⟨24#64, 8#64, rfl, by simp [hlive], by decide, ?_, ?_, ?_⟩
  · refine ⟨fun _ => rfl, le_rfl, le_rfl, oneChunk.app _ rfl, ?_⟩
    rintro q rfl hne
    exact absurd rfl hne
  · change 24 ≤ 64
    decide
  · rw [hlive]
    intro q hq
    cases hq

/-- The default build after a `malloc(24)`. -/
def combinedMalloc : CombinedHeap :=
  zeroCombined.after (Call.malloc 24#64).request (some 0x700000000000#64)
    (zeroCombined.st.allocate defaultFlags 0x700000000000#64 ⟨0#64, 0#64, 0#64⟩ 24#64 false)

/-- The default build after the block was freed again. -/
def combinedFree : CombinedHeap :=
  combinedMalloc.after (Call.free 0x700000000000#64).request none
    (combinedMalloc.st.release defaultFlags 0x700000000000#64)

theorem combinedStep_combinedMalloc : CombinedStep oneChunk defaultFlags zeroCombined
    combinedMalloc := by
  refine .call (Call.malloc 24#64) false (some (0x700000000000#64, ⟨0#64, 0#64, 0#64⟩)) _ _
    (mayGrant_oneChunk rfl) ?_ rfl
  intro p hp
  cases hp

theorem combinedStep_combinedFree : CombinedStep oneChunk defaultFlags combinedMalloc
    combinedFree := by
  refine .call (Call.free 0x700000000000#64) false none _ _ ?_ ?_ rfl
  · rintro p m hp
    cases hp
  · rintro p hp
    cases hp
    exact List.mem_singleton.mpr rfl

/-- The heap law in either build for a `malloc(24)` that gets a block which was allocated and
freed before. -/
theorem heap_initialisation_recycled :
    (∃ st, HeapLaw (Call.malloc 24#64).request heapFree.view (some block24.user)
      (heapFree.after (Call.malloc 24#64).request (some block24) (some block24.user) st).view) ∧
    ∃ st, HeapLaw (Call.malloc 24#64).request combinedFree.view (some 0x700000000000#64)
      (combinedFree.after (Call.malloc 24#64).request (some 0x700000000000#64) st).view := by
  constructor
  · refine ⟨_, (heap_initialisation (f := defaultFlags) rfl).1 zeroHeap heapFree ⟨rfl, rfl⟩
      ((Relation.ReflTransGen.single glibcStep_heapMalloc).tail glibcStep_heapFree)
      (Call.malloc 24#64) false (some block24) (some block24.user) _ ?_ ?_ rfl⟩
    · rintro b hb
      cases hb
      have hlive : heapFree.live = [] := rfl
      refine ⟨rfl, fun c hc => ?_⟩
      rw [hlive] at hc
      cases hc
    · intro p hp
      cases hp
  · refine ⟨_, (heap_initialisation (f := defaultFlags) rfl).2 oneChunk zeroCombined combinedFree
      ⟨rfl, fun _ => rfl⟩
      ((Relation.ReflTransGen.single combinedStep_combinedMalloc).tail combinedStep_combinedFree)
      (Call.malloc 24#64) false (some (0x700000000000#64, ⟨0#64, 0#64, 0#64⟩)) _ _
      (mayGrant_oneChunk rfl) ?_ rfl⟩
    intro p hp
    cases hp

/-- A `realloc` that returns null may have freed the block: asked for size zero it gives the
block back. -/
theorem not_realloc_null_unchanged :
    ¬ ∀ (f : Flags) (h₀ h : GlibcHeap), f.poisonInMalloc = true → h₀.Initial →
      Relation.ReflTransGen (GlibcStep f) h₀ h →
      ∀ (p n : Uptr) (rss : Bool) (grant : Option GlibcBlock) (st : GlibcState),
        h.view.live p → h.MayGrant (Call.realloc p n).request grant →
        (Call.realloc p n).exec (glibcBackend f) f (grantAnswer rss grant) h.st = .ok none st →
        allocationSizeFast st.data p = allocationSizeFast h.st.data p := by
  intro hclaim
  have hheaded := headed_granted defaultFlags block24 false zeroHeap.st
  have hcheck : headerCheck heapMalloc.st.data block24.user = none := hheaded.headerCheck
  have hsame := hclaim defaultFlags zeroHeap heapMalloc rfl ⟨rfl, rfl⟩
    (.single glibcStep_heapMalloc) block24.user 0#64 false none (glibcReleased defaultFlags block24.user heapMalloc.st)
    ⟨block24, List.mem_singleton.mpr rfl, rfl⟩ (fun b hb => nomatch hb) (by
      rw [Call.exec, cqmsanRealloc, if_neg (by decide), if_pos rfl]
      simp only [glibcBackend, glibcDeallocate, hcheck])
  have hold : allocationSizeFast heapMalloc.st.data block24.user = 24#64 := hheaded.size
  have hnew : allocationSizeFast (glibcReleased defaultFlags block24.user heapMalloc.st).data
      block24.user = cqmsanFreedCanaryFor block24.user :=
    marked_released defaultFlags block24 heapMalloc.st
  rw [hold, hnew] at hsame
  exact absurd hsame (by decide)

end CQMSan
