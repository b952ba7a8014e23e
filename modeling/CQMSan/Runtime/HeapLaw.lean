import CQMSan.Runtime.GlibcRun

/-!
# The heap initialisation law

What the application can rely on about the shadow of its heap blocks, stated without reference
to a build: a `HeapView` is the part of the process that the law is about (which pointers are
live, their requested sizes, the application bytes and their shadow), and `HeapLaw` relates the
views before and after a call. `GlibcInv.heapLaw` proves it for the glibc build.
-/

namespace CQMSan

open ByteMemory

/-- The heap as the application sees it. -/
structure HeapView where
  /-- The pointers the application holds. -/
  live : Uptr → Prop
  /-- The requested size of the block at a pointer. -/
  size : Uptr → Uptr
  /-- Application bytes. -/
  data : Mem
  /-- The shadow of the application bytes. -/
  shadow : Mem

/-- What a returned call has done to the heap. -/
structure HeapLaw (r : Request) (v : HeapView) (ret : Option Uptr) (v' : HeapView) : Prop where
  /-- A new block has its requested size, and is poisoned, or zero and clean. -/
  allocated : ∀ size alignment zero check p, r = .allocate size alignment zero check →
    ret = some p → v'.live p ∧ v'.size p = size ∧ ∀ i < size.toNat,
      if zero then v'.data (p.toNat + i) = 0#8 ∧ v'.shadow (p.toNat + i) = kCleanByte
      else v'.shadow (p.toNat + i) = kPoisonByte
  /-- A resized block keeps the bytes and the shadow of its old extent; the rest is poisoned. -/
  reallocated : ∀ p n q, r = .reallocate p n → ret = some q →
    v'.live q ∧ v'.size q = n ∧
    (∀ i < min (v.size p).toNat n.toNat, v'.data (q.toNat + i) = v.data (p.toNat + i) ∧
      v'.shadow (q.toNat + i) = v.shadow (p.toNat + i)) ∧
    ∀ i, (v.size p).toNat ≤ i → i < n.toNat → v'.shadow (q.toNat + i) = kPoisonByte
  /-- A call that returns null, other than one that gives a block back, leaves every block as it
  was. -/
  failed : ret = none → (∀ o, r ≠ .deallocate o) → ∀ q, v.live q → v'.live q ∧
    v'.size q = v.size q ∧ AgreeOn v.data v'.data q.toNat (v.size q).toNat ∧
    AgreeOn v.shadow v'.shadow q.toNat (v.size q).toNat
  /-- The other blocks keep size and shadow. -/
  others : ∀ q, v.live q → r.pointer ≠ some q → v'.live q ∧ v'.size q = v.size q ∧
    AgreeOn v.shadow v'.shadow q.toNat (v.size q).toNat

/-! ### The glibc build -/

/-- The heap of the glibc build as the application sees it. -/
def GlibcHeap.view (h : GlibcHeap) : HeapView where
  live u := ∃ b ∈ h.live, b.user = u
  size := allocationSizeFast h.st.data
  data := h.st.data
  shadow := appShadow h.st.shadow

namespace GlibcBlock

variable (f : Flags) (b : GlibcBlock) (zero : Bool) (s : GlibcState)

/-- The shadow an allocation leaves. -/
theorem appShadow_granted (hp : f.poisonInMalloc = true) :
    appShadow (granted f b zero s).2.shadow =
      fill (appShadow s.shadow) b.user.toNat b.size.toNat
        (if zero then kCleanByte else kPoisonByte) := by
  cases zero with
  | true => exact appShadow_setShadow b.user_app b.user_lt _ _ _
  | false =>
    have hsh : (granted f b false s).2.shadow =
        cqmsanPoison f.clearShadowMmapThreshold s.shadow b.user b.size := by
      simp only [granted, glibcAllocated, hp]
      rfl
    rw [hsh]
    exact appShadow_setAppShadow b.user_app b.user_lt _ _ _

/-- `calloc` leaves the user area zero: the header is written before it. -/
theorem granted_data_zero {i : ℕ} (hi : i < b.size.toNat) :
    (granted f b true s).2.data (b.user.toNat + i) = 0#8 := by
  have h1 := b.user_toNat
  have h2 := b.headerSlot_ge
  have h3 := b.headerSlot_add_size_le
  have hbefore : ∀ (d : Mem) (j : ℕ) (w : Uptr), 1 ≤ j → j ≤ 3 →
      setHeaderWord d b.user j w (b.user.toNat + i) = d (b.user.toNat + i) := by
    intro d j w hj1 hj3
    have := agreeOn_setHeaderWord (b := b) (d := d) w hj3 (q := b.user.toNat)
      (k := b.size.toNat) (Or.inl (by omega))
    exact this i hi
  have hdata : (granted f b true s).2.data = setHeaderWord (setHeaderWord (setHeaderWord
      (fill s.data b.raw.toNat b.real 0#8) b.user 1 b.size) b.user 2 b.headerSlot)
      b.user 3 (cqmsanCanaryFor b.user) := rfl
  rw [hdata, hbefore _ 3 _ (by omega) le_rfl, hbefore _ 2 _ (by omega) (by omega),
    hbefore _ 1 _ le_rfl (by omega), fill_apply, if_pos (by omega)]

/-- Freeing a block changes no shadow outside its user area. -/
theorem appShadow_released (h : b.Headed s.data) {a : ℕ}
    (ha : ¬ (b.user.toNat ≤ a ∧ a < b.user.toNat + b.size.toNat)) :
    appShadow (glibcReleased f b.user s).shadow a = appShadow s.shadow a := by
  have hrel : ∀ sh : Mem, appShadow (if kShadowReleaseThreshold ≤ b.size then
      releaseMemoryPagesToOS sh (memToShadow b.user) (memToShadow b.user + b.size) else sh) a =
      appShadow sh a := by
    intro sh
    split_ifs
    · exact appShadow_release b.user_app b.user_lt sh ha
    · rfl
  simp only [glibcReleased, h.size]
  rw [← hrel s.shadow]
  split_ifs
  all_goals first
    | rw [cqmsanPoison, appShadow_setAppShadow b.user_app b.user_lt, fill_apply, if_neg ha]
    | rfl

variable {b} {c : GlibcBlock}

/-- A byte of the user area of one block is not in the user area of another. -/
theorem ApartFrom.not_mem_user (h : b.ApartFrom c) {i : ℕ} (hi : i < c.size.toNat) :
    ¬ (b.user.toNat ≤ c.user.toNat + i ∧ c.user.toNat + i < b.user.toNat + b.size.toNat) := by
  have hb1 := b.user_toNat
  have hb2 := b.headerSlot_add_size_le
  have hc1 := c.user_toNat
  have hc2 := c.headerSlot_add_size_le
  rcases h with h | h <;> omega

end GlibcBlock

section Law

variable {f : Flags} {h : GlibcHeap} {r : Request} {grant : Option GlibcBlock}
  {ret : Option Uptr} {st : GlibcState}

/-- The state in which `CQMsanReallocateGlibc` frees the old block: its bytes and its shadow
are in the new one, and the rest of the new one is poisoned. -/
private theorem copied_spec (hp : f.poisonInMalloc = true) {o b : GlibcBlock}
    (hap : b.ApartFrom o) (s : GlibcState) :
    let s' := (granted f b false s).2.copyMemory b.user o.user (minUptr b.size o.size)
    (∀ i < min o.size.toNat b.size.toNat,
      s'.data (b.user.toNat + i) = s.data (o.user.toNat + i) ∧
      appShadow s'.shadow (b.user.toNat + i) = appShadow s.shadow (o.user.toNat + i)) ∧
    (∀ i, o.size.toNat ≤ i → i < b.size.toNat →
      appShadow s'.shadow (b.user.toNat + i) = kPoisonByte) ∧
    ∀ a, ¬ (b.user.toNat ≤ a ∧ a < b.user.toNat + b.size.toNat) →
      appShadow s'.shadow a = appShadow s.shadow a := by
  intro s'
  have hmin := minUptr_toNat b.size o.size
  have hshadow : appShadow s'.shadow = blit (appShadow (granted f b false s).2.shadow)
      b.user.toNat o.user.toNat (minUptr b.size o.size).toNat :=
    appShadow_copyShadow (b.user_app.mono le_rfl (by omega)) (o.user_app.mono le_rfl (by omega)) _
  have hgranted := b.appShadow_granted f false s hp
  simp only [Bool.false_eq_true, if_false] at hgranted
  refine ⟨fun i hi => ⟨?_, ?_⟩, fun i hlo hhi => ?_, fun a ha => ?_⟩
  · have hdata : s'.data (b.user.toNat + i) = (granted f b false s).2.data (o.user.toNat + i) :=
      blit_add_apply (by omega)
    have h1 := o.user_toNat
    have h2 := o.headerSlot_add_size_le
    rw [hdata]
    exact (agreeOn_granted f b false s hap).at (by omega) (by omega)
  · rw [hshadow, blit_add_apply (by omega), hgranted, fill_apply,
      if_neg (hap.not_mem_user (by omega))]
  · rw [hshadow, blit_apply, if_neg (by omega), hgranted, fill_apply, if_pos (by omega)]
  · rw [hshadow, blit_apply, if_neg (by omega), hgranted, fill_apply, if_neg ha]

/-- No call touches the shadow of a block it is not about. -/
private theorem GlibcEffect.agreeOn_shadow (hp : f.poisonInMalloc = true) (hinv : GlibcInv h)
    (hgrant : h.MayGrant r grant) (heff : GlibcEffect f h r grant ret st) {c : GlibcBlock}
    (hc : c ∈ h.live) (hne : r.pointer ≠ some c.user) :
    AgreeOn (appShadow h.st.shadow) (appShadow st.shadow) c.user.toNat c.size.toNat := by
  intro i hi
  cases heff with
  | null => rfl
  | allocated b zero check hb hr =>
    have hap := (hgrant b hb).2 c hc
    rw [b.appShadow_granted f zero h.st hp, fill_apply, if_neg (hap.not_mem_user hi)]
  | deallocated o ho hr =>
    have hoc : o ≠ c := by
      rintro rfl
      simp [hr, Request.pointer] at hne
    exact o.appShadow_released f h.st (hinv.headed o ho)
      ((hinv.apart_of_ne ho hc hoc).not_mem_user hi)
  | reallocated o b ho hb hr =>
    have hoc : o ≠ c := by
      rintro rfl
      simp [hr, Request.pointer] at hne
    have hapb := (hgrant b hb).2
    have hmin : (minUptr b.size o.size).toNat ≤ b.size.toNat := by
      rw [minUptr_toNat]
      exact min_le_left ..
    have hheaded := (hinv.headed o ho).congr_raw
      (agreeOn_granted_copyMemory f false h.st o.user hmin (hapb o ho))
    rw [o.appShadow_released f _ hheaded ((hinv.apart_of_ne ho hc hoc).not_mem_user hi)]
    exact (copied_spec hp (hapb o ho) h.st).2.2 _ ((hapb c hc).not_mem_user hi)

/-- **The glibc build obeys the heap law.** -/
theorem GlibcInv.heapLaw (hp : f.poisonInMalloc = true) (hinv : GlibcInv h)
    (hgrant : h.MayGrant r grant) (heff : GlibcEffect f h r grant ret st) :
    HeapLaw r h.view ret (h.after r grant ret st).view := by
  have hinv' := hinv.call hgrant heff
  have hsize : ∀ b ∈ h.live, h.view.size b.user = b.size := fun b hb => (hinv.headed b hb).size
  have hsize' : ∀ b ∈ (h.after r grant ret st).live,
      (h.after r grant ret st).view.size b.user = b.size := fun b hb => (hinv'.headed b hb).size
  have hkept : ∀ b ∈ h.live, r.releases ret b.user = false →
      b ∈ (h.after r grant ret st).live := by
    intro b hb hrel
    simp [GlibcHeap.after, hb, hrel]
  have hnew : ∀ b, grant = some b → ret.isSome = true → b ∈ (h.after r grant ret st).live := by
    intro b hb hret
    simp [GlibcHeap.after, taken, hb, hret]
  refine ⟨?_, ?_, ?_, ?_⟩
  · rintro size alignment zero check p hr rfl
    cases heff with
    | reallocated o b ho hb hr' => rw [hr'] at hr; cases hr
    | allocated b zero' check' hb hr' =>
      rw [hr'] at hr
      cases hr
      have hmem := hnew b hb rfl
      refine ⟨⟨b, hmem, rfl⟩, hsize' b hmem, fun i hi => ?_⟩
      have hsh : appShadow (granted f b zero h.st).2.shadow (b.user.toNat + i) =
          if zero then kCleanByte else kPoisonByte := by
        rw [b.appShadow_granted f zero h.st hp, fill_add_apply hi]
      cases zero with
      | true => exact ⟨b.granted_data_zero f h.st hi, hsh⟩
      | false => exact hsh
  · rintro p n q hr rfl
    cases heff with
    | allocated b zero check hb hr' => rw [hr'] at hr; cases hr
    | reallocated o b ho hb hr' =>
      rw [hr'] at hr
      cases hr
      have hmem := hnew b hb rfl
      have hap := (hgrant b hb).2 o ho
      have hmin : (minUptr b.size o.size).toNat ≤ b.size.toNat := by
        rw [minUptr_toNat]
        exact min_le_left ..
      obtain ⟨hcopy, hrest, -⟩ := copied_spec hp hap h.st
      have hheaded := (hinv.headed o ho).congr_raw
        (agreeOn_granted_copyMemory f false h.st o.user hmin hap)
      -- freeing the old block leaves the new one alone
      have hsh : ∀ i < b.size.toNat, _ := fun i hi =>
        o.appShadow_released f _ hheaded (hap.symm.not_mem_user hi)
      have hdt : ∀ i < b.size.toNat, _ := fun i hi =>
        (agreeOn_released_of_apart (f := f) ((granted f b false h.st).2.copyMemory b.user o.user
          (minUptr b.size o.size)) hap.symm).at (a := b.user.toNat + i)
          (by have := b.user_toNat; omega)
          (by have := b.user_toNat; have := b.headerSlot_add_size_le; omega)
      rw [hsize o ho]
      refine ⟨⟨b, hmem, rfl⟩, hsize' b hmem, fun i hi => ⟨?_, ?_⟩, fun i hlo hhi => ?_⟩
      · exact (hdt i (by omega)).trans (hcopy i hi).1
      · exact (hsh i (by omega)).trans (hcopy i hi).2
      · exact (hsh i hhi).trans (hrest i hlo hhi)
  · rintro rfl hfree q ⟨c, hc, rfl⟩
    cases heff with
    | deallocated o ho hr => exact absurd hr (hfree o.user)
    | null hrel =>
      have hmem := hkept c hc (hrel c.user)
      refine ⟨⟨c, hmem, rfl⟩, ?_, AgreeOn.refl _ _ _, AgreeOn.refl _ _ _⟩
      rw [hsize c hc, hsize' c hmem]
  · rintro q ⟨c, hc, rfl⟩ hne
    have hmem := hkept c hc (Request.releases_eq_false hne)
    rw [hsize c hc]
    exact ⟨⟨c, hmem, rfl⟩, hsize' c hmem, heff.agreeOn_shadow hp hinv hgrant hc hne⟩

end Law

end CQMSan
