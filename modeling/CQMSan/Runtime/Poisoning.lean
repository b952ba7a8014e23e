import CQMSan.Runtime.Layout

/-!
# Poisoning

The functions of `cqmsan_poisoning.cpp` and of the run-time interface that write shadow memory,
in the default convention: shadow `0` is initialised, `0xff` is not.

The functions work on shadow addresses, with page arithmetic in the places where the source
replaces a `memset` by fresh or released pages. Seen from the application bytes they are
plain range operations: `appShadow s a` is the shadow of application byte `a`, and the
`appShadow_…` theorems say that `setShadow` fills a range of it and `copyShadow` copies one.
Origins are off by default and are not part of the model.
-/

namespace CQMSan

open ByteMemory

/-- `GetPageSizeCached()` on x86-64 Linux. -/
def pageSize : Uptr := 4096#64

/-- `kPoisonByte`. -/
def kPoisonByte : U8 := 0xff#8

/-- `kCleanByte`. -/
def kCleanByte : U8 := 0#8

/-- `ReleaseMemoryPagesToOS`: the whole pages of the range read as zero afterwards. -/
def releaseMemoryPagesToOS (s : Mem) (beg stop : Uptr) : Mem :=
  let begAligned := roundUpTo beg pageSize
  let endAligned := roundDownTo stop pageSize
  if begAligned < endAligned then
    fill s begAligned.toNat (endAligned - begAligned).toNat 0#8
  else s

/-- `SetShadow`. `threshold` is `clear_shadow_mmap_threshold`; a failing `mmap` ends the
process and is left out. -/
def setShadow (threshold : Uptr) (s : Mem) (ptr size : Uptr) (value : U8) : Mem :=
  let shadowBeg := memToShadow ptr
  let shadowEnd := shadowBeg + size
  if value ≠ 0#8 ∨ shadowEnd - shadowBeg < threshold then
    fill s shadowBeg.toNat (shadowEnd - shadowBeg).toNat value
  else
    let pageBeg := roundUpTo shadowBeg pageSize
    let pageEnd := roundDownTo shadowEnd pageSize
    if pageBeg ≥ pageEnd then
      fill s shadowBeg.toNat (shadowEnd - shadowBeg).toNat 0#8
    else
      let s := if pageBeg ≠ shadowBeg then
        fill s shadowBeg.toNat (pageBeg - shadowBeg).toNat 0#8 else s
      let s := if pageEnd ≠ shadowEnd then
        fill s pageEnd.toNat (shadowEnd - pageEnd).toNat 0#8 else s
      -- `MmapFixedSuperNoReserve`: fresh pages read as zero
      fill s pageBeg.toNat (pageEnd - pageBeg).toNat 0#8

/-- `SetShadow` behind the `MEM_IS_APP` test of the interface functions. -/
def setAppShadow (threshold : Uptr) (s : Mem) (a size : Uptr) (value : U8) : Mem :=
  if !memIsApp a.toNat then s else setShadow threshold s a size value

/-- `__cqmsan_poison`. -/
def cqmsanPoison (threshold : Uptr) (s : Mem) (a size : Uptr) : Mem :=
  setAppShadow threshold s a size kPoisonByte

/-- `__cqmsan_unpoison`. -/
def cqmsanUnpoison (threshold : Uptr) (s : Mem) (a size : Uptr) : Mem :=
  setAppShadow threshold s a size kCleanByte

/-- The shadow half of `CopyShadowAndOrigin`. -/
def copyShadow (s : Mem) (dst src size : Uptr) : Mem :=
  if !memIsApp dst.toNat then s
  else if !memIsApp src.toNat then s
  else blit s (memToShadow dst).toNat (memToShadow src).toNat size.toNat

/-! ### The shadow seen from the application -/

/-- The shadow of every application byte. -/
def appShadow (s : Mem) : Mem := fun a => s (shadowOf a)

theorem mem_shadow_range {p n a : ℕ} (h : AppRange p n) :
    (shadowOf p ≤ shadowOf a ∧ shadowOf a < shadowOf p + n) ↔ p ≤ a ∧ a < p + n := by
  constructor
  · rintro ⟨h1, h2⟩
    have hi : shadowOf a - shadowOf p < n := by omega
    have heq : shadowOf (p + (shadowOf a - shadowOf p)) = shadowOf a := by
      rw [h.shadowOf_add hi]
      omega
    have := shadowOf_injective heq
    omega
  · rintro ⟨h1, h2⟩
    have := h.shadowOf_add (show a - p < n by omega)
    rw [show p + (a - p) = a by omega] at this
    omega

theorem appShadow_fill {p n : ℕ} (h : AppRange p n) (s : Mem) (v : U8) :
    appShadow (fill s (shadowOf p) n v) = fill (appShadow s) p n v := by
  funext a
  simp only [appShadow, fill_apply, mem_shadow_range h]

theorem appShadow_blit {p q n : ℕ} (hp : AppRange p n) (hq : AppRange q n) (s : Mem) :
    appShadow (blit s (shadowOf p) (shadowOf q) n) = blit (appShadow s) p q n := by
  funext a
  simp only [appShadow, blit_apply, mem_shadow_range hp]
  by_cases ha : p ≤ a ∧ a < p + n
  · have hoff : shadowOf a - shadowOf p = a - p := by
      have := hp.shadowOf_add (show a - p < n by omega)
      rw [show p + (a - p) = a by omega] at this
      omega
    rw [if_pos ha, if_pos ha, hoff, hq.shadowOf_add (by omega)]
  · rw [if_neg ha, if_neg ha]

private theorem pageSize_toNat : pageSize.toNat = 2 ^ 12 := rfl

theorem toNat_sub_of_le {a b : Uptr} (h : b.toNat ≤ a.toNat) :
    (a - b).toNat = a.toNat - b.toNat := by bv_omega

/-- The guarded `memset` of an edge piece. -/
theorem fill_edge (s : Mem) (v : U8) {a b x : Uptr} {c : Prop} [Decidable c]
    (h : b.toNat ≤ a.toNat) (hc : ¬ c → a = b) :
    (if c then fill s x.toNat (a - b).toNat v else s) =
      fill s x.toNat (a.toNat - b.toNat) v := by
  split_ifs with hab
  · rw [toNat_sub_of_le h]
  · rw [hc hab, Nat.sub_self, fill_zero]

/-- `SetShadow` on shadow addresses: the page arithmetic only changes how the range is
written. -/
theorem setShadow_pages (t : Uptr) (s : Mem) (p n : Uptr) (v : U8)
    (hsp : (memToShadow p).toNat + n.toNat ≤ 2 ^ 62) :
    setShadow t s p n v = fill s (memToShadow p).toNat n.toNat v := by
  have hsub : memToShadow p + n - memToShadow p = n := by
    rw [BitVec.add_comm, BitVec.add_sub_cancel]
  simp only [setShadow, hsub]
  by_cases hv : v ≠ 0#8 ∨ n < t
  · rw [if_pos hv]
  obtain rfl : v = 0#8 := by
    by_contra hne
    exact hv (Or.inl hne)
  rw [if_neg hv]
  set b := memToShadow p
  by_cases hpage : roundUpTo b pageSize ≥ roundDownTo (b + n) pageSize
  · rw [if_pos hpage]
  · rw [if_neg hpage]
    obtain ⟨-, hup, -⟩ := roundUpTo_bounds (x := b) pageSize_toNat
      (by rw [pageSize_toNat]; omega)
    obtain ⟨hdown, -⟩ := roundDownTo_bounds (x := b + n) pageSize_toNat
    have hend : (b + n).toNat = b.toNat + n.toNat := by bv_omega
    have hlt : (roundUpTo b pageSize).toNat < (roundDownTo (b + n) pageSize).toNat := by
      simpa [BitVec.le_def] using hpage
    rw [fill_edge _ _ hup (fun h => not_not.mp h),
      fill_edge _ _ hdown (fun h => (not_not.mp h).symm), toNat_sub_of_le hlt.le, hend]
    rw [hend] at hdown
    exact fill_fill_fill hup hlt.le hdown

section AppRanges

variable {p n : Uptr} (h : AppRange p.toNat n.toNat) (hp : p.toNat < 2 ^ 48) (t : Uptr) (s : Mem)

include h hp

/-- The shadow addresses of an application range leave room to the end of the address space. -/
theorem shadow_range_le : (memToShadow p).toNat + n.toNat ≤ 2 ^ 62 := by
  rw [toNat_memToShadow]
  rcases Nat.eq_zero_or_pos n.toNat with hn | hn
  · have : shadowOf p.toNat < 2 ^ 48 := Nat.xor_lt_two_pow hp (by norm_num)
    omega
  · have hlast : shadowOf (p.toNat + (n.toNat - 1)) = shadowOf p.toNat + (n.toNat - 1) :=
      h.shadowOf_add (by omega)
    have hlt : shadowOf (p.toNat + (n.toNat - 1)) < 2 ^ 47 :=
      Nat.xor_lt_two_pow (lt_of_memIsApp (h _ (by omega))) (by norm_num)
    omega

theorem appShadow_setShadow (v : U8) :
    appShadow (setShadow t s p n v) = fill (appShadow s) p.toNat n.toNat v := by
  rw [setShadow_pages t s p n v (shadow_range_le h hp), toNat_memToShadow, appShadow_fill h]

theorem appShadow_setAppShadow (v : U8) :
    appShadow (setAppShadow t s p n v) = fill (appShadow s) p.toNat n.toNat v := by
  rw [setAppShadow]
  split_ifs with happ
  · have hn : n.toNat = 0 := by
      by_contra hn
      have hp0 : memIsApp p.toNat = true := h 0 (Nat.pos_of_ne_zero hn)
      rw [hp0] at happ
      exact absurd happ (by decide)
    rw [hn, fill_zero]
  · exact appShadow_setShadow h hp t s v

/-- Releasing the shadow pages of a range writes no shadow outside it. -/
theorem appShadow_release {a : ℕ} (ha : ¬ (p.toNat ≤ a ∧ a < p.toNat + n.toNat)) :
    appShadow (releaseMemoryPagesToOS s (memToShadow p) (memToShadow p + n)) a =
      appShadow s a := by
  simp only [appShadow, releaseMemoryPagesToOS]
  split_ifs with hpage
  · rw [fill_apply, if_neg]
    rw [← mem_shadow_range h, ← toNat_memToShadow] at ha
    have hspace := shadow_range_le h hp
    obtain ⟨-, hup, -⟩ := roundUpTo_bounds (x := memToShadow p) pageSize_toNat
      (by rw [pageSize_toNat]; omega)
    obtain ⟨hdown, -⟩ := roundDownTo_bounds (x := memToShadow p + n) pageSize_toNat
    have hend : (memToShadow p + n).toNat = (memToShadow p).toNat + n.toNat := by bv_omega
    rw [BitVec.lt_def] at hpage
    rw [toNat_sub_of_le hpage.le]
    omega
  · rfl

end AppRanges

/-- The two halves of `CopyMemory` on application ranges. -/
theorem appShadow_copyShadow {p q n : Uptr} (hp : AppRange p.toNat n.toNat)
    (hq : AppRange q.toNat n.toNat) (s : Mem) :
    appShadow (copyShadow s p q n) = blit (appShadow s) p.toNat q.toNat n.toNat := by
  rw [copyShadow]
  rcases Nat.eq_zero_or_pos n.toNat with hn | hn
  · have h0 : ∀ (s : Mem) (a b : ℕ), blit s a b 0 = s := fun s a b => by
      funext x
      rw [blit_apply, if_neg (by omega)]
    rw [hn, h0, h0, ite_self, ite_self]
  · have h1 : memIsApp p.toNat = true := hp 0 hn
    have h2 : memIsApp q.toNat = true := hq 0 hn
    simp only [h1, h2, Bool.not_true, Bool.false_eq_true, if_false, toNat_memToShadow]
    exact appShadow_blit hp hq s

end CQMSan
