import CQMSan.Runtime.Poisoning

/-!
# `SetShadow` for any page size

`SetShadow` clears a large range by mapping fresh pages over the whole pages of its shadow and
writes only the two ends. `Poisoning` has it with the page size of x86-64 and a mapping that never
fails; here the page size, the mapping and the convention of the build are parameters. The memory
is the whole memory of the process, so that a statement about it also says what is left alone.

`SetShadow` always writes the range and nothing else (`PageMapper.setShadow_eq_fill`): the
threshold and the page size only decide how.
-/

namespace CQMSan

open ByteMemory

/-- The page size of the system and `MmapFixedSuperNoReserve`, which fails or replaces the pages
of an aligned range by pages that read as zero. -/
structure PageMapper where
  /-- `GetPageSizeCached()`. -/
  page : Uptr
  page_pow : ∃ k, page.toNat = 2 ^ k
  /-- `MmapFixedSuperNoReserve`. -/
  mmapFixedSuperNoReserve : Mem → Uptr → Uptr → Option Mem
  mmap_zero : ∀ m beg n m', page.toNat ∣ beg.toNat → page.toNat ∣ n.toNat →
    mmapFixedSuperNoReserve m beg n = some m' → m' = fill m beg.toNat n.toNat 0#8

/-- The shadow convention of the build: `flip` is `CQMSAN_FLIP_CONVENTION`. -/
inductive Convention
  | default | flip
  deriving DecidableEq

/-- `kCleanByte`. -/
def Convention.cleanByte : Convention → U8
  | .default => 0#8
  | .flip => 0xff#8

/-- `kPoisonByte`. -/
def Convention.poisonByte : Convention → U8
  | .default => 0xff#8
  | .flip => 0#8

namespace PageMapper

variable (P : PageMapper)

/-- `SetShadow`; `none` is the `Die()` after a mapping that failed. -/
def setShadow (threshold : Uptr) (m : Mem) (ptr size : Uptr) (value : U8) : Option Mem :=
  let shadowBeg := memToShadow ptr
  let shadowEnd := shadowBeg + size
  if value ≠ 0#8 ∨ shadowEnd - shadowBeg < threshold then
    some (fill m shadowBeg.toNat (shadowEnd - shadowBeg).toNat value)
  else
    let pageBeg := roundUpTo shadowBeg P.page
    let pageEnd := roundDownTo shadowEnd P.page
    if pageBeg ≥ pageEnd then
      some (fill m shadowBeg.toNat (shadowEnd - shadowBeg).toNat 0#8)
    else
      let m := if pageBeg ≠ shadowBeg then
        fill m shadowBeg.toNat (pageBeg - shadowBeg).toNat 0#8 else m
      let m := if pageEnd ≠ shadowEnd then
        fill m pageEnd.toNat (shadowEnd - pageEnd).toNat 0#8 else m
      P.mmapFixedSuperNoReserve m pageBeg (pageEnd - pageBeg)

/-- `__cqmsan_unpoison`. -/
def unpoison (c : Convention) (threshold : Uptr) (m : Mem) (a size : Uptr) : Option Mem :=
  if !memIsApp a.toNat then some m else P.setShadow threshold m a size c.cleanByte

/-- `__cqmsan_poison`. -/
def poison (c : Convention) (threshold : Uptr) (m : Mem) (a size : Uptr) : Option Mem :=
  if !memIsApp a.toNat then some m else P.setShadow threshold m a size c.poisonByte

/-- `__cqmsan_clear_and_unpoison`. -/
def clearAndUnpoison (c : Convention) (threshold : Uptr) (m : Mem) (a size : Uptr) :
    Option Mem :=
  P.setShadow threshold (fill m a.toNat size.toNat 0#8) a size c.cleanByte

/-! ### The effect -/

section Effect

variable {P} {t : Uptr} {m m' : Mem} {ptr size : Uptr} {v : U8}

/-- The pages that are mapped are whole pages inside the range. -/
theorem page_bounds (hspace : (memToShadow ptr).toNat + size.toNat ≤ 2 ^ 62)
    (h : roundUpTo (memToShadow ptr) P.page < roundDownTo (memToShadow ptr + size) P.page) :
    let pageBeg := roundUpTo (memToShadow ptr) P.page
    let pageEnd := roundDownTo (memToShadow ptr + size) P.page
    P.page.toNat ∣ pageBeg.toNat ∧ P.page.toNat ∣ (pageEnd - pageBeg).toNat ∧
      (memToShadow ptr).toNat ≤ pageBeg.toNat ∧ pageBeg.toNat < pageEnd.toNat ∧
      pageEnd.toNat ≤ (memToShadow ptr).toNat + size.toNat := by
  obtain ⟨k, hk⟩ := P.page_pow
  have hpage : P.page.toNat ≤ 2 ^ 63 := by
    have hlt := P.page.isLt
    rw [hk] at hlt ⊢
    have hk63 : k < 64 := (Nat.pow_lt_pow_iff_right (by norm_num)).mp hlt
    exact Nat.pow_le_pow_right (by norm_num) (by omega)
  obtain ⟨hdvd, hup, -⟩ := roundUpTo_bounds (x := memToShadow ptr) hk (by omega)
  have hdown := (roundDownTo_bounds (x := memToShadow ptr + size) hk).1
  have hdvd' : P.page.toNat ∣ (roundDownTo (memToShadow ptr + size) P.page).toNat := by
    rw [toNat_roundDownTo hk]
    exact Nat.dvd_mul_left _ _
  have hend : (memToShadow ptr + size).toNat = (memToShadow ptr).toNat + size.toNat := by
    bv_omega
  have hlt := BitVec.lt_def.mp h
  refine ⟨hdvd, ?_, hup, hlt, hend ▸ hdown⟩
  rw [toNat_sub_of_le hlt.le]
  exact Nat.dvd_sub hdvd' hdvd

/-- `SetShadow` fills the shadow range: the page arithmetic only changes how it is written. -/
theorem setShadow_eq_fill (hspace : (memToShadow ptr).toNat + size.toNat ≤ 2 ^ 62)
    (h : P.setShadow t m ptr size v = some m') :
    m' = fill m (memToShadow ptr).toNat size.toNat v := by
  have hsub : memToShadow ptr + size - memToShadow ptr = size := by
    rw [BitVec.add_comm, BitVec.add_sub_cancel]
  simp only [setShadow, hsub] at h
  by_cases hv : v ≠ 0#8 ∨ size < t
  · rw [if_pos hv] at h
    exact (Option.some.inj h).symm
  · obtain rfl : v = 0#8 := by
      by_contra hne
      exact hv (Or.inl hne)
    rw [if_neg hv] at h
    by_cases hpage : roundUpTo (memToShadow ptr) P.page ≥
        roundDownTo (memToShadow ptr + size) P.page
    · rw [if_pos hpage] at h
      exact (Option.some.inj h).symm
    · -- two ends and the pages between them
      rw [if_neg hpage] at h
      obtain ⟨hdvd, hdvd', hbeg, hlt, hstop⟩ :=
        page_bounds hspace (BitVec.not_le.mp hpage)
      have hend : (memToShadow ptr + size).toNat = (memToShadow ptr).toNat + size.toNat := by
        bv_omega
      rw [P.mmap_zero _ _ _ _ hdvd hdvd' h, fill_edge _ _ hbeg (fun h => not_not.mp h),
        fill_edge _ _ (hend ▸ hstop) (fun h => (not_not.mp h).symm), toNat_sub_of_le hlt.le, hend]
      exact fill_fill_fill hbeg hlt.le hstop

/-- `SetShadow` returns unless a mapping fails. -/
theorem isSome_setShadow (hmap : ∀ m b n, (P.mmapFixedSuperNoReserve m b n).isSome = true) :
    (P.setShadow t m ptr size v).isSome = true := by
  simp only [setShadow]
  split_ifs
  · rfl
  · rfl
  · exact hmap _ _ _
  · exact hmap _ _ _
  · exact hmap _ _ _
  · exact hmap _ _ _

end Effect

end PageMapper

/-- The mapping of x86-64 Linux when no call fails. -/
def linuxPages : PageMapper where
  page := pageSize
  page_pow := ⟨12, rfl⟩
  mmapFixedSuperNoReserve m beg n := some (fill m beg.toNat n.toNat 0#8)
  mmap_zero _ _ _ _ _ _ h := (Option.some.inj h).symm

/-- `Poisoning`'s `setShadow` is `SetShadow` with that mapping. -/
theorem linuxPages_setShadow (t : Uptr) (m : Mem) (ptr size : Uptr) (v : U8) :
    linuxPages.setShadow t m ptr size v = some (setShadow t m ptr size v) := by
  simp only [PageMapper.setShadow, setShadow, linuxPages, apply_ite some]
  rfl

/-- **`SetShadow` changes exactly its range.** On a range of application memory, for every page
size, threshold and mapping, the shadow bytes of the range hold the value afterwards and every
other byte of memory is unchanged; and the interface functions built on it have the same effect
for every threshold. It returns unless a mapping fails. -/
theorem setShadow_exact (P : PageMapper) (m : Mem) (ptr size : Uptr)
    (hptr : memIsApp ptr.toNat = true) (hrange : AppRange ptr.toNat size.toNat) :
    (∀ t v m', P.setShadow t m ptr size v = some m' → ∀ a,
      m' a = if (memToShadow ptr).toNat ≤ a ∧ a < (memToShadow ptr).toNat + size.toNat then v
        else m a) ∧
    (∀ c t t' m₁ m₂, P.unpoison c t m ptr size = some m₁ →
      P.unpoison c t' m ptr size = some m₂ → m₁ = m₂) ∧
    (∀ c t t' m₁ m₂, P.poison c t m ptr size = some m₁ →
      P.poison c t' m ptr size = some m₂ → m₁ = m₂) ∧
    (∀ c t t' m₁ m₂, P.clearAndUnpoison c t m ptr size = some m₁ →
      P.clearAndUnpoison c t' m ptr size = some m₂ → m₁ = m₂) ∧
    ((∀ m b n, (P.mmapFixedSuperNoReserve m b n).isSome = true) →
      ∀ t v, (P.setShadow t m ptr size v).isSome = true) := by
  have hspace : (memToShadow ptr).toNat + size.toNat ≤ 2 ^ 62 :=
    shadow_range_le hrange ((lt_of_memIsApp hptr).trans (by norm_num))
  -- two calls on one memory write the same
  have hsame : ∀ {m : Mem} {v : U8} {t t' : Uptr} {m₁ m₂ : Mem},
      P.setShadow t m ptr size v = some m₁ → P.setShadow t' m ptr size v = some m₂ →
      m₁ = m₂ := by
    intro m v t t' m₁ m₂ h1 h2
    exact (PageMapper.setShadow_eq_fill hspace h1).trans
      (PageMapper.setShadow_eq_fill hspace h2).symm
  refine ⟨?_, ?_, ?_, ?_, fun hmap t v => PageMapper.isSome_setShadow hmap⟩
  · intro t v m' h a
    rw [PageMapper.setShadow_eq_fill hspace h]
    exact fill_apply ..
  · intro c t t' m₁ m₂ h1 h2
    simp only [PageMapper.unpoison, hptr, Bool.not_true, Bool.false_eq_true, if_false] at h1 h2
    exact hsame h1 h2
  · intro c t t' m₁ m₂ h1 h2
    simp only [PageMapper.poison, hptr, Bool.not_true, Bool.false_eq_true, if_false] at h1 h2
    exact hsame h1 h2
  · intro c t t' m₁ m₂ h1 h2
    exact hsame h1 h2

/-- Three pages and a bit of the allocator range, cleared with threshold `0`: the shadow bytes at
both ends of the range are clean, and those next to it are as before. -/
theorem setShadow_exact_unmapping :
    ∃ m', linuxPages.setShadow 0#64 (fun _ => 0xff#8) 0x700000000100#64 0x3200#64 0#8 = some m' ∧
      m' 0x200000000100 = 0#8 ∧ m' 0x2000000032ff = 0#8 ∧
      m' 0x2000000000ff = 0xff#8 ∧ m' 0x200000003300 = 0xff#8 := by
  have hrange : AppRange 0x700000000100 0x3200 := by
    intro i hi
    rw [memIsApp_iff]
    omega
  obtain ⟨heffect, -, -, -, hreturns⟩ := setShadow_exact linuxPages (fun _ => 0xff#8)
    0x700000000100#64 0x3200#64 (by decide) hrange
  obtain ⟨m', hm'⟩ := Option.isSome_iff_exists.mp (hreturns (fun _ _ _ => rfl) 0#64 0#8)
  refine ⟨m', hm', ?_, ?_, ?_, ?_⟩
  all_goals
    rw [heffect 0#64 0#8 m' hm']
    decide

/-- **What the interface functions leave.** On a range of application memory `__cqmsan_unpoison`
and `__cqmsan_poison` leave the clean and the poisoned byte of the build in the shadow of the
range, `__cqmsan_clear_and_unpoison` moreover zeros in the range, and every other byte of memory
is unchanged. At an address outside application memory the first two do nothing. -/
theorem interface_exact (P : PageMapper) (c : Convention) (t : Uptr) (m : Mem)
    (ptr size : Uptr) :
    (memIsApp ptr.toNat = true → AppRange ptr.toNat size.toNat → ∀ m',
      (P.unpoison c t m ptr size = some m' →
        m' = fill m (shadowOf ptr.toNat) size.toNat c.cleanByte) ∧
      (P.poison c t m ptr size = some m' →
        m' = fill m (shadowOf ptr.toNat) size.toNat c.poisonByte) ∧
      (P.clearAndUnpoison c t m ptr size = some m' →
        m' = fill (fill m ptr.toNat size.toNat 0#8) (shadowOf ptr.toNat) size.toNat
          c.cleanByte)) ∧
    (memIsApp ptr.toNat = false →
      P.unpoison c t m ptr size = some m ∧ P.poison c t m ptr size = some m) := by
  refine ⟨fun hptr hrange m' => ?_, fun hptr => ?_⟩
  · have hspace : (memToShadow ptr).toNat + size.toNat ≤ 2 ^ 62 :=
      shadow_range_le hrange ((lt_of_memIsApp hptr).trans (by norm_num))
    rw [← toNat_memToShadow]
    refine ⟨fun h => ?_, fun h => ?_, fun h => PageMapper.setShadow_eq_fill hspace h⟩
    · simp only [PageMapper.unpoison, hptr, Bool.not_true, Bool.false_eq_true, if_false] at h
      exact PageMapper.setShadow_eq_fill hspace h
    · simp only [PageMapper.poison, hptr, Bool.not_true, Bool.false_eq_true, if_false] at h
      exact PageMapper.setShadow_eq_fill hspace h
  · simp only [PageMapper.unpoison, PageMapper.poison, hptr, Bool.not_false, if_true,
      and_self]

/-- Poisoning eight bytes of a block in a build with the flipped convention, and an address of
the sanitizer, which is left alone. -/
theorem interface_exact_eightBytes :
    (∃ m', linuxPages.poison .flip 0#64 (fun _ => 0xff#8) 0x700000000100#64 8#64 = some m' ∧
      m' 0x200000000100 = 0#8 ∧ m' 0x200000000108 = 0xff#8) ∧
    linuxPages.poison .flip 0#64 (fun _ => 0xff#8) 0x020000000000#64 8#64 =
      some fun _ => 0xff#8 := by
  have hrange : AppRange 0x700000000100 8 := by
    intro i hi
    rw [memIsApp_iff]
    omega
  have happ : memIsApp (0x700000000100#64).toNat = true := by decide
  have hsome : (linuxPages.poison .flip 0#64 (fun _ => 0xff#8) 0x700000000100#64
      8#64).isSome = true := by
    simp only [PageMapper.poison, happ, Bool.not_true, Bool.false_eq_true, if_false]
    exact PageMapper.isSome_setShadow fun _ _ _ => rfl
  obtain ⟨m', hm'⟩ := Option.isSome_iff_exists.mp hsome
  refine ⟨⟨m', hm', ?_, ?_⟩,
    ((interface_exact linuxPages .flip 0#64 _ 0x020000000000#64 8#64).2 (by decide)).2⟩
  all_goals
    rw [((interface_exact linuxPages .flip 0#64 _ 0x700000000100#64 8#64).1 happ hrange m').2.1
      hm']
    decide

end CQMSan
