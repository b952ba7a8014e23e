import CQMSan.Runtime.SetShadow

/-!
# Mapping memory

The interceptor of `mmap` refuses a fixed request for memory that is not the application's, drops
a hint to such memory, and unmaps what the kernel returned if it is not the application's. It
looks at the first and the last address only.

The application part of the address space is three regions with sanitizer memory between them
(`appRegions`). A range with both ends in application memory is application memory if and only if
the ends are in one region (`appRange_iff`), so the interceptor is right on exactly the requests
whose ends, when they pass the test, are in one region. A fixed request at address `0` passes
without a test, and the end address may wrap.

What the kernel does is a `MmapKernel`: an answer for each address it is passed, with what the
standard promises about it. Protection, file and offset are passed through.
-/

namespace CQMSan

open ByteMemory

/-! ### The source -/

/-- The length of a request in whole pages. -/
def pageRounded (page length : ℕ) : ℕ := (length + page - 1) / page * page

/-- The address is in `[p, p + n)`. -/
def inRange (p n x : ℕ) : Bool := decide (p ≤ x) && decide (x < p + n)

/-- What the kernel answers to a request of `length` bytes, for each address it is passed: a
mapping and the memory with it, or an error. -/
structure MmapKernel (page length : Uptr) (fixed : Bool) (mem : Mem) where
  answer : Uptr → Option (Uptr × Mem)
  length_ne : ∀ a r m, answer a = some (r, m) → length ≠ 0#64
  fits : ∀ a r m, answer a = some (r, m) →
    r.toNat + pageRounded page.toNat length.toNat < 2 ^ 64
  at_addr : ∀ a r m, fixed = true → answer a = some (r, m) → r = a
  frame : ∀ a r m x, answer a = some (r, m) →
    inRange r.toNat (pageRounded page.toNat length.toNat) x = false → m x = mem x

/-- The result of a call: the address passed to the kernel, if it was called; the mapping, or
`none` for `(void *)-1`; the memory; and the addresses that the call mapped and left mapped. -/
structure MmapOut where
  passed : Option Uptr
  ret : Option Uptr
  mem : Mem
  created : ℕ → Bool

/-- `internal_munmap`: the pages with a byte of the range are unmapped. -/
def internalMunmap (page : Uptr) (created : ℕ → Bool) (addr length : Uptr) : ℕ → Bool := fun x =>
  created x && !inRange addr.toNat (pageRounded page.toNat length.toNat) x

/-- `addr && (!MEM_IS_APP(addr) || !MEM_IS_APP(end_addr))`. -/
def outsideApp (page addr length : Uptr) : Bool :=
  let roundedLength := roundUpTo length page
  let endAddr := addr + (roundedLength - 1#64)
  addr != 0#64 && (!memIsApp addr.toNat || !memIsApp endAddr.toNat)

/-- The address that `mmap_interceptor` passes to the kernel, if it does not refuse. -/
def passedToKernel (page addr length : Uptr) (fixed : Bool) : Option Uptr :=
  if outsideApp page addr length then if fixed then none else some 0#64
  else some addr

/-- `mmap_interceptor`; `none` is the `Die()` of `SetShadow`, after the call of the kernel. -/
def mmapInterceptor (P : PageMapper) (c : Convention) (threshold : Uptr) (mem : Mem)
    (addr length : Uptr) (fixed : Bool) (k : MmapKernel P.page length fixed mem) :
    Option MmapOut :=
  let roundedLength := roundUpTo length P.page
  match passedToKernel P.page addr length fixed with
  | none => some ⟨none, none, mem, fun _ => false⟩
  | some addr =>
    match k.answer addr with
    | none => some ⟨some addr, none, mem, fun _ => false⟩
    | some (res, m) =>
      let created := inRange res.toNat (pageRounded P.page.toNat length.toNat)
      let endRes := res + (roundedLength - 1#64)
      if memIsApp res.toNat && memIsApp endRes.toNat then
        (P.unpoison c threshold m res roundedLength).map fun m =>
          ⟨some addr, some res, m, created⟩
      else
        some ⟨some addr, none, m, internalMunmap P.page created res length⟩

/-! ### The application regions -/

/-- The parts of the address space that belong to the application, joined where they touch. -/
def appRegions : List (ℕ × ℕ) :=
  [(0, 0x010000000000), (0x510000000000, 0x600000000000), (0x700000000000, 0x800000000000)]

/-- The range is empty or inside one region. -/
def inOneRegion (p n : ℕ) : Bool :=
  n == 0 || appRegions.any fun d => decide (d.1 ≤ p) && decide (p + n ≤ d.2)

/-- **A range is application memory iff it is inside one region.** -/
theorem appRange_iff {p n : ℕ} : AppRange p n ↔ inOneRegion p n = true := by
  have hone : inOneRegion p n = true ↔ n = 0 ∨ p + n ≤ 0x010000000000 ∨
      (0x510000000000 ≤ p ∧ p + n ≤ 0x600000000000) ∨
      (0x700000000000 ≤ p ∧ p + n ≤ 0x800000000000) := by
    simp [inOneRegion, appRegions]
  rw [hone]
  constructor
  · intro h
    rcases Nat.eq_zero_or_pos n with hn | hn
    · exact Or.inl hn
    · -- no address of a gap is in the range
      have hgap : ∀ x, p ≤ x → x < p + n → memIsApp x = true := by
        intro x h1 h2
        have hx := h (x - p) (by omega)
        rwa [show p + (x - p) = x by omega] at hx
      have h0 := memIsApp_iff.mp (hgap p le_rfl (by omega))
      have hlast := memIsApp_iff.mp (hgap (p + n - 1) (by omega) (by omega))
      by_cases h1 : p ≤ 0x010000000000 ∧ 0x010000000000 < p + n
      · have := memIsApp_iff.mp (hgap 0x010000000000 h1.1 h1.2)
        omega
      · by_cases h2 : p ≤ 0x600000000000 ∧ 0x600000000000 < p + n
        · have := memIsApp_iff.mp (hgap 0x600000000000 h2.1 h2.2)
          omega
        · omega
  · intro h i hi
    rw [memIsApp_iff]
    omega

/-- The shadow of application memory is not application memory. -/
theorem memIsApp_shadowOf {x : ℕ} (h : memIsApp x = true) : memIsApp (shadowOf x) = false := by
  have hshadow := memIsShadow_iff.mp (memIsShadow_shadowOf.mpr h)
  rw [← Bool.not_eq_true, memIsApp_iff]
  omega

/-! ### Safety -/

/-- The call keeps sanitizer memory to the sanitizer: a fixed request is passed to the kernel only
for application memory; a mapping that is returned is application memory with a clean shadow, and
the shadow of no other address changed; and after a failure nothing the call mapped is left. -/
structure MmapSafe (c : Convention) (mem : Mem) (n : ℕ) (fixed : Bool) (out : MmapOut) : Prop where
  fixed_app : ∀ a, fixed = true → out.passed = some a → AppRange a.toNat n
  ret_app : ∀ r, out.ret = some r → AppRange r.toNat n
  ret_clean : ∀ r x, out.ret = some r → inRange r.toNat n x = true →
    out.mem (shadowOf x) = c.cleanByte
  ret_frame : ∀ r x, out.ret = some r → memIsApp x = true → inRange r.toNat n x = false →
    out.mem (shadowOf x) = mem (shadowOf x)
  failed : out.ret = none → ∀ x, out.created x = false

/-- A fixed request that passes the test on its ends is inside one region; and so is a mapping
that the kernel chose, if its ends are application addresses. -/
def EndsInOneRegion (P : PageMapper) (mem : Mem) (addr length : Uptr) (fixed : Bool)
    (k : MmapKernel P.page length fixed mem) : Prop :=
  let n := pageRounded P.page.toNat length.toNat
  (fixed = true → outsideApp P.page addr length = false → inOneRegion addr.toNat n = true) ∧
    ∀ r m, fixed = false →
      k.answer (if outsideApp P.page addr length then 0#64 else addr) = some (r, m) →
      memIsApp r.toNat = true → memIsApp (r.toNat + n - 1) = true →
      inOneRegion r.toNat n = true

section Proof

variable {P : PageMapper} {c : Convention} {t : Uptr} {mem m : Mem} {addr length a r : Uptr}
  {fixed : Bool} {k : MmapKernel P.page length fixed mem} {out : MmapOut}

/-- For a length that the kernel accepts the machine arithmetic does not wrap. -/
theorem MmapKernel.toNat_rounded (h : k.answer a = some (r, m)) :
    (roundUpTo length P.page).toNat = pageRounded P.page.toNat length.toNat ∧
      0 < pageRounded P.page.toNat length.toNat := by
  obtain ⟨j, hj⟩ := P.page_pow
  have hfits := k.fits a r m h
  have hlen : length.toNat ≠ 0 := fun h0 =>
    k.length_ne a r m h (BitVec.eq_of_toNat_eq (by simpa using h0))
  have hpos : 0 < P.page.toNat := by rw [hj]; positivity
  -- the rounded length is a multiple of the page size below `2 ^ 64`
  have hle : length.toNat ≤ pageRounded P.page.toNat length.toNat := by
    have hdm := Nat.div_add_mod (length.toNat + P.page.toNat - 1) P.page.toNat
    have hmod := Nat.mod_lt (length.toNat + P.page.toNat - 1) hpos
    rw [pageRounded, mul_comm]
    omega
  have hroom : pageRounded P.page.toNat length.toNat + P.page.toNat ≤ 2 ^ 64 := by
    have hjlt : j < 64 := by
      have hlt := P.page.isLt
      rw [hj] at hlt
      exact (Nat.pow_lt_pow_iff_right (by norm_num)).mp hlt
    have hdvd : P.page.toNat ∣ 2 ^ 64 - pageRounded P.page.toNat length.toNat := by
      refine Nat.dvd_sub ?_ (Nat.dvd_mul_left _ _)
      rw [hj]
      exact pow_dvd_pow 2 hjlt.le
    have hge := Nat.le_of_dvd (by omega) hdvd
    omega
  refine ⟨?_, by omega⟩
  rw [toNat_roundUpTo hj (by omega)]
  rfl

/-- The last address of a mapping the kernel returned. -/
theorem MmapKernel.toNat_endRes (h : k.answer a = some (r, m)) :
    (r + (roundUpTo length P.page - 1#64)).toNat =
      r.toNat + pageRounded P.page.toNat length.toNat - 1 := by
  obtain ⟨hround, hpos⟩ := MmapKernel.toNat_rounded h
  have hfits := k.fits a r m h
  bv_omega

/-- The shadow after a mapping of application memory is returned. -/
theorem unpoison_mapping (hans : k.answer a = some (r, m))
    (hrange : AppRange r.toNat (pageRounded P.page.toNat length.toNat)) {m' : Mem}
    (h : P.unpoison c t m r (roundUpTo length P.page) = some m') :
    (∀ x, inRange r.toNat (pageRounded P.page.toNat length.toNat) x = true →
      m' (shadowOf x) = c.cleanByte) ∧
    ∀ x, memIsApp x = true → inRange r.toNat (pageRounded P.page.toNat length.toNat) x = false →
      m' (shadowOf x) = mem (shadowOf x) := by
  obtain ⟨hround, hpos⟩ := MmapKernel.toNat_rounded hans
  have happ : memIsApp r.toNat = true := hrange 0 hpos
  have hrange' : AppRange r.toNat (roundUpTo length P.page).toNat := by rwa [hround]
  have hspace : (memToShadow r).toNat + (roundUpTo length P.page).toNat ≤ 2 ^ 62 :=
    shadow_range_le hrange' ((lt_of_memIsApp happ).trans (by norm_num))
  simp only [PageMapper.unpoison, happ, Bool.not_true, Bool.false_eq_true, if_false] at h
  rw [PageMapper.setShadow_eq_fill hspace h, toNat_memToShadow, hround]
  constructor
  · intro x hx
    have hx' : r.toNat ≤ x ∧ x < r.toNat + pageRounded P.page.toNat length.toNat := by
      simpa [inRange] using hx
    rw [fill_apply, if_pos ((mem_shadow_range hrange).mpr hx')]
  · intro x hxapp hx
    have hx' : ¬ (r.toNat ≤ x ∧ x < r.toNat + pageRounded P.page.toNat length.toNat) := by
      simpa [inRange] using hx
    rw [fill_apply, if_neg (fun h => hx' ((mem_shadow_range hrange).mp h))]
    -- shadow memory is not application memory, so the mapping did not touch it
    refine k.frame a r m _ hans ?_
    rw [← Bool.not_eq_true]
    intro hin
    have hin' : r.toNat ≤ shadowOf x ∧
        shadowOf x < r.toNat + pageRounded P.page.toNat length.toNat := by
      simpa [inRange] using hin
    have hboth := hrange (shadowOf x - r.toNat) (by omega)
    rw [show r.toNat + (shadowOf x - r.toNat) = shadowOf x by omega,
      memIsApp_shadowOf hxapp] at hboth
    cases hboth

theorem passedToKernel_none (h : passedToKernel P.page addr length fixed = none) :
    outsideApp P.page addr length = true ∧ fixed = true := by
  rw [passedToKernel] at h
  split_ifs at h with hout hfixed
  exact ⟨hout, hfixed⟩

/-- A fixed request is passed on with its own address, after the test on its ends. -/
theorem passedToKernel_some (h : passedToKernel P.page addr length fixed = some a) :
    a = (if outsideApp P.page addr length then 0#64 else addr) ∧
      (fixed = true → outsideApp P.page addr length = false ∧ a = addr) := by
  rw [passedToKernel] at h
  split_ifs at h with hout hfixed
  · cases h
    exact ⟨by rw [if_pos hout], fun hf => absurd hf hfixed⟩
  · cases h
    exact ⟨by rw [if_neg hout], fun _ => ⟨by simpa using hout, rfl⟩⟩

/-- What a call can do: refuse; pass the request on and get an error; return the mapping; or unmap
it again. -/
theorem mmapInterceptor_cases (h : mmapInterceptor P c t mem addr length fixed k = some out) :
    (passedToKernel P.page addr length fixed = none ∧ out = ⟨none, none, mem, fun _ => false⟩) ∨
    ∃ a, passedToKernel P.page addr length fixed = some a ∧
      ((k.answer a = none ∧ out = ⟨some a, none, mem, fun _ => false⟩) ∨
      ∃ r m, k.answer a = some (r, m) ∧
        ((memIsApp r.toNat = true ∧
          memIsApp (r.toNat + pageRounded P.page.toNat length.toNat - 1) = true ∧
          ∃ m', P.unpoison c t m r (roundUpTo length P.page) = some m' ∧
            out = ⟨some a, some r, m', inRange r.toNat (pageRounded P.page.toNat length.toNat)⟩) ∨
        (¬ (memIsApp r.toNat = true ∧
          memIsApp (r.toNat + pageRounded P.page.toNat length.toNat - 1) = true) ∧
          out.passed = some a ∧ out.ret = none ∧ ∀ x, out.created x = false))) := by
  simp only [mmapInterceptor] at h
  cases hpass : passedToKernel P.page addr length fixed with
  | none =>
    simp only [hpass] at h
    exact Or.inl ⟨rfl, (Option.some.inj h).symm⟩
  | some a =>
    simp only [hpass] at h
    refine Or.inr ⟨a, rfl, ?_⟩
    cases hans : k.answer a with
    | none =>
      simp only [hans] at h
      exact Or.inl ⟨rfl, (Option.some.inj h).symm⟩
    | some p =>
      obtain ⟨r, m⟩ := p
      simp only [hans, MmapKernel.toNat_endRes hans] at h
      refine Or.inr ⟨r, m, rfl, ?_⟩
      by_cases hends : memIsApp r.toNat = true ∧
          memIsApp (r.toNat + pageRounded P.page.toNat length.toNat - 1) = true
      · rw [if_pos (by simpa using hends)] at h
        obtain ⟨m', hm', hout⟩ := Option.map_eq_some_iff.mp h
        exact Or.inl ⟨hends.1, hends.2, m', hm', hout.symm⟩
      · rw [if_neg (by simpa using hends)] at h
        obtain rfl := Option.some.inj h
        refine Or.inr ⟨hends, rfl, rfl, fun x => ?_⟩
        simp [internalMunmap]

/-- A call that fails and left nothing mapped is safe if a fixed request was. -/
theorem MmapSafe.of_failed {n : ℕ} (hret : out.ret = none) (hcreated : ∀ x, out.created x = false)
    (hfixed : ∀ a, fixed = true → out.passed = some a → AppRange a.toNat n) :
    MmapSafe c mem n fixed out := by
  have hno : ∀ r, out.ret ≠ some r := by
    intro r hr
    rw [hret] at hr
    cases hr
  exact ⟨hfixed, fun r hr => absurd hr (hno r), fun r _ hr => absurd hr (hno r),
    fun r _ hr => absurd hr (hno r), fun _ => hcreated⟩

/-- What a call that returns passed to the kernel. -/
theorem passed_eq (h : mmapInterceptor P c t mem addr length fixed k = some out) :
    out.passed = passedToKernel P.page addr length fixed := by
  rcases mmapInterceptor_cases h with
    ⟨hnone, rfl⟩ | ⟨a, ha, ⟨-, rfl⟩ | ⟨r, m, -, ⟨-, -, m', -, rfl⟩ | ⟨-, hp, -⟩⟩⟩
  · exact hnone.symm
  · exact ha.symm
  · exact ha.symm
  · rw [hp, ha]

/-- The test on the ends, for a fixed request of `n` bytes: every request that is passed to the
kernel is inside application memory iff those that pass the test are in one region. -/
theorem fixed_app_iff {n : ℕ} :
    (∀ a, fixed = true → passedToKernel P.page addr length fixed = some a →
      AppRange a.toNat n) ↔
    (fixed = true → outsideApp P.page addr length = false → inOneRegion addr.toNat n = true) := by
  constructor
  · intro h hf hout
    refine appRange_iff.mp (h addr hf ?_)
    rw [passedToKernel, hout, if_neg Bool.false_ne_true]
  · intro h a hf ha
    obtain ⟨-, hfix⟩ := passedToKernel_some ha
    obtain ⟨hout, rfl⟩ := hfix hf
    exact appRange_iff.mpr (h hf hout)

end Proof

/-- **`mmap` keeps the application out of sanitizer memory iff the ends it tests are in one
region.** For every address, length and flags, every answer of the kernel, every page size and
every convention: a fixed request reaches the kernel for application memory only, whether the call
returns or dies in `SetShadow`, if and only if the request lies in one application region when it
passes the test on its two ends; and a call that returns is safe if and only if moreover a mapping
that the kernel chose, and whose ends are application addresses, lies in one region. -/
theorem mmapSafe_iff (P : PageMapper) (c : Convention) (t : Uptr) (mem : Mem)
    (addr length : Uptr) (fixed : Bool) (k : MmapKernel P.page length fixed mem) :
    ((∀ a, fixed = true → passedToKernel P.page addr length fixed = some a →
        AppRange a.toNat (pageRounded P.page.toNat length.toNat)) ↔
      (fixed = true → outsideApp P.page addr length = false →
        inOneRegion addr.toNat (pageRounded P.page.toNat length.toNat) = true)) ∧
    ∀ out, mmapInterceptor P c t mem addr length fixed k = some out →
      out.passed = passedToKernel P.page addr length fixed ∧
      (MmapSafe c mem (pageRounded P.page.toNat length.toNat) fixed out ↔
        EndsInOneRegion P mem addr length fixed k) := by
  refine ⟨fixed_app_iff, fun out h => ⟨passed_eq h, ?_⟩⟩
  constructor
  · intro hsafe
    refine ⟨fixed_app_iff.mp fun a hf ha => hsafe.fixed_app a hf ((passed_eq h).trans ha), ?_⟩
    intro r m hf hans hr hend
    rcases mmapInterceptor_cases h with
      ⟨hnone, -⟩ | ⟨a, ha, ⟨hnone, -⟩ | ⟨r', m₁, hans', ⟨-, -, m', -, rfl⟩ | ⟨hnot, -⟩⟩⟩
    · rw [(passedToKernel_none hnone).2] at hf
      cases hf
    · rw [← (passedToKernel_some ha).1, hnone] at hans
      cases hans
    · rw [← (passedToKernel_some ha).1, hans'] at hans
      cases hans
      exact appRange_iff.mp (hsafe.ret_app _ rfl)
    · rw [← (passedToKernel_some ha).1, hans'] at hans
      cases hans
      exact absurd ⟨hr, hend⟩ hnot
  · rintro ⟨hcond, hchosen⟩
    have hfixed : ∀ a, fixed = true → out.passed = some a →
        AppRange a.toNat (pageRounded P.page.toNat length.toNat) := fun a hf ha =>
      fixed_app_iff.mpr hcond a hf ((passed_eq h).symm.trans ha)
    rcases mmapInterceptor_cases h with
      ⟨-, rfl⟩ | ⟨a, ha, ⟨-, rfl⟩ | ⟨r, m, hans, ⟨hr, hend, m', hm', rfl⟩ | ⟨-, -, hret, hcr⟩⟩⟩
    · exact .of_failed rfl (fun _ => rfl) hfixed
    · exact .of_failed rfl (fun _ => rfl) hfixed
    · have hrange : AppRange r.toNat (pageRounded P.page.toNat length.toNat) := by
        cases hf : fixed with
        | true =>
          rw [k.at_addr a r m hf hans]
          exact hfixed a hf rfl
        | false =>
          rw [(passedToKernel_some ha).1] at hans
          exact appRange_iff.mpr (hchosen r m hf hans hr hend)
      obtain ⟨hclean, hframe⟩ := unpoison_mapping hans hrange hm'
      refine ⟨hfixed, ?_, ?_, ?_, ?_⟩
      · rintro _ ⟨⟩
        exact hrange
      · rintro _ x ⟨⟩ hx
        exact hclean x hx
      · rintro _ x ⟨⟩ happ hx
        exact hframe x happ hx
      · rintro ⟨⟩
    · exact .of_failed hret hcr hfixed

/-- A kernel that places two pages at `0x7f0000000000`. -/
def twoPagesKernel (mem : Mem) : MmapKernel linuxPages.page 0x1800#64 false mem where
  answer _ := some (0x7f0000000000#64, mem)
  length_ne _ _ _ _ := by decide
  fits := by
    rintro _ _ _ ⟨⟩
    decide
  at_addr := by
    rintro _ _ _ ⟨⟩
  frame := by
    rintro _ _ _ _ ⟨⟩ _
    rfl

/-- A hint into shadow memory is dropped, and the two pages the kernel chose are clean. -/
theorem mmapSafe_twoPages :
    ∃ out, mmapInterceptor linuxPages .default 0#64 (fun _ => 0xff#8) 0x020000000000#64 0x1800#64
        false (twoPagesKernel _) = some out ∧
      out.passed = some 0#64 ∧ out.ret = some 0x7f0000000000#64 ∧
      MmapSafe .default (fun _ => 0xff#8) (pageRounded linuxPages.page.toNat 0x1800) false out := by
  have hsome : (linuxPages.setShadow 0#64 (fun _ => 0xff#8) 0x7f0000000000#64 0x2000#64
      0#8).isSome = true := PageMapper.isSome_setShadow fun _ _ _ => rfl
  obtain ⟨m', hm'⟩ := Option.isSome_iff_exists.mp hsome
  have hcall : mmapInterceptor linuxPages .default 0#64 (fun _ => 0xff#8) 0x020000000000#64
      0x1800#64 false (twoPagesKernel _) = some ⟨some 0#64, some 0x7f0000000000#64, m',
        inRange 0x7f0000000000 (pageRounded linuxPages.page.toNat 0x1800)⟩ := by
    have hround : roundUpTo 0x1800#64 linuxPages.page = 0x2000#64 := by decide
    have hpass : passedToKernel linuxPages.page 0x020000000000#64 0x1800#64 false = some 0#64 := by
      decide
    have happ : memIsApp (0x7f0000000000#64).toNat = true := by decide
    simp only [mmapInterceptor, twoPagesKernel, hround, hpass, PageMapper.unpoison, happ,
      Convention.cleanByte, hm']
    rfl
  refine ⟨_, hcall, rfl, rfl,
    ((mmapSafe_iff linuxPages .default 0#64 _ _ _ _ _).2 _ hcall).2.mpr ?_⟩
  refine ⟨fun hf => ?_, ?_⟩
  · cases hf
  · rintro _ _ _ ⟨⟩ _ _
    decide

/-- A kernel that grants the fixed request for `[0x5ffffffff000, 0x700000001000)`. -/
def straddlingKernel (mem : Mem) : MmapKernel linuxPages.page 0x100000002000#64 true mem where
  answer a :=
    if a = 0x5ffffffff000#64 then some (a, fill mem 0x5ffffffff000 0x100000002000 0#8) else none
  length_ne _ _ _ _ := by decide
  fits a r m h := by
    split_ifs at h with ha
    cases h
    rw [ha]
    decide
  at_addr a r m _ h := by
    split_ifs at h
    cases h
    rfl
  frame a r m x h hx := by
    split_ifs at h with ha
    cases h
    rw [fill_apply, if_neg]
    rintro ⟨h1, h2⟩
    have hin : inRange 0x5ffffffff000 0x100000002000 x = true := by simp [inRange, h1, h2]
    rw [ha] at hx
    have hsame : inRange (0x5ffffffff000#64).toNat
        (pageRounded linuxPages.page.toNat (0x100000002000#64).toNat) x = true := hin
    rw [hsame] at hx
    cases hx

/-- A fixed mapping of `0x100000002000` bytes at `0x5ffffffff000` has both ends in application
memory and is passed to the kernel, with an origin region inside it. -/
theorem not_mmapSafe_straddling :
    ∃ out, mmapInterceptor linuxPages .default 0#64 (fun _ => 0xff#8) 0x5ffffffff000#64
        0x100000002000#64 true (straddlingKernel _) = some out ∧
      out.passed = some 0x5ffffffff000#64 ∧ out.ret = some 0x5ffffffff000#64 ∧
      ¬ MmapSafe .default (fun _ => 0xff#8) (pageRounded linuxPages.page.toNat 0x100000002000)
        true out := by
  have hsome : (linuxPages.setShadow 0#64 (fill (fun _ => 0xff#8) 0x5ffffffff000 0x100000002000 0#8)
      0x5ffffffff000#64 0x100000002000#64 0#8).isSome = true :=
    PageMapper.isSome_setShadow fun _ _ _ => rfl
  obtain ⟨m', hm'⟩ := Option.isSome_iff_exists.mp hsome
  have hcall : mmapInterceptor linuxPages .default 0#64 (fun _ => 0xff#8) 0x5ffffffff000#64
      0x100000002000#64 true (straddlingKernel _) = some ⟨some 0x5ffffffff000#64,
        some 0x5ffffffff000#64, m',
        inRange 0x5ffffffff000 (pageRounded linuxPages.page.toNat 0x100000002000)⟩ := by
    have hround : roundUpTo 0x100000002000#64 linuxPages.page = 0x100000002000#64 := by decide
    have hpass : passedToKernel linuxPages.page 0x5ffffffff000#64 0x100000002000#64 true =
        some 0x5ffffffff000#64 := by decide
    have happ : memIsApp (0x5ffffffff000#64).toNat = true := by decide
    simp only [mmapInterceptor, straddlingKernel, hround, hpass, PageMapper.unpoison, happ,
      Convention.cleanByte, hm', if_true, if_false, Bool.false_eq_true, Bool.not_true]
    rfl
  refine ⟨_, hcall, rfl, rfl, fun hsafe => ?_⟩
  have hgap := hsafe.fixed_app 0x5ffffffff000#64 rfl rfl 0x1000 (by decide)
  revert hgap
  decide

end CQMSan
