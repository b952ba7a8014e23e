import CQMSan.Lib.ByteMemory
import CQMSan.Runtime.ViolationMap

/-!
# Machine words and the address space

The rounding helpers of `sanitizer_common` on 64-bit words, and the address space of an
x86-64 Linux process: the table `kMemoryLayout`, the tests on it, and the map
`MEM_TO_SHADOW` from an application byte to its shadow byte.

`MEM_TO_SHADOW` is an exclusive or, so it is not additive in general. The application ranges
are laid out so that it is: `AppRange.shadowOf_add` says that the shadow of a range inside one
application mapping is a range.
-/

namespace CQMSan

/-! ### `sanitizer_common` arithmetic -/

/-- `IsPowerOfTwo`; like the source it also accepts zero. -/
def isPowerOfTwo (x : Uptr) : Bool := (x &&& (x - 1#64)) == 0#64

/-- `RoundUpTo`. -/
def roundUpTo (size boundary : Uptr) : Uptr := (size + boundary - 1#64) &&& ~~~(boundary - 1#64)

/-- `RoundDownTo`. -/
def roundDownTo (x boundary : Uptr) : Uptr := x &&& ~~~(boundary - 1#64)

/-- `IsAligned`. -/
def isAligned (a alignment : Uptr) : Bool := (a &&& (alignment - 1#64)) == 0#64

/-- A non-zero word accepted by `isPowerOfTwo` is a power of two. -/
theorem exists_eq_two_pow {x : Uptr} (h : isPowerOfTwo x = true) (hx : x ≠ 0#64) :
    ∃ k < 64, x.toNat = 2 ^ k := by
  have hx0 : x.toNat ≠ 0 := fun h0 => hx (BitVec.eq_of_toNat_eq (by simpa using h0))
  have hand : x.toNat &&& (x.toNat - 1) = 0 := by
    have h' : x &&& (x - 1#64) = 0#64 := by simpa [isPowerOfTwo] using h
    have hsub : (x - 1#64).toNat = x.toNat - 1 := by bv_omega
    simpa [hsub] using congrArg BitVec.toNat h'
  obtain ⟨k, hk⟩ := (Nat.and_sub_one_eq_zero_iff_isPowerOfTwo hx0).mp hand
  refine ⟨k, ?_, hk⟩
  have hlt := x.isLt
  rw [hk] at hlt
  exact (Nat.pow_lt_pow_iff_right (by norm_num)).mp hlt

private theorem and_mask_eq {x k : ℕ} (hx : x < 2 ^ 64) (hk : k ≤ 64) :
    x &&& (2 ^ 64 - 2 ^ k) = x / 2 ^ k * 2 ^ k := by
  have hpow : 2 ^ 64 = 2 ^ (64 - k) * 2 ^ k := by rw [← pow_add, Nat.sub_add_cancel hk]
  have hmask : 2 ^ 64 - 2 ^ k = (2 ^ (64 - k) - 1) * 2 ^ k := by rw [Nat.sub_mul, ← hpow, one_mul]
  have hdiv : (x &&& (2 ^ 64 - 2 ^ k)) / 2 ^ k = x / 2 ^ k := by
    rw [Nat.and_div_two_pow, hmask, Nat.mul_div_cancel _ (by positivity),
      Nat.and_two_pow_sub_one_eq_mod]
    exact Nat.mod_eq_of_lt (Nat.div_lt_of_lt_mul (by rwa [mul_comm, ← hpow]))
  have hmod : (x &&& (2 ^ 64 - 2 ^ k)) % 2 ^ k = 0 := by
    rw [Nat.and_mod_two_pow, hmask, Nat.mul_mod_left, Nat.and_zero]
  calc x &&& (2 ^ 64 - 2 ^ k)
      = 2 ^ k * ((x &&& (2 ^ 64 - 2 ^ k)) / 2 ^ k) + (x &&& (2 ^ 64 - 2 ^ k)) % 2 ^ k :=
        (Nat.div_add_mod _ _).symm
    _ = x / 2 ^ k * 2 ^ k := by rw [hdiv, hmod, Nat.add_zero, mul_comm]

theorem toNat_roundDownTo {x b : Uptr} {k : ℕ} (hb : b.toNat = 2 ^ k) :
    (roundDownTo x b).toNat = x.toNat / b.toNat * b.toNat := by
  have hk : k ≤ 64 := by
    have hlt := b.isLt
    rw [hb] at hlt
    exact ((Nat.pow_lt_pow_iff_right (by norm_num)).mp hlt).le
  have hpos : 0 < 2 ^ k := by positivity
  have hmask : (~~~(b - 1#64)).toNat = 2 ^ 64 - 2 ^ k := by bv_omega
  rw [roundDownTo, BitVec.toNat_and, hmask, and_mask_eq x.isLt hk, hb]

theorem toNat_roundUpTo {x b : Uptr} {k : ℕ} (hb : b.toNat = 2 ^ k)
    (hx : x.toNat + b.toNat ≤ 2 ^ 64) :
    (roundUpTo x b).toNat = (x.toNat + b.toNat - 1) / b.toNat * b.toNat := by
  have hpos : 0 < 2 ^ k := by positivity
  have hsum : (x + b - 1#64).toNat = x.toNat + b.toNat - 1 := by bv_omega
  rw [show roundUpTo x b = roundDownTo (x + b - 1#64) b from rfl, toNat_roundDownTo hb, hsum]

/-- Rounding up goes to a multiple of the boundary less than one boundary above. -/
theorem roundUpTo_bounds {x b : Uptr} {k : ℕ} (hb : b.toNat = 2 ^ k)
    (hx : x.toNat + b.toNat ≤ 2 ^ 64) :
    b.toNat ∣ (roundUpTo x b).toNat ∧ x.toNat ≤ (roundUpTo x b).toNat ∧
      (roundUpTo x b).toNat < x.toNat + b.toNat := by
  have hpos : 0 < b.toNat := by rw [hb]; positivity
  have hdm := Nat.div_add_mod (x.toNat + b.toNat - 1) b.toNat
  have hmod := Nat.mod_lt (x.toNat + b.toNat - 1) hpos
  rw [toNat_roundUpTo hb hx]
  refine ⟨Nat.dvd_mul_left _ _, ?_, ?_⟩ <;> rw [mul_comm] <;> omega

/-- Rounding down goes to a multiple of the boundary less than one boundary below. -/
theorem roundDownTo_bounds {x b : Uptr} {k : ℕ} (hb : b.toNat = 2 ^ k) :
    (roundDownTo x b).toNat ≤ x.toNat ∧ x.toNat < (roundDownTo x b).toNat + b.toNat := by
  have hpos : 0 < b.toNat := by rw [hb]; positivity
  have hdm := Nat.div_add_mod x.toNat b.toNat
  have hmod := Nat.mod_lt x.toNat hpos
  rw [toNat_roundDownTo hb]
  constructor <;> rw [mul_comm] <;> omega

/-! ### The memory layout -/

/-- `MappingDesc::Type`. -/
inductive MappingType
  | invalid | allocator | app | shadow | origin
deriving DecidableEq, Repr

/-- `MappingDesc`, without the name. -/
structure MappingDesc where
  /-- First address of the mapping. -/
  start : ℕ
  /-- First address after it. -/
  stop : ℕ
  /-- What the mapping holds. -/
  type : MappingType
deriving DecidableEq, Repr

/-- `kMemoryLayout` of 64-bit Linux. -/
def kMemoryLayout : List MappingDesc :=
  [⟨0x000000000000, 0x010000000000, .app⟩,
   ⟨0x010000000000, 0x100000000000, .shadow⟩,
   ⟨0x100000000000, 0x110000000000, .invalid⟩,
   ⟨0x110000000000, 0x200000000000, .origin⟩,
   ⟨0x200000000000, 0x300000000000, .shadow⟩,
   ⟨0x300000000000, 0x400000000000, .origin⟩,
   ⟨0x400000000000, 0x500000000000, .invalid⟩,
   ⟨0x500000000000, 0x510000000000, .shadow⟩,
   ⟨0x510000000000, 0x600000000000, .app⟩,
   ⟨0x600000000000, 0x610000000000, .origin⟩,
   ⟨0x610000000000, 0x700000000000, .invalid⟩,
   ⟨0x700000000000, 0x740000000000, .allocator⟩,
   ⟨0x740000000000, 0x800000000000, .app⟩]

/-- `addr_is_type`; the bit mask of types is a list. -/
def addrIsType (addr : ℕ) (types : List MappingType) : Bool :=
  kMemoryLayout.any fun d => decide (d.type ∈ types) && decide (d.start ≤ addr) &&
    decide (addr < d.stop)

/-- `MEM_IS_APP`. -/
def memIsApp (addr : ℕ) : Bool := addrIsType addr [.app, .allocator]

/-- `MEM_IS_SHADOW`. -/
def memIsShadow (addr : ℕ) : Bool := addrIsType addr [.shadow]

/-- `MEM_IS_ORIGIN`. -/
def memIsOrigin (addr : ℕ) : Bool := addrIsType addr [.origin]

/-- `MEM_TO_SHADOW`. -/
def memToShadow (mem : Uptr) : Uptr := mem ^^^ 0x500000000000#64

/-- `SHADOW_TO_ORIGIN`. -/
def shadowToOrigin (mem : Uptr) : Uptr := mem + 0x100000000000#64

/-- `MEM_TO_SHADOW` on addresses. -/
def shadowOf (a : ℕ) : ℕ := a ^^^ 0x500000000000

theorem toNat_memToShadow (p : Uptr) : (memToShadow p).toNat = shadowOf p.toNat :=
  BitVec.toNat_xor ..

theorem memIsApp_iff {a : ℕ} :
    memIsApp a = true ↔ a < 0x010000000000 ∨ (0x510000000000 ≤ a ∧ a < 0x600000000000) ∨
      (0x700000000000 ≤ a ∧ a < 0x800000000000) := by
  simp only [memIsApp, addrIsType, kMemoryLayout, List.any_cons, List.any_nil, List.mem_cons,
    List.not_mem_nil, or_false, Bool.or_eq_true, Bool.and_eq_true, decide_eq_true_eq,
    reduceCtorEq, or_true, false_or, true_and, false_and, Bool.false_eq_true]
  omega

/-- Application addresses have 47 bits. -/
theorem lt_of_memIsApp {a : ℕ} (h : memIsApp a = true) : a < 0x800000000000 := by
  rw [memIsApp_iff] at h
  omega

theorem shadowOf_injective : Function.Injective shadowOf := fun a b h => by
  have h' := congrArg (· ^^^ 0x500000000000) h
  simpa only [shadowOf, Nat.xor_assoc, Nat.xor_self, Nat.xor_zero] using h'

/-- Inside a window of `2 ^ 44` bytes the exclusive or only moves the window. -/
theorem shadowOf_window (q r : ℕ) (hr : r < 2 ^ 44) :
    shadowOf (2 ^ 44 * q + r) = 2 ^ 44 * (q ^^^ 5) + r := by
  have hc : (0x500000000000 : ℕ) = 2 ^ 44 * 5 := by norm_num
  have hdiv : (shadowOf (2 ^ 44 * q + r)) / 2 ^ 44 = q ^^^ 5 := by
    rw [shadowOf, Nat.xor_div_two_pow, hc, Nat.mul_div_cancel_left _ (by positivity),
      Nat.mul_add_div (by positivity), Nat.div_eq_of_lt hr, Nat.add_zero]
  have hmod : (shadowOf (2 ^ 44 * q + r)) % 2 ^ 44 = r := by
    rw [shadowOf, Nat.xor_mod_two_pow, hc, Nat.mul_mod_right, Nat.mul_add_mod,
      Nat.mod_eq_of_lt hr, Nat.xor_zero]
  have hdm := Nat.div_add_mod (shadowOf (2 ^ 44 * q + r)) (2 ^ 44)
  rw [hdiv, hmod] at hdm
  exact hdm.symm

theorem shadowOf_shadowOf (a : ℕ) : shadowOf (shadowOf a) = a := by
  rw [shadowOf, shadowOf, Nat.xor_assoc, Nat.xor_self, Nat.xor_zero]

theorem memIsShadow_iff {a : ℕ} :
    memIsShadow a = true ↔ (0x010000000000 ≤ a ∧ a < 0x100000000000) ∨
      (0x200000000000 ≤ a ∧ a < 0x300000000000) ∨ (0x500000000000 ≤ a ∧ a < 0x510000000000) := by
  simp only [memIsShadow, addrIsType, kMemoryLayout, List.any_cons, List.any_nil, List.mem_cons,
    List.not_mem_nil, or_false, Bool.or_eq_true, Bool.and_eq_true, decide_eq_true_eq,
    reduceCtorEq, false_or, true_and, false_and, Bool.false_eq_true]

/-- The shadow of an address by its window: the eight windows of `2 ^ 44` bytes below `2 ^ 47`
are permuted. -/
private theorem shadowOf_cases {a : ℕ} (h : a < 0x800000000000) :
    (a < 0x100000000000 ∧ shadowOf a = a + 0x500000000000) ∨
    (0x100000000000 ≤ a ∧ a < 0x200000000000 ∧ shadowOf a = a + 0x300000000000) ∨
    (0x200000000000 ≤ a ∧ a < 0x300000000000 ∧ shadowOf a = a + 0x500000000000) ∨
    (0x300000000000 ≤ a ∧ a < 0x400000000000 ∧ shadowOf a = a + 0x300000000000) ∨
    (0x400000000000 ≤ a ∧ a < 0x500000000000 ∧ shadowOf a + 0x300000000000 = a) ∨
    (0x500000000000 ≤ a ∧ a < 0x600000000000 ∧ shadowOf a + 0x500000000000 = a) ∨
    (0x600000000000 ≤ a ∧ a < 0x700000000000 ∧ shadowOf a + 0x300000000000 = a) ∨
    (0x700000000000 ≤ a ∧ shadowOf a + 0x500000000000 = a) := by
  have hq : a / 2 ^ 44 < 8 := Nat.div_lt_of_lt_mul (by norm_num; omega)
  have hdm := Nat.div_add_mod a (2 ^ 44)
  have hr := Nat.mod_lt a (show 0 < 2 ^ 44 by positivity)
  have hs := shadowOf_window (a / 2 ^ 44) (a % 2 ^ 44) hr
  rw [hdm] at hs
  generalize a / 2 ^ 44 = q at hq hdm hs
  generalize a % 2 ^ 44 = r at hr hdm hs
  interval_cases q <;> simp only [Nat.reduceXor] at hs <;> norm_num at hs hdm hr <;> omega

/-- An address is application memory iff its shadow address is shadow memory. -/
theorem memIsShadow_shadowOf {a : ℕ} : memIsShadow (shadowOf a) = true ↔ memIsApp a = true := by
  have hlt : a < 0x800000000000 ∨ 0x800000000000 ≤ shadowOf a ∧ 0x800000000000 ≤ a := by
    by_cases ha : a < 0x800000000000
    · exact Or.inl ha
    · refine Or.inr ⟨?_, by omega⟩
      by_contra hs
      have hback := shadowOf_cases (Nat.lt_of_not_le hs)
      rw [shadowOf_shadowOf] at hback
      omega
  rw [memIsShadow_iff, memIsApp_iff]
  rcases hlt with hlt | hlt
  · have := shadowOf_cases hlt
    omega
  · omega

/-- The range `[p, p + n)` lies inside the application part of the address space. -/
def AppRange (p n : ℕ) : Prop := ∀ i < n, memIsApp (p + i) = true

/-- A range that starts and ends in application memory need not stay inside; one that does
stays inside one window of `MEM_TO_SHADOW`. -/
theorem AppRange.window {p n : ℕ} (h : AppRange p n) {i : ℕ} (hi : i < n) :
    p / 2 ^ 44 = (p + i) / 2 ^ 44 := by
  have h0 := memIsApp_iff.mp (h 0 (by omega))
  have hI := memIsApp_iff.mp (h i hi)
  have hgap1 : ¬ (p < 0x010000000000 ∧ 0x010000000000 ≤ p + i) := by
    rintro ⟨h1, h2⟩
    have := memIsApp_iff.mp (h (0x010000000000 - p) (by omega))
    omega
  have hgap2 : ¬ (p < 0x600000000000 ∧ 0x600000000000 ≤ p + i) := by
    rintro ⟨h1, h2⟩
    have := memIsApp_iff.mp (h (0x600000000000 - p) (by omega))
    omega
  norm_num at h0 hI hgap1 hgap2 ⊢
  omega

/-- **The shadow of an application range is a range.** -/
theorem AppRange.shadowOf_add {p n i : ℕ} (h : AppRange p n) (hi : i < n) :
    shadowOf (p + i) = shadowOf p + i := by
  have hw := h.window hi
  have hp := Nat.div_add_mod p (2 ^ 44)
  have hpi := Nat.div_add_mod (p + i) (2 ^ 44)
  have hr := Nat.mod_lt p (show 0 < 2 ^ 44 by positivity)
  have hri := Nat.mod_lt (p + i) (show 0 < 2 ^ 44 by positivity)
  rw [← hpi, shadowOf_window _ _ hri, ← hw]
  conv_rhs => rw [← hp, shadowOf_window _ _ hr]
  omega

theorem AppRange.mono {p n q k : ℕ} (h : AppRange p n) (hp : p ≤ q) (hn : q + k ≤ p + n) :
    AppRange q k := by
  intro i hi
  have := h (q + i - p) (by omega)
  rwa [show p + (q + i - p) = q + i by omega] at this

theorem AppRange.lt {p n : ℕ} (h : AppRange p n) (hn : 0 < n) : p + n ≤ 0x800000000000 := by
  have := lt_of_memIsApp (h (n - 1) (by omega))
  omega

end CQMSan
