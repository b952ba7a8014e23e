import CQMSan.Pass.Visitor
import CQMSan.Runtime.Layout

/-!
# The address mapping of the pass and of the runtime

The pass computes shadow addresses with an exclusive or (`getShadowPtrOffset`), the runtime with
`MEM_TO_SHADOW`, and the layout is the table `kMemoryLayout`. The three agree: on the application
part of the address space the mapping is a bijection onto the shadow part, and from there
`SHADOW_TO_ORIGIN` is one onto the origin part (`bijOn_memToShadow`, `bijOn_shadowToOrigin`).

An address that is a base plus a constant gets its shadow address from the shadow of the base by
an addition. That is right because an object lies inside contiguous application addresses
(`memToShadow_add`), also where these straddle two mappings. The shadow of a base may have been
computed by an earlier call, so the result of a call of `getShadowPtr` is determined by what it
emits and by what one earlier call emitted (`getShadowPtr_agrees`).
-/

namespace CQMSan

/-! ### The table -/

theorem memIsOrigin_iff {a : ℕ} :
    memIsOrigin a = true ↔ (0x110000000000 ≤ a ∧ a < 0x200000000000) ∨
      (0x300000000000 ≤ a ∧ a < 0x400000000000) ∨ (0x600000000000 ≤ a ∧ a < 0x610000000000) := by
  simp only [memIsOrigin, addrIsType, kMemoryLayout, List.any_cons, List.any_nil, List.mem_cons,
    List.not_mem_nil, or_false, Bool.or_eq_true, Bool.and_eq_true, decide_eq_true_eq,
    reduceCtorEq, false_or, true_and, false_and, Bool.false_eq_true]

theorem memToShadow_involutive : Function.Involutive memToShadow := fun a => by
  rw [memToShadow, memToShadow, BitVec.xor_assoc, BitVec.xor_self, BitVec.xor_zero]

theorem lt_of_memIsShadow {a : ℕ} (h : memIsShadow a = true) : a < 0x510000000000 := by
  rw [memIsShadow_iff] at h
  omega

/-- **The shadow mapping is a bijection from application memory onto shadow memory.** -/
theorem bijOn_memToShadow :
    Set.BijOn memToShadow {a | memIsApp a.toNat = true} {a | memIsShadow a.toNat = true} := by
  refine ⟨fun a ha => ?_, memToShadow_involutive.injective.injOn, fun s hs => ?_⟩
  · rw [Set.mem_ofPred_eq, toNat_memToShadow]
    exact memIsShadow_shadowOf.mpr ha
  · refine ⟨memToShadow s, ?_, memToShadow_involutive s⟩
    rw [Set.mem_ofPred_eq, toNat_memToShadow, ← memIsShadow_shadowOf, shadowOf_shadowOf]
    exact hs

theorem toNat_shadowToOrigin {a : Uptr} (h : a.toNat < 0x800000000000) :
    (shadowToOrigin a).toNat = a.toNat + 0x100000000000 := by
  rw [shadowToOrigin]
  bv_omega

/-- **The origin mapping is a bijection from shadow memory onto origin memory.** -/
theorem bijOn_shadowToOrigin :
    Set.BijOn shadowToOrigin {a | memIsShadow a.toNat = true} {a | memIsOrigin a.toNat = true} := by
  refine ⟨fun a ha => ?_, (add_left_injective _).injOn, fun o ho => ?_⟩
  · have hlt := lt_of_memIsShadow ha
    rw [Set.mem_ofPred_eq, toNat_shadowToOrigin (by omega), memIsOrigin_iff]
    have := memIsShadow_iff.mp ha
    omega
  · have ho' := memIsOrigin_iff.mp ho
    have hsub : (o - 0x100000000000#64).toNat = o.toNat - 0x100000000000 := by bv_omega
    refine ⟨o - 0x100000000000#64, ?_, by rw [shadowToOrigin, BitVec.sub_add_cancel]⟩
    rw [Set.mem_ofPred_eq, hsub, memIsShadow_iff]
    omega

/-! ### Addition in place of the exclusive or -/

/-- Every address from `b` to `b + off`, both included, is application memory. -/
def AppBetween (b : ℕ) (off : ℤ) : Prop :=
  0 ≤ b + off ∧ ∀ x : ℕ, min (b : ℤ) (b + off) ≤ x → (x : ℤ) ≤ max (b : ℤ) (b + off) →
    memIsApp x = true

theorem AppBetween.shadowOf_add {b a : ℕ} {off : ℤ} (h : AppBetween b off)
    (ha : (a : ℤ) = b + off) : (shadowOf a : ℤ) = shadowOf b + off := by
  rcases le_or_gt b a with hle | hlt
  · have hrange : AppRange b (a - b + 1) := fun i hi => h.2 _ (by omega) (by omega)
    have hadd := hrange.shadowOf_add (i := a - b) (by omega)
    rw [Nat.add_sub_cancel' hle] at hadd
    omega
  · have hrange : AppRange a (b - a + 1) := fun i hi => h.2 _ (by omega) (by omega)
    have hadd := hrange.shadowOf_add (i := b - a) (by omega)
    rw [Nat.add_sub_cancel' hlt.le] at hadd
    omega

/-- **The shadow of a base plus an offset is the shadow of the base plus the offset**, when
everything in between is application memory. -/
theorem memToShadow_add {b off : Uptr} (h : AppBetween b.toNat off.toInt) :
    memToShadow b + off = memToShadow (b + off) := by
  have hend : ((b + off).toNat : ℤ) = b.toNat + off.toInt := by
    have hb := lt_of_memIsApp (h.2 b.toNat (min_le_left _ _) (le_max_left _ _))
    have he := lt_of_memIsApp (h.2 (b.toNat + off.toInt).toNat
      (by have := h.1; omega) (by have := h.1; omega))
    have h0 := h.1
    have hoff := BitVec.toInt_eq_toNat_cond off
    rw [BitVec.toNat_add]
    split_ifs at hoff <;> omega
  have hs := h.shadowOf_add hend
  refine BitVec.eq_of_toNat_eq ?_
  have hlt : shadowOf (b + off).toNat < 2 ^ 64 := by
    rw [← toNat_memToShadow]
    exact BitVec.isLt _
  have hoff := BitVec.toInt_eq_toNat_cond off
  rw [BitVec.toNat_add, toNat_memToShadow, toNat_memToShadow]
  split_ifs at hoff <;> omega

/-! ### The pointers the pass computes -/

/-- The value is a pointer, of any address space, with the address `a`. -/
def IsPtr (ρ : Env) (v : Val) (a : ℕ) : Prop := ∃ w, ρ.val v = .int w a

/-- The shadow address by the formula of `MemoryMapParams`. -/
def MemoryMapParams.shadowAddr (p : MemoryMapParams) (addr : Uptr) : Uptr :=
  ((addr &&& ~~~BitVec.ofNat 64 p.andMask) ^^^ BitVec.ofNat 64 p.xorMask) +
    BitVec.ofNat 64 p.shadowBase

theorem shadowAddr_linuxX8664 (a : Uptr) :
    linuxX8664MemoryMapParams.shadowAddr a = memToShadow a := by
  have hmask : ~~~BitVec.ofNat 64 0 = BitVec.allOnes 64 := by rw [← BitVec.not_zero]
  simp only [MemoryMapParams.shadowAddr, linuxX8664MemoryMapParams, hmask, BitVec.and_allOnes,
    BitVec.add_zero, memToShadow]

/-- The full computation of `getShadowPtrUserspace`. -/
def computeShadowPtr (addr : Val) (ty : Ty) : Emit Val := do
  let off ← getShadowPtrOffset addr
  emit .intToPtr [off] ty

section

variable {ρ : Env} {addr : Val} {ty : Ty} {n a : ℕ}

theorem computeShadowPtr_eq (hsat : Sat ρ (computeShadowPtr addr ty n).1) (ha : IsPtr ρ addr a) :
    ρ.val (computeShadowPtr addr ty n).2 = .int 64 (shadowOf a) := by
  obtain ⟨w, ha⟩ := ha
  simp only [computeShadowPtr, getShadowPtrOffset, Emit.bind_run] at hsat ⊢
  obtain ⟨hoff, hptr⟩ := sat_append.mp hsat
  obtain ⟨hlong, hxor⟩ := sat_append.mp hoff
  rw [sat_emit rfl hptr, List.map_singleton, sat_emit rfl hxor, List.map_singleton,
    sat_emit rfl hlong, List.map_singleton, ha]
  rfl

end

/-- What LLVM promises of `GetPointerBaseWithConstantOffset` with inbounds offsets only: the
address is the base plus the offset, and both lie in one object, which lies in contiguous
application memory. -/
def BaseInObject (cx : Ctx) (ρ : Env) (addr : Val) : Prop :=
  ∀ a, IsPtr ρ addr a → ∃ b, IsPtr ρ (cx.pointerBase addr).1 b ∧
    (a : ℤ) = b + (cx.pointerBase addr).2 ∧ AppBetween b (cx.pointerBase addr).2

/-- The caches that calls of `getShadowPtr` produce, with what each call emitted. -/
inductive CacheHistory (cx : Ctx) : Cache → List (List Inst) → Prop
  | empty : CacheHistory cx [] []
  | call {cache : Cache} {es : List (List Inst)} (h : CacheHistory cx cache es)
      (here : List Inst) (addr : Val) (n : ℕ) (out : List Inst) :
      CacheHistory cx (getShadowPtr cx here addr ⟨n, out, cache⟩).2.cache
        (es ++ [(getShadowPtr cx here addr ⟨n, out, cache⟩).2.out])

/-- In the code `e` the value `sb` is the shadow address of `base`. -/
def ShadowOfBase (base sb : Val) (e : List Inst) : Prop :=
  ∀ ρ a, Sat ρ e → IsPtr ρ base a → ρ.val sb = .int 64 (shadowOf a)

theorem ShadowOfBase.append {base sb : Val} {e : List Inst} (h : ShadowOfBase base sb e)
    (xs : List Inst) : ShadowOfBase base sb (e ++ xs) := fun ρ a hsat ha =>
  h ρ a (sat_append.mp hsat).1 ha

/-- Every entry of the cache is the shadow of its base, by the code of one of the calls, which
defines it. -/
def CacheFrom (cache : Cache) (es : List (List Inst)) : Prop :=
  ∀ base sb, (base, sb) ∈ cache →
    ∃ e ∈ es, (∃ m ∈ names e, sb = .inst m .ptr) ∧ ShadowOfBase base sb e

/-- The shadow of a base: found in the cache and usable here, or computed and cached. -/
private theorem getShadowBase_cases (here : List Inst) (base : Val) (b : Builder) :
    ((base, (getShadowBase here base b).1) ∈ b.cache ∧
      shadowBaseUsableHere (getShadowBase here base b).1 (here ++ b.out) = true ∧
      (getShadowBase here base b).2 = b) ∨
    ((getShadowBase here base b).1 = (computeShadowPtr base .ptr b.next).2 ∧
      (getShadowBase here base b).2.out = b.out ++ (computeShadowPtr base .ptr b.next).1 ∧
      (getShadowBase here base b).2.cache = (base, (getShadowBase here base b).1) :: b.cache) := by
  rw [getShadowBase]
  cases hlookup : b.cache.lookup base with
  | none => exact Or.inr ⟨rfl, rfl, rfl⟩
  | some sb =>
    by_cases husable : shadowBaseUsableHere sb (here ++ b.out) = true
    · obtain ⟨l₁, l₂, hl, -⟩ := List.lookup_eq_some_iff.mp hlookup
      simp only [husable, if_true]
      exact Or.inl ⟨by rw [hl]; simp, trivial, trivial⟩
    · simp only [husable]
      exact Or.inr ⟨rfl, rfl, rfl⟩

/-- After `getShadowBase` the cache is right, also when more is emitted; the shadow of the base is
right by the code emitted, or by that of an earlier call whose result is usable here. -/
private theorem getShadowBase_spec {here : List Inst} {base : Val} {b : Builder}
    {es : List (List Inst)} (hc : CacheFrom b.cache es) (xs : List Inst) :
    CacheFrom (getShadowBase here base b).2.cache
        (es ++ [(getShadowBase here base b).2.out ++ xs]) ∧
      ∃ e ∈ es ++ [(getShadowBase here base b).2.out ++ xs],
        (e = (getShadowBase here base b).2.out ++ xs ∨ ∃ m ∈ names e,
          shadowBaseUsableHere (.inst m .ptr) (here ++ b.out) = true) ∧
        ShadowOfBase base (getShadowBase here base b).1 e := by
  rcases getShadowBase_cases here base b with ⟨hmem, husable, hb⟩ | ⟨hsb, hout, hcache⟩
  · rw [hb]
    constructor
    · intro base' sb' hmem'
      obtain ⟨e, he, h⟩ := hc base' sb' hmem'
      exact ⟨e, List.mem_append_left _ he, h⟩
    · obtain ⟨e, he, ⟨m, hm, hsb⟩, h⟩ := hc _ _ hmem
      rw [hsb] at husable
      exact ⟨e, List.mem_append_left _ he, Or.inr ⟨m, hm, husable⟩, h⟩
  · have hnew : ShadowOfBase base (getShadowBase here base b).1
        ((getShadowBase here base b).2.out ++ xs) := by
      refine ShadowOfBase.append (fun ρ a hsat ha => ?_) xs
      rw [hout] at hsat
      rw [hsb]
      exact computeShadowPtr_eq (sat_append.mp hsat).2 ha
    refine ⟨fun base' sb' hmem => ?_,
      _, List.mem_append_right _ (List.mem_singleton_self _), Or.inl rfl, hnew⟩
    rw [hcache] at hmem
    rcases List.mem_cons.mp hmem with heq | hmem
    · obtain ⟨rfl, rfl⟩ := Prod.mk.inj heq
      refine ⟨_, List.mem_append_right _ (List.mem_singleton_self _), ?_, hnew⟩
      refine ⟨b.next + 2, ?_, by rw [hsb]; rfl⟩
      rw [hout, names_append, names_append]
      exact Or.inl (Or.inr ⟨_, List.mem_cons_of_mem _ (List.mem_cons_of_mem _
        List.mem_cons_self), rfl⟩)
    · obtain ⟨e, he, h⟩ := hc base' sb' hmem
      exact ⟨e, List.mem_append_left _ he, h⟩

/-- The `gep` from the shadow of a base gives the shadow of the address. -/
private theorem gepOff_eq {ρ : Env} {sb : Val} {n a c : ℕ} {off : ℤ}
    (hsat : Sat ρ (emit (.gepOff off) [sb] .ptr n).1) (hsb : ρ.val sb = .int 64 (shadowOf c))
    (hac : (a : ℤ) = c + off) (happ : AppBetween c off) :
    ρ.val (emit (.gepOff off) [sb] .ptr n).2 = .int 64 (shadowOf a) := by
  have hadd := happ.shadowOf_add hac
  have hlt : shadowOf a < 2 ^ 64 := by
    have happ' := happ.2 a (by omega) (by omega)
    have := lt_of_memIsShadow (memIsShadow_shadowOf.mpr happ')
    omega
  have hmod : (shadowOf a : ℤ).emod (2 ^ 64) = shadowOf a :=
    Int.emod_eq_of_lt (by omega) (by exact_mod_cast hlt)
  rw [sat_emit rfl hsat, List.map_singleton, hsb, evalSh, ← hadd, hmod, Int.toNat_natCast]

/-- One call: the cache stays right, and the result is right by what the call emitted and, if it
reuses a base, by what the call emitted that had computed the base. -/
private theorem getShadowPtr_spec {cx : Ctx} (here : List Inst) (addr : Val) {b : Builder}
    {es : List (List Inst)} (hc : CacheFrom b.cache es) :
    CacheFrom (getShadowPtr cx here addr b).2.cache (es ++ [(getShadowPtr cx here addr b).2.out]) ∧
      ∃ e ∈ es ++ [(getShadowPtr cx here addr b).2.out],
        (e = (getShadowPtr cx here addr b).2.out ∨ ∃ m ∈ names e,
          shadowBaseUsableHere (.inst m .ptr) (here ++ b.out) = true) ∧
        ∀ ρ a, Sat ρ e → Sat ρ (getShadowPtr cx here addr b).2.out → BaseInObject cx ρ addr →
          IsPtr ρ addr a → ρ.val (getShadowPtr cx here addr b).1 = .int 64 (shadowOf a) := by
  rw [getShadowPtr]
  split
  next base off hbase =>
  by_cases hshared : (cx.opts.sharedShadowBase && addr.ty.isPointer && decide (base ≠ addr)) = true
  · rw [if_pos hshared]
    have hspec := @getShadowBase_spec here base b es hc
    generalize getShadowBase here base b = r at hspec
    obtain ⟨sb, b'⟩ := r
    dsimp only at hspec ⊢
    by_cases hoff : off = 0
    · rw [if_pos hoff]
      have h0 := hspec []
      rw [List.append_nil] at h0
      obtain ⟨hcache, e, he, hfrom, hval⟩ := h0
      refine ⟨hcache, e, he, hfrom, fun ρ a hsat _ hobj ha => ?_⟩
      obtain ⟨c, hcptr, hac, -⟩ := hobj a ha
      rw [hbase, hoff] at hac
      rw [hbase] at hcptr
      obtain rfl : a = c := by simpa using hac
      exact hval ρ a hsat hcptr
    · rw [if_neg hoff]
      obtain ⟨hcache, e, he, hfrom, hval⟩ := hspec (emit (.gepOff off) [sb] .ptr b'.next).1
      refine ⟨hcache, e, he, hfrom, fun ρ a hsat hsat' hobj ha => ?_⟩
      obtain ⟨c, hcptr, hac, happ⟩ := hobj a ha
      rw [hbase] at hac hcptr happ
      exact gepOff_eq (sat_append.mp hsat').2 (hval ρ c hsat hcptr) hac happ
  · rw [if_neg hshared]
    refine ⟨fun base' sb' hmem => ?_, _, List.mem_append_right _ (List.mem_singleton_self _),
      Or.inl rfl, fun ρ a hsat _ _ ha => computeShadowPtr_eq (sat_append.mp hsat).2 ha⟩
    obtain ⟨e, he, h⟩ := hc base' sb' hmem
    exact ⟨e, List.mem_append_left _ he, h⟩

theorem CacheHistory.cacheFrom {cx : Ctx} {cache : Cache} {es : List (List Inst)}
    (h : CacheHistory cx cache es) : CacheFrom cache es := by
  induction h with
  | empty => exact fun _ _ hmem => absurd hmem List.not_mem_nil
  | call _ here addr n out ih => exact (getShadowPtr_spec (b := ⟨n, out, _⟩) _ _ ih).1

/-- **The pass and the runtime agree on the address mapping.** The formula of the pass and the
code it emits give `MEM_TO_SHADOW`; this is a bijection onto shadow memory, and from there
`SHADOW_TO_ORIGIN` is one onto origin memory; addition may replace the exclusive or along
contiguous application memory. Hence the result of every call of `getShadowPtr`, after any
history of calls, is the one of the full computation; a base computed by an earlier call is
reused only where its definition is usable. -/
theorem address_mapping :
    (∀ a : Uptr, memIsApp a.toNat = true →
      linuxX8664MemoryMapParams.shadowAddr a = memToShadow a ∧
      ∀ (ρ : Env) (addr : Val) (ty : Ty) (n : ℕ), IsPtr ρ addr a.toNat →
        Sat ρ (computeShadowPtr addr ty n).1 →
        ρ.val (computeShadowPtr addr ty n).2 = .int 64 (memToShadow a).toNat) ∧
    Set.BijOn memToShadow {a | memIsApp a.toNat = true} {a | memIsShadow a.toNat = true} ∧
    Set.BijOn shadowToOrigin {a | memIsShadow a.toNat = true} {a | memIsOrigin a.toNat = true} ∧
    (∀ b off : Uptr, AppBetween b.toNat off.toInt → memToShadow b + off = memToShadow (b + off)) ∧
    ∀ (cx : Ctx) (cache : Cache) (es : List (List Inst)), CacheHistory cx cache es →
      ∀ (here : List Inst) (addr : Val) (n : ℕ) (out : List Inst),
        ∃ e ∈ es ++ [(getShadowPtr cx here addr ⟨n, out, cache⟩).2.out],
          (e = (getShadowPtr cx here addr ⟨n, out, cache⟩).2.out ∨
            ∃ m ∈ names e, shadowBaseUsableHere (.inst m .ptr) (here ++ out) = true) ∧
          ∀ (ρ : Env) (a : Uptr), Sat ρ e →
            Sat ρ (getShadowPtr cx here addr ⟨n, out, cache⟩).2.out → BaseInObject cx ρ addr →
            IsPtr ρ addr a.toNat →
            ρ.val (getShadowPtr cx here addr ⟨n, out, cache⟩).1 =
              .int 64 (memToShadow a).toNat := by
  refine ⟨fun a _ => ⟨shadowAddr_linuxX8664 a, fun ρ addr ty n ha hsat => ?_⟩, bijOn_memToShadow,
    bijOn_shadowToOrigin, fun b off => memToShadow_add, fun cx cache es h here addr n out => ?_⟩
  · rw [toNat_memToShadow]
    exact computeShadowPtr_eq hsat ha
  · obtain ⟨e, he, hfrom, hval⟩ :=
      (getShadowPtr_spec here addr (b := ⟨n, out, cache⟩) h.cacheFrom).2
    refine ⟨e, he, hfrom, fun ρ a hsat hsat' hobj ha => ?_⟩
    rw [toNat_memToShadow]
    exact hval ρ a.toNat hsat hsat' hobj ha

/-- A range across the boundary of the allocator mapping and the mapping after it. -/
theorem address_mapping_boundary :
    memToShadow 0x73ffffffffff#64 + 2#64 = memToShadow 0x740000000001#64 := by
  refine address_mapping.2.2.2.1 0x73ffffffffff#64 2#64 ⟨by decide, fun x hx hx' => ?_⟩
  rw [memIsApp_iff]
  rw [show (0x73ffffffffff#64).toNat = 0x73ffffffffff from rfl,
    show (2#64).toInt = 2 from rfl] at hx hx'
  norm_num at hx hx'
  omega

/-! ### The bytes of a shadow access -/

/-- The addresses that an access of type `t` at the address `p` touches. -/
def Ty.touched (t : Ty) (p : ℕ) : Set ℕ := {x | ∃ k ∈ t.bytes, x = p + k}

/-- **Shadow types mirror the layout of their originals**: size in bits, store size, allocation
size and alignment are the same, the leaves are integers of the same widths at the same offsets,
and a shadow access at the shadow address touches exactly the shadow bytes of the bytes that the
original access touches. -/
theorem shadow_layout (t : Ty) (h : t.wf = true) :
    (getShadowTy t).layout.bits = t.layout.bits ∧
    (getShadowTy t).layout.storeSize = t.layout.storeSize ∧
    (getShadowTy t).layout.allocSize = t.layout.allocSize ∧
    (getShadowTy t).layout.align = t.layout.align ∧
    (getShadowTy t).leaves = t.leaves.map (fun l => (l.1, .int l.2.layout.bits)) ∧
    ∀ p, AppRange p t.layout.storeSize →
      (getShadowTy t).touched (shadowOf p) = shadowOf '' t.touched p := by
  have hlayout := layout_getShadowTy t h
  refine ⟨by rw [hlayout], by rw [hlayout], by rw [hlayout], by rw [hlayout],
    leaves_getShadowTy t h, fun p hp => ?_⟩
  have hadd : ∀ k ∈ t.bytes, shadowOf (p + k) = shadowOf p + k := fun k hk =>
    hp.shadowOf_add (t.lt_storeSize_of_mem_bytes k hk)
  ext x
  simp only [Ty.touched, bytes_getShadowTy t h, Set.mem_image, Set.mem_ofPred_eq]
  constructor
  · rintro ⟨k, hk, rfl⟩
    exact ⟨p + k, ⟨k, hk, rfl⟩, hadd k hk⟩
  · rintro ⟨_, ⟨k, hk, rfl⟩, rfl⟩
    exact ⟨k, hk, hadd k hk⟩

/-- A struct of a byte, an `x86_fp80` and an array of packed pairs. -/
theorem shadow_layout_nested :
    (getShadowTy (.struct false (.cons (.int 8) (.cons (.fp .x86Fp80) (.cons
      (.array 3 (.struct true (.cons (.int 1) (.cons .ptr .nil)))) .nil))))).layout.allocSize =
    64 :=
  (shadow_layout _ rfl).2.2.1.trans (by decide)

end CQMSan
