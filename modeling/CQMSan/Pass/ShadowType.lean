import CQMSan.Pass.IR

/-!
# Shadow types

Every type has a shadow type of the same shape in which each leaf is an integer of the same width
(`getShadowTy`). The data layout is that of x86-64 Linux: `Ty.sizeInBits`, `Ty.storeSize`,
`Ty.allocSize`, and the offsets `Ty.bytes` of the bytes that a load or a store of the type
touches. A shadow load or store touches the bytes of the original access, since the two types
have the same layout (`bytes_getShadowTy`).
-/

namespace CQMSan

/-! ### The data layout -/

/-- The width of a floating-point type. -/
def FpKind.bits : FpKind → ℕ
  | .half | .bfloat => 16
  | .float => 32
  | .double => 64
  | .x86Fp80 => 80
  | .fp128 => 128

/-- The ABI alignment of a floating-point type, `f80:128` included. -/
def FpKind.align : FpKind → ℕ
  | .half | .bfloat => 2
  | .float => 4
  | .double => 8
  | .x86Fp80 | .fp128 => 16

/-- The ABI alignment of an integer: that of the next specified width, `i64:64` and `i128:128`
included. -/
def intAlign (w : ℕ) : ℕ :=
  if w ≤ 8 then 1 else if w ≤ 16 then 2 else if w ≤ 32 then 4 else if w ≤ 64 then 8 else 16

/-- The width of a pointer: `p270:32:32`, `p271:32:32` and `p272:64:64`, and 64 bits in every other
address space. -/
def pointerBits (space : ℕ) : ℕ := if space = 270 ∨ space = 271 then 32 else 64

/-- `alignTo(n, a)`. -/
def alignTo (n a : ℕ) : ℕ := (n + a - 1) / a * a

/-- Size in bits and ABI alignment of a type. -/
structure TyLayout where
  bits : ℕ
  align : ℕ
  deriving DecidableEq

/-- `getTypeStoreSize`. -/
def TyLayout.storeSize (l : TyLayout) : ℕ := (l.bits + 7) / 8

/-- `getTypeAllocSize`. -/
def TyLayout.allocSize (l : TyLayout) : ℕ := alignTo l.storeSize l.align

mutual

/-- The layout of a type. A vector is aligned to the next power of two. -/
def Ty.layout : Ty → TyLayout
  | .void | .token => ⟨0, 1⟩
  | .int w => ⟨w, intAlign w⟩
  | .fp k => ⟨k.bits, k.align⟩
  | .ptr => ⟨64, 8⟩
  | .ptrAs space => ⟨pointerBits space, pointerBits space / 8⟩
  | .vec n t => ⟨n * t.layout.bits, Nat.nextPowerOfTwo ((n * t.layout.bits + 7) / 8)⟩
  | .array n t => ⟨8 * (n * t.layout.allocSize), t.layout.align⟩
  | .struct packed ts =>
    let (size, align) := ts.layout packed 0 1
    ⟨8 * alignTo size align, align⟩

/-- Size and alignment of a struct whose first fields end at `offset` and have alignment
`align`. -/
def Tys.layout (packed : Bool) (offset align : ℕ) : Tys → ℕ × ℕ
  | .nil => (offset, align)
  | .cons t ts =>
    let a := if packed then 1 else t.layout.align
    ts.layout packed (alignTo offset a + t.layout.allocSize) (max align a)

end

mutual

/-- The offsets of the bytes that an access of the type touches. Padding is not touched. -/
def Ty.bytes : Ty → List ℕ
  | .array n t => (List.range n).flatMap fun i => t.bytes.map (i * t.layout.allocSize + ·)
  | .struct packed ts => ts.bytes packed 0
  | .void | .token => []
  | .int w => List.range ((w + 7) / 8)
  | .fp k => List.range ((k.bits + 7) / 8)
  | .ptr => List.range 8
  | .ptrAs space => List.range ((pointerBits space + 7) / 8)
  | .vec n t => List.range ((n * t.layout.bits + 7) / 8)

/-- The offsets of the bytes of the fields from `offset` on. -/
def Tys.bytes (packed : Bool) (offset : ℕ) : Tys → List ℕ
  | .nil => []
  | .cons t ts =>
    let a := if packed then 1 else t.layout.align
    t.bytes.map (alignTo offset a + ·) ++ ts.bytes packed (alignTo offset a + t.layout.allocSize)

end

mutual

/-- The leaves of a type, each with its offset in bits. The elements of a vector are leaves and
are not padded. -/
def Ty.leaves : Ty → List (ℕ × Ty)
  | .vec n t => (List.range n).map fun i => (i * t.layout.bits, t)
  | .array n t => (List.range n).flatMap fun i =>
    t.leaves.map fun l => (8 * (i * t.layout.allocSize) + l.1, l.2)
  | .struct packed ts => ts.leaves packed 0
  | t => [(0, t)]

/-- The leaves of the fields from `offset` on. -/
def Tys.leaves (packed : Bool) (offset : ℕ) : Tys → List (ℕ × Ty)
  | .nil => []
  | .cons t ts =>
    let a := if packed then 1 else t.layout.align
    t.leaves.map (fun l => (8 * alignTo offset a + l.1, l.2)) ++
      ts.leaves packed (alignTo offset a + t.layout.allocSize)

end

/-! ### Offsets -/

theorem le_alignTo (n a : ℕ) (ha : 0 < a) : n ≤ alignTo n a := by
  have hdm := Nat.div_add_mod (n + a - 1) a
  have hmod := Nat.mod_lt (n + a - 1) ha
  rw [alignTo, mul_comm]
  omega

theorem intAlign_pos (w : ℕ) : 0 < intAlign w := by
  rw [intAlign]
  split_ifs <;> norm_num

mutual

theorem Ty.layout_align_pos (t : Ty) : 0 < t.layout.align := by
  match t with
  | .void | .token | .ptr => simp [Ty.layout]
  | .int w => exact intAlign_pos w
  | .fp k => cases k <;> simp [Ty.layout, FpKind.align]
  | .ptrAs space =>
    rw [Ty.layout, pointerBits]
    split_ifs <;> norm_num
  | .vec n t => exact Nat.pos_of_isPowerOfTwo (Nat.isPowerOfTwo_nextPowerOfTwo _)
  | .array n t => exact t.layout_align_pos
  | .struct packed ts => exact ts.layout_align_pos packed 0 1 one_pos

theorem Tys.layout_align_pos (ts : Tys) (packed : Bool) (offset align : ℕ) (h : 0 < align) :
    0 < (ts.layout packed offset align).2 := by
  match ts with
  | .nil => exact h
  | .cons t ts => exact ts.layout_align_pos packed _ _ (lt_max_of_lt_left h)

end

theorem Ty.storeSize_le_allocSize (t : Ty) : t.layout.storeSize ≤ t.layout.allocSize :=
  le_alignTo _ _ t.layout_align_pos

theorem Tys.offset_le_layout (ts : Tys) (packed : Bool) (offset align : ℕ) :
    offset ≤ (ts.layout packed offset align).1 := by
  match ts with
  | .nil => exact le_rfl
  | .cons t ts =>
    have ha : 0 < (if packed then 1 else t.layout.align) := by
      split_ifs
      · exact one_pos
      · exact t.layout_align_pos
    have hle := le_alignTo offset _ ha
    have hrest := ts.offset_le_layout packed
      (alignTo offset (if packed then 1 else t.layout.align) + t.layout.allocSize)
      (max align (if packed then 1 else t.layout.align))
    rw [Tys.layout]
    omega

mutual

/-- An access stays inside the store size of its type. -/
theorem Ty.lt_storeSize_of_mem_bytes (t : Ty) (k : ℕ) (hk : k ∈ t.bytes) :
    k < t.layout.storeSize := by
  match t with
  | .void | .token => cases hk
  | .int w | .fp k' | .ptrAs space | .vec n t => exact List.mem_range.mp hk
  | .ptr => exact List.mem_range.mp hk
  | .array n t =>
    obtain ⟨i, hi, hk⟩ := List.mem_flatMap.mp hk
    obtain ⟨j, hj, rfl⟩ := List.mem_map.mp hk
    have hlt := (t.lt_storeSize_of_mem_bytes j hj).trans_le t.storeSize_le_allocSize
    have hmul : (i + 1) * t.layout.allocSize ≤ n * t.layout.allocSize :=
      Nat.mul_le_mul_right _ (List.mem_range.mp hi)
    rw [add_mul, one_mul] at hmul
    simp only [Ty.layout, TyLayout.storeSize] at hmul hlt ⊢
    omega
  | .struct packed ts =>
    have hlt := ts.lt_layout_of_mem_bytes packed 0 1 k hk
    have hle := le_alignTo (ts.layout packed 0 1).1 _ (ts.layout_align_pos packed 0 1 one_pos)
    simp only [Ty.layout, TyLayout.storeSize]
    omega

theorem Tys.lt_layout_of_mem_bytes (ts : Tys) (packed : Bool) (offset align k : ℕ)
    (hk : k ∈ ts.bytes packed offset) : k < (ts.layout packed offset align).1 := by
  match ts with
  | .nil => cases hk
  | .cons t ts =>
    rcases List.mem_append.mp hk with hk | hk
    · obtain ⟨j, hj, rfl⟩ := List.mem_map.mp hk
      have hlt := (t.lt_storeSize_of_mem_bytes j hj).trans_le t.storeSize_le_allocSize
      have hrest := ts.offset_le_layout packed
        (alignTo offset (if packed then 1 else t.layout.align) + t.layout.allocSize)
        (max align (if packed then 1 else t.layout.align))
      rw [Tys.layout]
      omega
    · exact ts.lt_layout_of_mem_bytes packed _ _ k hk

end

/-! ### Shadow types -/

mutual

/-- `isSized()`. -/
def Ty.isSized : Ty → Bool
  | .void | .token => false
  | .vec _ t | .array _ t => t.isSized
  | .struct _ ts => ts.isSized
  | _ => true

/-- All fields are sized. -/
def Tys.isSized : Tys → Bool
  | .nil => true
  | .cons t ts => t.isSized && ts.isSized

end

mutual

/-- `getShadowTy`, for a sized type. -/
def getShadowTy : Ty → Ty
  | .int w => .int w
  | .vec n t => .vec n (.int t.layout.bits)
  | .array n t => .array n (getShadowTy t)
  | .struct packed ts => .struct packed (getShadowTys ts)
  | t => .int t.layout.bits

/-- `getShadowTy` of the fields of a struct. -/
def getShadowTys : Tys → Tys
  | .nil => .nil
  | .cons t ts => .cons (getShadowTy t) (getShadowTys ts)

end

mutual

/-- The type holds no unsized part, and the elements of its vectors are scalars. -/
def Ty.wf : Ty → Bool
  | .void | .token => false
  | .vec _ t => match t with
    | .int _ | .fp _ | .ptr | .ptrAs _ => true
    | _ => false
  | .array _ t => t.wf
  | .struct _ ts => ts.wf
  | _ => true

/-- All fields are well formed. -/
def Tys.wf : Tys → Bool
  | .nil => true
  | .cons t ts => t.wf && ts.wf

end

mutual

/-- The shadow type has the layout of the original. -/
theorem layout_getShadowTy (t : Ty) (h : t.wf = true) : (getShadowTy t).layout = t.layout := by
  match t with
  | .void | .token => cases h
  | .int w => rfl
  | .fp k => cases k <;> rfl
  | .ptr => rfl
  | .ptrAs space =>
    by_cases hs : space = 270 ∨ space = 271
    · simp [getShadowTy, Ty.layout, pointerBits, hs, intAlign]
    · simp [getShadowTy, Ty.layout, pointerBits, hs, intAlign]
  | .vec n t => rfl
  | .array n t =>
    have ih := layout_getShadowTy t (by simpa [Ty.wf] using h)
    simp only [getShadowTy, Ty.layout, ih]
  | .struct packed ts =>
    have ih := layout_getShadowTys ts (by simpa [Ty.wf] using h) packed 0 1
    simp only [getShadowTy, Ty.layout, ih]

theorem layout_getShadowTys (ts : Tys) (h : ts.wf = true) (packed : Bool) (offset align : ℕ) :
    (getShadowTys ts).layout packed offset align = ts.layout packed offset align := by
  match ts with
  | .nil => rfl
  | .cons t ts =>
    simp only [Tys.wf, Bool.and_eq_true] at h
    simp only [getShadowTys, Tys.layout, layout_getShadowTy t h.1,
      layout_getShadowTys ts h.2 packed]

end

mutual

/-- The leaves of the shadow type are integers of the widths of the original leaves, at the
offsets of the original leaves. -/
theorem leaves_getShadowTy (t : Ty) (h : t.wf = true) :
    (getShadowTy t).leaves = t.leaves.map fun l => (l.1, .int l.2.layout.bits) := by
  match t with
  | .void | .token => cases h
  | .int w => rfl
  | .fp k => rfl
  | .ptr => rfl
  | .ptrAs space => rfl
  | .vec n t => simp only [getShadowTy, Ty.leaves, List.map_map, Function.comp_def, Ty.layout]
  | .array n t =>
    have hwf : t.wf = true := by simpa [Ty.wf] using h
    simp only [getShadowTy, Ty.leaves, leaves_getShadowTy t hwf, layout_getShadowTy t hwf,
      List.map_map, List.map_flatMap, Function.comp_def]
  | .struct packed ts =>
    simp only [getShadowTy, Ty.leaves, leaves_getShadowTys ts (by simpa [Ty.wf] using h) packed 0]

theorem leaves_getShadowTys (ts : Tys) (h : ts.wf = true) (packed : Bool) (offset : ℕ) :
    (getShadowTys ts).leaves packed offset =
      (ts.leaves packed offset).map fun l => (l.1, .int l.2.layout.bits) := by
  match ts with
  | .nil => rfl
  | .cons t ts =>
    simp only [Tys.wf, Bool.and_eq_true] at h
    simp only [getShadowTys, Tys.leaves, leaves_getShadowTy t h.1, layout_getShadowTy t h.1,
      leaves_getShadowTys ts h.2 packed, List.map_append, List.map_map, Function.comp_def]

end

mutual

/-- **A shadow access touches the bytes of the original access.** -/
theorem bytes_getShadowTy (t : Ty) (h : t.wf = true) : (getShadowTy t).bytes = t.bytes := by
  match t with
  | .void | .token => cases h
  | .int w => rfl
  | .fp k => rfl
  | .ptr => rfl
  | .ptrAs space => rfl
  | .vec n t => rfl
  | .array n t =>
    have hwf : t.wf = true := by simpa [Ty.wf] using h
    simp only [getShadowTy, Ty.bytes, bytes_getShadowTy t hwf, layout_getShadowTy t hwf]
  | .struct packed ts =>
    simp only [getShadowTy, Ty.bytes, bytes_getShadowTys ts (by simpa [Ty.wf] using h) packed 0]

theorem bytes_getShadowTys (ts : Tys) (h : ts.wf = true) (packed : Bool) (offset : ℕ) :
    (getShadowTys ts).bytes packed offset = ts.bytes packed offset := by
  match ts with
  | .nil => rfl
  | .cons t ts =>
    simp only [Tys.wf, Bool.and_eq_true] at h
    simp only [getShadowTys, Tys.bytes, bytes_getShadowTy t h.1, layout_getShadowTy t h.1,
      bytes_getShadowTys ts h.2 packed]

end

end CQMSan
