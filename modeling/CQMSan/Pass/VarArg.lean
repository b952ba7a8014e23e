import CQMSan.Pass.ShadowMap
import CQMSan.Runtime.Poisoning

/-!
# The variadic overflow area

The caller of a variadic function stores the size of the overflow area, the stack-passed variadic
arguments, and the callee clears the shadow of so many bytes at `va_start`. The size is added up
by `overflowSize` from a rough classification of the arguments. This file has the rules of the
System V ABI for the types in question (`Abi.step`) and compares the two.

The rough classification differs from the ABI in two ways: it adds no padding in front of
arguments aligned to more than eight bytes, and it takes every vector of integers for a
stack-passed argument, so that vectors passed in registers are counted and the registers they
take are not. `overflowArea_clean_iff` says exactly when what is missing is covered by what is
counted too much.
-/

namespace CQMSan

open ByteMemory Site

/-! ### Arguments -/

/-- An argument of a call: its type, which is the type behind the pointer for a `byval` one. -/
structure Arg where
  ty : Ty
  byVal : Bool
  deriving DecidableEq

/-- The arguments of a call from the number `argNo` on. -/
def callArgs (byVal : List (ℕ × Ty)) : ℕ → List Val → List Arg
  | _, [] => []
  | argNo, v :: vs =>
    (match byVal.lookup argNo with
    | some realTy => ⟨realTy, true⟩
    | none => ⟨v.ty, false⟩) :: callArgs byVal (argNo + 1) vs

/-- The size of an argument in bytes, and the size of its stack slots. -/
def Arg.size (a : Arg) : ℕ := a.ty.layout.storeSize

@[inherit_doc Arg.size] def Arg.slots (a : Arg) : ℕ := alignTo a.ty.layout.allocSize 8

/-- The alignment of a stack-passed argument. -/
def Arg.align (a : Arg) : ℕ := max 8 a.ty.layout.align

/-- How the ABI passes a value. -/
inductive AbiClass
  | integer | sse | memory
  deriving DecidableEq

/-- The types considered: integers of up to 64 bits, pointers, `float`, `double`, `x86_fp80`,
vectors of integers of 128 bits, and structs passed `byval`. -/
def Arg.class? (a : Arg) : Option AbiClass :=
  if a.byVal then
    match a.ty with
    | .struct _ _ => some .memory
    | _ => none
  else
    match a.ty with
    | .int w => if w ≤ 64 then some .integer else none
    | .ptr => some .integer
    | .fp .float | .fp .double => some .sse
    | .fp .x86Fp80 => some .memory
    | .vec n (.int w) => if n * w = 128 then some .sse else none
    | _ => none

/-- The argument is a vector. -/
def Arg.isVec (a : Arg) : Bool :=
  match a.ty with
  | .vec _ _ => !a.byVal
  | _ => false

/-- The argument is a `float` or a `double`. -/
def Arg.isFloat (a : Arg) : Bool := decide (a.class? = some .sse) && !a.isVec

/-! ### The ABI -/

/-- The registers taken and the end of the stack arguments so far. -/
structure Abi where
  gp : ℕ
  sse : ℕ
  stack : ℕ

/-- The next argument: its position on the stack, if it is passed there, and what is taken
afterwards. -/
def Abi.step (s : Abi) (a : Arg) : Option ℕ × Abi :=
  let onStack : Option ℕ × Abi :=
    (some (alignTo s.stack a.align), { s with stack := alignTo s.stack a.align + a.slots })
  match a.class? with
  | some .integer => if s.gp < 6 then (none, { s with gp := s.gp + 1 }) else onStack
  | some .sse => if s.sse < 8 then (none, { s with sse := s.sse + 1 }) else onStack
  | _ => onStack

/-- The state after some arguments. -/
def Abi.after (s : Abi) (as : List Arg) : Abi := as.foldl (fun s a => (s.step a).2) s

/-- The stack-passed arguments with their positions. -/
def Abi.placed (s : Abi) : List Arg → List (Arg × ℕ)
  | [] => []
  | a :: as =>
    match (s.step a).1 with
    | some pos => (a, pos) :: (s.step a).2.placed as
    | none => (s.step a).2.placed as

/-- Some stack-passed argument has bytes. -/
def Abi.hasBytes (s : Abi) (as : List Arg) : Bool :=
  (s.placed as).any fun p => decide (0 < p.1.size)

/-- The padding in front of stack-passed arguments, up to the last one with bytes. -/
def Abi.padding (s : Abi) : List Arg → ℕ
  | [] => 0
  | a :: as =>
    match (s.step a).1 with
    | some pos => if s.hasBytes (a :: as) then pos - s.stack + (s.step a).2.padding as else 0
    | none => (s.step a).2.padding as

/-- Eight bytes for each `float` or `double` that is among the first eight of the call and finds
no register left; `f` of them came before. -/
def Abi.spilled (s : Abi) (f : ℕ) : List Arg → ℕ
  | [] => 0
  | a :: as =>
    (if a.isFloat ∧ f < 8 ∧ (s.step a).1.isSome then 8 else 0) +
      (s.step a).2.spilled (if a.isFloat then f + 1 else f) as

/-- Sixteen bytes for each vector that is passed in a register. -/
def Abi.vectorsInRegisters (s : Abi) : List Arg → ℕ
  | [] => 0
  | a :: as =>
    (if a.isVec ∧ (s.step a).1 = none then 16 else 0) + (s.step a).2.vectorsInRegisters as

/-- The slots of the stack-passed arguments, without the padding. -/
def Abi.stackSlots (s : Abi) (as : List Arg) : ℕ := ((s.placed as).map fun p => p.1.slots).sum

/-- The number of `float` and `double` arguments. -/
def floatCount (as : List Arg) : ℕ := as.countP Arg.isFloat

/-- Before the first argument. -/
def Abi.start : Abi := ⟨0, 0, 0⟩

/-! ### Sizes and alignments -/

mutual

theorem Ty.isPowerOfTwo_align (t : Ty) : Nat.isPowerOfTwo t.layout.align := by
  match t with
  | .void | .token => exact ⟨0, rfl⟩
  | .int w =>
    simp only [Ty.layout, intAlign]
    split_ifs
    · exact ⟨0, rfl⟩
    · exact ⟨1, rfl⟩
    · exact ⟨2, rfl⟩
    · exact ⟨3, rfl⟩
    · exact ⟨4, rfl⟩
  | .fp k =>
    cases k with
    | half | bfloat => exact ⟨1, rfl⟩
    | float => exact ⟨2, rfl⟩
    | double => exact ⟨3, rfl⟩
    | x86Fp80 | fp128 => exact ⟨4, rfl⟩
  | .ptr => exact ⟨3, rfl⟩
  | .ptrAs space =>
    simp only [Ty.layout, pointerBits]
    split_ifs
    · exact ⟨2, rfl⟩
    · exact ⟨3, rfl⟩
  | .vec n t => exact Nat.isPowerOfTwo_nextPowerOfTwo _
  | .array n t => exact t.isPowerOfTwo_align
  | .struct packed ts => exact ts.isPowerOfTwo_align packed 0 1 ⟨0, rfl⟩

theorem Tys.isPowerOfTwo_align (ts : Tys) (packed : Bool) (offset align : ℕ)
    (h : Nat.isPowerOfTwo align) : Nat.isPowerOfTwo (ts.layout packed offset align).2 := by
  match ts with
  | .nil => exact h
  | .cons t ts =>
    refine ts.isPowerOfTwo_align packed _ _ ?_
    have ht : Nat.isPowerOfTwo (if packed then 1 else t.layout.align) := by
      split_ifs
      · exact ⟨0, rfl⟩
      · exact t.isPowerOfTwo_align
    rcases max_choice align (if packed then 1 else t.layout.align) with hmax | hmax
    · rw [hmax]
      exact h
    · rw [hmax]
      exact ht

end

theorem dvd_alignTo (n a : ℕ) : a ∣ alignTo n a := Dvd.intro_left _ rfl

theorem alignTo_lt (n a : ℕ) (ha : 0 < a) : alignTo n a < n + a := by
  have := Nat.div_mul_le_self (n + a - 1) a
  rw [alignTo]
  omega

theorem alignTo_of_dvd {n a : ℕ} (ha : 0 < a) (h : a ∣ n) : alignTo n a = n := by
  obtain ⟨k, rfl⟩ := h
  have hdiv : (a * k + a - 1) / a = k := by
    rw [show a * k + a - 1 = a - 1 + a * k by omega, Nat.add_mul_div_left _ _ ha,
      Nat.div_eq_of_lt (by omega), zero_add]
  rw [alignTo, hdiv, mul_comm]

theorem Arg.eight_dvd_align (a : Arg) : 8 ∣ a.align := by
  obtain ⟨k, hk⟩ := a.ty.isPowerOfTwo_align
  rw [Arg.align, hk, show 8 = 2 ^ 3 from rfl]
  rcases le_or_gt k 3 with h | h
  · have hle : 2 ^ k ≤ 2 ^ 3 := Nat.pow_le_pow_right (by norm_num) h
    rw [max_eq_left hle]
  · have hle : 2 ^ 3 ≤ 2 ^ k := Nat.pow_le_pow_right (by norm_num) h.le
    rw [max_eq_right hle]
    exact Nat.pow_dvd_pow 2 h.le

theorem Arg.align_pos (a : Arg) : 0 < a.align := lt_max_of_lt_left (by norm_num)

theorem Arg.size_le_slots (a : Arg) : a.size ≤ a.slots :=
  a.ty.storeSize_le_allocSize.trans (le_alignTo _ _ (by norm_num))

theorem Arg.eight_dvd_slots (a : Arg) : 8 ∣ a.slots := dvd_alignTo _ _

/-- The slots of an argument end with it, up to less than eight bytes. -/
theorem Arg.slots_lt {a : Arg} (h : a.class? ≠ none) : a.slots < a.size + 8 := by
  obtain ⟨t, byVal⟩ := a
  cases byVal with
  | true =>
    cases t with
    | struct packed ts =>
      have hsize : (Ty.struct packed ts).layout.storeSize =
          alignTo (ts.layout packed 0 1).1 (ts.layout packed 0 1).2 := by
        simp only [Ty.layout, TyLayout.storeSize]
        omega
      have halloc : (Ty.struct packed ts).layout.allocSize =
          (Ty.struct packed ts).layout.storeSize :=
        alignTo_of_dvd (Ty.layout_align_pos _) (by rw [hsize]; exact dvd_alignTo _ _)
      rw [Arg.slots, halloc]
      exact alignTo_lt _ _ (by norm_num)
    | _ => exact absurd rfl h
  | false =>
    cases t with
    | int w =>
      have hw : w ≤ 64 := by
        by_contra hw
        exact h (if_neg hw)
      simp only [Arg.slots, Arg.size, Ty.layout, TyLayout.allocSize, TyLayout.storeSize, intAlign,
        alignTo]
      split_ifs <;> omega
    | ptr => decide
    | fp k =>
      cases k with
      | float | double | x86Fp80 => decide
      | _ => exact absurd rfl h
    | vec n t =>
      cases t with
      | int w =>
        have hnw : n * w = 128 := by
          by_contra hnw
          exact h (if_neg hnw)
        have hpow : Nat.nextPowerOfTwo 16 = 16 := by decide +kernel
        simp [Arg.slots, Arg.size, Ty.layout, hnw, TyLayout.allocSize, TyLayout.storeSize, hpow,
          alignTo]
      | _ => exact absurd rfl h
    | _ => exact absurd rfl h

/-- The four kinds of arguments, with what the ABI and what the caller make of them. -/
inductive Arg.Kind (a : Arg) : Prop
  | integer (h : a.class? = some .integer) (hf : a.isFloat = false) (hv : a.isVec = false)
    (hb : a.byVal = false) (hc : classifyArgument a.ty = .generalPurpose)
  | float (h : a.class? = some .sse) (hf : a.isFloat = true) (hv : a.isVec = false)
    (hb : a.byVal = false) (hc : classifyArgument a.ty = .floatingPoint) (hs : a.slots = 8)
    (hpos : 0 < a.size)
  | vector (h : a.class? = some .sse) (hf : a.isFloat = false) (hv : a.isVec = true)
    (hb : a.byVal = false) (hc : classifyArgument a.ty = .memory) (hs : a.slots = 16)
    (hpos : 0 < a.size)
  | memory (h : a.class? = some .memory) (hf : a.isFloat = false) (hv : a.isVec = false)
    (hc : a.byVal = true ∨ classifyArgument a.ty = .memory)

theorem Arg.kind {a : Arg} (h : a.class? ≠ none) : a.Kind := by
  obtain ⟨t, byVal⟩ := a
  cases byVal with
  | true =>
    cases t with
    | struct packed ts => exact .memory rfl rfl rfl (Or.inl rfl)
    | _ => exact absurd rfl h
  | false =>
    cases t with
    | int w =>
      have hw : w ≤ 64 := by
        by_contra hw
        exact h (if_neg hw)
      have hclass : Arg.class? ⟨.int w, false⟩ = some .integer := if_pos hw
      exact .integer hclass (by rw [Arg.isFloat, hclass]; rfl) rfl rfl (if_pos hw)
    | ptr => exact .integer rfl rfl rfl rfl rfl
    | fp k =>
      cases k with
      | float | double => exact .float rfl rfl rfl rfl rfl (by decide) (by decide)
      | x86Fp80 => exact .memory rfl rfl rfl (Or.inr rfl)
      | _ => exact absurd rfl h
    | vec n t =>
      cases t with
      | int w =>
        have hnw : n * w = 128 := by
          by_contra hnw
          exact h (if_neg hnw)
        have hpow : Nat.nextPowerOfTwo 16 = 16 := by decide +kernel
        refine .vector (if_pos hnw) (by simp [Arg.isFloat, Arg.isVec]) rfl rfl rfl ?_ ?_
        · simp [Arg.slots, Ty.layout, hnw, TyLayout.allocSize, TyLayout.storeSize, hpow, alignTo]
        · simp [Arg.size, Ty.layout, hnw, TyLayout.storeSize]
      | _ => exact absurd rfl h
    | _ => exact absurd rfl h

/-- The steps of the ABI: a register while there is one, or the stack. -/
theorem Abi.step_cases (s : Abi) (a : Arg) :
    (a.class? = some .integer ∧ s.gp < 6 ∧ s.step a = (none, { s with gp := s.gp + 1 })) ∨
    (a.class? = some .sse ∧ s.sse < 8 ∧ s.step a = (none, { s with sse := s.sse + 1 })) ∨
    ((a.class? = some .integer → 6 ≤ s.gp) ∧ (a.class? = some .sse → 8 ≤ s.sse) ∧
      s.step a = (some (alignTo s.stack a.align),
        { s with stack := alignTo s.stack a.align + a.slots })) := by
  rw [Abi.step]
  split
  next h =>
    by_cases hgp : s.gp < 6
    · exact Or.inl ⟨h, hgp, if_pos hgp⟩
    · exact Or.inr (Or.inr ⟨fun _ => by omega, by simp [h], if_neg hgp⟩)
  next h =>
    by_cases hsse : s.sse < 8
    · exact Or.inr (Or.inl ⟨h, hsse, if_pos hsse⟩)
    · exact Or.inr (Or.inr ⟨by simp [h], fun _ => by omega, if_neg hsse⟩)
  next h h' => exact Or.inr (Or.inr ⟨fun hc => absurd hc h, fun hc => absurd hc h', rfl⟩)

theorem Abi.step_memory (s : Abi) {a : Arg} (h : a.class? = some .memory) :
    s.step a = (some (alignTo s.stack a.align),
      { s with stack := alignTo s.stack a.align + a.slots }) := by
  rw [Abi.step, h]

theorem Abi.step_gp (s : Abi) {a : Arg} (h : a.class? ≠ some .integer) :
    (s.step a).2.gp = s.gp := by
  rcases s.step_cases a with ⟨h', -, -⟩ | ⟨-, -, hstep⟩ | ⟨-, -, hstep⟩
  · exact absurd h' h
  · rw [hstep]
  · rw [hstep]

/-! ### What the caller counts -/

/-- The bytes that `overflowSize` adds for a variadic argument before which came `f` floats. -/
def Abi.counts (s : Abi) (f : ℕ) (a : Arg) : ℕ :=
  if a.isFloat then if f < 8 then 0 else a.slots
  else if a.isVec ∨ (s.step a).1.isSome then a.slots else 0

/-- The bytes that `overflowSize` adds for some variadic arguments. -/
def Abi.counted (s : Abi) (f : ℕ) : List Arg → ℕ
  | [] => 0
  | a :: as => s.counts f a + (s.step a).2.counted (if a.isFloat then f + 1 else f) as

/-- One round of the loop of `overflowSize`. -/
theorem overflowSize_cons {fixed argNo : ℕ} {byVal : List (ℕ × Ty)} {v : Val} {vs : List Val}
    {a : Arg} {as : List Arg} (ha : callArgs byVal argNo (v :: vs) = a :: as)
    (hclass : a.class? ≠ none) (s : Abi) (f o : ℕ) :
    overflowSize fixed byVal argNo (v :: vs) (8 * s.gp) (48 + 16 * min f 8) o =
      overflowSize fixed byVal (argNo + 1) vs (8 * (s.step a).2.gp)
        (48 + 16 * min (if a.isFloat then f + 1 else f) 8)
        (if argNo < fixed then o else o + s.counts f a) := by
  have hhead := (List.cons.inj ha).1
  rw [overflowSize]
  cases hlook : byVal.lookup argNo with
  | some realTy =>
    obtain rfl : ⟨realTy, true⟩ = a := by rwa [hlook] at hhead
    obtain ⟨h, hf, hv, -⟩ : _ ∧ _ ∧ _ ∧ _ := by
      cases Arg.kind hclass with
      | memory h hf hv hc => exact ⟨h, hf, hv, hc⟩
      | _ => contradiction
    have hstep := s.step_memory h
    rw [Abi.counts, hf, hv, hstep]
    simp [Arg.slots]
  | none =>
    obtain rfl : ⟨v.ty, false⟩ = a := by rwa [hlook] at hhead
    cases Arg.kind hclass with
    | integer h hf hv hb hc =>
      simp only [show classifyArgument v.ty = .generalPurpose from hc]
      by_cases hgp : s.gp < 6
      · have hstep : s.step ⟨v.ty, false⟩ = (none, { s with gp := s.gp + 1 }) := by
          simp [Abi.step, h, hgp]
        rw [if_neg (by omega), Abi.counts, hf, hv, hstep]
        simp [Nat.mul_add]
      · have hstep : s.step ⟨v.ty, false⟩ = (some (alignTo s.stack (Arg.align ⟨v.ty, false⟩)),
            { s with stack := alignTo s.stack (Arg.align ⟨v.ty, false⟩) +
              Arg.slots ⟨v.ty, false⟩ }) := by
          simp [Abi.step, h, hgp]
        rw [if_pos (by omega), Abi.counts, hf, hv, hstep]
        simp [Arg.slots]
    | float h hf hv hb hc hs hpos =>
      simp only [show classifyArgument v.ty = .floatingPoint from hc]
      have hgp : (s.step ⟨v.ty, false⟩).2.gp = s.gp := s.step_gp (by simp [h])
      rw [hgp, Abi.counts, hf]
      by_cases hlt : f < 8
      · have hmin : min (f + 1) 8 = min f 8 + 1 := by omega
        rw [if_neg (by omega), if_pos rfl, if_pos rfl, if_pos hlt, hmin]
        simp [Nat.mul_add, Nat.add_assoc]
      · have hmin : min (f + 1) 8 = min f 8 := by omega
        rw [if_pos (by omega), if_pos rfl, if_pos rfl, if_neg hlt, hmin]
        simp [Arg.slots]
    | vector h hf hv hb hc hs hpos =>
      simp only [show classifyArgument v.ty = .memory from hc]
      have hgp : (s.step ⟨v.ty, false⟩).2.gp = s.gp := s.step_gp (by simp [h])
      rw [hgp, Abi.counts, hf, hv]
      simp [Arg.slots]
    | memory h hf hv hc =>
      simp only [show classifyArgument v.ty = .memory from hc.resolve_left Bool.false_ne_true]
      rw [Abi.counts, hf, hv, s.step_memory h]
      simp [Arg.slots]

/-- The whole loop: the fixed arguments only take registers. -/
theorem overflowSize_eq (fixed : ℕ) (byVal : List (ℕ × Ty)) (args : List Val) (argNo : ℕ)
    (s : Abi) (f o : ℕ) (hclass : ∀ a ∈ callArgs byVal argNo args, a.class? ≠ none) :
    overflowSize fixed byVal argNo args (8 * s.gp) (48 + 16 * min f 8) o =
      o + (s.after ((callArgs byVal argNo args).take (fixed - argNo))).counted
        (f + floatCount ((callArgs byVal argNo args).take (fixed - argNo)))
        ((callArgs byVal argNo args).drop (fixed - argNo)) := by
  induction args generalizing argNo s f o with
  | nil => simp [overflowSize, callArgs, Abi.counted]
  | cons v vs ih =>
    obtain ⟨a, hargs⟩ : ∃ a, callArgs byVal argNo (v :: vs) = a :: callArgs byVal (argNo + 1) vs :=
      ⟨_, rfl⟩
    rw [overflowSize_cons hargs (hclass a (by simp [hargs])), ih, hargs]
    · by_cases hfix : argNo < fixed
      · rw [if_pos hfix, show fixed - argNo = fixed - (argNo + 1) + 1 by omega, List.take_succ_cons,
          List.drop_succ_cons, Abi.after, Abi.after, List.foldl_cons, floatCount, floatCount,
          List.countP_cons]
        congr 2
        split_ifs <;> omega
      · rw [if_neg hfix, show fixed - argNo = 0 by omega, show fixed - (argNo + 1) = 0 by omega]
        simp [Abi.after, floatCount, Abi.counted, Nat.add_assoc]
    · exact fun b hb => hclass b (by rw [hargs]; exact List.mem_cons_of_mem _ hb)

/-! ### The area cleared and the area used -/

theorem Abi.hasBytes_cons (s : Abi) (a : Arg) (as : List Arg) :
    s.hasBytes (a :: as) =
      ((s.step a).1.isSome && decide (0 < a.size) || (s.step a).2.hasBytes as) := by
  rw [Abi.hasBytes, Abi.placed]
  cases (s.step a).1 with
  | none => rfl
  | some pos => rfl

/-- Floats are among the arguments that take SSE registers. -/
theorem Abi.step_sse {s : Abi} {f : ℕ} (h : min f 8 ≤ s.sse) (a : Arg) :
    min (if a.isFloat then f + 1 else f) 8 ≤ (s.step a).2.sse := by
  have hfloat : a.isFloat = true → a.class? = some .sse := by
    simp only [Arg.isFloat, Bool.and_eq_true, decide_eq_true_eq]
    exact And.left
  rcases s.step_cases a with ⟨hc, -, hstep⟩ | ⟨-, -, hstep⟩ | ⟨-, hsse, hstep⟩
  · have : a.isFloat = false := by
      by_contra hf
      simp [hfloat (by simpa using hf)] at hc
    simpa [hstep, this] using h
  · rw [hstep]
    dsimp only
    split_ifs <;> omega
  · rw [hstep]
    dsimp only
    split_ifs with hf
    · have := hsse (hfloat hf)
      omega
    · exact h

theorem Abi.eight_dvd_step {s : Abi} (h : 8 ∣ s.stack) (a : Arg) : 8 ∣ (s.step a).2.stack := by
  rcases s.step_cases a with ⟨-, -, hstep⟩ | ⟨-, -, hstep⟩ | ⟨-, -, hstep⟩
  · rwa [hstep]
  · rwa [hstep]
  · rw [hstep]
    exact (a.eight_dvd_align.trans (dvd_alignTo _ _)).add a.eight_dvd_slots

theorem Abi.eight_dvd_vectorsInRegisters (s : Abi) (as : List Arg) :
    8 ∣ s.vectorsInRegisters as := by
  induction as generalizing s with
  | nil => exact dvd_zero 8
  | cons a as ih =>
    rw [Abi.vectorsInRegisters]
    refine Dvd.dvd.add ?_ (ih _)
    split_ifs
    · norm_num
    · exact dvd_zero 8

theorem Abi.stack_le_of_mem_placed {s : Abi} {as : List Arg} {p : Arg × ℕ}
    (h : p ∈ s.placed as) : s.stack ≤ p.2 := by
  induction as generalizing s with
  | nil => exact absurd h List.not_mem_nil
  | cons a as ih =>
    rw [Abi.placed] at h
    rcases s.step_cases a with ⟨-, -, hstep⟩ | ⟨-, -, hstep⟩ | ⟨-, -, hstep⟩
    · rw [hstep] at h
      exact ih (s := { s with gp := s.gp + 1 }) h
    · rw [hstep] at h
      exact ih (s := { s with sse := s.sse + 1 }) h
    · have hle := le_alignTo s.stack a.align a.align_pos
      rw [hstep] at h
      rcases List.mem_cons.mp h with rfl | h
      · exact hle
      · have := ih h
        dsimp only at this
        omega

/-- Without stack-passed bytes the caller counts nothing but vectors in registers. -/
theorem Abi.counted_of_hasBytes_eq_false {s : Abi} {f : ℕ} {as : List Arg}
    (hclass : ∀ a ∈ as, a.class? ≠ none) (hf : min f 8 ≤ s.sse) (h : s.hasBytes as = false) :
    s.padding as = 0 ∧ s.spilled f as = 0 ∧ s.counted f as = s.vectorsInRegisters as := by
  induction as generalizing s f with
  | nil => exact ⟨rfl, rfl, rfl⟩
  | cons a as ih =>
    have hcons := h
    rw [Abi.hasBytes_cons, Bool.or_eq_false_iff] at h
    obtain ⟨hpad, hspill, hcount⟩ := ih (fun b hb => hclass b (List.mem_cons_of_mem _ hb))
      (Abi.step_sse hf a) h.2
    have hslots := Arg.slots_lt (hclass a List.mem_cons_self)
    have h8 := a.eight_dvd_slots
    rw [Abi.padding, Abi.spilled, Abi.counted, Abi.vectorsInRegisters, hspill, hcount, Abi.counts]
    rcases s.step_cases a with ⟨hc, hgp, hstep⟩ | ⟨hc, hsse, hstep⟩ | ⟨-, -, hstep⟩
    · cases Arg.kind (hclass a List.mem_cons_self) with
      | integer _ hfl hv hb hcl =>
        rw [hstep] at hpad ⊢
        simp [hfl, hv, hpad]
      | _ => simp_all
    · rw [hstep] at hpad ⊢
      cases Arg.kind (hclass a List.mem_cons_self) with
      | float _ hfl hv hb hcl hs hpos => simp [hfl, hv, hpad, show f < 8 by omega]
      | vector _ hfl hv hb hcl hs hpos => simp [hfl, hv, hpad, hs]
      | _ => simp_all
    · have hsize : a.size = 0 := by
        have := h.1
        rw [hstep] at this
        simpa using this
      have hzero : a.slots = 0 := by omega
      rw [hstep]
      cases Arg.kind (hclass a List.mem_cons_self) with
      | float _ hfl hv hb hcl hs hpos => omega
      | vector _ hfl hv hb hcl hs hpos => omega
      | integer _ hfl hv hb hcl => simp [hfl, hv, hcons, hzero]
      | memory _ hfl hv hcl => simp [hfl, hv, hcons, hzero]

/-- A stack-passed argument that is counted as `n` bytes: what holds for the rest of the arguments
holds with it. Here `pos` is its position, `size` and `slots` are its own, `v` is what is counted of
the rest without stack-passed bytes. -/
private theorem covered_cons_iff {s : Abi} (t : Abi) {a : Arg} {as : List Arg} {f D E pos : ℕ}
    (f' n : ℕ)
    (hplaced : s.placed (a :: as) = (a, pos) :: t.placed as)
    (ht : t.stack = pos + a.slots) (hpos : s.stack ≤ pos)
    (hcounted : s.counted f (a :: as) = n + t.counted f' as)
    (hpad : s.padding (a :: as) = if s.hasBytes (a :: as) then pos - s.stack + t.padding as else 0)
    (hspill : s.spilled f (a :: as) = a.slots - n + t.spilled f' as)
    (hvec : s.vectorsInRegisters (a :: as) = t.vectorsInRegisters as)
    (hn : n = a.slots ∨ n = 0 ∧ a.slots = 8 ∧ 0 < a.size) (hsize : a.size ≤ a.slots)
    (hslots : a.slots < a.size + 8) (h8 : 8 ∣ a.slots) (h8' : 8 ∣ pos) (hD : 8 ∣ D) (hE : 8 ∣ E)
    (h8'' : 8 ∣ t.vectorsInRegisters as)
    (hnone : t.hasBytes as = false →
      t.padding as = 0 ∧ t.spilled f' as = 0 ∧ t.counted f' as = t.vectorsInRegisters as)
    (ih : (∀ p ∈ t.placed as, 0 < p.1.size → D + p.2 + p.1.size ≤ E + n + t.counted f' as) ↔
      (t.hasBytes as = true →
        D + t.stack + t.padding as + t.spilled f' as ≤ E + n + t.vectorsInRegisters as)) :
    (∀ p ∈ s.placed (a :: as), 0 < p.1.size → D + p.2 + p.1.size ≤ E + s.counted f (a :: as)) ↔
      (s.hasBytes (a :: as) = true →
        D + s.stack + s.padding (a :: as) + s.spilled f (a :: as) ≤
          E + s.vectorsInRegisters (a :: as)) := by
  have hbytes : s.hasBytes (a :: as) = (decide (0 < a.size) || t.hasBytes as) := by
    rw [Abi.hasBytes, hplaced]
    rfl
  rw [hplaced, List.forall_mem_cons, hcounted, ← Nat.add_assoc, ih, hpad, hspill, hvec]
  cases hrest : t.hasBytes as with
  | true =>
    -- the last argument with bytes lies behind `a`, so `a` is covered if that one is
    have hall : s.hasBytes (a :: as) = true := by rw [hbytes, hrest, Bool.or_true]
    rw [hall]
    simp only [if_true, forall_const]
    have hmono : D + t.stack + t.padding as + t.spilled f' as ≤ E + n + t.vectorsInRegisters as →
        D + pos + a.size ≤ E + n + t.counted f' as := by
      intro h
      obtain ⟨p, hp, hpsize⟩ := List.any_eq_true.mp hrest
      have hend := ih.mpr (fun _ => h) p hp (by simpa using hpsize)
      have hstack := Abi.stack_le_of_mem_placed hp
      omega
    constructor
    · rintro ⟨-, h⟩
      omega
    · intro h
      have h' : D + t.stack + t.padding as + t.spilled f' as ≤ E + n + t.vectorsInRegisters as := by
        omega
      exact ⟨fun _ => hmono h', h'⟩
  | false =>
    obtain ⟨hp, hs, hc⟩ := hnone hrest
    rw [hbytes, hrest, hp, hs, hc, Bool.or_false]
    simp only [Bool.false_eq_true, false_imp_iff, and_true]
    constructor
    · intro h hpos'
      have := h (of_decide_eq_true hpos')
      rw [if_pos hpos']
      omega
    · intro h hpos'
      have := h (decide_eq_true hpos')
      rw [if_pos (decide_eq_true hpos')] at this
      omega

/-- The area that is cleared ends at `E` and what is counted, less `D`; it reaches the end of the
last stack-passed argument if and only if `D`, the stack arguments so far, the padding and the
spilled floats are covered by `E` and the vectors in registers. -/
theorem Abi.covered_iff {s : Abi} {f D E : ℕ} {as : List Arg}
    (hclass : ∀ a ∈ as, a.class? ≠ none) (hf : min f 8 ≤ s.sse) (h8 : 8 ∣ s.stack) (hD : 8 ∣ D)
    (hE : 8 ∣ E) :
    (∀ p ∈ s.placed as, 0 < p.1.size → D + p.2 + p.1.size ≤ E + s.counted f as) ↔
      (s.hasBytes as = true →
        D + s.stack + s.padding as + s.spilled f as ≤ E + s.vectorsInRegisters as) := by
  induction as generalizing s f E with
  | nil => simp [Abi.placed, Abi.hasBytes]
  | cons a as ih =>
    have hrest : ∀ b ∈ as, b.class? ≠ none := fun b hb => hclass b (List.mem_cons_of_mem _ hb)
    have hinv := Abi.step_sse hf a
    have hdvd := Abi.eight_dvd_step h8 a
    have hkind := Arg.kind (hclass a List.mem_cons_self)
    rcases s.step_cases a with ⟨hc, hgp, hstep⟩ | ⟨hc, hsse, hstep⟩ | ⟨hgp, hsse, hstep⟩
    · cases hkind with
      | integer _ hfl hv hb hcl =>
        rw [hstep] at hinv
        have hih := ih (s := { s with gp := s.gp + 1 }) hrest hinv h8 hE
        simpa [Abi.placed, Abi.hasBytes, Abi.padding, Abi.spilled, Abi.vectorsInRegisters,
          Abi.counted, Abi.counts, hstep, hfl, hv] using hih
      | _ => simp_all
    · cases hkind with
      | float _ hfl hv hb hcl hs hpos =>
        rw [hstep] at hinv
        have hih := ih (s := { s with sse := s.sse + 1 }) hrest hinv h8 hE
        simpa [Abi.placed, Abi.hasBytes, Abi.padding, Abi.spilled, Abi.vectorsInRegisters,
          Abi.counted, Abi.counts, hstep, hfl, hv, show f < 8 by omega] using hih
      | vector _ hfl hv hb hcl hs hpos =>
        rw [hstep] at hinv
        have hih := ih (s := { s with sse := s.sse + 1 }) hrest hinv h8
          (hE.add (by decide : 8 ∣ 16))
        simpa [Abi.placed, Abi.hasBytes, Abi.padding, Abi.spilled, Abi.vectorsInRegisters,
          Abi.counted, Abi.counts, hstep, hfl, hv, hs, Nat.add_assoc] using hih
      | _ => simp_all
    · have hn : s.counts f a = a.slots ∨ s.counts f a = 0 ∧ a.slots = 8 ∧ 0 < a.size := by
        rw [Abi.counts, hstep]
        cases hkind with
        | float _ hfl hv hb hcl hs hpos =>
          rw [if_pos hfl]
          split_ifs
          · exact Or.inr ⟨rfl, hs, hpos⟩
          · exact Or.inl rfl
        | integer _ hfl | vector _ hfl | memory _ hfl => simp [hfl]
      have hspill : (if a.isFloat ∧ f < 8 ∧ (s.step a).1.isSome then 8 else 0) =
          a.slots - s.counts f a := by
        rw [Abi.counts, hstep]
        cases hkind with
        | float _ hfl hv hb hcl hs hpos =>
          by_cases hlt : f < 8
          · simp [hfl, hlt, hs]
          · simp [hfl, hlt]
        | integer _ hfl | vector _ hfl | memory _ hfl => simp [hfl]
      have hcounts : 8 ∣ s.counts f a := by
        rcases hn with h | ⟨h, -⟩
        · rw [h]
          exact a.eight_dvd_slots
        · rw [h]
          exact dvd_zero 8
      rw [hstep] at hinv hdvd
      refine covered_cons_iff (s.step a).2 (if a.isFloat then f + 1 else f)
        (s.counts f a) (by rw [Abi.placed, hstep]) (by rw [hstep])
        (le_alignTo _ _ a.align_pos) rfl (by rw [Abi.padding, hstep])
        (by rw [Abi.spilled, hspill]) (by rw [Abi.vectorsInRegisters, hstep]; simp) hn
        a.size_le_slots (Arg.slots_lt (hclass a List.mem_cons_self)) a.eight_dvd_slots
        (a.eight_dvd_align.trans (dvd_alignTo _ _)) hD hE
        ((s.step a).2.eight_dvd_vectorsInRegisters as) ?_ ?_
      · rw [hstep]
        exact Abi.counted_of_hasBytes_eq_false hrest hinv
      · rw [hstep]
        exact ih hrest hinv hdvd (hE.add hcounts)

theorem Abi.after_inv {s : Abi} {f : ℕ} (as : List Arg) (hf : min f 8 ≤ s.sse) (h8 : 8 ∣ s.stack) :
    min (f + floatCount as) 8 ≤ (s.after as).sse ∧ 8 ∣ (s.after as).stack := by
  induction as generalizing s f with
  | nil => exact ⟨hf, h8⟩
  | cons a as ih =>
    have h := ih (Abi.step_sse hf a) (Abi.eight_dvd_step h8 a)
    rw [floatCount, List.countP_cons, Abi.after, List.foldl_cons]
    refine ⟨le_of_eq_of_le ?_ h.1, h.2⟩
    rw [floatCount]
    split_ifs <;> omega

theorem Abi.stack_le_after (s : Abi) (as : List Arg) : s.stack ≤ (s.after as).stack := by
  induction as generalizing s with
  | nil => exact le_rfl
  | cons a as ih =>
    refine le_trans ?_ (ih (s.step a).2)
    rcases s.step_cases a with ⟨-, -, hstep⟩ | ⟨-, -, hstep⟩ | ⟨-, -, hstep⟩
    · rw [hstep]
    · rw [hstep]
    · rw [hstep]
      exact (le_alignTo _ _ a.align_pos).trans (Nat.le_add_right _ _)

/-- The stack-passed arguments end with the stack. -/
theorem Abi.end_le_of_mem_placed {s : Abi} {as : List Arg} {p : Arg × ℕ}
    (h : p ∈ s.placed as) : p.2 + p.1.size ≤ (s.after as).stack := by
  induction as generalizing s with
  | nil => exact absurd h List.not_mem_nil
  | cons a as ih =>
    rw [Abi.placed] at h
    rw [Abi.after, List.foldl_cons, ← Abi.after]
    rcases s.step_cases a with ⟨-, -, hstep⟩ | ⟨-, -, hstep⟩ | ⟨-, -, hstep⟩
    · rw [hstep] at h ⊢
      exact ih h
    · rw [hstep] at h ⊢
      exact ih h
    · rw [hstep] at h ⊢
      rcases List.mem_cons.mp h with rfl | h
      · have hle := Abi.stack_le_after { s with stack := alignTo s.stack a.align + a.slots } as
        have hsize := a.size_le_slots
        dsimp only at hle ⊢
        omega
      · exact ih h

/-- What is counted and what is not. -/
theorem Abi.counted_add_spilled {s : Abi} {f : ℕ} {as : List Arg}
    (hclass : ∀ a ∈ as, a.class? ≠ none) (hf : min f 8 ≤ s.sse) :
    s.counted f as + s.spilled f as = s.stackSlots as + s.vectorsInRegisters as := by
  induction as generalizing s f with
  | nil => rfl
  | cons a as ih =>
    have hih := ih (fun b hb => hclass b (List.mem_cons_of_mem _ hb)) (Abi.step_sse hf a)
    rw [Abi.stackSlots] at hih
    rw [Abi.counted, Abi.spilled, Abi.stackSlots, Abi.vectorsInRegisters, Abi.placed, Abi.counts]
    rcases s.step_cases a with ⟨hc, -, hstep⟩ | ⟨hc, hsse, hstep⟩ | ⟨-, hsse, hstep⟩
    · rw [hstep] at hih ⊢
      cases Arg.kind (hclass a List.mem_cons_self) with
      | integer _ hfl hv hb hcl =>
        simp only [hfl, hv] at hih ⊢
        simpa using hih
      | _ => simp_all
    · rw [hstep] at hih ⊢
      cases Arg.kind (hclass a List.mem_cons_self) with
      | float _ hfl hv hb hcl hs hpos =>
        simp only [hfl, hv, show f < 8 by omega] at hih ⊢
        simpa using hih
      | vector _ hfl hv hb hcl hs hpos =>
        simp only [hfl, hv, hs] at hih ⊢
        simp at hih ⊢
        omega
      | _ => simp_all
    · rw [hstep] at hih ⊢
      cases Arg.kind (hclass a List.mem_cons_self) with
      | float _ hfl hv hb hcl hs hpos =>
        by_cases hlt : f < 8
        · simp [hfl, hv, hlt, hs] at hih ⊢
          omega
        · simp [hfl, hv, hlt] at hih ⊢
          omega
      | integer _ hfl hv | vector _ hfl hv | memory _ hfl hv =>
        simp [hfl, hv] at hih ⊢
        omega

theorem Abi.vectorsInRegisters_le (s : Abi) (as : List Arg) :
    s.vectorsInRegisters as ≤ 16 * (8 - s.sse) := by
  induction as generalizing s with
  | nil => exact Nat.zero_le _
  | cons a as ih =>
    have hih := ih (s.step a).2
    rw [Abi.vectorsInRegisters]
    rcases s.step_cases a with ⟨hc, -, hstep⟩ | ⟨-, hsse, hstep⟩ | ⟨-, -, hstep⟩
    · have hv : a.isVec = false := by
        by_contra hv
        cases Arg.kind (a := a) (by simp [hc]) with
        | _ => simp_all
      rw [hstep] at hih ⊢
      simpa [hv] using hih
    · rw [hstep] at hih ⊢
      dsimp only at hih ⊢
      split_ifs <;> omega
    · rw [hstep] at hih ⊢
      simpa using hih

/-! ### `va_start` -/

/-- The fixed arguments of a call. -/
def fixedArgs (fixed : ℕ) (byVal : List (ℕ × Ty)) (args : List Val) : List Arg :=
  (callArgs byVal 0 args).take fixed

/-- The variadic arguments of a call. -/
def variadicArgs (fixed : ℕ) (byVal : List (ℕ × Ty)) (args : List Val) : List Arg :=
  (callArgs byVal 0 args).drop fixed

/-- The shadow memory after `va_start`: the register save area is cleared, and the overflow area
up to the size that the caller stored. -/
def vaStartShadow (m : Mem) (regSave area size : ℕ) : Mem :=
  fill (fill m (shadowOf regSave) 176 0) (shadowOf area) size 0

/-- A byte of the overflow area is certainly clean if and only if it is within the size. -/
theorem vaStartShadow_eq_zero_iff {regSave area size n i : ℕ} (happ : AppRange area n)
    (hsave : AppRange regSave 176) (hapart : Apart regSave 176 area n) (hi : i < n) :
    (∀ m, appShadow (vaStartShadow m regSave area size) (area + i) = 0) ↔ i < size := by
  have hreg : ¬ (shadowOf regSave ≤ shadowOf (area + i) ∧
      shadowOf (area + i) < shadowOf regSave + 176) := by
    rw [mem_shadow_range hsave]
    rcases hapart with h | h <;> omega
  simp only [appShadow, vaStartShadow]
  constructor
  · intro h
    by_contra hsize
    have hone := h fun _ => 1
    rw [fill_apply, if_neg, fill_apply, if_neg hreg] at hone
    · exact absurd hone (by decide)
    · rw [happ.shadowOf_add hi]
      omega
  · intro h m
    rw [happ.shadowOf_add hi, fill_add_apply h]

/-- **The overflow area of a variadic call.** Whatever the shadow memory was before, all bytes of
all stack-passed variadic arguments are clean after `va_start`, if and only if the padding in front
of these arguments and the floats that the caller takes for register arguments do not exceed the
vectors that it takes for stack arguments, and the size fits in 32 bits. -/
theorem overflowArea_clean_iff (fixed : ℕ) (byVal : List (ℕ × Ty)) (args : List Val)
    (hclass : ∀ a ∈ callArgs byVal 0 args, a.class? ≠ none) (s : Abi)
    (hs : s = Abi.start.after (fixedArgs fixed byVal args)) (base regSave : ℕ)
    (happ : AppRange (base + s.stack)
      ((s.after (variadicArgs fixed byVal args)).stack - s.stack))
    (hsave : AppRange regSave 176)
    (hapart : Apart regSave 176 (base + s.stack)
      ((s.after (variadicArgs fixed byVal args)).stack - s.stack)) :
    (∀ p ∈ s.placed (variadicArgs fixed byVal args), ∀ k < p.1.size, ∀ m,
      appShadow (vaStartShadow m regSave (base + s.stack)
        (vaArgOverflowSize fixed byVal args)) (base + p.2 + k) = 0) ↔
    s.padding (variadicArgs fixed byVal args) +
        s.spilled (floatCount (fixedArgs fixed byVal args)) (variadicArgs fixed byVal args) ≤
      s.vectorsInRegisters (variadicArgs fixed byVal args) ∧
    s.stackSlots (variadicArgs fixed byVal args) +
        s.vectorsInRegisters (variadicArgs fixed byVal args) <
      2 ^ 32 + s.spilled (floatCount (fixedArgs fixed byVal args))
        (variadicArgs fixed byVal args) := by
  have hfixed := Abi.after_inv (s := Abi.start) (f := 0) (fixedArgs fixed byVal args)
    (Nat.zero_le _) (dvd_zero 8)
  rw [← hs, Nat.zero_add] at hfixed
  obtain ⟨hf, h8⟩ := hfixed
  have hvariadic : ∀ a ∈ variadicArgs fixed byVal args, a.class? ≠ none := fun a ha =>
    hclass a (List.mem_of_mem_drop ha)
  have hsize : overflowSize fixed byVal 0 args 0 48 0 =
      s.counted (floatCount (fixedArgs fixed byVal args)) (variadicArgs fixed byVal args) := by
    have h := overflowSize_eq fixed byVal args 0 Abi.start 0 0 hclass
    rw [hs]
    simpa [Abi.start, fixedArgs, variadicArgs] using h
  generalize variadicArgs fixed byVal args = as at *
  generalize floatCount (fixedArgs fixed byVal args) = f at *
  have hclean : (∀ p ∈ s.placed as, ∀ k < p.1.size, ∀ m,
      appShadow (vaStartShadow m regSave (base + s.stack)
        (vaArgOverflowSize fixed byVal args)) (base + p.2 + k) = 0) ↔
      ∀ p ∈ s.placed as, 0 < p.1.size →
        2 ^ 32 * (s.counted f as / 2 ^ 32) + p.2 + p.1.size ≤ s.stack + s.counted f as := by
    refine forall₂_congr fun p hp => ?_
    have hle := Abi.stack_le_of_mem_placed hp
    have hend := Abi.end_le_of_mem_placed hp
    have hbyte : ∀ k < p.1.size, ((∀ m, appShadow (vaStartShadow m regSave (base + s.stack)
        (vaArgOverflowSize fixed byVal args)) (base + p.2 + k) = 0) ↔
        p.2 - s.stack + k < s.counted f as % 2 ^ 32) := by
      intro k hk
      rw [show base + p.2 + k = base + s.stack + (p.2 - s.stack + k) by omega,
        vaStartShadow_eq_zero_iff happ hsave hapart (by omega), vaArgOverflowSize, hsize]
    rw [forall₂_congr hbyte]
    have hdm := Nat.div_add_mod (s.counted f as) (2 ^ 32)
    constructor
    · intro h hpos
      have := h (p.1.size - 1) (by omega)
      omega
    · intro h k hk
      have := h (by omega)
      omega
  rw [hclean, Abi.covered_iff hvariadic hf h8 (Dvd.dvd.mul_right (by norm_num) _) h8]
  have hsum := Abi.counted_add_spilled hvariadic hf
  have hvec := s.vectorsInRegisters_le as
  have hnone := Abi.counted_of_hasBytes_eq_false hvariadic hf
  have hdm := Nat.div_add_mod (s.counted f as) (2 ^ 32)
  have hmod := Nat.mod_lt (s.counted f as) (show 0 < 2 ^ 32 by norm_num)
  cases hbytes : s.hasBytes as with
  | true =>
    simp only [forall_const]
    omega
  | false =>
    obtain ⟨hpad, hspill, hcount⟩ := hnone hbytes
    simp only [Bool.false_eq_true, false_imp_iff, true_iff]
    omega

/-- The range lies in the mapping of the stack. -/
private theorem appRange_stack {p n : ℕ} (hp : 0x7fffffff0000 ≤ p) (hn : p + n ≤ 0x7fffffff2000) :
    AppRange p n := by
  intro i hi
  rw [memIsApp_iff]
  omega

/-- A format string, a `double` and seven integers: the integers on the stack are covered. -/
theorem overflowArea_clean_printf :
    appShadow (vaStartShadow (fun _ => 0xff) 0x7fffffff0000 0x7fffffff1000
      (vaArgOverflowSize 1 [] (.arg 0 .ptr :: .const (.fp .double) 0 ::
        List.replicate 7 (.const (.int 32) 0)))) 0x7fffffff100b = 0 := by
  refine (overflowArea_clean_iff 1 [] (.arg 0 .ptr :: .const (.fp .double) 0 ::
    List.replicate 7 (.const (.int 32) 0)) (by decide) ⟨1, 0, 0⟩ rfl 0x7fffffff1000 0x7fffffff0000
    ?_ ?_ ?_).mpr ?_ (⟨.int 32, false⟩, 8) ?_ 3 ?_ _
  · exact appRange_stack (by decide) (by decide)
  · exact appRange_stack (by decide) (by decide)
  · exact Or.inl (by decide)
  · decide
  · decide
  · decide

/-- A format string, six integers and an `x86_fp80`: one integer is on the stack, the `x86_fp80` is
sixteen bytes behind it, and the area cleared has eight and sixteen bytes. -/
theorem not_overflowArea_clean_fp80 :
    ¬ ∀ p ∈ (Abi.mk 1 0 0).placed (variadicArgs 1 [] (.arg 0 .ptr ::
        List.replicate 6 (.const (.int 32) 0) ++ [.const (.fp .x86Fp80) 0])), ∀ k < p.1.size, ∀ m,
      appShadow (vaStartShadow m 0x7fffffff0000 0x7fffffff1000
        (vaArgOverflowSize 1 [] (.arg 0 .ptr :: List.replicate 6 (.const (.int 32) 0) ++
          [.const (.fp .x86Fp80) 0]))) (0x7fffffff1000 + p.2 + k) = 0 := by
  intro h
  have hbyte := (vaStartShadow_eq_zero_iff (n := 32) (i := 25)
    (appRange_stack (by decide) (by decide)) (appRange_stack (by decide) (by decide))
    (Or.inl (by decide)) (by decide)).mp (h (⟨.fp .x86Fp80, false⟩, 16) (by decide) 9 (by decide))
  revert hbyte
  decide

end CQMSan
