import Mathlib

/-!
# Byte memories

A byte memory is a function from addresses to bytes. The three bulk operations of a C library
on it are `fill` (`memset`), `blit` (`memcpy` between ranges that do not overlap) and
`storeLE` (a little endian store of `n` bytes); each is described by one pointwise equation, and
`loadLE` reads back what `storeLE` wrote.

`AgreeOn m m' p n` says that two memories hold the same bytes in `[p, p + n)`. It is the only
frame condition used: a write that stays outside a range agrees with the old memory on it.
-/

namespace ByteMemory

/-- A byte memory. -/
abbrev Mem := ℕ → BitVec 8

variable {m m' : Mem} {p q a b n k : ℕ} {v : BitVec 8} {w : ℕ}

/-! ### Ranges -/

/-- The two ranges `[p, p + n)` and `[q, q + k)` have no byte in common. -/
def Apart (p n q k : ℕ) : Prop := p + n ≤ q ∨ q + k ≤ p

theorem Apart.symm (h : Apart p n q k) : Apart q k p n := h.elim Or.inr Or.inl

/-- The memories hold the same bytes in `[p, p + n)`. -/
def AgreeOn (m m' : Mem) (p n : ℕ) : Prop := ∀ i < n, m' (p + i) = m (p + i)

theorem AgreeOn.refl (m : Mem) (p n : ℕ) : AgreeOn m m p n := fun _ _ => rfl

theorem AgreeOn.trans {m'' : Mem} (h : AgreeOn m m' p n) (h' : AgreeOn m' m'' p n) :
    AgreeOn m m'' p n := fun i hi => (h' i hi).trans (h i hi)

theorem AgreeOn.mono (h : AgreeOn m m' p n) (hp : p ≤ q) (hn : q + k ≤ p + n) :
    AgreeOn m m' q k := by
  intro i hi
  have := h (q + i - p) (by omega)
  rwa [show p + (q + i - p) = q + i by omega] at this

/-- Agreement stated with the address instead of the offset. -/
theorem AgreeOn.at (h : AgreeOn m m' p n) (h1 : p ≤ a) (h2 : a < p + n) : m' a = m a := by
  have := h (a - p) (by omega)
  rwa [show p + (a - p) = a by omega] at this

/-! ### Filling and copying -/

/-- `memset(p, v, n)`. -/
def fill (m : Mem) (p n : ℕ) (v : BitVec 8) : Mem :=
  fun a => if p ≤ a ∧ a < p + n then v else m a

/-- `memcpy(p, q, n)`; the source is read before anything is written. -/
def blit (m : Mem) (p q n : ℕ) : Mem :=
  fun a => if p ≤ a ∧ a < p + n then m (q + (a - p)) else m a

theorem fill_apply (m : Mem) (p n : ℕ) (v : BitVec 8) (a : ℕ) :
    fill m p n v a = if p ≤ a ∧ a < p + n then v else m a := rfl

theorem blit_apply (m : Mem) (p q n a : ℕ) :
    blit m p q n a = if p ≤ a ∧ a < p + n then m (q + (a - p)) else m a := rfl

@[simp] theorem fill_zero (m : Mem) (p : ℕ) (v : BitVec 8) : fill m p 0 v = m := by
  funext a
  rw [fill_apply, if_neg (by omega)]

theorem fill_add_apply (h : k < n) : fill m p n v (p + k) = v := if_pos ⟨by omega, by omega⟩

theorem blit_add_apply (h : k < n) : blit m p q n (p + k) = m (q + k) := by
  rw [blit_apply, if_pos ⟨by omega, by omega⟩, Nat.add_sub_cancel_left]

theorem agreeOn_fill (h : Apart p n q k) : AgreeOn m (fill m p n v) q k := by
  intro i hi
  rw [fill_apply, if_neg]
  rcases h with h | h <;> omega

theorem agreeOn_blit (h : Apart p n q k) : AgreeOn m (blit m p a n) q k := by
  intro i hi
  rw [blit_apply, if_neg]
  rcases h with h | h <;> omega

theorem agreeOn_update (h : a < q ∨ q + k ≤ a) : AgreeOn m (Function.update m a v) q k := by
  intro i hi
  rw [Function.update_of_ne]
  omega

/-- Filling a range piece by piece is filling it at once. -/
theorem fill_fill_fill (h1 : p ≤ a) (h2 : a ≤ b) (h3 : b ≤ p + n) :
    fill (fill (fill m p (a - p) v) b (p + n - b) v) a (b - a) v = fill m p n v := by
  funext x
  simp only [fill_apply]
  by_cases hx : p ≤ x ∧ x < p + n
  · rw [if_pos hx]
    split_ifs <;> first | rfl | omega
  · rw [if_neg hx]
    split_ifs <;> first | rfl | omega

/-! ### Little endian words -/

/-- The number stored little endian in the `n` bytes from `a` on. -/
def loadLE (m : Mem) (a : ℕ) : ℕ → ℕ
  | 0 => 0
  | n + 1 => (m a).toNat + 256 * loadLE m (a + 1) n

/-- Stores the low `n` bytes of `w` little endian from `a` on. -/
def storeLE (m : Mem) (a : ℕ) (n : ℕ) (w : ℕ) : Mem :=
  fun b => if a ≤ b ∧ b < a + n then BitVec.ofNat 8 (w / 256 ^ (b - a)) else m b

theorem storeLE_apply (m : Mem) (a n w b : ℕ) :
    storeLE m a n w b =
      if a ≤ b ∧ b < a + n then BitVec.ofNat 8 (w / 256 ^ (b - a)) else m b := rfl

theorem agreeOn_storeLE (h : Apart a n q k) : AgreeOn m (storeLE m a n w) q k := by
  intro i hi
  rw [storeLE_apply, if_neg]
  rcases h with h | h <;> omega

/-- A load sees only the bytes of its own range. -/
theorem loadLE_congr (h : AgreeOn m m' a n) : loadLE m' a n = loadLE m a n := by
  induction n generalizing a with
  | zero => rfl
  | succ n ih =>
    have hhead : m' a = m a := h 0 (Nat.succ_pos n)
    have htail : AgreeOn m m' (a + 1) n := h.mono (by omega) (by omega)
    rw [loadLE, loadLE, hhead, ih htail]

/-- The bytes a store writes hold the stored number modulo `256 ^ n`. -/
private theorem loadLE_of_bytes (h : ∀ i < n, m (a + i) = BitVec.ofNat 8 (w / 256 ^ i)) :
    loadLE m a n = w % 256 ^ n := by
  induction n generalizing a w with
  | zero => simp [loadLE, Nat.mod_one]
  | succ n ih =>
    have hhead : (m a).toNat = w % 256 := by
      have := h 0 (Nat.succ_pos n)
      simp only [Nat.add_zero, pow_zero, Nat.div_one] at this
      simp [this]
    have htail : loadLE m (a + 1) n = w / 256 % 256 ^ n := by
      refine ih fun i hi => ?_
      have := h (i + 1) (by omega)
      rwa [← Nat.add_assoc, Nat.add_right_comm, pow_succ', ← Nat.div_div_eq_div_mul] at this
    rw [loadLE, hhead, htail, pow_succ', Nat.mod_mul]

/-- **Read after write.** -/
theorem loadLE_storeLE (m : Mem) (a n w : ℕ) : loadLE (storeLE m a n w) a n = w % 256 ^ n := by
  refine loadLE_of_bytes fun i hi => ?_
  rw [storeLE_apply, if_pos ⟨by omega, by omega⟩, Nat.add_sub_cancel_left]

end ByteMemory
