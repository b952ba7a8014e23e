import Mathlib

/-!
# Worklists

The search loop of a static analysis: a stack of elements to look at and the set of elements
seen so far. Popping an element pushes those of its neighbours that were not seen before
(`pushNew`), so that every element is looked at once.

`explore next n wl seen` runs the loop with `n` steps of fuel and returns the set seen at the
end. Inside a finite universe a fuel of the size of the universe is enough, and the result is
exactly what is reachable from the start (`mem_explore_iff`).
-/

namespace Worklist

variable {α : Type*} [DecidableEq α]

/-- Pushes the elements that were not seen before, in order, onto the stack and the seen set. -/
def pushNew : List α → List α × List α → List α × List α
  | [], s => s
  | x :: xs, (wl, seen) => pushNew xs (if x ∈ seen then (wl, seen) else (x :: wl, x :: seen))

/-- The search loop. -/
def explore (next : α → List α) : ℕ → List α → List α → List α
  | 0, _, seen => seen
  | _ + 1, [], seen => seen
  | n + 1, v :: wl, seen =>
    let s := pushNew (next v) (wl, seen)
    explore next n s.1 s.2

/-- `y` is a neighbour of `x`. -/
def Edge (next : α → List α) (x y : α) : Prop := y ∈ next x

section PushNew

variable {xs wl seen : List α} {x : α}

theorem mem_pushNew_seen : x ∈ (pushNew xs (wl, seen)).2 ↔ x ∈ xs ∨ x ∈ seen := by
  induction xs generalizing wl seen with
  | nil => simp [pushNew]
  | cons y xs ih =>
    rw [pushNew]
    split_ifs with hy
    · rw [ih, List.mem_cons]
      constructor
      · rintro (h | h)
        · exact Or.inl (Or.inr h)
        · exact Or.inr h
      · rintro ((rfl | h) | h)
        · exact Or.inr hy
        · exact Or.inl h
        · exact Or.inr h
    · rw [ih, List.mem_cons, List.mem_cons]
      tauto

theorem mem_pushNew_wl : x ∈ (pushNew xs (wl, seen)).1 ↔ x ∈ wl ∨ x ∈ xs ∧ x ∉ seen := by
  induction xs generalizing wl seen with
  | nil => simp [pushNew]
  | cons y xs ih =>
    rw [pushNew]
    split_ifs with hy
    · rw [ih, List.mem_cons]
      constructor
      · rintro (h | ⟨h, hn⟩)
        · exact Or.inl h
        · exact Or.inr ⟨Or.inr h, hn⟩
      · rintro (h | ⟨rfl | h, hn⟩)
        · exact Or.inl h
        · exact absurd hy hn
        · exact Or.inr ⟨h, hn⟩
    · rw [ih, List.mem_cons, List.mem_cons, List.mem_cons, not_or]
      by_cases hxy : x = y
      · subst hxy
        tauto
      · tauto

theorem pushNew_cons (s : List α × List α) : pushNew (x :: xs) s = pushNew xs (pushNew [x] s) :=
  rfl

/-- The stack and the seen set grow by the same elements. -/
theorem length_pushNew (xs : List α) (s : List α × List α) :
    (pushNew xs s).1.length + s.2.length = (pushNew xs s).2.length + s.1.length := by
  induction xs generalizing s with
  | nil => exact Nat.add_comm _ _
  | cons y xs ih =>
    obtain ⟨wl, seen⟩ := s
    rw [pushNew]
    split_ifs
    · exact ih (wl, seen)
    · have h := ih (y :: wl, y :: seen)
      simp only [List.length_cons] at h ⊢
      omega

theorem length_le_pushNew_seen (xs : List α) (s : List α × List α) :
    s.2.length ≤ (pushNew xs s).2.length := by
  induction xs generalizing s with
  | nil => exact le_rfl
  | cons y xs ih =>
    obtain ⟨wl, seen⟩ := s
    rw [pushNew]
    split_ifs
    · exact ih (wl, seen)
    · exact (Nat.le_succ _).trans (ih (y :: wl, y :: seen))

theorem nodup_pushNew_seen (h : seen.Nodup) : (pushNew xs (wl, seen)).2.Nodup := by
  induction xs generalizing wl seen with
  | nil => exact h
  | cons y xs ih =>
    rw [pushNew]
    split_ifs with hy
    · exact ih h
    · exact ih (List.nodup_cons.mpr ⟨hy, h⟩)

/-- From equal stack and seen set the two stay equal. -/
theorem pushNew_diag (xs wl : List α) :
    pushNew xs (wl, wl) = ((pushNew xs (wl, wl)).2, (pushNew xs (wl, wl)).2) := by
  induction xs generalizing wl with
  | nil => rfl
  | cons y xs ih =>
    rw [pushNew]
    split_ifs
    · exact ih wl
    · exact ih (y :: wl)

/-- What is left to do: the stack, and the part of the universe that was not seen. -/
def remaining (U : Finset α) (s : List α × List α) : ℕ :=
  s.1.length + (U.filter (· ∉ s.2)).card

/-- At the start, with everything on the stack seen. -/
theorem remaining_diag_le {U : Finset α} {wl : List α} (hnd : wl.Nodup) (hwl : ∀ x ∈ wl, x ∈ U) :
    remaining U (wl, wl) ≤ U.card := by
  have hsplit := Finset.card_filter_add_card_filter_not (s := U) (p := (· ∈ wl))
  have hsub : (U.filter (· ∈ wl)) = wl.toFinset := by
    ext x
    rw [Finset.mem_filter, List.mem_toFinset]
    exact ⟨fun h => h.2, fun h => ⟨hwl x h, h⟩⟩
  rw [hsub, List.toFinset_card_of_nodup hnd] at hsplit
  exact hsplit.le

theorem remaining_pushNew_le {U : Finset α} (h : ∀ x ∈ xs, x ∈ U) (s : List α × List α) :
    remaining U (pushNew xs s) ≤ remaining U s := by
  induction xs generalizing s with
  | nil => rfl
  | cons y xs ih =>
    obtain ⟨wl, seen⟩ := s
    rw [pushNew]
    split_ifs with hy
    · exact ih (fun x hx => h x (List.mem_cons_of_mem _ hx)) _
    · refine (ih (fun x hx => h x (List.mem_cons_of_mem _ hx)) _).trans ?_
      -- `y` moves from the unseen part to the stack
      have hmem : y ∈ U.filter (· ∉ seen) :=
        Finset.mem_filter.mpr ⟨h y List.mem_cons_self, hy⟩
      have hrest : U.filter (· ∉ y :: seen) = (U.filter (· ∉ seen)).erase y := by
        ext z
        simp only [Finset.mem_filter, Finset.mem_erase, List.mem_cons, not_or]
        tauto
      have hcard := Finset.card_erase_add_one hmem
      simp only [remaining, List.length_cons, hrest]
      omega

end PushNew

section Explore

variable {next : α → List α} {n : ℕ} {wl seen : List α} {x y : α}

theorem subset_explore (h : x ∈ seen) : x ∈ explore next n wl seen := by
  induction n generalizing wl seen with
  | zero => exact h
  | succ n ih =>
    cases wl with
    | nil => exact h
    | cons v wl => exact ih (mem_pushNew_seen.mpr (Or.inr h))

/-- Everything seen was seen at the start or is reachable from the stack. -/
theorem reachable_of_mem_explore (h : x ∈ explore next n wl seen) :
    x ∈ seen ∨ ∃ v ∈ wl, Relation.ReflTransGen (Edge next) v x := by
  induction n generalizing wl seen with
  | zero => exact Or.inl h
  | succ n ih =>
    cases wl with
    | nil => exact Or.inl h
    | cons v wl =>
      have hstep : ∀ z ∈ next v, Relation.ReflTransGen (Edge next) z x →
          Relation.ReflTransGen (Edge next) v x := fun z hz hzx => .head hz hzx
      rcases ih h with hseen | ⟨z, hz, hzx⟩
      · rcases mem_pushNew_seen.mp hseen with hx | hx
        · exact Or.inr ⟨v, List.mem_cons_self, hstep x hx .refl⟩
        · exact Or.inl hx
      · rcases mem_pushNew_wl.mp hz with hz | ⟨hz, -⟩
        · exact Or.inr ⟨z, List.mem_cons_of_mem _ hz, hzx⟩
        · exact Or.inr ⟨v, List.mem_cons_self, hstep z hz hzx⟩

/-- With enough fuel the set seen at the end is closed under `next`. -/
theorem explore_closed {U : Finset α} (hU : ∀ x ∈ U, ∀ y ∈ next x, y ∈ U)
    (hwl : ∀ x ∈ wl, x ∈ U) (hfuel : remaining U (wl, seen) ≤ n)
    (hdone : ∀ x ∈ seen, x ∈ wl ∨ ∀ y ∈ next x, y ∈ seen)
    (hx : x ∈ explore next n wl seen) (hy : y ∈ next x) : y ∈ explore next n wl seen := by
  induction n generalizing wl seen with
  | zero =>
    obtain rfl : wl = [] := List.length_eq_zero_iff.mp (by simp only [remaining] at hfuel; omega)
    rcases hdone x hx with h | h
    · cases h
    · exact h y hy
  | succ n ih =>
    cases wl with
    | nil =>
      rcases hdone x hx with h | h
      · cases h
      · exact h y hy
    | cons v wl =>
      have hvU : v ∈ U := hwl v List.mem_cons_self
      refine ih ?_ ?_ ?_ hx
      · intro z hz
        rcases mem_pushNew_wl.mp hz with hz | ⟨hz, -⟩
        · exact hwl z (List.mem_cons_of_mem _ hz)
        · exact hU v hvU z hz
      · have hle := remaining_pushNew_le (hU v hvU) (wl, seen)
        simp only [remaining, List.length_cons] at hle hfuel ⊢
        omega
      · intro z hz
        by_cases hzv : z = v
        · subst hzv
          exact Or.inr fun w hw => mem_pushNew_seen.mpr (Or.inl hw)
        · rcases mem_pushNew_seen.mp hz with hz | hz
          · by_cases hzs : z ∈ seen
            · rcases hdone z hzs with h | h
              · rcases List.mem_cons.mp h with rfl | h
                · exact absurd rfl hzv
                · exact Or.inl (mem_pushNew_wl.mpr (Or.inl h))
              · exact Or.inr fun w hw => mem_pushNew_seen.mpr (Or.inr (h w hw))
            · exact Or.inl (mem_pushNew_wl.mpr (Or.inr ⟨hz, hzs⟩))
          · rcases hdone z hz with h | h
            · rcases List.mem_cons.mp h with rfl | h
              · exact absurd rfl hzv
              · exact Or.inl (mem_pushNew_wl.mpr (Or.inl h))
            · exact Or.inr fun w hw => mem_pushNew_seen.mpr (Or.inr (h w hw))

/-- **A worklist computes reachability.** -/
theorem mem_explore_iff {U : Finset α} (hU : ∀ x ∈ U, ∀ y ∈ next x, y ∈ U)
    (hwl : ∀ x ∈ wl, x ∈ U) (hfuel : remaining U (wl, wl) ≤ n) :
    x ∈ explore next n wl wl ↔ ∃ v ∈ wl, Relation.ReflTransGen (Edge next) v x := by
  constructor
  · intro h
    rcases reachable_of_mem_explore h with h | h
    · exact ⟨x, h, .refl⟩
    · exact h
  · rintro ⟨v, hv, hvx⟩
    induction hvx with
    | refl => exact subset_explore hv
    | tail _ hedge ih => exact explore_closed hU hwl hfuel (fun z hz => Or.inl hz) ih hedge

end Explore

end Worklist
