import Mathlib

/-!
# Dominance

Dominance in a directed graph with a root: `d` dominates `b` when every path from the root to `b`
meets `d`. A path *avoids* `s` when none of its edges ends in `s`; the root itself may be `s`, so
that the root dominates everything.

On the nodes that are reachable dominance is a partial order (`Dom.trans`, `Dom.antisymm`), and
strict dominance is transitive (`SDom.trans`).
-/

namespace Dominance

open Relation

variable {α : Type*} (E : α → α → Prop) (r : α)

/-- There is an edge from `b` to `c`, and `c` is not `s`. -/
def Avoiding (s b c : α) : Prop := E b c ∧ c ≠ s

/-- Every path from the root to `b` meets `d`. -/
def Dom (d b : α) : Prop := ReflTransGen (Avoiding E d) r b → r = d

/-- Dominance by another node. -/
def SDom (d b : α) : Prop := d ≠ b ∧ Dom E r d b

variable {E r} {b c d : α}

/-- A path either avoids `d`, or it meets `d`. -/
theorem avoids_or_meets {a : α} (d : α) (h : ReflTransGen E a b) :
    ReflTransGen (Avoiding E d) a b ∨ ReflTransGen E a d := by
  induction h with
  | refl => exact Or.inl .refl
  | @tail b c hab hbc ih =>
    rcases ih with ih | ih
    · by_cases hc : c = d
      · subst hc
        exact Or.inr (hab.tail hbc)
      · exact Or.inl (ih.tail ⟨hbc, hc⟩)
    · exact Or.inr ih

/-- A path that avoids `s` either avoids `d` as well, or it meets `d` before. -/
private theorem avoiding_or_meets {a s : α} (d : α) (h : ReflTransGen (Avoiding E s) a b) :
    ReflTransGen (Avoiding E d) a b ∨ ReflTransGen (Avoiding E s) a d := by
  rcases avoids_or_meets d h with h | h
  · exact Or.inl (ReflTransGen.mono (fun _ _ hxy => ⟨hxy.1.1, hxy.2⟩) _ _ h)
  · exact Or.inr h

/-- A dominator of a reachable node is reachable. -/
theorem Dom.reachable (h : Dom E r d b) (hb : ReflTransGen E r b) : ReflTransGen E r d := by
  rcases avoids_or_meets d hb with hav | hd
  · rw [h hav]
  · exact hd

theorem Dom.trans (hdc : Dom E r d c) (hcb : Dom E r c b) : Dom E r d b := by
  intro hpath
  rcases avoiding_or_meets c hpath with hav | hc
  · obtain rfl := hcb hav
    exact hdc .refl
  · exact hdc hc

/-- A path to one of two nodes avoids one of them until it meets the other. -/
private theorem first_of_two (hne : b ≠ d) {a : α} (h : ReflTransGen E r a) :
    ReflTransGen (fun x y => E x y ∧ y ≠ b ∧ y ≠ d) r a ∨
      ReflTransGen (Avoiding E d) r b ∨ ReflTransGen (Avoiding E b) r d := by
  induction h with
  | refl => exact Or.inl .refl
  | @tail x y _ hxy ih =>
    rcases ih with ih | ih
    · by_cases hyb : y = b
      · subst hyb
        have hpath : ReflTransGen (Avoiding E d) r x :=
          ReflTransGen.mono (fun _ _ h => ⟨h.1, h.2.2⟩) _ _ ih
        exact Or.inr (Or.inl (hpath.tail ⟨hxy, hne⟩))
      · by_cases hyd : y = d
        · subst hyd
          have hpath : ReflTransGen (Avoiding E b) r x :=
            ReflTransGen.mono (fun _ _ h => ⟨h.1, h.2.1⟩) _ _ ih
          exact Or.inr (Or.inr (hpath.tail ⟨hxy, hne.symm⟩))
        · exact Or.inl (ih.tail ⟨hxy, hyb, hyd⟩)
    · exact Or.inr ih

/-- Two reachable nodes that dominate each other are one. -/
theorem Dom.antisymm (hdb : Dom E r d b) (hbd : Dom E r b d) (hb : ReflTransGen E r b) :
    d = b := by
  by_contra hne
  have hroot : r = d ∨ r = b → False := by
    rintro (rfl | rfl)
    · exact hne (hbd .refl)
    · exact hne (hdb .refl).symm
  rcases first_of_two (Ne.symm hne) hb with h | h | h
  · rcases h.cases_tail with h | ⟨c, -, -, hc, -⟩
    · exact hroot (Or.inr h.symm)
    · exact hc rfl
  · exact hroot (Or.inl (hdb h))
  · exact hroot (Or.inr (hbd h))

theorem SDom.trans (hdc : SDom E r d c) (hcb : SDom E r c b) (hb : ReflTransGen E r b) :
    SDom E r d b := by
  refine ⟨?_, hdc.2.trans hcb.2⟩
  rintro rfl
  exact hcb.1 (hcb.2.antisymm hdc.2 hb)

end Dominance
