import CQMSan.Pass.Materialize

/-!
# Checks of one site are consecutive

`materializeChecksLegacy` walks over runs of checks with one site and asserts that no site starts
a second run. `groupByOrigIns` establishes this: it permutes the checks, keeps the order of those
of one site and puts them next to each other.
-/

namespace CQMSan

/-! ### Consecutive keys -/

section Consecutive

variable {α β : Type} {key : α → ℕ} {l l' : List α}

/-- Between two elements with one key there is none with another. -/
def Consecutive (key : α → ℕ) (l : List α) : Prop :=
  ∀ x z y, List.Sublist [x, z, y] l → key x = key y → key z = key x

theorem consecutive_nil : Consecutive key [] := fun _ _ _ h => by cases h

theorem Consecutive.sublist (h : Consecutive key l) (hsub : List.Sublist l' l) :
    Consecutive key l' := fun x z y hxy => h x z y (hxy.trans hsub)

theorem consecutive_of_eq {k : ℕ} (h : ∀ x ∈ l, key x = k) : Consecutive key l :=
  fun _ _ _ hsub _ => (h _ (hsub.subset (by simp))).trans (h _ (hsub.subset (by simp))).symm

theorem consecutive_of_nodup (h : (l.map key).Nodup) : Consecutive key l := by
  intro x z y hsub hxy
  have hnd := h.sublist (hsub.map key)
  simp [hxy] at hnd

/-- Two lists without a common key, one after the other. -/
theorem Consecutive.append (h : Consecutive key l) (h' : Consecutive key l')
    (hdisj : ∀ x ∈ l, ∀ y ∈ l', key x ≠ key y) : Consecutive key (l ++ l') := by
  intro x z y hsub hxy
  obtain ⟨l₁, l₂, heq, h₁, h₂⟩ := List.sublist_append_iff.mp hsub
  match l₁, heq with
  | [], heq =>
    rw [List.nil_append] at heq
    exact h' x z y (heq ▸ h₂) hxy
  | [a], heq =>
    obtain ⟨rfl, rfl⟩ : x = a ∧ [z, y] = l₂ := by simpa using heq
    exact absurd hxy (hdisj x (h₁.subset (by simp)) y (h₂.subset (by simp)))
  | [a, b], heq =>
    obtain ⟨rfl, rfl, rfl⟩ : x = a ∧ z = b ∧ [y] = l₂ := by simpa using heq
    exact absurd hxy (hdisj x (h₁.subset (by simp)) y (h₂.subset (by simp)))
  | a :: b :: c :: l₁, heq =>
    obtain ⟨rfl, rfl, rfl, hl⟩ : x = a ∧ z = b ∧ y = c ∧ [] = l₁ ++ l₂ := by simpa using heq
    obtain ⟨rfl, -⟩ : l₁ = [] ∧ l₂ = [] := by simpa using hl.symm
    exact h x z y h₁ hxy

/-- Runs of pairwise different keys. -/
theorem consecutive_flatMap {run : β → List α} {k : β → ℕ} :
    ∀ {L : List β}, (∀ b ∈ L, ∀ x ∈ run b, key x = k b) → (L.map k).Nodup →
      Consecutive key (L.flatMap run)
  | [], _, _ => consecutive_nil
  | b :: L, hrun, hnd => by
    rw [List.map_cons, List.nodup_cons] at hnd
    rw [List.flatMap_cons]
    refine Consecutive.append (consecutive_of_eq (hrun b List.mem_cons_self))
      (consecutive_flatMap (fun c hc => hrun c (List.mem_cons_of_mem _ hc)) hnd.2)
      fun x hx y hy hxy => hnd.1 ?_
    obtain ⟨c, hc, hy⟩ := List.mem_flatMap.mp hy
    rw [← hrun b List.mem_cons_self x hx, hxy, hrun c (List.mem_cons_of_mem _ hc) y hy]
    exact List.mem_map_of_mem hc

end Consecutive

/-! ### Grouping -/

section Grouping

variable {α : Type} (key : α → ℕ)

theorem groupByKey_nodup (l : List α) : ((groupByKey key l).map Prod.fst).Nodup := by
  induction l with
  | nil => exact List.nodup_nil
  | cons x l ih =>
    rw [groupByKey, List.map_cons, List.nodup_cons]
    constructor
    · rintro h
      obtain ⟨p, hp, hpk⟩ := List.mem_map.mp h
      exact absurd hpk (by simpa using (List.mem_filter.mp hp).2)
    · exact ih.sublist (List.filter_sublist.map _)

private theorem lookup_filter_ne (gs : List (ℕ × List α)) {k n : ℕ} (h : n ≠ k) :
    (gs.filter (·.1 ≠ k)).lookup n = gs.lookup n := by
  induction gs with
  | nil => rfl
  | cons p gs ih =>
    by_cases hp : p.1 = k
    · have hn : (n == p.1) = false := by simpa [hp] using h
      rw [List.filter_cons_of_neg (by simpa using hp), ih, List.lookup_cons, hn]
    · rw [List.filter_cons_of_pos (by simpa using hp), List.lookup_cons, List.lookup_cons, ih]

/-- The group of a key holds the elements with this key, in their order. -/
theorem lookup_groupByKey (l : List α) (n : ℕ) :
    ((groupByKey key l).lookup n).getD [] = l.filter (key · = n) := by
  induction l generalizing n with
  | nil => rfl
  | cons x l ih =>
    rw [groupByKey, List.lookup_cons]
    by_cases hn : key x = n
    · rw [List.filter_cons_of_pos (by simpa using hn), ← ih n, hn]
      simp
    · have hn' : (n == key x) = false := by simpa using Ne.symm hn
      rw [List.filter_cons_of_neg (by simpa using hn), ← ih n, hn']
      simp only [lookup_filter_ne _ (Ne.symm hn)]

private theorem flatMap_filter_key {gs : List (ℕ × List α)} (hnd : (gs.map Prod.fst).Nodup)
    (k : ℕ) : (gs.filter (·.1 = k)).flatMap (·.2) = (gs.lookup k).getD [] := by
  induction gs with
  | nil => rfl
  | cons p gs ih =>
    rw [List.map_cons, List.nodup_cons] at hnd
    by_cases hk : p.1 = k
    · have hrest : gs.filter (·.1 = k) = [] := by
        refine List.filter_eq_nil_iff.mpr fun q hq hqk => hnd.1 ?_
        rw [hk, ← of_decide_eq_true hqk]
        exact List.mem_map_of_mem hq
      simp [List.lookup, hk, hrest]
    · have hk' : (k == p.1) = false := by simpa using Ne.symm hk
      simp [List.lookup, hk, hk', ih hnd.2]

theorem groupByKey_key {l : List α} {p : ℕ × List α} (hp : p ∈ groupByKey key l) :
    ∀ x ∈ p.2, key x = p.1 := by
  intro x hx
  have hmem : x ∈ ((groupByKey key l).filter (·.1 = p.1)).flatMap (·.2) :=
    List.mem_flatMap.mpr ⟨p, List.mem_filter.mpr ⟨hp, by simp⟩, hx⟩
  rw [flatMap_filter_key (groupByKey_nodup key l), lookup_groupByKey] at hmem
  exact of_decide_eq_true (List.mem_filter.mp hmem).2

theorem groupByKey_ne_nil (l : List α) : ∀ p ∈ groupByKey key l, p.2 ≠ [] := by
  induction l with
  | nil => simp [groupByKey]
  | cons x l ih =>
    rw [groupByKey]
    refine List.forall_mem_cons.mpr ⟨List.cons_ne_nil _ _, fun p hp => ?_⟩
    exact ih p (List.mem_filter.mp hp).1

/-- Grouping keeps the order of the elements with one key. -/
theorem groupByKey_stable (l : List α) (n : ℕ) :
    ((groupByKey key l).flatMap (·.2)).filter (key · = n) = l.filter (key · = n) := by
  rw [← lookup_groupByKey key l n, ← flatMap_filter_key (groupByKey_nodup key l),
    List.filter_flatMap]
  have hgroups : ∀ gs : List (ℕ × List α), (∀ p ∈ gs, ∀ x ∈ p.2, key x = p.1) →
      (gs.flatMap fun p => p.2.filter (key · = n)) = (gs.filter (·.1 = n)).flatMap (·.2) := by
    intro gs hgs
    induction gs with
    | nil => rfl
    | cons p gs ih =>
      rw [List.flatMap_cons, ih fun q hq => hgs q (List.mem_cons_of_mem _ hq)]
      have hp := hgs p List.mem_cons_self
      by_cases hn : p.1 = n
      · have hall : p.2.filter (key · = n) = p.2 :=
          List.filter_eq_self.mpr fun x hx => by simp [hp x hx, hn]
        rw [hall, List.filter_cons_of_pos (by simpa using hn), List.flatMap_cons]
      · have hnone : p.2.filter (key · = n) = [] :=
          List.filter_eq_nil_iff.mpr fun x hx => by simp [hp x hx, hn]
        rw [hnone, List.filter_cons_of_neg (by simpa using hn), List.nil_append]
  exact hgroups _ fun p hp => groupByKey_key key hp

/-- Grouping permutes. -/
theorem groupByKey_perm (l : List α) : ((groupByKey key l).flatMap (·.2)).Perm l := by
  induction l with
  | nil => exact List.Perm.refl _
  | cons x l ih =>
    rw [groupByKey, List.flatMap_cons, List.cons_append]
    refine List.Perm.cons x (List.Perm.trans ?_ ih)
    rw [← flatMap_filter_key (groupByKey_nodup key l), ← List.flatMap_append]
    refine List.Perm.flatMap_right _ ?_
    have hsplit := List.filter_append_perm (fun p : ℕ × List α => decide (p.1 = key x))
      (groupByKey key l)
    simpa using hsplit

end Grouping

/-- `groupByOrigIns` permutes the checks. -/
theorem groupByOrigIns_perm (cs : List Check) : (groupByOrigIns cs).Perm cs :=
  groupByKey_perm _ cs

/-- `groupByOrigIns` makes the checks of one site consecutive. -/
theorem groupByOrigIns_consecutive (cs : List Check) :
    Consecutive (·.origIns.name) (groupByOrigIns cs) :=
  consecutive_flatMap (k := Prod.fst) (fun _ hp => groupByKey_key _ hp)
    (groupByKey_nodup _ cs)

/-- `groupByOrigIns` keeps the order of the checks of one site. -/
theorem groupByOrigIns_stable (cs : List Check) (n : ℕ) :
    (groupByOrigIns cs).filter (·.origIns.name = n) = cs.filter (·.origIns.name = n) :=
  groupByKey_stable _ cs n

/-! ### The runs of the legacy strategy -/

theorem checkRuns_cons (c : Check) (cs : List Check) :
    ∃ g gs, checkRuns (c :: cs) = (c.origIns.name, g) :: gs := by
  rw [checkRuns]
  split
  · exact ⟨_, _, rfl⟩
  next n g gs _ =>
    split_ifs with h
    · rw [h]
      exact ⟨_, _, rfl⟩
    · exact ⟨_, _, rfl⟩

theorem mem_of_mem_checkRuns {cs : List Check} {n : ℕ} (h : n ∈ (checkRuns cs).map Prod.fst) :
    ∃ c ∈ cs, c.origIns.name = n := by
  induction cs with
  | nil => cases h
  | cons c cs ih =>
    have hlift : n ∈ (checkRuns cs).map Prod.fst → ∃ d ∈ c :: cs, d.origIns.name = n := by
      intro hn
      obtain ⟨d, hd, hdn⟩ := ih hn
      exact ⟨d, List.mem_cons_of_mem _ hd, hdn⟩
    have hself : n = c.origIns.name → ∃ d ∈ c :: cs, d.origIns.name = n :=
      fun hn => ⟨c, List.mem_cons_self, hn.symm⟩
    rw [checkRuns] at h
    split at h
    · exact hself (by simpa using h)
    next m g gs hruns =>
      rw [hruns] at hlift
      split_ifs at h
      · exact hlift h
      · rcases List.mem_cons.mp h with h | h
        · exact hself h
        · exact hlift h

/-- The assertion on `Done`: no site starts a second run. -/
theorem checkRuns_nodup {cs : List Check} (h : Consecutive (·.origIns.name) cs) :
    ((checkRuns cs).map Prod.fst).Nodup := by
  induction cs with
  | nil => exact List.nodup_nil
  | cons c cs ih =>
    have hnd := ih (h.sublist (List.sublist_cons_self c cs))
    rw [checkRuns]
    split
    · simp
    next m g gs hruns =>
      rw [hruns] at hnd
      split_ifs with hm
      · exact hnd
      · refine List.nodup_cons.mpr ⟨fun hmem => ?_, hnd⟩
        -- a later check of the site stands behind the head of the rest, which has another site
        have hmem' : c.origIns.name ∈ (checkRuns cs).map Prod.fst := by
          rw [hruns]
          exact hmem
        obtain ⟨d, hd, hdn⟩ := mem_of_mem_checkRuns hmem'
        obtain ⟨e, cs, rfl⟩ : ∃ e cs', cs = e :: cs' := by
          cases cs with
          | nil => cases hd
          | cons e cs => exact ⟨e, cs, rfl⟩
        obtain ⟨g', gs', hcons⟩ := checkRuns_cons e cs
        have hem : e.origIns.name = m := by
          rw [hruns] at hcons
          exact (congrArg Prod.fst (List.cons.inj hcons).1).symm
        have hd' : d ∈ cs := by
          rcases List.mem_cons.mp hd with rfl | hd
          · exact absurd (hdn.symm.trans hem) hm
          · exact hd
        have hsub : List.Sublist [c, e, d] (c :: e :: cs) :=
          ((List.singleton_sublist.mpr hd').cons_cons e).cons_cons c
        exact hm ((h c e d hsub hdn.symm).symm.trans hem)

end CQMSan
