import CQMSan.Pass.VisitInv

/-!
# The depth-first order respects dominance

Every reachable block is visited: the rounds suffice for the walk to end (`depthFirst_closed`). A
block is pushed by a block visited before it, so the blocks visited up to a block hold a path to
it, and with it all its dominators (`depthFirst_sdom`). Hence an instruction is visited after all
the instructions that precede it on every path (`Ctx.visited_before`).
-/

namespace CQMSan

/-! ### The walk ends -/

section Walk

variable {f : Cfg}

/-- The pushes still to come, when the blocks `seen` were visited. -/
def pushesLeft (f : Cfg) (seen : List Label) : ℕ :=
  ((f.labels.filter (· ∉ seen)).map fun b => (f.succs b).length).sum

theorem pushesLeft_cons {seen : List Label} {b : Label} (hb : b ∈ f.labels) (hseen : b ∉ seen) :
    (f.succs b).length + pushesLeft f (b :: seen) ≤ pushesLeft f seen := by
  have hmain : ∀ ls : List Label, b ∈ ls →
      (f.succs b).length + ((ls.filter (· ∉ b :: seen)).map fun c => (f.succs c).length).sum ≤
        ((ls.filter (· ∉ seen)).map fun c => (f.succs c).length).sum := by
    have hle : ∀ ls : List Label,
        ((ls.filter (· ∉ b :: seen)).map fun c => (f.succs c).length).sum ≤
          ((ls.filter (· ∉ seen)).map fun c => (f.succs c).length).sum := by
      intro ls
      refine List.Sublist.sum_le_sum (List.Sublist.map _ ?_) fun _ _ => Nat.zero_le _
      exact List.monotone_filter_right ls fun c hc => by simp_all
    intro ls hmem
    induction ls with
    | nil => cases hmem
    | cons c ls ih =>
      by_cases hcb : c = b
      · subst hcb
        rw [List.filter_cons_of_neg (by simp), List.filter_cons_of_pos (by simpa using hseen),
          List.map_cons, List.sum_cons]
        have := hle ls
        omega
      · have hrest := ih ((List.mem_cons.mp hmem).resolve_left (Ne.symm hcb))
        by_cases hc : c ∈ seen
        · rw [List.filter_cons_of_neg (by simp [hc]), List.filter_cons_of_neg (by simp [hc])]
          exact hrest
        · rw [List.filter_cons_of_pos (by simp [hc, hcb]), List.filter_cons_of_pos (by simp [hc]),
            List.map_cons, List.map_cons, List.sum_cons, List.sum_cons]
          omega
  exact hmain f.labels hb

/-- With enough rounds the blocks visited are closed under successors. -/
theorem depthFirst_closed (hsuccs : ∀ b ∈ f.labels, ∀ c ∈ f.succs b, c ∈ f.labels) (n : ℕ)
    (stack seen : List Label) (hstack : ∀ b ∈ stack, b ∈ f.labels)
    (hn : stack.length + pushesLeft f seen ≤ n) :
    (∀ b ∈ stack, b ∈ seen ∨ b ∈ depthFirst f n stack seen) ∧
      ∀ b ∈ depthFirst f n stack seen, ∀ c ∈ f.succs b,
        c ∈ seen ∨ c ∈ depthFirst f n stack seen := by
  induction n generalizing stack seen with
  | zero =>
    obtain rfl : stack = [] := List.length_eq_zero_iff.mp (by omega)
    simp [depthFirst]
  | succ n ih =>
    cases stack with
    | nil => simp [depthFirst]
    | cons b stack =>
      have hb := hstack b List.mem_cons_self
      have hrest : ∀ c ∈ stack, c ∈ f.labels := fun c hc => hstack c (List.mem_cons_of_mem _ hc)
      rw [List.length_cons] at hn
      rw [depthFirst]
      split_ifs with hseen
      · obtain ⟨hst, hcl⟩ := ih stack seen hrest (by omega)
        refine ⟨fun c hc => ?_, hcl⟩
        rcases List.mem_cons.mp hc with rfl | hc
        · exact Or.inl hseen
        · exact hst c hc
      · have hpush := pushesLeft_cons hb hseen
        have hlabels : ∀ c ∈ f.succs b ++ stack, c ∈ f.labels := fun c hc =>
          (List.mem_append.mp hc).elim (hsuccs b hb c) (hrest c)
        obtain ⟨hst, hcl⟩ := ih (f.succs b ++ stack) (b :: seen) hlabels
          (by rw [List.length_append]; omega)
        -- what was seen with `b` is seen, or is `b`, which is in the result
        have hmove : ∀ c, c ∈ b :: seen ∨ c ∈ depthFirst f n (f.succs b ++ stack) (b :: seen) →
            c ∈ seen ∨ c ∈ b :: depthFirst f n (f.succs b ++ stack) (b :: seen) := by
          rintro c (hc | hc)
          · rcases List.mem_cons.mp hc with rfl | hc
            · exact Or.inr List.mem_cons_self
            · exact Or.inl hc
          · exact Or.inr (List.mem_cons_of_mem _ hc)
        constructor
        · intro c hc
          rcases List.mem_cons.mp hc with rfl | hc
          · exact Or.inr List.mem_cons_self
          · exact hmove c (hst c (List.mem_append_right _ hc))
        · intro c hc e he
          rcases List.mem_cons.mp hc with rfl | hc
          · exact hmove e (hst e (List.mem_append_left _ he))
          · exact hmove e (hcl c hc e he)

/-- A block is on the stack at the start, or was pushed by a block visited before it. -/
theorem depthFirst_pushed (n : ℕ) (stack seen p q : List Label) (b : Label)
    (h : depthFirst f n stack seen = p ++ b :: q) : b ∈ stack ∨ ∃ a ∈ p, f.Edge a b := by
  induction n generalizing stack seen p with
  | zero => simp [depthFirst] at h
  | succ n ih =>
    cases stack with
    | nil => simp [depthFirst] at h
    | cons c stack =>
      rw [depthFirst] at h
      split_ifs at h
      · exact (ih stack seen p h).imp_left (List.mem_cons_of_mem _)
      · cases p with
        | nil => exact Or.inl (List.mem_cons.mpr (Or.inl (List.cons.inj h).1.symm))
        | cons a p =>
          obtain rfl : c = a := (List.cons.inj h).1
          rcases ih (f.succs c ++ stack) (c :: seen) p (List.cons.inj h).2 with hb | ⟨a, ha, hab⟩
          · rcases List.mem_append.mp hb with hb | hb
            · exact Or.inr ⟨c, List.mem_cons_self, hb⟩
            · exact Or.inl (List.mem_cons_of_mem _ hb)
          · exact Or.inr ⟨a, List.mem_cons_of_mem _ ha, hab⟩

/-- The blocks visited up to a block hold a path to it. -/
theorem depthFirst_path {r : Label} {n : ℕ} (d : Label) :
    ∀ (k : ℕ) (p q : List Label) (b : Label), p.length = k →
      depthFirst f n [r] [] = p ++ b :: q → d ∉ p → b ≠ d →
        Relation.ReflTransGen (Dominance.Avoiding f.Edge d) r b := by
  intro k
  induction k using Nat.strong_induction_on with
  | _ k ih =>
    rintro p q b rfl h hd hb
    rcases depthFirst_pushed n [r] [] p q b h with hr | ⟨a, ha, hab⟩
    · rw [List.mem_singleton.mp hr]
    · obtain ⟨p₁, p₂, rfl⟩ := List.append_of_mem ha
      have hda : a ≠ d := fun had => hd (had ▸ ha)
      have hpath := ih p₁.length (by simp) p₁ (p₂ ++ b :: q) a rfl (by simpa using h)
        (fun hd₁ => hd (List.mem_append_left _ hd₁)) hda
      exact hpath.tail ⟨hab, hb⟩

end Walk

/-! ### Dominators come first -/

/-- The dominators of a block are visited before it. -/
theorem depthFirst_sdom {f : Func} {n : ℕ} {p q : List Label} {b d : Label}
    (h : depthFirst f n [f.entry] [] = p ++ b :: q) (hd : f.SDom d b) : d ∈ p := by
  by_contra hp
  have hentry : f.entry = d := hd.2 (depthFirst_path d p.length p q b rfl h hp (Ne.symm hd.1))
  -- the walk starts at the entry
  cases n with
  | zero => simp [depthFirst] at h
  | succ n =>
    rw [depthFirst, if_neg List.not_mem_nil] at h
    cases p with
    | nil => exact hd.1 (hentry.symm.trans (List.cons.inj h).1)
    | cons a p =>
      refine hp (List.mem_cons.mpr (Or.inl ?_))
      rw [← hentry, (List.cons.inj h).1]

section Order

variable {cx : Ctx}

/-- Every reachable block is visited. -/
theorem Ctx.mem_blocks_of_reaches {b : Label} (h : cx.f.Reaches cx.f.entry b) : b ∈ cx.blocks := by
  have hfuel : [cx.f.entry].length + pushesLeft cx.f [] ≤ dfsFuel cx.f := by
    have hsum : ((cx.f.labels.filter (· ∉ ([] : List Label))).map
        fun b => (cx.f.succs b).length).sum ≤
        (cx.f.labels.map fun b => (cx.f.succs b).length + 1).sum := by
      rw [List.filter_eq_self.mpr (by simp)]
      exact List.sum_le_sum fun b _ => Nat.le_succ _
    rw [pushesLeft, dfsFuel, List.length_singleton]
    omega
  obtain ⟨hst, hcl⟩ := depthFirst_closed cx.f.succs_mem (dfsFuel cx.f) [cx.f.entry] []
    (fun c hc => by rw [List.mem_singleton.mp hc]; exact cx.f.entry_mem) hfuel
  induction h with
  | refl => exact (hst _ (List.mem_singleton_self _)).resolve_left List.not_mem_nil
  | tail _ hedge ih => exact (hcl _ ih _ hedge).resolve_left List.not_mem_nil

theorem Ctx.mem_visitOrder_of_reaches {b : Label} {i : Inst} (h : cx.f.Reaches cx.f.entry b)
    (hi : i ∈ cx.f.code b) (hns : cx.isNoSanitizeEquivalent i = false) :
    (b, i) ∈ cx.visitOrder := by
  refine List.mem_flatMap.mpr ⟨b, Ctx.mem_blocks_of_reaches h, List.mem_map.mpr ⟨i, ?_, rfl⟩⟩
  exact List.mem_filter.mpr ⟨hi, by simp [hns]⟩

private theorem pairwise_of_split {α : Type} {R : α → α → Prop} :
    ∀ {L : List α}, (∀ p b q, L = p ++ b :: q → ∀ c ∈ q, R b c) → L.Pairwise R
  | [], _ => List.Pairwise.nil
  | b :: L, h => List.pairwise_cons.mpr ⟨h [] b L rfl, pairwise_of_split fun p c q hL =>
      h (b :: p) c q (by rw [hL, List.cons_append])⟩

/-- No instruction is visited after one that it precedes on every path. -/
theorem Ctx.visitOrder_precedes :
    cx.visitOrder.Pairwise fun p q => ¬ cx.f.Precedes q.1 q.2 p.1 p.2 := by
  have hblocks : cx.blocks.Pairwise fun b c => ¬ cx.f.SDom c b := by
    refine pairwise_of_split fun p b q hL c hc hdom => ?_
    have hnd : (p ++ b :: q).Nodup := hL ▸ (depthFirst_nodup _ _ _).1
    exact (List.nodup_append.mp hnd).2.2 c (depthFirst_sdom hL hdom) c
      (List.mem_cons_of_mem _ hc) rfl
  rw [Ctx.visitOrder, List.pairwise_flatMap]
  constructor
  · intro b hb
    have hnd := cx.f.code_nodup b (Ctx.mem_blocks hb).1
    rw [List.pairwise_map]
    refine List.Pairwise.filter _ (List.pairwise_iff_forall_sublist.mpr fun {i j} hij => ?_)
    rintro (hdom | ⟨-, hbefore⟩)
    · exact hdom.1 rfl
    · refine Before.asymm hnd hij ?_
      obtain ⟨l, r, hcode⟩ := List.append_of_mem (hij.subset (List.mem_cons_self (a := i)))
      dsimp only at hbefore
      rw [hcode] at hnd hbefore ⊢
      rw [before_eq hnd] at hbefore
      exact (before_left hnd).mpr hbefore
  · refine List.Pairwise.imp_of_mem (fun {b c} hb hc hne => ?_)
      (hblocks.and (depthFirst_nodup _ _ _).1)
    rintro _ hp _ hq
    obtain ⟨i, hi, rfl⟩ := List.mem_map.mp hp
    obtain ⟨j, hj, rfl⟩ := List.mem_map.mp hq
    rintro (hdom | ⟨rfl, -⟩)
    · exact hne.1 hdom
    · exact hne.2 rfl

/-- What precedes an instruction on every path is visited before it. -/
theorem Ctx.visited_before {pre post : List (Label × Inst)} {b d : Label} {i j : Inst}
    (h : cx.visitOrder = pre ++ (b, i) :: post) (hj : j ∈ cx.f.code d)
    (hns : cx.isNoSanitizeEquivalent j = false) (hpre : cx.f.Precedes d j b i) :
    (d, j) ∈ pre := by
  have hbi := Ctx.mem_visitOrder (p := (b, i)) (by rw [h]; simp)
  have hmem := Ctx.mem_visitOrder_of_reaches (hpre.reachable hbi.2.1) hj hns
  have hpair : cx.visitOrder.Pairwise fun p q => ¬ cx.f.Precedes q.1 q.2 p.1 p.2 :=
    Ctx.visitOrder_precedes
  rw [h] at hmem hpair
  rcases List.mem_append.mp hmem with hmem | hmem
  · exact hmem
  · rcases List.mem_cons.mp hmem with heq | hmem
    · obtain ⟨rfl, rfl⟩ := Prod.mk.inj heq
      rcases hpre with hdom | ⟨-, hbefore⟩
      · exact absurd rfl hdom.1
      · exact absurd (List.mem_takeWhile_imp hbefore) (by simp)
    · have hafter := (List.pairwise_append.mp hpair).2.1
      exact absurd hpre ((List.pairwise_cons.mp hafter).1 (d, j) hmem)

/-- The instructions visited before an instruction have other names. -/
theorem Ctx.visited_name_ne {pre post : List (Label × Inst)} {p q : Label × Inst}
    (h : cx.visitOrder = pre ++ q :: post) (hp : p ∈ pre) : p.2.name ≠ q.2.name := by
  intro hname
  obtain ⟨hpb, -, hpi, -⟩ := Ctx.mem_visitOrder (p := p) (by rw [h]; simp [hp])
  obtain ⟨hqb, -, hqi, -⟩ := Ctx.mem_visitOrder (p := q) (by rw [h]; simp)
  obtain ⟨-, heq⟩ := cx.f.names_nodup p.1 hpb q.1 hqb p.2 hpi q.2 hqi hname
  have hnd : (cx.visitOrder.map Prod.snd).Nodup := Ctx.visitOrder_nodup
  rw [h, List.map_append, List.map_cons] at hnd
  exact (List.nodup_append.mp hnd).2.2 _ (List.mem_map_of_mem hp) _ List.mem_cons_self heq

/-- **The visit phase sees every instruction once, after what dominates it.** The pairs visited are
the instructions of the reachable blocks that are not excluded from the instrumentation. None is
visited twice, and an instruction that comes before another on every path is visited first. -/
theorem visitOrder_spec (cx : Ctx) :
    (∀ b i, (b, i) ∈ cx.visitOrder ↔ cx.f.Reaches cx.f.entry b ∧ i ∈ cx.f.code b ∧
      cx.isNoSanitizeEquivalent i = false) ∧
    cx.visitOrder.Nodup ∧
    ∀ pre b i post, cx.visitOrder = pre ++ (b, i) :: post → ∀ d, ∀ j ∈ cx.f.code d,
      cx.isNoSanitizeEquivalent j = false → cx.f.Precedes d j b i → (d, j) ∈ pre := by
  refine ⟨fun b i => ⟨fun h => ?_, fun h => ?_⟩, Ctx.visitOrder_nodup.of_map, ?_⟩
  · obtain ⟨-, hreach, hi, hns⟩ := Ctx.mem_visitOrder h
    exact ⟨hreach, hi, hns⟩
  · exact Ctx.mem_visitOrder_of_reaches h.1 h.2.1 h.2.2
  · intro pre b i post horder d j hj hns hpre
    exact Ctx.visited_before horder hj hns hpre

end Order

end CQMSan
