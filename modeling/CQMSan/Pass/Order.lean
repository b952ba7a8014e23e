import CQMSan.Lib.Dominance
import CQMSan.Pass.Materialize

/-!
# Definitions before uses

The order on which the well-formedness of inserted code rests. `Ordered A xs` says that every
operand of an inserted instruction of `xs` is in `A` or defined earlier in `xs`; PHIs are left
out, their operands are used at the end of the incoming blocks. `availIn f C b` are the values
available at the start of block `b` of a function with the code `C`: those defined in a block
that strictly dominates `b`. `Ssa f C` puts the two together.

All the phases of the pass change the code of one block at one place. `Unique.replace` is the one
rule by which names stay unique, and `Ssa.replace` the one by which the visit keeps `Ssa`.
-/

namespace CQMSan

/-! ### Definitions -/

/-- The intrinsics that the visitor replaces by calls of the runtime. -/
def Inst.isMemIntrinsic (i : Inst) : Bool :=
  match i.op with
  | .call { callee := .intrinsic id, .. } => id.isMem
  | _ => false

/-- The names of the values the instructions define. -/
def defs (xs : List Inst) : Set ℕ := {n | ∃ x ∈ xs, x.isMemIntrinsic = false ∧ x.name = n}

/-- Every operand of an inserted instruction is in `A` or defined earlier in the list. -/
def Ordered (A : Set ℕ) : List Inst → Prop
  | [] => True
  | x :: xs => (x.isInserted = true → x.isPhi = false → ∀ v ∈ x.operands, v.Avail A) ∧
      Ordered (A ∪ defs [x]) xs

section Defs

variable {A B : Set ℕ} {x : Inst} {xs ys : List Inst} {P : ShOp → Prop} {n : ℕ}

@[simp] theorem defs_nil : defs [] = ∅ := by simp [defs]

@[simp] theorem defs_append : defs (xs ++ ys) = defs xs ∪ defs ys := by
  ext n
  simp only [defs, List.mem_append, Set.mem_ofPred_eq, Set.mem_union]
  constructor
  · rintro ⟨x, hx | hx, h⟩
    · exact Or.inl ⟨x, hx, h⟩
    · exact Or.inr ⟨x, hx, h⟩
  · rintro (⟨x, hx, h⟩ | ⟨x, hx, h⟩)
    · exact ⟨x, Or.inl hx, h⟩
    · exact ⟨x, Or.inr hx, h⟩

theorem defs_cons (x : Inst) (xs : List Inst) : defs (x :: xs) = defs [x] ∪ defs xs := by
  rw [← List.singleton_append, defs_append]

theorem mem_defs (hx : x ∈ xs) (hm : x.isMemIntrinsic = false) : x.name ∈ defs xs :=
  ⟨x, hx, hm, rfl⟩

theorem defs_subset_names : defs xs ⊆ names xs := fun _ ⟨x, hx, _, hn⟩ => ⟨x, hx, hn⟩

theorem defs_mono (h : ∀ x ∈ xs, x ∈ ys) : defs xs ⊆ defs ys := fun _ ⟨x, hx, hn⟩ =>
  ⟨x, h x hx, hn⟩

theorem isMemIntrinsic_of_sh {o : ShOp} (h : x.op = .sh o) : x.isMemIntrinsic = false := by
  rw [Inst.isMemIntrinsic, h]

theorem Numbered.defs_eq (h : Numbered P n xs) : defs xs = names xs := by
  refine Set.Subset.antisymm defs_subset_names ?_
  rintro m ⟨x, hx, rfl⟩
  obtain ⟨o, ho, -⟩ := h.op hx
  exact mem_defs hx (isMemIntrinsic_of_sh ho)

theorem Ordered.mono (h : Ordered A xs) (hAB : A ⊆ B) : Ordered B xs := by
  induction xs generalizing A B with
  | nil => trivial
  | cons x xs ih =>
    exact ⟨fun hi hp v hv => (h.1 hi hp v hv).mono hAB,
      ih h.2 (Set.union_subset_union_left _ hAB)⟩

theorem ordered_append : Ordered A (xs ++ ys) ↔ Ordered A xs ∧ Ordered (A ∪ defs xs) ys := by
  induction xs generalizing A with
  | nil => simp [Ordered]
  | cons x xs ih =>
    rw [List.cons_append, Ordered, ih, Ordered, defs_cons x xs, Set.union_assoc, and_assoc]

/-- A list of instructions of the source is ordered: only inserted code is looked at. -/
theorem ordered_of_not_inserted (h : ∀ x ∈ xs, x.isInserted = false) : Ordered A xs := by
  induction xs generalizing A with
  | nil => trivial
  | cons x xs ih =>
    refine ⟨fun hi => ?_, ih fun y hy => h y (List.mem_cons_of_mem _ hy)⟩
    rw [h x List.mem_cons_self] at hi
    cases hi

theorem Closed.ordered (h : Closed A xs) (hn : Numbered P n xs) : Ordered A xs := by
  induction xs generalizing A n with
  | nil => trivial
  | cons x xs ih =>
    obtain ⟨⟨-, o, ho, -⟩, hxs⟩ := hn
    refine ⟨fun _ _ => h.1, ?_⟩
    have hdefs : A ∪ defs [x] = A ∪ {x.name} := by
      congr 1
      refine Set.eq_singleton_iff_unique_mem.mpr
        ⟨mem_defs List.mem_cons_self (isMemIntrinsic_of_sh ho), ?_⟩
      rintro m ⟨y, hy, -, rfl⟩
      rw [List.mem_singleton.mp hy]
    rw [hdefs]
    exact ih h.2 hxs

end Defs

/-! ### Availability -/

section Ssa

variable (f : Func) (C : Label → List Inst)

/-- Strict dominance of blocks. -/
def Func.SDom : Label → Label → Prop := Dominance.SDom f.Edge f.entry

/-- The values available at the start of block `b`. -/
def availIn (b : Label) : Set ℕ := {n | ∃ d ∈ f.labels, f.SDom d b ∧ n ∈ defs (C d)}

/-- The values available at the end of block `b`. -/
def availOut (b : Label) : Set ℕ := availIn f C b ∪ defs (C b)

/-- Every operand of a shadow PHI is available at the end of its incoming block. -/
def PhiOk (x : Inst) : Prop :=
  ∀ ls, x.op = .sh (.phi ls) → ∀ a ∈ x.args.zip ls, f.Reaches f.entry a.2 →
    a.1.Avail (availOut f C a.2)

/-- Inserted code uses what is available. -/
structure Ssa : Prop where
  ordered : ∀ b ∈ f.labels, f.Reaches f.entry b → Ordered (availIn f C b) (C b)
  phis : ∀ b ∈ f.labels, f.Reaches f.entry b → ∀ x ∈ C b, PhiOk f C x

/-- Names are unique and below `n`. -/
structure Unique (n : ℕ) : Prop where
  nodup : ∀ b ∈ f.labels, ((C b).map Inst.name).Nodup
  block : ∀ b ∈ f.labels, ∀ c ∈ f.labels, ∀ x ∈ C b, ∀ y ∈ C c, x.name = y.name → b = c
  lt : ∀ b ∈ f.labels, ∀ x ∈ C b, x.name < n

variable {f C} {C' : Label → List Inst} {b d : Label} {l m m' r : List Inst} {n n' : ℕ}

theorem availIn_mono (h : ∀ d ∈ f.labels, defs (C d) ⊆ defs (C' d)) :
    availIn f C b ⊆ availIn f C' b := fun _ ⟨d, hd, hdom, hn⟩ => ⟨d, hd, hdom, h d hd hn⟩

theorem availOut_mono (hb : b ∈ f.labels) (h : ∀ d ∈ f.labels, defs (C d) ⊆ defs (C' d)) :
    availOut f C b ⊆ availOut f C' b :=
  Set.union_subset_union (availIn_mono h) (h b hb)

/-- What is available at the end of a dominating block is available. -/
theorem availOut_subset_availIn (hd : d ∈ f.labels) (hdom : f.SDom d b)
    (hb : f.Reaches f.entry b) : availOut f C d ⊆ availIn f C b := by
  rintro n (⟨e, he, hed, hn⟩ | hn)
  · exact ⟨e, he, hed.trans hdom hb, hn⟩
  · exact ⟨d, hd, hdom, hn⟩

theorem PhiOk.mono {x : Inst} (h : PhiOk f C x)
    (hdefs : ∀ d ∈ f.labels, defs (C d) ⊆ defs (C' d)) : PhiOk f C' x :=
  fun ls hls a ha hreach => (h ls hls a ha hreach).mono
    (availOut_mono (Func.reaches_mem f.entry_mem hreach) hdefs)

/-- The code of block `b` changes from `l ++ m ++ r` to `l ++ m' ++ r`. -/
structure Replaces (f : Func) (C C' : Label → List Inst) (b : Label) (l m m' r : List Inst) :
    Prop where
  mem : b ∈ f.labels
  old : C b = l ++ m ++ r
  new : C' b = l ++ m' ++ r
  other : ∀ c ∈ f.labels, c ≠ b → C' c = C c

section Replace

variable (h : Replaces f C C' b l m m' r)

include h

theorem Replaces.defs_mono (hdefs : defs m ⊆ defs m') :
    ∀ d ∈ f.labels, defs (C d) ⊆ defs (C' d) := by
  intro d hd
  by_cases hdb : d = b
  · subst hdb
    rw [h.old, h.new]
    simp only [defs_append]
    exact Set.union_subset_union_left _ (Set.union_subset_union_right _ hdefs)
  · rw [h.other d hd hdb]

/-- **Code in which definitions come before uses may replace code with no more definitions.** -/
theorem Ssa.replace (hssa : Ssa f C) (hdefs : defs m ⊆ defs m')
    (hm : f.Reaches f.entry b → Ordered (availIn f C b ∪ defs l) m')
    (hphi : ∀ x ∈ m', x ∈ m ∨ PhiOk f C x) : Ssa f C' := by
  have hmono := h.defs_mono hdefs
  constructor
  · intro c hc hreach
    have hord := hssa.ordered c hc hreach
    by_cases hcb : c = b
    · subst hcb
      rw [h.old, ordered_append, ordered_append] at hord
      rw [h.new, ordered_append, ordered_append]
      refine ⟨⟨hord.1.1.mono (availIn_mono hmono), (hm hreach).mono ?_⟩, hord.2.mono ?_⟩
      · exact Set.union_subset_union_left _ (availIn_mono hmono)
      · simp only [defs_append]
        exact Set.union_subset_union (availIn_mono hmono) (Set.union_subset_union_right _ hdefs)
    · rw [h.other c hc hcb]
      exact hord.mono (availIn_mono hmono)
  · intro c hc hreach x hx
    by_cases hcb : c = b
    · subst hcb
      have hold : ∀ y ∈ l ++ m ++ r, PhiOk f C' y := fun y hy =>
        (hssa.phis c hc hreach y (by rw [h.old]; exact hy)).mono hmono
      rw [h.new, List.mem_append, List.mem_append] at hx
      rcases hx with (hx | hx) | hx
      · exact hold x (List.mem_append_left _ (List.mem_append_left _ hx))
      · rcases hphi x hx with hx | hx
        · exact hold x (List.mem_append_left _ (List.mem_append_right _ hx))
        · exact hx.mono hmono
      · exact hold x (List.mem_append_right _ hx)
    · rw [h.other c hc hcb] at hx
      exact (hssa.phis c hc hreach x hx).mono hmono

/-- Names stay unique when the new ones are unused. -/
theorem Unique.replace (hu : Unique f C n) (hn : n ≤ n') (hnd : (m'.map Inst.name).Nodup)
    (hnames : ∀ x ∈ m', (∃ y ∈ m, y.name = x.name) ∨ n ≤ x.name ∧ x.name < n') :
    Unique f C' n' := by
  -- a name of the new code in another place of the function
  have hclash : ∀ x ∈ m', ∀ c ∈ f.labels, ∀ y ∈ C c, x.name = y.name → c = b ∧ ∃ z ∈ m,
      z.name = y.name := by
    intro x hx c hc y hy hxy
    rcases hnames x hx with ⟨z, hz, hzx⟩ | ⟨hx, -⟩
    · have hzb : z ∈ C b := by rw [h.old]; simp [hz]
      exact ⟨(hu.block b h.mem c hc z hzb y hy (hzx.trans hxy)).symm, z, hz, hzx.trans hxy⟩
    · have := hu.lt c hc y hy
      omega
  have hndb := hu.nodup b h.mem
  rw [h.old, List.map_append, List.map_append] at hndb
  obtain ⟨hndlm, hndr, hdisj⟩ := List.nodup_append.mp hndb
  obtain ⟨hndl, -, hdisjlm⟩ := List.nodup_append.mp hndlm
  have hfresh : ∀ x ∈ m', ∀ y ∈ l ++ r, x.name ≠ y.name := by
    intro x hx y hy hxy
    have hyb : y ∈ C b := by
      rw [h.old]
      rcases List.mem_append.mp hy with hy | hy
      · exact List.mem_append_left _ (List.mem_append_left _ hy)
      · exact List.mem_append_right _ hy
    obtain ⟨-, z, hz, hzy⟩ := hclash x hx b h.mem y hyb hxy
    rcases List.mem_append.mp hy with hy | hy
    · exact hdisjlm _ (List.mem_map_of_mem hy) _ (List.mem_map_of_mem hz) hzy.symm
    · exact hdisj _ (List.mem_append_right _ (List.mem_map_of_mem hz)) _
        (List.mem_map_of_mem hy) hzy
  refine ⟨fun c hc => ?_, fun c hc d hd x hx y hy hxy => ?_, fun c hc x hx => ?_⟩
  · by_cases hcb : c = b
    · subst hcb
      rw [h.new, List.map_append, List.map_append]
      refine List.nodup_append.mpr ⟨List.nodup_append.mpr ⟨hndl, hnd, ?_⟩, hndr, ?_⟩
      · intro a ha a' ha' haa
        obtain ⟨y, hy, rfl⟩ := List.mem_map.mp ha
        obtain ⟨x, hx, rfl⟩ := List.mem_map.mp ha'
        exact hfresh x hx y (List.mem_append_left _ hy) haa.symm
      · intro a ha a' ha' haa
        obtain ⟨y, hy, rfl⟩ := List.mem_map.mp ha'
        rcases List.mem_append.mp ha with ha | ha
        · exact hdisj a (List.mem_append_left _ ha) _ ha' haa
        · obtain ⟨x, hx, rfl⟩ := List.mem_map.mp ha
          exact hfresh x hx y (List.mem_append_right _ hy) haa
    · rw [h.other c hc hcb]
      exact hu.nodup c hc
  · -- new code stands in `b`, and shares no name with another block
    have key : ∀ c ∈ f.labels, ∀ x ∈ C' c, (x ∈ C c) ∨ (c = b ∧ x ∈ m') := by
      intro c hc x hx
      by_cases hcb : c = b
      · subst hcb
        rw [h.new, List.mem_append, List.mem_append] at hx
        rw [h.old, List.mem_append, List.mem_append]
        rcases hx with (hx | hx) | hx
        · exact Or.inl (Or.inl (Or.inl hx))
        · exact Or.inr ⟨rfl, hx⟩
        · exact Or.inl (Or.inr hx)
      · rw [h.other c hc hcb] at hx
        exact Or.inl hx
    rcases key c hc x hx with hx' | ⟨rfl, hx'⟩
    · rcases key d hd y hy with hy' | ⟨rfl, hy'⟩
      · exact hu.block c hc d hd x hx' y hy' hxy
      · exact (hclash y hy' c hc x hx' hxy.symm).1
    · rcases key d hd y hy with hy' | ⟨rfl, hy'⟩
      · exact (hclash x hx' d hd y hy' hxy).1.symm
      · rfl
  · by_cases hcb : c = b
    · subst hcb
      have hold : ∀ y ∈ l ++ m ++ r, y.name < n' := fun y hy =>
        (hu.lt c hc y (by rw [h.old]; exact hy)).trans_le hn
      rw [h.new, List.mem_append, List.mem_append] at hx
      rcases hx with (hx | hx) | hx
      · exact hold x (List.mem_append_left _ (List.mem_append_left _ hx))
      · rcases hnames x hx with ⟨y, hy, hyx⟩ | ⟨-, hlt⟩
        · rw [← hyx]
          exact hold y (List.mem_append_left _ (List.mem_append_right _ hy))
        · exact hlt
      · exact hold x (List.mem_append_right _ hx)
    · rw [h.other c hc hcb] at hx
      exact (hu.lt c hc x hx).trans_le hn

end Replace

end Ssa

/-! ### Places in the code of a state -/

/-- An edit of a list at the instruction `n`, which becomes `u` of it. -/
structure EditsAt (n : ℕ) (u : Inst → List Inst) (e : List Inst → List Inst) : Prop where
  absent : ∀ ys, (∀ y ∈ ys, y.name ≠ n) → e ys = ys
  present : ∀ l x r, (∀ y ∈ l, y.name ≠ n) → x.name = n → e (l ++ x :: r) = l ++ u x ++ r

theorem editsAt_insertBeforeIn (n : ℕ) (xs : List Inst) :
    EditsAt n (fun x => xs ++ [x]) (insertBeforeIn n xs) := by
  constructor
  · intro ys hys
    induction ys with
    | nil => rfl
    | cons y ys ih =>
      rw [insertBeforeIn, if_neg (hys y List.mem_cons_self),
        ih fun z hz => hys z (List.mem_cons_of_mem _ hz)]
  · intro l x r hl hx
    induction l with
    | nil => simp [insertBeforeIn, hx]
    | cons y l ih =>
      rw [List.cons_append, insertBeforeIn, if_neg (hl y List.mem_cons_self),
        ih fun z hz => hl z (List.mem_cons_of_mem _ hz)]
      rfl

theorem editsAt_insertAfterIn (n : ℕ) (xs : List Inst) :
    EditsAt n (fun x => x :: xs) (insertAfterIn n xs) := by
  constructor
  · intro ys hys
    induction ys with
    | nil => rfl
    | cons y ys ih =>
      rw [insertAfterIn, if_neg (hys y List.mem_cons_self),
        ih fun z hz => hys z (List.mem_cons_of_mem _ hz)]
  · intro l x r hl hx
    induction l with
    | nil => simp [insertAfterIn, hx]
    | cons y l ih =>
      rw [List.cons_append, insertAfterIn, if_neg (hl y List.mem_cons_self),
        ih fun z hz => hl z (List.mem_cons_of_mem _ hz)]
      rfl

section Edit

variable {n : ℕ} {u : Inst → List Inst} {e : List Inst → List Inst}

/-- The first instruction with a given name. -/
private theorem exists_first {ys : List Inst} (h : ∃ y ∈ ys, y.name = n) :
    ∃ l x r, ys = l ++ x :: r ∧ x.name = n ∧ ∀ y ∈ l, y.name ≠ n := by
  induction ys with
  | nil => simp at h
  | cons y ys ih =>
    by_cases hy : y.name = n
    · exact ⟨[], y, ys, rfl, hy, by simp⟩
    · obtain ⟨z, hz, hzn⟩ := h
      have hz' : z ∈ ys := by
        rcases List.mem_cons.mp hz with rfl | hz
        · exact absurd hzn hy
        · exact hz
      obtain ⟨l, x, r, rfl, hx, hl⟩ := ih ⟨z, hz', hzn⟩
      refine ⟨y :: l, x, r, rfl, hx, fun w hw => ?_⟩
      rcases List.mem_cons.mp hw with rfl | hw
      · exact hy
      · exact hl w hw

theorem EditsAt.append_left (he : EditsAt n u e) {ys zs : List Inst}
    (hz : ∀ z ∈ zs, z.name ≠ n) : e (ys ++ zs) = e ys ++ zs := by
  by_cases hy : ∃ y ∈ ys, y.name = n
  · obtain ⟨l, x, r, rfl, hx, hl⟩ := exists_first hy
    rw [List.append_assoc, List.cons_append, he.present l x _ hl hx, he.present l x r hl hx]
    simp
  · push Not at hy
    rw [he.absent ys hy, he.absent]
    intro w hw
    rcases List.mem_append.mp hw with hw | hw
    · exact hy w hw
    · exact hz w hw

theorem EditsAt.append_right (he : EditsAt n u e) {ys zs : List Inst}
    (hy : ∀ y ∈ ys, y.name ≠ n) : e (ys ++ zs) = ys ++ e zs := by
  by_cases hz : ∃ z ∈ zs, z.name = n
  · obtain ⟨l, x, r, rfl, hx, hl⟩ := exists_first hz
    rw [he.present l x r hl hx, ← List.append_assoc, he.present (ys ++ l) x r ?_ hx]
    · simp
    · intro w hw
      rcases List.mem_append.mp hw with hw | hw
      · exact hy w hw
      · exact hl w hw
  · push Not at hz
    rw [he.append_left hz, he.absent ys hy, he.absent zs hz]

/-- An edit of every segment is the edit of the block, as the name occurs in one of them. -/
theorem EditsAt.flatMap (he : EditsAt n u e) {g : Inst → List Inst} {is : List Inst}
    (hnd : ((is.flatMap g).map Inst.name).Nodup) :
    is.flatMap (fun i => e (g i)) = e (is.flatMap g) := by
  induction is with
  | nil => simp [he.absent]
  | cons i is ih =>
    rw [List.flatMap_cons, List.map_append] at hnd
    obtain ⟨-, hnd', hdisj⟩ := List.nodup_append.mp hnd
    rw [List.flatMap_cons, List.flatMap_cons, ih hnd']
    by_cases hi : ∃ y ∈ g i, y.name = n
    · obtain ⟨y, hy, hyn⟩ := hi
      have hrest : ∀ z ∈ is.flatMap g, z.name ≠ n := fun z hz hzn =>
        hdisj _ (List.mem_map_of_mem hy) _ (List.mem_map_of_mem hz) (hyn.trans hzn.symm)
      rw [he.append_left hrest, he.absent _ hrest]
    · push Not at hi
      rw [he.append_right hi, he.absent _ hi]

end Edit

namespace St

variable {f : Func} {s : St} {b : Label} {x : Inst} {l r xs : List Inst} {N : ℕ}

/-- An edit at one instruction edits the code of the block with this instruction. -/
theorem blockCode_edit {u : Inst → List Inst} {e : List Inst → List Inst} {n : ℕ}
    (he : EditsAt n u e) (hnd : ((s.blockCode f b).map Inst.name).Nodup) :
    (s.edit e).blockCode f b = e (s.blockCode f b) := by
  rw [blockCode, List.map_append] at hnd
  obtain ⟨-, hnd', hdisj⟩ := List.nodup_append.mp hnd
  have hseg := he.flatMap hnd'
  have hp : (if b = f.entry then (s.edit e).prologue else []) =
      e (if b = f.entry then s.prologue else []) := by
    split_ifs
    · rfl
    · exact (he.absent [] (by simp)).symm
  rw [blockCode, blockCode, hp]
  change _ ++ (f.code b).flatMap (fun i => e (s.seg i.name)) = _
  rw [hseg]
  by_cases hmem : ∃ y ∈ (if b = f.entry then s.prologue else []), y.name = n
  · obtain ⟨y, hy, hyn⟩ := hmem
    have hrest : ∀ z ∈ (f.code b).flatMap (fun i => s.seg i.name), z.name ≠ n := fun z hz hzn =>
      hdisj _ (List.mem_map_of_mem hy) _ (List.mem_map_of_mem hz) (hyn.trans hzn.symm)
    rw [he.append_left hrest, he.absent _ hrest]
  · push Not at hmem
    rw [he.append_right hmem, he.absent _ hmem]

variable (hu : Unique f (s.blockCode f) N) (hb : b ∈ f.labels)

include hu hb

theorem codeOf_eq (hx : x ∈ s.blockCode f b) : s.codeOf f x.name = s.blockCode f b := by
  rw [codeOf]
  cases hfind : f.labels.find? fun b => (s.blockCode f b).any (·.name = x.name) with
  | none =>
    have := List.find?_eq_none.mp hfind b hb
    simp only [List.any_eq_true, decide_eq_true_eq, not_exists, not_and] at this
    exact absurd rfl (this x hx)
  | some c =>
    have hc := List.find?_some hfind
    simp only [List.any_eq_true, decide_eq_true_eq] at hc
    obtain ⟨y, hy, hyx⟩ := hc
    rw [hu.block c (List.mem_of_find?_eq_some hfind) b hb y hy x hx hyx]

/-- No other instruction of the block has the name. -/
theorem name_ne (hC : s.blockCode f b = l ++ x :: r) :
    (∀ y ∈ l, y.name ≠ x.name) ∧ ∀ y ∈ r, y.name ≠ x.name := by
  have hnd := hu.nodup b hb
  rw [hC, List.map_append, List.map_cons] at hnd
  obtain ⟨-, hndr, hdisj⟩ := List.nodup_append.mp hnd
  refine ⟨fun y hy h => hdisj _ (List.mem_map_of_mem hy) _ List.mem_cons_self h, fun y hy h => ?_⟩
  exact (List.nodup_cons.mp hndr).1 (List.mem_map.mpr ⟨y, hy, h⟩)

theorem codeTo_eq (hC : s.blockCode f b = l ++ x :: r) : s.codeTo f x.name = l := by
  rw [codeTo, codeOf_eq hu hb (by rw [hC]; simp), hC,
    List.takeWhile_append_of_pos (by simpa using (name_ne hu hb hC).1)]
  simp

theorem codeFrom_eq (hC : s.blockCode f b = l ++ x :: r) : s.codeFrom f x.name = x :: r := by
  rw [codeFrom, codeOf_eq hu hb (by rw [hC]; simp), hC,
    List.dropWhile_append_of_pos (by simpa using (name_ne hu hb hC).1)]
  simp

theorem other_absent {e : List Inst → List Inst} {u : Inst → List Inst} (he : EditsAt x.name u e)
    (hx : x ∈ s.blockCode f b) : ∀ c ∈ f.labels, c ≠ b →
    (s.edit e).blockCode f c = s.blockCode f c := by
  intro c hc hcb
  rw [blockCode_edit he (hu.nodup c hc), he.absent]
  exact fun y hy hyx => hcb (hu.block c hc b hb y hy x hx hyx)

theorem insertBefore_replaces (hC : s.blockCode f b = l ++ x :: r) :
    Replaces f (s.blockCode f) ((s.insertBefore x.name xs).blockCode f) b l [] xs (x :: r) := by
  have he := editsAt_insertBeforeIn x.name xs
  refine ⟨hb, by simpa using hC, ?_, other_absent hu hb he (by rw [hC]; simp)⟩
  rw [insertBefore, blockCode_edit he (hu.nodup b hb), hC,
    he.present l x r (name_ne hu hb hC).1 rfl]
  simp

theorem insertAfter_replaces (hC : s.blockCode f b = l ++ x :: r) :
    Replaces f (s.blockCode f) ((s.insertAfter x.name xs).blockCode f) b (l ++ [x]) [] xs r := by
  have he := editsAt_insertAfterIn x.name xs
  refine ⟨hb, by simpa using hC, ?_, other_absent hu hb he (by rw [hC]; simp)⟩
  rw [insertAfter, blockCode_edit he (hu.nodup b hb), hC,
    he.present l x r (name_ne hu hb hC).1 rfl]
  simp

end St

/-! ### The order of the instructions of a block -/

/-- `x` stands before `y` in the code. -/
def Before (C : List Inst) (x y : Inst) : Prop := List.Sublist [x, y] C

theorem before_iff {C : List Inst} {x y : Inst} :
    Before C x y ↔ ∃ l r, C = l ++ x :: r ∧ y ∈ r := by
  rw [Before, List.cons_sublist_iff]
  constructor
  · rintro ⟨l, r, rfl, hx, hy⟩
    obtain ⟨l₁, l₂, rfl⟩ := List.append_of_mem hx
    exact ⟨l₁, l₂ ++ r, by simp, List.mem_append_right _ (List.singleton_sublist.mp hy)⟩
  · rintro ⟨l, r, rfl, hy⟩
    exact ⟨l ++ [x], r, by simp, by simp, List.singleton_sublist.mpr hy⟩

theorem Before.mono {C C' : List Inst} {x y : Inst} (h : Before C x y) (hsub : List.Sublist C C') :
    Before C' x y := List.Sublist.trans h hsub

section Before

variable {C C' : List Inst} {x y : Inst}

theorem Before.mem (h : Before C x y) : x ∈ C ∧ y ∈ C := ⟨h.subset (by simp), h.subset (by simp)⟩

theorem Before.asymm (hnd : C.Nodup) (h : Before C x y) : ¬ Before C y x := by
  intro h'
  rw [Before] at h h'
  induction C with
  | nil => cases h
  | cons c C ih =>
    obtain ⟨hc, hnd⟩ := List.nodup_cons.mp hnd
    cases h with
    | cons _ h =>
      cases h' with
      | cons _ h' => exact ih hnd h h'
      | cons_cons _ _ => exact hc (h.subset (by simp))
    | cons_cons _ h =>
      cases h' with
      | cons _ h' => exact hc (h'.subset (by simp))
      | cons_cons _ _ => exact hc (h.subset (by simp))

theorem Before.irrefl (hnd : C.Nodup) : ¬ Before C x x := fun h => h.asymm hnd h

theorem Before.trans {z : Inst} (hnd : C.Nodup) (h : Before C x y) (h' : Before C y z) :
    Before C x z := by
  obtain ⟨l, r, rfl, hy⟩ := before_iff.mp h
  obtain ⟨l₁, l₂, hsplit, hl, hr⟩ := List.sublist_append_iff.mp h'
  cases l₁ with
  | nil =>
    obtain rfl : [y, z] = l₂ := hsplit
    refine before_iff.mpr ⟨l, r, rfl, ?_⟩
    cases hr with
    | cons _ hr => exact hr.subset (by simp)
    | cons_cons _ hr => exact hr.subset (by simp)
  | cons u l₁ =>
    obtain rfl : y = u := (List.cons.inj hsplit).1
    have hmem : y ∈ l := hl.subset List.mem_cons_self
    exact absurd rfl ((List.nodup_append.mp hnd).2.2 y hmem y (List.mem_cons_of_mem _ hy))

theorem before_trichotomy (hx : x ∈ C) (hy : y ∈ C) : x = y ∨ Before C x y ∨ Before C y x := by
  obtain ⟨l, r, rfl⟩ := List.append_of_mem hx
  rcases List.mem_append.mp hy with hy | hy
  · obtain ⟨l₁, l₂, rfl⟩ := List.append_of_mem hy
    exact Or.inr (Or.inr (before_iff.mpr ⟨l₁, l₂ ++ x :: r, by simp, by simp⟩))
  · rcases List.mem_cons.mp hy with rfl | hy
    · exact Or.inl rfl
    · exact Or.inr (Or.inl (before_iff.mpr ⟨l, r, rfl, hy⟩))

theorem before_flatMap {is : List Inst} {g : Inst → List Inst} {i j : Inst} (h : Before is i j)
    (hx : x ∈ g i) (hy : y ∈ g j) : Before (is.flatMap g) x y := by
  obtain ⟨l, r, rfl, hj⟩ := before_iff.mp h
  rw [List.flatMap_append, List.flatMap_cons]
  refine List.Sublist.trans ?_ (List.sublist_append_right _ _)
  exact (List.singleton_sublist.mpr hx).append
    (List.singleton_sublist.mpr (List.mem_flatMap.mpr ⟨j, hj, hy⟩))

/-- The order is that of any part of the code. -/
theorem Before.of_sublist (h : Before C' x y) (hnd : C'.Nodup) (hsub : List.Sublist C C')
    (hx : x ∈ C) (hy : y ∈ C) : Before C x y := by
  rcases before_trichotomy hx hy with rfl | hxy | hyx
  · exact absurd h (Before.irrefl hnd)
  · exact hxy
  · exact absurd (hyx.mono hsub) (h.asymm hnd)

end Before

section BeforeSplit

variable {l r : List Inst} {x y : Inst}

theorem before_right (hnd : (l ++ x :: r).Nodup) : Before (l ++ x :: r) x y ↔ y ∈ r := by
  refine ⟨fun h => ?_, fun hy => before_iff.mpr ⟨l, r, rfl, hy⟩⟩
  rcases List.mem_append.mp h.mem.2 with hy | hy
  · obtain ⟨l₁, l₂, rfl⟩ := List.append_of_mem hy
    exact absurd h (Before.asymm hnd (before_iff.mpr ⟨l₁, l₂ ++ x :: r, by simp, by simp⟩))
  · rcases List.mem_cons.mp hy with rfl | hy
    · exact absurd h (Before.irrefl hnd)
    · exact hy

theorem before_left (hnd : (l ++ x :: r).Nodup) : Before (l ++ x :: r) y x ↔ y ∈ l := by
  refine ⟨fun h => ?_, fun hy => ?_⟩
  · rcases List.mem_append.mp h.mem.1 with hy | hy
    · exact hy
    · rcases List.mem_cons.mp hy with rfl | hy
      · exact absurd h (Before.irrefl hnd)
      · exact absurd h (Before.asymm hnd ((before_right hnd).mpr hy))
  · obtain ⟨l₁, l₂, rfl⟩ := List.append_of_mem hy
    exact before_iff.mpr ⟨l₁, l₂ ++ x :: r, by simp, by simp⟩

end BeforeSplit

theorem Unique.code_nodup {f : Func} {C : Label → List Inst} {n : ℕ} {b : Label}
    (hu : Unique f C n) (hb : b ∈ f.labels) : (C b).Nodup := (hu.nodup b hb).of_map _

/-! ### Code up to an instruction -/

/-- The code up to the instruction `n` and with it: what is executed when control leaves the block
at `n`. -/
def upTo (n : ℕ) : List Inst → List Inst
  | [] => []
  | y :: ys => if y.name = n then [y] else y :: upTo n ys

section UpTo

variable {C C' l r xs : List Inst} {n : ℕ} {x y z : Inst}

theorem upTo_append_right (h : ∀ y ∈ l, y.name ≠ n) : upTo n (l ++ r) = l ++ upTo n r := by
  induction l with
  | nil => rfl
  | cons z l ih =>
    rw [List.cons_append, upTo, if_neg (h z List.mem_cons_self),
      ih fun y hy => h y (List.mem_cons_of_mem _ hy)]
    rfl

theorem upTo_eq (hnd : ((l ++ x :: r).map Inst.name).Nodup) :
    upTo x.name (l ++ x :: r) = l ++ [x] := by
  rw [upTo_append_right, upTo, if_pos rfl]
  intro y hy hyx
  rw [List.map_append, List.map_cons] at hnd
  exact (List.nodup_append.mp hnd).2.2 _ (List.mem_map_of_mem hy) _ List.mem_cons_self hyx

theorem mem_upTo (hnd : (C.map Inst.name).Nodup) (hy : y ∈ C) :
    x ∈ upTo y.name C ↔ x = y ∨ Before C x y := by
  obtain ⟨l, r, rfl⟩ := List.append_of_mem hy
  rw [upTo_eq hnd, before_left (hnd.of_map _), List.mem_append, List.mem_singleton, or_comm]

theorem upTo_subset (h : x ∈ upTo n C) : x ∈ C := by
  induction C with
  | nil => cases h
  | cons z C ih =>
    rw [upTo] at h
    split_ifs at h
    · rw [List.mem_singleton.mp h]
      exact List.mem_cons_self
    · rcases List.mem_cons.mp h with rfl | h
      · exact List.mem_cons_self
      · exact List.mem_cons_of_mem _ (ih h)

/-- Code is executed in any part of the code when it is in the whole. -/
theorem mem_upTo_sublist (hnd : (C'.map Inst.name).Nodup) (hsub : List.Sublist C C') (hx : x ∈ C)
    (hy : y ∈ C) : x ∈ upTo y.name C' ↔ x ∈ upTo y.name C := by
  have hndC : (C.map Inst.name).Nodup := (hsub.map _).nodup hnd
  rw [mem_upTo hnd (hsub.subset hy), mem_upTo hndC hy]
  exact or_congr_right ⟨fun h => h.of_sublist (hnd.of_map _) hsub hx hy, fun h => h.mono hsub⟩

/-- What is executed after code was inserted before `z`. -/
theorem mem_upTo_insert (hnd : ((l ++ xs ++ z :: r).map Inst.name).Nodup)
    (hy : y ∈ l ++ z :: r) :
    x ∈ upTo y.name (l ++ xs ++ z :: r) ↔
      x ∈ upTo y.name (l ++ z :: r) ∨ x ∈ xs ∧ z ∈ upTo y.name (l ++ z :: r) := by
  have hsub : List.Sublist (l ++ z :: r) (l ++ xs ++ z :: r) := by
    rw [List.append_assoc]
    exact (List.Sublist.refl l).append (List.sublist_append_right _ _)
  have hndC : ((l ++ z :: r).map Inst.name).Nodup := (hsub.map _).nodup hnd
  have hz : z ∈ l ++ z :: r := by simp
  by_cases hx : x ∈ l ++ z :: r
  · rw [mem_upTo_sublist hnd hsub hx hy]
    refine ⟨Or.inl, fun h => h.elim id fun hxs => ?_⟩
    obtain ⟨xs₁, xs₂, rfl⟩ := List.append_of_mem hxs.1
    have hnd'' : (l ++ (xs₁ ++ x :: xs₂) ++ z :: r).Nodup := hnd.of_map _
    rw [List.nodup_append, List.nodup_append] at hnd''
    rcases List.mem_append.mp hx with hx | hx
    · exact absurd rfl (hnd''.1.2.2 x hx x (by simp))
    · exact absurd rfl (hnd''.2.2 x (by simp) x hx)
  · rw [or_iff_right fun h => hx (upTo_subset h), mem_upTo hnd (hsub.subset hy), mem_upTo hndC hy]
    constructor
    · rintro (rfl | h)
      · exact absurd hy hx
      · have hxs : x ∈ xs := by
          have := h.mem.1
          simp only [List.mem_append, List.mem_cons, not_or] at this hx
          tauto
        refine ⟨hxs, ?_⟩
        rcases before_trichotomy hz hy with rfl | hzy | hyz
        · exact Or.inl rfl
        · exact Or.inr hzy
        · exfalso
          have hyl : y ∈ l := (before_left (hndC.of_map _)).mp hyz
          obtain ⟨l₁, l₂, rfl⟩ := List.append_of_mem hyl
          refine absurd h (Before.asymm (hnd.of_map _) (before_iff.mpr
            ⟨l₁, l₂ ++ xs ++ z :: r, by simp, by simp [hxs]⟩))
    · rintro ⟨hxs, h⟩
      have hxz : Before (l ++ xs ++ z :: r) x z := by
        exact (before_left (hnd.of_map _)).mpr (List.mem_append_right _ hxs)
      rcases h with rfl | h
      · exact Or.inr hxz
      · exact Or.inr (hxz.trans (hnd.of_map _) (h.mono hsub))

end UpTo

/-! ### Emission before an instruction -/

/-- The code of every block of `s` is part of that of `s'`, what is added has new names, and the
names of `s'` are unique. -/
structure St.Grows (f : Func) (s s' : St) : Prop where
  unique : Unique f (s'.blockCode f) s'.next
  sub : ∀ b ∈ f.labels, List.Sublist (s.blockCode f b) (s'.blockCode f b)
  fresh : ∀ b ∈ f.labels, ∀ x ∈ s'.blockCode f b, x ∈ s.blockCode f b ∨ s.next ≤ x.name
  next_le : s.next ≤ s'.next

theorem St.Grows.refl {f : Func} {s : St} (hu : Unique f (s.blockCode f) s.next) :
    St.Grows f s s := ⟨hu, fun _ _ => List.Sublist.refl _, fun _ _ _ hx => Or.inl hx, le_rfl⟩

theorem St.Grows.trans {f : Func} {s s' s'' : St} (h : St.Grows f s s') (h' : St.Grows f s' s'') :
    St.Grows f s s'' := by
  refine ⟨h'.unique, fun b hb => (h.sub b hb).trans (h'.sub b hb), fun b hb x hx => ?_,
    h.next_le.trans h'.next_le⟩
  rcases h'.fresh b hb x hx with hx | hx
  · exact h.fresh b hb x hx
  · exact Or.inr (h.next_le.trans hx)

/-- The code that is added has opcodes in `P`. -/
structure St.GrowsBy (P : ShOp → Prop) (f : Func) (s s' : St) : Prop extends St.Grows f s s' where
  ops : ∀ b ∈ f.labels, ∀ x ∈ s'.blockCode f b, x ∈ s.blockCode f b ∨ ∃ o, x.op = .sh o ∧ P o

theorem St.GrowsBy.refl {P : ShOp → Prop} {f : Func} {s : St}
    (hu : Unique f (s.blockCode f) s.next) : St.GrowsBy P f s s :=
  ⟨.refl hu, fun _ _ _ hx => Or.inl hx⟩

theorem St.GrowsBy.trans {P : ShOp → Prop} {f : Func} {s s' s'' : St} (h : St.GrowsBy P f s s')
    (h' : St.GrowsBy P f s' s'') : St.GrowsBy P f s s'' :=
  ⟨h.toGrows.trans h'.toGrows, fun b hb x hx => (h'.ops b hb x hx).elim (h.ops b hb x) Or.inr⟩

theorem St.GrowsBy.mono {P Q : ShOp → Prop} {f : Func} {s s' : St} (h : St.GrowsBy P f s s')
    (hPQ : ∀ o, P o → Q o) : St.GrowsBy Q f s s' :=
  ⟨h.toGrows, fun b hb x hx => (h.ops b hb x hx).imp id fun ⟨o, ho, hP⟩ => ⟨o, ho, hPQ o hP⟩⟩

theorem Replaces.sublist {f : Func} {C C' : Label → List Inst} {b : Label} {l xs r : List Inst}
    (h : Replaces f C C' b l [] xs r) : ∀ c ∈ f.labels, List.Sublist (C c) (C' c) := by
  intro c hc
  by_cases hcb : c = b
  · subst hcb
    rw [h.old, h.new, List.append_nil, List.append_assoc]
    exact (List.Sublist.refl l).append (List.sublist_append_right xs r)
  · rw [h.other c hc hcb]

theorem St.Grows.mem_upTo {f : Func} {s s' : St} {b : Label} {x y : Inst} (hg : St.Grows f s s')
    (hb : b ∈ f.labels) (hx : x ∈ s.blockCode f b) (hy : y ∈ s.blockCode f b) :
    x ∈ upTo y.name (s'.blockCode f b) ↔ x ∈ upTo y.name (s.blockCode f b) :=
  mem_upTo_sublist (hg.unique.nodup b hb) (hg.sub b hb) hx hy

theorem Replaces.mem_upTo {f : Func} {C C' : Label → List Inst} {b c : Label} {l xs r : List Inst}
    {x y z : Inst} {n : ℕ} (h : Replaces f C C' b l [] xs (z :: r)) (hu : Unique f C' n)
    (hc : c ∈ f.labels) (hy : y ∈ C c) :
    x ∈ upTo y.name (C' c) ↔
      x ∈ upTo y.name (C c) ∨ c = b ∧ x ∈ xs ∧ z ∈ upTo y.name (C c) := by
  by_cases hcb : c = b
  · subst hcb
    have hnd := hu.nodup c hc
    rw [h.new] at hnd ⊢
    rw [h.old, List.append_nil] at hy ⊢
    rw [mem_upTo_insert hnd hy]
    simp
  · rw [h.other c hc hcb]
    simp [hcb]

section EmitBefore

variable {f : Func} {s : St} {b : Label} {x : Inst} {l r : List Inst} {m : Emit Val}
  {P : ShOp → Prop}

theorem St.emitBefore_replaces (hu : Unique f (s.blockCode f) s.next) (hb : b ∈ f.labels)
    (hC : s.blockCode f b = l ++ x :: r) :
    Replaces f (s.blockCode f) ((s.emitBefore x.name m).2.blockCode f) b l [] (m s.next).1
      (x :: r) := St.insertBefore_replaces hu hb hC

/-- Code with new names may be inserted anywhere. -/
theorem Replaces.grows {s' : St} {xs : List Inst} (hu : Unique f (s.blockCode f) s.next)
    (h : Replaces f (s.blockCode f) (s'.blockCode f) b l [] xs r) (hxs : Numbered P s.next xs)
    (hnext : s'.next = s.next + xs.length) : St.GrowsBy P f s s' := by
  have hmem : ∀ c ∈ f.labels, ∀ x ∈ s'.blockCode f c, x ∈ s.blockCode f c ∨ x ∈ xs := by
    intro c hc x hx
    by_cases hcb : c = b
    · subst hcb
      rw [h.new, List.mem_append, List.mem_append] at hx
      rw [h.old, List.append_nil, List.mem_append]
      tauto
    · rw [h.other c hc hcb] at hx
      exact Or.inl hx
  refine ⟨⟨?_, h.sublist, fun c hc x hx => ?_, by omega⟩, fun c hc x hx => ?_⟩
  · rw [hnext]
    exact Unique.replace h hu (Nat.le_add_right _ _) hxs.nodup fun y hy =>
      Or.inr (hxs.name_bounds hy)
  · exact (hmem c hc x hx).imp id fun hx => (hxs.name_bounds hx).1
  · exact (hmem c hc x hx).imp id hxs.op

theorem St.emitBefore_grows (hu : Unique f (s.blockCode f) s.next) (hb : b ∈ f.labels)
    (hC : s.blockCode f b = l ++ x :: r) (hm : Numbered P s.next (m s.next).1) :
    St.GrowsBy P f s (s.emitBefore x.name m).2 :=
  (St.emitBefore_replaces (m := m) hu hb hC).grows hu hm rfl

end EmitBefore

end CQMSan
