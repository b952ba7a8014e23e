import CQMSan.Runtime.ViolationMap

/-!
# Exit handlers

The interceptors of `atexit` and `__cxa_atexit` register a wrapper with libc in place of the
handler. With a dso handle the wrapper gets the record of the handler as its argument; without one
it gets nothing, and the record is kept on `AtExitStack`, which is popped in step with libc's own
list. Handlers may register further handlers while they run.

`AtExitSt` is the state of the runtime and of libc, and `AtExitEvent` what can happen to it: a
registration, for which the allocator chooses the address of the record and libc the result; the
start of the wrapper that was registered last; the return of the handler it called. The purpose is
`AtExitSpec`: one stack of pending calls. The two are related by `AtExitInv`, in which the list of
pending calls with their records describes libc's list and `AtExitStack` at once.

The wrapper without an argument calls its handler without one. That is right for `atexit`, and
wrong for `__cxa_atexit` without a dso handle, whose argument is stored in the record and never
passed on.
-/

namespace CQMSan

variable {F : Type}

/-! ### The source -/

/-- A call of the application. -/
inductive AtExitCall (F : Type)
  | atexit (func : F)
  | cxaAtexit (func : F) (arg dso : Uptr)

/-- `CQMSanAtExitRecord`. -/
structure AtExitRecord (F : Type) where
  func : Option F
  arg : Uptr

/-- What libc's list holds: one of the two wrappers, or a function registered directly. -/
inductive LibcEntry (F : Type)
  | atExitWrapper
  | cxaAtExitWrapper (r : ℕ)
  | direct (func : F) (arg : Uptr)

/-- What is left to do when the handler that runs returns. -/
inductive AfterHandler
  | free (r : ℕ) | clearFunc (r : ℕ) | nothing

/-- The state of the runtime and of libc. -/
structure AtExitSt (F : Type) where
  /-- `cqmsan_init_is_running`. -/
  initIsRunning : Bool
  /-- The records, by address. -/
  heap : ℕ → Option (AtExitRecord F)
  /-- `AtExitStack`, the last record first. -/
  atExitStack : List ℕ
  /-- libc's list, the last registration first. -/
  libc : List (LibcEntry F)
  running : Option AfterHandler
  /-- The handlers invoked so far, each with the argument it was given, if any. -/
  invoked : List (F × Option Uptr)
  /-- A wrapper found no record, or a null function. -/
  dead : Bool

/-- After initialisation, before the first registration. -/
def AtExitSt.init : AtExitSt F :=
  ⟨false, fun _ => none, [], [], none, [], false⟩

/-- The real `__cxa_atexit`, with result `res`. -/
def AtExitSt.realCxaAtexit (s : AtExitSt F) (e : LibcEntry F) (res : ℤ) : AtExitSt F :=
  if res = 0 then { s with libc := e :: s.libc } else s

/-- `setup_at_exit_wrapper`; `r` is the record that `InternalAlloc` returns. -/
def AtExitSt.setupAtExitWrapper (s : AtExitSt F) (func : F) (arg dso : Uptr) (r : ℕ) (res : ℤ) :
    AtExitSt F :=
  let s := { s with heap := Function.update s.heap r (some ⟨some func, arg⟩) }
  if dso = 0#64 then
    let s := s.realCxaAtexit .atExitWrapper res
    if res = 0 then { s with atExitStack := r :: s.atExitStack } else s
  else s.realCxaAtexit (.cxaAtExitWrapper r) res

/-- The interceptors of `atexit` and `__cxa_atexit`. -/
def AtExitSt.intercept (s : AtExitSt F) (c : AtExitCall F) (r : ℕ) (res : ℤ) : AtExitSt F :=
  match c with
  | .cxaAtexit func arg dso =>
    if s.initIsRunning then s.realCxaAtexit (.direct func arg) res
    else s.setupAtExitWrapper func arg dso r res
  | .atexit func =>
    if s.initIsRunning then s.realCxaAtexit (.direct func 0#64) res
    else s.setupAtExitWrapper func 0#64 0#64 r res

/-- Calls a handler. -/
def AtExitSt.invoke (s : AtExitSt F) (func : Option F) (arg : Option Uptr) (next : AfterHandler) :
    AtExitSt F :=
  match func with
  | none => { s with dead := true }
  | some f => { s with invoked := s.invoked ++ [(f, arg)], running := some next }

/-- `CQMSanAtExitWrapper`, up to the call of the handler. -/
def AtExitSt.atExitWrapper (s : AtExitSt F) : AtExitSt F :=
  match s.atExitStack with
  | [] => { s with dead := true }
  | r :: rest =>
    let s := { s with atExitStack := rest }
    match s.heap r with
    | none => { s with dead := true }
    | some rec => s.invoke rec.func none (.free r)

/-- `CQMSanCxaAtExitWrapper`, up to the call of the handler. -/
def AtExitSt.cxaAtExitWrapper (s : AtExitSt F) (r : ℕ) : AtExitSt F :=
  match s.heap r with
  | none => { s with dead := true }
  | some rec =>
    match rec.func with
    | none => s
    | some f => s.invoke (some f) (some rec.arg) (.clearFunc r)

/-- libc calls an entry of its list. -/
def AtExitSt.callEntry (s : AtExitSt F) (e : LibcEntry F) : AtExitSt F :=
  match e with
  | .atExitWrapper => s.atExitWrapper
  | .cxaAtExitWrapper r => s.cxaAtExitWrapper r
  | .direct func arg => s.invoke (some func) (some arg) .nothing

/-- The handler returned. -/
def AtExitSt.afterHandler (s : AtExitSt F) (next : AfterHandler) : AtExitSt F :=
  let s := { s with running := none }
  match next with
  | .free r => { s with heap := Function.update s.heap r none }
  | .clearFunc r =>
    { s with
      heap := Function.update s.heap r ((s.heap r).map fun rec => { rec with func := none }) }
  | .nothing => s

/-- What happens: the application calls an interceptor, at any time; exit takes the last entry of
libc's list; the handler that runs returns. -/
inductive AtExitEvent (F : Type)
  | call (c : AtExitCall F) (r : ℕ) (res : ℤ)
  | run
  | ret

/-- One event. `none` is an event that cannot happen: the allocator returns a record that is in
use, exit goes on while a handler runs, or there is nothing left. -/
def AtExitSt.step (s : AtExitSt F) (e : AtExitEvent F) : Option (AtExitSt F) :=
  match e with
  | .call c r res => if (s.heap r).isSome then none else some (s.intercept c r res)
  | .run =>
    match s.running, s.libc with
    | none, entry :: rest => some (AtExitSt.callEntry { s with libc := rest } entry)
    | _, _ => none
  | .ret =>
    match s.running with
    | some next => some (s.afterHandler next)
    | none => none

/-- A run of events. -/
def AtExitSt.exec (s : AtExitSt F) : List (AtExitEvent F) → Option (AtExitSt F)
  | [] => some s
  | e :: es => (s.step e).bind fun s' => s'.exec es

/-! ### The purpose -/

/-- The handler with the argument it was registered with, none for `atexit`. -/
def AtExitCall.registered : AtExitCall F → F × Option Uptr
  | .atexit func => (func, none)
  | .cxaAtexit func arg _ => (func, some arg)

/-- The pending calls, the last one first, and the calls whose handlers were invoked. -/
structure AtExitSpec (F : Type) where
  pending : List (AtExitCall F)
  invoked : List (AtExitCall F)

/-- A call that succeeds is pushed; exit takes the last one. -/
def AtExitSpec.step (a : AtExitSpec F) : AtExitEvent F → AtExitSpec F
  | .call c _ res => if res = 0 then { a with pending := c :: a.pending } else a
  | .run =>
    match a.pending with
    | [] => a
    | c :: rest => ⟨rest, a.invoked ++ [c]⟩
  | .ret => a

/-- The stack after some events. -/
def AtExitSpec.exec (evs : List (AtExitEvent F)) : AtExitSpec F :=
  evs.foldl AtExitSpec.step ⟨[], []⟩

/-- The calls that succeeded, in order. -/
def succeeded (evs : List (AtExitEvent F)) : List (AtExitCall F) :=
  evs.filterMap fun
    | .call c _ res => if res = 0 then some c else none
    | _ => none

/-- No call is lost and none is invoked twice. -/
theorem AtExitSpec.perm_succeeded (evs : List (AtExitEvent F)) :
    ((AtExitSpec.exec evs).pending ++ (AtExitSpec.exec evs).invoked).Perm (succeeded evs) := by
  suffices h : ∀ (a : AtExitSpec F), ((evs.foldl AtExitSpec.step a).pending ++
      (evs.foldl AtExitSpec.step a).invoked).Perm (a.pending ++ a.invoked ++ succeeded evs) by
    simpa [AtExitSpec.exec] using h ⟨[], []⟩
  induction evs with
  | nil => simp [succeeded]
  | cons e evs ih =>
    intro a
    refine (ih (a.step e)).trans ?_
    cases e with
    | call c r res =>
      by_cases hres : res = 0
      · have hmid : (a.pending ++ a.invoked ++ c :: succeeded evs).Perm
            (c :: (a.pending ++ a.invoked ++ succeeded evs)) := List.perm_middle
        simpa [AtExitSpec.step, succeeded, hres] using hmid.symm
      · simp [AtExitSpec.step, succeeded, hres]
    | run =>
      cases hp : a.pending with
      | nil => simp [AtExitSpec.step, succeeded, hp]
      | cons c rest =>
        simp only [AtExitSpec.step, succeeded, hp, List.filterMap_cons]
        refine List.Perm.append_right _ ?_
        rw [← List.append_assoc]
        exact List.perm_append_singleton c (rest ++ a.invoked)
    | ret => simp [AtExitSpec.step, succeeded]

/-! ### The pairing of libc's list with the stack -/

section Pairing

/-- The dso handle; `atexit` has none. -/
def AtExitCall.dso : AtExitCall F → Uptr
  | .atexit _ => 0#64
  | .cxaAtexit _ _ dso => dso

/-- The record of a call. -/
def AtExitCall.record : AtExitCall F → AtExitRecord F
  | .atexit func => ⟨some func, 0#64⟩
  | .cxaAtexit func arg _ => ⟨some func, arg⟩

/-- The entry of libc's list for a call with record `r`. -/
def AtExitCall.entry (c : AtExitCall F) (r : ℕ) : LibcEntry F :=
  if c.dso = 0#64 then .atExitWrapper else .cxaAtExitWrapper r

/-- The handler with the argument the wrapper gives it. -/
def AtExitCall.given : AtExitCall F → F × Option Uptr
  | .atexit func => (func, none)
  | .cxaAtexit func arg dso => (func, if dso = 0#64 then none else some arg)

/-- `owned` are the pending calls with their records, the last one first. They describe libc's
list and, when those with a dso handle are left out, `AtExitStack`. -/
structure AtExitInv (s : AtExitSt F) (owned : List (ℕ × AtExitCall F)) : Prop where
  inited : s.initIsRunning = false
  alive : s.dead = false
  libc : s.libc = owned.map fun p => p.2.entry p.1
  stack : s.atExitStack = (owned.filter fun p => decide (p.2.dso = 0#64)).map Prod.fst
  heap : ∀ p ∈ owned, s.heap p.1 = some p.2.record
  nodup : (owned.map Prod.fst).Nodup
  running : ∀ r, s.running = some (.free r) ∨ s.running = some (.clearFunc r) →
    (s.heap r).isSome = true ∧ r ∉ owned.map Prod.fst

/-- The state of the runtime stands for the state of the stack. -/
def AtExitRel (s : AtExitSt F) (a : AtExitSpec F) : Prop :=
  ∃ owned, AtExitInv s owned ∧ owned.map Prod.snd = a.pending ∧
    s.invoked = a.invoked.map AtExitCall.given

variable {s s' : AtExitSt F} {a : AtExitSpec F} {owned : List (ℕ × AtExitCall F)}

/-- Both interceptors come down to one function of the call. -/
theorem AtExitSt.intercept_eq (h : s.initIsRunning = false) (c : AtExitCall F) (r : ℕ) (res : ℤ) :
    s.intercept c r res =
      let s := { s with heap := Function.update s.heap r (some c.record) }
      if res = 0 then
        { s with
          libc := c.entry r :: s.libc
          atExitStack := if c.dso = 0#64 then r :: s.atExitStack else s.atExitStack }
      else s := by
  cases c with
  | atexit func =>
    by_cases hres : res = 0
    · simp [AtExitSt.intercept, AtExitSt.setupAtExitWrapper, AtExitSt.realCxaAtexit, h, hres,
        AtExitCall.record, AtExitCall.entry, AtExitCall.dso]
    · simp [AtExitSt.intercept, AtExitSt.setupAtExitWrapper, AtExitSt.realCxaAtexit, h, hres,
        AtExitCall.record]
  | cxaAtexit func arg dso =>
    by_cases hres : res = 0 <;> by_cases hdso : dso = 0#64 <;>
      simp [AtExitSt.intercept, AtExitSt.setupAtExitWrapper, AtExitSt.realCxaAtexit, h, hres, hdso,
        AtExitCall.record, AtExitCall.entry, AtExitCall.dso]

/-- Allocating a record that is not in use leaves the pending calls as they are. -/
theorem AtExitInv.alloc (h : AtExitInv s owned) {r : ℕ} (hr : s.heap r = none)
    (rec : AtExitRecord F) :
    AtExitInv { s with heap := Function.update s.heap r (some rec) } owned := by
  have hne : ∀ p ∈ owned, p.1 ≠ r := by
    rintro p hp rfl
    rw [h.heap p hp] at hr
    cases hr
  refine ⟨h.inited, h.alive, h.libc, h.stack, fun p hp => ?_, h.nodup, fun r' hr' => ?_⟩
  · exact (Function.update_of_ne (hne p hp) ..).trans (h.heap p hp)
  · obtain ⟨hsome, hnot⟩ := h.running r' hr'
    refine ⟨?_, hnot⟩
    have hne' : r' ≠ r := by
      rintro rfl
      rw [hr] at hsome
      cases hsome
    exact (congrArg Option.isSome (Function.update_of_ne hne' ..)).trans hsome

/-- A registration. -/
theorem AtExitRel.call (h : AtExitRel s a) {c : AtExitCall F} {r : ℕ} {res : ℤ}
    (hr : s.heap r = none) : AtExitRel (s.intercept c r res) (a.step (.call c r res)) := by
  obtain ⟨owned, hinv, hpend, hlog⟩ := h
  have halloc := hinv.alloc hr c.record
  rw [AtExitSt.intercept_eq hinv.inited]
  by_cases hres : res = 0
  · -- the new call goes on top of all three lists
    have hfresh : r ∉ owned.map Prod.fst := by
      intro hmem
      obtain ⟨p, hp, rfl⟩ := List.mem_map.mp hmem
      rw [hinv.heap p hp] at hr
      cases hr
    have hfirst : Function.update s.heap r (some c.record) r = some c.record :=
      Function.update_self ..
    simp only [hres, if_true, AtExitSpec.step]
    refine ⟨(r, c) :: owned, ⟨hinv.inited, hinv.alive, ?_, ?_, ?_, ?_, ?_⟩, ?_, hlog⟩
    · simp [hinv.libc]
    · by_cases hdso : c.dso = 0#64
      · simp [hdso, hinv.stack]
      · simp [hdso, hinv.stack]
    · rintro p hp
      rcases List.mem_cons.mp hp with rfl | hp
      · exact hfirst
      · exact halloc.heap p hp
    · exact List.nodup_cons.mpr ⟨hfresh, hinv.nodup⟩
    · intro r' hr'
      obtain ⟨hsome, hnot⟩ := halloc.running r' hr'
      refine ⟨hsome, ?_⟩
      simp only [List.map_cons, List.mem_cons, not_or]
      refine ⟨?_, hnot⟩
      rintro rfl
      have hold := (hinv.running r' hr').1
      rw [hr] at hold
      cases hold
    · simp [hpend]
  · simp only [hres, if_false, AtExitSpec.step]
    exact ⟨owned, halloc, hpend, hlog⟩

/-- The last pending call is taken off both lists, and its handler is invoked. -/
theorem AtExitRel.run (h : AtExitRel s a) {e : LibcEntry F} {rest : List (LibcEntry F)}
    (hlibc : s.libc = e :: rest) :
    AtExitRel (AtExitSt.callEntry { s with libc := rest } e) (a.step .run) := by
  obtain ⟨owned, hinv, hpend, hlog⟩ := h
  cases owned with
  | nil =>
    have hnil := hinv.libc
    rw [hlibc] at hnil
    cases hnil
  | cons p owned =>
    obtain ⟨r, c⟩ := p
    have hcons := hinv.libc
    rw [hlibc, List.map_cons] at hcons
    obtain ⟨rfl, rfl⟩ := List.cons.inj hcons
    have hrec : s.heap r = some c.record := hinv.heap (r, c) List.mem_cons_self
    obtain ⟨hnot, hnodup⟩ := List.nodup_cons.mp hinv.nodup
    have hheap : ∀ p ∈ owned, s.heap p.1 = some p.2.record := fun p hp =>
      hinv.heap p (List.mem_cons_of_mem _ hp)
    have hstep : a.step .run = ⟨owned.map Prod.snd, a.invoked ++ [c]⟩ := by
      simp [AtExitSpec.step, ← hpend]
    obtain ⟨f, hf⟩ : ∃ f, c.record.func = some f := by
      cases c with
      | atexit f => exact ⟨f, rfl⟩
      | cxaAtexit f _ _ => exact ⟨f, rfl⟩
    rw [hstep]
    by_cases hdso : c.dso = 0#64
    · -- the record is the top of the stack
      have hstack : s.atExitStack = r :: (owned.filter fun p => decide (p.2.dso = 0#64)).map
          Prod.fst := by
        simp [hinv.stack, hdso]
      have hgiven : c.given = (f, none) := by
        cases c with
        | atexit _ => simp_all [AtExitCall.record, AtExitCall.given]
        | cxaAtexit _ _ dso => simp_all [AtExitCall.record, AtExitCall.given, AtExitCall.dso]
      simp only [AtExitCall.entry, hdso, if_true, AtExitSt.callEntry, AtExitSt.atExitWrapper,
        hstack, hrec, hf, AtExitSt.invoke]
      refine ⟨owned, ⟨hinv.inited, hinv.alive, rfl, rfl, hheap, hnodup, ?_⟩, rfl, ?_⟩
      · rintro r' (hr' | hr')
        · cases hr'
          exact ⟨by simp [hrec], hnot⟩
        · cases hr'
      · simp [hlog, hgiven]
    · have hgiven : c.given = (f, some c.record.arg) := by
        cases c with
        | atexit _ => exact absurd rfl hdso
        | cxaAtexit _ _ dso =>
          simp_all [AtExitCall.record, AtExitCall.given, AtExitCall.dso]
      simp only [AtExitCall.entry, hdso, if_false, AtExitSt.callEntry, AtExitSt.cxaAtExitWrapper,
        hrec, hf, AtExitSt.invoke]
      refine ⟨owned, ⟨hinv.inited, hinv.alive, rfl, ?_, hheap, hnodup, ?_⟩, rfl, ?_⟩
      · simp [hinv.stack, hdso]
      · rintro r' (hr' | hr')
        · cases hr'
        · cases hr'
          exact ⟨by simp [hrec], hnot⟩
      · simp [hlog, hgiven]

/-- The record of a handler that returned is not pending. -/
theorem AtExitRel.ret (h : AtExitRel s a) {next : AfterHandler} (hrun : s.running = some next) :
    AtExitRel (s.afterHandler next) (a.step .ret) := by
  obtain ⟨owned, hinv, hpend, hlog⟩ := h
  have hkeep : ∀ r, s.running = some (.free r) ∨ s.running = some (.clearFunc r) →
      ∀ v, ∀ p ∈ owned, Function.update s.heap r v p.1 = some p.2.record := by
    intro r hr v p hp
    have hne : p.1 ≠ r := by
      rintro rfl
      exact (hinv.running p.1 hr).2 (List.mem_map_of_mem hp)
    exact (Function.update_of_ne hne ..).trans (hinv.heap p hp)
  cases next with
  | free r =>
    exact ⟨owned, ⟨hinv.inited, hinv.alive, hinv.libc, hinv.stack, hkeep r (Or.inl hrun) _,
      hinv.nodup, by simp [AtExitSt.afterHandler]⟩, hpend, hlog⟩
  | clearFunc r =>
    exact ⟨owned, ⟨hinv.inited, hinv.alive, hinv.libc, hinv.stack, hkeep r (Or.inr hrun) _,
      hinv.nodup, by simp [AtExitSt.afterHandler]⟩, hpend, hlog⟩
  | nothing =>
    exact ⟨owned, ⟨hinv.inited, hinv.alive, hinv.libc, hinv.stack, hinv.heap, hinv.nodup,
      by simp [AtExitSt.afterHandler]⟩, hpend, hlog⟩

/-- **Every event keeps the pairing.** -/
theorem AtExitRel.step (h : AtExitRel s a) {e : AtExitEvent F} (hstep : s.step e = some s') :
    AtExitRel s' (a.step e) := by
  cases e with
  | call c r res =>
    rw [AtExitSt.step] at hstep
    split_ifs at hstep with hr
    obtain rfl := Option.some.inj hstep
    exact h.call (by simpa using hr)
  | run =>
    rw [AtExitSt.step] at hstep
    split at hstep
    · next entry rest _ hlibc =>
      obtain rfl := Option.some.inj hstep
      exact h.run hlibc
    · cases hstep
  | ret =>
    rw [AtExitSt.step] at hstep
    split at hstep
    · next next hrun =>
      obtain rfl := Option.some.inj hstep
      exact h.ret hrun
    · cases hstep

/-- A whole run keeps it. -/
theorem AtExitRel.exec (h : AtExitRel s a) {evs : List (AtExitEvent F)}
    (hexec : s.exec evs = some s') : AtExitRel s' (evs.foldl AtExitSpec.step a) := by
  induction evs generalizing s a with
  | nil =>
    obtain rfl := Option.some.inj hexec
    exact h
  | cons e evs ih =>
    obtain ⟨s₁, hstep, hexec⟩ := Option.bind_eq_some_iff.mp hexec
    exact ih (h.step hstep) hexec

theorem atExitRel_init : AtExitRel (AtExitSt.init : AtExitSt F) ⟨[], []⟩ :=
  ⟨[], ⟨rfl, rfl, rfl, rfl, by simp, by simp, by simp [AtExitSt.init]⟩, rfl, rfl⟩

end Pairing

/-! ### What runs at exit -/

/-- The handlers ran as they were registered: those of the calls that succeeded, each once, the
last one pending first and with the argument of the call. A call that fails leaves the stack as it
was. -/
structure RunsAsRegistered (evs : List (AtExitEvent F)) (s : AtExitSt F) : Prop where
  alive : s.dead = false
  order : s.invoked = (AtExitSpec.exec evs).invoked.map AtExitCall.registered
  once : (AtExitSpec.exec evs).invoked.Perm (succeeded evs)
  failed : ∀ pre c r res post s₁, evs = pre ++ .call c r res :: post → res ≠ 0 →
    AtExitSt.init.exec pre = some s₁ →
      (s₁.intercept c r res).atExitStack = s₁.atExitStack ∧ (s₁.intercept c r res).libc = s₁.libc

/-- A call of `__cxa_atexit` without a dso handle. -/
def AtExitCall.NullDso : AtExitCall F → Prop
  | .atexit _ => False
  | .cxaAtexit _ _ dso => dso = 0#64

theorem AtExitCall.given_eq_iff (c : AtExitCall F) : c.given = c.registered ↔ ¬ c.NullDso := by
  cases c with
  | atexit func => simp [AtExitCall.given, AtExitCall.registered, AtExitCall.NullDso]
  | cxaAtexit func arg dso =>
    by_cases hdso : dso = 0#64
    · simp [AtExitCall.given, AtExitCall.registered, AtExitCall.NullDso, hdso]
    · simp [AtExitCall.given, AtExitCall.registered, AtExitCall.NullDso, hdso]

/-- A call that fails changes neither list. -/
theorem AtExitSt.intercept_failed {s : AtExitSt F} (h : s.initIsRunning = false)
    (c : AtExitCall F) (r : ℕ) {res : ℤ} (hres : res ≠ 0) :
    (s.intercept c r res).atExitStack = s.atExitStack ∧ (s.intercept c r res).libc = s.libc := by
  rw [AtExitSt.intercept_eq h]
  simp [hres]

/-- **Exit handlers run as registered, up to the argument of a call without a dso handle.** After
every run of events at whose end libc's list is empty, the handlers ran as registered if and only
if no call of `__cxa_atexit` that succeeded had a null dso handle. -/
theorem runsAsRegistered_iff (evs : List (AtExitEvent F)) (s : AtExitSt F)
    (hexec : AtExitSt.init.exec evs = some s) (hdone : s.libc = []) :
    RunsAsRegistered evs s ↔ ∀ c ∈ succeeded evs, ¬ c.NullDso := by
  obtain ⟨owned, hinv, hpend, hlog⟩ := atExitRel_init.exec hexec
  -- libc's list is empty, so nothing is pending
  have howned : owned = [] := by
    have hnil := hinv.libc
    rw [hdone] at hnil
    exact List.map_eq_nil_iff.mp hnil.symm
  have hempty : (AtExitSpec.exec evs).pending = [] := by
    rw [AtExitSpec.exec, ← hpend, howned, List.map_nil]
  have hperm : (AtExitSpec.exec evs).invoked.Perm (succeeded evs) := by
    have hall := AtExitSpec.perm_succeeded evs
    rwa [hempty, List.nil_append] at hall
  have horder : s.invoked = (AtExitSpec.exec evs).invoked.map AtExitCall.registered ↔
      ∀ c ∈ succeeded evs, ¬ c.NullDso := by
    rw [hlog]
    refine (List.map_inj_left).trans ⟨fun h c hc => ?_, fun h c hc => ?_⟩
    · exact c.given_eq_iff.mp (h c (hperm.mem_iff.mpr hc))
    · exact c.given_eq_iff.mpr (h c (hperm.mem_iff.mp hc))
  constructor
  · intro h
    exact horder.mp h.order
  · intro h
    refine ⟨hinv.alive, horder.mpr h, hperm, ?_⟩
    intro pre c r res post s₁ _ hres hpre
    obtain ⟨_, hinv₁, -⟩ := atExitRel_init.exec hpre
    exact AtExitSt.intercept_failed hinv₁.inited c r hres

/-- Two handlers, one with and one without an argument; the second registers a third while it
runs, and a further registration fails. They run in the order 2, 3, 1. -/
theorem runsAsRegistered_nested :
    ∃ s : AtExitSt ℕ, AtExitSt.init.exec [.call (.cxaAtexit 1 7#64 9#64) 0 0,
        .call (.atexit 2) 1 0, .call (.atexit 4) 2 (-1), .run, .call (.cxaAtexit 3 8#64 9#64) 3 0,
        .ret, .run, .ret, .run, .ret] = some s ∧
      s.invoked = [(2, none), (3, some 8#64), (1, some 7#64)] ∧
      RunsAsRegistered [.call (.cxaAtexit 1 7#64 9#64) 0 0,
        .call (.atexit 2) 1 0, .call (.atexit 4) 2 (-1), .run, .call (.cxaAtexit 3 8#64 9#64) 3 0,
        .ret, .run, .ret, .run, .ret] s := by
  refine ⟨_, rfl, rfl, (runsAsRegistered_iff _ _ rfl rfl).mpr ?_⟩
  intro c hc
  simp only [succeeded, List.filterMap_cons, List.filterMap_nil, if_true, List.mem_cons,
    List.not_mem_nil, or_false, reduceIte, reduceCtorEq] at hc
  rcases hc with rfl | rfl | rfl
  · simp [AtExitCall.NullDso]
  · simp [AtExitCall.NullDso]
  · simp [AtExitCall.NullDso]

/-- `__cxa_atexit(f, 5, nullptr)`: at exit the handler is called without its argument. -/
theorem not_runsAsRegistered_nullDso :
    ∃ s : AtExitSt ℕ, AtExitSt.init.exec [.call (.cxaAtexit 1 5#64 0#64) 0 0, .run, .ret] = some s ∧
      s.libc = [] ∧ s.invoked = [(1, none)] ∧
      ¬ RunsAsRegistered [.call (.cxaAtexit 1 5#64 0#64) 0 0, .run, .ret] s := by
  refine ⟨_, rfl, rfl, rfl, fun h => ?_⟩
  have horder := h.order
  cases horder

end CQMSan
