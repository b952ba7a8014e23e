import CQMSan.Runtime.ViolationMap

/-!
# Signal handlers

With `wrap_signals` the interceptors of `signal` and `sigaction` install `SignalHandler` or
`SignalAction` in the kernel in place of a handler of the application, and keep the handler in
`sigactions[]`, from where the two fetch it when the signal is delivered.

`SigSt` has both tables. `SigSpec` is what the application should see: one table with what it
installed itself. The two are compared on the outputs of a sequence of events, which are calls and
deliveries in any order. The application passes handlers of its own, `SIG_IGN`, `SIG_DFL`, or a
value it was given before.

`sigaction` translates the old handler back; `signal` returns what the kernel returned. So the
tables stay apart as long as `signal` is not called for a signal that has a handler of the
application at the time, and the first such call returns a wrapper.
-/

namespace CQMSan

variable {F : Type}

/-! ### The source -/

/-- A handler: the two special values, the two wrappers of the runtime, or another function. -/
inductive Handler (F : Type)
  | sigDfl | sigIgn | signalHandler | signalAction
  | fn (f : F)

/-- `sigaction`: the handler, and the flags `SA_SIGINFO` and `SA_RESETHAND`. -/
structure SigAct (F : Type) where
  handler : Handler F
  siginfo : Bool
  resetHand : Bool

/-- What `signal` installs. -/
def SigAct.ofSignal (h : Handler F) : SigAct F := ⟨h, false, false⟩

/-- `cb != sig_ign && cb != sig_dfl`. -/
def Handler.isFunction : Handler F → Bool
  | .sigDfl | .sigIgn => false
  | _ => true

/-- One of the two wrappers. -/
def Handler.isWrapper : Handler F → Bool
  | .signalHandler | .signalAction => true
  | _ => false

/-- The action with the wrapper for its flags, `new_cb`, as the handler. -/
def SigAct.wrapped (a : SigAct F) : SigAct F :=
  { a with handler := if a.siginfo then .signalAction else .signalHandler }

/-- The flag `wrap_signals`, and `GetHandleSignalMode(signo) == kHandleSignalExclusive`. -/
structure SigCfg where
  wrapSignals : Bool
  exclusive : ℤ → Bool

/-- The kernel's table and `sigactions[]`. -/
structure SigSt (F : Type) where
  kernel : ℤ → SigAct F
  sigactions : ℤ → Handler F

/-- How a handler is called: with the number of the signal, or with three arguments. -/
inductive CallForm
  | one | three
  deriving DecidableEq

/-- The form in which the kernel calls a handler. -/
def SigAct.form (a : SigAct F) : CallForm := if a.siginfo then .three else .one

/-- The table after a delivery: `SA_RESETHAND` resets a handler that was called. -/
def SigAct.afterDelivery (a : SigAct F) : SigAct F :=
  if a.handler.isFunction && a.resetHand then { a with handler := .sigDfl } else a

/-- What a delivery does. -/
inductive Delivery (F : Type)
  | default
  | ignored
  | called (h : Handler F) (form : CallForm)
  /-- A wrapper calls a wrapper. -/
  | reenters

/-- What the application sees of an event. -/
inductive SigOut (F : Type)
  | oldHandler (h : Handler F)
  | oldact (act : Option (SigAct F))
  | error
  | delivered (d : Delivery F)

/-- What happens: a call of `signal`; of `sigaction`, with `act` and `oldact` null or not; the
delivery of a signal. -/
inductive SigEvent (F : Type)
  | signal (signo : ℤ) (handler : Handler F)
  | sigaction (signo : ℤ) (act : Option (SigAct F)) (wantOld : Bool)
  | deliver (signo : ℤ)

/-- `signo <= 0 || signo >= kMaxSignals`. -/
def badSigno (signo : ℤ) : Bool := decide (signo ≤ 0) || decide (signo ≥ 1024)

namespace SigSt

variable (s : SigSt F)

/-- The real `sigaction`. -/
def realSigaction (signo : ℤ) (act : Option (SigAct F)) : SigSt F × SigAct F :=
  match act with
  | none => (s, s.kernel signo)
  | some a => ({ s with kernel := Function.update s.kernel signo a }, s.kernel signo)

/-- `signal_impl`: the handler to install. -/
def signalImpl (cfg : SigCfg) (signo : ℤ) (cb : Handler F) : SigSt F × Handler F :=
  if cfg.wrapSignals && cb.isFunction then
    ({ s with sigactions := Function.update s.sigactions signo cb }, .signalHandler)
  else (s, cb)

/-- The interceptor of `signal`. -/
def signal (cfg : SigCfg) (signo : ℤ) (handler : Handler F) : SigSt F × SigOut F :=
  if cfg.exclusive signo then (s, .oldHandler .sigDfl)
  else if badSigno signo then (s, .error)
  else
    let (s, handler) := s.signalImpl cfg signo handler
    let (s, old) := s.realSigaction signo (some (.ofSignal handler))
    (s, .oldHandler old.handler)

/-- `sigaction_impl`. -/
def sigactionImpl (cfg : SigCfg) (signo : ℤ) (act : Option (SigAct F)) (wantOld : Bool) :
    SigSt F × SigOut F :=
  if badSigno signo then (s, .error)
  else if cfg.wrapSignals then
    let oldCb := s.sigactions signo
    let (s, newAct) :=
      match act with
      | none => (s, none)
      | some a =>
        if a.handler.isFunction then
          ({ s with sigactions := Function.update s.sigactions signo a.handler }, some a.wrapped)
        else (s, some a)
    let (s, old) := s.realSigaction signo newAct
    let old := if old.handler.isWrapper then { old with handler := oldCb } else old
    (s, .oldact (if wantOld then some old else none))
  else
    let (s, old) := s.realSigaction signo act
    (s, .oldact (if wantOld then some old else none))

/-- The interceptor of `sigaction`. -/
def sigaction (cfg : SigCfg) (signo : ℤ) (act : Option (SigAct F)) (wantOld : Bool) :
    SigSt F × SigOut F :=
  if cfg.exclusive signo then
    if wantOld then s.sigactionImpl cfg signo none wantOld else (s, .oldact none)
  else s.sigactionImpl cfg signo act wantOld

/-- A wrapper fetches the handler and calls it. -/
def callback (signo : ℤ) (form : CallForm) : Delivery F :=
  if (s.sigactions signo).isWrapper then .reenters else .called (s.sigactions signo) form

/-- The kernel delivers a signal. -/
def deliver (signo : ℤ) : SigSt F × SigOut F :=
  let a := s.kernel signo
  let d := match a.handler with
    | .sigDfl => .default
    | .sigIgn => .ignored
    | .signalHandler => s.callback signo .one
    | .signalAction => s.callback signo .three
    | .fn f => .called (.fn f) a.form
  ({ s with kernel := Function.update s.kernel signo a.afterDelivery }, .delivered d)

/-- One event. -/
def step (cfg : SigCfg) : SigEvent F → SigSt F × SigOut F
  | .signal signo handler => s.signal cfg signo handler
  | .sigaction signo act wantOld => s.sigaction cfg signo act wantOld
  | .deliver signo => s.deliver signo

/-- The outputs of a sequence of events. -/
def outputs (cfg : SigCfg) (s : SigSt F) : List (SigEvent F) → List (SigOut F)
  | [] => []
  | e :: evs => (s.step cfg e).2 :: outputs cfg (s.step cfg e).1 evs

end SigSt

/-! ### The purpose -/

/-- What the application installed last for each signal, and whether it installed anything. -/
structure SigSpec (F : Type) where
  act : ℤ → SigAct F
  installed : ℤ → Bool

namespace SigSpec

variable (a : SigSpec F)

/-- The application installs `act`. -/
def install (signo : ℤ) (act : SigAct F) : SigSpec F :=
  ⟨Function.update a.act signo act, Function.update a.installed signo true⟩

/-- One event: a call returns what was installed last, a delivery calls it. -/
def step : SigEvent F → SigSpec F × SigOut F
  | .signal signo handler =>
    (a.install signo (.ofSignal handler), .oldHandler (a.act signo).handler)
  | .sigaction signo act wantOld =>
    (match act with
      | none => a
      | some act => a.install signo act,
      .oldact (if wantOld then some (a.act signo) else none))
  | .deliver signo =>
    ({ a with act := Function.update a.act signo (a.act signo).afterDelivery },
      .delivered <| match (a.act signo).handler with
        | .sigDfl => .default
        | .sigIgn => .ignored
        | h => .called h (a.act signo).form)

/-- The outputs of a sequence of events. -/
def outputs (a : SigSpec F) : List (SigEvent F) → List (SigOut F)
  | [] => []
  | e :: evs => (a.step e).2 :: outputs (a.step e).1 evs

end SigSpec

/-- The handlers the application is given by an output. -/
def SigOut.given : SigOut F → List (Handler F)
  | .oldHandler h => [h]
  | .oldact (some act) => [act.handler]
  | _ => []

/-- The output names no wrapper and enters none twice. -/
def SigOut.Clean : SigOut F → Prop
  | .oldHandler h => h.isWrapper = false
  | .oldact (some act) => act.handler.isWrapper = false
  | .delivered (.called h _) => h.isWrapper = false
  | .delivered .reenters => False
  | _ => True

/-- The handler an event passes to the runtime. -/
def SigEvent.passes : SigEvent F → Option (Handler F)
  | .signal _ h => some h
  | .sigaction _ (some act) _ => some act.handler
  | _ => none

/-- The signal of an event. -/
def SigEvent.signo : SigEvent F → ℤ
  | .signal signo _ | .sigaction signo _ _ | .deliver signo => signo

/-- The events an application can cause: signals that exist and are not handled exclusively, and
handlers that are its own, special, or were given to it before. -/
def SigSt.Possible (cfg : SigCfg) : SigSt F → List (Handler F) → List (SigEvent F) → Prop
  | _, _, [] => True
  | s, given, e :: evs =>
    badSigno e.signo = false ∧ cfg.exclusive e.signo = false ∧
      (∀ h, e.passes = some h → h.isWrapper = true → h ∈ given) ∧
      SigSt.Possible cfg (s.step cfg e).1 ((s.step cfg e).2.given ++ given) evs

/-- The runtime cannot be told apart from a table of what the application installed. -/
def Transparent (cfg : SigCfg) (s : SigSt F) (a : SigSpec F) (evs : List (SigEvent F)) : Prop :=
  s.outputs cfg evs = a.outputs evs ∧ ∀ o ∈ s.outputs cfg evs, o.Clean

/-- `signal` is not called for a signal that has a handler function of the application. -/
def SigSpec.SignalWithoutHandler : SigSpec F → List (SigEvent F) → Prop
  | _, [] => True
  | a, e :: evs =>
    (∀ signo h, e = .signal signo h → a.installed signo = true →
      (a.act signo).handler.isFunction = false) ∧
      SigSpec.SignalWithoutHandler (a.step e).1 evs

/-! ### The two tables -/

section Tables

variable {cfg : SigCfg} {s : SigSt F} {a : SigSpec F}

/-- What the kernel has for a signal, given what the application installed. A function the
application installed is replaced by a wrapper and kept in `sigactions[]`. -/
def SigRel (s : SigSt F) (a : SigSpec F) (signo : ℤ) : Prop :=
  (a.act signo).handler.isWrapper = false ∧
    if a.installed signo = true ∧ (a.act signo).handler.isFunction = true then
      s.sigactions signo = (a.act signo).handler ∧ s.kernel signo = (a.act signo).wrapped
    else s.kernel signo = a.act signo

/-- The tables agree on every signal. -/
def SigInv (s : SigSt F) (a : SigSpec F) : Prop := ∀ signo, SigRel s a signo

/-- What both interceptors do with a new action: a function goes to `sigactions[]` and a wrapper
to the kernel. -/
def SigSt.installed (s : SigSt F) (signo : ℤ) (act : SigAct F) : SigSt F :=
  if act.handler.isFunction then
    ⟨Function.update s.kernel signo act.wrapped, Function.update s.sigactions signo act.handler⟩
  else { s with kernel := Function.update s.kernel signo act }

theorem SigInv.install (h : SigInv s a) (signo : ℤ) {act : SigAct F}
    (hact : act.handler.isWrapper = false) :
    SigInv (s.installed signo act) (a.install signo act) := by
  intro n
  by_cases hn : n = signo
  · subst hn
    refine ⟨by simpa [SigSpec.install] using hact, ?_⟩
    by_cases hf : act.handler.isFunction = true
    · simp [SigSpec.install, SigSt.installed, hf]
    · simp [SigSpec.install, SigSt.installed, hf]
  · have hrel := h n
    by_cases hf : act.handler.isFunction = true
    · simpa [SigRel, SigSpec.install, SigSt.installed, hf, hn] using hrel
    · simpa [SigRel, SigSpec.install, SigSt.installed, hf, hn] using hrel

theorem SigAct.wrapped_isWrapper (a : SigAct F) : a.wrapped.handler.isWrapper = true := by
  cases h : a.siginfo with
  | true => simp [SigAct.wrapped, h, Handler.isWrapper]
  | false => simp [SigAct.wrapped, h, Handler.isWrapper]

theorem SigAct.wrapped_isFunction (a : SigAct F) : a.wrapped.handler.isFunction = true := by
  cases h : a.siginfo with
  | true => simp [SigAct.wrapped, h, Handler.isFunction]
  | false => simp [SigAct.wrapped, h, Handler.isFunction]

/-- `SA_RESETHAND` acts on the wrapper as on the handler. -/
theorem SigAct.afterDelivery_wrapped {a : SigAct F} (hf : a.handler.isFunction = true) :
    a.wrapped.afterDelivery = if a.resetHand then a.afterDelivery else a.wrapped := by
  cases hr : a.resetHand with
  | true =>
    have hr' : a.wrapped.resetHand = true := hr
    rw [SigAct.afterDelivery, SigAct.afterDelivery, a.wrapped_isFunction, hf, hr, hr']
    rfl
  | false =>
    have hr' : a.wrapped.resetHand = false := hr
    rw [SigAct.afterDelivery, hr', Bool.and_false]
    rfl

/-- The action that `sigaction` reports as the old one. -/
def SigSt.oldAction (s : SigSt F) (signo : ℤ) : SigAct F :=
  if (s.kernel signo).handler.isWrapper then
    { s.kernel signo with handler := s.sigactions signo } else s.kernel signo

/-- It is what the application installed. -/
theorem SigRel.oldAction {signo : ℤ} (h : SigRel s a signo) : s.oldAction signo = a.act signo := by
  obtain ⟨hclean, hrel⟩ := h
  by_cases hf : a.installed signo = true ∧ (a.act signo).handler.isFunction = true
  · rw [if_pos hf] at hrel
    obtain ⟨hcb, hk⟩ := hrel
    rw [SigSt.oldAction, hk, hcb, if_pos (SigAct.wrapped_isWrapper _)]
    rfl
  · rw [if_neg hf] at hrel
    rw [SigSt.oldAction, hrel, hclean]
    exact if_neg Bool.false_ne_true

/-- The handler that `signal` returns is what the application installed, unless that was a
function. -/
theorem SigRel.kernel_eq {signo : ℤ} (h : SigRel s a signo)
    (hfree : a.installed signo = true → (a.act signo).handler.isFunction = false) :
    s.kernel signo = a.act signo := by
  have hrel := h.2
  rwa [if_neg] at hrel
  rintro ⟨hi, hf⟩
  rw [hfree hi] at hf
  cases hf

/-- A call of `signal` for a signal with a function of the application returns a wrapper. -/
theorem SigRel.kernel_wrapper {signo : ℤ} (h : SigRel s a signo)
    (hi : a.installed signo = true) (hf : (a.act signo).handler.isFunction = true) :
    (s.kernel signo).handler.isWrapper = true := by
  have hrel := h.2
  rw [if_pos ⟨hi, hf⟩] at hrel
  rw [hrel.2]
  exact SigAct.wrapped_isWrapper _

section Events

variable (signo : ℤ) (hwrap : cfg.wrapSignals = true) (hsig : badSigno signo = false)
  (hex : cfg.exclusive signo = false)

include hwrap hsig hex

theorem SigSt.signal_eq (handler : Handler F) :
    s.signal cfg signo handler =
      (s.installed signo (.ofSignal handler), .oldHandler (s.kernel signo).handler) := by
  by_cases hf : handler.isFunction = true
  · simp [SigSt.signal, SigSt.signalImpl, SigSt.realSigaction, SigSt.installed, SigAct.ofSignal,
      SigAct.wrapped, hwrap, hsig, hex, hf]
  · simp [SigSt.signal, SigSt.signalImpl, SigSt.realSigaction, SigSt.installed, SigAct.ofSignal,
      hwrap, hsig, hex, hf]

theorem SigSt.sigaction_eq (act : Option (SigAct F)) (wantOld : Bool) :
    s.sigaction cfg signo act wantOld =
      (match act with
        | none => s
        | some act => s.installed signo act,
        .oldact (if wantOld then some (s.oldAction signo) else none)) := by
  cases act with
  | none =>
    simp only [SigSt.sigaction, SigSt.sigactionImpl, SigSt.realSigaction, hwrap, hsig, hex]
    rfl
  | some act =>
    by_cases hf : act.handler.isFunction = true
    · simp only [SigSt.sigaction, SigSt.sigactionImpl, SigSt.realSigaction, SigSt.installed, hwrap,
        hsig, hex, hf]
      rfl
    · simp only [SigSt.sigaction, SigSt.sigactionImpl, SigSt.realSigaction, SigSt.installed, hwrap,
        hsig, hex, hf]
      rfl

end Events

/-- A delivery calls what the application installed. -/
theorem SigRel.deliver {signo : ℤ} (h : SigRel s a signo) :
    (s.deliver signo).2 = (a.step (.deliver signo)).2 ∧ (s.deliver signo).2.Clean := by
  obtain ⟨hclean, hrel⟩ := h
  by_cases hf : a.installed signo = true ∧ (a.act signo).handler.isFunction = true
  · -- the kernel has a wrapper, which fetches the function
    rw [if_pos hf] at hrel
    obtain ⟨hcb, hk⟩ := hrel
    have hout : (s.deliver signo).2 =
        .delivered (.called (a.act signo).handler (a.act signo).form) := by
      cases hs : (a.act signo).siginfo with
      | true =>
        simp [SigSt.deliver, SigSt.callback, SigAct.form, SigAct.wrapped, hk, hs, hcb, hclean]
      | false =>
        simp [SigSt.deliver, SigSt.callback, SigAct.form, SigAct.wrapped, hk, hs, hcb, hclean]
    rw [hout]
    refine ⟨?_, hclean⟩
    cases hh : (a.act signo).handler with
    | sigDfl => simp [hh, Handler.isFunction] at hf
    | sigIgn => simp [hh, Handler.isFunction] at hf
    | signalHandler => simp [SigSpec.step, hh]
    | signalAction => simp [SigSpec.step, hh]
    | fn f => simp [SigSpec.step, hh]
  · rw [if_neg hf] at hrel
    cases hh : (a.act signo).handler with
    | sigDfl => simp [SigSt.deliver, SigSpec.step, SigOut.Clean, hrel, hh]
    | sigIgn => simp [SigSt.deliver, SigSpec.step, SigOut.Clean, hrel, hh]
    | signalHandler => simp [hh, Handler.isWrapper] at hclean
    | signalAction => simp [hh, Handler.isWrapper] at hclean
    | fn f => simp [SigSt.deliver, SigSpec.step, SigOut.Clean, hrel, hh, Handler.isWrapper]

/-- A delivery keeps the tables together. -/
theorem SigInv.deliver (h : SigInv s a) (signo : ℤ) :
    SigInv (s.deliver signo).1 (a.step (.deliver signo)).1 := by
  intro n
  by_cases hn : n = signo
  · subst hn
    obtain ⟨hclean, hrel⟩ := h n
    have hclean' : (a.act n).afterDelivery.handler.isWrapper = false := by
      rw [SigAct.afterDelivery]
      split_ifs
      · rfl
      · exact hclean
    refine ⟨by simpa [SigSpec.step] using hclean', ?_⟩
    simp only [SigSt.deliver, SigSpec.step, Function.update_self]
    by_cases hf : a.installed n = true ∧ (a.act n).handler.isFunction = true
    · rw [if_pos hf] at hrel
      rw [hrel.2, SigAct.afterDelivery_wrapped hf.2]
      cases hr : (a.act n).resetHand with
      | true =>
        have hreset : (a.act n).afterDelivery.handler = .sigDfl := by
          rw [SigAct.afterDelivery, hf.2, hr]
          rfl
        rw [hreset, if_pos rfl, if_neg (by rintro ⟨-, h⟩; cases h)]
      | false =>
        have hkeep : (a.act n).afterDelivery = a.act n := by
          rw [SigAct.afterDelivery, hr, Bool.and_false]
          rfl
        rw [hkeep, if_pos hf]
        exact ⟨hrel.1, rfl⟩
    · rw [if_neg hf] at hrel
      rw [hrel, if_neg]
      rintro ⟨hi, hf'⟩
      refine hf ⟨hi, ?_⟩
      rw [SigAct.afterDelivery] at hf'
      split_ifs at hf' with hr
      · cases hf'
      · exact hf'
  · simpa [SigRel, SigSt.deliver, SigSpec.step, hn] using h n

/-- An event that is not a call of `signal` over a function of the application gives the right
output and keeps the tables together. -/
theorem SigInv.step (h : SigInv s a) (hwrap : cfg.wrapSignals = true) {e : SigEvent F}
    (hsig : badSigno e.signo = false) (hex : cfg.exclusive e.signo = false)
    (hown : ∀ h, e.passes = some h → h.isWrapper = false)
    (hfree : ∀ signo h, e = .signal signo h → a.installed signo = true →
      (a.act signo).handler.isFunction = false) :
    (s.step cfg e).2 = (a.step e).2 ∧ (s.step cfg e).2.Clean ∧
      SigInv (s.step cfg e).1 (a.step e).1 := by
  cases e with
  | signal signo handler =>
    have hk := (h signo).kernel_eq (hfree signo handler rfl)
    rw [SigSt.step, SigSt.signal_eq signo hwrap hsig hex, hk]
    exact ⟨rfl, (h signo).1, h.install signo (hown handler rfl)⟩
  | sigaction signo act wantOld =>
    rw [SigSt.step, SigSt.sigaction_eq signo hwrap hsig hex, (h signo).oldAction]
    refine ⟨rfl, ?_, ?_⟩
    · cases wantOld with
      | true => exact (h signo).1
      | false => exact trivial
    · cases act with
      | none => exact h
      | some act => exact h.install signo (hown act.handler rfl)
  | deliver signo =>
    obtain ⟨hout, hclean⟩ := (h signo).deliver
    exact ⟨hout, hclean, h.deliver signo⟩

theorem SigOut.Clean.given {o : SigOut F} (h : o.Clean) : ∀ x ∈ o.given, x.isWrapper = false := by
  intro x hx
  match o, h, hx with
  | .oldHandler _, h, hx =>
    obtain rfl := List.mem_singleton.mp hx
    exact h
  | .oldact (some act), h, hx =>
    obtain rfl := List.mem_singleton.mp hx
    exact h

/-- The first call of `signal` over a function of the application is the first wrong output. -/
theorem SigInv.transparent_iff (h : SigInv s a) (hwrap : cfg.wrapSignals = true)
    {given : List (Handler F)} (hgiven : ∀ x ∈ given, x.isWrapper = false)
    {evs : List (SigEvent F)} (hposs : s.Possible cfg given evs) :
    Transparent cfg s a evs ↔ a.SignalWithoutHandler evs := by
  induction evs generalizing s a given with
  | nil => simp [Transparent, SigSt.outputs, SigSpec.outputs, SigSpec.SignalWithoutHandler]
  | cons e evs ih =>
    obtain ⟨hsig, hex, hpass, hrest⟩ := hposs
    have hown : ∀ x, e.passes = some x → x.isWrapper = false := by
      intro x hx
      by_contra hw
      have hw' : x.isWrapper = true := by simpa using hw
      exact hw (hgiven x (hpass x hx hw'))
    by_cases hfree : ∀ signo h, e = .signal signo h → a.installed signo = true →
        (a.act signo).handler.isFunction = false
    · obtain ⟨hout, hclean, hinv⟩ := h.step hwrap hsig hex hown hfree
      have hgiven' : ∀ x ∈ (s.step cfg e).2.given ++ given, x.isWrapper = false := by
        intro x hx
        rcases List.mem_append.mp hx with hx | hx
        · exact hclean.given x hx
        · exact hgiven x hx
      have htail := ih hinv hgiven' hrest
      simp only [Transparent, SigSt.outputs, SigSpec.outputs, SigSpec.SignalWithoutHandler,
        List.cons.injEq, List.forall_mem_cons, hout, true_and] at htail ⊢
      rw [← htail]
      refine ⟨fun ⟨h1, h2⟩ => ⟨hfree, h1, h2.2⟩, fun ⟨_, h1, h2⟩ => ⟨h1, hout ▸ hclean, h2⟩⟩
    · -- the output is a wrapper, and the application installed none
      push Not at hfree
      obtain ⟨signo, handler, rfl, hi, hf⟩ := hfree
      have hf' : (a.act signo).handler.isFunction = true := by simpa using hf
      have hw := (h signo).kernel_wrapper hi hf'
      constructor
      · rintro ⟨-, hclean⟩
        have hfirst := hclean _ List.mem_cons_self
        rw [SigSt.step, SigSt.signal_eq signo hwrap hsig hex] at hfirst
        rw [SigOut.Clean, hw] at hfirst
        cases hfirst
      · rintro ⟨hfree, -⟩
        exact absurd (hfree signo handler rfl hi) hf

end Tables

/-! ### What the application sees -/

/-- **Signal handlers are virtualised except by `signal` over a handler.** From any table of
initial handlers, and for every sequence of calls and deliveries that an application can cause,
the application sees the table of what it installed itself, and no wrapper, if and only if it
never calls `signal` for a signal that has a handler function it installed. -/
theorem signals_transparent_iff (cfg : SigCfg) (hwrap : cfg.wrapSignals = true) (s : SigSt F)
    (hinit : ∀ n, (s.kernel n).handler.isWrapper = false) (evs : List (SigEvent F))
    (hposs : s.Possible cfg [] evs) :
    Transparent cfg s ⟨s.kernel, fun _ => false⟩ evs ↔
      SigSpec.SignalWithoutHandler ⟨s.kernel, fun _ => false⟩ evs := by
  have hinv : SigInv s ⟨s.kernel, fun _ => false⟩ := by
    intro n
    exact ⟨hinit n, by simp⟩
  exact hinv.transparent_iff hwrap (by simp) hposs

/-- `wrap_signals` on, no signal handled exclusively. -/
def exampleSigCfg : SigCfg := ⟨true, fun _ => false⟩

/-- Every signal at its default. -/
def exampleSigSt : SigSt ℕ := ⟨fun _ => ⟨.sigDfl, false, false⟩, fun _ => .sigDfl⟩

/-- `signal(10, f); sigaction(10, {g, SA_SIGINFO}, &old); sigaction(10, &old, 0)` with deliveries:
the application sees `SIG_DFL`, then `f`, then calls of `g` and `f`. -/
theorem signals_transparent_saveRestore :
    Transparent exampleSigCfg exampleSigSt ⟨exampleSigSt.kernel, fun _ => false⟩
        [.signal 10 (.fn 1), .sigaction 10 (some ⟨.fn 2, true, false⟩) true, .deliver 10,
          .sigaction 10 (some ⟨.fn 1, false, false⟩) false, .deliver 10] ∧
      exampleSigSt.outputs exampleSigCfg
        [.signal 10 (.fn 1), .sigaction 10 (some ⟨.fn 2, true, false⟩) true, .deliver 10,
          .sigaction 10 (some ⟨.fn 1, false, false⟩) false, .deliver 10] =
        [.oldHandler .sigDfl, .oldact (some ⟨.fn 1, false, false⟩),
          .delivered (.called (.fn 2) .three), .oldact none,
          .delivered (.called (.fn 1) .one)] := by
  refine ⟨(signals_transparent_iff exampleSigCfg rfl exampleSigSt (fun _ => rfl) _ ?_).mpr ?_, rfl⟩
  · simp [SigSt.Possible, SigEvent.signo, SigEvent.passes, badSigno, exampleSigCfg,
      Handler.isWrapper]
  · simp [SigSpec.SignalWithoutHandler]

/-- `signal(10, f); p = signal(10, SIG_IGN); signal(10, p)`, and the signal is delivered: `p` is
`SignalHandler`, and the delivery calls it from itself. -/
theorem not_signals_transparent :
    exampleSigSt.Possible exampleSigCfg []
        [.signal 10 (.fn 1), .signal 10 .sigIgn, .signal 10 .signalHandler, .deliver 10] ∧
      exampleSigSt.outputs exampleSigCfg
        [.signal 10 (.fn 1), .signal 10 .sigIgn, .signal 10 .signalHandler, .deliver 10] =
        [.oldHandler .sigDfl, .oldHandler .signalHandler, .oldHandler .sigIgn,
          .delivered .reenters] ∧
      ¬ Transparent exampleSigCfg exampleSigSt ⟨exampleSigSt.kernel, fun _ => false⟩
        [.signal 10 (.fn 1), .signal 10 .sigIgn, .signal 10 .signalHandler, .deliver 10] := by
  refine ⟨?_, rfl, fun h => ?_⟩
  · refine ⟨rfl, rfl, by simp [SigEvent.passes, Handler.isWrapper], rfl, rfl,
      by simp [SigEvent.passes, Handler.isWrapper], rfl, rfl, fun x hx _ => ?_, rfl, rfl,
      by simp [SigEvent.passes], trivial⟩
    cases hx
    exact List.mem_cons_self
  · have hclean := h.2 (.delivered .reenters) (by
      change _ ∈ [SigOut.oldHandler .sigDfl, .oldHandler .signalHandler, .oldHandler .sigIgn,
        .delivered .reenters]
      simp)
    exact hclean

end CQMSan
