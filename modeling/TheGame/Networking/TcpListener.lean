import TheGame.Machine.Basic
import TheGame.Networking.Common

/-!
# `TcpListenerBase`

`tcp_listener_base.h`, `tcp_listener_base.cpp`. The constructor leaves an acceptor that listens, or
throws. A listener is kept with what Asio keeps for it: the outstanding accepts, and the calls of
`DoAccept` that `Start` has dispatched and that have not run yet. An accept that is initiated on the
closed acceptor completes with an error. Sockets are numbered.
-/

namespace TheGame

structure TcpListenerBase where
  /-- `acceptor_.is_open()` -/
  isOpen : Bool := true
  /-- outstanding accepts, initiated on the open acceptor -/
  accepts : Nat := 0
  /-- outstanding accepts, initiated on the closed acceptor -/
  refused : Nat := 0
  /-- calls of `DoAccept` that wait for the `io_context` -/
  dispatched : Nat := 0
deriving DecidableEq

namespace TcpListenerBase

/-- What an observer sees. -/
inductive Output
  /-- `Start` is called -/
  | start
  /-- `acceptor_.async_accept`, on an acceptor that is open or not -/
  | asyncAccept (isOpen : Bool)
  | onAccept (socket : Nat)
  | onError (ec : ErrorCode) (what : String)
  | onClose
deriving DecidableEq

/-- A call that an override of `OnAccept` or `OnError` makes on its listener. -/
inductive Call
  | start
  | stop
deriving DecidableEq

/-- `TcpListenerBase::DoAccept` -/
def doAccept (l : TcpListenerBase) : TcpListenerBase × List Output :=
  if l.isOpen then ({ l with accepts := l.accepts + 1 }, [.asyncAccept true])
  else ({ l with refused := l.refused + 1 }, [.asyncAccept false])

/-- `TcpListenerBase::Start`. The call is dispatched at once on a thread that runs the
`io_context`, and waits for one elsewhere. -/
def start (l : TcpListenerBase) (atOnce : Bool) : TcpListenerBase × List Output :=
  if atOnce then (l.doAccept.1, .start :: l.doAccept.2)
  else ({ l with dispatched := l.dispatched + 1 }, [.start])

/-- `TcpListenerBase::Stop`, but for `io_context_ref_.stop()`. -/
def stop (l : TcpListenerBase) : TcpListenerBase × List Output :=
  ({ l with isOpen := false }, [.onClose])

/-- The calls of an override, which is run by the `io_context`. -/
def perform (l : TcpListenerBase) : List Call → TcpListenerBase × List Output
  | [] => (l, [])
  | .start :: cs =>
    let r := (l.start true).1.perform cs
    (r.1, (l.start true).2 ++ r.2)
  | .stop :: cs =>
    let r := l.stop.1.perform cs
    (r.1, l.stop.2 ++ r.2)

/-- `TcpListenerBase::OnAcceptContinue`, with the calls that `OnAccept` or `OnError` makes. -/
def onAcceptContinue (l : TcpListenerBase) (ec : ErrorCode) (socket : Nat) (calls : List Call) :
    TcpListenerBase × List Output :=
  let o := if ec.failed then .onError ec "accept" else .onAccept socket
  let r := l.perform calls
  -- whatever has happened to the acceptor, another accept is initiated
  let u := r.1.doAccept
  (u.1, o :: (r.2 ++ u.2))

/-- What happens to a listener. -/
inductive Event
  | start (atOnce : Bool)
  /-- the call that `Start` has dispatched runs -/
  | runStart
  /-- an accept completes that was initiated on the open acceptor. It may have been successful
  before the acceptor was closed. -/
  | acceptDone (ec : ErrorCode) (socket : Nat) (calls : List Call)
  /-- an accept completes that was initiated on the closed acceptor -/
  | refusedDone (ec : ErrorCode) (socket : Nat) (calls : List Call)
  | stop
deriving DecidableEq

/-- `Stop` is called, and stops the `io_context`. -/
def Event.stops : Event → Bool
  | .stop => true
  | .acceptDone _ _ calls | .refusedDone _ _ calls => calls.contains .stop
  | .start _ | .runStart => false

/-- The `io_context` runs no handler while it is stopped. -/
def enabled (l : TcpListenerBase) (stopped : Bool) : Event → Bool
  | .start _ | .stop => true
  | .runStart => !stopped && 0 < l.dispatched
  | .acceptDone .. => !stopped && 0 < l.accepts
  | .refusedDone ec .. => !stopped && 0 < l.refused && ec.failed

def apply (l : TcpListenerBase) : Event → TcpListenerBase × List Output
  | .start atOnce => l.start atOnce
  | .runStart => { l with dispatched := l.dispatched - 1 }.doAccept
  | .acceptDone ec socket calls =>
    { l with accepts := l.accepts - 1 }.onAcceptContinue ec socket calls
  | .refusedDone ec socket calls =>
    { l with refused := l.refused - 1 }.onAcceptContinue ec socket calls
  | .stop => l.stop

/-- One event of a listener. -/
def step (l : TcpListenerBase) (stopped : Bool) (e : Event) :
    Option (TcpListenerBase × List Output) :=
  if l.enabled stopped e then some (l.apply e) else none

/-! ## A listener on its `io_context` -/

/-- A listener, with the `io_context` that it was given. -/
structure Hosted where
  listener : TcpListenerBase := {}
  stopped : Bool := false
deriving DecidableEq

namespace Hosted

inductive Event
  | listener (e : TcpListenerBase.Event)
  /-- the owner of the `io_context` stops it, or it runs out of work -/
  | halt
  /-- the owner of the `io_context` restarts it -/
  | restart
deriving DecidableEq

def step (k : Hosted) : Event → Option (Hosted × List Output)
  | .listener e => (k.listener.step k.stopped e).map fun r =>
    ({ listener := r.1, stopped := k.stopped || e.stops }, r.2)
  | .halt => some ({ k with stopped := true }, [])
  | .restart => some ({ k with stopped := false }, [])

def machine : Mealy Hosted Event Output where
  init := {}
  step := step

end Hosted

/-! ## What each event does -/

variable {l l' : TcpListenerBase} {e : Event} {o os : List Output} {stopped : Bool}

/-- The accepts that have not completed yet. -/
def outstanding (l : TcpListenerBase) : Nat := l.accepts + l.refused

theorem step_eq_some : l.step stopped e = some (l', o) ↔
    l.enabled stopped e = true ∧ (l.apply e).1 = l' ∧ (l.apply e).2 = o := by
  rw [step, Option.ite_none_right_eq_some, Option.some.injEq, Prod.ext_iff]

def Output.isAsyncAccept : Output → Bool
  | .asyncAccept _ => true
  | _ => false

/-- A completion is handled. -/
def Output.isHandled : Output → Bool
  | .onAccept _ | .onError .. => true
  | _ => false

/-- The socket that is handed to `OnAccept`. -/
def Output.socket : Output → Option Nat
  | .onAccept socket => some socket
  | _ => none

def Event.isCompletion : Event → Bool
  | .acceptDone .. | .refusedDone .. => true
  | _ => false

/-- The socket that is accepted. -/
def Event.socket : Event → Option Nat
  | .acceptDone ec socket _ => if ec.failed then none else some socket
  | _ => none

/-- The calls of `Start` that an override makes. -/
def Event.starts : Event → Nat
  | .acceptDone _ _ calls | .refusedDone _ _ calls => calls.count .start
  | _ => 0

/-- The outputs as an acceptor sees them. It is not opened again, and each accept is initiated on
what it is then. -/
def acceptor : Mealy Bool Output Empty where
  init := true
  step
    | isOpen, .asyncAccept b => if b = isOpen then some (isOpen, []) else none
    | _, .onClose => some (false, [])
    | isOpen, _ => some (isOpen, [])

theorem acceptor_append {b c d : Bool} (h1 : acceptor.runFrom b os = some (c, []))
    (h2 : acceptor.runFrom c o = some (d, [])) : acceptor.runFrom b (os ++ o) = some (d, []) :=
  Mealy.runFrom_append.mpr ⟨c, [], [], h1, h2, rfl⟩

theorem acceptor_cons {x : Output} {b c : Bool} (hx : acceptor.step b x = some (b, []))
    (h : acceptor.runFrom b o = some (c, [])) : acceptor.runFrom b (x :: o) = some (c, []) :=
  Mealy.runFrom_cons.mpr ⟨b, [], [], hx, h, rfl⟩

theorem acceptor_doAccept :
    acceptor.runFrom l.isOpen l.doAccept.2 = some (l.doAccept.1.isOpen, []) := by
  rw [doAccept]
  cases l.isOpen <;> simp [Mealy.runFrom, acceptor]

theorem acceptor_start {atOnce : Bool} :
    acceptor.runFrom l.isOpen (l.start atOnce).2 = some ((l.start atOnce).1.isOpen, []) := by
  cases atOnce with
  | true => exact acceptor_cons rfl acceptor_doAccept
  | false => rfl

theorem acceptor_stop : acceptor.runFrom l.isOpen l.stop.2 = some (l.stop.1.isOpen, []) := rfl

theorem acceptor_perform {calls : List Call} :
    acceptor.runFrom l.isOpen (l.perform calls).2 = some ((l.perform calls).1.isOpen, []) := by
  induction calls generalizing l with
  | nil => rfl
  | cons c calls ih =>
    cases c with
    | start => exact acceptor_append acceptor_start ih
    | stop => exact acceptor_append acceptor_stop ih

theorem acceptor_onAcceptContinue {ec : ErrorCode} {socket : Nat} {calls : List Call} :
    acceptor.runFrom l.isOpen (l.onAcceptContinue ec socket calls).2 =
      some ((l.onAcceptContinue ec socket calls).1.isOpen, []) := by
  refine acceptor_cons ?_ (acceptor_append acceptor_perform acceptor_doAccept)
  cases ec.failed <;> rfl

theorem acceptor_apply (e : Event) :
    acceptor.runFrom l.isOpen (l.apply e).2 = some ((l.apply e).1.isOpen, []) := by
  cases e with
  | start atOnce => exact acceptor_start
  | runStart => exact acceptor_doAccept (l := { l with dispatched := l.dispatched - 1 })
  | acceptDone ec socket calls =>
    exact acceptor_onAcceptContinue (l := { l with accepts := l.accepts - 1 })
  | refusedDone ec socket calls =>
    exact acceptor_onAcceptContinue (l := { l with refused := l.refused - 1 })
  | stop => exact acceptor_stop

/-! ### What is outstanding -/

/-- With `k` accepts outstanding, `n` are initiated and no completion is handled. -/
structure Initiates (k n : Nat) (r : TcpListenerBase × List Output) : Prop where
  outstanding : r.1.outstanding = k + n
  initiated : r.2.countP Output.isAsyncAccept = n
  handled : r.2.countP Output.isHandled = 0
  sockets : r.2.filterMap Output.socket = []

theorem Initiates.append {k m n : Nat} {r u : TcpListenerBase × List Output}
    (hr : Initiates k m r) (hu : Initiates r.1.outstanding n u) :
    Initiates k (m + n) (u.1, r.2 ++ u.2) where
  outstanding := by rw [hu.outstanding, hr.outstanding, Nat.add_assoc]
  initiated := by rw [List.countP_append, hr.initiated, hu.initiated]
  handled := by rw [List.countP_append, hr.handled, hu.handled]
  sockets := by rw [List.filterMap_append, hr.sockets, hu.sockets, List.append_nil]

theorem initiates_doAccept (l : TcpListenerBase) : Initiates l.outstanding 1 l.doAccept := by
  rw [doAccept]
  cases l.isOpen with
  | true => exact ⟨Nat.add_right_comm .., rfl, rfl, rfl⟩
  | false => exact ⟨rfl, rfl, rfl, rfl⟩

theorem initiates_start (l : TcpListenerBase) (atOnce : Bool) :
    Initiates l.outstanding atOnce.toNat (l.start atOnce) := by
  cases atOnce with
  | true =>
    obtain ⟨h1, h2, h3, h4⟩ := initiates_doAccept l
    exact ⟨h1, h2, h3, h4⟩
  | false => exact ⟨rfl, rfl, rfl, rfl⟩

theorem initiates_stop (l : TcpListenerBase) : Initiates l.outstanding 0 l.stop :=
  ⟨rfl, rfl, rfl, rfl⟩

theorem initiates_perform (l : TcpListenerBase) (calls : List Call) :
    Initiates l.outstanding (calls.count .start) (l.perform calls) := by
  induction calls generalizing l with
  | nil => exact ⟨rfl, rfl, rfl, rfl⟩
  | cons c calls ih =>
    cases c with
    | start =>
      rw [List.count_cons_self, Nat.add_comm]
      exact (initiates_start l true).append (ih _)
    | stop =>
      have hne : Call.stop ≠ Call.start := by decide
      rw [List.count_cons_of_ne hne, ← Nat.zero_add (calls.count .start)]
      exact (initiates_stop l).append (ih _)

/-- What an event has to do with the `k` accepts that are outstanding. -/
structure Accounted (k : Nat) (e : Event) (r : TcpListenerBase × List Output) : Prop where
  balance : r.1.outstanding + r.2.countP Output.isHandled =
    k + r.2.countP Output.isAsyncAccept
  completion : e.isCompletion = true → r.1.outstanding = k + e.starts
  sockets : r.2.filterMap Output.socket = e.socket.toList

theorem Initiates.accounted {k n : Nat} {r : TcpListenerBase × List Output}
    (h : Initiates k n r) (he : e.isCompletion = false) (hs : e.socket = none) :
    Accounted k e r where
  balance := by rw [h.outstanding, h.initiated, h.handled, Nat.add_zero]
  completion hc := by
    rw [he] at hc
    cases hc
  sockets := by rw [h.sockets, hs, Option.toList_none]

/-- The handler of a completion hands the socket over and initiates the next accept. -/
theorem accounted_onAcceptContinue {ec : ErrorCode} {socket : Nat} {calls : List Call}
    (hc : e.starts = calls.count .start) (hs : e.socket = if ec.failed then none else some socket) :
    Accounted (l.outstanding + 1) e (l.onAcceptContinue ec socket calls) := by
  obtain ⟨h1, h2, h3, h4⟩ := (initiates_perform l calls).append (initiates_doAccept _)
  have h1 : (l.onAcceptContinue ec socket calls).1.outstanding = _ := h1
  rw [onAcceptContinue] at h1 ⊢
  refine ⟨?_, fun _ => by rw [h1, hc]; omega, ?_⟩
  · rw [h1, List.countP_cons, List.countP_cons, h2, h3]
    cases ec.failed <;> simp [Output.isHandled, Output.isAsyncAccept] <;> omega
  · rw [List.filterMap_cons, h4, hs]
    cases ec.failed <;> rfl

theorem accounted_apply (h : l.enabled stopped e = true) :
    Accounted l.outstanding e (l.apply e) := by
  cases e with
  | start atOnce => exact (initiates_start l atOnce).accounted rfl rfl
  | runStart =>
    exact Initiates.accounted (initiates_doAccept { l with dispatched := l.dispatched - 1 }) rfl rfl
  | acceptDone ec socket calls =>
    have hpos : 0 < l.accepts := of_decide_eq_true (Bool.and_eq_true_iff.mp h).2
    have hlen : l.outstanding = { l with accepts := l.accepts - 1 }.outstanding + 1 := by
      simp only [outstanding]
      omega
    rw [hlen]
    exact accounted_onAcceptContinue rfl rfl
  | refusedDone ec socket calls =>
    obtain ⟨h, hec⟩ := Bool.and_eq_true_iff.mp h
    have hpos : 0 < l.refused := of_decide_eq_true (Bool.and_eq_true_iff.mp h).2
    have hlen : l.outstanding = { l with refused := l.refused - 1 }.outstanding + 1 := by
      simp only [outstanding]
      omega
    rw [hlen]
    exact accounted_onAcceptContinue rfl (if_pos hec).symm
  | stop => exact (initiates_stop l).accounted rfl rfl

/-! ### What is initiated on the closed acceptor -/

theorem isOpen_doAccept (l : TcpListenerBase) : l.doAccept.1.isOpen = l.isOpen := by
  rw [doAccept]
  split <;> rfl

theorem isOpen_start (l : TcpListenerBase) (atOnce : Bool) :
    (l.start atOnce).1.isOpen = l.isOpen := by
  cases atOnce with
  | true => exact isOpen_doAccept l
  | false => rfl

theorem isOpen_perform (l : TcpListenerBase) (calls : List Call) :
    (l.perform calls).1.isOpen = (l.isOpen && !calls.contains .stop) := by
  induction calls generalizing l with
  | nil => exact (Bool.and_true _).symm
  | cons c calls ih =>
    cases c with
    | start =>
      rw [perform, ih, isOpen_start]
      rfl
    | stop =>
      rw [perform, ih]
      exact (Bool.and_false _).symm

theorem isOpen_apply (l : TcpListenerBase) (e : Event) :
    (l.apply e).1.isOpen = (l.isOpen && !e.stops) := by
  cases e with
  | start atOnce => rw [apply, isOpen_start, Event.stops, Bool.not_false, Bool.and_true]
  | runStart => rw [apply, isOpen_doAccept, Event.stops, Bool.not_false, Bool.and_true]
  | acceptDone ec socket calls | refusedDone ec socket calls =>
    exact (isOpen_doAccept _).trans (isOpen_perform _ calls)
  | stop => exact (Bool.and_false _).symm

theorem accepts_doAccept (h : l.doAccept.1.isOpen = true) : 0 < l.doAccept.1.accepts := by
  have hopen : l.isOpen = true := (isOpen_doAccept l).symm.trans h
  rw [doAccept, if_pos hopen]
  exact Nat.succ_pos _

/-- Whatever happens to a listener, it has an accept to wait for or is going to have one, unless it
is closed. -/
theorem pending_apply (h : (l.apply e).1.isOpen = true) :
    0 < (l.apply e).1.accepts + (l.apply e).1.dispatched := by
  cases e with
  | start atOnce =>
    cases atOnce with
    | true => exact Nat.add_pos_left (accepts_doAccept h) _
    | false => exact Nat.add_pos_right _ (Nat.succ_pos _)
  | runStart | acceptDone | refusedDone => exact Nat.add_pos_left (accepts_doAccept h) _
  | stop => cases h

/-- What an acceptor sees closes it or leaves it as it is. -/
theorem acceptor_step {x : Output} {b c : Bool} {xs : List Empty}
    (h : acceptor.step b x = some (c, xs)) :
    (x = .onClose ∧ c = false) ∨
      (x ≠ .onClose ∧ c = b ∧ ∀ b', x = .asyncAccept b' → b' = b) := by
  cases x with
  | asyncAccept b' =>
    obtain ⟨rfl, h⟩ := Option.ite_none_right_eq_some.mp h
    cases h
    exact .inr ⟨nofun, rfl, fun b' h => (Output.asyncAccept.inj h).symm⟩
  | onClose =>
    cases h
    exact .inl ⟨rfl, rfl⟩
  | start | onAccept | onError =>
    cases h
    exact .inr ⟨nofun, rfl, nofun⟩

/-- Once closed, an acceptor stays so. -/
theorem acceptor_closed {c : Bool} {xs : List Empty}
    (h : acceptor.runFrom false os = some (c, xs)) : c = false := by
  induction os generalizing xs with
  | nil =>
    cases h
    rfl
  | cons x os ih =>
    obtain ⟨t, _, _, hstep, hrun, -⟩ := Mealy.runFrom_cons.mp h
    rcases acceptor_step hstep with ⟨-, rfl⟩ | ⟨-, rfl, -⟩ <;> exact ih hrun

theorem eq_false_of_mem_closed {b c : Bool} {xs : List Empty}
    (h : acceptor.runFrom false os = some (c, xs)) (hmem : .asyncAccept b ∈ os) : b = false := by
  induction os generalizing xs with
  | nil => cases hmem
  | cons x os ih =>
    obtain ⟨t, _, _, hstep, hrun, -⟩ := Mealy.runFrom_cons.mp h
    rcases List.mem_cons.mp hmem with rfl | hmem
    · rcases acceptor_step hstep with ⟨h, -⟩ | ⟨-, -, hb⟩
      · cases h
      · exact hb b rfl
    · rcases acceptor_step hstep with ⟨-, rfl⟩ | ⟨-, rfl, -⟩ <;> exact ih hrun hmem

theorem acceptor_refused {b c : Bool} {xs : List Empty}
    (h : acceptor.runFrom b os = some (c, xs)) (hmem : .asyncAccept false ∈ os) : c = false := by
  induction os generalizing b xs with
  | nil => cases hmem
  | cons x os ih =>
    obtain ⟨t, _, _, hstep, hrun, -⟩ := Mealy.runFrom_cons.mp h
    rcases List.mem_cons.mp hmem with rfl | hmem
    · rcases acceptor_step hstep with ⟨h, -⟩ | ⟨-, rfl, hb⟩
      · cases h
      · rw [← hb false rfl] at hrun
        exact acceptor_closed hrun
    · exact ih hrun hmem

/-- The accepts that the event initiates are initiated on the open acceptor. -/
def AcceptsOnOpen (l : TcpListenerBase) : Event → Prop
  | .start atOnce => atOnce = true → l.isOpen = true
  | .runStart => l.isOpen = true
  | .acceptDone _ _ calls | .refusedDone _ _ calls => l.isOpen = true ∧ .stop ∉ calls
  | .stop => True

instance : Decidable (l.AcceptsOnOpen e) :=
  match e with
  | .start atOnce => inferInstanceAs (Decidable (atOnce = true → l.isOpen = true))
  | .runStart => inferInstanceAs (Decidable (l.isOpen = true))
  | .acceptDone _ _ calls | .refusedDone _ _ calls =>
    inferInstanceAs (Decidable (l.isOpen = true ∧ .stop ∉ calls))
  | .stop => inferInstanceAs (Decidable True)

theorem mem_doAccept : .asyncAccept false ∈ l.doAccept.2 ↔ l.isOpen = false := by
  rw [doAccept]
  cases l.isOpen <;> simp

theorem mem_onAcceptContinue {ec : ErrorCode} {socket : Nat} {calls : List Call} :
    .asyncAccept false ∈ (l.onAcceptContinue ec socket calls).2 ↔
      ¬(l.isOpen = true ∧ .stop ∉ calls) := by
  have hperform : .asyncAccept false ∈ (l.perform calls).2 → (l.perform calls).1.isOpen = false :=
    acceptor_refused acceptor_perform
  have hhandled : .asyncAccept false ≠
      if ec.failed then Output.onError ec "accept" else .onAccept socket := by
    cases ec.failed <;> exact nofun
  rw [onAcceptContinue, List.mem_cons, List.mem_append, mem_doAccept, or_iff_right hhandled,
    or_iff_right_of_imp hperform, isOpen_perform]
  cases l.isOpen <;> simp

theorem acceptsOnOpen_iff (l : TcpListenerBase) (e : Event) :
    l.AcceptsOnOpen e ↔ .asyncAccept false ∉ (l.apply e).2 := by
  cases e with
  | start atOnce =>
    cases atOnce with
    | true =>
      have hne : Output.asyncAccept false ≠ .start := nofun
      simp only [AcceptsOnOpen, apply, start, if_true, List.mem_cons, mem_doAccept, hne, false_or,
        Bool.not_eq_false, forall_const]
    | false => exact iff_of_true nofun (by simp [apply, start])
  | runStart => simp only [AcceptsOnOpen, apply, mem_doAccept, Bool.not_eq_false]
  | acceptDone ec socket calls | refusedDone ec socket calls =>
    rw [AcceptsOnOpen, apply, mem_onAcceptContinue, not_not]
  | stop => exact iff_of_true trivial (by simp [apply, stop])

end TcpListenerBase

end TheGame
