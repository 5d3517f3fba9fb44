import TheGame.Networking.TcpListener

/-!
# Servers that share an `io_context`

Any number of listeners on one `io_context`, which its owner runs and does not restart. `Stop`
stops the `io_context` for all of them.
-/

namespace TheGame

/-- The listeners by address, without the destroyed ones, and the `io_context`. -/
structure Servers where
  listeners : List (Option TcpListenerBase) := []
  stopped : Bool := false
deriving DecidableEq

namespace Servers

open TcpListenerBase (Output)

inductive Event
  /-- the constructor of `TcpListenerBase` -/
  | create
  | listener (a : Nat) (e : TcpListenerBase.Event)
  /-- `~TcpListenerBase` -/
  | destroy (a : Nat)
deriving DecidableEq

def get (w : Servers) (a : Nat) : Option TcpListenerBase := w.listeners[a]?.join

/-- The destructor calls `Stop`, with the `OnClose` of the base class, which does nothing. -/
def step (w : Servers) : Event → Option (Servers × List (Nat × Output))
  | .create => some ({ w with listeners := w.listeners ++ [some {}] }, [])
  | .listener a e => (w.get a).bind fun l => (l.step w.stopped e).map fun r =>
    ({ listeners := w.listeners.set a (some r.1), stopped := w.stopped || e.stops },
      r.2.map fun o => (a, o))
  | .destroy a => (w.get a).map fun _ =>
    ({ listeners := w.listeners.set a none, stopped := true }, [])

def machine : Mealy Servers Event (Nat × Output) where
  init := {}
  step := step

/-- The listener has been started, and neither stopped nor destroyed. -/
def Serving (w : Servers) (os : List (Nat × Output)) (a : Nat) : Prop :=
  (a, .start) ∈ os ∧ ∃ l, w.get a = some l ∧ l.isOpen = true

/-- The listener has an accept to wait for, or is going to have one, and is handed the socket of a
connection that arrives. -/
def Answers (w : Servers) (a : Nat) : Prop :=
  (∃ l, w.get a = some l ∧ 0 < l.accepts + l.dispatched) ∧ w.stopped = false ∧
  ∀ socket, ∃ es w' os, machine.runFrom w es = some (w', os) ∧ (a, .onAccept socket) ∈ os

/-- No other listener is serving. -/
def ServesAlone (w : Servers) (os : List (Nat × Output)) (a : Nat) : Prop :=
  ∀ b, w.Serving os b → b = a

/-- Nothing is stopped but a listener that serves alone, and nothing is started on a stopped
`io_context`. -/
def Spares (w : Servers) (os : List (Nat × Output)) : Event → Prop
  | .create => True
  | .listener a (.start _) => ∀ l, w.get a = some l → l.isOpen = true → w.stopped = false
  | .listener a e => e.stops = true → w.ServesAlone os a
  | .destroy a => w.ServesAlone os a

variable {w w' : Servers} {a b : Nat} {e : Event} {es : List Event} {o os : List (Nat × Output)}
  {l : TcpListenerBase}

/-! ## What each event does -/

theorem lt_length (h : w.get a = some l) : a < w.listeners.length := by
  obtain ⟨hlt, -⟩ := List.getElem?_eq_some_iff.mp (Option.join_eq_some_iff.mp h)
  exact hlt

theorem get_set_self {x : Option TcpListenerBase} {stopped : Bool} (h : w.get a = some l) :
    get { listeners := w.listeners.set a x, stopped } a = x := by
  rw [get, List.getElem?_set_self (lt_length h)]
  rfl

theorem get_set_ne {x : Option TcpListenerBase} {stopped : Bool} (h : a ≠ b) :
    get { listeners := w.listeners.set a x, stopped } b = w.get b := by
  rw [get, List.getElem?_set_ne h]
  rfl

theorem get_set_eq_some {x : Option TcpListenerBase} {stopped : Bool} {l' : TcpListenerBase}
    (h : w.get a = some l) : get { listeners := w.listeners.set a x, stopped } b = some l' ↔
      a = b ∧ x = some l' ∨ a ≠ b ∧ w.get b = some l' := by
  by_cases hab : a = b
  · subst hab
    simp [get_set_self h]
  · simp [get_set_ne hab, hab]

theorem get_create (h : b < w.listeners.length) :
    get { w with listeners := w.listeners ++ [some {}] } b = w.get b := by
  rw [get, List.getElem?_append_left h]
  rfl

theorem step_listener (hget : w.get a = some l) {f : TcpListenerBase.Event}
    (hen : l.enabled w.stopped f = true) : machine.step w (.listener a f) =
      some ({ listeners := w.listeners.set a (some (l.apply f).1),
              stopped := w.stopped || f.stops }, (l.apply f).2.map fun o => (a, o)) := by
  change w.step (.listener a f) = _
  rw [step, hget, Option.bind_some, TcpListenerBase.step, if_pos hen]
  rfl

/-- What a step does. -/
theorem step_cases (h : w.step e = some (w', o)) :
    (e = .create ∧ w' = { w with listeners := w.listeners ++ [some {}] } ∧ o = []) ∨
    (∃ a l, e = .destroy a ∧ w.get a = some l ∧
      w' = { listeners := w.listeners.set a none, stopped := true } ∧ o = []) ∨
    ∃ a f l, e = .listener a f ∧ w.get a = some l ∧ l.enabled w.stopped f = true ∧
      w' = { listeners := w.listeners.set a (some (l.apply f).1),
             stopped := w.stopped || f.stops } ∧ o = (l.apply f).2.map fun o => (a, o) := by
  cases e with
  | create =>
    cases h
    exact .inl ⟨rfl, rfl, rfl⟩
  | destroy a =>
    rw [step, Option.map_eq_some_iff] at h
    obtain ⟨l, hl, h⟩ := h
    cases h
    exact .inr (.inl ⟨a, l, rfl, hl, rfl, rfl⟩)
  | listener a f =>
    rw [step, Option.bind_eq_some_iff] at h
    obtain ⟨l, hl, h⟩ := h
    obtain ⟨⟨l', o'⟩, hstep, h⟩ := Option.map_eq_some_iff.mp h
    obtain ⟨hen, rfl, rfl⟩ := TcpListenerBase.step_eq_some.mp hstep
    cases h
    exact .inr (.inr ⟨a, f, l, rfl, hl, hen, rfl, rfl⟩)

/-! ## A listener that is served by the `io_context` -/

theorem exists_onAccept_of_accepts (hget : w.get a = some l) (hrun : w.stopped = false)
    (hpos : 0 < l.accepts) (socket : Nat) :
    ∃ es w' os, machine.runFrom w es = some (w', os) ∧ (a, .onAccept socket) ∈ os := by
  have hen : l.enabled w.stopped (.acceptDone .success socket []) = true := by
    rw [TcpListenerBase.enabled, hrun, Bool.not_false, Bool.true_and, decide_eq_true hpos]
  have hstep := step_listener hget hen
  refine ⟨[.listener a (.acceptDone .success socket [])], _, _,
    Mealy.runFrom_singleton.trans hstep, ?_⟩
  exact List.mem_map.mpr ⟨_, List.mem_cons_self, rfl⟩

/-- Where the `io_context` runs, the dispatched call of `DoAccept` and the handler of the accept
are called. -/
theorem answers_of_pending (hget : w.get a = some l) (hopen : l.isOpen = true)
    (hrun : w.stopped = false) (hpos : 0 < l.accepts + l.dispatched) : w.Answers a := by
  refine ⟨⟨l, hget, hpos⟩, hrun, fun socket => ?_⟩
  by_cases hacc : 0 < l.accepts
  · exact exists_onAccept_of_accepts hget hrun hacc socket
  have hen : l.enabled w.stopped .runStart = true := by
    rw [TcpListenerBase.enabled, hrun, Bool.not_false, Bool.true_and, decide_eq_true (by omega)]
  have hdone : 0 < (l.apply .runStart).1.accepts :=
    TcpListenerBase.accepts_doAccept ((TcpListenerBase.isOpen_doAccept _).trans hopen)
  have hstep := step_listener hget hen
  have hrun' : (w.stopped || TcpListenerBase.Event.runStart.stops) = false := by
    rw [hrun]
    rfl
  obtain ⟨es, w', os, hes, hmem⟩ :=
    exists_onAccept_of_accepts (get_set_self hget) hrun' hdone socket
  exact ⟨.listener a .runStart :: es, w', _,
    Mealy.runFrom_cons.mpr ⟨_, _, os, hstep, hes, rfl⟩, List.mem_append_right _ hmem⟩

theorem mem_own_ne {x : Output} {ys : List Output} (h : a ≠ b) :
    (b, x) ∈ os ++ ys.map (fun y => (a, y)) ↔ (b, x) ∈ os := by
  simp [h]

/-- On a stopped `io_context` no connection is handed to any listener. -/
theorem not_onAccept_of_stopped (hw : w.stopped = true)
    (hr : machine.runFrom w es = some (w', os)) (a socket : Nat) : (a, .onAccept socket) ∉ os := by
  induction es generalizing w os with
  | nil =>
    cases hr
    exact List.not_mem_nil
  | cons e es ih =>
    obtain ⟨u, o, os', hstep, hrun, rfl⟩ := Mealy.runFrom_cons.mp hr
    rw [List.mem_append, not_or]
    rcases step_cases hstep with ⟨-, rfl, rfl⟩ | ⟨b, l, -, -, rfl, rfl⟩ |
      ⟨b, f, l, -, -, hen, rfl, rfl⟩
    · refine ⟨List.not_mem_nil, ih ?_ hrun⟩
      exact hw
    · refine ⟨List.not_mem_nil, ih ?_ hrun⟩
      rfl
    refine ⟨fun hmem => ?_, ih ?_ hrun⟩
    · obtain ⟨x, hx, heq⟩ := List.mem_map.mp hmem
      cases heq
      have hsocket : socket ∈ (l.apply f).2.filterMap Output.socket :=
        List.mem_filterMap.mpr ⟨_, hx, rfl⟩
      rw [(TcpListenerBase.accounted_apply hen).sockets] at hsocket
      cases f with
      | acceptDone => simp [TcpListenerBase.enabled, hw] at hen
      | start | runStart | refusedDone | stop => cases hsocket
    · change (w.stopped || f.stops) = true
      rw [hw, Bool.true_or]

/-! ## Whole runs -/

/-- A listener that serves has an accept to wait for, or is going to have one. -/
structure Pending (w : Servers) (os : List (Nat × Output)) : Prop where
  lt : ∀ a x, (a, x) ∈ os → a < w.listeners.length
  pos : ∀ a l, w.get a = some l → (a, .start) ∈ os → l.isOpen = true →
    0 < l.accepts + l.dispatched

theorem Pending.step (H : Pending w os) (h : w.step e = some (w', o)) : Pending w' (os ++ o) := by
  rcases step_cases h with ⟨-, rfl, rfl⟩ | ⟨a, l, -, hget, rfl, rfl⟩ |
    ⟨a, f, l, -, hget, -, rfl, rfl⟩
  · rw [List.append_nil]
    refine ⟨fun b x hx => ?_, fun b l' hl' hstart => ?_⟩
    · rw [List.length_append]
      exact Nat.lt_add_right _ (H.lt b x hx)
    · rw [get_create (H.lt b _ hstart)] at hl'
      exact H.pos b l' hl' hstart
  · rw [List.append_nil]
    refine ⟨fun b x hx => ?_, fun b l' hl' hstart => ?_⟩
    · rw [List.length_set]
      exact H.lt b x hx
    · rcases (get_set_eq_some hget).mp hl' with ⟨-, h⟩ | ⟨-, hl'⟩
      · cases h
      · exact H.pos b l' hl' hstart
  · refine ⟨fun b x hx => ?_, fun b l' hl' hstart hopen => ?_⟩
    · rw [List.length_set]
      rcases List.mem_append.mp hx with hx | hx
      · exact H.lt b x hx
      · obtain ⟨y, -, heq⟩ := List.mem_map.mp hx
        cases heq
        exact lt_length hget
    · rcases (get_set_eq_some hget).mp hl' with ⟨-, h⟩ | ⟨hab, hl'⟩
      · cases h
        exact TcpListenerBase.pending_apply hopen
      · exact H.pos b l' hl' ((mem_own_ne hab).mp hstart) hopen

theorem pending_of_run (hr : machine.run es = some (w, os)) : Pending w os := by
  refine Mealy.run_induction (P := fun _ w os => Pending w os) ⟨nofun, nofun⟩ ?_ hr
  intro _ w os e w' o _ H hs
  exact H.step hs

theorem answers_iff (H : Pending w os) (h : w.Serving os a) :
    w.Answers a ↔ w.stopped = false := by
  obtain ⟨hstart, l, hget, hopen⟩ := h
  have hpos := H.pos a l hget hstart hopen
  exact ⟨fun h => h.2.1, fun hrun => answers_of_pending hget hopen hrun hpos⟩

/-- When a listener is stopped or destroyed, it is the only one exactly if no other one serves. -/
theorem servesAlone_iff {x : Option TcpListenerBase} {stopped : Bool} (ys : List Output)
    (hget : w.get a = some l) (hx : ∀ l', x = some l' → l'.isOpen = false) :
    w.ServesAlone os a ↔ ∀ b, ¬Serving { listeners := w.listeners.set a x, stopped }
      (os ++ ys.map fun y => (a, y)) b := by
  constructor
  · intro h b hb
    obtain ⟨hstart, l', hl', hopen⟩ := hb
    rcases (get_set_eq_some hget).mp hl' with ⟨-, hx'⟩ | ⟨hab, hl'⟩
    · rw [hx l' hx'] at hopen
      cases hopen
    · exact hab (h b ⟨(mem_own_ne hab).mp hstart, l', hl', hopen⟩).symm
  · intro h b hb
    obtain ⟨hstart, l', hl', hopen⟩ := hb
    by_contra hba
    have hab : a ≠ b := Ne.symm hba
    exact h b ⟨(mem_own_ne hab).mpr hstart, l', (get_set_ne hab).trans hl', hopen⟩

/-- Where all that serve answer, it is exactly these events that keep it so. -/
theorem spares_iff (H : Pending w os) (hok : ∀ a, w.Serving os a → w.Answers a)
    (h : w.step e = some (w', o)) :
    w.Spares os e ↔ ∀ a, w'.Serving (os ++ o) a → w'.Answers a := by
  have hafter : (∀ a, w'.Serving (os ++ o) a → w'.Answers a) ↔
      ∀ a, w'.Serving (os ++ o) a → w'.stopped = false :=
    forall₂_congr fun a ha => answers_iff (H.step h) ha
  rw [hafter]
  clear hafter
  have hrun (b : Nat) (hb : w.Serving os b) : w.stopped = false := (hok b hb).2.1
  rcases step_cases h with ⟨rfl, rfl, rfl⟩ | ⟨a, l, rfl, hget, rfl, rfl⟩ |
    ⟨a, f, l, rfl, hget, hen, rfl, rfl⟩
  · refine iff_of_true trivial fun b hb => ?_
    rw [List.append_nil] at hb
    obtain ⟨hstart, l, hget, hopen⟩ := hb
    rw [get_create (H.lt b _ hstart)] at hget
    exact hrun b ⟨hstart, l, hget, hopen⟩
  · simp only [Bool.true_eq_false, imp_false]
    exact servesAlone_iff [] hget nofun
  cases hstops : f.stops with
  | true =>
    have hclosed : (l.apply f).1.isOpen = false := by
      rw [TcpListenerBase.isOpen_apply, hstops]
      exact Bool.and_false _
    have hspares : w.Spares os (.listener a f) ↔ w.ServesAlone os a := by
      cases f with
      | start => cases hstops
      | runStart | acceptDone | refusedDone | stop => exact ⟨fun h => h hstops, fun h _ => h⟩
    simp only [Bool.or_true, Bool.true_eq_false, imp_false]
    rw [hspares]
    refine servesAlone_iff _ hget fun l' hl' => ?_
    cases hl'
    exact hclosed
  | false =>
    rw [Bool.or_false]
    cases f with
    | start atOnce =>
      constructor
      · intro h b hb
        obtain ⟨hstart, l', hl', hopen⟩ := hb
        rcases (get_set_eq_some hget).mp hl' with ⟨-, hl'⟩ | ⟨hab, hl'⟩
        · cases hl'
          exact h l hget ((TcpListenerBase.isOpen_start l atOnce).symm.trans hopen)
        · exact hrun b ⟨(mem_own_ne hab).mp hstart, l', hl', hopen⟩
      · intro h l' hl' hopen
        rw [hget] at hl'
        cases hl'
        refine h a ⟨List.mem_append_right _ (List.mem_map.mpr ⟨.start, ?_, rfl⟩), _,
          get_set_self hget, (TcpListenerBase.isOpen_start l atOnce).trans hopen⟩
        cases atOnce <;> exact List.mem_cons_self
    | runStart | acceptDone | refusedDone =>
      have hrunning : w.stopped = false := by
        cases hs : w.stopped with
        | true => simp [TcpListenerBase.enabled, hs] at hen
        | false => rfl
      exact iff_of_true (fun h => absurd (hstops.symm.trans h) Bool.false_ne_true)
        fun _ _ => hrunning
    | stop => cases hstops

/-- All that serve answer exactly in the runs that stop or destroy a listener only where it serves
alone, and start none once the `io_context` is stopped. -/
theorem along_spares_iff (hr : machine.run es = some (w, os)) :
    machine.Along Spares es ↔
      machine.Always (fun w os => ∀ a, w.Serving os a → w.Answers a) es := by
  refine Mealy.along_iff_always (P := fun w os => ∀ a, w.Serving os a → w.Answers a) nofun ?_ hr
  intro es w os e w' o hr hok hs
  exact spares_iff (pending_of_run hr) hok hs

theorem along_spares_iff_alone : machine.Always (fun w os => ∀ a, w.Serving os a → w.Answers a)
    [.create, .create, .listener 0 (.start true), .listener 0 (.acceptDone .success 7 []),
      .listener 0 .stop] := by
  refine (along_spares_iff (Mealy.run_eq_some rfl)).mp
    ⟨trivial, trivial, fun _ _ _ => rfl, nofun, fun _ b hb => ?_, trivial⟩
  have hmem : (b, Output.start) ∈
      [(0, .start), (0, .asyncAccept true), (0, .onAccept 7), (0, .asyncAccept true)] := hb.1
  simpa using hmem

/-- Two servers are started, and one is stopped. No connection is handed to the other one any
more. -/
theorem exists_stop_disturbs : ∃ es w os, machine.run es = some (w, os) ∧ w.Serving os 0 ∧
    ¬w.Answers 0 ∧ ∀ es' w' os', machine.runFrom w es' = some (w', os') →
      ∀ socket, (0, .onAccept socket) ∉ os' := by
  refine ⟨[.create, .create, .listener 0 (.start true), .listener 1 (.start true),
    .listener 1 .stop], ⟨[some ⟨true, 1, 0, 0⟩, some ⟨false, 1, 0, 0⟩], true⟩, _, rfl,
    ⟨List.mem_cons_self, _, rfl, rfl⟩, fun h => ?_, fun es' w' os' hr => ?_⟩
  · cases h.2.1
  · exact not_onAccept_of_stopped rfl hr 0

end Servers

end TheGame
