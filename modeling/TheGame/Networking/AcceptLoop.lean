import TheGame.Networking.TcpListener

/-!
# The accept loop

The handler of a completion initiates the next accept, also where the accept has been cancelled or
the acceptor is closed. The `io_context` that `Stop` has stopped keeps it from being called; where
it runs again, the loop goes on and every completion is an error.
-/

namespace TheGame.TcpListenerBase.Hosted

variable {k k' : Hosted} {es : List Event} {o os : List Output}

/-- What is seen before `Stop`. -/
def untilStop (os : List Output) : List Output := os.takeWhile (· ≠ .onClose)

/-- What is seen from `Stop` on. -/
def sinceStop (os : List Output) : List Output := os.dropWhile (· ≠ .onClose)

/-- The accept loop ends with `Stop`: no accept is initiated on the closed acceptor, and at most
the completions of those are handled that were outstanding at `Stop`. -/
structure Ends (os : List Output) : Prop where
  onOpen : .asyncAccept false ∉ os
  handled : (sinceStop os).countP Output.isHandled ≤
    (untilStop os).countP Output.isAsyncAccept - (untilStop os).countP Output.isHandled

/-- The accepts that the event initiates are initiated on the open acceptor. -/
def AcceptsOnOpen (k : Hosted) : Event → Prop
  | .listener e => k.listener.AcceptsOnOpen e
  | .halt | .restart => True

instance (k : Hosted) : ∀ e, Decidable (k.AcceptsOnOpen e)
  | .listener e => inferInstanceAs (Decidable (k.listener.AcceptsOnOpen e))
  | .halt | .restart => inferInstanceAs (Decidable True)

/-- The socket that is accepted. -/
def Event.socket : Event → Option Nat
  | .listener e => e.socket
  | .halt | .restart => none

def Event.isCompletion : Event → Bool
  | .listener e => e.isCompletion
  | .halt | .restart => false

/-- The calls of `Start` that an override makes. -/
def Event.starts : Event → Nat
  | .listener e => e.starts
  | .halt | .restart => 0

/-! ## What each event does -/

theorem accounted_step {e : Event} (h : k.step e = some (k', o)) :
    k'.listener.outstanding + o.countP Output.isHandled =
      k.listener.outstanding + o.countP Output.isAsyncAccept ∧
    (e.isCompletion = true → k'.listener.outstanding = k.listener.outstanding + e.starts) ∧
    o.filterMap Output.socket = e.socket.toList ∧
    acceptor.runFrom k.listener.isOpen o = some (k'.listener.isOpen, []) ∧
    (k.AcceptsOnOpen e ↔ .asyncAccept false ∉ o) := by
  cases e with
  | listener e =>
    rw [step, Option.map_eq_some_iff] at h
    obtain ⟨⟨l, o'⟩, hl, h⟩ := h
    cases h
    obtain ⟨hen, rfl, rfl⟩ := step_eq_some.mp hl
    obtain ⟨h1, h2, h3⟩ := accounted_apply hen
    exact ⟨h1, h2, h3, acceptor_apply e, acceptsOnOpen_iff _ e⟩
  | halt | restart =>
    cases h
    exact ⟨rfl, nofun, rfl, rfl, iff_of_true trivial List.not_mem_nil⟩

/-! ## Whole runs -/

/-- The outputs of a run, as the acceptor and the accepts that are outstanding see them. -/
theorem accounted_run (hr : machine.run es = some (k, os)) :
    k.listener.outstanding + os.countP Output.isHandled = os.countP Output.isAsyncAccept ∧
    os.filterMap Output.socket = es.filterMap Event.socket ∧
    acceptor.runFrom true os = some (k.listener.isOpen, []) := by
  refine Mealy.run_induction (P := fun es k os => k.listener.outstanding +
    os.countP Output.isHandled = os.countP Output.isAsyncAccept ∧
    os.filterMap Output.socket = es.filterMap Event.socket ∧
    acceptor.runFrom true os = some (k.listener.isOpen, [])) ⟨rfl, rfl, rfl⟩ ?_ hr
  intro es k os e k' o _ ih hs
  obtain ⟨h1, h2, h3⟩ := ih
  obtain ⟨g1, -, g2, g3, -⟩ := accounted_step hs
  refine ⟨?_, ?_, acceptor_append h3 g3⟩
  · rw [List.countP_append, List.countP_append]
    omega
  · rw [List.filterMap_append, List.filterMap_append, h2, g2, List.filterMap_cons]
    cases e.socket <;> rfl

/-- What is initiated after `Stop` is initiated on the closed acceptor. -/
theorem eq_false_of_mem_sinceStop {b c : Bool} {xs : List Empty}
    (h : acceptor.runFrom true os = some (c, xs)) (hmem : .asyncAccept b ∈ sinceStop os) :
    b = false := by
  induction os generalizing xs with
  | nil => cases hmem
  | cons x os ih =>
    obtain ⟨t, _, _, hstep, hrun, -⟩ := Mealy.runFrom_cons.mp h
    rcases acceptor_step hstep with ⟨rfl, rfl⟩ | ⟨hx, rfl, -⟩
    · rcases List.mem_cons.mp hmem with hmem | hmem
      · cases hmem
      · exact eq_false_of_mem_closed hrun hmem
    · have hcons : sinceStop (x :: os) = sinceStop os :=
        List.dropWhile_cons_of_pos (decide_eq_true hx)
      rw [hcons] at hmem
      exact ih hrun hmem

theorem ends_iff {b : Bool} (h : acceptor.runFrom true os = some (b, []))
    (hle : os.countP Output.isHandled ≤ os.countP Output.isAsyncAccept) :
    Ends os ↔ .asyncAccept false ∉ os := by
  refine ⟨Ends.onOpen, fun hno => ⟨hno, ?_⟩⟩
  have hos : untilStop os ++ sinceStop os = os := List.takeWhile_append_dropWhile
  have hsince : (sinceStop os).countP Output.isAsyncAccept = 0 := by
    rw [List.countP_eq_zero]
    intro x hx hacc
    cases x with
    | asyncAccept b =>
      obtain rfl := eq_false_of_mem_sinceStop h hx
      exact hno (List.dropWhile_subset _ hx)
    | start | onAccept | onError | onClose => cases hacc
  rw [← hos, List.countP_append, List.countP_append, hsince] at hle
  omega

/-- The accept loop ends with `Stop` exactly in the runs that initiate accepts on the open acceptor
only. In every run each accepted socket is handed to `OnAccept` once, and a completion leaves the
number of outstanding accepts as it is, but for the calls of `Start` that an override makes. -/
theorem along_acceptsOnOpen_iff (hr : machine.run es = some (k, os)) :
    (machine.Along (fun k _ e => k.AcceptsOnOpen e) es ↔
      machine.Always (fun _ os => Ends os) es) ∧
    os.filterMap Output.socket = es.filterMap Event.socket ∧
    ∀ e k' o, machine.step k e = some (k', o) → e.isCompletion = true →
      k'.listener.outstanding = k.listener.outstanding + e.starts := by
  refine ⟨?_, (accounted_run hr).2.1, fun e k' o hs hc => (accounted_step hs).2.1 hc⟩
  refine Mealy.along_iff_always (P := fun _ os => Ends os) ⟨List.not_mem_nil, Nat.le_refl _⟩ ?_ hr
  intro es k os e k' o hr hends hs
  obtain ⟨hbalance, -, hacc⟩ := accounted_run (Mealy.run_snoc.mpr ⟨k, os, o, hr, hs, rfl⟩)
  rw [ends_iff hacc (Nat.le.intro ((Nat.add_comm ..).trans hbalance)), List.mem_append, not_or,
    (accounted_step hs).2.2.2.2]
  exact (and_iff_right hends.onOpen).symm

theorem along_acceptsOnOpen_iff_stopped : machine.Always (fun _ os => Ends os)
    [.listener (.start false), .listener .runStart, .listener (.acceptDone .success 7 []),
      .listener .stop] :=
  (along_acceptsOnOpen_iff (Mealy.run_eq_some rfl)).1.mp (by decide)

/-- A server is stopped and the owner of the `io_context` restarts it. The accept that `Stop` has
cancelled completes, another one is initiated on the closed acceptor, and so on without end. -/
theorem exists_accepts_forever : ∃ es k os, machine.run es = some (k, os) ∧
    .asyncAccept false ∈ os ∧
    ∀ n, ∃ fs k' os', machine.run (es ++ fs) = some (k', os') ∧
      n ≤ (sinceStop os').countP Output.isHandled := by
  -- 125 is `operation_aborted` and 9 is `bad_descriptor`
  refine ⟨[.listener (.start false), .listener .runStart, .listener .stop, .restart,
      .listener (.acceptDone (.other 125) 0 [])], ⟨⟨false, 0, 1, 0⟩, false⟩,
    [.start, .asyncAccept true, .onClose, .onError (.other 125) "accept", .asyncAccept false],
    rfl, by decide, fun n => ?_⟩
  have hloop := Mealy.runFrom_replicate (M := machine) (s := ⟨⟨false, 0, 1, 0⟩, false⟩)
    (e := .listener (.refusedDone (.other 9) 0 [])) rfl n
  refine ⟨_, _, _, Mealy.runFrom_append.mpr ⟨_, _, _, rfl, hloop, rfl⟩, ?_⟩
  change n ≤ List.countP Output.isHandled
    ([.onClose, .onError (.other 125) "accept", .asyncAccept false] ++ (List.replicate n _).flatten)
  rw [List.countP_append, List.countP_flatten, List.map_replicate, List.sum_replicate_nat]
  exact Nat.le_add_left_of_le (Nat.le_of_eq (Nat.mul_one n).symm)

end TheGame.TcpListenerBase.Hosted
