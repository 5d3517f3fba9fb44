import TheGame.Machine.Simulation
import TheGame.Networking.WebSocket.Session

/-!
# What the peer of a `WebSocketSession` receives

`Send` appends to `write_buf_` and starts a write over the whole of it, while `OnWrite` drops the
bytes only when the write completes. The session is therefore a first-in-first-out channel of the
strings passed to `Send` exactly as long as every `Send` finds `write_buf_` empty; a `Send` in
between sends the pending bytes once more.
-/

namespace TheGame.WebSocketSession
open Mealy

variable {this : Nat} {key : Bytes} {k k' : Stream} {e : Event} {es : List Event}
  {o os : List Output}

/-- The strings passed to `Send`. -/
def sends (es : List Event) : List Bytes :=
  es.filterMap fun
    | .send data => some data
    | _ => none

/-- The messages handed to the peer. -/
def messages (os : List Output) : List Bytes :=
  os.filterMap fun
    | .message m => some m
    | .call _ => none

@[simp] theorem sends_append (es fs : List Event) : sends (es ++ fs) = sends es ++ sends fs :=
  List.filterMap_append

@[simp] theorem messages_append (o os : List Output) :
    messages (o ++ os) = messages o ++ messages os := List.filterMap_append

/-- The event is not the failure of a write. -/
def Event.NoWriteError : Event → Prop
  | .writeFailed .. => False
  | _ => True

instance : ∀ e : Event, Decidable e.NoWriteError
  | .writeFailed .. => inferInstanceAs (Decidable False)
  | .send _ | .transmit | .accepted _ | .received .. | .written _ =>
    inferInstanceAs (Decidable True)

/-- `Send` is called only when `write_buf_` is empty. -/
def SendsOnEmpty (k : Stream) (_ : List Output) : Event → Prop
  | .send _ => k.session.writeBuf = []
  | _ => True

instance : ∀ k os e, Decidable (SendsOnEmpty k os e)
  | k, _, .send _ => inferInstanceAs (Decidable (k.session.writeBuf = []))
  | _, _, .transmit | _, _, .accepted _ | _, _, .received .. | _, _, .written _
  | _, _, .writeFailed .. => inferInstanceAs (Decidable True)

/-- The view of the write which the event starts. -/
def started (k : Stream) : Event → List Bytes
  | .send data => [k.session.writeBuf ++ data]
  | _ => []

/-- Every string passed to `Send` is one message, in order and once: the messages the peer has
got, followed by those still queued, are these strings, and no byte is left behind once all
writes have completed. -/
def Faithful (es : List Event) (k : Stream) (os : List Output) : Prop :=
  messages os ++ k.queued = sends es ∧
    (k.queued = [] → k.inFlight = [] → k.session.writeBuf = [])

/-! ## One step -/

/-- A step moves messages from the queue to the peer, and queues what it starts. -/
theorem step_messages (h : k.step e = some (k', o)) (he : e.NoWriteError) :
    messages o ++ k'.queued = k.queued ++ started k e := by
  cases e with
  | send data =>
    rw [Stream.step_send] at h
    cases h
    rfl
  | transmit =>
    obtain ⟨v, q, hq, rfl, rfl⟩ := Stream.step_transmit.mp h
    simp [messages, started, hq]
  | accepted ec =>
    obtain ⟨-, ⟨-, rfl, rfl⟩ | ⟨-, rfl, rfl⟩⟩ := Stream.step_accepted.mp h <;>
      simp [messages, started]
  | received ec payload gotText =>
    obtain ⟨-, ⟨-, rfl, rfl⟩ | ⟨-, -, rfl, rfl⟩ | ⟨-, rfl, rfl⟩⟩ := Stream.step_received.mp h <;>
      simp [messages, started]
  | written i =>
    obtain ⟨v, -, rfl, rfl⟩ := Stream.step_written.mp h
    simp [messages, started]
  | writeFailed i ec => exact he.elim

theorem started_eq_sends : started k e = sends [e] ↔ SendsOnEmpty k os e := by
  cases e <;> simp [started, sends, SendsOnEmpty]

theorem length_started : (started k e).length = (sends [e]).length := by
  cases e <;> rfl

/-- Some outstanding write covers all of `write_buf_`, if there is anything in it. -/
def Covered (k : Stream) : Prop :=
  k.session.writeBuf = [] ∨
    ∃ v ∈ k.inFlight ++ k.queued, k.session.writeBuf.length ≤ v.length

theorem step_covered (h : k.step e = some (k', o)) (he : e.NoWriteError) (hk : Covered k) :
    Covered k' := by
  cases e with
  | send data =>
    rw [Stream.step_send] at h
    cases h
    exact .inr ⟨_, by simp, Nat.le_refl _⟩
  | transmit =>
    obtain ⟨v, q, hq, rfl, -⟩ := Stream.step_transmit.mp h
    simpa [Covered, hq] using hk
  | accepted ec =>
    obtain ⟨-, ⟨-, rfl, -⟩ | ⟨-, rfl, -⟩⟩ := Stream.step_accepted.mp h <;> exact hk
  | received ec payload gotText =>
    obtain ⟨-, ⟨-, -, rfl⟩ | ⟨-, -, -, rfl⟩ | ⟨-, -, rfl⟩⟩ := Stream.step_received.mp h <;>
      exact hk
  | written i =>
    obtain ⟨v, hv, -, rfl⟩ := Stream.step_written.mp h
    rcases hk with hk | ⟨w, hw, hle⟩
    · exact .inl (by simp [hk])
    -- either the covering write is the one that completes, or it is still outstanding
    by_cases hwv : w = v
    · subst w
      exact .inl (List.drop_eq_nil_of_le hle)
    refine .inr ⟨w, ?_, ?_⟩
    · rcases List.mem_append.mp hw with hw | hw
      · refine List.mem_append_left _ ?_
        obtain ⟨j, hj, rfl⟩ := List.mem_iff_getElem.mp hw
        refine List.mem_eraseIdx_iff_getElem.mpr ⟨j, hj, ?_, rfl⟩
        rintro rfl
        rw [List.getElem?_eq_getElem hj] at hv
        exact hwv (Option.some.inj hv)
      · exact List.mem_append_right _ hw
    · simp only [List.length_drop]
      omega
  | writeFailed i ec => exact he.elim

/-! ## Runs -/

/-- The machine is a channel for the strings passed to `Send`, on the steps that call `Send` with
an empty buffer. -/
def toFifo (this : Nat) (key : Bytes) :
    Simulation (fun k os e => SendsOnEmpty k os e ∧ e.NoWriteError) (machine this key)
      (fifo Bytes) where
  abs k := k.queued
  event
    | .send data => [.put data]
    | .transmit => [.get]
    | _ => []
  output
    | .message m => [m]
    | .call _ => []
  init := rfl
  step := by
    intro es s os e t o _ hC hs
    obtain ⟨hC, he⟩ := hC
    cases e with
    | send data =>
      rw [show (machine this key).step = Stream.step from rfl, Stream.step_send] at hs
      cases hs
      have hb : s.session.writeBuf = [] := hC
      simp [fifo, hb, runFrom_singleton]
    | transmit =>
      obtain ⟨v, q, hq, rfl, rfl⟩ := Stream.step_transmit.mp hs
      simp [fifo, hq, runFrom_singleton]
    | accepted ec =>
      obtain ⟨-, ⟨-, rfl, rfl⟩ | ⟨-, rfl, rfl⟩⟩ := Stream.step_accepted.mp hs <;> rfl
    | received ec payload gotText =>
      obtain ⟨-, ⟨-, rfl, rfl⟩ | ⟨-, -, rfl, rfl⟩ | ⟨-, rfl, rfl⟩⟩ :=
        Stream.step_received.mp hs <;> rfl
    | written i =>
      obtain ⟨v, -, rfl, rfl⟩ := Stream.step_written.mp hs
      rfl
    | writeFailed i ec => exact he.elim

theorem puts_toFifo (es : List Event) :
    Fifo.puts (es.flatMap (toFifo this key).event) = sends es := by
  induction es with
  | nil => rfl
  | cons e es ih =>
    rw [List.flatMap_cons, Fifo.puts_append, ih, ← List.singleton_append, sends_append]
    cases e <;> rfl

theorem flatMap_toFifo (os : List Output) : os.flatMap (toFifo this key).output = messages os := by
  induction os with
  | nil => rfl
  | cons o os ih =>
    rw [List.flatMap_cons, ih, ← List.singleton_append, messages_append]
    cases o <;> rfl

/-- A session whose `Send` always finds `write_buf_` empty is a channel. -/
theorem run_fifo (hr : (machine this key).run es = some (k, os)) (he : ∀ e ∈ es, e.NoWriteError)
    (hC : (machine this key).Along SendsOnEmpty es) :
    (fifo Bytes).run (es.flatMap (toFifo this key).event) = some (k.queued, messages os) := by
  have h := (toFifo this key).run hr (hC.and_events hr he)
  rwa [flatMap_toFifo] at h

/-- When all writes have completed, nothing is left in `write_buf_`, however the calls of `Send`
and the completions are interleaved. -/
theorem run_covered (hr : (machine this key).run es = some (k, os))
    (he : ∀ e ∈ es, e.NoWriteError) : Covered k := by
  revert he
  refine run_induction (P := fun es k _ => (∀ e ∈ es, e.NoWriteError) → Covered k)
    (fun _ => .inl rfl) ?_ hr
  intro es k os e k' o _ ih hs he
  exact step_covered hs (he e (by simp)) (ih fun e h => he e (List.mem_append_left _ h))

/-- If the peer gets what was passed to `Send`, no `Send` found anything in `write_buf_`. -/
theorem along_of_messages (hr : (machine this key).run es = some (k, os))
    (he : ∀ e ∈ es, e.NoWriteError) (h : messages os ++ k.queued = sends es) :
    (machine this key).Along SendsOnEmpty es := by
  revert he h
  refine run_induction (P := fun es k os => (∀ e ∈ es, e.NoWriteError) →
    messages os ++ k.queued = sends es → (machine this key).Along SendsOnEmpty es)
    (fun _ _ => along_nil) ?_ hr
  intro es k os e k' o hr ih hs he h
  rw [messages_append, List.append_assoc, step_messages hs (he e (by simp)),
    ← List.append_assoc, sends_append] at h
  obtain ⟨h1, h2⟩ := List.append_inj' h length_started
  exact (along_snoc hr).mpr ⟨ih (fun e h => he e (List.mem_append_left _ h)) h1,
    started_eq_sends.mp h2⟩

/-- For every interleaving of calls of `Send` and successful completions, the peer gets exactly
the strings passed to `Send` if and only if every call found `write_buf_` empty. -/
theorem faithful_iff (hr : (machine this key).run es = some (k, os))
    (he : ∀ e ∈ es, e.NoWriteError) :
    Faithful es k os ↔ (machine this key).Along SendsOnEmpty es := by
  constructor
  · intro h
    exact along_of_messages hr he h.1
  · intro hC
    have h := fifo_run (run_fifo hr he hC)
    rw [puts_toFifo] at h
    refine ⟨h, fun hq hf => ?_⟩
    rcases run_covered hr he with hb | ⟨v, hv, -⟩
    · exact hb
    · simp [hq, hf] at hv

/-- Two calls of `Send`, the second after the first write has completed. -/
theorem faithful_iff_ab :
    Faithful [.accepted .success, .send (bytes "a"), .transmit, .written 0, .send (bytes "b"),
      .transmit, .written 0]
      { session := { this := 0, key := [], ctx := { wsSession := some 0 } }, reads := 1 }
      [.call (.onConnect { wsSession := some 0 }), .message (bytes "a"), .message (bytes "b")] :=
  (faithful_iff (show (machine 0 []).run _ = some (_, _) by decide) (by decide)).mpr (by decide)

/-- Two calls of `Send` before the first write completes: the peer gets "a" and "ab". -/
theorem not_faithful_overlapping :
    ∃ es k os, (machine 0 []).run es = some (k, os) ∧ (∀ e ∈ es, e.NoWriteError) ∧
      k.queued = [] ∧ k.inFlight = [] ∧ sends es = [bytes "a", bytes "b"] ∧
      messages os = [bytes "a", bytes "ab"] ∧ ¬Faithful es k os := by
  refine ⟨[.accepted .success, .send (bytes "a"), .send (bytes "b"), .transmit, .transmit,
      .written 0, .written 0], _, _, rfl, ?_, rfl, rfl, rfl, rfl, ?_⟩
  · decide
  · intro h
    exact absurd h.1 (by decide)

end TheGame.WebSocketSession
