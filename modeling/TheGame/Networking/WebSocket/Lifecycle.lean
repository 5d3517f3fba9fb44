import TheGame.Networking.WebSocket.Session

/-!
# The life of one `WebSocketSession`

A session has at most one accept or read outstanding. It has called `on_connect` and not yet
`on_disconnect` as long as a read is outstanding, and from `on_connect` on its context holds the
key of the request and the pointer to the session itself.
-/

namespace TheGame.WebSocketSession
open Mealy

variable {this : Nat} {key : Bytes} {k k' : Stream} {e : Event} {es : List Event}
  {o os : List Output}

@[simp] def Output.isConnect : Output → Bool
  | .call (.onConnect _) => true
  | _ => false

@[simp] def Output.isDisconnect : Output → Bool
  | .call (.onDisconnect _) => true
  | _ => false

/-- `on_connect` has been called. -/
def Connected (os : List Output) : Prop := os.any Output.isConnect

/-- `on_disconnect` has been called. -/
def Disconnected (os : List Output) : Prop := os.any Output.isDisconnect

instance : Decidable (Connected os) := inferInstanceAs (Decidable (_ = true))

instance : Decidable (Disconnected os) := inferInstanceAs (Decidable (_ = true))

@[simp] theorem not_connected_nil : ¬Connected [] := by simp [Connected]

@[simp] theorem not_disconnected_nil : ¬Disconnected [] := by simp [Disconnected]

@[simp] theorem connected_cons {x : Output} :
    Connected (x :: os) ↔ x.isConnect = true ∨ Connected os := by
  simp [Connected]

@[simp] theorem disconnected_cons {x : Output} :
    Disconnected (x :: os) ↔ x.isDisconnect = true ∨ Disconnected os := by
  simp [Disconnected]

@[simp] theorem connected_append : Connected (os ++ o) ↔ Connected os ∨ Connected o := by
  simp [Connected]

@[simp] theorem disconnected_append :
    Disconnected (os ++ o) ↔ Disconnected os ∨ Disconnected o := by
  simp [Disconnected]

/-- The context of a session that has been accepted. -/
def acceptedCtx (this : Nat) (key : Bytes) : WSContext := { uuid := key, wsSession := some this }

/-- What holds of a session and of the outputs of the run that led to it. -/
structure Lifecycle (this : Nat) (key : Bytes) (k : Stream) (os : List Output) : Prop where
  this_eq : k.session.this = this
  key_eq : k.session.key = key
  accepting : 0 < k.accepts → k.accepts = 1 ∧ k.reads = 0 ∧ ¬Connected os ∧ ¬Disconnected os
  reading : 0 < k.reads → k.accepts = 0 ∧ k.reads = 1 ∧ Connected os ∧ ¬Disconnected os
  ctx_eq : Connected os → k.session.ctx = acceptedCtx this key
  ctx_none : ¬Connected os → k.session.ctx = {}

theorem Lifecycle.start : Lifecycle this key (start this key) [] :=
  ⟨rfl, rfl, fun _ => ⟨rfl, rfl, by simp, by simp⟩, fun h => absurd h (Nat.lt_irrefl 0),
    fun h => absurd h (by simp), fun _ => rfl⟩

theorem Lifecycle.step (H : Lifecycle this key k os) (h : k.step e = some (k', o)) :
    Lifecycle this key k' (os ++ o) := by
  obtain ⟨h1, h2, ha, hr, hc, hn⟩ := H
  -- all but three kinds of event leave the accepts, the reads, the context and the calls alone
  have same (hs : k'.session.this = k.session.this ∧ k'.session.key = k.session.key ∧
      k'.session.ctx = k.session.ctx ∧ k'.accepts = k.accepts ∧ k'.reads = k.reads)
      (h3 : ¬Connected o) (h4 : ¬Disconnected o) : Lifecycle this key k' (os ++ o) := by
    obtain ⟨e1, e2, e3, e4, e5⟩ := hs
    refine ⟨e1.trans h1, e2.trans h2, ?_, ?_, ?_, ?_⟩ <;>
      simpa only [connected_append, disconnected_append, h3, h4, or_false, e3, e4, e5]
  cases e with
  | send data =>
    rw [Stream.step_send] at h
    cases h
    exact same ⟨rfl, rfl, rfl, rfl, rfl⟩ (by simp) (by simp)
  | transmit =>
    obtain ⟨v, q, -, rfl, rfl⟩ := Stream.step_transmit.mp h
    exact same ⟨rfl, rfl, rfl, rfl, rfl⟩ (by simp) (by simp)
  | accepted ec =>
    obtain ⟨hpos, ⟨-, rfl, rfl⟩ | ⟨-, rfl, rfl⟩⟩ := Stream.step_accepted.mp h <;>
      obtain ⟨ha1, hr0, hc0, hd0⟩ := ha hpos
    · refine ⟨h1, h2, ?_, ?_, ?_, ?_⟩ <;>
        simp_all
    · refine ⟨h1, h2, ?_, ?_, ?_, ?_⟩ <;>
        simp_all [acceptedCtx]
  | received ec payload gotText =>
    obtain ⟨hpos, ⟨-, rfl, rfl⟩ | ⟨-, -, rfl, rfl⟩ | ⟨-, rfl, rfl⟩⟩ :=
      Stream.step_received.mp h <;> obtain ⟨ha0, hr1, hc1, hd0⟩ := hr hpos
    · refine ⟨h1, h2, ?_, ?_, ?_, ?_⟩ <;> simp_all
    · refine ⟨h1, h2, ?_, ?_, ?_, ?_⟩ <;> simp_all
    · exact same ⟨rfl, rfl, rfl, rfl, rfl⟩ (by simp) (by simp)
  | written i =>
    obtain ⟨v, -, rfl, rfl⟩ := Stream.step_written.mp h
    exact same ⟨rfl, rfl, rfl, rfl, rfl⟩ (by simp) (by simp)
  | writeFailed i ec =>
    obtain ⟨-, -, rfl, rfl⟩ := Stream.step_writeFailed.mp h
    refine same ?_ (by simp) (by simp)
    split <;> exact ⟨rfl, rfl, rfl, rfl, rfl⟩

theorem Lifecycle.of_run (h : (machine this key).run es = some (k, os)) :
    Lifecycle this key k os :=
  run_induction (P := fun _ k os => Lifecycle this key k os) .start
    (fun _ _ _ _ _ _ _ H hs => H.step hs) h

end TheGame.WebSocketSession
