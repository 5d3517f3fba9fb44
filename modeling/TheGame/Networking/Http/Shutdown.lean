import TheGame.Networking.Http.Connection

/-!
# The session's own shutdown

`Close` is called in the completion of a read and in the completion of a write, and neither of them
looks at the writes that are outstanding; nor does `OnRead` when it releases the socket to a
`WebSocketSession`, which cancels them, and it does not look whether the send side is already shut
down when it answers a request. A response is cut off by the session in exactly these cases.
-/

namespace TheGame.Connection
open Mealy
open HttpSession (Upgrades)

variable {H : Type*} {env : HttpEnv H} {k k' : Connection} {e : Event} {es : List Event}
  {o os : List (Output H)}

/-- `Close` is called, or the socket is released. -/
def Output.endsSending : Output H → Bool
  | .shutdown | .webSocket .. => true
  | _ => false

/-- If `Close` is called or the socket is released, it is when no write is outstanding. -/
def EndsIdle (env : HttpEnv H) (k : Connection) (_ : List (Output H)) (e : Event) : Prop :=
  ∀ k' o, k.step env e = some (k', o) → (∃ a ∈ o, a.endsSending) → k'.writes = []

/-- No write is outstanding on a stream whose send side is shut down, or whose socket is released:
a write that fails does so because of the transport. -/
def NoCutOff (k : Connection) (_ : List (Output H)) : Prop :=
  k.shutdown ∨ k.released → k.writes = []

/-- Neither the end of the stream nor an upgrade is read while a write is outstanding, no completion
closes the session while another write is outstanding, and no request is read after the shutdown
that would be answered. -/
def ClosesIdle (env : HttpEnv H) (k : Connection) (_ : List (Output H)) : Event → Prop
  | .readDone .endOfStream _ => k.writes = []
  | .readDone .success request =>
    if Upgrades env request then k.writes = [] else k.shutdown = false
  | .writeDone _ .success => k.session.keepAlive ∨ k.writes.length ≤ 1
  | _ => True

instance : ∀ k os e, Decidable (ClosesIdle env k os e)
  | k, _, .readDone .endOfStream _ => inferInstanceAs (Decidable (k.writes = []))
  | k, _, .readDone .success request =>
    inferInstanceAs (Decidable (if Upgrades env request then k.writes = [] else k.shutdown = false))
  | k, _, .writeDone _ .success =>
    inferInstanceAs (Decidable (k.session.keepAlive ∨ k.writes.length ≤ 1))
  | _, _, .readDone .closed _ | _, _, .readDone (.other _) _ | _, _, .transmit ..
  | _, _, .writeDone _ .endOfStream | _, _, .writeDone _ .closed
  | _, _, .writeDone _ (.other _) => inferInstanceAs (Decidable True)

theorem closesIdle_readFailed {ec : ErrorCode} {request : Request} (h : ec ≠ .success)
    (h' : ec ≠ .endOfStream) : ClosesIdle env k os (.readDone ec request) := by
  cases ec <;> first | exact absurd rfl h | exact absurd rfl h' | trivial

theorem closesIdle_writeFailed {i : Nat} {ec : ErrorCode} (h : ec ≠ .success) :
    ClosesIdle env k os (.writeDone i ec) := by
  cases ec <;> first | exact absurd rfl h | trivial

namespace NoCutOff

/-- While a write is outstanding, the session can send. -/
theorem of_write (H : NoCutOff k os) {i : Nat} {w : PendingWrite} (hw : k.writes[i]? = some w) :
    k.shutdown = false ∧ k.released = false := by
  rw [← Bool.not_eq_true, ← Bool.not_eq_true, ← not_or]
  intro h
  rw [H h] at hw
  cases hw

/-- An event of a write that ends nothing. -/
theorem of_write_of_eq (H : NoCutOff k os) {i : Nat} {w : PendingWrite}
    (hw : k.writes[i]? = some w) (hsh : k'.shutdown = k.shutdown)
    (hr : k'.released = k.released) : NoCutOff k' (os ++ o) := by
  rintro (h | h)
  · rw [hsh, (H.of_write hw).1] at h
    cases h
  · rw [hr, (H.of_write hw).2] at h
    cases h

theorem step_iff (H : NoCutOff k os) (HI : Inv k os) (h : k.step env e = some (k', o)) :
    ClosesIdle env k os e ↔ NoCutOff k' (os ++ o) := by
  cases change_of_step h with
  | endOfStream hpos => simp [ClosesIdle, NoCutOff, HI.not_released hpos]
  | readFailed hpos hne hne' => exact iff_of_true (closesIdle_readFailed hne hne') H
  | webSocket hpos hup => simp [ClosesIdle, NoCutOff, hup]
  | respond hpos hup hcalls => simp [ClosesIdle, NoCutOff, hup, HI.not_released hpos]
  | @fault request hpos hp hr =>
    have hup : ¬Upgrades env request := by
      intro hup
      rw [HttpSession.parses_of_upgrades hup] at hp
      cases hp
    refine iff_of_true ?_ H
    rw [ClosesIdle, if_neg hup]
    exact HI.not_shutdown hpos hr
  | transmit hw => exact iff_of_true trivial (H.of_write_of_eq hw rfl rfl)
  | written hw hrem hka => exact iff_of_true (.inl hka) (H.of_write_of_eq hw rfl rfl)
  | @closing i w hw hrem hka =>
    obtain ⟨hsh, hr⟩ := H.of_write hw
    obtain ⟨hi, -⟩ := List.getElem?_eq_some_iff.mp hw
    have hnil : k.writes.eraseIdx i = [] ↔ k.writes.length ≤ 1 := by
      rw [← List.length_eq_zero_iff, List.length_eraseIdx_of_lt hi]
      omega
    simp [ClosesIdle, NoCutOff, hka, hsh, hr, hnil]
  | writeFailed hw hec =>
    exact iff_of_true (closesIdle_writeFailed hec) (H.of_write_of_eq hw rfl rfl)

/-- What ends the sending leaves the stream shut down or released. -/
theorem endsIdle (H : NoCutOff k os) (HI : Inv k os) (h : k.step env e = some (k', o))
    (H' : NoCutOff k' (os ++ o)) : EndsIdle env k os e := by
  intro k'' o' h' hends
  rw [h] at h'
  cases h'
  refine H' ?_
  cases change_of_step h with
  | endOfStream hpos => simp [HI.not_released hpos]
  | webSocket => exact .inr rfl
  | closing hw => simp [(H.of_write hw).2]
  | respond hpos hup hcalls => cases hcalls <;> simp [Output.endsSending] at hends
  | readFailed | fault | transmit | written | writeFailed => simp [Output.endsSending] at hends

end NoCutOff

/-- For every run, each call of `Close` and each release of the socket finds no write outstanding,
and none is outstanding afterwards, if and only if the session ends its sending only when it is idle
and answers nothing afterwards. -/
theorem along_closesIdle_iff (hr : (machine env).run es = some (k, os)) :
    (machine env).Along (ClosesIdle env) es ↔
      (machine env).Along (EndsIdle env) es ∧ (machine env).Always NoCutOff es := by
  have hiff : (machine env).Along (ClosesIdle env) es ↔ (machine env).Always NoCutOff es :=
    along_iff_always (fun _ => rfl) (fun _ _ _ _ _ _ hr H hs => H.step_iff (Inv.of_run hr) hs) hr
  rw [hiff]
  refine ⟨fun h => ⟨h.along ?_ hr, h⟩, And.right⟩
  exact fun _ _ _ _ _ _ hr H hs H' => H.endsIdle (Inv.of_run hr) hs H'

/-- The client half-closes after it has got the response. -/
theorem along_closesIdle_iff_eof :
    (machine localEnv).Along (EndsIdle localEnv)
      [.readDone .success (get (bytes "/") true), .transmit 0 3, .writeDone 0 .success,
        .readDone .endOfStream (get [] true)] ∧
    (machine localEnv).Always NoCutOff
      [.readDone .success (get (bytes "/") true), .transmit 0 3, .writeDone 0 .success,
        .readDone .endOfStream (get [] true)] :=
  (along_closesIdle_iff (run_eq_some (by decide +kernel))).mp (by decide +kernel)

/-- The client half-closes before it has got the response: the rest of it is never sent. -/
theorem exists_cutOff : ∃ es k os, (machine localEnv).run es = some (k, os) ∧
    k.shutdown ∧ k.writes.map (·.remaining) = [bytes "00"] ∧ wire os = bytes "2" :=
  ⟨[.readDone .success (get (bytes "/") true), .transmit 0 1,
    .readDone .endOfStream (get [] true)], exists_run _ (by decide +kernel)⟩

end TheGame.Connection
