import TheGame.Apps.Sessions

/-!
# The echo server

The `TcpListener` of `simple_server` answers every message with the message and a suffix. A client
gets back what it has sent, once and in order, exactly as long as each of its messages is read while
the session has nothing left to write.
-/

namespace TheGame.World
open WebSocketSession (SendsOnEmpty messages sends)
open Mealy

variable {w w' : World} {a b : Nat} {k : WebSocketSession.Stream} {e : Event} {es : List Event}
  {o os : List Output} {l : List (Event × List Output)}

/-- What is passed to `Send` of the session at address `a`: the answers to the messages it has
received, and what anybody else passes. -/
def answers (a : Nat) (es : List Event) : List Bytes :=
  es.filterMap fun
    | .stream b (.received .success payload _) => if b = a then some (payload ++ suffix) else none
    | .stream b (.send data) => if b = a then some data else none
    | _ => none

/-- Nothing is left to write at the session at address `a` when it receives a message, or when
anybody else calls `Send`. -/
def AnswersOnEmpty (a : Nat) (w : World) (_ : List Output) : Event → Prop
  | .stream b (.received .success ..) | .stream b (.send _) =>
    b = a → ∀ k ∈ w.sessions.lookup a, k.session.writeBuf = []
  | _ => True

instance : ∀ w os e, Decidable (AnswersOnEmpty a w os e)
  | w, _, .stream b (.received .success ..) | w, _, .stream b (.send _) =>
    inferInstanceAs (Decidable (b = a → ∀ k ∈ w.sessions.lookup a, k.session.writeBuf = []))
  | _, _, .connect _ | _, _, .setState .. | _, _, .timer _ | _, _, .stream _ .transmit
  | _, _, .stream _ (.accepted _) | _, _, .stream _ (.received .endOfStream ..)
  | _, _, .stream _ (.received .closed ..) | _, _, .stream _ (.received (.other _) ..)
  | _, _, .stream _ (.written _) | _, _, .stream _ (.writeFailed ..) =>
    inferInstanceAs (Decidable True)

/-- The event is not the failure of a write of the session at address `a`. -/
def SparesWrites (a : Nat) : Event → Prop
  | .stream b (.writeFailed ..) => b ≠ a
  | _ => True

@[simp] theorem answers_append (es fs : List Event) :
    answers a (es ++ fs) = answers a es ++ answers a fs := List.filterMap_append

/-! ## The server has no timers -/

theorem timers_simpleServer (hr : (machine .simpleServer).run es = some (w, os)) :
    w.timers = [] := by
  refine run_induction (P := fun _ w _ => w.timers = []) rfl ?_ hr
  intro es w os e w' o _ ih hs
  cases e with
  | connect key =>
    cases hs
    exact ih
  | stream a e => exact (streamStep_frame hs).2.1.trans ih
  | setState => cases hs
  | timer i =>
    change w.timerStep i = _ at hs
    simp [timerStep, ih] at hs

/-- What a step of the server has to do with the session at address `a`. -/
theorem ownEvents_simpleServer (hr : (machine .simpleServer).run es = some (w, os))
    (hs : (machine .simpleServer).step w e = some (w', o)) :
    (∃ b ev, e = .stream b ev) ∨ ownEvents a (e, o) = [] := by
  cases e with
  | connect key =>
    cases hs
    exact .inr rfl
  | stream b ev => exact .inl ⟨b, ev, rfl⟩
  | setState => cases hs
  | timer i =>
    change w.timerStep i = _ at hs
    simp [timerStep, timers_simpleServer hr] at hs

/-! ## What is passed to `Send` -/

theorem sends_echo (e : WebSocketSession.Event) :
    sends (e :: echo e) = answers a [.stream a e] := by
  cases e with
  | received ec payload gotText => cases ec <;> simp [sends, echo, answers]
  | _ => simp [sends, echo, answers]

theorem sends_ownEvents (hr : (machine .simpleServer).logged.run es = some (w, l)) :
    sends (l.flatMap (ownEvents a)) = answers a es := by
  refine logged_induction (P := fun es _ l => sends (l.flatMap (ownEvents a)) = answers a es)
    rfl ?_ hr
  intro es w l e w' o hr ih hs
  rw [List.flatMap_append, WebSocketSession.sends_append, ih, answers_append,
    List.flatMap_singleton]
  congr 1
  cases e with
  | stream b ev =>
    by_cases hb : b = a
    · subst b
      rw [ownEvents, if_pos rfl]
      exact sends_echo ev
    · rw [ownEvents, if_neg hb]
      cases ev with
      | received ec payload gotText => cases ec <;> simp [sends, answers, hb]
      | _ => simp [sends, answers, hb]
  | connect | setState | timer =>
    rcases ownEvents_simpleServer (a := a) (run_of_logged hr) hs with ⟨_, _, h⟩ | h
    · cases h
    · rw [h]
      rfl

theorem noWriteError_ownEvents {x : Event × List Output} (hx : SparesWrites a x.1) :
    ∀ e ∈ ownEvents a x, e.NoWriteError := by
  intro e he
  obtain ⟨f, o⟩ := x
  cases f with
  | stream b ev =>
    rw [ownEvents] at he
    split at he <;> rename_i hb
    · subst b
      rcases List.mem_cons.mp he with rfl | he
      · cases e with
        | writeFailed => exact absurd rfl hx
        | _ => trivial
      · cases ev with
        | received ec payload gotText =>
          cases ec with
          | success =>
            rw [List.mem_singleton.mp he]
            trivial
          | _ => cases he
        | _ => cases he
    · cases he
  | connect | setState | timer =>
    obtain ⟨data, -, rfl⟩ := List.mem_map.mp he
    trivial

/-! ## The buffer -/

/-- A session answers with an empty buffer if it has one when it receives the message. -/
theorem alongFrom_echo {key : Bytes} {x y : WebSocketSession.Stream}
    {xs ys : List WebSocketSession.Output} {ev : WebSocketSession.Event}
    (hx : w.sessions.lookup a = some x) (hs : x.step ev = some (y, ys)) :
    (WebSocketSession.machine a key).AlongFrom SendsOnEmpty x xs (ev :: echo ev) ↔
      AnswersOnEmpty a w os (.stream a ev) := by
  have hs' : (WebSocketSession.machine a key).step x ev = some (y, ys) := hs
  have hl : (∀ k ∈ w.sessions.lookup a, k.session.writeBuf = []) ↔ x.session.writeBuf = [] := by
    rw [hx]
    simp
  rw [alongFrom_cons hs']
  cases ev with
  | send data =>
    simp only [AnswersOnEmpty, forall_const, hl]
    exact and_iff_left trivial
  | received ec payload gotText =>
    cases ec with
    | success =>
      simp only [AnswersOnEmpty, forall_const, hl]
      obtain ⟨-, ⟨hc, -⟩ | ⟨-, hc, -⟩ | ⟨-, -, rfl⟩⟩ := WebSocketSession.Stream.step_received.mp hs
      · cases hc
      · exact absurd rfl hc
      · exact (and_iff_right trivial).trans (and_iff_left trivial)
    | _ => exact iff_of_true ⟨trivial, trivial⟩ trivial
  | _ => exact iff_of_true ⟨trivial, trivial⟩ trivial

theorem answersOnEmpty_of_ne {ev : WebSocketSession.Event} (h : b ≠ a) :
    AnswersOnEmpty a w os (.stream b ev) := by
  cases ev with
  | send => exact fun hb => absurd hb h
  | received ec => cases ec <;> first | exact fun hb => absurd hb h | trivial
  | _ => trivial

theorem answersOnEmpty_of_nil (h : ownEvents a (e, o) = []) : AnswersOnEmpty a w os e := by
  cases e with
  | stream b ev =>
    refine answersOnEmpty_of_ne ?_
    rintro rfl
    rw [ownEvents, if_pos rfl] at h
    cases h
  | _ => trivial

theorem alongFrom_ownEvents {x y : WebSocketSession.Stream} {xs : List WebSocketSession.Output}
    (hr : (machine .simpleServer).run es = some (w, os))
    (hs : (machine .simpleServer).step w e = some (w', o)) (hx : w.sessions.lookup a = some x)
    (hy : w'.sessions.lookup a = some y) (key : Bytes) :
    (WebSocketSession.machine a key).AlongFrom SendsOnEmpty x xs (ownEvents a (e, o)) ↔
      AnswersOnEmpty a w os e := by
  rcases ownEvents_simpleServer (a := a) hr hs with ⟨b, ev, rfl⟩ | hnil
  · by_cases hb : b = a
    · subst b
      obtain ⟨k, k₁, hk, hstep, -⟩ := stream_self (Inv.of_run hr) hs hy
      rw [hx] at hk
      cases hk
      rw [ownEvents, if_pos rfl]
      exact alongFrom_echo hx hstep
    · rw [ownEvents, if_neg hb]
      exact iff_of_true trivial (answersOnEmpty_of_ne hb)
  · rw [hnil]
    exact iff_of_true trivial (answersOnEmpty_of_nil hnil)

/-- In every run of the echo server in which no write of a session fails, what the peer of the
session has got, followed by what is queued for it, is the answers to its messages and whatever
else has been passed to `Send`, in this order, if and only if nothing was left to write whenever a
message was received. -/
theorem messages_iff_answersOnEmpty (hr : (machine .simpleServer).run es = some (w, os))
    (hk : w.sessions.lookup a = some k) (hes : ∀ e ∈ es, SparesWrites a e) :
    messages (own a os) ++ k.queued = answers a es ↔
      (machine .simpleServer).Along (AnswersOnEmpty a) es := by
  obtain ⟨l, hl, rfl⟩ := exists_log hr
  have hrun := run_session hl hk
  have he : ∀ e ∈ l.flatMap (ownEvents a), e.NoWriteError := by
    intro e he
    obtain ⟨x, hx, hex⟩ := List.mem_flatMap.mp he
    refine noWriteError_ownEvents (hes x.1 ?_) e hex
    rw [← (runFrom_of_logged hl).2]
    exact List.mem_map_of_mem hx
  have halong : (WebSocketSession.machine a k.session.key).Along SendsOnEmpty
      (l.flatMap (ownEvents a)) ↔ (machine .simpleServer).Along (AnswersOnEmpty a) es := by
    refine (sessionPart .simpleServer a).along ?_ ?_ hl (session_eq_some.mpr ⟨hk, rfl⟩)
    · exact answersOnEmpty_of_nil
    · intro es w l e w' o x y hr hs hx hy
      exact alongFrom_ownEvents (run_of_logged hr) hs (session_eq_some.mp hx).1
        (session_eq_some.mp hy).1 _
  rw [← halong, ← sends_ownEvents hl]
  constructor
  · exact WebSocketSession.along_of_messages hrun he
  · intro hC
    have h := fifo_run (WebSocketSession.run_fifo hrun he hC)
    rwa [WebSocketSession.puts_toFifo] at h

/-- A client waits for the answer to its first message before it sends the second. -/
theorem messages_iff_answersOnEmpty_waiting : ∃ w os k, (machine .simpleServer).run
    [.connect (bytes "k"), .stream 0 (.accepted .success),
      .stream 0 (.received .success (bytes "a") true), .stream 0 .transmit, .stream 0 (.written 0),
      .stream 0 (.received .success (bytes "b") true), .stream 0 .transmit] = some (w, os) ∧
    w.sessions.lookup 0 = some k ∧
    messages (own 0 os) ++ k.queued =
      [bytes "a UwU Kawaiiiiiiii!", bytes "b UwU Kawaiiiiiiii!"] := by
  obtain ⟨w, os, hr, hk⟩ := exists_run (M := machine .simpleServer)
    [.connect (bytes "k"), .stream 0 (.accepted .success),
      .stream 0 (.received .success (bytes "a") true), .stream 0 .transmit, .stream 0 (.written 0),
      .stream 0 (.received .success (bytes "b") true), .stream 0 .transmit]
    (P := fun w _ => (w.sessions.lookup 0).isSome) (by decide +kernel)
  obtain ⟨k, hk⟩ := Option.isSome_iff_exists.mp hk
  exact ⟨w, os, k, hr, hk,
    (messages_iff_answersOnEmpty hr hk (by simp [SparesWrites])).mpr (by decide +kernel)⟩

end TheGame.World
