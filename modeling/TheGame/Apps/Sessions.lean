import TheGame.Apps.Ownership
import TheGame.Machine.Log
import TheGame.Networking.WebSocket.Delivery
import TheGame.Networking.WebSocket.Protocol

/-!
# The sessions as parts of the world

What a `WebSocketSession` of a listener goes through can be read off the log of the listener: the
events at its own address, each message it receives followed by the `Send` of the handler, and the
calls of `Send` on behalf of `set_state`. In particular no handler ever sends to another session
than its own.
-/

namespace TheGame.World
open WebSocketSession (Connected Disconnected)
open Mealy

variable {app : App} {w w' : World} {a b c : Nat} {data payload : Bytes} {gotText : Bool}
  {k k' : WebSocketSession.Stream} {e : Event} {es : List Event} {o os : List Output}
  {params : Option Params} {order : List (Bytes × Nat)} {l : List (Event × List Output)}

/-- What the handler appends to a message that it sends back. -/
def suffix : Bytes := bytes " UwU Kawaiiiiiiii!"

/-- What `on_receive` makes a session do after it has received a message. -/
def echo : WebSocketSession.Event → List WebSocketSession.Event
  | .received .success payload _ => [.send (payload ++ suffix)]
  | _ => []

/-- What the session at address `a` goes through in one step of the world. -/
def ownEvents (a : Nat) : Event × List Output → List WebSocketSession.Event
  | (.stream b e, _) => if b = a then e :: echo e else []
  | (_, o) => (sentTo a o).map .send

/-! ## Steps and the other sessions -/

@[simp] theorem unregister_next {ctx : WSContext} : (w.unregister ctx).next = w.next := by
  unfold unregister; split <;> rfl

/-- The events of a session leave the other sessions alone, and start none. -/
theorem StreamChange.others {e : WebSocketSession.Event} {o : List WebSocketSession.Output}
    (h : StreamChange w a k k' e o w') :
    w'.next = w.next ∧ ∀ b, b ≠ a → w'.sessions.lookup b = w.sessions.lookup b := by
  have hne {k₁ : WebSocketSession.Stream} (b : Nat) (hb : b ≠ a) :
      (w.sessions.insert a k₁).lookup b = w.sessions.lookup b := AList.lookup_insert_ne hb
  cases h with
  | connect => exact ⟨rfl, hne⟩
  | disconnect =>
    refine ⟨by rw [reap_next, unregister_next], fun b hb => ?_⟩
    rw [lookup_reap_ne hb, unregister_sessions, hne b hb]
  | abort =>
    refine ⟨by rw [reap_next], fun b hb => ?_⟩
    rw [lookup_reap_ne hb, hne b hb]
  | echo =>
    refine ⟨by rw [reap_next, send_next], fun b hb => ?_⟩
    rw [lookup_reap_ne hb, lookup_send_ne hb, hne b hb]
  | quiet =>
    refine ⟨by rw [reap_next], fun b hb => ?_⟩
    rw [lookup_reap_ne hb, hne b hb]

/-- A message is sent back, with the suffix, on the session that has received it. -/
theorem deliver_received {o : List WebSocketSession.Output} (H : Inv w os)
    (hk : w.sessions.lookup a = some k)
    (hs : k.step (.received .success payload gotText) = some (k', o)) :
    deliver app.handler a o { w with sessions := w.sessions.insert a k' } =
      send { w with sessions := w.sessions.insert a k' } a (payload ++ suffix) := by
  obtain ⟨key, es, hr⟩ := H.session a k hk
  have L := WebSocketSession.Lifecycle.of_run hr
  obtain ⟨hpos, ⟨hc, -⟩ | ⟨-, hc, -⟩ | ⟨-, rfl, -⟩⟩ := WebSocketSession.Stream.step_received.mp hs
  · cases hc
  · exact absurd rfl hc
  have hbuf : k.session.buffer = [] := (WebSocketSession.Phase.of_run hr).buffer_eq hpos
  have hctx := L.ctx_eq (L.reading hpos).2.2.1
  have hl : lock { w with sessions := w.sessions.insert a k' } k.session.ctx = some a := by
    simp [lock, hctx, WebSocketSession.acceptedCtx]
  rw [handler_eq]
  simp only [deliver, WSHandler.invoke, ctxsHandler, hl, hbuf, List.nil_append]
  rfl

/-- The session at which something happens makes the step, and the one the handler asks for. -/
theorem stream_self {e : WebSocketSession.Event} (H : Inv w os)
    (h : w.streamStep app.handler a e = some (w', o)) (hk' : w'.sessions.lookup a = some k') :
    ∃ k k₁, w.sessions.lookup a = some k ∧ k.step e = some (k₁, own a o) ∧
      ∀ key, (WebSocketSession.machine a key).runFrom k₁ (echo e) = some (k', []) := by
  obtain ⟨k, k₁, o', hk, hs, rfl, hch⟩ := H.streamChange h
  refine ⟨k, k₁, hk, by rw [own_stream_self, hs], ?_⟩
  have hins : (w.sessions.insert a k₁).lookup a = some k₁ := AList.lookup_insert _
  cases hch with
  | connect =>
    cases hins.symm.trans hk'
    exact fun _ => rfl
  | disconnect =>
    have := lookup_reap hk'
    rw [unregister_sessions, hins] at this
    cases this
    exact fun _ => rfl
  | abort hec =>
    have := lookup_reap hk'
    rw [hins] at this
    cases this
    cases ‹ErrorCode› with
    | success => exact absurd rfl hec
    | _ => exact fun _ => rfl
  | quiet hacc hrec =>
    have := lookup_reap hk'
    rw [hins] at this
    cases this
    cases e with
    | received ec payload gotText => exact absurd rfl (hrec ec payload gotText)
    | _ => exact fun _ => rfl
  | echo =>
    obtain ⟨k₂, k₃, o₂, hk₂, hs₂, -, hw⟩ := streamStep_eq.mp h
    rw [hk] at hk₂
    cases hk₂
    rw [hs] at hs₂
    cases hs₂
    rw [deliver_received H hk hs] at hw
    rw [hw] at hk'
    have := lookup_reap hk'
    rw [lookup_send_self, hins] at this
    cases this
    exact fun _ => rfl

/-! ## What `set_state` and the timers send -/

/-- A session that is sent something makes the steps of `Send`. -/
theorem send_self (h : (w.send b data).sessions.lookup a = some k') :
    ∃ k, w.sessions.lookup a = some k ∧ ∀ key,
      (WebSocketSession.machine a key).runFrom k ((sentTo a [.broadcast b data]).map .send) =
        some (k', []) := by
  by_cases hab : a = b
  · subst b
    rw [lookup_send_self, Option.map_eq_some_iff] at h
    obtain ⟨k, hk, rfl⟩ := h
    refine ⟨k, hk, fun key => ?_⟩
    simp only [sentTo, List.filterMap_cons, if_true, List.filterMap_nil, List.map_cons,
      List.map_nil, runFrom_singleton]
    rfl
  · rw [lookup_send_ne hab] at h
    refine ⟨k', h, fun key => ?_⟩
    simp only [sentTo, List.filterMap_cons, if_neg (Ne.symm hab), List.filterMap_nil, List.map_nil]
    rfl

theorem broadcast_self (h : broadcast params order w = some (w', o))
    (hk' : w'.sessions.lookup a = some k') :
    ∃ k, w.sessions.lookup a = some k ∧ ∀ key,
      (WebSocketSession.machine a key).runFrom k ((sentTo a o).map .send) = some (k', []) := by
  induction order generalizing w o with
  | nil =>
    cases h
    exact ⟨k', hk', fun _ => rfl⟩
  | cons entry rest ih =>
    obtain ⟨_, v, u, o', -, rfl, hrest, hv⟩ := broadcast_cons h
    obtain ⟨k₁, hk₁, hrun⟩ := ih hrest
    obtain ⟨-, rfl, rfl⟩ | ⟨d, -, ⟨n, rfl, rfl⟩ | ⟨rfl, rfl⟩⟩ := hv
    · exact ⟨k₁, hk₁, hrun⟩
    · exact ⟨k₁, hk₁, hrun⟩
    · obtain ⟨k, hk, hsend⟩ := send_self hk₁
      refine ⟨k, hk, fun key => ?_⟩
      rw [sentTo_append, List.map_append, runFrom_append]
      exact ⟨k₁, [], [], hsend key, hrun key, rfl⟩

/-- The loop of `set_state` sends to sessions that have not been destroyed. -/
theorem broadcast_targets (h : broadcast params order w = some (w', o))
    (hc : .broadcast c data ∈ o) : (w.sessions.lookup c).isSome := by
  induction order generalizing w o with
  | nil =>
    cases h
    cases hc
  | cons entry rest ih =>
    obtain ⟨_, v, u, o', -, rfl, hrest, hv⟩ := broadcast_cons h
    obtain ⟨-, rfl, rfl⟩ | ⟨d, hd, ⟨n, hv, rfl⟩ | ⟨rfl, rfl⟩⟩ := hv
    · exact ih hrest hc
    · have hsome : (v.sessions.lookup c).isSome := ih hrest hc
      rw [hv] at hsome
      exact hsome
    · rcases List.mem_append.mp hc with hc | hc
      · cases List.mem_singleton.mp hc
        exact (Option.filter_eq_some_iff.mp hd).2
      · rw [← lookup_send_isSome]
        exact ih hrest hc

/-- What is sent on behalf of `set_state` goes to sessions that have not been destroyed. -/
theorem step_targets (HO : w.Owned) (h : step app w e = some (w', o))
    (hc : .broadcast c data ∈ o) : (w.sessions.lookup c).isSome := by
  cases e with
  | connect key =>
    cases h
    cases hc
  | stream a e =>
    obtain ⟨k, k', o', -, -, rfl, -⟩ := streamStep_eq.mp h
    simp at hc
  | setState body params order =>
    simp only [step] at h
    split at h
    · simp only [setState, Option.map_eq_some_iff, Prod.mk.injEq, Prod.exists] at h
      obtain ⟨v, o', h, rfl, rfl⟩ := h
      have hsome : (World.sessions { w with state := body }).lookup c |>.isSome :=
        broadcast_targets h (by simpa using hc)
      exact hsome
    · cases h
  | timer i =>
    simp only [step, timerStep] at h
    split at h
    · cases h
    rename_i t ht
    cases h
    cases List.mem_singleton.mp hc
    exact HO.timer t (List.mem_of_getElem? ht)

/-! ## The part of the world -/

/-- The keys of the clients that connect. -/
def connects (es : List Event) : List Bytes :=
  es.filterMap fun
    | .connect key => some key
    | _ => none

/-- Each client that connects gets the next address. -/
theorem next_eq (HI : Inv w os) (h : step app w e = some (w', o)) :
    w'.next = w.next + (connects [e]).length := by
  cases e with
  | connect key =>
    cases h
    rfl
  | stream a e =>
    obtain ⟨k, k', o', -, -, -, hch⟩ := HI.streamChange h
    exact hch.others.1
  | setState body params order =>
    obtain ⟨o', hb, -⟩ := step_setState h
    exact broadcast_induction (P := fun v => v.next = w.next)
      (fun _ _ _ h => send_next.trans h) (fun _ _ h => h) hb rfl
  | timer i =>
    obtain ⟨timers, a, rfl, -⟩ := step_timer h
    exact send_next

theorem next_le (HI : Inv w os) (h : step app w e = some (w', o)) : w.next ≤ w'.next := by
  rw [next_eq HI h]
  exact Nat.le_add_right ..

/-- Nothing in the log is about a session that has not been started yet. -/
theorem unused (hr : (machine app).logged.run es = some (w, l)) :
    ∀ a, w.next ≤ a → ∀ x ∈ l, ownEvents a x = [] ∧ own a x.2 = [] := by
  refine logged_induction (P := fun _ w l => ∀ a, w.next ≤ a → ∀ x ∈ l,
    ownEvents a x = [] ∧ own a x.2 = []) (fun _ _ _ h => by cases h) ?_ hr
  intro es w l e w' o hr ih hs a ha x hx
  have hrun := run_of_logged hr
  have HI : Inv w _ := Inv.of_run hrun
  have hle : w.next ≤ a := Nat.le_trans (next_le HI hs) ha
  rcases List.mem_append.mp hx with hx | hx
  · exact ih a hle x hx
  cases List.mem_singleton.mp hx
  have hnone : w.sessions.lookup a = none := (HI.fresh a hle).1
  have hsent : sentTo a o = [] := by
    refine List.filterMap_eq_nil_iff.mpr fun y hy => ?_
    cases y with
    | stream | reply => rfl
    | broadcast c d =>
      refine if_neg ?_
      rintro rfl
      have := step_targets (Owned.of_run hrun) hs hy
      rw [hnone] at this
      cases this
  refine ⟨?_, ?_⟩
  · cases e with
    | stream b e =>
      refine if_neg ?_
      rintro rfl
      obtain ⟨k, -, -, hk, -⟩ := streamStep_eq.mp hs
      rw [hnone] at hk
      cases hk
    | connect | setState | timer => exact List.map_eq_nil_iff.mpr hsent
  · have h := (HI.step hs).fresh a ha
    rw [own_append] at h
    exact (List.append_eq_nil_iff.mp h.2).2

/-- The session at address `a`, with its key. -/
def session (a : Nat) (w : World) : Option (Bytes × WebSocketSession.Stream) :=
  (w.sessions.lookup a).map fun k => (k.session.key, k)

theorem session_eq_some {key : Bytes} :
    session a w = some (key, k) ↔ w.sessions.lookup a = some k ∧ k.session.key = key := by
  simp only [session, Option.map_eq_some_iff, Prod.mk.injEq]
  constructor
  · rintro ⟨_, h, rfl, rfl⟩
    exact ⟨h, rfl⟩
  · rintro ⟨h, rfl⟩
    exact ⟨k, h, rfl, rfl⟩

/-- A session that is there after a step has made its part of the step, or is new. -/
theorem step_own (hr : (machine app).logged.run es = some (w, l))
    (hs : step app w e = some (w', o)) (hk' : w'.sessions.lookup a = some k') :
    (∃ k, w.sessions.lookup a = some k ∧ ∀ key,
        (WebSocketSession.machine a key).runFrom k (ownEvents a (e, o)) = some (k', own a o)) ∨
      (k' = WebSocketSession.start a k'.session.key ∧ e = .connect k'.session.key ∧ a = w.next) ∧
        ∀ x ∈ l ++ [(e, o)], ownEvents a x = [] ∧ own a x.2 = [] := by
  have HI : Inv w _ := Inv.of_run (run_of_logged hr)
  cases e with
  | connect key =>
    cases hs
    by_cases ha : a = w.next
    · subst ha
      obtain rfl : WebSocketSession.start w.next key = k' :=
        Option.some.inj ((AList.lookup_insert _).symm.trans hk')
      refine .inr ⟨⟨rfl, rfl, rfl⟩, fun x hx => ?_⟩
      rcases List.mem_append.mp hx with hx | hx
      · exact unused hr _ (Nat.le_refl _) x hx
      · cases List.mem_singleton.mp hx
        exact ⟨rfl, rfl⟩
    · exact .inl ⟨k', (AList.lookup_insert_ne ha).symm.trans hk', fun _ => rfl⟩
  | stream b e =>
    by_cases hab : b = a
    · subst b
      obtain ⟨k, k₁, hk, hstep, hecho⟩ := stream_self HI hs hk'
      refine .inl ⟨k, hk, fun key => ?_⟩
      rw [ownEvents, if_pos rfl, runFrom_cons]
      exact ⟨k₁, _, [], hstep, hecho key, (List.append_nil _).symm⟩
    · obtain ⟨k, k₁, o', -, -, rfl, hch⟩ := HI.streamChange hs
      rw [hch.others.2 a (Ne.symm hab)] at hk'
      refine .inl ⟨k', hk', fun key => ?_⟩
      rw [ownEvents, if_neg hab, own_stream_ne hab]
      rfl
  | setState body params order =>
    obtain ⟨o', hb, ho⟩ := step_setState hs
    obtain ⟨k, hk, hrun⟩ := broadcast_self hb hk'
    have hown : ownEvents a (.setState body params order, o) = (sentTo a o).map .send := rfl
    have hsent : sentTo a o = sentTo a o' := by
      simp only [step] at hs
      split at hs
      · simp only [setState, Option.map_eq_some_iff, Prod.mk.injEq, Prod.exists] at hs
        obtain ⟨_, _, h, rfl, rfl⟩ := hs
        rw [hb] at h
        cases h
        rfl
      · cases hs
    refine .inl ⟨k, hk, fun key => ?_⟩
    rw [hown, hsent, ho]
    exact hrun key
  | timer i =>
    simp only [step, timerStep] at hs
    split at hs
    · cases hs
    rename_i t ht
    cases hs
    obtain ⟨k, hk, hrun⟩ := send_self hk'
    exact .inl ⟨k, hk, hrun⟩

/-- A session keeps the key of its request. -/
theorem Inv.key_eq {fs : List WebSocketSession.Event} {p : List WebSocketSession.Output}
    (H : Inv w os) (hk : w.sessions.lookup a = some k)
    (hrun : ∀ key, (WebSocketSession.machine a key).runFrom k fs = some (k', p)) :
    k'.session.key = k.session.key := by
  obtain ⟨key, es, hr⟩ := H.session a k hk
  have hr' := Mealy.runFrom_append.mpr ⟨k, _, _, hr, hrun key, rfl⟩
  rw [(WebSocketSession.Lifecycle.of_run hr).key_eq, (WebSocketSession.Lifecycle.of_run hr').key_eq]

/-- The session at address `a` as a part of the world. -/
def sessionPart (app : App) (a : Nat) : Part (machine app) (WebSocketSession.machine a) where
  get := session a
  events := ownEvents a
  outputs x := own a x.2
  init h := by
    obtain ⟨h, -⟩ := session_eq_some.mp h
    simp [machine] at h
  step := by
    intro es w l e w' o key k' hr hs h
    obtain ⟨hk', rfl⟩ := session_eq_some.mp h
    have HI : Inv w _ := Inv.of_run (run_of_logged hr)
    obtain ⟨k, hk, hrun⟩ | ⟨⟨hstart, -⟩, hnil⟩ := step_own hr hs hk'
    · exact .inl ⟨k, session_eq_some.mpr ⟨hk, (HI.key_eq hk hrun).symm⟩, hrun _⟩
    · exact .inr ⟨hstart, hnil⟩

/-- In every run of a listener, each session that has not been destroyed has gone through its own
events, each message followed by the `Send` of its echo, and the calls of `Send` on its behalf of
`set_state`; and what it has put out is a run of `WebSocketSession` over just these. -/
theorem run_session (hr : (machine app).logged.run es = some (w, l))
    (hk : w.sessions.lookup a = some k) :
    (WebSocketSession.machine a k.session.key).run (l.flatMap (ownEvents a)) =
      some (k, own a (l.flatMap Prod.snd)) := by
  have h := (sessionPart app a).run hr (session_eq_some.mpr ⟨hk, rfl⟩)
  have hown : l.flatMap (sessionPart app a).outputs = own a (l.flatMap Prod.snd) := by
    rw [own, List.filterMap_flatMap]
    rfl
  rwa [hown] at h

/-- A client connects and sends "hi". -/
theorem run_session_hi : ∃ w l k, (machine .simpleGame).logged.run
    [.connect (bytes "k"), .stream 0 (.accepted .success),
      .stream 0 (.received .success (bytes "hi") true),
      .setState (bytes "on") none [(bytes "k", 0)]] = some (w, l) ∧
    l.flatMap (ownEvents 0) = [.accepted .success, .received .success (bytes "hi") true,
      .send (bytes "hi UwU Kawaiiiiiiii!"), .send (bytes "on")] ∧
    (WebSocketSession.machine 0 k.session.key).run (l.flatMap (ownEvents 0)) =
      some (k, own 0 (l.flatMap Prod.snd)) := by
  obtain ⟨w, l, hr, hk, hl⟩ := exists_run (M := (machine .simpleGame).logged)
    [.connect (bytes "k"), .stream 0 (.accepted .success),
      .stream 0 (.received .success (bytes "hi") true),
      .setState (bytes "on") none [(bytes "k", 0)]]
    (P := fun w l => (w.sessions.lookup 0).isSome ∧ l.flatMap (ownEvents 0) =
      [.accepted .success, .received .success (bytes "hi") true,
        .send (bytes "hi UwU Kawaiiiiiiii!"), .send (bytes "on")]) (by decide +kernel)
  obtain ⟨k, hk⟩ := Option.isSome_iff_exists.mp hk
  exact ⟨w, l, k, hr, hl, run_session hr hk⟩

end TheGame.World
