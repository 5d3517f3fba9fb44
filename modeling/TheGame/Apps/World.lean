import TheGame.Apps.Listener
import TheGame.Networking.WebSocket.Lifecycle

/-!
# What an event does to the world

Every session of a reachable world is in a state its own machine can reach with the outputs it has
made (`Inv.of_run`), so what holds of single sessions holds of all sessions of a listener. The
rest says how the parts of a step, `send`, `invoke`, `deliver` and `reap`, change the sessions and
the registry.
-/

namespace TheGame.World
open WebSocketSession (Lifecycle Connected Disconnected acceptedCtx)
open Mealy

variable {app : App} {w w' : World} {a b : Nat} {data : Bytes} {k k' : WebSocketSession.Stream}
  {e : Event} {es : List Event} {o os : List Output}

/-- The outputs made by the session at address `a`. -/
def own (a : Nat) (os : List Output) : List WebSocketSession.Output :=
  os.filterMap fun
    | .stream b o => if b = a then some o else none
    | _ => none

@[simp] theorem own_append : own a (os ++ o) = own a os ++ own a o := List.filterMap_append

@[simp] theorem own_stream_self {o : List WebSocketSession.Output} :
    own a (o.map (Output.stream a)) = o := by
  simp [own, List.filterMap_map]

theorem own_stream_ne {o : List WebSocketSession.Output} (h : a ≠ b) :
    own b (o.map (Output.stream a)) = [] := by
  simp [own, List.filterMap_map, h]

/-! ## Sending -/

@[simp] theorem send_ctxs : (w.send a data).ctxs = w.ctxs := by
  unfold send; split <;> rfl

@[simp] theorem send_next : (w.send a data).next = w.next := by
  unfold send; split <;> rfl

theorem lookup_send_ne (h : b ≠ a) : (w.send a data).sessions.lookup b = w.sessions.lookup b := by
  unfold send
  split
  · rfl
  · exact AList.lookup_insert_ne h

theorem lookup_send_self : (w.send a data).sessions.lookup a =
    (w.sessions.lookup a).map fun k => (k.apply (k.session.send data)).1 := by
  unfold send
  split <;> rename_i h <;> simp [h]

/-- `Send` changes nothing of a session but what it has to write. -/
theorem lookup_send (h : (w.send a data).sessions.lookup b = some k') :
    ∃ k, w.sessions.lookup b = some k ∧ k'.session.ctx = k.session.ctx ∧ k'.reads = k.reads := by
  by_cases hb : b = a
  · subst b
    rw [lookup_send_self, Option.map_eq_some_iff] at h
    obtain ⟨k, hk, rfl⟩ := h
    exact ⟨k, hk, rfl, rfl⟩
  · rw [lookup_send_ne hb] at h
    exact ⟨k', h, rfl, rfl⟩

theorem lookup_send_isSome :
    ((w.send a data).sessions.lookup b).isSome = (w.sessions.lookup b).isSome := by
  by_cases hb : b = a
  · subst b
    simp [lookup_send_self]
  · rw [lookup_send_ne hb]

/-! ## Destroying -/

@[simp] theorem reap_ctxs : (w.reap a).ctxs = w.ctxs := by
  unfold reap; split <;> [rfl; split <;> rfl]

@[simp] theorem reap_next : (w.reap a).next = w.next := by
  unfold reap; split <;> [rfl; split <;> rfl]

theorem lookup_reap (h : (w.reap a).sessions.lookup b = some k) : w.sessions.lookup b = some k := by
  unfold reap at h
  split at h
  · exact h
  split at h
  · exact (UnorderedMap.lookup_erase_eq_some.mp h).2
  · exact h

theorem lookup_reap_ne (h : b ≠ a) : (w.reap a).sessions.lookup b = w.sessions.lookup b := by
  unfold reap
  split
  · rfl
  split
  · exact AList.lookup_erase_ne h
  · rfl

/-- A session with an operation outstanding is not destroyed. -/
theorem reap_of_outstanding (h : w.sessions.lookup a = some k) (hk : k.outstanding ≠ 0) :
    w.reap a = w := by
  simp [reap, h, hk]

/-- A session that nothing holds is. -/
theorem lookup_reap_self (h : w.sessions.lookup a = some k) (hk : k.outstanding = 0)
    (ht : ∀ t ∈ w.timers, t.session ≠ a) : (w.reap a).sessions.lookup a = none := by
  unfold reap
  rw [h]
  dsimp only
  rw [if_pos ⟨hk, ht⟩]
  exact AList.lookup_erase _ _

/-! ## The handler -/

@[simp] theorem unregister_sessions {ctx : WSContext} :
    (w.unregister ctx).sessions = w.sessions := by
  unfold unregister; split <;> rfl

theorem lookup_unregister_self {ctx : WSContext} :
    (w.unregister ctx).ctxs.lookup ctx.uuid = none := by
  unfold unregister
  split <;> rename_i h
  · exact AList.lookup_erase _ _
  · simpa using h

theorem lookup_unregister_ne {ctx : WSContext} {key : Bytes} (h : key ≠ ctx.uuid) :
    (w.unregister ctx).ctxs.lookup key = w.ctxs.lookup key := by
  unfold unregister
  split
  · exact AList.lookup_erase_ne h
  · rfl

theorem handler_eq : app.handler = ctxsHandler (bytes " UwU Kawaiiiiiiii!") := by
  cases app <;> rfl

/-- A callback sends, or changes the registry. -/
theorem invoke_cases (app : App) (a : Nat) (c : HandlerCall) (w : World) :
    (∃ ctxs, app.handler.invoke a c w = { w with ctxs }) ∨
      ∃ b data, app.handler.invoke a c w = w.send b data := by
  rw [handler_eq]
  have unregister (ctx : WSContext) : ∃ ctxs, w.unregister ctx = { w with ctxs } := by
    unfold World.unregister
    split <;> exact ⟨_, rfl⟩
  cases c with
  | onConnect ctx => exact .inl ⟨_, rfl⟩
  | onDisconnect ctx => exact .inl (unregister ctx)
  | onReceive ctx data size isBinary =>
    simp only [WSHandler.invoke, ctxsHandler]
    split
    · exact .inr ⟨_, _, rfl⟩
    · exact .inl (unregister ctx)
  | onError ec what => exact .inl ⟨w.ctxs, rfl⟩

theorem streamStep_eq {h : WSHandler World} {e : WebSocketSession.Event} :
    w.streamStep h a e = some (w', os) ↔
      ∃ k k' o, w.sessions.lookup a = some k ∧ k.step e = some (k', o) ∧
        os = o.map (Output.stream a) ∧
        w' = (deliver h a o { w with sessions := w.sessions.insert a k' }).reap a := by
  unfold streamStep
  constructor
  · intro hs
    split at hs
    · cases hs
    rename_i k hk
    split at hs
    · cases hs
    rename_i k' o ho
    cases hs
    exact ⟨k, k', o, hk, ho, rfl, rfl⟩
  · rintro ⟨k, k', o, hk, ho, rfl, rfl⟩
    simp [hk, ho]

/-- One round of the loop of `set_state`: it reads the context of a session that is not destroyed,
and a session that lives gets a timer or is sent the state. -/
theorem broadcast_cons {params : Option Params} {entry : Bytes × Nat} {rest : List (Bytes × Nat)}
    (h : broadcast params (entry :: rest) w = some (w', o)) :
    ∃ k v u o', w.sessions.lookup entry.2 = some k ∧ o = u ++ o' ∧
      broadcast params rest v = some (w', o') ∧
      ((w.lock k.session.ctx = none ∧ v = w ∧ u = []) ∨
        ∃ c, w.lock k.session.ctx = some c ∧
          ((∃ n, v = { w with timers := w.timers ++ [⟨c, n⟩] } ∧ u = []) ∨
            v = w.send c w.state ∧ u = [.broadcast c w.state])) := by
  obtain ⟨key, a⟩ := entry
  rw [broadcast] at h
  split at h
  · cases h
  rename_i k hk
  obtain ⟨⟨w'', o'⟩, hrest, heq⟩ := Option.map_eq_some_iff.mp h
  cases heq
  refine ⟨k, _, _, o', hk, rfl, hrest, ?_⟩
  cases hc : w.lock k.session.ctx with
  | none => exact .inl ⟨rfl, rfl, rfl⟩
  | some c =>
    refine .inr ⟨c, rfl, ?_⟩
    cases params.bind fun params => params.lookup (bytes "delay") with
    | none => exact .inr ⟨rfl, rfl⟩
    | some delay => exact .inl ⟨_, rfl, rfl⟩

/-- The loop of `set_state` sends and starts timers. -/
theorem broadcast_induction {P : World → Prop} (send : ∀ w a data, P w → P (w.send a data))
    (timers : ∀ w timers, P w → P { w with timers }) {params : Option Params}
    {order : List (Bytes × Nat)} (h : broadcast params order w = some (w', o)) (hP : P w) :
    P w' := by
  induction order generalizing w o with
  | nil =>
    cases h
    exact hP
  | cons entry rest ih =>
    obtain ⟨k, v, u, o', -, -, hrest, hv⟩ := broadcast_cons h
    refine ih hrest ?_
    obtain ⟨-, rfl, -⟩ | ⟨c, -, ⟨n, rfl, -⟩ | ⟨rfl, -⟩⟩ := hv
    · exact hP
    · exact timers _ _ hP
    · exact send _ _ _ hP

theorem own_broadcast {params : Option Params} {order : List (Bytes × Nat)}
    (h : broadcast params order w = some (w', o)) : own a o = [] := by
  induction order generalizing w o with
  | nil =>
    cases h
    rfl
  | cons entry rest ih =>
    obtain ⟨k, v, u, o', -, rfl, hrest, hv⟩ := broadcast_cons h
    have hr : own a o' = [] := ih hrest
    rw [own_append, hr, List.append_nil]
    obtain ⟨-, -, rfl⟩ | ⟨c, -, ⟨n, -, rfl⟩ | ⟨-, rfl⟩⟩ := hv <;> rfl

theorem step_setState {body : Bytes} {params : Option Params} {order : List (Bytes × Nat)}
    (h : step app w (.setState body params order) = some (w', o)) :
    ∃ o', broadcast params order { w with state := body } = some (w', o') ∧
      ∀ a, own a o = [] := by
  simp only [step] at h
  split at h
  · simp only [setState, Option.map_eq_some_iff, Prod.mk.injEq, Prod.exists] at h
    obtain ⟨_, o', h, rfl, rfl⟩ := h
    have ho (a : Nat) : own a o' = [] := own_broadcast h
    exact ⟨o', h, fun a => by simpa [own] using ho a⟩
  · cases h

theorem step_timer {i : Nat} (h : step app w (.timer i) = some (w', o)) :
    ∃ timers a, w' = send { w with timers } a w.state ∧ ∀ a, own a o = [] := by
  simp only [step, timerStep] at h
  split at h
  · cases h
  · cases h
    exact ⟨_, _, rfl, fun _ => rfl⟩

/-! ## The invariant -/

/-- Every session has got where it is by a run of its own, with the outputs it has made; and
addresses from `next` on have not been used. -/
structure Inv (w : World) (os : List Output) : Prop where
  session : ∀ a k, w.sessions.lookup a = some k →
    ∃ key es, (WebSocketSession.machine a key).run es = some (k, own a os)
  fresh : ∀ a, w.next ≤ a → w.sessions.lookup a = none ∧ own a os = []

namespace Inv

theorem lifecycle (H : Inv w os) (h : w.sessions.lookup a = some k) :
    Lifecycle a k.session.key k (own a os) := by
  obtain ⟨key, es, hr⟩ := H.session a k h
  have hl := Lifecycle.of_run hr
  rwa [hl.key_eq]

theorem congr (H : Inv w os) (hs : w'.sessions = w.sessions) (hn : w'.next = w.next) :
    Inv w' os := by
  refine ⟨?_, ?_⟩
  · rw [hs]
    exact H.session
  · rw [hs, hn]
    exact H.fresh

theorem send (H : Inv w os) : Inv (w.send a data) os := by
  refine ⟨fun b k hb => ?_, fun b hb => ?_⟩
  · by_cases hba : b = a
    · subst b
      rw [lookup_send_self, Option.map_eq_some_iff] at hb
      obtain ⟨k, hk, rfl⟩ := hb
      obtain ⟨key, es, hr⟩ := H.session a k hk
      exact ⟨key, es ++ [.send data], run_snoc.mpr ⟨k, _, [], hr, rfl, by simp⟩⟩
    · rw [lookup_send_ne hba] at hb
      exact H.session b k hb
  · rw [send_next] at hb
    obtain ⟨hb, ho⟩ := H.fresh b hb
    refine ⟨?_, ho⟩
    rw [← Option.isNone_iff_eq_none, ← Option.not_isSome, lookup_send_isSome, hb]
    rfl

theorem invoke (H : Inv w os) (c : HandlerCall) : Inv (app.handler.invoke a c w) os := by
  obtain ⟨ctxs, h⟩ | ⟨b, data, h⟩ := invoke_cases app a c w <;> rw [h]
  · exact H.congr rfl rfl
  · exact H.send

theorem deliver (H : Inv w os) (o : List WebSocketSession.Output) :
    Inv (deliver app.handler a o w) os := by
  induction o generalizing w with
  | nil => exact H
  | cons x o ih =>
    cases x with
    | message m => exact ih H
    | call c => exact ih (H.invoke c)

theorem reap (H : Inv w os) : Inv (w.reap a) os := by
  refine ⟨fun b k hb => H.session b k (lookup_reap hb), fun b hb => ?_⟩
  rw [reap_next] at hb
  obtain ⟨hb, ho⟩ := H.fresh b hb
  refine ⟨?_, ho⟩
  cases h : (w.reap a).sessions.lookup b with
  | none => rfl
  | some k =>
    rw [lookup_reap h] at hb
    cases hb

theorem append (H : Inv w os) (ho : ∀ a, own a o = []) : Inv w (os ++ o) := by
  have h (a : Nat) : own a (os ++ o) = own a os := by rw [own_append, ho, List.append_nil]
  refine ⟨fun a k hk => ?_, fun a ha => ?_⟩
  · rw [h]
    exact H.session a k hk
  · rw [h]
    exact H.fresh a ha

theorem step (H : Inv w os) (h : step app w e = some (w', o)) : Inv w' (os ++ o) := by
  cases e with
  | connect key =>
    cases h
    rw [List.append_nil]
    refine ⟨fun b k hb => ?_, fun b hb => ?_⟩
    · obtain ⟨rfl, rfl⟩ | ⟨-, hb⟩ := UnorderedMap.lookup_insert_eq_some.mp hb
      · refine ⟨key, [], ?_⟩
        rw [(H.fresh _ (Nat.le_refl _)).2]
        rfl
      · exact H.session b k hb
    · have hbn : b ≠ w.next := by
        have := hb
        simp only at this
        omega
      obtain ⟨h1, h2⟩ := H.fresh b (Nat.le_of_succ_le hb)
      exact ⟨by rw [AList.lookup_insert_ne hbn]; exact h1, h2⟩
  | stream a e =>
    obtain ⟨k, k', o, hk, hs, rfl, rfl⟩ := streamStep_eq.mp h
    refine Inv.reap (Inv.deliver ⟨fun b kb hb => ?_, fun b hb => ?_⟩ o)
    · rw [own_append]
      obtain ⟨rfl, rfl⟩ | ⟨hba, hb⟩ := UnorderedMap.lookup_insert_eq_some.mp hb
      · obtain ⟨key, es, hr⟩ := H.session b k hk
        rw [own_stream_self]
        exact ⟨key, es ++ [e], run_snoc.mpr ⟨k, _, o, hr, hs, rfl⟩⟩
      · rw [own_stream_ne (Ne.symm hba), List.append_nil]
        exact H.session b kb hb
    · obtain ⟨h1, h2⟩ := H.fresh b hb
      have hba : b ≠ a := by
        rintro rfl
        rw [hk] at h1
        cases h1
      rw [AList.lookup_insert_ne hba, own_append, own_stream_ne (Ne.symm hba), h2]
      exact ⟨h1, rfl⟩
  | setState body params order =>
    obtain ⟨o', hb, ho⟩ := step_setState h
    refine Inv.append ?_ ho
    exact broadcast_induction (P := (Inv · os)) (fun _ _ _ H => H.send)
      (fun _ _ H => H.congr rfl rfl) hb (H.congr rfl rfl)
  | timer i =>
    obtain ⟨timers, a, rfl, ho⟩ := step_timer h
    have H' : Inv { w with timers } os := H.congr rfl rfl
    exact H'.send.append ho

theorem of_run (h : (machine app).run es = some (w, os)) : Inv w os :=
  run_induction (P := fun _ w os => Inv w os)
    ⟨fun _ _ h => by simp [machine] at h, fun _ _ => ⟨by simp [machine], rfl⟩⟩
    (fun _ _ _ _ _ _ _ H hs => H.step hs) h

end Inv

/-! ## The events of one session -/

/-- What an event of the session `k` at address `a` makes of the world, with the outputs of the
session. `k'` is the session after the event, before the callback. -/
inductive StreamChange (w : World) (a : Nat) (k k' : WebSocketSession.Stream) :
    WebSocketSession.Event → List WebSocketSession.Output → World → Prop
  | connect : 0 < k.accepts → k'.session.ctx = acceptedCtx a k.session.key → 0 < k'.reads →
    StreamChange w a k k' (.accepted .success) [.call (.onConnect (acceptedCtx a k.session.key))]
      { w with sessions := w.sessions.insert a k', ctxs := w.ctxs.insert k.session.key a }
  | disconnect : 0 < k.reads → k'.session.ctx = k.session.ctx →
    StreamChange w a k k' (.received .closed payload gotText)
      [.call (.onDisconnect k.session.ctx)]
      ((unregister { w with sessions := w.sessions.insert a k' } k.session.ctx).reap a)
  | abort : ec ≠ .success → ec ≠ .closed → k'.session.ctx = k.session.ctx →
    StreamChange w a k k' (.received ec payload gotText) [.call (.onError ec "on read")]
      (reap { w with sessions := w.sessions.insert a k' } a)
  | echo {o : List WebSocketSession.Output} {buf : Bytes} :
    k'.session.ctx = k.session.ctx → k'.reads = k.reads → ¬Connected o → ¬Disconnected o →
    StreamChange w a k k' (.received .success payload gotText) o
      ((send { w with sessions := w.sessions.insert a k' } a buf).reap a)
  | quiet {e : WebSocketSession.Event} {o : List WebSocketSession.Output} :
    (∀ ec, e = .accepted ec → ec ≠ .success) →
    (∀ ec payload gotText, e ≠ .received ec payload gotText) →
    k'.session.ctx = k.session.ctx → k'.reads = k.reads → ¬Connected o → ¬Disconnected o →
    StreamChange w a k k' e o (reap { w with sessions := w.sessions.insert a k' } a)

theorem Inv.streamChange {e : WebSocketSession.Event} (H : Inv w os)
    (h : w.streamStep app.handler a e = some (w', o)) :
    ∃ k k' o', w.sessions.lookup a = some k ∧ k.step e = some (k', o') ∧
      o = o'.map (Output.stream a) ∧ StreamChange w a k k' e o' w' := by
  obtain ⟨k, k', o', hk, hs, rfl, rfl⟩ := streamStep_eq.mp h
  refine ⟨k, k', o', hk, hs, rfl, ?_⟩
  have L := H.lifecycle hk
  rw [handler_eq]
  cases e with
  | send data =>
    rw [WebSocketSession.Stream.step_send] at hs
    cases hs
    exact .quiet (by simp) (by simp) rfl rfl (by simp) (by simp)
  | transmit =>
    obtain ⟨v, q, -, rfl, rfl⟩ := WebSocketSession.Stream.step_transmit.mp hs
    exact .quiet (by simp) (by simp) rfl rfl (by simp) (by simp)
  | accepted ec =>
    obtain ⟨hpos, ⟨hec, rfl, rfl⟩ | ⟨rfl, rfl, rfl⟩⟩ :=
      WebSocketSession.Stream.step_accepted.mp hs
    · refine .quiet ?_ (by simp) rfl rfl (by simp) (by simp)
      rintro _ ⟨⟩
      exact hec
    · rw [L.this_eq, World.reap_of_outstanding (AList.lookup_insert _)]
      · exact .connect hpos rfl (Nat.succ_pos _)
      · simp only [WebSocketSession.Stream.outstanding]
        omega
  | received ec payload gotText =>
    obtain ⟨hpos, ⟨rfl, rfl, rfl⟩ | ⟨hc, hec, rfl, rfl⟩ | ⟨rfl, rfl, rfl⟩⟩ :=
      WebSocketSession.Stream.step_received.mp hs
    · exact .disconnect hpos rfl
    · exact .abort hec hc rfl
    · -- the session is alive while its own handler runs, so `lock` gives it
      have hctx := L.ctx_eq (L.reading hpos).2.2.1
      have hl : ∀ k₁, lock { w with sessions := w.sessions.insert a k₁ } k.session.ctx =
          some a := by
        intro k₁
        simp [lock, hctx, acceptedCtx]
      simp only [World.deliver, WSHandler.invoke, ctxsHandler, hl]
      exact .echo rfl rfl (by simp) (by simp)
  | written i =>
    obtain ⟨v, -, rfl, rfl⟩ := WebSocketSession.Stream.step_written.mp hs
    exact .quiet (by simp) (by simp) rfl rfl (by simp) (by simp)
  | writeFailed i ec =>
    obtain ⟨-, -, rfl, rfl⟩ := WebSocketSession.Stream.step_writeFailed.mp hs
    refine .quiet (by simp) (by simp) ?_ ?_ (by simp) (by simp) <;> split <;> rfl

end TheGame.World
