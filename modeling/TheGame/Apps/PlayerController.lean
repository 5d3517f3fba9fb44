import TheGame.Apps.Upgrades

/-!
# `WebSocketPlayerController`

`websocket_player_controller.hpp`. A controller has a copy of the `WSContext` of a session, and with
it a weak pointer to the session, while the registry of a listener has plain pointers. Controllers
are made at any time from the context of a session that lives, and outlive it. Whatever they are
asked to send goes to that session, or nowhere once it is destroyed.

Nothing of the repository makes a controller. `OnCommand` posts a handler that does nothing yet.
-/

namespace TheGame
open Mealy
open WebSocketSession (Connected acceptedCtx)

namespace World

variable {app : App} {w : World} {a : Nat}

/-- A call of `Send` is an event of the session. -/
theorem step_send {data : Bytes} (h : (w.sessions.lookup a).isSome) :
    step app w (.stream a (.send data)) = some (w.send a data, []) := by
  obtain ⟨k, hk⟩ := Option.isSome_iff_exists.mp h
  have hsend : w.send a data =
      { w with sessions := w.sessions.insert a (k.apply (k.session.send data)).1 } := by
    rw [send, hk]
  refine streamStep_eq.mpr ⟨k, _, [], hk, WebSocketSession.Stream.step_send data, rfl, ?_⟩
  rw [hsend]
  refine (reap_of_outstanding (AList.lookup_insert _) ?_).symm
  have hq : (k.apply (k.session.send data)).1.queued =
    k.queued ++ [k.session.writeBuf ++ data] := rfl
  rw [WebSocketSession.Stream.outstanding, hq, List.length_append, List.length_singleton]
  omega

theorem lock_eq_some {ctx : WSContext} :
    w.lock ctx = some a ↔ ctx.wsSession = some a ∧ (w.sessions.lookup a).isSome :=
  Option.filter_eq_some_iff

end World

structure WebSocketPlayerController where
  wsContext : WSContext
deriving DecidableEq

namespace WebSocketPlayerController

/-- `WebSocketPlayerController::SendMessage` -/
def sendMessage (p : WebSocketPlayerController) (message : Bytes) (w : World) : World :=
  match w.lock p.wsContext with
  | some session => w.send session message
  | none => w

/-- `WebSocketPlayerController::Disconnect`, whose call of `Close` is commented out. -/
def disconnect (p : WebSocketPlayerController) (w : World) : World :=
  match w.lock p.wsContext with
  | some _ => w
  | none => w

end WebSocketPlayerController

/-- The world of a listener, the controllers made so far, and the handlers posted by `OnCommand`. -/
structure Controllers where
  world : World := {}
  controllers : List WebSocketPlayerController := []
  posted : Nat := 0

namespace Controllers

inductive Event
  | world (e : World.Event)
  /-- a controller is made from the context of the session at address `a` -/
  | make (a : Nat)
  | sendMessage (i : Nat) (message : Bytes)
  | disconnect (i : Nat)
  | onCommand (i : Nat)
  /-- a handler posted by `OnCommand` runs -/
  | runPosted

inductive Output
  | world (e : World.Event) (os : List World.Output)
  /-- a controller is made from the context of the session at address `a` -/
  | made (a : Nat)
  /-- the `i`-th controller is asked to send, and finds a session or none -/
  | sent (i : Nat) (session : Option Nat) (message : Bytes)

def step (app : App) (s : Controllers) : Event → Option (Controllers × List Output)
  | .world e => (World.step app s.world e).map fun r =>
    ({ s with world := r.1 }, [.world e r.2])
  | .make a => (s.world.sessions.lookup a).map fun k =>
    ({ s with controllers := s.controllers ++ [⟨k.session.ctx⟩] }, [.made a])
  | .sendMessage i message => s.controllers[i]?.map fun p =>
    ({ s with world := p.sendMessage message s.world },
      [.sent i (s.world.lock p.wsContext) message])
  | .disconnect i => s.controllers[i]?.map fun p => ({ s with world := p.disconnect s.world }, [])
  | .onCommand i => s.controllers[i]?.map fun _ => ({ s with posted := s.posted + 1 }, [])
  | .runPosted => if s.posted = 0 then none else some ({ s with posted := s.posted - 1 }, [])

def machine (app : App) : Mealy Controllers Event Output where
  init := {}
  step := step app

variable {app : App} {s t : Controllers} {e : Event} {es : List Event} {o os : List Output}
  {a : Nat} {message : Bytes} {p : WebSocketPlayerController} {w : World}

/-- The events of the world: its own, and the calls of `Send` by the controllers. -/
def worldEvents (os : List Output) : List World.Event :=
  os.filterMap fun
    | .world e _ => some e
    | .sent _ session message => session.map fun a => .stream a (.send message)
    | .made _ => none

/-- What the world puts out. -/
def worldOutputs (os : List Output) : List World.Output :=
  os.flatMap fun
    | .world _ o => o
    | .sent .. | .made _ => []

theorem disconnect_eq : p.disconnect w = w := by
  unfold WebSocketPlayerController.disconnect
  split <;> rfl

theorem sendMessage_eq (h : p.wsContext.wsSession = some a) :
    p.sendMessage message w = w.send a message := by
  rw [WebSocketPlayerController.sendMessage]
  cases hk : w.sessions.lookup a with
  | some k => rw [World.lock_eq_some.mpr ⟨h, Option.isSome_of_eq_some hk⟩]
  | none =>
    have hnone : w.lock p.wsContext = none := by simp [World.lock, h, hk]
    rw [hnone, World.send, hk]

/-- A step is a run of the world. -/
theorem step_world (h : step app s e = some (t, o)) :
    (World.machine app).runFrom s.world (worldEvents o) = some (t.world, worldOutputs o) := by
  cases e with
  | world e =>
    obtain ⟨⟨w, q⟩, hw, heq⟩ := Option.map_eq_some_iff.mp h
    cases heq
    exact runFrom_cons.mpr ⟨w, q, [], hw, rfl, rfl⟩
  | make a =>
    obtain ⟨k, -, heq⟩ := Option.map_eq_some_iff.mp h
    cases heq
    rfl
  | sendMessage i message =>
    obtain ⟨p, -, heq⟩ := Option.map_eq_some_iff.mp h
    cases heq
    rw [WebSocketPlayerController.sendMessage]
    cases hl : s.world.lock p.wsContext with
    | none => rfl
    | some a =>
      exact runFrom_cons.mpr ⟨_, [], [], World.step_send (World.lock_eq_some.mp hl).2, rfl, rfl⟩
  | disconnect i =>
    obtain ⟨p, -, heq⟩ := Option.map_eq_some_iff.mp h
    cases heq
    rw [disconnect_eq]
    rfl
  | onCommand i =>
    obtain ⟨p, -, heq⟩ := Option.map_eq_some_iff.mp h
    cases heq
    rfl
  | runPosted =>
    obtain ⟨-, h⟩ := Option.ite_none_left_eq_some.mp h
    cases h
    rfl

theorem run_world (hr : (machine app).run es = some (s, os)) :
    (World.machine app).run (worldEvents os) = some (s.world, worldOutputs os) := by
  refine run_induction (P := fun _ s os =>
    (World.machine app).run (worldEvents os) = some (s.world, worldOutputs os)) rfl ?_ hr
  intro es s os e t o hr ih hs
  have hevents : worldEvents (os ++ o) = worldEvents os ++ worldEvents o := List.filterMap_append
  have houtputs : worldOutputs (os ++ o) = worldOutputs os ++ worldOutputs o := List.flatMap_append
  rw [hevents, houtputs]
  exact runFrom_append.mpr ⟨_, _, _, ih, step_world hs, rfl⟩

/-- The addresses of the sessions which the controllers are made from. -/
def origins (os : List Output) : List Nat :=
  os.filterMap fun
    | .made a => some a
    | _ => none

/-- The context of a controller is empty, or that of the session at address `a`, whose request has
the key of the context. -/
def CopyOf (es : List World.Event) (p : WebSocketPlayerController) (a : Nat) : Prop :=
  p.wsContext = {} ∨ p.wsContext.wsSession = some a ∧
    (World.connects es)[a]? = some p.wsContext.uuid

theorem CopyOf.append {fs gs : List World.Event} (h : CopyOf fs p a) : CopyOf (fs ++ gs) p a := by
  refine h.imp_right fun ⟨hs, hkey⟩ => ⟨hs, ?_⟩
  have happ : World.connects (fs ++ gs) = World.connects fs ++ World.connects gs :=
    List.filterMap_append
  rw [happ, List.getElem?_append_left (List.getElem?_eq_some_iff.mp hkey).1, hkey]

/-- The controllers that there are after a step. -/
theorem step_controllers (h : step app s e = some (t, o)) :
    (t.controllers = s.controllers ∧ origins o = []) ∨
      ∃ a k, s.world.sessions.lookup a = some k ∧ origins o = [a] ∧ worldEvents o = [] ∧
        t.controllers = s.controllers ++ [⟨k.session.ctx⟩] := by
  cases e with
  | make a =>
    obtain ⟨k, hk, heq⟩ := Option.map_eq_some_iff.mp h
    cases heq
    exact .inr ⟨a, k, hk, rfl, rfl, rfl⟩
  | world | sendMessage | disconnect | onCommand =>
    obtain ⟨_, -, heq⟩ := Option.map_eq_some_iff.mp h
    cases heq
    exact .inl ⟨rfl, rfl⟩
  | runPosted =>
    obtain ⟨-, h⟩ := Option.ite_none_left_eq_some.mp h
    cases h
    exact .inl ⟨rfl, rfl⟩

/-- A context that is copied while its session lives. -/
theorem copyOf_ctx {fs : List World.Event} {q : List World.Output} {k : WebSocketSession.Stream}
    (hr : (World.machine app).run fs = some (w, q)) (hk : w.sessions.lookup a = some k) :
    CopyOf fs ⟨k.session.ctx⟩ a := by
  have L := (World.Inv.of_run hr).lifecycle hk
  by_cases hc : Connected (World.own a q)
  · refine .inr ⟨?_, ?_⟩ <;> dsimp only <;> rw [L.ctx_eq hc]
    · rfl
    · exact (World.keys_of_run hr).2 a k hk
  · exact .inl (L.ctx_none hc)

theorem copyOf_run (hr : (machine app).run es = some (s, os)) :
    (origins os).length = s.controllers.length ∧ ∀ (i : Nat) p, s.controllers[i]? = some p →
      ∃ a, (origins os)[i]? = some a ∧ CopyOf (worldEvents os) p a := by
  refine run_induction (P := fun _ s os => (origins os).length = s.controllers.length ∧
    ∀ (i : Nat) p, s.controllers[i]? = some p →
      ∃ a, (origins os)[i]? = some a ∧ CopyOf (worldEvents os) p a) ⟨rfl, fun _ _ h => ?_⟩ ?_ hr
  · cases h
  rintro es s os e t o hr ⟨hlen, ih⟩ hs
  have horigins : origins (os ++ o) = origins os ++ origins o := List.filterMap_append
  have hevents : worldEvents (os ++ o) = worldEvents os ++ worldEvents o := List.filterMap_append
  rw [horigins, hevents]
  have old {i : Nat} {p : WebSocketPlayerController} (hp : s.controllers[i]? = some p) :
      ∃ a, (origins os ++ origins o)[i]? = some a ∧
        CopyOf (worldEvents os ++ worldEvents o) p a := by
    obtain ⟨a, ha, hcopy⟩ := ih i p hp
    refine ⟨a, ?_, hcopy.append⟩
    rw [List.getElem?_append_left (List.getElem?_eq_some_iff.mp ha).1, ha]
  obtain ⟨hc, ho⟩ | ⟨a, k, hk, ho, he, hc⟩ := step_controllers hs
  · rw [hc, ho, List.append_nil, hlen]
    exact ⟨rfl, fun i p hp => by simpa [ho] using old hp⟩
  · refine ⟨by rw [hc, ho, List.length_append, List.length_append, hlen]; rfl, fun i p hp => ?_⟩
    rw [hc] at hp
    rcases Nat.lt_or_ge i s.controllers.length with hi | hi
    · rw [List.getElem?_append_left hi] at hp
      exact old hp
    · rw [List.getElem?_append_right hi, List.getElem?_singleton] at hp
      obtain ⟨h0, hp⟩ := Option.ite_none_right_eq_some.mp hp
      cases hp
      refine ⟨a, ?_, ?_⟩
      · rw [List.getElem?_append_right (hlen ▸ hi), hlen, h0, ho]
        rfl
      · exact (copyOf_ctx (run_world hr) hk).append

/-- In every run, the calls of the controllers are runs of the sessions they are made from: what a
controller sends goes to the session whose context it has copied, and nowhere once that session is
destroyed; no other session ever takes its place. -/
theorem sendMessage_own (hr : (machine app).run es = some (s, os)) :
    (World.machine app).run (worldEvents os) = some (s.world, worldOutputs os) ∧
      ∀ (i : Nat) p, s.controllers[i]? = some p → ∃ a, (origins os)[i]? = some a ∧
        ((∀ message, p.sendMessage message s.world = s.world) ∨
          (∀ message, p.sendMessage message s.world = s.world.send a message) ∧
            ∀ k, s.world.sessions.lookup a = some k → k.session.key = p.wsContext.uuid) := by
  refine ⟨run_world hr, fun i p hp => ?_⟩
  obtain ⟨a, ha, hempty | ⟨hs, hkey⟩⟩ := (copyOf_run hr).2 i p hp
  · refine ⟨a, ha, .inl fun message => ?_⟩
    rw [WebSocketPlayerController.sendMessage, hempty]
    rfl
  · refine ⟨a, ha, .inr ⟨fun message => ?_, fun k hk => ?_⟩⟩
    · exact sendMessage_eq hs
    · have := (World.keys_of_run (run_world hr)).2 a k hk
      rw [hkey] at this
      exact (Option.some.inj this).symm

/-- A controller sends "hi"; then its client resets the connection, and what it sends is lost. -/
theorem sendMessage_own_reset : ∃ s os, (machine .simpleGame).run
    [.world (.connect (bytes "k")), .world (.stream 0 (.accepted .success)), .make 0,
      .sendMessage 0 (bytes "hi"), .world (.stream 0 .transmit),
      .world (.stream 0 (.received (.other 104) [] true)), .world (.stream 0 (.written 0)),
      .sendMessage 0 (bytes "ho")] = some (s, os) ∧
    worldOutputs os = [.stream 0 (.call (.onConnect (acceptedCtx 0 (bytes "k")))),
      .stream 0 (.message (bytes "hi")), .stream 0 (.call (.onError (.other 104) "on read"))] ∧
    (World.machine .simpleGame).run (worldEvents os) = some (s.world, worldOutputs os) ∧
    s.world.sessions.lookup 0 = none := by
  obtain ⟨s, os, hr, houtputs, hnone⟩ := exists_run (M := machine .simpleGame)
    [.world (.connect (bytes "k")), .world (.stream 0 (.accepted .success)), .make 0,
      .sendMessage 0 (bytes "hi"), .world (.stream 0 .transmit),
      .world (.stream 0 (.received (.other 104) [] true)), .world (.stream 0 (.written 0)),
      .sendMessage 0 (bytes "ho")]
    (P := fun s os => worldOutputs os =
      [.stream 0 (.call (.onConnect (acceptedCtx 0 (bytes "k")))),
        .stream 0 (.message (bytes "hi")),
        .stream 0 (.call (.onError (.other 104) "on read"))] ∧
      s.world.sessions.lookup 0 = none) (by decide +kernel)
  exact ⟨s, os, hr, houtputs, (sendMessage_own hr).1, hnone⟩

end Controllers

end TheGame
