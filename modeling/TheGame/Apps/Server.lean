import TheGame.Apps.Routes
import TheGame.Machine.Log
import TheGame.Networking.Http.Connection
import TheGame.Networking.TcpListener

/-!
# A whole server

A listener that has been started, on an `io_context` that runs: the accept loop, the `HttpSession`
which `OnAccept` makes and runs for each accepted socket, and the world of the listener, with the
`WebSocketSession`s. A request reaches the world through the route manager: the callback of
`POST /test/set_state` is called, or a socket is released to a new `WebSocketSession`.

Operations complete in any order. Nothing of the server calls `Send` of a session but the callbacks
and the timers. If an `HttpSession` dereferences an empty `response_`, the process ends, with all
its sessions: `value()` throws, and nothing catches what leaves `io_context.run()`.
-/

namespace TheGame
open Mealy

/-- What a server uses and does not change: Boost.URL, Beast's serialization, the local endpoints of
the accepted sockets, and the order of the entries of a `Params`. -/
structure Host where
  url : BoostUrl
  serialize : Response → Bytes
  localEndpoint : Nat → Endpoint
  paramOrder : ParamOrder

/-- Port 8080 of the local host. -/
def Host.loopback : Host where
  url := Connection.localEnv.url
  serialize := Connection.localEnv.serialize
  localEndpoint _ := Connection.localEnv.localEndpoint
  paramOrder := .entries

/-- What the `HttpSession` of a socket uses. -/
def Host.env (host : Host) (app : App) (socket : Nat) : HttpEnv (WSHandler World) where
  url := host.url
  localEndpoint := host.localEndpoint socket
  routeManager := (app.routeManager host.paramOrder).responses
  serialize := host.serialize

/-- An accepted socket, with its `HttpSession`. -/
structure Client where
  socket : Nat
  connection : Connection
deriving DecidableEq

structure Server where
  listener : TcpListenerBase := {}
  clients : List Client := []
  world : World := {}
  /-- an exception has left `io_context.run()` -/
  terminated : Bool := false

namespace Server

inductive Event
  /-- the call of `DoAccept` which `Start` has dispatched runs -/
  | runStart
  /-- an accept completes -/
  | accepted (ec : ErrorCode) (socket : Nat)
  /-- an event of the `i`-th accepted socket. If it calls `set_state`, the loop meets the entries of
  `ctxs_` in the given order. -/
  | http (i : Nat) (e : Connection.Event) (order : List (Bytes × Nat))
  /-- an operation of the `WebSocketSession` at address `a` completes or goes on -/
  | stream (a : Nat) (e : WebSocketSession.Event)
  /-- the `i`-th waiting timer expires -/
  | timer (i : Nat)

/-- The event of the listener that it is. -/
def Event.listener : Event → Option TcpListenerBase.Event
  | .runStart => some .runStart
  | .accepted ec socket => some (.acceptDone ec socket [])
  | _ => none

/-- The event of the world that it is. -/
def Event.world : Event → Option World.Event
  | .stream a e => some (.stream a e)
  | .timer i => some (.timer i)
  | _ => none

inductive Output
  | listener (o : TcpListenerBase.Output)
  | http (i : Nat) (o : Connection.Output (WSHandler World))
  /-- an event of the world -/
  | world (e : World.Event) (os : List World.Output)

/-- `OnAccept`: each socket gets an `HttpSession`, which runs. -/
def onAccept (host : Host) (app : App) (o : TcpListenerBase.Output) : Option Client :=
  o.socket.map fun socket =>
    { socket, connection := (Connection.machine (host.env app socket)).init }

/-- What a session does to the listener: it calls the callback that is registered, or makes a
`WebSocketSession`. -/
def effect (host : Host) (app : App) (order : List (Bytes × Nat)) :
    Connection.Output (WSHandler World) → Option World.Event
  | .invoke method path request params =>
    match (app.routeManager host.paramOrder).getCallback method path with
    | some callback => callback.event request params order
    | none => none
  | .webSocket _ request _ _ => some (.connect request.key)
  | _ => none

/-- Somebody calls `Send`. -/
def isSend : WebSocketSession.Event → Bool
  | .send _ => true
  | _ => false

/-- An event of the listener, whose overrides make no calls of their own. -/
def listenerStep (host : Host) (app : App) (s : Server) (e : TcpListenerBase.Event) :
    Option (Server × List Output) :=
  (s.listener.step false e).map fun r =>
    ({ s with listener := r.1, clients := s.clients ++ r.2.filterMap (onAccept host app) },
      r.2.map .listener)

/-- Events of the world. -/
def worldStep (app : App) (s : Server) (es : List World.Event) : Option (Server × List Output) :=
  ((World.machine app).logged.runFrom s.world es).map fun r =>
    ({ s with world := r.1 }, r.2.map fun x => .world x.1 x.2)

/-- An event of an accepted socket, with what it does to the listener and to the process. -/
def httpStep (host : Host) (app : App) (s : Server) (i : Nat) (e : Connection.Event)
    (order : List (Bytes × Nat)) : Option (Server × List Output) :=
  s.clients[i]?.bind fun c =>
    (c.connection.step (host.env app c.socket) e).bind fun r =>
      (worldStep app
        { s with
          clients := s.clients.set i { c with connection := r.1 }
          terminated := r.2.any (·.isFault) }
        (r.2.filterMap (effect host app order))).map fun u => (u.1, r.2.map (.http i) ++ u.2)

/-- One handler that `io_context.run()` runs. -/
def runOne (host : Host) (app : App) (s : Server) : Event → Option (Server × List Output)
  | .runStart => s.listenerStep host app .runStart
  | .accepted ec socket => s.listenerStep host app (.acceptDone ec socket [])
  | .http i e order => s.httpStep host app i e order
  | .stream a e => if isSend e then none else s.worldStep app [.stream a e]
  | .timer i => s.worldStep app [.timer i]

def step (host : Host) (app : App) (s : Server) (e : Event) : Option (Server × List Output) :=
  if s.terminated then none else s.runOne host app e

/-- The server, from the call of `Start` on. -/
def machine (host : Host) (app : App) : Mealy Server Event Output where
  init := { listener := (TcpListenerBase.start {} false).1 }
  step := step host app

variable {host : Host} {app : App} {s t : Server} {e : Event} {o os : List Output} {i : Nat}
  {order : List (Bytes × Nat)}

/-! ## What each event does -/

theorem listenerStep_eq_some {f : TcpListenerBase.Event} :
    s.listenerStep host app f = some (t, o) ↔ ∃ l p, s.listener.step false f = some (l, p) ∧
      t = { s with listener := l, clients := s.clients ++ p.filterMap (onAccept host app) } ∧
      o = p.map .listener := by
  simp only [listenerStep, Option.map_eq_some_iff, Prod.mk.injEq, Prod.exists]
  exact exists_congr fun _ => exists_congr fun _ => and_congr_right fun _ =>
    and_congr eq_comm eq_comm

theorem worldStep_eq_some {fs : List World.Event} : s.worldStep app fs = some (t, o) ↔
    ∃ w m, (World.machine app).logged.runFrom s.world fs = some (w, m) ∧
      t = { s with world := w } ∧ o = m.map fun x => .world x.1 x.2 := by
  simp only [worldStep, Option.map_eq_some_iff, Prod.mk.injEq, Prod.exists]
  exact exists_congr fun _ => exists_congr fun _ => and_congr_right fun _ =>
    and_congr eq_comm eq_comm

theorem httpStep_eq_some {f : Connection.Event} :
    s.httpStep host app i f order = some (t, o) ↔ ∃ c k p w m, s.clients[i]? = some c ∧
      c.connection.step (host.env app c.socket) f = some (k, p) ∧
      (World.machine app).logged.runFrom s.world (p.filterMap (effect host app order)) =
        some (w, m) ∧
      t = { s with
        clients := s.clients.set i { c with connection := k }
        world := w
        terminated := p.any (·.isFault) } ∧
      o = p.map (.http i) ++ m.map fun x => .world x.1 x.2 := by
  simp only [httpStep, Option.bind_eq_some_iff, Option.map_eq_some_iff, worldStep_eq_some,
    Prod.mk.injEq, Prod.exists]
  constructor
  · rintro ⟨c, hc, k, p, hs, _, _, ⟨w, m, hw, rfl, rfl⟩, rfl, rfl⟩
    exact ⟨c, k, p, w, m, hc, hs, hw, rfl, rfl⟩
  · rintro ⟨c, k, p, w, m, hc, hs, hw, rfl, rfl⟩
    exact ⟨c, hc, k, p, hs, _, _, ⟨w, m, hw, rfl, rfl⟩, rfl, rfl⟩

theorem effect_invoke {m : HttpMethod} {p : Path} {request : Request} {params : Option Params}
    {f : World.Event} : effect host app order (.invoke m p request params) = some f ↔
      ∃ callback, (app.routeManager host.paramOrder).getCallback m p = some callback ∧
        callback.event request params order = some f := by
  rw [effect]
  cases (app.routeManager host.paramOrder).getCallback m p <;> simp

/-- What happens to a server: to its listener, to one of its clients, or to its world. -/
inductive Change (host : Host) (app : App) (s : Server) : Event → Server → List Output → Prop
  | listener {e : Event} {f : TcpListenerBase.Event} {l : TcpListenerBase}
    {p : List TcpListenerBase.Output} : e.listener = some f →
    s.listener.step false f = some (l, p) →
    Change host app s e
      { s with listener := l, clients := s.clients ++ p.filterMap (onAccept host app) }
      (p.map .listener)
  | http {i : Nat} {f : Connection.Event} {order : List (Bytes × Nat)} {c : Client}
    {k : Connection} {p : List (Connection.Output (WSHandler World))} {w : World}
    {m : List (World.Event × List World.Output)} : s.clients[i]? = some c →
    c.connection.step (host.env app c.socket) f = some (k, p) →
    (World.machine app).logged.runFrom s.world (p.filterMap (effect host app order)) =
      some (w, m) →
    Change host app s (.http i f order)
      { s with
        clients := s.clients.set i { c with connection := k }
        world := w
        terminated := p.any (·.isFault) }
      (p.map (.http i) ++ m.map fun x => .world x.1 x.2)
  | world {e : Event} {f : World.Event} {w : World} {m : List (World.Event × List World.Output)} :
    e.world = some f → (∀ a data, f ≠ .stream a (.send data)) →
    (World.machine app).logged.runFrom s.world [f] = some (w, m) →
    Change host app s e { s with world := w } (m.map fun x => .world x.1 x.2)

theorem step_eq_some : step host app s e = some (t, o) ↔
    s.terminated = false ∧ s.runOne host app e = some (t, o) := by
  rw [step, Option.ite_none_left_eq_some, Bool.not_eq_true]

/-- A session runs a completion, and the world what the session does to it. -/
theorem step_http {f : Connection.Event} {c : Client} {k : Connection}
    {p : List (Connection.Output (WSHandler World))} {w : World}
    {m : List (World.Event × List World.Output)} (hrun : s.terminated = false)
    (hc : s.clients[i]? = some c)
    (hk : c.connection.step (host.env app c.socket) f = some (k, p))
    (hw : (World.machine app).logged.runFrom s.world (p.filterMap (effect host app order)) =
      some (w, m)) :
    step host app s (.http i f order) = some (
      { s with
        clients := s.clients.set i { c with connection := k }
        world := w
        terminated := p.any (·.isFault) },
      p.map (.http i) ++ m.map fun x => .world x.1 x.2) :=
  step_eq_some.mpr ⟨hrun, httpStep_eq_some.mpr ⟨c, k, p, w, m, hc, hk, hw, rfl, rfl⟩⟩

theorem change_of_step (h : step host app s e = some (t, o)) : Change host app s e t o := by
  obtain ⟨-, h⟩ := step_eq_some.mp h
  cases e with
  | runStart | accepted =>
    obtain ⟨l, p, hs, rfl, rfl⟩ := listenerStep_eq_some.mp h
    exact .listener rfl hs
  | http i f order =>
    obtain ⟨c, k, p, w, m, hc, hs, hw, rfl, rfl⟩ := httpStep_eq_some.mp h
    exact .http hc hs hw
  | stream a f =>
    simp only [runOne, Option.ite_none_left_eq_some] at h
    obtain ⟨w, m, hw, rfl, rfl⟩ := worldStep_eq_some.mp h.2
    refine .world rfl ?_ hw
    rintro b data ⟨⟩
    exact h.1 rfl
  | timer i =>
    obtain ⟨w, m, hw, rfl, rfl⟩ := worldStep_eq_some.mp h
    exact .world rfl nofun hw

/-! ## The world of the server -/

/-- The events of the world. -/
def worldEvents (os : List Output) : List World.Event :=
  os.filterMap fun
    | .world e _ => some e
    | _ => none

/-- What the world puts out. -/
def worldOutputs (os : List Output) : List World.Output :=
  os.flatMap fun
    | .world _ o => o
    | _ => []

@[simp] theorem worldEvents_append : worldEvents (os ++ o) = worldEvents os ++ worldEvents o :=
  List.filterMap_append

@[simp] theorem worldOutputs_append : worldOutputs (os ++ o) = worldOutputs os ++ worldOutputs o :=
  List.flatMap_append

theorem worldEvents_log {m : List (World.Event × List World.Output)} :
    worldEvents (m.map fun x => .world x.1 x.2) = m.map Prod.fst := by
  simp [worldEvents, List.filterMap_map]

end Server

end TheGame
