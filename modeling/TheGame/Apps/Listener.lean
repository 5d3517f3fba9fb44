import TheGame.Networking.Http.Common
import TheGame.Networking.WebSocket.Session

/-!
# The listeners

`TcpListener` (`simple_server/tcp_listener.cpp`, with the table that its `BuildRouteManager` makes)
and `TestListener` (`simple_game/beast.cpp`): the handler of the WebSocket route `/`, which keeps
the registry `ctxs_`, and the callback of `POST /test/set_state`, which broadcasts to it. The
callbacks transform the `World` they run in: the members of the listener, the WebSocket sessions
that have not been destroyed, and the timers started by `set_state`. A pointer to a `WSContext` is
the address of the session it is part of, and an address is never used twice.

`machine` lets clients connect, operations complete and timers fire in any order. A session is
destroyed once no operation on its stream and no timer holds it.
-/

namespace TheGame

/-- `WSHandler`, over the state `σ` its callbacks work on. The first argument of the first three is
the address of the context. -/
structure WSHandler (σ : Type*) where
  onConnect : Nat → WSContext → σ → σ := fun _ _ w => w
  onDisconnect : Nat → WSContext → σ → σ := fun _ _ w => w
  onReceive : Nat → WSContext → Bytes → Nat → Bool → σ → σ := fun _ _ _ _ _ w => w
  onError : ErrorCode → String → σ → σ := fun _ _ w => w

/-- The call `c`, made by the session at address `a`. -/
def WSHandler.invoke {σ : Type*} (h : WSHandler σ) (a : Nat) : HandlerCall → σ → σ
  | .onConnect ctx => h.onConnect a ctx
  | .onDisconnect ctx => h.onDisconnect a ctx
  | .onReceive ctx data size isBinary => h.onReceive a ctx data size isBinary
  | .onError ec what => h.onError ec what

/-- A waiting `steady_timer` of `set_state`; its handler holds the session. -/
structure Timer where
  session : Nat
  delaySecs : Int
deriving DecidableEq

structure World where
  ctxs : UnorderedMap Bytes Nat := ∅
  state : Bytes := []
  sessions : UnorderedMap Nat WebSocketSession.Stream := ∅
  next : Nat := 0
  timers : List Timer := []

namespace World

/-- `weak_ptr::lock` on the session of a context. -/
def lock (w : World) (ctx : WSContext) : Option Nat :=
  ctx.wsSession.filter fun a => (w.sessions.lookup a).isSome

/-- `Send` on the session at address `a`. -/
def send (w : World) (a : Nat) (data : Bytes) : World :=
  match w.sessions.lookup a with
  | none => w
  | some k => { w with sessions := w.sessions.insert a (k.apply (k.session.send data)).1 }

/-- Remove the entry of a context from the registry, if there is one. -/
def unregister (w : World) (ctx : WSContext) : World :=
  if (w.ctxs.lookup ctx.uuid).isSome then { w with ctxs := w.ctxs.erase ctx.uuid } else w

/-- The session at address `a` is destroyed if nothing holds it any more. -/
def reap (w : World) (a : Nat) : World :=
  match w.sessions.lookup a with
  | none => w
  | some k =>
    if k.outstanding = 0 ∧ ∀ t ∈ w.timers, t.session ≠ a then
      { w with sessions := w.sessions.erase a }
    else w

end World

/-- The handler that both listeners register for the path `/`. -/
def ctxsHandler (suffix : Bytes) : WSHandler World where
  onConnect a ctx w := { w with ctxs := w.ctxs.insert ctx.uuid a }
  onDisconnect _ ctx w := w.unregister ctx
  onReceive _ ctx buf _ _ w :=
    match w.lock ctx with
    | some s => w.send s (buf ++ suffix)
    | none => w.unregister ctx

/-- The handler of `TcpListener::BuildRouteManager`. -/
def TcpListener.handler : WSHandler World := ctxsHandler (bytes " UwU Kawaiiiiiiii!")

/-- The handler of `TestListener::route_manager_`. -/
def TestListener.handler : WSHandler World := ctxsHandler (bytes " UwU Kawaiiiiiiii!")

/-- `std::stoi`: blanks, a sign, digits, then anything; `none` stands for the exception. -/
def stoi (s : Bytes) : Option Int :=
  let s := s.dropWhile fun c => c = 32 ∨ (9 ≤ c ∧ c ≤ 13)
  let (neg, s) := match s with
    | 45 :: s => (true, s)
    | 43 :: s => (false, s)
    | s => (false, s)
  let digits := s.takeWhile fun c => 48 ≤ c ∧ c ≤ 57
  if digits = [] then none else
    let n : Int := digits.foldl (fun n c => 10 * n + (c.toNat - 48)) 0
    let n := if neg then -n else n
    if -2147483648 ≤ n ∧ n ≤ 2147483647 then some n else none

namespace World

/-- What is seen of a listener: the outputs of a session, the response of `set_state`, and the
calls of `Send` it makes, at once or from a timer. -/
inductive Output
  | stream (a : Nat) (o : WebSocketSession.Output)
  | reply (contentType body : Bytes)
  | broadcast (a : Nat) (data : Bytes)
deriving DecidableEq

inductive Event
  /-- an upgrade request with the given `Sec-WebSocket-Key` reaches the route -/
  | connect (key : Bytes)
  /-- an event of the session at address `a` -/
  | stream (a : Nat) (e : WebSocketSession.Event)
  /-- `POST /test/set_state`; the loop meets the entries of `ctxs_` in the given order -/
  | setState (body : Bytes) (params : Option Params) (order : List (Bytes × Nat))
  /-- the `i`-th waiting timer expires -/
  | timer (i : Nat)

/-- The loop of `set_state` over `ctxs_`. It reads the context of every entry, so it has no
result if one of them is gone. -/
def broadcast (params : Option Params) : List (Bytes × Nat) → World → Option (World × List Output)
  | [], w => some (w, [])
  | (_, c) :: rest, w =>
    match w.sessions.lookup c with
    | none => none
    | some k =>
      let (w, o) : World × List Output := match w.lock k.session.ctx with
        | none => (w, [])
        | some s =>
          match params.bind (·.lookup (bytes "delay")) with
          | some delay => ({ w with timers := w.timers ++ [⟨s, (stoi delay).getD 0⟩] }, [])
          | none => (w.send s w.state, [Output.broadcast s w.state])
      (broadcast params rest w).map fun r => (r.1, o ++ r.2)

/-- The callback of `POST /test/set_state`. -/
def setState (w : World) (body : Bytes) (params : Option Params) (order : List (Bytes × Nat)) :
    Option (World × List Output) :=
  let w := { w with state := body }
  let reply := Output.reply (bytes "text/json; charset=utf-8")
    (bytes "Setting state to: \n" ++ w.state)
  (broadcast params order w).map fun r => (r.1, reply :: r.2)

/-- Make the calls of the handler which a session has asked for. -/
def deliver (h : WSHandler World) (a : Nat) : List WebSocketSession.Output → World → World
  | [], w => w
  | .message _ :: os, w => deliver h a os w
  | .call c :: os, w => deliver h a os (h.invoke a c w)

/-- An event of the session at address `a`. -/
def streamStep (h : WSHandler World) (w : World) (a : Nat) (e : WebSocketSession.Event) :
    Option (World × List Output) :=
  match w.sessions.lookup a with
  | none => none
  | some k =>
    match k.step e with
    | none => none
    | some (k, os) =>
      some ((deliver h a os { w with sessions := w.sessions.insert a k }).reap a,
        os.map (Output.stream a))

/-- The handler of a timer: `s->Send(state_)`. -/
def timerStep (w : World) (i : Nat) : Option (World × List Output) :=
  match w.timers[i]? with
  | none => none
  | some t =>
    let w := { w with timers := w.timers.eraseIdx i }
    some (w.send t.session w.state, [.broadcast t.session w.state])

end World

/-- The listeners that have a route table: `simpleServer` is a `TcpListener` with the table of
`BuildRouteManager`, `simpleGame` is the `TestListener` which the program `simple_game` runs. No
program makes a `TcpListener`: `main` of `simple_server` runs a `TestListener` of its own, which has
no table. -/
inductive App
  | simpleServer
  | simpleGame
deriving DecidableEq

def App.handler : App → WSHandler World
  | .simpleServer => TcpListener.handler
  | .simpleGame => TestListener.handler

/-- Only `TestListener` registers `POST /test/set_state`. -/
def App.hasSetState : App → Bool
  | .simpleServer => false
  | .simpleGame => true

namespace World

def step (app : App) (w : World) : Event → Option (World × List Output)
  | .connect key =>
    some ({ w with
      sessions := w.sessions.insert w.next (WebSocketSession.start w.next key)
      next := w.next + 1 }, [])
  | .stream a e => w.streamStep app.handler a e
  | .setState body params order =>
    if app.hasSetState && order.isPerm w.ctxs.toPairs then w.setState body params order else none
  | .timer i => w.timerStep i

/-- The life of a listener. -/
def machine (app : App) : Mealy World Event Output where
  init := {}
  step := step app

end World

end TheGame
