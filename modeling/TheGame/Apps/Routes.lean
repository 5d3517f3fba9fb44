import TheGame.Apps.Listener
import TheGame.Networking.Http.Session
import TheGame.Networking.RouteBuilder

/-!
# The routes of the listeners

The route managers which `TestListener` (`simple_game/beast.cpp`) and `TcpListener`
(`simple_server/tcp_listener.cpp`) build, with the callbacks they register. A callback that captures
`this` does something to the listener besides what it does to the response.

The parameters of a request are an `unordered_map`. `ForEachParam` meets them in an order of which
nothing is assumed but that it meets each entry once.
-/

namespace TheGame

/-- The order in which a range-based `for` meets the entries of a `Params`. -/
structure ParamOrder where
  order : Params → List (ParamKey × ParamValue)
  perm : ∀ params, (order params).Perm (UnorderedMap.toPairs params)

/-- The order of the entries of the model's own maps. -/
def ParamOrder.entries : ParamOrder := ⟨UnorderedMap.toPairs, fun _ => .refl _⟩

/-- `ForEachParam`. -/
def forEachParam {σ : Type*} (po : ParamOrder) (params : Option Params)
    (f : σ → ParamKey → ParamValue → σ) (acc : σ) : σ :=
  match params with
  | some params => (po.order params).foldl (fun acc p => f acc p.1 p.2) acc
  | none => acc

/-- A callback of a listener: what it makes of the response, and the event of the listener that it
is. `set_state` iterates over `ctxs_`, in the order given. -/
structure ListenerCallback where
  respond : HttpCallback
  event : Request → Option Params → List (Bytes × Nat) → Option World.Event := fun _ _ _ => none

namespace TestListener

/-- The line of a parameter. -/
def paramLine (key : ParamKey) (value : ParamValue) : Bytes :=
  bytes "\n  \"" ++ key ++ bytes "\" : \"" ++ value ++ bytes "\","

/-- The callback of `GET /test`. -/
def test (po : ParamOrder) : ListenerCallback where
  respond _ params res :=
    let body := bytes "UwU Kawaiiiiiiii!\n"
    let body := body ++ bytes "Params: \x7b"
    let body := forEachParam po params (fun body key value => body ++ paramLine key value) body
    let body := body ++ bytes "\n\x7d"
    let res := res.set (bytes "Content-Type") (bytes "text/plain; charset=utf-8")
    { res with body }

/-- The callback of `POST /test/set_state`. -/
def setState : ListenerCallback where
  respond req _ res :=
    let res := res.set (bytes "Content-Type") (bytes "text/json; charset=utf-8")
    { res with body := bytes "Setting state to: \n" ++ req.body }
  event req params order := some (.setState req.body params order)

/-- The calls that fill `route_manager_`. -/
def routes (po : ParamOrder) : List (BuilderCall ListenerCallback (WSHandler World)) :=
  [.add (convertVerbBeast .get) (bytes "/test") (test po),
    .add (convertVerbBeast .post) (bytes "/test/set_state") setState,
    .addWebsocket (bytes "/") handler]

end TestListener

/-- The calls of `TcpListener::BuildRouteManager`. -/
def TcpListener.routes : List (BuilderCall ListenerCallback (WSHandler World)) :=
  [.addWebsocket (bytes "/") handler]

def App.routes (app : App) (po : ParamOrder) :
    List (BuilderCall ListenerCallback (WSHandler World)) :=
  match app with
  | .simpleServer => TcpListener.routes
  | .simpleGame => TestListener.routes po

/-- `route_manager_` -/
def App.routeManager (app : App) (po : ParamOrder) :
    RouteManagerBase ListenerCallback (WSHandler World) :=
  (RouteManagerBuilder.chain (app.routes po)).get (by rw [RouteManagerBuilder.chain_eq]; rfl)

/-- A route manager as far as the responses go. -/
def RouteManagerBase.responses {W : Type*} (rm : RouteManagerBase ListenerCallback W) :
    RouteManagerBase HttpCallback W where
  callbacks := rm.callbacks.map (UnorderedMap.map ListenerCallback.respond)
  wsHandlers := rm.wsHandlers

theorem RouteManagerBase.getCallback_responses {W : Type*}
    (rm : RouteManagerBase ListenerCallback W) (m : HttpMethod) (p : Path) :
    rm.responses.getCallback m p = (rm.getCallback m p).map ListenerCallback.respond := by
  have hl : rm.responses.callbacks.lookup m =
      (rm.callbacks.lookup m).map (UnorderedMap.map ListenerCallback.respond) :=
    UnorderedMap.lookup_map
  rw [getCallback, getCallback, hl]
  cases rm.callbacks.lookup m with
  | none => rfl
  | some paths => exact UnorderedMap.lookup_map

/-! ## What the managers answer -/

section
variable {app : App} {po : ParamOrder} {m : HttpMethod} {p : Path}

theorem App.routeManager_eq : app.routeManager po = (app.routes po).foldl BuilderCall.apply {} := by
  rw [App.routeManager, Option.get_of_eq_some _ (RouteManagerBuilder.chain_eq _)]

/-- The WebSocket handler of a listener is registered for `GET /`, and nothing else is. -/
theorem App.getWSHandler_eq : (app.routeManager po).getWSHandler m p =
    if m = .GET ∧ p = bytes "/" then some app.handler else none := by
  have hl : (app.routeManager po).wsHandlers.lookup p =
      if bytes "/" = p then some app.handler else none := by
    rw [App.routeManager_eq]
    cases app with
    | simpleServer | simpleGame => exact UnorderedMap.lookup_emplace
  rw [RouteManagerBase.getWSHandler, hl]
  by_cases hm : m = .GET <;> simp [hm, eq_comm]

theorem App.getCallback_simpleServer :
    (App.simpleServer.routeManager po).getCallback m p = none := by
  rw [App.routeManager_eq]
  rfl

/-- `TestListener` has two callbacks. -/
theorem App.getCallback_simpleGame : (App.simpleGame.routeManager po).getCallback m p =
    if m = .GET ∧ p = bytes "/test" then some (TestListener.test po)
    else if m = .POST ∧ p = bytes "/test/set_state" then some TestListener.setState else none := by
  have h : (App.simpleGame.routeManager po).getCallback m p =
      ((RouteManagerBase.add {} (convertVerbBeast .get) (bytes "/test")
        (TestListener.test po)).add (convertVerbBeast .post) (bytes "/test/set_state")
          TestListener.setState : RouteManagerBase _ (WSHandler World)).getCallback m p := by
    rw [App.routeManager_eq]
    rfl
  rw [h, RouteManagerBase.getCallback_add, RouteManagerBase.getCallback_add,
    RouteManagerBase.getCallback_empty, Option.none_or]
  have hget : convertVerbBeast .get = .GET := by decide
  have hpost : convertVerbBeast .post = .POST := by decide
  rw [hget, hpost]
  by_cases h₁ : m = .GET ∧ p = bytes "/test"
  · obtain ⟨rfl, rfl⟩ := h₁
    simp
  · have h₁' : ¬(HttpMethod.GET = m ∧ bytes "/test" = p) := fun h => h₁ ⟨h.1.symm, h.2.symm⟩
    rw [if_neg h₁, if_neg h₁', Option.none_or]
    simp only [eq_comm]

end

end TheGame
