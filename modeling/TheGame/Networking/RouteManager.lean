import TheGame.Networking.Http.Common

/-!
# `RouteManagerBase`

The route table of `route_manager_base.hpp`, over any types of callbacks and of WebSocket handlers,
and its builder. The members of the builder are the functions on the manager it holds.
-/

namespace TheGame

structure RouteManagerBase (CallbackT WSHandlerT : Type*) where
  callbacks : UnorderedMap HttpMethod (UnorderedMap Path CallbackT) := ∅
  wsHandlers : UnorderedMap Path WSHandlerT := ∅

namespace RouteManagerBase

variable {CallbackT WSHandlerT : Type*} (rm : RouteManagerBase CallbackT WSHandlerT)

/-- `RouteManagerBase::GetWSHandler`. -/
def getWSHandler (method : HttpMethod) (path : Path) : Option WSHandlerT :=
  if method = .GET then rm.wsHandlers.lookup path else none

/-- `RouteManagerBase::GetCallback`. -/
def getCallback (method : HttpMethod) (path : Path) : Option CallbackT :=
  match rm.callbacks.lookup method with
  | some paths => paths.lookup path
  | none => none

/-- `RouteManagerBuilder::Add`, by `AddCallback`: `callbacks[method]` makes an empty inner map if
there is none. -/
def add (method : HttpMethod) (path : Path) (callback : CallbackT) :
    RouteManagerBase CallbackT WSHandlerT :=
  let paths := (rm.callbacks.lookup method).getD ∅
  { rm with callbacks := rm.callbacks.insert method (paths.emplace path callback) }

/-- `RouteManagerBuilder::AddWebsocket`. -/
def addWebsocket (path : Path) (handler : WSHandlerT) : RouteManagerBase CallbackT WSHandlerT :=
  { rm with wsHandlers := rm.wsHandlers.emplace path handler }

end RouteManagerBase

end TheGame
