import TheGame.Data.FirstMatch
import TheGame.Machine.Basic
import TheGame.Networking.RouteTable

/-!
# Chains of builder calls

`RouteManagerBuilder` hands out the manager it has filled. Each of the two tables of the manager is
refined by its history: `WithRouteManagerType` starts a table, and `Add` or `AddWebsocket` registers
in it. The lookups of the manager that is built are read off the calls, without the maps.
-/

namespace TheGame

/-- `RouteManagerBuilder`; `rm_ptr_` is null once `Build` has moved the manager out. -/
structure RouteManagerBuilder (CallbackT WSHandlerT : Type*) where
  rmPtr : Option (RouteManagerBase CallbackT WSHandlerT) := some {}

/-- A call to the builder but `Build`. -/
inductive BuilderCall (CallbackT WSHandlerT : Type*)
  | add (method : HttpMethod) (path : Path) (callback : CallbackT)
  | addWebsocket (path : Path) (handler : WSHandlerT)
  /-- `WithRouteManagerType<RouteManagerBase>(callbacks, ws_handlers)` -/
  | withRouteManagerType (callbacks : UnorderedMap HttpMethod (UnorderedMap Path CallbackT))
    (wsHandlers : UnorderedMap Path WSHandlerT)

namespace RouteManagerBuilder

variable {CallbackT WSHandlerT : Type*} (b : RouteManagerBuilder CallbackT WSHandlerT)

/-- `RouteManagerBuilder::Add`. It goes through `rm_ptr_`, without asking whether it is null. -/
def add (method : HttpMethod) (path : Path) (callback : CallbackT) :
    Option (RouteManagerBuilder CallbackT WSHandlerT) :=
  b.rmPtr.map fun rm => { rmPtr := some (rm.add method path callback) }

/-- `RouteManagerBuilder::AddWebsocket`. -/
def addWebsocket (path : Path) (handler : WSHandlerT) :
    Option (RouteManagerBuilder CallbackT WSHandlerT) :=
  b.rmPtr.map fun rm => { rmPtr := some (rm.addWebsocket path handler) }

/-- `RouteManagerBuilder::WithRouteManagerType<RouteManagerBase>`. Nothing of the manager that the
builder held before is kept. -/
def withRouteManagerType (callbacks : UnorderedMap HttpMethod (UnorderedMap Path CallbackT))
    (wsHandlers : UnorderedMap Path WSHandlerT) : RouteManagerBuilder CallbackT WSHandlerT :=
  { rmPtr := some { callbacks, wsHandlers } }

/-- `RouteManagerBuilder::Build`: the manager, and the builder without it. -/
def build :
    Option (RouteManagerBase CallbackT WSHandlerT) × RouteManagerBuilder CallbackT WSHandlerT :=
  (b.rmPtr, { rmPtr := none })

/-- The builder after a call, if the call is defined. -/
def call : BuilderCall CallbackT WSHandlerT → Option (RouteManagerBuilder CallbackT WSHandlerT)
  | .add method path callback => b.add method path callback
  | .addWebsocket path handler => b.addWebsocket path handler
  | .withRouteManagerType callbacks wsHandlers => some (withRouteManagerType callbacks wsHandlers)

/-- What a new builder builds after a chain of calls. -/
def chain (calls : List (BuilderCall CallbackT WSHandlerT)) :
    Option (RouteManagerBase CallbackT WSHandlerT) :=
  (calls.foldlM call {}).bind fun b => b.build.1

end RouteManagerBuilder

namespace BuilderCall

variable {CallbackT WSHandlerT : Type*}

/-- What a call does to the table of callbacks. -/
def callbackEvent :
    BuilderCall CallbackT WSHandlerT → Option (TableEvent (HttpMethod × Path) CallbackT)
  | add method path callback => some (.register (method, path) callback)
  | addWebsocket .. => none
  | withRouteManagerType callbacks _ =>
    some (.start fun key => (callbacks.lookup key.1).bind fun paths => paths.lookup key.2)

/-- What a call does to the table of WebSocket handlers. -/
def handlerEvent : BuilderCall CallbackT WSHandlerT → Option (TableEvent Path WSHandlerT)
  | add .. => none
  | addWebsocket path handler => some (.register path handler)
  | withRouteManagerType _ wsHandlers => some (.start wsHandlers.lookup)

/-- The call is an `Add` for another method or path, or an `AddWebsocket`. -/
def SparesCallback (m : HttpMethod) (p : Path) : BuilderCall CallbackT WSHandlerT → Prop
  | add method path _ => (method, path) ≠ (m, p)
  | addWebsocket .. => True
  | withRouteManagerType .. => False

/-- The call is an `AddWebsocket` for another path, or an `Add`. -/
def SparesHandler (p : Path) : BuilderCall CallbackT WSHandlerT → Prop
  | add .. => True
  | addWebsocket path _ => path ≠ p
  | withRouteManagerType .. => False

/-- What a call makes of the manager that the builder holds. -/
def apply (rm : RouteManagerBase CallbackT WSHandlerT) :
    BuilderCall CallbackT WSHandlerT → RouteManagerBase CallbackT WSHandlerT
  | add method path callback => rm.add method path callback
  | addWebsocket path handler => rm.addWebsocket path handler
  | withRouteManagerType callbacks wsHandlers => { callbacks, wsHandlers }

end BuilderCall

namespace RouteManagerBase

/-- A question to a manager. -/
inductive Lookup
  | callback (method : HttpMethod) (path : Path)
  | wsHandler (method : HttpMethod) (path : Path)
deriving DecidableEq

variable {CallbackT WSHandlerT : Type*} (rm : RouteManagerBase CallbackT WSHandlerT)

/-- What `GetCallback` or `GetWSHandler` returns. -/
def answer : Lookup → Option (CallbackT ⊕ WSHandlerT)
  | .callback method path => (rm.getCallback method path).map .inl
  | .wsHandler method path => (rm.getWSHandler method path).map .inr

/-- The manager under lookups: both only `find`, and leave the maps as they are. -/
def lookups : Mealy (RouteManagerBase CallbackT WSHandlerT) Lookup
    (Option (CallbackT ⊕ WSHandlerT)) where
  init := rm
  step rm q := some (rm, [rm.answer q])

/-- The callbacks by method and path. -/
def callbackAt (key : HttpMethod × Path) : Option CallbackT := rm.getCallback key.1 key.2

variable {rm} {m : HttpMethod} {p : Path}

/-- A run of lookups: the manager stays, so each is answered as if it came first. -/
theorem run_lookups (qs : List Lookup) : rm.lookups.run qs = some (rm, qs.map rm.answer) := by
  rw [List.map_eq_flatMap]
  exact Mealy.runFrom_of_fixed fun q _ => rfl

/-! ## The maps and their histories -/

theorem getWSHandler_GET : rm.getWSHandler .GET p = rm.wsHandlers.lookup p := if_pos rfl

theorem getWSHandler_of_ne (hm : m ≠ .GET) : rm.getWSHandler m p = none := if_neg hm

theorem callbackAt_apply (rm : RouteManagerBase CallbackT WSHandlerT)
    (c : BuilderCall CallbackT WSHandlerT) : (c.apply rm).callbackAt =
      c.callbackEvent.elim rm.callbackAt (TableEvent.next rm.callbackAt) := by
  funext key
  cases c with
  | add method path callback =>
    have hkey : (method, path) = key ↔ method = key.1 ∧ path = key.2 := Prod.ext_iff
    change (rm.add method path callback).getCallback key.1 key.2 =
      (rm.getCallback key.1 key.2).or (if (method, path) = key then some callback else none)
    simp only [getCallback_add, hkey]
  | addWebsocket path handler => rfl
  | withRouteManagerType callbacks wsHandlers =>
    change getCallback ⟨callbacks, wsHandlers⟩ key.1 key.2 = (callbacks.lookup key.1).bind _
    rw [getCallback]
    cases callbacks.lookup key.1 <;> rfl

theorem lookup_apply (rm : RouteManagerBase CallbackT WSHandlerT)
    (c : BuilderCall CallbackT WSHandlerT) : (c.apply rm).wsHandlers.lookup =
      c.handlerEvent.elim rm.wsHandlers.lookup (TableEvent.next rm.wsHandlers.lookup) := by
  funext p
  cases c with
  | add method path callback => rfl
  | addWebsocket path handler => exact UnorderedMap.lookup_emplace
  | withRouteManagerType callbacks wsHandlers => rfl

/-- Both tables answer as their histories do. -/
theorem callbackAt_foldl (calls : List (BuilderCall CallbackT WSHandlerT)) :
    (calls.foldl BuilderCall.apply {}).callbackAt =
      TableEvent.answer (calls.filterMap BuilderCall.callbackEvent) := by
  rw [TableEvent.answer_eq_foldl]
  exact TableEvent.foldl_next_filterMap callbackAt callbackAt_apply {} calls

theorem lookup_foldl (calls : List (BuilderCall CallbackT WSHandlerT)) :
    (calls.foldl BuilderCall.apply {}).wsHandlers.lookup =
      TableEvent.answer (calls.filterMap BuilderCall.handlerEvent) := by
  rw [TableEvent.answer_eq_foldl]
  exact TableEvent.foldl_next_filterMap
    (fun rm : RouteManagerBase CallbackT WSHandlerT => rm.wsHandlers.lookup) lookup_apply {} calls

end RouteManagerBase

namespace RouteManagerBuilder

variable {CallbackT WSHandlerT : Type*} {m : HttpMethod} {p : Path}
  {c : BuilderCall CallbackT WSHandlerT} {pre post : List (BuilderCall CallbackT WSHandlerT)}

theorem call_of_rmPtr (rm : RouteManagerBase CallbackT WSHandlerT)
    (c : BuilderCall CallbackT WSHandlerT) :
    call { rmPtr := some rm } c = some { rmPtr := some (c.apply rm) } := by
  cases c <;> rfl

theorem foldlM_call (rm : RouteManagerBase CallbackT WSHandlerT)
    (calls : List (BuilderCall CallbackT WSHandlerT)) :
    calls.foldlM call { rmPtr := some rm } =
      some { rmPtr := some (calls.foldl BuilderCall.apply rm) } := by
  induction calls generalizing rm with
  | nil => rfl
  | cons c calls ih =>
    rw [List.foldlM_cons, call_of_rmPtr, List.foldl_cons]
    exact ih _

/-- Only `Build` takes the manager away: every call of a chain finds one. -/
theorem chain_eq (calls : List (BuilderCall CallbackT WSHandlerT)) :
    chain calls = some (calls.foldl BuilderCall.apply {}) := by
  rw [chain, foldlM_call]
  rfl

theorem callback_answer_insert (h : c.SparesCallback m p) :
    TableEvent.answer ((pre ++ c :: post).filterMap BuilderCall.callbackEvent) (m, p) =
      TableEvent.answer ((pre ++ post).filterMap BuilderCall.callbackEvent) (m, p) := by
  rw [List.filterMap_append, List.filterMap_append]
  cases c with
  | add method path callback => exact TableEvent.answer_insert h
  | addWebsocket path handler => rw [List.filterMap_cons_none rfl]
  | withRouteManagerType => exact h.elim

theorem handler_answer_insert (h : c.SparesHandler p) :
    TableEvent.answer ((pre ++ c :: post).filterMap BuilderCall.handlerEvent) p =
      TableEvent.answer ((pre ++ post).filterMap BuilderCall.handlerEvent) p := by
  rw [List.filterMap_append, List.filterMap_append]
  cases c with
  | add method path callback => rw [List.filterMap_cons_none rfl]
  | addWebsocket path handler => exact TableEvent.answer_insert h
  | withRouteManagerType => exact h.elim

/-- Every chain builds a manager, and the manager answers as the history of the calls does: with
the entry of the maps that the last `WithRouteManagerType` brought, or else with what was registered
first since. Lookups do not change the manager, and registrations under another key or in the other
table, anywhere in the chain, do not change the answer. -/
theorem chain_answers (calls : List (BuilderCall CallbackT WSHandlerT)) :
    ∃ rm, chain calls = some rm ∧
      (∀ m p, rm.getCallback m p =
        TableEvent.answer (calls.filterMap BuilderCall.callbackEvent) (m, p)) ∧
      (∀ p, rm.getWSHandler .GET p =
        TableEvent.answer (calls.filterMap BuilderCall.handlerEvent) p) ∧
      (∀ m p, m ≠ .GET → rm.getWSHandler m p = none) ∧
      (∀ qs, rm.lookups.run qs = some (rm, qs.map rm.answer)) ∧
      ∀ pre post c, calls = pre ++ post → ∃ rm', chain (pre ++ c :: post) = some rm' ∧
        (∀ m p, c.SparesCallback m p → rm'.getCallback m p = rm.getCallback m p) ∧
        ∀ m p, c.SparesHandler p → rm'.getWSHandler m p = rm.getWSHandler m p := by
  have hcallback (calls : List (BuilderCall CallbackT WSHandlerT)) (m : HttpMethod) (p : Path) :
      (calls.foldl BuilderCall.apply {}).getCallback m p =
        TableEvent.answer (calls.filterMap BuilderCall.callbackEvent) (m, p) :=
    congrFun (RouteManagerBase.callbackAt_foldl calls) (m, p)
  have hhandler (calls : List (BuilderCall CallbackT WSHandlerT)) (p : Path) :
      (calls.foldl BuilderCall.apply {}).getWSHandler .GET p =
        TableEvent.answer (calls.filterMap BuilderCall.handlerEvent) p := by
    rw [RouteManagerBase.getWSHandler_GET]
    exact congrFun (RouteManagerBase.lookup_foldl calls) p
  refine ⟨_, chain_eq calls, hcallback calls, hhandler calls,
    fun _ _ => RouteManagerBase.getWSHandler_of_ne, RouteManagerBase.run_lookups, ?_⟩
  rintro pre post c rfl
  refine ⟨_, chain_eq _, fun m p hc => ?_, fun m p hc => ?_⟩
  · rw [hcallback, hcallback, callback_answer_insert hc]
  · by_cases hm : m = .GET
    · subst m
      rw [hhandler, hhandler, handler_answer_insert hc]
    · rw [RouteManagerBase.getWSHandler_of_ne hm, RouteManagerBase.getWSHandler_of_ne hm]

/-- The maps of the second `WithRouteManagerType` come first, and of the duplicate the first; what
was registered before is gone. -/
example : (chain [.add .GET (bytes "/gone") 0, .withRouteManagerType ∅ ∅,
    .withRouteManagerType (AList.singleton .GET (AList.singleton (bytes "/a") 1)) ∅,
    .add .GET (bytes "/a") 2, .add .GET (bytes "/b") 3, .addWebsocket (bytes "/b") (),
    .add .GET (bytes "/b") 4]).map (fun rm => [bytes "/gone", bytes "/a", bytes "/b"].map
      (rm.getCallback .GET)) = some [none, some 1, some 3] := by
  decide

end RouteManagerBuilder

end TheGame
