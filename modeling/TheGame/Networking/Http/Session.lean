import TheGame.Networking.Http.Url
import TheGame.Networking.RouteManager

/-!
# `HttpSession`

The member functions of `HttpSession` (`http_session.h`, `http_session.cpp`), each as a function
from the session to the session and the list of what it starts or calls, in the order of the
source. `none` stands for the dereference of an empty `response_`, in `response_->` or in
`response_.value()`; whatever the program does then, it is not what the session is meant to do.
-/

namespace TheGame

/-- `RouteManagerBase<..>::CallbackT`: the callback may change the response as it likes. It does
not throw, and leaves no body on a response whose status allows none, on which `prepare_payload()`
would throw. -/
abbrev HttpCallback := Request → Option Params → Response → Response

/-- What a session uses and does not change: Boost.URL, the local endpoint of its socket, the route
manager, and Beast's serialization of a response. `H` stands for `WSHandler`. -/
structure HttpEnv (H : Type*) where
  url : BoostUrl
  localEndpoint : Endpoint
  routeManager : RouteManagerBase HttpCallback H
  serialize : Response → Bytes

/-- `SERVER_VERSION` -/
def serverVersion : Bytes := bytes "game-server-v0"

/-- The members of `HttpSession` which outlive a request. -/
structure HttpSession where
  keepAlive : Bool := false
  response : Option Response := none
deriving DecidableEq

namespace HttpSession

/-- What a member function starts on `stream_` or does otherwise. -/
inductive Action (H : Type*)
  | asyncRead
  | asyncWrite (message : Response)
  /-- `shutdown(shutdown_send)` on the socket -/
  | shutdown
  /-- `support::Fail` -/
  | fail (ec : ErrorCode) (what : String)
  /-- the callback registered for the method and the path is called -/
  | invoke (method : HttpMethod) (path : Path) (request : Request) (params : Option Params)
  /-- the socket is released to a `WebSocketSession` with the handler, which runs -/
  | webSocket (path : Path) (request : Request) (params : Option Params) (handler : H)
deriving DecidableEq

variable {H : Type*}

/-- `HttpSession::Close`. -/
def close (s : HttpSession) : HttpSession × List (Action H) := (s, [.shutdown])

/-- `HttpSession::Read`. -/
def read (s : HttpSession) : HttpSession × List (Action H) := (s, [.asyncRead])

/-- `HttpSession::Run`. -/
def run (s : HttpSession) : HttpSession × List (Action H) := s.read

/-- `HttpSession::Write`. -/
def write (s : HttpSession) : Option (HttpSession × List (Action H)) :=
  match s.response with
  | none => none
  | some r =>
    let message := r.preparePayload
    some ({ keepAlive := r.keepAlive, response := some message.movedFrom }, [.asyncWrite message])

/-- The lines of `OnRead` from `if (not target_found)` on, after the actions `acts`. -/
def respond (s : HttpSession) (request : Request) (targetFound : Bool) (acts : List (Action H)) :
    Option (HttpSession × List (Action H)) :=
  let s? : Option HttpSession :=
    if targetFound then some s
    else
      match s.response with
      | none => none
      | some r =>
        let body := bytes "Unknown HTTP-target: " ++ request.target
        some { s with response := some { r with result := 404, body } }
  match s?.bind write with
  | none => none
  | some (s, writes) =>
    let (s, reads) := s.read
    some (s, acts ++ writes ++ reads)

/-- The response which `OnRead` makes for a request whose URI parses. -/
def freshResponse (request : Request) : Response :=
  (Response.setKeepAlive { version := request.version, result := 200 } request.keepAlive).set
    (bytes "Server") serverVersion

/-- A response goes out with the keep-alive of its request, unless a callback changes it. -/
theorem keepAlive_freshResponse (request : Request) :
    (freshResponse request).preparePayload.keepAlive = request.keepAlive := by
  simp [freshResponse]

/-- The URI of a request. -/
def uri (env : HttpEnv H) (request : Request) : Option env.url.Url :=
  parseUri env.url (bytes (if request.isUpgrade then "ws" else "http")) env.localEndpoint
    request.target

/-- `HttpSession::OnRead`; `request` is what the parser releases if the read has succeeded. -/
def onRead (env : HttpEnv H) (s : HttpSession) (ec : ErrorCode) (request : Request) :
    Option (HttpSession × List (Action H)) :=
  if ec.failed then
    if ec = .endOfStream then some s.close else some (s, [.fail ec "on read"])
  else
    let method := convertVerbBeast request.method
    match uri env request with
    | none => s.respond request false []
    | some uri =>
      let params := parseQuery env.url uri
      let target := env.url.path uri
      let response := freshResponse request
      let s := { s with response := some response }
      if request.isUpgrade then
        match env.routeManager.getWSHandler method target with
        | some handler => some (s, [.webSocket target request params handler])
        | none => s.respond request false []
      else
        match env.routeManager.getCallback method target with
        | some cb =>
          { s with response := some (cb request params response) }.respond request true
            [.invoke method target request params]
        | none => s.respond request false []

/-- `HttpSession::OnWrite`. -/
def onWrite (s : HttpSession) (ec : ErrorCode) : HttpSession × List (Action H) :=
  if ec.failed then
    (s, [.fail ec "on write"])
  else if !s.keepAlive then
    s.close
  else
    (s, [])

/-! ## What `OnRead` does with a request -/

section
variable (env : HttpEnv H) (request : Request)

/-- The target of the request parses. -/
def Parses : Bool := (uri env request).isSome

/-- The request is an upgrade and has a registered WebSocket handler. -/
def Upgrades : Bool :=
  request.isUpgrade && (uri env request).any fun u =>
    (env.routeManager.getWSHandler (convertVerbBeast request.method) (env.url.path u)).isSome

/-- The request is no upgrade and has a registered callback. -/
def Calls : Bool :=
  !request.isUpgrade && (uri env request).any fun u =>
    (env.routeManager.getCallback (convertVerbBeast request.method) (env.url.path u)).isSome

end

variable {env : HttpEnv H} {s s' : HttpSession} {request : Request} {acts : List (Action H)}

theorem parses_of_upgrades (h : Upgrades env request) : Parses env request := by
  simp only [Upgrades, Bool.and_eq_true, Option.any_eq_true] at h
  obtain ⟨-, u, hu, -⟩ := h
  rw [Parses, hu]
  rfl

theorem parses_of_calls (h : Calls env request) : Parses env request := by
  simp only [Calls, Bool.and_eq_true, Option.any_eq_true] at h
  obtain ⟨-, u, hu, -⟩ := h
  rw [Parses, hu]
  rfl

/-- The results of `OnRead` on a successful read. -/
inductive ReadResult (env : HttpEnv H) (s : HttpSession) (request : Request) :
    Option (HttpSession × List (Action H)) → Prop
  | webSocket (path : Path) (params : Option Params) (handler : H) : Upgrades env request →
    ReadResult env s request
      (some ({ s with response := some (freshResponse request) },
        [.webSocket path request params handler]))
  | invoke (path : Path) (params : Option Params) (message : Response) : Calls env request →
    ReadResult env s request
      (some ({ keepAlive := message.keepAlive, response := some message.movedFrom },
        [.invoke (convertVerbBeast request.method) path request params, .asyncWrite message,
          .asyncRead]))
  | notFound (message : Response) : Upgrades env request = false → Calls env request = false →
    (Parses env request = true ∨ s.response.isSome) →
    ReadResult env s request
      (some ({ keepAlive := message.keepAlive, response := some message.movedFrom },
        [.asyncWrite message, .asyncRead]))
  | fault : Parses env request = false → s.response = none → ReadResult env s request none

theorem respond_true {r : Response} (h : s.response = some r) (request : Request)
    (acts : List (Action H)) :
    s.respond request true acts =
      some (
        { keepAlive := r.preparePayload.keepAlive, response := some r.preparePayload.movedFrom },
        acts ++ [.asyncWrite r.preparePayload] ++ [.asyncRead]) := by
  simp [respond, h, write, read]

/-- What `OnRead` makes of `response_` for a request that nothing is registered for. -/
def notFound (r : Response) (request : Request) : Response :=
  Response.preparePayload
    { r with result := 404, body := bytes "Unknown HTTP-target: " ++ request.target }

theorem respond_false {r : Response} (h : s.response = some r) (request : Request) :
    s.respond (H := H) request false [] = some (
      { keepAlive := (notFound r request).keepAlive,
        response := some (notFound r request).movedFrom },
      [.asyncWrite (notFound r request), .asyncRead]) := by
  simp [respond, h, write, read, notFound]

theorem respond_none (h : s.response = none) : s.respond request false acts = none := by
  simp [respond, h]

/-! ## The branches of `OnRead` -/

/-- What `OnRead` finds under a path: for an upgrade a WebSocket handler, else a callback. -/
inductive Lookup (env : HttpEnv H) (request : Request) (path : Path) : Prop
  | webSocket {handler : H} (hi : request.isUpgrade = true)
    (hw : env.routeManager.getWSHandler (convertVerbBeast request.method) path = some handler)
  | callback {cb : HttpCallback} (hi : request.isUpgrade = false)
    (hc : env.routeManager.getCallback (convertVerbBeast request.method) path = some cb)
  | nothing
    (hw : request.isUpgrade = true →
      env.routeManager.getWSHandler (convertVerbBeast request.method) path = none)
    (hc : request.isUpgrade = false →
      env.routeManager.getCallback (convertVerbBeast request.method) path = none)

theorem lookup_path (env : HttpEnv H) (request : Request) (path : Path) :
    Lookup env request path := by
  cases hi : request.isUpgrade with
  | true =>
    cases hw : env.routeManager.getWSHandler (convertVerbBeast request.method) path with
    | none => exact .nothing (fun _ => hw) (by simp [hi])
    | some handler => exact .webSocket hi hw
  | false =>
    cases hc : env.routeManager.getCallback (convertVerbBeast request.method) path with
    | none => exact .nothing (by simp [hi]) (fun _ => hc)
    | some cb => exact .callback hi hc

section
variable {u : env.url.Url}

theorem onRead_webSocket {handler : H} (hu : uri env request = some u)
    (hi : request.isUpgrade = true)
    (hw : env.routeManager.getWSHandler (convertVerbBeast request.method) (env.url.path u) =
      some handler) :
    onRead env s .success request =
      some ({ s with response := some (freshResponse request) },
        [.webSocket (env.url.path u) request (parseQuery env.url u) handler]) := by
  simp only [onRead, ErrorCode.failed, hu, hi, hw]
  rfl

theorem onRead_callback {cb : HttpCallback} {message : Response} (hu : uri env request = some u)
    (hi : request.isUpgrade = false)
    (hc : env.routeManager.getCallback (convertVerbBeast request.method) (env.url.path u) = some cb)
    (hm : message = (cb request (parseQuery env.url u) (freshResponse request)).preparePayload) :
    onRead env s .success request =
      some ({ keepAlive := message.keepAlive, response := some message.movedFrom },
        [.invoke (convertVerbBeast request.method) (env.url.path u) request (parseQuery env.url u),
          .asyncWrite message, .asyncRead]) := by
  have h := respond_true (H := H)
    (s := { s with response := some (cb request (parseQuery env.url u) (freshResponse request)) })
    rfl request [.invoke (convertVerbBeast request.method) (env.url.path u) request
      (parseQuery env.url u)]
  subst hm
  simp only [onRead, ErrorCode.failed, hu, hi, hc, Bool.false_eq_true, if_false, h]
  rfl

theorem onRead_notFound (hu : uri env request = some u)
    (hw : request.isUpgrade = true →
      env.routeManager.getWSHandler (convertVerbBeast request.method) (env.url.path u) = none)
    (hc : request.isUpgrade = false →
      env.routeManager.getCallback (convertVerbBeast request.method) (env.url.path u) = none) :
    onRead env s .success request = some (
      { keepAlive := (notFound (freshResponse request) request).keepAlive,
        response := some (notFound (freshResponse request) request).movedFrom },
      [.asyncWrite (notFound (freshResponse request) request), .asyncRead]) := by
  have h := respond_false (H := H) (s := { s with response := some (freshResponse request) }) rfl
    request
  cases hi : request.isUpgrade with
  | true =>
    simp only [onRead, ErrorCode.failed, hu, hi, hw hi, h]
    rfl
  | false =>
    simp only [onRead, ErrorCode.failed, hu, hi, hc hi, h]
    rfl

theorem onRead_unparsed (hu : uri env request = none) :
    onRead env s .success request = s.respond request false [] := by
  simp only [onRead, ErrorCode.failed, hu]
  rfl

end

theorem onRead_success (env : HttpEnv H) (s : HttpSession) (request : Request) :
    ReadResult env s request (onRead env s .success request) := by
  cases hu : uri env request with
  | none =>
    have hp : Parses env request = false := by simp [Parses, hu]
    have hup : Upgrades env request = false := by simp [Upgrades, hu]
    have hc : Calls env request = false := by simp [Calls, hu]
    rw [onRead_unparsed hu]
    cases hr : s.response with
    | none =>
      rw [respond_none hr]
      exact .fault hp hr
    | some r =>
      rw [respond_false hr]
      exact .notFound _ hup hc (.inr (by rw [hr]; rfl))
  | some u =>
    have hp : Parses env request = true := by simp [Parses, hu]
    cases lookup_path env request (env.url.path u) with
    | webSocket hi hw =>
      rw [onRead_webSocket hu hi hw]
      exact .webSocket _ _ _ (by simp [Upgrades, hu, hi, hw])
    | callback hi hc =>
      rw [onRead_callback hu hi hc rfl]
      exact .invoke _ _ _ (by simp [Calls, hu, hi, hc])
    | nothing hw hc =>
      rw [onRead_notFound hu hw hc]
      have hup : Upgrades env request = false := by
        simpa [Upgrades, hu] using hw
      have hca : Calls env request = false := by
        simpa [Calls, hu] using hc
      exact .notFound _ hup hca (.inl hp)

end HttpSession

end TheGame
