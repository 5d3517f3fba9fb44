import TheGame.Apps.Notifications
import TheGame.Apps.SetState
import TheGame.Apps.Upgrades
import TheGame.Networking.Http.Endpoint

/-!
# A server goes on serving

As long as no exception has ended a server, its listener has an accept to wait for or is going to
have one, so that one more client can connect, open a WebSocket and be registered. It can set the
state, too, if no entry of the registry dangles.
-/

namespace TheGame
open Mealy

namespace Connection
open HttpSession (uri freshResponse)

variable {H : Type*} {env : HttpEnv H} {k : Connection} {request : Request} {u : env.url.Url}

/-- A read that is outstanding may complete with an upgrade. -/
theorem step_webSocket {handler : H} (hpos : 0 < k.reads) (hu : uri env request = some u)
    (hi : request.isUpgrade = true)
    (hw : env.routeManager.getWSHandler (convertVerbBeast request.method) (env.url.path u) =
      some handler) :
    k.step env (.readDone .success request) = some (
      { k with
        reads := k.reads - 1
        released := true
        session := { k.session with response := some (freshResponse request) } },
      [.webSocket (env.url.path u) request (parseQuery env.url u) handler]) := by
  simp only [step, if_neg (Nat.ne_of_gt hpos), HttpSession.onRead_webSocket hu hi hw]
  rfl

/-- A read that is outstanding may complete with a request that has a callback. -/
theorem step_callback {cb : HttpCallback} {message : Response} (hpos : 0 < k.reads)
    (hu : uri env request = some u) (hi : request.isUpgrade = false)
    (hc : env.routeManager.getCallback (convertVerbBeast request.method) (env.url.path u) = some cb)
    (hm : message = (cb request (parseQuery env.url u) (freshResponse request)).preparePayload) :
    ∃ k', k.step env (.readDone .success request) = some (k',
      [.invoke (convertVerbBeast request.method) (env.url.path u) request (parseQuery env.url u),
        .write message]) := by
  refine ⟨{ k with
    reads := k.reads - 1 + 1
    session := { keepAlive := message.keepAlive, response := some message.movedFrom }
    writes := k.writes ++ [⟨message, env.serialize message⟩] }, ?_⟩
  simp only [step, if_neg (Nat.ne_of_gt hpos), HttpSession.onRead_callback hu hi hc hm]
  rfl

end Connection

namespace Server

variable {host : Host} {app : App} {s : Server} {e : Event} {es : List Event} {os : List Output}
  {L : Rfc3986.IpLiteral} {i socket : Nat}

/-! ## The end of a server -/

/-- The server is ended where an empty `response_` is dereferenced. -/
theorem terminated_iff_fault (hr : (machine host app).run es = some (s, os)) :
    s.terminated = true ↔ ∃ i, .http i .fault ∈ os := by
  refine run_induction (P := fun _ s os => s.terminated = true ↔ ∃ i, .http i .fault ∈ os)
    (by simp [machine]) ?_ hr
  intro es s os e t o hr ih hs
  have hrun := (step_eq_some.mp hs).1
  have hno : ¬∃ i, .http i .fault ∈ os := by rw [← ih, hrun, Bool.not_eq_true]
  simp only [List.mem_append, exists_or, hno, false_or]
  cases change_of_step hs with
  | listener | world => simp [hrun]
  | @http i f order c k p w m hc hk hw => simp

/-- An exception has ended the server exactly if the target of the first request of one of its
clients does not parse. -/
theorem terminated_iff (hr : (machine host app).run es = some (s, os)) :
    s.terminated = true ↔ ∃ i c, s.clients[i]? = some c ∧
      ∃ first ∈ (Connection.requests (clientEvents i es)).head?,
        HttpSession.Parses (host.env app c.socket) first = false := by
  rw [terminated_iff_fault hr]
  constructor
  · rintro ⟨i, h⟩
    obtain ⟨c, hc⟩ := exists_client hr h
    have H := Connection.Engaged.of_run (run_client hr hc)
    exact ⟨i, c, hc, H.fault_mem_iff.mp (mem_clientOutputs.mpr h)⟩
  · rintro ⟨i, c, hc, h⟩
    have H := Connection.Engaged.of_run (run_client hr hc)
    exact ⟨i, mem_clientOutputs.mp (H.fault_mem_iff.mpr h)⟩

/-- The second client sends `GET *`. -/
theorem terminated_iff_star : ∃ s os c, (machine .loopback .simpleGame).run
    [.runStart, .accepted .success 7, .accepted .success 9,
      .http 0 (.readDone .success (Connection.get (bytes "/test") true)) [],
      .http 1 (.readDone .success (Connection.get (bytes "*") true)) []] = some (s, os) ∧
    s.clients[1]? = some c ∧
    HttpSession.Parses (Host.loopback.env .simpleGame c.socket)
      (Connection.get (bytes "*") true) = false ∧ s.terminated = true := by
  obtain ⟨s, os, hr, h⟩ := exists_run (M := machine .loopback .simpleGame)
    [.runStart, .accepted .success 7, .accepted .success 9,
      .http 0 (.readDone .success (Connection.get (bytes "/test") true)) [],
      .http 1 (.readDone .success (Connection.get (bytes "*") true)) []]
    (P := fun s _ => s.clients[1]?.any fun c => HttpSession.Parses
      (Host.loopback.env .simpleGame c.socket) (Connection.get (bytes "*") true) = false)
    (by decide +kernel)
  obtain ⟨c, hc, h⟩ := Option.any_eq_true _ _ |>.mp h
  have hp := of_decide_eq_true h
  exact ⟨s, os, c, hr, hc, hp, (terminated_iff hr).mpr ⟨1, c, hc, _, rfl, hp⟩⟩

/-! ## A new client -/

/-- The acceptor is open, and an accept is outstanding or is going to be. -/
theorem pending_listener (hr : (machine host app).run es = some (s, os)) :
    s.listener.isOpen = true ∧ 0 < s.listener.accepts + s.listener.dispatched := by
  refine run_induction (P := fun _ s _ => s.listener.isOpen = true ∧
    0 < s.listener.accepts + s.listener.dispatched) ⟨rfl, Nat.one_pos⟩ ?_ hr
  intro es s os e t o hr ih hs
  cases change_of_step hs with
  | listener he hl =>
    obtain ⟨-, rfl, -⟩ := TcpListenerBase.step_eq_some.mp hl
    have hopen := TcpListenerBase.isOpen_apply s.listener ‹_›
    rw [ih.1, stops_of_listener he] at hopen
    exact ⟨hopen, TcpListenerBase.pending_apply hopen⟩
  | http | world => exact ih

/-- The client whose socket has just been accepted. -/
def newClient (host : Host) (app : App) (socket : Nat) : Client :=
  { socket, connection := (Connection.machine (host.env app socket)).init }

theorem filterMap_onAccept {p : List TcpListenerBase.Output} :
    p.filterMap (onAccept host app) = (p.filterMap (·.socket)).map (newClient host app) := by
  rw [List.map_filterMap]
  rfl

/-- An event of the listener that is possible. -/
theorem step_of_listener {f : TcpListenerBase.Event} (hrun : s.terminated = false)
    (he : e.listener = some f) (hen : s.listener.enabled false f = true) :
    ∃ o, step host app s e = some ({ s with
        listener := (s.listener.apply f).1
        clients := s.clients ++ f.socket.toList.map (newClient host app) }, o) := by
  have hstep : s.listenerStep host app f = some ({ s with
      listener := (s.listener.apply f).1
      clients := s.clients ++ (s.listener.apply f).2.filterMap (onAccept host app) },
      (s.listener.apply f).2.map .listener) :=
    listenerStep_eq_some.mpr ⟨_, _, TcpListenerBase.step_eq_some.mpr ⟨hen, rfl, rfl⟩, rfl, rfl⟩
  rw [filterMap_onAccept, (TcpListenerBase.accounted_apply hen).sockets] at hstep
  cases e with
  | runStart | accepted =>
    cases he
    exact ⟨_, step_eq_some.mpr ⟨hrun, hstep⟩⟩
  | http | stream | timer => cases he

/-- One more socket can be accepted. -/
theorem exists_accept (hr : (machine host app).run es = some (s, os))
    (hrun : s.terminated = false) (socket : Nat) :
    ∃ fs t o, (machine host app).runFrom s fs = some (t, o) ∧ fs.length ≤ 2 ∧
      t.clients = s.clients ++ [newClient host app socket] ∧ t.world = s.world ∧
      t.terminated = false := by
  obtain ⟨hopen, hpending⟩ := pending_listener hr
  have accept {s : Server} (hrun : s.terminated = false) (ha : 0 < s.listener.accepts) :
      ∃ t o, step host app s (.accepted .success socket) = some (t, o) ∧
        t.clients = s.clients ++ [newClient host app socket] ∧ t.world = s.world ∧
        t.terminated = false := by
    have hen : s.listener.enabled false (.acceptDone .success socket []) = true := by
      simp [TcpListenerBase.enabled, ha]
    obtain ⟨o, hs⟩ : ∃ o, step host app s (.accepted .success socket) = some (_, o) :=
      step_of_listener hrun rfl hen
    exact ⟨_, o, hs, rfl, rfl, hrun⟩
  by_cases ha : 0 < s.listener.accepts
  · obtain ⟨t, o, hs, ht⟩ := accept hrun ha
    exact ⟨[.accepted .success socket], t, o, runFrom_singleton.trans hs, Nat.le_succ 1, ht⟩
  · -- the call of `DoAccept` which `Start` has dispatched has still to run
    have hd : 0 < s.listener.dispatched := by omega
    have hen : s.listener.enabled false .runStart = true := by
      simp [TcpListenerBase.enabled, hd]
    obtain ⟨o₁, h₁⟩ : ∃ o, step host app s .runStart = some (_, o) :=
      step_of_listener hrun rfl hen
    have hnone : TcpListenerBase.Event.runStart.socket = none := rfl
    rw [hnone, Option.toList_none, List.map_nil, List.append_nil] at h₁
    have hopen' : (s.listener.apply .runStart).1.isOpen = true := by
      rw [TcpListenerBase.isOpen_apply, hopen]
      rfl
    obtain ⟨t, o₂, h₂, ht⟩ := accept (s := { s with listener := (s.listener.apply .runStart).1 })
      hrun (TcpListenerBase.accepts_doAccept (l := { s.listener with
        dispatched := s.listener.dispatched - 1 }) hopen')
    exact ⟨[.runStart, .accepted .success socket], t, o₁ ++ o₂,
      runFrom_cons.mpr ⟨_, o₁, o₂, h₁, runFrom_singleton.trans h₂, rfl⟩, Nat.le_refl 2, ht⟩

/-- A request to upgrade `/`. -/
def upgradeRoot (key : Bytes) : Request := { Connection.upgrade (bytes "/") with key }

/-- On an IPv4 endpoint `/` makes a URI. -/
theorem exists_uri (app : App) (key : Bytes) (hB : host.url.Lawful L)
    (h4 : (host.localEndpoint socket).address.isV4 = true) :
    ∃ u, HttpSession.uri (host.env app socket) (upgradeRoot key) = some u ∧
      host.url.path u = bytes "/" := by
  have hB' : (host.env app socket).url.Lawful L := hB
  have huri : ∃ c, Rfc3986.IsUri L (bytes "ws" ++ bytes "://" ++
      (host.localEndpoint socket).address.toString ++ bytes ":" ++
      decimal (host.localEndpoint socket).port.toNat ++ (bytes "/" ++ Rfc3986.tail 0x3F none)) c :=
    (exists_isUri_iff (by decide) rfl (by decide) (by decide)).mpr h4
  rw [Rfc3986.tail, List.append_nil] at huri
  have hsome : (HttpSession.uri (host.env app socket) (upgradeRoot key)).isSome :=
    (hB.parseUri _).mpr huri
  obtain ⟨u, hu⟩ := Option.isSome_iff_exists.mp hsome
  have hpath : host.url.path u = Rfc3986.pctDecode (Rfc3986.pathPart (bytes "/")) :=
    HttpSession.path_uri hB' hu
  exact ⟨u, hu, hpath.trans (by decide)⟩

/-- A socket that waits for its first request is upgraded, and gets a `WebSocketSession`. -/
theorem exists_upgrade (hB : host.url.Lawful L)
    (h4 : (host.localEndpoint socket).address.isV4 = true) (hrun : s.terminated = false)
    (key : Bytes) (hc : s.clients[i]? = some (newClient host app socket)) :
    ∃ t o, step host app s (.http i (.readDone .success (upgradeRoot key)) []) = some (t, o) ∧
      t.world = { s.world with
        sessions := s.world.sessions.insert s.world.next (WebSocketSession.start s.world.next key)
        next := s.world.next + 1 } ∧ t.terminated = false := by
  obtain ⟨u, hu, hpath⟩ := exists_uri app key hB h4
  have hw : (host.env app socket).routeManager.getWSHandler
      (convertVerbBeast (upgradeRoot key).method) (host.url.path u) = some app.handler := by
    have hget : convertVerbBeast .get = .GET := by decide
    have h : (app.routeManager host.paramOrder).getWSHandler .GET (bytes "/") =
        some app.handler := by
      rw [App.getWSHandler_eq, if_pos ⟨rfl, rfl⟩]
    rw [hpath]
    exact hget ▸ h
  have hk := Connection.step_webSocket (k := (newClient host app socket).connection) Nat.one_pos hu
    rfl hw
  exact ⟨_, _, step_http (m := [(.connect key, [])]) hrun hc hk rfl, rfl, rfl⟩

end Server

/-- The accept of a WebSocket succeeds, and its client is registered. -/
theorem World.exists_onConnect (app : App) {w : World} {os : List World.Output} {a : Nat}
    {key : Bytes} (HI : Inv w os)
    (hk : w.sessions.lookup a = some (WebSocketSession.start a key)) :
    ∃ k o, World.step app w (.stream a (.accepted .success)) =
      some ({ w with sessions := w.sessions.insert a k, ctxs := w.ctxs.insert key a }, o) := by
  have hs : ∃ k o, (WebSocketSession.start a key).step (.accepted .success) = some (k, o) :=
    ⟨_, _, WebSocketSession.Stream.step_accepted.mpr ⟨Nat.one_pos, .inr ⟨rfl, rfl, rfl⟩⟩⟩
  obtain ⟨k, o, hs⟩ := hs
  obtain ⟨w', p, h⟩ : ∃ w' p, w.streamStep app.handler a (.accepted .success) = some (w', p) :=
    ⟨_, _, streamStep_eq.mpr ⟨_, k, o, hk, hs, rfl, rfl⟩⟩
  obtain ⟨k₀, k₁, o', hk₀, -, -, hch⟩ := HI.streamChange h
  rw [hk] at hk₀
  cases hk₀
  cases hch with
  | connect => exact ⟨k₁, p, h⟩
  | quiet hacc => exact absurd rfl (hacc .success rfl)

namespace Server

variable {host : Host} {app : App} {s : Server} {es : List Event} {os : List Output}
  {L : Rfc3986.IpLiteral} {socket : Nat}

/-- An event of the world, other than a call of `Send`. -/
theorem step_of_stream {a : Nat} {f : WebSocketSession.Event} {w : World} {p : List World.Output}
    (hrun : s.terminated = false) (hf : isSend f = false)
    (h : World.step app s.world (.stream a f) = some (w, p)) :
    step host app s (.stream a f) = some ({ s with world := w }, [.world (.stream a f) p]) := by
  have hlog : (World.machine app).logged.runFrom s.world [.stream a f] =
      some (w, [(.stream a f, p)]) := runFrom_singleton.trans (logged_step.mpr ⟨p, h, rfl⟩)
  refine step_eq_some.mpr ⟨hrun, ?_⟩
  rw [runOne, if_neg (ne_true_of_eq_false hf)]
  exact worldStep_eq_some.mpr ⟨w, _, hlog, rfl, rfl⟩

/-- From every state that a server can reach and in which it still runs, four steps are enough for
one more client to be registered, under any key: a socket is accepted, its request is an upgrade of
`/`, and the accept of the WebSocket succeeds. Nothing happens to the other sessions. -/
theorem exists_registered (hB : host.url.Lawful L)
    (h4 : (host.localEndpoint socket).address.isV4 = true)
    (hr : (machine host app).run es = some (s, os)) (hrun : s.terminated = false) (key : Bytes) :
    ∃ fs t o, (machine host app).runFrom s fs = some (t, o) ∧ fs.length ≤ 4 ∧
      t.world.ctxs = s.world.ctxs.insert key s.world.next ∧
      (t.world.sessions.lookup s.world.next).isSome ∧
      ∀ b, b ≠ s.world.next → t.world.sessions.lookup b = s.world.sessions.lookup b := by
  obtain ⟨fs, s₁, o₁, hrun₁, hlen, hclients, hw₁, ht₁⟩ := exists_accept hr hrun socket
  have hc : s₁.clients[s.clients.length]? = some (newClient host app socket) := by
    rw [hclients]
    exact List.getElem?_concat_length
  obtain ⟨s₂, o₂, h₂, hw₂, ht₂⟩ := exists_upgrade hB h4 ht₁ key hc
  have hrun₂ : (machine host app).runFrom s (fs ++ [.http s.clients.length
      (.readDone .success (upgradeRoot key)) []]) = some (s₂, o₁ ++ o₂) :=
    runFrom_append.mpr ⟨s₁, o₁, o₂, hrun₁, runFrom_singleton.trans h₂, rfl⟩
  have hworld := run_world (runFrom_append.mpr ⟨s, os, _, hr, hrun₂, rfl⟩)
  rw [hw₁] at hw₂
  have hk : s₂.world.sessions.lookup s.world.next =
      some (WebSocketSession.start s.world.next key) := by
    rw [hw₂]
    exact AList.lookup_insert _
  obtain ⟨k, p, h₃⟩ := World.exists_onConnect app (.of_run hworld) hk
  have h₄ : step host app s₂ (.stream s.world.next (.accepted .success)) = some (_, _) :=
    step_of_stream ht₂ rfl h₃
  have hrun₃ : (machine host app).runFrom s₂ [.stream s.world.next (.accepted .success)] =
    some (_, _) := runFrom_singleton.trans h₄
  refine ⟨_, _, _, runFrom_append.mpr ⟨s₂, _, _, hrun₂, hrun₃, rfl⟩, ?_, ?_, ?_, fun b hb => ?_⟩
  · simp only [List.length_append, List.length_singleton]
    omega
  · rw [hw₂]
  · exact Option.isSome_of_eq_some (AList.lookup_insert _)
  · rw [hw₂]
    exact (AList.lookup_insert_ne hb).trans (AList.lookup_insert_ne hb)

/-- An accept has failed; then one more client is registered. -/
theorem exists_registered_after : ∃ s os fs t o, (machine .loopback .simpleGame).run
    [.runStart, .accepted .success 7, .accepted (.other 24) 0] = some (s, os) ∧
    (machine .loopback .simpleGame).runFrom s fs = some (t, o) ∧ fs.length ≤ 4 ∧
    t.world.ctxs.lookup (bytes "k") = some s.world.next := by
  obtain ⟨s, os, hr, hruns⟩ := exists_run (M := machine .loopback .simpleGame)
    [.runStart, .accepted .success 7, .accepted (.other 24) 0]
    (P := fun s _ => s.terminated = false) (by decide +kernel)
  have h4 : (Host.loopback.localEndpoint 9).address.isV4 = true := rfl
  obtain ⟨fs, t, o, hrun, hlen, hctxs, -⟩ :=
    exists_registered (BoostUrl.ofGrammar_lawful _) h4 hr hruns (bytes "k")
  refine ⟨s, os, fs, t, o, hr, hrun, hlen, ?_⟩
  rw [hctxs]
  exact AList.lookup_insert _

end Server

/-! ## Setting the state -/

namespace World

variable {w w' : World} {body : Bytes} {params : Option Params} {order : List (Bytes × Nat)}

theorem exists_setState_iff : (∃ w' o, step .simpleGame w (.setState body params order) =
    some (w', o)) ↔ order.Perm w.ctxs.toPairs ∧ NoDangling w [] := by
  have hstep : (∃ w' o, step .simpleGame w (.setState body params order) = some (w', o)) ↔
      (step .simpleGame w (.setState body params order)).isSome := by
    rw [Option.isSome_iff_exists, Prod.exists]
  have hnext : (step .simpleGame w (.setState body params order)).isSome ↔
      order.Perm w.ctxs.toPairs ∧
        (broadcast params order { w with state := body }).isSome := by
    by_cases hperm : order.Perm w.ctxs.toPairs
    · simp [step, App.hasSetState, List.isPerm_iff, hperm, setState]
    · simp [step, App.hasSetState, List.isPerm_iff, hperm]
  rw [hstep, hnext, isSome_broadcast_iff]
  refine and_congr_right fun hperm => forall_congr' fun entry => ?_
  rw [hperm.mem_iff]

theorem state_of_setState {o : List Output}
    (h : step .simpleGame w (.setState body params order) = some (w', o)) : w'.state = body := by
  obtain ⟨o', hb, -⟩ := step_setState h
  exact state_broadcast hb

end World

namespace Server

variable {host : Host} {s : Server} {es : List Event} {os : List Output} {i : Nat}
  {request : Request}

/-- A client whose request `POST /test/set_state` can be read. -/
structure Posting (host : Host) (s : Server) (i : Nat) (request : Request) : Prop where
  running : s.terminated = false
  client : ∃ c u, s.clients[i]? = some c ∧ 0 < c.connection.reads ∧
    HttpSession.uri (host.env .simpleGame c.socket) request = some u ∧
    host.url.path u = bytes "/test/set_state"
  method : request.method = .post
  isUpgrade : request.isUpgrade = false

theorem Posting.step_connection (h : Posting host s i request) :
    ∃ c k params message, s.clients[i]? = some c ∧
      c.connection.step (host.env .simpleGame c.socket) (.readDone .success request) =
        some (k, [.invoke .POST (bytes "/test/set_state") request params, .write message]) := by
  obtain ⟨c, u, hc, hpos, hu, hpath⟩ := h.client
  have hmethod : convertVerbBeast request.method = .POST := by
    rw [h.method]
    decide
  have hpath : (host.env .simpleGame c.socket).url.path u = bytes "/test/set_state" := hpath
  have hcb : (host.env .simpleGame c.socket).routeManager.getCallback .POST
      (bytes "/test/set_state") = some TestListener.setState.respond := by
    have h := RouteManagerBase.getCallback_responses (App.simpleGame.routeManager host.paramOrder)
      .POST (bytes "/test/set_state")
    rw [getCallback_setState] at h
    exact h
  rw [← hmethod, ← hpath] at hcb
  obtain ⟨k, hk⟩ := Connection.step_callback hpos hu h.isUpgrade hcb rfl
  rw [hmethod, hpath] at hk
  exact ⟨c, k, _, _, hc, hk⟩

/-- The request is answered if the loop of `set_state` meets the entries of the registry, and none
of them dangles. -/
theorem Posting.exists_step_iff (h : Posting host s i request) (order : List (Bytes × Nat)) :
    (∃ t o, step host .simpleGame s (.http i (.readDone .success request) order) = some (t, o) ∧
      ∃ params, .http i (.invoke .POST (bytes "/test/set_state") request params) ∈ o) ↔
        order.Perm s.world.ctxs.toPairs ∧ s.world.NoDangling [] := by
  obtain ⟨c, k, params, message, hc, hk⟩ := h.step_connection
  have heffect : effect host .simpleGame order
      (.invoke .POST (bytes "/test/set_state") request params) =
        some (.setState request.body params order) :=
    effect_invoke.mpr ⟨_, getCallback_setState, rfl⟩
  have hworld : (∃ w m, (World.machine .simpleGame).logged.runFrom s.world
      [.setState request.body params order] = some (w, m)) ↔
        order.Perm s.world.ctxs.toPairs ∧ s.world.NoDangling [] := by
    rw [← World.exists_setState_iff]
    simp only [runFrom_singleton, logged_step]
    exact exists_congr fun w => ⟨fun ⟨_, o, h, _⟩ => ⟨o, h⟩, fun ⟨o, h⟩ => ⟨_, o, h, rfl⟩⟩
  rw [← hworld]
  constructor
  · rintro ⟨t, o, hs, -⟩
    obtain ⟨-, hs⟩ := step_eq_some.mp hs
    obtain ⟨c', k', p, w, m, hc', hk', hw, -⟩ := httpStep_eq_some.mp hs
    rw [hc] at hc'
    cases hc'
    rw [hk] at hk'
    cases hk'
    rw [List.filterMap_cons, heffect] at hw
    exact ⟨w, m, hw⟩
  · rintro ⟨w, m, hw⟩
    have hw : (World.machine .simpleGame).logged.runFrom s.world
        (List.filterMap (effect host .simpleGame order)
          [.invoke .POST (bytes "/test/set_state") request params, .write message]) =
            some (w, m) := by
      rw [List.filterMap_cons, heffect]
      exact hw
    exact ⟨_, _, step_http h.running hc hk hw, params,
      List.mem_append_left _ List.mem_cons_self⟩

/-- In every run in which no registered WebSocket session ends otherwise than by a close of the
peer, a `POST /test/set_state` that comes in is answered, and sets the state, in whatever order the
loop meets the entries of the registry. -/
theorem exists_setState (hr : (machine host .simpleGame).run es = some (s, os))
    (hC : (World.machine .simpleGame).Along World.NoAbruptEnd (worldEvents os))
    (h : Posting host s i request) {order : List (Bytes × Nat)}
    (horder : order.Perm s.world.ctxs.toPairs) :
    ∃ t o message, step host .simpleGame s (.http i (.readDone .success request) order) =
      some (t, o) ∧ t.world.state = request.body ∧ .http i (.write message) ∈ o ∧
        message.result = 200 ∧ message.body = bytes "Setting state to: \n" ++ request.body := by
  have hno : s.world.NoDangling [] := World.AllReading.noDangling
    (World.AllReading.always (run_world hr) hC _ (List.prefix_refl _) _ _ (run_world hr))
  obtain ⟨t, o, hs, params, hm⟩ := (h.exists_step_iff order).mpr ⟨horder, hno⟩
  obtain ⟨⟨order', hevents⟩, message, hmessage⟩ := setState_of_step hs hm
  refine ⟨t, o, message, hs, ?_, hmessage⟩
  have hw := step_world hs
  rw [hevents, runFrom_singleton] at hw
  exact World.state_of_setState hw

/-- A client opens a WebSocket, and another one sets the state. -/
theorem exists_setState_one : ∃ s os t o message, (machine .loopback .simpleGame).run
    [.runStart, .accepted .success 7, .accepted .success 9,
      .http 0 (.readDone .success { Connection.upgrade (bytes "/") with key := bytes "k" }) [],
      .stream 0 (.accepted .success)] = some (s, os) ∧
    step .loopback .simpleGame s (.http 1 (.readDone .success (post (bytes "on")))
      [(bytes "k", 0)]) = some (t, o) ∧
    t.world.state = bytes "on" ∧ .http 1 (.write message) ∈ o ∧ message.result = 200 := by
  obtain ⟨s, os, hr, hC, hperm, hruns, hc⟩ := exists_run (M := machine .loopback .simpleGame)
    [.runStart, .accepted .success 7, .accepted .success 9,
      .http 0 (.readDone .success { Connection.upgrade (bytes "/") with key := bytes "k" }) [],
      .stream 0 (.accepted .success)]
    (P := fun s os => (World.machine .simpleGame).Along World.NoAbruptEnd (worldEvents os) ∧
      List.Perm [(bytes "k", 0)] s.world.ctxs.toPairs ∧ s.terminated = false ∧
      s.clients[1]?.any fun c => 0 < c.connection.reads ∧
        (HttpSession.uri (Host.loopback.env .simpleGame c.socket) (post (bytes "on"))).any fun u =>
          Host.loopback.url.path u = bytes "/test/set_state") (by decide +kernel)
  obtain ⟨c, hc, h⟩ := Option.any_eq_true _ _ |>.mp hc
  obtain ⟨hpos, h⟩ := of_decide_eq_true h
  obtain ⟨u, hu, hpath⟩ := Option.any_eq_true _ _ |>.mp h
  have hposting : Posting .loopback s 1 (post (bytes "on")) :=
    ⟨hruns, ⟨c, u, hc, hpos, hu, of_decide_eq_true hpath⟩, rfl, rfl⟩
  obtain ⟨t, o, message, hs, hstate, hm, hresult, -⟩ := exists_setState hr hC hposting hperm
  exact ⟨s, os, t, o, message, hr, hs, hstate, hm, hresult⟩

end Server

end TheGame
