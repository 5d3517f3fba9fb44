import TheGame.Apps.Components
import TheGame.Apps.Sessions
import TheGame.Networking.Http.Outcome

/-!
# The WebSocket sessions of a server

A `WebSocketSession` is made where an accepted socket is upgraded, and nowhere else. The session at
address `a` belongs to the `a`-th upgrade of the server, and a socket is upgraded only once, as it
is released then.
-/

namespace TheGame
open Mealy

namespace Connection
open HttpSession (uri)

variable {H : Type*} {env : HttpEnv H} {k k' : Connection} {e : Event} {es : List Event}
  {o os : List (Output H)} {path : Path} {request : Request} {params : Option Params} {handler : H}

/-- An upgrade has the handler that is registered for the path of its target. -/
theorem webSocket_of_step (h : k.step env e = some (k', o))
    (hm : .webSocket path request params handler ∈ o) :
    request.isUpgrade = true ∧ request.method = .get ∧
      env.routeManager.wsHandlers.lookup path = some handler := by
  cases change_of_step h with
  | @webSocket r _ _ _ hpos hup =>
    cases List.mem_singleton.mp hm
    obtain ⟨u, hu⟩ := Option.isSome_iff_exists.mp (HttpSession.parses_of_upgrades hup)
    obtain ⟨hout, -⟩ := outcome_of_readDone hu h
    cases hout with
    | webSocket hi hget hreg => exact ⟨hi, hget, hreg⟩
  | respond hpos hup hcalls =>
    rcases List.mem_append.mp hm with hm | hm
    · cases hcalls with
      | nothing => cases hm
      | callback => cases List.mem_singleton.mp hm
    · cases List.mem_singleton.mp hm
  | endOfStream | readFailed | fault | transmit | written | closing | writeFailed =>
    simp at hm

/-- A connection is upgraded once, and its socket is released then. -/
theorem countP_isWebSocket (hr : (machine env).run es = some (k, os)) :
    os.countP isWebSocket = k.released.toNat := by
  refine run_induction (P := fun _ k os => os.countP isWebSocket = k.released.toNat) rfl ?_ hr
  intro es k os e k' o hr ih hs
  have H : Inv k os := Inv.of_run hr
  rw [List.countP_append, ih]
  cases change_of_step hs with
  | webSocket hpos hup => rw [H.not_released hpos]; rfl
  | @respond _ message calls hpos hup hcalls =>
    have hnone : (calls ++ [Output.write message]).countP isWebSocket = 0 := by
      cases hcalls <;> rfl
    rw [hnone]
    rfl
  | endOfStream | readFailed | fault | transmit | written | closing | writeFailed => rfl

theorem webSocket_of_run (hr : (machine env).run es = some (k, os))
    (hm : .webSocket path request params handler ∈ os) :
    request.isUpgrade = true ∧ request.method = .get ∧
      env.routeManager.wsHandlers.lookup path = some handler := by
  revert hm
  refine run_induction (P := fun _ _ os => .webSocket path request params handler ∈ os → _)
    nofun ?_ hr
  intro es k os e k' o hr ih hs hm
  exact (List.mem_append.mp hm).elim ih (webSocket_of_step hs)

end Connection

namespace World

variable {app : App} {w w' : World} {a : Nat} {k' : WebSocketSession.Stream} {e : Event}
  {es : List Event} {o os : List Output} {l : List (Event × List Output)}

theorem step_key (hr : (machine app).logged.run es = some (w, l))
    (hs : step app w e = some (w', o)) (hk' : w'.sessions.lookup a = some k') :
    (∃ k, w.sessions.lookup a = some k ∧ k'.session.key = k.session.key) ∨
      e = .connect k'.session.key ∧ a = w.next := by
  obtain ⟨k, hk, hrun⟩ | ⟨⟨-, he, ha⟩, -⟩ := step_own hr hs hk'
  · exact .inl ⟨k, hk, (Inv.of_run (run_of_logged hr)).key_eq hk hrun⟩
  · exact .inr ⟨he, ha⟩

/-- The session at address `a` is that of the `a`-th client that has connected. -/
theorem keys_of_run (hr : (machine app).run es = some (w, os)) :
    w.next = (connects es).length ∧ ∀ a k, w.sessions.lookup a = some k →
      (connects es)[a]? = some k.session.key := by
  obtain ⟨l, hl, -⟩ := exists_log hr
  refine logged_induction (P := fun es w _ => w.next = (connects es).length ∧
    ∀ a k, w.sessions.lookup a = some k → (connects es)[a]? = some k.session.key)
    ⟨rfl, fun a k h => by simp [machine] at h⟩ ?_ hl
  rintro es w l e w' o hr ⟨hnext, hkeys⟩ hs
  have happ : connects (es ++ [e]) = connects es ++ connects [e] := List.filterMap_append
  rw [happ, List.length_append, ← hnext]
  refine ⟨next_eq (Inv.of_run (run_of_logged hr)) hs, fun a k' hk' => ?_⟩
  obtain ⟨k, hk, hkey⟩ | ⟨rfl, rfl⟩ := step_key hr hs hk'
  · have hold := hkeys a k hk
    rw [List.getElem?_append_left (List.getElem?_eq_some_iff.mp hold).1, hold, hkey]
  · rw [hnext]
    exact List.getElem?_concat_length

end World

namespace Server

variable {host : Host} {app : App} {s : Server} {es : List Event} {o os : List Output} {i : Nat}

/-- The request to upgrade. -/
def upgraded : Connection.Output (WSHandler World) → Option Request
  | .webSocket _ request _ _ => some request
  | _ => none

/-- The upgrades, each with the number of its socket. -/
def upgrades (os : List Output) : List (Nat × Request) :=
  os.filterMap fun
    | .http i x => (upgraded x).map fun request => (i, request)
    | _ => none

theorem upgrades_append : upgrades (os ++ o) = upgrades os ++ upgrades o := List.filterMap_append

/-- A callback does not connect anybody. -/
theorem event_ne_connect {m : HttpMethod} {path : Path} {callback : ListenerCallback}
    {request : Request} {params : Option Params} {order : List (Bytes × Nat)} {key : Bytes}
    (h : (app.routeManager host.paramOrder).getCallback m path = some callback) :
    callback.event request params order ≠ some (.connect key) := by
  cases app with
  | simpleServer =>
    rw [App.getCallback_simpleServer] at h
    cases h
  | simpleGame =>
    rw [App.getCallback_simpleGame] at h
    split at h
    · cases h
      exact nofun
    split at h
    · cases h
      exact nofun
    · cases h

/-- The clients that connect are those that are upgraded. -/
theorem run_connects (hr : (machine host app).run es = some (s, os)) :
    World.connects (worldEvents os) = (upgrades os).map (·.2.key) := by
  rw [upgrades, List.map_filterMap, World.connects]
  refine (filterMap_worldEvents _ (fun x => (upgraded x).map (·.key)) ?_ ?_ hr).trans
    (List.filterMap_congr fun x _ => ?_)
  · intro e f he
    cases e with
    | stream | timer =>
      cases he
      rfl
    | runStart | accepted | http => cases he
  · intro order x
    cases x with
    | invoke method path request params =>
      refine Option.bind_eq_none_iff.mpr fun f hf => ?_
      obtain ⟨callback, hcb, hev⟩ := effect_invoke.mp hf
      cases f with
      | connect key => exact absurd hev (event_ne_connect hcb)
      | stream | setState | timer => rfl
    | webSocket | sent | write | shutdown | fail | fault => rfl
  · cases x with
    | http i y => cases y <;> rfl
    | listener | world => rfl

theorem count_upgrades :
    ((upgrades os).map Prod.fst).count i = (clientOutputs i os).countP Connection.isWebSocket := by
  induction os with
  | nil => rfl
  | cons x os ih =>
    have hup : upgrades ([x] ++ os) = upgrades [x] ++ upgrades os := upgrades_append
    have hout : clientOutputs i ([x] ++ os) = clientOutputs i [x] ++ clientOutputs i os :=
      clientOutputs_append
    rw [← List.singleton_append, hup, hout, List.map_append, List.count_append,
      List.countP_append, ih]
    congr 1
    cases x with
    | http j z =>
      by_cases hj : j = i <;> cases z <;>
        simp [upgrades, upgraded, clientOutputs, hj, Connection.isWebSocket]
    | listener | world => rfl

theorem exists_client {x : Connection.Output (WSHandler World)}
    (hr : (machine host app).run es = some (s, os)) (hx : .http i x ∈ os) :
    ∃ c, s.clients[i]? = some c := by
  obtain ⟨l, hl, rfl⟩ := exists_log hr
  obtain ⟨y, hy, hxy⟩ := List.mem_flatMap.mp hx
  rcases Nat.lt_or_ge i s.clients.length with hi | hi
  · exact ⟨_, List.getElem?_eq_getElem hi⟩
  · have hx := mem_clientOutputs.mpr hxy
    rw [(unused hl i hi y hy).2] at hx
    cases hx

theorem countP_clientOutputs_le (hr : (machine host app).run es = some (s, os)) :
    (clientOutputs i os).countP Connection.isWebSocket ≤ 1 := by
  cases hc : s.clients[i]? with
  | some c =>
    rw [Connection.countP_isWebSocket (run_client hr hc)]
    exact Bool.toNat_le _
  | none =>
    rw [List.countP_eq_zero.mpr fun x hx => ?_]
    · exact Nat.zero_le _
    · obtain ⟨c, hc'⟩ := exists_client hr (mem_clientOutputs.mp hx)
      rw [hc] at hc'
      cases hc'

/-- The only WebSocket handler of a listener. -/
theorem wsHandlers_lookup {socket : Nat} {path : Path} {handler : WSHandler World}
    (h : (host.env app socket).routeManager.wsHandlers.lookup path = some handler) :
    path = bytes "/" ∧ handler = app.handler := by
  have hget : (app.routeManager host.paramOrder).getWSHandler .GET path = some handler := h
  rw [App.getWSHandler_eq] at hget
  split at hget
  · rename_i hpath
    cases hget
    exact ⟨hpath.2, rfl⟩
  · cases hget

/-- In every run of a server, the `WebSocketSession`s and the upgrades of accepted sockets agree:
the session at address `a` has the key of the `a`-th upgrade, each socket is upgraded at most once
and not read any more, and only a `GET` with the path `/` is an upgrade, to the handler of the
listener. -/
theorem session_of_upgrade (hr : (machine host app).run es = some (s, os)) :
    s.world.next = (upgrades os).length ∧
      (∀ a k, s.world.sessions.lookup a = some k →
        ∃ i r, (upgrades os)[a]? = some (i, r) ∧ r.key = k.session.key) ∧
      ((upgrades os).map Prod.fst).Nodup ∧
      ∀ i path r params handler, .http i (.webSocket path r params handler) ∈ os →
        (r.isUpgrade = true ∧ r.method = .get ∧ path = bytes "/" ∧ handler = app.handler) ∧
        ∃ c, s.clients[i]? = some c ∧ c.connection.released = true ∧ c.connection.reads = 0 := by
  obtain ⟨hnext, hkeys⟩ := World.keys_of_run (run_world hr)
  rw [run_connects hr] at hnext hkeys
  refine ⟨hnext.trans (List.length_map ..), fun a k hk => ?_, ?_, ?_⟩
  · have hkey := hkeys a k hk
    rw [List.getElem?_map, Option.map_eq_some_iff] at hkey
    obtain ⟨⟨i, r⟩, hi, hr⟩ := hkey
    exact ⟨i, r, hi, hr⟩
  · refine List.nodup_iff_count_le_one.mpr fun i => ?_
    rw [count_upgrades]
    exact countP_clientOutputs_le hr
  · intro i path r params handler hx
    obtain ⟨c, hc⟩ := exists_client hr hx
    have hrun := run_client hr hc
    have hx := mem_clientOutputs.mpr hx
    obtain ⟨hup, hget, hreg⟩ := Connection.webSocket_of_run hrun hx
    have hcount := Connection.countP_isWebSocket hrun
    have hpos : 0 < (clientOutputs i os).countP Connection.isWebSocket :=
      List.countP_pos_iff.mpr ⟨_, hx, rfl⟩
    have hreleased : c.connection.released = true := by
      rw [hcount] at hpos
      exact Bool.toNat_eq_one.mp (Nat.le_antisymm (Bool.toNat_le _) hpos)
    exact ⟨⟨hup, hget, wsHandlers_lookup hreg⟩, c, hc, hreleased,
      (Connection.Inv.of_run hrun).released hreleased⟩

/-- Two clients connect, and the second one opens a WebSocket. -/
theorem session_of_upgrade_second : ∃ s os, (machine .loopback .simpleGame).run
    [.runStart, .accepted .success 7, .accepted .success 9,
      .http 1 (.readDone .success { Connection.upgrade (bytes "/") with key := bytes "k" }) []] =
      some (s, os) ∧ (s.world.sessions.lookup 0).isSome ∧ s.world.next = 1 ∧
    (upgrades os).length = 1 ∧ ((upgrades os).map Prod.fst).Nodup := by
  obtain ⟨s, os, hr, hs, hn⟩ := exists_run (M := machine .loopback .simpleGame)
    [.runStart, .accepted .success 7, .accepted .success 9,
      .http 1 (.readDone .success { Connection.upgrade (bytes "/") with key := bytes "k" }) []]
    (P := fun s _ => (s.world.sessions.lookup 0).isSome ∧ s.world.next = 1) (by decide +kernel)
  obtain ⟨hnext, -, hnodup, -⟩ := session_of_upgrade hr
  exact ⟨s, os, hr, hs, hn, hnext ▸ hn, hnodup⟩

end Server

end TheGame
