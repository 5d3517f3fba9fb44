import TheGame.Apps.Components
import TheGame.Apps.Freshness
import TheGame.Networking.Http.Outcome

/-!
# `POST /test/set_state`, from the request to the clients

The state of a `TestListener` is the body of the last `POST /test/set_state` that a client of the
server has sent, and what is sent to the WebSocket clients on its behalf is the body of one of them.
The client that sent it gets the answer, and every registered session gets the state.
-/

namespace TheGame
open Mealy

namespace Connection
open HttpSession (freshResponse)

variable {H : Type*} {env : HttpEnv H} {k k' : Connection} {e : Event} {o : List (Output H)}
  {method : HttpMethod} {path : Path} {request : Request} {params : Option Params}

/-- A callback is called, and the response that it makes is written. -/
theorem invoke_of_step (h : k.step env e = some (k', o))
    (hm : .invoke method path request params ∈ o) :
    ∃ cb, env.routeManager.getCallback method path = some cb ∧
      o = [.invoke method path request params,
        .write (cb request params (freshResponse request)).preparePayload] := by
  cases change_of_step h with
  | @respond r message calls hpos hup hcalls =>
    cases hcalls with
    | nothing => cases List.mem_singleton.mp hm
    | callback hcall =>
      obtain ⟨u, hu⟩ := Option.isSome_iff_exists.mp (HttpSession.parses_of_calls hcall)
      obtain ⟨hout, -⟩ := outcome_of_readDone hu h
      generalize hx : [Output.invoke _ _ r _] ++ [.write message] = x at hm hout
      cases hout with
      | webSocket => simp at hm
      | notFound => simp at hm
      | callback hi hreg =>
        rcases List.mem_cons.mp hm with hm | hm
        · cases hm
          exact ⟨_, hreg, rfl⟩
        · cases List.mem_singleton.mp hm
  | endOfStream | readFailed | webSocket | fault | transmit | written | closing | writeFailed =>
    simp at hm

end Connection

namespace World

/-- The state that is set. -/
def Event.body : Event → Option Bytes
  | .setState body _ _ => some body
  | _ => none

/-- The states that are set. -/
def bodies (es : List Event) : List Bytes := es.filterMap Event.body

variable {w w' : World} {app : App} {e : Event} {es fs : List Event} {o os : List Output}
  {a : Nat} {body data : Bytes} {params : Option Params} {order : List (Bytes × Nat)}

@[simp] theorem bodies_append : bodies (es ++ fs) = bodies es ++ bodies fs := List.filterMap_append

theorem state_broadcast (h : broadcast params order w = some (w', o)) : w'.state = w.state :=
  broadcast_induction (P := fun v => v.state = w.state) (fun _ _ _ h => send_state.trans h)
    (fun _ _ h => h) h rfl

/-- The loop of `set_state` sends the state. -/
theorem eq_state_of_broadcast (h : broadcast params order w = some (w', o))
    (hm : .broadcast a data ∈ o) : data = w.state := by
  induction order generalizing w o with
  | nil =>
    cases h
    cases hm
  | cons entry rest ih =>
    obtain ⟨_, v, u, o', -, rfl, hrest, hv⟩ := broadcast_cons h
    obtain ⟨-, rfl, rfl⟩ | ⟨d, -, ⟨n, rfl, rfl⟩ | ⟨rfl, rfl⟩⟩ := hv
    · exact ih hrest hm
    · have := ih hrest hm
      exact this
    · rcases List.mem_append.mp hm with hm | hm
      · cases List.mem_singleton.mp hm
        rfl
      · exact (ih hrest hm).trans send_state

/-- What holds of the state of a listener, and of what is sent on behalf of `set_state`. -/
structure Posted (es : List Event) (w : World) (os : List Output) : Prop where
  state : w.state = (bodies es).getLast?.getD []
  timers : w.timers ≠ [] → bodies es ≠ []
  sent : ∀ a data, .broadcast a data ∈ os → data ∈ bodies es

namespace Posted

/-- An event that sets no state. -/
theorem quiet (H : Posted es w os) (he : e.body = none) (hs : w'.state = w.state)
    (ht : w'.timers ≠ [] → w.timers ≠ [])
    (hsent : ∀ a data, .broadcast a data ∈ o → data = w.state ∧ w.timers ≠ []) :
    Posted (es ++ [e]) w' (os ++ o) := by
  have hb : bodies (es ++ [e]) = bodies es := by
    simp [bodies, List.filterMap_append, he]
  refine ⟨?_, ?_, ?_⟩ <;> rw [hb]
  · exact hs.trans H.state
  · exact fun h => H.timers (ht h)
  · intro a data hm
    rcases List.mem_append.mp hm with hm | hm
    · exact H.sent a data hm
    · -- a timer sends the state, which has been set before the timer was started
      obtain ⟨rfl, htimers⟩ := hsent a data hm
      have hne := H.timers htimers
      rw [H.state, List.getLast?_eq_some_getLast hne, Option.getD_some]
      exact List.getLast_mem hne

theorem setState (H : Posted es w os)
    (h : World.step app w (.setState body params order) = some (w', o)) :
    Posted (es ++ [.setState body params order]) w' (os ++ o) := by
  simp only [World.step] at h
  split at h
  · simp only [World.setState, Option.map_eq_some_iff, Prod.mk.injEq, Prod.exists] at h
    obtain ⟨_, o', h, rfl, rfl⟩ := h
    have hb : bodies (es ++ [.setState body params order]) = bodies es ++ [body] :=
      bodies_append
    refine ⟨?_, fun _ => ?_, fun a data hm => ?_⟩ <;> rw [hb]
    · rw [state_broadcast h, List.getLast?_concat]
      rfl
    · exact List.append_ne_nil_of_right_ne_nil _ (List.cons_ne_nil _ _)
    · rcases List.mem_append.mp hm with hm | hm
      · exact List.mem_append_left _ (H.sent a data hm)
      · rcases List.mem_cons.mp hm with hm | hm
        · cases hm
        · rw [eq_state_of_broadcast h hm]
          exact List.mem_append_right _ (List.mem_singleton_self _)
  · cases h

theorem step (H : Posted es w os) (h : World.step app w e = some (w', o)) :
    Posted (es ++ [e]) w' (os ++ o) := by
  cases e with
  | connect key =>
    cases h
    exact H.quiet rfl rfl id nofun
  | stream b e =>
    obtain ⟨hs, ht, -⟩ := streamStep_frame h
    obtain ⟨k, k', o', -, -, rfl, -⟩ := streamStep_eq.mp h
    refine H.quiet rfl hs (ht ▸ id) fun a data hm => ?_
    simp at hm
  | setState body params order => exact H.setState h
  | timer i =>
    simp only [World.step, timerStep] at h
    split at h
    · cases h
    rename_i t ht
    cases h
    have hne : w.timers ≠ [] := List.ne_nil_of_mem (List.mem_of_getElem? ht)
    refine H.quiet rfl send_state (fun _ => hne) fun a data hm => ?_
    cases List.mem_singleton.mp hm
    exact ⟨rfl, hne⟩

theorem of_run (hr : (machine app).run es = some (w, os)) : Posted es w os := by
  refine run_induction (P := fun es w os => Posted es w os) ?_ ?_ hr
  · refine ⟨rfl, fun h => absurd rfl h, fun a data hm => ?_⟩
    cases hm
  · intro es w os e w' o hr H hs
    exact H.step hs

end Posted

end World

namespace Server

/-- The request with which the callback of `POST /test/set_state` is called. -/
def posted : Connection.Output (WSHandler World) → Option Request
  | .invoke method path request _ =>
    if method = .POST ∧ path = bytes "/test/set_state" then some request else none
  | _ => none

/-- The requests with which the callback of `POST /test/set_state` is called. -/
def posts (os : List Output) : List Request :=
  os.filterMap fun
    | .http _ x => posted x
    | _ => none

/-- A request `POST /test/set_state`. -/
def post (body : Bytes) : Request :=
  { Connection.get (bytes "/test/set_state") true with method := .post, body }

variable {host : Host} {s s₀ s₁ t : Server} {e : Event} {es fs gs : List Event}
  {o o₁ os os₀ : List Output} {i : Nat} {request : Request} {params : Option Params}

theorem posts_append : posts (os ++ o) = posts os ++ posts o := List.filterMap_append

theorem mem_posts : request ∈ posts os ↔
    ∃ i params, .http i (.invoke .POST (bytes "/test/set_state") request params) ∈ os := by
  rw [posts, List.mem_filterMap]
  constructor
  · rintro ⟨x, hx, hposted⟩
    cases x with
    | http i y =>
      cases y with
      | invoke method path r params =>
        obtain ⟨⟨rfl, rfl⟩, h⟩ := Option.ite_none_right_eq_some.mp hposted
        cases h
        exact ⟨i, params, hx⟩
      | webSocket | sent | write | shutdown | fail | fault => cases hposted
    | listener | world => cases hposted
  · rintro ⟨i, params, hx⟩
    refine ⟨_, hx, ?_⟩
    change posted (.invoke .POST (bytes "/test/set_state") request params) = some request
    rw [posted, if_pos ⟨rfl, rfl⟩]

theorem getCallback_setState {po : ParamOrder} : (App.simpleGame.routeManager po).getCallback .POST
    (bytes "/test/set_state") = some TestListener.setState := by
  rw [App.getCallback_simpleGame, if_neg (fun h => by cases h.1), if_pos ⟨rfl, rfl⟩]

/-- The states that are set are the bodies of the requests. -/
theorem bodies_worldEvents (hr : (machine host .simpleGame).runFrom s es = some (t, os)) :
    World.bodies (worldEvents os) = (posts os).map (·.body) := by
  rw [posts, List.map_filterMap, World.bodies]
  refine (filterMap_worldEvents _ (fun x => (posted x).map (·.body)) ?_ ?_ hr).trans
    (List.filterMap_congr fun x _ => ?_)
  · intro e f he
    cases e with
    | stream | timer =>
      cases he
      rfl
    | runStart | accepted | http => cases he
  · intro order x
    cases x with
    | invoke method path request params =>
      rw [effect, App.getCallback_simpleGame]
      by_cases h₁ : method = .GET ∧ path = bytes "/test"
      · obtain ⟨rfl, rfl⟩ := h₁
        rfl
      by_cases h₂ : method = .POST ∧ path = bytes "/test/set_state"
      · rw [if_neg h₁, if_pos h₂, posted, if_pos h₂]
        rfl
      · rw [if_neg h₁, if_neg h₂, posted, if_neg h₂]
        rfl
    | webSocket | sent | write | shutdown | fail | fault => rfl
  · cases x with
    | http i y => cases y <;> rfl
    | listener | world => rfl

/-- In every run of a server, the state is the body of the last `POST /test/set_state`, and every
string that is sent on behalf of `set_state` is the body of one of them. -/
theorem state_of_posts (hr : (machine host .simpleGame).run es = some (s, os)) :
    s.world.state = ((posts os).map (·.body)).getLast?.getD [] ∧
      ∀ a data, .broadcast a data ∈ worldOutputs os →
        ∃ request ∈ posts os, request.body = data := by
  have H := World.Posted.of_run (run_world hr)
  have hb := bodies_worldEvents hr
  refine ⟨hb ▸ H.state, fun a data hm => ?_⟩
  have hmem := H.sent a data hm
  rw [hb] at hmem
  exact List.mem_map.mp hmem

/-- The state is set twice. -/
theorem state_of_posts_twice : ∃ s os, (machine .loopback .simpleGame).run
    [.runStart, .accepted .success 7, .http 0 (.readDone .success (post (bytes "on"))) [],
      .http 0 (.readDone .success (post (bytes "off"))) []] = some (s, os) ∧
    s.world.state = bytes "off" ∧
    s.world.state = ((posts os).map (·.body)).getLast?.getD [] := by
  obtain ⟨s, os, hr, hs⟩ := exists_run (M := machine .loopback .simpleGame)
    [.runStart, .accepted .success 7, .http 0 (.readDone .success (post (bytes "on"))) [],
      .http 0 (.readDone .success (post (bytes "off"))) []]
    (P := fun s _ => s.world.state = bytes "off") (by decide +kernel)
  exact ⟨s, os, hr, hs, (state_of_posts hr).1⟩

/-- A `POST /test/set_state` sets the state, and is answered. -/
theorem setState_of_step (h : step host .simpleGame s e = some (t, o))
    (hm : .http i (.invoke .POST (bytes "/test/set_state") request params) ∈ o) :
    (∃ order, worldEvents o = [.setState request.body params order]) ∧
      ∃ message, .http i (.write message) ∈ o ∧ message.result = 200 ∧
        message.body = bytes "Setting state to: \n" ++ request.body := by
  cases change_of_step h with
  | listener => simp at hm
  | world => simp at hm
  | @http j f order c k p w m hc hs hw =>
    have hp : i = j ∧ .invoke .POST (bytes "/test/set_state") request params ∈ p := by
      simpa [eq_comm, and_comm] using hm
    obtain ⟨rfl, hp⟩ := hp
    obtain ⟨cb, hcb, rfl⟩ := Connection.invoke_of_step hs hp
    have hcb : (App.simpleGame.routeManager host.paramOrder).responses.getCallback .POST
      (bytes "/test/set_state") = some cb := hcb
    rw [RouteManagerBase.getCallback_responses, getCallback_setState] at hcb
    cases hcb
    refine ⟨⟨order, ?_⟩, _, List.mem_append_left _ (List.mem_map.mpr
      ⟨_, List.mem_cons_of_mem _ (List.mem_singleton_self _), rfl⟩), rfl, rfl⟩
    have heffect : effect host .simpleGame order
        (.invoke .POST (bytes "/test/set_state") request params) =
          some (.setState request.body params order) :=
      effect_invoke.mpr ⟨_, getCallback_setState, rfl⟩
    rw [worldEvents_append, worldEvents_http, worldEvents_log, (runFrom_of_logged hw).2,
      List.filterMap_cons, heffect]
    rfl

/-- After a `POST /test/set_state`, and as long as there is no other one, the state is the body of
the request, and every WebSocket client that was registered has a delayed send pending or has last
been sent the body; the client of the request has been answered. -/
theorem setState_reaches (h₀ : (machine host .simpleGame).run fs = some (s₀, os₀))
    (hs : step host .simpleGame s₀ e = some (s₁, o₁))
    (hm : .http i (.invoke .POST (bytes "/test/set_state") request params) ∈ o₁)
    (hrest : (machine host .simpleGame).runFrom s₁ gs = some (s, os)) (hlast : posts os = []) :
    s.world.state = request.body ∧
      (∃ message, .http i (.write message) ∈ o₁ ∧ message.result = 200 ∧
        message.body = bytes "Setting state to: \n" ++ request.body) ∧
      ∀ a, World.Registered s₀.world a →
        World.UpToDate a s.world (worldOutputs (os₀ ++ o₁ ++ os)) := by
  obtain ⟨⟨order, horder⟩, hanswer⟩ := setState_of_step hs hm
  have hw₀ := run_world h₀
  have hw₁ := step_world hs
  rw [horder, runFrom_singleton] at hw₁
  have hnone : ∀ f ∈ worldEvents os, f.isSetState = false := by
    intro f hf
    have hb := bodies_worldEvents hrest
    rw [hlast] at hb
    have := List.filterMap_eq_nil_iff.mp hb f hf
    cases f <;> first | rfl | cases this
  refine ⟨?_, hanswer, fun a ha => ?_⟩
  · have hr : (machine host .simpleGame).run (fs ++ e :: gs) = some (s, os₀ ++ (o₁ ++ os)) :=
      runFrom_append.mpr ⟨s₀, os₀, _, h₀, runFrom_cons.mpr ⟨s₁, o₁, os, hs, hrest, rfl⟩, rfl⟩
    have hb₁ : (posts o₁).map (·.body) = [request.body] := by
      have hrun₁ : (machine host .simpleGame).runFrom s₀ [e] = some (s₁, o₁) :=
        runFrom_singleton.trans hs
      rw [← bodies_worldEvents hrun₁, horder]
      rfl
    rw [(state_of_posts hr).1, posts_append, posts_append, hlast, List.append_nil, List.map_append,
      hb₁, List.getLast?_concat]
    rfl
  · have H := (World.upToDate_setState (.of_run hw₀) (.of_run hw₀) ha hw₁).1
    rw [worldOutputs_append, worldOutputs_append]
    exact (H.runFrom (runFrom_world hrest) hnone).1

/-- A client opens a WebSocket, another one sets the state; then a third one connects. -/
theorem setState_reaches_one : ∃ s₀ os₀ s₁ o₁ s os, (machine .loopback .simpleGame).run
    [.runStart, .accepted .success 7, .accepted .success 9,
      .http 0 (.readDone .success { Connection.upgrade (bytes "/") with key := bytes "k" }) [],
      .stream 0 (.accepted .success)] = some (s₀, os₀) ∧
    step .loopback .simpleGame s₀ (.http 1 (.readDone .success (post (bytes "on")))
      [(bytes "k", 0)]) = some (s₁, o₁) ∧
    (machine .loopback .simpleGame).runFrom s₁ [.accepted .success 4] = some (s, os) ∧
    s.world.state = bytes "on" ∧ World.UpToDate 0 s.world (worldOutputs (os₀ ++ o₁ ++ os)) := by
  obtain ⟨s₀, os₀, h₀, ha, h⟩ := exists_run (M := machine .loopback .simpleGame)
    [.runStart, .accepted .success 7, .accepted .success 9,
      .http 0 (.readDone .success { Connection.upgrade (bytes "/") with key := bytes "k" }) [],
      .stream 0 (.accepted .success)]
    (P := fun s₀ _ => World.Registered s₀.world 0 ∧
      (step .loopback .simpleGame s₀ (.http 1 (.readDone .success (post (bytes "on")))
        [(bytes "k", 0)])).any fun r =>
          post (bytes "on") ∈ posts r.2 ∧
          ((machine .loopback .simpleGame).runFrom r.1 [.accepted .success 4]).any fun u =>
            posts u.2 = []) (by decide +kernel)
  obtain ⟨⟨s₁, o₁⟩, hs, h⟩ := Option.any_eq_true _ _ |>.mp h
  obtain ⟨hm, h⟩ := of_decide_eq_true h
  obtain ⟨⟨s, os⟩, hrun, hnil⟩ := Option.any_eq_true _ _ |>.mp h
  obtain ⟨i, params, hm⟩ := mem_posts.mp hm
  obtain ⟨hstate, -, hsent⟩ := setState_reaches h₀ hs hm hrun (of_decide_eq_true hnil)
  exact ⟨s₀, os₀, s₁, o₁, s, os, h₀, hs, hrun, hstate, hsent 0 ha⟩

end Server

end TheGame
