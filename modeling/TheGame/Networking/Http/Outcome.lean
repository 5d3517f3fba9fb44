import TheGame.Networking.Http.Engaged
import TheGame.Machine.History

/-!
# The outcome of a request

A request whose target parses is upgraded, or answered by the callback registered for it, or
answered with 404. The conditions are those on the request and on the route table; what is left
behind by earlier requests does not matter.
-/

namespace TheGame.Connection
open Mealy
open HttpSession (Upgrades Calls Parses freshResponse notFound uri)

variable {H : Type*} {env : HttpEnv H} {k k' : Connection} {e : Event} {es : List Event}
  {o os : List (Output H)} {request : Request}

/-- The outcome of a request with the URI `u`. The handler and the callback are the entries of the
route table under the decoded path. -/
inductive Outcome (env : HttpEnv H) (request : Request) (u : env.url.Url) : List (Output H) → Prop
  | webSocket {handler : H} (hup : request.isUpgrade = true) (hget : request.method = .get)
    (hreg : env.routeManager.wsHandlers.lookup (env.url.path u) = some handler) :
    Outcome env request u [.webSocket (env.url.path u) request (parseQuery env.url u) handler]
  | callback {cb : HttpCallback} (hup : request.isUpgrade = false)
    (hreg : env.routeManager.getCallback (convertVerbBeast request.method) (env.url.path u) =
      some cb) :
    Outcome env request u
      [.invoke (convertVerbBeast request.method) (env.url.path u) request (parseQuery env.url u),
        .write (cb request (parseQuery env.url u) (freshResponse request)).preparePayload]
  | notFound
    (hws : request.isUpgrade = true → request.method = .get →
      env.routeManager.wsHandlers.lookup (env.url.path u) = none)
    (hcb : request.isUpgrade = false →
      env.routeManager.getCallback (convertVerbBeast request.method) (env.url.path u) = none) :
    Outcome env request u [.write (notFound (freshResponse request) request)]

/-- The outputs that make up the outcomes of requests; `fault` would be one, too. -/
def isOutcome : Output H → Bool
  | .invoke .. | .webSocket .. | .write _ | .fault => true
  | _ => false

/-- The socket is released to a `WebSocketSession`. -/
def isWebSocket : Output H → Bool
  | .webSocket .. => true
  | _ => false

/-- The event is the completion of a read. -/
def Event.isReadDone : Event → Bool
  | .readDone .. => true
  | _ => false

theorem convertVerbBeast_eq_GET {v : Verb} : convertVerbBeast v = .GET ↔ v = .get := by
  cases v <;> decide

/-- The conditions of `GetWSHandler`. -/
theorem getWSHandler_eq {path : Path} :
    env.routeManager.getWSHandler (convertVerbBeast request.method) path =
      if request.method = .get then env.routeManager.wsHandlers.lookup path else none := by
  simp only [RouteManagerBase.getWSHandler, convertVerbBeast_eq_GET]

namespace Outcome

variable {u : env.url.Url}

/-- A request has one outcome only. -/
theorem unique {o' : List (Output H)} (h : Outcome env request u o)
    (h' : Outcome env request u o') : o = o' := by
  cases h with
  | webSocket hup hget hreg =>
    cases h' with
    | webSocket _ _ hreg' =>
      rw [hreg] at hreg'
      cases hreg'
      rfl
    | callback hup' => simp [hup] at hup'
    | notFound hws' => simp [hws' hup hget] at hreg
  | callback hup hreg =>
    cases h' with
    | webSocket hup' => simp [hup] at hup'
    | callback _ hreg' =>
      rw [hreg] at hreg'
      cases hreg'
      rfl
    | notFound _ hcb' => simp [hcb' hup] at hreg
  | notFound hws hcb =>
    cases h' with
    | webSocket hup' hget' hreg' => simp [hws hup' hget'] at hreg'
    | callback hup' hreg' => simp [hcb hup'] at hreg'
    | notFound => rfl

theorem filter_isOutcome (h : Outcome env request u o) : o.filter isOutcome = o := by
  cases h <;> rfl

/-- An upgrade is an outcome of its own, without a response. -/
theorem responses_eq_nil (h : Outcome env request u o) (hws : o.any isWebSocket) :
    responses o = [] := by
  cases h with
  | webSocket => rfl
  | callback | notFound => simp [isWebSocket] at hws

/-- So nothing in the outcome comes after an upgrade, if it did not before. -/
theorem causal_append (h : Outcome env request u o) (hl : ∀ x ∈ os, isWebSocket x = false)
    (hcausal : Causal (fun pre _ => ∀ x ∈ pre, isWebSocket x = false) os) :
    Causal (fun pre _ => ∀ x ∈ pre, isWebSocket x = false) (os ++ o) := by
  cases h with
  | webSocket | notFound => exact causal_concat.mpr ⟨hcausal, hl⟩
  | callback =>
    rw [List.append_cons, causal_concat, causal_concat]
    refine ⟨⟨hcausal, hl⟩, fun x hx => ?_⟩
    rcases List.mem_append.mp hx with hx | hx
    · exact hl x hx
    · rw [List.mem_singleton.mp hx]
      rfl

end Outcome

/-! ## One step -/

/-- A request is read: it has its outcome, and as many reads are started as responses written. -/
theorem outcome_of_readDone {u : env.url.Url} (hu : uri env request = some u)
    (h : k.step env (.readDone .success request) = some (k', o)) :
    Outcome env request u o ∧ k'.reads + 1 = k.reads + (responses o).length ∧
      (o.any isWebSocket → k'.released) := by
  obtain ⟨-, hreads, h⟩ := step_readDone h
  cases HttpSession.lookup_path env request (env.url.path u) with
  | webSocket hi hw =>
    rw [HttpSession.onRead_webSocket hu hi hw] at h
    cases h
    rw [getWSHandler_eq] at hw
    by_cases hget : request.method = .get
    · rw [if_pos hget] at hw
      exact ⟨.webSocket hi hget hw, hreads, fun _ => rfl⟩
    · rw [if_neg hget] at hw
      cases hw
  | callback hi hc =>
    rw [HttpSession.onRead_callback hu hi hc rfl] at h
    cases h
    refine ⟨.callback hi hc, congrArg (· + 1) hreads, fun hany => ?_⟩
    simp [isWebSocket] at hany
  | nothing hw hc =>
    rw [HttpSession.onRead_notFound hu hw hc] at h
    cases h
    refine ⟨.notFound (fun hi hget => ?_) hc, congrArg (· + 1) hreads, fun hany => ?_⟩
    · have hnone := hw hi
      rwa [getWSHandler_eq, if_pos hget] at hnone
    · simp [isWebSocket] at hany

/-! ## Runs -/

/-- The outcomes of the requests. -/
def Outcomes (env : HttpEnv H) (rs : List Request) (os : List (Output H)) : Prop :=
  ∃ outcomes, List.Forall₂ (fun request o => ∃ u, uri env request = some u ∧
    Outcome env request u o) rs outcomes ∧ os.filter isOutcome = outcomes.flatten

/-- No callback is called, no handler is started and no response is written after an upgrade. -/
def UpgradeIsLast (os : List (Output H)) : Prop :=
  Causal (fun pre _ => ∀ x ∈ pre, isWebSocket x = false) (os.filter isOutcome)

/-- What holds of a connection all of whose requests parse. -/
structure Routed (env : HttpEnv H) (es : List Event) (k : Connection) (os : List (Output H)) :
    Prop where
  outcomes : Outcomes env (requests es) os
  reads : k.reads + es.countP Event.isReadDone = 1 + (responses os).length
  last : UpgradeIsLast os
  upgraded : os.any isWebSocket → k.released ∧ k.reads = 0

namespace Routed

/-- An event that is not the read of a request. -/
theorem quiet (H : Routed env es k os) (he : requests [e] = []) (ho : ∀ x ∈ o, isOutcome x = false)
    (hreads : k'.reads + [e].countP Event.isReadDone = k.reads)
    (hreleased : k.released → k'.released) : Routed env (es ++ [e]) k' (os ++ o) := by
  have hnil : o.filter isOutcome = [] := List.filter_eq_nil_iff.mpr (by simpa using ho)
  have hfilter : (os ++ o).filter isOutcome = os.filter isOutcome := by
    rw [List.filter_append, hnil, List.append_nil]
  have hresp : responses o = [] := by
    rw [responses, List.filterMap_eq_nil_iff]
    intro x hx
    have := ho x hx
    cases x <;> first | rfl | cases this
  have hws : o.any isWebSocket = false := by
    rw [List.any_eq_false]
    intro x hx
    have := ho x hx
    cases x <;> first | exact Bool.false_ne_true | cases this
  refine ⟨?_, ?_, ?_, ?_⟩
  · rw [requests_append, he, List.append_nil, Outcomes, hfilter]
    exact H.outcomes
  · have := H.reads
    rw [List.countP_append, responses_append, hresp, List.append_nil]
    omega
  · rw [UpgradeIsLast, hfilter]
    exact H.last
  · rw [List.any_append, hws, Bool.or_false]
    intro h
    obtain ⟨h1, h2⟩ := H.upgraded h
    exact ⟨hreleased h1, by omega⟩

/-- A request is read, its target parses. -/
theorem read (H : Routed env es k os) (HI : Inv k os) (hpos : 0 < k.reads)
    (hp : Parses env request) (h : k.step env (.readDone .success request) = some (k', o)) :
    Routed env (es ++ [.readDone .success request]) k' (os ++ o) := by
  obtain ⟨u, hu⟩ := Option.isSome_iff_exists.mp hp
  obtain ⟨hout, hreads, hreleased⟩ := outcome_of_readDone hu h
  -- a read is outstanding, so nothing has been upgraded yet
  have hnone : ∀ x ∈ os, isWebSocket x = false := by
    intro x hx
    by_contra hws
    have := (H.upgraded (List.any_eq_true.mpr ⟨x, hx, by simpa using hws⟩)).2
    omega
  have hno : ∀ x ∈ os.filter isOutcome, isWebSocket x = false :=
    fun x hx => hnone x (List.mem_filter.mp hx).1
  refine ⟨?_, ?_, ?_, ?_⟩
  · obtain ⟨outcomes, hall, heq⟩ := H.outcomes
    refine ⟨outcomes ++ [o], ?_, ?_⟩
    · rw [requests_append]
      exact List.rel_append hall (.cons ⟨u, hu, hout⟩ .nil)
    · rw [List.filter_append, heq, hout.filter_isOutcome, List.flatten_append,
        List.flatten_singleton]
  · have := H.reads
    rw [List.countP_append, responses_append, List.length_append]
    simp only [List.countP_singleton, Event.isReadDone, if_true]
    omega
  · rw [UpgradeIsLast, List.filter_append, hout.filter_isOutcome]
    exact hout.causal_append hno H.last
  · intro hany
    have hany : o.any isWebSocket := by
      rw [List.any_append, List.any_eq_false.mpr (by simpa using hnone), Bool.false_or] at hany
      exact hany
    have hone := HI.reads
    rw [hout.responses_eq_nil hany, List.length_nil] at hreads
    exact ⟨hreleased hany, by omega⟩

theorem step (H : Routed env es k os) (HI : Inv k os)
    (hp : ∀ request ∈ requests [e], Parses env request) (h : k.step env e = some (k', o)) :
    Routed env (es ++ [e]) k' (os ++ o) := by
  have hch := change_of_step h
  cases hch with
  | endOfStream hpos => exact H.quiet rfl (by simp [isOutcome]) (Nat.sub_add_cancel hpos) id
  | readFailed hpos hne hne' =>
    exact H.quiet (requests_of_ne hne) (by simp [isOutcome]) (Nat.sub_add_cancel hpos) id
  | webSocket hpos hup => exact H.read HI hpos (hp _ (List.mem_singleton_self _)) h
  | respond hpos hup hcalls => exact H.read HI hpos (hp _ (List.mem_singleton_self _)) h
  | fault hpos hp' hr => exact H.read HI hpos (hp _ (List.mem_singleton_self _)) h
  | transmit hw hsh => exact H.quiet rfl (by simp [isOutcome]) rfl id
  | written hw hrem hka => exact H.quiet rfl (by simp) rfl id
  | closing hw hrem hka => exact H.quiet rfl (by simp [isOutcome]) rfl id
  | writeFailed hw hec => exact H.quiet rfl (by simp [isOutcome]) rfl id

theorem of_run (hr : (machine env).run es = some (k, os))
    (hp : ∀ request ∈ requests es, Parses env request) : Routed env es k os := by
  revert hp
  refine run_induction (P := fun es k os => (∀ request ∈ requests es, Parses env request) →
    Routed env es k os) ?_ ?_ hr
  · intro _
    exact ⟨⟨[], .nil, rfl⟩, rfl, causal_nil, nofun⟩
  · intro es k os e k' o hr ih h hp
    rw [requests_append] at hp
    exact (ih fun r hr => hp r (List.mem_append_left _ hr)).step (Inv.of_run hr)
      (fun r hr => hp r (List.mem_append_right _ hr)) h

end Routed

/-- On a connection all of whose requests parse, each request has its outcome and nothing else is
called or written. Every response starts one read, and nothing is read, called or written after an
upgrade, so that as many responses are written as requests are read that are not upgraded. -/
theorem outcome_of_requests (hr : (machine env).run es = some (k, os))
    (hp : ∀ request ∈ requests es, Parses env request) :
    Outcomes env (requests es) os ∧
      k.reads + es.countP Event.isReadDone = 1 + (responses os).length ∧
      (responses os).length = ((requests es).filter (!Upgrades env ·)).length ∧
      UpgradeIsLast os ∧ (os.any isWebSocket → k.released ∧ k.reads = 0) := by
  have H : Routed env es k os := .of_run hr hp
  have hans : Answered env es os :=
    (Engaged.of_run hr).answered fun first hf => hp first (List.mem_of_mem_head? hf)
  exact ⟨H.outcomes, H.reads, hans, H.last, H.upgraded⟩

/-- The server of `localEnv` with a WebSocket handler for `/ws`. -/
def wsEnv : HttpEnv Unit :=
  { localEnv with routeManager := localEnv.routeManager.addWebsocket (bytes "/ws") () }

/-- A request to upgrade. -/
def upgrade (target : Bytes) : Request := { get target true with isUpgrade := true }

/-- A request with a callback, one without, and an upgrade. -/
theorem outcome_of_requests_three : ∃ k os, (machine wsEnv).run
    [.readDone .success (get (bytes "/?a=1") true), .readDone .success (get (bytes "/x") true),
      .readDone .success (upgrade (bytes "/w%73"))] = some (k, os) ∧
    Outcomes wsEnv [get (bytes "/?a=1") true, get (bytes "/x") true, upgrade (bytes "/w%73")] os ∧
    (responses os).map (·.result) = [200, 404] ∧ k.released ∧ k.reads = 0 := by
  obtain ⟨k, os, hr, hws, hres⟩ := exists_run (M := machine wsEnv)
    [.readDone .success (get (bytes "/?a=1") true), .readDone .success (get (bytes "/x") true),
      .readDone .success (upgrade (bytes "/w%73"))]
    (P := fun _ os => os.any isWebSocket ∧ (responses os).map (·.result) = [200, 404])
    (by decide +kernel)
  obtain ⟨hout, -, -, -, hup⟩ := outcome_of_requests hr (by decide +kernel)
  exact ⟨k, os, hr, hout, hres, hup hws⟩

end TheGame.Connection
