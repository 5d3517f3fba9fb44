import TheGame.Networking.Http.Exclusivity
import TheGame.Networking.Http.Outcome

/-!
# A client that waits

A client which sends nothing, not even the end of its requests, before the response to the last
request has been written sees a server that takes one request at a time: each request is answered,
until one is upgraded or a response announces the end of the connection. `exchange` is that server.
-/

namespace TheGame.Connection
open Mealy
open HttpSession (Parses freshResponse notFound uri)

variable {H : Type*} {env : HttpEnv H} {k k' : Connection} {e : Event} {es : List Event}
  {o os : List (Output H)} {request : Request} {rs : List Request}

/-! ## One request at a time -/

/-- The response to a request. An upgrade has none. -/
def reply (env : HttpEnv H) (request : Request) : Option Response :=
  (uri env request).bind fun u =>
    if request.isUpgrade then
      match env.routeManager.getWSHandler (convertVerbBeast request.method) (env.url.path u) with
      | some _ => none
      | none => some (notFound (freshResponse request) request)
    else
      match env.routeManager.getCallback (convertVerbBeast request.method) (env.url.path u) with
      | some cb => some (cb request (parseQuery env.url u) (freshResponse request)).preparePayload
      | none => some (notFound (freshResponse request) request)

/-- The responses to the requests of a connection. -/
def exchange (env : HttpEnv H) : List Request → List Response
  | [] => []
  | request :: requests =>
    match reply env request with
    | none => []
    | some message => message :: if message.keepAlive then exchange env requests else []

/-- After these requests the connection is neither upgraded nor at its end. -/
def goesOn (env : HttpEnv H) (rs : List Request) : Bool :=
  rs.all fun request => (reply env request).any (·.keepAlive)

theorem exchange_append (env : HttpEnv H) (rs rs' : List Request) :
    exchange env (rs ++ rs') =
      exchange env rs ++ if goesOn env rs then exchange env rs' else [] := by
  induction rs with
  | nil => rfl
  | cons request rs ih =>
    rw [List.cons_append, exchange, exchange, goesOn, List.all_cons, ← goesOn]
    cases reply env request with
    | none => rfl
    | some message =>
      cases hka : message.keepAlive with
      | false => simp [hka]
      | true => simp [hka, ih]

theorem exchange_singleton (env : HttpEnv H) (request : Request) :
    exchange env [request] = (reply env request).toList := by
  cases hr : reply env request with
  | none => simp [exchange, hr]
  | some message => simp [exchange, hr]

/-- The response is that of the outcome. -/
theorem Outcome.responses_eq {u : env.url.Url} (hu : uri env request = some u)
    (h : Outcome env request u o) : responses o = (reply env request).toList := by
  cases h with
  | webSocket hup hget hreg =>
    have hsome : (env.routeManager.getWSHandler (convertVerbBeast request.method)
        (env.url.path u)).isSome := by
      rw [getWSHandler_eq, if_pos hget, hreg]
      rfl
    obtain ⟨handler, hsome⟩ := Option.isSome_iff_exists.mp hsome
    simp [reply, hu, hup, hsome, responses]
  | callback hup hreg => simp [reply, hu, hup, hreg, responses]
  | notFound hws hcb =>
    cases hup : request.isUpgrade with
    | false => simp [reply, hu, hup, hcb hup, responses]
    | true =>
      have hnone : env.routeManager.getWSHandler (convertVerbBeast request.method)
          (env.url.path u) = none := by
        rw [getWSHandler_eq]
        split
        · exact hws hup ‹_›
        · rfl
      simp [reply, hu, hup, hnone, responses]

theorem responses_of_parses (hp : Parses env request)
    (h : k.step env (.readDone .success request) = some (k', o)) :
    responses o = (reply env request).toList := by
  obtain ⟨u, hu⟩ := Option.isSome_iff_exists.mp hp
  exact (outcome_of_readDone hu h).1.responses_eq hu

/-! ## The client that waits -/

/-- A request, or the end of the requests, is read when the write of the last response has
completed. The target of the request parses, and no write fails. -/
def Waits (env : HttpEnv H) (k : Connection) (_ : List (Output H)) : Event → Prop
  | .readDone .success request => k.writes = [] ∧ Parses env request
  | .readDone .endOfStream _ => k.writes = []
  | .writeDone _ ec => ec = .success
  | _ => True

instance : ∀ k os e, Decidable (Waits env k os e)
  | k, _, .readDone .success request =>
    inferInstanceAs (Decidable (k.writes = [] ∧ Parses env request))
  | k, _, .readDone .endOfStream _ => inferInstanceAs (Decidable (k.writes = []))
  | _, _, .writeDone _ ec => inferInstanceAs (Decidable (ec = .success))
  | _, _, .readDone .closed _ | _, _, .readDone (.other _) _ | _, _, .transmit .. =>
    inferInstanceAs (Decidable True)

/-- The bytes that are still to be sent. None are after the shutdown of the send side. -/
def unsent (k : Connection) : Bytes := if k.shutdown then [] else k.writes.flatMap (·.remaining)

/-- The bytes sent and those to be sent are the responses to the requests `rs`, one after another.
If the session still reads, the next response is sent exactly if the exchange goes on. -/
structure Exchanged (env : HttpEnv H) (rs : List Request) (k : Connection) (os : List (Output H)) :
    Prop where
  one : k.writes.length ≤ 1
  sent : wire os ++ k.unsent = (exchange env rs).flatMap env.serialize
  next : 0 < k.reads →
    (goesOn env rs ↔ k.shutdown = false ∧ (k.writes = [] ∨ k.session.keepAlive = true))

namespace Exchanged

/-- The session reads no more. -/
theorem quiet (H : Exchanged env rs k os) (hw : k'.writes = k.writes)
    (hreads : k'.reads = 0) (hs : k.writes = [] ∨ k'.shutdown = k.shutdown) (ho : wire o = []) :
    Exchanged env rs k' (os ++ o) := by
  refine ⟨hw ▸ H.one, ?_, fun hpos => absurd hreads (Nat.ne_of_gt hpos)⟩
  have hunsent : k'.unsent = k.unsent := by
    obtain hnil | hs := hs
    · simp [unsent, hw, hnil]
    · rw [unsent, unsent, hw, hs]
  rw [wire_append, ho, List.append_nil, hunsent]
  exact H.sent

theorem upgrade (H : Exchanged env rs k os) (hw : k'.writes = k.writes) (hreads : k'.reads = 0)
    (hs : k'.shutdown = k.shutdown) (ho : wire o = []) (hr : reply env request = none) :
    Exchanged env (rs ++ [request]) k' (os ++ o) := by
  have H' := H.quiet hw hreads (.inr hs) ho
  refine ⟨H'.one, ?_, fun hpos => absurd hreads (Nat.ne_of_gt hpos)⟩
  rw [exchange_append, exchange_singleton, hr, Option.toList_none, ite_self, List.append_nil]
  exact H'.sent

theorem respond (H : Exchanged env rs k os) (hpos : 0 < k.reads) (hnil : k.writes = [])
    {message : Response} {calls : List (Output _)} (hcalls : wire calls = [])
    (hr : reply env request = some message)
    (hw : k'.writes = k.writes ++ [⟨message, env.serialize message⟩])
    (hs : k'.shutdown = k.shutdown) (hka : k'.session.keepAlive = message.keepAlive) :
    Exchanged env (rs ++ [request]) k' (os ++ (calls ++ [.write message])) := by
  have hwire : wire (calls ++ [.write message]) = [] := by
    rw [wire_append, hcalls]
    rfl
  have hunsent : k.unsent = [] := by simp [unsent, hnil]
  have hnext := H.next hpos
  have hsent := H.sent
  rw [hunsent, List.append_nil] at hsent
  have hgoes : goesOn env (rs ++ [request]) = (goesOn env rs && message.keepAlive) := by
    simp [goesOn, hr]
  refine ⟨by simp [hw, hnil], ?_, fun _ => ?_⟩
  · rw [wire_append, hwire, List.append_nil, hsent, exchange_append, exchange_singleton, hr,
      List.flatMap_append]
    congr 1
    -- the response is sent if the send side has not been shut down
    cases hsh : k.shutdown with
    | false =>
      rw [if_pos (hnext.mpr ⟨hsh, .inl hnil⟩)]
      simp [unsent, hs, hsh, hw, hnil]
    | true =>
      have hg : ¬ goesOn env rs := by
        intro h
        rw [(hnext.mp h).1] at hsh
        cases hsh
      rw [if_neg hg]
      simp [unsent, hs, hsh]
  · rw [hgoes, Bool.and_eq_true, hnext, hs, hka, hw]
    simp [hnil]

theorem transmit (H : Exchanged env rs k os) {i n : Nat} {w : PendingWrite}
    (hw : k.writes[i]? = some w) (hsh : k.shutdown = false) :
    Exchanged env rs { k with writes := k.writes.set i { w with remaining := w.remaining.drop n } }
      (os ++ [.sent (w.remaining.take n)]) := by
  obtain ⟨hk, rfl⟩ := eq_singleton_of_getElem? H.one hw
  have hsent := H.sent
  have hnext := H.next
  rw [unsent, hsh, hk] at hsent
  rw [hk] at hnext
  refine ⟨by simp [hk], ?_, fun hpos => (hnext hpos).trans (by simp [hk])⟩
  rw [← hsent, wire_append]
  simp [unsent, hsh, hk, wire, List.append_assoc]

theorem written (H : Exchanged env rs k os) {i : Nat} {w : PendingWrite}
    (hw : k.writes[i]? = some w) (hrem : w.remaining = [])
    (hwrites : k'.writes = k.writes.eraseIdx i) (ho : wire o = []) (hreads : k'.reads = k.reads)
    (hs : 0 < k.reads → k'.shutdown = (k.shutdown || !k.session.keepAlive)) :
    Exchanged env rs k' (os ++ o) := by
  obtain ⟨hk, rfl⟩ := eq_singleton_of_getElem? H.one hw
  have hnil : k'.writes = [] := by rw [hwrites, hk]; rfl
  have hunsent : k.unsent = [] ∧ k'.unsent = [] := by simp [unsent, hk, hrem, hnil]
  refine ⟨by simp [hnil], ?_, fun hpos => ?_⟩
  · rw [wire_append, ho, List.append_nil, hunsent.2, ← H.sent, hunsent.1]
  · rw [H.next (hreads ▸ hpos), hs (hreads ▸ hpos), hnil, hk]
    simp

/-- An event that is not the read of a request. -/
theorem unasked (H : Exchanged env rs k os) (he : requests [e] = []) :
    Exchanged env (rs ++ requests [e]) k os := by
  rwa [he, List.append_nil]

theorem step (H : Exchanged env (requests es) k os) (HI : Inv k os) (hC : Waits env k os e)
    (h : k.step env e = some (k', o)) : Exchanged env (requests (es ++ [e])) k' (os ++ o) := by
  have hreads := HI.reads
  rw [requests_append]
  cases change_of_step h with
  | endOfStream hpos =>
    refine unasked ?_ rfl
    exact H.quiet rfl (by dsimp only; omega) (.inl hC) rfl
  | readFailed hpos hne hne' =>
    refine unasked ?_ (requests_of_ne hne)
    exact H.quiet rfl (by dsimp only; omega) (.inr rfl) rfl
  | webSocket hpos hup =>
    have hr := responses_of_parses hC.2 h
    exact H.upgrade rfl (by dsimp only; omega) rfl rfl (Option.toList_eq_nil_iff.mp hr.symm)
  | @respond request message calls hpos hup hcalls =>
    have hr := responses_of_parses hC.2 h
    rw [responses_append, hcalls.responses_eq, List.nil_append, responses_write] at hr
    have hr : reply env request = some message := by
      cases hm : reply env request with
      | none => simp [hm] at hr
      | some message' =>
        rw [hm, Option.toList_some] at hr
        cases hr
        rfl
    exact H.respond hpos hC.1 (wire_calling hcalls) hr rfl rfl rfl
  | fault hpos hp hr => exact absurd hC.2 (by simp [hp])
  | transmit hw hsh => exact unasked (H.transmit hw hsh) rfl
  | written hw hrem hka =>
    refine unasked ?_ rfl
    exact H.written hw hrem rfl rfl rfl fun _ => by simp [hka]
  | closing hw hrem hka =>
    refine unasked ?_ rfl
    exact H.written hw hrem rfl rfl rfl fun hpos => by simp [hka, HI.not_released hpos]
  | writeFailed hw hec => exact absurd hC hec

theorem of_run (hr : (machine env).run es = some (k, os))
    (hC : (machine env).Along (Waits env) es) : Exchanged env (requests es) k os := by
  revert hC
  refine run_induction (P := fun es k os => (machine env).Along (Waits env) es →
    Exchanged env (requests es) k os) ?_ ?_ hr
  · intro _
    exact ⟨Nat.zero_le _, rfl, fun _ => iff_of_true rfl ⟨rfl, .inl rfl⟩⟩
  · intro es k os e k' o hr ih h hC
    obtain ⟨hC, hc⟩ := (along_snoc hr).mp hC
    exact (ih hC).step (.of_run hr) hc h

end Exchanged

/-- In every run in which the client waits, the bytes that it has got, and those that are still to
be sent, are the responses to its requests, one request at a time. -/
theorem wire_of_waits (hr : (machine env).run es = some (k, os))
    (hC : (machine env).Along (Waits env) es) :
    wire os ++ k.unsent = (exchange env (requests es)).flatMap env.serialize :=
  (Exchanged.of_run hr hC).sent

/-- Three requests; the response to the second one is the last one. -/
theorem wire_of_waits_last : ∃ k os, (machine localEnv).run
    [.readDone .success (get (bytes "/") true), .transmit 0 1, .transmit 0 2,
      .writeDone 0 .success, .readDone .success (get (bytes "/x") false), .transmit 0 26,
      .writeDone 0 .success, .readDone .success (get (bytes "/") true)] = some (k, os) ∧
    wire os = bytes "200404Unknown HTTP-target: /x" := by
  obtain ⟨k, os, hr, hC, hunsent⟩ := exists_run (M := machine localEnv)
    [.readDone .success (get (bytes "/") true), .transmit 0 1, .transmit 0 2,
      .writeDone 0 .success, .readDone .success (get (bytes "/x") false), .transmit 0 26,
      .writeDone 0 .success, .readDone .success (get (bytes "/") true)]
    (P := fun k _ => (machine localEnv).Along (Waits localEnv)
      [.readDone .success (get (bytes "/") true), .transmit 0 1, .transmit 0 2,
        .writeDone 0 .success, .readDone .success (get (bytes "/x") false), .transmit 0 26,
        .writeDone 0 .success, .readDone .success (get (bytes "/") true)] ∧ k.unsent = [])
    (by decide +kernel)
  have h := wire_of_waits hr hC
  rw [hunsent, List.append_nil] at h
  exact ⟨k, os, hr, h.trans (by decide +kernel)⟩

end TheGame.Connection
