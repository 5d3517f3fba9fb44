import TheGame.Machine.Basic
import TheGame.Networking.Http.Session

/-!
# One HTTP connection

An `HttpSession` with what Beast keeps for it: the outstanding read, the outstanding writes with
the bytes they have not sent yet, and whether the send side of the socket is shut down or the
socket is released. The environment completes operations in any order. A read may complete while
writes are outstanding; the chunks of outstanding writes interleave freely, and a write completes
with success when its last byte is sent. Nothing is sent after the shutdown or the release.
-/

namespace TheGame

/-- An outstanding write: its message, and the bytes not sent yet. -/
structure PendingWrite where
  message : Response
  remaining : Bytes
deriving DecidableEq

structure Connection where
  session : HttpSession := {}
  reads : Nat := 0
  writes : List PendingWrite := []
  shutdown : Bool := false
  released : Bool := false
deriving DecidableEq

namespace Connection

/-- What the environment can do to a connection. -/
inductive Event
  /-- the read completes, on success with `request` -/
  | readDone (ec : ErrorCode) (request : Request)
  /-- the `i`-th of the outstanding writes sends its next `n` bytes -/
  | transmit (i n : Nat)
  /-- the `i`-th of the outstanding writes completes -/
  | writeDone (i : Nat) (ec : ErrorCode)
deriving DecidableEq

/-- What an observer sees. -/
inductive Output (H : Type*)
  /-- bytes sent to the peer -/
  | sent (chunk : Bytes)
  /-- a response is passed to a write -/
  | write (message : Response)
  | shutdown
  | fail (ec : ErrorCode) (what : String)
  | invoke (method : HttpMethod) (path : Path) (request : Request) (params : Option Params)
  | webSocket (path : Path) (request : Request) (params : Option Params) (handler : H)
  /-- an empty `response_` is dereferenced -/
  | fault
deriving DecidableEq

/-- The output is the dereference of an empty `response_`. -/
def Output.isFault {H : Type*} : Output H → Bool
  | .fault => true
  | _ => false

@[simp] theorem isFault_iff {H : Type*} {a : Output H} : a.isFault = true ↔ a = .fault := by
  cases a <;> simp [Output.isFault]

variable {H : Type*} (env : HttpEnv H)

/-- Start the operations and do what else a member function asks for. `release_socket` cancels the
writes that are outstanding; after it, `shutdown` has no effect. -/
def perform (k : Connection) : List (HttpSession.Action H) → Connection × List (Output H)
  | [] => (k, [])
  | .asyncRead :: as => perform { k with reads := k.reads + 1 } as
  | .asyncWrite message :: as =>
    let (k, os) := perform { k with writes := k.writes ++ [⟨message, env.serialize message⟩] } as
    (k, .write message :: os)
  | .shutdown :: as =>
    let (k, os) := perform { k with shutdown := k.shutdown || !k.released } as
    (k, .shutdown :: os)
  | .fail ec what :: as => let (k, os) := perform k as; (k, .fail ec what :: os)
  | .invoke method path request params :: as =>
    let (k, os) := perform k as
    (k, .invoke method path request params :: os)
  | .webSocket path request params handler :: as =>
    let (k, os) := perform { k with released := true } as
    (k, .webSocket path request params handler :: os)

/-- The session has run a member function. -/
def apply (k : Connection) (r : HttpSession × List (HttpSession.Action H)) :
    Connection × List (Output H) :=
  perform env { k with session := r.1 } r.2

/-- One event of the environment. -/
def step (k : Connection) : Event → Option (Connection × List (Output H))
  | .readDone ec request =>
    if k.reads = 0 then none else
      let k := { k with reads := k.reads - 1 }
      match HttpSession.onRead env k.session ec request with
      | none => some (k, [.fault])
      | some r => some (k.apply env r)
  | .transmit i n =>
    match k.writes[i]? with
    | none => none
    | some w =>
      if k.shutdown || k.released || n = 0 || w.remaining.length < n then none else
        some ({ k with writes := k.writes.set i { w with remaining := w.remaining.drop n } },
          [.sent (w.remaining.take n)])
  | .writeDone i ec =>
    match k.writes[i]? with
    | none => none
    | some w =>
      if ec = .success ∧ w.remaining ≠ [] then none else
        some ({ k with writes := k.writes.eraseIdx i }.apply env (k.session.onWrite ec))

/-- A new connection, after `Run`. -/
def machine : Mealy Connection Event (Output H) where
  init := (apply env {} (HttpSession.run {})).1
  step := step env

/-- A server on port 8080 of the local host, with a callback for `GET /` that keeps the response. -/
def localEnv : HttpEnv Unit where
  url := .ofGrammar ⟨fun _ => false, nofun⟩
  localEndpoint := { address := .v4 127 0 0 1, port := 8080 }
  routeManager := RouteManagerBase.add {} .GET (bytes "/") fun _ _ response => response
  serialize response := decimal response.result ++ response.body

/-- A request `GET`. -/
def get (target : Bytes) (keepAlive : Bool) : Request :=
  { method := .get, target, version := 11, keepAlive, isUpgrade := false }

/-! ## What each event does -/

open HttpSession (Upgrades Calls Parses)

variable {env} {k k' : Connection} {e : Event} {es : List Event} {o os : List (Output H)}
  {request : Request}

/-- What `OnRead` calls before it writes the response. -/
inductive Calling (env : HttpEnv H) (s : HttpSession) (request : Request) : List (Output H) → Prop
  | nothing : Calls env request = false → (Parses env request = true ∨ s.response.isSome) →
    Calling env s request []
  | callback {method : HttpMethod} {path : Path} {params : Option Params} :
    Calls env request = true → Calling env s request [.invoke method path request params]

/-- What happens to a connection. -/
inductive Change (env : HttpEnv H) (k : Connection) : Event → Connection → List (Output H) → Prop
  | endOfStream {request : Request} : 0 < k.reads →
    Change env k (.readDone .endOfStream request)
      { k with reads := k.reads - 1, shutdown := k.shutdown || !k.released } [.shutdown]
  | readFailed {ec : ErrorCode} {request : Request} : 0 < k.reads → ec ≠ .success →
    ec ≠ .endOfStream →
    Change env k (.readDone ec request) { k with reads := k.reads - 1 } [.fail ec "on read"]
  | webSocket {request : Request} {path : Path} {params : Option Params} {handler : H} :
    0 < k.reads → Upgrades env request →
    Change env k (.readDone .success request)
      { k with
        reads := k.reads - 1
        released := true
        session := { k.session with response := some (HttpSession.freshResponse request) } }
      [.webSocket path request params handler]
  | respond {request : Request} {message : Response} {calls : List (Output H)} : 0 < k.reads →
    Upgrades env request = false →
    Calling env k.session request calls →
    Change env k (.readDone .success request)
      { k with
        session := { keepAlive := message.keepAlive, response := some message.movedFrom }
        writes := k.writes ++ [⟨message, env.serialize message⟩] }
      (calls ++ [.write message])
  | fault {request : Request} : 0 < k.reads → Parses env request = false →
    k.session.response = none →
    Change env k (.readDone .success request) { k with reads := k.reads - 1 } [.fault]
  | transmit {i n : Nat} {w : PendingWrite} : k.writes[i]? = some w → k.shutdown = false →
    k.released = false →
    Change env k (.transmit i n)
      { k with writes := k.writes.set i { w with remaining := w.remaining.drop n } }
      [.sent (w.remaining.take n)]
  | written {i : Nat} {w : PendingWrite} : k.writes[i]? = some w → w.remaining = [] →
    k.session.keepAlive = true →
    Change env k (.writeDone i .success) { k with writes := k.writes.eraseIdx i } []
  | closing {i : Nat} {w : PendingWrite} : k.writes[i]? = some w → w.remaining = [] →
    k.session.keepAlive = false →
    Change env k (.writeDone i .success)
      { k with writes := k.writes.eraseIdx i, shutdown := k.shutdown || !k.released } [.shutdown]
  | writeFailed {i : Nat} {w : PendingWrite} {ec : ErrorCode} : k.writes[i]? = some w →
    ec ≠ .success →
    Change env k (.writeDone i ec) { k with writes := k.writes.eraseIdx i } [.fail ec "on write"]

/-- A read that completes is one of those that are outstanding. -/
theorem step_readDone {ec : ErrorCode}
    (h : k.step env (.readDone ec request) = some (k', o)) :
    0 < k.reads ∧ k.reads - 1 + 1 = k.reads ∧
      (HttpSession.onRead env k.session ec request).elim ({ k with reads := k.reads - 1 }, [.fault])
        (apply env { k with reads := k.reads - 1 }) = (k', o) := by
  simp only [step] at h
  split at h
  · cases h
  rename_i h0
  have hpos : 0 < k.reads := Nat.pos_of_ne_zero h0
  refine ⟨hpos, Nat.sub_add_cancel hpos, ?_⟩
  cases hr : HttpSession.onRead env k.session ec request with
  | none =>
    rw [hr] at h
    exact Option.some.inj h
  | some r =>
    rw [hr] at h
    exact Option.some.inj h

theorem change_of_readDone
    (h : k.step env (.readDone .success request) = some (k', o)) :
    Change env k (.readDone .success request) k' o := by
  obtain ⟨hpos, hreads, h⟩ := step_readDone h
  have hres := HttpSession.onRead_success env k.session request
  generalize HttpSession.onRead env k.session .success request = res at h hres
  cases hres with
  | webSocket path params handler hup =>
    cases h
    exact .webSocket hpos hup
  | invoke path params message hcall =>
    simp only [Option.elim_some, apply, perform, hreads, Prod.mk.injEq] at h
    obtain ⟨rfl, rfl⟩ := h
    have hup : Upgrades env request = false := by
      simp only [Calls, Bool.and_eq_true, Bool.not_eq_true'] at hcall
      simp [Upgrades, hcall.1]
    exact .respond hpos hup (.callback hcall)
  | notFound message hup hcall hr =>
    simp only [Option.elim_some, apply, perform, hreads, Prod.mk.injEq] at h
    obtain ⟨rfl, rfl⟩ := h
    exact .respond hpos hup (.nothing hcall hr)
  | fault hp hr =>
    cases h
    exact .fault hpos hp hr

theorem change_of_writeDone {i : Nat} {ec : ErrorCode}
    (h : k.step env (.writeDone i ec) = some (k', o)) : Change env k (.writeDone i ec) k' o := by
  simp only [step] at h
  split at h
  · cases h
  rename_i w hw
  split at h
  · cases h
  rename_i hrem
  by_cases hec : ec = .success
  · subst ec
    have hnil : w.remaining = [] := by simpa using hrem
    cases hka : k.session.keepAlive with
    | true =>
      simp only [HttpSession.onWrite, hka, ErrorCode.failed_success] at h
      cases h
      exact .written hw hnil hka
    | false =>
      simp only [HttpSession.onWrite, hka, ErrorCode.failed_success] at h
      cases h
      exact .closing hw hnil hka
  · have hf : ec.failed = true := ErrorCode.failed_eq_true.mpr hec
    simp only [HttpSession.onWrite, hf, if_true, apply, perform, Option.some.injEq,
      Prod.mk.injEq] at h
    obtain ⟨rfl, rfl⟩ := h
    exact .writeFailed hw hec

theorem change_of_step (h : k.step env e = some (k', o)) : Change env k e k' o := by
  cases e with
  | readDone ec request =>
    by_cases hec : ec = .success
    · subst ec
      exact change_of_readDone h
    · have hf : ec.failed = true := ErrorCode.failed_eq_true.mpr hec
      obtain ⟨hpos, -, h⟩ := step_readDone h
      simp only [HttpSession.onRead, hf, if_true] at h
      by_cases heof : ec = .endOfStream
      · subst ec
        cases h
        exact .endOfStream hpos
      · simp only [heof, if_false, Option.elim_some, apply, perform, Prod.mk.injEq] at h
        obtain ⟨rfl, rfl⟩ := h
        exact .readFailed hpos hec heof
  | transmit i n =>
    simp only [step] at h
    split at h
    · cases h
    rename_i w hw
    split at h
    · cases h
    rename_i hc
    cases h
    simp only [Bool.or_eq_true, not_or, Bool.not_eq_true] at hc
    exact .transmit hw hc.1.1.1 hc.1.1.2
  | writeDone i ec => exact change_of_writeDone h

/-! ## What holds of every connection -/

/-- The responses passed to a write. -/
def responses (os : List (Output H)) : List Response :=
  os.filterMap fun
    | .write message => some message
    | _ => none

@[simp] theorem responses_append (o os : List (Output H)) :
    responses (o ++ os) = responses o ++ responses os := List.filterMap_append

@[simp] theorem responses_write (message : Response) :
    responses (H := H) [.write message] = [message] := rfl

/-- The bytes sent to the peer. -/
def wire (os : List (Output H)) : Bytes :=
  os.flatMap fun
    | .sent chunk => chunk
    | _ => []

@[simp] theorem wire_append (o os : List (Output H)) : wire (o ++ os) = wire o ++ wire os :=
  List.flatMap_append

theorem Calling.responses_eq {s : HttpSession} {calls : List (Output H)}
    (h : Calling env s request calls) : responses calls = [] := by
  cases h <;> rfl

/-- One read at a time, none after the release of the socket, and `response_` and `keep_alive_` are
those of the last response written. -/
structure Inv (k : Connection) (os : List (Output H)) : Prop where
  reads : k.reads ≤ 1
  released : k.released → k.reads = 0
  engaged : responses os ≠ [] → k.session.response.isSome
  pending : ∀ w ∈ k.writes, w.message ∈ responses os
  shutdown : k.shutdown → k.reads = 0 ∨ responses os ≠ []
  keepAlive : ∀ r ∈ (responses os).getLast?, k.session.keepAlive = r.keepAlive

namespace Inv

theorem not_released (H : Inv k os) (hpos : 0 < k.reads) : k.released = false := by
  rw [← Bool.not_eq_true]
  intro h
  have := H.released h
  omega

/-- While a read is outstanding, the send side is shut down only by the completion of a write. -/
theorem not_shutdown (H : Inv k os) (hpos : 0 < k.reads) (hr : k.session.response = none) :
    k.shutdown = false := by
  rw [← Bool.not_eq_true]
  intro hsh
  have hsome := H.engaged ((H.shutdown hsh).resolve_left (Nat.ne_of_gt hpos))
  rw [hr] at hsome
  cases hsome

/-- An event that starts no write. -/
theorem quiet (H : Inv k os) (ho : responses o = []) (hreads : k'.reads ≤ k.reads)
    (hreleased : k'.released → k'.reads = 0)
    (hengaged : k.session.response.isSome → k'.session.response.isSome)
    (hpending : ∀ w ∈ k'.writes, ∃ v ∈ k.writes, v.message = w.message)
    (hshutdown : k'.shutdown → k'.reads = 0 ∨ responses os ≠ [])
    (hkeep : k'.session.keepAlive = k.session.keepAlive) : Inv k' (os ++ o) := by
  have hos : responses (os ++ o) = responses os := by rw [responses_append, ho, List.append_nil]
  refine ⟨Nat.le_trans hreads H.reads, hreleased, ?_, ?_, ?_, ?_⟩ <;> rw [hos]
  · exact fun h => hengaged (H.engaged h)
  · intro w hw
    obtain ⟨v, hv, hm⟩ := hpending w hw
    exact hm ▸ H.pending v hv
  · exact hshutdown
  · exact fun r hr => hkeep.trans (H.keepAlive r hr)

theorem step (H : Inv k os) (h : k.step env e = some (k', o)) : Inv k' (os ++ o) := by
  have hself : ∀ w ∈ k.writes, ∃ v ∈ k.writes, v.message = w.message := fun w hw => ⟨w, hw, rfl⟩
  have herase (i : Nat) : ∀ w ∈ k.writes.eraseIdx i, ∃ v ∈ k.writes, v.message = w.message :=
    fun w hw => ⟨w, List.mem_of_mem_eraseIdx hw, rfl⟩
  have hreads := H.reads
  cases change_of_step h with
  | endOfStream hpos =>
    exact H.quiet rfl (Nat.sub_le ..) (fun _ => by dsimp only; omega) id hself
      (fun _ => .inl (by dsimp only; omega)) rfl
  | readFailed hpos hne hne' =>
    exact H.quiet rfl (Nat.sub_le ..) (fun _ => by dsimp only; omega) id hself
      (fun _ => .inl (by dsimp only; omega)) rfl
  | webSocket hpos hup =>
    exact H.quiet rfl (Nat.sub_le ..) (fun _ => by dsimp only; omega) (fun _ => rfl) hself
      (fun _ => .inl (by dsimp only; omega)) rfl
  | fault hpos hp hr =>
    exact H.quiet rfl (Nat.sub_le ..) (fun _ => by dsimp only; omega) id hself
      (fun _ => .inl (by dsimp only; omega)) rfl
  | transmit hw hsh =>
    refine H.quiet rfl (Nat.le_refl _) H.released id (fun v hv => ?_) H.shutdown rfl
    rcases List.mem_or_eq_of_mem_set hv with hv | rfl
    · exact ⟨v, hv, rfl⟩
    · exact ⟨_, List.mem_of_getElem? hw, rfl⟩
  | written hw hrem hka =>
    exact H.quiet rfl (Nat.le_refl _) H.released id (herase _) H.shutdown rfl
  | closing hw hrem hka =>
    have hne : responses os ≠ [] := List.ne_nil_of_mem (H.pending _ (List.mem_of_getElem? hw))
    exact H.quiet rfl (Nat.le_refl _) H.released id (herase _) (fun _ => .inr hne) rfl
  | writeFailed hw hec =>
    exact H.quiet rfl (Nat.le_refl _) H.released id (herase _) H.shutdown rfl
  | respond hpos hup hcalls =>
    have hr := hcalls.responses_eq
    refine ⟨hreads, H.released, fun _ => rfl, ?_, fun _ => .inr (by simp), ?_⟩
    · intro w hw
      rcases List.mem_append.mp hw with hw | hw
      · exact (responses_append ..).symm ▸ List.mem_append_left _ (H.pending w hw)
      · rw [List.mem_singleton.mp hw]
        simp
    · intro r hr'
      simp only [responses_append, responses_write, hr, List.nil_append,
        List.getLast?_concat, Option.mem_def, Option.some.injEq] at hr'
      rw [hr']

theorem of_run (hr : (machine env).run es = some (k, os)) : Inv k os :=
  Mealy.run_induction (P := fun _ k os => Inv k os)
    ⟨Nat.le_refl _, fun h => (by cases h), fun h => absurd rfl h, fun _ h => (by cases h),
      fun h => (by cases h), fun _ h => (by cases h)⟩
    (fun _ _ _ _ _ _ _ H hs => H.step hs) hr

end Inv

end Connection

end TheGame
