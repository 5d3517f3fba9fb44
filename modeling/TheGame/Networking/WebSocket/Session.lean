import TheGame.Machine.Basic
import TheGame.Networking.Common

/-!
# `WebSocketSession`

The member functions of `WebSocketSession` (`websocket_session.h`, `websocket_session.cpp`), each
as a function from the session to the session and the list of what it starts or calls, in the
order of the source: an asynchronous operation of the stream, or a callback of `handler_`.

`Stream` adds what Beast keeps for one session, the operations started and not yet completed, and
`machine` lets the environment complete them one at a time in any order. Assumed of Beast: a read
appends one message to the buffer it was given; a write sends, as one message, the bytes of the
view it was given, earlier writes first, and completes with the number of these bytes;
`consume(n)` drops the first `min n size` bytes.
-/

namespace TheGame

/-- `WSContext`, without the endpoints and the target, which nothing reads. `wsSession` is the
`weak_ptr` to the session, as the session's address. -/
structure WSContext where
  uuid : Bytes := []
  wsSession : Option Nat := none
deriving DecidableEq

/-- A call of one of the four callbacks of `WSHandler`, with its arguments. -/
inductive HandlerCall
  | onConnect (ctx : WSContext)
  | onDisconnect (ctx : WSContext)
  | onReceive (ctx : WSContext) (data : Bytes) (size : Nat) (isBinary : Bool)
  | onError (ec : ErrorCode) (what : String)
deriving DecidableEq

/-- The members of `WebSocketSession`. `this` is the object's address, `key` the header field
`Sec-WebSocket-Key` of `req_`, `text` the option of `stream_` that `stream_.text(..)` sets. -/
structure WebSocketSession where
  this : Nat
  key : Bytes
  ctx : WSContext := {}
  buffer : Bytes := []
  writeBuf : Bytes := []
  text : Bool := true
deriving DecidableEq

namespace WebSocketSession

/-- What a member function starts on `stream_`, or calls in `handler_`. -/
inductive Action
  | asyncAccept
  | asyncRead
  | asyncWrite (view : Bytes)
  | invoke (call : HandlerCall)
deriving DecidableEq

/-- `WebSocketSession::Run`. -/
def run (s : WebSocketSession) : WebSocketSession × List Action := (s, [.asyncAccept])

/-- `WebSocketSession::Read`. -/
def read (s : WebSocketSession) : WebSocketSession × List Action := (s, [.asyncRead])

/-- `WebSocketSession::Write`: the view is the whole of `write_buf_`. -/
def write (s : WebSocketSession) : WebSocketSession × List Action := (s, [.asyncWrite s.writeBuf])

/-- `WebSocketSession::Send`. -/
def send (s : WebSocketSession) (data : Bytes) : WebSocketSession × List Action :=
  write { s with writeBuf := s.writeBuf ++ data }

/-- `WebSocketSession::OnAccept`. -/
def onAccept (s : WebSocketSession) (ec : ErrorCode) : WebSocketSession × List Action :=
  if ec.failed then
    (s, [.invoke (.onError ec "on accept")])
  else
    let s := { s with ctx := { uuid := s.key, wsSession := some s.this } }
    let (s, acts) := s.read
    (s, .invoke (.onConnect s.ctx) :: acts)

/-- `WebSocketSession::OnRead`; `gotText` is what `stream_.got_text()` returns. The callback runs
before `consume`; it cannot touch `buffer_`, so the two may be exchanged. -/
def onRead (s : WebSocketSession) (ec : ErrorCode) (gotText : Bool) :
    WebSocketSession × List Action :=
  if ec = .closed then
    (s, [.invoke (.onDisconnect s.ctx)])
  else if ec.failed then
    (s, [.invoke (.onError ec "on read")])
  else
    let p := s.buffer
    let s := { s with text := gotText }
    let call := HandlerCall.onReceive s.ctx p p.length (!s.text)
    let (s, acts) := read { s with buffer := s.buffer.drop p.length }
    (s, .invoke call :: acts)

/-- `WebSocketSession::OnWrite`. -/
def onWrite (s : WebSocketSession) (ec : ErrorCode) (bytesTransferred : Nat) :
    WebSocketSession × List Action :=
  if ec.failed then
    (s, [.invoke (.onError ec "on write")])
  else
    ({ s with writeBuf := s.writeBuf.drop bytesTransferred }, [])

/-! ## The stream -/

/-- A session with the operations outstanding on its stream: how many accepts and reads, and the
views of the writes, in the order they were started. `queued` writes have not been transmitted;
the writes `inFlight` have, but their completion has not been handled. -/
structure Stream where
  session : WebSocketSession
  accepts : Nat := 0
  reads : Nat := 0
  queued : List Bytes := []
  inFlight : List Bytes := []
deriving DecidableEq

/-- What the environment can do to a stream. -/
inductive Event
  /-- somebody calls `Send` -/
  | send (data : Bytes)
  /-- the oldest queued write is transmitted -/
  | transmit
  | accepted (ec : ErrorCode)
  /-- a read completes, having appended `payload` to the buffer -/
  | received (ec : ErrorCode) (payload : Bytes) (gotText : Bool)
  /-- the `i`-th of the writes in flight completes with success -/
  | written (i : Nat)
  /-- the `i`-th of the outstanding writes fails -/
  | writeFailed (i : Nat) (ec : ErrorCode)
deriving DecidableEq

/-- What an observer sees: messages handed to the peer, and calls of the handler. -/
inductive Output
  | message (m : Bytes)
  | call (c : HandlerCall)
deriving DecidableEq

namespace Stream

/-- Start the operations and make the calls which a member function asks for. -/
def perform (k : Stream) : List Action → Stream × List Output
  | [] => (k, [])
  | .asyncAccept :: as => perform { k with accepts := k.accepts + 1 } as
  | .asyncRead :: as => perform { k with reads := k.reads + 1 } as
  | .asyncWrite v :: as => perform { k with queued := k.queued ++ [v] } as
  | .invoke c :: as => let (k, os) := perform k as; (k, .call c :: os)

/-- The session has run a member function. -/
def apply (k : Stream) (r : WebSocketSession × List Action) : Stream × List Output :=
  perform { k with session := r.1 } r.2

/-- The number of outstanding operations; each of them holds a `shared_ptr` to the session. -/
def outstanding (k : Stream) : Nat := k.accepts + k.reads + k.queued.length + k.inFlight.length

/-- One event of the environment. -/
def step (k : Stream) : Event → Option (Stream × List Output)
  | .send data => some (k.apply (k.session.send data))
  | .transmit =>
    match k.queued with
    | [] => none
    | v :: q => some ({ k with queued := q, inFlight := k.inFlight ++ [v] }, [.message v])
  | .accepted ec =>
    if k.accepts = 0 then none else
      some ({ k with accepts := k.accepts - 1 }.apply (k.session.onAccept ec))
  | .received ec payload gotText =>
    if k.reads = 0 then none else
      let s := { k.session with buffer := k.session.buffer ++ payload }
      some ({ k with reads := k.reads - 1 }.apply (s.onRead ec gotText))
  | .written i =>
    match k.inFlight[i]? with
    | none => none
    | some v =>
      some ({ k with inFlight := k.inFlight.eraseIdx i }.apply
        (k.session.onWrite .success v.length))
  | .writeFailed i ec =>
    if !ec.failed || k.inFlight.length + k.queued.length ≤ i then none else
      let k := if i < k.inFlight.length then { k with inFlight := k.inFlight.eraseIdx i }
        else { k with queued := k.queued.eraseIdx (i - k.inFlight.length) }
      some (k.apply (k.session.onWrite ec 0))

end Stream

/-- A session at address `this` for a request with the given key, after its constructor and
`Run`. -/
def start (this : Nat) (key : Bytes) : Stream :=
  (Stream.apply { session := { this, key } } (run { this, key })).1

/-- The life of one session. -/
def machine (this : Nat) (key : Bytes) : Mealy Stream Event Output where
  init := start this key
  step := Stream.step

/-! ## What each event does -/

namespace Stream

variable {k k' : Stream} {os : List Output}

theorem step_send (data : Bytes) :
    k.step (.send data) = some ({ k with
      session := { k.session with writeBuf := k.session.writeBuf ++ data }
      queued := k.queued ++ [k.session.writeBuf ++ data] }, []) := rfl

theorem step_transmit :
    k.step .transmit = some (k', os) ↔
      ∃ v q, k.queued = v :: q ∧
        k' = { k with queued := q, inFlight := k.inFlight ++ [v] } ∧ os = [.message v] := by
  simp only [step]
  split <;> rename_i h
  · simp [h]
  · simp only [h, Option.some.injEq, Prod.mk.injEq, List.cons.injEq]
    constructor
    · rintro ⟨rfl, rfl⟩
      exact ⟨_, _, ⟨rfl, rfl⟩, rfl, rfl⟩
    · rintro ⟨_, _, ⟨rfl, rfl⟩, rfl, rfl⟩
      exact ⟨rfl, rfl⟩

theorem step_accepted {ec : ErrorCode} :
    k.step (.accepted ec) = some (k', os) ↔ 0 < k.accepts ∧
      ((ec ≠ .success ∧ k' = { k with accepts := k.accepts - 1 } ∧
          os = [.call (.onError ec "on accept")]) ∨
        ec = .success ∧
          k' = { k with
            accepts := k.accepts - 1
            reads := k.reads + 1
            session := { k.session with
              ctx := { uuid := k.session.key, wsSession := some k.session.this } } } ∧
          os = [.call (.onConnect
            { uuid := k.session.key, wsSession := some k.session.this })]) := by
  simp only [step, Nat.pos_iff_ne_zero]
  by_cases h : k.accepts = 0
  · simp [h]
  cases ec <;> simp [h, onAccept, ErrorCode.failed, apply, perform, read, eq_comm]

theorem step_received {ec : ErrorCode} {payload : Bytes} {gotText : Bool} :
    k.step (.received ec payload gotText) = some (k', os) ↔ 0 < k.reads ∧
      ((ec = .closed ∧ os = [.call (.onDisconnect k.session.ctx)] ∧
          k' = { k with
            reads := k.reads - 1
            session := { k.session with buffer := k.session.buffer ++ payload } }) ∨
        (ec ≠ .closed ∧ ec ≠ .success ∧ os = [.call (.onError ec "on read")] ∧
          k' = { k with
            reads := k.reads - 1
            session := { k.session with buffer := k.session.buffer ++ payload } }) ∨
        ec = .success ∧
          os = [.call (.onReceive k.session.ctx (k.session.buffer ++ payload)
            (k.session.buffer ++ payload).length (!gotText))] ∧
          k' = { k with session := { k.session with buffer := [], text := gotText } }) := by
  simp only [step, Nat.pos_iff_ne_zero]
  by_cases h : k.reads = 0
  · simp [h]
  have hr : k.reads - 1 + 1 = k.reads := by omega
  cases ec <;> simp [h, hr, onRead, ErrorCode.failed, apply, perform, read, eq_comm, and_comm]

theorem step_written {i : Nat} :
    k.step (.written i) = some (k', os) ↔ ∃ v, k.inFlight[i]? = some v ∧ os = [] ∧
      k' = { k with
        inFlight := k.inFlight.eraseIdx i
        session := { k.session with writeBuf := k.session.writeBuf.drop v.length } } := by
  simp only [step]
  split <;> rename_i h
  · simp [h]
  · simp [h, onWrite, apply, perform, eq_comm, and_comm]

theorem step_writeFailed {i : Nat} {ec : ErrorCode} :
    k.step (.writeFailed i ec) = some (k', os) ↔
      ec ≠ .success ∧ i < k.inFlight.length + k.queued.length ∧
        os = [.call (.onError ec "on write")] ∧
        k' = if i < k.inFlight.length then { k with inFlight := k.inFlight.eraseIdx i }
          else { k with queued := k.queued.eraseIdx (i - k.inFlight.length) } := by
  simp only [step]
  by_cases hec : ec = .success
  · simp [hec]
  have hf : ec.failed = true := ErrorCode.failed_eq_true.mpr hec
  by_cases hi : k.inFlight.length + k.queued.length ≤ i
  · simp [hf, hi, Nat.not_lt.mpr hi]
  simp only [hf, hi, Bool.not_true, Bool.false_or, decide_false, Bool.false_eq_true, if_false,
    onWrite, if_true, apply, perform, Option.some.injEq, Prod.mk.injEq]
  have hi' : i < k.inFlight.length + k.queued.length := by omega
  split <;> simp [hec, hi', eq_comm, and_comm]

end Stream

end WebSocketSession

end TheGame
