import TheGame.Networking.WebSocket.Delivery
import TheGame.Networking.WebSocket.Lifecycle

/-!
# The calls which a `WebSocketHandler` gets

Apart from the failures of writes, which may come at any time, the handler sees the accept and the
reads: `OnAccept` and each successful `OnRead` start the next read, every other completion starts
none. The buffer has been consumed whenever a read is started, so that the handler gets the bytes
of one message.
-/

namespace TheGame.WebSocketSession
open Mealy

variable {this : Nat} {key : Bytes} {k k' : Stream} {e : Event} {es : List Event}
  {o os : List Output} {ctx : WSContext} {cs : List Event} {hs : List HandlerCall}

/-- A message of the peer. -/
structure Message where
  payload : Bytes
  text : Bool
deriving DecidableEq

/-- The completion of the read that gets the message. -/
def Message.read (m : Message) : Event := .received .success m.payload m.text

/-- The call of `on_receive` for the message. -/
def Message.receive (ctx : WSContext) (m : Message) : HandlerCall :=
  .onReceive ctx m.payload m.payload.length (!m.text)

/-- The calls that come of the completions of the accept and of the reads. -/
inductive Protocol (ctx : WSContext) : List Event → List HandlerCall → Prop
  | waiting : Protocol ctx [] []
  | refused {ec : ErrorCode} (hec : ec ≠ .success) :
    Protocol ctx [.accepted ec] [.onError ec "on accept"]
  | reading (ms : List Message) :
    Protocol ctx (.accepted .success :: ms.map (·.read)) (.onConnect ctx :: ms.map (·.receive ctx))
  | closed (ms : List Message) (payload : Bytes) (text : Bool) :
    Protocol ctx (.accepted .success :: ms.map (·.read) ++ [.received .closed payload text])
      (.onConnect ctx :: ms.map (·.receive ctx) ++ [.onDisconnect ctx])
  | failed (ms : List Message) {ec : ErrorCode} (payload : Bytes) (text : Bool)
    (hec : ec ≠ .success) (hclosed : ec ≠ .closed) :
    Protocol ctx (.accepted .success :: ms.map (·.read) ++ [.received ec payload text])
      (.onConnect ctx :: ms.map (·.receive ctx) ++ [.onError ec "on read"])

/-- The completions of the accept and of the reads. -/
def completions (es : List Event) : List Event :=
  es.filter fun
    | .accepted _ | .received .. => true
    | _ => false

/-- The calls of the handler, in order. -/
def calls (os : List Output) : List HandlerCall :=
  os.filterMap fun
    | .call c => some c
    | .message _ => none

/-- The call tells of the failure of a write. -/
def HandlerCall.isWriteError : HandlerCall → Bool
  | .onError _ what => what = "on write"
  | _ => false

/-- The calls that tell of the failures of writes. -/
def writeErrors (es : List Event) : List HandlerCall :=
  es.filterMap fun
    | .writeFailed _ ec => some (.onError ec "on write")
    | _ => none

/-- The calls of the handler that do not tell of the failure of a write. -/
def protocolCalls (os : List Output) : List HandlerCall :=
  (calls os).filter fun c => !HandlerCall.isWriteError c

@[simp] theorem completions_append (es fs : List Event) :
    completions (es ++ fs) = completions es ++ completions fs := List.filter_append ..

@[simp] theorem writeErrors_append (es fs : List Event) :
    writeErrors (es ++ fs) = writeErrors es ++ writeErrors fs := List.filterMap_append

@[simp] theorem calls_append (o os : List Output) : calls (o ++ os) = calls o ++ calls os :=
  List.filterMap_append

@[simp] theorem protocolCalls_append (o os : List Output) :
    protocolCalls (o ++ os) = protocolCalls o ++ protocolCalls os := by
  rw [protocolCalls, calls_append, List.filter_append, protocolCalls, protocolCalls]

/-! ## The accept and the reads -/

/-- How far the session has come: what is outstanding, and the calls so far. -/
inductive Phase (ctx : WSContext) (k : Stream) : List Event → List HandlerCall → Prop
  | waiting (ha : k.accepts = 1) (hr : k.reads = 0) (hb : k.session.buffer = []) :
    Phase ctx k [] []
  | reading (ms : List Message) (ha : k.accepts = 0) (hr : k.reads = 1)
    (hb : k.session.buffer = []) (hc : k.session.ctx = ctx) :
    Phase ctx k (.accepted .success :: ms.map (·.read)) (.onConnect ctx :: ms.map (·.receive ctx))
  | ended {cs : List Event} {hs : List HandlerCall} (ha : k.accepts = 0) (hr : k.reads = 0)
    (h : Protocol ctx cs hs) :
    Phase ctx k cs hs

namespace Phase

theorem protocol (H : Phase ctx k cs hs) : Protocol ctx cs hs := by
  cases H with
  | waiting => exact .waiting
  | reading ms => exact .reading ms
  | ended _ _ h => exact h

theorem reads_le (H : Phase ctx k cs hs) : k.reads ≤ 1 := by
  cases H with
  | waiting _ hr | reading _ _ hr | ended _ hr => omega

theorem buffer_eq (H : Phase ctx k cs hs) (hpos : 0 < k.reads) : k.session.buffer = [] := by
  cases H with
  | waiting _ _ hb | reading _ _ _ hb => exact hb
  | ended _ hr => omega

/-- The phase is read off the outstanding operations, the buffer and the context. -/
theorem congr (H : Phase ctx k cs hs) (ha : k'.accepts = k.accepts) (hr : k'.reads = k.reads)
    (hb : k'.session.buffer = k.session.buffer) (hc : k'.session.ctx = k.session.ctx) :
    Phase ctx k' cs hs := by
  cases H with
  | waiting ha' hr' hb' => exact .waiting (ha.trans ha') (hr.trans hr') (hb.trans hb')
  | reading ms ha' hr' hb' hc' =>
    exact .reading ms (ha.trans ha') (hr.trans hr') (hb.trans hb') (hc.trans hc')
  | ended ha' hr' h => exact .ended (ha.trans ha') (hr.trans hr') h

theorem accepted {ec : ErrorCode} (H : Phase ctx k cs hs) (h : k.step (.accepted ec) = some (k', o))
    (hctx : ctx = acceptedCtx k.session.this k.session.key) :
    Phase ctx k' (cs ++ [.accepted ec]) (hs ++ protocolCalls o) := by
  obtain ⟨hpos, ht⟩ := Stream.step_accepted.mp h
  cases H with
  | waiting ha hr hb =>
    obtain ⟨hec, rfl, rfl⟩ | ⟨rfl, rfl, rfl⟩ := ht
    · exact .ended (by simp [ha]) hr (.refused hec)
    · subst hctx
      exact .reading [] (by simp [ha]) (by simp [hr]) hb rfl
  | reading _ ha | ended ha => omega

theorem received {ec : ErrorCode} {payload : Bytes} {text : Bool} (H : Phase ctx k cs hs)
    (h : k.step (.received ec payload text) = some (k', o)) :
    Phase ctx k' (cs ++ [.received ec payload text]) (hs ++ protocolCalls o) := by
  obtain ⟨hpos, ht⟩ := Stream.step_received.mp h
  cases H with
  | reading ms ha hr hb hc =>
    obtain ⟨rfl, rfl, rfl⟩ | ⟨hclosed, hec, rfl, rfl⟩ | ⟨rfl, rfl, rfl⟩ := ht
    · rw [hc]
      exact .ended ha (by simp [hr]) (.closed ms payload text)
    · exact .ended ha (by simp [hr]) (.failed ms payload text hec hclosed)
    · -- the buffer was empty, so it now holds the one message
      have hm : protocolCalls [.call (.onReceive k.session.ctx (k.session.buffer ++ payload)
          (k.session.buffer ++ payload).length (!text))] =
            [Message.receive ctx ⟨payload, text⟩] := by
        rw [hb, hc]
        rfl
      have hph : Phase ctx { k with session := { k.session with buffer := [], text := text } }
          (.accepted .success :: (ms ++ [Message.mk payload text]).map (·.read))
          (.onConnect ctx :: (ms ++ [Message.mk payload text]).map (·.receive ctx)) :=
        .reading _ ha hr rfl hc
      rw [List.map_append, List.map_append] at hph
      rw [hm]
      exact hph
  | waiting _ hr | ended _ hr => omega

theorem step (H : Phase (acceptedCtx this key) k (completions es) (protocolCalls os))
    (L : Lifecycle this key k os) (h : k.step e = some (k', o)) :
    Phase (acceptedCtx this key) k' (completions (es ++ [e])) (protocolCalls (os ++ o)) := by
  rw [completions_append, protocolCalls_append]
  cases e with
  | accepted ec => exact H.accepted h (by rw [L.this_eq, L.key_eq])
  | received ec payload text => exact H.received h
  | send data =>
    rw [Stream.step_send] at h
    cases h
    rw [show completions [.send data] = [] from rfl, show protocolCalls [] = [] from rfl,
      List.append_nil, List.append_nil]
    exact H.congr rfl rfl rfl rfl
  | transmit =>
    obtain ⟨v, q, -, rfl, rfl⟩ := Stream.step_transmit.mp h
    rw [show completions [.transmit] = [] from rfl, show protocolCalls [.message v] = [] from rfl,
      List.append_nil, List.append_nil]
    exact H.congr rfl rfl rfl rfl
  | written i =>
    obtain ⟨v, -, rfl, rfl⟩ := Stream.step_written.mp h
    rw [show completions [.written i] = [] from rfl, show protocolCalls [] = [] from rfl,
      List.append_nil, List.append_nil]
    exact H.congr rfl rfl rfl rfl
  | writeFailed i ec =>
    obtain ⟨-, -, rfl, rfl⟩ := Stream.step_writeFailed.mp h
    rw [show completions [.writeFailed i ec] = [] from rfl,
      show protocolCalls [.call (.onError ec "on write")] = [] from rfl,
      List.append_nil, List.append_nil]
    split <;> exact H.congr rfl rfl rfl rfl

theorem of_run (hr : (machine this key).run es = some (k, os)) :
    Phase (acceptedCtx this key) k (completions es) (protocolCalls os) := by
  refine run_induction (P := fun es k os =>
    Phase (acceptedCtx this key) k (completions es) (protocolCalls os)) ?_ ?_ hr
  · exact .waiting rfl rfl rfl
  · intro es k os e k' o hr H h
    exact H.step (.of_run hr) h

end Phase

/-! ## The writes -/

/-- Every write that fails is reported, and every write was started by one call of `Send`. -/
structure Writes (es : List Event) (k : Stream) (os : List Output) : Prop where
  reported : (calls os).filter HandlerCall.isWriteError = writeErrors es
  started : (writeErrors es).length + k.queued.length + k.inFlight.length ≤ (sends es).length

namespace Writes

/-- What a step has to do with the writes outstanding: it reports the one that fails, and only
`Send` starts one. -/
theorem next (H : Writes es k os)
    (ho : (calls o).filter HandlerCall.isWriteError = writeErrors [e])
    (hl : (writeErrors [e]).length + k'.queued.length + k'.inFlight.length ≤
      (sends [e]).length + k.queued.length + k.inFlight.length) :
    Writes (es ++ [e]) k' (os ++ o) := by
  constructor
  · rw [calls_append, List.filter_append, H.reported, ho, writeErrors_append]
  · have := H.started
    rw [writeErrors_append, sends_append, List.length_append, List.length_append]
    omega

theorem step (H : Writes es k os) (h : k.step e = some (k', o)) :
    Writes (es ++ [e]) k' (os ++ o) := by
  cases e with
  | send data =>
    rw [Stream.step_send] at h
    cases h
    refine H.next rfl ?_
    rw [List.length_append]
    change 0 + (k.queued.length + 1) + k.inFlight.length ≤ 1 + k.queued.length + k.inFlight.length
    omega
  | transmit =>
    obtain ⟨v, q, hq, rfl, rfl⟩ := Stream.step_transmit.mp h
    refine H.next rfl ?_
    simp [writeErrors, sends, hq]
    omega
  | accepted ec =>
    obtain ⟨-, ⟨-, rfl, rfl⟩ | ⟨-, rfl, rfl⟩⟩ := Stream.step_accepted.mp h
    · exact H.next rfl (Nat.le_refl _)
    · exact H.next rfl (Nat.le_refl _)
  | received ec payload text =>
    obtain ⟨-, ⟨-, rfl, rfl⟩ | ⟨-, -, rfl, rfl⟩ | ⟨-, rfl, rfl⟩⟩ := Stream.step_received.mp h
    · exact H.next rfl (Nat.le_refl _)
    · exact H.next rfl (Nat.le_refl _)
    · exact H.next rfl (Nat.le_refl _)
  | written i =>
    obtain ⟨v, -, rfl, rfl⟩ := Stream.step_written.mp h
    have hle : (k.inFlight.eraseIdx i).length ≤ k.inFlight.length := List.length_eraseIdx_le ..
    refine H.next rfl ?_
    simp [writeErrors, sends]
    omega
  | writeFailed i ec =>
    obtain ⟨-, hi, rfl, rfl⟩ := Stream.step_writeFailed.mp h
    refine H.next rfl ?_
    split <;> rename_i hlt
    · simp [writeErrors, sends, List.length_eraseIdx_of_lt hlt]
      omega
    · have hq : i - k.inFlight.length < k.queued.length := by omega
      simp [writeErrors, sends, List.length_eraseIdx_of_lt hq]
      omega

theorem of_run (hr : (machine this key).run es = some (k, os)) : Writes es k os := by
  refine run_induction (P := Writes) ?_ ?_ hr
  · exact ⟨rfl, Nat.le_refl 0⟩
  · intro es k os e k' o _ H h
    exact H.step h

end Writes

/-- Whatever completes in whatever order, the handler sees the accept and the reads as `Protocol`
says, and apart from that exactly the failures of writes, of which there are no more than calls of
`Send`. No second read is ever outstanding, and a read starts with an empty buffer. -/
theorem handler_protocol (hr : (machine this key).run es = some (k, os)) :
    Protocol (acceptedCtx this key) (completions es) (protocolCalls os) ∧
      (calls os).filter HandlerCall.isWriteError = writeErrors es ∧
      (writeErrors es).length ≤ (sends es).length ∧
      k.reads ≤ 1 ∧ (0 < k.reads → k.session.buffer = []) := by
  have H := Phase.of_run hr
  have W := Writes.of_run hr
  refine ⟨H.protocol, W.reported, ?_, H.reads_le, H.buffer_eq⟩
  have := W.started
  omega

/-- A text message, a write that fails, a binary message and a close. -/
theorem handler_protocol_close :
    Protocol (acceptedCtx 7 [75]) [.accepted .success, .received .success [97] true,
        .received .success [0, 1] false, .received .closed [] true]
      [.onConnect (acceptedCtx 7 [75]), .onReceive (acceptedCtx 7 [75]) [97] 1 false,
        .onReceive (acceptedCtx 7 [75]) [0, 1] 2 true, .onDisconnect (acceptedCtx 7 [75])] := by
  have hr : (machine 7 [75]).run [.accepted .success, .received .success [97] true, .send [98],
      .writeFailed 0 (.other 32), .received .success [0, 1] false, .received .closed [] true] =
        some (⟨⟨7, [75], acceptedCtx 7 [75], [], [98], false⟩, 0, 0, [], []⟩,
          [.call (.onConnect (acceptedCtx 7 [75])),
            .call (.onReceive (acceptedCtx 7 [75]) [97] 1 false),
            .call (.onError (.other 32) "on write"),
            .call (.onReceive (acceptedCtx 7 [75]) [0, 1] 2 true),
            .call (.onDisconnect (acceptedCtx 7 [75]))]) := by decide
  exact (handler_protocol hr).1

end TheGame.WebSocketSession
