import TheGame.Apps.Availability
import TheGame.Apps.Drain
import TheGame.Networking.Http.Drain

/-!
# A server that nobody uses any more

When no socket is accepted any more and the clients send nothing, all that is outstanding completes,
unless an exception has ended the server before. No `HttpSession` and no `WebSocketSession` is left
then, and the listener still waits for the next client.
-/

namespace TheGame.Server
open Mealy

variable {host : Host} {app : App} {s t : Server} {e : Event} {es : List Event} {o os : List Output}

/-- The event brings in something new: a socket, or something that a client has sent. -/
def Event.isInput : Event → Bool
  | .runStart | .timer _ => false
  | .accepted .. => true
  | .http _ e _ => e.isInput
  | .stream _ e => e.isInput

/-- What a server has still to do. -/
def work (s : Server) : Nat :=
  s.listener.dispatched + s.clients.total (·.connection.work) + s.world.work

/-- Only a request can do something to the listener. -/
theorem effect_eq_nil {env : HttpEnv (WSHandler World)} {k k' : Connection} {f : Connection.Event}
    {p : List (Connection.Output (WSHandler World))} {order : List (Bytes × Nat)}
    (h : k.step env f = some (k', p)) (hf : f.isInput = false) :
    p.filterMap (effect host app order) = [] := by
  cases Connection.change_of_step h with
  | webSocket | respond | fault => cases hf
  | endOfStream | readFailed | transmit | written | closing | writeFailed => rfl

/-- Only a request can end the server. -/
theorem any_isFault {env : HttpEnv (WSHandler World)} {k k' : Connection} {f : Connection.Event}
    {p : List (Connection.Output (WSHandler World))} (h : k.step env f = some (k', p))
    (hf : f.isInput = false) : p.any (·.isFault) = false := by
  cases Connection.change_of_step h with
  | webSocket | respond | fault => cases hf
  | endOfStream | readFailed | transmit | written | closing | writeFailed => rfl

theorem terminated_step (h : step host app s e = some (t, o)) (he : e.isInput = false) :
    t.terminated = false := by
  have hrun := (step_eq_some.mp h).1
  cases change_of_step h with
  | listener | world => exact hrun
  | http hc hs hw => exact any_isFault hs he

/-- An event of the world brings in as much as it does in the world. -/
theorem isInput_of_world {f : World.Event} (h : e.world = some f) : e.isInput = f.isInput := by
  cases e with
  | stream | timer =>
    cases h
    rfl
  | runStart | accepted | http => cases h

theorem dispatched_runStart (host : Host) (app : App) {l l' : TcpListenerBase}
    {p : List TcpListenerBase.Output}
    (h : l.step false .runStart = some (l', p)) :
    l'.dispatched < l.dispatched ∧ p.filterMap (onAccept host app) = [] := by
  obtain ⟨hen, rfl, rfl⟩ := TcpListenerBase.step_eq_some.mp h
  have hpos : 0 < l.dispatched := by simpa [TcpListenerBase.enabled] using hen
  have hd : (l.apply .runStart).1.dispatched = l.dispatched - 1 := by
    rw [TcpListenerBase.apply, TcpListenerBase.doAccept]
    split <;> rfl
  rw [filterMap_onAccept, (TcpListenerBase.accounted_apply hen).sockets, hd]
  exact ⟨Nat.sub_one_lt_of_lt hpos, rfl⟩

theorem work_step (hr : (machine host app).run es = some (s, os))
    (h : step host app s e = some (t, o)) (he : e.isInput = false) : t.work < s.work := by
  cases change_of_step h with
  | @listener e f l p hf hl =>
    cases e with
    | runStart =>
      cases hf
      obtain ⟨hlt, hp⟩ := dispatched_runStart host app hl
      simp only [work, hp, List.append_nil]
      omega
    | accepted => cases he
    | http | stream | timer => cases hf
  | @http i f order c k p w m hc hs hw =>
    rw [effect_eq_nil hs he] at hw
    cases hw
    have hk := Connection.work_step hs he
    have ht := List.total_set (f := fun c : Client => c.connection.work)
      (b := { c with connection := k }) hc
    simp only [work] at ht ⊢
    omega
  | @world e f w m hf _ hw =>
    have hw := (runFrom_of_logged hw).1
    rw [runFrom_singleton] at hw
    have hlt := World.work_step (.of_run (run_world hr)) hw (isInput_of_world hf ▸ he)
    simp only [work]
    omega

theorem drains (host : Host) (app : App) : (machine host app).Drains
    (fun s => (machine host app).Reachable s ∧ s.terminated = false)
    (fun e => e.isInput = false) work := by
  rintro s e t o ⟨hR, -⟩ he h
  refine ⟨⟨hR.step h, terminated_step h he⟩, ?_⟩
  obtain ⟨es, os, hr⟩ := hR
  exact work_step hr h he

/-- The parts of a server at rest are at rest. -/
theorem atRest_parts (hrun : s.terminated = false)
    (H : (machine host app).AtRest (fun e => e.isInput = false) s) :
    s.listener.dispatched = 0 ∧
      (∀ c ∈ s.clients, c.connection.reads = 0 ∧ c.connection.writes = []) ∧
      (World.machine app).AtRest (fun e => e.isInput = false) s.world := by
  have rest {e : Event} {t : Server} {o : List Output} (h : step host app s e = some (t, o))
      (he : e.isInput = false) : False := by
    have hnone : step host app s e = none := H e he
    rw [hnone] at h
    cases h
  refine ⟨?_, fun c hc => ?_, fun f hf => ?_⟩
  · by_contra hd
    have hen : s.listener.enabled false .runStart = true := by
      simp [TcpListenerBase.enabled, Nat.pos_of_ne_zero hd]
    obtain ⟨o, h⟩ : ∃ o, step host app s .runStart = some (_, o) := step_of_listener hrun rfl hen
    exact rest h rfl
  · obtain ⟨i, hi⟩ := List.mem_iff_getElem?.mp hc
    have hrest : (Connection.machine (host.env app c.socket)).AtRest (fun f => f.isInput = false)
        c.connection := by
      intro f hf
      cases hs : c.connection.step (host.env app c.socket) f with
      | none => exact hs
      | some r =>
        obtain ⟨k, p⟩ := r
        have hw : (World.machine app).logged.runFrom s.world (p.filterMap (effect host app [])) =
            some (s.world, []) := by
          rw [effect_eq_nil hs hf]
          rfl
        exact (rest (step_http hrun hi hs hw) hf).elim
    exact Connection.atRest_iff.mp hrest
  · cases hs : World.step app s.world f with
    | none => exact hs
    | some r =>
      obtain ⟨w, p⟩ := r
      have hlog : (World.machine app).logged.runFrom s.world [f] = some (w, [(f, p)]) :=
        runFrom_singleton.trans (logged_step.mpr ⟨p, hs, rfl⟩)
      cases f with
      | connect | setState => cases hf
      | stream a g =>
        have hsend : isSend g = false := by
          cases g with
          | send => cases hf
          | transmit | accepted | received | written | writeFailed => rfl
        exact (rest (step_of_stream hrun hsend hs) hf).elim
      | timer i =>
        have h : step host app s (.timer i) = some (_, _) :=
          step_eq_some.mpr ⟨hrun, worldStep_eq_some.mpr ⟨w, _, hlog, rfl, rfl⟩⟩
        exact (rest h rfl).elim

/-- Nothing is outstanding but the accept of the next client. -/
structure Idle (s : Server) : Prop where
  clients : ∀ c ∈ s.clients, c.connection.reads = 0 ∧ c.connection.writes = []
  sessions : s.world.sessions = ∅
  timers : s.world.timers = []
  accepting : s.listener.isOpen = true ∧ s.listener.dispatched = 0 ∧ 0 < s.listener.accepts

theorem Idle.atRest (H : s.Idle) (hr : (machine host app).run es = some (s, os)) :
    (machine host app).AtRest (fun e => e.isInput = false) s := by
  have hworld : (World.machine app).AtRest (fun e => e.isInput = false) s.world :=
    (World.atRest_iff ⟨_, _, run_world hr⟩).mpr ⟨H.sessions, H.timers⟩
  intro e he
  by_contra hne
  obtain ⟨⟨t, o⟩, h⟩ := Option.ne_none_iff_exists'.mp hne
  cases change_of_step h with
  | listener hf hl =>
    cases e with
    | runStart =>
      cases hf
      have hlt := (dispatched_runStart host app hl).1
      rw [H.accepting.2.1] at hlt
      exact Nat.not_lt_zero _ hlt
    | accepted => cases he
    | http | stream | timer => cases hf
  | @http i f order c k p w m hc hs hw =>
    have hrest : c.connection.step (host.env app c.socket) f = none :=
      Connection.atRest_iff.mpr (H.clients c (List.mem_of_getElem? hc)) f he
    rw [hrest] at hs
    cases hs
  | @world e f w m hf _ hw =>
    have hrest := hworld f ((isInput_of_world hf).symm.trans he)
    have hw := (runFrom_of_logged hw).1
    rw [runFrom_singleton, hrest] at hw
    cases hw

theorem atRest_iff (hr : (machine host app).run es = some (s, os)) (hrun : s.terminated = false) :
    (machine host app).AtRest (fun e => e.isInput = false) s ↔ s.Idle := by
  refine ⟨fun hrest => ?_, fun H => H.atRest hr⟩
  obtain ⟨hd, hclients, hworld⟩ := atRest_parts hrun hrest
  obtain ⟨hsessions, htimers⟩ := (World.atRest_iff ⟨_, _, run_world hr⟩).mp hworld
  obtain ⟨hopen, hpending⟩ := pending_listener hr
  rw [hd, Nat.add_zero] at hpending
  exact ⟨hclients, hsessions, htimers, hopen, hd, hpending⟩

/-- From every state that a server can reach and in which it still runs, at most `work` completions
and timers follow one another when no socket is accepted and the clients send nothing. None is left
to follow exactly where no operation of an `HttpSession` is outstanding, there is no
`WebSocketSession` and no timer, and the listener waits for a client. Such a state is reached. -/
theorem comes_to_rest (hr : (machine host app).run es = some (s, os))
    (hrun : s.terminated = false) :
    (∀ fs t o, (machine host app).runFrom s fs = some (t, o) → (∀ e ∈ fs, e.isInput = false) →
      fs.length ≤ s.work ∧ ((∀ e, e.isInput = false → step host app t e = none) ↔ t.Idle)) ∧
    ∃ fs t o, (machine host app).runFrom s fs = some (t, o) ∧ (∀ e ∈ fs, e.isInput = false) ∧
      t.Idle := by
  have hR : (machine host app).Reachable s ∧ s.terminated = false := ⟨⟨es, os, hr⟩, hrun⟩
  constructor
  · intro fs t o hfrom hfs
    obtain ⟨⟨⟨gs, q, hr'⟩, hrun'⟩, hle⟩ := (drains host app).length_le hR hfs hfrom
    exact ⟨Nat.le_trans (Nat.le_add_right _ _) hle, atRest_iff hr' hrun'⟩
  · obtain ⟨fs, t, o, hfs, hfrom, ⟨⟨gs, q, hr'⟩, hrun'⟩, hrest⟩ :=
      (drains host app).exists_atRest hR
    exact ⟨fs, t, o, hfrom, hfs, (atRest_iff hr' hrun').mp hrest⟩

/-- A client has opened a WebSocket, and another one has sent a request. -/
theorem comes_to_rest_two : ∃ s os fs t o, (machine .loopback .simpleGame).run
    [.runStart, .accepted .success 7, .accepted .success 9,
      .http 0 (.readDone .success { Connection.upgrade (bytes "/") with key := bytes "k" }) [],
      .stream 0 (.accepted .success),
      .http 1 (.readDone .success (Connection.get (bytes "/test") true)) []] = some (s, os) ∧
    (machine .loopback .simpleGame).runFrom s fs = some (t, o) ∧
    (∀ e ∈ fs, e.isInput = false) ∧ t.Idle := by
  obtain ⟨s, os, hr, hruns⟩ := exists_run (M := machine .loopback .simpleGame)
    [.runStart, .accepted .success 7, .accepted .success 9,
      .http 0 (.readDone .success { Connection.upgrade (bytes "/") with key := bytes "k" }) [],
      .stream 0 (.accepted .success),
      .http 1 (.readDone .success (Connection.get (bytes "/test") true)) []]
    (P := fun s _ => s.terminated = false) (by decide +kernel)
  obtain ⟨fs, t, o, hrun, hfs, H⟩ := (comes_to_rest hr hruns).2
  exact ⟨s, os, fs, t, o, hr, hrun, hfs, H⟩

end TheGame.Server
