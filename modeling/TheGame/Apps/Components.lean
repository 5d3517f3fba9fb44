import TheGame.Apps.Server

/-!
# The parts of a server

What the listener, the world and each accepted socket of a server go through is a run of its own
machine, over the events that are about it. So whatever holds of every listener, of every world and
of every connection holds of the parts of a server, in whatever order its operations complete.
-/

namespace TheGame.Server
open Mealy

variable {host : Host} {app : App} {s t : Server} {e : Event} {es fs : List Event}
  {o os : List Output} {i : Nat} {c : Client} {l : List (Event × List Output)}

/-- The events of the listener. -/
def listenerEvents (es : List Event) : List TcpListenerBase.Hosted.Event :=
  es.filterMap fun e => e.listener.map .listener

/-- What the listener puts out. -/
def listenerOutputs (os : List Output) : List TcpListenerBase.Output :=
  os.filterMap fun
    | .listener o => some o
    | _ => none

/-- The events of the `i`-th accepted socket. -/
def clientEvents (i : Nat) (es : List Event) : List Connection.Event :=
  es.filterMap fun
    | .http j e _ => if j = i then some e else none
    | _ => none

/-- What the `i`-th accepted socket puts out. -/
def clientOutputs (i : Nat) (os : List Output) : List (Connection.Output (WSHandler World)) :=
  os.filterMap fun
    | .http j o => if j = i then some o else none
    | _ => none

@[simp] theorem listenerOutputs_append :
    listenerOutputs (os ++ o) = listenerOutputs os ++ listenerOutputs o := List.filterMap_append

@[simp] theorem listenerEvents_append :
    listenerEvents (es ++ fs) = listenerEvents es ++ listenerEvents fs := List.filterMap_append

@[simp] theorem clientEvents_append :
    clientEvents i (es ++ fs) = clientEvents i es ++ clientEvents i fs := List.filterMap_append

@[simp] theorem clientOutputs_append :
    clientOutputs i (os ++ o) = clientOutputs i os ++ clientOutputs i o := List.filterMap_append

theorem mem_clientOutputs {x : Connection.Output (WSHandler World)} :
    x ∈ clientOutputs i os ↔ .http i x ∈ os := by
  rw [clientOutputs, List.mem_filterMap]
  constructor
  · rintro ⟨y, hy, hx⟩
    cases y with
    | http j z =>
      obtain ⟨rfl, h⟩ := Option.ite_none_right_eq_some.mp hx
      cases h
      exact hy
    | listener | world => cases hx
  · exact fun h => ⟨_, h, if_pos rfl⟩

theorem clientEvents_log : clientEvents i (l.map Prod.fst) =
    l.flatMap fun x => clientEvents i [x.1] := by
  induction l with
  | nil => rfl
  | cons x l ih => rw [List.map_cons, List.flatMap_cons, ← ih, ← clientEvents_append]; rfl

theorem clientEvents_listener {f : TcpListenerBase.Event} (h : e.listener = some f) :
    clientEvents i [e] = [] := by
  cases e with
  | http => cases h
  | runStart | accepted | stream | timer => rfl

theorem clientEvents_world {f : World.Event} (h : e.world = some f) : clientEvents i [e] = [] := by
  cases e with
  | http => cases h
  | runStart | accepted | stream | timer => rfl

theorem listenerEvents_listener {f : TcpListenerBase.Event} (h : e.listener = some f) :
    listenerEvents [e] = [.listener f] := by simp [listenerEvents, h]

theorem listenerEvents_world {f : World.Event} (h : e.world = some f) :
    listenerEvents [e] = [] := by
  cases e with
  | runStart | accepted => cases h
  | http | stream | timer => rfl

/-! ## The outputs of a step, part by part -/

section
variable {p : List TcpListenerBase.Output} {q : List (Connection.Output (WSHandler World))}
  {m : List (World.Event × List World.Output)} {j : Nat}

theorem listenerOutputs_listener : listenerOutputs (p.map .listener) = p := by
  simp [listenerOutputs, List.filterMap_map]

theorem listenerOutputs_http : listenerOutputs (q.map (.http i)) = [] := by
  simp [listenerOutputs, List.filterMap_map]

theorem listenerOutputs_world : listenerOutputs (m.map fun x => .world x.1 x.2) = [] := by
  simp [listenerOutputs, List.filterMap_map]

theorem clientOutputs_listener : clientOutputs i (p.map .listener) = [] := by
  simp [clientOutputs, List.filterMap_map]

theorem clientOutputs_self : clientOutputs i (q.map (.http i)) = q := by
  simp [clientOutputs, List.filterMap_map]

theorem clientOutputs_ne (h : j ≠ i) : clientOutputs i (q.map (.http j)) = [] := by
  simp [clientOutputs, List.filterMap_map, h]

theorem clientOutputs_world : clientOutputs i (m.map fun x => .world x.1 x.2) = [] := by
  simp [clientOutputs, List.filterMap_map]

theorem worldEvents_listener : worldEvents (p.map .listener) = [] := by
  simp [worldEvents, List.filterMap_map]

theorem worldEvents_http : worldEvents (q.map (.http i)) = [] := by
  simp [worldEvents, List.filterMap_map]

theorem worldOutputs_listener : worldOutputs (p.map .listener) = [] := by
  simp [worldOutputs, List.flatMap_map]

theorem worldOutputs_http : worldOutputs (q.map (.http i)) = [] := by
  simp [worldOutputs, List.flatMap_map]

theorem worldOutputs_log : worldOutputs (m.map fun x => .world x.1 x.2) = m.flatMap Prod.snd := by
  simp [worldOutputs, List.flatMap_map]

end

/-! ## The world -/

/-- A step of the server is a run of its world. -/
theorem step_world (h : step host app s e = some (t, o)) :
    (World.machine app).runFrom s.world (worldEvents o) = some (t.world, worldOutputs o) := by
  cases change_of_step h with
  | listener he hs =>
    rw [worldEvents_listener, worldOutputs_listener]
    rfl
  | http hc hs hw =>
    obtain ⟨hrun, hlog⟩ := runFrom_of_logged hw
    rw [worldEvents_append, worldEvents_http, List.nil_append, worldEvents_log, hlog,
      worldOutputs_append, worldOutputs_http, List.nil_append, worldOutputs_log]
    exact hrun
  | world _ _ hw =>
    obtain ⟨hrun, hlog⟩ := runFrom_of_logged hw
    rw [worldEvents_log, hlog, worldOutputs_log]
    exact hrun

theorem runFrom_world (hr : (machine host app).runFrom s es = some (t, os)) :
    (World.machine app).runFrom s.world (worldEvents os) = some (t.world, worldOutputs os) := by
  induction es generalizing s os with
  | nil =>
    cases hr
    rfl
  | cons e es ih =>
    obtain ⟨u, o, os', hs, hrun, rfl⟩ := runFrom_cons.mp hr
    rw [worldEvents_append, worldOutputs_append]
    exact runFrom_append.mpr ⟨_, _, _, step_world hs, ih hrun, rfl⟩

theorem run_world (hr : (machine host app).run es = some (s, os)) :
    (World.machine app).run (worldEvents os) = some (s.world, worldOutputs os) := runFrom_world hr

/-- What can be told of the events of the world from what the sessions put out. -/
theorem filterMap_worldEvents {β : Type*} (g : World.Event → Option β)
    (g' : Connection.Output (WSHandler World) → Option β)
    (hworld : ∀ e f, Event.world e = some f → g f = none)
    (heffect : ∀ order x, (effect host app order x).bind g = g' x)
    (hr : (machine host app).runFrom s es = some (t, os)) :
    (worldEvents os).filterMap g = os.filterMap fun
      | .http _ x => g' x
      | _ => none := by
  induction es generalizing s os with
  | nil =>
    cases hr
    rfl
  | cons e es ih =>
    obtain ⟨u, o, os', hs, hrun, rfl⟩ := runFrom_cons.mp hr
    rw [worldEvents_append, List.filterMap_append, ih hrun, List.filterMap_append]
    congr 1
    cases change_of_step hs with
    | listener =>
      rw [worldEvents_listener]
      simp [List.filterMap_map]
    | @http _ _ order _ _ p _ _ _ _ hw =>
      rw [worldEvents_append, worldEvents_http, worldEvents_log, (runFrom_of_logged hw).2,
        List.nil_append, List.filterMap_filterMap, List.filterMap_append, List.filterMap_map,
        List.filterMap_map]
      simp [heffect]
    | world he _ hw =>
      rw [worldEvents_log, (runFrom_of_logged hw).2]
      simp [List.filterMap_map, hworld _ _ he]

/-! ## The clients -/

theorem step_clients_length (h : step host app s e = some (t, o)) :
    s.clients.length ≤ t.clients.length := by
  cases change_of_step h with
  | listener => exact List.length_append ▸ Nat.le_add_right ..
  | http => exact Nat.le_of_eq (List.length_set ..).symm
  | world => exact Nat.le_refl _

/-- Nothing is about a socket that has not been accepted. -/
theorem step_unused (h : step host app s e = some (t, o)) (hi : s.clients.length ≤ i) :
    clientEvents i [e] = [] ∧ clientOutputs i o = [] := by
  cases change_of_step h with
  | listener he => exact ⟨clientEvents_listener he, clientOutputs_listener⟩
  | http hc =>
    have hj := (List.getElem?_eq_some_iff.mp hc).1
    have hne : _ ≠ i := Nat.ne_of_lt (Nat.lt_of_lt_of_le hj hi)
    rw [clientOutputs_append, clientOutputs_ne hne, clientOutputs_world]
    exact ⟨by simp [clientEvents, hne], rfl⟩
  | world he => exact ⟨clientEvents_world he, clientOutputs_world⟩

theorem unused (hr : (machine host app).logged.run es = some (s, l)) :
    ∀ i, s.clients.length ≤ i → ∀ x ∈ l, clientEvents i [x.1] = [] ∧ clientOutputs i x.2 = [] := by
  refine logged_induction (P := fun _ s l => ∀ i, s.clients.length ≤ i → ∀ x ∈ l,
    clientEvents i [x.1] = [] ∧ clientOutputs i x.2 = []) (fun _ _ _ h => by cases h) ?_ hr
  intro es s l e t o hr ih hs i hi x hx
  have hle : s.clients.length ≤ i := Nat.le_trans (step_clients_length hs) hi
  rcases List.mem_append.mp hx with hx | hx
  · exact ih i hle x hx
  · cases List.mem_singleton.mp hx
    exact step_unused hs hle

/-- A client that is there after a step has made its part of the step, or is new. -/
theorem step_client (h : step host app s e = some (t, o)) (hc : t.clients[i]? = some c) :
    (∃ b, s.clients[i]? = some b ∧ b.socket = c.socket ∧
      (Connection.machine (host.env app c.socket)).runFrom b.connection (clientEvents i [e]) =
        some (c.connection, clientOutputs i o)) ∨
    s.clients.length ≤ i ∧ c.connection = (Connection.machine (host.env app c.socket)).init := by
  have same (he : clientEvents i [e] = []) (ho : clientOutputs i o = [])
      (hc : s.clients[i]? = some c) :
      ∃ b, s.clients[i]? = some b ∧ b.socket = c.socket ∧
        (Connection.machine (host.env app c.socket)).runFrom b.connection (clientEvents i [e]) =
          some (c.connection, clientOutputs i o) := by
    rw [he, ho]
    exact ⟨c, hc, rfl, rfl⟩
  cases change_of_step h with
  | listener he hs =>
    rcases Nat.lt_or_ge i s.clients.length with hi | hi
    · rw [List.getElem?_append_left hi] at hc
      exact .inl (same (clientEvents_listener he) clientOutputs_listener hc)
    · refine .inr ⟨hi, ?_⟩
      rw [List.getElem?_append_right hi] at hc
      obtain ⟨p, -, hp⟩ := List.mem_filterMap.mp (List.mem_of_getElem? hc)
      obtain ⟨socket, -, rfl⟩ := Option.map_eq_some_iff.mp hp
      rfl
  | @http j f order b k p w m hb hs hw =>
    by_cases hij : j = i
    · subst hij
      rw [List.getElem?_set_self (List.getElem?_eq_some_iff.mp hb).1] at hc
      cases hc
      refine .inl ⟨b, hb, rfl, ?_⟩
      rw [clientOutputs_append, clientOutputs_self, clientOutputs_world, List.append_nil,
        show clientEvents j [.http j f order] = [f] by simp [clientEvents], runFrom_singleton]
      exact hs
    · rw [List.getElem?_set_ne hij] at hc
      refine .inl (same ?_ ?_ hc)
      · simp [clientEvents, hij]
      · rw [clientOutputs_append, clientOutputs_ne hij, clientOutputs_world]
        rfl
  | world he => exact .inl (same (clientEvents_world he) clientOutputs_world hc)

/-- The `i`-th accepted socket as a part of the server. -/
def clientPart (host : Host) (app : App) (i : Nat) :
    Part (machine host app) fun socket => Connection.machine (host.env app socket) where
  get s := s.clients[i]?.map fun c => (c.socket, c.connection)
  events x := clientEvents i [x.1]
  outputs x := clientOutputs i x.2
  init h := by simp [machine] at h
  step := by
    intro es s l e t o socket k hr hs h
    obtain ⟨c, hc, heq⟩ := Option.map_eq_some_iff.mp h
    cases heq
    obtain ⟨b, hb, hsocket, hrun⟩ | ⟨hi, hinit⟩ := step_client hs hc
    · exact .inl ⟨b.connection, by rw [hb, ← hsocket]; rfl, hrun⟩
    · refine .inr ⟨hinit, fun x hx => ?_⟩
      rcases List.mem_append.mp hx with hx | hx
      · exact unused hr i hi x hx
      · cases List.mem_singleton.mp hx
        exact step_unused hs hi

theorem run_client (hr : (machine host app).run es = some (s, os)) (hc : s.clients[i]? = some c) :
    (Connection.machine (host.env app c.socket)).run (clientEvents i es) =
      some (c.connection, clientOutputs i os) := by
  obtain ⟨l, hl, rfl⟩ := exists_log hr
  have hget : (clientPart host app i).get s = some (c.socket, c.connection) :=
    Option.map_eq_some_iff.mpr ⟨c, hc, rfl⟩
  have h := (clientPart host app i).run hl hget
  have hes : clientEvents i es = l.flatMap (clientPart host app i).events := by
    rw [← (runFrom_of_logged hl).2]
    exact clientEvents_log
  have hos : clientOutputs i (l.flatMap Prod.snd) = l.flatMap (clientPart host app i).outputs := by
    rw [clientOutputs, List.filterMap_flatMap]
    rfl
  rw [hes, hos]
  exact h

/-! ## The listener -/

/-- The listener of a server is not stopped. -/
theorem stops_of_listener {f : TcpListenerBase.Event} (h : e.listener = some f) :
    f.stops = false := by
  cases e with
  | runStart | accepted =>
    cases h
    rfl
  | http | stream | timer => cases h

theorem step_listener (h : step host app s e = some (t, o)) :
    TcpListenerBase.Hosted.machine.runFrom ⟨s.listener, false⟩ (listenerEvents [e]) =
        some (⟨t.listener, false⟩, listenerOutputs o) ∧
      t.clients.map Client.socket =
        s.clients.map Client.socket ++ (listenerOutputs o).filterMap (·.socket) := by
  cases change_of_step h with
  | @listener e f l p he hs =>
    rw [listenerEvents_listener he, listenerOutputs_listener, runFrom_singleton]
    refine ⟨?_, ?_⟩
    · change (s.listener.step false f).map _ = _
      rw [hs, stops_of_listener he]
      rfl
    · rw [List.map_append, List.map_filterMap]
      refine congrArg _ (List.filterMap_congr fun x _ => ?_)
      rw [onAccept, Option.map_map]
      exact Option.map_id'
  | @http j f order b k p w m hb hs hw =>
    have hclients : (s.clients.set j { b with connection := k }).map Client.socket =
        s.clients.map Client.socket := by
      obtain ⟨hj, rfl⟩ := List.getElem?_eq_some_iff.mp hb
      have hj' : j < (s.clients.map Client.socket).length := by rwa [List.length_map]
      have hset := List.set_getElem_self hj'
      rw [List.getElem_map] at hset
      rw [List.map_set, hset]
    rw [listenerOutputs_append, listenerOutputs_http, listenerOutputs_world, hclients]
    exact ⟨rfl, (List.append_nil _).symm⟩
  | world he =>
    rw [listenerEvents_world he, listenerOutputs_world]
    exact ⟨rfl, (List.append_nil _).symm⟩

theorem run_listener (hr : (machine host app).run es = some (s, os)) :
    TcpListenerBase.Hosted.machine.run (.listener (.start false) :: listenerEvents es) =
        some (⟨s.listener, false⟩, .start :: listenerOutputs os) ∧
      s.clients.map Client.socket = (listenerOutputs os).filterMap (·.socket) := by
  refine run_induction (P := fun es s os =>
    TcpListenerBase.Hosted.machine.run (.listener (.start false) :: listenerEvents es) =
        some (⟨s.listener, false⟩, .start :: listenerOutputs os) ∧
      s.clients.map Client.socket = (listenerOutputs os).filterMap (·.socket)) ⟨rfl, rfl⟩ ?_ hr
  rintro es s os e t o hr ⟨ih, hsockets⟩ hs
  obtain ⟨hstep, hclients⟩ := step_listener hs
  refine ⟨?_, ?_⟩
  · rw [listenerEvents_append, listenerOutputs_append, ← List.cons_append]
    exact runFrom_append.mpr ⟨_, _, _, ih, hstep, rfl⟩
  · rw [hclients, hsockets, listenerOutputs_append, List.filterMap_append]

/-- In every run of a server, the listener, the world and every accepted socket make runs of their
own machines, over the events about them, and the clients are the sockets handed to `OnAccept`. -/
theorem run_parts (hr : (machine host app).run es = some (s, os)) :
    TcpListenerBase.Hosted.machine.run (.listener (.start false) :: listenerEvents es) =
        some (⟨s.listener, false⟩, .start :: listenerOutputs os) ∧
      (World.machine app).run (worldEvents os) = some (s.world, worldOutputs os) ∧
      s.clients.map Client.socket = (listenerOutputs os).filterMap (·.socket) ∧
      ∀ i c, s.clients[i]? = some c →
        (Connection.machine (host.env app c.socket)).run (clientEvents i es) =
          some (c.connection, clientOutputs i os) :=
  ⟨(run_listener hr).1, run_world hr, (run_listener hr).2, fun _ _ => run_client hr⟩

/-- Two clients connect; the second one sets the state, the first one sends a request. -/
theorem run_parts_two : ∃ s os, (machine .loopback .simpleGame).run
    [.runStart, .accepted .success 7, .accepted .success 9,
      .http 1 (.readDone .success
        { Connection.get (bytes "/test/set_state") true with method := .post, body := bytes "on" })
        [],
      .http 0 (.readDone .success (Connection.get (bytes "/test") true)) []] = some (s, os) ∧
    worldEvents os ≠ [] ∧ s.world.state = bytes "on" ∧
    s.clients.map Client.socket = [7, 9] ∧ ∃ c, s.clients[1]? = some c ∧
      (Connection.machine (Host.loopback.env .simpleGame c.socket)).run
        [.readDone .success
          { Connection.get (bytes "/test/set_state") true with
            method := .post, body := bytes "on" }] =
          some (c.connection, clientOutputs 1 os) := by
  obtain ⟨s, os, hr, hworld, hstate, hsockets, hc⟩ :=
    exists_run (M := machine .loopback .simpleGame)
    [.runStart, .accepted .success 7, .accepted .success 9,
      .http 1 (.readDone .success
        { Connection.get (bytes "/test/set_state") true with method := .post, body := bytes "on" })
        [],
      .http 0 (.readDone .success (Connection.get (bytes "/test") true)) []]
    (P := fun s os => (worldEvents os).length = 1 ∧ s.world.state = bytes "on" ∧
      s.clients.map Client.socket = [7, 9] ∧ s.clients[1]?.isSome) (by decide +kernel)
  obtain ⟨c, hc⟩ := Option.isSome_iff_exists.mp hc
  obtain ⟨-, -, -, hclient⟩ := run_parts hr
  refine ⟨s, os, hr, ?_, hstate, hsockets, c, hc, hclient 1 c hc⟩
  intro h
  rw [h] at hworld
  cases hworld

end TheGame.Server
