import TheGame.Apps.Components
import TheGame.Networking.Http.Sequential

/-!
# What the clients of a server see of each other

The callbacks of the listeners answer a request from the request alone. So a client that waits for
its responses gets the same bytes whatever the other clients do, however many of them there are, and
whether or not they wait.
-/

namespace TheGame.Server
open Mealy
open Connection (Waits exchange requests wire)

variable {host : Host} {app : App} {s s' : Server} {es es' : List Event} {os os' : List Output}
  {i i' : Nat} {c c' : Client}

/-- The `i`-th accepted socket belongs to a client that waits. -/
def ClientWaits (host : Host) (app : App) (i : Nat) (c : Client) (es : List Event) : Prop :=
  (Connection.machine (host.env app c.socket)).Along (Waits (host.env app c.socket))
    (clientEvents i es)

instance : Decidable (ClientWaits host app i c es) :=
  inferInstanceAs (Decidable ((Connection.machine _).Along _ _))

/-- The bytes that the `i`-th client has got and those still to be sent are the responses to its
requests, one request at a time. -/
theorem wire_client (hr : (machine host app).run es = some (s, os)) (hc : s.clients[i]? = some c)
    (hw : ClientWaits host app i c es) :
    wire (clientOutputs i os) ++ c.connection.unsent =
      (exchange (host.env app c.socket) (requests (clientEvents i es))).flatMap host.serialize :=
  (Connection.Exchanged.of_run (run_client hr hc) hw).sent

theorem env_congr {socket socket' : Nat}
    (h : host.localEndpoint socket = host.localEndpoint socket') :
    host.env app socket = host.env app socket' := by
  rw [Host.env, Host.env, h]

/-- Two clients that wait and make the same requests, each in any run of the server and among
any other clients, get the same bytes, up to those that are still to be sent. -/
theorem wire_isolated (hr : (machine host app).run es = some (s, os))
    (hr' : (machine host app).run es' = some (s', os'))
    (hc : s.clients[i]? = some c) (hc' : s'.clients[i']? = some c')
    (hend : host.localEndpoint c.socket = host.localEndpoint c'.socket)
    (hw : ClientWaits host app i c es) (hw' : ClientWaits host app i' c' es')
    (hreq : requests (clientEvents i es) = requests (clientEvents i' es')) :
    wire (clientOutputs i os) ++ c.connection.unsent =
      wire (clientOutputs i' os') ++ c'.connection.unsent := by
  rw [wire_client hr hc hw, wire_client hr' hc' hw', env_congr hend, hreq]

/-- A request whose target nobody handles, made by the only client of a server and by the second one
of another server, whose first client does not wait. -/
theorem wire_isolated_second : ∃ s os c t o c', (machine .loopback .simpleGame).run
    [.runStart, .accepted .success 7,
      .http 0 (.readDone .success (Connection.get (bytes "/x") true)) [],
      .http 0 (.transmit 0 26) []] = some (s, os) ∧ s.clients[0]? = some c ∧
    (machine .loopback .simpleGame).run
      [.runStart, .accepted .success 7, .accepted .success 9,
        .http 0 (.readDone .success (Connection.get (bytes "/test") true)) [],
        .http 1 (.readDone .success (Connection.get (bytes "/x") true)) [],
        .http 0 (.readDone .success (Connection.get (bytes "/test") true)) [],
        .http 1 (.transmit 0 20) []] = some (t, o) ∧ t.clients[1]? = some c' ∧
    wire (clientOutputs 0 os) ++ c.connection.unsent =
      wire (clientOutputs 1 o) ++ c'.connection.unsent := by
  obtain ⟨s, os, hr, hc⟩ := exists_run (M := machine .loopback .simpleGame)
    [.runStart, .accepted .success 7,
      .http 0 (.readDone .success (Connection.get (bytes "/x") true)) [],
      .http 0 (.transmit 0 26) []]
    (P := fun s _ => s.clients[0]?.any fun c => ClientWaits .loopback .simpleGame 0 c
      [.runStart, .accepted .success 7,
        .http 0 (.readDone .success (Connection.get (bytes "/x") true)) [],
        .http 0 (.transmit 0 26) []]) (by decide +kernel)
  obtain ⟨t, o, hr', hc'⟩ := exists_run (M := machine .loopback .simpleGame)
    [.runStart, .accepted .success 7, .accepted .success 9,
      .http 0 (.readDone .success (Connection.get (bytes "/test") true)) [],
      .http 1 (.readDone .success (Connection.get (bytes "/x") true)) [],
      .http 0 (.readDone .success (Connection.get (bytes "/test") true)) [],
      .http 1 (.transmit 0 20) []]
    (P := fun t _ => t.clients[1]?.any fun c => ClientWaits .loopback .simpleGame 1 c
      [.runStart, .accepted .success 7, .accepted .success 9,
        .http 0 (.readDone .success (Connection.get (bytes "/test") true)) [],
        .http 1 (.readDone .success (Connection.get (bytes "/x") true)) [],
        .http 0 (.readDone .success (Connection.get (bytes "/test") true)) [],
        .http 1 (.transmit 0 20) []]) (by decide +kernel)
  obtain ⟨c, hc, hw⟩ := Option.any_eq_true _ _ |>.mp hc
  obtain ⟨c', hc', hw'⟩ := Option.any_eq_true _ _ |>.mp hc'
  exact ⟨s, os, c, t, o, c', hr, hc, hr', hc',
    wire_isolated hr hr' hc hc' rfl (of_decide_eq_true hw) (of_decide_eq_true hw') rfl⟩

end TheGame.Server
