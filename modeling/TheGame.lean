import TheGame.Machine.Basic
import TheGame.Machine.Simulation
import TheGame.Networking.Common
import TheGame.Networking.WebSocket.Session
import TheGame.Networking.WebSocket.Delivery
import TheGame.Data.UnorderedMap
import TheGame.Networking.Http.Common
import TheGame.Apps.Listener
import TheGame.Networking.WebSocket.Lifecycle
import TheGame.Apps.World
import TheGame.Apps.Registry
import TheGame.Apps.GameSession
import TheGame.Apps.Membership
import TheGame.Uri.Grammar
import TheGame.Networking.Http.Url
import TheGame.Networking.Http.Query
import TheGame.Networking.Http.Session
import TheGame.Networking.Http.Connection
import TheGame.Networking.Http.Exclusivity
import TheGame.Networking.Http.Engaged
import TheGame.Networking.Http.KeepAlive
import TheGame.Networking.Http.Shutdown
import TheGame.Apps.Players
import TheGame.Apps.Broadcast
import TheGame.Networking.Http.Outcome
import TheGame.Networking.WebSocket.Protocol
import TheGame.Networking.Http.Independence
import TheGame.Networking.Http.Routing
import TheGame.Apps.Freshness
import TheGame.Networking.RouteTable
import TheGame.Visit.Visitable
import TheGame.Visit.VisitorBase
import TheGame.Visit.Trace
import TheGame.Visit.Calls
import TheGame.Visit.Members
import TheGame.Networking.AcceptLoop
import TheGame.Networking.Servers
import TheGame.Domain.Deck
import TheGame.Networking.Http.Endpoint
import TheGame.Data.FirstMatch
import TheGame.Networking.RouteBuilder
import TheGame.Apps.Ownership
import TheGame.Machine.Log
import TheGame.Apps.Drain
import TheGame.Apps.Sessions
import TheGame.Apps.Echo
import TheGame.Apps.Schedules
import TheGame.Apps.Routes
import TheGame.Apps.ServerDrain
import TheGame.Apps.PlayerController
import TheGame.Apps.Parameters
import TheGame.Apps.Roster
import TheGame.Apps.Isolation
