import TheGame.Machine.Basic
import TheGame.Networking.Common

/-!
# `GameSession`

The two strands of `game_session.hpp` as queues of the handlers posted to them, and `players_`.
A strand runs its handlers one at a time, in the order they were posted; the two strands
interleave freely with each other and with the callers of the public member functions. `P` stands
for the (non-null) pointers `PlayerControllerPtr` and `C` for `Command`.
-/

namespace TheGame

variable {P C : Type*}

/-- A handler posted to `command_strand_`: a call of one of the three virtual functions. -/
inductive CommandTask (P C : Type*)
  | processCommand (command : C) (sender : P)
  | onPlayerJoined (player : P)
  | onPlayerLeft (player : P)
deriving DecidableEq

/-- A handler posted to `player_strand_`, by the function which posts it. -/
inductive PlayerTask (P : Type*)
  | addPlayer (player : P)
  | removePlayer (player : P)
  | broadcastMessage (message : Bytes) (except : Option P)
deriving DecidableEq

structure GameSession (P C : Type*) where
  commandStrand : List (CommandTask P C) := []
  playerStrand : List (PlayerTask P) := []
  players : List P := []
deriving DecidableEq

namespace GameSession

/-- What an observer sees: handlers of the command strand that run, and messages to players. -/
inductive Output (P C : Type*)
  | command (task : CommandTask P C)
  | sendMessage (player : P) (message : Bytes)
deriving DecidableEq

/-- `GameSession::OnCommand`. -/
def onCommand (s : GameSession P C) (command : C) (sender : P) : GameSession P C :=
  { s with commandStrand := s.commandStrand ++ [.processCommand command sender] }

/-- `GameSession::AddPlayer`. -/
def addPlayer (s : GameSession P C) (player : P) : GameSession P C :=
  { s with playerStrand := s.playerStrand ++ [.addPlayer player] }

/-- `GameSession::RemovePlayer`. -/
def removePlayer (s : GameSession P C) (player : P) : GameSession P C :=
  { s with playerStrand := s.playerStrand ++ [.removePlayer player] }

/-- `GameSession::BroadcastMessage`. -/
def broadcastMessage (s : GameSession P C) (message : Bytes) (except : Option P) :
    GameSession P C :=
  { s with playerStrand := s.playerStrand ++ [.broadcastMessage message except] }

/-- The bodies of the handlers of the player strand. -/
def runPlayerTask [DecidableEq P] (s : GameSession P C) :
    PlayerTask P → GameSession P C × List (Output P C)
  | .addPlayer player =>
    ({ s with
      players := s.players ++ [player]
      commandStrand := s.commandStrand ++ [.onPlayerJoined player] }, [])
  | .removePlayer player =>
    if player ∈ s.players then
      ({ s with
        commandStrand := s.commandStrand ++ [.onPlayerLeft player]
        players := s.players.erase player }, [])
    else
      (s, [])
  | .broadcastMessage message except =>
    (s, (s.players.filter fun player => some player ≠ except).map (.sendMessage · message))

/-- A call of a public member function, or one of the strands runs its oldest handler. -/
inductive Event (P C : Type*)
  | onCommand (command : C) (sender : P)
  | addPlayer (player : P)
  | removePlayer (player : P)
  | broadcastMessage (message : Bytes) (except : Option P)
  | runCommandStrand
  | runPlayerStrand
deriving DecidableEq

variable [DecidableEq P]

def step (s : GameSession P C) : Event P C → Option (GameSession P C × List (Output P C))
  | .onCommand command sender => some (s.onCommand command sender, [])
  | .addPlayer player => some (s.addPlayer player, [])
  | .removePlayer player => some (s.removePlayer player, [])
  | .broadcastMessage message except => some (s.broadcastMessage message except, [])
  | .runCommandStrand =>
    match s.commandStrand with
    | [] => none
    | task :: tasks => some ({ s with commandStrand := tasks }, [.command task])
  | .runPlayerStrand =>
    match s.playerStrand with
    | [] => none
    | task :: tasks => some ({ s with playerStrand := tasks }.runPlayerTask task)

/-- A game session without players, and its callers. -/
def machine (P C : Type*) [DecidableEq P] : Mealy (GameSession P C) (Event P C) (Output P C) where
  init := {}
  step := step

variable {s s' : GameSession P C} {o : List (Output P C)}

theorem step_runCommandStrand :
    s.step .runCommandStrand = some (s', o) ↔
      ∃ task tasks, s.commandStrand = task :: tasks ∧ s' = { s with commandStrand := tasks } ∧
        o = [.command task] := by
  simp only [step]
  split <;> rename_i h
  · simp [h]
  · simp [h, eq_comm, and_assoc]

/-- The handler of the player strand which runs posts at most one handler to the command strand. -/
theorem step_runPlayerStrand (h : s.step .runPlayerStrand = some (s', o)) :
    ∃ task tasks, s.playerStrand = task :: tasks ∧ s'.playerStrand = tasks ∧
      ((∃ p, task = .addPlayer p ∧ o = [] ∧ s'.players = s.players ++ [p] ∧
          s'.commandStrand = s.commandStrand ++ [.onPlayerJoined p]) ∨
        (∃ p, task = .removePlayer p ∧ p ∈ s.players ∧ o = [] ∧ s'.players = s.players.erase p ∧
          s'.commandStrand = s.commandStrand ++ [.onPlayerLeft p]) ∨
        (∃ p, task = .removePlayer p ∧ p ∉ s.players ∧ o = [] ∧ s'.players = s.players ∧
          s'.commandStrand = s.commandStrand) ∨
        ∃ m x, task = .broadcastMessage m x ∧ s'.players = s.players ∧
          s'.commandStrand = s.commandStrand ∧
          o = (s.players.filter fun player => some player ≠ x).map (.sendMessage · m)) := by
  simp only [step] at h
  split at h <;> rename_i hp
  · cases h
  rename_i task tasks
  have h := Option.some.inj h
  refine ⟨task, tasks, hp, ?_⟩
  cases task with
  | addPlayer p =>
    cases h
    exact ⟨rfl, .inl ⟨p, rfl, rfl, rfl, rfl⟩⟩
  | removePlayer p =>
    simp only [runPlayerTask] at h
    split at h <;> rename_i hm <;> cases h
    · exact ⟨rfl, .inr (.inl ⟨p, rfl, hm, rfl, rfl, rfl⟩)⟩
    · exact ⟨rfl, .inr (.inr (.inl ⟨p, rfl, hm, rfl, rfl, rfl⟩))⟩
  | broadcastMessage m x =>
    cases h
    exact ⟨rfl, .inr (.inr (.inr ⟨m, x, rfl, rfl, rfl, rfl⟩))⟩

end GameSession

end TheGame
