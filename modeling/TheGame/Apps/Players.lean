import TheGame.Apps.Membership

/-!
# `players_`, seen from the two strands

The player strand is a queue of the handlers posted by `AddPlayer`, `RemovePlayer` and
`BroadcastMessage`, and `players_` is the list which those that have run make of the empty one.
The command strand learns of every change by `OnPlayerJoined` and `OnPlayerLeft`, so that the
notifications, executed or still queued, replay the same list.
-/

namespace TheGame.GameSession
open Mealy

section
variable {P C : Type*}

/-- The handler which a call posts to the player strand. -/
def playerTask : Event P C → Option (PlayerTask P)
  | .addPlayer p => some (.addPlayer p)
  | .removePlayer p => some (.removePlayer p)
  | .broadcastMessage m x => some (.broadcastMessage m x)
  | _ => none

/-- The handlers posted to the player strand, in posting order. -/
def playerTasks (es : List (Event P C)) : List (PlayerTask P) := es.filterMap playerTask

/-- The event runs a handler of the player strand. -/
def Event.isPlayerRun : Event P C → Bool
  | .runPlayerStrand => true
  | _ => false

/-- The handlers of the player strand that have run. -/
def handled (es : List (Event P C)) : List (PlayerTask P) :=
  (playerTasks es).take (es.countP Event.isPlayerRun)

@[simp] theorem playerTasks_append (es fs : List (Event P C)) :
    playerTasks (es ++ fs) = playerTasks es ++ playerTasks fs := List.filterMap_append

end

variable {P C : Type*} [DecidableEq P] {s s' : GameSession P C} {p : P} {e : Event P C}
  {es : List (Event P C)} {o os : List (Output P C)} {ts : List (PlayerTask P)}

/-- What a handler of the player strand does to the member list. -/
def update (players : List P) : PlayerTask P → List P
  | .addPlayer p => players ++ [p]
  | .removePlayer p => players.erase p
  | .broadcastMessage .. => players

/-- The member list which the handlers build, in this order. -/
def members (ts : List (PlayerTask P)) : List P := ts.foldl update []

theorem members_concat {t : PlayerTask P} : members (ts ++ [t]) = update (members ts) t := by
  simp [members]

/-! ## The player strand -/

/-- A step that runs no handler of the player strand posts what it calls. -/
theorem step_of_not_playerRun (h : s.step e = some (s', o)) (he : e.isPlayerRun = false) :
    s'.playerStrand = s.playerStrand ++ (playerTask e).toList ∧ s'.players = s.players := by
  cases e with
  | onCommand c p | addPlayer p | removePlayer p | broadcastMessage m x =>
    cases h
    simp [playerTask, onCommand, addPlayer, removePlayer, broadcastMessage]
  | runCommandStrand =>
    obtain ⟨t, ts, -, rfl, -⟩ := step_runCommandStrand.mp h
    simp [playerTask]
  | runPlayerStrand => cases he

/-- A step that runs a handler of the player strand takes the oldest one. -/
theorem step_of_playerRun (h : s.step .runPlayerStrand = some (s', o)) :
    ∃ t, s.playerStrand = t :: s'.playerStrand ∧ s'.players = update s.players t := by
  obtain ⟨t, ts, hp, rfl, ht⟩ := step_runPlayerStrand h
  refine ⟨t, hp, ?_⟩
  obtain ⟨p, rfl, -, hs, -⟩ | ⟨p, rfl, -, -, hs, -⟩ | ⟨p, rfl, hm, -, hs, -⟩ |
    ⟨m, x, rfl, hs, -⟩ := ht
  · exact hs
  · exact hs
  · rw [hs, update, List.erase_of_not_mem hm]
  · exact hs

/-- The handlers that have run and those that wait are those that were posted, and the former
have built `players_`. -/
structure Handled (es : List (Event P C)) (s : GameSession P C) : Prop where
  length : (handled es).length = es.countP Event.isPlayerRun
  queue : handled es ++ s.playerStrand = playerTasks es
  players : s.players = members (handled es)

namespace Handled

/-- Posting a handler runs none. -/
theorem handled_call (H : Handled es s) (he : e.isPlayerRun = false) :
    handled (es ++ [e]) = handled es := by
  have hle : es.countP Event.isPlayerRun ≤ (playerTasks es).length := by
    rw [← H.length, ← H.queue, List.length_append]
    exact Nat.le_add_right _ _
  rw [handled, List.countP_append, playerTasks_append,
    List.countP_singleton, he, if_neg Bool.false_ne_true, Nat.add_zero,
    List.take_append_of_le_length hle, handled]

/-- The handler that runs is the oldest one posted and not run. -/
theorem handled_playerRun (H : Handled es s) {t : PlayerTask P}
    (ht : s.playerStrand = t :: s'.playerStrand) :
    handled (es ++ [.runPlayerStrand]) = handled es ++ [t] := by
  have hq := H.queue
  rw [ht, List.append_cons] at hq
  have hl : (handled es ++ [t]).length = es.countP Event.isPlayerRun + 1 := by
    rw [List.length_append, H.length, List.length_singleton]
  rw [handled, List.countP_append, playerTasks_append]
  show (playerTasks es ++ []).take (es.countP Event.isPlayerRun + 1) = handled es ++ [t]
  rw [List.append_nil, ← hq, ← hl, List.take_left]

theorem step (H : Handled es s) (h : s.step e = some (s', o)) : Handled (es ++ [e]) s' := by
  by_cases he : e.isPlayerRun
  · cases e with
    | runPlayerStrand =>
      obtain ⟨t, ht, hs⟩ := step_of_playerRun h
      have hh := H.handled_playerRun ht
      refine ⟨?_, ?_, ?_⟩
      · rw [hh, List.length_append, H.length, List.countP_append]
        rfl
      · rw [hh, ← List.append_cons, ← ht, H.queue, playerTasks_append]
        exact (List.append_nil _).symm
      · rw [hh, members_concat, ← H.players, hs]
    | _ => cases he
  · have he := Bool.eq_false_iff.mpr he
    obtain ⟨hq, hs⟩ := step_of_not_playerRun h he
    have hh := H.handled_call he
    refine ⟨?_, ?_, ?_⟩
    · rw [hh, H.length, List.countP_append, List.countP_singleton, he, if_neg Bool.false_ne_true,
        Nat.add_zero]
    · rw [hh, hq, ← List.append_assoc, H.queue, playerTasks_append]
      cases e <;> rfl
    · rw [hh, hs, H.players]

theorem of_run (hr : (machine P C).run es = some (s, os)) : Handled es s :=
  run_induction (P := fun es s _ => Handled es s) ⟨rfl, rfl, rfl⟩
    (fun _ _ _ _ _ _ _ H hs => H.step hs) hr

end Handled

/-! ## The view of the command strand -/

/-- The members, as one handler of the command strand changes them. -/
def replayStep (players : List P) : CommandTask P C → List P
  | .onPlayerJoined p => players ++ [p]
  | .onPlayerLeft p => players.erase p
  | .processCommand .. => players

/-- The members, as the notifications tell. -/
def replay (ts : List (CommandTask P C)) : List P := ts.foldl replayStep []

/-- How often the joining of `p` has been notified. -/
def joins (p : P) (ts : List (CommandTask P C)) : Nat :=
  ts.countP fun
    | .onPlayerJoined q => q = p
    | _ => false

/-- How often the leaving of `p` has been notified. -/
def leaves (p : P) (ts : List (CommandTask P C)) : Nat :=
  ts.countP fun
    | .onPlayerLeft q => q = p
    | _ => false

/-- Every leave is preceded by a join which no earlier leave has matched. -/
def LeavesMatched (ts : List (CommandTask P C)) : Prop :=
  Causal (fun pre t => ∀ p, t = .onPlayerLeft p → leaves p pre < joins p pre) ts

theorem replay_concat {ts : List (CommandTask P C)} {t : CommandTask P C} :
    replay (ts ++ [t]) = replayStep (replay ts) t := by
  simp [replay]

theorem joins_concat {ts : List (CommandTask P C)} {t : CommandTask P C} :
    joins p (ts ++ [t]) = joins p ts + joins p [t] := List.countP_append

theorem leaves_concat {ts : List (CommandTask P C)} {t : CommandTask P C} :
    leaves p (ts ++ [t]) = leaves p ts + leaves p [t] := List.countP_append

/-- The notifications `ts` account for the member list: they replay it, no leave among them is
unmatched, and each player is a member as often as its joins exceed its leaves. -/
structure Mirrors (ts : List (CommandTask P C)) (players : List P) : Prop where
  replay : replay ts = players
  matched : LeavesMatched ts
  balance : ∀ p, players.count p + leaves p ts = joins p ts

namespace Mirrors

variable {cs : List (CommandTask P C)} {players : List P}

theorem nil : Mirrors ([] : List (CommandTask P C)) [] := ⟨rfl, causal_nil, fun _ => rfl⟩

theorem command (H : Mirrors cs players) (c : C) (q : P) :
    Mirrors (cs ++ [.processCommand c q]) players := by
  refine ⟨?_, causal_concat.mpr ⟨H.matched, nofun⟩, fun p => ?_⟩
  · rw [replay_concat, H.replay]
    rfl
  · rw [joins_concat, leaves_concat, ← H.balance p]
    rfl

theorem join (H : Mirrors cs players) (q : P) :
    Mirrors (cs ++ [.onPlayerJoined q]) (players ++ [q]) := by
  refine ⟨?_, causal_concat.mpr ⟨H.matched, nofun⟩, fun p => ?_⟩
  · rw [replay_concat, H.replay]
    rfl
  · rw [joins_concat, leaves_concat, ← H.balance p, List.count_append]
    simp [joins, leaves, List.count_singleton]
    omega

/-- Only a member can leave, and then one of its joins is still unmatched. -/
theorem leave (H : Mirrors cs players) {q : P} (hq : q ∈ players) :
    Mirrors (cs ++ [.onPlayerLeft q]) (players.erase q) := by
  have hpos : 0 < players.count q := List.count_pos_iff.mpr hq
  refine ⟨?_, causal_concat.mpr ⟨H.matched, ?_⟩, fun p => ?_⟩
  · rw [replay_concat, H.replay]
    rfl
  · rintro p ⟨⟩
    have := H.balance q
    omega
  · rw [joins_concat, leaves_concat, ← H.balance p, List.count_erase]
    simp only [joins, leaves, List.countP_singleton]
    by_cases hpq : q = p
    · subst p
      simp
      omega
    · simp [hpq]

theorem step (H : Mirrors (posted s os) s.players) (h : s.step e = some (s', o)) :
    Mirrors (posted s' (os ++ o)) s'.players := by
  have hpost : posted s' (os ++ o) = posted s os ++ posts s e := posted_step h
  rw [hpost]
  cases e with
  | onCommand c p =>
    cases h
    exact H.command c p
  | addPlayer p | removePlayer p | broadcastMessage m x =>
    cases h
    rw [show posts s _ = [] from rfl, List.append_nil]
    exact H
  | runCommandStrand =>
    obtain ⟨t, ts, -, rfl, -⟩ := step_runCommandStrand.mp h
    rw [show posts s _ = [] from rfl, List.append_nil]
    exact H
  | runPlayerStrand =>
    obtain ⟨t, ts, hp, -, ht⟩ := step_runPlayerStrand h
    obtain ⟨p, rfl, -, hs, -⟩ | ⟨p, rfl, hm, -, hs, -⟩ | ⟨p, rfl, hm, -, hs, -⟩ |
      ⟨m, x, rfl, hs, -⟩ := ht
    · rw [hs, show posts s .runPlayerStrand = [.onPlayerJoined p] by simp [posts, hp]]
      exact H.join p
    · rw [hs, show posts s .runPlayerStrand = [.onPlayerLeft p] by simp [posts, hp, hm]]
      exact H.leave hm
    · rw [hs, show posts s .runPlayerStrand = [] by simp [posts, hp, hm], List.append_nil]
      exact H
    · rw [hs, show posts s .runPlayerStrand = [] by simp [posts, hp], List.append_nil]
      exact H

theorem of_run (hr : (machine P C).run es = some (s, os)) : Mirrors (posted s os) s.players := by
  refine run_induction (P := fun _ s os => Mirrors (posted s os) s.players) ?_ ?_ hr
  · exact nil
  · intro es s os e t o _ H hs
    exact H.step hs

end Mirrors

/-- In every state of every run, the notifications executed and those still queued replay exactly
`players_`. So no leave is seen without an unmatched earlier join, and once the command strand is
idle what it has seen is `players_`. -/
theorem replay_posted (hr : (machine P C).run es = some (s, os)) :
    replay (commands os ++ s.commandStrand) = s.players ∧ LeavesMatched (commands os) ∧
      (s.commandStrand = [] → replay (commands os) = s.players) := by
  have H : Mirrors (posted s os) s.players := .of_run hr
  refine ⟨H.replay, H.matched.prefix (List.prefix_append _ _), fun hidle => ?_⟩
  rw [← H.replay, posted, hidle, List.append_nil]

/-- A player joins twice and leaves three times; the second leave is not yet seen, and the third
one notifies nothing. -/
theorem replay_posted_twice :
    replay (C := String) [.onPlayerJoined 1, .onPlayerJoined 1, .onPlayerLeft 1,
        .onPlayerLeft (1 : Nat)] = [] ∧
      LeavesMatched (P := Nat) (C := String)
        [.onPlayerJoined 1, .onPlayerJoined 1, .onPlayerLeft 1] := by
  have hr : (machine Nat String).run [.addPlayer 1, .addPlayer 1, .removePlayer 1,
      .removePlayer 1, .removePlayer 1, .runPlayerStrand, .runPlayerStrand, .runPlayerStrand,
      .runCommandStrand, .runCommandStrand, .runCommandStrand, .runPlayerStrand,
      .runPlayerStrand] = some ({ commandStrand := [.onPlayerLeft 1] },
        [.command (.onPlayerJoined 1), .command (.onPlayerJoined 1),
          .command (.onPlayerLeft 1)]) := by decide
  have h := replay_posted hr
  exact ⟨h.1, h.2.1⟩

end TheGame.GameSession
