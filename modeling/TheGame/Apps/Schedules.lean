import TheGame.Apps.Broadcast
import TheGame.Apps.Membership
import TheGame.Machine.Quiescence

/-!
# Schedules of the two strands

The `io_context` may run the two strands of a `GameSession` in any order, and on different threads.
What they do between two calls of the public member functions does not depend on it: a handler of
the one strand takes nothing away from the other one.
-/

namespace TheGame.GameSession
open Mealy

variable {P C : Type*} [DecidableEq P] {s s' t u : GameSession P C} {e : Event P C}
  {es fs : List (Event P C)} {o os : List (Output P C)}

/-- A strand runs its oldest handler. -/
def Event.isStrand : Event P C → Bool
  | .runCommandStrand | .runPlayerStrand => true
  | _ => false

/-- The handlers that run until both strands are empty: those that wait, and those that the
handlers of the player strand may post to the command strand. -/
def ahead (s : GameSession P C) : Nat := s.commandStrand.length + 2 * s.playerStrand.length

theorem drains : (machine P C).Drains (fun _ => True) (fun e => e.isStrand = true) ahead := by
  intro s e s' o _ he h
  refine ⟨trivial, ?_⟩
  cases e with
  | onCommand | addPlayer | removePlayer | broadcastMessage => cases he
  | runCommandStrand =>
    obtain ⟨c, cs, hc, rfl, -⟩ := step_runCommandStrand.mp h
    simp only [ahead, hc, List.length_cons]
    omega
  | runPlayerStrand =>
    obtain ⟨p, ps, hp, hps, ht⟩ := step_runPlayerStrand h
    simp only [ahead, hp, hps, List.length_cons]
    obtain ⟨_, -, -, -, hc⟩ | ⟨_, -, -, -, -, hc⟩ | ⟨_, -, -, -, -, hc⟩ |
      ⟨_, _, -, -, hc, -⟩ := ht <;>
      simp only [hc, List.length_append, List.length_singleton] <;> omega

/-- Nothing waits any more. -/
theorem atRest_iff : (machine P C).AtRest (fun e => e.isStrand = true) s ↔
    s.commandStrand = [] ∧ s.playerStrand = [] := by
  constructor
  · intro h
    have hc : s.step .runCommandStrand = none := h .runCommandStrand rfl
    have hp : s.step .runPlayerStrand = none := h .runPlayerStrand rfl
    constructor
    · cases hs : s.commandStrand with
      | nil => rfl
      | cons c cs => simp [step, hs] at hc
    · cases hs : s.playerStrand with
      | nil => rfl
      | cons p ps => simp [step, hs] at hp
  · rintro ⟨hc, hp⟩ e he
    cases e with
    | onCommand | addPlayer | removePlayer | broadcastMessage => cases he
    | runCommandStrand =>
      change s.step .runCommandStrand = none
      simp [step, hc]
    | runPlayerStrand =>
      change s.step .runPlayerStrand = none
      simp [step, hp]

/-- A handler of the player strand appends to the command strand, and does not look at it. -/
theorem exists_runPlayerTask (s : GameSession P C) (task : PlayerTask P) :
    ∃ tasks players o, ∀ cs : List (CommandTask P C),
      runPlayerTask { s with commandStrand := cs } task =
        ({ s with commandStrand := cs ++ tasks, players }, o) := by
  cases task with
  | addPlayer q => exact ⟨[.onPlayerJoined q], s.players ++ [q], [], fun _ => rfl⟩
  | removePlayer q =>
    by_cases hq : q ∈ s.players
    · exact ⟨[.onPlayerLeft q], s.players.erase q, [], fun _ => if_pos hq⟩
    · refine ⟨[], s.players, [], fun cs => ?_⟩
      rw [List.append_nil]
      exact if_neg hq
  | broadcastMessage m x =>
    refine ⟨[], s.players,
      (s.players.filter fun player => some player ≠ x).map (.sendMessage · m), fun cs => ?_⟩
    rw [List.append_nil]
    rfl

theorem exchange {p : List (Output P C)} (hc : s.step .runCommandStrand = some (t, o))
    (hp : s.step .runPlayerStrand = some (u, p)) :
    ∃ v, t.step .runPlayerStrand = some (v, p) ∧ u.step .runCommandStrand = some (v, o) := by
  obtain ⟨c, cs, hcs, rfl, rfl⟩ := step_runCommandStrand.mp hc
  obtain ⟨task, tasks, hps, -⟩ := step_runPlayerStrand hp
  obtain ⟨ds, players, q, hrun⟩ := exists_runPlayerTask { s with playerStrand := tasks } task
  have hu : ({ s with commandStrand := c :: (cs ++ ds), playerStrand := tasks, players }, q) =
      (u, p) := by
    simp only [step, hps, Option.some.injEq] at hp
    rw [← hp, ← List.cons_append, ← hcs]
    exact (hrun s.commandStrand).symm
  cases hu
  refine ⟨{ s with commandStrand := cs ++ ds, playerStrand := tasks, players }, ?_, rfl⟩
  simp only [step, hps]
  exact congrArg some (hrun cs)

/-- The handlers of the two strands may be exchanged. -/
theorem commutes : (machine P C).Commutes (fun e => e.isStrand = true) := by
  intro s e f t u o p he hf hne hs hs'
  cases e with
  | onCommand | addPlayer | removePlayer | broadcastMessage => cases he
  | runCommandStrand =>
    cases f with
    | onCommand | addPlayer | removePlayer | broadcastMessage => cases hf
    | runCommandStrand => exact absurd rfl hne
    | runPlayerStrand => exact exchange hs hs'
  | runPlayerStrand =>
    cases f with
    | onCommand | addPlayer | removePlayer | broadcastMessage => cases hf
    | runCommandStrand =>
      obtain ⟨v, h, h'⟩ := exchange hs' hs
      exact ⟨v, h', h⟩
    | runPlayerStrand => exact absurd rfl hne

/-! ## What the strands put out -/

/-- A strand puts out nothing but what its own kind of handler does. -/
theorem outputs_runCommandStrand {p : P} (h : s.step .runCommandStrand = some (s', o)) :
    received p o = [] := by
  obtain ⟨c, cs, -, -, rfl⟩ := step_runCommandStrand.mp h
  rfl

theorem outputs_runPlayerStrand (h : s.step .runPlayerStrand = some (s', o)) : commands o = [] := by
  obtain ⟨-, -, -, -, ⟨-, -, rfl, -⟩ | ⟨-, -, -, rfl, -⟩ | ⟨-, -, -, rfl, -⟩ |
    ⟨_, _, -, -, -, rfl⟩⟩ :=
    step_runPlayerStrand h
  · rfl
  · rfl
  · rfl
  · exact commands_sendMessage

section
variable [DecidableEq C] {l : List (Event P C × List (Output P C))}

/-- The commands are put out by the command strand, and the messages by the player strand. -/
theorem outputs_of_log (hr : (machine P C).logged.runFrom s es = some (t, l))
    (hes : ∀ e ∈ es, e.isStrand = true) :
    commands (l.flatMap Prod.snd) =
        commands ((l.filter (·.1 = .runCommandStrand)).flatMap Prod.snd) ∧
      ∀ p, received p (l.flatMap Prod.snd) =
        received p ((l.filter (·.1 = .runPlayerStrand)).flatMap Prod.snd) := by
  induction es generalizing s l with
  | nil =>
    cases hr
    exact ⟨rfl, fun _ => rfl⟩
  | cons e es ih =>
    obtain ⟨he, hes⟩ := List.forall_mem_cons.mp hes
    obtain ⟨v, x, l', hx, hrun, rfl⟩ := runFrom_cons.mp hr
    obtain ⟨o, ho, rfl⟩ := logged_step.mp hx
    obtain ⟨hc, hp⟩ := ih hrun hes
    simp only [List.singleton_append, List.flatMap_cons, commands_append, received_append, hc, hp]
    cases e with
    | onCommand | addPlayer | removePlayer | broadcastMessage => cases he
    | runCommandStrand =>
      refine ⟨by simp, fun p => ?_⟩
      have := outputs_runCommandStrand (p := p) ho
      simp [this]
    | runPlayerStrand =>
      refine ⟨?_, fun p => by simp⟩
      have := outputs_runPlayerStrand ho
      simp [this]

/-- Every state of a session has one outcome, when nobody calls the public member functions any
more: whatever the strands have done so far, they go on to the same final state, after the same
number of handlers, with the same commands processed in the same order, and the same messages to
each player in the same order. -/
theorem exists_outcome (s : GameSession P C) : ∃ (t : GameSession P C) (n : Nat)
    (cs : List (CommandTask P C)) (ms : P → List Bytes),
    t.commandStrand = [] ∧ t.playerStrand = [] ∧ n ≤ s.ahead ∧
    ∀ fs u os, (machine P C).runFrom s fs = some (u, os) → (∀ e ∈ fs, e.isStrand = true) →
      ∃ gs os', (machine P C).runFrom u gs = some (t, os') ∧ (∀ e ∈ gs, e.isStrand = true) ∧
        fs.length + gs.length = n ∧ commands (os ++ os') = cs ∧
        ∀ p, received p (os ++ os') = ms p := by
  obtain ⟨es, t, os, hes, hr, -, ht⟩ := (drains (P := P) (C := C)).exists_atRest (s := s) trivial
  obtain ⟨l, hl, rfl⟩ := exists_log hr
  obtain ⟨hc, hp⟩ := atRest_iff.mp ht
  obtain ⟨-, hlen⟩ := drains.length_le trivial hes hr
  refine ⟨t, es.length, commands (l.flatMap Prod.snd), fun p => received p (l.flatMap Prod.snd),
    hc, hp, Nat.le_trans (Nat.le_add_right _ _) hlen, ?_⟩
  intro fs u os hfs hstrand
  obtain ⟨m, hm, rfl⟩ := exists_log hfs
  obtain ⟨gs, n, hgs, hrest, hlen, hlog⟩ := commutes.exists_rest hes hl ht hstrand hm
  refine ⟨gs, n.flatMap Prod.snd, (runFrom_of_logged hrest).1, hgs, hlen.symm, ?_⟩
  have hwhole : (machine P C).logged.runFrom s (fs ++ gs) = some (t, m ++ n) :=
    runFrom_append.mpr ⟨u, m, n, hm, hrest, rfl⟩
  obtain ⟨hc₁, hp₁⟩ := outputs_of_log hl hes
  obtain ⟨hc₂, hp₂⟩ := outputs_of_log hwhole (List.forall_mem_append.mpr ⟨hstrand, hgs⟩)
  rw [← List.flatMap_append, hc₁, hc₂, hlog]
  refine ⟨rfl, fun p => ?_⟩
  dsimp only
  rw [hp₁, hp₂, hlog]

end

end TheGame.GameSession
