import TheGame.Apps.GameSession
import TheGame.Machine.History

/-!
# Commands and membership

`AddPlayer` and `RemovePlayer` reach the command strand through the player strand, `OnCommand`
directly. A command of a player is therefore processed between `OnPlayerJoined` and `OnPlayerLeft`
exactly if the handler of the player strand which adds the player has run when `OnCommand` is
called.
-/

namespace TheGame.GameSession
open Mealy

section
variable {P C : Type*}

/-- The handlers of the command strand that have run. -/
def commands (os : List (Output P C)) : List (CommandTask P C) :=
  os.filterMap fun
    | .command task => some task
    | .sendMessage .. => none

/-- All handlers posted to the command strand, in the order they run: those that have run, and
those still waiting. -/
def posted (s : GameSession P C) (os : List (Output P C)) : List (CommandTask P C) :=
  commands os ++ s.commandStrand

/-- Every command of `p` comes after `OnPlayerJoined` and before `OnPlayerLeft`. -/
def InOrder (p : P) (ts : List (CommandTask P C)) : Prop :=
  Causal (fun pre t => ∀ c, t = .processCommand c p →
    .onPlayerJoined p ∈ pre ∧ .onPlayerLeft p ∉ pre) ts

@[simp] theorem commands_append (o os : List (Output P C)) :
    commands (o ++ os) = commands o ++ commands os := List.filterMap_append

theorem commands_sendMessage {ps : List P} {m : Bytes} :
    commands (C := C) (ps.map (.sendMessage · m)) = [] := by
  induction ps with
  | nil => rfl
  | cons p ps ih => exact ih

end

variable {P C : Type*} [DecidableEq P] {s s' : GameSession P C} {p : P} {e : Event P C}
  {es : List (Event P C)} {o os : List (Output P C)}

/-- The calls of the public member functions on behalf of `p`. -/
def callsOf (p : P) (es : List (Event P C)) : List (Event P C) :=
  es.filter fun
    | .onCommand _ q | .addPlayer q | .removePlayer q => q = p
    | _ => false

/-- A caller has begun to call `AddPlayer(p)`, then `OnCommand(c, p)` any number of times, then
`RemovePlayer(p)`. -/
def Disciplined (p : P) (es : List (Event P C)) : Prop :=
  ∃ cs : List C, callsOf p es <+: .addPlayer p :: cs.map (.onCommand · p) ++ [.removePlayer p]

/-- `OnCommand(c, p)` is called only when no handler that adds `p` waits in the player strand. -/
def AfterJoin (p : P) (s : GameSession P C) (_ : List (Output P C)) : Event P C → Prop
  | .onCommand _ q => q = p → .addPlayer p ∉ s.playerStrand
  | _ => True

instance : ∀ (s : GameSession P C) os e, Decidable (AfterJoin p s os e)
  | s, _, .onCommand _ q => inferInstanceAs (Decidable (q = p → .addPlayer p ∉ s.playerStrand))
  | _, _, .addPlayer _ | _, _, .removePlayer _ | _, _, .broadcastMessage .. |
    _, _, .runCommandStrand | _, _, .runPlayerStrand => inferInstanceAs (Decidable True)

@[simp] theorem callsOf_append (es fs : List (Event P C)) :
    callsOf p (es ++ fs) = callsOf p es ++ callsOf p fs := List.filter_append ..

/-! ## One step -/

/-- The handler which the event posts to the command strand. -/
def posts (s : GameSession P C) : Event P C → List (CommandTask P C)
  | .onCommand c p => [.processCommand c p]
  | .runPlayerStrand =>
    match s.playerStrand with
    | .addPlayer p :: _ => [.onPlayerJoined p]
    | .removePlayer p :: _ => if p ∈ s.players then [.onPlayerLeft p] else []
    | _ => []
  | _ => []

/-- The command strand is a queue. -/
theorem posted_step (h : s.step e = some (s', o)) :
    posted s' (os ++ o) = posted s os ++ posts s e := by
  cases e with
  | onCommand c p | addPlayer p | removePlayer p | broadcastMessage m x =>
    cases h
    simp [posted, posts, onCommand, addPlayer, removePlayer, broadcastMessage]
  | runCommandStrand =>
    obtain ⟨t, ts, hc, rfl, rfl⟩ := step_runCommandStrand.mp h
    simp [posted, posts, commands, hc]
  | runPlayerStrand =>
    obtain ⟨t, ts, hp, -, ⟨p, rfl, rfl, -, hc⟩ | ⟨p, rfl, hm, rfl, -, hc⟩ |
      ⟨p, rfl, hm, rfl, -, hc⟩ | ⟨m, x, rfl, -, hc, rfl⟩⟩ := step_runPlayerStrand h
    · simp [posted, posts, hp, hc]
    · simp [posted, posts, hp, hc, hm]
    · simp [posted, posts, hp, hc, hm]
    · rw [posted, commands_append, commands_sendMessage, hc]
      simp [posted, posts, hp]

/-! ## What the two queues contain -/

section
variable [DecidableEq C]

/-- Every call of `AddPlayer(p)` waits in the player strand or has posted `OnPlayerJoined(p)`, and
nothing comes of `RemovePlayer(p)` before it is called. -/
structure Balance (p : P) (es : List (Event P C)) (s : GameSession P C)
    (os : List (Output P C)) : Prop where
  joins : es.count (.addPlayer p) =
    s.playerStrand.count (.addPlayer p) + (posted s os).count (.onPlayerJoined p)
  removes : .removePlayer p ∈ s.playerStrand → .removePlayer p ∈ es
  leaves : .onPlayerLeft p ∈ posted s os → .removePlayer p ∈ es

namespace Balance

/-- The event is no handler of the player strand: what it adds to that strand is the call. -/
theorem call (H : Balance p es s os) (h : s.step e = some (s', o)) (he : e ≠ .runPlayerStrand) :
    Balance p (es ++ [e]) s' (os ++ o) := by
  have hpost : posted s' (os ++ o) = posted s os ++ posts s e := posted_step h
  constructor
  · rw [List.count_append, H.joins, hpost, List.count_append]
    cases e with
    | onCommand c q | removePlayer q | broadcastMessage m x =>
      cases h
      simp [posts, onCommand, removePlayer, broadcastMessage]
    | addPlayer q =>
      cases h
      simp [posts, addPlayer, List.count_singleton]
      omega
    | runCommandStrand =>
      obtain ⟨t, ts, -, rfl, -⟩ := step_runCommandStrand.mp h
      simp [posts]
    | runPlayerStrand => exact absurd rfl he
  · intro hr
    cases e with
    | onCommand c q | addPlayer q | broadcastMessage m x =>
      cases h
      exact List.mem_append_left _ (H.removes (by
        simpa [onCommand, addPlayer, broadcastMessage] using hr))
    | removePlayer q =>
      cases h
      rcases List.mem_append.mp hr with hr | hr
      · exact List.mem_append_left _ (H.removes hr)
      · exact List.mem_append_right _ (by simpa using hr)
    | runCommandStrand =>
      obtain ⟨t, ts, -, rfl, -⟩ := step_runCommandStrand.mp h
      exact List.mem_append_left _ (H.removes hr)
    | runPlayerStrand => exact absurd rfl he
  · intro hl
    rw [hpost] at hl
    refine List.mem_append_left _ (H.leaves ?_)
    cases e <;> first | exact absurd rfl he | simpa [posts] using hl

theorem runPlayerStrand (H : Balance p es s os) (h : s.step .runPlayerStrand = some (s', o)) :
    Balance p (es ++ [.runPlayerStrand]) s' (os ++ o) := by
  obtain ⟨t, ts, hp, hs, ht⟩ := step_runPlayerStrand h
  have hpost : posted s' (os ++ o) = posted s os ++ posts s .runPlayerStrand := posted_step h
  constructor
  · rw [List.count_append, H.joins, hpost, hs, hp, List.count_append]
    obtain ⟨q, rfl, -⟩ | ⟨q, rfl, hm, -⟩ | ⟨q, rfl, hm, -⟩ | ⟨m, x, rfl, -⟩ := ht
    · simp [posts, hp, List.count_cons]
      omega
    · simp [posts, hp, hm]
    · simp [posts, hp, hm]
    · simp [posts, hp]
  · intro hr
    rw [hs] at hr
    exact List.mem_append_left _ (H.removes (hp ▸ List.mem_cons_of_mem _ hr))
  · intro hl
    rw [hpost] at hl
    refine List.mem_append_left _ ?_
    rcases List.mem_append.mp hl with hl | hl
    · exact H.leaves hl
    obtain ⟨q, rfl, -⟩ | ⟨q, rfl, hm, -⟩ | ⟨q, rfl, hm, -⟩ | ⟨m, x, rfl, -⟩ := ht
    · simp [posts, hp] at hl
    · have hq : p = q := by simpa [posts, hp, hm] using hl
      exact H.removes (by simp [hp, hq])
    · simp [posts, hp, hm] at hl
    · simp [posts, hp] at hl

theorem of_run (hr : (machine P C).run es = some (s, os)) : Balance p es s os := by
  refine run_induction (P := fun es s os => Balance p es s os) ?_ ?_ hr
  · exact ⟨rfl, fun h => by simp [machine] at h, fun h => by simp [machine, posted, commands] at h⟩
  · intro es s os e s' o _ H h
    by_cases he : e = .runPlayerStrand
    · subst e
      exact H.runPlayerStrand h
    · exact H.call h he

end Balance

/-- A command of `p` is called between `AddPlayer(p)` and `RemovePlayer(p)`. -/
theorem Disciplined.onCommand {c : C} (h : Disciplined p (es ++ [.onCommand c p])) :
    es.count (.addPlayer p) = 1 ∧ .removePlayer p ∉ es := by
  obtain ⟨cs, h⟩ := h
  obtain ⟨l, hl, hcs⟩ : ∃ l, callsOf p es = .addPlayer p :: l ∧
      l ++ [.onCommand c p] <+: cs.map (.onCommand · p) := by
    rw [callsOf_append, show callsOf p [.onCommand c p] = [.onCommand c p] by simp [callsOf]] at h
    cases hl : callsOf p es with
    | nil =>
      rw [hl] at h
      simp at h
    | cons a l =>
      rw [hl, List.cons_append, List.cons_append, List.cons_prefix_cons] at h
      obtain ⟨rfl, h⟩ := h
      rcases List.prefix_concat_iff.mp h with h | h
      · simpa using (List.append_inj' h rfl).2
      · exact ⟨l, rfl, h⟩
  have hmem (a : Event P C) (ha : a ∈ l) : ∃ c, a = .onCommand c p := by
    have h := hcs.subset (List.mem_append_left _ ha)
    obtain ⟨c, -, rfl⟩ := List.mem_map.mp h
    exact ⟨c, rfl⟩
  constructor
  · rw [← List.count_filter (p := fun
      | .onCommand _ q | .addPlayer q | .removePlayer q => q = p
      | _ => false) (by simp), ← callsOf, hl, List.count_cons_self, List.count_eq_zero.mpr]
    intro ha
    obtain ⟨c, hc⟩ := hmem _ ha
    cases hc
  · intro ha
    have ha : .removePlayer p ∈ callsOf p es := List.mem_filter.mpr ⟨ha, by simp⟩
    rw [hl] at ha
    obtain ⟨c, hc⟩ := hmem _ ((List.mem_cons.mp ha).resolve_left nofun)
    cases hc

end

theorem Disciplined.of_prefix {fs : List (Event P C)} (h : Disciplined p fs) (hp : es <+: fs) :
    Disciplined p es := by
  obtain ⟨gs, rfl⟩ := hp
  obtain ⟨cs, h⟩ := h
  rw [callsOf_append] at h
  exact ⟨cs, (List.prefix_append _ _).trans h⟩

/-- Only a call of `OnCommand(c, p)` posts a command of `p`. -/
theorem posts_processCommand {c : C} (h : .processCommand c p ∈ posts s e) :
    e = .onCommand c p := by
  cases e with
  | onCommand c' q =>
    obtain ⟨rfl, rfl⟩ : c = c' ∧ p = q := by simpa [posts] using h
    rfl
  | runPlayerStrand =>
    simp only [posts] at h
    split at h
    · simp at h
    · split at h <;> simp at h
    · simp at h
  | _ => simp [posts] at h

/-- For every interleaving of the two strands and the callers, the commands of `p` are processed
between `OnPlayerJoined(p)` and `OnPlayerLeft(p)` if and only if each call `OnCommand(c, p)` comes
after the handler of the player strand that adds `p`. -/
theorem inOrder_iff (hr : (machine P C).run es = some (s, os)) (hd : Disciplined p es) :
    InOrder p (posted s os) ↔ (machine P C).Along (AfterJoin p) es := by
  classical
  revert hd
  refine run_induction (P := fun es s os => Disciplined p es →
    (InOrder p (posted s os) ↔ (machine P C).Along (AfterJoin p) es)) ?_ ?_ hr
  · intro _
    exact iff_of_true causal_nil along_nil
  intro es s os e s' o hr ih hs hd
  have hpost : posted s' (os ++ o) = posted s os ++ posts s e := posted_step hs
  rw [along_snoc hr, ← ih (hd.of_prefix (List.prefix_append _ _)), hpost]
  by_cases he : ∃ c, e = .onCommand c p
  · obtain ⟨c, rfl⟩ := he
    rw [show posts s (.onCommand c p) = [.processCommand c p] from rfl, InOrder, causal_concat]
    refine and_congr_right fun _ => ?_
    obtain ⟨h1, hrm⟩ := hd.onCommand
    have H := Balance.of_run (p := p) hr
    have hleft : .onPlayerLeft p ∉ posted s os := fun h => hrm (H.leaves h)
    -- the one call of `AddPlayer(p)` either waits or has told the game logic
    have hjoin : .onPlayerJoined p ∈ posted s os ↔ .addPlayer p ∉ s.playerStrand := by
      rw [← List.count_pos_iff, ← List.count_eq_zero]
      have := H.joins
      omega
    constructor
    · intro h _
      exact hjoin.mp (h c rfl).1
    · intro h _ _
      exact ⟨hjoin.mpr (h rfl), hleft⟩
  · have hA : AfterJoin p s os e := by
      cases e with
      | onCommand c q => exact fun hq => absurd ⟨c, hq ▸ rfl⟩ he
      | _ => trivial
    have hno (c : C) : .processCommand c p ∉ posts s e :=
      fun h => he ⟨c, posts_processCommand h⟩
    have hnone : ∀ pre : List (CommandTask P C), ∀ t ∈ posts s e, ∀ c, t = .processCommand c p →
        .onPlayerJoined p ∈ pre ∧ .onPlayerLeft p ∉ pre := by
      rintro pre t ht c rfl
      exact absurd ht (hno c)
    rw [InOrder, causal_append hnone, InOrder]
    exact (and_iff_left hA).symm

/-- A player joins, sends a command once the player strand has run, and leaves. -/
theorem inOrder_iff_join :
    InOrder 1 (posted (P := Nat) (C := String) { commandStrand := [.onPlayerLeft 1] }
      [.command (.onPlayerJoined 1), .command (.processCommand "move" 1)]) :=
  (inOrder_iff (show (machine Nat String).run [.addPlayer 1, .runPlayerStrand,
    .onCommand "move" 1, .removePlayer 1, .runPlayerStrand, .runCommandStrand, .runCommandStrand] =
      some (_, _) by decide) ⟨["move"], by decide⟩).mpr (by decide)

/-- The command overtakes the player who sends it. -/
theorem not_inOrder_overtaken :
    ∃ es s os, (machine Nat String).run es = some (s, os) ∧ Disciplined 1 es ∧
      s.commandStrand = [] ∧ s.playerStrand = [] ∧
      commands os = [.processCommand "move" 1, .onPlayerJoined 1, .onPlayerLeft 1] ∧
      ¬InOrder 1 (commands os) :=
  ⟨[.addPlayer 1, .onCommand "move" 1, .runCommandStrand, .runPlayerStrand, .removePlayer 1,
    .runPlayerStrand, .runCommandStrand, .runCommandStrand], _, _, rfl, ⟨["move"], by decide⟩, rfl,
    rfl, rfl, fun h => absurd (h [] _ _ rfl "move" rfl).1 (by decide)⟩

end TheGame.GameSession
