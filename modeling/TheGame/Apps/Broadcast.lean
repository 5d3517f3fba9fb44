import TheGame.Apps.Players

/-!
# Broadcasts

A handler of `BroadcastMessage` sends to `players_` as it then is. The player strand runs its
handlers in posting order, so that this is the list which the earlier calls of `AddPlayer` and
`RemovePlayer` make, whatever the schedule.
-/

namespace TheGame

/-- A call of `BroadcastMessage`, with the member list at that point. -/
structure Broadcast (P : Type*) where
  message : Bytes
  except : Option P
  members : List P
deriving DecidableEq

namespace Broadcast

variable {P : Type*} [DecidableEq P]

/-- How often a player is sent the message. -/
def copies (b : Broadcast P) (p : P) : Nat :=
  if some p = b.except then 0 else b.members.count p

/-- What a player is sent. -/
def sends (b : Broadcast P) (p : P) : List Bytes := List.replicate (b.copies p) b.message

end Broadcast

namespace GameSession
open Mealy

section
variable {P C : Type*} [DecidableEq P]

/-- The calls of `SendMessage` which a player has received. -/
def received (p : P) (os : List (Output P C)) : List Bytes :=
  os.filterMap fun
    | .sendMessage q m => if q = p then some m else none
    | .command _ => none

/-- The sequential specification: the broadcasts, going through the calls in posting order. -/
def broadcasts : List P → List (PlayerTask P) → List (Broadcast P)
  | _, [] => []
  | players, .addPlayer p :: ts => broadcasts (players ++ [p]) ts
  | players, .removePlayer p :: ts => broadcasts (players.erase p) ts
  | players, .broadcastMessage m x :: ts => ⟨m, x, players⟩ :: broadcasts players ts

@[simp] theorem received_append {p : P} {os ps : List (Output P C)} :
    received p (os ++ ps) = received p os ++ received p ps := List.filterMap_append

end

variable {P C : Type*} [DecidableEq P] {s s' : GameSession P C} {p q : P} {e : Event P C}
  {es fs : List (Event P C)} {o os : List (Output P C)} {ts us : List (PlayerTask P)}
  {players : List P}

theorem broadcasts_append :
    broadcasts players (ts ++ us) =
      broadcasts players ts ++ broadcasts (ts.foldl update players) us := by
  induction ts generalizing players with
  | nil => rfl
  | cons t ts ih =>
    cases t with
    | addPlayer p => exact ih
    | removePlayer p => exact ih
    | broadcastMessage m x => exact congrArg _ ih

/-! ## One step -/

/-- Only the player strand sends. -/
theorem received_of_not_playerRun (h : s.step e = some (s', o)) (he : e.isPlayerRun = false) :
    received p o = [] := by
  cases e with
  | onCommand c q | addPlayer q | removePlayer q | broadcastMessage m x =>
    cases h
    rfl
  | runCommandStrand =>
    obtain ⟨t, ts, -, -, rfl⟩ := step_runCommandStrand.mp h
    rfl
  | runPlayerStrand => cases he

/-- The loop of `BroadcastMessage` sends once for each occurrence in the member list. -/
theorem received_sendMessage {m : Bytes} {x : Option P} :
    received (C := C) p ((players.filter fun q => some q ≠ x).map (.sendMessage · m)) =
      Broadcast.sends ⟨m, x, players⟩ p := by
  induction players with
  | nil => simp [Broadcast.sends, Broadcast.copies, received]
  | cons q players ih =>
    by_cases hq : q = p
    · subst q
      by_cases hx : some p = x
      · rw [List.filter_cons_of_neg (by simpa using hx), ih]
        simp [Broadcast.sends, Broadcast.copies, hx]
      · have hc : (⟨m, x, p :: players⟩ : Broadcast P).copies p =
            (⟨m, x, players⟩ : Broadcast P).copies p + 1 := by
          simp [Broadcast.copies, hx]
        rw [List.filter_cons_of_pos (by simpa using hx), List.map_cons, Broadcast.sends, hc,
          List.replicate_succ, ← Broadcast.sends, ← ih]
        simp [received]
    · have hc : (⟨m, x, q :: players⟩ : Broadcast P).copies p =
          (⟨m, x, players⟩ : Broadcast P).copies p := by
        simp [Broadcast.copies, List.count_cons_of_ne hq]
      have hs : Broadcast.sends ⟨m, x, q :: players⟩ p = Broadcast.sends ⟨m, x, players⟩ p := by
        rw [Broadcast.sends, hc, Broadcast.sends]
      rw [hs, ← ih]
      by_cases hx : some q = x
      · rw [List.filter_cons_of_neg (by simpa using hx)]
      · rw [List.filter_cons_of_pos (by simpa using hx), List.map_cons]
        simp [received, hq]

/-- A handler sends what the specification says of it, for the member list it finds. -/
theorem received_playerRun (h : s.step .runPlayerStrand = some (s', o)) {t : PlayerTask P}
    (ht : s.playerStrand = t :: s'.playerStrand) :
    received p o = (broadcasts s.players [t]).flatMap (·.sends p) := by
  obtain ⟨t', ts, hp, rfl, hc⟩ := step_runPlayerStrand h
  obtain rfl : t = t' := (List.cons.inj (ht.symm.trans hp)).1
  obtain ⟨q, rfl, rfl, -⟩ | ⟨q, rfl, -, rfl, -⟩ | ⟨q, rfl, -, rfl, -⟩ | ⟨m, x, rfl, -, -, rfl⟩ := hc
  · rfl
  · rfl
  · rfl
  · rw [received_sendMessage]
    simp [broadcasts]

/-! ## Runs -/

/-- What a player has received is the specification of the handlers that have run. -/
theorem received_of_run (hr : (machine P C).run es = some (s, os)) :
    received p os = (broadcasts [] (handled es)).flatMap (·.sends p) := by
  refine run_induction (P := fun es _ os =>
    received p os = (broadcasts [] (handled es)).flatMap (·.sends p)) rfl ?_ hr
  intro es s os e s' o hr ih hs
  have H : Handled es s := .of_run hr
  rw [received_append, ih]
  by_cases he : e.isPlayerRun
  · cases e with
    | runPlayerStrand =>
      obtain ⟨t, ht, -⟩ := step_of_playerRun hs
      have hp : s.players = (handled es).foldl update [] := H.players
      rw [H.handled_playerRun ht, broadcasts_append, List.flatMap_append,
        received_playerRun hs ht, hp]
    | _ => cases he
  · have he := Bool.eq_false_iff.mpr he
    rw [received_of_not_playerRun hs he, List.append_nil, H.handled_call he]

/-- When the player strand is idle, all handlers posted to it have run. -/
theorem Handled.eq_playerTasks (H : Handled es s) (hidle : s.playerStrand = []) :
    handled es = playerTasks es := by
  rw [← H.queue, hidle, List.append_nil]

/-- A player receives the broadcasts that reach it in the order of the calls. -/
theorem sublist_sends {bs : List (Broadcast P)} {f : Broadcast P → Bool}
    (hf : ∀ b, f b → 0 < b.copies p) :
    ((bs.filter f).map (·.message)).Sublist (bs.flatMap (·.sends p)) := by
  induction bs with
  | nil => exact List.nil_sublist _
  | cons b bs ih =>
    rw [List.filter_cons, List.flatMap_cons]
    split <;> rename_i hb
    · rw [List.map_cons, ← List.singleton_append]
      refine List.Sublist.append ?_ ih
      exact List.singleton_sublist.mpr
        (List.mem_replicate.mpr ⟨Nat.ne_of_gt (hf b hb), rfl⟩)
    · exact ih.trans (List.sublist_append_right _ _)

/-- Once the player strand is idle, each player has received what the sequential specification
says of the calls. So every other schedule of the same calls gives the same, and two players
receive the broadcasts they share in the same order. -/
theorem received_eq (hr : (machine P C).run es = some (s, os)) (hidle : s.playerStrand = []) :
    (∀ p, received p os = (broadcasts [] (playerTasks es)).flatMap (·.sends p)) ∧
      (∀ fs t ps, (machine P C).run fs = some (t, ps) → t.playerStrand = [] →
        playerTasks fs = playerTasks es → ∀ p, received p ps = received p os) ∧
      ∀ p q, ∀ shared, shared = ((broadcasts [] (playerTasks es)).filter fun b =>
          0 < b.copies p ∧ 0 < b.copies q).map (·.message) →
        shared.Sublist (received p os) ∧ shared.Sublist (received q os) := by
  have heq (p : P) : received p os = (broadcasts [] (playerTasks es)).flatMap (·.sends p) := by
    rw [received_of_run hr, (Handled.of_run hr).eq_playerTasks hidle]
  refine ⟨heq, ?_, ?_⟩
  · intro fs t ps hfs ht htasks p
    rw [received_of_run hfs, (Handled.of_run hfs).eq_playerTasks ht, htasks, heq]
  · rintro p q _ rfl
    rw [heq, heq]
    exact ⟨sublist_sends fun b hb => (of_decide_eq_true hb).1,
      sublist_sends fun b hb => (of_decide_eq_true hb).2⟩

/-- The second player joins between two broadcasts, the second of which it sends itself. -/
theorem received_eq_join :
    received (C := String) (1 : Nat) [.sendMessage 1 [97], .command (.onPlayerJoined 1),
        .sendMessage 1 [98]] = [[97], [98]] ∧
      received (C := String) (2 : Nat) [.sendMessage 1 [97], .command (.onPlayerJoined 1),
        .sendMessage 1 [98]] = [] := by
  have hr : (machine Nat String).run [.addPlayer 1, .broadcastMessage [97] none, .runPlayerStrand,
      .addPlayer 2, .runPlayerStrand, .broadcastMessage [98] (some 2), .runCommandStrand,
      .runPlayerStrand, .runPlayerStrand] =
        some ({ commandStrand := [.onPlayerJoined 2], players := [1, 2] },
          [.sendMessage 1 [97], .command (.onPlayerJoined 1), .sendMessage 1 [98]]) := by decide
  have h := received_eq hr rfl
  exact ⟨h.1 1, h.1 2⟩

/-! ## Membership -/

/-- How often `p` is a member: joining adds an occurrence, and leaving takes one away. -/
def multiplicity (p : P) (ts : List (PlayerTask P)) : Nat :=
  ts.foldl (fun n t =>
    if t = .addPlayer p then n + 1 else if t = .removePlayer p then n - 1 else n) 0

/-- `p` has joined, and not left since. -/
def isMember (p : P) (ts : List (PlayerTask P)) : Bool :=
  ts.foldl (fun b t =>
    if t = .addPlayer p then true else if t = .removePlayer p then false else b) false

/-- `p` does not join while it is a member. -/
def JoinsOnce (p : P) (ts : List (PlayerTask P)) : Prop :=
  Causal (fun pre t => t = .addPlayer p → isMember p pre = false) ts

instance : Decidable (JoinsOnce p ts) :=
  inferInstanceAs (Decidable (Causal _ ts))

theorem multiplicity_concat {t : PlayerTask P} :
    multiplicity p (ts ++ [t]) =
      if t = .addPlayer p then multiplicity p ts + 1
      else if t = .removePlayer p then multiplicity p ts - 1 else multiplicity p ts := by
  rw [multiplicity, List.foldl_concat, ← multiplicity]

theorem isMember_concat {t : PlayerTask P} :
    isMember p (ts ++ [t]) =
      if t = .addPlayer p then true
      else if t = .removePlayer p then false else isMember p ts := by
  rw [isMember, List.foldl_concat, ← isMember]

theorem count_members : (members ts).count p = multiplicity p ts := by
  induction ts using List.reverseRecOn with
  | nil => rfl
  | append_singleton ts t ih =>
    rw [members_concat, multiplicity_concat, ← ih]
    cases t with
    | addPlayer q => by_cases hq : q = p <;> simp [update, List.count_append, hq]
    | removePlayer q => by_cases hq : q = p <;> simp [update, List.count_erase, hq]
    | broadcastMessage m x => simp [update]

/-- A player that never joins twice is a member once or not at all. -/
theorem JoinsOnce.multiplicity_eq (h : JoinsOnce p ts) :
    multiplicity p ts = if isMember p ts then 1 else 0 := by
  induction ts using List.reverseRecOn with
  | nil => rfl
  | append_singleton ts t ih =>
    obtain ⟨h, ht⟩ := causal_concat.mp h
    rw [multiplicity_concat, isMember_concat, ih h]
    split
    · rename_i hadd
      simp [ht hadd]
    split
    · split <;> simp
    · rfl

/-- Leaving takes one occurrence away, and nothing but joining brings one back. -/
theorem multiplicity_removePlayer (hadd : .addPlayer p ∉ us) :
    multiplicity p (ts ++ .removePlayer p :: us) ≤ multiplicity p ts - 1 := by
  induction us using List.reverseRecOn with
  | nil => simp [multiplicity_concat]
  | append_singleton us t ih =>
    have hle := ih fun h => hadd (List.mem_append_left _ h)
    have ht : t ≠ .addPlayer p :=
      fun h => hadd (List.mem_append_right _ (h ▸ List.mem_singleton_self t))
    rw [← List.cons_append, ← List.append_assoc, multiplicity_concat, if_neg ht]
    split
    · exact Nat.le_trans (Nat.sub_le _ _) hle
    · exact hle

theorem isMember_removePlayer (hadd : .addPlayer p ∉ us) :
    isMember p (ts ++ .removePlayer p :: us) = false := by
  induction us using List.reverseRecOn with
  | nil => simp [isMember_concat]
  | append_singleton us t ih =>
    have ht : t ≠ .addPlayer p :=
      fun h => hadd (List.mem_append_right _ (h ▸ List.mem_singleton_self t))
    rw [← List.cons_append, ← List.append_assoc, isMember_concat, if_neg ht,
      ih fun h => hadd (List.mem_append_left _ h), ite_self]

/-- A broadcast reaches a player as often as it is a member: one leave undoes one join. Players
that never join twice are reached once while they are members, and not at all after they left. -/
theorem received_broadcast {m : Bytes} {x : Option P}
    (hr : (machine P C).run es = some (s, os))
    (ht : s.playerStrand = .broadcastMessage m x :: ts)
    (h : s.step .runPlayerStrand = some (s', o)) :
    received p o = List.replicate (if some p = x then 0 else multiplicity p (handled es)) m ∧
      (∀ us vs, handled es = us ++ .removePlayer p :: vs → .addPlayer p ∉ vs →
        multiplicity p (handled es) ≤ multiplicity p us - 1) ∧
      (JoinsOnce p (handled es) →
        received p o = (if some p ≠ x ∧ isMember p (handled es) then [m] else []) ∧
        ∀ us vs, handled es = us ++ .removePlayer p :: vs → .addPlayer p ∉ vs →
          received p o = []) := by
  have H : Handled es s := .of_run hr
  have hts : ts = s'.playerStrand := by
    obtain ⟨t, hp, -⟩ := step_of_playerRun h
    exact (List.cons.inj (ht.symm.trans hp)).2
  have hsend : received p o =
      List.replicate (if some p = x then 0 else multiplicity p (handled es)) m := by
    rw [received_playerRun h (hts ▸ ht), H.players, ← count_members]
    simp [broadcasts, Broadcast.sends, Broadcast.copies]
  refine ⟨hsend, ?_, fun hj => ⟨?_, ?_⟩⟩
  · intro us vs hus hvs
    rw [hus]
    exact multiplicity_removePlayer hvs
  · rw [hsend, hj.multiplicity_eq]
    by_cases hx : some p = x <;> cases isMember p (handled es) <;> simp [hx]
  · intro us vs hus hvs
    rw [hsend, hj.multiplicity_eq, hus, isMember_removePlayer hvs]
    simp

/-- Of two players that joined once, the one that left is not reached. -/
theorem received_broadcast_left :
    received (C := String) (1 : Nat) [.sendMessage 2 [97]] = [] ∧
      received (C := String) (2 : Nat) [.sendMessage 2 [97]] = [[97]] := by
  have hr : (machine Nat String).run [.addPlayer 1, .addPlayer 2, .removePlayer 1,
      .broadcastMessage [97] none, .runPlayerStrand, .runPlayerStrand, .runPlayerStrand] =
        some (⟨[.onPlayerJoined 1, .onPlayerJoined 2, .onPlayerLeft 1],
          [.broadcastMessage [97] none], [2]⟩, []) := by decide
  exact ⟨((received_broadcast hr rfl rfl).2.2 (by decide)).1,
    ((received_broadcast hr rfl rfl).2.2 (by decide)).1⟩

/-- A player that joins twice is sent every broadcast twice, and is still reached after it
left. -/
theorem received_after_removePlayer :
    (∃ es s os s' o, (machine Nat String).run es = some (s, os) ∧
      handled es = [.addPlayer 1, .addPlayer 1] ∧
      s.step .runPlayerStrand = some (s', o) ∧ received 1 o = [[97], [97]]) ∧
    ∃ es s os s' o, (machine Nat String).run es = some (s, os) ∧
      handled es = [.addPlayer 1, .addPlayer 1, .removePlayer 1] ∧
      s.step .runPlayerStrand = some (s', o) ∧ received 1 o = [[97]] :=
  ⟨⟨[.addPlayer 1, .addPlayer 1, .broadcastMessage [97] none, .runPlayerStrand,
      .runPlayerStrand], _, _, _, _, rfl, rfl, rfl, rfl⟩,
    [.addPlayer 1, .addPlayer 1, .removePlayer 1, .broadcastMessage [97] none, .runPlayerStrand,
      .runPlayerStrand, .runPlayerStrand], _, _, _, _, rfl, rfl, rfl, rfl⟩

end GameSession

end TheGame
