import TheGame.Apps.Freshness
import TheGame.Machine.Quiescence

/-!
# Who holds the sessions

A `WebSocketSession` is held by the handlers of its outstanding operations and by the timers of
`set_state`, and by nothing else: the registry has plain pointers to contexts. Every session of a
reachable world is held (`Owned.of_run`), and every timer has its session. When nothing new comes
in, the operations complete and the timers expire one after another until no session is left.
-/

namespace TheGame.World
open Mealy

variable {app : App} {w w' : World} {a : Nat} {data : Bytes} {k : WebSocketSession.Stream}
  {e : Event} {es : List Event} {o os : List Output} {params : Option Params}
  {order : List (Bytes × Nat)} {p q : Nat → Prop}

/-- The session at address `a` has an operation outstanding, or a timer holds it. -/
def Held (w : World) (a : Nat) : Prop :=
  (∃ k, w.sessions.lookup a = some k ∧ 0 < k.outstanding) ∨ ∃ t ∈ w.timers, t.session = a

/-- The sessions at the addresses with `p` are held, and the timers have their sessions. -/
structure OwnedOn (p : Nat → Prop) (w : World) : Prop where
  held : ∀ a k, p a → w.sessions.lookup a = some k → w.Held a
  timer : ∀ t ∈ w.timers, (w.sessions.lookup t.session).isSome

/-- Every session is held. -/
abbrev Owned (w : World) : Prop := w.OwnedOn fun _ => True

namespace OwnedOn

theorem congr (H : w.OwnedOn p) (hs : w'.sessions = w.sessions) (ht : w'.timers = w.timers) :
    w'.OwnedOn p := by
  refine ⟨fun a k ha hk => ?_, ?_⟩
  · unfold Held
    rw [hs, ht]
    exact H.held a k ha (hs ▸ hk)
  · rw [hs, ht]
    exact H.timer

theorem mono (H : w.OwnedOn p) (hpq : ∀ a, q a → p a) : w.OwnedOn q :=
  ⟨fun a k ha hk => H.held a k (hpq a ha) hk, H.timer⟩

/-- A session may change, if nothing is said about it afterwards. -/
theorem insert (H : w.OwnedOn p) :
    OwnedOn (fun b => p b ∧ b ≠ a) { w with sessions := w.sessions.insert a k } := by
  refine ⟨?_, fun t ht => ?_⟩
  · rintro b kb ⟨hb, hba⟩ hkb
    have hl : ∀ k, (w.sessions.insert a k).lookup b = w.sessions.lookup b :=
      fun k => AList.lookup_insert_ne hba
    rw [hl] at hkb
    obtain ⟨k', hk', hout⟩ | htimer := H.held b kb hb hkb
    · exact .inl ⟨k', (hl k).trans hk', hout⟩
    · exact .inr htimer
  · by_cases hta : t.session = a
    · rw [hta, AList.lookup_insert]
      rfl
    · rw [AList.lookup_insert_ne hta]
      exact H.timer t ht

/-- A session that is sent something is held by the write. -/
theorem held_send (h : (w.sessions.lookup a).isSome) : (w.send a data).Held a := by
  obtain ⟨k, hk⟩ := Option.isSome_iff_exists.mp h
  refine .inl ⟨(k.apply (k.session.send data)).1, ?_, ?_⟩
  · rw [lookup_send_self, hk]
    rfl
  · have hq : (k.apply (k.session.send data)).1.queued =
        k.queued ++ [k.session.writeBuf ++ data] := rfl
    rw [WebSocketSession.Stream.outstanding, hq, List.length_append, List.length_singleton]
    omega

theorem send (H : w.OwnedOn p) : (w.send a data).OwnedOn p := by
  refine ⟨fun b k hb hk => ?_, fun t ht => ?_⟩
  · by_cases hba : b = a
    · subst b
      have hsome : ((w.send a data).sessions.lookup a).isSome := Option.isSome_of_eq_some hk
      rw [lookup_send_isSome] at hsome
      exact held_send hsome
    · rw [lookup_send_ne hba] at hk
      unfold Held
      rw [lookup_send_ne hba, send_timers]
      exact H.held b k hb hk
  · rw [send_timers] at ht
    rw [lookup_send_isSome]
    exact H.timer t ht

theorem invoke (H : w.OwnedOn p) (c : HandlerCall) : (app.handler.invoke a c w).OwnedOn p := by
  obtain ⟨ctxs, h⟩ | ⟨b, data, h⟩ := invoke_cases app a c w <;> rw [h]
  · exact H.congr rfl rfl
  · exact H.send

theorem deliver (H : w.OwnedOn p) (o : List WebSocketSession.Output) :
    (deliver app.handler a o w).OwnedOn p := by
  induction o generalizing w with
  | nil => exact H
  | cons x o ih =>
    cases x with
    | message m => exact ih H
    | call c => exact ih (H.invoke c)

/-- The one session that may not be held is destroyed then. -/
theorem reap (H : w.OwnedOn (· ≠ a)) : (w.reap a).Owned := by
  unfold World.reap
  cases hk : w.sessions.lookup a with
  | none =>
    refine ⟨fun b kb _ hkb => H.held b kb ?_ hkb, H.timer⟩
    rintro rfl
    rw [hk] at hkb
    cases hkb
  | some k =>
    dsimp only
    split <;> rename_i hfree
    · obtain ⟨-, htimers⟩ := hfree
      refine ⟨fun b kb _ hkb => ?_, fun t ht => ?_⟩
      · obtain ⟨hba, hkb⟩ := UnorderedMap.lookup_erase_eq_some.mp hkb
        obtain ⟨k', hk', hout⟩ | htimer := H.held b kb hba hkb
        · exact .inl ⟨k', (AList.lookup_erase_ne hba).trans hk', hout⟩
        · exact .inr htimer
      · change ((w.sessions.erase a).lookup t.session).isSome
        rw [AList.lookup_erase_ne (htimers t ht)]
        exact H.timer t ht
    · refine ⟨fun b kb _ hkb => ?_, H.timer⟩
      by_cases hba : b = a
      · subst b
        by_cases hout : k.outstanding = 0
        · simp only [hout, true_and, not_forall, not_not] at hfree
          obtain ⟨t, ht, hta⟩ := hfree
          exact .inr ⟨t, ht, hta⟩
        · exact .inl ⟨k, hk, Nat.pos_of_ne_zero hout⟩
      · exact H.held b kb hba hkb

/-- The loop of `set_state` sends to sessions that it holds, or has timers hold them. -/
theorem broadcast (H : w.OwnedOn p) (h : World.broadcast params order w = some (w', o)) :
    w'.OwnedOn p := by
  induction order generalizing w o with
  | nil =>
    cases h
    exact H
  | cons entry rest ih =>
    obtain ⟨k, v, u, o', -, -, hrest, hv⟩ := broadcast_cons h
    refine ih ?_ hrest
    obtain ⟨-, rfl, -⟩ | ⟨c, hc, ⟨n, rfl, -⟩ | ⟨rfl, -⟩⟩ := hv
    · exact H
    · refine ⟨fun b kb hb hkb => ?_, fun t ht => ?_⟩
      · exact (H.held b kb hb hkb).imp_right fun ⟨t, ht, hs⟩ => ⟨t, List.mem_append_left _ ht, hs⟩
      · rcases List.mem_append.mp ht with ht | ht
        · exact H.timer t ht
        · rw [List.mem_singleton.mp ht]
          exact (Option.filter_eq_some_iff.mp hc).2
    · exact H.send

/-- The session of a timer that expires is held by the write which the timer starts. -/
theorem timerStep {i : Nat} (H : w.Owned) (h : w.timerStep i = some (w', o)) : w'.Owned := by
  unfold World.timerStep at h
  split at h
  · cases h
  rename_i t ht
  cases h
  have hsome : (w.sessions.lookup t.session).isSome := H.timer t (List.mem_of_getElem? ht)
  have H' : OwnedOn (· ≠ t.session) { w with timers := w.timers.eraseIdx i } := by
    refine ⟨fun b kb hb hkb => ?_, fun u hu => H.timer u (List.mem_of_mem_eraseIdx hu)⟩
    refine (H.held b kb trivial hkb).imp_right fun ⟨u, hu, hub⟩ => ⟨u, ?_, hub⟩
    obtain ⟨j, hj⟩ := List.mem_iff_getElem?.mp hu
    refine List.mem_eraseIdx_iff_getElem?.mpr ⟨j, ?_, hj⟩
    rintro rfl
    rw [ht] at hj
    cases hj
    exact hb hub.symm
  refine ⟨fun b kb _ hkb => ?_, H'.send.timer⟩
  by_cases hb : b = t.session
  · subst hb
    exact held_send hsome
  · exact H'.send.held b kb hb hkb

end OwnedOn

namespace Owned

theorem step (H : w.Owned) (h : World.step app w e = some (w', o)) : w'.Owned := by
  cases e with
  | connect key =>
    cases h
    have H' : OwnedOn _ _ := H.insert (a := w.next) (k := WebSocketSession.start w.next key)
    refine ⟨fun b kb _ hkb => ?_, H'.timer⟩
    by_cases hb : b = w.next
    · subst hb
      exact .inl ⟨_, AList.lookup_insert _, Nat.succ_pos _⟩
    · exact H'.held b kb ⟨trivial, hb⟩ hkb
  | stream a e =>
    obtain ⟨k, k', o', -, -, -, rfl⟩ := streamStep_eq.mp h
    have H' : OwnedOn (· ≠ a) { w with sessions := w.sessions.insert a k' } :=
      H.insert.mono fun _ hb => ⟨trivial, hb⟩
    exact (H'.deliver o').reap
  | setState body params order =>
    obtain ⟨o', hb, -⟩ := step_setState h
    have H' : OwnedOn (fun _ => True) { w with state := body } := H.congr rfl rfl
    exact H'.broadcast hb
  | timer i => exact H.timerStep h

theorem of_run (hr : (machine app).run es = some (w, os)) : w.Owned :=
  run_induction (P := fun _ w _ => w.Owned) ⟨fun _ _ _ h => by simp [machine] at h, nofun⟩
    (fun _ _ _ _ _ _ _ H hs => H.step hs) hr

end Owned

/-- In every reachable state, the sessions that have not been destroyed are those with an operation
outstanding or a timer. -/
theorem isSome_lookup_iff_held (hr : (machine app).run es = some (w, os)) :
    (w.sessions.lookup a).isSome ↔ w.Held a := by
  have H : w.Owned := Owned.of_run hr
  constructor
  · intro h
    obtain ⟨k, hk⟩ := Option.isSome_iff_exists.mp h
    exact H.held a k trivial hk
  · rintro (⟨k, hk, -⟩ | ⟨t, ht, rfl⟩)
    · rw [hk]
      rfl
    · exact H.timer t ht

/-- A client resets its connection while a delayed send is pending: the timer holds the session. -/
theorem isSome_lookup_iff_held_timer : ∃ w os, (machine .simpleGame).run
    [.connect (bytes "k"), .stream 0 (.accepted .success), .setState (bytes "on")
      (some (UnorderedMap.emplace ∅ (bytes "delay") (bytes "5"))) [(bytes "k", 0)],
      .stream 0 (.received (.other 104) [] true)] = some (w, os) ∧
    w.timers = [⟨0, 5⟩] ∧ (w.sessions.lookup 0).isSome := by
  obtain ⟨w, os, hr, ht⟩ := exists_run (M := machine .simpleGame)
    [.connect (bytes "k"), .stream 0 (.accepted .success), .setState (bytes "on")
      (some (UnorderedMap.emplace ∅ (bytes "delay") (bytes "5"))) [(bytes "k", 0)],
      .stream 0 (.received (.other 104) [] true)]
    (P := fun w _ => w.timers = [⟨0, 5⟩]) (by decide +kernel)
  have hmem : ⟨0, 5⟩ ∈ w.timers := by
    rw [ht]
    exact List.mem_singleton_self _
  exact ⟨w, os, hr, ht, (isSome_lookup_iff_held hr).mpr (.inr ⟨_, hmem, rfl⟩)⟩

end TheGame.World
