import TheGame.Apps.Notifications
import TheGame.Apps.Sessions

/-!
# The registry is the roster of the live sessions

Where no registered session ends abruptly and no key is used twice at a time, the registry holds the
sessions that have called `on_connect` and not yet `on_disconnect`, each under its own key, and
nothing else. There a `POST /test/set_state` notifies exactly the live sessions.
-/

namespace TheGame.World
open WebSocketSession (Connected Disconnected)
open Mealy

variable {app : App} {w w' : World} {a b : Nat} {key data : Bytes} {k k' : WebSocketSession.Stream}
  {e : Event} {es : List Event} {o os : List Output}

/-- The session at address `a` has a read outstanding. -/
def Reading (w : World) (a : Nat) : Prop := ∃ k, w.sessions.lookup a = some k ∧ 0 < k.reads

namespace Reading

theorem send (H : w.Reading b) : (w.send a data).Reading b := by
  obtain ⟨k, hk, hpos⟩ := H
  by_cases hb : b = a
  · subst b
    refine ⟨(k.apply (k.session.send data)).1, ?_, hpos⟩
    rw [lookup_send_self, hk]
    rfl
  · exact ⟨k, by rwa [lookup_send_ne hb], hpos⟩

theorem reap (H : w.Reading b) : (w.reap a).Reading b := by
  obtain ⟨k, hk, hpos⟩ := H
  by_cases hb : b = a
  · subst b
    rw [reap_of_outstanding hk (by unfold WebSocketSession.Stream.outstanding; omega)]
    exact ⟨k, hk, hpos⟩
  · exact ⟨k, by rwa [lookup_reap_ne hb], hpos⟩

end Reading

/-- Every live session goes on reading. -/
def LiveReading (w : World) (os : List Output) : Prop := ∀ a, Live os a → w.Reading a

namespace LiveReading

theorem streamChange {e : WebSocketSession.Event} {o : List WebSocketSession.Output}
    (H : LiveReading w os) (HS : SelfRegistered w os) (hC : NoAbruptEnd w os (.stream a e))
    (hk : w.sessions.lookup a = some k) (h : StreamChange w a k k' e o w') :
    LiveReading w' (os ++ o.map (Output.stream a)) := by
  intro b hb
  by_cases hba : b = a
  · subst b
    have hins : (w.sessions.insert a k').lookup a = some k' := AList.lookup_insert _
    cases h with
    | connect ha hctx hr => exact ⟨k', hins, hr⟩
    | disconnect =>
      have hd := hb.2
      rw [own_append, own_stream_self] at hd
      simp at hd
    | abort hec hcl =>
      -- a live session has its entry, so that its read does not fail
      have hlive := (live_append_self (by simp) (by simp)).mp hb
      have hreg : Registered w a := registered_iff.mpr ⟨_, HS.lookup hk hlive⟩
      obtain h | h | h := hC
      · exact absurd h hec
      · exact absurd h hcl
      · exact absurd hreg h
    | echo _ hr hc hd | quiet _ _ _ hr hc hd =>
      obtain ⟨k₀, hk₀, hpos⟩ := H a ((live_append_self hc hd).mp hb)
      cases hk.symm.trans hk₀
      have H' : Reading { w with sessions := w.sessions.insert a k' } a := ⟨k', hins, hr ▸ hpos⟩
      first | exact H'.send.reap | exact H'.reap
  · obtain ⟨kb, hkb, hpos⟩ := H b ((live_append_ne (Ne.symm hba)).mp hb)
    exact ⟨kb, by rw [h.others.2 b hba, hkb], hpos⟩

theorem step (H : LiveReading w os) (HI : Inv w os) (HS : SelfRegistered w os)
    (hC : NoAbruptEnd w os e) (h : World.step app w e = some (w', o)) :
    LiveReading w' (os ++ o) := by
  cases e with
  | connect key =>
    cases h
    intro b hb
    rw [List.append_nil] at hb
    obtain ⟨kb, hkb, hpos⟩ := H b hb
    have hbn : b ≠ w.next := by
      rintro rfl
      rw [(HI.fresh _ (Nat.le_refl _)).1] at hkb
      cases hkb
    exact ⟨kb, by rw [AList.lookup_insert_ne hbn]; exact hkb, hpos⟩
  | stream a e =>
    obtain ⟨k, k', o', hk, -, rfl, hch⟩ := HI.streamChange h
    exact H.streamChange HS hC hk hch
  | setState body params order =>
    obtain ⟨o', hb, ho⟩ := step_setState h
    intro b hlive
    rw [Live, own_append, ho, List.append_nil] at hlive
    exact broadcast_induction (P := fun v => v.Reading b) (fun _ _ _ H => H.send)
      (fun _ _ H => H) hb (H b hlive)
  | timer i =>
    obtain ⟨timers, a, rfl, ho⟩ := step_timer h
    intro b hlive
    rw [Live, own_append, ho, List.append_nil] at hlive
    have H' : Reading { w with timers } b := H b hlive
    exact H'.send

end LiveReading

/-- What holds of the registry where it is in order. -/
structure InOrder (w : World) (os : List Output) : Prop where
  entries : AllReading w
  self : SelfRegistered w os
  live : LiveReading w os

/-- The event neither ends a registered session abruptly nor accepts a session with the key of
another live one. -/
def Orderly (w : World) (os : List Output) (e : Event) : Prop :=
  NoAbruptEnd w os e ∧ FreshKey w os e

instance : ∀ w os e, Decidable (Orderly w os e) := fun _ _ _ => inferInstanceAs (Decidable (_ ∧ _))

theorem InOrder.of_run (hr : (machine app).run es = some (w, os))
    (hC : (machine app).Along Orderly es) : InOrder w os := by
  refine Along.invariant (P := InOrder) ?_ ?_ hr hC
  · refine ⟨fun key a h => ?_, fun p hp => ?_, fun a h => ?_⟩
    · simp [machine] at h
    · simp [machine, UnorderedMap.toPairs] at hp
    · simp [Live, own] at h
  · intro es w os e w' o hr H hC h
    have HI : Inv w os := .of_run hr
    exact ⟨H.entries.step HI hC.1 h, (H.self.step_iff HI h).mp hC.2, H.live.step HI H.self hC.1 h⟩

namespace InOrder

theorem lookup_iff (H : InOrder w os) (HI : Inv w os) : w.ctxs.lookup key = some a ↔
    Live os a ∧ ∃ k, w.sessions.lookup a = some k ∧ k.session.key = key := by
  have huuid {k : WebSocketSession.Stream} (hk : w.sessions.lookup a = some k)
      (h : Live os a) : k.session.ctx.uuid = k.session.key := by
    rw [(HI.lifecycle hk).ctx_eq h.1]
    rfl
  constructor
  · intro hkey
    obtain ⟨k, hk, hu, hpos⟩ := H.entries key a hkey
    have hlive := HI.live hk hpos
    exact ⟨hlive, k, hk, (huuid hk hlive).symm.trans hu⟩
  · rintro ⟨hlive, k, hk, rfl⟩
    rw [← huuid hk hlive]
    exact H.self.lookup hk hlive

theorem registered_iff (H : InOrder w os) (HI : Inv w os) : Registered w a ↔ Live os a := by
  rw [World.registered_iff]
  constructor
  · rintro ⟨key, hkey⟩
    exact ((H.lookup_iff HI).mp hkey).1
  · intro hlive
    obtain ⟨k, hk, -⟩ := H.live a hlive
    exact ⟨k.session.key, (H.lookup_iff HI).mpr ⟨hlive, k, hk, rfl⟩⟩

end InOrder

/-- In every run whose steps are orderly, the registry has exactly the live sessions, each under its
own key, and every live session has its read outstanding. -/
theorem lookup_ctxs_iff (hr : (machine app).run es = some (w, os))
    (hC : (machine app).Along Orderly es) :
    (∀ key a, w.ctxs.lookup key = some a ↔
      Live os a ∧ ∃ k, w.sessions.lookup a = some k ∧ k.session.key = key) ∧
    ∀ a, Live os a ↔ w.Reading a := by
  have HI : Inv w os := .of_run hr
  have H : InOrder w os := .of_run hr hC
  exact ⟨fun key a => H.lookup_iff HI, fun a => ⟨H.live a, fun ⟨k, hk, hpos⟩ => HI.live hk hpos⟩⟩

/-- Two clients with different keys; the first one leaves, and its key is used again. -/
theorem lookup_ctxs_iff_again : ∃ w os, (machine .simpleGame).run
    [.connect (bytes "k"), .connect (bytes "l"), .stream 0 (.accepted .success),
      .stream 1 (.accepted .success), .stream 0 (.received .closed [] true),
      .connect (bytes "k"), .stream 2 (.accepted .success)] = some (w, os) ∧
    w.ctxs.lookup (bytes "k") = some 2 ∧ Live os 2 ∧ w.Reading 2 := by
  obtain ⟨w, os, hr, hC, hkey⟩ := exists_run (M := machine .simpleGame)
    [.connect (bytes "k"), .connect (bytes "l"), .stream 0 (.accepted .success),
      .stream 1 (.accepted .success), .stream 0 (.received .closed [] true),
      .connect (bytes "k"), .stream 2 (.accepted .success)]
    (P := fun w _ => (machine .simpleGame).Along Orderly
      [.connect (bytes "k"), .connect (bytes "l"), .stream 0 (.accepted .success),
        .stream 1 (.accepted .success), .stream 0 (.received .closed [] true),
        .connect (bytes "k"), .stream 2 (.accepted .success)] ∧
      w.ctxs.lookup (bytes "k") = some 2) (by decide +kernel)
  obtain ⟨hlookup, hlive⟩ := lookup_ctxs_iff hr hC
  have h := ((hlookup _ _).mp hkey).1
  exact ⟨w, os, hr, hkey, h, (hlive 2).mp h⟩

/-- In every run whose steps are orderly, the session at address `a` is sent something on behalf of
`set_state`, or has a delayed send pending, once for every request that comes while it is live. -/
theorem notified_live (hr : (machine app).run es = some (w, os))
    (hC : (machine app).Along Orderly es) (a : Nat) :
    (sentTo a os).length + pending a w = requests app (fun _ os => Live os a) {} [] es := by
  revert hC
  refine run_induction (P := fun es w os => (machine app).Along Orderly es →
    (sentTo a os).length + pending a w = requests app (fun _ os => Live os a) {} [] es)
    (fun _ => rfl) ?_ hr
  intro es w os e w' o hr ih h hC
  obtain ⟨hC, -⟩ := (along_snoc hr).mp hC
  have ih := ih hC
  have hstep := notified_step (a := a) (.of_run hr) (.of_run hr) (.of_run hr) h
  have hreg : Registered w a ↔ Live os a := (InOrder.of_run hr hC).registered_iff (.of_run hr)
  have hone : (if e.isSetState ∧ Registered w a then 1 else 0) =
      if e.isSetState ∧ Live os a then 1 else 0 := if_congr (and_congr_right' hreg) rfl rfl
  rw [requests_concat hr h, sentTo_append, List.length_append, ← hone]
  omega

/-- A client is live for two requests out of three. -/
theorem notified_live_two : ∃ w os, (machine .simpleGame).run
    [.setState (bytes "a") none [], .connect (bytes "k"), .stream 0 (.accepted .success),
      .setState (bytes "b") none [(bytes "k", 0)], .setState (bytes "c") none [(bytes "k", 0)]] =
        some (w, os) ∧ (sentTo 0 os).length + pending 0 w = 2 := by
  obtain ⟨w, os, hr, hC, hrequests⟩ := exists_run (M := machine .simpleGame)
    [.setState (bytes "a") none [], .connect (bytes "k"), .stream 0 (.accepted .success),
      .setState (bytes "b") none [(bytes "k", 0)], .setState (bytes "c") none [(bytes "k", 0)]]
    (P := fun _ _ => (machine .simpleGame).Along Orderly
      [.setState (bytes "a") none [], .connect (bytes "k"), .stream 0 (.accepted .success),
        .setState (bytes "b") none [(bytes "k", 0)], .setState (bytes "c") none [(bytes "k", 0)]] ∧
      requests .simpleGame (fun _ os => Live os 0) {} []
        [.setState (bytes "a") none [], .connect (bytes "k"), .stream 0 (.accepted .success),
          .setState (bytes "b") none [(bytes "k", 0)],
          .setState (bytes "c") none [(bytes "k", 0)]] = 2) (by decide +kernel)
  exact ⟨w, os, hr, (notified_live hr hC 0).trans hrequests⟩

end TheGame.World
