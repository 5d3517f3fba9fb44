import Mathlib.Data.List.Perm.Basic
import TheGame.Apps.Freshness

/-!
# Every request notifies every registered session once

A `POST /test/set_state` either sends the new state to every registered session, or starts a timer
for each of them, if it has a parameter `delay`. So a session is sent something on behalf of
`set_state`, now or later, once for every request that has found it registered: no notification is
lost, and none is made twice.
-/

namespace TheGame.World
open WebSocketSession (Connected)
open Mealy

variable {app : App} {w w' : World} {a : Nat} {data body : Bytes} {k k' : WebSocketSession.Stream}
  {e : Event} {es fs : List Event} {o os : List Output} {params : Option Params}
  {order : List (Bytes × Nat)}

/-! ## A session is registered for one key -/

/-- The entries of the registry are for the keys of their sessions, as long as these live. -/
def Keyed (w : World) : Prop :=
  ∀ key a k, w.ctxs.lookup key = some a → w.sessions.lookup a = some k → k.session.ctx.uuid = key

namespace Keyed

theorem mono (H : Keyed w) (hs : SameContexts w w') (hc : ∀ key a, w'.ctxs.lookup key = some a →
    w.ctxs.lookup key = some a) : Keyed w' := by
  intro key a k' hkey hk'
  obtain ⟨k, hk, hctx⟩ := hs a k' hk'
  rw [hctx]
  exact H key a k (hc key a hkey) hk

theorem streamChange {e : WebSocketSession.Event} {o : List WebSocketSession.Output}
    (H : Keyed w) (HC : AllConnected w os) (HI : Inv w os) (hk : w.sessions.lookup a = some k)
    (h : StreamChange w a k k' e o w') : Keyed w' := by
  cases h with
  | connect ha hctx =>
    intro key b kb hkey hb
    obtain ⟨rfl, rfl⟩ | ⟨-, hold⟩ := UnorderedMap.lookup_insert_eq_some.mp hkey
    · cases (AList.lookup_insert _).symm.trans hb
      rw [hctx]
      rfl
    · obtain ⟨rfl, -⟩ | ⟨-, hb⟩ := UnorderedMap.lookup_insert_eq_some.mp hb
      · -- a session that is still to be accepted has not called `on_connect`
        exact absurd (HC key b hold) ((HI.lifecycle hk).accepting ha).2.2.1
      · exact H key b kb hold hb
  | disconnect hr hctx =>
    have hs : SameContexts w { w with sessions := w.sessions.insert a k' } := .insert hk hctx
    refine H.mono (SameContexts.reap fun b kb hb => ?_) fun key b hkey => ?_
    · rw [unregister_sessions] at hb
      exact hs b kb hb
    · rw [reap_ctxs] at hkey
      by_cases heq : key = k.session.ctx.uuid
      · subst key
        rw [lookup_unregister_self] at hkey
        cases hkey
      · rwa [lookup_unregister_ne heq] at hkey
  | abort hec hcl hctx =>
    exact H.mono (SameContexts.insert hk hctx).reap fun key b h => by rwa [reap_ctxs] at h
  | echo hctx =>
    exact H.mono (SameContexts.insert hk hctx).send.reap fun key b h => by
      rwa [reap_ctxs, send_ctxs] at h
  | quiet hacc hrec hctx =>
    exact H.mono (SameContexts.insert hk hctx).reap fun key b h => by rwa [reap_ctxs] at h

theorem step (H : Keyed w) (HC : AllConnected w os) (HI : Inv w os)
    (h : World.step app w e = some (w', o)) : Keyed w' := by
  have refl : SameContexts w w := fun _ k' h => ⟨k', h, rfl⟩
  cases e with
  | connect key =>
    cases h
    intro key' b kb hkey hb
    obtain ⟨rfl, -⟩ | ⟨-, hb⟩ := UnorderedMap.lookup_insert_eq_some.mp hb
    · have hc : Connected (own w.next os) := HC key' _ hkey
      rw [(HI.fresh _ (Nat.le_refl _)).2] at hc
      simp at hc
    · exact H key' b kb hkey hb
  | stream a e =>
    obtain ⟨k, k', o', hk, -, -, hch⟩ := HI.streamChange h
    exact H.streamChange HC HI hk hch
  | setState body params order =>
    obtain ⟨o', hb, -⟩ := step_setState h
    obtain ⟨hc, hs⟩ := broadcast_induction (P := fun v => v.ctxs = w.ctxs ∧ SameContexts w v)
      (fun _ _ _ H => ⟨send_ctxs.trans H.1, H.2.send⟩) (fun _ _ H => H) hb ⟨rfl, refl⟩
    exact H.mono hs fun key a hkey => by rwa [hc] at hkey
  | timer i =>
    obtain ⟨timers, a, rfl, -⟩ := step_timer h
    exact H.mono (SameContexts.send refl) fun key a hkey => by rwa [send_ctxs] at hkey

theorem of_run (hr : (machine app).run es = some (w, os)) : Keyed w := by
  refine run_induction (P := fun _ w _ => Keyed w) ?_ ?_ hr
  · intro key a k hkey
    simp [machine] at hkey
  · intro es w os e w' o hr H h
    exact H.step (.of_run hr) (.of_run hr) h

/-- The loop of `set_state` meets a session once, if those it meets have not been destroyed. -/
theorem nodup (H : Keyed w) (horder : order.Perm w.ctxs.toPairs)
    (hlive : ∀ p ∈ order, (w.sessions.lookup p.2).isSome) : (order.map Prod.snd).Nodup := by
  have hkeys : (w.ctxs.toPairs.map Prod.fst).Nodup := by
    have h : w.ctxs.toPairs.map Prod.fst = w.ctxs.entries.keys := by
      simp [UnorderedMap.toPairs, List.keys]
    rw [h]
    exact w.ctxs.nodupKeys
  have hpairs : order.Nodup := horder.nodup_iff.mpr (List.Nodup.of_map _ hkeys)
  refine hpairs.map_on ?_
  rintro ⟨key, a⟩ hp ⟨key', b⟩ hq (rfl : a = b)
  obtain ⟨k, hk⟩ := Option.isSome_iff_exists.mp (hlive _ hp)
  have hkey := H key a k (UnorderedMap.mem_toPairs.mp (horder.mem_iff.mp hp)) hk
  have hkey' := H key' a k (UnorderedMap.mem_toPairs.mp (horder.mem_iff.mp hq)) hk
  rw [← hkey, ← hkey']

end Keyed

/-! ## What the loop of `set_state` does -/

/-- The delay of a request, if it has one; what is not a number counts as zero. -/
def delaySecs (params : Option Params) : Option Int :=
  (params.bind (·.lookup (bytes "delay"))).map fun delay => (stoi delay).getD 0

/-- The loop of `set_state` reads the context of every entry it meets. -/
theorem isSome_broadcast_iff : (broadcast params order w).isSome ↔
    ∀ entry ∈ order, (w.sessions.lookup entry.2).isSome := by
  induction order generalizing w with
  | nil => simp [broadcast]
  | cons entry rest ih =>
    obtain ⟨key, a⟩ := entry
    rw [broadcast, List.forall_mem_cons]
    cases hk : w.sessions.lookup a with
    | none => simp
    | some k =>
      simp only [Option.isSome_map, ih, Option.isSome_some, true_and]
      refine forall₂_congr fun entry _ => ?_
      cases w.lock k.session.ctx with
      | none => rfl
      | some c =>
        cases params.bind fun params => params.lookup (bytes "delay") with
        | none => exact Bool.eq_iff_iff.mp lookup_send_isSome
        | some delay => rfl

/-- The loop starts a timer for every session, or sends to every session. -/
theorem broadcast_eq (h : broadcast params order w = some (w', o))
    (hlock : ∀ p ∈ order, LocksItself w p.2) :
    (∀ d, delaySecs params = some d →
      w'.timers = w.timers ++ order.map (fun p => ⟨p.2, d⟩) ∧ o = []) ∧
    (delaySecs params = none →
      w'.timers = w.timers ∧ o = order.map fun p => .broadcast p.2 w.state) := by
  induction order generalizing w o with
  | nil =>
    cases h
    exact ⟨fun d _ => ⟨(List.append_nil _).symm, rfl⟩, fun _ => ⟨rfl, rfl⟩⟩
  | cons entry rest ih =>
    obtain ⟨key, a⟩ := entry
    have hrest : ∀ p ∈ rest, LocksItself w p.2 := fun p hp => hlock p (List.mem_cons_of_mem _ hp)
    rw [broadcast] at h
    split at h
    · cases h
    rename_i k hk
    have ha : w.lock k.session.ctx = some a := hlock _ List.mem_cons_self k hk
    obtain ⟨⟨v, p⟩, hrun, heq⟩ := Option.map_eq_some_iff.mp h
    cases heq
    simp only [ha] at hrun ⊢
    rw [delaySecs] at ih ⊢
    cases hd : params.bind (·.lookup (bytes "delay")) with
    | some delay =>
      simp only [hd] at hrun ih ⊢
      obtain ⟨hv, rfl⟩ := (ih hrun hrest).1 _ rfl
      refine ⟨fun d hdelay => ?_, fun hnone => ?_⟩
      · cases hdelay
        rw [hv]
        exact ⟨List.append_assoc .., rfl⟩
      · cases hnone
    | none =>
      simp only [hd] at hrun ih ⊢
      obtain ⟨hv, rfl⟩ := (ih hrun fun p hp => (hrest p hp).send).2 rfl
      rw [send_timers] at hv
      rw [send_state]
      refine ⟨fun d hdelay => ?_, fun _ => ⟨hv, rfl⟩⟩
      cases hdelay

theorem sentTo_broadcasts : sentTo a (order.map fun p => .broadcast p.2 data) =
    List.replicate ((order.map Prod.snd).count a) data := by
  induction order with
  | nil => rfl
  | cons entry rest ih =>
    have hcons (x : Output) (o : List Output) : sentTo a (x :: o) = sentTo a [x] ++ sentTo a o := by
      rw [← sentTo_append, List.singleton_append]
    rw [List.map_cons, List.map_cons, hcons, ih]
    by_cases h : entry.2 = a
    · rw [h, List.count_cons_self, List.replicate_succ]
      simp [sentTo]
    · rw [List.count_cons_of_ne h]
      simp [sentTo, h]

/-- A request with a delay starts a timer for every registered session, and a request without one
sends the new state to every one of them. -/
structure Notifies (body : Bytes) (params : Option Params) (order : List (Bytes × Nat))
    (w w' : World) (o : List Output) : Prop where
  count : ∀ a, (order.map Prod.snd).count a = if Registered w a then 1 else 0
  delayed : ∀ d, delaySecs params = some d →
    w'.timers = w.timers ++ order.map (fun p => ⟨p.2, d⟩) ∧ ∀ a, sentTo a o = []
  now : delaySecs params = none →
    w'.timers = w.timers ∧ ∀ a, sentTo a o = if Registered w a then [body] else []

theorem notifies_setState (HI : Inv w os) (HC : AllConnected w os) (HK : Keyed w)
    (h : step app w (.setState body params order) = some (w', o)) :
    Notifies body params order w w' o := by
  simp only [step] at h
  split at h <;> rename_i hperm
  · simp only [setState, Option.map_eq_some_iff, Prod.mk.injEq, Prod.exists] at h
    obtain ⟨v, o', h, rfl, rfl⟩ := h
    rw [Bool.and_eq_true, List.isPerm_iff] at hperm
    have horder : order.Perm w.ctxs.toPairs := hperm.2
    have hlock : ∀ p ∈ order, LocksItself { w with state := body } p.2 := by
      intro p hp
      have hl : w.ctxs.lookup p.1 = some p.2 := UnorderedMap.mem_toPairs.mp (horder.mem_iff.mp hp)
      exact locksItself_of_connected (HI.congr rfl rfl) (HC p.1 p.2 hl)
    have hlive := isSome_broadcast_iff.mp (Option.isSome_of_eq_some h)
    have hnodup : (order.map Prod.snd).Nodup := HK.nodup horder hlive
    have hmem (a : Nat) : a ∈ order.map Prod.snd ↔ Registered w a :=
      List.mem_map.trans (exists_congr fun p => and_congr_left' horder.mem_iff)
    have hcount (a : Nat) : (order.map Prod.snd).count a = if Registered w a then 1 else 0 := by
      rw [hnodup.count]
      exact if_congr (hmem a) rfl rfl
    have hreply (a : Nat) (o : List Output) (t b : Bytes) : sentTo a (.reply t b :: o) =
      sentTo a o := rfl
    obtain ⟨hdelayed, hnow⟩ := broadcast_eq h hlock
    refine ⟨hcount, fun d hd => ?_, fun hd => ?_⟩
    · obtain ⟨ht, rfl⟩ := hdelayed d hd
      exact ⟨ht, fun a => rfl⟩
    · obtain ⟨ht, rfl⟩ := hnow hd
      refine ⟨ht, fun a => ?_⟩
      rw [hreply, sentTo_broadcasts, hcount]
      split <;> rfl
  · cases h

/-! ## Notifications, made and pending -/

section
variable (app : App) (p : World → List Output → Prop) [∀ w os, Decidable (p w os)]

/-- The number of requests that come in a state with `p`, after the outputs so far. -/
def requests : World → List Output → List Event → Nat
  | _, _, [] => 0
  | w, os, e :: es =>
    (if e.isSetState ∧ p w os then 1 else 0) +
      match step app w e with
      | some (w, o) => requests w (os ++ o) es
      | none => 0

variable {app p}

theorem requests_append (h : (machine app).runFrom w es = some (w', o)) :
    requests app p w os (es ++ fs) =
      requests app p w os es + requests app p w' (os ++ o) fs := by
  induction es generalizing w os o with
  | nil =>
    cases h
    rw [List.append_nil]
    exact (Nat.zero_add _).symm
  | cons e es ih =>
    obtain ⟨v, x, y, hs, hrun, rfl⟩ := runFrom_cons.mp h
    have hs : step app w e = some (v, x) := hs
    simp only [List.cons_append, requests, hs]
    rw [ih hrun, List.append_assoc]
    exact (Nat.add_assoc ..).symm

theorem requests_concat (hr : (machine app).run es = some (w, os))
    (h : step app w e = some (w', o)) :
    requests app p {} [] (es ++ [e]) =
      requests app p {} [] es + if e.isSetState ∧ p w os then 1 else 0 := by
  refine (requests_append hr).trans ?_
  rw [List.nil_append]
  simp only [requests, h]
  rfl

end

/-- The number of delayed sends to the session at address `a`. -/
def pending (a : Nat) (w : World) : Nat := w.timers.countP fun t => t.session = a

theorem Notifies.notified (H : Notifies body params order w w' o) :
    (sentTo a o).length + pending a w' = pending a w + if Registered w a then 1 else 0 := by
  cases hd : delaySecs params with
  | some d =>
    obtain ⟨ht, ho⟩ := H.delayed d hd
    have hnew : (order.map fun p => (⟨p.2, d⟩ : Timer)).countP (fun t => t.session = a) =
        (order.map Prod.snd).count a := by
      rw [List.countP_map, List.count, List.countP_map]
      rfl
    rw [ho, pending, ht, List.countP_append, hnew, H.count]
    exact Nat.zero_add _
  | none =>
    obtain ⟨ht, ho⟩ := H.now hd
    rw [ho, pending, ht, Nat.add_comm]
    split <;> rfl

theorem notified_timer {i : Nat} (h : step app w (.timer i) = some (w', o)) :
    (sentTo a o).length + pending a w' = pending a w := by
  simp only [step, timerStep] at h
  split at h
  · cases h
  rename_i t ht
  cases h
  obtain ⟨hi, rfl⟩ := List.getElem?_eq_some_iff.mp ht
  have hperm : w.timers.Perm (w.timers[i] :: w.timers.eraseIdx i) :=
    (List.getElem_cons_eraseIdx_perm hi).symm
  rw [pending, pending, send_timers, hperm.countP_eq, List.countP_cons, Nat.add_comm]
  congr 1
  by_cases hs : w.timers[i].session = a <;> simp [sentTo, hs]

theorem notified_step (HI : Inv w os) (HC : AllConnected w os) (HK : Keyed w)
    (h : step app w e = some (w', o)) : (sentTo a o).length + pending a w' =
      pending a w + if e.isSetState ∧ Registered w a then 1 else 0 := by
  cases e with
  | connect key =>
    cases h
    exact Nat.zero_add _
  | stream b e =>
    obtain ⟨-, ht, ho⟩ := streamStep_frame h
    rw [ho, pending, ht]
    exact Nat.zero_add _
  | setState body params order =>
    rw [(notifies_setState HI HC HK h).notified]
    simp [Event.isSetState]
  | timer i => exact notified_timer h

/-- In every run, the session at address `a` is sent something on behalf of `set_state`, or has a
delayed send pending, as many times as a request has found it registered. -/
theorem notified_once (hr : (machine app).run es = some (w, os)) (a : Nat) :
    (sentTo a os).length + pending a w =
      requests app (fun w _ => Registered w a) {} [] es := by
  refine run_induction (P := fun es w os => (sentTo a os).length + pending a w =
    requests app (fun w _ => Registered w a) {} [] es) rfl ?_ hr
  intro es w os e w' o hr ih h
  have hstep := notified_step (a := a) (.of_run hr) (.of_run hr) (.of_run hr) h
  rw [requests_concat hr h, sentTo_append, List.length_append]
  omega

/-- A session is registered for a delayed request and for another one. The third request comes after
it has left. -/
theorem notified_once_left : ∃ w os, (machine .simpleGame).run
    [.connect (bytes "k"), .stream 0 (.accepted .success),
      .setState (bytes "a") (some (UnorderedMap.emplace ∅ (bytes "delay") (bytes "5")))
        [(bytes "k", 0)],
      .setState (bytes "b") none [(bytes "k", 0)], .stream 0 (.received .closed [] true),
      .setState (bytes "c") none []] = some (w, os) ∧
    sentTo 0 os = [bytes "b"] ∧ pending 0 w = 1 := by
  obtain ⟨w, os, hr, hsent, hrequests⟩ := exists_run (M := machine .simpleGame)
    [.connect (bytes "k"), .stream 0 (.accepted .success),
      .setState (bytes "a") (some (UnorderedMap.emplace ∅ (bytes "delay") (bytes "5")))
        [(bytes "k", 0)],
      .setState (bytes "b") none [(bytes "k", 0)], .stream 0 (.received .closed [] true),
      .setState (bytes "c") none []]
    (P := fun _ os => sentTo 0 os = [bytes "b"] ∧
      requests .simpleGame (fun w _ => Registered w 0) {} []
      [.connect (bytes "k"), .stream 0 (.accepted .success),
        .setState (bytes "a") (some (UnorderedMap.emplace ∅ (bytes "delay") (bytes "5")))
          [(bytes "k", 0)],
        .setState (bytes "b") none [(bytes "k", 0)], .stream 0 (.received .closed [] true),
        .setState (bytes "c") none []] = 2) (by decide +kernel)
  have h := notified_once hr 0
  rw [hsent] at h
  exact ⟨w, os, hr, hsent, Nat.add_left_cancel (h.trans hrequests)⟩

end TheGame.World
