import TheGame.Apps.Registry

/-!
# The state which the clients have been sent

`POST /test/set_state` sends the new state to every registered session, at once or from a timer. A
timer sends the state which it finds when it expires, not the one it was started for, so that the
order in which timers expire does not matter.
-/

namespace TheGame.World
open WebSocketSession (Connected)
open Mealy

variable {app : App} {w w' w₀ : World} {a b : Nat} {key data body : Bytes}
  {k : WebSocketSession.Stream} {e : Event} {es pre post : List Event} {o os os₀ : List Output}
  {params : Option Params} {order : List (Bytes × Nat)}

/-- The strings passed to `Send` of the session at address `a` on behalf of `set_state`. -/
def sentTo (a : Nat) (os : List Output) : List Bytes :=
  os.filterMap fun
    | .broadcast b data => if b = a then some data else none
    | _ => none

/-- The event is a `POST /test/set_state`. -/
def Event.isSetState : Event → Bool
  | .setState .. => true
  | _ => false

/-- The session at address `a` has a delayed send pending, or has last been sent the state. -/
def UpToDate (a : Nat) (w : World) (os : List Output) : Prop :=
  (∃ t ∈ w.timers, t.session = a) ∨ (sentTo a os).getLast? = some w.state

@[simp] theorem sentTo_append : sentTo a (os ++ o) = sentTo a os ++ sentTo a o :=
  List.filterMap_append

theorem sentTo_stream {o : List WebSocketSession.Output} :
    sentTo b (o.map (Output.stream a)) = [] := by
  simp [sentTo]

/-- The last string is one of those just sent, if these are all the same. -/
theorem getLast?_sentTo (hmem : .broadcast a data ∈ o)
    (hall : ∀ b d, .broadcast b d ∈ o → d = data) :
    (sentTo a (os ++ o)).getLast? = some data := by
  have hin : data ∈ sentTo a o := List.mem_filterMap.mpr ⟨_, hmem, by simp⟩
  have hne : sentTo a o ≠ [] := List.ne_nil_of_mem hin
  rw [sentTo_append, List.getLast?_append_of_ne_nil _ hne, List.getLast?_eq_some_getLast hne]
  obtain ⟨x, hx, hd⟩ := List.mem_filterMap.mp (List.getLast_mem hne)
  cases x with
  | broadcast b d =>
    dsimp only at hd
    split at hd
    · rw [← Option.some.inj hd, hall b d hx]
    · cases hd
  | stream | reply => cases hd

/-! ## Steps that leave the state alone -/

@[simp] theorem send_state : (w.send a data).state = w.state := by
  unfold send; split <;> rfl

@[simp] theorem send_timers : (w.send a data).timers = w.timers := by
  unfold send; split <;> rfl

/-- The callbacks of the WebSocket handler do not touch the state or the timers. -/
theorem deliver_frame {o : List WebSocketSession.Output} :
    (deliver app.handler a o w).state = w.state ∧
      (deliver app.handler a o w).timers = w.timers := by
  induction o generalizing w with
  | nil => exact ⟨rfl, rfl⟩
  | cons x o ih =>
    cases x with
    | message m => exact ih
    | call c =>
      obtain ⟨hs, ht⟩ := ih (w := app.handler.invoke a c w)
      rw [deliver, hs, ht]
      obtain ⟨ctxs, h⟩ | ⟨b, data, h⟩ := invoke_cases app a c w
      · rw [h]
        exact ⟨rfl, rfl⟩
      · rw [h]
        exact ⟨send_state, send_timers⟩

theorem reap_frame : (w.reap a).state = w.state ∧ (w.reap a).timers = w.timers := by
  unfold reap
  split
  · exact ⟨rfl, rfl⟩
  split <;> exact ⟨rfl, rfl⟩

theorem streamStep_frame {e : WebSocketSession.Event}
    (h : w.streamStep app.handler a e = some (w', o)) :
    w'.state = w.state ∧ w'.timers = w.timers ∧ ∀ b, sentTo b o = [] := by
  obtain ⟨k, k', o', -, -, rfl, rfl⟩ := streamStep_eq.mp h
  have hd :
      (deliver app.handler a o' { w with sessions := w.sessions.insert a k' }).state = w.state ∧
      (deliver app.handler a o' { w with sessions := w.sessions.insert a k' }).timers = w.timers :=
    deliver_frame
  obtain ⟨hs, ht⟩ := hd
  exact ⟨reap_frame.1.trans hs, reap_frame.2.trans ht, fun _ => sentTo_stream⟩

namespace UpToDate

/-- The timer that expires sends the present state. -/
theorem timer {i : Nat} (H : UpToDate a w os) (h : step app w (.timer i) = some (w', o)) :
    UpToDate a w' (os ++ o) ∧ w'.state = w.state := by
  simp only [World.step, timerStep] at h
  split at h
  · cases h
  rename_i t ht
  cases h
  refine ⟨?_, send_state⟩
  by_cases hta : t.session = a
  · refine .inr ?_
    rw [send_state, hta]
    exact getLast?_sentTo (List.mem_singleton_self _) (by simp)
  · obtain ⟨t', ht', hs⟩ | hlast := H
    · refine .inl ⟨t', ?_, hs⟩
      rw [send_timers, List.mem_eraseIdx_iff_getElem?]
      obtain ⟨j, hj⟩ := List.mem_iff_getElem?.mp ht'
      refine ⟨j, ?_, hj⟩
      rintro rfl
      rw [ht] at hj
      cases hj
      exact hta hs
    · refine .inr ?_
      rw [send_state, sentTo_append, show sentTo a [.broadcast t.session w.state] = [] by
        simp [sentTo, hta], List.append_nil]
      exact hlast

theorem step (H : UpToDate a w os) (h : step app w e = some (w', o)) (he : e.isSetState = false) :
    UpToDate a w' (os ++ o) ∧ w'.state = w.state := by
  cases e with
  | connect key =>
    cases h
    rw [List.append_nil]
    exact ⟨H, rfl⟩
  | stream b e =>
    obtain ⟨hs, ht, ho⟩ := streamStep_frame h
    rw [UpToDate, hs, ht, sentTo_append, ho, List.append_nil]
    exact ⟨H, rfl⟩
  | setState => cases he
  | timer i => exact H.timer h

theorem runFrom (H : UpToDate a w os) (h : (machine app).runFrom w es = some (w', o))
    (hes : ∀ e ∈ es, e.isSetState = false) : UpToDate a w' (os ++ o) ∧ w'.state = w.state := by
  induction es generalizing w os o with
  | nil =>
    cases h
    rw [List.append_nil]
    exact ⟨H, rfl⟩
  | cons e es ih =>
    obtain ⟨v, p, q, hs, hr, rfl⟩ := runFrom_cons.mp h
    obtain ⟨H', hv⟩ := H.step hs (hes e List.mem_cons_self)
    obtain ⟨H'', hw⟩ := ih H' hr fun e he => hes e (List.mem_cons_of_mem _ he)
    rw [← List.append_assoc]
    exact ⟨H'', hw.trans hv⟩

end UpToDate

/-! ## The registered sessions -/

/-- The session of every entry of the registry has called `on_connect`. -/
def AllConnected (w : World) (os : List Output) : Prop :=
  ∀ key a, w.ctxs.lookup key = some a → Connected (own a os)

namespace AllConnected

theorem append (H : AllConnected w os) (hc : ∀ key a, w'.ctxs.lookup key = some a →
    w.ctxs.lookup key = some a) : AllConnected w' (os ++ o) := by
  intro key a h
  rw [own_append, WebSocketSession.connected_append]
  exact .inl (H key a (hc key a h))

theorem step (H : AllConnected w os) (HI : Inv w os) (h : World.step app w e = some (w', o)) :
    AllConnected w' (os ++ o) := by
  cases e with
  | connect key =>
    cases h
    exact H.append fun _ _ h => h
  | stream a e =>
    obtain ⟨k, k', o', hk, -, rfl, hch⟩ := HI.streamChange h
    cases hch with
    | connect ha hctx hr =>
      intro key b hb
      rw [own_append, WebSocketSession.connected_append]
      obtain ⟨rfl, rfl⟩ | ⟨-, hb⟩ := UnorderedMap.lookup_insert_eq_some.mp hb
      · rw [own_stream_self]
        exact .inr (by simp)
      · exact .inl (H key b hb)
    | disconnect hr hctx =>
      refine H.append fun key b hb => ?_
      rw [reap_ctxs] at hb
      by_cases hkey : key = k.session.ctx.uuid
      · subst key
        rw [lookup_unregister_self] at hb
        cases hb
      · rwa [lookup_unregister_ne hkey] at hb
    | abort => exact H.append fun key b hb => by rwa [reap_ctxs] at hb
    | echo => exact H.append fun key b hb => by rwa [reap_ctxs, send_ctxs] at hb
    | quiet => exact H.append fun key b hb => by rwa [reap_ctxs] at hb
  | setState body params order =>
    obtain ⟨o', hb, -⟩ := step_setState h
    have hctxs : w'.ctxs = w.ctxs := broadcast_induction (P := fun v => v.ctxs = w.ctxs)
      (fun _ _ _ h => send_ctxs.trans h) (fun _ _ h => h) hb rfl
    exact H.append fun key b hb => by rwa [hctxs] at hb
  | timer i =>
    obtain ⟨timers, a, rfl, -⟩ := step_timer h
    exact H.append fun key b hb => by rwa [send_ctxs] at hb

theorem of_run (hr : (machine app).run es = some (w, os)) : AllConnected w os := by
  refine run_induction (P := fun _ w os => AllConnected w os) ?_ ?_ hr
  · intro key a h
    simp [machine] at h
  · intro es w os e w' o hr H h
    exact H.step (.of_run hr) h

end AllConnected

/-! ## The loop of `set_state` -/

/-- Locking the context of the session at address `a` gives that session. -/
def LocksItself (w : World) (a : Nat) : Prop :=
  ∀ k, w.sessions.lookup a = some k → w.lock k.session.ctx = some a

theorem LocksItself.send (H : LocksItself w a) : LocksItself (w.send b data) a := by
  intro k' hk'
  obtain ⟨k, hk, hctx, -⟩ := lookup_send hk'
  have := H k hk
  rw [hctx]
  simpa only [lock, lookup_send_isSome] using this

theorem locksItself_of_connected (HI : Inv w os) (hc : Connected (own a os)) :
    LocksItself w a := by
  intro k hk
  rw [(HI.lifecycle hk).ctx_eq hc]
  simp [lock, WebSocketSession.acceptedCtx, hk]

/-- Every session the loop meets gets a timer or is sent the state, and the state is all that is
sent. -/
theorem broadcast_upToDate (h : broadcast params order w = some (w', o))
    (hlock : ∀ p ∈ order, LocksItself w p.2) :
    w'.state = w.state ∧ (∀ t ∈ w.timers, t ∈ w'.timers) ∧
      (∀ b d, .broadcast b d ∈ o → d = w.state) ∧
      ∀ p ∈ order, (∃ t ∈ w'.timers, t.session = p.2) ∨ .broadcast p.2 w.state ∈ o := by
  induction order generalizing w o with
  | nil =>
    cases h
    exact ⟨rfl, fun _ h => h, nofun, nofun⟩
  | cons entry rest ih =>
    obtain ⟨k, v, u, o', hk, rfl, hrun, hv⟩ := broadcast_cons h
    have hc : w.lock k.session.ctx = some entry.2 := hlock _ List.mem_cons_self k hk
    have hrest : ∀ p ∈ rest, LocksItself w p.2 := fun p hp => hlock p (List.mem_cons_of_mem _ hp)
    obtain ⟨hnone, -, -⟩ | ⟨c, hc', hv⟩ := hv
    · rw [hc] at hnone
      cases hnone
    obtain rfl : entry.2 = c := Option.some.inj (hc.symm.trans hc')
    obtain ⟨n, rfl, rfl⟩ | ⟨rfl, rfl⟩ := hv
    · obtain ⟨hs, ht, hall, hp⟩ := ih hrun hrest
      have hkeep (t : Timer) (htm : t ∈ w.timers) : t ∈ w'.timers :=
        ht t (List.mem_append_left _ htm)
      refine ⟨hs, hkeep, hall, fun p hp' => ?_⟩
      rcases List.mem_cons.mp hp' with rfl | hp'
      · exact .inl ⟨_, ht _ (List.mem_append_right _ (List.mem_singleton_self _)), rfl⟩
      · exact hp p hp'
    · obtain ⟨hs, ht, hall, hp⟩ := ih hrun fun p hp => (hrest p hp).send
      rw [send_state] at hs hall hp
      rw [send_timers] at ht
      refine ⟨hs, ht, fun b d hm => ?_, fun p hp' => ?_⟩
      · rcases List.mem_cons.mp hm with hm | hm
        · cases hm
          rfl
        · exact hall b d hm
      · rcases List.mem_cons.mp hp' with rfl | hp'
        · exact .inr List.mem_cons_self
        · exact (hp p hp').imp_right (List.mem_cons_of_mem _)

theorem upToDate_setState (HI : Inv w os) (HC : AllConnected w os) (ha : Registered w a)
    (h : step app w (.setState body params order) = some (w', o)) :
    UpToDate a w' (os ++ o) ∧ w'.state = body := by
  simp only [step] at h
  split at h <;> rename_i hperm
  · simp only [setState, Option.map_eq_some_iff, Prod.mk.injEq, Prod.exists] at h
    obtain ⟨v, o', h, rfl, rfl⟩ := h
    rw [Bool.and_eq_true, List.isPerm_iff] at hperm
    have horder : order.Perm w.ctxs.toPairs := hperm.2
    have hlock : ∀ p ∈ order, LocksItself { w with state := body } p.2 := by
      intro p hp
      have hl : w.ctxs.lookup p.1 = some p.2 := UnorderedMap.mem_toPairs.mp (horder.mem_iff.mp hp)
      exact locksItself_of_connected (HI.congr rfl rfl) (HC p.1 p.2 hl)
    obtain ⟨hs, ht, hall, hp⟩ := broadcast_upToDate h hlock
    obtain ⟨p, hp', rfl⟩ := ha
    refine ⟨?_, hs⟩
    obtain htimer | hsent := hp p (horder.mem_iff.mpr hp')
    · exact .inl htimer
    · refine .inr ?_
      rw [hs]
      refine getLast?_sentTo (List.mem_cons_of_mem _ hsent) fun b d hm => ?_
      exact hall b d (by simpa using hm)
  · cases h

/-- In every state after a `POST /test/set_state`, each session that was registered at the last one
has a delayed send pending, or was last sent the present state. -/
theorem upToDate_of_registered
    (h₀ : (machine .simpleGame).run pre = some (w₀, os₀)) (ha : Registered w₀ a)
    (hr : (machine .simpleGame).run (pre ++ .setState body params order :: post) = some (w, os))
    (hpost : ∀ e ∈ post, e.isSetState = false) :
    ((∃ t ∈ w.timers, t.session = a) ∨ (sentTo a os).getLast? = some w.state) ∧
      (w.timers = [] → (sentTo a os).getLast? = some w.state) ∧ w.state = body := by
  obtain ⟨w₁, os₁, p, h₁, hrest, rfl⟩ := runFrom_append.mp hr
  obtain ⟨rfl, rfl⟩ : w₀ = w₁ ∧ os₀ = os₁ := by
    rw [Mealy.run] at h₀
    rw [h₀] at h₁
    cases h₁
    exact ⟨rfl, rfl⟩
  obtain ⟨v, o, q, hs, hp, rfl⟩ := runFrom_cons.mp hrest
  obtain ⟨H, hv⟩ := upToDate_setState (.of_run h₀) (.of_run h₀) ha hs
  obtain ⟨H', hw⟩ := H.runFrom hp hpost
  rw [← List.append_assoc]
  refine ⟨H', fun hidle => H'.resolve_left ?_, hw.trans hv⟩
  rw [hidle]
  simp

/-- An update with a delay, which is a negative number, is followed by one without; then the timer
of the first one expires and sends the state of the second. -/
theorem upToDate_of_registered_delayed : ∃ w os, (machine .simpleGame).run
    ([.connect (bytes "k"), .stream 0 (.accepted .success), .setState (bytes "old")
        (some (UnorderedMap.emplace ∅ (bytes "delay") (bytes "-5"))) [(bytes "k", 0)]] ++
      .setState (bytes "new") none [(bytes "k", 0)] :: [.timer 0]) = some (w, os) ∧
    sentTo 0 os = [bytes "new", bytes "new"] ∧ (sentTo 0 os).getLast? = some w.state := by
  obtain ⟨w₀, os₀, h₀, ha⟩ := exists_run (M := machine .simpleGame)
    [.connect (bytes "k"), .stream 0 (.accepted .success), .setState (bytes "old")
      (some (UnorderedMap.emplace ∅ (bytes "delay") (bytes "-5"))) [(bytes "k", 0)]]
    (P := fun w _ => Registered w 0) (by decide +kernel)
  obtain ⟨w, os, hr, hsent, ht⟩ := exists_run (M := machine .simpleGame)
    ([.connect (bytes "k"), .stream 0 (.accepted .success), .setState (bytes "old")
        (some (UnorderedMap.emplace ∅ (bytes "delay") (bytes "-5"))) [(bytes "k", 0)]] ++
      .setState (bytes "new") none [(bytes "k", 0)] :: [.timer 0])
    (P := fun w os => sentTo 0 os = [bytes "new", bytes "new"] ∧ w.timers = [])
    (by decide +kernel)
  have h := upToDate_of_registered h₀ ha hr (by simp [Event.isSetState])
  exact ⟨w, os, hr, hsent, h.2.1 ht⟩

end TheGame.World
