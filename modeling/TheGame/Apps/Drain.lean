import TheGame.Apps.Ownership

/-!
# A listener that nobody uses any more

Once no client connects or sends anything, what is outstanding completes: finitely many completions
and timers later every session has been destroyed. The measure is what is still to be done. An
accept that succeeds leaves a read to complete, a queued write is transmitted before it completes,
and a timer starts a write.
-/

namespace TheGame
open Mealy

namespace WebSocketSession

/-- The event is a message of the peer, or a call of `Send`. -/
def Event.isInput : Event → Bool
  | .send _ | .received .success .. => true
  | _ => false

namespace Stream

/-- What a session has still to do. -/
def work (k : Stream) : Nat := 2 * k.accepts + k.reads + 2 * k.queued.length + k.inFlight.length

variable {k k' : Stream} {e : Event} {o : List Output}

theorem work_step (h : k.step e = some (k', o)) (he : e.isInput = false) : k'.work < k.work := by
  cases e with
  | send data => cases he
  | transmit =>
    obtain ⟨v, q, hq, rfl, -⟩ := step_transmit.mp h
    simp only [work, hq, List.length_append, List.length_cons, List.length_nil]
    omega
  | accepted ec =>
    obtain ⟨hpos, ⟨-, rfl, -⟩ | ⟨-, rfl, -⟩⟩ := step_accepted.mp h <;>
      simp only [work] <;> omega
  | received ec payload gotText =>
    obtain ⟨hpos, ⟨-, -, rfl⟩ | ⟨-, -, -, rfl⟩ | ⟨rfl, -⟩⟩ := step_received.mp h
    · simp only [work]
      omega
    · simp only [work]
      omega
    · cases he
  | written i =>
    obtain ⟨v, hv, -, rfl⟩ := step_written.mp h
    have hi : i < k.inFlight.length := (List.getElem?_eq_some_iff.mp hv).1
    simp only [work, List.length_eraseIdx_of_lt hi]
    omega
  | writeFailed i ec =>
    obtain ⟨-, hi, -, rfl⟩ := step_writeFailed.mp h
    split <;> rename_i hf
    · simp only [work, List.length_eraseIdx_of_lt hf]
      omega
    · have hq : i - k.inFlight.length < k.queued.length := by omega
      simp only [work, List.length_eraseIdx_of_lt hq]
      omega

/-- Whatever is outstanding can complete, without anything new coming in. -/
theorem exists_step (h : 0 < k.outstanding) : ∃ e, e.isInput = false ∧ k.step e ≠ none := by
  have hne {e : Event} {r : Stream × List Output} (h : k.step e = some r) : k.step e ≠ none := by
    rw [h]
    nofun
  by_cases ha : 0 < k.accepts
  · exact ⟨.accepted .closed, rfl, hne (step_accepted.mpr ⟨ha, .inl ⟨nofun, rfl, rfl⟩⟩)⟩
  by_cases hr : 0 < k.reads
  · exact ⟨.received .closed [] true, rfl, hne (step_received.mpr ⟨hr, .inl ⟨rfl, rfl, rfl⟩⟩)⟩
  cases hq : k.queued with
  | cons v q => exact ⟨.transmit, rfl, hne (step_transmit.mpr ⟨v, q, hq, rfl, rfl⟩)⟩
  | nil =>
    have hf : 0 < k.inFlight.length := by
      simp only [outstanding, hq, List.length_nil] at h
      omega
    exact ⟨.written 0, rfl,
      hne (step_written.mpr ⟨_, List.getElem?_eq_getElem hf, rfl, rfl⟩)⟩

end Stream

end WebSocketSession

namespace World

variable {app : App} {w w' : World} {a : Nat} {data : Bytes} {k k' : WebSocketSession.Stream}
  {e : Event} {es : List Event} {o os : List Output}

/-- The event brings in something new: a client, a message, or a request. -/
def Event.isInput : Event → Bool
  | .connect _ | .setState .. => true
  | .stream _ e => e.isInput
  | .timer _ => false

/-- What a listener has still to do. -/
def work (w : World) : Nat :=
  UnorderedMap.total WebSocketSession.Stream.work w.sessions + 3 * w.timers.length

/-! ## What the parts of a step do to the measure -/

theorem work_reap : (w.reap a).work ≤ w.work := by
  unfold reap
  cases hk : w.sessions.lookup a with
  | none => exact Nat.le_refl _
  | some k =>
    dsimp only
    split
    · have h := UnorderedMap.total_erase (f := WebSocketSession.Stream.work) hk
      simp only [work]
      omega
    · exact Nat.le_refl _

theorem work_unregister {ctx : WSContext} : (w.unregister ctx).work = w.work := by
  unfold unregister
  split <;> rfl

theorem work_insert (hk : w.sessions.lookup a = some k) (h : k'.work < k.work) :
    work { w with sessions := w.sessions.insert a k' } < w.work := by
  have ht : UnorderedMap.total WebSocketSession.Stream.work (w.sessions.insert a k') + k.work =
      UnorderedMap.total WebSocketSession.Stream.work w.sessions + k'.work :=
    UnorderedMap.total_insert hk
  simp only [work]
  omega

/-- A write is queued. -/
theorem work_send : (w.send a data).work ≤ w.work + 2 := by
  unfold send
  cases hk : w.sessions.lookup a with
  | none => exact Nat.le_add_right _ _
  | some k =>
    have ht := UnorderedMap.total_insert (f := WebSocketSession.Stream.work)
      (v := (k.apply (k.session.send data)).1) hk
    have hw : (k.apply (k.session.send data)).1.work = k.work + 2 := by
      have hq : (k.apply (k.session.send data)).1.queued =
        k.queued ++ [k.session.writeBuf ++ data] := rfl
      simp only [WebSocketSession.Stream.work, hq, List.length_append, List.length_singleton]
      change 2 * k.accepts + k.reads + 2 * (k.queued.length + 1) + k.inFlight.length = _
      omega
    rw [hw] at ht
    simp only [work]
    omega

/-- Every step that brings in nothing new does some of the work. -/
theorem work_step (HI : Inv w os) (h : World.step app w e = some (w', o))
    (he : e.isInput = false) : w'.work < w.work := by
  cases e with
  | connect | setState => cases he
  | stream a e =>
    obtain ⟨k, k', o', hk, hs, -, hch⟩ := HI.streamChange h
    have hw := work_insert hk (WebSocketSession.Stream.work_step hs he)
    cases hch with
    | connect => exact hw
    | disconnect =>
      refine Nat.lt_of_le_of_lt work_reap ?_
      rwa [work_unregister]
    | abort | quiet => exact Nat.lt_of_le_of_lt work_reap hw
    | echo => cases he
  | timer i =>
    simp only [World.step, timerStep] at h
    split at h
    · cases h
    rename_i t ht
    cases h
    refine Nat.lt_of_le_of_lt work_send ?_
    have hi : i < w.timers.length := (List.getElem?_eq_some_iff.mp ht).1
    simp only [work, List.length_eraseIdx_of_lt hi]
    omega

theorem drains (app : App) :
    (machine app).Drains (machine app).Reachable (fun e => e.isInput = false) work := by
  intro w e w' o hR he h
  refine ⟨hR.step h, ?_⟩
  obtain ⟨es, os, hr⟩ := hR
  exact work_step (Inv.of_run hr) h he

/-- Nothing goes on any more exactly if no session and no timer is left. -/
theorem atRest_iff (H : (machine app).Reachable w) :
    (machine app).AtRest (fun e => e.isInput = false) w ↔ w.sessions = ∅ ∧ w.timers = [] := by
  obtain ⟨es, os, hr⟩ := H
  have HO : w.Owned := Owned.of_run hr
  constructor
  · intro hrest
    have htimers : w.timers = [] := by
      cases ht : w.timers with
      | nil => rfl
      | cons t ts =>
        have h : (machine app).step w (.timer 0) = none := hrest (.timer 0) rfl
        simp [machine, World.step, timerStep, ht] at h
    refine ⟨UnorderedMap.eq_empty fun a => ?_, htimers⟩
    cases hk : w.sessions.lookup a with
    | none => rfl
    | some k =>
      obtain ⟨k', hk', hout⟩ | ⟨t, ht, -⟩ := HO.held a k trivial hk
      · obtain ⟨e, he, hstep⟩ := WebSocketSession.Stream.exists_step hout
        obtain ⟨⟨k₁, o⟩, hstep⟩ := Option.ne_none_iff_exists'.mp hstep
        have h : w.streamStep app.handler a e = none := hrest (.stream a e) he
        rw [streamStep_eq.mpr ⟨k', k₁, o, hk', hstep, rfl, rfl⟩] at h
        cases h
      · rw [htimers] at ht
        cases ht
  · rintro ⟨hs, ht⟩ e he
    cases e with
    | connect | setState => cases he
    | stream a e =>
      change w.streamStep app.handler a e = none
      simp [streamStep, hs]
    | timer i =>
      change w.timerStep i = none
      simp [timerStep, ht]

/-- From every reachable state, at most `work` completions and timers follow one another when
nothing new comes in, and where none is left to follow, no session and no timer is left. Such a
state is reached. -/
theorem drained (hr : (machine app).run es = some (w, os)) :
    (∀ fs w' o, (machine app).runFrom w fs = some (w', o) → (∀ e ∈ fs, e.isInput = false) →
      fs.length ≤ w.work ∧ ((∀ e, e.isInput = false → (machine app).step w' e = none) ↔
        w'.sessions = ∅ ∧ w'.timers = [])) ∧
    ∃ fs w' o, (machine app).runFrom w fs = some (w', o) ∧ (∀ e ∈ fs, e.isInput = false) ∧
      w'.sessions = ∅ ∧ w'.timers = [] := by
  have hR : (machine app).Reachable w := ⟨es, os, hr⟩
  constructor
  · intro fs w' o hrun hfs
    obtain ⟨hR', hle⟩ := (drains app).length_le hR hfs hrun
    exact ⟨Nat.le_trans (Nat.le_add_right _ _) hle, atRest_iff hR'⟩
  · obtain ⟨fs, w', o, hfs, hrun, hR', hrest⟩ := (drains app).exists_atRest hR
    exact ⟨fs, w', o, hrun, hfs, (atRest_iff hR').mp hrest⟩

/-- A client that has sent one message. -/
theorem drained_one : ∃ w os fs w' o, (machine .simpleGame).run
    [.connect (bytes "k"), .stream 0 (.accepted .success),
      .stream 0 (.received .success (bytes "a") true)] = some (w, os) ∧ w.work = 3 ∧
    (machine .simpleGame).runFrom w fs = some (w', o) ∧ (∀ e ∈ fs, e.isInput = false) ∧
    w'.sessions = ∅ ∧ w'.timers = [] := by
  obtain ⟨w, os, hr, hw⟩ := exists_run (M := machine .simpleGame)
    [.connect (bytes "k"), .stream 0 (.accepted .success),
      .stream 0 (.received .success (bytes "a") true)]
    (P := fun w _ => w.work = 3) (by decide +kernel)
  obtain ⟨fs, w', o, h⟩ := (drained hr).2
  exact ⟨w, os, fs, w', o, hr, hw, h⟩

end World

end TheGame
