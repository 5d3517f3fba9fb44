import TheGame.Apps.World

/-!
# The registry `ctxs_`

Two properties of the registry over whole runs of a listener. Neither holds of all runs, and each
comes with the condition on the steps under which it does.

* Every stored pointer belongs to a session that has not been destroyed (`NoDangling`). The entry
  of a session goes only in `on_disconnect`, which is not called when its last read fails with
  another error than `websocket::error::closed`.
* Every connected session has its own entry (`SelfRegistered`). The entries are keyed by the
  `Sec-WebSocket-Key` the client has sent, so two connected sessions must not share a key.
-/

namespace TheGame.World
open WebSocketSession (Connected Disconnected)
open Mealy

variable {app : App} {w w' : World} {a b : Nat} {key data : Bytes}
  {k k' : WebSocketSession.Stream} {e : Event} {es : List Event} {o os : List Output}

/-! ## Dangling pointers -/

/-- Some entry of the registry points to the session at address `a`. -/
def Registered (w : World) (a : Nat) : Prop := ∃ entry ∈ w.ctxs.toPairs, entry.2 = a

/-- No entry of the registry points to a session that has been destroyed. -/
def NoDangling (w : World) (_ : List Output) : Prop :=
  ∀ entry ∈ w.ctxs.toPairs, (w.sessions.lookup entry.2).isSome

/-- The event is not a read of a registered session that fails, unless because the peer has closed
the WebSocket. -/
def NoAbruptEnd (w : World) (_ : List Output) : Event → Prop
  | .stream a (.received ec _ _) => ec = .success ∨ ec = .closed ∨ ¬Registered w a
  | _ => True

instance : Decidable (Registered w a) := inferInstanceAs (Decidable (∃ _ ∈ _, _))

instance : Decidable (NoDangling w os) := inferInstanceAs (Decidable (∀ _ ∈ _, _))

instance : ∀ w os e, Decidable (NoAbruptEnd w os e)
  | w, _, .stream a (.received ec _ _) =>
    inferInstanceAs (Decidable (ec = .success ∨ ec = .closed ∨ ¬Registered w a))
  | _, _, .connect _ | _, _, .setState .. | _, _, .timer _ | _, _, .stream _ (.send _)
  | _, _, .stream _ .transmit | _, _, .stream _ (.accepted _) | _, _, .stream _ (.written _)
  | _, _, .stream _ (.writeFailed ..) => inferInstanceAs (Decidable True)

theorem registered_iff : Registered w a ↔ ∃ key, w.ctxs.lookup key = some a := by
  simp only [Registered, Prod.exists, UnorderedMap.mem_toPairs]
  exact ⟨fun ⟨key, _, h, he⟩ => ⟨key, he ▸ h⟩, fun ⟨key, h⟩ => ⟨key, a, h, rfl⟩⟩

/-- Every entry of the registry is for the key of a session with a read outstanding. -/
def AllReading (w : World) : Prop :=
  ∀ key a, w.ctxs.lookup key = some a →
    ∃ k, w.sessions.lookup a = some k ∧ k.session.ctx.uuid = key ∧ 0 < k.reads

namespace AllReading

theorem noDangling (H : AllReading w) : NoDangling w os := by
  intro entry he
  obtain ⟨k, hk, -⟩ := H _ _ (UnorderedMap.mem_toPairs.mp he)
  simp [hk]

theorem congr (H : AllReading w) (hc : w'.ctxs = w.ctxs) (hs : w'.sessions = w.sessions) :
    AllReading w' := by
  unfold AllReading
  rw [hc, hs]
  exact H

/-- A session may change, as long as it goes on reading if it has an entry. -/
theorem insert (H : AllReading w) (hk : w.sessions.lookup a = some k)
    (hctx : k'.session.ctx = k.session.ctx) (hr : Registered w a → k'.reads = k.reads) :
    AllReading { w with sessions := w.sessions.insert a k' } := by
  intro key b hb
  obtain ⟨kb, hkb, hu, hpos⟩ := H key b hb
  by_cases hba : b = a
  · subst b
    rw [hk] at hkb
    cases hkb
    refine ⟨k', AList.lookup_insert _, by rw [hctx, hu], ?_⟩
    rwa [hr (registered_iff.mpr ⟨key, hb⟩)]
  · exact ⟨kb, by rw [AList.lookup_insert_ne hba]; exact hkb, hu, hpos⟩

theorem send (H : AllReading w) : AllReading (w.send a data) := by
  intro key b hb
  rw [send_ctxs] at hb
  obtain ⟨k, hk, hu, hpos⟩ := H key b hb
  cases hk' : (w.send a data).sessions.lookup b with
  | none =>
    have hs : ((w.send a data).sessions.lookup b).isSome = (w.sessions.lookup b).isSome :=
      lookup_send_isSome
    simp [hk, hk'] at hs
  | some k' =>
    obtain ⟨k₁, hk₁, hctx, hr⟩ := lookup_send hk'
    rw [hk] at hk₁
    cases hk₁
    exact ⟨k', rfl, by rw [hctx, hu], by rwa [hr]⟩

theorem reap (H : AllReading w) : AllReading (w.reap a) := by
  intro key b hb
  rw [reap_ctxs] at hb
  obtain ⟨k, hk, hu, hpos⟩ := H key b hb
  refine ⟨k, ?_, hu, hpos⟩
  by_cases hba : b = a
  · subst b
    rw [reap_of_outstanding hk]
    · exact hk
    · unfold WebSocketSession.Stream.outstanding
      omega
  · rw [lookup_reap_ne hba, hk]

theorem streamChange {e : WebSocketSession.Event} {o : List WebSocketSession.Output}
    (H : AllReading w) (HI : Inv w os) (hk : w.sessions.lookup a = some k)
    (hC : NoAbruptEnd w os (.stream a e)) (h : StreamChange w a k k' e o w') :
    AllReading w' := by
  have L := HI.lifecycle hk
  cases h with
  | connect ha hctx hr =>
    intro key b hb
    obtain ⟨rfl, rfl⟩ | ⟨-, hb⟩ := UnorderedMap.lookup_insert_eq_some.mp hb
    · exact ⟨k', AList.lookup_insert _, by rw [hctx]; rfl, hr⟩
    · obtain ⟨kb, hkb, hu, hpos⟩ := H key b hb
      have hba : b ≠ a := by
        -- a session that is still to be accepted is not reading, so it has no entry
        rintro rfl
        rw [hk] at hkb
        cases hkb
        have := (L.accepting ha).2.1
        omega
      exact ⟨kb, by rw [AList.lookup_insert_ne hba]; exact hkb, hu, hpos⟩
  | disconnect hr hctx =>
    refine AllReading.reap ?_
    intro key b hb
    by_cases hkey : key = k.session.ctx.uuid
    · subst key
      rw [lookup_unregister_self] at hb
      cases hb
    rw [lookup_unregister_ne hkey] at hb
    obtain ⟨kb, hkb, hu, hpos⟩ := H key b hb
    have hba : b ≠ a := by
      rintro rfl
      rw [hk] at hkb
      cases hkb
      exact hkey hu.symm
    exact ⟨kb, by rw [unregister_sessions, AList.lookup_insert_ne hba]; exact hkb, hu, hpos⟩
  | abort hec hcl hctx =>
    refine (H.insert hk hctx fun hreg => ?_).reap
    obtain h | h | h := hC
    · exact absurd h hec
    · exact absurd h hcl
    · exact absurd hreg h
  | echo hctx hr _ _ => exact (H.insert hk hctx fun _ => hr).send.reap
  | quiet _ _ hctx hr _ _ => exact (H.insert hk hctx fun _ => hr).reap

theorem step (H : AllReading w) (HI : Inv w os) (hC : NoAbruptEnd w os e)
    (h : step app w e = some (w', o)) : AllReading w' := by
  cases e with
  | connect key =>
    cases h
    intro key b hb
    obtain ⟨kb, hkb, hu, hpos⟩ := H key b hb
    have hbn : b ≠ w.next := by
      rintro rfl
      rw [(HI.fresh _ (Nat.le_refl _)).1] at hkb
      cases hkb
    exact ⟨kb, by rw [AList.lookup_insert_ne hbn]; exact hkb, hu, hpos⟩
  | stream a e =>
    obtain ⟨k, k', o', hk, -, -, hch⟩ := HI.streamChange h
    exact H.streamChange HI hk hC hch
  | setState body params order =>
    obtain ⟨o', hb, -⟩ := step_setState h
    exact broadcast_induction (P := AllReading) (fun _ _ _ H => H.send)
      (fun _ _ H => H.congr rfl rfl) hb (H.congr rfl rfl)
  | timer i =>
    obtain ⟨timers, a, rfl, -⟩ := step_timer h
    have H' : AllReading { w with timers } := H.congr rfl rfl
    exact H'.send

theorem always (hr : (machine app).run es = some (w, os))
    (hC : (machine app).Along NoAbruptEnd es) : (machine app).Always (fun w _ => AllReading w) es :=
  Along.always (fun _ _ h => by simp [machine] at h)
    (fun _ _ _ _ _ _ hr H hC hs => H.step (Inv.of_run hr) hC hs) hr hC

end AllReading

/-- In every state of a run in which no registered session ends otherwise than by a close of the
peer, every pointer in `ctxs_` belongs to a session that has not been destroyed. -/
theorem always_noDangling (hr : (machine app).run es = some (w, os))
    (hC : (machine app).Along NoAbruptEnd es) : (machine app).Always NoDangling es := by
  intro pre hp v o hv
  have H : AllReading v := AllReading.always hr hC pre hp v o hv
  exact H.noDangling

/-- A client that connects, gets an echo and closes the WebSocket. -/
theorem always_noDangling_echo : (machine .simpleGame).Always NoDangling
    [.connect (bytes "k"), .stream 0 (.accepted .success),
      .stream 0 (.received .success (bytes "hi") true), .stream 0 .transmit,
      .stream 0 (.received .closed [] true), .stream 0 (.written 0)] :=
  always_noDangling (run_eq_some (by decide)) (by decide)

/-- A client that connects and resets the connection stays in `ctxs_`. -/
theorem exists_dangling :
    ∃ es w os, (machine .simpleGame).run es = some (w, os) ∧ ¬NoDangling w os :=
  ⟨[.connect (bytes "k"), .stream 0 (.accepted .success),
    .stream 0 (.received (.other 104) [] true)], _, _, rfl, by decide⟩

/-- The condition is sharp: where it fails for a session that nothing else holds, the entry
dangles at once. -/
theorem dangling_of_abruptEnd {ec : ErrorCode} {payload : Bytes} {gotText : Bool}
    (hk : w.sessions.lookup a = some k)
    (hC : ¬NoAbruptEnd w os (.stream a (.received ec payload gotText)))
    (hout : k.outstanding = 1) (ht : ∀ t ∈ w.timers, t.session ≠ a) (HI : Inv w os)
    (h : step app w (.stream a (.received ec payload gotText)) = some (w', o)) :
    ¬NoDangling w' (os ++ o) := by
  simp only [NoAbruptEnd, not_or, not_not] at hC
  obtain ⟨hec, hcl, hreg⟩ := hC
  obtain ⟨key, hkey⟩ := registered_iff.mp hreg
  obtain ⟨k₀, k', o', hk₀, hs, -, hch⟩ := HI.streamChange h
  rw [hk] at hk₀
  cases hk₀
  cases hch with
  | disconnect => exact absurd rfl hcl
  | echo => exact absurd rfl hec
  | quiet _ hne => exact absurd rfl (hne _ _ _)
  | abort _ _ hctx =>
    have h0 : k'.outstanding = 0 := by
      obtain ⟨hpos, ⟨hc, -⟩ | ⟨-, -, -, rfl⟩ | ⟨hc, -⟩⟩ :=
        WebSocketSession.Stream.step_received.mp hs
      · exact absurd hc hcl
      · unfold WebSocketSession.Stream.outstanding at hout ⊢
        dsimp only
        omega
      · exact absurd hc hec
    have hgone := lookup_reap_self (w := { w with sessions := w.sessions.insert a k' })
      (AList.lookup_insert w.sessions) h0 ht
    intro hno
    have hent := hno (key, a) (UnorderedMap.mem_toPairs.mpr (by rw [reap_ctxs]; exact hkey))
    rw [hgone] at hent
    cases hent

/-! ## Live sessions -/

/-- `on_connect` has been called by the session at address `a`, and `on_disconnect` has not. -/
def Live (os : List Output) (a : Nat) : Prop := Connected (own a os) ∧ ¬Disconnected (own a os)

instance : Decidable (Live os a) := inferInstanceAs (Decidable (_ ∧ _))

/-- Every live session has its own entry in the registry. -/
def SelfRegistered (w : World) (os : List Output) : Prop :=
  ∀ p ∈ w.sessions.toPairs, Live os p.1 → w.ctxs.lookup p.2.session.ctx.uuid = some p.1

/-- The event is not the accept of a session that has its key in common with another live one. -/
def FreshKey (w : World) (os : List Output) : Event → Prop
  | .stream a (.accepted .success) =>
    ∀ p ∈ w.sessions.toPairs, ∀ q ∈ w.sessions.toPairs, p.1 = a → q.1 ≠ a → Live os q.1 →
      q.2.session.ctx.uuid ≠ p.2.session.key
  | _ => True

instance : Decidable (SelfRegistered w os) := inferInstanceAs (Decidable (∀ _ ∈ _, _))

instance : ∀ w os e, Decidable (FreshKey w os e)
  | w, os, .stream a (.accepted .success) =>
    inferInstanceAs (Decidable (∀ p ∈ w.sessions.toPairs, ∀ q ∈ w.sessions.toPairs, p.1 = a →
      q.1 ≠ a → Live os q.1 → q.2.session.ctx.uuid ≠ p.2.session.key))
  | _, _, .connect _ | _, _, .setState .. | _, _, .timer _ | _, _, .stream _ (.send _)
  | _, _, .stream _ .transmit | _, _, .stream _ (.accepted .endOfStream)
  | _, _, .stream _ (.accepted .closed) | _, _, .stream _ (.accepted (.other _))
  | _, _, .stream _ (.received ..) | _, _, .stream _ (.written _)
  | _, _, .stream _ (.writeFailed ..) => inferInstanceAs (Decidable True)

theorem freshKey_of_ne {e : WebSocketSession.Event}
    (h : ∀ ec, e = .accepted ec → ec ≠ .success) : FreshKey w os (.stream a e) := by
  cases e with
  | accepted ec => cases ec <;> first | exact absurd rfl (h _ rfl) | exact trivial
  | _ => exact trivial

theorem live_append_ne {o : List WebSocketSession.Output} (h : a ≠ b) :
    Live (os ++ o.map (Output.stream a)) b ↔ Live os b := by
  rw [Live, own_append, own_stream_ne h, List.append_nil, Live]

theorem live_append_self {o : List WebSocketSession.Output} (hc : ¬Connected o)
    (hd : ¬Disconnected o) : Live (os ++ o.map (Output.stream a)) a ↔ Live os a := by
  rw [Live, own_append, own_stream_self, Live]
  simp [hc, hd]

/-- A session with a read outstanding is live. -/
theorem Inv.live (HI : Inv w os) (hk : w.sessions.lookup a = some k) (h : 0 < k.reads) :
    Live os a := ((HI.lifecycle hk).reading h).2.2

/-- Every session of the second world is one of the first, with the same context. -/
def SameContexts (w w' : World) : Prop :=
  ∀ b k', w'.sessions.lookup b = some k' →
    ∃ k, w.sessions.lookup b = some k ∧ k'.session.ctx = k.session.ctx

theorem SameContexts.insert (hk : w.sessions.lookup a = some k)
    (hctx : k'.session.ctx = k.session.ctx) :
    SameContexts w { w with sessions := w.sessions.insert a k' } := by
  intro b kb hb
  obtain ⟨rfl, rfl⟩ | ⟨-, hb⟩ := UnorderedMap.lookup_insert_eq_some.mp hb
  · exact ⟨k, hk, hctx⟩
  · exact ⟨kb, hb, rfl⟩

theorem SameContexts.send (H : SameContexts w w') : SameContexts w (w'.send a data) := by
  intro b kb hb
  obtain ⟨k₁, hk₁, hctx₁, -⟩ := lookup_send hb
  obtain ⟨k, hk, hctx⟩ := H b k₁ hk₁
  exact ⟨k, hk, hctx₁.trans hctx⟩

theorem SameContexts.reap (H : SameContexts w w') : SameContexts w (w'.reap a) :=
  fun b kb hb => H b kb (lookup_reap hb)

namespace SelfRegistered

theorem lookup (H : SelfRegistered w os) (hk : w.sessions.lookup a = some k) (hl : Live os a) :
    w.ctxs.lookup k.session.ctx.uuid = some a :=
  H (a, k) (UnorderedMap.mem_toPairs.mpr hk) hl

theorem of_lookup (H : ∀ a k, w.sessions.lookup a = some k → Live os a →
    w.ctxs.lookup k.session.ctx.uuid = some a) : SelfRegistered w os :=
  fun p hp hl => H p.1 p.2 (UnorderedMap.mem_toPairs.mp hp) hl

/-- The registry stays, and no session becomes live or gets another context. -/
theorem mono (H : SelfRegistered w os) (hc : w'.ctxs = w.ctxs) (hs : SameContexts w w')
    (hl : ∀ a, Live (os ++ o) a → Live os a) : SelfRegistered w' (os ++ o) := by
  refine of_lookup fun a k' hk' h => ?_
  obtain ⟨k, hk, hctx⟩ := hs a k' hk'
  rw [hc, hctx]
  exact H.lookup hk (hl a h)

/-- Two live sessions with the same key would need the same entry. -/
theorem uuid_ne (H : SelfRegistered w os) {kb : WebSocketSession.Stream}
    (hk : w.sessions.lookup a = some k) (hl : Live os a) (hkb : w.sessions.lookup b = some kb)
    (hlb : Live os b) (hba : b ≠ a) : kb.session.ctx.uuid ≠ k.session.ctx.uuid := by
  intro hu
  have h := H.lookup hkb hlb
  rw [hu, H.lookup hk hl] at h
  exact hba (Option.some.inj h).symm

theorem connect_iff (H : SelfRegistered w os) (hk : w.sessions.lookup a = some k)
    (hctx : k'.session.ctx = WebSocketSession.acceptedCtx a k.session.key) (hl : Live (os ++ o) a)
    (hne : ∀ b, a ≠ b → (Live (os ++ o) b ↔ Live os b)) :
    FreshKey w os (.stream a (.accepted .success)) ↔
      SelfRegistered { w with
        sessions := w.sessions.insert a k'
        ctxs := w.ctxs.insert k.session.key a } (os ++ o) := by
  constructor
  · intro hC
    refine of_lookup fun b kb hb hlb => ?_
    obtain ⟨rfl, rfl⟩ | ⟨hba, hb⟩ := UnorderedMap.lookup_insert_eq_some.mp hb
    · rw [hctx]
      exact AList.lookup_insert _
    · have hlb := (hne b (Ne.symm hba)).mp hlb
      have hu := hC (a, k) (UnorderedMap.mem_toPairs.mpr hk) (b, kb)
        (UnorderedMap.mem_toPairs.mpr hb) rfl hba hlb
      rw [AList.lookup_insert_ne hu]
      exact H.lookup hb hlb
  · rintro H' ⟨_, k₁⟩ hp ⟨b, kb⟩ hq rfl hba hlb hu
    rw [UnorderedMap.mem_toPairs, hk] at hp
    cases hp
    have hb := UnorderedMap.mem_toPairs.mp hq
    -- the entry for the common key points to the session that has just connected
    have h := H'.lookup (a := b) (by rw [AList.lookup_insert_ne hba]; exact hb)
      ((hne b (Ne.symm hba)).mpr hlb)
    dsimp only at hu h
    rw [hu, AList.lookup_insert] at h
    exact hba (Option.some.inj h).symm

theorem stream_iff {e : WebSocketSession.Event} {o : List WebSocketSession.Output}
    (H : SelfRegistered w os) (HI : Inv w os) (hk : w.sessions.lookup a = some k)
    (h : StreamChange w a k k' e o w') :
    FreshKey w os (.stream a e) ↔ SelfRegistered w' (os ++ o.map (Output.stream a)) := by
  have live {b : Nat} (hc : ¬Connected o) (hd : ¬Disconnected o)
      (hb : Live (os ++ o.map (Output.stream a)) b) : Live os b := by
    by_cases hba : a = b
    · subst b
      exact (live_append_self hc hd).mp hb
    · exact (live_append_ne hba).mp hb
  cases h with
  | connect ha hctx hr =>
    have hl := (HI.lifecycle hk).accepting ha
    refine H.connect_iff hk hctx ?_ fun b hab => live_append_ne hab
    rw [Live, own_append, own_stream_self]
    simp [hl.2.2.2]
  | disconnect hr hctx =>
    refine iff_of_true trivial (of_lookup fun b kb hb hlb => ?_)
    have hb := lookup_reap hb
    rw [unregister_sessions] at hb
    have hba : b ≠ a := by
      rintro rfl
      have hd := hlb.2
      rw [own_append, own_stream_self] at hd
      simp at hd
    rw [AList.lookup_insert_ne hba] at hb
    have hlb := (live_append_ne (Ne.symm hba)).mp hlb
    rw [reap_ctxs, lookup_unregister_ne (H.uuid_ne hk (HI.live hk hr) hb hlb hba)]
    exact H.lookup hb hlb
  | abort hec hcl hctx =>
    exact iff_of_true trivial (H.mono reap_ctxs (SameContexts.insert hk hctx).reap
      fun b => live (by simp) (by simp))
  | echo hctx hr hc hd =>
    exact iff_of_true trivial (H.mono (by rw [reap_ctxs, send_ctxs])
      (SameContexts.insert hk hctx).send.reap fun b => live hc hd)
  | quiet hne _ hctx hr hc hd =>
    exact iff_of_true (freshKey_of_ne hne) (H.mono reap_ctxs (SameContexts.insert hk hctx).reap
      fun b => live hc hd)

theorem step_iff (H : SelfRegistered w os) (HI : Inv w os) (h : step app w e = some (w', o)) :
    FreshKey w os e ↔ SelfRegistered w' (os ++ o) := by
  have refl : SameContexts w w := fun _ k' h => ⟨k', h, rfl⟩
  cases e with
  | connect key =>
    cases h
    refine iff_of_true trivial (of_lookup fun b kb hb hlb => ?_)
    rw [List.append_nil] at hlb
    have hbn : b ≠ w.next := by
      rintro rfl
      rw [Live, (HI.fresh _ (Nat.le_refl _)).2] at hlb
      simp at hlb
    rw [AList.lookup_insert_ne hbn] at hb
    exact H.lookup hb hlb
  | stream a e =>
    obtain ⟨k, k', o', hk, -, rfl, hch⟩ := HI.streamChange h
    exact H.stream_iff HI hk hch
  | setState body params order =>
    obtain ⟨o', hb, ho⟩ := step_setState h
    obtain ⟨hc, hs⟩ := broadcast_induction (P := fun v => v.ctxs = w.ctxs ∧ SameContexts w v)
      (fun _ _ _ H => ⟨send_ctxs.trans H.1, H.2.send⟩) (fun _ _ H => H) hb ⟨rfl, refl⟩
    refine iff_of_true trivial (H.mono hc hs fun a ha => ?_)
    rwa [Live, own_append, ho, List.append_nil] at ha
  | timer i =>
    obtain ⟨timers, a, rfl, ho⟩ := step_timer h
    refine iff_of_true trivial (H.mono send_ctxs (SameContexts.send refl) fun a ha => ?_)
    rwa [Live, own_append, ho, List.append_nil] at ha

end SelfRegistered

/-- The runs in which every live session has its own entry in every state are exactly the runs in
which no session is accepted with the key of another live one. -/
theorem along_freshKey_iff (hr : (machine app).run es = some (w, os)) :
    (machine app).Along FreshKey es ↔ (machine app).Always SelfRegistered es :=
  along_iff_always (fun p hp => by simp [machine, UnorderedMap.toPairs] at hp)
    (fun _ _ _ _ _ _ hr H hs => H.step_iff (Inv.of_run hr) hs) hr

/-- Two clients with different keys; the first one leaves. -/
theorem along_freshKey_iff_two : (machine .simpleGame).Always SelfRegistered
    [.connect (bytes "k"), .connect (bytes "l"), .stream 0 (.accepted .success),
      .stream 1 (.accepted .success), .stream 0 (.received .closed [] true)] :=
  (along_freshKey_iff (run_eq_some (by decide))).mp (by decide)

/-- With one key, the close of the first session removes the entry of the second. -/
theorem exists_unregistered :
    ∃ es w os, (machine .simpleGame).run es = some (w, os) ∧ Live os 1 ∧
      (w.sessions.lookup 1).isSome ∧ w.ctxs = ∅ ∧
      ¬(machine .simpleGame).Always SelfRegistered es :=
  ⟨[.connect (bytes "k"), .connect (bytes "k"), .stream 0 (.accepted .success),
    .stream 1 (.accepted .success), .stream 0 (.received .closed [] true)],
    _, _, rfl, by decide, by decide, rfl, fun h => absurd (h.last rfl) (by decide)⟩

end TheGame.World
