import TheGame.Machine.History
import TheGame.Networking.Http.Connection

/-!
# `keep_alive_`

`Write` stores the `keep_alive()` of the response it starts to write, and `OnWrite` closes the
session on what it finds there. The flag is that of the response whose write has completed only if
no other response has been started since; and a request that is read before the completion is
routed although the last response has announced the end of the connection.
-/

namespace TheGame.Connection
open Mealy
open HttpSession (Upgrades Calls)

variable {H : Type*} {env : HttpEnv H} {k k' : Connection} {e : Event} {es : List Event}
  {o os : List (Output H)}

/-! ## The decision to close -/

/-- `OnWrite` closes the session exactly if the response just written had `keep_alive()` false. -/
def ClosesOwn (k : Connection) (_ : List (Output H)) : Event → Prop
  | .writeDone i .success => ∀ w ∈ k.writes[i]?,
    ((.shutdown : HttpSession.Action H) ∈ (k.session.onWrite .success).2 ↔
      w.message.keepAlive = false)
  | _ => True

/-- The response just written and the last one started have the same `keep_alive()`. -/
def LastAgrees (k : Connection) (os : List (Output H)) : Event → Prop
  | .writeDone i .success => ∀ w ∈ k.writes[i]?, ∀ last ∈ (responses os).getLast?,
    last.keepAlive = w.message.keepAlive
  | _ => True

instance : ∀ k (os : List (Output H)) e, Decidable (LastAgrees k os e)
  | k, os, .writeDone i .success =>
    inferInstanceAs (Decidable (∀ w ∈ k.writes[i]?, ∀ last ∈ (responses os).getLast?,
      last.keepAlive = w.message.keepAlive))
  | _, _, .readDone .. | _, _, .transmit .. | _, _, .writeDone _ .endOfStream
  | _, _, .writeDone _ .closed | _, _, .writeDone _ (.other _) => inferInstanceAs (Decidable True)

theorem shutdown_mem_onWrite {s : HttpSession} :
    (.shutdown : HttpSession.Action H) ∈ (s.onWrite .success).2 ↔ s.keepAlive = false := by
  cases h : s.keepAlive <;> simp [HttpSession.onWrite, HttpSession.close, h]

theorem lastAgrees_iff (HI : Inv k os) : LastAgrees k os e ↔ ClosesOwn k os e := by
  cases e with
  | readDone ec request => exact Iff.rfl
  | transmit i n => exact Iff.rfl
  | writeDone i ec =>
    cases ec with
    | success =>
      refine forall₂_congr fun w hw => ?_
      have hne := List.ne_nil_of_mem (HI.pending w (List.mem_of_getElem? hw))
      obtain ⟨last, hlast⟩ : ∃ last, (responses os).getLast? = some last :=
        ⟨_, List.getLast?_eq_some_getLast hne⟩
      rw [shutdown_mem_onWrite, hlast, HI.keepAlive last hlast]
      cases hka : last.keepAlive <;> cases w.message.keepAlive <;> simp [hka]
    | _ => exact Iff.rfl

/-- For every run, each successful completion closes the session exactly on the `keep_alive()` of
its own response if and only if this is always that of the response started last. -/
theorem along_lastAgrees_iff (hr : (machine env).run es = some (k, os)) :
    (machine env).Along LastAgrees es ↔ (machine env).Along ClosesOwn es :=
  along_congr (fun _ _ _ _ _ _ hr _ => lastAgrees_iff (Inv.of_run hr)) hr

/-- The second of two responses, which are written one after the other, closes the session. -/
theorem along_lastAgrees_iff_two : (machine localEnv).Along ClosesOwn
    [.readDone .success (get (bytes "/") true), .transmit 0 3, .writeDone 0 .success,
      .readDone .success (get (bytes "/") false), .transmit 0 3, .writeDone 0 .success] :=
  (along_lastAgrees_iff (run_eq_some (by decide +kernel))).mp (by decide +kernel)

/-- The completion of the first of two pipelined responses closes the session, although only the
second one has `keep_alive()` false. -/
theorem exists_close_early : ∃ es k os, (machine localEnv).run es = some (k, os) ∧
    k.writes[0]?.map (·.message.keepAlive) = some true ∧
    k.writes[0]?.map (·.remaining) = some [] ∧
    (.shutdown : HttpSession.Action Unit) ∈ (k.session.onWrite .success).2 :=
  ⟨[.readDone .success (get (bytes "/") true), .readDone .success (get (bytes "/") false),
    .transmit 0 3], exists_run _ (by decide +kernel)⟩

/-! ## Requests after the last response -/

/-- The output is the call of a callback, or the upgrade to a WebSocket. -/
def isDispatch : Output H → Bool
  | .invoke .. | .webSocket .. => true
  | _ => false

/-- No callback is called and nothing is upgraded after a response with `keep_alive()` false. -/
def CloseIsFinal (os : List (Output H)) : Prop :=
  Causal (fun pre a => isDispatch a → ∀ r ∈ responses pre, r.keepAlive) os

instance (os : List (Output H)) : Decidable (CloseIsFinal os) :=
  inferInstanceAs (Decidable (Causal _ _))

/-- After a response with `keep_alive()` false, no request is read that has a route. -/
def NoRouteAfterClose (env : HttpEnv H) (_ : Connection) (os : List (Output H)) : Event → Prop
  | .readDone .success request =>
    Upgrades env request ∨ Calls env request → ∀ r ∈ responses os, r.keepAlive
  | _ => True

instance : ∀ k os e, Decidable (NoRouteAfterClose env k os e)
  | _, os, .readDone .success request =>
    inferInstanceAs (Decidable (Upgrades env request ∨ Calls env request →
      ∀ r ∈ responses os, r.keepAlive))
  | _, _, .readDone .endOfStream _ | _, _, .readDone .closed _ | _, _, .readDone (.other _) _
  | _, _, .transmit .. | _, _, .writeDone .. => inferInstanceAs (Decidable True)

theorem noRouteAfterClose_of_ne {ec : ErrorCode} {request : Request} (h : ec ≠ .success) :
    NoRouteAfterClose env k os (.readDone ec request) := by
  cases ec <;> first | exact absurd rfl h | trivial

namespace CloseIsFinal

/-- Outputs that dispatch no request. -/
theorem append_iff (h : ∀ a ∈ o, isDispatch a = false) : CloseIsFinal (os ++ o) ↔ CloseIsFinal os :=
  causal_append fun pre a ha hd => by
    rw [h a ha] at hd
    cases hd

theorem dispatch_iff {a : Output H} (ha : isDispatch a) (ho : ∀ b ∈ o, isDispatch b = false) :
    CloseIsFinal (os ++ a :: o) ↔ CloseIsFinal os ∧ ∀ r ∈ responses os, r.keepAlive := by
  rw [show os ++ a :: o = os ++ [a] ++ o by simp, append_iff ho, CloseIsFinal, causal_concat]
  exact and_congr_right fun _ => ⟨fun h => h ha, fun h _ => h⟩

theorem step_iff (H : CloseIsFinal os) (h : k.step env e = some (k', o)) :
    NoRouteAfterClose env k os e ↔ CloseIsFinal (os ++ o) := by
  have quiet (ho : ∀ a ∈ o, isDispatch a = false) : CloseIsFinal (os ++ o) := (append_iff ho).mpr H
  cases change_of_step h with
  | endOfStream hpos => exact iff_of_true trivial (quiet (by simp [isDispatch]))
  | readFailed hpos hne hne' =>
    exact iff_of_true (noRouteAfterClose_of_ne hne) (quiet (by simp [isDispatch]))
  | webSocket hpos hup =>
    rw [dispatch_iff rfl (by simp), NoRouteAfterClose]
    simp [H, hup]
  | respond hpos hup hcalls =>
    cases hcalls with
    | nothing hcall hr =>
      refine iff_of_true ?_ (quiet (by simp [isDispatch]))
      simp [NoRouteAfterClose, hup, hcall]
    | callback hcall =>
      rw [List.singleton_append, dispatch_iff rfl (by simp [isDispatch]), NoRouteAfterClose]
      simp [H, hcall]
  | fault hpos hp hr =>
    refine iff_of_true ?_ (quiet (by simp [isDispatch]))
    rintro (h | h)
    · simp [HttpSession.parses_of_upgrades h] at hp
    · simp [HttpSession.parses_of_calls h] at hp
  | transmit hw hsh => exact iff_of_true trivial (quiet (by simp [isDispatch]))
  | written hw hrem hka => exact iff_of_true trivial (quiet (by simp))
  | closing hw hrem hka => exact iff_of_true trivial (quiet (by simp [isDispatch]))
  | writeFailed hw hec => exact iff_of_true trivial (quiet (by simp [isDispatch]))

end CloseIsFinal

/-- For every run, no callback is called and nothing is upgraded after a response with
`keep_alive()` false if and only if no request with a route is read after such a response. -/
theorem along_noRouteAfterClose_iff (hr : (machine env).run es = some (k, os)) :
    (machine env).Along (NoRouteAfterClose env) es ↔
      (machine env).Always (fun _ os => CloseIsFinal os) es :=
  along_iff_always (P := fun _ os => CloseIsFinal os) causal_nil
    (fun _ _ _ _ _ _ _ H hs => CloseIsFinal.step_iff H hs) hr

/-- The last response is the one with `keep_alive()` false. -/
theorem along_noRouteAfterClose_iff_two : (machine localEnv).Always (fun _ os => CloseIsFinal os)
    [.readDone .success (get (bytes "/") true), .readDone .success (get (bytes "/") false)] :=
  (along_noRouteAfterClose_iff (run_eq_some (by decide +kernel))).mp (by decide +kernel)

/-- A second request after one that asks for `Connection: close`: its callback is called. -/
theorem exists_call_after_close : ∃ es k os, (machine localEnv).run es = some (k, os) ∧
    (responses os).map (·.keepAlive) = [false, true] ∧ (os.filter isDispatch).length = 2 ∧
    ¬CloseIsFinal os :=
  ⟨[.readDone .success (get (bytes "/") false), .readDone .success (get (bytes "/") true)],
    exists_run _ (by decide +kernel)⟩

end TheGame.Connection
