import TheGame.Data.Total
import TheGame.Machine.Quiescence
import TheGame.Networking.Http.Connection

/-!
# A connection that sends no more requests

An `HttpSession` is held by the handlers of its outstanding operations and by nothing else. Once its
peer sends no more requests, these complete, and the session is destroyed: every completion and
every byte that is sent lowers what is still to be done.
-/

namespace TheGame.Connection
open Mealy

variable {H : Type*} {env : HttpEnv H} {k k' : Connection} {e : Event} {o : List (Output H)}

/-- The event brings in a request. -/
def Event.isInput : Event → Bool
  | .readDone .success _ => true
  | _ => false

/-- What a connection has still to do. -/
def work (k : Connection) : Nat := k.reads + k.writes.total fun w => w.remaining.length + 1

theorem work_step (h : k.step env e = some (k', o)) (he : e.isInput = false) :
    k'.work < k.work := by
  cases e with
  | readDone ec request =>
    cases change_of_step h with
    | endOfStream hpos | readFailed hpos =>
      simp only [work]
      omega
    | webSocket | respond | fault => cases he
  | transmit i n =>
    simp only [step] at h
    split at h
    · cases h
    rename_i w hw
    split at h
    · cases h
    rename_i hc
    cases h
    simp only [Bool.or_eq_true, decide_eq_true_eq, not_or] at hc
    have ht := List.total_set (f := fun w : PendingWrite => w.remaining.length + 1)
      (b := { w with remaining := w.remaining.drop n }) hw
    simp only [work, List.length_drop] at ht ⊢
    omega
  | writeDone i ec =>
    have written {w : PendingWrite} (hw : k.writes[i]? = some w) :
        (k.writes.eraseIdx i).total (fun w => w.remaining.length + 1) + (w.remaining.length + 1) =
          k.writes.total fun w => w.remaining.length + 1 := List.total_eraseIdx hw
    cases change_of_step h with
    | written hw | closing hw | writeFailed hw =>
      have := written hw
      simp only [work]
      omega

/-- Nothing goes on any more exactly if no operation is outstanding. -/
theorem atRest_iff : (machine env).AtRest (fun e => e.isInput = false) k ↔
    k.reads = 0 ∧ k.writes = [] := by
  constructor
  · intro hrest
    have hread : k.step env (.readDone .closed (get [] false)) = none :=
      hrest (.readDone .closed (get [] false)) rfl
    have hwrite : k.step env (.writeDone 0 .closed) = none := hrest (.writeDone 0 .closed) rfl
    refine ⟨?_, ?_⟩
    · by_contra hpos
      simp [step, hpos, HttpSession.onRead, ErrorCode.failed] at hread
    · cases hw : k.writes with
      | nil => rfl
      | cons w ws => simp [step, hw] at hwrite
  · rintro ⟨hreads, hwrites⟩ e he
    change k.step env e = none
    cases e with
    | readDone => simp [step, hreads]
    | transmit | writeDone => simp [step, hwrites]

end TheGame.Connection
