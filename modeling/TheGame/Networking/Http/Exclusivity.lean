import TheGame.Networking.Http.Connection

/-!
# One response at a time

`OnRead` starts a write and the next read at once, so that a further request may be read, and
answered or upgraded, before the write completes. The stream carries one response at a time, in
the order of the requests, exactly if every request is read while no write is outstanding.
-/

namespace TheGame.Connection
open Mealy

variable {H : Type*} {env : HttpEnv H} {k k' : Connection} {e : Event} {es : List Event}
  {o os : List (Output H)}

/-- Some write has failed. -/
def writeFailed (os : List (Output H)) : Bool :=
  os.any fun
    | .fail _ what => what = "on write"
    | _ => false

/-- At most one write is outstanding and none when the socket is released; unless a write has
failed, the bytes sent and those still to be sent are the responses one after another. -/
structure Exclusive (env : HttpEnv H) (k : Connection) (os : List (Output H)) : Prop where
  one : k.writes.length ≤ 1
  released : k.released → k.writes = []
  ordered : writeFailed os = false →
    wire os ++ k.writes.flatMap (·.remaining) = (responses os).flatMap env.serialize

/-- The event is not the read of a request while a write is outstanding. -/
def ReadsIdle (k : Connection) (_ : List (Output H)) : Event → Prop
  | .readDone .success _ => k.writes = []
  | _ => True

instance : ∀ k (os : List (Output H)) e, Decidable (ReadsIdle k os e)
  | k, _, .readDone .success _ => inferInstanceAs (Decidable (k.writes = []))
  | _, _, .readDone .endOfStream _ | _, _, .readDone .closed _ | _, _, .readDone (.other _) _
  | _, _, .transmit .. | _, _, .writeDone .. => inferInstanceAs (Decidable True)

@[simp] theorem writeFailed_append (o os : List (Output H)) :
    writeFailed (o ++ os) = (writeFailed o || writeFailed os) := List.any_append

theorem readsIdle_of_ne {ec : ErrorCode} {request : Request} (h : ec ≠ .success) :
    ReadsIdle k os (.readDone ec request) := by
  cases ec <;> first | exact absurd rfl h | trivial

theorem eq_singleton_of_getElem? {α : Type*} {l : List α} {i : Nat} {a : α} (hl : l.length ≤ 1)
    (h : l[i]? = some a) : l = [a] ∧ i = 0 := by
  obtain ⟨hi, rfl⟩ := List.getElem?_eq_some_iff.mp h
  obtain rfl : i = 0 := by omega
  match l, hl with
  | [a], _ => exact ⟨rfl, rfl⟩

theorem wire_calling {s : HttpSession} {request : Request} {calls : List (Output H)}
    (h : Calling env s request calls) : wire calls = [] := by
  cases h <;> rfl

namespace Exclusive

/-- The writes and the socket stay, and no response is begun. -/
theorem quiet (H : Exclusive env k os) (hw : k'.writes = k.writes)
    (hr : k'.released → k'.writes = []) (hwire : wire o = []) (ho : responses o = []) :
    Exclusive env k' (os ++ o) := by
  refine ⟨hw ▸ H.one, hr, fun hf => ?_⟩
  rw [writeFailed_append, Bool.or_eq_false_iff] at hf
  rw [wire_append, responses_append, hwire, ho, List.append_nil, List.append_nil, hw]
  exact H.ordered hf.1

/-- The outstanding write has sent its last byte. -/
theorem written (H : Exclusive env k os) {i : Nat} {w : PendingWrite}
    (hw : k.writes[i]? = some w) (hrem : w.remaining = [])
    (hwrites : k'.writes = k.writes.eraseIdx i) (hwire : wire o = []) (ho : responses o = []) :
    Exclusive env k' (os ++ o) := by
  obtain ⟨hk, rfl⟩ := eq_singleton_of_getElem? H.one hw
  have hnil : k'.writes = [] := by rw [hwrites, hk]; rfl
  refine ⟨by simp [hnil], fun _ => hnil, fun hf => ?_⟩
  rw [writeFailed_append, Bool.or_eq_false_iff] at hf
  have hord := H.ordered hf.1
  rw [hk, List.flatMap_singleton, hrem] at hord
  simpa [hnil, hwire, ho] using hord

theorem transmit (H : Exclusive env k os) {i n : Nat} {w : PendingWrite}
    (hw : k.writes[i]? = some w) :
    Exclusive env
      { k with writes := k.writes.set i { w with remaining := w.remaining.drop n } }
      (os ++ [.sent (w.remaining.take n)]) := by
  obtain ⟨hk, rfl⟩ := eq_singleton_of_getElem? H.one hw
  refine ⟨by simp [hk], fun hr => ?_, fun hf => ?_⟩
  · have hnil := H.released hr
    rw [hnil] at hk
    cases hk
  · rw [writeFailed_append, Bool.or_eq_false_iff] at hf
    have hord := H.ordered hf.1
    rw [hk, List.flatMap_singleton] at hord
    simp only [hk, wire_append, responses_append, List.set_cons_zero, List.flatMap_singleton]
    rw [show wire [.sent (w.remaining.take n)] = w.remaining.take n from List.append_nil _,
      show responses [.sent (w.remaining.take n)] = [] from rfl, List.append_nil, ← hord,
      List.append_assoc, List.take_append_drop]

/-- A response is begun. -/
theorem respond_iff (H : Exclusive env k os) {message : Response} {calls : List (Output _)}
    (hcalls : wire calls = []) (ho : responses calls = [])
    (hw : k'.writes = k.writes ++ [⟨message, env.serialize message⟩]) (hr : k'.released = false) :
    k.writes = [] ↔ Exclusive env k' (os ++ (calls ++ [.write message])) := by
  constructor
  · intro hnil
    refine ⟨by simp [hw, hnil], fun h => by simp [hr] at h, fun hf => ?_⟩
    rw [writeFailed_append, Bool.or_eq_false_iff] at hf
    have hord := H.ordered hf.1
    rw [hnil] at hord
    simp only [List.flatMap_nil, List.append_nil] at hord
    simp [hw, hnil, hcalls, ho, hord, show wire [.write message] = [] from rfl]
  · intro H'
    have hone := H'.one
    rw [hw, List.length_append] at hone
    exact List.length_eq_zero_iff.mp (by simpa using hone)

theorem step_iff (H : Exclusive env k os) (HI : Inv k os) (h : k.step env e = some (k', o)) :
    ReadsIdle k os e ↔ Exclusive env k' (os ++ o) := by
  cases change_of_step h with
  | endOfStream hpos => exact iff_of_true trivial (H.quiet rfl H.released rfl rfl)
  | readFailed hpos hne hne' =>
    exact iff_of_true (readsIdle_of_ne hne) (H.quiet rfl H.released rfl rfl)
  | webSocket hpos hup =>
    constructor
    · intro hnil
      exact H.quiet rfl (fun _ => hnil) rfl rfl
    · intro H'
      exact H'.released rfl
  | respond hpos hup hcalls =>
    exact H.respond_iff (wire_calling hcalls) hcalls.responses_eq rfl (HI.not_released hpos)
  | fault hpos hp hr =>
    -- a write is outstanding only after `response_` has been emplaced
    have hnil : k.writes = [] := by
      by_contra hne
      obtain ⟨w, hw⟩ := List.exists_mem_of_ne_nil _ hne
      have hsome := HI.engaged (List.ne_nil_of_mem (HI.pending w hw))
      rw [hr] at hsome
      cases hsome
    exact iff_of_true hnil (H.quiet rfl H.released rfl rfl)
  | transmit hw hsh => exact iff_of_true trivial (H.transmit hw)
  | written hw hrem hka => exact iff_of_true trivial (H.written hw hrem rfl rfl rfl)
  | closing hw hrem hka => exact iff_of_true trivial (H.written hw hrem rfl rfl rfl)
  | writeFailed hw hec =>
    obtain ⟨hk, rfl⟩ := eq_singleton_of_getElem? H.one hw
    have hnil : k.writes.eraseIdx 0 = [] := by rw [hk]; rfl
    refine iff_of_true trivial ⟨by simp [hnil], fun _ => hnil, fun hf => ?_⟩
    rw [writeFailed_append, Bool.or_eq_false_iff] at hf
    cases hf.2

end Exclusive

/-- For every run, the responses go out one at a time in every state if and only if every request
is read while no write is outstanding. -/
theorem along_readsIdle_iff (hr : (machine env).run es = some (k, os)) :
    (machine env).Along ReadsIdle es ↔ (machine env).Always (Exclusive env) es :=
  along_iff_always ⟨Nat.zero_le _, fun _ => rfl, fun _ => rfl⟩
    (fun _ _ _ _ _ _ hr H hs => H.step_iff (Inv.of_run hr) hs) hr

/-- A second request, read after the first response has been sent. -/
theorem along_readsIdle_iff_two : (machine localEnv).Always (Exclusive localEnv)
    [.readDone .success (get (bytes "/") true), .transmit 0 3, .writeDone 0 .success,
      .readDone .success (get (bytes "/none") true)] :=
  (along_readsIdle_iff (run_eq_some (by decide +kernel))).mp (by decide +kernel)

/-- Two pipelined requests: two writes are outstanding, and their bytes mix. -/
theorem exists_two_writes : ∃ es k os, (machine localEnv).run es = some (k, os) ∧
    k.writes.length = 2 ∧ writeFailed os = false ∧ wire os = bytes "24" :=
  ⟨[.readDone .success (get (bytes "/") true), .readDone .success (get (bytes "/none") true),
    .transmit 0 1, .transmit 1 1], exists_run _ (by decide +kernel)⟩

end TheGame.Connection
