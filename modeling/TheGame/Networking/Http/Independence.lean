import TheGame.Networking.Http.Outcome

/-!
# What a response owes to earlier requests

The outcome of a request whose target parses depends on nothing but the request. The 404 for any
other target is made of what the last `Write` has left of `response_`, which is its version; on a
new connection it is not made at all.
-/

namespace TheGame.Connection
open Mealy
open HttpSession (Upgrades Parses notFound uri)

variable {H : Type*} {env : HttpEnv H} {k k₁ k₂ k' k₁' k₂' : Connection} {e : Event}
  {es es₁ es₂ : List Event} {o os o₁ o₂ os₁ os₂ : List (Output H)} {request : Request}

theorem movedFrom_movedFrom (r : Response) : r.movedFrom = r.movedFrom.movedFrom := rfl

/-- While a read is outstanding, `response_` is empty or has been moved from. -/
theorem response_movedFrom (hr : (machine env).run es = some (k, os)) :
    0 < k.reads → ∀ r ∈ k.session.response, r = r.movedFrom := by
  refine run_induction (P := fun _ k _ => 0 < k.reads → ∀ r ∈ k.session.response, r = r.movedFrom)
    ?_ ?_ hr
  · rintro - r ⟨⟩
  intro es k os e k' o hr ih h hpos'
  have hreads := (Inv.of_run hr).reads
  cases change_of_step h with
  | endOfStream hpos | readFailed hpos | webSocket hpos | fault hpos =>
    have : 0 < k.reads - 1 := hpos'
    omega
  | respond hpos hup hcalls =>
    rintro r ⟨⟩
    exact movedFrom_movedFrom _
  | transmit hw hsh => exact ih hpos'
  | written hw hrem hka => exact ih hpos'
  | closing hw hrem hka => exact ih hpos'
  | writeFailed hw hec => exact ih hpos'

/-- The 404 for a target that does not parse. -/
theorem responses_of_unparsed (hu : uri env request = none)
    (h : k.step env (.readDone .success request) = some (k', o)) :
    responses o = k.session.response.toList.map (notFound · request) := by
  simp only [step, HttpSession.onRead_unparsed hu] at h
  split at h
  · cases h
  cases hr : k.session.response with
  | none =>
    rw [HttpSession.respond_none hr] at h
    cases h
    rfl
  | some r =>
    rw [HttpSession.respond_false hr] at h
    cases h
    rfl

/-- Of a response that has been moved from, the 404 shows the version. -/
theorem notFound_movedFrom {r₁ r₂ : Response} (h₁ : r₁ = r₁.movedFrom) (h₂ : r₂ = r₂.movedFrom) :
    notFound r₁ request = notFound r₂ request ↔ r₁.version = r₂.version := by
  rw [h₁, h₂]
  simp [notFound, Response.movedFrom, Response.preparePayload]

/-- Two connections that have seen different requests answer a request with the same response if
and only if its target parses, or the last responses on both were of the same version (or there
was none on either). -/
theorem responses_eq_iff (h₁ : (machine env).run es₁ = some (k₁, os₁))
    (h₂ : (machine env).run es₂ = some (k₂, os₂))
    (s₁ : k₁.step env (.readDone .success request) = some (k₁', o₁))
    (s₂ : k₂.step env (.readDone .success request) = some (k₂', o₂)) :
    responses o₁ = responses o₂ ↔ Parses env request ∨
      k₁.session.response.map (·.version) = k₂.session.response.map (·.version) := by
  have hpos {k k' : Connection} {o : List (Output H)}
      (h : k.step env (.readDone .success request) = some (k', o)) : 0 < k.reads := by
    refine Nat.pos_of_ne_zero fun h0 => ?_
    simp [step, h0] at h
  cases hu : uri env request with
  | some u =>
    refine iff_of_true ?_ (.inl (by simp [Parses, hu]))
    rw [(outcome_of_readDone hu s₁).1.unique (outcome_of_readDone hu s₂).1]
  | none =>
    have hp : Parses env request = false := by simp [Parses, hu]
    have m₁ := response_movedFrom h₁ (hpos s₁)
    have m₂ := response_movedFrom h₂ (hpos s₂)
    rw [responses_of_unparsed hu s₁, responses_of_unparsed hu s₂, hp]
    cases hr₁ : k₁.session.response <;> cases hr₂ : k₂.session.response
    · simp
    · simp
    · simp
    · simp [notFound_movedFrom (m₁ _ hr₁) (m₂ _ hr₂)]

/-- A request of HTTP/1.0. -/
def get10 (target : Bytes) (keepAlive : Bool) : Request :=
  { get target keepAlive with version := 10 }

/-- A request with a target that does not parse. -/
def star : Event := .readDone .success (get (bytes "*") true)

/-- Both histories end with a response of the same version. -/
theorem responses_eq_iff_same : ∃ k₁ os₁ k₂ os₂ k₁' o₁ k₂' o₂,
    (machine localEnv).run [.readDone .success (get (bytes "/") true)] = some (k₁, os₁) ∧
    (machine localEnv).run [.readDone .success (get10 (bytes "/") false),
      .readDone .success (get (bytes "/x") true)] = some (k₂, os₂) ∧
    k₁.step localEnv star = some (k₁', o₁) ∧ k₂.step localEnv star = some (k₂', o₂) ∧
    responses o₁ = responses o₂ := by
  obtain ⟨k₁, os₁, h₁, hv₁, hs₁⟩ := exists_run (M := machine localEnv)
    [.readDone .success (get (bytes "/") true)]
    (P := fun k _ => k.session.response.map (·.version) = some 11 ∧
      (k.step localEnv star).isSome) (by decide +kernel)
  obtain ⟨k₂, os₂, h₂, hv₂, hs₂⟩ := exists_run (M := machine localEnv)
    [.readDone .success (get10 (bytes "/") false), .readDone .success (get (bytes "/x") true)]
    (P := fun k _ => k.session.response.map (·.version) = some 11 ∧
      (k.step localEnv star).isSome) (by decide +kernel)
  obtain ⟨⟨k₁', o₁⟩, s₁⟩ := Option.isSome_iff_exists.mp hs₁
  obtain ⟨⟨k₂', o₂⟩, s₂⟩ := Option.isSome_iff_exists.mp hs₂
  exact ⟨k₁, os₁, k₂, os₂, k₁', o₁, k₂', o₂, h₁, h₂, s₁, s₂,
    (responses_eq_iff h₁ h₂ s₁ s₂).mpr (.inr (hv₁.trans hv₂.symm))⟩

/-- The same request after a request of HTTP/1.1 and after one of HTTP/1.0. -/
theorem exists_responses_ne : ∃ k₁ os₁ k₂ os₂,
    (machine localEnv).run [.readDone .success (get (bytes "/") true)] = some (k₁, os₁) ∧
    (machine localEnv).run [.readDone .success (get10 (bytes "/") true)] = some (k₂, os₂) ∧
    ((k₁.step localEnv star).map fun r => (responses r.2).map fun m => (m.version, m.keepAlive)) =
      some [(11, true)] ∧
    ((k₂.step localEnv star).map fun r => (responses r.2).map fun m => (m.version, m.keepAlive)) =
      some [(10, false)] := by
  obtain ⟨k₁, os₁, h₁, hs₁⟩ := exists_run (M := machine localEnv)
    [.readDone .success (get (bytes "/") true)]
    (P := fun k _ => ((k.step localEnv star).map fun r =>
      (responses r.2).map fun m => (m.version, m.keepAlive)) = some [(11, true)])
    (by decide +kernel)
  obtain ⟨k₂, os₂, h₂, hs₂⟩ := exists_run (M := machine localEnv)
    [.readDone .success (get10 (bytes "/") true)]
    (P := fun k _ => ((k.step localEnv star).map fun r =>
      (responses r.2).map fun m => (m.version, m.keepAlive)) = some [(10, false)])
    (by decide +kernel)
  exact ⟨k₁, os₁, k₂, os₂, h₁, h₂, hs₁, hs₂⟩

end TheGame.Connection
