import TheGame.Networking.Http.Connection

/-!
# `response_` is engaged

`OnRead` emplaces `response_` only for a request whose URI parses, and needs it for every request
that is not upgraded. Once emplaced it stays engaged, so the first request of a connection decides
whether an empty `response_` is ever dereferenced.
-/

namespace TheGame.Connection
open Mealy
open HttpSession (Upgrades Calls Parses)

variable {H : Type*} {env : HttpEnv H} {k k' : Connection} {e : Event} {es : List Event}
  {o os : List (Output H)} {request : Request}

/-- The requests read. -/
def requests (es : List Event) : List Request :=
  es.filterMap fun
    | .readDone .success request => some request
    | _ => none

@[simp] theorem requests_append (es fs : List Event) :
    requests (es ++ fs) = requests es ++ requests fs := List.filterMap_append

@[simp] theorem requests_readDone : requests [.readDone .success request] = [request] := rfl

theorem requests_of_ne {ec : ErrorCode} (h : ec ≠ .success) :
    requests [.readDone ec request] = [] := by
  cases ec <;> first | exact absurd rfl h | rfl

/-- As many responses have been passed to a write as requests have been read that are not
upgraded. -/
def Answered (env : HttpEnv H) (es : List Event) (os : List (Output H)) : Prop :=
  (responses os).length = ((requests es).filter (!Upgrades env ·)).length

/-- Before the first request `response_` is empty. If the first request parses it is engaged from
then on, else that request is the last one. -/
inductive Engaged (env : HttpEnv H) (es : List Event) (k : Connection) (os : List (Output H)) : Prop
  | fresh : requests es = [] → responses os = [] → .fault ∉ os → k.session.response = none →
    Engaged env es k os
  | engaged {first : Request} : (requests es).head? = some first → Parses env first → .fault ∉ os →
    k.session.response.isSome → Answered env es os → Engaged env es k os
  | faulted {first : Request} : (requests es).head? = some first → Parses env first = false →
    .fault ∈ os → k.reads = 0 → Engaged env es k os

theorem Calling.fault_notMem {s : HttpSession} {calls : List (Output H)}
    (h : Calling env s request calls) : .fault ∉ calls := by
  cases h <;> simp

theorem Calling.parses_or {s : HttpSession} {calls : List (Output H)}
    (h : Calling env s request calls) : Parses env request ∨ s.response.isSome := by
  cases h with
  | nothing _ h => exact h
  | callback h => exact .inl (HttpSession.parses_of_calls h)

theorem Answered.respond (H : Answered env es os) (hup : Upgrades env request = false)
    (ho : responses o = []) (message : Response) :
    Answered env (es ++ [.readDone .success request]) (os ++ (o ++ [.write message])) := by
  simp only [Answered] at H ⊢
  simp [H, hup, ho]

theorem Answered.upgrade (H : Answered env es os) (hup : Upgrades env request)
    (ho : responses o = []) : Answered env (es ++ [.readDone .success request]) (os ++ o) := by
  simp only [Answered] at H ⊢
  simp [H, hup, ho]

namespace Engaged

/-- An event that is not the read of a request. -/
theorem quiet (H : Engaged env es k os) (he : requests [e] = []) (ho : responses o = [])
    (hf : .fault ∉ o) (hs : k'.session = k.session) (hr : k'.reads ≤ k.reads) :
    Engaged env (es ++ [e]) k' (os ++ o) := by
  have hreq : requests (es ++ [e]) = requests es := by rw [requests_append, he, List.append_nil]
  have hresp : responses (os ++ o) = responses os := by
    rw [responses_append, ho, List.append_nil]
  have hfault : .fault ∈ os ++ o ↔ .fault ∈ os := by simp [hf]
  cases H with
  | fresh h1 h2 h3 h4 =>
    exact .fresh (by rw [hreq, h1]) (hresp.trans h2) (mt hfault.mp h3) (by rw [hs, h4])
  | engaged h1 h2 h3 h4 h5 =>
    refine .engaged (by rw [hreq, h1]) h2 (mt hfault.mp h3) (by rw [hs, h4]) ?_
    rw [Answered, hreq, hresp]
    exact h5
  | faulted h1 h2 h3 h4 =>
    exact .faulted (by rw [hreq, h1]) h2 (hfault.mpr h3) (by omega)

/-- A request is read and handled. -/
theorem read (H : Engaged env es k os) (hpos : 0 < k.reads)
    (hp : Parses env request ∨ k.session.response.isSome) (hf : .fault ∉ o)
    (hs : k'.session.response.isSome)
    (hans : Answered env es os → Answered env (es ++ [.readDone .success request]) (os ++ o)) :
    Engaged env (es ++ [.readDone .success request]) k' (os ++ o) := by
  cases H with
  | fresh h1 h2 h3 h4 =>
    have hp := hp.resolve_right (by simp [h4])
    exact .engaged (by simp [h1]) hp (by simp [h3, hf]) hs
      (hans (by simp [Answered, h1, h2]))
  | engaged h1 h2 h3 h4 h5 =>
    exact .engaged (by simp [h1]) h2 (by simp [h3, hf]) hs (hans h5)
  | faulted h1 h2 h3 h4 => omega

theorem step (H : Engaged env es k os) (HI : Inv k os) (h : k.step env e = some (k', o)) :
    Engaged env (es ++ [e]) k' (os ++ o) := by
  cases change_of_step h with
  | endOfStream hpos => exact H.quiet rfl rfl (by simp) rfl (Nat.sub_le ..)
  | readFailed hpos hne hne' =>
    exact H.quiet (requests_of_ne hne) rfl (by simp) rfl (Nat.sub_le ..)
  | webSocket hpos hup =>
    exact H.read hpos (.inl (HttpSession.parses_of_upgrades hup)) (by simp) rfl
      fun ha => ha.upgrade hup rfl
  | respond hpos hup hcalls =>
    exact H.read hpos hcalls.parses_or (by simp [hcalls.fault_notMem]) rfl
      fun ha => ha.respond hup hcalls.responses_eq _
  | fault hpos hp hr =>
    cases H with
    | fresh h1 h2 h3 h4 =>
      have hreads := HI.reads
      exact .faulted (by simp [h1]) hp (by simp) (by dsimp only; omega)
    | engaged h1 h2 h3 h4 h5 =>
      rw [hr] at h4
      cases h4
    | faulted h1 h2 h3 h4 => omega
  | transmit hw hsh => exact H.quiet rfl rfl (by simp) rfl (Nat.le_refl _)
  | written hw hrem hka => exact H.quiet rfl rfl (by simp) rfl (Nat.le_refl _)
  | closing hw hrem hka => exact H.quiet rfl rfl (by simp) rfl (Nat.le_refl _)
  | writeFailed hw hec => exact H.quiet rfl rfl (by simp) rfl (Nat.le_refl _)

theorem of_run (hr : (machine env).run es = some (k, os)) : Engaged env es k os :=
  run_induction (P := fun es k os => Engaged env es k os) (.fresh rfl rfl (by simp) rfl)
    (fun _ _ _ _ _ _ hr H hs => H.step (Inv.of_run hr) hs) hr

theorem fault_mem_iff (H : Engaged env es k os) :
    .fault ∈ os ↔ ∃ first ∈ (requests es).head?, Parses env first = false := by
  cases H with
  | fresh h1 h2 h3 h4 => simp [h1, h3]
  | engaged h1 h2 h3 h4 h5 => simp [h1, h2, h3]
  | faulted h1 h2 h3 h4 => simp [h1, h2, h3]

theorem answered (H : Engaged env es k os)
    (hp : ∀ first ∈ (requests es).head?, Parses env first) : Answered env es os := by
  cases H with
  | fresh h1 h2 => simp [Answered, h1, h2]
  | engaged h1 h2 h3 h4 h5 => exact h5
  | faulted h1 h2 =>
    have h := hp _ h1
    rw [h2] at h
    cases h

end Engaged

/-- For every run, an empty `response_` is never dereferenced and every request that is not upgraded
gets a response, if and only if the target of the first request parses. -/
theorem answered_iff (hr : (machine env).run es = some (k, os)) :
    .fault ∉ os ∧ Answered env es os ↔ ∀ first ∈ (requests es).head?, Parses env first := by
  cases Engaged.of_run hr with
  | fresh h1 h2 h3 h4 => simp [h1, h2, h3, Answered]
  | engaged h1 h2 h3 h4 h5 => simp [h1, h2, h3, h5]
  | faulted h1 h2 h3 h4 => simp [h1, h2, h3]

/-- A request that parses, and one that does not. -/
theorem answered_iff_two : ∃ k os, (machine localEnv).run
    [.readDone .success (get (bytes "/") true), .readDone .success (get (bytes "*") true)] =
      some (k, os) ∧ .fault ∉ os ∧ Answered localEnv
        [.readDone .success (get (bytes "/") true), .readDone .success (get (bytes "*") true)] os :=
  have hr := run_eq_some (by decide +kernel)
  ⟨_, _, hr, (answered_iff hr).mpr (by decide +kernel)⟩

/-- The first request of a connection has the target `*`. -/
theorem exists_fault : ∃ es k os, (machine localEnv).run es = some (k, os) ∧
    requests es = [get (bytes "*") true] ∧ .fault ∈ os ∧ responses os = [] :=
  ⟨[.readDone .success (get (bytes "*") true)], exists_run _ (by decide +kernel)⟩

end TheGame.Connection
