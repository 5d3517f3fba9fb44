import Mathlib.Data.List.Induction

/-!
# Reactive machines and their runs

A machine takes one event at a time and answers with a list of outputs. The event carries every
choice of the environment (which pending operation completes, with which result), so a step is a
function, and an event which the current state does not allow has no step. A run is a finite
list of events; quantifying over all lists of events is quantifying over all interleavings.

Two notions about a run are used throughout. `Along C es` says that every step of `es` was taken
where `C` held of the state, the outputs so far and the event. `Always P es` says that `P` holds
in every state the run visits. `along_iff_always` is the rule that turns a one-step equivalence
between the two into the equivalence over whole runs.
-/

/-- A machine with states `σ`, events `ε` and outputs `ο`. -/
structure Mealy (σ ε ο : Type*) where
  init : σ
  step : σ → ε → Option (σ × List ο)

namespace Mealy

variable {σ ε ο : Type*} (M : Mealy σ ε ο)

/-- The state and the outputs after the events `es`, starting in a given state. -/
def runFrom : σ → List ε → Option (σ × List ο)
  | s, [] => some (s, [])
  | s, e :: es =>
    match M.step s e with
    | none => none
    | some (t, o) => (runFrom t es).map fun r => (r.1, o ++ r.2)

/-- The state and the outputs after the events `es`, starting in the initial state. -/
def run (es : List ε) : Option (σ × List ο) := M.runFrom M.init es

/-- Every step of the events `es` is taken where `C` holds, starting in a given state with given
earlier outputs. -/
def AlongFrom (C : σ → List ο → ε → Prop) : σ → List ο → List ε → Prop
  | _, _, [] => True
  | s, os, e :: es =>
    C s os e ∧ match M.step s e with
      | none => True
      | some (t, o) => AlongFrom C t (os ++ o) es

/-- Every step of the run `es` is taken where `C` holds. -/
def Along (C : σ → List ο → ε → Prop) (es : List ε) : Prop := M.AlongFrom C M.init [] es

/-- `P` holds in every state the run `es` visits, the first and the last one included. -/
def Always (P : σ → List ο → Prop) (es : List ε) : Prop :=
  ∀ pre, pre <+: es → ∀ s os, M.run pre = some (s, os) → P s os

instance decidableAlongFrom (C : σ → List ο → ε → Prop) [∀ s os e, Decidable (C s os e)] :
    ∀ s os es, Decidable (M.AlongFrom C s os es)
  | _, _, [] => inferInstanceAs (Decidable True)
  | s, os, e :: es =>
    have : Decidable (match M.step s e with
        | none => True
        | some (t, o) => M.AlongFrom C t (os ++ o) es) :=
      match M.step s e with
      | none => inferInstanceAs (Decidable True)
      | some (t, o) => decidableAlongFrom C t (os ++ o) es
    inferInstanceAs (Decidable (_ ∧ _))

instance decidableAlong (C : σ → List ο → ε → Prop) [∀ s os e, Decidable (C s os e)]
    (es : List ε) : Decidable (M.Along C es) := M.decidableAlongFrom C M.init [] es

variable {M}

/-! ## Runs -/

theorem runFrom_cons {s : σ} {e : ε} {es : List ε} {u : σ} {os : List ο} :
    M.runFrom s (e :: es) = some (u, os) ↔
      ∃ t o os', M.step s e = some (t, o) ∧ M.runFrom t es = some (u, os') ∧ os = o ++ os' := by
  rw [runFrom]
  rcases M.step s e with _ | ⟨t, o⟩
  · simp
  · simp only [Option.map_eq_some_iff, Option.some.injEq, Prod.mk.injEq, Prod.exists]
    constructor
    · rintro ⟨t', os', h, rfl, rfl⟩
      exact ⟨t, o, os', ⟨rfl, rfl⟩, h, rfl⟩
    · rintro ⟨_, _, os', ⟨rfl, rfl⟩, h, rfl⟩
      exact ⟨u, os', h, rfl, rfl⟩

theorem runFrom_append {s : σ} {es fs : List ε} {u : σ} {os : List ο} :
    M.runFrom s (es ++ fs) = some (u, os) ↔
      ∃ t o o', M.runFrom s es = some (t, o) ∧ M.runFrom t fs = some (u, o') ∧ os = o ++ o' := by
  induction es generalizing s os with
  | nil => simp [runFrom]
  | cons e es ih =>
    simp only [List.cons_append, runFrom_cons]
    constructor
    · rintro ⟨t, o, os', h1, h2, rfl⟩
      obtain ⟨v, p, q, h3, h4, rfl⟩ := ih.mp h2
      exact ⟨v, o ++ p, q, ⟨t, o, p, h1, h3, rfl⟩, h4, by simp⟩
    · rintro ⟨v, _, q, ⟨t, o, p, h1, h3, rfl⟩, h4, rfl⟩
      exact ⟨t, o, p ++ q, h1, ih.mpr ⟨v, p, q, h3, h4, rfl⟩, by simp⟩

theorem runFrom_singleton {s : σ} {e : ε} : M.runFrom s [e] = M.step s e := by
  simp only [runFrom]
  rcases M.step s e with _ | ⟨t, o⟩ <;> simp

/-- Events that leave the state as it is add up to their outputs. -/
theorem runFrom_of_fixed {s : σ} {f : ε → List ο} {es : List ε}
    (h : ∀ e ∈ es, M.step s e = some (s, f e)) : M.runFrom s es = some (s, es.flatMap f) := by
  induction es with
  | nil => rfl
  | cons e es ih =>
    obtain ⟨he, hes⟩ := List.forall_mem_cons.mp h
    exact runFrom_cons.mpr ⟨s, f e, _, he, ih hes, List.flatMap_cons⟩

/-- Such an event can happen any number of times. -/
theorem runFrom_replicate {s : σ} {e : ε} {o : List ο} (h : M.step s e = some (s, o)) (n : Nat) :
    M.runFrom s (List.replicate n e) = some (s, (List.replicate n o).flatten) := by
  have hfixed : ∀ e' ∈ List.replicate n e, M.step s e' = some (s, o) := by
    intro e' he'
    rw [List.eq_of_mem_replicate he', h]
  rw [runFrom_of_fixed hfixed, List.flatMap_def, List.map_replicate]

theorem run_nil : M.run [] = some (M.init, []) := rfl

theorem run_snoc {es : List ε} {e : ε} {u : σ} {os : List ο} :
    M.run (es ++ [e]) = some (u, os) ↔
      ∃ t o o', M.run es = some (t, o) ∧ M.step t e = some (u, o') ∧ os = o ++ o' := by
  simp only [run, runFrom_append, runFrom_singleton]

/-- What evaluating a run shows. -/
theorem exists_run (es : List ε) {P : σ → List ο → Prop} [∀ s os, Decidable (P s os)]
    (h : (M.run es).any fun r => P r.1 r.2) : ∃ s os, M.run es = some (s, os) ∧ P s os := by
  cases hr : M.run es with
  | none => simp [hr] at h
  | some r =>
    rw [hr] at h
    exact ⟨r.1, r.2, rfl, of_decide_eq_true h⟩

theorem run_eq_some {es : List ε} (h : (M.run es).isSome) :
    M.run es = some (((M.run es).get h).1, ((M.run es).get h).2) := (Option.some_get h).symm

/-- Induction on a run by its last step. -/
theorem run_induction {P : List ε → σ → List ο → Prop} (nil : P [] M.init [])
    (snoc : ∀ es s os e t o, M.run es = some (s, os) → P es s os → M.step s e = some (t, o) →
      P (es ++ [e]) t (os ++ o))
    {es : List ε} {s : σ} {os : List ο} (h : M.run es = some (s, os)) : P es s os := by
  induction es using List.reverseRecOn generalizing s os with
  | nil =>
    rw [run_nil] at h
    cases h
    exact nil
  | append_singleton es e ih =>
    obtain ⟨t, o, o', h1, h2, rfl⟩ := run_snoc.mp h
    exact snoc _ _ _ _ _ _ h1 (ih h1) h2

/-! ## Conditions on the steps of a run -/

section
variable {C D : σ → List ο → ε → Prop}

theorem along_nil : M.Along C [] := trivial

theorem alongFrom_cons {e : ε} {es : List ε} {s t : σ} {os o : List ο}
    (h : M.step s e = some (t, o)) :
    M.AlongFrom C s os (e :: es) ↔ C s os e ∧ M.AlongFrom C t (os ++ o) es := by
  rw [AlongFrom, h]

theorem alongFrom_append {es fs : List ε} {s t : σ} {os o : List ο}
    (h : M.runFrom s es = some (t, o)) :
    M.AlongFrom C s os (es ++ fs) ↔
      M.AlongFrom C s os es ∧ M.AlongFrom C t (os ++ o) fs := by
  induction es generalizing s os o with
  | nil =>
    cases h
    simp [AlongFrom]
  | cons e es ih =>
    obtain ⟨v, p, q, h1, h2, rfl⟩ := runFrom_cons.mp h
    simp only [List.cons_append, AlongFrom, h1, ih h2, List.append_assoc, and_assoc]

theorem along_snoc {es : List ε} {e : ε} {s : σ} {os : List ο} (h : M.run es = some (s, os)) :
    M.Along C (es ++ [e]) ↔ M.Along C es ∧ C s os e := by
  rw [Along, alongFrom_append h]
  refine and_congr_right fun _ => ?_
  simp only [AlongFrom, List.nil_append]
  rcases M.step s e with _ | ⟨t, o⟩ <;> simp

theorem AlongFrom.mono (hCD : ∀ s os e, C s os e → D s os e) {s : σ} {os : List ο} {es : List ε}
    (h : M.AlongFrom C s os es) : M.AlongFrom D s os es := by
  induction es generalizing s os with
  | nil => trivial
  | cons e es ih =>
    obtain ⟨hc, h⟩ := h
    refine ⟨hCD _ _ _ hc, ?_⟩
    revert h
    rcases M.step s e with _ | ⟨t, o⟩
    · exact id
    · exact ih

/-- A condition on the events alone may be joined to a condition met along a run. -/
theorem Along.and_events {E : ε → Prop} {es : List ε} {s : σ} {os : List ο}
    (hr : M.run es = some (s, os)) (hE : ∀ e ∈ es, E e) (h : M.Along C es) :
    M.Along (fun s os e => C s os e ∧ E e) es := by
  revert hE h
  refine run_induction (P := fun es _ _ => (∀ e ∈ es, E e) → M.Along C es →
    M.Along (fun s os e => C s os e ∧ E e) es) (fun _ _ => along_nil) ?_ hr
  intro es s os e t o hr ih _ hE h
  obtain ⟨h, hc⟩ := (along_snoc hr).mp h
  refine (along_snoc hr).mpr ⟨ih (fun e he => hE e (List.mem_append_left _ he)) h, hc, ?_⟩
  exact hE e (List.mem_append_right _ (List.mem_singleton_self e))

/-- The invariant rule: what the first state has, and what every step taken under `C` keeps, the
last state of a run along `C` has. -/
theorem Along.invariant {P : σ → List ο → Prop} (init : P M.init [])
    (step : ∀ es s os e t o, M.run es = some (s, os) → P s os → C s os e →
      M.step s e = some (t, o) → P t (os ++ o))
    {es : List ε} {s : σ} {os : List ο} (hr : M.run es = some (s, os)) (h : M.Along C es) :
    P s os := by
  revert h
  refine run_induction (P := fun es s os => M.Along C es → P s os) (fun _ => init) ?_ hr
  intro es s os e t o hr ih hs h
  obtain ⟨h, hc⟩ := (along_snoc hr).mp h
  exact step es s os e t o hr (ih h) hc hs

/-- Two conditions that agree on every step out of a reachable state are met along the same
runs. -/
theorem along_congr
    (hCD : ∀ es s os e t o, M.run es = some (s, os) → M.step s e = some (t, o) →
      (C s os e ↔ D s os e))
    {es : List ε} {s : σ} {os : List ο} (hr : M.run es = some (s, os)) :
    M.Along C es ↔ M.Along D es := by
  refine run_induction (P := fun es _ _ => M.Along C es ↔ M.Along D es) Iff.rfl ?_ hr
  intro es s os e t o hr ih hs
  rw [along_snoc hr, along_snoc hr, ih, hCD _ _ _ _ _ _ hr hs]

end

/-! ## Properties of every visited state -/

section
variable {C : σ → List ο → ε → Prop} {P : σ → List ο → Prop}

theorem always_nil : M.Always P [] ↔ P M.init [] := by
  constructor
  · intro h
    exact h [] (List.prefix_refl _) _ _ run_nil
  · intro h pre hp s os hs
    rw [List.prefix_nil.mp hp, run_nil] at hs
    cases hs
    exact h

theorem always_snoc {es : List ε} {e : ε} {t : σ} {os : List ο}
    (h : M.run (es ++ [e]) = some (t, os)) : M.Always P (es ++ [e]) ↔ M.Always P es ∧ P t os := by
  constructor
  · intro ha
    exact ⟨fun pre hp => ha pre (hp.trans (List.prefix_append _ _)),
      ha _ (List.prefix_refl _) _ _ h⟩
  · rintro ⟨ha, hP⟩ pre hp s os' hs
    rcases List.prefix_concat_iff.mp hp with rfl | hp
    · rw [h] at hs
      cases hs
      exact hP
    · exact ha pre hp _ _ hs

theorem Always.last {es : List ε} {s : σ} {os : List ο} (h : M.Always P es)
    (hr : M.run es = some (s, os)) : P s os := h es (List.prefix_refl _) _ _ hr

/-- If the first state has `P`, and a step out of a reachable state with `P` leads to a state with
`P` exactly when `C` holds of it, then the runs along `C` are exactly the runs that stay in `P`. -/
theorem along_iff_always (init : P M.init [])
    (step : ∀ es s os e t o, M.run es = some (s, os) → P s os → M.step s e = some (t, o) →
      (C s os e ↔ P t (os ++ o)))
    {es : List ε} {s : σ} {os : List ο} (hr : M.run es = some (s, os)) :
    M.Along C es ↔ M.Always P es := by
  refine run_induction (P := fun es _ _ => M.Along C es ↔ M.Always P es) ?_ ?_ hr
  · exact ⟨fun _ => always_nil.mpr init, fun _ => along_nil⟩
  intro es s os e t o hr ih hs
  rw [along_snoc hr, always_snoc (run_snoc.mpr ⟨s, os, o, hr, hs, rfl⟩), ih]
  refine and_congr_right fun ha => ?_
  exact step es s os e t o hr (ha.last hr) hs

/-- The invariant rule for every visited state. -/
theorem Along.always (init : P M.init [])
    (step : ∀ es s os e t o, M.run es = some (s, os) → P s os → C s os e →
      M.step s e = some (t, o) → P t (os ++ o))
    {es : List ε} {s : σ} {os : List ο} (hr : M.run es = some (s, os)) (h : M.Along C es) :
    M.Always P es := by
  intro pre hp t os' ht
  obtain ⟨suf, rfl⟩ := hp
  exact Along.invariant init step ht ((alongFrom_append ht).mp h).1

/-- A condition that follows of a step from what the states before and after it have is met along
the runs that stay in `P`. -/
theorem Always.along
    (step : ∀ es s os e t o, M.run es = some (s, os) → P s os → M.step s e = some (t, o) →
      P t (os ++ o) → C s os e)
    {es : List ε} {s : σ} {os : List ο} (hr : M.run es = some (s, os)) (h : M.Always P es) :
    M.Along C es := by
  revert h
  refine run_induction (P := fun es _ _ => M.Always P es → M.Along C es) (fun _ => along_nil) ?_ hr
  intro es s os e t o hr ih hs h
  obtain ⟨h, ht⟩ := (always_snoc (run_snoc.mpr ⟨s, os, o, hr, hs, rfl⟩)).mp h
  exact (along_snoc hr).mpr ⟨ih h, step es s os e t o hr (h.last hr) hs ht⟩

end

/-! ## Events by another name -/

section
variable {ε' : Type*} {f : ε' → ε} {s u : σ} {os : List ο} {es : List ε'}

/-- The machine that takes each event for the event it stands for. -/
def comap (M : Mealy σ ε ο) (f : ε' → ε) : Mealy σ ε' ο where
  init := M.init
  step s e := M.step s (f e)

theorem comap_step {e : ε'} : (M.comap f).step s e = M.step s (f e) := rfl

theorem runFrom_comap : (M.comap f).runFrom s es = M.runFrom s (es.map f) := by
  induction es generalizing s with
  | nil => rfl
  | cons e es ih =>
    rw [List.map_cons, runFrom, runFrom, comap_step]
    rcases M.step s (f e) with _ | ⟨t, o⟩
    · rfl
    · simp only [ih]

theorem alongFrom_map {C : σ → List ο → ε → Prop} :
    M.AlongFrom C s os (es.map f) ↔ (M.comap f).AlongFrom (fun s os e => C s os (f e)) s os es := by
  induction es generalizing s os with
  | nil => rfl
  | cons e es ih =>
    rw [List.map_cons, AlongFrom, AlongFrom, comap_step]
    refine and_congr_right fun _ => ?_
    rcases M.step s (f e) with _ | ⟨t, o⟩
    · rfl
    · exact ih

end

end Mealy
