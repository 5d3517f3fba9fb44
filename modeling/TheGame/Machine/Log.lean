import TheGame.Machine.Basic

/-!
# The log of a run, and the parts of a system

The log of a run has one entry for each step, the event together with the outputs it made.

A `Part` of a machine is something that is found in some of its states and behaves like a machine
of its own: every step of the whole is a run of the part, over events that can be read off the
entry of the log. Parts may be created and may vanish. What a part has gone through in a run of the
whole is then a run of its machine (`Part.run`), and a condition on the steps of the part is one on
the steps of the whole (`Part.along`).
-/

namespace Mealy

variable {σ ε ο τ δ π κ : Type*} {M : Mealy σ ε ο} {s t : σ} {e : ε} {es : List ε} {os : List ο}
  {l : List (ε × List ο)}

/-- The machine which puts out its log. -/
def logged (M : Mealy σ ε ο) : Mealy σ ε (ε × List ο) where
  init := M.init
  step s e := (M.step s e).map fun r => (r.1, [(e, r.2)])

theorem logged_step : M.logged.step s e = some (t, l) ↔
    ∃ o, M.step s e = some (t, o) ∧ l = [(e, o)] := by
  simp only [logged, Option.map_eq_some_iff, Prod.mk.injEq, Prod.exists]
  constructor
  · rintro ⟨t', o, h, rfl, rfl⟩
    exact ⟨o, h, rfl⟩
  · rintro ⟨o, h, rfl⟩
    exact ⟨t, o, h, rfl, rfl⟩

/-- Every run has a log. -/
theorem exists_log (h : M.runFrom s es = some (t, os)) :
    ∃ l, M.logged.runFrom s es = some (t, l) ∧ l.flatMap Prod.snd = os := by
  induction es generalizing s os with
  | nil =>
    cases h
    exact ⟨[], rfl, rfl⟩
  | cons e es ih =>
    obtain ⟨u, o, os', hs, hr, rfl⟩ := runFrom_cons.mp h
    obtain ⟨l, hl, rfl⟩ := ih hr
    exact ⟨(e, o) :: l, runFrom_cons.mpr ⟨u, _, l, logged_step.mpr ⟨o, hs, rfl⟩, hl, rfl⟩, rfl⟩

/-- The events and the outputs of a run are those of its log. -/
theorem runFrom_of_logged (h : M.logged.runFrom s es = some (t, l)) :
    M.runFrom s es = some (t, l.flatMap Prod.snd) ∧ l.map Prod.fst = es := by
  induction es generalizing s l with
  | nil =>
    cases h
    exact ⟨rfl, rfl⟩
  | cons e es ih =>
    obtain ⟨u, x, l', hx, hr, rfl⟩ := runFrom_cons.mp h
    obtain ⟨o, hs, rfl⟩ := logged_step.mp hx
    obtain ⟨hrun, hmap⟩ := ih hr
    exact ⟨runFrom_cons.mpr ⟨u, o, _, hs, hrun, rfl⟩, congrArg (e :: ·) hmap⟩

theorem run_of_logged (h : M.logged.run es = some (s, l)) :
    M.run es = some (s, l.flatMap Prod.snd) := (runFrom_of_logged h).1

/-- Induction on a logged run by its last step. -/
theorem logged_induction {P : List ε → σ → List (ε × List ο) → Prop} (nil : P [] M.init [])
    (snoc : ∀ es s l e t o, M.logged.run es = some (s, l) → P es s l → M.step s e = some (t, o) →
      P (es ++ [e]) t (l ++ [(e, o)]))
    (h : M.logged.run es = some (s, l)) : P es s l := by
  refine run_induction nil ?_ h
  intro es s l e t x hr ih hx
  obtain ⟨o, hs, rfl⟩ := logged_step.mp hx
  exact snoc es s l e t o hr ih hs

/-! ## Parts -/

/-- A part of `M` that is one of the machines `N c`. A part which a step creates is in its initial
state, and nothing in the log is about it. -/
structure Part (M : Mealy σ ε ο) (N : κ → Mealy τ δ π) where
  get : σ → Option (κ × τ)
  events : ε × List ο → List δ
  outputs : ε × List ο → List π
  init : ∀ {c y}, get M.init = some (c, y) → y = (N c).init
  step : ∀ {es s l e t o c y}, M.logged.run es = some (s, l) → M.step s e = some (t, o) →
    get t = some (c, y) →
    (∃ x, get s = some (c, x) ∧ (N c).runFrom x (events (e, o)) = some (y, outputs (e, o))) ∨
      y = (N c).init ∧ ∀ x ∈ l ++ [(e, o)], events x = [] ∧ outputs x = []

namespace Part

variable {N : κ → Mealy τ δ π} (P : Part M N) {c : κ} {x : τ}

theorem flatMap_eq_nil (h : ∀ x ∈ l, P.events x = [] ∧ P.outputs x = []) :
    l.flatMap P.events = [] ∧ l.flatMap P.outputs = [] :=
  ⟨List.flatMap_eq_nil_iff.mpr fun x hx => (h x hx).1,
    List.flatMap_eq_nil_iff.mpr fun x hx => (h x hx).2⟩

/-- A part has got where it is by a run of its own. -/
theorem run (hr : M.logged.run es = some (s, l)) (h : P.get s = some (c, x)) :
    (N c).run (l.flatMap P.events) = some (x, l.flatMap P.outputs) := by
  revert x
  refine logged_induction (P := fun _ s l => ∀ {x}, P.get s = some (c, x) →
    (N c).run (l.flatMap P.events) = some (x, l.flatMap P.outputs)) ?_ ?_ hr
  · intro x h
    rw [P.init h]
    rfl
  intro es s l e t o hr ih hs y hy
  obtain ⟨x, hx, hrun⟩ | ⟨rfl, hnil⟩ := P.step hr hs hy
  · rw [List.flatMap_append, List.flatMap_append, Mealy.run, runFrom_append]
    exact ⟨x, _, _, ih hx, by simpa using hrun, rfl⟩
  · obtain ⟨he, ho⟩ := P.flatMap_eq_nil hnil
    rw [he, ho]
    rfl

/-- A condition on the steps of the whole that agrees with one on the steps of the part. -/
theorem along {C : τ → List π → δ → Prop} {D : σ → List ο → ε → Prop}
    (nil : ∀ {s os e o}, P.events (e, o) = [] → D s os e)
    (step : ∀ {es s l e t o x y}, M.logged.run es = some (s, l) → M.step s e = some (t, o) →
      P.get s = some (c, x) → P.get t = some (c, y) →
      ((N c).AlongFrom C x (l.flatMap P.outputs) (P.events (e, o)) ↔ D s (l.flatMap Prod.snd) e))
    (hr : M.logged.run es = some (s, l)) (h : P.get s = some (c, x)) :
    (N c).Along C (l.flatMap P.events) ↔ M.Along D es := by
  -- where nothing in the log is about the part, both conditions are empty
  have vacuous {es : List ε} {s : σ} {l : List (ε × List ο)} (hr : M.logged.run es = some (s, l))
      (hnil : ∀ x ∈ l, P.events x = [] ∧ P.outputs x = []) : M.Along D es := by
    revert hnil
    refine logged_induction (P := fun es _ l => (∀ x ∈ l, P.events x = [] ∧ P.outputs x = []) →
      M.Along D es) (fun _ => along_nil) ?_ hr
    intro es s l e t o hr ih hs hnil
    obtain ⟨hl, hx⟩ := List.forall_mem_append.mp hnil
    exact (along_snoc (run_of_logged hr)).mpr ⟨ih hl, nil (hx _ (List.mem_singleton_self _)).1⟩
  revert x
  refine logged_induction (P := fun es s l => ∀ {x}, P.get s = some (c, x) →
    ((N c).Along C (l.flatMap P.events) ↔ M.Along D es)) ?_ ?_ hr
  · intro x h
    exact iff_of_true along_nil along_nil
  intro es s l e t o hr ih hs y hy
  obtain ⟨x, hx, hrun⟩ | ⟨rfl, hnil⟩ := P.step hr hs hy
  · rw [along_snoc (run_of_logged hr), List.flatMap_append, Along, alongFrom_append (P.run hr hx),
      ← ih hx, List.nil_append, ← step hr hs hx hy]
    simp [Along]
  · have hr' : M.logged.run (es ++ [e]) = some (t, l ++ [(e, o)]) :=
      run_snoc.mpr ⟨s, l, _, hr, logged_step.mpr ⟨o, hs, rfl⟩, rfl⟩
    rw [(P.flatMap_eq_nil hnil).1]
    exact iff_of_true along_nil (vacuous hr' hnil)

end Part

end Mealy
