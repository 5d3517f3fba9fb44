import TheGame.Machine.Log

/-!
# Machines that come to rest

The events of a machine which bring in nothing new lower a measure. There are only finitely many of
them in a row, and the machine comes to rest in a state in which none of them is possible. If
different ones commute, it comes to rest in one way only: in whatever order they have happened so
far, they can go on to the same state, with the same outputs for each kind of event.
-/

namespace Mealy

variable {σ ε ο : Type*} {M : Mealy σ ε ο} {R : σ → Prop} {Q : ε → Prop} {m : σ → Nat} {s t : σ}
  {es : List ε} {os : List ο}

/-- Some run leads to the state. -/
def Reachable (M : Mealy σ ε ο) (s : σ) : Prop := ∃ es os, M.run es = some (s, os)

theorem Reachable.step {e : ε} {o : List ο} (H : M.Reachable s) (h : M.step s e = some (t, o)) :
    M.Reachable t := by
  obtain ⟨es, os, hr⟩ := H
  exact ⟨es ++ [e], os ++ o, run_snoc.mpr ⟨s, os, o, hr, h, rfl⟩⟩

/-- In the states with `R`, the events with `Q` lower the measure `m`. -/
def Drains (M : Mealy σ ε ο) (R : σ → Prop) (Q : ε → Prop) (m : σ → Nat) : Prop :=
  ∀ s e t o, R s → Q e → M.step s e = some (t, o) → R t ∧ m t < m s

/-- None of the events with `Q` is possible. -/
def AtRest (M : Mealy σ ε ο) (Q : ε → Prop) (s : σ) : Prop := ∀ e, Q e → M.step s e = none

namespace Drains

/-- A run of such events is not longer than the measure allows. -/
theorem length_le (H : M.Drains R Q m) (hs : R s) (hQ : ∀ e ∈ es, Q e)
    (hr : M.runFrom s es = some (t, os)) : R t ∧ es.length + m t ≤ m s := by
  induction es generalizing s os with
  | nil =>
    cases hr
    exact ⟨hs, Nat.le_of_eq (Nat.zero_add _)⟩
  | cons e es ih =>
    obtain ⟨he, hes⟩ := List.forall_mem_cons.mp hQ
    obtain ⟨u, o, os', hstep, hrun, -⟩ := runFrom_cons.mp hr
    obtain ⟨hu, hlt⟩ := H s e u o hs he hstep
    obtain ⟨ht, hle⟩ := ih hu hes hrun
    refine ⟨ht, ?_⟩
    rw [List.length_cons]
    omega

/-- The machine comes to rest. -/
theorem exists_atRest (H : M.Drains R Q m) (hs : R s) :
    ∃ es t os, (∀ e ∈ es, Q e) ∧ M.runFrom s es = some (t, os) ∧ R t ∧ M.AtRest Q t := by
  induction hn : m s using Nat.strongRecOn generalizing s with
  | ind n ih =>
    by_cases hrest : M.AtRest Q s
    · exact ⟨[], s, [], nofun, rfl, hs, hrest⟩
    simp only [AtRest, not_forall] at hrest
    obtain ⟨e, he, hstep⟩ := hrest
    obtain ⟨⟨u, o⟩, hu⟩ := Option.ne_none_iff_exists'.mp hstep
    obtain ⟨hR, hlt⟩ := H s e u o hs he hu
    obtain ⟨es, t, os, hQ, hrun, ht, hrest⟩ := ih (m u) (hn ▸ hlt) hR rfl
    exact ⟨e :: es, t, o ++ os, List.forall_mem_cons.mpr ⟨he, hQ⟩,
      runFrom_cons.mpr ⟨u, o, os, hu, hrun, rfl⟩, ht, hrest⟩

end Drains

/-! ## Events that commute -/

/-- Different events with `Q` that are possible in the same state may be exchanged. -/
def Commutes (M : Mealy σ ε ο) (Q : ε → Prop) : Prop :=
  ∀ s e f t u o p, Q e → Q f → e ≠ f → M.step s e = some (t, o) → M.step s f = some (u, p) →
    ∃ v, M.step t f = some (v, p) ∧ M.step u e = some (v, o)

namespace Commutes

variable [DecidableEq ε] {u : σ} {f : ε} {fs : List ε} {p : List ο} {l m : List (ε × List ο)}

/-- An event that is possible happens sooner or later, and may as well happen first. -/
theorem exists_first (H : M.Commutes Q) (hQ : ∀ e ∈ es, Q e) (hf : Q f)
    (hr : M.logged.runFrom s es = some (t, l)) (ht : M.AtRest Q t) (hs : M.step s f = some (u, p)) :
    ∃ gs m, (∀ e ∈ gs, Q e) ∧ M.logged.runFrom u gs = some (t, m) ∧
      es.length = gs.length + 1 ∧
      ∀ e, l.filter (·.1 = e) = ((f, p) :: m).filter (·.1 = e) := by
  induction es generalizing s u l with
  | nil =>
    cases hr
    rw [ht f hf] at hs
    cases hs
  | cons e es ih =>
    obtain ⟨he, hes⟩ := List.forall_mem_cons.mp hQ
    obtain ⟨s₁, x, l₁, hx, hr₁, rfl⟩ := runFrom_cons.mp hr
    obtain ⟨o, ho, rfl⟩ := logged_step.mp hx
    by_cases hef : e = f
    · subst hef
      rw [ho] at hs
      cases hs
      exact ⟨es, l₁, hes, hr₁, rfl, fun _ => rfl⟩
    · obtain ⟨v, hv, hu⟩ := H s e f s₁ u o p he hf hef ho hs
      obtain ⟨gs, m, hgs, hrun, hlen, hm⟩ := ih hes hr₁ hv
      refine ⟨e :: gs, (e, o) :: m, List.forall_mem_cons.mpr ⟨he, hgs⟩,
        runFrom_cons.mpr ⟨v, _, m, logged_step.mpr ⟨o, hu, rfl⟩, hrun, rfl⟩, ?_, fun g => ?_⟩
      · rw [List.length_cons, hlen, List.length_cons]
      · -- `e` and `f` are different, so at most one of the two entries is for `g`
        rw [List.singleton_append, List.filter_cons, hm, List.filter_cons, List.filter_cons,
          List.filter_cons]
        by_cases heg : e = g
        · have hfg : f ≠ g := heg ▸ Ne.symm hef
          simp [heg, hfg]
        · simp [heg]

/-- Whatever has happened so far, the machine can come to rest in the same state, with the same
entries for each event in the log. -/
theorem exists_rest (H : M.Commutes Q) (hQ : ∀ e ∈ es, Q e)
    (hr : M.logged.runFrom s es = some (t, l)) (ht : M.AtRest Q t) (hfs : ∀ e ∈ fs, Q e)
    (hr' : M.logged.runFrom s fs = some (u, m)) :
    ∃ gs n, (∀ e ∈ gs, Q e) ∧ M.logged.runFrom u gs = some (t, n) ∧
      es.length = fs.length + gs.length ∧
      ∀ e, l.filter (·.1 = e) = (m ++ n).filter (·.1 = e) := by
  induction fs generalizing s es l m with
  | nil =>
    cases hr'
    exact ⟨es, l, hQ, hr, (Nat.zero_add _).symm, fun _ => rfl⟩
  | cons f fs ih =>
    obtain ⟨hf, hfs⟩ := List.forall_mem_cons.mp hfs
    obtain ⟨s₁, x, m₁, hx, hr₁, rfl⟩ := runFrom_cons.mp hr'
    obtain ⟨p, hp, rfl⟩ := logged_step.mp hx
    obtain ⟨es', l', hes', hrun, hlen, hl⟩ := H.exists_first hQ hf hr ht hp
    obtain ⟨gs, n, hgs, hrest, hlen', hm⟩ := ih hes' hrun hfs hr₁
    refine ⟨gs, n, hgs, hrest, ?_, fun e => ?_⟩
    · rw [hlen, hlen', List.length_cons]
      omega
    · rw [hl, List.filter_cons, hm, List.singleton_append, List.cons_append, List.filter_cons]

end Commutes

end Mealy
