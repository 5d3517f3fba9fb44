import TheGame.Machine.Basic

/-!
# Simulation, the first-in-first-out channel and the stack

`Simulation C M N` maps every step of `M` taken under the condition `C` to a run of `N` with the
corresponding outputs, so every run along `C` of the concrete machine is a run of the abstract
one (`Simulation.run`). `fifo α` is the abstract message channel that concrete senders are
compared with: what it has delivered, followed by what it still holds, is what was put in.
`lifo α` is the abstract stack. A map of the states that every step commutes with makes the runs of
the two machines the same (`runFrom_semiconj`).
-/

namespace Mealy

variable {σ ε ο τ δ π : Type*}

/-- A forward simulation of `M` by `N`, for the steps of `M` taken under `C`. -/
structure Simulation (C : σ → List ο → ε → Prop) (M : Mealy σ ε ο) (N : Mealy τ δ π) where
  abs : σ → τ
  event : ε → List δ
  output : ο → List π
  init : abs M.init = N.init
  step : ∀ {es s os e t o}, M.run es = some (s, os) → C s os e → M.step s e = some (t, o) →
    N.runFrom (abs s) (event e) = some (abs t, o.flatMap output)

theorem Simulation.run {C : σ → List ο → ε → Prop} {M : Mealy σ ε ο} {N : Mealy τ δ π}
    (S : Simulation C M N) {es : List ε} {s : σ} {os : List ο} (hr : M.run es = some (s, os))
    (hC : M.Along C es) : N.run (es.flatMap S.event) = some (S.abs s, os.flatMap S.output) := by
  revert hC
  refine run_induction (P := fun es s os => M.Along C es →
    N.run (es.flatMap S.event) = some (S.abs s, os.flatMap S.output)) ?_ ?_ hr
  · intro _
    simp [S.init, run_nil]
  intro es s os e t o hr ih hs hC
  obtain ⟨hC, hc⟩ := (along_snoc hr).mp hC
  rw [List.flatMap_append, List.flatMap_append, Mealy.run, runFrom_append]
  exact ⟨S.abs s, _, _, ih hC, by simpa using S.step hr hc hs, rfl⟩

theorem runFrom_semiconj {M : Mealy σ ε ο} {N : Mealy τ ε ο} {f : σ → τ}
    (h : ∀ s e, N.step (f s) e = (M.step s e).map fun r => (f r.1, r.2)) {s : σ} {es : List ε} :
    N.runFrom (f s) es = (M.runFrom s es).map fun r => (f r.1, r.2) := by
  induction es generalizing s with
  | nil => rfl
  | cons e es ih =>
    rw [runFrom, runFrom, h]
    rcases M.step s e with _ | ⟨t, o⟩
    · rfl
    · simp only [Option.map_some, ih, Option.map_map]
      rfl

/-! ## The channel -/

/-- What can happen to a channel: a message is put in, or the oldest one comes out. -/
inductive Fifo (α : Type*)
  | put (a : α)
  | get

/-- The first-in-first-out channel. -/
def fifo (α : Type*) : Mealy (List α) (Fifo α) α where
  init := []
  step
    | q, .put a => some (q ++ [a], [])
    | [], .get => none
    | a :: q, .get => some (q, [a])

/-- The messages put in by a list of events. -/
def Fifo.puts {α : Type*} (es : List (Fifo α)) : List α :=
  es.filterMap fun
    | .put a => some a
    | .get => none

@[simp] theorem Fifo.puts_append {α : Type*} (es fs : List (Fifo α)) :
    puts (es ++ fs) = puts es ++ puts fs := List.filterMap_append

/-- What came out of a channel, followed by what it holds, is what was put in. -/
theorem fifo_run {α : Type*} {es : List (Fifo α)} {q os : List α}
    (h : (fifo α).run es = some (q, os)) : os ++ q = Fifo.puts es := by
  refine run_induction (P := fun es q os => os ++ q = Fifo.puts es) rfl ?_ h
  intro es q os e t o _ ih hs
  rw [Fifo.puts_append, ← ih]
  cases e with
  | put a =>
    cases hs
    simp [Fifo.puts]
  | get =>
    cases q with
    | nil => cases hs
    | cons a q =>
      cases hs
      simp [Fifo.puts]

/-! ## The stack -/

/-- What can happen to a stack. -/
inductive Lifo (α : Type*)
  | push (a : α)
  | pop

/-- The last-in-first-out stack. -/
def lifo (α : Type*) : Mealy (List α) (Lifo α) α where
  init := []
  step
    | s, .push a => some (a :: s, [])
    | [], .pop => none
    | a :: s, .pop => some (s, [a])

end Mealy
