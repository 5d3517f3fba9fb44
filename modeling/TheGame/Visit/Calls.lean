import Mathlib.Data.List.TakeWhile
import TheGame.Visit.Trace

/-!
# What a visit calls

A class is watched by giving it a log of the calls it gets, which changes nothing else that a visit
does (`accept_forget`). The log of a visit is the trace of its steps, up to the first call of a
member function that the class lacks (`accept_logged`).
-/

namespace TheGame

open Visitable (Call Step Mark)

variable {ι : Type} {V : ι → Type} {σ : Type}

/-- The class, with a log of the calls that its visitors get. -/
def VisitorClass.logged (cls : VisitorClass V σ) : VisitorClass V (σ × List (Call V)) where
  initial := (cls.initial, [])
  visit i name value d :=
    let r := cls.visit i name value d.1
    (r.1, r.2, d.2 ++ [.visit i name value])
  visitNested := cls.visitNested.map fun f name d => (f name d.1, d.2 ++ [.visitNested name])
  exitNested := cls.exitNested.map fun f name d => (f name d.1, d.2 ++ [.exitNested name])
  movedFrom d := (cls.movedFrom d.1, d.2)
  movedToSelf d := (cls.movedToSelf d.1, d.2)

/-- A visitor, with the address that is the value of `derived_`, without its log. -/
def Visitor.forget (v : Visitor (σ × List (Call V))) : Visitor σ := { v with data := v.data.1 }

namespace Visitable

variable {S : Type} (cls : VisitorClass V σ)

/-- The call that a step makes, with the value that the member has then. -/
def Step.call : Step V S → S → Call V
  | .visit (i := i) _ prop, inst => .visit i prop.name (prop.member.get inst)
  | .visitNested name, _ => .visitNested name
  | .exitNested name, _ => .exitNested name

/-- What a step does to the instance and to the visitor. A hook that is missing does nothing
here. -/
def Step.effect : Step V S → S × σ → S × σ
  | .visit (i := i) _ prop, (inst, data) =>
    let r := cls.visit i prop.name (prop.member.get inst) data
    (prop.member.set inst r.1, r.2)
  | .visitNested name, (inst, data) => (inst, cls.visitNested.elim data fun f => f name data)
  | .exitNested name, (inst, data) => (inst, cls.exitNested.elim data fun f => f name data)

def effects (ss : List (Step V S)) (r : S × σ) : S × σ := ss.foldl (fun r s => s.effect cls r) r

/-- The calls that the steps make, one after the other. -/
def trace : List (Step V S) → S × σ → List (Call V)
  | [], _ => []
  | s :: ss, r => s.call r.1 :: trace ss (s.effect cls r)

end Visitable

namespace VisitorBase

variable (cls : VisitorClass V σ)

/-- What a call throws, where the class lacks the member function. -/
def missing : Mark → Option Stop
  | .visit => none
  | .visitNested _ => if cls.visitNested.isSome then none else some (.thrown visitNestedMissing)
  | .exitNested _ => if cls.exitNested.isSome then none else some (.thrown exitNestedMissing)

/-- The class has the member function. -/
def has (k : Mark) : Bool := (missing cls k).isNone

end VisitorBase

namespace Visitable

open VisitorBase (missing has)

variable {S : Type} {cls : VisitorClass V σ} {ss us : List (Step V S)} {inst : S} {data : σ}
  {log : List (Call V)} {r : S × σ}

/-! ## The trace of some steps -/

theorem mark_call (s : Step V S) : (s.call inst).mark = s.mark := by
  cases s <;> rfl

theorem map_mark_trace : (trace cls ss r).map Call.mark = ss.map Step.mark := by
  induction ss generalizing r with
  | nil => rfl
  | cons s ss ih => rw [trace, List.map_cons, List.map_cons, mark_call, ih]

theorem length_trace : (trace cls ss r).length = ss.length := by
  have hlen : ((trace cls ss r).map Call.mark).length = (ss.map Step.mark).length :=
    congrArg List.length map_mark_trace
  rwa [List.length_map, List.length_map] at hlen

theorem findSome?_trace {β : Type} {f : Mark → Option β} :
    (trace cls ss r).findSome? (fun c => f c.mark) = ss.findSome? fun s => f s.mark := by
  have hfind : ((trace cls ss r).map Call.mark).findSome? f = (ss.map Step.mark).findSome? f :=
    congrArg (List.findSome? f) map_mark_trace
  rwa [List.findSome?_map, List.findSome?_map] at hfind

theorem trace_append :
    trace cls (ss ++ us) r = trace cls ss r ++ trace cls us (effects cls ss r) := by
  induction ss generalizing r with
  | nil => rfl
  | cons s ss ih => rw [List.cons_append, trace, trace, ih, List.cons_append, effects, effects,
      List.foldl_cons]

theorem effect_next (s : Step V S) : s.next.effect cls r = s.effect cls r := by
  cases s with
  | visit path prop => cases path <;> rfl
  | visitNested | exitNested => rfl

theorem trace_next : trace cls (ss.map .next) r = trace cls ss r := by
  induction ss generalizing r with
  | nil => rfl
  | cons s ss ih =>
    have hcall : s.next.call r.1 = s.call r.1 := by
      cases s with
      | visit path prop => cases path <;> rfl
      | visitNested | exitNested => rfl
    rw [List.map_cons, trace, trace, effect_next, ih, hcall]

section
variable {T : Type} {p : MemberPtr S T} {vs : List (Step V T)}

theorem effect_under (s : Step V T) : (s.under p).effect cls (inst, data) =
    (p.set inst (s.effect cls (p.get inst, data)).1, (s.effect cls (p.get inst, data)).2) := by
  cases s with
  | visit path prop => rfl
  | visitNested | exitNested => exact Prod.ext (p.set_get inst).symm rfl

theorem effects_under : effects cls (vs.map (.under p)) (inst, data) =
    (p.set inst (effects cls vs (p.get inst, data)).1,
      (effects cls vs (p.get inst, data)).2) := by
  induction vs generalizing inst data with
  | nil => exact Prod.ext (p.set_get inst).symm rfl
  | cons s vs ih =>
    simp only [effects, List.map_cons, List.foldl_cons] at ih ⊢
    rw [effect_under, ih, p.get_set, p.set_set]

theorem trace_under :
    trace cls (vs.map (.under p)) (inst, data) = trace cls vs (p.get inst, data) := by
  induction vs generalizing inst data with
  | nil => rfl
  | cons s vs ih =>
    have hcall : (s.under p).call inst = s.call (p.get inst) := by cases s <;> rfl
    rw [List.map_cons, trace, trace, effect_under, ih, p.get_set, hcall]

/-- The calls for a nested property are those for its members, between its entry and its exit. -/
theorem trace_nested (prop : Property S T) (inner : Visitable V T) (rest : Visitable V S) :
    trace cls (Visitable.nested prop inner rest).steps (inst, data) =
      let entered := (Step.effect cls (.visitNested prop.name) (inst, data)).2
      let left := effects cls inner.steps (prop.member.get inst, entered)
      .visitNested prop.name :: (trace cls inner.steps (prop.member.get inst, entered) ++
        .exitNested prop.name :: trace cls rest.steps
          (Step.effect cls (.exitNested prop.name) (prop.member.set inst left.1, left.2))) := by
  rw [steps, trace, trace_append, trace, trace_next]
  simp only [Step.effect, Step.call, trace_under, effects_under]

end

theorem trace_takeWhile {p : Mark → Bool} :
    trace cls (ss.takeWhile fun s => p s.mark) r =
      (trace cls ss r).takeWhile fun c => p c.mark := by
  induction ss generalizing r with
  | nil => rfl
  | cons s ss ih =>
    rw [trace, List.takeWhile_cons, List.takeWhile_cons, mark_call]
    cases p s.mark with
    | true => exact congrArg _ ih
    | false => rfl

theorem has_visitNested (name : String) : has cls (.visitNested name) = cls.visitNested.isSome := by
  rw [has, missing]
  cases cls.visitNested <;> rfl

theorem has_exitNested (name : String) : has cls (.exitNested name) = cls.exitNested.isSome := by
  rw [has, missing]
  cases cls.exitNested <;> rfl

theorem effect_logged (s : Step V S) : s.effect cls.logged (inst, data, log) =
    ((s.effect cls (inst, data)).1, (s.effect cls (inst, data)).2,
      log ++ if has cls s.mark then [s.call inst] else []) := by
  cases s with
  | visit path prop => rfl
  | visitNested name =>
    rw [Step.mark, has_visitNested]
    rcases h : cls.visitNested with _ | f <;> simp [Step.effect, VisitorClass.logged, Step.call, h]
  | exitNested name =>
    rw [Step.mark, has_exitNested]
    rcases h : cls.exitNested with _ | f <;> simp [Step.effect, VisitorClass.logged, Step.call, h]

/-- The log gets the calls in their order. -/
theorem effects_logged (h : ∀ s ∈ ss, has cls s.mark = true) :
    effects cls.logged ss (inst, data, log) =
      ((effects cls ss (inst, data)).1, (effects cls ss (inst, data)).2,
        log ++ trace cls ss (inst, data)) := by
  induction ss generalizing inst data log with
  | nil => simp [effects, trace]
  | cons s ss ih =>
    have hs := h s List.mem_cons_self
    rw [effects, List.foldl_cons, effect_logged, if_pos hs]
    refine (ih fun s hs => h s (List.mem_cons_of_mem _ hs)).trans ?_
    rw [List.append_assoc]
    rfl

/-! ## A visit with the member functions of a class -/

theorem perform_direct (s : Step V S) : s.perform (VisitorBase.direct cls) inst data =
    match missing cls s.mark with
    | none => .ok (s.effect cls (inst, data))
    | some e => .error e := by
  cases s with
  | visit path prop => rfl
  | visitNested name =>
    simp only [Step.perform, VisitorBase.direct, missing, Step.mark, Step.effect]
    cases cls.visitNested <;> rfl
  | exitNested name =>
    simp only [Step.perform, VisitorBase.direct, missing, Step.mark, Step.effect]
    cases cls.exitNested <;> rfl

/-- The steps are taken up to the first one that the class lacks the member function for. -/
theorem performAll_direct : performAll (VisitorBase.direct cls) ss inst data =
    { inst := (effects cls (ss.takeWhile fun s => has cls s.mark) (inst, data)).1,
      state := (effects cls (ss.takeWhile fun s => has cls s.mark) (inst, data)).2,
      stop := ss.findSome? fun s => missing cls s.mark } := by
  induction ss generalizing inst data with
  | nil => rfl
  | cons s ss ih =>
    rw [performAll, perform_direct, List.takeWhile_cons, List.findSome?_cons, has]
    cases missing cls s.mark with
    | none => exact ih
    | some e => rfl

theorem missing_logged : missing cls.logged = missing cls := by
  funext k
  cases k <;> simp [missing, VisitorClass.logged]

theorem has_logged : has cls.logged = has cls := by
  funext k
  rw [has, has, missing_logged]

/-- Before the visit of a property as many objects are open as it is deep. -/
theorem nesting_before_visit (cls : VisitorClass V σ) (r : S × σ) {t : Visitable V S}
    {path : List Nat} {i : ι} {prop : Property S (V i)}
    (h : t.steps = ss ++ .visit path prop :: us) :
    ∃ st, nesting.run ((trace cls ss r).map Call.mark) = some (st, []) ∧
      st.length + 1 = path.length := by
  have hsteps := nesting_steps t []
  rw [h, List.map_append] at hsteps
  obtain ⟨st, o, o', hpre, -, -⟩ := Mealy.runFrom_append.mp hsteps
  obtain _ | ⟨⟨⟩, _⟩ := o
  refine ⟨st, by rwa [map_mark_trace], ?_⟩
  have halong := atDepth_steps t [] []
  rw [h, Mealy.alongFrom_append (by rw [Mealy.runFrom_comap, hpre])] at halong
  exact halong.2.1 path i prop rfl

/-! ## Nested properties -/

/-- The type has a nested property. -/
def hasNested {S : Type} : Visitable V S → Bool
  | .nil => false
  | .plain _ rest => rest.hasNested
  | .nested .. => true

def Mark.isVisitNested : Mark → Bool
  | .visitNested _ => true
  | _ => false

def Mark.isExitNested : Mark → Bool
  | .exitNested _ => true
  | _ => false

theorem mem_steps_of_hasNested (t : Visitable V S) (h : t.hasNested = true) :
    ∃ name, .visitNested name ∈ t.steps ∧ .exitNested name ∈ t.steps := by
  induction t with
  | nil => cases h
  | plain prop rest ih =>
    obtain ⟨name, hv, he⟩ := ih h
    refine ⟨name, List.mem_cons_of_mem _ ?_, List.mem_cons_of_mem _ ?_⟩
    · exact List.mem_map.mpr ⟨_, hv, rfl⟩
    · exact List.mem_map.mpr ⟨_, he, rfl⟩
  | nested prop inner rest =>
    refine ⟨prop.name, List.mem_cons_self, List.mem_cons_of_mem _ ?_⟩
    exact List.mem_append_right _ List.mem_cons_self

theorem mark_eq_visit_of_not_hasNested (t : Visitable V S) (h : t.hasNested = false) :
    ∀ s ∈ t.steps, s.mark = .visit := by
  induction t with
  | nil => exact nofun
  | plain prop rest ih =>
    intro s hs
    rcases List.mem_cons.mp hs with rfl | hs
    · rfl
    · obtain ⟨s', hs', rfl⟩ := List.mem_map.mp hs
      rw [mark_next, ih h s' hs']
  | nested prop inner rest => cases h

/-- No object is left before the first one is entered. -/
theorem takeWhile_not_isVisitNested {st : List String} {os : List Empty} {cs : List (Call V)}
    (b : Bool) (h : nesting.runFrom [] (cs.map Call.mark) = some (st, os)) :
    (cs.takeWhile fun c => !c.mark.isVisitNested && (!c.mark.isExitNested || b)) =
      cs.takeWhile fun c => !c.mark.isVisitNested := by
  induction cs generalizing os with
  | nil => rfl
  | cons c cs ih =>
    obtain ⟨st', o, os', hstep, hrun, -⟩ := Mealy.runFrom_cons.mp h
    cases c with
    | visit i name value =>
      cases hstep
      exact congrArg _ (ih hrun)
    | visitNested name => rfl
    | exitNested name => cases hstep

theorem has_eq {k : Mark} : has cls k = ((!k.isVisitNested || cls.visitNested.isSome) &&
    (!k.isExitNested || cls.exitNested.isSome)) := by
  cases k with
  | visit => rfl
  | visitNested name => simp [has_visitNested, Mark.isVisitNested, Mark.isExitNested]
  | exitNested name => simp [has_exitNested, Mark.isVisitNested, Mark.isExitNested]

theorem exists_thrown_of_missing {k : Mark} {e : Stop} (h : missing cls k = some e) :
    ∃ what, e = .thrown what := by
  cases k with
  | visit => cases h
  | visitNested name | exitNested name =>
    obtain ⟨-, h⟩ := Option.ite_none_left_eq_some.mp h
    cases h
    exact ⟨_, rfl⟩

theorem isSome_missing {k : Mark} : (missing cls k).isSome = true ↔
    (k.isVisitNested = true ∧ cls.visitNested = none) ∨
      (k.isExitNested = true ∧ cls.exitNested = none) := by
  cases k <;> simp [missing, Mark.isVisitNested, Mark.isExitNested]

theorem has_of_isSome (hvisit : cls.visitNested.isSome = true)
    (hexit : cls.exitNested.isSome = true) (k : Mark) : has cls k = true := by
  cases k with
  | visit => rfl
  | visitNested name => rw [has_visitNested, hvisit]
  | exitNested name => rw [has_exitNested, hexit]

/-- Where the class has what the steps call, all steps are taken. -/
theorem takeWhile_has (h : ∀ s ∈ ss, has cls s.mark = true) :
    (ss.takeWhile fun s => has cls s.mark) = ss ∧
      (ss.findSome? fun s => missing cls s.mark) = none :=
  ⟨List.takeWhile_eq_self_iff.mpr h,
    List.findSome?_eq_none_iff.mpr fun s hs => Option.isNone_iff_eq_none.mp (h s hs)⟩

theorem isSome_findSome_missing (t : Visitable V S) :
    (t.steps.findSome? fun s => missing cls s.mark).isSome ↔
      t.hasNested = true ∧ (cls.visitNested = none ∨ cls.exitNested = none) := by
  rw [List.isSome_findSome?, List.any_eq_true]
  constructor
  · rintro ⟨s, hs, hm⟩
    refine ⟨?_, (isSome_missing.mp hm).imp And.right And.right⟩
    cases hn : t.hasNested with
    | true => rfl
    | false =>
      rw [mark_eq_visit_of_not_hasNested t hn s hs] at hm
      cases hm
  · rintro ⟨hn, hc⟩
    obtain ⟨name, hv, he⟩ := mem_steps_of_hasNested t hn
    rcases hc with hc | hc
    · exact ⟨_, hv, isSome_missing.mpr (.inl ⟨rfl, hc⟩)⟩
    · exact ⟨_, he, isSome_missing.mpr (.inr ⟨rfl, hc⟩)⟩

end Visitable

namespace VisitorBase

open Visitable (trace effects nesting)

variable {cls : VisitorClass V σ} {m : List (Visitor (σ × List (Call V)))} {a : Nat}
  {v w : Visitor (σ × List (Call V))} {S : Type}

theorem callDerived_forget {α : Type} {f : σ × List (Call V) → α × σ × List (Call V)}
    {g : σ → α × σ} (h : ∀ d, g d.1 = ((f d).1, (f d).2.1)) :
    callDerived a g (m.map Visitor.forget) =
      (callDerived a f m).map fun r => (r.1, r.2.map Visitor.forget) := by
  simp only [callDerived, List.getElem?_map]
  rcases m[a]? with _ | v
  · rfl
  simp only [Option.map_some, Visitor.forget]
  rcases m[v.derived]? with _ | w
  · rfl
  · simp only [Option.map_some, Except.map, h, List.map_set, Visitor.forget]

theorem callHook_forget {hook : Option (String → σ → σ)} {what name : String}
    {call : String → Call V} :
    callHook hook what a name (m.map Visitor.forget) =
      (callHook (hook.map fun f name d => (f name d.1, d.2 ++ [call name])) what a name m).map
        (List.map Visitor.forget) := by
  rcases hook with _ | f
  · rfl
  rw [callHook, callDerived_forget (f := fun d => ((), f name d.1, d.2 ++ [call name]))
    fun _ => rfl]
  simp only [Option.map_some, callHook]
  rcases callDerived a (fun d => ((), f name d.1, d.2 ++ [call name])) m with e | r <;> rfl

/-- A visitor of a class that is watched does what it does unwatched. -/
theorem hom_forget :
    Visitable.Hom (functions cls.logged a) (functions cls a) (List.map Visitor.forget) where
  visitBase _ _ _ _ := callDerived_forget fun _ => rfl
  visitNestedBase _ _ := callHook_forget
  exitNestedBase _ _ := callHook_forget

theorem accept_forget (t : Visitable V S) (inst : S) :
    t.accept (functions cls a) inst (m.map Visitor.forget) =
      { inst := (t.accept (functions cls.logged a) inst m).inst,
        state := (t.accept (functions cls.logged a) inst m).state.map Visitor.forget,
        stop := (t.accept (functions cls.logged a) inst m).stop } :=
  Visitable.accept_hom hom_forget t inst m

/-- What a visit does, to the instance and to the visitor that it lands in. -/
theorem accept_logged (hv : m[a]? = some v) (hw : m[v.derived]? = some w) (t : Visitable V S)
    (inst : S) :
    t.accept (functions cls.logged a) inst m =
      let taken := t.steps.takeWhile fun s => has cls s.mark
      let r := effects cls taken (inst, w.data.1)
      { inst := r.1,
        state := m.set v.derived
          { w with data := (r.2, w.data.2 ++ trace cls taken (inst, w.data.1)) },
        stop := t.steps.findSome? fun s => missing cls s.mark } := by
  obtain ⟨d, data, log⟩ := w
  have hall : ∀ s ∈ t.steps.takeWhile fun s => has cls s.mark, has cls s.mark = true :=
    fun s => List.mem_takeWhile_imp (p := fun s : Step V S => has cls s.mark)
  rw [accept_eq hv hw, Visitable.accept_eq_performAll, Visitable.performAll_direct,
    Visitable.has_logged, Visitable.missing_logged, Visitable.effects_logged hall]

/-- `MockNested`, with its members of the types `int` and `Mock`. -/
structure MockNested where
  cNested : Int
  m : Mock
deriving DecidableEq

/-- `MockNested::GetVisitable` -/
def MockNested.getVisitable : Visitable (fun _ : Unit => Int) MockNested :=
  .plain (i := ())
    { name := "c_nested"
      member :=
        { get := MockNested.cNested
          set := fun m c => { m with cNested := c }
          get_set := fun _ _ => rfl
          set_get := fun _ => rfl
          set_set := fun _ _ _ => rfl } }
    (.nested
      { name := "m"
        member :=
          { get := MockNested.m
            set := fun m v => { m with m := v }
            get_set := fun _ _ => rfl
            set_get := fun _ => rfl
            set_set := fun _ _ _ => rfl } } Mock.getVisitable .nil)

/-- `NestedVisitor`, with the result of the members of type `int`. -/
structure NestedVisitor where
  enterNames : List String := []
  exitNames : List String := []
  cResult : String × Int := ("", 0)
  inNested : Bool := false
deriving DecidableEq

def nestedVisitor : VisitorClass (fun _ : Unit => Int) NestedVisitor where
  initial := {}
  visit _ name value d := (value, if d.inNested then { d with cResult := (name, value) } else d)
  visitNested := some fun name d =>
    { d with enterNames := d.enterNames ++ [name], inNested := true }
  exitNested := some fun name d =>
    { d with exitNames := d.exitNames ++ [name], inNested := false }

/-- A visitor with all member functions is called with the trace of the whole visit: each property
is visited once, with the value it has then and with as many objects open as it is deep, and the
objects are entered and left like brackets. -/
theorem accept_calls (hv : m[a]? = some v) (hw : m[v.derived]? = some w)
    (hvisit : cls.visitNested.isSome = true) (hexit : cls.exitNested.isSome = true)
    (t : Visitable V S) (inst : S) :
    let r := t.accept (functions cls.logged a) inst m
    let calls := trace cls t.steps (inst, w.data.1)
    r.stop = none ∧
    (∃ data, r.state = m.set v.derived { w with data := (data, w.data.2 ++ calls) }) ∧
    calls.length = t.steps.length ∧
    (∀ path, t.steps.filterMap (Step.visitedAt path) = (t.plainAt path).toList) ∧
    nesting.run (calls.map Call.mark) = some ([], []) ∧
    ∀ pre path i (prop : Property S (V i)) post, t.steps = pre ++ .visit path prop :: post →
      ∃ earlier later st, calls = earlier ++ .visit i prop.name
          (prop.member.get (effects cls pre (inst, w.data.1)).1) :: later ∧
        earlier = trace cls pre (inst, w.data.1) ∧
        nesting.run (earlier.map Call.mark) = some (st, []) ∧ st.length + 1 = path.length := by
  intro r calls
  have hhas : ∀ s ∈ t.steps, has cls s.mark = true :=
    fun s _ => Visitable.has_of_isSome hvisit hexit s.mark
  obtain ⟨htaken, hstop⟩ := Visitable.takeWhile_has hhas
  have hr : r = _ := accept_logged hv hw t inst
  simp only [htaken, hstop] at hr
  refine ⟨by rw [hr], ⟨_, by rw [hr]⟩, Visitable.length_trace, Visitable.visits_at t, ?_, ?_⟩
  · rw [Visitable.map_mark_trace]
    exact Visitable.nesting_steps t []
  · intro pre path i prop post h
    obtain ⟨st, hst, hlen⟩ :=
      Visitable.nesting_before_visit cls (inst, w.data.1) h
    have hcalls : calls = trace cls (pre ++ .visit path prop :: post) (inst, w.data.1) :=
      congrArg (trace cls · (inst, w.data.1)) h
    rw [Visitable.trace_append, Visitable.trace] at hcalls
    exact ⟨_, _, st, hcalls, rfl, hst, hlen⟩

theorem accept_calls_mockNested : ∃ data,
    (MockNested.getVisitable.accept (functions nestedVisitor.logged 0) ⟨1, ⟨9⟩⟩
      [⟨0, {}, []⟩]).state = [⟨0, data,
        [.visit () "c_nested" 1, .visitNested "m", .visit () "c" 9, .exitNested "m"]⟩] := by
  obtain ⟨-, h, -⟩ := accept_calls (m := [⟨0, {}, []⟩]) (a := 0) rfl rfl
    (show nestedVisitor.visitNested.isSome = true from rfl) rfl MockNested.getVisitable ⟨1, ⟨9⟩⟩
  exact h

/-- A visit throws exactly where the type has a nested property and the class lacks a hook. The
calls made before are the trace of the whole visit up to the first call of a hook it lacks. -/
theorem accept_throws_iff (hv : m[a]? = some v) (hw : m[v.derived]? = some w)
    (t : Visitable V S) (inst : S) :
    let r := t.accept (functions cls.logged a) inst m
    let whole := trace cls t.steps (inst, w.data.1)
    ((∃ what, r.stop = some (.thrown what)) ↔
      t.hasNested = true ∧ (cls.visitNested = none ∨ cls.exitNested = none)) ∧
    r.stop = whole.findSome? (fun c => missing cls c.mark) ∧
    ∃ data calls, r.state = m.set v.derived { w with data := (data, w.data.2 ++ calls) } ∧
      calls = whole.takeWhile (fun c => has cls c.mark) ∧
      (cls.visitNested = none → calls = whole.takeWhile fun c => !c.mark.isVisitNested) ∧
      (cls.visitNested.isSome = true → cls.exitNested = none →
        calls = whole.takeWhile fun c => !c.mark.isExitNested) := by
  intro r whole
  have hr : r = _ := accept_logged hv hw t inst
  have hwhole : nesting.runFrom [] (whole.map Call.mark) = some ([], []) := by
    rw [Visitable.map_mark_trace]
    exact Visitable.nesting_steps t []
  have hstop : r.stop = whole.findSome? fun c => missing cls c.mark := by
    rw [hr, Visitable.findSome?_trace]
  refine ⟨?_, hstop, _, _, by rw [hr], Visitable.trace_takeWhile, fun hvisit => ?_,
    fun hvisit hexit => ?_⟩
  · rw [← Visitable.isSome_findSome_missing, ← Visitable.findSome?_trace, ← hstop]
    constructor
    · rintro ⟨what, h⟩
      rw [h]
      rfl
    · intro h
      obtain ⟨e, he⟩ := Option.isSome_iff_exists.mp h
      rw [hstop] at he
      obtain ⟨c, -, hc⟩ := List.exists_of_findSome?_eq_some he
      obtain ⟨what, rfl⟩ := Visitable.exists_thrown_of_missing hc
      exact ⟨what, hstop.trans he⟩
  · rw [Visitable.trace_takeWhile, ← Visitable.takeWhile_not_isVisitNested _ hwhole]
    simp only [Visitable.has_eq, hvisit, Option.isSome_none, Bool.or_false]
    rfl
  · rw [Visitable.trace_takeWhile]
    simp only [Visitable.has_eq, hvisit, hexit, Option.isSome_none, Bool.or_false, Bool.or_true,
      Bool.true_and]
    rfl

/-- `NestedVisitor` without `exit_nested`. -/
def enteringVisitor : VisitorClass (fun _ : Unit => Int) NestedVisitor :=
  { nestedVisitor with exitNested := none }

theorem accept_throws_iff_mockNested :
    let r := MockNested.getVisitable.accept (functions enteringVisitor.logged 0) ⟨1, ⟨9⟩⟩
      [⟨0, {}, []⟩]
    r.stop = some (.thrown exitNestedMissing) ∧ ∃ data, r.state =
      [⟨0, data, [.visit () "c_nested" 1, .visitNested "m", .visit () "c" 9]⟩] := by
  obtain ⟨-, hstop, data, calls, hstate, hcalls, -⟩ :=
    @accept_throws_iff _ _ _ enteringVisitor [⟨0, {}, []⟩] 0 _ _ _ rfl rfl
      MockNested.getVisitable ⟨1, ⟨9⟩⟩
  rw [hcalls] at hstate
  exact ⟨hstop, data, hstate⟩

end VisitorBase

end TheGame
