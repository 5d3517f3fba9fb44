import TheGame.Machine.Basic
import TheGame.Visit.Visitable

/-!
# `VisitorBase`

`visitor_base.hpp`. A visitor is called through `derived_`, which its default member initializer
makes a pointer to the visitor itself. No special member function is declared, so the implicit
copies and moves copy `derived_` like any other member. The memory holds the objects of one class
that derives from `VisitorBase`, each at its own address; such an object cannot point to an object
of another class.
-/

namespace TheGame

variable {ι : Type} {V : ι → Type} {σ : Type}

/-- A class that derives from `VisitorBase`, with data members of type `σ`. -/
structure VisitorClass (V : ι → Type) (σ : Type) where
  initial : σ
  visit : (i : ι) → String → V i → σ → V i × σ
  /-- `none` where `has_visit_nested_v` is false -/
  visitNested : Option (String → σ → σ) := none
  /-- `none` where `has_exit_nested_v` is false -/
  exitNested : Option (String → σ → σ) := none
  /-- what a move leaves of the data members it moves from -/
  movedFrom : σ → σ := id
  /-- what it leaves of them when they are moved to themselves -/
  movedToSelf : σ → σ := id

/-- A visitor, with the address that is the value of `derived_`. -/
structure Visitor (σ : Type) where
  derived : Nat
  data : σ
deriving DecidableEq

namespace VisitorBase

def visitNestedMissing : String :=
  "visit_nested is not a member function, please implement it in the derived class"

def exitNestedMissing : String :=
  "exit_nested is not a member function, please implement it in the derived class"

/-- `derived_->f()` in the visitor at `this`. -/
def callDerived {α : Type} (this : Nat) (f : σ → α × σ) (m : List (Visitor σ)) :
    Except Stop (α × List (Visitor σ)) :=
  match m[this]? with
  | none => .error .dangling
  | some v =>
    match m[v.derived]? with
    | none => .error .dangling
    | some d => .ok ((f d.data).1, m.set v.derived { d with data := (f d.data).2 })

/-- What `visit_nested_base` and `exit_nested_base` have in common. -/
def callHook (hook : Option (String → σ → σ)) (missing : String) (this : Nat) (name : String)
    (m : List (Visitor σ)) : Except Stop (List (Visitor σ)) :=
  match hook with
  | none => .error (.thrown missing)
  | some f => (callDerived this (fun data => ((), f name data)) m).map Prod.snd

variable (cls : VisitorClass V σ)

/-- `VisitorBase::visit_base` -/
def visitBase (this : Nat) (i : ι) (name : String) (value : V i) (m : List (Visitor σ)) :
    Except Stop (V i × List (Visitor σ)) :=
  callDerived this (cls.visit i name value) m

/-- `VisitorBase::visit_nested_base` -/
def visitNestedBase (this : Nat) (name : String) (m : List (Visitor σ)) :
    Except Stop (List (Visitor σ)) :=
  callHook cls.visitNested visitNestedMissing this name m

/-- `VisitorBase::exit_nested_base` -/
def exitNestedBase (this : Nat) (name : String) (m : List (Visitor σ)) :
    Except Stop (List (Visitor σ)) :=
  callHook cls.exitNested exitNestedMissing this name m

/-- The visitor at `this`, as `accept` calls it. -/
def functions (this : Nat) : VisitorFunctions V (List (Visitor σ)) where
  visitBase := visitBase cls this
  visitNestedBase := visitNestedBase cls this
  exitNestedBase := exitNestedBase cls this

/-- The member functions of the class, called on the data members themselves. -/
def direct : VisitorFunctions V σ where
  visitBase i name value data := .ok (cls.visit i name value data)
  visitNestedBase name data :=
    match cls.visitNested with
    | none => .error (.thrown visitNestedMissing)
    | some f => .ok (f name data)
  exitNestedBase name data :=
    match cls.exitNested with
    | none => .error (.thrown exitNestedMissing)
    | some f => .ok (f name data)

/-! ## Histories of visitors -/

/-- What a program does with its visitors. Addresses are given out in order. -/
inductive Event (V : ι → Type) : Type 1
  | defaultConstruct
  | copyConstruct (src : Nat)
  | moveConstruct (src : Nat)
  | copyAssign (dst src : Nat)
  | moveAssign (dst src : Nat)
  /-- `t.accept(visitor, inst)` -/
  | accept {S : Type} (visitor : Nat) (t : Visitable V S) (inst : S)

/-- A step outputs what has ended a visit early. -/
def step (m : List (Visitor σ)) : Event V → Option (List (Visitor σ) × List Stop)
  | .defaultConstruct => some (m ++ [{ derived := m.length, data := cls.initial }], [])
  | .copyConstruct src => m[src]?.map fun v => (m ++ [v], [])
  | .moveConstruct src =>
    m[src]?.map fun v => (m.set src { v with data := cls.movedFrom v.data } ++ [v], [])
  | .copyAssign dst src =>
    m[dst]?.bind fun _ => m[src]?.map fun v => (m.set dst v, [])
  | .moveAssign dst src =>
    m[dst]?.bind fun _ => m[src]?.map fun v =>
      if dst = src then (m.set dst { v with data := cls.movedToSelf v.data }, [])
      else ((m.set src { v with data := cls.movedFrom v.data }).set dst v, [])
  | .accept visitor t inst =>
    m[visitor]?.map fun _ =>
      let r := t.accept (functions cls visitor) inst m
      (r.state, r.stop.toList)

/-- The visitors of a program, of which there are none at first. -/
def machine : Mealy (List (Visitor σ)) (Event V) Stop where
  init := []
  step := step cls

/-- Every `derived_` refers to the visitor it is in. -/
def Own (m : List (Visitor σ)) : Prop :=
  ∀ (a : Nat) (v : Visitor σ), m[a]? = some v → v.derived = a

/-- Every visitor visits with itself: an `accept` with the visitor at `a` does to the instance and
to the data members of that visitor what the member functions of the class do, and nothing else. -/
structure VisitsItself (m : List (Visitor σ)) : Prop where
  own : Own m
  lands : ∀ (a : Nat) (v : Visitor σ), m[a]? = some v → ∀ (S : Type) (t : Visitable V S) (inst : S),
    t.accept (functions cls a) inst m =
      { inst := (t.accept (direct cls) inst v.data).inst,
        state := m.set a { v with data := (t.accept (direct cls) inst v.data).state },
        stop := (t.accept (direct cls) inst v.data).stop }

/-- No visitor is made from another one, and only self-assignments are made. -/
def KeepsSelf : Event V → Prop
  | .copyConstruct _ | .moveConstruct _ => False
  | .copyAssign dst src | .moveAssign dst src => dst = src
  | .defaultConstruct | .accept .. => True

variable {cls} {m m' : List (Visitor σ)} {a : Nat} {v w : Visitor σ} {data : σ}

/-! ## Where a visit lands -/

theorem callDerived_set {α : Type} {f : σ → α × σ} (hv : m[a]? = some v)
    (hw : m[v.derived]? = some w) :
    callDerived a f (m.set v.derived { w with data }) =
      .ok ((f data).1, m.set v.derived { w with data := (f data).2 }) := by
  obtain ⟨hlt, -⟩ := List.getElem?_eq_some_iff.mp hw
  -- the visitor at `a` may be the one that is written to, but its pointer is not
  have hself : ∃ u, (m.set v.derived { w with data })[a]? = some u ∧ u.derived = v.derived := by
    by_cases h : v.derived = a
    · rw [h, hv] at hw
      cases hw
      exact ⟨{ v with data }, by rw [h, List.getElem?_set_self (h ▸ hlt)], rfl⟩
    · exact ⟨v, by rw [List.getElem?_set_ne h, hv], rfl⟩
  obtain ⟨u, hu, hd⟩ := hself
  simp only [callDerived, hu, hd, List.getElem?_set_self hlt, List.set_set]

theorem callHook_set {hook : Option (String → σ → σ)} {missing name : String}
    (hv : m[a]? = some v) (hw : m[v.derived]? = some w) :
    callHook hook missing a name (m.set v.derived { w with data }) =
      (match hook with
        | none => Except.error (Stop.thrown missing)
        | some f => Except.ok (f name data)).map
          fun data => m.set v.derived { w with data } := by
  rcases hook with _ | f
  · rfl
  · rw [callHook, callDerived_set hv hw]
    rfl

theorem hom_set (hv : m[a]? = some v) (hw : m[v.derived]? = some w) :
    Visitable.Hom (direct cls) (functions cls a) fun data => m.set v.derived { w with data } where
  visitBase _ _ _ _ := callDerived_set hv hw
  visitNestedBase _ _ := callHook_set hv hw
  exitNestedBase _ _ := callHook_set hv hw

/-- A visit lands in the visitor that `derived_` refers to. -/
theorem accept_eq (hv : m[a]? = some v) (hw : m[v.derived]? = some w) {S : Type}
    (t : Visitable V S) (inst : S) :
    t.accept (functions cls a) inst m =
      { inst := (t.accept (direct cls) inst w.data).inst,
        state := m.set v.derived { w with data := (t.accept (direct cls) inst w.data).state },
        stop := (t.accept (direct cls) inst w.data).stop } := by
  have hom : Visitable.Hom (direct cls) (functions cls a) _ := hom_set hv hw
  have h := Visitable.accept_hom hom t inst w.data
  obtain ⟨hlt, hget⟩ := List.getElem?_eq_some_iff.mp hw
  have hm : m.set v.derived w = m := by rw [← hget, List.set_getElem_self]
  rwa [hm] at h

theorem Own.visitsItself (H : Own m) : VisitsItself cls m := by
  refine ⟨H, fun a v hv S t inst => ?_⟩
  obtain rfl := H a v hv
  exact accept_eq hv hv t inst

/-! ## What each event does to the pointers -/

/-- The values of `derived_`, by address. -/
def pointers (m : List (Visitor σ)) : List Nat := m.map Visitor.derived

/-- A new visitor that is not made from another one points to itself; otherwise pointers are
copied. -/
def stepPointers (p : List Nat) : Event V → Option (List Nat)
  | .defaultConstruct => some (p ++ [p.length])
  | .copyConstruct src | .moveConstruct src => p[src]?.map fun d => p ++ [d]
  | .copyAssign dst src | .moveAssign dst src =>
    p[dst]?.bind fun _ => p[src]?.map fun d => p.set dst d
  | .accept visitor .. => p[visitor]?.map fun _ => p

/-- Every `derived_` refers to a visitor. -/
def Refers (p : List Nat) : Prop := ∀ d ∈ p, d < p.length

theorem pointers_append : pointers (m ++ [v]) = pointers m ++ [v.derived] := List.map_append

theorem pointers_set : pointers (m.set a v) = (pointers m).set a v.derived := List.map_set

theorem getElem?_pointers (hv : m[a]? = some v) : (pointers m)[a]? = some v.derived := by
  rw [pointers, List.getElem?_map, hv]
  rfl

theorem pointers_set_data (hv : m[a]? = some v) :
    pointers (m.set a { v with data }) = pointers m := by
  obtain ⟨ha, hget⟩ := List.getElem?_eq_some_iff.mp (getElem?_pointers hv)
  rw [pointers_set, ← hget, List.set_getElem_self]

theorem Refers.lt_length (H : Refers (pointers m)) (hv : m[a]? = some v) :
    v.derived < m.length := by
  have hlt := H v.derived (List.mem_of_getElem? (getElem?_pointers hv))
  rwa [pointers, List.length_map] at hlt

/-- The pointers of the visitors are a machine of their own. -/
theorem step_pointers {e : Event V} {os : List Stop} (H : Refers (pointers m))
    (h : step cls m e = some (m', os)) : stepPointers (pointers m) e = some (pointers m') := by
  cases e with
  | defaultConstruct =>
    cases h
    rw [stepPointers, pointers_append, pointers, List.length_map]
  | copyConstruct src =>
    obtain ⟨v, hv, h⟩ := Option.map_eq_some_iff.mp h
    cases h
    rw [stepPointers, getElem?_pointers hv, pointers_append]
    rfl
  | moveConstruct src =>
    obtain ⟨v, hv, h⟩ := Option.map_eq_some_iff.mp h
    cases h
    rw [stepPointers, getElem?_pointers hv, pointers_append, pointers_set_data hv]
    rfl
  | copyAssign dst src =>
    obtain ⟨w, hw, h⟩ := Option.bind_eq_some_iff.mp h
    obtain ⟨v, hv, h⟩ := Option.map_eq_some_iff.mp h
    cases h
    rw [stepPointers, getElem?_pointers hw, getElem?_pointers hv, pointers_set]
    rfl
  | moveAssign dst src =>
    obtain ⟨w, hw, h⟩ := Option.bind_eq_some_iff.mp h
    obtain ⟨v, hv, h⟩ := Option.map_eq_some_iff.mp h
    rw [stepPointers, getElem?_pointers hw, getElem?_pointers hv]
    split at h
    next hsame =>
      cases h
      obtain rfl := hsame
      rw [pointers_set]
      rfl
    next =>
      cases h
      rw [pointers_set, pointers_set_data hv]
      rfl
  | accept visitor t inst =>
    obtain ⟨v, hv, h⟩ := Option.map_eq_some_iff.mp h
    cases h
    have hw := List.getElem?_eq_getElem (H.lt_length hv)
    rw [stepPointers, getElem?_pointers hv, accept_eq hv hw, pointers_set_data hw]
    rfl

/-! ## Pointers to visitors, and pointers to the visitor itself -/

section
variable {p p' : List Nat} {d n : Nat} {e : Event V}

theorem Refers.append (H : Refers p) (h : d ≤ p.length) : Refers (p ++ [d]) := by
  intro c hc
  rw [List.length_append, List.length_singleton, Nat.lt_succ_iff]
  rcases List.mem_append.mp hc with hc | hc
  · exact Nat.le_of_lt (H c hc)
  · rwa [List.mem_singleton.mp hc]

theorem Refers.set (H : Refers p) (h : d < p.length) : Refers (p.set a d) := by
  intro c hc
  rw [List.length_set]
  rcases List.mem_or_eq_of_mem_set hc with hc | rfl
  · exact H c hc
  · exact h

theorem Refers.step (H : Refers p) (h : stepPointers p e = some p') : Refers p' := by
  cases e with
  | defaultConstruct =>
    cases h
    exact H.append (Nat.le_refl _)
  | copyConstruct src | moveConstruct src =>
    obtain ⟨d, hd, rfl⟩ := Option.map_eq_some_iff.mp h
    exact H.append (Nat.le_of_lt (H d (List.mem_of_getElem? hd)))
  | copyAssign dst src | moveAssign dst src =>
    obtain ⟨_, -, h⟩ := Option.bind_eq_some_iff.mp h
    obtain ⟨d, hd, rfl⟩ := Option.map_eq_some_iff.mp h
    exact H.set (H d (List.mem_of_getElem? hd))
  | accept visitor t inst =>
    obtain ⟨d, -, rfl⟩ := Option.map_eq_some_iff.mp h
    exact H

theorem eq_of_getElem?_range (h : (List.range n)[a]? = some d) : d = a := by
  obtain ⟨ha, rfl⟩ := List.getElem?_eq_some_iff.mp h
  exact List.getElem_range _

theorem range_append_iff :
    List.range n ++ [d] = List.range (List.range n ++ [d]).length ↔ d = n := by
  rw [List.length_append, List.length_range, List.length_singleton, List.range_succ,
    List.append_cancel_left_eq, List.singleton_inj]

theorem range_set_iff (ha : a < n) :
    (List.range n).set a d = List.range ((List.range n).set a d).length ↔ d = a := by
  rw [List.length_set, List.length_range]
  constructor
  · intro h
    have hget : ((List.range n).set a d)[a]? = some d :=
      List.getElem?_set_self (by rwa [List.length_range])
    rw [h] at hget
    exact eq_of_getElem?_range hget
  · rintro rfl
    have hlt : d < (List.range n).length := by rwa [List.length_range]
    have hself : (List.range n).set d (List.range n)[d] = List.range n :=
      List.set_getElem_self hlt
    rwa [List.getElem_range] at hself

/-- Where every visitor points to itself, it is exactly these events that keep it so. -/
theorem keepsSelf_iff (h : stepPointers (List.range n) e = some p') :
    KeepsSelf e ↔ p' = List.range p'.length := by
  cases e with
  | defaultConstruct =>
    cases h
    rw [range_append_iff, List.length_range]
    exact iff_of_true trivial rfl
  | copyConstruct src | moveConstruct src =>
    obtain ⟨d, hd, rfl⟩ := Option.map_eq_some_iff.mp h
    obtain ⟨hsrc, -⟩ := List.getElem?_eq_some_iff.mp hd
    rw [List.length_range] at hsrc
    rw [range_append_iff, eq_of_getElem?_range hd]
    exact iff_of_false id (Nat.ne_of_lt hsrc)
  | copyAssign dst src | moveAssign dst src =>
    obtain ⟨_, hdst, h⟩ := Option.bind_eq_some_iff.mp h
    obtain ⟨d, hd, rfl⟩ := Option.map_eq_some_iff.mp h
    obtain ⟨hdst, -⟩ := List.getElem?_eq_some_iff.mp hdst
    rw [List.length_range] at hdst
    rw [range_set_iff hdst, eq_of_getElem?_range hd, eq_comm]
    rfl
  | accept visitor t inst =>
    obtain ⟨d, -, rfl⟩ := Option.map_eq_some_iff.mp h
    rw [List.length_range]
    exact iff_of_true trivial rfl

end

theorem own_iff : Own m ↔ pointers m = List.range m.length := by
  constructor
  · intro H
    refine List.ext_getElem (by rw [pointers, List.length_map, List.length_range]) ?_
    intro a ha ha'
    rw [List.getElem_range]
    rw [pointers, List.length_map] at ha
    exact (List.getElem_map _).trans (H a _ (List.getElem?_eq_getElem ha))
  · intro H a v hv
    have hp := getElem?_pointers hv
    rw [H] at hp
    exact eq_of_getElem?_range hp

/-! ## Whole histories -/

variable {es : List (Event V)} {os : List Stop}

theorem refers_of_run (hr : (machine cls).run es = some (m, os)) : Refers (pointers m) := by
  refine Mealy.run_induction (P := fun _ m _ => Refers (pointers m)) ?_ ?_ hr
  · intro d hd
    cases hd
  · intro _ m _ e t o _ H hs
    exact H.step (step_pointers H hs)

/-- In every history a visit lands in one visitor, the one that `derived_` refers to. -/
theorem accept_of_run (hr : (machine cls).run es = some (m, os)) (hv : m[a]? = some v) :
    ∃ w, m[v.derived]? = some w ∧ ∀ (S : Type) (t : Visitable V S) (inst : S),
      t.accept (functions cls a) inst m =
        { inst := (t.accept (direct cls) inst w.data).inst,
          state := m.set v.derived { w with data := (t.accept (direct cls) inst w.data).state },
          stop := (t.accept (direct cls) inst w.data).stop } := by
  have hlt : v.derived < m.length := (refers_of_run hr).lt_length hv
  have hw := List.getElem?_eq_getElem hlt
  exact ⟨_, hw, fun S t inst => accept_eq hv hw t inst⟩

/-- Exactly in the histories that copy or move no visitor to another one, every visitor visits
with itself. -/
theorem along_keepsSelf_iff (hr : (machine cls).run es = some (m, os)) :
    (machine cls).Along (fun _ _ e => KeepsSelf e) es ↔
      (machine cls).Always (fun m _ => VisitsItself cls m) es := by
  have hnil : Own ([] : List (Visitor σ)) := fun a v h => by simp at h
  refine Mealy.along_iff_always (P := fun m _ => VisitsItself cls m) hnil.visitsItself ?_ hr
  intro es m os e t o hr H hs
  have hstep := step_pointers (refers_of_run hr) hs
  rw [own_iff.mp H.own] at hstep
  have hlen : (pointers t).length = t.length := List.length_map _
  rw [keepsSelf_iff hstep, hlen, ← own_iff]
  exact ⟨Own.visitsItself, VisitsItself.own⟩

/-! ### The visitor of the tests -/

/-- `Mock`, with its member of type `int`. -/
structure Mock where
  c : Int
deriving DecidableEq

/-- `Mock::GetVisitable` -/
def Mock.getVisitable : Visitable (fun _ : Unit => Int) Mock :=
  .plain (i := ())
    { name := "c"
      member :=
        { get := Mock.c
          set := fun m c => { m with c }
          get_set := fun _ _ => rfl
          set_get := fun _ => rfl
          set_set := fun _ _ _ => rfl } } .nil

/-- `SimpleVisitor`, with the result of the members of type `int`. -/
def simpleVisitor : VisitorClass (fun _ : Unit => Int) (String × Int) where
  initial := ("", 0)
  visit _ name value _ := (value, (name, value))

theorem along_keepsSelf_iff_two : (machine simpleVisitor).Always
    (fun m _ => VisitsItself simpleVisitor m)
    [.defaultConstruct, .defaultConstruct, .accept 1 Mock.getVisitable ⟨9⟩, .copyAssign 0 0] :=
  (along_keepsSelf_iff (Mealy.run_eq_some rfl)).mp ⟨trivial, trivial, trivial, rfl, trivial⟩

/-- The copy of a visitor leaves itself as it is and visits with the original. -/
theorem exists_copy_visits_original : ∃ es m os, (machine simpleVisitor).run es = some (m, os) ∧
    (Mock.getVisitable.accept (functions simpleVisitor 1) ⟨9⟩ m).state[1]? = m[1]? ∧
    (Mock.getVisitable.accept (functions simpleVisitor 1) ⟨9⟩ m).state[0]? ≠ m[0]? ∧
    ¬ VisitsItself simpleVisitor m := by
  refine ⟨[.defaultConstruct, .copyConstruct 0], [⟨0, ("", 0)⟩, ⟨0, ("", 0)⟩], [], rfl, rfl,
    by decide, fun H => ?_⟩
  cases H.own 1 _ rfl

end VisitorBase

end TheGame
