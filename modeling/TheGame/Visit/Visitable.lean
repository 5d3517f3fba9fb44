import Mathlib.Logic.Basic

/-!
# `Visitable`

`property.hpp` and `visitable.hpp`. `V` gives the types of the members that are not visitable
themselves, each under a code, because a visitor has one `visit` for each of them. The `Visitable`
of a type is the list of its properties; a property of visitable type comes with the `Visitable` of
that type, which is `GetVisitable()` of it.

`accept` is written over what it needs of a visitor, the three functions `visit_base`,
`visit_nested_base` and `exit_nested_base`, on some state. `accept_hom` says that it does the same
on two states that these functions cannot tell apart.
-/

namespace TheGame

/-- A pointer `MemberType Class::*` to a data member. -/
structure MemberPtr (Class MemberType : Type) where
  get : Class → MemberType
  set : Class → MemberType → Class
  get_set : ∀ c v, get (set c v) = v
  set_get : ∀ c, set c (get c) = c
  set_set : ∀ c v w, set (set c v) w = set c w

/-- `Property<Class, MemberType>` -/
structure Property (Class MemberType : Type) where
  name : String
  member : MemberPtr Class MemberType

variable {ι : Type} {V : ι → Type}

/-- `Visitable<InstanceT, Properties...>`, for an instance of type `S`. -/
inductive Visitable (V : ι → Type) : Type → Type 1
  | nil {S : Type} : Visitable V S
  | plain {S : Type} {i : ι} (prop : Property S (V i)) (rest : Visitable V S) : Visitable V S
  | nested {S T : Type} (prop : Property S T) (inner : Visitable V T) (rest : Visitable V S) :
    Visitable V S

/-- What ends a visit early. -/
inductive Stop
  /-- `std::runtime_error` is thrown -/
  | thrown (what : String)
  /-- a pointer that refers to no object is dereferenced -/
  | dangling
deriving DecidableEq

/-- What `accept` calls on a visitor, as functions on a state `ω`. -/
structure VisitorFunctions (V : ι → Type) (ω : Type) where
  visitBase : (i : ι) → String → V i → ω → Except Stop (V i × ω)
  visitNestedBase : String → ω → Except Stop ω
  exitNestedBase : String → ω → Except Stop ω

/-- The instance and the state after a visit, and what has ended it early. -/
structure Visited (S ω : Type) where
  inst : S
  state : ω
  stop : Option Stop := none
deriving DecidableEq

namespace Visitable

/-- `Visitable::accept`, with `visit_property` for the property in front. A plain property is
visited in place; the `Visitable` of a nested one accepts the visitor in between. -/
def accept {ω : Type} (visitor : VisitorFunctions V ω) :
    {S : Type} → Visitable V S → S → ω → Visited S ω
  | _, .nil, inst, w => { inst, state := w }
  | _, .plain (i := i) prop rest, inst, w =>
    match visitor.visitBase i prop.name (prop.member.get inst) w with
    | .error e => { inst, state := w, stop := some e }
    | .ok (value, w) => rest.accept visitor (prop.member.set inst value) w
  | _, .nested prop inner rest, inst, w =>
    match visitor.visitNestedBase prop.name w with
    | .error e => { inst, state := w, stop := some e }
    | .ok w =>
      let r := inner.accept visitor (prop.member.get inst) w
      let inst := prop.member.set inst r.inst
      match r.stop with
      | some e => { inst, state := r.state, stop := some e }
      | none =>
        match visitor.exitNestedBase prop.name r.state with
        | .error e => { inst, state := r.state, stop := some e }
        | .ok w => rest.accept visitor inst w

/-- The functions of the second visitor do on `f w` what those of the first do on `w`. -/
structure Hom {ω ω' : Type} (v : VisitorFunctions V ω) (v' : VisitorFunctions V ω')
    (f : ω → ω') : Prop where
  visitBase : ∀ i name value w, v'.visitBase i name value (f w) =
    (v.visitBase i name value w).map fun r => (r.1, f r.2)
  visitNestedBase : ∀ name w, v'.visitNestedBase name (f w) = (v.visitNestedBase name w).map f
  exitNestedBase : ∀ name w, v'.exitNestedBase name (f w) = (v.exitNestedBase name w).map f

/-- Then so does `accept`. -/
theorem accept_hom {ω ω' : Type} {v : VisitorFunctions V ω} {v' : VisitorFunctions V ω'}
    {f : ω → ω'} (H : Hom v v' f) {S : Type} (t : Visitable V S) (inst : S) (w : ω) :
    t.accept v' inst (f w) =
      { inst := (t.accept v inst w).inst, state := f (t.accept v inst w).state,
        stop := (t.accept v inst w).stop } := by
  induction t generalizing w with
  | nil => rfl
  | plain prop rest ih =>
    rw [accept, accept, H.visitBase]
    rcases v.visitBase _ prop.name (prop.member.get inst) w with e | ⟨value, w'⟩
    · rfl
    · exact ih _ w'
  | nested prop inner rest ihInner ihRest =>
    rw [accept, accept, H.visitNestedBase]
    rcases v.visitNestedBase prop.name w with e | w'
    · rfl
    simp only [Except.map, ihInner]
    rcases (inner.accept v (prop.member.get inst) w').stop with _ | e
    · simp only [H.exitNestedBase]
      rcases v.exitNestedBase prop.name (inner.accept v (prop.member.get inst) w').state with
        e | w''
      · rfl
      · exact ihRest _ w''
    · rfl

end Visitable

end TheGame
