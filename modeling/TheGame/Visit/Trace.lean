import TheGame.Visit.VisitorBase

/-!
# The calls of a visit

`accept` recurses through the `Visitable` of each nested member. What it does is a flat list of
steps, in the order of a depth-first traversal, each with a pointer to its member from the
outermost instance (`accept_eq_performAll`).
-/

namespace TheGame

/-- `inst.*p.*q` -/
def MemberPtr.comp {S T A : Type} (p : MemberPtr S T) (q : MemberPtr T A) : MemberPtr S A where
  get c := q.get (p.get c)
  set c v := p.set c (q.set (p.get c) v)
  get_set c v := by rw [p.get_set, q.get_set]
  set_get c := by rw [q.set_get, p.set_get]
  set_set c v w := by rw [p.get_set, q.set_set, p.set_set]

/-- A property of a member, as a property of the whole. -/
def Property.under {S T A : Type} (p : MemberPtr S T) (prop : Property T A) : Property S A :=
  { prop with member := p.comp prop.member }

namespace Visitable

variable {ι : Type} {V : ι → Type}

/-- A call of a member function of a visitor. -/
inductive Call (V : ι → Type)
  | visit (i : ι) (name : String) (value : V i)
  | visitNested (name : String)
  | exitNested (name : String)

/-- A step of a visit. The path of a property has its position in the list of properties and,
before that, the positions of the nested members it is in. -/
inductive Step (V : ι → Type) (S : Type)
  | visit (path : List Nat) {i : ι} (prop : Property S (V i))
  | visitNested (name : String)
  | exitNested (name : String)

namespace Step

variable {S T ω : Type}

/-- A step in the first member. -/
def under (p : MemberPtr S T) : Step V T → Step V S
  | .visit path prop => .visit (0 :: path) (prop.under p)
  | .visitNested name => .visitNested name
  | .exitNested name => .exitNested name

/-- A step in one of the members after the first. -/
def next : Step V S → Step V S
  | .visit (k :: path) prop => .visit ((k + 1) :: path) prop
  | s => s

def perform (visitor : VisitorFunctions V ω) : Step V S → S → ω → Except Stop (S × ω)
  | .visit (i := i) _ prop, inst, w =>
    (visitor.visitBase i prop.name (prop.member.get inst) w).map fun r =>
      (prop.member.set inst r.1, r.2)
  | .visitNested name, inst, w => (visitor.visitNestedBase name w).map fun w => (inst, w)
  | .exitNested name, inst, w => (visitor.exitNestedBase name w).map fun w => (inst, w)

end Step

/-- The steps of a visit. -/
def steps : {S : Type} → Visitable V S → List (Step V S)
  | _, .nil => []
  | _, .plain prop rest => .visit [0] prop :: rest.steps.map .next
  | _, .nested prop inner rest =>
    .visitNested prop.name :: (inner.steps.map (.under prop.member) ++
      .exitNested prop.name :: rest.steps.map .next)

/-- One step after the other, until one is ended early. -/
def performAll {S ω : Type} (visitor : VisitorFunctions V ω) :
    List (Step V S) → S → ω → Visited S ω
  | [], inst, w => { inst, state := w }
  | s :: ss, inst, w =>
    match s.perform visitor inst w with
    | .error e => { inst, state := w, stop := some e }
    | .ok (inst, w) => performAll visitor ss inst w

section
variable {S T ω : Type} {visitor : VisitorFunctions V ω} {inst : S} {w : ω}

theorem performAll_append {ss us : List (Step V S)} :
    performAll visitor (ss ++ us) inst w =
      match (performAll visitor ss inst w).stop with
      | some _ => performAll visitor ss inst w
      | none => performAll visitor us (performAll visitor ss inst w).inst
          (performAll visitor ss inst w).state := by
  induction ss generalizing inst w with
  | nil => rfl
  | cons s ss ih =>
    rw [List.cons_append, performAll, performAll]
    rcases s.perform visitor inst w with e | ⟨inst', w'⟩
    · rfl
    · exact ih

theorem performAll_next {ss : List (Step V S)} :
    performAll visitor (ss.map .next) inst w = performAll visitor ss inst w := by
  induction ss generalizing inst w with
  | nil => rfl
  | cons s ss ih =>
    have hs : s.next.perform visitor inst w = s.perform visitor inst w := by
      cases s with
      | visit path prop => cases path <;> rfl
      | visitNested | exitNested => rfl
    rw [List.map_cons, performAll, performAll, hs]
    rcases s.perform visitor inst w with e | ⟨inst', w'⟩
    · rfl
    · exact ih

/-- A visit of a member, as a visit of the instance. -/
theorem performAll_under {p : MemberPtr S T} {ss : List (Step V T)} :
    performAll visitor (ss.map (.under p)) inst w =
      { inst := p.set inst (performAll visitor ss (p.get inst) w).inst,
        state := (performAll visitor ss (p.get inst) w).state,
        stop := (performAll visitor ss (p.get inst) w).stop } := by
  induction ss generalizing inst w with
  | nil => rw [List.map_nil, performAll, performAll, p.set_get]
  | cons s ss ih =>
    have hs : (s.under p).perform visitor inst w =
        (s.perform visitor (p.get inst) w).map fun r => (p.set inst r.1, r.2) := by
      cases s with
      | visit path prop =>
        simp only [Step.under, Step.perform, Property.under, MemberPtr.comp]
        rcases visitor.visitBase _ prop.name (prop.member.get (p.get inst)) w with e | r <;> rfl
      | visitNested name =>
        simp only [Step.under, Step.perform]
        rcases visitor.visitNestedBase name w with e | w'
        · rfl
        · simp [Except.map, p.set_get]
      | exitNested name =>
        simp only [Step.under, Step.perform]
        rcases visitor.exitNestedBase name w with e | w'
        · rfl
        · simp [Except.map, p.set_get]
    rw [List.map_cons, performAll, performAll, hs]
    rcases s.perform visitor (p.get inst) w with e | ⟨inner, w'⟩
    · simp [Except.map, p.set_get]
    · simp only [Except.map, ih, p.get_set, p.set_set]

/-- A visit is its steps. -/
theorem accept_eq_performAll (t : Visitable V S) (inst : S) (w : ω) :
    t.accept visitor inst w = performAll visitor t.steps inst w := by
  induction t generalizing w with
  | nil => rfl
  | plain prop rest ih =>
    rw [accept, steps, performAll, Step.perform]
    rcases visitor.visitBase _ prop.name (prop.member.get inst) w with e | ⟨value, w'⟩
    · rfl
    · exact (ih _ w').trans performAll_next.symm
  | nested prop inner rest ihInner ihRest =>
    rw [accept, steps, performAll, Step.perform]
    rcases visitor.visitNestedBase prop.name w with e | w'
    · rfl
    simp only [Except.map, performAll_append, performAll_under, ihInner]
    rcases (performAll visitor inner.steps (prop.member.get inst) w').stop with _ | e
    · simp only [performAll, Step.perform]
      rcases visitor.exitNestedBase prop.name
        (performAll visitor inner.steps (prop.member.get inst) w').state with e | w''
      · rfl
      · exact (ihRest _ w'').trans performAll_next.symm
    · rfl

end

/-! ## Each property is visited once -/

/-- The plain property at a path. -/
def plainAt : {S : Type} → Visitable V S → List Nat → Option (Σ i, Property S (V i))
  | _, .plain prop _, [0] => some ⟨_, prop⟩
  | _, .plain _ rest, (k + 1) :: path => rest.plainAt (k :: path)
  | _, .nested prop inner _, 0 :: path =>
    (inner.plainAt path).map fun p => ⟨p.1, p.2.under prop.member⟩
  | _, .nested _ _ rest, (k + 1) :: path => rest.plainAt (k :: path)
  | _, _, _ => none

section
variable {S T : Type}

/-- The plain property that a step visits, if it has this path. -/
def Step.visitedAt (path : List Nat) : Step V S → Option (Σ i, Property S (V i))
  | .visit path' prop => if path' = path then some ⟨_, prop⟩ else none
  | _ => none

theorem visitedAt_next_succ {k : Nat} {path : List Nat} (s : Step V S) :
    s.next.visitedAt ((k + 1) :: path) = s.visitedAt (k :: path) := by
  cases s with
  | visit path' prop => cases path' <;> simp [Step.next, Step.visitedAt]
  | visitNested | exitNested => rfl

theorem visitedAt_next_zero {path : List Nat} (s : Step V S) :
    s.next.visitedAt (0 :: path) = none := by
  cases s with
  | visit path' prop => cases path' <;> simp [Step.next, Step.visitedAt]
  | visitNested | exitNested => rfl

theorem visitedAt_under_zero {p : MemberPtr S T} {path : List Nat} (s : Step V T) :
    (s.under p).visitedAt (0 :: path) =
      (s.visitedAt path).map fun q => ⟨q.1, q.2.under p⟩ := by
  cases s with
  | visit path' prop => by_cases h : path' = path <;> simp [Step.under, Step.visitedAt, h]
  | visitNested | exitNested => rfl

theorem visitedAt_under_succ {p : MemberPtr S T} {k : Nat} {path : List Nat} (s : Step V T) :
    (s.under p).visitedAt ((k + 1) :: path) = none := by
  cases s with
  | visit path' prop => simp [Step.under, Step.visitedAt]
  | visitNested | exitNested => rfl

theorem visitedAt_next_nil (s : Step V S) : s.next.visitedAt [] = s.visitedAt [] := by
  cases s with
  | visit path' prop => cases path' <;> simp [Step.next, Step.visitedAt]
  | visitNested | exitNested => rfl

theorem visitedAt_under_nil {p : MemberPtr S T} (s : Step V T) :
    (s.under p).visitedAt [] = none := by
  cases s with
  | visit path' prop => simp [Step.under, Step.visitedAt]
  | visitNested | exitNested => rfl

theorem plainAt_nil (t : Visitable V S) : t.plainAt [] = none := by
  cases t <;> rfl

theorem filterMap_map_congr {α β γ : Type} {f : α → β} {g : β → Option γ} {h : α → Option γ}
    (hs : ∀ s, g (f s) = h s) (ss : List α) : (ss.map f).filterMap g = ss.filterMap h := by
  rw [List.filterMap_map]
  exact congrArg (ss.filterMap ·) (funext hs)

theorem filterMap_map_eq_nil {α β γ : Type} {f : α → β} {g : β → Option γ}
    (hs : ∀ s, g (f s) = none) (ss : List α) : (ss.map f).filterMap g = [] := by
  rw [List.filterMap_map, List.filterMap_eq_nil_iff]
  exact fun s _ => hs s

theorem filterMap_under_zero {p : MemberPtr S T} {ss : List (Step V T)} {path : List Nat} :
    (ss.map (.under p)).filterMap (Step.visitedAt (0 :: path)) =
      (ss.filterMap (Step.visitedAt path)).map fun q => ⟨q.1, q.2.under p⟩ := by
  rw [filterMap_map_congr visitedAt_under_zero, List.map_filterMap]

/-- Every plain property is visited exactly once. -/
theorem visits_at (t : Visitable V S) (path : List Nat) :
    t.steps.filterMap (Step.visitedAt path) = (t.plainAt path).toList := by
  induction t generalizing path with
  | nil => rfl
  | plain prop rest ih =>
    rw [steps]
    match path with
    | [] =>
      rw [List.filterMap_cons_none (by simp [Step.visitedAt]),
        filterMap_map_congr visitedAt_next_nil, ih, plainAt_nil, plainAt_nil]
    | [0] =>
      rw [List.filterMap_cons_some (by simp [Step.visitedAt]; rfl),
        filterMap_map_eq_nil visitedAt_next_zero]
      rfl
    | 0 :: j :: path =>
      rw [List.filterMap_cons_none (by simp [Step.visitedAt]),
        filterMap_map_eq_nil visitedAt_next_zero]
      rfl
    | (k + 1) :: path =>
      rw [List.filterMap_cons_none (by simp [Step.visitedAt]),
        filterMap_map_congr visitedAt_next_succ, ih]
      rfl
  | nested prop inner rest ihInner ihRest =>
    rw [steps, List.filterMap_cons_none rfl, List.filterMap_append,
      List.filterMap_cons_none rfl]
    match path with
    | [] =>
      rw [filterMap_map_eq_nil visitedAt_under_nil, filterMap_map_congr visitedAt_next_nil,
        ihRest, plainAt_nil, plainAt_nil]
      rfl
    | 0 :: path =>
      rw [filterMap_under_zero, filterMap_map_eq_nil visitedAt_next_zero, ihInner,
        List.append_nil]
      exact Option.toList_map.symm
    | (k + 1) :: path =>
      rw [filterMap_map_eq_nil visitedAt_under_succ, filterMap_map_congr visitedAt_next_succ,
        ihRest]
      rfl

end

/-! ## The stack of open objects -/

/-- What a call has to do with the objects that are open. -/
inductive Mark
  | visit
  | visitNested (name : String)
  | exitNested (name : String)

def Call.mark : Call V → Mark
  | .visit .. => .visit
  | .visitNested name => .visitNested name
  | .exitNested name => .exitNested name

def Step.mark {S : Type} : Step V S → Mark
  | .visit .. => .visit
  | .visitNested name => .visitNested name
  | .exitNested name => .exitNested name

/-- The names of the objects that are open, the innermost first. Only that one can be left. -/
def nesting : Mealy (List String) Mark Empty where
  init := []
  step
    | st, .visit => some (st, [])
    | st, .visitNested name => some (name :: st, [])
    | name' :: st, .exitNested name => if name' = name then some (st, []) else none
    | [], .exitNested _ => none

/-- Before the visit of a property as many objects are open as it is deep, more than in `st`. -/
def AtDepth {S : Type} (st st' : List String) (s : Step V S) : Prop :=
  ∀ path i (prop : Property S (V i)), s = .visit path prop →
    st'.length + 1 = path.length + st.length

section
variable {S T : Type} {st : List String}

theorem mark_next (s : Step V S) : s.next.mark = s.mark := by
  cases s with
  | visit path prop => cases path <;> rfl
  | visitNested | exitNested => rfl

theorem mark_under {p : MemberPtr S T} (s : Step V T) : (s.under p).mark = s.mark := by
  cases s <;> rfl

theorem map_mark_next {ss : List (Step V S)} :
    (ss.map .next).map Step.mark = ss.map Step.mark := by
  rw [List.map_map]
  exact congrArg (ss.map ·) (funext mark_next)

theorem map_mark_under {p : MemberPtr S T} {ss : List (Step V T)} :
    (ss.map (.under p)).map Step.mark = ss.map Step.mark := by
  rw [List.map_map]
  exact congrArg (ss.map ·) (funext mark_under)

/-- The steps of a visit open and close objects like brackets. -/
theorem nesting_steps (t : Visitable V S) (st : List String) :
    nesting.runFrom st (t.steps.map Step.mark) = some (st, []) := by
  induction t generalizing st with
  | nil => rfl
  | plain prop rest ih =>
    rw [steps, List.map_cons, map_mark_next]
    exact Mealy.runFrom_cons.mpr ⟨st, [], [], rfl, ih st, rfl⟩
  | nested prop inner rest ihInner ihRest =>
    have hexit : nesting.step (prop.name :: st) (.exitNested prop.name) = some (st, []) :=
      if_pos rfl
    rw [steps, List.map_cons, List.map_append, map_mark_under, List.map_cons, map_mark_next]
    refine Mealy.runFrom_cons.mpr ⟨prop.name :: st, [], [], rfl, ?_, rfl⟩
    refine Mealy.runFrom_append.mpr ⟨prop.name :: st, [], [], ihInner _, ?_, rfl⟩
    exact Mealy.runFrom_cons.mpr ⟨st, [], [], hexit, ihRest st, rfl⟩

theorem atDepth_next {st' : List String} {s : Step V S} (h : AtDepth st st' s) :
    AtDepth st st' s.next := by
  cases s with
  | visit path prop =>
    intro path' i prop' heq
    have hlen := h path _ prop rfl
    cases path with
    | nil =>
      cases heq
      exact hlen
    | cons k path =>
      cases heq
      exact hlen
  | visitNested | exitNested => exact nofun

theorem atDepth_under {p : MemberPtr S T} {name : String} {st' : List String} {s : Step V T}
    (h : AtDepth (name :: st) st' s) : AtDepth st st' (s.under p) := by
  cases s with
  | visit path prop =>
    intro path' i prop' heq
    have hlen := h path _ prop rfl
    cases heq
    rw [hlen, List.length_cons, List.length_cons]
    omega
  | visitNested | exitNested => exact nofun

theorem comap_next : (nesting.comap Step.mark).comap (Step.next (V := V) (S := S)) =
    nesting.comap Step.mark := by
  simp only [Mealy.comap, mark_next]

theorem comap_under {p : MemberPtr S T} :
    (nesting.comap Step.mark).comap (Step.under (V := V) p) = nesting.comap Step.mark := by
  simp only [Mealy.comap, mark_under]

theorem alongFrom_next {st' : List String} {os : List Empty} {ss : List (Step V S)}
    (h : (nesting.comap Step.mark).AlongFrom (fun st' _ s => AtDepth st st' s) st' os ss) :
    (nesting.comap Step.mark).AlongFrom (fun st' _ s => AtDepth st st' s) st' os
      (ss.map .next) := by
  rw [Mealy.alongFrom_map, comap_next]
  exact h.mono fun _ _ _ => atDepth_next

/-- So at each visit as many objects are open as the property is deep. -/
theorem atDepth_steps (t : Visitable V S) (st : List String) (os : List Empty) :
    (nesting.comap Step.mark).AlongFrom (fun st' _ s => AtDepth st st' s) st os t.steps := by
  induction t generalizing st os with
  | nil => trivial
  | plain prop rest ih =>
    refine ⟨?_, alongFrom_next (ih st _)⟩
    intro path i prop' heq
    cases heq
    exact Nat.add_comm ..
  | nested prop inner rest ihInner ihRest =>
    have hinner : (nesting.comap Step.mark).runFrom (prop.name :: st)
        (inner.steps.map (.under prop.member)) = some (prop.name :: st, []) := by
      rw [Mealy.runFrom_comap, map_mark_under, nesting_steps]
    rw [steps, Mealy.alongFrom_cons rfl, Mealy.alongFrom_append hinner,
      Mealy.alongFrom_cons (if_pos rfl)]
    refine ⟨nofun, ?_, nofun, alongFrom_next (ihRest st _)⟩
    rw [Mealy.alongFrom_map, comap_under]
    exact (ihInner (prop.name :: st) _).mono fun _ _ _ => atDepth_under

end

end Visitable

end TheGame
