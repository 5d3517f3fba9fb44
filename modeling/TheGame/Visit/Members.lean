import TheGame.Visit.Calls

/-!
# What a visit writes

Where no member is listed twice, the pointers of the steps of a visit are apart, so each listed
member has, after the visit, what the visitor has made of its value when it was visited, and every
other member is as before.
-/

namespace TheGame

open Visitable (Call Step Mark effects)

variable {ι : Type} {V : ι → Type} {σ : Type}

/-- Pointers to members that have nothing in common. -/
structure MemberPtr.Apart {S A B : Type} (p : MemberPtr S A) (q : MemberPtr S B) : Prop where
  get_set : ∀ c v, q.get (p.set c v) = q.get c
  get_set' : ∀ c v, p.get (q.set c v) = p.get c

section
variable {S T A B : Type} {p : MemberPtr S T} {q : MemberPtr S B}

theorem MemberPtr.Apart.comp (h : p.Apart q) (r : MemberPtr T A) : (p.comp r).Apart q where
  get_set c _ := h.get_set c _
  get_set' c _ := congrArg r.get (h.get_set' c _)

theorem MemberPtr.Apart.symm (h : p.Apart q) : q.Apart p := ⟨h.get_set', h.get_set⟩

theorem MemberPtr.Apart.under (p : MemberPtr S T) {q : MemberPtr T A} {r : MemberPtr T B}
    (h : q.Apart r) : (p.comp q).Apart (p.comp r) where
  get_set c v := (congrArg r.get (p.get_set c _)).trans (h.get_set _ v)
  get_set' c v := (congrArg q.get (p.get_set c _)).trans (h.get_set' _ v)

end

namespace Visitable

variable {S T A : Type}

/-- The member is not among the properties. -/
def Avoids {S A : Type} : Visitable V S → MemberPtr S A → Prop
  | .nil, _ => True
  | .plain prop rest, q => prop.member.Apart q ∧ rest.Avoids q
  | .nested prop _ rest, q => prop.member.Apart q ∧ rest.Avoids q

/-- No member is listed twice. -/
def ListedOnce : {S : Type} → Visitable V S → Prop
  | _, .nil => True
  | _, .plain prop rest => rest.Avoids prop.member ∧ rest.ListedOnce
  | _, .nested prop inner rest => rest.Avoids prop.member ∧ inner.ListedOnce ∧ rest.ListedOnce

def Step.Avoids : Step V S → MemberPtr S A → Prop
  | .visit _ prop, q => prop.member.Apart q
  | _, _ => True

/-- The step visits something else than the step before. -/
def Step.Apart (s s' : Step V S) : Prop :=
  match s with
  | .visit _ prop => s'.Avoids prop.member
  | _ => True

/-- The member, of the instance or at any depth in it, is not listed. -/
def Unlisted (t : Visitable V S) (q : MemberPtr S A) : Prop := ∀ s ∈ t.steps, s.Avoids q

/-- The type has a nested property, with the `Visitable` of its type. -/
inductive Nests {S T : Type} (prop : Property S T) (inner : Visitable V T) : Visitable V S → Prop
  | here {rest : Visitable V S} : Nests prop inner (.nested prop inner rest)
  | plain {i : ι} {first : Property S (V i)} {rest : Visitable V S} (h : Nests prop inner rest) :
    Nests prop inner (.plain first rest)
  | nested {U : Type} {first : Property S U} {inner' : Visitable V U} {rest : Visitable V S}
    (h : Nests prop inner rest) : Nests prop inner (.nested first inner' rest)

/-- The listed members, each with its value. -/
def calls (t : Visitable V S) (inst : S) : List (Call V) := t.steps.map fun s => s.call inst

/-! ## Listed and unlisted members -/

section
variable {p : MemberPtr S T} {q : MemberPtr T A} {t : Visitable V S}

theorem avoids_next {q : MemberPtr S A} {s : Step V S} (h : s.Avoids q) : s.next.Avoids q := by
  cases s with
  | visit path prop => cases path <;> exact h
  | visitNested | exitNested => trivial

theorem avoids_under {q : MemberPtr S A} (h : p.Apart q) (s : Step V T) : (s.under p).Avoids q := by
  cases s with
  | visit path prop => exact h.comp prop.member
  | visitNested | exitNested => trivial

theorem avoids_under_comp {s : Step V T} (h : s.Avoids q) : (s.under p).Avoids (p.comp q) := by
  cases s with
  | visit path prop => exact MemberPtr.Apart.under p h
  | visitNested | exitNested => trivial

theorem Avoids.comp (h : t.Avoids p) : t.Avoids (p.comp q) := by
  induction t with
  | nil => trivial
  | plain prop rest ih => exact ⟨(h.1.symm.comp q).symm, ih h.2⟩
  | nested prop inner rest _ ih => exact ⟨(h.1.symm.comp q).symm, ih h.2⟩

theorem unlisted_plain {i : ι} {prop : Property S (V i)} {rest : Visitable V S}
    {q : MemberPtr S A} (hprop : prop.member.Apart q) (hrest : rest.Unlisted q) :
    (Visitable.plain prop rest).Unlisted q := by
  intro s hs
  rcases List.mem_cons.mp hs with rfl | hs
  · exact hprop
  · obtain ⟨s', hs', rfl⟩ := List.mem_map.mp hs
    exact avoids_next (hrest s' hs')

theorem unlisted_nested {prop : Property S T} {inner : Visitable V T} {rest : Visitable V S}
    {q : MemberPtr S A} (hinner : ∀ s ∈ inner.steps, (s.under prop.member).Avoids q)
    (hrest : rest.Unlisted q) : (Visitable.nested prop inner rest).Unlisted q := by
  intro s hs
  rcases List.mem_cons.mp hs with rfl | hs
  · trivial
  rcases List.mem_append.mp hs with hs | hs
  · obtain ⟨s', hs', rfl⟩ := List.mem_map.mp hs
    exact hinner s' hs'
  rcases List.mem_cons.mp hs with rfl | hs
  · trivial
  · obtain ⟨s', hs', rfl⟩ := List.mem_map.mp hs
    exact avoids_next (hrest s' hs')

/-- A member that is not among the properties is not listed. -/
theorem Avoids.unlisted {q : MemberPtr S A} (h : t.Avoids q) : t.Unlisted q := by
  induction t with
  | nil => exact nofun
  | plain prop rest ih => exact unlisted_plain h.1 (ih h.2)
  | nested prop inner rest _ ih =>
    exact unlisted_nested (fun s _ => avoids_under h.1 s) (ih h.2)

theorem Avoids.next {q : MemberPtr S A} (h : t.Avoids q) :
    ∀ s ∈ t.steps.map .next, Step.Avoids s q := by
  intro s hs
  obtain ⟨s', hs', rfl⟩ := List.mem_map.mp hs
  exact avoids_next (h.unlisted s' hs')

theorem Nests.apart {prop : Property S T} {inner : Visitable V T} {q : MemberPtr S A}
    (hn : Nests prop inner t) (h : t.Avoids q) : prop.member.Apart q := by
  induction hn with
  | here => exact h.1
  | plain _ ih | nested _ ih => exact ih h.2

/-- Nor is one of a nested property that is not listed there. -/
theorem Nests.unlisted {prop : Property S T} {inner : Visitable V T} (hn : Nests prop inner t)
    (ht : t.ListedOnce) (h : inner.Unlisted q) : t.Unlisted (prop.member.comp q) := by
  induction hn with
  | here => exact unlisted_nested (fun s hs => avoids_under_comp (h s hs)) ht.1.comp.unlisted
  | plain hn ih => exact unlisted_plain ((hn.apart ht.1).comp q).symm (ih ht.2)
  | nested hn ih =>
    exact unlisted_nested (fun s _ => avoids_under ((hn.apart ht.1).comp q).symm s) (ih ht.2.2)

theorem apart_next {s s' : Step V S} (h : s.Apart s') : s.next.Apart s'.next := by
  cases s with
  | visit path prop => cases path <;> exact avoids_next (s := s') h
  | visitNested | exitNested => trivial

theorem apart_under {s s' : Step V T} (h : s.Apart s') : (s.under p).Apart (s'.under p) := by
  cases s with
  | visit path prop => exact avoids_under_comp (s := s') h
  | visitNested | exitNested => trivial

/-- Where no member is listed twice, no two steps visit the same. -/
theorem ListedOnce.pairwise (h : t.ListedOnce) : t.steps.Pairwise Step.Apart := by
  induction t with
  | nil => exact .nil
  | plain prop rest ih =>
    exact .cons h.1.next (List.pairwise_map.mpr ((ih h.2).imp apart_next))
  | nested prop inner rest ihInner ihRest =>
    have hinner := List.pairwise_map.mpr ((ihInner h.2.1).imp (apart_under (p := prop.member)))
    have hrest := List.pairwise_map.mpr ((ihRest h.2.2).imp apart_next)
    refine .cons (fun _ _ => trivial) (List.pairwise_append.mpr
      ⟨hinner, .cons (fun _ _ => trivial) hrest, fun s hs s' hs' => ?_⟩)
    obtain ⟨s, -, rfl⟩ := List.mem_map.mp hs
    cases s with
    | visit path prop' =>
      rcases List.mem_cons.mp hs' with rfl | hs'
      · trivial
      · exact h.1.comp.next s' hs'
    | visitNested | exitNested => trivial

end

/-! ## The steps write what the visitor makes of the members -/

/-- What the visitor makes of the members when it is called with them one after the other, and
what it is then itself. -/
def thread (cls : VisitorClass V σ) : List (Call V) → σ → List (Call V) × σ
  | [], data => ([], data)
  | .visit i name value :: cs, data =>
    let r := cls.visit i name value data
    let u := thread cls cs r.2
    (.visit i name r.1 :: u.1, u.2)
  | .visitNested name :: cs, data =>
    let u := thread cls cs (cls.visitNested.elim data fun f => f name data)
    (.visitNested name :: u.1, u.2)
  | .exitNested name :: cs, data =>
    let u := thread cls cs (cls.exitNested.elim data fun f => f name data)
    (.exitNested name :: u.1, u.2)

section
variable {cls : VisitorClass V σ} {ss : List (Step V S)} {inst : S} {data : σ}

/-- A member that no step visits is left as it is. -/
theorem get_effects {q : MemberPtr S A} (h : ∀ s ∈ ss, s.Avoids q) {r : S × σ} :
    q.get (effects cls ss r).1 = q.get r.1 := by
  induction ss generalizing r with
  | nil => rfl
  | cons s ss ih =>
    have hs : q.get (s.effect cls r).1 = q.get r.1 := by
      have havoid := h s List.mem_cons_self
      cases s with
      | visit path prop => exact havoid.get_set r.1 _
      | visitNested | exitNested => rfl
    exact (ih fun s' hs' => h s' (List.mem_cons_of_mem _ hs')).trans hs

theorem call_effect {s s' : Step V S} (h : s.Apart s') :
    s'.call (s.effect cls (inst, data)).1 = s'.call inst := by
  cases s with
  | visit path prop =>
    cases s' with
    | visit path' prop' => exact congrArg (Call.visit _ prop'.name) (h.get_set' inst _)
    | visitNested | exitNested => rfl
  | visitNested | exitNested => rfl

/-- Steps that visit different members find them as they were at first. -/
theorem map_call_effects (h : ss.Pairwise Step.Apart) :
    ss.map (fun s => s.call (effects cls ss (inst, data)).1) =
        (thread cls (ss.map fun s => s.call inst) data).1 ∧
      (effects cls ss (inst, data)).2 = (thread cls (ss.map fun s => s.call inst) data).2 := by
  induction ss generalizing inst data with
  | nil => exact ⟨rfl, rfl⟩
  | cons s ss ih =>
    obtain ⟨hs, hss⟩ := List.pairwise_cons.mp h
    have hcalls : (ss.map fun s' => s'.call (s.effect cls (inst, data)).1) =
        ss.map fun s' => s'.call inst :=
      List.map_congr_left fun s' hs' => call_effect (hs s' hs')
    obtain ⟨h1, h2⟩ := @ih (s.effect cls (inst, data)).1 (s.effect cls (inst, data)).2 hss
    rw [hcalls] at h1 h2
    cases s with
    | visit path prop =>
      have hget : prop.member.get
          (effects cls ss ((Step.visit path prop).effect cls (inst, data))).1 =
            (cls.visit _ prop.name (prop.member.get inst) data).1 :=
        (get_effects hs).trans (prop.member.get_set inst _)
      refine ⟨congrArg₂ List.cons ?_ h1, h2⟩
      exact congrArg (Call.visit _ prop.name) hget
    | visitNested name | exitNested name => exact ⟨congrArg _ h1, h2⟩

end

/-! ## Values that are taken from one instance to another -/

/-- The value of the member that is visited. -/
def Call.value : Call V → Option (Σ i, V i)
  | .visit i _ value => some ⟨i, value⟩
  | _ => none

/-- The visitor leaves the members as they are and collects their values. -/
structure Collects (cls : VisitorClass V σ) (collected : σ → List (Σ i, V i)) : Prop where
  visit : ∀ i name value data, (cls.visit i name value data).1 = value
  collected_visit : ∀ i name value data,
    collected (cls.visit i name value data).2 = collected data ++ [⟨i, value⟩]
  visitNested : ∀ name data,
    collected (cls.visitNested.elim data fun f => f name data) = collected data
  exitNested : ∀ name data,
    collected (cls.exitNested.elim data fun f => f name data) = collected data

/-- The visitor assigns the values it has, in their order. -/
structure Assigns (cls : VisitorClass V σ) (pending : σ → List (Σ i, V i)) : Prop where
  visit : ∀ i name value data v rest, pending data = ⟨i, v⟩ :: rest →
    (cls.visit i name value data).1 = v
  pending_visit : ∀ i name value data v rest, pending data = ⟨i, v⟩ :: rest →
    pending (cls.visit i name value data).2 = rest
  visitNested : ∀ name data,
    pending (cls.visitNested.elim data fun f => f name data) = pending data
  exitNested : ∀ name data,
    pending (cls.exitNested.elim data fun f => f name data) = pending data

def collector : VisitorClass V (List (Σ i, V i)) where
  initial := []
  visit i _ value data := (value, data ++ [⟨i, value⟩])
  visitNested := some fun _ data => data
  exitNested := some fun _ data => data

theorem collects_collector : Collects (V := V) collector id where
  visit _ _ _ _ := rfl
  collected_visit _ _ _ _ := rfl
  visitNested _ _ := rfl
  exitNested _ _ := rfl

def assigner [DecidableEq ι] : VisitorClass V (List (Σ i, V i)) where
  initial := []
  visit i _ value data :=
    match data with
    | [] => (value, [])
    | ⟨j, v⟩ :: rest => (if h : j = i then h ▸ v else value, rest)
  visitNested := some fun _ data => data
  exitNested := some fun _ data => data

theorem assigns_assigner [DecidableEq ι] : Assigns (V := V) assigner id where
  visit i name value data v rest h := by
    cases h
    exact dif_pos rfl
  pending_visit i name value data v rest h := by
    cases h
    rfl
  visitNested _ _ := rfl
  exitNested _ _ := rfl

section
variable {cls : VisitorClass V σ} {values : σ → List (Σ i, V i)} {data : σ}

theorem thread_collects (h : Collects cls values) {cs : List (Call V)} :
    (thread cls cs data).1 = cs ∧
      values (thread cls cs data).2 = values data ++ cs.filterMap Call.value := by
  induction cs generalizing data with
  | nil => exact ⟨rfl, (List.append_nil _).symm⟩
  | cons c cs ih =>
    cases c with
    | visit i name value =>
      obtain ⟨h1, h2⟩ := @ih (cls.visit i name value data).2
      refine ⟨congrArg₂ List.cons (congrArg _ (h.visit i name value data)) h1, ?_⟩
      rw [h.collected_visit, List.append_assoc] at h2
      exact h2
    | visitNested name =>
      obtain ⟨h1, h2⟩ := @ih (cls.visitNested.elim data fun f => f name data)
      rw [h.visitNested] at h2
      exact ⟨congrArg _ h1, h2⟩
    | exitNested name =>
      obtain ⟨h1, h2⟩ := @ih (cls.exitNested.elim data fun f => f name data)
      rw [h.exitNested] at h2
      exact ⟨congrArg _ h1, h2⟩

theorem thread_assigns (h : Assigns cls values) {ss : List (Step V S)} {src dst : S}
    (hdata : values data = (ss.map fun s => s.call src).filterMap Call.value) :
    (thread cls (ss.map fun s => s.call dst) data).1 = ss.map fun s => s.call src := by
  induction ss generalizing data with
  | nil => rfl
  | cons s ss ih =>
    cases s with
    | visit path prop =>
      refine congrArg₂ List.cons ?_ (ih (h.pending_visit _ _ _ _ _ _ hdata))
      exact congrArg (Call.visit _ prop.name) (h.visit _ _ _ _ _ _ hdata)
    | visitNested name => exact congrArg _ (ih ((h.visitNested name data).trans hdata))
    | exitNested name => exact congrArg _ (ih ((h.exitNested name data).trans hdata))

end

end Visitable

/-- The class has the member functions that a visit calls. -/
def VisitorClass.CanVisit {S : Type} (cls : VisitorClass V σ) (t : Visitable V S) : Prop :=
  t.hasNested = true → cls.visitNested.isSome = true ∧ cls.exitNested.isSome = true

namespace VisitorBase

open Visitable (thread Collects Assigns collector assigner)

variable {cls : VisitorClass V σ} {m : List (Visitor σ)} {a : Nat} {v w : Visitor σ} {S : Type}

theorem has_of_canVisit {t : Visitable V S} (hc : cls.CanVisit t) :
    ∀ s ∈ t.steps, has cls s.mark = true := by
  intro s hs
  cases hn : t.hasNested with
  | true => exact Visitable.has_of_isSome (hc hn).1 (hc hn).2 s.mark
  | false =>
    rw [Visitable.mark_eq_visit_of_not_hasNested t hn s hs]
    rfl

theorem accept_eq_effects (hv : m[a]? = some v) (hw : m[v.derived]? = some w) {t : Visitable V S}
    (hc : cls.CanVisit t) (inst : S) :
    t.accept (functions cls a) inst m =
      { inst := (effects cls t.steps (inst, w.data)).1,
        state := m.set v.derived { w with data := (effects cls t.steps (inst, w.data)).2 } } := by
  obtain ⟨htaken, hmissing⟩ := Visitable.takeWhile_has (has_of_canVisit hc)
  rw [accept_eq hv hw, Visitable.accept_eq_performAll, Visitable.performAll_direct, htaken,
    hmissing]

/-- A visit writes what the visitor makes of the listed members, and nothing else. -/
theorem accept_eq_thread (hv : m[a]? = some v) (hw : m[v.derived]? = some w) {t : Visitable V S}
    (ht : t.ListedOnce) (hc : cls.CanVisit t) (inst : S) :
    let r := t.accept (functions cls a) inst m
    let made := thread cls (t.calls inst) w.data
    r.stop = none ∧ t.calls r.inst = made.1 ∧
      r.state = m.set v.derived { w with data := made.2 } ∧
      ∀ A (q : MemberPtr S A), t.Unlisted q → q.get r.inst = q.get inst := by
  intro r made
  obtain ⟨hcalls, hdata⟩ : t.calls (effects cls t.steps (inst, w.data)).1 = made.1 ∧
      (effects cls t.steps (inst, w.data)).2 = made.2 := Visitable.map_call_effects ht.pairwise
  have hr : r = _ := accept_eq_effects hv hw hc inst
  rw [hr]
  exact ⟨rfl, hcalls, by rw [hdata], fun A q hq => Visitable.get_effects hq⟩

/-- The same, and what two visits do, one that collects the values of an instance and one that
assigns them to another instance: the second has the listed members of the first then, and its
other members are its own. -/
theorem accept_writes_listed (hv : m[a]? = some v) (hw : m[v.derived]? = some w)
    {t : Visitable V S} (ht : t.ListedOnce) (hc : cls.CanVisit t) (inst : S) :
    let r := t.accept (functions cls a) inst m
    let made := thread cls (t.calls inst) w.data
    (r.stop = none ∧ t.calls r.inst = made.1 ∧
      r.state = m.set v.derived { w with data := made.2 } ∧
      ∀ A (q : MemberPtr S A), t.Unlisted q → q.get r.inst = q.get inst) ∧
    ∀ (σ' : Type) (cls' : VisitorClass V σ') (collected : σ → List (Σ i, V i))
      (pending : σ' → List (Σ i, V i)) (m' : List (Visitor σ')) (a' : Nat) (v' w' : Visitor σ')
      (dst : S), Collects cls collected → collected w.data = [] → Assigns cls' pending →
      pending w'.data = collected made.2 → cls'.CanVisit t → m'[a']? = some v' →
      m'[v'.derived]? = some w' →
      let r' := t.accept (functions cls' a') dst m'
      r'.stop = none ∧ t.calls r'.inst = t.calls inst ∧
      ∀ A (q : MemberPtr S A), t.Unlisted q → q.get r'.inst = q.get dst := by
  refine ⟨accept_eq_thread hv hw ht hc inst, ?_⟩
  intro σ' cls' collected pending m' a' v' w' dst hcollects hempty hassigns hpending hc' hv' hw'
  obtain ⟨hstop, hcalls, -, hunlisted⟩ := accept_eq_thread hv' hw' ht hc' dst
  refine ⟨hstop, hcalls.trans ?_, hunlisted⟩
  obtain ⟨-, hvalues⟩ : _ ∧ collected (thread cls (t.calls inst) w.data).2 = _ :=
    Visitable.thread_collects hcollects
  rw [hempty, List.nil_append] at hvalues
  exact Visitable.thread_assigns hassigns (hpending.trans hvalues)

theorem listedOnce_mockNested : MockNested.getVisitable.ListedOnce :=
  ⟨⟨⟨fun _ _ => rfl, fun _ _ => rfl⟩, trivial⟩, trivial, ⟨trivial, trivial⟩, trivial⟩

theorem accept_writes_listed_mockNested :
    MockNested.getVisitable.calls (MockNested.getVisitable.accept (functions assigner 0) ⟨0, ⟨0⟩⟩
      [⟨0, [⟨(), 1⟩, ⟨(), 9⟩]⟩]).inst = MockNested.getVisitable.calls ⟨1, ⟨9⟩⟩ := by
  have h := accept_writes_listed (m := [⟨0, []⟩]) (a := 0) rfl rfl listedOnce_mockNested
    (show collector.CanVisit _ from fun _ => ⟨rfl, rfl⟩) ⟨1, ⟨9⟩⟩
  exact (h.2 _ assigner id id _ _ _ _ ⟨0, ⟨0⟩⟩ Visitable.collects_collector rfl
    Visitable.assigns_assigner rfl (fun _ => ⟨rfl, rfl⟩) rfl rfl).2.1

end VisitorBase

end TheGame
