import Mathlib.Data.List.DropRight

/-!
# Tables that keep the first value

A table is started with some entries, and then values are registered under keys. A key that has a
value keeps it. `answer` reads the value of a key off the history of the table; a program that
updates a table of its own answers like the history if each of its steps does to the lookups what
`TableEvent.next` does (`foldl_next_filterMap`).
-/

/-- What happens to a table with keys `κ` and values `ν`. -/
inductive TableEvent (κ ν : Type*)
  /-- The table is replaced by one with these entries. -/
  | start (initial : κ → Option ν)
  | register (key : κ) (value : ν)

namespace TableEvent

variable {κ ν : Type*} {k k' : κ} {v : ν} {es fs : List (TableEvent κ ν)}

/-- The entries that a `start` brings. -/
def initial? : TableEvent κ ν → Option (κ → Option ν)
  | start initial => some initial
  | register .. => none

/-- The entries of the last `start`; a table without one begins empty. -/
def initial (es : List (TableEvent κ ν)) : κ → Option ν :=
  (es.reverse.findSome? initial?).getD fun _ => none

/-- The events after the last `start`. -/
def recent (es : List (TableEvent κ ν)) : List (TableEvent κ ν) :=
  es.rtakeWhile fun e => e.initial?.isNone

variable [DecidableEq κ]

/-- The value that is registered for the key `k`. -/
def value? (k : κ) : TableEvent κ ν → Option ν
  | start _ => none
  | register key value => if key = k then some value else none

/-- The entry the table was last started with, or else the first value registered since. -/
def answer (es : List (TableEvent κ ν)) (k : κ) : Option ν :=
  (initial es k).or ((recent es).findSome? (value? k))

/-- The lookups after an event. -/
def next (t : κ → Option ν) : TableEvent κ ν → κ → Option ν
  | start initial, k => initial k
  | register key value, k => (t k).or (if key = k then some value else none)

theorem answer_nil : answer ([] : List (TableEvent κ ν)) = fun _ => none := rfl

theorem answer_concat (e : TableEvent κ ν) : answer (es ++ [e]) = next (answer es) e := by
  funext k
  cases e with
  | start initial =>
    have hrecent : recent (es ++ [start initial]) = [] :=
      List.rtakeWhile_concat_neg _ _ _ Bool.false_ne_true
    rw [answer, hrecent, TableEvent.initial, List.reverse_append]
    exact Option.or_none
  | register key value =>
    have hrecent : recent (es ++ [register key value]) = recent es ++ [register key value] :=
      List.rtakeWhile_concat_pos _ _ _ rfl
    have hinitial : initial (es ++ [register key value]) = initial es := by
      rw [initial, List.reverse_append]
      rfl
    rw [answer, hrecent, hinitial, List.findSome?_append, ← Option.or_assoc, ← answer, next]
    congr 1
    by_cases h : key = k <;> simp [value?, h]

/-- The history, event by event. -/
theorem answer_eq_foldl (es : List (TableEvent κ ν)) :
    answer es = es.foldl next fun _ => none := by
  induction es using List.reverseRecOn with
  | nil => rw [answer_nil, List.foldl_nil]
  | append_singleton es e ih => rw [answer_concat, List.foldl_append, ← ih]; rfl

/-- The lookups of one key do not depend on those of the others. -/
theorem foldl_next_congr {t t' : κ → Option ν} (h : t k = t' k) :
    es.foldl next t k = es.foldl next t' k := by
  induction es generalizing t t' with
  | nil => exact h
  | cons e es ih =>
    refine ih ?_
    cases e with
    | start initial => rfl
    | register key value => rw [next, next, h]

/-- A registration under another key changes nothing, wherever it comes. -/
theorem answer_insert (h : k' ≠ k) :
    answer (es ++ register k' v :: fs) k = answer (es ++ fs) k := by
  simp only [answer_eq_foldl, List.foldl_append, List.foldl_cons]
  exact foldl_next_congr (by rw [next, if_neg h, Option.or_none])

/-- The run lemma: where each step does to the lookups what its event says, if it has one, a run
answers as its history does. -/
theorem foldl_next_filterMap {S C : Type*} (look : S → κ → Option ν) {apply : S → C → S}
    {event : C → Option (TableEvent κ ν)}
    (h : ∀ s c, look (apply s c) = (event c).elim (look s) (next (look s))) (s : S) (cs : List C) :
    look (cs.foldl apply s) = (cs.filterMap event).foldl next (look s) := by
  induction cs generalizing s with
  | nil => rfl
  | cons c cs ih =>
    rw [List.foldl_cons, ih, h]
    cases hc : event c with
    | none => rw [List.filterMap_cons_none hc]; rfl
    | some e => rw [List.filterMap_cons_some hc]; rfl

end TableEvent
