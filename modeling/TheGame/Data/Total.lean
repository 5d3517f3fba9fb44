import Mathlib.Data.List.Basic

/-!
# Totals

The sum of a measure over the elements of a list, and what replacing or removing an element makes
of it.
-/

namespace List

variable {α : Type*} {f : α → Nat} {l l' : List α} {i : Nat} {a b : α}

/-- The sum of `f` over the elements. -/
def total (f : α → Nat) (l : List α) : Nat := l.foldr (fun a n => f a + n) 0

@[simp] theorem total_cons : total f (a :: l) = f a + total f l := rfl

theorem total_append : total f (l ++ l') = total f l + total f l' := by
  induction l with
  | nil => exact (Nat.zero_add _).symm
  | cons a l ih => rw [cons_append, total_cons, ih, total_cons, Nat.add_assoc]

theorem total_set (h : l[i]? = some a) : total f (l.set i b) + f a = total f l + f b := by
  induction l generalizing i with
  | nil => cases h
  | cons c l ih =>
    cases i with
    | zero =>
      cases h
      rw [set_cons_zero, total_cons, total_cons]
      omega
    | succ i =>
      have := ih (i := i) h
      rw [set_cons_succ, total_cons, total_cons]
      omega

theorem total_eraseIdx (h : l[i]? = some a) : total f (l.eraseIdx i) + f a = total f l := by
  induction l generalizing i with
  | nil => cases h
  | cons c l ih =>
    cases i with
    | zero =>
      cases h
      exact Nat.add_comm ..
    | succ i =>
      have := ih (i := i) h
      rw [eraseIdx_cons_succ, total_cons, total_cons]
      omega

end List
