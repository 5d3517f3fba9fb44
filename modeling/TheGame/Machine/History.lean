import Mathlib.Data.List.Induction

/-!
# Histories

A property of the order of things in a history: each entry is related to the list of the entries
before it.
-/

/-- Every entry of the history stands in the relation `Q` to the entries before it. -/
def Causal {α : Type*} (Q : List α → α → Prop) (l : List α) : Prop :=
  ∀ pre a post, l = pre ++ a :: post → Q pre a

section
variable {α : Type*} {Q : List α → α → Prop} {l m : List α} {a : α}

theorem causal_iff_getElem :
    Causal Q l ↔ ∀ i : Fin l.length, Q (l.take i) l[i] := by
  constructor
  · intro h i
    refine h _ _ (l.drop (i + 1)) ?_
    rw [Fin.getElem_fin, ← List.drop_eq_getElem_cons i.isLt, List.take_append_drop]
  · rintro h pre a post rfl
    simpa using h ⟨pre.length, by simp⟩

instance [∀ l a, Decidable (Q l a)] (l : List α) : Decidable (Causal Q l) :=
  decidable_of_iff _ causal_iff_getElem.symm

theorem causal_nil : Causal Q [] := by
  intro pre a post h
  cases pre <;> cases h

theorem causal_concat : Causal Q (l ++ [a]) ↔ Causal Q l ∧ Q l a := by
  constructor
  · intro h
    exact ⟨fun pre b post hl => h pre b (post ++ [a]) (by simp [hl]), h l a [] rfl⟩
  · rintro ⟨h, ha⟩ pre b post hl
    induction post using List.reverseRecOn with
    | nil =>
      obtain ⟨rfl, hb⟩ := List.append_inj' hl rfl
      exact List.head_eq_of_cons_eq hb ▸ ha
    | append_singleton post c _ =>
      rw [← List.cons_append, ← List.append_assoc] at hl
      exact h pre b post (List.append_inj' hl rfl).1

theorem Causal.prefix (h : Causal Q l) (hm : m <+: l) : Causal Q m := by
  obtain ⟨n, rfl⟩ := hm
  intro pre a post hl
  exact h pre a (post ++ n) (by simp [hl])

/-- Entries of which the relation asks nothing may be added. -/
theorem causal_append (hm : ∀ pre, ∀ b ∈ m, Q pre b) : Causal Q (l ++ m) ↔ Causal Q l := by
  induction m using List.reverseRecOn with
  | nil => rw [List.append_nil]
  | append_singleton m b ih =>
    rw [← List.append_assoc, causal_concat,
      ih fun pre c hc => hm pre c (List.mem_append_left _ hc)]
    exact and_iff_left (hm _ b (List.mem_append_right _ (List.mem_singleton_self b)))

end
