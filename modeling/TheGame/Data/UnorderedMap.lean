import Mathlib.Data.List.AList
import TheGame.Data.Total

/-!
# `std::unordered_map`

A finite map is a list of entries with distinct keys. `find` is `AList.lookup`, `m[k] = v` is
`AList.insert`, `erase(k)` is `AList.erase`; `emplace` adds an entry only if the key is new.
The order of the entries means nothing: whoever iterates takes any permutation of `toPairs`.
-/

/-- `std::unordered_map<κ, ν>`. -/
abbrev UnorderedMap (κ ν : Type*) := AList fun _ : κ => ν

namespace UnorderedMap

variable {κ ν : Type*} [DecidableEq κ]

/-- `emplace(k, v)`: an entry that is already there stays as it is. -/
def emplace (m : UnorderedMap κ ν) (k : κ) (v : ν) : UnorderedMap κ ν :=
  if (m.lookup k).isSome then m else m.insert k v

/-- The entries, as pairs. -/
def toPairs (m : UnorderedMap κ ν) : List (κ × ν) := m.entries.map fun e => (e.1, e.2)

/-- The map with `f` applied to the values. -/
def map {ν' : Type*} (f : ν → ν') (m : UnorderedMap κ ν) : UnorderedMap κ ν' where
  entries := m.entries.map fun e => ⟨e.1, f e.2⟩
  nodupKeys := by
    have h : (m.entries.map fun e => (⟨e.1, f e.2⟩ : Sigma fun _ : κ => ν')).keys =
        m.entries.keys := by
      simp [List.keys]
    rw [List.NodupKeys, h]
    exact m.nodupKeys

variable {m : UnorderedMap κ ν} {k k' : κ} {v v' : ν}

theorem lookup_map {ν' : Type*} {f : ν → ν'} : (map f m).lookup k = (m.lookup k).map f := by
  change (m.entries.map fun e => (⟨e.1, f e.2⟩ : Sigma fun _ : κ => ν')).dlookup k =
    (m.entries.dlookup k).map f
  induction m.entries with
  | nil => rfl
  | cons e l ih =>
    obtain ⟨a, v⟩ := e
    by_cases h : a = k
    · subst h
      rw [List.map_cons, List.dlookup_cons_eq, List.dlookup_cons_eq]
      rfl
    · have h' : k ≠ (⟨a, f v⟩ : Sigma fun _ : κ => ν').1 := Ne.symm h
      have h'' : k ≠ (⟨a, v⟩ : Sigma fun _ : κ => ν).1 := Ne.symm h
      rw [List.map_cons, List.dlookup_cons_ne _ _ h', List.dlookup_cons_ne _ _ h'']
      exact ih

/-- An entry after `m[k] = v` is the new one, or an old one of another key. -/
theorem lookup_insert_eq_some : (m.insert k v).lookup k' = some v' ↔
    k' = k ∧ v = v' ∨ k' ≠ k ∧ m.lookup k' = some v' := by
  by_cases h : k' = k
  · subst k'
    simp
  · simp [h, AList.lookup_insert_ne h]

theorem lookup_erase_eq_some :
    (m.erase k).lookup k' = some v ↔ k' ≠ k ∧ m.lookup k' = some v := by
  by_cases h : k' = k
  · subst k'
    simp
  · simp [h, AList.lookup_erase_ne h]

theorem lookup_emplace_self : (m.emplace k v).lookup k = some ((m.lookup k).getD v) := by
  unfold emplace
  cases h : m.lookup k <;> simp [h]

theorem lookup_emplace_ne (h : k' ≠ k) : (m.emplace k v).lookup k' = m.lookup k' := by
  unfold emplace
  split
  · rfl
  · exact AList.lookup_insert_ne h

theorem lookup_emplace : (m.emplace k v).lookup k' =
    (m.lookup k').or (if k = k' then some v else none) := by
  by_cases h : k = k'
  · subst k'
    rw [lookup_emplace_self, if_pos rfl]
    cases m.lookup k <;> rfl
  · rw [lookup_emplace_ne (Ne.symm h), if_neg h, Option.or_none]

/-- Emplacing a list of entries adds the first entry of each new key. -/
theorem lookup_foldl_emplace (ps : List (κ × ν)) :
    (ps.foldl (fun m p => m.emplace p.1 p.2) m).lookup k =
      (m.lookup k).or ((ps.find? (·.1 = k)).map (·.2)) := by
  induction ps generalizing m with
  | nil => simp
  | cons p ps ih =>
    rw [List.foldl_cons, ih, lookup_emplace, Option.or_assoc, List.find?_cons]
    by_cases h : p.1 = k <;> simp [h]

/-- The sum of `f` over the values. -/
def total (f : ν → Nat) (m : UnorderedMap κ ν) : Nat := m.entries.total fun e => f e.2

theorem total_erase {f : ν → Nat} (h : m.lookup k = some v) :
    total f (m.erase k) + f v = total f m := by
  obtain ⟨v', l₁, l₂, -, hl, herase⟩ :=
    List.exists_of_kerase (AList.lookup_isSome.mp (Option.isSome_of_eq_some h))
  have hv : v = v' := by
    refine m.nodupKeys.eq_of_mk_mem (AList.mem_lookup_iff.mp h) ?_
    rw [hl]
    exact List.mem_append_right _ List.mem_cons_self
  subst hv
  rw [total, show (m.erase k).entries = l₁ ++ l₂ from herase, total, hl, List.total_append,
    List.total_append, List.total_cons]
  dsimp only
  omega

theorem total_insert {f : ν → Nat} (h : m.lookup k = some v') :
    total f (m.insert k v) + f v' = total f m + f v := by
  rw [← total_erase h, total, AList.entries_insert, List.total_cons]
  change f v + total f (m.erase k) + f v' = _
  omega

theorem mem_toPairs : (k, v) ∈ m.toPairs ↔ m.lookup k = some v := by
  rw [← Option.mem_def, AList.mem_lookup_iff, toPairs, List.mem_map]
  constructor
  · rintro ⟨⟨_, _⟩, h, he⟩
    cases he
    exact h
  · intro h
    exact ⟨⟨k, v⟩, h, rfl⟩

theorem eq_empty (h : ∀ k, m.lookup k = none) : m = ∅ := by
  refine AList.ext (List.eq_nil_iff_forall_not_mem.mpr fun e he => ?_)
  have hl : m.lookup e.1 = some e.2 := AList.mem_lookup_iff.mpr he
  rw [h] at hl
  cases hl

end UnorderedMap
